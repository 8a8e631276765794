import Mathlib.Logic.Function.Basic
import SolidServer.Effects.Program

/-!
# Interleaved runs

Programs that run side by side: at every moment one of them performs its next
operation, or the environment changes the world.  A run leaves a trace of moves, each
with the world it started from and the world it led to; the events of one program,
its operations and the answers it got, are read off that trace.

The logic for them separates the two concerns.

* `Program.Obeys A G p Q` looks at one program only: whatever admissible answers (`A`)
  it is given, it performs permitted operations (`G`) and its events and result
  satisfy `Q`.
* `Interleaves.invariant` looks at the world only: an invariant that makes every
  answer admissible, and that permitted operations and the environment preserve, holds
  along every run, and every program that ends satisfies its `Q`.
-/

namespace SolidServer.Effects

variable {S : Signature} {ε α β : Type} {W : Type}

/-- An operation together with its answer. -/
structure Event (S : Signature) where
  op : S.Op
  answer : S.Res op

namespace Program

/-! ## §1 One program under arbitrary answers -/

/-- The program `p` goes on as `q` after the events of `log`. -/
inductive Path : Program S ε α → List (Event S) → Program S ε α → Prop
  | nil (p) : Path p [] p
  | cons {o k r log q} (h : Path (k r) log q) : Path (.step o k) (⟨o, r⟩ :: log) q

/-- The operations on a path are among those the program uses. -/
theorem Path.uses {p q : Program S ε α} {log : List (Event S)} (h : Path p log q)
    {C : S.Op → Prop} (hp : p.Uses C) : ∀ e ∈ log, C e.op := by
  induction h with
  | nil p => simp
  | cons _ ih =>
    intro e he
    rcases List.mem_cons.mp he with rfl | he
    · exact hp.1
    · exact ih (hp.2 _) e he

/-- What is left of `p`, and the world, after `n` of its operations. -/
def advance (sem : Semantics S W) : Nat → Program S ε α → W → Program S ε α × W
  | 0, p, w => (p, w)
  | _ + 1, .ret r, w => (.ret r, w)
  | n + 1, .step o k, w => advance sem n (k (sem w o).1) (sem w o).2

/-- Under admissible answers `p` performs permitted operations, and its events and its
result satisfy `Q`. -/
def Obeys (A : (o : S.Op) → S.Res o → Prop) (G : S.Op → Prop) :
    Program S ε α → (List (Event S) → Except ε α → Prop) → Prop
  | .ret r, Q => Q [] r
  | .step o k, Q => G o ∧ ∀ r, A o r → (k r).Obeys A G fun log x => Q (⟨o, r⟩ :: log) x

namespace Obeys

variable {A : (o : S.Op) → S.Res o → Prop} {G : S.Op → Prop}

variable {Q R : List (Event S) → Except ε α → Prop} {o : S.Op} {p : Program S ε α}

theorem pure {a : α} (h : Q [] (.ok a)) :
    Obeys A G (Pure.pure a : Program S ε α) Q := h

theorem throw {e : ε} (h : Q [] (.error e)) :
    Obeys A G (MonadExcept.throw e : Program S ε α) Q := h

theorem ofExcept {r : Except ε α} (h : Q [] r) :
    Obeys A G (Program.ofExcept r : Program S ε α) Q := h

theorem call {Q : List (Event S) → Except ε (S.Res o) → Prop} (ho : G o)
    (h : ∀ r, A o r → Q [⟨o, r⟩] (.ok r)) :
    Obeys A G (Program.call o : Program S ε (S.Res o)) Q := ⟨ho, h⟩

/-- Performing an operation hands any admissible answer to the rest. -/
theorem call_bind {f : S.Res o → Program S ε β} {Q : List (Event S) → Except ε β → Prop} (ho : G o)
    (h : ∀ r, A o r → (f r).Obeys A G fun log x => Q (⟨o, r⟩ :: log) x) :
    Obeys A G (Program.call o >>= f) Q := ⟨ho, h⟩

/-- The consequence rule. -/
theorem mono (h : p.Obeys A G Q) (hQR : ∀ log r, Q log r → R log r) : p.Obeys A G R := by
  induction p generalizing Q R with
  | ret r => exact hQR [] r h
  | step o k ih => exact ⟨h.1, fun r hr => ih r (h.2 r hr) fun log x => hQR (⟨o, r⟩ :: log) x⟩

/-- The permitted operations of one derivation and the conclusions of both. -/
theorem and_left {G' : S.Op → Prop} (hQ : p.Obeys A G Q) (hR : p.Obeys A G' R) :
    p.Obeys A G fun log r => Q log r ∧ R log r := by
  induction p generalizing Q R with
  | ret r => exact ⟨hQ, hR⟩
  | step o k ih => exact ⟨hQ.1, fun r hr => ih r (hQ.2 r hr) (hR.2 r hr)⟩

theorem and (hQ : p.Obeys A G Q) (hR : p.Obeys A G R) :
    p.Obeys A G fun log r => Q log r ∧ R log r :=
  hQ.and_left hR

/-- **Sequencing**: the events of the parts follow each other. -/
theorem bind {p : Program S ε α} {f : α → Program S ε β}
    {R : List (Event S) → Except ε α → Prop} {Q : List (Event S) → Except ε β → Prop}
    (hp : p.Obeys A G R)
    (hok : ∀ log a, R log (.ok a) → (f a).Obeys A G fun log' x => Q (log ++ log') x)
    (herr : ∀ log e, R log (.error e) → Q log (.error e)) : (p >>= f).Obeys A G Q := by
  show (p.bind f).Obeys A G Q
  induction p generalizing R Q with
  | ret r =>
    cases r with
    | ok a => exact hok [] a hp
    | error e => exact herr [] e hp
  | step o k ih =>
    refine ⟨hp.1, fun r hr => ih r (hp.2 r hr) ?_ ?_⟩
    · intro log a h
      exact hok (⟨o, r⟩ :: log) a h
    · intro log e h
      exact herr (⟨o, r⟩ :: log) e h

theorem attempt {Q : List (Event S) → Except ε (Except ε α) → Prop}
    (h : p.Obeys A G fun log r => Q log (.ok r)) : p.attempt.Obeys A G Q := by
  induction p generalizing Q with
  | ret r => exact h
  | step o k ih => exact ⟨h.1, fun r hr => ih r (h.2 r hr)⟩

/-- An attempt does not fail: its continuation receives every result. -/
theorem attempt_bind {p : Program S ε α} {f : Except ε α → Program S ε β}
    {R : List (Event S) → Except ε α → Prop} {Q : List (Event S) → Except ε β → Prop}
    (hp : p.Obeys A G R)
    (hf : ∀ log r, R log r → (f r).Obeys A G fun log' x => Q (log ++ log') x) :
    (p.attempt >>= f).Obeys A G Q := by
  refine bind (R := fun log r => ∃ x, r = .ok x ∧ R log x) (attempt ?_) ?_ ?_
  · exact hp.mono fun log r h => ⟨r, rfl, h⟩
  · rintro log a ⟨x, ⟨⟩, h⟩
    exact hf log a h
  · rintro log e ⟨x, ⟨⟩, -⟩

theorem any (p : Program S ε α) : p.Obeys A (fun _ => True) fun _ _ => True := by
  induction p with
  | ret r => trivial
  | step o k ih => exact ⟨trivial, fun r _ => ih r⟩

/-- The events of a program satisfy what all its operations satisfy. -/
theorem of_uses {P : S.Op → Prop} (hp : p.Uses P) (hG : ∀ o, P o → G o) :
    p.Obeys A G fun log _ => ∀ e ∈ log, P e.op := by
  induction p with
  | ret r => intro e he; cases he
  | step o k ih =>
    refine ⟨hG o hp.1, fun r _ => (ih r (hp.2 r)).mono fun log x h e he => ?_⟩
    rcases List.mem_cons.mp he with rfl | he
    · exact hp.1
    · exact h e he

/-- The errors of a program are those it can raise. -/
theorem of_raises {P : ε → Prop} (hp : p.Raises P) :
    p.Obeys A (fun _ => True) fun _ r => ∀ e, r = .error e → P e := by
  induction p with
  | ret r =>
    rintro e rfl
    exact hp
  | step o k ih => exact ⟨trivial, fun r _ => ih r (hp r)⟩

/-- The values of a program are those it can return. -/
theorem of_returns {P : α → Prop} (hp : p.Returns P) :
    p.Obeys A (fun _ => True) fun _ r => ∀ a, r = .ok a → P a := by
  induction p with
  | ret r =>
    rintro a rfl
    exact hp
  | step o k ih => exact ⟨trivial, fun r _ => ih r (hp r)⟩

/-- Under arbitrary answers the permitted operations are all a program uses. -/
theorem uses (h : p.Obeys (fun _ _ => True) G Q) : p.Uses G := by
  induction p generalizing Q with
  | ret r => trivial
  | step o k ih => exact ⟨h.1, fun r => ih r (h.2 r trivial)⟩

/-- Fewer answers to be prepared for, more operations to choose from. -/
theorem weaken {A' : (o : S.Op) → S.Res o → Prop} {G' : S.Op → Prop} (h : p.Obeys A G Q)
    (hA : ∀ o r, A' o r → A o r) (hG : ∀ o, G o → G' o) : p.Obeys A' G' Q := by
  induction p generalizing Q with
  | ret r => exact h
  | step o k ih => exact ⟨hG o h.1, fun r hr => ih r (h.2 r (hA o r hr))⟩

/-- What a program obeys, its finished paths satisfy. -/
theorem of_path {log : List (Event S)} {r : Except ε α} (h : p.Obeys A G Q)
    (hpath : Path p log (.ret r)) (hA : ∀ e ∈ log, A e.op e.answer) : Q log r := by
  generalize hq : (Program.ret r : Program S ε α) = q at hpath
  induction hpath generalizing Q with
  | nil p => subst hq; exact h
  | @cons o k x log q _ ih =>
    refine ih (h.2 x (hA ⟨o, x⟩ List.mem_cons_self)) (fun e he => ?_) hq
    exact hA e (List.mem_cons_of_mem _ he)

/-- What a program obeys holds of a run alone. -/
theorem run (h : p.Obeys A G Q) (sem : Semantics S W) (hA : ∀ w o, A o (sem w o).1) (w : W) :
    ∃ log, Q log (p.run sem w).1 := by
  induction p generalizing Q w with
  | ret r => exact ⟨[], h⟩
  | step o k ih =>
    obtain ⟨log, hlog⟩ := ih (sem w o).1 (h.2 _ (hA w o)) (sem w o).2
    exact ⟨⟨o, (sem w o).1⟩ :: log, hlog⟩

/-- The next operation on a path with admissible answers is permitted. -/
theorem next_op {log : List (Event S)} {k : S.Res o → Program S ε α} (h : p.Obeys A G Q)
    (hpath : Path p log (.step o k)) (hA : ∀ e ∈ log, A e.op e.answer) : G o := by
  generalize hq : (Program.step o k : Program S ε α) = q at hpath
  induction hpath generalizing Q with
  | nil p => subst hq; exact h.1
  | @cons o' k' x log q _ ih =>
    refine ih (h.2 x (hA ⟨o', x⟩ List.mem_cons_self)) (fun e he => ?_) hq
    exact hA e (List.mem_cons_of_mem _ he)

end Obeys

section
variable {E P : ε → Prop} {B : (α : Type) → Program S ε α → Prop} {p : Program S ε α}
  {A : (o : S.Op) → S.Res o → Prop} {G : S.Op → Prop}

/-- **What every block obeys, the program obeys.** -/
theorem Built.obeys (h : Built E B P p)
    (hB : ∀ (β : Type) (q : Program S ε β), B β q → q.Obeys A G fun _ _ => True) :
    p.Obeys A G fun _ _ => True := by
  -- an attempted part hands on one of the errors of the blocks
  suffices hp : p.Obeys A G fun _ r => ∀ e, r = .error e → P e from hp.mono fun _ _ _ => trivial
  induction h with
  | ret h => exact h
  | block h hr hP =>
    exact ((hB _ _ h).and_left (Obeys.of_raises hr)).mono fun _ _ h e he => hP e (h.2 e he)
  | bind_returns _ hr _ ihp ihf =>
    refine Obeys.bind (ihp.and_left (Obeys.of_returns hr)) (fun _ a ha => ihf a (ha.2 a rfl)) ?_
    rintro _ e ⟨he, -⟩ _ ⟨⟩
    exact he e rfl
  | attempt_bind _ _ _ ihp ihok iherr =>
    refine Obeys.attempt_bind ihp fun _ r hr => ?_
    cases r with
    | ok a => exact ihok a
    | error e => exact iherr e (hr e rfl)

theorem Built.uses (h : Built E B P p)
    (hB : ∀ (β : Type) (q : Program S ε β), B β q → q.Uses G) : p.Uses G :=
  (h.obeys fun β q hq =>
    (Obeys.of_uses (A := fun _ _ => True) (hB β q hq) fun _ h => h).mono fun _ _ _ => trivial).uses

end

end Program

/-! ## §2 Many programs -/

variable {ι : Type}

/-- One move of a run: a program's operation, or a change by the environment (`none`). -/
structure Move (ι : Type) (S : Signature) (W : Type) where
  actor : Option (ι × S.Op)
  before : W
  after : W

/-- The event a move is for the program `i`. -/
def Move.eventOf [DecidableEq ι] (sem : Semantics S W) (i : ι) (m : Move ι S W) :
    Option (Event S) :=
  match m.actor with
  | some (j, o) => if j = i then some ⟨o, (sem m.before o).1⟩ else none
  | none => none

/-- The events of the program `i` along a trace. -/
def ownEvents [DecidableEq ι] (sem : Semantics S W) (i : ι) (tr : List (Move ι S W)) :
    List (Event S) :=
  tr.filterMap (Move.eventOf sem i)

section
variable [DecidableEq ι] {γ : ι → Type}

@[simp] theorem ownEvents_own_self (sem : Semantics S W) (i : ι) (o : S.Op) (w v : W)
    (tr : List (Move ι S W)) :
    ownEvents sem i (⟨some (i, o), w, v⟩ :: tr) = ⟨o, (sem w o).1⟩ :: ownEvents sem i tr := by
  simp [ownEvents, Move.eventOf]

variable {i : ι} {sem : Semantics S W} {e : Event S}

theorem ownEvents_own_ne (sem : Semantics S W) {j : ι} (h : j ≠ i) (o : S.Op) (w v : W)
    (tr : List (Move ι S W)) :
    ownEvents sem i (⟨some (j, o), w, v⟩ :: tr) = ownEvents sem i tr := by
  simp [ownEvents, Move.eventOf, h]

@[simp] theorem ownEvents_env (sem : Semantics S W) (i : ι) (w v : W)
    (tr : List (Move ι S W)) : ownEvents sem i (⟨none, w, v⟩ :: tr) = ownEvents sem i tr := rfl

/-- An event of a program splits the trace at the move it came from. -/
theorem ownEvents_split {tr : List (Move ι S W)} {l₁ l₂ : List (Event S)}
    (h : ownEvents sem i tr = l₁ ++ e :: l₂) :
    ∃ t₁ m t₂, tr = t₁ ++ m :: t₂ ∧ ownEvents sem i t₁ = l₁ ∧ m.eventOf sem i = some e ∧
      ownEvents sem i t₂ = l₂ := by
  obtain ⟨t₁, t, rfl, h₁, h'⟩ := List.filterMap_eq_append_iff.mp h
  obtain ⟨u, m, t₂, rfl, hu, hm, h₂⟩ := List.filterMap_eq_cons_iff.mp h'
  have hnil : ownEvents sem i u = [] := List.filterMap_eq_nil_iff.mpr hu
  refine ⟨t₁ ++ u, m, t₂, by simp, ?_, hm, h₂⟩
  rw [ownEvents, List.filterMap_append, ← ownEvents, ← ownEvents, hnil, List.append_nil]
  exact h₁

/-- The first event of a program splits the trace at its first move. -/
theorem ownEvents_head {tr : List (Move ι S W)} {log : List (Event S)}
    (h : ownEvents sem i tr = e :: log) :
    ∃ t₁ m t₂, tr = t₁ ++ m :: t₂ ∧ m.eventOf sem i = some e ∧ ownEvents sem i t₂ = log := by
  obtain ⟨t₁, m, t₂, htr, -, hm, hlog⟩ := ownEvents_split (List.nil_append (e :: log) ▸ h)
  exact ⟨t₁, m, t₂, htr, hm, hlog⟩

/-- The move of an event: whose it is, and that its answer is the semantics'. -/
theorem Move.eventOf_eq_some {m : Move ι S W} (h : m.eventOf sem i = some e) :
    m.actor = some (i, e.op) ∧ e.answer = (sem m.before e.op).1 := by
  obtain ⟨actor, before, after⟩ := m
  cases actor with
  | none => cases h
  | some p =>
    obtain ⟨j, o⟩ := p
    simp only [Move.eventOf] at h
    split_ifs at h with hj
    obtain rfl := Option.some.inj h
    exact ⟨by rw [hj], rfl⟩

/-- A move has one event. -/
theorem Move.eventOf_unique {m : Move ι S W} {j : ι} {e' : Event S} (h : m.eventOf sem i = some e)
    (h' : m.eventOf sem j = some e') : i = j ∧ e = e' := by
  obtain ⟨hactor, -⟩ := eventOf_eq_some h
  obtain ⟨hactor', -⟩ := eventOf_eq_some h'
  obtain ⟨rfl, -⟩ := Prod.mk.inj (Option.some.inj (hactor.symm.trans hactor'))
  exact ⟨rfl, Option.some.inj (h.symm.trans h')⟩

/-- Of two moves of a trace, one comes first unless they are the same. -/
theorem first_of_two {M : Type} {tr : List M} {m m' : M} (h : m ∈ tr) (h' : m' ∈ tr) :
    m = m' ∨ (∃ t₁ t₂ t₃, tr = t₁ ++ m :: (t₂ ++ m' :: t₃)) ∨
      ∃ t₁ t₂ t₃, tr = t₁ ++ m' :: (t₂ ++ m :: t₃) := by
  obtain ⟨t₁, t₂, rfl⟩ := List.append_of_mem h
  rcases List.mem_append.mp h' with hbefore | hafter
  · obtain ⟨s₁, s₂, rfl⟩ := List.append_of_mem hbefore
    exact .inr (.inr ⟨s₁, s₂, t₂, by simp⟩)
  · rcases List.mem_cons.mp hafter with rfl | hafter
    · exact .inl rfl
    · obtain ⟨s₁, s₂, rfl⟩ := List.append_of_mem hafter
      exact .inr (.inl ⟨t₁, s₁, s₂, rfl⟩)

/-- A sequence of labelled steps of an abstract system. -/
inductive Steps {X L : Type} (R : L → X → X → Prop) : List L → X → X → Prop
  | nil (x) : Steps R [] x x
  | cons {l x y ls z} (h : R l x y) (hs : Steps R ls y z) : Steps R (l :: ls) x z

/-- **Interleaved runs**: the programs `P` started in `w` have made the moves of the trace,
what is left of them is `P'` and the world is `v`. -/
inductive Interleaves (sem : Semantics S W) (E : W → W → Prop) :
    ((i : ι) → Program S ε (γ i)) → W → List (Move ι S W) → ((i : ι) → Program S ε (γ i)) → W →
    Prop
  | done (P w) : Interleaves sem E P w [] P w
  | own {P w tr P' v} (i : ι) {o : S.Op} {k : S.Res o → Program S ε (γ i)}
      (hi : P i = .step o k)
      (h : Interleaves sem E (Function.update P i (k (sem w o).1)) (sem w o).2 tr P' v) :
      Interleaves sem E P w (⟨some (i, o), w, (sem w o).2⟩ :: tr) P' v
  | env {P w w' tr P' v} (hE : E w w') (h : Interleaves sem E P w' tr P' v) :
      Interleaves sem E P w (⟨none, w, w'⟩ :: tr) P' v

namespace Interleaves

variable {sem : Semantics S W} {E : W → W → Prop} {P P' : (i : ι) → Program S ε (γ i)}
  {w v : W} {tr : List (Move ι S W)}

/-- The events of each program lie on a path of that program. -/
theorem path (h : Interleaves sem E P w tr P' v) (i : ι) :
    Program.Path (P i) (ownEvents sem i tr) (P' i) := by
  induction h with
  | done P w => exact .nil _
  | @own P w tr P' v j o k hj _ ih =>
    by_cases hji : j = i
    · subst hji
      have ih' : Program.Path (k (sem w o).1) (ownEvents sem j tr) (P' j) := by simpa using ih
      rw [hj, ownEvents_own_self]
      exact .cons ih'
    · have ih' : Program.Path (P i) (ownEvents sem i tr) (P' i) := by
        simpa [Function.update_of_ne (Ne.symm hji)] using ih
      rwa [ownEvents_own_ne sem hji]
  | @env P w w' tr P' v _ _ ih => rwa [ownEvents_env]

variable {m : Move ι S W} {i : ι} {tr₁ tr₂ : List (Move ι S W)}

/-- A move of a run is a step of the semantics or of the environment. -/
theorem move_cases (h : Interleaves sem E P w tr P' v) (hm : m ∈ tr) :
    (∃ i o, m.actor = some (i, o) ∧ m.after = (sem m.before o).2) ∨
      (m.actor = none ∧ E m.before m.after) := by
  induction h with
  | done P w => cases hm
  | @own P w tr P' v i o k _ _ ih =>
    rcases List.mem_cons.mp hm with rfl | hm
    · exact .inl ⟨i, o, rfl, rfl⟩
    · exact ih hm
  | @env P w w' tr P' v hE _ ih =>
    rcases List.mem_cons.mp hm with rfl | hm
    · exact .inr ⟨rfl, hE⟩
    · exact ih hm

/-- A program's move leads where its operation leads. -/
theorem after_eq (h : Interleaves sem E P w tr P' v) (hm : m ∈ tr) {o : S.Op}
    (hactor : m.actor = some (i, o)) : m.after = (sem m.before o).2 := by
  rcases h.move_cases hm with ⟨j, o', hactor', hafter⟩ | ⟨hnone, -⟩
  · rw [hactor] at hactor'
    obtain ⟨-, rfl⟩ := Prod.mk.inj (Option.some.inj hactor')
    exact hafter
  · rw [hactor] at hnone
    cases hnone

/-- A run can be cut at any point of its trace. -/
theorem split (h : Interleaves sem E P w (tr₁ ++ tr₂) P' v) :
    ∃ Q u, Interleaves sem E P w tr₁ Q u ∧ Interleaves sem E Q u tr₂ P' v := by
  induction tr₁ generalizing P w with
  | nil => exact ⟨P, w, .done P w, h⟩
  | cons m tr₁ ih =>
    cases h with
    | own i hi h =>
      obtain ⟨Q, u, h₁, h₂⟩ := ih h
      exact ⟨Q, u, .own i hi h₁, h₂⟩
    | env hE h =>
      obtain ⟨Q, u, h₁, h₂⟩ := ih h
      exact ⟨Q, u, .env hE h₁, h₂⟩

/-- At a program's own move the run has come to that operation of the program. -/
theorem split_own {o : S.Op} {a b : W}
    (h : Interleaves sem E P w (tr₁ ++ ⟨some (i, o), a, b⟩ :: tr₂) P' v) :
    ∃ Q k, Interleaves sem E P w tr₁ Q a ∧ Q i = .step o k ∧ b = (sem a o).2 ∧
      Interleaves sem E (Function.update Q i (k (sem a o).1)) b tr₂ P' v := by
  obtain ⟨Q, u, h₁, h₂⟩ := h.split
  cases h₂ with
  | own i hi h₂ => exact ⟨Q, _, h₁, hi, rfl, h₂⟩

/-- A run before, at and after one of its moves. -/
theorem split_at (h : Interleaves sem E P w (tr₁ ++ m :: tr₂) P' v) :
    ∃ Q Q' : (i : ι) → Program S ε (γ i), Interleaves sem E P w tr₁ Q m.before ∧
      Interleaves sem E Q m.before [m] Q' m.after ∧ Interleaves sem E Q' m.after tr₂ P' v := by
  obtain ⟨Q, u, h₁, h₂⟩ := h.split
  cases h₂ with
  | own i hi h₂ => exact ⟨Q, _, h₁, .own i hi (.done _ _), h₂⟩
  | env hE h₂ => exact ⟨Q, Q, h₁, .env hE (.done _ _), h₂⟩

theorem append {Q : (i : ι) → Program S ε (γ i)} {u : W} (h₁ : Interleaves sem E P w tr₁ Q u)
    (h₂ : Interleaves sem E Q u tr₂ P' v) :
    Interleaves sem E P w (tr₁ ++ tr₂) P' v := by
  induction h₁ with
  | done P w => exact h₂
  | own i hi _ ih => exact .own i hi (ih h₂)
  | env hE _ ih => exact .env hE (ih h₂)

/-- A run under an environment that moves in another as well. -/
theorem under {E' : W → W → Prop} (h : Interleaves sem E P w tr P' v)
    (hE : ∀ m ∈ tr, E m.before m.after → E' m.before m.after) :
    Interleaves sem E' P w tr P' v := by
  induction h with
  | done P w => exact .done P w
  | own i hi _ ih => exact .own i hi (ih fun m hm => hE m (List.mem_cons_of_mem _ hm))
  | env hab _ ih =>
    exact .env (hE _ List.mem_cons_self hab) (ih fun m hm => hE m (List.mem_cons_of_mem _ hm))

/-- What holds of every move may be assumed of the environment's moves. -/
theorem restrict {K : W → W → Prop} (h : Interleaves sem E P w tr P' v)
    (hK : ∀ m ∈ tr, K m.before m.after) :
    Interleaves sem (fun a b => E a b ∧ K a b) P w tr P' v :=
  h.under fun m hm hE => ⟨hE, hK m hm⟩

/-- A run under a smaller environment is one under a larger. -/
theorem mono_env {E' : W → W → Prop} (h : Interleaves sem E P w tr P' v)
    (hE : ∀ a b, E a b → E' a b) : Interleaves sem E' P w tr P' v :=
  h.under fun m _ => hE m.before m.after

/-- What every move keeps holds at the end. -/
theorem keeps (I : W → Prop) (h : Interleaves sem E P w tr P' v)
    (hI : ∀ m ∈ tr, I m.before → I m.after) (hw : I w) : I v := by
  induction h with
  | done P w => exact hw
  | own i hi _ ih =>
    exact ih (fun m hm => hI m (List.mem_cons_of_mem _ hm)) (hI _ List.mem_cons_self hw)
  | env hE _ ih =>
    exact ih (fun m hm => hI m (List.mem_cons_of_mem _ hm)) (hI _ List.mem_cons_self hw)

/-- What the moves between two moves keep holds before the second if it holds after the first. -/
theorem keeps_between (I : W → Prop) (h : Interleaves sem E P w tr P' v)
    {t₁ t₂ t₃ : List (Move ι S W)} {a b : Move ι S W} (htr : tr = t₁ ++ a :: (t₂ ++ b :: t₃))
    (hI : ∀ m ∈ t₂, m ∈ tr → I m.before → I m.after) (ha : I a.after) : I b.before := by
  subst htr
  obtain ⟨-, Q, -, -, hrest⟩ := h.split_at
  obtain ⟨Q', -, hbetween, -, -⟩ := hrest.split_at
  exact hbetween.keeps I (fun m hm => hI m hm (by simp [hm])) ha

/-- What holds at the end held at the start, or a move brought it about. -/
theorem brought (I : W → Prop) (h : Interleaves sem E P w tr P' v) (hv : I v) :
    I w ∨ ∃ m ∈ tr, ¬ I m.before ∧ I m.after := by
  by_contra hnot
  rw [not_or] at hnot
  obtain ⟨hstart, hnone⟩ := hnot
  exact h.keeps (fun u => ¬ I u) (fun m hm hbefore hafter => hnone ⟨m, hm, hbefore, hafter⟩) hstart hv

/-- An observation no move changes is the same at both ends. -/
theorem unchanged {X : Type} (f : W → X) (h : Interleaves sem E P w tr P' v)
    (hf : ∀ m ∈ tr, f m.after = f m.before) : f v = f w :=
  h.keeps (fun u => f u = f w) (fun m hm hbefore => (hf m hm).trans hbefore) rfl

/-- What every move keeps holds before each of them. -/
theorem holds_before (I : W → Prop) (h : Interleaves sem E P w tr P' v)
    (hI : ∀ m ∈ tr, I m.before → I m.after) (hw : I w) : ∀ m ∈ tr, I m.before := by
  intro m hm
  obtain ⟨t₁, t₂, rfl⟩ := List.append_of_mem hm
  obtain ⟨Q, -, hpast, -, -⟩ := h.split_at
  exact hpast.keeps I (fun m hm => hI m (List.mem_append_left _ hm)) hw

/-- The moves of a program that runs to its end undisturbed. -/
def solo (sem : Semantics S W) (i : ι) {α : Type} : Program S ε α → W → List (Move ι S W)
  | .ret _, _ => []
  | .step o k, w => ⟨some (i, o), w, (sem w o).2⟩ :: solo sem i (k (sem w o).1) (sem w o).2

/-- A program may run to its end while all others wait. -/
theorem alone (sem : Semantics S W) (E : W → W → Prop) (P : (i : ι) → Program S ε (γ i)) (w : W)
    (i : ι) : Interleaves sem E P w (solo sem i (P i) w)
      (Function.update P i (.ret ((P i).run sem w).1)) ((P i).run sem w).2 := by
  generalize hp : P i = p
  induction p generalizing P w with
  | ret r =>
    have hself : Function.update P i (.ret r) = P := by rw [← hp, Function.update_eq_self]
    simp only [solo, Program.run_ret, hself]
    exact .done P w
  | step o k ih =>
    have hnext := ih (sem w o).1 (Function.update P i (k (sem w o).1)) (sem w o).2 (by simp)
    rw [Function.update_idem] at hnext
    exact .own i hp hnext

/-- Two programs may run to their ends one after the other. -/
theorem in_turn (sem : Semantics S W) (E : W → W → Prop) (P : (i : ι) → Program S ε (γ i)) (w : W)
    {j : ι} (hij : j ≠ i) :
    Interleaves sem E P w
      (solo sem i (P i) w ++ solo sem j (P j) ((P i).run sem w).2)
      (Function.update (Function.update P i (.ret ((P i).run sem w).1)) j
        (.ret ((P j).run sem ((P i).run sem w).2).1))
      ((P j).run sem ((P i).run sem w).2).2 := by
  have hsecond := alone sem E (Function.update P i (.ret ((P i).run sem w).1)) ((P i).run sem w).2 j
  rw [Function.update_of_ne hij] at hsecond
  exact (alone sem E P w i).append hsecond

/-- The first `n` moves of a program that runs undisturbed. -/
def ahead (sem : Semantics S W) (i : ι) {α : Type} :
    Nat → Program S ε α → W → List (Move ι S W)
  | 0, _, _ => []
  | _ + 1, .ret _, _ => []
  | n + 1, .step o k, w => ⟨some (i, o), w, (sem w o).2⟩ :: ahead sem i n (k (sem w o).1) (sem w o).2

/-- A program may make its first `n` moves while all others wait. -/
theorem some_way (sem : Semantics S W) (E : W → W → Prop) (P : (i : ι) → Program S ε (γ i)) (w : W)
    (i : ι) (n : Nat) : Interleaves sem E P w (ahead sem i n (P i) w)
      (Function.update P i (Program.advance sem n (P i) w).1) (Program.advance sem n (P i) w).2 := by
  generalize hp : P i = p
  induction n generalizing P w p with
  | zero =>
    have hself : Function.update P i p = P := by rw [← hp, Function.update_eq_self]
    simp only [ahead, Program.advance, hself]
    exact .done P w
  | succ n ih =>
    cases p with
    | ret r =>
      have hself : Function.update P i (.ret r) = P := by rw [← hp, Function.update_eq_self]
      simp only [ahead, Program.advance, hself]
      exact .done P w
    | step o k =>
      have hnext := ih (Function.update P i (k (sem w o).1)) (sem w o).2 (k (sem w o).1) (by simp)
      rw [Function.update_idem] at hnext
      exact .own i hp hnext

/-- **The invariant rule**, for runs all of whose operations are known to satisfy `K`.  `I` makes
answers admissible and is kept by permitted operations and by the environment: it holds along
the run, and programs that end satisfy their `Q`. -/
theorem invariant_on {A : (o : S.Op) → S.Res o → Prop} {G K : S.Op → Prop} {I : W → Prop}
    {Q : (i : ι) → List (Event S) → Except ε (γ i) → Prop}
    (hA : ∀ w o, I w → A o (sem w o).1) (hG : ∀ w o, I w → G o → K o → I (sem w o).2)
    (hE : ∀ w w', I w → E w w' → I w') (hP : ∀ i, (P i).Obeys A G (Q i))
    (h : Interleaves sem E P w tr P' v) (hK : ∀ m ∈ tr, ∀ i o, m.actor = some (i, o) → K o)
    (hw : I w) :
    (∀ m ∈ tr, I m.before ∧ I m.after) ∧ I v ∧
      ∀ i r, P' i = .ret r → Q i (ownEvents sem i tr) r := by
  induction h generalizing Q with
  | done P w =>
    refine ⟨by simp, hw, fun i r hr => ?_⟩
    have hi := hP i
    rw [hr] at hi
    exact hi
  | @own P w tr P' v i o k hi _ ih =>
    have hstep : G o ∧ ∀ r, A o r → (k r).Obeys A G fun log x => Q i (⟨o, r⟩ :: log) x := by
      have := hP i
      rwa [hi] at this
    have hnext : I (sem w o).2 := hG w o hw hstep.1 (hK _ List.mem_cons_self i o rfl)
    -- the program that moved has one more event before the rest of its log
    obtain ⟨hmoves, hv, hres⟩ := ih (Q := fun j log x =>
      if j = i then Q j (⟨o, (sem w o).1⟩ :: log) x else Q j log x) (fun j => by
        by_cases hj : j = i
        · subst hj
          simpa using hstep.2 _ (hA w o hw)
        · simpa [Function.update_of_ne hj, hj] using hP j)
      (fun m hm => hK m (List.mem_cons_of_mem _ hm)) hnext
    refine ⟨?_, hv, fun j r hr => ?_⟩
    · intro m hm
      rcases List.mem_cons.mp hm with rfl | hm
      · exact ⟨hw, hnext⟩
      · exact hmoves m hm
    · have hj := hres j r hr
      by_cases hji : j = i
      · subst hji
        rw [ownEvents_own_self]
        simpa using hj
      · rw [ownEvents_own_ne sem (Ne.symm hji)]
        simpa [hji] using hj
  | @env P w w' tr P' v hstep _ ih =>
    obtain ⟨hmoves, hv, hres⟩ := ih hP (fun m hm => hK m (List.mem_cons_of_mem _ hm))
      (hE w w' hw hstep)
    refine ⟨?_, hv, fun j r hr => ?_⟩
    · intro m hm
      rcases List.mem_cons.mp hm with rfl | hm
      · exact ⟨hw, hE w w' hw hstep⟩
      · exact hmoves m hm
    · rw [ownEvents_env]
      exact hres j r hr

/-- The invariant rule when every permitted operation keeps the invariant. -/
theorem invariant {A : (o : S.Op) → S.Res o → Prop} {G : S.Op → Prop} {I : W → Prop}
    {Q : (i : ι) → List (Event S) → Except ε (γ i) → Prop}
    (hA : ∀ w o, I w → A o (sem w o).1) (hG : ∀ w o, I w → G o → I (sem w o).2)
    (hE : ∀ w w', I w → E w w' → I w') (hP : ∀ i, (P i).Obeys A G (Q i))
    (h : Interleaves sem E P w tr P' v) (hw : I w) :
    (∀ m ∈ tr, I m.before ∧ I m.after) ∧ I v ∧
      ∀ i r, P' i = .ret r → Q i (ownEvents sem i tr) r :=
  h.invariant_on (K := fun _ => True) hA (fun w o hI ho _ => hG w o hI ho) hE hP
    (fun _ _ _ _ _ => trivial) hw

/-- **Abstraction of a run**: if every move is an abstract step with its label, or has no label
and is invisible, the run is an abstract run with the labels in order. -/
theorem abstracts {X L : Type} (f : W → X) (label : Move ι S W → Option L) {R : L → X → X → Prop}
    (h : Interleaves sem E P w tr P' v)
    (hstep : ∀ m ∈ tr, (label m = none ∧ f m.after = f m.before) ∨
      ∃ l, label m = some l ∧ R l (f m.before) (f m.after)) :
    Steps R (tr.filterMap label) (f w) (f v) := by
  have hcons : ∀ {m : Move ι S W} {t : List (Move ι S W)} {x : X},
      ((label m = none ∧ f m.after = f m.before) ∨
        ∃ l, label m = some l ∧ R l (f m.before) (f m.after)) →
      Steps R (t.filterMap label) (f m.after) x →
      Steps R ((m :: t).filterMap label) (f m.before) x := by
    rintro m t x (⟨hnone, hsame⟩ | ⟨l, hl, hR⟩) hrest
    · rw [List.filterMap_cons_none hnone, ← hsame]
      exact hrest
    · rw [List.filterMap_cons_some hl]
      exact .cons hR hrest
  induction h with
  | done P w => exact .nil _
  | own i hi _ ih =>
    exact hcons (hstep _ List.mem_cons_self) (ih fun m hm => hstep m (List.mem_cons_of_mem _ hm))
  | env hE _ ih =>
    exact hcons (hstep _ List.mem_cons_self) (ih fun m hm => hstep m (List.mem_cons_of_mem _ hm))

end Interleaves

end

end SolidServer.Effects
