import SolidServer.Effects.Interleaving

/-!
# Operations justified by what was seen

A program decides on an operation because of the answers it got before.  `Heeds G seen p Q`
says that, once it has seen the events of `seen`, every operation `p` performs is one that
`G` permits after the events up to there, whatever the answers are; `Q` is about the whole
history and the result.

In an interleaved run every operation is then permitted by the program's own events before
it (`Interleaves.heeds_at`), and an invariant of the trace so far and the world is proved
move by move (`Interleaves.along`).
-/

namespace SolidServer.Effects

variable {S : Signature} {ε α β : Type} {W : Type}

namespace Program

/-! ## §1 One program -/

/-- An operation that the first part never performs comes after a finished run of that part. -/
theorem Path.past {p : Program S ε α} {f : α → Program S ε β} {q : Program S ε β}
    {before after : List (Event S)} {e : Event S} {P : S.Op → Prop} (hp : p.Uses P)
    (he : ¬ P e.op) (h : Path (p >>= f) (before ++ e :: after) q) :
    ∃ log rest a, before = log ++ rest ∧ Path p log (.ret (.ok a)) ∧
      Path (f a) (rest ++ e :: after) q := by
  change Path (p.bind f) (before ++ e :: after) q at h
  induction p generalizing before with
  | ret r =>
    cases r with
    | ok a => exact ⟨[], before, a, rfl, .nil _, h⟩
    | error err => cases before <;> cases h
  | step o k ih =>
    cases before with
    | nil =>
      cases h
      exact absurd hp.1 he
    | cons d before =>
      cases h with
      | cons hrest =>
        obtain ⟨log, rest, a, rfl, hlog, hf⟩ := ih _ (hp.2 _) hrest
        exact ⟨_ :: log, rest, a, rfl, .cons hlog, hf⟩

/-- After the events of `seen`, the program performs only operations that `G` permits after
the events up to there; its history and its result satisfy `Q`. -/
def Heeds (G : List (Event S) → S.Op → Prop) (seen : List (Event S)) :
    Program S ε α → (List (Event S) → Except ε α → Prop) → Prop
  | .ret r, Q => Q seen r
  | .step o k, Q => G seen o ∧ ∀ r, (k r).Heeds G (seen ++ [⟨o, r⟩]) Q

namespace Heeds

variable {G : List (Event S) → S.Op → Prop} {seen : List (Event S)}

variable {Q : List (Event S) → Except ε α → Prop} {p : Program S ε α}

theorem pure {a : α} (h : Q seen (.ok a)) :
    Heeds G seen (Pure.pure a : Program S ε α) Q := h

theorem throw {e : ε} (h : Q seen (.error e)) :
    Heeds G seen (MonadExcept.throw e : Program S ε α) Q := h

/-- Performing an operation hands any answer to the rest. -/
theorem call_bind {o : S.Op} {f : S.Res o → Program S ε β}
    {Q : List (Event S) → Except ε β → Prop} (ho : G seen o)
    (h : ∀ r, (f r).Heeds G (seen ++ [⟨o, r⟩]) Q) :
    Heeds G seen (Program.call o >>= f) Q := ⟨ho, h⟩

variable {R : List (Event S) → Except ε α → Prop}

/-- The consequence rule. -/
theorem mono (h : p.Heeds G seen Q) (hQR : ∀ log r, Q log r → R log r) : p.Heeds G seen R := by
  induction p generalizing seen with
  | ret r => exact hQR seen r h
  | step o k ih => exact ⟨h.1, fun r => ih r (h.2 r)⟩

/-- **Sequencing**: the second part starts with the history of the first. -/
theorem bind {p : Program S ε α} {f : α → Program S ε β} {Q : List (Event S) → Except ε β → Prop}
    (hp : p.Heeds G seen R) (hok : ∀ log a, R log (.ok a) → (f a).Heeds G log Q)
    (herr : ∀ log e, R log (.error e) → Q log (.error e)) : (p >>= f).Heeds G seen Q := by
  show (p.bind f).Heeds G seen Q
  induction p generalizing seen with
  | ret r =>
    cases r with
    | ok a => exact hok seen a hp
    | error e => exact herr seen e hp
  | step o k ih => exact ⟨hp.1, fun r => ih r (hp.2 r)⟩

/-- An attempt does not fail: its continuation receives every result. -/
theorem attempt_bind {p : Program S ε α} {f : Except ε α → Program S ε β}
    {R : List (Event S) → Except ε α → Prop} {Q : List (Event S) → Except ε β → Prop}
    (hp : p.Heeds G seen R) (hf : ∀ log r, R log r → (f r).Heeds G log Q) :
    (p.attempt >>= f).Heeds G seen Q := by
  show (p.attempt.bind f).Heeds G seen Q
  induction p generalizing seen with
  | ret r => exact hf seen r hp
  | step o k ih => exact ⟨hp.1, fun r => ih r (hp.2 r)⟩

/-- The history only grows. -/
theorem extends_ (h : p.Heeds G seen Q) : p.Heeds G seen fun log r => seen <+: log ∧ Q log r := by
  induction p generalizing seen with
  | ret r => exact ⟨List.prefix_refl _, h⟩
  | step o k ih =>
    refine ⟨h.1, fun r => (ih r (h.2 r)).mono fun log x hx => ⟨?_, hx.2⟩⟩
    exact (List.prefix_append seen _).trans hx.1

/-- A program all of whose operations are permitted at any time. -/
theorem of_uses {P : S.Op → Prop} (hp : p.Uses P) (hG : ∀ log o, P o → G log o) :
    p.Heeds G seen fun log _ => ∃ more, log = seen ++ more ∧ ∀ e ∈ more, P e.op := by
  induction p generalizing seen with
  | ret r => exact ⟨[], by simp, by simp⟩
  | step o k ih =>
    refine ⟨hG seen o hp.1, fun r => (ih r (hp.2 r)).mono ?_⟩
    rintro log x ⟨more, rfl, hmore⟩
    exact ⟨⟨o, r⟩ :: more, by simp, List.forall_mem_cons.mpr ⟨hp.1, hmore⟩⟩

/-- What the permitted operations have in common, all the operations of the program have. -/
theorem uses {P : S.Op → Prop} (h : p.Heeds G seen Q) (hG : ∀ log o, G log o → P o) : p.Uses P := by
  induction p generalizing seen with
  | ret r => trivial
  | step o k ih => exact ⟨hG seen o h.1, fun r => ih r (h.2 r)⟩

theorem and {G' : List (Event S) → S.Op → Prop} (hQ : p.Heeds G seen Q) (hR : p.Heeds G' seen R) :
    p.Heeds (fun log o => G log o ∧ G' log o) seen fun log r => Q log r ∧ R log r := by
  induction p generalizing seen with
  | ret r => exact ⟨hQ, hR⟩
  | step o k ih => exact ⟨⟨hQ.1, hR.1⟩, fun r => ih r (hQ.2 r) (hR.2 r)⟩

/-- **A program run alone**: what every permitted step preserves, of the history and the world,
holds at the end. -/
theorem run {J : List (Event S) → W → Prop} (h : p.Heeds G seen Q) (sem : Semantics S W)
    (hstep : ∀ log u o, J log u → G log o → J (log ++ [⟨o, (sem u o).1⟩]) (sem u o).2) {w : W}
    (hw : J seen w) : ∃ log, J log (p.run sem w).2 ∧ Q log (p.run sem w).1 := by
  induction p generalizing seen w with
  | ret r => exact ⟨seen, hw, h⟩
  | step o k ih => exact ih _ (h.2 _) (hstep seen w o hw h.1)

/-- What a program heeds, its finished paths satisfy. -/
theorem of_path {log : List (Event S)} {r : Except ε α} (h : p.Heeds G seen Q)
    (hpath : Path p log (.ret r)) : Q (seen ++ log) r := by
  generalize hq : (Program.ret r : Program S ε α) = q at hpath
  induction hpath generalizing seen with
  | nil p =>
    subst hq
    rw [List.append_nil]
    exact h
  | @cons o k x log q _ ih => simpa using ih (h.2 x) hq

/-- The next operation on a path is permitted by the events before it. -/
theorem next_op {log : List (Event S)} {o : S.Op} {k : S.Res o → Program S ε α}
    (h : p.Heeds G seen Q) (hpath : Path p log (.step o k)) : G (seen ++ log) o := by
  generalize hq : (Program.step o k : Program S ε α) = q at hpath
  induction hpath generalizing seen with
  | nil p =>
    subst hq
    rw [List.append_nil]
    exact h.1
  | @cons o' k' x log q _ ih => simpa using ih (h.2 x) hq

/-- Every operation on a path was permitted by the events before it. -/
theorem op_on_path {q : Program S ε α} {before after : List (Event S)} {e : Event S}
    (h : p.Heeds G seen Q) (hpath : Path p (before ++ e :: after) q) : G (seen ++ before) e.op := by
  induction before generalizing p seen with
  | nil =>
    cases hpath with
    | cons _ =>
      rw [List.append_nil]
      exact h.1
  | cons d before ih =>
    cases hpath with
    | cons hrest => simpa using ih (h.2 _) hrest

end Heeds

end Program

/-! ## §2 Many programs -/

namespace Interleaves

variable {ι : Type} [DecidableEq ι] {γ : ι → Type} {sem : Semantics S W} {E : W → W → Prop}
  {P P' : (i : ι) → Program S ε (γ i)} {w v : W} {tr : List (Move ι S W)}

theorem ownEvents_concat (sem : Semantics S W) (i : ι) (t : List (Move ι S W)) (m : Move ι S W) :
    ownEvents sem i (t ++ [m]) = ownEvents sem i t ++ (m.eventOf sem i).toList := by
  rw [ownEvents, List.filterMap_append, ← ownEvents]
  cases hm : m.eventOf sem i <;> simp [hm]

/-- Without an environment every move is a program's. -/
theorem own_move (h : Interleaves sem (fun _ _ => False) P w tr P' v) {m : Move ι S W}
    (hm : m ∈ tr) : ∃ i o, m.actor = some (i, o) ∧ m.after = (sem m.before o).2 :=
  (h.move_cases hm).resolve_right fun h => h.2

/-- Every operation is permitted by the program's own events before it. -/
theorem heeds_at {t₁ t₂ : List (Move ι S W)} {m : Move ι S W}
    (h : Interleaves sem E P w (t₁ ++ m :: t₂) P' v) {i : ι} {o : S.Op}
    (hm : m.actor = some (i, o)) {G : List (Event S) → S.Op → Prop}
    {Q : List (Event S) → Except ε (γ i) → Prop} (hP : (P i).Heeds G [] Q) :
    G (ownEvents sem i t₁) o := by
  obtain ⟨actor, a, b⟩ := m
  obtain rfl : actor = some (i, o) := hm
  obtain ⟨Q', k, h₁, hstep, -, -⟩ := h.split_own
  have hpath := h₁.path i
  rw [hstep] at hpath
  simpa using hP.next_op hpath

/-- Two programs, the first one first. -/
theorem both_in_turn (sem : Semantics S W) (E : W → W → Prop) (P : Bool → Program S ε α) (w : W) :
    Interleaves sem E P w
      (solo sem false (P false) w ++ solo sem true (P true) ((P false).run sem w).2)
      (fun b => .ret (if b then ((P true).run sem ((P false).run sem w).2).1
        else ((P false).run sem w).1))
      ((P true).run sem ((P false).run sem w).2).2 := by
  have hrun := in_turn sem E P w (i := false) (j := true) (by decide)
  have hdone : Function.update (Function.update P false (.ret ((P false).run sem w).1)) true
      (.ret ((P true).run sem ((P false).run sem w).2).1) =
      fun b => .ret (if b then ((P true).run sem ((P false).run sem w).2).1
        else ((P false).run sem w).1) := by
    funext b
    cases b <;> simp
  rwa [hdone] at hrun

/-- **An invariant of the trace so far and the world**, proved move by move. -/
theorem along {J : List (Move ι S W) → W → Prop} (h : Interleaves sem E P w tr P' v)
    (hw : J [] w)
    (hstep : ∀ t₁ m t₂, tr = t₁ ++ m :: t₂ → J t₁ m.before → J (t₁ ++ [m]) m.after) : J tr v := by
  have hgen : ∀ {tr'}, Interleaves sem E P w tr' P' v →
      ∀ done, tr = done ++ tr' → J done w → J tr v := by
    clear h hw
    intro tr' h
    induction h with
    | done P w =>
      intro done htr hJ
      rw [htr, List.append_nil]
      exact hJ
    | own i hi _ ih =>
      intro done htr hJ
      exact ih (done ++ [_]) (by simpa using htr) (hstep done _ _ htr hJ)
    | env hE _ ih =>
      intro done htr hJ
      exact ih (done ++ [_]) (by simpa using htr) (hstep done _ _ htr hJ)
  exact hgen h [] rfl hw

end Interleaves

end SolidServer.Effects
