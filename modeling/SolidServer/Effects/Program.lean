import Mathlib.Tactic.Common

/-!
# Programs over a signature of atomic operations

A program is a tree: it either ends with a result or performs one atomic operation
and continues with the answer.  What an operation does is not fixed by the program
but by a *semantics*, a function from worlds and operations to answers and new
worlds, so one program text can be run alone (`Program.run`) or interleaved with
other programs (`Effects.Interleaving`).

The result of a program is an `Except`, so that early return with an error is the
monadic bind, and `Program.attempt` turns an error back into a value.

* `Program.run_bind` is the only lemma needed to take a sequential run apart.
* `Program.Uses` bounds the operations a program can ever perform, whatever the
  answers are; `Program.Uses.run_rel` carries a relation between worlds that every
  such operation respects to whole runs.
* `Program.Raises` and `Program.Returns` bound the errors and values a program can end in.
* `Program.Built` says which blocks a program is put together from; what holds of every block
  holds of the program.
-/

namespace SolidServer.Effects

/-- A signature: the atomic operations and the type of answers of each. -/
structure Signature where
  Op : Type
  Res : Op → Type

/-- Programs over a signature that end in an error of type `ε` or a value of type `α`. -/
inductive Program (S : Signature) (ε α : Type) where
  | ret (r : Except ε α)
  | step (o : S.Op) (k : S.Res o → Program S ε α)

/-- A sequential semantics: what each operation answers and how it changes the world. -/
abbrev Semantics (S : Signature) (W : Type) := W → (o : S.Op) → S.Res o × W

namespace Program

variable {S : Signature} {ε α β γ : Type} {W : Type}

/-! ## The monad -/

/-- Sequential composition; an error ends the whole program. -/
def bind : Program S ε α → (α → Program S ε β) → Program S ε β
  | .ret (.ok a), f => f a
  | .ret (.error e), _ => .ret (.error e)
  | .step o k, f => .step o fun r => (k r).bind f

instance : Monad (Program S ε) where
  pure a := .ret (.ok a)
  bind := bind

/-- Perform one operation and return its answer. -/
def call (o : S.Op) : Program S ε (S.Res o) := .step o fun r => .ret (.ok r)

/-- Run a program and hand its error, if any, to the continuation as a value. -/
def attempt : Program S ε α → Program S ε (Except ε α)
  | .ret r => .ret (.ok r)
  | .step o k => .step o fun r => (k r).attempt

instance : MonadExceptOf ε (Program S ε) where
  throw e := .ret (.error e)
  tryCatch p h := p.attempt.bind fun
    | .ok a => .ret (.ok a)
    | .error e => h e

/-- A result that is already known, as a program. -/
def ofExcept (r : Except ε α) : Program S ε α := .ret r

theorem bind_assoc (p : Program S ε α) (f : α → Program S ε β) (g : β → Program S ε γ) :
    (p.bind f).bind g = p.bind fun a => (f a).bind g := by
  induction p with
  | ret r => cases r <;> rfl
  | step o k ih =>
    simp only [bind]
    congr 1
    funext r
    exact ih r

theorem bind_pure (p : Program S ε α) : (p.bind fun a => .ret (.ok a)) = p := by
  induction p with
  | ret r => cases r <;> rfl
  | step o k ih =>
    simp only [bind]
    congr 1
    funext r
    exact ih r

instance : LawfulMonad (Program S ε) :=
  LawfulMonad.mk' _ bind_pure (fun _ _ => rfl) bind_assoc

/-! ## Sequential runs -/

/-- Run a program alone, from a world, to its result and the final world. -/
def run (sem : Semantics S W) : Program S ε α → W → Except ε α × W
  | .ret r, w => (r, w)
  | .step o k, w => (k (sem w o).1).run sem (sem w o).2

variable (sem : Semantics S W)

@[simp] theorem run_ret (r : Except ε α) (w : W) : (Program.ret r).run sem w = (r, w) := rfl

@[simp] theorem run_pure (a : α) (w : W) :
    (pure a : Program S ε α).run sem w = (.ok a, w) := rfl

@[simp] theorem run_throw (e : ε) (w : W) :
    (throw e : Program S ε α).run sem w = (.error e, w) := rfl

@[simp] theorem run_ofExcept (r : Except ε α) (w : W) :
    (ofExcept r : Program S ε α).run sem w = (r, w) := rfl

@[simp] theorem run_call (o : S.Op) (w : W) :
    (call o : Program S ε (S.Res o)).run sem w = (.ok (sem w o).1, (sem w o).2) := rfl

/-- The run of a composition: the error of the first part, or the run of the second. -/
theorem run_bind (p : Program S ε α) (f : α → Program S ε β) (w : W) :
    (p >>= f).run sem w =
      match p.run sem w with
      | (.ok a, w') => (f a).run sem w'
      | (.error e, w') => (.error e, w') := by
  show (p.bind f).run sem w = _
  induction p generalizing w with
  | ret r => cases r <;> rfl
  | step o k ih => exact ih (sem w o).1 (sem w o).2

variable {p : Program S ε α} {f : α → Program S ε β}

theorem run_bind_ok {w w' : W} {a : α} (h : p.run sem w = (.ok a, w')) :
    (p >>= f).run sem w = (f a).run sem w' := by
  rw [run_bind, h]

theorem run_bind_error {w w' : W} {e : ε} (h : p.run sem w = (.error e, w')) :
    (p >>= f).run sem w = (.error e, w') := by
  rw [run_bind, h]

@[simp] theorem run_call_bind (o : S.Op) (f : S.Res o → Program S ε β) (w : W) :
    (call o >>= f).run sem w = (f (sem w o).1).run sem (sem w o).2 := rfl

@[simp] theorem run_attempt (p : Program S ε α) (w : W) :
    p.attempt.run sem w = (.ok (p.run sem w).1, (p.run sem w).2) := by
  induction p generalizing w with
  | ret r => rfl
  | step o k ih => exact ih (sem w o).1 (sem w o).2

/-! ## The operations a program can perform -/

/-- Every operation `p` can perform, whatever it is answered, satisfies `P`. -/
def Uses (P : S.Op → Prop) : Program S ε α → Prop
  | .ret _ => True
  | .step o k => P o ∧ ∀ r, (k r).Uses P

namespace Uses

variable {P : S.Op → Prop}

theorem pure (a : α) : Uses P (Pure.pure a : Program S ε α) := trivial

theorem throw (e : ε) : Uses P (MonadExcept.throw e : Program S ε α) := trivial

theorem ofExcept (r : Except ε α) : Uses P (Program.ofExcept r : Program S ε α) := trivial

theorem call {o : S.Op} (h : P o) : Uses P (Program.call o : Program S ε (S.Res o)) :=
  ⟨h, fun _ => trivial⟩

variable {p : Program S ε α}

theorem bind {f : α → Program S ε β} (hp : p.Uses P) (hf : ∀ a, (f a).Uses P) :
    (p >>= f).Uses P := by
  show (p.bind f).Uses P
  induction p with
  | ret r =>
    cases r with
    | ok a => exact hf a
    | error e => trivial
  | step o k ih => exact ⟨hp.1, fun r => ih r (hp.2 r)⟩

theorem attempt (hp : p.Uses P) : p.attempt.Uses P := by
  induction p with
  | ret r => trivial
  | step o k ih => exact ⟨hp.1, fun r => ih r (hp.2 r)⟩

theorem mono {Q : S.Op → Prop} (hPQ : ∀ o, P o → Q o) (hp : p.Uses P) :
    p.Uses Q := by
  induction p with
  | ret r => trivial
  | step o k ih => exact ⟨hPQ o hp.1, fun r => ih r (hp.2 r)⟩

/-- **Whole runs respect what every single operation respects.** -/
theorem run_rel (hp : p.Uses P) (R : W → W → Prop) (hrefl : ∀ w, R w w)
    (htrans : ∀ {a b c}, R a b → R b c → R a c) (hstep : ∀ w o, P o → R w (sem w o).2) (w : W) :
    R w (p.run sem w).2 := by
  induction p generalizing w with
  | ret r => exact hrefl w
  | step o k ih => exact htrans (hstep w o hp.1) (ih _ (hp.2 _) _)

end Uses

/-! ## The errors a program can end in -/

/-- Every error `p` can end in, whatever it is answered, satisfies `P`. -/
def Raises (P : ε → Prop) : Program S ε α → Prop
  | .ret (.ok _) => True
  | .ret (.error e) => P e
  | .step _ k => ∀ r, (k r).Raises P

namespace Raises

variable {P : ε → Prop}

@[simp] theorem pure (a : α) : Raises P (Pure.pure a : Program S ε α) := trivial

@[simp] theorem call (o : S.Op) : Raises P (Program.call o : Program S ε (S.Res o)) :=
  fun _ => trivial

theorem throw {e : ε} (h : P e) : Raises P (MonadExcept.throw e : Program S ε α) := h

theorem ofExcept {r : Except ε α} (h : ∀ e, r = .error e → P e) :
    Raises P (Program.ofExcept r : Program S ε α) := by
  cases r with
  | ok a => trivial
  | error e => exact h e rfl

theorem mono {Q : ε → Prop} {p : Program S ε α} (hp : p.Raises P) (hPQ : ∀ e, P e → Q e) :
    p.Raises Q := by
  induction p with
  | ret r =>
    cases r with
    | ok a => trivial
    | error e => exact hPQ e hp
  | step o k ih => exact fun r => ih r (hp r)

/-- An attempt hands the error on as a value. -/
theorem attempt_bind {P' : ε → Prop} {p : Program S ε α} {f : Except ε α → Program S ε β}
    (hp : p.Raises P') (hok : ∀ a, (f (.ok a)).Raises P)
    (herr : ∀ e, P' e → (f (.error e)).Raises P) : (p.attempt >>= f).Raises P := by
  show (p.attempt.bind f).Raises P
  induction p with
  | ret r =>
    cases r with
    | ok a => exact hok a
    | error e => exact herr e hp
  | step o k ih => exact fun r => ih r (hp r)

/-- The error of a run is one the program can end in. -/
theorem run {p : Program S ε α} (hp : p.Raises P) {w : W} {e : ε}
    (h : (p.run sem w).1 = .error e) : P e := by
  induction p generalizing w with
  | ret r =>
    obtain rfl : r = .error e := h
    exact hp
  | step o k ih => exact ih _ (hp _) h

end Raises

/-- Every value `p` can end in, whatever it is answered, satisfies `Q`. -/
def Returns (Q : α → Prop) : Program S ε α → Prop
  | .ret (.ok a) => Q a
  | .ret (.error _) => True
  | .step _ k => ∀ r, (k r).Returns Q

namespace Returns

variable {Q : α → Prop}

theorem pure {a : α} (h : Q a) : Returns Q (Pure.pure a : Program S ε α) := h

theorem throw (e : ε) : Returns Q (MonadExcept.throw e : Program S ε α) := trivial

/-- Only the last part of a composition returns a value. -/
theorem bind {p : Program S ε β} {f : β → Program S ε α} (hf : ∀ b, (f b).Returns Q) :
    (p >>= f).Returns Q := by
  show (p.bind f).Returns Q
  induction p with
  | ret r =>
    cases r with
    | ok b => exact hf b
    | error e => trivial
  | step o k ih => exact fun r => ih r

/-- The value of a run is one the program can end in. -/
theorem run {p : Program S ε α} (hp : p.Returns Q) {w : W} {a : α}
    (h : (p.run sem w).1 = .ok a) : Q a := by
  induction p generalizing w with
  | ret r =>
    obtain rfl : r = .ok a := h
    exact hp
  | step o k ih => exact ih _ (hp _) h

theorem any (p : Program S ε α) : p.Returns fun _ => True := by
  induction p with
  | ret r => cases r <;> trivial
  | step o k ih => exact ih

end Returns

/-- The errors of a composition are those of its parts. -/
theorem Raises.bind_returns {P : ε → Prop} {Q : α → Prop} {p : Program S ε α}
    {f : α → Program S ε β} (hp : p.Raises P) (hr : p.Returns Q)
    (hf : ∀ a, Q a → (f a).Raises P) : (p >>= f).Raises P := by
  show (p.bind f).Raises P
  induction p with
  | ret r =>
    cases r with
    | ok a => exact hf a hr
    | error e => exact hp
  | step o k ih => exact fun r => ih r (hp r) (hr r)

theorem Raises.bind {P : ε → Prop} (hp : p.Raises P) (hf : ∀ a, (f a).Raises P) :
    (p >>= f).Raises P :=
  hp.bind_returns (.any p) fun a _ => hf a

/-! ## Programs put together from blocks -/

/-- `p` is put together from blocks with errors in `E` and from known results, and its errors
satisfy `P`.  An attempted part may have other errors than the whole. -/
inductive Built (E : ε → Prop) (B : (α : Type) → Program S ε α → Prop) :
    {α : Type} → (ε → Prop) → Program S ε α → Prop
  | ret {α : Type} {P : ε → Prop} {r : Except ε α} (h : ∀ e, r = .error e → P e) :
      Built E B P (.ret r)
  | block {α : Type} {P : ε → Prop} {p : Program S ε α} (h : B α p) (hr : p.Raises E)
      (hP : ∀ e, E e → P e) : Built E B P p
  | bind_returns {α β : Type} {P : ε → Prop} {Q : α → Prop} {p : Program S ε α}
      {f : α → Program S ε β} (hp : Built E B P p) (hr : p.Returns Q)
      (hf : ∀ a, Q a → Built E B P (f a)) : Built E B P (p >>= f)
  | attempt_bind {α β : Type} {P P' : ε → Prop} {p : Program S ε α}
      {f : Except ε α → Program S ε β} (hp : Built E B P' p) (hok : ∀ a, Built E B P (f (.ok a)))
      (herr : ∀ e, P' e → Built E B P (f (.error e))) : Built E B P (p.attempt >>= f)

namespace Built

variable {E P : ε → Prop} {B B' : (α : Type) → Program S ε α → Prop} {p : Program S ε α}

theorem pure (a : α) : Built E B P (Pure.pure a : Program S ε α) :=
  .ret (by rintro e ⟨⟩)

theorem throw {e : ε} (h : P e) : Built E B P (MonadExcept.throw e : Program S ε α) :=
  .ret (by rintro _ ⟨⟩; exact h)

theorem bind {f : α → Program S ε β} (hp : Built E B P p) (hf : ∀ a, Built E B P (f a)) :
    Built E B P (p >>= f) :=
  .bind_returns hp (.any p) fun a _ => hf a

theorem weaken {Q : ε → Prop} (h : Built E B P p) (hPQ : ∀ e, P e → Q e) : Built E B Q p := by
  induction h with
  | ret h => exact .ret fun e he => hPQ e (h e he)
  | block h hr hP => exact .block h hr fun e he => hPQ e (hP e he)
  | bind_returns _ hr _ ihp ihf => exact .bind_returns (ihp hPQ) hr fun a ha => ihf a ha hPQ
  | attempt_bind hp _ _ _ ihok iherr =>
    exact .attempt_bind hp (fun a => ihok a hPQ) fun e he => iherr e he hPQ

/-- Blocks that are put together from smaller ones. -/
theorem flatten (h : Built E B P p)
    (hB : ∀ (β : Type) (q : Program S ε β), B β q → Built E B' E q) : Built E B' P p := by
  induction h with
  | ret h => exact .ret h
  | block h _ hP => exact (hB _ _ h).weaken hP
  | bind_returns _ hr _ ihp ihf => exact .bind_returns ihp hr ihf
  | attempt_bind _ _ _ ihp ihok iherr => exact .attempt_bind ihp ihok iherr

/-- The errors are those of the blocks and of the results. -/
theorem raises (h : Built E B P p) : p.Raises P := by
  induction h with
  | ret h => exact .ofExcept h
  | block h hr hP => exact hr.mono hP
  | bind_returns _ hr _ ihp ihf => exact .bind_returns ihp hr ihf
  | attempt_bind _ _ _ ihp ihok iherr => exact .attempt_bind ihp ihok iherr

/-- **What every block keeps, the program keeps.** -/
theorem keeps (h : Built E B P p) {I : W → Prop}
    (hkeeps : ∀ (β : Type) (q : Program S ε β), B β q → ∀ w, I w → I (q.run sem w).2) (w : W)
    (hw : I w) : I (p.run sem w).2 := by
  induction h generalizing w with
  | ret h => exact hw
  | block h => exact hkeeps _ _ h w hw
  | @bind_returns _ _ _ _ p f _ hr _ ihp ihf =>
    have hp := ihp w hw
    rw [run_bind]
    rcases hrun : p.run sem w with ⟨r, w'⟩
    rw [hrun] at hp
    cases r with
    | ok a => exact ihf a (hr.run sem (congrArg Prod.fst hrun)) w' hp
    | error e => exact hp
  | @attempt_bind _ _ _ _ p f hp _ _ ihp ihok iherr =>
    have hkept := ihp w hw
    rw [run_bind, run_attempt]
    cases hr : (p.run sem w).1 with
    | ok a => exact ihok a _ hkept
    | error e => exact iherr e (hp.raises.run sem hr) _ hkept

end Built

end Program

end SolidServer.Effects
