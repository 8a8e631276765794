import SolidServer.Effects.Program

/-!
# Reasoning about runs

Two program logics over `Program.run`.

* `Ensures p w Q`: the run of `p` from `w` ends in a result and a world that satisfy
  `Q`.  `Ensures.bind` composes the specifications of the parts; an error ends the
  run, so its case is settled once, at the bind.
* `Couples p q w₁ w₂ Q`: the runs of two programs, each from its own world, end in
  results and worlds related by `Q`.  `Couples.of_uses` couples a program with itself
  as long as the two worlds answer each of its operations alike.
-/

namespace SolidServer.Effects.Program

variable {S : Signature} {ε α β γ δ : Type} {W : Type} {sem : Semantics S W}

/-! ## §1 One run -/

/-- The run of `p` from `w` satisfies `Q`. -/
def Ensures (sem : Semantics S W) (p : Program S ε α) (w : W) (Q : Except ε α → W → Prop) : Prop :=
  Q (p.run sem w).1 (p.run sem w).2

namespace Ensures

variable {w : W} {p : Program S ε α}

variable {Q R : Except ε α → W → Prop}

theorem intro (h : Q (p.run sem w).1 (p.run sem w).2) :
    Ensures sem p w Q := h

theorem pure {a : α} (h : Q (.ok a) w) :
    Ensures sem (Pure.pure a : Program S ε α) w Q := h

theorem throw {e : ε} (h : Q (.error e) w) :
    Ensures sem (MonadExcept.throw e : Program S ε α) w Q := h

theorem ofExcept {r : Except ε α} (h : Q r w) :
    Ensures sem (Program.ofExcept r : Program S ε α) w Q := h

theorem call {o : S.Op} {Q : Except ε (S.Res o) → W → Prop} (h : Q (.ok (sem w o).1) (sem w o).2) :
    Ensures sem (Program.call o : Program S ε (S.Res o)) w Q := h

/-- The consequence rule. -/
theorem mono (h : Ensures sem p w Q) (hQR : ∀ r w', Q r w' → R r w') :
    Ensures sem p w R := hQR _ _ h

theorem and (hQ : Ensures sem p w Q) (hR : Ensures sem p w R) :
    Ensures sem p w fun r w' => Q r w' ∧ R r w' := ⟨hQ, hR⟩

/-- **Sequencing**: a value is handed on, an error must already satisfy the goal. -/
theorem bind {f : α → Program S ε β} {Q : Except ε β → W → Prop} (hp : Ensures sem p w R)
    (hok : ∀ a w', R (.ok a) w' → Ensures sem (f a) w' Q)
    (herr : ∀ e w', R (.error e) w' → Q (.error e) w') : Ensures sem (p >>= f) w Q := by
  unfold Ensures at hp ⊢
  rw [run_bind]
  rcases hrun : p.run sem w with ⟨r, w'⟩
  rw [hrun] at hp
  cases r with
  | ok a => exact hok a w' hp
  | error e => exact herr e w' hp

theorem attempt {Q : Except ε (Except ε α) → W → Prop}
    (h : Ensures sem p w fun r w' => Q (.ok r) w') : Ensures sem p.attempt w Q := by
  unfold Ensures at h ⊢
  rwa [run_attempt]

/-- An attempt does not fail: its continuation receives every result. -/
theorem attempt_bind {f : Except ε α → Program S ε β} {R : Except ε α → W → Prop}
    {Q : Except ε β → W → Prop} (hp : Ensures sem p w R)
    (hf : ∀ r w', R r w' → Ensures sem (f r) w' Q) : Ensures sem (p.attempt >>= f) w Q := by
  unfold Ensures at hp ⊢
  rw [run_bind, run_attempt]
  exact hf _ _ hp

end Ensures

/-! ## §2 Two runs -/

/-- The runs of `p` from `w₁` and of `q` from `w₂` satisfy `Q` together. -/
def Couples (sem : Semantics S W) (p : Program S ε α) (q : Program S ε β) (w₁ w₂ : W)
    (Q : Except ε α → Except ε β → W → W → Prop) : Prop :=
  Q (p.run sem w₁).1 (q.run sem w₂).1 (p.run sem w₁).2 (q.run sem w₂).2

/-- The runs end in the same result, in worlds related by `R`. -/
abbrev Agree (sem : Semantics S W) (p q : Program S ε α) (w₁ w₂ : W) (R : W → W → Prop) : Prop :=
  Couples sem p q w₁ w₂ fun r₁ r₂ v₁ v₂ => r₁ = r₂ ∧ R v₁ v₂

namespace Couples

variable {w₁ w₂ : W} {p : Program S ε α} {q : Program S ε β}

theorem mono {Q R : Except ε α → Except ε β → W → W → Prop} (h : Couples sem p q w₁ w₂ Q)
    (hQR : ∀ r₁ r₂ v₁ v₂, Q r₁ r₂ v₁ v₂ → R r₁ r₂ v₁ v₂) : Couples sem p q w₁ w₂ R :=
  hQR _ _ _ _ h

/-- **Sequencing of runs that agree**: the continuations start from the same value, which is the
result of the first run, or both runs have ended with the same error. -/
theorem bind_agree {q : Program S ε α} {f g : α → Program S ε β} {R : W → W → Prop}
    {Q : Except ε β → Except ε β → W → W → Prop} (hpq : Agree sem p q w₁ w₂ R)
    (hok : ∀ a v₁ v₂, p.run sem w₁ = (.ok a, v₁) → R v₁ v₂ → Couples sem (f a) (g a) v₁ v₂ Q)
    (herr : ∀ e v₁ v₂, R v₁ v₂ → Q (.error e) (.error e) v₁ v₂) :
    Couples sem (p >>= f) (q >>= g) w₁ w₂ Q := by
  unfold Agree Couples at hpq
  unfold Couples
  rw [run_bind, run_bind]
  rcases hp : p.run sem w₁ with ⟨r₁, v₁⟩
  rcases hq : q.run sem w₂ with ⟨r₂, v₂⟩
  rw [hp, hq] at hpq
  obtain ⟨rfl, hR⟩ := hpq
  cases r₁ with
  | ok a => exact hok a v₁ v₂ hp hR
  | error e => exact herr e v₁ v₂ hR

/-- Worlds that answer every operation of a program alike give the same run. -/
theorem of_uses {P : S.Op → Prop} {R : W → W → Prop} (hp : p.Uses P)
    (hstep : ∀ v₁ v₂ o, P o → R v₁ v₂ →
      (sem v₁ o).1 = (sem v₂ o).1 ∧ R (sem v₁ o).2 (sem v₂ o).2) (h : R w₁ w₂) :
    Agree sem p p w₁ w₂ R := by
  unfold Agree Couples
  induction p generalizing w₁ w₂ with
  | ret r => exact ⟨rfl, h⟩
  | step o k ih =>
    obtain ⟨heq, hR⟩ := hstep w₁ w₂ o hp.1 h
    have hk := ih _ (hp.2 (sem w₂ o).1) hR
    simp only [run]
    rw [heq]
    exact hk

end Couples

end SolidServer.Effects.Program
