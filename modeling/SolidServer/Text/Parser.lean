import SolidServer.Text.Basic

/-!
# Parsers that consume the front of their input

A parser reads a value off the front of a text and returns the rest.  `Local q p` says
that what `p` leaves alone has no influence on what it reads: cut the input anywhere in
the part it did not consume, and it reads the same value; and all it consumes are
characters of the class `q`.

Locality is closed under sequencing, under dispatch on the next character and under
bounded repetition, so that the locality of a grammar follows its productions.
-/

namespace SolidServer

/-- A parser: a value and the rest of the input, or a failure. -/
abbrev Parser (α : Type) := StateT Text Option α

namespace Parser

variable {α β γ : Type} {q : Char → Prop}

/-! ## §1 Parsers -/

/-- The longest run of characters of a class. -/
def takeWhile (c : Char → Bool) : Parser Text := fun s => some (s.takeWhile c, s.dropWhile c)

/-- One character of a class. -/
def next (c : Char → Bool) : Parser Char := fun s =>
  match s with
  | x :: rest => if c x then some (x, rest) else none
  | [] => none

/-- Whether a given character comes next; it is consumed if it does. -/
def eat (c : Char) : Parser Bool := fun s =>
  match s with
  | x :: rest => if x = c then some (true, rest) else some (false, s)
  | [] => some (false, [])

/-- Continue as the next character says, without consuming it; fail at the end. -/
def dispatch (f : Char → Parser α) : Parser α := fun s =>
  match s with
  | x :: _ => f x s
  | [] => none

/-- The next character, consumed; `none` at the end. -/
def bump : Parser (Option Char) := fun s =>
  match s with
  | x :: rest => some (some x, rest)
  | [] => some (none, [])

/-- A parser's value together with the text it consumed. -/
def spanned (p : Parser α) : Parser (α × Text) := fun s =>
  match p s with
  | some (a, r) => some ((a, s.take (s.length - r.length)), r)
  | none => none

/-- Up to `n` rounds: a round goes on with a new state, or ends with a value. -/
def loop (round : β → Parser (β ⊕ γ)) : Nat → β → Parser γ
  | 0, _ => failure
  | n + 1, b => do
    match ← round b with
    | .inl b => loop round n b
    | .inr c => pure c

/-- Rounds until one ends with a value; each is to consume a character. -/
def rounds (round : β → Parser (β ⊕ γ)) (b : β) : Parser γ := fun s =>
  loop round (s.length + 1) b s

variable {p : Parser α} {f : α → Parser β} {s : Text}

theorem bind_eq_some {y : β × Text} :
    (p >>= f) s = some y ↔ ∃ a r, p s = some (a, r) ∧ f a r = some y := by
  show (p s).bind _ = some y ↔ _
  constructor
  · intro h
    obtain ⟨⟨a, r⟩, hp, hf⟩ := Option.bind_eq_some_iff.mp h
    exact ⟨a, r, hp, hf⟩
  · rintro ⟨a, r, hp, hf⟩
    exact Option.bind_eq_some_iff.mpr ⟨(a, r), hp, hf⟩

theorem pure_eq_some {a b : α} {r : Text} :
    (Pure.pure a : Parser α) s = some (b, r) ↔ a = b ∧ s = r := by
  show some (a, s) = some (b, r) ↔ _
  simp

/-! ## §2 Locality -/

/-- **Locality**: `p` reads `x`, all of the class `q`, and the tail `t` may be cut off. -/
def Local (q : Char → Prop) (p : Parser α) : Prop :=
  ∀ ⦃s : Text⦄ ⦃a : α⦄ ⦃r t : Text⦄, p s = some (a, r ++ t) →
    ∃ x, s = x ++ (r ++ t) ∧ (∀ c ∈ x, q c) ∧ p (x ++ r) = some (a, r)

namespace Local

theorem pure (a : α) : Local q (Pure.pure a : Parser α) := by
  intro s a' r t h
  obtain ⟨rfl, rfl⟩ := pure_eq_some.mp h
  exact ⟨[], rfl, by simp, rfl⟩

theorem failure : Local q (Alternative.failure : Parser α) := by
  intro s a r t h
  cases h

/-- **Sequencing**. -/
theorem bind {p : Parser α} {f : α → Parser β} (hp : Local q p) (hf : ∀ a, Local q (f a)) :
    Local q (p >>= f) := by
  intro s b r t h
  obtain ⟨a, m, ha, hb⟩ := bind_eq_some.mp h
  obtain ⟨y, rfl, hy, hfy⟩ := hf a hb
  rw [← List.append_assoc] at ha
  obtain ⟨x, rfl, hx, hpx⟩ := hp ha
  refine ⟨x ++ y, by simp, ?_, ?_⟩
  · intro c hc
    rcases List.mem_append.mp hc with hc | hc
    · exact hx c hc
    · exact hy c hc
  · rw [List.append_assoc]
    exact bind_eq_some.mpr ⟨a, y ++ r, hpx, hfy⟩

variable {p : Parser α} {s r : Text} {a : α}

theorem ite {c : Prop} [Decidable c] {p' : Parser α} (hp : Local q p) (hp' : Local q p') :
    Local q (if c then p else p') := by
  split_ifs
  · exact hp
  · exact hp'

theorem takeWhile {c : Char → Bool} (hc : ∀ x, c x = true → q x) :
    Local q (Parser.takeWhile c) := by
  intro s a r t h
  obtain ⟨rfl, hrest⟩ : s.takeWhile c = a ∧ s.dropWhile c = r ++ t := by
    simpa [Parser.takeWhile] using h
  refine ⟨s.takeWhile c, ?_, fun x hx => hc x (List.mem_takeWhile_imp hx), ?_⟩
  · rw [← hrest, List.takeWhile_append_dropWhile]
  · -- the next character, if it is kept, is the one at which the run stopped
    have hall : ∀ x ∈ s.takeWhile c, c x = true := fun x hx => List.mem_takeWhile_imp hx
    have hstop : r.takeWhile c = [] ∧ r.dropWhile c = r := by
      cases r with
      | nil => simp
      | cons x r =>
        have hx : c x = false := by
          have := List.head?_dropWhile_not c s
          rw [hrest] at this
          simpa using this
        simp [hx]
    simp only [Parser.takeWhile, List.takeWhile_append_of_pos hall,
      List.dropWhile_append_of_pos hall, hstop.1, hstop.2, List.append_nil]

theorem next {c : Char → Bool} (hc : ∀ x, c x = true → q x) : Local q (Parser.next c) := by
  intro s a r t h
  cases s with
  | nil => cases h
  | cons x s =>
    simp only [Parser.next] at h
    split_ifs at h with hx
    obtain ⟨rfl, rfl⟩ := Prod.mk.inj (Option.some.inj h)
    exact ⟨[x], rfl, by simpa using hc x hx, by simp [Parser.next, hx]⟩

theorem eat {c : Char} (hc : q c) : Local q (Parser.eat c) := by
  intro s a r t h
  cases s with
  | nil =>
    obtain ⟨rfl, hrt⟩ := Prod.mk.inj (Option.some.inj h)
    obtain ⟨rfl, rfl⟩ := List.append_eq_nil_iff.mp hrt.symm
    exact ⟨[], rfl, by simp, rfl⟩
  | cons x s =>
    simp only [Parser.eat] at h
    split_ifs at h with hx
    · obtain ⟨rfl, rfl⟩ := Prod.mk.inj (Option.some.inj h)
      exact ⟨[x], rfl, by simpa [hx] using hc, by simp [Parser.eat, hx]⟩
    · obtain ⟨rfl, hrt⟩ := Prod.mk.inj (Option.some.inj h)
      refine ⟨[], hrt, by simp, ?_⟩
      cases r with
      | nil => rfl
      | cons y r =>
        obtain ⟨rfl, -⟩ := List.cons.inj hrt
        simp [Parser.eat, hx]

/-- Dispatch on a character that the chosen parser goes on to consume. -/
theorem dispatch {f : Char → Parser α} (hf : ∀ x, Local q (f x)) (hend : ∀ x, f x [] = none) :
    Local q (Parser.dispatch f) := by
  intro s a r t h
  cases s with
  | nil => cases h
  | cons y s =>
    obtain ⟨x, hs, hx, hp⟩ := hf y h
    refine ⟨x, hs, hx, ?_⟩
    cases hxr : x ++ r with
    | nil => rw [hxr, hend] at hp; cases hp
    | cons z u =>
      -- the first character is not cut off
      have hz : z = y := by
        rw [← List.append_assoc, hxr] at hs
        exact (List.cons.inj hs).1.symm
      rw [hxr, ← hz] at hp
      exact hp

/-- A local parser consumes some front of its input. -/
theorem exists_front (hp : Local q p) (h : p s = some (a, r)) :
    ∃ x, s = x ++ r ∧ (∀ c ∈ x, q c) ∧ p x = some (a, []) := by
  obtain ⟨x, hs, hx, hread⟩ := @hp s a [] r h
  exact ⟨x, hs, hx, by simpa using hread⟩

/-- A value that cannot be read off nothing is read off at least one character. -/
theorem length_lt (hp : Local q p) (h : p s = some (a, r)) (hend : p [] ≠ some (a, [])) :
    r.length < s.length := by
  obtain ⟨x, rfl, -, hread⟩ := hp.exists_front h
  cases x with
  | nil => exact absurd hread hend
  | cons c x =>
    rw [List.length_append, List.length_cons]
    omega

/-- What `spanned` keeps is the front of the input that was consumed. -/
theorem spanned_front (hp : Local q p) {x : Text} (h : Parser.spanned p s = some ((a, x), r)) :
    s = x ++ r ∧ p s = some (a, r) := by
  unfold Parser.spanned at h
  cases hs : p s with
  | none => rw [hs] at h; cases h
  | some y =>
    obtain ⟨b, r'⟩ := y
    rw [hs] at h
    simp only [Option.some.injEq, Prod.mk.injEq] at h
    obtain ⟨⟨rfl, hx⟩, rfl⟩ := h
    obtain ⟨z, rfl, -, -⟩ := hp.exists_front hs
    have hzx : z = x := by simpa using hx
    subst hzx
    exact ⟨rfl, rfl⟩

/-- What a local parser consumed is by itself an input on which it reads the same. -/
theorem spanned_eq_some (hp : Local q p) {x : Text} (h : Parser.spanned p s = some ((a, x), r)) :
    p x = some (a, []) ∧ ∀ c ∈ x, q c := by
  unfold Parser.spanned at h
  cases hs : p s with
  | none => rw [hs] at h; cases h
  | some y =>
    obtain ⟨b, r'⟩ := y
    rw [hs] at h
    simp only [Option.some.injEq, Prod.mk.injEq] at h
    obtain ⟨⟨rfl, hx⟩, rfl⟩ := h
    obtain ⟨z, rfl, hz, hpz⟩ := hp.exists_front hs
    have hzx : z = x := by simpa using hx
    subst hzx
    exact ⟨hpz, hz⟩

end Local

/-! ## §3 Repetition -/

section
variable {round : β → Parser (β ⊕ γ)}

variable {n : Nat} {b : β} {s : Text}

/-- More rounds than characters are never used up. -/
theorem loop_enough (hprogress : ∀ b s b' r, round b s = some (.inl b', r) → r.length < s.length)
    {y : γ × Text} (h : loop round n b s = some y) {m : Nat} (hm : s.length < m) :
    loop round m b s = some y := by
  induction n generalizing b s m with
  | zero => cases h
  | succ n ih =>
    obtain ⟨k, rfl⟩ : ∃ k, m = k + 1 := ⟨m - 1, by omega⟩
    obtain ⟨x, r, hround, hrest⟩ := bind_eq_some.mp h
    refine bind_eq_some.mpr ⟨x, r, hround, ?_⟩
    cases x with
    | inr c => exact hrest
    | inl b' =>
      have := hprogress b s b' r hround
      exact ih hrest (by omega)

/-- **Invariants**: what every round keeps holds of the state the last round ends in. -/
theorem loop_invariant {I : β → Prop} {J : γ → Prop}
    (hon : ∀ b s b' r, I b → round b s = some (.inl b', r) → I b')
    (hlast : ∀ b s c r, I b → round b s = some (.inr c, r) → J c) {r : Text} {c : γ} (hb : I b)
    (h : loop round n b s = some (c, r)) :
    J c := by
  induction n generalizing b s with
  | zero => cases h
  | succ n ih =>
    obtain ⟨x, m, hround, hrest⟩ := bind_eq_some.mp h
    cases x with
    | inl b' => exact ih (hon b s b' m hb hround) hrest
    | inr c' =>
      obtain ⟨rfl, rfl⟩ := pure_eq_some.mp hrest
      exact hlast b s c' m hb hround

/-- **Repetition**.  A round that goes on may look at the character after it, as long as a
further round cannot do without one. -/
theorem Local.rounds
    (hprogress : ∀ b s b' r, round b s = some (.inl b', r) → r.length < s.length)
    (hon : ∀ {b s b' r t}, round b s = some (.inl b', r ++ t) → (r ≠ [] ∨ round b' [] ≠ none) →
      ∃ x, s = x ++ (r ++ t) ∧ (∀ c ∈ x, q c) ∧ round b (x ++ r) = some (.inl b', r))
    (hlast : ∀ {b s c r t}, round b s = some (.inr c, r ++ t) →
      ∃ x, s = x ++ (r ++ t) ∧ (∀ d ∈ x, q d) ∧ round b (x ++ r) = some (.inr c, r)) (b : β) :
    Local q (Parser.rounds round b) := by
  have hloop : ∀ n b, Local q (loop round n b) := by
    intro n
    induction n with
    | zero => intro b; exact Local.failure
    | succ n ih =>
      intro b s c r t h
      obtain ⟨x, m, hround, hrest⟩ := bind_eq_some.mp h
      cases x with
      | inr c' =>
        obtain ⟨rfl, rfl⟩ := pure_eq_some.mp hrest
        obtain ⟨x, hs, hx, hp⟩ := hlast hround
        exact ⟨x, hs, hx, bind_eq_some.mpr ⟨_, _, hp, rfl⟩⟩
      | inl b' =>
        obtain ⟨y, rfl, hy, hloop⟩ := ih b' hrest
        rw [← List.append_assoc] at hround
        have hmore : y ++ r ≠ [] ∨ round b' [] ≠ none := by
          by_contra hno
          obtain ⟨hnil, hstop⟩ := not_or.mp hno
          rw [not_not.mp hnil] at hloop
          cases n with
          | zero => cases hloop
          | succ n =>
            obtain ⟨x, m, hround', -⟩ := bind_eq_some.mp hloop
            rw [not_not.mp hstop] at hround'
            cases hround'
        obtain ⟨x, rfl, hx, hp⟩ := hon hround hmore
        refine ⟨x ++ y, by simp, ?_, ?_⟩
        · intro d hd
          rcases List.mem_append.mp hd with hd | hd
          · exact hx d hd
          · exact hy d hd
        · rw [List.append_assoc]
          exact bind_eq_some.mpr ⟨_, _, hp, hloop⟩
  intro s c r t h
  obtain ⟨x, hs, hx, hp⟩ := hloop _ b h
  exact ⟨x, hs, hx, loop_enough hprogress hp (by omega)⟩

end

end Parser

end SolidServer
