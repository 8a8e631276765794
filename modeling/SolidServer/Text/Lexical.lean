import SolidServer.Text.Basic

/-!
# The lexical structure of Turtle and SPARQL

Which characters of a text are punctuation: those outside comments, IRIs, string
literals and escapes.  One automaton, fed a character at a time, serves both languages.

A text is *flat* when it has no brace among its punctuation; every Turtle document is.
A block of SPARQL may nest braces; it is *whole* when they balance.
-/

namespace SolidServer.Text

/-! ## §1 The automaton -/

/-- Where a text stands after its last character. -/
inductive Lex where
  | top
  | comment
  | iri
  /-- After a backslash outside of strings. -/
  | escape
  /-- After the first quote of a string. -/
  | opened (quote : Char)
  /-- After two quotes: an empty string, or the beginning of a long one. -/
  | doubled (quote : Char)
  | short (quote : Char)
  | shortEscape (quote : Char)
  /-- In a long string, after so many quotes in a row. -/
  | long (quote : Char) (seen : Nat)
  | longEscape (quote : Char)
  deriving DecidableEq

/-- Whether the next character is punctuation. -/
def Lex.atTop : Lex → Bool
  | .top | .doubled _ => true
  | _ => false

/-- What a character of punctuation opens. -/
def Lex.enter (c : Char) : Lex :=
  if c = '#' then .comment
  else if c = '<' then .iri
  else if c = '"' ∨ c = '\'' then .opened c
  else if c = '\\' then .escape
  else .top

def Lex.step (s : Lex) (c : Char) : Lex :=
  match s with
  | .top => .enter c
  | .comment => if c = '\n' ∨ c = '\r' then .top else .comment
  | .iri => if c = '>' then .top else .iri
  | .escape => .top
  | .opened q => if c = q then .doubled q else if c = '\\' then .shortEscape q else .short q
  | .doubled q => if c = q then .long q 0 else .enter c
  | .short q => if c = q then .top else if c = '\\' then .shortEscape q else .short q
  | .shortEscape q => .short q
  | .long q n =>
    if c = q then (if n = 2 then .top else .long q (n + 1))
    else if c = '\\' then .longEscape q else .long q 0
  | .longEscape q => .long q 0

/-! ## §2 Flat texts and whole blocks -/

/-- The state after a text without braces among its punctuation. -/
def flat : Lex → Text → Option Lex
  | s, [] => some s
  | s, c :: cs => if s.atTop = true ∧ (c = '\x7b' ∨ c = '\x7d') then none else flat (s.step c) cs

/-- The state after a text and the braces open in it; none when one closes too many. -/
def nested : Lex → Nat → Text → Option (Lex × Nat)
  | s, n, [] => some (s, n)
  | s, n, c :: cs =>
    if s.atTop = true ∧ c = '\x7b' then nested .top (n + 1) cs
    else if s.atTop = true ∧ c = '\x7d' then (if n = 0 then none else nested .top (n - 1) cs)
    else nested (s.step c) n cs

/-- A block whose braces balance and that ends outside of comments and strings. -/
def Whole (block : Text) : Prop := ∃ s : Lex, nested .top 0 block = some (s, 0) ∧ s.atTop = true

variable {s s' : Lex} {n : Nat} {t : Text}

theorem flat_append (a b : Text) : flat s (a ++ b) = (flat s a).bind fun s' => flat s' b := by
  induction a generalizing s with
  | nil => rfl
  | cons c a ih =>
    rw [List.cons_append, flat, flat]
    split_ifs with h
    · rfl
    · exact ih

theorem flat_append_of {a : Text} (h : flat s a = some s') (b : Text) :
    flat s (a ++ b) = flat s' b := by
  rw [flat_append, h]
  rfl

theorem nested_append (a b : Text) :
    nested s n (a ++ b) = (nested s n a).bind fun r => nested r.1 r.2 b := by
  induction a generalizing s n with
  | nil => rfl
  | cons c a ih =>
    rw [List.cons_append, nested, nested]
    split_ifs with hopen hclose hzero
    · exact ih
    · rfl
    · exact ih
    · exact ih

/-- A flat text opens no braces. -/
theorem nested_of_flat (h : flat s t = some s') :
    nested s n t = some (s', n) := by
  induction t generalizing s with
  | nil =>
    obtain rfl := Option.some.inj h
    rfl
  | cons c t ih =>
    rw [flat] at h
    split_ifs at h with hbrace
    rw [nested, if_neg (fun hopen => hbrace ⟨hopen.1, .inl hopen.2⟩),
      if_neg (fun hclose => hbrace ⟨hclose.1, .inr hclose.2⟩)]
    exact ih h

/-- **No closing brace in a flat front of a whole block**: it would close the block. -/
theorem not_whole_of_flat {front back : Text} (hflat : flat .top front = some s)
    (hs : s.atTop = true) : ¬ Whole (front ++ '\x7d' :: back) := by
  rintro ⟨s', hnested, -⟩
  rw [nested_append, nested_of_flat hflat, Option.bind_some, nested,
    if_neg (fun h => absurd h.2 (by decide)), if_pos ⟨hs, rfl⟩] at hnested
  cases hnested

/-- Without closing braces nothing that was opened is closed. -/
theorem le_of_nested {m : Nat} (h : nested s n t = some (s', m)) (hclose : '\x7d' ∉ t) : n ≤ m := by
  induction t generalizing s n with
  | nil =>
    obtain ⟨-, rfl⟩ := Prod.mk.inj (Option.some.inj h)
    exact le_refl n
  | cons c t ih =>
    obtain ⟨hc, ht⟩ := not_or.mp (fun hor => hclose (List.mem_cons.mpr hor))
    rw [nested] at h
    split_ifs at h with hopen hbrace
    · exact Nat.le_of_succ_le (ih h ht)
    · exact absurd hbrace.2.symm hc
    · exact ih h ht

/-- A whole block without closing braces is flat. -/
theorem flat_of_whole {block : Text} (h : Whole block) (hclose : '\x7d' ∉ block) :
    ∃ s : Lex, flat .top block = some s ∧ s.atTop = true := by
  have hgen : ∀ {t : Text} {s s' : Lex} {n : Nat}, nested s n t = some (s', n) → '\x7d' ∉ t →
      flat s t = some s' := by
    intro t
    induction t with
    | nil =>
      intro s s' n hn _
      exact congrArg some (Prod.mk.inj (Option.some.inj hn)).1
    | cons c t ih =>
      intro s s' n hn hcl
      obtain ⟨hc, ht⟩ := not_or.mp (fun hor => hcl (List.mem_cons.mpr hor))
      rw [nested] at hn
      split_ifs at hn with hopen hbrace
      · -- an opened brace would stay open
        exact absurd (le_of_nested hn ht) (by omega)
      · exact absurd hbrace.2.symm hc
      · rw [flat, if_neg]
        · exact ih hn ht
        · rintro ⟨htop, rfl | rfl⟩
          · exact hopen ⟨htop, rfl⟩
          · exact hc rfl
  obtain ⟨s, hs, htop⟩ := h
  exact ⟨s, hgen hs hclose, htop⟩

/-! ## §3 Plain runs -/

/-- Characters that open nothing. -/
def opensNothing (c : Char) : Bool :=
  c ∉ ['#', '<', '"', '\'', '\\', '\x7b', '\x7d']

theorem flat_of_opensNothing (h : t.all opensNothing = true) : flat .top t = some .top := by
  induction t with
  | nil => rfl
  | cons c t ih =>
    rw [List.all_cons, Bool.and_eq_true] at h
    obtain ⟨hc, ht⟩ := h
    have hstep : Lex.step .top c = .top := by
      simp only [opensNothing, List.mem_cons, not_or, decide_eq_true_eq]
        at hc
      obtain ⟨h1, h2, h3, h4, h5, -, -⟩ := hc
      simp [Lex.step, Lex.enter, h1, h2, h3, h4, h5]
    rw [flat, if_neg, hstep]
    · exact ih ht
    · rintro ⟨-, rfl | rfl⟩ <;> exact absurd hc (by decide)

/-- An IRI in angle brackets. -/
theorem flat_iri {iri : Text} (h : '>' ∉ iri) : flat .top ('<' :: iri ++ ['>']) = some .top := by
  have hbody : flat .iri (iri ++ ['>']) = some .top := by
    induction iri with
    | nil => rfl
    | cons c iri ih =>
      obtain ⟨hc, hiri⟩ := not_or.mp (fun hor => h (List.mem_cons.mpr hor))
      have hstep : Lex.step .iri c = .iri := if_neg fun heq => hc heq.symm
      rw [List.cons_append, flat, hstep]
      exact ih hiri
  exact hbody

end SolidServer.Text
