import SolidServer.Text.Encoding
import SolidServer.Text.Trim
import Mathlib.Tactic.Ring

/-!
# Numbers in decimal digits

The number a run of ASCII digits denotes, of any magnitude (`digits?`).  Reading an unsigned
integer of a fixed width is reading such a run, with one `+` allowed before it and the bound
of the type on the result (`parseUnsigned?_eq_some`).  A number padded with zeros to a fixed
width and a run of that many digits are the same thing (`zeroPad_digitsValue`,
`digitsValue_zeroPad`).
-/

namespace SolidServer.Text

/-! ## §1 Runs of digits -/

/-- The number a run of digits denotes. -/
def digitsValue (ds : Text) : Nat := ds.foldl (fun acc c => acc * 10 + (c.toNat - '0'.toNat)) 0

/-- One or more ASCII digits, as the number they denote. -/
def digits? (t : Text) : Option Nat :=
  if t ≠ [] ∧ t.all isAsciiDigit = true then some (digitsValue t) else none

variable {t : Text} {n w : Nat} {c : Char}

theorem digits?_eq_some :
    digits? t = some n ↔ (t ≠ [] ∧ t.all isAsciiDigit = true) ∧ digitsValue t = n := by
  unfold digits?
  split_ifs with h
  · exact ⟨fun heq => ⟨h, Option.some.inj heq⟩, fun heq => congrArg some heq.2⟩
  · constructor
    · intro heq
      cases heq
    · intro heq
      exact absurd heq.1 h

theorem ne_nil_of_digits? (h : digits? t = some n) : t ≠ [] :=
  (digits?_eq_some.mp h).1.1

theorem isAsciiDigit_of_digits? (h : digits? t = some n) :
    ∀ c ∈ t, isAsciiDigit c = true := List.all_eq_true.mp (digits?_eq_some.mp h).1.2

theorem toNat_of_isAsciiDigit (h : isAsciiDigit c = true) :
    48 ≤ c.toNat ∧ c.toNat ≤ 57 := by
  simp only [isAsciiDigit, Bool.and_eq_true, decide_eq_true_eq] at h
  exact ⟨h.1, h.2⟩

theorem not_isWhitespace_of_isAsciiDigit (h : isAsciiDigit c = true) :
    isWhitespace c = false := by
  have hc := toNat_of_isAsciiDigit h
  simp only [isWhitespace, Bool.or_eq_false_iff, Bool.and_eq_false_iff, decide_eq_false_iff_not,
    beq_eq_false_iff_ne]
  omega

theorem not_mem_digits (h : digits? t = some n) (hc : isAsciiDigit c = false) : c ∉ t := by
  intro hmem
  rw [isAsciiDigit_of_digits? h c hmem] at hc
  cases hc

theorem tight_of_digits? (h : digits? t = some n) : Tight t := by
  have hall := isAsciiDigit_of_digits? h
  constructor
  · intro c hc
    exact not_isWhitespace_of_isAsciiDigit (hall c (List.mem_of_head? hc))
  · intro c hc
    exact not_isWhitespace_of_isAsciiDigit (hall c (List.mem_of_getLast? hc))

/-- A run of digits with at most one `+` before it. -/
def Signed (t : Text) (n : Nat) : Prop := ∃ ds, (t = ds ∨ t = '+' :: ds) ∧ digits? ds = some n

theorem signed_of_digits? (h : digits? t = some n) : Signed t n :=
  ⟨t, .inl rfl, h⟩

theorem Signed.functional {m : Nat} (hm : Signed t m) (hn : Signed t n) : m = n := by
  have hplus : ∀ (ds : Text) (k : Nat), digits? ('+' :: ds) ≠ some k := by
    intro ds k hk
    exact not_mem_digits hk (by decide) List.mem_cons_self
  obtain ⟨d, hd, hdm⟩ := hm
  obtain ⟨e, he, hen⟩ := hn
  rcases hd with rfl | rfl <;> rcases he with rfl | he
  · exact Option.some.inj (hdm.symm.trans hen)
  · rw [he] at hdm
    exact absurd hdm (hplus e m)
  · exact absurd hen (hplus d n)
  · obtain rfl := (List.cons.inj he).2
    exact Option.some.inj (hdm.symm.trans hen)

theorem Signed.ne_nil (h : Signed t n) : t ≠ [] := by
  obtain ⟨ds, rfl | rfl, hds⟩ := h
  · exact ne_nil_of_digits? hds
  · exact List.cons_ne_nil _ _

/-- A character that is neither a digit nor `+` does not stand in a number. -/
theorem Signed.not_mem (h : Signed t n) (hc : isAsciiDigit c = false) (hplus : c ≠ '+') :
    c ∉ t := by
  obtain ⟨ds, rfl | rfl, hds⟩ := h
  · exact not_mem_digits hds hc
  · intro hmem
    rcases List.mem_cons.mp hmem with rfl | hmem
    · exact hplus rfl
    · exact not_mem_digits hds hc hmem

/-- **Reading an unsigned integer** of `w` bits. -/
theorem parseUnsigned?_eq_some :
    parseUnsigned? w t = some n ↔ Signed t n ∧ n < 2 ^ w := by
  have hread : ∀ ds : Text, (if ds ≠ [] ∧ ds.all isAsciiDigit = true then
      (if digitsValue ds < 2 ^ w then some (digitsValue ds) else none) else none) = some n ↔
        digits? ds = some n ∧ n < 2 ^ w := by
    intro ds
    rw [digits?_eq_some]
    by_cases hds : ds ≠ [] ∧ ds.all isAsciiDigit = true
    · rw [if_pos hds]
      constructor
      · intro h
        split_ifs at h with hlt
        obtain rfl := Option.some.inj h
        exact ⟨⟨hds, rfl⟩, hlt⟩
      · rintro ⟨⟨-, rfl⟩, hlt⟩
        rw [if_pos hlt]
    · rw [if_neg hds]
      constructor
      · intro h
        cases h
      · intro h
        exact absurd h.1.1 hds
  cases hstrip : stripPrefix? t ['+'] with
  | some ds =>
    have hmodel : parseUnsigned? w t = some n ↔ digits? ds = some n ∧ n < 2 ^ w := by
      unfold parseUnsigned?
      rw [hstrip]
      exact hread ds
    obtain rfl : t = '+' :: ds := stripPrefix?_eq_some.mp hstrip
    rw [hmodel]
    constructor
    · rintro ⟨hds, hlt⟩
      exact ⟨⟨ds, .inr rfl, hds⟩, hlt⟩
    · rintro ⟨⟨e, he, hen⟩, hlt⟩
      rcases he with rfl | he
      · exact absurd List.mem_cons_self (not_mem_digits hen (by decide))
      · obtain rfl := (List.cons.inj he).2
        exact ⟨hen, hlt⟩
  | none =>
    have hmodel : parseUnsigned? w t = some n ↔ digits? t = some n ∧ n < 2 ^ w := by
      unfold parseUnsigned?
      rw [hstrip]
      exact hread t
    rw [hmodel]
    constructor
    · rintro ⟨hds, hlt⟩
      exact ⟨signed_of_digits? hds, hlt⟩
    · rintro ⟨⟨e, he, hen⟩, hlt⟩
      rcases he with rfl | rfl
      · exact ⟨hen, hlt⟩
      · cases (stripPrefix?_append ['+'] e).symm.trans hstrip

/-! ## §2 Fixed width -/

theorem digitsValue_concat (t : Text) (c : Char) :
    digitsValue (t ++ [c]) = digitsValue t * 10 + (c.toNat - '0'.toNat) := by
  simp [digitsValue]

theorem decimal_eq (n : Nat) :
    decimal n = if n < 10 then [n.digitChar] else decimal (n / 10) ++ [(n % 10).digitChar] :=
  Nat.toDigits_eq_if (by decide)

theorem digitChar_spec {d : Nat} (h : d < 10) :
    isAsciiDigit d.digitChar = true ∧ d.digitChar.toNat - '0'.toNat = d := by
  have hall : ∀ d : Fin 10, isAsciiDigit (Nat.digitChar d) = true ∧
      (Nat.digitChar d).toNat - '0'.toNat = d := by decide
  exact hall ⟨d, h⟩

theorem digitChar_of_isAsciiDigit (h : isAsciiDigit c = true) :
    (c.toNat - '0'.toNat).digitChar = c := by
  obtain ⟨hlow, hhigh⟩ := toNat_of_isAsciiDigit h
  have hall : ∀ n : Fin 58, 48 ≤ n.val → (n.val - '0'.toNat).digitChar = Char.ofNat n := by decide
  have hc := hall ⟨c.toNat, by omega⟩ hlow
  rwa [Char.ofNat_toNat] at hc

/-- The last digit of a padded number stands apart. -/
theorem zeroPad_succ (hw : 1 ≤ w) (n : Nat) :
    zeroPad (w + 1) (decimal n) = zeroPad w (decimal (n / 10)) ++ [(n % 10).digitChar] := by
  rw [decimal_eq n]
  split_ifs with hn
  · have hzero : decimal (n / 10) = ['0'] := by
      rw [Nat.div_eq_of_lt hn]
      rfl
    obtain ⟨k, rfl⟩ := Nat.exists_eq_add_of_le' hw
    rw [hzero, Nat.mod_eq_of_lt hn]
    simp only [zeroPad, List.length_singleton, Nat.add_sub_cancel, ← List.replicate_succ']
  · simp [zeroPad]

/-- **A padded number is its digits**, one for each place. -/
theorem digitsValue_zeroPad (hw : 1 ≤ w) (hn : n < 10 ^ w) :
    (zeroPad w (decimal n)).length = w ∧ (zeroPad w (decimal n)).all isAsciiDigit = true ∧
      digitsValue (zeroPad w (decimal n)) = n := by
  induction w, hw using Nat.le_induction generalizing n with
  | base =>
    have hlt : n < 10 := by simpa using hn
    obtain ⟨hdigit, hvalue⟩ := digitChar_spec hlt
    have hone : zeroPad 1 (decimal n) = [n.digitChar] := by
      rw [decimal_eq, if_pos hlt]
      rfl
    rw [hone]
    refine ⟨rfl, by simp [hdigit], ?_⟩
    simpa [digitsValue] using hvalue
  | succ w hw ih =>
    have hdiv : n / 10 < 10 ^ w := by
      omega
    obtain ⟨hlength, hall, hvalue⟩ := ih hdiv
    obtain ⟨hdigit, hlast⟩ := digitChar_spec (Nat.mod_lt n (show 10 > 0 by omega))
    rw [zeroPad_succ hw, digitsValue_concat]
    refine ⟨by simp [hlength], ?_, by omega⟩
    rw [List.all_append, hall]
    simp [hdigit]

/-- **A run of digits is its number**, padded to its length. -/
theorem zeroPad_digitsValue (hne : t ≠ []) (h : t.all isAsciiDigit = true) :
    zeroPad t.length (decimal (digitsValue t)) = t := by
  induction t using List.reverseRecOn with
  | nil => exact absurd rfl hne
  | append_singleton t c ih =>
    rw [List.all_append, Bool.and_eq_true] at h
    have hc : isAsciiDigit c = true := by simpa using h.2
    have hlt := toNat_of_isAsciiDigit hc
    have hchar := digitChar_of_isAsciiDigit hc
    have hzero : '0'.toNat = 48 := rfl
    by_cases ht : t = []
    · subst ht
      have hvalue : digitsValue ([] ++ [c]) = c.toNat - '0'.toNat := by
        simp [digitsValue]
      rw [hvalue, decimal_eq, if_pos (by omega), hchar]
      rfl
    · have hlength : 1 ≤ t.length := List.length_pos_iff.mpr ht
      rw [digitsValue_concat, List.length_append, List.length_singleton, zeroPad_succ hlength]
      have hdiv : (digitsValue t * 10 + (c.toNat - '0'.toNat)) / 10 = digitsValue t := by omega
      have hmod : (digitsValue t * 10 + (c.toNat - '0'.toNat)) % 10 = c.toNat - '0'.toNat := by
        omega
      rw [hdiv, hmod, ih ht h.1, hchar]

/-- Two places. -/
theorem zeroPad_two (h : n < 100) : ∃ a b, zeroPad 2 (decimal n) = [a, b] ∧
    isAsciiDigit a = true ∧ isAsciiDigit b = true ∧ digitsValue [a, b] = n := by
  obtain ⟨hlength, hall, hvalue⟩ := digitsValue_zeroPad (w := 2) (by omega) (by omega : n < 10 ^ 2)
  obtain ⟨a, b, hab⟩ := List.length_eq_two.mp hlength
  rw [hab] at hall hvalue
  simp only [List.all_cons, List.all_nil, Bool.and_true, Bool.and_eq_true] at hall
  exact ⟨a, b, hab, hall.1, hall.2, hvalue⟩

/-- Four places. -/
theorem zeroPad_four (h : n < 10000) : ∃ a b c d, zeroPad 4 (decimal n) = [a, b, c, d] ∧
    (isAsciiDigit a = true ∧ isAsciiDigit b = true ∧ isAsciiDigit c = true ∧
      isAsciiDigit d = true) ∧ digitsValue [a, b, c, d] = n := by
  obtain ⟨hlength, hall, hvalue⟩ := digitsValue_zeroPad (w := 4) (by omega) (by omega : n < 10 ^ 4)
  match hab : zeroPad 4 (decimal n), hlength with
  | [a, b, c, d], _ =>
    rw [hab] at hall hvalue
    simp only [List.all_cons, List.all_nil, Bool.and_true, Bool.and_eq_true] at hall
    exact ⟨a, b, c, d, rfl, hall, hvalue⟩

end SolidServer.Text
