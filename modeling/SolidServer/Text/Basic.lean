import Mathlib.Data.List.DropRight
import Mathlib.Data.List.Infix
import Mathlib.Data.List.Sort
import Mathlib.Tactic.Ring

/-!
# Text as lists of characters

The string operations of the standard library that request and path handling is
written with, over lists of characters: trimming by a character, searching from the
right, splitting, prefixes and suffixes.  Lengths are in UTF-8 bytes (`Text.len`),
as the byte-indexed originals count them.

The second half is about the *boundaries* of a text: its prefixes that end in a
separator, from the longest down to a given root.  Every walk "up a path" visits
them in that order.
-/

namespace SolidServer

/-- A string, as the list of its characters. -/
abbrev Text := List Char

instance : Coe String Text := ⟨String.toList⟩

instance : LawfulBEq Text := inferInstance

namespace Text

/-! ## §1 Operations -/

/-- Length in UTF-8 bytes. -/
def len (s : Text) : Nat := (s.map Char.utf8Size).sum

def startsWith (s pre : Text) : Bool := pre.isPrefixOf s

def endsWith (s suf : Text) : Bool := suf.isSuffixOf s

/-- Whether `needle` occurs somewhere in `s`. -/
def contains (needle : Text) : Text → Bool
  | [] => needle.isEmpty
  | c :: s => needle.isPrefixOf (c :: s) || contains needle s

/-- The number of characters before the first occurrence of `needle`. -/
def find (needle : Text) : Text → Option Nat
  | [] => if needle.isEmpty then some 0 else none
  | c :: s => if needle.isPrefixOf (c :: s) then some 0 else (find needle s).map (· + 1)

def stripPrefix? (s pre : Text) : Option Text :=
  if pre.isPrefixOf s then some (s.drop pre.length) else none

def stripSuffix? (s suf : Text) : Option Text :=
  if suf.isSuffixOf s then some (s.take (s.length - suf.length)) else none

/-- All leading occurrences of a character removed. -/
def trimStartMatches (s : Text) (c : Char) : Text := s.dropWhile (· == c)

/-- All trailing occurrences of a character removed. -/
def trimEndMatches (s : Text) (c : Char) : Text := s.rdropWhile (· == c)

/-- The prefix up to and including the last occurrence of a character. -/
def throughLast (s : Text) (c : Char) : Option Text :=
  if c ∈ s then some (s.rdropWhile (· != c)) else none

/-- The parts before and after the first occurrence of a character. -/
def splitOnce (s : Text) (c : Char) : Option (Text × Text) :=
  if c ∈ s then some (s.takeWhile (· != c), (s.dropWhile (· != c)).drop 1) else none

/-- The Unicode `White_Space` property. -/
def isWhitespace (c : Char) : Bool :=
  (9 ≤ c.toNat && c.toNat ≤ 13) || c.toNat == 0x20 || c.toNat == 0x85 || c.toNat == 0xA0 ||
    c.toNat == 0x1680 || (0x2000 ≤ c.toNat && c.toNat ≤ 0x200A) || c.toNat == 0x2028 ||
    c.toNat == 0x2029 || c.toNat == 0x202F || c.toNat == 0x205F || c.toNat == 0x3000

def trimStart (s : Text) : Text := s.dropWhile isWhitespace

def trimEnd (s : Text) : Text := s.rdropWhile isWhitespace

def trim (s : Text) : Text := trimEnd (trimStart s)

/-- `A`–`Z` lowered, everything else unchanged. -/
def toAsciiLowercase (s : Text) : Text := s.map Char.toLower

/-! ## §2 Small facts -/

@[simp] theorem len_nil : len [] = 0 := rfl

@[simp] theorem len_append (s t : Text) : len (s ++ t) = len s + len t := by
  simp [len]

theorem len_pos {s : Text} (h : s ≠ []) : 0 < len s := by
  cases s with
  | nil => exact absurd rfl h
  | cons c s =>
    have := Char.utf8Size_pos c
    simp only [len, List.map_cons, List.sum_cons]
    omega

@[simp] theorem contains_iff {needle s : Text} : contains needle s = true ↔ needle <:+: s := by
  induction s with
  | nil => simp [contains]
  | cons c s ih =>
    rw [contains, Bool.or_eq_true, List.isPrefixOf_iff_prefix, ih, List.infix_cons_iff]

@[simp] theorem startsWith_iff {s pre : Text} : startsWith s pre = true ↔ pre <+: s := by
  simp [startsWith]

@[simp] theorem endsWith_iff {s suf : Text} : endsWith s suf = true ↔ suf <:+ s := by
  simp [endsWith]

theorem stripPrefix?_append (pre s : Text) : stripPrefix? (pre ++ s) pre = some s := by
  simp [stripPrefix?]

/-- A text ends in the single character `c` exactly when `c` is its last character. -/
theorem endsWith_singleton {s : Text} {c : Char} :
    endsWith s [c] = true ↔ s.getLast? = some c := by
  rw [endsWith_iff]
  constructor
  · rintro ⟨t, rfl⟩
    simp
  · intro h
    exact ⟨s.dropLast, List.dropLast_append_getLast? c h⟩

@[simp] theorem throughLast_concat_self (s : Text) (c : Char) :
    throughLast (s ++ [c]) c = some (s ++ [c]) := by
  simp [throughLast]

theorem throughLast_concat_ne (s : Text) {c d : Char} (h : d ≠ c) :
    throughLast (s ++ [d]) c = throughLast s c := by
  have hd : ¬ c = d := fun e => h e.symm
  simp [throughLast, h, hd]

@[simp] theorem trimEndMatches_concat_self (s : Text) (c : Char) :
    trimEndMatches (s ++ [c]) c = trimEndMatches s c := by
  simp [trimEndMatches]

theorem trimEndMatches_concat_ne (s : Text) {c d : Char} (h : d ≠ c) :
    trimEndMatches (s ++ [d]) c = s ++ [d] := by
  simp [trimEndMatches, h]

/-- A text trimmed of a trailing character does not end in it any more. -/
theorem getLast?_trimEndMatches (s : Text) (c : Char) :
    (trimEndMatches s c).getLast? ≠ some c := by
  induction s using List.reverseRecOn with
  | nil => simp [trimEndMatches]
  | append_singleton s d ih =>
    by_cases h : d = c
    · subst h
      rwa [trimEndMatches_concat_self]
    · rw [trimEndMatches_concat_ne s h]
      simpa using h

/-! ## §3 Boundaries -/

/-- The prefixes of `s` that extend `root` and end in `sep`, longest first. -/
def boundaries (sep : Char) (root s : Text) : List Text :=
  (s.inits.filter fun q => root.isPrefixOf q && q.getLast? == some sep).reverse

variable {sep : Char} {root s : Text}

theorem mem_boundaries {q : Text} :
    q ∈ boundaries sep root s ↔ q <+: s ∧ root <+: q ∧ q.getLast? = some sep := by
  simp [boundaries]

private theorem inits_concat (s : Text) (c : Char) : (s ++ [c]).inits = s.inits ++ [s ++ [c]] := by
  simp [List.inits_append]

theorem boundaries_concat_sep (h : root <+: s ++ [sep]) :
    boundaries sep root (s ++ [sep]) = (s ++ [sep]) :: boundaries sep root s := by
  simp [boundaries, h]

theorem boundaries_concat_ne {d : Char} (h : d ≠ sep) :
    boundaries sep root (s ++ [d]) = boundaries sep root s := by
  simp [boundaries, h]

/-- The root is its own only boundary. -/
theorem boundaries_self (h : root.getLast? = some sep) : boundaries sep root root = [root] := by
  obtain ⟨r, rfl⟩ : ∃ r, root = r ++ [sep] :=
    ⟨root.dropLast, (List.dropLast_append_getLast? sep h).symm⟩
  rw [boundaries_concat_sep (List.prefix_refl _)]
  congr 1
  rw [List.eq_nil_iff_forall_not_mem]
  intro q hq
  obtain ⟨hqr, hrq, -⟩ := mem_boundaries.mp hq
  have hlen := (hrq.trans hqr).length_le
  simp only [List.length_append, List.length_singleton] at hlen
  omega

/-- Boundaries are listed from the longest to the shortest. -/
theorem boundaries_pairwise :
    (boundaries sep root s).Pairwise fun a b => b.length < a.length := by
  unfold boundaries
  rw [List.pairwise_reverse]
  refine List.Pairwise.filter _ ?_
  induction s using List.reverseRecOn with
  | nil => simp
  | append_singleton s c ih =>
    rw [inits_concat, List.pairwise_append]
    refine ⟨ih, by simp, ?_⟩
    intro a ha b hb
    have hb' : b = s ++ [c] := by simpa using hb
    have hlen := ((List.mem_inits a s).mp ha).length_le
    simp [hb']
    omega

end Text

end SolidServer
