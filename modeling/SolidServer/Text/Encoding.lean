import SolidServer.Text.Basic

/-!
# Bytes and text

UTF-8 in both directions and the number formats that appear in headers, names and
entity tags.  Decoding follows the maximal-subpart rule: an ill-formed sequence
yields one error for the longest prefix that could have started a character, and
never swallows the byte that broke it.
-/

namespace SolidServer

/-- A byte string. -/
abbrev Bytes := List UInt8

namespace Text

/-! ## §1 UTF-8 -/

def utf8 (s : Text) : Bytes := s.flatMap String.utf8EncodeChar

theorem utf8_injective : Function.Injective utf8 := by
  intro s t h
  have hbytes : s.utf8Encode = t.utf8Encode := congrArg List.toByteArray h
  have hstr : String.ofList s = String.ofList t := by
    apply String.toByteArray_inj.mp
    simpa using hbytes
  simpa using congrArg String.toList hstr

/-- How many continuation bytes a lead byte announces, with the range its first
continuation byte must lie in; `none` for a byte that cannot start a character. -/
def utf8Lead (b : UInt8) : Option (Nat × Nat × Nat) :=
  let n := b.toNat
  if n < 0x80 then some (0, 0, 0)
  else if 0xC2 ≤ n ∧ n ≤ 0xDF then some (1, 0x80, 0xBF)
  else if n = 0xE0 then some (2, 0xA0, 0xBF)
  else if n = 0xED then some (2, 0x80, 0x9F)
  else if 0xE1 ≤ n ∧ n ≤ 0xEF then some (2, 0x80, 0xBF)
  else if n = 0xF0 then some (3, 0x90, 0xBF)
  else if n = 0xF4 then some (3, 0x80, 0x8F)
  else if 0xF1 ≤ n ∧ n ≤ 0xF3 then some (3, 0x80, 0xBF)
  else none

/-- The code point bits a lead byte of a sequence with `k` continuation bytes carries. -/
def utf8LeadBits (b : UInt8) (k : Nat) : Nat :=
  match k with
  | 0 => b.toNat
  | 1 => b.toNat % 32
  | 2 => b.toNat % 16
  | _ => b.toNat % 8

/-- Decoder state between bytes: at a character boundary, or inside a character with
`acc` collected, `more` bytes to come and the next one due in `lo..hi`. -/
inductive Utf8State where
  | start
  | inside (acc more lo hi : Nat)
  deriving DecidableEq, Repr

/-- Decode, one item per character or ill-formed sequence (`none`). -/
def utf8Items : Utf8State → Bytes → List (Option Char)
  | .start, [] => []
  | .inside .., [] => [none]
  | st, b :: bs =>
    let begin : List (Option Char) :=
      match utf8Lead b with
      | none => none :: utf8Items .start bs
      | some (0, _, _) => some (Char.ofNat b.toNat) :: utf8Items .start bs
      | some (k + 1, lo, hi) => utf8Items (.inside (utf8LeadBits b (k + 1)) k lo hi) bs
    match st with
    | .start => begin
    | .inside acc more lo hi =>
      if lo ≤ b.toNat ∧ b.toNat ≤ hi then
        match more with
        | 0 => some (Char.ofNat (acc * 64 + b.toNat % 64)) :: utf8Items .start bs
        | m + 1 => utf8Items (.inside (acc * 64 + b.toNat % 64) m 0x80 0xBF) bs
      -- the sequence broke off before `b`, which starts afresh
      else none :: begin

/-- Strict decoding: `none` on any ill-formed sequence. -/
def ofUtf8? (b : Bytes) : Option Text := (utf8Items .start b).mapM id

/-- Lossy decoding: each ill-formed sequence becomes U+FFFD. -/
def ofUtf8Lossy (b : Bytes) : Text := (utf8Items .start b).map fun c => c.getD (Char.ofNat 0xFFFD)

/-- ASCII bytes are their characters. -/
theorem ofUtf8Lossy_ascii {b : Bytes} (h : ∀ x ∈ b, x.toNat < 128) :
    ofUtf8Lossy b = b.map fun x => Char.ofNat x.toNat := by
  unfold ofUtf8Lossy
  induction b with
  | nil => rfl
  | cons x b ih =>
    obtain ⟨hx, hb⟩ := List.forall_mem_cons.mp h
    have hlead : utf8Lead x = some (0, 0, 0) := if_pos hx
    rw [utf8Items, hlead]
    simp only [List.map_cons, Option.getD_some, ih hb]

/-! ## §2 Numbers -/

def decimal (n : Nat) : Text := Nat.toDigits 10 n

def hex (n : Nat) : Text := Nat.toDigits 16 n

theorem hex_eq (n : Nat) :
    hex n = if n < 16 then [n.digitChar] else hex (n / 16) ++ [(n % 16).digitChar] :=
  Nat.toDigits_eq_if (by decide)

/-- The characters of a hexadecimal number are digits. -/
theorem mem_hex {n : Nat} {c : Char} (h : c ∈ hex n) : ∃ d : Fin 16, c = Nat.digitChar d := by
  induction n using Nat.strong_induction_on with
  | _ n ih =>
    rw [hex_eq] at h
    split_ifs at h with hn
    · exact ⟨⟨n, hn⟩, by simpa using h⟩
    · rcases List.mem_append.mp h with h | h
      · exact ih (n / 16) (Nat.div_lt_self (by omega) (by decide)) h
      · exact ⟨⟨n % 16, Nat.mod_lt n (by decide)⟩, by simpa using h⟩

theorem hex_ne_nil (n : Nat) : hex n ≠ [] := by
  rw [hex_eq]
  split_ifs <;> simp

/-- Left-padded with zeros to at least `w` characters. -/
def zeroPad (w : Nat) (s : Text) : Text := List.replicate (w - s.length) '0' ++ s

def isAsciiDigit (c : Char) : Bool := '0' ≤ c && c ≤ '9'

/-- A non-empty string of ASCII digits with an optional `+`, as an unsigned integer of
`w` bits is read; `none` when malformed or out of range. -/
def parseUnsigned? (w : Nat) (s : Text) : Option Nat :=
  let digits := (stripPrefix? s ['+']).getD s
  if digits ≠ [] ∧ digits.all isAsciiDigit then
    let n := digits.foldl (fun acc c => acc * 10 + (c.toNat - '0'.toNat)) 0
    if n < 2 ^ w then some n else none
  else none

example : ofUtf8? (utf8 "aé€😀") = some "aé€😀".toList := by decide

end Text

end SolidServer
