import Mathlib.Order.Lattice.Nat
import Mathlib.Data.Finset.Lattice.Fold
import SolidServer.Pop.Window

/-!
# The anti-replay window as a set

What the window is for: it remembers the counters it accepted.  The set model keeps them
all and judges a counter by them; the bitmap keeps the last 1024 positions.  Along every
history both give the same verdicts (`window_refines_set`).

The bitmap is run here with checked operations, which fail on an index outside the sixteen
words, on a shift by a whole word or more and on a difference below zero, as the compiled
code would.  No history makes one of them fail.
-/

namespace SolidServer.Sk

/-! ## §1 Checked operations -/

/-- A difference of unsigned integers. -/
def sub? (a b : Nat) : Option Nat := if b ≤ a then some (a - b) else none

/-- `<<` on a word. -/
def shl? (v : BitVec 64) (n : Nat) : Option (BitVec 64) := if n < 64 then some (v <<< n) else none

/-- `>>` on a word. -/
def shr? (v : BitVec 64) (n : Nat) : Option (BitVec 64) := if n < 64 then some (v >>> n) else none

namespace Bitmap

/-- `get_bit` with checked operations. -/
def getBit? (b : Bitmap) (i : Nat) : Option Bool := do
  let w ← b[i / 64]?
  let v ← shr? w (i % 64)
  pure (v &&& 1#64 == 1#64)

/-- `set_bit` with checked operations. -/
def setBit? (b : Bitmap) (i : Nat) : Option Bitmap := do
  let w ← b[i / 64]?
  let mask ← shl? 1#64 (i % 64)
  pure (b.setIfInBounds (i / 64) (w ||| mask))

/-- The word that moves to `i`, with checked operations. -/
def movedWord? (wordShift bitShift : Nat) (b : Bitmap) (i : Nat) : Option (BitVec 64) :=
  if i ≥ wordShift then do
    let j ← sub? i wordShift
    let w ← b[j]?
    shl? w bitShift
  else pure 0

/-- The new word `i` with checked operations. -/
def shiftedWord? (wordShift bitShift : Nat) (b : Bitmap) (i : Nat) : Option (BitVec 64) := do
  let v ← movedWord? wordShift bitShift b i
  if bitShift > 0 ∧ i > wordShift then do
    let j ← sub? i wordShift
    let k ← sub? j 1
    let w ← b[k]?
    let back ← sub? 64 bitShift
    let carry ← shr? w back
    pure (v ||| carry)
  else pure v

/-- The loop of `shift` with checked operations. -/
def shiftLoop? (wordShift bitShift : Nat) : Nat → Bitmap → Option Bitmap
  | 0, b => some b
  | i + 1, b => do
    let v ← shiftedWord? wordShift bitShift b i
    let _ ← b[i]?
    shiftLoop? wordShift bitShift i (b.setIfInBounds i v)

/-- `shift` with checked operations. -/
def shift? (b : Bitmap) (n : Nat) : Option Bitmap :=
  if n ≥ windowBits then some empty else shiftLoop? (n / 64) (n % 64) words b

/-- An index within the words. -/
theorem getElem?_eq_word (b : Bitmap) {i : Nat} (hi : i < words) : b[i]? = some (b.word i) := by
  unfold word
  simp [hi]

theorem and_one_beq_one (v : BitVec 64) (k : Nat) :
    ((v >>> k) &&& 1#64 == 1#64) = v.getLsbD k := by
  rw [BitVec.and_one_eq_setWidth_ofBool_getLsbD, BitVec.getLsbD_ushiftRight]
  cases v.getLsbD k <;> decide

theorem getBit?_eq (b : Bitmap) {i : Nat} (hi : i < windowBits) :
    b.getBit? i = some (b.bit i) := by
  have hword : i / 64 < words := by unfold words windowBits at *; omega
  have hbit : i % 64 < 64 := Nat.mod_lt i (by decide)
  unfold getBit? shr?
  rw [getElem?_eq_word b hword, Option.bind_eq_bind, Option.bind_some, if_pos hbit,
    Option.bind_some, and_one_beq_one]
  rfl

theorem setBit?_eq (b : Bitmap) {i : Nat} (hi : i < windowBits) :
    b.setBit? i = some (b.setBit i) := by
  have hword : i / 64 < words := by unfold words windowBits at *; omega
  have hbit : i % 64 < 64 := Nat.mod_lt i (by decide)
  unfold setBit? shl? setBit
  rw [getElem?_eq_word b hword, if_pos hbit]
  rfl

theorem shiftedWord?_eq (b : Bitmap) {ws bs i : Nat} (hbs : bs < 64) (hi : i < words) :
    shiftedWord? ws bs b i = some (shiftedWord ws bs b i) := by
  have hmoved : movedWord? ws bs b i = some (if i ≥ ws then b.word (i - ws) <<< bs else 0) := by
    unfold movedWord?
    split_ifs with hws
    · simp [sub?, shl?, hws, hbs, getElem?_eq_word b (show i - ws < words by omega)]
    · rfl
  unfold shiftedWord? shiftedWord
  rw [hmoved]
  by_cases hcarry : bs > 0 ∧ i > ws
  · -- the bits carried over from the word before
    have hle : ws ≤ i := Nat.le_of_lt hcarry.2
    have hone : 1 ≤ i - ws := by omega
    have hback : 64 - bs < 64 := by omega
    simp [sub?, shr?, hcarry, hle, hone, Nat.le_of_lt hbs,
      getElem?_eq_word b (show i - ws - 1 < words by omega)]
  · simp [hcarry]

theorem shiftLoop?_eq {ws bs : Nat} (hbs : bs < 64) {n : Nat} (hn : n ≤ words) (b : Bitmap) :
    shiftLoop? ws bs n b = some (shiftLoop ws bs n b) := by
  induction n generalizing b with
  | zero => rfl
  | succ n ih =>
    rw [shiftLoop?, shiftedWord?_eq b hbs (by omega), Option.bind_eq_bind,
      getElem?_eq_word b (by omega), Option.bind_some, ih (by omega)]
    rfl

theorem shift?_eq (b : Bitmap) (n : Nat) : b.shift? n = some (b.shift n) := by
  unfold shift? shift
  split_ifs with hn
  · rfl
  · exact shiftLoop?_eq (Nat.mod_lt n (by decide)) (Nat.le_refl words) b

end Bitmap

namespace ReplayWindow

/-- `check_and_mark` with checked operations. -/
def checkAndMark? (w : ReplayWindow) (n : Nat) : Option (WindowVerdict × ReplayWindow) :=
  if n > w.high then do
    let by_ ← sub? n w.high
    let shifted ← w.bitmap.shift? by_
    let marked ← shifted.setBit? 0
    pure (.accept, ⟨n, marked⟩)
  else do
    let diff ← sub? w.high n
    if diff ≥ windowBits then pure (.belowWindow, w)
    else do
      let seen ← w.bitmap.getBit? diff
      if seen then pure (.duplicate, w)
      else do
        let marked ← w.bitmap.setBit? diff
        pure (.accept, ⟨w.high, marked⟩)

/-- **Every index and every shift is in range.** -/
theorem checkAndMark?_eq (w : ReplayWindow) (n : Nat) :
    w.checkAndMark? n = some (w.checkAndMark n) := by
  unfold checkAndMark? checkAndMark
  split_ifs with hgt hbelow hbit
  · simp [sub?, Nat.le_of_lt hgt, Bitmap.shift?_eq, Bitmap.setBit?_eq _ (show 0 < windowBits by decide)]
  · simp [sub?, Nat.le_of_not_lt hgt, hbelow]
  · simp [sub?, Nat.le_of_not_lt hgt, hbelow, Bitmap.getBit?_eq _ (Nat.not_le.mp hbelow), hbit]
  · simp [sub?, Nat.le_of_not_lt hgt, hbelow, Bitmap.getBit?_eq _ (Nat.not_le.mp hbelow),
      Bitmap.setBit?_eq _ (Nat.not_le.mp hbelow), hbit]

/-- What a call can do. -/
theorem checkAndMark_cases (w : ReplayWindow) (n : Nat) :
    (w.high < n ∧
      w.checkAndMark n = (.accept, ⟨n, (w.bitmap.shift (n - w.high)).setBit 0⟩)) ∨
    (n ≤ w.high ∧ windowBits ≤ w.high - n ∧ w.checkAndMark n = (.belowWindow, w)) ∨
    (n ≤ w.high ∧ w.high - n < windowBits ∧ w.bitmap.bit (w.high - n) = true ∧
      w.checkAndMark n = (.duplicate, w)) ∨
    (n ≤ w.high ∧ w.high - n < windowBits ∧ w.bitmap.bit (w.high - n) = false ∧
      w.checkAndMark n = (.accept, ⟨w.high, w.bitmap.setBit (w.high - n)⟩)) := by
  unfold checkAndMark
  by_cases hgt : n > w.high
  · exact .inl ⟨hgt, if_pos hgt⟩
  · rw [if_neg hgt]
    by_cases hbelow : w.high - n ≥ windowBits
    · exact .inr (.inl ⟨Nat.le_of_not_lt hgt, hbelow, if_pos hbelow⟩)
    · rw [if_neg hbelow]
      cases hbit : w.bitmap.bit (w.high - n) with
      | true => exact .inr (.inr (.inl ⟨Nat.le_of_not_lt hgt, Nat.not_le.mp hbelow, rfl, rfl⟩))
      | false => exact .inr (.inr (.inr ⟨Nat.le_of_not_lt hgt, Nat.not_le.mp hbelow, rfl, rfl⟩))

/-- The verdicts on a history, with checked operations. -/
def verdicts? : ReplayWindow → List Nat → Option (List WindowVerdict)
  | _, [] => some []
  | w, n :: ns => do
    let (verdict, w') ← w.checkAndMark? n
    let rest ← verdicts? w' ns
    pure (verdict :: rest)

end ReplayWindow

/-! ## §2 The set model -/

namespace SetModel

/-- The largest counter accepted, 0 for none. -/
def high (accepted : Finset Nat) : Nat := accepted.sup id

/-- **The judgement on a counter**: outside the window, accepted before, or new. -/
def judge (accepted : Finset Nat) (n : Nat) : WindowVerdict :=
  if n ∉ accepted ∧ high accepted < n + windowBits then .accept
  else if n ∈ accepted ∧ high accepted < n + windowBits then .duplicate
  else .belowWindow

/-- The verdicts on a history. -/
def verdicts : Finset Nat → List Nat → List WindowVerdict
  | _, [] => []
  | accepted, n :: ns =>
    judge accepted n ::
      verdicts (if judge accepted n = .accept then insert n accepted else accepted) ns

section
variable {accepted : Finset Nat} {n : Nat}

theorem judge_new (hnew : n ∉ accepted) (hin : high accepted < n + windowBits) :
    judge accepted n = .accept := if_pos ⟨hnew, hin⟩

theorem judge_old (hmem : n ∈ accepted) (hin : high accepted < n + windowBits) :
    judge accepted n = .duplicate := by
  unfold judge
  rw [if_neg (fun h => h.1 hmem), if_pos ⟨hmem, hin⟩]

theorem judge_below (hout : n + windowBits ≤ high accepted) : judge accepted n = .belowWindow := by
  unfold judge
  rw [if_neg (fun h => Nat.not_lt.mpr hout h.2), if_neg (fun h => Nat.not_lt.mpr hout h.2)]

end

theorem le_high {accepted : Finset Nat} {n : Nat} (h : n ∈ accepted) : n ≤ high accepted :=
  Finset.le_sup (f := id) h

theorem high_insert (accepted : Finset Nat) (n : Nat) :
    high (insert n accepted) = max n (high accepted) := Finset.sup_insert

end SetModel

/-! ## §3 Refinement -/

/-- **The bitmap stands for a set**: the highest counter is the set's, and within the window a bit
is set exactly for the members. -/
structure Represents (w : ReplayWindow) (accepted : Finset Nat) : Prop where
  high : w.high = SetModel.high accepted
  bits : ∀ n ≤ w.high, w.high - n < windowBits →
    (w.bitmap.bit (w.high - n) = true ↔ n ∈ accepted)

theorem represents_new : Represents ReplayWindow.new ∅ where
  high := rfl
  bits n _ _ := by simp [ReplayWindow.new]

namespace Represents

variable {w : ReplayWindow} {accepted : Finset Nat} {n : Nat}

/-- Both give the same verdict. -/
theorem verdict (h : Represents w accepted) (n : Nat) :
    (w.checkAndMark n).1 = SetModel.judge accepted n := by
  have hhigh := h.high
  rcases w.checkAndMark_cases n with ⟨hgt, hcall⟩ | ⟨hle, hout, hcall⟩ | ⟨hle, hin, hbit, hcall⟩ |
    ⟨hle, hin, hbit, hcall⟩ <;> rw [hcall]
  · -- a counter above all accepted ones is new
    have hnew : n ∉ accepted := by
      intro hmem
      have := SetModel.le_high hmem
      omega
    exact (SetModel.judge_new hnew (by omega)).symm
  · exact (SetModel.judge_below (by omega)).symm
  · exact (SetModel.judge_old ((h.bits n hle hin).mp hbit) (by omega)).symm
  · have hnew : n ∉ accepted := by
      intro hmem
      rw [(h.bits n hle hin).mpr hmem] at hbit
      cases hbit
    exact (SetModel.judge_new hnew (by omega)).symm

/-- An accepted counter above the window: the bits move along and the first one is set. -/
theorem advance (h : Represents w accepted) (hgt : w.high < n) :
    Represents ⟨n, (w.bitmap.shift (n - w.high)).setBit 0⟩ (insert n accepted) where
  high := by
    rw [SetModel.high_insert, ← h.high]
    exact (Nat.max_eq_left (Nat.le_of_lt hgt)).symm
  bits m hm hwithin := by
    simp only at hm hwithin ⊢
    rw [Bitmap.bit_setBit _ (by decide), Bitmap.bit_shift _ _ hwithin, Finset.mem_insert]
    by_cases heq : m = n
    · simp [heq]
    · have hne : n - m ≠ 0 := by omega
      by_cases hold : m ≤ w.high
      · -- an old counter keeps its bit
        have hpos : n - m - (n - w.high) = w.high - m := by omega
        have hmoved : n - w.high ≤ n - m := by omega
        have hbits := h.bits m hold (by omega)
        simp only [hne, hmoved, hpos, heq,
          false_or]
        exact hbits
      · -- a counter between the old and the new highest was never seen
        have hskipped : ¬ n - w.high ≤ n - m := by omega
        have hnew : m ∉ accepted := by
          intro hmem
          have := SetModel.le_high hmem
          have := h.high
          omega
        simp [hne, hskipped, heq, hnew]

/-- An accepted counter within the window: its bit is set. -/
theorem mark (h : Represents w accepted) (hle : n ≤ w.high) (hwithin : w.high - n < windowBits) :
    Represents ⟨w.high, w.bitmap.setBit (w.high - n)⟩ (insert n accepted) where
  high := by
    rw [SetModel.high_insert, ← h.high]
    exact (Nat.max_eq_right hle).symm
  bits m hm hm' := by
    simp only at hm hm' ⊢
    rw [Bitmap.bit_setBit _ hwithin, Finset.mem_insert, Bool.or_eq_true, decide_eq_true_eq,
      h.bits m hm hm']
    have hsame : w.high - m = w.high - n ↔ m = n := by omega
    rw [hsame]

/-- **One step** keeps the representation. -/
theorem step (h : Represents w accepted) (n : Nat) :
    Represents (w.checkAndMark n).2
      (if SetModel.judge accepted n = .accept then insert n accepted else accepted) := by
  rw [← h.verdict n]
  rcases w.checkAndMark_cases n with ⟨hgt, hcall⟩ | ⟨-, -, hcall⟩ | ⟨-, -, -, hcall⟩ |
    ⟨hle, hin, -, hcall⟩ <;> rw [hcall]
  · exact h.advance hgt
  · exact h
  · exact h
  · exact h.mark hle hin

end Represents

/-- **A whole history**: from a window that stands for a set, the verdicts are the set's, and no
checked operation fails. -/
theorem verdicts?_eq {w : ReplayWindow} {accepted : Finset Nat} (h : Represents w accepted)
    (ns : List Nat) : w.verdicts? ns = some (SetModel.verdicts accepted ns) := by
  induction ns generalizing w accepted with
  | nil => rfl
  | cons n ns ih =>
    rw [ReplayWindow.verdicts?, ReplayWindow.checkAndMark?_eq, Option.bind_eq_bind]
    show ((w.checkAndMark n).2.verdicts? ns >>= fun rest => pure ((w.checkAndMark n).1 :: rest)) = _
    rw [ih (h.step n), h.verdict n]
    rfl

/-- **The window refines the set model**: on every history of counters, of whatever size, it gives
the set model's verdicts, with every index and shift in range. -/
theorem window_refines_set (ns : List Nat) :
    ReplayWindow.new.verdicts? ns = some (SetModel.verdicts ∅ ns) :=
  verdicts?_eq represents_new ns

-- a jump to the greatest counter of 64 bits
example : ReplayWindow.new.verdicts? [1, 70, 1, 2, 2 ^ 64 - 1, 70, 2 ^ 64 - 1024, 2 ^ 64 - 1] =
    some [.accept, .accept, .duplicate, .accept, .accept, .belowWindow, .accept, .duplicate] := by
  decide +kernel

end SolidServer.Sk
