import Mathlib.Data.Nat.Basic
import SolidServer.Text.Basic

/-!
# The anti-replay window

A session keeps the highest counter it accepted and a bitmap of the 1024 counters up to
it (`pop/sk/window.rs`): bit `i` stands for the counter `high - i`, and advancing the
window shifts the bitmap, sixteen words in place, from the oldest word down.

A window *refuses* a counter when it is below the window or marked.  Refusal is what the
callers rely on: an accepted counter is refused from then on, and no later call takes a
refusal back.
-/

namespace SolidServer.Sk

/-! ## §1 The bitmap -/

def windowBits : Nat := 1024

def words : Nat := windowBits / 64

/-- The words of the bitmap; word 0 holds the most recent counters. -/
abbrev Bitmap := Vector (BitVec 64) words

namespace Bitmap

def empty : Bitmap := Vector.replicate words 0

def word (b : Bitmap) (i : Nat) : BitVec 64 := b[i]?.getD 0

/-- `get_bit`. -/
def bit (b : Bitmap) (i : Nat) : Bool := (b.word (i / 64)).getLsbD (i % 64)

/-- `set_bit`. -/
def setBit (b : Bitmap) (i : Nat) : Bitmap :=
  b.setIfInBounds (i / 64) (b.word (i / 64) ||| BitVec.twoPow 64 (i % 64))

/-- The new word `i` when the bitmap moves by `wordShift` words and `bitShift` bits. -/
def shiftedWord (wordShift bitShift : Nat) (b : Bitmap) (i : Nat) : BitVec 64 :=
  let v := if i ≥ wordShift then b.word (i - wordShift) <<< bitShift else 0
  if bitShift > 0 ∧ i > wordShift then v ||| b.word (i - wordShift - 1) >>> (64 - bitShift) else v

/-- The shift loop over the words `n - 1, …, 0`, in place. -/
def shiftLoop (wordShift bitShift : Nat) : Nat → Bitmap → Bitmap
  | 0, b => b
  | i + 1, b =>
    shiftLoop wordShift bitShift i (b.setIfInBounds i (shiftedWord wordShift bitShift b i))

/-- `shift`: towards older positions. -/
def shift (b : Bitmap) (n : Nat) : Bitmap :=
  if n ≥ windowBits then empty else shiftLoop (n / 64) (n % 64) words b

@[simp] theorem word_empty (i : Nat) : empty.word i = 0 := by
  unfold word empty
  by_cases h : i < words
  · simp [h]
  · simp [Nat.le_of_not_lt h]

@[simp] theorem bit_empty (i : Nat) : empty.bit i = false := by simp [bit]

theorem word_set (b : Bitmap) (j : Nat) (v : BitVec 64) (i : Nat) :
    word (b.setIfInBounds j v) i = if i = j ∧ j < words then v else b.word i := by
  unfold word
  by_cases h : i = j
  · subst h
    by_cases hi : i < words
    · simp [hi]
    · simp [hi]
  · simp [h, Vector.getElem?_setIfInBounds_ne (Ne.symm h)]

theorem bit_setBit (b : Bitmap) {i : Nat} (hi : i < windowBits) (j : Nat) :
    (b.setBit i).bit j = (decide (j = i) || b.bit j) := by
  have hw : i / 64 < words := by unfold words windowBits at *; omega
  unfold bit setBit
  rw [word_set]
  by_cases hword : j / 64 = i / 64
  · rw [if_pos ⟨hword, hw⟩, hword, BitVec.getLsbD_or, BitVec.getLsbD_twoPow, Bool.or_comm]
    congr 1
    -- in one word, the bits differ where the counters do
    have hlt : i % 64 < 64 := Nat.mod_lt i (by decide)
    by_cases hji : j = i
    · subst hji
      simp [hlt]
    · have hmod : ¬ i % 64 = j % 64 := by omega
      simp [hji, hmod]
  · have hji : j ≠ i := by
      rintro rfl
      exact hword rfl
    rw [if_neg (fun h => hword h.1)]
    simp [hji]

/-- The new word `i` is computed from words up to `i`. -/
theorem shiftedWord_congr {ws bs i : Nat} {b c : Bitmap} (h : ∀ k ≤ i, b.word k = c.word k) :
    shiftedWord ws bs b i = shiftedWord ws bs c i := by
  unfold shiftedWord
  rw [h (i - ws) (by omega), h (i - ws - 1) (by omega)]

/-- The loop writes from the top: each word is computed from the old ones. -/
theorem word_shiftLoop (ws bs : Nat) {n : Nat} (hn : n ≤ words) (b : Bitmap) (i : Nat) :
    (shiftLoop ws bs n b).word i = if i < n then shiftedWord ws bs b i else b.word i := by
  induction n generalizing b with
  | zero => rfl
  | succ n ih =>
    rw [shiftLoop, ih (by omega)]
    rcases Nat.lt_trichotomy i n with hlt | rfl | hgt
    · rw [if_pos hlt, if_pos (by omega)]
      -- the word just written is not among those read for `i`
      apply shiftedWord_congr
      intro k hk
      rw [word_set, if_neg (by omega)]
    · rw [if_neg (by omega), if_pos (by omega), word_set, if_pos ⟨rfl, by omega⟩]
    · rw [if_neg (by omega), if_neg (by omega), word_set, if_neg (by omega)]

/-- Bit `k` of a shifted word is bit `k` of the one before it, or of the one before that. -/
theorem getLsbD_shiftedWord (ws bs : Nat) (hbs : bs < 64) (b : Bitmap) (i : Nat) {k : Nat}
    (hk : k < 64) : (shiftedWord ws bs b i).getLsbD k =
      if bs ≤ k then decide (ws ≤ i) && (b.word (i - ws)).getLsbD (k - bs)
      else decide (ws < i) && (b.word (i - ws - 1)).getLsbD (64 - bs + k) := by
  unfold shiftedWord
  by_cases hle : bs ≤ k
  · -- from the same word; the carried bits lie below `bs`
    have hcarry : (b.word (i - ws - 1)).getLsbD (64 - bs + k) = false :=
      BitVec.getLsbD_of_ge _ _ (by omega)
    by_cases hws : ws ≤ i <;> by_cases hboth : bs > 0 ∧ i > ws <;>
      simp [hle, hws, hboth, hk, hcarry, Nat.not_lt.mpr hle, -BitVec.getLsbD_eq_getElem]
  · have hlow : k < bs := by omega
    by_cases hgt : ws < i
    · simp [hle, hgt, hk, hlow, Nat.le_of_lt hgt, Nat.lt_of_le_of_lt (Nat.zero_le k) hlow]
    · by_cases hws : ws ≤ i <;> simp [hle, hgt, hws, hlow, hk]

/-- **The shift moves every bit**: position `k` holds what position `k - n` held. -/
theorem bit_shift (b : Bitmap) (n : Nat) {k : Nat} (hk : k < windowBits) :
    (b.shift n).bit k = (decide (n ≤ k) && b.bit (k - n)) := by
  unfold shift
  split_ifs with hn
  · have : ¬ n ≤ k := by omega
    simp [this]
  · have hword : k / 64 < words := by unfold words windowBits at *; omega
    have hk64 : k % 64 < 64 := Nat.mod_lt k (by decide)
    unfold bit
    rw [word_shiftLoop _ _ (Nat.le_refl words), if_pos hword,
      getLsbD_shiftedWord _ _ (Nat.mod_lt n (by decide)) _ _ hk64]
    split_ifs with hbs
    · have hdiv : (k - n) / 64 = k / 64 - n / 64 := by omega
      have hmod : n ≤ k → (k - n) % 64 = k % 64 - n % 64 := by omega
      have hiff : n / 64 ≤ k / 64 ↔ n ≤ k := by omega
      by_cases hnk : n ≤ k
      · simp [hiff, hnk, hdiv, hmod hnk]
      · simp [hiff, hnk]
    · have hiff : n / 64 < k / 64 ↔ n ≤ k := by omega
      by_cases hnk : n ≤ k
      · have hdiv : (k - n) / 64 = k / 64 - n / 64 - 1 := by omega
        have hmod : (k - n) % 64 = 64 - n % 64 + k % 64 := by omega
        simp [hiff, hnk, hdiv, hmod]
      · simp [hiff, hnk]

end Bitmap

/-! ## §2 The window -/

/-- `WindowVerdict`. -/
inductive WindowVerdict where
  | accept
  | duplicate
  | belowWindow
  deriving DecidableEq, Repr

/-- `ReplayWindow`: the highest accepted counter, 0 for none, and the bitmap up to it. -/
structure ReplayWindow where
  high : Nat
  bitmap : Bitmap
  deriving DecidableEq

namespace ReplayWindow

def new : ReplayWindow := ⟨0, Bitmap.empty⟩

/-- `check_and_mark`. -/
def checkAndMark (w : ReplayWindow) (n : Nat) : WindowVerdict × ReplayWindow :=
  if n > w.high then (.accept, ⟨n, (w.bitmap.shift (n - w.high)).setBit 0⟩)
  else
    -- the bit of `n` is its distance from the highest counter
    if w.high - n ≥ windowBits then (.belowWindow, w)
    else if w.bitmap.bit (w.high - n) then (.duplicate, w)
    else (.accept, ⟨w.high, w.bitmap.setBit (w.high - n)⟩)

/-- The counter is below the window or marked. -/
def Refuses (w : ReplayWindow) (n : Nat) : Prop :=
  n ≤ w.high ∧ (windowBits ≤ w.high - n ∨ w.bitmap.bit (w.high - n) = true)

instance (w : ReplayWindow) (n : Nat) : Decidable (w.Refuses n) := by
  unfold Refuses
  infer_instance

/-- **The verdict**: exactly the refused counters are rejected. -/
theorem accept_iff {w : ReplayWindow} {n : Nat} :
    (w.checkAndMark n).1 = .accept ↔ ¬ w.Refuses n := by
  unfold checkAndMark Refuses
  split_ifs with hgt hbelow hbit
  · simp [Nat.not_le.mpr hgt]
  · simp [Nat.le_of_not_lt hgt, hbelow]
  · simp [Nat.le_of_not_lt hgt, hbit]
  · simp [Nat.le_of_not_lt hgt, hbelow, hbit]

/-- **Refusals last**: no call takes one back. -/
theorem Refuses.checkAndMark {w : ReplayWindow} {n : Nat} (h : w.Refuses n) (m : Nat) :
    (w.checkAndMark m).2.Refuses n := by
  obtain ⟨hle, hold⟩ := h
  unfold ReplayWindow.checkAndMark
  split_ifs with hgt hbelow hbit
  · -- the window advances: `n` is out of it, or its bit moved along
    refine ⟨Nat.le_trans hle (Nat.le_of_lt hgt), ?_⟩
    by_cases hout : windowBits ≤ m - n
    · exact .inl hout
    · have hbit := hold.resolve_left (by omega)
      have hpos : m - n - (m - w.high) = w.high - n := by omega
      have hadv : m - w.high ≤ m - n := by omega
      right
      show ((w.bitmap.shift (m - w.high)).setBit 0).bit (m - n) = true
      rw [Bitmap.bit_setBit _ (by decide), Bitmap.bit_shift _ _ (by omega), hpos, hbit]
      simp [hadv]
  · exact ⟨hle, hold⟩
  · exact ⟨hle, hold⟩
  · refine ⟨hle, hold.imp_right fun hset => ?_⟩
    rw [Bitmap.bit_setBit _ (by omega), hset, Bool.or_true]

/-- **An accepted counter is refused from then on.** -/
theorem refuses_of_accept {w : ReplayWindow} {n : Nat} (h : (w.checkAndMark n).1 = .accept) :
    (w.checkAndMark n).2.Refuses n := by
  unfold checkAndMark at h ⊢
  split_ifs at h ⊢ with hgt hbelow hbit
  · refine ⟨Nat.le_refl n, .inr ?_⟩
    rw [Bitmap.bit_setBit _ (by decide)]
    simp
  · refine ⟨Nat.le_of_not_lt hgt, .inr ?_⟩
    rw [Bitmap.bit_setBit _ (by omega)]
    simp

-- 5 is fresh out of order, then a replay; 1 has left the window after 1025
example : ((((new.checkAndMark 7).2.checkAndMark 5).2.checkAndMark 5).1,
    ((new.checkAndMark 1).2.checkAndMark 1025).2.checkAndMark 1 |>.1) =
    (.duplicate, .belowWindow) := by decide

end ReplayWindow

end SolidServer.Sk
