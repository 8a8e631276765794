import Mathlib.Data.Int.Basic
import Mathlib.Tactic.IntervalCases

/-!
# The Gregorian calendar

The number of a date, counted from 1970-01-01, as the days of the years, of the months and
of the month before it (`dayNumber`).  Dates of the proleptic calendar are ordered by their
numbers, so a number has one date (`dayNumber_injective`).

Computations shift the year to begin in March, which puts the leap day last: `dayNumber_march`
is the number of a date in the shifted year, and `yearOfEra_spec` finds the shifted year of
a day among the 146097 days of an era of 400 years.
-/

namespace SolidServer.Calendar

/-! ## §1 Dates -/

def isLeap (y : Int) : Bool := (y % 4 = 0 ∧ y % 100 ≠ 0) ∨ y % 400 = 0

def monthLength (y : Int) (m : Nat) : Nat :=
  match m with
  | 1 | 3 | 5 | 7 | 8 | 10 | 12 => 31
  | 4 | 6 | 9 | 11 => 30
  | 2 => if isLeap y then 29 else 28
  | _ => 0

theorem monthLength_le (y : Int) (m : Nat) : monthLength y m ≤ 31 := by
  unfold monthLength
  split <;> first | omega | (split_ifs <;> omega)

/-- A date of the calendar. -/
structure IsDate (y : Int) (m d : Nat) : Prop where
  month_pos : 1 ≤ m
  month_le : m ≤ 12
  day_pos : 1 ≤ d
  day_le : d ≤ monthLength y m

/-- The days of the years from 1 up to `y`. -/
def daysBeforeYear (y : Int) : Int := 365 * (y - 1) + (y - 1) / 4 - (y - 1) / 100 + (y - 1) / 400

/-- The days of the months before `m`. -/
def daysBeforeMonth (y : Int) (m : Nat) : Nat :=
  ((List.range (m - 1)).map fun k => monthLength y (k + 1)).sum

/-- The number of a date, from 1970-01-01 on. -/
def dayNumber (y : Int) (m d : Nat) : Int :=
  daysBeforeYear y + daysBeforeMonth y m + d - 1 - daysBeforeYear 1970

/-- A year has 365 days, or 366. -/
theorem daysBeforeYear_succ (y : Int) :
    daysBeforeYear (y + 1) = daysBeforeYear y + if isLeap y then 366 else 365 := by
  unfold daysBeforeYear isLeap
  split_ifs with h
  · simp only [decide_eq_true_eq] at h
    omega
  · simp only [decide_eq_true_eq] at h
    omega

theorem daysBeforeMonth_succ (y : Int) {m : Nat} (h : 1 ≤ m) :
    daysBeforeMonth y (m + 1) = daysBeforeMonth y m + monthLength y m := by
  unfold daysBeforeMonth
  obtain ⟨k, rfl⟩ := Nat.exists_eq_add_of_le' h
  rw [Nat.add_sub_cancel, List.range_succ, List.map_append]
  simp

theorem daysBeforeMonth_thirteen (y : Int) :
    daysBeforeMonth y 13 = if isLeap y then 366 else 365 := by
  unfold daysBeforeMonth monthLength
  cases isLeap y <;> rfl

theorem daysBeforeMonth_mono (y : Int) {m n : Nat} (hm : 1 ≤ m) (h : m ≤ n) :
    daysBeforeMonth y m ≤ daysBeforeMonth y n := by
  induction n, h using Nat.le_induction with
  | base => exact Nat.le_refl _
  | succ n hn ih =>
    rw [daysBeforeMonth_succ y (by omega)]
    omega

theorem daysBeforeYear_mono {y z : Int} (h : y ≤ z) : daysBeforeYear y ≤ daysBeforeYear z := by
  unfold daysBeforeYear
  omega

/-- A date lies within its year. -/
theorem IsDate.within {y : Int} {m d : Nat} (h : IsDate y m d) :
    daysBeforeYear y ≤ dayNumber y m d + daysBeforeYear 1970 ∧
      dayNumber y m d + daysBeforeYear 1970 < daysBeforeYear (y + 1) := by
  have hmonth := daysBeforeMonth_succ y h.month_pos
  have hyear := daysBeforeMonth_mono y (show 1 ≤ m + 1 by omega) (show m + 1 ≤ 13 by
    have := h.month_le
    omega)
  rw [daysBeforeMonth_thirteen] at hyear
  have hd := h.day_pos
  have hlength := h.day_le
  rw [daysBeforeYear_succ]
  unfold dayNumber
  split_ifs at hyear ⊢ <;> omega

/-- **A number has one date.** -/
theorem dayNumber_injective {y y' : Int} {m m' d d' : Nat} (h : IsDate y m d)
    (h' : IsDate y' m' d') (heq : dayNumber y m d = dayNumber y' m' d') :
    y = y' ∧ m = m' ∧ d = d' := by
  have hyear : ∀ {a b : Int}, daysBeforeYear a < daysBeforeYear (b + 1) → a ≤ b := by
    intro a b hab
    by_contra hlt
    have := daysBeforeYear_mono (show b + 1 ≤ a by omega)
    omega
  obtain ⟨hlow, hhigh⟩ := h.within
  obtain ⟨hlow', hhigh'⟩ := h'.within
  have hy : y = y' := by
    have hle : y ≤ y' := hyear (by omega)
    have hge : y' ≤ y := hyear (by omega)
    omega
  subst hy
  have hmonth : ∀ {m m' d d' : Nat}, IsDate y m d → IsDate y m' d' →
      daysBeforeMonth y m + d = daysBeforeMonth y m' + d' → m ≤ m' := by
    intro m m' d d' h h' hsum
    by_contra hlt
    have hmono := daysBeforeMonth_mono y (show 1 ≤ m' + 1 by omega) (show m' + 1 ≤ m by omega)
    rw [daysBeforeMonth_succ y h'.month_pos] at hmono
    have := h'.day_le
    have := h.day_pos
    omega
  have hsum : daysBeforeMonth y m + d = daysBeforeMonth y m' + d' := by
    unfold dayNumber at heq
    omega
  have hm : m = m' := Nat.le_antisymm (hmonth h h' hsum) (hmonth h' h hsum.symm)
  subst hm
  exact ⟨rfl, rfl, by omega⟩

/-! ## §2 Years that begin in March -/

/-- The year that a month belongs to when years begin in March. -/
def marchYear (y : Int) (m : Nat) : Int := if m ≤ 2 then y - 1 else y

/-- The months of such a year, from March as 0. -/
def marchMonth (m : Nat) : Nat := if m ≤ 2 then m + 9 else m - 3

/-- **The number of a date in the shifted year.** -/
theorem dayNumber_march {y : Int} {m : Nat} (d : Nat) (hpos : 1 ≤ m) (hle : m ≤ 12) :
    dayNumber y m d = 365 * marchYear y m + marchYear y m / 4 - marchYear y m / 100 +
      marchYear y m / 400 + ((153 * marchMonth m + 2) / 5 : Nat) + d - 1 - 719468 := by
  have hbase : daysBeforeYear 1970 = 719162 := by decide
  have hleap : isLeap y = true ↔ (y % 4 = 0 ∧ y % 100 ≠ 0) ∨ y % 400 = 0 := decide_eq_true_iff
  unfold dayNumber
  interval_cases m <;>
    simp only [daysBeforeYear, daysBeforeMonth, marchYear, marchMonth, monthLength, List.range_succ,
      List.range_zero, List.map_append, List.map_cons, List.map_nil, List.sum_append, List.sum_cons,
      List.sum_nil, Nat.reduceSub, Nat.reduceLeDiff, if_true, if_false] <;>
    first
      | omega
      | (split_ifs with h <;> rw [hleap] at h <;> omega)

/-! ## §3 The year of a day of an era -/

/-- The days of the shifted years before year `k` of an era. -/
def eraDays (k : Nat) : Nat := 365 * k + k / 4 - k / 100

/-- The last day of year `k` of an era. -/
def eraLast (k : Nat) : Nat := if k = 399 then 146096 else eraDays (k + 1) - 1

/-- The days of an era, less the leap days. -/
def unleaped (doe : Nat) : Nat := doe - doe / 1460 + doe / 36524 - doe / 146096

/-- The year of a day of an era. -/
def yearOfEra (doe : Nat) : Nat := unleaped doe / 365

theorem unleaped_mono {a b : Nat} (h : a ≤ b) (hb : b ≤ 146096) : unleaped a ≤ unleaped b := by
  have hstep : ∀ n < 146096, unleaped n ≤ unleaped (n + 1) := by
    intro n hn
    unfold unleaped
    omega
  induction b, h using Nat.le_induction with
  | base => exact Nat.le_refl _
  | succ n hn ih => exact Nat.le_trans (ih (by omega)) (hstep n (by omega))

/-- The formula gives year `k` at the two ends of year `k`. -/
theorem yearOfEra_ends : ∀ k < 400, yearOfEra (eraDays k) = k ∧ yearOfEra (eraLast k) = k := by
  decide +kernel

theorem eraDays_succ {k : Nat} (h : k < 399) : eraDays (k + 1) = eraLast k + 1 := by
  unfold eraLast
  rw [if_neg (by omega)]
  unfold eraDays
  omega

/-- **The year of a day of an era**: the day lies between the first and the last day of it. -/
theorem yearOfEra_spec {doe : Nat} (h : doe ≤ 146096) :
    yearOfEra doe < 400 ∧ eraDays (yearOfEra doe) ≤ doe ∧ doe ≤ eraLast (yearOfEra doe) := by
  have hmono : ∀ {a b : Nat}, a ≤ b → b ≤ 146096 → yearOfEra a ≤ yearOfEra b := by
    intro a b hab hb
    exact Nat.div_le_div_right (unleaped_mono hab hb)
  have hlt : yearOfEra doe < 400 := by
    have hlast : yearOfEra 146096 = 399 := by decide
    have := hmono h (Nat.le_refl _)
    omega
  have hbound : ∀ k < 400, eraDays k ≤ 146096 ∧ eraLast k ≤ 146096 := by
    intro k hk
    unfold eraLast eraDays
    split_ifs <;> omega
  refine ⟨hlt, ?_, ?_⟩
  · -- a day before the first day of its year would be in an earlier year
    by_contra hearly
    obtain ⟨k, hk⟩ : ∃ k, yearOfEra doe = k + 1 := by
      apply Nat.exists_eq_succ_of_ne_zero
      intro hzero
      rw [hzero] at hearly
      exact hearly (Nat.zero_le _)
    have hbefore : doe ≤ eraLast k := by
      rw [hk, eraDays_succ (by omega)] at hearly
      omega
    have hle := hmono hbefore (hbound k (by omega)).2
    rw [(yearOfEra_ends k (by omega)).2] at hle
    omega
  · by_contra hlate
    have hne : yearOfEra doe ≠ 399 := by
      intro heq
      rw [heq] at hlate
      exact hlate h
    have hafter : eraDays (yearOfEra doe + 1) ≤ doe := by
      rw [eraDays_succ (by omega)]
      omega
    have hle := hmono hafter h
    rw [(yearOfEra_ends (yearOfEra doe + 1) (by omega)).1] at hle
    omega

/-- A year of an era has 365 days, and one more before a leap day. -/
theorem eraLast_eq {k : Nat} (h : k < 400) :
    eraLast k = eraDays k + if isLeap (k + 1) then 365 else 364 := by
  have hleap : isLeap (k + 1) = true ↔
      ((k + 1 : Int) % 4 = 0 ∧ (k + 1 : Int) % 100 ≠ 0) ∨ (k + 1 : Int) % 400 = 0 :=
    decide_eq_true_iff
  unfold eraLast eraDays
  split_ifs with h₁ h₂ h₂ <;> rw [hleap] at h₂ <;> omega

end SolidServer.Calendar
