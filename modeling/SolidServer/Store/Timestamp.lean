import SolidServer.Ldp.Conditional
import SolidServer.Text.Number
import SolidServer.Calendar
import Mathlib.Data.Rat.Floor

/-!
# Timestamps of the index

The `xsd:dateTime` form of a modification time (`store/timestamp.rs`), with the module's own
copies of the calendar functions.  What is written is read back to the second
(`fromXsdDatetime_toXsdDatetime`); any form with a fraction and an offset is read as the
instant it denotes, cut to whole seconds (`fromXsdDatetime_form`).
-/

namespace SolidServer.Store

open SolidServer.Calendar

/-! ## §1 Writing and reading -/

/-- `digits`: exactly `n` ASCII digits from position `at_` on. -/
def digits (v : Text) (at_ n : Nat) : Option Nat :=
  if v.length < at_ + n then none
  else
    let ds := (v.drop at_).take n
    if ds.all Text.isAsciiDigit then some (Text.digitsValue ds) else none

def daysInMonth (year : Int) (month : Nat) : Nat :=
  match month with
  | 1 | 3 | 5 | 7 | 8 | 10 | 12 => 31
  | 4 | 6 | 9 | 11 => 30
  | 2 => if (year % 4 = 0 ∧ year % 100 ≠ 0) ∨ year % 400 = 0 then 29 else 28
  | _ => 0

/-- `days_from_civil`, the copy of the storage layer. -/
def daysFromCivil (y : Int) (m d : Nat) : Int :=
  let y := if m ≤ 2 then y - 1 else y
  let era := (if 0 ≤ y then y else y - 399).tdiv 400
  let yoe := y - era * 400
  let m : Int := m
  let doy := (153 * (if m > 2 then m - 3 else m + 9) + 2) / 5 + d - 1
  let doe := yoe * 365 + yoe / 4 - yoe / 100 + doy
  era * 146097 + doe - 719468

/-- `to_xsd_datetime`: none before the epoch. -/
def toXsdDatetime (t : SystemTime) : Option Text :=
  (SystemTime.unixSecs? t).map fun secs =>
    let days := secs / 86400
    let tod := secs % 86400
    let (y, m, d) := Ldp.civilFromDays days
    let pad := fun (w : Nat) (n : Int) => Text.zeroPad w (Text.decimal n.toNat)
    pad 4 y ++ "-".toList ++ pad 2 m ++ "-".toList ++ pad 2 d ++ "T".toList ++
      pad 2 (tod / 3600) ++ ":".toList ++ pad 2 (tod % 3600 / 60) ++ ":".toList ++
      pad 2 (tod % 60) ++ "Z".toList

/-- `parse_timezone`: seconds east of UTC. -/
def parseTimezone (tz : Text) : Option Int :=
  if tz = [] ∨ tz = "Z".toList then some 0
  else if tz.length ≠ 6 ∨ tz[3]? ≠ some ':' then none
  else do
    let sign : Int ←
      match tz[0]? with
      | some '+' => some 1
      | some '-' => some (-1)
      | _ => none
    let oh ← digits tz 1 2
    let om ← digits tz 4 2
    if 59 < om ∨ 14 * 60 < oh * 60 + om then none
    else some (sign * (oh * 3600 + om * 60))

/-- What follows the fraction of a second; a dot needs a digit after it. -/
def afterFraction (rest : Text) : Option Text :=
  match Text.stripPrefix? rest ['.'] with
  | some afterDot =>
    if afterDot.takeWhile Text.isAsciiDigit = [] then none
    else some (afterDot.dropWhile Text.isAsciiDigit)
  | none => some rest

/-- `from_xsd_datetime`. -/
def fromXsdDatetime (lexical : Text) : Option SystemTime := do
  let v := Text.trim lexical
  if !v.all (fun c => c.toNat < 128) ∨ v.length < 19 ∨ v[4]? ≠ some '-' ∨ v[7]? ≠ some '-' ∨
      v[10]? ≠ some 'T' ∨ v[13]? ≠ some ':' ∨ v[16]? ≠ some ':' then none
  else do
    let year ← digits v 0 4
    let month ← digits v 5 2
    let day ← digits v 8 2
    let hh ← digits v 11 2
    let mm ← digits v 14 2
    let ss ← digits v 17 2
    if month = 0 ∨ 12 < month ∨ day = 0 ∨ daysInMonth year month < day then none
    else if 23 < hh ∨ 59 < mm ∨ 59 < ss then none
    else do
      let rest ← afterFraction (v.drop 19)
      let offset ← parseTimezone rest
      let secs := daysFromCivil year month day * 86400 + hh * 3600 + mm * 60 + ss - offset
      if secs < 0 then none else some (secs * 1000000000)

example : toXsdDatetime (1783254896 * 1000000000) = some "2026-07-05T12:34:56Z".toList := by
  decide

example : fromXsdDatetime "2026-07-05T14:34:56.75+02:00".toList =
    some (1783254896 * 1000000000) := by decide

/-! ## §2 The calendar -/

theorem daysInMonth_eq (y : Int) (m : Nat) : daysInMonth y m = monthLength y m := by
  unfold daysInMonth monthLength isLeap
  split <;> simp

/-- The era of a year, rounded down. -/
theorem era_eq (y : Int) : (if 0 ≤ y then y else y - 399).tdiv 400 = y / 400 := by
  split_ifs with h
  · exact Int.tdiv_eq_ediv_of_nonneg h
  · rw [Int.tdiv_eq_ediv, show Int.sign 400 = 1 from rfl]
    omega

/-- **Days from a civil date** are the number of the date. -/
theorem daysFromCivil_eq {y : Int} {m : Nat} (d : Nat) (hpos : 1 ≤ m) (hle : m ≤ 12) :
    daysFromCivil y m d = dayNumber y m d := by
  rw [dayNumber_march d hpos hle]
  unfold daysFromCivil marchYear marchMonth
  simp only [era_eq]
  split_ifs <;> omega

/-- The two copies agree. -/
theorem daysFromCivil_copy (y : Int) (m d : Nat) : daysFromCivil y m d = Ldp.daysFromCivil y m d :=
  rfl

theorem dayEra_eq (z : Int) : (if 0 ≤ z then z else z - 146096).tdiv 146097 = z / 146097 := by
  split_ifs with h
  · exact Int.tdiv_eq_ediv_of_nonneg h
  · rw [Int.tdiv_eq_ediv, show Int.sign 146097 = 1 from rfl]
    omega

/-- The day of a shifted year, as month and day. -/
theorem monthOfYear {doy : Nat} (h : doy ≤ 365) :
    (5 * doy + 2) / 153 ≤ 11 ∧ (153 * ((5 * doy + 2) / 153) + 2) / 5 ≤ doy ∧
      doy < (153 * ((5 * doy + 2) / 153 + 1) + 2) / 5 := by
  omega

/-- **The date of a number of days** is a date, and its number is that one. -/
theorem civilFromDays_spec (z : Int) : ∃ (y : Int) (m d : Nat),
    Ldp.civilFromDays z = (y, (m : Int), (d : Int)) ∧ IsDate y m d ∧ dayNumber y m d = z := by
  obtain ⟨doe, hdoe⟩ : ∃ doe : Nat, z + 719468 = (z + 719468) / 146097 * 146097 + doe := by
    refine ⟨((z + 719468) % 146097).toNat, ?_⟩
    omega
  have hlast : doe ≤ 146096 := by omega
  obtain ⟨hyoe, hfirst, hle⟩ := yearOfEra_spec hlast
  rw [eraLast_eq hyoe] at hle
  set era := (z + 719468) / 146097 with hera
  set yoe := yearOfEra doe with hyoedef
  obtain ⟨doy, hdoy⟩ : ∃ doy, doe = eraDays yoe + doy := Nat.exists_eq_add_of_le hfirst
  have hdoyle : doy ≤ 365 := by
    split_ifs at hle <;> omega
  obtain ⟨hmp, hbefore, hafter⟩ := monthOfYear hdoyle
  set mp := (5 * doy + 2) / 153 with hmpdef
  set m := if mp < 10 then mp + 3 else mp - 9 with hm
  set d := doy - (153 * mp + 2) / 5 + 1 with hd
  have hcivil : Ldp.civilFromDays z =
      (if m ≤ 2 then (yoe : Int) + era * 400 + 1 else yoe + era * 400, (m : Int), (d : Int)) := by
    have hdoeInt : z + 719468 - era * 146097 = doe := by omega
    have hyoeInt : ((doe : Int) - doe / 1460 + doe / 36524 - doe / 146096) / 365 = yoe := by
      rw [hyoedef]
      unfold yearOfEra unleaped
      omega
    have hdoyInt : (doe : Int) - (365 * yoe + yoe / 4 - yoe / 100) = doy := by
      unfold eraDays at hdoy
      omega
    have hmpInt : (5 * (doy : Int) + 2) / 153 = mp := by omega
    have hdInt : (doy : Int) - (153 * mp + 2) / 5 + 1 = d := by omega
    have hmInt : (if (mp : Int) < 10 then (mp : Int) + 3 else mp - 9) = m := by
      rw [hm]
      split_ifs <;> omega
    unfold Ldp.civilFromDays
    simp only [dayEra_eq, ← hera, hdoeInt, hyoeInt, hdoyInt, hmpInt, hdInt, hmInt]
    congr 1
    split_ifs <;> omega
  have hpos : 1 ≤ m := by
    rw [hm]
    split_ifs <;> omega
  have hmle : m ≤ 12 := by
    rw [hm]
    split_ifs <;> omega
  refine ⟨_, m, d, hcivil, ⟨hpos, hmle, by omega, ?_⟩, ?_⟩
  · -- only the last month of the shifted year depends on the year
    have hleap : isLeap ((yoe : Int) + era * 400 + 1) = isLeap (yoe + 1) := by
      unfold isLeap
      congr 1
      apply propext
      constructor <;> intro h <;> omega
    have hfeb : doy = 365 → isLeap (yoe + 1) = true := by
      intro hdoy365
      by_contra hnot
      rw [if_neg hnot] at hle
      omega
    clear_value mp yoe era
    interval_cases mp <;> simp only [hm] at hafter ⊢ <;> norm_num [monthLength] at hafter ⊢ <;>
      first
        | omega
        | (split_ifs with hl
           · omega
           · rw [hleap] at hl
             have : doy ≠ 365 := fun h => hl (hfeb h)
             omega)
  · have hmarch : marchMonth m = mp ∧
        marchYear (if m ≤ 2 then (yoe : Int) + era * 400 + 1 else yoe + era * 400) m =
          yoe + era * 400 := by
      unfold marchMonth marchYear
      rw [hm]
      split_ifs <;> constructor <;> omega
    have hquarters : ((yoe : Int) + era * 400) / 4 = yoe / 4 + era * 100 := by omega
    have heras : ((yoe : Int) + era * 400) / 400 = era := by omega
    rw [dayNumber_march d hpos hmle, hmarch.1, hmarch.2]
    unfold eraDays at hdoy
    omega

/-- **The date of the number of a date** is that date. -/
theorem civilFromDays_dayNumber {y : Int} {m d : Nat} (h : IsDate y m d) :
    Ldp.civilFromDays (dayNumber y m d) = (y, (m : Int), (d : Int)) := by
  obtain ⟨y', m', d', hcivil, hdate, hnumber⟩ := civilFromDays_spec (dayNumber y m d)
  obtain ⟨rfl, rfl, rfl⟩ := dayNumber_injective hdate h hnumber
  exact hcivil

/-! ## §3 Forms -/

/-- Date and time of day, in fixed width. -/
def dateTimeText (year month day hour minute second : Nat) : Text :=
  Text.zeroPad 4 (Text.decimal year) ++ "-".toList ++ Text.zeroPad 2 (Text.decimal month) ++
    "-".toList ++ Text.zeroPad 2 (Text.decimal day) ++ "T".toList ++
    Text.zeroPad 2 (Text.decimal hour) ++ ":".toList ++ Text.zeroPad 2 (Text.decimal minute) ++
    ":".toList ++ Text.zeroPad 2 (Text.decimal second)

/-- The time zone of a form. -/
inductive Zone where
  | unstated
  | utc
  | offset (east : Bool) (hours minutes : Nat)

namespace Zone

def text : Zone → Text
  | .unstated => []
  | .utc => "Z".toList
  | .offset east hours minutes => (if east then '+' else '-') ::
      Text.zeroPad 2 (Text.decimal hours) ++ ":".toList ++ Text.zeroPad 2 (Text.decimal minutes)

/-- Seconds east of UTC. -/
def seconds : Zone → Int
  | .unstated => 0
  | .utc => 0
  | .offset east hours minutes => (if east then 1 else -1) * (hours * 3600 + minutes * 60)

/-- Offsets go up to fourteen hours. -/
def Valid : Zone → Prop
  | .offset _ hours minutes => minutes ≤ 59 ∧ hours * 60 + minutes ≤ 840
  | _ => True

end Zone

/-- A form of `xsd:dateTime` with a year of four digits. -/
structure XsdForm where
  year : Nat
  month : Nat
  day : Nat
  hour : Nat
  minute : Nat
  second : Nat
  fraction : Option Text
  zone : Zone
  year_le : year ≤ 9999
  isDate : IsDate year month day
  hour_le : hour ≤ 23
  minute_le : minute ≤ 59
  second_le : second ≤ 59
  fraction_digits : ∀ f ∈ fraction, f ≠ [] ∧ f.all Text.isAsciiDigit = true
  zone_valid : zone.Valid

namespace XsdForm

variable (f : XsdForm)

def text : Text :=
  dateTimeText f.year f.month f.day f.hour f.minute f.second ++
    (f.fraction.map ('.' :: ·)).getD [] ++ f.zone.text

/-- The whole seconds of the form, from the epoch. -/
def wholeSeconds : Int :=
  dayNumber f.year f.month f.day * 86400 + f.hour * 3600 + f.minute * 60 + f.second -
    f.zone.seconds

/-- **The instant the form denotes**, in seconds from the epoch. -/
def instant : ℚ :=
  f.wholeSeconds + (f.fraction.map fun ds => (Text.digitsValue ds : ℚ) / 10 ^ ds.length).getD 0

end XsdForm

/-- A character of a form. -/
def isFormChar (c : Char) : Bool := 33 ≤ c.toNat && c.toNat < 127

theorem isFormChar_of_isAsciiDigit {c : Char} (h : Text.isAsciiDigit c = true) :
    isFormChar c = true := by
  have := Text.toNat_of_isAsciiDigit h
  simp only [isFormChar, Bool.and_eq_true, decide_eq_true_eq]
  omega

theorem not_isWhitespace_of_isFormChar {c : Char} (h : isFormChar c = true) :
    Text.isWhitespace c = false := by
  simp only [isFormChar, Bool.and_eq_true, decide_eq_true_eq] at h
  simp only [Text.isWhitespace, Bool.or_eq_false_iff, Bool.and_eq_false_iff,
    decide_eq_false_iff_not, beq_eq_false_iff_ne]
  omega

theorem tight_of_isFormChar {t : Text} (h : t.all isFormChar = true) : Text.Tight t := by
  have hall := List.all_eq_true.mp h
  constructor
  · intro c hc
    exact not_isWhitespace_of_isFormChar (hall c (List.mem_of_head? hc))
  · intro c hc
    exact not_isWhitespace_of_isFormChar (hall c (List.mem_of_getLast? hc))

section
variable {year month day hour minute second : Nat}

theorem isFormChar_zeroPad {w n : Nat} (hw : 1 ≤ w) (hn : n < 10 ^ w) :
    (Text.zeroPad w (Text.decimal n)).all isFormChar = true := by
  obtain ⟨-, hall, -⟩ := Text.digitsValue_zeroPad hw hn
  apply List.all_eq_true.mpr
  intro c hc
  exact isFormChar_of_isAsciiDigit (List.all_eq_true.mp hall c hc)

variable (hyear : year < 10000) (hmonth : month < 100) (hday : day < 100) (hhour : hour < 100)
  (hminute : minute < 100) (hsecond : second < 100)
include hyear hmonth hday hhour hminute hsecond

theorem isFormChar_dateTimeText :
    (dateTimeText year month day hour minute second).all isFormChar = true := by
  unfold dateTimeText
  simp only [List.all_append, isFormChar_zeroPad (show 1 ≤ 4 by omega) (show year < 10 ^ 4 by omega),
    isFormChar_zeroPad (show 1 ≤ 2 by omega) (show month < 10 ^ 2 by omega),
    isFormChar_zeroPad (show 1 ≤ 2 by omega) (show day < 10 ^ 2 by omega),
    isFormChar_zeroPad (show 1 ≤ 2 by omega) (show hour < 10 ^ 2 by omega),
    isFormChar_zeroPad (show 1 ≤ 2 by omega) (show minute < 10 ^ 2 by omega),
    isFormChar_zeroPad (show 1 ≤ 2 by omega) (show second < 10 ^ 2 by omega)]
  decide

/-- **The fixed part of a form is read field by field.** -/
theorem fromXsdDatetime_fields {rest : Text} (hrest : rest.all isFormChar = true) :
    fromXsdDatetime (dateTimeText year month day hour minute second ++ rest) =
      if month = 0 ∨ 12 < month ∨ day = 0 ∨ daysInMonth year month < day then none
      else if 23 < hour ∨ 59 < minute ∨ 59 < second then none
      else (afterFraction rest).bind fun zone => (parseTimezone zone).bind fun offset =>
        if daysFromCivil year month day * 86400 + hour * 3600 + minute * 60 + second - offset < 0
        then none
        else some ((daysFromCivil year month day * 86400 + hour * 3600 + minute * 60 + second -
          offset) * 1000000000) := by
  have hall : (dateTimeText year month day hour minute second ++ rest).all isFormChar = true := by
    rw [List.all_append, hrest,
      isFormChar_dateTimeText hyear hmonth hday hhour hminute hsecond]
    rfl
  have hascii : (dateTimeText year month day hour minute second ++ rest).all
      (fun c => decide (c.toNat < 128)) = true := by
    apply List.all_eq_true.mpr
    intro c hc
    have := List.all_eq_true.mp hall c hc
    simp only [isFormChar, Bool.and_eq_true, decide_eq_true_eq] at this
    exact decide_eq_true (by omega)
  obtain ⟨y₁, y₂, y₃, y₄, hy, hyd, hyv⟩ := Text.zeroPad_four hyear
  obtain ⟨m₁, m₂, hm, hm₁, hm₂, hmv⟩ := Text.zeroPad_two hmonth
  obtain ⟨d₁, d₂, hd, hd₁, hd₂, hdv⟩ := Text.zeroPad_two hday
  obtain ⟨h₁, h₂, hh, hh₁, hh₂, hhv⟩ := Text.zeroPad_two hhour
  obtain ⟨n₁, n₂, hn, hn₁, hn₂, hnv⟩ := Text.zeroPad_two hminute
  obtain ⟨s₁, s₂, hs, hs₁, hs₂, hsv⟩ := Text.zeroPad_two hsecond
  have htext : dateTimeText year month day hour minute second ++ rest =
      y₁ :: y₂ :: y₃ :: y₄ :: '-' :: m₁ :: m₂ :: '-' :: d₁ :: d₂ :: 'T' :: h₁ :: h₂ :: ':' ::
        n₁ :: n₂ :: ':' :: s₁ :: s₂ :: rest := by
    unfold dateTimeText
    rw [hy, hm, hd, hh, hn, hs]
    rfl
  have hcut : ∀ (ds : Text) (at_ v : Nat), ds.all Text.isAsciiDigit = true →
      Text.digitsValue ds = v → ∀ t : Text, at_ + ds.length ≤ t.length →
        (t.drop at_).take ds.length = ds → digits t at_ ds.length = some v := by
    intro ds at_ v hds hv t ht htake
    unfold digits
    rw [if_neg (by omega), htake]
    simp only [hds, if_true, hv]
  unfold fromXsdDatetime
  simp only [(tight_of_isFormChar hall).trim, hascii]
  rw [htext]
  set v := y₁ :: y₂ :: y₃ :: y₄ :: '-' :: m₁ :: m₂ :: '-' :: d₁ :: d₂ :: 'T' :: h₁ :: h₂ :: ':' ::
    n₁ :: n₂ :: ':' :: s₁ :: s₂ :: rest with hv
  have hlength : v.length = rest.length + 19 := rfl
  have hyears : digits v 0 4 = some year :=
    hcut [y₁, y₂, y₃, y₄] 0 year (by simp [hyd]) hyv v (by simp; omega) rfl
  have hmonths : digits v 5 2 = some month :=
    hcut [m₁, m₂] 5 month (by simp [hm₁, hm₂]) hmv v (by simp; omega) rfl
  have hdays : digits v 8 2 = some day :=
    hcut [d₁, d₂] 8 day (by simp [hd₁, hd₂]) hdv v (by simp; omega) rfl
  have hhours : digits v 11 2 = some hour :=
    hcut [h₁, h₂] 11 hour (by simp [hh₁, hh₂]) hhv v (by simp; omega) rfl
  have hminutes : digits v 14 2 = some minute :=
    hcut [n₁, n₂] 14 minute (by simp [hn₁, hn₂]) hnv v (by simp; omega) rfl
  have hseconds : digits v 17 2 = some second :=
    hcut [s₁, s₂] 17 second (by simp [hs₁, hs₂]) hsv v (by simp; omega) rfl
  have hguard : ¬ ((!true) = true ∨ v.length < 19 ∨ v[4]? ≠ some '-' ∨ v[7]? ≠ some '-' ∨
      v[10]? ≠ some 'T' ∨ v[13]? ≠ some ':' ∨ v[16]? ≠ some ':') := by
    simp [hv]
  have hdrop : v.drop 19 = rest := rfl
  rw [if_neg hguard]
  simp only [hyears, hmonths, hdays, hhours, hminutes, hseconds, hdrop, Option.bind_eq_bind,
    Option.bind_some]

end

theorem Zone.Valid.isFormChar_text {z : Zone} (h : z.Valid) : z.text.all isFormChar = true := by
  cases z with
  | unstated => rfl
  | utc => decide
  | offset east hours minutes =>
    obtain ⟨hminutes, htotal⟩ := h
    unfold Zone.text
    simp only [List.all_cons, List.all_append,
      isFormChar_zeroPad (show 1 ≤ 2 by omega) (show hours < 10 ^ 2 by omega),
      isFormChar_zeroPad (show 1 ≤ 2 by omega) (show minutes < 10 ^ 2 by omega)]
    cases east <;> decide

/-- The zone begins with no digit and no dot. -/
theorem Zone.head_text (z : Zone) :
    ∀ c ∈ z.text.head?, Text.isAsciiDigit c = false ∧ c ≠ '.' := by
  intro c hc
  cases z with
  | unstated => cases hc
  | utc =>
    obtain rfl := Option.some.inj hc
    decide
  | offset east hours minutes =>
    obtain rfl := Option.some.inj hc
    cases east <;> decide

theorem afterFraction_form {fraction : Option Text}
    (h : ∀ f ∈ fraction, f ≠ [] ∧ f.all Text.isAsciiDigit = true) (z : Zone) :
    afterFraction ((fraction.map ('.' :: ·)).getD [] ++ z.text) = some z.text := by
  cases fraction with
  | none =>
    have hstrip : Text.stripPrefix? z.text ['.'] = none := by
      apply Text.stripPrefix?_eq_none
      intro rest hrest
      have hhead := z.head_text '.' (by rw [hrest]; rfl)
      exact hhead.2 rfl
    simp only [Option.map_none, Option.getD_none, List.nil_append, afterFraction, hstrip]
  | some f =>
    obtain ⟨hne, hall⟩ := h f rfl
    have hdigits : ∀ c ∈ f, Text.isAsciiDigit c = true := List.all_eq_true.mp hall
    have hstrip : Text.stripPrefix? ('.' :: f ++ z.text) ['.'] = some (f ++ z.text) :=
      Text.stripPrefix?_eq_some.mpr rfl
    have hzone : z.text.takeWhile Text.isAsciiDigit = [] ∧
        z.text.dropWhile Text.isAsciiDigit = z.text := by
      cases hz : z.text with
      | nil => exact ⟨rfl, rfl⟩
      | cons c rest =>
        have hc := (z.head_text c (by rw [hz]; rfl)).1
        simp [hc]
    have htake : (f ++ z.text).takeWhile Text.isAsciiDigit = f := by
      rw [List.takeWhile_append_of_pos hdigits, hzone.1, List.append_nil]
    have hdrop : (f ++ z.text).dropWhile Text.isAsciiDigit = z.text := by
      rw [List.dropWhile_append_of_pos hdigits, hzone.2]
    simp only [Option.map_some, Option.getD_some, afterFraction, hstrip, htake, hdrop, if_neg hne]

theorem parseTimezone_text {z : Zone} (h : z.Valid) : parseTimezone z.text = some z.seconds := by
  cases z with
  | unstated => rfl
  | utc => rfl
  | offset east hours minutes =>
    obtain ⟨hminutes, htotal⟩ := h
    obtain ⟨a, b, hhours, ha, hb, hhv⟩ := Text.zeroPad_two (show hours < 100 by omega)
    obtain ⟨c, d, hmins, hc, hd, hmv⟩ := Text.zeroPad_two (show minutes < 100 by omega)
    have hoh : ∀ x, digits [x, a, b, ':', c, d] 1 2 = some hours := by
      intro x
      simp [digits, ha, hb, hhv]
    have hom : ∀ x, digits [x, a, b, ':', c, d] 4 2 = some minutes := by
      intro x
      simp [digits, hc, hd, hmv]
    have hrange : ¬ (59 < minutes ∨ 14 * 60 < hours * 60 + minutes) := by omega
    cases east with
    | true =>
      have htext : (Zone.offset true hours minutes).text = ['+', a, b, ':', c, d] := by
        simp [Zone.text, hhours, hmins]
      unfold parseTimezone
      rw [htext]
      simp [hoh, hom, if_neg hrange, Zone.seconds]
    | false =>
      have htext : (Zone.offset false hours minutes).text = ['-', a, b, ':', c, d] := by
        simp [Zone.text, hhours, hmins]
      unfold parseTimezone
      rw [htext]
      simp [hoh, hom, if_neg hrange, Zone.seconds]

theorem digitsValue_lt {t : Text} (h : t.all Text.isAsciiDigit = true) :
    Text.digitsValue t < 10 ^ t.length := by
  induction t using List.reverseRecOn with
  | nil => decide
  | append_singleton t c ih =>
    rw [List.all_append, Bool.and_eq_true] at h
    have hc := Text.toNat_of_isAsciiDigit (show Text.isAsciiDigit c = true by simpa using h.2)
    have hzero : '0'.toNat = 48 := rfl
    have hlt := ih h.1
    rw [Text.digitsValue_concat, List.length_append, List.length_singleton]
    omega

theorem XsdForm.floor_instant (f : XsdForm) : ⌊f.instant⌋ = f.wholeSeconds := by
  unfold instant
  rw [Int.floor_intCast_add]
  have hzero : ⌊(f.fraction.map fun ds => (Text.digitsValue ds : ℚ) / 10 ^ ds.length).getD 0⌋ = 0 := by
    cases hf : f.fraction with
    | none => simp
    | some ds =>
      have hlt := digitsValue_lt (f.fraction_digits ds hf).2
      simp only [Option.map_some, Option.getD_some]
      apply Int.floor_eq_zero_iff.mpr
      refine ⟨by positivity, ?_⟩
      rw [div_lt_one (by positivity)]
      exact_mod_cast hlt
  rw [hzero, add_zero]

/-- **A form is read as the instant it denotes**, cut to whole seconds; nothing before the epoch
is read. -/
theorem fromXsdDatetime_form (f : XsdForm) :
    fromXsdDatetime f.text =
      if 0 ≤ f.instant then some (⌊f.instant⌋ * 1000000000) else none := by
  have hdate := f.isDate
  have hlength := monthLength_le f.year f.month
  have hday := hdate.day_le
  have hrest : ((f.fraction.map ('.' :: ·)).getD [] ++ f.zone.text).all isFormChar = true := by
    rw [List.all_append, f.zone_valid.isFormChar_text, Bool.and_true]
    cases hf : f.fraction with
    | none => rfl
    | some ds =>
      have hall := List.all_eq_true.mp (f.fraction_digits ds hf).2
      simp only [Option.map_some, Option.getD_some, List.all_cons]
      rw [Bool.and_eq_true]
      refine ⟨by decide, List.all_eq_true.mpr ?_⟩
      intro c hc
      exact isFormChar_of_isAsciiDigit (hall c hc)
  have hsecs : daysFromCivil f.year f.month f.day * 86400 + f.hour * 3600 + f.minute * 60 +
      f.second - f.zone.seconds = ⌊f.instant⌋ := by
    rw [f.floor_instant, daysFromCivil_eq f.day hdate.month_pos hdate.month_le]
    rfl
  have hyear := f.year_le
  have hmonth := hdate.month_le
  have hhour := f.hour_le
  have hminute := f.minute_le
  have hsecond := f.second_le
  have hmonthpos := hdate.month_pos
  have hdaypos := hdate.day_pos
  unfold XsdForm.text
  rw [List.append_assoc, fromXsdDatetime_fields (by omega) (by omega) (by omega) (by omega)
    (by omega) (by omega) hrest, if_neg (by rw [daysInMonth_eq]; omega), if_neg (by omega),
    afterFraction_form f.fraction_digits, Option.bind_some, parseTimezone_text f.zone_valid,
    Option.bind_some, hsecs]
  by_cases hneg : 0 ≤ f.instant
  · rw [if_pos hneg, if_neg (not_lt.mpr (Int.floor_nonneg.mpr hneg))]
  · rw [if_neg hneg, if_pos (lt_of_not_ge fun h => hneg (Int.floor_nonneg.mp h))]

/-! ## §4 Round trip -/

/-- The first second after year 9999, from the epoch. -/
def endOfYears : Int := 253402300800

/-- The civil date and time of a second between the epoch and the end of year 9999. -/
theorem civil_of_secs {secs : Int} (hpos : 0 ≤ secs) (hend : secs < endOfYears) :
    ∃ y m d : Nat, Ldp.civilFromDays (secs / 86400) = ((y : Int), (m : Int), (d : Int)) ∧
      IsDate y m d ∧ y ≤ 9999 ∧ dayNumber y m d = secs / 86400 := by
  obtain ⟨y, m, d, hcivil, hdate, hnumber⟩ := civilFromDays_spec (secs / 86400)
  obtain ⟨hlow, hhigh⟩ := hdate.within
  have hbase : daysBeforeYear 1970 = 719162 := by decide
  have hlimit : daysBeforeYear 10000 = 3652059 := by decide
  unfold endOfYears at hend
  have hfirst : 1970 ≤ y := by
    by_contra hearly
    have := daysBeforeYear_mono (show y + 1 ≤ 1970 by omega)
    omega
  have hlast : y ≤ 9999 := by
    by_contra hlate
    have := daysBeforeYear_mono (show 10000 ≤ y by omega)
    omega
  obtain ⟨n, rfl⟩ := Int.eq_ofNat_of_zero_le (show 0 ≤ y by omega)
  exact ⟨n, m, d, hcivil, hdate, by omega, hnumber⟩

/-- **What is written is read back to the second.** -/
theorem fromXsdDatetime_toXsdDatetime {t : SystemTime} (hpos : 0 ≤ t)
    (hend : t / 1000000000 < endOfYears) :
    (toXsdDatetime t).bind fromXsdDatetime = some (t / 1000000000 * 1000000000) := by
  have hsecs : SystemTime.unixSecs? t = some (t / 1000000000) := if_pos hpos
  set secs := t / 1000000000 with hdef
  have hsecspos : 0 ≤ secs := Int.ediv_nonneg hpos (by decide)
  obtain ⟨y, m, d, hcivil, hdate, hyear, hnumber⟩ := civil_of_secs hsecspos hend
  have hhour : (secs % 86400 / 3600).toNat ≤ 23 := by omega
  have hminute : (secs % 86400 % 3600 / 60).toNat ≤ 59 := by omega
  have hsecond : (secs % 86400 % 60).toNat ≤ 59 := by omega
  let form : XsdForm := ⟨y, m, d, _, _, _, none, .utc, hyear, hdate, hhour, hminute, hsecond,
    by simp, trivial⟩
  have htext : toXsdDatetime t = some form.text := by
    unfold toXsdDatetime
    rw [hsecs]
    simp only [Option.map_some, hcivil]
    simp [form, XsdForm.text, dateTimeText, Zone.text]
  have hwhole : form.wholeSeconds = secs := by
    simp only [XsdForm.wholeSeconds, form, Zone.seconds]
    omega
  have hinstant : 0 ≤ form.instant := by
    apply Int.floor_nonneg.mp
    rw [form.floor_instant, hwhole]
    exact hsecspos
  rw [htext, Option.bind_some, fromXsdDatetime_form, if_pos hinstant, form.floor_instant, hwhole]

end SolidServer.Store
