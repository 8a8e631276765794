import SolidServer.Store.Timestamp

/-!
# Dates of the protocol

The IMF-fixdate of `Last-Modified` and `If-Modified-Since`.  `parse_http_date` reads a text
of 29 characters field by field (`parseHttpDate_fields`), so what `to_imf_fixdate` writes
is read back (`parseHttpDate_toImfFixdate`), and a text that is read is what would be
written for its instant (`toImfFixdate_of_parseHttpDate`).
-/

namespace SolidServer.Ldp

open SolidServer.Calendar SolidServer.Store

/-! ## §1 The fields of a date -/

/-- An IMF-fixdate, from the names of the day and of the month and its numbers. -/
def imfText (name month : Text) (day year hour minute second : Nat) : Text :=
  name ++ ", ".toList ++ Text.zeroPad 2 (Text.decimal day) ++ " ".toList ++ month ++ " ".toList ++
    Text.zeroPad 4 (Text.decimal year) ++ " ".toList ++ Text.zeroPad 2 (Text.decimal hour) ++
    ":".toList ++ Text.zeroPad 2 (Text.decimal minute) ++ ":".toList ++
    Text.zeroPad 2 (Text.decimal second) ++ " GMT".toList

/-- A name of three letters. -/
def IsName (name : Text) : Prop := name.length = 3 ∧ name.all isFormChar = true

theorem dayNameFor_isName (days : Int) : IsName (dayNameFor days) := by
  unfold dayNameFor
  split <;> exact ⟨rfl, by decide⟩

theorem monthNames_isName : ∀ k < 12, IsName (monthNames.getD k []) := by
  have hall : ∀ k < 12, (monthNames.getD k []).length = 3 ∧
      (monthNames.getD k []).all isFormChar = true := by decide
  exact hall

theorem monthFromAbbrev_getD : ∀ k < 12, monthFromAbbrev (monthNames.getD k []) = some (k + 1) := by
  decide

variable {m : Nat} {secs : Int} {t : SystemTime} {v : Text}

theorem monthFromAbbrev_some {name : Text} (h : monthFromAbbrev name = some m) :
    1 ≤ m ∧ m ≤ 12 ∧ monthNames.getD (m - 1) [] = name := by
  obtain ⟨k, hk, rfl⟩ := Option.map_eq_some_iff.mp h
  obtain ⟨hlt, hget, -⟩ := List.idxOf?_eq_some_iff.mp hk
  have hlength : monthNames.length = 12 := rfl
  refine ⟨by omega, by omega, ?_⟩
  rw [Nat.add_sub_cancel, List.getD, List.getElem?_eq_getElem hlt]
  exact hget

theorem digitsValue_pair (a b : Char) :
    Text.digitsValue [a, b] = (a.toNat - 48) * 10 + (b.toNat - 48) := by
  simp [Text.digitsValue]

theorem digitsValue_quad (a b c d : Char) :
    [a, b, c, d].foldl (fun acc d => acc * 10 + (d.toNat - 48)) 0 = Text.digitsValue [a, b, c, d] :=
  rfl

/-- What is read from the fields of a date. -/
def readFields (name month : Text) (day year hour minute second : Nat) : Option Int :=
  (monthFromAbbrev month).bind fun m =>
    if day = 0 ∨ daysInMonth year m < day ∨ 23 < hour ∨ 59 < minute ∨ 59 < second then none
    else if dayNameFor (daysFromCivil year m day) ≠ name then none
    else some (daysFromCivil year m day * 86400 + hour * 3600 + minute * 60 + second)

section
variable {name month : Text} {day year hour minute second : Nat}

theorem isFormChar_imfText (hname : IsName name) (hday : day < 100) (hyear : year < 10000)
    (hhour : hour < 100) (hminute : minute < 100) (hsecond : second < 100) (hmonth : IsName month) :
    ∀ c ∈ imfText name month day year hour minute second, isFormChar c = true ∨ c = ' ' := by
  have hpad : ∀ {w n : Nat}, 1 ≤ w → n < 10 ^ w →
      ∀ c ∈ Text.zeroPad w (Text.decimal n), isFormChar c = true := fun hw hn =>
    List.all_eq_true.mp (isFormChar_zeroPad hw hn)
  intro c hc
  have hfixed : c ∈ ", ".toList ∨ c ∈ " ".toList ∨ c ∈ ":".toList ∨ c ∈ " GMT".toList →
      isFormChar c = true ∨ c = ' ' := by
    have hall : (", ".toList ++ " ".toList ++ ":".toList ++ " GMT".toList).all
        (fun c => isFormChar c || c == ' ') = true := by decide
    intro h
    have hmem : c ∈ ", ".toList ++ " ".toList ++ ":".toList ++ " GMT".toList := by
      simp only [List.mem_append]
      rcases h with h | h | h | h <;> simp only [h, true_or, or_true]
    have hc := List.all_eq_true.mp hall c hmem
    rwa [Bool.or_eq_true, beq_iff_eq] at hc
  simp only [imfText, List.mem_append, or_assoc] at hc
  rcases hc with h | h | h | h | h | h | h | h | h | h | h | h | h | h
  · exact .inl (List.all_eq_true.mp hname.2 c h)
  · exact hfixed (.inl h)
  · exact .inl (hpad (by omega) (by omega : day < 10 ^ 2) c h)
  · exact hfixed (.inr (.inl h))
  · exact .inl (List.all_eq_true.mp hmonth.2 c h)
  · exact hfixed (.inr (.inl h))
  · exact .inl (hpad (by omega) (by omega : year < 10 ^ 4) c h)
  · exact hfixed (.inr (.inl h))
  · exact .inl (hpad (by omega) (by omega : hour < 10 ^ 2) c h)
  · exact hfixed (.inr (.inr (.inl h)))
  · exact .inl (hpad (by omega) (by omega : minute < 10 ^ 2) c h)
  · exact hfixed (.inr (.inr (.inl h)))
  · exact .inl (hpad (by omega) (by omega : second < 10 ^ 2) c h)
  · exact hfixed (.inr (.inr (.inr h)))

/-- **A date is read field by field.** -/
theorem parseHttpDate_fields (hname : IsName name) (hmonth : IsName month) (hday : day < 100)
    (hyear : year < 10000) (hhour : hour < 100) (hminute : minute < 100) (hsecond : second < 100) :
    parseHttpDate (imfText name month day year hour minute second) =
      readFields name month day year hour minute second := by
  have hchars := isFormChar_imfText hname hday hyear hhour hminute hsecond hmonth
  have hascii : (imfText name month day year hour minute second).all
      (fun c => decide (c.toNat < 128)) = true := by
    apply List.all_eq_true.mpr
    intro c hc
    apply decide_eq_true
    rcases hchars c hc with h | rfl
    · simp only [isFormChar, Bool.and_eq_true, decide_eq_true_eq] at h
      omega
    · decide
  obtain ⟨w₁, w₂, w₃, hw⟩ := List.length_eq_three.mp hname.1
  obtain ⟨o₁, o₂, o₃, ho⟩ := List.length_eq_three.mp hmonth.1
  obtain ⟨d₁, d₂, hd, hd₁, hd₂, hdv⟩ := Text.zeroPad_two hday
  obtain ⟨y₁, y₂, y₃, y₄, hy, hyd, hyv⟩ := Text.zeroPad_four hyear
  obtain ⟨h₁, h₂, hh, hh₁, hh₂, hhv⟩ := Text.zeroPad_two hhour
  obtain ⟨n₁, n₂, hn, hn₁, hn₂, hnv⟩ := Text.zeroPad_two hminute
  obtain ⟨s₁, s₂, hs, hs₁, hs₂, hsv⟩ := Text.zeroPad_two hsecond
  have htext : imfText name month day year hour minute second =
      [w₁, w₂, w₃, ',', ' ', d₁, d₂, ' ', o₁, o₂, o₃, ' ', y₁, y₂, y₃, y₄, ' ', h₁, h₂, ':', n₁, n₂,
        ':', s₁, s₂, ' ', 'G', 'M', 'T'] := by
    unfold imfText
    rw [hw, ho, hd, hy, hh, hn, hs]
    rfl
  have htight : Text.Tight (imfText name month day year hour minute second) := by
    constructor
    · intro c hc
      apply not_isWhitespace_of_isFormChar
      rw [htext] at hc
      obtain rfl := Option.some.inj hc
      rw [hw] at hname
      exact List.all_eq_true.mp hname.2 w₁ (by simp)
    · intro c hc
      rw [htext] at hc
      obtain rfl : 'T' = c := by simpa using hc
      decide
  have hpair : ∀ {a b : Char} {n : Nat} (v : Text) (at_ : Nat) (rest : Text),
      v.drop at_ = a :: b :: rest → Text.isAsciiDigit a = true → Text.isAsciiDigit b = true →
        Text.digitsValue [a, b] = n → twoDigits v at_ = some n := by
    intro a b n v at_ rest hdrop ha hb hv
    unfold twoDigits
    rw [hdrop]
    simp only [ha, hb, Bool.and_true, if_true, ← hv, digitsValue_pair]
  unfold parseHttpDate
  simp only [htight.trim, hascii]
  rw [htext]
  set v := [w₁, w₂, w₃, ',', ' ', d₁, d₂, ' ', o₁, o₂, o₃, ' ', y₁, y₂, y₃, y₄, ' ', h₁, h₂, ':',
    n₁, n₂, ':', s₁, s₂, ' ', 'G', 'M', 'T'] with hv
  have hdays : twoDigits v 5 = some day := hpair v 5 _ rfl hd₁ hd₂ hdv
  have hhours : twoDigits v 17 = some hour := hpair v 17 _ rfl hh₁ hh₂ hhv
  have hminutes : twoDigits v 20 = some minute := hpair v 20 _ rfl hn₁ hn₂ hnv
  have hseconds : twoDigits v 23 = some second := hpair v 23 _ rfl hs₁ hs₂ hsv
  have hyears : fourDigits v 12 = some year := by
    have hcut : (v.drop 12).take 4 = [y₁, y₂, y₃, y₄] := rfl
    unfold fourDigits
    rw [hcut]
    simp only [List.all_cons, List.all_nil, hyd, Bool.and_true, if_true, digitsValue_quad, hyv]
  have hmonths : (v.drop 8).take 3 = month := by
    rw [ho]
    rfl
  have hnames : (v.drop 0).take 3 = name := by
    rw [hw]
    rfl
  have hguard : ¬ ((!true) = true ∨ v.length ≠ 29 ∨ (v.drop 3).take 2 ≠ ", ".toList ∨
      (v.drop 7).take 1 ≠ [' '] ∨ (v.drop 11).take 1 ≠ [' '] ∨ (v.drop 16).take 1 ≠ [' '] ∨
      (v.drop 19).take 1 ≠ [':'] ∨ (v.drop 22).take 1 ≠ [':'] ∨
      (v.drop 25).take 4 ≠ " GMT".toList) := by
    simp [hv]
  rw [if_neg hguard]
  simp only [hdays, hmonths, hyears, hhours, hminutes, hseconds, hnames, Option.bind_eq_bind,
    Option.bind_some, readFields]

end

/-! ## §2 Writing, then reading -/

theorem daysInMonth_eq_monthLength (y : Int) (m : Nat) : daysInMonth y m = monthLength y m :=
  Store.daysInMonth_eq y m

theorem daysFromCivil_eq_dayNumber {y : Int} (d : Nat) (hpos : 1 ≤ m) (hle : m ≤ 12) :
    daysFromCivil y m d = dayNumber y m d := Store.daysFromCivil_eq d hpos hle

/-- The date of a second, in its fields. -/
theorem toImfFixdate_eq {y d : Nat} (ht : SystemTime.unixSecs? t = some secs)
    (hcivil : civilFromDays (secs / 86400) = ((y : Int), (m : Int), (d : Int))) :
    toImfFixdate t = some (imfText (dayNameFor (secs / 86400)) (monthNames.getD (m - 1) []) d y
      (secs % 86400 / 3600).toNat (secs % 86400 % 3600 / 60).toNat (secs % 86400 % 60).toNat) := by
  have hindex : ((m : Int) - 1).toNat = m - 1 := by omega
  unfold toImfFixdate imfText
  rw [ht]
  simp only [Option.map_some, hcivil, hindex, Int.toNat_natCast]

/-- **What is written is read back.** -/
theorem parseHttpDate_toImfFixdate (hpos : 0 ≤ t) (hend : t / 1000000000 < endOfYears) :
    (toImfFixdate t).bind parseHttpDate = some (t / 1000000000) := by
  have hsecs : SystemTime.unixSecs? t = some (t / 1000000000) := if_pos hpos
  set secs := t / 1000000000 with hdef
  have hsecspos : 0 ≤ secs := Int.ediv_nonneg hpos (by decide)
  obtain ⟨y, m, d, hcivil, hdate, hyear, hnumber⟩ := civil_of_secs hsecspos hend
  have hmonthpos := hdate.month_pos
  have hmonthle := hdate.month_le
  have hdaypos := hdate.day_pos
  have hdayle := hdate.day_le
  have hlength := monthLength_le y m
  have hdays : daysFromCivil y m d = secs / 86400 := by
    rw [daysFromCivil_eq_dayNumber d hmonthpos hmonthle, hnumber]
  have hmonth : monthFromAbbrev (monthNames.getD (m - 1) []) = some m := by
    have h := monthFromAbbrev_getD (m - 1) (by omega)
    rwa [Nat.sub_add_cancel hmonthpos] at h
  rw [toImfFixdate_eq hsecs hcivil, Option.bind_some,
    parseHttpDate_fields (dayNameFor_isName _) (monthNames_isName _ (by omega)) (by omega) (by omega)
      (by omega) (by omega) (by omega)]
  unfold readFields
  rw [hmonth, Option.bind_some, if_neg (by rw [daysInMonth_eq_monthLength]; omega), hdays,
    if_neg (by simp)]
  congr 1
  omega

/-- What is written is visible text. -/
theorem visible_toImfFixdate (hend : t / 1000000000 < endOfYears) (h : toImfFixdate t = some v) :
    0 ≤ t ∧ ∀ c ∈ v, 32 ≤ c.toNat ∧ c.toNat < 127 := by
  have hpos : 0 ≤ t := by
    by_contra hneg
    have hnone : SystemTime.unixSecs? t = none := if_neg hneg
    rw [toImfFixdate, hnone] at h
    cases h
  refine ⟨hpos, ?_⟩
  have hsecs : SystemTime.unixSecs? t = some (t / 1000000000) := if_pos hpos
  obtain ⟨y, m, d, hcivil, hdate, hyear, -⟩ :=
    civil_of_secs (Int.ediv_nonneg hpos (by decide)) hend
  have hday := hdate.day_le
  have hlength := monthLength_le y m
  have hmonth := hdate.month_le
  rw [toImfFixdate_eq hsecs hcivil] at h
  obtain rfl := Option.some.inj h
  intro c hc
  rcases isFormChar_imfText (dayNameFor_isName _) (by omega) (by omega) (by omega) (by omega)
    (by omega) (monthNames_isName _ (by omega)) c hc with hform | rfl
  · simp only [isFormChar, Bool.and_eq_true, decide_eq_true_eq] at hform
    omega
  · decide

/-! ## §3 Reading, then writing -/

theorem twoDigits_some {at_ n : Nat} (h : twoDigits v at_ = some n) :
    Text.zeroPad 2 (Text.decimal n) = (v.drop at_).take 2 ∧ n < 100 := by
  unfold twoDigits at h
  split at h
  · rename_i a b rest hdrop
    split_ifs at h with hdigits
    have hall : [a, b].all Text.isAsciiDigit = true := by simp [hdigits]
    have hvalue : n = Text.digitsValue [a, b] := by
      rw [digitsValue_pair]
      exact (Option.some.inj h).symm
    have hlt := Store.digitsValue_lt hall
    have hpad := Text.zeroPad_digitsValue (List.cons_ne_nil a [b]) hall
    rw [hvalue, hdrop]
    exact ⟨hpad, by simpa using hlt⟩
  · cases h

theorem fourDigits_some {at_ n : Nat} (hlength : at_ + 4 ≤ v.length) (h : fourDigits v at_ = some n)
    :
    Text.zeroPad 4 (Text.decimal n) = (v.drop at_).take 4 ∧ n < 10000 := by
  have hfour : ((v.drop at_).take 4).length = 4 := by
    rw [List.length_take, List.length_drop]
    omega
  unfold fourDigits at h
  simp only at h
  split_ifs at h with hall
  have hvalue : n = Text.digitsValue ((v.drop at_).take 4) := (Option.some.inj h).symm
  have hlt := Store.digitsValue_lt hall
  have hne : (v.drop at_).take 4 ≠ [] := by
    intro hnil
    rw [hnil] at hfour
    cases hfour
  have hpad := Text.zeroPad_digitsValue hne hall
  rw [hfour] at hlt hpad
  rw [hvalue]
  exact ⟨hpad, hlt⟩

/-- What a text is that is read as a date. -/
theorem parseHttpDate_some (htrim : Text.trim v = v) (h : parseHttpDate v = some secs) :
    ∃ name month day year hour minute second,
      v = imfText name month day year hour minute second ∧ year < 10000 ∧
        readFields name month day year hour minute second = some secs := by
  unfold parseHttpDate at h
  simp only [htrim] at h
  split_ifs at h with hguard
  simp only [not_or, not_not] at hguard
  obtain ⟨-, hlength, hcomma, hsp₁, hsp₂, hsp₃, hcol₁, hcol₂, hgmt⟩ := hguard
  simp only [Option.bind_eq_bind, Option.bind_eq_some_iff] at h
  obtain ⟨day, hday, m, hm, year, hyear, hour, hhour, minute, hminute, second, hsecond, h⟩ := h
  have hcut : ∀ i n, v.drop i = (v.drop i).take n ++ v.drop (i + n) := by
    intro i n
    rw [← List.drop_drop, List.take_append_drop]
  have hend : v.drop 29 = [] := List.drop_eq_nil_of_le (by omega)
  have hfour := fourDigits_some (by omega) hyear
  refine ⟨(v.drop 0).take 3, (v.drop 8).take 3, day, year, hour, minute, second, ?_, hfour.2, ?_⟩
  · -- the fields are the parts of the text, in their order
    have hpart : ∀ {i n : Nat} {part : Text}, (v.drop i).take n = part →
        v.drop i = part ++ v.drop (i + n) := by
      intro i n part heq
      rw [← heq]
      exact hcut i n
    have hname : v = (v.drop 0).take 3 ++ v.drop 3 := hcut 0 3
    have hdays := hpart (twoDigits_some hday).1.symm
    have hmonth : v.drop 8 = (v.drop 8).take 3 ++ v.drop 11 := hcut 8 3
    have hyears := hpart hfour.1.symm
    have hhours := hpart (twoDigits_some hhour).1.symm
    have hminutes := hpart (twoDigits_some hminute).1.symm
    have hseconds := hpart (twoDigits_some hsecond).1.symm
    conv_lhs =>
      rw [hname, hpart hcomma, hdays, hpart hsp₁, hmonth, hpart hsp₂, hyears, hpart hsp₃, hhours,
        hpart hcol₁, hminutes, hpart hcol₂, hseconds, hpart hgmt, hend]
    simp [imfText]
  · unfold readFields
    rw [hm]
    exact h

/-- **A text that is read is what is written** for the instant it is read as. -/
theorem toImfFixdate_of_parseHttpDate (htrim : Text.trim v = v) (hpos : 0 ≤ secs)
    (h : parseHttpDate v = some secs) :
    toImfFixdate (secs * 1000000000) = some v := by
  obtain ⟨name, month, day, year, hour, minute, second, rfl, hyear, hread⟩ :=
    parseHttpDate_some htrim h
  obtain ⟨m, hm, hread⟩ := Option.bind_eq_some_iff.mp hread
  obtain ⟨hmonthpos, hmonthle, hmonth⟩ := monthFromAbbrev_some hm
  split_ifs at hread with hrange hname
  rw [not_ne_iff] at hname
  rw [daysInMonth_eq_monthLength] at hrange
  have hdate : IsDate year m day := ⟨hmonthpos, hmonthle, by omega, by omega⟩
  have hdays := daysFromCivil_eq_dayNumber (y := year) day hmonthpos hmonthle
  have hsecs := Option.some.inj hread
  have hday : secs / 86400 = dayNumber year m day := by omega
  have hcivil : civilFromDays (secs / 86400) = ((year : Int), (m : Int), (day : Int)) := by
    rw [hday]
    exact civilFromDays_dayNumber hdate
  have hunix : SystemTime.unixSecs? (secs * 1000000000) = some secs := by
    unfold SystemTime.unixSecs?
    rw [if_pos (Int.mul_nonneg hpos (by decide)), Int.mul_ediv_cancel _ (by decide)]
  have hh : (secs % 86400 / 3600).toNat = hour := by omega
  have hmm : (secs % 86400 % 3600 / 60).toNat = minute := by omega
  have hss : (secs % 86400 % 60).toNat = second := by omega
  rw [toImfFixdate_eq hunix hcivil, hh, hmm, hss, hmonth, hday, ← hdays, hname]

end SolidServer.Ldp
