import SolidServer.Text.Basic

/-!
# Trimming, stripping and splitting

What the string operations of `Text.Basic` cut off and what they leave: `trim` removes white
space from both ends and nothing else (`exists_trim`), white space around a text does not
change its trim (`trim_padded`), and `splitOnce` finds the first separator
(`splitOnce_eq_some`).
-/

namespace SolidServer.Text

/-! ## §1 White space -/

/-- A text of white space only. -/
def Spaces (t : Text) : Prop := ∀ c ∈ t, isWhitespace c = true

/-- A text with no white space at either end. -/
structure Tight (t : Text) : Prop where
  first : ∀ c ∈ t.head?, isWhitespace c = false
  last : ∀ c ∈ t.getLast?, isWhitespace c = false

theorem Spaces.nil : Spaces [] := by simp [Spaces]

variable {s t : Text} {c : Char}

theorem Spaces.append (hs : Spaces s) (ht : Spaces t) : Spaces (s ++ t) := by
  intro c hc
  rcases List.mem_append.mp hc with h | h
  · exact hs c h
  · exact ht c h

theorem trimStart_spaces {front : Text} (h : Spaces front) (t : Text) :
    trimStart (front ++ t) = trimStart t := List.dropWhile_append_of_pos h

theorem trimEnd_spaces {back : Text} (h : Spaces back) (t : Text) :
    trimEnd (t ++ back) = trimEnd t := by
  unfold trimEnd
  induction back using List.reverseRecOn with
  | nil => rw [List.append_nil]
  | append_singleton back c ih =>
    have hc : isWhitespace c = true := h c (by simp)
    rw [← List.append_assoc, List.rdropWhile_concat_pos _ _ _ hc]
    apply ih
    intro d hd
    exact h d (by simp [hd])

theorem trimStart_eq_self (h : ∀ c ∈ t.head?, isWhitespace c = false) :
    trimStart t = t := by
  cases t with
  | nil => rfl
  | cons c t => exact List.dropWhile_cons_of_neg (by simp [h c rfl])

theorem trimEnd_eq_self (h : ∀ c ∈ t.getLast?, isWhitespace c = false) :
    trimEnd t = t := by
  apply List.rdropWhile_eq_self_iff.mpr
  intro hne
  simp [h _ (List.getLast?_eq_getLast_of_ne_nil hne)]

theorem Tight.trim (h : Tight t) : trim t = t := by
  rw [Text.trim, trimStart_eq_self h.first, trimEnd_eq_self h.last]

/-- **White space around a text does not change its trim.** -/
theorem trim_padded {front back : Text} (hfront : Spaces front) (hback : Spaces back) (t : Text) :
    trim (front ++ t ++ back) = trim t := by
  unfold trim
  rw [List.append_assoc, trimStart_spaces hfront]
  unfold trimStart
  rw [List.dropWhile_append]
  split_ifs with hempty
  · -- nothing but white space before the end
    rw [List.isEmpty_iff.mp hempty]
    have hall : back.dropWhile isWhitespace = [] := List.dropWhile_eq_nil_iff.mpr hback
    rw [hall]
  · exact trimEnd_spaces hback _

theorem exists_trimStart (t : Text) : ∃ front, Spaces front ∧ t = front ++ trimStart t := by
  refine ⟨t.takeWhile isWhitespace, ?_, (List.takeWhile_append_dropWhile).symm⟩
  intro c hc
  exact List.mem_takeWhile_imp hc

theorem exists_trimEnd (t : Text) : ∃ back, Spaces back ∧ t = trimEnd t ++ back := by
  refine ⟨t.rtakeWhile isWhitespace, ?_, ?_⟩
  · intro c hc
    exact List.mem_takeWhile_imp (List.mem_reverse.mp hc)
  · unfold trimEnd List.rdropWhile List.rtakeWhile
    rw [← List.reverse_append, List.takeWhile_append_dropWhile, List.reverse_reverse]

/-- **Trimming removes white space at the ends only.** -/
theorem exists_trim (t : Text) :
    ∃ front back, Spaces front ∧ Spaces back ∧ t = front ++ trim t ++ back := by
  obtain ⟨front, hfront, ht⟩ := exists_trimStart t
  obtain ⟨back, hback, hs⟩ := exists_trimEnd (trimStart t)
  refine ⟨front, back, hfront, hback, ?_⟩
  calc t = front ++ trimStart t := ht
    _ = front ++ (trim t ++ back) := by rw [trim, ← hs]
    _ = front ++ trim t ++ back := (List.append_assoc _ _ _).symm

theorem first_trimStart (t : Text) : ∀ c ∈ (trimStart t).head?, isWhitespace c = false := by
  intro c hc
  have h := List.head?_dropWhile_not isWhitespace t
  have hc' : (t.dropWhile isWhitespace).head? = some c := hc
  rw [hc'] at h
  exact h

theorem last_trimEnd (t : Text) : ∀ c ∈ (trimEnd t).getLast?, isWhitespace c = false := by
  intro c hc
  unfold trimEnd List.rdropWhile at hc
  rw [List.getLast?_reverse] at hc
  exact first_trimStart t.reverse c hc

theorem mem_trim (h : c ∈ t) (hc : isWhitespace c = false) : c ∈ trim t := by
  obtain ⟨front, back, hfront, hback, ht⟩ := exists_trim t
  rw [ht] at h
  simp only [List.mem_append] at h
  rcases h with (h | h) | h
  · rw [hfront c h] at hc
    cases hc
  · exact h
  · rw [hback c h] at hc
    cases hc

theorem mem_of_mem_trim (h : c ∈ trim t) : c ∈ t := by
  obtain ⟨front, back, -, -, ht⟩ := exists_trim t
  rw [ht]
  simp [h]

theorem count_trim (hc : isWhitespace c = false) (t : Text) :
    (trim t).count c = t.count c := by
  obtain ⟨front, back, hfront, hback, ht⟩ := exists_trim t
  have hnone : ∀ s, Spaces s → s.count c = 0 := by
    intro s hs
    apply List.count_eq_zero.mpr
    intro hmem
    rw [hs c hmem] at hc
    cases hc
  conv_rhs => rw [ht]
  rw [List.count_append, List.count_append, hnone front hfront, hnone back hback]
  omega

/-! ## §2 Known ends -/

theorem stripPrefix?_eq_some {pre rest : Text} :
    stripPrefix? s pre = some rest ↔ s = pre ++ rest := by
  constructor
  · intro h
    unfold stripPrefix? at h
    split_ifs at h with hpre
    obtain ⟨tail, rfl⟩ := List.isPrefixOf_iff_prefix.mp hpre
    obtain rfl : tail = rest := by simpa using h
    rfl
  · rintro rfl
    exact stripPrefix?_append pre rest

theorem stripPrefix?_eq_none {pre : Text} (h : ∀ rest, s ≠ pre ++ rest) :
    stripPrefix? s pre = none := by
  apply Option.eq_none_iff_forall_ne_some.mpr
  intro rest hrest
  exact h rest (stripPrefix?_eq_some.mp hrest)

theorem stripSuffix?_eq_some {suf rest : Text} :
    stripSuffix? s suf = some rest ↔ s = rest ++ suf := by
  constructor
  · intro h
    unfold stripSuffix? at h
    split_ifs at h with hsuf
    obtain ⟨front, rfl⟩ := List.isSuffixOf_iff_suffix.mp hsuf
    obtain rfl : front = rest := by simpa using h
    rfl
  · rintro rfl
    simp [stripSuffix?]

/-! ## §3 Separators -/

theorem splitOnce_append {a b : Text} (ha : c ∉ a) :
    splitOnce (a ++ c :: b) c = some (a, b) := by
  have hall : ∀ d ∈ a, (d != c) = true := by
    intro d hd
    apply bne_iff_ne.mpr
    rintro rfl
    exact ha hd
  unfold splitOnce
  rw [List.takeWhile_append_of_pos hall, List.dropWhile_append_of_pos hall]
  simp

theorem splitOnce_eq_none (h : c ∉ s) : splitOnce s c = none := if_neg h

/-- **The first separator** of a text that has one. -/
theorem exists_first (h : c ∈ s) : ∃ a b, c ∉ a ∧ s = a ++ c :: b := by
  obtain ⟨a, b, rfl, ha⟩ := List.eq_append_cons_of_mem h
  exact ⟨a, b, ha, rfl⟩

theorem sublist_of_mem_splitOn {p : Text} (h : p ∈ s.splitOn c) : p.Sublist s := by
  induction hn : s.length using Nat.strong_induction_on generalizing s with
  | _ n ih =>
    by_cases hmem : c ∈ s
    · obtain ⟨a, b, ha, rfl⟩ := exists_first hmem
      rw [List.splitOn_append_cons_self, List.splitOn_eq_singleton ha] at h
      rcases List.mem_append.mp h with h | h
      · obtain rfl := List.mem_singleton.mp h
        exact List.sublist_append_left _ _
      · have hshort : b.length < n := by
          rw [← hn]
          simp
          omega
        have hsub : p.Sublist b := ih b.length hshort h rfl
        exact (hsub.cons c).trans (List.sublist_append_right _ _)
    · rw [List.splitOn_eq_singleton hmem] at h
      obtain rfl := List.mem_singleton.mp h
      exact List.Sublist.refl _

theorem not_mem_of_mem_splitOn {p : Text} (h : p ∈ s.splitOn c) : c ∉ p := by
  induction hn : s.length using Nat.strong_induction_on generalizing s with
  | _ n ih =>
    by_cases hmem : c ∈ s
    · obtain ⟨a, b, ha, rfl⟩ := exists_first hmem
      rw [List.splitOn_append_cons_self, List.splitOn_eq_singleton ha] at h
      rcases List.mem_append.mp h with h | h
      · obtain rfl := List.mem_singleton.mp h
        exact ha
      · have hshort : b.length < n := by
          rw [← hn]
          simp
          omega
        exact ih b.length hshort h rfl
    · rw [List.splitOn_eq_singleton hmem] at h
      obtain rfl := List.mem_singleton.mp h
      exact hmem

end SolidServer.Text
