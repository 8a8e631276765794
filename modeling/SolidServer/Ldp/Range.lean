import SolidServer.Ldp.Conditional
import SolidServer.Text.Number

/-!
# Byte ranges against their grammar

A byte range of RFC 9110 selects positions of the body; `Conforms` says what the answer to a
`Range` field is in terms of these positions.  `ldp/range.rs` reads the field with white
space allowed around the numbers, numbers of 64 bits with an optional `+`, and refuses
everything against an empty body.  `range_conforms_iff` says which fields it answers right.
-/

namespace SolidServer.Ldp

open SolidServer.Text (digits? Signed Spaces)

/-! ## §1 Range specifications -/

/-- A `range-spec`: two positions, a first position, or the length of a suffix. -/
inductive ByteSpec where
  | closed (first last : Nat)
  | fromFirst (first : Nat)
  | suffix (length : Nat)

namespace ByteSpec

/-- The texts of a specification in the grammar, with digits of any magnitude. -/
inductive Spells : ByteSpec → Text → Prop where
  | closed {f l : Text} {a b : Nat} (hf : digits? f = some a) (hl : digits? l = some b)
      (hle : a ≤ b) : Spells (.closed a b) (f ++ '-' :: l)
  | fromFirst {f : Text} {a : Nat} (hf : digits? f = some a) : Spells (.fromFirst a) (f ++ ['-'])
  | suffix {l : Text} {n : Nat} (hl : digits? l = some n) : Spells (.suffix n) ('-' :: l)

/-- The texts that look like a specification when white space and a `+` before a number are
ignored. -/
inductive Resembles : ByteSpec → Text → Prop where
  | closed {f l : Text} {a b : Nat} (hf : Signed (Text.trim f) a) (hl : Signed (Text.trim l) b)
      (hle : a ≤ b) : Resembles (.closed a b) (f ++ '-' :: l)
  | fromFirst {f l : Text} {a : Nat} (hf : Signed (Text.trim f) a) (hl : Spaces l) :
      Resembles (.fromFirst a) (f ++ '-' :: l)
  | suffix {f l : Text} {n : Nat} (hf : Spaces f) (hl : Signed (Text.trim l) n) :
      Resembles (.suffix n) (f ++ '-' :: l)

/-- The positions a specification selects from `len` of them. -/
def Selects (len : Nat) : ByteSpec → Nat → Prop
  | .closed first last, i => first ≤ i ∧ i ≤ last
  | .fromFirst first, i => first ≤ i
  | .suffix length, i => len ≤ i + length

/-- The numbers of the specification are below `2 ^ 64`. -/
def Fits : ByteSpec → Prop
  | .closed first last => first < 2 ^ 64 ∧ last < 2 ^ 64
  | .fromFirst first => first < 2 ^ 64
  | .suffix length => length < 2 ^ 64

/-- The answer to a specification, against a body that is not empty. -/
def outcome (len : Nat) : ByteSpec → RangeOutcome
  | .closed first last =>
    if len - 1 < first then .unsatisfiable else .satisfied first (min last (len - 1))
  | .fromFirst first => if len - 1 < first then .unsatisfiable else .satisfied first (len - 1)
  | .suffix length => if length = 0 then .unsatisfiable else .satisfied (len - length) (len - 1)

end ByteSpec

/-- **What RFC 9110 has for a field** (with white space at its ends removed): the full body unless
the field is one specification in bytes, the positions that specification selects when there are
any, and unsatisfiable when there are none. -/
def Conforms (value : Text) (len : Nat) : RangeOutcome → Prop
  | .full => ∀ (r : ByteSpec) (spec : Text), value = "bytes=".toList ++ spec → ¬ r.Spells spec
  | .unsatisfiable => ∃ (r : ByteSpec) (spec : Text), value = "bytes=".toList ++ spec ∧
      r.Spells spec ∧ ∀ i < len, ¬ r.Selects len i
  | .satisfied start stop => start ≤ stop ∧ stop < len ∧
      ∃ (r : ByteSpec) (spec : Text), value = "bytes=".toList ++ spec ∧ r.Spells spec ∧
        ∀ i, start ≤ i ∧ i ≤ stop ↔ i < len ∧ r.Selects len i

/-- The specification is written as the grammar has it exactly when its numbers fit; against an
empty body it is one, unless nothing in it looks like a single range. -/
def PlainSpec (spec : Text) (len : Nat) : Prop :=
  if len = 0 then '-' ∈ spec → ',' ∉ spec → ∃ r : ByteSpec, r.Spells spec
  else ∀ r : ByteSpec, r.Resembles spec → (r.Spells spec ↔ r.Fits)

/-! ## §2 Reading a specification -/

namespace ByteSpec

variable {r : ByteSpec} {spec t : Text}

theorem Spells.resembles (h : r.Spells spec) : r.Resembles spec := by
  have htrim : ∀ {t : Text} {n : Nat}, digits? t = some n → Signed (Text.trim t) n := by
    intro t n ht
    rw [(Text.tight_of_digits? ht).trim]
    exact Text.signed_of_digits? ht
  cases h with
  | closed hf hl hle => exact .closed (htrim hf) (htrim hl) hle
  | fromFirst hf => exact .fromFirst (htrim hf) .nil
  | suffix hl =>
    have h := @Resembles.suffix [] _ _ .nil (htrim hl)
    exact h

theorem dash_not_mem_of_trim {n : Nat} (h : Signed (Text.trim t) n) : '-' ∉ t := by
  intro hmem
  exact h.not_mem (by decide) (by decide) (Text.mem_trim hmem (by decide))

theorem comma_not_mem_of_trim {n : Nat} (h : Signed (Text.trim t) n) : ',' ∉ t := by
  intro hmem
  exact h.not_mem (by decide) (by decide) (Text.mem_trim hmem (by decide))

theorem not_mem_of_spaces {c : Char} (h : Spaces t) (hc : Text.isWhitespace c = false) : c ∉ t := by
  intro hmem
  rw [h c hmem] at hc
  cases hc

theorem trim_of_spaces (h : Spaces t) : Text.trim t = [] := by
  have hpad := Text.trim_padded h .nil []
  rwa [List.append_nil, List.append_nil] at hpad

theorem spaces_of_trim (h : Text.trim t = []) : Spaces t := by
  obtain ⟨front, back, hfront, hback, ht⟩ := Text.exists_trim t
  rw [h, List.append_nil] at ht
  rw [ht]
  exact hfront.append hback

/-- **What stands around the first dash** of a text that looks like a specification. -/
theorem Resembles.parts {f l : Text} (hdash : '-' ∉ f) (h : r.Resembles (f ++ '-' :: l)) :
    (∃ a b, r = .closed a b ∧ Signed (Text.trim f) a ∧ Signed (Text.trim l) b ∧ a ≤ b) ∨
      (∃ a, r = .fromFirst a ∧ Signed (Text.trim f) a ∧ Text.trim l = []) ∨
        ∃ n, r = .suffix n ∧ Text.trim f = [] ∧ Signed (Text.trim l) n := by
  have hsame : ∀ {x y : Text}, '-' ∉ x → f ++ '-' :: l = x ++ '-' :: y → f = x ∧ l = y := by
    intro x y hx heq
    have hsplit := Text.splitOnce_append (b := l) hdash
    rw [heq, Text.splitOnce_append hx] at hsplit
    obtain ⟨rfl, rfl⟩ := Prod.mk.inj (Option.some.inj hsplit)
    exact ⟨rfl, rfl⟩
  generalize hspec : f ++ '-' :: l = spec at h
  cases h with
  | closed hf hl hle =>
    obtain ⟨rfl, rfl⟩ := hsame (dash_not_mem_of_trim hf) hspec
    exact .inl ⟨_, _, rfl, hf, hl, hle⟩
  | fromFirst hf hl =>
    obtain ⟨rfl, rfl⟩ := hsame (dash_not_mem_of_trim hf) hspec
    exact .inr (.inl ⟨_, rfl, hf, trim_of_spaces hl⟩)
  | suffix hf hl =>
    obtain ⟨rfl, rfl⟩ := hsame (not_mem_of_spaces hf (by decide)) hspec
    exact .inr (.inr ⟨_, rfl, trim_of_spaces hf, hl⟩)

theorem Resembles.dash_mem (h : r.Resembles spec) : '-' ∈ spec := by
  cases h <;> simp

theorem Resembles.comma_not_mem (h : r.Resembles spec) :
    ',' ∉ spec := by
  have hjoin : ∀ {f l : Text}, ',' ∉ f → ',' ∉ l → ',' ∉ f ++ '-' :: l := by
    intro f l hf hl
    simp [hf, hl]
  cases h with
  | closed hf hl _ => exact hjoin (comma_not_mem_of_trim hf) (comma_not_mem_of_trim hl)
  | fromFirst hf hl => exact hjoin (comma_not_mem_of_trim hf) (not_mem_of_spaces hl (by decide))
  | suffix hf hl => exact hjoin (not_mem_of_spaces hf (by decide)) (comma_not_mem_of_trim hl)

/-- A text looks like one specification at most. -/
theorem Resembles.functional {r' : ByteSpec} (h : r.Resembles spec) (h' : r'.Resembles spec) :
    r = r' := by
  obtain ⟨f, l, hdash, rfl⟩ := Text.exists_first h.dash_mem
  have hempty : ∀ {t : Text} {n : Nat}, Signed t n → t = [] → False := fun hs ht => hs.ne_nil ht
  rcases h.parts hdash with ⟨a, b, rfl, hf, hl, -⟩ | ⟨a, rfl, hf, hl⟩ | ⟨n, rfl, hf, hl⟩ <;>
    rcases h'.parts hdash with ⟨a', b', rfl, hf', hl', -⟩ | ⟨a', rfl, hf', hl'⟩ | ⟨n', rfl, hf', hl'⟩
  · rw [hf.functional hf', hl.functional hl']
  · exact (hempty hl hl').elim
  · exact (hempty hf hf').elim
  · exact (hempty hl' hl).elim
  · rw [hf.functional hf']
  · exact (hempty hf hf').elim
  · exact (hempty hf' hf).elim
  · exact (hempty hf' hf).elim
  · rw [hl.functional hl']

/-! ## §3 The answer to a specification -/

theorem outcome_ne_full (r : ByteSpec) (len : Nat) : r.outcome len ≠ .full := by
  cases r <;> simp only [outcome] <;> split_ifs <;> simp

/-- The answer names the positions the specification selects. -/
theorem outcome_conforms (h : r.Spells spec) {len : Nat} (hlen : 0 < len) :
    Conforms ("bytes=".toList ++ spec) len (r.outcome len) := by
  cases h with
  | closed hf hl hle =>
    simp only [outcome]
    split_ifs with hfirst
    · refine ⟨_, _, rfl, .closed hf hl hle, fun i hi hsel => ?_⟩
      have := hsel.1
      omega
    · refine ⟨by omega, by omega, _, _, rfl, .closed hf hl hle, fun i => ?_⟩
      simp only [Selects]
      omega
  | fromFirst hf =>
    simp only [outcome]
    split_ifs with hfirst
    · refine ⟨_, _, rfl, .fromFirst hf, fun i hi hsel => ?_⟩
      have : _ ≤ i := hsel
      omega
    · refine ⟨by omega, by omega, _, _, rfl, .fromFirst hf, fun i => ?_⟩
      simp only [Selects]
      omega
  | suffix hl =>
    simp only [outcome]
    split_ifs with hzero
    · refine ⟨_, _, rfl, .suffix hl, fun i hi hsel => ?_⟩
      have : len ≤ i + _ := hsel
      omega
    · refine ⟨by omega, by omega, _, _, rfl, .suffix hl, fun i => ?_⟩
      simp only [Selects]
      omega

end ByteSpec

section
variable {f l : Text} {len : Nat} (hlen : 0 < len)
include hlen

theorem evaluateSpec_of_fits {r : ByteSpec} (hdash : '-' ∉ f) (h : r.Resembles (f ++ '-' :: l))
    (hfits : r.Fits) : evaluateSpec (Text.trim f) (Text.trim l) len = r.outcome len := by
  have hread : ∀ {t : Text} {n : Nat}, Signed t n → n < 2 ^ 64 →
      Text.parseUnsigned? 64 t = some n ∧ t.isEmpty = false := by
    intro t n ht hn
    exact ⟨Text.parseUnsigned?_eq_some.mpr ⟨ht, hn⟩, List.isEmpty_eq_false_iff.mpr ht.ne_nil⟩
  unfold evaluateSpec
  rw [if_neg (Nat.ne_of_gt hlen)]
  rcases h.parts hdash with ⟨a, b, rfl, hf, hl, hle⟩ | ⟨a, rfl, hf, hl⟩ | ⟨n, rfl, hf, hl⟩
  · obtain ⟨ha, hfe⟩ := hread hf hfits.1
    obtain ⟨hb, hle'⟩ := hread hl hfits.2
    simp only [hfe, hle', ha, hb]
    rw [if_neg (Nat.not_lt.mpr hle)]
    rfl
  · obtain ⟨ha, hfe⟩ := hread hf hfits
    have hle' : (Text.trim l).isEmpty = true := by rw [hl]; rfl
    simp only [hfe, hle', ha]
    rfl
  · obtain ⟨hn, hle'⟩ := hread hl hfits
    have hfe : (Text.trim f).isEmpty = true := by rw [hf]; rfl
    simp only [hfe, hle', hn]
    rfl

theorem evaluateSpec_eq_full (h : ∀ r : ByteSpec, r.Resembles (f ++ '-' :: l) → ¬ r.Fits) :
    evaluateSpec (Text.trim f) (Text.trim l) len = .full := by
  unfold evaluateSpec
  rw [if_neg (Nat.ne_of_gt hlen)]
  cases hf : (Text.trim f).isEmpty with
  | true =>
    cases hl : (Text.trim l).isEmpty with
    | true => rfl
    | false =>
      cases hn : Text.parseUnsigned? 64 (Text.trim l) with
      | none => rfl
      | some n =>
        obtain ⟨hsigned, hlt⟩ := Text.parseUnsigned?_eq_some.mp hn
        have hspaces := ByteSpec.spaces_of_trim (List.isEmpty_iff.mp hf)
        exact absurd hlt (h _ (.suffix hspaces hsigned))
  | false =>
    cases ha : Text.parseUnsigned? 64 (Text.trim f) with
    | none => cases hl : (Text.trim l).isEmpty <;> rfl
    | some a =>
      obtain ⟨hfirst, hlt⟩ := Text.parseUnsigned?_eq_some.mp ha
      cases hl : (Text.trim l).isEmpty with
      | true =>
        have hspaces := ByteSpec.spaces_of_trim (List.isEmpty_iff.mp hl)
        exact absurd hlt (h _ (.fromFirst hfirst hspaces))
      | false =>
        cases hb : Text.parseUnsigned? 64 (Text.trim l) with
        | none => rfl
        | some b =>
          obtain ⟨hlast, hlt'⟩ := Text.parseUnsigned?_eq_some.mp hb
          apply if_pos
          -- were the numbers in order, the text would look like a range
          by_contra hle
          exact h _ (.closed hfirst hlast (Nat.not_lt.mp hle)) ⟨hlt, hlt'⟩

end

/-! ## §4 The answer to a field -/

variable {value spec : Text} {len : Nat}

theorem evaluateRange_other (h : ∀ spec, Text.trim value ≠ "bytes=".toList ++ spec) :
    evaluateRange (some value) len = .full := by
  simp only [evaluateRange, Text.stripPrefix?_eq_none h]

theorem evaluateRange_bytes (h : Text.trim value = "bytes=".toList ++ spec) :
    evaluateRange (some value) len =
      if ',' ∈ Text.trim spec then .full
      else
        match Text.splitOnce (Text.trim spec) '-' with
        | none => .full
        | some (first, last) => evaluateSpec (Text.trim first) (Text.trim last) len := by
  have hspec := Text.stripPrefix?_eq_some.mpr h
  cases hparts : Text.splitOnce (Text.trim spec) '-' with
  | none => simp only [evaluateRange, hspec, hparts]
  | some parts => simp only [evaluateRange, hspec, hparts]

theorem evaluateRange_list (h : Text.trim value = "bytes=".toList ++ spec) (hcomma : ',' ∈ spec) :
    evaluateRange (some value) len = .full := by
  rw [evaluateRange_bytes h, if_pos (Text.mem_trim hcomma (by decide))]

theorem evaluateRange_undashed (h : Text.trim value = "bytes=".toList ++ spec) (hcomma : ',' ∉ spec)
    (hdash : '-' ∉ spec) :
    evaluateRange (some value) len = .full := by
  rw [evaluateRange_bytes h, if_neg (fun hmem => hcomma (Text.mem_of_mem_trim hmem)),
    Text.splitOnce_eq_none (fun hmem => hdash (Text.mem_of_mem_trim hmem))]

/-- A single range is cut at its first dash, and both sides are trimmed. -/
theorem evaluateRange_dashed {f l : Text} (h : Text.trim value = "bytes=".toList ++ (f ++ '-' :: l))
    (hcomma : ',' ∉ f ++ '-' :: l) (hdash : '-' ∉ f) :
    evaluateRange (some value) len = evaluateSpec (Text.trim f) (Text.trim l) len := by
  obtain ⟨front, hfront, hf⟩ := Text.exists_trimStart f
  obtain ⟨back, hback, hl⟩ := Text.exists_trimEnd l
  have hdash' : '-' ∉ Text.trimStart f := by
    intro hmem
    apply hdash
    rw [hf]
    exact List.mem_append_right _ hmem
  have htight : Text.Tight (Text.trimStart f ++ '-' :: Text.trimEnd l) := by
    constructor
    · intro c hc
      cases hs : Text.trimStart f with
      | nil =>
        rw [hs] at hc
        obtain rfl := Option.some.inj hc
        decide
      | cons d t =>
        apply Text.first_trimStart f c
        rw [hs] at hc ⊢
        exact hc
    · intro c hc
      rw [List.getLast?_append_cons] at hc
      cases hs : Text.trimEnd l with
      | nil =>
        rw [hs] at hc
        obtain rfl := Option.some.inj hc
        decide
      | cons d t =>
        apply Text.last_trimEnd l c
        rw [hs] at hc ⊢
        rwa [List.getLast?_cons_cons] at hc
  have htrim : Text.trim (f ++ '-' :: l) = Text.trimStart f ++ '-' :: Text.trimEnd l := by
    have hspec : f ++ '-' :: l =
        front ++ (Text.trimStart f ++ '-' :: Text.trimEnd l) ++ back := by
      conv_lhs => rw [hf, hl]
      simp
    rw [hspec, Text.trim_padded hfront hback, htight.trim]
  have hfirst : Text.trim (Text.trimStart f) = Text.trim f := by
    have hpad := Text.trim_padded hfront .nil (Text.trimStart f)
    rwa [List.append_nil, ← hf, eq_comm] at hpad
  have hlast : Text.trim (Text.trimEnd l) = Text.trim l := by
    have hpad := Text.trim_padded .nil hback (Text.trimEnd l)
    rwa [List.nil_append, ← hl, eq_comm] at hpad
  rw [evaluateRange_bytes h, if_neg (fun hmem => hcomma (Text.mem_of_mem_trim hmem)), htrim,
    Text.splitOnce_append hdash']
  simp only [hfirst, hlast]

section
variable {value : Text} {len : Nat}

variable {spec : Text}

theorem conforms_full_iff (h : value = "bytes=".toList ++ spec) :
    Conforms value len .full ↔ ∀ r : ByteSpec, ¬ r.Spells spec := by
  constructor
  · intro hfull r
    exact hfull r spec h
  · rintro hnone r spec' h' hspells
    obtain rfl := List.append_cancel_left (h.symm.trans h')
    exact hnone r hspells

/-- Only a specification of the grammar is answered with anything but the full body. -/
theorem Conforms.spells (h : value = "bytes=".toList ++ spec) {o : RangeOutcome} (ho : o ≠ .full)
    (hconf : Conforms value len o) : ∃ r : ByteSpec, r.Spells spec := by
  cases o with
  | full => exact absurd rfl ho
  | unsatisfiable =>
    obtain ⟨r, spec', h', hspells, -⟩ := hconf
    obtain rfl := List.append_cancel_left (h.symm.trans h')
    exact ⟨r, hspells⟩
  | satisfied start stop =>
    obtain ⟨-, -, r, spec', h', hspells, -⟩ := hconf
    obtain rfl := List.append_cancel_left (h.symm.trans h')
    exact ⟨r, hspells⟩

/-- A text that looks like no specification is ignored, and rightly so. -/
theorem plainSpec_of_not_resembles (len : Nat) (h : value = "bytes=".toList ++ spec)
    (hnone : ∀ r : ByteSpec, ¬ r.Resembles spec) (hempty : len = 0 → '-' ∉ spec ∨ ',' ∈ spec) :
    Conforms value len .full ∧ PlainSpec spec len := by
  refine ⟨(conforms_full_iff h).mpr fun r hspells => hnone r hspells.resembles, ?_⟩
  unfold PlainSpec
  split_ifs with hlen
  · intro hdash hcomma
    rcases hempty hlen with h | h
    · exact absurd hdash h
    · exact absurd h hcomma
  · intro r hr
    exact absurd hr (hnone r)

/-- Against an empty body every single range is refused. -/
theorem conforms_empty_iff {f l : Text} (h : Text.trim value = "bytes=".toList ++ (f ++ '-' :: l))
    (hcomma : ',' ∉ f ++ '-' :: l) (hdash : '-' ∉ f) :
    Conforms (Text.trim value) 0 (evaluateRange (some value) 0) ↔
      PlainSpec (f ++ '-' :: l) 0 := by
  have hunsat : evaluateRange (some value) 0 = .unsatisfiable := evaluateRange_dashed h hcomma hdash
  rw [hunsat]
  constructor
  · intro hconf _ _
    exact hconf.spells h (by simp)
  · intro hplain
    obtain ⟨r, hr⟩ := hplain (by simp) hcomma
    exact ⟨r, _, h, hr, fun i hi => absurd hi (Nat.not_lt_zero i)⟩

theorem conforms_dashed_iff {f l : Text} (h : Text.trim value = "bytes=".toList ++ (f ++ '-' :: l))
    (hcomma : ',' ∉ f ++ '-' :: l) (hdash : '-' ∉ f) (hlen : 0 < len) :
    Conforms (Text.trim value) len (evaluateRange (some value) len) ↔
      PlainSpec (f ++ '-' :: l) len := by
  unfold PlainSpec
  rw [if_neg (Nat.ne_of_gt hlen), evaluateRange_dashed h hcomma hdash]
  by_cases hsome : ∃ r : ByteSpec, r.Resembles (f ++ '-' :: l)
  · obtain ⟨r, hr⟩ := hsome
    have honly : (∀ r' : ByteSpec, r'.Resembles (f ++ '-' :: l) →
        (r'.Spells (f ++ '-' :: l) ↔ r'.Fits)) ↔ (r.Spells (f ++ '-' :: l) ↔ r.Fits) := by
      constructor
      · intro hall
        exact hall r hr
      · intro hone r' hr'
        rw [← hr.functional hr']
        exact hone
    have hspells : (∃ r' : ByteSpec, r'.Spells (f ++ '-' :: l)) → r.Spells (f ++ '-' :: l) := by
      rintro ⟨r', hr'⟩
      rwa [hr.functional hr'.resembles]
    rw [honly]
    by_cases hfits : r.Fits
    · rw [evaluateSpec_of_fits hlen hdash hr hfits, iff_true_right hfits]
      constructor
      · intro hconf
        exact hspells (hconf.spells h (r.outcome_ne_full len))
      · intro hr'
        rw [h]
        exact ByteSpec.outcome_conforms hr' hlen
    · have hnofit : ∀ r' : ByteSpec, r'.Resembles (f ++ '-' :: l) → ¬ r'.Fits := by
        intro r' hr'
        rwa [← hr.functional hr']
      rw [evaluateSpec_eq_full hlen hnofit, conforms_full_iff h, iff_false_right hfits]
      constructor
      · intro hnone
        exact hnone r
      · intro hnot r' hr'
        exact hnot (hspells ⟨r', hr'⟩)
  · have hnone : ∀ r : ByteSpec, ¬ r.Resembles (f ++ '-' :: l) := fun r hr => hsome ⟨r, hr⟩
    rw [evaluateSpec_eq_full hlen fun r hr => absurd hr (hnone r)]
    obtain ⟨hfull, -⟩ := plainSpec_of_not_resembles len h hnone fun hzero => by omega
    exact iff_of_true hfull fun r hr => absurd hr (hnone r)

end

/-- **When a field is answered as RFC 9110 has it**: what follows `bytes=` is written as the
grammar has it exactly when its numbers fit in 64 bits, and against an empty body it is one
specification of the grammar or not a single range at all.  A satisfied range always lies in
the body. -/
theorem range_conforms_iff (value : Text) (len : Nat) :
    (Conforms (Text.trim value) len (evaluateRange (some value) len) ↔
      ∀ spec, Text.trim value = "bytes=".toList ++ spec → PlainSpec spec len) ∧
    ∀ start stop, evaluateRange (some value) len = .satisfied start stop →
      start ≤ stop ∧ stop < len := by
  refine ⟨?_, fun start stop => evaluateRange_satisfied⟩
  by_cases hunit : ∃ spec, Text.trim value = "bytes=".toList ++ spec
  · obtain ⟨spec, h⟩ := hunit
    have honly : (∀ spec', Text.trim value = "bytes=".toList ++ spec' → PlainSpec spec' len) ↔
        PlainSpec spec len := by
      constructor
      · intro hall
        exact hall spec h
      · intro hplain spec' h'
        rwa [← List.append_cancel_left (h.symm.trans h')]
    rw [honly]
    by_cases hcomma : ',' ∈ spec
    · rw [evaluateRange_list h hcomma]
      obtain ⟨hfull, hplain⟩ := plainSpec_of_not_resembles len h
        (fun r hr => hr.comma_not_mem hcomma) fun _ => .inr hcomma
      exact iff_of_true hfull hplain
    · by_cases hdash : '-' ∈ spec
      · obtain ⟨f, l, hf, rfl⟩ := Text.exists_first hdash
        rcases Nat.eq_zero_or_pos len with rfl | hlen
        · exact conforms_empty_iff h hcomma hf
        · exact conforms_dashed_iff h hcomma hf hlen
      · rw [evaluateRange_undashed h hcomma hdash]
        obtain ⟨hfull, hplain⟩ := plainSpec_of_not_resembles len h
          (fun r hr => hdash hr.dash_mem) fun _ => .inl hdash
        exact iff_of_true hfull hplain
  · -- another unit
    have hnone : ∀ spec, Text.trim value ≠ "bytes=".toList ++ spec := fun spec h => hunit ⟨spec, h⟩
    rw [evaluateRange_other hnone]
    exact iff_of_true (fun r spec h => absurd h (hnone spec)) fun spec h => absurd h (hnone spec)

/-- A specification of the grammar is made of digits and a dash. -/
theorem ByteSpec.Spells.chars {r : ByteSpec} (h : r.Spells spec) :
    ∀ c ∈ spec, Text.isAsciiDigit c = true ∨ c = '-' := by
  intro c hc
  cases h with
  | closed hf hl _ =>
    rcases List.mem_append.mp hc with hc | hc
    · exact .inl (Text.isAsciiDigit_of_digits? hf c hc)
    · rcases List.mem_cons.mp hc with hc | hc
      · exact .inr hc
      · exact .inl (Text.isAsciiDigit_of_digits? hl c hc)
  | fromFirst hf =>
    rcases List.mem_append.mp hc with hc | hc
    · exact .inl (Text.isAsciiDigit_of_digits? hf c hc)
    · exact .inr (List.mem_singleton.mp hc)
  | suffix hl =>
    rcases List.mem_cons.mp hc with hc | hc
    · exact .inr hc
    · exact .inl (Text.isAsciiDigit_of_digits? hl c hc)

/-- **Fields answered otherwise**: a last position beyond 64 bits, a `+`, white space inside, and
a field that is no range at all against an empty body. -/
theorem ranges_misread :
    (evaluateRange (some "bytes=0-99999999999999999999".toList) 10 = .full ∧
      ¬ Conforms "bytes=0-99999999999999999999".toList 10 .full) ∧
    (evaluateRange (some "bytes=+2-5".toList) 10 = .satisfied 2 5 ∧
      ¬ Conforms "bytes=+2-5".toList 10 (.satisfied 2 5)) ∧
    (evaluateRange (some "bytes= 2 - 5".toList) 10 = .satisfied 2 5 ∧
      ¬ Conforms "bytes= 2 - 5".toList 10 (.satisfied 2 5)) ∧
    (evaluateRange (some "bytes=abc-def".toList) 0 = .unsatisfiable ∧
      ¬ Conforms "bytes=abc-def".toList 0 .unsatisfiable) := by
  have hstray : ∀ (spec : Text) (c : Char), c ∈ spec → Text.isAsciiDigit c = false → c ≠ '-' →
      ∀ len (o : RangeOutcome), o ≠ .full → ¬ Conforms ("bytes=".toList ++ spec) len o := by
    intro spec c hc hdigit hdash len o ho hconf
    obtain ⟨r, hr⟩ := hconf.spells rfl ho
    rcases hr.chars c hc with h | h
    · rw [hdigit] at h
      cases h
    · exact hdash h
  refine ⟨⟨by decide, ?_⟩, ⟨by decide, ?_⟩, ⟨by decide, ?_⟩,
    ⟨by decide, ?_⟩⟩
  · intro hfull
    have hspells : (ByteSpec.closed 0 99999999999999999999).Spells
        ("0".toList ++ '-' :: "99999999999999999999".toList) :=
      .closed (by decide) (by decide) (by omega)
    exact hfull _ _ rfl hspells
  · exact hstray "+2-5".toList '+' (by decide) (by decide) (by decide) 10 _ (by decide)
  · exact hstray " 2 - 5".toList ' ' (by decide) (by decide) (by decide) 10 _ (by decide)
  · exact hstray "abc-def".toList 'a' (by decide) (by decide) (by decide) 0 _ (by decide)

end SolidServer.Ldp
