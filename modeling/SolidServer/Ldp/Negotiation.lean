import Mathlib.Tactic.Positivity
import SolidServer.Ldp.NotModified

/-!
# Content negotiation

`negotiate_accept` goes over the elements of an `Accept` header once and keeps the largest weight
of five media ranges.  Stated without the slots: a format weighs what the most specific range that
names it is listed with, and the heavier format is served, the stored one on a tie.
-/

namespace SolidServer.Ldp

/-! ## §1 Weights -/

/-- The media ranges that cover a format, the most specific one first. -/
def mediaRanges : RdfFormat → List Text
  | .turtle => ["text/turtle".toList, "text/*".toList, "*/*".toList]
  | .jsonLd => ["application/ld+json".toList, "application/*".toList, "*/*".toList]

/-- The largest weight a media range is listed with. -/
def listedWeight (elems : List (Text × ℚ)) (media : Text) : Option ℚ :=
  ((elems.filter fun e => e.1 = media).map Prod.snd).max?

/-- **The effective weight of a format**: that of the most specific range listed. -/
def effectiveWeight (raw : Text) (f : RdfFormat) : ℚ :=
  ((mediaRanges f).findSome? (listedWeight ((raw.splitOn ',').map acceptElement))).getD 0

theorem parseMagnitude?_nonneg {v : Text} {m : ℚ} (h : parseMagnitude? v = some m) : 0 ≤ m := by
  unfold parseMagnitude? at h
  dsimp only at h
  split_ifs at h
  obtain ⟨e, -, rfl⟩ := Option.map_eq_some_iff.mp h
  split_ifs <;> positivity

theorem parseWeight_mem (v : Text) : 0 ≤ parseWeight v ∧ parseWeight v ≤ 1 := by
  have hzero : (0 : ℚ) ≤ 0 ∧ (0 : ℚ) ≤ 1 := ⟨le_rfl, zero_le_one⟩
  unfold parseWeight
  dsimp only
  split_ifs
  · exact hzero
  · exact ⟨zero_le_one, le_rfl⟩
  · split <;> exact hzero
  · split
    · exact hzero
    · next m hm => exact ⟨le_min (parseMagnitude?_nonneg hm) zero_le_one, min_le_right _ _⟩

/-- Every weight is between 0 and 1. -/
theorem acceptElement_mem (part : Text) :
    0 ≤ (acceptElement part).2 ∧ (acceptElement part).2 ≤ 1 := by
  unfold acceptElement
  split
  · exact ⟨zero_le_one, le_rfl⟩
  · next params _ =>
    refine List.foldlRecOn (motive := fun q => 0 ≤ q ∧ q ≤ 1) params _ ⟨zero_le_one, le_rfl⟩ ?_
    intro q hq param _
    dsimp only
    split
    · exact parseWeight_mem _
    · exact hq

/-- **The slots.**  The largest weight kept on the way is the largest one listed. -/
theorem rangeWeight_eq {elems : List (Text × ℚ)} (hpos : ∀ e ∈ elems, 0 ≤ e.2) (media : Text) :
    rangeWeight elems media = listedWeight elems media := by
  unfold rangeWeight listedWeight
  -- from the first listing on, a slot holds the largest weight so far
  have hslot : ∀ (elems : List (Text × ℚ)) (a : ℚ),
      elems.foldl (fun slot e => if e.1 = media then some (max (slot.getD 0) e.2) else slot)
        (some a) = some (((elems.filter fun e => e.1 = media).map Prod.snd).foldl max a) := by
    intro elems
    induction elems with
    | nil => exact fun a => rfl
    | cons e elems ih =>
      intro a
      by_cases he : e.1 = media <;> simp [he, ih]
  induction elems with
  | nil => rfl
  | cons e elems ih =>
    by_cases he : e.1 = media
    · rw [List.foldl_cons, if_pos he, hslot, List.filter_cons_of_pos (by simpa using he),
        List.map_cons, List.max?_cons', Option.getD_none, max_eq_right (hpos e List.mem_cons_self)]
    · rw [List.foldl_cons, if_neg he, List.filter_cons_of_neg (by simpa using he)]
      exact ih fun e' he' => hpos e' (List.mem_cons_of_mem _ he')

theorem effectiveWeight_nonneg (raw : Text) (f : RdfFormat) : 0 ≤ effectiveWeight raw f := by
  unfold effectiveWeight
  cases hfound : (mediaRanges f).findSome? (listedWeight ((raw.splitOn ',').map acceptElement)) with
  | none => exact le_rfl
  | some q =>
    obtain ⟨media, -, hq⟩ := List.exists_of_findSome?_eq_some hfound
    obtain ⟨e, he, rfl⟩ := List.mem_map.mp (List.max?_mem hq)
    obtain ⟨part, -, rfl⟩ := List.mem_map.mp (List.mem_filter.mp he).1
    exact (acceptElement_mem part).1

/-- The format that is not the stored one. -/
def otherFormat : RdfFormat → RdfFormat
  | .turtle => .jsonLd
  | .jsonLd => .turtle

/-- `negotiate_accept` by the effective weights. -/
theorem negotiateAccept_eq {raw : Text} (hraw : Text.trim raw ≠ []) (stored : RdfFormat) :
    negotiateAccept (some raw) stored =
      if effectiveWeight raw stored ≤ 0 ∧ effectiveWeight raw (otherFormat stored) ≤ 0 then none
      else if effectiveWeight raw (otherFormat stored) ≤ effectiveWeight raw stored then some stored
      else some (otherFormat stored) := by
  have hpos : ∀ e ∈ (raw.splitOn ',').map acceptElement, 0 ≤ e.2 := by
    intro e he
    obtain ⟨part, -, rfl⟩ := List.mem_map.mp he
    exact (acceptElement_mem part).1
  have hweight : ∀ a b c : Text, (((listedWeight ((raw.splitOn ',').map acceptElement) a).or
      (listedWeight ((raw.splitOn ',').map acceptElement) b)).or
      (listedWeight ((raw.splitOn ',').map acceptElement) c)).getD 0 =
      ([a, b, c].findSome? (listedWeight ((raw.splitOn ',').map acceptElement))).getD 0 := by
    intro a b c
    simp only [List.findSome?_cons]
    cases listedWeight ((raw.splitOn ',').map acceptElement) a <;>
      cases listedWeight ((raw.splitOn ',').map acceptElement) b <;>
      cases listedWeight ((raw.splitOn ',').map acceptElement) c <;> rfl
  unfold negotiateAccept
  simp only [if_neg hraw, rangeWeight_eq hpos, hweight]
  cases stored with
  | turtle => rfl
  | jsonLd =>
    show (if effectiveWeight raw .turtle ≤ 0 ∧ effectiveWeight raw .jsonLd ≤ 0 then
        (none : Option RdfFormat)
      else if effectiveWeight raw .turtle ≤ effectiveWeight raw .jsonLd then some .jsonLd
      else if effectiveWeight raw .jsonLd ≤ effectiveWeight raw .turtle then some .turtle
      else some .jsonLd) = _
    refine if_congr and_comm rfl ?_
    -- of two weights one is at most the other
    by_cases hle : effectiveWeight raw .turtle ≤ effectiveWeight raw .jsonLd
    · exact (if_pos hle).trans (if_pos hle).symm
    · rw [if_neg hle, if_pos (le_of_not_ge hle)]
      exact (if_neg hle).symm

/-! ## §2 The validator and the body -/

/-- A tag, marked with the format a document is converted to. -/
def markedTag (etag : Text) : Option RdfFormat → Text
  | none => etag
  | some f => variantEtag etag (LdpState.variantSuffix f)

/-- **One decision.**  Validator and body are both refused, or both follow the conversion. -/
theorem validator_body (contentType : Text) (accept : Option Text) :
    ((∀ etag, LdpState.negotiatedValidator etag contentType accept = .error .notAcceptable) ∧
      ∀ (s : LdpState) body base,
        s.negotiateBody body contentType accept base = .error .notAcceptable) ∨
    ((∀ etag, LdpState.negotiatedValidator etag contentType accept =
        .ok (markedTag etag (LdpState.conversion contentType accept))) ∧
      ∀ (s : LdpState) body base, s.negotiateBody body contentType accept base =
        s.convert body contentType (LdpState.conversion contentType accept) base) := by
  cases hc : classify (some contentType) with
  | error e =>
    right
    simp only [LdpState.conversion_of_error hc, LdpState.negotiatedValidator,
      LdpState.negotiateBody, hc]
    exact ⟨fun _ => rfl, fun _ _ _ => rfl⟩
  | ok stored =>
    have hstored : storedFormat contentType = stored := by rw [storedFormat, hc]
    cases hn : negotiateAccept accept stored with
    | none =>
      left
      simp only [LdpState.negotiatedValidator, LdpState.negotiateBody, LdpState.negotiate, hc, hn]
      exact ⟨fun _ => rfl, fun _ _ _ => rfl⟩
    | some chosen =>
      right
      simp only [LdpState.conversion_of_ok hc hn, LdpState.negotiatedValidator,
        LdpState.negotiateBody, LdpState.negotiate, hc, hn, LdpState.convert, hstored]
      by_cases heq : chosen = stored
      · rw [if_pos heq]
        exact ⟨fun _ => congrArg Except.ok (if_pos heq), fun _ _ _ => if_pos heq⟩
      · rw [if_neg heq]
        exact ⟨fun _ => congrArg Except.ok (if_neg heq), fun _ _ _ => if_neg heq⟩

end SolidServer.Ldp
