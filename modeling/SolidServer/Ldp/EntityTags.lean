import SolidServer.Ldp.Validator

/-!
# Lists of entity tags

The value of `If-Match` and `If-None-Match` as RFC 9110 has it: `*`, or tags separated by
commas with white space and empty elements between them.  A comma may also stand inside a
tag.  `ldp/conditional.rs` splits at every comma; the pieces of a tag that holds one have a
single quote each, so none of them is read as a tag (`tagList_of_count`).

`entityTags_correct` says what the preconditions of writes and reads look at, and
`comma_member_dropped` is a member with the current state that is passed over.
-/

namespace SolidServer.Ldp

open SolidServer.Store

/-! ## §1 Tags and lists -/

/-- White space inside a field. -/
def isOws (c : Char) : Bool := c = ' ' || c = '\t'

/-- A run of white space inside a field. -/
def Ows : Type := { t : Text // t.all isOws = true }

/-- A tag of the grammar. -/
structure EntityTag extends InboundTag where
  wellFormed : opaqueTag.utf8.all isEtagByte = true

/-- An element of a list: a tag or nothing, between white space. -/
structure ListElement where
  front : Ows
  tag : Option EntityTag
  back : Ows

def InboundTag.text (t : InboundTag) : Text :=
  (if t.weak then "W/".toList else []) ++ quoted t.opaqueTag

def ListElement.text (e : ListElement) : Text :=
  e.front.val ++ (e.tag.map fun t => t.text).getD [] ++ e.back.val

/-- The text of a list. -/
def listText : List ListElement → Text
  | [] => []
  | [e] => e.text
  | e :: es => e.text ++ ',' :: listText es

/-- The tags of a list. -/
def members (es : List ListElement) : List InboundTag :=
  es.filterMap fun e => e.tag.map EntityTag.toInboundTag

/-! ## §2 Reading one tag -/

theorem Ows.spaces (w : Ows) : Text.Spaces w.val := by
  intro c hc
  have h := List.all_eq_true.mp w.property c hc
  simp only [isOws, Bool.or_eq_true, decide_eq_true_eq] at h
  rcases h with rfl | rfl <;> decide

theorem Ows.not_mem (w : Ows) {c : Char} (hc : isOws c = false) : c ∉ w.val := by
  intro hmem
  rw [List.all_eq_true.mp w.property c hmem] at hc
  cases hc

theorem EntityTag.quote_not_mem (t : EntityTag) : '"' ∉ t.opaqueTag := by
  intro hmem
  have hbyte : (34 : UInt8) ∈ t.opaqueTag.utf8 :=
    List.mem_flatMap.mpr ⟨'"', hmem, by decide⟩
  have h := List.all_eq_true.mp t.wellFormed 34 hbyte
  revert h
  decide

theorem tight_text (t : InboundTag) : Text.Tight t.text := by
  unfold InboundTag.text quoted
  constructor
  · intro c hc
    split_ifs at hc
    · obtain rfl := Option.some.inj hc
      decide
    · obtain rfl := Option.some.inj hc
      decide
  · intro c hc
    rw [← List.append_assoc] at hc
    obtain rfl := Option.some.inj (List.getLast?_concat.symm.trans hc)
    decide

theorem count_text (t : InboundTag) : 2 ≤ t.text.count '"' := by
  unfold InboundTag.text quoted
  simp only [List.count_append]
  have hquote : "\"".toList.count '"' = 1 := by decide
  omega

/-- **A text is read as a tag** exactly when it is the text of one between white space. -/
theorem parseEntityTag_eq_some {raw : Text} {t : InboundTag} :
    parseEntityTag raw = some t ↔
      Text.trim raw = t.text ∧ t.opaqueTag.utf8.all isEtagByte = true := by
  have hquoted : ∀ (quoted' : Text) (weak : Bool),
      ((Text.stripPrefix? quoted' ['"']).bind fun opened =>
        (Text.stripSuffix? opened ['"']).bind fun inner =>
          if inner.utf8.all isEtagByte = true then some (⟨inner, weak⟩ : InboundTag) else none) =
        some t ↔
      quoted' = quoted t.opaqueTag ∧ t.weak = weak ∧ t.opaqueTag.utf8.all isEtagByte = true := by
    intro quoted' weak
    constructor
    · intro h
      obtain ⟨opened, hopened, h⟩ := Option.bind_eq_some_iff.mp h
      obtain ⟨inner, hinner, h⟩ := Option.bind_eq_some_iff.mp h
      split_ifs at h with hall
      obtain rfl := Option.some.inj h
      rw [Text.stripPrefix?_eq_some.mp hopened, Text.stripSuffix?_eq_some.mp hinner]
      exact ⟨by simp [quoted], rfl, hall⟩
    · rintro ⟨rfl, rfl, hall⟩
      have hopened : Text.stripPrefix? (quoted t.opaqueTag) ['"'] = some (t.opaqueTag ++ ['"']) :=
        Text.stripPrefix?_eq_some.mpr (by simp [quoted])
      have hinner : Text.stripSuffix? (t.opaqueTag ++ ['"']) ['"'] = some t.opaqueTag :=
        Text.stripSuffix?_eq_some.mpr rfl
      simp only [hopened, hinner, Option.bind_some, hall, if_true]
  cases hweak : Text.stripPrefix? (Text.trim raw) "W/".toList with
  | some rest =>
    have hmodel : parseEntityTag raw = some t ↔ rest = quoted t.opaqueTag ∧ t.weak = true ∧
        t.opaqueTag.utf8.all isEtagByte = true := by
      rw [← hquoted rest true]
      simp only [parseEntityTag, hweak]
      rfl
    rw [hmodel, Text.stripPrefix?_eq_some.mp hweak]
    constructor
    · rintro ⟨rfl, hw, hall⟩
      refine ⟨?_, hall⟩
      simp [InboundTag.text, hw]
    · rintro ⟨htext, hall⟩
      cases hw : t.weak with
      | true =>
        simp only [InboundTag.text, hw] at htext
        exact ⟨List.append_cancel_left htext, rfl, hall⟩
      | false =>
        simp [InboundTag.text, hw, quoted] at htext
  | none =>
    have hmodel : parseEntityTag raw = some t ↔ Text.trim raw = quoted t.opaqueTag ∧
        t.weak = false ∧ t.opaqueTag.utf8.all isEtagByte = true := by
      rw [← hquoted (Text.trim raw) false]
      simp only [parseEntityTag, hweak]
      rfl
    rw [hmodel]
    constructor
    · rintro ⟨htrim, hw, hall⟩
      refine ⟨?_, hall⟩
      simp [InboundTag.text, hw, htrim]
    · rintro ⟨htext, hall⟩
      cases hw : t.weak with
      | true =>
        simp only [InboundTag.text, hw] at htext
        cases (Text.stripPrefix?_eq_some.mpr htext).symm.trans hweak
      | false =>
        simp only [InboundTag.text, hw] at htext
        exact ⟨htext, rfl, hall⟩

/-! ## §3 Reading a list -/

theorem tagList_append (a b : Text) : tagList (a ++ ',' :: b) = tagList a ++ tagList b := by
  unfold tagList
  rw [List.splitOn_append_cons_self, List.filterMap_append]

/-- A text with fewer than two quotes holds no tag. -/
theorem tagList_of_count {text : Text} (h : text.count '"' ≤ 1) : tagList text = [] := by
  apply List.filterMap_eq_nil_iff.mpr
  intro piece hpiece
  apply Option.eq_none_iff_forall_ne_some.mpr
  intro t ht
  have htrim := (parseEntityTag_eq_some.mp ht).1
  have hcount : 2 ≤ piece.count '"' := by
    rw [← Text.count_trim (by decide) piece, htrim]
    exact count_text t
  have hle := (Text.sublist_of_mem_splitOn hpiece).count_le '"'
  omega

namespace ListElement

variable (e : ListElement)

theorem text_none (h : e.tag = none) : e.text = e.front.val ++ e.back.val := by
  simp [text, h]

theorem text_some {t : EntityTag} (h : e.tag = some t) :
    e.text = e.front.val ++ t.text ++ e.back.val := by
  simp [text, h]

/-- The tag of an element is read, unless it holds a comma. -/
theorem tagList_text :
    tagList e.text = (e.tag.map EntityTag.toInboundTag).toList.filter fun t =>
      decide (',' ∉ t.opaqueTag) := by
  cases htag : e.tag with
  | none =>
    rw [e.text_none htag]
    have hnone : ∀ w : Ows, w.val.count '"' = 0 := fun w =>
      List.count_eq_zero.mpr (w.not_mem (by decide))
    apply tagList_of_count
    rw [List.count_append, hnone, hnone]
    omega
  | some t =>
    rw [e.text_some htag]
    by_cases hcomma : ',' ∈ t.opaqueTag
    · -- each half of the tag keeps one of its quotes
      obtain ⟨x, y, -, hsame⟩ := Text.exists_first hcomma
      have hquotes : ∀ w : Ows, w.val.count '"' = 0 := fun w =>
        List.count_eq_zero.mpr (w.not_mem (by decide))
      have hinner : x.count '"' = 0 ∧ y.count '"' = 0 := by
        have h := List.count_eq_zero.mpr t.quote_not_mem
        rw [hsame, List.count_append, List.count_cons] at h
        omega
      have hweak : (if t.weak then "W/".toList else []).count '"' = 0 := by
        split_ifs <;> decide
      have htext : e.front.val ++ t.text ++ e.back.val =
          (e.front.val ++ (if t.weak then "W/".toList else []) ++ '"' :: x) ++
            ',' :: (y ++ '"' :: e.back.val) := by
        simp [InboundTag.text, quoted, hsame]
      rw [htext, tagList_append, tagList_of_count, tagList_of_count]
      · simp [hcomma]
      · rw [List.count_append, List.count_cons_self, hinner.2, hquotes]
      · rw [List.count_append, List.count_append, List.count_cons_self, hquotes, hweak, hinner.1]
    · have hnot : ',' ∉ e.front.val ++ t.text ++ e.back.val := by
        have hweak : ',' ∉ (if t.weak then "W/".toList else []) := by
          split_ifs <;> decide
        have hquote : ',' ∉ "\"".toList := by decide
        simp only [InboundTag.text, quoted, List.mem_append, not_or]
        exact ⟨⟨e.front.not_mem (by decide), hweak, ⟨hquote, hcomma⟩, hquote⟩,
          e.back.not_mem (by decide)⟩
      have hparse : parseEntityTag (e.front.val ++ t.text ++ e.back.val) = some t.toInboundTag := by
        apply parseEntityTag_eq_some.mpr
        rw [Text.trim_padded e.front.spaces e.back.spaces, (tight_text _).trim]
        exact ⟨rfl, t.wellFormed⟩
      unfold tagList
      rw [List.splitOn_eq_singleton hnot, List.filterMap_cons_some hparse]
      simp [hcomma]

end ListElement

/-- **What a list yields**: its tags without a comma, in their order. -/
theorem tagList_listText (es : List ListElement) :
    tagList (listText es) = (members es).filter fun t => decide (',' ∉ t.opaqueTag) := by
  have hcons : ∀ (e : ListElement) (es : List ListElement),
      members (e :: es) = (e.tag.map EntityTag.toInboundTag).toList ++ members es := by
    intro e es
    unfold members
    rw [List.filterMap_cons]
    cases e.tag <;> rfl
  induction es with
  | nil => rfl
  | cons e es ih =>
    rw [hcons, List.filter_append, ← e.tagList_text]
    cases es with
    | nil => exact (List.append_nil _).symm
    | cons e' es =>
      rw [← ih]
      exact tagList_append _ _

/-- A list is no wildcard. -/
theorem isWildcard_listText (es : List ListElement) : isWildcard (listText es) = false := by
  have hstar : ∀ es : List ListElement, '*' ∈ listText es → '"' ∈ listText es := by
    have helement : ∀ e : ListElement, '*' ∈ e.text → '"' ∈ e.text := by
      intro e hmem
      cases htag : e.tag with
      | none =>
        rw [e.text_none htag] at hmem
        rcases List.mem_append.mp hmem with h | h
        · exact absurd h (e.front.not_mem (by decide))
        · exact absurd h (e.back.not_mem (by decide))
      | some t =>
        rw [e.text_some htag]
        simp [InboundTag.text, quoted]
    intro es
    induction es with
    | nil =>
      intro h
      cases h
    | cons e es ih =>
      cases es with
      | nil => exact helement e
      | cons e' es =>
        intro h
        rcases List.mem_append.mp h with h | h
        · exact List.mem_append_left _ (helement e h)
        · rcases List.mem_cons.mp h with h | h
          · cases h
          · exact List.mem_append_right _ (List.mem_cons_of_mem _ (ih h))
  apply decide_eq_false
  intro htrim
  have hmem : '"' ∈ Text.trim (listText es) := by
    apply Text.mem_trim _ (by decide)
    apply hstar
    apply Text.mem_of_mem_trim
    rw [htrim]
    decide
  rw [htrim] at hmem
  revert hmem
  decide

/-! ## §4 The tags the server writes -/

/-- A tag of the server: of stored bytes, of a rendered listing, or of stored bytes in another
format. -/
inductive MintedTag where
  | stored (body : Bytes)
  | rendered (body : Bytes)
  | variant (body : Bytes) (format : RdfFormat)

namespace MintedTag

def text : MintedTag → Text
  | .stored body => etagFor body
  | .rendered body => LdpState.representationEtag body
  | .variant body format => variantEtag (etagFor body) (LdpState.variantSuffix format)

/-- The text between the quotes. -/
def inner : MintedTag → Text
  | .stored body => storedText body
  | .rendered body => renderedText body
  | .variant body format => variantText body (some format)

/-- The part of the tag that stands for the state. -/
def state : MintedTag → Text
  | .stored body => storedText body
  | .rendered body => renderedText body
  | .variant body _ => storedText body

variable (m : MintedTag)

theorem text_eq : m.text = quoted m.inner := by
  cases m with
  | stored body => exact etagFor_eq body
  | rendered body => exact representationEtag_eq body
  | variant body format =>
    show variantEtag (etagFor body) _ = _
    rw [etagFor_eq, variantEtag_quoted]
    rfl

theorem isTagChar_inner : m.inner.all isTagChar = true := by
  cases m with
  | stored body => exact isTagChar_storedText body
  | rendered body => exact isTagChar_renderedText body
  | variant body format => exact isTagChar_variantText body (some format)

theorem statePart_inner : statePart m.inner = m.state := by
  cases m with
  | stored body => exact statePart_plain (plus_not_mem_storedText body)
  | rendered body => exact statePart_plain (plus_not_mem_renderedText body)
  | variant body format => exact statePart_variantText body (some format)

theorem plus_not_mem_state : '+' ∉ m.state := by
  cases m with
  | stored body => exact plus_not_mem_storedText body
  | rendered body => exact plus_not_mem_renderedText body
  | variant body format => exact plus_not_mem_storedText body

/-- The inner text is the state, or the state with a variant. -/
theorem inner_cases : m.inner = m.state ∨ ∃ v, m.inner = m.state ++ "+".toList ++ v := by
  cases m with
  | stored body => exact .inl rfl
  | rendered body => exact .inl rfl
  | variant body format => exact .inr ⟨_, rfl⟩

theorem parseCurrent_text : parseCurrent m.text = some m.inner := by
  rw [m.text_eq]
  exact parseCurrent_quoted m.isTagChar_inner

theorem comma_not_mem_inner : ',' ∉ m.inner := by
  intro hmem
  exact (toNat_of_isTagChar (List.all_eq_true.mp m.isTagChar_inner ',' hmem)).2.2 rfl

/-- **A variant keeps the state.** -/
theorem statePart_variantEtag (v : Text) :
    ∃ inner, variantEtag m.text v = quoted inner ∧ statePart inner = m.state := by
  refine ⟨m.inner ++ "+".toList ++ v, ?_, ?_⟩
  · rw [m.text_eq, variantEtag_quoted]
  · rcases m.inner_cases with h | ⟨w, h⟩
    · rw [h]
      exact statePart_variant m.plus_not_mem_state v
    · rw [h, List.append_assoc, List.append_assoc]
      exact statePart_variant m.plus_not_mem_state _

end MintedTag

/-! ## §5 Preconditions -/

/-- The value of a condition field. -/
inductive ConditionField where
  | any (front back : Ows)
  | tags (es : List ListElement)

namespace ConditionField

def text : ConditionField → Text
  | .any front back => front.val ++ "*".toList ++ back.val
  | .tags es => listText es

/-- The field selects the current state by a member that passes a test; a comma in a member takes
it out of the list. -/
def Names (p : InboundTag → Prop) (current : Option MintedTag) : ConditionField → Prop
  | .any _ _ => current.isSome = true
  | .tags es => ∃ m, current = some m ∧ ∃ t ∈ members es, ',' ∉ t.opaqueTag ∧ p t ∧
      statePart t.opaqueTag = m.state

/-- The field names the representation itself. -/
def Holds (current : MintedTag) : ConditionField → Prop
  | .any _ _ => True
  | .tags es => ∃ t ∈ members es, t.opaqueTag = current.inner

theorem isWildcard_any (front back : Ows) : isWildcard (ConditionField.any front back).text = true := by
  have htrim : Text.trim (front.val ++ "*".toList ++ back.val) = "*".toList := by
    rw [Text.trim_padded front.spaces back.spaces]
    rfl
  exact decide_eq_true htrim

theorem mem_tagList_listText {es : List ListElement} {t : InboundTag} :
    t ∈ tagList (listText es) ↔ t ∈ members es ∧ ',' ∉ t.opaqueTag := by
  rw [tagList_listText, List.mem_filter, decide_eq_true_iff]

theorem selects_iff (f : ConditionField) (current : Option MintedTag)
    {test : InboundTag → Text → Bool} {p : InboundTag → Prop}
    (htest : ∀ t (m : MintedTag), test t m.text = true ↔ p t ∧ statePart t.opaqueTag = m.state) :
    selects f.text (current.map MintedTag.text) test = true ↔ f.Names p current := by
  unfold selects
  cases f with
  | any front back =>
    rw [if_pos (isWildcard_any front back), Option.isSome_map]
    rfl
  | tags es =>
    have hnot : ¬ isWildcard (ConditionField.tags es).text = true := by
      rw [Bool.not_eq_true]
      exact isWildcard_listText es
    rw [if_neg hnot]
    cases current with
    | none =>
      constructor
      · intro h
        cases h
      · rintro ⟨m, h, -⟩
        cases h
    | some m =>
      simp only [Option.map_some, List.any_eq_true]
      constructor
      · rintro ⟨t, ht, hpass⟩
        obtain ⟨hmem, hcomma⟩ := mem_tagList_listText.mp ht
        exact ⟨m, rfl, t, hmem, hcomma, (htest t m).mp hpass⟩
      · rintro ⟨m', hm, t, hmem, hcomma, hpass⟩
        obtain rfl := Option.some.inj hm
        exact ⟨t, mem_tagList_listText.mpr ⟨hmem, hcomma⟩, (htest t m).mpr hpass⟩

end ConditionField

theorem matchesWeakState_iff (t : InboundTag) (m : MintedTag) :
    t.matchesWeakState m.text = true ↔ True ∧ statePart t.opaqueTag = m.state := by
  rw [InboundTag.matchesWeakState, m.parseCurrent_text, true_and, ← m.statePart_inner]
  exact decide_eq_true_iff

theorem matchesStrongState_iff (t : InboundTag) (m : MintedTag) :
    t.matchesStrongState m.text = true ↔ t.weak = false ∧ statePart t.opaqueTag = m.state := by
  unfold InboundTag.matchesStrongState
  cases hweak : t.weak with
  | true => simp
  | false =>
    rw [if_neg Bool.false_ne_true, matchesWeakState_iff]
    simp

theorem evaluate_iff (im inm : Option ConditionField) (current : Option MintedTag) :
    evaluate (im.map ConditionField.text) (inm.map ConditionField.text)
        (current.map MintedTag.text) = .proceed ↔
      (∀ f, im = some f → f.Names (fun t => t.weak = false) current) ∧
        ∀ f, inm = some f → ¬ f.Names (fun _ => True) current := by
  have hstrong := fun f : ConditionField => f.selects_iff current matchesStrongState_iff
  have hweak := fun f : ConditionField => f.selects_iff current matchesWeakState_iff
  have hmatch : ((im.map ConditionField.text).elim true fun t =>
      selects t (current.map MintedTag.text) InboundTag.matchesStrongState) = true ↔
        ∀ f, im = some f → f.Names (fun t => t.weak = false) current := by
    cases im with
    | none => simp
    | some f => simpa using hstrong f
  have hnone : ((inm.map ConditionField.text).elim false fun t =>
      selects t (current.map MintedTag.text) InboundTag.matchesWeakState) = true ↔
        ¬ ∀ f, inm = some f → ¬ f.Names (fun _ => True) current := by
    cases inm with
    | none => simp
    | some f => simpa using hweak f
  have hdecide : ∀ a b : Bool, (if (!a) = true then Precondition.failed
      else if b = true then .failed else .proceed) = .proceed ↔ a = true ∧ ¬ b = true := by decide
  rw [← hmatch, ← not_not (a := ∀ f, inm = some f → _), ← hnone]
  refine Iff.trans ?_ (hdecide _ _)
  cases im <;> cases inm <;> rfl

theorem evaluateRead_iff (f : ConditionField) (ims : Option Text) (current : MintedTag)
    (lm : Option SystemTime) :
    evaluateRead (some f.text) ims current.text lm = .notModified ↔ f.Holds current := by
  have hcond : (isWildcard f.text ||
      (tagList f.text).any fun t => t.matchesWeak current.text) = true ↔ f.Holds current := by
    cases f with
    | any front back =>
      rw [ConditionField.isWildcard_any]
      exact iff_of_true rfl trivial
    | tags es =>
      show (isWildcard (listText es) || (tagList (listText es)).any _) = true ↔ _
      rw [isWildcard_listText, Bool.false_or, List.any_eq_true]
      have htest : ∀ t : InboundTag, t.matchesWeak current.text = true ↔
          t.opaqueTag = current.inner := by
        intro t
        rw [InboundTag.matchesWeak, current.parseCurrent_text]
        exact decide_eq_true_iff
      constructor
      · rintro ⟨t, ht, hpass⟩
        exact ⟨t, (ConditionField.mem_tagList_listText.mp ht).1, (htest t).mp hpass⟩
      · rintro ⟨t, hmem, hsame⟩
        -- the server's tags hold no comma, so the member is in the list
        have hcomma : ',' ∉ t.opaqueTag := by
          rw [hsame]
          exact current.comma_not_mem_inner
        exact ⟨t, ConditionField.mem_tagList_listText.mpr ⟨hmem, hcomma⟩, (htest t).mpr hsame⟩
  rw [← hcond]
  unfold evaluateRead
  simp only
  split_ifs with h
  · simp [h]
  · simp [h]

/-- A tag of an arbitrary value comes from a part between commas that is its text. -/
theorem mem_tagList_iff {header : Text} {t : InboundTag} :
    t ∈ tagList header ↔ ∃ part ∈ header.splitOn ',', ∃ e : EntityTag,
      e.toInboundTag = t ∧ Text.trim part = e.text := by
  unfold tagList
  rw [List.mem_filterMap]
  constructor
  · rintro ⟨part, hpart, hparse⟩
    obtain ⟨htrim, hall⟩ := parseEntityTag_eq_some.mp hparse
    exact ⟨part, hpart, ⟨t, hall⟩, rfl, htrim⟩
  · rintro ⟨part, hpart, e, rfl, htrim⟩
    exact ⟨part, hpart, parseEntityTag_eq_some.mpr ⟨htrim, e.wellFormed⟩⟩

/-- **Entity tags in conditions.**  A list yields its members without a comma.  A write proceeds
when `If-Match` is a wildcard on an existing target or has such a strong member with the current
state, and `If-None-Match` is no wildcard on an existing target and has no such member with the
current state.  A read is answered 304 on a wildcard or a member that is the current tag.  In any
text at all only the parts between commas that are well-formed tags count, and a variant of a
tag keeps its state. -/
theorem entityTags_correct :
    (∀ es, tagList (listText es) = (members es).filter fun t => decide (',' ∉ t.opaqueTag)) ∧
    (∀ (im inm : Option ConditionField) (current : Option MintedTag),
      evaluate (im.map ConditionField.text) (inm.map ConditionField.text)
          (current.map MintedTag.text) = .proceed ↔
        (∀ f, im = some f → f.Names (fun t => t.weak = false) current) ∧
          ∀ f, inm = some f → ¬ f.Names (fun _ => True) current) ∧
    (∀ (f : ConditionField) (ims : Option Text) (current : MintedTag) (lm : Option SystemTime),
      evaluateRead (some f.text) ims current.text lm = .notModified ↔ f.Holds current) ∧
    (∀ (header : Text) (t : InboundTag), t ∈ tagList header ↔
      ∃ part ∈ header.splitOn ',', ∃ e : EntityTag,
        e.toInboundTag = t ∧ Text.trim part = e.text) ∧
    ∀ (m : MintedTag) (v : Text),
      ∃ inner, variantEtag m.text v = quoted inner ∧ statePart inner = m.state := by
  refine ⟨tagList_listText, evaluate_iff, evaluateRead_iff, fun header t => mem_tagList_iff, ?_⟩
  intro m v
  exact m.statePart_variantEtag v

/-- A tag with the state of the empty body and a variant that holds a comma. -/
def commaTag : EntityTag :=
  ⟨⟨storedText [] ++ "+a,b".toList, false⟩, by decide⟩

/-- **A member with the current state is passed over** when its variant holds a comma. -/
theorem comma_member_dropped :
    let es := [(⟨⟨[], rfl⟩, some commaTag, ⟨[], rfl⟩⟩ : ListElement)]
    commaTag.toInboundTag ∈ members es ∧ commaTag.weak = false ∧
      statePart commaTag.opaqueTag = (MintedTag.stored []).state ∧
      evaluate (some (listText es)) none (some (MintedTag.stored []).text) = .failed := by
  refine ⟨List.mem_singleton.mpr rfl, rfl, ?_, ?_⟩
  · decide
  · decide

end SolidServer.Ldp
