import SolidServer.Ldp.Precondition

/-!
# The validator a read carries

The entity tag of a read comes from three places: the stored tag, the stored tag with the
name of the negotiated format, and the hash of a rendered listing.  All three are quoted
texts of letters, digits, `-` and `+`, so they pass through a header unchanged and are
parsed back as the strong tag they were written as.

A read is split into the selection of a representation, which runs against the store
(`select`), and the answer made of it, which does not (`answer`).  What a read answers is
then a statement about the selection.
-/

namespace SolidServer

/-! ## §1 Visible texts -/

/-- A text of visible ASCII characters. -/
def Text.Visible (t : Text) : Prop := ∀ c ∈ t, 32 ≤ c.toNat ∧ c.toNat < 127

theorem Text.Visible.utf8 {t : Text} (h : t.Visible) :
    t.utf8 = t.map fun c => UInt8.ofNat c.toNat := by
  induction t with
  | nil => rfl
  | cons c t ih =>
    obtain ⟨hc, ht⟩ := List.forall_mem_cons.mp h
    have hone : String.utf8EncodeChar c = [UInt8.ofNat c.toNat] := by
      unfold String.utf8EncodeChar
      have : c.val.toNat ≤ 127 := Nat.le_of_lt hc.2
      simp only [this]
      rfl
    show String.utf8EncodeChar c ++ Text.utf8 t = _
    rw [hone, ih ht]
    rfl

theorem Text.Visible.toNat_byte {c : Char} (h : c.toNat < 127) :
    (UInt8.ofNat c.toNat).toNat = c.toNat := by
  simp only [UInt8.toNat_ofNat']
  omega

/-- **A visible text passes through a header unchanged.** -/
theorem Text.Visible.header {t : Text} (h : t.Visible) :
    ∃ v, HeaderValue.fromStr? t = some v ∧ v.toStr? = some t := by
  have hbytes : ∀ b ∈ t.utf8, 32 ≤ b.toNat ∧ b.toNat < 127 := by
    rw [h.utf8]
    intro b hb
    obtain ⟨c, hc, rfl⟩ := List.mem_map.mp hb
    rw [toNat_byte (h c hc).2]
    exact h c hc
  have hvalid : t.utf8.all isHeaderByte = true := by
    rw [List.all_eq_true]
    intro b hb
    obtain ⟨hlo, hhi⟩ := hbytes b hb
    simp only [isHeaderByte, Bool.or_eq_true, Bool.and_eq_true, decide_eq_true_eq, bne_iff_ne]
    exact .inl ⟨hlo, by omega⟩
  have hascii : t.utf8.all isVisibleAscii = true := by
    rw [List.all_eq_true]
    intro b hb
    obtain ⟨hlo, hhi⟩ := hbytes b hb
    simp [isVisibleAscii, hlo, hhi]
  refine ⟨⟨t.utf8, hvalid⟩, by simp [HeaderValue.fromStr?, hvalid], ?_⟩
  have hback : (t.utf8.map fun b => Char.ofNat b.toNat) = t := by
    rw [h.utf8, List.map_map]
    conv_rhs => rw [← List.map_id t]
    refine List.map_congr_left fun c hc => ?_
    simp only [Function.comp_apply, toNat_byte (h c hc).2]
    exact Char.ofNat_toNat c
  simp only [HeaderValue.toStr?, hascii, if_true, hback]

/-! ## §2 Lines of a header map -/

namespace HeaderMap

variable (h : HeaderMap) {n k : HeaderName} (t : Text)

/-- The first line of a name among the lines whose names pass a test. -/
theorem get_filter (p : HeaderName → Bool) (k : HeaderName) :
    get (h.filter fun l => p l.1) k = if p k then h.get k else none := by
  unfold get
  rw [List.find?_filter]
  by_cases hp : p k = true
  · rw [if_pos hp]
    congr 2
    funext l
    by_cases hl : l.1 = k
    · simp [hl, hp]
    · simp [hl]
  · rw [if_neg hp, Option.map_eq_none_iff, List.find?_eq_none]
    intro l _ hl
    simp only [decide_eq_true_eq] at hl
    exact hp (hl.2 ▸ hl.1)

theorem get_concat (a b : HeaderMap) : get (a ++ b) k = (a.get k).or (b.get k) := by
  unfold get
  rw [List.find?_append]
  cases List.find? (fun l => decide (l.1 = k)) a <;> simp

@[simp] theorem get_setStr_ne (hne : k ≠ n) : (h.setStr n t).get k = h.get k := by
  unfold setStr
  cases HeaderValue.fromStr? t with
  | none => rfl
  | some v =>
    show get (h.filter (fun l => decide (l.1 ≠ n)) ++ [(n, v)]) k = h.get k
    rw [get_concat, get_filter h (fun m => decide (m ≠ n)), if_pos (decide_eq_true hne)]
    simp [get, hne.symm]

@[simp] theorem get_appendStr_ne (hne : k ≠ n) : (h.appendStr n t).get k = h.get k := by
  unfold appendStr
  cases HeaderValue.fromStr? t with
  | none => rfl
  | some v =>
    show get (h ++ [(n, v)]) k = h.get k
    simp [get, hne.symm]

theorem get_setStr {v : HeaderValue} (hv : HeaderValue.fromStr? t = some v) :
    (h.setStr n t).get n = some v := by
  unfold setStr
  rw [hv]
  show get (h.filter (fun l => decide (l.1 ≠ n)) ++ [(n, v)]) n = some v
  rw [get_concat, get_filter h (fun m => decide (m ≠ n))]
  simp [get]

theorem get_extend (k : HeaderMap) (n : HeaderName) :
    (h.extend k).get n = (k.get n).or (h.get n) := by
  unfold extend
  rw [get_concat, get_filter h (fun m => (k.get m).isNone)]
  cases k.get n <;> simp

end HeaderMap

namespace Ldp

open SolidServer.Effects SolidServer.Store SolidServer.Authz

/-! ## §3 The texts of entity tags -/

/-- The characters of the tags the server writes: digits, lower-case letters, `-` and `+`. -/
def isTagChar (c : Char) : Bool :=
  c.toNat == 43 || c.toNat == 45 || (48 ≤ c.toNat && c.toNat ≤ 57) ||
    (97 ≤ c.toNat && c.toNat ≤ 122)

/-- A text between quotes. -/
def quoted (t : Text) : Text := "\"".toList ++ t ++ "\"".toList

section
variable {t u : Text}

theorem toNat_of_isTagChar {c : Char} (h : isTagChar c = true) :
    43 ≤ c.toNat ∧ c.toNat ≤ 122 ∧ c.toNat ≠ 44 := by
  simp only [isTagChar, Bool.or_eq_true, Bool.and_eq_true, beq_iff_eq, decide_eq_true_eq] at h
  omega

theorem visible_quoted (ht : t.all isTagChar = true) : (quoted t).Visible := by
  intro c hc
  have hquote : c ∈ "\"".toList → 32 ≤ c.toNat ∧ c.toNat < 127 := by
    intro h
    obtain rfl := List.mem_singleton.mp h
    decide
  simp only [quoted, List.mem_append] at hc
  rcases hc with (hc | hc) | hc
  · exact hquote hc
  · have := toNat_of_isTagChar (List.all_eq_true.mp ht c hc)
    omega
  · exact hquote hc

theorem trim_quoted (t : Text) : Text.trim (quoted t) = quoted t := by
  have hstart : Text.trimStart (quoted t) = quoted t := rfl
  unfold Text.trim
  rw [hstart]
  exact List.rdropWhile_concat_neg _ _ _ (by decide)

/-- **A tag is parsed back as it was written.** -/
theorem parseEntityTag_quoted (ht : t.all isTagChar = true) :
    parseEntityTag (quoted t) = some ⟨t, false⟩ := by
  have hweak : Text.stripPrefix? (quoted t) "W/".toList = none := rfl
  have hopened : Text.stripPrefix? (quoted t) ['"'] = some (t ++ ['"']) := by
    have : quoted t = ['"'] ++ (t ++ ['"']) := by simp [quoted]
    rw [this, Text.stripPrefix?_append]
  have hinner : Text.stripSuffix? (t ++ ['"']) ['"'] = some t := by
    simp [Text.stripSuffix?]
  have hbytes : t.utf8.all isEtagByte = true := by
    have hvisible : t.Visible := fun c hc => visible_quoted ht c (by simp [quoted, hc])
    rw [hvisible.utf8, List.all_map, List.all_eq_true]
    intro c hc
    have hbounds := toNat_of_isTagChar (List.all_eq_true.mp ht c hc)
    simp only [Function.comp_apply, isEtagByte, Text.Visible.toNat_byte (hvisible c hc).2,
      Bool.or_eq_true, Bool.and_eq_true, decide_eq_true_eq]
    exact .inl (.inr ⟨by omega, by omega⟩)
  unfold parseEntityTag
  simp only [trim_quoted, hweak, hopened, Option.bind_eq_bind, Option.bind_some, hinner, hbytes,
    if_true]

theorem parseCurrent_quoted (ht : t.all isTagChar = true) : parseCurrent (quoted t) = some t := by
  simp [parseCurrent, parseEntityTag_quoted ht]

/-- As a header value a tag is a list of one member, and no wildcard. -/
theorem tagList_quoted (ht : t.all isTagChar = true) : tagList (quoted t) = [⟨t, false⟩] := by
  have hcomma : ',' ∉ quoted t := by
    intro h
    simp only [quoted, List.mem_append] at h
    rcases h with (h | h) | h
    · revert h
      decide
    · exact (toNat_of_isTagChar (List.all_eq_true.mp ht ',' h)).2.2 rfl
    · revert h
      decide
  unfold tagList
  rw [List.splitOn_eq_singleton hcomma]
  simp [parseEntityTag_quoted ht]

theorem isWildcard_quoted (t : Text) : isWildcard (quoted t) = false := by
  unfold isWildcard
  rw [trim_quoted]
  rfl

theorem variantEtag_quoted (t v : Text) :
    variantEtag (quoted t) v = quoted (t ++ "+".toList ++ v) := by
  have hstrip : Text.stripSuffix? (quoted t) ['"'] = some ('"' :: t) := by
    simp [Text.stripSuffix?, quoted]
  unfold variantEtag
  rw [hstrip]
  simp [quoted]

theorem statePart_plain (h : '+' ∉ t) : statePart t = t := by
  simp [statePart, Text.splitOnce, h]

theorem statePart_variant (h : '+' ∉ t) (v : Text) : statePart (t ++ "+".toList ++ v) = t := by
  have htake : (t ++ ('+' :: v)).takeWhile (· != '+') = t := by
    rw [List.takeWhile_append_of_pos]
    · simp
    · intro c hc
      simpa using fun e : c = '+' => h (e ▸ hc)
  simp [statePart, Text.splitOnce, htake]

theorem quoted_injective (h : quoted t = quoted u) : t = u := by
  simpa [quoted] using h

end

/-! ## §4 The tags of stored and of rendered bytes -/

/-- A run of digits, decimal or hexadecimal. -/
def isDigitChar (c : Char) : Bool :=
  (48 ≤ c.toNat && c.toNat ≤ 57) || (97 ≤ c.toNat && c.toNat ≤ 102)

theorem isDigitChar_hex (n : Nat) : (Text.hex n).all isDigitChar = true := by
  rw [List.all_eq_true]
  intro c hc
  obtain ⟨d, rfl⟩ := Text.mem_hex hc
  have digits : ∀ d : Fin 16, isDigitChar (Nat.digitChar d) = true := by decide
  exact digits d

theorem isDigitChar_decimal (n : Nat) : (Text.decimal n).all isDigitChar = true := by
  rw [List.all_eq_true]
  intro c hc
  have hdigit := Nat.isDigit_of_mem_toDigits (by decide) (by decide) hc
  simp only [Char.isDigit, Bool.and_eq_true, decide_eq_true_eq] at hdigit
  simp only [isDigitChar, Bool.or_eq_true, Bool.and_eq_true, decide_eq_true_eq]
  exact .inl hdigit

/-- A length and a hash, in the digits each is written with. -/
def hashText (length hash : Text) : Text := length ++ "-".toList ++ hash

section
variable {l d : Text} (hl : l.all isDigitChar = true) (hd : d.all isDigitChar = true)
include hl hd

theorem mem_hashText {c : Char} (h : c ∈ hashText l d) : isDigitChar c = true ∨ c = '-' := by
  simp only [hashText, List.mem_append] at h
  rcases h with (h | h) | h
  · exact .inl (List.all_eq_true.mp hl c h)
  · exact .inr (List.mem_singleton.mp h)
  · exact .inl (List.all_eq_true.mp hd c h)

theorem isTagChar_hashText : (hashText l d).all isTagChar = true := by
  rw [List.all_eq_true]
  intro c hc
  rcases mem_hashText hl hd hc with h | rfl
  · simp only [isDigitChar, Bool.or_eq_true, Bool.and_eq_true, decide_eq_true_eq] at h
    simp only [isTagChar, Bool.or_eq_true, Bool.and_eq_true, decide_eq_true_eq]
    omega
  · rfl

theorem plus_not_mem_hashText : '+' ∉ hashText l d := by
  intro h
  rcases mem_hashText hl hd h with h | h <;> revert h <;> decide

end

/-- The inner text of the tag of stored bytes. -/
def storedText (b : Bytes) : Text := hashText (Text.decimal b.length) (Text.decimal (fnv1a b))

/-- The inner text of the tag of a rendered listing. -/
def renderedText (b : Bytes) : Text := hashText (Text.decimal b.length) (Text.hex (fnv1a b))

section
variable (b : Bytes)

theorem etagFor_eq : etagFor b = quoted (storedText b) := by
  simp [etagFor, quoted, storedText, hashText]

theorem representationEtag_eq : LdpState.representationEtag b = quoted (renderedText b) := by
  simp [LdpState.representationEtag, quoted, renderedText, hashText]

theorem isTagChar_storedText : (storedText b).all isTagChar = true :=
  isTagChar_hashText (isDigitChar_decimal _) (isDigitChar_decimal _)

theorem isTagChar_renderedText : (renderedText b).all isTagChar = true :=
  isTagChar_hashText (isDigitChar_decimal _) (isDigitChar_hex _)

theorem plus_not_mem_storedText : '+' ∉ storedText b :=
  plus_not_mem_hashText (isDigitChar_decimal _) (isDigitChar_decimal _)

theorem plus_not_mem_renderedText : '+' ∉ renderedText b :=
  plus_not_mem_hashText (isDigitChar_decimal _) (isDigitChar_hex _)

end

/-- The inner text of the tag of a document: with the name of the format when it is not the
stored one. -/
def variantText (b : Bytes) : Option RdfFormat → Text
  | none => storedText b
  | some f => storedText b ++ "+".toList ++ LdpState.variantSuffix f

theorem isTagChar_variantText (b : Bytes) (f : Option RdfFormat) :
    (variantText b f).all isTagChar = true := by
  cases f with
  | none => exact isTagChar_storedText b
  | some f =>
    simp only [variantText, List.all_append, isTagChar_storedText]
    cases f <;> decide

theorem statePart_variantText (b : Bytes) (f : Option RdfFormat) :
    statePart (variantText b f) = storedText b := by
  cases f with
  | none => exact statePart_plain (plus_not_mem_storedText b)
  | some f => exact statePart_variant (plus_not_mem_storedText b) _

namespace LdpState

variable {s : LdpState}

/-- The format a document is converted to, if it is not served as stored. -/
def conversion (contentType : Text) (accept : Option Text) : Option RdfFormat :=
  match classify (some contentType) with
  | .error _ => none
  | .ok stored => (negotiateAccept accept stored).filter (· ≠ stored)

theorem conversion_of_error {contentType : Text} {accept : Option Text} {e : ServerError}
    (hc : classify (some contentType) = .error e) : conversion contentType accept = none := by
  simp [conversion, hc]

theorem conversion_of_ok {contentType : Text} {accept : Option Text} {stored chosen : RdfFormat}
    (hc : classify (some contentType) = .ok stored)
    (hn : negotiateAccept accept stored = some chosen) :
    conversion contentType accept = if chosen = stored then none else some chosen := by
  simp only [conversion, hc, hn]
  by_cases heq : chosen = stored <;> simp [heq]

/-- **The validator of a document** is its stored tag, marked with the conversion. -/
theorem negotiatedValidator_ok {b : Bytes} {contentType etag : Text} {accept : Option Text}
    (h : negotiatedValidator (etagFor b) contentType accept = .ok etag) :
    etag = quoted (variantText b (conversion contentType accept)) := by
  unfold negotiatedValidator negotiate at h
  cases hc : classify (some contentType) with
  | error e =>
    simp only [hc] at h
    rw [← Except.ok.inj h, conversion_of_error hc]
    rfl
  | ok stored =>
    cases hn : negotiateAccept accept stored with
    | none => simp [hc, hn, Except.map] at h
    | some chosen =>
      simp only [hc, hn, Except.map, Except.ok.injEq] at h
      rw [← h, etagFor_eq, conversion_of_ok hc hn]
      by_cases heq : chosen = stored
      · rw [if_pos heq, if_pos heq]
        rfl
      · rw [if_neg heq, if_neg heq, variantEtag_quoted]
        rfl

/-! ## §5 Selecting a representation -/

/-- What a read has found when it comes to answer: the target and the modes on it, the stored
resource, and the representation it starts from with its entity tag. -/
structure Selection where
  target : LdpTarget
  perms : EffectivePermissions
  resource : Resource
  rendered : Rendered
  etag : Text

/-- The part of a read that runs against the store. -/
def select (s : LdpState) (method : Method) (path : Text) (requester : Requester)
    (accept : Option Text) : Server Selection := do
  let target ← check (parseTarget s.baseUrl path)
  let (perms, targetMeta) ← s.authorizeRead method target requester
  match targetMeta with
  | none => throw .notFound
  | some m => do
    let body ← readAt m
    let (rendered, etag) ← s.renderTarget target ⟨body, m⟩ accept
    pure ⟨target, perms, ⟨body, m⟩, rendered, etag⟩

namespace Selection

/-- The bytes and the type a full answer carries. -/
def representation (s : LdpState) (sel : Selection) (accept : Option Text) :
    Except ServerError (Bytes × Text) :=
  match sel.rendered with
  | .container body contentType => .ok (body, contentType)
  | .stored =>
    s.negotiateBody sel.resource.body sel.resource.meta_.contentType accept sel.target.iri

def lastModified (sel : Selection) : Option SystemTime :=
  if sel.target.isContainer then none else sel.resource.meta_.lastModified

/-- The headers of every answer. -/
def headers (s : LdpState) (sel : Selection) : HeaderMap :=
  s.readHeaders sel.target sel.etag sel.perms sel.lastModified

/-- The part of a read after the selection. -/
def answer (s : LdpState) (sel : Selection) (req : Request) (withBody : Bool) :
    Except ServerError Response :=
  if evaluateRead (headerStr req.headers .ifNoneMatch) (headerStr req.headers .ifModifiedSince)
      sel.etag sel.lastModified = .notModified then
    .ok (Response.ofHeaders 304 (sel.headers s))
  else
    (sel.representation s (headerStr req.headers .accept)).map fun r =>
      rangeResponse (sel.headers s) req r.1 r.2 withBody

end Selection

/-- **A read is a selection and its answer.** -/
theorem serveRead_eq (req : Request) (withBody : Bool) :
    s.serveRead req withBody =
      (s.select (if withBody then .get else .head) req.path req.requester
        (headerStr req.headers .accept) >>= fun sel => check (sel.answer s req withBody)) := by
  unfold serveRead select
  simp only [bind_assoc]
  congr 1
  funext target
  congr 1
  funext found
  obtain ⟨perms, targetMeta⟩ := found
  cases targetMeta with
  | none => rfl
  | some m =>
    simp only [bind_assoc]
    congr 1
    funext body
    congr 1
    funext rendering
    obtain ⟨rendered, etag⟩ := rendering
    simp only [pure_bind, Selection.answer, Selection.headers, Selection.lastModified]
    generalize (if target.isContainer = true then none else m.lastModified) = lastModified
    split_ifs
    · rfl
    · cases rendered with
      | container b ct => rfl
      | stored =>
        simp only [Selection.representation]
        cases s.negotiateBody body m.contentType (headerStr req.headers .accept) target.iri <;> rfl

variable {w : World} {target : LdpTarget} {resource : Resource} {accept : Option Text}

/-- **The representation a read starts from**: a document's validator alone, or a listing in a
negotiated format with the tag of its bytes. -/
inductive Renders (s : LdpState) (target : LdpTarget) (resource : Resource) (accept : Option Text) :
    Rendered × Text → Prop
  | document {etag : Text} (hdoc : target.isContainer = false)
      (hetag : negotiatedValidator resource.meta_.etag resource.meta_.contentType accept = .ok etag) :
      Renders s target resource accept (.stored, etag)
  | listing {format : RdfFormat} {triples : List Triple} {body : Bytes}
      (hcontainer : target.isContainer = true)
      (hbody : serializeTriples s.codec format triples = .ok body) :
      Renders s target resource accept
        (.container body format.mediaType, representationEtag body)

theorem spec_renderTarget : Spec (s.renderTarget target resource accept) w
    (Spec.OnOk fun r _ => Renders s target resource accept r) := by
  unfold renderTarget renderContainer
  split_ifs with hcontainer hvalid
  · simp only [bind_assoc]
    refine Spec.onOk_check_bind fun format _ => ?_
    rintro r ⟨⟩
  · simp only [bind_assoc]
    refine Spec.onOk_check_bind fun format _ => ?_
    refine Spec.onOk_bind (R := fun _ _ => True) trivial fun children w' _ => ?_
    refine Spec.onOk_check_bind fun body hbody => ?_
    rintro r ⟨⟩
    exact .listing hcontainer hbody
  · refine Spec.onOk_check_bind fun etag hetag => ?_
    rintro r ⟨⟩
    exact .document (by simpa using hcontainer) hetag

/-- A read is authorised together with the target's record. -/
theorem spec_authorizeRead (hs : Sound s.wac w) (method : Method) (target : LdpTarget)
    (requester : Requester) :
    Spec (s.authorizeRead method target requester) w fun r w' => Calm s.wac w r w' ∧
      ∀ perms m, r = .ok (perms, m) → m = w.backend.index.meta? target.iri := by
  refine ⟨(perused_authorizeRead method target requester).calm rfl hs, ?_⟩
  refine Program.Ensures.mono (Q := Spec.OnOk fun a _ => a.2 = w.backend.index.meta? target.iri)
    ?_ fun r w' h perms m hr => h (perms, m) hr
  refine Spec.onOk_bind (spec_result (Perused.calm (built_readPlan _ _) rfl hs)) fun plan w' hplan => ?_
  have htarget : plan.target = w.backend.index.meta? target.iri := by
    have hp := hplan.2
    rw [exec_readPlan] at hp
    split at hp
    · cases hp
    · rw [Except.ok.inj hp]
      rfl
  refine Spec.onOk_bind (R := fun _ _ => True) trivial fun decision w'' _ => ?_
  cases decision with
  | allow perms =>
    rintro a ⟨⟩
    exact htarget
  | unauthenticated => rintro a ⟨⟩
  | forbidden => rintro a ⟨⟩

/-- **What is selected** is the stored resource. -/
structure Selects (s : LdpState) (w : World) (target : LdpTarget) (accept : Option Text)
    (sel : Selection) : Prop where
  target_eq : sel.target = target
  record : w.backend.index.meta? target.iri = some sel.resource.meta_
  bytes : w.backend.blobs.lookup sel.resource.meta_.blobKey = some sel.resource.body
  renders : Renders s target sel.resource accept (sel.rendered, sel.etag)

theorem spec_select (hs : Sound s.wac w) {path : Text}
    (hparse : parseTarget s.baseUrl path = .ok target) (method : Method) (requester : Requester) :
    Spec (s.select method path requester accept) w
      (Spec.OnOk fun sel _ => Selects s w target accept sel) := by
  refine Spec.onOk_check_bind fun t ht => ?_
  obtain rfl := Except.ok.inj (hparse.symm.trans ht)
  refine Spec.onOk_bind (spec_authorizeRead hs method target requester) ?_
  rintro ⟨perms, targetMeta⟩ w₁ ⟨⟨hs₁, hq₁⟩, hm⟩
  cases targetMeta with
  | none => rintro a ⟨⟩
  | some m =>
    have hrecord := (hm perms (some m) rfl).symm
    refine Spec.onOk_bind (spec_result (calm_fetchBody hs₁ m)) ?_
    rintro body w₂ ⟨⟨hs₂, -⟩, hbody⟩
    have hfetched : fetchOutcome w₁ m = .ok body := by
      rw [← exec_fetchBody_fst]
      exact hbody.symm
    have hlookup := lookup_of_fetchOutcome hs₁.toConsistent
      (by rw [hq₁.backend]; exact hrecord) hfetched
    rw [hq₁.backend] at hlookup
    refine Spec.onOk_bind spec_renderTarget ?_
    rintro ⟨rendered, etag⟩ w₃ hrenders
    rintro sel ⟨⟩
    exact ⟨rfl, hrecord, hlookup, hrenders _ rfl⟩

end LdpState

end Ldp

end SolidServer
