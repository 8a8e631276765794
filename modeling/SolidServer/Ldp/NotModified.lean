import SolidServer.Ldp.Membership
import SolidServer.Ldp.RoundTrip

/-!
# What a 304 promises

A client keeps what a read gave it, with the entity tag, and later asks whether it is still
current.  A 304 says that it is.  The tag determines the bytes that are served, as far as
the hash does, and the conversion they went through; it does not determine the type the
stored bytes are served under.

* `not_modified_sound`: in a history in which no body is stored at the resource under two
  types, a 304 stands for what the client holds.
* `not_modified_retyped`: without that, it can stand for the same bytes under another type.
-/

namespace SolidServer.Ldp.LdpState

open SolidServer.Effects SolidServer.Store SolidServer.Authz

variable {s : LdpState} {w : World} {target : LdpTarget} {req : Request}

/-! ## §1 What a 304 compares -/

theorem sound_run (h : Sound s.wac w) (reqs : List Request) : Sound s.wac (s.run reqs w) := by
  induction reqs generalizing w with
  | nil => exact h
  | cons req rest ih =>
    obtain ⟨child, hreached⟩ := reached_handle h req
    exact ih hreached.sound

theorem tagged_run (h : Tagged w) (reqs : List Request) : Tagged (s.run reqs w) := by
  induction reqs generalizing w with
  | nil => exact h
  | cons req rest ih => exact ih (h.handle req)

variable {b : Bytes} {sel : Selection} {accept : Option Text}

/-- The format of a converted document is part of its tag. -/
theorem variantText_injective {b' : Bytes} {f f' : Option RdfFormat}
    (h : variantText b f = variantText b' f') : storedText b = storedText b' ∧ f = f' := by
  have hstored : storedText b = storedText b' := by
    rw [← statePart_variantText b f, h, statePart_variantText]
  refine ⟨hstored, ?_⟩
  unfold variantText at h
  rw [← hstored] at h
  have hplus : ∀ g, storedText b ≠ storedText b ++ "+".toList ++ variantSuffix g := by
    intro g heq
    apply plus_not_mem_storedText b
    rw [heq]
    simp
  cases f with
  | none =>
    cases f' with
    | none => rfl
    | some g => exact absurd h (hplus g)
  | some g =>
    cases f' with
    | none => exact absurd h.symm (hplus g)
    | some g' =>
      have hsuffix : variantSuffix g = variantSuffix g' := List.append_cancel_left h
      cases g <;> cases g' <;> first | rfl | (revert hsuffix; decide)

/-- The tag sent back is the current one. -/
theorem evaluateRead_notModified {t u : Text} (ht : t.all isTagChar = true)
    (hu : u.all isTagChar = true) {ims : Option Text} {lm : Option SystemTime}
    (h : evaluateRead (some (quoted t)) ims (quoted u) lm = .notModified) : t = u := by
  unfold evaluateRead at h
  simp only [isWildcard_quoted, tagList_quoted ht] at h
  simpa [InboundTag.matchesWeak, parseCurrent_quoted hu] using h

/-- The status of an answer to a selection: 304 when the client's copy is current. -/
theorem answer_304 {resp : Response} (h : sel.answer s req true = .ok resp)
    (hstatus : resp.status = 304) :
    evaluateRead (headerStr req.headers .ifNoneMatch) (headerStr req.headers .ifModifiedSince)
      sel.etag sel.lastModified = .notModified := by
  by_contra hne
  unfold Selection.answer at h
  rw [if_neg hne] at h
  cases hr : sel.representation s (headerStr req.headers .accept) with
  | error e =>
    rw [hr] at h
    cases h
  | ok r =>
    rw [hr] at h
    obtain rfl := Except.ok.inj h
    unfold rangeResponse at hstatus
    simp only at hstatus
    split at hstatus
    · cases hstatus
    · split_ifs at hstatus <;> cases hstatus
    · split_ifs at hstatus <;> cases hstatus

theorem contentType_headers (sel : Selection) : (sel.headers s).get .contentType = none := by
  rw [Selection.headers, get_readHeaders _ _ _ _ _ (.inr (.inl rfl)),
    HeaderMap.get_setStr_ne _ _ (by decide)]
  rfl

/-- A 200 carries the representation: its bytes, and its type unless it does not fit in a
header. -/
theorem answer_200 {resp : Response} (h : sel.answer s req true = .ok resp)
    (hstatus : resp.status = 200) :
    ∃ body contentType, sel.representation s (headerStr req.headers .accept) =
        .ok (body, contentType) ∧ resp.body = body ∧
      resp.headers.get .contentType =
        (HeaderValue.fromStr? contentType).or (HeaderValue.fromStr? Response.octetStream) := by
  unfold Selection.answer at h
  split_ifs at h
  · obtain rfl := Except.ok.inj h
    cases hstatus
  · cases hr : sel.representation s (headerStr req.headers .accept) with
    | error e =>
      rw [hr] at h
      cases h
    | ok r =>
      obtain ⟨body, contentType⟩ := r
      rw [hr] at h
      obtain rfl := Except.ok.inj h
      unfold rangeResponse at hstatus ⊢
      simp only [if_true] at hstatus ⊢
      split at hstatus
      · cases hstatus
      · cases hstatus
      · refine ⟨body, contentType, rfl, rfl, ?_⟩
        simp only [Response.ofHeadersBytes, HeaderMap.get_extend]
        rw [HeaderMap.get_setStr_ne _ _ (by decide), HeaderMap.get_setStr_ne _ _ (by decide)]
        have hdefault : (HeaderMap.setStr [] .contentType Response.octetStream).get .contentType =
            HeaderValue.fromStr? Response.octetStream := by decide
        rw [hdefault]
        cases hv : HeaderValue.fromStr? contentType with
        | some v => rw [HeaderMap.get_setStr _ _ hv]
        | none =>
          unfold HeaderMap.setStr
          rw [hv]
          simp only [contentType_headers]

/-! ## §2 The representation behind a tag -/

/-- A stored body, as it is or converted to another format. -/
def convert (s : LdpState) (body : Bytes) (contentType : Text) (f : Option RdfFormat) (iri : Iri) :
    Except ServerError (Bytes × Text) :=
  match f with
  | none => .ok (body, contentType)
  | some f => do
    let triples ← parseToTriples s.codec (storedFormat contentType) body iri
    let bytes ← serializeTriples s.codec f triples
    pure (bytes, f.mediaType)

/-- Of the `Accept` header only the conversion matters to what is served. -/
theorem negotiateBody_ok {contentType : Text} {iri : Iri} {r : Bytes × Text}
    (h : s.negotiateBody b contentType accept iri = .ok r) :
    s.convert b contentType (conversion contentType accept) iri = .ok r := by
  unfold negotiateBody negotiate at h
  cases hc : classify (some contentType) with
  | error e =>
    simp only [hc] at h
    rw [conversion_of_error hc]
    exact h
  | ok stored =>
    have hstored : storedFormat contentType = stored := by simp [storedFormat, hc]
    cases hn : negotiateAccept accept stored with
    | none =>
      simp only [hc, hn] at h
      cases h
    | some chosen =>
      simp only [hc, hn] at h
      rw [conversion_of_ok hc hn]
      by_cases heq : chosen = stored
      · rw [if_pos heq]
        simp only [heq, bind, Except.bind] at h
        exact h
      · unfold convert
        rw [hstored]
        simpa [heq, bind, Except.bind] using h

/-- **Turtle and JSON-LD documents are never the same bytes.** -/
def TellsApart (codec : RdfCodec) : Prop :=
  ∀ ts ts' b, codec.writeTurtle ts = .ok b → codec.writeJsonLd ts' ≠ .ok b

theorem TellsApart.format_eq {codec : RdfCodec} (h : TellsApart codec) {f g : RdfFormat}
    {ts ts' : List Triple} (hf : serializeTriples codec f ts = .ok b)
    (hg : serializeTriples codec g ts' = .ok b) : f = g := by
  have hturtle : ∀ {us}, serializeTriples codec .turtle us = .ok b → codec.writeTurtle us = .ok b := by
    intro us hus
    unfold serializeTriples at hus
    cases hw : codec.writeTurtle us with
    | ok c => simpa [hw] using hus
    | error e => simp [hw] at hus
  have hjson : ∀ {us}, serializeTriples codec .jsonLd us = .ok b → codec.writeJsonLd us = .ok b := by
    intro us hus
    unfold serializeTriples at hus
    cases hw : codec.writeJsonLd us with
    | ok c => simpa [hw] using hus
    | error e => simp [hw] at hus
  cases f <;> cases g
  · rfl
  · exact absurd (hjson hg) (h _ _ b (hturtle hf))
  · exact absurd (hjson hf) (h _ _ b (hturtle hg))
  · rfl

/-! ## §3 Histories -/

/-- A body stored at a resource at some point of a history, and its type. -/
def StoredIn (s : LdpState) (w₀ : World) (reqs : List Request) (iri : Iri) (b : Bytes)
    (contentType : Text) : Prop :=
  ∃ before m, before <+: reqs ∧ (s.run before w₀).backend.record? iri = some (m, some b) ∧
    m.contentType = contentType

theorem Selects.storedIn {w₀ : World} {reqs before : List Request} (hbefore : before <+: reqs)
    (h : Selects s (s.run before w₀) target accept sel) :
    StoredIn s w₀ reqs target.iri sel.resource.body sel.resource.meta_.contentType :=
  ⟨before, _, hbefore, by simp [Backend.record?, h.record, h.bytes], rfl⟩

theorem Selects.etag_eq (ht : Tagged w) (h : Selects s w target accept sel) :
    sel.resource.meta_.etag = etagFor sel.resource.body :=
  ht.tags target.iri _ _ (by simp [Backend.record?, h.record, h.bytes])

/-- **A tag determines the representation** as far as the hash determines the bytes and the
stored bytes their type. -/
theorem same_representation {w w' : World} (ht : Tagged w) (ht' : Tagged w') {accept' : Option Text}
    {sel' : Selection} (hsel : Selects s w target accept sel)
    (hsel' : Selects s w' target accept' sel') (hetag : sel.etag = sel'.etag) {r r' : Bytes × Text}
    (hr : sel.representation s accept = .ok r) (hr' : sel'.representation s accept' = .ok r')
    (hcodec : target.isContainer = true → TellsApart s.codec)
    (hstored : etagFor sel.resource.body = etagFor sel'.resource.body → sel.resource.body = sel'.resource.body)
    (htypes : sel.resource.body = sel'.resource.body → sel.resource.meta_.contentType = sel'.resource.meta_.contentType)
    (hserved : representationEtag r.1 = representationEtag r'.1 → r.1 = r'.1) : r = r' := by
  have htag := hsel.etag_eq ht
  have htag' := hsel'.etag_eq ht'
  have htarget := hsel.target_eq
  have htarget' := hsel'.target_eq
  have hrenders := hsel.renders
  have hrenders' := hsel'.renders
  obtain ⟨tgt, perms, resource, rendered, etag⟩ := sel
  obtain ⟨tgt', perms', resource', rendered', etag'⟩ := sel'
  subst htarget htarget'
  cases hrenders with
  | document hdoc hvalid =>
    cases hrenders' with
    | listing hcontainer _ =>
      rw [hdoc] at hcontainer
      cases hcontainer
    | document _ hvalid' =>
      rw [htag] at hvalid
      rw [htag'] at hvalid'
      -- the same stored text and the same conversion
      have htexts := quoted_injective
        ((negotiatedValidator_ok hvalid).symm.trans (hetag.trans (negotiatedValidator_ok hvalid')))
      obtain ⟨htext, hconv⟩ := variantText_injective htexts
      have hbody := hstored (by rw [etagFor_eq, etagFor_eq, htext])
      have htype := htypes hbody
      have hc := negotiateBody_ok hr
      have hc' := negotiateBody_ok hr'
      rw [← hconv, ← hbody, ← htype] at hc'
      exact Except.ok.inj (hc.symm.trans hc')
  | @listing format triples body hcontainer hbody =>
    cases hrenders' with
    | document hdoc _ =>
      rw [hcontainer] at hdoc
      cases hdoc
    | @listing format' triples' body' _ hbody' =>
      obtain rfl := Except.ok.inj hr
      obtain rfl := Except.ok.inj hr'
      obtain rfl : body = body' := hserved hetag
      rw [(hcodec hcontainer).format_eq hbody hbody']

/-- **A 304 stands for what the client holds.**  A `GET` is answered 200 with the tag `T`; after
any further requests a `GET` of the same target with `If-None-Match: T` is answered 304.  Then
without that field it would be answered, if with 200, with the type and the body the client
holds, provided that no body was stored at the resource under two types. -/
theorem not_modified_sound (s : LdpState) (w₀ : World) (hs : Sound s.wac w₀) (ht : Tagged w₀)
    (target : LdpTarget) (hcodec : target.isContainer = true → TellsApart s.codec) (past between : List Request)
    (get get' : Request) (hget : get.method = .get) (hget' : get'.method = .get)
    (hpath : parseTarget s.baseUrl get.path = .ok target)
    (hpath' : parseTarget s.baseUrl get'.path = .ok target) (T : Text)
    (hstored : Set.InjOn etagFor
      {b | ∃ ct, StoredIn s w₀ (past ++ get :: between) target.iri b ct})
    (htypes : ∀ b ct ct', StoredIn s w₀ (past ++ get :: between) target.iri b ct →
      StoredIn s w₀ (past ++ get :: between) target.iri b ct' → ct = ct')
    (h200 : (s.handle get (s.run past w₀)).1.status = 200)
    (hT : headerStr (s.handle get (s.run past w₀)).1.headers .etag = some T)
    (hmatch : headerStr get'.headers .ifNoneMatch = some T)
    (h304 : (s.handle get' (s.run (past ++ get :: between) w₀)).1.status = 304)
    (hfull : (s.handle get'.unconditional (s.run (past ++ get :: between) w₀)).1.status = 200)
    (hserved : representationEtag (s.handle get (s.run past w₀)).1.body =
        representationEtag
          (s.handle get'.unconditional (s.run (past ++ get :: between) w₀)).1.body →
      (s.handle get (s.run past w₀)).1.body =
        (s.handle get'.unconditional (s.run (past ++ get :: between) w₀)).1.body) :
    (s.handle get'.unconditional (s.run (past ++ get :: between) w₀)).1.headers.get .contentType =
        (s.handle get (s.run past w₀)).1.headers.get .contentType ∧
      (s.handle get'.unconditional (s.run (past ++ get :: between) w₀)).1.body =
        (s.handle get (s.run past w₀)).1.body := by
  have hpast : past <+: past ++ get :: between := List.prefix_append _ _
  obtain ⟨sel, -, hsel, hanswer⟩ :=
    read_answered (sound_run hs past) hget hpath (by rw [h200]; decide)
  obtain ⟨sel', hrun', hsel', hanswer'⟩ :=
    read_answered (sound_run hs (past ++ get :: between)) hget' hpath' (by rw [h304]; decide)
  have hmethod : get'.unconditional.method = .get := hget'
  obtain ⟨sel'', hrun'', -, hanswer''⟩ :=
    read_answered (sound_run hs (past ++ get :: between)) hmethod hpath' (by rw [hfull]; decide)
  -- with and without the condition the same representation is selected
  have haccept : headerStr get'.unconditional.headers .accept = headerStr get'.headers .accept :=
    headerStr_unconditional get' (by decide) (by decide)
  obtain rfl : sel' = sel'' := by
    rw [haccept, requester_unconditional] at hrun''
    exact Except.ok.inj (hrun'.symm.trans hrun'')
  obtain ⟨body, ct, hrep, hbody, hct⟩ := answer_200 hanswer h200
  obtain ⟨body', ct', hrep', hbody', hct'⟩ := answer_200 hanswer'' hfull
  rw [haccept] at hrep'
  -- the tag sent back is the current one
  obtain ⟨t, hetag, hchars, -⟩ := hsel.tag_text (tagged_run ht past)
  obtain ⟨t', hetag', hchars', -⟩ := hsel'.tag_text (tagged_run ht (past ++ get :: between))
  obtain ⟨v, hv, htext⟩ := etag_headers s sel hetag hchars
  obtain rfl : quoted t = T := by
    have hget := (get_answer hanswer (.inl rfl)).trans hv
    rw [headerStr, hget, Option.bind_some, htext, hetag] at hT
    exact Option.some.inj hT
  have hfresh := answer_304 hanswer' h304
  rw [hmatch, hetag'] at hfresh
  obtain rfl := evaluateRead_notModified hchars hchars' hfresh
  -- so bytes and type are the same
  have hsame : (body', ct') = (body, ct) := by
    have hin := hsel.storedIn hpast
    have hin' := hsel'.storedIn List.prefix_rfl
    refine (same_representation (tagged_run ht past) (tagged_run ht (past ++ get :: between)) hsel
      hsel' (hetag.trans hetag'.symm) hrep hrep' hcodec (hstored ⟨_, hin⟩ ⟨_, hin'⟩) (fun heq => ?_)
      (by rwa [hbody, hbody'] at hserved)).symm
    rw [← heq] at hin'
    exact htypes _ _ _ hin hin'
  obtain ⟨rfl, rfl⟩ := Prod.mk.inj hsame
  rw [hct, hct', hbody, hbody']
  exact ⟨rfl, rfl⟩

/-- The same `GET`, unless the client's copy is current. -/
def ifNoneMatch (get : Request) (tag : Text) : Request :=
  { get with headers := get.headers.setStr .ifNoneMatch tag }

/-- The JSON-LD form of the Turtle document `/a` is still current when it is asked for again. -/
theorem not_modified_sound_variant :
    let get := sampleGet "/a" "application/ld+json"
    let again := ifNoneMatch get (tagOf sampleState get textWorld)
    let w := sampleState.run [get] textWorld
    (sampleState.handle again w).1.status = 304 ∧
    (sampleState.handle again.unconditional w).1.headers.get .contentType =
        (sampleState.handle get textWorld).1.headers.get .contentType ∧
      (sampleState.handle again.unconditional w).1.body = (sampleState.handle get textWorld).1.body := by
  intro get again w
  have hstored : ∀ b ct, StoredIn sampleState textWorld [get] "http://h/a".toList b ct →
      b = [7] ∧ ct = "text/turtle".toList := by
    rintro b ct ⟨before, m, hbefore, hrecord, rfl⟩
    have hone : (textWorld.backend.record? "http://h/a".toList).map
          (fun r => (r.2, r.1.contentType)) = some (some [7], "text/turtle".toList) ∧
        ((sampleState.run [get] textWorld).backend.record? "http://h/a".toList).map
          (fun r => (r.2, r.1.contentType)) = some (some [7], "text/turtle".toList) := by
      decide
    have hworld : (Option.map (fun r => (r.2, r.1.contentType)) (some (m, some b)) :
        Option (Option Bytes × Text)) = some (some [7], "text/turtle".toList) := by
      rw [← hrecord]
      cases before with
      | nil => exact hone.1
      | cons r rest =>
        obtain ⟨rfl, hrest⟩ := List.cons_prefix_cons.mp hbefore
        obtain rfl := List.prefix_nil.mp hrest
        exact hone.2
    simpa using hworld
  refine ⟨by decide, not_modified_sound sampleState textWorld (sound_seeded _ _)
    (tagged_seeded _ _) ⟨"http://h/a".toList, "http://h/a".toList, false⟩ (by rintro ⟨⟩) [] [] get
    again rfl rfl (by decide) (by decide) (tagOf sampleState get textWorld) ?_ ?_
    (by decide) (by decide) (by decide) (by decide)
    (by decide) (by decide)⟩
  · rintro b ⟨ct, hb⟩ b' ⟨ct', hb'⟩ -
    rw [(hstored b ct hb).1, (hstored b' ct' hb').1]
  · intro b ct ct' hct hct'
    rw [(hstored b ct hct).2, (hstored b ct' hct').2]

/-- `PUT` of one statement under a type. -/
def putStatement (path contentType : String) : Request :=
  ⟨.put, path.toList, HeaderMap.setStr [] .contentType contentType.toList, [7], none⟩

/-- **A 304 for another type**: `/a` is stored as a text, read, and stored again with the same
bytes as Turtle.  The client's copy is said to be current, although it is a text. -/
theorem not_modified_retyped :
    let get := sampleGet "/a" "*/*"
    let w := sampleState.run [putStatement "/a" "text/plain"] openWorld
    let again := ifNoneMatch get (tagOf sampleState get w)
    let w' := sampleState.run [get, putStatement "/a" "text/turtle"] w
    (sampleState.handle get w).1.status = 200 ∧
    headerStr again.headers .ifNoneMatch = headerStr (sampleState.handle get w).1.headers .etag ∧
    headerStr (sampleState.handle get w).1.headers .contentType = some "text/plain".toList ∧
    (sampleState.handle again w').1.status = 304 ∧
    (sampleState.handle again.unconditional w').1.status = 200 ∧
    headerStr (sampleState.handle again.unconditional w').1.headers .contentType =
      some "text/turtle".toList := by
  decide

end SolidServer.Ldp.LdpState
