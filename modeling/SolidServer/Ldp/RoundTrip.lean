import SolidServer.Ldp.Blocks
import SolidServer.Ldp.Validator

/-!
# From a read's entity tag to a conditional write

A client reads a resource and sends the tag it was given back in `If-Match`.  A write
compares that tag with the stored one.  For a document the tag of a read is the stored tag,
perhaps marked with the format it was converted to, and the comparison ignores the mark.
For a container it is the hash of the rendered listing, which is not what a write compares
with (`etag_round_trip_iff`).
-/

namespace SolidServer.Ldp.LdpState

open SolidServer.Effects SolidServer.Store SolidServer.Authz

variable {s : LdpState} {w : World} {target : LdpTarget}

/-! ## §1 Stored tags are the tags of the stored bytes -/

/-- Every record carries the tag of its bytes. -/
structure Tagged (w : World) : Prop extends Consistent w where
  tags : ∀ iri m b, w.backend.record? iri = some (m, some b) → m.etag = etagFor b

namespace Tagged

variable {i : Index} {w' : World}

/-- A change of the store keeps the tags if the records it wrote have theirs. -/
theorem wrote {P : Iri → Prop} (h : Tagged w) (hc : Consistent w') (hw : Wrote P i w w')
    (hnew : ∀ iri, P iri → ∀ m b, w'.backend.record? iri = some (m, some b) → m.etag = etagFor b) :
    Tagged w' where
  toConsistent := hc
  tags iri m b hrecord := by
    by_cases hp : P iri
    · exact hnew iri hp m b hrecord
    · rw [hw.rewrites.records iri hp] at hrecord
      exact h.tags iri m b hrecord

theorem kept (h : Tagged w) (hc : Consistent w') (hw : Wrote noRecord i w w') :
    Tagged w' := h.wrote hc hw fun _ hp => hp.elim

/-- The record of a write carries the tag of what was written. -/
theorem holds {iri : Iri} {body : Bytes} {contentType : Text} {m : ResourceMeta} (h : Tagged w)
    (hc : Consistent w') (hw : Wrote (· = iri) i w w') (hm : Holds iri body contentType m w') :
    Tagged w' := by
  refine h.wrote hc hw ?_
  rintro _ rfl n b hrecord
  obtain ⟨n', hn, heq⟩ := Option.map_eq_some_iff.mp hrecord
  obtain rfl := Option.some.inj (hn.symm.trans hm.record)
  obtain ⟨rfl, hb⟩ := Prod.mk.inj heq
  obtain rfl := Option.some.inj (hb.symm.trans hm.bytes)
  exact hm.etag_eq

/-- A removed record carries none. -/
theorem removed {iri : Iri} (h : Tagged w) (hc : Consistent w') (hw : Wrote (· = iri) i w w')
    (hgone : i.meta? iri = none) : Tagged w' := by
  refine h.wrote hc hw ?_
  rintro _ rfl n b hrecord
  simp [Backend.record?, hw.rewrites.index, hgone] at hrecord

/-- **Every block keeps the tags.** -/
theorem block (α : Type) (p : Server α) (hp : Block α p) (w : World) (h : Tagged w) :
    Tagged (exec p w).2 := by
  cases hp with
  | @idle o ho =>
    cases o <;> first
      | exact ho.elim
      | exact ⟨⟨h.stored, h.keys, h.cached, h.fresh, h.distinct⟩, h.tags⟩
  | fetch m =>
    obtain ⟨c, hworld, hc⟩ := fetchBody_caches m w
    rw [hworld]
    exact ⟨consistent_bodyCache h.toConsistent hc, h.tags⟩
  | write iri body contentType =>
    have hspec := spec_write h.toConsistent iri body contentType
    have hkept : Spec (write iri body contentType) w fun _ w' => Tagged w' := by
      refine hspec.mono fun r w' hr => ?_
      cases r with
      | error e => exact h.kept hr.1 hr.2
      | ok m => exact h.holds hr.1 hr.2.1 hr.2.2
    exact hkept
  | create container child body contentType =>
    have hspec := spec_createInContainer h.toConsistent container child body contentType
    have hkept : Spec (createInContainer container child body contentType) w
        fun _ w' => Tagged w' := by
      refine hspec.mono fun r w' hr => ?_
      cases r with
      | error e => exact h.kept hr.1 hr.2
      | ok m => exact h.holds hr.1 hr.2.1 hr.2.2.1
    exact hkept
  | delete iri parent =>
    obtain ⟨hc, hdeleted, -⟩ := spec_delete h.toConsistent iri parent
    cases hdeleted with
    | kept hw => exact h.kept hc hw
    | unlinked hw => exact h.kept hc hw
    | gone hw =>
      refine h.removed hc hw ?_
      rw [Index.meta?_deleteMeta, if_pos rfl]
  | deleteEmpty iri parent =>
    obtain ⟨hc, hkept | ⟨-, hw⟩⟩ := spec_deleteContainerIfEmpty h.toConsistent iri parent
    · exact h.kept hc hkept
    · refine h.removed hc hw ?_
      rw [meta?_afterUnlink, Index.meta?_deleteMeta, if_pos rfl]

theorem handle (h : Tagged w) (req : Request) : Tagged (s.handle req w).2 :=
  keeps_handle block req w h

end Tagged

theorem plain_seedRoot (root : Iri) (docs : List (Iri × Bytes)) :
    PlainIn Retains (seedRoot root docs) := by
  induction docs with
  | nil =>
    refine .bind (built_exists_ root) fun found => ?_
    split_ifs
    · exact .pure _
    · exact .bind (plain_write _ _ _) fun _ => .pure _
  | cons doc docs ih => exact .bind ih fun _ => .bind (plain_write _ _ _) fun _ => .pure _

/-- **A seeded storage is tagged.** -/
theorem tagged_seeded (root : Iri) (docs : List (Iri × Bytes)) :
    Tagged (World.seeded root docs) :=
  (plain_seedRoot root docs).keeps Tagged.block World.boot
    ⟨consistent_boot, fun iri m b h => by cases h⟩

/-! ## §2 The tag a write compares with -/

variable {req : Request}

/-- **A write compares with the stored tag.** -/
theorem gate_tag (hparse : parseTarget s.baseUrl req.path = .ok target) :
    Spec (s.gate req) w (Spec.OnOk fun g _ =>
      g.1 = (w.backend.index.meta? target.iri).map ResourceMeta.etag) := by
  refine spec_gate.mono fun r w' hg g hr => ?_
  cases hg g hr with
  | put _ hparsed =>
    cases hparse.symm.trans hparsed
    rfl
  | patch _ hparsed _ _ _ hcurrent =>
    cases hparse.symm.trans hparsed
    rw [← hcurrent, Option.map_map]
    rfl
  | delete _ hparsed _ _ hcurrent =>
    cases hparse.symm.trans hparsed
    rw [hcurrent]
    rfl

/-! ## §3 The tag a read answers with -/

/-- The tag of a selection is quoted, and its characters are tag characters. -/
theorem Selects.tag_text {accept : Option Text} {sel : Selection} (ht : Tagged w)
    (h : Selects s w target accept sel) :
    ∃ t, sel.etag = quoted t ∧ t.all isTagChar = true ∧
      (target.isContainer = false → statePart t = storedText sel.resource.body) ∧
      (target.isContainer = true → '+' ∉ t) := by
  have htag : sel.resource.meta_.etag = etagFor sel.resource.body :=
    ht.tags target.iri _ _ (by simp [Backend.record?, h.record, h.bytes])
  obtain ⟨tgt, perms, resource, rendered, etag⟩ := sel
  cases h.renders with
  | document hdoc hetag =>
    rw [htag] at hetag
    exact ⟨_, negotiatedValidator_ok hetag, isTagChar_variantText _ _,
      fun _ => statePart_variantText _ _, fun hc => by rw [hdoc] at hc; cases hc⟩
  | @listing format triples body hcontainer hbody =>
    exact ⟨_, representationEtag_eq body, isTagChar_renderedText body,
      fun hdoc => (by rw [hcontainer] at hdoc; cases hdoc),
      fun _ => plus_not_mem_renderedText body⟩

/-- The headers that only a selection and its representation set. -/
def Described (k : HeaderName) : Prop := k = .etag ∨ k = .contentType ∨ k = .lastModified

/-- What a read advertises of its target leaves the headers of the representation. -/
theorem get_readHeaders (s : LdpState) (target : LdpTarget) (etag : Text)
    (perms : EffectivePermissions) (lastModified : Option SystemTime) {k : HeaderName}
    (hk : Described k) :
    (s.readHeaders target etag perms lastModified).get k =
      if k = .lastModified then (lastModified.bind toImfFixdate).bind HeaderValue.fromStr?
      else (HeaderMap.setStr [] .etag etag).get k := by
  have hadvertised : ∀ out : HeaderMap,
      HeaderMap.get ((addAclLink (s.addTypeLinks (s.addDiscoveryLinks (addMethodAdvertisement
        (out.setStr .vary "Accept".toList) target.isContainer)) target) target).setStr .wacAllow
          (wacAllowHeader perms)) k = out.get k := by
    intro out
    unfold addAclLink addTypeLinks addDiscoveryLinks addMethodAdvertisement
    rcases hk with rfl | rfl | rfl <;> split_ifs <;> simp
  have hstart : k = .lastModified → (HeaderMap.setStr [] .etag etag).get k = none := by
    rintro rfl
    rw [HeaderMap.get_setStr_ne _ _ (by decide)]
    rfl
  unfold readHeaders
  split
  case h_2 hnone =>
    refine (hadvertised _).trans ?_
    split_ifs with hlast
    · rw [hnone, hstart hlast]
      rfl
    · rfl
  case h_1 imf hsome =>
    rw [hsome, Option.bind_some]
    split_ifs with hlast
    · subst hlast
      cases hv : HeaderValue.fromStr? imf with
      | some v => exact HeaderMap.get_setStr _ _ hv
      | none =>
        unfold HeaderMap.setStr
        rw [hv]
        exact (hadvertised _).trans (hstart rfl)
    · rw [HeaderMap.get_setStr_ne _ _ hlast]
      exact hadvertised _

/-- Every answer carries the tag of the selection. -/
theorem etag_headers (s : LdpState) (sel : Selection) {t : Text} (ht : sel.etag = quoted t)
    (hchars : t.all isTagChar = true) :
    ∃ v, (sel.headers s).get .etag = some v ∧ v.toStr? = some sel.etag := by
  obtain ⟨v, hv, htext⟩ := (visible_quoted hchars).header
  refine ⟨v, ?_, by rw [htext, ht]⟩
  have hstart : (HeaderMap.setStr [] .etag sel.etag).get .etag = some v := by
    rw [← ht] at hv
    exact HeaderMap.get_setStr _ _ hv
  rw [Selection.headers, get_readHeaders _ _ _ _ _ (.inl rfl), if_neg (by decide), hstart]

/-- The tag and the date of an answer are those of the selection. -/
theorem get_answer {sel : Selection} {withBody : Bool} {resp : Response} {k : HeaderName}
    (h : sel.answer s req withBody = .ok resp) (hk : k = .etag ∨ k = .lastModified) :
    resp.headers.get k = (sel.headers s).get k := by
  have hbase : ∀ t, (HeaderMap.setStr [] .contentType t).get k = none := by
    intro t
    have hnil : HeaderMap.get [] k = none := rfl
    rcases hk with rfl | rfl <;> simp [hnil]
  unfold Selection.answer at h
  split_ifs at h with hfresh
  · obtain rfl := Except.ok.inj h
    rfl
  · cases hr : sel.representation s (headerStr req.headers .accept) with
    | error e =>
      rw [hr] at h
      cases h
    | ok r =>
      rw [hr] at h
      obtain rfl := Except.ok.inj h
      unfold rangeResponse
      simp only
      split
      · rcases hk with rfl | rfl <;>
          simp [Response.ofHeadersText, HeaderMap.get_extend, hbase]
      · rcases hk with rfl | rfl <;> split_ifs <;>
          simp [Response.ofHeadersBytes, Response.ofHeaders, HeaderMap.get_extend, hbase]
      · rcases hk with rfl | rfl <;> split_ifs <;>
          simp [Response.ofHeadersBytes, Response.ofHeaders, HeaderMap.get_extend, hbase]

/-- A read ends in an error, or is the answer to a selection. -/
theorem serveRead_cases (hs : Sound s.wac w) (hparse : parseTarget s.baseUrl req.path = .ok target)
    (withBody : Bool) :
    (∃ e, (exec (s.serveRead req withBody) w).1 = .error e) ∨
      ∃ sel, (exec (s.select (if withBody then .get else .head) req.path req.requester
          (headerStr req.headers .accept)) w).1 = .ok sel ∧
        Selects s w target (headerStr req.headers .accept) sel ∧
        (exec (s.serveRead req withBody) w).1 = sel.answer s req withBody := by
  have hspec : Spec (s.select (if withBody then .get else .head) req.path req.requester
      (headerStr req.headers .accept)) w
      (Spec.OnOk fun sel _ => Selects s w target (headerStr req.headers .accept) sel) :=
    spec_select hs hparse _ req.requester
  rw [serveRead_eq]
  rcases hsel : exec (s.select (if withBody then .get else .head) req.path req.requester
    (headerStr req.headers .accept)) w with ⟨r, w'⟩
  cases r with
  | error e =>
    rw [exec_bind_error hsel]
    exact .inl ⟨e, rfl⟩
  | ok sel =>
    rw [exec_bind_ok hsel]
    exact .inr ⟨sel, rfl, hspec sel (congrArg Prod.fst hsel), rfl⟩

theorem handle_get (hmethod : req.method = .get) :
    (s.handle req w).1 = respond (exec (s.serveRead req true) w).1 := by
  have hserve : s.serve req = s.serveRead req true := by
    unfold serve
    rw [hmethod]
  rw [← hserve]
  rfl

/-- A read that is not refused is the answer to a selection. -/
theorem read_answered (hs : Sound s.wac w) (hmethod : req.method = .get)
    (hparse : parseTarget s.baseUrl req.path = .ok target)
    (hstatus : (s.handle req w).1.status < 400) :
    ∃ sel, (exec (s.select .get req.path req.requester (headerStr req.headers .accept)) w).1 =
        .ok sel ∧
      Selects s w target (headerStr req.headers .accept) sel ∧
      sel.answer s req true = .ok (s.handle req w).1 := by
  rw [handle_get hmethod] at hstatus ⊢
  have hrefused : ∀ e, (exec (s.serveRead req true) w).1 ≠ .error e := by
    intro e hr
    rw [hr] at hstatus
    have hord := ordinary_of_built (perused_serveRead req true) hr
    simp only [respond, status_intoResponse] at hstatus
    exact absurd hstatus (Nat.not_lt.mpr hord.1)
  rcases serveRead_cases hs hparse true with ⟨e, he⟩ | ⟨sel, hselect, hsel, hanswer⟩
  · exact absurd he (hrefused e)
  · refine ⟨sel, hselect, hsel, ?_⟩
    cases ha : sel.answer s req true with
    | error e => exact absurd (hanswer.trans ha) (hrefused e)
    | ok resp => rw [hanswer, ha, respond]

/-! ## §4 The round trip -/

/-- The tag of a read selects the stored state exactly when its state part is the stored text. -/
theorem selects_quoted {t : Text} (ht : t.all isTagChar = true) (b : Bytes) :
    selects (quoted t) (some (etagFor b)) InboundTag.matchesStrongState =
      decide (statePart t = storedText b) := by
  unfold selects
  rw [isWildcard_quoted, tagList_quoted ht]
  simp [InboundTag.matchesStrongState, InboundTag.matchesWeakState, etagFor_eq,
    parseCurrent_quoted (isTagChar_storedText b), statePart_plain (plus_not_mem_storedText b)]

/-- **The entity tag round trip.**  A `GET` answers 200 with the tag `T`, and the next request
writes to the same target with `If-Match: T`.  It is not answered 412 exactly when it does not
come to its precondition check, or the target is a document or its listing happens to have the
stored tag, and `If-None-Match`, if sent too, does not match. -/
theorem etag_round_trip_iff (s : LdpState) (w : World) (hs : Sound s.wac w) (ht : Tagged w)
    (get write : Request) (target : LdpTarget) (T : Text) (hget : get.method = .get)
    (hwrite : write.method = .put ∨ write.method = .patch ∨ write.method = .delete)
    (hgetPath : parseTarget s.baseUrl get.path = .ok target)
    (hwritePath : parseTarget s.baseUrl write.path = .ok target)
    (hstatus : (s.handle get w).1.status = 200)
    (hT : headerStr (s.handle get w).1.headers .etag = some T)
    (hmatch : headerStr write.headers .ifMatch = some T) :
    (s.handle write (s.handle get w).2).1.status ≠ 412 ↔
      ((∀ g, (exec (s.gate write) (s.handle get w).2).1 ≠ .ok g) ∨
        (target.isContainer = false ∨
            (w.backend.index.meta? target.iri).map ResourceMeta.etag = some T) ∧
          ∀ inm, headerStr write.headers .ifNoneMatch = some inm →
            selects inm ((w.backend.index.meta? target.iri).map ResourceMeta.etag)
              InboundTag.matchesWeakState = false) := by
  -- the read leaves a sound world with the same store
  obtain ⟨hs', hq⟩ : Sound s.wac (s.handle get w).2 ∧ Quiet w (s.handle get w).2 := by
    have hserve : s.serve get = s.serveRead get true := by
      unfold serve
      rw [hget]
    have hcalm := (perused_serveRead get true).calm rfl hs
    rw [← hserve] at hcalm
    exact hcalm
  obtain ⟨sel, -, hsel, hanswer⟩ := read_answered hs hget hgetPath (by rw [hstatus]; decide)
  obtain ⟨t, hetag, hchars, hdoc, hlisting⟩ := hsel.tag_text ht
  obtain ⟨v, hv, htext⟩ := etag_headers s sel hetag hchars
  obtain rfl : quoted t = T := by
    have := (get_answer hanswer (.inl rfl)).trans hv
    rw [headerStr, this, Option.bind_some, htext, hetag] at hT
    exact Option.some.inj hT
  have htag : sel.resource.meta_.etag = etagFor sel.resource.body :=
    ht.tags target.iri _ _ (by simp [Backend.record?, hsel.record, hsel.bytes])
  have hcurrent : (w.backend.index.meta? target.iri).map ResourceMeta.etag =
      some (etagFor sel.resource.body) := by
    rw [hsel.record, Option.map_some, htag]
  -- what the check makes of the tag
  have hstate : statePart t = storedText sel.resource.body ↔ (target.isContainer = false ∨
      (w.backend.index.meta? target.iri).map ResourceMeta.etag = some (quoted t)) := by
    rw [hcurrent, Option.some.injEq, etagFor_eq]
    cases hcontainer : target.isContainer with
    | false => simp [hdoc hcontainer]
    | true =>
      rw [statePart_plain (hlisting hcontainer)]
      constructor
      · exact fun h => .inr (congrArg quoted h.symm)
      · rintro (h | h)
        · cases h
        · exact (quoted_injective h).symm
  have hfailed : ∀ g, (exec (s.gate write) (s.handle get w).2).1 = .ok g →
      (evaluate (headerStr write.headers .ifMatch) (headerStr write.headers .ifNoneMatch) g.1 ≠
          .failed ↔ statePart t = storedText sel.resource.body ∧
        ∀ inm, headerStr write.headers .ifNoneMatch = some inm →
          selects inm (some (etagFor sel.resource.body)) InboundTag.matchesWeakState = false) := by
    intro g hg
    have hg1 : g.1 = some (etagFor sel.resource.body) := by
      have := gate_tag hwritePath g hg
      rwa [hq.backend, hcurrent] at this
    rw [hmatch, hg1]
    unfold evaluate
    simp only [selects_quoted hchars]
    by_cases hstate : statePart t = storedText sel.resource.body
    · cases hinm : headerStr write.headers .ifNoneMatch with
      | none => simp [hstate]
      | some inm =>
        cases hsel : selects inm (some (etagFor sel.resource.body)) InboundTag.matchesWeakState <;>
          simp [hstate, hsel]
    · simp [hstate]
  rw [hcurrent] at hstate ⊢
  rw [← hstate, ne_eq, verdict_iff hwrite]
  cases hg : (exec (s.gate write) (s.handle get w).2).1 with
  | error e => simp
  | ok g =>
    have := hfailed g hg
    simp only [Except.ok.injEq, exists_eq_left', ne_eq, forall_eq', false_or]
    exact this

/-- An anonymous `GET`. -/
def sampleGet (path accept : String) : Request :=
  ⟨.get, path.toList, HeaderMap.setStr [] .accept accept.toList, [], none⟩

/-- The entity tag a `GET` answers with. -/
def tagOf (s : LdpState) (get : Request) (w : World) : Text :=
  (headerStr (s.handle get w).1.headers .etag).getD []

/-- `PUT` under the condition that the target still has a tag. -/
def putIfMatch (path : String) (tag : Text) : Request :=
  { samplePut path with headers := (samplePut path).headers.setStr .ifMatch tag }

/-- The JSON-LD tag of the Turtle document `/a` lets it be overwritten. -/
theorem etag_round_trip_iff_variant :
    let get := sampleGet "/a" "application/ld+json"
    let put := putIfMatch "/a" (tagOf sampleState get textWorld)
    (sampleState.handle put (sampleState.handle get textWorld).2).1.status ≠ 412 :=
  (etag_round_trip_iff sampleState textWorld (sound_seeded _ _) (tagged_seeded _ _)
    (sampleGet "/a" "application/ld+json")
    (putIfMatch "/a" (tagOf sampleState (sampleGet "/a" "application/ld+json") textWorld))
    ⟨"http://h/a".toList, "http://h/a".toList, false⟩
    (tagOf sampleState (sampleGet "/a" "application/ld+json") textWorld) rfl (.inl rfl)
    (by decide) (by decide) (by decide) (by decide)
    (by decide)).mpr (.inr ⟨.inl rfl, by decide⟩)

/-- A storage whose codec knows the statements of the root's listing. -/
def listingState : LdpState :=
  ⟨tableCodec (ruleTable samplePod ++ (containerTriples samplePod []).map fun t =>
    ⟨t, .defaultGraph⟩) [], "http://h".toList, "DPoP".toList⟩

/-- **A container's tag does not round-trip**: everybody may read and write the root, and yet the
tag a `GET` of it answers with fails the `If-Match` of the next `PUT`. -/
theorem container_tag_refused :
    let get := sampleGet "/" "text/turtle"
    let put := putIfMatch "/" (tagOf listingState get openWorld)
    Granted listingState.wac openWorld.backend samplePod get.requester .read ∧
    Granted listingState.wac openWorld.backend samplePod put.requester .write ∧
    (listingState.handle get openWorld).1.status = 200 ∧
    headerStr put.headers .ifMatch =
      headerStr (listingState.handle get openWorld).1.headers .etag ∧
    (listingState.handle put (listingState.handle get openWorld).2).1.status = 412 := by
  decide

end SolidServer.Ldp.LdpState
