import SolidServer.Ldp.Frame

/-!
# Appending does not destroy

A `PATCH` rewrites the whole stored body: the old bytes are parsed, the patch is applied to
the triples and the result is serialised again.  For a requester who may only append, the
patch inserts and deletes nothing, so every triple that was parsed is written back.

What is not parsed is lost: the named graphs of a JSON-LD document (`patch_drops_named_graphs`).
-/

namespace SolidServer.Ldp.LdpState

open SolidServer.Effects SolidServer.Store SolidServer.Authz

variable {s : LdpState} {req : Request} {w : World}

/-! ## §1 Round trips -/

/-- Writing a set of triples and reading it back gives the same set, in both formats. -/
structure RoundTrips (codec : RdfCodec) : Prop where
  turtle : ∀ base ts b, codec.writeTurtle ts = .ok b →
    ∃ ts', codec.parseTurtle base b = .ok ts' ∧ ∀ t, t ∈ ts' ↔ t ∈ ts
  jsonLd : ∀ base ts b, codec.writeJsonLd ts = .ok b →
    ∃ qs, codec.parseJsonLd base b = .ok qs ∧
      ∀ q, q ∈ qs ↔ q.graphName = .defaultGraph ∧ q.triple ∈ ts

theorem roundTrips_tableCodec (table : List Quad) (rules : List N3Quad) :
    RoundTrips (tableCodec table rules) where
  turtle base ts b h := ⟨ts, tableCodec_turtle base h, fun _ => Iff.rfl⟩
  jsonLd base ts b h := by
    refine ⟨_, tableCodec_jsonLd base h, fun q => ?_⟩
    obtain ⟨t, g⟩ := q
    simp only [List.mem_map, Quad.mk.injEq]
    constructor
    · rintro ⟨t', ht', rfl, rfl⟩
      exact ⟨rfl, ht'⟩
    · rintro ⟨rfl, ht⟩
      exact ⟨t, ht, rfl, rfl⟩

/-- The base of a document that parses is an IRI. -/
theorem badBase_of_parse {codec : RdfCodec} {f : RdfFormat} {b : Bytes} {base : Iri}
    {ts : List Triple} (h : parseToTriples codec f b base = .ok ts) : codec.badBase base = none := by
  unfold parseToTriples at h
  cases hbad : codec.badBase base with
  | none => rfl
  | some e =>
    rw [hbad] at h
    cases h

/-- **Round trip through a format**: a serialised body parses to the triples it was made of. -/
theorem parse_serialize {codec : RdfCodec} (hcodec : RoundTrips codec) {f : RdfFormat}
    {ts : List Triple} {b : Bytes} {base : Iri} (hbase : codec.badBase base = none)
    (h : serializeTriples codec f ts = .ok b) :
    ∃ ts', parseToTriples codec f b base = .ok ts' ∧ ∀ t, t ∈ ts' ↔ t ∈ ts := by
  cases f with
  | turtle =>
    simp only [serializeTriples] at h
    cases hw : codec.writeTurtle ts with
    | error e =>
      rw [hw] at h
      cases h
    | ok b' =>
      rw [hw] at h
      obtain rfl := Except.ok.inj h
      obtain ⟨ts', hparse, hmem⟩ := hcodec.turtle base ts b' hw
      exact ⟨ts', by simp only [parseToTriples, hbase, hparse], hmem⟩
  | jsonLd =>
    simp only [serializeTriples] at h
    cases hw : codec.writeJsonLd ts with
    | error e =>
      rw [hw] at h
      cases h
    | ok b' =>
      rw [hw] at h
      obtain rfl := Except.ok.inj h
      obtain ⟨qs, hparse, hmem⟩ := hcodec.jsonLd base ts b' hw
      refine ⟨(qs.filter fun q => q.graphName = .defaultGraph).map Quad.triple,
        by simp only [parseToTriples, hbase, hparse], fun t => ?_⟩
      -- every quad that is read back is in the default graph
      simp only [List.mem_map, List.mem_filter]
      constructor
      · rintro ⟨q, ⟨hq, -⟩, rfl⟩
        exact ((hmem q).mp hq).2
      · intro ht
        exact ⟨⟨t, .defaultGraph⟩, ⟨(hmem _).mpr ⟨rfl, ht⟩, rfl⟩, rfl⟩

/-! ## §2 A patch that succeeded -/

/-- The steps of computing a patched body, taken apart. -/
theorem patchedBody_ok {res : Resource} {patch : N3Patch} {target : Iri} {body : Bytes}
    {f : RdfFormat} (h : s.patchedBody (some res) patch target = .ok (body, f)) :
    f = storedFormat res.meta_.contentType ∧
      ∃ old patched, parseToTriples s.codec f res.body target = .ok old ∧
        applyPatch old patch = .ok patched ∧ serializeTriples s.codec f patched = .ok body := by
  unfold patchedBody at h
  simp only [bind, Except.bind, pure, Except.pure] at h
  cases hold : parseToTriples s.codec (storedFormat res.meta_.contentType) res.body target with
  | error e =>
    rw [hold] at h
    cases h
  | ok old =>
    rw [hold] at h
    simp only at h
    cases hpatched : applyPatch old patch with
    | error e =>
      rw [hpatched] at h
      cases h
    | ok patched =>
      rw [hpatched] at h
      simp only at h
      cases hser : serializeTriples s.codec (storedFormat res.meta_.contentType) patched with
      | error e =>
        rw [hser] at h
        cases h
      | ok body' =>
        rw [hser] at h
        obtain ⟨rfl, rfl⟩ := Prod.mk.inj (Except.ok.inj h)
        exact ⟨rfl, old, patched, hold, hpatched, hser⟩

/-- What a successful `PATCH` of a stored resource did: the patch was granted, the body computed
and stored under the media type of the format it was read in. -/
def Patched (s : LdpState) (req : Request) (target : LdpTarget) (b : Backend) (m : ResourceMeta)
    (body : Bytes) (b' : Backend) : Prop :=
  ∃ patch newBody newMeta,
    Granted s.wac b target.iri req.requester (requiredMode target.iri (patchMode patch)) ∧
    s.patchedBody (some ⟨body, m⟩) patch target.iri =
      .ok (newBody, storedFormat m.contentType) ∧
    b'.record? target.iri = some (newMeta, some newBody) ∧
    newMeta.contentType = (storedFormat m.contentType).mediaType

/-- Finishing a write does not touch the backend. -/
theorem backend_finishWrite (target : Iri) (existed : Bool) (m : ResourceMeta) (w : World) :
    (exec (finishWrite target existed m) w).2.backend = w.backend := by
  obtain ⟨sent, hsent⟩ := exec_finishWrite target existed m w
  rw [hsent]

/-- A stored resource that is written in place holds the new body afterwards. -/
theorem spec_overwrite (hc : Consistent w) (requester : Requester) (target : Iri) (body : Bytes)
    (contentType : Text) :
    Spec (do
      let m ← s.storeTarget target requester true body contentType
      finishWrite target true m) w
      (Spec.OnOk fun _ w' => ∃ m, w'.backend.record? target = some (m, some body) ∧
        m.contentType = contentType) := by
  show Spec (write target body contentType >>= finishWrite target true) w _
  refine Spec.onOk_bind (spec_write hc target body contentType) ?_
  rintro m v ⟨-, -, hholds⟩
  intro resp _
  refine ⟨m, ?_, hholds.contentType_eq⟩
  show (exec (finishWrite target true m) v).2.backend.record? target = some (m, some body)
  rw [backend_finishWrite]
  simp only [Backend.record?, hholds.record, Option.map_some, hholds.bytes]

/-- **A successful `PATCH`** of a stored resource, from beginning to end. -/
theorem spec_patched (hs : Sound s.wac w) (hmethod : req.method = .patch) {target : LdpTarget}
    (hparsed : parseTarget s.baseUrl req.path = .ok target) {m : ResourceMeta} {body : Bytes}
    (hm : w.backend.index.meta? target.iri = some m)
    (hbody : w.backend.blobs.lookup m.blobKey = some body) :
    Spec (s.serve req) w
      (Spec.OnOk fun _ w' => Patched s req target w.backend m body w'.backend) := by
  rw [serve_eq_gate (.inr (.inl hmethod))]
  refine Spec.onOk_bind (((perused_gate req).calm rfl hs).and spec_gate) ?_
  rintro g w₂ ⟨⟨hs₂, -⟩, hg⟩
  refine Spec.onOk_check_bind fun _ _ => ?_
  cases hg g rfl with
  | put hput | delete hput => simp [hmethod] at hput
  | @patch target' patch granted current _ hparsed' _ hauth hread hcurrent =>
    obtain rfl := Except.ok.inj (hparsed.symm.trans hparsed')
    obtain ⟨⟨hs₁, hq₁⟩, hgranted⟩ :=
      spec_authorizeMode hs target.iri (patchMode patch) req.requester
    -- the resource that is read is the one that is stored
    obtain ⟨⟨resBody, resMeta⟩, rfl, hres⟩ : ∃ res, current = some res ∧ res.meta_ = m := by
      rw [hm] at hcurrent
      exact Option.map_eq_some_iff.mp hcurrent
    obtain rfl : resMeta = m := hres
    obtain rfl : resBody = body := by
      have hm₁ := hm
      rw [← hq₁.backend] at hm₁ hbody
      have hlookup := lookup_of_fetchOutcome hs₁.toConsistent hm₁ ((readCurrent_ok hread).2 _ rfl)
      exact Option.some.inj (hlookup.symm.trans hbody)
    refine Spec.onOk_check_bind ?_
    rintro ⟨newBody, f⟩ hpatched
    obtain ⟨rfl, -⟩ := patchedBody_ok hpatched
    refine (spec_overwrite hs₂.toConsistent req.requester target.iri newBody _).mono ?_
    intro r w' hstored resp hresp
    obtain ⟨newMeta, hrecord, hct⟩ := hstored resp hresp
    exact ⟨patch, newBody, newMeta, (hgranted _ hauth).1, hpatched, hrecord, hct⟩

/-! ## §3 Append-only requesters -/

/-- A patch granted to a requester without `Write`, and without `Control` on an ACL, deletes
nothing. -/
theorem deletes_nil_of_granted {b : Backend} {target : Iri} {requester : Requester}
    {patch : N3Patch} (hwrite : ¬ Granted s.wac b target requester .write)
    (hcontrol : isAclResource target = true → ¬ Granted s.wac b target requester .control)
    (h : Granted s.wac b target requester (requiredMode target (patchMode patch))) :
    patch.deletes = [] := by
  by_contra hdel
  unfold requiredMode patchMode at h
  split_ifs at h with hacl
  · exact hcontrol hacl h
  · exact hwrite h

/-- **Appending keeps what was there.**  When a `PATCH` by a requester without `Write` (and on an
ACL without `Control`) succeeds on a resource stored under an RDF type, the resource is still
stored under that format, and every default-graph triple of the old body is one of the new. -/
theorem append_keeps_triples (s : LdpState) (hcodec : RoundTrips s.codec) (w : World)
    (hs : Sound s.wac w) (req : Request) (hmethod : req.method = .patch) (target : LdpTarget)
    (hparsed : parseTarget s.baseUrl req.path = .ok target) (m : ResourceMeta) (body : Bytes)
    (hrecord : w.backend.record? target.iri = some (m, some body)) (f : RdfFormat)
    (hformat : classify (some m.contentType) = .ok f)
    (hwrite : ¬ Granted s.wac w.backend target.iri req.requester .write)
    (hcontrol : isAclResource target.iri = true →
      ¬ Granted s.wac w.backend target.iri req.requester .control)
    (resp : Response) (hsuccess : (exec (s.serve req) w).1 = .ok resp) :
    ∃ m' body' old new,
      (s.handle req w).2.backend.record? target.iri = some (m', some body') ∧
      m'.contentType = f.mediaType ∧ classify (some m'.contentType) = .ok f ∧
      parseToTriples s.codec f body target.iri = .ok old ∧
      parseToTriples s.codec f body' target.iri = .ok new ∧ ∀ t ∈ old, t ∈ new := by
  obtain ⟨m₀, hm, heq⟩ := Option.map_eq_some_iff.mp hrecord
  obtain ⟨rfl, hbody⟩ := Prod.mk.inj heq
  have hspec := spec_patched hs hmethod hparsed hm hbody
  obtain ⟨patch, newBody, newMeta, hgranted, hpatched, hrecord', hct⟩ := hspec resp hsuccess
  have hstored : storedFormat m₀.contentType = f := by
    unfold storedFormat
    rw [hformat]
  rw [hstored] at hpatched hct
  obtain ⟨-, old, patched, hold, happly, hser⟩ := patchedBody_ok hpatched
  obtain ⟨new, hnew, hmem⟩ := parse_serialize hcodec (badBase_of_parse hold) hser
  have hdel := deletes_nil_of_granted hwrite hcontrol hgranted
  refine ⟨newMeta, newBody, old, new, hrecord', hct, by rw [hct, classify_mediaType], hold, hnew, ?_⟩
  intro t ht
  exact (hmem t).mpr (mem_applyPatch_of_insert_only hdel happly ht)

/-! ## §4 A storage everybody may append to -/

/-- A statement about `#x`, by its object. -/
def noteTriple (object : String) : Triple :=
  ⟨.namedNode "#x".toList, "#p".toList, .namedNode object.toList⟩

/-- The rules of an ACL, then a statement of a named graph and two of the default graph. -/
def noteTable : List Quad :=
  ruleTable samplePod ++ [⟨noteTriple "#secret", .namedNode "#g".toList⟩,
    ⟨noteTriple "#new", .defaultGraph⟩, ⟨noteTriple "#old", .defaultGraph⟩]

/-- The patch that inserts the new statement. -/
def insertRules : List N3Quad :=
  [⟨.blankNode "p".toList, .namedNode (solidTerm "inserts"), .blankNode "g".toList, .defaultGraph⟩,
    ⟨.namedNode "#x".toList, .namedNode "#p".toList, .namedNode "#new".toList,
      .blankNode "g".toList⟩]

def noteState : LdpState := ⟨tableCodec noteTable insertRules, "http://h".toList, "DPoP".toList⟩

def noteTarget : LdpTarget := ⟨"http://h/d".toList, "http://h/d".toList, false⟩

/-- Everybody may append, and the Turtle document `/d` holds the old statement. -/
def noteWorld : World :=
  World.seeded samplePod [(noteTarget.iri, [10]), (aclFor samplePod, [0, 1, 2, 3, 6])]

/-- An anonymous `PATCH` of `/d` that inserts the new statement. -/
def insertNote : Request :=
  ⟨.patch, "/d".toList, HeaderMap.setStr [] .contentType "text/n3".toList, [0, 1], none⟩

/-- The old statement of `/d` is still there after the insertion. -/
theorem append_keeps_triples_note :
    ∃ m' body' old new,
      (noteState.handle insertNote noteWorld).2.backend.record? noteTarget.iri =
        some (m', some body') ∧
      m'.contentType = RdfFormat.turtle.mediaType ∧ classify (some m'.contentType) = .ok .turtle ∧
      parseToTriples noteState.codec .turtle [10] noteTarget.iri = .ok old ∧
      parseToTriples noteState.codec .turtle body' noteTarget.iri = .ok new ∧ ∀ t ∈ old, t ∈ new := by
  have hrun : (exec (noteState.serve insertNote) noteWorld).1 =
        .ok (writeResponse true ⟨[], [], etagFor [10, 9], none⟩ noteTarget.iri) ∧
      ¬ Granted noteState.wac noteWorld.backend noteTarget.iri insertNote.requester .write ∧
      isAclResource noteTarget.iri = false ∧
      parseTarget noteState.baseUrl insertNote.path = .ok noteTarget := by decide +kernel
  obtain ⟨m, hrecord, hct⟩ : ∃ m, noteWorld.backend.record? noteTarget.iri = some (m, some [10]) ∧
      classify (some m.contentType) = .ok .turtle := by
    refine ⟨⟨"text/turtle".toList, "http___h_d-02000000000000000000000000000000".toList,
      etagFor [10], some 2000000000⟩, ?_, ?_⟩ <;> decide +kernel
  exact append_keeps_triples noteState (roundTrips_tableCodec _ _) noteWorld (sound_seeded _ _)
    insertNote rfl noteTarget hrun.2.2.2 m [10] hrecord .turtle hct hrun.2.1
    (fun hacl => by rw [hrun.2.2.1] at hacl; cases hacl) _ hrun.1

/-- The quads of a stored JSON-LD document. -/
def storedQuads (s : LdpState) (b : Backend) (iri : Iri) : Option (List Quad) := do
  let (_, body) ← b.record? iri
  let body ← body
  (s.codec.parseJsonLd iri body).toOption

/-- `/d` as a JSON-LD document with a statement in a named graph. -/
def graphWorld : World :=
  (exec (write noteTarget.iri [8] RdfFormat.jsonLd.mediaType)
    (World.seeded samplePod [(aclFor samplePod, [0, 1, 2, 3, 6])])).2

/-- **Named graphs are lost**: an append-only `PATCH` of a JSON-LD document succeeds, and the
statement of its named graph is gone. -/
theorem patch_drops_named_graphs :
    RoundTrips noteState.codec ∧
    (noteState.handle insertNote graphWorld).1.status = 204 ∧
    Granted noteState.wac graphWorld.backend noteTarget.iri insertNote.requester .append ∧
    ¬ Granted noteState.wac graphWorld.backend noteTarget.iri insertNote.requester .write ∧
    storedQuads noteState graphWorld.backend noteTarget.iri =
      some [⟨noteTriple "#secret", .namedNode "#g".toList⟩] ∧
    storedQuads noteState (noteState.handle insertNote graphWorld).2.backend noteTarget.iri =
      some [⟨noteTriple "#new", .defaultGraph⟩] :=
  ⟨roundTrips_tableCodec _ _, by decide +kernel⟩

end SolidServer.Ldp.LdpState
