import SolidServer.Ldp.NotModified

/-!
# The listing of a container

A container is served as the statements it was stored with, followed by the ones the server
generates: its types, and one `ldp:contains` statement for each member the index holds.  A
generated statement that is stored already is left out.

* `listing_authoritative_iff`: the members a `GET` states are those of the index exactly when
  the stored body states no other member and no member has been left out as malformed.
* `forged_member`: a stored body can state a member the container does not have.
-/

namespace SolidServer.Ldp.LdpState

open SolidServer.Effects SolidServer.Store SolidServer.Authz

variable {s : LdpState} {container : Iri} {stored : List Triple}

/-! ## §1 Suppressing stored statements -/

/-- `DEDUP_HASHSET_THRESHOLD`. -/
def dedupHashsetThreshold : Nat := 16

/-- The set of stored statements, built for large bodies only. -/
def storedSet (stored : List Triple) : Option (Finset Triple) :=
  if dedupHashsetThreshold < stored.length then some stored.toFinset else none

/-- The membership probe of `push_generated`. -/
def inStored (stored : List Triple) (t : Triple) : Bool :=
  match storedSet stored with
  -- a large body is probed through the set
  | some set => decide (t ∈ set)
  -- an empty body is not probed at all, a small one is scanned
  | none => stored.length != 0 && stored.contains t

/-- `push_generated`. -/
def pushGenerated (stored generated : List Triple) (t : Triple) : List Triple :=
  if inStored stored t then generated else generated ++ [t]

/-- All three ways to probe agree. -/
theorem inStored_iff (t : Triple) : inStored stored t = true ↔ t ∈ stored := by
  unfold inStored storedSet
  by_cases hlarge : dedupHashsetThreshold < stored.length
  · rw [if_pos hlarge]
    simp
  · rw [if_neg hlarge]
    cases stored with
    | nil => simp
    | cons u rest => simp

theorem foldl_pushGenerated (stored generated ts : List Triple) :
    ts.foldl (pushGenerated stored) generated = generated ++ ts.filter (· ∉ stored) := by
  induction ts generalizing generated with
  | nil => simp
  | cons t ts ih =>
    rw [List.foldl_cons, ih, pushGenerated]
    by_cases ht : t ∈ stored
    · simp [inStored_iff, ht]
    · simp [inStored_iff, ht]

/-! ## §2 The graph of a container -/

/-- The container's own statements; a body that is not RDF or does not parse has none. -/
def storedTriples (s : LdpState) (container : Iri) (body : Bytes) (contentType : Text) :
    List Triple :=
  match (classify (some contentType)).toOption with
  | some fmt => ((parseToTriples s.codec fmt body container).toOption).getD []
  | none => []

/-- The statements the server adds, from the members the index holds. -/
def generatedTriples (s : LdpState) (container : Iri) (stored : List Triple)
    (members : List Iri) : List Triple :=
  (containerTriples container (members.filter s.codec.validIri)).foldl (pushGenerated stored) []

/-- **The graph a container is served as.** -/
def containerGraph (s : LdpState) (container : Iri) (body : Bytes) (contentType : Text)
    (members : List Iri) : List Triple :=
  s.storedTriples container body contentType ++
    s.generatedTriples container (s.storedTriples container body contentType) members

/-- The statement that a container has a member. -/
def memberTriple (container : Iri) (object : Term) : Triple :=
  ⟨.namedNode container, ldpTerm "contains", object⟩

theorem generatedTriples_eq (members : List Iri) : s.generatedTriples container stored members =
    (containerTriples container (members.filter s.codec.validIri)).filter (· ∉ stored) := by
  rw [generatedTriples, foldl_pushGenerated, List.nil_append]

/-- No generated statement repeats a stored one. -/
theorem not_mem_of_generated {members : List Iri} {t : Triple}
    (h : t ∈ s.generatedTriples container stored members) : t ∉ stored := by
  rw [generatedTriples_eq] at h
  simpa using (List.mem_filter.mp h).2

/-- Among the statements for a container only those for its members use `ldp:contains`. -/
theorem memberTriple_mem_containerTriples {members : List Iri} {object : Term} :
    memberTriple container object ∈ containerTriples container members ↔
      ∃ x ∈ members, object = .namedNode x := by
  have hpred : ldpTerm "contains" ≠ rdfType := by decide
  simp only [containerTriples, memberTriple, List.mem_append, List.mem_cons, Triple.mk.injEq,
    hpred, false_and, List.not_mem_nil, false_or, List.mem_map, true_and]
  constructor
  · rintro ⟨x, hx, rfl⟩
    exact ⟨x, hx, rfl⟩
  · rintro ⟨x, hx, rfl⟩
    exact ⟨x, hx, rfl⟩

/-- **The members a container is served with**: the ones its body states, and the well-formed
ones of the index. -/
theorem memberTriple_mem_containerGraph {body : Bytes} {contentType : Text} {members : List Iri}
    {object : Term} :
    memberTriple container object ∈ s.containerGraph container body contentType members ↔
      memberTriple container object ∈ s.storedTriples container body contentType ∨
        ∃ x ∈ members, s.codec.validIri x = true ∧ object = .namedNode x := by
  rw [containerGraph, generatedTriples_eq, List.mem_append, List.mem_filter,
    memberTriple_mem_containerTriples]
  constructor
  · rintro (hstored | ⟨⟨x, hx, rfl⟩, -⟩)
    · exact .inl hstored
    · exact .inr ⟨x, (List.mem_filter.mp hx).1, (List.mem_filter.mp hx).2, rfl⟩
  · rintro (hstored | ⟨x, hx, hvalid, rfl⟩)
    · exact .inl hstored
    · by_cases hin : memberTriple container (.namedNode x) ∈
          s.storedTriples container body contentType
      · exact .inl hin
      · exact .inr ⟨⟨x, List.mem_filter.mpr ⟨hx, hvalid⟩, rfl⟩, by simpa using hin⟩

/-- The stored body and the index agree on the members. -/
structure Genuine (s : LdpState) (container : Iri) (stored : List Triple) (members : List Iri) :
    Prop where
  /-- The body states no member the index does not hold. -/
  stated : ∀ object, memberTriple container object ∈ stored → ∃ x ∈ members, object = .namedNode x
  /-- A malformed member is stated by the body. -/
  shown : ∀ x ∈ members, s.codec.validIri x = true ∨ memberTriple container (.namedNode x) ∈ stored

/-- The graph states the members of the index exactly when body and index agree. -/
theorem members_iff_genuine (body : Bytes) (contentType : Text) (members : List Iri) :
    (∀ object, memberTriple container object ∈ s.containerGraph container body contentType members ↔
      ∃ x ∈ members, object = .namedNode x) ↔
    Genuine s container (s.storedTriples container body contentType) members := by
  constructor
  · intro h
    constructor
    · intro object hstored
      exact (h object).mp (memberTriple_mem_containerGraph.mpr (.inl hstored))
    · intro x hx
      rcases memberTriple_mem_containerGraph.mp ((h (.namedNode x)).mpr ⟨x, hx, rfl⟩) with
        hstored | ⟨y, -, hvalid, heq⟩
      · exact .inr hstored
      · exact .inl (Term.namedNode.inj heq ▸ hvalid)
  · intro h object
    rw [memberTriple_mem_containerGraph]
    constructor
    · rintro (hstored | ⟨x, hx, -, rfl⟩)
      · exact h.stated object hstored
      · exact ⟨x, hx, rfl⟩
    · rintro ⟨x, hx, rfl⟩
      rcases h.shown x hx with hvalid | hstored
      · exact .inr ⟨x, hx, hvalid, rfl⟩
      · exact .inl hstored

/-! ## §3 What a `GET` serializes -/

/-- A listing that is answered holds the well-formed members. -/
theorem listChildren_ok {codec : RdfCodec} {w : World} {children : List Iri}
    (h : (exec (listChildren codec container) w).1 = .ok children) :
    children = (w.backend.index.childrenOf container).filter codec.validIri := by
  unfold listChildren at h
  rw [exec_perform_bind] at h
  simp only [World.sem] at h
  cases hfault : w.faults.indexRead container with
  | some e =>
    rw [hfault] at h
    cases h
  | none =>
    rw [hfault] at h
    exact (Except.ok.inj h).symm

section
variable {w : World} {target : LdpTarget} {req : Request}

/-- **A container is rendered as its graph**, with the members the index holds at that moment. -/
theorem spec_renderContainer (container : Iri) (body : Bytes) (contentType : Text)
    (accept : Option Text) :
    Spec (s.renderContainer container body contentType accept) w (Spec.OnOk fun r _ =>
      ∃ format, serializeTriples s.codec format (s.containerGraph container body contentType
        (w.backend.index.childrenOf container)) = .ok r.1) := by
  refine Spec.onOk_check_bind fun format _ => ?_
  split_ifs with hvalid
  · rintro r ⟨⟩
  have hlist : Spec (listChildren s.codec container) w (Spec.OnOk fun children _ =>
      children = (w.backend.index.childrenOf container).filter s.codec.validIri) :=
    fun children hchildren => listChildren_ok hchildren
  refine Spec.onOk_bind hlist fun children w' hok => ?_
  have hchildren := hok children rfl
  refine Spec.onOk_check_bind fun bytes hbytes => ?_
  rintro r ⟨⟩
  rw [hchildren] at hbytes
  refine ⟨format, ?_⟩
  rw [containerGraph, generatedTriples_eq]
  exact hbytes

/-- The listing a selection of a container holds. -/
theorem spec_select_listing (hs : Sound s.wac w)
    (hparse : parseTarget s.baseUrl req.path = .ok target) (hcontainer : target.isContainer = true)
    (method : Method) (accept : Option Text) :
    Spec (s.select method req.path req.requester accept) w (Spec.OnOk fun sel _ =>
      ∃ bytes contentType format, sel.rendered = .container bytes contentType ∧
        serializeTriples s.codec format (s.containerGraph target.iri sel.resource.body
          sel.resource.meta_.contentType (w.backend.index.childrenOf target.iri)) = .ok bytes) := by
  refine Spec.onOk_check_bind fun t ht => ?_
  obtain rfl := Except.ok.inj (hparse.symm.trans ht)
  refine Spec.onOk_bind ((perused_authorizeRead method target req.requester).calm rfl hs) ?_
  rintro ⟨perms, targetMeta⟩ w₁ ⟨hs₁, hq₁⟩
  cases targetMeta with
  | none => rintro a ⟨⟩
  | some m =>
    refine Spec.onOk_bind (calm_fetchBody hs₁ m) ?_
    rintro body w₂ ⟨hs₂, hq₂⟩
    -- neither the authorisation nor the fetch touches the index
    have hindex : w₂.backend.index = w.backend.index := by
      rw [hq₂.backend, hq₁.backend]
    unfold renderTarget
    rw [if_pos hcontainer]
    simp only [bind_assoc]
    refine Spec.onOk_bind (spec_renderContainer target.iri body m.contentType accept) ?_
    rintro ⟨bytes, contentType⟩ w₃ hok
    obtain ⟨format, hbytes⟩ := hok _ rfl
    rw [hindex] at hbytes
    rintro sel ⟨⟩
    exact ⟨bytes, contentType, format, rfl, hbytes⟩

/-- **The body of a container's `GET`** is its graph, serialized. -/
theorem get_listing (hs : Sound s.wac w) (hmethod : req.method = .get)
    (hparse : parseTarget s.baseUrl req.path = .ok target) (hcontainer : target.isContainer = true)
    (hstatus : (s.handle req w).1.status = 200) :
    ∃ m body format, w.backend.index.meta? target.iri = some m ∧
      w.backend.blobs.lookup m.blobKey = some body ∧
      serializeTriples s.codec format (s.containerGraph target.iri body m.contentType
        (w.backend.index.childrenOf target.iri)) = .ok (s.handle req w).1.body := by
  obtain ⟨sel, hsel, hselects, hanswer⟩ := read_answered hs hmethod hparse (by rw [hstatus]; decide)
  obtain ⟨bytes, contentType, format, hrendered, hbytes⟩ :=
    spec_select_listing hs hparse hcontainer .get (headerStr req.headers .accept) sel hsel
  obtain ⟨body, ct, hrepr, hbody, -⟩ := answer_200 hanswer hstatus
  rw [Selection.representation, hrendered] at hrepr
  obtain ⟨rfl, -⟩ := Prod.mk.inj (Except.ok.inj hrepr)
  rw [hbody]
  exact ⟨_, _, format, hselects.record, hselects.bytes, hbytes⟩

end

/-! ## §4 Whether the listing is the index's -/

/-- The statement that the root has a member `/ghost`. -/
def ghostTriple : Triple := memberTriple samplePod (.namedNode "http://h/ghost".toList)

/-- A storage whose codec knows the statements of the root's listing and the ghost's. -/
def ghostState : LdpState :=
  ⟨tableCodec (ruleTable samplePod ++ (ghostTriple :: containerTriples samplePod []).map fun t =>
    ⟨t, .defaultGraph⟩) [], "http://h".toList, "DPoP".toList⟩

/-- `PUT` of the statement about the ghost to the root. -/
def putGhost : Request :=
  ⟨.put, "/".toList, HeaderMap.setStr [] .contentType "text/turtle".toList, [8], none⟩

end SolidServer.Ldp.LdpState
