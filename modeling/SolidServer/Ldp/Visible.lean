import SolidServer.Ldp.Listing
import SolidServer.Ldp.Slash
import SolidServer.Text.Iri

/-!
# Created resources are listed

A listing leaves out members whose names are not IRIs, and a container whose own name is none
cannot be rendered.  Bodies of an RDF type are parsed against the target's name before anything
is stored, and so are patches; a body of any other type is stored under whatever name the path
gives.

* `created_visible`: if the targets of `PUT`s of such bodies are IRIs, everything that is listed
  is an IRI, every resource is shown by its container, and every container can be rendered.
* `invisible_member`: a `PUT` of a text to `/a^b` succeeds, and the root does not show it.
-/

namespace SolidServer.Ldp.LdpState

open SolidServer.Effects SolidServer.Store SolidServer.Authz
open SolidServer.Effects.Program (Heeds)
open SolidServer.Text (isIri isPathChar pctAll IsBase)

variable {s : LdpState} {req : Request} {target : LdpTarget} {seen : List (Event storeSig)}
  {ipLiteral : Text → Bool}

/-! ## §1 Names that are IRIs -/

/-- The RDF libraries check names, and bases of documents, by the grammar of RFC 3987. -/
structure ChecksIris (codec : RdfCodec) (ipLiteral : Text → Bool) : Prop where
  valid : ∀ t, codec.validIri t = isIri ipLiteral t
  base : ∀ t, codec.badBase t = none → isIri ipLiteral t = true

/-- A name below the base URL whose path is well formed. -/
def Clean (s : LdpState) (x : Iri) : Prop :=
  ∃ rel, x = Text.trimEndMatches s.baseUrl '/' ++ '/' :: rel ∧ pctAll isPathChar rel = true

theorem Clean.isIri (hbase : IsBase ipLiteral (Text.trimEndMatches s.baseUrl '/')) {x : Iri}
    (h : Clean s x) : isIri ipLiteral x = true := by
  obtain ⟨rel, rfl, hrel⟩ := h
  rw [Text.isIri_append hbase, hrel]
  · exact Text.not_mem_of_pctAll (by decide) (by decide) (by decide) hrel
  · exact Text.not_mem_of_pctAll (by decide) (by decide) (by decide) hrel

theorem clean_root : Clean s (s.dir []) := by
  refine ⟨[], ?_, rfl⟩
  rw [dir_nil]
  rfl

theorem clean_rootAcl : Clean s (aclFor (storageRoot s.baseUrl)) := by
  refine ⟨aclSuffix, ?_, by decide⟩
  rw [aclFor, storageRoot, List.append_assoc]
  rfl

/-- A target that is an IRI has a well-formed path: its query was cut off. -/
theorem clean_target (hbase : IsBase ipLiteral (Text.trimEndMatches s.baseUrl '/'))
    (hparsed : parseTarget s.baseUrl req.path = .ok target)
    (hiri : Text.isIri ipLiteral target.iri = true) : Clean s target.iri := by
  obtain ⟨rel, hrel⟩ := parseTarget_ok hparsed
  have hname : target.iri = Text.trimEndMatches s.baseUrl '/' ++ '/' :: rel := by
    rw [hrel.iri, storageRoot, List.append_assoc]
    rfl
  have hplain : ∀ c ∈ rel, c ≠ '?' ∧ c ≠ '#' := by
    intro c hc
    have hmem : c ∈ pathOnly req.path := by
      rw [hrel.path]
      exact List.mem_cons_of_mem _ hc
    simpa using List.mem_takeWhile_imp hmem
  rw [hname, Text.isIri_append hbase] at hiri
  · exact ⟨rel, hname, hiri⟩
  · exact fun hmem => (hplain _ hmem).1 rfl
  · exact fun hmem => (hplain _ hmem).2 rfl

/-- **Containers above a clean name are clean**: a path can be cut at a slash. -/
theorem Clean.above {x y : Iri} (h : Clean s y) (hroot : s.dir [] <+: x) (hxy : x <+: y)
    (hslash : x.getLast? = some '/') : Clean s x := by
  obtain ⟨rel, rfl, hrel⟩ := h
  obtain ⟨more, rfl⟩ := hroot
  have hdir : s.dir [] = Text.trimEndMatches s.baseUrl '/' ++ ['/'] := by
    rw [dir_nil]
    rfl
  rw [hdir] at hxy hslash ⊢
  rw [List.append_assoc, List.singleton_append] at hxy hslash ⊢
  refine ⟨more, rfl, ?_⟩
  obtain ⟨rest, hrest⟩ := hxy
  have hsplit : rel = more ++ rest := by
    rw [List.append_assoc] at hrest
    exact (List.cons.inj (List.append_cancel_left hrest)).2.symm
  rcases List.eq_nil_or_concat more with rfl | ⟨before, c, rfl⟩
  · rfl
  · -- what is below the root ends in a slash, and the text is cut there
    rw [List.concat_eq_append] at hslash hsplit ⊢
    rw [← List.cons_append, ← List.append_assoc, List.getLast?_concat] at hslash
    obtain rfl := Option.some.inj hslash
    rw [hsplit, List.append_assoc] at hrel
    have hbefore := (Text.pctAll_cut (by decide) (by decide) hrel).1
    rw [Text.pctAll_append hbefore]
    decide

theorem isPathChar_minted {c : Char} (h : isMintedChar c = true) :
    c ≠ '%' ∧ isPathChar c = true := by
  constructor
  · rintro rfl
    exact absurd h (by decide)
  · have halpha : c.isAlpha = (decide ('A' ≤ c ∧ c ≤ 'Z') || decide ('a' ≤ c) && decide (c ≤ 'z')) :=
      rfl
    have hcases : Text.isUnreserved c = true ∨ c = '/' := by
      simp only [isMintedChar, Char.isAlphanum, halpha, Char.isDigit, Bool.or_eq_true,
        Bool.and_eq_true, decide_eq_true_eq] at h
      simp only [Text.isUnreserved, Text.isAsciiAlpha, Bool.or_eq_true, Bool.and_eq_true,
        decide_eq_true_eq]
      tauto
    rcases hcases with hcase | rfl
    · simp [isPathChar, Text.isIpchar, Text.isIunreserved, hcase]
    · decide

/-- A minted child of a clean container is clean. -/
theorem Clean.child {container child : Iri} (h : Clean s container) (hnamed : Named s container)
    (hslash : container.getLast? = some '/') (hplain : PlainChild container child) :
    Clean s child := by
  obtain ⟨seg, rfl, hseg⟩ := hplain
  obtain ⟨rel, hcontainer, hrel⟩ := h
  obtain ⟨name, hname⟩ := List.getLast?_eq_some_iff.mp hslash
  have hend := hnamed.dropLast hslash
  rw [hname, List.dropLast_concat] at hend
  have htrim : Text.trimEndMatches container '/' = name := by
    rw [hname, Text.trimEndMatches_concat_self, Text.trimEndMatches_eq_self hend]
  refine ⟨rel ++ seg, ?_, ?_⟩
  · rw [htrim, ← List.cons_append, ← List.append_assoc, ← hcontainer, hname]
    simp
  · rw [Text.pctAll_append hrel]
    exact Text.pctAll_of_forall fun c hc => isPathChar_minted (hseg c hc)

/-! ## §2 What a request may store -/

/-- A document that parses against a name shows that the name is an IRI. -/
theorem badBase_of_scanSparql {codec : RdfCodec} {baseIri : Iri} {fuel : Nat} {text : Text}
    {scan out : SparqlScan} (h : scanSparql codec baseIri fuel text scan = .ok out)
    (hsaw : out.sawAny = true) : scan.sawAny = true ∨ codec.badBase baseIri = none := by
  induction fuel generalizing text scan with
  | zero =>
    obtain rfl := Except.ok.inj h
    exact .inl hsaw
  | succ fuel ih =>
    unfold scanSparql at h
    simp only at h
    split_ifs at h
    · obtain rfl := Except.ok.inj h
      exact .inl hsaw
    · -- a prologue line leaves the mark as it is
      exact (ih h :)
    all_goals
      split at h
      · cases h
      · split at h
        · cases h
        · split at h
          · cases h
          · split at h
            · cases h
            · -- a block was parsed, against the base
              rename_i hparsed
              refine .inr ?_
              unfold parseToConcreteTriples at hparsed
              cases hbad : codec.badBase baseIri with
              | none => rfl
              | some e =>
                rw [hbad] at hparsed
                cases hparsed

theorem badBase_of_parsePatch {iri : Iri} {patch : N3Patch} (h : s.parsePatch req iri = .ok patch) :
    s.codec.badBase iri = none := by
  unfold parsePatch at h
  split at h
  · cases h
  · unfold parseN3Patch at h
    cases hbad : s.codec.badBase iri with
    | none => rfl
    | some e =>
      rw [hbad] at h
      cases h
  · unfold parseSparqlUpdate at h
    split at h
    · cases h
    · split at h
      · cases h
      · rename_i scan hscan
        split_ifs at h with hempty
        · cases h
        · have hsaw : scan.sawAny = true := by
            cases hs : scan.sawAny with
            | true => rfl
            | false => simp [hs] at hempty
          exact (badBase_of_scanSparql hscan hsaw).resolve_left (by decide)

/-- The target of a `PUT` of a body that is not RDF is an IRI. -/
def OpaquePutValid (s : LdpState) (ipLiteral : Text → Bool) (req : Request) : Prop :=
  ∀ target contentType, req.method = .put → parseTarget s.baseUrl req.path = .ok target →
    requireContentType req.headers = .ok contentType →
    (∀ format, classify (some contentType) ≠ .ok format) → isIri ipLiteral target.iri = true

/-- **A target that may be made is an IRI.** -/
theorem Making.isIri (h : Making s req seen target) (hcodec : ChecksIris s.codec ipLiteral)
    (hunparsed : OpaquePutValid s ipLiteral req) : Text.isIri ipLiteral target.iri = true := by
  rcases h.method with hput | hpatch
  · obtain ⟨contentType, storedType, hcontent, hstored⟩ := h.admitted.put hput
    by_cases hrdf : ∃ format, classify (some contentType) = .ok format
    · -- the body was parsed against the target's name
      obtain ⟨format, hformat⟩ := hrdf
      unfold validateWritable validateRdf at hstored
      rw [hformat] at hstored
      cases hparse : parseToTriples s.codec format req.body target.iri with
      | error e =>
        simp only [hparse] at hstored
        cases hstored
      | ok triples => exact hcodec.base _ (badBase_of_parse hparse)
    · exact hunparsed target contentType hput h.parsed hcontent fun format hformat =>
        hrdf ⟨format, hformat⟩
  · obtain ⟨patch, hparse⟩ := h.admitted.patch hpatch
    exact hcodec.base _ (badBase_of_parsePatch hparse)

/-- A creation that stores its child finds its container. -/
theorem isSome_container {u : World} {c x : Iri} {m : ResourceMeta}
    (hx : ((World.sem u (.createChild c x m)).2.backend.index.meta? x).isSome)
    (hnew : ¬ (u.backend.index.meta? x).isSome) : (u.backend.index.meta? c).isSome := by
  by_contra hc
  rw [Option.not_isSome_iff_eq_none] at hc
  simp only [World.sem, Index.createChild, hc] at hx
  split at hx
  · exact hnew hx
  · exact hnew hx

section
variable {i₀ : Index} {u : World} {o : StoreOp} {x : Iri}

/-- **What a request stores is clean**, if what it found is. -/
theorem Justified.clean (h : Justified s req seen o) (hcodec : ChecksIris s.codec ipLiteral)
    (hbase : IsBase ipLiteral (Text.trimEndMatches s.baseUrl '/'))
    (hunparsed : OpaquePutValid s ipLiteral req) (hpath : ¬ "//".toList <:+: req.path)
    (ha : Aware i₀ seen u.backend.index) (hclean : ∀ y, (u.backend.index.meta? y).isSome → Clean s y)
    (hx : StoresName x o) (hsome : ((World.sem u o).2.backend.index.meta? x).isSome) :
    Clean s x := by
  have htarget : ∀ {t}, Making s req seen t → Clean s t.iri := by
    intro t hm
    exact clean_target hbase hm.parsed (hm.isIri hcodec hunparsed)
  cases h with
  | passive h => exact absurd h hx.not_passive
  | replace _ _ hfound =>
    obtain rfl := hx.unique ⟨_, .inl rfl⟩
    exact hclean _ (ha.present _ (.inl hfound))
  | acl hm _ | orphan hm _ _ =>
    obtain rfl := hx.unique ⟨_, .inl rfl⟩
    exact htarget hm
  | root _ _ =>
    obtain rfl := hx.unique ⟨_, .inl rfl⟩
    rw [← dir_nil]
    exact clean_root
  | ancestor hm _ hway _ _ =>
    obtain rfl := hx.unique ⟨_, .inr ⟨_, rfl⟩⟩
    obtain ⟨hnamed, hle⟩ := ancestor_named hm.parsed hpath hway
    exact (htarget hm).above hnamed.prefix hle (getLast?_of_mem_ancestorsOf hway)
  | settle hm _ _ _ =>
    obtain rfl := hx.unique ⟨_, .inr ⟨_, rfl⟩⟩
    exact htarget hm
  | mint _ hparsed hcontainer _ hplain _ =>
    obtain rfl := hx.unique ⟨_, .inr ⟨_, rfl⟩⟩
    by_cases hold : (u.backend.index.meta? x).isSome
    · exact hclean x hold
    · exact (hclean _ (isSome_container hsome hold)).child (named_target hparsed hpath)
        (container_getLast? hparsed hcontainer) hplain
  | unlink _ _ _ | remove _ _ _ | removeContainer _ _ =>
    obtain ⟨m, ho | ⟨c, ho⟩⟩ := hx <;> cases ho

end

/-! ## §3 Runs -/

/-- One request keeps the names clean. -/
theorem clean_handle {w : World} (hclean : ∀ x, (w.backend.index.meta? x).isSome → Clean s x)
    (hcodec : ChecksIris s.codec ipLiteral)
    (hbase : IsBase ipLiteral (Text.trimEndMatches s.baseUrl '/'))
    (hunparsed : OpaquePutValid s ipLiteral req) (hpath : ¬ "//".toList <:+: req.path) :
    ∀ x, ((s.handle req w).2.backend.index.meta? x).isSome → Clean s x := by
  by_cases hdelete : req.method = .delete
  · -- a `DELETE` stores nothing
    have huses : (s.serve req).Uses (S := storeSig) fun o => ∀ x, ¬ StoresName x o := by
      refine Heeds.uses (conducts_serve s req) fun log o ho x hx => ?_
      obtain ⟨m, hx⟩ := hx
      exact ho.method_of_stores hx hdelete
    intro x hx
    apply hclean
    refine huses.run_rel World.sem (fun u u' => (u'.backend.index.meta? x).isSome →
      (u.backend.index.meta? x).isSome) (fun _ => id) (fun h₁ h₂ h => h₁ (h₂ h)) ?_ w hx
    exact fun u o ho h => (named_step h).resolve_right (ho x)
  · obtain ⟨log, ⟨-, hend⟩, -⟩ := Heeds.run
      (J := fun log u => Aware w.backend.index log u.backend.index ∧
        ∀ x, (u.backend.index.meta? x).isSome → Clean s x)
      (conducts_serve s req) World.sem (fun log u o hj ho => by
        refine ⟨hj.1.step (ho.keeps hdelete), fun x hx => ?_⟩
        rcases named_step hx with hold | hstore
        · exact hj.2 x hold
        · exact ho.clean hcodec hbase hunparsed hpath hj.1 hj.2 hstore hx)
      ⟨aware_start _, hclean⟩
    exact hend

theorem clean_run {w : World} {reqs : List Request}
    (hclean : ∀ x, (w.backend.index.meta? x).isSome → Clean s x)
    (hcodec : ChecksIris s.codec ipLiteral)
    (hbase : IsBase ipLiteral (Text.trimEndMatches s.baseUrl '/'))
    (hunparsed : ∀ r ∈ reqs, OpaquePutValid s ipLiteral r)
    (hpaths : ∀ r ∈ reqs, ¬ "//".toList <:+: r.path) :
    ∀ x, ((s.run reqs w).backend.index.meta? x).isSome → Clean s x := by
  induction reqs generalizing w with
  | nil => exact hclean
  | cons req rest ih =>
    obtain ⟨hput, hputs⟩ := List.forall_mem_cons.mp hunparsed
    obtain ⟨hpath, hrest⟩ := List.forall_mem_cons.mp hpaths
    exact ih (clean_handle hclean hcodec hbase hput hpath) hputs hrest

theorem faults_run (reqs : List Request) (w : World) : (s.run reqs w).faults = w.faults := by
  induction reqs generalizing w with
  | nil => rfl
  | cons req rest ih =>
    show (s.run rest (s.handle req w).2).faults = w.faults
    rw [ih, faults_handle]

/-- A listing of a container by an index that works. -/
theorem exec_listChildren_ok {codec : RdfCodec} {w : World} {container : Iri}
    (hread : w.faults.indexRead container = none) :
    (exec (listChildren codec container) w).1 =
      .ok ((w.backend.index.childrenOf container).filter codec.validIri) := by
  unfold listChildren
  rw [exec_perform_bind]
  simp only [World.sem, hread]
  rfl

/-- **Created resources are visible**: from a storage with its root and the root's ACL, after
requests on paths without adjacent slashes, if the targets of `PUT`s of bodies that are not RDF
are IRIs, then all members are IRIs, every resource that is not an ACL is in its container's
listing, and every container passes the check its rendering makes on its name. -/
theorem created_visible (s : LdpState) (ipLiteral : Text → Bool)
    (hcodec : ChecksIris s.codec ipLiteral)
    (hbase : IsBase ipLiteral (Text.trimEndMatches s.baseUrl '/')) (w₀ : World)
    (hwrite : ∀ iri, w₀.faults.indexWrite iri = none)
    (hread : ∀ iri, w₀.faults.indexRead iri = none)
    (h₀ : ∀ x, (w₀.backend.index.meta? x).isSome →
      x = storageRoot s.baseUrl ∨ x = aclFor (storageRoot s.baseUrl))
    (hempty : ∀ c, w₀.backend.index.childrenOf c = [])
    (reqs : List Request) (hpaths : ∀ r ∈ reqs, ¬ "//".toList <:+: r.path)
    (hunparsed : ∀ r ∈ reqs, OpaquePutValid s ipLiteral r) :
    (∀ c x, x ∈ (s.run reqs w₀).backend.index.childrenOf c → isIri ipLiteral x = true) ∧
    (∀ x, ((s.run reqs w₀).backend.index.meta? x).isSome → x ≠ storageRoot s.baseUrl →
      isAclResource x = false → ∃ p members, parentContainer x = some p ∧
        (exec (listChildren s.codec p) (s.run reqs w₀)).1 = .ok members ∧ x ∈ members) ∧
    ∀ c, ((s.run reqs w₀).backend.index.meta? c).isSome → c.getLast? = some '/' →
      s.codec.validIri c = true := by
  have hstart : ∀ x, (w₀.backend.index.meta? x).isSome → Clean s x := by
    intro x hx
    rcases h₀ x hx with rfl | rfl
    · rw [← dir_nil]
      exact clean_root
    · exact clean_rootAcl
  have hfresh : Fresh s w₀.backend.index := by
    refine ⟨fun x hx => (h₀ x hx).imp_right ?_, hempty⟩
    rintro rfl
    exact Text.endsWith_iff.mpr ⟨_, rfl⟩
  have hclean := clean_run hstart hcodec hbase hunparsed hpaths
  have hcont := hfresh.contained.run hwrite hpaths
  have hiri : ∀ x, ((s.run reqs w₀).backend.index.meta? x).isSome → isIri ipLiteral x = true :=
    fun x hx => (hclean x hx).isIri hbase
  refine ⟨fun c x hx => hiri x (hcont.indexed c x hx), fun x hx hroot hacl => ?_, fun c hc _ => ?_⟩
  · obtain ⟨p, hp, hin⟩ := hcont.listed x hx hroot hacl
    refine ⟨p, _, hp, exec_listChildren_ok (by rw [faults_run, hread]), ?_⟩
    exact List.mem_filter.mpr ⟨hin, by rw [hcodec.valid, hiri x hx]⟩
  · rw [hcodec.valid, hiri c hc]

/-! ## §4 A name that is no IRI -/

/-- Names are checked by RFC 3987; no host is an address in brackets. -/
def rfcCodec : RdfCodec :=
  { tableCodec (ruleTable samplePod) [] with
    validIri := isIri fun _ => false
    badBase := fun t => if isIri (fun _ => false) t then none else some "invalid IRI".toList }

def rfcState : LdpState := ⟨rfcCodec, "http://h".toList, "DPoP".toList⟩

theorem checksIris_rfcCodec : ChecksIris rfcCodec fun _ => false where
  valid _ := rfl
  base t h := by
    by_contra hnot
    simp only [rfcCodec, if_neg hnot] at h
    cases h

theorem isBase_rfcState : IsBase (fun _ => false) (Text.trimEndMatches rfcState.baseUrl '/') :=
  ⟨"http".toList, "h".toList, [], by decide +kernel, by decide +kernel, by decide +kernel,
    by simp, .inl rfl, rfl⟩

/-- After a `PUT` of `/a/b` the document is in the listing of `/a/`. -/
theorem created_visible_put :
    ∃ p members, parentContainer "http://h/a/b".toList = some p ∧
      (exec (listChildren rfcCodec p) (rfcState.run [samplePut "/a/b"] openWorld)).1 = .ok members ∧
      "http://h/a/b".toList ∈ members := by
  have hunparsed : ∀ r ∈ [samplePut "/a/b"], OpaquePutValid rfcState (fun _ => false) r := by
    intro r hr target contentType _ hparsed _ _
    rw [List.mem_singleton.mp hr] at hparsed
    have hok : parseTarget rfcState.baseUrl (samplePut "/a/b").path =
        .ok ⟨"http://h/a/b".toList, "http://h/a/b".toList, false⟩ := by decide +kernel
    obtain rfl := Except.ok.inj (hok.symm.trans hparsed)
    decide +kernel
  have hread : ∀ iri, openWorld.faults.indexRead iri = none := by
    intro iri
    unfold openWorld World.seeded
    rw [faults_exec]
    rfl
  exact (created_visible rfcState (fun _ => false) checksIris_rfcCodec isBase_rfcState openWorld
    indexWrite_openWorld hread only_openWorld fresh_openWorld.empty [samplePut "/a/b"]
    (by decide +kernel) hunparsed).2.1 _ (by decide +kernel) (by decide +kernel) (by decide +kernel)

/-- The characters the HTTP library admits in a path, some of which should have been encoded. -/
def admittedInPath (c : Char) : Bool :=
  let n := c.toNat
  n == 0x21 || (0x24 ≤ n && n ≤ 0x3B) || n == 0x3D || (0x40 ≤ n && n ≤ 0x5F) ||
    (0x61 ≤ n && n ≤ 0x7A) || n == 0x7C || n == 0x7E || n == 0x22 || n == 0x7B || n == 0x7D ||
    0x80 ≤ n

/-- **A member that is not shown**: a `PUT` of a text to `/a^b` answers 201 and the root holds the
member, which is not an IRI and not in its listing; and after a `PUT` to `/c^/d` the container
`/c^/` that was made on the way cannot be read. -/
theorem invisible_member :
    (samplePut "/a^b").path.all admittedInPath = true ∧
    (samplePut "/c^/d").path.all admittedInPath = true ∧
    (rfcState.handle (samplePut "/a^b") openWorld).1.status = 201 ∧
    "http://h/a^b".toList ∈
      (rfcState.run [samplePut "/a^b"] openWorld).backend.index.childrenOf samplePod ∧
    isIri (fun _ => false) "http://h/a^b".toList = false ∧
    (exec (listChildren rfcCodec samplePod) (rfcState.run [samplePut "/a^b"] openWorld)).1.toOption =
      some [] ∧
    (rfcState.handle (samplePut "/c^/d") openWorld).1.status = 201 ∧
    (rfcState.handle (sampleGet "/c^/" "text/turtle")
      (rfcState.run [samplePut "/c^/d"] openWorld)).1.status = 500 := by
  decide +kernel

end SolidServer.Ldp.LdpState
