import SolidServer.Authz.Grant
import SolidServer.Ldp.Handler

/-!
# What a request is put together from

A request reads, authorises, and uses four operations of the store: an overwriting write,
a creation in a container, a deletion and the deletion of an empty container.  `Block`
lists them, and `Plain` says of a computation that it is put together from them and that
every other error it can end in is *ordinary*: a client or a server error other than 412.

The write handlers are such computations up to their precondition check (`gate`) and after
it.  So a 412 is always the verdict of that check (`verdict_iff`), and what every block
keeps every request keeps (`keeps_handle`).
-/

namespace SolidServer.Ldp

open SolidServer.Effects SolidServer.Store SolidServer.Authz

section
variable {α β : Type} {wac : WacAuthorizer}

/-! ## §1 Reading -/

/-- **Reading keeps worlds sound** and moves nothing but caches and clock. -/
theorem Perused.calm {p : Server α} (hp : Perused wac p) (hcached : wac.cached = true) {w : World}
    (hs : Sound wac w) : Spec p w (Calm wac w) := by
  refine Program.Built.keeps World.sem hp (I := fun u => Sound wac u ∧ Quiet w u) ?_ w ⟨hs, .refl w⟩
  rintro β q hq u ⟨hsu, hqu⟩
  have hcalm : Spec q u (Calm wac u) := by
    cases hq with
    | @look o h =>
      refine calm_of_unchanged hsu ?_
      cases o <;> first | rfl | exact h.elim
    | fetch m => exact calm_fetchBody hsu m
    | acl h => exact calm_readAclConfirmed hcached hsu h
  exact ⟨hcalm.1, hqu.trans hcalm.2⟩

theorem Perused.quiet {p : Server α} (hp : Perused wac p) (w : World) : Quiet w (exec p w).2 :=
  Program.Uses.run_rel World.sem hp.reads Quiet .refl .trans quiet_step w

theorem perused_plannedResolution (slot target : Iri) :
    Perused wac (plannedResolution wac slot target) :=
  .bind (built_readPlan _ _) fun _ => perused_resolveEffectiveAclPlanned _ _ _

/-! ## §2 Checks -/

/-- A result whose error, if it is one, satisfies `P`. -/
def FailsWith (P : ServerError → Prop) (r : Except ServerError α) : Prop :=
  ∀ e, r = .error e → P e

/-- A check whose errors are ordinary. -/
abbrev Checks (r : Except ServerError α) : Prop := FailsWith Ordinary r

section
variable {P Q : ServerError → Prop} {r : Except ServerError α}

theorem fails_ok (a : α) : FailsWith P (.ok a) := by
  rintro e ⟨⟩

theorem fails_error {e : ServerError} (h : P e) : FailsWith P (.error e : Except _ α) := by
  rintro _ ⟨⟩
  exact h

theorem FailsWith.mono (hr : FailsWith P r) (h : ∀ e, P e → Q e) : FailsWith Q r :=
  fun e he => h e (hr e he)

theorem FailsWith.bind {f : α → Except ServerError β} (hr : FailsWith P r)
    (hf : ∀ a, FailsWith P (f a)) : FailsWith P (r >>= f) := by
  cases r with
  | ok a => exact hf a
  | error e => exact fails_error (hr e rfl)

theorem FailsWith.map (hr : FailsWith P r) (f : α → β) : FailsWith P (r.map f) := by
  cases r with
  | ok a => exact fails_ok _
  | error e => exact fails_error (hr e rfl)

theorem fails_mapM {f : α → Except ServerError β} (hf : ∀ a, FailsWith P (f a)) (as : List α) :
    FailsWith P (as.mapM f) := by
  induction as with
  | nil => exact fails_ok _
  | cons a as ih =>
    rw [List.mapM_cons]
    exact (hf a).bind fun _ => ih.bind fun _ => fails_ok _

theorem fails_foldlM {f : β → α → Except ServerError β} (hf : ∀ b a, FailsWith P (f b a))
    (as : List α) (b : β) : FailsWith P (as.foldlM f b) := by
  induction as generalizing b with
  | nil => exact fails_ok _
  | cons a as ih =>
    exact (hf b a).bind fun b' => ih b'

end

theorem ordinary_badRequest (msg : Text) : Ordinary (.badRequest msg) := by
  constructor <;> simp [ServerError.status]

theorem ordinary_unprocessable (msg : Text) : Ordinary (.unprocessablePatch msg) := by
  constructor <;> simp [ServerError.status]

theorem ordinary_conflict (msg : Text) : Ordinary (.conflict msg) := by
  constructor <;> simp [ServerError.status]

theorem ordinary_unsupported (msg : Text) : Ordinary (.unsupportedMediaType msg) := by
  constructor <;> simp [ServerError.status]

theorem checks_unprocessable (msg : String) : Checks (unprocessable msg : Except _ α) :=
  fails_error (ordinary_unprocessable _)

theorem checks_parseTarget (base path : Text) : Checks (parseTarget base path) := by
  have hsegments : ∀ segs, Checks (checkSegments segs) := by
    intro segs
    induction segs with
    | nil => exact fails_ok ()
    | cons seg rest ih =>
      unfold checkSegments
      split_ifs
      · exact fails_error (ordinary_badRequest _)
      · exact fails_error (ordinary_badRequest _)
      · exact ih
  unfold parseTarget checkPath
  simp only
  split_ifs
  · exact fails_error (ordinary_badRequest _)
  · exact fails_error (ordinary_badRequest _)
  · exact fails_error ⟨by decide, by decide⟩
  · exact fails_ok _
  · exact (hsegments _).map _

theorem checks_parseToTriples (codec : RdfCodec) (format : RdfFormat) (body : Bytes)
    (baseIri : Iri) : Checks (parseToTriples codec format body baseIri) := by
  intro e he
  obtain ⟨msg, rfl⟩ := parseToTriples_error codec he
  exact ordinary_badRequest msg

theorem checks_classify (contentType : Option Text) : Checks (classify contentType) := by
  unfold classify
  split
  · exact fails_error (ordinary_unsupported _)
  · split_ifs
    · exact fails_ok _
    · exact fails_ok _
    · exact fails_error (ordinary_unsupported _)

/-! ## §3 Patches -/

theorem checks_patTriple (kind : FormulaKind) (q : N3Quad) : Checks (patTriple kind q) := by
  have hterm : ∀ t pos, Checks (patTerm t kind pos) := by
    intro t pos
    unfold patTerm
    split
    · exact fails_ok _
    · split <;> first | exact fails_ok _ | exact checks_unprocessable _
    · split <;> first | exact fails_ok _ | exact checks_unprocessable _
    · exact fails_ok _
  exact (hterm _ _).bind fun _ => (hterm _ _).bind fun _ => (hterm _ _).bind fun _ => fails_ok _

theorem checks_formulaTriples (quads : List N3Quad) (formula : Option GraphName)
    (kind : FormulaKind) : Checks (formulaTriples quads formula kind) := by
  cases formula with
  | none => exact fails_ok _
  | some g => exact fails_mapM (checks_patTriple kind) _

theorem checks_describe (f : Formulas) (q : N3Quad) : Checks (describe f q) := by
  have hgraph : Checks (formulaGraph q.object) := by
    unfold formulaGraph
    split <;> first | exact fails_ok _ | exact checks_unprocessable _
  unfold describe
  split
  · split_ifs
    · exact hgraph.map _
    · exact hgraph.map _
    · exact hgraph.map _
    · exact fails_ok _
  · exact checks_unprocessable _

theorem checks_parseN3Patch (codec : RdfCodec) (body : Bytes) (baseIri : Iri) :
    Checks (parseN3Patch codec body baseIri) := by
  unfold parseN3Patch
  split
  · exact fails_error (ordinary_badRequest _)
  · split
    · exact fails_error (ordinary_unprocessable _)
    · refine (fails_foldlM checks_describe _ _).bind fun formulas => ?_
      refine (checks_formulaTriples _ _ _).bind fun conditions => ?_
      refine (checks_formulaTriples _ _ _).bind fun deletes => ?_
      refine (checks_formulaTriples _ _ _).bind fun inserts => ?_
      split_ifs
      · exact checks_unprocessable _
      · split
        · exact fails_error (ordinary_unprocessable _)
        · exact fails_ok _

theorem checks_parseToConcreteTriples (codec : RdfCodec) (group : Text) (baseIri : Iri) :
    Checks (parseToConcreteTriples codec group baseIri) := by
  unfold parseToConcreteTriples
  split
  · exact fails_error (ordinary_badRequest _)
  · split
    · exact fails_error (ordinary_unprocessable _)
    · exact fails_ok _

theorem checks_scanSparql (codec : RdfCodec) (baseIri : Iri) (fuel : Nat) (text : Text)
    (scan : SparqlScan) : Checks (scanSparql codec baseIri fuel text scan) := by
  induction fuel generalizing text scan with
  | zero => exact fails_ok _
  | succ fuel ih =>
    unfold scanSparql
    simp only
    split_ifs
    · exact fails_ok _
    · exact ih _ _
    all_goals
      split
      · exact checks_unprocessable _
      split
      · exact checks_unprocessable _
      split
      · exact checks_unprocessable _
      split
      · rename_i e he
        exact fails_error (checks_parseToConcreteTriples _ _ _ e he)
      · exact ih _ _

theorem checks_parseSparqlUpdate (codec : RdfCodec) (body : Bytes) (baseIri : Iri) :
    Checks (parseSparqlUpdate codec body baseIri) := by
  unfold parseSparqlUpdate
  split
  · exact checks_unprocessable _
  · split
    · rename_i e he
      exact fails_error (checks_scanSparql codec baseIri _ _ _ e he)
    · split_ifs
      · exact checks_unprocessable _
      · exact fails_ok _

/-- The errors of applying a patch and writing the result back. -/
def MergeError : ServerError → Prop
  | .conflict _ | .unprocessablePatch _ | .storage _ => True
  | _ => False

theorem MergeError.ordinary {e : ServerError} (h : MergeError e) : Ordinary e := by
  cases e <;> first
    | exact h.elim
    | exact ordinary_conflict _
    | exact ordinary_unprocessable _
    | exact ordinary_storage _

theorem fails_instantiate (b : Binding) (pat : PatTriple) :
    FailsWith MergeError (instantiate b pat) := by
  have hresolve : ∀ t, FailsWith MergeError (resolve t b) := by
    intro t
    unfold resolve
    split
    · exact fails_ok _
    · split
      · exact fails_ok _
      · exact fails_error trivial
    · exact fails_error trivial
  refine (hresolve pat.subject).bind fun subject => ?_
  cases subject with
  | namedNode n | blankNode n =>
    refine (hresolve pat.predicate).bind fun predicate => ?_
    cases predicate with
    | namedNode p => exact (hresolve pat.object).bind fun object => fails_ok _
    | blankNode l => exact fails_error trivial
    | literal l => exact fails_error trivial
  | literal l => exact fails_error trivial

/-- A patch that does not apply is a conflict or cannot be processed. -/
theorem fails_applyPatch (existing : List Triple) (patch : N3Patch) :
    FailsWith MergeError (applyPatch existing patch) := by
  have hbinding : FailsWith MergeError (patchBinding existing patch) := by
    unfold patchBinding
    split_ifs
    · exact fails_ok _
    · split <;> first | exact fails_ok _ | exact fails_error trivial
  refine hbinding.bind fun b => ?_
  refine (fails_mapM (fails_instantiate b) _).bind fun deletes => ?_
  refine (fails_mapM (fails_instantiate b) _).bind fun inserts => ?_
  split_ifs
  · exact fails_ok _
  · exact fails_error trivial

theorem fails_serializeTriples (codec : RdfCodec) (format : RdfFormat) (triples : List Triple) :
    FailsWith MergeError (serializeTriples codec format triples) := by
  unfold serializeTriples
  split <;> split <;> first | exact fails_ok _ | exact fails_error trivial

end

/-! ## §4 The handlers around their precondition check -/

namespace LdpState

variable {s : LdpState}

theorem ordinary_unauthenticated : Ordinary s.unauthenticated :=
  ⟨Nat.le_succ 400, show (401 : Nat) ≠ 412 by decide⟩

theorem ordinary_forbidden : Ordinary .forbidden := ⟨by decide, by decide⟩

theorem ordinary_refusal (webId : Option Iri) : Ordinary (s.refusal webId) := by
  unfold refusal
  split_ifs
  · exact ordinary_unauthenticated
  · exact ordinary_forbidden

theorem perused_authorizePlannedIri (target : Iri) (mode : AccessMode) (requester : Requester) :
    Perused s.wac (s.authorizePlannedIri target mode requester) :=
  .bind (built_readPlan _ _) fun _ =>
    .bind (perused_resolveEffectiveAclPlanned _ _ _) fun _ => .pure _

theorem perused_authorizeMode (target : Iri) (mode : AccessMode) (requester : Requester) :
    Perused s.wac (s.authorizeMode target mode requester) := by
  refine .bind (perused_authorizePlannedIri target _ requester) fun decision => ?_
  cases decision with
  | allow modes => exact .pure _
  | unauthenticated => exact .throw ordinary_unauthenticated
  | forbidden => exact .throw ordinary_forbidden

theorem perused_authorizeIri (target : Iri) (mode : AccessMode) (requester : Requester) :
    Perused s.wac (s.authorizeIri target mode requester) := by
  refine .bind (perused_authorizePlannedIri target _ requester) fun decision => ?_
  cases decision with
  | allow modes => exact .pure _
  | unauthenticated => exact .throw ordinary_unauthenticated
  | forbidden => exact .throw ordinary_forbidden

theorem perused_nearestLoop (root : Iri) (fuel : Nat) (current : Text) :
    Perused s.wac (nearestLoop root fuel current) := by
  induction fuel generalizing current with
  | zero => exact .pure _
  | succ fuel ih =>
    unfold nearestLoop
    split
    · exact .pure _
    · refine .bind (built_exists_ _) fun found => ?_
      split_ifs
      · exact .pure _
      · exact .pure _
      · exact ih _

/-- Authorization on the nearest existing container of a target. -/
theorem perused_onNearest (target : Iri) (mode : AccessMode) (requester : Requester) :
    Perused s.wac (if isAclResource target then pure () else do
      match ← s.nearestExistingContainer target with
      | some container => s.authorizeIri container mode requester
      | none => pure ()) := by
  split_ifs
  · exact .pure _
  · refine .bind (perused_nearestLoop _ _ _) fun found => ?_
    cases found with
    | none => exact .pure _
    | some container => exact perused_authorizeIri container mode requester

theorem plain_ensureLoop (segs : List Text) (pre : Text) (parent : Iri) :
    PlainIn Retains (ensureLoop segs pre parent) := by
  induction segs generalizing pre parent with
  | nil => exact .pure _
  | cons seg rest ih =>
    refine .bind (.bind (built_exists_ _) fun found => ?_) fun clash => ?_
    · split_ifs
      · exact .bind (built_exists_ _) fun _ => .pure _
      · exact .pure _
    · by_cases hclash : clash = true
      · rw [if_pos hclash]
        exact .throw (ordinary_conflict _)
      · rw [if_neg hclash]
        refine .bind (.bind (built_exists_ _) fun found => ?_) fun _ => ih _ _
        split_ifs
        · exact .pure _
        · exact .bind (plain_createInContainer _ _ _ _) fun _ => .pure _

theorem plain_ensureAncestorContainers (iri : Iri) :
    PlainIn Retains (s.ensureAncestorContainers iri) := by
  unfold ensureAncestorContainers
  simp only
  split
  · exact .pure _
  · refine .bind (.bind (built_exists_ _) fun found => ?_) fun _ => plain_ensureLoop _ _ _
    split_ifs
    · exact .pure _
    · exact .bind (plain_write _ _ _) fun _ => .pure _

theorem plain_storeTarget (target : Iri) (requester : Requester) (existed : Bool) (body : Bytes)
    (storedType : Text) :
    PlainIn Retains (s.storeTarget target requester existed body storedType) := by
  unfold storeTarget
  split_ifs
  · exact plain_write _ _ _
  · exact plain_write _ _ _
  · refine .bind ((perused_onNearest target .append requester).plain fun _ => .of_reads) fun _ =>
      .bind (plain_ensureAncestorContainers target) fun _ => ?_
    split
    · exact plain_createInContainer _ _ _ _
    · exact plain_write _ _ _

theorem plain_invalidateAclIfAcl (target : Iri) : PlainIn Retains (invalidateAclIfAcl target) := by
  unfold invalidateAclIfAcl
  split_ifs
  · exact plain_perform trivial trivial
  · exact .pure _

theorem plain_finishWrite (target : Iri) (existed : Bool) (m : ResourceMeta) :
    PlainIn Retains (finishWrite target existed m) :=
  .bind (plain_notify _ _ _) fun _ => .bind (plain_invalidateAclIfAcl target) fun _ => .pure _

theorem perused_rejectSlashSemanticsConflict (target : LdpTarget) :
    Perused s.wac (rejectSlashSemanticsConflict target) := by
  refine .bind (built_exists_ _) fun found => ?_
  split_ifs
  · exact .throw (ordinary_conflict _)
  · exact .pure _

theorem checks_guardRead (target : Iri) (granted : Finset AccessMode) (webId : Option Iri) :
    Checks (s.guardRead target granted webId) := by
  unfold guardRead
  split_ifs
  · exact fails_ok _
  · exact fails_error (ordinary_refusal webId)

theorem checks_guardConditionalRequiresRead (target : Iri) (headers : HeaderMap)
    (granted : Finset AccessMode) (webId : Option Iri) :
    Checks (s.guardConditionalRequiresRead target headers granted webId) := by
  unfold guardConditionalRequiresRead
  split_ifs
  · exact checks_guardRead target granted webId
  · exact fails_ok _

theorem checks_requireContentType (headers : HeaderMap) : Checks (requireContentType headers) := by
  unfold requireContentType
  split
  · split_ifs
    · exact fails_ok _
    · exact fails_error (ordinary_badRequest _)
  · exact fails_error (ordinary_badRequest _)

theorem checks_validateWritable (contentType : Text) (body : Bytes) (baseIri : Iri) :
    Checks (s.validateWritable contentType body baseIri) := by
  have hclassify := checks_classify (some contentType)
  unfold validateWritable
  split
  · exact ((checks_parseToTriples _ _ _ _).map _).map _
  · exact fails_ok _
  · rename_i e _ he
    exact fails_error (hclassify e he)

theorem checks_parsePatch (req : Request) (target : Iri) : Checks (s.parsePatch req target) := by
  unfold parsePatch
  split
  · rename_i e he
    unfold classifyPatchMediaType at he
    split at he
    · obtain rfl := Except.error.inj he
      exact fails_error (ordinary_badRequest _)
    · split_ifs at he
      obtain rfl := Except.error.inj he
      exact fails_error (ordinary_unsupported _)
  · exact checks_parseN3Patch _ _ _
  · exact checks_parseSparqlUpdate _ _ _

theorem checks_guardConditions (patch : N3Patch) (target : Iri) (granted : Finset AccessMode)
    (webId : Option Iri) : Checks (s.guardConditions patch target granted webId) := by
  unfold guardConditions
  split_ifs
  · exact checks_guardRead target granted webId
  · exact fails_ok _

theorem built_readCurrent {B : (α : Type) → Server α → Prop} [Lookups B] (target : Iri) :
    BuiltFrom B (readCurrent target) := by
  refine .attempt_bind (built_read target) (fun _ => .pure _) fun e he => ?_
  cases e <;> first | exact .pure _ | exact .throw he

theorem perused_readCurrent (target : Iri) : Perused s.wac (readCurrent target) :=
  built_readCurrent target

theorem checks_patchedBody (current : Option Resource) (patch : N3Patch) (target : Iri) :
    Checks (s.patchedBody current patch target) := by
  have hmerge : ∀ existing format, Checks (do
      let patched ← applyPatch existing patch
      let body ← serializeTriples s.codec format patched
      pure (body, format)) := fun existing format =>
    ((fails_applyPatch existing patch).bind fun _ =>
      (fails_serializeTriples _ _ _).bind fun _ => fails_ok _).mono fun _ h => h.ordinary
  cases current with
  | none => exact hmerge [] .turtle
  | some res => exact (checks_parseToTriples _ _ _ _).bind fun triples => hmerge triples _

theorem plain_deleteContainer (target : Iri) (parent : Option Iri) :
    Plain (deleteContainer target parent) := by
  refine .bind (plain_block (.deleteEmpty target parent)) fun outcome => ?_
  cases outcome with
  | deleted => exact .bind (plain_notify _ _ _).plain fun _ => .pure _
  | notEmpty => exact .throw (ordinary_conflict _)
  | notFound => exact .throw ordinary_notFound

theorem plain_deleteDocument (target : Iri) (parent : Option Iri) :
    Plain (deleteDocument target parent) :=
  .bind (plain_block (.delete target parent)) fun _ =>
    .bind (plain_invalidateAclIfAcl target).plain fun _ =>
      .bind (plain_notify _ _ _).plain fun _ => .pure _

/-! ## §5 Writes, up to the check and after it -/

/-- **A write up to its precondition check**: the entity tag it compares with, and what it does
once the check has passed. -/
def gate (s : LdpState) (req : Request) : Server (Option Text × Server Response) :=
  match req.method with
  | .put => do
    let target ← check (parseTarget s.baseUrl req.path)
    let granted ← s.authorize .put target req.requester
    check (s.guardConditionalRequiresRead target.iri req.headers granted req.webId)
    let current ← meta? target.iri
    rejectSlashSemanticsConflict target
    let contentType ← check (requireContentType req.headers)
    let storedType ← check (s.validateWritable contentType req.body target.iri)
    pure (current.map ResourceMeta.etag, do
      let m ← s.storeTarget target.iri req.requester current.isSome req.body storedType
      finishWrite target.iri current.isSome m)
  | .patch => do
    let target ← check (parseTarget s.baseUrl req.path)
    let patch ← check (s.parsePatch req target.iri)
    let granted ← s.authorizeMode target.iri (patchMode patch) req.requester
    check (s.guardConditions patch target.iri granted req.webId)
    check (s.guardConditionalRequiresRead target.iri req.headers granted req.webId)
    let current ← readCurrent target.iri
    pure (current.map fun r => r.meta_.etag, do
      let (body, format) ← check (s.patchedBody current patch target.iri)
      let m ← s.storeTarget target.iri req.requester current.isSome body format.mediaType
      finishWrite target.iri current.isSome m)
  | .delete => do
    let target ← check (parseTarget s.baseUrl req.path)
    let granted ← s.authorizeMode target.iri (deleteMode target) req.requester
    s.authorizeRemoval target.iri req.requester
    check (s.guardConditionalRequiresRead target.iri req.headers granted req.webId)
    match ← meta? target.iri with
    | none => throw (s.refusal req.webId)
    | some current =>
      let parent := if isAclResource target.iri then none else parentContainer target.iri
      pure (some current.etag,
        if target.isContainer then deleteContainer target.iri parent
        else deleteDocument target.iri parent)
  | _ => throw .methodNotAllowed

theorem serve_eq_gate {req : Request}
    (hmethod : req.method = .put ∨ req.method = .patch ∨ req.method = .delete) :
    s.serve req = (s.gate req >>= fun g =>
      check (checkPreconditions req.headers g.1) >>= fun _ => g.2) := by
  unfold serve gate
  rcases hmethod with hm | hm | hm
  · simp only [hm, putHandler, bind_assoc, pure_bind]
  · simp only [hm, patchHandler, bind_assoc, pure_bind]
  · simp only [hm, deleteHandler, bind_assoc]
    congr 1
    funext target
    congr 1
    funext granted
    congr 1
    funext _
    congr 1
    funext _
    congr 1
    funext current
    cases current <;> rfl

theorem perused_gate (req : Request) : Perused s.wac (s.gate req) := by
  unfold gate
  split
  · refine .bind (built_check (checks_parseTarget _ _)) fun target => ?_
    refine .bind (perused_authorizeMode _ _ _) fun granted => ?_
    refine .bind (built_check (checks_guardConditionalRequiresRead _ _ _ _)) fun _ => ?_
    refine .bind (built_meta? _) fun current => ?_
    refine .bind (perused_rejectSlashSemanticsConflict target) fun _ => ?_
    refine .bind (built_check (checks_requireContentType _)) fun contentType => ?_
    exact .bind (built_check (checks_validateWritable _ _ _)) fun _ => .pure _
  · refine .bind (built_check (checks_parseTarget _ _)) fun target => ?_
    refine .bind (built_check (checks_parsePatch req _)) fun patch => ?_
    refine .bind (perused_authorizeMode _ _ _) fun granted => ?_
    refine .bind (built_check (checks_guardConditions _ _ _ _)) fun _ => ?_
    refine .bind (built_check (checks_guardConditionalRequiresRead _ _ _ _)) fun _ => ?_
    exact .bind (perused_readCurrent _) fun _ => .pure _
  · refine .bind (built_check (checks_parseTarget _ _)) fun target => ?_
    refine .bind (perused_authorizeMode _ _ _) fun granted => ?_
    refine .bind (perused_onNearest _ _ _) fun _ => ?_
    refine .bind (built_check (checks_guardConditionalRequiresRead _ _ _ _)) fun _ => ?_
    refine .bind (built_meta? _) fun current => ?_
    cases current with
    | none => exact .throw (ordinary_refusal _)
    | some m => exact .pure _
  · exact .throw ⟨by decide, by decide⟩

/-- The steps a request of a method may take: only `DELETE` removes. -/
def Allowed : Method → StoreOp → Prop
  | .delete => fun _ => True
  | .put | .patch | .post => Retains
  | _ => Reads

/-- After the check a write is put together from blocks, and answers with success. -/
def Afterwards (U : StoreOp → Prop) (p : Server Response) : Prop :=
  PlainIn U p ∧ p.Returns (S := storeSig) fun resp => resp.status < 400

theorem afterwards_finishWrite {p : Server ResourceMeta} (hp : PlainIn Retains p) (target : Iri)
    (existed : Bool) : Afterwards Retains (p >>= fun m => finishWrite target existed m) := by
  refine ⟨.bind hp fun m => plain_finishWrite target existed m, .bind fun m => ?_⟩
  refine .bind fun _ => .bind fun _ => .pure ?_
  cases existed
  · exact (by decide : (201 : Nat) < 400)
  · exact (by decide : (204 : Nat) < 400)

theorem afterwards_deleteContainer (target : Iri) (parent : Option Iri) :
    Afterwards (Allowed .delete) (deleteContainer target parent) := by
  refine ⟨plain_deleteContainer target parent, .bind fun outcome => ?_⟩
  cases outcome with
  | deleted => exact .bind fun _ => .pure (by decide)
  | notEmpty => exact .throw _
  | notFound => exact .throw _

theorem afterwards_deleteDocument (target : Iri) (parent : Option Iri) :
    Afterwards (Allowed .delete) (deleteDocument target parent) :=
  ⟨plain_deleteDocument target parent, .bind fun _ => .bind fun _ => .bind fun _ =>
    .pure (by decide)⟩

theorem returns_gate (req : Request) :
    (s.gate req).Returns (S := storeSig) fun g => Afterwards (Allowed req.method) g.2 := by
  unfold gate
  split
  all_goals rename_i hm; try rw [hm]
  · refine .bind fun target => .bind fun granted => .bind fun _ => .bind fun current => ?_
    refine .bind fun _ => .bind fun contentType => .bind fun storedType => .pure ?_
    exact afterwards_finishWrite (plain_storeTarget _ _ _ _ _) _ _
  · refine .bind fun target => .bind fun patch => .bind fun granted => .bind fun _ => ?_
    refine .bind fun _ => .bind fun current => .pure ?_
    have hrest := fun merged : Bytes × RdfFormat => afterwards_finishWrite
      (plain_storeTarget (s := s) target.iri req.requester current.isSome merged.1
        merged.2.mediaType) target.iri current.isSome
    exact ⟨.bind (built_check (checks_patchedBody _ _ _)) fun merged => (hrest merged).1,
      .bind fun merged => (hrest merged).2⟩
  · refine .bind fun target => .bind fun granted => .bind fun _ => .bind fun _ => ?_
    refine .bind fun current => ?_
    cases current with
    | none => exact .throw _
    | some m =>
      refine .pure ?_
      by_cases hcontainer : target.isContainer = true
      · simp only [hcontainer]
        exact afterwards_deleteContainer _ _
      · simp only [hcontainer]
        exact afterwards_deleteDocument _ _
  · exact .throw _

theorem status_intoResponse (e : ServerError) : e.intoResponse.status = e.status := by
  cases e with
  | unauthorized status message www =>
    unfold ServerError.intoResponse
    simp only
    split <;> rfl
  | _ => rfl

/-- **A 412 is the verdict of the precondition check.** -/
theorem verdict_iff {req : Request}
    (hmethod : req.method = .put ∨ req.method = .patch ∨ req.method = .delete) (w : World) :
    (s.handle req w).1.status = 412 ↔ ∃ g, (exec (s.gate req) w).1 = .ok g ∧
      evaluate (headerStr req.headers .ifMatch) (headerStr req.headers .ifNoneMatch) g.1 =
        .failed := by
  unfold handle
  rw [serve_eq_gate hmethod]
  rcases hrun : exec (s.gate req) w with ⟨r, w'⟩
  cases r with
  | error e =>
    rw [exec_bind_error hrun]
    have hord := ordinary_of_built (perused_gate req) (congrArg Prod.fst hrun)
    simp only [respond, status_intoResponse, hord.2, false_iff]
    rintro ⟨g, ⟨⟩, -⟩
  | ok g =>
    rw [exec_bind_ok hrun]
    obtain ⟨hplain, hsuccess⟩ := (returns_gate req).run World.sem (congrArg Prod.fst hrun)
    have hiff : (∃ g', (Except.ok g : Except ServerError _) = .ok g' ∧
        evaluate (headerStr req.headers .ifMatch) (headerStr req.headers .ifNoneMatch) g'.1 =
          .failed) ↔ evaluate (headerStr req.headers .ifMatch)
            (headerStr req.headers .ifNoneMatch) g.1 = .failed := by simp
    simp only [hiff]
    unfold checkPreconditions
    cases evaluate (headerStr req.headers .ifMatch) (headerStr req.headers .ifNoneMatch) g.1 with
    | failed => exact ⟨fun _ => rfl, fun _ => rfl⟩
    | proceed =>
      refine ⟨fun h => ?_, by rintro ⟨⟩⟩
      have h : (respond (exec g.2 w').1).status = 412 := h
      cases hr : (exec g.2 w').1 with
      | ok resp =>
        rw [hr] at h
        have hlt := hsuccess.run World.sem hr
        simp only [respond] at h
        omega
      | error e =>
        rw [hr] at h
        simp only [respond, status_intoResponse] at h
        exact absurd h (ordinary_of_built hplain hr).2

/-! ## §6 Whole requests -/

theorem perused_authorizeRead (method : Method) (target : LdpTarget) (requester : Requester) :
    Perused s.wac (s.authorizeRead method target requester) := by
  refine .bind (built_readPlan _ _) fun plan => .bind ?_ fun decision => ?_
  · exact .bind (perused_resolveEffectiveAclPlanned _ _ _) fun _ => .pure _
  · cases decision with
    | allow perms => exact .pure _
    | unauthenticated => exact .throw ordinary_unauthenticated
    | forbidden => exact .throw ordinary_forbidden

theorem checks_negotiate (accept : Option Text) (stored : RdfFormat) :
    Checks (negotiate accept stored) := by
  unfold negotiate
  split
  · exact fails_ok _
  · exact fails_error ⟨by decide, by decide⟩

theorem checks_serializeTriples (codec : RdfCodec) (format : RdfFormat) (triples : List Triple) :
    Checks (serializeTriples codec format triples) :=
  (fails_serializeTriples codec format triples).mono fun _ h => h.ordinary

theorem perused_renderContainer (container : Iri) (body : Bytes) (contentType : Text)
    (accept : Option Text) : Perused s.wac (s.renderContainer container body contentType accept) := by
  refine .bind (built_check (checks_negotiate _ _)) fun format => ?_
  by_cases hvalid : (!s.codec.validIri container) = true
  · rw [if_pos hvalid]
    exact .throw (ordinary_storage _)
  · rw [if_neg hvalid]
    exact .bind (built_listChildren _ _) fun _ =>
      .bind (built_check (checks_serializeTriples _ _ _)) fun _ => .pure _

theorem perused_renderTarget (target : LdpTarget) (resource : Resource) (accept : Option Text) :
    Perused s.wac (s.renderTarget target resource accept) := by
  unfold renderTarget negotiatedValidator
  split_ifs
  · exact .bind (perused_renderContainer _ _ _ _) fun _ => .pure _
  · refine .bind (built_check ?_) fun _ => .pure _
    split
    · exact fails_ok _
    · exact (checks_negotiate _ _).map _

theorem checks_negotiateBody (body : Bytes) (contentType : Text) (accept : Option Text)
    (baseIri : Iri) : Checks (s.negotiateBody body contentType accept baseIri) := by
  unfold negotiateBody
  split
  · exact fails_ok _
  · refine (checks_negotiate _ _).bind fun chosen => ?_
    split_ifs
    · exact fails_ok _
    · exact (checks_parseToTriples _ _ _ _).bind fun _ =>
        (checks_serializeTriples _ _ _).bind fun _ => fails_ok _

theorem perused_serveRead (req : Request) (withBody : Bool) : Perused s.wac (s.serveRead req withBody) := by
  refine .bind (built_check (checks_parseTarget _ _)) fun target => ?_
  refine .bind (perused_authorizeRead _ _ _) fun found => ?_
  obtain ⟨perms, targetMeta⟩ := found
  cases targetMeta with
  | none => exact .throw ordinary_notFound
  | some m =>
    refine .bind (built_fetchBody m) fun body => .bind (perused_renderTarget _ _ _) fun rendering => ?_
    obtain ⟨rendered, etag⟩ := rendering
    simp only
    generalize (if target.isContainer = true then none else m.lastModified) = lastModified
    split_ifs
    · exact .pure _
    · cases rendered with
      | container b ct => exact .pure _
      | stored => exact .bind (built_check (checks_negotiateBody _ _ _ _)) fun _ => .pure _

theorem plain_generateLoop (base stem : Text) (seed : Nat) (asContainer : Bool) (left : Nat) :
    PlainIn Retains (generateLoop base stem seed asContainer left) := by
  induction left with
  | zero => exact .throw (ordinary_storage _)
  | succ left ih =>
    refine .bind (plain_perform trivial trivial) fun n => .bind (built_exists_ _) fun found => ?_
    split_ifs
    · exact ih
    · exact .pure _

section
variable {P : StoreOp → Prop}

theorem uses_invalidateAclIfAcl {target : Iri} (h : P (.aclCacheInvalidate target)) :
    (invalidateAclIfAcl target).Uses (S := storeSig) P := by
  unfold invalidateAclIfAcl
  split_ifs
  · exact uses_perform h
  · trivial

theorem uses_finishWrite {target : Iri} {existed : Bool} {m : ResourceMeta}
    (hfan : ∀ topic frame, P (.fanOut topic frame)) (h : P (.aclCacheInvalidate target)) :
    (finishWrite target existed m).Uses (S := storeSig) P :=
  Program.Uses.bind (uses_notify hfan) fun _ =>
    Program.Uses.bind (uses_invalidateAclIfAcl h) fun _ => trivial

omit P in
theorem raises_finishWrite (target : Iri) (existed : Bool) (m : ResourceMeta) :
    (finishWrite target existed m).Raises (S := storeSig) fun _ => False := by
  refine .bind (.bind (.call (S := storeSig) _) fun _ => ?_) fun _ => .bind ?_ fun _ => .pure _
  · split
    · exact .call (S := storeSig) _
    · exact .call (S := storeSig) _
    · exact .pure _
  · unfold invalidateAclIfAcl
    split_ifs
    · exact .call (S := storeSig) _
    · exact .pure _

theorem uses_mintChildIri {container : Iri} {stem : Option Text} {asContainer : Bool}
    (hnow : P .now) (hcount : P .fetchAddCounter) (hexists : ∀ iri, P (.exists_ iri)) :
    (mintChildIri container stem asContainer).Uses (S := storeSig) P := by
  have hloop : ∀ base stem seed left,
      (generateLoop base stem seed asContainer left).Uses (S := storeSig) P := by
    intro base stem seed left
    induction left with
    | zero => trivial
    | succ left ih =>
      refine Program.Uses.bind (uses_perform hcount) fun n => ?_
      refine Program.Uses.bind (Program.Uses.bind (uses_perform (hexists _)) uses_orStorage)
        fun taken => ?_
      cases taken with
      | true => exact ih
      | false => trivial
  exact Program.Uses.bind (uses_perform hnow) fun t => hloop _ _ _ _

end

theorem checks_refuseAclSlug (stem : Option Text) (webId : Option Iri) :
    Checks (s.refuseAclSlug stem webId) := by
  unfold refuseAclSlug
  split
  · split_ifs
    · exact fails_error (ordinary_refusal _)
    · exact fails_ok _
  · exact fails_ok _

theorem plain_postToContainer (container : Iri) (req : Request) :
    PlainIn Retains (s.postToContainer container req) := by
  refine .bind (built_check (checks_requireContentType _)) fun contentType => ?_
  refine .bind (built_check (checks_refuseAclSlug _ _)) fun _ => ?_
  refine .bind (.bind (plain_perform trivial trivial) fun _ => plain_generateLoop _ _ _ _ _) fun child => ?_
  refine .bind (built_check (checks_validateWritable _ _ _)) fun storedType => ?_
  exact .bind (plain_createInContainer _ _ _ _) fun _ => .bind (plain_notify _ _ _) fun _ => .pure _

theorem perused_requireContainer (container : Iri) (granted : Finset AccessMode)
    (webId : Option Iri) : Perused s.wac (s.requireContainer container granted webId) := by
  refine .attempt_bind (built_exists_ _) (fun found => ?_) fun e he => ?_
  · cases found with
    | true => exact .pure _
    | false =>
      exact .bind (built_check (checks_guardRead _ _ _)) fun _ => .throw ordinary_notFound
  · exact .bind (built_check (checks_guardRead _ _ _)) fun _ => .throw he

theorem perused_postToResource (target : Iri) (granted : Finset AccessMode)
    (webId : Option Iri) : Perused s.wac (s.postToResource target granted webId) := by
  refine .bind (built_check (checks_guardRead _ _ _)) fun _ => .bind (built_exists_ _) fun found => ?_
  split_ifs
  · exact .throw ⟨by decide, by decide⟩
  · exact .throw ordinary_notFound

theorem plain_postHandler (req : Request) : PlainIn Retains (s.postHandler req) := by
  refine .bind (built_check (checks_parseTarget _ _)) fun container => ?_
  refine .bind ((perused_authorizeMode _ _ _).plain fun _ => .of_reads) fun granted => ?_
  cases container.isContainer with
  | false => exact (perused_postToResource _ _ _).plain fun _ => .of_reads
  | true =>
    exact .bind ((perused_requireContainer _ _ _).plain fun _ => .of_reads) fun _ =>
      plain_postToContainer _ req

/-- **A whole request** is put together from the blocks its method allows, and fails with an error
status. -/
theorem built_serve (req : Request) :
    Program.Built (S := storeSig) Ordinary
      (fun α p => Block α p ∧ p.Uses (S := storeSig) (Allowed req.method))
      (fun e => 400 ≤ e.status) (s.serve req) := by
  have hplain : ∀ {α : Type} {p : Server α}, PlainIn (Allowed req.method) p →
      Program.Built (S := storeSig) Ordinary
        (fun α p => Block α p ∧ p.Uses (S := storeSig) (Allowed req.method))
        (fun e => 400 ≤ e.status) p := fun h => h.weaken fun _ he => he.1
  by_cases hmethod : req.method = .put ∨ req.method = .patch ∨ req.method = .delete
  · rw [serve_eq_gate hmethod]
    refine .bind_returns (hplain ((perused_gate req).plain fun o ho => ?_)) (returns_gate req)
      fun g hg => .bind (.ret fun e he => ?_) fun _ => hplain hg.1
    · rcases hmethod with hm | hm | hm <;> rw [hm] <;> first | exact Retains.of_reads ho | trivial
    · unfold checkPreconditions require at he
      split at he <;> cases he
      decide
  · unfold serve
    cases hm : req.method with
    | put | patch | delete => simp [hm] at hmethod
    | get => exact hm ▸ hplain (hm ▸ (perused_serveRead req true).plain fun _ ho => ho)
    | head => exact hm ▸ hplain (hm ▸ (perused_serveRead req false).plain fun _ ho => ho)
    | post => exact hm ▸ hplain (hm ▸ plain_postHandler req)
    | options => exact .pure _

/-- **What every block keeps, every request keeps.** -/
theorem keeps_handle {I : World → Prop}
    (hI : ∀ (α : Type) (p : Server α), Block α p → ∀ w, I w → I (exec p w).2) (req : Request)
    (w : World) (hw : I w) : I (s.handle req w).2 :=
  (built_serve req).keeps World.sem (fun α p h => hI α p h.1) w hw

/-- **A request that fails is answered with an error status.** -/
theorem status_of_failed {req : Request} {w : World} {e : ServerError}
    (h : (exec (s.serve req) w).1 = .error e) : 400 ≤ e.status :=
  (built_serve req).raises.run World.sem h

/-- **`PUT` and `PATCH` remove nothing.** -/
theorem retains_serve {req : Request} (hmethod : req.method = .put ∨ req.method = .patch) :
    (s.serve req).Uses (S := storeSig) Retains := by
  have hallowed : Allowed req.method = Retains := by rcases hmethod with hm | hm <;> rw [hm] <;> rfl
  exact hallowed ▸ (built_serve req).uses fun _ _ h => h.2

end LdpState

end SolidServer.Ldp
