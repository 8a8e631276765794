import SolidServer.Authz.Wac
import SolidServer.Effects.Interleaving
import SolidServer.Store.Reading

/-!
# What a request is put together from

A request reads, authorises, and uses four operations of the store: an overwriting write,
a creation in a container, a deletion and the deletion of an empty container.  `Block`
lists them, and `PlainIn U` says of a computation that it is put together from those that
take steps in `U` only, and that every other error it can end in is *ordinary*: a client or
a server error other than 412.

The part of a request that only reads is put together from larger parts: lookups, fetched
bodies and confirmed reads of an ACL (`Perused`).  What holds of each of them holds of
everything read on the way to a decision or a response.
-/

namespace SolidServer.Authz

open SolidServer.Ldp

@[simp] theorem isAclResource_aclFor (resource : Iri) : isAclResource (aclFor resource) = true := by
  simp [isAclResource, aclFor]

theorem isAclResource_candidate {baseUrl : Text} {target : Iri} {c : AclCandidate}
    (h : c ∈ readPlanCandidates baseUrl target) : isAclResource c.acl = true := by
  simp only [readPlanCandidates, List.mem_cons, List.mem_map] at h
  rcases h with rfl | ⟨a, -, rfl⟩ <;> exact isAclResource_aclFor _

end SolidServer.Authz

namespace SolidServer.Ldp

open SolidServer.Effects SolidServer.Store SolidServer.Authz

variable {α β : Type} {U : StoreOp → Prop}

/-! ## §1 Blocks -/

/-- The steps that leave index, bytes, body cache and random source alone. -/
def Idle : StoreOp → Prop
  | .getMeta _ | .exists_ _ | .listChildren _ | .readPlan _ _ | .aclCacheGet _ _ _
  | .aclCacheInsert _ _ _ _ | .aclCacheInvalidate _ | .now | .fetchAddCounter | .fanOut _ _ => True
  | _ => False

/-- **The operations requests are put together from.** -/
inductive Block : (α : Type) → Server α → Prop
  | idle {o : StoreOp} (h : Idle o) : Block o.Res (perform o)
  | fetch (m : ResourceMeta) : Block Bytes (fetchBody m)
  | write (iri : Iri) (body : Bytes) (contentType : Text) :
      Block ResourceMeta (write iri body contentType)
  | create (container child : Iri) (body : Bytes) (contentType : Text) :
      Block ResourceMeta (createInContainer container child body contentType)
  | delete (iri : Iri) (parent : Option Iri) : Block Unit (Store.delete iri parent)
  | deleteEmpty (iri : Iri) (parent : Option Iri) :
      Block DeleteOutcome (deleteContainerIfEmpty iri parent)

/-- An error that is no verdict on a precondition. -/
def Ordinary (e : ServerError) : Prop := 400 ≤ e.status ∧ e.status ≠ 412

theorem ordinary_storage (msg : Text) : Ordinary (.storage msg) := by
  constructor <;> simp [ServerError.status]

theorem ordinary_notFound : Ordinary .notFound := ⟨by decide, by decide⟩

/-- The errors of the store. -/
def StoreError (e : ServerError) : Prop := e = .notFound ∨ ∃ msg, e = .storage msg

theorem StoreError.storage (msg : Text) : StoreError (.storage msg) := .inr ⟨msg, rfl⟩

theorem StoreError.ordinary {e : ServerError} (h : StoreError e) : Ordinary e := by
  rcases h with rfl | ⟨msg, rfl⟩
  · exact ordinary_notFound
  · exact ordinary_storage msg

/-- The blocks fail with errors of the store. -/
theorem raises_block (α : Type) (p : Server α) (h : Block α p) :
    p.Raises (S := storeSig) StoreError := by
  have hindex : ∀ {β : Type} (r : Except SparqError β),
      (orStorage r).Raises (S := storeSig) StoreError ∧
        (orNotFound r).Raises (S := storeSig) StoreError := by
    intro β r
    cases r with
    | ok a => exact ⟨trivial, trivial⟩
    | error e =>
      cases e with
      | notFound => exact ⟨.storage _, .inl rfl⟩
      | backend msg => exact ⟨.storage _, .storage _⟩
  have hblob : ∀ {β : Type} (r : Except BlobError β),
      (orBlobStorage r).Raises (S := storeSig) StoreError := by
    intro β r
    cases r with
    | ok a => trivial
    | error e => exact .storage _
  have hperform : ∀ o, (perform o).Raises (S := storeSig) StoreError := fun o =>
    Program.Raises.call (S := storeSig) o
  have hstage : ∀ iri body contentType,
      (stage iri body contentType).Raises (S := storeSig) StoreError := by
    intro iri body contentType
    refine .bind (.bind (hperform _) fun r => ?_) fun key => ?_
    · cases r with
      | ok suffix => trivial
      | error e => exact .storage _
    · exact .bind (hperform _) fun r => .bind (hblob r) fun _ => .bind (hperform _) fun _ => .pure _
  cases h with
  | idle h => exact hperform _
  | fetch m =>
    refine .bind (hperform _) fun cached => ?_
    cases cached with
    | some body => trivial
    | none =>
      refine .bind (hperform _) fun r => ?_
      cases r with
      | ok body => exact .bind (hperform _) fun _ => .pure _
      | error e => cases e <;> exact .storage _
  | write iri body contentType =>
    exact .bind (hstage _ _ _) fun _ => .bind (hperform _) fun r => .bind (hindex r).1 fun _ =>
      .pure _
  | create container child body contentType =>
    exact .bind (hstage _ _ _) fun _ => .bind (hperform _) fun r => .bind (hindex r).2 fun _ =>
      .pure _
  | delete iri parent =>
    refine .bind (.bind (hperform _) fun r => ?_) fun key => .bind ?_ fun _ =>
      .bind (hperform _) fun r => .bind (hindex r).1 fun _ => ?_
    · cases r with
      | ok m => trivial
      | error e =>
        cases e with
        | notFound => trivial
        | backend msg => exact .storage msg
    · cases parent with
      | none => trivial
      | some p => exact .bind (hperform _) fun r => (hindex r).1
    · cases key with
      | none => trivial
      | some k => exact .bind (hperform _) fun r => hblob r
  | deleteEmpty iri parent => exact .bind (hperform _) fun r => (hindex r).1

/-- A computation put together from some blocks, whose other errors are ordinary. -/
abbrev BuiltFrom (B : (α : Type) → Server α → Prop) (p : Server α) : Prop :=
  Program.Built (S := storeSig) Ordinary B Ordinary p

/-- A computation put together from blocks with steps in `U`. -/
abbrev PlainIn (U : StoreOp → Prop) (p : Server α) : Prop :=
  BuiltFrom (fun α p => Block α p ∧ p.Uses (S := storeSig) U) p

abbrev Plain (p : Server α) : Prop := PlainIn (fun _ => True) p

section
variable {p : Server α}

theorem plain_of_block (h : Block α p) (hU : p.Uses (S := storeSig) U) : PlainIn U p :=
  .block ⟨h, hU⟩ ((raises_block α p h).mono fun _ he => he.ordinary) fun _ he => he

theorem PlainIn.uses (h : PlainIn U p) : p.Uses (S := storeSig) U :=
  Program.Built.uses h fun _ _ hq => hq.2

theorem PlainIn.mono {V : StoreOp → Prop} (h : PlainIn U p) (hUV : ∀ o, U o → V o) : PlainIn V p :=
  h.flatten fun _ _ hq => plain_of_block hq.1 (hq.2.mono hUV)

theorem PlainIn.plain (h : PlainIn U p) : Plain p := h.mono fun _ _ => trivial

theorem plain_block (h : Block α p) : Plain p :=
  plain_of_block h (Program.Obeys.any (A := fun _ _ => True) p).uses

theorem PlainIn.keeps (h : PlainIn U p) {I : World → Prop}
    (hI : ∀ (α : Type) (p : Server α), Block α p → ∀ w, I w → I (exec p w).2) (w : World)
    (hw : I w) : I (exec p w).2 :=
  Program.Built.keeps World.sem h (fun α p hq => hI α p hq.1) w hw

theorem ordinary_of_built {B : (α : Type) → Server α → Prop} (h : BuiltFrom B p) {w : World}
    {e : ServerError} (he : (exec p w).1 = .error e) : Ordinary e := h.raises.run World.sem he

end

/-- The steps that remove neither a record nor bytes. -/
def Retains : StoreOp → Prop
  | .deleteMeta _ | .deleteMetaIfEmpty _ _ | .blobDelete _ => False
  | _ => True

theorem Retains.of_reads {o : StoreOp} (h : Reads o) : Retains o := by
  cases o <;> trivial

theorem plain_perform {o : StoreOp} (h : Idle o) (hU : U o) : PlainIn U (perform o) :=
  plain_of_block (.idle h) (uses_perform hU)

theorem plain_write (iri : Iri) (body : Bytes) (contentType : Text) :
    PlainIn Retains (write iri body contentType) :=
  plain_of_block (.write _ _ _)
    (uses_write (uses_stage trivial (fun _ => trivial) trivial) fun _ => trivial)

theorem plain_createInContainer (container child : Iri) (body : Bytes) (contentType : Text) :
    PlainIn Retains (createInContainer container child body contentType) :=
  plain_of_block (.create _ _ _ _)
    (uses_createInContainer (uses_stage trivial (fun _ => trivial) trivial) fun _ => trivial)

theorem plain_notify (resource : Iri) (activity : ActivityType) (parent : Option Iri) :
    PlainIn Retains (notify resource activity parent) := by
  refine .bind (plain_perform trivial trivial) fun _ => ?_
  split
  · exact plain_perform trivial trivial
  · exact plain_perform trivial trivial
  · exact .pure _

/-! ## §2 Reading -/

/-- The lookups in the index. -/
def Looks : StoreOp → Prop
  | .getMeta _ | .exists_ _ | .listChildren _ | .readPlan _ _ => True
  | _ => False

/-- **The operations reading is put together from.** -/
inductive Reading (wac : WacAuthorizer) : (α : Type) → Server α → Prop
  | look {o : StoreOp} (h : Looks o) : Reading wac o.Res (perform o)
  | fetch (m : ResourceMeta) : Reading wac Bytes (fetchBody m)
  | acl {acl : Iri} (h : isAclResource acl = true) :
      Reading wac (Option (List Triple)) (wac.readAclConfirmed acl)

/-- A computation that reads and decides. -/
abbrev Perused (wac : WacAuthorizer) (p : Server α) : Prop := BuiltFrom (Reading wac) p

/-- Blocks among which are the lookups and the fetched bodies. -/
class Lookups (B : (α : Type) → Server α → Prop) : Prop where
  look {o : StoreOp} (h : Looks o) : B o.Res (perform o)
  fetch (m : ResourceMeta) : B Bytes (fetchBody m)

instance (wac : WacAuthorizer) : Lookups (Reading wac) := ⟨.look, .fetch⟩

theorem lookups_of_reads (hU : ∀ o, Reads o → U o) :
    Lookups fun α p => Block α p ∧ p.Uses (S := storeSig) U where
  look {o} h := ⟨.idle (by cases o <;> trivial), uses_perform (hU o (by cases o <;> trivial))⟩
  fetch m := ⟨.fetch m, (reads_fetchBody m).mono hU⟩

instance : Lookups fun α p => Block α p ∧ p.Uses (S := storeSig) Reads :=
  lookups_of_reads fun _ h => h

instance : Lookups fun α p => Block α p ∧ p.Uses (S := storeSig) Retains :=
  lookups_of_reads fun _ => Retains.of_reads

section
variable {B : (α : Type) → Server α → Prop}

theorem built_check {r : Except ServerError α} (h : ∀ e, r = .error e → Ordinary e) :
    BuiltFrom B (check r) := .ret h

theorem built_orStorage (r : Except SparqError α) : BuiltFrom B (orStorage r) := by
  cases r with
  | ok a => exact .pure a
  | error e => exact .throw (ordinary_storage _)

theorem built_orNotFound (r : Except SparqError α) : BuiltFrom B (orNotFound r) := by
  cases r with
  | ok a => exact .pure a
  | error e =>
    cases e with
    | notFound => exact .throw ordinary_notFound
    | backend msg => exact .throw (ordinary_storage _)

variable [Lookups B]

theorem built_look {o : StoreOp} (h : Looks o) : BuiltFrom B (perform o) :=
  .block (Lookups.look h) (Program.Raises.call (S := storeSig) o) fun _ he => he

theorem built_fetchBody (m : ResourceMeta) : BuiltFrom B (fetchBody m) :=
  .block (Lookups.fetch m) ((raises_block _ _ (.fetch m)).mono fun _ he => he.ordinary) fun _ he => he

theorem built_read (iri : Iri) : BuiltFrom B (read iri) :=
  .bind (built_look trivial) fun r => .bind (built_orNotFound r) fun m =>
    .bind (built_fetchBody m) fun _ => .pure _

theorem built_meta? (iri : Iri) : BuiltFrom B (meta? iri) := by
  refine .bind (built_look trivial) fun r => ?_
  cases r with
  | ok m => exact .pure _
  | error e =>
    cases e with
    | notFound => exact .pure _
    | backend msg => exact .throw (ordinary_storage msg)

theorem built_exists_ (iri : Iri) : BuiltFrom B (exists_ iri) :=
  .bind (built_look trivial) fun r => built_orStorage r

theorem built_readPlan (target : Iri) (cs : List Iri) :
    BuiltFrom B (readPlan target cs) :=
  .bind (built_look trivial) fun r => built_orNotFound r

theorem built_listChildren (codec : RdfCodec) (container : Iri) :
    BuiltFrom B (listChildren codec container) :=
  .bind (built_look trivial) fun r => .bind (built_orStorage r) fun _ => .pure _

end

/-- A confirmed ACL read. -/
theorem plain_readAclConfirmed (wac : WacAuthorizer) (acl : Iri) :
    PlainIn Reads (wac.readAclConfirmed acl) := by
  unfold WacAuthorizer.readAclConfirmed
    WacAuthorizer.readThroughCache nowSecs
  split_ifs
  · refine .attempt_bind (built_read acl) (fun r => .pure _) fun e he => ?_
    cases e <;> first | exact .pure _ | exact .throw he
  · refine .bind (built_meta? acl) fun found => ?_
    cases found with
    | none => exact .pure _
    | some m =>
      refine .bind (.bind (plain_perform trivial trivial) fun _ => .pure _) fun now =>
        .bind (plain_perform trivial trivial) fun cached => ?_
      cases cached with
      | some triples => exact .pure _
      | none =>
        refine .attempt_bind (.bind (built_fetchBody m) fun _ => .pure _)
          (fun r => .bind (plain_perform trivial trivial) fun _ => .pure _) fun e he => ?_
        cases e <;> first | exact .pure _ | exact .throw he

variable {wac : WacAuthorizer} {p : Server α}

/-- Reading is plain, in whatever allows the reading steps. -/
theorem Perused.plain (h : Perused wac p) (hU : ∀ o, Reads o → U o) : PlainIn U p := by
  refine h.flatten fun β q hq => ?_
  suffices hplain : PlainIn Reads q from hplain.mono hU
  cases hq with
  | look h => exact built_look h
  | fetch m => exact built_fetchBody m
  | acl h => exact plain_readAclConfirmed wac _

theorem Perused.reads (h : Perused wac p) : p.Uses (S := storeSig) Reads :=
  (h.plain fun _ ho => ho).uses

theorem perused_readAclConfirmed {acl : Iri} (h : isAclResource acl = true) :
    Perused wac (wac.readAclConfirmed acl) :=
  .block (.acl h) (plain_readAclConfirmed wac acl).raises fun _ he => he

theorem perused_resolvePlannedLoop (rows : List (AclCandidate × Iri × Option Text))
    (hrows : ∀ row ∈ rows, isAclResource row.1.acl = true) (idx : Nat) :
    Perused wac (wac.resolvePlannedLoop idx rows) := by
  induction rows generalizing idx with
  | nil => exact .pure _
  | cons row rows ih =>
    obtain ⟨candidate, planIri, etag⟩ := row
    obtain ⟨hrow, hrest⟩ := List.forall_mem_cons.mp hrows
    unfold WacAuthorizer.resolvePlannedLoop
    by_cases hacl : candidate.acl ≠ planIri
    · rw [if_pos hacl]
      exact .throw (ordinary_storage _)
    · rw [if_neg hacl]
      cases etag with
      | none => exact ih hrest _
      | some _ =>
        refine .bind (perused_readAclConfirmed hrow) fun found => ?_
        cases found with
        | some triples => exact .pure _
        | none => exact ih hrest _

theorem perused_resolveEffectiveAclPlanned (baseUrl : Text) (target : Iri)
    (rows : List (Iri × Option Text)) :
    Perused wac (wac.resolveEffectiveAclPlanned (readPlanCandidates baseUrl target) rows) := by
  unfold WacAuthorizer.resolveEffectiveAclPlanned
  split_ifs
  · exact .throw (ordinary_storage _)
  · exact perused_resolvePlannedLoop _
      (fun row hrow => isAclResource_candidate (List.of_mem_zip hrow).1) 0

end SolidServer.Ldp
