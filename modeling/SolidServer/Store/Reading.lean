import SolidServer.Effects.Logic
import SolidServer.Store.Composite

/-!
# What the reading operations return

For each reading operation of the composite store its result as a function of the
world (`probe`, `fetchOutcome`), and what it may leave behind: `Quiet` says that a
computation touched nothing but the caches and the clock, and `quiet_step` gives
it for every reading step.
-/

namespace SolidServer.Store

open SolidServer.Effects

/-! ## §1 Results -/

/-- What an index probe of a record answers. -/
def probe (w : World) (iri : Iri) : Except ServerError (Option ResourceMeta) :=
  match w.faults.indexRead iri with
  | some e => .error (.storage e)
  | none => .ok (w.backend.index.meta? iri)

/-- The bytes the blob store holds for a record, or the error of fetching them. -/
def blobOutcome (w : World) (m : ResourceMeta) : Except ServerError Bytes :=
  match w.faults.blobGet m.blobKey with
  | some e => .error (.storage e)
  | none =>
    match w.backend.blobs.lookup m.blobKey with
    | some b => .ok b
    | none => .error (.storage "byte/index inconsistency".toList)

/-- The bytes a record yields: from the body cache, else from the blob store. -/
def fetchOutcome (w : World) (m : ResourceMeta) : Except ServerError Bytes :=
  match w.bodyCache.body? m.blobKey m.etag with
  | some b => .ok b
  | none => blobOutcome w m

attribute [local simp] World.sem

variable {w : World} {iri : Iri} {m : ResourceMeta}

theorem probe_of_no_fault (h : w.faults.indexRead iri = none) :
    probe w iri = .ok (w.backend.index.meta? iri) := by
  simp [probe, h]

theorem meta_of_probe {r : Option ResourceMeta} (h : probe w iri = .ok r) :
    w.backend.index.meta? iri = r := by
  unfold probe at h
  split at h
  · cases h
  · exact Except.ok.inj h

theorem exec_meta? (iri : Iri) (w : World) : exec (meta? iri) w = (probe w iri, w) := by
  unfold meta? probe
  rw [exec_perform_bind]
  simp only [World.sem]
  cases w.faults.indexRead iri with
  | some e => rfl
  | none => cases w.backend.index.meta? iri <;> rfl

theorem exec_exists_ (iri : Iri) (w : World) :
    (exec (exists_ iri) w).2 = w ∧
      (w.faults.indexRead iri = none →
        (exec (exists_ iri) w).1 = .ok (w.backend.index.meta? iri).isSome) := by
  unfold exists_
  rw [exec_perform_bind]
  simp only [World.sem]
  cases w.faults.indexRead iri with
  | some e => exact ⟨rfl, fun h => by cases h⟩
  | none => exact ⟨rfl, fun _ => rfl⟩

theorem exec_readPlan (target : Iri) (cs : List Iri) (w : World) :
    exec (readPlan target cs) w =
      (match World.planFault w.faults target cs with
        | some e => .error (.storage e)
        | none => .ok (w.backend.index.readPlan target cs), w) := by
  unfold readPlan
  rw [exec_perform_bind]
  simp only [World.sem]
  cases World.planFault w.faults target cs <;> rfl

theorem planFault_eq_none {target : Iri} {cs : List Iri}
    (h : ∀ i, w.faults.indexRead i = none) : World.planFault w.faults target cs = none := by
  simp [World.planFault, h]

theorem exec_fetchBody_fst (m : ResourceMeta) (w : World) :
    (exec (fetchBody m) w).1 = fetchOutcome w m := by
  unfold fetchBody fetchOutcome blobOutcome
  rw [exec_perform_bind]
  have hget : (World.sem w (.bodyCacheGet m.blobKey m.etag)).1 =
      w.bodyCache.body? m.blobKey m.etag := BodyCache.get_fst _ _ _
  rw [hget]
  cases w.bodyCache.body? m.blobKey m.etag with
  | some b => rfl
  | none =>
    rw [exec_perform_bind]
    simp only [World.sem]
    cases w.faults.blobGet m.blobKey with
    | some e => rfl
    | none => cases w.backend.blobs.lookup m.blobKey <;> rfl

/-! ## §2 Quiet computations -/

/-- Nothing changed but the caches and the number of clock readings. -/
structure Quiet (w w' : World) : Prop where
  backend : w'.backend = w.backend
  faults : w'.faults = w.faults
  clock : w'.clock = w.clock
  entropy : w'.entropy = w.entropy
  draws : w'.draws = w.draws
  counter : w'.counter = w.counter
  sent : w'.sent = w.sent

namespace Quiet

theorem refl (w : World) : Quiet w w := ⟨rfl, rfl, rfl, rfl, rfl, rfl, rfl⟩

theorem trans {a b c : World} (h : Quiet a b) (h' : Quiet b c) : Quiet a c where
  backend := h'.backend.trans h.backend
  faults := h'.faults.trans h.faults
  clock := h'.clock.trans h.clock
  entropy := h'.entropy.trans h.entropy
  draws := h'.draws.trans h.draws
  counter := h'.counter.trans h.counter
  sent := h'.sent.trans h.sent

end Quiet

/-- No step changes which records and keys fail. -/
theorem faults_step (w : World) (o : StoreOp) : (World.sem w o).2.faults = w.faults := by
  cases o <;> simp only [World.sem] <;> (try split) <;> rfl

theorem faults_exec {α : Type} (p : Server α) (w : World) : (exec p w).2.faults = w.faults := by
  induction p generalizing w with
  | ret r => rfl
  | step o k ih => exact (ih _ _).trans (faults_step w o)

/-- The steps that read. -/
def Reads : StoreOp → Prop
  | .getMeta _ | .exists_ _ | .listChildren _ | .readPlan _ _ | .blobGet _ | .bodyCacheGet _ _
  | .bodyCacheInsert _ _ _ | .aclCacheGet _ _ _ | .aclCacheInsert _ _ _ _ | .now => True
  | _ => False

theorem quiet_step (w : World) (o : StoreOp) (h : Reads o) : Quiet w (World.sem w o).2 := by
  cases o <;> first | exact h.elim | exact ⟨rfl, rfl, rfl, rfl, rfl, rfl, rfl⟩

section
open Program

variable {P : StoreOp → Prop} {α : Type} {body : Bytes} {contentType : Text}

theorem uses_perform {o : StoreOp} (h : P o) :
    (perform o).Uses (S := storeSig) P := Uses.call (S := storeSig) h

theorem uses_orStorage (r : Except SparqError α) :
    (orStorage r).Uses (S := storeSig) P := by
  cases r <;> trivial

theorem uses_orBlobStorage (r : Except BlobError α) :
    (orBlobStorage r).Uses (S := storeSig) P := by
  cases r <;> trivial

theorem uses_orNotFound (r : Except SparqError α) :
    (orNotFound r).Uses (S := storeSig) P := by
  rcases r with (_ | _) | _ <;> trivial

theorem uses_fetchBody (m : ResourceMeta) (hget : P (.bodyCacheGet m.blobKey m.etag))
    (hblob : P (.blobGet m.blobKey)) (hins : ∀ b, P (.bodyCacheInsert m.blobKey m.etag b)) :
    (fetchBody m).Uses (S := storeSig) P := by
  refine Uses.bind (uses_perform hget) fun hit => ?_
  cases hit with
  | some b => trivial
  | none =>
    refine Uses.bind (uses_perform hblob) fun r => ?_
    cases r with
    | ok b => exact Uses.bind (uses_perform (hins b)) fun _ => trivial
    | error e => trivial

theorem reads_fetchBody (m : ResourceMeta) : (fetchBody m).Uses (S := storeSig) Reads :=
  uses_fetchBody m trivial trivial fun _ => trivial

theorem reads_meta? (iri : Iri) : (meta? iri).Uses (S := storeSig) Reads :=
  Uses.bind (uses_perform trivial) fun r => by rcases r with (_ | _) | _ <;> trivial

theorem uses_stage {iri : Iri} (hrandom : P .random) (hput : ∀ key, P (.blobPut key body))
    (hnow : P .now) :
    (stage iri body contentType).Uses (S := storeSig) P := by
  refine Uses.bind (Uses.bind (uses_perform hrandom) fun r => by cases r <;> trivial) fun key => ?_
  refine Uses.bind (uses_perform (hput key)) fun r => Uses.bind (uses_orBlobStorage r) fun _ => ?_
  exact Uses.bind (uses_perform hnow) fun _ => trivial

theorem uses_write {iri : Iri} (hstage : (stage iri body contentType).Uses (S := storeSig) P)
    (hput : ∀ m, P (.putMeta iri m)) :
    (write iri body contentType).Uses (S := storeSig) P :=
  Uses.bind hstage fun m => Uses.bind (uses_perform (hput m)) fun r =>
    Uses.bind (uses_orStorage r) fun _ => trivial

theorem uses_createInContainer {container child : Iri}
    (hstage : (stage child body contentType).Uses (S := storeSig) P)
    (hput : ∀ m, P (.createChild container child m)) :
    (createInContainer container child body contentType).Uses (S := storeSig) P :=
  Uses.bind hstage fun m => Uses.bind (uses_perform (hput m)) fun r =>
    Uses.bind (uses_orNotFound r) fun _ => trivial

theorem uses_delete {iri : Iri} {parent : Option Iri} (hget : P (.getMeta iri))
    (hunlink : ∀ p, P (.removeChild p iri)) (hmeta : P (.deleteMeta iri))
    (hreap : ∀ key, P (.blobDelete key)) : (delete iri parent).Uses (S := storeSig) P := by
  refine Uses.bind (Uses.bind (uses_perform hget) fun r => ?_) fun key => Uses.bind ?_ fun _ =>
    Uses.bind (uses_perform hmeta) fun r => Uses.bind (uses_orStorage r) fun _ => ?_
  · rcases r with (_ | _) | _ <;> trivial
  · cases parent with
    | none => trivial
    | some p => exact Uses.bind (uses_perform (hunlink p)) uses_orStorage
  · cases key with
    | none => trivial
    | some k => exact Uses.bind (uses_perform (hreap k)) uses_orBlobStorage

theorem uses_notify {resource : Iri} {activity : ActivityType} {parent : Option Iri}
    (h : ∀ topic frame, P (.fanOut topic frame)) :
    (notify resource activity parent).Uses (S := storeSig) P := by
  refine Uses.bind (uses_perform (h _ _)) fun _ => ?_
  split
  · exact uses_perform (h _ _)
  · exact uses_perform (h _ _)
  · trivial

end

/-! ## §3 Whole reads -/

/-- `read`: absent, or the record with what its bytes fetch gives. -/
theorem exec_read_fst (iri : Iri) (w : World) :
    (exec (read iri) w).1 =
      match probe w iri with
      | .error e => .error e
      | .ok none => .error .notFound
      | .ok (some m) => (fetchOutcome w m).map fun b => ⟨b, m⟩ := by
  unfold read probe
  rw [exec_perform_bind]
  simp only [World.sem, World.guardIndex]
  cases w.faults.indexRead iri with
  | some e => rfl
  | none =>
    cases w.backend.index.meta? iri with
    | none => rfl
    | some m =>
      have hfetch := exec_fetchBody_fst m w
      simp only [orNotFound, pure_bind, exec_bind]
      rcases hrun : exec (fetchBody m) w with ⟨r, w'⟩
      rw [hrun] at hfetch
      subst hfetch
      cases fetchOutcome w m <;> rfl

/-- Reading an absent record leaves the world as it is. -/
theorem exec_read_absent (h : probe w iri = .ok none) : exec (read iri) w = (.error .notFound, w) := by
  unfold probe at h
  unfold read
  rw [exec_perform_bind]
  simp only [World.sem, World.guardIndex]
  cases hf : w.faults.indexRead iri with
  | some e => simp [hf] at h
  | none =>
    simp only [hf, Except.ok.injEq] at h
    simp [h, orNotFound, exec_bind]

end SolidServer.Store
