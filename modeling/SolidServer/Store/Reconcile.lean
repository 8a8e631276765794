import Mathlib.Data.List.Perm.Basic
import SolidServer.Effects.Embedding
import SolidServer.Effects.History
import SolidServer.Store.Reading

/-!
# The reconciler

`reconcile_orphans` deletes stored bytes that no record refers to.  A writer stores the bytes
first and commits the record later, so young bytes are spared; the sweep looks twice at the
index and at the blob before it deletes.

The sweep needs more of the blob store than requests do: a listing, the stamps of single
blobs and a compare-and-delete.  `TimedWorld` adds them, and a clock, to the store's world;
requests run there as they are (`Program.embed`).

## Model

* blobs carry the time and the generation of the write that stored them;
* a backend may report both, one or none of the two for any blob, and in any order;
* the clock is moved on between the steps, never back (`Passes`).
-/

namespace SolidServer.Store

open SolidServer.Effects

/-! ## §1 The blob store with stamps -/

/-- `BlobEntry`: a stored blob as the backend reports it. -/
structure BlobEntry where
  key : Text
  lastModified : Option SystemTime
  generation : Option Nat
  deriving DecidableEq

/-- The stamp of a stored blob. -/
structure Stamp where
  lastModified : SystemTime
  generation : Nat

/-- What a backend reports of its blobs: which of them with a date, which with a write version,
and in which order a listing has them. -/
structure Reporting where
  dated : Text → Bool
  versioned : Text → Bool
  arrange : List Text → List Text
  arrange_perm : ∀ keys, (arrange keys).Perm keys

/-- Which of the sweep's own calls answer with a backend error. -/
structure SweepFaults where
  referenced : Option Text
  list : Option Text
  stat : Text → Option Text
  deleteIfUnchanged : Text → Option Text

def SweepFaults.none : SweepFaults := ⟨.none, .none, fun _ => .none, fun _ => .none⟩

/-- The store's world with a clock and the stamps of the blobs. -/
structure TimedWorld where
  store : World
  time : SystemTime
  stamps : Text → Stamp
  nextGeneration : Nat
  reporting : Reporting
  sweepFaults : SweepFaults

/-- The atomic steps of a store with a reconciler at work. -/
inductive GcOp where
  | store (o : StoreOp)
  | referencedBlobKeys
  | list
  | stat (key : Text)
  | deleteIfUnchanged (key : Text) (expectedGeneration : Nat)

abbrev GcOp.Res : GcOp → Type
  | .store o => o.Res
  | .referencedBlobKeys => Except SparqError (List Text)
  | .list => Except BlobError (List BlobEntry)
  | .stat _ => Except BlobError (Option BlobEntry)
  | .deleteIfUnchanged _ _ => Except BlobError Bool

abbrev gcSig : Signature := ⟨GcOp, GcOp.Res⟩

/-- `referenced_blob_keys` of the index. -/
def Index.blobKeys (i : Index) : List Text := i.records.entries.map fun e => e.2.blobKey

namespace TimedWorld

/-- The bytes under a key. -/
def blob? (w : TimedWorld) (key : Text) : Option Bytes := w.store.backend.blobs.lookup key

/-- A stored blob as the backend reports it. -/
def entry (w : TimedWorld) (key : Text) : BlobEntry where
  key := key
  lastModified := if w.reporting.dated key then some (w.stamps key).lastModified else none
  generation := if w.reporting.versioned key then some (w.stamps key).generation else none

/-- What the steps do.  Every time is read off the one clock; a write stamps its blob. -/
def sem : Semantics gcSig TimedWorld := fun w o =>
  match o with
  | .store .now => (w.time, w)
  | .store (.blobPut key body) =>
    match w.store.faults.blobPut key with
    | some e => (.error (.backend e), w)
    | none =>
      (.ok (),
        { w with
          store := w.store.withBlobs (w.store.backend.blobs.insert key body)
          stamps := Function.update w.stamps key ⟨w.time, w.nextGeneration⟩
          nextGeneration := (w.nextGeneration + 1) % 2 ^ 64 })
  | .store o => ((World.sem w.store o).1, { w with store := (World.sem w.store o).2 })
  | .referencedBlobKeys =>
    match w.sweepFaults.referenced with
    | some e => (.error (.backend e), w)
    | none => (.ok w.store.backend.index.blobKeys, w)
  | .list =>
    match w.sweepFaults.list with
    | some e => (.error (.backend e), w)
    | none => (.ok ((w.reporting.arrange w.store.backend.blobs.keys).map w.entry), w)
  | .stat key =>
    match w.sweepFaults.stat key with
    | some e => (.error (.backend e), w)
    | none => (.ok ((w.blob? key).map fun _ => w.entry key), w)
  | .deleteIfUnchanged key expectedGeneration =>
    match w.sweepFaults.deleteIfUnchanged key with
    | some e => (.error (.backend e), w)
    | none =>
      -- the comparison and the removal are one step
      if (w.blob? key).isSome ∧ (w.stamps key).generation = expectedGeneration then
        (.ok true, { w with store := w.store.withBlobs (w.store.backend.blobs.erase key) })
      else (.ok false, w)

/-- **The clock does not go back.**  What passes between two steps: time, and how the backends
report and fail. -/
structure Passes (w w' : TimedWorld) : Prop where
  time : w.time ≤ w'.time
  store : w'.store = { w.store with faults := w'.store.faults }
  stamps : w'.stamps = w.stamps
  nextGeneration : w'.nextGeneration = w.nextGeneration

end TimedWorld

/-! ## §2 The sweep -/

/-- `ReconcileOptions`; the grace period is in nanoseconds. -/
structure ReconcileOptions where
  grace : Nat
  dryRun : Bool

/-- `ReconcileOptions::default`: one hour. -/
def ReconcileOptions.default : ReconcileOptions := ⟨3600 * 1000000000, false⟩

/-- `ReconcileReport`. -/
structure ReconcileReport where
  scanned : Nat := 0
  referenced : Nat := 0
  orphaned : Nat := 0
  deleted : Nat := 0
  wouldDelete : Nat := 0
  tooYoung : Nat := 0
  skippedUnknownAge : Nat := 0
  skippedRevalidated : Nat := 0
  deleteErrors : Nat := 0
  deriving DecidableEq, Repr

inductive ReconcileError where
  | referencedSet (e : SparqError)
  | listBlobs (e : BlobError)

/-- The errors of the jobs that run side by side. -/
inductive GcError where
  | server (e : ServerError)
  | reconcile (e : ReconcileError)

abbrev Reconciler := Program gcSig GcError

def performGc (o : GcOp) : Reconciler o.Res := Program.call (S := gcSig) o

inductive CandidateWitness where
  | versioned (snapshotGen : Nat)
  | versionless

structure Candidate where
  key : Text
  snapshotTs : SystemTime
  witness : CandidateWitness

/-- `now.duration_since(ts).unwrap_or(ZERO)`. -/
def ageAt (now ts : SystemTime) : Nat := (now - ts).toNat

/-- The first pass, one entry of the snapshot: counted, and kept as a candidate if it is
unreferenced, dated and old enough. -/
def classifyEntry (opts : ReconcileOptions) (referenced : List Text) (now : SystemTime)
    (acc : ReconcileReport × List Candidate) (entry : BlobEntry) :
    ReconcileReport × List Candidate :=
  let (report, candidates) := acc
  if entry.key ∈ referenced then
    ({ report with referenced := report.referenced + 1 }, candidates)
  else
    let report := { report with orphaned := report.orphaned + 1 }
    match entry.lastModified with
    | none => ({ report with skippedUnknownAge := report.skippedUnknownAge + 1 }, candidates)
    | some ts =>
      if opts.grace ≤ ageAt now ts then
        let witness := match entry.generation with
          | some snapshotGen => .versioned snapshotGen
          | none => .versionless
        (report, candidates ++ [⟨entry.key, ts, witness⟩])
      else ({ report with tooYoung := report.tooYoung + 1 }, candidates)

def classifyAll (opts : ReconcileOptions) (referenced : List Text) (now : SystemTime)
    (stored : List BlobEntry) : ReconcileReport × List Candidate :=
  stored.foldl (classifyEntry opts referenced now) ({ scanned := stored.length }, [])

inductive DeletePlan where
  | skipRevalidated
  | deleteCas (snapshotGen : Nat)
  | deleteUnconditional

/-- The delete decision: a versioned candidate must still have the snapshot's generation. -/
def deletePlan (witness : CandidateWitness) (fresh : Option Nat) : DeletePlan :=
  match witness with
  | .versioned snapshotGen =>
    match fresh with
    | none => .skipRevalidated
    | some freshGen =>
      if freshGen ≠ snapshotGen then .skipRevalidated else .deleteCas snapshotGen
  | .versionless => .deleteUnconditional

def ReconcileReport.revalidated (report : ReconcileReport) : ReconcileReport :=
  { report with skippedRevalidated := report.skippedRevalidated + 1 }

def ReconcileReport.failed (report : ReconcileReport) : ReconcileReport :=
  { report with deleteErrors := report.deleteErrors + 1 }

def ReconcileReport.reclaimed (report : ReconcileReport) : ReconcileReport :=
  { report with deleted := report.deleted + 1 }

/-- The deletion of a candidate that may go. -/
def carryOut (key : Text) (plan : DeletePlan) (report : ReconcileReport) :
    Reconciler ReconcileReport :=
  match plan with
  | .skipRevalidated => pure report.revalidated
  | .deleteCas snapshotGen => do
    match ← performGc (.deleteIfUnchanged key snapshotGen) with
    | .ok true => pure report.reclaimed
    | .ok false => pure report.revalidated
    | .error _ => pure report.failed
  | .deleteUnconditional => do
    match ← performGc (.store (.blobDelete key)) with
    | .ok () => pure report.reclaimed
    | .error _ => pure report.failed

/-- A dry run counts what a real one would delete. -/
def settle (opts : ReconcileOptions) (key : Text) (plan : DeletePlan) (report : ReconcileReport) :
    Reconciler ReconcileReport :=
  match plan with
  | .skipRevalidated => pure report.revalidated
  | plan =>
    if opts.dryRun then pure { report with wouldDelete := report.wouldDelete + 1 }
    else carryOut key plan report

/-- The second pass, one candidate: looked up in the fresh set, looked at again, then settled. -/
def revalidate (opts : ReconcileOptions) (now : SystemTime) (referencedFresh : List Text)
    (candidate : Candidate) (report : ReconcileReport) : Reconciler ReconcileReport :=
  if candidate.key ∈ referencedFresh then pure report.revalidated
  else do
    match ← performGc (.stat candidate.key) with
    | .error _ => pure report.failed
    | .ok none => pure report.revalidated
    | .ok (some current) =>
      match current.lastModified with
      | none => pure report.revalidated
      | some ts =>
        if candidate.snapshotTs < ts ∨ ageAt now ts < opts.grace then pure report.revalidated
        else settle opts candidate.key (deletePlan candidate.witness current.generation) report

/-- The second pass. -/
def revalidateAll (opts : ReconcileOptions) (now : SystemTime) (referencedFresh : List Text) :
    List Candidate → ReconcileReport → Reconciler ReconcileReport
  | [], report => pure report
  | candidate :: rest, report => do
    let report ← revalidate opts now referencedFresh candidate report
    revalidateAll opts now referencedFresh rest report

/-- The referenced set, or the end of the sweep. -/
def fetchReferenced : Reconciler (List Text) := do
  match ← performGc .referencedBlobKeys with
  | .ok keys => pure keys
  | .error e => throw (.reconcile (.referencedSet e))

/-- `reconcile_orphans`. -/
def reconcileOrphans (opts : ReconcileOptions) : Reconciler ReconcileReport := do
  let referenced ← fetchReferenced
  match ← performGc .list with
  | .error e => throw (.reconcile (.listBlobs e))
  | .ok stored => do
    let now ← performGc (.store .now)
    let (report, candidates) := classifyAll opts referenced now stored
    if candidates.isEmpty then pure report
    else do
      let referencedFresh ← fetchReferenced
      revalidateAll opts now referencedFresh candidates report

/-! ## §3 Jobs -/

/-- The store's steps among those of the reconciler. -/
def storeEmbedding : Embedding storeSig gcSig where
  op := .store
  answer _ r := r

/-- A call of the store beside the reconciler. -/
def storeCall {α : Type} (p : Server α) : Reconciler α := p.embed storeEmbedding .server

/-- What runs side by side: reads, writes, deletes and sweeps. -/
inductive Job where
  | read (iri : Iri)
  | planned (target : Iri) (candidates : List Iri)
  | write (iri : Iri) (body : Bytes) (contentType : Text)
  | create (container child : Iri) (body : Bytes) (contentType : Text)
  | delete (iri : Iri) (parent : Option Iri)
  | deleteContainer (iri : Iri) (parent : Option Iri)
  | sweep (opts : ReconcileOptions)

abbrev Job.Result : Job → Type
  | .read _ => Resource
  | .planned _ _ => Resource
  | .write _ _ _ => ResourceMeta
  | .create _ _ _ _ => ResourceMeta
  | .delete _ _ => Unit
  | .deleteContainer _ _ => DeleteOutcome
  | .sweep _ => ReconcileReport

/-- `read_plan` followed by `read_at`: the bytes of the record the plan found. -/
def readPlanned (target : Iri) (candidates : List Iri) : Server Resource := do
  let plan ← readPlan target candidates
  match plan.target with
  | none => throw .notFound
  | some m => do
    let body ← readAt m
    pure ⟨body, m⟩

def Job.program : (job : Job) → Reconciler job.Result
  | .read iri => storeCall (Store.read iri)
  | .planned target candidates => storeCall (readPlanned target candidates)
  | .write iri body contentType => storeCall (Store.write iri body contentType)
  | .create container child body contentType =>
    storeCall (createInContainer container child body contentType)
  | .delete iri parent => storeCall (Store.delete iri parent)
  | .deleteContainer iri parent => storeCall (deleteContainerIfEmpty iri parent)
  | .sweep opts => reconcileOrphans opts

end SolidServer.Store
