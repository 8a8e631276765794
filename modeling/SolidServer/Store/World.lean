import SolidServer.Effects.Program
import SolidServer.Store.Cache

/-!
# The world the server runs in

The authoritative index with its containment edges (`store/sparq.rs`), the blob
store (`store/blob.rs`), the two caches, the clock, the random source and the
notification fan-out, as one state with one atomic operation per step the server can
take.  `StoreOp` is the signature programs are written over and `World.sem` its
sequential meaning.

The backends may fail: `Faults` says which index records and blob keys answer with a
backend error.  A failing operation changes nothing.
-/

namespace SolidServer.Store

open SolidServer.Effects

/-! ## §1 The index -/

/-- A point in time, in nanoseconds from the Unix epoch. -/
abbrev SystemTime := Int

/-- `duration_since(UNIX_EPOCH)` in whole seconds; `none` before the epoch. -/
def SystemTime.unixSecs? (t : SystemTime) : Option Int :=
  if 0 ≤ t then some (t / 1000000000) else none

/-- The index record of a resource. -/
structure ResourceMeta where
  contentType : Text
  blobKey : Text
  etag : Text
  lastModified : Option SystemTime
  deriving DecidableEq

structure ReadPlan where
  target : Option ResourceMeta
  acls : List (Iri × Option Text)
  deriving DecidableEq

inductive DeleteOutcome where
  | deleted
  | notEmpty
  | notFound
  deriving DecidableEq, Repr

inductive SparqError where
  | notFound
  | backend (msg : Text)
  deriving DecidableEq, Repr

/-- The `Display` text of an index error. -/
def SparqError.text : SparqError → Text
  | notFound => "resource not indexed".toList
  | backend msg => "sparq backend error: ".toList ++ msg

/-- The index: metadata records and the children of each container. -/
structure Index where
  records : Dict Iri ResourceMeta
  children : Dict Iri (List Iri)

namespace Index

/-- The record of an IRI. -/
def meta? (i : Index) (iri : Iri) : Option ResourceMeta := i.records.lookup iri

/-- The children listed for a container. -/
def childrenOf (i : Index) (container : Iri) : List Iri := (i.children.lookup container).getD []

def putMeta (i : Index) (iri : Iri) (m : ResourceMeta) : Index :=
  { i with records := i.records.insert iri m }

def deleteMeta (i : Index) (iri : Iri) : Index :=
  ⟨i.records.erase iri, i.children.erase iri⟩

def removeChild (i : Index) (container child : Iri) : Index :=
  match i.children.lookup container with
  | some kids => { i with children := i.children.insert container (kids.filter (· ≠ child)) }
  | none => i

/-- Record the edge, keeping the children duplicate-free and in insertion order. -/
def addChild (i : Index) (container child : Iri) : Index :=
  let kids := i.childrenOf container
  { i with children :=
      i.children.insert container (if child ∈ kids then kids else kids ++ [child]) }

/-- `create_child`: record and edge in one step, if the container is indexed. -/
def createChild (i : Index) (container child : Iri) (m : ResourceMeta) :
    Except SparqError Unit × Index :=
  match i.meta? container with
  | none => (.error .notFound, i)
  | some _ => (.ok (), (i.putMeta child m).addChild container child)

/-- `delete_meta_if_empty`: check, record, edges and parent edge in one step. -/
def deleteMetaIfEmpty (i : Index) (iri : Iri) (parent : Option Iri) : DeleteOutcome × Index :=
  match i.meta? iri with
  | none => (.notFound, i)
  | some _ =>
    if i.childrenOf iri ≠ [] then (.notEmpty, i)
    else
      match parent with
      | some p => (.deleted, (i.deleteMeta iri).removeChild p iri)
      | none => (.deleted, i.deleteMeta iri)

def readPlan (i : Index) (target : Iri) (candidates : List Iri) : ReadPlan :=
  ⟨i.meta? target, candidates.map fun c => (c, (i.meta? c).map ResourceMeta.etag)⟩

end Index

/-! ## §2 The backends -/

inductive BlobError where
  | notFound
  | backend (msg : Text)
  deriving DecidableEq, Repr

def BlobError.text : BlobError → Text
  | notFound => "blob not found".toList
  | backend msg => "blob backend error: ".toList ++ msg

/-- The shared storage: the index and the bytes its records point at. -/
structure Backend where
  index : Index
  blobs : Dict Text Bytes

/-- Which records and keys answer with a backend error, and with which message. -/
structure Faults where
  indexRead : Iri → Option Text
  indexWrite : Iri → Option Text
  blobGet : Text → Option Text
  blobPut : Text → Option Text
  blobDelete : Text → Option Text

/-- Working backends. -/
def Faults.none : Faults :=
  ⟨fun _ => .none, fun _ => .none, fun _ => .none, fun _ => .none, fun _ => .none⟩

/-! ## §3 The world -/

inductive ActivityType where
  | create | update | delete | add | remove
  deriving DecidableEq, Repr

/-- A notification frame as sent to the subscribers of a topic. -/
structure Frame where
  activity : ActivityType
  object : Iri
  target : Option Iri
  deriving DecidableEq

/-- The random suffix of a blob key: sixteen bytes from the system source. -/
structure Suffix where
  bytes : Bytes
  length_eq : bytes.length = 16
  deriving DecidableEq

/-- Everything a request can read or change.  `clock` and `entropy` are the successive
answers of the clock and of the random source; `readings` and `draws` count those taken. -/
structure World where
  backend : Backend
  aclCache : AclCache
  bodyCache : BodyCache
  faults : Faults
  clock : Nat → SystemTime
  readings : Nat
  entropy : Nat → Except Text Suffix
  draws : Nat
  counter : Nat
  sent : List (Iri × Frame)

/-- The atomic steps. -/
inductive StoreOp where
  | getMeta (iri : Iri)
  | putMeta (iri : Iri) (m : ResourceMeta)
  | exists_ (iri : Iri)
  | deleteMeta (iri : Iri)
  | deleteMetaIfEmpty (iri : Iri) (parent : Option Iri)
  | createChild (container child : Iri) (m : ResourceMeta)
  | removeChild (container child : Iri)
  | listChildren (container : Iri)
  | readPlan (target : Iri) (candidates : List Iri)
  | blobGet (key : Text)
  | blobPut (key : Text) (body : Bytes)
  | blobDelete (key : Text)
  | bodyCacheGet (key etag : Text)
  | bodyCacheInsert (key etag : Text) (body : Bytes)
  | aclCacheGet (acl etag : Text) (now : Int)
  | aclCacheInsert (acl etag : Text) (triples : List Triple) (now : Int)
  | aclCacheInvalidate (acl : Iri)
  | now
  | random
  | fetchAddCounter
  | fanOut (topic : Iri) (frame : Frame)

/-- What each step answers. -/
abbrev StoreOp.Res : StoreOp → Type
  | .getMeta _ => Except SparqError ResourceMeta
  | .putMeta _ _ => Except SparqError Unit
  | .exists_ _ => Except SparqError Bool
  | .deleteMeta _ => Except SparqError Unit
  | .deleteMetaIfEmpty _ _ => Except SparqError DeleteOutcome
  | .createChild _ _ _ => Except SparqError Unit
  | .removeChild _ _ => Except SparqError Unit
  | .listChildren _ => Except SparqError (List Iri)
  | .readPlan _ _ => Except SparqError ReadPlan
  | .blobGet _ => Except BlobError Bytes
  | .blobPut _ _ => Except BlobError Unit
  | .blobDelete _ => Except BlobError Unit
  | .bodyCacheGet _ _ => Option Bytes
  | .bodyCacheInsert _ _ _ => Unit
  | .aclCacheGet _ _ _ => Option (List Triple)
  | .aclCacheInsert _ _ _ _ => Unit
  | .aclCacheInvalidate _ => Unit
  | .now => SystemTime
  | .random => Except Text Suffix
  | .fetchAddCounter => Nat
  | .fanOut _ _ => Unit

abbrev storeSig : Signature := ⟨StoreOp, StoreOp.Res⟩

/-- A server computation: atomic steps, ending in a value or a server error. -/
abbrev Server := Program storeSig ServerError

/-- Perform one atomic step. -/
def perform (o : StoreOp) : Server o.Res := Program.call (S := storeSig) o

/-- A result that is already known, as a computation: its error ends the request. -/
def check {α : Type} (r : Except ServerError α) : Server α := Program.ofExcept r

namespace World

def withIndex (w : World) (i : Index) : World :=
  { w with backend := { w.backend with index := i } }

def withBlobs (w : World) (b : Dict Text Bytes) : World :=
  { w with backend := { w.backend with blobs := b } }

/-- The answer of an index operation on a record, unless the backend fails for it. -/
def guardIndex {α : Type} (fault : Option Text) (answer : Except SparqError α) :
    Except SparqError α :=
  match fault with
  | some e => .error (.backend e)
  | none => answer

/-- The first failing record of a read plan. -/
def planFault (f : Faults) (target : Iri) (candidates : List Iri) : Option Text :=
  (target :: candidates).findSome? f.indexRead

/-- **The sequential meaning of the steps.** -/
def sem : Semantics storeSig World := fun w o =>
  match o with
  | .getMeta iri =>
    (guardIndex (w.faults.indexRead iri)
      (match w.backend.index.meta? iri with
        | some m => .ok m
        | none => .error .notFound), w)
  | .putMeta iri m =>
    match w.faults.indexWrite iri with
    | some e => (.error (.backend e), w)
    | none => (.ok (), w.withIndex (w.backend.index.putMeta iri m))
  | .exists_ iri =>
    (guardIndex (w.faults.indexRead iri) (.ok (w.backend.index.meta? iri).isSome), w)
  | .deleteMeta iri =>
    match w.faults.indexWrite iri with
    | some e => (.error (.backend e), w)
    | none => (.ok (), w.withIndex (w.backend.index.deleteMeta iri))
  | .deleteMetaIfEmpty iri parent =>
    match w.faults.indexWrite iri with
    | some e => (.error (.backend e), w)
    | none =>
      let r := w.backend.index.deleteMetaIfEmpty iri parent
      (.ok r.1, w.withIndex r.2)
  | .createChild container child m =>
    match w.faults.indexWrite child with
    | some e => (.error (.backend e), w)
    | none =>
      let r := w.backend.index.createChild container child m
      (r.1, w.withIndex r.2)
  | .removeChild container child =>
    match w.faults.indexWrite container with
    | some e => (.error (.backend e), w)
    | none => (.ok (), w.withIndex (w.backend.index.removeChild container child))
  | .listChildren container =>
    (guardIndex (w.faults.indexRead container) (.ok (w.backend.index.childrenOf container)), w)
  | .readPlan target candidates =>
    (guardIndex (planFault w.faults target candidates)
      (.ok (w.backend.index.readPlan target candidates)), w)
  | .blobGet key =>
    (match w.faults.blobGet key with
      | some e => .error (.backend e)
      | none =>
        match w.backend.blobs.lookup key with
        | some b => .ok b
        | none => .error .notFound, w)
  | .blobPut key body =>
    match w.faults.blobPut key with
    | some e => (.error (.backend e), w)
    | none => (.ok (), w.withBlobs (w.backend.blobs.insert key body))
  | .blobDelete key =>
    match w.faults.blobDelete key with
    | some e => (.error (.backend e), w)
    | none => (.ok (), w.withBlobs (w.backend.blobs.erase key))
  | .bodyCacheGet key etag =>
    ((w.bodyCache.get key etag).1, { w with bodyCache := (w.bodyCache.get key etag).2 })
  | .bodyCacheInsert key etag body => ((), { w with bodyCache := w.bodyCache.insert key etag body })
  | .aclCacheGet acl etag now =>
    ((w.aclCache.get acl etag now).1, { w with aclCache := (w.aclCache.get acl etag now).2 })
  | .aclCacheInsert acl etag triples now =>
    ((), { w with aclCache := w.aclCache.insert acl etag triples now })
  | .aclCacheInvalidate acl => ((), { w with aclCache := w.aclCache.invalidate acl })
  | .now => (w.clock w.readings, { w with readings := w.readings + 1 })
  | .random => (w.entropy w.draws, { w with draws := w.draws + 1 })
  | .fetchAddCounter => (w.counter, { w with counter := (w.counter + 1) % 2 ^ 64 })
  | .fanOut topic frame => ((), { w with sent := w.sent ++ [(topic, frame)] })

end World

/-- Run a server computation alone. -/
def exec {α : Type} (p : Server α) (w : World) : Except ServerError α × World :=
  p.run World.sem w

section
variable {α β : Type} (w : World)

@[simp] theorem exec_pure (a : α) : exec (pure a) w = (.ok a, w) := rfl

@[simp] theorem exec_throw (e : ServerError) : exec (throw e : Server α) w = (.error e, w) := rfl

@[simp] theorem exec_check (r : Except ServerError α) : exec (check r) w = (r, w) := rfl

/-- Performing a step hands its answer to the rest. -/
theorem exec_perform_bind (o : StoreOp) (f : o.Res → Server β) :
    exec (perform o >>= f) w = exec (f (World.sem w o).1) (World.sem w o).2 := rfl

theorem exec_bind (p : Server α) (f : α → Server β) :
    exec (p >>= f) w =
      match exec p w with
      | (.ok a, w') => exec (f a) w'
      | (.error e, w') => (.error e, w') := by
  unfold exec
  rw [Program.run_bind]
  rcases Program.run World.sem p w with ⟨r | a, w'⟩ <;> rfl

theorem exec_bind_ok {p : Server α} {f : α → Server β} {w w' : World} {a : α}
    (h : exec p w = (.ok a, w')) : exec (p >>= f) w = exec (f a) w' :=
  Program.run_bind_ok World.sem h

theorem exec_bind_error {p : Server α} {f : α → Server β} {w w' : World} {e : ServerError}
    (h : exec p w = (.error e, w')) : exec (p >>= f) w = (.error e, w') :=
  Program.run_bind_error World.sem h

@[simp] theorem exec_attempt (p : Server α) :
    exec p.attempt w = (.ok (exec p w).1, (exec p w).2) := Program.run_attempt World.sem p w

end

end SolidServer.Store
