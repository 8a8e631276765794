import SolidServer.Store.World

/-!
# The composite store

`CompositeStore` (`store/mod.rs`): every operation of the `Store` trait as a program
over the index, the blob store and the body cache, with the error mapping of the
source.
-/

namespace SolidServer.Store

open SolidServer.Effects

/-- A resource: its bytes and the record they were found through. -/
structure Resource where
  body : Bytes
  meta_ : ResourceMeta
  deriving DecidableEq

/-! ## §1 Tags and keys -/

/-- FNV-1a over 64 bits. -/
def fnv1a (bytes : Bytes) : Nat :=
  bytes.foldl (fun hash b => Nat.xor hash b.toNat * 0x100000001b3 % 2 ^ 64) 0xcbf29ce484222325

/-- `etag_for`: a strong tag made of the length and the hash of the body. -/
def etagFor (body : Bytes) : Text :=
  "\"".toList ++ Text.decimal body.length ++ "-".toList ++ Text.decimal (fnv1a body) ++
    "\"".toList

/-- The readable part of a blob key. -/
def keyPrefix (iri : Iri) : Text :=
  iri.map fun c => if c = ':' ∨ c = '/' ∨ c = '?' ∨ c = '#' ∨ c = '%' then '_' else c

/-- Two lower-case hexadecimal digits. -/
def hexByte (b : UInt8) : Text := Text.zeroPad 2 (Text.hex b.toNat)

def blobKeyFor (iri : Iri) (suffix : Suffix) : Text :=
  keyPrefix iri ++ "-".toList ++ suffix.bytes.flatMap hexByte

/-- `mint_blob_key`: a fresh key per write; no key without randomness. -/
def mintBlobKey (iri : Iri) : Server Text := do
  match ← perform .random with
  | .ok suffix => pure (blobKeyFor iri suffix)
  | .error e => throw (.storage ("OS RNG unavailable for blob-key minting: ".toList ++ e))

/-! ## §2 Reading -/

/-- An index answer with every error as a storage error carrying its text. -/
def orStorage {α : Type} (r : Except SparqError α) : Server α :=
  match r with
  | .ok a => pure a
  | .error e => throw (.storage e.text)

/-- A blob answer with every error as a storage error carrying its text. -/
def orBlobStorage {α : Type} (r : Except BlobError α) : Server α :=
  match r with
  | .ok a => pure a
  | .error e => throw (.storage e.text)

/-- An index answer whose absence is `NotFound`. -/
def orNotFound {α : Type} (r : Except SparqError α) : Server α :=
  match r with
  | .ok a => pure a
  | .error .notFound => throw .notFound
  | .error (.backend e) => throw (.storage e)

/-- The error of a failed byte fetch. -/
def blobFetchError : BlobError → ServerError
  | .notFound => .storage "byte/index inconsistency".toList
  | .backend msg => .storage msg

/-- `fetch_body`: the bytes a record points at, through the body cache. -/
def fetchBody (m : ResourceMeta) : Server Bytes := do
  match ← perform (.bodyCacheGet m.blobKey m.etag) with
  | some body => pure body
  | none =>
    match ← perform (.blobGet m.blobKey) with
    | .ok body => do
      perform (.bodyCacheInsert m.blobKey m.etag body)
      pure body
    | .error e => throw (blobFetchError e)

def read (iri : Iri) : Server Resource := do
  let m ← orNotFound (← perform (.getMeta iri))
  let body ← fetchBody m
  pure ⟨body, m⟩

def meta? (iri : Iri) : Server (Option ResourceMeta) := do
  match ← perform (.getMeta iri) with
  | .ok m => pure (some m)
  | .error .notFound => pure none
  | .error (.backend e) => throw (.storage e)

def exists_ (iri : Iri) : Server Bool := do
  orStorage (← perform (.exists_ iri))

/-- `read_plan`: one lookup for the target and every ACL candidate. -/
def readPlan (target : Iri) (candidates : List Iri) : Server ReadPlan := do
  orNotFound (← perform (.readPlan target candidates))

/-- `read_at`: the bytes of a record already held. -/
def readAt (m : ResourceMeta) : Server Bytes := fetchBody m

/-- `list_children`: malformed rows are left out of the listing. -/
def listChildren (codec : RdfCodec) (container : Iri) : Server (List Iri) := do
  let raw ← orStorage (← perform (.listChildren container))
  pure (raw.filter codec.validIri)

/-! ## §3 Writing -/

/-- Bytes first: store a body under a fresh key and return the record pointing at it. -/
def stage (iri : Iri) (body : Bytes) (contentType : Text) : Server ResourceMeta := do
  let blobKey ← mintBlobKey iri
  orBlobStorage (← perform (.blobPut blobKey body))
  let now ← perform .now
  pure ⟨contentType, blobKey, etagFor body, some now⟩

def write (iri : Iri) (body : Bytes) (contentType : Text) : Server ResourceMeta := do
  let m ← stage iri body contentType
  orStorage (← perform (.putMeta iri m))
  pure m

def createInContainer (container child : Iri) (body : Bytes) (contentType : Text) :
    Server ResourceMeta := do
  let m ← stage child body contentType
  orNotFound (← perform (.createChild container child m))
  pure m

/-- The key of the bytes to reap once the record is gone. -/
def recordedKey (iri : Iri) : Server (Option Text) := do
  match ← perform (.getMeta iri) with
  | .ok m => pure (some m.blobKey)
  | .error .notFound => pure none
  | .error (.backend e) => throw (.storage e)

/-- Take a resource out of its container's listing. -/
def unlink (iri : Iri) (parent : Option Iri) : Server Unit :=
  match parent with
  | some p => do orStorage (← perform (.removeChild p iri))
  | none => pure ()

def reap (blobKey : Option Text) : Server Unit :=
  match blobKey with
  | some key => do orBlobStorage (← perform (.blobDelete key))
  | none => pure ()

/-- `delete`: parent edge, then record, then bytes. -/
def delete (iri : Iri) (parent : Option Iri) : Server Unit := do
  let blobKey ← recordedKey iri
  unlink iri parent
  orStorage (← perform (.deleteMeta iri))
  reap blobKey

/-- `delete_container_if_empty`: the bytes are left to the reconciler. -/
def deleteContainerIfEmpty (iri : Iri) (parent : Option Iri) : Server DeleteOutcome := do
  orStorage (← perform (.deleteMetaIfEmpty iri parent))

/-! ## §4 Notifications -/

/-- `NotificationHub::notify`: the resource's frame, and the membership frame for its
container when membership changed. -/
def notify (resource : Iri) (activity : ActivityType) (parent : Option Iri) : Server Unit := do
  perform (.fanOut resource ⟨activity, resource, none⟩)
  match parent, activity with
  | some container, .create => perform (.fanOut container ⟨.add, resource, some container⟩)
  | some container, .delete => perform (.fanOut container ⟨.remove, resource, some container⟩)
  | _, _ => pure ()

end SolidServer.Store
