import SolidServer.Authz.Acl
import SolidServer.Ldp.Content
import SolidServer.Store.Composite

/-!
# A storage just provisioned

The seeding of `seed.rs`: a fresh world, its root container and the ACLs written next
to it, all through the store's own operations.

The RDF libraries are a parameter everywhere; `tableCodec` is the smallest instance
that is one: a document is a sequence of bytes, each standing for one statement of a
table, so that what is written is read back (`tableCodec_turtle`, `tableCodec_jsonLd`).
-/

namespace SolidServer.Store

open SolidServer.Effects

/-! ## §1 A codec over a table -/

/-- The statement a byte stands for. -/
def statement (table : List Quad) (b : UInt8) : Except Text Quad :=
  match table[b.toNat]? with
  | some q => .ok q
  | none => .error "unknown statement".toList

/-- The statement a byte stands for in a format without named graphs. -/
def defaultStatement (table : List Quad) (b : UInt8) : Except Text Triple :=
  match statement table b with
  | .ok ⟨t, .defaultGraph⟩ => .ok t
  | .ok _ => .error "named graph".toList
  | .error e => .error e

/-- The byte that stands for a statement of the default graph. -/
def byteOf (table : List Quad) (t : Triple) : Except Text UInt8 :=
  match table.findIdx? (· = ⟨t, .defaultGraph⟩) with
  | some n => if n < 256 then .ok (UInt8.ofNat n) else .error "table too long".toList
  | none => .error "unknown statement".toList

/-- One byte per statement; `rules` are the statements of the N3 documents. -/
def tableCodec (table : List Quad) (rules : List N3Quad) : RdfCodec where
  validIri _ := true
  badBase _ := none
  parseTurtle _ body := body.mapM (defaultStatement table)
  parseJsonLd _ body := body.mapM (statement table)
  parseN3 _ body := body.mapM fun b =>
    match rules[b.toNat]? with
    | some q => .ok q
    | none => .error "unknown statement".toList
  writeTurtle triples := triples.mapM (byteOf table)
  writeJsonLd triples := triples.mapM (byteOf table)

theorem statement_byteOf {table : List Quad} {t : Triple} {b : UInt8}
    (h : byteOf table t = .ok b) : statement table b = .ok ⟨t, .defaultGraph⟩ := by
  unfold byteOf at h
  split at h
  · rename_i n hn
    obtain ⟨hlt, hq, -⟩ := List.findIdx?_eq_some_iff_getElem.mp hn
    split_ifs at h with hn'
    obtain rfl := Except.ok.inj h
    have hget : table[n] = ⟨t, .defaultGraph⟩ := by simpa using hq
    simp [statement, hlt, Nat.mod_eq_of_lt hn', hget]
  · cases h

/-- A list read element by element gives back the list it was written from. -/
theorem mapM_inverse {α β γ : Type} {f : α → Except Text β} {g : β → Except Text γ} {k : α → γ}
    (h : ∀ a b, f a = .ok b → g b = .ok (k a)) {as : List α} {bs : List β}
    (hw : as.mapM f = .ok bs) : bs.mapM g = .ok (as.map k) := by
  induction as generalizing bs with
  | nil =>
    obtain rfl : [] = bs := by simpa [pure, Except.pure] using hw
    rfl
  | cons a as ih =>
    cases ha : f a with
    | error e => simp [ha, bind, Except.bind] at hw
    | ok b =>
      cases has : as.mapM f with
      | error e => simp [ha, has, bind, Except.bind] at hw
      | ok bs' =>
        obtain rfl : b :: bs' = bs := by simpa [ha, has, bind, Except.bind, pure, Except.pure] using hw
        rw [List.mapM_cons, h a b ha, ih has]
        rfl

/-- **Round trip**: a Turtle document written from triples is read back as those triples. -/
theorem tableCodec_turtle {table : List Quad} {rules : List N3Quad} {ts : List Triple}
    {body : Bytes} (base : Iri) (h : (tableCodec table rules).writeTurtle ts = .ok body) :
    (tableCodec table rules).parseTurtle base body = .ok ts := by
  have := mapM_inverse (g := defaultStatement table) (k := id)
    (fun t b hb => by simp [defaultStatement, statement_byteOf hb]) h
  rwa [List.map_id] at this

theorem tableCodec_jsonLd {table : List Quad} {rules : List N3Quad} {ts : List Triple}
    {body : Bytes} (base : Iri) (h : (tableCodec table rules).writeJsonLd ts = .ok body) :
    (tableCodec table rules).parseJsonLd base body =
      .ok (ts.map fun t => ⟨t, .defaultGraph⟩) :=
  mapM_inverse (g := statement table) (fun _ _ hb => statement_byteOf hb) h

/-! ## §2 Seeding -/

/-- The `n`-th of 256 distinct suffixes; the source is exhausted after them. -/
def bootEntropy (n : Nat) : Except Text Suffix :=
  if n < 256 then .ok ⟨UInt8.ofNat n :: List.replicate 15 0, rfl⟩
  else .error "exhausted".toList

/-- An empty storage with working backends and both caches attached. -/
def World.boot : World where
  backend := ⟨⟨∅, ∅⟩, ∅⟩
  aclCache := .new 64
  bodyCache := .new 65536
  faults := .none
  clock n := n * 1000000000
  readings := 0
  entropy := bootEntropy
  draws := 0
  counter := 0
  sent := []

/-- `ensure_container`: a container's record, and its edge when it has a parent. -/
def ensureContainer (iri : Iri) (parent : Option Iri) : Server Unit := do
  if ← exists_ iri then pure ()
  else
    match parent with
    | none => do
      let _ ← write iri [] Ldp.RdfFormat.turtle.mediaType
    | some p => do
      let _ ← createInContainer p iri [] Ldp.RdfFormat.turtle.mediaType

/-- Seed a storage: the root container, then Turtle documents next to it. -/
def seedRoot (root : Iri) : List (Iri × Bytes) → Server Unit
  | [] => ensureContainer root none
  | (iri, body) :: rest => do
    seedRoot root rest
    let _ ← write iri body Ldp.RdfFormat.turtle.mediaType

/-- The statements an ACL of `pod` is made of: one rule for everybody, naming the pod and its
members, and the modes `Read`, `Write`, `Append` and `Control` from the fourth byte on. -/
def ruleTable (pod : Iri) : List Quad :=
  [(Authz.rdfType, Authz.aclIri "Authorization"), (Authz.aclIri "agentClass", Authz.foafAgent),
    (Authz.aclIri "accessTo", pod), (Authz.aclIri "default", pod),
    (Authz.aclIri "mode", Authz.AccessMode.read.aclIri),
    (Authz.aclIri "mode", Authz.AccessMode.write.aclIri),
    (Authz.aclIri "mode", Authz.AccessMode.append.aclIri),
    (Authz.aclIri "mode", Authz.AccessMode.control.aclIri)].map fun (p, o) =>
    ⟨⟨.namedNode (pod ++ "#public".toList), p, .namedNode o⟩, .defaultGraph⟩

/-- A fresh storage seeded with a root and documents. -/
def World.seeded (root : Iri) (docs : List (Iri × Bytes)) : World :=
  (exec (seedRoot root docs) World.boot).2

end SolidServer.Store
