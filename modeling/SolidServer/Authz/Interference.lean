import SolidServer.Authz.Grant
import SolidServer.Store.Steps

/-!
# Authorizations among other requests

An authorization is several steps, and other requests, of this and of other instances
on the shared store, take theirs in between.  `Interference` says what they may do: any
step of the store, as long as bytes go under the key minted for them and records carry
the tag of their bytes, and any eviction, clock reading or fault.

What an authorization can rely on is `Coherent`: bytes are those of the ledger, and the
ACL cache holds, under each tag, the parse of every record with that tag.  From it the
readers see what their own metadata probe found (`Saw`).
-/

namespace SolidServer.Authz

open SolidServer.Effects SolidServer.Store SolidServer.Ldp

variable {wac : WacAuthorizer}

/-! ## §1 What the others do -/

/-- The bytes each blob key is minted for: a key is random, none is used for two bodies. -/
abbrev Ledger := Text → Bytes

/-- The steps of other requests.  The ACL cache is filled by authorizations only. -/
def Foreign (ledger : Ledger) : StoreOp → Prop
  | .putMeta _ m => m.etag = etagFor (ledger m.blobKey)
  | .createChild _ _ m => m.etag = etagFor (ledger m.blobKey)
  | .blobPut key body => body = ledger key
  | .bodyCacheInsert key _ body => body = ledger key
  | .aclCacheInsert _ _ _ _ => False
  | _ => True

/-- **Interference**: a step of another request, an eviction from a cache, or a change of the
clock and of the backends' faults. -/
inductive Interference (ledger : Ledger) : World → World → Prop
  | step {w : World} {o : StoreOp} (h : Foreign ledger o) : Interference ledger w (World.sem w o).2
  | evictAcl {w : World} (c : AclCache)
      (h : ∀ acl e, c.held? acl = some e → w.aclCache.held? acl = some e) :
      Interference ledger w { w with aclCache := c }
  | evictBody {w : World} (c : BodyCache)
      (h : ∀ key etag b, c.body? key etag = some b → w.bodyCache.body? key etag = some b) :
      Interference ledger w { w with bodyCache := c }
  | outside {w : World} (clock : Nat → SystemTime) (faults : Faults) :
      Interference ledger w { w with clock := clock, faults := faults }

/-! ## §2 Coherent worlds -/

section
variable (wac) (ledger : Ledger) (written : Iri → ResourceMeta → Prop)

/-- The triples of the record `m` of an ACL: its bytes under its content type. -/
def recordTriples (acl : Iri) (m : ResourceMeta) : List Triple :=
  wac.parseAclBody ⟨ledger m.blobKey, m⟩ acl

/-- `ts` is the parse of every record ever written for the ACL under the tag. -/
def ParseOf (acl etag : Text) (ts : List Triple) : Prop :=
  ∀ m, written acl m → m.etag = etag → ts = recordTriples wac ledger acl m

/-- **Coherence**: bytes are those of the ledger and cached parses are those of the records. -/
structure Coherent (w : World) : Prop where
  records : ∀ iri m, w.backend.index.meta? iri = some m → written iri m
  bytes : ∀ key b, w.backend.blobs.lookup key = some b → b = ledger key
  bodies : ∀ key etag b, w.bodyCache.body? key etag = some b → b = ledger key
  parses : ∀ acl e, w.aclCache.held? acl = some e →
    ParseOf wac ledger written acl e.etag e.triples

/-- What a coherent world can answer. -/
def Admissible : (o : StoreOp) → o.Res → Prop
  | .getMeta iri, r => ∀ m, r = .ok m → written iri m
  | .blobGet key, r => ∀ b, r = .ok b → b = ledger key
  | .bodyCacheGet key _, r => ∀ b, r = some b → b = ledger key
  | .aclCacheGet acl etag _, r => ∀ ts, r = some ts → ParseOf wac ledger written acl etag ts
  | _, _ => True

/-- The steps that keep a world coherent, as far as they do not touch the index. -/
def Keeping : StoreOp → Prop
  | .blobPut key body => body = ledger key
  | .bodyCacheInsert key _ body => body = ledger key
  | .aclCacheInsert acl etag ts _ => ParseOf wac ledger written acl etag ts
  | _ => True

/-- The steps an authorization takes: reads, and justified cache inserts. -/
def Permitted (o : StoreOp) : Prop := Reads o ∧ Keeping wac ledger written o

end

variable {ledger : Ledger} {written : Iri → ResourceMeta → Prop}

theorem keeping_of_foreign {o : StoreOp} (h : Foreign ledger o) :
    Keeping wac ledger written o := by
  cases o <;> trivial

namespace Coherent

variable {w : World}

/-- A coherent world gives admissible answers. -/
theorem admissible (h : Coherent wac ledger written w) (o : StoreOp) :
    Admissible wac ledger written o (World.sem w o).1 := by
  cases o with
  | getMeta iri =>
    intro m hm
    exact h.records iri m (World.meta?_of_found hm)
  | blobGet key =>
    intro b hb
    exact h.bytes key b (World.blob_of_fetched hb)
  | bodyCacheGet key etag =>
    intro b hb
    refine h.bodies key etag b ?_
    rwa [← BodyCache.get_fst]
  | aclCacheGet acl etag now =>
    intro ts hts
    obtain ⟨e, he, rfl, rfl⟩ := AclCache.get_some hts
    exact h.parses acl e he
  | _ => trivial

variable {o : StoreOp}

theorem bytes_step (h : Coherent wac ledger written w) (ho : Keeping wac ledger written o)
    (key : Text) (b : Bytes) (hb : (World.sem w o).2.backend.blobs.lookup key = some b) :
    b = ledger key := by
  rcases blobs_step w o key with hsame | ⟨body, rfl, hput⟩ | ⟨-, hgone⟩
  · exact h.bytes key b (hsame ▸ hb)
  · obtain rfl := Option.some.inj (hput.symm.trans hb)
    exact ho
  · rw [hgone] at hb
    cases hb

theorem bodies_step (h : Coherent wac ledger written w) (ho : Keeping wac ledger written o)
    (key etag : Text) (b : Bytes) (hb : (World.sem w o).2.bodyCache.body? key etag = some b) :
    b = ledger key := by
  rcases Store.bodies_step hb with hold | rfl
  · exact h.bodies key etag b hold
  · exact ho

theorem parses_step (h : Coherent wac ledger written w) (ho : Keeping wac ledger written o)
    (acl : Iri) (e : AclEntry) (he : (World.sem w o).2.aclCache.held? acl = some e) :
    ParseOf wac ledger written acl e.etag e.triples := by
  cases o with
  | aclCacheGet acl' etag now =>
    obtain ⟨e', he', htag, hts⟩ := AclCache.held?_get he
    rw [← htag, ← hts]
    exact h.parses acl e' he'
  | aclCacheInsert acl' etag ts now =>
    rcases AclCache.held?_insert he with ⟨rfl, rfl, rfl⟩ | hold
    · exact ho
    · exact h.parses acl e hold
  | aclCacheInvalidate acl' => exact h.parses acl e (AclCache.held?_invalidate he)
  | putMeta | deleteMeta | deleteMetaIfEmpty | createChild | removeChild | blobPut | blobDelete =>
    simp only [World.sem] at he
    split at he <;> exact h.parses acl e he
  | _ => exact h.parses acl e he

/-- **One step** of any request keeps a world coherent. -/
theorem step (h : Coherent wac ledger written w) (ho : Keeping wac ledger written o)
    (hrec : ∀ iri m, (World.sem w o).2.backend.index.meta? iri = some m → written iri m) :
    Coherent wac ledger written (World.sem w o).2 :=
  ⟨hrec, h.bytes_step ho, h.bodies_step ho, h.parses_step ho⟩

/-- An authorization's own step does not touch the index. -/
theorem permitted (h : Coherent wac ledger written w) (ho : Permitted wac ledger written o) :
    Coherent wac ledger written (World.sem w o).2 := by
  refine h.step ho.2 fun iri m hm => h.records iri m ?_
  rwa [(quiet_step w o ho.1).backend] at hm

/-- Interference keeps a world coherent, as long as what it commits counts as written. -/
theorem interference {w' : World} (h : Coherent wac ledger written w)
    (hE : Interference ledger w w')
    (hrec : ∀ iri m, w'.backend.index.meta? iri = some m → written iri m) :
    Coherent wac ledger written w' := by
  cases hE with
  | step ho => exact h.step (keeping_of_foreign ho) hrec
  | evictAcl c hc => exact ⟨hrec, h.bytes, h.bodies, fun acl e he => h.parses acl e (hc acl e he)⟩
  | evictBody c hc =>
    exact ⟨hrec, h.bytes, fun key etag b hb => h.bodies key etag b (hc key etag b hb), h.parses⟩
  | outside clock faults => exact ⟨hrec, h.bytes, h.bodies, h.parses⟩

end Coherent

/-! ## §3 What one ACL read sees -/

/-- The metadata probe an event is, with the record it found. -/
def probeOf (e : Event storeSig) : Option (Iri × Option ResourceMeta) :=
  match e with
  | ⟨.getMeta iri, .ok m⟩ => some (iri, some m)
  | ⟨.getMeta iri, .error .notFound⟩ => some (iri, none)
  | _ => none

/-- The metadata probes of a log, in order. -/
def probesOf (log : List (Event storeSig)) : List (Iri × Option ResourceMeta) :=
  log.filterMap probeOf

@[simp] theorem probesOf_nil : probesOf [] = [] := rfl

@[simp] theorem probesOf_append (log log' : List (Event storeSig)) :
    probesOf (log ++ log') = probesOf log ++ probesOf log' := List.filterMap_append

theorem probesOf_cons (e : Event storeSig) (log : List (Event storeSig)) :
    probesOf (e :: log) = (probeOf e).toList ++ probesOf log := by
  cases h : probeOf e <;> simp [probesOf, h]

/-- A read of `acl` saw `x`: all its probes are of `acl`, and `x` is the parse of the record the
last of them found. -/
def Saw (wac : WacAuthorizer) (ledger : Ledger) (acl : Iri) (log : List (Event storeSig))
    (x : Option (List Triple)) : Prop :=
  (∀ p ∈ probesOf log, p.1 = acl) ∧
    ∃ found, (probesOf log).getLast? = some (acl, found) ∧
      x = found.map (recordTriples wac ledger acl)

/-- The logic of one authorization in a coherent world. -/
abbrev Attests (wac : WacAuthorizer) (ledger : Ledger) (written : Iri → ResourceMeta → Prop)
    {α : Type} (p : Server α) (Q : List (Event storeSig) → Except ServerError α → Prop) : Prop :=
  Program.Obeys (S := storeSig) (Admissible wac ledger written) (Permitted wac ledger written) p Q

section
variable {acl : Iri} {m : ResourceMeta}

/-- Performing a step hands any admissible answer on. -/
theorem attests_perform_bind {β : Type} {o : StoreOp} {f : o.Res → Server β}
    {Q : List (Event storeSig) → Except ServerError β → Prop}
    (ho : Permitted wac ledger written o)
    (h : ∀ r, Admissible wac ledger written o r →
      Attests wac ledger written (f r) fun log x => Q (⟨o, r⟩ :: log) x) :
    Attests wac ledger written (perform o >>= f) Q :=
  Program.Obeys.call_bind ho h

theorem attests_fetchBody (m : ResourceMeta) :
    Attests wac ledger written (fetchBody m) fun log r =>
      probesOf log = [] ∧ r ≠ .error .notFound ∧ ∀ b, r = .ok b → b = ledger m.blobKey := by
  refine attests_perform_bind ⟨trivial, trivial⟩ ?_
  intro cached hcached
  cases cached with
  | some b =>
    refine .pure ⟨rfl, by simp, ?_⟩
    rintro _ ⟨⟩
    exact hcached b rfl
  | none =>
    refine attests_perform_bind ⟨trivial, trivial⟩ ?_
    intro fetched hfetched
    cases fetched with
    | ok b =>
      have hb : b = ledger m.blobKey := hfetched b rfl
      refine attests_perform_bind ⟨trivial, hb⟩ ?_
      intro _ _
      refine .pure ⟨rfl, by simp, ?_⟩
      rintro _ ⟨⟩
      exact hb
    | error e =>
      refine .throw ⟨rfl, ?_, by simp⟩
      cases e <;> simp [blobFetchError]

/-- Reading a resource: the probed record with its bytes, or an absent record. -/
theorem attests_read (iri : Iri) :
    Attests wac ledger written (read iri) fun log r =>
      (∀ res, r = .ok res → ∃ m, res = ⟨ledger m.blobKey, m⟩ ∧ written iri m ∧
        probesOf log = [(iri, some m)]) ∧
      (r = .error .notFound → probesOf log = [(iri, none)]) := by
  refine attests_perform_bind ⟨trivial, trivial⟩ ?_
  intro probed hprobed
  cases probed with
  | error e =>
    cases e with
    | notFound => exact .throw ⟨by simp, fun _ => rfl⟩
    | backend msg => exact .throw ⟨by simp, by simp⟩
  | ok m =>
    have hm : written iri m := hprobed m rfl
    simp only [orNotFound, pure_bind]
    refine Program.Obeys.bind (attests_fetchBody m) ?_ ?_
    · rintro log b ⟨hlog, -, hb⟩
      refine .pure ⟨?_, by simp⟩
      rintro _ ⟨⟩
      refine ⟨m, by rw [hb b rfl], hm, ?_⟩
      simp [probesOf_cons, probeOf, hlog]
    · rintro log e ⟨hlog, hne, -⟩
      refine ⟨by simp, ?_⟩
      rintro ⟨⟩
      exact absurd rfl hne

theorem attests_meta? (iri : Iri) :
    Attests wac ledger written (meta? iri) fun log r =>
      ∀ found, r = .ok found → probesOf log = [(iri, found)] ∧ ∀ m, found = some m → written iri m := by
  refine attests_perform_bind ⟨trivial, trivial⟩ ?_
  intro probed hprobed
  cases probed with
  | ok m =>
    refine .pure ?_
    rintro _ ⟨⟩
    refine ⟨rfl, ?_⟩
    rintro _ ⟨⟩
    exact hprobed m rfl
  | error e =>
    cases e with
    | notFound =>
      refine .pure ?_
      rintro _ ⟨⟩
      exact ⟨rfl, by simp⟩
    | backend msg => exact .throw (by simp)

/-- The tag of a record pins down its parse among the records written for an ACL. -/
def Pinned (wac : WacAuthorizer) (ledger : Ledger) (written : Iri → ResourceMeta → Prop) : Prop :=
  ∀ acl m m', written acl m → written acl m' → m.etag = m'.etag →
    recordTriples wac ledger acl m = recordTriples wac ledger acl m'

/-- What reading a resource after a miss comes to: the record `m` at hand or a newly probed one,
with its bytes, or an absent record. -/
def Refetched (ledger : Ledger) (written : Iri → ResourceMeta → Prop) (acl : Iri)
    (m : ResourceMeta) (log : List (Event storeSig)) (r : Except ServerError Resource) : Prop :=
  (∀ res, r = .ok res → ∃ m', res = ⟨ledger m'.blobKey, m'⟩ ∧ written acl m' ∧
    (probesOf log = [] ∧ m' = m ∨ probesOf log = [(acl, some m')])) ∧
  (r = .error .notFound → probesOf log = [(acl, none)])

theorem attests_readThroughCache (hpin : Pinned wac ledger written) (hm : written acl m)
    {miss : Server Resource}
    (hmiss : Attests wac ledger written miss (Refetched ledger written acl m)) :
    Attests wac ledger written (wac.readThroughCache acl m miss) fun log r =>
      ∀ x, r = .ok x → (probesOf log = [] ∧ x = some (recordTriples wac ledger acl m)) ∨
        ∃ found, probesOf log = [(acl, found)] ∧ x = found.map (recordTriples wac ledger acl) := by
  refine attests_perform_bind ⟨trivial, trivial⟩ fun t _ => ?_
  refine attests_perform_bind ⟨trivial, trivial⟩ fun cached hcached => ?_
  cases cached with
  | some ts =>
    refine .pure ?_
    rintro _ ⟨⟩
    exact .inl ⟨rfl, by rw [hcached ts rfl m hm rfl]⟩
  | none =>
    refine Program.Obeys.attempt_bind hmiss fun log r hr => ?_
    obtain ⟨hok, hgone⟩ := hr
    cases r with
    | ok res =>
      obtain ⟨m', rfl, hm', hprobes⟩ := hok res rfl
      -- the insert is justified: every record with this tag has this parse
      have hparse : ParseOf wac ledger written acl m'.etag (recordTriples wac ledger acl m') :=
        fun m'' hm'' htag => hpin acl m' m'' hm' hm'' htag.symm
      refine attests_perform_bind ⟨trivial, hparse⟩ fun _ _ => .pure ?_
      rintro _ ⟨⟩
      rcases hprobes with ⟨hnone, rfl⟩ | hone
      · left
        simp [probesOf_cons, probeOf, hnone, recordTriples]
      · right
        exact ⟨some m', by simp [probesOf_cons, probeOf, hone], rfl⟩
    | error e =>
      cases e with
      | notFound =>
        refine .pure ?_
        rintro _ ⟨⟩
        exact .inr ⟨none, by simp [probesOf_cons, probeOf, hgone rfl], rfl⟩
      | _ => exact .throw (by simp)

/-- Probe, then read a record through the cache. -/
theorem attests_probed (hpin : Pinned wac ledger written)
    (miss : ResourceMeta → Server Resource)
    (hmiss : ∀ m, written acl m →
      Attests wac ledger written (miss m) (Refetched ledger written acl m)) :
    Attests wac ledger written (do
      match ← meta? acl with
      | none => pure none
      | some m => wac.readThroughCache acl m (miss m)) fun log r =>
      ∀ x, r = .ok x → Saw wac ledger acl log x := by
  refine Program.Obeys.bind (attests_meta? acl) ?_ (by simp)
  intro log found hfound
  obtain ⟨hlog, hwritten⟩ := hfound found rfl
  cases found with
  | none =>
    refine .pure ?_
    rintro _ ⟨⟩
    exact ⟨by simp [hlog], none, by simp [hlog], rfl⟩
  | some m =>
    refine (attests_readThroughCache hpin (hwritten m rfl) (hmiss m (hwritten m rfl))).mono ?_
    intro log' r hr x hx
    rcases hr x hx with ⟨hnone, rfl⟩ | ⟨found, hone, rfl⟩
    · exact ⟨by simp [hlog, hnone], some m, by simp [hlog, hnone], rfl⟩
    · exact ⟨by simp [hlog, hone], found, by simp [hone], rfl⟩

theorem attests_readAndParseAcl (acl : Iri) :
    Attests wac ledger written (wac.readAndParseAcl acl) fun log r =>
      ∀ x, r = .ok x → Saw wac ledger acl log x := by
  refine Program.Obeys.attempt_bind (attests_read acl) ?_
  rintro log r ⟨hok, hgone⟩
  cases r with
  | ok res =>
    obtain ⟨m, rfl, -, hlog⟩ := hok res rfl
    refine .pure ?_
    rintro _ ⟨⟩
    exact ⟨by simp [hlog], some m, by simp [hlog], rfl⟩
  | error e =>
    cases e with
    | notFound =>
      refine .pure ?_
      rintro _ ⟨⟩
      exact ⟨by simp [hgone rfl], none, by simp [hgone rfl], rfl⟩
    | _ => exact .throw (by simp)

/-- **The sequential reader** sees what its last probe found. -/
theorem attests_readAcl (hpin : wac.cached = true → Pinned wac ledger written) (acl : Iri) :
    Attests wac ledger written (wac.readAcl acl) fun log r =>
      ∀ x, r = .ok x → Saw wac ledger acl log x := by
  unfold WacAuthorizer.readAcl
  split_ifs with hc
  · exact attests_readAndParseAcl acl
  · refine attests_probed (hpin (by simpa using hc)) (fun _ => Store.read acl) fun m _ => ?_
    refine (attests_read acl).mono ?_
    rintro log r ⟨hok, hgone⟩
    refine ⟨fun res hres => ?_, hgone⟩
    obtain ⟨m', hres', hm', hlog⟩ := hok res hres
    exact ⟨m', hres', hm', .inr hlog⟩

/-- **The confirming reader** sees what its probe found. -/
theorem attests_readAclConfirmed (hpin : wac.cached = true → Pinned wac ledger written)
    (acl : Iri) :
    Attests wac ledger written (wac.readAclConfirmed acl) fun log r =>
      ∀ x, r = .ok x → Saw wac ledger acl log x := by
  unfold WacAuthorizer.readAclConfirmed
  split_ifs with hc
  · exact attests_readAndParseAcl acl
  · refine attests_probed (hpin (by simpa using hc)) _ fun m hm => ?_
    refine Program.Obeys.bind (attests_fetchBody m) ?_ ?_
    · rintro log b ⟨hlog, -, hb⟩
      refine .pure ⟨?_, by simp⟩
      rintro _ ⟨⟩
      exact ⟨m, by rw [hb b rfl], hm, .inl ⟨by simp [hlog], rfl⟩⟩
    · rintro log e ⟨-, hne, -⟩
      refine ⟨by simp, ?_⟩
      rintro ⟨⟩
      exact absurd rfl hne

end

end SolidServer.Authz
