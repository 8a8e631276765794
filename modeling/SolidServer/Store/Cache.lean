import Mathlib.Data.List.AList
import Mathlib.Data.List.Sort
import SolidServer.Rdf

/-!
# The two caches

The parsed-ACL cache, keyed by ACL identifier and entity tag with a validation
lifetime (`acl_cache.rs`), and the byte-budgeted body cache keyed by blob key and
entity tag (`store/body_cache.rs`).  Both are least-recently-used maps over a tick
counter; a disabled cache holds no map at all.

All that the rest of the development needs of them is in §3: a hit returns what was
stored under that key, and an insert adds nothing but the inserted entry.
-/

namespace SolidServer

/-- A finite map, as an association list without duplicate keys. -/
abbrev Dict (κ ν : Type) := AList fun _ : κ => ν

/-- The largest value of `i64`, at which its additions saturate. -/
def i64Max : Int := 2 ^ 63 - 1

/-- The largest value of `usize`, at which its additions saturate. -/
def usizeMax : Nat := 2 ^ 64 - 1

def usizeSatAdd (a b : Nat) : Nat := min (a + b) usizeMax

namespace Store

/-! ## §1 The parsed-ACL cache -/

structure AclEntry where
  etag : Text
  triples : List Triple
  insertedAt : Int
  lastAccess : Nat
  deriving DecidableEq

/-- `AclCache`; `map` is `none` for the disabled cache. -/
structure AclCache where
  map : Option (Dict Iri AclEntry)
  capacity : Nat
  clock : Nat
  maxEntryTtlSecs : Int

namespace AclCache

def disabled : AclCache := ⟨none, 0, 0, 1⟩

def withMaxEntryTtl (capacity : Nat) (maxEntryTtlSecs : Int) : AclCache :=
  if capacity = 0 then disabled
  else ⟨some ∅, max capacity 1, 0, max maxEntryTtlSecs 1⟩

/-- `AclCache::new`, with the default lifetime of 300 seconds. -/
def new (capacity : Nat) : AclCache := withMaxEntryTtl capacity 300

/-- A lookup: a hit needs the current entity tag and an entry within its lifetime; a stale
entry is dropped. -/
def get (c : AclCache) (aclIri currentEtag : Text) (now : Int) :
    Option (List Triple) × AclCache :=
  match c.map with
  | none => (none, c)
  | some m =>
    match m.lookup aclIri with
    | none => (none, c)
    | some entry =>
      if entry.etag ≠ currentEtag ∨ ¬ now < min (entry.insertedAt + c.maxEntryTtlSecs) i64Max then
        (none, { c with map := some (m.erase aclIri) })
      else
        (some entry.triples,
          { c with
            map := some (m.insert aclIri { entry with lastAccess := c.clock + 1 })
            clock := c.clock + 1 })

/-- The key of the least recently used entry. -/
def lruKey (m : Dict Iri AclEntry) : Option Iri :=
  (m.entries.foldl (fun best s =>
    match best with
    | some (k, t) => if s.2.lastAccess < t then some (s.1, s.2.lastAccess) else some (k, t)
    | none => some (s.1, s.2.lastAccess)) (none : Option (Iri × Nat))).map Prod.fst

/-- `evict_one`. -/
def evictOne (m : Dict Iri AclEntry) : Dict Iri AclEntry :=
  match lruKey m with
  | some k => m.erase k
  | none => m

def insert (c : AclCache) (aclIri etag : Text) (triples : List Triple) (now : Int) : AclCache :=
  match c.map with
  | none => c
  | some m =>
    let entry : AclEntry := ⟨etag, triples, now, c.clock + 1⟩
    let room := if aclIri ∉ m ∧ c.capacity ≤ m.entries.length then evictOne m else m
    { c with map := some (room.insert aclIri entry), clock := c.clock + 1 }

def invalidate (c : AclCache) (aclIri : Text) : AclCache :=
  { c with map := c.map.map fun m => m.erase aclIri }

/-- The entry held for an ACL, if any. -/
def held? (c : AclCache) (aclIri : Iri) : Option AclEntry := c.map.bind fun m => m.lookup aclIri

end AclCache

/-! ## §2 The body cache -/

structure BodyEntry where
  body : Bytes
  charge : Nat
  lastAccess : Nat
  deriving DecidableEq

structure BodyCacheInner where
  map : Dict (Text × Text) BodyEntry
  totalCharged : Nat

/-- `BodyCache`; `inner` is `none` for the disabled cache. -/
structure BodyCache where
  inner : Option BodyCacheInner
  maxBytes : Nat
  maxEntryBytes : Nat
  clock : Nat

namespace BodyCache

def entryOverheadBytes : Nat := 64

def disabled : BodyCache := ⟨none, 0, 0, 0⟩

def withMaxEntryBytes (maxBytes maxEntryBytes : Nat) : BodyCache :=
  if maxBytes = 0 then disabled
  else ⟨some ⟨∅, 0⟩, maxBytes, min (max maxEntryBytes 1) maxBytes, 0⟩

def new (maxBytes : Nat) : BodyCache := withMaxEntryBytes maxBytes (max (maxBytes / 8) 1)

def get (c : BodyCache) (blobKey etag : Text) : Option Bytes × BodyCache :=
  match c.inner with
  | none => (none, c)
  | some inner =>
    match inner.map.lookup (blobKey, etag) with
    | none => (none, { c with clock := c.clock + 1 })
    | some e =>
      (some e.body,
        { c with
          inner := some { inner with
            map := inner.map.insert (blobKey, etag) { e with lastAccess := c.clock + 1 } }
          clock := c.clock + 1 })

/-- The loop of `evict_until_freed` over the keys, oldest first. -/
def evictLoop (needed : Nat) : List (Text × Text) → Nat → BodyCacheInner → BodyCacheInner
  | [], _, inner => inner
  | k :: ks, freed, inner =>
    if needed ≤ freed then inner
    else
      match inner.map.lookup k with
      | some e =>
        evictLoop needed ks (usizeSatAdd freed e.charge)
          ⟨inner.map.erase k, inner.totalCharged - e.charge⟩
      | none => evictLoop needed ks freed inner

def evictUntilFreed (inner : BodyCacheInner) (needed : Nat) : BodyCacheInner :=
  let byRecency := (inner.map.entries.map fun s => (s.2.lastAccess, s.1)).insertionSort
    fun a b => a.1 ≤ b.1
  evictLoop needed (byRecency.map Prod.snd) 0 inner

/-- What an entry costs against the budget. -/
def chargeFor (blobKey etag : Text) (body : Bytes) : Nat :=
  usizeSatAdd (usizeSatAdd (usizeSatAdd body.length blobKey.len) etag.len) entryOverheadBytes

/-- The map with room for a new entry: an entry of the same key gives its charge back, then
the oldest entries go until the rest fits. -/
def makeRoom (inner : BodyCacheInner) (key : Text × Text) (charge maxBytes : Nat) :
    BodyCacheInner :=
  let released : BodyCacheInner :=
    match inner.map.lookup key with
    | some old => ⟨inner.map.erase key, inner.totalCharged - old.charge⟩
    | none => inner
  if maxBytes < usizeSatAdd released.totalCharged charge then
    evictUntilFreed released (usizeSatAdd released.totalCharged charge - maxBytes)
  else released

def insert (c : BodyCache) (blobKey etag : Text) (body : Bytes) : BodyCache :=
  match c.inner with
  | none => c
  | some inner =>
    let charge := chargeFor blobKey etag body
    if c.maxEntryBytes < charge then c
    else
      let room := makeRoom inner (blobKey, etag) charge c.maxBytes
      { c with
        inner := some ⟨room.map.insert (blobKey, etag) ⟨body, charge, c.clock + 1⟩,
          usizeSatAdd room.totalCharged charge⟩
        clock := c.clock + 1 }

/-- The body held for a key, if any. -/
def body? (c : BodyCache) (blobKey etag : Text) : Option Bytes :=
  c.inner.bind fun inner => (inner.map.lookup (blobKey, etag)).map BodyEntry.body

end BodyCache

/-! ## §3 What the caches can hold -/

/-- Erasing only removes: what is still found was there. -/
theorem lookup_of_lookup_erase {κ ν : Type} [DecidableEq κ] {m : Dict κ ν} {a b : κ} {v : ν}
    (h : (m.erase a).lookup b = some v) : m.lookup b = some v := by
  by_cases hab : b = a
  · subst hab; simp at h
  · rwa [AList.lookup_erase_ne hab] at h

/-- After an insert a key is bound to the new value or to what it was bound to. -/
theorem lookup_insert_cases {κ ν : Type} [DecidableEq κ] {m : Dict κ ν} {a b : κ} {v x : ν}
    (h : (m.insert a v).lookup b = some x) : (b = a ∧ x = v) ∨ m.lookup b = some x := by
  by_cases hab : b = a
  · subst hab; left; simpa [eq_comm] using h
  · right; rwa [AList.lookup_insert_ne hab] at h

namespace AclCache

variable {c : AclCache} {iri etag : Text} {now : Int}

/-- A hit returns the triples stored under exactly this ACL and entity tag. -/
theorem get_some {ts : List Triple} (h : (c.get iri etag now).1 = some ts) :
    ∃ e, c.held? iri = some e ∧ e.etag = etag ∧ e.triples = ts := by
  unfold get at h
  cases hm : c.map with
  | none => simp [hm] at h
  | some m =>
    cases hl : m.lookup iri with
    | none => simp [hm, hl] at h
    | some e =>
      simp only [hm, hl] at h
      split_ifs at h with hstale
      obtain ⟨htag, -⟩ := not_or.mp hstale
      exact ⟨e, by simp [held?, hm, hl], not_not.mp htag, by simpa using h⟩

variable {iri' : Iri} {e : AclEntry}

/-- A lookup changes no stored tag or parse. -/
theorem held?_get (h : (c.get iri etag now).2.held? iri' = some e) :
    ∃ e', c.held? iri' = some e' ∧ e'.etag = e.etag ∧ e'.triples = e.triples := by
  unfold get at h
  cases hm : c.map with
  | none => exact ⟨e, by simpa [hm] using h, rfl, rfl⟩
  | some m =>
    cases hl : m.lookup iri with
    | none => exact ⟨e, by simpa [hm, hl] using h, rfl, rfl⟩
    | some e₀ =>
      simp only [hm, hl] at h
      split_ifs at h with hstale
      · have hfound : m.lookup iri' = some e := lookup_of_lookup_erase (by simpa [held?] using h)
        exact ⟨e, by simp [held?, hm, hfound], rfl, rfl⟩
      · have hfound : (m.insert iri { e₀ with lastAccess := c.clock + 1 }).lookup iri' = some e := by
          simpa [held?] using h
        rcases lookup_insert_cases hfound with ⟨rfl, rfl⟩ | hold
        · exact ⟨e₀, by simp [held?, hm, hl], rfl, rfl⟩
        · exact ⟨e, by simp [held?, hm, hold], rfl, rfl⟩

theorem lookup_of_lookup_evictOne {m : Dict Iri AclEntry} (h : (evictOne m).lookup iri = some e) :
    m.lookup iri = some e := by
  unfold evictOne at h
  split at h
  · exact lookup_of_lookup_erase h
  · exact h

/-- An insert adds the inserted parse and nothing else. -/
theorem held?_insert {ts : List Triple} (h : (c.insert iri etag ts now).held? iri' = some e) :
    (iri' = iri ∧ e.etag = etag ∧ e.triples = ts) ∨ c.held? iri' = some e := by
  unfold insert at h
  cases hm : c.map with
  | none => right; simpa [hm] using h
  | some m =>
    simp only [hm] at h
    rcases lookup_insert_cases h with ⟨rfl, rfl⟩ | hold
    · exact .inl ⟨rfl, rfl, rfl⟩
    · right
      have hfound : m.lookup iri' = some e := by
        split_ifs at hold
        · exact lookup_of_lookup_evictOne hold
        · exact hold
      simp [held?, hm, hfound]

@[simp] theorem held?_invalidate_self : (c.invalidate iri).held? iri = none := by
  cases hm : c.map with
  | none => simp [invalidate, held?]
  | some m => simp [invalidate, held?]

theorem held?_invalidate (h : (c.invalidate iri).held? iri' = some e) : c.held? iri' = some e := by
  cases hm : c.map with
  | none => simp [invalidate, held?, hm] at h
  | some m =>
    have hfound : (m.erase iri).lookup iri' = some e := by simpa [invalidate, held?, hm] using h
    simpa [held?, hm] using lookup_of_lookup_erase hfound

end AclCache

namespace BodyCache

variable {c : BodyCache} {key etag : Text}

theorem get_fst (c : BodyCache) (key etag : Text) : (c.get key etag).1 = c.body? key etag := by
  unfold get body?
  cases c.inner with
  | none => rfl
  | some inner => cases hl : inner.map.lookup (key, etag) <;> simp [hl]

theorem body?_get {key' etag' : Text} {b : Bytes}
    (h : (c.get key etag).2.body? key' etag' = some b) : c.body? key' etag' = some b := by
  unfold get at h
  cases hi : c.inner with
  | none => simpa [hi] using h
  | some inner =>
    cases hl : inner.map.lookup (key, etag) with
    | none => simpa [hi, hl, body?] using h
    | some e =>
      simp only [hi, hl, body?, Option.bind_some, Option.map_eq_some_iff] at h ⊢
      obtain ⟨e', he', rfl⟩ := h
      rcases lookup_insert_cases he' with ⟨hk, rfl⟩ | hold
      · exact ⟨e, by rw [hk, hl], rfl⟩
      · exact ⟨e', hold, rfl⟩

theorem lookup_of_lookup_evictLoop {needed : Nat} {k : Text × Text} {e : BodyEntry} :
    ∀ {keys : List (Text × Text)} {freed : Nat} {inner : BodyCacheInner},
      (evictLoop needed keys freed inner).map.lookup k = some e → inner.map.lookup k = some e := by
  intro keys
  induction keys with
  | nil => intro freed inner h; exact h
  | cons k' ks ih =>
    intro freed inner h
    unfold evictLoop at h
    split_ifs at h
    · exact h
    · split at h
      · exact lookup_of_lookup_erase (ih h)
      · exact ih h

theorem lookup_of_lookup_makeRoom {inner : BodyCacheInner} {k k' : Text × Text} {n m : Nat}
    {e : BodyEntry} (h : (makeRoom inner k n m).map.lookup k' = some e) :
    inner.map.lookup k' = some e := by
  have released : ∀ {x : BodyCacheInner},
      (match inner.map.lookup k with
        | some old => (⟨inner.map.erase k, inner.totalCharged - old.charge⟩ : BodyCacheInner)
        | none => inner) = x → x.map.lookup k' = some e → inner.map.lookup k' = some e := by
    rintro x rfl hx
    split at hx
    · exact lookup_of_lookup_erase hx
    · exact hx
  unfold makeRoom at h
  simp only at h
  split_ifs at h
  · exact released rfl (lookup_of_lookup_evictLoop h)
  · exact released rfl h

theorem body?_insert {key' etag' : Text} {b b' : Bytes}
    (h : (c.insert key etag b).body? key' etag' = some b') :
    (key' = key ∧ etag' = etag ∧ b' = b) ∨ c.body? key' etag' = some b' := by
  unfold insert at h
  cases hi : c.inner with
  | none => right; simpa [hi] using h
  | some inner =>
    simp only [hi] at h
    split_ifs at h
    · exact .inr h
    · simp only [body?, Option.bind_some, Option.map_eq_some_iff] at h
      obtain ⟨e, he, rfl⟩ := h
      rcases lookup_insert_cases he with ⟨hk, rfl⟩ | hold
      · obtain ⟨rfl, rfl⟩ := Prod.mk.inj hk
        exact .inl ⟨rfl, rfl, rfl⟩
      · right
        simp [body?, hi, lookup_of_lookup_makeRoom hold]

end BodyCache

end Store

end SolidServer
