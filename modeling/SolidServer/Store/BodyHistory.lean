import Mathlib.Algebra.Order.BigOperators.Group.List
import Mathlib.Algebra.Order.Ring.Nat
import SolidServer.Data.FiniteMap
import SolidServer.Store.Cache

/-!
# Histories of the body cache

A history is a sequence of `get` and `insert` calls.  The charged total is the sum of what
the stored entries are charged, in spite of saturating additions, as long as no size
overflows (`InRange`); an insert evicts from the oldest entry on and stops as soon as the new
one fits; and a lookup answers what the last insert under its key put there.
-/

namespace SolidServer.Store.BodyCache

open FiniteMap

/-! ## §1 Sizes -/

/-- What an entry is charged, without saturation. -/
def size (blobKey etag : Text) (body : Bytes) : Nat :=
  body.length + blobKey.len + etag.len + entryOverheadBytes

theorem usizeSatAdd_eq {a b : Nat} (h : a + b ≤ usizeMax) : usizeSatAdd a b = a + b :=
  Nat.min_eq_left h

theorem chargeFor_eq {blobKey etag : Text} {body : Bytes}
    (h : size blobKey etag body ≤ usizeMax) : chargeFor blobKey etag body = size blobKey etag body := by
  unfold size at h
  unfold chargeFor size
  rw [usizeSatAdd_eq (show body.length + blobKey.len ≤ usizeMax by omega),
    usizeSatAdd_eq (show body.length + blobKey.len + etag.len ≤ usizeMax by omega), usizeSatAdd_eq h]

/-- The charge of an entry. -/
def charge (x : (_ : Text × Text) × BodyEntry) : Nat := x.2.charge

/-- The tick of an entry's last use. -/
def tick (x : (_ : Text × Text) × BodyEntry) : Nat := x.2.lastAccess

/-! ## §2 Eviction -/

section
variable {inner : BodyCacheInner}

/-- **The loop of the eviction** takes a first part of the keys: as many as are needed, and no
more. -/
theorem evictLoop_spec (needed : Nat) (ks : List (Text × Text)) (freed : Nat)
    (inner : BodyCacheInner) (hnodup : ks.Nodup) (hin : ∀ k ∈ ks, k ∈ inner.map)
    (htotal : inner.totalCharged = total charge inner.map)
    (hrange : freed + inner.totalCharged ≤ usizeMax) :
    ∃ gone kept, ks = gone ++ kept ∧
      (∀ x, (evictLoop needed ks freed inner).map.lookup x =
        if x ∈ gone then none else inner.map.lookup x) ∧
      (evictLoop needed ks freed inner).totalCharged =
        total charge (evictLoop needed ks freed inner).map ∧
      (evictLoop needed ks freed inner).totalCharged +
        (gone.map (weightAt charge inner.map)).sum = inner.totalCharged ∧
      (kept = [] ∨ needed ≤ freed + (gone.map (weightAt charge inner.map)).sum) ∧
      ∀ before x after, gone = before ++ x :: after →
        freed + (before.map (weightAt charge inner.map)).sum < needed := by
  induction ks generalizing freed inner with
  | nil =>
    refine ⟨[], [], rfl, fun x => by simp [evictLoop], htotal, by simp [evictLoop], .inl rfl, ?_⟩
    intro before x after h
    simp at h
  | cons k ks ih =>
    by_cases hfreed : needed ≤ freed
    · -- enough is free
      have hstop : evictLoop needed (k :: ks) freed inner = inner := by
        rw [evictLoop, if_pos hfreed]
      rw [hstop]
      refine ⟨[], k :: ks, rfl, fun x => by simp, htotal, by simp, .inr (by simpa using hfreed), ?_⟩
      intro before x after h
      simp at h
    · -- the next entry goes
      obtain ⟨hk, hrest⟩ := List.forall_mem_cons.mp hin
      obtain ⟨hknew, hnodup'⟩ := List.nodup_cons.mp hnodup
      obtain ⟨e, he⟩ := Option.isSome_iff_exists.mp (AList.lookup_isSome.mpr hk)
      have herase : total charge (inner.map.erase k) + e.charge = inner.totalCharged := by
        rw [htotal]
        exact total_erase (f := charge) he
      have hfreed' : usizeSatAdd freed e.charge = freed + e.charge :=
        usizeSatAdd_eq (by omega)
      have hgo : evictLoop needed (k :: ks) freed inner = evictLoop needed ks (freed + e.charge)
          ⟨inner.map.erase k, inner.totalCharged - e.charge⟩ := by
        rw [evictLoop, if_neg hfreed, he, ← hfreed']
      have hne : ∀ x ∈ ks, x ≠ k := by
        rintro x hx rfl
        exact hknew hx
      obtain ⟨gone, kept, rfl, hlookup, hexact, hsum, hend, hshort⟩ :=
        ih (freed + e.charge) ⟨inner.map.erase k, inner.totalCharged - e.charge⟩ hnodup'
          (fun x hx => (AList.mem_erase).mpr ⟨hne x hx, hrest x hx⟩)
          (show inner.totalCharged - e.charge = total charge (inner.map.erase k) by omega)
          (show freed + e.charge + (inner.totalCharged - e.charge) ≤ usizeMax by omega)
      -- the weights of the other keys are what they were
      have hweight : ∀ l : List (Text × Text), (∀ x ∈ l, x ≠ k) →
          (l.map (weightAt charge (inner.map.erase k))).sum =
            (l.map (weightAt charge inner.map)).sum := by
        intro l hl
        congr 1
        apply List.map_congr_left
        intro x hx
        exact weightAt_congr (AList.lookup_erase_ne (hl x hx))
      have hgone : ∀ x ∈ gone, x ≠ k := fun x hx => hne x (List.mem_append_left kept hx)
      have hfirst : weightAt charge inner.map k = e.charge := weightAt_of_lookup (f := charge) he
      simp only at hlookup hsum hend hshort
      rw [hweight gone hgone] at hsum hend
      rw [hgo]
      refine ⟨k :: gone, kept, rfl, fun x => ?_, hexact, ?_, ?_, ?_⟩
      · rw [hlookup x]
        by_cases hx : x = k
        · subst hx
          simp
        · simp [hx]
      · rw [List.map_cons, List.sum_cons]
        omega
      · rw [List.map_cons, List.sum_cons]
        rcases hend with hnil | hle
        · exact .inl hnil
        · exact .inr (by omega)
      · intro before x after hsplit
        cases before with
        | nil => simpa using Nat.not_le.mp hfreed
        | cons y before =>
          obtain ⟨rfl, hsplit'⟩ := List.cons_eq_cons.mp hsplit
          have hlt := hshort before x after hsplit'
          have hbefore : ∀ z ∈ before, z ≠ k := by
            intro z hz
            apply hgone
            rw [hsplit']
            exact List.mem_append_left _ hz
          rw [hweight before hbefore] at hlt
          rw [List.map_cons, List.sum_cons]
          omega

end

/-- The keys from the oldest entry on. -/
def oldestFirst (m : Dict (Text × Text) BodyEntry) : List (Text × Text) :=
  ((m.entries.map fun s => (s.2.lastAccess, s.1)).insertionSort fun a b => a.1 ≤ b.1).map Prod.snd

theorem perm_oldestFirst (m : Dict (Text × Text) BodyEntry) : (oldestFirst m).Perm m.keys := by
  have hperm := (List.perm_insertionSort (fun a b : Nat × (Text × Text) => a.1 ≤ b.1)
    (m.entries.map fun s => (s.2.lastAccess, s.1))).map Prod.snd
  rwa [List.map_map] at hperm

/-- The keys are in the order of their last use. -/
theorem pairwise_oldestFirst (m : Dict (Text × Text) BodyEntry) :
    (oldestFirst m).Pairwise fun a b => weightAt tick m a ≤ weightAt tick m b := by
  have hsorted := List.pairwise_insertionSort (fun a b : Nat × (Text × Text) => a.1 ≤ b.1)
    (m.entries.map fun s => (s.2.lastAccess, s.1))
  -- a pair in the list shows the tick of its key
  have htick : ∀ p ∈ (m.entries.map fun s => (s.2.lastAccess, s.1)).insertionSort
      (fun a b : Nat × (Text × Text) => a.1 ≤ b.1), weightAt tick m p.2 = p.1 := by
    intro p hp
    obtain ⟨x, hx, rfl⟩ := List.mem_map.mp ((List.perm_insertionSort _ _).mem_iff.mp hp)
    exact weightAt_of_lookup (f := tick) (AList.mem_lookup_iff.mpr hx)
  unfold oldestFirst
  rw [List.pairwise_map]
  apply hsorted.imp_of_mem
  intro a b ha hb hle
  rw [htick a ha, htick b hb]
  exact hle

/-! ## §3 The invariant -/

/-- **The invariant of the store**: the total is the sum of the charges, within the budget; every
entry is charged its size; and no two entries were last used at the same tick. -/
structure Exact (inner : BodyCacheInner) (maxBytes clock : Nat) : Prop where
  sum : inner.totalCharged = total charge inner.map
  budget : inner.totalCharged ≤ maxBytes
  sizes : ∀ x e, inner.map.lookup x = some e → e.charge = size x.1 x.2 e.body
  ticks : ∀ x e, inner.map.lookup x = some e → e.lastAccess ≤ clock
  distinct : ∀ x e y f, inner.map.lookup x = some e → inner.map.lookup y = some f →
    e.lastAccess = f.lastAccess → x = y

section
variable {inner : BodyCacheInner} {maxBytes clock : Nat} {key : Text × Text}

theorem exact_empty (maxBytes clock : Nat) : Exact ⟨∅, 0⟩ maxBytes clock where
  sum := rfl
  budget := Nat.zero_le _
  sizes x e h := by simp at h
  ticks x e h := by simp at h
  distinct x e y f h := by simp at h

/-- The store without the entry of a key, its charge given back. -/
def released (inner : BodyCacheInner) (key : Text × Text) : BodyCacheInner :=
  ⟨inner.map.erase key, total charge (inner.map.erase key)⟩

theorem released_of_none (h : Exact inner maxBytes clock) (hl : inner.map.lookup key = none) :
    released inner key = inner := by
  unfold released
  rw [erase_of_notMem (AList.lookup_eq_none.mp hl), ← h.sum]

theorem released_of_some (h : Exact inner maxBytes clock) {old : BodyEntry}
    (hl : inner.map.lookup key = some old) :
    released inner key = ⟨inner.map.erase key, inner.totalCharged - old.charge⟩ := by
  have herase : total charge (inner.map.erase key) + old.charge = inner.totalCharged := by
    rw [h.sum]
    exact total_erase (f := charge) hl
  unfold released
  congr 1
  omega

/-- What an insert finds room beside. -/
structure Room (inner : BodyCacheInner) (key : Text × Text) (new maxBytes : Nat)
    (room : BodyCacheInner) (gone kept : List (Text × Text)) : Prop where
  keys : oldestFirst (inner.map.erase key) = gone ++ kept
  lookup : ∀ x, room.map.lookup x = if x ∈ gone then none else (inner.map.erase key).lookup x
  sum : room.totalCharged = total charge room.map
  shrinks : room.totalCharged ≤ total charge (inner.map.erase key)
  fits : room.totalCharged + new ≤ maxBytes
  needed : ∀ before x after, gone = before ++ x :: after →
    maxBytes + (before.map (weightAt charge (inner.map.erase key))).sum <
      total charge (inner.map.erase key) + new

/-- **Making room**: the oldest entries go, as many as are needed. -/
theorem makeRoom_spec (h : Exact inner maxBytes clock) (key : Text × Text) {new : Nat} (hnew : new ≤ maxBytes)
    (hrange : inner.totalCharged + new ≤ usizeMax) :
    ∃ gone kept, Room inner key new maxBytes (makeRoom inner key new maxBytes) gone kept := by
  have hle : total charge (inner.map.erase key) ≤ inner.totalCharged := by
    cases hl : inner.map.lookup key with
    | none => rw [erase_of_notMem (AList.lookup_eq_none.mp hl), ← h.sum]
    | some old =>
      have := total_erase (f := charge) hl
      rw [h.sum]
      omega
  have hadd : usizeSatAdd (released inner key).totalCharged new =
      total charge (inner.map.erase key) + new :=
    usizeSatAdd_eq (show total charge (inner.map.erase key) + new ≤ usizeMax by omega)
  have hroom : makeRoom inner key new maxBytes =
      if maxBytes < total charge (inner.map.erase key) + new then
        evictLoop (total charge (inner.map.erase key) + new - maxBytes)
          (oldestFirst (inner.map.erase key)) 0 (released inner key)
      else released inner key := by
    have hgiven : makeRoom inner key new maxBytes =
        if maxBytes < usizeSatAdd (released inner key).totalCharged new then
          evictUntilFreed (released inner key)
            (usizeSatAdd (released inner key).totalCharged new - maxBytes)
        else released inner key := by
      cases hl : inner.map.lookup key with
      | none =>
        rw [released_of_none h hl, makeRoom]
        simp only [hl]
      | some old =>
        rw [released_of_some h hl, makeRoom]
        simp only [hl]
    rw [hgiven, hadd]
    rfl
  rw [hroom]
  split_ifs with hover
  · have hperm := perm_oldestFirst (inner.map.erase key)
    obtain ⟨gone, kept, hkeys, hlookup, hsum, hgone, hend, hshort⟩ :=
      evictLoop_spec (total charge (inner.map.erase key) + new - maxBytes)
        (oldestFirst (inner.map.erase key)) 0 (released inner key)
        (hperm.nodup_iff.mpr (inner.map.erase key).keys_nodup)
        (fun k hk => AList.mem_keys.mpr (hperm.mem_iff.mp hk)) rfl
        (show 0 + total charge (inner.map.erase key) ≤ usizeMax by omega)
    have hmap : (released inner key).map = inner.map.erase key := rfl
    have htotal : (released inner key).totalCharged = total charge (inner.map.erase key) := rfl
    rw [hmap] at hgone
    rw [hmap] at hend
    refine ⟨gone, kept, hkeys, hlookup, hsum, by omega, ?_, ?_⟩
    · rcases hend with rfl | henough
      · -- everything is gone, and the new entry fits alone
        rw [List.append_nil] at hkeys
        have hall := total_eq_sum_keys (f := charge) hperm
        rw [hkeys] at hall
        omega
      · omega
    · intro before x after hsplit
      have hlt := hshort before x after hsplit
      rw [hmap] at hlt
      omega
  · refine ⟨[], oldestFirst (inner.map.erase key), rfl, fun x => by simp [released], rfl,
      Nat.le_refl _, ?_, ?_⟩
    · show total charge (inner.map.erase key) + new ≤ maxBytes
      omega
    · intro before x after hsplit
      simp at hsplit

theorem total_erase_le (h : Exact inner maxBytes clock) (key : Text × Text) :
    total charge (inner.map.erase key) ≤ inner.totalCharged := by
  cases hl : inner.map.lookup key with
  | none => rw [erase_of_notMem (AList.lookup_eq_none.mp hl), ← h.sum]
  | some old =>
    have := total_erase (f := charge) hl
    rw [h.sum]
    omega

/-- What there is room beside was stored before, under another key. -/
theorem Room.lookup_some {room : BodyCacheInner} {new : Nat} {gone kept : List (Text × Text)}
    (hroom : Room inner key new maxBytes room gone kept) {x : Text × Text} {e : BodyEntry}
    (hl : room.map.lookup x = some e) :
    x ∉ gone ∧ x ≠ key ∧ inner.map.lookup x = some e := by
  rw [hroom.lookup x] at hl
  split_ifs at hl with hgone
  refine ⟨hgone, ?_, lookup_of_lookup_erase hl⟩
  rintro rfl
  simp at hl

/-- **An entry put under a key** at the next tick keeps the invariant. -/
theorem Exact.put (h : Exact inner maxBytes clock) (key : Text × Text) (room : BodyCacheInner)
    {e : BodyEntry}
    (hkept : ∀ x f, room.map.lookup x = some f → x ≠ key ∧ inner.map.lookup x = some f)
    (hsum : room.totalCharged = total charge room.map) (hfits : room.totalCharged + e.charge ≤ maxBytes)
    (hsize : e.charge = size key.1 key.2 e.body) (htick : e.lastAccess = clock + 1) :
    Exact ⟨room.map.insert key e, room.totalCharged + e.charge⟩ maxBytes (clock + 1) where
  sum := by
    have hfresh : key ∉ room.map := by
      intro hmem
      obtain ⟨f, hf⟩ := Option.isSome_iff_exists.mp (AList.lookup_isSome.mpr hmem)
      exact (hkept key f hf).1 rfl
    rw [total_insert, erase_of_notMem hfresh, ← hsum]
    rfl
  budget := hfits
  sizes x f hl := by
    rcases lookup_insert_cases hl with ⟨rfl, rfl⟩ | hold
    · exact hsize
    · exact h.sizes x f (hkept x f hold).2
  ticks x f hl := by
    rcases lookup_insert_cases hl with ⟨rfl, rfl⟩ | hold
    · omega
    · have := h.ticks x f (hkept x f hold).2
      omega
  distinct x f y g hx hy heq := by
    -- the new tick is later than every other
    rcases lookup_insert_cases hx with ⟨rfl, rfl⟩ | hx' <;>
      rcases lookup_insert_cases hy with ⟨rfl, rfl⟩ | hy'
    · rfl
    · have := h.ticks y g (hkept y g hy').2
      omega
    · have := h.ticks x f (hkept x f hx').2
      omega
    · exact h.distinct x f y g (hkept x f hx').2 (hkept y g hy').2 heq

end

/-! ## §4 Histories -/

inductive Call where
  | get (blobKey etag : Text)
  | insert (blobKey etag : Text) (body : Bytes)
  deriving DecidableEq

def step (c : BodyCache) : Call → BodyCache
  | .get blobKey etag => (c.get blobKey etag).2
  | .insert blobKey etag body => c.insert blobKey etag body

def run (c : BodyCache) (calls : List Call) : BodyCache := calls.foldl step c

/-- The stored entries. -/
def entries (c : BodyCache) : Dict (Text × Text) BodyEntry :=
  match c.inner with
  | some inner => inner.map
  | none => ∅

/-- The charged total. -/
def charged (c : BodyCache) : Nat :=
  match c.inner with
  | some inner => inner.totalCharged
  | none => 0

/-- **No size overflows**: neither the size of the entry nor, when it is stored, the sum with what
is charged already. -/
def InRange (c : BodyCache) : Call → Prop
  | .get _ _ => True
  | .insert blobKey etag body => size blobKey etag body ≤ usizeMax ∧
      (size blobKey etag body ≤ c.maxEntryBytes →
        c.charged + size blobKey etag body ≤ usizeMax)

/-- No size overflows along a history. -/
def AllInRange (c : BodyCache) (calls : List Call) : Prop :=
  ∀ before call after, calls = before ++ call :: after → InRange (c.run before) call

/-- The body of the last insert under a key that was not oversize. -/
def lastInsert (maxEntryBytes : Nat) (calls : List Call) (key : Text × Text) : Option Bytes :=
  calls.foldl (fun last call =>
    match call with
    | .insert blobKey etag body =>
      if (blobKey, etag) = key ∧ size blobKey etag body ≤ maxEntryBytes then some body else last
    | .get _ _ => last) none

/-- **The invariant of the cache.** -/
structure Kept (c : BodyCache) : Prop where
  exact_ : ∀ inner, c.inner = some inner → Exact inner c.maxBytes c.clock
  entry_le : c.maxEntryBytes ≤ c.maxBytes
  disabled : c.inner = none → c.maxEntryBytes = 0

section
variable {c : BodyCache} {blobKey etag : Text} {body : Bytes}

theorem kept_withMaxEntryBytes (maxBytes maxEntryBytes : Nat) :
    Kept (withMaxEntryBytes maxBytes maxEntryBytes) := by
  unfold withMaxEntryBytes
  split_ifs with hzero
  · exact ⟨fun inner h => (by cases h), Nat.le_refl _, fun _ => rfl⟩
  · refine ⟨fun inner h => ?_, Nat.min_le_right _ _, fun h => by cases h⟩
    obtain rfl := Option.some.inj h
    exact exact_empty _ _

/-- An oversize body changes nothing. -/
theorem insert_oversize (hrange : size blobKey etag body ≤ usizeMax)
    (hover : c.maxEntryBytes < size blobKey etag body) : c.insert blobKey etag body = c := by
  unfold insert
  cases c.inner with
  | none => rfl
  | some inner =>
    simp only
    rw [chargeFor_eq hrange, if_pos hover]

/-- What an insert that is not oversize makes of the store. -/
theorem insert_stored (h : Kept c) (hrange : InRange c (.insert blobKey etag body))
    (hsize : size blobKey etag body ≤ c.maxEntryBytes) :
    ∃ inner room gone kept, c.inner = some inner ∧ Exact inner c.maxBytes c.clock ∧
      Room inner (blobKey, etag) (size blobKey etag body) c.maxBytes room gone kept ∧
      c.insert blobKey etag body =
        { c with
          inner := some ⟨room.map.insert (blobKey, etag)
              ⟨body, size blobKey etag body, c.clock + 1⟩,
            room.totalCharged + size blobKey etag body⟩
          clock := c.clock + 1 } := by
  obtain ⟨hfits, hsum⟩ := hrange
  cases hi : c.inner with
  | none =>
    have hzero := h.disabled hi
    have hpos : 0 < size blobKey etag body := by
      unfold size entryOverheadBytes
      omega
    omega
  | some inner =>
    have hexact := h.exact_ inner hi
    have hcharged : c.charged = inner.totalCharged := by rw [charged, hi]
    have hrange' : inner.totalCharged + size blobKey etag body ≤ usizeMax := by
      rw [← hcharged]
      exact hsum hsize
    obtain ⟨gone, kept, hroom⟩ := makeRoom_spec hexact (blobKey, etag)
      (Nat.le_trans hsize h.entry_le) hrange'
    have hle : (makeRoom inner (blobKey, etag) (size blobKey etag body) c.maxBytes).totalCharged +
        size blobKey etag body ≤ usizeMax := by
      have := hroom.shrinks
      have := total_erase_le hexact (blobKey, etag)
      omega
    refine ⟨inner, _, gone, kept, rfl, hexact, hroom, ?_⟩
    unfold insert
    rw [hi]
    simp only
    rw [chargeFor_eq hfits, if_neg (Nat.not_lt.mpr hsize), usizeSatAdd_eq hle]

/-- **One call** keeps the invariant. -/
theorem Kept.step (h : Kept c) {call : Call} (hrange : InRange c call) : Kept (c.step call) := by
  cases call with
  | get blobKey etag =>
    show Kept (c.get blobKey etag).2
    unfold BodyCache.get
    cases hi : c.inner with
    | none => simpa only [hi] using h
    | some inner =>
      have hexact := h.exact_ inner hi
      cases hl : inner.map.lookup (blobKey, etag) with
      | none =>
        simp only [hl]
        refine ⟨fun inner' h' => ?_, h.entry_le, fun h' => ?_⟩
        · obtain rfl := Option.some.inj h'
          exact { hexact with ticks := fun x e hx => Nat.le_succ_of_le (hexact.ticks x e hx) }
        · cases h'
      | some e =>
        simp only [hl]
        refine ⟨fun inner' h' => ?_, h.entry_le, fun h' => by cases h'⟩
        obtain rfl := Option.some.inj h'
        have herase : total charge (inner.map.erase (blobKey, etag)) + e.charge =
            inner.totalCharged := by
          rw [hexact.sum]
          exact total_erase (f := charge) hl
        -- the entry goes out and comes in again at the next tick
        have hput := hexact.put (blobKey, etag)
          ⟨inner.map.erase (blobKey, etag), total charge (inner.map.erase (blobKey, etag))⟩
          (e := { e with lastAccess := c.clock + 1 })
          (fun x f hx => ⟨fun heq => by subst heq; simp at hx, lookup_of_lookup_erase hx⟩) rfl
          (by simp only; rw [herase]; exact hexact.budget) (hexact.sizes _ e hl) rfl
        have hmap : (inner.map.erase (blobKey, etag)).insert (blobKey, etag)
            { e with lastAccess := c.clock + 1 } =
            inner.map.insert (blobKey, etag) { e with lastAccess := c.clock + 1 } := by
          apply AList.ext
          rw [AList.entries_insert]
          congr 1
          exact List.kerase_of_notMem_keys fun hmem => (AList.mem_erase.mp hmem).1 rfl
        rwa [hmap, herase] at hput
  | insert blobKey etag body =>
    show Kept (c.insert blobKey etag body)
    by_cases hsize : size blobKey etag body ≤ c.maxEntryBytes
    · obtain ⟨inner, room, gone, kept, hi, hexact, hroom, heq⟩ := insert_stored h hrange hsize
      rw [heq]
      refine ⟨fun inner' h' => ?_, h.entry_le, fun h' => by cases h'⟩
      obtain rfl := Option.some.inj h'
      exact hexact.put (blobKey, etag) room (e := ⟨body, size blobKey etag body, c.clock + 1⟩)
        (fun x f hx => (hroom.lookup_some hx).2) hroom.sum hroom.fits rfl rfl
    · rw [insert_oversize hrange.1 (Nat.not_le.mp hsize)]
      exact h

/-- Calls leave the limits. -/
theorem limits_step (c : BodyCache) (call : Call) :
    (c.step call).maxBytes = c.maxBytes ∧ (c.step call).maxEntryBytes = c.maxEntryBytes := by
  cases call with
  | get blobKey etag =>
    show (c.get blobKey etag).2.maxBytes = _ ∧ (c.get blobKey etag).2.maxEntryBytes = _
    unfold BodyCache.get
    split
    · exact ⟨rfl, rfl⟩
    · split <;> exact ⟨rfl, rfl⟩
  | insert blobKey etag body =>
    show (c.insert blobKey etag body).maxBytes = _ ∧ (c.insert blobKey etag body).maxEntryBytes = _
    unfold BodyCache.insert
    split
    · exact ⟨rfl, rfl⟩
    · simp only
      split_ifs <;> exact ⟨rfl, rfl⟩

theorem run_concat (c : BodyCache) (calls : List Call) (call : Call) :
    c.run (calls ++ [call]) = (c.run calls).step call := by
  unfold run
  rw [List.foldl_append]
  rfl

theorem AllInRange.left {calls : List Call} {call : Call}
    (h : AllInRange c (calls ++ [call])) : AllInRange c calls := by
  intro before call' after hsplit
  apply h before call' (after ++ [call])
  rw [hsplit, List.append_assoc, List.cons_append]

/-- **Every history** keeps the invariant and the limits. -/
theorem Kept.run (h : Kept c) (calls : List Call) (hrange : AllInRange c calls) :
    Kept (c.run calls) ∧ (c.run calls).maxBytes = c.maxBytes ∧
      (c.run calls).maxEntryBytes = c.maxEntryBytes := by
  induction calls using List.reverseRecOn with
  | nil => exact ⟨h, rfl, rfl⟩
  | append_singleton calls call ih =>
    obtain ⟨hkept, hmax, hentry⟩ := ih hrange.left
    obtain ⟨hmax', hentry'⟩ := limits_step (c.run calls) call
    rw [run_concat]
    exact ⟨hkept.step (hrange calls call [] rfl), hmax'.trans hmax, hentry'.trans hentry⟩

/-- What is held was put there by the last insert under its key. -/
theorem body_lastInsert (h : Kept c) (hempty : ∀ key etag, c.body? key etag = none)
    (calls : List Call) (hrange : AllInRange c calls) {key etag : Text} {b : Bytes}
    (hb : (c.run calls).body? key etag = some b) :
    lastInsert c.maxEntryBytes calls (key, etag) = some b := by
  induction calls using List.reverseRecOn generalizing b with
  | nil =>
    rw [run, List.foldl_nil, hempty] at hb
    cases hb
  | append_singleton calls call ih =>
    obtain ⟨hkept, -, hentry⟩ := h.run calls hrange.left
    have hcall := hrange calls call [] rfl
    rw [run_concat] at hb
    unfold lastInsert
    rw [List.foldl_append, List.foldl_cons]
    cases call with
    | get key' etag' => exact ih hrange.left (body?_get hb)
    | insert key' etag' body =>
      by_cases hsize : size key' etag' body ≤ (c.run calls).maxEntryBytes
      · by_cases hkey : (key', etag') = (key, etag)
        · -- the last insert is this one
          obtain ⟨inner, room, gone, kept, -, -, -, heq⟩ := insert_stored hkept hcall hsize
          rw [hentry] at hsize
          simp only [hkey, hsize]
          change (BodyCache.insert _ key' etag' body).body? key etag = some b at hb
          rw [heq, ← (Prod.mk.inj hkey).1, ← (Prod.mk.inj hkey).2, body?] at hb
          simpa using hb
        · simp only [hkey]
          rcases body?_insert hb with ⟨rfl, rfl, -⟩ | hold
          · exact absurd rfl hkey
          · exact ih hrange.left hold
      · change (BodyCache.insert _ key' etag' body).body? key etag = some b at hb
        rw [insert_oversize hcall.1 (Nat.not_le.mp hsize)] at hb
        rw [hentry] at hsize
        simp only [hsize, and_false]
        exact ih hrange.left hb

/-! ## §5 What an insert evicts -/

/-- The insert under a key drops another entry. -/
def Evicts (c c' : BodyCache) (key x : Text × Text) (old : BodyEntry) : Prop :=
  x ≠ key ∧ c.entries.lookup x = some old ∧ c'.entries.lookup x ≠ some old

/-- What the entries under other keys are charged that were used at a tick or later. -/
def chargedSince (c : BodyCache) (key : Text × Text) (t : Nat) : Nat :=
  total (fun x => if t ≤ tick x then charge x else 0) (c.entries.erase key)

/-- The oldest keys apart, the rest is what was used since. -/
theorem total_le_since {m : Dict (Text × Text) BodyEntry} {before rest : List (Text × Text)}
    {x : Text × Text} (hkeys : oldestFirst m = before ++ x :: rest) :
    total charge m ≤ (before.map (weightAt charge m)).sum +
      total (fun y => if weightAt tick m x ≤ tick y then charge y else 0) m := by
  have hperm := perm_oldestFirst m
  have hsorted := pairwise_oldestFirst m
  rw [hkeys] at hperm hsorted
  have htail := (List.pairwise_append.mp hsorted).2.1
  -- from `x` on every entry counts in full
  have hsince : ∀ y ∈ x :: rest, weightAt charge m y ≤
      weightAt (fun y => if weightAt tick m x ≤ tick y then charge y else 0) m y := by
    intro y hy
    have hle : weightAt tick m x ≤ weightAt tick m y := by
      rcases List.mem_cons.mp hy with rfl | hy
      · exact Nat.le_refl _
      · exact (List.pairwise_cons.mp htail).1 y hy
    unfold weightAt at hle ⊢
    cases hl : m.lookup y with
    | none => simp
    | some e =>
      rw [hl] at hle
      simp only at hle ⊢
      rw [if_pos hle]
  have hsum := List.sum_le_sum hsince
  rw [total_eq_sum_keys (f := charge) hperm, total_eq_sum_keys hperm]
  simp only [List.map_append, List.sum_append]
  omega

/-- **What an insert evicts**: an entry goes only if the new one does not fit beside it and all
that were used later, and only if every entry that stays was used later. -/
theorem insert_evicts (h : Kept c) (hrange : InRange c (.insert blobKey etag body))
    {x : Text × Text} {old : BodyEntry}
    (hevicts : Evicts c (c.insert blobKey etag body) (blobKey, etag) x old) :
    c.maxBytes < chargedSince c (blobKey, etag) old.lastAccess + size blobKey etag body ∧
    ∀ y stays, y ≠ (blobKey, etag) → c.entries.lookup y = some stays →
      (c.insert blobKey etag body).entries.lookup y = some stays →
      old.lastAccess < stays.lastAccess := by
  obtain ⟨hne, hold, hgone⟩ := hevicts
  by_cases hsize : size blobKey etag body ≤ c.maxEntryBytes
  swap
  · rw [insert_oversize hrange.1 (Nat.not_le.mp hsize)] at hgone
    exact absurd hold hgone
  obtain ⟨inner, room, gone, kept, hi, hexact, hroom, heq⟩ := insert_stored h hrange hsize
  have hentries : c.entries = inner.map := by rw [entries, hi]
  have hafter : ∀ y, y ≠ (blobKey, etag) → (c.insert blobKey etag body).entries.lookup y =
      if y ∈ gone then none else inner.map.lookup y := by
    intro y hy
    rw [heq]
    show (room.map.insert (blobKey, etag) _).lookup y = _
    rw [AList.lookup_insert_ne hy, hroom.lookup y, AList.lookup_erase_ne hy]
  rw [hentries] at hold
  have hmem : x ∈ gone := by
    by_contra hnot
    rw [hafter x hne, if_neg hnot] at hgone
    exact hgone hold
  have htick : weightAt tick (inner.map.erase (blobKey, etag)) x = old.lastAccess :=
    weightAt_of_lookup (f := tick) (by rw [AList.lookup_erase_ne hne, hold])
  obtain ⟨before, after, hsplit⟩ := List.append_of_mem hmem
  have hkeys := hroom.keys
  constructor
  · have hneeded := hroom.needed before x after hsplit
    rw [hsplit, List.append_assoc] at hkeys
    have hsince := total_le_since hkeys
    rw [htick] at hsince
    unfold chargedSince
    rw [hentries]
    omega
  · intro y stays hy hl hl'
    rw [hentries] at hl
    have hkept : y ∉ gone := by
      intro hygone
      rw [hafter y hy, if_pos hygone] at hl'
      cases hl'
    -- it comes after the evicted one in the order of use
    have hlast : y ∈ kept := by
      have hkey : y ∈ (inner.map.erase (blobKey, etag)).keys :=
        AList.mem_keys.mp (AList.mem_erase.mpr
          ⟨hy, AList.lookup_isSome.mp (Option.isSome_of_eq_some hl)⟩)
      have := (perm_oldestFirst (inner.map.erase (blobKey, etag))).mem_iff.mpr hkey
      rw [hkeys] at this
      exact (List.mem_append.mp this).resolve_left hkept
    have hsorted := pairwise_oldestFirst (inner.map.erase (blobKey, etag))
    rw [hkeys] at hsorted
    have hle := (List.pairwise_append.mp hsorted).2.2 x hmem y hlast
    have hticky : weightAt tick (inner.map.erase (blobKey, etag)) y = stays.lastAccess :=
      weightAt_of_lookup (f := tick) (by rw [AList.lookup_erase_ne hy, hl])
    rw [htick, hticky] at hle
    refine Nat.lt_of_le_of_ne hle fun hsame => hkept ?_
    rw [← hexact.distinct x old y stays hold hl hsame]
    exact hmem

theorem allInRange_cons (call : Call) {calls : List Call} (h : InRange c call)
    (hrest : AllInRange (c.step call) calls) : AllInRange c (call :: calls) := by
  intro before call' after hsplit
  cases before with
  | nil =>
    obtain ⟨rfl, -⟩ := List.cons_eq_cons.mp hsplit
    exact h
  | cons first before =>
    obtain ⟨rfl, hsplit'⟩ := List.cons_eq_cons.mp hsplit
    exact hrest before call' after hsplit'

end

end SolidServer.Store.BodyCache
