import SolidServer.Store.Reading

/-!
# What the writing operations do

`Rewrites` is an exact account of a change of the backend: the index it leads to, and
the records that may have changed with their bytes.  `Consistent` is what every state of
a running store satisfies: records have their bytes, no two records share a blob key, the
body cache agrees with the blobs, and the keys still to be drawn are unused.  Each
operation of the composite store keeps the second and is specified by the first.
-/

namespace SolidServer.Store

open SolidServer.Effects

/-! ## §1 The index, per record and per edge -/

namespace Index

variable (i : Index) (iri container child : Iri) (m : ResourceMeta)

theorem meta?_putMeta (j : Iri) :
    (i.putMeta iri m).meta? j = if j = iri then some m else i.meta? j := by
  unfold putMeta meta?
  split_ifs with h
  · subst h; simp
  · exact AList.lookup_insert_ne h

@[simp] theorem childrenOf_putMeta (c : Iri) : (i.putMeta iri m).childrenOf c = i.childrenOf c := rfl

theorem meta?_deleteMeta (j : Iri) :
    (i.deleteMeta iri).meta? j = if j = iri then none else i.meta? j := by
  unfold deleteMeta meta?
  split_ifs with h
  · subst h; simp
  · exact AList.lookup_erase_ne h

theorem childrenOf_deleteMeta (c : Iri) :
    (i.deleteMeta iri).childrenOf c = if c = iri then [] else i.childrenOf c := by
  unfold deleteMeta childrenOf
  split_ifs with h
  · subst h; simp
  · rw [AList.lookup_erase_ne h]

@[simp] theorem meta?_removeChild (j : Iri) : (i.removeChild container child).meta? j = i.meta? j := by
  unfold removeChild
  split <;> rfl

theorem mem_childrenOf_removeChild {c x : Iri} :
    x ∈ (i.removeChild container child).childrenOf c ↔
      x ∈ i.childrenOf c ∧ ¬ (c = container ∧ x = child) := by
  unfold removeChild
  cases hl : i.children.lookup container with
  | none =>
    constructor
    · refine fun h => ⟨h, ?_⟩
      rintro ⟨rfl, rfl⟩
      simp [childrenOf, hl] at h
    · exact And.left
  | some kids =>
    by_cases hc : c = container
    · subst hc
      simp [childrenOf, hl]
    · simp [childrenOf, hc]

@[simp] theorem meta?_addChild (j : Iri) : (i.addChild container child).meta? j = i.meta? j := rfl

theorem mem_childrenOf_addChild {c x : Iri} :
    x ∈ (i.addChild container child).childrenOf c ↔
      x ∈ i.childrenOf c ∨ (c = container ∧ x = child) := by
  unfold addChild
  by_cases hc : c = container
  · subst hc
    by_cases hmem : child ∈ i.childrenOf c
    · have hsame : x ∈ i.childrenOf c ∨ x = child ↔ x ∈ i.childrenOf c := by
        constructor
        · rintro (h | rfl)
          · exact h
          · exact hmem
        · exact .inl
      simp only [hmem, true_and, hsame]
      simp [childrenOf]
    · simp only [hmem]
      simp [childrenOf]
  · simp [childrenOf, hc]

end Index

/-! ## §2 Changes of the backend -/

/-- A record with the bytes it points at. -/
def Backend.record? (b : Backend) (iri : Iri) : Option (ResourceMeta × Option Bytes) :=
  (b.index.meta? iri).map fun m => (m, b.blobs.lookup m.blobKey)

/-- From `b` to `b'` the index became `i`, and records outside `P` kept their bytes. -/
structure Rewrites (P : Iri → Prop) (i : Index) (b b' : Backend) : Prop where
  records : ∀ iri, ¬ P iri → b'.record? iri = b.record? iri
  index : b'.index = i

/-- No record. -/
abbrev noRecord : Iri → Prop := fun _ => False

namespace Rewrites

variable {P Q : Iri → Prop} {i j : Index} {a b c : Backend}

theorem refl (b : Backend) : Rewrites P b.index b b := ⟨fun _ _ => rfl, rfl⟩

theorem trans (h : Rewrites P i a b) (h' : Rewrites P j b c) : Rewrites P j a c :=
  ⟨fun iri hp => (h'.records iri hp).trans (h.records iri hp), h'.index⟩

theorem mono (h : Rewrites P i a b) (hP : ∀ iri, P iri → Q iri) : Rewrites Q i a b :=
  ⟨fun iri hq => h.records iri fun hp => hq (hP iri hp), h.index⟩

theorem of_none (h : Rewrites noRecord i a b) : Rewrites P i a b := h.mono fun _ hp => hp.elim

theorem meta? (h : Rewrites P i a b) {iri : Iri} (hp : ¬ P iri) :
    b.index.meta? iri = a.index.meta? iri := by
  have := congrArg (Option.map Prod.fst) (h.records iri hp)
  simpa [Backend.record?, Function.comp_def] using this

end Rewrites

/-! ## §3 Keys -/

/-- The byte two hexadecimal digits stand for. -/
def unhexByte (s : Text) : Nat :=
  s.foldl (fun acc c => acc * 16 + (if c.isDigit then c.toNat - 48 else c.toNat - 87)) 0

theorem hexByte_spec (b : UInt8) : (hexByte b).length = 2 ∧ unhexByte (hexByte b) = b.toNat := by
  have table : ∀ n : Fin 256, (Text.zeroPad 2 (Text.hex n)).length = 2 ∧
      unhexByte (Text.zeroPad 2 (Text.hex n)) = n := by decide +kernel
  exact table ⟨b.toNat, b.toNat_lt⟩

theorem length_flatMap_hexByte (as : Bytes) : (as.flatMap hexByte).length = 2 * as.length := by
  induction as with
  | nil => rfl
  | cons a as ih =>
    rw [List.flatMap_cons, List.length_append, (hexByte_spec a).1, List.length_cons]
    omega

theorem flatMap_hexByte_injective {as bs : Bytes} (h : as.flatMap hexByte = bs.flatMap hexByte) :
    as = bs := by
  induction as generalizing bs with
  | nil =>
    cases bs with
    | nil => rfl
    | cons b bs =>
      have := congrArg List.length h
      rw [length_flatMap_hexByte, length_flatMap_hexByte] at this
      simp at this
  | cons a as ih =>
    cases bs with
    | nil =>
      have := congrArg List.length h
      rw [length_flatMap_hexByte] at this
      simp at this
    | cons b bs =>
      obtain ⟨hab, hrest⟩ := List.append_inj h (by rw [(hexByte_spec a).1, (hexByte_spec b).1])
      have hnat : a.toNat = b.toNat := by rw [← (hexByte_spec a).2, hab, (hexByte_spec b).2]
      rw [UInt8.toNat_inj.mp hnat, ih hrest]

variable {iri : Iri} {w : World} {i : Index}

/-- **Keys carry their suffix**: keys minted from different suffixes differ, whatever the
resources. -/
theorem blobKeyFor_suffix {iri' : Iri} {s s' : Suffix} (h : blobKeyFor iri s = blobKeyFor iri' s') :
    s = s' := by
  have hlen : (s.bytes.flatMap hexByte).length = (s'.bytes.flatMap hexByte).length := by
    rw [length_flatMap_hexByte, length_flatMap_hexByte, s.length_eq, s'.length_eq]
  obtain ⟨-, hbytes⟩ := List.append_inj' h hlen
  cases s
  cases s'
  simpa using flatMap_hexByte_injective hbytes

/-! ## §4 Specifications of computations -/

/-- The run of `p` from `w` ends in a result and a world that satisfy `Q`. -/
abbrev Spec {α : Type} (p : Server α) (w : World) (Q : Except ServerError α → World → Prop) :
    Prop :=
  Program.Ensures World.sem p w Q

namespace Spec

variable {α β : Type} {w : World} {Q : Except ServerError β → World → Prop}

theorem perform_bind {o : StoreOp} {f : o.Res → Server β}
    (h : Spec (f (World.sem w o).1) (World.sem w o).2 Q) : Spec (perform o >>= f) w Q := h

variable {f : α → Server β}

theorem check_bind {r : Except ServerError α} (hok : ∀ a, r = .ok a → Spec (f a) w Q)
    (herr : ∀ e, r = .error e → Q (.error e) w) :
    Spec (check r >>= f) w Q := by
  cases hr : r with
  | ok a => exact hok a hr
  | error e => exact herr e hr

/-- Sequencing; the specification of the first part is given first. -/
theorem bind {p : Server α} {R : Except ServerError α → World → Prop} (hp : Spec p w R)
    (hok : ∀ a w', R (.ok a) w' → Spec (f a) w' Q)
    (herr : ∀ e w', R (.error e) w' → Q (.error e) w') : Spec (p >>= f) w Q :=
  Program.Ensures.bind hp hok herr

/-- The runs that end in a value satisfy `F`. -/
def OnOk {α : Type} (F : α → World → Prop) : Except ServerError α → World → Prop :=
  fun r w' => ∀ a, r = .ok a → F a w'

theorem onOk_check_bind {r : Except ServerError α} {F : β → World → Prop}
    (hf : ∀ a, r = .ok a → Spec (f a) w (OnOk F)) : Spec (check r >>= f) w (OnOk F) :=
  check_bind hf fun e _ b hb => by cases hb

theorem onOk_bind {p : Server α} {R : Except ServerError α → World → Prop} {F : β → World → Prop}
    (hp : Spec p w R) (hf : ∀ a w', R (.ok a) w' → Spec (f a) w' (OnOk F)) :
    Spec (p >>= f) w (OnOk F) :=
  bind hp hf fun e w' _ b hb => by cases hb

/-- An existence probe answers whether the record is there, or fails. -/
theorem exists_bind {iri : Iri} {f : Bool → Server β}
    (hok : Spec (f (w.backend.index.meta? iri).isSome) w Q) (herr : ∀ e, Q (.error e) w) :
    Spec (exists_ iri >>= f) w Q := by
  refine perform_bind ?_
  simp only [World.sem]
  cases w.faults.indexRead iri with
  | some e => exact herr _
  | none => exact hok

/-- A metadata probe answers the record, or fails. -/
theorem meta?_bind {iri : Iri} {f : Option ResourceMeta → Server β}
    (hok : Spec (f (w.backend.index.meta? iri)) w Q) (herr : ∀ e, Q (.error e) w) :
    Spec (Store.meta? iri >>= f) w Q := by
  refine perform_bind ?_
  simp only [World.sem]
  cases w.faults.indexRead iri with
  | some e => exact herr _
  | none =>
    cases hm : w.backend.index.meta? iri with
    | none =>
      rw [hm] at hok
      exact hok
    | some m =>
      rw [hm] at hok
      exact hok

end Spec

/-! ## §5 Consistency -/

/-- What every state of a running store satisfies.  The random source is taken not to repeat
itself: a run looks at finitely many draws, and the later ones may be taken to fail. -/
structure Consistent (w : World) : Prop where
  stored : ∀ iri m, w.backend.index.meta? iri = some m →
    ∃ b, w.backend.blobs.lookup m.blobKey = some b
  keys : ∀ i j m n, w.backend.index.meta? i = some m → w.backend.index.meta? j = some n →
    m.blobKey = n.blobKey → i = j
  cached : ∀ key tag b b', w.bodyCache.body? key tag = some b →
    w.backend.blobs.lookup key = some b' → b = b'
  fresh : ∀ n s iri, w.draws ≤ n → w.entropy n = .ok s →
    w.backend.blobs.lookup (blobKeyFor iri s) = none ∧
      ∀ tag, w.bodyCache.body? (blobKeyFor iri s) tag = none
  distinct : ∀ n k s, w.draws ≤ n → n < k → w.entropy n = .ok s → w.entropy k ≠ .ok s

/-- A change of the store: the ACL cache and the fault behaviour are as before. -/
structure Wrote (P : Iri → Prop) (i : Index) (w w' : World) : Prop where
  rewrites : Rewrites P i w.backend w'.backend
  aclCache : w'.aclCache = w.aclCache
  faults : w'.faults = w.faults

namespace Wrote

variable {P : Iri → Prop} {i j : Index} {u v w : World}

theorem refl (w : World) : Wrote P w.backend.index w w := ⟨.refl _, rfl, rfl⟩

theorem trans (h : Wrote P i u v) (h' : Wrote P j v w) : Wrote P j u w :=
  ⟨h.rewrites.trans h'.rewrites, h'.aclCache.trans h.aclCache, h'.faults.trans h.faults⟩

theorem of_none (h : Wrote noRecord i u v) : Wrote P i u v :=
  ⟨h.rewrites.of_none, h.aclCache, h.faults⟩

end Wrote

namespace Consistent

variable {w : World}

/-- A record pointing at bytes of its own keeps the store consistent. -/
theorem putMeta (h : Consistent w) {iri : Iri} {m : ResourceMeta} {b : Bytes}
    (hb : w.backend.blobs.lookup m.blobKey = some b)
    (hkey : ∀ j n, w.backend.index.meta? j = some n → n.blobKey ≠ m.blobKey) {i : Index}
    (hi : ∀ j, i.meta? j = if j = iri then some m else w.backend.index.meta? j) :
    Consistent (w.withIndex i) where
  stored j n hn := by
    have hn' : i.meta? j = some n := hn
    rw [hi] at hn'
    split_ifs at hn' with hj
    · obtain rfl := Option.some.inj hn'
      exact ⟨b, hb⟩
    · exact h.stored j n hn'
  keys j k n n' hn hn' hkeys := by
    have hj : i.meta? j = some n := hn
    have hk : i.meta? k = some n' := hn'
    rw [hi] at hj hk
    split_ifs at hj hk with h₁ h₂ h₂
    · rw [h₁, h₂]
    · obtain rfl := Option.some.inj hj
      exact absurd hkeys.symm (hkey k n' hk)
    · obtain rfl := Option.some.inj hk
      exact absurd hkeys (hkey j n hj)
    · exact h.keys j k n n' hj hk hkeys
  cached := h.cached
  fresh := h.fresh
  distinct := h.distinct

/-- Fewer records keep the store consistent. -/
theorem withIndex_of_le (h : Consistent w) {i : Index}
    (hi : ∀ j n, i.meta? j = some n → w.backend.index.meta? j = some n) :
    Consistent (w.withIndex i) where
  stored j n hn := h.stored j n (hi j n hn)
  keys j k n n' hn hn' hkeys := h.keys j k n n' (hi j n hn) (hi k n' hn') hkeys
  cached := h.cached
  fresh := h.fresh
  distinct := h.distinct

/-- Bytes nobody points at may go. -/
theorem eraseBlob (h : Consistent w) {key : Text}
    (hkey : ∀ j n, w.backend.index.meta? j = some n → n.blobKey ≠ key) :
    Consistent (w.withBlobs (w.backend.blobs.erase key)) where
  stored j n hn := by
    obtain ⟨b, hb⟩ := h.stored j n hn
    exact ⟨b, by rw [World.withBlobs]; simpa [AList.lookup_erase_ne (hkey j n hn)] using hb⟩
  keys := h.keys
  cached k tag b b' hb hb' := h.cached k tag b b' hb (lookup_of_lookup_erase hb')
  fresh n s iri hn hs := by
    obtain ⟨hnone, htag⟩ := h.fresh n s iri hn hs
    refine ⟨?_, htag⟩
    cases hl : (w.backend.blobs.erase key).lookup (blobKeyFor iri s) with
    | none => exact hl
    | some b =>
      have := lookup_of_lookup_erase hl
      rw [hnone] at this
      cases this
  distinct := h.distinct

/-- A draw used up. -/
theorem draw (h : Consistent w) : Consistent { w with draws := w.draws + 1 } where
  stored := h.stored
  keys := h.keys
  cached := h.cached
  fresh n s iri hn := h.fresh n s iri (Nat.le_of_succ_le hn)
  distinct n k s hn := h.distinct n k s (Nat.le_of_succ_le hn)

/-- The key of the next draw points nowhere yet. -/
theorem key_unused (h : Consistent w) {s : Suffix} (hs : w.entropy w.draws = .ok s) (iri : Iri)
    {j : Iri} {n : ResourceMeta} (hn : w.backend.index.meta? j = some n) :
    n.blobKey ≠ blobKeyFor iri s := by
  intro hkey
  obtain ⟨b, hb⟩ := h.stored j n hn
  rw [hkey, (h.fresh _ s iri le_rfl hs).1] at hb
  cases hb

/-- Bytes stored under the key of the draw just used. -/
theorem putBlob (h : Consistent w) {s : Suffix} (hs : w.entropy w.draws = .ok s) (iri : Iri)
    (body : Bytes) :
    Consistent (World.withBlobs { w with draws := w.draws + 1 }
      (w.backend.blobs.insert (blobKeyFor iri s) body)) where
  stored j n hn := by
    obtain ⟨b, hb⟩ := h.stored j n hn
    exact ⟨b, (AList.lookup_insert_ne (h.key_unused hs iri hn)).trans hb⟩
  keys := h.keys
  cached key tag b b' hb hb' := by
    have hne : key ≠ blobKeyFor iri s := by
      rintro rfl
      have hnone := (h.fresh _ s iri le_rfl hs).2 tag
      exact absurd (hnone.symm.trans hb) (by simp)
    exact h.cached key tag b b' hb ((AList.lookup_insert_ne hne).symm.trans hb')
  fresh n t iri' hn ht := by
    obtain ⟨hnone, htag⟩ := h.fresh n t iri' (Nat.le_of_succ_le hn) ht
    have hne : blobKeyFor iri' t ≠ blobKeyFor iri s := by
      intro hkey
      obtain rfl := blobKeyFor_suffix hkey
      exact h.distinct _ n t le_rfl hn hs ht
    exact ⟨(AList.lookup_insert_ne hne).trans hnone, htag⟩
  distinct n k t hn := h.distinct n k t (Nat.le_of_succ_le hn)

theorem tick (h : Consistent w) : Consistent { w with readings := w.readings + 1 } :=
  ⟨h.stored, h.keys, h.cached, h.fresh, h.distinct⟩

end Consistent

/-! ## §6 The operations -/

/-- The result of an operation that takes effect or fails: on failure no record and nothing of
the index has changed. -/
def Settles {α : Type} (w : World) (P : Iri → Prop) (i : α → Index) (Q : α → World → Prop) :
    Except ServerError α → World → Prop
  | .error _, w' => Consistent w' ∧ Wrote noRecord w.backend.index w w'
  | .ok a, w' => Consistent w' ∧ Wrote P (i a) w w' ∧ Q a w'

/-- Writing under a key no record points at changes no record. -/
theorem rewrites_putBlob {b : Backend} {key : Text} {body : Bytes}
    (hkey : ∀ j n, b.index.meta? j = some n → n.blobKey ≠ key) :
    Rewrites noRecord b.index b { b with blobs := b.blobs.insert key body } where
  records j _ := by
    unfold Backend.record?
    cases hm : b.index.meta? j with
    | none => simp
    | some n =>
      simp only [Option.map_some]
      rw [AList.lookup_insert_ne (hkey j n hm)]
  index := rfl

/-- The bytes of a staged record are stored under a key of its own. -/
structure Staged (w : World) (body : Bytes) (contentType : Text) (m : ResourceMeta) (w' : World) :
    Prop where
  contentType_eq : m.contentType = contentType
  etag_eq : m.etag = etagFor body
  bytes : w'.backend.blobs.lookup m.blobKey = some body
  key : ∀ j n, w.backend.index.meta? j = some n → n.blobKey ≠ m.blobKey

theorem spec_stage (h : Consistent w) (iri : Iri) (body : Bytes) (contentType : Text) :
    Spec (stage iri body contentType) w
      (Settles w noRecord (fun _ => w.backend.index) (Staged w body contentType)) := by
  unfold stage mintBlobKey
  simp only [bind_assoc]
  refine Spec.perform_bind ?_
  simp only [World.sem]
  cases hs : w.entropy w.draws with
  | error e => exact ⟨h.draw, .refl _, rfl, rfl⟩
  | ok suffix =>
    refine Spec.perform_bind ?_
    simp only [World.sem]
    cases hf : w.faults.blobPut (blobKeyFor iri suffix) with
    | some e => exact ⟨h.draw, .refl _, rfl, rfl⟩
    | none =>
      have hkey : ∀ j n, w.backend.index.meta? j = some n → n.blobKey ≠ blobKeyFor iri suffix :=
        fun j n hn => h.key_unused hs iri hn
      exact ⟨(h.putBlob hs iri body).tick, ⟨rewrites_putBlob hkey, rfl, rfl⟩,
        rfl, rfl, AList.lookup_insert _, hkey⟩

/-- A change of the index alone. -/
theorem rewrites_index {P : Iri → Prop} {b : Backend}
    (hm : ∀ j, ¬ P j → i.meta? j = b.index.meta? j) : Rewrites P i b { b with index := i } where
  records j hj := by simp only [Backend.record?, hm j hj]
  index := rfl

/-- The store holds `body` under `iri`, through the record `m`. -/
structure Holds (iri : Iri) (body : Bytes) (contentType : Text) (m : ResourceMeta) (w : World) :
    Prop where
  record : w.backend.index.meta? iri = some m
  contentType_eq : m.contentType = contentType
  etag_eq : m.etag = etagFor body
  bytes : w.backend.blobs.lookup m.blobKey = some body

/-- Indexing a staged record, in whichever way the index does it. -/
theorem settle_staged {v : World} {body : Bytes} {contentType : Text} {m : ResourceMeta}
    (hv : Consistent v) (hwrote : Wrote noRecord w.backend.index w v)
    (hm : Staged w body contentType m v)
    (hi : ∀ j, i.meta? j = if j = iri then some m else v.backend.index.meta? j) :
    Consistent (v.withIndex i) ∧ Wrote (· = iri) i w (v.withIndex i) ∧
      Holds iri body contentType m (v.withIndex i) := by
  have hkey : ∀ j n, v.backend.index.meta? j = some n → n.blobKey ≠ m.blobKey := by
    rw [hwrote.rewrites.index]
    exact hm.key
  refine ⟨hv.putMeta hm.bytes hkey hi, hwrote.of_none.trans ⟨?_, rfl, rfl⟩,
    (hi iri).trans (if_pos rfl), hm.contentType_eq, hm.etag_eq, hm.bytes⟩
  refine rewrites_index fun j hj => ?_
  rw [hi, if_neg hj]

/-- **Writing in place** changes the one record. -/
theorem spec_write (h : Consistent w) (iri : Iri) (body : Bytes) (contentType : Text) :
    Spec (write iri body contentType) w
      (Settles w (· = iri) (fun m => w.backend.index.putMeta iri m)
        (Holds iri body contentType)) := by
  refine Spec.bind (spec_stage h iri body contentType) ?_ fun _ _ herr => herr
  rintro m v ⟨hv, hwrote, hm⟩
  refine Spec.perform_bind ?_
  simp only [World.sem]
  cases v.faults.indexWrite iri with
  | some e => exact ⟨hv, hwrote⟩
  | none =>
    rw [hwrote.rewrites.index]
    refine settle_staged hv hwrote hm fun j => ?_
    rw [Index.meta?_putMeta, hwrote.rewrites.index]

/-- **Creating in a container** adds the one record and the one edge. -/
theorem spec_createInContainer (h : Consistent w) (container child : Iri) (body : Bytes)
    (contentType : Text) :
    Spec (createInContainer container child body contentType) w
      (Settles w (· = child) (fun m => (w.backend.index.putMeta child m).addChild container child)
        fun m w' => Holds child body contentType m w' ∧
          (w.backend.index.meta? container).isSome) := by
  refine Spec.bind (spec_stage h child body contentType) ?_ fun _ _ herr => herr
  rintro m v ⟨hv, hwrote, hm⟩
  refine Spec.perform_bind ?_
  simp only [World.sem, Index.createChild]
  cases v.faults.indexWrite child with
  | some e => exact ⟨hv, hwrote⟩
  | none =>
    cases hc : v.backend.index.meta? container with
    | none => exact ⟨hv, hwrote⟩
    | some mc =>
      rw [hwrote.rewrites.index] at hc ⊢
      have hadded : ∀ j, ((w.backend.index.putMeta child m).addChild container child).meta? j =
          if j = child then some m else v.backend.index.meta? j := fun j => by
        rw [Index.meta?_addChild, Index.meta?_putMeta, hwrote.rewrites.index]
      obtain ⟨hcons, hw, hholds⟩ := settle_staged hv hwrote hm hadded
      exact ⟨hcons, hw, hholds, by rw [hc]; rfl⟩

/-- The index after `delete` got as far as the edge, or as the record. -/
def afterUnlink (i : Index) (iri : Iri) (parent : Option Iri) : Index :=
  match parent with
  | some p => i.removeChild p iri
  | none => i

@[simp] theorem meta?_afterUnlink (i : Index) (iri : Iri) (parent : Option Iri) (j : Iri) :
    (afterUnlink i iri parent).meta? j = i.meta? j := by
  cases parent <;> simp [afterUnlink]

theorem mem_childrenOf_afterUnlink {parent : Option Iri} {c x : Iri} :
    x ∈ (afterUnlink i iri parent).childrenOf c ↔
      x ∈ i.childrenOf c ∧ ¬ (parent = some c ∧ x = iri) := by
  cases parent with
  | none => simp [afterUnlink]
  | some p =>
    simp only [afterUnlink, Index.mem_childrenOf_removeChild, Option.some.injEq]
    rw [eq_comm]

theorem exec_recordedKey (iri : Iri) (w : World) :
    exec (recordedKey iri) w =
      ((probe w iri).map fun m => m.map ResourceMeta.blobKey, w) := by
  unfold recordedKey probe
  rw [exec_perform_bind]
  simp only [World.sem]
  cases w.faults.indexRead iri with
  | some e => rfl
  | none => cases w.backend.index.meta? iri <;> rfl

theorem exec_unlink (iri : Iri) (parent : Option Iri) (w : World) :
    (∃ e, exec (unlink iri parent) w = (.error e, w)) ∨
      exec (unlink iri parent) w =
        (.ok (), w.withIndex (afterUnlink w.backend.index iri parent)) := by
  cases parent with
  | none => exact .inr rfl
  | some p =>
    unfold unlink
    rw [exec_perform_bind]
    simp only [World.sem]
    cases w.faults.indexWrite p with
    | some e => exact .inl ⟨_, rfl⟩
    | none => exact .inr rfl

theorem exec_reap (key : Option Text) (w : World) :
    (exec (reap key) w).2 = w ∨
      ∃ k, key = some k ∧ exec (reap key) w = (.ok (), w.withBlobs (w.backend.blobs.erase k)) := by
  cases key with
  | none => exact .inl rfl
  | some k =>
    unfold reap
    rw [exec_perform_bind]
    simp only [World.sem]
    cases w.faults.blobDelete k with
    | some e => exact .inl rfl
    | none => exact .inr ⟨k, rfl, rfl⟩

/-- Reaping bytes that no record points at. -/
theorem wrote_eraseBlob {key : Text}
    (hkey : ∀ j n, w.backend.index.meta? j = some n → n.blobKey ≠ key) :
    Wrote noRecord w.backend.index w (w.withBlobs (w.backend.blobs.erase key)) where
  rewrites :=
    { records := by
        intro j _
        unfold Backend.record?
        cases hm : w.backend.index.meta? j with
        | none => simp [World.withBlobs, hm]
        | some n => simp [World.withBlobs, hm, AList.lookup_erase_ne (hkey j n hm)]
      index := rfl }
  aclCache := rfl
  faults := rfl

/-- How far a deletion got: nowhere, to the parent's edge, or to the record. -/
inductive Deleted (iri : Iri) (parent : Option Iri) (w w' : World) : Prop
  | kept (h : Wrote noRecord w.backend.index w w')
  | unlinked (h : Wrote noRecord (afterUnlink w.backend.index iri parent) w w')
  | gone (h : Wrote (· = iri) ((afterUnlink w.backend.index iri parent).deleteMeta iri) w w')

/-- **Deleting a document** removes the parent edge, then the record, then the bytes; a failure
leaves what was not reached. -/
theorem spec_delete (h : Consistent w) (iri : Iri) (parent : Option Iri) :
    Spec (delete iri parent) w fun r w' =>
      Consistent w' ∧ Deleted iri parent w w' ∧
      (r = .ok () →
        Wrote (· = iri) ((afterUnlink w.backend.index iri parent).deleteMeta iri) w w') := by
  show _ ∧ _
  rw [show Program.run World.sem (delete iri parent) w = exec (delete iri parent) w from rfl]
  unfold delete
  cases hp : probe w iri with
  | error e =>
    rw [exec_bind_error (by rw [exec_recordedKey, hp]; rfl)]
    exact ⟨h, .kept (.refl w), by rintro ⟨⟩⟩
  | ok m? =>
    rw [exec_bind_ok (by rw [exec_recordedKey, hp]; rfl)]
    rcases exec_unlink iri parent w with ⟨e, he⟩ | hok
    · rw [exec_bind_error he]
      exact ⟨h, .kept (.refl w), by rintro ⟨⟩⟩
    · rw [exec_bind_ok hok]
      generalize hv : w.withIndex (afterUnlink w.backend.index iri parent) = v
      have hvc : Consistent v := by
        rw [← hv]
        exact h.withIndex_of_le fun j n hn => by simpa using hn
      have hvw : Wrote noRecord (afterUnlink w.backend.index iri parent) w v := by
        rw [← hv]
        exact ⟨rewrites_index fun j _ => by simp, rfl, rfl⟩
      rw [exec_perform_bind]
      simp only [World.sem]
      cases v.faults.indexWrite iri with
      | some e => exact ⟨hvc, .unlinked hvw, by rintro ⟨⟩⟩
      | none =>
        -- the record is gone; what is left are bytes nobody points at
        simp only [orStorage, pure_bind]
        rw [hvw.rewrites.index]
        generalize hi : (afterUnlink w.backend.index iri parent).deleteMeta iri = i
        have hmeta : ∀ j, i.meta? j = if j = iri then none else w.backend.index.meta? j := by
          intro j
          rw [← hi, Index.meta?_deleteMeta, meta?_afterUnlink]
        have huc : Consistent (v.withIndex i) := by
          refine hvc.withIndex_of_le fun j n hn => ?_
          rw [hmeta] at hn
          split_ifs at hn
          rwa [hvw.rewrites.index, meta?_afterUnlink]
        have huw : Wrote (· = iri) i w (v.withIndex i) := by
          refine hvw.of_none.trans ⟨rewrites_index fun j hj => ?_, rfl, rfl⟩
          rw [hmeta, if_neg hj, hvw.rewrites.index, meta?_afterUnlink]
        rcases exec_reap (m?.map ResourceMeta.blobKey) (v.withIndex i) with hsame | ⟨k, hk, herase⟩
        · rw [hsame]
          exact ⟨huc, .gone (hi ▸ huw), fun _ => hi ▸ huw⟩
        · rw [herase]
          obtain ⟨m, rfl, rfl⟩ := Option.map_eq_some_iff.mp hk
          have hkey : ∀ j n, (v.withIndex i).backend.index.meta? j = some n →
              n.blobKey ≠ m.blobKey := by
            intro j n hn hkeys
            have hn' : i.meta? j = some n := hn
            rw [hmeta] at hn'
            split_ifs at hn' with hj
            exact hj (h.keys j iri n m hn' (meta_of_probe hp) hkeys)
          have hreaped := huw.trans (wrote_eraseBlob hkey).of_none
          exact ⟨huc.eraseBlob hkey, .gone (hi ▸ hreaped), fun _ => hi ▸ hreaped⟩

theorem deleteMetaIfEmpty_cases (i : Index) (iri : Iri) (parent : Option Iri) :
    (∃ o, o ≠ .deleted ∧ i.deleteMetaIfEmpty iri parent = (o, i)) ∨
      (i.childrenOf iri = [] ∧ i.deleteMetaIfEmpty iri parent =
        (.deleted, afterUnlink (i.deleteMeta iri) iri parent)) := by
  unfold Index.deleteMetaIfEmpty
  cases i.meta? iri with
  | none => exact .inl ⟨.notFound, by simp, rfl⟩
  | some m =>
    by_cases hkids : i.childrenOf iri = []
    · right
      simp only [hkids, true_and]
      cases parent <;> rfl
    · left
      simp only [hkids, ne_eq]
      exact ⟨.notEmpty, by simp, rfl⟩

/-- **Deleting an empty container** is one step. -/
theorem spec_deleteContainerIfEmpty (h : Consistent w) (iri : Iri) (parent : Option Iri) :
    Spec (deleteContainerIfEmpty iri parent) w fun _ w' =>
      Consistent w' ∧
      (Wrote noRecord w.backend.index w w' ∨
        w.backend.index.childrenOf iri = [] ∧
          Wrote (· = iri) (afterUnlink (w.backend.index.deleteMeta iri) iri parent) w w') := by
  refine Spec.perform_bind ?_
  simp only [World.sem]
  cases w.faults.indexWrite iri with
  | some e => exact ⟨h, .inl (.refl w)⟩
  | none =>
    rcases deleteMetaIfEmpty_cases w.backend.index iri parent with ⟨o, -, ho⟩ | ⟨hkids, hdel⟩
    · rw [ho]
      exact ⟨h, .inl (.refl w)⟩
    · rw [hdel]
      refine ⟨h.withIndex_of_le fun j n hn => ?_, .inr ⟨hkids, rewrites_index fun j hj => ?_, rfl,
        rfl⟩⟩
      · rw [meta?_afterUnlink, Index.meta?_deleteMeta] at hn
        split_ifs at hn
        exact hn
      · rw [meta?_afterUnlink, Index.meta?_deleteMeta, if_neg hj]

end SolidServer.Store
