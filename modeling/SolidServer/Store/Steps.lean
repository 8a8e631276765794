import SolidServer.Effects.Interleaving
import SolidServer.Store.Writing

/-!
# What one step of the store does

Every invariant of a run rests on what a single step can do, and that is said here once: what
an answer tells of the world it was given in, what a step does to the index (`IndexStep`), and
what it does to the bytes under a key and to the cached bodies.
-/

namespace SolidServer.Store

open SolidServer.Effects

variable {w : World} {o : StoreOp} {iri : Iri} {key tag : Text}

/-! ## §1 What an answer tells -/

namespace World

theorem guardIndex_ok {α : Type} {fault : Option Text} {answer : Except SparqError α} {a : α}
    (h : guardIndex fault answer = .ok a) : answer = .ok a := by
  cases fault with
  | some e => cases h
  | none => exact h

theorem meta?_of_found {m : ResourceMeta} (h : (sem w (.getMeta iri)).1 = .ok m) :
    w.backend.index.meta? iri = some m := by
  have hanswer := guardIndex_ok h
  split at hanswer
  · rename_i hm
    rw [hm, Except.ok.inj hanswer]
  · cases hanswer

theorem meta?_of_missing (h : (sem w (.getMeta iri)).1 = .error .notFound) :
    w.backend.index.meta? iri = none := by
  simp only [sem, guardIndex] at h
  split at h
  · cases h
  · split at h
    · cases h
    · assumption

theorem isSome_of_exists {b : Bool} (h : (sem w (.exists_ iri)).1 = .ok b) :
    (w.backend.index.meta? iri).isSome = b :=
  Except.ok.inj (guardIndex_ok h)

theorem plan_of_readPlan {candidates : List Iri} {plan : ReadPlan}
    (h : (sem w (.readPlan iri candidates)).1 = .ok plan) :
    w.backend.index.readPlan iri candidates = plan :=
  Except.ok.inj (guardIndex_ok h)

theorem blob_of_fetched {b : Bytes} (h : (sem w (.blobGet key)).1 = .ok b) :
    w.backend.blobs.lookup key = some b := by
  simp only [sem] at h
  split at h
  · cases h
  · split at h
    · rename_i hb
      rw [hb, Except.ok.inj h]
    · cases h

end World

/-! ## §2 The index -/

/-- The event changed the index. -/
def alters : Event storeSig → Bool
  | ⟨.putMeta _ _, .ok _⟩ | ⟨.createChild _ _ _, .ok _⟩ | ⟨.removeChild _ _, .ok _⟩
  | ⟨.deleteMeta _, .ok _⟩ | ⟨.deleteMetaIfEmpty _ _, .ok .deleted⟩ => true
  | _ => false

/-- **What an event does to the index.** -/
inductive IndexStep (i : Index) (e : Event storeSig) (i' : Index) : Prop
  | same (he : alters e = false) (hi : i' = i)
  | put (x : Iri) (m : ResourceMeta) (he : e = ⟨.putMeta x m, .ok ()⟩) (hi : i' = i.putMeta x m)
  | create (c x : Iri) (m : ResourceMeta) (he : e = ⟨.createChild c x m, .ok ()⟩)
      (hc : (i.meta? c).isSome) (hi : i' = (i.putMeta x m).addChild c x)
  | unlink (c x : Iri) (he : e = ⟨.removeChild c x, .ok ()⟩) (hi : i' = i.removeChild c x)
  | drop (x : Iri) (he : e = ⟨.deleteMeta x, .ok ()⟩) (hi : i' = i.deleteMeta x)
  | dropEmpty (x : Iri) (parent : Option Iri) (he : e = ⟨.deleteMetaIfEmpty x parent, .ok .deleted⟩)
      (hempty : i.childrenOf x = []) (hi : i' = afterUnlink (i.deleteMeta x) x parent)

theorem index_step (w : World) (o : StoreOp) :
    IndexStep w.backend.index ⟨o, (World.sem w o).1⟩ (World.sem w o).2.backend.index := by
  cases o with
  | putMeta x m =>
    simp only [World.sem]
    cases w.faults.indexWrite x with
    | some e => exact .same rfl rfl
    | none => exact .put x m rfl rfl
  | createChild c x m =>
    simp only [World.sem, Index.createChild]
    cases w.faults.indexWrite x with
    | some e => exact .same rfl rfl
    | none =>
      cases hc : w.backend.index.meta? c with
      | none => exact .same rfl rfl
      | some _ => exact .create c x m rfl (by simp [hc]) rfl
  | removeChild c x =>
    simp only [World.sem]
    cases w.faults.indexWrite c with
    | some e => exact .same rfl rfl
    | none => exact .unlink c x rfl rfl
  | deleteMeta x =>
    simp only [World.sem]
    cases w.faults.indexWrite x with
    | some e => exact .same rfl rfl
    | none => exact .drop x rfl rfl
  | deleteMetaIfEmpty x parent =>
    simp only [World.sem]
    cases w.faults.indexWrite x with
    | some e => exact .same rfl rfl
    | none =>
      rcases deleteMetaIfEmpty_cases w.backend.index x parent with ⟨out, hout, heq⟩ | ⟨hempty, heq⟩
      · rw [heq]
        refine .same ?_ rfl
        cases out <;> first | rfl | exact absurd rfl hout
      · rw [heq]
        exact .dropEmpty x parent rfl hempty rfl
  | blobPut key body | blobDelete key =>
    refine .same rfl ?_
    simp only [World.sem]
    split <;> rfl
  | _ => exact .same rfl rfl

/-- The event committed the record. -/
def StoresRecord (iri : Iri) (m : ResourceMeta) (e : Event storeSig) : Prop :=
  e = ⟨.putMeta iri m, .ok ()⟩ ∨ ∃ container, e = ⟨.createChild container iri m, .ok ()⟩

theorem StoresRecord.op {m : ResourceMeta} {r : o.Res} (h : StoresRecord iri m ⟨o, r⟩) :
    o = .putMeta iri m ∨ ∃ container, o = .createChild container iri m := by
  rcases h with he | ⟨container, he⟩
  · exact .inl (Event.mk.inj he).1
  · exact .inr ⟨container, (Event.mk.inj he).1⟩

/-- **What one step does to a record**: it leaves it, commits a record, or removes it. -/
theorem meta?_step (w : World) (o : StoreOp) (iri : Iri) :
    (World.sem w o).2.backend.index.meta? iri = w.backend.index.meta? iri ∨
    (∃ m, StoresRecord iri m ⟨o, (World.sem w o).1⟩ ∧
      (World.sem w o).2.backend.index.meta? iri = some m) ∨
    ((o = .deleteMeta iri ∨ ∃ parent, o = .deleteMetaIfEmpty iri parent) ∧
      (World.sem w o).2.backend.index.meta? iri = none) := by
  cases index_step w o with
  | same he hi => exact .inl (by rw [hi])
  | put x m he hi =>
    rw [hi, Index.meta?_putMeta]
    split_ifs with h
    · subst h
      exact .inr (.inl ⟨m, .inl he, rfl⟩)
    · exact .inl rfl
  | create c x m he hc hi =>
    rw [hi, Index.meta?_addChild, Index.meta?_putMeta]
    split_ifs with h
    · subst h
      exact .inr (.inl ⟨m, .inr ⟨c, he⟩, rfl⟩)
    · exact .inl rfl
  | unlink c x he hi => exact .inl (by rw [hi, Index.meta?_removeChild])
  | drop x he hi =>
    rw [hi, Index.meta?_deleteMeta]
    split_ifs with h
    · subst h
      exact .inr (.inr ⟨.inl (Event.mk.inj he).1, rfl⟩)
    · exact .inl rfl
  | dropEmpty x parent he hempty hi =>
    rw [hi, meta?_afterUnlink, Index.meta?_deleteMeta]
    split_ifs with h
    · subst h
      exact .inr (.inr ⟨.inr ⟨parent, (Event.mk.inj he).1⟩, rfl⟩)
    · exact .inl rfl

/-! ## §3 Bytes and cached bodies -/

/-- **What one step does to the bytes under a key**: nothing, or it stores them, or it deletes
them. -/
theorem blobs_step (w : World) (o : StoreOp) (key : Text) :
    (World.sem w o).2.backend.blobs.lookup key = w.backend.blobs.lookup key ∨
    (∃ body, o = .blobPut key body ∧ (World.sem w o).2.backend.blobs.lookup key = some body) ∨
    (o = .blobDelete key ∧ (World.sem w o).2.backend.blobs.lookup key = none) := by
  cases o with
  | blobPut k body =>
    simp only [World.sem]
    cases w.faults.blobPut k with
    | some e => exact .inl rfl
    | none =>
      by_cases hk : key = k
      · subst hk
        exact .inr (.inl ⟨body, rfl, AList.lookup_insert _⟩)
      · exact .inl (AList.lookup_insert_ne hk)
  | blobDelete k =>
    simp only [World.sem]
    cases w.faults.blobDelete k with
    | some e => exact .inl rfl
    | none =>
      by_cases hk : key = k
      · subst hk
        exact .inr (.inr ⟨rfl, AList.lookup_erase _ _⟩)
      · exact .inl (AList.lookup_erase_ne hk)
  | putMeta | deleteMeta | deleteMetaIfEmpty | createChild | removeChild =>
    left
    simp only [World.sem]
    split <;> rfl
  | _ => exact .inl rfl

/-- A cached body was cached before the step, or is put there by it. -/
theorem bodies_step {body : Bytes} (h : (World.sem w o).2.bodyCache.body? key tag = some body) :
    w.bodyCache.body? key tag = some body ∨ o = .bodyCacheInsert key tag body := by
  cases o with
  | bodyCacheGet key' tag' => exact .inl (BodyCache.body?_get h)
  | bodyCacheInsert key' tag' body' =>
    rcases BodyCache.body?_insert h with ⟨rfl, rfl, rfl⟩ | hold
    · exact .inr rfl
    · exact .inl hold
  | putMeta | deleteMeta | deleteMetaIfEmpty | createChild | removeChild | blobPut | blobDelete =>
    simp only [World.sem] at h
    split at h <;> exact .inl h
  | _ => exact .inl h

end SolidServer.Store
