import SolidServer.Ldp.Atomicity
import SolidServer.Ldp.Conduct
import SolidServer.Ldp.Membership

/-!
# Containment

Every stored resource but the root and the ACLs is listed by the container it is in, and
every name that is listed is stored (`Contained`).

* `containment_interleaved`: requests run side by side, in any order of their steps, keep
  this, provided that no record is removed between a write's lookup of it and the write, and
  none is stored between the removal of the edge to it and its own removal (`Steady`).
* `unlisted_after_delete`: without that, a resource can be stored and listed nowhere.
* `containment_sequential`: requests that run one after the other keep it always.

While a run is under way a name may be stored without being listed: its edge has been taken
and its record is about to go.  `Filed` is the form of the invariant that allows for that.
-/

namespace SolidServer.Ldp.LdpState

open SolidServer.Effects SolidServer.Store SolidServer.Authz
open SolidServer.Effects.Program (Heeds)
open SolidServer.Text (IsSegment)

variable {s : LdpState} {req : Request} {target : LdpTarget} {seen : List (Event storeSig)}

/-! ## §1 Where things are filed -/

/-- Targets of paths without adjacent slashes: the root, or a name below it with at most one
trailing slash. -/
theorem located_once (hparsed : parseTarget s.baseUrl req.path = .ok target)
    (hpath : ¬ "//".toList <:+: req.path) :
    target.iri = s.dir [] ∨
      ∃ way last slashes, Below s target.iri way last slashes ∧ slashes ≤ 1 := by
  rcases located hparsed fun h => hpath h.isInfix with hroot | ⟨way, last, slashes, hbelow⟩
  · exact .inl hroot
  refine .inr ⟨way, last, slashes, hbelow, ?_⟩
  by_contra hmany
  obtain ⟨k, rfl⟩ : ∃ k, slashes = k + 2 := ⟨slashes - 2, by omega⟩
  obtain ⟨rel, hrel⟩ := parseTarget_ok hparsed
  -- the two slashes at the end of the name are the last two of the path
  have hiri : target.iri = Text.trimEndMatches s.baseUrl '/' ++ pathOnly req.path := by
    rw [hrel.iri, hrel.path, storageRoot]
    simp
  have hend : "//".toList <:+ target.iri := by
    refine ⟨s.dir way ++ last ++ List.replicate k '/', ?_⟩
    rw [hbelow.iri_eq, List.replicate_add]
    simp
  have hlong : "//".toList.length ≤ (pathOnly req.path).length := by
    rw [hrel.path]
    cases rel with
    | cons c rest => simp
    | nil =>
      have hlen := congrArg List.length (hbelow.iri_eq.symm.trans hrel.iri)
      have hroot := (Text.prefix_descend (storageRoot s.baseUrl) way).length_le
      simp only [dir, List.length_append, List.length_replicate, List.length_nil] at hlen
      omega
  have hsuffix : "//".toList <:+ pathOnly req.path :=
    List.suffix_of_suffix_length_le (hiri ▸ hend) (List.suffix_append _ _) hlong
  exact hpath (hsuffix.isInfix.trans (List.takeWhile_prefix _).isInfix)

theorem parentContainer_dir {segs : List Text} {seg : Text}
    (h : ∀ x ∈ segs ++ [seg], IsSegment x) :
    parentContainer (s.dir (segs ++ [seg])) = some (s.dir segs) := by
  have hbelow : Below s (s.dir (segs ++ [seg])) segs seg 1 :=
    ⟨fun x hx => h x (List.mem_append_left _ hx), h seg (by simp), dir_concat _ _⟩
  exact hbelow.parentContainer_eq

/-- **Steps that respect the filing**: a record is stored in its own container or in place of
one that was found, and is removed with the edge to it. -/
def Proper (root : Iri) (seen : List (Event storeSig)) : StoreOp → Prop
  | .putMeta x _ => SawRecord seen x ∨ isAclResource x = true ∨ x = root
  | .createChild c x _ => parentContainer x = some c ∧ isAclResource x = false
  | .removeChild c x => parentContainer x = some c
  | .deleteMeta x => x.getLast? ≠ some '/' ∧ (isAclResource x = true ∨
      ∃ c, parentContainer x = some c ∧ seen.getLast? = some ⟨.removeChild c x, .ok ()⟩)
  | .deleteMetaIfEmpty x p => p = parentContainer x
  | _ => True

theorem removalParent_eq (h : isAclResource target.iri = false) :
    removalParent target = parentContainer target.iri := by
  simp [removalParent, h]

variable {o : StoreOp} {i : Index} {u w : World} {x : Iri}

theorem Justified.proper (h : Justified s req seen o) (hpath : ¬ "//".toList <:+: req.path) :
    Proper (storageRoot s.baseUrl) seen o := by
  cases h with
  | @passive o h => cases o <;> trivial
  | replace _ _ hfound => exact .inl hfound
  | acl _ hacl => exact .inr (.inl hacl)
  | root _ _ => exact .inr (.inr rfl)
  | orphan h _ hparent =>
    rcases located_once h.parsed hpath with hroot | ⟨way, last, slashes, hbelow, -⟩
    · exact .inr (.inr (hroot.trans dir_nil))
    · rw [hbelow.parentContainer_eq] at hparent
      cases hparent
  | @ancestor target parent container _ h hnot hway _ _ =>
    refine ⟨?_, not_acl_of_getLast? (getLast?_of_mem_ancestorsOf hway)⟩
    rcases located_once h.parsed hpath with hroot | ⟨way, last, slashes, hbelow, hone⟩
    · rw [hroot, ancestorsOf_root] at hway
      cases hway
    · obtain ⟨before, seg, after, hsplit, rfl, rfl⟩ := hbelow.mem_ancestorsOf.mp hway
      refine parentContainer_dir fun x hx => hbelow.segments x ?_
      have hin : x ∈ before ++ seg :: after := by
        rw [List.append_cons]
        exact List.mem_append_left _ hx
      rw [← hsplit] at hin
      obtain rfl | rfl : slashes = 0 ∨ slashes = 1 := by omega
      · exact List.mem_append_left _ (by simpa using hin)
      · rwa [List.replicate_one, List.append_cons, List.dropLast_concat] at hin
  | settle _ hnot hparent _ => exact ⟨hparent, hnot⟩
  | @mint container child _ _ hparsed hcontainer hminted _ _ =>
    refine ⟨?_, hminted.notAcl⟩
    have hsegs : ∃ segs, (∀ seg ∈ segs, IsSegment seg) ∧ container.iri = s.dir segs := by
      rcases located_once hparsed hpath with hroot | ⟨way, last, slashes, hbelow, hone⟩
      · exact ⟨[], by simp, hroot⟩
      · exact ⟨way ++ [last], hbelow.segments,
          hbelow.container hone (container_getLast? hparsed hcontainer)⟩
    obtain ⟨segs, hsegs, hname⟩ := hsegs
    rw [hname] at hminted ⊢
    obtain ⟨seg, slashes, hbelow, -⟩ := hminted.below hsegs
    exact hbelow.parentContainer_eq
  | @unlink target parent _ _ hparent =>
    unfold removalParent at hparent
    split_ifs at hparent
    exact hparent
  | @remove target h hdoc hunlinked =>
    have hslash := notContainer_getLast? h.parsed hdoc
    refine ⟨hslash, ?_⟩
    cases hacl : isAclResource target.iri with
    | true => exact .inl rfl
    | false =>
      rw [removalParent_eq hacl] at hunlinked
      rcases located_once h.parsed hpath with hroot | ⟨way, last, slashes, hbelow, -⟩
      · exact absurd (hroot ▸ getLast?_dir []) hslash
      · exact .inr ⟨_, hbelow.parentContainer_eq, hunlinked _ hbelow.parentContainer_eq⟩
  | removeContainer h hcontainer =>
    exact removalParent_eq (not_acl_of_getLast? (container_getLast? h.parsed hcontainer))

/-! ## §2 The index -/

/-- **Containment**: what is stored is listed by its container, and what is listed is stored. -/
structure Contained (s : LdpState) (i : Index) : Prop where
  listed : ∀ x, (i.meta? x).isSome → x ≠ storageRoot s.baseUrl → isAclResource x = false →
    ∃ c, parentContainer x = some c ∧ x ∈ i.childrenOf c
  indexed : ∀ c x, x ∈ i.childrenOf c → (i.meta? x).isSome
  placed : ∀ c x, x ∈ i.childrenOf c → parentContainer x = some c ∧ isAclResource x = false

/-- Containment while some names are between the removal of their edge and of their record. -/
structure Filed (root : Iri) (pending : Iri → Prop) (i : Index) : Prop where
  listed : ∀ x, (i.meta? x).isSome → x ≠ root → isAclResource x = false →
    pending x ∨ ∃ c, parentContainer x = some c ∧ x ∈ i.childrenOf c
  indexed : ∀ c x, x ∈ i.childrenOf c → (i.meta? x).isSome
  placed : ∀ c x, x ∈ i.childrenOf c → parentContainer x = some c ∧ isAclResource x = false

theorem Contained.filed (h : Contained s i) (pending : Iri → Prop) :
    Filed (storageRoot s.baseUrl) pending i :=
  ⟨fun x hx hroot hacl => .inr (h.listed x hx hroot hacl), h.indexed, h.placed⟩

namespace Filed

variable {root c x : Iri} {pending later : Iri → Prop} {i : Index} {m : ResourceMeta}

theorem contained (h : Filed (storageRoot s.baseUrl) pending i) (hnone : ∀ x, ¬ pending x) :
    Contained s i :=
  ⟨fun x hx hroot hacl => (h.listed x hx hroot hacl).resolve_left (hnone x), h.indexed, h.placed⟩

theorem mono (h : Filed root pending i) (hp : ∀ x, pending x → later x) : Filed root later i :=
  ⟨fun x hx hroot hacl => (h.listed x hx hroot hacl).imp_left (hp x), h.indexed, h.placed⟩

/-- Storing in place of a record, an ACL, or the root. -/
theorem put (h : Filed root pending i)
    (hx : (i.meta? x).isSome ∨ isAclResource x = true ∨ x = root) :
    Filed root pending (i.putMeta x m) where
  listed y hy hroot hacl := by
    rw [Index.meta?_putMeta] at hy
    split_ifs at hy with heq
    · subst heq
      rcases hx with hold | hx | hx
      · exact h.listed y hold hroot hacl
      · rw [hx] at hacl
        cases hacl
      · exact absurd hx hroot
    · exact h.listed y hy hroot hacl
  indexed d y hy := by
    rw [Index.meta?_putMeta]
    split_ifs
    · rfl
    · exact h.indexed d y hy
  placed d y hy := h.placed d y hy

/-- Storing in its own container. -/
theorem create (h : Filed root pending i) (hc : parentContainer x = some c)
    (hnot : isAclResource x = false) : Filed root pending ((i.putMeta x m).addChild c x) where
  listed y hy hroot hacl := by
    by_cases heq : y = x
    · subst heq
      exact .inr ⟨c, hc, (Index.mem_childrenOf_addChild _ _ _).mpr (.inr ⟨rfl, rfl⟩)⟩
    · rw [meta?_created, if_neg heq] at hy
      refine (h.listed y hy hroot hacl).imp_right ?_
      rintro ⟨d, hd, hin⟩
      exact ⟨d, hd, (Index.mem_childrenOf_addChild _ _ _).mpr (.inl hin)⟩
  indexed d y hy := by
    rw [meta?_created]
    rcases (Index.mem_childrenOf_addChild _ _ _).mp hy with hold | ⟨-, rfl⟩
    · split_ifs
      · rfl
      · exact h.indexed d y hold
    · rw [if_pos rfl]
      rfl
  placed d y hy := by
    rcases (Index.mem_childrenOf_addChild _ _ _).mp hy with hold | ⟨rfl, rfl⟩
    · exact h.placed d y hold
    · exact ⟨hc, hnot⟩

/-- Taking the edge to a record. -/
theorem unlink (h : Filed root pending i) (c x : Iri) :
    Filed root (fun y => pending y ∨ y = x) (i.removeChild c x) where
  listed y hy hroot hacl := by
    rw [Index.meta?_removeChild] at hy
    rcases h.listed y hy hroot hacl with hp | ⟨d, hd, hin⟩
    · exact .inl (.inl hp)
    · by_cases heq : y = x
      · exact .inl (.inr heq)
      · exact .inr ⟨d, hd, (Index.mem_childrenOf_removeChild _ _ _).mpr ⟨hin, fun hboth => heq hboth.2⟩⟩
  indexed d y hy := by
    rw [Index.meta?_removeChild]
    exact h.indexed d y ((Index.mem_childrenOf_removeChild _ _ _).mp hy).1
  placed d y hy := h.placed d y ((Index.mem_childrenOf_removeChild _ _ _).mp hy).1

/-- Only containers list anything. -/
theorem childrenOf_document (h : Filed root pending i) (hdoc : x.getLast? ≠ some '/') :
    i.childrenOf x = [] := by
  rw [List.eq_nil_iff_forall_not_mem]
  exact fun y hy => hdoc (parentContainer_some (h.placed x y hy).1).2

/-- Dropping the record of a name that nobody lists and that lists nothing. -/
theorem drop (h : Filed root pending i) (hempty : i.childrenOf x = [])
    (hfree : ∀ d, x ∉ i.childrenOf d) :
    Filed root (fun y => pending y ∧ y ≠ x) (i.deleteMeta x) where
  listed y hy hroot hacl := by
    rw [Index.meta?_deleteMeta] at hy
    split_ifs at hy with heq
    · cases hy
    · rcases h.listed y hy hroot hacl with hp | ⟨d, hd, hin⟩
      · exact .inl ⟨hp, heq⟩
      · refine .inr ⟨d, hd, ?_⟩
        rw [Index.childrenOf_deleteMeta]
        split_ifs with hdx
        · rw [← hempty, ← hdx]
          exact hin
        · exact hin
  indexed d y hy := by
    rw [Index.childrenOf_deleteMeta] at hy
    split_ifs at hy
    · cases hy
    · have hne : y ≠ x := by
        rintro rfl
        exact hfree d hy
      rw [Index.meta?_deleteMeta, if_neg hne]
      exact h.indexed d y hy
  placed d y hy := by
    rw [Index.childrenOf_deleteMeta] at hy
    split_ifs at hy
    · cases hy
    · exact h.placed d y hy

/-- Dropping an empty container with the edge to it: first the edge, then the record. -/
theorem dropEmpty (h : Filed root pending i) (hempty : i.childrenOf x = []) :
    Filed root pending (afterUnlink (i.deleteMeta x) x (parentContainer x)) where
  listed y hy hroot hacl := by
    rw [meta?_afterUnlink, Index.meta?_deleteMeta] at hy
    split_ifs at hy with heq
    · cases hy
    · refine (h.listed y hy hroot hacl).imp_right ?_
      rintro ⟨d, hd, hin⟩
      refine ⟨d, hd, mem_childrenOf_afterUnlink.mpr ⟨?_, fun hboth => heq hboth.2⟩⟩
      rw [Index.childrenOf_deleteMeta]
      split_ifs with hdx
      · rw [← hempty, ← hdx]
        exact hin
      · exact hin
  indexed d y hy := by
    obtain ⟨hin, hnot⟩ := mem_childrenOf_afterUnlink.mp hy
    rw [Index.childrenOf_deleteMeta] at hin
    split_ifs at hin
    · cases hin
    · have hne : y ≠ x := by
        rintro rfl
        exact hnot ⟨(h.placed d y hin).1, rfl⟩
      rw [meta?_afterUnlink, Index.meta?_deleteMeta, if_neg hne]
      exact h.indexed d y hin
  placed d y hy := by
    have hin := (mem_childrenOf_afterUnlink.mp hy).1
    rw [Index.childrenOf_deleteMeta] at hin
    split_ifs at hin
    · cases hin
    · exact h.placed d y hin

end Filed

/-- Only stored containers list anything, and nothing twice. -/
structure Sheltered (i : Index) : Prop where
  container : ∀ c x, x ∈ i.childrenOf c → (i.meta? c).isSome
  once : ∀ c, (i.childrenOf c).Nodup

namespace Sheltered

variable {c x : Iri} {i : Index} {m : ResourceMeta}

theorem put (h : Sheltered i) : Sheltered (i.putMeta x m) where
  container d y hy := by
    rw [Index.meta?_putMeta]
    split_ifs
    · rfl
    · exact h.container d y hy
  once := h.once

theorem add (h : Sheltered i) (hc : (i.meta? c).isSome) : Sheltered (i.addChild c x) where
  container d y hy := by
    rcases (Index.mem_childrenOf_addChild _ _ _).mp hy with hold | ⟨rfl, -⟩
    · exact h.container d y hold
    · exact hc
  once d := by
    unfold Index.addChild
    rw [Index.childrenOf]
    by_cases hd : d = c
    · subst hd
      rw [AList.lookup_insert, Option.getD_some]
      split_ifs with hmem
      · exact h.once d
      · rw [List.nodup_append]
        refine ⟨h.once d, by simp, ?_⟩
        rintro a ha b hb rfl
        exact hmem (List.mem_singleton.mp hb ▸ ha)
    · rw [AList.lookup_insert_ne hd]
      exact h.once d

theorem remove (h : Sheltered i) : Sheltered (i.removeChild c x) where
  container d y hy := by
    rw [Index.meta?_removeChild]
    exact h.container d y ((Index.mem_childrenOf_removeChild _ _ _).mp hy).1
  once d := by
    unfold Index.removeChild
    cases hl : i.children.lookup c with
    | none => exact h.once d
    | some kids =>
      rw [Index.childrenOf]
      by_cases hd : d = c
      · subst hd
        have hkids := h.once d
        rw [Index.childrenOf, hl] at hkids
        rw [AList.lookup_insert]
        exact hkids.filter _
      · rw [AList.lookup_insert_ne hd]
        exact h.once d

theorem drop (h : Sheltered i) : Sheltered (i.deleteMeta x) where
  container d y hy := by
    rw [Index.childrenOf_deleteMeta] at hy
    split_ifs at hy with heq
    · cases hy
    · rw [Index.meta?_deleteMeta, if_neg heq]
      exact h.container d y hy
  once d := by
    rw [Index.childrenOf_deleteMeta]
    split_ifs
    · exact List.nodup_nil
    · exact h.once d

theorem unlink (h : Sheltered i) (parent : Option Iri) : Sheltered (afterUnlink i x parent) := by
  cases parent with
  | none => exact h
  | some p => exact h.remove

end Sheltered

/-! ## §3 One step -/

/-- The names whose record is still to go, after a step. -/
def pendingAfter (pending : Iri → Prop) : StoreOp → Iri → Prop
  | .removeChild _ x => fun y => pending y ∨ y = x
  | .deleteMeta x => fun y => pending y ∧ y ≠ x
  | _ => pending

/-- **A proper step keeps the filing**, if a record that is written in place is there and a
record that is dropped is not listed. -/
theorem Filed.step {root : Iri} {pending : Iri → Prop} (h : Filed root pending u.backend.index)
    (hf : ∀ iri, u.faults.indexWrite iri = none) (ho : Proper root seen o)
    (hrep : ∀ x m, o = .putMeta x m → isAclResource x = false → x ≠ root → (u.backend.index.meta? x).isSome)
    (hdel : ∀ x, o = .deleteMeta x → isAclResource x = false → ∀ d, x ∉ u.backend.index.childrenOf d)
    :
    Filed root (pendingAfter pending o) (World.sem u o).2.backend.index := by
  cases o with
  | putMeta x m =>
    simp only [World.sem, hf x]
    refine h.put ?_
    cases hacl : isAclResource x with
    | true => exact .inr (.inl rfl)
    | false =>
      by_cases hroot : x = root
      · exact .inr (.inr hroot)
      · exact .inl (hrep x m rfl hacl hroot)
  | createChild c x m =>
    simp only [World.sem, hf x, Index.createChild]
    cases u.backend.index.meta? c with
    | none => exact h
    | some _ => exact h.create ho.1 ho.2
  | removeChild c x =>
    simp only [World.sem, hf c]
    exact h.unlink c x
  | deleteMeta x =>
    simp only [World.sem, hf x]
    refine h.drop (h.childrenOf_document ho.1) fun d hin => ?_
    exact hdel x rfl (h.placed d x hin).2 d hin
  | deleteMetaIfEmpty x p =>
    obtain rfl : p = parentContainer x := ho
    simp only [World.sem, hf x]
    rcases deleteMetaIfEmpty_cases u.backend.index x (parentContainer x) with
      ⟨o, -, heq⟩ | ⟨hempty, heq⟩
    · rw [heq]
      exact h
    · rw [heq]
      exact h.dropEmpty hempty
  | _ =>
    rw [index_passive]
    · exact h
    · trivial

/-- Every step keeps the listings in stored containers. -/
theorem Sheltered.step (h : Sheltered u.backend.index) (o : StoreOp) :
    Sheltered (World.sem u o).2.backend.index := by
  cases index_step u o with
  | same _ hi => exact hi ▸ h
  | put x m _ hi => exact hi ▸ h.put
  | create c x m _ hc hi =>
    rw [hi]
    refine h.put.add ?_
    rw [Index.meta?_putMeta]
    split_ifs
    · rfl
    · exact hc
  | unlink c x _ hi => exact hi ▸ h.remove
  | drop x _ hi => exact hi ▸ h.drop
  | dropEmpty x parent _ _ hi => exact hi ▸ h.drop.unlink parent

/-- A record that no step removes stays. -/
theorem isSome_step (h : (u.backend.index.meta? x).isSome) (hkeep : o ≠ .deleteMeta x)
    (hkeep' : ∀ p, o ≠ .deleteMetaIfEmpty x p) :
    ((World.sem u o).2.backend.index.meta? x).isSome := by
  rcases meta?_step u o x with hsame | ⟨m, -, hm⟩ | ⟨hdel | ⟨p, hdel⟩, -⟩
  · rwa [hsame]
  · rw [hm]
    rfl
  · exact absurd hdel hkeep
  · exact absurd hdel (hkeep' p)

/-- A name that no step stores is not listed anew. -/
theorem not_listed_step {c : Iri} (h : x ∉ u.backend.index.childrenOf c)
    (hkeep : ∀ d m, o ≠ .createChild d x m) :
    x ∉ (World.sem u o).2.backend.index.childrenOf c := by
  intro hin
  refine h ?_
  have hdropped : ∀ {y : Iri}, x ∈ (u.backend.index.deleteMeta y).childrenOf c →
      x ∈ u.backend.index.childrenOf c := by
    intro y hin
    rw [Index.childrenOf_deleteMeta] at hin
    split_ifs at hin
    · cases hin
    · exact hin
  cases index_step u o with
  | same _ hi => rwa [hi] at hin
  | put y m _ hi => rwa [hi] at hin
  | create d y m he _ hi =>
    rw [hi] at hin
    rcases (Index.mem_childrenOf_addChild _ _ _).mp hin with hold | ⟨-, rfl⟩
    · exact hold
    · exact absurd (Event.mk.inj he).1 (hkeep d m)
  | unlink d y _ hi =>
    rw [hi] at hin
    exact ((Index.mem_childrenOf_removeChild _ _ _).mp hin).1
  | drop y _ hi => exact hdropped (hi ▸ hin)
  | dropEmpty y parent _ _ hi =>
    rw [hi] at hin
    exact hdropped (mem_childrenOf_afterUnlink.mp hin).1

/-! ## §4 Runs side by side -/

section
variable {ι : Type} [DecidableEq ι]

/-- A move that removes the record of a name. -/
def Removes (x : Iri) (m : Move ι storeSig World) : Prop :=
  ∃ i, m.actor = some (i, .deleteMeta x) ∨ ∃ p, m.actor = some (i, .deleteMetaIfEmpty x p)

/-- A move that stores the record of a name. -/
def Stores (x : Iri) (m : Move ι storeSig World) : Prop :=
  ∃ i r, m.actor = some (i, .putMeta x r) ∨ ∃ c, m.actor = some (i, .createChild c x r)

/-- **Steady runs**: no record is removed between a write's lookup that found it and the write,
and none is stored between the removal of the edge to it and its own removal. -/
structure Steady (tr : List (Move ι storeSig World)) : Prop where
  found : ∀ i x r r' t₁ a t₂ b t₃, tr = t₁ ++ a :: (t₂ ++ b :: t₃) →
    a.eventOf World.sem i = some ⟨.getMeta x, .ok r⟩ → b.actor = some (i, .putMeta x r') →
      isAclResource x = false → ∀ m ∈ t₂, ¬ Removes x m
  unlinked : ∀ i c x t₁ a t₂ b t₃, tr = t₁ ++ a :: (t₂ ++ b :: t₃) →
    a.eventOf World.sem i = some ⟨.removeChild c x, .ok ()⟩ → b.actor = some (i, .deleteMeta x) →
      ∀ m ∈ t₂, ¬ Stores x m

/-- A request has taken the edge to the name and is about to drop the record. -/
def Unlinked (t : List (Move ι storeSig World)) (x : Iri) : Prop :=
  ∃ i c, (ownEvents World.sem i t).getLast? = some ⟨.removeChild c x, .ok ()⟩

variable {P P' : ι → Server Response} {w v : World} {tr : List (Move ι storeSig World)}

variable {m : Move ι storeSig World} {i : ι} {x : Iri}

/-- What a step leaves pending is pending after it. -/
theorem unlinked_concat {t : List (Move ι storeSig World)} {o : StoreOp}
    (hactor : m.actor = some (i, o)) (hf : ∀ iri, m.before.faults.indexWrite iri = none)
    (hnext : FollowsUp (ownEvents World.sem i t) o) (h : pendingAfter (Unlinked t) o x) :
    Unlinked (t ++ [m]) x := by
  -- a request that was about to drop a record still is, unless it was this one
  have hkept : Unlinked t x → o ≠ .deleteMeta x → Unlinked (t ++ [m]) x := by
    rintro ⟨j, c, hlast⟩ hne
    refine ⟨j, c, ?_⟩
    by_cases hji : i = j
    · subst hji
      exact absurd (hnext c x hlast) hne
    · have hnone : m.eventOf World.sem j = none := by simp [Move.eventOf, hactor, hji]
      rw [Interleaves.ownEvents_concat, hnone]
      simpa using hlast
  cases o with
  | removeChild c y =>
    rcases h with hold | rfl
    · exact hkept hold (by simp)
    · refine ⟨i, c, ?_⟩
      have hevent : m.eventOf World.sem i = some ⟨.removeChild c x, .ok ()⟩ := by
        simp [Move.eventOf, hactor, World.sem, hf]
      rw [Interleaves.ownEvents_concat, hevent]
      simp
  | deleteMeta y =>
    refine hkept h.1 ?_
    rintro ⟨⟩
    exact h.2 rfl
  | _ => exact hkept h (by simp)

variable (hrun : Interleaves World.sem (fun _ _ => False) P w tr P' v)
include hrun

theorem faults_before (hm : m ∈ tr) : m.before.faults = w.faults := by
  refine hrun.holds_before (fun u => u.faults = w.faults) (fun m hm h => ?_) rfl m hm
  obtain ⟨i, o, -, hafter⟩ := hrun.own_move hm
  rw [hafter, faults_step, h]

/-- **In a steady run a record that is written in place is there.** -/
theorem found_at {t₁ t₂ : List (Move ι storeSig World)} (hsteady : Steady tr)
    (htr : tr = t₁ ++ m :: t₂) {r : ResourceMeta} (hactor : m.actor = some (i, .putMeta x r))
    (hacl : isAclResource x = false) (hsaw : SawRecord (ownEvents World.sem i t₁) x) :
    (m.before.backend.index.meta? x).isSome := by
  obtain ⟨old, hmem⟩ := hsaw
  obtain ⟨l₁, l₂, hsplit⟩ := List.append_of_mem hmem
  obtain ⟨u₁, a, u₂, rfl, -, ha, -⟩ := ownEvents_split hsplit
  have htr' : tr = u₁ ++ a :: (u₂ ++ m :: t₂) := by rw [htr]; simp
  have hfree := hsteady.found i x old r u₁ a u₂ m t₂ htr' ha hactor hacl
  refine hrun.keeps_between (fun u => (u.backend.index.meta? x).isSome) htr' (fun b hb hmem h => ?_) ?_
  · obtain ⟨j, o, hact, hafter⟩ := hrun.own_move hmem
    rw [hafter]
    refine isSome_step h ?_ ?_
    · rintro rfl
      exact hfree b hb ⟨j, .inl hact⟩
    · rintro p rfl
      exact hfree b hb ⟨j, .inr ⟨p, hact⟩⟩
  · -- the lookup found the record, and changed nothing
    obtain ⟨hact, hanswer⟩ := Move.eventOf_eq_some ha
    rw [hrun.after_eq (by rw [htr']; simp) hact]
    exact Option.isSome_of_eq_some (World.meta?_of_found hanswer.symm)

/-- **In a steady run a record that is dropped is not listed.** -/
theorem not_listed_at {t₁ t₂ : List (Move ι storeSig World)}
    (hf : ∀ iri, w.faults.indexWrite iri = none) (hsteady : Steady tr) (htr : tr = t₁ ++ m :: t₂)
    {c : Iri} (hactor : m.actor = some (i, .deleteMeta x))
    (hlast : (ownEvents World.sem i t₁).getLast? = some ⟨.removeChild c x, .ok ()⟩) :
    x ∉ m.before.backend.index.childrenOf c := by
  obtain ⟨l₁, hsplit⟩ := List.getLast?_eq_some_iff.mp hlast
  obtain ⟨u₁, a, u₂, rfl, -, ha, -⟩ := ownEvents_split hsplit
  have htr' : tr = u₁ ++ a :: (u₂ ++ m :: t₂) := by rw [htr]; simp
  have hfree := hsteady.unlinked i c x u₁ a u₂ m t₂ htr' ha hactor
  have hfa := faults_before hrun (m := a) (by rw [htr']; simp)
  refine hrun.keeps_between (fun u => x ∉ u.backend.index.childrenOf c) htr' (fun b hb hmem h => ?_) ?_
  · obtain ⟨j, o, hact, hafter⟩ := hrun.own_move hmem
    rw [hafter]
    refine not_listed_step h ?_
    rintro d r rfl
    exact hfree b hb ⟨j, r, .inr ⟨d, hact⟩⟩
  · obtain ⟨hact, -⟩ := Move.eventOf_eq_some ha
    rw [hrun.after_eq (by rw [htr']; simp) hact]
    simp only [World.sem, hfa, hf c]
    intro hin
    exact ((Index.mem_childrenOf_removeChild _ _ _).mp hin).2 ⟨rfl, rfl⟩

end

/-- The filing at every point of a steady run of requests. -/
theorem filed_along {ι : Type} [DecidableEq ι] {reqs : ι → Request} {P' : ι → Server Response}
    {v : World} {tr : List (Move ι storeSig World)}
    (hrun : Interleaves World.sem (fun _ _ => False) (fun i => s.serve (reqs i)) w tr P' v)
    (hpaths : ∀ i, ¬ "//".toList <:+: (reqs i).path) (hf : ∀ iri, w.faults.indexWrite iri = none)
    (hsteady : Steady tr) (h₀ : Contained s w.backend.index) :
    Filed (storageRoot s.baseUrl) (Unlinked tr) v.backend.index := by
  refine hrun.along (J := fun t u => Filed (storageRoot s.baseUrl) (Unlinked t) u.backend.index)
    (h₀.filed _) fun t₁ m t₂ htr h => ?_
  have hm : m ∈ tr := by rw [htr]; simp
  obtain ⟨i, o, hactor, hafter⟩ := hrun.own_move hm
  have hfm : ∀ iri, m.before.faults.indexWrite iri = none := by
    rw [faults_before hrun hm]
    exact hf
  have hrun' := hrun
  rw [htr] at hrun'
  -- the request has a reason for the step, and drops the records whose edges it has taken
  have hproper : Proper (storageRoot s.baseUrl) (ownEvents World.sem i t₁) o :=
    (hrun'.heeds_at hactor (conducts_serve s (reqs i))).proper (hpaths i)
  have hnext : FollowsUp (ownEvents World.sem i t₁) o :=
    hrun'.heeds_at hactor (tidies_serve s (reqs i) (by simp [Clear]))
  rw [hafter]
  refine (h.step hfm hproper ?_ ?_).mono fun x => unlinked_concat hactor hfm hnext
  · rintro x r rfl hacl hroot
    rcases hproper with hsaw | hacl' | hroot'
    · exact found_at hrun hsteady htr hactor hacl hsaw
    · rw [hacl] at hacl'
      cases hacl'
    · exact absurd hroot' hroot
  · rintro x rfl hacl d hin
    obtain ⟨-, hacl' | ⟨c, hparent, hlast⟩⟩ := hproper
    · rw [hacl] at hacl'
      cases hacl'
    · obtain rfl : d = c := Option.some.inj ((h.placed d x hin).1.symm.trans hparent)
      exact not_listed_at hrun hf hsteady htr hactor hlast hin

theorem containment_of_steady {ι : Type} [DecidableEq ι] (reqs : ι → Request)
    (hpaths : ∀ i, ¬ "//".toList <:+: (reqs i).path) {v : World}
    (hf : ∀ iri, w.faults.indexWrite iri = none) (h₀ : Contained s w.backend.index)
    {tr : List (Move ι storeSig World)} {result : ι → Except ServerError Response}
    (hrun : Interleaves World.sem (fun _ _ => False) (fun i => s.serve (reqs i)) w tr (fun i => .ret (result i)) v)
    (hsteady : Steady tr) : Contained s v.backend.index := by
  refine (filed_along hrun hpaths hf hsteady h₀).contained ?_
  -- a request that has finished has dropped what it had unlinked
  rintro x ⟨i, c, hlast⟩
  have hclear : Clear (ownEvents World.sem i tr) := by
    simpa using (tidies_serve s (reqs i) (by simp [Clear])).of_path (hrun.path i)
  exact hclear c x hlast

/-- **Containment under concurrency**: any number of requests, on paths without adjacent slashes
and interleaved step by step, leave the listings and the records in correspondence when all
have finished, if the run is steady. -/
theorem containment_interleaved (s : LdpState) {ι : Type} [DecidableEq ι] (reqs : ι → Request)
    (hpaths : ∀ i, ¬ "//".toList <:+: (reqs i).path) (w v : World)
    (hf : ∀ iri, w.faults.indexWrite iri = none) (h₀ : Contained s w.backend.index)
    (tr : List (Move ι storeSig World)) (result : ι → Except ServerError Response)
    (hrun : Interleaves World.sem (fun _ _ => False) (fun i => s.serve (reqs i)) w tr
      (fun i => .ret (result i)) v)
    (hsteady : Steady tr) :
    (∀ x, (v.backend.index.meta? x).isSome → x ≠ storageRoot s.baseUrl →
      isAclResource x = false →
        ∃ c, parentContainer x = some c ∧ x ∈ v.backend.index.childrenOf c) ∧
    ∀ c x, x ∈ v.backend.index.childrenOf c → (v.backend.index.meta? x).isSome := by
  have hv := containment_of_steady reqs hpaths hf h₀ hrun hsteady
  exact ⟨hv.listed, hv.indexed⟩

/-! ## §5 One request after the other -/

/-- Only `PUT`, `PATCH` and `POST` store a record. -/
theorem Justified.method_of_stores (h : Justified s req seen o) {m : ResourceMeta}
    (ho : o = .putMeta x m ∨ ∃ c, o = .createChild c x m) :
    req.method ≠ .delete := by
  intro hdel
  have hmaking : ∀ {target}, ¬ Making s req seen target := by
    intro target hmaking
    rcases hmaking.method with h | h <;> rw [hdel] at h <;> cases h
  cases h with
  | passive h => rcases ho with rfl | ⟨c, rfl⟩ <;> exact h
  | replace _ hmethod _ => rcases hmethod with h | h <;> rw [hdel] at h <;> cases h
  | acl h _ | root h _ | orphan h _ _ | ancestor h _ _ _ _ | settle h _ _ _ => exact hmaking h
  | mint hmethod _ _ _ _ _ =>
    rw [hdel] at hmethod
    cases hmethod
  | unlink _ _ _ | remove _ _ _ | removeContainer _ _ => rcases ho with ho | ⟨c, ho⟩ <;> cases ho

/-- Only `DELETE` removes a record. -/
theorem Justified.method_of_removes (h : Justified s req seen o)
    (ho : o = .deleteMeta x ∨ ∃ p, o = .deleteMetaIfEmpty x p) : req.method = .delete := by
  cases h with
  | passive h =>
    refine absurd h ?_
    rcases ho with rfl | ⟨p, rfl⟩ <;> exact id
  | unlink h _ _ | remove h _ _ | removeContainer h _ => exact h.method
  | _ => rcases ho with ho | ⟨p, ho⟩ <;> cases ho

section
variable {ι : Type} [DecidableEq ι] {reqs : ι → Request} {P' : ι → Server Response} {w v : World}
  {tr : List (Move ι storeSig World)}

/-- A move that stores a record is not a `DELETE`'s, one that removes a record is. -/
theorem method_of_move
    (hrun : Interleaves World.sem (fun _ _ => False) (fun i => s.serve (reqs i)) w tr P' v)
    {m : Move ι storeSig World} (hm : m ∈ tr) {x : Iri} :
    (Stores x m → ∃ i, (reqs i).method ≠ .delete) ∧ (Removes x m → ∃ i, (reqs i).method = .delete) := by
  have hreason : ∀ {i o}, m.actor = some (i, o) → ∃ seen, Justified s (reqs i) seen o := by
    intro i o hactor
    obtain ⟨t₁, t₂, rfl⟩ := List.append_of_mem hm
    exact ⟨_, hrun.heeds_at hactor (conducts_serve s (reqs i))⟩
  constructor
  · rintro ⟨i, r, hput | ⟨c, hcreate⟩⟩
    · obtain ⟨seen, hj⟩ := hreason hput
      exact ⟨i, hj.method_of_stores (.inl rfl)⟩
    · obtain ⟨seen, hj⟩ := hreason hcreate
      exact ⟨i, hj.method_of_stores (.inr ⟨c, rfl⟩)⟩
  · rintro ⟨i, hdelete | ⟨p, hempty⟩⟩
    · obtain ⟨seen, hj⟩ := hreason hdelete
      exact ⟨i, hj.method_of_removes (.inl rfl)⟩
    · obtain ⟨seen, hj⟩ := hreason hempty
      exact ⟨i, hj.method_of_removes (.inr ⟨p, rfl⟩)⟩

/-- **Where all requests agree on removing or not, the run is steady**: no `DELETE` among them,
or nothing else. -/
theorem steady_of_uniform
    (hrun : Interleaves World.sem (fun _ _ => False) (fun i => s.serve (reqs i)) w tr P' v)
    (huniform : (∀ i, (reqs i).method ≠ .delete) ∨ ∀ i, (reqs i).method = .delete) :
    Steady tr := by
  have hnot : ∀ {x : Iri} {a b : Move ι storeSig World}, a ∈ tr → b ∈ tr →
      Stores x a → ¬ Removes x b := by
    intro x a b ha hb hstore hremove
    obtain ⟨i, hi⟩ := (method_of_move hrun ha).1 hstore
    obtain ⟨j, hj⟩ := (method_of_move hrun hb).2 hremove
    rcases huniform with hnone | hall
    · exact hnone j hj
    · exact hi (hall i)
  constructor
  · rintro i x r r' t₁ a t₂ b t₃ htr - hb - m hm
    exact hnot (by rw [htr]; simp) (by rw [htr]; simp [hm]) ⟨i, r', .inl hb⟩
  · rintro i c x t₁ a t₂ b t₃ htr - hb m hm hstore
    exact hnot (by rw [htr]; simp [hm]) (by rw [htr]; simp) hstore ⟨i, .inl hb⟩

end

/-- One request keeps containment. -/
theorem Contained.handle (h : Contained s w.backend.index)
    (hf : ∀ iri, w.faults.indexWrite iri = none) (hpath : ¬ "//".toList <:+: req.path) :
    Contained s (s.handle req w).2.backend.index := by
  have hrun := Interleaves.alone World.sem (fun _ _ => False) (fun _ : Unit => s.serve req) w ()
  have hdone : Function.update (fun _ : Unit => s.serve req) ()
      (.ret ((s.serve req).run World.sem w).1) =
      fun _ => .ret ((s.serve req).run World.sem w).1 := by
    funext i
    simp
  have huniform : (Unit → req.method ≠ .delete) ∨ (Unit → req.method = .delete) := by
    by_cases hmethod : req.method = .delete
    · exact .inr fun _ => hmethod
    · exact .inl fun _ => hmethod
  exact containment_of_steady (fun _ => req) (fun _ => hpath) hf h hrun
    (@steady_of_uniform s Unit _ (fun _ => req) _ _ _ _ hrun huniform)

theorem faults_handle (req : Request) (w : World) : (s.handle req w).2.faults = w.faults :=
  faults_exec _ _

theorem Contained.run (h : Contained s w.backend.index) (hf : ∀ iri, w.faults.indexWrite iri = none)
    {reqs : List Request} (hpaths : ∀ r ∈ reqs, ¬ "//".toList <:+: r.path) :
    Contained s (s.run reqs w).backend.index := by
  induction reqs generalizing w with
  | nil => exact h
  | cons req rest ih =>
    obtain ⟨hpath, hrest⟩ := List.forall_mem_cons.mp hpaths
    exact ih (h.handle hf hpath) (by rwa [faults_handle]) hrest

/-- Any sequence of requests keeps the listings in stored containers. -/
theorem Sheltered.run (h : Sheltered w.backend.index) (reqs : List Request) :
    Sheltered (s.run reqs w).backend.index := by
  induction reqs generalizing w with
  | nil => exact h
  | cons req rest ih =>
    have huses := Heeds.uses (P := fun _ => True) (conducts_serve s req) fun _ _ _ => trivial
    refine ih (huses.run_rel World.sem (fun u u' => Sheltered u.backend.index →
      Sheltered u'.backend.index) (fun _ => id) (fun h₁ h₂ h => h₂ (h₁ h)) (fun u o _ h => ?_) w h)
    exact h.step o

/-- A storage that holds only a root container and ACLs. -/
structure Fresh (s : LdpState) (i : Index) : Prop where
  only : ∀ x, (i.meta? x).isSome → x = storageRoot s.baseUrl ∨ isAclResource x = true
  empty : ∀ c, i.childrenOf c = []

theorem Fresh.contained (h : Fresh s i) : Contained s i where
  listed x hx hroot hacl := by
    rcases h.only x hx with hx | hx
    · exact absurd hx hroot
    · rw [hacl] at hx
      cases hx
  indexed c x hx := by
    rw [h.empty c] at hx
    cases hx
  placed c x hx := by
    rw [h.empty c] at hx
    cases hx

theorem Fresh.sheltered (h : Fresh s i) : Sheltered i where
  container c x hx := by
    rw [h.empty c] at hx
    cases hx
  once c := by
    rw [h.empty c]
    exact List.nodup_nil

theorem Fresh.put (h : Fresh s i) {m : ResourceMeta}
    (hx : x = storageRoot s.baseUrl ∨ isAclResource x = true) : Fresh s (i.putMeta x m) where
  only y hy := by
    rw [Index.meta?_putMeta] at hy
    split_ifs at hy with heq
    · rw [heq]
      exact hx
    · exact h.only y hy
  empty := h.empty

theorem fresh_write (hc : Consistent w) (h : Fresh s w.backend.index) {iri : Iri}
    (hiri : iri = storageRoot s.baseUrl ∨ isAclResource iri = true) (body : Bytes)
    (contentType : Text) :
    Spec (do let _ ← write iri body contentType : Server Unit) w fun _ w' =>
      Consistent w' ∧ Fresh s w'.backend.index := by
  refine Spec.bind (spec_write hc iri body contentType) ?_ ?_
  · rintro m v ⟨hv, hw, -⟩
    refine ⟨hv, ?_⟩
    show Fresh s v.backend.index
    rw [hw.rewrites.index]
    exact h.put hiri
  · rintro e v ⟨hv, hw⟩
    refine ⟨hv, ?_⟩
    rw [hw.rewrites.index]
    exact h

/-- A storage seeded with a root and ACLs is fresh. -/
theorem fresh_seeded (docs : List (Iri × Bytes))
    (hdocs : ∀ doc ∈ docs, isAclResource doc.1 = true) :
    Fresh s (World.seeded (storageRoot s.baseUrl) docs).backend.index := by
  have hboot : Fresh s World.boot.backend.index := by
    refine ⟨fun x hx => ?_, fun c => rfl⟩
    cases hx
  have hspec : Spec (seedRoot (storageRoot s.baseUrl) docs) World.boot fun _ w' =>
      Consistent w' ∧ Fresh s w'.backend.index := by
    induction docs with
    | nil =>
      refine Spec.exists_bind ?_ fun e => ⟨consistent_boot, hboot⟩
      exact fresh_write consistent_boot hboot (.inl rfl) _ _
    | cons doc docs ih =>
      obtain ⟨hdoc, hrest⟩ := List.forall_mem_cons.mp hdocs
      refine Spec.bind (ih hrest) ?_ fun e w' h => h
      rintro ⟨⟩ w' ⟨hc, h⟩
      exact fresh_write hc h (.inr hdoc) _ _
  exact hspec.2

/-- The steps of the `DELETE` of a container. -/
def Emptying (target : LdpTarget) (o : StoreOp) : Prop :=
  Reads o ∨ (∃ topic frame, o = .fanOut topic frame) ∨
    ∃ parent, o = .deleteMetaIfEmpty target.iri parent

theorem uses_deleteContainer (hparsed : parseTarget s.baseUrl req.path = .ok target)
    (hcontainer : target.isContainer = true) :
    (s.deleteHandler req).Uses (S := storeSig) (Emptying target) := by
  have hreads : ∀ {α : Type} {p : Server α}, p.Uses (S := storeSig) Reads →
      p.Uses (S := storeSig) (Emptying target) := fun hp => hp.mono fun _ => .inl
  have hremoval : (s.authorizeRemoval target.iri req.requester).Uses (S := storeSig) Reads :=
    (perused_onNearest target.iri .write req.requester).reads
  unfold deleteHandler
  rw [hparsed]
  show Program.Uses _ (s.authorizeMode target.iri (deleteMode target) req.requester >>= _)
  refine Program.Uses.bind (hreads (perused_authorizeMode _ _ _).reads) fun granted => ?_
  refine Program.Uses.bind (hreads hremoval) fun _ => ?_
  refine Program.Uses.bind (Program.Uses.ofExcept _) fun _ => ?_
  refine Program.Uses.bind (hreads (reads_meta? _)) fun current => ?_
  cases current with
  | none => exact Program.Uses.throw _
  | some m =>
    refine Program.Uses.bind (Program.Uses.ofExcept _) fun _ => ?_
    rw [hcontainer]
    refine Program.Uses.bind (Program.Uses.bind ?_ fun r => uses_orStorage r) fun outcome => ?_
    · exact uses_perform (.inr (.inr ⟨_, rfl⟩))
    cases outcome with
    | deleted =>
      refine Program.Uses.bind (Program.Uses.bind ?_ fun _ => ?_) fun _ => Program.Uses.pure _
      · exact uses_perform (.inr (.inl ⟨_, _, rfl⟩))
      · split
        · exact uses_perform (.inr (.inl ⟨_, _, rfl⟩))
        · exact uses_perform (.inr (.inl ⟨_, _, rfl⟩))
        · exact Program.Uses.pure _
    | notEmpty => exact Program.Uses.throw _
    | notFound => exact Program.Uses.throw _

/-- **A container with members stays**: its `DELETE` changes neither records nor bytes. -/
theorem delete_nonempty (hparsed : parseTarget s.baseUrl req.path = .ok target)
    (hcontainer : target.isContainer = true) (hmethod : req.method = .delete)
    (hmembers : w.backend.index.childrenOf target.iri ≠ []) :
    (s.handle req w).2.backend = w.backend := by
  have hserve : s.serve req = s.deleteHandler req := by
    unfold serve
    rw [hmethod]
  show (exec (s.serve req) w).2.backend = w.backend
  rw [hserve]
  refine (uses_deleteContainer hparsed hcontainer).run_rel World.sem (fun u u' =>
    u.backend.index.childrenOf target.iri ≠ [] → u'.backend = u.backend) (fun _ _ => rfl)
    (fun h₁ h₂ h => ?_) (fun u o ho h => ?_) w hmembers
  · have hfirst := h₁ h
    rw [h₂ (by rwa [hfirst]), hfirst]
  · rcases ho with hreads | ⟨topic, frame, rfl⟩ | ⟨parent, rfl⟩
    · exact (quiet_step u o hreads).backend
    · rfl
    · simp only [World.sem]
      split
      · rfl
      · rcases deleteMetaIfEmpty_cases u.backend.index target.iri parent with
          ⟨o, -, heq⟩ | ⟨hempty, -⟩
        · rw [heq]
          rfl
        · exact absurd hempty h

/-- **Containment, sequentially**: from a root and ACLs, after any requests on paths without
adjacent slashes, every other record is listed exactly once, by its container, which is stored;
what is listed is stored and is not an ACL; and the `DELETE` of a container with members changes
nothing. -/
theorem containment_sequential (s : LdpState) (w₀ : World)
    (hf : ∀ iri, w₀.faults.indexWrite iri = none) (h₀ : Fresh s w₀.backend.index)
    (reqs : List Request) (hpaths : ∀ r ∈ reqs, ¬ "//".toList <:+: r.path) :
    (∀ x, ((s.run reqs w₀).backend.index.meta? x).isSome → x ≠ storageRoot s.baseUrl →
      isAclResource x = false →
        ∃ p, parentContainer x = some p ∧
          ((s.run reqs w₀).backend.index.childrenOf p).count x = 1 ∧
          (∀ c, c ≠ p → x ∉ (s.run reqs w₀).backend.index.childrenOf c) ∧
          ((s.run reqs w₀).backend.index.meta? p).isSome) ∧
    (∀ c x, x ∈ (s.run reqs w₀).backend.index.childrenOf c →
      ((s.run reqs w₀).backend.index.meta? x).isSome ∧ isAclResource x = false) ∧
    ∀ req target, req.method = .delete → parseTarget s.baseUrl req.path = .ok target →
      target.isContainer = true →
      (s.run reqs w₀).backend.index.childrenOf target.iri ≠ [] →
        (s.handle req (s.run reqs w₀)).2.backend = (s.run reqs w₀).backend := by
  have hcont := h₀.contained.run hf hpaths
  have hshelter : Sheltered (s.run reqs w₀).backend.index := h₀.sheltered.run reqs
  refine ⟨fun x hx hroot hacl => ?_, fun c x hx => ⟨hcont.indexed c x hx, (hcont.placed c x hx).2⟩,
    fun req target hmethod hparsed hcontainer => delete_nonempty hparsed hcontainer hmethod⟩
  obtain ⟨p, hp, hin⟩ := hcont.listed x hx hroot hacl
  refine ⟨p, hp, List.count_eq_one_of_mem (hshelter.once p) hin, fun c hc hmem => ?_,
    hshelter.container p x hin⟩
  exact hc (Option.some.inj ((hcont.placed c x hmem).1.symm.trans hp))

theorem fresh_openWorld : Fresh sampleState openWorld.backend.index :=
  fresh_seeded [(aclFor samplePod, [0, 1, 2, 3, 4, 5, 6])] (by decide)

theorem indexWrite_openWorld (iri : Iri) : openWorld.faults.indexWrite iri = none := by
  unfold openWorld World.seeded
  rfl

/-- After a `PUT` of `/a/b` the container on the way lists it, once. -/
theorem containment_sequential_put :
    ((sampleState.run [samplePut "/a/b"] openWorld).backend.index.meta? "http://h/a/b".toList).isSome ∧
      ∃ p, parentContainer "http://h/a/b".toList = some p ∧
        ((sampleState.run [samplePut "/a/b"] openWorld).backend.index.childrenOf p).count
          "http://h/a/b".toList = 1 := by
  have hstored : ((sampleState.run [samplePut "/a/b"] openWorld).backend.index.meta?
    "http://h/a/b".toList).isSome := by decide
  obtain ⟨p, hp, hcount, -⟩ := (containment_sequential sampleState openWorld indexWrite_openWorld
    fresh_openWorld [samplePut "/a/b"] (by decide)).1 _ hstored (by decide)
    (by decide)
  exact ⟨hstored, p, hp, hcount⟩

/-! ## §6 A write and a removal of one document -/

/-- Two documents, one in a container that is created on the way. -/
def twoPuts (b : Bool) : Request := samplePut (if b then "/a/e" else "/d")

/-- Two `PUT`s, one after the other: the run is steady and the second document is listed. -/
theorem containment_interleaved_puts :
    ∃ (tr : List (Move Bool storeSig World)) (result : Bool → Except ServerError Response) (v : World),
      Interleaves World.sem (fun _ _ => False) (fun b => sampleState.serve (twoPuts b)) openWorld tr
        (fun b => .ret (result b)) v ∧ Steady tr ∧
      (v.backend.index.meta? "http://h/a/e".toList).isSome ∧
      ∃ c, parentContainer "http://h/a/e".toList = some c ∧
        "http://h/a/e".toList ∈ v.backend.index.childrenOf c := by
  have hrun := Interleaves.both_in_turn World.sem (fun _ _ => False)
    (fun b => sampleState.serve (twoPuts b)) openWorld
  have hsteady := steady_of_uniform hrun (.inl fun b => by cases b <;> decide)
  have hstored : (((sampleState.serve (twoPuts true)).run World.sem
      ((sampleState.serve (twoPuts false)).run World.sem openWorld).2).2.backend.index.meta?
        "http://h/a/e".toList).isSome := by decide
  refine ⟨_, _, _, hrun, hsteady, hstored, ?_⟩
  exact (containment_interleaved sampleState twoPuts (by decide) openWorld _
    indexWrite_openWorld fresh_openWorld.contained _ _ hrun hsteady).1 _ hstored
    (by decide) (by decide)

/-- A storage with one document. -/
def documentWorld : World := sampleState.run [samplePut "/d"] openWorld

/-- What is left of a `PUT` of the document once its bytes are stored, and the world it left. -/
def putPaused : Server Response × World :=
  Program.advance World.sem 9 (sampleState.serve (samplePut "/d")) documentWorld

/-- A `PUT` and a `DELETE` of the document. -/
def putAndDelete (b : Bool) : Request := if b then samplePut "/d" else sampleDelete "/d"

/-- **A removal undone**: a `PUT` finds the document, a `DELETE` removes it with its edge, and the
`PUT` writes the record back.  Both answer 204; the document is stored and listed nowhere. -/
theorem unlisted_after_delete :
    ∃ (tr : List (Move Bool storeSig World)) (result : Bool → Except ServerError Response) (v : World),
      Contained sampleState documentWorld.backend.index ∧
      Interleaves World.sem (fun _ _ => False) (fun b => sampleState.serve (putAndDelete b))
        documentWorld tr (fun b => .ret (result b)) v ∧
      (∀ b, okStatus (result b) = some 204) ∧
      (v.backend.index.meta? "http://h/d".toList).isSome ∧
      parentContainer "http://h/d".toList = some samplePod ∧
      "http://h/d".toList ∉ v.backend.index.childrenOf samplePod := by
  have hpaused := Interleaves.some_way World.sem (fun _ _ => False)
    (fun b => sampleState.serve (putAndDelete b)) documentWorld true 9
  have hrest := Interleaves.both_in_turn World.sem (fun _ _ => False)
    (Function.update (fun b => sampleState.serve (putAndDelete b)) true putPaused.1) putPaused.2
  have hrun := hpaused.append hrest
  obtain ⟨hdelete, hput, hstored, hparent, hfree⟩ :
      okStatus ((sampleState.serve (sampleDelete "/d")).run World.sem putPaused.2).1 = some 204 ∧
      okStatus (putPaused.1.run World.sem
        ((sampleState.serve (sampleDelete "/d")).run World.sem putPaused.2).2).1 = some 204 ∧
      ((putPaused.1.run World.sem ((sampleState.serve (sampleDelete "/d")).run World.sem
        putPaused.2).2).2.backend.index.meta? "http://h/d".toList).isSome ∧
      parentContainer "http://h/d".toList = some samplePod ∧
      "http://h/d".toList ∉ (putPaused.1.run World.sem ((sampleState.serve (sampleDelete "/d")).run
        World.sem putPaused.2).2).2.backend.index.childrenOf samplePod := by decide
  have hcontained : Contained sampleState documentWorld.backend.index :=
    fresh_openWorld.contained.run indexWrite_openWorld (by decide)
  exact ⟨_, _, _, hcontained, hrun, Bool.forall_bool.mpr ⟨hdelete, hput⟩, hstored, hparent, hfree⟩

end SolidServer.Ldp.LdpState
