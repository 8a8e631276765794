import SolidServer.Ldp.Append
import SolidServer.Ldp.Containment

/-!
# A name and the same name with a slash

A container and a document must not share a name up to the trailing slash.  `PUT` looks for
the counterpart of its target, the walk to a target looks for a document in the place of
every container it makes; `PATCH` does neither for the document it makes itself.

* `slash_semantics`: in every state reached from an empty storage no name is stored both with
  and without a trailing slash, provided that no `PATCH` makes a document next to the
  container of the same name, and that the names `POST` mints are unused.
* `patched_twin`: such a `PATCH` succeeds.
-/

namespace SolidServer.Ldp.LdpState

open SolidServer.Effects SolidServer.Store SolidServer.Authz
open SolidServer.Effects.Program (Heeds)
open SolidServer.Text (IsSegment)

variable {s : LdpState} {req : Request} {target : LdpTarget} {seen : List (Event storeSig)}

/-! ## §1 Names -/

/-- The names a storage gives: the root, and names below it with at most one trailing slash. -/
def Named (s : LdpState) (x : Iri) : Prop :=
  x = s.dir [] ∨ ∃ way last slashes, Below s x way last slashes ∧ slashes ≤ 1

/-- The name that differs in the trailing slash. -/
def counterpart (x : Iri) : Iri := if x.getLast? = some '/' then x.dropLast else x ++ ['/']

theorem named_dir {segs : List Text} (h : ∀ seg ∈ segs, IsSegment seg) : Named s (s.dir segs) := by
  rcases List.eq_nil_or_concat segs with rfl | ⟨before, seg, rfl⟩
  · exact .inl rfl
  · rw [List.concat_eq_append] at h ⊢
    refine .inr ⟨before, seg, 1, ⟨?_, ?_, dir_concat _ _⟩, le_rfl⟩
    · exact fun x hx => h x (List.mem_append_left _ hx)
    · exact h seg (by simp)

variable {x : Iri} {i i₀ : Index} {o : StoreOp} {u w : World} {α : Type} {p : Server α}

/-- A container's name has exactly one slash at its end. -/
theorem Named.container (h : Named s x) (hslash : x.getLast? = some '/') :
    ∃ segs, (∀ seg ∈ segs, IsSegment seg) ∧ x = s.dir segs := by
  rcases h with rfl | ⟨way, last, slashes, hbelow, hone⟩
  · exact ⟨[], by simp, rfl⟩
  · exact ⟨way ++ [last], hbelow.segments, hbelow.container hone hslash⟩

theorem Named.dropLast (h : Named s x) (hslash : x.getLast? = some '/') :
    x.dropLast.getLast? ≠ some '/' := by
  obtain ⟨segs, hsegs, rfl⟩ := h.container hslash
  obtain ⟨name, hname, hend⟩ := dir_eq_concat (s := s) hsegs
  rwa [hname, List.dropLast_concat]

theorem Named.prefix {x : Iri} (h : Named s x) : s.dir [] <+: x := by
  rcases h with rfl | ⟨way, last, slashes, hbelow, -⟩
  · exact List.prefix_refl _
  · rw [hbelow.iri_eq, List.append_assoc]
    exact (dir_prefix_dir (List.nil_prefix)).trans (List.prefix_append _ _)

/-- The root without its slash is not a name of the storage. -/
theorem not_named_counterpart_root : ¬ Named s (counterpart (s.dir [])) := by
  intro h
  have hle := h.prefix.length_le
  rw [counterpart, if_pos (getLast?_dir []), List.length_dropLast] at hle
  have hpos : 0 < (s.dir []).length := by
    rw [dir_nil, storageRoot]
    simp
  omega

theorem named_target (hparsed : parseTarget s.baseUrl req.path = .ok target)
    (hpath : ¬ "//".toList <:+: req.path) : Named s target.iri := located_once hparsed hpath

/-- What `reject_slash_semantics_conflict` looks for. -/
theorem twin_eq (hparsed : parseTarget s.baseUrl req.path = .ok target)
    (hpath : ¬ "//".toList <:+: req.path) : twin target = counterpart target.iri := by
  unfold twin counterpart
  cases hcontainer : target.isContainer with
  | false =>
    rw [if_neg (notContainer_getLast? hparsed hcontainer)]
    rfl
  | true =>
    have hslash := container_getLast? hparsed hcontainer
    have hend := (named_target hparsed hpath).dropLast hslash
    obtain ⟨name, hname⟩ := List.getLast?_eq_some_iff.mp hslash
    rw [hname, List.dropLast_concat] at hend
    rw [if_pos rfl, if_pos hslash, hname, List.dropLast_concat,
      Text.trimEndMatches_concat_self, Text.trimEndMatches_eq_self hend]

/-! ## §2 The index -/

/-- **No name is stored with and without a slash.** -/
structure Apart (s : LdpState) (i : Index) : Prop where
  named : ∀ x, (i.meta? x).isSome → Named s x
  apart : ∀ x, (i.meta? x).isSome → ¬ (i.meta? (x ++ ['/'])).isSome

theorem Apart.counterpart (h : Apart s i) (hx : (i.meta? x).isSome) :
    i.meta? (counterpart x) = none := by
  rw [← Option.not_isSome_iff_eq_none]
  unfold LdpState.counterpart
  split_ifs with hslash
  · obtain ⟨name, rfl⟩ := List.getLast?_eq_some_iff.mp hslash
    rw [List.dropLast_concat]
    exact fun hname => h.apart name hname hx
  · exact h.apart x hx

/-- One more name, whose counterpart is free or that was stored already. -/
theorem Apart.grow {i' : Index} (h : Apart s i) (hx : Named s x)
    (hfree : (i.meta? x).isSome ∨ i.meta? (LdpState.counterpart x) = none)
    (hle : ∀ y, (i'.meta? y).isSome → (i.meta? y).isSome ∨ y = x) : Apart s i' := by
  have hfree : i.meta? (LdpState.counterpart x) = none := hfree.elim h.counterpart id
  constructor
  · intro y hy
    rcases hle y hy with hold | rfl
    · exact h.named y hold
    · exact hx
  · intro y hy hslashed
    unfold LdpState.counterpart at hfree
    rcases hle y hy with hy | rfl
    · rcases hle _ hslashed with hslashed | rfl
      · exact h.apart y hy hslashed
      · rw [if_pos (by simp), List.dropLast_concat] at hfree
        rw [hfree] at hy
        cases hy
    · -- the new name, and an old one with another slash
      have hslashed := (hle _ hslashed).resolve_right (by simp)
      split_ifs at hfree with hslash
      · have hend := (h.named _ hslashed).dropLast (by simp)
        rw [List.dropLast_concat] at hend
        exact hend hslash
      · rw [hfree] at hslashed
        cases hslashed

/-- Names that are gone do no harm. -/
theorem Apart.of_le {i' : Index} (h : Apart s i)
    (hle : ∀ x, (i'.meta? x).isSome → (i.meta? x).isSome) : Apart s i' :=
  ⟨fun x hx => h.named x (hle x hx), fun x hx hslashed => h.apart x (hle x hx) (hle _ hslashed)⟩

/-! ## §3 What a request that removes nothing knows -/

/-- The step stores the record of a name. -/
def StoresName (x : Iri) (o : StoreOp) : Prop :=
  ∃ m, o = .putMeta x m ∨ ∃ c, o = .createChild c x m

theorem StoresName.unique {y : Iri} (hx : StoresName x o) (hy : StoresName y o) : x = y := by
  obtain ⟨m, rfl | ⟨c, rfl⟩⟩ := hx <;> obtain ⟨m', ho | ⟨c', ho⟩⟩ := hy <;> cases ho <;> rfl

theorem StoresName.not_passive (hx : StoresName x o) : ¬ Passive o := by
  obtain ⟨m, rfl | ⟨c, rfl⟩⟩ := hx <;> exact id

/-- A name is in use after a step only if it was before, or the step stores it. -/
theorem named_step (h : ((World.sem u o).2.backend.index.meta? x).isSome) :
    (u.backend.index.meta? x).isSome ∨ StoresName x o := by
  rcases meta?_step u o x with hsame | ⟨m, hstore, -⟩ | ⟨-, hnone⟩
  · rw [hsame] at h
    exact .inl h
  · exact .inr ⟨m, hstore.op⟩
  · rw [hnone] at h
    cases h

/-- The request has seen that the name is in use, or has stored it. -/
def SawStored (log : List (Event storeSig)) (x : Iri) : Prop :=
  SawRecord log x ∨ SawExists log x true ∨
    ∃ c m, (⟨.createChild c x m, .ok ()⟩ : Event storeSig) ∈ log

theorem Stood.sawStored {p : Iri} (h : Stood seen (p, x)) : SawStored seen x := by
  rcases h with hsaw | ⟨m, hmade⟩
  · exact .inr (.inl hsaw)
  · exact .inr (.inr ⟨p, m, hmade⟩)

/-- **The history tells the index**: what was in use still is, what was found is in use, and a
name that was looked for in vain is in use only if the request stored it. -/
structure Aware (i₀ : Index) (log : List (Event storeSig)) (i : Index) : Prop where
  grown : ∀ x, (i₀.meta? x).isSome → (i.meta? x).isSome
  added : ∀ x, (i.meta? x).isSome → (i₀.meta? x).isSome ∨ ∃ e ∈ log, StoresName x e.op
  present : ∀ x, SawStored log x → (i.meta? x).isSome
  absent : ∀ x, SawExists log x false → (i.meta? x).isSome → ∃ e ∈ log, StoresName x e.op

theorem aware_start (i : Index) : Aware i [] i where
  grown _ := id
  added _ := .inl
  present x h := by
    rcases h with ⟨m, h⟩ | h | ⟨c, m, h⟩ <;> cases h
  absent x h := by cases h

/-- What an answer says of a name holds after the step. -/
theorem isSome_of_answer (h : SawStored [⟨o, (World.sem u o).1⟩] x) :
    ((World.sem u o).2.backend.index.meta? x).isSome := by
  rcases h with ⟨m, h⟩ | h | ⟨c, m, h⟩
  · obtain ⟨rfl, hanswer⟩ := Event.mk.inj (List.mem_singleton.mp h)
    exact Option.isSome_of_eq_some (World.meta?_of_found (eq_of_heq hanswer).symm)
  · obtain ⟨rfl, hanswer⟩ := Event.mk.inj (List.mem_singleton.mp h)
    exact World.isSome_of_exists (eq_of_heq hanswer).symm
  · have hevent := List.mem_singleton.mp h
    rw [meta?_of_commits u o (by rw [← hevent]; simp [commits]), ← (Event.mk.inj hevent).1]
    rfl

theorem none_of_answer (h : SawExists [⟨o, (World.sem u o).1⟩] x false) :
    (World.sem u o).2.backend.index.meta? x = none := by
  obtain ⟨rfl, hanswer⟩ := Event.mk.inj (List.mem_singleton.mp h)
  have hnone := World.isSome_of_exists (eq_of_heq hanswer).symm
  exact Option.isNone_iff_eq_none.mp (Option.isSome_eq_false_iff.mp hnone)

/-- The history and the index stay in step as long as nothing is removed. -/
theorem Aware.step (h : Aware i₀ seen u.backend.index)
    (hkeep : ∀ x, o ≠ .deleteMeta x ∧ ∀ p, o ≠ .deleteMetaIfEmpty x p) :
    Aware i₀ (seen ++ [⟨o, (World.sem u o).1⟩]) (World.sem u o).2.backend.index where
  grown x hx := isSome_step (h.grown x hx) (hkeep x).1 (hkeep x).2
  added x hx := by
    rcases named_step hx with hold | hstore
    · refine (h.added x hold).imp_right ?_
      rintro ⟨e, he, hstore⟩
      exact ⟨e, List.mem_append_left _ he, hstore⟩
    · exact .inr ⟨_, List.mem_append_right _ (List.mem_singleton_self _), hstore⟩
  present x hx := by
    have hsplit : SawStored seen x ∨ SawStored [⟨o, (World.sem u o).1⟩] x := by
      rcases hx with ⟨m, hx⟩ | hx | ⟨c, m, hx⟩
      · exact (List.mem_append.mp hx).imp (fun h => .inl ⟨m, h⟩) fun h => .inl ⟨m, h⟩
      · exact (List.mem_append.mp hx).imp (fun h => .inr (.inl h)) fun h => .inr (.inl h)
      · exact (List.mem_append.mp hx).imp (fun h => .inr (.inr ⟨c, m, h⟩))
          fun h => .inr (.inr ⟨c, m, h⟩)
    rcases hsplit with hold | hnew
    · exact isSome_step (h.present x hold) (hkeep x).1 (hkeep x).2
    · exact isSome_of_answer hnew
  absent x hx hsome := by
    rcases List.mem_append.mp hx with hold | hnew
    · rcases named_step hsome with hbefore | hstore
      · obtain ⟨e, he, hstore⟩ := h.absent x hold hbefore
        exact ⟨e, List.mem_append_left _ he, hstore⟩
      · exact ⟨_, List.mem_append_right _ (List.mem_singleton_self _), hstore⟩
    · rw [none_of_answer hnew] at hsome
      cases hsome

/-- Only `DELETE` removes anything. -/
theorem Justified.keeps (h : Justified s req seen o) (hmethod : req.method ≠ .delete) (x : Iri) :
    o ≠ .deleteMeta x ∧ ∀ p, o ≠ .deleteMetaIfEmpty x p := by
  constructor
  · rintro rfl
    exact hmethod (h.method_of_removes (.inl rfl))
  · rintro p rfl
    exact hmethod (h.method_of_removes (.inr ⟨p, rfl⟩))

/-! ## §4 `PUT` and `PATCH` -/

/-- The names a `PUT` or `PATCH` stores: its target, and containers on the way to it. -/
def OnWay (target : LdpTarget) (x : Iri) : Prop :=
  x = target.iri ∨ x.getLast? = some '/' ∧ x <+: target.iri

theorem counterpart_not_onWay (htarget : Named s target.iri) :
    ¬ OnWay target (counterpart target.iri) := by
  have hne : target.iri ≠ [] := by
    intro hnil
    have hle := htarget.prefix.length_le
    have hslash := getLast?_dir (s := s) []
    rw [hnil, List.length_nil, Nat.le_zero, List.length_eq_zero_iff] at hle
    rw [hle] at hslash
    cases hslash
  unfold counterpart
  split_ifs with hslash
  · rintro (heq | ⟨hend, -⟩)
    · have hlen := congrArg List.length heq
      have hpos := List.length_pos_iff.mpr hne
      rw [List.length_dropLast] at hlen
      omega
    · exact htarget.dropLast hslash hend
  · rintro (heq | ⟨-, hle⟩)
    · simp at heq
    · have hlen := hle.length_le
      rw [List.length_append, List.length_singleton] at hlen
      omega

/-- The slashless name of a container on the way is not on the way. -/
theorem dropLast_not_onWay (hx : Named s x) (hslash : x.getLast? = some '/')
    (hway : x <+: target.iri) : ¬ OnWay target x.dropLast := by
  rintro (heq | ⟨hend, -⟩)
  · have hlen := congrArg List.length heq
    have hle := hway.length_le
    obtain ⟨name, rfl⟩ := List.getLast?_eq_some_iff.mp hslash
    rw [List.dropLast_concat] at hlen
    rw [List.length_append, List.length_singleton] at hle
    omega
  · exact hx.dropLast hslash hend

/-- Containers on the way to a target: of the storage, and above or at the target. -/
theorem ancestor_named (hparsed : parseTarget s.baseUrl req.path = .ok target)
    (hpath : ¬ "//".toList <:+: req.path) {parent container : Iri}
    (hway : (parent, container) ∈ s.ancestorsOf target.iri) :
    Named s container ∧ container <+: target.iri := by
  rcases located_once hparsed hpath with hroot | ⟨way, last, slashes, hbelow, hone⟩
  · rw [hroot, ancestorsOf_root] at hway
    cases hway
  obtain ⟨before, seg, after, hsplit, rfl, rfl⟩ := hbelow.mem_ancestorsOf.mp hway
  obtain rfl | rfl : slashes = 0 ∨ slashes = 1 := by omega
  · have hle : before ++ [seg] <+: way := ⟨after, by simpa using hsplit.symm⟩
    refine ⟨named_dir fun x hx => hbelow.way_segments x (hle.subset hx), ?_⟩
    rw [hbelow.iri_eq, List.append_assoc]
    exact (dir_prefix_dir hle).trans (List.prefix_append _ _)
  · have hle : before ++ [seg] <+: way ++ [last] := ⟨after, by simpa using hsplit.symm⟩
    refine ⟨named_dir fun x hx => hbelow.segments x (hle.subset hx), ?_⟩
    have hiri : target.iri = s.dir (way ++ [last]) := by
      rw [hbelow.iri_eq, dir_concat]
      rfl
    rw [hiri]
    exact dir_prefix_dir hle

/-- A container below the root is itself on the walk to it. -/
theorem container_on_walk (hparsed : parseTarget s.baseUrl req.path = .ok target)
    (hpath : ¬ "//".toList <:+: req.path) (hslash : target.iri.getLast? = some '/') :
    target.iri = s.dir [] ∨ ∃ parent, (parent, target.iri) ∈ s.ancestorsOf target.iri := by
  rcases located_once hparsed hpath with hroot | ⟨way, last, slashes, hbelow, hone⟩
  · exact .inl hroot
  refine .inr ⟨s.dir way, hbelow.mem_ancestorsOf.mpr ⟨way, last, [], ?_, rfl,
    hbelow.container hone hslash⟩⟩
  obtain rfl | rfl : slashes = 0 ∨ slashes = 1 := by omega
  · rw [hbelow.iri_eq, List.replicate_zero, List.append_nil] at hslash
    exact absurd hslash (getLast?_append_segment hbelow.last_segment)
  · rw [List.replicate_one, List.append_cons, List.dropLast_concat]

/-- What a request other than `POST` stores is on the way to its target, and named. -/
theorem Justified.onWay (h : Justified s req seen o) (hmethod : req.method ≠ .post)
    (hparsed : parseTarget s.baseUrl req.path = .ok target) (hpath : ¬ "//".toList <:+: req.path)
    (hx : StoresName x o) :
    OnWay target x ∧ Named s x := by
  have hsame : ∀ {t}, parseTarget s.baseUrl req.path = .ok t → target = t := by
    intro t ht
    exact Except.ok.inj (hparsed.symm.trans ht)
  have hnamed := named_target hparsed hpath
  cases h with
  | passive h => exact absurd h hx.not_passive
  | replace ht _ _ =>
    obtain rfl := hsame ht
    obtain rfl := hx.unique ⟨_, .inl rfl⟩
    exact ⟨.inl rfl, hnamed⟩
  | acl hm _ | orphan hm _ _ =>
    obtain rfl := hsame hm.parsed
    obtain rfl := hx.unique ⟨_, .inl rfl⟩
    exact ⟨.inl rfl, hnamed⟩
  | root hm _ =>
    obtain rfl := hx.unique ⟨_, .inl rfl⟩
    rw [← dir_nil]
    exact ⟨.inr ⟨getLast?_dir [], hnamed.prefix⟩, .inl rfl⟩
  | ancestor hm _ hway _ _ =>
    obtain rfl := hsame hm.parsed
    obtain rfl := hx.unique ⟨_, .inr ⟨_, rfl⟩⟩
    obtain ⟨hname, hle⟩ := ancestor_named hparsed hpath hway
    exact ⟨.inr ⟨getLast?_of_mem_ancestorsOf hway, hle⟩, hname⟩
  | settle hm _ _ _ =>
    obtain rfl := hsame hm.parsed
    obtain rfl := hx.unique ⟨_, .inr ⟨_, rfl⟩⟩
    exact ⟨.inl rfl, hnamed⟩
  | mint hpost _ _ _ _ _ => exact absurd hpost hmethod
  | unlink _ _ _ | remove _ _ _ | removeContainer _ _ =>
    obtain ⟨m, ho | ⟨c, ho⟩⟩ := hx <;> cases ho

/-- A `PATCH` has made a document beside the container of the same name. -/
structure Clash (req : Request) (target : LdpTarget) (i₀ i : Index) : Prop where
  method : req.method = .patch
  document : target.isContainer = false
  absent : i₀.meta? target.iri = none
  made : (i.meta? target.iri).isSome
  beside : (i₀.meta? (target.iri ++ ['/'])).isSome

section
variable {i₀ i : Index} {x : Iri}

/-- A name off the way that was looked for in vain is free. -/
theorem Aware.free (h : Aware i₀ seen i) (hway : ∀ e ∈ seen, ∀ x, StoresName x e.op → OnWay target x)
    (hsaw : SawExists seen x false) (hoff : ¬ OnWay target x) : i.meta? x = none := by
  rw [← Option.not_isSome_iff_eq_none]
  intro hsome
  obtain ⟨e, he, hstore⟩ := h.absent x hsaw hsome
  exact hoff (hway e he x hstore)

/-- **A new document**: its counterpart is free, unless a `PATCH` did not look. -/
theorem Making.free (hm : Making s req seen target) (h : Aware i₀ seen i)
    (hway : ∀ e ∈ seen, ∀ x, StoresName x e.op → OnWay target x)
    (hpath : ¬ "//".toList <:+: req.path) (hdoc : target.isContainer = false) :
    (i.meta? target.iri).isSome ∨ i.meta? (counterpart target.iri) = none ∨
      req.method = .patch ∧ i₀.meta? target.iri = none ∧
        (i₀.meta? (target.iri ++ ['/'])).isSome := by
  have hoff := counterpart_not_onWay (named_target hm.parsed hpath)
  rcases hm.method with hput | hpatch
  · have hsaw := hm.apart hput
    rw [twin_eq hm.parsed hpath] at hsaw
    exact .inr (.inl (h.free hway hsaw hoff))
  · by_cases hold : (i₀.meta? target.iri).isSome
    · exact .inl (h.grown _ hold)
    by_cases htwin : (i.meta? (counterpart target.iri)).isSome
    · -- a `PATCH` stores nothing under that name, so it was there before
      have hbefore : (i₀.meta? (counterpart target.iri)).isSome := by
        refine (h.added _ htwin).resolve_right ?_
        rintro ⟨e, he, hstore⟩
        exact hoff (hway e he _ hstore)
      rw [counterpart, if_neg (notContainer_getLast? hm.parsed hdoc)] at hbefore
      exact .inr (.inr ⟨hpatch, Option.not_isSome_iff_eq_none.mp hold, hbefore⟩)
    · exact .inr (.inl (Option.not_isSome_iff_eq_none.mp htwin))

/-- **What a `PUT` or `PATCH` stores is free of a counterpart**, but for a `PATCH`'s document. -/
theorem Justified.free {o : StoreOp} (h : Justified s req seen o) (hmethod : req.method ≠ .post)
    (hparsed : parseTarget s.baseUrl req.path = .ok target)
    (hpath : ¬ "//".toList <:+: req.path) (ha : Aware i₀ seen i) (hapart : Apart s i)
    (hway : ∀ e ∈ seen, ∀ x, StoresName x e.op → OnWay target x) (hx : StoresName x o) :
    (i.meta? x).isSome ∨ i.meta? (counterpart x) = none ∨
      x = target.iri ∧ target.isContainer = false ∧ req.method = .patch ∧
        i₀.meta? target.iri = none ∧ (i₀.meta? (target.iri ++ ['/'])).isSome := by
  have hsame : ∀ {t}, parseTarget s.baseUrl req.path = .ok t → target = t := by
    intro t ht
    exact Except.ok.inj (hparsed.symm.trans ht)
  -- the root has no counterpart in the storage
  have hroot : i.meta? (counterpart (s.dir [])) = none := by
    rw [← Option.not_isSome_iff_eq_none]
    exact fun hsome => not_named_counterpart_root (hapart.named _ hsome)
  have hnew : Making s req seen target → target.isContainer = false → x = target.iri →
      (i.meta? x).isSome ∨ i.meta? (counterpart x) = none ∨
      x = target.iri ∧ target.isContainer = false ∧ req.method = .patch ∧
        i₀.meta? target.iri = none ∧ (i₀.meta? (target.iri ++ ['/'])).isSome := by
    rintro hm hdoc rfl
    exact (hm.free ha hway hpath hdoc).imp_right (.imp_right fun hrest => ⟨rfl, hdoc, hrest⟩)
  cases h with
  | passive h => exact absurd h hx.not_passive
  | replace ht _ hfound =>
    obtain rfl := hx.unique ⟨_, .inl rfl⟩
    exact .inl (ha.present _ (.inl hfound))
  | acl hm hacl =>
    obtain rfl := hsame hm.parsed
    refine hnew hm ?_ (hx.unique ⟨_, .inl rfl⟩)
    rw [← Bool.not_eq_true]
    intro hcontainer
    rw [not_acl_of_getLast? (container_getLast? hparsed hcontainer)] at hacl
    cases hacl
  | root hm _ =>
    obtain rfl := hx.unique ⟨_, .inl rfl⟩
    rw [dir_nil] at hroot
    exact .inr (.inl hroot)
  | orphan hm _ hparent =>
    obtain rfl := hsame hm.parsed
    obtain rfl := hx.unique ⟨_, .inl rfl⟩
    rcases located_once hparsed hpath with hname | ⟨way, last, slashes, hbelow, -⟩
    · rw [hname]
      exact .inr (.inl hroot)
    · rw [hbelow.parentContainer_eq] at hparent
      cases hparent
  | ancestor hm _ hwalk _ hslash =>
    obtain rfl := hsame hm.parsed
    obtain rfl := hx.unique ⟨_, .inr ⟨_, rfl⟩⟩
    obtain ⟨hname, hle⟩ := ancestor_named hparsed hpath hwalk
    have hend := getLast?_of_mem_ancestorsOf hwalk
    rcases hslash with hsaw | hstood
    · rw [counterpart, if_pos hend]
      exact .inr (.inl (ha.free hway hsaw (dropLast_not_onWay hname hend hle)))
    · exact .inl (ha.present _ (.inr (.inl hstood)))
  | settle hm _ _ hstood =>
    obtain rfl := hsame hm.parsed
    by_cases hcontainer : target.isContainer = true
    · obtain rfl := hx.unique ⟨_, .inr ⟨_, rfl⟩⟩
      have hend := container_getLast? hparsed hcontainer
      rcases container_on_walk hparsed hpath hend with hname | ⟨parent, hwalk⟩
      · rw [hname]
        exact .inr (.inl hroot)
      · exact .inl (ha.present _ (hstood _ hwalk).sawStored)
    · exact hnew hm (by simpa using hcontainer) (hx.unique ⟨_, .inr ⟨_, rfl⟩⟩)
  | mint hpost _ _ _ _ _ => exact absurd hpost hmethod
  | unlink _ _ _ | remove _ _ _ | removeContainer _ _ =>
    obtain ⟨m, ho | ⟨c, ho⟩⟩ := hx <;> cases ho

end

/-- Storing anything takes a target. -/
theorem Justified.parsed_of_stores (h : Justified s req seen o) (hx : StoresName x o) :
    ∃ target, parseTarget s.baseUrl req.path = .ok target := by
  cases h with
  | passive h => exact absurd h hx.not_passive
  | replace hparsed _ _ => exact ⟨_, hparsed⟩
  | acl h _ | root h _ | orphan h _ _ | ancestor h _ _ _ _ | settle h _ _ _ => exact ⟨_, h.parsed⟩
  | mint _ hparsed _ _ _ _ => exact ⟨_, hparsed⟩
  | unlink _ _ _ | remove _ _ _ | removeContainer _ _ =>
    obtain ⟨m, ho | ⟨c, ho⟩⟩ := hx <;> cases ho

/-- A request that stores nothing adds no name. -/
theorem Apart.handle_idle (h : Apart s w.backend.index)
    (hidle : ∀ seen o x, Justified s req seen o → ¬ StoresName x o) :
    Apart s (s.handle req w).2.backend.index := by
  have huses : (s.serve req).Uses (S := storeSig) fun o => ∀ x, ¬ StoresName x o :=
    Heeds.uses (conducts_serve s req) fun log o ho x => hidle log o x ho
  refine h.of_le (huses.run_rel World.sem (fun u u' => ∀ x, (u'.backend.index.meta? x).isSome →
    (u.backend.index.meta? x).isSome) (fun _ _ => id) (fun h₁ h₂ x hx => h₁ x (h₂ x hx)) ?_ w)
  exact fun u o ho x hx => (named_step hx).resolve_right (ho x)

/-- A `PUT` or `PATCH` under way: the history tells the index, what it stored is on the way to
its target, and the names are apart or have clashed. -/
structure Placing (s : LdpState) (req : Request) (target : LdpTarget) (i₀ : Index)
    (log : List (Event storeSig)) (i : Index) : Prop where
  aware : Aware i₀ log i
  onWay : ∀ e ∈ log, ∀ x, StoresName x e.op → OnWay target x
  state : Apart s i ∨ Clash req target i₀ i

theorem Placing.step (h : Placing s req target i₀ seen u.backend.index)
    (ho : Justified s req seen o) (hmethod : req.method ≠ .post) (hdelete : req.method ≠ .delete)
    (hparsed : parseTarget s.baseUrl req.path = .ok target) (hpath : ¬ "//".toList <:+: req.path) :
    Placing s req target i₀ (seen ++ [⟨o, (World.sem u o).1⟩]) (World.sem u o).2.backend.index := by
  have hkeep := ho.keeps hdelete
  refine ⟨h.aware.step hkeep, ?_, ?_⟩
  · intro e he x hx
    rcases List.mem_append.mp he with hold | hnew
    · exact h.onWay e hold x hx
    · rw [List.mem_singleton.mp hnew] at hx
      exact (ho.onWay hmethod hparsed hpath hx).1
  rcases h.state with hapart | hclash
  · by_cases hstore : ∃ x, StoresName x o
    · obtain ⟨x, hx⟩ := hstore
      have hle : ∀ y, ((World.sem u o).2.backend.index.meta? y).isSome →
          (u.backend.index.meta? y).isSome ∨ y = x :=
        fun y hy => (named_step hy).imp_right fun hstore => hstore.unique hx
      have hname := (ho.onWay hmethod hparsed hpath hx).2
      rcases ho.free hmethod hparsed hpath h.aware hapart h.onWay hx with
        hold | hfree | ⟨rfl, hdoc, hp, habsent, hbeside⟩
      · exact .inl (hapart.grow hname (.inl hold) hle)
      · exact .inl (hapart.grow hname (.inr hfree) hle)
      · -- the step may have failed
        by_cases hmade : ((World.sem u o).2.backend.index.meta? target.iri).isSome
        · exact .inr ⟨hp, hdoc, habsent, hmade, hbeside⟩
        · refine .inl (hapart.of_le fun y hy => (hle y hy).resolve_right ?_)
          rintro rfl
          exact hmade hy
    · exact .inl (hapart.of_le fun y hy => (named_step hy).resolve_right fun hy => hstore ⟨y, hy⟩)
  · exact .inr { hclash with made := isSome_step hclash.made (hkeep _).1 (hkeep _).2 }

/-- **A request other than `POST` keeps the names apart**, or is a `PATCH` that makes a document
beside a container. -/
theorem Apart.handle_named (h : Apart s w.backend.index) (hpath : ¬ "//".toList <:+: req.path)
    (hmethod : req.method ≠ .post)
    (hpatch : ∀ target, req.method = .patch → parseTarget s.baseUrl req.path = .ok target → target.isContainer = false → w.backend.index.meta? target.iri = none → ((s.handle req w).2.backend.index.meta? target.iri).isSome → w.backend.index.meta? (target.iri ++ ['/']) = none)
    :
    Apart s (s.handle req w).2.backend.index := by
  by_cases hdelete : req.method = .delete
  · refine h.handle_idle fun seen o x ho hx => ?_
    obtain ⟨m, hx⟩ := hx
    exact ho.method_of_stores hx hdelete
  cases hparsed : parseTarget s.baseUrl req.path with
  | error e =>
    refine h.handle_idle fun seen o x ho hx => ?_
    obtain ⟨target, hok⟩ := ho.parsed_of_stores hx
    rw [hparsed] at hok
    cases hok
  | ok target =>
    have hstart : Placing s req target w.backend.index [] w.backend.index :=
      ⟨aware_start _, by simp, .inl h⟩
    obtain ⟨log, hend, -⟩ := Heeds.run
      (J := fun log u => Placing s req target w.backend.index log u.backend.index)
      (conducts_serve s req) World.sem
      (fun log u o hj ho => hj.step ho hmethod hdelete hparsed hpath) hstart
    rcases hend.state with hapart | hclash
    · exact hapart
    · have hfree := hpatch target hclash.method hparsed hclash.document hclash.absent hclash.made
      have hbeside := hclash.beside
      rw [hfree] at hbeside
      cases hbeside

/-! ## §5 `POST` -/

/-- The index is changed at most once. -/
def Once (log : List (Event storeSig)) (o : StoreOp) : Prop :=
  Passive o ∨ ∀ e ∈ log, Passive e.op

/-- A part that changes nothing. -/
theorem once_passive_bind {β : Type} {f : α → Server β} (hseen : ∀ e ∈ seen, Passive e.op)
    (hp : p.Uses (S := storeSig) Passive)
    (hf : ∀ log a, (∀ e ∈ log, Passive e.op) → Heeds (S := storeSig) Once log (f a) fun _ _ => True)
    :
    Heeds (S := storeSig) Once seen (p >>= f) fun _ _ => True := by
  refine Heeds.bind (Heeds.of_uses hp fun _ _ h => .inl h) ?_ fun _ _ _ => trivial
  rintro _ a ⟨more, rfl, hmore⟩
  refine hf _ a fun e he => ?_
  rcases List.mem_append.mp he with hold | hnew
  · exact hseen e hold
  · exact hmore e hnew

theorem once_of_passive (hp : p.Uses (S := storeSig) Passive) :
    Heeds (S := storeSig) Once seen p fun _ _ => True :=
  (Heeds.of_uses hp fun _ _ h => .inl h).mono fun _ _ _ => trivial

theorem passive_of_reads (hp : p.Uses (S := storeSig) Reads) :
    p.Uses (S := storeSig) Passive := hp.mono fun _ => Passive.of_reads

theorem once_postToContainer (hseen : ∀ e ∈ seen, Passive e.op) (container : Iri) :
    Heeds (S := storeSig) Once seen (s.postToContainer container req) fun _ _ => True := by
  refine once_passive_bind hseen (Program.Uses.ofExcept _) fun log₁ contentType h₁ => ?_
  refine once_passive_bind h₁ (Program.Uses.ofExcept _) fun log₂ _ h₂ => ?_
  refine once_passive_bind h₂ (uses_mintChildIri trivial trivial fun _ => trivial)
    fun log₃ child h₃ => ?_
  refine once_passive_bind h₃ (Program.Uses.ofExcept _) fun log₄ storedType h₄ => ?_
  unfold createInContainer
  simp only [bind_assoc]
  refine once_passive_bind h₄ (uses_stage trivial (fun _ => trivial) trivial) fun log₅ m h₅ => ?_
  refine Heeds.call_bind (.inr h₅) fun r => once_of_passive ?_
  rcases r with (_ | _) | _
  · exact Program.Uses.throw _
  · exact Program.Uses.throw _
  · refine Program.Uses.bind trivial fun _ => Program.Uses.bind (Program.Uses.pure m) fun m => ?_
    exact Program.Uses.bind (uses_notify fun _ _ => trivial) fun _ => Program.Uses.pure _

theorem once_postHandler : Heeds (S := storeSig) Once [] (s.postHandler req) fun _ _ => True := by
  refine once_passive_bind (by simp) (Program.Uses.ofExcept _) fun log₁ container h₁ => ?_
  refine once_passive_bind h₁ (passive_of_reads (perused_authorizeMode _ _ _).reads)
    fun log₂ granted h₂ => ?_
  cases container.isContainer with
  | false => exact once_of_passive (passive_of_reads (perused_postToResource _ _ _).reads)
  | true =>
    exact once_passive_bind h₂ (passive_of_reads (perused_requireContainer _ _ _).reads)
      fun log₃ _ h₃ => once_postToContainer h₃ _

/-- A `POST` under way: it has stored at most one name, one of the storage. -/
structure Minting (s : LdpState) (i₀ : Index) (log : List (Event storeSig)) (i : Index) : Prop where
  aware : Aware i₀ log i
  named : ∀ e ∈ log, ∀ x, StoresName x e.op → Named s x
  single : ∀ e ∈ log, ∀ e' ∈ log, ∀ x y, StoresName x e.op → StoresName y e'.op → x = y

theorem Justified.named_of_post (h : Justified s req seen o) (hmethod : req.method = .post)
    (hpath : ¬ "//".toList <:+: req.path) (hx : StoresName x o) : Named s x := by
  have hnot : ¬ (req.method = .put ∨ req.method = .patch) := by
    rw [hmethod]
    decide
  cases h with
  | passive h => exact absurd h hx.not_passive
  | replace _ hput _ => exact absurd hput hnot
  | acl h _ | root h _ | orphan h _ _ | ancestor h _ _ _ _ | settle h _ _ _ =>
    exact absurd h.method hnot
  | @mint container child _ _ hparsed hcontainer hminted _ _ =>
    obtain rfl := hx.unique ⟨_, .inr ⟨_, rfl⟩⟩
    obtain ⟨segs, hsegs, hname⟩ :=
      (named_target hparsed hpath).container (container_getLast? hparsed hcontainer)
    rw [hname] at hminted
    obtain ⟨seg, slashes, hbelow, hone⟩ := hminted.below hsegs
    exact .inr ⟨segs, seg, slashes, hbelow, hone⟩
  | unlink _ _ _ | remove _ _ _ | removeContainer _ _ =>
    obtain ⟨m, ho | ⟨c, ho⟩⟩ := hx <;> cases ho

theorem Minting.step (h : Minting s i₀ seen u.backend.index) (ho : Justified s req seen o)
    (honce : Once seen o) (hmethod : req.method = .post) (hpath : ¬ "//".toList <:+: req.path) :
    Minting s i₀ (seen ++ [⟨o, (World.sem u o).1⟩]) (World.sem u o).2.backend.index := by
  have hfirst : ∀ {x}, StoresName x o → ∀ e ∈ seen, ∀ y, ¬ StoresName y e.op := by
    intro x hx e he y hy
    exact hy.not_passive (honce.resolve_left hx.not_passive e he)
  refine ⟨h.aware.step (ho.keeps (by rw [hmethod]; decide)), ?_, ?_⟩
  · intro e he x hx
    rcases List.mem_append.mp he with hold | hnew
    · exact h.named e hold x hx
    · rw [List.mem_singleton.mp hnew] at hx
      exact ho.named_of_post hmethod hpath hx
  · intro e he e' he' x y hx hy
    rcases List.mem_append.mp he with hold | hnew <;> rcases List.mem_append.mp he' with hold' | hnew'
    · exact h.single e hold e' hold' x y hx hy
    · rw [List.mem_singleton.mp hnew'] at hy
      exact absurd hx (hfirst hy e hold x)
    · rw [List.mem_singleton.mp hnew] at hx
      exact absurd hy (hfirst hx e' hold' y)
    · rw [List.mem_singleton.mp hnew] at hx
      rw [List.mem_singleton.mp hnew'] at hy
      exact hx.unique hy

/-- **`POST` keeps the names apart** when the name it mints is unused with and without a slash. -/
theorem Apart.handle_post (h : Apart s w.backend.index) (hpath : ¬ "//".toList <:+: req.path)
    (hmethod : req.method = .post)
    (hmint : ∀ x, w.backend.index.meta? x = none → ((s.handle req w).2.backend.index.meta? x).isSome → w.backend.index.meta? (LdpState.counterpart x) = none)
    :
    Apart s (s.handle req w).2.backend.index := by
  have hserve : s.serve req = s.postHandler req := by
    unfold serve
    rw [hmethod]
  have honce : Heeds (S := storeSig) Once [] (s.serve req) fun _ _ => True := by
    rw [hserve]
    exact once_postHandler
  have hstart : Minting s w.backend.index [] w.backend.index :=
    ⟨aware_start _, by simp, by simp⟩
  obtain ⟨log, hend, -⟩ := Heeds.run
    (J := fun log u => Minting s w.backend.index log u.backend.index)
    (Heeds.and (conducts_serve s req) honce) World.sem
    (fun log u o hj ho => hj.step ho.1 ho.2 hmethod hpath) hstart
  have hadded := hend.aware.added
  by_cases hnew : ∃ x, ((s.handle req w).2.backend.index.meta? x).isSome ∧
      w.backend.index.meta? x = none
  · obtain ⟨x, hx, habsent⟩ := hnew
    have hstored : ∀ y, ((s.handle req w).2.backend.index.meta? y).isSome →
        w.backend.index.meta? y = none → ∃ e ∈ log, StoresName y e.op := by
      intro y hy hnone
      refine (hadded y hy).resolve_left ?_
      rw [hnone]
      exact Bool.noConfusion
    obtain ⟨e, he, hxe⟩ := hstored x hx habsent
    refine h.grow (hend.named e he x hxe) (.inr (hmint x habsent hx)) fun y hy => ?_
    by_cases hold : (w.backend.index.meta? y).isSome
    · exact .inl hold
    · obtain ⟨e', he', hye⟩ := hstored y hy (Option.not_isSome_iff_eq_none.mp hold)
      exact .inr (hend.single e' he' e he y x hye hxe)
  · refine h.of_le fun x hx => ?_
    by_contra hold
    exact hnew ⟨x, hx, Option.not_isSome_iff_eq_none.mp hold⟩

/-! ## §6 Runs -/

/-- No `PATCH` of the run makes a document beside the container of the same name. -/
def PatchesApart (s : LdpState) (w₀ : World) (reqs : List Request) : Prop :=
  ∀ past req rest target, reqs = past ++ req :: rest → req.method = .patch →
    parseTarget s.baseUrl req.path = .ok target → target.isContainer = false →
    (s.run past w₀).backend.index.meta? target.iri = none →
    ((s.handle req (s.run past w₀)).2.backend.index.meta? target.iri).isSome →
      (s.run past w₀).backend.index.meta? (target.iri ++ ['/']) = none

/-- What a `POST` of the run mints was unused with and without a slash. -/
def MintsUnused (s : LdpState) (w₀ : World) (reqs : List Request) : Prop :=
  ∀ past req rest x, reqs = past ++ req :: rest → req.method = .post →
    (s.run past w₀).backend.index.meta? x = none →
    ((s.handle req (s.run past w₀)).2.backend.index.meta? x).isSome →
      (s.run past w₀).backend.index.meta? (counterpart x) = none

theorem Apart.run {reqs : List Request} (h : Apart s w.backend.index)
    (hpaths : ∀ r ∈ reqs, ¬ "//".toList <:+: r.path) (hpatch : PatchesApart s w reqs)
    (hmint : MintsUnused s w reqs) : Apart s (s.run reqs w).backend.index := by
  induction reqs generalizing w with
  | nil => exact h
  | cons req rest ih =>
    obtain ⟨hpath, hrest⟩ := List.forall_mem_cons.mp hpaths
    refine ih ?_ hrest ?_ ?_
    · by_cases hmethod : req.method = .post
      · exact h.handle_post hpath hmethod fun x => hmint [] req rest x rfl hmethod
      · exact h.handle_named hpath hmethod fun target => hpatch [] req rest target rfl
    · intro past later after target hsplit
      exact hpatch (req :: past) later after target (by rw [hsplit]; rfl)
    · intro past later after x hsplit
      exact hmint (req :: past) later after x (by rw [hsplit]; rfl)

/-- A storage that holds the root and its ACL only. -/
theorem apart_provisioned
    (h : ∀ x, (i.meta? x).isSome → x = storageRoot s.baseUrl ∨ x = aclFor (storageRoot s.baseUrl)) :
    Apart s i := by
  constructor
  · intro x hx
    rcases h x hx with rfl | rfl
    · exact .inl dir_nil.symm
    · refine .inr ⟨[], aclSuffix, 0, ⟨by simp, ⟨by decide, by decide⟩, ?_⟩, by decide⟩
      rw [dir_nil]
      simp [aclFor]
  · intro x hx hslashed
    -- neither name is the other with a slash
    have hend : (x ++ ['/']).getLast? = some '/' := by simp
    rcases h _ hslashed with heq | heq
    · have hlen := congrArg List.length heq
      rw [List.length_append, List.length_singleton] at hlen
      rcases h x hx with rfl | rfl
      · omega
      · rw [aclFor, List.length_append] at hlen
        omega
    · rw [heq, aclFor] at hend
      revert hend
      simp [aclSuffix]

/-- **Slash semantics**: from a storage with its root and the root's ACL, requests on paths
without adjacent slashes never lead to a name stored with and without a trailing slash, provided
that no `PATCH` makes a document beside a container and that minted names are unused. -/
theorem slash_semantics (s : LdpState) (w₀ : World)
    (h₀ : ∀ x, (w₀.backend.index.meta? x).isSome →
      x = storageRoot s.baseUrl ∨ x = aclFor (storageRoot s.baseUrl))
    (reqs : List Request) (hpaths : ∀ r ∈ reqs, ¬ "//".toList <:+: r.path)
    (hpatch : PatchesApart s w₀ reqs) (hmint : MintsUnused s w₀ reqs) (x : Iri) :
    ¬ (((s.run reqs w₀).backend.index.meta? x).isSome ∧
      ((s.run reqs w₀).backend.index.meta? (x ++ ['/'])).isSome) := by
  rintro ⟨hx, hslashed⟩
  exact ((apart_provisioned h₀).run hpaths hpatch hmint).apart x hx hslashed

/-- The storage everybody may write to holds the root and its ACL. -/
theorem only_openWorld (x : Iri) (hx : (openWorld.backend.index.meta? x).isSome) :
    x = storageRoot noteState.baseUrl ∨ x = aclFor (storageRoot noteState.baseUrl) := by
  have hkeys : ∀ y ∈ openWorld.backend.index.records.keys,
      y = storageRoot noteState.baseUrl ∨ y = aclFor (storageRoot noteState.baseUrl) := by
    decide
  exact hkeys x (AList.lookup_isSome.mp hx)

/-- A `PUT` of `/a/b` makes `/a/` on the way, then a `PATCH` makes `/d`: neither `/a` nor `/d/`
is stored. -/
theorem slash_semantics_put_patch :
    ((noteState.run [samplePut "/a/b", insertNote] openWorld).backend.index.meta?
      "http://h/d".toList).isSome ∧
    ¬ (((noteState.run [samplePut "/a/b", insertNote] openWorld).backend.index.meta?
        "http://h/a".toList).isSome ∧
      ((noteState.run [samplePut "/a/b", insertNote] openWorld).backend.index.meta?
        ("http://h/a".toList ++ ['/'])).isSome) := by
  have hpatch : PatchesApart noteState openWorld [samplePut "/a/b", insertNote] := by
    rintro (_ | ⟨first, _ | ⟨second, past⟩⟩) req rest target hsplit hmethod hparsed - - -
    · obtain ⟨rfl, -⟩ := List.cons.inj hsplit
      cases hmethod
    · obtain ⟨rfl, htail⟩ := List.cons.inj hsplit
      obtain ⟨rfl, -⟩ := List.cons.inj htail
      have hfree : parseTarget noteState.baseUrl insertNote.path = .ok noteTarget ∧
          (noteState.run [samplePut "/a/b"] openWorld).backend.index.meta?
            (noteTarget.iri ++ ['/']) = none := by decide
      obtain rfl := Except.ok.inj (hparsed.symm.trans hfree.1)
      exact hfree.2
    · simp at hsplit
  have hmint : MintsUnused noteState openWorld [samplePut "/a/b", insertNote] := by
    rintro past req rest x hsplit hmethod
    have hmem : req ∈ [samplePut "/a/b", insertNote] := by
      rw [hsplit]
      simp
    rcases List.mem_cons.mp hmem with rfl | hmem
    · cases hmethod
    · rw [List.mem_singleton.mp hmem] at hmethod
      cases hmethod
  exact ⟨by decide, slash_semantics noteState openWorld only_openWorld _
    (by decide) hpatch hmint _⟩

/-- **A document beside its container**: after a `PUT` of `/d/b`, which makes `/d/`, a `PATCH`
makes the document `/d`, and answers 201. -/
theorem patched_twin :
    (∀ x, (openWorld.backend.index.meta? x).isSome →
      x = storageRoot noteState.baseUrl ∨ x = aclFor (storageRoot noteState.baseUrl)) ∧
    okStatus (exec (noteState.serve insertNote) (noteState.run [samplePut "/d/b"] openWorld)).1 =
      some 201 ∧
    ((noteState.run [samplePut "/d/b", insertNote] openWorld).backend.index.meta?
      "http://h/d".toList).isSome ∧
    ((noteState.run [samplePut "/d/b", insertNote] openWorld).backend.index.meta?
      ("http://h/d".toList ++ ['/'])).isSome :=
  ⟨only_openWorld, by decide⟩

end SolidServer.Ldp.LdpState
