import SolidServer.Ldp.Frame
import SolidServer.Text.Path

/-!
# Who may change a container's members

Three functions of the handlers decide where a membership change happens:
`nearest_existing_container` says which container is authorised, `parent_container` and
`ensure_ancestor_containers` which ones are changed.  On the paths of a storage whose
containers form a tree below the root (`Tree`) they agree, as long as no request path
begins with two slashes; such paths are where they part.

`Tree` is an invariant of every run of such requests, so the agreement holds in every
state the server can get into.
-/

namespace SolidServer.Ldp.LdpState

open SolidServer.Effects SolidServer.Store SolidServer.Authz
open SolidServer.Text (IsSegment descend)

variable {s : LdpState} {req : Request} {b₀ b b' : Backend} {child : Iri}

/-! ## §1 Targets as segments -/

/-- The container of the storage along a list of segments. -/
def dir (s : LdpState) (segs : List Text) : Iri := descend (storageRoot s.baseUrl) segs

theorem getLast?_dir (segs : List Text) : (s.dir segs).getLast? = some '/' :=
  Text.getLast?_descend (storageRoot_getLast? _) segs

theorem dir_concat (segs : List Text) (seg : Text) :
    s.dir (segs ++ [seg]) = s.dir segs ++ seg ++ ['/'] := Text.descend_concat _ _ _

theorem dir_prefix_dir {as bs : List Text} (h : as <+: bs) : s.dir as <+: s.dir bs := by
  obtain ⟨more, rfl⟩ := h
  rw [dir, dir, Text.descend_append]
  exact Text.prefix_descend _ _

theorem dir_injective {as bs : List Text} (has : ∀ seg ∈ as, IsSegment seg)
    (hbs : ∀ seg ∈ bs, IsSegment seg) (h : s.dir as = s.dir bs) : as = bs :=
  Text.descend_injective has hbs h

/-- A container of the storage is its name followed by one slash. -/
theorem dir_eq_concat {segs : List Text} (hsegs : ∀ seg ∈ segs, IsSegment seg) :
    ∃ name, s.dir segs = name ++ ['/'] ∧ name.getLast? ≠ some '/' :=
  Text.descend_eq_concat (Text.getLast?_trimEndMatches _ _) hsegs

/-- A name below the root: the containers on the way, the last segment, and the slashes after it. -/
structure Below (s : LdpState) (iri : Iri) (way : List Text) (last : Text) (slashes : Nat) : Prop where
  way_segments : ∀ seg ∈ way, IsSegment seg
  last_segment : IsSegment last
  iri_eq : iri = s.dir way ++ last ++ List.replicate slashes '/'

variable {target : LdpTarget} {c : Iri} {w : World}

/-- **Accepted targets**, unless the path begins with two slashes, are the root or lie below it. -/
theorem located (hparsed : parseTarget s.baseUrl req.path = .ok target)
    (hpath : ¬ "//".toList <+: req.path) :
    target.iri = s.dir [] ∨ ∃ way last slashes, Below s target.iri way last slashes := by
  obtain ⟨rel, hrel⟩ := parseTarget_ok hparsed
  cases rel with
  | nil => exact .inl (by simpa [dir] using hrel.iri)
  | cons c rest =>
    right
    have hc : c ≠ '/' := by
      rintro rfl
      have hup : pathOnly req.path <+: req.path := List.takeWhile_prefix _
      rw [hrel.path] at hup
      exact hpath (List.IsPrefix.trans ⟨rest, rfl⟩ hup)
    have hinner : innerPath ('/' :: c :: rest) = Text.trimEndMatches (c :: rest) '/' := by
      simp [innerPath, Text.trimStartMatches, hc]
    obtain ⟨k, hk⟩ := Text.eq_trimEndMatches_append (c :: rest) '/'
    have hne : Text.trimEndMatches (c :: rest) '/' ≠ [] := by
      intro hnil
      rw [hnil, List.nil_append] at hk
      have hmem : c ∈ List.replicate k '/' := by rw [← hk]; simp
      exact hc (List.eq_of_mem_replicate hmem)
    obtain ⟨way, last, hway, hlast, heq, hsplit⟩ :=
      Text.exists_segments (Text.trimEndMatches (c :: rest) '/')
    have hsegs := hrel.segments (by rw [hinner]; exact hne)
    rw [hinner, hsplit] at hsegs
    refine ⟨way, last, k, fun seg hseg => ⟨(hsegs seg (by simp [hseg])).1, hway seg hseg⟩,
      ⟨(hsegs last (by simp)).1, hlast⟩, ?_⟩
    rw [hrel.iri, hk, heq]
    simp [dir, descend]

/-! ## §2 The three functions -/

section
variable {iri : Iri} {way : List Text} {last : Text} {slashes : Nat}

theorem Below.segments (h : Below s iri way last slashes) :
    ∀ seg ∈ way ++ [last], IsSegment seg := by
  intro seg hseg
  rcases List.mem_append.mp hseg with hway | hlast
  · exact h.way_segments seg hway
  · rw [List.mem_singleton.mp hlast]
    exact h.last_segment

theorem getLast?_append_segment {t seg : Text} (h : IsSegment seg) :
    (t ++ seg).getLast? ≠ some '/' := by
  rw [List.getLast?_append_of_ne_nil _ h.1]
  exact fun hlast => h.2 (List.mem_of_getLast? hlast)

theorem Below.trimmed (h : Below s iri way last slashes) :
    Text.trimEndMatches iri '/' = s.dir way ++ last := by
  rw [h.iri_eq, Text.trimEndMatches_append_replicate,
    Text.trimEndMatches_eq_self (getLast?_append_segment h.last_segment)]

/-- The scheme of an identifier ends before the last slash of its path. -/
theorem schemeEnd_le {name last : Text} (hname : name.getLast? ≠ some '/') (hlast : '/' ∉ last) :
    ((Text.find "://".toList (name ++ '/' :: last)).map (· + 3)).getD 0 ≤ name.length := by
  cases hfind : Text.find "://".toList (name ++ '/' :: last) with
  | none => simp
  | some n =>
    simp only [Option.map_some, Option.getD_some]
    obtain ⟨more, hmore⟩ := Text.find_prefix hfind
    have hget : ∀ i < 3, (name ++ '/' :: last)[n + i]? = "://".toList[i]? := by
      intro i hi
      have hlen : i < "://".toList.length := hi
      rw [← List.getElem?_drop, ← hmore, List.getElem?_append_left hlen]
    -- the last slash is the one after `name`, and the one before it belongs to the scheme
    have hsecond : (name ++ '/' :: last)[n + 2]? = some '/' := hget 2 (by decide)
    have hfirst : (name ++ '/' :: last)[n + 1]? = some '/' := hget 1 (by decide)
    by_contra hlt
    push Not at hlt
    rcases Nat.lt_trichotomy (n + 2) name.length with hbefore | hat | hafter
    · omega
    · rw [List.getElem?_append_left (by omega)] at hfirst
      rw [List.getLast?_eq_getElem?, show name.length - 1 = n + 1 by omega] at hname
      exact hname hfirst
    · obtain ⟨j, hj⟩ : ∃ j, n + 2 = name.length + (j + 1) := ⟨n + 2 - name.length - 1, by omega⟩
      rw [hj, List.getElem?_append_right (by omega), Nat.add_sub_cancel_left] at hsecond
      exact hlast (List.mem_of_getElem? hsecond)

/-- `parent_container` is the container the last segment is in. -/
theorem Below.parentContainer_eq (h : Below s iri way last slashes) :
    parentContainer iri = some (s.dir way) := by
  obtain ⟨name, hname, hslash⟩ := dir_eq_concat (s := s) h.way_segments
  have htrim : Text.trimEndMatches iri '/' = name ++ '/' :: last := by
    rw [h.trimmed, hname]
    simp
  have hle := schemeEnd_le hslash h.last_segment.2
  unfold parentContainer
  simp only [htrim]
  rw [List.drop_append_of_le_length hle, Text.throughLast_append h.last_segment.2,
    List.take_append_of_le_length hle, Option.map_some, ← List.append_assoc,
    List.take_append_drop, hname]

/-- Whatever `parent_container` finds is a prefix that ends in a slash. -/
theorem parentContainer_some {iri parent : Iri} (h : parentContainer iri = some parent) :
    parent <+: Text.trimEndMatches iri '/' ∧ parent.getLast? = some '/' := by
  unfold parentContainer at h
  simp only at h
  generalize ((Text.find "://".toList (Text.trimEndMatches iri '/')).map (· + 3)).getD 0 = n at h
  obtain ⟨p, hp, rfl⟩ := Option.map_eq_some_iff.mp h
  obtain ⟨hup, hlast⟩ := Text.throughLast_some hp
  constructor
  · conv_rhs => rw [← List.take_append_drop n (Text.trimEndMatches iri '/')]
    exact (List.prefix_append_right_inj _).mpr hup
  · have hne : p ≠ [] := by
      rintro rfl
      cases hlast
    rw [List.getLast?_append_of_ne_nil _ hne, hlast]

/-- The pairs the ancestor walk goes through are the neighbours on a list of segments. -/
theorem mem_ancestorSteps {pre : Text} {segs : List Text} {c x : Iri} :
    (c, x) ∈ ancestorSteps pre segs ↔ ∃ before seg after, segs = before ++ seg :: after ∧
      c = descend (pre ++ ['/']) before ∧ x = descend (pre ++ ['/']) (before ++ [seg]) := by
  induction segs generalizing pre with
  | nil => simp [ancestorSteps]
  | cons seg rest ih =>
    have hroot : pre ++ ['/'] ++ seg ++ ['/'] = descend (pre ++ ['/']) [seg] := by
      simp [descend]
    rw [ancestorSteps, List.mem_cons, ih]
    constructor
    · rintro (heq | ⟨before, seg', after, rfl, rfl, rfl⟩)
      · obtain ⟨rfl, rfl⟩ := Prod.mk.inj heq
        exact ⟨[], seg, rest, rfl, (Text.descend_nil _).symm, hroot⟩
      · refine ⟨seg :: before, seg', after, rfl, (Text.descend_cons _ _ _).symm, ?_⟩
        rw [List.cons_append, Text.descend_cons]
    · rintro ⟨before, seg', after, heq, rfl, rfl⟩
      cases before with
      | nil =>
        obtain ⟨rfl, rfl⟩ := List.cons.inj heq
        exact .inl (by rw [Text.descend_nil, hroot]; rfl)
      | cons first before =>
        obtain ⟨rfl, rfl⟩ := List.cons.inj heq
        refine .inr ⟨before, seg', after, rfl, Text.descend_cons _ _ _, ?_⟩
        rw [List.cons_append, Text.descend_cons]

/-- The segments `ensure_ancestor_containers` goes through. -/
theorem Below.splitOn_eq (h : Below s iri way last slashes) :
    Text.stripPrefix? iri (Text.trimEndMatches s.baseUrl '/') =
        some ('/' :: (descend [] way ++ last ++ List.replicate slashes '/')) ∧
      (Text.trimStartMatches ('/' :: (descend [] way ++ last ++ List.replicate slashes '/'))
        '/').splitOn '/' = way ++ last :: List.replicate slashes [] := by
  constructor
  · have hiri : iri = Text.trimEndMatches s.baseUrl '/' ++
        ('/' :: (descend [] way ++ last ++ List.replicate slashes '/')) := by
      rw [h.iri_eq]
      simp [dir, descend, storageRoot]
    conv_lhs => rw [hiri]
    exact Text.stripPrefix?_append _ _
  · -- the first character is that of a segment, so only the leading slash is trimmed
    have htrim : Text.trimStartMatches
        ('/' :: (descend [] way ++ last ++ List.replicate slashes '/')) '/' =
        descend [] way ++ last ++ List.replicate slashes '/' := by
      obtain ⟨c, rest, hc, heq⟩ : ∃ c rest, c ≠ '/' ∧
          descend [] way ++ last ++ List.replicate slashes '/' = c :: rest := by
        cases hway : way with
        | nil =>
          obtain ⟨c, rest, rfl⟩ := List.exists_cons_of_ne_nil h.last_segment.1
          refine ⟨c, rest ++ List.replicate slashes '/', ?_, by simp⟩
          rintro rfl
          exact h.last_segment.2 (by simp)
        | cons seg segs =>
          obtain ⟨hne, hslash⟩ := h.way_segments seg (by simp [hway])
          obtain ⟨c, rest, rfl⟩ := List.exists_cons_of_ne_nil hne
          refine ⟨c, _, ?_, by simp [descend]; rfl⟩
          rintro rfl
          exact hslash (by simp)
      rw [heq]
      simp [Text.trimStartMatches, hc]
    rw [htrim, List.append_assoc,
      Text.splitOn_descend fun seg hseg => (h.way_segments seg hseg).2]
    congr 1
    cases slashes with
    | zero => simpa using List.splitOn_eq_singleton h.last_segment.2
    | succ k =>
      rw [List.replicate_succ, Text.splitOn_cons h.last_segment.2, Text.splitOn_replicate]

theorem Below.mem_ancestorsOf (h : Below s iri way last slashes) {c x : Iri} :
    (c, x) ∈ s.ancestorsOf iri ↔ ∃ before seg after,
      (way ++ last :: List.replicate slashes []).dropLast = before ++ seg :: after ∧
        c = s.dir before ∧ x = s.dir (before ++ [seg]) := by
  obtain ⟨hstrip, hsplit⟩ := h.splitOn_eq
  unfold ancestorsOf
  simp only [hstrip, hsplit]
  exact mem_ancestorSteps

/-- A non-empty segment of the walk leads along the way of the target. -/
theorem walk_prefix {before after : List Text} {seg : Text}
    (heq : (way ++ last :: List.replicate slashes []).dropLast = before ++ seg :: after)
    (hseg : seg ≠ []) : before ++ [seg] <+: way ++ [last] := by
  have hall : before ++ [seg] <+: way ++ [last] ++ List.replicate slashes [] := by
    have hdrop := List.dropLast_prefix (way ++ last :: List.replicate slashes [])
    rw [heq] at hdrop
    refine List.IsPrefix.trans ⟨after, by simp⟩ (hdrop.trans ?_)
    simp
  rcases List.prefix_or_prefix_of_prefix hall (List.prefix_append _ _) with hp | ⟨more, hmore⟩
  · exact hp
  · rcases List.eq_nil_or_concat' more with rfl | ⟨init, x, rfl⟩
    · rw [← hmore]
      simp
    · -- beyond the way there are only empty segments
      rw [← List.append_assoc] at hmore
      obtain ⟨-, hx⟩ := List.append_inj' hmore rfl
      rw [← hmore, List.append_assoc, List.prefix_append_right_inj] at hall
      have hmem : x ∈ List.replicate slashes ([] : Text) := hall.subset (by simp)
      exact absurd ((List.cons.inj hx).1.symm.trans (List.eq_of_mem_replicate hmem)) hseg

/-- The nearest-container walk looks at the boundaries of a text below the root, longest first. -/
theorem nearestIn_eq {i : Index} {root : Iri} (hroot : root.getLast? = some '/') (t : Text) :
    ∀ fuel, (root ++ t).length < fuel → nearestIn i root fuel (root ++ t) =
      (Text.boundaries '/' root (root ++ t)).find? fun c => (i.meta? c).isSome := by
  obtain ⟨r, hr⟩ : ∃ r, root = r ++ ['/'] :=
    ⟨root.dropLast, (List.dropLast_append_getLast? '/' hroot).symm⟩
  induction t using List.reverseRecOn with
  | nil =>
    intro fuel hfuel
    obtain ⟨n, rfl⟩ : ∃ n, fuel = n + 1 := ⟨fuel - 1, by omega⟩
    have hthrough : Text.throughLast root '/' = some root := by
      rw [hr, Text.throughLast_concat_self]
    rw [List.append_nil, Text.boundaries_self hroot, nearestIn, hthrough]
    simp only [List.find?_cons]
    cases (i.meta? root).isSome <;> rfl
  | append_singleton t c ih =>
    intro fuel hfuel
    rw [← List.append_assoc] at hfuel ⊢
    obtain ⟨n, rfl⟩ : ∃ n, fuel = n + 1 := ⟨fuel - 1, by omega⟩
    rw [List.length_append, List.length_singleton] at hfuel
    by_cases hc : c = '/'
    · -- a container: it is looked at first, and it is longer than the root
      subst hc
      have hlonger : ¬ (root ++ t ++ ['/'] = root ∨
          Text.len (root ++ t ++ ['/']) ≤ Text.len root) := by
        have hpos := Text.len_pos (s := ['/']) (by simp)
        rintro (heq | hle)
        · simpa using congrArg List.length heq
        · simp only [Text.len_append] at hle
          omega
      rw [nearestIn, Text.throughLast_concat_self,
        Text.boundaries_concat_sep (by simp [List.append_assoc]), List.find?_cons]
      simp only [if_neg hlonger, List.dropLast_concat, ih n (by omega)]
      cases (i.meta? (root ++ t ++ ['/'])).isSome <;> rfl
    · rw [Text.boundaries_concat_ne hc, ← ih (n + 1) (by omega), nearestIn, nearestIn,
        Text.throughLast_concat_ne _ hc]

/-- The nearest container is one that is stored while no longer one is. -/
theorem find?_boundaries {root t c : Text} {p : Text → Bool}
    (hc : c ∈ Text.boundaries '/' root t) (hp : p c = true)
    (hlonger : ∀ d ∈ Text.boundaries '/' root t, c.length < d.length → p d = false) :
    (Text.boundaries '/' root t).find? p = some c := by
  obtain ⟨before, after, hsplit⟩ := List.append_of_mem hc
  have hsorted : (Text.boundaries '/' root t).Pairwise fun a b => b.length < a.length :=
    Text.boundaries_pairwise
  rw [hsplit, List.pairwise_append] at hsorted
  rw [List.find?_eq_some_iff_append]
  refine ⟨hp, before, after, hsplit, fun d hd => ?_⟩
  have hlt := hsorted.2.2 d hd c (by simp)
  rw [hlonger d (by rw [hsplit]; simp [hd]) hlt]
  rfl

/-- What the nearest-container walk starts from: the target without one trailing slash. -/
theorem Below.nearestContainer_eq (h : Below s iri way last slashes) (b : Backend) :
    s.nearestContainer b iri =
      (Text.boundaries '/' (storageRoot s.baseUrl)
        (s.dir way ++ last ++ List.replicate (slashes - 1) '/')).find?
          fun c => (b.index.meta? c).isSome := by
  have hcurrent : (if Text.endsWith iri ['/'] then iri.dropLast else iri) =
      s.dir way ++ last ++ List.replicate (slashes - 1) '/' := by
    cases slashes with
    | zero =>
      have hiri : iri = s.dir way ++ last := by simpa using h.iri_eq
      have hends : ¬ Text.endsWith iri ['/'] = true := by
        rw [Text.endsWith_singleton, hiri]
        exact getLast?_append_segment h.last_segment
      rw [if_neg hends, hiri]
      simp
    | succ k =>
      have hiri : iri = s.dir way ++ last ++ List.replicate k '/' ++ ['/'] := by
        rw [h.iri_eq, List.replicate_succ', ← List.append_assoc]
      rw [if_pos (Text.endsWith_iff.mpr (by rw [hiri]; exact List.suffix_append _ _)), hiri,
        List.dropLast_concat, Nat.add_sub_cancel]
  unfold nearestContainer
  simp only [hcurrent]
  have hunder : s.dir way ++ last ++ List.replicate (slashes - 1) '/' =
      storageRoot s.baseUrl ++
        (way.flatMap (· ++ ['/']) ++ last ++ List.replicate (slashes - 1) '/') := by
    simp [dir, descend]
  rw [hunder]
  exact nearestIn_eq (storageRoot_getLast? _) _ _ (Nat.lt_succ_self _)

/-- **The parent is the nearest container**, if it is stored: a target with at most one trailing
slash. -/
theorem Below.nearest_parent (h : Below s iri way last slashes) (hone : slashes ≤ 1)
    (hexists : (b.index.meta? (s.dir way)).isSome) :
    s.nearestContainer b iri = some (s.dir way) := by
  have hzero : slashes - 1 = 0 := by omega
  rw [h.nearestContainer_eq, hzero, List.replicate_zero, List.append_nil]
  refine find?_boundaries (Text.mem_boundaries.mpr ⟨List.prefix_append _ _,
    Text.prefix_descend _ _, getLast?_dir way⟩) hexists fun d hd hlt => ?_
  -- a longer boundary would end inside the last segment
  obtain ⟨hup, -, hslash⟩ := Text.mem_boundaries.mp hd
  obtain ⟨more, rfl⟩ := List.prefix_of_prefix_length_le (List.prefix_append _ _) hup hlt.le
  have hne : more ≠ [] := by
    rintro rfl
    simp at hlt
  rw [List.getLast?_append_of_ne_nil _ hne] at hslash
  rw [List.prefix_append_right_inj] at hup
  exact absurd (hup.subset (List.mem_of_getLast? hslash)) h.last_segment.2

end

/-! ## §3 The tree of containers -/

/-- **The containers form a tree below the root**: each is named by segments, is listed by the
container above it, which is stored too, and only containers list members. -/
structure Tree (s : LdpState) (i : Index) : Prop where
  shape : ∀ d, (i.meta? d).isSome → d.getLast? = some '/' →
    ∃ segs, (∀ seg ∈ segs, IsSegment seg) ∧ d = s.dir segs
  linked : ∀ segs seg, (∀ x ∈ segs ++ [seg], IsSegment x) →
    (i.meta? (s.dir (segs ++ [seg]))).isSome →
      (i.meta? (s.dir segs)).isSome ∧ s.dir (segs ++ [seg]) ∈ i.childrenOf (s.dir segs)
  edges : ∀ c x, x ∈ i.childrenOf c → c.getLast? = some '/'

namespace Tree

variable {i i' : Index}

/-- With a container all the containers above it are stored. -/
theorem closed (h : Tree s i) {segs more : List Text} (hsegs : ∀ x ∈ segs ++ more, IsSegment x)
    (hexists : (i.meta? (s.dir (segs ++ more))).isSome) : (i.meta? (s.dir segs)).isSome := by
  induction more using List.reverseRecOn with
  | nil => simpa using hexists
  | append_singleton more seg ih =>
    rw [← List.append_assoc] at hsegs hexists
    exact ih (fun x hx => hsegs x (List.mem_append_left _ hx)) (h.linked _ _ hsegs hexists).1

/-- A stored name with a trailing slash has exactly one, and is not above the root. -/
theorem root_prefix (h : Tree s i) {d : Iri} (hd : (i.meta? d).isSome)
    (hslash : d.getLast? = some '/') : storageRoot s.baseUrl <+: d := by
  obtain ⟨segs, -, rfl⟩ := h.shape d hd hslash
  exact Text.prefix_descend _ _

/-- Storing the record of a document, of a container that is stored already, or of the root. -/
theorem put (h : Tree s i) {x : Iri} {m : ResourceMeta}
    (hx : x.getLast? = some '/' → (i.meta? x).isSome ∨ x = s.dir []) : Tree s (i.putMeta x m) where
  shape d hd hslash := by
    rw [Index.meta?_putMeta] at hd
    split_ifs at hd with hdx
    · rw [hdx] at hslash ⊢
      rcases hx hslash with hold | hroot
      · exact h.shape x hold hslash
      · exact ⟨[], by simp, hroot⟩
    · exact h.shape d hd hslash
  linked segs seg hsegs hexists := by
    rw [Index.meta?_putMeta]
    have hold : (i.meta? (s.dir (segs ++ [seg]))).isSome := by
      rw [Index.meta?_putMeta] at hexists
      split_ifs at hexists with heq
      · rw [heq]
        rcases hx (heq ▸ getLast?_dir _) with hold | hroot
        · exact hold
        · rw [hroot] at heq
          have := dir_injective hsegs (by simp) heq
          simp at this
      · exact hexists
    obtain ⟨hparent, hlisted⟩ := h.linked segs seg hsegs hold
    refine ⟨?_, hlisted⟩
    split_ifs
    · rfl
    · exact hparent
  edges c y hy := h.edges c y hy

/-- Storing a member of a container: a document, a container that is stored already, or a new
container right below it. -/
theorem create (h : Tree s i) {c x : Iri} {m : ResourceMeta} (hc : (i.meta? c).isSome)
    (hslash : c.getLast? = some '/')
    (hx : x.getLast? = some '/' → (i.meta? x).isSome ∨
      ∃ segs seg, (∀ y ∈ segs ++ [seg], IsSegment y) ∧ c = s.dir segs ∧ x = s.dir (segs ++ [seg])) :
    Tree s ((i.putMeta x m).addChild c x) where
  shape d hd hdslash := by
    rw [meta?_created] at hd
    split_ifs at hd with hdx
    · rw [hdx] at hdslash ⊢
      rcases hx hdslash with hold | ⟨segs, seg, hsegs, -, hname⟩
      · exact h.shape x hold hdslash
      · exact ⟨segs ++ [seg], hsegs, hname⟩
    · exact h.shape d hd hdslash
  linked segs seg hsegs hexists := by
    rw [meta?_created, Index.mem_childrenOf_addChild]
    -- a container that is already stored keeps its parent
    have hkeep : (i.meta? (s.dir (segs ++ [seg]))).isSome →
        (if s.dir segs = x then some m else i.meta? (s.dir segs)).isSome ∧
          (s.dir (segs ++ [seg]) ∈ i.childrenOf (s.dir segs) ∨
            s.dir segs = c ∧ s.dir (segs ++ [seg]) = x) := by
      intro hold
      obtain ⟨hparent, hlisted⟩ := h.linked segs seg hsegs hold
      refine ⟨?_, .inl hlisted⟩
      split_ifs
      · rfl
      · exact hparent
    rw [meta?_created] at hexists
    split_ifs at hexists with heq
    · rcases hx (heq ▸ getLast?_dir _) with hold | ⟨segs', seg', hsegs', hc', hx'⟩
      · exact hkeep (heq ▸ hold)
      · have hsame := dir_injective hsegs hsegs' (heq.trans hx')
        obtain ⟨rfl, hlast⟩ := List.append_inj' hsame rfl
        refine ⟨?_, .inr ⟨hc'.symm, heq⟩⟩
        split_ifs
        · rfl
        · rw [← hc']
          exact hc
    · exact hkeep hexists
  edges c' y hy := by
    rw [Index.mem_childrenOf_addChild] at hy
    rcases hy with hold | ⟨rfl, -⟩
    · exact h.edges c' y hold
    · exact hslash

/-- Taking a name out of a listing, and possibly its record with its own listing: of a document,
or of a container that lists nothing. -/
theorem remove (h : Tree s i) {x : Iri}
    (hx : x.getLast? = some '/' → i.childrenOf x = [])
    (hmeta : ∀ d, (i'.meta? d).isSome → (i.meta? d).isSome)
    (hother : ∀ d, d ≠ x → i'.meta? d = i.meta? d)
    (hgone : x.getLast? = some '/' → i'.meta? x = none)
    (hkids : ∀ c y, y ∈ i'.childrenOf c → y ∈ i.childrenOf c)
    (hkept : ∀ c y, y ∈ i.childrenOf c → c ≠ x → y ≠ x → y ∈ i'.childrenOf c) : Tree s i' where
  shape d hd hslash := h.shape d (hmeta d hd) hslash
  linked segs seg hsegs hexists := by
    obtain ⟨hparent, hlisted⟩ := h.linked segs seg hsegs (hmeta _ hexists)
    have hne : s.dir (segs ++ [seg]) ≠ x := by
      intro heq
      have hnone := hgone (heq ▸ getLast?_dir _)
      rw [← heq] at hnone
      rw [hnone] at hexists
      cases hexists
    have hparentNe : s.dir segs ≠ x := by
      intro heq
      rw [heq, hx (heq ▸ getLast?_dir _)] at hlisted
      cases hlisted
    exact ⟨by rw [hother _ hparentNe]; exact hparent, hkept _ _ hlisted hparentNe hne⟩
  edges c y hy := h.edges c y (hkids c y hy)

end Tree

/-! ## §4 Every step keeps the tree -/

section
variable {i : Index} {iri : Iri} {way : List Text} {last : Text} {slashes : Nat}

theorem dir_nil : s.dir [] = storageRoot s.baseUrl := Text.descend_nil _

/-- Nothing is created on the way to the root. -/
theorem ancestorsOf_root : s.ancestorsOf (s.dir []) = [] := by
  have hstrip : Text.stripPrefix? (s.dir []) (Text.trimEndMatches s.baseUrl '/') = some ['/'] := by
    rw [dir_nil]
    exact Text.stripPrefix?_append _ _
  unfold ancestorsOf
  simp only [hstrip]
  rfl

/-- The container above the root, if there is one, is not stored. -/
theorem Tree.no_container_above_root (h : Tree s i) {parent : Iri}
    (hparent : parentContainer (s.dir []) = some parent) : ¬ (i.meta? parent).isSome := by
  intro hexists
  obtain ⟨hup, hslash⟩ := parentContainer_some hparent
  have hroot := h.root_prefix hexists hslash
  have hle := (hroot.trans hup).length_le
  rw [dir_nil, storageRoot, Text.trimEndMatches_concat_self,
    Text.trimEndMatches_eq_self (Text.getLast?_trimEndMatches _ _), List.length_append] at hle
  simp only [List.length_singleton] at hle
  omega

variable {segs : List Text}

/-- No stored container has an empty segment. -/
theorem Tree.no_empty_segment (h : Tree s i) :
    ¬ (i.meta? (s.dir (segs ++ [[]]))).isSome := by
  intro hexists
  obtain ⟨segs', hsegs', heq⟩ := h.shape _ hexists (getLast?_dir _)
  obtain ⟨name, hname, hslash⟩ := dir_eq_concat (s := s) hsegs'
  rw [hname, dir_concat, List.append_nil] at heq
  obtain ⟨hdir, -⟩ := List.append_inj' heq rfl
  exact hslash (hdir ▸ getLast?_dir segs)

/-- Once everything on the way is stored, the target has at most one trailing slash, and a
container is stored itself. -/
theorem Below.settled (h : Below s iri way last slashes) (htree : Tree s i)
    (hway : ∀ p ∈ s.ancestorsOf iri, (i.meta? p.2).isSome) :
    slashes ≤ 1 ∧ (iri.getLast? = some '/' → (i.meta? iri).isSome) := by
  have hone : slashes ≤ 1 := by
    by_contra hmany
    obtain ⟨k, rfl⟩ : ∃ k, slashes = k + 2 := ⟨slashes - 2, by omega⟩
    refine htree.no_empty_segment (hway (s.dir (way ++ [last]), s.dir (way ++ [last] ++ [[]])) ?_)
    refine h.mem_ancestorsOf.mpr ⟨way ++ [last], [], List.replicate k [], ?_, rfl, rfl⟩
    rw [List.replicate_succ', ← List.cons_append, ← List.append_assoc, List.dropLast_concat,
      List.replicate_succ]
    simp
  refine ⟨hone, fun hslash => ?_⟩
  obtain rfl | rfl : slashes = 0 ∨ slashes = 1 := by omega
  · rw [h.iri_eq, List.replicate_zero, List.append_nil] at hslash
    exact absurd hslash (getLast?_append_segment h.last_segment)
  · have hiri : iri = s.dir (way ++ [last]) := by
      rw [h.iri_eq, dir_concat]
      rfl
    rw [hiri]
    refine hway (s.dir way, s.dir (way ++ [last])) ?_
    refine h.mem_ancestorsOf.mpr ⟨way, last, [], ?_, rfl, rfl⟩
    rw [show List.replicate 1 ([] : Text) = [[]] from rfl, show way ++ [last, []] =
      way ++ [last] ++ [[]] by simp, List.dropLast_concat]

/-- A step of the ancestor walk that is taken leads to a proper container. -/
theorem Below.ancestor (h : Below s iri way last slashes) {parent container : Iri}
    (hmem : (parent, container) ∈ s.ancestorsOf iri)
    (hslash : i.meta? container.dropLast = none) (hparent : (i.meta? parent).isSome) :
    ∃ before seg, before ++ [seg] <+: way ++ [last] ∧ parent = s.dir before ∧
      container = s.dir (before ++ [seg]) := by
  obtain ⟨before, seg, after, heq, rfl, rfl⟩ := h.mem_ancestorsOf.mp hmem
  have hseg : seg ≠ [] := by
    rintro rfl
    rw [dir_concat, List.append_nil, List.dropLast_concat] at hslash
    rw [hslash] at hparent
    cases hparent
  exact ⟨before, seg, walk_prefix heq hseg, rfl, rfl⟩

theorem Below.prefix_segments (h : Below s iri way last slashes) (hp : segs <+: way ++ [last]) :
    ∀ seg ∈ segs, IsSegment seg :=
  fun seg hseg => h.segments seg (hp.subset hseg)

/-- A minted child is one segment below its container. -/
theorem Minted.below {segs : List Text} (hsegs : ∀ seg ∈ segs, IsSegment seg)
    (h : Minted (s.dir segs) child) :
    ∃ seg slashes, Below s child segs seg slashes ∧ slashes ≤ 1 := by
  obtain ⟨stem, seed, n, attempt, asContainer, hstem, hchild⟩ := h
  have hdigit : ∀ k, '/' ∉ Text.hex k := by
    intro k hmem
    obtain ⟨d, hd⟩ := Text.mem_hex hmem
    have hdigits : ∀ d : Fin 16, Nat.digitChar d ≠ '/' := by decide
    exact hdigits d hd.symm
  obtain ⟨name, hname, hend⟩ := dir_eq_concat (s := s) hsegs
  have htrim : Text.trimEndMatches (s.dir segs) '/' = name := by
    rw [hname, Text.trimEndMatches_concat_self, Text.trimEndMatches_eq_self hend]
  have hseg : IsSegment (stem ++ "-".toList ++ Text.hex seed ++ "-".toList ++ Text.hex n ++
      "-".toList ++ Text.hex attempt) := ⟨by simp, by simp [hstem, hdigit]⟩
  refine ⟨_, if asContainer then 1 else 0, ⟨hsegs, hseg, ?_⟩, by split_ifs <;> decide⟩
  rw [hchild, childCandidate, htrim, hname]
  cases asContainer <;> simp

/-- A name below a container that ends in a slash is a container. -/
theorem Below.container (h : Below s iri way last slashes) (hone : slashes ≤ 1)
    (hslash : iri.getLast? = some '/') : iri = s.dir (way ++ [last]) := by
  obtain rfl | rfl : slashes = 0 ∨ slashes = 1 := by omega
  · rw [h.iri_eq, List.replicate_zero, List.append_nil] at hslash
    exact absurd hslash (getLast?_append_segment h.last_segment)
  · rw [h.iri_eq, dir_concat]
    rfl

/-- A minted container is one segment below its container. -/
theorem Minted.shape (hsegs : ∀ seg ∈ segs, IsSegment seg) (h : Minted (s.dir segs) child)
    (hslash : child.getLast? = some '/') :
    ∃ seg, IsSegment seg ∧ child = s.dir (segs ++ [seg]) := by
  obtain ⟨seg, slashes, hbelow, hone⟩ := h.below hsegs
  exact ⟨seg, hbelow.last_segment, hbelow.container hone hslash⟩

end

theorem notContainer_getLast? (hparsed : parseTarget s.baseUrl req.path = .ok target)
    (hdoc : target.isContainer = false) :
    target.iri.getLast? ≠ some '/' := by
  obtain ⟨rel, hrel⟩ := parseTarget_ok hparsed
  intro hslash
  rw [hrel.container.mpr hslash] at hdoc
  cases hdoc

theorem container_getLast? (hparsed : parseTarget s.baseUrl req.path = .ok target)
    (hcont : target.isContainer = true) :
    target.iri.getLast? = some '/' := by
  obtain ⟨rel, hrel⟩ := parseTarget_ok hparsed
  exact hrel.container.mp hcont

/-- **One step keeps the tree.** -/
theorem Step.tree (h : Step s req b₀ child b b') (hpath : ¬ "//".toList <+: req.path)
    (htree : Tree s b.index) : Tree s b'.index := by
  cases h with
  | idle h =>
    rw [h.index]
    exact htree
  | overwrite _ hplace h =>
    rw [h.index]
    refine htree.put fun hslash => .inl ?_
    rcases hplace with hplace | hacl
    · exact hplace
    · rw [not_acl_of_getLast? hslash] at hacl
      cases hacl
  | root _ _ h =>
    rw [h.index]
    exact htree.put fun _ => .inr dir_nil.symm
  | @ancestor target parent container m hc hway _ hslash hparent h =>
    rw [h.index]
    rcases located hc.parsed hpath with hroot | ⟨way, last, slashes, hbelow⟩
    · rw [hroot, ancestorsOf_root] at hway
      cases hway
    · obtain ⟨before, seg, hup, rfl, rfl⟩ := hbelow.ancestor hway hslash hparent
      exact htree.create hparent (getLast?_dir _) fun _ =>
        .inr ⟨before, seg, hbelow.prefix_segments hup, rfl, rfl⟩
  | @settle target parent m hc hparent hexists hway h =>
    rw [h.index]
    rcases located hc.parsed hpath with hroot | ⟨way, last, slashes, hbelow⟩
    · rw [hroot] at hparent
      exact absurd hexists (htree.no_container_above_root hparent)
    · exact htree.create hexists (parentContainer_some hparent).2 fun hslash =>
        .inl ((hbelow.settled htree hway).2 hslash)
  | @orphan target m hc hparent h =>
    rw [h.index]
    rcases located hc.parsed hpath with hroot | ⟨way, last, slashes, hbelow⟩
    · exact htree.put fun _ => .inr hroot
    · rw [hbelow.parentContainer_eq] at hparent
      cases hparent
  | @mint container m _ hparsed hcontainer _ hminted _ hexists h =>
    rw [h.index]
    have hslash := container_getLast? hparsed hcontainer
    obtain ⟨segs, hsegs, hname⟩ := htree.shape _ hexists hslash
    refine htree.create hexists hslash fun hchild => .inr ?_
    rw [hname] at hminted
    obtain ⟨seg, hseg, rfl⟩ := hminted.shape hsegs hchild
    refine ⟨segs, seg, fun x hx => ?_, hname, rfl⟩
    rcases List.mem_append.mp hx with hx | hx
    · exact hsegs x hx
    · rw [List.mem_singleton.mp hx]
      exact hseg
  | @unlink target hr hdoc h =>
    rw [h.index]
    have hnot := notContainer_getLast? hr.parsed hdoc
    refine htree.remove (x := target.iri) (fun hslash => absurd hslash hnot) (fun d hd => ?_)
      (fun d _ => meta?_afterUnlink _ _ _ d) (fun hslash => absurd hslash hnot)
      (fun c y hy => (mem_childrenOf_afterUnlink.mp hy).1)
      fun c y hy _ hne => mem_childrenOf_afterUnlink.mpr ⟨hy, fun hboth => hne hboth.2⟩
    rwa [meta?_afterUnlink] at hd
  | @remove target hr hdoc h =>
    rw [h.index]
    have hnot := notContainer_getLast? hr.parsed hdoc
    refine htree.remove (x := target.iri) (fun hslash => absurd hslash hnot) (fun d hd => ?_)
      (fun d hd => ?_) (fun hslash => absurd hslash hnot) (fun c y hy => ?_)
      fun c y hy hc hne => ?_
    · rw [Index.meta?_deleteMeta, meta?_afterUnlink] at hd
      split_ifs at hd
      · cases hd
      · exact hd
    · rw [Index.meta?_deleteMeta, meta?_afterUnlink, if_neg hd]
    · rw [Index.childrenOf_deleteMeta] at hy
      split_ifs at hy
      · cases hy
      · exact (mem_childrenOf_afterUnlink.mp hy).1
    · rw [Index.childrenOf_deleteMeta, if_neg hc]
      exact mem_childrenOf_afterUnlink.mpr ⟨hy, fun hboth => hne hboth.2⟩
  | @removeContainer target hr hcontainer hempty h =>
    rw [h.index]
    refine htree.remove (x := target.iri) (fun _ => hempty) (fun d hd => ?_)
      (fun d hd => ?_) (fun _ => ?_) (fun c y hy => ?_) fun c y hy hc hne => ?_
    · rw [meta?_afterUnlink, Index.meta?_deleteMeta] at hd
      split_ifs at hd
      · cases hd
      · exact hd
    · rw [meta?_afterUnlink, Index.meta?_deleteMeta, if_neg hd]
    · rw [meta?_afterUnlink, Index.meta?_deleteMeta, if_pos rfl]
    · have hy := (mem_childrenOf_afterUnlink.mp hy).1
      rw [Index.childrenOf_deleteMeta] at hy
      split_ifs at hy
      · cases hy
      · exact hy
    · refine mem_childrenOf_afterUnlink.mpr ⟨?_, fun hboth => hne hboth.2⟩
      rw [Index.childrenOf_deleteMeta, if_neg hc]
      exact hy

/-! ## §5 Every membership change is authorised -/

/-- **The container that is extended is the nearest one**: in a tree, a stored container followed
by one that is missing is the nearest stored container of the target. -/
theorem Below.nearest_ancestor {iri : Iri} {way : List Text} {last : Text} {slashes : Nat}
    (h : Below s iri way last slashes) (htree : Tree s b.index) {before : List Text} {seg : Text}
    (hup : before ++ [seg] <+: way ++ [last])
    (hexists : (b.index.meta? (s.dir before)).isSome)
    (habsent : b.index.meta? (s.dir (before ++ [seg])) = none) :
    s.nearestContainer b iri = some (s.dir before) := by
  have hway : before <+: way := by
    obtain ⟨more, hmore⟩ := hup
    rcases List.eq_nil_or_concat' more with rfl | ⟨init, x, rfl⟩
    · rw [List.append_nil] at hmore
      rw [(List.append_inj' hmore rfl).1]
    · rw [← List.append_assoc] at hmore
      rw [← (List.append_inj' hmore rfl).1]
      exact ⟨[seg] ++ init, by simp⟩
  rw [h.nearestContainer_eq]
  refine find?_boundaries (Text.mem_boundaries.mpr ⟨?_, Text.prefix_descend _ _,
    getLast?_dir before⟩) hexists fun d hd hlt => ?_
  · rw [List.append_assoc]
    exact (dir_prefix_dir hway).trans (List.prefix_append _ _)
  · obtain ⟨hdpre, -, hslash⟩ := Text.mem_boundaries.mp hd
    rw [Bool.eq_false_iff]
    intro hstored
    -- a longer stored container passes through the missing one
    obtain ⟨segs, hsegs, rfl⟩ := htree.shape d hstored hslash
    have hpath : s.dir segs <+: s.dir (way ++ [last]) ++ List.replicate (slashes - 1) '/' := by
      refine hdpre.trans ⟨['/'], ?_⟩
      rw [dir_concat, List.append_assoc, List.append_assoc, List.append_assoc, List.append_assoc,
        ← List.replicate_succ']
      rfl
    have hsegsway : segs <+: way ++ [last] :=
      Text.prefix_of_descend_prefix hsegs h.segments (Text.rest_of_slashes _) hpath
    have hlength : (before ++ [seg]).length ≤ segs.length := by
      by_contra hshort
      rw [List.length_append, List.length_singleton] at hshort
      have hle : segs <+: before :=
        List.prefix_of_prefix_length_le hsegsway ((List.prefix_append _ _).trans hup) (by omega)
      exact absurd (dir_prefix_dir (s := s) hle).length_le (by omega)
    obtain ⟨more, rfl⟩ := List.prefix_of_prefix_length_le hup hsegsway hlength
    have := htree.closed hsegs hstored
    rw [habsent] at this
    cases this

/-- **An added member** of a container that was there: the requester may append to it. -/
theorem Step.added (h : Step s req b₀ child b b') (hpath : ¬ "//".toList <+: req.path)
    (h₀ : Tree s b₀.index) (htree : Tree s b.index) {x : Iri} (hc : (b₀.index.meta? c).isSome)
    (hnot : x ∉ b.index.childrenOf c) (hin : x ∈ b'.index.childrenOf c) :
    Granted s.wac b₀ c req.requester .append := by
  -- a step that creates `y` in `p` adds that one edge
  have hadded : ∀ {p y : Iri} {m : ResourceMeta} {P : Iri → Prop},
      Rewrites P ((b.index.putMeta y m).addChild p y) b b' → c = p ∧ x = y := by
    intro p y m P hw
    rw [hw.index, Index.mem_childrenOf_addChild] at hin
    exact hin.resolve_left hnot
  cases h with
  | idle h => exact absurd (h.index ▸ hin) hnot
  | overwrite _ _ h =>
    rw [h.index] at hin
    exact absurd hin hnot
  | root _ _ h =>
    rw [h.index] at hin
    exact absurd hin hnot
  | ancestor hcr hway habsent hslash hparent h =>
    obtain ⟨rfl, rfl⟩ := hadded h
    rcases located hcr.parsed hpath with hroot | ⟨way, last, slashes, hbelow⟩
    · rw [hroot, ancestorsOf_root] at hway
      cases hway
    · obtain ⟨before, seg, hup, rfl, rfl⟩ := hbelow.ancestor hway hslash hparent
      exact hcr.append _ (hbelow.nearest_ancestor h₀ hup hc habsent)
  | settle hcr hparent hexists hway h =>
    obtain ⟨rfl, rfl⟩ := hadded h
    rcases located hcr.parsed hpath with hroot | ⟨way, last, slashes, hbelow⟩
    · rw [hroot] at hparent
      exact absurd hc (h₀.no_container_above_root hparent)
    · rw [hbelow.parentContainer_eq] at hparent
      obtain rfl := Option.some.inj hparent
      exact hcr.append _ (hbelow.nearest_parent (hbelow.settled htree hway).1 hc)
  | orphan _ _ h =>
    rw [h.index] at hin
    exact absurd hin hnot
  | mint _ _ _ hgranted _ _ _ h =>
    obtain ⟨rfl, rfl⟩ := hadded h
    exact hgranted
  | unlink _ _ h =>
    rw [h.index] at hin
    exact absurd (mem_childrenOf_afterUnlink.mp hin).1 hnot
  | remove _ _ h =>
    rw [h.index, Index.childrenOf_deleteMeta] at hin
    split_ifs at hin
    · cases hin
    · exact absurd (mem_childrenOf_afterUnlink.mp hin).1 hnot
  | removeContainer _ _ _ h =>
    rw [h.index] at hin
    have hin := (mem_childrenOf_afterUnlink.mp hin).1
    rw [Index.childrenOf_deleteMeta] at hin
    split_ifs at hin
    · cases hin
    · exact absurd hin hnot

/-- The container a removed target is taken out of is the one that was authorised. -/
theorem Removing.parent_granted (hr : Removing s req b₀ target) (hpath : ¬ "//".toList <+: req.path)
    (h₀ : Tree s b₀.index) (hc : (b₀.index.meta? c).isSome)
    (hparent : removalParent target = some c) :
    Granted s.wac b₀ c req.requester .write := by
  unfold removalParent at hparent
  split_ifs at hparent with hacl
  rw [Bool.not_eq_true] at hacl
  rcases located hr.parsed hpath with hroot | ⟨way, last, slashes, hbelow⟩
  · rw [hroot] at hparent
    exact absurd hc (h₀.no_container_above_root hparent)
  · rw [hbelow.parentContainer_eq] at hparent
    obtain rfl := Option.some.inj hparent
    refine hr.write hacl _ (hbelow.nearest_parent ?_ hc)
    -- a stored name has at most one trailing slash
    by_contra hmany
    obtain ⟨k, rfl⟩ : ∃ k, slashes = k + 2 := ⟨slashes - 2, by omega⟩
    have hiri : target.iri = s.dir way ++ last ++ List.replicate k '/' ++ ['/'] ++ ['/'] := by
      rw [hbelow.iri_eq, List.replicate_succ', List.replicate_succ']
      simp
    obtain ⟨segs, hsegs, hname⟩ := h₀.shape _ hr.present (by rw [hiri]; exact List.getLast?_concat)
    obtain ⟨name, hdir, hend⟩ := dir_eq_concat (s := s) hsegs
    rw [hname, hdir] at hiri
    obtain ⟨hinit, -⟩ := List.append_inj' hiri rfl
    rw [hinit] at hend
    exact hend List.getLast?_concat

/-- **A removed member** of a container that was there: the requester may write to it. -/
theorem Step.unlisted (h : Step s req b₀ child b b') (hpath : ¬ "//".toList <+: req.path)
    (h₀ : Tree s b₀.index) (htree : Tree s b.index) {x : Iri} (hc : (b₀.index.meta? c).isSome)
    (hin : x ∈ b.index.childrenOf c) (hnot : x ∉ b'.index.childrenOf c) :
    Granted s.wac b₀ c req.requester .write := by
  cases h with
  | idle h => exact absurd hin (h.index ▸ hnot)
  | overwrite _ _ h =>
    rw [h.index] at hnot
    exact absurd hin hnot
  | root _ _ h =>
    rw [h.index] at hnot
    exact absurd hin hnot
  | ancestor _ _ _ _ _ h =>
    rw [h.index, Index.mem_childrenOf_addChild] at hnot
    exact absurd (.inl hin) hnot
  | settle _ _ _ _ h =>
    rw [h.index, Index.mem_childrenOf_addChild] at hnot
    exact absurd (.inl hin) hnot
  | orphan _ _ h =>
    rw [h.index] at hnot
    exact absurd hin hnot
  | mint _ _ _ _ _ _ _ h =>
    rw [h.index, Index.mem_childrenOf_addChild] at hnot
    exact absurd (.inl hin) hnot
  | unlink hr hdoc h =>
    rw [h.index, mem_childrenOf_afterUnlink, not_and, not_not] at hnot
    exact hr.parent_granted hpath h₀ hc (hnot hin).1
  | remove hr hdoc h =>
    rw [h.index, Index.childrenOf_deleteMeta] at hnot
    split_ifs at hnot with hself
    · -- a document lists nothing
      exact absurd (hself ▸ htree.edges c x hin) (notContainer_getLast? hr.parsed hdoc)
    · rw [mem_childrenOf_afterUnlink, not_and, not_not] at hnot
      exact hr.parent_granted hpath h₀ hc (hnot hin).1
  | removeContainer hr hcontainer hempty h =>
    rw [h.index, mem_childrenOf_afterUnlink, Index.childrenOf_deleteMeta] at hnot
    split_ifs at hnot with hself
    · rw [hself, hempty] at hin
      cases hin
    · rw [not_and, not_not] at hnot
      exact hr.parent_granted hpath h₀ hc (hnot hin).1

/-! ## §6 Runs -/

/-- A request keeps the tree, and changes the members of containers it found only as authorised. -/
theorem steps_membership (h : Relation.ReflTransGen (Step s req b₀ child) b₀ b)
    (hpath : ¬ "//".toList <+: req.path) (h₀ : Tree s b₀.index) :
    Tree s b.index ∧ ∀ c x, (b₀.index.meta? c).isSome →
      (x ∉ b₀.index.childrenOf c → x ∈ b.index.childrenOf c →
        Granted s.wac b₀ c req.requester .append) ∧
      (x ∈ b₀.index.childrenOf c → x ∉ b.index.childrenOf c →
        Granted s.wac b₀ c req.requester .write) := by
  induction h with
  | refl => exact ⟨h₀, fun c x _ => ⟨fun hnot hin => absurd hin hnot, fun hin hnot => absurd hin hnot⟩⟩
  | @tail b₁ b₂ _ hstep ih =>
    obtain ⟨htree, hmembers⟩ := ih
    refine ⟨hstep.tree hpath htree, fun c x hc => ?_⟩
    obtain ⟨hadd, hrem⟩ := hmembers c x hc
    by_cases hmid : x ∈ b₁.index.childrenOf c
    · exact ⟨fun hnot _ => hadd hnot hmid, fun _ hnot => hstep.unlisted hpath h₀ htree hc hmid hnot⟩
    · exact ⟨fun _ hin => hstep.added hpath h₀ htree hc hmid hin, fun hin _ => hrem hin hmid⟩

/-- The world after a sequence of requests. -/
def run (s : LdpState) : List Request → World → World
  | [], w => w
  | req :: rest, w => s.run rest (s.handle req w).2

/-- A storage as provisioning leaves it: sound, with its containers in a tree below the root. -/
structure Provisioned (s : LdpState) (w : World) : Prop where
  sound : Sound s.wac w
  tree : Tree s w.backend.index

/-- One request keeps a provisioned storage provisioned. -/
theorem Provisioned.handle (h : Provisioned s w) (req : Request)
    (hpath : ¬ "//".toList <+: req.path) : Provisioned s (s.handle req w).2 := by
  obtain ⟨child, hreached⟩ := reached_handle h.sound req
  exact ⟨hreached.sound, (steps_membership hreached.steps hpath h.tree).1⟩

theorem Provisioned.run {reqs : List Request} (h : Provisioned s w)
    (hpaths : ∀ r ∈ reqs, ¬ "//".toList <+: r.path) : Provisioned s (s.run reqs w) := by
  induction reqs generalizing w with
  | nil => exact h
  | cons req rest ih =>
    obtain ⟨hpath, hrest⟩ := List.forall_mem_cons.mp hpaths
    exact ih (h.handle req hpath) hrest

/-- **Membership changes are authorised** in every state reached by requests whose paths do not
begin with two slashes: a member added to a container that was there needs `Append` on it, a
member removed `Write`. -/
theorem membership_authorised (s : LdpState) (w₀ : World) (h₀ : Provisioned s w₀)
    (past : List Request) (req : Request)
    (hpaths : ∀ r ∈ req :: past, ¬ "//".toList <+: r.path) (container member : Iri)
    (hexisted : ((s.run past w₀).backend.index.meta? container).isSome) :
    (member ∉ (s.run past w₀).backend.index.childrenOf container →
      member ∈ (s.handle req (s.run past w₀)).2.backend.index.childrenOf container →
        Granted s.wac (s.run past w₀).backend container req.requester .append) ∧
    (member ∈ (s.run past w₀).backend.index.childrenOf container →
      member ∉ (s.handle req (s.run past w₀)).2.backend.index.childrenOf container →
        Granted s.wac (s.run past w₀).backend container req.requester .write) := by
  obtain ⟨hpath, hpast⟩ := List.forall_mem_cons.mp hpaths
  have hnow := h₀.run hpast
  obtain ⟨child, hreached⟩ := reached_handle hnow.sound req
  exact (steps_membership hreached.steps hpath hnow.tree).2 container member hexisted

/-! ## §7 Seeded storages -/

theorem tree_empty : Tree s ⟨∅, ∅⟩ where
  shape d h := by cases h
  linked segs seg _ h := by cases h
  edges c x h := by cases h

/-- Writing a document or the root keeps the tree, whether the write succeeds or not. -/
theorem tree_write (hc : Consistent w) (htree : Tree s w.backend.index) {iri : Iri}
    (hiri : iri.getLast? = some '/' → iri = s.dir []) (body : Bytes) (contentType : Text) :
    Spec (do let _ ← write iri body contentType : Server Unit) w fun _ w' =>
      Consistent w' ∧ Tree s w'.backend.index := by
  refine Spec.bind (spec_write hc iri body contentType) ?_ ?_
  · rintro m v ⟨hv, hw, -⟩
    refine ⟨hv, ?_⟩
    show Tree s v.backend.index
    rw [hw.rewrites.index]
    exact htree.put fun hslash => .inr (hiri hslash)
  · rintro e v ⟨hv, hw⟩
    refine ⟨hv, ?_⟩
    rw [hw.rewrites.index]
    exact htree

/-- **A seeded storage is provisioned**: the root, and documents next to it. -/
theorem provisioned_seeded (docs : List (Iri × Bytes))
    (hdocs : ∀ doc ∈ docs, doc.1.getLast? ≠ some '/') :
    Provisioned s (World.seeded (storageRoot s.baseUrl) docs) := by
  refine ⟨sound_seeded _ _, ?_⟩
  have hspec : Spec (seedRoot (storageRoot s.baseUrl) docs) World.boot fun _ w' =>
      Consistent w' ∧ Tree s w'.backend.index := by
    induction docs with
    | nil =>
      refine Spec.exists_bind ?_ fun e => ⟨consistent_boot, tree_empty⟩
      exact tree_write consistent_boot tree_empty (fun _ => dir_nil.symm) _ _
    | cons doc docs ih =>
      obtain ⟨hdoc, hrest⟩ := List.forall_mem_cons.mp hdocs
      refine Spec.bind (ih hrest) ?_ fun e w' h => h
      rintro ⟨⟩ w' ⟨hc, htree⟩
      exact tree_write hc htree (fun hslash => absurd hslash hdoc) _ _
  exact hspec.2

/-- A second document in a container created on the way to the first one: appending to `/a/` was
granted by the root's ACL. -/
theorem membership_authorised_put :
    ((sampleState.run [samplePut "/a/b"] openWorld).backend.index.meta? "http://h/a/".toList).isSome ∧
      Granted sampleState.wac (sampleState.run [samplePut "/a/b"] openWorld).backend
        "http://h/a/".toList (samplePut "/a/c").requester .append := by
  have hrun : ((sampleState.run [samplePut "/a/b"] openWorld).backend.index.meta?
        "http://h/a/".toList).isSome ∧
      "http://h/a/c".toList ∉ (sampleState.run [samplePut "/a/b"] openWorld).backend.index.childrenOf
        "http://h/a/".toList ∧
      "http://h/a/c".toList ∈ (sampleState.handle (samplePut "/a/c")
        (sampleState.run [samplePut "/a/b"] openWorld)).2.backend.index.childrenOf
          "http://h/a/".toList := by decide +kernel
  exact ⟨hrun.1, (membership_authorised sampleState openWorld
    (provisioned_seeded [(aclFor samplePod, [0, 1, 2, 3, 4, 5, 6])] (by decide +kernel))
    [samplePut "/a/b"] (samplePut "/a/c") (by decide +kernel) "http://h/a/".toList
    "http://h/a/c".toList hrun.1).1 hrun.2.1 hrun.2.2⟩

/-! ## §8 Paths that begin with two slashes -/

/-- The rules of a storage with an owner of everything and a public inner container `//`. -/
def innerTable : List Quad :=
  let rule := fun (subject : String) (p o : Iri) =>
    (⟨⟨.namedNode subject.toList, p, .namedNode o⟩, .defaultGraph⟩ : Quad)
  [rule "#owner" rdfType (aclIri "Authorization"), rule "#owner" (aclIri "agent") "http://o".toList,
    rule "#owner" (aclIri "accessTo") samplePod, rule "#owner" (aclIri "default") samplePod,
    rule "#owner" (aclIri "mode") AccessMode.write.aclIri,
    rule "#owner" (aclIri "mode") AccessMode.control.aclIri,
    rule "#public" rdfType (aclIri "Authorization"), rule "#public" (aclIri "agentClass") foafAgent,
    rule "#public" (aclIri "accessTo") "http://h//".toList,
    rule "#public" (aclIri "default") "http://h//".toList,
    rule "#public" (aclIri "mode") AccessMode.write.aclIri]

def innerState : LdpState := ⟨tableCodec innerTable [], "http://h".toList, "DPoP".toList⟩

/-- Only the owner may touch the root and, at first, everything below it. -/
def ownedWorld : World :=
  World.seeded (storageRoot innerState.baseUrl) [(aclFor samplePod, [0, 1, 2, 3, 4, 5])]

/-- The owner creates `//` and opens it, and it alone, to everybody. -/
def openInner : List Request :=
  [⟨.put, "//".toList, HeaderMap.setStr [] .contentType "text/plain".toList, [], some "http://o".toList⟩,
    ⟨.put, "//.acl".toList, HeaderMap.setStr [] .contentType "text/turtle".toList,
      [6, 7, 8, 9, 10], some "http://o".toList⟩]

/-- **A member of the root without `Append` on the root**: an anonymous `PUT` of `//a/b` is
authorised on `//`, and then creates `/a/` in the root. -/
theorem membership_unauthorised :
    Provisioned innerState ownedWorld ∧
    ((innerState.run openInner ownedWorld).backend.index.meta? samplePod).isSome ∧
    "http://h/a/".toList ∉ (innerState.run openInner ownedWorld).backend.index.childrenOf samplePod ∧
    "http://h/a/".toList ∈ (innerState.handle (samplePut "//a/b")
      (innerState.run openInner ownedWorld)).2.backend.index.childrenOf samplePod ∧
    ¬ Granted innerState.wac (innerState.run openInner ownedWorld).backend samplePod
      (samplePut "//a/b").requester .append :=
  ⟨provisioned_seeded _ (by decide +kernel), by decide +kernel⟩

end SolidServer.Ldp.LdpState
