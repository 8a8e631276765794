import SolidServer.Ldp.Target
import SolidServer.Text.Path
import SolidServer.Text.Trim

/-!
# The grammar of request targets

The paths a request may name, as a grammar: a slash, or segments with a slash before each
and at most one slash at the end (`TargetPath`).  `ldp/target.rs` trims all slashes at both
ends before it looks at the segments, so it accepts more slashes there than its comment
says (`parseTarget_ok_iff`).  `parseTarget_grammar_iff` says for which paths the two agree.
-/

namespace SolidServer.Ldp

/-! ## §1 The grammar -/

/-- A segment of a path: not empty, without slash, no dots. -/
structure IsPart (seg : Text) : Prop where
  ne_nil : seg ≠ []
  noSlash : '/' ∉ seg
  notParent : seg ≠ "..".toList
  notSelf : seg ≠ ".".toList

/-- Segments with a slash before each. -/
def groups (segs : List Text) : Text := segs.flatMap ('/' :: ·)

/-- The first segment of a text, after the slashes it begins with. -/
def FirstSegment (text seg : Text) : Prop :=
  ∃ k rest, text = List.replicate k '/' ++ seg ++ rest ∧ '/' ∉ seg ∧
    (rest = [] ∨ rest.head? = some '/')

/-- The path lies in the reserved namespace, as it is written or percent-decoded. -/
def Reserved (path : Text) : Prop :=
  ∃ text, (text = path ∨ text = percentDecodeLossy path) ∧
    ∃ seg, FirstSegment text seg ∧ Text.toAsciiLowercase seg = reservedSegment

/-- The paths of the grammar. -/
inductive TargetPath : Text → Prop where
  /-- The storage root. -/
  | root : TargetPath ['/']
  /-- A resource below it, or with a slash at the end a container. -/
  | below {segs : List Text} {final : Text} (hne : segs ≠ []) (hsegs : ∀ seg ∈ segs, IsPart seg)
      (hfinal : final = [] ∨ final = ['/']) (hres : ¬ Reserved (groups segs ++ final)) :
      TargetPath (groups segs ++ final)

/-- A path of the grammar but for the number of slashes at its ends. -/
def Slashed (path : Text) : Prop :=
  ¬ Reserved path ∧ ∃ j segs k, (∀ seg ∈ segs, IsPart seg) ∧
    path = List.replicate j '/' ++ groups segs ++ List.replicate k '/'

/-- The path neither begins nor ends with two slashes. -/
def SingleEnds (path : Text) : Prop := ¬ ['/', '/'] <+: path ∧ ¬ ['/', '/'] <:+ path

/-! ## §2 The reserved namespace -/

theorem firstSegmentIsReserved_iff {text : Text} :
    firstSegmentIsReserved text = true ↔
      ∃ seg, FirstSegment text seg ∧ Text.toAsciiLowercase seg = reservedSegment := by
  have hmodel : firstSegmentIsReserved text = true ↔ Text.toAsciiLowercase
      ((Text.trimStartMatches text '/').takeWhile (· ≠ '/')) = reservedSegment :=
    decide_eq_true_iff
  rw [hmodel]
  constructor
  · intro h
    obtain ⟨k, hk⟩ := Text.eq_replicate_append_trimStartMatches text '/'
    have hnot : '/' ∉ (Text.trimStartMatches text '/').takeWhile (· ≠ '/') := by
      intro hmem
      have := List.mem_takeWhile_imp hmem
      revert this
      decide
    refine ⟨_, ⟨k, (Text.trimStartMatches text '/').dropWhile (· ≠ '/'), ?_, hnot, ?_⟩, h⟩
    · rw [List.append_assoc, List.takeWhile_append_dropWhile]
      exact hk
    · cases hrest : (Text.trimStartMatches text '/').dropWhile (· ≠ '/') with
      | nil => exact .inl rfl
      | cons c rest =>
        have hstop := List.head?_dropWhile_not (fun c : Char => decide (c ≠ '/'))
          (Text.trimStartMatches text '/')
        rw [hrest] at hstop
        simp only [decide_eq_false_iff_not, not_not] at hstop
        exact .inr (congrArg some hstop)
  · rintro ⟨seg, ⟨k, rest, rfl, hnot, hrest⟩, hlower⟩
    have hne : seg ≠ [] := by
      rintro rfl
      cases hlower
    have htrim : Text.trimStartMatches (List.replicate k '/' ++ seg ++ rest) '/' = seg ++ rest := by
      rw [List.append_assoc, Text.trimStartMatches_replicate_append]
      apply Text.trimStartMatches_eq_self
      rw [List.head?_append_of_ne_nil _ hne]
      intro hhead
      exact hnot (List.mem_of_head? hhead)
    have htake : (seg ++ rest).takeWhile (· ≠ '/') = seg := by
      have hall : ∀ c ∈ seg, decide (c ≠ '/') = true := by
        intro c hc
        apply decide_eq_true
        rintro rfl
        exact hnot hc
      rw [List.takeWhile_append_of_pos hall]
      rcases hrest with rfl | hrest
      · exact List.append_nil seg
      · cases rest with
        | nil => cases hrest
        | cons c rest =>
          obtain rfl := Option.some.inj hrest
          simp
    rw [htrim, htake]
    exact hlower

variable {path : Text} {segs : List Text}

theorem isReservedIdentityPath_iff :
    isReservedIdentityPath path = true ↔ Reserved path := by
  unfold isReservedIdentityPath
  rw [Bool.or_eq_true, firstSegmentIsReserved_iff, firstSegmentIsReserved_iff]
  constructor
  · rintro (h | h)
    · exact ⟨path, .inl rfl, h⟩
    · exact ⟨_, .inr rfl, h⟩
  · rintro ⟨text, rfl | rfl, h⟩
    · exact .inl h
    · exact .inr h

/-! ## §3 Segments between slashes -/

theorem IsPart.last {seg : Text} (h : IsPart seg) : seg.getLast? ≠ some '/' := by
  intro hlast
  exact h.noSlash (List.mem_of_getLast? hlast)

theorem groups_cons (seg : Text) (segs : List Text) :
    groups (seg :: segs) = '/' :: seg ++ groups segs := rfl

theorem groups_concat (segs : List Text) (seg : Text) :
    groups (segs ++ [seg]) = groups segs ++ '/' :: seg := by
  simp [groups]

theorem groups_eq_intercalate (hne : segs ≠ []) :
    groups segs = '/' :: ['/'].intercalate segs := by
  induction segs with
  | nil => exact absurd rfl hne
  | cons seg segs ih =>
    cases segs with
    | nil => simp [groups]
    | cons seg' segs =>
      rw [groups_cons, ih (List.cons_ne_nil _ _)]
      simp

theorem getLast?_groups (hne : segs ≠ []) (hsegs : ∀ seg ∈ segs, IsPart seg) :
    (groups segs).getLast? ≠ some '/' := by
  rcases List.eq_nil_or_concat' segs with rfl | ⟨front, seg, rfl⟩
  · exact absurd rfl hne
  · have hseg : IsPart seg := hsegs seg (by simp)
    rw [groups_concat, List.getLast?_append_cons]
    intro hlast
    cases seg with
    | nil => exact hseg.ne_nil rfl
    | cons c seg =>
      exact hseg.last hlast

/-- The text between the first slash and the last segment's end. -/
theorem inner_ends (hne : segs ≠ []) (hsegs : ∀ seg ∈ segs, IsPart seg) :
    (['/'].intercalate segs).head? ≠ some '/' ∧ (['/'].intercalate segs).getLast? ≠ some '/' := by
  have hgroups := groups_eq_intercalate hne
  obtain ⟨seg, rest, rfl⟩ := List.exists_cons_of_ne_nil hne
  have hseg : IsPart seg := hsegs seg List.mem_cons_self
  obtain ⟨c, tail, rfl⟩ := List.exists_cons_of_ne_nil hseg.ne_nil
  have hinner : ['/'].intercalate ((c :: tail) :: rest) = c :: (tail ++ groups rest) := by
    exact (List.cons.inj hgroups).2.symm
  constructor
  · rw [hinner]
    intro hhead
    obtain rfl := Option.some.inj hhead
    exact hseg.noSlash List.mem_cons_self
  · have hlast := getLast?_groups hne hsegs
    rwa [hinner]

/-- All slashes at the ends are trimmed. -/
theorem innerPath_slashed (hsegs : ∀ seg ∈ segs, IsPart seg) (j k : Nat) :
    innerPath (List.replicate j '/' ++ groups segs ++ List.replicate k '/') =
      ['/'].intercalate segs := by
  by_cases hne : segs = []
  · subst hne
    have hall : List.replicate j '/' ++ groups [] ++ List.replicate k '/' =
        List.replicate (j + k) '/' ++ [] := by
      simp [groups]
    unfold innerPath
    rw [hall, Text.trimStartMatches_replicate_append]
    rfl
  · obtain ⟨hhead, hlast⟩ := inner_ends hne hsegs
    have hempty : ['/'].intercalate segs ≠ [] := by
      obtain ⟨seg, rest, rfl⟩ := List.exists_cons_of_ne_nil hne
      intro hnil
      have hgroups := groups_eq_intercalate hne
      rw [hnil] at hgroups
      have hseg := (List.append_eq_nil_iff.mp (List.cons.inj hgroups).2).1
      exact (hsegs seg List.mem_cons_self).ne_nil hseg
    have hslashes : List.replicate j '/' ++ groups segs ++ List.replicate k '/' =
        List.replicate (j + 1) '/' ++ (['/'].intercalate segs ++ List.replicate k '/') := by
      rw [groups_eq_intercalate hne, List.replicate_succ']
      simp
    unfold innerPath
    rw [hslashes, Text.trimStartMatches_replicate_append, Text.trimStartMatches_eq_self,
      Text.trimEndMatches_append_replicate, Text.trimEndMatches_eq_self hlast]
    rwa [List.head?_append_of_ne_nil _ hempty]

theorem checkSegments_eq_ok (h : ∀ seg ∈ segs, seg ≠ [] ∧ seg ≠ "..".toList ∧ seg ≠ ".".toList) :
    checkSegments segs = .ok () := by
  induction segs with
  | nil => rfl
  | cons seg segs ih =>
    obtain ⟨⟨hne, hparent, hself⟩, hsegs⟩ := List.forall_mem_cons.mp h
    unfold checkSegments
    rw [if_neg hne, if_neg (not_or.mpr ⟨hparent, hself⟩)]
    exact ih hsegs

/-- **What the segment check accepts**: proper segments between any number of slashes at both
ends. -/
theorem checkPath_ok_iff {rel : Text} :
    checkPath ('/' :: rel) = .ok () ↔ ∃ j segs k, (∀ seg ∈ segs, IsPart seg) ∧
      '/' :: rel = List.replicate j '/' ++ groups segs ++ List.replicate k '/' := by
  constructor
  · intro h
    obtain ⟨j, hj⟩ := Text.eq_replicate_append_trimStartMatches ('/' :: rel) '/'
    obtain ⟨k, hk⟩ := Text.eq_trimEndMatches_append (Text.trimStartMatches ('/' :: rel) '/') '/'
    have hpath : '/' :: rel =
        List.replicate j '/' ++ (innerPath ('/' :: rel) ++ List.replicate k '/') := by
      conv_lhs => rw [hj, hk]
      rfl
    unfold checkPath at h
    split_ifs at h with hempty
    · refine ⟨j, [], k, by simp, ?_⟩
      rw [hpath, hempty]
      simp [groups]
    · have hparts := checkSegments_ok h
      have hjoin : ['/'].intercalate ((innerPath ('/' :: rel)).splitOn '/') =
          innerPath ('/' :: rel) := List.intercalate_splitOn '/'
      have hsegs : ∀ seg ∈ (innerPath ('/' :: rel)).splitOn '/', IsPart seg := by
        intro seg hseg
        obtain ⟨hne, hparent, hself⟩ := hparts seg hseg
        exact ⟨hne, Text.not_mem_of_mem_splitOn hseg, hparent, hself⟩
      have hsplit : (innerPath ('/' :: rel)).splitOn '/' ≠ [] := by
        intro hnil
        rw [hnil] at hjoin
        exact hempty hjoin.symm
      -- the path begins with a slash, which goes to the first segment
      cases j with
      | zero =>
        have hhead := (inner_ends hsplit hsegs).1
        rw [hjoin] at hhead
        rw [List.replicate_zero, List.nil_append] at hpath
        have : ('/' :: rel).head? = (innerPath ('/' :: rel)).head? := by
          rw [← List.head?_append_of_ne_nil _ hempty, ← hpath]
        exact absurd this.symm hhead
      | succ j =>
        refine ⟨j, _, k, hsegs, ?_⟩
        rw [groups_eq_intercalate hsplit]
        conv_lhs => rw [hpath, List.replicate_succ']
        simp
  · rintro ⟨j, segs, k, hsegs, hpath⟩
    have hinner : innerPath ('/' :: rel) = ['/'].intercalate segs := by
      rw [hpath]
      exact innerPath_slashed hsegs j k
    unfold checkPath
    rw [hinner]
    split_ifs with hempty
    · rfl
    · have hne : segs ≠ [] := by
        rintro rfl
        exact hempty rfl
      rw [List.splitOn_intercalate '/' (fun seg hseg => (hsegs seg hseg).noSlash) hne]
      apply checkSegments_eq_ok
      intro seg hseg
      exact ⟨(hsegs seg hseg).ne_nil, (hsegs seg hseg).notParent, (hsegs seg hseg).notSelf⟩

/-! ## §4 Accepted paths -/

section
variable {base : Text} (hbase : base ≠ []) (hslash : base.getLast? ≠ some '/')
include hbase hslash

/-- **What `parse_target` accepts**, and the target it gives. -/
theorem parseTarget_ok_iff {path : Text} {t : LdpTarget} :
    parseTarget base path = .ok t ↔ pathOnly path ≠ [] ∧ Slashed (pathOnly path) ∧
      t = ⟨base ++ pathOnly path, base ++ pathOnly path, Text.endsWith (pathOnly path) ['/']⟩ := by
  have htrim : Text.trimEndMatches base '/' = base := Text.trimEndMatches_eq_self hslash
  unfold parseTarget
  simp only [htrim, if_neg hbase]
  cases hp : pathOnly path with
  | nil =>
    constructor
    · intro h
      cases h
    · intro h
      exact absurd rfl h.1
  | cons c rel =>
    by_cases hc : c = '/'
    · subst hc
      have hstarts : Text.startsWith ('/' :: rel) ['/'] = true := by simp [Text.startsWith]
      rw [hstarts]
      by_cases hres : isReservedIdentityPath ('/' :: rel) = true
      · rw [if_pos hres]
        constructor
        · intro h
          cases h
        · intro h
          exact absurd (isReservedIdentityPath_iff.mp hres) h.2.1.1
      · rw [if_neg hres]
        have hnot : ¬ Reserved ('/' :: rel) := fun h => hres (isReservedIdentityPath_iff.mpr h)
        constructor
        · intro h
          cases hcheck : checkPath ('/' :: rel) with
          | error e =>
            rw [hcheck] at h
            cases h
          | ok u =>
            rw [hcheck] at h
            exact ⟨List.cons_ne_nil _ _, ⟨hnot, checkPath_ok_iff.mp hcheck⟩,
              (Except.ok.inj h).symm⟩
        · rintro ⟨-, ⟨-, hform⟩, rfl⟩
          rw [checkPath_ok_iff.mpr hform]
          rfl
    · have hstarts : Text.startsWith (c :: rel) ['/'] = false := by
        rw [Bool.eq_false_iff]
        intro h
        obtain ⟨rest, hrest⟩ := Text.startsWith_iff.mp h
        exact hc (List.cons.inj hrest).1.symm
      rw [hstarts]
      constructor
      · intro h
        cases h
      · rintro ⟨-, ⟨-, j, segs, k, -, hform⟩, -⟩
        -- the first character of slashes and groups is a slash
        have hhead : ∀ x ∈ (List.replicate j '/' ++ groups segs ++ List.replicate k '/').head?,
            x = '/' := by
          intro x hx
          cases j with
          | succ j => exact (Option.some.inj hx).symm
          | zero =>
            cases segs with
            | cons seg segs => exact (Option.some.inj hx).symm
            | nil =>
              cases k with
              | zero => cases hx
              | succ k => exact (Option.some.inj hx).symm
        rw [← hform] at hhead
        exact absurd (hhead c rfl) hc

end

theorem not_reserved_root : ¬ Reserved ['/'] := by
  intro h
  have := isReservedIdentityPath_iff.mpr h
  revert this
  decide

theorem TargetPath.slashed (h : TargetPath path) : path ≠ [] ∧ Slashed path := by
  cases h with
  | root => exact ⟨List.cons_ne_nil _ _, not_reserved_root, 1, [], 0, by simp, rfl⟩
  | below hne hsegs hfinal hres =>
    constructor
    · rw [groups_eq_intercalate hne]
      exact List.cons_ne_nil _ _
    · rcases hfinal with rfl | rfl
      · exact ⟨hres, 0, _, 0, hsegs, by simp⟩
      · exact ⟨hres, 0, _, 1, hsegs, by simp⟩

/-- The paths of the grammar begin and end with one slash at most. -/
theorem TargetPath.singleEnds (h : TargetPath path) : SingleEnds path := by
  cases h with
  | root => exact ⟨by decide, by decide⟩
  | @below segs final hne hsegs hfinal _ =>
    constructor
    · rintro ⟨rest, hrest⟩
      obtain ⟨seg, more, rfl⟩ := List.exists_cons_of_ne_nil hne
      have hseg : IsPart seg := hsegs seg List.mem_cons_self
      obtain ⟨c, tail, rfl⟩ := List.exists_cons_of_ne_nil hseg.ne_nil
      obtain rfl : '/' = c := (List.cons.inj (List.cons.inj hrest).2).1
      exact hseg.noSlash List.mem_cons_self
    · rintro ⟨front, hfront⟩
      have hlast := getLast?_groups hne hsegs
      rcases hfinal with rfl | rfl
      · rw [List.append_nil] at hfront
        apply hlast
        rw [← hfront, List.getLast?_append_cons]
        rfl
      · have hinit : front ++ ['/'] = groups segs := by
          have hassoc : (front ++ ['/']) ++ ['/'] = groups segs ++ ['/'] := by simpa using hfront
          exact List.append_cancel_right hassoc
        apply hlast
        rw [← hinit, List.getLast?_concat]

/-- A slashed path with single ends is one of the grammar. -/
theorem Slashed.targetPath (h : Slashed path) (hne : path ≠ []) (hends : SingleEnds path) :
    TargetPath path := by
  obtain ⟨hres, j, segs, k, hsegs, hform⟩ := h
  have hfront : ∀ rest, path ≠ '/' :: '/' :: rest := fun rest hrest =>
    hends.1 ⟨rest, hrest.symm⟩
  have hback : ∀ front, path ≠ front ++ ['/', '/'] := fun front hrest =>
    hends.2 ⟨front, hrest.symm⟩
  by_cases hsegsne : segs = []
  · subst hsegsne
    have hall : path = List.replicate (j + k) '/' := by
      rw [hform]
      simp [groups]
    have hone : j + k = 1 := by
      match hjk : j + k with
      | 0 =>
        rw [hjk] at hall
        exact absurd hall hne
      | 1 => rfl
      | n + 2 =>
        rw [hjk] at hall
        exact absurd hall (hfront _)
    rw [hall, hone]
    exact .root
  · have hj : j = 0 := by
      cases j with
      | zero => rfl
      | succ j =>
        have hcut : path = '/' :: '/' :: (List.replicate j '/' ++ ['/'].intercalate segs ++
            List.replicate k '/') := by
          have hmove : List.replicate j '/' ++ ['/'] = '/' :: List.replicate j '/' := by
            rw [← List.replicate_succ', List.replicate_succ]
          rw [hform, groups_eq_intercalate hsegsne]
          calc '/' :: List.replicate j '/' ++ '/' :: ['/'].intercalate segs ++ List.replicate k '/'
              = '/' :: ((List.replicate j '/' ++ ['/']) ++ ['/'].intercalate segs ++
                  List.replicate k '/') := by simp
            _ = _ := by rw [hmove]; rfl
        exact absurd hcut (hfront _)
    have hk : k = 0 ∨ k = 1 := by
      match k with
      | 0 => exact .inl rfl
      | 1 => exact .inr rfl
      | k + 2 =>
        have hcut : path = (List.replicate j '/' ++ groups segs ++ List.replicate k '/') ++
            ['/', '/'] := by
          rw [hform, List.replicate_succ', List.replicate_succ']
          simp
        exact absurd hcut (hback _)
    subst hj
    rw [hform] at hres ⊢
    rcases hk with rfl | rfl
    · exact .below hsegsne hsegs (.inl rfl) hres
    · exact .below hsegsne hsegs (.inr rfl) hres

/-- **Where `parse_target` follows the grammar**: it accepts exactly the paths of the grammar when
a path that has only extra slashes at its ends against it has none there.  What it accepts is
always the base followed by the path, and a container when that ends in a slash. -/
theorem parseTarget_grammar_iff {base : Text} (hbase : base ≠ [])
    (hslash : base.getLast? ≠ some '/') (path : Text) :
    ((((∃ t, parseTarget base path = .ok t) ↔ TargetPath (pathOnly path)) ↔
      (Slashed (pathOnly path) → SingleEnds (pathOnly path)))) ∧
    ∀ t, parseTarget base path = .ok t → t.iri = base ++ pathOnly path ∧
      (t.isContainer = true ↔ (pathOnly path).getLast? = some '/') := by
  have haccept : (∃ t, parseTarget base path = .ok t) ↔
      pathOnly path ≠ [] ∧ Slashed (pathOnly path) := by
    constructor
    · rintro ⟨t, ht⟩
      obtain ⟨hne, hform, -⟩ := (parseTarget_ok_iff hbase hslash).mp ht
      exact ⟨hne, hform⟩
    · rintro ⟨hne, hform⟩
      exact ⟨_, (parseTarget_ok_iff hbase hslash).mpr ⟨hne, hform, rfl⟩⟩
  constructor
  · rw [haccept]
    constructor
    · intro hagree hform
      by_cases hne : pathOnly path = []
      · rw [hne]
        exact ⟨by decide, by decide⟩
      · exact (hagree.mp ⟨hne, hform⟩).singleEnds
    · intro hends
      constructor
      · rintro ⟨hne, hform⟩
        exact hform.targetPath hne (hends hform)
      · intro hpath
        exact hpath.slashed
  · intro t ht
    obtain ⟨-, -, rfl⟩ := (parseTarget_ok_iff hbase hslash).mp ht
    exact ⟨rfl, Text.endsWith_singleton⟩

/-- The path of a container below the storage root. -/
theorem parseTarget_grammar_iff_container :
    "http://h".toList ≠ [] ∧ "http://h".toList.getLast? ≠ some '/' ∧
      ((∃ t, parseTarget "http://h".toList "/a/b/?q".toList = .ok t) ↔
        TargetPath "/a/b/".toList) := by
  have hbase : "http://h".toList ≠ [] := by decide
  have hslash : "http://h".toList.getLast? ≠ some '/' := by decide
  have hpath : pathOnly "/a/b/?q".toList = "/a/b/".toList := by decide
  have h := (parseTarget_grammar_iff hbase hslash "/a/b/?q".toList).1
  rw [hpath] at h
  exact ⟨hbase, hslash, h.mpr fun _ => ⟨by decide, by decide⟩⟩

/-- **Repeated slashes at the ends of a path are accepted.** -/
theorem doubled_slashes_accepted :
    (∃ t, parseTarget "http://h".toList "//a".toList = .ok t) ∧ ¬ TargetPath "//a".toList ∧
      (∃ t, parseTarget "http://h".toList "/a//".toList = .ok t) ∧ ¬ TargetPath "/a//".toList := by
  refine ⟨⟨⟨"http://h//a".toList, "http://h//a".toList, false⟩, by decide⟩, ?_,
    ⟨⟨"http://h/a//".toList, "http://h/a//".toList, true⟩, by decide⟩, ?_⟩
  · intro h
    exact h.singleEnds.1 ⟨['a'], rfl⟩
  · intro h
    exact h.singleEnds.2 ⟨['/', 'a'], rfl⟩

end SolidServer.Ldp
