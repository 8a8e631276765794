import SolidServer.Text.Basic

/-!
# Slash-separated paths as lists of segments

`descend root segs` is the directory reached from `root` through the segments `segs`,
with a slash after each of them.  Directories determine their segments, and prefixes of a
directory that are directories themselves are the prefixes of its list of segments
(`prefix_of_descend_prefix`); splitting a path at its slashes gives the segments back.
-/

namespace SolidServer.Text

/-! ## §1 Splitting off a segment -/

variable {t root : Text} {c : Char}

theorem splitOn_cons {seg : Text} (h : '/' ∉ seg) (rest : Text) :
    (seg ++ '/' :: rest).splitOn '/' = seg :: rest.splitOn '/' := by
  refine List.splitOnP_append_cons_of_forall_mem (fun x hx => ?_) '/' (by simp) rest
  simp only [beq_eq_false_iff_ne]
  rintro rfl
  exact h hx

/-- The first slash of a text is in one place. -/
theorem segment_append_injective {a b x y : Text} (ha : '/' ∉ a) (hb : '/' ∉ b)
    (h : a ++ '/' :: x = b ++ '/' :: y) : a = b ∧ x = y := by
  have hsplit := congrArg (List.splitOn '/') h
  rw [splitOn_cons ha, splitOn_cons hb] at hsplit
  obtain rfl := (List.cons.inj hsplit).1
  exact ⟨rfl, by simpa using h⟩

/-! ## §2 Directories -/

/-- A proper path segment. -/
def IsSegment (seg : Text) : Prop := seg ≠ [] ∧ '/' ∉ seg

/-- The directory below `root` along `segs`. -/
def descend (root : Text) (segs : List Text) : Text := root ++ segs.flatMap (· ++ ['/'])

@[simp] theorem descend_nil (root : Text) : descend root [] = root := by simp [descend]

theorem descend_cons (root seg : Text) (segs : List Text) :
    descend root (seg :: segs) = descend (root ++ seg ++ ['/']) segs := by
  simp [descend]

theorem descend_append (root : Text) (as bs : List Text) :
    descend root (as ++ bs) = descend (descend root as) bs := by
  simp [descend]

theorem descend_concat (root seg : Text) (segs : List Text) :
    descend root (segs ++ [seg]) = descend root segs ++ seg ++ ['/'] := by
  simp [descend]

theorem prefix_descend (root : Text) (segs : List Text) : root <+: descend root segs :=
  List.prefix_append _ _

theorem getLast?_descend (hroot : root.getLast? = some '/') (segs : List Text) :
    (descend root segs).getLast? = some '/' := by
  rcases List.eq_nil_or_concat' segs with rfl | ⟨init, seg, rfl⟩
  · rwa [descend_nil]
  · rw [descend_concat]
    exact List.getLast?_concat

/-- A directory is its name followed by exactly one slash. -/
theorem descend_eq_concat {base : Text} (hbase : base.getLast? ≠ some '/') {segs : List Text}
    (hsegs : ∀ seg ∈ segs, IsSegment seg) :
    ∃ name, descend (base ++ ['/']) segs = name ++ ['/'] ∧ name.getLast? ≠ some '/' := by
  rcases List.eq_nil_or_concat' segs with rfl | ⟨init, seg, rfl⟩
  · exact ⟨base, descend_nil _, hbase⟩
  · refine ⟨_, descend_concat _ _ _, ?_⟩
    obtain ⟨hne, hslash⟩ := hsegs seg (by simp)
    rw [List.getLast?_append_of_ne_nil _ hne]
    exact fun h => hslash (List.mem_of_getLast? h)

/-- **Directories that are prefixes** of a path come from prefixes of its segments.  `rest` is
what follows the last directory of the path: no further directory starts in it. -/
theorem prefix_of_descend_prefix {rest : Text} {as bs : List Text} (has : ∀ seg ∈ as, IsSegment seg)
    (hbs : ∀ seg ∈ bs, IsSegment seg)
    (hrest : ∀ seg more, IsSegment seg → rest ≠ seg ++ '/' :: more)
    (h : descend root as <+: descend root bs ++ rest) : as <+: bs := by
  induction as generalizing root bs with
  | nil => exact List.nil_prefix
  | cons a as ih =>
    obtain ⟨ha, has'⟩ := List.forall_mem_cons.mp has
    have hdescend : descend root (a :: as) = root ++ (a ++ '/' :: as.flatMap (· ++ ['/'])) := by
      simp [descend]
    cases bs with
    | nil =>
      -- the path has no more directories, so `a/` would have to start in `rest`
      rw [hdescend, descend_nil, List.prefix_append_right_inj] at h
      obtain ⟨more, hmore⟩ := h
      rw [List.append_assoc] at hmore
      exact absurd hmore.symm (hrest a _ ha)
    | cons b bs =>
      obtain ⟨hb, hbs'⟩ := List.forall_mem_cons.mp hbs
      have hpath : descend root (b :: bs) ++ rest =
          root ++ (b ++ '/' :: (bs.flatMap (· ++ ['/']) ++ rest)) := by
        simp [descend]
      rw [hdescend, hpath, List.prefix_append_right_inj] at h
      obtain ⟨more, hmore⟩ := h
      rw [List.append_assoc] at hmore
      obtain ⟨rfl, htail⟩ := segment_append_injective ha.2 hb.2 hmore
      refine List.cons_prefix_cons.mpr ⟨rfl, ?_⟩
      have htail' : descend [] as <+: descend [] bs ++ rest := by
        exact ⟨more, htail⟩
      exact ih has' hbs' htail'

theorem rest_nil (seg more : Text) (_ : IsSegment seg) : [] ≠ seg ++ '/' :: more := by
  simp

theorem rest_of_slashes (k : Nat) (seg more : Text) (hseg : IsSegment seg) :
    List.replicate k '/' ≠ seg ++ '/' :: more := by
  intro h
  obtain ⟨c, seg', rfl⟩ := List.exists_cons_of_ne_nil hseg.1
  have hc : c ∈ List.replicate k '/' := by rw [h]; simp
  rw [List.eq_of_mem_replicate hc] at hseg
  exact hseg.2 (by simp)

/-- Directories determine their segments. -/
theorem descend_injective {as bs : List Text} (has : ∀ seg ∈ as, IsSegment seg)
    (hbs : ∀ seg ∈ bs, IsSegment seg) (h : descend root as = descend root bs) : as = bs := by
  have hto : descend root as <+: descend root bs ++ [] := by simp [h]
  have hfrom : descend root bs <+: descend root as ++ [] := by simp [h]
  have hab : as <+: bs := prefix_of_descend_prefix has hbs rest_nil hto
  have hba : bs <+: as := prefix_of_descend_prefix hbs has rest_nil hfrom
  exact hab.eq_of_length_le hba.length_le

/-! ## §3 Splitting -/

/-- Splitting recovers the segments of a directory. -/
theorem splitOn_descend {segs : List Text} (h : ∀ seg ∈ segs, '/' ∉ seg) (rest : Text) :
    (descend [] segs ++ rest).splitOn '/' = segs ++ rest.splitOn '/' := by
  induction segs with
  | nil => simp
  | cons seg segs ih =>
    obtain ⟨hseg, hsegs⟩ := List.forall_mem_cons.mp h
    have hcons : descend [] (seg :: segs) ++ rest = seg ++ '/' :: (descend [] segs ++ rest) := by
      simp [descend]
    rw [hcons, splitOn_cons hseg, ih hsegs, List.cons_append]

theorem splitOn_replicate (k : Nat) :
    (List.replicate k '/').splitOn '/' = List.replicate (k + 1) [] := by
  induction k with
  | zero => rfl
  | succ k ih =>
    have hcons : ([] ++ '/' :: List.replicate k '/').splitOn '/' =
        [] :: (List.replicate k '/').splitOn '/' := splitOn_cons (by simp) _
    rw [List.nil_append] at hcons
    rw [List.replicate_succ, hcons, ih, ← List.replicate_succ]

/-- Every path is a directory followed by a last segment, as splitting says. -/
theorem exists_segments (t : Text) : ∃ segs last, (∀ seg ∈ segs, '/' ∉ seg) ∧ '/' ∉ last ∧
    t = descend [] segs ++ last ∧ t.splitOn '/' = segs ++ [last] := by
  induction hn : t.length using Nat.strong_induction_on generalizing t with
  | _ n ih =>
    by_cases hmem : '/' ∈ t
    · obtain ⟨seg, rest, hseg, rfl⟩ : ∃ seg rest, '/' ∉ seg ∧ t = seg ++ '/' :: rest := by
        obtain ⟨seg, rest, hsplit, hnot⟩ := List.eq_append_cons_of_mem hmem
        exact ⟨seg, rest, hnot, hsplit⟩
      obtain ⟨segs, last, hsegs, hlast, heq, hsplit⟩ := ih rest.length
        (by rw [← hn, List.length_append, List.length_cons]; omega) rest rfl
      refine ⟨seg :: segs, last, List.forall_mem_cons.mpr ⟨hseg, hsegs⟩, hlast, ?_, ?_⟩
      · rw [heq]
        simp [descend]
      · rw [splitOn_cons hseg, hsplit, List.cons_append]
    · exact ⟨[], t, by simp, hmem, by simp, List.splitOn_eq_singleton hmem⟩

/-! ## §4 Trimming -/

theorem trimEndMatches_eq_self (h : t.getLast? ≠ some c) :
    trimEndMatches t c = t := by
  rcases List.eq_nil_or_concat' t with rfl | ⟨init, d, rfl⟩
  · rfl
  · refine trimEndMatches_concat_ne init fun hd => h ?_
    rw [hd, List.getLast?_concat]

theorem trimEndMatches_append_replicate (t : Text) (c : Char) (k : Nat) :
    trimEndMatches (t ++ List.replicate k c) c = trimEndMatches t c := by
  induction k with
  | zero => simp
  | succ k ih => rw [List.replicate_succ', ← List.append_assoc, trimEndMatches_concat_self, ih]

/-- A text is its trimmed part followed by the characters trimmed away. -/
theorem eq_trimEndMatches_append (t : Text) (c : Char) :
    ∃ k, t = trimEndMatches t c ++ List.replicate k c := by
  induction t using List.reverseRecOn with
  | nil => exact ⟨0, rfl⟩
  | append_singleton t d ih =>
    by_cases hd : d = c
    · obtain ⟨k, hk⟩ := ih
      refine ⟨k + 1, ?_⟩
      rw [hd, trimEndMatches_concat_self, List.replicate_succ', ← List.append_assoc, ← hk]
    · exact ⟨0, by rw [trimEndMatches_concat_ne t hd]; simp⟩

theorem trimStartMatches_eq_self (h : t.head? ≠ some c) :
    trimStartMatches t c = t := by
  cases t with
  | nil => rfl
  | cons d t =>
    apply List.dropWhile_cons_of_neg
    intro hd
    exact h (congrArg some (beq_iff_eq.mp hd))

/-- A text is the characters trimmed away at its start followed by the rest. -/
theorem eq_replicate_append_trimStartMatches (t : Text) (c : Char) :
    ∃ k, t = List.replicate k c ++ trimStartMatches t c := by
  induction t with
  | nil => exact ⟨0, rfl⟩
  | cons d t ih =>
    by_cases hd : d = c
    · obtain ⟨k, hk⟩ := ih
      refine ⟨k + 1, ?_⟩
      have htrim : trimStartMatches (d :: t) c = trimStartMatches t c :=
        List.dropWhile_cons_of_pos (by simp [hd])
      rw [htrim, List.replicate_succ, List.cons_append, ← hk, hd]
    · refine ⟨0, (trimStartMatches_eq_self ?_).symm⟩
      intro hhead
      exact hd (Option.some.inj hhead)

theorem trimStartMatches_replicate_append (t : Text) (c : Char) (k : Nat) :
    trimStartMatches (List.replicate k c ++ t) c = trimStartMatches t c := by
  apply List.dropWhile_append_of_pos
  intro d hd
  simp [List.eq_of_mem_replicate hd]

/-! ## §5 Searching -/

/-- What `find` finds is there. -/
theorem find_prefix {needle : Text} {n : Nat} (h : find needle t = some n) :
    needle <+: t.drop n := by
  induction t generalizing n with
  | nil =>
    unfold find at h
    split_ifs at h with hempty
    rw [List.isEmpty_iff.mp hempty]
    exact List.nil_prefix
  | cons c t ih =>
    unfold find at h
    split_ifs at h with hpre
    · obtain rfl := Option.some.inj h
      simpa using hpre
    · obtain ⟨m, hm, rfl⟩ := Option.map_eq_some_iff.mp h
      exact ih hm

theorem throughLast_append {name last : Text} (hlast : '/' ∉ last) :
    throughLast (name ++ '/' :: last) '/' = some (name ++ ['/']) := by
  induction last using List.reverseRecOn with
  | nil => exact throughLast_concat_self name '/'
  | append_singleton last c ih =>
    simp only [List.mem_append, List.mem_singleton, not_or] at hlast
    rw [← List.cons_append, ← List.append_assoc, throughLast_concat_ne _ (Ne.symm hlast.2),
      ih hlast.1]

/-- The part up to the last slash is a prefix that ends in it. -/
theorem throughLast_some {p : Text} (h : throughLast t c = some p) :
    p <+: t ∧ p.getLast? = some c := by
  induction t using List.reverseRecOn with
  | nil => cases h
  | append_singleton t d ih =>
    by_cases hd : d = c
    · subst hd
      rw [throughLast_concat_self] at h
      obtain rfl := Option.some.inj h
      exact ⟨List.prefix_refl _, List.getLast?_concat⟩
    · rw [throughLast_concat_ne t hd] at h
      obtain ⟨hup, hlast⟩ := ih h
      exact ⟨hup.trans (List.prefix_append _ _), hlast⟩

end SolidServer.Text
