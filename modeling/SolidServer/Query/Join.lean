import Mathlib.Data.List.AList
import Mathlib.Data.List.Induction
import Mathlib.Tactic.Common

/-!
# Conjunctive matching by backtracking

A pattern is a list of positions, each a fixed value or a hole named by a key; a row is
a list of values.  `search` walks a list of patterns from left to right, tries every row
for each of them and grows a partial assignment of values to keys.

`mem_search_iff` says what it finds: the assignments that give a value to exactly the
keys of the patterns and under which every pattern is one of the rows.  The order of
patterns and rows does not matter for it, and neither do repetitions.

The second part is the collection of results without duplicates (`appendNew`).
-/

namespace SolidServer.Query

/-! ## §1 Slots and assignments -/

/-- One position of a pattern: a fixed value, or a hole named by a key. -/
inductive Slot (κ τ : Type) where
  | const (v : τ)
  | hole (k : κ)
  deriving DecidableEq

/-- A finite assignment of values to keys. -/
abbrev Assignment (κ τ : Type) := AList fun _ : κ => τ

/-- A position asks for the value `v` under the (possibly partial) valuation `f`. -/
def Slot.Holds {κ τ : Type} (f : κ → Option τ) : Slot κ τ → τ → Prop
  | .const c, v => c = v
  | .hole k, v => f k = some v

/-- The keys of a pattern's holes. -/
def holes {κ τ : Type} (p : List (Slot κ τ)) : List κ :=
  p.filterMap fun
    | .const _ => none
    | .hole k => some k

variable {κ τ : Type} [DecidableEq κ]

/-- The valuation an assignment stands for. -/
def Assignment.val (b : Assignment κ τ) (k : κ) : Option τ := b.lookup k

/-- `f` gives every key of `b` the value that `b` gives it. -/
def Below (b : Assignment κ τ) (f : κ → Option τ) : Prop :=
  ∀ k v, b.lookup k = some v → f k = some v

theorem below_empty (f : κ → Option τ) : Below (∅ : Assignment κ τ) f := by
  intro k v h
  simp at h

theorem below_self (b : Assignment κ τ) : Below b b.val := fun _ _ h => h

/-- A pattern is the row `r` under a valuation. -/
def IsRow {κ τ : Type} (f : κ → Option τ) (p : List (Slot κ τ)) (r : List τ) : Prop :=
  List.Forall₂ (Slot.Holds f) p r

variable {s : Slot κ τ} {v : τ} {b c b' : Assignment κ τ} {f : κ → Option τ} {p : List (Slot κ τ)}
  {r : List τ} {k : κ}

theorem Slot.Holds.mono (h : s.Holds b.val v) (hb : Below b f) : s.Holds f v := by
  cases s with
  | const c => exact h
  | hole k => exact hb k v h

theorem IsRow.mono (h : IsRow b.val p r) (hb : Below b f) : IsRow f p r :=
  h.imp fun _ _ hs => hs.mono hb

theorem Below.trans (h : Below b c.val) (hc : Below c f) :
    Below b f := fun k v hk => hc k v (h k v hk)

/-- The entries of an assignment are its keys with the values looked up. -/
theorem entries_eq_filterMap (b : Assignment κ τ) :
    b.entries = b.keys.filterMap fun k => (b.lookup k).map (Sigma.mk k) := by
  have hentry : ∀ e ∈ b.entries, ((b.lookup e.1).map (Sigma.mk e.1)) = some e := by
    intro e he
    have hlookup : b.lookup e.1 = some e.2 := AList.mem_lookup_iff.mpr he
    rw [hlookup]
    rfl
  calc b.entries = b.entries.filterMap some := List.filterMap_some.symm
    _ = b.entries.filterMap fun e => (b.lookup e.1).map (Sigma.mk e.1) :=
        List.filterMap_congr fun e he => (hentry e he).symm
    _ = b.keys.filterMap fun k => (b.lookup k).map (Sigma.mk k) := by
        unfold AList.keys List.keys
        rw [List.filterMap_map]
        rfl

/-- Assignments with the same keys in the same order and the same values are equal. -/
theorem Assignment.ext_of_keys (hkeys : b.keys = c.keys) (hval : b.val = c.val) : b = c := by
  apply AList.ext
  rw [entries_eq_filterMap b, entries_eq_filterMap c, hkeys]
  apply List.filterMap_congr
  intro k _
  have hk : b.lookup k = c.lookup k := congrFun hval k
  rw [hk]

/-! ## §2 Unification -/

/-- The keys after a position has been met. -/
def Slot.grow (s : Slot κ τ) (ks : List κ) : List κ :=
  match s with
  | .const _ => ks
  | .hole k => if k ∈ ks then ks else k :: ks

/-- The keys after a pattern has been met. -/
def growRow (p : List (Slot κ τ)) (ks : List κ) : List κ := p.foldl (fun ks s => s.grow ks) ks

theorem mem_growRow {ks : List κ} :
    k ∈ growRow p ks ↔ k ∈ ks ∨ k ∈ holes p := by
  unfold growRow holes
  induction p generalizing ks with
  | nil => simp
  | cons s ss ih =>
    rw [List.foldl_cons, ih]
    cases s with
    | const c => simp [Slot.grow]
    | hole j =>
      have hgrow : k ∈ (Slot.hole j : Slot κ τ).grow ks ↔ k ∈ ks ∨ k = j := by
        simp only [Slot.grow]
        split_ifs with hj
        · constructor
          · intro hk
            exact .inl hk
          · rintro (hk | rfl)
            · exact hk
            · exact hj
        · rw [List.mem_cons, or_comm]
      rw [hgrow, List.filterMap_cons]
      simp only [List.mem_cons, or_assoc]

/-- The keys after all patterns have been met. -/
def growAll (ps : List (List (Slot κ τ))) (ks : List κ) : List κ :=
  ps.foldl (fun ks p => growRow p ks) ks

theorem mem_growAll {ps : List (List (Slot κ τ))} {ks : List κ} :
    k ∈ growAll ps ks ↔ k ∈ ks ∨ k ∈ ps.flatMap holes := by
  unfold growAll
  induction ps generalizing ks with
  | nil => simp
  | cons p ps ih => rw [List.foldl_cons, ih, mem_growRow, List.flatMap_cons, List.mem_append, or_assoc]

variable [DecidableEq τ]

/-- A fixed value must be the one met, a bound hole too; an unbound hole takes it. -/
def Slot.unify (s : Slot κ τ) (v : τ) (b : Assignment κ τ) : Option (Assignment κ τ) :=
  match s with
  | .const c => if c = v then some b else none
  | .hole k =>
    match b.lookup k with
    | some w => if w = v then some b else none
    | none => some (b.insert k v)

/-- A pattern against a row, position by position. -/
def unifyRow : List (Slot κ τ) → List τ → Assignment κ τ → Option (Assignment κ τ)
  | [], [], b => some b
  | s :: ss, v :: vs, b => (s.unify v b).bind (unifyRow ss vs)
  | _, _, _ => none

/-- The three ways a position can be met. -/
theorem Slot.unify_cases (h : s.unify v b = some b') :
    (s = .const v ∧ b' = b) ∨ (∃ k, s = .hole k ∧ b.lookup k = some v ∧ b' = b) ∨
      ∃ k, s = .hole k ∧ b.lookup k = none ∧ b' = b.insert k v := by
  cases s with
  | const c =>
    simp only [Slot.unify] at h
    split_ifs at h with hc
    exact .inl ⟨by rw [hc], (Option.some.inj h).symm⟩
  | hole k =>
    simp only [Slot.unify] at h
    cases hk : b.lookup k with
    | some w =>
      simp only [hk] at h
      split_ifs at h with hw
      exact .inr (.inl ⟨k, rfl, by rw [hk, hw], (Option.some.inj h).symm⟩)
    | none =>
      simp only [hk] at h
      exact .inr (.inr ⟨k, rfl, hk, (Option.some.inj h).symm⟩)

theorem Slot.unify_keys (h : s.unify v b = some b') : b'.keys = s.grow b.keys := by
  rcases Slot.unify_cases h with ⟨rfl, rfl⟩ | ⟨k, rfl, hk, rfl⟩ | ⟨k, rfl, hk, rfl⟩
  · rfl
  · have hmem : k ∈ b'.keys := AList.lookup_isSome.mp (by rw [hk]; rfl)
    simp only [Slot.grow, if_pos hmem]
  · have hmem : k ∉ b.keys := AList.lookup_eq_none.mp hk
    rw [AList.keys_insert, List.erase_of_not_mem hmem]
    simp only [Slot.grow, if_neg hmem]

/-- **Soundness of a position**: the assignment only grows, and the position holds in it. -/
theorem Slot.unify_sound (h : s.unify v b = some b') : Below b b'.val ∧ s.Holds b'.val v := by
  rcases Slot.unify_cases h with ⟨rfl, rfl⟩ | ⟨k, rfl, hk, rfl⟩ | ⟨k, rfl, hk, rfl⟩
  · exact ⟨below_self b', rfl⟩
  · exact ⟨below_self b', hk⟩
  · constructor
    · -- the new key was free, so no older value is touched
      intro j w hj
      have hne : j ≠ k := by
        intro hjk
        rw [hjk, hk] at hj
        cases hj
      exact (AList.lookup_insert_ne hne).trans hj
    · exact AList.lookup_insert b

/-- **Completeness of a position**: a valuation above the assignment that satisfies the position
is still above the result. -/
theorem Slot.unify_complete (hb : Below b f) (hs : s.Holds f v) :
    ∃ b', s.unify v b = some b' ∧ Below b' f := by
  cases s with
  | const c => exact ⟨b, if_pos hs, hb⟩
  | hole k =>
    cases hk : b.lookup k with
    | some w =>
      have hw : w = v := Option.some.inj ((hb k w hk).symm.trans hs)
      refine ⟨b, ?_, hb⟩
      simp only [Slot.unify, hk, if_pos hw]
    | none =>
      refine ⟨b.insert k v, by simp only [Slot.unify, hk], ?_⟩
      intro j w hj
      by_cases hjk : j = k
      · subst hjk
        rw [AList.lookup_insert] at hj
        rw [← hj]
        exact hs
      · rw [AList.lookup_insert_ne hjk] at hj
        exact hb j w hj

theorem unifyRow_sound (h : unifyRow p r b = some b') :
    Below b b'.val ∧ IsRow b'.val p r ∧ b'.keys = growRow p b.keys := by
  induction p generalizing r b with
  | nil =>
    cases r with
    | nil =>
      obtain rfl := Option.some.inj h
      exact ⟨below_self b, .nil, rfl⟩
    | cons v vs => cases h
  | cons s ss ih =>
    cases r with
    | nil => cases h
    | cons v vs =>
      obtain ⟨c, hc, hrest⟩ := Option.bind_eq_some_iff.mp h
      obtain ⟨hbc, hs⟩ := Slot.unify_sound hc
      obtain ⟨hcb, hss, hkeys⟩ := ih hrest
      refine ⟨hbc.trans hcb, .cons (hs.mono hcb) hss, ?_⟩
      rw [hkeys, Slot.unify_keys hc]
      rfl

theorem unifyRow_complete (hb : Below b f) (hp : IsRow f p r) :
    ∃ b', unifyRow p r b = some b' ∧ Below b' f := by
  induction hp generalizing b with
  | nil => exact ⟨b, rfl, hb⟩
  | cons hs _ ih =>
    obtain ⟨c, hc, hcf⟩ := Slot.unify_complete hb hs
    obtain ⟨b', hb', hf⟩ := ih hcf
    exact ⟨b', Option.bind_eq_some_iff.mpr ⟨c, hc, hb'⟩, hf⟩

/-! ## §3 The search -/

/-- Every way to extend `b` so that each pattern is one of the rows, in the order the rows are
tried. -/
def search (rows : List (List τ)) :
    List (List (Slot κ τ)) → Assignment κ τ → List (Assignment κ τ)
  | [], b => [b]
  | p :: ps, b =>
    rows.flatMap fun r =>
      match unifyRow p r b with
      | some extended => search rows ps extended
      | none => []

variable {rows : List (List τ)} {ps : List (List (Slot κ τ))}

theorem mem_search_cons :
    b' ∈ search rows (p :: ps) b ↔
      ∃ r ∈ rows, ∃ c, unifyRow p r b = some c ∧ b' ∈ search rows ps c := by
  simp only [search, List.mem_flatMap]
  constructor
  · rintro ⟨r, hr, hb'⟩
    cases hc : unifyRow p r b with
    | none =>
      rw [hc] at hb'
      cases hb'
    | some c =>
      rw [hc] at hb'
      exact ⟨r, hr, c, hc, hb'⟩
  · rintro ⟨r, hr, c, hc, hb'⟩
    refine ⟨r, hr, ?_⟩
    rw [hc]
    exact hb'

/-- **Soundness of the search.** -/
theorem search_sound (h : b' ∈ search rows ps b) :
    Below b b'.val ∧ (∀ p ∈ ps, ∃ r ∈ rows, IsRow b'.val p r) ∧ b'.keys = growAll ps b.keys := by
  induction ps generalizing b with
  | nil =>
    obtain rfl := List.mem_singleton.mp h
    exact ⟨below_self b', by simp, rfl⟩
  | cons p ps ih =>
    obtain ⟨r, hr, c, hc, hb'⟩ := mem_search_cons.mp h
    obtain ⟨hbc, hrow, hkeys⟩ := unifyRow_sound hc
    obtain ⟨hcb, hps, hall⟩ := ih hb'
    refine ⟨hbc.trans hcb, ?_, ?_⟩
    · exact List.forall_mem_cons.mpr ⟨⟨r, hr, hrow.mono hcb⟩, hps⟩
    · rw [hall, hkeys]
      rfl

/-- **Completeness of the search**: a valuation under which every pattern is a row lies above
one of its results. -/
theorem search_complete (hb : Below b f) (hps : ∀ p ∈ ps, ∃ r ∈ rows, IsRow f p r) :
    ∃ b' ∈ search rows ps b, Below b' f := by
  induction ps generalizing b with
  | nil => exact ⟨b, List.mem_singleton.mpr rfl, hb⟩
  | cons p ps ih =>
    obtain ⟨⟨r, hr, hrow⟩, hrest⟩ := List.forall_mem_cons.mp hps
    obtain ⟨c, hc, hcf⟩ := unifyRow_complete hb hrow
    obtain ⟨b', hb', hf⟩ := ih hcf hrest
    exact ⟨b', mem_search_cons.mpr ⟨r, hr, c, hc, hb'⟩, hf⟩

/-- A result of a search from nothing binds exactly the keys of the patterns. -/
theorem mem_keys_of_search (h : b ∈ search rows ps ∅) :
    k ∈ b.keys ↔ k ∈ ps.flatMap holes := by
  rw [(search_sound h).2.2, mem_growAll]
  simp

/-- Different results of a search are different valuations. -/
theorem search_injective (hb : b ∈ search rows ps ∅) (hc : c ∈ search rows ps ∅)
    (hval : b.val = c.val) : b = c := by
  apply Assignment.ext_of_keys _ hval
  rw [(search_sound hb).2.2, (search_sound hc).2.2]

/-- **What the search finds**: the valuations defined on exactly the keys of the patterns under
which every pattern is one of the rows. -/
theorem mem_search_iff :
    (∃ b ∈ search rows ps ∅, b.val = f) ↔
      (∀ k, (f k).isSome = true ↔ k ∈ ps.flatMap holes) ∧
        ∀ p ∈ ps, ∃ r ∈ rows, IsRow f p r := by
  constructor
  · rintro ⟨b, hb, rfl⟩
    refine ⟨fun k => ?_, (search_sound hb).2.1⟩
    rw [← mem_keys_of_search hb]
    exact AList.lookup_isSome
  · rintro ⟨hdom, hps⟩
    obtain ⟨b, hb, hf⟩ := search_complete (below_empty f) hps
    refine ⟨b, hb, funext fun k => ?_⟩
    cases hk : b.val k with
    | some v => exact (hf k v hk).symm
    | none =>
      -- an unbound key is no key of the patterns, so the valuation has nothing for it either
      have hkeys : k ∉ ps.flatMap holes := by
        rw [← mem_keys_of_search hb]
        exact AList.lookup_eq_none.mp hk
      rw [← hdom k, Bool.not_eq_true, Option.isSome_eq_false_iff, Option.isNone_iff_eq_none]
        at hkeys
      exact hkeys.symm

/-! ## §4 Collecting without duplicates -/

section
variable {α : Type} [DecidableEq α]

/-- Add at the end unless already there. -/
def appendNew (out : List α) (a : α) : List α := if a ∈ out then out else out ++ [a]

variable {out l : List α}

theorem mem_appendNew {a b : α} : b ∈ appendNew out a ↔ b ∈ out ∨ b = a := by
  unfold appendNew
  split_ifs with ha
  · constructor
    · intro hb
      exact .inl hb
    · rintro (hb | rfl)
      · exact hb
      · exact ha
  · simp

theorem mem_foldl_appendNew {b : α} :
    b ∈ l.foldl appendNew out ↔ b ∈ out ∨ b ∈ l := by
  induction l generalizing out with
  | nil => simp
  | cons a l ih => rw [List.foldl_cons, ih, mem_appendNew, List.mem_cons, or_assoc]

theorem nodup_foldl_appendNew (h : out.Nodup) : (l.foldl appendNew out).Nodup := by
  induction l generalizing out with
  | nil => exact h
  | cons a l ih =>
    apply ih
    unfold appendNew
    split_ifs with ha
    · exact h
    · refine List.nodup_append.mpr ⟨h, by simp, ?_⟩
      intro b hb c hc hbc
      obtain rfl := List.mem_singleton.mp hc
      exact ha (hbc ▸ hb)

/-- Collecting a list without duplicates gives the list. -/
theorem foldl_appendNew_of_nodup (h : (out ++ l).Nodup) :
    l.foldl appendNew out = out ++ l := by
  induction l generalizing out with
  | nil => simp
  | cons a l ih =>
    have ha : a ∉ out := fun hmem =>
      (List.nodup_append.mp h).2.2 a hmem a List.mem_cons_self rfl
    rw [List.foldl_cons, appendNew, if_neg ha, ih (by simpa using h)]
    simp

/-- Collecting more elements only appends to what is there. -/
theorem foldl_appendNew_eq (l out : List α) :
    ∃ new, l.foldl appendNew out = out ++ new ∧ ∀ a ∈ new, a ∈ l ∧ a ∉ out := by
  induction l generalizing out with
  | nil => exact ⟨[], by simp, by simp⟩
  | cons a l ih =>
    obtain ⟨new, hnew, hmem⟩ := ih (appendNew out a)
    rw [List.foldl_cons, hnew]
    by_cases ha : a ∈ out
    · rw [appendNew, if_pos ha] at hmem ⊢
      refine ⟨new, rfl, fun b hb => ?_⟩
      exact ⟨List.mem_cons_of_mem _ (hmem b hb).1, (hmem b hb).2⟩
    · rw [appendNew, if_neg ha] at hmem ⊢
      refine ⟨a :: new, by simp, List.forall_mem_cons.mpr ⟨⟨List.mem_cons_self, ha⟩, ?_⟩⟩
      intro b hb
      have hout : b ∉ out := fun h => (hmem b hb).2 (List.mem_append_left _ h)
      exact ⟨List.mem_cons_of_mem _ (hmem b hb).1, hout⟩

/-- The elements of a list that pass a test, collected, stand in the order of their first
occurrences. -/
theorem collected_pairwise (q : α → Bool) (l : List α) :
    ((l.filter q).foldl appendNew []).Pairwise fun a b => l.idxOf a < l.idxOf b := by
  -- by induction on the end of the list: a new element comes after all that were there
  induction l using List.reverseRecOn with
  | nil => simp
  | append_singleton l x ih =>
    have hmem : ∀ {a : α}, a ∈ (l.filter q).foldl appendNew [] → a ∈ l := by
      intro a ha
      rcases mem_foldl_appendNew.mp ha with h | h
      · cases h
      · exact List.mem_of_mem_filter h
    have hold : ((l.filter q).foldl appendNew []).Pairwise
        fun a b => (l ++ [x]).idxOf a < (l ++ [x]).idxOf b := by
      refine ih.imp_of_mem ?_
      intro a b ha hb hlt
      rwa [List.idxOf_append_of_mem (hmem ha), List.idxOf_append_of_mem (hmem hb)]
    rw [List.filter_append, List.foldl_append]
    by_cases hq : q x = true
    · rw [List.filter_cons_of_pos hq, List.foldl_cons, appendNew]
      split_ifs with hx
      · exact hold
      · have hxl : x ∉ l := by
          intro hl
          exact hx (mem_foldl_appendNew.mpr (.inr (List.mem_filter.mpr ⟨hl, hq⟩)))
        refine List.pairwise_append.mpr ⟨hold, by simp, ?_⟩
        intro a ha b hb
        obtain rfl := List.mem_singleton.mp hb
        rw [List.idxOf_append_of_mem (hmem ha), List.idxOf_append_of_notMem hxl]
        have hlt := List.idxOf_lt_length_of_mem (hmem ha)
        omega
    · rw [List.filter_cons_of_neg hq, List.filter_nil]
      exact hold

end

end SolidServer.Query
