import Mathlib.Algebra.BigOperators.Group.List.Basic
import Mathlib.Data.List.AList
import Mathlib.Tactic.Ring

/-!
# Sums over finite maps

A finite map is a list of entries without a repeated key.  `total` adds up a weight over
the entries; erasing an entry takes its weight away and inserting a new one adds it.  With
the weight 1 this counts the entries.
-/

namespace SolidServer.FiniteMap

variable {α : Type*} {β : α → Type*}

/-- The sum of a weight over the entries. -/
def total (f : Sigma β → Nat) (s : AList β) : Nat := (s.entries.map f).sum

theorem total_one (s : AList β) : total (fun _ => 1) s = s.entries.length := by
  unfold total
  simp

/-- The entries that pass a test. -/
def retain (p : Sigma β → Bool) (s : AList β) : AList β :=
  ⟨s.entries.filter p, List.NodupKeys.sublist List.filter_sublist s.nodupKeys⟩

section
variable [DecidableEq α] {f : Sigma β → Nat} {s : AList β} {a : α} {b : β a}

theorem lookup_retain {p : Sigma β → Bool} :
    (retain p s).lookup a = some b ↔ s.lookup a = some b ∧ p ⟨a, b⟩ = true := by
  rw [← Option.mem_def, ← Option.mem_def, AList.mem_lookup_iff, AList.mem_lookup_iff]
  exact List.mem_filter

theorem erase_of_notMem (h : a ∉ s) : s.erase a = s := by
  apply AList.ext
  exact List.kerase_of_notMem_keys h

/-- An entry's weight is within the sum; erasing it takes the weight away. -/
theorem total_erase (h : s.lookup a = some b) : total f (s.erase a) + f ⟨a, b⟩ = total f s := by
  have hentry : ⟨a, b⟩ ∈ s.entries := AList.mem_lookup_iff.mp h
  obtain ⟨b', l₁, l₂, -, hsplit, herase⟩ :=
    List.exists_of_kerase (List.mem_keys_of_mem hentry)
  -- the key occurs once, so the entry that goes is the one looked up
  have hentry' : ⟨a, b'⟩ ∈ s.entries := by
    rw [hsplit]
    simp
  obtain rfl : b = b' := s.nodupKeys.eq_of_mk_mem hentry hentry'
  show ((List.kerase a s.entries).map f).sum + f ⟨a, b⟩ = (s.entries.map f).sum
  rw [herase, hsplit]
  simp only [List.map_append, List.map_cons, List.sum_append, List.sum_cons]
  omega

/-- An inserted entry takes the place of the one under its key. -/
theorem total_insert : total f (s.insert a b) = total f (s.erase a) + f ⟨a, b⟩ := by
  unfold total
  rw [AList.entries_insert, List.map_cons, Nat.add_comm]
  rfl

theorem length_erase (h : a ∈ s) : (s.erase a).entries.length + 1 = s.entries.length := by
  obtain ⟨b, hb⟩ := Option.isSome_iff_exists.mp (AList.lookup_isSome.mpr h)
  have hsum := total_erase (f := fun _ => 1) hb
  rwa [total_one, total_one] at hsum

theorem length_insert (h : a ∉ s) :
    (s.insert a b).entries.length = s.entries.length + 1 := by
  rw [AList.entries_insert_of_notMem h, List.length_cons]

/-! ## Weights by key -/

/-- The weight of a key; 0 when it has no entry. -/
def weightAt (f : Sigma β → Nat) (s : AList β) (a : α) : Nat :=
  match s.lookup a with
  | some b => f ⟨a, b⟩
  | none => 0

theorem weightAt_of_lookup (h : s.lookup a = some b) : weightAt f s a = f ⟨a, b⟩ := by
  unfold weightAt
  rw [h]

theorem weightAt_congr {t : AList β} (h : s.lookup a = t.lookup a) :
    weightAt f s a = weightAt f t a := by
  unfold weightAt
  rw [h]

/-- The sum over the keys, in any order. -/
theorem total_eq_sum_keys {ks : List α} (hks : ks.Perm s.keys) :
    total f s = (ks.map (weightAt f s)).sum := by
  have hentries : s.entries.map f = s.keys.map (weightAt f s) := by
    show s.entries.map f = (s.entries.map Sigma.fst).map (weightAt f s)
    rw [List.map_map]
    apply List.map_congr_left
    rintro ⟨a, b⟩ hentry
    exact (weightAt_of_lookup (AList.mem_lookup_iff.mpr hentry)).symm
  rw [total, hentries]
  exact ((hks.map _).sum_eq).symm

end

end SolidServer.FiniteMap
