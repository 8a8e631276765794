import SolidServer.Pop.SigBase

/-!
# Where the members of a dictionary stand

The text kept with a member of a parsed dictionary is the part of the input its value was
read from: a turn of the dictionary loop reads a key, a value and what separates it from
the next member (`dictionaryRound_spans`), the loop lays the members out one after the other
(`parseDictionary_layout`).
-/

namespace SolidServer.Sig

open SolidServer.Parser

variable {decode : Text → Option Bytes}

theorem local_implicitTrue : Local NoLf (implicitTrue decode) := by
  apply Local.bind local_parameters
  intro params
  exact Local.pure _

/-- **The span of a member**: the text starts with the key; the value was read from the text kept
with the member, no more and no less, right after the key or its `=`. -/
inductive Member.Spans (decode : Text → Option Bytes) (m : Member) (s rest : Text) : Prop
  | valued (place : s = m.key ++ '=' :: (m.raw ++ rest))
      (read : itemOrInnerList decode (m.raw ++ rest) = some (m.value, rest))
  | implicit (place : s = m.key ++ (m.raw ++ rest)) (noValue : (m.raw ++ rest).head? ≠ some '=')
      (read : implicitTrue decode (m.raw ++ rest) = some (m.value, rest))

/-- Optional white space. -/
def Blank (t : Text) : Prop := ∀ c ∈ t, c = ' ' ∨ c = '\t'

/-- **The layout of a dictionary**: the members in their order, with commas between them. -/
inductive Layout (decode : Text → Option Bytes) : Text → List Member → Prop
  | last {m : Member} {s blank : Text} (member : m.Spans decode s blank) (ows : Blank blank) :
      Layout decode s [m]
  | cons {m : Member} {ms : List Member} {s blank blank' rest : Text}
      (member : m.Spans decode s (blank ++ ',' :: (blank' ++ rest))) (ows : Blank blank)
      (ows' : Blank blank') (more : Layout decode rest ms) : Layout decode s (m :: ms)

theorem key_front {s k r : Text} (h : key s = some (k, r)) : s = k ++ r := by
  obtain ⟨c, s₁, hc, h⟩ := bind_eq_some.mp h
  obtain ⟨rest, s₂, hrest, h⟩ := bind_eq_some.mp h
  obtain ⟨rfl, rfl⟩ := Prod.mk.inj (Option.some.inj h)
  obtain ⟨rfl, rfl⟩ := Prod.mk.inj (Option.some.inj hrest)
  cases s with
  | nil => cases hc
  | cons d s =>
    simp only [next] at hc
    split_ifs at hc
    obtain ⟨rfl, rfl⟩ := Prod.mk.inj (Option.some.inj hc)
    rw [List.cons_append, List.takeWhile_append_dropWhile]

/-- The value of a member with the text it was read from. -/
theorem spans_memberValue {k s raw r : Text} {value : MemberValue}
    (h : memberValue decode s = some ((value, raw), r)) :
    Member.Spans decode ⟨k, value, raw⟩ (k ++ s) r := by
  obtain ⟨eq, s₁, heq, hspan⟩ := bind_eq_some.mp h
  cases eq with
  | true =>
    obtain ⟨t, rfl⟩ : ∃ t, s = '=' :: t := by
      cases s with
      | nil => cases heq
      | cons c t =>
        simp only [eat] at heq
        split_ifs at heq with hc
        · exact ⟨t, by rw [hc]⟩
        · cases heq
    obtain ⟨-, rfl⟩ := Prod.mk.inj (Option.some.inj heq)
    obtain ⟨rfl, hread⟩ := local_itemOrInnerList.spanned_front hspan
    exact .valued rfl hread
  | false =>
    have hno : s.head? ≠ some '=' ∧ s₁ = s := by
      cases s with
      | nil =>
        obtain ⟨-, rfl⟩ := Prod.mk.inj (Option.some.inj heq)
        exact ⟨by rintro ⟨⟩, rfl⟩
      | cons c t =>
        simp only [eat] at heq
        split_ifs at heq with hc
        · cases heq
        · obtain ⟨-, rfl⟩ := Prod.mk.inj (Option.some.inj heq)
          exact ⟨fun h => hc (Option.some.inj h), rfl⟩
    obtain ⟨hno, rfl⟩ := hno
    obtain ⟨rfl, hread⟩ := local_implicitTrue.spanned_front hspan
    exact .implicit rfl hno hread

theorem blank_skipOws (s : Text) :
    Blank (s.takeWhile fun c => decide (c = ' ') || decide (c = '\t')) := by
  intro c hc
  simpa using List.mem_takeWhile_imp hc

/-- **One turn** reads a member and what stands after it. -/
theorem dictionaryRound_spans {members : List Member} {s r : Text}
    {x : List Member ⊕ List Member} (h : dictionaryRound decode members s = some (x, r)) :
    ∃ m blank rest, m.Spans decode s (blank ++ rest) ∧ Blank blank ∧
      ((x = .inr (members ++ [m]) ∧ rest = []) ∨
        ∃ blank', x = .inl (members ++ [m]) ∧ Blank blank' ∧ rest = ',' :: (blank' ++ r)) := by
  obtain ⟨k, s₁, hkey, h₁⟩ := bind_eq_some.mp h
  obtain ⟨⟨value, raw⟩, s₂, hvalue, h₂⟩ := bind_eq_some.mp h₁
  have hspans := spans_memberValue (k := k) hvalue
  rw [← key_front hkey] at hspans
  split_ifs at h₂
  · cases h₂
  obtain ⟨blank, s₃, hblank, h₃⟩ := bind_eq_some.mp h₂
  obtain ⟨rfl, rfl⟩ := Prod.mk.inj (Option.some.inj hblank)
  refine ⟨⟨k, value, raw⟩, _, s₂.dropWhile fun c => decide (c = ' ') || decide (c = '\t'), ?_,
    blank_skipOws s₂, ?_⟩
  · rw [List.takeWhile_append_dropWhile]
    exact hspans
  · obtain ⟨c, s₄, hbump, h₄⟩ := bind_eq_some.mp h₃
    generalize (s₂.dropWhile fun c => decide (c = ' ') || decide (c = '\t')) = rest at *
    cases rest with
    | nil =>
      obtain ⟨rfl, rfl⟩ := Prod.mk.inj (Option.some.inj hbump)
      obtain ⟨rfl, -⟩ := Prod.mk.inj (Option.some.inj h₄)
      exact .inl ⟨rfl, rfl⟩
    | cons d rest =>
      obtain ⟨rfl, rfl⟩ := Prod.mk.inj (Option.some.inj hbump)
      by_cases hd : d = ','
      · subst hd
        obtain ⟨blank', s₅, hblank', h₅⟩ := bind_eq_some.mp h₄
        obtain ⟨rfl, rfl⟩ := Prod.mk.inj (Option.some.inj hblank')
        have hrest : rest = (rest.takeWhile fun c => decide (c = ' ') || decide (c = '\t')) ++
            rest.dropWhile fun c => decide (c = ' ') || decide (c = '\t') :=
          List.takeWhile_append_dropWhile.symm
        generalize hu : (rest.dropWhile fun c => decide (c = ' ') || decide (c = '\t')) = u at *
        cases u with
        | nil => cases h₅
        | cons e u =>
          obtain ⟨rfl, rfl⟩ := Prod.mk.inj (Option.some.inj h₅)
          exact .inr ⟨_, rfl, blank_skipOws rest, by rw [← hrest]⟩
      · simp only at h₄
        cases h₄

/-- **The loop** lays out the members it adds. -/
theorem loop_layout {n : Nat} {acc members : List Member} {s r : Text}
    (h : loop (dictionaryRound decode) n acc s = some (members, r)) :
    ∃ new, members = acc ++ new ∧ Layout decode s new := by
  induction n generalizing acc s with
  | zero => cases h
  | succ n ih =>
    obtain ⟨x, s₁, hround, hrest⟩ := bind_eq_some.mp h
    obtain ⟨m, blank, rest, hspans, hblank, hlast | hmore⟩ := dictionaryRound_spans hround
    · obtain ⟨rfl, rfl⟩ := hlast
      obtain ⟨rfl, rfl⟩ := Prod.mk.inj (Option.some.inj hrest)
      rw [List.append_nil] at hspans
      exact ⟨[m], rfl, .last hspans hblank⟩
    · obtain ⟨blank', rfl, hblank', rfl⟩ := hmore
      obtain ⟨new, rfl, hlayout⟩ := ih hrest
      exact ⟨m :: new, by simp, .cons hspans hblank hblank' hlayout⟩

/-- **Spans of a parsed dictionary**: blanks, then the members. -/
theorem parseDictionary_layout {input : Text} {members : List Member}
    (h : parseDictionary decode input = some members) :
    ∃ blank rest, input = blank ++ rest ∧ (∀ c ∈ blank, c = ' ') ∧
      ((rest = [] ∧ members = []) ∨ Layout decode rest members) := by
  unfold parseDictionary at h
  split_ifs at h
  obtain ⟨⟨ms, r⟩, hd, rfl⟩ := Option.map_eq_some_iff.mp h
  obtain ⟨sp, s₁, hskip, h₁⟩ := bind_eq_some.mp hd
  obtain ⟨rest, s₂, hget, h₂⟩ := bind_eq_some.mp h₁
  obtain ⟨rfl, rfl⟩ := Prod.mk.inj (Option.some.inj hskip)
  obtain ⟨rfl, rfl⟩ := Prod.mk.inj (Option.some.inj hget)
  refine ⟨input.takeWhile fun c => decide (c = ' '), input.dropWhile fun c => decide (c = ' '),
    List.takeWhile_append_dropWhile.symm, fun c hc => ?_, ?_⟩
  · simpa using List.mem_takeWhile_imp hc
  · split_ifs at h₂ with hempty
    · obtain ⟨rfl, -⟩ := Prod.mk.inj (Option.some.inj h₂)
      exact .inl ⟨hempty, rfl⟩
    · obtain ⟨new, rfl, hlayout⟩ := loop_layout h₂
      exact .inr hlayout

end SolidServer.Sig
