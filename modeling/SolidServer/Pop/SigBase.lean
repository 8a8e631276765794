import SolidServer.Pop.Sig

/-!
# The signature base is unambiguous

A tag is computed over a text of lines.  Two requests that give the same text agree in
everything an attestation covers: the lines hold no line feed, so the text determines
them; the last line repeats the attestation's own text; and the grammar is local, so that
text alone determines the covered components and the parameters.
-/

namespace SolidServer.Sig

open SolidServer.Parser

variable {decode : Text → Option Bytes}

/-! ## §1 The grammar is local -/

/-- Not a line feed. -/
def NoLf (c : Char) : Prop := c ≠ '\n'

theorem noLf_of_class {c : Char → Bool} (h : c '\n' = false) : ∀ x, c x = true → NoLf x := by
  intro x hx heq
  rw [heq, h] at hx
  cases hx

theorem local_skipSp : Local NoLf skipSp := Local.takeWhile (noLf_of_class rfl)

theorem local_key : Local NoLf key := by
  apply Local.bind (Local.next (noLf_of_class rfl))
  intro c
  apply Local.bind (Local.takeWhile (noLf_of_class rfl))
  intro rest
  exact Local.pure _

theorem local_number : Local NoLf number := by
  apply Local.bind (Local.eat (by unfold NoLf; decide))
  intro negative
  apply Local.bind (Local.takeWhile (noLf_of_class rfl))
  intro int
  apply Local.ite Local.failure
  apply Local.bind (Local.eat (by unfold NoLf; decide))
  intro dot
  apply Local.ite
  · apply Local.ite Local.failure
    apply Local.bind (Local.takeWhile (noLf_of_class rfl))
    intro frac
    exact Local.ite Local.failure (Local.pure _)
  · exact Local.ite Local.failure (Local.pure _)

theorem local_stringTail : Local NoLf stringTail := by
  intro s a r t h
  -- along the characters of the string
  induction s using stringTail.induct generalizing a with
  | case1 rest =>
    obtain ⟨rfl, rfl⟩ := Prod.mk.inj (Option.some.inj h)
    exact ⟨['"'], rfl, by simp [NoLf], rfl⟩
  | case2 c rest hc ih =>
    simp only [stringTail, if_pos hc, Option.map_eq_some_iff] at h
    obtain ⟨⟨b, m⟩, hrest, rfl, rfl⟩ := h
    obtain ⟨x, rfl, hx, hread⟩ := ih hrest
    have hc' : NoLf c := by rcases hc with rfl | rfl <;> unfold NoLf <;> decide
    refine ⟨'\\' :: c :: x, rfl, ?_, ?_⟩
    · intro d hd
      rcases List.mem_cons.mp hd with rfl | hd
      · unfold NoLf; decide
      rcases List.mem_cons.mp hd with rfl | hd
      · exact hc'
      · exact hx d hd
    · simp [stringTail, hc, hread]
  | case3 c rest hc => simp [stringTail, hc] at h
  | case4 c rest h1 h2 hc ih =>
    rw [stringTail.eq_3 _ _ h1 h2, if_pos hc] at h
    simp only [Option.map_eq_some_iff] at h
    obtain ⟨⟨b, m⟩, hrest, rfl, rfl⟩ := h
    obtain ⟨x, rfl, hx, hread⟩ := ih hrest
    refine ⟨c :: x, rfl, ?_, ?_⟩
    · intro d hd
      rcases List.mem_cons.mp hd with rfl | hd
      · rintro rfl
        exact absurd hc.2.1 (by decide)
      · exact hx d hd
    · have h2' : ∀ (d : Char) (u : Text), c = '\\' → x ++ r = d :: u → False :=
        fun _ _ hcb _ => hc.1 hcb
      rw [List.cons_append, stringTail.eq_3 _ _ h1 h2', if_pos hc, hread]
      rfl
  | case5 c rest h1 h2 hc =>
    rw [stringTail.eq_3 _ _ h1 h2, if_neg hc] at h
    cases h
  | case6 => cases h

theorem local_string : Local NoLf string := by
  apply Local.bind (Local.next (noLf_of_class rfl))
  intro _
  apply Local.bind local_stringTail
  intro s
  exact Local.pure _

theorem local_token : Local NoLf token := by
  apply Local.bind (Local.next (noLf_of_class rfl))
  intro c
  apply Local.bind (Local.takeWhile (noLf_of_class rfl))
  intro rest
  exact Local.pure _

theorem local_boolean : Local NoLf boolean := by
  apply Local.bind (Local.next (noLf_of_class rfl))
  intro _
  apply Local.bind (Local.next (noLf_of_class rfl))
  intro c
  exact Local.pure _

theorem local_byteSequence : Local NoLf (byteSequence decode) := by
  apply Local.bind (Local.next (noLf_of_class rfl))
  intro _
  apply Local.bind (Local.takeWhile (noLf_of_class rfl))
  intro b64
  apply Local.bind (Local.next (noLf_of_class rfl))
  intro _
  cases decode b64 with
  | none => exact Local.failure
  | some b => exact Local.pure _

theorem local_bareItem : Local NoLf (bareItem decode) := by
  apply Local.dispatch
  · intro c
    apply Local.ite local_number
    apply Local.ite local_string
    apply Local.ite local_byteSequence
    apply Local.ite local_boolean
    exact Local.ite local_token Local.failure
  · intro c
    -- no bare item is empty
    split_ifs <;> rfl

theorem local_parameterValue : Local NoLf (parameterValue decode) := by
  apply Local.bind (Local.eat (by unfold NoLf; decide))
  intro eq
  exact Local.ite local_bareItem (Local.pure _)

theorem local_parametersRound (params : Params) :
    Local NoLf (parametersRound decode params) := by
  apply Local.bind (Local.eat (by unfold NoLf; decide))
  intro more
  apply Local.ite
  · apply Local.bind local_skipSp
    intro _
    apply Local.bind local_key
    intro k
    apply Local.bind local_parameterValue
    intro value
    exact Local.ite Local.failure (Local.pure _)
  · exact Local.pure _

theorem local_parameters : Local NoLf (parameters decode) := by
  apply Local.rounds
  · intro params s params' r h
    apply (local_parametersRound params).length_lt h
    rintro ⟨⟩
  · intro params s params' r t h _
    exact local_parametersRound params h
  · intro params s c r t h
    exact local_parametersRound params h

theorem local_item : Local NoLf (item decode) := by
  apply Local.bind local_bareItem
  intro bare
  apply Local.bind local_parameters
  intro params
  exact Local.pure _

theorem local_itemOrClose : Local NoLf (itemOrClose decode) := by
  apply Local.bind local_skipSp
  intro _
  apply Local.bind (Local.eat (by unfold NoLf; decide))
  intro close
  apply Local.ite (Local.pure _)
  apply Local.bind local_item
  intro i
  exact Local.pure _

variable {s r name : Text} {items : List Item} {params : Params} {a : Attestation}
  {headers : FieldMap}

theorem itemEnd_eq_some (h : itemEnd s = some ((), r)) : r = s := by
  cases s with
  | nil => cases h
  | cons c u =>
    simp only [itemEnd] at h
    split_ifs at h
    exact (Prod.mk.inj (Option.some.inj h)).2.symm

/-- The end of an item is seen at the first character after it. -/
theorem itemEnd_cut {t : Text} (h : itemEnd (r ++ t) = some ((), r ++ t)) (hr : r ≠ []) :
    itemEnd r = some ((), r) := by
  cases r with
  | nil => exact absurd rfl hr
  | cons c u =>
    simp only [itemEnd, List.cons_append] at h ⊢
    split_ifs at h ⊢
    rfl

/-- A turn that goes on has read an item and looked at the character after it. -/
theorem innerListRound_inl {items' : List Item} :
    innerListRound decode items s = some (.inl items', r) ↔
      ∃ i, itemOrClose decode s = some (some i, r) ∧ itemEnd r = some ((), r) ∧
        items' = items ++ [i] := by
  constructor
  · intro h
    obtain ⟨o, m, ho, h⟩ := bind_eq_some.mp h
    cases o with
    | none =>
      obtain ⟨params, m', -, h⟩ := bind_eq_some.mp h
      cases h
    | some i =>
      obtain ⟨u, m', hend, hret⟩ := bind_eq_some.mp h
      obtain rfl := itemEnd_eq_some hend
      obtain ⟨rfl, rfl⟩ : items ++ [i] = items' ∧ m' = r := by
        simpa using pure_eq_some.mp hret
      exact ⟨i, ho, hend, rfl⟩
  · rintro ⟨i, ho, hend, rfl⟩
    exact bind_eq_some.mpr ⟨some i, r, ho, bind_eq_some.mpr ⟨(), r, hend, rfl⟩⟩

theorem innerListRound_inr {c : List Item × Params} :
    innerListRound decode items s = some (.inr c, r) ↔
      (do let o ← itemOrClose decode
          match o with
          | none => parameters decode
          | some _ => failure) s = some (c.2, r) ∧ c.1 = items := by
  constructor
  · intro h
    obtain ⟨o, m, ho, h⟩ := bind_eq_some.mp h
    cases o with
    | none =>
      obtain ⟨params, m', hp, h⟩ := bind_eq_some.mp h
      obtain ⟨rfl, rfl⟩ : (items, params) = c ∧ m' = r := by
        simpa using pure_eq_some.mp h
      exact ⟨bind_eq_some.mpr ⟨none, m, ho, hp⟩, rfl⟩
    | some i =>
      obtain ⟨u, m', hend, h⟩ := bind_eq_some.mp h
      cases h
  · rintro ⟨h, rfl⟩
    obtain ⟨o, m, ho, h⟩ := bind_eq_some.mp h
    cases o with
    | none => exact bind_eq_some.mpr ⟨none, m, ho, bind_eq_some.mpr ⟨c.2, r, h, rfl⟩⟩
    | some i => cases h

theorem local_innerList : Local NoLf (innerList decode) := by
  apply Local.bind (Local.next (noLf_of_class rfl))
  intro _
  apply Local.rounds
  · intro items s items' r h
    obtain ⟨i, ho, -, -⟩ := innerListRound_inl.mp h
    apply local_itemOrClose.length_lt ho
    rintro ⟨⟩
  · intro items s items' r t h hmore
    obtain ⟨i, ho, hend, rfl⟩ := innerListRound_inl.mp h
    -- the list is not closed yet, so the next turn needs a character
    have hr : r ≠ [] := hmore.resolve_right fun hne => hne rfl
    obtain ⟨x, rfl, hx, hread⟩ := local_itemOrClose ho
    exact ⟨x, rfl, hx, innerListRound_inl.mpr ⟨i, hread, itemEnd_cut hend hr, rfl⟩⟩
  · intro items s c r t h
    obtain ⟨hread, rfl⟩ := innerListRound_inr.mp h
    have hclose : Local NoLf (do
        let o ← itemOrClose decode
        match o with
        | none => parameters decode
        | some _ => failure) := by
      apply Local.bind local_itemOrClose
      intro o
      cases o with
      | none => exact local_parameters
      | some i => exact Local.failure
    obtain ⟨x, rfl, hx, hread⟩ := hclose hread
    exact ⟨x, rfl, hx, innerListRound_inr.mpr ⟨hread, rfl⟩⟩

theorem local_itemOrInnerList : Local NoLf (itemOrInnerList decode) := by
  apply Local.dispatch
  · intro c
    apply Local.ite
    · apply Local.bind local_innerList
      intro l
      exact Local.pure _
    · apply Local.bind local_item
      intro i
      exact Local.pure _
  · intro c
    split_ifs <;> rfl

/-- **Locality of members**: the text kept with an inner list reads as that list. -/
theorem spanned_itemOrInnerList {raw : Text}
    (h : spanned (itemOrInnerList decode) s = some ((.innerList items params, raw), r)) :
    innerList decode raw = some ((items, params), []) ∧ ∀ c ∈ raw, NoLf c := by
  obtain ⟨hread, hraw⟩ := local_itemOrInnerList.spanned_eq_some h
  refine ⟨?_, hraw⟩
  cases raw with
  | nil => cases hread
  | cons c raw =>
    simp only [itemOrInnerList, dispatch] at hread
    split_ifs at hread with hc
    · obtain ⟨⟨items', params'⟩, m, hlist, hret⟩ := bind_eq_some.mp hread
      obtain ⟨⟨rfl, rfl⟩, rfl⟩ : (items' = items ∧ params' = params) ∧ m = [] := by
        simpa using pure_eq_some.mp hret
      exact hlist
    · obtain ⟨i, m, -, hret⟩ := bind_eq_some.mp hread
      cases hret

/-- What is kept of a member: an inner list reads off the member's own text. -/
def Member.Faithful (decode : Text → Option Bytes) (m : Member) : Prop :=
  ∀ items params, m.value = .innerList items params →
    innerList decode m.raw = some ((items, params), []) ∧ ∀ c ∈ m.raw, NoLf c

theorem memberValue_faithful {k raw : Text} {value : MemberValue}
    (h : memberValue decode s = some ((value, raw), r)) :
    Member.Faithful decode ⟨k, value, raw⟩ := by
  rintro items params rfl
  obtain ⟨eq, m, -, h⟩ := bind_eq_some.mp h
  cases eq with
  | true => exact spanned_itemOrInnerList h
  | false =>
    -- a member without a value is no inner list
    simp only [Bool.false_eq_true, if_false, spanned] at h
    cases hp : implicitTrue decode m with
    | none => rw [hp] at h; cases h
    | some y =>
      obtain ⟨params', m', -, hret⟩ := bind_eq_some.mp hp
      obtain ⟨a, b⟩ := y
      obtain ⟨rfl, rfl⟩ := Prod.mk.inj (Option.some.inj hret)
      rw [hp] at h
      cases h

/-- **Step lemma**: a turn of the dictionary loop adds one faithful member. -/
theorem dictionaryRound_faithful {members : List Member} {o : List Member ⊕ List Member}
    (hm : ∀ m ∈ members, m.Faithful decode) (h : dictionaryRound decode members s = some (o, r)) :
    ∀ m ∈ o.elim id id, m.Faithful decode := by
  obtain ⟨k, s₁, -, h₁⟩ := bind_eq_some.mp h
  obtain ⟨⟨value, raw⟩, s₂, hvalue, h₂⟩ := bind_eq_some.mp h₁
  have hnew : ∀ m ∈ members ++ [⟨k, value, raw⟩], m.Faithful decode := by
    intro m hmem
    rcases List.mem_append.mp hmem with hmem | hmem
    · exact hm m hmem
    · rw [List.mem_singleton.mp hmem]
      exact memberValue_faithful hvalue
  split_ifs at h₂
  · cases h₂
  · obtain ⟨ows, s₃, -, h₃⟩ := bind_eq_some.mp h₂
    obtain ⟨c, s₄, -, h₄⟩ := bind_eq_some.mp h₃
    split at h₄
    · obtain ⟨rfl, -⟩ := Prod.mk.inj (Option.some.inj h₄)
      exact hnew
    · obtain ⟨ows', s₅, -, h₅⟩ := bind_eq_some.mp h₄
      cases s₅ with
      | nil => cases h₅
      | cons d u =>
        obtain ⟨rfl, -⟩ := Prod.mk.inj (Option.some.inj h₅)
        exact hnew
    · cases h₄

/-- **Run lemma**: every member of a parsed dictionary is faithful. -/
theorem parseDictionary_faithful {input : Text} {members : List Member}
    (h : parseDictionary decode input = some members) : ∀ m ∈ members, m.Faithful decode := by
  unfold parseDictionary at h
  split_ifs at h
  obtain ⟨⟨ms, r⟩, hd, rfl⟩ := Option.map_eq_some_iff.mp h
  obtain ⟨sp, s₁, -, h₁⟩ := bind_eq_some.mp hd
  obtain ⟨rest, s₂, -, h₂⟩ := bind_eq_some.mp h₁
  split_ifs at h₂
  · obtain ⟨rfl, -⟩ := Prod.mk.inj (Option.some.inj h₂)
    simp
  · refine loop_invariant (I := fun ms => ∀ m ∈ ms, Member.Faithful decode m)
      (J := fun ms => ∀ m ∈ ms, Member.Faithful decode m) ?_ ?_ (by simp) h₂
    · intro b s b' r hb hround
      exact dictionaryRound_faithful hb hround
    · intro b s c r hb hround
      exact dictionaryRound_faithful hb hround

/-! ## §2 An attestation is determined by its text -/

/-- **Provenance**: what the fields of an attestation are read from. -/
structure Attests (decode : Text → Option Bytes) (a : Attestation) (items : List Item)
    (params : Params) : Prop where
  list : innerList decode a.rawParams = some ((items, params), [])
  noLf : ∀ c ∈ a.rawParams, NoLf c
  covered : coveredFrom [] items = some a.covered
  first : a.covered.take required.length = required
  params : sigParams params = some ⟨some a.keyid, some a.nonce, some a.created, a.expires⟩

theorem attest_attests {m : Member} (hm : m.Faithful decode) {signature : Text}
    (h : attest decode m signature = some a) : ∃ items params, Attests decode a items params := by
  unfold attest at h
  cases hv : m.value with
  | item i => rw [hv] at h; cases h
  | innerList items params =>
    obtain ⟨hlist, hlf⟩ := hm items params hv
    rw [hv] at h
    obtain ⟨covered, hcov, h₁⟩ := Option.bind_eq_some_iff.mp h
    split_ifs at h₁ with hfirst
    obtain ⟨⟨keyid?, nonce?, created?, expires⟩, hp, h₂⟩ := Option.bind_eq_some_iff.mp h₁
    simp only at h₂
    split at h₂
    · obtain ⟨sig, -, h₃⟩ := Option.bind_eq_some_iff.mp h₂
      obtain rfl := Option.some.inj h₃
      exact ⟨items, params, hlist, hlf, hcov, not_not.mp hfirst, hp⟩
    · cases h₂

theorem parseAttestation_attests {signatureInput signature : Text}
    (h : parseAttestation decode signatureInput signature = some (some a)) :
    ∃ items params, Attests decode a items params := by
  obtain ⟨members, hmembers, h₁⟩ := Option.bind_eq_some_iff.mp h
  split at h₁
  · cases h₁
  · rename_i m htagged
    obtain ⟨a', ha, heq⟩ := Option.map_eq_some_iff.mp h₁
    obtain rfl := Option.some.inj heq
    have hmem : m ∈ members := by
      have : m ∈ members.filter Member.tagged := by rw [htagged]; simp
      exact List.mem_of_mem_filter this
    exact attest_attests (parseDictionary_faithful hmembers m hmem) ha
  · cases h₁

/-- **Determination**: attestations with one text have the same components and parameters. -/
theorem Attests.determined {b : Attestation} {items' : List Item} {params' : Params}
    (ha : Attests decode a items params) (hb : Attests decode b items' params')
    (hraw : a.rawParams = b.rawParams) :
    a.covered = b.covered ∧ a.keyid = b.keyid ∧ a.nonce = b.nonce ∧ a.created = b.created ∧
      a.expires = b.expires := by
  have hlist := ha.list
  rw [hraw, hb.list] at hlist
  obtain ⟨rfl, rfl⟩ := hlist
  have hcov := ha.covered
  rw [hb.covered] at hcov
  have hparams := ha.params
  rw [hb.params] at hparams
  simp only [Option.some.injEq, SigParams.mk.injEq] at hcov hparams
  obtain ⟨hk, hn, hc, he⟩ := hparams
  exact ⟨hcov.symm, hk.symm, hn.symm, hc.symm, he.symm⟩

/-- A field name is made of lower-case letters, digits and hyphens. -/
theorem component_field {i : Item} (h : component i = some (.field name)) :
    ∀ c ∈ name, isFieldChar c = true := by
  unfold component at h
  split_ifs at h
  split at h
  · rename_i s hs
    split_ifs at h with h₁ h₂ h₃ h₄
    · cases h
    · cases h
    obtain rfl := Component.field.inj (Option.some.inj h)
    have hall : s.all isFieldChar = true := by
      by_contra hno
      exact h₄ (Or.inr (by simpa using hno))
    exact List.all_eq_true.mp hall
  · cases h

theorem coveredFrom_field {acc covered : List Component}
    (hacc : ∀ name, .field name ∈ acc → ∀ c ∈ name, isFieldChar c = true)
    (h : coveredFrom acc items = some covered) (hname : .field name ∈ covered) :
    ∀ c ∈ name, isFieldChar c = true := by
  induction items generalizing acc with
  | nil =>
    obtain rfl := Option.some.inj h
    exact hacc name hname
  | cons i items ih =>
    obtain ⟨comp, hcomp, h₁⟩ := Option.bind_eq_some_iff.mp h
    split_ifs at h₁
    refine ih ?_ h₁
    intro n hn
    rcases List.mem_append.mp hn with hn | hn
    · exact hacc n hn
    · rw [← List.mem_singleton.mp hn] at hcomp
      exact component_field hcomp

/-! ## §3 The lines of a base -/

theorem mem_intercalate {sep : Text} {ls : List Text} {c : Char} (h : c ∈ sep.intercalate ls) :
    c ∈ sep ∨ ∃ l ∈ ls, c ∈ l := by
  induction ls with
  | nil => simp at h
  | cons l ls ih =>
    cases ls with
    | nil => exact Or.inr ⟨l, by simp, by simpa using h⟩
    | cons l' ls =>
      rw [List.intercalate_cons_cons] at h
      rcases List.mem_append.mp h with h | h
      · rcases List.mem_append.mp h with h | h
        · exact Or.inr ⟨l, by simp, h⟩
        · exact Or.inl h
      · rcases ih h with h | ⟨l'', hl, hc⟩
        · exact Or.inl h
        · exact Or.inr ⟨l'', List.mem_cons_of_mem _ hl, hc⟩

theorem fieldValue_noLf {v : Text} (h : fieldValue headers name = some v) :
    ∀ c ∈ v, NoLf c := by
  obtain ⟨values, hvalues, h₁⟩ := Option.bind_eq_some_iff.mp h
  split_ifs at h₁
  obtain rfl := Option.some.inj h₁
  rintro c hc rfl
  rcases mem_intercalate hc with hc | ⟨l, hl, hc⟩
  · revert hc; decide
  · obtain ⟨s, hs, rfl⟩ := List.mem_map.mp hl
    have hcs : '\n' ∈ s :=
      (List.dropWhile_sublist _).subset ((List.rdropWhile_prefix _ _).subset hc)
    -- each instance was read as visible text
    obtain ⟨v, -, hread⟩ := mem_of_mapM hvalues hs
    rcases HeaderValue.toStr?_visible hread _ hcs with hlf | hlf
    · exact absurd hlf.1 (by decide)
    · exact absurd hlf (by decide)

theorem noLf_line {value : Text} (hn : ∀ c ∈ name, NoLf c) (hv : ∀ c ∈ value, NoLf c) :
    ∀ c ∈ line name value, NoLf c := by
  intro c hc
  simp only [line, List.mem_cons, List.mem_append] at hc
  rcases hc with rfl | hc | rfl | rfl | rfl | hc
  · unfold NoLf; decide
  · exact hn c hc
  · unfold NoLf; decide
  · unfold NoLf; decide
  · unfold NoLf; decide
  · exact hv c hc

theorem line_injective (name : Text) : Function.Injective (line name) := by
  intro v w h
  simpa [line] using h

theorem noLf_toUpper (h : '\n' ∉ s) : ∀ c ∈ s.map Char.toUpper, NoLf c := by
  intro c hc heq
  obtain ⟨d, hd, hupper⟩ := List.mem_map.mp hc
  rw [heq] at hupper
  unfold Char.toUpper at hupper
  split_ifs at hupper with hlower
  · -- an upper-cased letter is a letter
    have hval : (d.val + ('A'.val - 'a'.val)).toNat = 10 :=
      congrArg (fun c => c.val.toNat) hupper
    have hge : 97 ≤ d.val.toNat := hlower.1
    have hle : d.val.toNat ≤ 122 := hlower.2
    have hdiff : ('A'.val - 'a'.val).toNat = 4294967264 := rfl
    rw [UInt32.toNat_add] at hval
    omega
  · exact h (hupper ▸ hd)

theorem noLf_of_all (h : s.all (· != '\n') = true) : ∀ c ∈ s, NoLf c := by
  intro c hc
  exact bne_iff_ne.mp (List.all_eq_true.mp h c hc)

/-- The lines of the covered components hold no line feed. -/
theorem componentLine_noLf {method targetUri l : Text} {comp : Component} (hmethod : '\n' ∉ method)
    (huri : '\n' ∉ targetUri)
    (hname : ∀ name, comp = .field name → ∀ c ∈ name, isFieldChar c = true)
    (h : componentLine method targetUri headers comp = some l) : ∀ c ∈ l, NoLf c := by
  cases comp with
  | method =>
    obtain rfl := Option.some.inj h
    exact noLf_line (noLf_of_all rfl) (noLf_toUpper hmethod)
  | targetUri =>
    obtain rfl := Option.some.inj h
    refine noLf_line (noLf_of_all rfl) ?_
    rintro c hc rfl
    exact huri hc
  | field name =>
    obtain ⟨v, hv, rfl⟩ := Option.map_eq_some_iff.mp h
    refine noLf_line ?_ (fieldValue_noLf hv)
    intro c hc
    exact noLf_of_class rfl c (hname name rfl c hc)

/-- **Decoding a base**: the text determines its lines. -/
theorem signatureBase_lines (ha : Attests decode a items params) {method targetUri b : Text}
    (hmethod : '\n' ∉ method) (huri : '\n' ∉ targetUri)
    (h : signatureBase a method targetUri headers = some b) :
    ∃ lines, a.covered.mapM (componentLine method targetUri headers) = some lines ∧
      b.splitOn '\n' = lines ++ [line "@signature-params".toList a.rawParams] := by
  obtain ⟨lines, hlines, h₁⟩ := Option.bind_eq_some_iff.mp h
  obtain rfl := Option.some.inj h₁
  refine ⟨lines, hlines, List.splitOn_intercalate _ ?_ (by simp)⟩
  intro l hl hlf
  rcases List.mem_append.mp hl with hl | hl
  · obtain ⟨comp, hcomp, hline⟩ := mem_of_mapM hlines hl
    refine componentLine_noLf hmethod huri ?_ hline _ hlf rfl
    rintro name rfl
    exact coveredFrom_field (by simp) ha.covered hcomp
  · rw [List.mem_singleton.mp hl] at hlf
    exact noLf_line (noLf_of_all rfl) ha.noLf _ hlf rfl

/-! ## §4 Unambiguity -/

/-- **Unambiguity**: requests with one signature base have the same method, target and
covered fields, and attestations with the same components and parameters. -/
theorem signatureBase_unambiguous {a₁ a₂ : Attestation} {input₁ input₂ sig₁ sig₂ : Text}
    (hp₁ : parseAttestation decode input₁ sig₁ = some (some a₁))
    (hp₂ : parseAttestation decode input₂ sig₂ = some (some a₂))
    {method₁ method₂ uri₁ uri₂ : Text} {headers₁ headers₂ : FieldMap}
    (hm₁ : '\n' ∉ method₁) (hm₂ : '\n' ∉ method₂) (hu₁ : '\n' ∉ uri₁) (hu₂ : '\n' ∉ uri₂)
    {b : Text} (hb₁ : signatureBase a₁ method₁ uri₁ headers₁ = some b)
    (hb₂ : signatureBase a₂ method₂ uri₂ headers₂ = some b) :
    method₁.map Char.toUpper = method₂.map Char.toUpper ∧ uri₁ = uri₂ ∧
      a₁.covered = a₂.covered ∧
      (∀ name, .field name ∈ a₁.covered → fieldValue headers₁ name = fieldValue headers₂ name) ∧
      fieldValue headers₁ "authorization".toList = fieldValue headers₂ "authorization".toList ∧
      a₁.keyid = a₂.keyid ∧ a₁.nonce = a₂.nonce ∧ a₁.created = a₂.created ∧
      a₁.expires = a₂.expires := by
  obtain ⟨items₁, params₁, ha₁⟩ := parseAttestation_attests hp₁
  obtain ⟨items₂, params₂, ha₂⟩ := parseAttestation_attests hp₂
  obtain ⟨lines₁, hl₁, hsplit₁⟩ := signatureBase_lines ha₁ hm₁ hu₁ hb₁
  obtain ⟨lines₂, hl₂, hsplit₂⟩ := signatureBase_lines ha₂ hm₂ hu₂ hb₂
  obtain ⟨rfl, hlast⟩ := List.append_inj' (hsplit₁.symm.trans hsplit₂) rfl
  -- the last line fixes the attestation
  have hraw : a₁.rawParams = a₂.rawParams := line_injective _ (List.singleton_inj.mp hlast)
  obtain ⟨hcov, hk, hn, hc, he⟩ := ha₁.determined ha₂ hraw
  -- the other lines fix what it covers
  rw [← hcov] at hl₂
  have hsame := eq_of_mapM hl₁ hl₂
  have hreq : ∀ comp ∈ required, comp ∈ a₁.covered := by
    intro comp hcomp
    rw [← ha₁.first] at hcomp
    exact List.mem_of_mem_take hcomp
  have hmethod := hsame .method (hreq _ (by simp [required]))
  have huri := hsame .targetUri (hreq _ (by simp [required]))
  have hfield : ∀ name, .field name ∈ a₁.covered →
      fieldValue headers₁ name = fieldValue headers₂ name := by
    intro name hname
    exact Option.map_injective (line_injective name) (hsame _ hname)
  exact ⟨line_injective _ (Option.some.inj hmethod), line_injective _ (Option.some.inj huri), hcov,
    hfield, hfield _ (hreq _ (by simp [required])), hk, hn, hc, he⟩

/-- The parameters of a small attestation, as a client sends them. -/
def sampleParams : Text :=
  ("(\"@method\" \"@target-uri\" \"authorization\");created=1720000000;keyid=\"s1\";" ++
    "alg=\"hmac-sha256\";nonce=\"7\";tag=\"dpop-sk\"").toList

def sampleAttestation (label : Text) : Attestation :=
  ⟨label, "s1".toList, 7, 1720000000, none, required, sampleParams, List.replicate tagLen 0⟩

/-- A `DPoP` credential, sent with some blanks after it. -/
def sampleFields (blanks : Text) : FieldMap :=
  ((HeaderValue.fromStr? ("DPoP at1".toList ++ blanks)).map fun v =>
    [("authorization".toList, v)]).getD []

/-- Requests that differ in the label, the case of the method and the blanks around the
credential have one base. -/
theorem signatureBase_unambiguous_labels :
    let decode : Text → Option Bytes := fun _ => some (List.replicate tagLen 0)
    let base := fun (label method blanks : Text) =>
      signatureBase (sampleAttestation label) method "https://p.example/d".toList
        (sampleFields blanks)
    (∀ label ∈ ["a".toList, "b".toList],
      parseAttestation decode (label ++ '=' :: sampleParams) (label ++ "=:AA==:".toList) =
        some (some (sampleAttestation label))) ∧
      (base "a".toList "GET".toList [] = base "b".toList "get".toList [' '] ∧
        base "a".toList "GET".toList [] ≠ none) ∧
      fieldValue (sampleFields []) "authorization".toList =
        fieldValue (sampleFields [' ']) "authorization".toList := by
  intro decode base
  have hparse : ∀ label ∈ ["a".toList, "b".toList],
      parseAttestation decode (label ++ '=' :: sampleParams) (label ++ "=:AA==:".toList) =
        some (some (sampleAttestation label)) := by
    decide +kernel
  have hbase : base "a".toList "GET".toList [] = base "b".toList "get".toList [' '] ∧
      base "a".toList "GET".toList [] ≠ none := by
    decide +kernel
  obtain ⟨b, hb⟩ := Option.ne_none_iff_exists'.mp hbase.2
  have hsame := signatureBase_unambiguous (hparse _ (by simp)) (hparse "b".toList (by simp))
    (by decide) (by decide) (by decide) (by decide) hb (hbase.1.symm.trans hb)
  exact ⟨hparse, hbase, hsame.2.2.2.2.1⟩

end SolidServer.Sig
