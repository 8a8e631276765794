import SolidServer.Pop.Spans
import SolidServer.Pop.Verify

/-!
# The session-key profile is not escaped

Whether a request is under the profile is first decided by a substring test on each
`Signature-Input` line, then by a parse of the joined lines.  The test is coarse in one
direction only: a tag that the parse finds stands literally in one of the lines.

## Outwards from the tag

* a string without escapes stands as it is in the text it was read from;
* so does a parameter's value in the text of its list, and that in the field;
* the field is the lines with `, ` between them, and the tag has neither character.
-/

namespace SolidServer.Sig

open SolidServer.Parser

/-! ## §1 Texts inside texts -/

variable {t : Text}

theorem prefix_of_append_cons {a b : Text} {c : Char} (hc : c ∉ t) (h : t <+: a ++ c :: b) :
    t <+: a := by
  induction a generalizing t with
  | nil =>
    cases t with
    | nil => exact List.nil_prefix
    | cons d t =>
      obtain ⟨rfl, -⟩ := List.cons_prefix_cons.mp h
      exact absurd List.mem_cons_self hc
  | cons d a ih =>
    cases t with
    | nil => exact List.nil_prefix
    | cons e t =>
      obtain ⟨rfl, hrest⟩ := List.cons_prefix_cons.mp h
      have hc' : c ∉ t := fun hmem => hc (List.mem_cons_of_mem _ hmem)
      exact List.cons_prefix_cons.mpr ⟨rfl, ih hc' hrest⟩

/-- A text without the separating character stands on one side of it. -/
theorem infix_of_append_cons {a b : Text} {c : Char} (hc : c ∉ t) (h : t <:+: a ++ c :: b) :
    t <:+: a ∨ t <:+: b := by
  induction a with
  | nil =>
    rcases List.infix_cons_iff.mp h with h | h
    · exact .inl (prefix_of_append_cons (a := []) hc h).isInfix
    · exact .inr h
  | cons d a ih =>
    rcases List.infix_cons_iff.mp h with h | h
    · exact .inl (prefix_of_append_cons (a := d :: a) hc h).isInfix
    · rcases ih h with h | h
      · exact .inl (List.infix_cons h)
      · exact .inr h

/-- **Lines**: a text without comma and blank stands in one of the joined lines. -/
theorem infix_of_joined (hne : t ≠ []) (hcomma : ',' ∉ t) (hblank : ' ' ∉ t) {parts : List Text}
    (h : t <:+: ", ".toList.intercalate parts) : ∃ p ∈ parts, t <:+: p := by
  induction parts with
  | nil => exact absurd (List.infix_nil.mp h) hne
  | cons p parts ih =>
    cases parts with
    | nil => exact ⟨p, by simp, by simpa [List.intercalate] using h⟩
    | cons p' parts =>
      rcases infix_of_append_cons hcomma h with h | h
      · exact ⟨p, by simp, h⟩
      · rcases infix_of_append_cons (a := []) hblank h with h | h
        · exact absurd (List.infix_nil.mp h) hne
        · obtain ⟨q, hq, htq⟩ := ih h
          exact ⟨q, List.mem_cons_of_mem _ hq, htq⟩

/-! ## §2 Values inside the text they are read from -/

/-- A string that needs no escape. -/
def Plain (t : Text) : Prop := '"' ∉ t ∧ '\\' ∉ t

theorem stringTail_plain {s r : Text} (h : stringTail s = some (t, r)) (ht : Plain t) :
    t <+: s := by
  induction s using stringTail.induct generalizing t with
  | case1 rest =>
    obtain ⟨rfl, -⟩ := Prod.mk.inj (Option.some.inj h)
    exact List.nil_prefix
  | case2 c rest hc ih =>
    -- an escape gives one of the two characters that are excluded
    rw [stringTail, if_pos hc] at h
    obtain ⟨y, -, heq⟩ := Option.map_eq_some_iff.mp h
    obtain ⟨rfl, -⟩ := Prod.mk.inj heq
    rcases hc with rfl | rfl
    · exact absurd List.mem_cons_self ht.1
    · exact absurd List.mem_cons_self ht.2
  | case3 c rest hc =>
    rw [stringTail, if_neg hc] at h
    cases h
  | case4 c rest hquote hslash hc ih =>
    rw [stringTail.eq_3 _ _ hquote hslash, if_pos hc] at h
    obtain ⟨⟨u, r'⟩, hrest, heq⟩ := Option.map_eq_some_iff.mp h
    obtain ⟨rfl, rfl⟩ := Prod.mk.inj heq
    have hu : Plain u := ⟨fun hmem => ht.1 (List.mem_cons_of_mem _ hmem),
      fun hmem => ht.2 (List.mem_cons_of_mem _ hmem)⟩
    exact List.cons_prefix_cons.mpr ⟨rfl, ih hrest hu⟩
  | case5 c rest hquote hslash hc =>
    rw [stringTail.eq_3 _ _ hquote hslash, if_neg hc] at h
    cases h
  | case6 => cases h

/-- A parser whose string values stand in the text they are read from. -/
def Literal (p : Parser Bare) : Prop :=
  ∀ ⦃s t r : Text⦄, p s = some (.string t, r) → Plain t → t <:+: s

theorem literal_string : Literal string := by
  intro s t r h ht
  obtain ⟨c, s₁, hc, h⟩ := bind_eq_some.mp h
  obtain ⟨u, s₂, hu, h⟩ := bind_eq_some.mp h
  obtain ⟨heq, -⟩ := Prod.mk.inj (Option.some.inj h)
  obtain rfl := Bare.string.inj heq
  cases s with
  | nil => cases hc
  | cons d s =>
    simp only [next] at hc
    split_ifs at hc
    obtain ⟨-, rfl⟩ := Prod.mk.inj (Option.some.inj hc)
    exact List.infix_cons (stringTail_plain hu ht).isInfix

theorem number_ne_string (s t r : Text) : number s ≠ some (.string t, r) := by
  intro h
  obtain ⟨negative, s₁, -, h⟩ := bind_eq_some.mp h
  obtain ⟨int, s₂, -, h⟩ := bind_eq_some.mp h
  by_cases hint : int = []
  · rw [if_pos hint] at h
    cases h
  rw [if_neg hint] at h
  obtain ⟨point, s₃, -, h⟩ := bind_eq_some.mp h
  cases point with
  | true =>
    by_cases hlong : int.length > 12
    · rw [if_pos hlong] at h
      cases h
    · rw [if_neg hlong] at h
      obtain ⟨frac, s₄, -, h⟩ := bind_eq_some.mp h
      split_ifs at h <;> cases h
  | false =>
    rw [if_neg Bool.false_ne_true] at h
    split_ifs at h <;> cases h

theorem token_ne_string (s t r : Text) : token s ≠ some (.string t, r) := by
  intro h
  obtain ⟨c, s₁, -, h⟩ := bind_eq_some.mp h
  obtain ⟨rest, s₂, -, h⟩ := bind_eq_some.mp h
  cases h

theorem boolean_ne_string (s t r : Text) : boolean s ≠ some (.string t, r) := by
  intro h
  obtain ⟨c, s₁, -, h⟩ := bind_eq_some.mp h
  obtain ⟨d, s₂, -, h⟩ := bind_eq_some.mp h
  cases h

section
variable {decode : Text → Option Bytes}

theorem byteSequence_ne_string (s t r : Text) :
    byteSequence decode s ≠ some (.string t, r) := by
  intro h
  obtain ⟨c, s₁, -, h⟩ := bind_eq_some.mp h
  obtain ⟨b64, s₂, -, h⟩ := bind_eq_some.mp h
  obtain ⟨d, s₃, -, h⟩ := bind_eq_some.mp h
  cases hb : decode b64 with
  | none =>
    rw [hb] at h
    cases h
  | some b =>
    rw [hb] at h
    cases h

/-- A string among the bare items was read as a string. -/
theorem literal_bareItem : Literal (bareItem decode) := by
  intro s t r h ht
  cases s with
  | nil => cases h
  | cons c s =>
    simp only [bareItem, dispatch] at h
    split_ifs at h
    · exact absurd h (number_ne_string _ t r)
    · exact literal_string h ht
    · exact absurd h (byteSequence_ne_string _ t r)
    · exact absurd h (boolean_ne_string _ t r)
    · exact absurd h (token_ne_string _ t r)
    · cases h

variable {s r : Text} {params : Params}

theorem suffix_of_local {α : Type} {q : Char → Prop} {p : Parser α} (hp : Local q p) {a : α}
    (h : p s = some (a, r)) : r <:+ s := by
  obtain ⟨x, rfl, -, -⟩ := hp.exists_front h
  exact List.suffix_append x r

/-- The string values of a list of parameters. -/
def Quotes (params : Params) (s : Text) : Prop :=
  ∀ k t, (k, Bare.string t) ∈ params → Plain t → t <:+: s

theorem Quotes.mono {s' : Text} (h : Quotes params s) (hs : s <:+ s') :
    Quotes params s' := fun k t hmem ht => (h k t hmem ht).trans hs.isInfix

/-- **One turn**: a new parameter's value stands in the text of the turn. -/
theorem parametersRound_quotes {x : Params ⊕ Params}
    (h : parametersRound decode params s = some (x, r)) {k t : Text}
    (hmem : (k, Bare.string t) ∈ x.elim id id) (ht : Plain t) :
    (k, Bare.string t) ∈ params ∨ t <:+: s := by
  obtain ⟨more, s₁, hmore, h⟩ := bind_eq_some.mp h
  cases more with
  | false =>
    obtain ⟨rfl, -⟩ := Prod.mk.inj (Option.some.inj h)
    exact .inl hmem
  | true =>
    obtain ⟨sp, s₂, hsp, h⟩ := bind_eq_some.mp h
    obtain ⟨k', s₃, hk, h⟩ := bind_eq_some.mp h
    obtain ⟨value, s₄, hvalue, h⟩ := bind_eq_some.mp h
    split_ifs at h
    · cases h
    obtain ⟨rfl, -⟩ := Prod.mk.inj (Option.some.inj h)
    rcases List.mem_append.mp hmem with hmem | hmem
    · exact .inl hmem
    obtain ⟨-, rfl⟩ := Prod.mk.inj (List.mem_singleton.mp hmem)
    -- the value was read off a later part of the text
    have hs₃ : s₃ <:+ s :=
      ((suffix_of_local local_key hk).trans (suffix_of_local local_skipSp hsp)).trans
        (suffix_of_local (Local.eat (q := NoLf) (by unfold NoLf; decide)) hmore)
    obtain ⟨eq, s₅, heq, hbare⟩ := bind_eq_some.mp hvalue
    have hs₅ : s₅ <:+ s :=
      (suffix_of_local (Local.eat (q := NoLf) (by unfold NoLf; decide)) heq).trans hs₃
    cases eq with
    | true => exact .inr ((literal_bareItem hbare ht).trans hs₅.isInfix)
    | false => cases hbare

/-- **The loop**: the values of the parameters stand in the text of the list. -/
theorem parameters_quotes (h : parameters decode s = some (params, r)) : Quotes params s := by
  have hloop : ∀ (n : Nat) (acc : Params) (s r : Text) (params : Params),
      loop (parametersRound decode) n acc s = some (params, r) → ∀ k t,
      (k, Bare.string t) ∈ params → Plain t → (k, Bare.string t) ∈ acc ∨ t <:+: s := by
    intro n
    induction n with
    | zero =>
      intro acc s r params h
      cases h
    | succ n ih =>
      intro acc s r params h k t hmem ht
      obtain ⟨x, s₁, hround, hrest⟩ := bind_eq_some.mp h
      cases x with
      | inr ps =>
        obtain ⟨rfl, rfl⟩ := Prod.mk.inj (Option.some.inj hrest)
        exact parametersRound_quotes hround hmem ht
      | inl acc' =>
        rcases ih acc' s₁ r params hrest k t hmem ht with hacc | hlater
        · exact parametersRound_quotes hround hacc ht
        · exact .inr (hlater.trans (suffix_of_local (local_parametersRound acc) hround).isInfix)
  intro k t hmem ht
  rcases hloop _ [] s r params h k t hmem ht with hnil | hin
  · cases hnil
  · exact hin

theorem item_quotes {i : Item} (h : item decode s = some (i, r)) :
    Quotes i.params s := by
  obtain ⟨bare, s₁, hbare, h⟩ := bind_eq_some.mp h
  obtain ⟨params, s₂, hparams, h⟩ := bind_eq_some.mp h
  obtain ⟨rfl, -⟩ := Prod.mk.inj (Option.some.inj h)
  exact (parameters_quotes hparams).mono (suffix_of_local local_bareItem hbare)

theorem innerList_quotes {items : List Item} (h : innerList decode s = some ((items, params), r)) :
    Quotes params s := by
  have hloop : ∀ (n : Nat) (acc : List Item) (s : Text),
      loop (innerListRound decode) n acc s = some ((items, params), r) → Quotes params s := by
    intro n
    induction n with
    | zero =>
      intro acc s h
      cases h
    | succ n ih =>
      intro acc s h
      obtain ⟨x, s₁, hround, hrest⟩ := bind_eq_some.mp h
      cases x with
      | inl acc' =>
        obtain ⟨i, ho, -, -⟩ := innerListRound_inl.mp hround
        exact (ih acc' s₁ hrest).mono (suffix_of_local local_itemOrClose ho)
      | inr l =>
        obtain ⟨rfl, rfl⟩ := Prod.mk.inj (Option.some.inj hrest)
        obtain ⟨hlast, -⟩ := innerListRound_inr.mp hround
        obtain ⟨o, s₂, ho, hparams⟩ := bind_eq_some.mp hlast
        cases o with
        | some i => cases hparams
        | none => exact (parameters_quotes hparams).mono (suffix_of_local local_itemOrClose ho)
  obtain ⟨c, s₁, hc, h⟩ := bind_eq_some.mp h
  exact (hloop _ [] s₁ h).mono
    (suffix_of_local (Local.next (q := NoLf) (noLf_of_class rfl)) hc)

theorem itemOrInnerList_quotes {value : MemberValue}
    (h : itemOrInnerList decode s = some (value, r)) : Quotes value.params s := by
  cases s with
  | nil => cases h
  | cons c s =>
    simp only [itemOrInnerList, dispatch] at h
    split_ifs at h
    · obtain ⟨⟨items, params⟩, s₁, hlist, h⟩ := bind_eq_some.mp h
      obtain ⟨rfl, -⟩ := Prod.mk.inj (Option.some.inj h)
      exact innerList_quotes hlist
    · obtain ⟨i, s₁, hi, h⟩ := bind_eq_some.mp h
      obtain ⟨rfl, -⟩ := Prod.mk.inj (Option.some.inj h)
      exact item_quotes hi

theorem implicitTrue_quotes {value : MemberValue} (h : implicitTrue decode s = some (value, r)) :
    Quotes value.params s := by
  obtain ⟨params, s₁, hparams, h⟩ := bind_eq_some.mp h
  obtain ⟨rfl, -⟩ := Prod.mk.inj (Option.some.inj h)
  exact parameters_quotes hparams

theorem Member.Spans.quotes {m : Member} {rest : Text} (h : m.Spans decode s rest) :
    Quotes m.value.params s := by
  cases h with
  | valued place read =>
    refine (itemOrInnerList_quotes read).mono ?_
    rw [place]
    exact (List.suffix_cons _ _).trans (List.suffix_append _ _)
  | implicit place _ read =>
    refine (implicitTrue_quotes read).mono ?_
    rw [place]
    exact List.suffix_append _ _

theorem Layout.quotes {members : List Member} (h : Layout decode s members) :
    ∀ m ∈ members, Quotes m.value.params s := by
  induction h with
  | last member ows =>
    intro m hm
    obtain rfl := List.mem_singleton.mp hm
    exact member.quotes
  | @cons m ms s blank blank' rest member ows ows' more ih =>
    intro m' hm'
    rcases List.mem_cons.mp hm' with rfl | hm'
    · exact member.quotes
    · have htail : rest <:+ s := by
        have hrest : rest <:+ blank ++ ',' :: (blank' ++ rest) :=
          ((List.suffix_append _ _).trans (List.suffix_cons _ _)).trans (List.suffix_append _ _)
        cases member with
        | valued place _ =>
          rw [place]
          exact ((hrest.trans (List.suffix_append _ _)).trans (List.suffix_cons _ _)).trans
            (List.suffix_append _ _)
        | implicit place _ _ =>
          rw [place]
          exact (hrest.trans (List.suffix_append _ _)).trans (List.suffix_append _ _)
      exact (ih m' hm').mono htail

/-- **The field**: a tagged member shows the tag. -/
theorem mentions_of_tagged {input : Text} {members : List Member}
    (h : parseDictionary decode input = some members) {m : Member} (hm : m ∈ members)
    (htagged : m.tagged = true) : tag <:+: input := by
  obtain ⟨blank, rest, rfl, -, ⟨-, rfl⟩ | hlayout⟩ := parseDictionary_layout h
  · cases hm
  · have hmem : ("tag".toList, Bare.string tag) ∈ m.value.params := by
      obtain ⟨kv, hkv, heq⟩ := List.any_eq_true.mp htagged
      rw [← of_decide_eq_true heq]
      exact hkv
    have hplain : Plain tag := ⟨by decide, by decide⟩
    exact (hlayout.quotes m hm _ tag hmem hplain).trans (List.suffix_append _ _).isInfix

end

end SolidServer.Sig

/-! ## §3 Routing -/

namespace SolidServer.Sk

open SolidServer.Effects SolidServer.Sig

variable (c : Crypto) (window : Int) (r : SkRequest)

/-- A line that can be read shows its text to the substring test. -/
theorem mentions_of_toStr {v : HeaderValue} {line : Text} (h : v.toStr? = some line)
    (htag : tag <:+: line) : mentionsDpopSk (Text.ofUtf8Lossy v.bytes) = true := by
  unfold HeaderValue.toStr? at h
  split_ifs at h with hall
  obtain rfl := Option.some.inj h
  have hascii : ∀ b ∈ v.bytes, b.toNat < 128 := by
    intro b hb
    have hvisible := List.all_eq_true.mp hall b hb
    simp only [isVisibleAscii, Bool.or_eq_true, Bool.and_eq_true, decide_eq_true_eq,
      beq_iff_eq] at hvisible
    omega
  rw [Text.ofUtf8Lossy_ascii hascii]
  exact Text.contains_iff.mpr htag

/-- **Routing**: a request whose joined lines carry the tag is not sent on. -/
theorem attestation_ne_notApplicable {sigInput : Text} {members : List Member}
    (hjoin : joinField (r.headers.getAll "signature-input".toList) = some sigInput)
    (hparse : parseDictionary c.decode sigInput = some members) {m : Member} (hm : m ∈ members)
    (htagged : m.tagged = true) : r.attestation c ≠ .error .notApplicable := by
  have hmention : ∃ v ∈ r.headers.getAll "signature-input".toList,
      mentionsDpopSk (Text.ofUtf8Lossy v.bytes) = true := by
    obtain ⟨parts, hparts, hintercalate⟩ := Option.bind_eq_some_iff.mp hjoin
    obtain rfl := Option.some.inj hintercalate
    obtain ⟨line, hline, htag⟩ := infix_of_joined (by decide) (by decide) (by decide)
      (mentions_of_tagged hparse hm htagged)
    obtain ⟨v, hv, hread⟩ := mem_of_mapM hparts hline
    exact ⟨v, hv, mentions_of_toStr hread htag⟩
  obtain ⟨v, hv, hmentions⟩ := hmention
  have hne : r.headers.getAll "signature-input".toList ≠ [] := List.ne_nil_of_mem hv
  have hany : (r.headers.getAll "signature-input".toList).any
      (fun v => mentionsDpopSk (Text.ofUtf8Lossy v.bytes)) = true :=
    List.any_eq_true.mpr ⟨v, hv, hmentions⟩
  have hfilter : members.filter Member.tagged ≠ [] :=
    List.ne_nil_of_mem (List.mem_filter.mpr ⟨hm, htagged⟩)
  simp only [SkRequest.attestation, if_neg hne, hany, hjoin]
  cases hsig : joinField (r.headers.getAll "signature".toList) with
  | none => rintro ⟨⟩
  | some signature =>
    have hattestation : parseAttestation c.decode sigInput signature ≠ some none := by
      unfold parseAttestation
      rw [hparse]
      simp only [Option.bind_eq_bind, Option.bind_some]
      split
      · contradiction
      · rintro h
        obtain ⟨a, -, heq⟩ := Option.map_eq_some_iff.mp h
        cases heq
      · rintro ⟨⟩
    simp only
    cases hp : parseAttestation c.decode sigInput signature with
    | none => rintro ⟨⟩
    | some o =>
      cases o with
      | none => exact absurd hp hattestation
      | some a => rintro ⟨⟩

/-- With an attestation the answer is a verdict. -/
theorem returns_verdict {a : Attestation} (h : r.attestation c = .ok a) :
    (verifyAttestedRequest c window r).Returns (· ≠ .notApplicable) := by
  unfold verifyAttestedRequest
  rw [h]
  refine Program.Returns.bind fun found => ?_
  cases found with
  | none => exact Program.Returns.pure (by rintro ⟨⟩)
  | some h =>
    simp only
    split_ifs
    · exact Program.Returns.pure (by rintro ⟨⟩)
    · exact Program.Returns.pure (by rintro ⟨⟩)
    · exact Program.Returns.pure (by rintro ⟨⟩)
    · exact Program.Returns.pure (by rintro ⟨⟩)
    · refine Program.Returns.bind fun verdict => ?_
      cases verdict <;> exact Program.Returns.pure (by rintro ⟨⟩)

/-- **No tagged request escapes the profile**: whatever the session store answers, a request
whose joined `Signature-Input` lines parse with a tagged member gets a verdict; one without
such a line is left to the other layers. -/
theorem tagged_never_notApplicable :
    (∀ sigInput members,
      joinField (r.headers.getAll "signature-input".toList) = some sigInput →
      parseDictionary c.decode sigInput = some members →
      (∃ m ∈ members, ("tag".toList, Bare.string "dpop-sk".toList) ∈ m.value.params) →
      (verifyAttestedRequest c window r).Returns (· ≠ .notApplicable)) ∧
    (r.headers.containsKey "signature-input".toList = false →
      verifyAttestedRequest c window r = pure .notApplicable) := by
  constructor
  · rintro sigInput members hjoin hparse ⟨m, hm, hparam⟩
    have htagged : m.tagged = true := List.any_eq_true.mpr ⟨_, hparam, decide_eq_true rfl⟩
    have hroute := attestation_ne_notApplicable c r hjoin hparse hm htagged
    cases hattestation : r.attestation c with
    | ok a => exact returns_verdict c window r hattestation
    | error d =>
      unfold verifyAttestedRequest
      rw [hattestation] at hroute ⊢
      exact Program.Returns.pure fun hd => hroute (by rw [hd])
  · intro hnone
    have hempty := FieldMap.getAll_eq_nil hnone
    have hroute : r.attestation c = .error .notApplicable := by
      simp only [SkRequest.attestation, hempty, if_true]
    unfold verifyAttestedRequest
    rw [hroute]

end SolidServer.Sk
