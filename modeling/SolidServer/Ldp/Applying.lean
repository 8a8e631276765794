import SolidServer.Ldp.Solutions
import SolidServer.Store.Seed

/-!
# Applying a patch

What the parsers guarantee of an accepted patch (`ReadyPatch`): its templates hold no
existentials, and every variable in them occurs in the conditions.  With that, a patch
applies exactly when its conditions select one mapping, the templates denote triples
under it and the triples to delete are there (`applyPatch_selects`); the two errors for
templates that cannot be resolved never come up.

The number of solutions counts existentials too.  `conditions_refused_iff` compares it
with the number of mappings of the named variables.
-/

namespace SolidServer.Ldp

open SolidServer.Query

/-! ## §1 Accepted patches -/

/-- The N3 parser hands over variables whose names hold no space. -/
def PlainN3 (codec : RdfCodec) : Prop :=
  ∀ base body quads, codec.parseN3 base body = .ok quads → ∀ q ∈ quads, ∀ v,
    N3Term.variable v ∈ [q.subject, q.predicate, q.object] → ' ' ∉ v

/-- A template holds concrete terms and variables only. -/
def Template (ps : List PatTriple) : Prop := ∀ p ∈ ps, ∀ x ∈ p.terms, ∀ l, x ≠ .whereBlank l

/-- What holds of every patch the parsers accept. -/
structure ReadyPatch (patch : N3Patch) : Prop where
  plain : PlainVars patch.conditions
  template : Template (patch.deletes ++ patch.inserts)
  bound : ∀ p ∈ patch.deletes ++ patch.inserts, ∀ v ∈ patTripleVars p,
    ∃ q ∈ patch.conditions, v ∈ patTripleVars q

variable {kind : FormulaKind} {x : PatTerm} {p : PatTriple} {ε α β : Type} {f : α → Except ε β}
  {as : List α} {ps : List PatTriple} {codec : RdfCodec} {body : Bytes} {baseIri : Iri}
  {patch : N3Patch} {existing : List Triple} {b : Binding} {μ : Mapping} {t : Term}

/-- What a pattern term of a formula is made from. -/
theorem patTerm_ok {t : N3Term} {pos : Position} (h : patTerm t kind pos = .ok x) :
    (∃ c, x = .term c) ∨ (∃ v, t = .variable v ∧ x = .var v) ∨
      ∃ l, kind = .where_ ∧ x = .whereBlank l := by
  cases t with
  | namedNode n => exact .inl ⟨.namedNode n, (Except.ok.inj h).symm⟩
  | literal l =>
    cases pos with
    | object => exact .inl ⟨.literal l, (Except.ok.inj h).symm⟩
    | subject => cases h
    | predicate => cases h
  | blankNode b =>
    cases kind with
    | template => cases h
    | where_ =>
      cases pos with
      | predicate => cases h
      | subject => exact .inr (.inr ⟨b, rfl, (Except.ok.inj h).symm⟩)
      | object => exact .inr (.inr ⟨b, rfl, (Except.ok.inj h).symm⟩)
  | «variable» v => exact .inr (.inl ⟨v, rfl, (Except.ok.inj h).symm⟩)

/-- Each term of a pattern comes from a term of the quad in the same position. -/
theorem patTriple_ok {q : N3Quad} (h : patTriple kind q = .ok p) (hx : x ∈ p.terms) :
    ∃ t ∈ [q.subject, q.predicate, q.object], ∃ pos, patTerm t kind pos = .ok x := by
  unfold patTriple at h
  cases hs : patTerm q.subject kind .subject with
  | error e => simp [hs, bind, Except.bind] at h
  | ok s =>
    cases hp : patTerm q.predicate kind .predicate with
    | error e => simp [hs, hp, bind, Except.bind] at h
    | ok p' =>
      cases ho : patTerm q.object kind .object with
      | error e => simp [hs, hp, ho, bind, Except.bind] at h
      | ok o =>
        simp only [hs, hp, ho] at h
        obtain rfl := Except.ok.inj h
        simp only [PatTriple.terms, List.mem_cons, List.not_mem_nil, or_false] at hx
        rcases hx with rfl | rfl | rfl
        · exact ⟨q.subject, by simp, .subject, hs⟩
        · exact ⟨q.predicate, by simp, .predicate, hp⟩
        · exact ⟨q.object, by simp, .object, ho⟩

theorem bind_ok {x : Except ε α} {b : β} (h : (x >>= f) = .ok b) :
    ∃ a, x = .ok a ∧ f a = .ok b := by
  cases x with
  | error e => cases h
  | ok a => exact ⟨a, rfl, h⟩

theorem bind_error {x : Except ε α} {e : ε} (h : (x >>= f) = .error e) :
    x = .error e ∨ ∃ a, x = .ok a ∧ f a = .error e := by
  cases x with
  | error e' =>
    obtain rfl := Except.error.inj h
    exact .inl rfl
  | ok a => exact .inr ⟨a, rfl, h⟩

theorem mapM_ok_iff {bs : List β} :
    as.mapM f = .ok bs ↔ List.Forall₂ (fun a b => f a = .ok b) as bs := by
  induction as generalizing bs with
  | nil => simp [pure, Except.pure]
  | cons a as ih =>
    rw [List.mapM_cons]
    cases ha : f a with
    | error e =>
      simp only [bind, Except.bind, reduceCtorEq, false_iff]
      intro hall
      obtain ⟨_, _, hc, -, -⟩ := List.forall₂_cons_left_iff.mp hall
      cases ha.symm.trans hc
    | ok c =>
      cases has : as.mapM f with
      | error e =>
        simp only [bind, Except.bind, reduceCtorEq, false_iff]
        intro hall
        obtain ⟨_, _, _, hrest, -⟩ := List.forall₂_cons_left_iff.mp hall
        cases has.symm.trans (ih.mpr hrest)
      | ok cs =>
        simp only [bind, Except.bind, pure, Except.pure, Except.ok.injEq]
        constructor
        · rintro rfl
          exact .cons ha (ih.mp has)
        · intro hall
          obtain ⟨c', cs', hc', hrest, rfl⟩ := List.forall₂_cons_left_iff.mp hall
          rw [Except.ok.inj (ha.symm.trans hc'), Except.ok.inj (has.symm.trans (ih.mpr hrest))]

theorem exists_of_mapM_error {e : ε} (h : as.mapM f = .error e) : ∃ a ∈ as, f a = .error e := by
  induction as with
  | nil => cases h
  | cons a as ih =>
    rw [List.mapM_cons] at h
    rcases bind_error h with ha | ⟨b, -, h⟩
    · exact ⟨a, List.mem_cons_self, ha⟩
    rcases bind_error h with hrest | ⟨bs, -, h⟩
    · obtain ⟨a', ha', he⟩ := ih hrest
      exact ⟨a', List.mem_cons_of_mem _ ha', he⟩
    · cases h

theorem forall₂_mem_right {R : α → β → Prop} {bs : List β} (h : List.Forall₂ R as bs) {b : β}
    (hb : b ∈ bs) : ∃ a ∈ as, R a b := by
  induction h with
  | nil => cases hb
  | cons hab _ ih =>
    rcases List.mem_cons.mp hb with rfl | hb
    · exact ⟨_, List.mem_cons_self, hab⟩
    · obtain ⟨a, ha, hR⟩ := ih hb
      exact ⟨a, List.mem_cons_of_mem _ ha, hR⟩

theorem formulaTriples_ok {quads : List N3Quad} {formula : Option GraphName}
    (h : formulaTriples quads formula kind = .ok ps) (hp : p ∈ ps) :
    ∃ q ∈ quads, patTriple kind q = .ok p := by
  cases formula with
  | none =>
    obtain rfl := Except.ok.inj h
    cases hp
  | some g =>
    obtain ⟨q, hq, hok⟩ := forall₂_mem_right (mapM_ok_iff.mp h) hp
    exact ⟨q, List.mem_of_mem_filter hq, hok⟩

theorem freeVar?_eq_none {conditions templates : List PatTriple}
    (h : freeVar? conditions templates = none) (hp : p ∈ templates) {v : Text}
    (hv : v ∈ patTripleVars p) : ∃ q ∈ conditions, v ∈ patTripleVars q := by
  have hin := List.find?_eq_none.mp h v (List.mem_flatMap.mpr ⟨p, hp, hv⟩)
  rw [decide_eq_true_eq, not_not] at hin
  exact List.mem_flatMap.mp hin

/-- **An accepted N3 patch is ready.** -/
theorem ready_of_parseN3Patch (hcodec : PlainN3 codec)
    (h : parseN3Patch codec body baseIri = .ok patch) :
    ReadyPatch patch := by
  unfold parseN3Patch at h
  split at h
  · cases h
  split at h
  · cases h
  rename_i quads hquads
  simp only [bind, Except.bind] at h
  split at h
  · cases h
  split at h
  · cases h
  rename_i conditions hconditions
  split at h
  · cases h
  rename_i deletes hdeletes
  split at h
  · cases h
  rename_i inserts hinserts
  split_ifs at h
  · cases h
  split at h
  · cases h
  rename_i hfree
  obtain rfl := Except.ok.inj h
  have htemplate : ∀ {formula : Option GraphName} {ps : List PatTriple},
      formulaTriples quads formula .template = .ok ps → Template ps := by
    intro formula ps hps p hp x hx l
    obtain ⟨q, -, hq⟩ := formulaTriples_ok hps hp
    obtain ⟨t, -, pos, ht⟩ := patTriple_ok hq hx
    rcases patTerm_ok ht with ⟨c, rfl⟩ | ⟨v, -, rfl⟩ | ⟨b, hkind, -⟩
    · simp
    · simp
    · cases hkind
  refine ⟨fun p hp v hv => ?_, fun p hp => ?_, fun p hp v hv => freeVar?_eq_none hfree hp hv⟩
  · -- a variable of a condition is a variable of the document
    obtain ⟨q, hq, hpat⟩ := formulaTriples_ok hconditions hp
    obtain ⟨t, ht, pos, hx⟩ := patTriple_ok hpat (mem_patTripleVars.mp hv)
    rcases patTerm_ok hx with ⟨c, hc⟩ | ⟨w, rfl, hw⟩ | ⟨b, -, hb⟩
    · cases hc
    · obtain rfl := PatTerm.var.inj hw
      exact hcodec baseIri body quads hquads q hq v ht
    · cases hb
  · rcases List.mem_append.mp hp with hp | hp
    · exact htemplate hdeletes p hp
    · exact htemplate hinserts p hp

/-- A triple as a pattern without names. -/
def groundPattern (t : Triple) : PatTriple :=
  ⟨.term t.subject.asTerm, .term (.namedNode t.predicate), .term t.object⟩

theorem parseToConcreteTriples_ok {group : Text}
    (h : parseToConcreteTriples codec group baseIri = .ok ps) :
    ∃ ts, codec.parseTurtle baseIri group.utf8 = .ok ts ∧ ps = ts.map groundPattern := by
  unfold parseToConcreteTriples at h
  split at h
  · cases h
  split at h
  · cases h
  rename_i ts hts
  exact ⟨ts, hts, (Except.ok.inj h).symm⟩

/-- The patterns are triples. -/
def Ground (ps : List PatTriple) : Prop := ∃ ts : List Triple, ps = ts.map groundPattern

theorem Ground.append {qs : List PatTriple} (hp : Ground ps) (hq : Ground qs) :
    Ground (ps ++ qs) := by
  obtain ⟨ts, rfl⟩ := hp
  obtain ⟨us, rfl⟩ := hq
  exact ⟨ts ++ us, List.map_append.symm⟩

theorem Ground.terms (h : Ground ps) (hp : p ∈ ps) (hx : x ∈ p.terms) : ∃ t, x = .term t := by
  obtain ⟨ts, rfl⟩ := h
  obtain ⟨t, -, rfl⟩ := List.mem_map.mp hp
  simp only [PatTriple.terms, List.mem_cons, List.not_mem_nil, or_false] at hx
  rcases hx with rfl | rfl | rfl <;> exact ⟨_, rfl⟩

/-- Scanning keeps what it has collected ground. -/
theorem ground_of_scanSparql {fuel : Nat} {text : Text} {scan out : SparqlScan}
    (h : scanSparql codec baseIri fuel text scan = .ok out) (hi : Ground scan.inserts)
    (hd : Ground scan.deletes) :
    Ground out.inserts ∧ Ground out.deletes := by
  induction fuel generalizing text scan with
  | zero =>
    obtain rfl := Except.ok.inj h
    exact ⟨hi, hd⟩
  | succ fuel ih =>
    unfold scanSparql at h
    simp only at h
    split_ifs at h
    · obtain rfl := Except.ok.inj h
      exact ⟨hi, hd⟩
    · exact ih h hi hd
    all_goals
      split at h
      · cases h
      rename_i isDelete _
      split at h
      · cases h
      split at h
      · cases h
      split at h
      · cases h
      rename_i triples htriples
      obtain ⟨ts, -, rfl⟩ := parseToConcreteTriples_ok htriples
      apply ih h
      · cases isDelete
        · exact hi.append ⟨ts, rfl⟩
        · exact hi
      · cases isDelete
        · exact hd
        · exact hd.append ⟨ts, rfl⟩

theorem parseSparqlUpdate_ok (h : parseSparqlUpdate codec body baseIri = .ok patch) :
    ∃ text scan, Text.ofUtf8? body = some text ∧
      scanSparql codec baseIri (text.length + 1) text ⟨[], [], [], false⟩ = .ok scan ∧
      patch = ⟨[], scan.deletes, scan.inserts⟩ := by
  unfold parseSparqlUpdate at h
  split at h
  · cases h
  rename_i text htext
  split at h
  · cases h
  rename_i scan hscan
  split_ifs at h
  · cases h
  · exact ⟨text, scan, htext, hscan, (Except.ok.inj h).symm⟩

/-- **An accepted SPARQL update is ready**: it has no names at all. -/
theorem ready_of_parseSparqlUpdate (h : parseSparqlUpdate codec body baseIri = .ok patch) :
    ReadyPatch patch := by
  obtain ⟨text, scan, -, hscan, rfl⟩ := parseSparqlUpdate_ok h
  obtain ⟨hi, hd⟩ := ground_of_scanSparql hscan ⟨[], rfl⟩ ⟨[], rfl⟩
  have hground := hd.append hi
  refine ⟨by simp [PlainVars], fun p hp x hx l => ?_, fun p hp v hv => ?_⟩
  · obtain ⟨t, rfl⟩ := hground.terms hp hx
    simp
  · obtain ⟨t, ht⟩ := hground.terms hp (mem_patTripleVars.mp hv)
    cases ht

/-! ## §2 The selected mapping -/

/-- The mapping a patch is applied under: the empty one when there are no conditions, else their
only solution. -/
def Selects (patch : N3Patch) (existing : List Triple) (μ : Mapping) : Prop :=
  if patch.conditions = [] then μ = fun _ => none
  else Solution patch.conditions existing μ ∧ ∀ μ', Solution patch.conditions existing μ' → μ' = μ

theorem patchBinding_ok_iff :
    patchBinding existing patch = .ok b ↔ solveBgp patch.conditions existing = [b] := by
  unfold patchBinding
  split_ifs with hnil
  · rw [hnil]
    constructor
    · intro h
      obtain rfl := Except.ok.inj h
      rfl
    · intro h
      exact congrArg Except.ok (List.singleton_inj.mp h)
  · split
    · rename_i c hc
      rw [hc]
      constructor
      · intro h
        rw [Except.ok.inj h]
      · intro h
        exact congrArg Except.ok (List.singleton_inj.mp h)
    · rename_i hc
      rw [hc]
      constructor <;> intro h <;> cases h
    · rename_i hne _
      constructor
      · intro h
        cases h
      · intro h
        exact absurd h (hne b)

/-- One binding is found exactly when there is one solution. -/
theorem solveBgp_singleton_iff {graph : List Triple} (hps : PlainVars ps) :
    (∃ b, solveBgp ps graph = [b] ∧ Binding.mapping b = μ) ↔
      Solution ps graph μ ∧ ∀ μ', Solution ps graph μ' → μ' = μ := by
  constructor
  · rintro ⟨b, hb, rfl⟩
    constructor
    · exact (mem_solveBgp hps).mp ⟨b, by rw [hb]; exact List.mem_singleton.mpr rfl, rfl⟩
    · intro μ' hμ'
      obtain ⟨c, hc, rfl⟩ := (mem_solveBgp hps).mpr hμ'
      rw [hb] at hc
      rw [List.mem_singleton.mp hc]
  · rintro ⟨hμ, huniq⟩
    obtain ⟨b, hb, rfl⟩ := (mem_solveBgp hps).mpr hμ
    refine ⟨b, ?_, rfl⟩
    have hall : ∀ c ∈ solveBgp ps graph, c = b := fun c hc =>
      mapping_injective hps hc hb (huniq _ ((mem_solveBgp hps).mp ⟨c, hc, rfl⟩))
    -- a list without duplicates all of whose elements are one is that one
    exact List.perm_singleton.mp
      ((List.perm_ext_iff_of_nodup (nodup_solveBgp ps graph) (List.nodup_singleton b)).mpr
        fun c => ⟨fun hc => List.mem_singleton.mpr (hall c hc),
          fun hc => List.mem_singleton.mp hc ▸ hb⟩)

theorem selects_iff (hplain : PlainVars patch.conditions) :
    Selects patch existing μ ↔
      ∃ b, patchBinding existing patch = .ok b ∧ Binding.mapping b = μ := by
  simp only [patchBinding_ok_iff]
  unfold Selects
  split_ifs with hnil
  · rw [hnil]
    constructor
    · rintro rfl
      exact ⟨∅, rfl, rfl⟩
    · rintro ⟨b, hb, rfl⟩
      obtain rfl := List.singleton_inj.mp (show [(∅ : Binding)] = [b] from hb)
      rfl
  · exact (solveBgp_singleton_iff hplain).symm

/-! ## §3 Instantiation -/

theorem NamedOrBlankNode.asTerm_injective {a b : NamedOrBlankNode} (h : a.asTerm = b.asTerm) :
    a = b := by
  cases a <;> cases b <;> simp_all [NamedOrBlankNode.asTerm]

/-- A template denotes at most one triple. -/
theorem PatTriple.Denotes.unique {t u : Triple} (ht : p.Denotes μ t) (hu : p.Denotes μ u) :
    t = u := by
  have hterm : ∀ {x : PatTerm} {a b : Term}, x.Denotes μ a → x.Denotes μ b → a = b := by
    rintro x a b (rfl | ⟨n, rfl, ha⟩) (hb | ⟨m, hm, hb⟩)
    · exact PatTerm.term.inj hb
    · exact absurd hm.symm (m.term_ne a)
    · exact absurd hb (n.term_ne b)
    · obtain rfl := PatName.term_injective hm
      exact Option.some.inj (ha.symm.trans hb)
  obtain ⟨hs, hp, ho⟩ := ht
  obtain ⟨hs', hp', ho'⟩ := hu
  cases t
  cases u
  congr 1
  · exact NamedOrBlankNode.asTerm_injective (hterm hs hs')
  · exact Term.namedNode.inj (hterm hp hp')
  · exact hterm ho ho'

/-- Resolving a term of a template is what it denotes. -/
theorem resolve_ok_iff (hblank : ∀ l, x ≠ .whereBlank l) (hplain : ∀ v, x = .var v → ' ' ∉ v) :
    resolve x b = .ok t ↔ x.Denotes (Binding.mapping b) t := by
  cases x with
  | term c =>
    constructor
    · intro h
      exact .inl (congrArg PatTerm.term (Except.ok.inj h))
    · rintro (h | ⟨n, h, -⟩)
      · exact congrArg Except.ok (PatTerm.term.inj h)
      · exact absurd h.symm (n.term_ne c)
  | var v =>
    have hlookup : resolve (.var v) b = .ok t ↔ b.lookup v = some t := by
      cases hv : b.lookup v <;> simp only [resolve, hv, reduceCtorEq, Except.ok.injEq,
        Option.some.injEq]
    rw [hlookup]
    constructor
    · intro h
      exact .inr ⟨.var v (hplain v rfl), rfl, h⟩
    · rintro (h | ⟨n, h, hn⟩)
      · cases h
      · obtain rfl : PatName.var v (hplain v rfl) = n := PatName.term_injective h
        exact hn
  | whereBlank l => exact absurd rfl (hblank l)

/-- What may stand as the subject of a triple. -/
def asSubject : Term → Except ServerError NamedOrBlankNode
  | .namedNode n => .ok (.namedNode n)
  | .blankNode l => .ok (.blankNode l)
  | .literal _ => unprocessable "a patch triple subject cannot be a literal"

/-- What may stand as the predicate of a triple. -/
def asPredicate : Term → Except ServerError Iri
  | .namedNode n => .ok n
  | _ => unprocessable "a patch triple predicate must be an IRI"

/-- Instantiating a template, step by step. -/
theorem instantiate_eq (b : Binding) (p : PatTriple) :
    instantiate b p = (resolve p.subject b >>= asSubject) >>= fun subject =>
      (resolve p.predicate b >>= asPredicate) >>= fun predicate =>
        resolve p.object b >>= fun object => pure ⟨subject, predicate, object⟩ := by
  unfold instantiate
  cases resolve p.subject b with
  | error e => rfl
  | ok s =>
    cases resolve p.predicate b with
    | error e => cases s <;> rfl
    | ok q => cases s <;> cases q <;> rfl

theorem asSubject_ok {s : NamedOrBlankNode} (h : asSubject t = .ok s) :
    t = s.asTerm := by
  cases t with
  | namedNode n =>
    obtain rfl := Except.ok.inj h
    rfl
  | blankNode l =>
    obtain rfl := Except.ok.inj h
    rfl
  | literal l => cases h

theorem asSubject_asTerm (s : NamedOrBlankNode) : asSubject s.asTerm = .ok s := by
  cases s <;> rfl

theorem asPredicate_ok {q : Iri} (h : asPredicate t = .ok q) : t = .namedNode q := by
  cases t with
  | namedNode n =>
    obtain rfl := Except.ok.inj h
    rfl
  | blankNode l => cases h
  | literal l => cases h

/-- The three terms of a template decide the triple. -/
theorem instantiate_ok_iff {t : Triple} :
    instantiate b p = .ok t ↔ resolve p.subject b = .ok t.subject.asTerm ∧
      resolve p.predicate b = .ok (.namedNode t.predicate) ∧ resolve p.object b = .ok t.object := by
  rw [instantiate_eq]
  constructor
  · intro h
    obtain ⟨subject, hs, h⟩ := bind_ok h
    obtain ⟨predicate, hp, h⟩ := bind_ok h
    obtain ⟨object, ho, h⟩ := bind_ok h
    obtain rfl := Except.ok.inj h
    obtain ⟨s, hs, hsubject⟩ := bind_ok hs
    obtain ⟨q, hq, hpredicate⟩ := bind_ok hp
    rw [hs, hq, ho, asSubject_ok hsubject, asPredicate_ok hpredicate]
    exact ⟨rfl, rfl, rfl⟩
  · rintro ⟨hs, hp, ho⟩
    rw [hs, hp, ho]
    simp only [bind, Except.bind, asSubject_asTerm, asPredicate, pure, Except.pure]

/-- Why a template may fail to be instantiated. -/
theorem instantiate_error {e : ServerError} (h : instantiate b p = .error e) :
    (∃ x ∈ p.terms, resolve x b = .error e) ∨
      e = .unprocessablePatch "a patch triple subject cannot be a literal".toList ∨
      e = .unprocessablePatch "a patch triple predicate must be an IRI".toList := by
  rw [instantiate_eq] at h
  rcases bind_error h with h | ⟨subject, -, h⟩
  · rcases bind_error h with hs | ⟨s, -, hs⟩
    · exact .inl ⟨p.subject, by simp [PatTriple.terms], hs⟩
    · cases s with
      | namedNode n => cases hs
      | blankNode n => cases hs
      | literal l => exact .inr (.inl (Except.error.inj hs).symm)
  rcases bind_error h with h | ⟨predicate, -, h⟩
  · rcases bind_error h with hq | ⟨q, -, hq⟩
    · exact .inl ⟨p.predicate, by simp [PatTriple.terms], hq⟩
    · cases q with
      | namedNode n => cases hq
      | blankNode n => exact .inr (.inr (Except.error.inj hq).symm)
      | literal l => exact .inr (.inr (Except.error.inj hq).symm)
  rcases bind_error h with ho | ⟨o, -, h⟩
  · exact .inl ⟨p.object, by simp [PatTriple.terms], ho⟩
  · cases h

/-! ## §4 Application -/

section
variable {patch : N3Patch} {existing : List Triple} {b : Binding}

variable {p : PatTriple} {ps : List PatTriple} {ts : List Triple} {μ : Mapping}

/-- A template of a ready patch denotes what it is instantiated to. -/
theorem ReadyPatch.instantiate_iff (h : ReadyPatch patch) (hp : p ∈ patch.deletes ++ patch.inserts)
    {t : Triple} :
    instantiate b p = .ok t ↔ p.Denotes (Binding.mapping b) t := by
  have hterm : ∀ {x : PatTerm} {c : Term}, x ∈ p.terms →
      (resolve x b = .ok c ↔ x.Denotes (Binding.mapping b) c) := by
    intro x c hx
    refine resolve_ok_iff (h.template p hp x hx) fun v hv => ?_
    -- the variable occurs in a condition, where names are plain
    obtain ⟨q, hq, hvq⟩ := h.bound p hp v (mem_patTripleVars.mpr (hv ▸ hx))
    exact h.plain q hq v hvq
  rw [instantiate_ok_iff, hterm (by simp [PatTriple.terms]), hterm (by simp [PatTriple.terms]),
    hterm (by simp [PatTriple.terms])]
  rfl

/-- No term of a template is left without a value. -/
theorem ReadyPatch.resolves (h : ReadyPatch patch) (hb : patchBinding existing patch = .ok b)
    (hp : p ∈ patch.deletes ++ patch.inserts) {x : PatTerm} (hx : x ∈ p.terms) (e : ServerError) :
    resolve x b ≠ .error e := by
  cases x with
  | term c => exact fun hr => by cases hr
  | whereBlank l => exact absurd rfl (h.template p hp _ hx l)
  | var v =>
    obtain ⟨q, hq, hvq⟩ := h.bound p hp v (mem_patTripleVars.mpr hx)
    have hsolved : b ∈ solveBgp patch.conditions existing := by
      rw [patchBinding_ok_iff.mp hb]
      exact List.mem_singleton.mpr rfl
    have hname : HasName patch.conditions (.var v (h.plain q hq v hvq)) :=
      ⟨q, hq, mem_patTripleVars.mp hvq⟩
    have hmem : v ∈ b := (mem_of_solveBgp h.plain hsolved).mpr ⟨_, hname, rfl⟩
    obtain ⟨c, hc⟩ := Option.isSome_iff_exists.mp (AList.lookup_isSome.mpr hmem)
    intro hr
    simp only [resolve, hc] at hr
    cases hr

/-- The instances of a list of templates. -/
theorem ReadyPatch.instantiateAll_iff (h : ReadyPatch patch)
    (hps : ∀ p ∈ ps, p ∈ patch.deletes ++ patch.inserts) :
    instantiateAll ps b = .ok ts ↔ List.Forall₂ (PatTriple.Denotes (Binding.mapping b)) ps ts := by
  unfold instantiateAll
  rw [mapM_ok_iff]
  induction ps generalizing ts with
  | nil => simp
  | cons p ps ih =>
    obtain ⟨hp, hrest⟩ := List.forall_mem_cons.mp hps
    simp only [List.forall₂_cons_left_iff, h.instantiate_iff hp, ih hrest]

/-- The triples a list of templates denotes. -/
def Instance (μ : Mapping) (ps : List PatTriple) (t : Triple) : Prop := ∃ p ∈ ps, p.Denotes μ t

theorem mem_iff_instance (h : List.Forall₂ (PatTriple.Denotes μ) ps ts) {t : Triple} :
    t ∈ ts ↔ Instance μ ps t := by
  induction h with
  | nil => simp [Instance]
  | cons hp _ ih =>
    rw [List.mem_cons, ih]
    constructor
    · rintro (rfl | ⟨p, hmem, hden⟩)
      · exact ⟨_, List.mem_cons_self, hp⟩
      · exact ⟨p, List.mem_cons_of_mem _ hmem, hden⟩
    · rintro ⟨p, hmem, hden⟩
      rcases List.mem_cons.mp hmem with rfl | hmem
      · exact .inl (hden.unique hp)
      · exact .inr ⟨p, hmem, hden⟩

theorem exists_instances (h : ∀ p ∈ ps, ∃ t, p.Denotes μ t) :
    ∃ ts, List.Forall₂ (PatTriple.Denotes μ) ps ts := by
  induction ps with
  | nil => exact ⟨[], .nil⟩
  | cons p ps ih =>
    obtain ⟨⟨t, ht⟩, hrest⟩ := List.forall_mem_cons.mp h
    obtain ⟨ts, hts⟩ := ih hrest
    exact ⟨t :: ts, .cons ht hts⟩

theorem exists_of_instances (h : List.Forall₂ (PatTriple.Denotes μ) ps ts) (hp : p ∈ ps) :
    ∃ t ∈ ts, p.Denotes μ t :=
  forall₂_mem_right h.flip hp

/-- What a successful application computes. -/
theorem applyPatch_eq_ok_iff {result : List Triple} :
    applyPatch existing patch = .ok result ↔ ∃ b deletes inserts,
      patchBinding existing patch = .ok b ∧ instantiateAll patch.deletes b = .ok deletes ∧
      instantiateAll patch.inserts b = .ok inserts ∧ (∀ t ∈ deletes, t ∈ existing) ∧
      inserts.foldl appendNew ((existing.filter (· ∉ deletes)).foldl appendNew []) = result := by
  unfold applyPatch
  constructor
  · intro h
    obtain ⟨b, hb, h⟩ := bind_ok h
    obtain ⟨deletes, hd, h⟩ := bind_ok h
    obtain ⟨inserts, hi, h⟩ := bind_ok h
    split_ifs at h with hall
    exact ⟨b, deletes, inserts, hb, hd, hi, by simpa using hall, Except.ok.inj h⟩
  · rintro ⟨b, deletes, inserts, hb, hd, hi, hall, hresult⟩
    have hpresent : deletes.all (· ∈ existing) = true := by simpa using hall
    simp only [hb, hd, hi, bind, Except.bind, hpresent]
    exact congrArg Except.ok hresult

/-- When a ready patch applies. -/
theorem ReadyPatch.applies_iff (h : ReadyPatch patch) :
    (∃ result, applyPatch existing patch = .ok result) ↔ ∃ μ, Selects patch existing μ ∧
      (∀ p ∈ patch.deletes ++ patch.inserts, ∃ t, p.Denotes μ t) ∧
      ∀ t, Instance μ patch.deletes t → t ∈ existing := by
  have hdel : ∀ p ∈ patch.deletes, p ∈ patch.deletes ++ patch.inserts := fun _ =>
    List.mem_append_left _
  have hins : ∀ p ∈ patch.inserts, p ∈ patch.deletes ++ patch.inserts := fun _ =>
    List.mem_append_right _
  constructor
  · rintro ⟨result, hresult⟩
    obtain ⟨b, deletes, inserts, hb, hd, hi, hall, -⟩ := applyPatch_eq_ok_iff.mp hresult
    rw [h.instantiateAll_iff hdel] at hd
    rw [h.instantiateAll_iff hins] at hi
    refine ⟨Binding.mapping b, (selects_iff h.plain).mpr ⟨b, hb, rfl⟩, fun p hp => ?_,
      fun t ht => hall t ((mem_iff_instance hd).mpr ht)⟩
    rcases List.mem_append.mp hp with hp | hp
    · obtain ⟨t, -, ht⟩ := exists_of_instances hd hp
      exact ⟨t, ht⟩
    · obtain ⟨t, -, ht⟩ := exists_of_instances hi hp
      exact ⟨t, ht⟩
  · rintro ⟨μ, hμ, htyped, hpresent⟩
    obtain ⟨b, hb, rfl⟩ := (selects_iff h.plain).mp hμ
    obtain ⟨deletes, hd⟩ := exists_instances fun p hp => htyped p (hdel p hp)
    obtain ⟨inserts, hi⟩ := exists_instances fun p hp => htyped p (hins p hp)
    refine ⟨_, applyPatch_eq_ok_iff.mpr ⟨b, deletes, inserts, hb,
      (h.instantiateAll_iff hdel).mpr hd, (h.instantiateAll_iff hins).mpr hi, fun t ht => ?_, rfl⟩⟩
    exact hpresent t ((mem_iff_instance hd).mp ht)

/-- The triples a patch keeps. -/
def Survives (patch : N3Patch) (existing : List Triple) (μ : Mapping) (t : Triple) : Prop :=
  t ∈ existing ∧ ¬ Instance μ patch.deletes t

/-- What the patched graph is: the survivors in their order, then new triples. -/
theorem ReadyPatch.result (h : ReadyPatch patch) {result : List Triple}
    (hresult : applyPatch existing patch = .ok result) (hμ : Selects patch existing μ) :
    result.Nodup ∧
      (∀ t, t ∈ result ↔ Survives patch existing μ t ∨ Instance μ patch.inserts t) ∧
      ∃ kept new, result = kept ++ new ∧ (∀ t, t ∈ kept ↔ Survives patch existing μ t) ∧
        kept.Pairwise fun s t => existing.idxOf s < existing.idxOf t := by
  obtain ⟨b, deletes, inserts, hb, hd, hi, -, rfl⟩ := applyPatch_eq_ok_iff.mp hresult
  obtain ⟨c, hc, rfl⟩ := (selects_iff h.plain).mp hμ
  obtain rfl := Except.ok.inj (hb.symm.trans hc)
  rw [h.instantiateAll_iff fun _ => List.mem_append_left _] at hd
  rw [h.instantiateAll_iff fun _ => List.mem_append_right _] at hi
  have hkept : ∀ t, t ∈ (existing.filter (· ∉ deletes)).foldl appendNew [] ↔
      Survives patch existing (Binding.mapping b) t := by
    intro t
    rw [mem_foldl_appendNew, Survives, ← mem_iff_instance hd]
    simp
  refine ⟨nodup_foldl_appendNew (nodup_foldl_appendNew List.nodup_nil), fun t => ?_, ?_⟩
  · rw [mem_foldl_appendNew, hkept, mem_iff_instance hi]
  · obtain ⟨new, hnew, -⟩ := foldl_appendNew_eq inserts
      ((existing.filter (· ∉ deletes)).foldl appendNew [])
    exact ⟨_, new, hnew, hkept, collected_pairwise _ existing⟩

/-- The error for a variable of a template that the conditions left unbound. -/
def unboundVariable (v : Text) : ServerError :=
  .unprocessablePatch ("variable ?".toList ++ v ++
    " in a template was not bound by solid:where".toList)

/-- The error for an existential in a template. -/
def strayBlank (label : Text) : ServerError :=
  .unprocessablePatch ("blank node _:".toList ++ label ++
    " unexpectedly reached a template (internal invariant)".toList)

/-- The errors of a ready patch: a conflict, or a template that is no triple. -/
theorem ReadyPatch.errors (h : ReadyPatch patch) {e : ServerError}
    (he : applyPatch existing patch = .error e) :
    (∃ m, e = .conflict m) ∨ ∃ m, e = .unprocessablePatch ('a' :: m) := by
  have hinstances : ∀ {ps : List PatTriple} {b : Binding},
      (∀ p ∈ ps, p ∈ patch.deletes ++ patch.inserts) → patchBinding existing patch = .ok b →
      instantiateAll ps b = .error e → ∃ m, e = .unprocessablePatch ('a' :: m) := by
    intro ps b hps hb hall
    obtain ⟨p, hp, hfail⟩ := exists_of_mapM_error hall
    rcases instantiate_error hfail with ⟨x, hx, hr⟩ | rfl | rfl
    · exact absurd hr (h.resolves hb (hps p hp) hx e)
    · exact ⟨_, rfl⟩
    · exact ⟨_, rfl⟩
  rcases bind_error he with hb | ⟨b, hb, he⟩
  · unfold patchBinding at hb
    split_ifs at hb
    split at hb
    · cases hb
    · exact .inl ⟨_, (Except.error.inj hb).symm⟩
    · exact .inl ⟨_, (Except.error.inj hb).symm⟩
  rcases bind_error he with hd | ⟨deletes, -, he⟩
  · exact .inr (hinstances (fun _ => List.mem_append_left _) hb hd)
  rcases bind_error he with hi | ⟨inserts, -, he⟩
  · exact .inr (hinstances (fun _ => List.mem_append_right _) hb hi)
  split_ifs at he
  · cases he
  · exact .inl ⟨_, (Except.error.inj he).symm⟩

end

/-- **Applying an accepted patch**: it succeeds exactly when the conditions select one mapping,
every template denotes a triple under it and every triple to delete is there; the result has no
duplicates, holds the survivors in their order before the new triples, and is as a set the graph
without the deletes and with the inserts; and no template is ever left unresolved. -/
theorem applyPatch_correct {codec : RdfCodec} (hcodec : PlainN3 codec) {body : Bytes}
    {baseIri : Iri} {patch : N3Patch}
    (hparse : parseN3Patch codec body baseIri = .ok patch ∨
      parseSparqlUpdate codec body baseIri = .ok patch) (existing : List Triple) :
    ((∃ result, applyPatch existing patch = .ok result) ↔ ∃ μ, Selects patch existing μ ∧
      (∀ p ∈ patch.deletes ++ patch.inserts, ∃ t, p.Denotes μ t) ∧
      ∀ t, Instance μ patch.deletes t → t ∈ existing) ∧
    (∀ result μ, applyPatch existing patch = .ok result → Selects patch existing μ →
      result.Nodup ∧
      (∀ t, t ∈ result ↔ Survives patch existing μ t ∨ Instance μ patch.inserts t) ∧
      ∃ kept new, result = kept ++ new ∧ (∀ t, t ∈ kept ↔ Survives patch existing μ t) ∧
        kept.Pairwise fun s t => existing.idxOf s < existing.idxOf t) ∧
    (∀ v, applyPatch existing patch ≠ .error (unboundVariable v)) ∧
    ∀ label, applyPatch existing patch ≠ .error (strayBlank label) := by
  have hready : ReadyPatch patch := by
    rcases hparse with hparse | hparse
    · exact ready_of_parseN3Patch hcodec hparse
    · exact ready_of_parseSparqlUpdate hparse
  -- neither error begins as the errors of a ready patch do
  have hfirst : ∀ c m, c ≠ 'a' → applyPatch existing patch ≠ .error (.unprocessablePatch (c :: m)) := by
    intro c m hc he
    rcases hready.errors he with ⟨m', h⟩ | ⟨m', h⟩
    · cases h
    · exact hc (List.cons.inj (ServerError.unprocessablePatch.inj h)).1
  exact ⟨hready.applies_iff, fun result μ => hready.result, fun v => hfirst 'v' _ (by decide),
    fun label => hfirst 'b' _ (by decide)⟩

theorem plainN3_tableCodec {table : List Quad} {rules : List N3Quad}
    (h : ∀ q ∈ rules, ∀ v, N3Term.variable v ∈ [q.subject, q.predicate, q.object] → ' ' ∉ v) :
    PlainN3 (Store.tableCodec table rules) := by
  intro base body quads hquads q hq
  obtain ⟨b, -, hb⟩ := forall₂_mem_right (mapM_ok_iff.mp hquads) hq
  have hrule : rules[b.toNat]? = some q := by
    cases hr : rules[b.toNat]? <;> rw [hr] at hb <;> cases hb
    rfl
  exact h q (List.mem_of_getElem? hrule)

/-- A patch document: whoever knows `http://h/b` is made a friend. -/
def befriend : List N3Quad :=
  [⟨.blankNode "patch".toList, .namedNode (solidTerm "where"), .blankNode "w".toList, .defaultGraph⟩,
   ⟨.blankNode "patch".toList, .namedNode (solidTerm "inserts"), .blankNode "i".toList, .defaultGraph⟩,
   ⟨.variable "x".toList, .namedNode "http://h/knows".toList, .namedNode "http://h/b".toList,
     .blankNode "w".toList⟩,
   ⟨.variable "x".toList, .namedNode "http://h/friend".toList, .namedNode "http://h/b".toList,
     .blankNode "i".toList⟩]

def befriendPatch : N3Patch :=
  ⟨[⟨.var "x".toList, .term (.namedNode "http://h/knows".toList),
      .term (.namedNode "http://h/b".toList)⟩], [],
    [⟨.var "x".toList, .term (.namedNode "http://h/friend".toList),
      .term (.namedNode "http://h/b".toList)⟩]⟩

theorem plainN3_befriend : PlainN3 (Store.tableCodec [] befriend) := by
  apply plainN3_tableCodec
  intro q hq v hv
  have hname : v = "x".toList := by
    simp only [befriend, List.mem_cons, List.not_mem_nil, or_false] at hq
    rcases hq with rfl | rfl | rfl | rfl <;> simp at hv
    · exact hv
    · exact hv
  rw [hname]
  decide

theorem parse_befriend :
    parseN3Patch (Store.tableCodec [] befriend) [0, 1, 2, 3] [] = .ok befriendPatch := by
  decide

theorem applyPatch_correct_befriend :
    PlainN3 (Store.tableCodec [] befriend) ∧
      parseN3Patch (Store.tableCodec [] befriend) [0, 1, 2, 3] [] = .ok befriendPatch ∧
      (∃ result, applyPatch acquaintances befriendPatch = .ok result) ∧
      ∃ μ, Selects befriendPatch acquaintances μ := by
  have hsolved : (solveBgp befriendPatch.conditions acquaintances).map AList.entries =
      [[⟨"x".toList, .namedNode "http://h/a".toList⟩]] :=
    solveBgp_of_entries (by decide) (by decide)
  obtain ⟨b, hb⟩ := List.length_eq_one_iff.mp
    (show (solveBgp befriendPatch.conditions acquaintances).length = 1 by
      rw [← List.length_map AList.entries, hsolved]
      rfl)
  have hx : b.lookup "x".toList = some (.namedNode "http://h/a".toList) := by
    rw [hb] at hsolved
    apply AList.mem_lookup_iff.mpr
    rw [List.singleton_inj.mp hsolved]
    exact List.mem_singleton.mpr rfl
  have happlies : ∃ result, applyPatch acquaintances befriendPatch = .ok result := by
    refine ⟨_, applyPatch_eq_ok_iff.mpr ⟨b, [], [⟨.namedNode "http://h/a".toList,
      "http://h/friend".toList, .namedNode "http://h/b".toList⟩], patchBinding_ok_iff.mpr hb, rfl,
      mapM_ok_iff.mpr (.cons (instantiate_ok_iff.mpr ⟨?_, rfl, rfl⟩) .nil), by simp, rfl⟩⟩
    simp only [resolve, hx]
    rfl
  obtain ⟨μ, hμ, -⟩ :=
    (applyPatch_correct plainN3_befriend (.inl parse_befriend) acquaintances).1.mp happlies
  exact ⟨plainN3_befriend, parse_befriend, happlies, μ, hμ⟩

/-! ## §5 Existentials -/

/-- The two refusals for want of a single solution. -/
def LacksUnique (existing : List Triple) (patch : N3Patch) : Prop :=
  applyPatch existing patch =
      .error (.conflict "the solid:where clause has no solution against the target graph".toList) ∨
    applyPatch existing patch = .error (.conflict
      "the solid:where clause has multiple solutions; exactly one is required".toList)

/-- The part of a mapping that gives terms to the named variables. -/
def named (μ : Mapping) (v : { v : Text // ' ' ∉ v }) : Option Term := μ (.var v.1 v.2)

/-- The mappings of the named variables that extend to a solution. -/
def NamedSolution (ps : List PatTriple) (graph : List Triple)
    (ν : { v : Text // ' ' ∉ v } → Option Term) : Prop :=
  ∃ μ, Solution ps graph μ ∧ named μ = ν

/-- The existentials have no choice of their own: solutions that agree on the variables agree. -/
def BlanksDetermined (ps : List PatTriple) (graph : List Triple) : Prop :=
  ∀ μ μ', Solution ps graph μ → Solution ps graph μ' → named μ = named μ' → μ = μ'

theorem instantiateAll_not_conflict {m : Text} :
    instantiateAll ps b ≠ .error (.conflict m) := by
  intro h
  obtain ⟨p, -, hp⟩ := exists_of_mapM_error h
  rcases instantiate_error hp with ⟨x, -, hx⟩ | hx | hx
  · cases x with
    | term c => cases hx
    | var v =>
      cases hv : b.lookup v <;> rw [resolve, hv] at hx <;> cases hx
    | whereBlank l => cases hx
  · cases hx
  · cases hx

/-- A patch with conditions lacks a unique solution exactly when no binding is selected. -/
theorem lacksUnique_iff (hne : patch.conditions ≠ []) :
    LacksUnique existing patch ↔ ¬ ∃ b, patchBinding existing patch = .ok b := by
  constructor
  · rintro hlacks ⟨b, hb⟩
    -- after a binding is selected the only conflict left is a missing triple
    have hconflict : ∀ m, applyPatch existing patch = .error (.conflict m) →
        m = "a solid:deletes triple is not present in the resource".toList := by
      intro m h
      unfold applyPatch at h
      rw [hb] at h
      rcases bind_error h with h | ⟨c, -, h⟩
      · cases h
      rcases bind_error h with h | ⟨deletes, -, h⟩
      · exact absurd h instantiateAll_not_conflict
      rcases bind_error h with h | ⟨inserts, -, h⟩
      · exact absurd h instantiateAll_not_conflict
      split_ifs at h
      · cases h
      · exact (ServerError.conflict.inj (Except.error.inj h)).symm
    rcases hlacks with h | h
    · exact absurd (hconflict _ h) (by decide)
    · exact absurd (hconflict _ h) (by decide)
  · intro hnone
    unfold LacksUnique applyPatch
    cases hb : patchBinding existing patch with
    | ok b => exact absurd ⟨b, hb⟩ hnone
    | error e =>
      unfold patchBinding at hb
      rw [if_neg hne] at hb
      split at hb
      · cases hb
      · obtain rfl := Except.error.inj hb
        exact .inl rfl
      · obtain rfl := Except.error.inj hb
        exact .inr rfl

theorem lacksUnique_iff_solution (hplain : PlainVars patch.conditions) (hne : patch.conditions ≠ [])
    :
    LacksUnique existing patch ↔ ¬ ∃! μ, Solution patch.conditions existing μ := by
  rw [lacksUnique_iff hne, not_iff_not]
  constructor
  · rintro ⟨b, hb⟩
    exact ⟨_, (solveBgp_singleton_iff hplain).mp ⟨b, patchBinding_ok_iff.mp hb, rfl⟩⟩
  · rintro ⟨μ, hμ⟩
    obtain ⟨b, hb, -⟩ := (solveBgp_singleton_iff hplain).mpr hμ
    exact ⟨b, patchBinding_ok_iff.mpr hb⟩

/-- A single solution is a single mapping of the variables with determined existentials. -/
theorem existsUnique_solution_iff {graph : List Triple} :
    (∃! μ, Solution ps graph μ) ↔
      (∃! ν, NamedSolution ps graph ν) ∧ BlanksDetermined ps graph := by
  constructor
  · rintro ⟨μ, hμ, huniq⟩
    refine ⟨⟨named μ, ⟨μ, hμ, rfl⟩, ?_⟩, ?_⟩
    · rintro ν ⟨μ', hμ', rfl⟩
      rw [huniq μ' hμ']
    · intro μ₁ μ₂ h₁ h₂ _
      rw [huniq μ₁ h₁, huniq μ₂ h₂]
  · rintro ⟨⟨ν, ⟨μ, hμ, hν⟩, huniq⟩, hdet⟩
    refine ⟨μ, hμ, fun μ' hμ' => hdet μ' μ hμ' hμ ?_⟩
    rw [huniq _ ⟨μ', hμ', rfl⟩, hν]

/-- **When conditions are refused**: a patch with conditions is refused for want of a single
solution exactly when the number of mappings of its variables and existentials is not one; the
number of mappings of the variables alone gives the same answer exactly when a single one of them
always comes with a single choice for the existentials. -/
theorem conditions_refused_iff {existing : List Triple} {patch : N3Patch}
    (hplain : PlainVars patch.conditions) (hne : patch.conditions ≠ []) :
    (LacksUnique existing patch ↔ ¬ ∃! μ, Solution patch.conditions existing μ) ∧
      ((LacksUnique existing patch ↔ ¬ ∃! ν, NamedSolution patch.conditions existing ν) ↔
        ((∃! ν, NamedSolution patch.conditions existing ν) →
          BlanksDetermined patch.conditions existing)) := by
  refine ⟨lacksUnique_iff_solution hplain hne, ?_⟩
  rw [lacksUnique_iff_solution hplain hne, existsUnique_solution_iff, not_iff_not]
  tauto

/-- Whoever knows somebody is greeted. -/
def greet : N3Patch :=
  ⟨[knowsSomeone], [], [⟨.var "x".toList, .term (.namedNode "http://h/greets".toList),
    .term (.namedNode "http://h/x".toList)⟩]⟩

theorem conditions_refused_iff_alone :
    PlainVars greet.conditions ∧ greet.conditions ≠ [] ∧
      (LacksUnique [] greet ↔ ¬ ∃! ν, NamedSolution greet.conditions [] ν) := by
  refine ⟨plainVars_knowsSomeone, by decide, ?_⟩
  apply (conditions_refused_iff plainVars_knowsSomeone (by decide)).2.mpr
  rintro ⟨ν, ⟨μ, hμ, -⟩, -⟩
  obtain ⟨t, ht, -⟩ := hμ.occurs knowsSomeone (List.mem_singleton.mpr rfl)
  cases ht

/-- **One person who knows two others is refused**, although there is one mapping of the
variable. -/
theorem greet_refused :
    ¬ (LacksUnique acquaintances greet ↔ ¬ ∃! ν, NamedSolution greet.conditions acquaintances ν) := by
  have hlacks : LacksUnique acquaintances greet := by
    apply (lacksUnique_iff (by decide)).mpr
    rintro ⟨b, hb⟩
    have htwo := congrArg List.length solveBgp_knowsSomeone
    rw [List.length_map, show solveBgp [knowsSomeone] acquaintances = [b] from
      patchBinding_ok_iff.mp hb] at htwo
    cases htwo
  have hnamed : ∀ μ, Solution greet.conditions acquaintances μ → ∀ v,
      named μ v = if v.1 = "x".toList then some (.namedNode "http://h/a".toList) else none := by
    intro μ hμ v
    obtain ⟨b, hb, rfl⟩ := (mem_solveBgp plainVars_knowsSomeone).mpr hμ
    obtain ⟨hkeys, hx⟩ : b.keys = ["_: x".toList, "x".toList] ∧
        b.lookup "x".toList = some (.namedNode "http://h/a".toList) := by
      have hmem := List.mem_map_of_mem (f := AList.entries) hb
      rw [solveBgp_knowsSomeone] at hmem
      simp only [List.mem_cons, List.not_mem_nil, or_false] at hmem
      rcases hmem with h | h <;>
        exact ⟨by rw [AList.keys, h]; rfl, by rw [AList.lookup, h]; decide⟩
    split_ifs with hv
    · rw [named, Binding.mapping]
      exact (congrArg b.lookup hv).trans hx
    · -- the only other key holds a space
      apply AList.lookup_eq_none.mpr
      intro hmem
      have hmem : v.1 ∈ b.keys := hmem
      rw [hkeys] at hmem
      rcases List.mem_cons.mp hmem with h | h
      · exact v.2 (h ▸ by decide)
      · exact hv (List.mem_singleton.mp h)
  have hsol : ∃ μ, Solution greet.conditions acquaintances μ := by
    obtain ⟨b, hb⟩ : ∃ b, b ∈ solveBgp [knowsSomeone] acquaintances :=
      List.exists_mem_of_ne_nil _ fun hnil => by
        have hentries := solveBgp_knowsSomeone
        rw [hnil] at hentries
        cases hentries
    exact ⟨_, (mem_solveBgp plainVars_knowsSomeone).mp ⟨b, hb, rfl⟩⟩
  obtain ⟨μ, hμ⟩ := hsol
  intro h
  refine h.mp hlacks ⟨named μ, ⟨μ, hμ, rfl⟩, ?_⟩
  rintro ν ⟨μ', hμ', rfl⟩
  funext v
  rw [hnamed μ' hμ' v, hnamed μ hμ v]

end SolidServer.Ldp
