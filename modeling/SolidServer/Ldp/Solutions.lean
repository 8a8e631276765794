import SolidServer.Ldp.Patch
import SolidServer.Query.Join

/-!
# Solutions of a patch's conditions

What the conditions of a patch ask for, apart from how they are solved: a *mapping*
gives terms to the variables and to the existentials of the `where` formula, and a
*solution* is a mapping of exactly their names under which every condition is a triple
of the graph.

The solver of `ldp/patch.rs` is the backtracking search of `Query.Join`, with variables
and existentials as keys; `mem_solveBgp` says that it finds the solutions.
-/

namespace SolidServer.Ldp

open SolidServer.Query

/-! ## §1 Names and mappings -/

/-- A name the conditions bind: a variable, whose name holds no space, or an existential. -/
inductive PatName where
  | var (v : Text) (plain : ' ' ∉ v)
  | blank (label : Text)
  deriving DecidableEq

/-- The pattern term a name occurs as. -/
def PatName.term : PatName → PatTerm
  | .var v _ => .var v
  | .blank label => .whereBlank label

/-- A partial assignment of terms to names. -/
abbrev Mapping := PatName → Option Term

/-- What a pattern term stands for under a mapping. -/
def PatTerm.Denotes (μ : Mapping) (p : PatTerm) (t : Term) : Prop :=
  p = .term t ∨ ∃ n, p = n.term ∧ μ n = some t

/-- A pattern stands for a triple; only well-typed triples are triples. -/
def PatTriple.Denotes (μ : Mapping) (p : PatTriple) (t : Triple) : Prop :=
  p.subject.Denotes μ t.subject.asTerm ∧ p.predicate.Denotes μ (.namedNode t.predicate) ∧
    p.object.Denotes μ t.object

def PatTriple.terms (p : PatTriple) : List PatTerm := [p.subject, p.predicate, p.object]

/-- The names of a list of patterns. -/
def HasName (ps : List PatTriple) (n : PatName) : Prop := ∃ p ∈ ps, n.term ∈ p.terms

/-- **Solution**: a mapping of exactly the names of the patterns under which each of them is in
the graph. -/
structure Solution (ps : List PatTriple) (graph : List Triple) (μ : Mapping) : Prop where
  names : ∀ n, (μ n).isSome = true ↔ HasName ps n
  occurs : ∀ p ∈ ps, ∃ t ∈ graph, p.Denotes μ t

/-- No variable name holds a space; the names the RDF library hands over never do. -/
def PlainVars (ps : List PatTriple) : Prop := ∀ p ∈ ps, ∀ v ∈ patTripleVars p, ' ' ∉ v

/-- The mapping a binding of the solver stands for. -/
def Binding.mapping (b : Binding) : Mapping := fun n => b.lookup (bindingKey n.term)

/-! ## §2 Keys -/

theorem bindingKey_injective {n m : PatName} (h : bindingKey n.term = bindingKey m.term) :
    n = m := by
  cases n with
  | var v hv =>
    cases m with
    | var w hw =>
      obtain rfl : v = w := h
      rfl
    | blank l =>
      -- an existential's key holds a space
      have hsp : ' ' ∈ v := by
        rw [show v = "_: ".toList ++ l from h]
        simp
      exact absurd hsp hv
  | blank l =>
    cases m with
    | var w hw =>
      have hsp : ' ' ∈ w := by
        rw [show w = "_: ".toList ++ l from h.symm]
        simp
      exact absurd hsp hw
    | blank l' =>
      obtain rfl : l = l' := List.append_cancel_left h
      rfl

theorem key_injective : Function.Injective fun n : PatName => bindingKey n.term :=
  fun _ _ h => bindingKey_injective h

/-- A mapping as a valuation of keys, empty on what is no key of a name. -/
noncomputable def keyed (μ : Mapping) : Text → Option Term :=
  Function.extend (fun n : PatName => bindingKey n.term) μ fun _ => none

theorem keyed_key (μ : Mapping) (n : PatName) : keyed μ (bindingKey n.term) = μ n :=
  key_injective.extend_apply μ _ n

variable {μ : Mapping} {k : Text} {p : PatTriple} {ps : List PatTriple} {graph : List Triple}
  {b : Binding}

theorem keyed_isSome_iff :
    (keyed μ k).isSome = true ↔ ∃ n, (μ n).isSome = true ∧ bindingKey n.term = k := by
  by_cases hk : ∃ n : PatName, bindingKey n.term = k
  · obtain ⟨n, rfl⟩ := hk
    rw [keyed_key]
    constructor
    · intro hn
      exact ⟨n, hn, rfl⟩
    · rintro ⟨m, hm, hkey⟩
      rwa [← bindingKey_injective hkey]
  · rw [keyed, Function.extend_apply' _ _ _ hk]
    constructor
    · intro h
      cases h
    · rintro ⟨n, -, hkey⟩
      exact absurd ⟨n, hkey⟩ hk

/-- The pattern term as a position of a search. -/
def PatTerm.slot : PatTerm → Slot Text Term
  | .term t => .const t
  | p => .hole (bindingKey p)

def PatTriple.slots (p : PatTriple) : List (Slot Text Term) :=
  [p.subject.slot, p.predicate.slot, p.object.slot]

def tripleRow (t : Triple) : List Term := [t.subject.asTerm, .namedNode t.predicate, t.object]

theorem mem_patTripleVars {v : Text} :
    v ∈ patTripleVars p ↔ PatTerm.var v ∈ p.terms := by
  unfold patTripleVars
  rw [List.mem_filterMap]
  constructor
  · rintro ⟨x, hx, hv⟩
    cases x with
    | var w =>
      obtain rfl := Option.some.inj hv
      exact hx
    | term t => cases hv
    | whereBlank l => cases hv
  · intro hv
    exact ⟨.var v, hv, rfl⟩

/-- A term of a pattern with plain variables is concrete or the term of a name. -/
theorem PatTerm.concrete_or_name {x : PatTerm} (hx : x ∈ p.terms)
    (hp : ∀ v ∈ patTripleVars p, ' ' ∉ v) : (∃ t, x = .term t) ∨ ∃ n : PatName, x = n.term := by
  cases x with
  | term t => exact .inl ⟨t, rfl⟩
  | var v => exact .inr ⟨.var v (hp v (mem_patTripleVars.mpr hx)), rfl⟩
  | whereBlank l => exact .inr ⟨.blank l, rfl⟩

theorem PatName.slot_term (n : PatName) : n.term.slot = .hole (bindingKey n.term) := by
  cases n <;> rfl

theorem PatName.term_ne (n : PatName) (t : Term) : n.term ≠ .term t := by
  cases n <;> simp [PatName.term]

theorem PatName.term_injective {n m : PatName} (h : n.term = m.term) : n = m :=
  bindingKey_injective (congrArg bindingKey h)

/-- A position holds under a valuation of keys as the pattern term denotes under the mapping of
names it induces. -/
theorem PatTerm.holds_iff {x : PatTerm} {t : Term} {f : Text → Option Term}
    (hf : ∀ n : PatName, f (bindingKey n.term) = μ n) (hx : x ∈ p.terms)
    (hp : ∀ v ∈ patTripleVars p, ' ' ∉ v) : x.slot.Holds f t ↔ x.Denotes μ t := by
  rcases PatTerm.concrete_or_name hx hp with ⟨c, rfl⟩ | ⟨n, rfl⟩
  · constructor
    · intro h
      exact .inl (congrArg PatTerm.term h)
    · rintro (h | ⟨n, h, -⟩)
      · exact PatTerm.term.inj h
      · exact absurd h.symm (n.term_ne c)
  · rw [PatName.slot_term]
    constructor
    · intro h
      exact .inr ⟨n, rfl, (hf n).symm.trans h⟩
    · rintro (h | ⟨m, h, hm⟩)
      · exact absurd h (n.term_ne t)
      · obtain rfl := PatName.term_injective h
        exact (hf n).trans hm

theorem PatTriple.isRow_iff {t : Triple} {f : Text → Option Term}
    (hf : ∀ n : PatName, f (bindingKey n.term) = μ n) (hp : ∀ v ∈ patTripleVars p, ' ' ∉ v) :
    IsRow f p.slots (tripleRow t) ↔ p.Denotes μ t := by
  unfold IsRow PatTriple.slots tripleRow PatTriple.Denotes
  simp only [List.forall₂_cons, List.forall₂_nil_left_iff, and_true]
  rw [PatTerm.holds_iff hf (p := p) (by simp [PatTriple.terms]) hp,
    PatTerm.holds_iff hf (p := p) (by simp [PatTriple.terms]) hp,
    PatTerm.holds_iff hf (p := p) (by simp [PatTriple.terms]) hp]

/-- The keys of the patterns are those of their names. -/
theorem mem_holes_iff (hps : PlainVars ps) :
    k ∈ (ps.map PatTriple.slots).flatMap holes ↔ ∃ n, HasName ps n ∧ bindingKey n.term = k := by
  have hslots : ∀ p : PatTriple, p.slots = p.terms.map PatTerm.slot := fun _ => rfl
  constructor
  · intro hk
    obtain ⟨ss, hss, hk⟩ := List.mem_flatMap.mp hk
    obtain ⟨p, hp, rfl⟩ := List.mem_map.mp hss
    obtain ⟨s, hs, hsk⟩ := List.mem_filterMap.mp hk
    rw [hslots] at hs
    obtain ⟨x, hx, rfl⟩ := List.mem_map.mp hs
    rcases PatTerm.concrete_or_name hx (hps p hp) with ⟨t, rfl⟩ | ⟨n, rfl⟩
    · cases hsk
    · rw [PatName.slot_term] at hsk
      exact ⟨n, ⟨p, hp, hx⟩, Option.some.inj hsk⟩
  · rintro ⟨n, ⟨p, hp, hn⟩, rfl⟩
    refine List.mem_flatMap.mpr ⟨p.slots, List.mem_map_of_mem hp, ?_⟩
    refine List.mem_filterMap.mpr ⟨n.term.slot, ?_, ?_⟩
    · exact List.mem_map_of_mem hn
    · rw [PatName.slot_term]

/-! ## §3 The solver is the search -/

theorem unifyTerm_eq (x : PatTerm) (t : Term) (b : Binding) :
    unifyTerm x t b = x.slot.unify t b := by
  cases x with
  | term c => rfl
  | var v =>
    simp only [unifyTerm, bindingKey, PatTerm.slot, Slot.unify]
    cases b.lookup v <;> rfl
  | whereBlank l =>
    simp only [unifyTerm, bindingKey, PatTerm.slot, Slot.unify]
    cases b.lookup ("_: ".toList ++ l) <;> rfl

theorem unifyTriple_eq (p : PatTriple) (t : Triple) (b : Binding) :
    unifyTriple p t b = unifyRow p.slots (tripleRow t) b := by
  unfold unifyTriple PatTriple.slots tripleRow
  simp only [unifyTerm_eq, unifyRow, bind]
  cases p.subject.slot.unify t.subject.asTerm b with
  | none => rfl
  | some c =>
    simp only [Option.bind_some]
    cases p.predicate.slot.unify (.namedNode t.predicate) c with
    | none => rfl
    | some d =>
      simp only [Option.bind_some]
      cases p.object.slot.unify t.object d <;> rfl

/-- The backtracking join collects the results of the search, each once. -/
theorem solveFrom_eq (graph : List Triple) (ps : List PatTriple) (b : Binding)
    (out : List Binding) :
    solveFrom graph ps b out =
      (search (graph.map tripleRow) (ps.map PatTriple.slots) b).foldl appendNew out := by
  induction ps generalizing b out with
  | nil => rfl
  | cons p ps ih =>
    rw [solveFrom, List.map_cons, search, List.foldl_flatMap, List.foldl_map]
    congr 1
    funext acc t
    rw [unifyTriple_eq]
    cases unifyRow p.slots (tripleRow t) b with
    | none => rfl
    | some c => exact ih c acc

theorem solveBgp_eq (ps : List PatTriple) (graph : List Triple) :
    solveBgp ps graph =
      (search (graph.map tripleRow) (ps.map PatTriple.slots) ∅).foldl appendNew [] :=
  solveFrom_eq graph ps ∅ []

theorem mem_solveBgp_iff_search :
    b ∈ solveBgp ps graph ↔ b ∈ search (graph.map tripleRow) (ps.map PatTriple.slots) ∅ := by
  rw [solveBgp_eq, mem_foldl_appendNew]
  simp

/-- The bindings of the solver bind the keys of the patterns' names and nothing else. -/
theorem mem_of_solveBgp (hps : PlainVars ps) (hb : b ∈ solveBgp ps graph) :
    k ∈ b ↔ ∃ n, HasName ps n ∧ bindingKey n.term = k := by
  rw [← mem_holes_iff hps]
  exact mem_keys_of_search (mem_solveBgp_iff_search.mp hb)

/-- **The solver finds the solutions.** -/
theorem mem_solveBgp (hps : PlainVars ps) :
    (∃ b ∈ solveBgp ps graph, Binding.mapping b = μ) ↔ Solution ps graph μ := by
  constructor
  · rintro ⟨b, hb, rfl⟩
    obtain ⟨-, hrows, -⟩ := search_sound (mem_solveBgp_iff_search.mp hb)
    refine ⟨fun n => ?_, fun p hp => ?_⟩
    · rw [show (b.mapping n).isSome = true ↔ bindingKey n.term ∈ b from AList.lookup_isSome,
        mem_of_solveBgp hps hb]
      constructor
      · rintro ⟨m, hm, hkey⟩
        rwa [← bindingKey_injective hkey]
      · intro hn
        exact ⟨n, hn, rfl⟩
    · obtain ⟨r, hr, hrow⟩ := hrows p.slots (List.mem_map_of_mem hp)
      obtain ⟨t, ht, rfl⟩ := List.mem_map.mp hr
      exact ⟨t, ht, (PatTriple.isRow_iff (fun _ => rfl) (hps p hp)).mp hrow⟩
  · intro hμ
    have hfound : ∃ b ∈ search (graph.map tripleRow) (ps.map PatTriple.slots) ∅,
        Assignment.val b = keyed μ := by
      apply mem_search_iff.mpr
      refine ⟨fun k => ?_, fun ss hss => ?_⟩
      · rw [mem_holes_iff hps, keyed_isSome_iff]
        simp only [hμ.names]
      · obtain ⟨p, hp, rfl⟩ := List.mem_map.mp hss
        obtain ⟨t, ht, hden⟩ := hμ.occurs p hp
        exact ⟨tripleRow t, List.mem_map_of_mem ht,
          (PatTriple.isRow_iff (keyed_key μ) (hps p hp)).mpr hden⟩
    obtain ⟨b, hb, hval⟩ := hfound
    refine ⟨b, mem_solveBgp_iff_search.mpr hb, funext fun n => ?_⟩
    exact (congrFun hval (bindingKey n.term)).trans (keyed_key μ n)

/-- Two bindings of the solver with the same mapping are the same binding. -/
theorem mapping_injective {c : Binding} (hps : PlainVars ps) (hb : b ∈ solveBgp ps graph)
    (hc : c ∈ solveBgp ps graph) (h : Binding.mapping b = Binding.mapping c) : b = c := by
  apply search_injective (mem_solveBgp_iff_search.mp hb) (mem_solveBgp_iff_search.mp hc)
  funext k
  by_cases hk : ∃ n, HasName ps n ∧ bindingKey n.term = k
  · obtain ⟨n, -, rfl⟩ := hk
    exact congrFun h n
  · have hnone : ∀ {d : Binding}, d ∈ solveBgp ps graph → d.lookup k = none := fun hd =>
      AList.lookup_eq_none.mpr fun hmem => hk ((mem_of_solveBgp hps hd).mp hmem)
    exact (hnone hb).trans (hnone hc).symm

theorem nodup_solveBgp (ps : List PatTriple) (graph : List Triple) :
    (solveBgp ps graph).Nodup := by
  rw [solveBgp_eq]
  exact nodup_foldl_appendNew List.nodup_nil

/-- A solution is one for the same patterns and the same triples in any order. -/
theorem Solution.congr {ps' : List PatTriple} {graph' : List Triple} (hps : ∀ p, p ∈ ps' ↔ p ∈ ps)
    (hgraph : ∀ t, t ∈ graph' ↔ t ∈ graph) (h : Solution ps graph μ) : Solution ps' graph' μ := by
  refine ⟨fun n => ?_, fun p hp => ?_⟩
  · rw [h.names]
    simp only [HasName, hps]
  · obtain ⟨t, ht, hden⟩ := h.occurs p ((hps p).mp hp)
    exact ⟨t, (hgraph t).mpr ht, hden⟩

/-- **The conditions are solved correctly**: the solver returns, without duplicates, exactly the
solutions, whatever the order of the conditions and the order and repetition of the triples. -/
theorem solveBgp_correct (ps : List PatTriple) (graph : List Triple) (hps : PlainVars ps) :
    ((solveBgp ps graph).map Binding.mapping).Nodup ∧
      (∀ b ∈ solveBgp ps graph, ∀ k, k ∈ b ↔ ∃ n, HasName ps n ∧ bindingKey n.term = k) ∧
      (∀ μ, μ ∈ (solveBgp ps graph).map Binding.mapping ↔ Solution ps graph μ) ∧
      ∀ ps' graph', ps'.Perm ps → (∀ t, t ∈ graph' ↔ t ∈ graph) → ∀ μ,
        μ ∈ (solveBgp ps' graph').map Binding.mapping ↔
          μ ∈ (solveBgp ps graph).map Binding.mapping := by
  have hmem : ∀ {qs : List PatTriple} {g : List Triple} {μ : Mapping}, PlainVars qs →
      (μ ∈ (solveBgp qs g).map Binding.mapping ↔ Solution qs g μ) := by
    intro qs g μ hqs
    rw [List.mem_map]
    exact mem_solveBgp hqs
  refine ⟨?_, fun b hb k => mem_of_solveBgp hps hb, fun μ => hmem hps, ?_⟩
  · refine List.Nodup.map_on ?_ (nodup_solveBgp ps graph)
    intro b hb c hc h
    exact mapping_injective hps hb hc h
  · intro ps' graph' hperm hgraph μ
    have hps' : PlainVars ps' := fun p hp => hps p (hperm.mem_iff.mp hp)
    rw [hmem hps', hmem hps]
    constructor
    · exact Solution.congr (fun p => hperm.mem_iff.symm) fun t => (hgraph t).symm
    · exact Solution.congr (fun p => hperm.mem_iff) hgraph

/-- Somebody known by the variable, an existential with the variable's label. -/
def knowsSomeone : PatTriple :=
  ⟨.var "x".toList, .term (.namedNode "http://h/knows".toList), .whereBlank "x".toList⟩

/-- One person who knows two others. -/
def acquaintances : List Triple :=
  ["http://h/b", "http://h/c"].map fun other =>
    ⟨.namedNode "http://h/a".toList, "http://h/knows".toList, .namedNode other.toList⟩

theorem plainVars_knowsSomeone : PlainVars [knowsSomeone] := by
  unfold PlainVars
  decide

/-- Results of the search that differ in their entries are the bindings of the solver. -/
theorem solveBgp_of_entries {entries : List (List (Sigma fun _ : Text => Term))}
    (h : (search (graph.map tripleRow) (ps.map PatTriple.slots) ∅).map AList.entries = entries)
    (hnodup : entries.Nodup) : (solveBgp ps graph).map AList.entries = entries := by
  rw [← h] at hnodup
  rw [solveBgp_eq, foldl_appendNew_of_nodup hnodup.of_map]
  exact h

theorem solveBgp_knowsSomeone :
    (solveBgp [knowsSomeone] acquaintances).map AList.entries =
      [[⟨"_: x".toList, .namedNode "http://h/b".toList⟩,
          ⟨"x".toList, .namedNode "http://h/a".toList⟩],
        [⟨"_: x".toList, .namedNode "http://h/c".toList⟩,
          ⟨"x".toList, .namedNode "http://h/a".toList⟩]] :=
  solveBgp_of_entries (by decide) (by decide)

theorem solveBgp_correct_sameLabel :
    PlainVars [knowsSomeone] ∧ (solveBgp [knowsSomeone] acquaintances).length = 2 ∧
      ((solveBgp [knowsSomeone] acquaintances).map Binding.mapping).Nodup := by
  refine ⟨plainVars_knowsSomeone, ?_,
    (solveBgp_correct [knowsSomeone] acquaintances plainVars_knowsSomeone).1⟩
  rw [← List.length_map AList.entries, solveBgp_knowsSomeone]
  rfl

end SolidServer.Ldp
