import SolidServer.Ldp.Content
import SolidServer.Store.Cache

/-!
# The patch engine

The two patch languages (`ldp/patch.rs`): a Solid N3 Patch with its `where`
conditions, and the `INSERT DATA` / `DELETE DATA` part of SPARQL Update, both parsed
to one shape and applied to a graph.

`applyPatch_ok` says what a patched graph holds: the old triples without the deleted
ones, and the inserted ones.
-/

namespace SolidServer.Ldp

/-! ## §1 Patterns -/

/-- A term of a pattern: concrete, a variable, or an existential of the `where` formula. -/
inductive PatTerm where
  | term (t : Term)
  | var (name : Text)
  | whereBlank (label : Text)
  deriving DecidableEq

structure PatTriple where
  subject : PatTerm
  predicate : PatTerm
  object : PatTerm
  deriving DecidableEq

structure N3Patch where
  conditions : List PatTriple
  deletes : List PatTriple
  inserts : List PatTriple
  deriving DecidableEq

/-! ## §2 The N3 Patch document -/

def solidTerm (local_ : String) : Iri := "http://www.w3.org/ns/solid/terms#".toList ++ local_.toList

inductive FormulaKind where
  | where_
  | template
  deriving DecidableEq

inductive Position where
  | subject | predicate | object
  deriving DecidableEq

def unprocessable {α : Type} (msg : String) : Except ServerError α :=
  .error (.unprocessablePatch msg.toList)

/-- `formula_graph`: the graph a formula's triples live in. -/
def formulaGraph : N3Term → Except ServerError GraphName
  | .blankNode b => .ok (.blankNode b)
  | .namedNode n => .ok (.namedNode n)
  | _ => unprocessable "solid:inserts/deletes/where object must be a formula"

/-- `pat_term`: what may stand in which position of which formula. -/
def patTerm (t : N3Term) (kind : FormulaKind) (pos : Position) : Except ServerError PatTerm :=
  match t with
  | .namedNode n => .ok (.term (.namedNode n))
  | .literal l =>
    match pos with
    | .object => .ok (.term (.literal l))
    | .subject => unprocessable "a patch triple subject cannot be a literal"
    | .predicate => unprocessable "a patch triple predicate must be an IRI"
  | .blankNode b =>
    match kind, pos with
    | .template, _ => unprocessable "blank nodes are not allowed in solid:inserts / solid:deletes"
    | .where_, .predicate => unprocessable "a patch triple predicate must be an IRI"
    | .where_, _ => .ok (.whereBlank b)
  | .variable v => .ok (.var v)

def patTriple (kind : FormulaKind) (q : N3Quad) : Except ServerError PatTriple := do
  let subject ← patTerm q.subject kind .subject
  let predicate ← patTerm q.predicate kind .predicate
  let object ← patTerm q.object kind .object
  pure ⟨subject, predicate, object⟩

/-- `pattern_triples`: the patterns of a formula graph. -/
def patternTriples (quads : List N3Quad) (graph : GraphName) (kind : FormulaKind) :
    Except ServerError (List PatTriple) :=
  (quads.filter fun q => q.graphName = graph).mapM (patTriple kind)

/-- The patterns of an optional formula. -/
def formulaTriples (quads : List N3Quad) (formula : Option GraphName) (kind : FormulaKind) :
    Except ServerError (List PatTriple) :=
  match formula with
  | some g => patternTriples quads g kind
  | none => .ok []

/-- The formulas the patch description refers to. -/
structure Formulas where
  inserts : Option GraphName
  deletes : Option GraphName
  conditions : Option GraphName

/-- One statement of the patch description; a later formula replaces an earlier one. -/
def describe (f : Formulas) (q : N3Quad) : Except ServerError Formulas :=
  match q.predicate with
  | .namedNode p =>
    if p = solidTerm "inserts" then (formulaGraph q.object).map fun g => { f with inserts := some g }
    else if p = solidTerm "deletes" then
      (formulaGraph q.object).map fun g => { f with deletes := some g }
    else if p = solidTerm "where" then
      (formulaGraph q.object).map fun g => { f with conditions := some g }
    else .ok f
  | _ => unprocessable "patch description predicate must be an IRI"

/-- `pat_triple_vars`: the named variables of a pattern. -/
def patTripleVars (t : PatTriple) : List Text :=
  [t.subject, t.predicate, t.object].filterMap fun
    | .var v => some v
    | _ => none

/-- The first template variable that no condition binds. -/
def freeVar? (conditions templates : List PatTriple) : Option Text :=
  (templates.flatMap patTripleVars).find? fun v => v ∉ conditions.flatMap patTripleVars

section
variable (codec : RdfCodec)

def parseN3Patch (body : Bytes) (baseIri : Iri) : Except ServerError N3Patch :=
  match codec.badBase baseIri with
  | some e => .error (.badRequest ("invalid base IRI: ".toList ++ e))
  | none =>
    match codec.parseN3 baseIri body with
    | .error e => .error (.unprocessablePatch ("invalid N3: ".toList ++ e))
    | .ok quads => do
      let description := quads.filter fun q => q.graphName = .defaultGraph
      let formulas ← description.foldlM describe ⟨none, none, none⟩
      let conditions ← formulaTriples quads formulas.conditions .where_
      let deletes ← formulaTriples quads formulas.deletes .template
      let inserts ← formulaTriples quads formulas.inserts .template
      if deletes.isEmpty && inserts.isEmpty then
        unprocessable "an N3 patch must specify at least one of solid:inserts / solid:deletes"
      else
        match freeVar? conditions (deletes ++ inserts) with
        | some v =>
          .error (.unprocessablePatch ("variable ?".toList ++ v ++
            " appears in solid:inserts/deletes but not in solid:where".toList))
        | none => pure ⟨conditions, deletes, inserts⟩

/-! ## §3 SPARQL Update -/

inductive PatchKind where
  | n3
  | sparqlUpdate
  deriving DecidableEq, Repr

def classifyPatchMediaType (contentType : Option Text) : Except ServerError PatchKind :=
  match contentType with
  | none => .error (.badRequest "missing PATCH content-type".toList)
  | some raw =>
    if essence raw = "text/n3".toList then .ok .n3
    else if essence raw = "application/sparql-update".toList then .ok .sparqlUpdate
    else .error (.unsupportedMediaType (essence raw))

/-- `parse_to_concrete_triples`: the ground triples of a data block. -/
def parseToConcreteTriples (group : Text) (baseIri : Iri) : Except ServerError (List PatTriple) :=
  match codec.badBase baseIri with
  | some e => .error (.badRequest ("invalid base IRI: ".toList ++ e))
  | none =>
    match codec.parseTurtle baseIri group.utf8 with
    | .error e => .error (.unprocessablePatch ("invalid SPARQL-Update DATA triple: ".toList ++ e))
    | .ok ts =>
      .ok (ts.map fun t => ⟨.term t.subject.asTerm, .term (.namedNode t.predicate), .term t.object⟩)

/-- A prologue line as a Turtle directive. -/
def turtleDirective (line : Text) : Text :=
  let line := Text.trim line
  let close := fun s : Text => Text.trim (Text.trimEndMatches s '.')
  if Text.startsWith line ['@'] then close line ++ " .\n".toList
  else
    let kw := line.takeWhile fun c => !Text.isWhitespace c
    let body := line.drop (kw.length + 1)
    "@".toList ++ Text.toAsciiLowercase kw ++ " ".toList ++ close (Text.trim body) ++ " .\n".toList

/-- Past white space and at most one operation separator. -/
def skipSeparator (text : Text) : Text :=
  let text := Text.trimStart text
  match Text.stripPrefix? text [';'] with
  | some rest => Text.trimStart rest
  | none => text

/-- What the scan has collected. -/
structure SparqlScan where
  prologue : Text
  inserts : List PatTriple
  deletes : List PatTriple
  sawAny : Bool

/-- The scanning loop over the rest of the text; every round consumes at least a keyword. -/
def scanSparql (baseIri : Iri) : Nat → Text → SparqlScan → Except ServerError SparqlScan
  | 0, _, scan => .ok scan
  | fuel + 1, text, scan =>
    let text := skipSeparator text
    let lower := Text.toAsciiLowercase text
    if text = [] then .ok scan
    else if ["prefix", "base", "@prefix", "@base"].any fun kw => Text.startsWith lower kw.toList then
      let line := text.takeWhile (· ≠ '\n')
      scanSparql baseIri fuel (text.drop line.length)
        { scan with prologue := scan.prologue ++ turtleDirective line }
    else
      match (if Text.startsWith lower "insert data".toList then some false
        else if Text.startsWith lower "delete data".toList then some true else none) with
      | none => unprocessable "only INSERT DATA / DELETE DATA SPARQL-Update is supported"
      | some isDelete =>
        match Text.splitOnce (text.drop 11) '\x7b' with
        | none => unprocessable "SPARQL-Update DATA block missing '\x7b'"
        | some (_, afterOpen) =>
          match Text.splitOnce afterOpen '\x7d' with
          | none => unprocessable "SPARQL-Update DATA block missing '\x7d'"
          | some (group, rest) =>
            match parseToConcreteTriples codec (scan.prologue ++ group) baseIri with
            | .error e => .error e
            | .ok triples =>
              scanSparql baseIri fuel rest
                { scan with
                  inserts := if isDelete then scan.inserts else scan.inserts ++ triples
                  deletes := if isDelete then scan.deletes ++ triples else scan.deletes
                  sawAny := true }

def parseSparqlUpdate (body : Bytes) (baseIri : Iri) : Except ServerError N3Patch :=
  match Text.ofUtf8? body with
  | none => unprocessable "SPARQL-Update must be UTF-8"
  | some text =>
    match scanSparql codec baseIri (text.length + 1) text ⟨[], [], [], false⟩ with
    | .error e => .error e
    | .ok scan =>
      if !scan.sawAny || (scan.inserts.isEmpty && scan.deletes.isEmpty) then
        unprocessable "SPARQL-Update must contain a non-empty INSERT DATA / DELETE DATA"
      else .ok ⟨[], scan.deletes, scan.inserts⟩

end

/-! ## §4 Solving the conditions -/

/-- A variable binding.  Every solution of one set of conditions binds its keys in the same
order, so equal maps are equal lists of entries. -/
abbrev Binding := Dict Text Term

/-- `binding_key`: variables and existentials in disjoint namespaces. -/
def bindingKey : PatTerm → Text
  | .var v => v
  | .whereBlank label => "_: ".toList ++ label
  | .term _ => []

def unifyTerm (pat : PatTerm) (concrete : Term) (b : Binding) : Option Binding :=
  match pat with
  | .term expected => if expected = concrete then some b else none
  | _ =>
    match b.lookup (bindingKey pat) with
    | some already => if already = concrete then some b else none
    | none => some (b.insert (bindingKey pat) concrete)

def unifyTriple (pat : PatTriple) (t : Triple) (b : Binding) : Option Binding := do
  let b ← unifyTerm pat.subject t.subject.asTerm b
  let b ← unifyTerm pat.predicate (.namedNode t.predicate) b
  unifyTerm pat.object t.object b

/-- `solve_from`: the backtracking join, collecting distinct solutions. -/
def solveFrom (graph : List Triple) : List PatTriple → Binding → List Binding → List Binding
  | [], b, out => if b ∈ out then out else out ++ [b]
  | pat :: pats, b, out =>
    graph.foldl (fun out t =>
      match unifyTriple pat t b with
      | some extended => solveFrom graph pats extended out
      | none => out) out

def solveBgp (patterns : List PatTriple) (graph : List Triple) : List Binding :=
  solveFrom graph patterns ∅ []

/-! ## §5 Applying a patch -/

def resolve (pat : PatTerm) (b : Binding) : Except ServerError Term :=
  match pat with
  | .term t => .ok t
  | .var v =>
    match b.lookup v with
    | some t => .ok t
    | none =>
      .error (.unprocessablePatch ("variable ?".toList ++ v ++
        " in a template was not bound by solid:where".toList))
  | .whereBlank label =>
    .error (.unprocessablePatch ("blank node _:".toList ++ label ++
      " unexpectedly reached a template (internal invariant)".toList))

def instantiate (b : Binding) (pat : PatTriple) : Except ServerError Triple := do
  let subject ← match ← resolve pat.subject b with
    | .namedNode n => pure (NamedOrBlankNode.namedNode n)
    | .blankNode l => pure (NamedOrBlankNode.blankNode l)
    | .literal _ => unprocessable "a patch triple subject cannot be a literal"
  let predicate ← match ← resolve pat.predicate b with
    | .namedNode n => pure n
    | _ => unprocessable "a patch triple predicate must be an IRI"
  let object ← resolve pat.object b
  pure ⟨subject, predicate, object⟩

def instantiateAll (template : List PatTriple) (b : Binding) : Except ServerError (List Triple) :=
  template.mapM (instantiate b)

/-- The binding a patch is applied under: exactly one solution of its conditions. -/
def patchBinding (existing : List Triple) (patch : N3Patch) : Except ServerError Binding :=
  if patch.conditions = [] then .ok ∅
  else
    match solveBgp patch.conditions existing with
    | [b] => .ok b
    | [] =>
      .error (.conflict "the solid:where clause has no solution against the target graph".toList)
    | _ =>
      .error (.conflict
        "the solid:where clause has multiple solutions; exactly one is required".toList)

/-- `push` unless already there. -/
def pushNew (result : List Triple) (t : Triple) : List Triple :=
  if t ∈ result then result else result ++ [t]

def applyPatch (existing : List Triple) (patch : N3Patch) : Except ServerError (List Triple) := do
  let binding ← patchBinding existing patch
  let deletes ← instantiateAll patch.deletes binding
  let inserts ← instantiateAll patch.inserts binding
  if deletes.all (· ∈ existing) then
    pure (inserts.foldl pushNew ((existing.filter (· ∉ deletes)).foldl pushNew []))
  else throw (.conflict "a solid:deletes triple is not present in the resource".toList)

/-! ## §6 What a patched graph holds -/

theorem mem_foldl_pushNew {t : Triple} (ts : List Triple) (acc : List Triple) :
    t ∈ ts.foldl pushNew acc ↔ t ∈ acc ∨ t ∈ ts := by
  induction ts generalizing acc with
  | nil => simp
  | cons x ts ih =>
    have hpush : t ∈ pushNew acc x ↔ t ∈ acc ∨ t = x := by
      unfold pushNew
      split_ifs with hx
      · constructor
        · exact .inl
        · rintro (h | rfl)
          · exact h
          · exact hx
      · simp
    rw [List.foldl_cons, ih, hpush, List.mem_cons, or_assoc]

/-- **Applying a patch**: it fails before the graph is rebuilt, or it removes the instantiated
deletes, all of which were there, and adds the instantiated inserts. -/
theorem applyPatch_ok {existing result : List Triple} {patch : N3Patch}
    (h : applyPatch existing patch = .ok result) :
    ∃ b deletes inserts, patchBinding existing patch = .ok b ∧
      instantiateAll patch.deletes b = .ok deletes ∧
      instantiateAll patch.inserts b = .ok inserts ∧ (∀ t ∈ deletes, t ∈ existing) ∧
      ∀ t, t ∈ result ↔ (t ∈ existing ∧ t ∉ deletes) ∨ t ∈ inserts := by
  unfold applyPatch at h
  cases hb : patchBinding existing patch with
  | error e => simp [hb, bind, Except.bind] at h
  | ok b =>
    cases hd : instantiateAll patch.deletes b with
    | error e => simp [hb, hd, bind, Except.bind] at h
    | ok deletes =>
      cases hi : instantiateAll patch.inserts b with
      | error e => simp [hb, hd, hi, bind, Except.bind] at h
      | ok inserts =>
        simp only [hb, hd, hi, bind, Except.bind] at h
        split_ifs at h with hall
        obtain rfl := Except.ok.inj h
        refine ⟨b, deletes, inserts, rfl, hd, hi, by simpa using hall, fun t => ?_⟩
        rw [mem_foldl_pushNew, mem_foldl_pushNew]
        simp

/-- A patch without deletes keeps every triple of the graph. -/
theorem mem_applyPatch_of_insert_only {existing result : List Triple} {patch : N3Patch}
    (hdel : patch.deletes = []) (h : applyPatch existing patch = .ok result) {t : Triple}
    (ht : t ∈ existing) : t ∈ result := by
  obtain ⟨b, deletes, inserts, -, hd, -, -, hmem⟩ := applyPatch_ok h
  obtain rfl : deletes = [] := by
    rw [hdel] at hd
    exact (Except.ok.inj hd).symm
  exact (hmem t).mpr (.inl ⟨ht, by simp⟩)

end SolidServer.Ldp
