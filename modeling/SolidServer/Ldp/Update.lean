import SolidServer.Ldp.Applying
import SolidServer.Text.Trim

/-!
# SPARQL Update requests

A request as the grammar has it: white space, comments, separators, declarations and
operations, each with its text.  The scanner of `ldp/patch.rs` works on the text alone;
this module follows it along the elements.

`operations_in_order_iff` says when the one delete set and the one insert set that the
scanner collects have the effect of the operations in their order.
-/

namespace SolidServer.Ldp

open SolidServer.Query

/-! ## §1 Requests -/

/-- White space of the grammar. -/
def isBlank (c : Char) : Bool := c = ' ' || c = '\t' || c = '\r' || c = '\n'

/-- White space and comments, as they stand between two tokens. -/
inductive IsGap : Text → Prop where
  | nil : IsGap []
  /-- One character of white space. -/
  | blank {c : Char} {rest : Text} : isBlank c = true → IsGap rest → IsGap (c :: rest)
  /-- A comment up to and including its line end. -/
  | comment {body rest : Text} {eol : Char} : '\n' ∉ body → '\r' ∉ body →
      (eol = '\n' ∨ eol = '\r') → IsGap rest → IsGap ('#' :: body ++ eol :: rest)

/-- A declaration of the prologue, with its keyword as written. -/
inductive Declaration where
  /-- `PREFIX ns: <iri>`. -/
  | prefixed (keyword gap ns gap' iri : Text)
  /-- `BASE <iri>`. -/
  | base (keyword gap iri : Text)

/-- A data operation: `verb sep data gap`, then the block in braces. -/
structure DataOperation where
  isDelete : Bool
  verb : Text
  sep : Text
  data : Text
  gap : Text
  block : Text

/-- An element of a request.  Any other operation is kept with all that follows it. -/
inductive Element where
  | blank (c : Char)
  | separator
  | comment (body : Text)
  | declaration (d : Declaration)
  | data (o : DataOperation)
  | other (rest : Text)

def Declaration.text : Declaration → Text
  | .prefixed keyword gap ns gap' iri => keyword ++ gap ++ ns ++ gap' ++ '<' :: iri ++ ['>']
  | .base keyword gap iri => keyword ++ gap ++ '<' :: iri ++ ['>']

/-- The declaration as a Turtle directive. -/
def Declaration.turtle : Declaration → Text
  | .prefixed _ _ ns gap' iri => "@prefix ".toList ++ (ns ++ gap' ++ '<' :: iri ++ ['>']) ++ " .\n".toList
  | .base _ _ iri => "@base ".toList ++ ('<' :: iri ++ ['>']) ++ " .\n".toList

def DataOperation.text (o : DataOperation) : Text :=
  o.verb ++ o.sep ++ o.data ++ o.gap ++ '\x7b' :: o.block ++ ['\x7d']

def Element.text : Element → Text
  | .blank c => [c]
  | .separator => [';']
  | .comment body => '#' :: body
  | .declaration d => d.text
  | .data o => o.text
  | .other rest => rest

def requestText (es : List Element) : Text := es.flatMap Element.text

/-! ## §2 Well-formed elements -/

/-- A character of a namespace prefix. -/
def isNsChar (c : Char) : Bool :=
  !Text.isWhitespace c && c ∉ ['<', '>', '"', '\'', '#', '\\', '\x7b', '\x7d']

structure Declaration.Shape (keyword word gap iri : Text) : Prop where
  keyword : Text.toAsciiLowercase keyword = word
  gap : IsGap gap
  iri : '>' ∉ iri

def Declaration.Ok : Declaration → Prop
  | .prefixed keyword gap ns gap' iri =>
    Declaration.Shape keyword "prefix".toList gap iri ∧ gap ≠ [] ∧ IsGap gap' ∧ ns ≠ [] ∧
      ns.all isNsChar = true
  | .base keyword gap iri => Declaration.Shape keyword "base".toList gap iri

/-- The word of a data operation. -/
def DataOperation.word (o : DataOperation) : Text :=
  if o.isDelete then "delete".toList else "insert".toList

structure DataOperation.Ok (o : DataOperation) : Prop where
  verb : Text.toAsciiLowercase o.verb = o.word
  sep : IsGap o.sep
  parted : o.sep ≠ []
  data : Text.toAsciiLowercase o.data = "data".toList
  gap : IsGap o.gap

/-- How an operation other than `INSERT DATA` and `DELETE DATA` begins. -/
inductive OtherHead : Text → Prop where
  /-- A keyword of its own. -/
  | keyword {word rest : Text} :
      Text.toAsciiLowercase word ∈
        ["load", "clear", "drop", "create", "add", "move", "copy", "with"].map String.toList →
      OtherHead (word ++ rest)
  /-- A template in braces after `INSERT` or `DELETE`. -/
  | template {verb gap rest : Text} :
      Text.toAsciiLowercase verb ∈ ["insert".toList, "delete".toList] → IsGap gap →
      OtherHead (verb ++ gap ++ '\x7b' :: rest)
  /-- `DELETE WHERE`. -/
  | deleteWhere {verb gap word rest : Text} : Text.toAsciiLowercase verb = "delete".toList →
      IsGap gap → gap ≠ [] → Text.toAsciiLowercase word = "where".toList →
      OtherHead (verb ++ gap ++ word ++ rest)

def Element.Ok : Element → Prop
  | .blank c => isBlank c = true
  | .separator => True
  | .comment body => '\n' ∉ body ∧ '\r' ∉ body
  | .declaration d => d.Ok
  | .data o => o.Ok
  | .other rest => OtherHead rest

/-- A request: the grammar's requests are among these, in whatever order elements stand. -/
def UpdateRequest (es : List Element) : Prop := ∀ e ∈ es, e.Ok

/-- Only white space up to the end of the line. -/
def EndsLine : List Element → Prop
  | [] => True
  | .blank c :: rest => c = '\n' ∨ EndsLine rest
  | _ => False

/-- A declaration on one line, its keyword followed by white space and no comment inside. -/
def Declaration.OneLine : Declaration → Prop
  | .prefixed _ gap _ gap' iri =>
    (gap.all isBlank = true ∧ '\n' ∉ gap) ∧ (gap'.all isBlank = true ∧ '\n' ∉ gap') ∧ '\n' ∉ iri
  | .base _ gap iri => gap ≠ [] ∧ (gap.all isBlank = true ∧ '\n' ∉ gap) ∧ '\n' ∉ iri

/-- Every declaration stands on a line of its own. -/
def OwnLines : List Element → Prop
  | [] => True
  | .declaration d :: rest => d.OneLine ∧ EndsLine rest ∧ OwnLines rest
  | _ :: rest => OwnLines rest

/-- The operations of a request, each with the triples of its block under the declarations
before it; nothing when a block is no Turtle. -/
def readOps (codec : RdfCodec) (baseIri : Iri) :
    Text → List Element → Option (List (Bool × List Triple))
  | _, [] => some []
  | prologue, .declaration d :: rest => readOps codec baseIri (prologue ++ d.turtle) rest
  | prologue, .data o :: rest =>
    match codec.parseTurtle baseIri (prologue ++ o.block).utf8 with
    | .error _ => none
    | .ok triples => (readOps codec baseIri prologue rest).map ((o.isDelete, triples) :: ·)
  | prologue, _ :: rest => readOps codec baseIri prologue rest

/-- The triples the operations of one kind carry. -/
def triplesOf (isDelete : Bool) (ops : List (Bool × List Triple)) : List Triple :=
  (ops.filter (·.1 == isDelete)).flatMap Prod.snd

/-! ## §3 Steps of the scanner -/

variable {c : Char} {text t word gap : Text} {es : List Element} {ops : List (Bool × List Triple)}
  {graph : Set Triple}

theorem isWhitespace_of_isBlank (h : isBlank c = true) : Text.isWhitespace c = true := by
  simp only [isBlank, Bool.or_eq_true, decide_eq_true_eq] at h
  rcases h with ((rfl | rfl) | rfl) | rfl <;> decide

theorem trimStart_blank (h : isBlank c = true) (rest : Text) :
    Text.trimStart (c :: rest) = Text.trimStart rest :=
  List.dropWhile_cons_of_pos (isWhitespace_of_isBlank h)

theorem skipSeparator_blank (h : isBlank c = true) (rest : Text) :
    skipSeparator (c :: rest) = skipSeparator rest := by
  unfold skipSeparator
  rw [trimStart_blank h]

theorem toLower_of_isWhitespace (h : Text.isWhitespace c = true) : c.toLower = c := by
  apply dif_neg
  rintro ⟨hlo, hhi⟩
  have hlo : 65 ≤ c.toNat := hlo
  have hhi : c.toNat ≤ 90 := hhi
  simp only [Text.isWhitespace, Bool.or_eq_true, Bool.and_eq_true, decide_eq_true_eq,
    beq_iff_eq] at h
  omega

/-- A text that begins neither with white space nor with a separator. -/
def Begins (text : Text) : Prop := ∀ c ∈ text.head?, Text.isWhitespace c = false ∧ c ≠ ';'

instance (text : Text) : Decidable (Begins text) :=
  decidable_of_iff (text.head?.all (fun c => !Text.isWhitespace c && c != ';') = true) (by
    simp [Begins, Option.all_eq_true])

theorem trimStart_of_begins (h : Begins text) : Text.trimStart text = text :=
  Text.trimStart_eq_self fun c hc => (h c hc).1

theorem stripPrefix?_separator {rest : Text} (h : c ≠ ';') :
    Text.stripPrefix? (c :: rest) [';'] = none := by
  have hne : ¬ ';' = c := fun heq => h heq.symm
  simp [Text.stripPrefix?, hne]

theorem skipSeparator_of_begins (h : Begins text) : skipSeparator text = text := by
  unfold skipSeparator
  rw [trimStart_of_begins h]
  cases text with
  | nil => rfl
  | cons c rest => simp only [stripPrefix?_separator (h c rfl).2]

theorem not_isWhitespace_of_toLower (h : Text.isWhitespace c.toLower = false) :
    Text.isWhitespace c = false := by
  rw [Bool.eq_false_iff]
  intro hws
  rw [toLower_of_isWhitespace hws, hws] at h
  cases h

theorem begins_of_lower {more : Text} (h : Text.toAsciiLowercase t = word) (hne : word ≠ [])
    (hword : Begins word) : Begins (t ++ more) := by
  intro c hc
  cases t with
  | nil => exact absurd h.symm hne
  | cons e t =>
    obtain rfl : e = c := Option.some.inj hc
    obtain ⟨hws, hsep⟩ := hword e.toLower (by rw [← h]; rfl)
    refine ⟨not_isWhitespace_of_toLower hws, ?_⟩
    rintro rfl
    exact hsep rfl

section
variable {codec : RdfCodec} {baseIri : Iri} {fuel : Nat} {scan out : SparqlScan}

/-- A round only looks at the text past white space and one separator. -/
theorem scanSparql_congr {text text' : Text} (h : skipSeparator text = skipSeparator text') :
    scanSparql codec baseIri fuel text scan = scanSparql codec baseIri fuel text' scan := by
  cases fuel with
  | zero => rfl
  | succ fuel => simp only [scanSparql, h]

theorem scan_blank {c : Char} (hc : isBlank c = true) (rest : Text) :
    scanSparql codec baseIri fuel (c :: rest) scan = scanSparql codec baseIri fuel rest scan :=
  scanSparql_congr (skipSeparator_blank hc rest)

/-- The four words that begin a line of the prologue. -/
def prologueWords : List Text := ["prefix", "base", "@prefix", "@base"].map String.toList

/-- Nothing the scanner knows begins the text. -/
def Unknown (text : Text) : Prop :=
  (∀ word ∈ prologueWords, ¬ word <+: Text.toAsciiLowercase text) ∧
    ¬ "insert data".toList <+: Text.toAsciiLowercase text ∧
    ¬ "delete data".toList <+: Text.toAsciiLowercase text

theorem scan_unknown {text : Text} (hne : skipSeparator text ≠ [])
    (hunknown : Unknown (skipSeparator text)) :
    scanSparql codec baseIri (fuel + 1) text scan ≠ .ok out := by
  obtain ⟨hwords, hinsert, hdelete⟩ := hunknown
  have hprologue : (["prefix", "base", "@prefix", "@base"].any fun kw =>
      Text.startsWith (Text.toAsciiLowercase (skipSeparator text)) kw.toList) = false := by
    rw [Bool.eq_false_iff]
    intro hany
    obtain ⟨kw, hkw, hstarts⟩ := List.any_eq_true.mp hany
    exact hwords kw.toList (List.mem_map_of_mem hkw) (Text.startsWith_iff.mp hstarts)
  have hinsert : Text.startsWith (Text.toAsciiLowercase (skipSeparator text))
      "insert data".toList = false := by
    rw [Bool.eq_false_iff]
    exact fun h => hinsert (Text.startsWith_iff.mp h)
  have hdelete : Text.startsWith (Text.toAsciiLowercase (skipSeparator text))
      "delete data".toList = false := by
    rw [Bool.eq_false_iff]
    exact fun h => hdelete (Text.startsWith_iff.mp h)
  intro h
  simp only [scanSparql, if_neg hne, hprologue, hinsert, hdelete] at h
  cases h

variable {rest : Text}

/-- A line of the prologue is taken as a whole. -/
theorem scan_line {line : Text} {word : Text} (hbegins : Begins line) (hword : word ∈ prologueWords)
    (hstarts : word <+: Text.toAsciiLowercase line) (hline : '\n' ∉ line)
    (hrest : ∀ c ∈ rest.head?, c = '\n') :
    scanSparql codec baseIri (fuel + 1) (line ++ rest) scan =
      scanSparql codec baseIri fuel rest
        { scan with prologue := scan.prologue ++ turtleDirective line } := by
  have hwordne : word ≠ [] := by
    rintro rfl
    exact absurd hword (by decide)
  have hne : line ≠ [] := by
    rintro rfl
    exact hwordne (List.prefix_nil.mp hstarts)
  have hbegins' : Begins (line ++ rest) := by
    intro c hc
    rw [List.head?_append_of_ne_nil _ hne] at hc
    exact hbegins c hc
  have hany : (["prefix", "base", "@prefix", "@base"].any fun kw =>
      Text.startsWith (Text.toAsciiLowercase (line ++ rest)) kw.toList) = true := by
    obtain ⟨kw, hkw, rfl⟩ := List.mem_map.mp hword
    apply List.any_eq_true.mpr
    refine ⟨kw, hkw, Text.startsWith_iff.mpr ?_⟩
    rw [Text.toAsciiLowercase, List.map_append]
    exact hstarts.trans (List.prefix_append _ _)
  have htake : (line ++ rest).takeWhile (· ≠ '\n') = line := by
    have hall : ∀ c ∈ line, decide (c ≠ '\n') = true := by
      intro c hc
      apply decide_eq_true
      rintro rfl
      exact hline hc
    rw [List.takeWhile_append_of_pos hall]
    cases rest with
    | nil => simp
    | cons c rest => simp [hrest c rfl]
  have happ : line ++ rest ≠ [] := by simp [hne]
  simp only [scanSparql, skipSeparator_of_begins hbegins', if_neg happ, hany, if_true, htake]
  rw [List.drop_left]

/-- After a separator another separator is not accepted. -/
theorem scan_separator (h : scanSparql codec baseIri fuel (';' :: rest) scan = .ok out) :
    scanSparql codec baseIri fuel rest scan = .ok out := by
  cases fuel with
  | zero => exact h
  | succ fuel =>
    have hskip : skipSeparator (';' :: rest) = Text.trimStart rest := rfl
    cases hrest : Text.trimStart rest with
    | nil =>
      rw [← h]
      apply scanSparql_congr
      rw [hskip, skipSeparator, hrest]
      rfl
    | cons c more =>
      by_cases hc : c = ';'
      · -- two separators in a row are no operation
        subst hc
        refine absurd h (scan_unknown ?_ ?_)
        · rw [hskip, hrest]
          simp
        · rw [hskip, hrest]
          have hfirst : ∀ word : Text, word.head? ≠ some ';' → word ≠ [] →
              ¬ word <+: Text.toAsciiLowercase (';' :: more) := by
            rintro (_ | ⟨d, word⟩) hd hne hpre
            · exact hne rfl
            · obtain ⟨t, ht⟩ := hpre
              exact hd (congrArg some (List.cons.inj ht).1)
          refine ⟨fun word hword => ?_, hfirst _ (by decide) (by decide),
            hfirst _ (by decide) (by decide)⟩
          have hwords : ∀ w ∈ prologueWords, w.head? ≠ some ';' ∧ w ≠ [] := by decide
          exact hfirst word (hwords word hword).1 (hwords word hword).2
      · rw [← h]
        apply scanSparql_congr
        rw [hskip, skipSeparator, hrest]
        simp only [stripPrefix?_separator hc]

/-- What a data operation adds to the scan. -/
def SparqlScan.add (scan : SparqlScan) (isDelete : Bool) (triples : List PatTriple) : SparqlScan :=
  { scan with
    inserts := if isDelete then scan.inserts else scan.inserts ++ triples
    deletes := if isDelete then scan.deletes ++ triples else scan.deletes
    sawAny := true }

/-- The keyword of a data operation, as the scanner knows it. -/
def dataKeyword (isDelete : Bool) : Text :=
  if isDelete then "delete data".toList else "insert data".toList

/-- A block runs from the first opening to the first closing brace. -/
theorem scan_data {isDelete : Bool} {keyword gap block : Text}
    (hkeyword : Text.toAsciiLowercase keyword = dataKeyword isDelete) (hgap : '\x7b' ∉ gap)
    (hblock : '\x7d' ∉ block) :
    scanSparql codec baseIri (fuel + 1) (keyword ++ gap ++ '\x7b' :: block ++ '\x7d' :: rest) scan =
      match parseToConcreteTriples codec (scan.prologue ++ block) baseIri with
      | .error e => .error e
      | .ok triples => scanSparql codec baseIri fuel rest (scan.add isDelete triples) := by
  have htext : keyword ++ gap ++ '\x7b' :: block ++ '\x7d' :: rest =
      keyword ++ (gap ++ '\x7b' :: (block ++ '\x7d' :: rest)) := by simp
  rw [htext]
  have hlength : keyword.length = 11 := by
    rw [← List.length_map (f := Char.toLower), ← Text.toAsciiLowercase, hkeyword]
    cases isDelete <;> rfl
  have hlower : ∀ more : Text, Text.toAsciiLowercase (keyword ++ more) =
      dataKeyword isDelete ++ Text.toAsciiLowercase more := by
    intro more
    rw [← hkeyword]
    exact List.map_append
  have hbegins : ∀ more : Text, Begins (keyword ++ more) := by
    intro more
    have hword : dataKeyword isDelete ≠ [] ∧ Begins (dataKeyword isDelete) := by
      cases isDelete <;> decide
    exact begins_of_lower hkeyword hword.1 hword.2
  have hne : ∀ more : Text, keyword ++ more ≠ [] := by
    intro more hnil
    rw [(List.append_eq_nil_iff.mp hnil).1] at hlength
    cases hlength
  have hprologue : ∀ more : Text, (["prefix", "base", "@prefix", "@base"].any fun kw =>
      Text.startsWith (dataKeyword isDelete ++ more) kw.toList) = false := by
    intro more
    cases isDelete <;> rfl
  have hstarts : (if Text.startsWith (dataKeyword isDelete ++ Text.toAsciiLowercase
        (gap ++ '\x7b' :: (block ++ '\x7d' :: rest))) "insert data".toList then some false
      else if Text.startsWith (dataKeyword isDelete ++ Text.toAsciiLowercase
        (gap ++ '\x7b' :: (block ++ '\x7d' :: rest))) "delete data".toList then some true
      else none) = some isDelete := by
    cases isDelete <;> rfl
  have hdrop : (keyword ++ (gap ++ '\x7b' :: (block ++ '\x7d' :: rest))).drop 11 =
      gap ++ '\x7b' :: (block ++ '\x7d' :: rest) := by
    rw [← hlength, List.drop_left]
  simp only [scanSparql, skipSeparator_of_begins (hbegins _), if_neg (hne _), hlower, hprologue,
    hstarts, hdrop, Text.splitOnce_append hgap, Text.splitOnce_append hblock]
  rfl

end

/-! ## §4 Declarations -/

/-- The characters of a word as written are no white space if those of the word are not. -/
theorem not_isWhitespace_of_lower (h : Text.toAsciiLowercase t = word)
    (hword : word.all (fun c => !Text.isWhitespace c) = true) :
    ∀ c ∈ t, Text.isWhitespace c = false := by
  intro c hc
  apply not_isWhitespace_of_toLower
  have hmem : c.toLower ∈ word := by
    rw [← h]
    exact List.mem_map_of_mem hc
  simpa using List.all_eq_true.mp hword _ hmem

theorem isWhitespace_of_all (h : t.all isBlank = true) : t.Spaces :=
  fun c hc => isWhitespace_of_isBlank (List.all_eq_true.mp h c hc)

/-- A keyword, white space and the rest up to a closing bracket become a directive. -/
theorem turtleDirective_eq {keyword body back : Text}
    (hkeyword : Text.toAsciiLowercase keyword = word)
    (hword : word.all (fun c => !Text.isWhitespace c) = true) (hne : word ≠ [])
    (hat : word.head? ≠ some '@') (hgap : gap.all isBlank = true) (hgapne : gap ≠ [])
    (hfirst : ∀ c ∈ (body ++ ['>']).head?, Text.isWhitespace c = false)
    (hback : back.all isBlank = true) :
    turtleDirective (keyword ++ gap ++ (body ++ ['>']) ++ back) =
      '@' :: word ++ " ".toList ++ (body ++ ['>']) ++ " .\n".toList := by
  have hplain := not_isWhitespace_of_lower hkeyword hword
  have hkne : keyword ≠ [] := by
    rintro rfl
    exact hne hkeyword.symm
  have hends : ∀ t : Text, ∀ c ∈ (t ++ ['>']).getLast?, Text.isWhitespace c = false := by
    intro t c hc
    obtain rfl : '>' = c := by simpa using hc
    decide
  have hbody : Text.Tight (body ++ ['>']) := ⟨hfirst, hends body⟩
  have htrim : Text.trim (keyword ++ gap ++ (body ++ ['>']) ++ back) =
      keyword ++ gap ++ (body ++ ['>']) := by
    have htight : Text.Tight (keyword ++ gap ++ (body ++ ['>'])) := by
      constructor
      · intro c hc
        cases keyword with
        | nil => exact absurd rfl hkne
        | cons d keyword =>
          obtain rfl : d = c := Option.some.inj hc
          exact hplain d List.mem_cons_self
      · rw [← List.append_assoc]
        exact hends _
    have hpad := Text.trim_padded .nil (isWhitespace_of_all hback) (keyword ++ gap ++ (body ++ ['>']))
    rwa [List.nil_append, htight.trim] at hpad
  have hnotat : Text.startsWith (keyword ++ gap ++ (body ++ ['>'])) ['@'] = false := by
    rw [Bool.eq_false_iff]
    intro h
    obtain ⟨rest, hrest⟩ := Text.startsWith_iff.mp h
    cases keyword with
    | nil => exact hkne rfl
    | cons d keyword =>
      obtain rfl : '@' = d := (List.cons.inj hrest).1
      exact hat (by rw [← hkeyword]; rfl)
  have htake : (keyword ++ gap ++ (body ++ ['>'])).takeWhile (fun c => !Text.isWhitespace c) =
      keyword := by
    cases gap with
    | nil => exact absurd rfl hgapne
    | cons g gap =>
      have hg : Text.isWhitespace g = true := isWhitespace_of_all hgap g List.mem_cons_self
      rw [List.append_assoc, List.takeWhile_append_of_pos (by simpa using hplain)]
      simp [hg]
  have hdrop : Text.trim ((keyword ++ gap ++ (body ++ ['>'])).drop (keyword.length + 1)) =
      body ++ ['>'] := by
    cases gap with
    | nil => exact absurd rfl hgapne
    | cons g gap =>
      have hsplit : keyword ++ g :: gap ++ (body ++ ['>']) =
          (keyword ++ [g]) ++ (gap ++ (body ++ ['>'])) := by simp
      have hlength : keyword.length + 1 = (keyword ++ [g]).length := by simp
      have hgap' : Text.Spaces gap := fun c hc =>
        isWhitespace_of_all hgap c (List.mem_cons_of_mem _ hc)
      have hpad := Text.trim_padded hgap' .nil (body ++ ['>'])
      rw [hsplit, hlength, List.drop_left]
      rwa [List.append_nil, hbody.trim] at hpad
  have hclose : Text.trim (Text.trimEndMatches (body ++ ['>']) '.') = body ++ ['>'] := by
    rw [Text.trimEndMatches_concat_ne body (by decide)]
    exact hbody.trim
  unfold turtleDirective
  simp only [htrim, hnotat, htake, hdrop, hclose, hkeyword]
  simp

theorem not_mem_of_lower (h : Text.toAsciiLowercase t = word) (hword : c.toLower ∉ word) :
    c ∉ t := by
  intro hc
  apply hword
  rw [← h]
  exact List.mem_map_of_mem hc

/-- What the scanner needs of a line of the prologue: it begins with a word it knows, has no line
end and becomes a directive. -/
structure Directive (text back turtle : Text) : Prop where
  begins : Begins (text ++ back)
  known : ∃ word ∈ prologueWords, word <+: Text.toAsciiLowercase (text ++ back)
  single : '\n' ∉ text
  directive : turtleDirective (text ++ back) = turtle

theorem directive_of_parts {keyword body back : Text}
    (hkeyword : Text.toAsciiLowercase keyword = word)
    (hword : word ∈ ["prefix".toList, "base".toList])
    (hgap : gap.all isBlank = true ∧ '\n' ∉ gap) (hgapne : gap ≠ []) (hbody : '\n' ∉ body)
    (hfirst : ∀ c ∈ (body ++ ['>']).head?, Text.isWhitespace c = false)
    (hback : back.all isBlank = true) :
    Directive (keyword ++ gap ++ (body ++ ['>'])) back
      ('@' :: word ++ " ".toList ++ (body ++ ['>']) ++ " .\n".toList) := by
  have hwords : ∀ w ∈ ["prefix".toList, "base".toList], w ≠ [] ∧ Begins w ∧ w ∈ prologueWords ∧
      w.all (fun c => !Text.isWhitespace c) = true ∧ w.head? ≠ some '@' ∧ '\n'.toLower ∉ w := by
    decide
  obtain ⟨hne, hbegins, hmem, hplain, hat, hnl⟩ := hwords word hword
  have htext : keyword ++ gap ++ (body ++ ['>']) ++ back =
      keyword ++ (gap ++ (body ++ ['>']) ++ back) := by simp
  refine ⟨?_, ⟨word, hmem, ?_⟩, ?_, turtleDirective_eq hkeyword hplain hne hat hgap.1 hgapne hfirst
    hback⟩
  · rw [htext]
    exact begins_of_lower hkeyword hne hbegins
  · rw [htext, Text.toAsciiLowercase, List.map_append, ← hkeyword]
    exact List.prefix_append _ _
  · have hkw : '\n' ∉ keyword := not_mem_of_lower hkeyword hnl
    simp [hkw, hgap.2, hbody]

/-- A declaration on one line becomes the directive of the same declaration. -/
theorem Declaration.line {d : Declaration} (hok : d.Ok) (hline : d.OneLine) {back : Text}
    (hback : back.all isBlank = true) : Directive d.text back d.turtle := by
  cases d with
  | prefixed keyword gap ns gap' iri =>
    obtain ⟨hshape, hgapne, -, hnsne, hns⟩ := hok
    obtain ⟨hgap, ⟨-, hgapnl'⟩, hirinl⟩ := hline
    have hnsnl : '\n' ∉ ns := fun hmem => absurd (List.all_eq_true.mp hns _ hmem) (by decide)
    have hfirst : ∀ c ∈ (ns ++ gap' ++ '<' :: iri ++ ['>']).head?, Text.isWhitespace c = false := by
      intro c hc
      cases ns with
      | nil => exact absurd rfl hnsne
      | cons e ns =>
        obtain rfl : e = c := Option.some.inj hc
        have he := List.all_eq_true.mp hns e List.mem_cons_self
        simp only [isNsChar, Bool.and_eq_true, Bool.not_eq_true'] at he
        exact he.1
    have htext : (Declaration.prefixed keyword gap ns gap' iri).text =
        keyword ++ gap ++ ((ns ++ gap' ++ '<' :: iri) ++ ['>']) := by
      simp [Declaration.text]
    rw [htext]
    exact directive_of_parts hshape.keyword (by decide) hgap hgapne (by simp [hnsnl, hgapnl', hirinl])
      hfirst hback
  | base keyword gap iri =>
    obtain ⟨hgapne, hgap, hirinl⟩ := hline
    have hfirst : ∀ c ∈ ('<' :: iri ++ ['>']).head?, Text.isWhitespace c = false := by
      intro c hc
      obtain rfl : '<' = c := Option.some.inj hc
      decide
    have htext : (Declaration.base keyword gap iri).text =
        keyword ++ gap ++ (('<' :: iri) ++ ['>']) := by
      simp [Declaration.text]
    rw [htext]
    exact directive_of_parts (Shape.keyword hok) (by decide) hgap hgapne (by simp [hirinl]) hfirst
      hback

theorem Declaration.text_length_pos (d : Declaration) : 0 < d.text.length := by
  cases d <;> simp only [Declaration.text, List.length_append, List.length_cons] <;> omega

/-- White space to the end of the line, then the rest of the request. -/
theorem EndsLine.split (h : EndsLine es) (hok : UpdateRequest es) :
    ∃ (blanks : Text) (rest : List Element), es = blanks.map Element.blank ++ rest ∧ blanks.all isBlank = true ∧
      '\n' ∉ blanks ∧ ∀ c ∈ (requestText rest).head?, c = '\n' := by
  induction es with
  | nil => exact ⟨[], [], rfl, rfl, by simp, by simp [requestText]⟩
  | cons e es ih =>
    cases e with
    | blank c =>
      obtain ⟨hc, hrest⟩ := List.forall_mem_cons.mp hok
      by_cases hnl : c = '\n'
      · refine ⟨[], .blank c :: es, rfl, rfl, by simp, ?_⟩
        intro d hd
        obtain rfl : c = d := Option.some.inj hd
        exact hnl
      · obtain ⟨blanks, rest, rfl, hall, hnone, hhead⟩ := ih (h.resolve_left hnl) hrest
        refine ⟨c :: blanks, rest, rfl, ?_, ?_, hhead⟩
        · rw [List.all_cons, hall]
          exact Bool.and_eq_true_iff.mpr ⟨hc, rfl⟩
        · intro hmem
          rcases List.mem_cons.mp hmem with heq | hmem
          · exact hnl heq.symm
          · exact hnone hmem
    | separator => exact h.elim
    | comment body => exact h.elim
    | declaration d => exact h.elim
    | data o => exact h.elim
    | other rest => exact h.elim

/-! ## §5 What is not accepted -/

/-- All words the scanner knows. -/
def knownWords : List Text := "insert data".toList :: "delete data".toList :: prologueWords

theorem unknown_of_forall (h : ∀ word ∈ knownWords, ¬ word <+: Text.toAsciiLowercase text) :
    Unknown text :=
  ⟨fun word hword => h word (by simp [knownWords, hword]), h _ (by simp [knownWords]),
    h _ (by simp [knownWords])⟩

/-- A text that begins with a word apart from those the scanner knows. -/
theorem unknown_of_word (h : word <+: Text.toAsciiLowercase text)
    (hapart : ∀ known ∈ knownWords, ¬ known <+: word ∧ ¬ word <+: known) : Unknown text := by
  apply unknown_of_forall
  intro known hknown hpre
  rcases List.prefix_or_prefix_of_prefix hpre h with hle | hle
  · exact (hapart known hknown).1 hle
  · exact (hapart known hknown).2 hle

theorem IsGap.head (h : IsGap gap) (hne : gap ≠ []) :
    ∃ c rest, gap = c :: rest ∧ (isBlank c = true ∨ c = '#') := by
  cases h with
  | nil => exact absurd rfl hne
  | @blank c rest hc _ => exact ⟨c, rest, rfl, .inl hc⟩
  | @comment body rest eol _ _ _ _ => exact ⟨'#', body ++ eol :: rest, rfl, .inr rfl⟩

theorem IsGap.tail_of_space (h : IsGap (' ' :: gap)) : IsGap gap := by
  cases h with
  | blank _ hrest => exact hrest

theorem toLower_of_gap (h : isBlank c = true ∨ c = '#') : c.toLower = c := by
  rcases h with h | rfl
  · exact toLower_of_isWhitespace (isWhitespace_of_isBlank h)
  · decide

/-- After a verb, a gap that is not one space does not continue a known word; neither does one
space or nothing before a character that is no `d`. -/
theorem unknown_of_verb {verb next : Text} (hverb : Text.toAsciiLowercase verb = word)
    (hword : word = "insert".toList ∨ word = "delete".toList) (hgap : IsGap gap)
    (hnext : gap = [] ∨ gap = [' '] → ∀ c ∈ next.head?, c.toLower ≠ 'd' ∧ c.toLower ≠ ' ') :
    Unknown (verb ++ gap ++ next) := by
  have hlower : Text.toAsciiLowercase (verb ++ gap ++ next) =
      word ++ Text.toAsciiLowercase (gap ++ next) := by
    rw [List.append_assoc, ← hverb]
    exact List.map_append
  have hdata : ¬ " d".toList <+: Text.toAsciiLowercase (gap ++ next) := by
    rintro ⟨t, ht⟩
    cases gap with
    | nil =>
      cases next with
      | nil => cases ht
      | cons c next => exact (hnext (.inl rfl) c rfl).2 (List.cons.inj ht).1.symm
    | cons c gap =>
      have hc : isBlank c = true ∨ c = '#' := by
        obtain ⟨c', rest, heq, hc'⟩ := hgap.head (by simp)
        rw [(List.cons.inj heq).1]
        exact hc'
      obtain rfl : ' ' = c := by
        rw [← toLower_of_gap hc]
        exact (List.cons.inj ht).1
      have hd : 'd' :: t = Text.toAsciiLowercase (gap ++ next) := (List.cons.inj ht).2
      cases gap with
      | nil =>
        cases next with
        | nil => cases hd
        | cons e next => exact (hnext (.inr rfl) e rfl).1 (List.cons.inj hd).1.symm
      | cons e gap =>
        obtain ⟨e', rest, heq, he'⟩ := hgap.tail_of_space.head (by simp)
        obtain rfl := (List.cons.inj heq).1
        have hlow : 'd' = e.toLower := (List.cons.inj hd).1
        rw [toLower_of_gap he'] at hlow
        subst hlow
        exact absurd he' (by decide)
  apply unknown_of_forall
  intro known hknown hpre
  rw [hlower] at hpre
  have hcases : ∀ known ∈ knownWords, ∀ w ∈ ["insert".toList, "delete".toList],
      known = w ++ " data".toList ∨ ¬ known <+: w ∧ ¬ w <+: known := by decide
  have hw : word ∈ ["insert".toList, "delete".toList] := by simpa using hword
  rcases hcases known hknown word hw with rfl | ⟨h₁, h₂⟩
  · rw [List.prefix_append_right_inj] at hpre
    exact hdata ((by decide : " d".toList <+: " data".toList).trans hpre)
  · rcases List.prefix_or_prefix_of_prefix hpre (List.prefix_append _ _) with hle | hle
    · exact h₁ hle
    · exact h₂ hle

theorem unknown_of_otherHead (h : OtherHead text) : Unknown text := by
  cases h with
  | @keyword word rest hword =>
    have hpre : Text.toAsciiLowercase word <+: Text.toAsciiLowercase (word ++ rest) := by
      rw [Text.toAsciiLowercase, Text.toAsciiLowercase, List.map_append]
      exact List.prefix_append _ _
    apply unknown_of_word hpre
    revert hword
    generalize Text.toAsciiLowercase word = w
    revert w
    decide
  | @template verb gap rest hverb hgap =>
    apply unknown_of_verb rfl _ hgap
    · rintro - c hc
      obtain rfl : '\x7b' = c := Option.some.inj hc
      decide
    · simpa using hverb
  | @deleteWhere verb gap word rest hverb hgap _ hword =>
    rw [List.append_assoc]
    apply unknown_of_verb hverb (.inr rfl) hgap
    rintro - c hc
    cases word with
    | nil => cases hword
    | cons e word =>
      obtain rfl : e = c := Option.some.inj hc
      have he : e.toLower = 'w' := (List.cons.inj hword).1
      rw [he]
      decide

theorem OtherHead.append (h : OtherHead text) (more : Text) :
    OtherHead (text ++ more) := by
  cases h with
  | keyword hword =>
    rw [List.append_assoc]
    exact .keyword hword
  | template hverb hgap =>
    rw [List.append_assoc]
    exact .template hverb hgap
  | deleteWhere hverb hgap hne hword =>
    rw [List.append_assoc]
    exact .deleteWhere hverb hgap hne hword

theorem begins_of_otherHead (h : OtherHead text) : Begins text ∧ text ≠ [] := by
  have hkey : ∀ {t more : Text} (words : List Text), Text.toAsciiLowercase t ∈ words →
      (∀ w ∈ words, w ≠ [] ∧ Begins w) →
      Begins (t ++ more) ∧ t ++ more ≠ [] := by
    intro t more words hmem hwords
    obtain ⟨hne, hhead⟩ := hwords _ hmem
    refine ⟨begins_of_lower rfl hne hhead, ?_⟩
    intro hnil
    rw [(List.append_eq_nil_iff.mp hnil).1] at hne
    exact hne rfl
  cases h with
  | keyword hword => exact hkey _ hword (by decide)
  | template hverb _ =>
    rw [List.append_assoc]
    exact hkey _ hverb (by decide)
  | deleteWhere hverb _ _ _ =>
    rw [List.append_assoc, List.append_assoc]
    exact hkey ["delete".toList] (by rw [hverb]; exact List.mem_singleton.mpr rfl)
      (by decide)

/-! ## §6 The scan of a request -/

/-- The scanner's cut of an operation's block: the opening brace is the operation's own, and a
block cut short at a closing brace inside it is no Turtle. -/
structure CutsRight (codec : RdfCodec) (baseIri : Iri) (o : DataOperation) : Prop where
  opening : '\x7b' ∉ o.gap
  closing : ∀ ds : List Declaration, (∀ d ∈ ds, d.Ok ∧ d.OneLine) → ∀ front back,
    o.block = front ++ '\x7d' :: back → '\x7d' ∉ front →
    ∀ ts, codec.parseTurtle baseIri (Text.utf8 (ds.flatMap Declaration.turtle ++ front)) ≠ .ok ts

/-- The elements the scanner lets pass. -/
def Element.Plain : Element → Prop
  | .comment _ | .other _ => False
  | .data o => '\x7d' ∉ o.block
  | _ => True

theorem requestText_cons (e : Element) (es : List Element) :
    requestText (e :: es) = e.text ++ requestText es := rfl

theorem requestText_append (es es' : List Element) :
    requestText (es ++ es') = requestText es ++ requestText es' :=
  List.flatMap_append

theorem requestText_blanks (blanks : Text) :
    requestText (blanks.map Element.blank) = blanks := by
  induction blanks with
  | nil => rfl
  | cons c blanks ih =>
    rw [List.map_cons, requestText_cons, ih]
    rfl

theorem readOps_blanks {codec : RdfCodec} {baseIri : Iri} {prologue : Text} (blanks : Text)
    (es : List Element) : readOps codec baseIri prologue (blanks.map Element.blank ++ es) =
      readOps codec baseIri prologue es := by
  induction blanks with
  | nil => rfl
  | cons c blanks ih => exact ih

theorem OwnLines.of_blanks {blanks : Text} (h : OwnLines (blanks.map Element.blank ++ es)) :
    OwnLines es := by
  induction blanks with
  | nil => exact h
  | cons c blanks ih => exact ih h

theorem triplesOf_cons (kind : Bool) (op : Bool × List Triple) (ops : List (Bool × List Triple)) :
    triplesOf kind (op :: ops) = (if op.1 = kind then op.2 else []) ++ triplesOf kind ops := by
  unfold triplesOf
  by_cases h : op.1 = kind
  · rw [if_pos h, List.filter_cons_of_pos (by simpa using h), List.flatMap_cons]
  · rw [if_neg h, List.filter_cons_of_neg (by simpa using h), List.nil_append]

/-- What a scan has collected on top of another one. -/
structure Collected (scan out : SparqlScan) (ops : List (Bool × List Triple)) : Prop where
  inserts : out.inserts = scan.inserts ++ (triplesOf false ops).map groundPattern
  deletes : out.deletes = scan.deletes ++ (triplesOf true ops).map groundPattern

theorem Collected.add {scan out : SparqlScan} {isDelete : Bool} {ts : List Triple}
    (h : Collected (scan.add isDelete (ts.map groundPattern)) out ops) :
    Collected scan out ((isDelete, ts) :: ops) := by
  obtain ⟨hi, hd⟩ := h
  constructor
  · rw [hi, triplesOf_cons]
    cases isDelete <;> simp [SparqlScan.add]
  · rw [hd, triplesOf_cons]
    cases isDelete <;> simp [SparqlScan.add]

section
variable {codec : RdfCodec} {baseIri : Iri} {fuel : Nat} {scan out : SparqlScan}

theorem scan_begins {text : Text} (hbegins : Begins text) (hne : text ≠ []) (h : Unknown text) :
    scanSparql codec baseIri (fuel + 1) text scan ≠ .ok out := by
  apply scan_unknown
  · rwa [skipSeparator_of_begins hbegins]
  · rwa [skipSeparator_of_begins hbegins]

theorem scan_comment (more : Text) :
    scanSparql codec baseIri (fuel + 1) ('#' :: more) scan ≠ .ok out := by
  apply scan_begins
  · intro c hc
    obtain rfl : '#' = c := Option.some.inj hc
    decide
  · simp
  · have hhash : "#".toList <+: Text.toAsciiLowercase ('#' :: more) :=
      ⟨Text.toAsciiLowercase more, rfl⟩
    exact unknown_of_word hhash (by decide)

theorem scan_other {text : Text} (h : OtherHead text) (more : Text) :
    scanSparql codec baseIri (fuel + 1) (text ++ more) scan ≠ .ok out := by
  obtain ⟨hbegins, hne⟩ := begins_of_otherHead (h.append more)
  exact scan_begins hbegins hne (unknown_of_otherHead (h.append more))

/-- A declaration on a line of its own adds its directive. -/
theorem scan_declaration {d : Declaration} (hok : d.Ok) (hline : d.OneLine) {blanks rest : Text}
    (hblanks : blanks.all isBlank = true) (hnl : '\n' ∉ blanks)
    (hrest : ∀ c ∈ rest.head?, c = '\n') :
    scanSparql codec baseIri (fuel + 1) (d.text ++ (blanks ++ rest)) scan =
      scanSparql codec baseIri fuel rest { scan with prologue := scan.prologue ++ d.turtle } := by
  obtain ⟨hbegins, ⟨word, hword, hstarts⟩, hnl', hdirective⟩ := Declaration.line hok hline hblanks
  have hnone : '\n' ∉ d.text ++ blanks := by
    rw [List.mem_append]
    exact not_or.mpr ⟨hnl', hnl⟩
  rw [← List.append_assoc, scan_line hbegins hword hstarts hnone hrest, hdirective]

/-- An accepted data operation is written with one space, its block ends at its first closing
brace, and its triples are collected. -/
theorem scan_operation {o : DataOperation} (hok : o.Ok) (hcut : CutsRight codec baseIri o)
    {ds : List Declaration} (hds : ∀ d ∈ ds, d.Ok ∧ d.OneLine)
    (hprologue : scan.prologue = ds.flatMap Declaration.turtle) {rest : Text}
    (h : scanSparql codec baseIri (fuel + 1) (o.text ++ rest) scan = .ok out) :
    '\x7d' ∉ o.block ∧ ∃ ts, codec.parseTurtle baseIri (scan.prologue ++ o.block).utf8 = .ok ts ∧
      scanSparql codec baseIri fuel rest (scan.add o.isDelete (ts.map groundPattern)) = .ok out := by
  have hword : o.word = "insert".toList ∨ o.word = "delete".toList := by
    unfold DataOperation.word
    cases o.isDelete
    · exact .inl rfl
    · exact .inr rfl
  by_cases hsep : o.sep = [' ']
  · have hkeyword : Text.toAsciiLowercase (o.verb ++ o.sep ++ o.data) = dataKeyword o.isDelete := by
      unfold Text.toAsciiLowercase
      rw [List.map_append, List.map_append, hsep]
      have hverb := hok.verb
      have hdata := hok.data
      unfold Text.toAsciiLowercase at hverb hdata
      rw [hverb, hdata]
      unfold DataOperation.word
      cases o.isDelete <;> rfl
    have hblock : '\x7d' ∉ o.block := by
      intro hmem
      -- the scanner cuts the block at its first closing brace, and what it cuts is no Turtle
      obtain ⟨front, back, hsplit, hfront⟩ := List.eq_append_cons_of_mem hmem
      have htext : o.text ++ rest = o.verb ++ o.sep ++ o.data ++ o.gap ++ '\x7b' :: front ++
          '\x7d' :: (back ++ '\x7d' :: rest) := by
        simp [DataOperation.text, hsplit]
      rw [htext, scan_data hkeyword hcut.opening hfront] at h
      split at h
      · cases h
      · rename_i triples htriples
        obtain ⟨ts, hts, -⟩ := parseToConcreteTriples_ok htriples
        rw [hprologue] at hts
        exact hcut.closing ds hds front back hsplit hfront ts hts
    refine ⟨hblock, ?_⟩
    have htext : o.text ++ rest = o.verb ++ o.sep ++ o.data ++ o.gap ++ '\x7b' :: o.block ++
        '\x7d' :: rest := by
      simp [DataOperation.text]
    rw [htext, scan_data hkeyword hcut.opening hblock] at h
    split at h
    · cases h
    · rename_i triples htriples
      obtain ⟨ts, hts, rfl⟩ := parseToConcreteTriples_ok htriples
      exact ⟨ts, hts, h⟩
  · -- another gap between the two words is not recognised
    have htext : o.text ++ rest = o.verb ++ o.sep ++
        (o.data ++ o.gap ++ '\x7b' :: o.block ++ '\x7d' :: rest) := by
      simp [DataOperation.text]
    rw [htext] at h
    refine absurd h (scan_begins ?_ ?_ ?_)
    · rw [List.append_assoc]
      have hhead : o.word ≠ [] ∧ Begins o.word := by
        rcases hword with hw | hw <;> rw [hw] <;> decide
      exact begins_of_lower hok.verb hhead.1 hhead.2
    · simp
    · apply unknown_of_verb hok.verb hword hok.sep
      rintro (hnil | hspace)
      · exact absurd hnil hok.parted
      · exact absurd hspace hsep

end

/-- **The scan of a request**: with every declaration on a line of its own and every block cut
where it ends, an accepted request has no other operations, and the scan holds the triples of its
data operations. -/
theorem scan_request {codec : RdfCodec} {baseIri : Iri} (hok : UpdateRequest es)
    (hlines : OwnLines es) (hcuts : ∀ o, Element.data o ∈ es → CutsRight codec baseIri o)
    {fuel : Nat} (hfuel : (requestText es).length < fuel) {ds : List Declaration}
    (hds : ∀ d ∈ ds, d.Ok ∧ d.OneLine) {scan out : SparqlScan}
    (hprologue : scan.prologue = ds.flatMap Declaration.turtle)
    (h : scanSparql codec baseIri fuel (requestText es) scan = .ok out) :
    (∀ e ∈ es, e.Plain) ∧
      ∃ ops, readOps codec baseIri scan.prologue es = some ops ∧ Collected scan out ops := by
  -- by induction on the number of elements: a declaration takes the white space after it along
  induction hlen : es.length using Nat.strong_induction_on generalizing es fuel ds scan with
  | _ n ih =>
  cases es with
  | nil =>
    cases fuel with
    | zero => cases hfuel
    | succ fuel =>
      obtain rfl : scan = out := Except.ok.inj h
      exact ⟨by simp, [], rfl, by simp [triplesOf], by simp [triplesOf]⟩
  | cons e es =>
    obtain ⟨he, hrest⟩ := List.forall_mem_cons.mp hok
    have hcuts' : ∀ o, Element.data o ∈ es → CutsRight codec baseIri o := fun o ho =>
      hcuts o (List.mem_cons_of_mem _ ho)
    rw [requestText_cons] at h hfuel
    cases e with
    | blank c =>
      have hstep : scanSparql codec baseIri fuel (requestText es) scan = .ok out := by
        rw [← scan_blank he]
        exact h
      have hfuel' : (requestText es).length < fuel := by
        simp only [List.length_append] at hfuel
        omega
      obtain ⟨hplain, ops, hops, hcol⟩ :=
        ih es.length (by simp at hlen; omega) hrest hlines hcuts' hfuel' hds hprologue hstep rfl
      exact ⟨List.forall_mem_cons.mpr ⟨trivial, hplain⟩, ops, hops, hcol⟩
    | separator =>
      have hfuel' : (requestText es).length < fuel := by
        simp only [List.length_append] at hfuel
        omega
      obtain ⟨hplain, ops, hops, hcol⟩ := ih es.length (by simp at hlen; omega) hrest hlines hcuts'
        hfuel' hds hprologue (scan_separator h) rfl
      exact ⟨List.forall_mem_cons.mpr ⟨trivial, hplain⟩, ops, hops, hcol⟩
    | comment body =>
      cases fuel with
      | zero => cases hfuel
      | succ fuel => exact absurd h (scan_comment (body ++ requestText es))
    | other rest =>
      cases fuel with
      | zero => cases hfuel
      | succ fuel => exact absurd h (scan_other he (requestText es))
    | declaration d =>
      obtain ⟨hline, hends, hlines⟩ := hlines
      obtain ⟨blanks, rest, rfl, hblanks, hnl, hhead⟩ := hends.split hrest
      rw [requestText_append, requestText_blanks] at h hfuel
      cases fuel with
      | zero => cases hfuel
      | succ fuel =>
        rw [show (Element.declaration d).text = d.text from rfl,
          scan_declaration he hline hblanks hnl hhead] at h
        have hfuel' : (requestText rest).length < fuel := by
          have hpos := d.text_length_pos
          simp only [Element.text, List.length_append] at hfuel
          omega
        have hds' : ∀ d' ∈ ds ++ [d], d'.Ok ∧ d'.OneLine := by
          intro d' hd'
          rcases List.mem_append.mp hd' with hd' | hd'
          · exact hds d' hd'
          · rw [List.mem_singleton.mp hd']
            exact ⟨he, hline⟩
        obtain ⟨hplain, ops, hops, hcol⟩ := ih rest.length (by simp at hlen; omega)
          (fun e hmem => hrest e (List.mem_append_right _ hmem)) hlines.of_blanks
          (fun o ho => hcuts' o (List.mem_append_right _ ho)) hfuel' hds' (by simp [hprologue]) h rfl
        refine ⟨List.forall_mem_cons.mpr ⟨trivial, fun e hmem => ?_⟩, ops, ?_, ⟨hcol.inserts, hcol.deletes⟩⟩
        · rcases List.mem_append.mp hmem with hmem | hmem
          · obtain ⟨c, -, rfl⟩ := List.mem_map.mp hmem
            trivial
          · exact hplain e hmem
        · rw [readOps, readOps_blanks]
          exact hops
    | data o =>
      cases fuel with
      | zero => cases hfuel
      | succ fuel =>
        obtain ⟨hblock, ts, hts, hstep⟩ :=
          scan_operation he (hcuts o List.mem_cons_self) hds hprologue h
        have hfuel' : (requestText es).length < fuel := by
          simp only [Element.text, DataOperation.text, List.length_append, List.length_cons]
            at hfuel
          omega
        have hadd : (scan.add o.isDelete (ts.map groundPattern)).prologue =
            ds.flatMap Declaration.turtle := hprologue
        obtain ⟨hplain, ops, hops, hcol⟩ := ih es.length (by simp at hlen; omega) hrest hlines
          hcuts' hfuel' hds hadd hstep rfl
        refine ⟨List.forall_mem_cons.mpr ⟨hblock, hplain⟩, (o.isDelete, ts) :: ops, ?_, hcol.add⟩
        simp only [readOps, hts]
        rw [show readOps codec baseIri scan.prologue es = some ops from hops]
        rfl

/-! ## §7 Order -/

/-- The effect of one operation on a set of triples. -/
def execute (graph : Set Triple) (op : Bool × List Triple) : Set Triple :=
  if op.1 then { t | t ∈ graph ∧ t ∉ op.2 } else { t | t ∈ graph ∨ t ∈ op.2 }

/-- The operations one after the other. -/
def executeAll (graph : Set Triple) (ops : List (Bool × List Triple)) : Set Triple :=
  ops.foldl execute graph

/-- A triple that an operation deletes after an earlier one inserted it is inserted again by a
later one. -/
def InsertedLast (ops : List (Bool × List Triple)) : Prop :=
  ∀ before ts after, ops = before ++ (true, ts) :: after → ∀ t ∈ ts,
    t ∈ triplesOf false before → t ∈ triplesOf false after

theorem triplesOf_append (kind : Bool) (ops ops' : List (Bool × List Triple)) :
    triplesOf kind (ops ++ ops') = triplesOf kind ops ++ triplesOf kind ops' := by
  simp [triplesOf]

/-- What the operations leave depends on the last one that names the triple. -/
theorem mem_executeAll_concat {op : Bool × List Triple} {t : Triple} :
    t ∈ executeAll graph (ops ++ [op]) ↔
      if t ∈ op.2 then op.1 = false else t ∈ executeAll graph ops := by
  unfold executeAll
  obtain ⟨kind, ts⟩ := op
  cases kind <;> by_cases ht : t ∈ ts <;> simp [execute, ht]

theorem mem_executeAll_of_not_inserted {t : Triple} (h : t ∉ triplesOf false ops) :
    t ∈ executeAll graph ops ↔ t ∈ graph ∧ t ∉ triplesOf true ops := by
  induction ops using List.reverseRecOn with
  | nil => simp [executeAll, triplesOf]
  | append_singleton ops op ih =>
    obtain ⟨kind, ts⟩ := op
    rw [triplesOf_append, List.mem_append, not_or] at h
    rw [mem_executeAll_concat, triplesOf_append, triplesOf_cons]
    cases kind with
    | false =>
      have ht : t ∉ ts := by simpa [triplesOf] using h.2
      rw [if_neg ht, ih h.1]
      simp [triplesOf]
    | true =>
      by_cases ht : t ∈ ts
      · simp [ht]
      · rw [ih h.1]
        simp [triplesOf, ht]

/-- An inserted triple is left exactly when it is inserted again after each delete. -/
theorem mem_executeAll_of_inserted {t : Triple} (h : t ∈ triplesOf false ops) :
    t ∈ executeAll graph ops ↔ ∀ before ts after, ops = before ++ (true, ts) :: after → t ∈ ts →
      t ∈ triplesOf false before → t ∈ triplesOf false after := by
  induction ops using List.reverseRecOn with
  | nil => simp [triplesOf] at h
  | append_singleton ops op ih =>
    obtain ⟨kind, ts⟩ := op
    rw [mem_executeAll_concat]
    by_cases ht : t ∈ ts
    · rw [if_pos ht]
      cases kind with
      | false =>
        -- the last operation inserts the triple
        simp only [true_iff]
        rintro before us after heq htu -
        rcases List.eq_nil_or_concat after with rfl | ⟨after, op, rfl⟩
        · have hlast := List.append_inj_right' heq rfl
          cases hlast
        · have heq' : ops ++ [(false, ts)] = (before ++ (true, us) :: after) ++ [op] := by
            simpa using heq
          have hlast := List.singleton_inj.mp (List.append_inj_right' heq' rfl)
          rw [List.concat_eq_append, triplesOf_append, ← hlast, triplesOf_cons]
          simp [ht]
      | true =>
        simp only [Bool.true_eq_false, false_iff, not_forall]
        refine ⟨ops, ts, [], rfl, ht, ?_, by simp [triplesOf]⟩
        simpa [triplesOf] using h
    · rw [if_neg ht]
      have h' : t ∈ triplesOf false ops := by
        rw [triplesOf_append, List.mem_append] at h
        rcases h with h | h
        · exact h
        · cases kind <;> simp [triplesOf, ht] at h
      rw [ih h']
      constructor
      · rintro hall before us after heq htu hbefore
        rcases List.eq_nil_or_concat after with rfl | ⟨after, op, rfl⟩
        · have hlast := List.singleton_inj.mp (List.append_inj_right' heq rfl)
          obtain rfl : ts = us := (Prod.mk.inj hlast).2
          exact absurd htu ht
        · have heq' : ops ++ [(kind, ts)] = (before ++ (true, us) :: after) ++ [op] := by
            simpa using heq
          rw [List.concat_eq_append, triplesOf_append, List.mem_append]
          exact .inl (hall before us after (List.append_inj_left' heq' rfl) htu hbefore)
      · rintro hall before us after heq htu hbefore
        have hafter := hall before us (after ++ [(kind, ts)]) (by rw [heq]; simp) htu hbefore
        rw [triplesOf_append, List.mem_append] at hafter
        rcases hafter with hafter | hafter
        · exact hafter
        · cases kind <;> simp [triplesOf, ht] at hafter

/-- A patch of ground triples without conditions replaces the deletes by the inserts. -/
theorem mem_applyPatch_ground {existing result deletes inserts : List Triple}
    (h : applyPatch existing ⟨[], deletes.map groundPattern, inserts.map groundPattern⟩ = .ok result)
    {t : Triple} : t ∈ result ↔ (t ∈ existing ∧ t ∉ deletes) ∨ t ∈ inserts := by
  have hground : ∀ (ts : List Triple) (b : Binding),
      instantiateAll (ts.map groundPattern) b = .ok ts := by
    intro ts b
    apply mapM_ok_iff.mpr
    induction ts with
    | nil => exact .nil
    | cons u ts ih => exact .cons (instantiate_ok_iff.mpr ⟨rfl, rfl, rfl⟩) ih
  obtain ⟨b, ds, is, -, hd, hi, -, rfl⟩ := applyPatch_eq_ok_iff.mp h
  obtain rfl := Except.ok.inj ((hground deletes b).symm.trans hd)
  obtain rfl := Except.ok.inj ((hground inserts b).symm.trans hi)
  rw [mem_foldl_appendNew, mem_foldl_appendNew]
  simp

/-- No brace between `DATA` and the block, and no closing brace inside a block. -/
def NoStrayBraces (es : List Element) : Prop :=
  ∀ o, Element.data o ∈ es → '\x7b' ∉ o.gap ∧ '\x7d' ∉ o.block

/-- **Operations take effect in order** exactly when no triple is deleted after its last
insertion. -/
theorem operations_in_order_iff {codec : RdfCodec} {baseIri : Iri} {es : List Element}
    (hok : UpdateRequest es) (hlines : OwnLines es) (hbraces : NoStrayBraces es) {body : Bytes}
    (hbody : Text.ofUtf8? body = some (requestText es)) {patch : N3Patch}
    (hparse : parseSparqlUpdate codec body baseIri = .ok patch) {existing result : List Triple}
    (happly : applyPatch existing patch = .ok result) :
    ∃ ops, readOps codec baseIri [] es = some ops ∧
      ({ t | t ∈ result } = executeAll { t | t ∈ existing } ops ↔ InsertedLast ops) := by
  obtain ⟨text, scan, htext, hscan, rfl⟩ := parseSparqlUpdate_ok hparse
  obtain rfl := Option.some.inj (htext.symm.trans hbody)
  have hcuts : ∀ o, Element.data o ∈ es → CutsRight codec baseIri o := by
    intro o ho
    refine ⟨(hbraces o ho).1, ?_⟩
    rintro ds - front back hsplit -
    exact absurd (by rw [hsplit]; simp) (hbraces o ho).2
  have hnone : ∀ d ∈ ([] : List Declaration), d.Ok ∧ d.OneLine := by simp
  obtain ⟨-, ops, hops, hcol⟩ :=
    scan_request hok hlines hcuts (Nat.lt_succ_self _) hnone rfl hscan
  refine ⟨ops, hops, ?_⟩
  have hresult : ∀ t, t ∈ result ↔
      (t ∈ existing ∧ t ∉ triplesOf true ops) ∨ t ∈ triplesOf false ops := by
    intro t
    rw [hcol.deletes, hcol.inserts] at happly
    exact mem_applyPatch_ground happly
  rw [Set.ext_iff]
  constructor
  · intro hall before ts after heq t ht hbefore
    have hins : t ∈ triplesOf false ops := by
      rw [heq, triplesOf_append]
      exact List.mem_append_left _ hbefore
    exact (mem_executeAll_of_inserted hins).mp ((hall t).mp ((hresult t).mpr (.inr hins)))
      before ts after heq ht hbefore
  · intro hlast t
    rw [Set.mem_ofPred_eq, hresult]
    by_cases hins : t ∈ triplesOf false ops
    · rw [mem_executeAll_of_inserted hins]
      constructor
      · intro _ before ts after heq ht
        exact hlast before ts after heq t ht
      · exact fun _ => .inr hins
    · rw [mem_executeAll_of_not_inserted hins]
      simp [hins]

/-- One triple as Turtle. -/
def tripleText : Text := " <http://h/a> <http://h/p> <http://h/b> . ".toList

def theTriple : Triple :=
  ⟨.namedNode "http://h/a".toList, "http://h/p".toList, .namedNode "http://h/b".toList⟩

/-- A Turtle parser for documents of one triple. -/
def tripleCodec : RdfCodec :=
  { Store.tableCodec [] [] with
    parseTurtle := fun _ body =>
      if body = tripleText.utf8 then .ok [theTriple] else .error "not known".toList }

/-- `INSERT DATA` or `DELETE DATA` of the triple. -/
def tripleOperation (isDelete : Bool) : Element :=
  .data ⟨isDelete, if isDelete then "DELETE".toList else "INSERT".toList, [' '], "DATA".toList, [' '],
    tripleText⟩

def tripleRequest (first second : Bool) : List Element :=
  [tripleOperation first, .blank ' ', .separator, .blank ' ', tripleOperation second]

theorem tripleRequest_ok (first second : Bool) :
    UpdateRequest (tripleRequest first second) ∧ OwnLines (tripleRequest first second) ∧
      NoStrayBraces (tripleRequest first second) := by
  have hspace : IsGap [' '] := .blank rfl .nil
  have hop : ∀ kind, (tripleOperation kind).Ok := by
    intro kind
    cases kind
    · exact ⟨rfl, hspace, by simp, rfl, hspace⟩
    · exact ⟨rfl, hspace, by simp, rfl, hspace⟩
  refine ⟨?_, trivial, ?_⟩
  · intro e he
    simp only [tripleRequest, List.mem_cons, List.not_mem_nil, or_false] at he
    rcases he with rfl | rfl | rfl | rfl | rfl
    · exact hop first
    · rfl
    · trivial
    · rfl
    · exact hop second
  · intro o ho
    simp only [tripleRequest, tripleOperation, List.mem_cons, List.not_mem_nil, or_false,
      reduceCtorEq, false_or, Element.data.injEq] at ho
    have hgap : '\x7b' ∉ [' '] := by decide
    have hblock : '\x7d' ∉ tripleText := by decide
    rcases ho with rfl | rfl
    · exact ⟨hgap, hblock⟩
    · exact ⟨hgap, hblock⟩

theorem tripleRequest_parse (first second : Bool) :
    Text.ofUtf8? (requestText (tripleRequest first second)).utf8 =
        some (requestText (tripleRequest first second)) ∧
      parseSparqlUpdate tripleCodec (requestText (tripleRequest first second)).utf8 [] =
        .ok ⟨[], (triplesOf true [(first, [theTriple]), (second, [theTriple])]).map groundPattern,
          (triplesOf false [(first, [theTriple]), (second, [theTriple])]).map groundPattern⟩ := by
  cases first <;> cases second <;> decide

theorem operations_in_order_iff_replaced :
    ∃ ops, readOps tripleCodec [] [] (tripleRequest true false) = some ops ∧
      ({ t | t ∈ [theTriple] } = executeAll { t | t ∈ [theTriple] } ops ↔ InsertedLast ops) := by
  obtain ⟨hok, hlines, hbraces⟩ := tripleRequest_ok true false
  obtain ⟨hbody, hparse⟩ := tripleRequest_parse true false
  exact operations_in_order_iff hok hlines hbraces hbody hparse (by decide)

/-- **An insertion that a later operation takes back is kept.** -/
theorem undone_insertion_kept :
    UpdateRequest (tripleRequest false true) ∧ OwnLines (tripleRequest false true) ∧
      NoStrayBraces (tripleRequest false true) ∧
      (∃ patch, parseSparqlUpdate tripleCodec (requestText (tripleRequest false true)).utf8 [] =
        .ok patch ∧ applyPatch [theTriple] patch = .ok [theTriple]) ∧
      readOps tripleCodec [] [] (tripleRequest false true) =
        some [(false, [theTriple]), (true, [theTriple])] ∧
      theTriple ∉ executeAll { t | t ∈ [theTriple] } [(false, [theTriple]), (true, [theTriple])] := by
  obtain ⟨hok, hlines, hbraces⟩ := tripleRequest_ok false true
  refine ⟨hok, hlines, hbraces, ⟨_, (tripleRequest_parse false true).2, by decide⟩, ?_, ?_⟩
  · decide
  · simp [executeAll, execute]

end SolidServer.Ldp
