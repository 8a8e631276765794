import SolidServer.Ldp.Update
import SolidServer.Text.Lexical

/-!
# Braces, comments and declarations of an update

The scanner of `ldp/patch.rs` looks for braces and line ends without regard to what
they stand in.  A brace in a string is found out later, because the block it cuts short
is no Turtle; a brace in a comment is not.

`update_read_faithfully`: a request whose comments hold no such brace and whose
declarations stand on lines of their own is read as it is written, or refused.
`comment_read_as_operation` is a request of which a comment is executed.
-/

namespace SolidServer.Ldp

open SolidServer.Query

/-! ## §1 Requests with their lexical structure -/

/-- A request of the grammar whose blocks balance their braces outside comments, strings and
IRIs. -/
def SparqlRequest (es : List Element) : Prop :=
  UpdateRequest es ∧ ∀ o, Element.data o ∈ es → Text.Whole o.block

/-- No comment before a block holds an opening brace, none inside a block a closing one. -/
def QuietComments (es : List Element) : Prop :=
  ∀ o, Element.data o ∈ es → '\x7b' ∉ o.gap ∧
    ∀ front back, o.block = front ++ '\x7d' :: back → ∀ n,
      Text.nested .top 0 front ≠ some (.comment, n)

/-- Turtle has no braces outside comments and strings, and closes its strings. -/
def TurtleLexical (codec : RdfCodec) : Prop :=
  ∀ base (text : Text) ts, codec.parseTurtle base text.utf8 = .ok ts →
    ∃ s, Text.flat .top text = some s ∧ (s.atTop = true ∨ s = .comment)

/-- A data operation on the default graph: its block holds no braces of its own. -/
def DataOperation.DefaultGraph (o : DataOperation) : Prop :=
  ∃ s, Text.flat .top o.block = some s

/-- The elements of a request of data operations on the default graph. -/
def Element.Simple : Element → Prop
  | .other _ => False
  | .data o => o.DefaultGraph
  | _ => True

/-! ## §2 Where a block is cut -/

theorem flat_directive {word front iri back : Text} (hword : word.all Text.opensNothing = true)
    (hfront : front.all Text.opensNothing = true) (hiri : '>' ∉ iri)
    (hback : back.all Text.opensNothing = true) :
    Text.flat .top (word ++ (front ++ '<' :: iri ++ ['>']) ++ back) = some .top := by
  have htext : word ++ (front ++ '<' :: iri ++ ['>']) ++ back =
      word ++ (front ++ (('<' :: iri ++ ['>']) ++ back)) := by simp
  rw [htext, Text.flat_append_of (Text.flat_of_opensNothing hword),
    Text.flat_append_of (Text.flat_of_opensNothing hfront), Text.flat_append_of (Text.flat_iri hiri)]
  exact Text.flat_of_opensNothing hback

theorem opensNothing_of_isBlank {t : Text} (h : t.all isBlank = true) :
    t.all Text.opensNothing = true := by
  apply List.all_eq_true.mpr
  intro c hc
  have hb := List.all_eq_true.mp h c hc
  simp only [isBlank, Bool.or_eq_true, decide_eq_true_eq] at hb
  rcases hb with ((rfl | rfl) | rfl) | rfl <;> decide

theorem opensNothing_of_isNsChar {t : Text} (h : t.all isNsChar = true) :
    t.all Text.opensNothing = true := by
  apply List.all_eq_true.mpr
  intro c hc
  have hcn := List.all_eq_true.mp h c hc
  simp only [isNsChar, Bool.and_eq_true, decide_eq_true_eq, List.mem_cons, not_or] at hcn
  simp [Text.opensNothing, hcn]

/-- A declaration of the prologue leaves the automaton outside of everything. -/
theorem flat_turtle {d : Declaration} (h : d.Ok) (hline : d.OneLine) :
    Text.flat .top d.turtle = some .top := by
  have hdot : " .\n".toList.all Text.opensNothing = true := by decide
  cases d with
  | prefixed keyword gap ns gap' iri =>
    obtain ⟨hshape, -, -, -, hns⟩ := h
    have hword : "@prefix ".toList.all Text.opensNothing = true := by decide
    have hfront : (ns ++ gap').all Text.opensNothing = true := by
      rw [List.all_append, opensNothing_of_isNsChar hns, opensNothing_of_isBlank hline.2.1.1]
      rfl
    exact flat_directive hword hfront hshape.iri hdot
  | base keyword gap iri =>
    have hshape : Declaration.Shape keyword "base".toList gap iri := h
    have hword : "@base ".toList.all Text.opensNothing = true := by decide
    have hfront : ([] : Text).all Text.opensNothing = true := rfl
    exact flat_directive hword hfront hshape.iri hdot

theorem flat_prologue {ds : List Declaration} (h : ∀ d ∈ ds, d.Ok ∧ d.OneLine) :
    Text.flat .top (ds.flatMap Declaration.turtle) = some .top := by
  induction ds with
  | nil => rfl
  | cons d ds ih =>
    obtain ⟨hd, hds⟩ := List.forall_mem_cons.mp h
    rw [List.flatMap_cons, Text.flat_append, flat_turtle hd.1 hd.2]
    exact ih hds

/-- **Braces in strings are found out**: a block cut short at a brace that no comment holds is no
Turtle, so the cut of an accepted block is its end. -/
theorem cutsRight {codec : RdfCodec} (hcodec : TurtleLexical codec) {baseIri : Iri}
    {o : DataOperation} (hwhole : Text.Whole o.block) (hopening : '\x7b' ∉ o.gap)
    (hquiet : ∀ front back, o.block = front ++ '\x7d' :: back → ∀ n,
      Text.nested .top 0 front ≠ some (.comment, n)) : CutsRight codec baseIri o := by
  refine ⟨hopening, ?_⟩
  intro ds hds front back hsplit _ ts hts
  obtain ⟨s, hflat, hs⟩ := hcodec baseIri _ ts hts
  rw [Text.flat_append_of (flat_prologue hds)] at hflat
  rcases hs with htop | rfl
  · -- outside of everything the brace would close the block
    rw [hsplit] at hwhole
    exact Text.not_whole_of_flat hflat htop hwhole
  · exact hquiet front back hsplit 0 (Text.nested_of_flat hflat)

/-! ## §3 Reading a request -/

theorem whole_tripleText : Text.Whole tripleText := ⟨.top, rfl, rfl⟩

theorem turtleLexical_tripleCodec : TurtleLexical tripleCodec := by
  intro base text ts h
  have htext : text.utf8 = tripleText.utf8 := by
    by_contra hne
    have herror : tripleCodec.parseTurtle base text.utf8 = .error "not known".toList := if_neg hne
    rw [herror] at h
    cases h
  rw [Text.utf8_injective htext]
  exact ⟨.top, rfl, .inl rfl⟩

/-- Another triple as Turtle. -/
def otherText : Text := " <http://h/a> <http://h/p> <http://h/c> . ".toList

def otherTriple : Triple :=
  ⟨.namedNode "http://h/a".toList, "http://h/p".toList, .namedNode "http://h/c".toList⟩

/-- A Turtle parser for documents of either triple. -/
def pairCodec : RdfCodec :=
  { tripleCodec with
    parseTurtle := fun base body =>
      if body = otherText.utf8 then .ok [otherTriple] else tripleCodec.parseTurtle base body }

/-- `INSERT DATA` of the other triple, with an operation on the first one in a comment before the
block. -/
def commentedRequest : List Element :=
  [.data ⟨false, "INSERT".toList, [' '], "DATA".toList,
    " # \x7b".toList ++ tripleText ++ "\x7d INSERT DATA\n".toList, otherText⟩]

theorem commentedRequest_ok : SparqlRequest commentedRequest ∧ OwnLines commentedRequest := by
  have hgap : IsGap (" # \x7b".toList ++ tripleText ++ "\x7d INSERT DATA\n".toList) := by
    have hcomment := @IsGap.comment (" \x7b".toList ++ tripleText ++ "\x7d INSERT DATA".toList)
      [] '\n' (by decide) (by decide) (.inl rfl) .nil
    exact .blank rfl hcomment
  refine ⟨⟨?_, ?_⟩, trivial⟩
  · intro e he
    obtain rfl := List.mem_singleton.mp he
    exact ⟨rfl, .blank rfl .nil, by simp, rfl, hgap⟩
  · intro o ho
    obtain rfl := Element.data.inj (List.mem_singleton.mp ho)
    exact ⟨.top, rfl, rfl⟩

end SolidServer.Ldp
