import SolidServer.Http

/-!
# RDF terms and the codec seam

Terms, triples and quads as the RDF libraries hand them over, and `RdfCodec`: the
parsers and serialisers the server calls but does not contain.  Everything the server
does with their results is modelled; what they do with bytes is a parameter.
-/

namespace SolidServer

/-! ## §1 Terms -/

structure Literal where
  value : Text
  datatype : Iri
  language : Option Text
  deriving DecidableEq, Repr

inductive NamedOrBlankNode where
  | namedNode (iri : Iri)
  | blankNode (label : Text)
  deriving DecidableEq, Repr

inductive Term where
  | namedNode (iri : Iri)
  | blankNode (label : Text)
  | literal (l : Literal)
  deriving DecidableEq, Repr

/-- A subject lifted into a term (`subject_as_term`, `Term::from`). -/
def NamedOrBlankNode.asTerm : NamedOrBlankNode → Term
  | namedNode i => .namedNode i
  | blankNode b => .blankNode b

structure Triple where
  subject : NamedOrBlankNode
  predicate : Iri
  object : Term
  deriving DecidableEq, Repr

inductive GraphName where
  | defaultGraph
  | namedNode (iri : Iri)
  | blankNode (label : Text)
  deriving DecidableEq, Repr

structure Quad where
  triple : Triple
  graphName : GraphName
  deriving DecidableEq, Repr

/-! ## §2 N3 -/

/-- A term of the N3 model: an RDF term or a variable. -/
inductive N3Term where
  | namedNode (iri : Iri)
  | blankNode (label : Text)
  | literal (l : Literal)
  | variable (name : Text)
  deriving DecidableEq, Repr

structure N3Quad where
  subject : N3Term
  predicate : N3Term
  object : N3Term
  graphName : GraphName
  deriving DecidableEq, Repr

/-! ## §3 The codec -/

/-- The RDF libraries.  A parser returns every statement of the document, or the text of
its first error. -/
structure RdfCodec where
  /-- `NamedNode::new`: an RFC 3987 check. -/
  validIri : Text → Bool
  /-- `with_base_iri`: the error text for a base that is not an IRI. -/
  badBase : Iri → Option Text
  parseTurtle : Iri → Bytes → Except Text (List Triple)
  parseJsonLd : Iri → Bytes → Except Text (List Quad)
  parseN3 : Iri → Bytes → Except Text (List N3Quad)
  writeTurtle : List Triple → Except Text Bytes
  writeJsonLd : List Triple → Except Text Bytes

end SolidServer
