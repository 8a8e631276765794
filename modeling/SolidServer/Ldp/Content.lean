import Mathlib.Data.Rat.Defs
import Mathlib.Algebra.Order.Ring.Unbundled.Rat
import SolidServer.Rdf

/-!
# RDF content types

Classification of media types, parsing to default-graph triples, serialisation and
`Accept` negotiation (`ldp/content.rs`).
-/

namespace SolidServer.Ldp

/-! ## §1 Formats -/

inductive RdfFormat where
  | turtle
  | jsonLd
  deriving DecidableEq, Repr

namespace RdfFormat

def mediaType : RdfFormat → Text
  | turtle => "text/turtle".toList
  | jsonLd => "application/ld+json".toList

end RdfFormat

/-- The media type proper: parameters dropped, trimmed, lower-cased. -/
def essence (raw : Text) : Text :=
  Text.toAsciiLowercase (Text.trim ((raw.splitOn ';').headD []))

/-- `classify`: the supported format a content type names, case-insensitively and without
its parameters. -/
def classify (contentType : Option Text) : Except ServerError RdfFormat :=
  match contentType with
  | none => .error (.unsupportedMediaType "missing".toList)
  | some raw =>
    if essence raw = "text/turtle".toList then .ok .turtle
    else if essence raw = "application/ld+json".toList then .ok .jsonLd
    else .error (.unsupportedMediaType (essence raw))

/-- The format a stored record is parsed under: an unrecognised type is read as Turtle. -/
def storedFormat (contentType : Text) : RdfFormat :=
  match classify (some contentType) with
  | .ok f => f
  | .error _ => .turtle

@[simp] theorem classify_mediaType (f : RdfFormat) : classify (some f.mediaType) = .ok f := by
  cases f <;> decide

@[simp] theorem storedFormat_mediaType (f : RdfFormat) : storedFormat f.mediaType = f := by
  simp [storedFormat]

/-! ## §2 Parsing and serialising -/

section
variable (codec : RdfCodec)

/-- `parse_to_triples`: the default-graph triples of a body.  Quads of named graphs in a
JSON-LD body are dropped. -/
def parseToTriples (format : RdfFormat) (body : Bytes) (baseIri : Iri) :
    Except ServerError (List Triple) :=
  match codec.badBase baseIri with
  | some e => .error (.badRequest ("invalid base IRI: ".toList ++ e))
  | none =>
    match format with
    | .turtle =>
      match codec.parseTurtle baseIri body with
      | .ok ts => .ok ts
      | .error e => .error (.badRequest ("invalid Turtle: ".toList ++ e))
    | .jsonLd =>
      match codec.parseJsonLd baseIri body with
      | .ok qs => .ok ((qs.filter fun q => q.graphName = .defaultGraph).map Quad.triple)
      | .error e => .error (.badRequest ("invalid JSON-LD: ".toList ++ e))

/-- `validate_rdf`: the number of triples of a well-formed body. -/
def validateRdf (format : RdfFormat) (body : Bytes) (baseIri : Iri) : Except ServerError Nat :=
  (parseToTriples codec format body baseIri).map List.length

def serializeTriples (format : RdfFormat) (triples : List Triple) : Except ServerError Bytes :=
  match format with
  | .turtle =>
    match codec.writeTurtle triples with
    | .ok b => .ok b
    | .error e => .error (.storage ("turtle serialise: ".toList ++ e))
  | .jsonLd =>
    match codec.writeJsonLd triples with
    | .ok b => .ok b
    | .error e => .error (.storage ("json-ld serialise: ".toList ++ e))

/-- Every parse failure is a `badRequest`. -/
theorem parseToTriples_error {f : RdfFormat} {b : Bytes} {base : Iri} {e : ServerError}
    (h : parseToTriples codec f b base = .error e) : ∃ msg, e = .badRequest msg := by
  unfold parseToTriples at h
  split at h
  · cases h; exact ⟨_, rfl⟩
  · split at h <;> split at h <;> first | (cases h; exact ⟨_, rfl⟩) | cases h

end

/-! ## §3 Negotiation -/

/-- A run of ASCII digits as a natural number, with its length. -/
def takeDigits (s : Text) : Nat × Nat × Text :=
  let ds := s.takeWhile Text.isAsciiDigit
  (ds.foldl (fun acc c => acc * 10 + (c.toNat - '0'.toNat)) 0, ds.length, s.drop ds.length)

/-- The exponent part of a float literal: empty, or `e`/`E`, a sign and digits. -/
def parseExponent? (s : Text) : Option Int :=
  match s with
  | [] => some 0
  | c :: rest =>
    if c = 'e' ∨ c = 'E' then
      let (neg, digits) :=
        match rest with
        | '-' :: r => (true, r)
        | '+' :: r => (false, r)
        | r => (false, r)
      let (n, k, tail) := takeDigits digits
      if k = 0 ∨ tail ≠ [] then none else some (if neg then -n else n)
    else none

/-- The magnitude a float literal without sign denotes. -/
def parseMagnitude? (s : Text) : Option ℚ :=
  let (whole, k, afterWhole) := takeDigits s
  let (frac, l, rest) :=
    match afterWhole with
    | '.' :: r => takeDigits r
    | r => (0, 0, r)
  if k = 0 ∧ l = 0 then none
  else (parseExponent? rest).map fun e =>
    ((whole : ℚ) + (frac : ℚ) / 10 ^ l) * (if 0 ≤ e then 10 ^ e.toNat else 1 / 10 ^ (-e).toNat)

/-- `v.parse::<f32>().unwrap_or(0.0).clamp(0.0, 1.0)` as the number it denotes (rounding to
the float grid aside): a malformed weight and NaN count as 0. -/
def parseWeight (v : Text) : ℚ :=
  let (neg, body) :=
    match v with
    | '-' :: r => (true, r)
    | '+' :: r => (false, r)
    | r => (false, r)
  let lower := Text.toAsciiLowercase body
  if lower = "inf".toList ∨ lower = "infinity".toList then if neg then 0 else 1
  else
    match parseMagnitude? body with
    | none => 0
    | some m => if neg then 0 else min m 1

/-- The weight of one `Accept` element: its last `q` parameter, else 1. -/
def elementWeight (params : List Text) : ℚ :=
  params.foldl (fun q param =>
    let p := Text.trim param
    match (Text.stripPrefix? p "q=".toList).or (Text.stripPrefix? p "Q=".toList) with
    | some v => parseWeight (Text.trim v)
    | none => q) 1

/-- One `Accept` element: its lower-cased media range and its weight. -/
def acceptElement (part : Text) : Text × ℚ :=
  match part.splitOn ';' with
  | [] => ([], 1)
  | media :: params => (Text.toAsciiLowercase (Text.trim media), elementWeight params)

/-- The largest weight listed for a media range. -/
def rangeWeight (elems : List (Text × ℚ)) (media : Text) : Option ℚ :=
  elems.foldl (fun slot e => if e.1 = media then some (max (slot.getD 0) e.2) else slot) none

/-- `negotiate_accept`: the format to answer in, `none` when the client accepts neither. -/
def negotiateAccept (accept : Option Text) (stored : RdfFormat) : Option RdfFormat :=
  match accept with
  | none => some stored
  | some raw =>
    if Text.trim raw = [] then some stored
    else
      let elems := (raw.splitOn ',').map acceptElement
      let slot := fun media : String => rangeWeight elems media.toList
      let turtle := (((slot "text/turtle").or (slot "text/*")).or (slot "*/*")).getD 0
      let jsonLd := (((slot "application/ld+json").or (slot "application/*")).or (slot "*/*")).getD 0
      if turtle ≤ 0 ∧ jsonLd ≤ 0 then none
      else
        match stored with
        | .turtle => if jsonLd ≤ turtle then some .turtle else some .jsonLd
        | .jsonLd =>
          if turtle ≤ jsonLd then some .jsonLd
          else if jsonLd ≤ turtle then some .turtle else some .jsonLd

end SolidServer.Ldp
