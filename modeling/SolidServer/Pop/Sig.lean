import SolidServer.Text.Parser
import SolidServer.Http.Fields
import Mathlib.Data.List.Basic

/-!
# Attestations and the signature base

The strict structured-field parser behind the session-key profile, the validation of a
`dpop-sk` attestation, and the reconstruction of the text its tag is computed over
(`pop/sk/sig.rs`).  A field is a dictionary; each member keeps the text its value was
read from, because the signature base repeats that text as received.

The decoding of byte sequences is a parameter of the grammar.
-/

namespace SolidServer.Sig

open SolidServer.Parser

/-! ## §1 Structured fields -/

/-- A bare item. -/
inductive Bare where
  | integer (i : Int)
  | decimal (text : Text)
  | string (s : Text)
  | token (t : Text)
  | bytes (b : Bytes)
  | bool (b : Bool)
  deriving DecidableEq

abbrev Params := List (Text × Bare)

structure Item where
  bare : Bare
  params : Params
  deriving DecidableEq

inductive MemberValue where
  | item (i : Item)
  | innerList (items : List Item) (params : Params)
  deriving DecidableEq

/-- A dictionary member with the text its value and parameters were read from. -/
structure Member where
  key : Text
  value : MemberValue
  raw : Text
  deriving DecidableEq

def skipSp : Parser Text := takeWhile (· = ' ')

def skipOws : Parser Text := takeWhile fun c => c = ' ' || c = '\t'

def isKeyChar (c : Char) : Bool :=
  c.isLower || c.isDigit || c = '_' || c = '-' || c = '.' || c = '*'

def key : Parser Text := do
  let c ← next fun c => c.isLower || c = '*'
  let rest ← takeWhile isKeyChar
  pure (c :: rest)

def digitsValue (ds : Text) : Int :=
  (ds.foldl (fun acc c => acc * 10 + (c.toNat - '0'.toNat)) 0 : Nat)

/-- An integer of at most 15 digits, or a decimal with at most 12 and one to three
fractional digits. -/
def number : Parser Bare := do
  let negative ← eat '-'
  let int ← takeWhile Char.isDigit
  if int = [] then failure
  else if ← eat '.' then
    if int.length > 12 then failure
    else
      let frac ← takeWhile Char.isDigit
      if frac = [] ∨ frac.length > 3 then failure
      else pure (.decimal ((if negative then ['-'] else []) ++ int ++ '.' :: frac))
  else if int.length > 15 then failure
  else pure (.integer (if negative then - digitsValue int else digitsValue int))

/-- The characters after the opening quote, up to and including the closing one. -/
def stringTail : Parser Text
  | '"' :: rest => some ([], rest)
  | '\\' :: c :: rest =>
    if c = '"' ∨ c = '\\' then (stringTail rest).map fun y => (c :: y.1, y.2) else none
  | c :: rest =>
    if c ≠ '\\' ∧ 0x20 ≤ c.toNat ∧ c.toNat ≤ 0x7e then
      (stringTail rest).map fun y => (c :: y.1, y.2)
    else none
  | [] => none

def string : Parser Bare := do
  let _ ← next (· = '"')
  let s ← stringTail
  pure (.string s)

def isTokenChar (c : Char) : Bool := c.isAlphanum || "!#$%&'*+-.^_`|~:/".toList.contains c

def token : Parser Bare := do
  let c ← next fun c => c.isAlpha || c = '*'
  let rest ← takeWhile isTokenChar
  pure (.token (c :: rest))

def boolean : Parser Bare := do
  let _ ← next (· = '?')
  let c ← next fun c => c = '1' || c = '0'
  pure (.bool (c = '1'))

section Grammar
variable (decode : Text → Option Bytes)

def byteSequence : Parser Bare := do
  let _ ← next (· = ':')
  let b64 ← takeWhile fun c => c.isAlphanum || c = '+' || c = '/' || c = '='
  let _ ← next (· = ':')
  match decode b64 with
  | some b => pure (.bytes b)
  | none => failure

def bareItem : Parser Bare := dispatch fun c =>
  if c = '-' || c.isDigit then number
  else if c = '"' then string
  else if c = ':' then byteSequence decode
  else if c = '?' then boolean
  else if c.isAlpha || c = '*' then token
  else failure

/-- The value of a parameter; one without `=` is true. -/
def parameterValue : Parser Bare := do
  if ← eat '=' then bareItem decode else pure (.bool true)

/-- One turn of the parameter loop. -/
def parametersRound (params : Params) : Parser (Params ⊕ Params) := do
  if ← eat ';' then
    let _ ← skipSp
    let k ← key
    let value ← parameterValue decode
    if params.any fun kv => kv.1 = k then failure else pure (.inl (params ++ [(k, value)]))
  else pure (.inr params)

def parameters : Parser Params := rounds (parametersRound decode) []

def item : Parser Item := do
  let bare ← bareItem decode
  let params ← parameters decode
  pure ⟨bare, params⟩

/-- Look at the next character: an item of an inner list ends at a blank or a `)`. -/
def itemEnd : Parser Unit := fun s =>
  match s with
  | c :: _ => if c = ' ' ∨ c = ')' then some ((), s) else none
  | [] => none

/-- The next item of an inner list, or its end. -/
def itemOrClose : Parser (Option Item) := do
  let _ ← skipSp
  if ← eat ')' then pure none
  else
    let i ← item decode
    pure (some i)

/-- One turn of the inner-list loop. -/
def innerListRound (items : List Item) : Parser (List Item ⊕ (List Item × Params)) := do
  match ← itemOrClose decode with
  | none =>
    let params ← parameters decode
    pure (.inr (items, params))
  | some i =>
    itemEnd
    pure (.inl (items ++ [i]))

def innerList : Parser (List Item × Params) := do
  let _ ← next (· = '(')
  rounds (innerListRound decode) []

def itemOrInnerList : Parser MemberValue := dispatch fun c =>
  if c = '(' then do
    let (items, params) ← innerList decode
    pure (.innerList items params)
  else do
    let i ← item decode
    pure (.item i)

/-- A member without `=` is the item `?1` with optional parameters. -/
def implicitTrue : Parser MemberValue := do
  let params ← parameters decode
  pure (.item ⟨.bool true, params⟩)

/-- The value of a member and the text it was read from. -/
def memberValue : Parser (MemberValue × Text) := do
  if ← eat '=' then spanned (itemOrInnerList decode) else spanned (implicitTrue decode)

/-- One turn of the dictionary loop. -/
def dictionaryRound (members : List Member) : Parser (List Member ⊕ List Member) := do
  let k ← key
  let (value, raw) ← memberValue decode
  if members.any fun m => m.key = k then failure
  else
    let members := members ++ [⟨k, value, raw⟩]
    let _ ← skipOws
    match ← bump with
    | none => pure (.inr members)
    | some ',' => do
      let _ ← skipOws
      -- a trailing comma is an error
      dispatch fun _ => pure (.inl members)
    | some _ => failure

/-- `dictionary`: an empty field value is the empty dictionary. -/
def dictionary : Parser (List Member) := do
  let _ ← skipSp
  if (← get) = [] then pure [] else rounds (dictionaryRound decode) []

/-- `Parser::new(input)?.dictionary()`: ASCII only. -/
def parseDictionary (input : Text) : Option (List Member) :=
  if input.all fun c => c.toNat < 128 then (dictionary decode input).map Prod.fst else none

end Grammar

/-! ## §2 Attestations -/

/-- A covered component of an attestation. -/
inductive Component where
  | method
  | targetUri
  | field (name : Text)
  deriving DecidableEq

/-- A parsed and validated attestation. -/
structure Attestation where
  label : Text
  keyid : Text
  nonce : Nat
  created : Int
  expires : Option Int
  covered : List Component
  rawParams : Text
  signature : Bytes
  deriving DecidableEq

def tag : Text := "dpop-sk".toList

def alg : Text := "hmac-sha256".toList

def tagLen : Nat := 32

/-- `mentions_dpop_sk`: the routing test on a field value. -/
def mentionsDpopSk (signatureInput : Text) : Bool := Text.contains tag signatureInput

def MemberValue.params : MemberValue → Params
  | .item i => i.params
  | .innerList _ params => params

/-- The member carries the profile's tag. -/
def Member.tagged (m : Member) : Bool :=
  m.value.params.any fun kv => kv = ("tag".toList, .string tag)

/-- The characters of a plain field name. -/
def isFieldChar (c : Char) : Bool := c.isLower || c.isDigit || c = '-'

/-- The component an item of the inner list stands for. -/
def component (i : Item) : Option Component :=
  if i.params ≠ [] then none
  else match i.bare with
    | .string name =>
      if name = "@method".toList then some .method
      else if name = "@target-uri".toList then some .targetUri
      else if name.startsWith ['@'] then none
      else if name = [] ∨ name.all isFieldChar = false then none
      else some (.field name)
    | _ => none

/-- The covered components in declared order; a repeated one is an error. -/
def coveredFrom (covered : List Component) : List Item → Option (List Component)
  | [] => some covered
  | i :: items => do
    let c ← component i
    if c ∈ covered then none else coveredFrom (covered ++ [c]) items

/-- The components every attestation starts with. -/
def required : List Component := [.method, .targetUri, .field "authorization".toList]

/-- `parse_nonce`: the canonical decimal of a positive 64-bit number. -/
def parseNonce (s : Text) : Option Nat :=
  if s = [] ∨ s.length > 20 ∨ s.all Char.isDigit = false then none
  else if s.startsWith ['0'] then none
  else Text.parseUnsigned? 64 s

/-- The signature parameters read so far. -/
structure SigParams where
  keyid : Option Text
  nonce : Option Nat
  created : Option Int
  expires : Option Int

/-- One turn of the parameter match; an unknown or mistyped parameter is an error. -/
def SigParams.read (p : SigParams) (kv : Text × Bare) : Option SigParams :=
  match kv.2 with
  | .integer i =>
    if kv.1 = "created".toList then some { p with created := some i }
    else if kv.1 = "expires".toList then some { p with expires := some i }
    else none
  | .string s =>
    if kv.1 = "keyid".toList then some { p with keyid := some s }
    else if kv.1 = "nonce".toList then (parseNonce s).map fun n => { p with nonce := some n }
    else if kv.1 = "alg".toList ∧ s = alg then some p
    else if kv.1 = "tag".toList ∧ s = tag then some p
    else none
  | _ => none

def sigParams (params : Params) : Option SigParams :=
  params.foldlM SigParams.read ⟨none, none, none, none⟩

section Attest
variable (decode : Text → Option Bytes)

/-- The tag bytes of the `Signature` member paired with a label. -/
def pairedSignature (label signature : Text) : Option Bytes := do
  let members ← parseDictionary decode signature
  let m ← members.find? fun m => m.key = label
  match m.value with
  | .item ⟨.bytes b, []⟩ => if b.length ≠ tagLen then none else some b
  | _ => none

/-- The attestation a tagged member stands for. -/
def attest (m : Member) (signature : Text) : Option Attestation :=
  match m.value with
  | .item _ => none
  | .innerList items params => do
    let covered ← coveredFrom [] items
    if covered.take required.length ≠ required then none
    else
      let p ← sigParams params
      match p.keyid, p.nonce, p.created with
      | some keyid, some nonce, some created => do
        let signature ← pairedSignature decode m.key signature
        pure ⟨m.key, keyid, nonce, created, p.expires, covered, m.raw, signature⟩
      | _, _, _ => none

/-- `parse_attestation`: `some none` when no member carries the tag, `none` on any
malformation. -/
def parseAttestation (signatureInput signature : Text) : Option (Option Attestation) := do
  let members ← parseDictionary decode signatureInput
  match members.filter Member.tagged with
  | [] => some none
  | [m] => (attest decode m signature).map some
  | _ => none

end Attest

/-! ## §3 The signature base -/

/-- `field_value`: the trimmed instances of a field, joined; absent or undecodable fields
fail. -/
def fieldValue (headers : FieldMap) (name : Text) : Option Text := do
  let values ← (headers.getAll name).mapM HeaderValue.toStr?
  if values = [] then none
  else
    let trimmed := values.map fun s =>
      List.rdropWhile (fun c => c = ' ' || c = '\t') (s.dropWhile fun c => c = ' ' || c = '\t')
    pure (", ".toList.intercalate trimmed)

def line (name value : Text) : Text := '"' :: (name ++ ('"' :: ':' :: ' ' :: value))

def componentLine (method targetUri : Text) (headers : FieldMap) : Component → Option Text
  | .method => some (line "@method".toList (method.map Char.toUpper))
  | .targetUri => some (line "@target-uri".toList targetUri)
  | .field name => (fieldValue headers name).map (line name)

/-- `signature_base`: one line for each covered component, then the parameters as
received. -/
def signatureBase (a : Attestation) (method targetUri : Text) (headers : FieldMap) :
    Option Text := do
  let lines ← a.covered.mapM (componentLine method targetUri headers)
  pure (['\n'].intercalate (lines ++ [line "@signature-params".toList a.rawParams]))

end SolidServer.Sig
