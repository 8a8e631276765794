import SolidServer.Text.Encoding

/-!
# Requests, responses and errors at the HTTP boundary

The parts of the HTTP layer the handlers see: header values with the byte rules of
the header type, header maps with several lines per name, responses, and the error
type with its mapping onto a response (`error.rs`).
-/

namespace SolidServer

/-- An absolute resource identifier; the store's key. -/
abbrev Iri := Text

/-! ## §1 Header values -/

/-- The bytes a header value may hold: everything from space up except DEL, and tab. -/
def isHeaderByte (b : UInt8) : Bool := (32 ≤ b.toNat && b.toNat != 127) || b.toNat == 9

/-- The bytes that can be read back as text: visible ASCII, space and tab. -/
def isVisibleAscii (b : UInt8) : Bool := (32 ≤ b.toNat && b.toNat < 127) || b.toNat == 9

/-- A header value: a byte string that passed the header type's check. -/
structure HeaderValue where
  bytes : Bytes
  valid : bytes.all isHeaderByte = true
  deriving DecidableEq

namespace HeaderValue

/-- `HeaderValue::from_str`: the UTF-8 bytes of the text, if all are permitted. -/
def fromStr? (s : Text) : Option HeaderValue :=
  if h : s.utf8.all isHeaderByte = true then some ⟨s.utf8, h⟩ else none

/-- `HeaderValue::to_str`: defined on visible ASCII only. -/
def toStr? (v : HeaderValue) : Option Text :=
  if v.bytes.all isVisibleAscii then some (v.bytes.map fun b => Char.ofNat b.toNat) else none

end HeaderValue

/-- The header names the handlers read or write. -/
inductive HeaderName where
  | accept | acceptPatch | acceptPost | acceptRanges | allow | contentLength | contentRange
  | contentType | etag | ifMatch | ifModifiedSince | ifNoneMatch | lastModified | link | location
  | origin | range | slug | vary | wacAllow | wwwAuthenticate
  deriving DecidableEq, Repr

/-! ## §2 Header maps -/

/-- A header map: field lines in order; one name may occur on several lines. -/
abbrev HeaderMap := List (HeaderName × HeaderValue)

namespace HeaderMap

/-- The first value of a name. -/
def get (h : HeaderMap) (n : HeaderName) : Option HeaderValue :=
  (h.find? fun l => l.1 = n).map Prod.snd

/-- Every value of a name, in order. -/
def getAll (h : HeaderMap) (n : HeaderName) : List HeaderValue :=
  (h.filter fun l => l.1 = n).map Prod.snd

/-- Replace all lines of a name by one. -/
def insert (h : HeaderMap) (n : HeaderName) (v : HeaderValue) : HeaderMap :=
  h.filter (fun l => l.1 ≠ n) ++ [(n, v)]

def append (h : HeaderMap) (n : HeaderName) (v : HeaderValue) : HeaderMap := h ++ [(n, v)]

/-- `extend` with another map: its names replace the lines held so far. -/
def extend (h k : HeaderMap) : HeaderMap :=
  h.filter (fun l => (k.get l.1).isNone) ++ k

/-- `set_str`: insert a value, skipping one that cannot be encoded. -/
def setStr (h : HeaderMap) (n : HeaderName) (s : Text) : HeaderMap :=
  match HeaderValue.fromStr? s with
  | some v => h.insert n v
  | none => h

/-- `append` of a text value, skipping one that cannot be encoded. -/
def appendStr (h : HeaderMap) (n : HeaderName) (s : Text) : HeaderMap :=
  match HeaderValue.fromStr? s with
  | some v => h.append n v
  | none => h

end HeaderMap

/-- `header_str`: the first value of a name, when it reads as text. -/
def headerStr (h : HeaderMap) (n : HeaderName) : Option Text := (h.get n).bind HeaderValue.toStr?

/-- `request_origin`: the trimmed `Origin`, absent when empty or unreadable. -/
def requestOrigin (h : HeaderMap) : Option Text :=
  ((headerStr h .origin).map Text.trim).filter (· ≠ [])

/-! ## §3 Responses -/

/-- A response as it leaves a handler. -/
structure Response where
  status : Nat
  headers : HeaderMap
  body : Bytes
  deriving DecidableEq

namespace Response

def textPlain : Text := "text/plain; charset=utf-8".toList

def octetStream : Text := "application/octet-stream".toList

/-- `(status, headers).into_response()`: no body, no content type of its own. -/
def ofHeaders (status : Nat) (h : HeaderMap) : Response := ⟨status, h, []⟩

/-- `(status, text).into_response()`. -/
def ofText (status : Nat) (body : Text) : Response :=
  ⟨status, HeaderMap.setStr [] .contentType textPlain, body.utf8⟩

/-- `(status, headers, text).into_response()`: the map overrides the text's content type. -/
def ofHeadersText (status : Nat) (h : HeaderMap) (body : Text) : Response :=
  ⟨status, (HeaderMap.setStr [] .contentType textPlain).extend h, body.utf8⟩

/-- `(status, headers, bytes).into_response()`. -/
def ofHeadersBytes (status : Nat) (h : HeaderMap) (body : Bytes) : Response :=
  ⟨status, (HeaderMap.setStr [] .contentType octetStream).extend h, body⟩

end Response

/-! ## §4 Server errors -/

/-- `ServerError`, with the texts its variants carry. -/
inductive ServerError where
  | badRequest (msg : Text)
  | unauthorized (status : Nat) (message wwwAuthenticate : Text)
  | forbidden
  | notFound
  | conflict (msg : Text)
  | methodNotAllowed
  | preconditionFailed
  | rangeNotSatisfiable
  | notAcceptable
  | unprocessablePatch (msg : Text)
  | unsupportedMediaType (msg : Text)
  | storage (msg : Text)
  deriving DecidableEq, Repr

namespace ServerError

/-- `StatusCode::from_u16`: three-digit codes only. -/
def statusFromU16 (n : Nat) : Option Nat := if 100 ≤ n ∧ n < 1000 then some n else none

def status : ServerError → Nat
  | badRequest _ => 400
  | unauthorized s _ _ => (statusFromU16 s).getD 401
  | forbidden => 403
  | notFound => 404
  | conflict _ => 409
  | methodNotAllowed => 405
  | preconditionFailed => 412
  | rangeNotSatisfiable => 416
  | notAcceptable => 406
  | unprocessablePatch _ => 422
  | unsupportedMediaType _ => 415
  | storage _ => 500

/-- The body sent for a status: it never carries the error's own text. -/
def publicBody (status : Nat) : Text :=
  match status with
  | 500 => "internal server error".toList
  | 404 => "not found".toList
  | 403 => "forbidden".toList
  | 405 => "method not allowed".toList
  | 409 => "conflict".toList
  | 412 => "precondition failed".toList
  | 416 => "range not satisfiable".toList
  | 406 => "not acceptable".toList
  | 422 => "unprocessable entity".toList
  | 415 => "unsupported media type".toList
  | _ => "bad request".toList

def intoResponse (e : ServerError) : Response :=
  match e with
  | unauthorized _ _ www =>
    let resp := Response.ofText e.status "unauthorized".toList
    match HeaderValue.fromStr? www with
    | some v => { resp with headers := resp.headers.insert .wwwAuthenticate v }
    | none => resp
  | _ => Response.ofText e.status (publicBody e.status)

end ServerError

/-- The response a handler's result turns into. -/
def respond : Except ServerError Response → Response
  | .ok r => r
  | .error e => e.intoResponse

end SolidServer
