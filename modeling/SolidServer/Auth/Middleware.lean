import SolidServer.Auth.Cache
import SolidServer.Ldp.Handler
import SolidServer.Pop.Verify

/-!
# The authentication middleware

What stands between a request and the handlers (`auth.rs`, `pop/mod.rs`,
`pop/cert_bound.rs`, `ldp/public_read_skip.rs`): the session-key dispatch, the reading of
the credential headers, the token cache in front of the verifier, the certificate
confirmation, and in front of all of it the short cut for reads without credentials.

The verifier is a library; it is a parameter, with the replay store it marks in as its
state.  One reading of the clock stands for those of a request.
-/

namespace SolidServer.Auth

open SolidServer.Effects SolidServer.Store SolidServer.Authz SolidServer.Ldp SolidServer.Sk

/-! ## §1 Certificate confirmation -/

/-- `CertThumbprint`. -/
structure CertThumbprint where
  bytes : Bytes
  length : bytes.length = 32
  deriving DecidableEq

/-- `Confirmation`. -/
inductive Confirmation where
  | dpop (jkt : Text)
  | certBound (x5tS256 : CertThumbprint)
  | multipleBindings
  | unbound

/-- `Confirmation::select`. -/
def Confirmation.select (jkt : Option Text) (x5tS256 : Option CertThumbprint) : Confirmation :=
  match x5tS256, jkt with
  | some t, none => .certBound t
  | none, some jkt => .dpop jkt
  | some _, some _ => .multipleBindings
  | none, none => .unbound

inductive CertBindingDenial where
  | noCertPresented
  | thumbprintMismatch

inductive CertBindingOutcome where
  | confirmed
  | denied (d : CertBindingDenial)

/-- `verify_cert_binding`. -/
def verifyCertBinding (expected : CertThumbprint) (presented : Option CertThumbprint) :
    CertBindingOutcome :=
  match presented with
  | none => .denied .noCertPresented
  | some t => if t = expected then .confirmed else .denied .thumbprintMismatch

inductive PopRoute where
  | dpop
  | certBound (outcome : CertBindingOutcome)
  | multipleBindings
  | unbound

/-- `dispatch`. -/
def popDispatch (confirmation : Confirmation) (presented : Option CertThumbprint) : PopRoute :=
  match confirmation with
  | .dpop _ => .dpop
  | .certBound t => .certBound (verifyCertBinding t presented)
  | .multipleBindings => .multipleBindings
  | .unbound => .unbound

/-! ## §2 The context -/

/-- The verifier's `AuthRequest`. -/
structure AuthRequest where
  authorization : Option Text
  dpop : Option Text
  method : Text
  url : Text
  clientCertX5tS256 : Option Text

/-- The verifier, over the states `ρ` of its replay store. -/
structure Verifier (ρ : Type) where
  verify : AuthRequest → Int → ρ → Except VerifyError VerifiedToken × ρ
  status : VerifyError → Nat
  wwwAuthenticate : VerifyError → Text

/-- `AuthContext`; `sk` holds the session-key profile's `created` window when it is on. -/
structure AuthContext (ρ : Type) where
  verifier : Verifier ρ
  replayStore : ReplayStore ρ
  primitives : Primitives
  crypto : Crypto
  base64UrlDecode : Text → Option Bytes
  baseUrl : Text
  cached : Bool
  mtlsBoundTokens : Bool
  sk : Option Int

/-- What the layer keeps between requests. -/
structure AuthState (ρ : Type) where
  cache : VerifiedTokenCache
  replay : ρ
  sessions : SkWorld

/-- A request at the door; `conn` and `cert` belong to its connection. -/
structure WebRequest where
  method : Method
  path : Text
  pathAndQuery : Text
  fields : FieldMap
  body : Bytes
  conn : Option Nat
  cert : Option CertThumbprint

def methodText : Method → Text
  | .get => "GET".toList
  | .head => "HEAD".toList
  | .options => "OPTIONS".toList
  | .post => "POST".toList
  | .put => "PUT".toList
  | .patch => "PATCH".toList
  | .delete => "DELETE".toList

/-- The request the handlers see, with the identity of a verified token. -/
def WebRequest.ldp (r : WebRequest) (token : VerifiedToken) : Ldp.Request :=
  ⟨r.method, r.path, r.fields.headers, r.body, token.webId⟩

namespace AuthContext

variable {ρ : Type} (ctx : AuthContext ρ)

def refuse (e : VerifyError) : ServerError :=
  .unauthorized (ctx.verifier.status e) e.message (ctx.verifier.wwwAuthenticate e)

/-- `unauthenticated_challenge`. -/
def unauthenticatedChallenge : Text :=
  ctx.verifier.wwwAuthenticate
    ⟨.invalidToken, "Authentication required for this resource.".toList, true⟩

/-- `cert_bound_denied`. -/
def certBoundDenied : ServerError :=
  .unauthorized 401
    "The access token's certificate binding was not satisfied on this connection.".toList
    ctx.unauthenticatedChallenge

/-- `CertThumbprint::from_base64url`. -/
def thumbprintFromBase64Url (value : Text) : Option CertThumbprint := do
  let b ← ctx.base64UrlDecode value
  if h : b.length = 32 then some ⟨b, h⟩ else none

/-- `finalize_pop`. -/
def finalizePop (token : VerifiedToken) (presented : Option CertThumbprint) :
    Except ServerError VerifiedToken :=
  if !ctx.mtlsBoundTokens then .ok token
  else
    let confirm (x5t : Option CertThumbprint) : Except ServerError VerifiedToken :=
      match popDispatch (Confirmation.select token.cnfJkt x5t) presented with
      | .dpop => .ok token
      | .unbound => .ok token
      | .certBound .confirmed => .ok token
      | .certBound (.denied _) => .error ctx.certBoundDenied
      | .multipleBindings => .error ctx.certBoundDenied
    match token.cnfX5tS256 with
    | none => confirm none
    | some (.thumbprint t) =>
      match ctx.thumbprintFromBase64Url t with
      | some tp => confirm (some tp)
      | none => .error ctx.certBoundDenied
    | some .malformed => .error ctx.certBoundDenied

/-- The verifier's own decision. -/
def runVerifier (st : AuthState ρ) (req : AuthRequest) (now : Int) :
    Except ServerError VerifiedToken × AuthState ρ :=
  match ctx.verifier.verify req now st.replay with
  | (.ok token, rs) => (.ok token, { st with replay := rs })
  | (.error e, rs) => (.error (ctx.refuse e), { st with replay := rs })

/-- `authenticate_inner`: the cache for a `DPoP` token when it is on, else the verifier. -/
def authenticateInner (st : AuthState ρ) (authorization dpop : Option Text) (method path : Text)
    (presented : Option CertThumbprint) (now : Int) :
    Except ServerError VerifiedToken × AuthState ρ :=
  match parseTarget ctx.baseUrl path with
  | .error e => (.error e, st)
  | .ok target =>
    let methodUc := method.map Char.toUpper
    let clientCert :=
      if ctx.mtlsBoundTokens then presented.map fun t => ctx.primitives.base64Url t.bytes else none
    let req : AuthRequest := ⟨authorization, dpop, methodUc, target.htu, clientCert⟩
    match (if ctx.cached then authorization.bind dpopSchemeAccessToken else none) with
    | none => ctx.runVerifier st req now
    | some accessToken =>
      match st.cache.authenticate ctx.primitives ctx.replayStore st.replay
        ⟨accessToken, dpop, methodUc, target.htu, now⟩ with
      | (.verified token, cache, rs) => (.ok token, { st with cache, replay := rs })
      | (.reject e, cache, rs) => (.error (ctx.refuse e), { st with cache, replay := rs })
      | (.miss, cache, rs) =>
        match ctx.runVerifier { st with cache, replay := rs } req now with
        | (.error e, st) => (.error e, st)
        | (.ok token, st) =>
          -- a token with a certificate binding is not cached while certificates are on
          if !(ctx.mtlsBoundTokens && token.cnfX5tS256.isSome) then
            (.ok token,
              { st with cache := st.cache.insert ctx.primitives accessToken token now })
          else (.ok token, st)

/-- `authenticate_with_cert`. -/
def authenticateWithCert (st : AuthState ρ) (authorization dpop : Option Text)
    (method path : Text) (presented : Option CertThumbprint) (now : Int) :
    Except ServerError VerifiedToken × AuthState ρ :=
  match ctx.authenticateInner st authorization dpop method path presented now with
  | (.error e, st) => (.error e, st)
  | (.ok token, st) => (ctx.finalizePop token presented, st)

/-- `header_string`: absent, readable, or an error. -/
def headerString (fields : FieldMap) (name : Text) : Except Unit (Option Text) :=
  match fields.get name with
  | none => .ok none
  | some v =>
    match v.toStr? with
    | some s => .ok (some s)
    | none => .error ()

/-- What the session-key profile sees of a request. -/
def skRequest (req : WebRequest) (now : Int) : SkRequest where
  headers := req.fields
  method := methodText req.method
  targetUri := Text.trimEndMatches ctx.baseUrl '/' ++ req.pathAndQuery
  conn := req.conn
  now := now

/-- The profile's decision; `NotApplicable` while it is off. -/
def skDecision (st : AuthState ρ) (req : WebRequest) (now : Int) :
    Except ServerError SkDecision × AuthState ρ :=
  match ctx.sk with
  | none => (.ok .notApplicable, st)
  | some window =>
    let r := (verifyAttestedRequest ctx.crypto window (ctx.skRequest req now)).run skSemantics
      st.sessions
    (r.1, { st with sessions := r.2 })

/-- `auth_middleware`, up to the point where the handlers are called. -/
def authMiddleware (st : AuthState ρ) (req : WebRequest) (now : Int) :
    Except ServerError VerifiedToken × AuthState ρ :=
  match ctx.skDecision st req now with
  | (.error e, st) => (.error e, st)
  | (.ok (.verified token _), st) => (.ok token, st)
  | (.ok .deny, st) =>
    (.error (.unauthorized 401 "Invalid DPoP-SK attestation.".toList ctx.unauthenticatedChallenge),
      st)
  | (.ok .notApplicable, st) =>
    match headerString req.fields "authorization".toList with
    | .error () => (.error (.badRequest "malformed Authorization header".toList), st)
    | .ok authorization =>
      match headerString req.fields "dpop".toList with
      | .error () => (.error (.badRequest "malformed DPoP header".toList), st)
      | .ok dpop =>
        ctx.authenticateWithCert st authorization dpop (methodText req.method) req.path req.cert now

end AuthContext

end SolidServer.Auth
