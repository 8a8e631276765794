import SolidServer.Http.Fields

/-!
# Verified tokens

The identity a verified credential stands for, as the verifier hands it on, and the
reading of a `DPoP` credential that the token cache and the session-key layer share
(`auth.rs`).
-/

namespace SolidServer.Auth

/-- `X5tS256`: a certificate confirmation claim, present and possibly malformed. -/
inductive X5tS256 where
  | thumbprint (t : Text)
  | malformed
  deriving DecidableEq

/-- `VerifiedToken`, with the claims this server reads. -/
structure VerifiedToken where
  webId : Option Iri
  cnfJkt : Option Text
  cnfX5tS256 : Option X5tS256
  expiry : Option Int
  deriving DecidableEq

/-- `VerifiedToken::public`: no identity and no confirmation. -/
def VerifiedToken.public : VerifiedToken := ⟨none, none, none, none⟩

/-- `dpop_scheme_access_token`: the token of a `DPoP <token>` credential. -/
def dpopSchemeAccessToken (header : Text) : Option Text :=
  match Text.splitOnce (Text.trim header) ' ' with
  | none => none
  | some (scheme, rest) =>
    if Text.toAsciiLowercase scheme = "dpop".toList then
      let token := Text.trim rest
      if token = [] then none else some token
    else none

example : [" dpop   tok ", "Bearer tok", "DPoP "].map (fun h => dpopSchemeAccessToken h.toList) =
    [some "tok".toList, none, none] := by decide

end SolidServer.Auth
