import SolidServer.Auth.Middleware
import SolidServer.Authz.Decision

/-!
# The public-read short cut

In front of the authentication layer a read without credential headers is served at once,
as an anonymous one (`ldp/public_read_skip.rs`).  The short cut is meant to be invisible.
It looks at `Authorization` and `DPoP` only; a request can also claim the session-key
profile, by its `Signature-Input`, and the full path answers such a claim before it looks
at either.
-/

namespace SolidServer.Auth

open SolidServer.Effects SolidServer.Store SolidServer.Authz SolidServer.Ldp SolidServer.Sk

/-! ## §1 The two paths -/

/-- The server as it is wired: the handlers get the auth layer's base URL and challenge. -/
structure App (ρ : Type) where
  auth : AuthContext ρ
  codec : RdfCodec

namespace App

variable {ρ : Type} (app : App ρ)

def ldp : LdpState := ⟨app.codec, app.auth.baseUrl, app.auth.unauthenticatedChallenge⟩

/-- The auth layer, then the handler. -/
def fullPath (st : AuthState ρ) (w : World) (req : WebRequest) (now : Int) :
    Response × AuthState ρ × World :=
  match app.auth.authMiddleware st req now with
  | (.error e, st) => (e.intoResponse, st, w)
  | (.ok token, st) =>
    let r := app.ldp.handle (req.ldp token) w
    (r.1, st, r.2)

/-- The read behind the short cut: `serve_read` as the public. -/
def anonymousRead (w : World) (req : WebRequest) (withBody : Bool) : Response × World :=
  let r := exec (app.ldp.serveRead (req.ldp VerifiedToken.public) withBody) w
  (respond r.1, r.2)

/-- `public_read_skip_middleware`, and behind it the full path. -/
def withSkip (st : AuthState ρ) (w : World) (req : WebRequest) (now : Int) :
    Response × AuthState ρ × World :=
  let skip (withBody : Bool) : Response × AuthState ρ × World :=
    if req.fields.containsKey "authorization".toList || req.fields.containsKey "dpop".toList then
      app.fullPath st w req now
    else
      let r := app.anonymousRead w req withBody
      (r.1, st, r.2)
  match req.method with
  | .get => skip true
  | .head => skip false
  | _ => app.fullPath st w req now

end App

/-- The verifier's documented answer to a request without `Authorization`: the public token. -/
def Verifier.PublicWithoutCredentials {ρ : Type} (v : Verifier ρ) : Prop :=
  ∀ req now rs, req.authorization = none → (v.verify req now rs).1 = .ok VerifiedToken.public

/-! ## §2 Requests without credentials -/

section
variable {ρ : Type} {app : App ρ} {st : AuthState ρ} {w : World} {req : WebRequest} {now : Int}

/-- The request the short cut serves. -/
def WebRequest.Skipped (req : WebRequest) : Prop :=
  (req.method = .get ∨ req.method = .head) ∧
    req.fields.containsKey "authorization".toList = false ∧
    req.fields.containsKey "dpop".toList = false

theorem headerString_absent {fields : FieldMap} {name : Text}
    (h : fields.containsKey name = false) : AuthContext.headerString fields name = .ok none := by
  simp [AuthContext.headerString, FieldMap.get, FieldMap.getAll_eq_nil h]

theorem finalizePop_public (ctx : AuthContext ρ) (presented : Option CertThumbprint) :
    ctx.finalizePop VerifiedToken.public presented = .ok VerifiedToken.public := by
  unfold AuthContext.finalizePop
  split_ifs <;> rfl

/-- Without a credential the layer hands on the public token, or the target's own error. -/
theorem authenticateWithCert_public (hv : app.auth.verifier.PublicWithoutCredentials)
    (st : AuthState ρ) (method path : Text) (cert : Option CertThumbprint) (now : Int) :
    (app.auth.authenticateWithCert st none none method path cert now).1 =
      (parseTarget app.auth.baseUrl path).map fun _ => VerifiedToken.public := by
  unfold AuthContext.authenticateWithCert AuthContext.authenticateInner
  cases parseTarget app.auth.baseUrl path with
  | error e => rfl
  | ok target =>
    -- no token, so the cache is not asked
    simp only [Option.bind_none, ite_self, AuthContext.runVerifier]
    cases hres : app.auth.verifier.verify ⟨none, none, method.map Char.toUpper, target.htu,
        if app.auth.mtlsBoundTokens = true then
          cert.map fun t => app.auth.primitives.base64Url t.bytes else none⟩ now st.replay with
    | mk res rs =>
      have hpublic := hv ⟨none, none, method.map Char.toUpper, target.htu,
        if app.auth.mtlsBoundTokens = true then
          cert.map fun t => app.auth.primitives.base64Url t.bytes else none⟩ now st.replay rfl
      rw [hres] at hpublic
      subst hpublic
      exact finalizePop_public app.auth cert

/-- The profile decides every request, and verifies none without a credential. -/
theorem skDecision_cases (app : App ρ) (st : AuthState ρ) (now : Int)
    (h : req.fields.containsKey "authorization".toList = false) :
    (app.auth.skDecision st req now).1 = .ok .notApplicable ∨
      (app.auth.skDecision st req now).1 = .ok .deny := by
  unfold AuthContext.skDecision
  cases app.auth.sk with
  | none => exact .inl rfl
  | some window =>
    obtain ⟨log, d, hd, hverified⟩ := (verifyAttestedRequest_justified app.auth.crypto window
      (app.auth.skRequest req now)).run skSemantics (fun _ _ => trivial) st.sessions
    simp only [hd]
    cases d with
    | notApplicable => exact .inl rfl
    | deny => exact .inr rfl
    | verified token id =>
      obtain ⟨a, hdl, hadmitted, -⟩ := hverified token id rfl
      obtain ⟨v, _, _, hauth, -⟩ := hadmitted.credential
      have hnone : req.fields.getAll "authorization".toList = [] := FieldMap.getAll_eq_nil h
      rw [show (app.auth.skRequest req now).headers = req.fields from rfl, hnone] at hauth
      cases hauth

/-- The short cut serves what the handler serves to the public. -/
theorem withSkip_of_skipped (h : req.Skipped) : (app.withSkip st w req now).1 =
    (app.ldp.handle (req.ldp VerifiedToken.public) w).1 := by
  obtain ⟨hm, hauth, hdpop⟩ := h
  unfold App.withSkip LdpState.handle WebRequest.ldp
  rcases hm with hm | hm
  · simp only [hm, hauth, hdpop]
    rfl
  · simp only [hm, hauth, hdpop, Bool.or_self]
    rfl

/-- Every other request takes the full path. -/
theorem withSkip_of_not_skipped (h : ¬ req.Skipped) :
    app.withSkip st w req now = app.fullPath st w req now := by
  unfold App.withSkip
  have hcred : (req.method = .get ∨ req.method = .head) →
      (req.fields.containsKey "authorization".toList ||
        req.fields.containsKey "dpop".toList) = true := by
    intro hm
    by_contra hno
    simp only [Bool.not_eq_true, Bool.or_eq_false_iff] at hno
    exact h ⟨hm, hno⟩
  cases hm : req.method with
  | get => simp only [hcred (.inl hm), if_true]
  | head => simp only [hcred (.inr hm), if_true]
  | options => rfl
  | post => rfl
  | put => rfl
  | patch => rfl
  | delete => rfl

/-- A read answers a bad target with the target's error. -/
theorem handle_bad_target {e : ServerError} (hm : req.method = .get ∨ req.method = .head)
    (h : parseTarget app.auth.baseUrl req.path = .error e) (token : VerifiedToken) :
    (app.ldp.handle (req.ldp token) w).1 = e.intoResponse := by
  have hread : ∀ withBody,
      exec (app.ldp.serveRead (req.ldp token) withBody) w = (.error e, w) := by
    intro withBody
    unfold LdpState.serveRead
    have htarget : parseTarget app.ldp.baseUrl (req.ldp token).path = .error e := h
    rw [htarget]
    rfl
  unfold LdpState.handle LdpState.serve
  rcases hm with hm | hm
  · have hm' : (req.ldp token).method = .get := hm
    simp only [hm', hread true]
    rfl
  · have hm' : (req.ldp token).method = .head := hm
    simp only [hm', hread false]
    rfl

/-- The full path of a read without credentials: the anonymous read, or the challenge. -/
theorem fullPath_of_skipped (hv : app.auth.verifier.PublicWithoutCredentials) (h : req.Skipped) :
    (app.fullPath st w req now).1 =
      if (app.auth.skDecision st req now).1 = .ok .deny then
        (ServerError.unauthorized 401 "Invalid DPoP-SK attestation.".toList
          app.auth.unauthenticatedChallenge).intoResponse
      else (app.ldp.handle (req.ldp VerifiedToken.public) w).1 := by
  obtain ⟨hm, hauth, hdpop⟩ := h
  unfold App.fullPath AuthContext.authMiddleware
  cases hsk : app.auth.skDecision st req now with
  | mk d st' =>
    have hcases := skDecision_cases app st now hauth
    rw [hsk] at hcases
    rcases hcases with hd | hd
    · subst hd
      simp only [headerString_absent hauth, headerString_absent hdpop]
      have hpublic := authenticateWithCert_public hv st' (methodText req.method) req.path req.cert
        now
      cases hres : app.auth.authenticateWithCert st' none none (methodText req.method) req.path
          req.cert now with
      | mk res st'' =>
        rw [hres] at hpublic
        simp only at hpublic
        cases htarget : parseTarget app.auth.baseUrl req.path with
        | error e =>
          obtain rfl : res = .error e := by rw [hpublic, htarget]; rfl
          exact (handle_bad_target hm htarget VerifiedToken.public).symm
        | ok target =>
          obtain rfl : res = .ok VerifiedToken.public := by rw [hpublic, htarget]; rfl
          rfl
    · subst hd
      rfl

/-- **Transparency of the short cut**: the two answers are equal exactly when the request is
not served by it, the session-key profile does not deny it, or the anonymous read is itself
answered with that challenge. -/
theorem skip_transparent_iff (hv : app.auth.verifier.PublicWithoutCredentials)
    (st : AuthState ρ) (w : World) (req : WebRequest) (now : Int) :
    (app.withSkip st w req now).1 = (app.fullPath st w req now).1 ↔
      (req.Skipped → (app.auth.skDecision st req now).1 = .ok .deny →
        (app.ldp.handle (req.ldp VerifiedToken.public) w).1 =
          (ServerError.unauthorized 401 "Invalid DPoP-SK attestation.".toList
            app.auth.unauthenticatedChallenge).intoResponse) := by
  by_cases h : req.Skipped
  · rw [withSkip_of_skipped h, fullPath_of_skipped hv h]
    split_ifs with hdeny
    · exact ⟨fun heq _ _ => heq, fun himp => himp h hdeny⟩
    · exact ⟨fun _ _ hd => absurd hd hdeny, fun _ => rfl⟩
  · rw [withSkip_of_not_skipped h]
    exact ⟨fun _ hs => absurd hs h, fun _ => rfl⟩

end

/-! ## §3 A claim of the session-key profile -/

/-- A verifier that knows no tokens: the public without a credential, else a refusal. -/
def sampleVerifier : Verifier Unit where
  verify req _ rs :=
    match req.authorization with
    | none => (.ok VerifiedToken.public, rs)
    | some _ => (.error ⟨.invalidToken, [], true⟩, rs)
  status _ := 401
  wwwAuthenticate _ := "DPoP".toList

/-- A server over a small storage, with the session-key profile on or off. -/
def sampleApp (sk : Option Int) : App Unit where
  auth :=
    { verifier := sampleVerifier
      replayStore := ⟨fun rs _ _ _ => (.ok .new, rs)⟩
      primitives := samplePrimitives 0
      crypto := sampleCrypto
      base64UrlDecode := fun _ => none
      baseUrl := "http://h".toList
      cached := true
      mtlsBoundTokens := false
      sk := sk }
  codec := sampleWac.codec

def sampleAuthState : AuthState Unit :=
  ⟨VerifiedTokenCache.withMaxEntryTtl 1 samplePolicy 300, (), SkWorld.boot 1⟩

/-- A storage with one document that everybody may read. -/
def documentWorld : World :=
  World.seeded samplePod [("http://h/a".toList, [0]), (aclFor samplePod, [0, 1, 2, 3, 4])]

/-- A read of the document, without credentials, that mentions the profile in a field which is
no dictionary. -/
def claimingRead : WebRequest where
  method := .get
  path := "/a".toList
  pathAndQuery := "/a".toList
  fields := ((HeaderValue.fromStr? "\"dpop-sk\"".toList).map fun v =>
    [("signature-input".toList, v)]).getD []
  body := []
  conn := none
  cert := none

theorem skip_transparent_iff_off :
    ((sampleApp none).withSkip sampleAuthState documentWorld claimingRead 0).1 =
      ((sampleApp none).fullPath sampleAuthState documentWorld claimingRead 0).1 := by
  have hv : (sampleApp none).auth.verifier.PublicWithoutCredentials := by
    rintro ⟨_, _, _, _, _⟩ now rs rfl
    rfl
  refine (skip_transparent_iff hv sampleAuthState documentWorld claimingRead 0).mpr ?_
  intro _ hdeny
  cases hdeny

/-- **The short cut is visible**: it serves a public read that the full path refuses, because
the request names the session-key profile in a `Signature-Input` that does not parse. -/
theorem skip_answers_denied_claim :
    ((sampleApp (some 300)).withSkip sampleAuthState documentWorld claimingRead 0).1.status = 200 ∧
      ((sampleApp (some 300)).fullPath sampleAuthState documentWorld claimingRead 0).1.status = 401 := by
  decide

end SolidServer.Auth
