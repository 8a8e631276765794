import Mathlib.Algebra.Order.Group.Unbundled.Int
import SolidServer.Pop.Session
import SolidServer.Pop.SigBase

/-!
# Verifying an attested request

The session-key profile's decision on one request (`pop/sk/verify.rs`): route and parse,
look the session up, check the connection, the token, the times and the tag, and only
then mark the counter.  The decision is a program over the session store, so that the
requests of a server can be interleaved step by step.
-/

namespace SolidServer.Sk

open SolidServer.Effects SolidServer.Auth SolidServer.Sig

/-! ## §1 The decision -/

/-- The primitives the profile calls: base64, SHA-256 and HMAC-SHA256. -/
structure Crypto where
  decode : Text → Option Bytes
  sha256 : Bytes → Bytes
  hmac : Bytes → Bytes → Bytes

/-- `SkDecision`. -/
inductive SkDecision where
  | notApplicable
  | verified (token : VerifiedToken) (sessionId : Text)
  | deny
  deriving DecidableEq

/-- What the profile sees of a request; `conn` is the connection's identifier, if any. -/
structure SkRequest where
  headers : FieldMap
  method : Text
  targetUri : Text
  conn : Option Nat
  now : Int

/-- `join_field`: the instances of a structured field, combined. -/
def joinField (values : List HeaderValue) : Option Text := do
  let parts ← values.mapM HeaderValue.toStr?
  pure (", ".toList.intercalate parts)

section
variable (c : Crypto)

/-- Routing and parsing: the attestation, or the decision the request gets without one. -/
def SkRequest.attestation (r : SkRequest) : Except SkDecision Attestation :=
  let inputs := r.headers.getAll "signature-input".toList
  if inputs = [] then .error .notApplicable
  else if ¬ inputs.any (fun v => mentionsDpopSk (Text.ofUtf8Lossy v.bytes)) then
    .error .notApplicable
  else
    match joinField inputs, joinField (r.headers.getAll "signature".toList) with
    | some sigInput, some signature =>
      match parseAttestation c.decode sigInput signature with
      | some (some a) => .ok a
      | some none => .error .notApplicable
      | none => .error .deny
    | _, _ => .error .deny

/-- A pinned session is used on its own connection only. -/
def connectionBound (s : Session) (r : SkRequest) : Bool :=
  match s.connId with
  | some pinned => r.conn = some pinned
  | none => true

/-- The token of the single `Authorization` line. -/
def presentedToken (headers : FieldMap) : Option Text :=
  match headers.getAll "authorization".toList with
  | [v] => v.toStr?.bind dpopSchemeAccessToken
  | _ => none

/-- The presented token is the one the session was made for, and has not expired. -/
def tokenBound (s : Session) (r : SkRequest) : Bool :=
  match presentedToken r.headers with
  | some token => c.sha256 token.utf8 = s.tokenHash && r.now < s.tokenExp
  | none => false

/-- `created` within the window, `expires` not passed. -/
def isFresh (window : Int) (a : Attestation) (r : SkRequest) : Bool :=
  |r.now - a.created| ≤ window && a.expires.all fun e => r.now < e

/-- The tag is the HMAC of the signature base under the session's key. -/
def isSigned (s : Session) (a : Attestation) (r : SkRequest) : Bool :=
  match signatureBase a r.method r.targetUri r.headers with
  | some base => c.hmac s.key base.utf8 = a.signature
  | none => false

/-- `verify_attested_request`. -/
def verifyAttestedRequest (window : Int) (r : SkRequest) :
    Program skSig ServerError SkDecision :=
  match r.attestation c with
  | .error d => pure d
  | .ok a => do
    match ← getSession a.keyid r.now with
    | none => pure .deny
    | some h =>
      if !connectionBound h.session r then pure .deny
      else if !tokenBound c h.session r then pure .deny
      else if !isFresh window a r then pure .deny
      else if !isSigned c h.session a r then pure .deny
      else
        match ← markWindow h.cell a.nonce with
        | .accept => pure (.verified h.session.token h.session.sessionId)
        | _ => pure .deny

end

/-! ## §2 What a decision rests on -/

/-- **Admission**: the session and the credential behind a `Verified`. -/
structure Admitted (c : Crypto) (window : Int) (r : SkRequest) (a : Attestation) (s : Session)
    (token : VerifiedToken) (id : Text) : Prop where
  attestation : r.attestation c = .ok a
  names : s.sessionId = id ∧ s.token = token
  unexpired : r.now < s.expiresAt
  connection : ∀ pinned, s.connId = some pinned → r.conn = some pinned
  credential : ∃ v auth t, r.headers.getAll "authorization".toList = [v] ∧ v.toStr? = some auth ∧
    dpopSchemeAccessToken auth = some t ∧ c.sha256 t.utf8 = s.tokenHash
  tokenLive : r.now < s.tokenExp
  created : |r.now - a.created| ≤ window
  signed : isSigned c s a r = true

variable {c : Crypto} {window : Int} {r : SkRequest}

/-- There is a decision, and a `Verified` one comes from a lookup that answered an admissible
session and a mark of its window that was accepted. -/
def Justified (c : Crypto) (window : Int) (r : SkRequest) (log : List (Event skSig))
    (x : Except ServerError SkDecision) : Prop :=
  ∃ d, x = .ok d ∧ ∀ token id, d = .verified token id →
    ∃ a h, Admitted c window r a h.session token id ∧
      log = [⟨.lookup a.keyid, some h⟩, ⟨.mark h.cell a.nonce, .accept⟩]

theorem justified_of_not_verified {log : List (Event skSig)} {d : SkDecision}
    (h : ∀ token id, d ≠ .verified token id) : Justified c window r log (.ok d) :=
  ⟨d, rfl, fun token id hd => absurd hd (h token id)⟩

theorem connectionBound_pinned {s : Session} (h : connectionBound s r = true) (pinned : Nat)
    (hp : s.connId = some pinned) : r.conn = some pinned := by
  unfold connectionBound at h
  rw [hp] at h
  simpa using h

theorem tokenBound_credential {s : Session} (h : tokenBound c s r = true) :
    (∃ v auth t, r.headers.getAll "authorization".toList = [v] ∧ v.toStr? = some auth ∧
      dpopSchemeAccessToken auth = some t ∧ c.sha256 t.utf8 = s.tokenHash) ∧
      r.now < s.tokenExp := by
  unfold tokenBound at h
  split at h
  · rename_i t ht
    simp only [Bool.and_eq_true, decide_eq_true_eq] at h
    refine ⟨?_, h.2⟩
    unfold presentedToken at ht
    split at ht
    · rename_i v hv
      obtain ⟨auth, hauth, htok⟩ := Option.bind_eq_some_iff.mp ht
      exact ⟨v, auth, t, hv, hauth, htok, h.1⟩
    · cases ht
  · cases h

/-- The log and the answer of a lookup: the session answered was found unexpired. -/
theorem getSession_obeys {A : (o : SkOp) → skSig.Res o → Prop} {G : SkOp → Prop} (id : Text)
    (now : Int) (hlookup : G (.lookup id)) (hremove : G (.remove id)) :
    (getSession id now).Obeys A G fun log x => (∀ h, x = .ok (some h) →
      log = [⟨.lookup id, some h⟩] ∧ now < h.session.expiresAt ∧ A (.lookup id) (some h)) ∧
      ∀ e, x ≠ .error e := by
  apply Program.Obeys.call_bind hlookup
  intro found hA
  cases found with
  | none =>
    apply Program.Obeys.pure
    exact ⟨by rintro _ ⟨⟩, by rintro _ ⟨⟩⟩
  | some h =>
    by_cases hlive : h.session.expiresAt > now
    · simp only [if_pos hlive]
      apply Program.Obeys.pure
      refine ⟨?_, by rintro _ ⟨⟩⟩
      rintro h' ⟨⟩
      exact ⟨rfl, hlive, hA⟩
    · simp only [if_neg hlive]
      refine Program.Obeys.call_bind (S := skSig) (o := .remove id) hremove ?_
      intro _ _
      apply Program.Obeys.pure
      exact ⟨by rintro _ ⟨⟩, by rintro _ ⟨⟩⟩

/-- Without an attestation no request is verified. -/
theorem attestation_error {d : SkDecision} (h : r.attestation c = .error d) :
    d = .notApplicable ∨ d = .deny := by
  simp only [SkRequest.attestation] at h
  split_ifs at h
  · exact .inl (Except.error.inj h).symm
  · split at h
    · split at h
      · cases h
      · exact .inl (Except.error.inj h).symm
      · exact .inr (Except.error.inj h).symm
    · exact .inr (Except.error.inj h).symm
  · exact .inl (Except.error.inj h).symm

/-- **One request**: whatever the store answers, the decision is justified by the log. -/
theorem verifyAttestedRequest_justified (c : Crypto) (window : Int) (r : SkRequest) :
    (verifyAttestedRequest c window r).Obeys (fun _ _ => True) (fun _ => True)
      (Justified c window r) := by
  unfold verifyAttestedRequest
  cases ha : r.attestation c with
  | error d =>
    apply Program.Obeys.pure
    apply justified_of_not_verified
    rintro token id rfl
    rcases attestation_error ha with h | h <;> cases h
  | ok a =>
    refine Program.Obeys.bind (getSession_obeys a.keyid r.now trivial trivial) ?_ ?_
    · intro log found hfound
      cases found with
      | none =>
        exact Program.Obeys.pure (justified_of_not_verified (by rintro _ _ ⟨⟩))
      | some h =>
        obtain ⟨rfl, hlive, -⟩ := hfound.1 h rfl
        -- every check that fails denies
        have hdeny : (pure .deny : Program skSig ServerError SkDecision).Obeys (fun _ _ => True)
            (fun _ => True) fun log' x =>
              Justified c window r ([⟨.lookup a.keyid, some h⟩] ++ log') x :=
          Program.Obeys.pure (justified_of_not_verified (by rintro _ _ ⟨⟩))
        simp only [Bool.not_eq_true']
        by_cases hconn : connectionBound h.session r = false
        · rwa [if_pos hconn]
        by_cases htoken : tokenBound c h.session r = false
        · rwa [if_neg hconn, if_pos htoken]
        by_cases hfresh : isFresh window a r = false
        · rwa [if_neg hconn, if_neg htoken, if_pos hfresh]
        by_cases hsigned : isSigned c h.session a r = false
        · rwa [if_neg hconn, if_neg htoken, if_neg hfresh, if_pos hsigned]
        rw [if_neg hconn, if_neg htoken, if_neg hfresh, if_neg hsigned]
        simp only [Bool.not_eq_false] at hconn htoken hfresh hsigned
        refine Program.Obeys.call_bind (S := skSig) (o := .mark h.cell a.nonce) trivial ?_
        intro verdict _
        cases verdict with
        | accept =>
          apply Program.Obeys.pure
          refine ⟨_, rfl, ?_⟩
          rintro token id ⟨⟩
          simp only [isFresh, Bool.and_eq_true, decide_eq_true_eq] at hfresh
          obtain ⟨hcred, hexp⟩ := tokenBound_credential htoken
          exact ⟨a, h, ⟨ha, ⟨rfl, rfl⟩, hlive, connectionBound_pinned hconn, hcred, hexp,
            hfresh.1, hsigned⟩, rfl⟩
        | duplicate => exact Program.Obeys.pure (justified_of_not_verified (by rintro _ _ ⟨⟩))
        | belowWindow => exact Program.Obeys.pure (justified_of_not_verified (by rintro _ _ ⟨⟩))
    · intro log e herr
      exact absurd rfl (herr.2 e)

/-- The answers a request may get when no session its tag verifies under is found. -/
def Unsigned (c : Crypto) (r : SkRequest) (o : SkOp) (x : skSig.Res o) : Prop :=
  match o, x with
  | .lookup id, some h =>
    ∀ a, r.attestation c = .ok a → id = a.keyid → isSigned c h.session a r = false
  | _, _ => True

/-- **Verify, then mark**: a request that finds no session its tag verifies under marks no
window. -/
theorem verifyAttestedRequest_unmarked (c : Crypto) (window : Int) (r : SkRequest) :
    (verifyAttestedRequest c window r).Obeys (Unsigned c r)
      (fun o => ∀ cell nonce, o ≠ SkOp.mark cell nonce) fun _ _ => True := by
  unfold verifyAttestedRequest
  cases ha : r.attestation c with
  | error d => exact Program.Obeys.pure trivial
  | ok a =>
    refine Program.Obeys.bind (getSession_obeys a.keyid r.now ?_ ?_) ?_ ?_
    · rintro _ _ ⟨⟩
    · rintro _ _ ⟨⟩
    · intro log found hfound
      cases found with
      | none => exact Program.Obeys.pure trivial
      | some h =>
        obtain ⟨-, -, hunsigned⟩ := hfound.1 h rfl
        -- the last check before the mark fails
        simp only [hunsigned a ha rfl, Bool.not_false]
        split_ifs <;> exact Program.Obeys.pure trivial
    · intro log e _
      trivial

/-! ## §3 Runs -/

section Runs
variable {ι : Type} [DecidableEq ι] {reqs : ι → SkRequest} {w v : SkWorld}
  {tr : List (Move ι skSig SkWorld)} {P' : ι → Program skSig ServerError SkDecision}

/-- Interleaved attested requests, with sessions stored and removed beside them. -/
abbrev AttestedRun (c : Crypto) (window : Int) (reqs : ι → SkRequest) (w : SkWorld)
    (tr : List (Move ι skSig SkWorld)) (P' : ι → Program skSig ServerError SkDecision)
    (v : SkWorld) : Prop :=
  Interleaves (γ := fun _ => SkDecision) skSemantics SkEnv
    (fun i => verifyAttestedRequest c window (reqs i)) w tr P' v

/-- **Run lemma**: consistency holds along every run, and what a world refuses or has
labelled, later worlds refuse and have labelled. -/
theorem ok_run {P P' : ι → Program skSig ServerError SkDecision}
    (h : Interleaves (γ := fun _ => SkDecision) skSemantics SkEnv P w tr P' v) (hw : w.Ok) :
    v.Ok ∧ ∀ m ∈ tr, m.before.Ok := by
  induction h with
  | done P w => exact ⟨hw, by simp⟩
  | own i hi _ ih =>
    obtain ⟨hv, hm⟩ := ih (SkWorld.ok_sem hw _)
    exact ⟨hv, by simpa using ⟨hw, hm⟩⟩
  | env hE _ ih =>
    obtain ⟨hv, hm⟩ := ih (SkWorld.ok_env hw hE)
    exact ⟨hv, by simpa using ⟨hw, hm⟩⟩

theorem grows_run {P P' : ι → Program skSig ServerError SkDecision}
    (h : Interleaves (γ := fun _ => SkDecision) skSemantics SkEnv P w tr P' v) : w.Grows v := by
  induction h with
  | done P w => exact SkWorld.Grows.refl w
  | own i hi _ ih => exact (SkWorld.grows_sem _ _).trans ih
  | env hE _ ih => exact (SkWorld.grows_env hE).trans ih

/-- Two marks of one counter in one window: the second is not accepted. -/
theorem no_second_mark {P P' : ι → Program skSig ServerError SkDecision} {t₁ t₂ t₃ : List (Move ι skSig SkWorld)}
    {i j : ι} {cell nonce : Nat} {a a' b b' : SkWorld}
    (h : Interleaves (γ := fun _ => SkDecision) skSemantics SkEnv P w
      (t₁ ++ ⟨some (i, .mark cell nonce), a, a'⟩ :: (t₂ ++ ⟨some (j, .mark cell nonce), b, b'⟩ :: t₃))
      P' v)
    (hfirst : (a.mark cell nonce).1 = .accept) : (b.mark cell nonce).1 ≠ .accept := by
  obtain ⟨Q, k, -, -, rfl, hrest⟩ := h.split_own
  obtain ⟨Q', k', hbetween, -, -, -⟩ := hrest.split_own
  intro hsecond
  have hrefused := (SkWorld.mark_accept hfirst).2
  exact (SkWorld.mark_accept hsecond).1 ((grows_run hbetween).refuses _ _ hrefused)

/-- **A `Verified` in a run**: the move at which its session was looked up, and a later one
at which its counter was accepted. -/
theorem verified_moves (h : AttestedRun c window reqs w tr P' v) {i : ι} {token : VerifiedToken}
    {id : Text} (hi : P' i = .ret (.ok (.verified token id))) :
    ∃ a hd, Admitted c window (reqs i) a hd.session token id ∧
      (∃ t₁ t₂ b b', tr = t₁ ++ ⟨some (i, .lookup a.keyid), b, b'⟩ :: t₂ ∧
        b.sessions.lookup a.keyid = some hd) ∧
      ∃ t₁ t₂ b b', tr = t₁ ++ ⟨some (i, .mark hd.cell a.nonce), b, b'⟩ :: t₂ ∧
        (b.mark hd.cell a.nonce).1 = .accept := by
  have hpath := h.path i
  rw [hi] at hpath
  obtain ⟨d, hd, hverified⟩ :=
    (verifyAttestedRequest_justified c window (reqs i)).of_path hpath (by simp)
  obtain ⟨a, hd, hadmitted, hlog⟩ := hverified token id (Except.ok.inj hd).symm
  rw [← List.nil_append (_ :: _)] at hlog
  obtain ⟨t₁, ⟨actor, b, b'⟩, t₂, rfl, -, hm, hlog₂⟩ := ownEvents_split hlog
  rw [← List.nil_append (_ :: _)] at hlog₂
  obtain ⟨u₁, ⟨actor', d, d'⟩, u₂, rfl, -, hm', -⟩ := ownEvents_split hlog₂
  obtain ⟨rfl, hfound⟩ := Move.eventOf_eq_some hm
  obtain ⟨rfl, haccept⟩ := Move.eventOf_eq_some hm'
  refine ⟨a, hd, hadmitted, ⟨t₁, _, b, b', rfl, hfound.symm⟩, ?_⟩
  exact ⟨t₁ ++ ⟨some (i, .lookup a.keyid), b, b'⟩ :: u₁, u₂, d, d', by simp, haccept.symm⟩

/-- The cell of a looked-up session is labelled with its identifier from then on. -/
theorem lookup_label (h : AttestedRun c window reqs w tr P' v) (hw : w.Ok) {i : ι} {id : Text}
    {hd : Handle} {t₁ t₂ : List (Move ι skSig SkWorld)} {b b' : SkWorld}
    (htr : tr = t₁ ++ ⟨some (i, .lookup id), b, b'⟩ :: t₂) (hl : b.sessions.lookup id = some hd) :
    hd.session.sessionId = id ∧ v.labels[hd.cell]? = some id := by
  subst htr
  obtain ⟨Q, k, hbefore, -, rfl, hafter⟩ := h.split_own
  obtain ⟨hid, hlabel⟩ := (ok_run hbefore hw).1.stored id hd hl
  exact ⟨hid, (grows_run hafter).label hlabel⟩

/-- **At most once**, for every interleaving of attested requests with sessions stored under
fresh identifiers and removed: a session's counter is accepted from one request only; an
accepted request rests on a live session its credential is bound to; and a request whose tag
does not verify changes no window. -/
theorem attested_at_most_once {capacity : Nat}
    (h : AttestedRun c window reqs (SkWorld.boot capacity) tr P' v) :
    (∀ i j token token' id a b, P' i = .ret (.ok (.verified token id)) →
      P' j = .ret (.ok (.verified token' id)) → (reqs i).attestation c = .ok a →
      (reqs j).attestation c = .ok b → a.nonce = b.nonce → i = j) ∧
    (∀ i token id, P' i = .ret (.ok (.verified token id)) → ∃ a s cell b b',
      ⟨some (i, .lookup a.keyid), b, b'⟩ ∈ tr ∧ b.sessions.lookup a.keyid = some ⟨s, cell⟩ ∧
        Admitted c window (reqs i) a s token id) ∧
    (∀ i o b b' t₁ t₂, tr = t₁ ++ ⟨some (i, o), b, b'⟩ :: t₂ → b'.heap ≠ b.heap →
      ∃ a s cell d d', (reqs i).attestation c = .ok a ∧
        ⟨some (i, .lookup a.keyid), d, d'⟩ ∈ t₁ ∧ d.sessions.lookup a.keyid = some ⟨s, cell⟩ ∧
        isSigned c s a (reqs i) = true) := by
  have hboot := SkWorld.ok_boot capacity
  refine ⟨?_, ?_, ?_⟩
  · intro i j token token' id a b hi hj ha hb hnonce
    obtain ⟨a', hd, hadm, ⟨t₁, t₂, d, d', htr, hl⟩, u₁, u₂, e, e', hmark, hacc⟩ :=
      verified_moves h hi
    obtain ⟨b', hd', hadm', ⟨s₁, s₂, f, f', hsr, hl'⟩, x₁, x₂, g, g', hmark', hacc'⟩ :=
      verified_moves h hj
    obtain rfl := Except.ok.inj (ha.symm.trans hadm.attestation)
    obtain rfl := Except.ok.inj (hb.symm.trans hadm'.attestation)
    -- one identifier, so one cell
    obtain ⟨hid, hlabel⟩ := lookup_label h hboot htr hl
    obtain ⟨hid', hlabel'⟩ := lookup_label h hboot hsr hl'
    have hkey : a.keyid = b.keyid := by
      rw [← hid, ← hid', hadm.names.1, hadm'.names.1]
    have hcell : hd.cell = hd'.cell := by
      obtain ⟨hlt, -⟩ := List.getElem?_eq_some_iff.mp hlabel
      apply (List.getElem?_inj hlt (ok_run h hboot).1.nodup).mp
      rw [hlabel, hlabel', hkey]
    rw [← hcell, ← hnonce] at hmark' hacc'
    have hmem : (⟨some (i, .mark hd.cell a.nonce), e, e'⟩ : Move ι skSig SkWorld) ∈ tr := by
      rw [hmark]
      simp
    have hmem' : (⟨some (j, .mark hd.cell a.nonce), g, g'⟩ : Move ι skSig SkWorld) ∈ tr := by
      rw [hmark']
      simp
    -- whichever mark came second was refused
    rcases first_of_two hmem hmem' with hsame | ⟨y₁, y₂, y₃, rfl⟩ | ⟨y₁, y₂, y₃, rfl⟩
    · cases hsame
      rfl
    · exact (no_second_mark h hacc hacc').elim
    · exact (no_second_mark h hacc' hacc).elim
  · intro i token id hi
    obtain ⟨a, hd, hadm, ⟨t₁, t₂, b, b', rfl, hl⟩, -⟩ := verified_moves h hi
    exact ⟨a, hd.session, hd.cell, b, b', by simp, hl, hadm⟩
  · rintro i o b b' t₁ t₂ rfl hchange
    obtain ⟨Q, k, hbefore, hstep, rfl, -⟩ := h.split_own
    have hpath := hbefore.path i
    rw [hstep] at hpath
    by_contra hno
    -- without such a lookup the request never comes to a mark
    have hunsigned : ∀ ev ∈ ownEvents skSemantics i t₁,
        Unsigned c (reqs i) ev.op ev.answer := by
      intro ev hev
      obtain ⟨m, hm, hmev⟩ := List.mem_filterMap.mp hev
      obtain ⟨hactor, hanswer⟩ := Move.eventOf_eq_some hmev
      obtain ⟨actor, d, d'⟩ := m
      obtain ⟨op, answer⟩ := ev
      simp only at hactor hanswer
      subst hactor hanswer
      cases op with
      | remove id => trivial
      | mark cell nonce => trivial
      | lookup id =>
        show Unsigned c (reqs i) (.lookup id) (d.sessions.lookup id)
        cases hl : d.sessions.lookup id with
        | none => trivial
        | some hd =>
          rintro a ha rfl
          by_contra hsigned
          exact hno ⟨a, hd.session, hd.cell, d, d', ha, hm, hl, by simpa using hsigned⟩
    have hop := (verifyAttestedRequest_unmarked c window (reqs i)).next_op hpath hunsigned
    cases o with
    | lookup id => exact hchange rfl
    | remove id => exact hchange rfl
    | mark cell nonce => exact hop cell nonce rfl

end Runs

/-! ## §4 A replayed request -/

/-- Primitives small enough to evaluate. -/
def sampleCrypto : Crypto where
  decode _ := some (List.replicate tagLen 0)
  sha256 b := b
  hmac _ _ := List.replicate tagLen 0

def sampleSession : Session where
  sessionId := "s1".toList
  key := []
  tokenHash := Text.utf8 "at1".toList
  jkt := []
  token := ⟨some "https://id.example/me".toList, none, none, none⟩
  tokenExp := 1720000300
  expiresAt := 1720000300
  cb := .none
  connId := none

def sampleAttestedRequest : SkRequest where
  headers := [("signature-input", "sig=" ++ String.ofList sampleParams),
    ("signature", "sig=:AA==:"), ("authorization", "DPoP at1")].filterMap fun l =>
      (HeaderValue.fromStr? l.2.toList).map fun v => (l.1.toList, v)
  method := "GET".toList
  targetUri := "https://p.example/d".toList
  conn := none
  now := 1720000000

/-- A request and its replay, one after the other: the replay is denied. -/
theorem attested_at_most_once_replay :
    ∃ tr P' v, AttestedRun (ι := Bool) sampleCrypto 300 (fun _ => sampleAttestedRequest)
        (SkWorld.boot 1) tr P' v ∧
      P' false = .ret (.ok (.verified sampleSession.token "s1".toList)) ∧
      P' true = .ret (.ok .deny) ∧
      ∃ a s cell b b', ⟨some (false, .lookup a.keyid), b, b'⟩ ∈ tr ∧
        b.sessions.lookup a.keyid = some ⟨s, cell⟩ ∧
        Admitted sampleCrypto 300 sampleAttestedRequest a s sampleSession.token "s1".toList := by
  let P : Bool → Program skSig ServerError SkDecision := fun _ =>
    verifyAttestedRequest sampleCrypto 300 sampleAttestedRequest
  let w := ((SkWorld.boot 1).insert sampleSession 1720000000).2
  let P₁ : Bool → Program skSig ServerError SkDecision :=
    Function.update P false (.ret ((P false).run skSemantics w).1)
  have hfirst := Interleaves.alone (γ := fun _ => SkDecision) skSemantics SkEnv P w false
  have hsecond := Interleaves.alone (γ := fun _ => SkDecision) skSemantics SkEnv P₁
    ((P false).run skSemantics w).2 true
  have hrun := Interleaves.env
    (SkEnv.insert (w := SkWorld.boot 1) sampleSession 1720000000 (by decide))
    (hfirst.append hsecond)
  have hresults : ((P false).run skSemantics w).1 =
        .ok (.verified sampleSession.token "s1".toList) ∧
      ((P true).run skSemantics ((P false).run skSemantics w).2).1 = .ok .deny := by
    decide +kernel
  have hother : P₁ true = P true := Function.update_of_ne (by decide) _ _
  rw [hother] at hrun
  have hverified : Function.update P₁ true
      (.ret ((P true).run skSemantics ((P false).run skSemantics w).2).1) false =
        .ret (.ok (.verified sampleSession.token "s1".toList)) := by
    simp [P₁, hresults.1]
  refine ⟨_, _, _, hrun, hverified, ?_, (attested_at_most_once hrun).2.1 false _ _ hverified⟩
  simp [hresults.2]

end SolidServer.Sk
