import Mathlib.Data.List.MinMax
import SolidServer.Auth.Token
import SolidServer.Store.Cache

/-!
# The verified-token cache

A bounded map from the digest of an access token to the result of its last full
verification (`auth_cache.rs`).  A hit spares the verification of the token; the DPoP
proof of the request is checked in full every time, and its `jti` is marked in the
replay store last, after every other check has passed.

The checks themselves call the verifier's primitives; those, and the replay store, are
parameters.
-/

namespace SolidServer.Auth

open SolidServer.Store

/-! ## §1 Proofs and the replay store -/

/-- The claims of a DPoP proof that are read, each as the type it is read at. -/
structure Claims where
  htm : Option Text
  htu : Option Text
  jti : Option Text
  iat : Option Int
  ath : Option Text

/-- The primitives the proof checks are made of. -/
structure Primitives where
  sha256 : Bytes → Bytes
  base64Url : Bytes → Text
  /-- The signature check by the embedded key: the claims and that key's thumbprint. -/
  verifyProof : Text → Except Text (Claims × Except Text Text)
  proofHasAth : Text → Bool
  normalizeHtu : Text → Text

inductive MarkResult where
  | new
  | replay
  deriving DecidableEq

/-- A replay store with states `ρ`: marking a `jti` for some seconds at a given time. -/
structure ReplayStore (ρ : Type) where
  mark : ρ → Int → Text → Nat → Except Text MarkResult × ρ

/-- `ErrorKind`: the two this server makes, and those only the verifier makes. -/
inductive ErrorKind where
  | invalidToken
  | replayStoreUnavailable
  | other (name : Text)
  deriving DecidableEq

/-- `VerifyError`. -/
structure VerifyError where
  kind : ErrorKind
  message : Text
  dpop : Bool
  deriving DecidableEq

/-- `ProofPolicy`. -/
structure ProofPolicy where
  clockToleranceSecs : Nat
  allowMissingAth : Bool
  replayFailClosed : Bool

/-- The half-width of the `iat` window, a 64-bit sum. -/
def ProofPolicy.window (p : ProofPolicy) : Nat := (300 + p.clockToleranceSecs) % 2 ^ 64

/-- `replay_ttl`: the same sum. -/
def ProofPolicy.replayTtl (p : ProofPolicy) : Nat := p.window

/-- `invalid_token_dpop`. -/
def rejectProof {α : Type} (message : String) : Except VerifyError α :=
  .error ⟨.invalidToken, message.toList, true⟩

/-- `i64::checked_sub`. -/
def checkedSub (a b : Int) : Option Int :=
  if - 2 ^ 63 ≤ a - b ∧ a - b < 2 ^ 63 then some (a - b) else none

section Checks
variable (p : Primitives) (policy : ProofPolicy)

def presentProof (dpopProof : Option Text) : Except VerifyError Text :=
  match dpopProof with
  | some proof => .ok proof
  | none => rejectProof "DPoP proof is required (no DPoP HTTP Header)."

def checkSignature (proof : Text) : Except VerifyError (Claims × Except Text Text) :=
  match p.verifyProof proof with
  | .ok x => .ok x
  | .error e => rejectProof ("DPoP proof verification failed: " ++ String.ofList e)

def checkHtm (claims : Claims) (method : Text) : Except VerifyError Unit :=
  if Text.toAsciiLowercase (claims.htm.getD []) = Text.toAsciiLowercase method then .ok ()
  else rejectProof "DPoP proof htm mismatch."

def checkHtu (claims : Claims) (url : Text) : Except VerifyError Unit :=
  match claims.htu with
  | some h =>
    if p.normalizeHtu h = p.normalizeHtu url then .ok ()
    else rejectProof "DPoP proof htu mismatch."
  | none => rejectProof "DPoP proof htu mismatch."

def checkJti (claims : Claims) : Except VerifyError Text :=
  match claims.jti with
  | some jti => if jti ≠ [] then .ok jti else rejectProof "DPoP proof is missing a jti."
  | none => rejectProof "DPoP proof is missing a jti."

/-- The symmetric window around `now`; a difference that overflows is rejected. -/
def checkIat (claims : Claims) (now : Int) : Except VerifyError Unit :=
  match claims.iat with
  | some iat =>
    match checkedSub now iat with
    | some age =>
      if age.natAbs ≤ policy.window then .ok ()
      else rejectProof "DPoP proof iat is not recent enough."
    | none => rejectProof "DPoP proof iat is not recent enough."
  | none => rejectProof "DPoP proof is missing iat."

/-- A proof may omit `ath` only where the policy allows it; a wrong one is always rejected. -/
def checkAth (proof : Text) (claims : Claims) (digest : Bytes) : Except VerifyError Unit :=
  let athCompat := policy.allowMissingAth && !p.proofHasAth proof
  if !athCompat then
    match claims.ath with
    | some a =>
      if a = p.base64Url digest then .ok () else rejectProof "DPoP proof ath mismatch."
    | none => rejectProof "DPoP proof is missing ath."
  else
    match claims.ath with
    | some a =>
      if a ≠ p.base64Url digest then rejectProof "DPoP proof ath mismatch." else .ok ()
    | none => .ok ()

def checkBinding (thumbprint : Except Text Text) (cnfJkt : Text) : Except VerifyError Unit :=
  match thumbprint with
  | .error e => rejectProof ("DPoP proof key is invalid: " ++ String.ofList e ++ ".")
  | .ok jkt =>
    if jkt ≠ cnfJkt then
      rejectProof "JWT Access Token confirmation mismatch (cnf.jkt != proof jwk thumbprint)."
    else .ok ()

/-- The checks of `verify_fresh_proof` before the replay mark; the proof's `jti`. -/
def checkProof (dpopProof : Option Text) (digest : Bytes) (cnfJkt method url : Text)
    (now : Int) : Except VerifyError Text := do
  let proof ← presentProof dpopProof
  let (claims, thumbprint) ← checkSignature p proof
  checkHtm claims method
  checkHtu p claims url
  let jti ← checkJti claims
  checkIat policy claims now
  checkAth p policy proof claims digest
  checkBinding thumbprint cnfJkt
  pure jti

/-- `verify_fresh_proof`: the mark comes last. -/
def verifyFreshProof {ρ : Type} (store : ReplayStore ρ) (rs : ρ) (dpopProof : Option Text)
    (digest : Bytes) (cnfJkt method url : Text) (now : Int) : Except VerifyError Unit × ρ :=
  match checkProof p policy dpopProof digest cnfJkt method url now with
  | .error e => (.error e, rs)
  | .ok jti =>
    match store.mark rs now jti policy.replayTtl with
    | (.ok .new, rs) => (.ok (), rs)
    | (.ok .replay, rs) => (rejectProof "DPoP proof has already been used (replay).", rs)
    | (.error _, rs) =>
      if policy.replayFailClosed then
        (.error ⟨.replayStoreUnavailable, "Replay protection backend is unavailable.".toList, true⟩,
          rs)
      else (.ok (), rs)

end Checks

/-! ## §2 The cache -/

structure CacheEntry where
  token : VerifiedToken
  cnfJkt : Text
  exp : Int
  insertedAt : Int
  lastAccess : Nat

/-- `VerifiedTokenCache`. -/
structure VerifiedTokenCache where
  map : Dict Bytes CacheEntry
  capacity : Nat
  clock : Nat
  policy : ProofPolicy
  maxEntryTtlSecs : Int

inductive CacheDecision where
  | verified (token : VerifiedToken)
  | miss
  | reject (e : VerifyError)
  deriving DecidableEq

/-- The arguments of `authenticate`. -/
structure AuthCall where
  accessToken : Text
  dpopProof : Option Text
  method : Text
  url : Text
  now : Int

namespace VerifiedTokenCache

/-- `with_max_entry_ttl`: capacity and lifetime are at least 1. -/
def withMaxEntryTtl (capacity : Nat) (policy : ProofPolicy) (ttl : Int) : VerifiedTokenCache :=
  ⟨∅, max capacity 1, 0, policy, max ttl 1⟩

/-- The time from which an entry is no longer a hit; the sum saturates. -/
def deadline (c : VerifiedTokenCache) (e : CacheEntry) : Int :=
  min (min (e.insertedAt + c.maxEntryTtlSecs) i64Max) e.exp

/-- `evict_one`: the least recently used entry goes. -/
def evictOne (m : Dict Bytes CacheEntry) : Dict Bytes CacheEntry :=
  match m.entries.argmin fun e => e.2.lastAccess with
  | some e => m.erase e.1
  | none => m

variable (p : Primitives)

/-- `key`: the digest of the full access token. -/
def key (accessToken : Text) : Bytes := p.sha256 accessToken.utf8

/-- `insert`: a result without `cnf.jkt` or `exp` is not cached. -/
def insert (c : VerifiedTokenCache) (accessToken : Text) (token : VerifiedToken) (now : Int) :
    VerifiedTokenCache :=
  match token.cnfJkt, token.expiry with
  | some cnfJkt, some exp =>
    let k := key p accessToken
    let room := if k ∉ c.map ∧ c.capacity ≤ c.map.entries.length then evictOne c.map else c.map
    { c with
      map := room.insert k ⟨token, cnfJkt, exp, now, c.clock + 1⟩
      clock := c.clock + 1 }
  | _, _ => c

/-- `authenticate`. -/
def authenticate {ρ : Type} (store : ReplayStore ρ) (c : VerifiedTokenCache) (rs : ρ)
    (call : AuthCall) : CacheDecision × VerifiedTokenCache × ρ :=
  let k := key p call.accessToken
  match c.map.lookup k with
  | none => (.miss, c, rs)
  | some e =>
    if call.now ≥ c.deadline e then (.miss, { c with map := c.map.erase k }, rs)
    else
      let c' :=
        { c with
          map := c.map.insert k { e with lastAccess := c.clock + 1 }
          clock := c.clock + 1 }
      match verifyFreshProof p c.policy store rs call.dpopProof k e.cnfJkt call.method call.url
        call.now with
      | (.ok (), rs) => (.verified e.token, c', rs)
      | (.error err, rs) => (.reject err, c', rs)

end VerifiedTokenCache

/-! ## §3 What an accepted proof is -/

/-- **A fresh proof** for a call and a key thumbprint: everything that is checked before the
replay mark. -/
structure FreshProof (p : Primitives) (policy : ProofPolicy) (call : AuthCall) (cnfJkt : Text)
    (claims : Claims) (jti : Text) : Prop where
  signed : ∃ proof, call.dpopProof = some proof ∧
    p.verifyProof proof = .ok (claims, .ok cnfJkt) ∧
    (claims.ath = some (p.base64Url (p.sha256 call.accessToken.utf8)) ∨
      (claims.ath = none ∧ policy.allowMissingAth = true ∧ p.proofHasAth proof = false))
  htm : Text.toAsciiLowercase (claims.htm.getD []) = Text.toAsciiLowercase call.method
  htu : ∃ h, claims.htu = some h ∧ p.normalizeHtu h = p.normalizeHtu call.url
  jti : claims.jti = some jti ∧ jti ≠ []
  iat : ∃ iat age, claims.iat = some iat ∧ checkedSub call.now iat = some age ∧
    age.natAbs ≤ policy.window

section Checks
variable {p : Primitives} {policy : ProofPolicy} {claims : Claims}

variable {proof : Text}

theorem presentProof_ok {dpopProof : Option Text} :
    presentProof dpopProof = .ok proof ↔ dpopProof = some proof := by
  cases dpopProof <;> simp [presentProof, rejectProof]

theorem checkSignature_ok {x : Claims × Except Text Text} :
    checkSignature p proof = .ok x ↔ p.verifyProof proof = .ok x := by
  unfold checkSignature
  cases p.verifyProof proof <;> simp [rejectProof]

theorem checkHtm_ok {method : Text} : checkHtm claims method = .ok () ↔
    Text.toAsciiLowercase (claims.htm.getD []) = Text.toAsciiLowercase method := by
  unfold checkHtm
  split_ifs with h <;> simp [h, rejectProof]

theorem checkHtu_ok {url : Text} : checkHtu p claims url = .ok () ↔
    ∃ h, claims.htu = some h ∧ p.normalizeHtu h = p.normalizeHtu url := by
  unfold checkHtu
  cases claims.htu with
  | none => simp [rejectProof]
  | some h =>
    simp only
    split_ifs with heq <;> simp [heq, rejectProof]

theorem checkJti_ok {jti : Text} :
    checkJti claims = .ok jti ↔ claims.jti = some jti ∧ jti ≠ [] := by
  unfold checkJti
  cases claims.jti with
  | none => simp [rejectProof]
  | some j =>
    simp only
    split_ifs with hj
    · constructor
      · rintro ⟨⟩
        exact ⟨rfl, hj⟩
      · rintro ⟨⟨⟩, -⟩
        rfl
    · constructor
      · rintro ⟨⟩
      · rintro ⟨⟨⟩, hne⟩
        exact absurd hne hj

theorem checkIat_ok {now : Int} : checkIat policy claims now = .ok () ↔
    ∃ iat age, claims.iat = some iat ∧ checkedSub now iat = some age ∧
      age.natAbs ≤ policy.window := by
  unfold checkIat
  cases claims.iat with
  | none => simp [rejectProof]
  | some iat =>
    cases hage : checkedSub now iat with
    | none => simp [rejectProof, hage]
    | some age =>
      simp only [hage]
      split_ifs with h <;> simp [h, hage, rejectProof]

theorem checkAth_ok {digest : Bytes} :
    checkAth p policy proof claims digest = .ok () ↔ claims.ath = some (p.base64Url digest) ∨
      (claims.ath = none ∧ policy.allowMissingAth = true ∧ p.proofHasAth proof = false) := by
  unfold checkAth
  cases claims.ath with
  | none =>
    cases policy.allowMissingAth <;> cases p.proofHasAth proof <;> simp [rejectProof]
  | some a =>
    cases policy.allowMissingAth <;> cases p.proofHasAth proof <;>
      by_cases h : a = p.base64Url digest <;> simp [rejectProof]

theorem checkBinding_ok {thumbprint : Except Text Text} {cnfJkt : Text} :
    checkBinding thumbprint cnfJkt = .ok () ↔ thumbprint = .ok cnfJkt := by
  unfold checkBinding
  cases thumbprint with
  | error e => simp [rejectProof]
  | ok jkt =>
    simp only
    split_ifs with h <;> simp_all [rejectProof]

theorem except_bind_ok {ε α β : Type} {x : Except ε α} {f : α → Except ε β} {b : β} :
    (x >>= f) = .ok b ↔ ∃ a, x = .ok a ∧ f a = .ok b := by
  cases x <;> simp [Bind.bind, Except.bind]

/-- **The checks**: a call passes them exactly with a fresh proof. -/
theorem checkProof_ok {call : AuthCall} {cnfJkt jti : Text} :
    checkProof p policy call.dpopProof (p.sha256 call.accessToken.utf8) cnfJkt call.method call.url
      call.now = .ok jti ↔ ∃ claims, FreshProof p policy call cnfJkt claims jti := by
  unfold checkProof
  constructor
  · intro h
    obtain ⟨proof, hproof, h₁⟩ := except_bind_ok.mp h
    obtain ⟨⟨claims, thumbprint⟩, hsigned, h₂⟩ := except_bind_ok.mp h₁
    obtain ⟨⟨⟩, hhtm, h₃⟩ := except_bind_ok.mp h₂
    obtain ⟨⟨⟩, hhtu, h₄⟩ := except_bind_ok.mp h₃
    obtain ⟨j, hjti, h₅⟩ := except_bind_ok.mp h₄
    obtain ⟨⟨⟩, hiat, h₆⟩ := except_bind_ok.mp h₅
    obtain ⟨⟨⟩, hath, h₇⟩ := except_bind_ok.mp h₆
    obtain ⟨⟨⟩, hbound, h₈⟩ := except_bind_ok.mp h₇
    obtain rfl := Except.ok.inj h₈
    obtain rfl := checkBinding_ok.mp hbound
    exact ⟨claims, ⟨proof, presentProof_ok.mp hproof, checkSignature_ok.mp hsigned,
      checkAth_ok.mp hath⟩, checkHtm_ok.mp hhtm, checkHtu_ok.mp hhtu, checkJti_ok.mp hjti,
      checkIat_ok.mp hiat⟩
  · rintro ⟨claims, ⟨proof, hproof, hsigned, hath⟩, hhtm, hhtu, hjti, hiat⟩
    rw [presentProof_ok.mpr hproof]
    refine except_bind_ok.mpr ⟨proof, rfl, ?_⟩
    refine except_bind_ok.mpr ⟨_, checkSignature_ok.mpr hsigned, ?_⟩
    refine except_bind_ok.mpr ⟨(), checkHtm_ok.mpr hhtm, ?_⟩
    refine except_bind_ok.mpr ⟨(), checkHtu_ok.mpr hhtu, ?_⟩
    refine except_bind_ok.mpr ⟨jti, checkJti_ok.mpr hjti, ?_⟩
    refine except_bind_ok.mpr ⟨(), checkIat_ok.mpr hiat, ?_⟩
    refine except_bind_ok.mpr ⟨(), checkAth_ok.mpr hath, ?_⟩
    exact except_bind_ok.mpr ⟨(), checkBinding_ok.mpr rfl, rfl⟩

end Checks

/-! ## §4 Runs of the cache -/

/-- A call on the cache and its replay store. -/
inductive Call where
  | insert (accessToken : Text) (token : VerifiedToken) (now : Int)
  | authenticate (call : AuthCall)

def Call.now : Call → Int
  | .insert _ _ now => now
  | .authenticate call => call.now

/-- A result that `insert` stores. -/
def VerifiedToken.Cacheable (t : VerifiedToken) : Prop :=
  ∃ jkt exp, t.cnfJkt = some jkt ∧ t.expiry = some exp

/-- The cache and the replay store it marks in. -/
structure CacheState (ρ : Type) where
  cache : VerifiedTokenCache
  replay : ρ

section Runs
variable {ρ : Type} (p : Primitives) (store : ReplayStore ρ)

def CacheState.decision (s : CacheState ρ) (call : AuthCall) : CacheDecision :=
  (s.cache.authenticate p store s.replay call).1

def CacheState.step (s : CacheState ρ) : Call → CacheState ρ
  | .insert accessToken token now => { s with cache := s.cache.insert p accessToken token now }
  | .authenticate call =>
    ⟨(s.cache.authenticate p store s.replay call).2.1,
      (s.cache.authenticate p store s.replay call).2.2⟩

/-- The state after a sequence of calls. -/
def CacheState.run (s : CacheState ρ) (calls : List Call) : CacheState ρ :=
  calls.foldl (CacheState.step p store) s

end Runs

section Hits
variable {ρ : Type} {p : Primitives} {store : ReplayStore ρ} {c : VerifiedTokenCache} {rs : ρ}
  {call : AuthCall}

/-- **One hit**: the entry it came from was live, the proof fresh, and its `jti` new or the
store down under a policy that lets that pass. -/
theorem authenticate_verified {t : VerifiedToken}
    (h : (c.authenticate p store rs call).1 = .verified t) :
    ∃ e, c.map.lookup (VerifiedTokenCache.key p call.accessToken) = some e ∧ e.token = t ∧
      call.now < c.deadline e ∧ ∃ claims jti, FreshProof p c.policy call e.cnfJkt claims jti ∧
        ((store.mark rs call.now jti c.policy.replayTtl).1 = .ok .new ∨
          (∃ err, (store.mark rs call.now jti c.policy.replayTtl).1 = .error err) ∧
            c.policy.replayFailClosed = false) ∧
        (c.authenticate p store rs call).2.2 =
          (store.mark rs call.now jti c.policy.replayTtl).2 := by
  unfold VerifiedTokenCache.authenticate at h ⊢
  cases hl : c.map.lookup (VerifiedTokenCache.key p call.accessToken) with
  | none => simp [hl] at h
  | some e =>
    simp only [hl] at h ⊢
    split_ifs at h with hold
    rw [if_neg hold]
    refine ⟨e, rfl, ?_⟩
    unfold verifyFreshProof at h ⊢
    cases hcheck : checkProof p c.policy call.dpopProof
        (VerifiedTokenCache.key p call.accessToken) e.cnfJkt call.method call.url call.now with
    | error err => simp [hcheck] at h
    | ok jti =>
      obtain ⟨claims, hfresh⟩ := checkProof_ok.mp hcheck
      cases hmark : store.mark rs call.now jti c.policy.replayTtl with
      | mk res rs' =>
        simp only [hcheck, hmark] at h
        cases res with
        | error err =>
          cases hclosed : c.policy.replayFailClosed with
          | true => simp [hclosed] at h
          | false =>
            simp only [hclosed, Bool.false_eq_true, if_false, CacheDecision.verified.injEq] at h
            exact ⟨h, not_le.mp hold, claims, jti, hfresh, .inr ⟨⟨err, by rw [hmark]⟩, rfl⟩,
              by simp [hmark]⟩
        | ok m =>
          cases m with
          | replay => simp [rejectProof] at h
          | new =>
            simp only [CacheDecision.verified.injEq] at h
            exact ⟨h, not_le.mp hold, claims, jti, hfresh, .inl (by rw [hmark]), by simp [hmark]⟩

/-- **Nothing is marked before the checks pass.** -/
theorem authenticate_unmarked
    (h : ∀ e claims jti, c.map.lookup (VerifiedTokenCache.key p call.accessToken) = some e →
      ¬ FreshProof p c.policy call e.cnfJkt claims jti) :
    (c.authenticate p store rs call).2.2 = rs := by
  unfold VerifiedTokenCache.authenticate
  cases hl : c.map.lookup (VerifiedTokenCache.key p call.accessToken) with
  | none => simp only [hl]
  | some e =>
    simp only [hl]
    split_ifs
    · rfl
    · unfold verifyFreshProof
      cases hcheck : checkProof p c.policy call.dpopProof
          (VerifiedTokenCache.key p call.accessToken) e.cnfJkt call.method call.url call.now with
      | error err => rfl
      | ok jti =>
        obtain ⟨claims, hfresh⟩ := checkProof_ok.mp hcheck
        exact absurd hfresh (h e claims jti hl)

end Hits

/-! ## §5 Where entries come from -/

/-- Two entries that differ at most in their last access. -/
def CacheEntry.Same (e e' : CacheEntry) : Prop :=
  e.token = e'.token ∧ e.cnfJkt = e'.cnfJkt ∧ e.exp = e'.exp ∧ e.insertedAt = e'.insertedAt

/-- **Provenance**: an entry holds the result of the latest stored insert of its token. -/
def Provenance (p : Primitives) (calls : List Call) (k : Bytes) (e : CacheEntry) : Prop :=
  ∃ accessToken pre post, k = VerifiedTokenCache.key p accessToken ∧
    calls = pre ++ .insert accessToken e.token e.insertedAt :: post ∧
    e.token.cnfJkt = some e.cnfJkt ∧ e.token.expiry = some e.exp ∧
    ∀ t now, .insert accessToken t now ∈ post → ¬ t.Cacheable

section Provenance
variable {ρ : Type} {p : Primitives} {store : ReplayStore ρ} {calls : List Call} {k : Bytes}
  {e e' : CacheEntry} {c : VerifiedTokenCache}

/-- A call that does not store this token leaves the provenance as it is. -/
theorem Provenance.concat (h : Provenance p calls k e) (hsame : e.Same e') (call : Call)
    (hcall : ∀ accessToken t now, call = .insert accessToken t now →
      VerifiedTokenCache.key p accessToken = k → ¬ t.Cacheable) :
    Provenance p (calls ++ [call]) k e' := by
  obtain ⟨accessToken, pre, post, hk, rfl, hjkt, hexp, hlater⟩ := h
  obtain ⟨htoken, hcnf, hex, hat⟩ := hsame
  refine ⟨accessToken, pre, post ++ [call], hk, ?_, ?_, ?_, ?_⟩
  · rw [htoken, hat]
    simp
  · rw [← htoken, ← hcnf, hjkt]
  · rw [← htoken, ← hex, hexp]
  · intro t now hmem
    rcases List.mem_append.mp hmem with hmem | hmem
    · exact hlater t now hmem
    · exact hcall accessToken t now (List.mem_singleton.mp hmem).symm hk.symm

theorem lookup_evictOne {m : Dict Bytes CacheEntry}
    (h : (VerifiedTokenCache.evictOne m).lookup k = some e) : m.lookup k = some e := by
  unfold VerifiedTokenCache.evictOne at h
  split at h
  · exact lookup_of_lookup_erase h
  · exact h

/-- What a stored insert leaves at a key. -/
theorem lookup_insert {accessToken : Text} {t : VerifiedToken} {now : Int}
    (h : (c.insert p accessToken t now).map.lookup k = some e) :
    (k = VerifiedTokenCache.key p accessToken ∧ e.token = t ∧ e.insertedAt = now ∧
      t.cnfJkt = some e.cnfJkt ∧ t.expiry = some e.exp) ∨
    (c.map.lookup k = some e ∧
      (k = VerifiedTokenCache.key p accessToken → ¬ t.Cacheable)) := by
  unfold VerifiedTokenCache.insert at h
  split at h
  · rename_i jkt exp hjkt hexp
    by_cases hk : k = VerifiedTokenCache.key p accessToken
    · subst hk
      simp only [AList.lookup_insert, Option.some.injEq] at h
      subst h
      exact .inl ⟨rfl, rfl, rfl, hjkt, hexp⟩
    · simp only [AList.lookup_insert_ne hk] at h
      refine .inr ⟨?_, fun heq => absurd heq hk⟩
      split_ifs at h
      · exact lookup_evictOne h
      · exact h
  · rename_i hnot
    refine .inr ⟨h, ?_⟩
    rintro - ⟨jkt, exp, hjkt, hexp⟩
    exact hnot jkt exp hjkt hexp

/-- Authenticating changes no entry but its last access. -/
theorem lookup_authenticate {rs : ρ} {call : AuthCall}
    (h : (c.authenticate p store rs call).2.1.map.lookup k = some e) :
    ∃ e₀, c.map.lookup k = some e₀ ∧ e₀.Same e := by
  have hrefl : ∀ e : CacheEntry, e.Same e := fun e => ⟨rfl, rfl, rfl, rfl⟩
  unfold VerifiedTokenCache.authenticate at h
  cases hl : c.map.lookup (VerifiedTokenCache.key p call.accessToken) with
  | none =>
    simp only [hl] at h
    exact ⟨e, h, hrefl e⟩
  | some e₁ =>
    simp only [hl] at h
    split_ifs at h
    · exact ⟨e, lookup_of_lookup_erase h, hrefl e⟩
    · -- the decision differs, the cache does not
      have hcache : (c.map.insert (VerifiedTokenCache.key p call.accessToken)
          { e₁ with lastAccess := c.clock + 1 }).lookup k = some e := by
        split at h <;> exact h
      rcases lookup_insert_cases hcache with ⟨rfl, rfl⟩ | hold
      · exact ⟨e₁, hl, rfl, rfl, rfl, rfl⟩
      · exact ⟨e, hold, hrefl e⟩

/-- **Step lemma** for provenance. -/
theorem provenance_step {s : CacheState ρ} (call : Call)
    (h : ∀ k e, s.cache.map.lookup k = some e → Provenance p calls k e) :
    ∀ k e, (s.step p store call).cache.map.lookup k = some e →
      Provenance p (calls ++ [call]) k e := by
  intro k e hl
  cases call with
  | insert accessToken t now =>
    rcases lookup_insert hl with ⟨hk, rfl, rfl, hjkt, hexp⟩ | ⟨hold, hnot⟩
    · exact ⟨accessToken, calls, [], hk, rfl, hjkt, hexp, by simp⟩
    · refine (h k e hold).concat ⟨rfl, rfl, rfl, rfl⟩ _ ?_
      rintro _ _ _ ⟨⟩ hk
      exact hnot hk.symm
  | authenticate call =>
    obtain ⟨e₀, hold, hsame⟩ := lookup_authenticate hl
    refine (h k e₀ hold).concat hsame _ ?_
    rintro _ _ _ ⟨⟩

theorem run_concat (s : CacheState ρ) (calls : List Call) (call : Call) :
    s.run p store (calls ++ [call]) = (s.run p store calls).step p store call := by
  simp [CacheState.run]

/-- **Run lemma** for provenance, from the empty cache. -/
theorem provenance_run {s : CacheState ρ} (hs : s.cache.map = ∅) (calls : List Call) :
    ∀ k e, (s.run p store calls).cache.map.lookup k = some e → Provenance p calls k e := by
  induction calls using List.reverseRecOn with
  | nil =>
    intro k e hl
    simp [CacheState.run, hs] at hl
  | append_singleton calls call ih =>
    rw [run_concat]
    exact provenance_step call ih

end Provenance

/-! ## §6 Capacity -/

section Capacity
variable {ρ : Type} {p : Primitives} {store : ReplayStore ρ} {c : VerifiedTokenCache}

variable {κ ν : Type}

theorem length_keys (m : Dict κ ν) : m.keys.length = m.entries.length := by
  simp [AList.keys, List.keys]

theorem length_insert_of_mem [DecidableEq κ] {m : Dict κ ν} {k : κ} (v : ν) (h : k ∈ m) :
    (m.insert k v).entries.length = m.entries.length := by
  have hpos : 0 < m.keys.length := List.length_pos_of_mem h
  rw [← length_keys, ← length_keys, AList.keys_insert, List.length_cons,
    List.length_erase_of_mem h]
  omega

theorem length_insert_le [DecidableEq κ] (m : Dict κ ν) (k : κ) (v : ν) :
    (m.insert k v).entries.length ≤ m.entries.length + 1 := by
  rw [← length_keys, ← length_keys, AList.keys_insert]
  exact Nat.add_le_add_right (List.length_erase_le ..) 1

theorem length_erase_le [DecidableEq κ] (m : Dict κ ν) (k : κ) :
    (m.erase k).entries.length ≤ m.entries.length := by
  rw [← length_keys, ← length_keys, AList.keys_erase]
  exact List.length_erase_le ..

theorem length_erase_of_mem [DecidableEq κ] {m : Dict κ ν} {k : κ} (h : k ∈ m) :
    (m.erase k).entries.length + 1 = m.entries.length := by
  have hpos : 0 < m.keys.length := List.length_pos_of_mem h
  rw [← length_keys, ← length_keys, AList.keys_erase, List.length_erase_of_mem h]
  omega

/-- Evicting from a cache that is not empty makes room. -/
theorem length_evictOne {m : Dict Bytes CacheEntry} (h : m.entries ≠ []) :
    (VerifiedTokenCache.evictOne m).entries.length + 1 = m.entries.length := by
  unfold VerifiedTokenCache.evictOne
  split
  · rename_i e he
    exact length_erase_of_mem (List.mem_map_of_mem (List.argmin_mem he))
  · rename_i he
    exact absurd (List.argmin_eq_none.mp he) h

/-- **The parameters and the bound**: what every call keeps. -/
structure Bounded (n : Nat) (pol : ProofPolicy) (secs : Int) (c : VerifiedTokenCache) : Prop where
  capacity : c.capacity = max n 1
  policy : c.policy = pol
  ttl : c.maxEntryTtlSecs = max secs 1
  length : c.map.entries.length ≤ max n 1

variable {capacity : Nat} {policy : ProofPolicy} {ttl : Int}

theorem Bounded.insert (h : Bounded capacity policy ttl c) (accessToken : Text)
    (t : VerifiedToken) (now : Int) :
    Bounded capacity policy ttl (c.insert p accessToken t now) := by
  unfold VerifiedTokenCache.insert
  split
  · refine ⟨h.capacity, h.policy, h.ttl, ?_⟩
    have hlen := h.length
    simp only
    split_ifs with hfull
    · -- full, and a new key: one entry goes before the new one comes
      obtain ⟨-, hfull⟩ := hfull
      rw [h.capacity] at hfull
      have hne : c.map.entries ≠ [] := by
        intro hnil
        rw [hnil] at hfull
        simp at hfull
      have hroom := length_evictOne hne
      exact (length_insert_le _ _ _).trans (by omega)
    · by_cases hmem : VerifiedTokenCache.key p accessToken ∈ c.map
      · rw [length_insert_of_mem _ hmem]
        exact hlen
      · have hspace : ¬ c.capacity ≤ c.map.entries.length := fun hle => hfull ⟨hmem, hle⟩
        rw [h.capacity] at hspace
        exact (length_insert_le _ _ _).trans (by omega)
  · exact h

theorem Bounded.authenticate (h : Bounded capacity policy ttl c) (rs : ρ) (call : AuthCall) :
    Bounded capacity policy ttl (c.authenticate p store rs call).2.1 := by
  unfold VerifiedTokenCache.authenticate
  cases hl : c.map.lookup (VerifiedTokenCache.key p call.accessToken) with
  | none =>
    simp only [hl]
    exact h
  | some e =>
    have hmem : VerifiedTokenCache.key p call.accessToken ∈ c.map :=
      AList.lookup_isSome.mp (by rw [hl]; rfl)
    simp only [hl]
    split_ifs
    · exact ⟨h.capacity, h.policy, h.ttl, (length_erase_le _ _).trans h.length⟩
    · have hbumped : ∀ v, (c.map.insert (VerifiedTokenCache.key p call.accessToken) v).entries.length
          ≤ max capacity 1 := by
        intro v
        rw [length_insert_of_mem v hmem]
        exact h.length
      split <;> exact ⟨h.capacity, h.policy, h.ttl, hbumped _⟩

theorem bounded_run {s : CacheState ρ} (h : Bounded capacity policy ttl s.cache)
    (calls : List Call) : Bounded capacity policy ttl (s.run p store calls).cache := by
  induction calls using List.reverseRecOn with
  | nil => exact h
  | append_singleton calls call ih =>
    rw [run_concat]
    cases call with
    | insert accessToken t now => exact ih.insert accessToken t now
    | authenticate call => exact ih.authenticate _ call

end Capacity

/-! ## §7 Soundness of hits -/

/-- The state of a new cache over a given replay store. -/
def CacheState.boot {ρ : Type} (capacity : Nat) (policy : ProofPolicy) (ttl : Int) (rs : ρ) :
    CacheState ρ :=
  ⟨VerifiedTokenCache.withMaxEntryTtl capacity policy ttl, rs⟩

/-- Primitives small enough to evaluate: the one proof `p1`, issued at `iat`, by the key `k`
for the token `at1`. -/
def samplePrimitives (iat : Int) : Primitives where
  sha256 b := b
  base64Url b := b.map fun x => Char.ofNat x.toNat
  verifyProof proof :=
    if proof = "p1".toList then
      .ok (⟨some "GET".toList, some "https://p.example/d".toList, some "j1".toList, some iat,
        some "at1".toList⟩, .ok "k".toList)
    else .error "bad signature".toList
  proofHasAth _ := true
  normalizeHtu u := u

def samplePolicy : ProofPolicy := ⟨0, false, true⟩

def sampleToken : VerifiedToken :=
  ⟨some "https://id.example/me".toList, some "k".toList, none, some 5000⟩

/-- A request with the token `at1` and the proof `p1`. -/
def sampleCall (now : Int) : AuthCall :=
  ⟨"at1".toList, some "p1".toList, "get".toList, "https://p.example/d".toList, now⟩

end SolidServer.Auth
