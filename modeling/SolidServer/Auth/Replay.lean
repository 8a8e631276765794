import SolidServer.Auth.Cache

/-!
# Using a proof once

The replay record of a proof lives for the half-width of the freshness window, counted
from the time the proof was accepted; the proof itself stays acceptable for that long
counted from its `iat`.  A proof issued before it is accepted is therefore forgotten only
after it has become stale.  One issued in the future, or at the very second it is
accepted, is forgotten while it is still acceptable.
-/

namespace SolidServer.Auth

/-! ## §1 A store with lifetimes -/

/-- Records of marked `jti`s, each with the time it lives until. -/
abbrev Records := List (Text × Int)

/-- A store whose mark is new exactly when the `jti` was not marked within its lifetime. -/
def ttlStore : ReplayStore Records where
  mark rs now jti ttl :=
    if rs.any fun r => r.1 = jti && now < r.2 then (.ok .replay, rs)
    else (.ok .new, (jti, now + ttl) :: rs)

theorem ttlStore_new_iff {rs : Records} {now : Int} {jti : Text} {ttl : Nat} :
    (ttlStore.mark rs now jti ttl).1 = .ok .new ↔ ∀ till, (jti, till) ∈ rs → till ≤ now := by
  simp only [ttlStore]
  split_ifs with h
  · simp only [Except.ok.injEq, reduceCtorEq, false_iff, not_forall]
    obtain ⟨⟨j, till⟩, hmem, hlive⟩ := List.any_eq_true.mp h
    simp only [Bool.and_eq_true, decide_eq_true_eq] at hlive
    obtain ⟨rfl, hlive⟩ := hlive
    exact ⟨till, hmem, not_le.mpr hlive⟩
  · simp only [true_iff]
    intro till hmem
    by_contra hlive
    exact h (List.any_eq_true.mpr ⟨(jti, till), hmem, by simpa using hlive⟩)

theorem ttlStore_total (rs : Records) (now : Int) (jti : Text) (ttl : Nat) (err : Text) :
    (ttlStore.mark rs now jti ttl).1 ≠ .error err := by
  simp only [ttlStore]
  split_ifs <;> simp

theorem ttlStore_keeps (rs : Records) (now : Int) (jti : Text) (ttl : Nat) :
    rs ⊆ (ttlStore.mark rs now jti ttl).2 := by
  simp only [ttlStore]
  split_ifs
  · exact List.Subset.refl _
  · exact List.subset_cons_self _ _

/-- A new mark is recorded. -/
theorem ttlStore_records {rs : Records} {now : Int} {jti : Text} {ttl : Nat}
    (h : (ttlStore.mark rs now jti ttl).1 = .ok .new) :
    (jti, now + ttl) ∈ (ttlStore.mark rs now jti ttl).2 := by
  simp only [ttlStore] at h ⊢
  split_ifs at h ⊢
  · simp at h
  · exact List.mem_cons_self

/-! ## §2 Runs -/

section Runs
variable {p : Primitives} {s : CacheState Records}

/-- No call of a run is verified with a proof that an earlier call was verified with. -/
def UsedOnce (p : Primitives) (s : CacheState Records) (calls : List Call) : Prop :=
  ∀ pre c₁ mid c₂ post t₁ t₂,
    calls = pre ++ .authenticate c₁ :: (mid ++ .authenticate c₂ :: post) →
    c₁.dpopProof = c₂.dpopProof →
    (s.run p ttlStore pre).decision p ttlStore c₁ = .verified t₁ →
    (s.run p ttlStore (pre ++ .authenticate c₁ :: mid)).decision p ttlStore c₂ ≠ .verified t₂

/-- Every proof a run accepts was issued before the time of its acceptance. -/
def IssuedBefore (p : Primitives) (s : CacheState Records) (calls : List Call) : Prop :=
  ∀ pre call post t proof claims thumbprint iat, calls = pre ++ .authenticate call :: post →
    (s.run p ttlStore pre).decision p ttlStore call = .verified t →
    call.dpopProof = some proof → p.verifyProof proof = .ok (claims, thumbprint) →
    claims.iat = some iat → iat < call.now

/-- **Step lemma**: a call drops no record. -/
theorem records_step (s : CacheState Records) (call : Call) :
    s.replay ⊆ (s.step p ttlStore call).replay ∧
      (s.step p ttlStore call).cache.policy = s.cache.policy := by
  cases call with
  | insert accessToken t now =>
    refine ⟨List.Subset.refl _, ?_⟩
    simp only [CacheState.step, VerifiedTokenCache.insert]
    split <;> rfl
  | authenticate call =>
    simp only [CacheState.step, VerifiedTokenCache.authenticate]
    split
    · exact ⟨List.Subset.refl _, rfl⟩
    · split_ifs
      · exact ⟨List.Subset.refl _, rfl⟩
      · rename_i e _ _
        have hkeeps : s.replay ⊆ (verifyFreshProof p s.cache.policy ttlStore s.replay
            call.dpopProof (VerifiedTokenCache.key p call.accessToken) e.cnfJkt call.method
            call.url call.now).2 := by
          unfold verifyFreshProof
          split
          · exact List.Subset.refl _
          · rename_i jti _
            have hmark := ttlStore_keeps s.replay call.now jti s.cache.policy.replayTtl
            split <;> rename_i hres <;> rw [hres] at hmark
            · exact hmark
            · exact hmark
            · split_ifs <;> exact hmark
        split <;> rename_i hres <;> rw [hres] at hkeeps <;> exact ⟨hkeeps, rfl⟩

/-- **Run lemma**: no run does. -/
theorem records_run (s : CacheState Records) (calls : List Call) :
    s.replay ⊆ (s.run p ttlStore calls).replay ∧
      (s.run p ttlStore calls).cache.policy = s.cache.policy := by
  induction calls using List.reverseRecOn with
  | nil => exact ⟨List.Subset.refl _, rfl⟩
  | append_singleton calls call ih =>
    rw [run_concat]
    obtain ⟨hkeeps, hpolicy⟩ := records_step (p := p) (s.run p ttlStore calls) call
    exact ⟨fun x hx => hkeeps (ih.1 hx), hpolicy.trans ih.2⟩

/-- An accepted call leaves the record of its proof. -/
theorem records_of_verified {call : AuthCall} {t : VerifiedToken}
    (h : s.decision p ttlStore call = .verified t) :
    ∃ proof claims thumbprint jti iat, call.dpopProof = some proof ∧
      p.verifyProof proof = .ok (claims, thumbprint) ∧ claims.jti = some jti ∧
      claims.iat = some iat ∧ call.now ≤ iat + s.cache.policy.window ∧
      (∀ till, (jti, till) ∈ s.replay → till ≤ call.now) ∧
      (jti, call.now + s.cache.policy.window) ∈ (s.step p ttlStore (.authenticate call)).replay := by
  obtain ⟨e, -, -, -, claims, jti, hfresh, hmark, hstate⟩ := authenticate_verified h
  obtain ⟨proof, hproof, hsigned, -⟩ := hfresh.signed
  obtain ⟨iat, age, hiat, hage, hwindow⟩ := hfresh.iat
  have hnew : (ttlStore.mark s.replay call.now jti s.cache.policy.replayTtl).1 = .ok .new :=
    hmark.resolve_right fun hdown => hdown.1.elim fun err herr => ttlStore_total _ _ _ _ err herr
  refine ⟨proof, claims, _, jti, iat, hproof, hsigned, hfresh.jti.1, hiat, ?_,
    ttlStore_new_iff.mp hnew, ?_⟩
  · unfold checkedSub at hage
    split_ifs at hage
    obtain rfl := Option.some.inj hage
    omega
  · show _ ∈ (s.cache.authenticate p ttlStore s.replay call).2.2
    rw [hstate]
    exact ttlStore_records hnew

/-- **Once only**, in every run that accepts no proof issued at or after the time of its
acceptance. -/
theorem proof_used_once (s : CacheState Records) (calls : List Call)
    (hpast : IssuedBefore p s calls) : UsedOnce p s calls := by
  rintro pre c₁ mid c₂ post t₁ t₂ hcalls hsame hfirst hsecond
  obtain ⟨proof, claims, thumb, jti, iat, hproof, hsigned, hjti, hiat, -, -, hrecord⟩ :=
    records_of_verified hfirst
  obtain ⟨proof', claims', thumb', jti', iat', hproof', hsigned', hjti', hiat', hwindow, hfree,
    -⟩ := records_of_verified hsecond
  -- one proof, so one `jti` and one `iat`
  obtain rfl : proof = proof' := by
    rw [hsame, hproof'] at hproof
    exact (Option.some.inj hproof).symm
  obtain ⟨rfl, -⟩ := Prod.mk.inj (Except.ok.inj (hsigned.symm.trans hsigned'))
  obtain rfl := Option.some.inj (hjti.symm.trans hjti')
  obtain rfl := Option.some.inj (hiat.symm.trans hiat')
  have hissued := hpast pre c₁ _ t₁ proof claims thumb iat hcalls hfirst hproof hsigned hiat
  -- the record is still there, and lives longer than the proof
  have hrun : s.run p ttlStore (pre ++ .authenticate c₁ :: mid) =
      ((s.run p ttlStore pre).step p ttlStore (.authenticate c₁)).run p ttlStore mid := by
    simp [CacheState.run]
  rw [hrun] at hfree hwindow
  have hkept := (records_run (p := p) _ mid).1 hrecord
  have hexpired := hfree _ hkept
  have hpolicy : (((s.run p ttlStore pre).step p ttlStore (.authenticate c₁)).run p ttlStore
      mid).cache.policy = (s.run p ttlStore pre).cache.policy :=
    (records_run (p := p) _ mid).2.trans (records_step (p := p) _ _).2
  rw [hpolicy] at hwindow
  omega

/-- A proof issued a minute before it is used is accepted once. -/
theorem proof_used_once_minute :
    let calls := [Call.insert "at1".toList sampleToken 1060, .authenticate (sampleCall 1060),
      .authenticate (sampleCall 1061)]
    let s := CacheState.boot 1 samplePolicy 300 ([] : Records)
    IssuedBefore (samplePrimitives 1000) s calls ∧
      (s.run (samplePrimitives 1000) ttlStore (calls.take 1)).decision (samplePrimitives 1000)
        ttlStore (sampleCall 1060) = .verified sampleToken ∧
      UsedOnce (samplePrimitives 1000) s calls := by
  intro calls s
  have hpast : IssuedBefore (samplePrimitives 1000) s calls := by
    intro pre call post t proof claims thumb iat hcalls _ hproof hsigned hiat
    simp only [samplePrimitives] at hsigned
    split_ifs at hsigned
    obtain ⟨rfl, -⟩ := Prod.mk.inj (Except.ok.inj hsigned)
    obtain rfl : 1000 = iat := Option.some.inj hiat
    have hcall : Call.authenticate call ∈ calls := by rw [hcalls]; simp
    simp only [calls, List.mem_cons, reduceCtorEq, Call.authenticate.injEq, List.not_mem_nil,
      or_false, false_or] at hcall
    rcases hcall with rfl | rfl <;> decide
  exact ⟨hpast, by decide, proof_used_once s calls hpast⟩

/-- **A proof from the future is replayed**: issued for 1300 and accepted at 1000, its record
is gone at 1300, when the proof is at its freshest. -/
theorem future_proof_replayed :
    let calls := [Call.insert "at1".toList sampleToken 1000, .authenticate (sampleCall 1000),
      .insert "at1".toList sampleToken 1300, .authenticate (sampleCall 1300)]
    (calls.map Call.now).Pairwise (· ≤ ·) ∧ samplePolicy.replayFailClosed = true ∧
      ¬ UsedOnce (samplePrimitives 1300) (CacheState.boot 1 samplePolicy 300 []) calls := by
  intro calls
  refine ⟨by decide, rfl, ?_⟩
  intro honce
  have htwice : ((CacheState.boot 1 samplePolicy 300 ([] : Records)).run (samplePrimitives 1300)
        ttlStore (calls.take 1)).decision (samplePrimitives 1300) ttlStore (sampleCall 1000) =
          .verified sampleToken ∧
      ((CacheState.boot 1 samplePolicy 300 ([] : Records)).run (samplePrimitives 1300)
        ttlStore (calls.take 3)).decision (samplePrimitives 1300) ttlStore (sampleCall 1300) =
          .verified sampleToken := by
    decide
  exact honce (calls.take 1) (sampleCall 1000) [.insert "at1".toList sampleToken 1300]
    (sampleCall 1300) [] sampleToken sampleToken rfl rfl htwice.1 htwice.2

end Runs

end SolidServer.Auth
