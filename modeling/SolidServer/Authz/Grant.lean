import SolidServer.Authz.Decision
import SolidServer.Ldp.Perusal
import SolidServer.Store.Writing

/-!
# Grants over the stored data

What a requester is granted is a matter of the stored records alone: `effectiveAcl`
and `Granted` are functions of the backend, without caches, faults or clocks.

`Sound` is the invariant that ties the running server to them: the store is consistent
and the parsed-ACL cache holds, under a record's current tag, the parse of that record.
From a sound world the planned authorizer answers, if it answers, what `Granted` says
(`plannedResolution_sound`), it always answers when backend reads succeed
(`plannedResolution_complete`), and it leaves a sound world with the same records.
-/

namespace SolidServer.Authz

open SolidServer.Effects SolidServer.Store SolidServer.Ldp

variable {wac : WacAuthorizer} {w : World}

/-! ## §1 Grants -/

/-- The rules of a stored ACL document: those of its triples, none if it does not parse; `none`
without a document. -/
def storedAcl (wac : WacAuthorizer) (b : Backend) (acl : Iri) : Option (List Triple) :=
  (b.record? acl).map fun (m, body) =>
    match body with
    | some body => wac.parseAclBody ⟨body, m⟩ acl
    | none => []

/-- The first stored ACL of a chain. -/
def effectiveAcl (wac : WacAuthorizer) (b : Backend) : List (Iri × AclScope) → ResolvedAcl
  | [] => none
  | (governed, scope) :: rest =>
    match storedAcl wac b (aclFor governed) with
    | some triples => some (triples, governed, scope)
    | none => effectiveAcl wac b rest

/-- The effective ACL of a target. -/
def targetAcl (wac : WacAuthorizer) (b : Backend) (target : Iri) : ResolvedAcl :=
  effectiveAcl wac b (walk wac.baseUrl (protectedResource target))

/-- The modes the effective ACL of a target grants a requester. -/
def grantedOn (wac : WacAuthorizer) (b : Backend) (target : Iri) (requester : Requester) :
    Finset AccessMode :=
  (targetAcl wac b target).modesFor requester

/-- **Granted**: the effective ACL of the target gives the requester what the mode requires. -/
def Granted (wac : WacAuthorizer) (b : Backend) (target : Iri) (requester : Requester)
    (mode : AccessMode) : Prop :=
  satisfies (grantedOn wac b target requester) mode = true

instance (b : Backend) (target : Iri) (requester : Requester) :
    DecidablePred (Granted wac b target requester) := fun _ =>
  inferInstanceAs (Decidable (_ = true))

variable {b : Backend} {chain : List (Iri × AclScope)} {w' : World} {P : Iri → Prop} {i : Index}
  {acl : Iri} {m : ResourceMeta}

theorem effectiveAcl_congr {b' : Backend}
    (h : ∀ c ∈ chain, b'.record? (aclFor c.1) = b.record? (aclFor c.1)) :
    effectiveAcl wac b' chain = effectiveAcl wac b chain := by
  induction chain with
  | nil => rfl
  | cons c rest ih =>
    obtain ⟨hc, hrest⟩ := List.forall_mem_cons.mp h
    simp only [effectiveAcl, storedAcl, hc, ih hrest]

/-- Grants look at ACL records only. -/
theorem grantedOn_congr {b' : Backend} (target : Iri) (requester : Requester)
    (h : ∀ acl, isAclResource acl = true → b'.record? acl = b.record? acl) :
    grantedOn wac b' target requester = grantedOn wac b target requester := by
  unfold grantedOn targetAcl
  rw [effectiveAcl_congr fun c _ => h _ (isAclResource_aclFor c.1)]

/-! ## §2 Sound worlds -/

/-- The ACL cache holds ACLs only, and under the current tag of a record that is not in `stale`
the parse of that record. -/
structure AclSound (wac : WacAuthorizer) (stale : Iri → Prop) (w : World) : Prop where
  only : ∀ acl e, w.aclCache.held? acl = some e → isAclResource acl = true
  parse : ∀ acl m e b, ¬ stale acl → w.backend.index.meta? acl = some m →
    w.aclCache.held? acl = some e → e.etag = m.etag →
    w.backend.blobs.lookup m.blobKey = some b → e.triples = wac.parseAclBody ⟨b, m⟩ acl

/-- **The invariant of a running server.** -/
structure Sound (wac : WacAuthorizer) (w : World) : Prop extends Consistent w where
  acl : AclSound wac noRecord w

/-- Soundness does not look at faults, clock, counter or notifications. -/
theorem Sound.of_eq (h : Sound wac w) (hb : w'.backend = w.backend) (ha : w'.aclCache = w.aclCache)
    (hc : w'.bodyCache = w.bodyCache) (he : w'.entropy = w.entropy) (hd : w'.draws = w.draws) :
    Sound wac w' := by
  obtain ⟨⟨hstored, hkeys, hcached, hfresh, hdistinct⟩, honly, hparse⟩ := h
  rw [← hb, ← he, ← hd, ← hc] at *
  rw [← ha] at *
  refine ⟨⟨?_, ?_, ?_, ?_, ?_⟩, ⟨?_, ?_⟩⟩ <;> assumption

/-- A change of the store can only make the cached parses of the changed records stale. -/
theorem AclSound.wrote {stale : Iri → Prop} (h : AclSound wac stale w) (hw : Wrote P i w w') :
    AclSound wac (fun acl => stale acl ∨ (isAclResource acl = true ∧ P acl)) w' where
  only acl e he := h.only acl e (hw.aclCache ▸ he)
  parse acl m e b hstale hm he htag hb := by
    rw [hw.aclCache] at he
    obtain ⟨hns, hnp⟩ := not_or.mp hstale
    have hp : ¬ P acl := fun hp => hnp ⟨h.only acl e he, hp⟩
    -- the record and its bytes are the ones the cache was coherent with
    have hrec := hw.rewrites.records acl hp
    have hm' : w.backend.index.meta? acl = some m := by rw [← hw.rewrites.meta? hp, hm]
    have hb' : w.backend.blobs.lookup m.blobKey = some b := by
      simp only [Backend.record?, hm, hm', Option.map_some, Option.some.injEq, Prod.mk.injEq,
        true_and, hb] at hrec
      exact hrec.symm
    exact h.parse acl m e b hns hm' he htag hb'

theorem AclSound.weaken {stale stale' : Iri → Prop} (h : AclSound wac stale w)
    (hle : ∀ i, stale i → stale' i) : AclSound wac stale' w :=
  ⟨h.only, fun acl m e b hns => h.parse acl m e b fun hs => hns (hle acl hs)⟩

/-- A store change that touches no ACL keeps a sound world sound. -/
theorem Sound.wrote (h : Sound wac w) (hc : Consistent w') (hw : Wrote P i w w')
    (hP : ∀ iri, P iri → isAclResource iri = false) :
    Sound wac w' where
  toConsistent := hc
  acl := (h.acl.wrote hw).weaken fun acl hstale => by
    rcases hstale with hstale | ⟨hacl, hp⟩
    · exact hstale
    · rw [hP acl hp] at hacl
      cases hacl

/-- A record that is gone has no stale parse. -/
theorem Sound.removed {iri : Iri} (h : Sound wac w) (hc : Consistent w')
    (hw : Wrote (· = iri) i w w') (hgone : i.meta? iri = none) : Sound wac w' where
  toConsistent := hc
  acl :=
    { only := (h.acl.wrote hw).only
      parse := by
        intro acl m e b _ hm
        refine (h.acl.wrote hw).parse acl m e b (fun hstale => ?_) hm
        rcases hstale with hstale | ⟨-, rfl⟩
        · exact hstale
        · rw [hw.rewrites.index, hgone] at hm
          cases hm }

/-- An ACL written and then invalidated. -/
theorem Sound.invalidated (h : Sound wac w) (hc : Consistent w') (hw : Wrote (· = acl) i w w') :
    Sound wac { w' with aclCache := w'.aclCache.invalidate acl } where
  toConsistent := ⟨hc.stored, hc.keys, hc.cached, hc.fresh, hc.distinct⟩
  acl :=
    { only := fun acl' e he =>
        (h.acl.wrote hw).only acl' e (AclCache.held?_invalidate he)
      parse := by
        intro acl' m e b _ hm he
        have hne : acl' ≠ acl := by
          rintro rfl
          rw [AclCache.held?_invalidate_self] at he
          cases he
        refine (h.acl.wrote hw).parse acl' m e b (fun hstale => ?_) hm
          (AclCache.held?_invalidate he)
        rcases hstale with hstale | ⟨-, heq⟩
        · exact hstale
        · exact hne heq }

/-! ## §3 Reading keeps worlds sound -/

/-- After a read: the world is sound, and nothing but caches and clock has moved. -/
def Calm (wac : WacAuthorizer) (w : World) {α : Type} : Except ServerError α → World → Prop :=
  fun _ w' => Sound wac w' ∧ Quiet w w'

theorem calm_of_unchanged {α : Type} {p : Server α} (hs : Sound wac w) (h : (exec p w).2 = w) :
    Spec p w (Calm wac w) := by
  show Sound wac (exec p w).2 ∧ Quiet w (exec p w).2
  rw [h]
  exact ⟨hs, .refl w⟩

theorem calm_pure {α : Type} (hs : Sound wac w) (a : α) : Spec (pure a) w (Calm wac w) :=
  calm_of_unchanged hs rfl

theorem calm_meta? (hs : Sound wac w) (iri : Iri) : Spec (meta? iri) w (Calm wac w) :=
  calm_of_unchanged hs (by rw [exec_meta?])

/-- A body cache whose entries are entries of the old one, or bytes of the blob store. -/
theorem consistent_bodyCache (h : Consistent w) {c : BodyCache}
    (hc : ∀ key tag b, c.body? key tag = some b →
      w.bodyCache.body? key tag = some b ∨ w.backend.blobs.lookup key = some b) :
    Consistent { w with bodyCache := c } where
  stored := h.stored
  keys := h.keys
  cached key tag b b' hb hb' := by
    rcases hc key tag b hb with hold | hblob
    · exact h.cached key tag b b' hold hb'
    · rw [hblob] at hb'
      exact Option.some.inj hb'
  fresh n s iri hn hsuf := by
    obtain ⟨hnone, htag⟩ := h.fresh n s iri hn hsuf
    refine ⟨hnone, fun tag => ?_⟩
    cases hb : c.body? (blobKeyFor iri s) tag with
    | none => rfl
    | some b =>
      rcases hc _ tag b hb with hold | hblob
      · rw [htag tag] at hold
        cases hold
      · rw [hnone] at hblob
        cases hblob
  distinct := h.distinct

theorem Sound.bodyCache (hs : Sound wac w) {c : BodyCache}
    (hc : ∀ key tag b, c.body? key tag = some b →
      w.bodyCache.body? key tag = some b ∨ w.backend.blobs.lookup key = some b) :
    Sound wac { w with bodyCache := c } :=
  ⟨consistent_bodyCache hs.toConsistent hc, hs.acl.only, hs.acl.parse⟩

/-- Fetching a body changes the body cache, if anything, by bytes of the blob store. -/
theorem fetchBody_caches (m : ResourceMeta) (w : World) :
    ∃ c, (exec (fetchBody m) w).2 = { w with bodyCache := c } ∧
      ∀ key tag b, c.body? key tag = some b →
        w.bodyCache.body? key tag = some b ∨ w.backend.blobs.lookup key = some b := by
  have hget : ∀ key tag b, (w.bodyCache.get m.blobKey m.etag).2.body? key tag = some b →
      w.bodyCache.body? key tag = some b ∨ w.backend.blobs.lookup key = some b :=
    fun key tag b hb => .inl (BodyCache.body?_get hb)
  unfold fetchBody
  rw [exec_perform_bind]
  simp only [World.sem]
  cases (w.bodyCache.get m.blobKey m.etag).1 with
  | some b => exact ⟨_, rfl, hget⟩
  | none =>
    rw [exec_perform_bind]
    simp only [World.sem]
    cases w.faults.blobGet m.blobKey with
    | some e => exact ⟨_, rfl, hget⟩
    | none =>
      cases hb : w.backend.blobs.lookup m.blobKey with
      | none => exact ⟨_, rfl, hget⟩
      | some b =>
        refine ⟨_, rfl, fun key tag b' hb' => ?_⟩
        -- the inserted entry is the blob just read
        rcases BodyCache.body?_insert hb' with ⟨rfl, rfl, rfl⟩ | hold
        · exact .inr hb
        · exact hget key tag b' hold

theorem calm_fetchBody (hs : Sound wac w) (m : ResourceMeta) :
    Spec (fetchBody m) w (Calm wac w) := by
  obtain ⟨c, hworld, hc⟩ := fetchBody_caches m w
  show Sound wac (exec (fetchBody m) w).2 ∧ Quiet w (exec (fetchBody m) w).2
  rw [hworld]
  exact ⟨hs.bodyCache hc, rfl, rfl, rfl, rfl, rfl, rfl, rfl⟩

/-- The steps of an ACL read once the record has been probed. -/
theorem uses_readThroughCache {P : StoreOp → Prop} {miss : Server Resource} (hnow : P .now)
    (hget : ∀ now, P (.aclCacheGet acl m.etag now))
    (hins : ∀ tag ts now, P (.aclCacheInsert acl tag ts now)) (hmiss : miss.Uses (S := storeSig) P)
    :
    (wac.readThroughCache acl m miss).Uses (S := storeSig) P := by
  refine Program.Uses.bind (Program.Uses.bind (uses_perform hnow) fun _ => trivial) fun now => ?_
  refine Program.Uses.bind (uses_perform (hget now)) fun hit => ?_
  cases hit with
  | some triples => trivial
  | none =>
    refine Program.Uses.bind hmiss.attempt fun r => ?_
    cases r with
    | ok resource => exact Program.Uses.bind (uses_perform (hins _ _ _)) fun _ => trivial
    | error e => cases e <;> trivial

/-- A specification together with the result the run has. -/
theorem spec_result {α : Type} {p : Server α} {Q : Except ServerError α → World → Prop}
    (h : Spec p w Q) : Spec p w fun r w' => Q r w' ∧ r = (exec p w).1 := ⟨h, rfl⟩

/-- The bytes fetched for a record are the bytes stored for it. -/
theorem lookup_of_fetchOutcome (hc : Consistent w) {iri : Iri} {b : Bytes}
    (hm : w.backend.index.meta? iri = some m) (hf : fetchOutcome w m = .ok b) :
    w.backend.blobs.lookup m.blobKey = some b := by
  obtain ⟨b', hb'⟩ := hc.stored iri m hm
  unfold fetchOutcome at hf
  split at hf
  · rename_i b₀ hcached
    obtain rfl := Except.ok.inj hf
    rw [hb', hc.cached _ _ _ _ hcached hb']
  · unfold blobOutcome at hf
    split at hf
    · cases hf
    · rw [hb'] at hf ⊢
      exact congrArg some (Except.ok.inj hf)

/-- The parse of the current record may be cached. -/
theorem Sound.aclInsert (hs : Sound wac w) {b : Bytes} (hacl : isAclResource acl = true)
    (hm : w.backend.index.meta? acl = some m) (hb : w.backend.blobs.lookup m.blobKey = some b)
    (now : Int) :
    Sound wac { w with
      aclCache := w.aclCache.insert acl m.etag (wac.parseAclBody ⟨b, m⟩ acl) now } where
  toConsistent := ⟨hs.stored, hs.keys, hs.cached, hs.fresh, hs.distinct⟩
  acl :=
    { only := by
        intro acl' e he
        rcases AclCache.held?_insert he with ⟨rfl, -, -⟩ | hold
        · exact hacl
        · exact hs.acl.only acl' e hold
      parse := by
        intro acl' m' e b' hns hm' he htag hb'
        rcases AclCache.held?_insert he with ⟨rfl, -, hts⟩ | hold
        · obtain rfl := Option.some.inj (hm.symm.trans hm')
          obtain rfl := Option.some.inj (hb.symm.trans hb')
          exact hts
        · exact hs.acl.parse acl' m' e b' hns hm' hold htag hb' }

/-- A lookup may drop a stale parse and refresh a recent one. -/
theorem Sound.aclGet (hs : Sound wac w) (acl etag : Text) (now : Int) :
    Sound wac { w with aclCache := (w.aclCache.get acl etag now).2 } where
  toConsistent := ⟨hs.stored, hs.keys, hs.cached, hs.fresh, hs.distinct⟩
  acl :=
    { only := by
        intro acl' e he
        obtain ⟨e', he', -, -⟩ := AclCache.held?_get he
        exact hs.acl.only acl' e' he'
      parse := by
        intro acl' m e b hns hm he htag hb
        obtain ⟨e', he', htag', hts⟩ := AclCache.held?_get he
        rw [← hts]
        exact hs.acl.parse acl' m e' b hns hm he' (htag'.trans htag) hb }

theorem Sound.tick (hs : Sound wac w) : Sound wac { w with readings := w.readings + 1 } :=
  ⟨hs.toConsistent.tick, ⟨hs.acl.only, hs.acl.parse⟩⟩

theorem calm_readThroughCache (hs : Sound wac w) {miss : Server Resource}
    (hacl : isAclResource acl = true) (hm : w.backend.index.meta? acl = some m)
    (hmiss : ∀ w', Sound wac w' → Quiet w w' → Spec miss w' fun r v => Calm wac w' r v ∧ ∀ res, r = .ok res → res.meta_ = m ∧ w.backend.blobs.lookup m.blobKey = some res.body)
    :
    Spec (wac.readThroughCache acl m miss) w (Calm wac w) := by
  refine Spec.perform_bind (Spec.perform_bind ?_)
  simp only [World.sem]
  generalize (SystemTime.unixSecs? (w.clock w.readings)).getD 0 = now
  generalize hv : ({ w with
    aclCache := (w.aclCache.get acl m.etag now).2, readings := w.readings + 1 } : World) = v
  have hvs : Sound wac v := by rw [← hv]; exact hs.tick.aclGet acl m.etag now
  have hvq : Quiet w v := by rw [← hv]; exact ⟨rfl, rfl, rfl, rfl, rfl, rfl, rfl⟩
  have hcalm : ∀ {α : Type} {r : Except ServerError α} {u : World}, Calm wac v r u →
      Calm wac w r u := fun h => ⟨h.1, hvq.trans h.2⟩
  cases (w.aclCache.get acl m.etag now).1 with
  | some ts => exact hcalm (calm_pure hvs _)
  | none =>
    refine Program.Ensures.attempt_bind (hmiss v hvs hvq) ?_
    rintro r u ⟨⟨hus, huq⟩, hres⟩
    have hwu : Quiet w u := hvq.trans huq
    cases r with
    | error e =>
      cases e with
      | notFound => exact ⟨hus, hwu⟩
      | _ => exact ⟨hus, hwu⟩
    | ok res =>
      obtain ⟨body, m'⟩ := res
      obtain ⟨rfl, hbytes⟩ := hres _ rfl
      refine Spec.perform_bind ⟨hus.aclInsert hacl ?_ ?_ now, ?_⟩
      · rw [hwu.backend]; exact hm
      · rw [hwu.backend]; exact hbytes
      · exact hwu.trans ⟨rfl, rfl, rfl, rfl, rfl, rfl, rfl⟩

theorem calm_readAclConfirmed (hcached : wac.cached = true) (hs : Sound wac w)
    (hacl : isAclResource acl = true) : Spec (wac.readAclConfirmed acl) w (Calm wac w) := by
  unfold WacAuthorizer.readAclConfirmed
  simp only [hcached]
  refine Spec.bind (spec_result (calm_meta? hs acl)) ?_ fun e w' h => h.1
  rintro r w' ⟨⟨hs', hq⟩, hr⟩
  refine Program.Ensures.mono (Q := Calm wac w') ?_ fun r v h => ⟨h.1, hq.trans h.2⟩
  cases r with
  | none => exact calm_pure hs' _
  | some m =>
    have hm : w'.backend.index.meta? acl = some m := by
      rw [exec_meta?] at hr
      rw [hq.backend]
      exact meta_of_probe hr.symm
    refine calm_readThroughCache hs' hacl hm fun v hvs hvq => ?_
    refine Spec.bind (spec_result (calm_fetchBody hvs m)) ?_ ?_
    · rintro b u ⟨hu, hb⟩
      refine ⟨hu, ?_⟩
      rintro _ ⟨⟩
      rw [readAt, exec_fetchBody_fst] at hb
      refine ⟨rfl, ?_⟩
      rw [← hvq.backend]
      exact lookup_of_fetchOutcome hvs.toConsistent (by rw [hvq.backend]; exact hm) hb.symm
    · rintro e u ⟨hu, -⟩
      exact ⟨hu, by rintro _ ⟨⟩⟩

/-! ## §4 The planned authorizer decides by the stored grants -/

theorem storedAcl_of_absent (hm : w.backend.index.meta? acl = none) :
    storedAcl wac w.backend acl = none := by
  simp [storedAcl, Backend.record?, hm]

theorem storedAcl_of_record {b : Bytes} (hm : w.backend.index.meta? acl = some m)
    (hb : w.backend.blobs.lookup m.blobKey = some b) :
    storedAcl wac w.backend acl = some (wac.parseAclBody ⟨b, m⟩ acl) := by
  simp [storedAcl, Backend.record?, hm, hb]

/-- What a reader answers is the stored ACL. -/
theorem Answers.eq_storedAcl {r : Except ServerError (Option (List Triple))}
    {ts : Option (List Triple)} (h : Answers wac w acl r) (hs : Sound wac w) (hr : r = .ok ts) :
    ts = storedAcl wac w.backend acl := by
  rcases h with rfl | ⟨m, e, -, hp, he, htag, rfl⟩
  · unfold aclOutcome at hr
    split at hr
    · cases hr
    · rename_i hp
      rw [storedAcl_of_absent (meta_of_probe hp)]
      exact (Except.ok.inj hr).symm
    · rename_i m hp
      cases hf : fetchOutcome w m with
      | error e => rw [hf] at hr; cases hr
      | ok b =>
        have hm := meta_of_probe hp
        rw [hf] at hr
        rw [storedAcl_of_record hm (lookup_of_fetchOutcome hs.toConsistent hm hf)]
        exact (Except.ok.inj hr).symm
  · have hm := meta_of_probe hp
    obtain ⟨b, hb⟩ := hs.stored acl m hm
    rw [storedAcl_of_record hm hb, ← hs.acl.parse acl m e b id hm he htag hb]
    exact (Except.ok.inj hr).symm

/-- On backends that answer, a reader answers. -/
theorem Answers.complete {r : Except ServerError (Option (List Triple))} (h : Answers wac w acl r)
    (hs : Sound wac w) (hidx : w.faults.indexRead acl = none)
    (hblob : ∀ m, w.backend.index.meta? acl = some m → w.faults.blobGet m.blobKey = none) :
    r = .ok (storedAcl wac w.backend acl) := by
  have hok : ∃ ts, r = .ok ts := by
    rcases h with rfl | ⟨m, e, -, -, -, -, rfl⟩
    · unfold aclOutcome
      rw [probe_of_no_fault hidx]
      cases hm : w.backend.index.meta? acl with
      | none => exact ⟨_, rfl⟩
      | some m =>
        obtain ⟨b, hb⟩ := hs.stored acl m hm
        simp only [fetchOutcome, blobOutcome, hblob m hm, hb]
        cases w.bodyCache.body? m.blobKey m.etag <;> exact ⟨_, rfl⟩
    · exact ⟨_, rfl⟩
  obtain ⟨ts, rfl⟩ := hok
  rw [h.eq_storedAcl hs rfl]

theorem resolution_sound {outcome : Iri → Except ServerError (Option (List Triple))}
    {resolved : ResolvedAcl} (h : ∀ acl ts, outcome acl = .ok ts → ts = storedAcl wac b acl)
    (hr : resolution outcome chain = .ok resolved) : resolved = effectiveAcl wac b chain := by
  induction chain with
  | nil => exact (Except.ok.inj hr).symm
  | cons c rest ih =>
    obtain ⟨governed, scope⟩ := c
    rw [resolution] at hr
    rw [effectiveAcl]
    cases ho : outcome (aclFor governed) with
    | error e => rw [ho] at hr; cases hr
    | ok ts =>
      rw [ho] at hr
      rw [← h _ _ ho]
      cases ts with
      | none => exact ih hr
      | some ts => exact (Except.ok.inj hr).symm

theorem resolution_complete {outcome : Iri → Except ServerError (Option (List Triple))}
    (h : ∀ c ∈ chain, outcome (aclFor c.1) = .ok (storedAcl wac b (aclFor c.1))) :
    resolution outcome chain = .ok (effectiveAcl wac b chain) := by
  induction chain with
  | nil => rfl
  | cons c rest ih =>
    obtain ⟨governed, scope⟩ := c
    obtain ⟨hc, hrest⟩ := List.forall_mem_cons.mp h
    rw [resolution, hc, effectiveAcl]
    cases storedAcl wac b (aclFor governed) with
    | none => exact ih hrest
    | some ts => rfl

theorem indexRead_of_planFault {faults : Faults} {slot : Iri} {acls : List Iri}
    (h : World.planFault faults slot acls = none) : ∀ acl ∈ acls, faults.indexRead acl = none :=
  fun acl hacl => List.findSome?_eq_none_iff.mp h acl (List.mem_cons_of_mem _ hacl)

/-- The planned resolution is the plan's own error, or the first ACL the readers find. -/
theorem exec_plannedResolution_fst (slot target : Iri) :
    (exec (plannedResolution wac slot target) w).1 =
      match World.planFault w.faults slot (planAcls wac.baseUrl target) with
      | some e => .error (.storage e)
      | none =>
        resolution (fun acl => (exec (wac.readAclConfirmed acl) w).1)
          (walk wac.baseUrl (protectedResource target)) := by
  unfold plannedResolution
  cases hplan : World.planFault w.faults slot (planAcls wac.baseUrl target) with
  | some e => rw [exec_bind_error (by rw [exec_readPlan, hplan])]
  | none =>
    rw [exec_bind_ok (by rw [exec_readPlan, hplan])]
    exact resolveEffectiveAclPlanned_fst slot target (indexRead_of_planFault hplan)

/-- **Soundness**: a resolution that answers has found the stored effective ACL. -/
theorem plannedResolution_sound (hs : Sound wac w) {slot target : Iri} {resolved : ResolvedAcl}
    (h : (exec (plannedResolution wac slot target) w).1 = .ok resolved) :
    resolved = targetAcl wac w.backend target := by
  rw [exec_plannedResolution_fst] at h
  cases hplan : World.planFault w.faults slot (planAcls wac.baseUrl target) with
  | some e => rw [hplan] at h; cases h
  | none =>
    rw [hplan] at h
    exact resolution_sound (fun acl ts hts =>
      (answers_readAclConfirmed acl).eq_storedAcl hs hts) h

/-- **Completeness**: on backends that answer, the resolution finds the stored effective ACL. -/
theorem plannedResolution_complete (hs : Sound wac w)
    (hidx : ∀ iri, w.faults.indexRead iri = none) (hblob : ∀ key, w.faults.blobGet key = none)
    (slot target : Iri) :
    (exec (plannedResolution wac slot target) w).1 = .ok (targetAcl wac w.backend target) := by
  rw [exec_plannedResolution_fst, planFault_eq_none hidx]
  exact resolution_complete fun c _ =>
    (answers_readAclConfirmed (aclFor c.1)).complete hs (hidx _) fun m _ => hblob m.blobKey

/-! ## §5 Seeded worlds -/

theorem bootEntropy_ok {n : Nat} {suffix : Suffix} (h : bootEntropy n = .ok suffix) :
    n < 256 ∧ suffix.bytes.head? = some (UInt8.ofNat n) := by
  unfold bootEntropy at h
  split_ifs at h with hn
  obtain rfl := Except.ok.inj h
  exact ⟨hn, rfl⟩

theorem consistent_boot : Consistent World.boot where
  stored iri m h := by cases h
  keys i j m n h := by cases h
  cached key tag b b' _ h := by cases h
  fresh n suffix iri _ _ := ⟨rfl, fun _ => rfl⟩
  distinct n k suffix _ hnk hn hk := by
    obtain ⟨hn256, hnhead⟩ := bootEntropy_ok hn
    obtain ⟨hk256, hkhead⟩ := bootEntropy_ok hk
    have hbyte : UInt8.ofNat n = UInt8.ofNat k := Option.some.inj (hnhead.symm.trans hkhead)
    have hnat := congrArg UInt8.toNat hbyte
    rw [UInt8.toNat_ofNat_of_lt' hn256, UInt8.toNat_ofNat_of_lt' hk256] at hnat
    omega

theorem Settles.consistent {α : Type} {i : α → Index} {Q : α → World → Prop}
    {r : Except ServerError α} (h : Settles w P i Q r w') :
    Consistent w' ∧ w'.aclCache = w.aclCache := by
  cases r with
  | error e => exact ⟨h.1, h.2.aclCache⟩
  | ok a => exact ⟨h.1, h.2.1.aclCache⟩

theorem consistent_ensureContainer (hc : Consistent w) (iri : Iri) (parent : Option Iri) :
    Spec (ensureContainer iri parent) w fun _ w' =>
      Consistent w' ∧ w'.aclCache = w.aclCache := by
  refine Spec.exists_bind ?_ fun e => ⟨hc, rfl⟩
  split_ifs
  · exact ⟨hc, rfl⟩
  · cases parent with
    | none =>
      exact Spec.bind (spec_write hc _ _ _) (fun _ _ h => Settles.consistent h)
        fun _ _ h => Settles.consistent h
    | some p =>
      exact Spec.bind (spec_createInContainer hc _ _ _ _) (fun _ _ h => Settles.consistent h)
        fun _ _ h => Settles.consistent h

theorem consistent_seedRoot (hc : Consistent w) (root : Iri) (docs : List (Iri × Bytes)) :
    Spec (seedRoot root docs) w fun _ w' => Consistent w' ∧ w'.aclCache = w.aclCache := by
  induction docs with
  | nil => exact consistent_ensureContainer hc root none
  | cons doc docs ih =>
    refine Spec.bind ih ?_ fun e w' h => h
    rintro ⟨⟩ w' ⟨hc', hacl⟩
    refine Spec.bind (spec_write hc' _ _ _) ?_ ?_
    · intro m v h
      obtain ⟨hv, hcache⟩ := Settles.consistent h
      exact ⟨hv, hcache.trans hacl⟩
    · intro e v h
      obtain ⟨hv, hcache⟩ := Settles.consistent h
      exact ⟨hv, hcache.trans hacl⟩

/-- **A seeded storage is sound**: it is consistent and no ACL has been parsed yet. -/
theorem sound_seeded (root : Iri) (docs : List (Iri × Bytes)) :
    Sound wac (World.seeded root docs) := by
  obtain ⟨hc, hacl⟩ := consistent_seedRoot consistent_boot root docs
  have hempty : ∀ acl, (World.seeded root docs).aclCache.held? acl = none := fun acl => by
    rw [show (World.seeded root docs).aclCache = World.boot.aclCache from hacl]
    rfl
  refine ⟨hc, fun acl e he => ?_, fun acl m e b _ _ he => ?_⟩ <;>
  · rw [hempty] at he
    cases he

end SolidServer.Authz
