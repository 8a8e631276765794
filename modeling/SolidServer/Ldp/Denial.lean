import SolidServer.Ldp.Frame

/-!
# Denials do not disclose existence

When no backend read fails, an authorization has one answer, `verdict`: the granted modes, or
the refusal of the requester.  A handler asks for it before it looks at the target, so a
denied request ends in an answer that is computed from the request alone (`denialOf`), and
the store stays as it was.

`POST` and `DELETE` look at the target after a grant.  Both hide what they found: a `POST` to
something that is not a stored container is refused to a requester who may not read it, and
a `DELETE` of something absent is refused to everybody.
-/

namespace SolidServer.Ldp.LdpState

open SolidServer.Effects SolidServer.Store SolidServer.Authz

variable {s : LdpState} {w : World} {α β : Type}

/-! ## §1 Reads that work -/

/-- A sound world whose backends answer every read. -/
structure Working (s : LdpState) (w : World) : Prop extends Sound s.wac w where
  indexReads : ∀ iri, w.faults.indexRead iri = none
  blobReads : ∀ key, w.faults.blobGet key = none

theorem Working.calm {w' : World} {r : Except ServerError α} (h : Working s w)
    (hc : Calm s.wac w r w') : Working s w' where
  toSound := hc.1
  indexReads iri := by rw [hc.2.faults]; exact h.indexReads iri
  blobReads key := by rw [hc.2.faults]; exact h.blobReads key

/-- A storage just seeded works. -/
theorem working_seeded (root : Iri) (docs : List (Iri × Bytes)) :
    Working s (World.seeded root docs) where
  toSound := sound_seeded root docs
  indexReads iri := by unfold World.seeded; rw [faults_exec]; rfl
  blobReads key := by unfold World.seeded; rw [faults_exec]; rfl

/-- The computation answers `x` and leaves everything but the caches alone. -/
abbrev Yields (s : LdpState) (p : Server α) (w : World) (x : Except ServerError α) : Prop :=
  Spec p w fun r w' => Calm s.wac w r w' ∧ r = x

/-- **Sequencing** after a computation with a known answer. -/
theorem Yields.bind {p : Server α} {f : α → Server β} {x : Except ServerError α}
    {Q : Except ServerError β → World → Prop} (hp : Yields s p w x) (hw : Working s w)
    (hok : ∀ a w', x = .ok a → Working s w' → w'.backend = w.backend → Spec (f a) w' Q)
    (herr : ∀ e w', x = .error e → w'.backend = w.backend → Q (.error e) w') :
    Spec (p >>= f) w Q := by
  apply Spec.bind hp
  · rintro a w' ⟨hcalm, rfl⟩
    exact hok a w' rfl (hw.calm hcalm) hcalm.2.backend
  · rintro e w' ⟨hcalm, rfl⟩
    exact herr e w' rfl hcalm.2.backend

variable {p : Server α} {f : α → Server β} {b : Backend} {requester : Requester} {mode : AccessMode}
  {e : ServerError}

theorem spec_bind_of_exec {a : α} {w' : World} {Q : Except ServerError β → World → Prop}
    (hp : exec p w = (.ok a, w')) (hf : Spec (f a) w' Q) : Spec (p >>= f) w Q := by
  have hrun : Spec p w fun r v => (r, v) = (Except.ok a, w') := hp
  apply Spec.bind hrun
  · rintro _ _ ⟨⟩
    exact hf
  · rintro _ _ ⟨⟩

theorem yields_of_unchanged {x : Except ServerError α} (hw : Working s w) (h : exec p w = (x, w)) :
    Yields s p w x := by
  refine ⟨calm_of_unchanged hw.toSound ?_, ?_⟩
  · rw [h]
  · exact congrArg Prod.fst h

theorem yields_meta? (hw : Working s w) (iri : Iri) :
    Yields s (meta? iri) w (.ok (w.backend.index.meta? iri)) := by
  apply yields_of_unchanged hw
  rw [exec_meta?, probe_of_no_fault (hw.indexReads iri)]

theorem yields_exists_ (hw : Working s w) (iri : Iri) :
    Yields s (exists_ iri) w (.ok (w.backend.index.meta? iri).isSome) := by
  obtain ⟨hworld, hanswer⟩ := exec_exists_ iri w
  exact yields_of_unchanged hw (Prod.ext (hanswer (hw.indexReads iri)) hworld)

/-! ## §2 The verdict -/

/-- What an authorization answers: the modes granted, or the refusal of the requester. -/
def verdict (s : LdpState) (b : Backend) (target : Iri) (requester : Requester)
    (mode : AccessMode) : Except ServerError (Finset AccessMode) :=
  if Granted s.wac b target requester mode then .ok (grantedOn s.wac b target requester)
  else .error (s.refusal requester.webId)

/-- The answer of a decision, as the handlers turn it into a result. -/
def answerOf (s : LdpState) : Decision → Except ServerError (Finset AccessMode)
  | .allow modes => .ok modes
  | .unauthenticated => .error s.unauthenticated
  | .forbidden => .error .forbidden

theorem answerOf_decisionFor (b : Backend) (target : Iri) (requester : Requester)
    (mode : AccessMode) :
    s.answerOf (WacAuthorizer.decisionFor (targetAcl s.wac b target) mode requester) =
      s.verdict b target requester mode := by
  unfold verdict
  split_ifs with h
  · rw [decisionFor_of_satisfies h]
    rfl
  · rw [decisionFor_of_not_satisfies (Bool.eq_false_iff.mpr h)]
    simp only [denial, refusal]
    split_ifs <;> rfl

/-- The answer the planned authorizer gives when nothing fails. -/
theorem yields_authorizePlannedIri (hw : Working s w) (target : Iri) (mode : AccessMode)
    (requester : Requester) :
    Yields s (s.authorizePlannedIri target mode requester) w
      (.ok (WacAuthorizer.decisionFor (targetAcl s.wac w.backend target) mode requester)) := by
  rw [authorizePlannedIri_eq]
  apply Spec.bind (spec_result ((perused_plannedResolution _ _).calm rfl hw.toSound))
  · rintro resolved w' ⟨hcalm, hr⟩
    rw [plannedResolution_complete hw.toSound hw.indexReads hw.blobReads] at hr
    obtain rfl := Except.ok.inj hr
    exact ⟨hcalm, rfl⟩
  · rintro e w' ⟨-, hr⟩
    rw [plannedResolution_complete hw.toSound hw.indexReads hw.blobReads] at hr
    cases hr

theorem yields_authorizeMode (hw : Working s w) (target : Iri) (mode : AccessMode)
    (requester : Requester) :
    Yields s (s.authorizeMode target mode requester) w
      (s.verdict w.backend target requester (requiredMode target mode)) := by
  rw [← answerOf_decisionFor]
  apply Spec.bind (yields_authorizePlannedIri hw target (requiredMode target mode) requester)
  · rintro d w' ⟨hcalm, hd⟩
    rw [← Except.ok.inj hd]
    cases d <;> exact ⟨hcalm, rfl⟩
  · rintro e w' ⟨-, he⟩
    cases he

theorem yields_authorizeIri (hw : Working s w) (target : Iri) (mode : AccessMode)
    (requester : Requester) :
    Yields s (s.authorizeIri target mode requester) w
      ((s.verdict w.backend target requester mode).map fun _ => ()) := by
  rw [← answerOf_decisionFor]
  apply Spec.bind (yields_authorizePlannedIri hw target mode requester)
  · rintro d w' ⟨hcalm, hd⟩
    rw [← Except.ok.inj hd]
    cases d <;> exact ⟨hcalm, rfl⟩
  · rintro e w' ⟨-, he⟩
    cases he

/-- What the check on the nearest container answers: nothing, or the refusal. -/
def nearestVerdict (s : LdpState) (b : Backend) (target : Iri) (requester : Requester)
    (mode : AccessMode) : Except ServerError Unit :=
  if isAclResource target then .ok ()
  else
    match s.nearestContainer b target with
    | some c => (s.verdict b c requester mode).map fun _ => ()
    | none => .ok ()

theorem exec_nearestLoop (hidx : ∀ iri, w.faults.indexRead iri = none) (root : Iri) (fuel : Nat)
    (current : Text) :
    exec (nearestLoop root fuel current) w = (.ok (nearestIn w.backend.index root fuel current), w) := by
  induction fuel generalizing current with
  | zero => rfl
  | succ fuel ih =>
    unfold nearestLoop nearestIn
    cases Text.throughLast current '/' with
    | none => rfl
    | some parent =>
      obtain ⟨hworld, hanswer⟩ := exec_exists_ parent w
      have hprobe : exec (exists_ parent) w = (.ok (w.backend.index.meta? parent).isSome, w) :=
        Prod.ext (hanswer (hidx parent)) hworld
      simp only [exec_bind, hprobe]
      split_ifs
      · rfl
      · rfl
      · exact ih parent.dropLast

theorem yields_authorizeRemoval (hw : Working s w) (target : Iri) (requester : Requester) :
    Yields s (s.authorizeRemoval target requester) w
      (s.nearestVerdict w.backend target requester .write) := by
  unfold authorizeRemoval nearestVerdict
  split_ifs
  · exact yields_of_unchanged hw rfl
  · refine spec_bind_of_exec (exec_nearestLoop hw.indexReads _ _ _) ?_
    show Yields s (match s.nearestContainer w.backend target with
      | some p => s.authorizeIri p .write requester
      | none => pure ()) w _
    cases s.nearestContainer w.backend target with
    | some c => exact yields_authorizeIri hw c .write requester
    | none => exact yields_of_unchanged hw rfl

theorem verdict_of_not_granted {target : Iri} (h : ¬ Granted s.wac b target requester mode) :
    s.verdict b target requester mode = .error (s.refusal requester.webId) := if_neg h

/-- An error of the verdict is the refusal. -/
theorem verdict_error {target : Iri} (h : s.verdict b target requester mode = .error e) :
    e = s.refusal requester.webId := by
  unfold verdict at h
  split_ifs at h
  exact (Except.error.inj h).symm

theorem nearestVerdict_error {target : Iri}
    (h : s.nearestVerdict b target requester mode = .error e) :
    e = s.refusal requester.webId := by
  unfold nearestVerdict at h
  split_ifs at h
  split at h
  · rename_i c _
    cases hv : s.verdict b c requester mode with
    | ok modes =>
      rw [hv] at h
      cases h
    | error e' =>
      rw [hv] at h
      obtain rfl := Except.error.inj h
      exact verdict_error hv
  · cases h

/-- The read mode is granted exactly when it is one of the granted modes: no other mode
stands in for it. -/
theorem granted_readMode {target : Iri} :
    Granted s.wac b target requester (readMode target) ↔
      readMode target ∈ grantedOn s.wac b target requester := by
  unfold Granted satisfies readMode
  split_ifs <;> simp

/-- The walk over the rows of a plan just taken finds the effective ACL. -/
theorem yields_resolvePlanned (hw : Working s w) (slot target : Iri) :
    Yields s (s.wac.resolveEffectiveAclPlanned (readPlanCandidates s.baseUrl target)
      (w.backend.index.readPlan slot (planAcls s.baseUrl target)).acls) w
      (.ok (targetAcl s.wac w.backend target)) := by
  have hrun := plannedResolution_complete hw.toSound hw.indexReads hw.blobReads slot target
  unfold plannedResolution at hrun
  rw [exec_bind, exec_readPlan, planFault_eq_none hw.indexReads] at hrun
  exact ⟨(perused_resolveEffectiveAclPlanned _ target _).calm rfl hw.toSound, hrun⟩

/-- A read that is not granted is refused. -/
theorem yields_authorizeRead_denied (hw : Working s w) (method : Method) (target : LdpTarget)
    (requester : Requester)
    (h : ¬ Granted s.wac w.backend target.iri requester
      (modeForOperation method target.iri target.isContainer)) :
    Yields s (s.authorizeRead method target requester) w
      (.error (s.refusal requester.webId)) := by
  unfold authorizeRead WacAuthorizer.authorizeReadPlanned
  simp only [bind_assoc]
  refine spec_bind_of_exec (planFault_of_no_faults hw.indexReads) ?_
  apply Spec.bind (yields_resolvePlanned hw target.iri target.iri)
  · rintro resolved w' ⟨hcalm, hr⟩
    obtain rfl := Except.ok.inj hr
    have hmode : (if isAclResource target.iri then AccessMode.control
        else modeForOperation method target.iri target.isContainer) =
        modeForOperation method target.iri target.isContainer :=
      requiredMode_modeForOperation method target.iri target.isContainer
    have hnot : satisfies ((targetAcl s.wac w.backend target.iri).modesFor requester)
        (modeForOperation method target.iri target.isContainer) = false := Bool.eq_false_iff.mpr h
    simp only [hmode, WacAuthorizer.readDecisionFor, hnot, Bool.not_false, refusal]
    split_ifs <;> exact ⟨hcalm, rfl⟩
  · rintro e w' ⟨-, hr⟩
    cases hr

/-! ## §3 Refusals -/

/-- The run ends with the error `e` and the store is `b`. -/
def RefusedWith (e : ServerError) (b : Backend) : Except ServerError α → World → Prop :=
  fun r w' => r = .error e ∧ w'.backend = b

theorem check_ok_bind (a : α) (f : α → Server β) : check (.ok a) >>= f = f a := rfl

theorem refused_bind (hp : Spec p w (RefusedWith e b)) : Spec (p >>= f) w (RefusedWith e b) := by
  apply Spec.bind hp
  · rintro a w' ⟨⟨⟩, -⟩
  · rintro e' w' ⟨⟨⟩, hb⟩
    exact ⟨rfl, hb⟩

theorem refused_check {r : Except ServerError α} (hr : r = .error e) (hb : w.backend = b) :
    Spec (check r >>= f) w (RefusedWith e b) := by
  subst hr
  exact ⟨rfl, hb⟩

/-- An authorization that is not granted ends the request. -/
theorem refused_authorizeMode {f : Finset AccessMode → Server β} (hw : Working s w) {target : Iri}
    (h : ¬ Granted s.wac w.backend target requester (requiredMode target mode)) :
    Spec (s.authorizeMode target mode requester >>= f) w
      (RefusedWith (s.refusal requester.webId) w.backend) := by
  apply refused_bind
  refine (yields_authorizeMode hw target mode requester).mono ?_
  rintro r w' ⟨hcalm, hr⟩
  exact ⟨hr.trans (verdict_of_not_granted h), hcalm.2.backend⟩

/-- After a grant the requester goes on; what follows is refused in the same words. -/
theorem refused_after_authorizeMode {f : Finset AccessMode → Server β} (hw : Working s w)
    {target : Iri}
    (hf : ∀ w', Working s w' → w'.backend = w.backend → Spec (f (grantedOn s.wac w.backend target requester)) w' (RefusedWith (s.refusal requester.webId) w.backend))
    :
    Spec (s.authorizeMode target mode requester >>= f) w
      (RefusedWith (s.refusal requester.webId) w.backend) := by
  apply (yields_authorizeMode hw target mode requester).bind hw
  · intro granted w' hgranted hw' hb
    unfold verdict at hgranted
    split_ifs at hgranted
    obtain rfl := Except.ok.inj hgranted
    exact hf w' hw' hb
  · intro e w' he hb
    exact ⟨congrArg _ (verdict_error he), hb⟩

theorem guardRead_of_not_granted {target : Iri}
    (h : ¬ Granted s.wac b target requester (readMode target)) (webId : Option Iri) :
    s.guardRead target (grantedOn s.wac b target requester) webId = .error (s.refusal webId) :=
  if_pos fun hmem => h (granted_readMode.mpr hmem)

/-- A failing read guard fails with the refusal. -/
theorem guardRead_error {target : Iri} {granted : Finset AccessMode} {webId : Option Iri}
    (h : s.guardRead target granted webId = .error e) :
    e = s.refusal webId := by
  unfold guardRead at h
  split_ifs at h
  exact (Except.error.inj h).symm

/-! ## §4 Denied requests -/

/-- The mode an operation requires on the effective ACL of its target.  A patch that cannot be
read requires none: it is rejected first. -/
def operationMode (s : LdpState) (req : Request) (target : LdpTarget) : Option AccessMode :=
  match req.method with
  | .options => none
  | .patch => (s.parsePatch req target.iri).toOption.map fun p =>
      requiredMode target.iri (patchMode p)
  | .delete => some (deleteMode target)
  | method => some (modeForOperation method target.iri target.isContainer)

/-- **Denied**: the requester lacks the mode of the operation, or posts to something that is not
a stored container without the mode to read it. -/
inductive Denied (s : LdpState) (req : Request) (b : Backend) (target : LdpTarget) : Prop
  | mode (h : ∀ mode, s.operationMode req target = some mode →
      ¬ Granted s.wac b target.iri req.requester mode)
  | unseen (hpost : req.method = .post)
      (hplace : target.isContainer = false ∨ b.index.meta? target.iri = none)
      (hread : ¬ Granted s.wac b target.iri req.requester (readMode target.iri))

/-- The error a denied request gets, computed from the request alone. -/
def denialOf (s : LdpState) (req : Request) (target : LdpTarget) : ServerError :=
  match req.method with
  | .patch =>
    match s.parsePatch req target.iri with
    | .error e => e
    | .ok _ => s.refusal req.webId
  | _ => s.refusal req.webId

variable {req : Request} {target : LdpTarget}

theorem denied_serveRead (hw : Working s w) (withBody : Bool)
    (hparse : parseTarget s.baseUrl req.path = .ok target)
    (h : ¬ Granted s.wac w.backend target.iri req.requester
      (modeForOperation (if withBody then .get else .head) target.iri target.isContainer)) :
    Spec (s.serveRead req withBody) w (RefusedWith (s.refusal req.webId) w.backend) := by
  unfold serveRead
  rw [hparse]
  apply refused_bind (p := s.authorizeRead _ target req.requester)
  refine (yields_authorizeRead_denied hw _ target req.requester h).mono ?_
  rintro r w' ⟨hcalm, hr⟩
  exact ⟨hr, hcalm.2.backend⟩

/-- `POST` to something that is not a stored container, by a requester who may not read it. -/
theorem denied_post_unseen (hw : Working s w)
    (hparse : parseTarget s.baseUrl req.path = .ok target)
    (hplace : target.isContainer = false ∨ w.backend.index.meta? target.iri = none)
    (hread : ¬ Granted s.wac w.backend target.iri req.requester (readMode target.iri)) :
    Spec (s.postHandler req) w (RefusedWith (s.refusal req.webId) w.backend) := by
  have hguard := guardRead_of_not_granted hread req.webId
  unfold postHandler
  rw [hparse]
  refine refused_after_authorizeMode hw fun w' hw' hb => ?_
  split_ifs with hcontainer
  · -- the path is not a container's: the guard stands before the existence probe
    exact refused_check hguard hb
  · -- a container path: the guard stands after the probe that found nothing
    have habsent : w'.backend.index.meta? target.iri = none := by
      rw [hb]
      rcases hplace with hplain | habsent
      · simp [hplain] at hcontainer
      · exact habsent
    apply refused_bind
    apply Program.Ensures.attempt_bind (yields_exists_ hw' target.iri)
    rintro r v ⟨hcalm, rfl⟩
    rw [habsent]
    exact refused_check hguard (hcalm.2.backend.trans hb)

/-- `DELETE` of something absent: each check on the way, and the absence itself, refuses in the
same words. -/
theorem refused_delete_absent (hw : Working s w)
    (hparse : parseTarget s.baseUrl req.path = .ok target)
    (habsent : w.backend.index.meta? target.iri = none) :
    Spec (s.deleteHandler req) w (RefusedWith (s.refusal req.webId) w.backend) := by
  unfold deleteHandler
  rw [hparse]
  refine refused_after_authorizeMode hw fun w₁ hw₁ hb₁ => ?_
  apply (yields_authorizeRemoval hw₁ target.iri req.requester).bind hw₁
  · intro _ w₂ _ hw₂ hb₂
    apply Spec.check_bind
    · intro _ _
      apply (yields_meta? hw₂ target.iri).bind hw₂
      · intro m w₃ hm _ hb₃
        obtain rfl := Except.ok.inj hm
        rw [hb₂, hb₁, habsent]
        exact ⟨rfl, hb₃.trans (hb₂.trans hb₁)⟩
      · rintro e w₃ ⟨⟩
    · intro e he
      refine ⟨congrArg _ ?_, hb₂.trans hb₁⟩
      unfold guardConditionalRequiresRead at he
      split_ifs at he
      exact guardRead_error he
  · intro e w₂ he hb₂
    exact ⟨congrArg _ (nearestVerdict_error he), hb₂.trans hb₁⟩

/-- A denied `PATCH`: the patch is rejected, or the requester is. -/
theorem refused_patch (hw : Working s w) (hparse : parseTarget s.baseUrl req.path = .ok target)
    (h : ∀ patch, s.parsePatch req target.iri = .ok patch →
      ¬ Granted s.wac w.backend target.iri req.requester
        (requiredMode target.iri (patchMode patch))) :
    Spec (s.patchHandler req) w fun r w' =>
      RefusedWith (match s.parsePatch req target.iri with
        | .error e => e
        | .ok _ => s.refusal req.webId) w.backend r w' := by
  unfold patchHandler
  rw [hparse, check_ok_bind]
  cases hpatch : s.parsePatch req target.iri with
  | error e => exact refused_check rfl rfl
  | ok patch =>
    exact refused_authorizeMode hw (h patch hpatch)

/-- **A denied request is refused**, with an error computed from the request alone. -/
theorem refused_serve (hw : Working s w) (hm : req.method ≠ .options)
    (hparse : parseTarget s.baseUrl req.path = .ok target) (hd : s.Denied req w.backend target) :
    Spec (s.serve req) w (RefusedWith (s.denialOf req target) w.backend) := by
  unfold serve denialOf
  cases hd with
  | unseen hpost hplace hread =>
    rw [hpost]
    exact denied_post_unseen hw hparse hplace hread
  | mode h =>
    unfold operationMode at h
    cases hmethod : req.method with
    | options => exact absurd hmethod hm
    | get =>
      rw [hmethod] at h
      exact denied_serveRead hw true hparse (h _ rfl)
    | head =>
      rw [hmethod] at h
      exact denied_serveRead hw false hparse (h _ rfl)
    | put =>
      rw [hmethod] at h
      unfold putHandler
      rw [hparse]
      refine refused_authorizeMode hw ?_
      rw [requiredMode_modeForOperation]
      exact h _ rfl
    | post =>
      rw [hmethod] at h
      unfold postHandler
      rw [hparse]
      refine refused_authorizeMode hw ?_
      rw [requiredMode_modeForOperation]
      exact h _ rfl
    | patch =>
      rw [hmethod] at h
      refine refused_patch hw hparse fun patch hpatch => h _ ?_
      rw [hpatch]
      rfl
    | delete =>
      rw [hmethod] at h
      unfold deleteHandler
      rw [hparse]
      refine refused_authorizeMode hw ?_
      rw [requiredMode_deleteMode]
      exact h _ rfl

/-- The answer to a denied request, whatever the store. -/
theorem exists_denial (s : LdpState) (req : Request) :
    ∃ answer, ∀ w, Working s w →
      (∀ target, parseTarget s.baseUrl req.path = .ok target → s.Denied req w.backend target) →
      Spec (s.serve req) w fun r w' => r = answer ∧ w'.backend = w.backend := by
  by_cases hm : req.method = .options
  · -- `OPTIONS` looks at the path only
    refine ⟨(exec (optionsHandler req) World.boot).1, fun w _ _ => ?_⟩
    unfold serve
    rw [hm]
    exact ⟨rfl, rfl⟩
  · cases hparse : parseTarget s.baseUrl req.path with
    | error e =>
      refine ⟨.error e, fun w _ _ => ?_⟩
      unfold serve
      cases hmethod : req.method with
      | options => exact absurd hmethod hm
      | get | head => simp only [serveRead, hparse]; exact refused_check rfl rfl
      | put => simp only [putHandler, hparse]; exact refused_check rfl rfl
      | post => simp only [postHandler, hparse]; exact refused_check rfl rfl
      | patch => simp only [patchHandler, hparse]; exact refused_check rfl rfl
      | delete => simp only [deleteHandler, hparse]; exact refused_check rfl rfl
    | ok target =>
      exact ⟨.error (s.denialOf req target), fun w hw hd =>
        refused_serve hw hm hparse (hd target rfl)⟩

/-- **Denials do not disclose existence.**  Two stores in which a request is denied give it the
same response, and neither changes; nothing else is asked of the two stores.  A `DELETE` of
something absent is answered like a denied one, whatever is granted. -/
theorem denied_alike (s : LdpState) (req : Request) (w₁ w₂ : World) (hw₁ : Working s w₁)
    (hw₂ : Working s w₂)
    (hd₁ : ∀ target, parseTarget s.baseUrl req.path = .ok target → s.Denied req w₁.backend target)
    (hd₂ : ∀ target, parseTarget s.baseUrl req.path = .ok target →
      s.Denied req w₂.backend target) :
    (s.handle req w₁).1 = (s.handle req w₂).1 ∧
    (s.handle req w₁).2.backend = w₁.backend ∧ (s.handle req w₂).2.backend = w₂.backend ∧
    (req.method = .delete → ∀ target, parseTarget s.baseUrl req.path = .ok target →
      ∀ w, Working s w → w.backend.index.meta? target.iri = none →
        (s.handle req w).1 = (s.handle req w₁).1) := by
  obtain ⟨answer, hanswer⟩ := exists_denial s req
  obtain ⟨hr₁, hb₁⟩ := hanswer w₁ hw₁ hd₁
  obtain ⟨hr₂, hb₂⟩ := hanswer w₂ hw₂ hd₂
  refine ⟨congrArg respond (hr₁.trans hr₂.symm), hb₁, hb₂, ?_⟩
  intro hmethod target hparse w hw habsent
  have hm : req.method ≠ .options := by simp [hmethod]
  obtain ⟨hdenied, -⟩ := refused_serve hw₁ hm hparse (hd₁ target hparse)
  have hdelete : Spec (s.serve req) w (RefusedWith (s.denialOf req target) w.backend) := by
    unfold serve denialOf
    rw [hmethod]
    exact refused_delete_absent hw hparse habsent
  exact congrArg respond (hdelete.1.trans hdenied.symm)

/-- Everybody may append; `docs` are stored next to the rule. -/
def appendWorld (docs : List (Iri × Bytes)) : World :=
  World.seeded samplePod (docs ++ [(aclFor samplePod, [0, 1, 2, 3, 6])])

/-- An anonymous `DELETE` of `/d`, without `Write`, whether `/d` is there or not. -/
theorem denied_alike_delete :
    (sampleState.handle (sampleDelete "/d") (appendWorld [("http://h/d".toList, [1])])).1 =
      (sampleState.handle (sampleDelete "/d") (appendWorld [])).1 ∧
    (sampleState.handle (sampleDelete "/d") (appendWorld [])).1.status = 401 := by
  have hdenied : ∀ docs,
      (∀ mode, sampleState.operationMode (sampleDelete "/d") ⟨"http://h/d".toList,
          "http://h/d".toList, false⟩ = some mode →
        ¬ Granted sampleState.wac (appendWorld docs).backend "http://h/d".toList
          (sampleDelete "/d").requester mode) →
      ∀ target, parseTarget sampleState.baseUrl (sampleDelete "/d").path = .ok target →
        sampleState.Denied (sampleDelete "/d") (appendWorld docs).backend target := by
    intro docs h target htarget
    have hparse : parseTarget sampleState.baseUrl (sampleDelete "/d").path =
        .ok ⟨"http://h/d".toList, "http://h/d".toList, false⟩ := by decide
    obtain rfl := Except.ok.inj (hparse.symm.trans htarget)
    exact .mode h
  refine ⟨(denied_alike sampleState (sampleDelete "/d") _ _ (working_seeded _ _)
    (working_seeded _ _) (hdenied _ ?_) (hdenied _ ?_)).1, by decide⟩
  · rintro _ ⟨⟩
    decide
  · rintro _ ⟨⟩
    decide

end SolidServer.Ldp.LdpState
