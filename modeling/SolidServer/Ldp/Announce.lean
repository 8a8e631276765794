import SolidServer.Ldp.Blocks
import SolidServer.Ldp.Containment

/-!
# Notifications and membership

A client that watches a container learns of its members from the `Add` and `Remove` frames
sent to the container's topic.  Every request that adds or removes its target announces that;
the containers a `PUT` or `PATCH` makes on the way to its target are not announced.

* `notifications_reproduce`: replaying the frames on the members a container had gives the
  members it has, after every request of a run of successful requests, provided that none of
  them makes a container on the way.
* `unannounced_container`: a `PUT` of `/a/b` adds `/a/` to the root and does not say so.
-/

namespace SolidServer.Ldp.LdpState

open SolidServer.Effects SolidServer.Store SolidServer.Authz

variable {s : LdpState} {req : Request} {target : LdpTarget} {w w' w'' : World}

/-! ## §1 Replaying frames -/

/-- The members of a container, as a set. -/
def membersOf (w : World) (container : Iri) : Finset Iri :=
  (w.backend.index.childrenOf container).toFinset

/-- What a watcher of a container makes of a frame. -/
def replayFrame (container : Iri) (members : Finset Iri) (sent : Iri × Frame) : Finset Iri :=
  if sent.1 = container then
    match sent.2.activity with
    | .add => insert sent.2.object members
    | .remove => members.erase sent.2.object
    -- frames about the container itself
    | .create | .update | .delete => members
  else members

/-- **The watcher's view** after a number of frames. -/
def replay (container : Iri) (frames : List (Iri × Frame)) (members : Finset Iri) : Finset Iri :=
  frames.foldl (replayFrame container) members

theorem replay_append (container : Iri) (xs ys : List (Iri × Frame)) (members : Finset Iri) :
    replay container (xs ++ ys) members = replay container ys (replay container xs members) :=
  List.foldl_append

/-- The frames of a notification. -/
def notifyFrames (resource : Iri) (activity : ActivityType) (parent : Option Iri) :
    List (Iri × Frame) :=
  (resource, ⟨activity, resource, none⟩) ::
    match parent, activity with
    | some container, .create => [(container, ⟨.add, resource, some container⟩)]
    | some container, .delete => [(container, ⟨.remove, resource, some container⟩)]
    | _, _ => []

theorem exec_notify_eq (resource : Iri) (activity : ActivityType) (parent : Option Iri) (w : World) :
    exec (notify resource activity parent) w =
      (.ok (), { w with sent := w.sent ++ notifyFrames resource activity parent }) := by
  unfold notify notifyFrames
  cases parent with
  | none => cases activity <;> rfl
  | some container =>
    cases activity with
    | create | delete =>
      -- the second frame is appended to a list that ends in the first
      show (_, _) = (_, _)
      simp [World.sem]
    | update | add | remove => rfl

/-- A change of one container's members. -/
inductive Change where
  | unchanged
  | added (container member : Iri)
  | removed (container member : Iri)

/-- The members of a container after a change. -/
def Change.members : Change → Iri → Finset Iri → Finset Iri
  | .unchanged, _, members => members
  | .added container member, c, members => if c = container then insert member members else members
  | .removed container member, c, members => if c = container then members.erase member else members

/-- The change a creation announces. -/
def Change.creation (resource : Iri) : Option Iri → Change
  | some container => .added container resource
  | none => .unchanged

/-- The change a removal announces. -/
def Change.removal (resource : Iri) : Option Iri → Change
  | some container => .removed container resource
  | none => .unchanged

theorem replay_create (c resource : Iri) (parent : Option Iri) (members : Finset Iri) :
    replay c (notifyFrames resource .create parent) members =
      (Change.creation resource parent).members c members := by
  have hown : replayFrame c members (resource, ⟨.create, resource, none⟩) = members := by
    simp [replayFrame]
  cases parent with
  | none => simpa [replay, notifyFrames, Change.creation, Change.members] using hown
  | some container =>
    simp only [replay, notifyFrames, Change.creation, Change.members]
    simp [replayFrame, eq_comm]

theorem replay_update (c resource : Iri) (members : Finset Iri) :
    replay c (notifyFrames resource .update none) members = members := by
  simp [replay, notifyFrames, replayFrame]

theorem replay_delete (c resource : Iri) (parent : Option Iri) (members : Finset Iri) :
    replay c (notifyFrames resource .delete parent) members =
      (Change.removal resource parent).members c members := by
  have hown : replayFrame c members (resource, ⟨.delete, resource, none⟩) = members := by
    simp [replayFrame]
  cases parent with
  | none => simpa [replay, notifyFrames, Change.removal, Change.members] using hown
  | some container =>
    simp only [replay, notifyFrames, Change.removal, Change.members]
    simp [replayFrame, eq_comm]

/-! ## §2 Worlds before and after -/

/-- **What was sent tells the members** of every container. -/
def Tells (w w' : World) : Prop :=
  ∃ frames, w'.sent = w.sent ++ frames ∧ ∀ c, c.getLast? = some '/' →
    replay c frames (membersOf w c) = membersOf w' c

theorem Tells.refl (w : World) : Tells w w := ⟨[], by simp, fun _ _ => rfl⟩

theorem Tells.trans (h : Tells w w') (h' : Tells w' w'') : Tells w w'' := by
  obtain ⟨frames, hsent, hmembers⟩ := h
  obtain ⟨frames', hsent', hmembers'⟩ := h'
  refine ⟨frames ++ frames', by rw [hsent', hsent, List.append_assoc], fun c hc => ?_⟩
  rw [replay_append, hmembers c hc, hmembers' c hc]

/-- Neither the index nor what was sent has changed. -/
structure Still (w w' : World) : Prop where
  index : w'.backend.index = w.backend.index
  sent : w'.sent = w.sent

theorem Still.refl (w : World) : Still w w := ⟨rfl, rfl⟩

theorem Still.trans (h : Still w w') (h' : Still w' w'') : Still w w'' :=
  ⟨h'.index.trans h.index, h'.sent.trans h.sent⟩

theorem Still.membersOf (h : Still w w') (c : Iri) : membersOf w' c = membersOf w c := by
  rw [LdpState.membersOf, h.index]
  rfl

/-- The steps that change neither the index nor what was sent. -/
def Silent : StoreOp → Prop
  | .fanOut _ _ => False
  | o => Passive o

theorem Silent.of_reads {o : StoreOp} (h : Reads o) : Silent o := by
  cases o <;> trivial

theorem Silent.passive {o : StoreOp} (h : Silent o) : Passive o := by
  cases o <;> trivial

theorem still_step {o : StoreOp} (h : Silent o) (u : World) : Still u (World.sem u o).2 := by
  refine ⟨index_passive h.passive u, ?_⟩
  cases o with
  | blobPut key body =>
    simp only [World.sem]
    split <;> rfl
  | blobDelete key =>
    simp only [World.sem]
    split <;> rfl
  | fanOut _ _ | putMeta _ _ | createChild _ _ _ | removeChild _ _ | deleteMeta _
  | deleteMetaIfEmpty _ _ => exact h.elim
  | _ => rfl

variable {α : Type} {change : Change} {iri : Iri} {existed : Bool}

theorem still_of_uses {p : Server α} (hp : p.Uses (S := storeSig) Silent) :
    Spec p w fun _ w' => Still w w' :=
  hp.run_rel World.sem Still Still.refl Still.trans (fun u _ ho => still_step ho u) w

theorem still_reads {p : Server α} (hp : p.Uses (S := storeSig) Reads) :
    Spec p w fun _ w' => Still w w' :=
  still_of_uses (hp.mono fun _ => Silent.of_reads)

/-- The members have changed as said, and nothing was sent. -/
structure Alters (change : Change) (w w' : World) : Prop where
  sent : w'.sent = w.sent
  members : ∀ c, c.getLast? = some '/' → membersOf w' c = change.members c (membersOf w c)

theorem Still.alters (h : Still w w') : Alters .unchanged w w' :=
  ⟨h.sent, fun c _ => h.membersOf c⟩

theorem Alters.after_still (h : Still w w') (h' : Alters change w' w'') : Alters change w w'' :=
  ⟨h'.sent.trans h.sent, fun c hc => by rw [h'.members c hc, h.membersOf]⟩

theorem Alters.then_still (h : Alters change w w') (h' : Still w' w'') : Alters change w w'' :=
  ⟨h'.sent.trans h.sent, fun c hc => by rw [h'.membersOf, h.members c hc]⟩

/-- Sending the frames that tell a change. -/
theorem Alters.tells (h : Alters change w w') {frames : List (Iri × Frame)}
    (hframes : ∀ c members, replay c frames members = change.members c members)
    (hindex : w''.backend.index = w'.backend.index) (hsent : w''.sent = w'.sent ++ frames) :
    Tells w w'' := by
  refine ⟨frames, by rw [hsent, h.sent], fun c hc => ?_⟩
  rw [hframes, ← h.members c hc, membersOf, membersOf, hindex]

theorem Still.tells (h : Still w w') : Tells w w' :=
  ⟨[], by simp [h.sent], fun c _ => (h.membersOf c).symm⟩

/-! ## §3 Writes -/

/-- Membership changed as said, nothing was sent and no record went missing. -/
structure Enters (change : Change) (w w' : World) : Prop extends Alters change w w' where
  grows : Grows w.backend w'.backend

theorem Still.enters (h : Still w w') : Enters .unchanged w w' :=
  ⟨h.alters, fun _ hx => by rwa [h.index]⟩

/-- One change after another, and what they come to. -/
theorem Enters.trans {first second both : Change} (h : Enters first w w')
    (h' : Enters second w' w'')
    (hboth : ∀ c members, second.members c (first.members c members) = both.members c members) :
    Enters both w w'' where
  sent := h'.sent.trans h.sent
  members c hc := by rw [h'.members c hc, h.members c hc, hboth]
  grows x hx := h'.grows x (h.grows x hx)

theorem enters_putMeta (iri : Iri) (m : ResourceMeta) (u : World) :
    Enters .unchanged u (u.withIndex (u.backend.index.putMeta iri m)) where
  sent := rfl
  members _ _ := rfl
  grows x hx := by
    show ((u.backend.index.putMeta iri m).meta? x).isSome
    rw [Index.meta?_putMeta]
    split_ifs
    · rfl
    · exact hx

theorem enters_createChild (container child : Iri) (m : ResourceMeta) (u : World) :
    Enters (.added container child) u
      (u.withIndex ((u.backend.index.putMeta child m).addChild container child)) where
  sent := rfl
  members c _ := by
    ext x
    show x ∈ (((u.backend.index.putMeta child m).addChild container child).childrenOf c).toFinset ↔ _
    rw [List.mem_toFinset, Index.mem_childrenOf_addChild]
    by_cases heq : c = container
    · simp [Change.members, membersOf, heq, or_comm]
    · simp [Change.members, membersOf, heq]
  grows x hx := by
    show (((u.backend.index.putMeta child m).addChild container child).meta? x).isSome
    rw [meta?_created]
    split_ifs
    · rfl
    · exact hx

theorem enters_write (iri : Iri) (body : Bytes) (contentType : Text) (w : World) :
    Spec (write iri body contentType) w (Spec.OnOk fun _ w' => Enters .unchanged w w') := by
  refine Spec.onOk_bind (still_of_uses (uses_stage trivial (fun _ => trivial) trivial)) fun m v hv => ?_
  refine Spec.perform_bind ?_
  simp only [World.sem]
  cases v.faults.indexWrite iri with
  | some e => rintro a ⟨⟩
  | none => exact fun _ _ => hv.enters.trans (enters_putMeta iri m v) fun _ _ => rfl

theorem enters_createInContainer (container child : Iri) (body : Bytes) (contentType : Text)
    (w : World) :
    Spec (createInContainer container child body contentType) w
      (Spec.OnOk fun _ w' => Enters (.added container child) w w') := by
  refine Spec.onOk_bind (still_of_uses (uses_stage trivial (fun _ => trivial) trivial)) fun m v hv => ?_
  refine Spec.perform_bind ?_
  simp only [World.sem, Index.createChild]
  cases v.faults.indexWrite child with
  | some e => rintro a ⟨⟩
  | none =>
    cases v.backend.index.meta? container with
    | none => rintro a ⟨⟩
    | some n =>
      exact fun _ _ => hv.enters.trans (enters_createChild container child m v) fun _ _ => rfl

/-! ## §4 The way to a target -/

/-- The containers still to be made on a walk: none but the target itself. -/
def OnlyTarget (i : Index) (target : Iri) (walk : List (Iri × Iri)) : Prop :=
  ∀ q ∈ walk, (i.meta? q.2).isSome ∨ parentContainer target = some q.1 ∧ q.2 = target

theorem OnlyTarget.grown {walk : List (Iri × Iri)} (h : OnlyTarget w.backend.index iri walk)
    (hgrow : Grows w.backend w'.backend) :
    OnlyTarget w'.backend.index iri walk := by
  intro q hq
  rcases h q hq with hthere | hitself
  · exact .inl (hgrow _ hthere)
  · exact .inr hitself

/-- The walk changed nothing, or listed the target. -/
def Walked (iri : Iri) (w w' : World) : Prop :=
  Enters .unchanged w w' ∨
    ∃ parent, parentContainer iri = some parent ∧ Enters (.added parent iri) w w'

theorem Walked.grows (h : Walked iri w w') : Grows w.backend w'.backend := by
  rcases h with h | ⟨parent, -, h⟩
  · exact h.grows
  · exact h.grows

theorem Walked.then_added {parent : Iri} (h : Walked iri w w')
    (hparent : parentContainer iri = some parent) (h' : Enters (.added parent iri) w' w'') :
    Enters (.added parent iri) w w'' := by
  rcases h with h | ⟨parent', hparent', h⟩
  · exact h.trans h' fun _ _ => rfl
  · obtain rfl := Option.some.inj (hparent'.symm.trans hparent)
    -- adding a member twice is adding it once
    refine h.trans h' fun c members => ?_
    by_cases heq : c = parent' <;> simp [Change.members, heq]

theorem Walked.trans (h : Walked iri w w') (h' : Walked iri w' w'') : Walked iri w w'' := by
  rcases h' with h' | ⟨parent, hparent, h'⟩
  · rcases h with h | ⟨parent, hparent, h⟩
    · exact .inl (h.trans h' fun _ _ => rfl)
    · exact .inr ⟨parent, hparent, h.trans h' fun _ _ => rfl⟩
  · exact .inr ⟨parent, hparent, h.then_added hparent h'⟩

theorem Walked.refl (iri : Iri) (w : World) : Walked iri w w := .inl (Still.refl w).enters

theorem walked_createMissing {parent container : Iri}
    (h : (w.backend.index.meta? container).isSome ∨ parentContainer iri = some parent ∧ container = iri)
    :
    Spec (createMissing parent container) w (Spec.OnOk fun _ w' => Walked iri w w') := by
  refine Spec.exists_bind ?_ fun e a ha => by cases ha
  cases hex : (w.backend.index.meta? container).isSome with
  | true => exact fun _ _ => .refl iri w
  | false =>
    obtain ⟨hparent, rfl⟩ := h.resolve_left (by simp [hex])
    refine Spec.onOk_bind (enters_createInContainer parent container _ _ w) fun m w' hw' => ?_
    exact fun _ _ => .inr ⟨parent, hparent, hw' m rfl⟩

/-- **The ancestor loop** lists nothing but the target. -/
theorem walked_ensureLoop (segs : List Text) (pre : Text) {w : World}
    (h : OnlyTarget w.backend.index iri (ancestorSteps pre segs)) :
    Spec (ensureLoop segs pre (pre ++ ['/'])) w (Spec.OnOk fun _ w' => Walked iri w w') := by
  induction segs generalizing pre w with
  | nil => exact fun _ _ => .refl iri w
  | cons seg rest ih =>
    obtain ⟨hhead, hrest⟩ := List.forall_mem_cons.mp h
    refine spec_slashlessClash_bind (fun clash _ => ?_) fun e a ha => by cases ha
    cases clash with
    | true =>
      intro a ha
      cases ha
    | false =>
      refine Spec.onOk_bind (walked_createMissing hhead) fun _ v hv => ?_
      have hwalked := hv () rfl
      apply (ih (pre ++ ['/'] ++ seg) (OnlyTarget.grown hrest hwalked.grows)).mono
      intro r u hu a ha
      exact hwalked.trans (hu a ha)

theorem walked_ensureAncestorContainers (h : OnlyTarget w.backend.index iri (s.ancestorsOf iri)) :
    Spec (s.ensureAncestorContainers iri) w (Spec.OnOk fun _ w' => Walked iri w w') := by
  unfold ensureAncestorContainers
  simp only
  unfold ancestorsOf at h
  simp only at h
  cases hstrip : Text.stripPrefix? iri (Text.trimEndMatches s.baseUrl '/') with
  | none => exact fun _ _ => .refl iri w
  | some rest =>
    rw [hstrip] at h
    have hroot : Spec (ensureRoot (Text.trimEndMatches s.baseUrl '/' ++ ['/'])) w
        (Spec.OnOk fun _ w' => Enters .unchanged w w') := by
      refine Spec.exists_bind ?_ fun e a ha => by cases ha
      split_ifs
      · exact fun _ _ => (Still.refl w).enters
      · refine Spec.onOk_bind (enters_write _ _ _ w) fun m w' hw' => ?_
        exact fun _ _ => hw' m rfl
    refine Spec.onOk_bind hroot fun _ v hv => ?_
    have hentered := hv () rfl
    apply (walked_ensureLoop _ _ (OnlyTarget.grown h hentered.grows)).mono
    intro r u hu a ha
    exact Walked.trans (.inl hentered) (hu a ha)

/-! ## §5 Requests -/

/-- The parent a write announces. -/
def announcedParent (iri : Iri) (existed : Bool) : Option Iri :=
  if existed || isAclResource iri then none else parentContainer iri

/-- The change a write announces. -/
def announced (iri : Iri) (existed : Bool) : Change :=
  if existed then .unchanged else .creation iri (announcedParent iri false)

theorem enters_storeTarget {requester : Requester} {body : Bytes} {storedType : Text}
    (h : existed = false → isAclResource iri = false → OnlyTarget w.backend.index iri (s.ancestorsOf iri))
    :
    Spec (s.storeTarget iri requester existed body storedType) w
      (Spec.OnOk fun _ w' => Enters (announced iri existed) w w') := by
  unfold storeTarget
  cases existed with
  | true => exact enters_write _ _ _ w
  | false =>
    cases hacl : isAclResource iri with
    | true =>
      have : announced iri false = .unchanged := by
        simp [announced, announcedParent, hacl, Change.creation]
      rw [this]
      exact enters_write _ _ _ w
    | false =>
      have : announced iri false = .creation iri (parentContainer iri) := by
        simp [announced, announcedParent, hacl]
      rw [this]
      refine Spec.onOk_bind (still_reads (perused_onNearest _ _ _).reads) fun _ v hv => ?_
      refine Spec.onOk_bind (walked_ensureAncestorContainers (hv.index ▸ h rfl hacl)) ?_
      intro _ u hu
      have hwalked := hu () rfl
      cases hparent : parentContainer iri with
      | some parent =>
        apply (enters_createInContainer parent iri body storedType u).mono
        intro r x hx m hm
        exact hv.enters.trans (hwalked.then_added hparent (hx m hm)) fun _ _ => rfl
      | none =>
        have hunchanged : Enters .unchanged v u := by
          rcases hwalked with h | ⟨parent, hsome, -⟩
          · exact h
          · rw [hparent] at hsome
            cases hsome
        apply (enters_write iri body storedType u).mono
        intro r x hx m hm
        exact hv.enters.trans (hunchanged.trans (hx m hm) fun _ _ => rfl) fun _ _ => rfl

/-- A change, its notification, and what follows without a sound. -/
theorem tells_notify {resource : Iri} {activity : ActivityType} {parent : Option Iri}
    {rest : Server α} (h : Alters change w w')
    (hframes : ∀ c members, replay c (notifyFrames resource activity parent) members = change.members c members)
    (hrest : rest.Uses (S := storeSig) Silent) :
    Spec (notify resource activity parent >>= fun _ => rest) w' fun _ w'' => Tells w w'' := by
  show Tells w (exec _ w').2
  rw [exec_bind_ok (exec_notify_eq resource activity parent w')]
  have hstill := still_of_uses (w := { w' with sent := w'.sent ++ notifyFrames resource activity parent })
    hrest
  exact h.tells hframes hstill.index hstill.sent

theorem tells_finishWrite {m : ResourceMeta} (h : Alters (announced iri existed) w w') :
    Spec (finishWrite iri existed m) w' fun _ w'' => Tells w w'' := by
  refine tells_notify h (fun c members => ?_)
    (Program.Uses.bind (uses_invalidateAclIfAcl trivial) fun _ => trivial)
  cases existed with
  | true => exact replay_update c iri members
  | false => exact replay_create c iri _ members

/-- The common end of `PUT` and `PATCH`. -/
theorem tells_storeAndFinish {requester : Requester} {body : Bytes} {storedType : Text}
    (hw : Still w w') (hexisted : existed = (w.backend.index.meta? iri).isSome)
    (h : w.backend.index.meta? iri = none → isAclResource iri = false → OnlyTarget w.backend.index iri (s.ancestorsOf iri))
    :
    Spec (do
      let m ← s.storeTarget iri requester existed body storedType
      finishWrite iri existed m) w' (Spec.OnOk fun _ w'' => Tells w w'') := by
  have hway : existed = false → isAclResource iri = false →
      OnlyTarget w'.backend.index iri (s.ancestorsOf iri) := by
    intro hnew hacl
    rw [hw.index]
    exact h (by simpa [hnew] using hexisted.symm) hacl
  refine Spec.onOk_bind (enters_storeTarget hway) fun m v hv => ?_
  have hentered := (hv m rfl).toAlters.after_still hw
  exact (tells_finishWrite hentered).mono fun r u hu _ _ => hu

/-- **No container on the way**: the request does not write, or all that its walk makes is its
target. -/
def Direct (s : LdpState) (req : Request) (i : Index) : Prop :=
  req.method = .put ∨ req.method = .patch → ∀ target, parseTarget s.baseUrl req.path = .ok target →
    i.meta? target.iri = none → isAclResource target.iri = false →
    OnlyTarget i target.iri (s.ancestorsOf target.iri)

theorem tells_postToContainer (container : Iri) (hw : Still w w') :
    Spec (s.postToContainer container req) w' (Spec.OnOk fun _ w'' => Tells w w'') := by
  refine Spec.onOk_check_bind fun contentType _ => ?_
  refine Spec.onOk_check_bind fun _ _ => ?_
  have hmint : ∀ stem asContainer, (mintChildIri container stem asContainer).Uses (S := storeSig) Silent :=
    fun _ _ => uses_mintChildIri trivial trivial fun _ => trivial
  refine Spec.onOk_bind (still_of_uses (hmint _ _)) fun child v hv => ?_
  refine Spec.onOk_check_bind fun storedType _ => ?_
  refine Spec.onOk_bind (enters_createInContainer container child _ _ v) fun m u hu => ?_
  have hentered := (hu m rfl).toAlters.after_still (hw.trans hv)
  apply (tells_notify hentered (fun c members => ?_) (Program.Uses.pure _)).mono
  · intro r x hx _ _
    exact hx
  · exact replay_create c child (some container) members

theorem tells_postHandler : Spec (s.postHandler req) w (Spec.OnOk fun _ w' => Tells w w') := by
  refine Spec.onOk_check_bind fun target _ => ?_
  refine Spec.onOk_bind (still_reads (perused_authorizeMode _ _ _).reads) fun granted v hv => ?_
  cases target.isContainer with
  | false =>
    -- a request for a document is always refused
    refine Spec.onOk_check_bind fun _ _ => ?_
    refine Spec.exists_bind ?_ fun e a ha => by cases ha
    split_ifs
    · rintro a ⟨⟩
    · rintro a ⟨⟩
  | true =>
    exact Spec.onOk_bind (still_reads (perused_requireContainer _ _ _).reads)
      fun _ u hu => tells_postToContainer _ (hv.trans hu)

theorem members_removal {i : Index} {c : Iri} {parent : Option Iri} :
    ((afterUnlink i iri parent).childrenOf c).toFinset =
      (Change.removal iri parent).members c (i.childrenOf c).toFinset := by
  ext x
  rw [List.mem_toFinset, mem_childrenOf_afterUnlink]
  cases parent with
  | none => simp [Change.removal, Change.members]
  | some p =>
    by_cases heq : c = p
    · simp [Change.removal, Change.members, heq, and_comm]
    · simp [Change.removal, Change.members, heq, Ne.symm heq]

/-- Deleting a document takes it off its parent's list, and no container's list is dropped. -/
theorem alters_delete (parent : Option Iri) (hdoc : iri.getLast? ≠ some '/') (w : World) :
    Spec (Store.delete iri parent) w
      (Spec.OnOk fun _ w' => Alters (.removal iri parent) w w') := by
  have hkey : Spec (recordedKey iri) w fun _ w' => w' = w := by
    show (exec (recordedKey iri) w).2 = w
    rw [exec_recordedKey]
  refine Spec.onOk_bind hkey fun key v hv => ?_
  subst hv
  have hunlink : Spec (unlink iri parent) v (Spec.OnOk fun _ u =>
      u = v.withIndex (afterUnlink v.backend.index iri parent)) := by
    show Spec.OnOk _ (exec _ v).1 (exec _ v).2
    rcases exec_unlink iri parent v with ⟨e, he⟩ | hok
    · rw [he]
      intro a ha
      cases ha
    · rw [hok]
      exact fun _ _ => rfl
  refine Spec.onOk_bind hunlink fun _ u hu => ?_
  obtain rfl := hu () rfl
  refine Spec.perform_bind ?_
  simp only [World.sem]
  have halters : Alters (.removal iri parent) v
      ((v.withIndex (afterUnlink v.backend.index iri parent)).withIndex
        ((afterUnlink v.backend.index iri parent).deleteMeta iri)) := by
    refine ⟨rfl, fun c hc => ?_⟩
    show (((afterUnlink v.backend.index iri parent).deleteMeta iri).childrenOf c).toFinset = _
    rw [Index.childrenOf_deleteMeta, if_neg (by rintro rfl; exact hdoc hc), members_removal]
    rfl
  cases (v.withIndex (afterUnlink v.backend.index iri parent)).faults.indexWrite iri with
  | some e => rintro a ⟨⟩
  | none =>
    have hreap : (reap key).Uses (S := storeSig) Silent := by
      cases key with
      | none => trivial
      | some k => exact Program.Uses.bind (uses_perform trivial) fun r => uses_orBlobStorage r
    exact (still_of_uses hreap).mono fun r u hu _ _ => halters.then_still hu

theorem tells_deleteDocument (parent : Option Iri) (hdoc : iri.getLast? ≠ some '/')
    (hw : Still w w') :
    Spec (deleteDocument iri parent) w' (Spec.OnOk fun _ w'' => Tells w w'') := by
  refine Spec.onOk_bind (alters_delete parent hdoc w') fun _ v hv => ?_
  have halters := (hv () rfl).after_still hw
  refine Spec.onOk_bind (still_of_uses (uses_invalidateAclIfAcl trivial)) fun _ u hu => ?_
  apply (tells_notify (halters.then_still hu) (fun c members => ?_) (Program.Uses.pure _)).mono
  · intro r x hx _ _
    exact hx
  · exact replay_delete c iri parent members

theorem tells_deleteContainer (parent : Option Iri) (hw : Still w w') :
    Spec (deleteContainer iri parent) w' (Spec.OnOk fun _ w'' => Tells w w'') := by
  have hdelete : Spec (deleteContainerIfEmpty iri parent) w' (Spec.OnOk fun outcome u =>
      outcome = .deleted → Alters (.removal iri parent) w' u) := by
    refine Spec.perform_bind ?_
    simp only [World.sem]
    cases w'.faults.indexWrite iri with
    | some e => rintro a ⟨⟩
    | none =>
      rcases deleteMetaIfEmpty_cases w'.backend.index iri parent with ⟨o, hne, ho⟩ | ⟨hkids, hdel⟩
      · rw [ho]
        rintro a ⟨⟩ hdeleted
        exact absurd hdeleted hne
      · rw [hdel]
        rintro a ⟨⟩ -
        refine ⟨rfl, fun c _ => ?_⟩
        show ((afterUnlink (w'.backend.index.deleteMeta iri) iri parent).childrenOf c).toFinset = _
        -- the list that goes with the record was empty
        have hsame : (w'.backend.index.deleteMeta iri).childrenOf c =
            w'.backend.index.childrenOf c := by
          rw [Index.childrenOf_deleteMeta]
          split_ifs with heq
          · rw [heq, hkids]
          · rfl
        rw [members_removal, hsame]
        rfl
  refine Spec.onOk_bind hdelete fun outcome v hv => ?_
  cases outcome with
  | deleted =>
    have halters := (hv _ rfl rfl).after_still hw
    apply (tells_notify halters (fun c members => ?_) (Program.Uses.pure _)).mono
    · intro r x hx _ _
      exact hx
    · exact replay_delete c iri parent members
  | notEmpty | notFound => rintro a ⟨⟩

theorem tells_written (hmethod : req.method = .put ∨ req.method = .patch ∨ req.method = .delete)
    (h : Direct s req w.backend.index) :
    Spec (s.serve req) w (Spec.OnOk fun _ w' => Tells w w') := by
  rw [serve_eq_gate hmethod]
  refine Spec.onOk_bind (Program.Ensures.and (still_reads (perused_gate req).reads) spec_gate) ?_
  rintro g v ⟨hv, hg⟩
  refine Spec.onOk_check_bind fun _ _ => ?_
  cases hg g rfl with
  | put hm hparsed => exact tells_storeAndFinish hv rfl (h (.inl hm) _ hparsed)
  | patch hm hparsed _ _ _ hcurrent =>
    refine Spec.onOk_check_bind fun merged _ => ?_
    refine tells_storeAndFinish hv ?_ (h (.inr hm) _ hparsed)
    rw [← hcurrent, Option.isSome_map]
  | @delete target _ _ _ hparsed =>
    cases hcontainer : target.isContainer with
    | true => exact tells_deleteContainer _ hv
    | false => exact tells_deleteDocument _ (notContainer_getLast? hparsed hcontainer) hv

/-- **A successful request tells what it did.** -/
theorem tells_handle (h : Direct s req w.backend.index) (hok : (s.handle req w).1.status < 400) :
    Tells w (s.handle req w).2 := by
  have hserve : Spec (s.serve req) w (Spec.OnOk fun _ w' => Tells w w') := by
    by_cases hwrite : req.method = .put ∨ req.method = .patch ∨ req.method = .delete
    · exact tells_written hwrite h
    · unfold serve
      cases hmethod : req.method with
      | put | patch | delete => simp [hmethod] at hwrite
      | get => exact fun _ _ => (still_reads (perused_serveRead req true).reads : Still _ _).tells
      | head => exact fun _ _ => (still_reads (perused_serveRead req false).reads : Still _ _).tells
      | post => exact tells_postHandler
      | options => exact fun _ _ => .refl w
  cases hrun : (exec (s.serve req) w).1 with
  | ok response => exact hserve response hrun
  | error e =>
    have hstatus := status_of_failed hrun
    have : (s.handle req w).1.status = e.status := by
      show (respond (exec (s.serve req) w).1).status = _
      rw [hrun]
      exact status_intoResponse e
    omega

/-! ## §6 Runs -/

/-- A run of successful requests, none of which makes a container on the way. -/
def Smooth (s : LdpState) : List Request → World → Prop
  | [], _ => True
  | req :: rest, w =>
    (s.handle req w).1.status < 400 ∧ Direct s req w.backend.index ∧
      Smooth s rest (s.handle req w).2

theorem Smooth.of_append {past rest : List Request} (h : Smooth s (past ++ rest) w) :
    Smooth s past w := by
  induction past generalizing w with
  | nil => trivial
  | cons req past ih => exact ⟨h.1, h.2.1, ih h.2.2⟩

theorem tells_run {reqs : List Request} (h : Smooth s reqs w) : Tells w (s.run reqs w) := by
  induction reqs generalizing w with
  | nil => exact .refl w
  | cons req rest ih => exact (tells_handle h.2.1 h.1).trans (ih h.2.2)

/-- **Notifications reproduce membership**: after every request of a run of successful requests
that make no container on the way, replaying what was sent on the members a container had gives
the members it has. -/
theorem notifications_reproduce (s : LdpState) (w₀ : World) (reqs : List Request)
    (hsmooth : Smooth s reqs w₀) (past rest : List Request) (hreqs : reqs = past ++ rest)
    (container : Iri) (hcontainer : container.getLast? = some '/') :
    ∃ frames, (s.run past w₀).sent = w₀.sent ++ frames ∧
      replay container frames (membersOf w₀ container) = membersOf (s.run past w₀) container := by
  subst hreqs
  obtain ⟨frames, hsent, hmembers⟩ := tells_run hsmooth.of_append
  exact ⟨frames, hsent, hmembers container hcontainer⟩

theorem smooth_put_delete : Smooth sampleState [samplePut "/d", sampleDelete "/d"] openWorld := by
  refine ⟨by decide, ?_, by decide, ?_, trivial⟩
  · intro _ target hparsed _ _
    have hnone : (parseTarget sampleState.baseUrl (samplePut "/d").path).toOption.map
        (fun t => sampleState.ancestorsOf t.iri) = some [] := by decide
    rw [hparsed] at hnone
    have hnil : sampleState.ancestorsOf target.iri = [] := Option.some.inj hnone
    intro q hq
    rw [hnil] at hq
    cases hq
  · rintro (hmethod | hmethod)
    · cases hmethod
    · cases hmethod

/-- A document comes and goes, and the root's watcher sees both. -/
theorem notifications_reproduce_put_delete :
    ∃ frames, (sampleState.run [samplePut "/d", sampleDelete "/d"] openWorld).sent =
      openWorld.sent ++ frames ∧
      replay samplePod frames (membersOf openWorld samplePod) =
        membersOf (sampleState.run [samplePut "/d", sampleDelete "/d"] openWorld) samplePod :=
  notifications_reproduce sampleState openWorld _ smooth_put_delete _ [] (List.append_nil _).symm
    samplePod (by decide)

/-- **An unannounced container**: a successful `PUT` of `/a/b` adds `/a/` to the root's members,
and nothing sent to the root's topic says so. -/
theorem unannounced_container :
    (sampleState.handle (samplePut "/a/b") openWorld).1.status = 201 ∧
    ¬ ∃ frames, (sampleState.run [samplePut "/a/b"] openWorld).sent = openWorld.sent ++ frames ∧
      replay samplePod frames (membersOf openWorld samplePod) =
        membersOf (sampleState.run [samplePut "/a/b"] openWorld) samplePod := by
  refine ⟨by decide, ?_⟩
  rintro ⟨frames, hsent, hmembers⟩
  have hnone : openWorld.sent = [] := by decide
  rw [hnone, List.nil_append] at hsent
  rw [← hsent] at hmembers
  revert hmembers
  decide

end SolidServer.Ldp.LdpState
