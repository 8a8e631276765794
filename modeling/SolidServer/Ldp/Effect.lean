import SolidServer.Ldp.Blocks

/-!
# What a request does to the store

A request reads and authorises, and then performs a few updates of the store.  `Step`
lists every update a handler can make, each with the grants of the requester that were
checked for it, and `spec_serve` says that a whole request is a sequence of such steps
from the backend it found.  Faults of the backends are allowed everywhere: they only cut
the sequence short.

What a request may change and which containers it may touch are then case analyses over
`Step`.
-/

namespace SolidServer.Ldp.LdpState

open SolidServer.Effects SolidServer.Store SolidServer.Authz

variable {s : LdpState} {w : World}

/-! ## §1 Authorization -/

/-- The mode checked on a target: anything on an ACL needs `Control`. -/
def requiredMode (target : Iri) (mode : AccessMode) : AccessMode :=
  if isAclResource target then .control else mode

theorem authorizePlannedIri_eq (target : Iri) (mode : AccessMode) (requester : Requester) :
    s.authorizePlannedIri target mode requester = (do
      let resolved ← plannedResolution s.wac (aclFor (protectedResource target)) target
      pure (WacAuthorizer.decisionFor resolved mode requester)) := by
  simp only [plannedResolution, bind_assoc]
  rfl

/-- A decision, if one is taken, is the one the stored ACLs give. -/
theorem spec_authorizePlannedIri (hs : Sound s.wac w) (target : Iri) (mode : AccessMode)
    (requester : Requester) :
    Spec (s.authorizePlannedIri target mode requester) w fun r w' => Calm s.wac w r w' ∧
      ∀ d, r = .ok d →
        d = WacAuthorizer.decisionFor (targetAcl s.wac w.backend target) mode requester := by
  rw [authorizePlannedIri_eq]
  refine Spec.bind (spec_result ((perused_plannedResolution _ _).calm rfl hs)) ?_ ?_
  · rintro resolved w' ⟨hcalm, hr⟩
    refine ⟨hcalm, ?_⟩
    rintro _ ⟨⟩
    rw [plannedResolution_sound hs hr.symm]
  · rintro e w' ⟨hcalm, -⟩
    exact ⟨hcalm, by rintro _ ⟨⟩⟩

/-- A decision that allows is a grant, and carries all modes granted. -/
theorem granted_of_allow {b : Backend} {target : Iri} {mode : AccessMode} {requester : Requester}
    {modes : Finset AccessMode}
    (h : WacAuthorizer.decisionFor (targetAcl s.wac b target) mode requester = .allow modes) :
    Granted s.wac b target requester mode ∧ modes = grantedOn s.wac b target requester := by
  cases hsat : satisfies ((targetAcl s.wac b target).modesFor requester) mode with
  | true =>
    rw [decisionFor_of_satisfies hsat] at h
    exact ⟨hsat, (Decision.allow.inj h).symm⟩
  | false =>
    rw [decisionFor_of_not_satisfies hsat] at h
    exact absurd h (denial_ne_allow requester modes)

/-- **Authorizing an operation** answers only if its mode is granted, with all modes granted. -/
theorem spec_authorizeMode (hs : Sound s.wac w) (target : Iri) (mode : AccessMode)
    (requester : Requester) :
    Spec (s.authorizeMode target mode requester) w fun r w' => Calm s.wac w r w' ∧
      ∀ modes, r = .ok modes →
        Granted s.wac w.backend target requester (requiredMode target mode) ∧
          modes = grantedOn s.wac w.backend target requester := by
  refine ((perused_authorizeMode _ _ _).calm rfl hs).and (Spec.onOk_bind
    (spec_authorizePlannedIri hs target (requiredMode target mode) requester) ?_)
  rintro d w' ⟨-, hd⟩
  cases d with
  | allow modes =>
    rintro _ ⟨⟩
    exact granted_of_allow (hd _ rfl).symm
  | unauthenticated | forbidden => rintro _ ⟨⟩

theorem spec_authorizeIri (hs : Sound s.wac w) (target : Iri) (mode : AccessMode)
    (requester : Requester) :
    Spec (s.authorizeIri target mode requester) w
      (Spec.OnOk fun _ _ => Granted s.wac w.backend target requester mode) := by
  refine Spec.onOk_bind (spec_authorizePlannedIri hs target mode requester) ?_
  rintro d w' ⟨-, hd⟩
  cases d with
  | allow modes => exact fun _ _ => (granted_of_allow (hd _ rfl).symm).1
  | unauthenticated | forbidden => rintro _ ⟨⟩

/-! ## §2 Containers on the way to a target -/

/-- The container `nearest_existing_container` finds, as a function of the index. -/
def nearestIn (i : Index) (root : Iri) : Nat → Text → Option Iri
  | 0, _ => none
  | fuel + 1, current =>
    match Text.throughLast current '/' with
    | none => none
    | some parent =>
      if (i.meta? parent).isSome then some parent
      else if parent = root ∨ Text.len parent ≤ Text.len root then none
      else nearestIn i root fuel parent.dropLast

/-- The nearest container of a target that is stored. -/
def nearestContainer (s : LdpState) (b : Backend) (target : Iri) : Option Iri :=
  let current := if Text.endsWith target ['/'] then target.dropLast else target
  nearestIn b.index (storageRoot s.baseUrl) (current.length + 1) current

theorem spec_nearestLoop (root : Iri) (fuel : Nat) (current : Text) :
    Spec (nearestLoop root fuel current) w
      (Spec.OnOk fun c w' => w' = w ∧ c = nearestIn w.backend.index root fuel current) := by
  have hanswer : ∀ c : Option Iri, Spec (pure c) w (Spec.OnOk fun c' w' => w' = w ∧ c' = c) := by
    rintro c _ ⟨⟩
    exact ⟨rfl, rfl⟩
  induction fuel generalizing current with
  | zero => exact hanswer none
  | succ fuel ih =>
    unfold nearestLoop nearestIn
    cases Text.throughLast current '/' with
    | none => exact hanswer none
    | some parent =>
      refine Spec.exists_bind ?_ fun e => by rintro _ ⟨⟩
      simp only
      split_ifs
      · exact hanswer (some parent)
      · exact hanswer none
      · exact ih parent.dropLast

/-- The requester holds a mode on the nearest stored container, if there is one. -/
def HoldsOnNearest (s : LdpState) (b : Backend) (target : Iri) (requester : Requester)
    (mode : AccessMode) : Prop :=
  ∀ c, s.nearestContainer b target = some c → Granted s.wac b c requester mode

/-- The check both membership changes make, with their own modes. -/
theorem spec_authorizeOnNearest (hs : Sound s.wac w) (target : Iri) (mode : AccessMode)
    (requester : Requester) :
    Spec (if isAclResource target then pure ()
      else do
        match ← s.nearestExistingContainer target with
        | some c => s.authorizeIri c mode requester
        | none => pure ()) w fun r w' => Calm s.wac w r w' ∧
      (r = .ok () → isAclResource target = false →
        s.HoldsOnNearest w.backend target requester mode) := by
  refine ⟨(perused_onNearest _ _ _).calm rfl hs, fun hok hacl => ?_⟩
  suffices hspec : Spec _ w (Spec.OnOk fun _ _ => s.HoldsOnNearest w.backend target requester mode)
    from hspec () hok
  rw [if_neg (by simp [hacl])]
  refine Spec.onOk_bind (spec_nearestLoop _ _ _) fun c w' hc => ?_
  obtain ⟨rfl, hnear⟩ := hc c rfl
  cases c with
  | none =>
    rintro _ ⟨⟩ c hsome
    cases hnear.trans hsome
  | some c =>
    refine (spec_authorizeIri hs c mode requester).mono fun r _ hgrant u hu c' hsome => ?_
    cases hnear.trans hsome
    exact hgrant u hu

/-- The containers `ensure_ancestor_containers` walks through, outermost first, each with the
one it is created in. -/
def ancestorSteps : Text → List Text → List (Iri × Iri)
  | _, [] => []
  | pre, seg :: rest =>
    (pre ++ ['/'], pre ++ ['/'] ++ seg ++ ['/']) :: ancestorSteps (pre ++ ['/'] ++ seg) rest

def ancestorsOf (s : LdpState) (iri : Iri) : List (Iri × Iri) :=
  let base := Text.trimEndMatches s.baseUrl '/'
  match Text.stripPrefix? iri base with
  | none => []
  | some rest => ancestorSteps base ((Text.trimStartMatches rest '/').splitOn '/').dropLast

theorem ancestorsOf_eq (s : LdpState) (iri : Iri) :
    s.ancestorsOf iri = ((Text.stripPrefix? iri (Text.trimEndMatches s.baseUrl '/')).elim []
      fun rest => ancestorSteps (Text.trimEndMatches s.baseUrl '/')
        ((Text.trimStartMatches rest '/').splitOn '/').dropLast) := by
  simp only [ancestorsOf]
  cases Text.stripPrefix? iri (Text.trimEndMatches s.baseUrl '/') <;> rfl

theorem getLast?_of_mem_ancestorSteps {pre : Text} {segs : List Text} {p : Iri × Iri}
    (h : p ∈ ancestorSteps pre segs) : p.2.getLast? = some '/' := by
  induction segs generalizing pre with
  | nil => cases h
  | cons seg rest ih =>
    rcases List.mem_cons.mp h with rfl | hrest
    · exact List.getLast?_concat
    · exact ih hrest

variable {iri : Iri}

theorem getLast?_of_mem_ancestorsOf {p : Iri × Iri} (h : p ∈ s.ancestorsOf iri) :
    p.2.getLast? = some '/' := by
  unfold ancestorsOf at h
  simp only at h
  split at h
  · cases h
  · exact getLast?_of_mem_ancestorSteps h

/-- An ACL's name ends in the last letter of its suffix. -/
theorem getLast?_of_acl (h : isAclResource iri = true) : iri.getLast? = some 'l' := by
  obtain ⟨pre, rfl⟩ := Text.endsWith_iff.mp h
  simp [aclSuffix]

/-- A container is not an ACL. -/
theorem not_acl_of_getLast? (h : iri.getLast? = some '/') :
    isAclResource iri = false := by
  rw [Bool.eq_false_iff]
  intro hacl
  rw [getLast?_of_acl hacl] at h
  exact absurd h (by decide)

/-! ## §3 The steps of a request -/

/-- The mode the operation of a request needs on its target. -/
def neededMode (s : LdpState) (req : Request) (target : LdpTarget) : Option AccessMode :=
  match req.method with
  | .put => some (requiredMode target.iri .write)
  | .patch => (s.parsePatch req target.iri).toOption.map fun p =>
      requiredMode target.iri (patchMode p)
  | .delete => some (deleteMode target)
  | _ => none

/-- The requester was granted, on the target's effective ACL, what the operation needs. -/
structure Permitted (s : LdpState) (req : Request) (b : Backend) (target : LdpTarget) : Prop where
  parsed : parseTarget s.baseUrl req.path = .ok target
  granted : ∃ mode, s.neededMode req target = some mode ∧
    Granted s.wac b target.iri req.requester mode

/-- A target is about to be created: it is new, it is not an ACL, and the requester may append
to the nearest container. -/
structure Creating (s : LdpState) (req : Request) (b : Backend) (target : LdpTarget) : Prop
    extends Permitted s req b target where
  absent : b.index.meta? target.iri = none
  notAcl : isAclResource target.iri = false
  append : s.HoldsOnNearest b target.iri req.requester .append

/-- A target is about to be removed; an ACL has no parent to be removed from. -/
structure Removing (s : LdpState) (req : Request) (b : Backend) (target : LdpTarget) : Prop
    extends Permitted s req b target where
  present : (b.index.meta? target.iri).isSome
  write : isAclResource target.iri = false →
    s.HoldsOnNearest b target.iri req.requester .write

/-- The container a removed target is taken out of. -/
def removalParent (target : LdpTarget) : Option Iri :=
  if isAclResource target.iri then none else parentContainer target.iri

/-- The names `POST` gives to new children of a container: one segment under it. -/
def Minted (container child : Iri) : Prop :=
  ∃ stem seed n attempt asContainer, '/' ∉ stem ∧ child =
    childCandidate (Text.trimEndMatches container '/') stem seed n attempt asContainer

/-- **One update of the store by a request** that started on the backend `b₀`; `child` is the
name minted for a `POST`. -/
inductive Step (s : LdpState) (req : Request) (b₀ : Backend) (child : Iri) : Backend → Backend → Prop
  /-- No record and nothing of the index changes: bytes staged for a write that then failed. -/
  | idle {b b' : Backend} (h : Rewrites noRecord b.index b b') : Step s req b₀ child b b'
  /-- `PUT` and `PATCH` of an existing resource or of an ACL. -/
  | overwrite {b b' : Backend} {target : LdpTarget} {m : ResourceMeta}
      (hp : Permitted s req b₀ target)
      (hplace : (b.index.meta? target.iri).isSome ∨ isAclResource target.iri = true)
      (h : Rewrites (· = target.iri) (b.index.putMeta target.iri m) b b') : Step s req b₀ child b b'
  /-- The storage root itself, written when it is missing. -/
  | root {b b' : Backend} {target : LdpTarget} {m : ResourceMeta} (hc : Creating s req b₀ target)
      (habsent : b₀.index.meta? (storageRoot s.baseUrl) = none)
      (h : Rewrites (· = storageRoot s.baseUrl) (b.index.putMeta (storageRoot s.baseUrl) m) b b') :
      Step s req b₀ child b b'
  /-- A missing container on the way to the target. -/
  | ancestor {b b' : Backend} {target : LdpTarget} {parent container : Iri} {m : ResourceMeta}
      (hc : Creating s req b₀ target) (hway : (parent, container) ∈ s.ancestorsOf target.iri)
      (habsent : b₀.index.meta? container = none)
      (hslash : b.index.meta? container.dropLast = none)
      (hparent : (b.index.meta? parent).isSome)
      (h : Rewrites (· = container) ((b.index.putMeta container m).addChild parent container) b b') :
      Step s req b₀ child b b'
  /-- The target, created in its container after all containers on the way are there. -/
  | settle {b b' : Backend} {target : LdpTarget} {parent : Iri} {m : ResourceMeta}
      (hc : Creating s req b₀ target) (hparent : parentContainer target.iri = some parent)
      (hexists : (b.index.meta? parent).isSome)
      (hway : ∀ p ∈ s.ancestorsOf target.iri, (b.index.meta? p.2).isSome)
      (h : Rewrites (· = target.iri) ((b.index.putMeta target.iri m).addChild parent target.iri)
        b b') : Step s req b₀ child b b'
  /-- A target without a container of its own. -/
  | orphan {b b' : Backend} {target : LdpTarget} {m : ResourceMeta} (hc : Creating s req b₀ target)
      (hparent : parentContainer target.iri = none)
      (h : Rewrites (· = target.iri) (b.index.putMeta target.iri m) b b') : Step s req b₀ child b b'
  /-- `POST`: a fresh child of the target. -/
  | mint {b b' : Backend} {container : LdpTarget} {m : ResourceMeta} (hmethod : req.method = .post)
      (hparsed : parseTarget s.baseUrl req.path = .ok container)
      (hcontainer : container.isContainer = true)
      (hgranted : Granted s.wac b₀ container.iri req.requester .append)
      (hminted : Minted container.iri child) (habsent : b₀.index.meta? child = none)
      (hexists : (b.index.meta? container.iri).isSome)
      (h : Rewrites (· = child) ((b.index.putMeta child m).addChild container.iri child) b b') :
      Step s req b₀ child b b'
  /-- The first half of the removal of a document: its container's edge. -/
  | unlink {b b' : Backend} {target : LdpTarget} (hr : Removing s req b₀ target)
      (hdoc : target.isContainer = false)
      (h : Rewrites noRecord (afterUnlink b.index target.iri (removalParent target)) b b') :
      Step s req b₀ child b b'
  /-- The removal of a document, with the edge. -/
  | remove {b b' : Backend} {target : LdpTarget} (hr : Removing s req b₀ target)
      (hdoc : target.isContainer = false)
      (h : Rewrites (· = target.iri)
        ((afterUnlink b.index target.iri (removalParent target)).deleteMeta target.iri) b b') :
      Step s req b₀ child b b'
  /-- The removal of an empty container. -/
  | removeContainer {b b' : Backend} {target : LdpTarget} (hr : Removing s req b₀ target)
      (hcontainer : target.isContainer = true) (hempty : b.index.childrenOf target.iri = [])
      (h : Rewrites (· = target.iri)
        (afterUnlink (b.index.deleteMeta target.iri) target.iri (removalParent target)) b b') :
      Step s req b₀ child b b'

/-- Where a request that started on `b₀` can be: a sound world, some steps further on. -/
structure Reached (s : LdpState) (req : Request) (b₀ : Backend) (child : Iri) (w : World) : Prop where
  sound : Sound s.wac w
  steps : Relation.ReflTransGen (Step s req b₀ child) b₀ w.backend

/-- The result of a request, or of the rest of one. -/
def Reaches (s : LdpState) (req : Request) (b₀ : Backend) {α : Type} :
    Except ServerError α → World → Prop :=
  fun _ w => ∃ child, Reached s req b₀ child w

section
variable {req : Request} {b₀ : Backend} {child : Iri} {α β : Type}

theorem Reached.start (hs : Sound s.wac w) (hb : w.backend = b₀) : Reached s req b₀ child w :=
  ⟨hs, hb ▸ .refl⟩

variable {w' : World} {container : Iri}

theorem Reached.quiet (h : Reached s req b₀ child w) (hs : Sound s.wac w')
    (hb : w'.backend = w.backend) : Reached s req b₀ child w' :=
  ⟨hs, hb ▸ h.steps⟩

theorem Reached.step (h : Reached s req b₀ child w) (hs : Sound s.wac w')
    (hstep : Step s req b₀ child w.backend w'.backend) : Reached s req b₀ child w' :=
  ⟨hs, h.steps.tail hstep⟩

theorem reaches_start (hs : Sound s.wac w) (hb : w.backend = b₀) (r : Except ServerError α) :
    Reaches s req b₀ r w :=
  ⟨[], .start hs hb⟩

/-- Before the first update: a reading step, with what it answers. -/
theorem reaches_bind {p : Server α} {f : α → Server β} (hp : Perused s.wac p)
    (hs : Sound s.wac w) (hb : w.backend = b₀)
    (hf : ∀ a w', Sound s.wac w' → w'.backend = b₀ → (exec p w).1 = .ok a →
      Spec (f a) w' (Reaches s req b₀)) : Spec (p >>= f) w (Reaches s req b₀) := by
  refine Spec.bind (spec_result (hp.calm rfl hs)) ?_ ?_
  · rintro a w' ⟨⟨hs, hq⟩, ha⟩
    exact hf a w' hs (hq.backend.trans hb) ha.symm
  · rintro e w' ⟨⟨hs, hq⟩, -⟩
    exact reaches_start hs (hq.backend.trans hb) _

theorem reaches_check_bind {r : Except ServerError α} {f : α → Server β} (hs : Sound s.wac w)
    (hb : w.backend = b₀) (hf : ∀ a, r = .ok a → Spec (f a) w (Reaches s req b₀)) :
    Spec (check r >>= f) w (Reaches s req b₀) :=
  Spec.check_bind hf fun _ _ => reaches_start hs hb _

theorem reaches_perused {p : Server α} (hp : Perused s.wac p) (hs : Sound s.wac w)
    (hb : w.backend = b₀) : Spec p w (Reaches s req b₀) :=
  (hp.calm rfl hs).mono fun _ _ h => reaches_start h.1 (h.2.backend.trans hb) _

/-! ## §4 Creating a target -/

/-- No record went missing. -/
def Grows (b b' : Backend) : Prop :=
  ∀ iri, (b.index.meta? iri).isSome → (b'.index.meta? iri).isSome

theorem Grows.absent {b b' : Backend} (h : Grows b b') {iri : Iri}
    (habsent : (b'.index.meta? iri).isSome = false) : b.index.meta? iri = none := by
  cases hm : b.index.meta? iri with
  | none => rfl
  | some m =>
    have := h iri (by rw [hm]; rfl)
    rw [habsent] at this
    cases this

theorem grows_putMeta {b b' : Backend} {i : Index} {iri : Iri} {m : ResourceMeta}
    (hi : ∀ j, i.meta? j = if j = iri then some m else b.index.meta? j)
    {P : Iri → Prop} (h : Rewrites P i b b') :
    Grows b b' ∧ (b'.index.meta? iri).isSome := by
  rw [Grows, h.index]
  refine ⟨fun j hj => ?_, ?_⟩
  · rw [hi]
    split_ifs
    · rfl
    · exact hj
  · rw [hi, if_pos rfl]
    rfl

theorem meta?_created (i : Index) (parent iri : Iri) (m : ResourceMeta) (j : Iri) :
    ((i.putMeta iri m).addChild parent iri).meta? j = if j = iri then some m else i.meta? j := by
  rw [Index.meta?_addChild, Index.meta?_putMeta]

/-- A creation in progress: on the way from `b₀`, nothing has gone missing. -/
structure Growing (s : LdpState) (req : Request) (b₀ : Backend) (child : Iri) (w : World) : Prop
    extends Reached s req b₀ child w where
  grown : Grows b₀ w.backend

theorem Growing.step (h : Growing s req b₀ child w) (hs : Sound s.wac w')
    (hstep : Step s req b₀ child w.backend w'.backend) (hgrow : Grows w.backend w'.backend) :
    Growing s req b₀ child w' :=
  ⟨h.toReached.step hs hstep, fun iri hiri => hgrow iri (h.grown iri hiri)⟩

/-- A failed write is an idle step. -/
theorem Growing.failed {w' : World} (h : Growing s req b₀ child w) (hc : Consistent w')
    (hw : Wrote noRecord w.backend.index w w') :
    Growing s req b₀ child w' ∧ Grows w.backend w'.backend := by
  have hgrow : Grows w.backend w'.backend := by
    rw [Grows, hw.rewrites.index]
    exact fun _ hiri => hiri
  exact ⟨h.step (h.sound.wrote hc hw fun _ hp => hp.elim) (.idle hw.rewrites) hgrow, hgrow⟩

variable {target : LdpTarget}

theorem spec_createMissing (hc : Creating s req b₀ target) {parent : Iri}
    (hway : (parent, container) ∈ s.ancestorsOf target.iri) (h : Growing s req b₀ child w)
    (hslash : (w.backend.index.meta? container).isSome = false → w.backend.index.meta? container.dropLast = none)
    :
    Spec (createMissing parent container) w fun r w' =>
      Growing s req b₀ child w' ∧ Grows w.backend w'.backend ∧
        (r = .ok () → (w'.backend.index.meta? container).isSome) := by
  refine Spec.exists_bind ?_ fun e => ⟨h, fun _ hx => hx, by rintro ⟨⟩⟩
  cases hex : (w.backend.index.meta? container).isSome with
  | true => exact ⟨h, fun _ hx => hx, fun _ => hex⟩
  | false =>
    refine Spec.bind (spec_createInContainer h.sound.toConsistent _ _ _ _) ?_ ?_
    · rintro m w' ⟨hcons, hw, -, hparent⟩
      obtain ⟨hgrow, hthere⟩ := grows_putMeta (meta?_created _ _ _ m) hw.rewrites
      have hnotAcl := not_acl_of_getLast? (getLast?_of_mem_ancestorsOf hway)
      have hs : Sound s.wac w' := by
        refine h.sound.wrote hcons hw ?_
        rintro _ rfl
        exact hnotAcl
      exact ⟨h.step hs (.ancestor hc hway (h.grown.absent hex) (hslash hex) hparent hw.rewrites)
        hgrow, hgrow, fun _ => hthere⟩
    · rintro e w' ⟨hcons, hw⟩
      obtain ⟨hg, hgrow⟩ := h.failed hcons hw
      exact ⟨hg, hgrow, by rintro ⟨⟩⟩

/-- The clash check passed: a plain resource there means that the container is there too. -/
theorem spec_slashlessClash_bind {slashless : Iri} {f : Bool → Server β}
    {Q : Except ServerError β → World → Prop}
    (hok : ∀ clash, (clash = false → (w.backend.index.meta? slashless).isSome → (w.backend.index.meta? container).isSome) → Spec (f clash) w Q)
    (herr : ∀ e, Q (.error e) w) : Spec (slashlessClash slashless container >>= f) w Q := by
  unfold slashlessClash
  rw [bind_assoc]
  refine Spec.exists_bind ?_ herr
  cases hsl : (w.backend.index.meta? slashless).isSome with
  | false =>
    refine hok false fun _ h => ?_
    rw [hsl] at h
    cases h
  | true =>
    simp only [if_true, bind_assoc]
    refine Spec.exists_bind (hok _ fun h _ => ?_) herr
    simpa using h

/-- **The ancestor loop** creates what is missing, and after it everything on the way is there. -/
theorem spec_ensureLoop (hc : Creating s req b₀ target) (segs : List Text) (pre : Text)
    (hway : ∀ p ∈ ancestorSteps pre segs, p ∈ s.ancestorsOf target.iri)
    {w : World} (h : Growing s req b₀ child w) :
    Spec (ensureLoop segs pre (pre ++ ['/'])) w fun r w' =>
      Growing s req b₀ child w' ∧ Grows w.backend w'.backend ∧
        (r = .ok () → ∀ p ∈ ancestorSteps pre segs, (w'.backend.index.meta? p.2).isSome) := by
  induction segs generalizing pre w with
  | nil => exact ⟨h, fun _ hx => hx, fun _ p hp => by cases hp⟩
  | cons seg rest ih =>
    obtain ⟨hhead, hrest⟩ := List.forall_mem_cons.mp hway
    refine spec_slashlessClash_bind (fun clash hclash => ?_)
      fun e => ⟨h, fun _ hx => hx, by rintro ⟨⟩⟩
    cases clash with
    | true => exact ⟨h, fun _ hx => hx, by rintro ⟨⟩⟩
    | false =>
      have hslash : (w.backend.index.meta? (pre ++ ['/'] ++ seg ++ ['/'])).isSome = false →
          w.backend.index.meta? (pre ++ ['/'] ++ seg ++ ['/']).dropLast = none := by
        intro habsent
        rw [List.dropLast_concat]
        cases hm : w.backend.index.meta? (pre ++ ['/'] ++ seg) with
        | none => rfl
        | some m =>
          have := hclash rfl (by rw [hm]; rfl)
          rw [habsent] at this
          cases this
      refine Spec.bind (spec_createMissing hc hhead h hslash) ?_ ?_
      · rintro ⟨⟩ v ⟨hv, hgrow, hthere⟩
        refine (ih (pre ++ ['/'] ++ seg) hrest hv).mono ?_
        rintro r u ⟨hu, hgrow', hall⟩
        refine ⟨hu, fun x hx => hgrow' x (hgrow x hx), fun hr => ?_⟩
        exact List.forall_mem_cons.mpr ⟨hgrow' _ (hthere rfl), hall hr⟩
      · rintro e v ⟨hv, hgrow, -⟩
        exact ⟨hv, hgrow, by rintro ⟨⟩⟩

theorem spec_ensureRoot (hc : Creating s req b₀ target) (h : Growing s req b₀ child w) :
    Spec (ensureRoot (storageRoot s.baseUrl)) w fun _ w' => Growing s req b₀ child w' := by
  refine Spec.exists_bind ?_ fun e => h
  cases hex : (w.backend.index.meta? (storageRoot s.baseUrl)).isSome with
  | true => exact h
  | false =>
    refine Spec.bind (spec_write h.sound.toConsistent _ _ _) ?_ ?_
    · rintro m w' ⟨hcons, hw, -⟩
      have hs : Sound s.wac w' := by
        refine h.sound.wrote hcons hw ?_
        rintro _ rfl
        exact not_acl_of_getLast? (storageRoot_getLast? _)
      exact h.step hs (.root hc (h.grown.absent hex) hw.rewrites)
        (grows_putMeta (fun j => Index.meta?_putMeta _ _ _ j) hw.rewrites).1
    · rintro e w' ⟨hcons, hw⟩
      exact (h.failed hcons hw).1

theorem spec_ensureAncestorContainers (hc : Creating s req b₀ target)
    (h : Growing s req b₀ child w) :
    Spec (s.ensureAncestorContainers target.iri) w fun r w' =>
      Growing s req b₀ child w' ∧
        (r = .ok () → ∀ p ∈ s.ancestorsOf target.iri, (w'.backend.index.meta? p.2).isSome) := by
  unfold ensureAncestorContainers
  dsimp only
  have hway := ancestorsOf_eq s target.iri
  cases hstrip : Text.stripPrefix? target.iri (Text.trimEndMatches s.baseUrl '/') with
  | none =>
    rw [hstrip] at hway
    exact ⟨h, fun _ p hp => by rw [hway] at hp; cases hp⟩
  | some rest =>
    rw [hstrip] at hway
    refine Spec.bind (spec_ensureRoot hc h) ?_ fun e w' hw' => ⟨hw', by rintro ⟨⟩⟩
    intro _ w' hw'
    rw [hway]
    refine (spec_ensureLoop hc _ _ (fun p hp => ?_) hw').mono ?_
    · rw [hway]
      exact hp
    · rintro r v ⟨hv, -, hall⟩
      exact ⟨hv, hall⟩

/-! ## §5 Storing a target -/

/-- What the write of `PUT` and `PATCH` leaves: on success a world that is sound once the cached
parse of a written ACL is dropped. -/
def Stored (s : LdpState) (req : Request) (b₀ : Backend) (child target : Iri) :
    Except ServerError ResourceMeta → World → Prop
  | .error _, w => Reached s req b₀ child w
  | .ok _, w => Relation.ReflTransGen (Step s req b₀ child) b₀ w.backend ∧
      if isAclResource target then
        Sound s.wac { w with aclCache := w.aclCache.invalidate target }
      else Sound s.wac w

/-- A write of the target itself, with the step it is. -/
theorem spec_storing {p : Server ResourceMeta} {i : ResourceMeta → Index}
    {Q : ResourceMeta → World → Prop} (h : Reached s req b₀ child w)
    (hp : Spec p w (Settles w (· = target.iri) i Q))
    (hstep : ∀ m w', Q m w' → Rewrites (· = target.iri) (i m) w.backend w'.backend →
      Step s req b₀ child w.backend w'.backend) :
    Spec p w (Stored s req b₀ child target.iri) := by
  refine hp.mono ?_
  rintro (e | m) w' hr
  · obtain ⟨hcons, hw⟩ := hr
    exact h.step (h.sound.wrote hcons hw fun _ hp => hp.elim) (.idle hw.rewrites)
  · obtain ⟨hcons, hw, hQ⟩ := hr
    refine ⟨h.steps.tail (hstep m w' hQ hw.rewrites), ?_⟩
    split_ifs with hacl
    · exact h.sound.invalidated hcons hw
    · refine h.sound.wrote hcons hw ?_
      rintro _ rfl
      simpa using hacl

theorem spec_storeTarget (hs : Sound s.wac w) (hb : w.backend = b₀)
    (hp : Permitted s req b₀ target) (body : Bytes) (storedType : Text) :
    Spec (s.storeTarget target.iri req.requester (b₀.index.meta? target.iri).isSome body storedType)
      w (Stored s req b₀ child target.iri) := by
  have hstart : Reached s req b₀ child w := .start hs hb
  have hinPlace : ((b₀.index.meta? target.iri).isSome ∨ isAclResource target.iri = true) →
      Spec (write target.iri body storedType) w (Stored s req b₀ child target.iri) := fun hplace =>
    spec_storing hstart (spec_write hs.toConsistent _ _ _)
      fun m w' _ hw => .overwrite hp (hb ▸ hplace) hw
  unfold storeTarget
  cases hex : (b₀.index.meta? target.iri).isSome with
  | true => exact hinPlace (.inl hex)
  | false =>
    by_cases hacl : isAclResource target.iri = true
    · rw [if_pos hacl]
      exact hinPlace (.inr hacl)
    rw [if_neg hacl]
    rw [Bool.not_eq_true] at hacl
    refine Spec.bind (spec_authorizeOnNearest hs target.iri .append req.requester) ?_ ?_
    rotate_left
    · rintro e w' ⟨⟨hs', hq⟩, -⟩
      exact hstart.quiet hs' hq.backend
    rintro ⟨⟩ w₁ ⟨⟨hs₁, hq₁⟩, happend⟩
    have hc : Creating s req b₀ target :=
      { hp with
        absent := by simpa using hex
        notAcl := hacl
        append := hb ▸ happend rfl hacl }
    have hgrow : Growing s req b₀ child w₁ :=
      ⟨hstart.quiet hs₁ hq₁.backend, by rw [hq₁.backend, hb]; exact fun _ hx => hx⟩
    refine Spec.bind (spec_ensureAncestorContainers hc hgrow) ?_ fun e w₂ h => h.1.toReached
    rintro ⟨⟩ w₂ ⟨hw₂, hway⟩
    cases hparent : parentContainer target.iri with
    | some parent =>
      exact spec_storing hw₂.toReached (spec_createInContainer hw₂.sound.toConsistent _ _ _ _)
        fun m w' hQ hw => .settle hc hparent hQ.2 (hway rfl) hw
    | none =>
      exact spec_storing hw₂.toReached (spec_write hw₂.sound.toConsistent _ _ _)
        fun m w' _ hw => .orphan hc hparent hw

theorem exec_notify (resource : Iri) (activity : ActivityType) (parent : Option Iri) (w : World) :
    ∃ sent, exec (notify resource activity parent) w = (.ok (), { w with sent := sent }) := by
  unfold notify
  cases parent with
  | none => exact ⟨_, rfl⟩
  | some container => cases activity <;> exact ⟨_, rfl⟩

/-- Notifying and then dropping the parse of a written ACL. -/
theorem exec_finishWrite (target : Iri) (existed : Bool) (m : ResourceMeta) (w : World) :
    ∃ sent, exec (finishWrite target existed m) w = (.ok (writeResponse existed m target),
      { w with sent := sent, aclCache :=
        if isAclResource target then w.aclCache.invalidate target else w.aclCache }) := by
  unfold finishWrite invalidateAclIfAcl
  obtain ⟨sent, hsent⟩ := exec_notify target (if existed then .update else .create)
    (if existed || isAclResource target then none else parentContainer target) w
  refine ⟨sent, ?_⟩
  rw [exec_bind_ok hsent]
  split_ifs <;> rfl

theorem spec_finishWrite {iri : Iri} {m : ResourceMeta} (existed : Bool)
    (h : Stored s req b₀ child iri (.ok m) w) :
    Spec (finishWrite iri existed m) w fun _ w' => Reached s req b₀ child w' := by
  obtain ⟨hsteps, hsound⟩ := h
  obtain ⟨sent, hsent⟩ := exec_finishWrite iri existed m w
  show Reached s req b₀ child (exec _ w).2
  rw [hsent]
  split_ifs at hsound ⊢ with hacl
  · exact ⟨hsound.of_eq rfl rfl rfl rfl rfl, hsteps⟩
  · exact ⟨hsound.of_eq rfl rfl rfl rfl rfl, hsteps⟩

/-- The common end of `PUT` and `PATCH`. -/
theorem spec_storeAndFinish (hs : Sound s.wac w) (hb : w.backend = b₀)
    (hp : Permitted s req b₀ target) (body : Bytes) (storedType : Text) {existed : Bool}
    (hex : existed = (b₀.index.meta? target.iri).isSome) :
    Spec (do
      let m ← s.storeTarget target.iri req.requester existed body storedType
      finishWrite target.iri existed m) w (Reaches s req b₀) := by
  subst hex
  have hstore : Spec (s.storeTarget target.iri req.requester
      (b₀.index.meta? target.iri).isSome body storedType) w (Stored s req b₀ [] target.iri) :=
    spec_storeTarget hs hb hp body storedType
  refine Spec.bind hstore ?_ fun e w' h => ⟨[], h⟩
  intro m w' h
  exact (spec_finishWrite _ h).mono fun _ _ h => ⟨[], h⟩

theorem requiredMode_modeForOperation (method : Method) (target : Iri) (isContainer : Bool) :
    requiredMode target (modeForOperation method target isContainer) =
      modeForOperation method target isContainer := by
  unfold requiredMode modeForOperation
  split_ifs <;> rfl

/-- The current resource is read, absent, or fails as its record and bytes do. -/
theorem exec_readCurrent_fst (target : Iri) (w : World) :
    (exec (readCurrent target) w).1 =
      match probe w target with
      | .error e => .error e
      | .ok none => .ok none
      | .ok (some m) => (fetchOutcome w m).map fun b => some ⟨b, m⟩ := by
  unfold readCurrent
  rw [exec_bind, exec_attempt, exec_read_fst]
  cases hp : probe w target with
  | error e =>
    cases e with
    | notFound => exact absurd hp (probe_ne_notFound w target)
    | _ => rfl
  | ok r =>
    cases r with
    | none => rfl
    | some m =>
      simp only
      cases hf : fetchOutcome w m with
      | ok b => rfl
      | error e =>
        cases e with
        | notFound => exact absurd hf (fetchOutcome_ne_notFound w m)
        | _ => rfl

/-- The resource a successful read of the target returns is the stored one. -/
theorem readCurrent_ok {target : Iri} {current : Option Resource}
    (h : (exec (readCurrent target) w).1 = .ok current) :
    current.map Resource.meta_ = w.backend.index.meta? target ∧
      ∀ r, current = some r → fetchOutcome w r.meta_ = .ok r.body := by
  rw [exec_readCurrent_fst] at h
  cases hp : probe w target with
  | error e => rw [hp] at h; cases h
  | ok r =>
    rw [hp] at h
    rw [meta_of_probe hp]
    cases r with
    | none =>
      obtain rfl := Except.ok.inj h
      exact ⟨rfl, by rintro r ⟨⟩⟩
    | some m =>
      cases hf : fetchOutcome w m with
      | error e => simp only [hf] at h; cases h
      | ok b =>
        simp only [hf] at h
        obtain rfl := Except.ok.inj h
        refine ⟨rfl, ?_⟩
        rintro _ ⟨⟩
        exact hf

/-- **What a write has settled** when it comes to its precondition check. -/
inductive Gated (s : LdpState) (req : Request) (w : World) : Option Text × Server Response → Prop
  | put {target : LdpTarget} {granted : Finset AccessMode} {storedType : Text}
      (hmethod : req.method = .put) (hparsed : parseTarget s.baseUrl req.path = .ok target)
      (hauth : (exec (s.authorize .put target req.requester) w).1 = .ok granted) :
      Gated s req w ((w.backend.index.meta? target.iri).map ResourceMeta.etag, do
        let m ← s.storeTarget target.iri req.requester
          (w.backend.index.meta? target.iri).isSome req.body storedType
        finishWrite target.iri (w.backend.index.meta? target.iri).isSome m)
  | patch {target : LdpTarget} {patch : N3Patch} {granted : Finset AccessMode}
      {current : Option Resource} (hmethod : req.method = .patch)
      (hparsed : parseTarget s.baseUrl req.path = .ok target)
      (hpatch : s.parsePatch req target.iri = .ok patch)
      (hauth : (exec (s.authorizeMode target.iri (patchMode patch) req.requester) w).1 =
        .ok granted)
      (hread : (exec (readCurrent target.iri)
        (exec (s.authorizeMode target.iri (patchMode patch) req.requester) w).2).1 = .ok current)
      (hcurrent : current.map Resource.meta_ = w.backend.index.meta? target.iri) :
      Gated s req w (current.map fun r => r.meta_.etag, do
        let (body, format) ← check (s.patchedBody current patch target.iri)
        let m ← s.storeTarget target.iri req.requester current.isSome body format.mediaType
        finishWrite target.iri current.isSome m)
  | delete {target : LdpTarget} {granted : Finset AccessMode} {current : ResourceMeta}
      (hmethod : req.method = .delete) (hparsed : parseTarget s.baseUrl req.path = .ok target)
      (hauth : (exec (s.authorizeMode target.iri (deleteMode target) req.requester) w).1 =
        .ok granted)
      (hremoval : (exec (s.authorizeRemoval target.iri req.requester)
        (exec (s.authorizeMode target.iri (deleteMode target) req.requester) w).2).1 = .ok ())
      (hcurrent : w.backend.index.meta? target.iri = some current) :
      Gated s req w (some current.etag,
        if target.isContainer then deleteContainer target.iri (removalParent target)
        else deleteDocument target.iri (removalParent target))

theorem spec_gate : Spec (s.gate req) w (Spec.OnOk fun g _ => Gated s req w g) := by
  have hperused : ∀ {α : Type} {p : Server α}, Perused s.wac p → ∀ v : World,
      Spec p v fun r v' => Quiet v v' ∧ v' = (exec p v).2 ∧ r = (exec p v).1 :=
    fun hp v => ⟨hp.quiet v, rfl, rfl⟩
  unfold gate
  split
  · rename_i hmethod
    refine Spec.onOk_check_bind fun target hparsed => ?_
    refine Spec.onOk_bind (hperused (perused_authorizeMode _ _ _) w) ?_
    rintro granted w₁ ⟨hq₁, -, hauth⟩
    refine Spec.onOk_check_bind fun _ _ => ?_
    refine Spec.meta?_bind ?_ fun e => by rintro _ ⟨⟩
    refine Spec.onOk_bind (R := fun _ _ => True) trivial fun _ w₂ _ => ?_
    refine Spec.onOk_check_bind fun contentType _ => ?_
    refine Spec.onOk_check_bind fun storedType _ => ?_
    rintro g ⟨⟩
    rw [hq₁.backend]
    exact .put hmethod hparsed hauth.symm
  · rename_i hmethod
    refine Spec.onOk_check_bind fun target hparsed => ?_
    refine Spec.onOk_check_bind fun patch hpatch => ?_
    refine Spec.onOk_bind (hperused (perused_authorizeMode _ _ _) w) ?_
    rintro granted w₁ ⟨hq₁, rfl, hauth⟩
    refine Spec.onOk_check_bind fun _ _ => ?_
    refine Spec.onOk_check_bind fun _ _ => ?_
    refine Spec.onOk_bind (hperused (perused_readCurrent target.iri) _) ?_
    rintro current w₂ ⟨-, -, hread⟩
    rintro g ⟨⟩
    refine .patch hmethod hparsed hpatch hauth.symm hread.symm ?_
    rw [(readCurrent_ok hread.symm).1, hq₁.backend]
  · rename_i hmethod
    refine Spec.onOk_check_bind fun target hparsed => ?_
    refine Spec.onOk_bind (hperused (perused_authorizeMode _ _ _) w) ?_
    rintro granted w₁ ⟨hq₁, rfl, hauth⟩
    refine Spec.onOk_bind (hperused (perused_onNearest _ _ _) _) ?_
    rintro ⟨⟩ w₂ ⟨hq₂, -, hremoval⟩
    refine Spec.onOk_check_bind fun _ _ => ?_
    refine Spec.meta?_bind ?_ fun e => by rintro _ ⟨⟩
    cases hcurrent : w₂.backend.index.meta? target.iri with
    | none => rintro _ ⟨⟩
    | some current =>
      rintro g ⟨⟩
      rw [hq₂.backend, hq₁.backend] at hcurrent
      exact .delete hmethod hparsed hauth.symm hremoval.symm hcurrent
  · rintro _ ⟨⟩

/-! ## §6 Minting a child -/

/-- The loop ends in a name of the right form that is not taken; only the counter has moved. -/
theorem spec_generateLoop (container : Iri) {stem : Text} (hstem : '/' ∉ stem) (seed : Nat)
    (asContainer : Bool) (left : Nat) {w : World} (hs : Sound s.wac w) :
    Spec (generateLoop (Text.trimEndMatches container '/') stem seed asContainer left) w
      fun r w' => Sound s.wac w' ∧ w'.backend = w.backend ∧
        ∀ child, r = .ok child → Minted container child ∧ w.backend.index.meta? child = none := by
  induction left generalizing w with
  | zero => exact ⟨hs, rfl, by rintro _ ⟨⟩⟩
  | succ left ih =>
    refine Spec.perform_bind ?_
    simp only [World.sem]
    have hs' : Sound s.wac { w with counter := (w.counter + 1) % 2 ^ 64 } :=
      hs.of_eq rfl rfl rfl rfl rfl
    refine Spec.exists_bind ?_ fun e => ⟨hs', rfl, by rintro _ ⟨⟩⟩
    split_ifs with hex
    · exact ih hs'
    · refine ⟨hs', rfl, ?_⟩
      rintro _ ⟨⟩
      exact ⟨⟨stem, seed, w.counter, _, asContainer, hstem, rfl⟩, by simpa using hex⟩

/-- A sanitised slug is a single segment. -/
theorem slash_not_mem_sanitiseSlug {raw slug : Text} (h : sanitiseSlug raw = some slug) :
    '/' ∉ slug := by
  unfold sanitiseSlug at h
  simp only at h
  split_ifs at h
  obtain rfl := Option.some.inj h
  intro hmem
  have := (List.mem_filter.mp hmem).2
  exact absurd this (by decide)

theorem spec_mintChildIri (hs : Sound s.wac w) (container : Iri) {stem : Option Text}
    (hstem : ∀ t, stem = some t → '/' ∉ t) (asContainer : Bool) :
    Spec (mintChildIri container stem asContainer) w fun r w' =>
      Sound s.wac w' ∧ w'.backend = w.backend ∧
        ∀ child, r = .ok child → Minted container child ∧ w.backend.index.meta? child = none := by
  refine Spec.perform_bind ?_
  refine spec_generateLoop container ?_ _ asContainer 64 hs.tick
  cases stem with
  | none => decide
  | some t => exact hstem t rfl

/-- A minted name ends in a slash or a digit, so it never names an ACL. -/
theorem Minted.notAcl {child : Iri} (h : Minted container child) :
    isAclResource child = false := by
  obtain ⟨stem, seed, n, attempt, asContainer, -, rfl⟩ := h
  rw [Bool.eq_false_iff]
  intro hacl
  have hlast := getLast?_of_acl hacl
  unfold childCandidate at hlast
  cases asContainer with
  | true =>
    rw [if_pos rfl, show "/".toList = ['/'] from rfl, List.getLast?_concat] at hlast
    exact absurd hlast (by decide)
  | false =>
    simp only [Bool.false_eq_true, if_false, List.append_nil] at hlast
    rw [List.getLast?_append_of_ne_nil _ (Text.hex_ne_nil attempt)] at hlast
    obtain ⟨d, hd⟩ := Text.mem_hex (List.mem_of_getLast? hlast)
    have hdigits : ∀ d : Fin 16, Nat.digitChar d ≠ 'l' := by decide
    exact hdigits d hd.symm

theorem spec_postToContainer (hs : Sound s.wac w) (hb : w.backend = b₀)
    (hmethod : req.method = .post) (hparsed : parseTarget s.baseUrl req.path = .ok target)
    (hcontainer : target.isContainer = true)
    (hgranted : Granted s.wac b₀ target.iri req.requester .append) :
    Spec (s.postToContainer target.iri req) w (Reaches s req b₀) := by
  refine reaches_check_bind hs hb fun contentType _ => ?_
  refine reaches_check_bind hs hb fun _ _ => ?_
  have hstem : ∀ t, (headerStr req.headers .slug).bind sanitiseSlug = some t → '/' ∉ t := by
    intro t ht
    obtain ⟨raw, -, hraw⟩ := Option.bind_eq_some_iff.mp ht
    exact slash_not_mem_sanitiseSlug hraw
  refine Spec.bind (spec_mintChildIri hs target.iri hstem _) ?_ ?_
  · rintro child w₁ ⟨hs₁, hb₁, hchild⟩
    obtain ⟨hminted, habsent⟩ := hchild child rfl
    rw [hb] at hb₁ habsent
    have hreached : Reached s req b₀ child w₁ := .start hs₁ hb₁
    refine reaches_check_bind hs₁ hb₁ fun storedType _ => ?_
    refine Spec.bind (spec_createInContainer hs₁.toConsistent _ _ _ _) ?_ ?_
    · rintro m w₂ ⟨hcons, hw, -, hexists⟩
      have hs₂ : Sound s.wac w₂ := by
        refine hs₁.wrote hcons hw ?_
        rintro _ rfl
        exact hminted.notAcl
      have hreached₂ := hreached.step hs₂ (.mint hmethod hparsed hcontainer hgranted hminted
        habsent hexists hw.rewrites)
      obtain ⟨sent, hsent⟩ := exec_notify child .create (some target.iri) w₂
      refine ⟨child, ?_⟩
      show Reached s req b₀ child (exec _ w₂).2
      exact hreached₂.quiet (hs₂.of_eq rfl rfl rfl rfl rfl) rfl
    · rintro e w₂ ⟨hcons, hw⟩
      exact ⟨child, hreached.step (hs₁.wrote hcons hw fun _ hp => hp.elim) (.idle hw.rewrites)⟩
  · rintro e w₁ ⟨hs₁, hb₁, -⟩
    exact reaches_start hs₁ (hb₁.trans hb) _

theorem spec_postHandler (hs : Sound s.wac w) (hmethod : req.method = .post) :
    Spec (s.postHandler req) w (Reaches s req w.backend) := by
  refine reaches_check_bind hs rfl fun target hparsed => ?_
  refine reaches_bind (perused_authorizeMode _ _ _) hs rfl fun granted w₁ hs₁ hb₁ hauth => ?_
  cases hcontainer : target.isContainer with
  | false =>
    exact reaches_perused (perused_postToResource _ _ _) hs₁ hb₁
  | true =>
    have hmode : requiredMode target.iri (modeForOperation .post target.iri target.isContainer) =
        .append := by
      obtain ⟨rel, hrel⟩ := parseTarget_ok hparsed
      have hacl := not_acl_of_getLast? (hrel.container.mp hcontainer)
      simp [requiredMode, modeForOperation, hacl, hcontainer]
    have hgranted := ((spec_authorizeMode hs _ _ _).2 granted hauth).1
    refine reaches_bind (perused_requireContainer _ _ _) hs₁ hb₁ fun _ w₂ hs₂ hb₂ _ => ?_
    exact spec_postToContainer hs₂ hb₂ hmethod hparsed hcontainer (hmode ▸ hgranted)

/-! ## §7 Removing a target -/

theorem spec_deleteDocument (hs : Sound s.wac w) (hb : w.backend = b₀)
    (hr : Removing s req b₀ target) (hdoc : target.isContainer = false) :
    Spec (deleteDocument target.iri (removalParent target)) w (Reaches s req b₀) := by
  have hstart : Reached s req b₀ [] w := .start hs hb
  -- soundness is kept even when the deletion stops half way: a removed record has no stale parse
  have hdeleted : ∀ w', Consistent w' → Deleted target.iri (removalParent target) w w' →
      Reached s req b₀ [] w' := by
    rintro w' hcons (h | h | h)
    · exact hstart.step (hs.wrote hcons h fun _ hp => hp.elim) (.idle h.rewrites)
    · exact hstart.step (hs.wrote hcons h fun _ hp => hp.elim) (.unlink hr hdoc h.rewrites)
    · refine hstart.step (hs.removed hcons h ?_) (.remove hr hdoc h.rewrites)
      rw [Index.meta?_deleteMeta, if_pos rfl]
  refine Spec.bind (spec_delete hs.toConsistent target.iri (removalParent target)) ?_ ?_
  · rintro ⟨⟩ w' ⟨hcons, hdel, hok⟩
    have hw := hok rfl
    have hreached := hdeleted w' hcons hdel
    refine ⟨[], ?_⟩
    show Reached s req b₀ [] (exec _ w').2
    unfold invalidateAclIfAcl
    split_ifs
    · rw [exec_perform_bind]
      simp only [World.sem]
      obtain ⟨sent, hsent⟩ := exec_notify target.iri .delete (removalParent target)
        { w' with aclCache := w'.aclCache.invalidate target.iri }
      rw [exec_bind_ok hsent]
      exact hreached.quiet ((hs.invalidated hcons hw).of_eq rfl rfl rfl rfl rfl) rfl
    · obtain ⟨sent, hsent⟩ := exec_notify target.iri .delete (removalParent target) w'
      rw [pure_bind, exec_bind_ok hsent]
      exact hreached.quiet (hreached.sound.of_eq rfl rfl rfl rfl rfl) rfl
  · rintro e w' ⟨hcons, hdel, -⟩
    exact ⟨[], hdeleted w' hcons hdel⟩

theorem spec_deleteContainer (hs : Sound s.wac w) (hb : w.backend = b₀)
    (hr : Removing s req b₀ target) (hcontainer : target.isContainer = true) :
    Spec (deleteContainer target.iri (removalParent target)) w (Reaches s req b₀) := by
  have hstart : Reached s req b₀ [] w := .start hs hb
  have hdeleted := (spec_deleteContainerIfEmpty hs.toConsistent target.iri
    (removalParent target)).mono (R := fun _ w' => Reached s req b₀ [] w') ?_
  · refine Spec.bind hdeleted ?_ fun e w' h => ⟨[], h⟩
    intro outcome w' hw'
    cases outcome with
    | deleted =>
      obtain ⟨sent, hsent⟩ := exec_notify target.iri .delete (removalParent target) w'
      refine ⟨[], ?_⟩
      show Reached s req b₀ [] (exec _ w').2
      rw [exec_bind_ok hsent]
      exact hw'.quiet (hw'.sound.of_eq rfl rfl rfl rfl rfl) rfl
    | notEmpty => exact ⟨[], hw'⟩
    | notFound => exact ⟨[], hw'⟩
  · rintro r w' ⟨hcons, h | ⟨hempty, h⟩⟩
    · exact hstart.step (hs.wrote hcons h fun _ hp => hp.elim) (.idle h.rewrites)
    · refine hstart.step (hs.removed hcons h ?_) (.removeContainer hr hcontainer hempty h.rewrites)
      rw [meta?_afterUnlink, Index.meta?_deleteMeta, if_pos rfl]

theorem requiredMode_deleteMode (target : LdpTarget) :
    requiredMode target.iri (deleteMode target) = deleteMode target := by
  unfold requiredMode deleteMode
  split_ifs with hacl <;> simp_all

/-! ## §8 Whole requests -/

/-- A write: what the gate has settled permits what follows. -/
theorem spec_written (hs : Sound s.wac w)
    (hmethod : req.method = .put ∨ req.method = .patch ∨ req.method = .delete) :
    Spec (s.serve req) w (Reaches s req w.backend) := by
  rw [serve_eq_gate hmethod]
  refine Spec.bind (((perused_gate req).calm rfl hs).and spec_gate) ?_
    fun e w' h => reaches_start h.1.1 h.1.2.backend _
  rintro g w' ⟨⟨hs', hq⟩, hg⟩
  refine reaches_check_bind hs' hq.backend fun _ _ => ?_
  cases hg g rfl with
  | @put target granted _ hm hparsed hauth =>
    have hgranted := ((spec_authorizeMode hs target.iri _ req.requester).2 granted hauth).1
    refine spec_storeAndFinish hs' hq.backend ⟨hparsed, requiredMode target.iri .write,
      by simp only [neededMode, hm], ?_⟩ _ _ rfl
    convert hgranted using 1
    rw [requiredMode_modeForOperation]
    rfl
  | @patch target patch granted current hm hparsed hpatch hauth _ hcurrent =>
    have hgranted := ((spec_authorizeMode hs target.iri _ req.requester).2 granted hauth).1
    refine reaches_check_bind hs' hq.backend fun merged _ => ?_
    refine spec_storeAndFinish hs' hq.backend ⟨hparsed, _,
      by simp only [neededMode, hm, hpatch]; rfl, hgranted⟩ _ _ ?_
    rw [← hcurrent, Option.isSome_map]
  | @delete target granted current hm hparsed hauth hremoval hcurrent =>
    obtain ⟨hcalm, hgranted⟩ := spec_authorizeMode hs target.iri (deleteMode target) req.requester
    have hwrite := (spec_authorizeOnNearest hcalm.1 target.iri .write req.requester).2 hremoval
    have hr : Removing s req w.backend target :=
      { parsed := hparsed
        granted := ⟨deleteMode target, by simp only [neededMode, hm],
          requiredMode_deleteMode target ▸ (hgranted granted hauth).1⟩
        present := by rw [hcurrent]; rfl
        write := hcalm.2.backend ▸ hwrite }
    cases hcontainer : target.isContainer with
    | true => exact spec_deleteContainer hs' hq.backend hr hcontainer
    | false => exact spec_deleteDocument hs' hq.backend hr hcontainer

/-- **A whole request** is a sequence of permitted steps, and leaves a sound world. -/
theorem spec_serve (hs : Sound s.wac w) (req : Request) :
    Spec (s.serve req) w (Reaches s req w.backend) := by
  by_cases hwrite : req.method = .put ∨ req.method = .patch ∨ req.method = .delete
  · exact spec_written hs hwrite
  · unfold serve
    cases hmethod : req.method with
    | put | patch | delete => simp [hmethod] at hwrite
    | get => exact reaches_perused (perused_serveRead req true) hs rfl
    | head => exact reaches_perused (perused_serveRead req false) hs rfl
    | post => exact spec_postHandler hs hmethod
    | options => exact reaches_start hs rfl _

/-- The world a handled request leaves. -/
theorem reached_handle (hs : Sound s.wac w) (req : Request) :
    ∃ child, Reached s req w.backend child (s.handle req w).2 :=
  spec_serve hs req

end

end SolidServer.Ldp.LdpState
