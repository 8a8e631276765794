import SolidServer.Effects.History
import SolidServer.Ldp.Commit
import SolidServer.Ldp.Effect

/-!
# What a request has seen when it changes the index

Every change a request makes to the index is decided by the answers it got before: a
record is overwritten because a lookup found it, a container on the way is created because
it was looked for and missing, a record is dropped right after the edge that leads to it.
`Justified` lists these reasons, and `conducts_serve` says that every request, whatever
answers it is given, makes no change without one.

Nothing is assumed about the store here, so this holds of requests run one after the other
and of requests interleaved in any way.
-/

namespace SolidServer.Ldp.LdpState

open SolidServer.Effects SolidServer.Store SolidServer.Authz
open SolidServer.Effects.Program (Heeds Uses)

variable {s : LdpState} {req : Request} {α β : Type} {seen : List (Event storeSig)}

/-! ## §1 Reasons -/

/-- The steps that leave the index as it is. -/
def Passive : StoreOp → Prop
  | .putMeta _ _ | .createChild _ _ _ | .removeChild _ _ | .deleteMeta _ | .deleteMetaIfEmpty _ _ =>
    False
  | _ => True

variable {o : StoreOp} {log : List (Event storeSig)} {iri container : Iri} {target : LdpTarget}
  {p : Server α} {body : Bytes} {contentType : Text}

theorem Passive.of_reads (h : Reads o) : Passive o := by
  cases o <;> trivial

theorem index_passive (h : Passive o) (u : World) :
    (World.sem u o).2.backend.index = u.backend.index := by
  cases o with
  | blobPut key body =>
    simp only [World.sem]
    split <;> rfl
  | blobDelete key =>
    simp only [World.sem]
    split <;> rfl
  | putMeta _ _ | createChild _ _ _ | removeChild _ _ | deleteMeta _ | deleteMetaIfEmpty _ _ =>
    exact h.elim
  | _ => rfl

/-- A lookup found the record. -/
def SawRecord (seen : List (Event storeSig)) (iri : Iri) : Prop :=
  ∃ m, (⟨.getMeta iri, .ok m⟩ : Event storeSig) ∈ seen

/-- A lookup found no record. -/
def SawNoRecord (seen : List (Event storeSig)) (iri : Iri) : Prop :=
  (⟨.getMeta iri, .error .notFound⟩ : Event storeSig) ∈ seen

/-- An existence check was answered. -/
def SawExists (seen : List (Event storeSig)) (iri : Iri) (answer : Bool) : Prop :=
  (⟨.exists_ iri, .ok answer⟩ : Event storeSig) ∈ seen

/-- The name that differs from a target's by the trailing slash. -/
def twin (target : LdpTarget) : Iri :=
  if target.isContainer then Text.trimEndMatches target.iri '/' else target.iri ++ ['/']

/-- The body of a `PUT` may be stored under its target's name, the patch of a `PATCH` parses. -/
structure Admitted (s : LdpState) (req : Request) (target : LdpTarget) : Prop where
  put : req.method = .put → ∃ contentType storedType,
    requireContentType req.headers = .ok contentType ∧
      s.validateWritable contentType req.body target.iri = .ok storedType
  patch : req.method = .patch → ∃ patch, s.parsePatch req target.iri = .ok patch

/-- A `PUT` or `PATCH` is making a target it found missing; only `PUT` has looked for a twin. -/
structure Making (s : LdpState) (req : Request) (seen : List (Event storeSig))
    (target : LdpTarget) : Prop where
  parsed : parseTarget s.baseUrl req.path = .ok target
  method : req.method = .put ∨ req.method = .patch
  missing : SawNoRecord seen target.iri
  apart : req.method = .put → SawExists seen (twin target) false
  admitted : Admitted s req target

/-- A container on the way has been found or made. -/
def Stood (seen : List (Event storeSig)) (p : Iri × Iri) : Prop :=
  SawExists seen p.2 true ∨ ∃ m, (⟨.createChild p.1 p.2 m, .ok ()⟩ : Event storeSig) ∈ seen

/-- The characters of a minted segment: those a slug keeps, and the slash of a container. -/
def isMintedChar (c : Char) : Bool := c.isAlphanum || c = '.' || c = '_' || c = '-' || c = '/'

/-- A child one segment below its container, of plain characters. -/
def PlainChild (container child : Iri) : Prop :=
  ∃ seg, child = Text.trimEndMatches container '/' ++ '/' :: seg ∧
    ∀ c ∈ seg, isMintedChar c = true

/-- A `DELETE` is removing a target it found. -/
structure Dropping (s : LdpState) (req : Request) (seen : List (Event storeSig))
    (target : LdpTarget) : Prop where
  parsed : parseTarget s.baseUrl req.path = .ok target
  method : req.method = .delete
  found : SawRecord seen target.iri

/-- **The reasons for a step**, from the events before it. -/
inductive Justified (s : LdpState) (req : Request) (seen : List (Event storeSig)) :
    StoreOp → Prop
  | passive {o : StoreOp} (h : Passive o) : Justified s req seen o
  /-- `PUT` and `PATCH` of a resource that is there. -/
  | replace {target : LdpTarget} {m : ResourceMeta}
      (hparsed : parseTarget s.baseUrl req.path = .ok target)
      (hmethod : req.method = .put ∨ req.method = .patch) (hfound : SawRecord seen target.iri) :
      Justified s req seen (.putMeta target.iri m)
  /-- A new ACL, which no container lists. -/
  | acl {target : LdpTarget} {m : ResourceMeta} (h : Making s req seen target)
      (hacl : isAclResource target.iri = true) : Justified s req seen (.putMeta target.iri m)
  /-- The storage root on the way to a new target. -/
  | root {target : LdpTarget} {m : ResourceMeta} (h : Making s req seen target)
      (habsent : SawExists seen (storageRoot s.baseUrl) false) :
      Justified s req seen (.putMeta (storageRoot s.baseUrl) m)
  /-- A new target without a container of its own. -/
  | orphan {target : LdpTarget} {m : ResourceMeta} (h : Making s req seen target)
      (hnot : isAclResource target.iri = false) (hparent : parentContainer target.iri = none) :
      Justified s req seen (.putMeta target.iri m)
  /-- A container on the way to a new target.  The slashless name was missing, or the container
  was there a moment before it was not. -/
  | ancestor {target : LdpTarget} {parent container : Iri} {m : ResourceMeta}
      (h : Making s req seen target) (hnot : isAclResource target.iri = false)
      (hway : (parent, container) ∈ s.ancestorsOf target.iri)
      (habsent : SawExists seen container false)
      (hslash : SawExists seen container.dropLast false ∨ SawExists seen container true) :
      Justified s req seen (.createChild parent container m)
  /-- The new target itself, once all containers on the way are there. -/
  | settle {target : LdpTarget} {parent : Iri} {m : ResourceMeta} (h : Making s req seen target)
      (hnot : isAclResource target.iri = false)
      (hparent : parentContainer target.iri = some parent)
      (hway : ∀ p ∈ s.ancestorsOf target.iri, Stood seen p) :
      Justified s req seen (.createChild parent target.iri m)
  /-- `POST`: a child under a name that was free. -/
  | mint {container : LdpTarget} {child : Iri} {m : ResourceMeta} (hmethod : req.method = .post)
      (hparsed : parseTarget s.baseUrl req.path = .ok container)
      (hcontainer : container.isContainer = true) (hminted : Minted container.iri child)
      (hplain : PlainChild container.iri child) (habsent : SawExists seen child false) :
      Justified s req seen (.createChild container.iri child m)
  /-- The edge to a document that is removed. -/
  | unlink {target : LdpTarget} {parent : Iri} (h : Dropping s req seen target)
      (hdoc : target.isContainer = false) (hparent : removalParent target = some parent) :
      Justified s req seen (.removeChild parent target.iri)
  /-- The record of a document, right after the edge to it. -/
  | remove {target : LdpTarget} (h : Dropping s req seen target)
      (hdoc : target.isContainer = false)
      (hunlinked : ∀ parent, removalParent target = some parent →
        seen.getLast? = some ⟨.removeChild parent target.iri, .ok ()⟩) :
      Justified s req seen (.deleteMeta target.iri)
  /-- An empty container. -/
  | removeContainer {target : LdpTarget} (h : Dropping s req seen target)
      (hcontainer : target.isContainer = true) :
      Justified s req seen (.deleteMetaIfEmpty target.iri (removalParent target))

theorem SawRecord.mono (h : SawRecord seen iri) (hlog : seen <+: log) : SawRecord log iri :=
  h.imp fun _ hm => hlog.subset hm

theorem Stood.mono {p : Iri × Iri} (h : Stood seen p) (hlog : seen <+: log) : Stood log p :=
  h.imp (fun h => hlog.subset h) fun ⟨m, hm⟩ => ⟨m, hlog.subset hm⟩

theorem Making.mono (h : Making s req seen target) (hlog : seen <+: log) :
    Making s req log target where
  parsed := h.parsed
  method := h.method
  missing := hlog.subset h.missing
  apart hput := hlog.subset (h.apart hput)
  admitted := h.admitted

theorem Dropping.mono (h : Dropping s req seen target) (hlog : seen <+: log) :
    Dropping s req log target :=
  ⟨h.parsed, h.method, h.found.mono hlog⟩

/-! ## §2 The logic of conduct -/

/-- After the events of `seen` the program makes no change without a reason. -/
def Conducts (s : LdpState) (req : Request) (seen : List (Event storeSig)) (p : Server α) : Prop :=
  Program.Heeds (S := storeSig) (Justified s req) seen p fun _ _ => True

theorem conducts_pure (a : α) : Conducts s req seen (pure a : Server α) := trivial

theorem conducts_throw (e : ServerError) : Conducts s req seen (throw e : Server α) := trivial

/-- One step, by its reason. -/
theorem conducts_perform_bind {f : o.Res → Server β} (ho : Justified s req seen o)
    (h : ∀ r, Conducts s req (seen ++ [⟨o, r⟩]) (f r)) :
    Conducts s req seen (perform o >>= f) := ⟨ho, h⟩

/-- Sequencing: the rest starts from a longer history. -/
theorem Conducts.bind {p : Server α} {f : α → Server β} (hp : Conducts s req seen p)
    (hf : ∀ log a, seen <+: log → Conducts s req log (f a)) : Conducts s req seen (p >>= f) :=
  Heeds.bind (Heeds.extends_ hp) (fun log a h => hf log a h.1) fun _ _ _ => trivial

theorem Conducts.attempt_bind {p : Server α} {f : Except ServerError α → Server β}
    (hp : Conducts s req seen p) (hf : ∀ log r, seen <+: log → Conducts s req log (f r)) :
    Conducts s req seen (p.attempt >>= f) :=
  Heeds.attempt_bind (Heeds.extends_ hp) fun log r h => hf log r h.1

theorem conducts_passive (hp : p.Uses (S := storeSig) Passive) : Conducts s req seen p :=
  (Heeds.of_uses hp fun _ _ h => .passive h).mono fun _ _ _ => trivial

theorem conducts_reads (hp : p.Uses (S := storeSig) Reads) : Conducts s req seen p :=
  conducts_passive (hp.mono fun _ => Passive.of_reads)

theorem conducts_check_bind {r : Except ServerError α} {f : α → Server β}
    (hf : ∀ a, r = .ok a → Conducts s req seen (f a)) : Conducts s req seen (check r >>= f) := by
  cases r with
  | ok a => exact hf a rfl
  | error e => exact conducts_throw e

/-- A lookup, with what it tells the rest. -/
theorem conducts_meta?_bind {f : Option ResourceMeta → Server β}
    (hfound : ∀ log m, seen <+: log → SawRecord log iri → Conducts s req log (f (some m)))
    (hmissing : ∀ log, seen <+: log → SawNoRecord log iri → Conducts s req log (f none)) :
    Conducts s req seen (meta? iri >>= f) := by
  refine conducts_perform_bind (.passive trivial) fun r => ?_
  cases r with
  | ok m => exact hfound _ m (List.prefix_append _ _) ⟨m, by simp⟩
  | error e =>
    cases e with
    | notFound => exact hmissing _ (List.prefix_append _ _) (by simp [SawNoRecord])
    | backend msg => exact conducts_throw _

/-- An existence check, with what it tells the rest. -/
theorem conducts_exists_bind {f : Bool → Server β}
    (hf : ∀ log b, seen <+: log → SawExists log iri b → Conducts s req log (f b)) :
    Conducts s req seen (exists_ iri >>= f) := by
  refine conducts_perform_bind (.passive trivial) fun r => ?_
  cases r with
  | ok b => exact hf _ b (List.prefix_append _ _) (by simp [SawExists])
  | error e => exact conducts_throw _

/-! ## §3 The store's operations -/

theorem conducts_write (h : ∀ log m, seen <+: log → Justified s req log (.putMeta iri m)) :
    Conducts s req seen (write iri body contentType) := by
  refine (conducts_passive (uses_stage trivial (fun _ => trivial) trivial)).bind fun log m hlog => ?_
  refine conducts_perform_bind (h log m hlog) fun r => ?_
  cases r <;> trivial

/-- A creation, with what it tells the rest when it succeeds. -/
theorem conducts_createInContainer_bind {child : Iri} {f : ResourceMeta → Server β}
    (h : ∀ log m, seen <+: log → Justified s req log (.createChild container child m))
    (hf : ∀ log m, seen <+: log → Stood log (container, child) → Conducts s req log (f m)) :
    Conducts s req seen (createInContainer container child body contentType >>= f) := by
  unfold createInContainer
  rw [bind_assoc]
  refine (conducts_passive (uses_stage trivial (fun _ => trivial) trivial)).bind fun log m hlog => ?_
  refine conducts_perform_bind (h log m hlog) fun r => ?_
  rcases r with (_ | _) | _
  · exact conducts_throw _
  · exact conducts_throw _
  · exact hf _ m (hlog.trans (List.prefix_append _ _)) (.inr ⟨m, by simp⟩)

theorem conducts_createInContainer {child : Iri}
    (h : ∀ log m, seen <+: log → Justified s req log (.createChild container child m)) :
    Conducts s req seen (createInContainer container child body contentType) := by
  rw [← bind_pure (createInContainer container child body contentType)]
  exact conducts_createInContainer_bind h fun _ _ _ _ => conducts_pure _

theorem conducts_reap (key : Option Text) : Conducts s req seen (reap key) := by
  cases key with
  | none => exact conducts_pure _
  | some key =>
    refine conducts_perform_bind (.passive trivial) fun r => ?_
    exact conducts_reads (uses_orBlobStorage r)

/-- `delete`: the record goes right after the edge. -/
theorem conducts_delete (h : Dropping s req seen target) (hdoc : target.isContainer = false) :
    Conducts s req seen (Store.delete target.iri (removalParent target)) := by
  refine Conducts.bind (conducts_perform_bind (.passive trivial) fun r => ?_) fun log key hlog => ?_
  · rcases r with (_ | _) | _ <;> trivial
  have hdrop := h.mono hlog
  cases hparent : removalParent target with
  | none =>
    refine conducts_perform_bind (.remove hdrop hdoc fun parent hp => ?_) fun r => ?_
    · rw [hparent] at hp
      cases hp
    · cases r with
      | ok u => exact conducts_reap key
      | error e => exact conducts_throw _
  | some parent =>
    show Conducts s req log ((perform (.removeChild parent target.iri) >>= orStorage) >>= _)
    refine conducts_perform_bind (.unlink hdrop hdoc hparent) fun r => ?_
    cases r with
    | error e => exact conducts_throw _
    | ok u =>
      have hlast := hdrop.mono (List.prefix_append log [⟨.removeChild parent target.iri, .ok u⟩])
      refine conducts_perform_bind (.remove hlast hdoc fun p hp => ?_) fun r => ?_
      · rw [hparent] at hp
        rw [Option.some.inj hp, List.getLast?_concat]
      · cases r with
        | ok u => exact conducts_reap key
        | error e => exact conducts_throw _

/-! ## §4 Making a target -/

section
variable {target : LdpTarget}

variable {f : Unit → Server β}

theorem conducts_createMissing_bind (h : Making s req seen target)
    (hnot : isAclResource target.iri = false) {parent container : Iri}
    (hway : (parent, container) ∈ s.ancestorsOf target.iri)
    (hslash : SawExists seen container.dropLast false ∨ SawExists seen container true)
    (hf : ∀ log, seen <+: log → Stood log (parent, container) → Conducts s req log (f ())) :
    Conducts s req seen (createMissing parent container >>= f) := by
  unfold createMissing
  rw [bind_assoc]
  refine conducts_exists_bind fun log b hlog hb => ?_
  cases b with
  | true => exact hf log hlog (.inl hb)
  | false =>
    simp only [Bool.false_eq_true, if_false, bind_assoc]
    refine conducts_createInContainer_bind (fun log' m hlog' => ?_) fun log' m hlog' hstood => ?_
    · have hup := hlog.trans hlog'
      exact .ancestor (h.mono hup) hnot hway (hlog'.subset hb)
        (hslash.imp (fun h => hup.subset h) fun h => hup.subset h)
    · exact hf log' (hlog.trans hlog') hstood

/-- What the clash check tells when it lets the walk go on. -/
theorem conducts_slashlessClash_bind {slashless container : Iri} {f : Bool → Server β}
    (hclash : ∀ log, seen <+: log → Conducts s req log (f true))
    (hfree : ∀ log, seen <+: log → SawExists log slashless false ∨ SawExists log container true →
      Conducts s req log (f false)) :
    Conducts s req seen (slashlessClash slashless container >>= f) := by
  unfold slashlessClash
  rw [bind_assoc]
  refine conducts_exists_bind fun log b hlog hb => ?_
  cases b with
  | false => exact hfree log hlog (.inl hb)
  | true =>
    simp only [if_true, bind_assoc]
    refine conducts_exists_bind fun log' b' hlog' hb' => ?_
    cases b' with
    | true => exact hfree log' (hlog.trans hlog') (.inr hb')
    | false => exact hclash log' (hlog.trans hlog')

/-- After the walk all containers on the way are there. -/
theorem conducts_ensureLoop_bind (h : Making s req seen target)
    (hnot : isAclResource target.iri = false) (segs : List Text) (pre : Text)
    (hway : ∀ p ∈ ancestorSteps pre segs, p ∈ s.ancestorsOf target.iri)
    (hf : ∀ log, seen <+: log → (∀ p ∈ ancestorSteps pre segs, Stood log p) → Conducts s req log (f ()))
    :
    Conducts s req seen (ensureLoop segs pre (pre ++ ['/']) >>= f) := by
  induction segs generalizing pre seen with
  | nil => exact hf seen (List.prefix_refl _) fun p hp => by cases hp
  | cons seg rest ih =>
    obtain ⟨hhead, hrest⟩ := List.forall_mem_cons.mp hway
    unfold ensureLoop
    rw [bind_assoc]
    refine conducts_slashlessClash_bind (fun log _ => conducts_throw _) fun log hlog hfree => ?_
    simp only [Bool.false_eq_true, if_false, bind_assoc]
    refine conducts_createMissing_bind (h.mono hlog) hnot hhead ?_ fun log' hlog' hstood => ?_
    · rwa [List.dropLast_concat]
    · refine ih (h.mono (hlog.trans hlog')) (pre ++ ['/'] ++ seg) hrest fun log'' hlog'' hall => ?_
      refine hf log'' ((hlog.trans hlog').trans hlog'') ?_
      exact List.forall_mem_cons.mpr ⟨hstood.mono hlog'', hall⟩

theorem conducts_ensureRoot (h : Making s req seen target) :
    Conducts s req seen (ensureRoot (storageRoot s.baseUrl)) := by
  refine conducts_exists_bind fun log b hlog hb => ?_
  cases b with
  | true => exact conducts_pure _
  | false =>
    refine Conducts.bind (conducts_write fun log' m hlog' => ?_) fun _ _ _ => conducts_pure _
    exact .root (h.mono (hlog.trans hlog')) (hlog'.subset hb)

theorem conducts_ensureAncestorContainers_bind (h : Making s req seen target)
    (hnot : isAclResource target.iri = false)
    (hf : ∀ log, seen <+: log → (∀ p ∈ s.ancestorsOf target.iri, Stood log p) → Conducts s req log (f ()))
    :
    Conducts s req seen (s.ensureAncestorContainers target.iri >>= f) := by
  unfold ensureAncestorContainers
  dsimp only
  have hway := ancestorsOf_eq s target.iri
  cases hstrip : Text.stripPrefix? target.iri (Text.trimEndMatches s.baseUrl '/') with
  | none =>
    rw [hstrip] at hway
    refine hf seen (List.prefix_refl _) fun p hp => ?_
    rw [hway] at hp
    cases hp
  | some rest =>
    rw [hstrip] at hway
    simp only [bind_assoc]
    refine (conducts_ensureRoot h).bind fun log _ hlog => ?_
    refine conducts_ensureLoop_bind (h.mono hlog) hnot _ _ (fun p hp => ?_) fun log' hlog' hall => ?_
    · rw [hway]
      exact hp
    · exact hf log' (hlog.trans hlog') (by rw [hway]; exact hall)

/-- The write of a target that is missing. -/
theorem conducts_storeTarget_new (h : Making s req seen target) (requester : Requester)
    (body : Bytes) (type : Text) :
    Conducts s req seen (s.storeTarget target.iri requester false body type) := by
  unfold storeTarget
  simp only [Bool.false_eq_true, if_false]
  split_ifs with hacl
  · exact conducts_write fun log m hlog => .acl (h.mono hlog) hacl
  rw [Bool.not_eq_true] at hacl
  have hreads : (s.authorizeContainerModification target.iri requester).Uses (S := storeSig) Reads :=
    (perused_onNearest target.iri .append requester).reads
  refine (conducts_reads hreads).bind fun log _ hlog => ?_
  refine conducts_ensureAncestorContainers_bind (h.mono hlog) hacl fun log' hlog' hall => ?_
  have hmaking := h.mono (hlog.trans hlog')
  cases hparent : parentContainer target.iri with
  | some parent =>
    exact conducts_createInContainer fun log'' m hlog'' =>
      .settle (hmaking.mono hlog'') hacl hparent fun p hp => (hall p hp).mono hlog''
  | none => exact conducts_write fun log'' m hlog'' => .orphan (hmaking.mono hlog'') hacl hparent

/-- The write of a target that is there. -/
theorem conducts_storeTarget_old (hparsed : parseTarget s.baseUrl req.path = .ok target)
    (hmethod : req.method = .put ∨ req.method = .patch) (hfound : SawRecord seen target.iri)
    (requester : Requester) (body : Bytes) (type : Text) :
    Conducts s req seen (s.storeTarget target.iri requester true body type) :=
  conducts_write fun _ _ hlog => .replace hparsed hmethod (hfound.mono hlog)

end

/-! ## §5 The handlers -/

/-- A byte fetch reads, and does not fail with `NotFound`. -/
theorem heeds_fetchBody (m : ResourceMeta) :
    Heeds (S := storeSig) (Justified s req) seen (fetchBody m) fun _ r => r ≠ .error .notFound := by
  refine ⟨.passive trivial, fun cached => ?_⟩
  cases cached with
  | some body => exact Heeds.pure (by simp)
  | none =>
    refine ⟨.passive trivial, fun r => ?_⟩
    cases r with
    | ok body => exact ⟨.passive trivial, fun _ => Heeds.pure (by simp)⟩
    | error e => cases e <;> exact Heeds.throw (by simp [blobFetchError])

/-- The current resource of a patch, with what its lookup tells the rest. -/
theorem conducts_readCurrent_bind {f : Option Resource → Server β}
    (hfound : ∀ log r, seen <+: log → SawRecord log iri → Conducts s req log (f (some r)))
    (hmissing : ∀ log, seen <+: log → SawNoRecord log iri → Conducts s req log (f none)) :
    Conducts s req seen (readCurrent iri >>= f) := by
  unfold readCurrent
  rw [bind_assoc]
  -- the lookup is the first step of the attempt
  refine ⟨.passive trivial, fun r => ?_⟩
  have hup := List.prefix_append seen [(⟨.getMeta iri, r⟩ : Event storeSig)]
  cases r with
  | error e =>
    cases e with
    | notFound => exact hmissing _ hup (by simp [SawNoRecord])
    | backend msg => exact conducts_throw _
  | ok m =>
    have hsaw : SawRecord (seen ++ [⟨.getMeta iri, .ok m⟩]) iri := ⟨m, by simp⟩
    have hbody : Heeds (S := storeSig) (Justified s req) (seen ++ [⟨.getMeta iri, .ok m⟩])
        (do let body ← fetchBody m; pure (⟨body, m⟩ : Resource))
        fun log r => seen ++ [⟨.getMeta iri, .ok m⟩] <+: log ∧ r ≠ .error .notFound := by
      refine Heeds.extends_ (Heeds.bind (heeds_fetchBody m) ?_ ?_)
      · exact fun _ _ _ => Heeds.pure (by simp)
      · exact fun _ e he h => he (by simpa using h)
    refine Heeds.attempt_bind hbody ?_
    rintro log r ⟨hlog, hr⟩
    cases r with
    | ok res => exact hfound log res (hup.trans hlog) (hsaw.mono hlog)
    | error e =>
      cases e with
      | notFound => exact absurd rfl hr
      | _ => exact conducts_throw _

theorem conducts_putHandler (hmethod : req.method = .put) :
    Conducts s req seen (s.putHandler req) := by
  refine conducts_check_bind fun target hparsed => ?_
  refine (conducts_reads (perused_authorizeMode _ _ _).reads).bind fun log₁ granted _ => ?_
  refine conducts_check_bind fun _ _ => ?_
  refine conducts_meta?_bind (fun log₂ m _ hsaw => ?_) fun log₂ _ hsaw => ?_
  · refine (conducts_reads (perused_rejectSlashSemanticsConflict (s := s) _).reads).bind fun log₃ _ hlog₃ => ?_
    refine conducts_check_bind fun _ _ => conducts_check_bind fun _ _ =>
      conducts_check_bind fun _ _ => ?_
    refine (conducts_storeTarget_old hparsed (.inl hmethod) (hsaw.mono hlog₃) _ _ _).bind ?_
    exact fun _ _ _ => conducts_passive (uses_finishWrite (fun _ _ => trivial) trivial)
  · unfold rejectSlashSemanticsConflict
    rw [bind_assoc]
    refine conducts_exists_bind fun log₃ b hlog₃ hb => ?_
    cases b with
    | true => exact conducts_throw _
    | false =>
      simp only [Bool.false_eq_true, if_false, pure_bind]
      refine conducts_check_bind fun contentType hcontent => ?_
      refine conducts_check_bind fun storedType hstored => conducts_check_bind fun _ _ => ?_
      have hadmitted : Admitted s req target := by
        refine ⟨fun _ => ⟨contentType, storedType, hcontent, hstored⟩, fun hpatch => ?_⟩
        rw [hmethod] at hpatch
        cases hpatch
      have hmaking : Making s req log₃ target :=
        ⟨hparsed, .inl hmethod, hlog₃.subset hsaw, fun _ => hb, hadmitted⟩
      refine (conducts_storeTarget_new hmaking _ _ _).bind ?_
      exact fun _ _ _ => conducts_passive (uses_finishWrite (fun _ _ => trivial) trivial)

theorem conducts_patchHandler (hmethod : req.method = .patch) :
    Conducts s req seen (s.patchHandler req) := by
  refine conducts_check_bind fun target hparsed => conducts_check_bind fun patch hpatch => ?_
  refine (conducts_reads (perused_authorizeMode _ _ _).reads).bind fun log₁ granted _ => ?_
  refine conducts_check_bind fun _ _ => conducts_check_bind fun _ _ => ?_
  refine conducts_readCurrent_bind (fun log₂ res _ hsaw => ?_) fun log₂ _ hsaw => ?_
  · refine conducts_check_bind fun _ _ => conducts_check_bind fun patched _ => ?_
    refine (conducts_storeTarget_old hparsed (.inr hmethod) hsaw _ _ _).bind ?_
    exact fun _ _ _ => conducts_passive (uses_finishWrite (fun _ _ => trivial) trivial)
  · have hnotPut : req.method ≠ .put := by
      rw [hmethod]
      decide
    have hmaking : Making s req log₂ target :=
      ⟨hparsed, .inr hmethod, hsaw, fun hput => absurd hput hnotPut,
        fun hput => absurd hput hnotPut, fun _ => ⟨patch, hpatch⟩⟩
    refine conducts_check_bind fun _ _ => conducts_check_bind fun patched _ => ?_
    refine (conducts_storeTarget_new hmaking _ _ _).bind ?_
    exact fun _ _ _ => conducts_passive (uses_finishWrite (fun _ _ => trivial) trivial)

theorem isMintedChar_hex {n : Nat} {c : Char} (h : c ∈ Text.hex n) : isMintedChar c = true := by
  have hdigits : ∀ d : Fin 16, isMintedChar (Nat.digitChar d) = true := by decide
  obtain ⟨d, rfl⟩ := Text.mem_hex h
  exact hdigits d

theorem plainChild_candidate {stem : Text} (hstem : ∀ c ∈ stem, isMintedChar c = true)
    (seed n attempt : Nat) (asContainer : Bool) :
    PlainChild container (childCandidate (Text.trimEndMatches container '/') stem seed n attempt
      asContainer) := by
  refine ⟨stem ++ "-".toList ++ Text.hex seed ++ "-".toList ++ Text.hex n ++ "-".toList ++
    Text.hex attempt ++ (if asContainer then "/".toList else []), by simp [childCandidate], ?_⟩
  have hdash : ∀ c ∈ "-".toList, isMintedChar c = true := List.all_eq_true.mp rfl
  have hslash : ∀ c ∈ (if asContainer then "/".toList else []), isMintedChar c = true := by
    cases asContainer with
    | true => exact List.all_eq_true.mp rfl
    | false => exact List.all_eq_true.mp rfl
  intro c hc
  simp only [List.mem_append] at hc
  rcases hc with ((((((hc | hc) | hc) | hc) | hc) | hc) | hc) | hc
  · exact hstem c hc
  · exact hdash c hc
  · exact isMintedChar_hex hc
  · exact hdash c hc
  · exact isMintedChar_hex hc
  · exact hdash c hc
  · exact isMintedChar_hex hc
  · exact hslash c hc

/-- What is left of a slug is plain. -/
theorem isMintedChar_sanitiseSlug {raw slug : Text} (h : sanitiseSlug raw = some slug) :
    ∀ c ∈ slug, isMintedChar c = true := by
  unfold sanitiseSlug at h
  simp only at h
  split_ifs at h
  obtain rfl := Option.some.inj h
  intro c hc
  have hkept := (List.mem_filter.mp hc).2
  simp only [decide_eq_true_eq] at hkept
  rcases hkept with h | rfl | rfl | rfl <;> simp [isMintedChar, *]

/-- A child's name: of the minted form, and free when it was looked for. -/
theorem conducts_generateLoop_bind {stem : Text} (hstem : '/' ∉ stem)
    (hplain : ∀ c ∈ stem, isMintedChar c = true) (seed : Nat) (asContainer : Bool) (left : Nat)
    {f : Iri → Server β}
    (hf : ∀ log child, seen <+: log → Minted container child → PlainChild container child → SawExists log child false → Conducts s req log (f child))
    :
    Conducts s req seen
      (generateLoop (Text.trimEndMatches container '/') stem seed asContainer left >>= f) := by
  induction left generalizing seen with
  | zero => exact conducts_throw _
  | succ left ih =>
    unfold generateLoop
    rw [bind_assoc]
    refine conducts_perform_bind (.passive trivial) fun n => ?_
    have hup := List.prefix_append seen [(⟨.fetchAddCounter, n⟩ : Event storeSig)]
    simp only [bind_assoc]
    refine conducts_exists_bind fun log b hlog hb => ?_
    cases b with
    | true => exact ih fun log' child hlog' => hf log' child ((hup.trans hlog).trans hlog')
    | false =>
      exact hf log _ (hup.trans hlog) ⟨stem, seed, n, _, asContainer, hstem, rfl⟩
        (plainChild_candidate hplain _ _ _ _) hb

theorem conducts_postToContainer {container : LdpTarget} (hmethod : req.method = .post)
    (hparsed : parseTarget s.baseUrl req.path = .ok container)
    (hcontainer : container.isContainer = true) :
    Conducts s req seen (s.postToContainer container.iri req) := by
  refine conducts_check_bind fun contentType _ => conducts_check_bind fun _ _ => ?_
  unfold mintChildIri
  rw [bind_assoc]
  refine conducts_perform_bind (.passive trivial) fun t => ?_
  refine conducts_generateLoop_bind ?_ ?_ _ _ _ fun log child _ hminted hplain hfree => ?_
  · cases hstem : (headerStr req.headers .slug).bind sanitiseSlug with
    | none => decide
    | some t =>
      obtain ⟨raw, -, hraw⟩ := Option.bind_eq_some_iff.mp hstem
      exact slash_not_mem_sanitiseSlug hraw
  · cases hstem : (headerStr req.headers .slug).bind sanitiseSlug with
    | none => exact List.all_eq_true.mp rfl
    | some t =>
      obtain ⟨raw, -, hraw⟩ := Option.bind_eq_some_iff.mp hstem
      exact isMintedChar_sanitiseSlug hraw
  refine conducts_check_bind fun storedType _ => ?_
  refine Conducts.bind (conducts_createInContainer fun log' m hlog' => ?_) fun log' m _ => ?_
  · exact .mint hmethod hparsed hcontainer hminted hplain (hlog'.subset hfree)
  · exact (conducts_passive (uses_notify fun _ _ => trivial)).bind fun _ _ _ => conducts_pure _

theorem conducts_postHandler (hmethod : req.method = .post) :
    Conducts s req seen (s.postHandler req) := by
  refine conducts_check_bind fun container hparsed => ?_
  refine (conducts_reads (perused_authorizeMode _ _ _).reads).bind fun log granted _ => ?_
  cases hcontainer : container.isContainer with
  | false => exact conducts_reads (perused_postToResource _ _ _).reads
  | true =>
    exact (conducts_reads (perused_requireContainer _ _ _).reads).bind fun _ _ _ =>
      conducts_postToContainer hmethod hparsed hcontainer

theorem conducts_deleteHandler (hmethod : req.method = .delete) :
    Conducts s req seen (s.deleteHandler req) := by
  refine conducts_check_bind fun target hparsed => ?_
  refine (conducts_reads (perused_authorizeMode _ _ _).reads).bind fun log₁ granted _ => ?_
  have hreads : (s.authorizeRemoval target.iri req.requester).Uses (S := storeSig) Reads :=
    (perused_onNearest target.iri .write req.requester).reads
  refine (conducts_reads hreads).bind fun log₂ _ _ => conducts_check_bind fun _ _ => ?_
  refine conducts_meta?_bind (fun log₃ m _ hsaw => ?_) fun _ _ _ => conducts_throw _
  refine conducts_check_bind fun _ _ => ?_
  have hdrop : Dropping s req log₃ target := ⟨hparsed, hmethod, hsaw⟩
  cases hcontainer : target.isContainer with
  | true =>
    refine ⟨.removeContainer hdrop hcontainer, fun r => ?_⟩
    rcases r with e | _ | _ | _
    · exact conducts_throw _
    · exact (conducts_passive (uses_notify fun _ _ => trivial)).bind fun _ _ _ => conducts_pure _
    · exact conducts_throw _
    · exact conducts_throw _
  | false =>
    refine (conducts_delete hdrop hcontainer).bind fun log₄ _ _ => ?_
    refine (conducts_passive (uses_invalidateAclIfAcl trivial)).bind fun log₅ _ _ => ?_
    exact (conducts_passive (uses_notify fun _ _ => trivial)).bind fun _ _ _ => conducts_pure _

/-- **No change without a reason**: whatever a request is answered, every change it makes to the
index is justified by what it has seen. -/
theorem conducts_serve (s : LdpState) (req : Request) : Conducts s req [] (s.serve req) := by
  unfold serve
  cases hmethod : req.method with
  | get => exact conducts_reads (perused_serveRead req true).reads
  | head => exact conducts_reads (perused_serveRead req false).reads
  | put => exact conducts_putHandler hmethod
  | post => exact conducts_postHandler hmethod
  | patch => exact conducts_patchHandler hmethod
  | delete => exact conducts_deleteHandler hmethod
  | options => exact conducts_pure _

/-! ## §6 No edge is taken without the record -/

/-- The last step was not the removal of an edge. -/
def Clear (log : List (Event storeSig)) : Prop :=
  ∀ c x, log.getLast? ≠ some ⟨.removeChild c x, .ok ()⟩

/-- After the removal of an edge the record goes. -/
def FollowsUp (seen : List (Event storeSig)) (o : StoreOp) : Prop :=
  ∀ c x, seen.getLast? = some ⟨.removeChild c x, .ok ()⟩ → o = .deleteMeta x

theorem Clear.followsUp (h : Clear seen) (o : StoreOp) : FollowsUp seen o :=
  fun c x hlast => absurd hlast (h c x)

theorem clear_concat {r : o.Res} (ho : ∀ c x, o ≠ .removeChild c x) : Clear (seen ++ [⟨o, r⟩]) := by
  intro c x hlast
  rw [List.getLast?_concat, Option.some.injEq] at hlast
  exact ho c x (congrArg Event.op hlast)

/-- A program that ends, and goes on, with no edge taken. -/
def Tidies (seen : List (Event storeSig)) (p : Server α) : Prop :=
  Clear seen → Heeds (S := storeSig) FollowsUp seen p fun log _ => Clear log

theorem Tidies.bind {p : Server α} {f : α → Server β} (hp : Tidies seen p)
    (hf : ∀ log a, Tidies log (f a)) : Tidies seen (p >>= f) :=
  fun hseen => Heeds.bind (hp hseen) (fun log a h => hf log a h) fun _ _ h => h

theorem tidies_of_uses (hp : p.Uses (S := storeSig) fun o => ∀ c x, o ≠ .removeChild c x) :
    Tidies seen p := by
  intro hseen
  induction p generalizing seen with
  | ret r => exact hseen
  | step o k ih => exact ⟨hseen.followsUp o, fun r => ih r (hp.2 r) (clear_concat hp.1)⟩

theorem tidies_passive (hp : p.Uses (S := storeSig) Passive) : Tidies seen p :=
  tidies_of_uses (hp.mono fun o ho c x heq => by rw [heq] at ho; exact ho)

theorem tidies_reads (hp : p.Uses (S := storeSig) Reads) : Tidies seen p :=
  tidies_passive (hp.mono fun _ => Passive.of_reads)

theorem tidies_check (r : Except ServerError α) : Tidies seen (check r) := fun hseen => hseen

/-- Between the edge and the record there is no step. -/
theorem tidies_delete (iri : Iri) (parent : Option Iri) :
    Tidies seen (Store.delete iri parent) := by
  have hreap : ∀ log key, Clear log →
      Heeds (S := storeSig) FollowsUp log (reap key) fun log _ => Clear log := by
    intro log key
    refine tidies_passive ?_
    cases key with
    | none => trivial
    | some key => exact Uses.bind (uses_perform trivial) fun r => uses_orBlobStorage r
  have hrecord : ∀ log key, FollowsUp log (.deleteMeta iri) →
      Heeds (S := storeSig) FollowsUp log
        (perform (.deleteMeta iri) >>= fun r => orStorage r >>= fun _ => reap key)
        fun log _ => Clear log := by
    intro log key hnext
    refine ⟨hnext, fun r => ?_⟩
    have hclear : Clear (log ++ [⟨.deleteMeta iri, r⟩]) := clear_concat (by simp)
    cases r with
    | ok u => exact hreap _ key hclear
    | error e => exact hclear
  refine Tidies.bind (tidies_passive (Uses.bind (uses_perform trivial) fun r => ?_)) ?_
  · rcases r with (_ | _) | _ <;> trivial
  intro log key hlog
  cases parent with
  | none => exact hrecord log key (hlog.followsUp _)
  | some p =>
    refine ⟨hlog.followsUp _, fun r => ?_⟩
    cases r with
    | error e =>
      intro c x hlast
      simp at hlast
    | ok u =>
      refine hrecord _ key fun c x hlast => ?_
      rw [List.getLast?_concat, Option.some.injEq, Event.mk.injEq] at hlast
      rw [(StoreOp.removeChild.inj hlast.1).2]

theorem tidies_deleteHandler (req : Request) : Tidies seen (s.deleteHandler req) := by
  refine (tidies_check _).bind fun _ target => ?_
  refine (tidies_reads (perused_authorizeMode _ _ _).reads).bind fun _ granted => ?_
  have hreads : (s.authorizeRemoval target.iri req.requester).Uses (S := storeSig) Reads :=
    (perused_onNearest target.iri .write req.requester).reads
  refine (tidies_reads hreads).bind fun _ _ => (tidies_check _).bind fun _ _ => ?_
  refine (tidies_reads (reads_meta? _)).bind fun _ current => ?_
  cases current with
  | none => exact tidies_check (.error _)
  | some m =>
    refine (tidies_check _).bind fun _ _ => ?_
    cases target.isContainer with
    | true =>
      refine tidies_of_uses (Uses.bind (Uses.bind (uses_perform (by simp)) fun r => ?_) fun r => ?_)
      · exact uses_orStorage r
      · cases r with
        | deleted =>
          exact Uses.bind (uses_notify (by simp)) fun _ => trivial
        | notEmpty => trivial
        | notFound => trivial
    | false =>
      refine (tidies_delete _ _).bind fun _ _ => ?_
      refine (tidies_passive (uses_invalidateAclIfAcl trivial)).bind fun _ _ => ?_
      exact (tidies_passive (uses_notify fun _ _ => trivial)).bind fun _ _ => tidies_check (.ok _)

/-- **An edge and its record go together**: no request stops between the two. -/
theorem tidies_serve (s : LdpState) (req : Request) : Tidies [] (s.serve req) := by
  by_cases hmethod : req.method = .delete
  · unfold serve
    rw [hmethod]
    exact tidies_deleteHandler req
  · refine tidies_of_uses (Heeds.uses (conducts_serve s req) fun log o ho c x heq => ?_)
    subst heq
    cases ho with
    | passive h => exact h
    | unlink h => exact hmethod h.method

end SolidServer.Ldp.LdpState
