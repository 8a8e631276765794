import Mathlib.Data.Finset.Preimage
import Mathlib.Data.Fintype.EquivFin
import SolidServer.Ldp.Denial

/-!
# What a writer who may not read learns

Two backends are `Twins` when they differ only in the stored representation of one target.
A request is run from two worlds that differ only in such backends (`Beside`), and the two
responses are compared.

Until the target's own record is looked at, the two runs agree step by step: authorization
reads ACLs and asks which containers exist (`SameAnswer`).  `PUT` and `DELETE` then use of the
record only that it is there, because concrete entity tags are refused to a requester who may
not read, so the responses are the same (`write_reveals_nothing`).  `PATCH` merges into the
stored graph and answers with the tag of the result, so the response does depend on the
content, unless the request stops before (`patch_hidden_iff`).
-/

namespace SolidServer.Ldp.LdpState

open SolidServer.Effects SolidServer.Effects.Program SolidServer.Store SolidServer.Authz

variable {s : LdpState} {w w₁ w₂ : World} {α β : Type}

/-! ## §1 Stores that differ in one representation -/

/-- Two backends that differ only in the stored representation of `target`: the record, and the
bytes it points at. -/
structure Twins (target : Iri) (m₁ m₂ : ResourceMeta) (b₁ b₂ : Backend) : Prop where
  stored₁ : b₁.index.meta? target = some m₁
  stored₂ : b₂.index.meta? target = some m₂
  records : ∀ iri, iri ≠ target → b₂.index.meta? iri = b₁.index.meta? iri
  children : b₂.index.children = b₁.index.children
  blobs : ∀ key, key ≠ m₁.blobKey → key ≠ m₂.blobKey →
    b₂.blobs.lookup key = b₁.blobs.lookup key

/-- Two worlds with these backends and nothing else to tell them apart. -/
structure Beside (b₁ b₂ : Backend) (w₁ w₂ : World) : Prop where
  backend : w₁.backend = b₁
  rest : w₂ = { w₁ with backend := b₂ }

/-- The keys of the target's bytes are not those of any other record. -/
def KeysApart (target : Iri) (m₁ m₂ : ResourceMeta) (b : Backend) : Prop :=
  ∀ iri m, iri ≠ target → b.index.meta? iri = some m →
    m.blobKey ≠ m₁.blobKey ∧ m.blobKey ≠ m₂.blobKey

section
variable {target : Iri} {m₁ m₂ : ResourceMeta} {b₁ b₂ : Backend}

theorem Twins.keysApart (h : Twins target m₁ m₂ b₁ b₂) (hb : Beside b₁ b₂ w₁ w₂)
    (hc₁ : Consistent w₁) (hc₂ : Consistent w₂) : KeysApart target m₁ m₂ b₁ := by
  intro iri m hne hm
  obtain ⟨rfl, rfl⟩ := hb
  constructor
  · exact fun hkey => hne (hc₁.keys iri target m m₁ hm h.stored₁ hkey)
  · have hm₂ : b₂.index.meta? iri = some m := (h.records iri hne).trans hm
    exact fun hkey => hne (hc₂.keys iri target m m₂ hm₂ h.stored₂ hkey)

theorem Twins.isSome_meta? (h : Twins target m₁ m₂ b₁ b₂) (iri : Iri) :
    (b₂.index.meta? iri).isSome = (b₁.index.meta? iri).isSome := by
  by_cases hi : iri = target
  · subst hi
    rw [h.stored₁, h.stored₂]
    rfl
  · rw [h.records iri hi]

theorem Twins.childrenOf (h : Twins target m₁ m₂ b₁ b₂) (c : Iri) :
    b₂.index.childrenOf c = b₁.index.childrenOf c := by
  unfold Index.childrenOf
  rw [h.children]

theorem Twins.record? (h : Twins target m₁ m₂ b₁ b₂) (hk : KeysApart target m₁ m₂ b₁) {iri : Iri}
    (hne : iri ≠ target) : b₂.record? iri = b₁.record? iri := by
  unfold Backend.record?
  rw [h.records iri hne]
  cases hm : b₁.index.meta? iri with
  | none => rfl
  | some m =>
    obtain ⟨hk₁, hk₂⟩ := hk iri m hne hm
    simp only [Option.map_some, h.blobs m.blobKey hk₁ hk₂]

/-! ## §2 Steps that do not tell the twins apart -/

/-- The steps that twins answer alike, and that change neither. -/
def SameAnswer (target : Iri) (m₁ m₂ : ResourceMeta) : StoreOp → Prop
  | .getMeta iri => iri ≠ target
  | .readPlan slot candidates => slot ≠ target ∧ ∀ c ∈ candidates, c ≠ target
  | .blobGet key => key ≠ m₁.blobKey ∧ key ≠ m₂.blobKey
  | .exists_ _ | .bodyCacheGet _ _ | .bodyCacheInsert _ _ _ | .aclCacheGet _ _ _
  | .aclCacheInsert _ _ _ _ | .now => True
  | _ => False

theorem sameAnswer_step (h : Twins target m₁ m₂ b₁ b₂) (v₁ v₂ : World) (o : StoreOp)
    (ho : SameAnswer target m₁ m₂ o) (hb : Beside b₁ b₂ v₁ v₂) :
    (World.sem v₁ o).1 = (World.sem v₂ o).1 ∧
      Beside b₁ b₂ (World.sem v₁ o).2 (World.sem v₂ o).2 := by
  obtain ⟨rfl, rfl⟩ := hb
  cases o with
  | getMeta iri => exact ⟨by simp only [World.sem, h.records iri ho], rfl, rfl⟩
  | exists_ iri => exact ⟨by simp only [World.sem, h.isSome_meta? iri], rfl, rfl⟩
  | readPlan slot candidates =>
    have hrows : b₂.index.readPlan slot candidates =
        v₁.backend.index.readPlan slot candidates := by
      unfold Index.readPlan
      rw [h.records slot ho.1]
      congr 1
      exact List.map_congr_left fun c hc => by rw [h.records c (ho.2 c hc)]
    exact ⟨by simp only [World.sem, hrows], rfl, rfl⟩
  | blobGet key => exact ⟨by simp only [World.sem, h.blobs key ho.1 ho.2], rfl, rfl⟩
  | bodyCacheGet | bodyCacheInsert | aclCacheGet | aclCacheInsert | now => exact ⟨rfl, rfl, rfl⟩
  | _ => exact ho.elim

/-- **Agreement of the reading part**: a program of such steps runs alike in both worlds. -/
theorem agree_of_sameAnswer (h : Twins target m₁ m₂ b₁ b₂) {p : Server α}
    (hp : p.Uses (S := storeSig) (SameAnswer target m₁ m₂)) (hb : Beside b₁ b₂ w₁ w₂) :
    Agree World.sem p p w₁ w₂ (Beside b₁ b₂) :=
  Couples.of_uses hp (fun v₁ v₂ o ho => sameAnswer_step h v₁ v₂ o ho) hb

end

/-! ## §3 Authorization does not tell the twins apart -/

section
variable {target : Iri} {m₁ m₂ : ResourceMeta} {b₁ b₂ : Backend}
  (h : Twins target m₁ m₂ b₁ b₂) (hk : KeysApart target m₁ m₂ b₁)
include h hk

theorem agree_readAclConfirmed (hb : Beside b₁ b₂ w₁ w₂) {acl : Iri} (hne : acl ≠ target) :
    Agree World.sem (s.wac.readAclConfirmed acl) (s.wac.readAclConfirmed acl) w₁ w₂
      (Beside b₁ b₂) := by
  have hprobe : (meta? acl).Uses (S := storeSig) (SameAnswer target m₁ m₂) :=
    Uses.bind (uses_perform hne) fun r => by rcases r with (_ | _) | _ <;> trivial
  refine Couples.bind_agree (agree_of_sameAnswer h hprobe hb) ?_ fun e v₁ v₂ hv => ⟨rfl, hv⟩
  intro r v₁ v₂ hrun hv
  cases r with
  | none => exact ⟨rfl, hv⟩
  | some m =>
    -- the record probed is one of the first store, so its bytes are not the target's
    have hm : b₁.index.meta? acl = some m := by
      have hfst := congrArg Prod.fst hrun
      rw [show (meta? acl).run World.sem w₁ = exec (meta? acl) w₁ from rfl, exec_meta?] at hfst
      rw [← hb.backend]
      exact meta_of_probe hfst
    refine agree_of_sameAnswer h ?_ hv
    refine uses_readThroughCache trivial (fun _ => trivial) (fun _ _ _ => trivial) ?_
    refine Uses.bind ?_ fun _ => trivial
    exact uses_fetchBody m trivial (hk acl m hne hm) fun _ => trivial

theorem agree_resolvePlannedLoop (rows : List (AclCandidate × Iri × Option Text))
    (hrows : ∀ row ∈ rows, row.1.acl ≠ target) (idx : Nat) (hb : Beside b₁ b₂ w₁ w₂) :
    Agree World.sem (s.wac.resolvePlannedLoop idx rows) (s.wac.resolvePlannedLoop idx rows) w₁ w₂
      (Beside b₁ b₂) := by
  induction rows generalizing idx w₁ w₂ with
  | nil => exact ⟨rfl, hb⟩
  | cons row rows ih =>
    obtain ⟨candidate, planIri, etag⟩ := row
    obtain ⟨hrow, hrest⟩ := List.forall_mem_cons.mp hrows
    unfold WacAuthorizer.resolvePlannedLoop
    by_cases hplan : candidate.acl ≠ planIri
    · rw [if_pos hplan]
      exact ⟨rfl, hb⟩
    · rw [if_neg hplan]
      cases etag with
      | none => exact ih hrest (idx + 1) hb
      | some tag =>
        refine Couples.bind_agree (agree_readAclConfirmed h hk hb hrow) ?_
          fun e v₁ v₂ hv => ⟨rfl, hv⟩
        intro r v₁ v₂ _ hv
        cases r with
        | none => exact ih hrest (idx + 1) hv
        | some triples => exact ⟨rfl, hv⟩

/-- An authorization on any resource, while the target is not an ACL. -/
theorem agree_authorizePlannedIri (hacl : isAclResource target = false)
    (hb : Beside b₁ b₂ w₁ w₂) (iri : Iri) (mode : AccessMode) (requester : Requester) :
    Agree World.sem (s.authorizePlannedIri iri mode requester)
      (s.authorizePlannedIri iri mode requester) w₁ w₂ (Beside b₁ b₂) := by
  have hne : ∀ acl, isAclResource acl = true → acl ≠ target := by
    rintro acl hisAcl rfl
    rw [hisAcl] at hacl
    cases hacl
  have hacls : ∀ c ∈ planAcls s.baseUrl iri, c ≠ target := by
    intro acl hmem
    obtain ⟨c, hc, rfl⟩ := List.mem_map.mp hmem
    exact hne c.acl (isAclResource_candidate hc)
  rw [authorizePlannedIri_eq]
  refine Couples.bind_agree (R := Beside b₁ b₂) ?_ (fun r v₁ v₂ _ hv => ⟨rfl, hv⟩)
    fun e v₁ v₂ hv => ⟨rfl, hv⟩
  refine Couples.bind_agree (agree_of_sameAnswer h ?_ hb) ?_ fun e v₁ v₂ hv => ⟨rfl, hv⟩
  · exact Uses.bind (uses_perform ⟨hne _ (isAclResource_aclFor _), hacls⟩) fun r => uses_orNotFound r
  · intro plan v₁ v₂ _ hv
    unfold WacAuthorizer.resolveEffectiveAclPlanned
    split_ifs
    · exact ⟨rfl, hv⟩
    · refine agree_resolvePlannedLoop h hk _ (fun row hrow => ?_) 0 hv
      exact hacls _ (List.mem_map_of_mem (List.of_mem_zip hrow).1)

end

/-! ## §4 Runs with the same result -/

/-- The two runs end in the same result. -/
def SameResult (p q : Server α) (w₁ w₂ : World) : Prop :=
  Couples World.sem p q w₁ w₂ fun r₁ r₂ _ _ => r₁ = r₂

variable {p : Server α} {f g : α → Server β} {headers : HeaderMap} {iri : Iri} {m₁ : ResourceMeta}

theorem sameResult_of_agree {q : Server α} {R : World → World → Prop}
    (h : Agree World.sem p q w₁ w₂ R) : SameResult p q w₁ w₂ := h.1

theorem sameResult_bind {q : Server α} {R : World → World → Prop}
    (hpq : Agree World.sem p q w₁ w₂ R)
    (hok : ∀ a v₁ v₂, exec p w₁ = (.ok a, v₁) → R v₁ v₂ → SameResult (f a) (g a) v₁ v₂) :
    SameResult (p >>= f) (q >>= g) w₁ w₂ :=
  Couples.bind_agree hpq hok fun _ _ _ _ => rfl

theorem sameResult_check {r₁ r₂ : Except ServerError α} (hr : r₁ = r₂)
    (hok : ∀ a, r₁ = .ok a → SameResult (f a) (g a) w₁ w₂) :
    SameResult (check r₁ >>= f) (check r₂ >>= g) w₁ w₂ := by
  subst hr
  cases r₁ with
  | ok a => exact hok a rfl
  | error e => exact rfl

/-- Nothing but the backends tells the worlds apart. -/
def UpToBackend (v₁ v₂ : World) : Prop := ∃ b, v₂ = { v₁ with backend := b }

/-- The steps whose answer does not depend on what is stored. -/
def Oblivious : StoreOp → Prop
  | .putMeta _ _ | .deleteMeta _ | .removeChild _ _ | .blobPut _ _ | .blobDelete _
  | .aclCacheInvalidate _ | .now | .random | .fanOut _ _ => True
  | _ => False

theorem oblivious_step (v₁ v₂ : World) (o : StoreOp) (ho : Oblivious o) (h : UpToBackend v₁ v₂) :
    (World.sem v₁ o).1 = (World.sem v₂ o).1 ∧
      UpToBackend (World.sem v₁ o).2 (World.sem v₂ o).2 := by
  obtain ⟨b, rfl⟩ := h
  cases o with
  | putMeta | deleteMeta | removeChild | blobPut | blobDelete =>
    -- the fault table is the same on both sides, and only a fault can refuse the step
    simp only [World.sem]
    split
    · exact ⟨rfl, b, rfl⟩
    · exact ⟨rfl, _, rfl⟩
  | aclCacheInvalidate | now | random | fanOut => exact ⟨rfl, b, rfl⟩
  | _ => exact ho.elim

theorem agree_of_oblivious (hp : p.Uses (S := storeSig) Oblivious) (h : UpToBackend w₁ w₂) :
    Agree World.sem p p w₁ w₂ UpToBackend :=
  Couples.of_uses hp oblivious_step h

theorem oblivious_write (iri : Iri) (body : Bytes) (contentType : Text) :
    (write iri body contentType).Uses (S := storeSig) Oblivious :=
  uses_write (uses_stage trivial (fun _ => trivial) trivial) fun _ => trivial

/-! ## §5 `PUT` and `DELETE` -/

theorem spec_of_exec {Q : Except ServerError α → World → Prop} {r : Except ServerError α}
    {v : World} (h : Spec p w Q) (hrun : exec p w = (r, v)) : Q r v := by
  have hQ : Q (exec p w).1 (exec p w).2 := h
  rwa [hrun] at hQ

/-- A conditional header that carries no entity tag reads as a wildcard, or not at all. -/
theorem isWildcard_of_not_carries {name : HeaderName}
    (h : conditionalCarriesEtag headers name = false) {t : Text}
    (ht : headerStr headers name = some t) : isWildcard t = true := by
  unfold conditionalCarriesEtag at h
  unfold headerStr at ht
  cases hget : headers.get name with
  | none => simp [hget] at ht
  | some v =>
    simp only [hget, Option.bind_some] at ht
    simpa [hget, ht] using h

/-- What passes the guard without the read mode carries no entity tag. -/
theorem not_carries_of_guard {granted : Finset AccessMode} {webId : Option Iri}
    (hread : readMode iri ∉ granted)
    (h : s.guardConditionalRequiresRead iri headers granted webId = .ok ()) :
    conditionalCarriesEtag headers .ifMatch = false ∧
      conditionalCarriesEtag headers .ifNoneMatch = false := by
  unfold guardConditionalRequiresRead guardRead at h
  split_ifs at h with hcarries
  simpa using hcarries

/-- **The guard and the evaluator agree**: behind the guard, preconditions see of a stored record
only that it is there. -/
theorem checkPreconditions_alike (him : conditionalCarriesEtag headers .ifMatch = false)
    (hinm : conditionalCarriesEtag headers .ifNoneMatch = false) (tag₁ tag₂ : Text) :
    checkPreconditions headers (some tag₁) = checkPreconditions headers (some tag₂) := by
  exact congrArg require (evaluate_wildcards (fun _ => isWildcard_of_not_carries him)
    (fun _ => isWildcard_of_not_carries hinm) rfl)

theorem sameAnswer_nearestLoop {target : Iri} {m₂ : ResourceMeta} (root : Iri) (fuel : Nat)
    (current : Text) :
    (nearestLoop root fuel current).Uses (S := storeSig) (SameAnswer target m₁ m₂) := by
  induction fuel generalizing current with
  | zero => trivial
  | succ fuel ih =>
    unfold nearestLoop
    cases Text.throughLast current '/' with
    | none => trivial
    | some parent =>
      refine Uses.bind (Uses.bind (uses_perform trivial) fun r => uses_orStorage r) fun there => ?_
      split_ifs
      · trivial
      · trivial
      · exact ih parent.dropLast

section
variable {target : Iri} {m₁ m₂ : ResourceMeta} {b₁ b₂ : Backend}
  (h : Twins target m₁ m₂ b₁ b₂)
include h

/-- A probe of the target itself: a fault for both, or each store's own record. -/
theorem couples_probe_bind {γ : Type} {p : Server γ} {φ : Option ResourceMeta → γ}
    {f g : γ → Server β} {Q : Except ServerError β → Except ServerError β → World → World → Prop}
    (hp : ∀ w, exec p w = ((probe w target).map φ, w)) (hb : Beside b₁ b₂ w₁ w₂)
    (herr : ∀ e, Q (.error e) (.error e) w₁ w₂)
    (hok : Couples World.sem (f (φ (some m₁))) (g (φ (some m₂))) w₁ w₂ Q) :
    Couples World.sem (p >>= f) (p >>= g) w₁ w₂ Q := by
  obtain ⟨rfl, rfl⟩ := hb
  show Q (exec (p >>= f) w₁).1 (exec (p >>= g) _).1 (exec (p >>= f) w₁).2 (exec (p >>= g) _).2
  simp only [exec_bind, hp, probe, h.stored₁, h.stored₂]
  cases w₁.faults.indexRead target with
  | some e => exact herr _
  | none => exact hok

theorem sameResult_meta?_bind {f g : Option ResourceMeta → Server β} (hb : Beside b₁ b₂ w₁ w₂)
    (hfg : SameResult (f (some m₁)) (g (some m₂)) w₁ w₂) :
    SameResult (meta? target >>= f) (meta? target >>= g) w₁ w₂ := by
  refine couples_probe_bind (φ := id) h (fun w => ?_) hb (fun _ => rfl) hfg
  rw [exec_meta?]
  cases probe w target <;> rfl

theorem agree_rejectSlashSemanticsConflict (hb : Beside b₁ b₂ w₁ w₂) (t : LdpTarget) :
    Agree World.sem (rejectSlashSemanticsConflict t) (rejectSlashSemanticsConflict t) w₁ w₂
      (Beside b₁ b₂) := by
  refine agree_of_sameAnswer h ?_ hb
  refine Uses.bind (Uses.bind (uses_perform trivial) fun r => uses_orStorage r) fun there => ?_
  cases there <;> trivial

variable (hk : KeysApart target m₁ m₂ b₁) (hacl : isAclResource target = false)
include hk hacl

theorem agree_authorizeMode (hb : Beside b₁ b₂ w₁ w₂) (iri : Iri) (mode : AccessMode)
    (requester : Requester) :
    Agree World.sem (s.authorizeMode iri mode requester) (s.authorizeMode iri mode requester)
      w₁ w₂ (Beside b₁ b₂) := by
  refine Couples.bind_agree (agree_authorizePlannedIri h hk hacl hb iri _ requester) ?_
    fun e v₁ v₂ hv => ⟨rfl, hv⟩
  intro d v₁ v₂ _ hv
  cases d <;> exact ⟨rfl, hv⟩

theorem agree_authorizeIri (hb : Beside b₁ b₂ w₁ w₂) (iri : Iri) (mode : AccessMode)
    (requester : Requester) :
    Agree World.sem (s.authorizeIri iri mode requester) (s.authorizeIri iri mode requester)
      w₁ w₂ (Beside b₁ b₂) := by
  refine Couples.bind_agree (agree_authorizePlannedIri h hk hacl hb iri _ requester) ?_
    fun e v₁ v₂ hv => ⟨rfl, hv⟩
  intro d v₁ v₂ _ hv
  cases d <;> exact ⟨rfl, hv⟩

theorem agree_authorizeRemoval (hb : Beside b₁ b₂ w₁ w₂) (iri : Iri) (requester : Requester) :
    Agree World.sem (s.authorizeRemoval iri requester) (s.authorizeRemoval iri requester)
      w₁ w₂ (Beside b₁ b₂) := by
  unfold authorizeRemoval
  split_ifs
  · exact ⟨rfl, hb⟩
  · refine Couples.bind_agree (agree_of_sameAnswer h (sameAnswer_nearestLoop _ _ _) hb) ?_
      fun e v₁ v₂ hv => ⟨rfl, hv⟩
    intro c v₁ v₂ _ hv
    cases c with
    | some c => exact agree_authorizeIri h hk hacl hv c .write requester
    | none => exact ⟨rfl, hv⟩

end

/-- Deleting the bytes of either representation. -/
theorem agree_reap {key₁ key₂ : Text} (hv : UpToBackend w₁ w₂)
    (hkeys : w₁.faults.blobDelete key₁ = w₁.faults.blobDelete key₂) :
    Agree World.sem (reap (some key₁)) (reap (some key₂)) w₁ w₂ UpToBackend := by
  obtain ⟨b, rfl⟩ := hv
  refine Couples.bind_agree (R := UpToBackend) ?_ ?_ fun e v₁ v₂ hv => ⟨rfl, hv⟩
  · show Except.ok (World.sem w₁ (.blobDelete key₁)).1 =
        Except.ok (World.sem { w₁ with backend := b } (.blobDelete key₂)).1 ∧
      UpToBackend (World.sem w₁ (.blobDelete key₁)).2
        (World.sem { w₁ with backend := b } (.blobDelete key₂)).2
    simp only [World.sem, ← hkeys]
    cases w₁.faults.blobDelete key₁ with
    | some e => exact ⟨rfl, b, rfl⟩
    | none => exact ⟨rfl, _, rfl⟩
  · intro r v₁ v₂ _ hv
    exact agree_of_oblivious (uses_orBlobStorage r) hv

theorem faults_of_exec {r : Except ServerError α} {v : World} (hrun : exec p w = (r, v)) :
    v.faults = w.faults := by
  rw [← faults_exec p w, hrun]

section
variable {target : Iri} {m₁ m₂ : ResourceMeta} {b₁ b₂ : Backend}
  (h : Twins target m₁ m₂ b₁ b₂) (hb : Beside b₁ b₂ w₁ w₂)
include h hb

/-- Removing the target: the keys to reap differ, the answers do not. -/
theorem agree_delete (hkeys : w₁.faults.blobDelete m₁.blobKey = w₁.faults.blobDelete m₂.blobKey)
    (parent : Option Iri) :
    Agree World.sem (Store.delete target parent) (Store.delete target parent) w₁ w₂
      UpToBackend := by
  have hrest : Agree World.sem
      (do unlink target parent
          orStorage (← perform (.deleteMeta target))
          reap (some m₁.blobKey))
      (do unlink target parent
          orStorage (← perform (.deleteMeta target))
          reap (some m₂.blobKey)) w₁ w₂ UpToBackend := by
    have hunlink : (unlink target parent).Uses (S := storeSig) Oblivious := by
      cases parent with
      | none => trivial
      | some p => exact Uses.bind (uses_perform trivial) fun r => uses_orStorage r
    refine Couples.bind_agree (agree_of_oblivious hunlink ⟨b₂, hb.rest⟩) ?_
      fun e v₁ v₂ hv => ⟨rfl, hv⟩
    intro _ v₁ v₂ hrun₁ hv
    refine Couples.bind_agree (agree_of_oblivious (uses_perform trivial) hv) ?_
      fun e v₁ v₂ hv => ⟨rfl, hv⟩
    intro r u₁ u₂ hrun₂ hu
    refine Couples.bind_agree (agree_of_oblivious (uses_orStorage r) hu) ?_
      fun e v₁ v₂ hv => ⟨rfl, hv⟩
    intro _ x₁ x₂ hrun₃ hx
    refine agree_reap hx ?_
    rw [faults_of_exec hrun₃, faults_of_exec hrun₂, faults_of_exec hrun₁]
    exact hkeys
  exact couples_probe_bind (φ := fun m => m.map ResourceMeta.blobKey) h (exec_recordedKey target) hb
    (fun _ => ⟨rfl, b₂, hb.rest⟩) hrest

/-- Removing the target as a container: both stores list the same children for it. -/
theorem agree_deleteContainerIfEmpty (parent : Option Iri) :
    Agree World.sem (deleteContainerIfEmpty target parent) (deleteContainerIfEmpty target parent)
      w₁ w₂ UpToBackend := by
  have houtcome : (b₂.index.deleteMetaIfEmpty target parent).1 =
      (b₁.index.deleteMetaIfEmpty target parent).1 := by
    unfold Index.deleteMetaIfEmpty
    rw [h.stored₁, h.stored₂, h.childrenOf]
    split_ifs
    · rfl
    · cases parent <;> rfl
  obtain ⟨rfl, rfl⟩ := hb
  refine Couples.bind_agree (R := UpToBackend) ?_ ?_ fun e v₁ v₂ hv => ⟨rfl, hv⟩
  · show Except.ok (World.sem w₁ (.deleteMetaIfEmpty target parent)).1 =
        Except.ok (World.sem { w₁ with backend := b₂ } (.deleteMetaIfEmpty target parent)).1 ∧
      UpToBackend (World.sem w₁ (.deleteMetaIfEmpty target parent)).2
        (World.sem { w₁ with backend := b₂ } (.deleteMetaIfEmpty target parent)).2
    simp only [World.sem, houtcome]
    cases w₁.faults.indexWrite target with
    | some e => exact ⟨rfl, b₂, rfl⟩
    | none => exact ⟨rfl, _, rfl⟩
  · intro r v₁ v₂ _ hv
    exact agree_of_oblivious (uses_orStorage r) hv

end

section
variable {req : Request} {target : LdpTarget} {m₁ m₂ : ResourceMeta} {b₁ b₂ : Backend}
  (h : Twins target.iri m₁ m₂ b₁ b₂) (hk : KeysApart target.iri m₁ m₂ b₁)
  (hacl : isAclResource target.iri = false) (hb : Beside b₁ b₂ w₁ w₂) (hs₁ : Sound s.wac w₁)
  (hparse : parseTarget s.baseUrl req.path = .ok target)
  (hn : ¬ Granted s.wac w₁.backend target.iri req.requester (readMode target.iri))
include h hk hacl hb hs₁ hparse hn

omit h hk hacl hb hparse in
/-- A requester who may not read was granted other modes only. -/
theorem readMode_not_mem {mode : AccessMode} {granted : Finset AccessMode} {v : World}
    (hrun : exec (s.authorizeMode target.iri mode req.requester) w₁ = (.ok granted, v)) :
    readMode target.iri ∉ granted := by
  obtain ⟨-, hgranted⟩ := spec_of_exec (spec_authorizeMode hs₁ target.iri mode req.requester) hrun
  rw [(hgranted granted rfl).2]
  exact fun hmem => hn (granted_readMode.mpr hmem)

/-- `PUT` of a stored target that is not an ACL. -/
theorem sameResult_put : SameResult (s.putHandler req) (s.putHandler req) w₁ w₂ := by
  unfold putHandler
  rw [hparse, check_ok_bind]
  refine sameResult_bind (agree_authorizeMode h hk hacl hb target.iri _ req.requester) ?_
  intro granted v₁ v₂ hrun hv
  refine sameResult_check rfl fun _ hguard => ?_
  obtain ⟨him, hinm⟩ := not_carries_of_guard (readMode_not_mem hs₁ hn hrun) hguard
  refine sameResult_meta?_bind h hv ?_
  refine sameResult_bind (agree_rejectSlashSemanticsConflict h hv target) fun _ v₁ v₂ _ hv => ?_
  refine sameResult_check rfl fun contentType _ => ?_
  refine sameResult_check rfl fun storedType _ => ?_
  refine sameResult_check (checkPreconditions_alike him hinm _ _) fun _ _ => ?_
  -- an existing target is overwritten, and the answer shows the new body's tag
  refine sameResult_bind (agree_of_oblivious (oblivious_write target.iri req.body storedType)
    ⟨b₂, hv.rest⟩) fun m v₁ v₂ _ hv => ?_
  exact sameResult_of_agree (agree_of_oblivious (uses_finishWrite (fun _ _ => trivial) trivial) hv)

/-- `DELETE` of a stored target that is not an ACL. -/
theorem sameResult_delete
    (hkeys : w₁.faults.blobDelete m₁.blobKey = w₁.faults.blobDelete m₂.blobKey) :
    SameResult (s.deleteHandler req) (s.deleteHandler req) w₁ w₂ := by
  unfold deleteHandler
  rw [hparse, check_ok_bind]
  refine sameResult_bind (agree_authorizeMode h hk hacl hb target.iri _ req.requester) ?_
  intro granted v₁ v₂ hrun hv
  refine sameResult_bind (agree_authorizeRemoval h hk hacl hv target.iri req.requester) ?_
  intro _ u₁ u₂ hrun' hu
  refine sameResult_check rfl fun _ hguard => ?_
  obtain ⟨him, hinm⟩ := not_carries_of_guard (readMode_not_mem hs₁ hn hrun) hguard
  refine sameResult_meta?_bind h hu ?_
  refine sameResult_check (checkPreconditions_alike him hinm _ _) fun _ _ => ?_
  simp only [hacl, Bool.false_eq_true, if_false]
  split_ifs
  · refine sameResult_bind (agree_deleteContainerIfEmpty h hu _) fun outcome x₁ x₂ _ hx => ?_
    cases outcome with
    | deleted =>
      refine sameResult_of_agree (agree_of_oblivious ?_ hx)
      exact Uses.bind (uses_notify fun _ _ => trivial) fun _ => trivial
    | notEmpty => exact rfl
    | notFound => exact rfl
  · have hreap : u₁.faults.blobDelete m₁.blobKey = u₁.faults.blobDelete m₂.blobKey := by
      rw [faults_of_exec hrun', faults_of_exec hrun]
      exact hkeys
    refine sameResult_bind (agree_delete h hu hreap _) fun _ x₁ x₂ _ hx => ?_
    refine sameResult_of_agree (agree_of_oblivious ?_ hx)
    exact Uses.bind (uses_invalidateAclIfAcl trivial) fun _ =>
      Uses.bind (uses_notify fun _ _ => trivial) fun _ => trivial

end

/-! ## §6 An ACL as the target -/

/-- The result of an authorization, from the resolved ACL. -/
theorem exec_authorizeMode_fst (target : Iri) (mode : AccessMode) (requester : Requester) :
    (exec (s.authorizeMode target mode requester) w).1 =
      (exec (plannedResolution s.wac (aclFor (protectedResource target)) target) w).1.bind
        fun resolved => s.answerOf
          (WacAuthorizer.decisionFor resolved (requiredMode target mode) requester) := by
  unfold authorizeMode
  rw [exec_bind, authorizePlannedIri_eq, exec_bind]
  cases hrun : exec (plannedResolution s.wac (aclFor (protectedResource target)) target) w with
  | mk r v =>
    cases r with
    | error e => rfl
    | ok resolved =>
      simp only [Except.bind, requiredMode]
      generalize WacAuthorizer.decisionFor resolved _ requester = decision
      cases decision <;> rfl

theorem aclFor_protectedResource {acl : Iri} (h : isAclResource acl = true) :
    aclFor (protectedResource acl) = acl := by
  obtain ⟨pre, rfl⟩ := Text.endsWith_iff.mp h
  simp [protectedResource, h, aclFor]

/-- **An ACL governs itself**: whether a requester may touch a stored ACL is decided by that ACL
alone, so without `Control` the answer is the refusal, or the fault of the plan. -/
theorem exec_authorizeMode_acl (hs : Sound s.wac w) {acl : Iri} (hacl : isAclResource acl = true)
    {m : ResourceMeta} (hm : w.backend.index.meta? acl = some m)
    (hget : w.faults.blobGet m.blobKey = none) {requester : Requester}
    (hn : ¬ Granted s.wac w.backend acl requester .control) (mode : AccessMode) :
    (exec (s.authorizeMode acl mode requester) w).1 =
      match World.planFault w.faults acl (planAcls s.baseUrl acl) with
      | some e => .error (.storage e)
      | none => .error (s.refusal requester.webId) := by
  have hself := aclFor_protectedResource hacl
  rw [exec_authorizeMode_fst, hself]
  have hplanned := @exec_plannedResolution_fst s.wac w acl acl
  cases hplan : World.planFault w.faults acl (planAcls s.baseUrl acl) with
  | some e =>
    rw [show s.wac.baseUrl = s.baseUrl from rfl, hplan] at hplanned
    rw [hplanned]
    rfl
  | none =>
    rw [show s.wac.baseUrl = s.baseUrl from rfl, hplan] at hplanned
    obtain ⟨b, hb⟩ := hs.stored acl m hm
    have hidx : w.faults.indexRead acl = none :=
      List.findSome?_eq_none_iff.mp hplan acl List.mem_cons_self
    have hread : (exec (s.wac.readAclConfirmed acl) w).1 =
        .ok (some (s.wac.parseAclBody ⟨b, m⟩ acl)) := by
      rw [(answers_readAclConfirmed acl).complete hs hidx fun m' hm' => by
        rw [hm] at hm'; obtain rfl := Option.some.inj hm'; exact hget]
      rw [storedAcl_of_record hm hb]
    simp only [walk, resolution, hself, hread] at hplanned
    rw [plannedResolution_sound hs hplanned] at hplanned
    rw [hplanned]
    show s.answerOf _ = _
    rw [answerOf_decisionFor]
    refine verdict_of_not_granted ?_
    simpa [requiredMode, hacl] using hn

theorem sameResult_of_error {e : ServerError} (h₁ : (exec p w₁).1 = .error e)
    (h₂ : (exec p w₂).1 = .error e) :
    SameResult (p >>= f) (p >>= g) w₁ w₂ := by
  show (exec (p >>= f) w₁).1 = (exec (p >>= g) w₂).1
  rw [exec_bind_error (Prod.ext h₁ rfl : exec p w₁ = (.error e, _)),
    exec_bind_error (Prod.ext h₂ rfl : exec p w₂ = (.error e, _))]

/-! ## §7 Putting another representation in place -/

/-- The store with another record and other bytes for a resource. -/
def withRepresentation (b : Backend) (iri : Iri) (m : ResourceMeta) (body : Bytes) : Backend :=
  ⟨b.index.putMeta iri m, b.blobs.insert m.blobKey body⟩

theorem twins_withRepresentation {b : Backend} (h : b.index.meta? iri = some m₁) (m : ResourceMeta)
    (body : Bytes) :
    Twins iri m₁ m b (withRepresentation b iri m body) where
  stored₁ := h
  stored₂ := (Index.meta?_putMeta _ _ _ iri).trans (if_pos rfl)
  records j hj := (Index.meta?_putMeta _ _ _ j).trans (if_neg hj)
  children := rfl
  blobs _ _ hkey := AList.lookup_insert_ne hkey

/-- A key that no bytes are stored or cached under and that will not be drawn. -/
structure FreshKey (w : World) (key : Text) : Prop where
  blob : w.backend.blobs.lookup key = none
  cached : ∀ tag, w.bodyCache.body? key tag = none
  undrawn : ∀ iri suffix, blobKeyFor iri suffix ≠ key

/-- Keys without a dash are never drawn. -/
theorem undrawn_of_no_dash {key : Text} (h : '-' ∉ key) (iri : Iri) (suffix : Suffix) :
    blobKeyFor iri suffix ≠ key := by
  rintro rfl
  simp [blobKeyFor] at h

/-- Finitely many keys are in use. -/
theorem exists_freshKey (w : World) : ∃ key, FreshKey w key := by
  have hinj : Function.Injective fun n : Nat => List.replicate n 'x' :=
    fun a b hab => by simpa using congrArg List.length hab
  let cached : List Text := (w.bodyCache.inner.map fun i => i.map.keys.map Prod.fst).getD []
  obtain ⟨n, hn⟩ := Infinite.exists_notMem_finset
    ((w.backend.blobs.keys ++ cached).toFinset.preimage _ hinj.injOn)
  simp only [Finset.mem_preimage, List.mem_toFinset, List.mem_append, not_or] at hn
  refine ⟨List.replicate n 'x', ?_, fun tag => ?_, undrawn_of_no_dash ?_⟩
  · exact AList.lookup_eq_none.mpr hn.1
  · unfold BodyCache.body?
    cases hinner : w.bodyCache.inner with
    | none => rfl
    | some inner =>
      have hkeys : (List.replicate n 'x', tag) ∉ inner.map := by
        intro hmem
        apply hn.2
        simp only [cached, hinner]
        exact List.mem_map_of_mem hmem
      simp [AList.lookup_eq_none.mpr hkeys]
  · exact fun hdash => absurd (List.eq_of_mem_replicate hdash) (by decide)

/-- A sound world stays sound when a resource that is not an ACL gets other bytes under a fresh
key. -/
theorem sound_withRepresentation {wac : WacAuthorizer} (hs : Sound wac w)
    (hacl : isAclResource iri = false) {m : ResourceMeta} (hkey : FreshKey w m.blobKey)
    (body : Bytes) :
    Sound wac { w with backend := withRepresentation w.backend iri m body } := by
  have hunused : ∀ j n, w.backend.index.meta? j = some n → n.blobKey ≠ m.blobKey := by
    intro j n hn heq
    obtain ⟨b, hb⟩ := hs.stored j n hn
    rw [heq, hkey.blob] at hb
    cases hb
  have hblobs : Consistent (w.withBlobs (w.backend.blobs.insert m.blobKey body)) :=
    { stored := by
        intro j n hn
        obtain ⟨b, hb⟩ := hs.stored j n hn
        exact ⟨b, (AList.lookup_insert_ne (hunused j n hn)).trans hb⟩
      keys := hs.keys
      cached := by
        intro key tag b b' hb hb'
        have hne : key ≠ m.blobKey := by
          rintro rfl
          exact absurd ((hkey.cached tag).symm.trans hb) (by simp)
        exact hs.cached key tag b b' hb ((AList.lookup_insert_ne hne).symm.trans hb')
      fresh := by
        intro n suffix j hdraws hsuffix
        obtain ⟨hblob, hcached⟩ := hs.fresh n suffix j hdraws hsuffix
        exact ⟨(AList.lookup_insert_ne (hkey.undrawn j suffix)).trans hblob, hcached⟩
      distinct := hs.distinct }
  have hrewrites : Rewrites (· = iri) (w.backend.index.putMeta iri m) w.backend
      (withRepresentation w.backend iri m body) :=
    (rewrites_putBlob hunused).of_none.trans (rewrites_index fun j hj =>
      (Index.meta?_putMeta _ _ _ j).trans (if_neg hj))
  refine hs.wrote ?_ ⟨hrewrites, rfl, rfl⟩ fun j hj => hj ▸ hacl
  exact hblobs.putMeta (AList.lookup_insert _) hunused (Index.meta?_putMeta _ _ _)

/-- The requester's grants are the same in both stores, unless the target is an ACL. -/
theorem Twins.granted_iff {target : Iri} {m₂ : ResourceMeta} {b₁ b₂ : Backend}
    (h : Twins target m₁ m₂ b₁ b₂) (hk : KeysApart target m₁ m₂ b₁)
    (hacl : isAclResource target = false) {requester : Requester} {mode : AccessMode} :
    Granted s.wac b₂ iri requester mode ↔ Granted s.wac b₁ iri requester mode := by
  unfold Granted
  rw [grantedOn_congr iri requester fun acl hisAcl => h.record? hk ?_]
  rintro rfl
  rw [hisAcl] at hacl
  cases hacl

/-! ## §8 Writing reveals no content -/

/-- The blob store serves both representations: it can read the bytes of each, and it fails to
delete both or neither. -/
structure ServesBoth (f : Faults) (m₁ m₂ : ResourceMeta) : Prop where
  get₁ : f.blobGet m₁.blobKey = none
  get₂ : f.blobGet m₂.blobKey = none
  delete : f.blobDelete m₁.blobKey = f.blobDelete m₂.blobKey

/-- **Writing reveals no content.**  A requester who may not read a target gets the same response
to a `PUT` or `DELETE` of it, whatever its stored representation.  The worlds are the same but
for the backends; other reads and writes may fail, in both worlds alike. -/
theorem write_reveals_nothing (s : LdpState) (req : Request) (target : LdpTarget)
    (m₁ m₂ : ResourceMeta) (w₁ w₂ : World) (hmethod : req.method = .put ∨ req.method = .delete)
    (hparse : parseTarget s.baseUrl req.path = .ok target)
    (hs₁ : Sound s.wac w₁) (hs₂ : Sound s.wac w₂)
    (h : Twins target.iri m₁ m₂ w₁.backend w₂.backend)
    (hrest : w₂ = { w₁ with backend := w₂.backend }) (hserves : ServesBoth w₁.faults m₁ m₂)
    (hn₁ : ¬ Granted s.wac w₁.backend target.iri req.requester (readMode target.iri))
    (hn₂ : ¬ Granted s.wac w₂.backend target.iri req.requester (readMode target.iri)) :
    (s.handle req w₁).1 = (s.handle req w₂).1 := by
  have hb : Beside w₁.backend w₂.backend w₁ w₂ := ⟨rfl, hrest⟩
  have hk := h.keysApart hb hs₁.toConsistent hs₂.toConsistent
  suffices hsame : SameResult (s.serve req) (s.serve req) w₁ w₂ from congrArg respond hsame
  cases hacl : isAclResource target.iri with
  | false =>
    unfold serve
    rcases hmethod with hput | hdelete
    · rw [hput]
      exact sameResult_put h hk hacl hb hs₁ hparse hn₁
    · rw [hdelete]
      exact sameResult_delete h hk hacl hb hs₁ hparse hn₁ hserves.delete
  | true =>
    -- reading an ACL and writing it both take `Control`, which is missing in both stores
    have hfaults : w₂.faults = w₁.faults := by rw [hrest]
    simp only [readMode, hacl, if_true] at hn₁ hn₂
    have hdenied₁ := exec_authorizeMode_acl hs₁ hacl h.stored₁ hserves.get₁ hn₁
    have hdenied₂ := exec_authorizeMode_acl hs₂ hacl h.stored₂ (hfaults ▸ hserves.get₂) hn₂
    rw [hfaults] at hdenied₂
    obtain ⟨e, he⟩ : ∃ e : ServerError,
        (match World.planFault w₁.faults target.iri (planAcls s.baseUrl target.iri) with
          | some e => (.error (.storage e) : Except ServerError (Finset AccessMode))
          | none => .error (s.refusal req.requester.webId)) = .error e := by
      cases World.planFault w₁.faults target.iri (planAcls s.baseUrl target.iri) <;>
        exact ⟨_, rfl⟩
    unfold serve
    rcases hmethod with hput | hdelete
    · rw [hput]
      simp only [putHandler, hparse, check_ok_bind]
      exact sameResult_of_error ((hdenied₁ _).trans he) ((hdenied₂ _).trans he)
    · rw [hdelete]
      simp only [deleteHandler, hparse, check_ok_bind]
      exact sameResult_of_error ((hdenied₁ _).trans he) ((hdenied₂ _).trans he)

/-- Everybody may write; `/d` is stored next to the rule. -/
def writeWorld : World :=
  World.seeded samplePod [("http://h/d".toList, [1]), (aclFor samplePod, [0, 1, 2, 3, 5])]

/-- An anonymous `PUT` of `/d`, over its bytes and over others with another tag. -/
theorem write_reveals_nothing_put :
    (sampleState.handle (samplePut "/d") writeWorld).1.status = 204 ∧
    ∃ m₁ m₂ w₂, Twins "http://h/d".toList m₁ m₂ writeWorld.backend w₂.backend ∧
      m₁.etag ≠ m₂.etag ∧
      (sampleState.handle (samplePut "/d") writeWorld).1 =
        (sampleState.handle (samplePut "/d") w₂).1 := by
  have hrun : (sampleState.handle (samplePut "/d") writeWorld).1.status = 204 ∧
      (writeWorld.backend.index.meta? "http://h/d".toList).map ResourceMeta.etag =
        some (etagFor [1]) ∧ etagFor [1] ≠ etagFor [2] ∧
      isAclResource "http://h/d".toList = false ∧
      parseTarget sampleState.baseUrl (samplePut "/d").path =
        .ok ⟨"http://h/d".toList, "http://h/d".toList, false⟩ ∧
      ¬ Granted sampleState.wac writeWorld.backend "http://h/d".toList
        (samplePut "/d").requester (readMode "http://h/d".toList) := by decide
  obtain ⟨hstatus, hstored, htags, hacl, hparse, hn⟩ := hrun
  obtain ⟨m₁, hm₁, htag₁⟩ := Option.map_eq_some_iff.mp hstored
  obtain ⟨key, hkey⟩ := exists_freshKey writeWorld
  have hfaults : writeWorld.faults = Faults.none := faults_exec _ _
  have hs : Sound sampleState.wac writeWorld := sound_seeded _ _
  let m₂ : ResourceMeta := ⟨"text/plain".toList, key, etagFor [2], none⟩
  have htwins := twins_withRepresentation hm₁ m₂ [2]
  have hs₂ := sound_withRepresentation hs hacl (m := m₂) hkey [2]
  have hk := htwins.keysApart ⟨rfl, rfl⟩ hs.toConsistent hs₂.toConsistent
  refine ⟨hstatus, m₁, m₂, { writeWorld with backend := _ }, htwins, htag₁ ▸ htags, ?_⟩
  refine write_reveals_nothing sampleState (samplePut "/d") _ m₁ m₂ writeWorld _ (.inl rfl) hparse
    hs hs₂ htwins rfl ?_ hn ?_
  · rw [hfaults]
    exact ⟨rfl, rfl, rfl⟩
  · exact fun hgranted => hn ((htwins.granted_iff hk hacl).mp hgranted)

end SolidServer.Ldp.LdpState
