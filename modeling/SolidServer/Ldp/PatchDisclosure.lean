import SolidServer.Ldp.Append
import SolidServer.Ldp.Disclosure

/-!
# What a patch discloses

A `PATCH` that stops before it looks at the target answers the same whatever is stored
(`PatchHidden`).  Any other one is merged into the stored graph, and the answer tells whether
the stored bytes parse: `400` if they do not, something else if they do.  So for a requester
who may not read, the response is independent of the stored representation exactly when the
patch stops before (`patch_hidden_iff`).

The answer to a successful patch also carries the entity tag of the merged body, which
separates two readable representations (`patch_reveals_tag`).
-/

namespace SolidServer.Ldp.LdpState

open SolidServer.Effects SolidServer.Store SolidServer.Authz

variable {s : LdpState} {w : World} {α β : Type} {req : Request} {target : LdpTarget}

/-! ## §1 Errors of the merge -/

/-- The result is not reported as a bad request. -/
def NotBad (r : Except ServerError α) : Prop := ∀ e, r = .error e → e.status ≠ 400

theorem notBad_ok (a : α) : NotBad (.ok a) := by
  rintro e ⟨⟩

theorem notBad_error {e : ServerError} (h : e.status ≠ 400) : NotBad (.error e : Except _ α) := by
  rintro _ ⟨⟩
  exact h

theorem NotBad.bind {r : Except ServerError α} {f : α → Except ServerError β} (hr : NotBad r)
    (hf : ∀ a, NotBad (f a)) : NotBad (r >>= f) := by
  cases r with
  | ok a => exact hf a
  | error e => exact notBad_error (hr e rfl)

theorem notBad_mapM {f : α → Except ServerError β} (hf : ∀ a, NotBad (f a)) (as : List α) :
    NotBad (as.mapM f) := by
  induction as with
  | nil => exact notBad_ok []
  | cons a as ih =>
    rw [List.mapM_cons]
    exact (hf a).bind fun b => ih.bind fun bs => notBad_ok _

theorem notBad_resolve (pat : PatTerm) (b : Binding) : NotBad (resolve pat b) := by
  cases pat with
  | term t => exact notBad_ok t
  | var v =>
    unfold resolve
    simp only
    split
    · exact notBad_ok _
    · exact notBad_error (by simp [ServerError.status])
  | whereBlank label => exact notBad_error (by simp [ServerError.status])

theorem notBad_unprocessable (msg : String) : NotBad (unprocessable msg : Except _ α) :=
  notBad_error (by simp [ServerError.status])

theorem notBad_instantiate (b : Binding) (pat : PatTriple) : NotBad (instantiate b pat) := by
  refine (notBad_resolve pat.subject b).bind fun subject => ?_
  cases subject with
  | namedNode n | blankNode n =>
    refine (notBad_resolve pat.predicate b).bind fun predicate => ?_
    cases predicate with
    | namedNode p => exact (notBad_resolve pat.object b).bind fun object => notBad_ok _
    | blankNode l => exact notBad_unprocessable _
    | literal l => exact notBad_unprocessable _
  | literal l => exact notBad_unprocessable _

/-- A patch that does not apply is a conflict or cannot be processed. -/
theorem notBad_applyPatch (existing : List Triple) (patch : N3Patch) :
    NotBad (applyPatch existing patch) := by
  have hbinding : NotBad (patchBinding existing patch) := by
    unfold patchBinding
    split_ifs
    · exact notBad_ok _
    · split
      · exact notBad_ok _
      · exact notBad_error (by simp [ServerError.status])
      · exact notBad_error (by simp [ServerError.status])
  refine hbinding.bind fun b => ?_
  refine (notBad_mapM (notBad_instantiate b) _).bind fun deletes => ?_
  refine (notBad_mapM (notBad_instantiate b) _).bind fun inserts => ?_
  split_ifs
  · exact notBad_ok _
  · exact notBad_error (by simp [ServerError.status])

theorem notBad_serializeTriples (codec : RdfCodec) (format : RdfFormat) (triples : List Triple) :
    NotBad (serializeTriples codec format triples) := by
  unfold serializeTriples
  cases format with
  | turtle =>
    simp only
    split
    · exact notBad_ok _
    · exact notBad_error (by simp [ServerError.status])
  | jsonLd =>
    simp only
    split
    · exact notBad_ok _
    · exact notBad_error (by simp [ServerError.status])

/-- **The merge is a bad request exactly when the stored body does not parse.** -/
theorem patchedBody_bad_iff (res : Resource) (patch : N3Patch) (iri : Iri) :
    (∃ e, s.patchedBody (some res) patch iri = .error e ∧ e.status = 400) ↔
      ∃ e, parseToTriples s.codec (storedFormat res.meta_.contentType) res.body iri = .error e := by
  cases hparse : parseToTriples s.codec (storedFormat res.meta_.contentType) res.body iri with
  | error e =>
    obtain ⟨msg, rfl⟩ := parseToTriples_error _ hparse
    refine ⟨fun _ => ⟨_, rfl⟩, fun _ => ⟨.badRequest msg, ?_, rfl⟩⟩
    simp only [patchedBody, hparse]
    rfl
  | ok triples =>
    have hmerge : NotBad (s.patchedBody (some res) patch iri) := by
      simp only [patchedBody, hparse]
      refine (notBad_applyPatch triples patch).bind fun patched => ?_
      exact (notBad_serializeTriples _ _ _).bind fun body => notBad_ok _
    constructor
    · rintro ⟨e, he, hstatus⟩
      exact absurd hstatus (hmerge e he)
    · rintro ⟨e, ⟨⟩⟩

/-! ## §2 A patch up to the merge -/

/-- The bytes fetched for a stored record, when reads work. -/
theorem fetchOutcome_of_working (hw : Working s w) {m : ResourceMeta} {body : Bytes}
    (hbody : w.backend.blobs.lookup m.blobKey = some body) : fetchOutcome w m = .ok body := by
  unfold fetchOutcome blobOutcome
  cases hcached : w.bodyCache.body? m.blobKey m.etag with
  | some b => exact congrArg Except.ok (hw.cached m.blobKey m.etag b body hcached hbody)
  | none => simp only [hw.blobReads, hbody]

theorem yields_readCurrent (hw : Working s w) {iri : Iri} {m : ResourceMeta} {body : Bytes}
    (hm : w.backend.index.meta? iri = some m)
    (hbody : w.backend.blobs.lookup m.blobKey = some body) :
    Yields s (readCurrent iri) w (.ok (some ⟨body, m⟩)) := by
  refine ⟨(perused_readCurrent iri).calm rfl hw.toSound, ?_⟩
  show (exec (readCurrent iri) w).1 = _
  rw [exec_readCurrent_fst, probe_of_no_fault (hw.indexReads iri), hm]
  simp only [fetchOutcome_of_working hw hbody]
  rfl

/-- What passes both guards without the read mode. -/
def Unguarded (req : Request) (patch : N3Patch) : Prop :=
  patch.conditions = [] ∧ conditionalCarriesEtag req.headers .ifMatch = false ∧
    conditionalCarriesEtag req.headers .ifNoneMatch = false

instance (req : Request) (patch : N3Patch) : Decidable (Unguarded req patch) :=
  inferInstanceAs (Decidable (_ ∧ _))

/-- The patch is granted on the target, and neither guard stops it. -/
def Merges (s : LdpState) (req : Request) (b : Backend) (target : LdpTarget) (patch : N3Patch) :
    Prop :=
  Granted s.wac b target.iri req.requester (requiredMode target.iri (patchMode patch)) ∧
    Unguarded req patch

instance (b : Backend) (patch : N3Patch) : Decidable (Merges s req b target patch) :=
  inferInstanceAs (Decidable (_ ∧ _))

/-- **A patch by somebody who may not read**: refused, or the stored resource is read and the
preconditions and the merge decide. -/
theorem spec_patch_unread (hw : Working s w) (hparse : parseTarget s.baseUrl req.path = .ok target)
    {patch : N3Patch} (hpatch : s.parsePatch req target.iri = .ok patch)
    (hn : ¬ Granted s.wac w.backend target.iri req.requester (readMode target.iri))
    {m : ResourceMeta} {body : Bytes} (hm : w.backend.index.meta? target.iri = some m)
    (hbody : w.backend.blobs.lookup m.blobKey = some body)
    {Q : Except ServerError Response → World → Prop}
    (hrefused : ¬ Merges s req w.backend target patch →
      ∀ w', Q (.error (s.refusal req.webId)) w')
    (hmerge : Merges s req w.backend target patch → ∀ w', Spec (do
        check (checkPreconditions req.headers (some m.etag))
        let (merged, format) ← check (s.patchedBody (some ⟨body, m⟩) patch target.iri)
        let m' ← s.storeTarget target.iri req.requester true merged format.mediaType
        finishWrite target.iri true m') w' Q) :
    Spec (s.patchHandler req) w Q := by
  unfold patchHandler
  rw [hparse, check_ok_bind, hpatch]
  apply (yields_authorizeMode hw target.iri (patchMode patch) req.requester).bind hw
  · intro granted w₁ hgranted hw₁ hb₁
    unfold verdict at hgranted
    split_ifs at hgranted with hmode
    obtain rfl := Except.ok.inj hgranted
    have hguard := guardRead_of_not_granted hn req.webId
    by_cases hfree : Unguarded req patch
    · obtain ⟨hconditions, him, hinm⟩ := hfree
      simp only [guardConditions, guardConditionalRequiresRead, hconditions, him, hinm, ne_eq]
      rw [← hb₁] at hm hbody
      apply (yields_readCurrent hw₁ hm hbody).bind hw₁
      · intro current w₂ hcurrent _ _
        obtain rfl := Except.ok.inj hcurrent
        exact hmerge ⟨hmode, hconditions, him, hinm⟩ w₂
      · rintro e w₂ ⟨⟩
    · -- one of the two guards answers with the refusal
      have hstop : ¬ Merges s req w.backend target patch := fun h => hfree h.2
      apply Spec.check_bind
      · intro _ hpassed
        have hconditions : patch.conditions = [] := by
          unfold guardConditions at hpassed
          rw [hguard] at hpassed
          by_contra hne
          rw [if_pos hne] at hpassed
          cases hpassed
        have hcarries : (conditionalCarriesEtag req.headers .ifMatch ||
            conditionalCarriesEtag req.headers .ifNoneMatch) = true := by
          by_contra hnone
          simp only [Bool.or_eq_true, not_or, Bool.not_eq_true] at hnone
          exact hfree ⟨hconditions, hnone⟩
        simp only [guardConditionalRequiresRead, hcarries, if_true, hguard]
        exact hrefused hstop w₁
      · intro e he
        unfold guardConditions at he
        split_ifs at he
        rw [guardRead_error he]
        exact hrefused hstop w₁
  · intro e w₁ he hb₁
    obtain rfl := verdict_error he
    refine hrefused (fun h => ?_) w₁
    rw [verdict, if_pos h.1] at he
    cases he

/-! ## §3 The answers -/

/-- Behind the guards, a stored target meets every `If-Match` and fails every `If-None-Match`. -/
theorem checkPreconditions_stored {headers : HeaderMap}
    (him : conditionalCarriesEtag headers .ifMatch = false)
    (hinm : conditionalCarriesEtag headers .ifNoneMatch = false) (tag : Text) :
    checkPreconditions headers (some tag) =
      if (headers.get .ifNoneMatch).isSome then .error .preconditionFailed else .ok () := by
  have hselects : ∀ (h : Text) (test : InboundTag → Text → Bool), isWildcard h = true →
      selects h (some tag) test = true := by
    intro h test hw
    simp [selects, hw]
  have hmatch : ∀ h, headerStr headers .ifMatch = some h →
      selects h (some tag) InboundTag.matchesStrongState = true :=
    fun h hh => hselects h _ (isWildcard_of_not_carries him hh)
  have hnone : (headers.get .ifNoneMatch).isSome = (headerStr headers .ifNoneMatch).isSome := by
    unfold conditionalCarriesEtag at hinm
    unfold headerStr
    cases hget : headers.get .ifNoneMatch with
    | none => rfl
    | some v =>
      rw [hget] at hinm
      cases htext : v.toStr? with
      | none => simp [htext] at hinm
      | some t => simp [htext]
  unfold checkPreconditions evaluate
  rw [hnone]
  cases hm : headerStr headers .ifMatch with
  | none =>
    cases hi : headerStr headers .ifNoneMatch with
    | none => rfl
    | some h => simp [hselects h _ (isWildcard_of_not_carries hinm hi), require]
  | some g =>
    cases hi : headerStr headers .ifNoneMatch with
    | none => simp [hmatch g hm, require]
    | some h => simp [hselects h _ (isWildcard_of_not_carries hinm hi), require]

theorem status_respond_error (e : ServerError) : (respond (.error e)).status = e.status := by
  cases e with
  | unauthorized status message www =>
    simp only [respond, ServerError.intoResponse]
    split <;> rfl
  | _ => rfl

/-- Storing and answering never ends in a bad request. -/
theorem spec_write_status (iri : Iri) (requester : Requester) (body : Bytes) (contentType : Text) :
    Spec (do
      let m ← s.storeTarget iri requester true body contentType
      finishWrite iri true m) w fun r _ => (respond r).status ≠ 400 := by
  show Spec (write iri body contentType >>= finishWrite iri true) w _
  have hwrite : Spec (write iri body contentType) w fun r _ => ∀ e, r = .error e → StoreError e :=
    fun e he => (raises_block _ _ (.write iri body contentType)).run World.sem he
  refine Spec.bind hwrite (fun m v _ => ?_) fun e _ he => ?_
  · obtain ⟨sent, hsent⟩ := exec_finishWrite iri true m v
    show (respond (exec (finishWrite iri true m) v).1).status ≠ 400
    rw [hsent]
    exact (by decide : (204 : Nat) ≠ 400)
  · rw [status_respond_error]
    rcases he e rfl with rfl | ⟨msg, rfl⟩ <;> simp [ServerError.status]

/-! ## §4 When a patch discloses nothing -/

/-- The patch ends before it is merged into what is stored: the document is rejected, the mode it
needs is not granted, it has conditions, it carries an entity tag in `If-Match`, or it has an
`If-None-Match`. -/
inductive PatchHidden (s : LdpState) (req : Request) (b : Backend) (target : LdpTarget) : Prop
  | rejected (e : ServerError) (h : s.parsePatch req target.iri = .error e)
  | ungranted (patch : N3Patch) (h : s.parsePatch req target.iri = .ok patch)
      (hmode : ¬ Granted s.wac b target.iri req.requester
        (requiredMode target.iri (patchMode patch)))
  | conditions (patch : N3Patch) (h : s.parsePatch req target.iri = .ok patch)
      (hconditions : patch.conditions ≠ [])
  | ifMatch (h : conditionalCarriesEtag req.headers .ifMatch = true)
  | ifNoneMatch (h : (req.headers.get .ifNoneMatch).isSome = true)

/-- A header that is not there carries nothing. -/
theorem isSome_of_carries {headers : HeaderMap} {name : HeaderName}
    (h : conditionalCarriesEtag headers name = true) : (headers.get name).isSome = true := by
  unfold conditionalCarriesEtag at h
  cases hget : headers.get name with
  | none => simp [hget] at h
  | some v => rfl

/-- A patch that merges is hidden by its `If-None-Match` only. -/
theorem PatchHidden.isSome_of_merges {b : Backend} {patch : N3Patch}
    (h : PatchHidden s req b target) (hpatch : s.parsePatch req target.iri = .ok patch)
    (hmerges : Merges s req b target patch) : (req.headers.get .ifNoneMatch).isSome = true := by
  obtain ⟨hmode, hconditions, him, -⟩ := hmerges
  cases h with
  | rejected e he => rw [hpatch] at he; cases he
  | ungranted p hp hungranted =>
    obtain rfl := Except.ok.inj (hpatch.symm.trans hp)
    exact absurd hmode hungranted
  | conditions p hp hne =>
    obtain rfl := Except.ok.inj (hpatch.symm.trans hp)
    exact absurd hconditions hne
  | ifMatch hcarries => rw [him] at hcarries; cases hcarries
  | ifNoneMatch hpresent => exact hpresent

theorem exists_merge_of_not_hidden {b : Backend} (h : ¬ PatchHidden s req b target) :
    ∃ patch, s.parsePatch req target.iri = .ok patch ∧ Merges s req b target patch ∧
      (req.headers.get .ifNoneMatch).isSome = false := by
  cases hpatch : s.parsePatch req target.iri with
  | error e => exact absurd (.rejected e hpatch) h
  | ok patch =>
    have habsent : (req.headers.get .ifNoneMatch).isSome = false := by
      by_contra hpresent
      exact h (.ifNoneMatch (Bool.eq_true_of_not_eq_false hpresent))
    refine ⟨patch, rfl, ⟨?_, ?_, ?_, ?_⟩, habsent⟩
    · by_contra hmode
      exact h (.ungranted patch hpatch hmode)
    · by_contra hconditions
      exact h (.conditions patch hpatch hconditions)
    · by_contra hcarries
      exact h (.ifMatch (Bool.eq_true_of_not_eq_false hcarries))
    · by_contra hcarries
      have hpresent := isSome_of_carries (Bool.eq_true_of_not_eq_false hcarries)
      rw [habsent] at hpresent
      cases hpresent

section
variable (hw : Working s w) (hparse : parseTarget s.baseUrl req.path = .ok target)
  {patch : N3Patch} (hpatch : s.parsePatch req target.iri = .ok patch)
  (hn : ¬ Granted s.wac w.backend target.iri req.requester (readMode target.iri))
  {m : ResourceMeta} (hm : w.backend.index.meta? target.iri = some m)
include hw hparse hpatch hn hm

/-- The answer to a hidden patch depends on the requester's grants only. -/
theorem spec_patch_hidden
    (hhidden : Merges s req w.backend target patch → (req.headers.get .ifNoneMatch).isSome = true) :
    Spec (s.patchHandler req) w fun r _ =>
      r = .error (if Merges s req w.backend target patch then .preconditionFailed
        else s.refusal req.webId) := by
  obtain ⟨body, hbody⟩ := hw.stored target.iri m hm
  refine spec_patch_unread hw hparse hpatch hn hm hbody (fun hstop w' => ?_) fun hmerges w' => ?_
  · rw [if_neg hstop]
  · rw [if_pos hmerges]
    have hfails := checkPreconditions_stored hmerges.2.2.1 hmerges.2.2.2 m.etag
    rw [if_pos (hhidden hmerges)] at hfails
    rw [hfails]
    exact rfl

/-- **A merge tells whether the stored bytes parse.** -/
theorem spec_patch_merged (hmerges : Merges s req w.backend target patch)
    (habsent : (req.headers.get .ifNoneMatch).isSome = false) {body : Bytes}
    (hbody : w.backend.blobs.lookup m.blobKey = some body) :
    Spec (s.patchHandler req) w fun r _ => (respond r).status = 400 ↔
      ∃ e, parseToTriples s.codec (storedFormat m.contentType) body target.iri = .error e := by
  refine spec_patch_unread hw hparse hpatch hn hm hbody (fun hstop => absurd hmerges hstop) ?_
  intro _ w'
  have hbad := patchedBody_bad_iff (s := s) ⟨body, m⟩ patch target.iri
  have hpasses := checkPreconditions_stored hmerges.2.2.1 hmerges.2.2.2 m.etag
  rw [habsent, if_neg (by decide)] at hpasses
  rw [hpasses, ← hbad]
  cases hmerged : s.patchedBody (some ⟨body, m⟩) patch target.iri with
  | error e =>
    show (respond (.error e)).status = 400 ↔ _
    rw [status_respond_error]
    exact ⟨fun h => ⟨e, rfl, h⟩, by rintro ⟨_, ⟨⟩, h⟩; exact h⟩
  | ok merged =>
    refine (spec_write_status (s := s) target.iri req.requester _ _).mono fun r _ hr => ?_
    exact ⟨fun h => absurd h hr, by rintro ⟨_, ⟨⟩, _⟩⟩

end

/-- A hidden patch gets the same answer from twins. -/
theorem patch_alike_of_hidden {m₁ m₂ : ResourceMeta} {b₂ : Backend}
    (hparse : parseTarget s.baseUrl req.path = .ok target) (hw : Working s w)
    (hw₂ : Working s { w with backend := b₂ }) (htwins : Twins target.iri m₁ m₂ w.backend b₂)
    (hn : ¬ Granted s.wac w.backend target.iri req.requester (readMode target.iri))
    (hn₂ : ¬ Granted s.wac b₂ target.iri req.requester (readMode target.iri))
    (hhidden : PatchHidden s req w.backend target) :
    (exec (s.patchHandler req) w).1 = (exec (s.patchHandler req) { w with backend := b₂ }).1 := by
  cases hpatch : s.parsePatch req target.iri with
  | error e =>
    simp only [patchHandler, hparse, check_ok_bind, hpatch]
    rfl
  | ok patch =>
    have hmerges : Merges s req b₂ target patch ↔ Merges s req w.backend target patch := by
      refine and_congr_left fun _ => ?_
      cases hacl : isAclResource target.iri with
      | false =>
        have hk := htwins.keysApart ⟨rfl, rfl⟩ hw.toConsistent hw₂.toConsistent
        exact htwins.granted_iff hk hacl
      | true =>
        -- patching an ACL takes `Control`, as reading it does
        simp only [readMode, requiredMode, hacl] at hn hn₂ ⊢
        exact ⟨fun h => absurd h hn₂, fun h => absurd h hn⟩
    have hpresent := fun hm => hhidden.isSome_of_merges hpatch hm
    have h₁ := spec_patch_hidden hw hparse hpatch hn htwins.stored₁ hpresent
    have h₂ := spec_patch_hidden hw₂ hparse hpatch hn₂ htwins.stored₂
      fun hm => hpresent (hmerges.mp hm)
    have hsame : (if Merges s req b₂ target patch then ServerError.preconditionFailed
        else s.refusal req.webId) =
        if Merges s req w.backend target patch then .preconditionFailed
          else s.refusal req.webId := by simp only [hmerges]
    exact h₁.trans ((congrArg Except.error hsame.symm).trans h₂.symm)

/-- **When a patch discloses nothing.**  For a requester who may not read the stored target, the
response to a `PATCH` is the same for every other representation exactly when the patch ends
before it is merged.  The parser is assumed to accept some bytes as Turtle and to reject some. -/
theorem patch_hidden_iff (s : LdpState) (req : Request) (target : LdpTarget) (w : World)
    (hmethod : req.method = .patch) (hparse : parseTarget s.baseUrl req.path = .ok target)
    (hgood : ∃ body ts, parseToTriples s.codec .turtle body target.iri = .ok ts)
    (hbad : ∃ body e, parseToTriples s.codec .turtle body target.iri = .error e)
    (hw : Working s w) (m₁ : ResourceMeta) (hm₁ : w.backend.index.meta? target.iri = some m₁)
    (hn : ¬ Granted s.wac w.backend target.iri req.requester (readMode target.iri)) :
    (∀ m₂ b₂, Twins target.iri m₁ m₂ w.backend b₂ → Working s { w with backend := b₂ } →
      ¬ Granted s.wac b₂ target.iri req.requester (readMode target.iri) →
      (s.handle req w).1 = (s.handle req { w with backend := b₂ }).1) ↔
    PatchHidden s req w.backend target := by
  have hserve : ∀ v, (s.handle req v).1 = respond (exec (s.patchHandler req) v).1 := by
    intro v
    simp only [handle, serve, hmethod]
  constructor
  · intro hsame
    by_contra hnot
    obtain ⟨patch, hpatch, hmerges, habsent⟩ := exists_merge_of_not_hidden hnot
    have hacl : isAclResource target.iri = false := by
      rw [Bool.eq_false_iff]
      intro hacl
      have hmode := hmerges.1
      simp only [readMode, requiredMode, hacl, if_true] at hn hmode
      exact hn hmode
    obtain ⟨body₁, hbody₁⟩ := hw.stored target.iri m₁ hm₁
    have hstatus₁ := spec_patch_merged hw hparse hpatch hn hm₁ hmerges habsent hbody₁
    -- bytes that parse if the stored ones do not, and the other way round
    obtain ⟨body₂, hother⟩ : ∃ body₂,
        ¬ ((∃ e, parseToTriples s.codec (storedFormat m₁.contentType) body₁ target.iri = .error e) ↔
          ∃ e, parseToTriples s.codec .turtle body₂ target.iri = .error e) := by
      obtain ⟨good, ts, hgood⟩ := hgood
      obtain ⟨bad, e, hbad⟩ := hbad
      by_cases hfails : ∃ e,
          parseToTriples s.codec (storedFormat m₁.contentType) body₁ target.iri = .error e
      · refine ⟨good, fun h => ?_⟩
        obtain ⟨e', he'⟩ := h.mp hfails
        rw [hgood] at he'
        cases he'
      · exact ⟨bad, fun h => hfails (h.mpr ⟨e, hbad⟩)⟩
    obtain ⟨key, hkey⟩ := exists_freshKey w
    let m₂ : ResourceMeta := ⟨RdfFormat.turtle.mediaType, key, etagFor body₂, m₁.lastModified⟩
    have htwins := twins_withRepresentation hm₁ m₂ body₂
    have hw₂ : Working s { w with backend := withRepresentation w.backend target.iri m₂ body₂ } :=
      ⟨sound_withRepresentation hw.toSound hacl hkey body₂, hw.indexReads, hw.blobReads⟩
    have hk := htwins.keysApart ⟨rfl, rfl⟩ hw.toConsistent hw₂.toConsistent
    have hn₂ : ¬ Granted s.wac (withRepresentation w.backend target.iri m₂ body₂) target.iri
        req.requester (readMode target.iri) := fun h => hn ((htwins.granted_iff hk hacl).mp h)
    have hstatus₂ := spec_patch_merged hw₂ hparse hpatch hn₂ htwins.stored₂
      ⟨(htwins.granted_iff hk hacl).mpr hmerges.1, hmerges.2⟩ habsent
      (AList.lookup_insert w.backend.blobs)
    rw [show storedFormat m₂.contentType = .turtle from storedFormat_mediaType .turtle] at hstatus₂
    have hresponses := hsame m₂ _ htwins hw₂ hn₂
    rw [hserve, hserve] at hresponses
    have h₁ : (respond (exec (s.patchHandler req) w).1).status = 400 ↔ _ := hstatus₁
    rw [hresponses] at h₁
    exact hother (h₁.symm.trans hstatus₂)
  · intro hhidden m₂ b₂ htwins hw₂ hn₂
    rw [hserve, hserve, patch_alike_of_hidden hparse hw hw₂ htwins hn hn₂ hhidden]

/-- The insertion of the new statement into `/d`, only if nothing is stored there. -/
def insertNoteIfNew : Request :=
  { insertNote with headers := insertNote.headers.setStr .ifNoneMatch "*".toList }

/-- Everybody may append to `/d` and nobody may read it: the guarded insertion answers the same
for every representation of `/d`. -/
theorem patch_hidden_iff_note :
    ∃ m₁, ∀ m₂ b₂, Twins noteTarget.iri m₁ m₂ noteWorld.backend b₂ →
      Working noteState { noteWorld with backend := b₂ } →
      ¬ Granted noteState.wac b₂ noteTarget.iri insertNoteIfNew.requester
        (readMode noteTarget.iri) →
      (noteState.handle insertNoteIfNew noteWorld).1 =
        (noteState.handle insertNoteIfNew { noteWorld with backend := b₂ }).1 := by
  have hrun : (noteWorld.backend.index.meta? noteTarget.iri).isSome = true ∧
      (insertNoteIfNew.headers.get .ifNoneMatch).isSome = true ∧
      parseTarget noteState.baseUrl insertNoteIfNew.path = .ok noteTarget ∧
      parseToTriples noteState.codec .turtle [] noteTarget.iri = .ok [] ∧
      parseToTriples noteState.codec .turtle [255] noteTarget.iri =
        .error (.badRequest "invalid Turtle: unknown statement".toList) ∧
      ¬ Granted noteState.wac noteWorld.backend noteTarget.iri insertNoteIfNew.requester
        (readMode noteTarget.iri) := by decide
  obtain ⟨hstored, hpresent, hparse, hgood, hbad, hn⟩ := hrun
  obtain ⟨m₁, hm₁⟩ := Option.isSome_iff_exists.mp hstored
  exact ⟨m₁, (patch_hidden_iff noteState insertNoteIfNew noteTarget noteWorld rfl hparse
    ⟨_, _, hgood⟩ ⟨_, _, hbad⟩ (working_seeded _ _) m₁ hm₁ hn).mpr (.ifNoneMatch hpresent)⟩

/-- `/d` holding the new statement already. -/
def noteAgain : Backend :=
  withRepresentation noteWorld.backend noteTarget.iri
    ⟨RdfFormat.turtle.mediaType, "x".toList, etagFor [9], none⟩ [9]

/-- **A patch discloses content**: everybody may append to `/d` and nobody may read it, and the
insertion answers with different entity tags when `/d` holds the old statement and when it holds
the new one already. -/
theorem patch_reveals_tag :
    ∃ m₁ m₂, Twins noteTarget.iri m₁ m₂ noteWorld.backend noteAgain ∧
      Working noteState noteWorld ∧ Working noteState { noteWorld with backend := noteAgain } ∧
      parseTarget noteState.baseUrl insertNote.path = .ok noteTarget ∧
      ¬ Granted noteState.wac noteWorld.backend noteTarget.iri insertNote.requester
        (readMode noteTarget.iri) ∧
      ¬ Granted noteState.wac noteAgain noteTarget.iri insertNote.requester
        (readMode noteTarget.iri) ∧
      insertNote.method = .patch ∧
      (noteState.handle insertNote noteWorld).1.status = 204 ∧
      (noteState.handle insertNote { noteWorld with backend := noteAgain }).1.status = 204 ∧
      (noteState.handle insertNote noteWorld).1 ≠
        (noteState.handle insertNote { noteWorld with backend := noteAgain }).1 := by
  have hrun : (noteWorld.backend.index.meta? noteTarget.iri).isSome = true ∧
      isAclResource noteTarget.iri = false ∧ '-' ∉ "x".toList ∧
      noteWorld.backend.blobs.lookup "x".toList = none ∧
      (noteWorld.bodyCache.inner.map fun i => i.map.entries.length) = some 0 ∧
      parseTarget noteState.baseUrl insertNote.path = .ok noteTarget ∧
      ¬ Granted noteState.wac noteWorld.backend noteTarget.iri insertNote.requester
        (readMode noteTarget.iri) ∧
      ¬ Granted noteState.wac noteAgain noteTarget.iri insertNote.requester
        (readMode noteTarget.iri) ∧
      insertNote.method = .patch ∧
      (noteState.handle insertNote noteWorld).1.status = 204 ∧
      (noteState.handle insertNote { noteWorld with backend := noteAgain }).1.status = 204 ∧
      (noteState.handle insertNote noteWorld).1 ≠
        (noteState.handle insertNote { noteWorld with backend := noteAgain }).1 := by
    decide
  obtain ⟨hstored, hacl, hdash, hblob, hcache, hresponses⟩ := hrun
  obtain ⟨m₁, hm₁⟩ := Option.isSome_iff_exists.mp hstored
  have hkey : FreshKey noteWorld "x".toList := by
    refine ⟨hblob, fun tag => ?_, undrawn_of_no_dash hdash⟩
    obtain ⟨inner, hinner, hempty⟩ := Option.map_eq_some_iff.mp hcache
    have hnil : inner.map = ∅ := AList.ext (List.length_eq_zero_iff.mp hempty)
    simp [BodyCache.body?, hinner, hnil]
  have hw : Working noteState noteWorld := working_seeded _ _
  exact ⟨m₁, _, twins_withRepresentation hm₁ _ _, hw,
    ⟨sound_withRepresentation hw.toSound hacl hkey _, hw.indexReads, hw.blobReads⟩, hresponses⟩

end SolidServer.Ldp.LdpState
