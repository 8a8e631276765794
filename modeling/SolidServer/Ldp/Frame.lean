import SolidServer.Ldp.Effect

/-!
# The write frame of a request

Which records a request can change: its target, with the mode the operation needs; one
child minted for a `POST`; containers that were not there.  Every other record keeps its
metadata and its bytes, and so does every ACL unless the requester has `Control` over
what it governs.
-/

namespace SolidServer.Ldp.LdpState

open SolidServer.Effects SolidServer.Store SolidServer.Authz

variable {s : LdpState} {req : Request} {b₀ b b' : Backend} {child : Iri}

/-- **The records a request may change** on the backend it found. -/
inductive MayChange (s : LdpState) (req : Request) (b : Backend) (child : Iri) : Iri → Prop
  /-- The target, whose effective ACL grants what the operation needs. -/
  | target {target : LdpTarget} (h : Permitted s req b target) : MayChange s req b child target.iri
  /-- The one child minted in a container the requester may append to. -/
  | minted {container : LdpTarget} (hmethod : req.method = .post)
      (hparsed : parseTarget s.baseUrl req.path = .ok container)
      (hcontainer : container.isContainer = true)
      (hgranted : Granted s.wac b container.iri req.requester .append)
      (hminted : Minted container.iri child) (habsent : b.record? child = none) :
      MayChange s req b child child
  /-- A container that was not there. -/
  | container {iri : Iri} (hslash : iri.getLast? = some '/') (habsent : b.record? iri = none) :
      MayChange s req b child iri

theorem record?_of_absent {iri : Iri} (h : b.index.meta? iri = none) : b.record? iri = none := by
  simp [Backend.record?, h]

/-- **One step changes only what the request may change.** -/
theorem Step.frame (h : Step s req b₀ child b b') {iri : Iri}
    (hchanged : b'.record? iri ≠ b.record? iri) : MayChange s req b₀ child iri := by
  -- outside the records a step rewrites nothing changes
  have hin : ∀ {P : Iri → Prop} {i : Index}, Rewrites P i b b' → P iri := fun {P i} hw => by
    by_contra hp
    exact hchanged (hw.records iri hp)
  cases h with
  | idle h => exact (hin h).elim
  | overwrite hp _ h =>
    obtain rfl := hin h
    exact .target hp
  | root hc habsent h =>
    obtain rfl := hin h
    exact .container (storageRoot_getLast? _) (record?_of_absent habsent)
  | ancestor hc hway habsent _ _ h =>
    obtain rfl := hin h
    exact .container (getLast?_of_mem_ancestorsOf hway) (record?_of_absent habsent)
  | settle hc _ _ _ h =>
    obtain rfl := hin h
    exact .target hc.toPermitted
  | orphan hc _ h =>
    obtain rfl := hin h
    exact .target hc.toPermitted
  | mint hmethod hparsed hcontainer hgranted hminted habsent _ h =>
    obtain rfl := hin h
    exact .minted hmethod hparsed hcontainer hgranted hminted (record?_of_absent habsent)
  | unlink _ _ h => exact (hin h).elim
  | remove hr _ h =>
    obtain rfl := hin h
    exact .target hr.toPermitted
  | removeContainer hr _ _ h =>
    obtain rfl := hin h
    exact .target hr.toPermitted

/-- Whole sequences of steps change only what the request may change. -/
theorem steps_frame (h : Relation.ReflTransGen (Step s req b₀ child) b b') {iri : Iri}
    (hchanged : b'.record? iri ≠ b.record? iri) : MayChange s req b₀ child iri := by
  induction h with
  | refl => exact absurd rfl hchanged
  | @tail b₁ b₂ _ hstep ih =>
    by_cases hlast : b₂.record? iri = b₁.record? iri
    · exact ih (hlast ▸ hchanged)
    · exact hstep.frame hlast

/-- Operations on an ACL need `Control`. -/
theorem neededMode_of_acl {target : LdpTarget} {mode : AccessMode}
    (hacl : isAclResource target.iri = true) (h : s.neededMode req target = some mode) :
    mode = .control := by
  unfold neededMode at h
  split at h
  · simpa [requiredMode, hacl, eq_comm] using h
  · obtain ⟨p, -, rfl⟩ := Option.map_eq_some_iff.mp h
    simp [requiredMode, hacl]
  · simpa [deleteMode, hacl, eq_comm] using h
  · cases h

/-- An ACL is changed only with `Control` over the resource it governs. -/
theorem MayChange.control {iri : Iri} (h : MayChange s req b child iri)
    (hacl : isAclResource iri = true) : Granted s.wac b iri req.requester .control := by
  cases h with
  | target h =>
    obtain ⟨mode, hmode, hgranted⟩ := h.granted
    obtain rfl := neededMode_of_acl hacl hmode
    exact hgranted
  | minted _ _ _ _ hminted _ =>
    rw [hminted.notAcl] at hacl
    cases hacl
  | container hslash _ =>
    rw [not_acl_of_getLast? hslash] at hacl
    cases hacl

/-- **The write frame.**  A request changes only records it may change: for one name `child`,
every record that differs afterwards is the target, permitted, the minted child, or a container
that was not there; and an ACL among them is controlled by the requester. -/
theorem handle_frame (s : LdpState) (w : World) (hs : Sound s.wac w) (req : Request) :
    ∃ child, ∀ iri, (s.handle req w).2.backend.record? iri ≠ w.backend.record? iri →
      MayChange s req w.backend child iri ∧
        (isAclResource iri = true → Granted s.wac w.backend iri req.requester .control) := by
  obtain ⟨child, hreached⟩ := reached_handle hs req
  refine ⟨child, fun iri hchanged => ?_⟩
  have hmay := steps_frame hreached.steps hchanged
  exact ⟨hmay, hmay.control⟩

/-- A pod in which everybody may read, write and append, but not control. -/
def sampleState : LdpState :=
  ⟨tableCodec (ruleTable samplePod) [], "http://h".toList, "DPoP".toList⟩

def openWorld : World := World.seeded samplePod [(aclFor samplePod, [0, 1, 2, 3, 4, 5, 6])]

/-- `PUT` of a text under `path`. -/
def samplePut (path : String) : Request :=
  ⟨.put, path.toList, HeaderMap.setStr [] .contentType "text/plain".toList, [1], none⟩

/-- `DELETE` of a path. -/
def sampleDelete (path : String) : Request := ⟨.delete, path.toList, [], [], none⟩

/-- An anonymous `PUT` of `/a/b` creates a container on the way, and the frame names both. -/
theorem handle_frame_put :
    (respond (exec (sampleState.serve (samplePut "/a/b")) openWorld).1).status = 201 ∧
    ∃ child, ∀ iri, (sampleState.handle (samplePut "/a/b") openWorld).2.backend.record? iri ≠
        openWorld.backend.record? iri →
      MayChange sampleState (samplePut "/a/b") openWorld.backend child iri ∧
        (isAclResource iri = true →
          Granted sampleState.wac openWorld.backend iri (samplePut "/a/b").requester .control) :=
  ⟨by decide, handle_frame sampleState openWorld (sound_seeded _ _) (samplePut "/a/b")⟩

end SolidServer.Ldp.LdpState
