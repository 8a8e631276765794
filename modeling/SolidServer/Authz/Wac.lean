import SolidServer.Authz.Acl
import SolidServer.Ldp.Content
import SolidServer.Store.Composite

/-!
# The Web Access Control authorizer

`WacAuthorizer` (`authz/wac.rs`): the effective ACL of a resource is its own ACL or
the nearest ancestor's, read through the store and, when one is attached, the parsed
ACL cache.  The sequential resolver probes the chain one ACL at a time; the planned
one walks the rows of a single read plan and confirms the ACL it settles on with a
live probe.
-/

namespace SolidServer.Authz

open SolidServer.Effects SolidServer.Store SolidServer.Ldp

/-! ## §1 Decisions -/

/-- `Decision`: the modes held, or a denial for an anonymous or a known requester. -/
inductive Decision where
  | allow (modes : Finset AccessMode)
  | unauthenticated
  | forbidden
  deriving DecidableEq

inductive ReadDecision where
  | allow (perms : EffectivePermissions)
  | unauthenticated
  | forbidden
  deriving DecidableEq

/-- An ACL to probe and the resource its rules would govern. -/
structure AclCandidate where
  acl : Iri
  governed : Iri
  deriving DecidableEq

/-- `ResolvedAcl`: the governing ACL's triples, the resource its rules must name and the
scope they are matched under; `none` when no ACL governs. -/
abbrev ResolvedAcl := Option (List Triple × Iri × AclScope)

/-- The modes a resolved ACL grants; nothing without an ACL. -/
def ResolvedAcl.modesFor (r : ResolvedAcl) (requester : Requester) : Finset AccessMode :=
  match r with
  | some (triples, base, scope) => Authz.modesFor triples base requester scope
  | none => ∅

/-! ## §2 The chain of candidates -/

/-- `WacAuthorizer`; `cached` says whether an ACL cache is attached. -/
structure WacAuthorizer where
  codec : RdfCodec
  baseUrl : Text
  cached : Bool

/-- The storage root: the base URL with exactly one trailing slash. -/
def storageRoot (baseUrl : Text) : Iri := Text.trimEndMatches baseUrl '/' ++ ['/']

/-- `protected_resource`: the resource an ACL governs, or the target itself. -/
def protectedResource (target : Iri) : Iri :=
  if isAclResource target then target.take (target.length - aclSuffix.length) else target

/-- `acl_for`. -/
def aclFor (resource : Iri) : Iri := resource ++ aclSuffix

/-- The loop of `ancestors_nearest_first`; every round shortens `current`. -/
def ancestorsLoop (root : Iri) : Nat → Text → List Iri
  | 0, _ => []
  | fuel + 1, current =>
    if Text.len root < Text.len current then
      match Text.throughLast current '/' with
      | some parent => parent :: ancestorsLoop root fuel parent.dropLast
      | none => []
    else []

/-- `ancestors_nearest_first`: the ancestor containers, nearest first, up to the root. -/
def ancestorsNearestFirst (baseUrl : Text) (resource : Iri) : List Iri :=
  let root := storageRoot baseUrl
  if resource = root then []
  else
    let current := if Text.endsWith resource ['/'] then resource.dropLast else resource
    let ancestors := ancestorsLoop root current.length current
    if ancestors.getLast? = some root then ancestors else ancestors ++ [root]

/-- `read_plan_candidates`: the own ACL, then the ancestors'. -/
def readPlanCandidates (baseUrl : Text) (target : Iri) : List AclCandidate :=
  let prot := protectedResource target
  ⟨aclFor prot, prot⟩ ::
    (ancestorsNearestFirst baseUrl prot).map fun ancestor => ⟨aclFor ancestor, ancestor⟩

/-! ## §3 Reading one ACL -/

/-- `now_secs`: epoch seconds, 0 before the epoch. -/
def nowSecs : Server Int := do
  let t ← perform .now
  pure ((SystemTime.unixSecs? t).getD 0)

namespace WacAuthorizer

variable (wac : WacAuthorizer)

/-- `parse_acl_body`: a malformed ACL is an ACL without rules. -/
def parseAclBody (resource : Resource) (acl : Iri) : List Triple :=
  match parseToTriples wac.codec (storedFormat resource.meta_.contentType) resource.body acl with
  | .ok triples => triples
  | .error _ => []

/-- `read_and_parse_acl`: the uncached read. -/
def readAndParseAcl (acl : Iri) : Server (Option (List Triple)) := do
  match ← (read acl).attempt with
  | .ok resource => pure (some (wac.parseAclBody resource acl))
  | .error .notFound => pure none
  | .error e => throw e

/-- The part `read_acl` and `read_acl_confirmed` share once the record `m` has been probed: a
hit under the record's tag, else the resource `miss` reads, parsed and cached under the tag it
was read with.  A record that vanished in between is an absent ACL. -/
def readThroughCache (acl : Iri) (m : ResourceMeta) (miss : Server Resource) :
    Server (Option (List Triple)) := do
  let now ← nowSecs
  match ← perform (.aclCacheGet acl m.etag now) with
  | some triples => pure (some triples)
  | none =>
    match ← miss.attempt with
    | .ok resource => do
      let triples := wac.parseAclBody resource acl
      perform (.aclCacheInsert acl resource.meta_.etag triples now)
      pure (some triples)
    | .error .notFound => pure none
    | .error e => throw e

/-- `read_acl`: a miss reads record and bytes afresh. -/
def readAcl (acl : Iri) : Server (Option (List Triple)) :=
  if !wac.cached then wac.readAndParseAcl acl
  else do
    match ← meta? acl with
    | none => pure none
    | some m => wac.readThroughCache acl m (read acl)

/-- `read_acl_confirmed`: a miss reads the bytes of the probed record. -/
def readAclConfirmed (acl : Iri) : Server (Option (List Triple)) :=
  if !wac.cached then wac.readAndParseAcl acl
  else do
    match ← meta? acl with
    | none => pure none
    | some m =>
      wac.readThroughCache acl m (do
        let body ← readAt m
        pure ⟨body, m⟩)

/-! ## §4 Resolving the effective ACL -/

/-- The ancestor loop of `resolve_effective_acl`. -/
def resolveAncestors : List Iri → Server ResolvedAcl
  | [] => pure none
  | ancestor :: rest => do
    match ← wac.readAcl (aclFor ancestor) with
    | some triples => pure (some (triples, ancestor, .default))
    | none => resolveAncestors rest

/-- `resolve_effective_acl`: the sequential walk. -/
def resolveEffectiveAcl (resource : Iri) : Server ResolvedAcl := do
  match ← wac.readAcl (aclFor resource) with
  | some triples => pure (some (triples, resource, .accessTo))
  | none => wac.resolveAncestors (ancestorsNearestFirst wac.baseUrl resource)

/-- The loop of `resolve_effective_acl_planned` over the paired rows. -/
def resolvePlannedLoop : Nat → List (AclCandidate × Iri × Option Text) → Server ResolvedAcl
  | _, [] => pure none
  | idx, (candidate, planIri, etag) :: rest =>
    if candidate.acl ≠ planIri then
      throw (.storage "read-plan/candidate IRI mismatch".toList)
    else
      match etag with
      | none => resolvePlannedLoop (idx + 1) rest
      | some _ => do
        match ← wac.readAclConfirmed candidate.acl with
        | some triples =>
          pure (some (triples, candidate.governed, if idx = 0 then .accessTo else .default))
        | none => resolvePlannedLoop (idx + 1) rest

/-- `resolve_effective_acl_planned`: the walk over a read plan's rows. -/
def resolveEffectiveAclPlanned (candidates : List AclCandidate)
    (planAcls : List (Iri × Option Text)) : Server ResolvedAcl :=
  if candidates.length ≠ planAcls.length then
    throw (.storage "read-plan/candidate length mismatch".toList)
  else wac.resolvePlannedLoop 0 (candidates.zip planAcls)

/-! ## §5 Authorization -/

/-- The decision taken over a resolved ACL. -/
def decisionFor (resolved : ResolvedAcl) (required : AccessMode) (requester : Requester) : Decision :=
  let granted := resolved.modesFor requester
  if satisfies granted required then .allow granted
  else if requester.webId.isNone then .unauthenticated else .forbidden

/-- The read decision over a resolved ACL, with both audiences of `WAC-Allow`. -/
def readDecisionFor (resolved : ResolvedAcl) (required : AccessMode) (requester : Requester) :
    ReadDecision :=
  let user := resolved.modesFor requester
  if !satisfies user required then
    if requester.webId.isNone then .unauthenticated else .forbidden
  else
    let pub :=
      if requester.webId.isNone then user
      else resolved.modesFor { webId := none, origin := requester.origin }
    .allow ⟨user, pub⟩

def authorize (target : Iri) (required : AccessMode) (requester : Requester) : Server Decision := do
  let resolved ← wac.resolveEffectiveAcl (protectedResource target)
  pure (decisionFor resolved required requester)

def authorizePlanned (required : AccessMode) (requester : Requester)
    (candidates : List AclCandidate) (planAcls : List (Iri × Option Text)) : Server Decision := do
  let resolved ← wac.resolveEffectiveAclPlanned candidates planAcls
  pure (decisionFor resolved required requester)

def authorizeRead (target : Iri) (required : AccessMode) (requester : Requester) :
    Server ReadDecision := do
  let resolved ← wac.resolveEffectiveAcl (protectedResource target)
  pure (readDecisionFor resolved required requester)

def authorizeReadPlanned (required : AccessMode) (requester : Requester)
    (candidates : List AclCandidate) (planAcls : List (Iri × Option Text)) :
    Server ReadDecision := do
  let resolved ← wac.resolveEffectiveAclPlanned candidates planAcls
  pure (readDecisionFor resolved required requester)

end WacAuthorizer

end SolidServer.Authz
