import SolidServer.Authz.Wac
import SolidServer.Ldp.Conditional
import SolidServer.Ldp.Patch
import SolidServer.Ldp.Target

/-!
# The LDP handlers

One program per verb (`ldp/handler.rs`), over the store, the caches and the
authorizer.  A handler's result is a response or a server error, and the error's own
response is what the client sees (`respond`).

The order of the steps is the source's: the target is parsed, the request authorised,
and only then is anything about the target looked at.
-/

namespace SolidServer.Ldp

open SolidServer.Effects SolidServer.Store SolidServer.Authz

/-- A request as the handlers see it: `webId` is the verified token's. -/
structure Request where
  method : Method
  path : Text
  headers : HeaderMap
  body : Bytes
  webId : Option Iri

def Request.requester (r : Request) : Requester := ⟨r.webId, requestOrigin r.headers⟩

/-- `LdpState`, with the RDF libraries it calls. -/
structure LdpState where
  codec : RdfCodec
  baseUrl : Text
  wwwAuthenticate : Text

namespace LdpState

variable (s : LdpState)

/-! ## §1 Authorization -/

/-- `WacAuthorizer::with_cache` over the state's own cache. -/
def wac : WacAuthorizer := ⟨s.codec, s.baseUrl, true⟩

def unauthenticated : ServerError :=
  .unauthorized 401 "Authentication required for this resource.".toList s.wwwAuthenticate

/-- The refusal of a request: a challenge without a WebID, else `Forbidden`. -/
def refusal (webId : Option Iri) : ServerError :=
  if webId.isNone then s.unauthenticated else .forbidden

/-- `authorize_planned_iri`: the plan's target slot is the first candidate. -/
def authorizePlannedIri (target : Iri) (required : AccessMode) (requester : Requester) :
    Server Decision := do
  let candidates := readPlanCandidates s.baseUrl target
  let aclIris := candidates.map AclCandidate.acl
  let plan ← readPlan (aclIris.headD []) aclIris
  s.wac.authorizePlanned required requester candidates plan.acls

/-- `authorize_mode`: anything on an ACL needs `Control`. -/
def authorizeMode (target : Iri) (required : AccessMode) (requester : Requester) :
    Server (Finset AccessMode) := do
  let required := if isAclResource target then .control else required
  match ← s.authorizePlannedIri target required requester with
  | .allow modes => pure modes
  | .unauthenticated => throw s.unauthenticated
  | .forbidden => throw .forbidden

def authorize (method : Method) (target : LdpTarget) (requester : Requester) :
    Server (Finset AccessMode) :=
  s.authorizeMode target.iri (modeForOperation method target.iri target.isContainer) requester

/-- `authorize_iri`: the mode itself, on an arbitrary IRI. -/
def authorizeIri (target : Iri) (required : AccessMode) (requester : Requester) : Server Unit := do
  match ← s.authorizePlannedIri target required requester with
  | .allow _ => pure ()
  | .unauthenticated => throw s.unauthenticated
  | .forbidden => throw .forbidden

/-- `authorize_read`: the decision and the target's record from one plan. -/
def authorizeRead (method : Method) (target : LdpTarget) (requester : Requester) :
    Server (EffectivePermissions × Option ResourceMeta) := do
  let required :=
    if isAclResource target.iri then .control
    else modeForOperation method target.iri target.isContainer
  let candidates := readPlanCandidates s.baseUrl target.iri
  let plan ← readPlan target.iri (candidates.map AclCandidate.acl)
  match ← s.wac.authorizeReadPlanned required requester candidates plan.acls with
  | .allow perms => pure (perms, plan.target)
  | .unauthenticated => throw s.unauthenticated
  | .forbidden => throw .forbidden

/-- `invalidate_acl_if_acl`. -/
def invalidateAclIfAcl (target : Iri) : Server Unit :=
  if isAclResource target then perform (.aclCacheInvalidate target) else pure ()

/-! ## §2 Guards -/

/-- `conditional_carries_etag`: a value that is not a wildcard, or not readable as text. -/
def conditionalCarriesEtag (headers : HeaderMap) (name : HeaderName) : Bool :=
  match headers.get name with
  | none => false
  | some v =>
    match v.toStr? with
    | some t => !isWildcard t
    | none => true

/-- The mode that lets a requester learn about a target's content. -/
def readMode (target : Iri) : AccessMode := if isAclResource target then .control else .read

/-- A refusal unless the target's read mode was granted. -/
def guardRead (target : Iri) (granted : Finset AccessMode) (webId : Option Iri) :
    Except ServerError Unit :=
  if readMode target ∉ granted then .error (s.refusal webId) else .ok ()

def guardConditionalRequiresRead (target : Iri) (headers : HeaderMap)
    (granted : Finset AccessMode) (webId : Option Iri) : Except ServerError Unit :=
  if conditionalCarriesEtag headers .ifMatch || conditionalCarriesEtag headers .ifNoneMatch then
    s.guardRead target granted webId
  else .ok ()

def guardPostExistenceRequiresRead (target : Iri) (granted : Finset AccessMode)
    (webId : Option Iri) : Except ServerError Unit := s.guardRead target granted webId

/-- The write preconditions of a request against the current entity tag. -/
def checkPreconditions (headers : HeaderMap) (current : Option Text) : Except ServerError Unit :=
  require (evaluate (headerStr headers .ifMatch) (headerStr headers .ifNoneMatch) current)

/-! ## §3 Containers -/

/-- The loop of `nearest_existing_container`; every round shortens `current`. -/
def nearestLoop (root : Iri) : Nat → Text → Server (Option Iri)
  | 0, _ => pure none
  | fuel + 1, current =>
    match Text.throughLast current '/' with
    | none => pure none
    | some parent => do
      if ← exists_ parent then pure (some parent)
      else if parent = root ∨ Text.len parent ≤ Text.len root then pure none
      else nearestLoop root fuel parent.dropLast

def nearestExistingContainer (target : Iri) : Server (Option Iri) :=
  let current := if Text.endsWith target ['/'] then target.dropLast else target
  nearestLoop (storageRoot s.baseUrl) (current.length + 1) current

/-- `authorize_container_modification`: `Append` on the nearest existing container. -/
def authorizeContainerModification (target : Iri) (requester : Requester) : Server Unit :=
  if isAclResource target then pure ()
  else do
    match ← s.nearestExistingContainer target with
    | some container => s.authorizeIri container .append requester
    | none => pure ()

/-- `parent_container`: up to the last slash of the path part. -/
def parentContainer (target : Iri) : Option Iri :=
  let iri := Text.trimEndMatches target '/'
  let schemeEnd := ((Text.find "://".toList iri).map (· + 3)).getD 0
  (Text.throughLast (iri.drop schemeEnd) '/').map fun p => iri.take schemeEnd ++ p

/-- Create an ancestor container that is not there yet. -/
def createMissing (parent container : Iri) : Server Unit := do
  if ← exists_ container then pure ()
  else do
    let _ ← createInContainer parent container [] RdfFormat.turtle.mediaType

/-- Whether a plain resource stands where a container is needed. -/
def slashlessClash (slashless container : Iri) : Server Bool := do
  if ← exists_ slashless then return !(← exists_ container)
  else pure false

/-- The loop of `ensure_ancestor_containers` over the segments, outermost first. -/
def ensureLoop : List Text → Text → Iri → Server Unit
  | [], _, _ => pure ()
  | seg :: rest, pre, parent => do
    let pre := pre ++ ['/'] ++ seg
    let container := pre ++ ['/']
    if ← slashlessClash pre container then
      throw (.conflict "an ancestor path already exists as a non-container resource".toList)
    else do
      createMissing parent container
      ensureLoop rest pre container

/-- The root's record, written if missing. -/
def ensureRoot (root : Iri) : Server Unit := do
  if ← exists_ root then pure ()
  else do
    let _ ← write root [] RdfFormat.turtle.mediaType

def ensureAncestorContainers (iri : Iri) : Server Unit :=
  let base := Text.trimEndMatches s.baseUrl '/'
  match Text.stripPrefix? iri base with
  | none => pure ()
  | some rest => do
    ensureRoot (base ++ ['/'])
    ensureLoop ((Text.trimStartMatches rest '/').splitOn '/').dropLast base (base ++ ['/'])

/-- `reject_slash_semantics_conflict`. -/
def rejectSlashSemanticsConflict (target : LdpTarget) : Server Unit := do
  let opposite :=
    if target.isContainer then Text.trimEndMatches target.iri '/' else target.iri ++ ['/']
  if ← exists_ opposite then
    throw (.conflict
      "a resource and a container cannot share the same path (trailing-slash semantics)".toList)
  else pure ()

/-! ## §4 Representations -/

/-- `add_method_advertisement`. -/
def addMethodAdvertisement (h : HeaderMap) (isContainer : Bool) : HeaderMap :=
  let h := h.setStr .allow "OPTIONS, HEAD, GET, PUT, POST, DELETE, PATCH".toList
  let h := if isContainer then h.setStr .acceptPost "text/turtle, application/ld+json".toList else h
  h.setStr .acceptPatch "text/n3, application/sparql-update".toList

/-- A `Link` value with a relation. -/
def linkValue (target : Text) (rel : String) : Text :=
  "<".toList ++ target ++ ">; rel=\"".toList ++ rel.toList ++ "\"".toList

/-- `add_discovery_links`: both relations point at the storage description. -/
def addDiscoveryLinks (h : HeaderMap) : HeaderMap :=
  let description := Text.trimEndMatches s.baseUrl '/' ++ "/.well-known/solid".toList
  (h.appendStr .link (linkValue description "describedby")).appendStr .link
    (linkValue description "http://www.w3.org/ns/solid/terms#storageDescription")

/-- `is_storage_root`: a pod container directly under the base. -/
def isStorageRoot (iri : Iri) : Bool :=
  match Text.stripPrefix? iri (Text.trimEndMatches s.baseUrl '/') with
  | none => false
  | some rest =>
    let inner := innerPath rest
    inner ≠ [] ∧ '/' ∉ inner ∧ Text.endsWith rest ['/']

def ldpTerm (local_ : String) : Iri := "http://www.w3.org/ns/ldp#".toList ++ local_.toList

/-- `add_type_links`. -/
def addTypeLinks (h : HeaderMap) (target : LdpTarget) : HeaderMap :=
  let h := h.appendStr .link (linkValue (ldpTerm "Resource") "type")
  if target.isContainer then
    let h := h.appendStr .link (linkValue (ldpTerm "Container") "type")
    let h := h.appendStr .link (linkValue (ldpTerm "BasicContainer") "type")
    if s.isStorageRoot target.iri then
      h.appendStr .link (linkValue "http://www.w3.org/ns/pim/space#Storage".toList "type")
    else h
  else h

/-- `add_acl_link`. -/
def addAclLink (h : HeaderMap) (target : LdpTarget) : HeaderMap :=
  h.appendStr .link (linkValue (target.iri ++ ".acl".toList) "acl")

/-- `representation_etag`: the tag of a rendered body. -/
def representationEtag (body : Bytes) : Text :=
  "\"".toList ++ Text.decimal body.length ++ "-".toList ++ Text.hex (fnv1a body) ++ "\"".toList

def variantSuffix : RdfFormat → Text
  | .turtle => "ttl".toList
  | .jsonLd => "jsonld".toList

/-- A negotiated format, or a 406. -/
def negotiate (accept : Option Text) (stored : RdfFormat) : Except ServerError RdfFormat :=
  match negotiateAccept accept stored with
  | some f => .ok f
  | none => .error .notAcceptable

/-- `negotiated_validator`: the stored tag, or that of the variant to be served. -/
def negotiatedValidator (storedEtag storedContentType : Text) (accept : Option Text) :
    Except ServerError Text :=
  match classify (some storedContentType) with
  | .error _ => .ok storedEtag
  | .ok stored =>
    (negotiate accept stored).map fun chosen =>
      if chosen = stored then storedEtag else variantEtag storedEtag (variantSuffix chosen)

/-- `negotiate_body`: the stored bytes, or the stored triples in the negotiated format. -/
def negotiateBody (storedBody : Bytes) (storedContentType : Text) (accept : Option Text)
    (baseIri : Iri) : Except ServerError (Bytes × Text) :=
  match classify (some storedContentType) with
  | .error _ => .ok (storedBody, storedContentType)
  | .ok stored => do
    let chosen ← negotiate accept stored
    if chosen = stored then pure (storedBody, storedContentType)
    else do
      let triples ← parseToTriples s.codec stored storedBody baseIri
      let bytes ← serializeTriples s.codec chosen triples
      pure (bytes, chosen.mediaType)

/-- The triples the server adds to a container's own. -/
def containerTriples (container : Iri) (children : List Iri) : List Triple :=
  let type_ := fun c : String => (⟨.namedNode container, rdfType, .namedNode (ldpTerm c)⟩ : Triple)
  [type_ "Resource", type_ "Container", type_ "BasicContainer"] ++
    children.map fun child => ⟨.namedNode container, ldpTerm "contains", .namedNode child⟩

/-- `render_container`: the stored triples, then the generated ones that are not among them. -/
def renderContainer (container : Iri) (storedBody : Bytes) (storedContentType : Text)
    (accept : Option Text) : Server (Bytes × Text) := do
  let storedFormat := (classify (some storedContentType)).toOption
  let format ← check (negotiate accept (storedFormat.getD .turtle))
  if !s.codec.validIri container then
    throw (.storage ("invalid container IRI ".toList ++ container))
  else do
    let storedTriples :=
      match storedFormat with
      | some fmt => ((parseToTriples s.codec fmt storedBody container).toOption).getD []
      | none => []
    let children ← listChildren s.codec container
    let generated := (containerTriples container children).filter (· ∉ storedTriples)
    let bytes ← check (serializeTriples s.codec format (storedTriples ++ generated))
    pure (bytes, format.mediaType)

/-- What a read is about to serve: a rendered container, or the stored resource's validator. -/
inductive Rendered where
  | container (body : Bytes) (contentType : Text)
  | stored

/-- The representation a read starts from and its entity tag. -/
def renderTarget (target : LdpTarget) (resource : Resource) (accept : Option Text) :
    Server (Rendered × Text) :=
  if target.isContainer then do
    let (body, contentType) ←
      s.renderContainer target.iri resource.body resource.meta_.contentType accept
    pure (.container body contentType, representationEtag body)
  else do
    let etag ← check
      (negotiatedValidator resource.meta_.etag resource.meta_.contentType accept)
    pure (.stored, etag)

/-- The headers every successful read carries. -/
def readHeaders (target : LdpTarget) (etag : Text) (perms : EffectivePermissions)
    (lastModified : Option SystemTime) : HeaderMap :=
  let out := (HeaderMap.setStr [] .etag etag).setStr .vary "Accept".toList
  let out := addMethodAdvertisement out target.isContainer
  let out := addAclLink (s.addTypeLinks (s.addDiscoveryLinks out) target) target
  let out := out.setStr .wacAllow (wacAllowHeader perms)
  match lastModified.bind toImfFixdate with
  | some imf => out.setStr .lastModified imf
  | none => out

/-- The tail of a read: the byte range of the body to serve. -/
def rangeResponse (out : HeaderMap) (req : Request) (body : Bytes) (contentType : Text)
    (withBody : Bool) : Response :=
  let total := body.length
  let outcome := if withBody then evaluateRange (headerStr req.headers .range) total else .full
  let out := (out.setStr .contentType contentType).setStr .acceptRanges "bytes".toList
  match outcome with
  | .unsatisfiable =>
    Response.ofHeadersText 416
      (out.setStr .contentRange ("bytes */".toList ++ Text.decimal total))
      "range not satisfiable".toList
  | .satisfied start stop =>
    let slice := (body.drop start).take (stop + 1 - start)
    let out := out.setStr .contentRange ("bytes ".toList ++ Text.decimal start ++ "-".toList ++
      Text.decimal stop ++ "/".toList ++ Text.decimal total)
    let out := out.setStr .contentLength (Text.decimal slice.length)
    if withBody then Response.ofHeadersBytes 206 out slice else Response.ofHeaders 206 out
  | .full =>
    let out := out.setStr .contentLength (Text.decimal total)
    if withBody then Response.ofHeadersBytes 200 out body else Response.ofHeaders 200 out

/-- `serve_read`, behind `GET` and `HEAD`. -/
def serveRead (req : Request) (withBody : Bool) : Server Response := do
  let target ← check (parseTarget s.baseUrl req.path)
  let (perms, targetMeta) ←
    s.authorizeRead (if withBody then .get else .head) target req.requester
  match targetMeta with
  | none => throw .notFound
  | some m => do
    let body ← readAt m
    let accept := headerStr req.headers .accept
    let (rendered, etag) ← s.renderTarget target ⟨body, m⟩ accept
    let lastModified := if target.isContainer then none else m.lastModified
    let out := s.readHeaders target etag perms lastModified
    if evaluateRead (headerStr req.headers .ifNoneMatch) (headerStr req.headers .ifModifiedSince)
        etag lastModified = .notModified then
      pure (Response.ofHeaders 304 out)
    else
      match rendered with
      | .container body contentType => pure (rangeResponse out req body contentType withBody)
      | .stored => do
        let (body, contentType) ←
          check (s.negotiateBody body m.contentType accept target.iri)
        pure (rangeResponse out req body contentType withBody)

/-! ## §5 Writing -/

/-- `require_content_type`. -/
def requireContentType (headers : HeaderMap) : Except ServerError Text :=
  match headerStr headers .contentType with
  | some ct =>
    if Text.trim ct ≠ [] then .ok ct
    else .error (.badRequest "a write request must declare a Content-Type".toList)
  | none => .error (.badRequest "a write request must declare a Content-Type".toList)

/-- `validate_writable`: the type a body is stored under; RDF bodies must parse. -/
def validateWritable (contentType : Text) (body : Bytes) (baseIri : Iri) :
    Except ServerError Text :=
  match classify (some contentType) with
  | .ok format => (validateRdf s.codec format body baseIri).map fun _ => format.mediaType
  | .error (.unsupportedMediaType _) => .ok (Text.trim contentType)
  | .error e => .error e

/-- The write of `PUT` and `PATCH`: an existing resource and an ACL are written in place, any
other creation is authorised on its container and wired into it. -/
def storeTarget (target : Iri) (requester : Requester) (existed : Bool) (body : Bytes)
    (storedType : Text) : Server ResourceMeta :=
  if existed then write target body storedType
  else if isAclResource target then write target body storedType
  else do
    s.authorizeContainerModification target requester
    s.ensureAncestorContainers target
    match parentContainer target with
    | some p => createInContainer p target body storedType
    | none => write target body storedType

/-- `write_response`. -/
def writeResponse (existed : Bool) (m : ResourceMeta) (iri : Iri) : Response :=
  let out := HeaderMap.setStr [] .etag m.etag
  let out := if existed then out else out.setStr .location iri
  Response.ofHeaders (if existed then 204 else 201) out

/-- After the write of `PUT` and `PATCH`: notify, drop the cached ACL, answer. -/
def finishWrite (target : Iri) (existed : Bool) (m : ResourceMeta) : Server Response := do
  let emitParent := if existed || isAclResource target then none else parentContainer target
  notify target (if existed then .update else .create) emitParent
  invalidateAclIfAcl target
  pure (writeResponse existed m target)

def putHandler (req : Request) : Server Response := do
  let target ← check (parseTarget s.baseUrl req.path)
  let granted ← s.authorize .put target req.requester
  check (s.guardConditionalRequiresRead target.iri req.headers granted req.webId)
  let current ← meta? target.iri
  rejectSlashSemanticsConflict target
  let contentType ← check (requireContentType req.headers)
  let storedType ← check (s.validateWritable contentType req.body target.iri)
  check (checkPreconditions req.headers (current.map ResourceMeta.etag))
  let m ← s.storeTarget target.iri req.requester current.isSome req.body storedType
  finishWrite target.iri current.isSome m

/-- `sanitise_slug`. -/
def sanitiseSlug (raw : Text) : Option Text :=
  let cleaned := raw.filter fun c =>
    c.isAlphanum ∨ c = '.' ∨ c = '_' ∨ c = '-'
  if cleaned = [] ∨ cleaned = ".".toList ∨ cleaned = "..".toList then none else some cleaned

/-- `wants_container_via_link`. -/
def wantsContainerViaLink (headers : HeaderMap) : Bool :=
  (headers.getAll .link).any fun v =>
    match v.toStr? with
    | none => false
    | some t =>
      let lower := Text.toAsciiLowercase t
      Text.contains "rel=\"type\"".toList lower &&
        (Text.contains "ldp#basiccontainer".toList lower ||
          Text.contains "ldp#container".toList lower)

/-- The name `generate_unique` tries in one round. -/
def childCandidate (base stem : Text) (seed n attempt : Nat) (asContainer : Bool) : Iri :=
  base ++ "/".toList ++ stem ++ "-".toList ++ Text.hex seed ++ "-".toList ++ Text.hex n ++
    "-".toList ++ Text.hex attempt ++ (if asContainer then "/".toList else [])

/-- The loop of `generate_unique`, `left` rounds before the last of 64. -/
def generateLoop (base stem : Text) (seed : Nat) (asContainer : Bool) : Nat → Server Iri
  | 0 => throw (.storage "could not mint a unique child IRI".toList)
  | left + 1 => do
    let n ← perform .fetchAddCounter
    let candidate := childCandidate base stem seed n (64 - (left + 1)) asContainer
    if ← exists_ candidate then generateLoop base stem seed asContainer left
    else pure candidate

/-- `mint_child_iri`: seeded by the clock in nanoseconds. -/
def mintChildIri (container : Iri) (stem : Option Text) (asContainer : Bool) : Server Iri := do
  let t ← perform .now
  let seed := if 0 ≤ t then t.toNat % 2 ^ 64 else 0
  generateLoop (Text.trimEndMatches container '/') (stem.getD "resource".toList) seed asContainer 64

/-- The existence check of `POST`: absence and faults are reported to readers only. -/
def requireContainer (container : Iri) (granted : Finset AccessMode) (webId : Option Iri) :
    Server Unit := do
  match ← (exists_ container).attempt with
  | .ok true => pure ()
  | .ok false => do
    check (s.guardPostExistenceRequiresRead container granted webId)
    throw .notFound
  | .error e => do
    check (s.guardPostExistenceRequiresRead container granted webId)
    throw e

/-- `POST` to a path that is not a container's. -/
def postToResource (target : Iri) (granted : Finset AccessMode) (webId : Option Iri) :
    Server Response := do
  check (s.guardPostExistenceRequiresRead target granted webId)
  if ← exists_ target then throw .methodNotAllowed else throw .notFound

/-- A slug that would name an ACL is refused. -/
def refuseAclSlug (stem : Option Text) (webId : Option Iri) : Except ServerError Unit :=
  match stem with
  | some t => if isAclAuxiliarySuffix t then .error (s.refusal webId) else .ok ()
  | none => .ok ()

/-- `POST` to an existing container: mint a child and create it there. -/
def postToContainer (container : Iri) (req : Request) : Server Response := do
  let contentType ← check (requireContentType req.headers)
  let stem := (headerStr req.headers .slug).bind sanitiseSlug
  check (s.refuseAclSlug stem req.webId)
  let child ← mintChildIri container stem (wantsContainerViaLink req.headers)
  let storedType ← check (s.validateWritable contentType req.body child)
  let m ← createInContainer container child req.body storedType
  notify child .create (some container)
  pure (Response.ofHeaders 201 ((HeaderMap.setStr [] .etag m.etag).setStr .location child))

def postHandler (req : Request) : Server Response := do
  let container ← check (parseTarget s.baseUrl req.path)
  let granted ← s.authorize .post container req.requester
  if !container.isContainer then s.postToResource container.iri granted req.webId
  else do
    s.requireContainer container.iri granted req.webId
    s.postToContainer container.iri req

/-- The mode a `DELETE` needs on its target. -/
def deleteMode (target : LdpTarget) : AccessMode :=
  if isAclResource target.iri || target.isContainer then .control else .write

/-- Membership loss needs `Write` on the nearest existing container. -/
def authorizeRemoval (target : Iri) (requester : Requester) : Server Unit :=
  if isAclResource target then pure ()
  else do
    match ← s.nearestExistingContainer target with
    | some p => s.authorizeIri p .write requester
    | none => pure ()

/-- The removal proper of a container. -/
def deleteContainer (target : Iri) (parent : Option Iri) : Server Response := do
  match ← deleteContainerIfEmpty target parent with
  | .deleted => do
    notify target .delete parent
    pure (Response.ofHeaders 204 [])
  | .notEmpty => throw (.conflict "cannot delete a non-empty container".toList)
  | .notFound => throw .notFound

/-- The removal proper of a document. -/
def deleteDocument (target : Iri) (parent : Option Iri) : Server Response := do
  Store.delete target parent
  invalidateAclIfAcl target
  notify target .delete parent
  pure (Response.ofHeaders 204 [])

def deleteHandler (req : Request) : Server Response := do
  let target ← check (parseTarget s.baseUrl req.path)
  let granted ← s.authorizeMode target.iri (deleteMode target) req.requester
  s.authorizeRemoval target.iri req.requester
  check (s.guardConditionalRequiresRead target.iri req.headers granted req.webId)
  match ← meta? target.iri with
  | none => throw (s.refusal req.webId)
  | some current => do
    check (checkPreconditions req.headers (some current.etag))
    let parent := if isAclResource target.iri then none else parentContainer target.iri
    if target.isContainer then deleteContainer target.iri parent
    else deleteDocument target.iri parent

/-- The patch document of a request. -/
def parsePatch (req : Request) (target : Iri) : Except ServerError N3Patch :=
  match classifyPatchMediaType (headerStr req.headers .contentType) with
  | .error e => .error e
  | .ok .n3 => parseN3Patch s.codec req.body target
  | .ok .sparqlUpdate => parseSparqlUpdate s.codec req.body target

/-- The mode a patch needs: deleting is writing, inserting is appending. -/
def patchMode (patch : N3Patch) : AccessMode := if patch.deletes ≠ [] then .write else .append

/-- Conditions read the target, so they need its read mode. -/
def guardConditions (patch : N3Patch) (target : Iri) (granted : Finset AccessMode)
    (webId : Option Iri) : Except ServerError Unit :=
  if patch.conditions ≠ [] then s.guardRead target granted webId else .ok ()

/-- The current resource, if there is one. -/
def readCurrent (target : Iri) : Server (Option Resource) := do
  match ← (read target).attempt with
  | .ok r => pure (some r)
  | .error .notFound => pure none
  | .error e => throw e

/-- The patched body and the format it is stored in. -/
def patchedBody (current : Option Resource) (patch : N3Patch) (target : Iri) :
    Except ServerError (Bytes × RdfFormat) := do
  let (existing, format) ←
    match current with
    | some res => do
      let fmt := storedFormat res.meta_.contentType
      let triples ← parseToTriples s.codec fmt res.body target
      pure (triples, fmt)
    | none => pure ([], .turtle)
  let patched ← applyPatch existing patch
  let body ← serializeTriples s.codec format patched
  pure (body, format)

def patchHandler (req : Request) : Server Response := do
  let target ← check (parseTarget s.baseUrl req.path)
  let patch ← check (s.parsePatch req target.iri)
  let granted ← s.authorizeMode target.iri (patchMode patch) req.requester
  check (s.guardConditions patch target.iri granted req.webId)
  check (s.guardConditionalRequiresRead target.iri req.headers granted req.webId)
  let current ← readCurrent target.iri
  check (checkPreconditions req.headers (current.map fun r => r.meta_.etag))
  let (body, format) ← check (s.patchedBody current patch target.iri)
  let m ← s.storeTarget target.iri req.requester current.isSome body format.mediaType
  finishWrite target.iri current.isSome m

/-- `options_handler`: the methods of any path. -/
def optionsHandler (req : Request) : Server Response :=
  pure (Response.ofHeaders 204 (addMethodAdvertisement [] (Text.endsWith req.path ['/'])))

/-- The handler of a request's verb. -/
def serve (req : Request) : Server Response :=
  match req.method with
  | .get => s.serveRead req true
  | .head => s.serveRead req false
  | .put => s.putHandler req
  | .post => s.postHandler req
  | .patch => s.patchHandler req
  | .delete => s.deleteHandler req
  | .options => optionsHandler req

/-- What a client gets for a request run alone, and the world it leaves behind. -/
def handle (req : Request) (w : World) : Response × World :=
  let r := exec (s.serve req) w
  (respond r.1, r.2)

end LdpState

end SolidServer.Ldp
