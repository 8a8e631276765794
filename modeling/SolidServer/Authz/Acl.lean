import Mathlib.Data.Finset.Basic
import Mathlib.Data.Finset.Dedup
import SolidServer.Rdf

/-!
# Access modes and rule matching

The four modes with the operation-to-mode table (`authz/mode.rs`), the matcher that
turns a parsed ACL graph into the modes it grants (`authz/acl.rs`), and the
`WAC-Allow` value (`authz/wac_allow.rs`).

The second half states what the matcher computes without its loops: `Authorizes`
says, triple by triple, what a rule must contain to grant a mode, and
`mem_modesFor` shows the matcher returns exactly the authorised modes.
-/

namespace SolidServer.Authz

/-! ## §1 Modes -/

inductive AccessMode where
  | read
  | write
  | append
  | control
  deriving DecidableEq, Repr

namespace AccessMode

def aclIri : AccessMode → Iri
  | read => "http://www.w3.org/ns/auth/acl#Read".toList
  | write => "http://www.w3.org/ns/auth/acl#Write".toList
  | append => "http://www.w3.org/ns/auth/acl#Append".toList
  | control => "http://www.w3.org/ns/auth/acl#Control".toList

/-- The token of the `WAC-Allow` header. -/
def token : AccessMode → Text
  | read => "read".toList
  | write => "write".toList
  | append => "append".toList
  | control => "control".toList

def fromAclIri (iri : Iri) : Option AccessMode :=
  if iri = "http://www.w3.org/ns/auth/acl#Read".toList then some read
  else if iri = "http://www.w3.org/ns/auth/acl#Write".toList then some write
  else if iri = "http://www.w3.org/ns/auth/acl#Append".toList then some append
  else if iri = "http://www.w3.org/ns/auth/acl#Control".toList then some control
  else none

theorem fromAclIri_eq_some {iri : Iri} {m : AccessMode} :
    fromAclIri iri = some m ↔ iri = m.aclIri := by
  constructor
  · intro h
    unfold fromAclIri at h
    split_ifs at h with h₁ h₂ h₃ h₄ <;> cases h <;> assumption
  · rintro rfl
    cases m <;> decide

end AccessMode

/-- `ACL_SUFFIX`. -/
def aclSuffix : Text := ".acl".toList

/-- `is_acl_resource`: the exact-case test the resolver and the handlers gate on. -/
def isAclResource (iri : Iri) : Bool := Text.endsWith iri aclSuffix

/-- `is_acl_auxiliary_suffix`: the case-insensitive test on the final path segment. -/
def isAclAuxiliarySuffix (iri : Iri) : Bool :=
  let trimmed := (Text.stripSuffix? iri ['/']).getD iri
  let segment := (trimmed.splitOn '/').getLastD trimmed
  Text.endsWith (Text.toAsciiLowercase segment) aclSuffix

/-- The request methods the server routes. -/
inductive Method where
  | get | head | options | post | put | patch | delete
  deriving DecidableEq, Repr

/-- `mode_for_operation`: the one mode an operation needs. -/
def modeForOperation (method : Method) (target : Iri) (isContainer : Bool) : AccessMode :=
  if isAclResource target then .control
  else
    match method with
    | .get | .head | .options => .read
    | .post => if isContainer then .append else .write
    | .put | .patch | .delete => .write

/-! ## §2 The matcher -/

def aclIri (local_ : String) : Iri := "http://www.w3.org/ns/auth/acl#".toList ++ local_.toList

def rdfType : Iri := "http://www.w3.org/1999/02/22-rdf-syntax-ns#type".toList

def foafAgent : Iri := "http://xmlns.com/foaf/0.1/Agent".toList

/-- Which rules of an ACL apply: those for the resource itself, or the inherited ones. -/
inductive AclScope where
  | accessTo
  | default
  deriving DecidableEq, Repr

structure Requester where
  webId : Option Iri
  origin : Option Text
  deriving DecidableEq, Repr

def Requester.isAuthenticated (r : Requester) : Bool := r.webId.isSome

section
variable (triples : List Triple)

/-- The subjects typed `acl:Authorization`, each once, in order of appearance. -/
def authorizationSubjects : List NamedOrBlankNode :=
  triples.foldl (fun subjects t =>
    if t.predicate = rdfType ∧ t.object = .namedNode (aclIri "Authorization") ∧
        t.subject ∉ subjects then subjects ++ [t.subject] else subjects) []

/-- The named-node objects of a subject and predicate. -/
def namedObjects (subject : NamedOrBlankNode) (predicate : Iri) : List Iri :=
  triples.filterMap fun t =>
    if t.subject = subject ∧ t.predicate = predicate then
      match t.object with
      | .namedNode o => some o
      | _ => none
    else none

def scopePredicates : AclScope → List Iri
  | .accessTo => [aclIri "accessTo"]
  | .default => [aclIri "default", aclIri "defaultForNew"]

def appliesToResource (rule : NamedOrBlankNode) (resource : Iri) (scope : AclScope) : Bool :=
  (scopePredicates scope).any fun p => (namedObjects triples rule p).any (· = resource)

def matchesAgent (rule : NamedOrBlankNode) (requester : Requester) : Bool :=
  ((namedObjects triples rule (aclIri "agentClass")).any fun cls =>
      cls = foafAgent || (cls = aclIri "AuthenticatedAgent" && requester.isAuthenticated)) ||
    match requester.webId with
    | some w => (namedObjects triples rule (aclIri "agent")).any (· = w)
    | none => false

def matchesOrigin (rule : NamedOrBlankNode) (requester : Requester) : Bool :=
  let allowed := namedObjects triples rule (aclIri "origin")
  if allowed.isEmpty then true
  else
    match requester.origin with
    | some o => allowed.contains o
    | none => false

def grantedModes (rule : NamedOrBlankNode) : List AccessMode :=
  (namedObjects triples rule (aclIri "mode")).filterMap AccessMode.fromAclIri

/-- One round of the loop of `modes_for`: a rule that does not apply is skipped. -/
def addRule (resource : Iri) (requester : Requester) (scope : AclScope)
    (granted : Finset AccessMode) (rule : NamedOrBlankNode) : Finset AccessMode :=
  if !appliesToResource triples rule resource scope then granted
  else if !matchesAgent triples rule requester then granted
  else if !matchesOrigin triples rule requester then granted
  else granted ∪ (grantedModes triples rule).toFinset

/-- `modes_for`: the modes the graph grants a requester over a resource. -/
def modesFor (resource : Iri) (requester : Requester) (scope : AclScope) : Finset AccessMode :=
  (authorizationSubjects triples).foldl (addRule triples resource requester scope) ∅

end

/-- `satisfies`: the required mode is granted; `Write` also serves for `Append`. -/
def satisfies (granted : Finset AccessMode) (required : AccessMode) : Bool :=
  required ∈ granted || (required = .append && AccessMode.write ∈ granted)

/-! ## §3 `WAC-Allow` -/

structure EffectivePermissions where
  user : Finset AccessMode
  pub : Finset AccessMode
  deriving DecidableEq

def canonicalOrder : List AccessMode := [.read, .write, .append, .control]

def serialiseModes (modes : Finset AccessMode) : Text :=
  List.intercalate [' '] ((canonicalOrder.filter (· ∈ modes)).map AccessMode.token)

def wacAllowHeader (perms : EffectivePermissions) : Text :=
  "user=\"".toList ++ serialiseModes perms.user ++ "\",public=\"".toList ++
    serialiseModes perms.pub ++ "\"".toList

/-! ## §4 What the matcher computes -/

section
variable (triples : List Triple)

/-- The graph says `s p o` with a named node as object. -/
def Says (s : NamedOrBlankNode) (p o : Iri) : Prop := ⟨s, p, .namedNode o⟩ ∈ triples

/-- The rule names the governed resource under the scope. -/
def Names (rule : NamedOrBlankNode) (resource : Iri) : AclScope → Prop
  | .accessTo => Says triples rule (aclIri "accessTo") resource
  | .default => Says triples rule (aclIri "default") resource ∨
      Says triples rule (aclIri "defaultForNew") resource

/-- The rule is for this agent: for everyone, for the authenticated, or for the WebID. -/
def AgentMatches (rule : NamedOrBlankNode) (requester : Requester) : Prop :=
  Says triples rule (aclIri "agentClass") foafAgent ∨
  (Says triples rule (aclIri "agentClass") (aclIri "AuthenticatedAgent") ∧
    requester.webId ≠ none) ∨
  ∃ w, requester.webId = some w ∧ Says triples rule (aclIri "agent") w

/-- The rule lists no origin, or lists the request's. -/
def OriginMatches (rule : NamedOrBlankNode) (requester : Requester) : Prop :=
  (∀ o, ¬ Says triples rule (aclIri "origin") o) ∨
  ∃ o, requester.origin = some o ∧ Says triples rule (aclIri "origin") o

/-- **Authorisation**: some rule of the graph grants the mode itself. -/
def Authorizes (resource : Iri) (requester : Requester) (scope : AclScope)
    (mode : AccessMode) : Prop :=
  ∃ rule, Says triples rule rdfType (aclIri "Authorization") ∧
    Names triples rule resource scope ∧ AgentMatches triples rule requester ∧
    OriginMatches triples rule requester ∧ Says triples rule (aclIri "mode") mode.aclIri

/-- The graph grants what an operation requires: the mode, or `Write` where `Append` is
required. -/
def Permits (resource : Iri) (requester : Requester) (scope : AclScope)
    (required : AccessMode) : Prop :=
  Authorizes triples resource requester scope required ∨
    (required = .append ∧ Authorizes triples resource requester scope .write)

variable {triples}

theorem mem_namedObjects {s : NamedOrBlankNode} {p o : Iri} :
    o ∈ namedObjects triples s p ↔ Says triples s p o := by
  simp only [namedObjects, List.mem_filterMap]
  constructor
  · rintro ⟨⟨subj, pred, obj⟩, ht, h⟩
    split_ifs at h with hsp
    obtain ⟨rfl, rfl⟩ := hsp
    cases obj with
    | namedNode i => simp only [Option.some.injEq] at h; rwa [← h]
    | _ => simp at h
  · intro h
    exact ⟨_, h, by simp⟩

variable {rule : NamedOrBlankNode} {resource : Iri} {scope : AclScope} {requester : Requester}
  {m : AccessMode}

theorem mem_authorizationSubjects :
    rule ∈ authorizationSubjects triples ↔ Says triples rule rdfType (aclIri "Authorization") := by
  -- generalised over the subjects collected so far
  have key : ∀ (ts : List Triple) (acc : List NamedOrBlankNode),
      rule ∈ ts.foldl (fun subjects t =>
        if t.predicate = rdfType ∧ t.object = .namedNode (aclIri "Authorization") ∧
            t.subject ∉ subjects then subjects ++ [t.subject] else subjects) acc ↔
      rule ∈ acc ∨ (⟨rule, rdfType, .namedNode (aclIri "Authorization")⟩ : Triple) ∈ ts := by
    intro ts
    induction ts with
    | nil => simp
    | cons t ts ih =>
      intro acc
      obtain ⟨s, p, o⟩ := t
      rw [List.foldl_cons, ih]
      split_ifs with h
      · obtain ⟨rfl, rfl, -⟩ := h
        simp only [List.mem_append, List.mem_cons, Triple.mk.injEq]
        tauto
      · simp only [List.mem_cons]
        constructor
        · tauto
        · rintro (hacc | ⟨rfl, rfl, rfl⟩ | hts)
          · exact .inl hacc
          · exact .inl (by simpa using h)
          · exact .inr hts
  simpa [authorizationSubjects, Says] using key triples []

theorem appliesToResource_iff :
    appliesToResource triples rule resource scope = true ↔ Names triples rule resource scope := by
  cases scope <;> simp [appliesToResource, scopePredicates, Names, mem_namedObjects]

theorem matchesAgent_iff :
    matchesAgent triples rule requester = true ↔ AgentMatches triples rule requester := by
  obtain ⟨webId, origin⟩ := requester
  have hcls : ((namedObjects triples rule (aclIri "agentClass")).any fun cls =>
        cls = foafAgent || (cls = aclIri "AuthenticatedAgent" && webId.isSome)) = true ↔
      Says triples rule (aclIri "agentClass") foafAgent ∨
      (Says triples rule (aclIri "agentClass") (aclIri "AuthenticatedAgent") ∧ webId ≠ none) := by
    simp only [List.any_eq_true, Bool.or_eq_true, Bool.and_eq_true, decide_eq_true_eq,
      mem_namedObjects, Option.isSome_iff_ne_none]
    constructor
    · rintro ⟨c, hc, rfl | ⟨rfl, hw⟩⟩
      · exact .inl hc
      · exact .inr ⟨hc, hw⟩
    · rintro (h | ⟨h, hw⟩)
      · exact ⟨_, h, .inl rfl⟩
      · exact ⟨_, h, .inr ⟨rfl, hw⟩⟩
  unfold matchesAgent AgentMatches
  simp only [Requester.isAuthenticated, Bool.or_eq_true, hcls, or_assoc]
  cases webId with
  | none => simp
  | some w => simp [mem_namedObjects]

theorem matchesOrigin_iff :
    matchesOrigin triples rule requester = true ↔ OriginMatches triples rule requester := by
  have hempty : (namedObjects triples rule (aclIri "origin")).isEmpty = true ↔
      ∀ o, ¬ Says triples rule (aclIri "origin") o := by
    simp [List.eq_nil_iff_forall_not_mem, mem_namedObjects]
  simp only [matchesOrigin, OriginMatches]
  split_ifs with h
  · simp [hempty.mp h]
  · have hsome : ¬ ∀ o, ¬ Says triples rule (aclIri "origin") o := fun hn => h (hempty.mpr hn)
    cases requester.origin with
    | none => simp [hsome]
    | some o => simp [hsome, mem_namedObjects]

theorem mem_grantedModes :
    m ∈ grantedModes triples rule ↔ Says triples rule (aclIri "mode") m.aclIri := by
  simp [grantedModes, AccessMode.fromAclIri_eq_some, mem_namedObjects]

theorem mem_addRule {granted : Finset AccessMode} :
    m ∈ addRule triples resource requester scope granted rule ↔
      m ∈ granted ∨ (Names triples rule resource scope ∧ AgentMatches triples rule requester ∧
        OriginMatches triples rule requester ∧ Says triples rule (aclIri "mode") m.aclIri) := by
  rw [← appliesToResource_iff, ← matchesAgent_iff, ← matchesOrigin_iff, ← mem_grantedModes]
  unfold addRule
  split_ifs with h₁ h₂ h₃ <;> simp_all

/-- **Rule matching**: the matcher grants exactly the authorised modes. -/
theorem mem_modesFor :
    m ∈ modesFor triples resource requester scope ↔
      Authorizes triples resource requester scope m := by
  -- generalised over the rules still to visit and the modes granted so far
  have key : ∀ (rules : List NamedOrBlankNode) (acc : Finset AccessMode),
      m ∈ rules.foldl (addRule triples resource requester scope) acc ↔
      m ∈ acc ∨ ∃ rule ∈ rules, Names triples rule resource scope ∧
        AgentMatches triples rule requester ∧ OriginMatches triples rule requester ∧
        Says triples rule (aclIri "mode") m.aclIri := by
    intro rules
    induction rules with
    | nil => simp
    | cons r rules ih =>
      intro acc
      rw [List.foldl_cons, ih, mem_addRule]
      simp only [List.mem_cons, exists_eq_or_imp]
      tauto
  unfold modesFor Authorizes
  rw [key]
  simp [mem_authorizationSubjects]

/-- **Sufficiency**: the granted set satisfies a requirement exactly when the graph permits
it. -/
theorem satisfies_modesFor :
    satisfies (modesFor triples resource requester scope) m = true ↔
      Permits triples resource requester scope m := by
  simp [satisfies, Permits, mem_modesFor]

end

@[simp] theorem satisfies_empty (m : AccessMode) : satisfies ∅ m = false := by
  simp [satisfies]

end SolidServer.Authz
