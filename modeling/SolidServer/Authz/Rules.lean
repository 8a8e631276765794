import Mathlib.Data.Finset.Union
import SolidServer.Authz.Wac

/-!
# What single rules contribute

The matcher adds up what the authorization rules of a graph grant one by one
(`contribution`).  A rule is read off its own triples, so neither the order of a graph nor
what it says about other things matters, and a rule that lets everyone in lets the
authenticated in as well.

A rule that is restricted to origins grants nothing from elsewhere, provided one of its
origins is an IRI: an origin written as a literal is dropped before the restriction is
looked at (`literal_origin_unrestricted`).
-/

namespace SolidServer.Authz

open SolidServer.Effects SolidServer.Store

/-! ## §1 Contributions -/

section
variable {triples : List Triple} {resource : Iri} {requester : Requester} {scope : AclScope}
  {rule : NamedOrBlankNode}

/-- What the loop of `modes_for` adds for a rule. -/
def contribution (triples : List Triple) (resource : Iri) (requester : Requester)
    (scope : AclScope) (rule : NamedOrBlankNode) : Finset AccessMode :=
  addRule triples resource requester scope ∅ rule

theorem mem_contribution {m : AccessMode} :
    m ∈ contribution triples resource requester scope rule ↔
      Names triples rule resource scope ∧ AgentMatches triples rule requester ∧
        OriginMatches triples rule requester ∧ Says triples rule (aclIri "mode") m.aclIri := by
  rw [contribution, mem_addRule]
  simp

theorem contribution_eq_empty :
    contribution triples resource requester scope rule = ∅ ↔
      ¬ (Names triples rule resource scope ∧ AgentMatches triples rule requester ∧
        OriginMatches triples rule requester ∧
        ∃ m : AccessMode, Says triples rule (aclIri "mode") m.aclIri) := by
  rw [Finset.eq_empty_iff_forall_notMem]
  constructor
  · rintro h ⟨hnames, hagent, horigin, m, hmode⟩
    exact h m (mem_contribution.mpr ⟨hnames, hagent, horigin, hmode⟩)
  · intro h m hm
    obtain ⟨hnames, hagent, horigin, hmode⟩ := mem_contribution.mp hm
    exact h ⟨hnames, hagent, horigin, m, hmode⟩

/-- **The modes of a graph** are what its rules contribute. -/
theorem modesFor_eq_biUnion :
    modesFor triples resource requester scope =
      (authorizationSubjects triples).toFinset.biUnion
        (contribution triples resource requester scope) := by
  ext m
  rw [mem_modesFor, Finset.mem_biUnion]
  constructor
  · rintro ⟨rule, htype, hrest⟩
    exact ⟨rule, List.mem_toFinset.mpr (mem_authorizationSubjects.mpr htype),
      mem_contribution.mpr hrest⟩
  · rintro ⟨rule, hrule, hm⟩
    exact ⟨rule, mem_authorizationSubjects.mp (List.mem_toFinset.mp hrule),
      mem_contribution.mp hm⟩

end

/-! ## §2 A rule is read off its own triples -/

section
variable {ts us : List Triple} {rule : NamedOrBlankNode}

/-- The triples with the rule as subject. -/
def ownTriples (triples : List Triple) (rule : NamedOrBlankNode) : List Triple :=
  triples.filter fun t => t.subject = rule

theorem says_ownTriples {p o : Iri} : Says (ownTriples ts rule) rule p o ↔ Says ts rule p o := by
  unfold Says ownTriples
  simp [List.mem_filter]

/-- Two graphs that say the same about a rule let it contribute the same. -/
theorem contribution_congr (h : ∀ p o, Says ts rule p o ↔ Says us rule p o) (resource : Iri)
    (requester : Requester) (scope : AclScope) :
    contribution ts resource requester scope rule =
      contribution us resource requester scope rule := by
  have hnames : Names ts rule resource scope ↔ Names us rule resource scope := by
    cases scope with
    | accessTo => exact h _ _
    | default => exact or_congr (h _ _) (h _ _)
  have hagent : AgentMatches ts rule requester ↔ AgentMatches us rule requester := by
    unfold AgentMatches
    simp only [h]
  have horigin : OriginMatches ts rule requester ↔ OriginMatches us rule requester := by
    unfold OriginMatches
    simp only [h]
  ext m
  rw [mem_contribution, mem_contribution, hnames, hagent, horigin, h]

/-- Two graphs with the same rules, of which they say the same, grant the same. -/
theorem modesFor_congr
    (htypes : ∀ rule, Says ts rule rdfType (aclIri "Authorization") ↔
      Says us rule rdfType (aclIri "Authorization"))
    (hrules : ∀ rule, Says ts rule rdfType (aclIri "Authorization") →
      ∀ p o, Says ts rule p o ↔ Says us rule p o)
    (resource : Iri) (requester : Requester) (scope : AclScope) :
    modesFor ts resource requester scope = modesFor us resource requester scope := by
  have hsubjects : (authorizationSubjects ts).toFinset = (authorizationSubjects us).toFinset := by
    ext rule
    rw [List.mem_toFinset, List.mem_toFinset, mem_authorizationSubjects, mem_authorizationSubjects]
    exact htypes rule
  rw [modesFor_eq_biUnion, modesFor_eq_biUnion, ← hsubjects]
  apply Finset.biUnion_congr rfl
  intro rule hrule
  apply contribution_congr
  exact hrules rule (mem_authorizationSubjects.mp (List.mem_toFinset.mp hrule))

/-- Triples about things that are no authorizations add nothing. -/
theorem modesFor_append_unrelated
    (hextra : ∀ t ∈ us, ¬ Says (ts ++ us) t.subject rdfType (aclIri "Authorization"))
    (resource : Iri) (requester : Requester) (scope : AclScope) :
    modesFor (ts ++ us) resource requester scope = modesFor ts resource requester scope := by
  -- an authorization is not a subject of the new triples, so they say nothing about it
  have hsame : ∀ rule, Says (ts ++ us) rule rdfType (aclIri "Authorization") →
      ∀ p o, Says (ts ++ us) rule p o ↔ Says ts rule p o := by
    intro rule hrule p o
    constructor
    · intro h
      rcases List.mem_append.mp h with hold | hnew
      · exact hold
      · exact absurd hrule (hextra _ hnew)
    · intro h
      exact List.mem_append_left us h
  apply modesFor_congr _ hsame
  intro rule
  constructor
  · intro h
    exact (hsame rule h _ _).mp h
  · intro h
    exact List.mem_append_left us h

end

/-! ## §3 Everyone includes the authenticated -/

/-- A rule that is for the anonymous is for everyone. -/
theorem AgentMatches.of_anonymous {triples : List Triple} {rule : NamedOrBlankNode}
    {origin : Option Text} (h : AgentMatches triples rule ⟨none, origin⟩) (requester : Requester) :
    AgentMatches triples rule requester := by
  rcases h with hpublic | ⟨-, hauthenticated⟩ | ⟨w, hw, -⟩
  · exact .inl hpublic
  · exact absurd rfl hauthenticated
  · cases hw

theorem modesFor_anonymous_subset (triples : List Triple) (resource : Iri) (scope : AclScope)
    (webId : Option Iri) (origin : Option Text) :
    modesFor triples resource ⟨none, origin⟩ scope ⊆
      modesFor triples resource ⟨webId, origin⟩ scope := by
  intro m hm
  obtain ⟨rule, htype, hnames, hagent, horigin, hmode⟩ := mem_modesFor.mp hm
  exact mem_modesFor.mpr
    ⟨rule, htype, hnames, AgentMatches.of_anonymous hagent _, horigin, hmode⟩

/-- The public audience of a decision is part of the requester's. -/
theorem readDecisionFor_pub_subset {resolved : ResolvedAcl} {required : AccessMode}
    {requester : Requester} {perms : EffectivePermissions}
    (h : WacAuthorizer.readDecisionFor resolved required requester = .allow perms) :
    perms.pub ⊆ perms.user := by
  unfold WacAuthorizer.readDecisionFor at h
  simp only at h
  split_ifs at h with hsat hnone hknown
  · cases h
    exact Finset.Subset.refl _
  · cases h
    cases resolved with
    | none => exact Finset.empty_subset _
    | some acl =>
      obtain ⟨triples, base, scope⟩ := acl
      exact modesFor_anonymous_subset triples base scope requester.webId requester.origin

/-- A decision that a resolution ends in. -/
theorem pub_subset_of_resolution {p : Server ResolvedAcl} {required : AccessMode}
    {requester : Requester} {perms : EffectivePermissions} {w : World}
    (h : (exec (do
        let resolved ← p
        pure (WacAuthorizer.readDecisionFor resolved required requester)) w).1 =
      .ok (.allow perms)) :
    perms.pub ⊆ perms.user := by
  rcases hp : exec p w with ⟨r, w'⟩
  cases r with
  | error e =>
    rw [exec_bind_error hp] at h
    cases h
  | ok resolved =>
    rw [exec_bind_ok hp] at h
    exact readDecisionFor_pub_subset (Except.ok.inj h)

/-- **Laws of rule matching**: the modes are the union of what each rule's own triples grant;
they depend on the set of triples alone; triples about things that are no authorizations change
nothing; and what an anonymous requester is granted, everyone from the same origin is granted, so
that the public part of `WAC-Allow` lies within the user's. -/
theorem modesFor_laws (triples : List Triple) (resource : Iri) (scope : AclScope) :
    (∀ requester, modesFor triples resource requester scope =
      (authorizationSubjects triples).toFinset.biUnion fun rule =>
        contribution (ownTriples triples rule) resource requester scope rule) ∧
    (∀ us : List Triple, (∀ t, t ∈ us ↔ t ∈ triples) → ∀ requester,
      modesFor us resource requester scope = modesFor triples resource requester scope) ∧
    (∀ us : List Triple,
      (∀ t ∈ us, ¬ Says (triples ++ us) t.subject rdfType (aclIri "Authorization")) →
      ∀ requester, modesFor (triples ++ us) resource requester scope =
        modesFor triples resource requester scope) ∧
    (∀ (webId : Iri) (origin : Option Text),
      modesFor triples resource ⟨none, origin⟩ scope ⊆
        modesFor triples resource ⟨some webId, origin⟩ scope) ∧
    (∀ (wac : WacAuthorizer) (w : World) (required : AccessMode) (requester : Requester)
      (perms : EffectivePermissions),
      (∀ target, (exec (wac.authorizeRead target required requester) w).1 = .ok (.allow perms) →
        perms.pub ⊆ perms.user) ∧
      ∀ candidates planAcls,
        (exec (wac.authorizeReadPlanned required requester candidates planAcls) w).1 =
          .ok (.allow perms) → perms.pub ⊆ perms.user) := by
  refine ⟨fun requester => ?_, fun us hus requester => ?_, fun us hus requester => ?_,
    fun webId origin => ?_, fun wac w required requester perms => ⟨?_, ?_⟩⟩
  · rw [modesFor_eq_biUnion]
    apply Finset.biUnion_congr rfl
    intro rule _
    exact contribution_congr (fun _ _ => says_ownTriples.symm) resource requester scope
  · exact modesFor_congr (fun _ => hus _) (fun _ _ _ _ => hus _) resource requester scope
  · exact modesFor_append_unrelated hus resource requester scope
  · exact modesFor_anonymous_subset triples resource scope (some webId) origin
  · intro target h
    exact pub_subset_of_resolution h
  · intro candidates planAcls h
    exact pub_subset_of_resolution h

/-! ## §4 Origins -/

/-- The rule is restricted to origins, by a triple with any kind of object. -/
def Restricted (triples : List Triple) (rule : NamedOrBlankNode) : Prop :=
  ∃ o : Term, (⟨rule, aclIri "origin", o⟩ : Triple) ∈ triples

/-- The request has no origin, or one the rule does not list as an IRI. -/
def Unlisted (triples : List Triple) (rule : NamedOrBlankNode) (requester : Requester) : Prop :=
  ∀ o, requester.origin = some o → ¬ Says triples rule (aclIri "origin") o

/-- **A rule grants nothing to an origin it does not list** exactly when one of its origins is an
IRI, or it would grant the requester nothing without a restriction. -/
theorem unlisted_origin_denied_iff (triples : List Triple) (resource : Iri) (scope : AclScope)
    (requester : Requester) (rule : NamedOrBlankNode)
    (hunlisted : Unlisted triples rule requester) :
    contribution triples resource requester scope rule = ∅ ↔
      (∃ o, Says triples rule (aclIri "origin") o) ∨
      ¬ (Names triples rule resource scope ∧ AgentMatches triples rule requester ∧
        ∃ m : AccessMode, Says triples rule (aclIri "mode") m.aclIri) := by
  have horigin : OriginMatches triples rule requester ↔
      ∀ o, ¬ Says triples rule (aclIri "origin") o := by
    constructor
    · rintro (hnone | ⟨o, ho, hlisted⟩)
      · exact hnone
      · exact absurd hlisted (hunlisted o ho)
    · exact .inl
  rw [contribution_eq_empty, horigin]
  by_cases hiri : ∃ o, Says triples rule (aclIri "origin") o
  · obtain ⟨o, ho⟩ := hiri
    constructor
    · intro _
      exact .inl ⟨o, ho⟩
    · rintro _ ⟨-, -, hnone, -⟩
      exact hnone o ho
  · have hnone : ∀ o, ¬ Says triples rule (aclIri "origin") o := fun o ho => hiri ⟨o, ho⟩
    constructor
    · intro h
      refine .inr fun ⟨hnames, hagent, hmode⟩ => ?_
      exact h ⟨hnames, hagent, hnone, hmode⟩
    · rintro (h | h) ⟨hnames, hagent, -, hmode⟩
      · exact hiri h
      · exact h ⟨hnames, hagent, hmode⟩

/-- A rule that lets everyone read `http://h/a`, from an origin given by `origin`. -/
def appRule (origin : Term) : List Triple :=
  let rule := NamedOrBlankNode.namedNode "http://h/a.acl#app".toList
  [⟨rule, rdfType, .namedNode (aclIri "Authorization")⟩,
    ⟨rule, aclIri "accessTo", .namedNode "http://h/a".toList⟩,
    ⟨rule, aclIri "agentClass", .namedNode foafAgent⟩,
    ⟨rule, aclIri "mode", .namedNode AccessMode.read.aclIri⟩,
    ⟨rule, aclIri "origin", origin⟩]

/-- The rule with its origin as an IRI grants nothing without an origin. -/
theorem unlisted_origin_denied_iff_iri :
    let triples := appRule (.namedNode "https://app.example".toList)
    contribution triples "http://h/a".toList ⟨none, none⟩ .accessTo
      (.namedNode "http://h/a.acl#app".toList) = ∅ := by
  intro triples
  refine (unlisted_origin_denied_iff triples "http://h/a".toList .accessTo ⟨none, none⟩
    (.namedNode "http://h/a.acl#app".toList) ?_).mpr (.inl ⟨"https://app.example".toList, ?_⟩)
  · rintro o ⟨⟩
  · exact List.mem_of_getLast? rfl

/-- **An origin written as a literal is no restriction**: the rule lets an anonymous requester
read from no origin and from another one. -/
theorem literal_origin_unrestricted :
    let origin : Term := .literal ⟨"https://app.example".toList,
      "http://www.w3.org/2001/XMLSchema#string".toList, none⟩
    let triples := appRule origin
    Restricted triples (.namedNode "http://h/a.acl#app".toList) ∧
    Unlisted triples (.namedNode "http://h/a.acl#app".toList) ⟨none, none⟩ ∧
    AccessMode.read ∈ contribution triples "http://h/a".toList ⟨none, none⟩ .accessTo
      (.namedNode "http://h/a.acl#app".toList) ∧
    AccessMode.read ∈ modesFor triples "http://h/a".toList ⟨none, none⟩ .accessTo ∧
    AccessMode.read ∈ modesFor triples "http://h/a".toList
      ⟨none, some "https://evil.example".toList⟩ .accessTo := by
  refine ⟨⟨_, List.mem_of_getLast? rfl⟩, ?_, by decide, by decide,
    by decide⟩
  rintro o ⟨⟩

end SolidServer.Authz
