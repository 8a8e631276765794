import SolidServer.Authz.Interference
import SolidServer.Text.Path

/-!
# Resolution among other requests

A walk down a chain of ACLs whose reads are interleaved with other requests is the first
ACL it saw (`Walked`), since no ACL is asked for twice.  The sequential and the planned
resolver both come to this (`Resolved`); they differ only in how they learn that a
nearer ACL is absent, by a probe of their own or from a row of the read plan.
-/

namespace SolidServer.Authz

open SolidServer.Effects SolidServer.Store SolidServer.Ldp

variable {wac : WacAuthorizer} {ledger : Ledger} {written : Iri → ResourceMeta → Prop}

/-! ## §1 What a resolution sees -/

/-- The first ACL of a chain, for a given reading of each. -/
def firstAcl (reading : Iri → Option (List Triple)) : List (Iri × AclScope) → ResolvedAcl
  | [] => none
  | (governed, scope) :: rest =>
    match reading (aclFor governed) with
    | some triples => some (triples, governed, scope)
    | none => firstAcl reading rest

theorem firstAcl_congr {f g : Iri → Option (List Triple)} {chain : List (Iri × AclScope)}
    (h : ∀ c ∈ chain, f (aclFor c.1) = g (aclFor c.1)) : firstAcl f chain = firstAcl g chain := by
  induction chain with
  | nil => rfl
  | cons c rest ih =>
    obtain ⟨hc, hrest⟩ := List.forall_mem_cons.mp h
    simp only [firstAcl, hc, ih hrest]

/-- The record the last probe of an ACL found. -/
def lastProbe (acl : Iri) (probes : List (Iri × Option ResourceMeta)) : Option ResourceMeta :=
  (probes.filter fun p => p.1 = acl).getLast?.bind Prod.snd

/-- The triples a log saw for an ACL: the parse of the record its last probe found. -/
def seen (wac : WacAuthorizer) (ledger : Ledger) (log : List (Event storeSig)) (acl : Iri) :
    Option (List Triple) :=
  (lastProbe acl (probesOf log)).map (recordTriples wac ledger acl)

variable {acl : Iri} {log : List (Event storeSig)}

theorem lastProbe_append_left {ps qs : List (Iri × Option ResourceMeta)} (h : ∀ p ∈ qs, p.1 ≠ acl) :
    lastProbe acl (ps ++ qs) = lastProbe acl ps := by
  have : qs.filter (fun p => p.1 = acl) = [] := by simpa [List.filter_eq_nil_iff] using h
  simp [lastProbe, this]

theorem lastProbe_append_right {ps qs : List (Iri × Option ResourceMeta)} (h : ∀ p ∈ ps, p.1 ≠ acl)
    :
    lastProbe acl (ps ++ qs) = lastProbe acl qs := by
  have : ps.filter (fun p => p.1 = acl) = [] := by simpa [List.filter_eq_nil_iff] using h
  simp [lastProbe, this]

/-- A read that saw `x` is exact. -/
theorem Saw.seen_eq {x : Option (List Triple)} (h : Saw wac ledger acl log x) :
    seen wac ledger log acl = x := by
  obtain ⟨hall, found, hlast, rfl⟩ := h
  have hfilter : (probesOf log).filter (fun p => p.1 = acl) = probesOf log := by
    simpa [List.filter_eq_self] using hall
  simp [seen, lastProbe, hfilter, hlast]

theorem mem_of_mem_probesOf {m : ResourceMeta} (h : (acl, some m) ∈ probesOf log) :
    (⟨.getMeta acl, .ok m⟩ : Event storeSig) ∈ log := by
  obtain ⟨e, he, hprobe⟩ := List.mem_filterMap.mp h
  unfold probeOf at hprobe
  split at hprobe <;> cases hprobe
  exact he

theorem absent_of_mem_probesOf (h : (acl, none) ∈ probesOf log) :
    (⟨.getMeta acl, .error .notFound⟩ : Event storeSig) ∈ log := by
  obtain ⟨e, he, hprobe⟩ := List.mem_filterMap.mp h
  unfold probeOf at hprobe
  split at hprobe <;> cases hprobe
  exact he

/-- A walk down a chain, `absent` being the ACLs known to be absent beforehand: it is the first
ACL seen, found by a probe of its own after every nearer one had been found absent. -/
structure Walked (wac : WacAuthorizer) (ledger : Ledger) (absent : Iri → Prop)
    (chain : List (Iri × AclScope)) (log : List (Event storeSig)) (x : ResolvedAcl) : Prop where
  within : ∀ p ∈ probesOf log, ∃ c ∈ chain, p.1 = aclFor c.1
  exact_ : x = firstAcl (seen wac ledger log) chain
  located : ∀ ts governed scope, x = some (ts, governed, scope) →
    ∃ nearer farther l₁ m l₂, chain = nearer ++ (governed, scope) :: farther ∧
      log = l₁ ++ ⟨.getMeta (aclFor governed), .ok m⟩ :: l₂ ∧
      ts = recordTriples wac ledger (aclFor governed) m ∧
      ∀ c ∈ nearer, (⟨.getMeta (aclFor c.1), .error .notFound⟩ : Event storeSig) ∈ l₁ ∨
        absent (aclFor c.1)

theorem aclFor_injective : Function.Injective aclFor := fun _ _ h => List.append_cancel_right h

namespace Walked

variable {absent : Iri → Prop} {chain : List (Iri × AclScope)} {governed : Iri} {scope : AclScope}
  {log log' : List (Event storeSig)} {x : ResolvedAcl} {ts : List Triple}

theorem nil : Walked wac ledger absent [] [] none :=
  ⟨by simp, rfl, by simp⟩

/-- The walk ends at the first ACL that is there. -/
theorem here (h : Saw wac ledger (aclFor governed) log (some ts)) :
    Walked wac ledger absent ((governed, scope) :: chain) log (some (ts, governed, scope)) where
  within p hp := ⟨_, List.mem_cons_self, h.1 p hp⟩
  exact_ := by rw [firstAcl, h.seen_eq]
  located := by
    rintro _ _ _ ⟨⟩
    obtain ⟨hall, found, hlast, hts⟩ := h
    cases found with
    | none => cases hts
    | some m =>
      obtain ⟨l₁, l₂, hlog⟩ :=
        List.append_of_mem (mem_of_mem_probesOf (List.mem_of_getLast? hlast))
      exact ⟨[], chain, l₁, m, l₂, rfl, hlog, Option.some.inj hts, by simp⟩

/-- The walk goes past an ACL that a probe found absent. -/
theorem past (h : Saw wac ledger (aclFor governed) log none)
    (hrest : Walked wac ledger absent chain log' x) (hfresh : ∀ c ∈ chain, c.1 ≠ governed) :
    Walked wac ledger absent ((governed, scope) :: chain) (log ++ log') x where
  within p hp := by
    rw [probesOf_append, List.mem_append] at hp
    rcases hp with hp | hp
    · exact ⟨_, List.mem_cons_self, h.1 p hp⟩
    · obtain ⟨c, hc, hpc⟩ := hrest.within p hp
      exact ⟨c, List.mem_cons_of_mem _ hc, hpc⟩
  exact_ := by
    have hhere : seen wac ledger (log ++ log') (aclFor governed) = none := by
      rw [← h.seen_eq, seen, seen, probesOf_append, lastProbe_append_left]
      intro p hp heq
      obtain ⟨c, hc, hpc⟩ := hrest.within p hp
      exact hfresh c hc (aclFor_injective (hpc.symm.trans heq))
    have hthere : ∀ c ∈ chain,
        seen wac ledger (log ++ log') (aclFor c.1) = seen wac ledger log' (aclFor c.1) := by
      intro c hc
      rw [seen, seen, probesOf_append, lastProbe_append_right]
      intro p hp heq
      exact hfresh c hc (aclFor_injective (heq.symm.trans (h.1 p hp)))
    rw [firstAcl, hhere, firstAcl_congr hthere]
    exact hrest.exact_
  located := by
    intro ts g sc hx
    obtain ⟨nearer, farther, l₁, m, l₂, rfl, rfl, hts, habsent⟩ := hrest.located ts g sc hx
    obtain ⟨-, found, hlast, hnone⟩ := h
    refine ⟨(governed, scope) :: nearer, farther, log ++ l₁, m, l₂, rfl, by simp, hts, ?_⟩
    intro c hc
    rcases List.mem_cons.mp hc with rfl | hc
    · left
      cases found with
      | some m => cases hnone
      | none =>
        exact List.mem_append_left _ (absent_of_mem_probesOf (List.mem_of_getLast? hlast))
    · exact (habsent c hc).imp_left (List.mem_append_right _)

/-- The walk skips an ACL known to be absent. -/
theorem skip (hknown : absent (aclFor governed)) (hrest : Walked wac ledger absent chain log x)
    (hfresh : ∀ c ∈ chain, c.1 ≠ governed) :
    Walked wac ledger absent ((governed, scope) :: chain) log x where
  within p hp := by
    obtain ⟨c, hc, hpc⟩ := hrest.within p hp
    exact ⟨c, List.mem_cons_of_mem _ hc, hpc⟩
  exact_ := by
    have hhere : seen wac ledger log (aclFor governed) = none := by
      have hnil : (probesOf log).filter (fun p => p.1 = aclFor governed) = [] := by
        rw [List.filter_eq_nil_iff]
        intro p hp heq
        obtain ⟨c, hc, hpc⟩ := hrest.within p hp
        exact hfresh c hc (aclFor_injective (hpc.symm.trans (of_decide_eq_true heq)))
      simp [seen, lastProbe, hnil]
    rw [firstAcl, hhere]
    exact hrest.exact_
  located := by
    intro ts g sc hx
    obtain ⟨nearer, farther, l₁, m, l₂, rfl, rfl, hts, habsent⟩ := hrest.located ts g sc hx
    refine ⟨(governed, scope) :: nearer, farther, l₁, m, l₂, rfl, rfl, hts, ?_⟩
    intro c hc
    rcases List.mem_cons.mp hc with rfl | hc
    · exact .inr hknown
    · exact habsent c hc

end Walked

/-! ## §2 The resolvers -/

/-- The loop goes strictly up, from container to container, and stops at the root. -/
theorem ancestorsLoop_descends (root : Iri) (fuel : Nat) (current : Text) :
    (∀ a ∈ ancestorsLoop root fuel current,
      a.length ≤ current.length ∧ a.getLast? = some '/') ∧
    (ancestorsLoop root fuel current).Pairwise (fun a b => b.length < a.length) ∧
    (root ∈ ancestorsLoop root fuel current →
      (ancestorsLoop root fuel current).getLast? = some root) := by
  induction fuel generalizing current with
  | zero => simp [ancestorsLoop]
  | succ fuel ih =>
    rw [ancestorsLoop]
    split_ifs with hlen
    · cases hthrough : Text.throughLast current '/' with
      | none => simp
      | some parent =>
        obtain ⟨hup, hlast⟩ := Text.throughLast_some hthrough
        obtain ⟨hmem, hpair, hroot⟩ := ih parent.dropLast
        have hpos : 0 < parent.length := List.length_pos_of_ne_nil (by rintro rfl; cases hlast)
        have hbelow : ∀ a ∈ ancestorsLoop root fuel parent.dropLast, a.length < parent.length := by
          intro a ha
          have := (hmem a ha).1
          rw [List.length_dropLast] at this
          omega
        refine ⟨?_, List.pairwise_cons.mpr ⟨hbelow, hpair⟩, ?_⟩
        · intro a ha
          rcases List.mem_cons.mp ha with rfl | ha
          · exact ⟨hup.length_le, hlast⟩
          · exact ⟨(hbelow a ha).le.trans hup.length_le, (hmem a ha).2⟩
        · intro hin
          rcases List.mem_cons.mp hin with rfl | hin
          · -- above the root the guard of the loop fails
            have hstop : ancestorsLoop root fuel root.dropLast = [] := by
              cases fuel with
              | zero => rfl
              | succ n =>
                rw [ancestorsLoop, if_neg]
                have hcat := congrArg Text.len (List.dropLast_append_getLast? '/' hlast)
                rw [Text.len_append] at hcat
                omega
            simp [hstop]
          · rw [List.getLast?_cons, hroot hin]
            rfl
    · simp

/-- **No ACL is asked for twice**: a resource and its ancestors are distinct. -/
theorem walk_nodup (baseUrl : Text) (resource : Iri) :
    ((walk baseUrl resource).map Prod.fst).Nodup := by
  have hfst : (walk baseUrl resource).map Prod.fst =
      resource :: ancestorsNearestFirst baseUrl resource := by
    simp [walk, Function.comp_def]
  rw [hfst]
  by_cases hres : resource = storageRoot baseUrl
  · simp [ancestorsNearestFirst, hres]
  · rw [ancestorsNearestFirst_of_ne hres]
    generalize hloop : (if Text.endsWith resource ['/'] then _ else _) = loop
    have hspec : resource ∉ loop ∧ loop.Pairwise (fun a b => b.length < a.length) ∧
        (storageRoot baseUrl ∈ loop → loop.getLast? = some (storageRoot baseUrl)) := by
      subst hloop
      split_ifs with hends
      · obtain ⟨hmem, hpair, hroot⟩ := ancestorsLoop_descends (storageRoot baseUrl)
          resource.dropLast.length resource.dropLast
        refine ⟨fun hin => ?_, hpair, hroot⟩
        have hle := (hmem resource hin).1
        have hpos : 0 < resource.length := List.length_pos_of_ne_nil (by rintro rfl; cases hends)
        rw [List.length_dropLast] at hle
        omega
      · obtain ⟨hmem, hpair, hroot⟩ := ancestorsLoop_descends (storageRoot baseUrl)
          resource.length resource
        refine ⟨fun hin => hends ?_, hpair, hroot⟩
        rw [Text.endsWith_singleton]
        exact (hmem resource hin).2
    obtain ⟨hself, hpair, hroot⟩ := hspec
    have hnodup : loop.Nodup := hpair.imp fun hlt heq => by simp [heq] at hlt
    unfold closedBy
    split_ifs with hlast
    · exact List.nodup_cons.mpr ⟨hself, hnodup⟩
    · refine List.nodup_cons.mpr ⟨by simp [hself, hres], ?_⟩
      refine List.nodup_append.mpr ⟨hnodup, by simp, ?_⟩
      intro a ha b hb
      rw [List.mem_singleton.mp hb]
      rintro rfl
      exact hlast (hroot ha)

section
variable (absent : Iri → Prop) {chain : List (Iri × AclScope)} {governed : Iri} {scope : AclScope}

/-- One ACL of a walk: it ends the walk, or its absence hands on to the rest. -/
theorem attests_walk_cons {reader : Server (Option (List Triple))} {rest : Server ResolvedAcl}
    (hread : Attests wac ledger written reader fun log r =>
      ∀ x, r = .ok x → Saw wac ledger (aclFor governed) log x)
    (hrest : Attests wac ledger written rest fun log r =>
      ∀ x, r = .ok x → Walked wac ledger absent chain log x)
    (hfresh : ∀ c ∈ chain, c.1 ≠ governed) :
    Attests wac ledger written (do
      match ← reader with
      | some triples => pure (some (triples, governed, scope))
      | none => rest) fun log r =>
      ∀ x, r = .ok x → Walked wac ledger absent ((governed, scope) :: chain) log x := by
  refine Program.Obeys.bind hread ?_ (by simp)
  intro log found hfound
  have hsaw := hfound found rfl
  cases found with
  | some ts =>
    refine .pure ?_
    rintro _ ⟨⟩
    rw [List.append_nil]
    exact .here hsaw
  | none =>
    refine hrest.mono fun log' r hr x hx => ?_
    exact .past hsaw (hr x hx) hfresh

theorem attests_resolveAncestors (hpin : wac.cached = true → Pinned wac ledger written)
    (ancestors : List Iri) (hnodup : ancestors.Nodup) :
    Attests wac ledger written (wac.resolveAncestors ancestors) fun log r =>
      ∀ x, r = .ok x →
        Walked wac ledger absent (ancestors.map fun a => (a, .default)) log x := by
  induction ancestors with
  | nil =>
    refine .pure ?_
    rintro _ ⟨⟩
    exact .nil
  | cons a rest ih =>
    obtain ⟨ha, hrest⟩ := List.nodup_cons.mp hnodup
    refine attests_walk_cons absent (attests_readAcl hpin (aclFor a)) (ih hrest) ?_
    intro c hc heq
    obtain ⟨b, hb, rfl⟩ := List.mem_map.mp hc
    exact ha (heq ▸ hb)

/-- **The sequential resolver**, under interference. -/
theorem attests_resolveEffectiveAcl (hpin : wac.cached = true → Pinned wac ledger written)
    (resource : Iri) :
    Attests wac ledger written (wac.resolveEffectiveAcl resource) fun log r =>
      ∀ x, r = .ok x → Walked wac ledger absent (walk wac.baseUrl resource) log x := by
  have hnodup := walk_nodup wac.baseUrl resource
  simp only [walk, List.map_cons, List.map_map, Function.comp_def, List.map_id'] at hnodup
  obtain ⟨hself, hrest⟩ := List.nodup_cons.mp hnodup
  refine attests_walk_cons absent (attests_readAcl hpin (aclFor resource))
    (attests_resolveAncestors absent hpin _ hrest) ?_
  intro c hc heq
  obtain ⟨b, hb, rfl⟩ := List.mem_map.mp hc
  exact hself (heq ▸ hb)

/-- The scope of the row `idx` of a plan. -/
def rowScope (idx : Nat) : AclScope := if idx = 0 then .accessTo else .default

/-- The chain of governed resources from row `idx` on. -/
def rowChain : Nat → List Iri → List (Iri × AclScope)
  | _, [] => []
  | idx, governed :: rest => (governed, rowScope idx) :: rowChain (idx + 1) rest

theorem rowChain_succ (idx : Nat) (governed : List Iri) :
    rowChain (idx + 1) governed = governed.map fun g => (g, .default) := by
  induction governed generalizing idx with
  | nil => rfl
  | cons g rest ih =>
    rw [rowChain, ih, rowScope]
    rfl

theorem map_fst_rowChain (idx : Nat) (governed : List Iri) :
    (rowChain idx governed).map Prod.fst = governed := by
  induction governed generalizing idx with
  | nil => rfl
  | cons g rest ih => rw [rowChain, List.map_cons, ih]

theorem attests_resolvePlannedLoop (hpin : wac.cached = true → Pinned wac ledger written)
    (rows : List (AclCandidate × Iri × Option Text)) (idx : Nat)
    (hacl : ∀ r ∈ rows, r.1.acl = aclFor r.1.governed)
    (hnodup : (rows.map fun r => r.1.governed).Nodup)
    (habsent : ∀ r ∈ rows, r.2.2 = none → absent r.2.1) :
    Attests wac ledger written (wac.resolvePlannedLoop idx rows) fun log r =>
      ∀ x, r = .ok x →
        Walked wac ledger absent (rowChain idx (rows.map fun r => r.1.governed)) log x := by
  induction rows generalizing idx with
  | nil =>
    refine .pure ?_
    rintro _ ⟨⟩
    exact .nil
  | cons row rest ih =>
    obtain ⟨candidate, planIri, etag⟩ := row
    obtain ⟨hcand, haclrest⟩ := List.forall_mem_cons.mp hacl
    obtain ⟨hrow, habsentrest⟩ := List.forall_mem_cons.mp habsent
    obtain ⟨hself, hrest⟩ := List.nodup_cons.mp hnodup
    have hih := ih (idx + 1) haclrest hrest habsentrest
    have hfresh : ∀ c ∈ rowChain (idx + 1) (rest.map fun r => r.1.governed),
        c.1 ≠ candidate.governed := by
      intro c hc heq
      have hmem := List.mem_map_of_mem (f := Prod.fst) hc
      rw [map_fst_rowChain, heq] at hmem
      exact hself hmem
    unfold WacAuthorizer.resolvePlannedLoop
    by_cases hiri : candidate.acl = planIri
    · rw [if_neg (not_not.mpr hiri)]
      cases etag with
      | none =>
        refine hih.mono fun log r hr x hx => .skip ?_ (hr x hx) hfresh
        rw [← hcand, hiri]
        exact hrow rfl
      | some tag =>
        refine attests_walk_cons absent ?_ hih hfresh
        rw [← hcand]
        exact attests_readAclConfirmed hpin candidate.acl
    · rw [if_pos hiri]
      exact .throw (by simp)

end

/-- A log found an ACL absent: by a probe of its own, or by a row of a read plan. -/
def FoundAbsent (log : List (Event storeSig)) (acl : Iri) : Prop :=
  (⟨.getMeta acl, .error .notFound⟩ : Event storeSig) ∈ log ∨
    ∃ slot acls plan, (⟨.readPlan slot acls, .ok plan⟩ : Event storeSig) ∈ log ∧
      (acl, none) ∈ plan.acls

/-- **A resolution among other requests**: the first ACL seen on the target's chain, found by a
probe of its own after every nearer one had been found absent. -/
structure Resolved (wac : WacAuthorizer) (ledger : Ledger) (target : Iri)
    (log : List (Event storeSig)) (x : ResolvedAcl) : Prop where
  exact_ : x = firstAcl (seen wac ledger log) (walk wac.baseUrl (protectedResource target))
  located : ∀ ts governed scope, x = some (ts, governed, scope) →
    ∃ nearer farther l₁ m l₂,
      walk wac.baseUrl (protectedResource target) = nearer ++ (governed, scope) :: farther ∧
      log = l₁ ++ ⟨.getMeta (aclFor governed), .ok m⟩ :: l₂ ∧
      ts = recordTriples wac ledger (aclFor governed) m ∧
      ∀ c ∈ nearer, FoundAbsent l₁ (aclFor c.1)

theorem attests_sequential (hpin : wac.cached = true → Pinned wac ledger written) (target : Iri) :
    Attests wac ledger written (wac.resolveEffectiveAcl (protectedResource target)) fun log r =>
      ∀ x, r = .ok x → Resolved wac ledger target log x := by
  -- nothing is known to be absent beforehand
  refine (attests_resolveEffectiveAcl (fun _ => False) hpin _).mono ?_
  intro log r hr x hx
  obtain ⟨-, hexact, hlocated⟩ := hr x hx
  refine ⟨hexact, fun ts g sc hts => ?_⟩
  obtain ⟨nearer, farther, l₁, m, l₂, hchain, hlog, hparse, habsent⟩ := hlocated ts g sc hts
  exact ⟨nearer, farther, l₁, m, l₂, hchain, hlog, hparse, fun c hc =>
    .inl ((habsent c hc).resolve_right id)⟩

/-- The rows of any answer of the right length run along the target's chain. -/
theorem rowChain_zip {target : Iri} {acls : List (Iri × Option Text)}
    (h : (readPlanCandidates wac.baseUrl target).length = acls.length) :
    rowChain 0 (((readPlanCandidates wac.baseUrl target).zip acls).map fun r => r.1.governed) =
      walk wac.baseUrl (protectedResource target) := by
  have hfst : ((readPlanCandidates wac.baseUrl target).zip acls).map (fun r => r.1.governed) =
      (readPlanCandidates wac.baseUrl target).map AclCandidate.governed := by
    rw [← Function.comp_def (g := Prod.fst) (f := AclCandidate.governed), ← List.map_map,
      List.map_fst_zip h.le]
  rw [hfst]
  simp only [readPlanCandidates, List.map_cons, List.map_map,
    rowChain, rowChain_succ]
  rfl

theorem attests_planned (hpin : wac.cached = true → Pinned wac ledger written)
    (slot target : Iri) :
    Attests wac ledger written (plannedResolution wac slot target) fun log r =>
      ∀ x, r = .ok x → Resolved wac ledger target log x := by
  unfold plannedResolution Store.readPlan
  simp only [bind_assoc]
  refine attests_perform_bind ⟨trivial, trivial⟩ fun answer _ => ?_
  cases answer with
  | error e => cases e <;> exact .throw (by simp)
  | ok plan =>
    simp only [orNotFound, pure_bind, WacAuthorizer.resolveEffectiveAclPlanned]
    by_cases hlen : (readPlanCandidates wac.baseUrl target).length = plan.acls.length
    · rw [if_neg (not_not.mpr hlen)]
      have hchain := rowChain_zip hlen
      have hcandidate : ∀ r ∈ (readPlanCandidates wac.baseUrl target).zip plan.acls,
          r.1 ∈ readPlanCandidates wac.baseUrl target ∧ r.2 ∈ plan.acls :=
        fun r hr => ⟨(List.of_mem_zip hr).1, (List.of_mem_zip hr).2⟩
      have hnodup := walk_nodup wac.baseUrl (protectedResource target)
      rw [← hchain, map_fst_rowChain] at hnodup
      refine (attests_resolvePlannedLoop (fun acl => (acl, none) ∈ plan.acls) hpin _ 0 ?_ hnodup
        ?_).mono fun log r hr x hx => ?_
      · intro r hr
        have hmem := (hcandidate r hr).1
        simp only [readPlanCandidates, List.mem_cons, List.mem_map] at hmem
        rcases hmem with h | ⟨a, -, h⟩
        · rw [h]
        · rw [← h]
      · rintro ⟨candidate, iri, etag⟩ hr rfl
        exact (hcandidate _ hr).2
      · obtain ⟨-, hexact, hlocated⟩ := hr x hx
        rw [hchain] at hexact hlocated
        refine ⟨hexact, fun ts g sc hts => ?_⟩
        obtain ⟨nearer, farther, l₁, m, l₂, hsplit, rfl, hparse, habsent⟩ := hlocated ts g sc hts
        refine ⟨nearer, farther, _ :: l₁, m, l₂, hsplit, rfl, hparse, fun c hc => ?_⟩
        rcases habsent c hc with hprobe | hrow
        · exact .inl (List.mem_cons_of_mem _ hprobe)
        · exact .inr ⟨_, _, plan, List.mem_cons_self, hrow⟩
    · rw [if_pos hlen]
      exact .throw (by simp)

end SolidServer.Authz
