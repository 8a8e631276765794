import SolidServer.Authz.Wac
import SolidServer.Store.Reading
import SolidServer.Store.Seed

/-!
# What the authorizer decides

The decision as a function of the store.  Reading one ACL has an outcome that the
world determines (`aclOutcome`); the effective ACL is the first one on the chain of
candidates (`resolution`), and both resolvers compute it: the sequential walk on any
store, the planned one on any store whose index answers.

On the storage root's own tree the chain is the list of the resource's container
prefixes (`ancestorsNearestFirst_eq`), so the decision is the declarative one:
`Permits` over the first existing ACL of that list.
-/

namespace SolidServer.Authz

open SolidServer.Effects SolidServer.Store SolidServer.Ldp

variable {wac : WacAuthorizer} {w : World}

/-! ## §1 Reading one ACL -/

/-- What reading an ACL comes to: a store error, nothing, or the triples of its record. -/
def aclOutcome (wac : WacAuthorizer) (w : World) (acl : Iri) :
    Except ServerError (Option (List Triple)) :=
  match probe w acl with
  | .error e => .error e
  | .ok none => .ok none
  | .ok (some m) => (fetchOutcome w m).map fun b => some (wac.parseAclBody ⟨b, m⟩ acl)

/-- The attached cache holds, for a record's current tag, the parse of that record. -/
def CacheFaithful (wac : WacAuthorizer) (w : World) : Prop :=
  wac.cached = true → ∀ acl m e, w.backend.index.meta? acl = some m →
    w.aclCache.held? acl = some e → e.etag = m.etag →
    ∃ b, fetchOutcome w m = .ok b ∧ e.triples = wac.parseAclBody ⟨b, m⟩ acl

theorem cacheFaithful_of_empty (h : wac.cached = true → ∀ acl, w.aclCache.held? acl = none) :
    CacheFaithful wac w := by
  intro hc acl m e _ he
  simp [h hc acl] at he

theorem fetchOutcome_ne_notFound (w : World) (m : ResourceMeta) :
    fetchOutcome w m ≠ .error .notFound := by
  unfold fetchOutcome blobOutcome
  split
  · simp
  · split
    · simp
    · split <;> simp

theorem probe_ne_notFound (w : World) (iri : Iri) : probe w iri ≠ .error .notFound := by
  unfold probe
  split <;> simp

variable {acl governed resource : Iri} {m : ResourceMeta} {scope : AclScope}
  {chain : List (Iri × AclScope)} {baseUrl : Text} {required : AccessMode} {requester : Requester}

/-- A record that is read is answered by its own outcome. -/
theorem aclOutcome_of_probe (h : probe w acl = .ok (some m)) :
    aclOutcome wac w acl = (fetchOutcome w m).map fun b => some (wac.parseAclBody ⟨b, m⟩ acl) := by
  simp [aclOutcome, h]

theorem aclOutcome_eq_none (h : aclOutcome wac w acl = .ok none) :
    probe w acl = .ok none := by
  unfold aclOutcome at h
  split at h
  · cases h
  · assumption
  · rename_i m _
    cases hf : fetchOutcome w m <;> simp [hf, Except.map] at h

theorem aclOutcome_absent (h : probe w acl = .ok none) :
    aclOutcome wac w acl = .ok none := by
  simp [aclOutcome, h]

/-- The uncached read has the outcome of the ACL. -/
theorem readAndParseAcl_fst (acl : Iri) :
    (exec (wac.readAndParseAcl acl) w).1 = aclOutcome wac w acl := by
  unfold WacAuthorizer.readAndParseAcl aclOutcome
  rw [exec_bind, exec_attempt, exec_read_fst]
  cases hp : probe w acl with
  | error e =>
    cases e with
    | notFound => exact absurd hp (probe_ne_notFound w acl)
    | _ => rfl
  | ok r =>
    cases r with
    | none => rfl
    | some m =>
      simp only
      cases hf : fetchOutcome w m with
      | ok b => rfl
      | error e =>
        cases e with
        | notFound => exact absurd hf (fetchOutcome_ne_notFound w m)
        | _ => rfl

/-- A reader's answer: the outcome of the ACL, or a cache hit under the record's tag. -/
def Answers (wac : WacAuthorizer) (w : World) (acl : Iri)
    (r : Except ServerError (Option (List Triple))) : Prop :=
  r = aclOutcome wac w acl ∨
    ∃ m e, wac.cached = true ∧ probe w acl = .ok (some m) ∧ w.aclCache.held? acl = some e ∧
      e.etag = m.etag ∧ r = .ok (some e.triples)

theorem answers_readThroughCache {miss : Server Resource} (hcached : wac.cached = true)
    (hp : probe w acl = .ok (some m))
    (hmiss : ∀ w' : World, w'.backend = w.backend → w'.faults = w.faults → w'.bodyCache = w.bodyCache → (exec miss w').1 = (fetchOutcome w m).map fun b => ⟨b, m⟩)
    :
    Answers wac w acl (exec (wac.readThroughCache acl m miss) w).1 := by
  simp only [WacAuthorizer.readThroughCache, nowSecs, bind_assoc, pure_bind]
  rw [exec_perform_bind, exec_perform_bind]
  generalize hnow : (SystemTime.unixSecs? (World.sem w .now).1).getD 0 = now
  cases hget : (World.sem (World.sem w .now).2 (.aclCacheGet acl m.etag now)).1 with
  | some ts =>
    obtain ⟨e, he, htag, hts⟩ := AclCache.get_some hget
    exact .inr ⟨m, e, hcached, hp, he, htag, by rw [hts]; rfl⟩
  | none =>
    have hmiss' := hmiss (World.sem (World.sem w .now).2 (.aclCacheGet acl m.etag now)).2 rfl rfl rfl
    left
    rw [aclOutcome_of_probe hp]
    rw [exec_bind, exec_attempt, hmiss']
    cases hf : fetchOutcome w m with
    | ok b => rfl
    | error e =>
      cases e with
      | notFound => exact absurd hf (fetchOutcome_ne_notFound w m)
      | _ => rfl

/-- A reader that probes first: absent and failing probes end the read, a record goes on. -/
theorem answers_probed {f : ResourceMeta → Server (Option (List Triple))}
    (hf : ∀ m, probe w acl = .ok (some m) → Answers wac w acl (exec (f m) w).1) :
    Answers wac w acl (exec (do
      match ← meta? acl with
      | none => pure none
      | some m => f m) w).1 := by
  cases hp : probe w acl with
  | error e =>
    rw [exec_bind_error (by rw [exec_meta?, hp])]
    exact .inl (by simp [aclOutcome, hp])
  | ok r =>
    rw [exec_bind_ok (by rw [exec_meta?, hp])]
    cases r with
    | none => exact .inl (by simp [aclOutcome, hp])
    | some m => exact hf m hp

/-- **Reading an ACL**, in the sequential walk. -/
theorem answers_readAcl (acl : Iri) : Answers wac w acl (exec (wac.readAcl acl) w).1 := by
  unfold WacAuthorizer.readAcl
  split_ifs with hc
  · exact .inl (readAndParseAcl_fst acl)
  · refine answers_probed fun m hp =>
      answers_readThroughCache (by simpa using hc) hp fun w' hb hf hc' => ?_
    have hp' : probe w' acl = .ok (some m) := by rw [← hp]; simp [probe, hb, hf]
    rw [exec_read_fst, hp']
    simp only [fetchOutcome, blobOutcome, hb, hf, hc']

/-- Confirming an ACL, in the planned walk. -/
theorem answers_readAclConfirmed (acl : Iri) :
    Answers wac w acl (exec (wac.readAclConfirmed acl) w).1 := by
  unfold WacAuthorizer.readAclConfirmed
  split_ifs with hc
  · exact .inl (readAndParseAcl_fst acl)
  · refine answers_probed fun m hp =>
      answers_readThroughCache (by simpa using hc) hp fun w' hb hf hc' => ?_
    have hfetch : (exec (fetchBody m) w').1 = fetchOutcome w m := by
      rw [exec_fetchBody_fst]
      simp only [fetchOutcome, blobOutcome, hb, hf, hc']
    rw [readAt, exec_bind]
    rcases hrun : exec (fetchBody m) w' with ⟨r, v⟩
    obtain rfl : r = fetchOutcome w m := by rw [← hfetch, hrun]
    cases fetchOutcome w m <;> rfl

namespace Answers

variable {acl : Iri} {r : Except ServerError (Option (List Triple))}

/-- A faithful cache cannot be told from no cache. -/
theorem eq_aclOutcome (h : Answers wac w acl r) (hcache : CacheFaithful wac w) :
    r = aclOutcome wac w acl := by
  rcases h with h | ⟨m, e, hc, hp, he, htag, rfl⟩
  · exact h
  · obtain ⟨b, hb, hts⟩ := hcache hc acl m e (meta_of_probe hp) he htag
    rw [aclOutcome_of_probe hp, hb, hts]
    rfl

/-- Only an absent ACL is answered as absent. -/
theorem absent (h : Answers wac w acl r) : r = .ok none ↔ probe w acl = .ok none := by
  rcases h with rfl | ⟨m, e, -, hp, -, -, rfl⟩
  · exact ⟨aclOutcome_eq_none, aclOutcome_absent⟩
  · simp [hp]

end Answers

/-- Neither reader touches anything for an ACL that is not there. -/
theorem readAcl_absent (h : probe w acl = .ok none) :
    exec (wac.readAcl acl) w = (.ok none, w) := by
  unfold WacAuthorizer.readAcl
  split_ifs
  · unfold WacAuthorizer.readAndParseAcl
    rw [exec_bind, exec_attempt, exec_read_absent h]
    rfl
  · rw [exec_bind_ok (by rw [exec_meta?, h])]
    rfl

/-! ## §2 The effective ACL -/

/-- The first ACL of a chain of governed resources, each with the scope its rules are matched
under; `outcome` says what reading each ACL comes to. -/
def resolution (outcome : Iri → Except ServerError (Option (List Triple))) :
    List (Iri × AclScope) → Except ServerError ResolvedAcl
  | [] => .ok none
  | (governed, scope) :: rest =>
    match outcome (aclFor governed) with
    | .error e => .error e
    | .ok (some triples) => .ok (some (triples, governed, scope))
    | .ok none => resolution outcome rest

/-- The chain of a resource: itself, then its ancestors. -/
def walk (baseUrl : Text) (resource : Iri) : List (Iri × AclScope) :=
  (resource, .accessTo) :: (ancestorsNearestFirst baseUrl resource).map fun a => (a, .default)

/-- One probe of a walk: its answer decides, and an absent ACL hands an unchanged world to the
rest of the walk. -/
theorem probed_walk {reader : Iri → Server (Option (List Triple))} {rest : Server ResolvedAcl}
    (habsent : (exec (reader (aclFor governed)) w).1 = .ok none → (exec (reader (aclFor governed)) w).2 = w)
    (hrest : (exec rest w).1 = resolution (fun acl => (exec (reader acl) w).1) chain) :
    (exec (do
      match ← reader (aclFor governed) with
      | some triples => pure (some (triples, governed, scope))
      | none => rest) w).1 =
      resolution (fun acl => (exec (reader acl) w).1) ((governed, scope) :: chain) := by
  rw [resolution, exec_bind]
  rcases hrun : exec (reader (aclFor governed)) w with ⟨r, v⟩
  rw [hrun] at habsent
  rcases r with e | ⟨⟩ | ts
  · rfl
  · obtain rfl : v = w := habsent rfl
    exact hrest
  · rfl

theorem readAcl_unchanged (h : (exec (wac.readAcl acl) w).1 = .ok none) :
    (exec (wac.readAcl acl) w).2 = w := by
  rw [readAcl_absent ((answers_readAcl acl).absent.mp h)]

theorem resolveAncestors_fst (ancestors : List Iri) :
    (exec (wac.resolveAncestors ancestors) w).1 =
      resolution (fun acl => (exec (wac.readAcl acl) w).1)
        (ancestors.map fun a => (a, .default)) := by
  induction ancestors with
  | nil => rfl
  | cons a rest ih => exact probed_walk readAcl_unchanged ih

/-- **The sequential walk** finds the first ACL of the chain. -/
theorem resolveEffectiveAcl_fst (resource : Iri) :
    (exec (wac.resolveEffectiveAcl resource) w).1 =
      resolution (fun acl => (exec (wac.readAcl acl) w).1) (walk wac.baseUrl resource) :=
  probed_walk readAcl_unchanged (resolveAncestors_fst _)

/-! ## §3 The planned walk -/

/-- The row of a read plan for the ACL of a governed resource, next to its candidate. -/
def planRow (w : World) (governed : Iri) : AclCandidate × Iri × Option Text :=
  (⟨aclFor governed, governed⟩, aclFor governed,
    (w.backend.index.meta? (aclFor governed)).map ResourceMeta.etag)

/-- One row of the planned walk, on an index that answers. -/
theorem resolvePlannedLoop_cons {idx : Nat} {rows : List (AclCandidate × Iri × Option Text)}
    (hidx : w.faults.indexRead (aclFor governed) = none)
    (hrest : (exec (wac.resolvePlannedLoop (idx + 1) rows) w).1 = resolution (fun acl => (exec (wac.readAclConfirmed acl) w).1) chain)
    :
    (exec (wac.resolvePlannedLoop idx (planRow w governed :: rows)) w).1 =
      resolution (fun acl => (exec (wac.readAclConfirmed acl) w).1)
        ((governed, if idx = 0 then .accessTo else .default) :: chain) := by
  have hprobe := probe_of_no_fault hidx
  have hans : (exec (wac.readAclConfirmed (aclFor governed)) w).1 = .ok none ↔
      probe w (aclFor governed) = .ok none := (answers_readAclConfirmed _).absent
  unfold planRow WacAuthorizer.resolvePlannedLoop
  simp only [ne_eq]
  cases hm : w.backend.index.meta? (aclFor governed) with
  | none =>
    -- the plan's row says absent, and so would a live probe
    rw [resolution, hans.mpr (by rw [hprobe, hm])]
    exact hrest
  | some m =>
    refine probed_walk (fun h => ?_) hrest
    have := hans.mp h
    simp [hprobe, hm] at this

theorem resolvePlannedLoop_fst (governed : List Iri) (idx : Nat)
    (hidx : ∀ g ∈ governed, w.faults.indexRead (aclFor g) = none) :
    (exec (wac.resolvePlannedLoop (idx + 1) (governed.map (planRow w))) w).1 =
      resolution (fun acl => (exec (wac.readAclConfirmed acl) w).1)
        (governed.map fun g => (g, .default)) := by
  induction governed generalizing idx with
  | nil => rfl
  | cons g rest ih =>
    obtain ⟨hg, hrest⟩ := List.forall_mem_cons.mp hidx
    exact resolvePlannedLoop_cons hg (ih (idx + 1) hrest)

/-- The ACLs `read_plan` is asked for. -/
def planAcls (baseUrl : Text) (target : Iri) : List Iri :=
  (readPlanCandidates baseUrl target).map AclCandidate.acl

/-- A read plan's rows, zipped with their candidates, are the rows of the chain. -/
theorem zip_readPlan (baseUrl : Text) (slot target : Iri) :
    (readPlanCandidates baseUrl target).zip
        (w.backend.index.readPlan slot (planAcls baseUrl target)).acls =
      (protectedResource target :: ancestorsNearestFirst baseUrl (protectedResource target)).map
        (planRow w) := by
  simp only [planAcls, readPlanCandidates, Index.readPlan, List.map_cons, List.map_map,
    List.zip_cons_cons, List.zip_map']
  rfl

/-- **The planned walk** over the rows of a read plan finds the first ACL of the chain. -/
theorem resolveEffectiveAclPlanned_fst (slot target : Iri)
    (hidx : ∀ acl ∈ planAcls wac.baseUrl target, w.faults.indexRead acl = none) :
    (exec (wac.resolveEffectiveAclPlanned (readPlanCandidates wac.baseUrl target)
        (w.backend.index.readPlan slot (planAcls wac.baseUrl target)).acls) w).1 =
      resolution (fun acl => (exec (wac.readAclConfirmed acl) w).1)
        (walk wac.baseUrl (protectedResource target)) := by
  rw [WacAuthorizer.resolveEffectiveAclPlanned, if_neg (by simp [Index.readPlan, planAcls]),
    zip_readPlan]
  simp only [planAcls, readPlanCandidates, List.forall_mem_cons,
    List.forall_mem_map] at hidx
  exact resolvePlannedLoop_cons hidx.1 (resolvePlannedLoop_fst _ 0 hidx.2)

/-! ## §4 The two walks agree -/

theorem resolution_congr {o₁ o₂ : Iri → Except ServerError (Option (List Triple))}
    (h : ∀ acl, o₁ acl = o₂ acl) (chain : List (Iri × AclScope)) :
    resolution o₁ chain = resolution o₂ chain := by
  rw [funext h]

/-- Ask for the read plan of a target and walk it. -/
def plannedResolution (wac : WacAuthorizer) (slot target : Iri) : Server ResolvedAcl := do
  let plan ← readPlan slot (planAcls wac.baseUrl target)
  wac.resolveEffectiveAclPlanned (readPlanCandidates wac.baseUrl target) plan.acls

theorem planFault_of_no_faults {slot : Iri} {acls : List Iri}
    (hidx : ∀ i, w.faults.indexRead i = none) :
    exec (readPlan slot acls) w = (.ok (w.backend.index.readPlan slot acls), w) := by
  rw [exec_readPlan, planFault_eq_none hidx]

/-- **Planned and sequential resolution agree** on a store whose index answers. -/
theorem plannedResolution_fst (hidx : ∀ i, w.faults.indexRead i = none)
    (hcache : CacheFaithful wac w) (slot target : Iri) :
    (exec (plannedResolution wac slot target) w).1 =
      (exec (wac.resolveEffectiveAcl (protectedResource target)) w).1 := by
  rw [plannedResolution, exec_bind_ok (planFault_of_no_faults hidx),
    resolveEffectiveAclPlanned_fst slot target fun acl _ => hidx acl, resolveEffectiveAcl_fst]
  refine resolution_congr (fun acl => ?_) _
  rw [(answers_readAclConfirmed acl).eq_aclOutcome hcache,
    (answers_readAcl acl).eq_aclOutcome hcache]

/-- A pure last step of a computation acts on its result. -/
theorem exec_bind_pure {α β : Type} (p : Server α) (f : α → β) (w : World) :
    (exec (do let a ← p; pure (f a)) w).1 = (exec p w).1.map f := by
  rw [exec_bind]
  rcases exec p w with ⟨_ | _, _⟩ <;> rfl

/-- **Planned evaluation equals sequential evaluation**: fed the rows of a read plan for its
candidates, the planned authorizer returns what the sequential one returns, and so does the
planned read authorizer, with both permission sets. -/
theorem authorizePlanned_eq_authorize (wac : WacAuthorizer) (w : World)
    (hidx : ∀ iri, w.faults.indexRead iri = none)
    (hcache : wac.cached = true → ∀ acl, w.aclCache.held? acl = none)
    (slot target : Iri) (required : AccessMode) (requester : Requester) :
    (exec (do
        let plan ← readPlan slot ((readPlanCandidates wac.baseUrl target).map AclCandidate.acl)
        wac.authorizePlanned required requester (readPlanCandidates wac.baseUrl target)
          plan.acls) w).1 = (exec (wac.authorize target required requester) w).1 ∧
    (exec (do
        let plan ← readPlan slot ((readPlanCandidates wac.baseUrl target).map AclCandidate.acl)
        wac.authorizeReadPlanned required requester (readPlanCandidates wac.baseUrl target)
          plan.acls) w).1 = (exec (wac.authorizeRead target required requester) w).1 := by
  have hresolved := plannedResolution_fst hidx (cacheFaithful_of_empty hcache) slot target
  unfold WacAuthorizer.authorizePlanned WacAuthorizer.authorizeReadPlanned
    WacAuthorizer.authorize WacAuthorizer.authorizeRead
  simp only [← bind_assoc]
  constructor
  · rw [exec_bind_pure, exec_bind_pure, ← hresolved]
    rfl
  · rw [exec_bind_pure, exec_bind_pure, ← hresolved]
    rfl

/-- A pod whose root ACL lets everybody read, and the authorizer over it. -/
def samplePod : Iri := "http://h/".toList

def sampleWac : WacAuthorizer := ⟨tableCodec (ruleTable samplePod) [], "http://h".toList, true⟩

def sampleWorld : World := World.seeded samplePod [(aclFor samplePod, [0, 1, 2, 3, 4])]

/-- Both evaluations of an anonymous read of `/a` run through the plan's second row. -/
theorem authorizePlanned_eq_authorize_sample :
    (exec (do
        let plan ← readPlan "http://h/a".toList
          ((readPlanCandidates sampleWac.baseUrl "http://h/a".toList).map AclCandidate.acl)
        sampleWac.authorizePlanned .read ⟨none, none⟩
          (readPlanCandidates sampleWac.baseUrl "http://h/a".toList) plan.acls) sampleWorld).1 =
      (exec (sampleWac.authorize "http://h/a".toList .read ⟨none, none⟩) sampleWorld).1 :=
  (authorizePlanned_eq_authorize sampleWac sampleWorld (fun _ => rfl) (fun _ _ => rfl)
    "http://h/a".toList "http://h/a".toList .read ⟨none, none⟩).1

/-! ## §5 The chain of a resource under the root -/

/-- The containers a resource lies in: its proper prefixes that end in a slash, from the longest
down to the root. -/
def containerPrefixes (root resource : Iri) : List Iri :=
  (Text.boundaries '/' root resource).filter (· ≠ resource)

@[simp] theorem storageRoot_getLast? (baseUrl : Text) :
    (storageRoot baseUrl).getLast? = some '/' := by
  simp [storageRoot]

/-- The end of `ancestors_nearest_first`: the root closes the list unless it already does. -/
def closedBy (root : Iri) (ancestors : List Iri) : List Iri :=
  if ancestors.getLast? = some root then ancestors else ancestors ++ [root]

theorem closedBy_cons {root x : Iri} (h : x ≠ root) (l : List Iri) :
    closedBy root (x :: l) = x :: closedBy root l := by
  cases l with
  | nil => simp [closedBy, h]
  | cons y l =>
    simp only [closedBy, List.getLast?_cons_cons]
    split_ifs <;> rfl

/-- The loop visits the boundaries of a text under the root. -/
theorem closedBy_ancestorsLoop {root : Iri} (hroot : root.getLast? = some '/') (t : Text) :
    ∀ fuel, (root ++ t).length ≤ fuel →
      closedBy root (ancestorsLoop root fuel (root ++ t)) =
        Text.boundaries '/' root (root ++ t) := by
  obtain ⟨r, rfl⟩ : ∃ r, root = r ++ ['/'] :=
    ⟨root.dropLast, (List.dropLast_append_getLast? '/' hroot).symm⟩
  generalize hR : r ++ ['/'] = root at *
  induction t using List.reverseRecOn with
  | nil =>
    intro fuel _
    have hloop : ancestorsLoop root fuel (root ++ []) = [] := by
      cases fuel <;> simp [ancestorsLoop]
    rw [hloop, List.append_nil, Text.boundaries_self hroot]
    simp [closedBy]
  | append_singleton t c ih =>
    intro fuel hfuel
    rw [← List.append_assoc] at hfuel ⊢
    obtain ⟨n, rfl⟩ : ∃ n, fuel = n + 1 := ⟨fuel - 1, by simp at hfuel; omega⟩
    have hlonger : Text.len root < Text.len (root ++ t ++ [c]) := by
      have := Text.len_pos (s := [c]) (by simp)
      simp only [Text.len_append]
      omega
    by_cases hc : c = '/'
    · -- a container: it is its own nearest prefix, and the walk goes on below it
      subst hc
      have hne : root ++ t ++ ['/'] ≠ root := fun e => by
        simpa using congrArg List.length e
      rw [ancestorsLoop, if_pos hlonger, Text.throughLast_concat_self]
      simp only [List.dropLast_concat]
      rw [closedBy_cons hne, ih n (by simp at hfuel ⊢; omega),
        Text.boundaries_concat_sep (by simp [List.append_assoc])]
    · rw [Text.boundaries_concat_ne hc]
      by_cases ht : t = []
      · subst ht
        have hlast : ancestorsLoop root n root.dropLast = [] := by
          cases n with
          | zero => rfl
          | succ n =>
            rw [ancestorsLoop]
            simp [← hR]
        rw [ancestorsLoop, if_pos hlonger, Text.throughLast_concat_ne _ hc, List.append_nil,
          ← hR, Text.throughLast_concat_self, hR]
        simp only [hlast]
        rw [Text.boundaries_self hroot]
        simp [closedBy]
      · -- a last segment under a container: the walk starts where the shorter text's starts
        have hstill : Text.len root < Text.len (root ++ t) := by
          have := Text.len_pos ht
          simp only [Text.len_append]
          omega
        rw [← ih (n + 1) (by simp at hfuel ⊢; omega), ancestorsLoop, if_pos hlonger,
          Text.throughLast_concat_ne _ hc, ancestorsLoop, if_pos hstill]

theorem ancestorsNearestFirst_of_ne (h : resource ≠ storageRoot baseUrl) :
    ancestorsNearestFirst baseUrl resource =
      closedBy (storageRoot baseUrl)
        (if Text.endsWith resource ['/'] then
          ancestorsLoop (storageRoot baseUrl) resource.dropLast.length resource.dropLast
        else ancestorsLoop (storageRoot baseUrl) resource.length resource) := by
  simp only [ancestorsNearestFirst, if_neg h, closedBy]
  split_ifs <;> rfl

/-- **The ancestor walk** of a resource under the root visits its container prefixes. -/
theorem ancestorsNearestFirst_eq (h : storageRoot baseUrl <+: resource) :
    ancestorsNearestFirst baseUrl resource = containerPrefixes (storageRoot baseUrl) resource := by
  have hloop := closedBy_ancestorsLoop (storageRoot_getLast? baseUrl)
  obtain ⟨t, rfl⟩ := h
  unfold containerPrefixes
  rcases List.eq_nil_or_concat' t with rfl | ⟨u, c, rfl⟩
  · simp [ancestorsNearestFirst, Text.boundaries_self]
  · rw [ancestorsNearestFirst_of_ne fun e => by simpa using congrArg List.length e]
    have hthis := hloop (u ++ [c]) _ le_rfl
    rw [← List.append_assoc] at hthis ⊢
    by_cases hc : c = '/'
    · -- a container: the walk starts above it
      subst hc
      rw [if_pos (Text.endsWith_iff.mpr (List.suffix_append _ _)), List.dropLast_concat, hloop u _ le_rfl,
        Text.boundaries_concat_sep (by simp [List.append_assoc]),
        List.filter_cons_of_neg (by simp), List.filter_eq_self.mpr]
      intro q hq
      have hle := (Text.mem_boundaries.mp hq).1.length_le
      simp only [decide_eq_true_eq]
      rintro rfl
      simp only [List.length_append, List.length_singleton] at hle
      omega
    · have hends : ¬ Text.endsWith (storageRoot baseUrl ++ u ++ [c]) ['/'] = true := by
        rw [Text.endsWith_singleton]
        simpa using hc
      rw [if_neg hends, hthis, List.filter_eq_self.mpr]
      intro q hq
      have hq' := (Text.mem_boundaries.mp hq).2.2
      simp only [decide_eq_true_eq]
      rintro rfl
      simp [hc] at hq'

/-- The resource an ACL under the root protects is under the root. -/
theorem storageRoot_prefix_protectedResource {target : Iri} (h : storageRoot baseUrl <+: target) :
    storageRoot baseUrl <+: protectedResource target := by
  unfold protectedResource
  split_ifs with hacl
  · obtain ⟨s, rfl⟩ := Text.endsWith_iff.mp hacl
    have hroot := storageRoot_getLast? baseUrl
    have hs : (s ++ aclSuffix).take ((s ++ aclSuffix).length - aclSuffix.length) = s := by simp
    rw [hs]
    -- the suffix has no slash, so the root ends before it
    have hsplit : s ++ aclSuffix = s ++ ['.'] ++ ['a'] ++ ['c'] ++ ['l'] := by
      simp [aclSuffix]
    rw [hsplit] at h
    have step : ∀ {u : Text} {c : Char}, c ≠ '/' → storageRoot baseUrl <+: u ++ [c] →
        storageRoot baseUrl <+: u := by
      intro u c hc hu
      rcases List.prefix_concat_iff.mp hu with he | hu
      · rw [he] at hroot
        simp [hc] at hroot
      · exact hu
    exact step (by decide) (step (by decide) (step (by decide) (step (by decide) h)))
  · exact h

/-- **The chain of a protected resource**: its own ACL, then those of all its containers,
nearest first. -/
def aclChain (root resource : Iri) : List (Iri × AclScope) :=
  (resource, .accessTo) :: (containerPrefixes root resource).map fun c => (c, .default)

theorem walk_eq (h : storageRoot baseUrl <+: resource) :
    walk baseUrl resource = aclChain (storageRoot baseUrl) resource := by
  rw [walk, ancestorsNearestFirst_eq h, aclChain]

/-! ## §6 The decision -/

/-- `c` is the first of the chain whose ACL is not simply absent. -/
def FirstOn (w : World) (chain : List (Iri × AclScope)) (c : Iri × AclScope) : Prop :=
  ∃ nearer farther, chain = nearer ++ c :: farther ∧
    (∀ n ∈ nearer, probe w (aclFor n.1) = .ok none) ∧ probe w (aclFor c.1) ≠ .ok none

theorem resolution_absent (h : ∀ c ∈ chain, probe w (aclFor c.1) = .ok none) :
    resolution (aclOutcome wac w) chain = .ok none := by
  induction chain with
  | nil => rfl
  | cons c rest ih =>
    obtain ⟨hc, hrest⟩ := List.forall_mem_cons.mp h
    rw [resolution, aclOutcome_absent hc]
    exact ih hrest

/-- The first ACL on the chain decides alone: nothing farther is consulted. -/
theorem resolution_first (h : FirstOn w chain (governed, scope)) :
    resolution (aclOutcome wac w) chain =
      (aclOutcome wac w (aclFor governed)).map fun o => o.map fun ts => (ts, governed, scope) := by
  obtain ⟨nearer, farther, rfl, habsent, hhere⟩ := h
  induction nearer with
  | nil =>
    rw [List.nil_append, resolution]
    cases ho : aclOutcome wac w (aclFor governed) with
    | error e => rfl
    | ok o =>
      cases o with
      | none => exact absurd (aclOutcome_eq_none ho) hhere
      | some ts => rfl
  | cons n nearer ih =>
    obtain ⟨hn, hrest⟩ := List.forall_mem_cons.mp habsent
    rw [List.cons_append, resolution, aclOutcome_absent hn]
    exact ih hrest

/-- Either every ACL of the chain is absent or there is a first one. -/
theorem absent_or_first (w : World) (chain : List (Iri × AclScope)) :
    (∀ c ∈ chain, probe w (aclFor c.1) = .ok none) ∨ ∃ c, FirstOn w chain c := by
  induction chain with
  | nil => exact .inl (by simp)
  | cons c rest ih =>
    by_cases hc : probe w (aclFor c.1) = .ok none
    · rcases ih with hrest | ⟨d, nearer, farther, rfl, habsent, hd⟩
      · exact .inl (List.forall_mem_cons.mpr ⟨hc, hrest⟩)
      · exact .inr ⟨d, c :: nearer, farther, rfl, List.forall_mem_cons.mpr ⟨hc, habsent⟩, hd⟩
    · exact .inr ⟨c, [], rest, rfl, by simp, hc⟩

/-- A denial of this requester: `Unauthenticated` exactly when there is no WebID. -/
def denial (requester : Requester) : Decision :=
  if requester.webId.isNone then .unauthenticated else .forbidden

theorem decisionFor_of_satisfies {resolved : ResolvedAcl}
    (h : satisfies (resolved.modesFor requester) required = true) :
    WacAuthorizer.decisionFor resolved required requester =
      .allow (resolved.modesFor requester) := by
  simp only [WacAuthorizer.decisionFor, h, if_true]

theorem decisionFor_of_not_satisfies {resolved : ResolvedAcl}
    (h : satisfies (resolved.modesFor requester) required = false) :
    WacAuthorizer.decisionFor resolved required requester = denial requester := by
  simp only [WacAuthorizer.decisionFor, h, Bool.false_eq_true, if_false, denial]

theorem denial_ne_allow (requester : Requester) (modes : Finset AccessMode) :
    denial requester ≠ .allow modes := by
  unfold denial
  split_ifs <;> simp

/-- An ACL document grants, once parsed, exactly what its triples permit; one that does not parse
grants nothing. -/
theorem satisfies_parseAclBody {body : Bytes} :
    satisfies (ResolvedAcl.modesFor (some (wac.parseAclBody ⟨body, m⟩ acl, governed, scope))
        requester) required = true ↔
      ∃ ts, parseToTriples wac.codec (storedFormat m.contentType) body acl = .ok ts ∧
        Permits ts governed requester scope required := by
  unfold ResolvedAcl.modesFor WacAuthorizer.parseAclBody
  cases hparse : parseToTriples wac.codec (storedFormat m.contentType) body acl with
  | ok ts => simp [satisfies_modesFor]
  | error e => simp [satisfies_modesFor, Permits, Authorizes, Says]

/-- The ACL document that governs: the first existing one of the chain, with the record and the
bytes the store returns for it. -/
structure Governs (w : World) (chain : List (Iri × AclScope)) (governed : Iri) (scope : AclScope)
    (m : ResourceMeta) (body : Bytes) : Prop where
  first : FirstOn w chain (governed, scope)
  record : probe w (aclFor governed) = .ok (some m)
  bytes : fetchOutcome w m = .ok body

/-- The store fails at the first ACL of the chain that is not absent. -/
def FailsOn (w : World) (chain : List (Iri × AclScope)) (e : ServerError) : Prop :=
  ∃ governed scope, FirstOn w chain (governed, scope) ∧
    (probe w (aclFor governed) = .error e ∨
      ∃ m, probe w (aclFor governed) = .ok (some m) ∧ fetchOutcome w m = .error e)

/-- A chain has no ACL, or the store fails on it, or some document governs. -/
theorem chain_cases (w : World) (chain : List (Iri × AclScope)) :
    (∀ c ∈ chain, probe w (aclFor c.1) = .ok none) ∨ (∃ e, FailsOn w chain e) ∨
      ∃ governed scope m body, Governs w chain governed scope m body := by
  rcases absent_or_first w chain with habsent | ⟨⟨governed, scope⟩, hfirst⟩
  · exact .inl habsent
  right
  have hne : probe w (aclFor governed) ≠ .ok none := by
    obtain ⟨_, _, _, _, hne⟩ := hfirst
    exact hne
  rcases hp : probe w (aclFor governed) with e | ⟨⟩ | m
  · exact .inl ⟨e, governed, scope, hfirst, .inl hp⟩
  · exact absurd hp hne
  · cases hb : fetchOutcome w m with
    | error e => exact .inl ⟨e, governed, scope, hfirst, .inr ⟨m, hp, hb⟩⟩
    | ok body => exact .inr ⟨governed, scope, m, body, hfirst, hp, hb⟩

theorem resolution_fails {e : ServerError} (h : FailsOn w chain e) :
    resolution (aclOutcome wac w) chain = .error e := by
  obtain ⟨governed, scope, hfirst, hp | ⟨m, hp, hb⟩⟩ := h
  · rw [resolution_first hfirst]
    simp [aclOutcome, hp, Except.map]
  · rw [resolution_first hfirst, aclOutcome_of_probe hp, hb]
    rfl

theorem resolution_governs {body : Bytes} (h : Governs w chain governed scope m body) :
    resolution (aclOutcome wac w) chain =
      .ok (some (wac.parseAclBody ⟨body, m⟩ (aclFor governed), governed, scope)) := by
  rw [resolution_first h.first, aclOutcome_of_probe h.record, h.bytes]
  rfl

theorem exec_authorize_fst (hcache : CacheFaithful wac w) {target : Iri}
    (hunder : storageRoot wac.baseUrl <+: target) (required : AccessMode) (requester : Requester) :
    (exec (wac.authorize target required requester) w).1 =
      (resolution (aclOutcome wac w)
        (aclChain (storageRoot wac.baseUrl) (protectedResource target))).map
        fun resolved => WacAuthorizer.decisionFor resolved required requester := by
  rw [WacAuthorizer.authorize, exec_bind_pure, resolveEffectiveAcl_fst,
    walk_eq (storageRoot_prefix_protectedResource hunder),
    resolution_congr fun acl => (answers_readAcl acl).eq_aclOutcome hcache]

/-- **What the authorizer decides.**  Over the chain of the protected resource: it allows exactly
when the first existing ACL document of the chain, parsed under its content type, holds an
authorisation for the requester; it denies when that document does not parse and when there is
none; it fails with exactly the store errors met at the first ACL that is not absent; and what
is not allowed is `Unauthenticated` for a requester without a WebID and `Forbidden` for any
other. -/
theorem authorize_decides (wac : WacAuthorizer) (w : World) (hcache : CacheFaithful wac w)
    (target : Iri) (hunder : storageRoot wac.baseUrl <+: target) (required : AccessMode)
    (requester : Requester) :
    let chain := aclChain (storageRoot wac.baseUrl) (protectedResource target)
    let result := (exec (wac.authorize target required requester) w).1
    ((∃ modes, result = .ok (.allow modes)) ↔
      ∃ governed scope m body ts, Governs w chain governed scope m body ∧
        parseToTriples wac.codec (storedFormat m.contentType) body (aclFor governed) = .ok ts ∧
        Permits ts governed requester scope required) ∧
    (∀ governed scope m body e, Governs w chain governed scope m body →
      parseToTriples wac.codec (storedFormat m.contentType) body (aclFor governed) = .error e →
      result = .ok (denial requester)) ∧
    ((∀ c ∈ chain, probe w (aclFor c.1) = .ok none) → result = .ok (denial requester)) ∧
    (∀ e, result = .error e ↔ FailsOn w chain e) ∧
    (∀ d, result = .ok d → (∃ modes, d = .allow modes) ∨
      (d = .unauthenticated ∧ requester.webId = none) ∨
      (d = .forbidden ∧ requester.webId ≠ none)) := by
  intro chain result
  have hresult : result = (resolution (aclOutcome wac w) chain).map
      fun resolved => WacAuthorizer.decisionFor resolved required requester :=
    exec_authorize_fst hcache hunder required requester
  have habsent : (∀ c ∈ chain, probe w (aclFor c.1) = .ok none) → result = .ok (denial requester) := by
    intro h
    rw [hresult, resolution_absent h]
    exact congrArg Except.ok (decisionFor_of_not_satisfies (satisfies_empty required))
  have hfails : ∀ e, FailsOn w chain e → result = .error e := by
    intro e h
    rw [hresult, resolution_fails h]
    rfl
  have hgoverns : ∀ governed scope m body, Governs w chain governed scope m body →
      result = .ok (WacAuthorizer.decisionFor
        (some (wac.parseAclBody ⟨body, m⟩ (aclFor governed), governed, scope)) required
        requester) := by
    intro governed scope m body h
    rw [hresult, resolution_governs h]
    rfl
  refine ⟨⟨?_, ?_⟩, ?_, habsent, fun e => ⟨?_, hfails e⟩, ?_⟩
  · rintro ⟨modes, hallow⟩
    rcases chain_cases w chain with h | ⟨e, h⟩ | ⟨governed, scope, m, body, h⟩
    · rw [habsent h] at hallow
      exact absurd (Except.ok.inj hallow) (denial_ne_allow requester modes)
    · rw [hfails e h] at hallow
      cases hallow
    · -- the governing document must satisfy the mode, or the decision were a denial
      by_contra hnone
      have hnot : satisfies (ResolvedAcl.modesFor (some (wac.parseAclBody ⟨body, m⟩
          (aclFor governed), governed, scope)) requester) required = false := by
        rw [Bool.eq_false_iff, ne_eq, satisfies_parseAclBody]
        rintro ⟨ts, hparse, hpermits⟩
        exact hnone ⟨governed, scope, m, body, ts, h, hparse, hpermits⟩
      rw [hgoverns governed scope m body h, decisionFor_of_not_satisfies hnot] at hallow
      exact absurd (Except.ok.inj hallow) (denial_ne_allow requester modes)
  · rintro ⟨governed, scope, m, body, ts, h, hparse, hpermits⟩
    rw [hgoverns governed scope m body h,
      decisionFor_of_satisfies (satisfies_parseAclBody.mpr ⟨ts, hparse, hpermits⟩)]
    exact ⟨_, rfl⟩
  · intro governed scope m body e h hparse
    rw [hgoverns governed scope m body h, decisionFor_of_not_satisfies]
    rw [Bool.eq_false_iff, ne_eq, satisfies_parseAclBody]
    rintro ⟨ts, hts, -⟩
    rw [hparse] at hts
    cases hts
  · intro herr
    rcases chain_cases w chain with h | ⟨e', h⟩ | ⟨governed, scope, m, body, h⟩
    · rw [habsent h] at herr
      cases herr
    · rw [hfails e' h] at herr
      obtain rfl := Except.error.inj herr
      exact h
    · rw [hgoverns governed scope m body h] at herr
      cases herr
  · intro d hd
    rw [hresult] at hd
    rcases hr : resolution (aclOutcome wac w) chain with e | resolved
    · rw [hr] at hd
      cases hd
    · rw [hr] at hd
      obtain rfl : WacAuthorizer.decisionFor resolved required requester = d := Except.ok.inj hd
      cases hs : satisfies (ResolvedAcl.modesFor resolved requester) required with
      | true => exact .inl ⟨_, decisionFor_of_satisfies hs⟩
      | false =>
        rw [decisionFor_of_not_satisfies hs, denial]
        cases hw : requester.webId <;> simp

/-- The root's ACL governs `/a`: everybody may read it. -/
theorem authorize_decides_sample :
    (exec (sampleWac.authorize "http://h/a".toList .read ⟨none, none⟩) sampleWorld).1 =
      .ok (.allow {.read}) ∧
    ∃ governed scope m body ts,
      Governs sampleWorld (aclChain samplePod "http://h/a".toList) governed scope m body ∧
      parseToTriples sampleWac.codec (storedFormat m.contentType) body (aclFor governed) = .ok ts ∧
      Permits ts governed ⟨none, none⟩ scope .read := by
  have hallow : (exec (sampleWac.authorize "http://h/a".toList .read ⟨none, none⟩) sampleWorld).1 =
      .ok (.allow {.read}) := by decide
  exact ⟨hallow, (authorize_decides sampleWac sampleWorld (cacheFaithful_of_empty fun _ _ => rfl)
    "http://h/a".toList (by decide) .read ⟨none, none⟩).1.mp ⟨_, hallow⟩⟩

end SolidServer.Authz
