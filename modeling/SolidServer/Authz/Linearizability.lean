import SolidServer.Authz.Resolution

/-!
# Runs of authorizations

Any number of authorizations and ACL reads on one instance, interleaved step by step
with each other and with `Interference`, from a cold start.  A record is `Held` if it is
in the index at some instant of the run.

* The ACL cache is keyed by ACL and entity tag.  As long as no ACL is held with the same
  bytes under content types of different formats, every authorization decides as the
  records its own probes found say.
* The decision is assembled from several instants: the governing ACL granted when it was
  probed, and every nearer one was absent at an earlier instant of the authorization.
-/

namespace SolidServer.Authz

open SolidServer.Effects SolidServer.Store SolidServer.Ldp

variable {wac : WacAuthorizer} {ledger : Ledger}

/-! ## §1 Tasks -/

/-- What one thread of a run does: a single ACL read, or a whole authorization. -/
inductive Task where
  | read (acl : Iri)
  | confirm (acl : Iri)
  | authorize (target : Iri) (required : AccessMode) (requester : Requester)
  | authorizeRead (target : Iri) (required : AccessMode) (requester : Requester)
  | authorizePlanned (slot target : Iri) (required : AccessMode) (requester : Requester)
  | authorizeReadPlanned (slot target : Iri) (required : AccessMode) (requester : Requester)

namespace Task

abbrev Result : Task → Type
  | read _ | confirm _ => Option (List Triple)
  | authorize _ _ _ | authorizePlanned _ _ _ _ => Decision
  | authorizeRead _ _ _ | authorizeReadPlanned _ _ _ _ => ReadDecision

/-- The program of a task; the planned ones ask for their read plan first. -/
def program (wac : WacAuthorizer) : (t : Task) → Server t.Result
  | read acl => wac.readAcl acl
  | confirm acl => wac.readAclConfirmed acl
  | authorize target required requester => wac.authorize target required requester
  | authorizeRead target required requester => wac.authorizeRead target required requester
  | authorizePlanned slot target required requester => do
    let plan ← readPlan slot (planAcls wac.baseUrl target)
    wac.authorizePlanned required requester (readPlanCandidates wac.baseUrl target) plan.acls
  | authorizeReadPlanned slot target required requester => do
    let plan ← readPlan slot (planAcls wac.baseUrl target)
    wac.authorizeReadPlanned required requester (readPlanCandidates wac.baseUrl target) plan.acls

/-- The effective ACL of a target as the records found by a log's probes have it. -/
def seenAcl (wac : WacAuthorizer) (ledger : Ledger) (log : List (Event storeSig)) (target : Iri) :
    ResolvedAcl :=
  firstAcl (seen wac ledger log) (walk wac.baseUrl (protectedResource target))

/-- **Exactness**: a task's result is what parsing the records its own metadata probes returned
gives. -/
def Exact (wac : WacAuthorizer) (ledger : Ledger) (log : List (Event storeSig)) :
    (t : Task) → t.Result → Prop
  | read acl, x | confirm acl, x => x = seen wac ledger log acl
  | authorize target required requester, d | authorizePlanned _ target required requester, d =>
    d = WacAuthorizer.decisionFor (seenAcl wac ledger log target) required requester
  | authorizeRead target required requester, d
  | authorizeReadPlanned _ target required requester, d =>
    d = WacAuthorizer.readDecisionFor (seenAcl wac ledger log target) required requester

/-- What an authorization is asked. -/
def question : Task → Option (Iri × AccessMode × Requester)
  | read _ | confirm _ => none
  | authorize target required requester
  | authorizeRead target required requester
  | authorizePlanned _ target required requester
  | authorizeReadPlanned _ target required requester => some (target, required, requester)

/-- The answer of an authorization is `Allow`. -/
def Allows : (t : Task) → t.Result → Prop
  | read _, _ | confirm _, _ => False
  | authorize _ _ _, d | authorizePlanned _ _ _ _, d => ∃ modes, d = .allow modes
  | authorizeRead _ _ _, d | authorizeReadPlanned _ _ _ _, d => ∃ perms, d = .allow perms

/-- What a log tells about a task's result. -/
def Sees (wac : WacAuthorizer) (ledger : Ledger) (log : List (Event storeSig)) :
    (t : Task) → t.Result → Prop
  | read acl, x | confirm acl, x => Saw wac ledger acl log x
  | authorize target required requester, d | authorizePlanned _ target required requester, d =>
    ∃ resolved, Resolved wac ledger target log resolved ∧
      d = WacAuthorizer.decisionFor resolved required requester
  | authorizeRead target required requester, d
  | authorizeReadPlanned _ target required requester, d =>
    ∃ resolved, Resolved wac ledger target log resolved ∧
      d = WacAuthorizer.readDecisionFor resolved required requester

variable {written : Iri → ResourceMeta → Prop}

/-- A decision is a pure function of the resolved ACL. -/
theorem attests_decided {α : Type} {target : Iri} {p : Server ResolvedAcl} (f : ResolvedAcl → α)
    (hp : Attests wac ledger written p fun log r =>
      ∀ x, r = .ok x → Resolved wac ledger target log x) :
    Attests wac ledger written (do let resolved ← p; pure (f resolved)) fun log r =>
      ∀ d, r = .ok d → ∃ resolved, Resolved wac ledger target log resolved ∧ d = f resolved := by
  refine Program.Obeys.bind hp ?_ (by simp)
  intro log resolved h
  refine .pure ?_
  rintro _ ⟨⟩
  rw [List.append_nil]
  exact ⟨resolved, h resolved rfl, rfl⟩

theorem attests_program (hpin : wac.cached = true → Pinned wac ledger written) (t : Task) :
    Attests wac ledger written (t.program wac) fun log r =>
      ∀ x, r = .ok x → t.Sees wac ledger log x := by
  cases t with
  | read acl => exact attests_readAcl hpin acl
  | confirm acl => exact attests_readAclConfirmed hpin acl
  | authorize target required requester =>
    exact attests_decided _ (attests_sequential hpin target)
  | authorizeRead target required requester =>
    exact attests_decided _ (attests_sequential hpin target)
  | authorizePlanned slot target required requester =>
    have h := attests_decided (fun x => WacAuthorizer.decisionFor x required requester)
      (attests_planned hpin slot target)
    rw [plannedResolution, bind_assoc] at h
    exact h
  | authorizeReadPlanned slot target required requester =>
    have h := attests_decided (fun x => WacAuthorizer.readDecisionFor x required requester)
      (attests_planned hpin slot target)
    rw [plannedResolution, bind_assoc] at h
    exact h

/-- A task sees exactly what its probes found. -/
theorem Sees.exact {log : List (Event storeSig)} {t : Task} {x : t.Result}
    (h : t.Sees wac ledger log x) : t.Exact wac ledger log x := by
  cases t with
  | read acl | confirm acl => exact (Saw.seen_eq h).symm
  | authorize | authorizeRead | authorizePlanned | authorizeReadPlanned =>
    obtain ⟨resolved, hres, rfl⟩ := h
    rw [hres.exact_]
    rfl

/-- An `Allow` rests on a resolved ACL that satisfies the mode. -/
theorem Sees.granting {log : List (Event storeSig)} {t : Task} {x : t.Result} {target : Iri}
    {required : AccessMode} {requester : Requester} (h : t.Sees wac ledger log x)
    (hq : t.question = some (target, required, requester)) (hallow : t.Allows x) :
    ∃ resolved, Resolved wac ledger target log resolved ∧
      satisfies (resolved.modesFor requester) required = true := by
  cases t with
  | read acl | confirm acl => cases hq
  | authorize | authorizePlanned =>
    cases hq
    obtain ⟨resolved, hres, rfl⟩ := h
    obtain ⟨modes, hmodes⟩ := hallow
    refine ⟨resolved, hres, ?_⟩
    unfold WacAuthorizer.decisionFor at hmodes
    by_contra hnot
    rw [if_neg hnot] at hmodes
    split_ifs at hmodes
  | authorizeRead | authorizeReadPlanned =>
    cases hq
    obtain ⟨resolved, hres, rfl⟩ := h
    obtain ⟨perms, hperms⟩ := hallow
    refine ⟨resolved, hres, ?_⟩
    unfold WacAuthorizer.readDecisionFor at hperms
    by_contra hnot
    rw [if_pos (by simpa using hnot)] at hperms
    split_ifs at hperms

end Task

/-! ## §2 Runs -/

/-- A start with cold caches over a store whose bytes and tags are those of the ledger. -/
structure Cold (ledger : Ledger) (w : World) : Prop where
  records : ∀ iri m, w.backend.index.meta? iri = some m → m.etag = etagFor (ledger m.blobKey)
  bytes : ∀ key b, w.backend.blobs.lookup key = some b → b = ledger key
  bodies : ∀ key etag, w.bodyCache.body? key etag = none
  acls : ∀ acl, w.aclCache.held? acl = none

section
variable {ι : Type} {w v : World} {tr : List (Move ι storeSig World)}

/-- The record is in the index at some instant of the run. -/
def Held (w : World) (tr : List (Move ι storeSig World)) (iri : Iri) (m : ResourceMeta) : Prop :=
  w.backend.index.meta? iri = some m ∨
    ∃ mv ∈ tr, mv.after.backend.index.meta? iri = some m

/-- A record another request's step commits carries the tag of its bytes. -/
theorem minted_of_foreign {o : StoreOp} (ho : Foreign ledger o) {iri : Iri} {m : ResourceMeta}
    (hm : (World.sem w o).2.backend.index.meta? iri = some m) :
    w.backend.index.meta? iri = some m ∨ m.etag = etagFor (ledger m.blobKey) := by
  rcases meta?_step w o iri with hsame | ⟨m', ho', hm'⟩ | ⟨-, hgone⟩
  · exact .inl (hsame ▸ hm)
  · obtain rfl : m' = m := Option.some.inj (hm'.symm.trans hm)
    rcases ho'.op with rfl | ⟨container, rfl⟩ <;> exact .inr ho
  · rw [hgone] at hm
    cases hm

/-- The records of a run, each with the tag of its bytes. -/
def Committed (ledger : Ledger) (w : World) (tr : List (Move ι storeSig World)) (iri : Iri)
    (m : ResourceMeta) : Prop :=
  Held w tr iri m ∧ m.etag = etagFor (ledger m.blobKey)

theorem coherent_of_cold (h : Cold ledger w) :
    Coherent wac ledger (Committed ledger w tr) w where
  records iri m hm := ⟨.inl hm, h.records iri m hm⟩
  bytes := h.bytes
  bodies key etag b hb := by simp [h.bodies] at hb
  parses acl e he := by simp [h.acls] at he

theorem Coherent.disturbed {a b : World}
    (h : Coherent wac ledger (Committed ledger w tr) a) (hE : Interference ledger a b)
    (hheld : ∀ iri m, b.backend.index.meta? iri = some m → Held w tr iri m) :
    Coherent wac ledger (Committed ledger w tr) b := by
  refine h.interference hE fun iri m hm => ⟨hheld iri m hm, ?_⟩
  have hold : a.backend.index.meta? iri = some m → m.etag = etagFor (ledger m.blobKey) :=
    fun ha => (h.records iri m ha).2
  cases hE with
  | step ho => exact (minted_of_foreign ho hm).elim hold id
  | evictAcl | evictBody | outside => exact hold hm

/-- Tags that tell bytes apart, and bytes parsed under one format only, pin down the parse. -/
theorem pinned_of_formats
    (htags : ∀ acl m m', Held w tr acl m → Held w tr acl m' →
      etagFor (ledger m.blobKey) = etagFor (ledger m'.blobKey) →
      ledger m.blobKey = ledger m'.blobKey)
    (hformats : ∀ acl m m', Held w tr acl m → Held w tr acl m' →
      ledger m.blobKey = ledger m'.blobKey →
      storedFormat m.contentType = storedFormat m'.contentType) :
    Pinned wac ledger (Committed ledger w tr) := by
  rintro acl m m' ⟨hm, htag⟩ ⟨hm', htag'⟩ heq
  have hbytes := htags acl m m' hm hm' (by rw [← htag, ← htag', heq])
  have hformat := hformats acl m m' hm hm' hbytes
  unfold recordTriples WacAuthorizer.parseAclBody
  simp only [hbytes, hformat]

variable [DecidableEq ι] {task : ι → Task} {P' : (i : ι) → Server (task i).Result}

/-- **Runs of tasks**: whatever happens in between, a task that ends sees what its log says. -/
theorem run_sees (hcold : Cold ledger w)
    (hrun : Interleaves World.sem (Interference ledger) (fun i => (task i).program wac) w tr P' v)
    (hpin : wac.cached = true → Pinned wac ledger (Committed ledger w tr)) {i : ι}
    {x : (task i).Result} (hdone : P' i = .ret (.ok x)) :
    (task i).Sees wac ledger (ownEvents World.sem i tr) x := by
  have hheld : ∀ mv ∈ tr, ∀ iri m, mv.after.backend.index.meta? iri = some m →
      Held w tr iri m := fun mv hmv iri m hm => .inr ⟨mv, hmv, hm⟩
  have hrun' := hrun.restrict
    (K := fun _ b => ∀ iri m, b.backend.index.meta? iri = some m → Held w tr iri m) hheld
  refine (hrun'.invariant (I := Coherent wac ledger (Committed ledger w tr))
    (fun a o ha => ha.admissible o) (fun a o ha ho => ha.permitted ho)
    (fun a b ha hab => ha.disturbed hab.1 hab.2)
    (fun i => Task.attests_program hpin (task i)) (coherent_of_cold hcold)).2.2 i _ hdone x rfl

/-! ## §3 The cache never changes a decision -/

/-- The moves of other requests that take the given steps. -/
def foreignMoves : List StoreOp → World → List (Move ι storeSig World)
  | [], _ => []
  | o :: os, w => ⟨none, w, (World.sem w o).2⟩ :: foreignMoves os (World.sem w o).2

/-- The world after the given steps. -/
def afterSteps : List StoreOp → World → World
  | [], w => w
  | o :: os, w => afterSteps os (World.sem w o).2

theorem interleaves_foreign {γ : ι → Type} {P : (i : ι) → Server (γ i)} {os : List StoreOp}
    (h : ∀ o ∈ os, Foreign ledger o) (w : World) :
    Interleaves World.sem (Interference ledger) P w (foreignMoves os w) P (afterSteps os w) := by
  induction os generalizing w with
  | nil => exact .done P w
  | cons o os ih =>
    obtain ⟨ho, hos⟩ := List.forall_mem_cons.mp h
    exact .env (.step ho) (ih hos _)

end

theorem cold_boot (ledger : Ledger) : Cold ledger World.boot where
  records iri m hm := by cases hm
  bytes key b hb := by cases hb
  bodies key etag := rfl
  acls acl := rfl

/-- The steps with which a write commits a document: its bytes, then its record. -/
def writeSteps (iri : Iri) (contentType key : String) (body : Bytes) : List StoreOp :=
  [.blobPut key.toList body, .putMeta iri ⟨contentType.toList, key.toList, etagFor body, none⟩]

/-- An anonymous read of `/a`, planned. -/
abbrev readTask : Task :=
  .authorizePlanned (aclFor "http://h/a".toList) "http://h/a".toList .read ⟨none, none⟩

/-- A table with one statement of a named graph, which Turtle cannot express. -/
def mixedWac : WacAuthorizer :=
  ⟨tableCodec (ruleTable samplePod ++
    [⟨⟨.namedNode samplePod, rdfType, .namedNode samplePod⟩, .namedNode samplePod⟩]) [],
    "http://h".toList, true⟩

/-- Rules for everybody and a statement in a named graph: as JSON-LD they grant `Read`, as
Turtle they do not parse. -/
def mixedBytes : Bytes := [0, 1, 2, 3, 4, 8]

/-- The root's ACL as JSON-LD, and the same bytes rewritten under another content type. -/
def jsonLdAcl : List StoreOp :=
  writeSteps (aclFor samplePod) "application/ld+json" "k1" mixedBytes

def plainAcl : List StoreOp := writeSteps (aclFor samplePod) "text/plain" "k2" mixedBytes

/-- The ACL is written once, as JSON-LD, and read. -/
def jsonLdTrace : List (Move Unit storeSig World) :=
  foreignMoves jsonLdAcl World.boot ++
    Interleaves.solo World.sem () (readTask.program mixedWac) (afterSteps jsonLdAcl World.boot)

/-- What every record of every instant satisfies, every record held satisfies. -/
theorem held_of_entries {ι : Type} {w : World} {tr : List (Move ι storeSig World)} {iri : Iri}
    {m : ResourceMeta} (h : Held w tr iri m) {p : ResourceMeta → Bool}
    (hw : w.backend.index.records.entries.all (fun e => p e.2) = true)
    (htr : tr.all (fun mv => mv.after.backend.index.records.entries.all fun e => p e.2) = true) :
    p m = true := by
  rcases h with hm | ⟨mv, hmv, hm⟩
  · exact List.all_eq_true.mp hw _ (AList.mem_lookup_iff.mp hm)
  · exact List.all_eq_true.mp (List.all_eq_true.mp htr mv hmv) _ (AList.mem_lookup_iff.mp hm)

theorem jsonLdTrace_run :
    ∃ P' v, Interleaves World.sem (Interference fun _ => mixedBytes)
      (fun _ : Unit => readTask.program mixedWac) World.boot jsonLdTrace P' v ∧
      P' () = .ret (.ok (Decision.allow {.read})) ∧
      ∀ acl m m', Held World.boot jsonLdTrace acl m → Held World.boot jsonLdTrace acl m' →
        mixedBytes = mixedBytes → storedFormat m.contentType = storedFormat m'.contentType := by
  have hforeign : ∀ o ∈ jsonLdAcl, Foreign (fun _ => mixedBytes) o := by
    simp [jsonLdAcl, writeSteps, Foreign]
  have heval : (exec (readTask.program mixedWac) (afterSteps jsonLdAcl World.boot)).1 =
      .ok (Decision.allow {.read}) ∧
      jsonLdTrace.all (fun mv => mv.after.backend.index.records.entries.all fun e =>
        storedFormat e.2.contentType == .jsonLd) = true := by decide
  refine ⟨_, _, (interleaves_foreign hforeign World.boot).append
    (Interleaves.alone World.sem _ (fun _ => readTask.program mixedWac) _ ()), ?_, ?_⟩
  · exact congrArg _ heval.1
  · intro acl m m' hm hm' _
    have hformat : ∀ n, Held World.boot jsonLdTrace acl n →
        (storedFormat n.contentType == .jsonLd) = true := fun n hn =>
      held_of_entries hn (p := fun n => storedFormat n.contentType == .jsonLd) (by decide) heval.2
    rw [eq_of_beq (hformat m hm), eq_of_beq (hformat m' hm')]

/-- The instants of the history below: the ACL is JSON-LD; an authorization has cached it; it
has been rewritten as plain text. -/
def mixedInstants : World × World × World :=
  let json := afterSteps jsonLdAcl World.boot
  let cached := (exec (readTask.program mixedWac) json).2
  (json, cached, afterSteps plainAcl cached)

/-- The trace of that history, ending with a second authorization. -/
def mixedTrace : List (Move Bool storeSig World) :=
  foreignMoves jsonLdAcl World.boot ++
    (Interleaves.solo World.sem true (readTask.program mixedWac) mixedInstants.1 ++
      (foreignMoves plainAcl mixedInstants.2.1 ++
        Interleaves.solo World.sem false (readTask.program mixedWac) mixedInstants.2.2))

theorem mixedTrace_run :
    ∃ P' v, Interleaves World.sem (Interference fun _ => mixedBytes)
      (fun _ : Bool => readTask.program mixedWac) World.boot mixedTrace P' v ∧
      P' false = .ret (exec (readTask.program mixedWac) mixedInstants.2.2).1 := by
  have hforeign : (∀ o ∈ jsonLdAcl, Foreign (fun _ => mixedBytes) o) ∧
      ∀ o ∈ plainAcl, Foreign (fun _ => mixedBytes) o := by
    simp [jsonLdAcl, plainAcl, writeSteps, Foreign]
  have hfirst := Interleaves.alone World.sem (Interference fun _ => mixedBytes)
    (fun _ : Bool => readTask.program mixedWac) mixedInstants.1 true
  have hsecond := Interleaves.alone World.sem (Interference fun _ => mixedBytes)
    (Function.update (fun _ : Bool => readTask.program mixedWac) true
      (.ret ((readTask.program mixedWac).run World.sem mixedInstants.1).1))
    mixedInstants.2.2 false
  refine ⟨_, _, (interleaves_foreign hforeign.1 World.boot).append (hfirst.append
    ((interleaves_foreign hforeign.2 _).append hsecond)), ?_⟩
  rfl

section
variable {ι : Type} [DecidableEq ι] {i : ι} {mv : Move ι storeSig World} {acl : Iri}

theorem stored_of_probe {m : ResourceMeta}
    (h : mv.eventOf World.sem i = some ⟨.getMeta acl, .ok m⟩) :
    mv.actor = some (i, .getMeta acl) ∧ mv.before.backend.index.meta? acl = some m := by
  obtain ⟨hactor, hanswer⟩ := Move.eventOf_eq_some h
  refine ⟨hactor, ?_⟩
  exact World.meta?_of_found hanswer.symm

/-- The authorization's own step at which an ACL was absent. -/
theorem absent_of_found {t : List (Move ι storeSig World)}
    (h : FoundAbsent (ownEvents World.sem i t) acl) :
    ∃ mv ∈ t, (∃ o, mv.actor = some (i, o)) ∧ mv.before.backend.index.meta? acl = none := by
  rcases h with hprobe | ⟨slot, acls, plan, hplan, hrow⟩
  · obtain ⟨mv, hmv, hevent⟩ := List.mem_filterMap.mp hprobe
    obtain ⟨hactor, hanswer⟩ := Move.eventOf_eq_some hevent
    exact ⟨mv, hmv, ⟨_, hactor⟩, World.meta?_of_missing hanswer.symm⟩
  · obtain ⟨mv, hmv, hevent⟩ := List.mem_filterMap.mp hplan
    obtain ⟨hactor, hanswer⟩ := Move.eventOf_eq_some hevent
    refine ⟨mv, hmv, ⟨_, hactor⟩, ?_⟩
    -- the rows of a plan are the index at that instant
    rw [← World.plan_of_readPlan hanswer.symm] at hrow
    obtain ⟨c, -, hc⟩ := List.mem_map.mp hrow
    obtain ⟨rfl, hnone⟩ := Prod.mk.inj hc
    exact Option.map_eq_none_iff.mp hnone

end

/-- **What an `Allow` rests on**: an ACL of the target's chain that existed and granted the mode
under its scope when the authorization probed it, every nearer ACL having been absent at an
earlier step of the authorization. -/
theorem allow_located (wac : WacAuthorizer) (ledger : Ledger) {ι : Type} [DecidableEq ι]
    (task : ι → Task) {w v : World} {tr : List (Move ι storeSig World)}
    {P' : (i : ι) → Server (task i).Result} (hcold : Cold ledger w)
    (hrun : Interleaves World.sem (Interference ledger) (fun i => (task i).program wac) w tr P' v)
    (htags : wac.cached = true → ∀ acl m m', Held w tr acl m → Held w tr acl m' →
      etagFor (ledger m.blobKey) = etagFor (ledger m'.blobKey) →
      ledger m.blobKey = ledger m'.blobKey)
    (hformats : wac.cached = true → ∀ acl m m', Held w tr acl m → Held w tr acl m' →
      ledger m.blobKey = ledger m'.blobKey →
      storedFormat m.contentType = storedFormat m'.contentType)
    (i : ι) (x : (task i).Result) (hdone : P' i = .ret (.ok x)) {target : Iri}
    {required : AccessMode} {requester : Requester}
    (hquestion : (task i).question = some (target, required, requester))
    (hallow : (task i).Allows x) :
    ∃ nearer governed scope farther t₁ probe t₂ m,
      walk wac.baseUrl (protectedResource target) = nearer ++ (governed, scope) :: farther ∧
      tr = t₁ ++ probe :: t₂ ∧ probe.actor = some (i, .getMeta (aclFor governed)) ∧
      probe.before.backend.index.meta? (aclFor governed) = some m ∧
      Permits (recordTriples wac ledger (aclFor governed) m) governed requester scope required ∧
      ∀ c ∈ nearer, ∃ mv ∈ t₁, (∃ o, mv.actor = some (i, o)) ∧
        mv.before.backend.index.meta? (aclFor c.1) = none := by
  have hsees := run_sees hcold hrun (fun hc => pinned_of_formats (htags hc) (hformats hc)) hdone
  obtain ⟨resolved, hresolved, hsat⟩ := hsees.granting hquestion hallow
  rcases resolved with - | ⟨ts, governed, scope⟩
  · simp [ResolvedAcl.modesFor] at hsat
  · obtain ⟨nearer, farther, l₁, m, l₂, hchain, hlog, hts, habsent⟩ :=
      hresolved.located ts governed scope rfl
    obtain ⟨t₁, probe, t₂, htr, ht₁, hprobe, -⟩ := ownEvents_split hlog
    obtain ⟨hactor, hstored⟩ := stored_of_probe hprobe
    refine ⟨nearer, governed, scope, farther, t₁, probe, t₂, m, hchain, htr, hactor, hstored, ?_, ?_⟩
    · rw [← hts]
      exact satisfies_modesFor.mp hsat
    · intro c hc
      have hfound := habsent c hc
      rw [← ht₁] at hfound
      exact absent_of_found hfound

theorem allow_located_jsonLd :
    ∃ nearer governed scope farther t₁ probe t₂ m,
      walk mixedWac.baseUrl (protectedResource "http://h/a".toList) =
        nearer ++ (governed, scope) :: farther ∧
      jsonLdTrace = t₁ ++ probe :: t₂ ∧ probe.actor = some ((), .getMeta (aclFor governed)) ∧
      probe.before.backend.index.meta? (aclFor governed) = some m ∧
      Permits (recordTriples mixedWac (fun _ => mixedBytes) (aclFor governed) m) governed
        ⟨none, none⟩ scope .read ∧
      ∀ c ∈ nearer, ∃ mv ∈ t₁, (∃ o, mv.actor = some ((), o)) ∧
        mv.before.backend.index.meta? (aclFor c.1) = none := by
  obtain ⟨P', v, hrun, hdone, hformats⟩ := jsonLdTrace_run
  exact allow_located mixedWac (fun _ => mixedBytes) (fun _ : Unit => readTask) (cold_boot _) hrun
    (fun _ _ _ _ _ _ _ => rfl) (fun _ => hformats) () _ hdone rfl ⟨_, rfl⟩

/-- The root's ACL grants nothing; then `/a` gets an ACL of its own that grants nothing, and
only then does the root's ACL grant `Read`. -/
def closedRoot : List StoreOp := writeSteps (aclFor samplePod) "text/turtle" "k0" []

def closedThenOpen : List StoreOp :=
  writeSteps (aclFor "http://h/a".toList) "text/turtle" "k1" [] ++
    writeSteps (aclFor samplePod) "text/turtle" "k2" [0, 1, 2, 3, 4]

def raceLedger : Ledger := fun key => if key = "k2".toList then [0, 1, 2, 3, 4] else []

/-- The world in which the read plan of `/a` is taken. -/
def racePlanned : World := afterSteps closedRoot World.boot

/-- What is left of the authorization once it holds its plan. -/
def raceRest : Server Decision :=
  sampleWac.authorizePlanned .read ⟨none, none⟩
    (readPlanCandidates sampleWac.baseUrl "http://h/a".toList)
    (racePlanned.backend.index.readPlan (aclFor "http://h/a".toList)
      (planAcls sampleWac.baseUrl "http://h/a".toList)).acls

def raceTrace : List (Move Unit storeSig World) :=
  foreignMoves closedRoot World.boot ++
    (⟨some ((), .readPlan (aclFor "http://h/a".toList)
        (planAcls sampleWac.baseUrl "http://h/a".toList)), racePlanned, racePlanned⟩ ::
      (foreignMoves closedThenOpen racePlanned ++
        Interleaves.solo World.sem () raceRest (afterSteps closedThenOpen racePlanned)))

theorem raceTrace_run :
    ∃ P', Interleaves World.sem (Interference raceLedger)
      (fun _ : Unit => readTask.program sampleWac) World.boot raceTrace P'
      (exec raceRest (afterSteps closedThenOpen racePlanned)).2 ∧
      P' () = .ret (exec raceRest (afterSteps closedThenOpen racePlanned)).1 := by
  have hforeign : (∀ o ∈ closedRoot, Foreign raceLedger o) ∧
      ∀ o ∈ closedThenOpen, Foreign raceLedger o := by
    simp [closedRoot, closedThenOpen, writeSteps, Foreign, raceLedger]
  refine ⟨_, (interleaves_foreign hforeign.1 World.boot).append (.own () rfl
    ((interleaves_foreign hforeign.2 racePlanned).append
      (Interleaves.alone World.sem _ (fun _ => raceRest) _ ()))), ?_⟩
  rfl

/-- **No linearization point**: the authorization of `/a` returns `Allow`, and at no instant of
the run did the effective ACL grant the read. -/
theorem allow_without_grant :
    ∃ (tr : List (Move Unit storeSig World)) (P' : Unit → Server Decision) (v : World),
      Cold raceLedger World.boot ∧
      Interleaves World.sem (Interference raceLedger) (fun _ => readTask.program sampleWac)
        World.boot tr P' v ∧
      P' () = .ret (.ok (.allow {.read})) ∧
      (∀ mv ∈ tr, ¬ Granted sampleWac mv.before.backend "http://h/a".toList ⟨none, none⟩ .read) ∧
      ¬ Granted sampleWac v.backend "http://h/a".toList ⟨none, none⟩ .read := by
  obtain ⟨P', hrun, hdone⟩ := raceTrace_run
  have heval : (exec raceRest (afterSteps closedThenOpen racePlanned)).1 =
      .ok (Decision.allow {.read}) ∧
      (∀ mv ∈ raceTrace,
        ¬ Granted sampleWac mv.before.backend "http://h/a".toList ⟨none, none⟩ .read) ∧
      ¬ Granted sampleWac (exec raceRest (afterSteps closedThenOpen racePlanned)).2.backend
        "http://h/a".toList ⟨none, none⟩ .read := by decide
  refine ⟨raceTrace, P', _, cold_boot _, hrun, ?_, heval.2.1, heval.2.2⟩
  rw [hdone, heval.1]

end SolidServer.Authz
