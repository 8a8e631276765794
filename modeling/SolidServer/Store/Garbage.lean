import SolidServer.Store.Reconcile
import SolidServer.Store.Seed
import SolidServer.Store.Steps

/-!
# Garbage collection beside writers

Reads, writes, deletes and sweeps run side by side, step by step, while the clock moves on.
The argument has two parts.  What one job does, whatever it is answered, is said once
(`Permits`): a writer stores bytes under a key it has drawn and commits that key at most once;
a delete reaps the key of a record it has dropped; a sweep deletes keys that it saw old and,
later, unreferenced.  The rest is about the trace of a run.

* `no_live_blob_deleted`: if keys are not drawn twice and every commit follows its bytes
  within the grace period, no sweep deletes bytes that are referred to then or later, and every
  record's bytes are there at every moment.
-/

namespace SolidServer.Store

open SolidServer.Effects
open SolidServer.Effects.Program (Heeds)

/-! ## §1 What one job does -/

/-- A step that commits a record pointing at the key. -/
def CommitsKey (key : Text) : GcOp → Prop
  | .store (.putMeta _ m) => m.blobKey = key
  | .store (.createChild _ _ m) => m.blobKey = key
  | _ => False

/-- The bytes under the key have been stored. -/
def SawPut (log : List (Event gcSig)) (key : Text) : Prop :=
  ∃ body, (⟨.store (.blobPut key body), .ok ()⟩ : Event gcSig) ∈ log

/-- Nothing has been committed. -/
def NoCommit (log : List (Event gcSig)) : Prop := ∀ e ∈ log, ∀ key, ¬ CommitsKey key e.op

/-- A record pointing at the key was looked up and then dropped. -/
def Reaped (log : List (Event gcSig)) (key : Text) : Prop :=
  ∃ iri m l₁ l₂ l₃, m.blobKey = key ∧
    log = l₁ ++ ⟨.store (.getMeta iri), .ok m⟩ :: (l₂ ++ ⟨.store (.deleteMeta iri), .ok ()⟩ :: l₃)

/-- The key was listed with a date that was past the grace period when the clock was read, and
was not referenced after that. -/
def Condemned (opts : ReconcileOptions) (log : List (Event gcSig)) (key : Text) : Prop :=
  ∃ entries now keys l₁ l₂ l₃ l₄ ts,
    (∃ e ∈ entries, e.key = key ∧ e.lastModified = some ts) ∧ opts.grace ≤ ageAt now ts ∧
    key ∉ keys ∧
    log = l₁ ++ ⟨.list, .ok entries⟩ :: (l₂ ++ ⟨.store .now, now⟩ ::
      (l₃ ++ ⟨.referencedBlobKeys, .ok keys⟩ :: l₄))

/-- Why a job deletes bytes. -/
def Released (job : Job) (log : List (Event gcSig)) (key : Text) : Prop :=
  match job with
  | .sweep opts => Condemned opts log key
  | _ => Reaped log key

/-- **What a job may do** after the events of its log. -/
def Permits (job : Job) (log : List (Event gcSig)) : GcOp → Prop
  | .store (.putMeta _ m) => SawPut log m.blobKey ∧ NoCommit log
  | .store (.createChild _ _ m) => SawPut log m.blobKey ∧ NoCommit log
  | .store (.blobDelete key) => Released job log key
  | .deleteIfUnchanged key _ => ∃ opts, job = .sweep opts ∧ Condemned opts log key
  | .store (.bodyCacheInsert key _ body) =>
    (⟨.store (.blobGet key), .ok body⟩ : Event gcSig) ∈ log
  | _ => True

/-- A computation that does what the job may do, after the events it has seen. -/
abbrev Permitted {α : Type} (job : Job) (seen : List (Event gcSig)) (p : Reconciler α) : Prop :=
  Heeds (S := gcSig) (Permits job) seen p fun _ _ => True

section
variable {α β : Type} {job : Job} {G : List (Event gcSig) → GcOp → Prop}
  {seen : List (Event gcSig)}

theorem heeds_perform_bind {o : StoreOp} {f : o.Res → Server β}
    {Q : List (Event gcSig) → Except GcError β → Prop} (ho : G seen (.store o))
    (h : ∀ r, Heeds (S := gcSig) G (seen ++ [⟨.store o, r⟩]) (storeCall (f r)) Q) :
    Heeds (S := gcSig) G seen (storeCall (perform o >>= f)) Q := ⟨ho, h⟩

theorem heeds_bind {p : Server α} {f : α → Server β}
    {R : List (Event gcSig) → Except GcError α → Prop}
    {Q : List (Event gcSig) → Except GcError β → Prop}
    (hp : Heeds (S := gcSig) G seen (storeCall p) R)
    (hok : ∀ log a, R log (.ok a) → Heeds (S := gcSig) G log (storeCall (f a)) Q)
    (herr : ∀ log e, R log (.error e) → Q log (.error e)) :
    Heeds (S := gcSig) G seen (storeCall (p >>= f)) Q := by
  rw [storeCall, Program.embed_bind]
  exact Heeds.bind hp hok herr

/-- **Staging** draws a key, stores the bytes under it and commits nothing. -/
theorem permits_stage (iri : Iri) (body : Bytes) (contentType : Text) :
    Heeds (S := gcSig) (Permits job) [] (storeCall (stage iri body contentType)) fun log r =>
      ∀ m, r = .ok m → SawPut log m.blobKey ∧ NoCommit log := by
  unfold stage mintBlobKey
  refine heeds_perform_bind trivial fun r => ?_
  cases r with
  | error e =>
    intro m hm
    cases hm
  | ok s =>
    refine heeds_perform_bind trivial fun r => ?_
    cases r with
    | error e =>
      intro m hm
      cases hm
    | ok u =>
      refine heeds_perform_bind trivial fun now => ?_
      rintro m ⟨⟩
      refine ⟨⟨body, by simp⟩, ?_⟩
      intro e he key
      simp only [List.nil_append, List.cons_append, List.mem_cons, List.not_mem_nil, or_false] at he
      rcases he with rfl | rfl | rfl <;> exact id

theorem permits_write (iri : Iri) (body : Bytes) (contentType : Text) :
    Permitted job [] (storeCall (write iri body contentType)) := by
  refine heeds_bind (permits_stage iri body contentType) (fun log m h => ?_) fun _ _ _ => trivial
  refine heeds_perform_bind (h m rfl) fun r => ?_
  cases r <;> trivial

theorem permits_createInContainer (container child : Iri) (body : Bytes) (contentType : Text) :
    Permitted job [] (storeCall (createInContainer container child body contentType)) := by
  refine heeds_bind (permits_stage child body contentType) (fun log m h => ?_) fun _ _ _ => trivial
  refine heeds_perform_bind (h m rfl) fun r => ?_
  rcases r with (_ | _) | _ <;> trivial

theorem permits_fetchBody (m : ResourceMeta) : Permitted job seen (storeCall (fetchBody m)) := by
  refine heeds_perform_bind trivial fun r => ?_
  cases r with
  | some body => trivial
  | none =>
    refine heeds_perform_bind trivial fun r => ?_
    cases r with
    | error e => trivial
    | ok body => exact heeds_perform_bind (by simp [Permits]) fun _ => trivial

theorem permits_read (iri : Iri) : Permitted job [] (storeCall (read iri)) := by
  refine heeds_perform_bind trivial fun r => ?_
  rcases r with (_ | _) | m
  · trivial
  · trivial
  · show Heeds _ _ (storeCall (fetchBody m >>= _)) _
    exact heeds_bind (permits_fetchBody m) (fun _ _ _ => trivial) fun _ _ _ => trivial

theorem permits_readPlanned (target : Iri) (candidates : List Iri) :
    Permitted job [] (storeCall (readPlanned target candidates)) := by
  unfold readPlanned readPlan
  refine heeds_perform_bind trivial fun r => ?_
  rcases r with (_ | _) | ⟨found, rows⟩
  · trivial
  · trivial
  · cases found with
    | none => trivial
    | some m =>
      show Heeds _ _ (storeCall (fetchBody m >>= _)) _
      exact heeds_bind (permits_fetchBody m) (fun _ _ _ => trivial) fun _ _ _ => trivial

/-- **Deleting** reaps the key of the record it dropped. -/
theorem permits_delete (iri : Iri) (parent : Option Iri) :
    Permitted (.delete iri parent) [] (storeCall (delete iri parent)) := by
  refine heeds_perform_bind trivial fun r => ?_
  -- the edge and the record go whether or not there is a key to reap
  have hrest : ∀ (key : Option Text) (log : List (Event gcSig)),
      (∀ k, key = some k → ∃ m : ResourceMeta, m.blobKey = k ∧
        log = [⟨.store (.getMeta iri), .ok m⟩]) →
      Permitted (.delete iri parent) log (storeCall (do
        unlink iri parent
        orStorage (← perform (.deleteMeta iri))
        reap key)) := by
    intro key log hkey
    have hunlink : Heeds (S := gcSig) (Permits (.delete iri parent)) log
        (storeCall (unlink iri parent)) fun log' _ => ∃ more, log' = log ++ more := by
      cases parent with
      | none => exact ⟨[], by simp⟩
      | some p =>
        refine heeds_perform_bind trivial fun r => ?_
        cases r <;> exact ⟨_, rfl⟩
    refine heeds_bind hunlink (fun log' _ hmore => ?_) fun _ _ _ => trivial
    obtain ⟨more, rfl⟩ := hmore
    refine heeds_perform_bind trivial fun r => ?_
    cases r with
    | error e => trivial
    | ok u =>
      cases key with
      | none => trivial
      | some k =>
        obtain ⟨m, hm, rfl⟩ := hkey k rfl
        refine heeds_perform_bind ⟨iri, m, [], more, [], hm, by simp⟩ fun r => ?_
        cases r <;> trivial
  rcases r with (_ | _) | m
  · exact hrest none _ (by simp)
  · trivial
  · exact hrest (some m.blobKey) _ fun k hk => ⟨m, Option.some.inj hk, rfl⟩

theorem permits_deleteContainer (iri : Iri) (parent : Option Iri) :
    Permitted job [] (storeCall (deleteContainerIfEmpty iri parent)) := by
  refine heeds_perform_bind trivial fun r => ?_
  cases r <;> trivial

/-- A candidate of the sweep: listed with its date, and old enough. -/
def Aged (opts : ReconcileOptions) (now : SystemTime) (stored : List BlobEntry) (c : Candidate) :
    Prop :=
  (∃ e ∈ stored, e.key = c.key ∧ e.lastModified = some c.snapshotTs) ∧
    opts.grace ≤ ageAt now c.snapshotTs

theorem aged_classifyEntry {opts : ReconcileOptions} {referenced : List Text} {now : SystemTime}
    {stored : List BlobEntry} {acc : ReconcileReport × List Candidate} {entry : BlobEntry}
    (hentry : entry ∈ stored) (h : ∀ c ∈ acc.2, Aged opts now stored c) :
    ∀ c ∈ (classifyEntry opts referenced now acc entry).2, Aged opts now stored c := by
  obtain ⟨report, candidates⟩ := acc
  unfold classifyEntry
  split_ifs with hreferenced
  · exact h
  cases hdate : entry.lastModified with
  | none => exact h
  | some ts =>
    simp only
    split_ifs with hold
    · intro c hc
      rcases List.mem_append.mp hc with hc | hc
      · exact h c hc
      · obtain rfl := List.mem_singleton.mp hc
        exact ⟨⟨entry, hentry, rfl, hdate⟩, hold⟩
    · exact h

/-- **The first pass** keeps old entries of the snapshot. -/
theorem aged_classifyAll (opts : ReconcileOptions) (referenced : List Text) (now : SystemTime)
    (stored : List BlobEntry) :
    ∀ c ∈ (classifyAll opts referenced now stored).2, Aged opts now stored c := by
  have hfold : ∀ (entries : List BlobEntry) (acc : ReconcileReport × List Candidate),
      (∀ e ∈ entries, e ∈ stored) → (∀ c ∈ acc.2, Aged opts now stored c) →
      ∀ c ∈ (entries.foldl (classifyEntry opts referenced now) acc).2, Aged opts now stored c := by
    intro entries
    induction entries with
    | nil => exact fun acc _ h => h
    | cons entry rest ih =>
      intro acc hsub h
      obtain ⟨hentry, hrest⟩ := List.forall_mem_cons.mp hsub
      exact ih _ hrest (aged_classifyEntry hentry h)
  exact hfold stored _ (fun _ he => he) (by simp)

/-- The log of a sweep in its second pass. -/
def Surveyed (now : SystemTime) (stored : List BlobEntry) (keys : List Text)
    (log : List (Event gcSig)) : Prop :=
  ∃ l₁ l₂ l₃ l₄, log = l₁ ++ ⟨.list, .ok stored⟩ :: (l₂ ++ ⟨.store .now, now⟩ ::
    (l₃ ++ ⟨.referencedBlobKeys, .ok keys⟩ :: l₄))

theorem Surveyed.concat {now : SystemTime} {stored : List BlobEntry} {keys : List Text}
    {log : List (Event gcSig)} (h : Surveyed now stored keys log) (e : Event gcSig) :
    Surveyed now stored keys (log ++ [e]) := by
  obtain ⟨l₁, l₂, l₃, l₄, rfl⟩ := h
  exact ⟨l₁, l₂, l₃, l₄ ++ [e], by simp⟩

variable {opts : ReconcileOptions} {now : SystemTime} {stored : List BlobEntry} {keys : List Text}

theorem condemned_of_surveyed (h : Surveyed now stored keys seen) {c : Candidate}
    (hc : Aged opts now stored c) (hkeys : c.key ∉ keys) : Condemned opts seen c.key := by
  obtain ⟨l₁, l₂, l₃, l₄, hlog⟩ := h
  exact ⟨stored, now, keys, l₁, l₂, l₃, l₄, c.snapshotTs, hc.1, hc.2, hkeys, hlog⟩

theorem permits_carryOut {key : Text} (h : Surveyed now stored keys seen)
    (hcondemned : Condemned opts seen key) (plan : DeletePlan) (report : ReconcileReport) :
    Heeds (S := gcSig) (Permits (.sweep opts)) seen (carryOut key plan report)
      fun log _ => Surveyed now stored keys log := by
  cases plan with
  | skipRevalidated => exact h
  | deleteCas snapshotGen =>
    refine Heeds.call_bind ⟨opts, rfl, hcondemned⟩ fun r => ?_
    rcases r with _ | (_ | _) <;> exact h.concat _
  | deleteUnconditional =>
    refine Heeds.call_bind hcondemned fun r => ?_
    rcases r with _ | _ <;> exact h.concat _

theorem permits_revalidate {c : Candidate} (h : Surveyed now stored keys seen)
    (hc : Aged opts now stored c) (report : ReconcileReport) :
    Heeds (S := gcSig) (Permits (.sweep opts)) seen (revalidate opts now keys c report)
      fun log _ => Surveyed now stored keys log := by
  unfold revalidate
  split_ifs with hkeys
  · exact h
  refine Heeds.call_bind trivial fun r => ?_
  have hnext := h.concat ⟨.stat c.key, r⟩
  have hcondemned' := condemned_of_surveyed hnext hc hkeys
  rcases r with e | (_ | ⟨key, lastModified, generation⟩)
  · exact hnext
  · exact hnext
  · cases lastModified with
    | none => exact hnext
    | some ts =>
      simp only
      split_ifs
      · exact hnext
      · unfold settle
        cases deletePlan c.witness generation with
        | skipRevalidated => exact hnext
        | deleteCas snapshotGen =>
          split_ifs
          · exact hnext
          · exact permits_carryOut hnext hcondemned' _ _
        | deleteUnconditional =>
          split_ifs
          · exact hnext
          · exact permits_carryOut hnext hcondemned' _ _

/-- **The second pass** deletes condemned keys only. -/
theorem permits_revalidateAll (cs : List Candidate) (hcs : ∀ c ∈ cs, Aged opts now stored c)
    {seen : List (Event gcSig)} (h : Surveyed now stored keys seen) (report : ReconcileReport) :
    Permitted (.sweep opts) seen (revalidateAll opts now keys cs report) := by
  induction cs generalizing seen report with
  | nil => trivial
  | cons c rest ih =>
    obtain ⟨hc, hrest⟩ := List.forall_mem_cons.mp hcs
    refine Heeds.bind (permits_revalidate h hc report) (fun log report' hlog => ?_)
      fun _ _ _ => trivial
    exact ih hrest hlog report'

theorem heeds_fetchReferenced_bind {f : List Text → Reconciler β}
    (h : ∀ keys, Permitted job (seen ++ [⟨.referencedBlobKeys, .ok keys⟩]) (f keys)) :
    Permitted job seen (fetchReferenced >>= f) := by
  unfold fetchReferenced
  refine Heeds.call_bind trivial fun r => ?_
  cases r with
  | error e => trivial
  | ok keys => exact h keys

theorem permits_reconcileOrphans (opts : ReconcileOptions) :
    Permitted (.sweep opts) [] (reconcileOrphans opts) := by
  refine heeds_fetchReferenced_bind fun referenced => ?_
  refine Heeds.call_bind trivial fun r => ?_
  cases r with
  | error e => trivial
  | ok stored =>
    refine Heeds.call_bind trivial fun now => ?_
    have haged := aged_classifyAll opts referenced now stored
    cases hclassified : classifyAll opts referenced now stored with
    | mk report candidates =>
      rw [hclassified] at haged
      simp only
      split_ifs
      · trivial
      · refine heeds_fetchReferenced_bind fun keys => ?_
        exact permits_revalidateAll candidates haged ⟨[⟨.referencedBlobKeys, .ok referenced⟩], [], [],
          [], by simp⟩ report

end

/-- **Every job keeps to what is permitted.** -/
theorem permits_program (job : Job) : Permitted job [] job.program := by
  cases job with
  | read iri => exact permits_read iri
  | planned target candidates => exact permits_readPlanned target candidates
  | write iri body contentType => exact permits_write iri body contentType
  | create container child body contentType =>
    exact permits_createInContainer container child body contentType
  | delete iri parent => exact permits_delete iri parent
  | deleteContainer iri parent => exact permits_deleteContainer iri parent
  | sweep opts => exact permits_reconcileOrphans opts

/-! ## §2 What one step does -/

/-- A record was committed. -/
def CommitEvent (iri : Iri) (r : ResourceMeta) (e : Event gcSig) : Prop :=
  e = ⟨.store (.putMeta iri r), .ok ()⟩ ∨ ∃ container, e = ⟨.store (.createChild container iri r), .ok ()⟩

/-- A step that deletes the bytes under the key, if they are there. -/
def DeletesKey (key : Text) : GcOp → Prop
  | .store (.blobDelete k) => k = key
  | .deleteIfUnchanged k _ => k = key
  | _ => False

/-- A step of the store, as a step beside sweeps. -/
def storeEvent (e : Event storeSig) : Event gcSig := ⟨.store e.op, e.answer⟩

namespace TimedWorld

/-- The record of a resource. -/
def meta? (w : TimedWorld) (iri : Iri) : Option ResourceMeta := w.store.backend.index.meta? iri

/-- The event of a step. -/
def event (w : TimedWorld) (o : GcOp) : Event gcSig := ⟨o, (sem w o).1⟩

/-- **What one step does**: a step of the store, storing bytes with the time as their stamp,
dropping bytes, or nothing. -/
inductive Stepped (w : TimedWorld) (e : Event gcSig) (w' : TimedWorld) : Prop
  | store (p : StoreOp) (hp : ∀ key body, p ≠ .blobPut key body)
      (he : e = storeEvent ⟨p, (World.sem w.store p).1⟩)
      (hw : w' = { w with store := (World.sem w.store p).2 })
  | put (key : Text) (body : Bytes) (he : e = ⟨.store (.blobPut key body), .ok ()⟩)
      (hw : w' = { w with
        store := w.store.withBlobs (w.store.backend.blobs.insert key body)
        stamps := Function.update w.stamps key ⟨w.time, w.nextGeneration⟩
        nextGeneration := (w.nextGeneration + 1) % 2 ^ 64 })
  | drop (key : Text) (he : DeletesKey key e.op)
      (hw : w' = { w with store := w.store.withBlobs (w.store.backend.blobs.erase key) })
  | same (hw : w' = w)

theorem stepped (w : TimedWorld) (o : GcOp) : Stepped w (w.event o) (sem w o).2 := by
  cases o with
  | store p =>
    cases p with
    | now => exact .same rfl
    | blobPut key body =>
      simp only [event, sem]
      cases w.store.faults.blobPut key with
      | some e => exact .same rfl
      | none => exact .put key body rfl rfl
    | _ => exact .store _ (by simp) rfl rfl
  | referencedBlobKeys | list | stat _ =>
    refine .same ?_
    simp only [sem]
    split <;> rfl
  | deleteIfUnchanged key g =>
    simp only [sem]
    split
    · exact .same rfl
    · split_ifs
      · exact .drop key rfl rfl
      · exact .same rfl

/-- **What one step does to a record**: a record that is there afterwards was there, or was
committed. -/
theorem meta?_step {w : TimedWorld} {o : GcOp} {iri : Iri} {r : ResourceMeta}
    (h : (sem w o).2.meta? iri = some r) : w.meta? iri = some r ∨ CommitEvent iri r (w.event o) := by
  cases stepped w o with
  | store p hp he hw =>
    rw [hw] at h
    rcases Store.meta?_step w.store p iri with hsame | ⟨m, hstores, hm⟩ | ⟨-, hnone⟩
    · exact .inl (hsame.symm.trans h)
    · obtain rfl := Option.some.inj (hm.symm.trans h)
      rcases hstores with hput | ⟨container, hcreate⟩
      · exact .inr (.inl (he.trans (congrArg storeEvent hput)))
      · exact .inr (.inr ⟨container, he.trans (congrArg storeEvent hcreate)⟩)
    · cases hnone.symm.trans h
  | put _ _ _ hw | drop _ _ hw | same hw =>
    rw [hw] at h
    exact .inl h

/-- **What one step does to the bytes under a key**: nothing, or it stores them, or it deletes
them. -/
theorem blob?_step (w : TimedWorld) (o : GcOp) (key : Text) :
    (sem w o).2.blob? key = w.blob? key ∨
    (∃ body, w.event o = ⟨.store (.blobPut key body), .ok ()⟩ ∧
      (sem w o).2.blob? key = some body) ∨
    (DeletesKey key o ∧ (sem w o).2.blob? key = none) := by
  cases stepped w o with
  | store p hp he hw =>
    rw [hw]
    rcases blobs_step w.store p key with hsame | ⟨body, hput, -⟩ | ⟨rfl, hgone⟩
    · exact .inl hsame
    · exact absurd hput (hp key body)
    · obtain rfl : o = _ := (Event.mk.inj he).1
      exact .inr (.inr ⟨rfl, hgone⟩)
  | put k body he hw =>
    rw [hw]
    by_cases hk : key = k
    · subst hk
      exact .inr (.inl ⟨body, he, AList.lookup_insert _⟩)
    · exact .inl (AList.lookup_insert_ne hk)
  | drop k he hw =>
    rw [hw]
    by_cases hk : key = k
    · subst hk
      exact .inr (.inr ⟨he, AList.lookup_erase _ _⟩)
    · exact .inl (AList.lookup_erase_ne hk)
  | same hw => exact .inl (by rw [hw])

/-- What one step does to a stamp: nothing, or it stores bytes and stamps them with the time. -/
theorem stamps_step (w : TimedWorld) (o : GcOp) (key : Text) :
    (sem w o).2.stamps key = w.stamps key ∨
    (∃ body, w.event o = ⟨.store (.blobPut key body), .ok ()⟩) := by
  cases stepped w o with
  | put k body he hw =>
    rw [hw]
    by_cases hk : key = k
    · exact .inr ⟨body, hk ▸ he⟩
    · exact .inl (Function.update_of_ne hk _ _)
  | store _ _ _ hw | drop _ _ hw | same hw => exact .inl (by rw [hw])

/-- Storing bytes stamps them with the time. -/
theorem stamped_of_put {w : TimedWorld} {o : GcOp} {key : Text} {body : Bytes}
    (h : w.event o = ⟨.store (.blobPut key body), .ok ()⟩) :
    ((sem w o).2.stamps key).lastModified = w.time ∧ (sem w o).2.blob? key = some body := by
  obtain ⟨rfl, hanswer⟩ := Event.mk.inj h
  simp only [sem] at hanswer ⊢
  cases hf : w.store.faults.blobPut key with
  | some e =>
    rw [hf] at hanswer
    cases hanswer
  | none =>
    simp only [Function.update_self]
    exact ⟨trivial, AList.lookup_insert _⟩

theorem time_step (w : TimedWorld) (o : GcOp) : (sem w o).2.time = w.time := by
  cases stepped w o with
  | store _ _ _ hw | put _ _ _ hw | drop _ _ hw | same hw => rw [hw]

end TimedWorld

/-! ## §3 Traces -/

section
variable {ι : Type} [DecidableEq ι]

/-- A move of a job that stores bytes under the key. -/
def Puts (i : ι) (key : Text) (m : Move ι gcSig TimedWorld) : Prop :=
  ∃ body, m.eventOf TimedWorld.sem i = some ⟨.store (.blobPut key body), .ok ()⟩

/-- A move of a job that commits a record. -/
def Commits (i : ι) (iri : Iri) (r : ResourceMeta) (m : Move ι gcSig TimedWorld) : Prop :=
  ∃ e, m.eventOf TimedWorld.sem i = some e ∧ CommitEvent iri r e

/-- Some record points at the key. -/
def Refers (w : TimedWorld) (key : Text) : Prop := ∃ iri r, w.meta? iri = some r ∧ r.blobKey = key

/-- **Keys are unique per write**: a write stores under a key that was neither stored nor
referred to before, and no two writes store under one key. -/
structure UniqueKeys (w : TimedWorld) (tr : List (Move ι gcSig TimedWorld)) : Prop where
  unused : ∀ m ∈ tr, ∀ i key, Puts i key m → w.blob? key = none ∧ ¬ Refers w key
  once : ∀ t₁ a t₂ b t₃ i j key, tr = t₁ ++ a :: (t₂ ++ b :: t₃) → Puts i key a → ¬ Puts j key b

/-- **Writes are timely**: from storing the bytes to committing their record it takes less than
the grace period of any sweep. -/
def Timely (jobs : ι → Job) (tr : List (Move ι gcSig TimedWorld)) : Prop :=
  ∀ t₁ a t₂ b t₃ i iri r, tr = t₁ ++ a :: (t₂ ++ b :: t₃) → Puts i r.blobKey a → Commits i iri r b →
    ∀ j opts, jobs j = .sweep opts → b.before.time < a.before.time + opts.grace

variable {t₁ t₂ : List (Move ι gcSig TimedWorld)}

theorem UniqueKeys.take {w : TimedWorld} (h : UniqueKeys w (t₁ ++ t₂)) : UniqueKeys w t₁ where
  unused m hm := h.unused m (List.mem_append_left _ hm)
  once s₁ a s₂ b s₃ i j key ht := by
    refine h.once s₁ a s₂ b (s₃ ++ t₂) i j key ?_
    rw [ht]
    simp

theorem Timely.take {jobs : ι → Job} (h : Timely jobs (t₁ ++ t₂)) : Timely jobs t₁ := by
  intro s₁ a s₂ b s₃ i iri r ht
  refine h s₁ a s₂ b (s₃ ++ t₂) i iri r ?_
  rw [ht]
  simp

variable {γ : ι → Type} {P P' : (i : ι) → Reconciler (γ i)} {w v : TimedWorld}
  {tr : List (Move ι gcSig TimedWorld)}

/-- A move is a job's step with its event, or time passes. -/
theorem moved (hrun : Interleaves TimedWorld.sem TimedWorld.Passes P w tr P' v)
    {m : Move ι gcSig TimedWorld} (hm : m ∈ tr) :
    (∃ i o, m.actor = some (i, o) ∧ m.after = (TimedWorld.sem m.before o).2 ∧
      m.eventOf TimedWorld.sem i = some (m.before.event o)) ∨
    TimedWorld.Passes m.before m.after := by
  rcases hrun.move_cases hm with ⟨i, o, hactor, hafter⟩ | ⟨-, hpass⟩
  · exact .inl ⟨i, o, hactor, hafter, by simp [Move.eventOf, hactor, TimedWorld.event]⟩
  · exact .inr hpass

theorem TimedWorld.Passes.meta? {w w' : TimedWorld} (h : Passes w w') (iri : Iri) :
    w'.meta? iri = w.meta? iri := by
  rw [TimedWorld.meta?, h.store]
  rfl

theorem TimedWorld.Passes.blob? {w w' : TimedWorld} (h : Passes w w') (key : Text) :
    w'.blob? key = w.blob? key := by
  rw [TimedWorld.blob?, h.store]
  rfl

section
variable (hrun : Interleaves TimedWorld.sem TimedWorld.Passes P w tr P' v)
include hrun

variable {iri : Iri} {r : ResourceMeta} {key : Text}

/-- A record that is there after a move was there before it, or the move commits it. -/
theorem meta?_moved {m : Move ι gcSig TimedWorld} (hm : m ∈ tr) (h : m.after.meta? iri = some r) :
    m.before.meta? iri = some r ∨ ∃ i, Commits i iri r m := by
  rcases moved hrun hm with ⟨i, o, -, hafter, hevent⟩ | hpass
  · rw [hafter] at h
    rcases TimedWorld.meta?_step h with hbefore | hcommit
    · exact .inl hbefore
    · exact .inr ⟨i, _, hevent, hcommit⟩
  · rw [hpass.meta?] at h
    exact .inl h

/-- **Nobody comes back to a key** that is not referred to and is not committed any more. -/
theorem never_referred (hw : ¬ Refers w key)
    (hno : ∀ m ∈ tr, ∀ i iri r, Commits i iri r m → r.blobKey ≠ key) :
    ¬ Refers v key ∧ ∀ m ∈ tr, ¬ Refers m.before key ∧ ¬ Refers m.after key := by
  have hstep : ∀ m ∈ tr, ¬ Refers m.before key → ¬ Refers m.after key := by
    rintro m hm hbefore ⟨iri, r, hr, hkey⟩
    rcases meta?_moved hrun hm hr with hold | ⟨i, hcommit⟩
    · exact hbefore ⟨iri, r, hold, hkey⟩
    · exact hno m hm i iri r hcommit hkey
  have hbefore := hrun.holds_before (fun u => ¬ Refers u key) hstep hw
  exact ⟨hrun.keeps (fun u => ¬ Refers u key) hstep hw,
    fun m hm => ⟨hbefore m hm, hstep m hm (hbefore m hm)⟩⟩

/-- A record that is there at the end was there at the start, or was committed on the way. -/
theorem origin (h : v.meta? iri = some r) :
    w.meta? iri = some r ∨ ∃ m ∈ tr, ∃ i, Commits i iri r m := by
  rcases hrun.brought (fun u => u.meta? iri = some r) h with hold | ⟨m, hm, hbefore, hafter⟩
  · exact .inl hold
  · exact .inr ⟨m, hm, (meta?_moved hrun hm hafter).resolve_left hbefore⟩

/-- A record whose key is not committed on the way was there at the start. -/
theorem record_stood (hno : ∀ m ∈ tr, ∀ i iri r, Commits i iri r m → r.blobKey ≠ key)
    (h : v.meta? iri = some r) (hkey : r.blobKey = key) : w.meta? iri = some r := by
  rcases origin hrun h with hold | ⟨m, hm, i, hcommit⟩
  · exact hold
  · exact absurd hkey (hno m hm i iri r hcommit)

/-- Bytes that are there at the end were there at the start, or were stored on the way. -/
theorem blob_origin {body : Bytes} (h : v.blob? key = some body) :
    w.blob? key = some body ∨
      ∃ m ∈ tr, ∃ i, m.eventOf TimedWorld.sem i = some ⟨.store (.blobPut key body), .ok ()⟩ := by
  rcases hrun.brought (fun u => u.blob? key = some body) h with hold | ⟨m, hm, hbefore, hafter⟩
  · exact .inl hold
  rcases moved hrun hm with ⟨i, o, -, hstep, hevent⟩ | hpass
  · rw [hstep] at hafter
    rcases TimedWorld.blob?_step m.before o key with hsame | ⟨body', hput, hnew⟩ | ⟨-, hgone⟩
    · exact absurd (hsame.symm.trans hafter) hbefore
    · obtain rfl := Option.some.inj (hnew.symm.trans hafter)
      exact .inr ⟨m, hm, i, by rw [hevent, hput]⟩
    · cases hgone.symm.trans hafter
  · exact absurd ((hpass.blob? key).symm.trans hafter) hbefore

/-- A stamp stays as long as nothing is stored under its key. -/
theorem stamps_kept (hno : ∀ m ∈ tr, ∀ i, ¬ Puts i key m) : v.stamps key = w.stamps key := by
  refine hrun.unchanged (fun u => u.stamps key) fun m hm => ?_
  rcases moved hrun hm with ⟨i, o, -, hstep, hevent⟩ | hpass
  · rw [hstep]
    rcases TimedWorld.stamps_step m.before o key with hsame | ⟨body, hput⟩
    · exact hsame
    · exact absurd ⟨body, by rw [hevent, hput]⟩ (hno m hm i)
  · rw [hpass.stamps]

/-- Bytes stay as long as nothing is stored under their key or deleted there. -/
theorem blob_kept {body : Bytes} (hw : w.blob? key = some body)
    (hput : ∀ m ∈ tr, ∀ i, ¬ Puts i key m)
    (hdelete : ∀ m ∈ tr, ∀ i o, m.actor = some (i, o) → ¬ DeletesKey key o) :
    v.blob? key = some body := by
  refine hrun.keeps (fun u => u.blob? key = some body) (fun m hm hbefore => ?_) hw
  rcases moved hrun hm with ⟨i, o, hactor, hstep, hevent⟩ | hpass
  · rw [hstep]
    rcases TimedWorld.blob?_step m.before o key with hsame | ⟨body', hevent', -⟩ | ⟨hdel, -⟩
    · rw [hsame, hbefore]
    · exact absurd ⟨body', by rw [hevent, hevent']⟩ (hput m hm i)
    · exact absurd hdel (hdelete m hm i o hactor)
  · rw [hpass.blob?, hbefore]

/-- The clock does not go back along a run. -/
theorem time_le : w.time ≤ v.time := by
  refine hrun.keeps (fun u => w.time ≤ u.time) (fun m hm hbefore => ?_) le_rfl
  rcases moved hrun hm with ⟨i, o, -, hstep, -⟩ | hpass
  · rw [hstep, TimedWorld.time_step]
    exact hbefore
  · exact hbefore.trans hpass.time

end

/-- Of two moves of a run the later one is not at an earlier time. -/
theorem time_le_between {t₃ : List (Move ι gcSig TimedWorld)} {a b : Move ι gcSig TimedWorld}
    (hrun : Interleaves TimedWorld.sem TimedWorld.Passes P w tr P' v)
    (htr : tr = t₁ ++ a :: (t₂ ++ b :: t₃)) : a.before.time ≤ b.before.time := by
  subst htr
  obtain ⟨Q, Q', -, hmove, hrest⟩ := hrun.split_at
  obtain ⟨R, R', hbetween, -, -⟩ := hrest.split_at
  exact (time_le hmove).trans (time_le hbetween)

end

/-! ## §4 Keys -/

section
variable {ι : Type} [DecidableEq ι] {jobs : ι → Job} {P' : (i : ι) → Reconciler (jobs i).Result}
  {w v : TimedWorld} {tr t₁ t₂ : List (Move ι gcSig TimedWorld)}

variable {i : ι} {b : Move ι gcSig TimedWorld} {iri : Iri} {r : ResourceMeta}

/-- The jobs run side by side while the clock moves on. -/
abbrev Running (jobs : ι → Job) (w : TimedWorld) (tr : List (Move ι gcSig TimedWorld))
    (P' : (i : ι) → Reconciler (jobs i).Result) (v : TimedWorld) : Prop :=
  Interleaves TimedWorld.sem TimedWorld.Passes (fun i => (jobs i).program) w tr P' v

theorem permits_at {m : Move ι gcSig TimedWorld}
    (hrun : Running jobs w (t₁ ++ m :: t₂) P' v)
    {o : GcOp} (hactor : m.actor = some (i, o)) :
    Permits (jobs i) (ownEvents TimedWorld.sem i t₁) o :=
  hrun.heeds_at hactor (permits_program (jobs i))

/-- A record is committed by the job that stored its bytes, which has committed nothing before. -/
theorem put_before_commit
    (hrun : Running jobs w tr P' v)
    (htr : tr = t₁ ++ b :: t₂) (h : Commits i iri r b) :
    (∃ a ∈ t₁, Puts i r.blobKey a) ∧ NoCommit (ownEvents TimedWorld.sem i t₁) := by
  subst htr
  obtain ⟨e, hevent, hcommit⟩ := h
  obtain ⟨hactor, -⟩ := Move.eventOf_eq_some hevent
  have hpermits := permits_at hrun hactor
  have hsaw : SawPut (ownEvents TimedWorld.sem i t₁) r.blobKey ∧
      NoCommit (ownEvents TimedWorld.sem i t₁) := by
    rcases hcommit with rfl | ⟨container, rfl⟩
    · exact hpermits
    · exact hpermits
  obtain ⟨⟨body, hmem⟩, hnone⟩ := hsaw
  obtain ⟨a, ha, hput⟩ := List.mem_filterMap.mp hmem
  exact ⟨⟨a, ha, body, hput⟩, hnone⟩

/-- Bytes under one key are stored by one job. -/
theorem UniqueKeys.same_job (h : UniqueKeys w tr) {a a' : Move ι gcSig TimedWorld} (ha : a ∈ tr)
    (ha' : a' ∈ tr) {j : ι} {key : Text} (hput : Puts i key a) (hput' : Puts j key a') : i = j := by
  rcases first_of_two ha ha' with rfl | ⟨u₁, u₂, u₃, htr⟩ | ⟨u₁, u₂, u₃, htr⟩
  · obtain ⟨body, hevent⟩ := hput
    obtain ⟨body', hevent'⟩ := hput'
    exact (Move.eventOf_unique hevent hevent').1
  · exact absurd hput' (h.once _ _ _ _ _ i j key htr hput)
  · exact absurd hput (h.once _ _ _ _ _ j i key htr hput')

/-- **A key is committed once**: it was not referred to at the start, and nothing before
committed it. -/
theorem commit_first
    (hrun : Running jobs w (t₁ ++ b :: t₂) P' v)
    (hunique : UniqueKeys w (t₁ ++ b :: t₂)) (h : Commits i iri r b) :
    ¬ Refers w r.blobKey ∧
      ∀ b' ∈ t₁, ∀ j iri' r', Commits j iri' r' b' → r'.blobKey ≠ r.blobKey := by
  obtain ⟨⟨a, ha, hput⟩, hnone⟩ := put_before_commit hrun rfl h
  refine ⟨(hunique.unused a (by simp [ha]) i r.blobKey hput).2, fun b' hb' j iri' r' h' hkey => ?_⟩
  obtain ⟨u₁, u₂, rfl⟩ := List.append_of_mem hb'
  obtain ⟨⟨a', ha', hput'⟩, -⟩ := put_before_commit hrun (List.append_assoc _ _ _) h'
  -- both commits are by the job that stored the bytes, and a job commits once
  obtain rfl : i = j := by
    have hmem : a' ∈ u₁ ++ b' :: u₂ ++ b :: t₂ := by simp [ha']
    exact hunique.same_job (List.mem_append_left _ ha) hmem hput (hkey ▸ hput')
  obtain ⟨e, hevent, hcommit⟩ := h'
  have hmem : e ∈ ownEvents TimedWorld.sem i (u₁ ++ b' :: u₂) :=
    List.mem_filterMap.mpr ⟨b', hb', hevent⟩
  apply hnone e hmem r'.blobKey
  rcases hcommit with rfl | ⟨container, rfl⟩
  · rfl
  · rfl

/-- **A key that is referred to is not committed again.** -/
theorem no_commit_after {u : TimedWorld} {Q : (i : ι) → Reconciler (jobs i).Result}
    (hrun : Running jobs w (t₁ ++ t₂) P' v)
    (hpast : Running jobs w t₁ Q u)
    (hunique : UniqueKeys w (t₁ ++ t₂)) {key : Text} (hkey : Refers u key) :
    ∀ b ∈ t₂, ∀ j iri r, Commits j iri r b → r.blobKey ≠ key := by
  rintro b hb j iri r hcommit rfl
  obtain ⟨y₁, y₂, rfl⟩ := List.append_of_mem hb
  rw [← List.append_assoc] at hrun hunique
  obtain ⟨hstart, hearlier⟩ := commit_first hrun hunique hcommit
  obtain ⟨iri', r', hr', hkey⟩ := hkey
  rcases origin hpast hr' with hold | ⟨m, hm, i, hm'⟩
  · exact hstart ⟨iri', r', hold, hkey⟩
  · exact hearlier m (List.mem_append_left _ hm) i iri' r' hm' hkey

/-- What a run starts from: every record has its bytes, and no two records share a key. -/
structure Settled (w : TimedWorld) : Prop where
  stored : ∀ iri r, w.meta? iri = some r → (w.blob? r.blobKey).isSome
  keys : ∀ iri iri' r r', w.meta? iri = some r → w.meta? iri' = some r' →
    r.blobKey = r'.blobKey → iri = iri'

theorem Commits.iri_eq {j : ι} {iri' : Iri} {r' : ResourceMeta} (h : Commits i iri r b)
    (h' : Commits j iri' r' b) : iri = iri' := by
  obtain ⟨e, hevent, hcommit⟩ := h
  obtain ⟨e', hevent', hcommit'⟩ := h'
  obtain rfl := (Move.eventOf_unique hevent hevent').2
  rcases hcommit with rfl | ⟨c, rfl⟩ <;> rcases hcommit' with he | ⟨c', he⟩ <;> cases he <;> rfl

/-- **No two records share a key**, at any point of a run. -/
theorem distinct_keys (hstart : Settled w)
    (hrun : Running jobs w tr P' v)
    (hunique : UniqueKeys w tr) {iri' : Iri} {r' : ResourceMeta} (h : v.meta? iri = some r)
    (h' : v.meta? iri' = some r') (hkey : r.blobKey = r'.blobKey) : iri = iri' := by
  -- a key that was there at the start is not committed
  have hnew : ∀ {iri iri' r r'}, w.meta? iri = some r →
      (∃ m ∈ tr, ∃ i, Commits i iri' r' m) → r.blobKey ≠ r'.blobKey := by
    rintro iri iri' r r' hold ⟨m, hm, i, hcommit⟩ hkey
    obtain ⟨u₁, u₂, rfl⟩ := List.append_of_mem hm
    exact (commit_first hrun hunique hcommit).1 ⟨iri, r, hold, hkey⟩
  rcases origin hrun h with hold | ⟨b, hb, i, hcommit⟩
  · rcases origin hrun h' with hold' | hcommit'
    · exact hstart.keys iri iri' r r' hold hold' hkey
    · exact absurd hkey (hnew hold hcommit')
  · rcases origin hrun h' with hold' | ⟨b', hb', j, hcommit'⟩
    · exact absurd hkey.symm (hnew hold' ⟨b, hb, i, hcommit⟩)
    · rcases first_of_two hb hb' with rfl | ⟨u₁, u₂, u₃, htr⟩ | ⟨u₁, u₂, u₃, htr⟩
      · exact hcommit.iri_eq hcommit'
      · rw [htr, ← List.cons_append, ← List.append_assoc] at hrun hunique
        exact absurd hkey ((commit_first hrun hunique hcommit').2 b (by simp) i iri r hcommit)
      · rw [htr, ← List.cons_append, ← List.append_assoc] at hrun hunique
        exact absurd hkey.symm
          ((commit_first hrun hunique hcommit).2 b' (by simp) j iri' r' hcommit')

end

/-! ## §5 Deleted bytes are not needed -/

section
variable {ι : Type} [DecidableEq ι] {jobs : ι → Job} {P' : (i : ι) → Reconciler (jobs i).Result}
  {w v : TimedWorld} {tr t₁ t₂ : List (Move ι gcSig TimedWorld)} {x : Move ι gcSig TimedWorld}
  {key : Text} {i : ι}

/-- From this move on the key is neither referred to nor committed. -/
def Dead (key : Text) (x : Move ι gcSig TimedWorld) (rest : List (Move ι gcSig TimedWorld)) : Prop :=
  ¬ Refers x.before key ∧ ∀ b ∈ x :: rest, ∀ j iri r, Commits j iri r b → r.blobKey ≠ key

variable {iri : Iri} {r : ResourceMeta}

theorem mem_blobKeys {i : Index} (h : i.meta? iri = some r) : r.blobKey ∈ i.blobKeys := by
  have hmem := AList.mem_lookup_iff.mp h
  exact List.mem_map.mpr ⟨⟨iri, r⟩, hmem, rfl⟩

/-- A key that is missing from a fetched set was not referred to then. -/
theorem not_referred_of_fetched {f : Move ι gcSig TimedWorld} {keys : List Text}
    (h : f.eventOf TimedWorld.sem i = some ⟨.referencedBlobKeys, .ok keys⟩) (hkey : key ∉ keys) :
    ¬ Refers f.before key := by
  rintro ⟨iri, r, hr, rfl⟩
  have hanswer := (Move.eventOf_eq_some h).2
  simp only [TimedWorld.sem] at hanswer
  split at hanswer
  · cases hanswer
  · obtain rfl := Except.ok.inj hanswer
    exact hkey (mem_blobKeys hr)

/-- A listed key is stored, and its date is its stamp. -/
theorem listed {l : Move ι gcSig TimedWorld} {entries : List BlobEntry} {e : BlobEntry}
    {ts : SystemTime} (h : l.eventOf TimedWorld.sem i = some ⟨.list, .ok entries⟩) (he : e ∈ entries)
    (hdate : e.lastModified = some ts) :
    (l.before.blob? e.key).isSome ∧ (l.before.stamps e.key).lastModified = ts := by
  have hanswer := (Move.eventOf_eq_some h).2
  simp only [TimedWorld.sem] at hanswer
  split at hanswer
  · cases hanswer
  · obtain rfl := Except.ok.inj hanswer
    obtain ⟨k, hk, rfl⟩ := List.mem_map.mp he
    have hstored : k ∈ l.before.store.backend.blobs.keys :=
      (l.before.reporting.arrange_perm _).mem_iff.mp hk
    refine ⟨AList.lookup_isSome.mpr hstored, ?_⟩
    simp only [TimedWorld.entry] at hdate
    split_ifs at hdate
    exact Option.some.inj hdate

/-- The move that stores bytes stamps them with its time. -/
theorem stamped_of_move {γ : ι → Type} {Q Q' : (i : ι) → Reconciler (γ i)}
    {a : Move ι gcSig TimedWorld} {u u' : TimedWorld} {body : Bytes}
    (hrun : Interleaves TimedWorld.sem TimedWorld.Passes Q u [a] Q' u')
    (h : a.eventOf TimedWorld.sem i = some ⟨.store (.blobPut key body), .ok ()⟩) :
    (a.after.stamps key).lastModified = a.before.time ∧ a.after.blob? key = some body := by
  obtain ⟨hactor, hanswer⟩ := Move.eventOf_eq_some h
  rw [hrun.after_eq List.mem_cons_self hactor]
  have hevent : a.before.event (.store (.blobPut key body)) =
      ⟨.store (.blobPut key body), .ok ()⟩ := by
    rw [TimedWorld.event, ← hanswer]
  exact TimedWorld.stamped_of_put hevent

/-- **The stamp of a listed key** that a later commit points at is the time its bytes were
stored. -/
theorem stamp_of_listed {l b : Move ι gcSig TimedWorld} {u₁ u₂ u₃ : List (Move ι gcSig TimedWorld)}
    (hrun : Running jobs w (u₁ ++ l :: (u₂ ++ b :: u₃)) P' v)
    (hunique : UniqueKeys w (u₁ ++ l :: (u₂ ++ b :: u₃))) (hstored : (l.before.blob? key).isSome)
    {j : ι} (hcommit : Commits j iri r b) (hkey : r.blobKey = key) :
    ∃ s₁ a s₂, u₁ = s₁ ++ a :: s₂ ∧ Puts j key a ∧
      (l.before.stamps key).lastModified = a.before.time := by
  have htr : u₁ ++ l :: (u₂ ++ b :: u₃) = (u₁ ++ l :: u₂) ++ b :: u₃ := by simp
  obtain ⟨⟨a, ha, hput⟩, -⟩ := put_before_commit hrun htr hcommit
  rw [hkey] at hput
  obtain ⟨Q, Q', hpast, -, -⟩ := hrun.split_at
  -- the bytes were stored before the listing, and by this very move
  have hearlier : a ∈ u₁ := by
    obtain ⟨body, hbody⟩ := Option.isSome_iff_exists.mp hstored
    rcases blob_origin hpast hbody with hold | ⟨a', ha', j', hevent⟩
    · have hmem : a ∈ u₁ ++ l :: (u₂ ++ b :: u₃) := by
        rw [htr]
        exact List.mem_append_left _ ha
      rw [(hunique.unused a hmem j key hput).1] at hold
      cases hold
    · rcases List.mem_append.mp ha with hearlier | hlater
      · exact hearlier
      · exfalso
        obtain ⟨s₁, s₂, rfl⟩ := List.append_of_mem ha'
        obtain ⟨y₁, y₂, hy⟩ := List.append_of_mem hlater
        refine hunique.once s₁ a' (s₂ ++ y₁) a (y₂ ++ b :: u₃) j' j key ?_ ⟨body, hevent⟩ hput
        rw [htr, hy]
        simp
  obtain ⟨s₁, s₂, rfl⟩ := List.append_of_mem hearlier
  refine ⟨s₁, a, s₂, rfl, hput, ?_⟩
  obtain ⟨R, R', -, hmove, hbetween⟩ := hpast.split_at
  have hkept : l.before.stamps key = a.after.stamps key := by
    refine stamps_kept hbetween fun m hm j' hput' => ?_
    obtain ⟨y₁, y₂, rfl⟩ := List.append_of_mem hm
    refine hunique.once s₁ a y₁ m (y₂ ++ l :: (u₂ ++ b :: u₃)) j j' key ?_ hput hput'
    simp
  rw [hkept]
  obtain ⟨body, hevent⟩ := hput
  exact (stamped_of_move hmove hevent).1

/-- A clock read between storing and a commit within the grace period shows a young blob. -/
theorem ageAt_lt {put now commit : Int} {grace : Nat} (hput : put ≤ now) (hnow : now ≤ commit)
    (hcommit : commit < put + grace) : ageAt now put < grace := by
  unfold ageAt
  omega

/-- **What a sweep has condemned is dead.** -/
theorem dead_of_condemned
    (hrun : Running jobs w (t₁ ++ x :: t₂) P' v) (hunique : UniqueKeys w (t₁ ++ x :: t₂))
    (htimely : Timely jobs (t₁ ++ x :: t₂)) {opts : ReconcileOptions} (hjob : jobs i = .sweep opts)
    (h : Condemned opts (ownEvents TimedWorld.sem i t₁) key) : Dead key x t₂ := by
  obtain ⟨entries, now, keys, l₁, l₂, l₃, l₄, ts, ⟨e, he, rfl, hdate⟩, hage, hkeys, hlog⟩ := h
  -- the moves of the listing, of the clock and of the second look at the index
  obtain ⟨u₁, l, u₂, rfl, -, hl, hrest⟩ := ownEvents_split hlog
  obtain ⟨u₃, n, u₄, rfl, -, hn, hrest⟩ := ownEvents_split hrest
  obtain ⟨u₅, f, u₆, rfl, -, hf, -⟩ := ownEvents_split hrest
  have hnow : now = n.before.time := (Move.eventOf_eq_some hn).2
  obtain ⟨hstored, hstamp⟩ := listed hl he hdate
  have hno : ∀ b ∈ u₆ ++ x :: t₂, ∀ j iri r, Commits j iri r b → r.blobKey ≠ e.key := by
    intro b hb j iri r hcommit hkey
    obtain ⟨y₁, y₂, hy⟩ := List.append_of_mem hb
    have htr : u₁ ++ l :: (u₃ ++ n :: (u₅ ++ f :: u₆)) ++ x :: t₂ =
        u₁ ++ l :: ((u₃ ++ n :: (u₅ ++ f :: y₁)) ++ b :: y₂) := by
      simp [hy]
    rw [htr] at hrun hunique htimely
    obtain ⟨s₁, a, s₂, rfl, hput, hstamp'⟩ := stamp_of_listed hrun hunique hstored hcommit hkey
    -- the clock was read after the grace period, so the commit was late
    have hlate : b.before.time < a.before.time + opts.grace := by
      refine htimely s₁ a (s₂ ++ l :: (u₃ ++ n :: (u₅ ++ f :: y₁))) b y₂ j iri r ?_ (hkey ▸ hput)
        hcommit i opts hjob
      simp
    have hread : n.before.time ≤ b.before.time := by
      have hsplit : s₁ ++ a :: s₂ ++ l :: ((u₃ ++ n :: (u₅ ++ f :: y₁)) ++ b :: y₂) =
          (s₁ ++ a :: s₂ ++ l :: u₃) ++ n :: ((u₅ ++ f :: y₁) ++ b :: y₂) := by simp
      exact time_le_between hrun hsplit
    have hput_le : a.before.time ≤ n.before.time := by
      have hsplit : s₁ ++ a :: s₂ ++ l :: ((u₃ ++ n :: (u₅ ++ f :: y₁)) ++ b :: y₂) =
          s₁ ++ a :: ((s₂ ++ l :: u₃) ++ n :: (u₅ ++ f :: y₁ ++ b :: y₂)) := by simp
      exact time_le_between hrun hsplit
    rw [hstamp] at hstamp'
    rw [hnow, hstamp'] at hage
    exact absurd hage (not_le.mpr (ageAt_lt hput_le hread hlate))
  have hsuffix : Running jobs w
      ((u₁ ++ l :: (u₃ ++ n :: u₅)) ++ f :: (u₆ ++ x :: t₂)) P' v := by simpa using hrun
  obtain ⟨Q, Q', -, hfetch, hafter⟩ := hsuffix.split_at
  have hfree : ¬ Refers f.after e.key := by
    refine (never_referred hfetch (not_referred_of_fetched hf hkeys) ?_).1
    intro m hm j iri r hcommit
    obtain rfl := List.mem_singleton.mp hm
    -- a look at the index commits nothing
    obtain ⟨e', hevent, hcommit⟩ := hcommit
    obtain rfl := (Move.eventOf_unique hevent hf).2
    rcases hcommit with he | ⟨container, he⟩ <;> cases he
  refine ⟨((never_referred hafter hfree hno).2 x (by simp)).1, fun b hb => hno b ?_⟩
  exact List.mem_append_right _ hb

/-- A dropped record is gone. -/
theorem meta?_dropped {γ : ι → Type} {Q Q' : (i : ι) → Reconciler (γ i)}
    {d : Move ι gcSig TimedWorld} {u u' : TimedWorld}
    (hrun : Interleaves TimedWorld.sem TimedWorld.Passes Q u [d] Q' u')
    (h : d.eventOf TimedWorld.sem i = some ⟨.store (.deleteMeta iri), .ok ()⟩) :
    d.after.meta? iri = none := by
  obtain ⟨hactor, hanswer⟩ := Move.eventOf_eq_some h
  rw [hrun.after_eq List.mem_cons_self hactor]
  simp only [TimedWorld.sem, World.sem] at hanswer ⊢
  cases hf : d.before.store.faults.indexWrite iri with
  | some e => simp [hf] at hanswer
  | none =>
    show ((d.before.store.backend.index.deleteMeta iri).meta? iri) = none
    rw [Index.meta?_deleteMeta, if_pos rfl]

/-- **What a delete reaps is dead.** -/
theorem dead_of_reaped (hstart : Settled w)
    (hrun : Running jobs w (t₁ ++ x :: t₂) P' v) (hunique : UniqueKeys w (t₁ ++ x :: t₂))
    (h : Reaped (ownEvents TimedWorld.sem i t₁) key) : Dead key x t₂ := by
  obtain ⟨iri, m, l₁, l₂, l₃, rfl, hlog⟩ := h
  -- the moves of the lookup and of the removal of the record
  obtain ⟨u₁, g, u₂, rfl, -, hg, hrest⟩ := ownEvents_split hlog
  obtain ⟨u₃, d, u₄, rfl, -, hd, -⟩ := ownEvents_split hrest
  have htr : u₁ ++ g :: (u₃ ++ d :: u₄) ++ x :: t₂ = u₁ ++ g :: (u₃ ++ d :: (u₄ ++ x :: t₂)) := by
    simp
  rw [htr] at hrun hunique
  obtain ⟨Q, Q', hpast, -, -⟩ := hrun.split_at
  have hfound : g.before.meta? iri = some m :=
    World.meta?_of_found (Move.eventOf_eq_some hg).2.symm
  have hno := no_commit_after hrun hpast hunique ⟨iri, m, hfound, rfl⟩
  have htr' : u₁ ++ g :: (u₃ ++ d :: (u₄ ++ x :: t₂)) = (u₁ ++ g :: u₃) ++ d :: (u₄ ++ x :: t₂) := by
    simp
  have hrun' := hrun
  rw [htr'] at hrun'
  obtain ⟨R, R', hbefore, hdrop, hafter⟩ := hrun'.split_at
  obtain ⟨Q, Q', hpast, hlook, hbetween⟩ := hbefore.split_at
  have hgone : d.after.meta? iri = none := meta?_dropped hdrop hd
  have hfree : ¬ Refers d.after m.blobKey := by
    rintro ⟨iri', r, hr, hkey⟩
    -- whoever refers to the key did so at the lookup
    have hr₁ := record_stood hdrop (fun b hb => hno b (by rw [List.mem_singleton.mp hb]; simp)) hr hkey
    have hr₂ := record_stood hbetween (fun b hb => hno b (by simp [hb])) hr₁ hkey
    have hr₃ := record_stood hlook (fun b hb => hno b (by rw [List.mem_singleton.mp hb]; simp)) hr₂ hkey
    obtain rfl := distinct_keys hstart hpast (hunique.take) hr₃ hfound hkey
    rw [hgone] at hr
    cases hr
  have hno' : ∀ b ∈ u₄ ++ x :: t₂, ∀ j iri r, Commits j iri r b → r.blobKey ≠ m.blobKey :=
    fun b hb => hno b (List.mem_cons_of_mem _ (List.mem_append_right _ (List.mem_cons_of_mem _ hb)))
  refine ⟨((never_referred hafter hfree hno').2 x (by simp)).1, fun b hb => hno' b ?_⟩
  exact List.mem_append_right _ hb

/-- **Whoever deletes bytes, their key is dead.** -/
theorem dead_of_deleted (hstart : Settled w)
    (hrun : Running jobs w tr P' v)
    (hunique : UniqueKeys w tr) (htimely : Timely jobs tr) (htr : tr = t₁ ++ x :: t₂) {o : GcOp}
    (hactor : x.actor = some (i, o)) (hdelete : DeletesKey key o) : Dead key x t₂ := by
  subst htr
  have hpermits := permits_at hrun hactor
  have hreleased : Released (jobs i) (ownEvents TimedWorld.sem i t₁) key := by
    cases o with
    | store o =>
      cases o with
      | blobDelete k =>
        obtain rfl : k = key := hdelete
        exact hpermits
      | _ => exact hdelete.elim
    | deleteIfUnchanged k generation =>
      obtain rfl : k = key := hdelete
      obtain ⟨opts, hjob, hcondemned⟩ := hpermits
      rw [hjob]
      exact hcondemned
    | _ => exact hdelete.elim
  cases hjob : jobs i with
  | sweep opts =>
    rw [hjob] at hreleased
    exact dead_of_condemned hrun hunique htimely hjob hreleased
  | _ =>
    rw [hjob] at hreleased
    exact dead_of_reaped hstart hrun hunique hreleased

theorem Dead.never_after
    (hrun : Running jobs w tr P' v)
    (htr : tr = t₁ ++ x :: t₂) (h : Dead key x t₂) :
    ¬ Refers v key ∧ ¬ Refers x.before key ∧ ¬ Refers x.after key ∧
      ∀ b ∈ t₂, ¬ Refers b.before key ∧ ¬ Refers b.after key := by
  subst htr
  obtain ⟨Q, Q', -, hmove, hrest⟩ := hrun.split_at
  obtain ⟨hfree, hno⟩ := h
  have hafter : ¬ Refers x.after key := by
    refine (never_referred hmove hfree fun b hb => hno b ?_).1
    exact List.mem_singleton.mp hb ▸ List.mem_cons_self
  obtain ⟨hend, hlater⟩ :=
    never_referred hrest hafter fun b hb => hno b (List.mem_cons_of_mem _ hb)
  exact ⟨hend, hfree, hafter, hlater⟩

/-- Bytes that a record has pointed at are there unless they were deleted. -/
theorem stored_unless_deleted (hstart : Settled w)
    (hrun : Running jobs w tr P' v)
    (hunique : UniqueKeys w tr)
    (hkept : ∀ m ∈ tr, ∀ j o, m.actor = some (j, o) → ¬ DeletesKey r.blobKey o)
    (h : w.meta? iri = some r ∨ ∃ m ∈ tr, ∃ i, Commits i iri r m) : (v.blob? r.blobKey).isSome := by
  rcases h with hold | ⟨b, hb, i, hcommit⟩
  · -- the bytes were there at the start, and nobody stores under their key
    obtain ⟨body, hbody⟩ := Option.isSome_iff_exists.mp (hstart.stored iri r hold)
    have hput : ∀ m ∈ tr, ∀ j, ¬ Puts j r.blobKey m :=
      fun m hm j hput => (hunique.unused m hm j r.blobKey hput).2 ⟨iri, r, hold, rfl⟩
    rw [blob_kept hrun hbody hput hkept]
    rfl
  · -- the bytes were stored by the job that committed the record
    obtain ⟨u₁, u₂, hu⟩ := List.append_of_mem hb
    obtain ⟨⟨a, ha, hput⟩, -⟩ := put_before_commit hrun hu hcommit
    obtain ⟨s₁, s₂, rfl⟩ := List.append_of_mem ha
    have htr : tr = s₁ ++ a :: (s₂ ++ b :: u₂) := by rw [hu]; simp
    subst htr
    obtain ⟨Q, Q', -, hmove, hrest⟩ := hrun.split_at
    have hnext : ∀ m ∈ s₂ ++ b :: u₂, ∀ j, ¬ Puts j r.blobKey m := by
      intro m hm j hput'
      obtain ⟨y₁, y₂, hy⟩ := List.append_of_mem hm
      exact hunique.once s₁ a y₁ m y₂ i j r.blobKey (by rw [hy]) hput hput'
    obtain ⟨body, hevent⟩ := hput
    have hbody : a.after.blob? r.blobKey = some body := (stamped_of_move hmove hevent).2
    have hlater : ∀ m ∈ s₂ ++ b :: u₂, ∀ j o, m.actor = some (j, o) → ¬ DeletesKey r.blobKey o :=
      fun m hm => hkept m (List.mem_append_right _ (List.mem_cons_of_mem _ hm))
    rw [blob_kept hrest hbody hnext hlater]
    rfl

/-- **Every record has its bytes** at the end of a run. -/
theorem stored_at_end (hstart : Settled w)
    (hrun : Running jobs w tr P' v)
    (hunique : UniqueKeys w tr) (htimely : Timely jobs tr) (h : v.meta? iri = some r) :
    (v.blob? r.blobKey).isSome := by
  apply stored_unless_deleted hstart hrun hunique _ (origin hrun h)
  -- whoever had deleted the bytes, nobody would refer to them now
  intro m hm j o hactor hdelete
  obtain ⟨u₁, u₂, htr⟩ := List.append_of_mem hm
  have hdead := dead_of_deleted hstart hrun hunique htimely htr hactor hdelete
  exact (hdead.never_after hrun htr).1 ⟨iri, r, h, rfl⟩

end

/-- **The reconciler is safe.**  Any number of reads, writes, creations, deletes and sweeps run
side by side, step by step, on backends that report dates and versions as they like, while the
clock moves on and backends fail and recover.  If keys are unique per write and writes are
timely, no step of a sweep deletes bytes that a record points at then or later, and every record
has its bytes at every moment. -/
theorem no_live_blob_deleted {ι : Type} [DecidableEq ι] (jobs : ι → Job)
    (P' : (i : ι) → Reconciler (jobs i).Result) (w v : TimedWorld)
    (tr : List (Move ι gcSig TimedWorld)) (hstart : Settled w)
    (hrun : Interleaves TimedWorld.sem TimedWorld.Passes (fun i => (jobs i).program) w tr P' v)
    (hunique : UniqueKeys w tr) (htimely : Timely jobs tr) :
    (∀ t₁ x t₂, tr = t₁ ++ x :: t₂ → ∀ i opts o key, jobs i = .sweep opts →
      x.actor = some (i, o) → DeletesKey key o →
        ¬ Refers x.before key ∧ ¬ Refers x.after key ∧
          ∀ b ∈ t₂, ¬ Refers b.before key ∧ ¬ Refers b.after key) ∧
    (∀ m ∈ tr, ∀ u, u = m.before ∨ u = m.after →
      ∀ iri r, u.meta? iri = some r → (u.blob? r.blobKey).isSome) := by
  constructor
  · intro t₁ x t₂ htr i opts o key _ hactor hdelete
    have hdead := dead_of_deleted hstart hrun hunique htimely htr hactor hdelete
    exact (hdead.never_after hrun htr).2
  · intro m hm u hu iri r hr
    obtain ⟨t₁, t₂, rfl⟩ := List.append_of_mem hm
    obtain ⟨Q, Q', hpast, hmove, -⟩ := hrun.split_at
    rcases hu with rfl | rfl
    · exact stored_at_end hstart hpast hunique.take htimely.take hr
    · -- the move belongs to the run that ends after it
      have htr : t₁ ++ m :: t₂ = (t₁ ++ [m]) ++ t₂ := by simp
      rw [htr] at hunique htimely
      exact stored_at_end hstart (hpast.append hmove) hunique.take htimely.take hr

/-! ## §6 A sweep between a write's bytes and its record -/

/-- The key of a move that may store bytes. -/
def putKey? {ι : Type} (m : Move ι gcSig TimedWorld) : Option Text :=
  match m.actor with
  | some (_, .store (.blobPut key _)) => some key
  | _ => none

theorem Puts.putKey? {ι : Type} [DecidableEq ι] {i : ι} {key : Text} {m : Move ι gcSig TimedWorld}
    (h : Puts i key m) : putKey? m = some key := by
  obtain ⟨body, hevent⟩ := h
  rw [Store.putKey?, (Move.eventOf_eq_some hevent).1]

/-- Keys are unique if the keys of all moves that may store bytes are different and unused. -/
theorem uniqueKeys_of_nodup {ι : Type} [DecidableEq ι] {w : TimedWorld}
    {tr : List (Move ι gcSig TimedWorld)}
    (hunused : ∀ key ∈ tr.filterMap putKey?, w.blob? key = none ∧ ¬ Refers w key)
    (hnodup : (tr.filterMap putKey?).Nodup) : UniqueKeys w tr where
  unused m hm i key hput := hunused key (List.mem_filterMap.mpr ⟨m, hm, hput.putKey?⟩)
  once t₁ a t₂ b t₃ i j key htr hput hput' := by
    rw [htr, List.filterMap_append, List.filterMap_cons_some hput.putKey?, List.filterMap_append,
      List.filterMap_cons_some hput'.putKey?] at hnodup
    have hsplit := (List.nodup_append.mp hnodup).2.1
    exact (List.nodup_cons.mp hsplit).1 (by simp)

/-- A write of a document, and a sweep with a grace period of ten nanoseconds. -/
def writeAndSweep (b : Bool) : Job :=
  if b then .sweep ⟨10, false⟩ else .write "http://h/d".toList [1] "text/plain".toList

/-- A storage with bytes that nothing refers to, stored long ago; its blobs have no version. -/
def orphanWorld : TimedWorld where
  store := World.boot.withBlobs (AList.insert "old".toList [7] ∅)
  time := 100
  stamps _ := ⟨0, 0⟩
  nextGeneration := 1
  reporting := ⟨fun _ => true, fun _ => false, id, List.Perm.refl⟩
  sweepFaults := .none

/-- The write when it has stored its bytes, and the world then. -/
def writePaused : Reconciler ResourceMeta × TimedWorld :=
  Program.advance TimedWorld.sem 2 (writeAndSweep false).program orphanWorld

/-- Five nanoseconds later. -/
def sweepStart : TimedWorld := { writePaused.2 with time := 105 }

/-- The world after the sweep. -/
def sweptWorld : TimedWorld := ((writeAndSweep true).program.run TimedWorld.sem sweepStart).2

/-- The write stores its bytes, the sweep runs, the write commits. -/
def sweepTrace : List (Move Bool gcSig TimedWorld) :=
  (Interleaves.ahead TimedWorld.sem false 2 (writeAndSweep false).program orphanWorld ++
    [⟨none, writePaused.2, sweepStart⟩]) ++
  (Interleaves.solo TimedWorld.sem true (writeAndSweep true).program sweepStart ++
    Interleaves.solo TimedWorld.sem false writePaused.1 sweptWorld)

theorem sweepTrace_run :
    ∃ P', Interleaves TimedWorld.sem TimedWorld.Passes (fun b => (writeAndSweep b).program)
      orphanWorld sweepTrace P' (writePaused.1.run TimedWorld.sem sweptWorld).2 := by
  have hbytes := Interleaves.some_way TimedWorld.sem TimedWorld.Passes
    (fun b => (writeAndSweep b).program) orphanWorld false 2
  have hpass : TimedWorld.Passes writePaused.2 sweepStart := ⟨by decide, rfl, rfl, rfl⟩
  have hstart := hbytes.append (.env hpass (.done _ _))
  -- the sweep first, then what is left of the write
  have hrest := Interleaves.in_turn TimedWorld.sem TimedWorld.Passes
    (Function.update (fun b => (writeAndSweep b).program) false writePaused.1) sweepStart
    (i := true) (j := false) (by decide)
  exact ⟨_, hstart.append hrest⟩

/-- The orphan is reclaimed, and the new record has its bytes. -/
theorem no_live_blob_deleted_sweep :
    sweptWorld.blob? "old".toList = none ∧ ∀ m ∈ sweepTrace, ∀ u, u = m.before ∨ u = m.after →
      ∀ iri r, u.meta? iri = some r → (u.blob? r.blobKey).isSome := by
  have hempty : ∀ iri, orphanWorld.meta? iri = none := by
    intro iri
    show (⟨∅, ∅⟩ : Index).meta? iri = none
    rw [Index.meta?, AList.lookup_empty]
  have hsettled : Settled orphanWorld := by
    refine ⟨fun iri r hr => ?_, fun iri iri' r r' hr => ?_⟩
    · rw [hempty] at hr
      cases hr
    · rw [hempty] at hr
      cases hr
  have hunique : UniqueKeys orphanWorld sweepTrace := by
    have hunused : ∀ key ∈ sweepTrace.filterMap putKey?, orphanWorld.blob? key = none := by
      decide
    refine uniqueKeys_of_nodup (fun key hkey => ⟨hunused key hkey, ?_⟩) (by decide)
    rintro ⟨iri, r, hr, -⟩
    rw [hempty] at hr
    cases hr
  have hsoon : ∀ a ∈ sweepTrace, ∀ b ∈ sweepTrace, b.before.time < a.before.time + 10 := by
    decide
  have htimely : Timely writeAndSweep sweepTrace := by
    intro t₁ a t₂ b t₃ i iri r htr _ _ j opts hjob
    cases j with
    | false => cases hjob
    | true =>
      cases hjob
      exact hsoon a (by rw [htr]; simp) b (by rw [htr]; simp)
  obtain ⟨P', hrun⟩ := sweepTrace_run
  exact ⟨by decide, (no_live_blob_deleted writeAndSweep P' orphanWorld _ sweepTrace hsettled
    hrun hunique htimely).2⟩

end SolidServer.Store
