import SolidServer.Store.Garbage

/-!
# Reads beside writers, deletes and sweeps

A read looks the record up and then fetches the bytes it points at, from the body cache or from
the blob store.  Keys are unique per write, so what it fetches are the bytes of the version it
looked up, if they are still there.  A delete reaps them at once and a sweep reaps those of an
overwritten version; a read in between reports an inconsistency.

* `read_version`: a read whose bytes are not deleted before it has fetched them answers with the
  record and the bytes of the version that was current at its lookup, or that there was none.
* `read_torn`: a read overtaken by a delete fails with the inconsistency error.
-/

namespace SolidServer.Store

open SolidServer.Effects
open SolidServer.Effects.Program (Heeds)

/-! ## §1 The log of a read -/

/-- The resource a job reads. -/
def Job.target? : Job → Option Iri
  | .read iri => some iri
  | .planned target _ => some target
  | _ => none

/-- What a reading job returns. -/
def Job.resource? : (job : Job) → job.Result → Option Resource
  | .read _, res => some res
  | .planned _ _, res => some res
  | _, _ => none

/-- A lookup and the record it found. -/
inductive Lookup (iri : Iri) : Event gcSig → Option ResourceMeta → Prop
  | found (m : ResourceMeta) : Lookup iri ⟨.store (.getMeta iri), .ok m⟩ (some m)
  | missing : Lookup iri ⟨.store (.getMeta iri), .error .notFound⟩ none
  | planned (candidates : List Iri) (plan : ReadPlan) :
    Lookup iri ⟨.store (.readPlan iri candidates), .ok plan⟩ plan.target

/-- A lookup that failed. -/
inductive Faulty (iri : Iri) : Event gcSig → Prop
  | lookup (msg : Text) : Faulty iri ⟨.store (.getMeta iri), .error (.backend msg)⟩
  | plan (candidates : List Iri) (e : SparqError) :
    Faulty iri ⟨.store (.readPlan iri candidates), .error e⟩

/-- The events of fetching the bytes of a record, and what comes of them. -/
inductive FetchLog (m : ResourceMeta) : List (Event gcSig) → Except GcError (Option Resource) → Prop
  | cached (body : Bytes) :
    FetchLog m [⟨.store (.bodyCacheGet m.blobKey m.etag), some body⟩] (.ok (some ⟨body, m⟩))
  | fetched (body : Bytes) :
    FetchLog m [⟨.store (.bodyCacheGet m.blobKey m.etag), none⟩,
      ⟨.store (.blobGet m.blobKey), .ok body⟩,
      ⟨.store (.bodyCacheInsert m.blobKey m.etag body), ()⟩] (.ok (some ⟨body, m⟩))
  | failed (e : BlobError) :
    FetchLog m [⟨.store (.bodyCacheGet m.blobKey m.etag), none⟩,
      ⟨.store (.blobGet m.blobKey), .error e⟩] (.error (.server (blobFetchError e)))

/-- The events of a read. -/
inductive ReadLog (iri : Iri) : List (Event gcSig) → Except GcError (Option Resource) → Prop
  | absent {e : Event gcSig} (h : Lookup iri e none) : ReadLog iri [e] (.error (.server .notFound))
  | present {e : Event gcSig} {m : ResourceMeta} {log : List (Event gcSig)}
      {r : Except GcError (Option Resource)} (h : Lookup iri e (some m)) (hfetch : FetchLog m log r) :
    ReadLog iri (e :: log) r
  | failed {e : Event gcSig} {r : Except GcError (Option Resource)} (h : Faulty iri e) :
    ReadLog iri [e] r

theorem logs_fetchBody (m : ResourceMeta) (seen : List (Event gcSig)) :
    Heeds (S := gcSig) (fun _ _ => True) seen (storeCall (do
      let body ← fetchBody m
      pure (⟨body, m⟩ : Resource)))
      fun log r => ∃ rest, log = seen ++ rest ∧ FetchLog m rest (r.map some) := by
  refine heeds_perform_bind trivial fun r => ?_
  cases r with
  | some body => exact ⟨_, rfl, .cached body⟩
  | none =>
    refine heeds_perform_bind trivial fun r => ?_
    cases r with
    | error e =>
      refine ⟨[_, _], ?_, .failed e⟩
      simp
    | ok body =>
      refine heeds_perform_bind trivial fun u => ?_
      refine ⟨[_, _, _], ?_, .fetched body⟩
      simp

/-- **The log of a read.** -/
theorem logs_reading {job : Job} {iri : Iri} (h : job.target? = some iri) :
    Heeds (S := gcSig) (fun _ _ => True) [] job.program fun log r =>
      ReadLog iri log (r.map job.resource?) := by
  cases job with
  | read target =>
    obtain rfl := Option.some.inj h
    show Heeds _ _ (storeCall (perform (.getMeta target) >>= _)) _
    refine heeds_perform_bind trivial fun r => ?_
    rcases r with (_ | msg) | m
    · exact .absent .missing
    · exact .failed (.lookup msg)
    · apply (logs_fetchBody m [⟨.store (.getMeta target), .ok m⟩]).mono
      rintro log r ⟨rest, rfl, hfetch⟩
      exact .present (.found m) hfetch
  | planned target candidates =>
    obtain rfl := Option.some.inj h
    show Heeds _ _ (storeCall (readPlanned target candidates)) _
    refine heeds_perform_bind trivial fun r => ?_
    rcases r with (_ | msg) | ⟨found, rows⟩
    · exact .failed (.plan candidates _)
    · exact .failed (.plan candidates _)
    · have hlookup : Lookup target
          ⟨.store (.readPlan target candidates), .ok ⟨found, rows⟩⟩ found :=
        .planned candidates ⟨found, rows⟩
      cases found with
      | none => exact .absent hlookup
      | some m =>
        apply (logs_fetchBody m [⟨.store (.readPlan target candidates), .ok ⟨some m, rows⟩⟩]).mono
        rintro log r ⟨rest, rfl, hfetch⟩
        exact .present hlookup hfetch
  | _ => cases h

/-! ## §2 Where bytes come from -/

theorem TimedWorld.Passes.bodyCache {w w' : TimedWorld} (h : Passes w w') :
    w'.store.bodyCache = w.store.bodyCache := by
  rw [h.store]

/-- A cached body was cached before the step, or is put there by it. -/
theorem bodyCache_step {w : TimedWorld} {o : GcOp} {key tag : Text} {body : Bytes}
    (h : (TimedWorld.sem w o).2.store.bodyCache.body? key tag = some body) :
    w.store.bodyCache.body? key tag = some body ∨ o = .store (.bodyCacheInsert key tag body) := by
  cases TimedWorld.stepped w o with
  | store p _ he hw =>
    rw [hw] at h
    obtain rfl : o = .store p := (Event.mk.inj he).1
    exact (bodies_step h).imp_right (congrArg GcOp.store)
  | put _ _ _ hw | drop _ _ hw | same hw =>
    rw [hw] at h
    exact .inl h

section
variable {ι : Type} [DecidableEq ι]

/-- **The bytes of a version**: those that its write stored under its key, in the run or before
it. -/
def Written (w : TimedWorld) (tr : List (Move ι gcSig TimedWorld)) (key : Text) (body : Bytes) :
    Prop :=
  w.blob? key = some body ∨
    ∃ m ∈ tr, ∃ i, m.eventOf TimedWorld.sem i = some ⟨.store (.blobPut key body), .ok ()⟩

theorem Written.extend {w : TimedWorld} {t₁ t₂ : List (Move ι gcSig TimedWorld)} {key : Text}
    {body : Bytes} (h : Written w t₁ key body) : Written w (t₁ ++ t₂) key body := by
  rcases h with hold | ⟨m, hm, hput⟩
  · exact .inl hold
  · exact .inr ⟨m, List.mem_append_left _ hm, hput⟩

/-- What the cache holds at the start agrees with the store, and no write of the run uses a key
that is cached. -/
structure Backed (w : TimedWorld) (tr : List (Move ι gcSig TimedWorld)) : Prop where
  agree : ∀ key tag body body', w.store.bodyCache.body? key tag = some body →
    w.blob? key = some body' → body = body'
  unused : ∀ m ∈ tr, ∀ i key tag, Puts i key m → w.store.bodyCache.body? key tag = none

theorem Backed.take {w : TimedWorld} {t₁ t₂ : List (Move ι gcSig TimedWorld)}
    (h : Backed w (t₁ ++ t₂)) : Backed w t₁ :=
  ⟨h.agree, fun m hm => h.unused m (List.mem_append_left _ hm)⟩

/-- **Bytes are left to the readers**: no bytes are deleted before a read fetches them. -/
def Unswept (tr : List (Move ι gcSig TimedWorld)) : Prop :=
  ∀ t₁ x t₂ b t₃ i j o key, tr = t₁ ++ x :: (t₂ ++ b :: t₃) → x.actor = some (j, o) →
    DeletesKey key o → b.actor ≠ some (i, .store (.blobGet key))

variable {γ : ι → Type} {P P' : (i : ι) → Reconciler (γ i)} {w v : TimedWorld}
  {tr : List (Move ι gcSig TimedWorld)}

section
variable (hrun : Interleaves TimedWorld.sem TimedWorld.Passes P w tr P' v)
include hrun

/-- Stored bytes were written. -/
theorem written_of_blob {key : Text} {body : Bytes} (h : v.blob? key = some body) :
    Written w tr key body :=
  blob_origin hrun h

/-- A cached body was cached at the start, or put there on the way. -/
theorem cache_origin {key tag : Text} {body : Bytes}
    (h : v.store.bodyCache.body? key tag = some body) :
    w.store.bodyCache.body? key tag = some body ∨
      ∃ m ∈ tr, ∃ i, m.actor = some (i, .store (.bodyCacheInsert key tag body)) := by
  rcases hrun.brought (fun u => u.store.bodyCache.body? key tag = some body) h with
    hold | ⟨m, hm, hbefore, hafter⟩
  · exact .inl hold
  rcases moved hrun hm with ⟨i, o, hactor, hstep, -⟩ | hpass
  · rw [hstep] at hafter
    obtain rfl := (bodyCache_step hafter).resolve_left hbefore
    exact .inr ⟨m, hm, i, hactor⟩
  · rw [hpass.bodyCache] at hafter
    exact absurd hafter hbefore

end

end

/-! ## §3 Reading -/

section
variable {ι : Type} [DecidableEq ι] {jobs : ι → Job} {P' : (i : ι) → Reconciler (jobs i).Result}
  {w v : TimedWorld} {tr t₁ t₂ : List (Move ι gcSig TimedWorld)} {i : ι}

/-- What a cache holds under the key of a record that was looked up was written. -/
theorem written_of_cached (hstart : Settled w)
    (hrun : Running jobs w tr P' v)
    (hcache : Backed w tr) {iri : Iri} {m : ResourceMeta} {tag : Text} {body : Bytes}
    (horigin : w.meta? iri = some m ∨ ∃ b ∈ tr, ∃ j, Commits j iri m b)
    (h : v.store.bodyCache.body? m.blobKey tag = some body) : Written w tr m.blobKey body := by
  rcases cache_origin hrun h with hold | ⟨x, hx, j, hactor⟩
  · rcases horigin with hfirst | ⟨b, hb, j, hcommit⟩
    · -- a record of the start: its cached bytes are its stored bytes
      obtain ⟨body', hbody'⟩ := Option.isSome_iff_exists.mp (hstart.stored iri m hfirst)
      rw [hcache.agree _ _ _ _ hold hbody']
      exact .inl hbody'
    · -- a record of the run: its key was not cached at the start
      obtain ⟨u₁, u₂, hu⟩ := List.append_of_mem hb
      obtain ⟨⟨a, ha, hput⟩, -⟩ := put_before_commit hrun hu hcommit
      rw [hcache.unused a (by rw [hu]; simp [ha]) j _ _ hput] at hold
      cases hold
  · -- cached by a job that had fetched the bytes
    obtain ⟨u₁, u₂, rfl⟩ := List.append_of_mem hx
    have hpermits : (⟨.store (.blobGet m.blobKey), .ok body⟩ : Event gcSig) ∈
        ownEvents TimedWorld.sem j u₁ := permits_at hrun hactor
    obtain ⟨f, hf, hevent⟩ := List.mem_filterMap.mp hpermits
    obtain ⟨y₁, y₂, rfl⟩ := List.append_of_mem hf
    have htr : y₁ ++ f :: y₂ ++ x :: u₂ = y₁ ++ f :: (y₂ ++ x :: u₂) := by simp
    rw [htr] at hrun ⊢
    obtain ⟨Q, Q', hpast, -, -⟩ := hrun.split_at
    exact (written_of_blob hpast (World.blob_of_fetched (Move.eventOf_eq_some hevent).2.symm)).extend

/-- A lookup tells the record of its moment. -/
theorem record_of_lookup {g : Move ι gcSig TimedWorld} {e : Event gcSig} {iri : Iri}
    {found : Option ResourceMeta} (h : g.eventOf TimedWorld.sem i = some e)
    (hlookup : Lookup iri e found) : g.before.meta? iri = found := by
  have hanswer := (Move.eventOf_eq_some h).2
  cases hlookup with
  | found m => exact World.meta?_of_found hanswer.symm
  | missing => exact World.meta?_of_missing hanswer.symm
  | planned candidates plan =>
    rw [← World.plan_of_readPlan hanswer.symm]
    rfl

/-- Working backends do not fail lookups. -/
theorem not_faulty {g : Move ι gcSig TimedWorld} {e : Event gcSig} {iri : Iri}
    (hworks : g.before.store.faults = .none) (h : g.eventOf TimedWorld.sem i = some e) :
    ¬ Faulty iri e := by
  have hanswer := (Move.eventOf_eq_some h).2
  rintro (msg | ⟨candidates, err⟩)
  · simp only [TimedWorld.sem, World.sem, World.guardIndex, hworks, Faults.none] at hanswer
    cases hm : g.before.store.backend.index.meta? iri <;> simp [hm] at hanswer
  · have hplan : World.planFault .none iri candidates = none := by
      simp [World.planFault, Faults.none]
    simp [TimedWorld.sem, World.sem, World.guardIndex, hworks, hplan] at hanswer

/-- A working fetch fails only if the bytes are gone. -/
theorem gone_of_failed {f : Move ι gcSig TimedWorld} {key : Text} {e : BlobError}
    (hworks : f.before.store.faults = .none)
    (h : f.eventOf TimedWorld.sem i = some ⟨.store (.blobGet key), .error e⟩) :
    f.before.blob? key = none := by
  have hanswer := (Move.eventOf_eq_some h).2
  simp only [TimedWorld.sem, World.sem, hworks, Faults.none] at hanswer
  cases hb : f.before.store.backend.blobs.lookup key with
  | none => exact hb
  | some b => simp [hb] at hanswer

end

/-- **A read answers with one version.**  Reads, writes, creations, deletes and sweeps run side by
side on working backends, with the body cache in any state, and keys are unique per write.  If
no bytes are deleted before a read fetches them, a read that has ended has found no record at
its lookup and says so, or returns the record of its lookup with the bytes of that version. -/
theorem read_version {ι : Type} [DecidableEq ι] (jobs : ι → Job)
    (P' : (i : ι) → Reconciler (jobs i).Result) (w v : TimedWorld)
    (tr : List (Move ι gcSig TimedWorld)) (hstart : Settled w) (hcache : Backed w tr)
    (hrun : Interleaves TimedWorld.sem TimedWorld.Passes (fun i => (jobs i).program) w tr P' v)
    (hworks : ∀ m ∈ tr, m.before.store.faults = .none) (hunique : UniqueKeys w tr)
    (hunswept : Unswept tr) (i : ι) (iri : Iri) (hi : (jobs i).target? = some iri)
    (r : Except GcError (jobs i).Result) (hr : P' i = .ret r) :
    ∃ g ∈ tr, (∃ o, g.actor = some (i, o)) ∧
      (r.map (jobs i).resource? = .error (.server .notFound) ∧ g.before.meta? iri = none ∨
        ∃ res, r.map (jobs i).resource? = .ok (some res) ∧ g.before.meta? iri = some res.meta_ ∧
          Written w tr res.meta_.blobKey res.body) := by
  have hlog : ReadLog iri (ownEvents TimedWorld.sem i tr) (r.map (jobs i).resource?) := by
    have hpath := hrun.path i
    rw [hr] at hpath
    simpa using (logs_reading hi).of_path hpath
  generalize hanswer : r.map (jobs i).resource? = answer at hlog ⊢
  generalize hown : ownEvents TimedWorld.sem i tr = log at hlog
  cases hlog with
  | @absent e hlookup =>
    obtain ⟨t₁, g, t₂, htr, hg, -⟩ := ownEvents_head hown
    exact ⟨g, by rw [htr]; simp, ⟨_, (Move.eventOf_eq_some hg).1⟩,
      .inl ⟨rfl, record_of_lookup hg hlookup⟩⟩
  | @failed e r hfaulty =>
    obtain ⟨t₁, g, t₂, htr, hg, -⟩ := ownEvents_head hown
    exact absurd hfaulty (not_faulty (hworks g (by rw [htr]; simp)) hg)
  | @present e m log r hlookup hfetch =>
    obtain ⟨t₁, g, t₂, rfl, hg, hrest⟩ := ownEvents_head hown
    have hrecord := record_of_lookup hg hlookup
    refine ⟨g, by simp, ⟨_, (Move.eventOf_eq_some hg).1⟩, .inr ?_⟩
    obtain ⟨Q, Q', hpast, -, -⟩ := hrun.split_at
    -- the record's origin, as seen from any later point
    have horigin : ∀ more, w.meta? iri = some m ∨
        ∃ b ∈ t₁ ++ g :: more, ∃ j, Commits j iri m b := by
      intro more
      rcases origin hpast hrecord with hold | ⟨b, hb, hcommit⟩
      · exact .inl hold
      · exact .inr ⟨b, List.mem_append_left _ hb, hcommit⟩
    cases hfetch with
    | cached body =>
      obtain ⟨s₁, c, s₂, rfl, hc, -⟩ := ownEvents_head hrest
      refine ⟨⟨body, m⟩, rfl, hrecord, ?_⟩
      have htr : t₁ ++ g :: (s₁ ++ c :: s₂) = (t₁ ++ g :: s₁) ++ c :: s₂ := by simp
      rw [htr] at hrun hcache ⊢
      obtain ⟨R, R', hpast', -, -⟩ := hrun.split_at
      have hhit : c.before.store.bodyCache.body? m.blobKey m.etag = some body := by
        have hans := (Move.eventOf_eq_some hc).2
        simp only [TimedWorld.sem, World.sem, BodyCache.get_fst] at hans
        exact hans.symm
      exact (written_of_cached hstart hpast' hcache.take (horigin s₁) hhit).extend
    | fetched body =>
      obtain ⟨s₁, c, s₂, rfl, -, hrest⟩ := ownEvents_head hrest
      obtain ⟨s₃, f, s₄, rfl, hf, -⟩ := ownEvents_head hrest
      refine ⟨⟨body, m⟩, rfl, hrecord, ?_⟩
      have htr : t₁ ++ g :: (s₁ ++ c :: (s₃ ++ f :: s₄)) = (t₁ ++ g :: (s₁ ++ c :: s₃)) ++ f :: s₄ := by
        simp
      rw [htr] at hrun ⊢
      obtain ⟨R, R', hpast', -, -⟩ := hrun.split_at
      exact (written_of_blob hpast' (World.blob_of_fetched (Move.eventOf_eq_some hf).2.symm)).extend
    | failed e =>
      obtain ⟨s₁, c, s₂, rfl, -, hrest⟩ := ownEvents_head hrest
      obtain ⟨s₃, f, s₄, rfl, hf, -⟩ := ownEvents_head hrest
      have htr : t₁ ++ g :: (s₁ ++ c :: (s₃ ++ f :: s₄)) = (t₁ ++ g :: (s₁ ++ c :: s₃)) ++ f :: s₄ := by
        simp
      rw [htr] at hrun hunique hworks hunswept
      obtain ⟨R, R', hpast', -, -⟩ := hrun.split_at
      have hgone := gone_of_failed (hworks f (by simp)) hf
      -- nobody has deleted the bytes, so they are there
      have hthere := stored_unless_deleted hstart hpast' hunique.take (fun x hx j o hactor hdelete => ?_)
        (horigin (s₁ ++ c :: s₃))
      · rw [hgone] at hthere
        cases hthere
      · obtain ⟨y₁, y₂, hy⟩ := List.append_of_mem hx
        refine hunswept y₁ x y₂ f s₄ i j o m.blobKey ?_ hactor hdelete (Move.eventOf_eq_some hf).1
        rw [hy]
        simp

/-! ## §4 A read and a delete -/

theorem faults_sem (w : TimedWorld) (o : GcOp) :
    (TimedWorld.sem w o).2.store.faults = w.store.faults := by
  cases TimedWorld.stepped w o with
  | store p _ _ hw =>
    rw [hw]
    exact faults_step w.store p
  | put _ _ _ hw | drop _ _ hw | same hw => exact congrArg (fun u => u.store.faults) hw

/-- The key of a move that deletes bytes. -/
def deletedKey? {ι : Type} (m : Move ι gcSig TimedWorld) : Option Text :=
  match m.actor with
  | some (_, .store (.blobDelete key)) => some key
  | some (_, .deleteIfUnchanged key _) => some key
  | _ => none

/-- The key of a move that fetches bytes. -/
def fetchedKey? {ι : Type} (m : Move ι gcSig TimedWorld) : Option Text :=
  match m.actor with
  | some (_, .store (.blobGet key)) => some key
  | _ => none

theorem unswept_of_pairwise {ι : Type} {tr : List (Move ι gcSig TimedWorld)}
    (h : tr.Pairwise fun x b => deletedKey? x = none ∨ deletedKey? x ≠ fetchedKey? b) :
    Unswept tr := by
  rintro t₁ x t₂ b t₃ i j o key rfl hx hdelete hb
  have hpair := (List.pairwise_cons.mp (List.pairwise_append.mp h).2.1).1 b (by simp)
  have hdeleted : deletedKey? x = some key := by
    rw [deletedKey?, hx]
    cases o with
    | store o =>
      cases o with
      | blobDelete k => exact congrArg some hdelete
      | _ => exact hdelete.elim
    | deleteIfUnchanged k g => exact congrArg some hdelete
    | _ => exact hdelete.elim
  have hfetched : fetchedKey? b = some key := by rw [fetchedKey?, hb]
  rw [hdeleted, hfetched] at hpair
  simp at hpair

theorem settled_of_entries {w : TimedWorld}
    (hstored : ∀ e ∈ w.store.backend.index.records.entries, (w.blob? e.2.blobKey).isSome)
    (hkeys : ∀ e ∈ w.store.backend.index.records.entries,
      ∀ e' ∈ w.store.backend.index.records.entries, e.2.blobKey = e'.2.blobKey → e.1 = e'.1) :
    Settled w where
  stored iri r hr := hstored ⟨iri, r⟩ (AList.mem_lookup_iff.mp hr)
  keys iri iri' r r' hr hr' :=
    hkeys ⟨iri, r⟩ (AList.mem_lookup_iff.mp hr) ⟨iri', r'⟩ (AList.mem_lookup_iff.mp hr')

/-- A read of a document, and its deletion. -/
def readAndDelete (b : Bool) : Job :=
  if b then .read "http://h/d".toList else .delete "http://h/d".toList none

/-- A storage with the document. -/
def documentStore : TimedWorld where
  store := (exec (write "http://h/d".toList [1] "text/plain".toList) World.boot).2
  time := 0
  stamps _ := ⟨0, 0⟩
  nextGeneration := 1
  reporting := ⟨fun _ => true, fun _ => true, id, List.Perm.refl⟩
  sweepFaults := .none

/-- The read after its first steps, and the world then. -/
def readPaused (n : Nat) : Reconciler Resource × TimedWorld :=
  Program.advance TimedWorld.sem n (readAndDelete true).program documentStore

/-- The world when the delete has run. -/
def afterDelete (n : Nat) : TimedWorld :=
  ((readAndDelete false).program.run TimedWorld.sem (readPaused n).2).2

/-- The read makes `n` steps, the delete runs, the read goes on. -/
def overtakenTrace (n : Nat) : List (Move Bool gcSig TimedWorld) :=
  Interleaves.ahead TimedWorld.sem true n (readAndDelete true).program documentStore ++
  (Interleaves.solo TimedWorld.sem false (readAndDelete false).program (readPaused n).2 ++
    Interleaves.solo TimedWorld.sem true (readPaused n).1 (afterDelete n))

theorem overtakenTrace_run (n : Nat) :
    ∃ P' : (b : Bool) → Reconciler (readAndDelete b).Result,
      Interleaves TimedWorld.sem (fun _ _ => False) (fun b => (readAndDelete b).program)
        documentStore (overtakenTrace n) P' ((readPaused n).1.run TimedWorld.sem (afterDelete n)).2 ∧
      P' true = .ret ((readPaused n).1.run TimedWorld.sem (afterDelete n)).1 := by
  have hstart := Interleaves.some_way TimedWorld.sem (fun _ _ => False)
    (fun b => (readAndDelete b).program) documentStore true n
  have hrest := Interleaves.in_turn TimedWorld.sem (fun _ _ => False)
    (Function.update (fun b => (readAndDelete b).program) true (readPaused n).1) (readPaused n).2
    (i := false) (j := true) (by decide)
  exact ⟨_, hstart.append hrest, rfl⟩

/-- The assumptions on the store along the run, whatever its order. -/
theorem overtakenTrace_sound (n : Nat) (hnone : (overtakenTrace n).filterMap putKey? = []) :
    Settled documentStore ∧ Backed documentStore (overtakenTrace n) ∧
      (∀ m ∈ overtakenTrace n, m.before.store.faults = .none) ∧
      UniqueKeys documentStore (overtakenTrace n) := by
  have hempty : ∀ key tag, documentStore.store.bodyCache.body? key tag = none := fun _ _ => rfl
  refine ⟨settled_of_entries (by decide) (by decide), ⟨?_, ?_⟩, ?_, ?_⟩
  · intro key tag body body' hcached
    cases hcached
  · exact fun m _ i key tag _ => hempty key tag
  · obtain ⟨P', hrun, -⟩ := overtakenTrace_run n
    refine hrun.holds_before (fun u => u.store.faults = .none) (fun m hm h => ?_) rfl
    obtain ⟨i, o, -, hafter⟩ := hrun.own_move hm
    rw [hafter, faults_sem, h]
  · apply uniqueKeys_of_nodup
    · rw [hnone]
      simp
    · rw [hnone]
      exact List.nodup_nil

/-- A read that has fetched its bytes returns them, though the document is deleted meanwhile. -/
theorem read_version_overtaken :
    ∃ g ∈ overtakenTrace 3, (∃ o, g.actor = some (true, o)) ∧
      (((readPaused 3).1.run TimedWorld.sem (afterDelete 3)).1.map some =
          .error (.server .notFound) ∧ g.before.meta? "http://h/d".toList = none ∨
        ∃ res, ((readPaused 3).1.run TimedWorld.sem (afterDelete 3)).1.map some = .ok (some res) ∧
          g.before.meta? "http://h/d".toList = some res.meta_ ∧
          Written documentStore (overtakenTrace 3) res.meta_.blobKey res.body) := by
  obtain ⟨hsettled, hbacked, hworks, hunique⟩ := overtakenTrace_sound 3 (by decide)
  obtain ⟨P', hrun, hread⟩ := overtakenTrace_run 3
  have hunswept : Unswept (overtakenTrace 3) := unswept_of_pairwise (by decide)
  exact read_version readAndDelete P' documentStore _ (overtakenTrace 3) hsettled hbacked
    (hrun.mono_env fun _ _ h => h.elim) hworks hunique hunswept true "http://h/d".toList rfl _ hread

/-- **A torn read**: the document is deleted between the lookup and the fetch of a read, on
working backends, and the read reports an inconsistency. -/
theorem read_torn :
    (Settled documentStore ∧ Backed documentStore (overtakenTrace 2) ∧
      (∀ m ∈ overtakenTrace 2, m.before.store.faults = .none) ∧
      UniqueKeys documentStore (overtakenTrace 2)) ∧
    ∃ P' v, Interleaves TimedWorld.sem TimedWorld.Passes (fun b => (readAndDelete b).program)
        documentStore (overtakenTrace 2) P' v ∧
      P' true = .ret (.error (.server (.storage "byte/index inconsistency".toList))) := by
  refine ⟨overtakenTrace_sound 2 (by decide), ?_⟩
  obtain ⟨P', hrun, hread⟩ := overtakenTrace_run 2
  refine ⟨P', _, hrun.mono_env fun _ _ h => h.elim, ?_⟩
  rw [hread]
  rfl

end SolidServer.Store
