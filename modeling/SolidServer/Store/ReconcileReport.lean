import SolidServer.Store.Reconcile

/-!
# The report of a sweep

`ReconcileReport` partitions what a sweep has seen: every scanned blob is referenced or
orphaned, and every orphan ends in exactly one of the other counters.  A dry run predicts a
real one, because both settle a candidate by one decision.

## Layers

* **Counting**: the partition, with the candidates still open as one more class, is kept by
  each entry of the first pass and by each candidate of the second, whatever is answered.
* **Order**: nothing is deleted before the last survey, nor after one that failed.
* **A store at rest**: where nothing fails and nothing else runs, a sweep settles `dryKeys`.
-/

namespace SolidServer.Store

open SolidServer.Effects
open SolidServer.Effects.Program (Heeds Path)

/-! ## §1 The partition -/

/-- The first pass after `n` entries: each was referenced or orphaned, each orphan was spared
or is a candidate. -/
structure Tallied (report : ReconcileReport) (candidates n : Nat) : Prop where
  seen : report.referenced + report.orphaned = n
  orphaned : report.orphaned = report.tooYoung + report.skippedUnknownAge + candidates
  deleted : report.deleted = 0
  wouldDelete : report.wouldDelete = 0
  skippedRevalidated : report.skippedRevalidated = 0
  deleteErrors : report.deleteErrors = 0

/-- **The partition** of the scanned blobs, with `pending` candidates not settled yet. -/
structure Balanced (opts : ReconcileOptions) (report : ReconcileReport) (pending : Nat) : Prop where
  scanned : report.scanned = report.referenced + report.orphaned
  orphaned : report.orphaned = report.deleted + report.wouldDelete + report.tooYoung +
    report.skippedUnknownAge + report.skippedRevalidated + report.deleteErrors + pending
  dry : opts.dryRun = true → report.deleted = 0
  real : opts.dryRun = false → report.wouldDelete = 0

section FirstPass

variable (opts : ReconcileOptions) (referenced : List Text) (now : SystemTime)

/-- The candidate that an entry of the snapshot becomes. -/
def candidate? (entry : BlobEntry) : Option Candidate :=
  if entry.key ∈ referenced then none
  else
    entry.lastModified.bind fun ts =>
      if opts.grace ≤ ageAt now ts then
        some ⟨entry.key, ts,
          match entry.generation with
          | some snapshotGen => .versioned snapshotGen
          | none => .versionless⟩
      else none

variable {opts referenced now} in
theorem candidate?_key {entry : BlobEntry} {c : Candidate}
    (h : candidate? opts referenced now entry = some c) : c.key = entry.key := by
  unfold candidate? at h
  split_ifs at h
  obtain ⟨ts, -, h⟩ := Option.bind_eq_some_iff.mp h
  split_ifs at h
  obtain rfl := Option.some.inj h
  rfl

/-- **One entry of the first pass**: the scan is left, the candidate is appended, the tally goes
one up. -/
theorem classifyEntry_spec {acc : ReconcileReport × List Candidate} {n : Nat}
    (h : Tallied acc.1 acc.2.length n) (entry : BlobEntry) :
    (classifyEntry opts referenced now acc entry).1.scanned = acc.1.scanned ∧
      (classifyEntry opts referenced now acc entry).2 =
        acc.2 ++ (candidate? opts referenced now entry).toList ∧
      Tallied (classifyEntry opts referenced now acc entry).1
        (classifyEntry opts referenced now acc entry).2.length (n + 1) := by
  obtain ⟨report, candidates⟩ := acc
  obtain ⟨hseen, horphaned, hdeleted, hwould, hrevalidated, herrors⟩ := h
  simp only at hseen horphaned
  simp only [classifyEntry, candidate?]
  split_ifs with hreferenced
  · exact ⟨rfl, by simp, by simp only; omega, horphaned, hdeleted, hwould, hrevalidated, herrors⟩
  cases entry.lastModified with
  | none =>
    refine ⟨rfl, by simp, by simp only; omega, ?_, hdeleted, hwould, hrevalidated, herrors⟩
    simp only
    omega
  | some ts =>
    simp only [Option.bind_some]
    split_ifs with hold
    · refine ⟨rfl, rfl, by simp only; omega, ?_, hdeleted, hwould, hrevalidated, herrors⟩
      simp only [List.length_append, List.length_singleton]
      omega
    · refine ⟨rfl, by simp, by simp only; omega, ?_, hdeleted, hwould, hrevalidated, herrors⟩
      simp only
      omega

theorem foldl_classifyEntry (stored : List BlobEntry) (acc : ReconcileReport × List Candidate)
    {n : Nat} (h : Tallied acc.1 acc.2.length n) :
    (stored.foldl (classifyEntry opts referenced now) acc).1.scanned = acc.1.scanned ∧
      (stored.foldl (classifyEntry opts referenced now) acc).2 =
        acc.2 ++ stored.filterMap (candidate? opts referenced now) ∧
      Tallied (stored.foldl (classifyEntry opts referenced now) acc).1
        (stored.foldl (classifyEntry opts referenced now) acc).2.length (n + stored.length) := by
  induction stored generalizing acc n with
  | nil => exact ⟨rfl, by simp, h⟩
  | cons entry rest ih =>
    obtain ⟨hscanned, hcandidates, htally⟩ := classifyEntry_spec opts referenced now h entry
    obtain ⟨hscanned', hcandidates', htally'⟩ := ih _ htally
    rw [List.foldl_cons]
    refine ⟨hscanned'.trans hscanned, ?_, ?_⟩
    · rw [hcandidates', hcandidates]
      cases hc : candidate? opts referenced now entry <;> simp [hc]
    · rw [List.length_cons, Nat.add_comm rest.length, ← Nat.add_assoc]
      exact htally'

/-- **The first pass** partitions the snapshot and keeps the candidates in its order. -/
theorem classifyAll_spec (stored : List BlobEntry) :
    (classifyAll opts referenced now stored).2 =
        stored.filterMap (candidate? opts referenced now) ∧
      (classifyAll opts referenced now stored).1.deleted = 0 ∧
      (classifyAll opts referenced now stored).1.wouldDelete = 0 ∧
      Balanced opts (classifyAll opts referenced now stored).1
        (classifyAll opts referenced now stored).2.length := by
  obtain ⟨hscanned, hcandidates, htally⟩ := foldl_classifyEntry opts referenced now stored
    ({ scanned := stored.length }, []) ⟨rfl, rfl, rfl, rfl, rfl, rfl⟩
  obtain ⟨hseen, horphaned, hdeleted, hwould, hrevalidated, herrors⟩ := htally
  refine ⟨hcandidates, hdeleted, hwould, ?_, ?_, fun _ => hdeleted, fun _ => hwould⟩
  · exact hscanned.trans (hseen.trans (Nat.zero_add _)).symm
  · unfold classifyAll
    omega

end FirstPass

/-! ## §2 The second pass under any answers -/

/-- An operation that removes stored bytes. -/
def Removes : GcOp → Prop
  | .store (.blobDelete _) => True
  | .deleteIfUnchanged _ _ => True
  | _ => False

/-- A query over the whole index or the whole blob store. -/
def Surveys : GcOp → Prop
  | .referencedBlobKeys => True
  | .list => True
  | _ => False

/-- A survey that was answered with an error. -/
inductive SurveyFailed : Event gcSig → Prop
  | referenced (e : SparqError) : SurveyFailed ⟨.referencedBlobKeys, .error e⟩
  | list (e : BlobError) : SurveyFailed ⟨.list, .error e⟩

variable {e : Event gcSig}

theorem SurveyFailed.surveys (h : SurveyFailed e) : Surveys e.op := by
  cases h <;> trivial

theorem not_removes_of_surveys {o : GcOp} (h : Surveys o) : ¬ Removes o := by
  cases o with
  | referencedBlobKeys | list => exact id
  | store | stat | deleteIfUnchanged => exact h.elim

/-- **The order of a sweep**: bytes are removed in a real run only, after surveys that all
succeeded, and no survey follows a removal. -/
def InOrder (opts : ReconcileOptions) (log : List (Event gcSig)) (o : GcOp) : Prop :=
  (Removes o → opts.dryRun = false ∧ ∀ e ∈ log, ¬ SurveyFailed e) ∧
    (Surveys o → ∀ e ∈ log, ¬ Removes e.op)

/-- The surveys of the log succeeded. -/
def Informed (log : List (Event gcSig)) : Prop := ∀ e ∈ log, ¬ SurveyFailed e

theorem Informed.concat {log : List (Event gcSig)} (h : Informed log) (he : ¬ SurveyFailed e) :
    Informed (log ++ [e]) := by
  intro d hd
  rcases List.mem_append.mp hd with hd | hd
  · exact h d hd
  · obtain rfl := List.mem_singleton.mp hd
    exact he

section SecondPass

variable {opts : ReconcileOptions} {now : SystemTime} {referencedFresh : List Text}
  {seen : List (Event gcSig)} {report : ReconcileReport} {pending : Nat}

theorem Balanced.revalidated (h : Balanced opts report (pending + 1)) :
    Balanced opts report.revalidated pending := by
  obtain ⟨hscanned, horphaned, hdry, hreal⟩ := h
  refine ⟨hscanned, ?_, hdry, hreal⟩
  simp only [ReconcileReport.revalidated]
  omega

theorem Balanced.failed (h : Balanced opts report (pending + 1)) :
    Balanced opts report.failed pending := by
  obtain ⟨hscanned, horphaned, hdry, hreal⟩ := h
  refine ⟨hscanned, ?_, hdry, hreal⟩
  simp only [ReconcileReport.failed]
  omega

theorem Balanced.reclaimed (h : Balanced opts report (pending + 1)) (hmode : opts.dryRun = false) :
    Balanced opts report.reclaimed pending := by
  obtain ⟨hscanned, horphaned, -, hreal⟩ := h
  refine ⟨hscanned, ?_, fun hdry => ?_, hreal⟩
  · simp only [ReconcileReport.reclaimed]
    omega
  · rw [hmode] at hdry
    cases hdry

theorem Balanced.predicted (h : Balanced opts report (pending + 1)) (hmode : opts.dryRun = true) :
    Balanced opts { report with wouldDelete := report.wouldDelete + 1 } pending := by
  obtain ⟨hscanned, horphaned, hdry, -⟩ := h
  refine ⟨hscanned, ?_, hdry, fun hreal => ?_⟩
  · simp only
    omega
  · rw [hmode] at hreal
    cases hreal

/-- What settling one candidate leaves: a report with one candidate fewer to settle. -/
def Accounts (opts : ReconcileOptions) (pending : Nat) (log : List (Event gcSig))
    (r : Except GcError ReconcileReport) : Prop :=
  Informed log ∧ ∃ report, r = .ok report ∧ Balanced opts report pending

theorem accounts_ret {log : List (Event gcSig)} (hlog : Informed log)
    (h : Balanced opts report pending) :
    Heeds (S := gcSig) (InOrder opts) log (pure report : Reconciler ReconcileReport)
      (Accounts opts pending) := ⟨hlog, report, rfl, h⟩

theorem accounts_carryOut (hseen : Informed seen) (hmode : opts.dryRun = false) (key : Text)
    (plan : DeletePlan) (h : Balanced opts report (pending + 1)) :
    Heeds (S := gcSig) (InOrder opts) seen (carryOut key plan report) (Accounts opts pending) := by
  cases plan with
  | skipRevalidated => exact accounts_ret hseen h.revalidated
  | deleteCas snapshotGen =>
    refine Heeds.call_bind ⟨fun _ => ⟨hmode, hseen⟩, fun hsurvey => hsurvey.elim⟩ fun r => ?_
    have hlog := hseen.concat (e := ⟨.deleteIfUnchanged key snapshotGen, r⟩) (by nofun)
    rcases r with _ | (_ | _)
    · exact accounts_ret hlog h.failed
    · exact accounts_ret hlog h.revalidated
    · exact accounts_ret hlog (h.reclaimed hmode)
  | deleteUnconditional =>
    refine Heeds.call_bind ⟨fun _ => ⟨hmode, hseen⟩, fun hsurvey => hsurvey.elim⟩ fun r => ?_
    have hlog := hseen.concat (e := ⟨.store (.blobDelete key), r⟩) (by nofun)
    rcases r with _ | _
    · exact accounts_ret hlog h.failed
    · exact accounts_ret hlog (h.reclaimed hmode)

theorem accounts_settle (hseen : Informed seen) (key : Text) (plan : DeletePlan)
    (h : Balanced opts report (pending + 1)) :
    Heeds (S := gcSig) (InOrder opts) seen (settle opts key plan report)
      (Accounts opts pending) := by
  cases hmode : opts.dryRun with
  | true =>
    cases plan with
    | skipRevalidated => exact accounts_ret hseen h.revalidated
    | deleteCas | deleteUnconditional =>
      simp only [settle, hmode]
      exact accounts_ret hseen (h.predicted hmode)
  | false =>
    cases plan with
    | skipRevalidated => exact accounts_ret hseen h.revalidated
    | deleteCas | deleteUnconditional =>
      simp only [settle, hmode, Bool.false_eq_true, if_false]
      exact accounts_carryOut hseen hmode key _ h

/-- **One candidate of the second pass** ends in exactly one counter. -/
theorem accounts_revalidate (hseen : Informed seen) (c : Candidate)
    (h : Balanced opts report (pending + 1)) :
    Heeds (S := gcSig) (InOrder opts) seen (revalidate opts now referencedFresh c report)
      (Accounts opts pending) := by
  unfold revalidate
  split_ifs
  · exact accounts_ret hseen h.revalidated
  refine Heeds.call_bind ⟨fun hremoves => hremoves.elim, fun hsurvey => hsurvey.elim⟩ fun r => ?_
  have hlog := hseen.concat (e := ⟨.stat c.key, r⟩) (by nofun)
  rcases r with e | (_ | ⟨key, lastModified, generation⟩)
  · exact accounts_ret hlog h.failed
  · exact accounts_ret hlog h.revalidated
  · cases lastModified with
    | none => exact accounts_ret hlog h.revalidated
    | some ts =>
      simp only
      split_ifs
      · exact accounts_ret hlog h.revalidated
      · exact accounts_settle hlog c.key _ h

/-- **The second pass** settles every candidate. -/
theorem accounts_revalidateAll (cs : List Candidate) (hseen : Informed seen)
    (h : Balanced opts report cs.length) :
    Heeds (S := gcSig) (InOrder opts) seen (revalidateAll opts now referencedFresh cs report)
      (Accounts opts 0) := by
  induction cs generalizing seen report with
  | nil => exact accounts_ret hseen h
  | cons c rest ih =>
    refine Heeds.bind (accounts_revalidate hseen c h) ?_ ?_
    · rintro log _ ⟨hlog, report', ⟨⟩, h'⟩
      exact ih hlog h'
    · rintro log _ ⟨-, _, ⟨⟩, -⟩

end SecondPass

theorem heeds_fetchReferenced {β : Type} {opts : ReconcileOptions} {seen : List (Event gcSig)}
    {f : List Text → Reconciler β} {Q : List (Event gcSig) → Except GcError β → Prop}
    (hseen : ∀ e ∈ seen, ¬ Removes e.op) (herror : ∀ log e, Q log (.error e))
    (h : ∀ keys, Heeds (S := gcSig) (InOrder opts) (seen ++ [⟨.referencedBlobKeys, .ok keys⟩])
      (f keys) Q) :
    Heeds (S := gcSig) (InOrder opts) seen (fetchReferenced >>= f) Q := by
  unfold fetchReferenced
  refine Heeds.call_bind ⟨fun hremoves => hremoves.elim, fun _ => hseen⟩ fun r => ?_
  cases r with
  | error e => exact herror _ _
  | ok keys => exact h keys

/-- **A sweep under any answers** keeps the order, and its report is a partition. -/
theorem heeds_reconcileOrphans (opts : ReconcileOptions) :
    Heeds (S := gcSig) (InOrder opts) [] (reconcileOrphans opts)
      fun _ r => ∀ report, r = .ok report → Balanced opts report 0 := by
  refine heeds_fetchReferenced (by simp) (by simp) fun referenced => ?_
  refine Heeds.call_bind ⟨fun hremoves => hremoves.elim, fun _ => by simp [Removes]⟩ fun r => ?_
  cases r with
  | error e => exact fun report h => by cases h
  | ok stored =>
    refine Heeds.call_bind ⟨fun hremoves => hremoves.elim, fun hsurvey => hsurvey.elim⟩ fun now => ?_
    obtain ⟨-, -, -, hbalanced⟩ := classifyAll_spec opts referenced now stored
    cases hclassified : classifyAll opts referenced now stored with
    | mk report candidates =>
      rw [hclassified] at hbalanced
      simp only
      split_ifs with hempty
      · rintro _ ⟨⟩
        rw [List.isEmpty_iff.mp hempty] at hbalanced
        exact hbalanced
      · refine heeds_fetchReferenced (by simp [Removes]) (by simp) fun keys => ?_
        refine (accounts_revalidateAll candidates ?_ hbalanced).mono ?_
        · intro e he
          simp only [List.cons_append, List.nil_append, List.mem_cons,
            List.not_mem_nil, or_false] at he
          rcases he with rfl | rfl | rfl | rfl <;> nofun
        · rintro log r ⟨-, report', rfl, h⟩ _ ⟨⟩
          exact h

/-- A failed survey leaves everything in place: there was no removal before it, and there is none
after it. -/
theorem removes_nothing_of_failed {opts : ReconcileOptions} {log : List (Event gcSig)}
    {q : Reconciler ReconcileReport} (hpath : Path (reconcileOrphans opts) log q) (he : e ∈ log)
    (hfailed : SurveyFailed e) : ∀ d ∈ log, ¬ Removes d.op := by
  have hheeds := heeds_reconcileOrphans opts
  obtain ⟨before, after, rfl⟩ := List.append_of_mem he
  intro d hd hremoves
  rcases List.mem_append.mp hd with hbefore | hd
  · exact (hheeds.op_on_path hpath).2 hfailed.surveys d (by simpa using hbefore) hremoves
  · rcases List.mem_cons.mp hd with rfl | hafter
    · exact not_removes_of_surveys hfailed.surveys hremoves
    · obtain ⟨between, rest, rfl⟩ := List.append_of_mem hafter
      have hsplit : before ++ e :: (between ++ d :: rest) =
          (before ++ e :: between) ++ d :: rest := by simp
      rw [hsplit] at hpath
      exact ((hheeds.op_on_path hpath).1 hremoves).2 e (by simp) hfailed

/-! ## §3 A store at rest -/

/-- No call of a sweep fails. -/
structure Faultless (w : TimedWorld) : Prop where
  referenced : w.sweepFaults.referenced = none
  list : w.sweepFaults.list = none
  stat : ∀ key, w.sweepFaults.stat key = none
  deleteIfUnchanged : ∀ key, w.sweepFaults.deleteIfUnchanged key = none
  blobDelete : ∀ key, w.store.faults.blobDelete key = none

namespace ReconcileOptions

def dry (opts : ReconcileOptions) : ReconcileOptions := { opts with dryRun := true }

def real (opts : ReconcileOptions) : ReconcileOptions := { opts with dryRun := false }

end ReconcileOptions

namespace TimedWorld

/-- The keys of the index. -/
def referencedKeys (w : TimedWorld) : List Text := w.store.backend.index.blobKeys

/-- What a listing answers. -/
def listing (w : TimedWorld) : List BlobEntry :=
  (w.reporting.arrange w.store.backend.blobs.keys).map w.entry

/-- The bytes under a key are gone. -/
def discard (w : TimedWorld) (key : Text) : TimedWorld :=
  { w with store := w.store.withBlobs (w.store.backend.blobs.erase key) }

def discardAll (w : TimedWorld) (keys : List Text) : TimedWorld := keys.foldl discard w

theorem blob?_discard (w : TimedWorld) (key k : Text) :
    (w.discard key).blob? k = if k = key then none else w.blob? k := by
  show (w.store.backend.blobs.erase key).lookup k = _
  split_ifs with h
  · rw [h]
    exact AList.lookup_erase _ _
  · exact AList.lookup_erase_ne h

theorem blob?_discardAll (w : TimedWorld) (keys : List Text) (k : Text) :
    (w.discardAll keys).blob? k = if k ∈ keys then none else w.blob? k := by
  induction keys generalizing w with
  | nil => simp [discardAll]
  | cons key rest ih =>
    show ((w.discard key).discardAll rest).blob? k = _
    rw [ih, blob?_discard]
    by_cases hkey : k = key <;> by_cases hrest : k ∈ rest <;> simp [hkey]

/-- Two worlds that differ at most in the stored bytes. -/
structure SameRecords (w w' : TimedWorld) : Prop where
  time : w'.time = w.time
  stamps : w'.stamps = w.stamps
  reporting : w'.reporting = w.reporting
  sweepFaults : w'.sweepFaults = w.sweepFaults
  faults : w'.store.faults = w.store.faults
  index : w'.store.backend.index = w.store.backend.index

theorem sameRecords_discardAll (w : TimedWorld) (keys : List Text) :
    SameRecords w (w.discardAll keys) := by
  induction keys generalizing w with
  | nil => exact ⟨rfl, rfl, rfl, rfl, rfl, rfl⟩
  | cons key rest ih =>
    -- what is left after one key differs from `w` in the bytes only
    obtain ⟨htime, hstamps, hreporting, hsweep, hfaults, hindex⟩ := ih (w.discard key)
    exact ⟨htime, hstamps, hreporting, hsweep, hfaults, hindex⟩

theorem SameRecords.entry {w w' : TimedWorld} (h : SameRecords w w') (key : Text) :
    w'.entry key = w.entry key := by
  unfold TimedWorld.entry
  rw [h.stamps, h.reporting]

theorem SameRecords.faultless {w w' : TimedWorld} (h : SameRecords w w') (hw : Faultless w) :
    Faultless w' := by
  obtain ⟨hreferenced, hlist, hstat, hcas, hdelete⟩ := hw
  rw [← h.sweepFaults] at hreferenced hlist hstat hcas
  rw [← h.faults] at hdelete
  exact ⟨hreferenced, hlist, hstat, hcas, hdelete⟩

end TimedWorld

section AtRest

open TimedWorld (SameRecords)

/-- The candidates of a sweep over a store at rest. -/
def candidatesOf (opts : ReconcileOptions) (w : TimedWorld) : List Candidate :=
  (classifyAll opts w.referencedKeys w.time w.listing).2

/-- The second pass of a dry run counts the candidate as one a real run would delete. -/
def predicts (opts : ReconcileOptions) (w : TimedWorld) (c : Candidate) : Bool :=
  match ((revalidate opts.dry w.time w.referencedKeys c {}).run TimedWorld.sem w).1 with
  | .ok report => report.wouldDelete == 1
  | .error _ => false

/-- **The keys a dry run would delete.** -/
def dryKeys (opts : ReconcileOptions) (w : TimedWorld) : List Text :=
  ((candidatesOf opts w).filter (predicts opts w)).map Candidate.key

variable {opts : ReconcileOptions} {w : TimedWorld} {c : Candidate}

/-- **What a candidate is**: stored, unreferenced, dated and old enough, with the stamp it has. -/
structure Condemnable (opts : ReconcileOptions) (w : TimedWorld) (c : Candidate) : Prop where
  stored : (w.blob? c.key).isSome
  unreferenced : c.key ∉ w.referencedKeys
  dated : (w.entry c.key).lastModified = some c.snapshotTs
  old : opts.grace ≤ ageAt w.time c.snapshotTs
  witness : c.witness = match (w.entry c.key).generation with
    | some snapshotGen => .versioned snapshotGen
    | none => .versionless

theorem candidatesOf_eq (opts : ReconcileOptions) (w : TimedWorld) :
    candidatesOf opts w = w.listing.filterMap (candidate? opts w.referencedKeys w.time) :=
  (classifyAll_spec opts w.referencedKeys w.time w.listing).1

theorem mem_listing {e : BlobEntry} :
    e ∈ w.listing ↔ ∃ key, (w.blob? key).isSome ∧ e = w.entry key := by
  have hkey : ∀ key, key ∈ w.reporting.arrange w.store.backend.blobs.keys ↔
      (w.blob? key).isSome := by
    intro key
    rw [(w.reporting.arrange_perm _).mem_iff]
    exact AList.mem_keys.trans AList.lookup_isSome.symm
  constructor
  · intro he
    obtain ⟨key, hmem, rfl⟩ := List.mem_map.mp he
    exact ⟨key, (hkey key).mp hmem, rfl⟩
  · rintro ⟨key, hstored, rfl⟩
    exact List.mem_map.mpr ⟨key, (hkey key).mpr hstored, rfl⟩

theorem mem_candidatesOf : c ∈ candidatesOf opts w ↔ Condemnable opts w c := by
  rw [candidatesOf_eq, List.mem_filterMap]
  constructor
  · rintro ⟨e, he, hc⟩
    obtain ⟨key, hstored, rfl⟩ := mem_listing.mp he
    unfold candidate? at hc
    split_ifs at hc with hreferenced
    obtain ⟨ts, hts, hc⟩ := Option.bind_eq_some_iff.mp hc
    split_ifs at hc with hold
    obtain rfl := Option.some.inj hc
    exact ⟨hstored, hreferenced, hts, hold, rfl⟩
  · rintro ⟨hstored, hreferenced, hts, hold, hwitness⟩
    refine ⟨w.entry c.key, mem_listing.mpr ⟨c.key, hstored, rfl⟩, ?_⟩
    have hunreferenced : (w.entry c.key).key ∉ w.referencedKeys := hreferenced
    unfold candidate?
    rw [if_neg hunreferenced, hts, Option.bind_some, if_pos hold, ← hwitness]
    rfl

theorem nodup_candidatesOf (opts : ReconcileOptions) (w : TimedWorld) :
    ((candidatesOf opts w).map Candidate.key).Nodup := by
  have hlisting : (w.listing.map BlobEntry.key).Nodup := by
    unfold TimedWorld.listing
    rw [List.map_map]
    refine Eq.mpr (congrArg List.Nodup (List.map_id'' (fun key => rfl) _)) ?_
    exact (w.reporting.arrange_perm _).nodup_iff.mpr (AList.keys_nodup _)
  rw [candidatesOf_eq]
  generalize w.listing = entries at hlisting
  induction entries with
  | nil => exact List.nodup_nil
  | cons e rest ih =>
    obtain ⟨hfresh, hrest⟩ := List.nodup_cons.mp hlisting
    cases hc : candidate? opts w.referencedKeys w.time e with
    | none =>
      rw [List.filterMap_cons_none hc]
      exact ih hrest
    | some c =>
      rw [List.filterMap_cons_some hc]
      refine List.nodup_cons.mpr ⟨fun hmem => hfresh ?_, ih hrest⟩
      obtain ⟨c', hc', hkey⟩ := List.mem_map.mp hmem
      obtain ⟨e', he', hsome⟩ := List.mem_filterMap.mp hc'
      rw [← candidate?_key hc, ← hkey, candidate?_key hsome]
      exact List.mem_map_of_mem he'

/-- The plan for a candidate that is looked at again as it was listed. -/
theorem deletePlan_unchanged (generation : Option Nat) :
    deletePlan
        (match generation with
          | some snapshotGen => .versioned snapshotGen
          | none => .versionless) generation =
      match generation with
      | some snapshotGen => .deleteCas snapshotGen
      | none => .deleteUnconditional := by
  cases generation with
  | none => rfl
  | some snapshotGen => simp [deletePlan]

theorem run_performGc_bind {β : Type} (o : GcOp) (f : o.Res → Reconciler β) (w : TimedWorld) :
    (performGc o >>= f).run TimedWorld.sem w =
      (f (TimedWorld.sem w o).1).run TimedWorld.sem (TimedWorld.sem w o).2 := rfl

variable {w' : TimedWorld}

/-- The second pass over a candidate whose bytes are still there settles it. -/
theorem run_revalidate (mode : ReconcileOptions) (hw : Faultless w) (hc : Condemnable opts w c)
    (hmode : mode.grace = opts.grace) (hsame : SameRecords w w')
    (hthere : w'.blob? c.key = w.blob? c.key) (report : ReconcileReport) :
    (revalidate mode w.time w.referencedKeys c report).run TimedWorld.sem w' =
      (settle mode c.key (deletePlan c.witness (w.entry c.key).generation) report).run
        TimedWorld.sem w' := by
  obtain ⟨body, hbody⟩ := Option.isSome_iff_exists.mp hc.stored
  have hstat : TimedWorld.sem w' (.stat c.key) = (.ok (some (w.entry c.key)), w') := by
    simp [TimedWorld.sem, (hsame.faultless hw).stat, hthere, hbody, hsame.entry]
  have hage : ¬ (c.snapshotTs < c.snapshotTs ∨ ageAt w.time c.snapshotTs < mode.grace) := by
    rw [hmode]
    exact not_or.mpr ⟨lt_irrefl _, not_lt.mpr hc.old⟩
  unfold revalidate
  rw [if_neg hc.unreferenced, run_performGc_bind, hstat]
  simp only [hc.dated, if_neg hage]

theorem run_revalidate_dry (hw : Faultless w) (hc : Condemnable opts w c) (report : ReconcileReport) :
    (revalidate opts.dry w.time w.referencedKeys c report).run TimedWorld.sem w =
      (.ok { report with wouldDelete := report.wouldDelete + 1 }, w) := by
  rw [run_revalidate opts.dry hw hc rfl ⟨rfl, rfl, rfl, rfl, rfl, rfl⟩ rfl, hc.witness, deletePlan_unchanged]
  cases (w.entry c.key).generation <;> rfl

/-- The generation that a listing reports is the one a compare-and-delete compares with. -/
theorem generation_of_entry {key : Text} {snapshotGen : Nat}
    (h : (w.entry key).generation = some snapshotGen) : (w.stamps key).generation = snapshotGen := by
  unfold TimedWorld.entry at h
  simp only at h
  split_ifs at h
  exact Option.some.inj h

theorem run_revalidate_real (hw : Faultless w) (hc : Condemnable opts w c)
    (hsame : SameRecords w w') (hthere : w'.blob? c.key = w.blob? c.key) (report : ReconcileReport)
    :
    (revalidate opts.real w.time w.referencedKeys c report).run TimedWorld.sem w' =
      (.ok report.reclaimed, w'.discard c.key) := by
  have hw' := hsame.faultless hw
  rw [run_revalidate opts.real hw hc rfl hsame hthere, hc.witness, deletePlan_unchanged]
  cases hgeneration : (w.entry c.key).generation with
  | none =>
    have hdelete : TimedWorld.sem w' (.store (.blobDelete c.key)) = (.ok (), w'.discard c.key) := by
      simp [TimedWorld.sem, World.sem, hw'.blobDelete, TimedWorld.discard]
    show (carryOut c.key .deleteUnconditional report).run TimedWorld.sem w' = _
    unfold carryOut
    rw [run_performGc_bind, hdelete]
    rfl
  | some snapshotGen =>
    have hstored : (w'.blob? c.key).isSome := by
      rw [hthere]
      exact hc.stored
    have hstamp : (w'.stamps c.key).generation = snapshotGen := by
      rw [hsame.stamps]
      exact generation_of_entry hgeneration
    have hdelete : TimedWorld.sem w' (.deleteIfUnchanged c.key snapshotGen) =
        (.ok true, w'.discard c.key) := by
      simp [TimedWorld.sem, hw'.deleteIfUnchanged, TimedWorld.discard, hstored, hstamp]
    show (carryOut c.key (.deleteCas snapshotGen) report).run TimedWorld.sem w' = _
    unfold carryOut
    rw [run_performGc_bind, hdelete]
    rfl

/-- **The keys a dry run would delete** are the keys of the candidates. -/
theorem dryKeys_eq (hw : Faultless w) :
    dryKeys opts w = (candidatesOf opts w).map Candidate.key := by
  unfold dryKeys
  rw [List.filter_eq_self.mpr]
  intro c hc
  unfold predicts
  rw [run_revalidate_dry hw (mem_candidatesOf.mp hc)]
  rfl

theorem run_revalidateAll_dry (hw : Faultless w) (cs : List Candidate)
    (hcs : ∀ c ∈ cs, Condemnable opts w c) (report : ReconcileReport) :
    (revalidateAll opts.dry w.time w.referencedKeys cs report).run TimedWorld.sem w =
      (.ok { report with wouldDelete := report.wouldDelete + cs.length }, w) := by
  induction cs generalizing report with
  | nil => rfl
  | cons c rest ih =>
    obtain ⟨hc, hrest⟩ := List.forall_mem_cons.mp hcs
    unfold revalidateAll
    rw [Program.run_bind, run_revalidate_dry hw hc]
    simp only
    rw [ih hrest, List.length_cons, Nat.add_assoc, Nat.add_comm 1]

theorem run_revalidateAll_real (hw : Faultless w) (cs : List Candidate)
    (hcs : ∀ c ∈ cs, Condemnable opts w c) (hnodup : (cs.map Candidate.key).Nodup)
    (hsame : SameRecords w w') (hthere : ∀ c ∈ cs, w'.blob? c.key = w.blob? c.key)
    (report : ReconcileReport) :
    (revalidateAll opts.real w.time w.referencedKeys cs report).run TimedWorld.sem w' =
      (.ok { report with deleted := report.deleted + cs.length },
        w'.discardAll (cs.map Candidate.key)) := by
  induction cs generalizing report w' with
  | nil => rfl
  | cons c rest ih =>
    obtain ⟨hc, hrest⟩ := List.forall_mem_cons.mp hcs
    obtain ⟨hcthere, hrestthere⟩ := List.forall_mem_cons.mp hthere
    obtain ⟨hfresh, hnodup⟩ := List.nodup_cons.mp hnodup
    -- the other candidates have other keys, so their bytes are still there
    have hkept : ∀ d ∈ rest, (w'.discard c.key).blob? d.key = w.blob? d.key := by
      intro d hd
      have hne : d.key ≠ c.key := by
        rintro heq
        exact hfresh (List.mem_map.mpr ⟨d, hd, heq⟩)
      rw [TimedWorld.blob?_discard, if_neg hne]
      exact hrestthere d hd
    have hsame' : SameRecords w (w'.discard c.key) :=
      ⟨hsame.time, hsame.stamps, hsame.reporting, hsame.sweepFaults, hsame.faults, hsame.index⟩
    unfold revalidateAll
    rw [Program.run_bind, run_revalidate_real hw hc hsame hcthere]
    simp only
    rw [ih hrest hnodup hsame' hkept]
    simp only [ReconcileReport.reclaimed, Nat.add_assoc, Nat.add_comm 1]
    rfl

theorem run_fetchReferenced (hw : Faultless w) :
    fetchReferenced.run TimedWorld.sem w = (.ok w.referencedKeys, w) := by
  have hanswer : TimedWorld.sem w .referencedBlobKeys = (.ok w.referencedKeys, w) := by
    simp only [TimedWorld.sem, hw.referenced]
    rfl
  unfold fetchReferenced
  rw [run_performGc_bind, hanswer]
  rfl

/-- **A sweep of a store at rest** is its second pass over the candidates. -/
theorem run_reconcileOrphans (hw : Faultless w) :
    (reconcileOrphans opts).run TimedWorld.sem w =
      (revalidateAll opts w.time w.referencedKeys (candidatesOf opts w)
        (classifyAll opts w.referencedKeys w.time w.listing).1).run TimedWorld.sem w := by
  have hlist : TimedWorld.sem w .list = (.ok w.listing, w) := by
    simp only [TimedWorld.sem, hw.list]
    rfl
  unfold reconcileOrphans candidatesOf
  rw [Program.run_bind, run_fetchReferenced hw]
  simp only
  rw [run_performGc_bind, hlist]
  rw [run_performGc_bind]
  have hnow : TimedWorld.sem w (.store .now) = (w.time, w) := rfl
  rw [hnow]
  split_ifs with hempty
  · rw [List.isEmpty_iff.mp hempty]
    rfl
  · rw [Program.run_bind, run_fetchReferenced hw]

/-- **A dry run** of a store at rest changes nothing and counts `dryKeys`. -/
theorem run_dry (hw : Faultless w) : ∃ report,
    (reconcileOrphans opts.dry).run TimedWorld.sem w = (.ok report, w) ∧
      report.wouldDelete = (dryKeys opts w).length := by
  have hcandidates : candidatesOf opts.dry w = candidatesOf opts w := rfl
  obtain ⟨-, -, hwould, -⟩ := classifyAll_spec opts.dry w.referencedKeys w.time w.listing
  have hrun := run_revalidateAll_dry hw (candidatesOf opts w)
    (fun c hc => mem_candidatesOf.mp hc) (classifyAll opts.dry w.referencedKeys w.time w.listing).1
  rw [← hcandidates, ← run_reconcileOrphans hw] at hrun
  refine ⟨_, hrun, ?_⟩
  rw [dryKeys_eq hw, List.length_map]
  simp only [hwould, Nat.zero_add, hcandidates]

/-- **A real run** of a store at rest deletes `dryKeys`. -/
theorem run_real (hw : Faultless w) : ∃ report,
    (reconcileOrphans opts.real).run TimedWorld.sem w =
        (.ok report, w.discardAll (dryKeys opts w)) ∧
      report.deleted = (dryKeys opts w).length := by
  have hcandidates : candidatesOf opts.real w = candidatesOf opts w := rfl
  obtain ⟨-, hdeleted, -, -⟩ := classifyAll_spec opts.real w.referencedKeys w.time w.listing
  have hrun := run_revalidateAll_real hw (candidatesOf opts w)
    (fun c hc => mem_candidatesOf.mp hc) (nodup_candidatesOf opts w)
    ⟨rfl, rfl, rfl, rfl, rfl, rfl⟩ (fun _ _ => rfl)
    (classifyAll opts.real w.referencedKeys w.time w.listing).1
  rw [← dryKeys_eq hw, ← hcandidates, ← run_reconcileOrphans hw] at hrun
  refine ⟨_, hrun, ?_⟩
  rw [dryKeys_eq hw, List.length_map]
  simp only [hdeleted, Nat.zero_add, hcandidates]

/-- What a real run leaves has no candidate. -/
theorem dryKeys_discardAll (hw : Faultless w) :
    dryKeys opts (w.discardAll (dryKeys opts w)) = [] := by
  have hsame := TimedWorld.sameRecords_discardAll w (dryKeys opts w)
  rw [dryKeys_eq (hsame.faultless hw), List.map_eq_nil_iff, List.eq_nil_iff_forall_not_mem]
  intro c hc
  obtain ⟨hstored, hreferenced, hdated, hold, hwitness⟩ := mem_candidatesOf.mp hc
  -- such a candidate would have been one before, and its bytes are gone
  rw [TimedWorld.blob?_discardAll] at hstored
  split_ifs at hstored with hmem
  · cases hstored
  refine hmem ?_
  rw [hsame.entry] at hdated hwitness
  rw [hsame.time] at hold
  have hreferenced' : c.key ∉ w.referencedKeys := by
    unfold TimedWorld.referencedKeys at hreferenced ⊢
    rwa [hsame.index] at hreferenced
  rw [dryKeys_eq hw]
  exact List.mem_map_of_mem (mem_candidatesOf.mpr ⟨hstored, hreferenced', hdated, hold, hwitness⟩)

theorem stored_of_mem_dryKeys (hw : Faultless w) {key : Text} (h : key ∈ dryKeys opts w) :
    (w.blob? key).isSome := by
  rw [dryKeys_eq hw] at h
  obtain ⟨c, hc, rfl⟩ := List.mem_map.mp h
  exact (mem_candidatesOf.mp hc).stored

end AtRest

/-! ## §4 The report -/

/-- **Report and dry run.**  Whatever the backends answer, the report is a partition and a
failed survey deletes nothing; on a store at rest a dry run predicts a real one, and a second
real run finds nothing to delete. -/
theorem reconcile_report (opts : ReconcileOptions) :
    (∀ log report, Path (reconcileOrphans opts) log (.ret (.ok report)) →
      report.scanned = report.referenced + report.orphaned ∧
      report.orphaned = report.deleted + report.wouldDelete + report.tooYoung +
        report.skippedUnknownAge + report.skippedRevalidated + report.deleteErrors ∧
      (opts.dryRun = true → report.deleted = 0) ∧
      (opts.dryRun = false → report.wouldDelete = 0)) ∧
    (∀ log q, Path (reconcileOrphans opts) log q → (∃ e ∈ log, SurveyFailed e) →
      ∀ e ∈ log, ¬ Removes e.op) ∧
    (∀ w, Faultless w → ∃ predicted first second w',
      (reconcileOrphans opts.dry).run TimedWorld.sem w = (.ok predicted, w) ∧
      predicted.wouldDelete = (dryKeys opts w).length ∧
      (reconcileOrphans opts.real).run TimedWorld.sem w = (.ok first, w') ∧
      first.deleted = (dryKeys opts w).length ∧
      (∀ key, key ∈ dryKeys opts w ↔ (w.blob? key).isSome ∧ w'.blob? key = none) ∧
      (∀ key, key ∉ dryKeys opts w → w'.blob? key = w.blob? key) ∧
      (reconcileOrphans opts.real).run TimedWorld.sem w' = (.ok second, w') ∧
      second.deleted = 0) := by
  refine ⟨fun log report hpath => ?_, fun log q hpath hfailed => ?_, fun w hw => ?_⟩
  · obtain ⟨hscanned, horphaned, hdry, hreal⟩ :=
      (heeds_reconcileOrphans opts).of_path hpath report rfl
    exact ⟨hscanned, horphaned, hdry, hreal⟩
  · obtain ⟨e, he, hfailed⟩ := hfailed
    exact removes_nothing_of_failed hpath he hfailed
  · have hw' := (TimedWorld.sameRecords_discardAll w (dryKeys opts w)).faultless hw
    obtain ⟨predicted, hdryrun, hpredicted⟩ := run_dry hw
    obtain ⟨first, hfirstrun, hfirst⟩ := run_real hw
    obtain ⟨second, hsecondrun, hsecond⟩ := run_real hw'
    rw [dryKeys_discardAll hw] at hsecondrun hsecond
    refine ⟨predicted, first, second, _, hdryrun, hpredicted, hfirstrun, hfirst, ?_, ?_,
      hsecondrun, hsecond⟩
    · intro key
      rw [TimedWorld.blob?_discardAll]
      constructor
      · intro hmem
        exact ⟨stored_of_mem_dryKeys hw hmem, if_pos hmem⟩
      · rintro ⟨hstored, hgone⟩
        split_ifs at hgone with hmem
        · exact hmem
        · rw [hgone] at hstored
          cases hstored
    · intro key hmem
      rw [TimedWorld.blob?_discardAll, if_neg hmem]

end SolidServer.Store
