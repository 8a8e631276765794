import SolidServer.Ldp.Commit
import SolidServer.Ldp.Frame

/-!
# Concurrent conditional writes

Any number of `PUT`, `PATCH` and `DELETE` requests on one target, interleaved step by
step.  The check of a precondition and the commit are different steps of a request, with
steps of other requests in between, and the commit does not look at the record again.

* `precondition_at_commit`: as long as no other request changes the record between a
  request's lookups of it and its commit, a precondition that was checked still holds at
  the commit; of requests that exclude each other at most one then succeeds.
* `both_created`: without that, two `If-None-Match: *` creations both answer 201.
-/

namespace SolidServer.Ldp.LdpState

open SolidServer.Effects SolidServer.Store SolidServer.Authz

/-! ## §1 Lookups and commits of a run -/

section
variable {ι : Type} [DecidableEq ι]

/-- The move is a commit of request `i` to the record of the IRI. -/
def CommitsAt (i : ι) (iri : Iri) (m : Move ι storeSig World) : Prop :=
  ∃ e, m.eventOf World.sem i = some e ∧ commits iri e = true

/-- The move leaves the record of the IRI as it is. -/
def Leaves (iri : Iri) (m : Move ι storeSig World) : Prop :=
  m.after.backend.index.meta? iri = m.before.backend.index.meta? iri

/-- **Undisturbed**: between a lookup of the record by request `i` and a commit of `i` to it, no
other request changes the record. -/
def Undisturbed (iri : Iri) (tr : List (Move ι storeSig World)) (i : ι) : Prop :=
  ∀ a m b, [a, m, b].Sublist tr → a.actor = some (i, .getMeta iri) → CommitsAt i iri b →
    (∀ o, m.actor ≠ some (i, o)) → Leaves iri m

/-- What happens besides the requests: anything that does not concern the record. -/
def Elsewhere (iri : Iri) (w w' : World) : Prop :=
  w'.backend.index.meta? iri = w.backend.index.meta? iri

/-- The entity tag of the record of an IRI. -/
def currentTag (w : World) (iri : Iri) : Option Text :=
  (w.backend.index.meta? iri).map ResourceMeta.etag

variable {γ : ι → Type} {P P' : (i : ι) → Server (γ i)} {w v : World} {iri : Iri}
  {tr : List (Move ι storeSig World)}

/-- A move that is no commit of a request leaves the record. -/
theorem leaves_of_not_commitsAt (hrun : Interleaves World.sem (Elsewhere iri) P w tr P' v)
    {m : Move ι storeSig World} (hm : m ∈ tr) (hc : ∀ k, ¬ CommitsAt k iri m) : Leaves iri m := by
  rcases hrun.move_cases hm with ⟨k, o, hactor, hafter⟩ | ⟨-, helse⟩
  · unfold Leaves
    rw [hafter]
    apply meta?_of_not_commits
    rw [Bool.eq_false_iff]
    intro hcommit
    exact hc k ⟨⟨o, (World.sem m.before o).1⟩, by simp [Move.eventOf, hactor], hcommit⟩
  · exact helse

/-- What a commit leaves behind. -/
theorem CommitsAt.after (hrun : Interleaves World.sem (Elsewhere iri) P w tr P' v)
    {m : Move ι storeSig World} (hm : m ∈ tr) {i : ι} (hc : CommitsAt i iri m) :
    ∃ e, m.eventOf World.sem i = some e ∧ commits iri e = true ∧
      m.after.backend.index.meta? iri = committed e.op := by
  obtain ⟨e, he, hcommit⟩ := hc
  obtain ⟨hactor, hanswer⟩ := Move.eventOf_eq_some he
  refine ⟨e, he, hcommit, ?_⟩
  rw [hrun.after_eq hm hactor]
  apply meta?_of_commits
  rwa [← hanswer]

/-- A later part of a run lies between two moves. -/
theorem sublist_between {M : Type} {t₁ t₂ t₃ : List M} {a m b : M} (hm : m ∈ t₂) :
    [a, m, b].Sublist (t₁ ++ a :: (t₂ ++ b :: t₃)) := by
  refine List.Sublist.trans ?_ (List.sublist_append_right t₁ _)
  refine List.Sublist.cons_cons a ?_
  exact (List.singleton_sublist.mpr hm).append (List.Sublist.cons_cons b (List.nil_sublist t₃))

/-- The events of a part of a run that has no commit of `i`. -/
theorem not_commitsAt_of_events {t : List (Move ι storeSig World)} {i : ι}
    (h : ∀ e ∈ ownEvents World.sem i t, commits iri e = false) :
    ∀ m ∈ t, ¬ CommitsAt i iri m := by
  rintro m hm ⟨e, he, hc⟩
  rw [h e (List.mem_filterMap.mpr ⟨m, hm, he⟩)] at hc
  cases hc

/-- Where in the run request `i` looked the record up, and where it committed first. -/
theorem Decided.located {i : ι} {headers : HeaderMap}
    (hlog : Decided headers iri (ownEvents World.sem i tr)) :
    ∃ t₁ a t₂ b t₃, tr = t₁ ++ a :: (t₂ ++ b :: t₃) ∧ a.actor = some (i, .getMeta iri) ∧
      CommitsAt i iri b ∧ (∀ m ∈ t₁ ++ a :: t₂, ¬ CommitsAt i iri m) ∧
      checkPreconditions headers (currentTag a.before iri) = .ok () := by
  obtain ⟨l₁, e, found, l₂, hown, hprobe, hquiet, hpre, hcommits⟩ := hlog
  obtain ⟨c, hfind⟩ := Option.isSome_iff_exists.mp (List.find?_isSome.mpr hcommits)
  obtain ⟨hc, x, y, rfl, hx⟩ := List.find?_eq_some_iff_append.mp hfind
  obtain ⟨t₁, a, u, rfl, ht₁, ha, hu⟩ := ownEvents_split hown
  obtain ⟨t₂, b, t₃, rfl, ht₂, hb, -⟩ := ownEvents_split hu
  obtain ⟨hactor, hanswer⟩ := Move.eventOf_eq_some ha
  obtain ⟨hop, hfound⟩ := meta?_of_probeOf hprobe hanswer
  refine ⟨t₁, a, t₂, b, t₃, rfl, by rw [hactor, hop], ⟨c, hb, hc⟩, ?_, ?_⟩
  · apply not_commitsAt_of_events
    intro e' he'
    have hsplit : ownEvents World.sem i (t₁ ++ a :: t₂) = l₁ ++ e :: x := by
      simp only [ownEvents, List.filterMap_append, List.filterMap_cons, ha]
      rw [← ownEvents, ← ownEvents, ht₁, ht₂]
    rw [hsplit] at he'
    rcases List.mem_append.mp he' with he' | he'
    · exact hquiet e' he'
    · rcases List.mem_cons.mp he' with rfl | he'
      · exact commits_of_reads (by rw [hop]; trivial)
      · simpa using hx e' he'
  · unfold currentTag
    rw [hfound]
    exact hpre

/-- Up to its first commit an undisturbed request meets the record it looked up. -/
theorem undisturbed_between (hrun : Interleaves World.sem (Elsewhere iri) P w tr P' v) {i : ι}
    (hi : Undisturbed iri tr i) {t₁ t₂ t₃ : List (Move ι storeSig World)}
    {a b : Move ι storeSig World} (htr : tr = t₁ ++ a :: (t₂ ++ b :: t₃))
    (ha : a.actor = some (i, .getMeta iri)) (hb : CommitsAt i iri b)
    (hfirst : ∀ m ∈ t₁ ++ a :: t₂, ¬ CommitsAt i iri m) :
    b.before.backend.index.meta? iri = a.before.backend.index.meta? iri := by
  have hown : ∀ m ∈ a :: t₂, (∃ o, m.actor = some (i, o)) → Leaves iri m := by
    rintro m hm ⟨o, ho⟩
    have hmem : m ∈ tr := by
      rw [htr]
      exact List.mem_append_right _ (List.cons_sublist_cons.mpr (List.sublist_append_left t₂ _)
        |>.mem hm)
    refine leaves_of_not_commitsAt hrun hmem fun k hk => ?_
    obtain ⟨e, he, -⟩ := id hk
    obtain ⟨rfl, -⟩ := Prod.mk.inj (Option.some.inj ((Move.eventOf_eq_some he).1.symm.trans ho))
    exact hfirst m (List.mem_append_right _ hm) hk
  have hleaves : ∀ m ∈ t₂, Leaves iri m := by
    intro m hm
    by_cases hm' : ∃ o, m.actor = some (i, o)
    · exact hown m (List.mem_cons_of_mem _ hm) hm'
    · exact hi a m b (htr ▸ sublist_between hm) ha hb fun o ho => hm' ⟨o, ho⟩
  exact hrun.keeps_between (fun u : World => u.backend.index.meta? iri = _) htr
    (fun m hm _ h => (hleaves m hm).trans h) (hown a List.mem_cons_self ⟨_, ha⟩)

/-- **A precondition that was checked holds at the commit** of an undisturbed request. -/
theorem checked_at_commit (hrun : Interleaves World.sem (Elsewhere iri) P w tr P' v) {i : ι}
    {headers : HeaderMap} (hi : Undisturbed iri tr i)
    (hlog : Decided headers iri (ownEvents World.sem i tr)) :
    ∃ t₁ b t₂, tr = t₁ ++ b :: t₂ ∧ CommitsAt i iri b ∧ (∀ m ∈ t₁, ¬ CommitsAt i iri m) ∧
      checkPreconditions headers (currentTag b.before iri) = .ok () := by
  obtain ⟨t₁, a, t₂, b, t₃, htr, ha, hb, hfirst, hpre⟩ := hlog.located
  refine ⟨t₁ ++ a :: t₂, b, t₃, by simp [htr], hb, hfirst, ?_⟩
  have hsame := undisturbed_between hrun hi htr ha hb hfirst
  unfold currentTag at hpre ⊢
  rw [hsame]
  exact hpre

/-- **Exclusion**: if every commit ends a condition for good, at most one request commits first
where the condition holds. -/
theorem commit_unique (hrun : Interleaves World.sem (Elsewhere iri) P w tr P' v)
    (I : World → Prop) (hends : ∀ m ∈ tr, ∀ k, CommitsAt k iri m → ¬ I m.after)
    (hlocal : ∀ a b : World, b.backend.index.meta? iri = a.backend.index.meta? iri →
      I b → I a) {i j : ι} {t₁ t₂ u₁ u₂ : List (Move ι storeSig World)}
    {b c : Move ι storeSig World} (hb : tr = t₁ ++ b :: t₂) (hbi : CommitsAt i iri b)
    (hIb : I b.before) (hc : tr = u₁ ++ c :: u₂) (hcj : CommitsAt j iri c) (hIc : I c.before) :
    i = j := by
  have hkeep : ∀ m ∈ tr, ¬ I m.before → ¬ I m.after := by
    intro m hm hnot hI
    by_cases hk : ∃ k, CommitsAt k iri m
    · obtain ⟨k, hk⟩ := hk
      exact hends m hm k hk hI
    · exact hnot (hlocal _ _ (leaves_of_not_commitsAt hrun hm fun k h => hk ⟨k, h⟩) hI)
  -- a commit is not followed by another one that finds the condition
  have hlater : ∀ {k : ι} {p d : Move ι storeSig World} {x y z : List (Move ι storeSig World)},
      tr = x ++ p :: (y ++ d :: z) → CommitsAt k iri p → ¬ I d.before := by
    intro k p d x y z htr hp
    have hpmem : p ∈ tr := by rw [htr]; simp
    exact hrun.keeps_between (fun u => ¬ I u) htr (fun m _ hm => hkeep m hm) (hends p hpmem k hp)
  have hmem : b ∈ tr ∧ c ∈ tr := ⟨by rw [hb]; simp, by rw [hc]; simp⟩
  rcases first_of_two hmem.1 hmem.2 with rfl | ⟨x, y, z, htr⟩ | ⟨x, y, z, htr⟩
  · obtain ⟨e, he, -⟩ := hbi
    obtain ⟨f, hf, -⟩ := hcj
    exact (Move.eventOf_unique he hf).1
  · exact absurd hIc (hlater htr hbi)
  · exact absurd hIb (hlater htr hcj)

end

/-! ## §2 Conditional writes -/

theorem evaluate_of_check {h : HeaderMap} {current : Option Text}
    (hok : checkPreconditions h current = .ok ()) :
    evaluate (headerStr h .ifMatch) (headerStr h .ifNoneMatch) current = .proceed := by
  unfold checkPreconditions at hok
  cases he : evaluate (headerStr h .ifMatch) (headerStr h .ifNoneMatch) current with
  | proceed => rfl
  | failed =>
    rw [he] at hok
    cases hok

theorem selects_of_proceed {im : Text} {inm current : Option Text}
    (h : evaluate (some im) inm current = .proceed) :
    selects im current InboundTag.matchesStrongState = true := by
  cases hs : selects im current InboundTag.matchesStrongState with
  | true => rfl
  | false => simp [evaluate, hs] at h

theorem absent_of_proceed {inm : Text} {im current : Option Text} (hstar : isWildcard inm = true)
    (h : evaluate im (some inm) current = .proceed) : current = none := by
  cases current with
  | none => rfl
  | some cur =>
    simp only [evaluate, selects, hstar, if_true, Option.isSome_some] at h
    split_ifs at h

/-- **Conditional writes are atomic in undisturbed runs.**  Let any number of `PUT`, `PATCH` and
`DELETE` requests on one target run side by side, and let no request's lookup of the record and
commit to it be separated by another request's change of the record.  Then every request that
succeeds committed where its preconditions hold.  Of requests with one `If-Match` value, where
every record committed has another tag, at most one succeeds; and of `If-None-Match: *` writes,
where no request deletes, at most one. -/
theorem precondition_at_commit (s : LdpState) {ι : Type} [DecidableEq ι] (reqs : ι → Request)
    (target : LdpTarget) {w v : World} {tr : List (Move ι storeSig World)}
    {P' : ι → Server Response}
    (hmethod : ∀ i, (reqs i).method = .put ∨ (reqs i).method = .patch ∨ (reqs i).method = .delete)
    (hparse : ∀ i, parseTarget s.baseUrl (reqs i).path = .ok target)
    (hrun : Interleaves World.sem (Elsewhere target.iri) (fun i => s.serve (reqs i)) w tr P' v)
    (hquiet : ∀ i, Undisturbed target.iri tr i) :
    (∀ i resp, P' i = .ret (.ok resp) →
      ∃ t₁ b t₂, tr = t₁ ++ b :: t₂ ∧ CommitsAt i target.iri b ∧
        (∀ m ∈ t₁, ¬ CommitsAt i target.iri m) ∧
        evaluate (headerStr (reqs i).headers .ifMatch) (headerStr (reqs i).headers .ifNoneMatch)
          (currentTag b.before target.iri) = .proceed) ∧
    (∀ value, (∀ m ∈ tr, ∀ k, CommitsAt k target.iri m →
        selects value (currentTag m.after target.iri) InboundTag.matchesStrongState = false) →
      ∀ i j resp resp', headerStr (reqs i).headers .ifMatch = some value →
        headerStr (reqs j).headers .ifMatch = some value →
        P' i = .ret (.ok resp) → P' j = .ret (.ok resp') → i = j) ∧
    ((∀ i, (reqs i).method ≠ .delete) →
      ∀ i j resp resp' star star', headerStr (reqs i).headers .ifNoneMatch = some star →
        headerStr (reqs j).headers .ifNoneMatch = some star' →
        isWildcard star = true → isWildcard star' = true →
        P' i = .ret (.ok resp) → P' j = .ret (.ok resp') → i = j) := by
  have hcommit : ∀ i resp, P' i = .ret (.ok resp) →
      ∃ t₁ b t₂, tr = t₁ ++ b :: t₂ ∧ CommitsAt i target.iri b ∧
        (∀ m ∈ t₁, ¬ CommitsAt i target.iri m) ∧
        evaluate (headerStr (reqs i).headers .ifMatch) (headerStr (reqs i).headers .ifNoneMatch)
          (currentTag b.before target.iri) = .proceed := by
    intro i resp hdone
    have hpath := hrun.path i
    rw [hdone] at hpath
    have hlog := (decided_serve (hmethod i) (hparse i)).of_path hpath (fun _ _ => trivial) resp rfl
    obtain ⟨t₁, b, t₂, htr, hb, hfirst, hpre⟩ := checked_at_commit hrun (hquiet i) hlog
    exact ⟨t₁, b, t₂, htr, hb, hfirst, evaluate_of_check hpre⟩
  refine ⟨hcommit, ?_, ?_⟩
  · intro value hother i j resp resp' hi hj hdi hdj
    obtain ⟨t₁, b, t₂, htr, hb, -, hpre⟩ := hcommit i resp hdi
    obtain ⟨u₁, c, u₂, htr', hc, -, hpre'⟩ := hcommit j resp' hdj
    rw [hi] at hpre
    rw [hj] at hpre'
    refine commit_unique hrun (fun u => selects value (currentTag u target.iri)
      InboundTag.matchesStrongState = true) ?_ ?_ htr hb (selects_of_proceed hpre) htr' hc
      (selects_of_proceed hpre')
    · intro m hm k hk
      simp [hother m hm k hk]
    · intro x y hsame hy
      rwa [currentTag, ← hsame]
  · intro hnodel i j resp resp' star star' hi hj hstar hstar' hdi hdj
    obtain ⟨t₁, b, t₂, htr, hb, -, hpre⟩ := hcommit i resp hdi
    obtain ⟨u₁, c, u₂, htr', hc, -, hpre'⟩ := hcommit j resp' hdj
    rw [hi] at hpre
    rw [hj] at hpre'
    refine commit_unique hrun (fun u => currentTag u target.iri = none) ?_ ?_ htr hb
      (absent_of_proceed hstar hpre) htr' hc (absent_of_proceed hstar' hpre')
    · intro m hm k hk
      -- a commit that removes nothing leaves a record
      obtain ⟨e, he, hcommits, hafter⟩ := hk.after hrun hm
      have hput : (reqs k).method = .put ∨ (reqs k).method = .patch := by
        rcases hmethod k with h | h | h
        · exact .inl h
        · exact .inr h
        · exact absurd h (hnodel k)
      have hretains := (hrun.path k).uses (retains_serve hput) e
        (List.mem_filterMap.mpr ⟨m, hm, he⟩)
      unfold currentTag
      rw [hafter, Option.map_eq_none_iff, ← Option.not_isSome_iff_eq_none, not_not]
      exact committed_isSome hcommits hretains
    · intro x y hsame hy
      rwa [currentTag, ← hsame]

/-! ## §3 Two creations -/

/-- Requests that run one after the other are undisturbed. -/
theorem undisturbed_in_turn {ι : Type} [DecidableEq ι] (iri : Iri) {i j : ι} (hij : i ≠ j)
    {t u : List (Move ι storeSig World)} (ht : ∀ m ∈ t, ∃ o, m.actor = some (i, o))
    (hu : ∀ m ∈ u, ∃ o, m.actor = some (j, o)) :
    Undisturbed iri (t ++ u) i ∧ Undisturbed iri (t ++ u) j := by
  have hapart : ∀ m, m ∈ t → ∀ o, m.actor ≠ some (j, o) := by
    intro m hm o ho
    obtain ⟨o', ho'⟩ := ht m hm
    exact hij (Prod.mk.inj (Option.some.inj (ho'.symm.trans ho))).1
  have hapart' : ∀ m, m ∈ u → ∀ o, m.actor ≠ some (i, o) := by
    intro m hm o ho
    obtain ⟨o', ho'⟩ := hu m hm
    exact hij (Prod.mk.inj (Option.some.inj (ho.symm.trans ho'))).1
  constructor
  · rintro a m b hsub - ⟨e, he, -⟩ hforeign
    obtain ⟨l₁, l₂, hl, h₁, h₂⟩ := List.sublist_append_iff.mp hsub
    have hb : b ∉ l₂ := fun hmem => hapart' b (h₂.mem hmem) _ (Move.eventOf_eq_some he).1
    -- the last of the three is in the first part, so all are
    obtain rfl : l₂ = [] := by
      by_contra hne
      have hlast := congrArg List.getLast? hl
      rw [List.getLast?_append_of_ne_nil _ hne] at hlast
      exact hb (List.mem_of_getLast? hlast.symm)
    have hm : m ∈ t := h₁.mem (by rw [List.append_nil] at hl; rw [← hl]; simp)
    obtain ⟨o, ho⟩ := ht m hm
    exact absurd ho (hforeign o)
  · rintro a m b hsub ha - hforeign
    obtain ⟨l₁, l₂, hl, h₁, h₂⟩ := List.sublist_append_iff.mp hsub
    cases l₁ with
    | cons x l₁ =>
      obtain rfl : a = x := (List.cons.inj hl).1
      exact absurd ha (hapart a (h₁.mem List.mem_cons_self) _)
    | nil =>
      have hm : m ∈ u := h₂.mem (by rw [List.nil_append] at hl; rw [← hl]; simp)
      obtain ⟨o, ho⟩ := hu m hm
      exact absurd ho (hforeign o)

theorem actor_solo {ι : Type} {α : Type} (i : ι) (p : Server α) (w : World) :
    ∀ m ∈ Interleaves.solo World.sem i p w, ∃ o, m.actor = some (i, o) := by
  induction p generalizing w with
  | ret r => simp [Interleaves.solo]
  | step o k ih =>
    intro m hm
    rcases List.mem_cons.mp hm with rfl | hm
    · exact ⟨o, rfl⟩
    · exact ih _ _ m hm

/-- A text created under `/a`, unless there is a resource. -/
def createText : Request :=
  { samplePut "/a" with headers := (samplePut "/a").headers.setStr .ifNoneMatch "*".toList }

abbrev createProgram : Server Response := sampleState.serve createText

def createTarget : LdpTarget := ⟨"http://h/a".toList, "http://h/a".toList, false⟩

/-- The status of a result, if it is a response. -/
def okStatus (r : Except ServerError Response) : Option Nat := r.toOption.map Response.status

theorem exists_of_okStatus {r : Except ServerError Response} {n : Nat} (h : okStatus r = some n) :
    ∃ resp, r = .ok resp ∧ resp.status = n := by
  cases r with
  | error e => cases h
  | ok resp => exact ⟨resp, rfl, Option.some.inj h⟩

/-- One after the other: the first creation commits where there is no resource. -/
theorem precondition_at_commit_in_turn :
    ∃ (tr : List (Move Bool storeSig World)) (P' : Bool → Server Response) (v : World) (resp : _),
      Interleaves World.sem (Elsewhere createTarget.iri) (fun _ => createProgram) openWorld tr P' v ∧
      P' true = .ret (.ok resp) ∧
      ∃ t₁ b t₂, tr = t₁ ++ b :: t₂ ∧ CommitsAt true createTarget.iri b ∧
        (∀ m ∈ t₁, ¬ CommitsAt true createTarget.iri m) ∧
        evaluate (headerStr createText.headers .ifMatch) (headerStr createText.headers .ifNoneMatch)
          (currentTag b.before createTarget.iri) = .proceed := by
  have hrun := Interleaves.in_turn World.sem (Elsewhere createTarget.iri)
    (fun _ : Bool => createProgram) openWorld (i := true) (j := false) (by decide)
  obtain ⟨hstatus, hparse⟩ : okStatus (createProgram.run World.sem openWorld).1 = some 201 ∧
      parseTarget sampleState.baseUrl createText.path = .ok createTarget := by decide
  obtain ⟨resp, hresp, -⟩ := exists_of_okStatus hstatus
  rw [hresp] at hrun
  obtain ⟨htrue, hfalse⟩ := undisturbed_in_turn createTarget.iri (i := true) (j := false)
    (by decide) (actor_solo true createProgram openWorld)
    (actor_solo false createProgram (createProgram.run World.sem openWorld).2)
  exact ⟨_, _, _, resp, hrun, rfl, (precondition_at_commit sampleState (fun _ => createText)
    createTarget (fun _ => .inl rfl) (fun _ => hparse) hrun
    (Bool.forall_bool.mpr ⟨hfalse, htrue⟩)).1 true resp rfl⟩

/-- What is left of the first creation once it has found no resource, and the world it left. -/
def createPaused : Server Response × World :=
  Program.advance World.sem 10 createProgram openWorld

/-- **Both create**: two `If-None-Match: *` creations of one absent resource, the second running
between the check and the commit of the first, both answer 201. -/
theorem both_created :
    ∃ (tr : List (Move Bool storeSig World)) (P' : Bool → Server Response) (v : World)
      (resp resp' : Response),
      Interleaves World.sem (fun _ _ => False) (fun _ => createProgram) openWorld tr P' v ∧
      currentTag openWorld createTarget.iri = none ∧
      headerStr createText.headers .ifNoneMatch = some "*".toList ∧
      P' true = .ret (.ok resp) ∧ resp.status = 201 ∧
      P' false = .ret (.ok resp') ∧ resp'.status = 201 := by
  have hpaused := Interleaves.some_way World.sem (fun _ _ => False) (fun _ : Bool => createProgram)
    openWorld true 10
  have hrest := Interleaves.in_turn World.sem (fun _ _ => False)
    (Function.update (fun _ : Bool => createProgram) true createPaused.1) createPaused.2
    (i := false) (j := true) (by decide)
  have hrun := hpaused.append hrest
  obtain ⟨hfirst, hsecond, hnone, hstar⟩ :
      okStatus (createPaused.1.run World.sem (createProgram.run World.sem createPaused.2).2).1 =
        some 201 ∧
      okStatus (createProgram.run World.sem createPaused.2).1 = some 201 ∧
      currentTag openWorld createTarget.iri = none ∧
      headerStr createText.headers .ifNoneMatch = some "*".toList := by decide
  obtain ⟨resp, hresp, hstatus⟩ := exists_of_okStatus hfirst
  obtain ⟨resp', hresp', hstatus'⟩ := exists_of_okStatus hsecond
  refine ⟨_, _, _, resp, resp', hrun, hnone, hstar, ?_, hstatus, ?_, hstatus'⟩
  · exact congrArg Program.ret hresp
  · exact congrArg Program.ret hresp'

end SolidServer.Ldp.LdpState
