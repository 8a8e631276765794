import SolidServer.Authz.Interference
import SolidServer.Ldp.Effect

/-!
# The probe and the commit of a write

A `PUT`, `PATCH` or `DELETE` looks the target's record up, checks its preconditions
against what it found and, some steps later, commits a change of that record.  Seen from
the log of its own steps: the part before the probe only reads, and a request that
succeeds has committed after it (`decided_serve`).  Nothing is said here about the steps
other requests take in between.
-/

namespace SolidServer.Ldp

open SolidServer.Effects SolidServer.Store SolidServer.Authz

/-! ## §1 Commits -/

/-- The event is a successful change of the record of an IRI. -/
def commits (iri : Iri) (e : Event storeSig) : Bool :=
  match e with
  | ⟨.putMeta i _, .ok _⟩ => i = iri
  | ⟨.createChild _ i _, .ok _⟩ => i = iri
  | ⟨.deleteMeta i, .ok _⟩ => i = iri
  | ⟨.deleteMetaIfEmpty i _, .ok .deleted⟩ => i = iri
  | _ => false

/-- The record a commit leaves behind. -/
def committed : StoreOp → Option ResourceMeta
  | .putMeta _ m => some m
  | .createChild _ _ m => some m
  | _ => none

variable {iri : Iri} {e : Event storeSig}

theorem commits_of_reads (h : Reads e.op) :
    commits iri e = false := by
  obtain ⟨o, r⟩ := e
  cases o <;> first | rfl | exact h.elim

theorem alters_of_commits (h : commits iri e = true) :
    alters e = true := by
  unfold commits at h
  split at h <;> first | rfl | cases h

/-- **A record changes by commits only**, and a commit leaves its record. -/
theorem meta?_after (w : World) (o : StoreOp) (iri : Iri) :
    (World.sem w o).2.backend.index.meta? iri =
      if commits iri ⟨o, (World.sem w o).1⟩ then committed o else w.backend.index.meta? iri := by
  cases index_step w o with
  | same he hi =>
    rw [hi, if_neg]
    intro h
    rw [alters_of_commits h] at he
    cases he
  | put x m he hi =>
    rw [hi, he, (Event.mk.inj he).1]
    simp [commits, committed, Index.meta?_putMeta, eq_comm]
  | create c x m he hc hi =>
    rw [hi, he, (Event.mk.inj he).1]
    simp [commits, committed, Index.meta?_putMeta, eq_comm]
  | unlink c x he hi =>
    rw [hi, he]
    simp [commits]
  | drop x he hi =>
    rw [hi, he, (Event.mk.inj he).1]
    simp [commits, committed, Index.meta?_deleteMeta, eq_comm]
  | dropEmpty x parent he hempty hi =>
    rw [hi, he, (Event.mk.inj he).1]
    simp [commits, committed, Index.meta?_deleteMeta, eq_comm]

theorem meta?_of_commits (w : World) (o : StoreOp) (h : commits iri ⟨o, (World.sem w o).1⟩ = true) :
    (World.sem w o).2.backend.index.meta? iri = committed o := by
  rw [meta?_after, if_pos h]

theorem meta?_of_not_commits (w : World) (o : StoreOp)
    (h : commits iri ⟨o, (World.sem w o).1⟩ = false) :
    (World.sem w o).2.backend.index.meta? iri = w.backend.index.meta? iri := by
  rw [meta?_after, h, if_neg Bool.false_ne_true]

/-- A lookup found the record of that instant. -/
theorem meta?_of_probeOf {w : World} {found : Option ResourceMeta}
    (hprobe : probeOf e = some (iri, found)) (hanswer : e.answer = (World.sem w e.op).1) :
    e.op = .getMeta iri ∧ w.backend.index.meta? iri = found := by
  unfold probeOf at hprobe
  split at hprobe <;> cases hprobe
  · exact ⟨rfl, World.meta?_of_found hanswer.symm⟩
  · exact ⟨rfl, World.meta?_of_missing hanswer.symm⟩

/-! ## §2 The steps of the parts of a write -/

/-- A commit that removes nothing leaves a record. -/
theorem committed_isSome (hc : commits iri e = true) (h : Retains e.op) :
    (committed e.op).isSome = true := by
  obtain ⟨o, r⟩ := e
  cases o <;> first | rfl | exact h.elim | cases hc

namespace LdpState

open Program

variable {s : LdpState}

/-- A record that is there stays, as long as none is removed. -/
theorem meta?_isSome_step {w : World} {o : StoreOp} (ho : Retains o) {iri : Iri}
    (h : (w.backend.index.meta? iri).isSome = true) :
    ((World.sem w o).2.backend.index.meta? iri).isSome = true := by
  cases hc : commits iri ⟨o, (World.sem w o).1⟩ with
  | true =>
    rw [meta?_of_commits w o hc]
    exact committed_isSome hc ho
  | false => rwa [meta?_of_not_commits w o hc]

/-! ## §3 The log of a write -/

/-- The logic of a request's own log: nothing is assumed of the answers. -/
abbrev Logs {α : Type} (p : Server α) (Q : List (Event storeSig) → Except ServerError α → Prop) :
    Prop :=
  Program.Obeys (S := storeSig) (fun _ _ => True) (fun _ => True) p Q

section
variable {α β : Type} {Q : List (Event storeSig) → Except ServerError β → Prop}

variable {p : Server α} {f : α → Server β}

theorem logs_reads (hp : p.Uses (S := storeSig) Reads) :
    Logs p fun log _ => ∀ e ∈ log, Reads e.op :=
  Obeys.of_uses hp fun _ _ => trivial

theorem logs_check {r : Except ServerError α} (hok : ∀ a, r = .ok a → Logs (f a) Q)
    (herr : ∀ e, r = .error e → Q [] (.error e)) :
    Logs (check r >>= f) Q := by
  cases r with
  | ok a => exact hok a rfl
  | error e => exact herr e rfl

/-- A run that ends well has committed a change of the record. -/
def Performs (iri : Iri) (p : Server α) : Prop :=
  Logs p fun log r => ∀ a, r = .ok a → ∃ e ∈ log, commits iri e = true

theorem Performs.after {iri : Iri} (hf : ∀ a, Performs iri (f a)) : Performs iri (p >>= f) := by
  refine Obeys.bind (Obeys.any p) ?_ fun _ _ _ => by simp
  intro log a _
  refine (hf a).mono fun log' r h b hb => ?_
  obtain ⟨e, he, hc⟩ := h b hb
  exact ⟨e, List.mem_append_right _ he, hc⟩

theorem Performs.before {iri : Iri} (hp : Performs iri p) :
    Performs iri (p >>= f) := by
  refine Obeys.bind hp ?_ fun _ _ _ => by simp
  intro log a h
  refine (Obeys.any (f a)).mono fun log' r _ b _ => ?_
  obtain ⟨e, he, hc⟩ := h a rfl
  exact ⟨e, List.mem_append_left _ he, hc⟩

end

theorem performs_write (iri : Iri) (body : Bytes) (contentType : Text) :
    Performs iri (write iri body contentType) := by
  refine Performs.after fun m => ⟨trivial, fun r _ => ?_⟩
  cases r with
  | ok u => exact Obeys.pure fun _ _ => ⟨_, List.mem_cons_self, decide_eq_true rfl⟩
  | error e => exact Obeys.throw (by simp)

theorem performs_createInContainer (container child : Iri) (body : Bytes) (contentType : Text) :
    Performs child (createInContainer container child body contentType) := by
  refine Performs.after fun m => ⟨trivial, fun r _ => ?_⟩
  cases r with
  | ok u => exact Obeys.pure fun _ _ => ⟨_, List.mem_cons_self, decide_eq_true rfl⟩
  | error e => cases e <;> exact Obeys.throw (by simp)

theorem performs_storeTarget (target : Iri) (requester : Requester) (existed : Bool) (body : Bytes)
    (storedType : Text) : Performs target (s.storeTarget target requester existed body storedType) := by
  unfold storeTarget
  split_ifs
  · exact performs_write _ _ _
  · exact performs_write _ _ _
  · refine Performs.after fun _ => Performs.after fun _ => ?_
    cases parentContainer target with
    | some p => exact performs_createInContainer _ _ _ _
    | none => exact performs_write _ _ _

theorem performs_deleteContainer (target : Iri) (parent : Option Iri) :
    Performs target (deleteContainer target parent) := by
  refine ⟨trivial, fun r _ => ?_⟩
  cases r with
  | error e => exact Obeys.throw (by simp)
  | ok outcome =>
    cases outcome with
    | deleted =>
      refine (Obeys.any _).mono fun log x _ a _ => ?_
      exact ⟨_, List.mem_cons_self, decide_eq_true rfl⟩
    | notEmpty => exact Obeys.throw (by simp)
    | notFound => exact Obeys.throw (by simp)

theorem performs_deleteDocument (target : Iri) (parent : Option Iri) :
    Performs target (deleteDocument target parent) := by
  refine Performs.before ?_
  refine Performs.after fun key => Performs.after fun _ => ⟨trivial, fun r _ => ?_⟩
  cases r with
  | error e => exact Obeys.throw (by simp)
  | ok u =>
    refine (Obeys.any _).mono fun log x _ a _ => ?_
    exact ⟨_, List.mem_cons_self, decide_eq_true rfl⟩

/-- **Probe, check, commit**: the log has a probe of the record whose answer passes the
preconditions, no commit before it and one after it. -/
def Decided (headers : HeaderMap) (iri : Iri) (log : List (Event storeSig)) : Prop :=
  ∃ l₁ e found l₂, log = l₁ ++ e :: l₂ ∧ probeOf e = some (iri, found) ∧
    (∀ c ∈ l₁, commits iri c = false) ∧
    checkPreconditions headers (found.map ResourceMeta.etag) = .ok () ∧
    ∃ c ∈ l₂, commits iri c = true

/-- What is left to do after the probe found `found`. -/
def Sealed (headers : HeaderMap) (iri : Iri) (found : Option ResourceMeta) {α : Type}
    (log : List (Event storeSig)) (r : Except ServerError α) : Prop :=
  ∀ a, r = .ok a → checkPreconditions headers (found.map ResourceMeta.etag) = .ok () ∧
    ∃ c ∈ log, commits iri c = true

section
variable {headers : HeaderMap} {iri : Iri} {α β : Type}

variable {f : α → Server β}

theorem decided_check {r : Except ServerError α}
    (hf : ∀ a, r = .ok a → Logs (f a) fun log x => ∀ b, x = .ok b → Decided headers iri log) :
    Logs (check r >>= f) fun log x => ∀ b, x = .ok b → Decided headers iri log :=
  logs_check hf fun _ _ => by simp

/-- Reading first changes nothing. -/
theorem decided_reads {p : Server α} (hp : p.Uses (S := storeSig) Reads)
    (hf : ∀ a, Logs (f a) fun log x => ∀ b, x = .ok b → Decided headers iri log) :
    Logs (p >>= f) fun log x => ∀ b, x = .ok b → Decided headers iri log := by
  refine Obeys.bind (logs_reads hp) ?_ fun _ _ _ => by simp
  intro log a hreads
  refine (hf a).mono fun log' x h b hb => ?_
  obtain ⟨l₁, e, found, l₂, rfl, hprobe, hquiet, hrest⟩ := h b hb
  refine ⟨log ++ l₁, e, found, l₂, by simp, hprobe, fun c hc => ?_, hrest⟩
  rcases List.mem_append.mp hc with hc | hc
  · exact commits_of_reads (hreads c hc)
  · exact hquiet c hc

/-- The probe itself. -/
theorem decided_meta? {f : Option ResourceMeta → Server β}
    (hf : ∀ found, Logs (f found) (Sealed headers iri found)) :
    Logs (meta? iri >>= f) fun log x => ∀ b, x = .ok b → Decided headers iri log := by
  have hseal : ∀ r found, probeOf ⟨.getMeta iri, r⟩ = some (iri, found) →
      Logs (f found) fun log x => ∀ b, x = .ok b →
        Decided headers iri (⟨.getMeta iri, r⟩ :: log) := by
    intro r found hprobe
    refine (hf found).mono fun log x h b hb => ?_
    obtain ⟨hpre, hcommit⟩ := h b hb
    exact ⟨[], _, found, log, rfl, hprobe, by simp, hpre, hcommit⟩
  refine ⟨trivial, fun r _ => ?_⟩
  cases r with
  | ok m => exact hseal (.ok m) (some m) rfl
  | error e =>
    cases e with
    | notFound => exact hseal (.error .notFound) none rfl
    | backend msg => exact Obeys.throw (by simp)

theorem sealed_any {p : Server α} {found : Option ResourceMeta}
    (hf : ∀ a, Logs (f a) (Sealed headers iri found)) :
    Logs (p >>= f) (Sealed headers iri found) := by
  refine Obeys.bind (Obeys.any p) ?_ fun _ _ _ => by simp [Sealed]
  intro log a _
  refine (hf a).mono fun log' x h b hb => ?_
  obtain ⟨hpre, c, hc, hcommit⟩ := h b hb
  exact ⟨hpre, c, List.mem_append_right _ hc, hcommit⟩

/-- The check, and a rest that commits. -/
theorem sealed_check {f : Unit → Server β} {found : Option ResourceMeta}
    (hf : Performs iri (f ())) :
    Logs (check (checkPreconditions headers (found.map ResourceMeta.etag)) >>= f)
      (Sealed headers iri found) := by
  refine logs_check (fun _ hpre => ?_) fun _ _ => by simp [Sealed]
  exact hf.mono fun log x h b hb => ⟨hpre, h b hb⟩

end

theorem logs_fetchBody (m : ResourceMeta) :
    Logs (fetchBody m) fun log r => (∀ c ∈ log, Reads c.op) ∧ r ≠ .error .notFound := by
  refine (logs_reads (reads_fetchBody m)).and ?_
  refine ⟨trivial, fun cached _ => ?_⟩
  cases cached with
  | some b => exact Obeys.pure (by simp)
  | none =>
    refine ⟨trivial, fun fetched _ => ?_⟩
    cases fetched with
    | ok b => exact ⟨trivial, fun _ _ => Obeys.pure (by simp)⟩
    | error e => cases e <;> exact Obeys.throw (by simp [blobFetchError])

/-- The log is one probe that found `found`, then reads. -/
def Probed (iri : Iri) (found : Option ResourceMeta) (log : List (Event storeSig)) : Prop :=
  ∃ e l, log = e :: l ∧ probeOf e = some (iri, found) ∧ ∀ c ∈ l, Reads c.op

theorem logs_read (iri : Iri) :
    Logs (read iri) fun log r => (∀ res, r = .ok res → Probed iri (some res.meta_) log) ∧
      (r = .error .notFound → Probed iri none log) := by
  refine ⟨trivial, fun r _ => ?_⟩
  cases r with
  | error e =>
    cases e with
    | notFound => exact Obeys.throw ⟨by simp, fun _ => ⟨_, [], rfl, rfl, by simp⟩⟩
    | backend msg => exact Obeys.throw ⟨by simp, by simp⟩
  | ok m =>
    show Logs (fetchBody m >>= fun body => pure (Resource.mk body m)) _
    refine Obeys.bind (logs_fetchBody m) ?_ ?_
    · rintro log b ⟨hreads, -⟩
      refine Obeys.pure ⟨?_, by simp⟩
      rintro _ ⟨⟩
      exact ⟨_, _, rfl, rfl, by simpa using hreads⟩
    · rintro log e ⟨-, hne⟩
      exact ⟨by simp, fun h => absurd h (by simpa using hne)⟩

/-- The current resource of a `PATCH`: one probe, then reads. -/
theorem logs_readCurrent (target : Iri) :
    Logs (readCurrent target) fun log r =>
      ∀ current, r = .ok current → Probed target (current.map Resource.meta_) log := by
  refine Obeys.attempt_bind (logs_read target) ?_
  rintro log r ⟨hfound, habsent⟩
  cases r with
  | ok res =>
    refine Obeys.pure ?_
    rintro _ ⟨⟩
    simpa using hfound res rfl
  | error e =>
    cases e with
    | notFound =>
      refine Obeys.pure ?_
      rintro _ ⟨⟩
      simpa using habsent rfl
    | _ => exact Obeys.throw (by simp)

/-! ## §4 The write handlers -/

variable {req : Request} {target : LdpTarget}

theorem decided_putHandler (hparse : parseTarget s.baseUrl req.path = .ok target) :
    Logs (s.putHandler req) fun log x =>
      ∀ resp, x = .ok resp → Decided req.headers target.iri log := by
  refine decided_check fun t ht => ?_
  obtain rfl := Except.ok.inj (hparse.symm.trans ht)
  refine decided_reads (perused_authorizeMode _ _ _).reads fun granted => ?_
  refine decided_check fun _ _ => ?_
  refine decided_meta? fun current => ?_
  refine sealed_any fun _ => sealed_any fun contentType => sealed_any fun storedType => ?_
  exact sealed_check (Performs.before (performs_storeTarget _ _ _ _ _))

theorem decided_deleteHandler (hparse : parseTarget s.baseUrl req.path = .ok target) :
    Logs (s.deleteHandler req) fun log x =>
      ∀ resp, x = .ok resp → Decided req.headers target.iri log := by
  refine decided_check fun t ht => ?_
  obtain rfl := Except.ok.inj (hparse.symm.trans ht)
  refine decided_reads (perused_authorizeMode _ _ _).reads fun granted => ?_
  refine decided_reads (perused_onNearest _ _ _).reads fun _ => ?_
  refine decided_check fun _ _ => ?_
  refine decided_meta? fun current => ?_
  cases current with
  | none => exact Obeys.throw (by simp [Sealed])
  | some m =>
    refine @sealed_check req.headers target.iri _ _ (some m) ?_
    cases target.isContainer with
    | true => exact performs_deleteContainer _ _
    | false => exact performs_deleteDocument _ _

theorem decided_patchHandler (hparse : parseTarget s.baseUrl req.path = .ok target) :
    Logs (s.patchHandler req) fun log x =>
      ∀ resp, x = .ok resp → Decided req.headers target.iri log := by
  refine decided_check fun t ht => ?_
  obtain rfl := Except.ok.inj (hparse.symm.trans ht)
  refine decided_check fun patch _ => ?_
  refine decided_reads (perused_authorizeMode _ _ _).reads fun granted => ?_
  refine decided_check fun _ _ => decided_check fun _ _ => ?_
  refine Obeys.bind (logs_readCurrent target.iri) ?_ fun _ _ _ => by simp
  intro log current hprobed
  obtain ⟨e, l, rfl, hprobe, -⟩ := hprobed current rfl
  have hetag : (current.map fun r => r.meta_.etag) =
      (current.map Resource.meta_).map ResourceMeta.etag := by rw [Option.map_map]; rfl
  rw [hetag]
  -- the reads of the body count as part of the rest
  refine (sealed_check (Performs.after fun patched =>
    Performs.before (performs_storeTarget _ _ _ _ _))).mono fun log' x h resp hresp => ?_
  obtain ⟨hpre, c, hc, hcommit⟩ := h resp hresp
  exact ⟨[], e, _, l ++ log', by simp, hprobe, by simp, hpre, c,
    List.mem_append_right _ hc, hcommit⟩

/-- **Every write that succeeds has probed, checked and committed**, in this order. -/
theorem decided_serve (hmethod : req.method = .put ∨ req.method = .patch ∨ req.method = .delete)
    (hparse : parseTarget s.baseUrl req.path = .ok target) :
    Logs (s.serve req) fun log x =>
      ∀ resp, x = .ok resp → Decided req.headers target.iri log := by
  unfold serve
  rcases hmethod with hm | hm | hm <;> rw [hm]
  · exact decided_putHandler hparse
  · exact decided_patchHandler hparse
  · exact decided_deleteHandler hparse

end LdpState

end SolidServer.Ldp
