import SolidServer.Effects.History
import SolidServer.Ldp.Append
import SolidServer.Ldp.Atomicity

/-!
# Concurrent patches

Any number of `PATCH` requests on one stored RDF resource, interleaved step by step.  Each
reads the record and its bytes, applies its patch to the triples, stores the result under
a new key and commits a record that points at it.

* `no_lost_patch`: as long as no other request commits between a patch's lookup of the
  record and its own commit, the run is the sequential application of the patches that
  succeeded, in the order of their commits.
* `patch_lost`: without that, a patch that answered 204 is overwritten by another.

Bytes are never changed once they are stored: a key is made from a random suffix that no
other write has drawn.  This is what identifies the bytes a patch has read with the bytes of
the record it found, through the body cache too (§2, §3).
-/

namespace SolidServer.Ldp.LdpState

open SolidServer.Effects SolidServer.Store SolidServer.Authz Program

variable {s : LdpState} {req : Request} {iri : Iri}

/-! ## §1 The log of a patch -/

/-- The steps that store neither bytes nor records. -/
def Bare : StoreOp → Prop
  | .blobPut _ _ | .putMeta _ _ | .createChild _ _ _ | .deleteMeta _ | .deleteMetaIfEmpty _ _ =>
    False
  | _ => True

theorem Bare.of_reads {o : StoreOp} (h : Reads o) : Bare o := by
  cases o <;> trivial

theorem Bare.not_commits {e : Event storeSig} (h : Bare e.op) : commits iri e = false := by
  obtain ⟨o, r⟩ := e
  cases o <;> first | rfl | exact h.elim

/-- The log fetched the body stored under a key, from the cache or from the store. -/
def Fetched (key : Text) (body : Bytes) (log : List (Event storeSig)) : Prop :=
  (∃ tag, (⟨.bodyCacheGet key tag, some body⟩ : Event storeSig) ∈ log) ∨
    (⟨.blobGet key, .ok body⟩ : Event storeSig) ∈ log

/-- The log stores a body under a new key and commits a record that points at it, once. -/
def Overwrites (iri : Iri) (newBody : Bytes) (type : Text) (log : List (Event storeSig)) : Prop :=
  ∃ l₁ m l₂ l₃, log = l₁ ++ ⟨.blobPut m.blobKey newBody, .ok ()⟩ ::
      (l₂ ++ ⟨.putMeta iri m, .ok ()⟩ :: l₃) ∧
    m.contentType = type ∧ ∀ x ∈ l₁ ++ l₂ ++ l₃, commits iri x = false

/-- **A patch from lookup to commit**: the record `m` is looked up, its body fetched, and the
patched body is stored. -/
def Merged (s : LdpState) (req : Request) (iri : Iri) (log : List (Event storeSig)) : Prop :=
  ∃ patch m body newBody f l₁ e l₂, s.parsePatch req iri = .ok patch ∧
    s.patchedBody (some ⟨body, m⟩) patch iri = .ok (newBody, f) ∧
    log = l₁ ++ e :: l₂ ∧ probeOf e = some (iri, some m) ∧ Fetched m.blobKey body l₂ ∧
    Overwrites iri newBody f.mediaType l₂ ∧ ∀ x ∈ l₁, commits iri x = false

/-- What a request that writes at most one body logs, `M` being what it logs if it succeeds. -/
structure StoreLog (iri : Iri) (M : List (Event storeSig) → Prop) {α : Type}
    (log : List (Event storeSig)) (r : Except ServerError α) : Prop where
  keyed : ∀ k b x, (⟨.blobPut k b, x⟩ : Event storeSig) ∈ log →
    ∃ suffix, (⟨.random, .ok suffix⟩ : Event storeSig) ∈ log ∧ k = blobKeyFor iri suffix
  single : ∀ k b x k' b' x', (⟨.blobPut k b, x⟩ : Event storeSig) ∈ log →
    (⟨.blobPut k' b', x'⟩ : Event storeSig) ∈ log → b = b'
  refused : (∀ a, r ≠ .ok a) → ∀ e ∈ log, commits iri e = false
  merged : ∀ a, r = .ok a → M log

section
variable {α : Type} {M N : List (Event storeSig) → Prop} {log l : List (Event storeSig)}
  {r : Except ServerError α}

theorem not_mem_blobPut (hl : ∀ e ∈ l, Bare e.op) {k : Text} {b : Bytes}
    {x : Except BlobError Unit} : (⟨.blobPut k b, x⟩ : Event storeSig) ∉ l :=
  fun h => hl _ h

theorem StoreLog.of_bare (hl : ∀ e ∈ l, Bare e.op) (e : ServerError) :
    StoreLog iri M l (.error e : Except ServerError α) where
  keyed _ _ _ h := absurd h (not_mem_blobPut hl)
  single _ _ _ _ _ _ h := absurd h (not_mem_blobPut hl)
  refused _ e he := (hl e he).not_commits
  merged := by simp

/-- All bytes stored are one body, under the key of a suffix that was drawn. -/
theorem StoreLog.of_one (suffix : Suffix) (body : Bytes)
    (hdraw : (⟨.random, .ok suffix⟩ : Event storeSig) ∈ log)
    (hput : ∀ k b x, (⟨.blobPut k b, x⟩ : Event storeSig) ∈ log →
      k = blobKeyFor iri suffix ∧ b = body)
    (hrefused : (∀ a, r ≠ .ok a) → ∀ e ∈ log, commits iri e = false)
    (hmerged : ∀ a, r = .ok a → M log) : StoreLog iri M log r where
  keyed k b x hmem := ⟨suffix, hdraw, (hput k b x hmem).1⟩
  single k b x k' b' x' hmem hmem' := (hput k b x hmem).2.trans (hput k' b' x' hmem').2.symm
  refused := hrefused
  merged := hmerged

/-- Steps that store nothing may come first. -/
theorem StoreLog.prepend (hl : ∀ e ∈ l, Bare e.op) (hM : M log → N (l ++ log))
    (h : StoreLog iri M log r) : StoreLog iri N (l ++ log) r where
  keyed k b x hmem := by
    rcases List.mem_append.mp hmem with hmem | hmem
    · exact absurd hmem (not_mem_blobPut hl)
    · obtain ⟨suffix, hdraw, hk⟩ := h.keyed k b x hmem
      exact ⟨suffix, List.mem_append_right _ hdraw, hk⟩
  single k b x k' b' x' hmem hmem' := by
    rcases List.mem_append.mp hmem with hmem | hmem
    · exact absurd hmem (not_mem_blobPut hl)
    · rcases List.mem_append.mp hmem' with hmem' | hmem'
      · exact absurd hmem' (not_mem_blobPut hl)
      · exact h.single k b x k' b' x' hmem hmem'
  refused hr e he := by
    rcases List.mem_append.mp he with he | he
    · exact (hl e he).not_commits
    · exact h.refused hr e he
  merged a ha := hM (h.merged a ha)

theorem Merged.prepend (hl : ∀ e ∈ l, Bare e.op) (h : Merged s req iri log) :
    Merged s req iri (l ++ log) := by
  obtain ⟨patch, m, body, newBody, f, l₁, e, l₂, hpatch, hbody, rfl, hprobe, hfetched, hstored,
    hquiet⟩ := h
  refine ⟨patch, m, body, newBody, f, l ++ l₁, e, l₂, hpatch, hbody, by simp, hprobe, hfetched,
    hstored, fun x hx => ?_⟩
  rcases List.mem_append.mp hx with hx | hx
  · exact (hl x hx).not_commits
  · exact hquiet x hx

end

/-- The steps of a write in place, however far it gets. -/
inductive WriteLog (iri : Iri) (body : Bytes) (contentType : Text) :
    List (Event storeSig) → Except ServerError ResourceMeta → Prop
  | noSuffix {msg e} : WriteLog iri body contentType [⟨.random, .error msg⟩] (.error e)
  | noBytes {suffix msg e} : WriteLog iri body contentType
      [⟨.random, .ok suffix⟩, ⟨.blobPut (blobKeyFor iri suffix) body, .error msg⟩] (.error e)
  | noRecord {suffix now m msg e} : WriteLog iri body contentType
      [⟨.random, .ok suffix⟩, ⟨.blobPut (blobKeyFor iri suffix) body, .ok ()⟩, ⟨.now, now⟩,
        ⟨.putMeta iri m, .error msg⟩] (.error e)
  | done {suffix now m} (hkey : m.blobKey = blobKeyFor iri suffix)
      (htype : m.contentType = contentType) : WriteLog iri body contentType
      [⟨.random, .ok suffix⟩, ⟨.blobPut (blobKeyFor iri suffix) body, .ok ()⟩, ⟨.now, now⟩,
        ⟨.putMeta iri m, .ok ()⟩] (.ok m)

theorem logs_write (iri : Iri) (body : Bytes) (contentType : Text) :
    Logs (write iri body contentType) (WriteLog iri body contentType) := by
  refine ⟨trivial, fun drawn _ => ?_⟩
  cases drawn with
  | error msg => exact WriteLog.noSuffix
  | ok suffix =>
    refine ⟨trivial, fun stored _ => ?_⟩
    cases stored with
    | error msg => exact WriteLog.noBytes
    | ok u =>
      refine ⟨trivial, fun now _ => ⟨trivial, fun put _ => ?_⟩⟩
      cases put with
      | error msg => exact WriteLog.noRecord
      | ok u => exact WriteLog.done rfl rfl

/-- The computation stores nothing and does not fail. -/
abbrev Tame {α : Type} (p : Server α) : Prop :=
  Logs p fun log r => (∀ e ∈ log, Bare e.op) ∧ ∃ a, r = .ok a

/-- Finishing a write announces it and does not fail. -/
theorem tame_finishWrite (target : Iri) (existed : Bool) (m : ResourceMeta) :
    Tame (finishWrite target existed m) := by
  have huses : (finishWrite target existed m).Uses (S := storeSig) Bare :=
    uses_finishWrite (fun _ _ => trivial) trivial
  have hbare := Obeys.of_uses (A := fun _ _ => True) (G := fun _ => True) huses
    fun _ _ => trivial
  refine (hbare.and_left (Obeys.of_raises (raises_finishWrite target existed m))).mono ?_
  rintro log r ⟨hlog, hr⟩
  cases r with
  | ok resp => exact ⟨hlog, resp, rfl⟩
  | error e => exact (hr e rfl).elim

/-- The log of a write in place that is then announced. -/
theorem storeLog_write (iri : Iri) (body : Bytes) (type : Text) :
    Logs (do
      let m ← write iri body type
      finishWrite iri true m) (StoreLog iri (Overwrites iri body type)) := by
  refine Obeys.bind (logs_write iri body type) ?_ ?_
  · intro log m hwrite
    cases hwrite with
    | @done suffix now _ hkey htype =>
      refine (tame_finishWrite iri true m).mono ?_
      rintro log' _ ⟨hbare, resp, rfl⟩
      have hnot : ∀ {k b x}, (⟨.blobPut k b, x⟩ : Event storeSig) ∉ log' := not_mem_blobPut hbare
      refine .of_one suffix body (by simp) (by simp_all)
        (fun hr => absurd rfl (hr resp)) fun _ _ => ?_
      refine ⟨[⟨.random, .ok suffix⟩], m, [⟨.now, now⟩], log', by simp [hkey], htype, ?_⟩
      intro x hx
      simp only [List.cons_append, List.nil_append, List.mem_cons] at hx
      rcases hx with rfl | rfl | hx
      · rfl
      · rfl
      · exact (hbare x hx).not_commits
  · intro log e hwrite
    cases hwrite with
    | noSuffix => exact .of_bare (by simp [Bare]) e
    | @noBytes suffix =>
      exact .of_one suffix body (by simp) (by simp_all)
        (fun _ => by simp [commits]) (by simp)
    | @noRecord suffix =>
      exact .of_one suffix body (by simp) (by simp_all)
        (fun _ => by simp [commits]) (by simp)

/-- The resource is there whenever it is looked up. -/
def Present (iri : Iri) : (o : StoreOp) → o.Res → Prop
  | .getMeta i, r => i = iri → r ≠ .error .notFound
  | _, _ => True

/-- The logic of a request's own log while the resource is there. -/
abbrev LogsPresent (iri : Iri) {α : Type} (p : Server α)
    (Q : List (Event storeSig) → Except ServerError α → Prop) : Prop :=
  Program.Obeys (S := storeSig) (Present iri) (fun _ => True) p Q

variable {α : Type}

theorem logsPresent_bare {p : Server α} (hp : p.Uses (S := storeSig) Reads) :
    LogsPresent iri p fun log _ => ∀ e ∈ log, Bare e.op :=
  ((logs_reads hp).weaken (fun _ _ _ => trivial) fun _ h => h).mono
    fun _ _ h e he => Bare.of_reads (h e he)

theorem logs_fetched (m : ResourceMeta) :
    Logs (fetchBody m) fun log r => ∀ b, r = .ok b → Fetched m.blobKey b log := by
  refine ⟨trivial, fun cached _ => ?_⟩
  cases cached with
  | some b =>
    refine Obeys.pure ?_
    rintro _ ⟨⟩
    exact .inl ⟨m.etag, List.mem_cons_self⟩
  | none =>
    refine ⟨trivial, fun fetched _ => ?_⟩
    cases fetched with
    | ok b =>
      refine ⟨trivial, fun _ _ => Obeys.pure ?_⟩
      rintro _ ⟨⟩
      exact .inr (by simp)
    | error e => exact Obeys.throw (by simp)

/-- The record and the body a patch starts from. -/
theorem logsPresent_readCurrent (iri : Iri) :
    LogsPresent iri (readCurrent iri) fun log r => (∀ e ∈ log, Bare e.op) ∧
      ∀ current, r = .ok current → ∃ m body e l, current = some ⟨body, m⟩ ∧ log = e :: l ∧
        probeOf e = some (iri, some m) ∧ Fetched m.blobKey body l := by
  refine (logsPresent_bare (PlainIn.uses (built_readCurrent iri))).and ?_
  refine Obeys.attempt_bind (R := fun log r => r ≠ .error .notFound ∧ ∀ res, r = .ok res →
    ∃ e l, log = e :: l ∧ probeOf e = some (iri, some res.meta_) ∧
      Fetched res.meta_.blobKey res.body l) ?_ ?_
  · refine ⟨trivial, fun r hr => ?_⟩
    cases r with
    | error e =>
      cases e with
      | notFound => exact absurd rfl (hr rfl)
      | backend msg => exact Obeys.throw ⟨by simp, by simp⟩
    | ok m =>
      show LogsPresent iri (fetchBody m >>= fun body => pure (Resource.mk body m)) _
      have hfetch : LogsPresent iri (fetchBody m) _ :=
        ((logs_fetchBody m).and (logs_fetched m)).weaken (fun _ _ _ => trivial) fun _ h => h
      refine Obeys.bind hfetch ?_ ?_
      · rintro log b ⟨-, hfetched⟩
        refine Obeys.pure ⟨by simp, ?_⟩
        rintro _ ⟨⟩
        rw [List.append_nil]
        exact ⟨_, log, rfl, rfl, hfetched b rfl⟩
      · rintro log e ⟨⟨-, hne⟩, -⟩
        exact ⟨by simpa using hne, by simp⟩
  · rintro log r ⟨hne, hfound⟩
    cases r with
    | ok res =>
      obtain ⟨e, l, rfl, hprobe, hfetched⟩ := hfound res rfl
      refine Obeys.pure ?_
      rintro _ ⟨⟩
      exact ⟨res.meta_, res.body, e, l, rfl, by simp, hprobe, hfetched⟩
    | error e =>
      cases e with
      | notFound => exact absurd rfl hne
      | _ => exact Obeys.throw (by simp)

theorem storeLog_reads {β : Type} {p : Server α} {f : α → Server β}
    (hp : p.Uses (S := storeSig) Reads)
    (hf : ∀ a, LogsPresent iri (f a) (StoreLog iri (Merged s req iri))) :
    LogsPresent iri (p >>= f) (StoreLog iri (Merged s req iri)) := by
  refine Obeys.bind (logsPresent_bare hp) ?_ fun log e hbare => .of_bare hbare e
  intro log a hbare
  exact (hf a).mono fun log' r h => h.prepend hbare (Merged.prepend hbare)

theorem storeLog_check {β : Type} {r : Except ServerError α} {f : α → Server β}
    (hf : ∀ a, r = .ok a → LogsPresent iri (f a) (StoreLog iri (Merged s req iri))) :
    LogsPresent iri (check r >>= f) (StoreLog iri (Merged s req iri)) := by
  cases r with
  | ok a => exact hf a rfl
  | error e => exact .of_bare (by simp) e

/-- **The log of a `PATCH`** of a resource that is there. -/
theorem storeLog_patchHandler {target : LdpTarget}
    (hparse : parseTarget s.baseUrl req.path = .ok target) :
    LogsPresent target.iri (s.patchHandler req)
      (StoreLog target.iri (Merged s req target.iri)) := by
  refine storeLog_check fun t ht => ?_
  obtain rfl := Except.ok.inj (hparse.symm.trans ht)
  refine storeLog_check fun patch hpatch => ?_
  refine storeLog_reads (perused_authorizeMode _ _ _).reads fun granted => ?_
  refine storeLog_check fun _ _ => storeLog_check fun _ _ => ?_
  refine Obeys.bind (logsPresent_readCurrent target.iri) ?_ fun log e h => .of_bare h.1 e
  rintro log current ⟨hbare, hfound⟩
  obtain ⟨m, body, e, l, rfl, rfl, hprobe, hfetched⟩ := hfound current rfl
  -- from here on the resource is overwritten or an error ends the request
  have hstop : ∀ x : ServerError, StoreLog target.iri (Merged s req target.iri) (e :: l ++ [])
      (.error x : Except ServerError Response) := fun x => .of_bare (by simpa using hbare) x
  cases hpre : checkPreconditions req.headers ((some (Resource.mk body m)).map fun r => r.meta_.etag)
    with
  | error x => exact hstop x
  | ok u =>
    cases hbody : s.patchedBody (some ⟨body, m⟩) patch target.iri with
    | error x => exact hstop x
    | ok patched =>
      obtain ⟨newBody, f⟩ := patched
      have hwrite : LogsPresent target.iri _ _ :=
        (storeLog_write target.iri newBody f.mediaType).weaken (fun _ _ _ => trivial) fun _ h => h
      refine hwrite.mono fun log' r h => h.prepend hbare fun hover => ?_
      refine ⟨patch, m, body, newBody, f, [], e, l ++ log', hpatch, hbody, by simp, hprobe, ?_, ?_,
        by simp⟩
      · exact hfetched.imp (fun ⟨tag, h⟩ => ⟨tag, List.mem_append_left _ h⟩)
          fun h => List.mem_append_left _ h
      · obtain ⟨l₁, m', l₂, l₃, rfl, htype, hquiet⟩ := hover
        refine ⟨l ++ l₁, m', l₂, l₃, by simp, htype, fun x hx => ?_⟩
        rw [List.append_assoc, List.append_assoc, List.mem_append] at hx
        rcases hx with hx | hx
        · exact (hbare x (List.mem_cons_of_mem _ hx)).not_commits
        · exact hquiet x (by rwa [List.append_assoc])

/-! ## §2 Every body under a key of its own -/

/-- Draws are counted, and the random source is what it was. -/
theorem draws_step (u : World) (o : StoreOp) :
    u.draws ≤ (World.sem u o).2.draws ∧ (World.sem u o).2.entropy = u.entropy := by
  cases o with
  | random => exact ⟨Nat.le_succ _, rfl⟩
  | putMeta | deleteMeta | deleteMetaIfEmpty | createChild | removeChild | blobPut | blobDelete =>
    simp only [World.sem]
    split <;> exact ⟨le_rfl, rfl⟩
  | _ => exact ⟨le_rfl, rfl⟩

section
variable {ι : Type} [DecidableEq ι] {P P' : ι → Server Response} {w v : World}
  {tr : List (Move ι storeSig World)}

variable {i : ι}

/-- The move of an event. -/
theorem move_of_event {e : Event storeSig} (h : e ∈ ownEvents World.sem i tr) :
    ∃ m ∈ tr, m.eventOf World.sem i = some e ∧ m.actor = some (i, e.op) ∧
      e.answer = (World.sem m.before e.op).1 := by
  obtain ⟨m, hm, he⟩ := List.mem_filterMap.mp h
  exact ⟨m, hm, he, Move.eventOf_eq_some he⟩

variable (hrun : Interleaves World.sem (fun _ _ => False) P w tr P' v)
include hrun

theorem draws_before : ∀ m ∈ tr, w.draws ≤ m.before.draws ∧ m.before.entropy = w.entropy := by
  refine hrun.holds_before (fun u => w.draws ≤ u.draws ∧ u.entropy = w.entropy) ?_ ⟨le_rfl, rfl⟩
  rintro m hm ⟨hle, heq⟩
  obtain ⟨i, o, -, hafter⟩ := hrun.own_move hm
  rw [hafter]
  exact ⟨hle.trans (draws_step _ o).1, (draws_step _ o).2.trans heq⟩

/-- A suffix that was drawn, with the number of the draw. -/
theorem drawn {suffix : Suffix}
    (h : (⟨.random, .ok suffix⟩ : Event storeSig) ∈ ownEvents World.sem i tr) :
    ∃ m ∈ tr, m.actor = some (i, .random) ∧ w.entropy m.before.draws = .ok suffix ∧
      w.draws ≤ m.before.draws ∧ m.after.draws = m.before.draws + 1 := by
  obtain ⟨m, hm, -, hactor, hanswer⟩ := move_of_event h
  obtain ⟨hle, heq⟩ := draws_before hrun m hm
  refine ⟨m, hm, hactor, ?_, hle, by rw [hrun.after_eq hm hactor]; rfl⟩
  rw [← heq]
  exact hanswer.symm

/-- **No suffix is drawn twice** in a run. -/
theorem draw_unique (hw : Consistent w) {j : ι} {suffix : Suffix}
    (hi : (⟨.random, .ok suffix⟩ : Event storeSig) ∈ ownEvents World.sem i tr)
    (hj : (⟨.random, .ok suffix⟩ : Event storeSig) ∈ ownEvents World.sem j tr) : i = j := by
  obtain ⟨p, hp, hpa, hpd, hpw, hpn⟩ := drawn hrun hi
  obtain ⟨q, hq, hqa, hqd, hqw, hqn⟩ := drawn hrun hj
  -- the later of two draws has the larger number
  have hlater : ∀ {a b : Move ι storeSig World} {x y z : List (Move ι storeSig World)},
      tr = x ++ a :: (y ++ b :: z) → a.after.draws ≤ b.before.draws := by
    intro a b x y z htr
    refine hrun.keeps_between (fun u => a.after.draws ≤ u.draws) htr (fun m _ hm hle => ?_) le_rfl
    obtain ⟨k, o, -, hafter⟩ := hrun.own_move hm
    rw [hafter]
    exact hle.trans (draws_step _ o).1
  rcases first_of_two hp hq with rfl | ⟨x, y, z, htr⟩ | ⟨x, y, z, htr⟩
  · exact (Prod.mk.inj (Option.some.inj (hpa.symm.trans hqa))).1
  · exact (hw.distinct _ _ suffix hpw (by have := hlater htr; omega) hpd hqd).elim
  · exact (hw.distinct _ _ suffix hqw (by have := hlater htr; omega) hqd hpd).elim

/-- The bytes are stored under the key by some request of the run. -/
def Puts (tr : List (Move ι storeSig World)) (key : Text) (b : Bytes) : Prop :=
  ∃ i x, (⟨.blobPut key b, x⟩ : Event storeSig) ∈ ownEvents World.sem i tr

/-- The key has bytes at the start, or gets them in the run. -/
def Live (w : World) (tr : List (Move ι storeSig World)) (key : Text) : Prop :=
  (w.backend.blobs.lookup key).isSome = true ∨ ∃ b, Puts tr key b

variable {M : ι → List (Event storeSig) → Prop} {result : ι → Except ServerError Response}
  (hlogs : ∀ i, StoreLog iri (M i) (ownEvents World.sem i tr) (result i))
include hlogs

/-- A key bytes are stored under is new. -/
theorem puts_fresh (hw : Consistent w) {key : Text} {b : Bytes} (h : Puts tr key b) :
    w.backend.blobs.lookup key = none ∧ ∀ tag, w.bodyCache.body? key tag = none := by
  obtain ⟨i, x, hmem⟩ := h
  obtain ⟨suffix, hdraw, rfl⟩ := (hlogs i).keyed _ _ _ hmem
  obtain ⟨m, -, -, hd, hle, -⟩ := drawn hrun hdraw
  exact hw.fresh _ suffix iri hle hd

/-- Only one body is ever stored under a key. -/
theorem puts_unique (hw : Consistent w) {key : Text} {b b' : Bytes} (h : Puts tr key b)
    (h' : Puts tr key b') : b = b' := by
  obtain ⟨i, x, hmem⟩ := h
  obtain ⟨j, x', hmem'⟩ := h'
  obtain ⟨suffix, hdraw, hkey⟩ := (hlogs i).keyed _ _ _ hmem
  obtain ⟨suffix', hdraw', hkey'⟩ := (hlogs j).keyed _ _ _ hmem'
  obtain rfl := blobKeyFor_suffix (hkey.symm.trans hkey')
  obtain rfl := draw_unique hrun hw hdraw hdraw'
  exact (hlogs i).single _ _ _ _ _ _ hmem hmem'

/-- **The ledger of a run**: the body of every key that is used. -/
theorem exists_ledger (hw : Consistent w) : ∃ ledger : Ledger,
    (∀ key b, w.backend.blobs.lookup key = some b → b = ledger key) ∧
    ∀ key b, Puts tr key b → b = ledger key := by
  classical
  refine ⟨fun key => if h : ∃ b, Puts tr key b then h.choose
    else (w.backend.blobs.lookup key).getD [], ?_, ?_⟩
  · intro key b hb
    have hnot : ¬ ∃ b, Puts tr key b := by
      rintro ⟨b', hput⟩
      rw [(puts_fresh hrun hlogs hw hput).1] at hb
      cases hb
    simp [hnot, hb]
  · intro key b hput
    have hex : ∃ b, Puts tr key b := ⟨b, hput⟩
    simp only [hex]
    exact puts_unique hrun hlogs hw hput hex.choose_spec

end

/-! ## §3 Bytes stay what they are -/

section
variable {ledger : Ledger} {live : Text → Prop} {u : World}

/-- The bytes of live keys, in the store and in the body cache, are those of the ledger. -/
structure Kept (ledger : Ledger) (live : Text → Prop) (u : World) : Prop where
  bytes : ∀ key b, u.backend.blobs.lookup key = some b → live key ∧ b = ledger key
  bodies : ∀ key tag b, live key → u.bodyCache.body? key tag = some b → b = ledger key

/-- What such a world answers. -/
def Answers (ledger : Ledger) (live : Text → Prop) : (o : StoreOp) → o.Res → Prop
  | .blobGet key, r => ∀ b, r = .ok b → b = ledger key
  | .bodyCacheGet key _, r => ∀ b, r = some b → live key → b = ledger key
  | _, _ => True

/-- Cached bodies are those of the ledger. -/
def Caches (ledger : Ledger) (live : Text → Prop) : StoreOp → Prop
  | .bodyCacheInsert key _ b => live key → b = ledger key
  | _ => True

/-- Stored bytes are those of the ledger, and none are deleted. -/
def Adds (ledger : Ledger) (live : Text → Prop) : StoreOp → Prop
  | .blobPut key b => live key ∧ b = ledger key
  | .blobDelete _ => False
  | _ => True

namespace Kept

theorem answers (h : Kept ledger live u) (o : StoreOp) :
    Answers ledger live o (World.sem u o).1 := by
  cases o with
  | blobGet key =>
    intro b hb
    exact (h.bytes key b (World.blob_of_fetched hb)).2
  | bodyCacheGet key tag =>
    intro b hb hlive
    refine h.bodies key tag b hlive ?_
    rwa [← BodyCache.get_fst]
  | _ => trivial

variable {o : StoreOp}

theorem bytes_step (h : Kept ledger live u) (ho : Adds ledger live o) (key : Text) (b : Bytes)
    (hb : (World.sem u o).2.backend.blobs.lookup key = some b) :
    live key ∧ b = ledger key := by
  rcases blobs_step u o key with hsame | ⟨body, rfl, hput⟩ | ⟨rfl, -⟩
  · exact h.bytes key b (hsame ▸ hb)
  · obtain rfl := Option.some.inj (hput.symm.trans hb)
    exact ho
  · exact ho.elim

theorem bodies_step (h : Kept ledger live u) (ho : Caches ledger live o) (key tag : Text)
    (b : Bytes) (hlive : live key) (hb : (World.sem u o).2.bodyCache.body? key tag = some b) :
    b = ledger key := by
  rcases Store.bodies_step hb with hold | rfl
  · exact h.bodies key tag b hlive hold
  · exact ho hlive

theorem step (h : Kept ledger live u) (hc : Caches ledger live o) (ha : Adds ledger live o) :
    Kept ledger live (World.sem u o).2 :=
  ⟨h.bytes_step ha, h.bodies_step hc⟩

end Kept

/-- Bytes that were stored are there. -/
theorem stored_of_put {key : Text} {b : Bytes} (h : (World.sem u (.blobPut key b)).1 = .ok ()) :
    ((World.sem u (.blobPut key b)).2.backend.blobs.lookup key).isSome = true := by
  simp only [World.sem] at h ⊢
  split at h
  · cases h
  · simp [World.withBlobs]

/-- Bytes that are stored stay, as long as none are deleted. -/
theorem stored_step {o : StoreOp} (ho : Adds ledger live o) {key : Text}
    (h : (u.backend.blobs.lookup key).isSome = true) :
    ((World.sem u o).2.backend.blobs.lookup key).isSome = true := by
  rcases blobs_step u o key with hsame | ⟨body, rfl, hput⟩ | ⟨rfl, -⟩
  · rwa [hsame]
  · rw [hput]
    rfl
  · exact ho.elim

end

/-! ## §4 What is cached was read -/

section
variable {ledger : Ledger} {live : Text → Prop} {α β : Type}

/-- Given answers from the ledger, a computation caches only bodies of the ledger. -/
abbrev Fair (ledger : Ledger) (live : Text → Prop) (p : Server α) : Prop :=
  Program.Obeys (S := storeSig) (Answers ledger live) (Caches ledger live) p fun _ _ => True

theorem fair_fetchBody (m : ResourceMeta) : Fair ledger live (fetchBody m) := by
  refine ⟨trivial, fun cached _ => ?_⟩
  cases cached with
  | some b => trivial
  | none =>
    refine ⟨trivial, fun fetched hfetched => ?_⟩
    cases fetched with
    | ok b => exact ⟨fun _ => hfetched b rfl, fun _ _ => trivial⟩
    | error e => trivial

/-- **A request caches what it read.** -/
theorem fair_serve (req : Request) : Fair ledger live (s.serve req) := by
  have hquiet : ∀ {α : Type} {p : Server α}, p.Uses (S := storeSig) (Caches ledger live) →
      Fair ledger live p := fun hp => (Obeys.of_uses hp fun _ h => h).mono fun _ _ _ => trivial
  refine (built_serve req).obeys fun β p hp => ?_
  obtain ⟨hblock, -⟩ := hp
  cases hblock with
  | @idle o h => exact hquiet (uses_perform (by cases o <;> trivial))
  | fetch m => exact fair_fetchBody m
  | write =>
    exact hquiet (uses_write (uses_stage trivial (fun _ => trivial) trivial) fun _ => trivial)
  | create =>
    exact hquiet
      (uses_createInContainer (uses_stage trivial (fun _ => trivial) trivial) fun _ => trivial)
  | delete => exact hquiet (uses_delete trivial (fun _ => trivial) trivial fun _ => trivial)
  | deleteEmpty => exact hquiet (Uses.bind (uses_perform trivial) uses_orStorage)

end

/-! ## §5 Runs of patches -/

/-- The triples stored for a resource. -/
def graphOf (s : LdpState) (b : Backend) (iri : Iri) : Set Triple :=
  {t | ∃ m body ts, b.record? iri = some (m, some body) ∧
    parseToTriples s.codec (storedFormat m.contentType) body iri = .ok ts ∧ t ∈ ts}

/-- **Applying a patch to a set of triples.** -/
def Applies (patch : N3Patch) (before after : Set Triple) : Prop :=
  ∃ ts ts', applyPatch ts patch = .ok ts' ∧ (∀ t, t ∈ before ↔ t ∈ ts) ∧ ∀ t, t ∈ after ↔ t ∈ ts'

theorem serve_patch (h : req.method = .patch) : s.serve req = s.patchHandler req := by
  unfold serve
  rw [h]

theorem present_answer {u : World} (h : (u.backend.index.meta? iri).isSome = true) (o : StoreOp) :
    Present iri o (World.sem u o).1 := by
  cases o with
  | getMeta i =>
    rintro rfl hr
    obtain ⟨m, hm⟩ := Option.isSome_iff_exists.mp h
    simp only [World.sem, World.guardIndex, hm] at hr
    split at hr <;> cases hr
  | _ => trivial

section
variable {ι : Type} [DecidableEq ι] {reqs : ι → Request} {target : LdpTarget} {w v : World}
  {tr : List (Move ι storeSig World)} {P' : ι → Server Response}
  {result : ι → Except ServerError Response}
  (hmethod : ∀ i, (reqs i).method = .patch)
  (hparse : ∀ i, parseTarget s.baseUrl (reqs i).path = .ok target)
  (hrun : Interleaves World.sem (fun _ _ => False) (fun i => s.serve (reqs i)) w tr P' v)
  (hpresent : (w.backend.index.meta? target.iri).isSome = true)

section
include hmethod hrun

theorem retains_move {m : Move ι storeSig World} (hm : m ∈ tr) {i : ι} {o : StoreOp}
    (hactor : m.actor = some (i, o)) : Retains o :=
  (hrun.path i).uses (retains_serve (.inr (hmethod i))) ⟨o, (World.sem m.before o).1⟩
    (List.mem_filterMap.mpr ⟨m, hm, by simp [Move.eventOf, hactor]⟩)

include hpresent

/-- The resource is there throughout. -/
theorem present_before : ∀ m ∈ tr, (m.before.backend.index.meta? target.iri).isSome = true := by
  refine hrun.holds_before (fun u => (u.backend.index.meta? target.iri).isSome = true) ?_ hpresent
  intro m hm h
  obtain ⟨i, o, hactor, hafter⟩ := hrun.own_move hm
  rw [hafter]
  exact meta?_isSome_step (retains_move hmethod hrun hm hactor) h

include hparse

/-- Every patch of the run logs what a patch logs. -/
theorem storeLog_run (hdone : ∀ i, P' i = .ret (result i)) (i : ι) :
    StoreLog target.iri (Merged s (reqs i) target.iri) (ownEvents World.sem i tr) (result i) := by
  have hpath := hrun.path i
  rw [hdone i, serve_patch (hmethod i)] at hpath
  refine (storeLog_patchHandler (hparse i)).of_path hpath fun e he => ?_
  obtain ⟨m, hm, -, -, hanswer⟩ := move_of_event he
  rw [hanswer]
  exact present_answer (present_before hmethod hrun hpresent m hm) e.op

/-- **The bytes of a run** are those of a ledger, at every instant. -/
theorem exists_kept (hw : Consistent w) (hdone : ∀ i, P' i = .ret (result i)) :
    ∃ ledger : Ledger, (∀ m ∈ tr, Kept ledger (Live w tr) m.before ∧ Kept ledger (Live w tr) m.after) ∧
      Kept ledger (Live w tr) w ∧ Kept ledger (Live w tr) v ∧
      (∀ key b, Puts tr key b → b = ledger key) ∧
      ∀ m ∈ tr, ∀ i o, m.actor = some (i, o) → Adds ledger (Live w tr) o := by
  have hlogs := storeLog_run hmethod hparse hrun hpresent hdone
  obtain ⟨ledger, hstart, hputs⟩ := exists_ledger hrun hlogs hw
  have hadds : ∀ m ∈ tr, ∀ i o, m.actor = some (i, o) → Adds ledger (Live w tr) o := by
    intro m hm i o hactor
    have hretains := retains_move hmethod hrun hm hactor
    cases o with
    | blobPut key b =>
      have hput : Puts tr key b := ⟨i, (World.sem m.before (.blobPut key b)).1,
        List.mem_filterMap.mpr ⟨m, hm, by simp [Move.eventOf, hactor]⟩⟩
      exact ⟨.inr ⟨b, hput⟩, hputs key b hput⟩
    | blobDelete key => exact hretains.elim
    | _ => trivial
  have hkept : Kept ledger (Live w tr) w := by
    refine ⟨fun key b hb => ⟨.inl (by rw [hb]; rfl), hstart key b hb⟩, fun key tag b hlive hb => ?_⟩
    rcases hlive with hsome | ⟨b', hput⟩
    · obtain ⟨b', hb'⟩ := Option.isSome_iff_exists.mp hsome
      rw [hw.cached key tag b b' hb hb']
      exact hstart key b' hb'
    · rw [(puts_fresh hrun hlogs hw hput).2 tag] at hb
      cases hb
  obtain ⟨hmoves, hv, -⟩ := hrun.invariant_on (A := Answers ledger (Live w tr))
    (G := Caches ledger (Live w tr)) (K := Adds ledger (Live w tr))
    (I := Kept ledger (Live w tr)) (Q := fun _ _ _ => True) (fun u o h => h.answers o)
    (fun u o h hc hk => h.step hc hk) (fun _ _ _ h => h.elim) (fun i => fair_serve (reqs i)) hadds
    hkept
  exact ⟨ledger, hmoves, hkept, hv, hputs, hadds⟩

end

variable {i : ι} {c : Move ι storeSig World}

/-- Where in the run a patch looked the record up, stored its body and committed. -/
theorem Merged.located (h : Merged s req iri (ownEvents World.sem i tr)) :
    ∃ patch m body newBody f m' t₁ a t₂ p t₃ b t₄,
      s.parsePatch req iri = .ok patch ∧
      s.patchedBody (some ⟨body, m⟩) patch iri = .ok (newBody, f) ∧ m'.contentType = f.mediaType ∧
      tr = t₁ ++ a :: ((t₂ ++ p :: t₃) ++ b :: t₄) ∧
      a.actor = some (i, .getMeta iri) ∧ a.before.backend.index.meta? iri = some m ∧
      Fetched m.blobKey body (ownEvents World.sem i tr) ∧
      p.eventOf World.sem i = some ⟨.blobPut m'.blobKey newBody, .ok ()⟩ ∧
      b.eventOf World.sem i = some ⟨.putMeta iri m', .ok ()⟩ ∧
      (∀ x ∈ t₁ ++ a :: (t₂ ++ p :: t₃), ¬ CommitsAt i iri x) ∧ ∀ x ∈ t₄, ¬ CommitsAt i iri x := by
  obtain ⟨patch, m, body, newBody, f, l₁, e, l₂, hpatch, hbody, hown, hprobe, hfetched,
    ⟨x₁, m', x₂, x₃, hl₂, htype, hquiet⟩, hquiet'⟩ := h
  obtain ⟨t₁, a, u, rfl, ht₁, ha, hu⟩ := ownEvents_split hown
  rw [hl₂] at hu
  obtain ⟨t₂, p, u', rfl, ht₂, hp, hu'⟩ := ownEvents_split hu
  obtain ⟨t₃, b, t₄, rfl, ht₃, hb, ht₄⟩ := ownEvents_split hu'
  obtain ⟨hactor, hanswer⟩ := Move.eventOf_eq_some ha
  obtain ⟨hop, hfound⟩ := meta?_of_probeOf hprobe hanswer
  have hcut : ∀ {t : List (Move ι storeSig World)} {l : List (Event storeSig)},
      ownEvents World.sem i t = l → (∀ x ∈ l, commits iri x = false) →
      ∀ x ∈ t, ¬ CommitsAt i iri x := by
    rintro t _ rfl hl
    exact not_commitsAt_of_events hl
  have hone : ∀ {q : Move ι storeSig World} {c : Event storeSig},
      q.eventOf World.sem i = some c → commits iri c = false → ¬ CommitsAt i iri q := by
    rintro q c hq hc ⟨c', hq', hc'⟩
    obtain rfl := Option.some.inj (hq.symm.trans hq')
    rw [hc] at hc'
    cases hc'
  simp only [List.mem_append] at hquiet
  refine ⟨patch, m, body, newBody, f, m', t₁, a, t₂, p, t₃, b, t₄, hpatch, hbody, htype, by simp,
    by rw [hactor, hop], hfound, ?_, hp, hb, ?_, hcut ht₄ fun x hx => hquiet x (.inr hx)⟩
  · rw [hown]
    exact hfetched.imp (fun ⟨tag, h⟩ => ⟨tag, List.mem_append_right _ (List.mem_cons_of_mem _ h)⟩)
      fun h => List.mem_append_right _ (List.mem_cons_of_mem _ h)
  · intro x hx
    simp only [List.mem_append, List.mem_cons] at hx
    rcases hx with hx | rfl | hx | rfl | hx
    · exact hcut ht₁ hquiet' x hx
    · exact hone ha (commits_of_reads (by rw [hop]; trivial))
    · exact hcut ht₂ (fun x hx => hquiet x (.inl (.inl hx))) x hx
    · exact hone hp rfl
    · exact hcut ht₃ (fun x hx => hquiet x (.inl (.inr hx))) x hx

/-- A commit of a patch is the one its log tells of. -/
theorem commit_eq {t₁ t₂ : List (Move ι storeSig World)} {b : Move ι storeSig World}
    (h₁ : ∀ x ∈ t₁, ¬ CommitsAt i iri x) (h₂ : ∀ x ∈ t₂, ¬ CommitsAt i iri x)
    (hc : c ∈ t₁ ++ b :: t₂) (hci : CommitsAt i iri c) : c = b := by
  rcases List.mem_append.mp hc with hc | hc
  · exact absurd hci (h₁ c hc)
  · rcases List.mem_cons.mp hc with rfl | hc
    · rfl
    · exact absurd hci (h₂ c hc)

/-- The bytes of the resource's record are stored. -/
def Backed (iri : Iri) (u : World) : Prop :=
  ∀ m, u.backend.index.meta? iri = some m → (u.backend.blobs.lookup m.blobKey).isSome = true

variable {ledger : Ledger} {live : Text → Prop}
  (hlogs : ∀ i, StoreLog iri (Merged s (reqs i) iri) (ownEvents World.sem i tr) (result i))
  (hadds : ∀ m ∈ tr, ∀ i o, m.actor = some (i, o) → Adds ledger live o)
include hrun hlogs

omit hrun in
/-- A request that commits to the record has succeeded. -/
theorem ok_of_commitsAt (hc : c ∈ tr) (hci : CommitsAt i iri c) : ∃ resp, result i = .ok resp := by
  obtain ⟨e, he, hcommit⟩ := hci
  cases hr : result i with
  | ok resp => exact ⟨resp, rfl⟩
  | error x =>
    have := (hlogs i).refused (by simp [hr]) e (List.mem_filterMap.mpr ⟨c, hc, he⟩)
    rw [this] at hcommit
    cases hcommit

omit hrun in
theorem merged_of_commitsAt (hc : c ∈ tr) (hci : CommitsAt i iri c) :
    Merged s (reqs i) iri (ownEvents World.sem i tr) := by
  obtain ⟨resp, hr⟩ := ok_of_commitsAt hlogs hc hci
  exact (hlogs i).merged resp hr

include hadds

/-- A commit points at bytes that are stored. -/
theorem backed_of_commitsAt (hc : c ∈ tr) (hci : CommitsAt i iri c) : Backed iri c.after := by
  obtain ⟨patch, m, body, newBody, f, m', t₁, a, t₂, p, t₃, b, t₄, -, -, -, htr, -, -, -, hp, hb,
    hbefore, hafter⟩ := (merged_of_commitsAt hlogs hc hci).located
  have htr' : tr = (t₁ ++ a :: (t₂ ++ p :: t₃)) ++ b :: t₄ := by simp [htr]
  obtain rfl := commit_eq hbefore hafter (htr' ▸ hc) hci
  obtain ⟨hpactor, hpanswer⟩ := Move.eventOf_eq_some hp
  obtain ⟨hcactor, -⟩ := Move.eventOf_eq_some hb
  have hput : (p.after.backend.blobs.lookup m'.blobKey).isSome = true := by
    rw [hrun.after_eq (by simp [htr]) hpactor]
    exact stored_of_put hpanswer.symm
  have hcafter := hrun.after_eq hc hcactor
  -- the bytes stay until the commit, which does not touch them
  have hkeep : (c.before.backend.blobs.lookup m'.blobKey).isSome = true := by
    have hsplit : tr = (t₁ ++ a :: t₂) ++ p :: (t₃ ++ c :: t₄) := by simp [htr]
    refine hrun.keeps_between (fun u : World => (u.backend.blobs.lookup m'.blobKey).isSome = true)
      hsplit (fun x _ hx h => ?_) hput
    obtain ⟨k, o, hactor, hafter⟩ := hrun.own_move hx
    rw [hafter]
    exact stored_step (hadds x hx k o hactor) h
  obtain ⟨e, he, hcommit, hmeta⟩ := hci.after (hrun.mono_env fun _ _ h => h.elim) hc
  obtain rfl := Option.some.inj (hb.symm.trans he)
  intro n hn
  obtain rfl : m' = n := Option.some.inj (hmeta.symm.trans hn)
  rw [hcafter]
  exact stored_step (hadds c hc i _ hcactor) hkeep

/-- The bytes of the record are stored, at every instant. -/
theorem backed_run (hw : Backed iri w) : (∀ m ∈ tr, Backed iri m.before) ∧ Backed iri v := by
  have hstep : ∀ m ∈ tr, Backed iri m.before → Backed iri m.after := by
    intro m hm h
    by_cases hk : ∃ k, CommitsAt k iri m
    · obtain ⟨k, hk⟩ := hk
      exact backed_of_commitsAt hrun hlogs hadds hm hk
    · have hleaves : Leaves iri m := leaves_of_not_commitsAt
        (hrun.mono_env fun _ _ h => h.elim) hm fun k h => hk ⟨k, h⟩
      obtain ⟨k, o, hactor, hafter⟩ := hrun.own_move hm
      intro n hn
      rw [hafter]
      exact stored_step (hadds m hm k o hactor) (h n (hleaves.symm.trans hn))
  exact ⟨hrun.holds_before _ hstep hw, hrun.keeps _ hstep hw⟩

/-- The triples of the record at an instant, by the ledger. -/
def graphAt (s : LdpState) (ledger : Ledger) (iri : Iri) (u : World) : Set Triple :=
  {t | ∃ m ts, u.backend.index.meta? iri = some m ∧
    parseToTriples s.codec (storedFormat m.contentType) (ledger m.blobKey) iri = .ok ts ∧ t ∈ ts}

omit [DecidableEq ι] hrun hlogs hadds in
theorem graphAt_eq {u : World} (hk : Kept ledger live u) (hb : Backed iri u) :
    graphAt s ledger iri u = graphOf s u.backend iri := by
  ext t
  constructor
  · rintro ⟨m, ts, hm, hparse, ht⟩
    obtain ⟨b, hlookup⟩ := Option.isSome_iff_exists.mp (hb m hm)
    refine ⟨m, b, ts, by simp [Backend.record?, hm, hlookup], ?_, ht⟩
    rw [(hk.bytes _ b hlookup).2]
    exact hparse
  · rintro ⟨m, b, ts, hrecord, hparse, ht⟩
    obtain ⟨m', hm, heq⟩ := Option.map_eq_some_iff.mp hrecord
    obtain ⟨rfl, hlookup⟩ := Prod.mk.inj heq
    refine ⟨m', ts, hm, ?_, ht⟩
    rw [← (hk.bytes _ b hlookup).2]
    exact hparse

/-- **A commit applies its patch**: an undisturbed patch turns the triples stored before its
commit into those stored after it. -/
theorem applies_of_commitsAt (hcodec : RoundTrips s.codec) (hw : Backed iri w)
    (hkept : ∀ m ∈ tr, Kept ledger live m.before) (hputs : ∀ key b, Puts tr key b → b = ledger key)
    (hi : Undisturbed iri tr i) (hc : c ∈ tr) (hci : CommitsAt i iri c) :
    ∃ patch, s.parsePatch (reqs i) iri = .ok patch ∧
      Applies patch (graphAt s ledger iri c.before) (graphAt s ledger iri c.after) := by
  obtain ⟨patch, m, body, newBody, f, m', t₁, a, t₂, p, t₃, b, t₄, hpatch, hbody, htype, htr, ha,
    hfound, hfetched, hp, hb, hbefore, hafter⟩ := (merged_of_commitsAt hlogs hc hci).located
  have htr' : tr = (t₁ ++ a :: (t₂ ++ p :: t₃)) ++ b :: t₄ := by simp [htr]
  obtain rfl := commit_eq hbefore hafter (htr' ▸ hc) hci
  have henv : Interleaves World.sem (Elsewhere iri) _ w tr P' v :=
    hrun.mono_env fun _ _ h => h.elim
  have hmem : a ∈ tr := by simp [htr]
  -- the record that was looked up is the one the commit replaces
  have hrecord : c.before.backend.index.meta? iri = some m :=
    (undisturbed_between henv hi htr ha hci hbefore).trans hfound
  have hlive : live m.blobKey := by
    obtain ⟨x, hx⟩ := Option.isSome_iff_exists.mp
      ((backed_run hrun hlogs hadds hw).1 a hmem m hfound)
    exact ((hkept a hmem).bytes _ x hx).1
  -- the body that was fetched is the one it points at
  have hbodyEq : body = ledger m.blobKey := by
    rcases hfetched with ⟨tag, hget⟩ | hget
    · obtain ⟨x, hx, -, -, hanswer⟩ := move_of_event hget
      exact (hkept x hx).answers (.bodyCacheGet m.blobKey tag) body hanswer.symm hlive
    · obtain ⟨x, hx, -, -, hanswer⟩ := move_of_event hget
      exact (hkept x hx).answers (.blobGet m.blobKey) body hanswer.symm
  have hnewEq : newBody = ledger m'.blobKey :=
    hputs _ _ ⟨i, _, List.mem_filterMap.mpr ⟨p, by simp [htr], hp⟩⟩
  obtain ⟨e, he, -, hmeta⟩ := hci.after henv hc
  obtain rfl := Option.some.inj (hb.symm.trans he)
  obtain ⟨rfl, old, patched, hold, happly, hser⟩ := patchedBody_ok hbody
  obtain ⟨new, hnew, hsame⟩ := parse_serialize hcodec (badBase_of_parse hold) hser
  refine ⟨patch, hpatch, old, patched, happly, fun t => ?_, fun t => ?_⟩
  · constructor
    · rintro ⟨n, ts, hn, hparse, ht⟩
      obtain rfl := Option.some.inj (hrecord.symm.trans hn)
      rw [← hbodyEq] at hparse
      obtain rfl := Except.ok.inj (hold.symm.trans hparse)
      exact ht
    · exact fun ht => ⟨m, old, hrecord, by rw [← hbodyEq]; exact hold, ht⟩
  · rw [← hsame t]
    have hformat : storedFormat m'.contentType = storedFormat m.contentType := by
      rw [htype, storedFormat_mediaType]
    constructor
    · rintro ⟨n, ts, hn, hparse, ht⟩
      obtain rfl := Option.some.inj (hmeta.symm.trans hn)
      rw [← hnewEq, hformat] at hparse
      obtain rfl := Except.ok.inj (hnew.symm.trans hparse)
      exact ht
    · exact fun ht => ⟨m', new, hmeta, by rw [← hnewEq, hformat]; exact hnew, ht⟩

end

/-! ## §6 No patch is lost -/

section
variable {ι : Type} [DecidableEq ι] {tr : List (Move ι storeSig World)}

/-- The request whose commit to the record a move is. -/
def committer (iri : Iri) (m : Move ι storeSig World) : Option ι :=
  match m.actor with
  | some (i, o) => if commits iri ⟨o, (World.sem m.before o).1⟩ then some i else none
  | none => none

variable {i : ι}

theorem committer_eq_some {m : Move ι storeSig World} :
    committer iri m = some i ↔ CommitsAt i iri m := by
  unfold committer CommitsAt Move.eventOf
  cases m.actor with
  | none => simp
  | some p =>
    obtain ⟨j, o⟩ := p
    simp only
    split_ifs with hc hj hj
    · simp [hj, hc]
    · simp [hj]
    · simp [hc]
    · simp

/-- The requests in the order of their commits. -/
def commitOrder (iri : Iri) (tr : List (Move ι storeSig World)) : List ι :=
  tr.filterMap (committer iri)

theorem mem_commitOrder : i ∈ commitOrder iri tr ↔ ∃ m ∈ tr, CommitsAt i iri m := by
  simp only [commitOrder, List.mem_filterMap, committer_eq_some]

/-- A request with one commit occurs once. -/
theorem count_commitOrder {t₁ t₂ : List (Move ι storeSig World)} {b : Move ι storeSig World}
    (h₁ : ∀ x ∈ t₁, ¬ CommitsAt i iri x) (hb : CommitsAt i iri b)
    (h₂ : ∀ x ∈ t₂, ¬ CommitsAt i iri x) : (commitOrder iri (t₁ ++ b :: t₂)).count i = 1 := by
  have hnot : ∀ {t : List (Move ι storeSig World)}, (∀ x ∈ t, ¬ CommitsAt i iri x) →
      (commitOrder iri t).count i = 0 := by
    intro t ht
    rw [List.count_eq_zero, mem_commitOrder]
    rintro ⟨m, hm, hc⟩
    exact ht m hm hc
  have hsplit : commitOrder iri (t₁ ++ b :: t₂) =
      commitOrder iri t₁ ++ i :: commitOrder iri t₂ := by
    unfold commitOrder
    rw [List.filterMap_append, List.filterMap_cons_some (committer_eq_some.mpr hb)]
  rw [hsplit, List.count_append, List.count_cons_self, hnot h₁, hnot h₂]

end

/-- **No patch is lost in an undisturbed run.**  Let any number of `PATCH` requests on one stored
resource run side by side to their ends, with no other writer, and let no request's lookup of
the record and commit to it be separated by another request's commit.  Then the stored triples
are the initial ones with the patches that succeeded applied one after the other. -/
theorem no_lost_patch (s : LdpState) (hcodec : RoundTrips s.codec) {ι : Type} [DecidableEq ι]
    (reqs : ι → Request) (target : LdpTarget) {w v : World} {tr : List (Move ι storeSig World)}
    {P' : ι → Server Response} (result : ι → Except ServerError Response)
    (hmethod : ∀ i, (reqs i).method = .patch)
    (hparse : ∀ i, parseTarget s.baseUrl (reqs i).path = .ok target) (hw : Consistent w)
    (hpresent : (w.backend.index.meta? target.iri).isSome = true)
    (hrun : Interleaves World.sem (fun _ _ => False) (fun i => s.serve (reqs i)) w tr P' v)
    (hdone : ∀ i, P' i = .ret (result i)) (hquiet : ∀ i, Undisturbed target.iri tr i) :
    ∃ order : List ι, order.Nodup ∧ (∀ i, i ∈ order ↔ ∃ resp, result i = .ok resp) ∧
      Steps (fun i before after => ∃ patch, s.parsePatch (reqs i) target.iri = .ok patch ∧
        Applies patch before after) order
        (graphOf s w.backend target.iri) (graphOf s v.backend target.iri) := by
  have hlogs := storeLog_run hmethod hparse hrun hpresent hdone
  obtain ⟨ledger, hkept, hkeptw, hkeptv, hputs, hadds⟩ :=
    exists_kept hmethod hparse hrun hpresent hw hdone
  have hback : Backed target.iri w := by
    intro m hm
    obtain ⟨b, hb⟩ := hw.stored target.iri m hm
    rw [hb]
    rfl
  refine ⟨commitOrder target.iri tr, ?_, fun i => ?_, ?_⟩
  · rw [List.nodup_iff_count_le_one]
    intro i
    by_cases hi : i ∈ commitOrder target.iri tr
    · obtain ⟨c, hc, hci⟩ := mem_commitOrder.mp hi
      obtain ⟨-, -, -, -, -, m', t₁, a, t₂, p, t₃, b, t₄, -, -, -, htr, -, -, -, -, hb, hbefore,
        hafter⟩ := (merged_of_commitsAt hlogs hc hci).located
      have htr' : tr = (t₁ ++ a :: (t₂ ++ p :: t₃)) ++ b :: t₄ := by simp [htr]
      rw [htr', count_commitOrder hbefore ⟨_, hb, decide_eq_true rfl⟩ hafter]
    · rw [List.count_eq_zero.mpr hi]
      exact Nat.zero_le 1
  · rw [mem_commitOrder]
    constructor
    · rintro ⟨c, hc, hci⟩
      exact ok_of_commitsAt hlogs hc hci
    · rintro ⟨resp, hresp⟩
      obtain ⟨-, -, -, -, -, m', t₁, a, t₂, p, t₃, b, t₄, -, -, -, htr, -, -, -, -, hb, -⟩ :=
        ((hlogs i).merged resp hresp).located
      exact ⟨b, by simp [htr], _, hb, decide_eq_true rfl⟩
  · rw [← graphAt_eq hkeptw hback,
      ← graphAt_eq hkeptv (backed_run hrun hlogs hadds hback).2]
    refine hrun.abstracts (graphAt s ledger target.iri) (committer target.iri) fun m hm => ?_
    cases hc : committer target.iri m with
    | some i =>
      exact .inr ⟨i, rfl, applies_of_commitsAt hrun hlogs hadds hcodec hback
        (fun x hx => (hkept x hx).1) hputs (hquiet i) hm (committer_eq_some.mp hc)⟩
    | none =>
      refine .inl ⟨rfl, ?_⟩
      have hleaves : Leaves target.iri m := leaves_of_not_commitsAt
        (hrun.mono_env fun _ _ h => h.elim) hm fun k hk => by
          rw [committer_eq_some.mpr hk] at hc
          cases hc
      unfold graphAt
      rw [hleaves]

/-! ## §7 Two insertions -/

/-- One after the other, patches that delete nothing keep what one of them inserts. -/
theorem mem_of_steps {ι : Type} {reqs : ι → Request} {order : List ι} {before after : Set Triple}
    (hsteps : Steps (fun i before after => ∃ patch, s.parsePatch (reqs i) iri = .ok patch ∧
      Applies patch before after) order before after)
    (hdel : ∀ i patch, s.parsePatch (reqs i) iri = .ok patch → patch.deletes = [])
    {j : ι} {t : Triple} (hins : ∀ patch, s.parsePatch (reqs j) iri = .ok patch →
      ∀ b, ∃ ts, instantiateAll patch.inserts b = .ok ts ∧ t ∈ ts)
    (h : t ∈ before ∨ j ∈ order) : t ∈ after := by
  induction hsteps with
  | nil x => simpa using h
  | cons hstep _ ih =>
    obtain ⟨patch, hpatch, ts, ts', happly, hbefore, hafter⟩ := hstep
    refine ih ?_
    rcases h with h | h
    · exact .inl ((hafter t).mpr
        (mem_applyPatch_of_insert_only (hdel _ patch hpatch) happly ((hbefore t).mp h)))
    · rcases List.mem_cons.mp h with rfl | h
      · obtain ⟨b, deletes, inserts, -, -, hi, -, hmem⟩ := applyPatch_ok happly
        obtain ⟨ts₁, hts, ht⟩ := hins patch hpatch b
        obtain rfl := Except.ok.inj (hi.symm.trans hts)
        exact .inl ((hafter t).mpr ((hmem t).mpr (.inr ht)))
      · exact .inr h

/-- A table with a second statement to insert, and the patch documents for both. -/
def raceState : LdpState :=
  ⟨tableCodec (noteTable ++ [⟨noteTriple "#other", .defaultGraph⟩])
    (insertRules ++ [⟨.namedNode "#x".toList, .namedNode "#p".toList, .namedNode "#other".toList,
      .blankNode "g".toList⟩]), "http://h".toList, "DPoP".toList⟩

/-- Two unconditional patches of `/d`: one inserts `#new`, the other `#other`. -/
def raceNote (new : Bool) : Request :=
  { insertNote with body := if new then [0, 1] else [0, 2] }

def racePatch (new : Bool) : N3Patch :=
  ⟨[], [], [⟨.term (.namedNode "#x".toList), .term (.namedNode "#p".toList),
    .term (.namedNode (if new then "#new".toList else "#other".toList))⟩]⟩

theorem parsePatch_raceNote (new : Bool) :
    raceState.parsePatch (raceNote new) noteTarget.iri = .ok (racePatch new) := by
  cases new <;> decide

/-- What is left of the first patch once it has read the body, and the world it left. -/
def racePaused : Server Response × World :=
  Program.advance World.sem 12 (raceState.serve (raceNote true)) noteWorld

/-- One after the other: both statements are inserted. -/
theorem no_lost_patch_in_turn :
    ∃ (tr : List (Move Bool storeSig World)) (P' : Bool → Server Response) (v : World),
      Interleaves World.sem (fun _ _ => False) (fun i => raceState.serve (raceNote i)) noteWorld
        tr P' v ∧
      ∃ order : List Bool, order.Nodup ∧ (∀ i, i ∈ order) ∧
        Steps (fun i before after => ∃ patch,
          raceState.parsePatch (raceNote i) noteTarget.iri = .ok patch ∧
          Applies patch before after) order
          (graphOf raceState noteWorld.backend noteTarget.iri)
          (graphOf raceState v.backend noteTarget.iri) := by
  have hrun := Interleaves.in_turn World.sem (fun _ _ => False)
    (fun i : Bool => raceState.serve (raceNote i)) noteWorld (i := true) (j := false) (by decide)
  obtain ⟨htrue, hfalse⟩ := undisturbed_in_turn noteTarget.iri (i := true) (j := false)
    (by decide) (actor_solo true (raceState.serve (raceNote true)) noteWorld)
    (actor_solo false (raceState.serve (raceNote false))
      ((raceState.serve (raceNote true)).run World.sem noteWorld).2)
  obtain ⟨hfirst, hsecond, hparse, hpresent⟩ :
      okStatus ((raceState.serve (raceNote true)).run World.sem noteWorld).1 = some 204 ∧
      okStatus ((raceState.serve (raceNote false)).run World.sem
        ((raceState.serve (raceNote true)).run World.sem noteWorld).2).1 = some 204 ∧
      parseTarget raceState.baseUrl insertNote.path = .ok noteTarget ∧
      (noteWorld.backend.index.meta? noteTarget.iri).isSome = true := by decide
  obtain ⟨resp, hresp, -⟩ := exists_of_okStatus hfirst
  obtain ⟨resp', hresp', -⟩ := exists_of_okStatus hsecond
  rw [hresp, hresp'] at hrun
  have hsound : Sound raceState.wac noteWorld := sound_seeded _ _
  obtain ⟨order, hnodup, hmem, hsteps⟩ := no_lost_patch raceState (roundTrips_tableCodec _ _)
    raceNote noteTarget (fun i => if i then .ok resp else .ok resp') (fun _ => rfl)
    (fun _ => hparse) hsound.toConsistent hpresent hrun
    (Bool.forall_bool.mpr ⟨rfl, rfl⟩) (Bool.forall_bool.mpr ⟨hfalse, htrue⟩)
  refine ⟨_, _, _, hrun, order, hnodup, fun i => (hmem i).mpr ?_, hsteps⟩
  cases i
  · exact ⟨resp', rfl⟩
  · exact ⟨resp, rfl⟩

/-- **A patch is lost**: the second insertion runs between the read and the commit of the first.
Both answer 204, and the stored triples are not the result of applying both in either order. -/
theorem patch_lost :
    RoundTrips raceState.codec ∧
    (∀ i, (raceNote i).method = .patch ∧ headerStr (raceNote i).headers .ifMatch = none ∧
      headerStr (raceNote i).headers .ifNoneMatch = none) ∧
    ∃ (tr : List (Move Bool storeSig World)) (P' : Bool → Server Response) (v : World)
      (resp : Bool → Response),
      Interleaves World.sem (fun _ _ => False) (fun i => raceState.serve (raceNote i)) noteWorld
        tr P' v ∧
      (∀ i, P' i = .ret (.ok (resp i)) ∧ (resp i).status = 204) ∧
      ¬ ∃ order : List Bool, (∀ i, i ∈ order) ∧
        Steps (fun i before after => ∃ patch,
          raceState.parsePatch (raceNote i) noteTarget.iri = .ok patch ∧
          Applies patch before after) order
          (graphOf raceState noteWorld.backend noteTarget.iri)
          (graphOf raceState v.backend noteTarget.iri) := by
  refine ⟨roundTrips_tableCodec _ _, by decide, ?_⟩
  have hpaused := Interleaves.some_way World.sem (fun _ _ => False)
    (fun i : Bool => raceState.serve (raceNote i)) noteWorld true 12
  have hrest := Interleaves.in_turn World.sem (fun _ _ => False)
    (Function.update (fun i : Bool => raceState.serve (raceNote i)) true racePaused.1)
    racePaused.2 (i := false) (j := true) (by decide)
  have hrun := hpaused.append hrest
  obtain ⟨hfirst, hsecond, hstored, hparsed⟩ :
      okStatus (racePaused.1.run World.sem
        ((raceState.serve (raceNote false)).run World.sem racePaused.2).2).1 = some 204 ∧
      okStatus ((raceState.serve (raceNote false)).run World.sem racePaused.2).1 = some 204 ∧
      ((racePaused.1.run World.sem ((raceState.serve (raceNote false)).run World.sem
        racePaused.2).2).2.backend.record? noteTarget.iri).map
          (fun r => (storedFormat r.1.contentType, r.2)) = some (.turtle, some [10, 9]) ∧
      parseToTriples raceState.codec .turtle [10, 9] noteTarget.iri =
        .ok [noteTriple "#old", noteTriple "#new"] := by decide
  obtain ⟨resp, hresp, hstatus⟩ := exists_of_okStatus hfirst
  obtain ⟨resp', hresp', hstatus'⟩ := exists_of_okStatus hsecond
  refine ⟨_, _, _, fun i => if i then resp else resp', hrun, Bool.forall_bool.mpr
    ⟨⟨congrArg Program.ret hresp', hstatus'⟩, ⟨congrArg Program.ret hresp, hstatus⟩⟩, ?_⟩
  rintro ⟨order, hall, hsteps⟩
  -- one after the other the patches keep `#other`, but the stored body lacks it
  have hother : noteTriple "#other" ∈ graphOf raceState _ noteTarget.iri :=
    mem_of_steps hsteps (fun i patch hp => by
      rw [parsePatch_raceNote] at hp
      rw [← Except.ok.inj hp]
      rfl) (j := false) (fun patch hp b => by
      rw [parsePatch_raceNote] at hp
      rw [← Except.ok.inj hp]
      exact ⟨[noteTriple "#other"], rfl, List.mem_singleton_self _⟩) (.inr (hall false))
  obtain ⟨m, body, ts, hrecord, hts, ht⟩ := hother
  obtain ⟨r, hr, heq⟩ := Option.map_eq_some_iff.mp hstored
  obtain rfl := Option.some.inj (hrecord.symm.trans hr)
  obtain ⟨hformat, hbody⟩ := Prod.mk.inj heq
  obtain rfl := Option.some.inj hbody
  rw [show storedFormat m.contentType = .turtle from hformat, hparsed] at hts
  obtain rfl := Except.ok.inj hts
  revert ht
  decide

end SolidServer.Ldp.LdpState
