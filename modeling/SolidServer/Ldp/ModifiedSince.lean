import Mathlib.Data.Int.ConditionallyCompleteOrder
import SolidServer.Ldp.Dates
import SolidServer.Ldp.NotModified
import SolidServer.Store.Steps

/-!
# Conditional reads by date

A record carries the time it was written at, and a later request writes at a later reading
of the clock (`Stamped`).  So a client that sends the `Last-Modified` of an earlier answer
back in `If-Modified-Since` is answered 304 until the resource is rewritten in a later second
(`notModified_iff_not_rewritten`).

`dates_round_trip` collects what is to be said about dates, with the calendar and the two
date formats.  `fraction_discarded` is a form that is not read as the instant it denotes.
-/

namespace SolidServer.Ldp.LdpState

open SolidServer.Effects SolidServer.Store SolidServer.Authz

variable {s : LdpState} {u v w : World} {target : LdpTarget} {req : Request}

/-! ## §1 Records are stamped when they are written -/

/-- The record bears a reading of the clock taken between the two states. -/
def StampedAt (w w' : World) (m : ResourceMeta) : Prop :=
  ∃ n, w.readings ≤ n ∧ n < w'.readings ∧ m.lastModified = some (w.clock n)

/-- **From one state to a later one** the clock has gone on, and every record is an old one or
bears a time read in between. -/
structure Stamped (w w' : World) : Prop where
  clock : w'.clock = w.clock
  readings : w.readings ≤ w'.readings
  records : ∀ iri m, w'.backend.index.meta? iri = some m →
    w.backend.index.meta? iri = some m ∨ StampedAt w w' m

/-- The steps that commit no record. -/
def Erases : StoreOp → Prop
  | .putMeta _ _ | .createChild _ _ _ => False
  | _ => True

/-- No step turns the clock back or exchanges it. -/
theorem clock_step (w : World) (o : StoreOp) :
    (World.sem w o).2.clock = w.clock ∧ w.readings ≤ (World.sem w o).2.readings := by
  cases o <;> first
    | exact ⟨rfl, Nat.le_refl _⟩
    | exact ⟨rfl, Nat.le_succ _⟩
    | (simp only [World.sem]
       split <;> exact ⟨rfl, Nat.le_refl _⟩)

namespace Stamped

theorem refl (w : World) : Stamped w w := ⟨rfl, Nat.le_refl _, fun _ _ h => .inl h⟩

theorem trans (h : Stamped u v) (h' : Stamped v w) : Stamped u w where
  clock := h'.clock.trans h.clock
  readings := Nat.le_trans h.readings h'.readings
  records iri m hm := by
    rcases h'.records iri m hm with hold | ⟨n, hlow, hhigh, htime⟩
    · rcases h.records iri m hold with hold | ⟨n, hlow, hhigh, htime⟩
      · exact .inl hold
      · exact .inr ⟨n, hlow, Nat.lt_of_lt_of_le hhigh h'.readings, htime⟩
    · rw [h.clock] at htime
      exact .inr ⟨n, Nat.le_trans h.readings hlow, hhigh, htime⟩

theorem step (w : World) (o : StoreOp) (ho : Erases o) : Stamped w (World.sem w o).2 where
  clock := (clock_step w o).1
  readings := (clock_step w o).2
  records iri m hm := by
    rcases meta?_step w o iri with hsame | ⟨n, hstores, -⟩ | ⟨-, hnone⟩
    · exact .inl (hsame.symm.trans hm)
    · rcases hstores.op with rfl | ⟨c, rfl⟩ <;> exact ho.elim
    · rw [hnone] at hm
      cases hm

theorem of_uses {α : Type} {p : Server α} (hp : p.Uses (S := storeSig) Erases) (w : World) :
    Stamped w (exec p w).2 :=
  Program.Uses.run_rel World.sem hp Stamped refl trans step w

/-- Committing a record that was stamped on the way. -/
theorem commit {o : StoreOp} {iri : Iri} {m : ResourceMeta}
    (ho : o = .putMeta iri m ∨ ∃ container, o = .createChild container iri m) (h : Stamped w v)
    (hm : StampedAt w v m) : Stamped w (World.sem v o).2 where
  clock := (clock_step v o).1.trans h.clock
  readings := Nat.le_trans h.readings (clock_step v o).2
  records j n hn := by
    obtain ⟨k, hlow, hhigh, htime⟩ := hm
    have hlater := (clock_step v o).2
    have hwiden : ∀ r, StampedAt w v r → StampedAt w (World.sem v o).2 r := by
      rintro r ⟨k, hlow, hhigh, htime⟩
      exact ⟨k, hlow, Nat.lt_of_lt_of_le hhigh hlater, htime⟩
    rcases meta?_step v o j with hsame | ⟨r, hr, hput⟩ | ⟨-, hnone⟩
    · rcases h.records j n (hsame.symm.trans hn) with hold | hstamped
      · exact .inl hold
      · exact .inr (hwiden n hstamped)
    · -- the record committed is the one that was staged
      obtain rfl : r = m := by
        rcases ho with rfl | ⟨c, rfl⟩ <;> rcases hr.op with hr | ⟨c', hr⟩ <;> cases hr <;> rfl
      obtain rfl := Option.some.inj (hput.symm.trans hn)
      exact .inr (hwiden _ ⟨k, hlow, hhigh, htime⟩)
    · rw [hnone] at hn
      cases hn

end Stamped

theorem stamped_stage (w : World) (iri : Iri) (body : Bytes) (contentType : Text) :
    Spec (stage iri body contentType) w fun r w' =>
      Stamped w w' ∧ ∀ m, r = .ok m → StampedAt w w' m := by
  unfold stage mintBlobKey
  refine Spec.perform_bind ?_
  have hdraw : Stamped w (World.sem w .random).2 := .step w .random trivial
  cases hs : (World.sem w .random).1 with
  | error e => exact ⟨hdraw, fun m hm => by cases hm⟩
  | ok suffix =>
    refine Spec.perform_bind ?_
    have hput := hdraw.trans (.step _ (.blobPut (blobKeyFor iri suffix) body) trivial)
    cases hb : (World.sem (World.sem w .random).2 (.blobPut (blobKeyFor iri suffix) body)).1 with
    | error e => exact ⟨hput, fun m hm => by cases hm⟩
    | ok _ =>
      refine Spec.perform_bind ?_
      refine ⟨hput.trans (.step _ .now trivial), fun m hm => ?_⟩
      obtain rfl := Except.ok.inj hm
      refine ⟨_, hput.readings, Nat.lt_succ_self _, ?_⟩
      rw [← hput.clock]
      rfl

theorem stamped_write (w : World) (iri : Iri) (body : Bytes) (contentType : Text) :
    Spec (write iri body contentType) w fun _ w' => Stamped w w' := by
  refine Spec.bind (stamped_stage w iri body contentType) ?_ fun _ _ herr => herr.1
  rintro m v ⟨hv, hm⟩
  refine Spec.perform_bind ?_
  have hcommit := hv.commit (.inl rfl : StoreOp.putMeta iri m = .putMeta iri m ∨ _) (hm m rfl)
  cases (World.sem v (.putMeta iri m)).1 with
  | error e => exact hcommit
  | ok _ => exact hcommit

theorem stamped_createInContainer (w : World) (container child : Iri) (body : Bytes)
    (contentType : Text) :
    Spec (createInContainer container child body contentType) w fun _ w' => Stamped w w' := by
  refine Spec.bind (stamped_stage w child body contentType) ?_ fun _ _ herr => herr.1
  rintro m v ⟨hv, hm⟩
  refine Spec.perform_bind ?_
  have hcommit := hv.commit
    (.inr ⟨container, rfl⟩ : StoreOp.createChild container child m = .putMeta child m ∨ _) (hm m rfl)
  cases (World.sem v (.createChild container child m)).1 with
  | error e => cases e <;> exact hcommit
  | ok _ => exact hcommit

/-- **Every block leaves records stamped.** -/
theorem Stamped.block (w₀ : World) (α : Type) (p : Server α) (hp : Block α p) (w : World)
    (h : Stamped w₀ w) : Stamped w₀ (exec p w).2 := by
  cases hp with
  | @idle o ho =>
    refine h.trans (.step w o ?_)
    cases o <;> trivial
  | fetch m => exact h.trans (.of_uses (uses_fetchBody m trivial trivial fun _ => trivial) w)
  | write iri body contentType => exact h.trans (stamped_write w iri body contentType)
  | create container child body contentType =>
    exact h.trans (stamped_createInContainer w container child body contentType)
  | delete iri parent =>
    exact h.trans (.of_uses (uses_delete trivial (fun _ => trivial) trivial fun _ => trivial) w)
  | deleteEmpty iri parent =>
    exact h.trans (.of_uses (p := deleteContainerIfEmpty iri parent)
      (Program.Uses.bind (uses_perform trivial) uses_orStorage) w)

theorem Stamped.handle (s : LdpState) (req : Request) (w : World) :
    Stamped w (s.handle req w).2 := keeps_handle (Stamped.block w) req w (.refl w)

theorem Stamped.run (s : LdpState) (reqs : List Request) (w : World) : Stamped w (s.run reqs w) := by
  induction reqs generalizing w with
  | nil => exact .refl w
  | cons req rest ih => exact (Stamped.handle s req w).trans (ih _)

/-! ## §2 Rewritten resources -/

/-- A request puts a new record at a resource, at a time it reads from the clock. -/
def WrittenBy (s : LdpState) (w : World) (req : Request) (iri : Iri) (t : SystemTime) : Prop :=
  ∃ m, (s.handle req w).2.backend.index.meta? iri = some m ∧
    w.backend.index.meta? iri ≠ some m ∧ m.lastModified = some t ∧
    ∃ n, w.readings ≤ n ∧ n < (s.handle req w).2.readings ∧ t = w.clock n

/-- **Some request of a history rewrites the resource**, in a second after that of `t₀`. -/
def RewrittenAfter (s : LdpState) (w : World) (reqs : List Request) (iri : Iri) (t₀ : SystemTime) :
    Prop :=
  ∃ before req after t, reqs = before ++ req :: after ∧
    WrittenBy s (s.run before w) req iri t ∧ t₀ / 1000000000 < t / 1000000000

/-- No record bears a time the clock is still to show. -/
def Dated (w : World) : Prop :=
  ∀ iri m t, w.backend.index.meta? iri = some m → m.lastModified = some t →
    ∀ n, w.readings ≤ n → t ≤ w.clock n

theorem Dated.stamped (hclock : Monotone w.clock) (h : Dated w) (hw : Stamped w v) : Dated v := by
  intro iri m t hm ht n hn
  rw [hw.clock]
  rcases hw.records iri m hm with hold | ⟨k, -, hhigh, htime⟩
  · exact h iri m t hold ht n (Nat.le_trans hw.readings hn)
  · obtain rfl := Option.some.inj (htime.symm.trans ht)
    exact hclock (by omega)

variable {reqs : List Request} {iri : Iri} {m : ResourceMeta} {t : SystemTime} {L : Text}

/-- The record at the end of a history was there at its beginning, or one of the requests
wrote it. -/
theorem exists_writer (h : (s.run reqs w).backend.index.meta? iri = some m) :
    w.backend.index.meta? iri = some m ∨ ∃ before req after t, reqs = before ++ req :: after ∧
      WrittenBy s (s.run before w) req iri t ∧ m.lastModified = some t := by
  induction reqs generalizing w with
  | nil => exact .inl h
  | cons req rest ih =>
    rcases ih h with hfirst | ⟨before, r, after, t, rfl, hwritten, ht⟩
    · by_cases hold : w.backend.index.meta? iri = some m
      · exact .inl hold
      · rcases (Stamped.handle s req w).records iri m hfirst with hsame | ⟨n, hlow, hhigh, htime⟩
        · exact absurd hsame hold
        · exact .inr ⟨[], req, rest, _, rfl,
            ⟨m, hfirst, hold, htime, n, hlow, hhigh, rfl⟩, htime⟩
    · exact .inr ⟨req :: before, r, after, t, rfl, hwritten, ht⟩

theorem run_append (s : LdpState) (as bs : List Request) (w : World) :
    s.run (as ++ bs) w = s.run bs (s.run as w) := by
  induction as generalizing w with
  | nil => rfl
  | cons a as ih => exact ih _

/-- **The date of the record at the end** of a history is later than that of the record at its
beginning, to the second, exactly when a request rewrote the resource in a later second. -/
theorem later_iff_rewritten (hclock : Monotone w.clock) {m' : ResourceMeta} {t' : SystemTime}
    (hm : w.backend.index.meta? iri = some m) (ht : m.lastModified = some t)
    (hm' : (s.run reqs w).backend.index.meta? iri = some m') (ht' : m'.lastModified = some t') :
    t / 1000000000 < t' / 1000000000 ↔ RewrittenAfter s w reqs iri t := by
  constructor
  · intro hlater
    rcases exists_writer hm' with hsame | ⟨before, req, after, t'', hreqs, hwritten, htime⟩
    · obtain rfl := Option.some.inj (hm.symm.trans hsame)
      obtain rfl := Option.some.inj (ht.symm.trans ht')
      exact absurd hlater (lt_irrefl _)
    · obtain rfl := Option.some.inj (ht'.symm.trans htime)
      exact ⟨before, req, after, _, hreqs, hwritten, hlater⟩
  · rintro ⟨before, req, after, t₁, rfl, ⟨m₁, hm₁, -, htime₁, n, -, hhigh, rfl⟩, hlater⟩
    -- from the rewriting on, every record bears a time at least as late
    have hcl : (s.run before w).clock = w.clock := (Stamped.run s before w).clock
    have hafter := Stamped.run s after (s.handle req (s.run before w)).2
    have hhandled := (Stamped.handle s req (s.run before w)).clock
    rw [run_append] at hm'
    have hle : (s.run before w).clock n ≤ t' := by
      rcases hafter.records iri m' hm' with hsame | ⟨k, hlow, -, htime⟩
      · obtain rfl := Option.some.inj (hm₁.symm.trans hsame)
        exact le_of_eq (Option.some.inj (htime₁.symm.trans ht'))
      · obtain rfl := Option.some.inj (htime.symm.trans ht')
        rw [hhandled, hcl]
        exact hclock (by omega)
    exact lt_of_lt_of_le hlater (Int.ediv_le_ediv (by decide) hle)

/-! ## §3 The date a read answers with -/

theorem lastModified_intoResponse (e : ServerError) :
    e.intoResponse.headers.get .lastModified = none := by
  have htext : ∀ status body, (Response.ofText status body).headers.get .lastModified = none := by
    intro status body
    rfl
  cases e with
  | unauthorized status message www =>
    have hset := HeaderMap.get_setStr_ne (Response.ofText status "unauthorized".toList).headers www
      (show HeaderName.lastModified ≠ .wwwAuthenticate by decide)
    simp only [ServerError.intoResponse]
    unfold HeaderMap.setStr at hset
    split
    case h_1 v hv =>
      rw [hv] at hset
      exact hset.trans (htext _ _)
    case h_2 => exact htext _ _
  | _ => exact htext _ _

/-- **A read that answers with a date** found a record of that date. -/
theorem read_dated (hs : Sound s.wac w) {withBody : Bool}
    (hmethod : req.method = if withBody then .get else .head)
    (hparse : parseTarget s.baseUrl req.path = .ok target) (hdoc : target.isContainer = false)
    (hL : headerStr (s.handle req w).1.headers .lastModified = some L) :
    ∃ m t, w.backend.index.meta? target.iri = some m ∧ m.lastModified = some t ∧
      (t / 1000000000 < endOfYears → toImfFixdate t = some L) := by
  have hserve : s.serve req = s.serveRead req withBody := by
    unfold serve
    rw [hmethod]
    cases withBody <;> rfl
  have hhandle : (s.handle req w).1 = respond (exec (s.serveRead req withBody) w).1 := by
    rw [← hserve]
    rfl
  have herror : ∀ e, (exec (s.serveRead req withBody) w).1 ≠ .error e := by
    intro e he
    rw [hhandle, he, respond, headerStr, lastModified_intoResponse] at hL
    cases hL
  rcases serveRead_cases hs hparse withBody with ⟨e, he⟩ | ⟨sel, -, hsel, hanswer⟩
  · exact absurd he (herror e)
  cases ha : sel.answer s req withBody with
  | error e => exact absurd (hanswer.trans ha) (herror e)
  | ok resp =>
    have hlast : sel.lastModified = sel.resource.meta_.lastModified := by
      rw [Selection.lastModified, hsel.target_eq, hdoc]
      rfl
    rw [hhandle, hanswer, ha, respond, headerStr, get_answer ha (.inr rfl), Selection.headers,
      get_readHeaders _ _ _ _ _ (.inr (.inr rfl)), if_pos rfl, hlast] at hL
    cases ht : sel.resource.meta_.lastModified with
    | none =>
      rw [ht] at hL
      cases hL
    | some t =>
      refine ⟨_, t, hsel.record, ht, fun hend => ?_⟩
      rw [ht, Option.bind_some] at hL
      cases himf : toImfFixdate t with
      | none =>
        rw [himf] at hL
        cases hL
      | some imf =>
        obtain ⟨v, hv, htext⟩ := Text.Visible.header (visible_toImfFixdate hend himf).2
        rw [himf, Option.bind_some, hv, Option.bind_some, htext] at hL
        exact hL

/-- **A read without `If-None-Match`** is answered 304 exactly when the record it selects is not
later than `If-Modified-Since`. -/
theorem read_304_iff (hs : Sound s.wac w) (hmethod : req.method = .get)
    (hparse : parseTarget s.baseUrl req.path = .ok target) (hdoc : target.isContainer = false)
    (hnone : headerStr req.headers .ifNoneMatch = none) {since : Int}
    (hL : headerStr req.headers .ifModifiedSince = some L) (hsince : parseHttpDate L = some since) :
    (s.handle req w).1.status = 304 ↔ ∃ sel, (exec (s.select .get req.path req.requester
        (headerStr req.headers .accept)) w).1 = .ok sel ∧
      ∃ m secs, w.backend.index.meta? target.iri = some m ∧
        m.lastModified.bind SystemTime.unixSecs? = some secs ∧ secs ≤ since := by
  have hcompare : ∀ sel, Selects s w target (headerStr req.headers .accept) sel →
      (evaluateRead (headerStr req.headers .ifNoneMatch) (headerStr req.headers .ifModifiedSince)
          sel.etag sel.lastModified = .notModified ↔
        ∃ secs, sel.resource.meta_.lastModified.bind SystemTime.unixSecs? = some secs ∧
          secs ≤ since) := by
    intro sel hsel
    have hlast : sel.lastModified = sel.resource.meta_.lastModified := by
      rw [Selection.lastModified, hsel.target_eq, hdoc]
      rfl
    rw [hnone, hL, hlast, evaluateRead, Option.bind_some, hsince]
    cases sel.resource.meta_.lastModified.bind SystemTime.unixSecs? with
    | none => simp
    | some secs => simp
  constructor
  · intro h304
    obtain ⟨sel, hselect, hsel, hanswer⟩ := read_answered hs hmethod hparse (by rw [h304]; decide)
    obtain ⟨secs, hsecs, hle⟩ := (hcompare sel hsel).mp (answer_304 hanswer h304)
    exact ⟨sel, hselect, _, secs, hsel.record, hsecs, hle⟩
  · rintro ⟨sel, hselect, m, secs, hm, hsecs, hle⟩
    have hsel : Selects s w target (headerStr req.headers .accept) sel :=
      spec_select hs hparse .get req.requester sel hselect
    obtain rfl := Option.some.inj (hsel.record.symm.trans hm)
    have hfresh := (hcompare sel hsel).mpr ⟨secs, hsecs, hle⟩
    rw [handle_get hmethod, serveRead_eq]
    rcases hrun : exec (s.select .get req.path req.requester (headerStr req.headers .accept)) w
      with ⟨r, w'⟩
    rw [hrun] at hselect
    obtain rfl : r = .ok sel := hselect
    rw [if_pos rfl, exec_bind_ok hrun, Selection.answer, if_pos hfresh]
    rfl

/-! ## §4 Conditional reads -/

/-- **A client that revalidates by date**: a read of a document is answered with a date, and a
later `GET` sends the date back. -/
structure Revalidates (s : LdpState) (w : World) (target : LdpTarget) (first again : Request)
    (L : Text) : Prop where
  reads : first.method = .get ∨ first.method = .head
  path : parseTarget s.baseUrl first.path = .ok target
  document : target.isContainer = false
  dated : headerStr (s.handle first w).1.headers .lastModified = some L
  get : again.method = .get
  again_path : parseTarget s.baseUrl again.path = .ok target
  no_tag : headerStr again.headers .ifNoneMatch = none
  echoes : headerStr again.headers .ifModifiedSince = some L

theorem calm_read (hs : Sound s.wac w) (hreads : req.method = .get ∨ req.method = .head) :
    Sound s.wac (s.handle req w).2 ∧ Quiet w (s.handle req w).2 := by
  have hserve : s.serve req = s.serveRead req true ∨ s.serve req = s.serveRead req false := by
    unfold serve
    rcases hreads with h | h <;> rw [h]
    · exact .inl rfl
    · exact .inr rfl
  show Sound s.wac (exec (s.serve req) w).2 ∧ Quiet w (exec (s.serve req) w).2
  rcases hserve with h | h <;> rw [h] <;> exact (perused_serveRead req _).calm rfl hs

/-- The record at the end of a history is no older than the one at its beginning. -/
theorem dated_run (hdated : Dated w) {m' : ResourceMeta} (hm : w.backend.index.meta? iri = some m)
    (ht : m.lastModified = some t) (hm' : (s.run reqs w).backend.index.meta? iri = some m') :
    ∃ t', m'.lastModified = some t' ∧ t ≤ t' := by
  rcases (Stamped.run s reqs w).records iri m' hm' with hsame | ⟨n, hlow, -, htime⟩
  · obtain rfl := Option.some.inj (hm.symm.trans hsame)
    exact ⟨t, ht, le_refl t⟩
  · exact ⟨_, htime, hdated iri m t hm ht n hlow⟩

/-- **A client that revalidates is answered 304** exactly when there is still something to be
served and no request has since rewritten the resource in a later second. -/
theorem notModified_iff_not_rewritten (hs : Sound s.wac w) (hclock : Monotone w.clock)
    (hdated : Dated w) {first again : Request} (h : Revalidates s w target first again L)
    (hm : w.backend.index.meta? target.iri = some m) (ht : m.lastModified = some t)
    (hend : t / 1000000000 < endOfYears) (between : List Request) :
    (s.handle again (s.run between (s.handle first w).2)).1.status = 304 ↔
      (∃ sel, (exec (s.select .get again.path again.requester (headerStr again.headers .accept))
        (s.run between (s.handle first w).2)).1 = .ok sel) ∧
      ¬ RewrittenAfter s (s.handle first w).2 between target.iri t := by
  -- the first read shows the date and leaves the records as they are
  obtain ⟨hs₁, hq⟩ := calm_read hs h.reads
  have hstamped := Stamped.handle s first w
  have himf : toImfFixdate t = some L := by
    obtain ⟨withBody, hmethod⟩ : ∃ b : Bool, first.method = if b then .get else .head := by
      rcases h.reads with hget | hhead
      · exact ⟨true, hget⟩
      · exact ⟨false, hhead⟩
    obtain ⟨m', t', hm', ht', hL⟩ := read_dated hs hmethod h.path h.document h.dated
    obtain rfl := Option.some.inj (hm.symm.trans hm')
    obtain rfl := Option.some.inj (ht.symm.trans ht')
    exact hL hend
  have hpos := (visible_toImfFixdate hend himf).1
  have hsince : parseHttpDate L = some (t / 1000000000) := by
    have hround := parseHttpDate_toImfFixdate hpos hend
    rwa [himf, Option.bind_some] at hround
  generalize (s.handle first w).2 = w₁ at hs₁ hq hstamped ⊢
  have hclock₁ : Monotone w₁.clock := by rwa [hstamped.clock]
  have hdated₁ := hdated.stamped hclock hstamped
  rw [← hq.backend] at hm
  -- what the second read compares is the record at the end of the history
  have hlater : ∀ {m' t'}, (s.run between w₁).backend.index.meta? target.iri = some m' →
      m'.lastModified = some t' →
      (t / 1000000000 < t' / 1000000000 ↔ RewrittenAfter s w₁ between target.iri t) :=
    fun hm' ht' => later_iff_rewritten hclock₁ hm ht hm' ht'
  rw [read_304_iff (sound_run hs₁ between) h.get h.again_path h.document h.no_tag h.echoes hsince]
  constructor
  · rintro ⟨sel, hselect, m', secs, hm', hsecs, hle⟩
    obtain ⟨t', ht', hle'⟩ := dated_run hdated₁ hm ht hm'
    have hunix : SystemTime.unixSecs? t' = some (t' / 1000000000) := if_pos (le_trans hpos hle')
    rw [ht', Option.bind_some, hunix] at hsecs
    obtain rfl := Option.some.inj hsecs
    exact ⟨⟨sel, hselect⟩, fun hrewritten => absurd ((hlater hm' ht').mpr hrewritten) (not_lt.mpr hle)⟩
  · rintro ⟨⟨sel, hselect⟩, hkept⟩
    have hm' := (spec_select (sound_run hs₁ between) h.again_path .get again.requester sel
      hselect).record
    obtain ⟨t', ht', hle'⟩ := dated_run hdated₁ hm ht hm'
    have hunix : SystemTime.unixSecs? t' = some (t' / 1000000000) := if_pos (le_trans hpos hle')
    refine ⟨sel, hselect, _, t' / 1000000000, hm', by rw [ht', Option.bind_some, hunix], ?_⟩
    exact not_lt.mp fun hlt => hkept ((hlater hm' ht').mp hlt)

/-! ## §5 Dates -/

/-- **Dates.**  What is written is read back to the second, in both formats; the calendar
functions are inverse to each other; a date that is read is the rendering of what it is read as;
a form of `xsd:dateTime` is read as the instant it denotes, without its fraction; and a client
that revalidates by date learns of every later second the resource was rewritten in. -/
theorem dates_round_trip :
    (∀ t : SystemTime, 0 ≤ t → t / 1000000000 < endOfYears →
      (toXsdDatetime t).bind fromXsdDatetime = some (t / 1000000000 * 1000000000) ∧
      (toImfFixdate t).bind parseHttpDate = some (t / 1000000000)) ∧
    (∀ z : Int, ∃ (y : Int) (m d : Nat), civilFromDays z = (y, (m : Int), (d : Int)) ∧
      Calendar.IsDate y m d ∧ Store.daysFromCivil y m d = z) ∧
    (∀ (y : Int) (m d : Nat), Calendar.IsDate y m d →
      civilFromDays (Store.daysFromCivil y m d) = (y, (m : Int), (d : Int))) ∧
    (∀ (y : Int) (m d : Nat), Store.daysFromCivil y m d = Ldp.daysFromCivil y m d) ∧
    (∀ (v : Text) (secs : Int), Text.trim v = v → parseHttpDate v = some secs → 0 ≤ secs →
      toImfFixdate (secs * 1000000000) = some v) ∧
    (∀ f : XsdForm, fromXsdDatetime f.text =
      if 0 ≤ f.instant then some (⌊f.instant⌋ * 1000000000) else none) ∧
    ∀ (s : LdpState) (w : World) (target : LdpTarget) (first again : Request) (L : Text)
      (m : ResourceMeta) (t : SystemTime) (between : List Request),
      Sound s.wac w → Monotone w.clock → Dated w → Revalidates s w target first again L →
      w.backend.index.meta? target.iri = some m → m.lastModified = some t →
      t / 1000000000 < endOfYears →
      ((s.handle again (s.run between (s.handle first w).2)).1.status = 304 ↔
        (∃ sel, (exec (s.select .get again.path again.requester (headerStr again.headers .accept))
          (s.run between (s.handle first w).2)).1 = .ok sel) ∧
        ¬ RewrittenAfter s (s.handle first w).2 between target.iri t) := by
  refine ⟨fun t hpos hend => ⟨fromXsdDatetime_toXsdDatetime hpos hend,
      parseHttpDate_toImfFixdate hpos hend⟩, fun z => ?_, fun y m d hdate => ?_,
    daysFromCivil_copy, fun v secs htrim h hpos => toImfFixdate_of_parseHttpDate htrim hpos h,
    fromXsdDatetime_form, ?_⟩
  · obtain ⟨y, m, d, hcivil, hdate, hnumber⟩ := civilFromDays_spec z
    refine ⟨y, m, d, hcivil, hdate, ?_⟩
    rw [Store.daysFromCivil_eq d hdate.month_pos hdate.month_le, hnumber]
  · rw [Store.daysFromCivil_eq d hdate.month_pos hdate.month_le]
    exact civilFromDays_dayNumber hdate
  · intro s w target first again L m t between hs hclock hdated h hm ht hend
    exact notModified_iff_not_rewritten hs hclock hdated h hm ht hend between

/-- A seeded storage bears no time its clock is still to show. -/
theorem dated_seeded (root : Iri) (docs : List (Iri × Bytes)) :
    Monotone (World.seeded root docs).clock ∧ Dated (World.seeded root docs) := by
  have hclock : Monotone World.boot.clock := by
    intro a b hab
    show (a : Int) * 1000000000 ≤ b * 1000000000
    exact mul_le_mul_of_nonneg_right (Int.ofNat_le.mpr hab) (by decide)
  have hstamped : Stamped World.boot (World.seeded root docs) :=
    (plain_seedRoot root docs).keeps (Stamped.block World.boot) World.boot (.refl _)
  have hboot : Dated World.boot := by
    intro iri m t hm
    cases hm
  exact ⟨hstamped.clock ▸ hclock, hboot.stamped hclock hstamped⟩

/-- The same `GET`, unless the resource is not later than a date. -/
def ifModifiedSince (get : Request) (date : String) : Request :=
  { get with headers := get.headers.setStr .ifModifiedSince date.toList }

/-- `/a` is written in the third second, read, and rewritten: sending the date back shows it. -/
theorem dates_round_trip_rewritten :
    let get := sampleGet "/a" "text/turtle"
    let again := ifModifiedSince get "Thu, 01 Jan 1970 00:00:02 GMT"
    let w₁ := (sampleState.handle get textWorld).2
    (sampleState.handle again w₁).1.status = 304 ∧
    (sampleState.handle again (sampleState.run [putStatement "/a" "text/turtle"] w₁)).1.status = 200 ∧
    RewrittenAfter sampleState w₁ [putStatement "/a" "text/turtle"] "http://h/a".toList 2000000000 := by
  intro get again w₁
  have hserved : (sampleState.handle again
      (sampleState.run [putStatement "/a" "text/turtle"] w₁)).1.status = 200 := by
    decide
  refine ⟨by decide, hserved, ?_⟩
  have hrevalidates : Revalidates sampleState textWorld
      ⟨"http://h/a".toList, "http://h/a".toList, false⟩ get again
      "Thu, 01 Jan 1970 00:00:02 GMT".toList :=
    ⟨.inl rfl, by decide, rfl, by decide, rfl, by decide,
      by decide, by decide⟩
  obtain ⟨m, hm, ht⟩ : ∃ m, textWorld.backend.index.meta? "http://h/a".toList = some m ∧
      m.lastModified = some 2000000000 := by
    have hfound : (textWorld.backend.index.meta? "http://h/a".toList).bind
        ResourceMeta.lastModified = some 2000000000 := by
      decide
    exact Option.bind_eq_some_iff.mp hfound
  have hiff := dates_round_trip.2.2.2.2.2.2 sampleState textWorld _ get again _ m 2000000000
    [putStatement "/a" "text/turtle"] (sound_seeded _ _) (dated_seeded _ _).1 (dated_seeded _ _).2
    hrevalidates hm ht (by decide)
  have hsound : Sound sampleState.wac (sampleState.run [putStatement "/a" "text/turtle"] w₁) :=
    sound_run (calm_read (sound_seeded _ _) (.inl rfl)).1 _
  obtain ⟨sel, hselect, -, -⟩ := read_answered hsound rfl hrevalidates.again_path
    (by rw [hserved]; decide)
  by_contra hkept
  have h304 := hiff.mpr ⟨⟨sel, hselect⟩, hkept⟩
  rw [hserved] at h304
  cases h304

/-- Half a second after the epoch. -/
def halfSecond : XsdForm where
  year := 1970
  month := 1
  day := 1
  hour := 0
  minute := 0
  second := 0
  fraction := some "5".toList
  zone := .utc
  year_le := by decide
  isDate := ⟨by decide, by decide, by decide, by decide⟩
  hour_le := by decide
  minute_le := by decide
  second_le := by decide
  fraction_digits := by
    rintro f ⟨⟩
    decide
  zone_valid := trivial

/-- **A fraction is discarded**: half a second after the epoch is read as the epoch. -/
theorem fraction_discarded :
    halfSecond.text = "1970-01-01T00:00:00.5Z".toList ∧ halfSecond.instant = 1 / 2 ∧
      fromXsdDatetime halfSecond.text = some 0 := by
  refine ⟨by decide, ?_, by decide⟩
  have hvalue : Text.digitsValue "5".toList = 5 := by decide
  have hlength : "5".toList.length = 1 := rfl
  have hday : Calendar.dayNumber 1970 1 1 = 0 := by decide
  simp only [XsdForm.instant, XsdForm.wholeSeconds, halfSecond, Option.map_some, Option.getD_some,
    hvalue, hlength, Nat.cast_ofNat, hday, Zone.seconds]
  norm_num

end SolidServer.Ldp.LdpState
