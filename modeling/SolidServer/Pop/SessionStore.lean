import SolidServer.Data.FiniteMap
import SolidServer.Pop.Session

/-!
# Histories of the session store

A history is a sequence of `insert`, `get` and `remove` calls with their answers, under any
readings of the clock.  Where `insert` has to make room, the source looks for a session that
expires first by going through a hash map, in no particular order; `MakesRoom` allows any
session that expires first, and `insert_step` shows that the model's own `insert` is one of
the possibilities.

`sessionStore_history` says what holds after every history: the store stays within its
capacity, an unexpired session is evicted only when nothing else can go, and a lookup finds
only what is still stored.
-/

namespace SolidServer.Sk

open SolidServer.Effects SolidServer.Store

/-! ## §1 Histories -/

inductive Call where
  | insert (s : Session) (now : Int)
  | get (id : Text) (now : Int)
  | remove (id : Text)
  deriving DecidableEq

inductive Answer where
  | inserted (done : Bool)
  | found (h : Option Handle)
  | removed (present : Bool)
  deriving DecidableEq

/-- **Room for one more session**, whatever the order of the map: below capacity nothing goes; at
capacity the expired go; if that frees nothing, a session that expires first goes. -/
inductive MakesRoom (w : SkWorld) (now : Int) : Dict Text Handle → Prop
  | roomy (h : w.sessions.entries.length < w.capacity) : MakesRoom w now w.sessions
  | expired (h : w.capacity ≤ w.sessions.entries.length)
      (h' : (SkWorld.retainLive w.sessions now).entries.length < w.capacity) :
      MakesRoom w now (SkWorld.retainLive w.sessions now)
  | soonest (h : w.capacity ≤ w.sessions.entries.length)
      (h' : w.capacity ≤ (SkWorld.retainLive w.sessions now).entries.length) {id : Text}
      {first : Handle} (hfirst : (SkWorld.retainLive w.sessions now).lookup id = some first)
      (hmin : ∀ id' other, (SkWorld.retainLive w.sessions now).lookup id' = some other →
        first.session.expiresAt ≤ other.session.expiresAt) :
      MakesRoom w now ((SkWorld.retainLive w.sessions now).erase first.session.sessionId)

/-- A new session beside those there is room for. -/
def SkWorld.stored (w : SkWorld) (room : Dict Text Handle) (s : Session) : SkWorld :=
  { w with
    sessions := room.insert s.sessionId ⟨s, w.heap.length⟩
    heap := w.heap ++ [(s.sessionId, ReplayWindow.new)] }

/-- One call. -/
inductive Step : SkWorld → Call → Answer → SkWorld → Prop
  | refused {w : SkWorld} {s : Session} {now : Int} (h : s.sessionId ∈ w.sessions) :
      Step w (.insert s now) (.inserted false) w
  | inserted {w : SkWorld} {s : Session} {now : Int} (h : s.sessionId ∉ w.sessions)
      {room : Dict Text Handle} (hroom : MakesRoom w now room) :
      Step w (.insert s now) (.inserted true) (w.stored room s)
  | got {w w' : SkWorld} {id : Text} {now : Int} {r : Option Handle}
      (h : (getSession id now).run skSemantics w = (.ok r, w')) : Step w (.get id now) (.found r) w'
  | removed {w : SkWorld} (id : Text) :
      Step w (.remove id) (.removed (decide (id ∈ w.sessions))) (w.remove id)

/-- A history through states that all satisfy `P`. -/
inductive RunIn (P : SkWorld → Prop) : SkWorld → List (Call × Answer) → SkWorld → Prop
  | nil {w : SkWorld} (h : P w) : RunIn P w [] w
  | cons {w v u : SkWorld} {c : Call} {a : Answer} {hist : List (Call × Answer)} (h : P w)
      (hstep : Step w c a v) (hrest : RunIn P v hist u) : RunIn P w ((c, a) :: hist) u

/-- A history. -/
abbrev Run : SkWorld → List (Call × Answer) → SkWorld → Prop := RunIn fun _ => True

/-! ## §2 What calls do -/

section
variable {w w' v : SkWorld} {id : Text} {h : Handle} {now : Int}

/-- What `get` does: it answers a live session, and drops an expired one. -/
theorem got_cases {r : Option Handle} (hget : (getSession id now).run skSemantics w = (.ok r, v)) :
    (∃ found, w.sessions.lookup id = some found ∧ now < found.session.expiresAt ∧ r = some found ∧
      v = w) ∨
    (r = none ∧ v = w.remove id) ∨ (r = none ∧ v = w) := by
  have hlookup : (lookupSession id).run skSemantics w = (.ok (w.sessions.lookup id), w) := rfl
  rw [getSession, Program.run_bind_ok _ hlookup] at hget
  cases hl : w.sessions.lookup id with
  | none =>
    rw [hl] at hget
    cases hget
    exact .inr (.inr ⟨rfl, rfl⟩)
  | some found =>
    rw [hl] at hget
    simp only at hget
    split_ifs at hget with hlive
    · cases hget
      exact .inl ⟨found, rfl, hlive, rfl, rfl⟩
    · cases hget
      exact .inr (.inl ⟨rfl, rfl⟩)

theorem lookup_retainLive_iff {m : Dict Text Handle} :
    (SkWorld.retainLive m now).lookup id = some h ↔
      m.lookup id = some h ∧ now < h.session.expiresAt := by
  rw [← Option.mem_def, ← Option.mem_def, AList.mem_lookup_iff, AList.mem_lookup_iff]
  unfold SkWorld.retainLive
  simp [List.mem_filter]

/-- What there is room beside was stored before. -/
theorem MakesRoom.lookup {room : Dict Text Handle} (hroom : MakesRoom w now room)
    (hl : room.lookup id = some h) : w.sessions.lookup id = some h := by
  cases hroom with
  | roomy => exact hl
  | expired => exact (lookup_retainLive_iff.mp hl).1
  | soonest => exact (lookup_retainLive_iff.mp (lookup_of_lookup_erase hl)).1

/-- **A session is stored by one kind of call only.** -/
theorem Step.stored_cases {c : Call} {a : Answer} (hstep : Step w c a v)
    (hl : v.sessions.lookup id = some h) :
    w.sessions.lookup id = some h ∨
      (∃ now, c = .insert h.session now ∧ a = .inserted true ∧ id = h.session.sessionId) := by
  cases hstep with
  | refused => exact .inl hl
  | inserted hnew hroom =>
    rcases lookup_insert_cases hl with ⟨rfl, rfl⟩ | hold
    · exact .inr ⟨_, rfl, rfl, rfl⟩
    · exact .inl (hroom.lookup hold)
  | got hget =>
    rcases got_cases hget with ⟨_, -, -, -, rfl⟩ | ⟨-, rfl⟩ | ⟨-, rfl⟩
    · exact .inl hl
    · exact .inl (lookup_of_lookup_erase hl)
    · exact .inl hl
  | removed id' => exact .inl (lookup_of_lookup_erase hl)

/-- Calls leave the capacity. -/
theorem Step.capacity_eq {c : Call} {a : Answer} (hstep : Step w c a v) :
    v.capacity = w.capacity := by
  cases hstep with
  | refused => rfl
  | inserted => rfl
  | got hget => rcases got_cases hget with ⟨_, -, -, -, rfl⟩ | ⟨-, rfl⟩ | ⟨-, rfl⟩ <;> rfl
  | removed => rfl

end

/-! ## §3 The model's own insert -/

section
variable {w : SkWorld} {now : Int}

/-- One round of the search for the session that expires first. -/
def sooner (best : Option (Text × Int)) (e : (_ : Text) × Handle) : Option (Text × Int) :=
  match best with
  | some (k, t) =>
    if e.2.session.expiresAt < t then some (e.2.session.sessionId, e.2.session.expiresAt)
    else some (k, t)
  | none => some (e.2.session.sessionId, e.2.session.expiresAt)

/-- The search starts from an entry and ends at one that expires no later than any. -/
theorem foldl_sooner (l : List ((_ : Text) × Handle)) (k : Text) (t : Int) :
    ∃ k' t', l.foldl sooner (some (k, t)) = some (k', t') ∧ t' ≤ t ∧
      (∀ e ∈ l, t' ≤ e.2.session.expiresAt) ∧
      ((k', t') = (k, t) ∨
        ∃ e ∈ l, (k', t') = (e.2.session.sessionId, e.2.session.expiresAt)) := by
  induction l generalizing k t with
  | nil => exact ⟨k, t, rfl, Int.le_refl t, by simp, .inl rfl⟩
  | cons e l ih =>
    by_cases hlt : e.2.session.expiresAt < t
    · obtain ⟨k', t', hfold, hle, hall, hfrom⟩ :=
        ih e.2.session.sessionId e.2.session.expiresAt
      refine ⟨k', t', ?_, by omega, ?_, .inr ?_⟩
      · rw [List.foldl_cons, sooner, if_pos hlt, hfold]
      · exact List.forall_mem_cons.mpr ⟨hle, hall⟩
      · rcases hfrom with heq | ⟨e', he', heq⟩
        · exact ⟨e, List.mem_cons_self, heq⟩
        · exact ⟨e', List.mem_cons_of_mem e he', heq⟩
    · obtain ⟨k', t', hfold, hle, hall, hfrom⟩ := ih k t
      refine ⟨k', t', ?_, hle, ?_, hfrom.imp_right ?_⟩
      · rw [List.foldl_cons, sooner, if_neg hlt, hfold]
      · exact List.forall_mem_cons.mpr ⟨by omega, hall⟩
      · rintro ⟨e', he', heq⟩
        exact ⟨e', List.mem_cons_of_mem e he', heq⟩

/-- The search finds a session that expires first. -/
theorem soonest_spec {m : Dict Text Handle} (hm : m.entries ≠ []) :
    ∃ id first, m.lookup id = some first ∧ SkWorld.soonest m = some first.session.sessionId ∧
      ∀ id' other, m.lookup id' = some other →
        first.session.expiresAt ≤ other.session.expiresAt := by
  have hentry : ∀ {id h}, m.lookup id = some h ↔ ⟨id, h⟩ ∈ m.entries := fun {id h} =>
    AList.mem_lookup_iff
  obtain ⟨e, l, hl⟩ := List.exists_cons_of_ne_nil hm
  obtain ⟨k, t, hfold, hle, hall, hfrom⟩ :=
    foldl_sooner l e.2.session.sessionId e.2.session.expiresAt
  have hsoonest : SkWorld.soonest m = some k := by
    show (m.entries.foldl sooner none).map Prod.fst = some k
    rw [hl, List.foldl_cons, sooner, hfold]
    rfl
  obtain ⟨first, hfirst, hkt⟩ : ∃ first ∈ m.entries,
      (k, t) = (first.2.session.sessionId, first.2.session.expiresAt) := by
    rw [hl]
    rcases hfrom with heq | ⟨e', he', heq⟩
    · exact ⟨e, List.mem_cons_self, heq⟩
    · exact ⟨e', List.mem_cons_of_mem e he', heq⟩
  obtain ⟨rfl, rfl⟩ := Prod.mk.inj hkt
  refine ⟨first.1, first.2, hentry.mpr hfirst, hsoonest, fun id' other hother => ?_⟩
  have hmem := hentry.mp hother
  rw [hl] at hmem
  rcases List.mem_cons.mp hmem with heq | htail
  · rw [← heq] at hle
    exact hle
  · exact hall _ htail

/-- **The model's insert** is one of the possible ones. -/
theorem insert_step (hpos : 1 ≤ w.capacity) (s : Session) (now : Int) :
    Step w (.insert s now) (.inserted (w.insert s now).1) (w.insert s now).2 := by
  unfold SkWorld.insert
  split_ifs with hmem
  · exact .refused hmem
  refine .inserted hmem ?_
  unfold SkWorld.makeRoom
  by_cases hfull : w.capacity ≤ w.sessions.entries.length
  · simp only [if_pos hfull]
    split_ifs with hlive
    · -- nothing has expired: the search finds a session
      have hne : (SkWorld.retainLive w.sessions now).entries ≠ [] := by
        intro hnil
        rw [hnil, List.length_nil] at hlive
        omega
      obtain ⟨id, first, hfirst, hsoonest, hmin⟩ := soonest_spec hne
      rw [SkWorld.evictSoonest, hsoonest]
      exact .soonest hfull hlive hfirst hmin
    · exact .expired hfull (Nat.not_le.mp hlive)
  · simp only [if_neg hfull]
    exact .roomy (Nat.not_le.mp hfull)

end

/-! ## §4 The store within its capacity -/

/-- **The invariant**: every session is stored under its identifier, and there are no more
than the capacity allows. -/
structure Bounded (w : SkWorld) : Prop where
  capacity_pos : 1 ≤ w.capacity
  keyed : ∀ id h, w.sessions.lookup id = some h → h.session.sessionId = id
  size : w.sessions.entries.length ≤ w.capacity

section
variable {w v : SkWorld} {now : Int} {room : Dict Text Handle}

theorem bounded_boot (capacity : Nat) : Bounded (SkWorld.boot capacity) where
  capacity_pos := Nat.le_max_right capacity 1
  keyed id h hl := by
    cases hl
  size := Nat.zero_le _

theorem length_retainLive_le (m : Dict Text Handle) (now : Int) :
    (SkWorld.retainLive m now).entries.length ≤ m.entries.length := List.length_filter_le _ _

/-- Where nothing has expired, retaining the live keeps all. -/
theorem live_of_length_retainLive {m : Dict Text Handle}
    (hlength : m.entries.length ≤ (SkWorld.retainLive m now).entries.length) {id : Text} {h : Handle}
    (hl : m.lookup id = some h) : now < h.session.expiresAt := by
  have hall := List.length_filter_eq_length_iff.mp
    (Nat.le_antisymm (length_retainLive_le m now) hlength)
  have hentry := hall ⟨id, h⟩ (AList.mem_lookup_iff.mp hl)
  exact of_decide_eq_true hentry

/-- **There is room for one more.** -/
theorem MakesRoom.length_lt (hw : Bounded w) (hroom : MakesRoom w now room) :
    room.entries.length < w.capacity := by
  cases hroom with
  | roomy hfree => exact hfree
  | expired hfull hfree => exact hfree
  | soonest hfull hlive hfirst hmin =>
    have hkey := hw.keyed _ _ (lookup_retainLive_iff.mp hfirst).1
    have hmem : _ ∈ SkWorld.retainLive w.sessions now :=
      AList.lookup_isSome.mp (Option.isSome_of_eq_some hfirst)
    have hlength := FiniteMap.length_erase hmem
    have hle := length_retainLive_le w.sessions now
    have hsize := hw.size
    rw [hkey]
    omega

theorem Bounded.remove (hw : Bounded w) (id : Text) : Bounded (w.remove id) where
  capacity_pos := hw.capacity_pos
  keyed id' h hl := hw.keyed id' h (lookup_of_lookup_erase hl)
  size := by
    show (w.sessions.erase id).entries.length ≤ w.capacity
    by_cases hmem : id ∈ w.sessions
    · have hlength := FiniteMap.length_erase hmem
      have hsize := hw.size
      omega
    · have herase : (w.sessions.erase id).entries = w.sessions.entries :=
        List.kerase_of_notMem_keys hmem
      rw [herase]
      exact hw.size

/-- **One call** keeps the invariant. -/
theorem Bounded.step {c : Call} {a : Answer} (hw : Bounded w) (hstep : Step w c a v) :
    Bounded v := by
  cases hstep with
  | refused => exact hw
  | @inserted s now hnew room hroom =>
    have hfresh : s.sessionId ∉ room := by
      intro hmem
      obtain ⟨h, hl⟩ := Option.isSome_iff_exists.mp (AList.lookup_isSome.mpr hmem)
      exact hnew (AList.lookup_isSome.mp (Option.isSome_of_eq_some (hroom.lookup hl)))
    refine ⟨hw.capacity_pos, fun id h hl => ?_, ?_⟩
    · rcases lookup_insert_cases hl with ⟨rfl, rfl⟩ | hold
      · rfl
      · exact hw.keyed id h (hroom.lookup hold)
    · show (room.insert s.sessionId _).entries.length ≤ w.capacity
      rw [FiniteMap.length_insert hfresh]
      exact hroom.length_lt hw
  | got hget =>
    rcases got_cases hget with ⟨_, -, -, -, rfl⟩ | ⟨-, rfl⟩ | ⟨-, rfl⟩
    · exact hw
    · exact hw.remove _
    · exact hw
  | removed id => exact hw.remove id

/-- **Every history** keeps it, and the capacity. -/
theorem Bounded.run {P : SkWorld → Prop} {hist : List (Call × Answer)} (hw : Bounded w)
    (hrun : RunIn P w hist v) : Bounded v ∧ v.capacity = w.capacity := by
  induction hrun with
  | nil => exact ⟨hw, rfl⟩
  | cons _ hstep _ ih =>
    obtain ⟨hv, hcapacity⟩ := ih (hw.step hstep)
    exact ⟨hv, hcapacity.trans hstep.capacity_eq⟩

end

/-! ## §5 Evictions -/

section
variable {w v : SkWorld} {s : Session} {now : Int} {a : Answer}

/-- The insert drops an unexpired session. -/
def Evicts (w v : SkWorld) (now : Int) (id : Text) (h : Handle) : Prop :=
  w.sessions.lookup id = some h ∧ now < h.session.expiresAt ∧ v.sessions.lookup id ≠ some h

/-- **An eviction of an unexpired session** happens only when none has expired, and takes the one
session that expires first. -/
theorem Step.evicts (hw : Bounded w) (hstep : Step w (.insert s now) a v) {id : Text} {h : Handle}
    (hevicts : Evicts w v now id h) :
    (∀ id' other, w.sessions.lookup id' = some other →
      now < other.session.expiresAt ∧ h.session.expiresAt ≤ other.session.expiresAt) ∧
    ∀ id' other, Evicts w v now id' other → id' = id := by
  -- only the third way of making room can drop an unexpired session, and it drops one
  have honly : ∀ {id h}, Evicts w v now id h →
      w.capacity ≤ (SkWorld.retainLive w.sessions now).entries.length ∧
      ∃ k first, (SkWorld.retainLive w.sessions now).lookup k = some first ∧
        (∀ id' other, (SkWorld.retainLive w.sessions now).lookup id' = some other →
          first.session.expiresAt ≤ other.session.expiresAt) ∧
        v = w.stored ((SkWorld.retainLive w.sessions now).erase first.session.sessionId) s ∧
        s.sessionId ∉ w.sessions ∧ id = k ∧ h = first := by
    rintro id h ⟨hl, hlive, hgone⟩
    have hretained := lookup_retainLive_iff.mpr ⟨hl, hlive⟩
    cases hstep with
    | refused => exact absurd hl hgone
    | inserted hnew hroom =>
      have hne : id ≠ s.sessionId := by
        rintro rfl
        exact hnew (AList.lookup_isSome.mp (Option.isSome_of_eq_some hl))
      have hgone' : ∀ {room : Dict Text Handle}, room.lookup id = some h →
          (w.stored room s).sessions.lookup id = some h := by
        intro room hkept
        rw [SkWorld.stored, AList.lookup_insert_ne hne, hkept]
      cases hroom with
      | roomy => exact absurd (hgone' hl) hgone
      | expired => exact absurd (hgone' hretained) hgone
      | @soonest hfull hfull' k first hfirst hmin =>
        have hkey := hw.keyed _ _ (lookup_retainLive_iff.mp hfirst).1
        have hid : id = k := by
          by_contra hid
          rw [← hkey] at hid
          refine hgone (hgone' ?_)
          rw [AList.lookup_erase_ne hid, hretained]
        subst hid
        exact ⟨hfull', id, first, hfirst, hmin, rfl, hnew, rfl,
          Option.some.inj (hretained.symm.trans hfirst)⟩
  obtain ⟨hfull, k, first, hfirst, hmin, hv, hnew, rfl, rfl⟩ := honly hevicts
  have hlive : ∀ {id' other}, w.sessions.lookup id' = some other →
      now < other.session.expiresAt := fun hl =>
    live_of_length_retainLive (Nat.le_trans hw.size hfull) hl
  refine ⟨fun id' other hl => ⟨hlive hl, hmin id' other (lookup_retainLive_iff.mpr ⟨hl, hlive hl⟩)⟩,
    fun id' other hevicts' => ?_⟩
  -- two evicted sessions are both the one that was erased
  obtain ⟨hl', hlive', hgone'⟩ := hevicts'
  by_contra hid
  apply hgone'
  have hkey := hw.keyed _ _ (lookup_retainLive_iff.mp hfirst).1
  have hne : id' ≠ s.sessionId := by
    rintro rfl
    exact hnew (AList.lookup_isSome.mp (Option.isSome_of_eq_some hl'))
  rw [hv, SkWorld.stored, AList.lookup_insert_ne hne, hkey, AList.lookup_erase_ne hid]
  exact lookup_retainLive_iff.mpr ⟨hl', hlive'⟩

end

/-! ## §6 After every history -/

section
variable {w v u : SkWorld} {hist : List (Call × Answer)} {id : Text} {h : Handle}

theorem RunIn.start {P : SkWorld → Prop} (hrun : RunIn P w hist v) : P w := by
  cases hrun with
  | nil hP => exact hP
  | cons hP => exact hP

/-- The session was stored by an insert of the history, and has been there in every state since. -/
def StoredSince (w : SkWorld) (hist : List (Call × Answer)) (v : SkWorld) (id : Text)
    (h : Handle) : Prop :=
  ∃ before now since w₁ w₂, hist = before ++ (.insert h.session now, .inserted true) :: since ∧
    h.session.sessionId = id ∧ Run w before w₁ ∧
    Step w₁ (.insert h.session now) (.inserted true) w₂ ∧
    RunIn (fun u => u.sessions.lookup id = some h) w₂ since v

/-- What is stored at the end of a history was stored all along, or an insert stored it. -/
theorem stored_since (hrun : Run w hist v) (hl : v.sessions.lookup id = some h) :
    RunIn (fun u => u.sessions.lookup id = some h) w hist v ∨ StoredSince w hist v id h := by
  induction hrun with
  | nil => exact .inl (.nil hl)
  | @cons w₀ w₁ v c a hist _ hstep hrest ih =>
    rcases ih hl with hkept | ⟨before, now, since, u₁, u₂, rfl, hid, hbefore, hinsert, hsince⟩
    · rcases hstep.stored_cases hkept.start with hold | ⟨now, rfl, rfl, rfl⟩
      · exact .inl (.cons hold hstep hkept)
      · exact .inr ⟨[], now, hist, w₀, w₁, rfl, rfl, .nil trivial, hstep, hkept⟩
    · exact .inr ⟨(c, a) :: before, now, since, u₁, u₂, rfl, hid, .cons trivial hstep hbefore,
        hinsert, hsince⟩

/-- **The session store after any history**: it holds at most its capacity; an insert evicts an
unexpired session only when none has expired, one at most, and one that expires first; an
identifier in use is refused and nothing changes; and a lookup answers an unexpired session that
an insert of the history stored and that has been stored ever since. -/
theorem sessionStore_history (capacity : Nat) (hist : List (Call × Answer)) (w : SkWorld)
    (hrun : Run (SkWorld.boot capacity) hist w) :
    w.sessions.entries.length ≤ max capacity 1 ∧
    (∀ s now a v, Step w (.insert s now) a v → ∀ id h, Evicts w v now id h →
      (∀ id' other, w.sessions.lookup id' = some other →
        now < other.session.expiresAt ∧ h.session.expiresAt ≤ other.session.expiresAt) ∧
      ∀ id' other, Evicts w v now id' other → id' = id) ∧
    (∀ s now a v, Step w (.insert s now) a v → s.sessionId ∈ w.sessions →
      a = .inserted false ∧ v = w) ∧
    ∀ id now h v, Step w (.get id now) (.found (some h)) v →
      now < h.session.expiresAt ∧ StoredSince (SkWorld.boot capacity) hist w id h := by
  obtain ⟨hw, hcapacity⟩ := (bounded_boot capacity).run hrun
  refine ⟨?_, fun s now a v hstep id h hevicts => hstep.evicts hw hevicts,
    fun s now a v hstep hmem => ?_, fun id now h v hstep => ?_⟩
  · have hsize := hw.size
    rwa [hcapacity] at hsize
  · cases hstep with
    | refused => exact ⟨rfl, rfl⟩
    | inserted hnew => exact absurd hmem hnew
  · cases hstep with
    | got hget =>
      rcases got_cases hget with ⟨found, hl, hlive, hr, -⟩ | ⟨hr, -⟩ | ⟨hr, -⟩
      · obtain rfl := Option.some.inj hr
        refine ⟨hlive, ?_⟩
        rcases stored_since hrun hl with hkept | hsince
        · -- the store is empty at first
          have hstart := hkept.start
          rw [SkWorld.boot, AList.lookup_empty] at hstart
          cases hstart
        · exact hsince
      · cases hr
      · cases hr

/-- A session with an expiry. -/
def sessionUntil (id : String) (expiresAt : Int) : Session :=
  ⟨id.toList, [], [], [], .public, expiresAt, expiresAt, .none, none⟩

/-- In a store for one session the second insert evicts the first session, and nothing else. -/
theorem sessionStore_history_full :
    let w := ((SkWorld.boot 1).insert (sessionUntil "a" 10) 0).2
    let v := (w.insert (sessionUntil "b" 20) 5).2
    Evicts w v 5 "a".toList ⟨sessionUntil "a" 10, 0⟩ ∧
      ∀ id' other, Evicts w v 5 id' other → id' = "a".toList := by
  intro w v
  have hfirst : Step (SkWorld.boot 1) (.insert (sessionUntil "a" 10) 0) (.inserted true) w :=
    insert_step (by decide) (sessionUntil "a" 10) 0
  have hsecond := insert_step (w := w) (by decide) (sessionUntil "b" 20) 5
  have hevicts : Evicts w v 5 "a".toList ⟨sessionUntil "a" 10, 0⟩ := by
    refine ⟨by decide, by decide, by decide⟩
  exact ⟨hevicts, ((sessionStore_history 1 _ w (.cons trivial hfirst (.nil trivial))).2.1
    (sessionUntil "b" 20) 5 _ v hsecond _ _ hevicts).2⟩

end

end SolidServer.Sk
