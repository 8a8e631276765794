import SolidServer.Auth.Token
import SolidServer.Effects.Interleaving
import SolidServer.Pop.Window
import SolidServer.Store.Cache

/-!
# The session store

Sessions live in a bounded map behind one lock; each carries a replay window behind a lock
of its own (`pop/sk/store.rs`).  A request that looked a session up keeps it, and its
window, even when the map drops the session afterwards: a window is therefore a cell of a
heap, and a lookup answers the session together with its cell.

Each cell is labelled with the identifier of the session it was made for.  No operation
reads the labels; they say what "a fresh identifier" means.
-/

namespace SolidServer.Sk

open SolidServer.Effects SolidServer.Auth SolidServer.Store

/-! ## §1 Sessions -/

/-- `CbFlavour`. -/
inductive CbFlavour where
  | none
  | tlsExporter
  deriving DecidableEq

/-- `Session`, without its window. -/
structure Session where
  sessionId : Text
  key : Bytes
  tokenHash : Bytes
  jkt : Text
  token : VerifiedToken
  tokenExp : Int
  expiresAt : Int
  cb : CbFlavour
  connId : Option Nat
  deriving DecidableEq

/-- A shared session: its data and the cell of its window. -/
structure Handle where
  session : Session
  cell : Nat
  deriving DecidableEq

/-- `SessionStore` and the windows of all sessions ever stored. -/
structure SkWorld where
  capacity : Nat
  sessions : Dict Text Handle
  heap : List (Text × ReplayWindow)
  deriving DecidableEq

namespace SkWorld

/-- `SessionStore::new`. -/
def boot (capacity : Nat) : SkWorld := ⟨max capacity 1, ∅, []⟩

/-- The identifiers of all sessions ever stored, by cell. -/
def labels (w : SkWorld) : List Text := w.heap.map Prod.fst

/-- `map.retain(|_, s| s.expires_at > now)`. -/
def retainLive (m : Dict Text Handle) (now : Int) : Dict Text Handle :=
  ⟨m.entries.filter fun e => e.2.session.expiresAt > now,
    m.nodupKeys.sublist List.filter_sublist⟩

/-- The identifier of a session that expires first. -/
def soonest (m : Dict Text Handle) : Option Text :=
  (m.entries.foldl (fun best e =>
    match best with
    | some (k, t) =>
      if e.2.session.expiresAt < t then some (e.2.session.sessionId, e.2.session.expiresAt)
      else some (k, t)
    | none => some (e.2.session.sessionId, e.2.session.expiresAt))
    (none : Option (Text × Int))).map Prod.fst

def evictSoonest (m : Dict Text Handle) : Dict Text Handle :=
  match soonest m with
  | some k => m.erase k
  | none => m

/-- Room for one more: at capacity expired sessions go first, then the one that expires
soonest. -/
def makeRoom (w : SkWorld) (now : Int) : Dict Text Handle :=
  let live :=
    if w.capacity ≤ w.sessions.entries.length then retainLive w.sessions now else w.sessions
  if w.capacity ≤ live.entries.length then evictSoonest live else live

/-- `insert`: refused on a collision. -/
def insert (w : SkWorld) (s : Session) (now : Int) : Bool × SkWorld :=
  if s.sessionId ∈ w.sessions then (false, w)
  else
    (true,
      { w with
        sessions := (w.makeRoom now).insert s.sessionId ⟨s, w.heap.length⟩
        heap := w.heap ++ [(s.sessionId, ReplayWindow.new)] })

/-- `remove`. -/
def remove (w : SkWorld) (id : Text) : SkWorld := { w with sessions := w.sessions.erase id }

/-- `window_check_and_mark` on the window of a cell. -/
def mark (w : SkWorld) (cell nonce : Nat) : WindowVerdict × SkWorld :=
  match w.heap[cell]? with
  | some (id, win) =>
    ((win.checkAndMark nonce).1, { w with heap := w.heap.set cell (id, (win.checkAndMark nonce).2) })
  | none => (.belowWindow, w)

end SkWorld

/-! ## §2 The store as operations -/

/-- What a request does under the store's locks. -/
inductive SkOp where
  | lookup (id : Text)
  | remove (id : Text)
  | mark (cell nonce : Nat)
  deriving DecidableEq

abbrev skSig : Signature where
  Op := SkOp
  Res
    | .lookup _ => Option Handle
    | .remove _ => Unit
    | .mark _ _ => WindowVerdict

def skSemantics : Semantics skSig SkWorld := fun w o =>
  match o with
  | .lookup id => (w.sessions.lookup id, w)
  | .remove id => ((), w.remove id)
  | .mark cell nonce => w.mark cell nonce

def lookupSession (id : Text) : Program skSig ServerError (Option Handle) :=
  Program.call (S := skSig) (.lookup id)

def removeSession (id : Text) : Program skSig ServerError Unit :=
  Program.call (S := skSig) (.remove id)

def markWindow (cell nonce : Nat) : Program skSig ServerError WindowVerdict :=
  Program.call (S := skSig) (.mark cell nonce)

/-- `get`: a live session; an expired one is dropped and counts as a miss. -/
def getSession (id : Text) (now : Int) : Program skSig ServerError (Option Handle) := do
  match ← lookupSession id with
  | some h =>
    if h.session.expiresAt > now then pure (some h)
    else do
      removeSession id
      pure none
  | none => pure none

/-- What happens to the store beside the requests: a session is stored under an identifier
never used before, or one is removed. -/
inductive SkEnv : SkWorld → SkWorld → Prop
  | insert {w : SkWorld} (s : Session) (now : Int) (hfresh : s.sessionId ∉ w.labels) :
      SkEnv w (w.insert s now).2
  | remove {w : SkWorld} (id : Text) : SkEnv w (w.remove id)

/-! ## §3 Invariants -/

namespace SkWorld

/-- **Consistency**: a stored session has its own identifier, and its cell is labelled with
it; no label is used twice. -/
structure Ok (w : SkWorld) : Prop where
  stored : ∀ id h, w.sessions.lookup id = some h →
    h.session.sessionId = id ∧ w.labels[h.cell]? = some id
  nodup : w.labels.Nodup

/-- The window of a cell refuses a counter. -/
def Refuses (w : SkWorld) (cell nonce : Nat) : Prop :=
  ∃ id win, w.heap[cell]? = some (id, win) ∧ win.Refuses nonce

theorem ok_boot (capacity : Nat) : (boot capacity).Ok := by
  refine ⟨?_, List.nodup_nil⟩
  intro id h hl
  simp [boot] at hl

variable {id : Text} {h : Handle} {w w' : SkWorld} {cell : Nat}

theorem lookup_retainLive {m : Dict Text Handle} {now : Int}
    (hl : (retainLive m now).lookup id = some h) : m.lookup id = some h := by
  have hmem := AList.mem_lookup_iff.mp (Option.mem_def.mpr hl)
  exact AList.mem_lookup_iff.mpr (List.mem_of_mem_filter hmem)

theorem lookup_evictSoonest {m : Dict Text Handle} (hl : (evictSoonest m).lookup id = some h) :
    m.lookup id = some h := by
  unfold evictSoonest at hl
  split at hl
  · exact lookup_of_lookup_erase hl
  · exact hl

/-- Making room only removes. -/
theorem lookup_makeRoom {now : Int} (hl : (w.makeRoom now).lookup id = some h) :
    w.sessions.lookup id = some h := by
  simp only [makeRoom] at hl
  split_ifs at hl
  · exact lookup_retainLive (lookup_evictSoonest hl)
  · exact lookup_retainLive hl
  · exact hl

@[simp] theorem labels_mark (w : SkWorld) (cell nonce : Nat) :
    (w.mark cell nonce).2.labels = w.labels := by
  unfold mark labels
  split
  · rename_i id win hcell
    obtain ⟨hlt, hget⟩ := List.getElem?_eq_some_iff.mp hcell
    have hlt' : cell < (w.heap.map Prod.fst).length := by simpa using hlt
    have hsame : (w.heap.map Prod.fst)[cell] = id := by simp [hget]
    rw [List.map_set, ← hsame, List.set_getElem_self]
  · rfl

@[simp] theorem sessions_mark (w : SkWorld) (cell nonce : Nat) :
    (w.mark cell nonce).2.sessions = w.sessions := by
  unfold mark
  split <;> rfl

/-- A step keeps every label where it is and every refusal. -/
structure Grows (w w' : SkWorld) : Prop where
  labels : w.labels <+: w'.labels
  refuses : ∀ cell nonce, w.Refuses cell nonce → w'.Refuses cell nonce

theorem Grows.refl (w : SkWorld) : w.Grows w := ⟨List.prefix_refl _, fun _ _ h => h⟩

theorem Grows.trans {w'' : SkWorld} (h : w.Grows w') (h' : w'.Grows w'') : w.Grows w'' :=
  ⟨h.labels.trans h'.labels, fun cell nonce hr => h'.refuses cell nonce (h.refuses cell nonce hr)⟩

theorem Grows.label (h : w.Grows w') (hl : w.labels[cell]? = some id) :
    w'.labels[cell]? = some id := by
  obtain ⟨t, ht⟩ := h.labels
  obtain ⟨hlt, -⟩ := List.getElem?_eq_some_iff.mp hl
  rw [← ht, List.getElem?_append_left hlt, hl]

theorem refuses_mark {nonce : Nat} (h : w.Refuses cell nonce) (cell' nonce' : Nat) :
    (w.mark cell' nonce').2.Refuses cell nonce := by
  obtain ⟨id, win, hcell, hwin⟩ := h
  unfold mark
  split
  · rename_i id' win' hcell'
    obtain ⟨hlt, -⟩ := List.getElem?_eq_some_iff.mp hcell'
    by_cases heq : cell' = cell
    · subst heq
      obtain ⟨rfl, rfl⟩ := Prod.mk.inj (Option.some.inj (hcell.symm.trans hcell'))
      exact ⟨id, _, by simp [hlt], hwin.checkAndMark nonce'⟩
    · exact ⟨id, win, by simp [List.getElem?_set_ne heq, hcell], hwin⟩
  · exact ⟨id, win, hcell, hwin⟩

theorem grows_sem (w : SkWorld) (o : SkOp) : w.Grows (skSemantics w o).2 := by
  cases o with
  | lookup id => exact Grows.refl w
  | remove id => exact ⟨List.prefix_refl _, fun _ _ h => h⟩
  | mark cell nonce =>
    refine ⟨?_, fun c n h => refuses_mark h cell nonce⟩
    show w.labels <+: (w.mark cell nonce).2.labels
    rw [labels_mark]

theorem grows_env (h : SkEnv w w') : w.Grows w' := by
  cases h with
  | remove id => exact ⟨List.prefix_refl _, fun _ _ h => h⟩
  | insert s now hfresh =>
    unfold SkWorld.insert
    split_ifs
    · exact Grows.refl w
    · refine ⟨⟨[s.sessionId], by simp [SkWorld.labels]⟩, ?_⟩
      rintro cell nonce ⟨id, win, hcell, hwin⟩
      obtain ⟨hlt, -⟩ := List.getElem?_eq_some_iff.mp hcell
      exact ⟨id, win, by rw [← hcell]; exact List.getElem?_append_left hlt, hwin⟩

theorem ok_sem (h : w.Ok) (o : SkOp) : (skSemantics w o).2.Ok := by
  cases o with
  | lookup id => exact h
  | remove id => exact ⟨fun id' hd hl => h.stored id' hd (lookup_of_lookup_erase hl), h.nodup⟩
  | mark cell nonce =>
    show (w.mark cell nonce).2.Ok
    refine ⟨?_, by rw [labels_mark]; exact h.nodup⟩
    intro id hd hl
    rw [labels_mark]
    exact h.stored id hd (by rwa [sessions_mark] at hl)

/-- A fresh session gets the next cell, and a label nobody has. -/
theorem ok_env (h : w.Ok) (hstep : SkEnv w w') : w'.Ok := by
  cases hstep with
  | remove id => exact ⟨fun id' hd hl => h.stored id' hd (lookup_of_lookup_erase hl), h.nodup⟩
  | insert s now hfresh =>
    have hgrows := grows_env (SkEnv.insert s now hfresh)
    unfold SkWorld.insert at hgrows ⊢
    split_ifs at hgrows ⊢
    · exact h
    · refine ⟨?_, ?_⟩
      · intro id hd hl
        rcases lookup_insert_cases hl with ⟨rfl, rfl⟩ | hold
        · exact ⟨rfl, by simp [SkWorld.labels]⟩
        · -- an older session: it was there before the expired and the evicted went
          obtain ⟨hid, hlabel⟩ := h.stored id hd (lookup_makeRoom hold)
          exact ⟨hid, hgrows.label hlabel⟩
      · show (SkWorld.labels { w with heap := w.heap ++ [(s.sessionId, ReplayWindow.new)] }).Nodup
        have hlabels : SkWorld.labels { w with heap := w.heap ++ [(s.sessionId, ReplayWindow.new)] } =
            w.labels ++ [s.sessionId] := by simp [SkWorld.labels]
        rw [hlabels]
        exact List.Nodup.append h.nodup (List.nodup_singleton _) (by simpa using hfresh)

/-- An accepted counter is refused afterwards, and was not before. -/
theorem mark_accept {nonce : Nat} (h : (w.mark cell nonce).1 = .accept) :
    ¬ w.Refuses cell nonce ∧ (w.mark cell nonce).2.Refuses cell nonce := by
  unfold mark at h ⊢
  split at h
  · rename_i id win hcell
    obtain ⟨hlt, -⟩ := List.getElem?_eq_some_iff.mp hcell
    refine ⟨?_, id, _, by simp [hlt], ReplayWindow.refuses_of_accept h⟩
    rintro ⟨id', win', hcell', hwin⟩
    obtain ⟨rfl, rfl⟩ := Prod.mk.inj (Option.some.inj (hcell.symm.trans hcell'))
    exact ReplayWindow.accept_iff.mp h hwin
  · cases h

end SkWorld

end SolidServer.Sk
