import SolidServer.Ldp.Frame
import SolidServer.Text.Trim

/-!
# Failed preconditions

`If-Match` and `If-None-Match` are lists, and a list may be spread over several field
lines.  `preconditionFails` reads them that way: every line counts, whatever its bytes.
The write handlers read only the first line of each field, and only when it is text
(`header_str`).

The two readings are compared by running a request next to the same request without its
precondition fields: unless the handler's own reading refuses the request, the two runs
are the same run (`checked_serve`).
-/

namespace SolidServer.Ldp

open SolidServer.Store SolidServer.Authz

/-! ## §1 The field lines taken together -/

/-- The characters of a field value, one a byte, whether or not it reads as text. -/
def fieldText (v : HeaderValue) : Text := v.bytes.map fun b => Char.ofNat b.toNat

/-- The list members of all lines of a field. -/
def fieldMembers (h : HeaderMap) (n : HeaderName) : List Text :=
  (h.getAll n).flatMap fun v => (fieldText v).splitOn ','

/-- Some member is `*`. -/
def holdsWildcard (h : HeaderMap) (n : HeaderName) : Bool := (fieldMembers h n).any isWildcard

/-- Some member is an entity tag that passes the test against the current one. -/
def holdsTag (h : HeaderMap) (n : HeaderName) (test : InboundTag → Text → Bool) (cur : Text) :
    Bool :=
  ((fieldMembers h n).filterMap parseEntityTag).any fun t => test t cur

/-- **The precondition fails**: there are `If-Match` lines and no member of theirs is `*` or a
strong tag of the current state, or the target exists and some member of the `If-None-Match`
lines is `*` or a tag of the current state. -/
def preconditionFails (h : HeaderMap) (current : Option Text) : Bool :=
  ((h.get .ifMatch).isSome && !holdsWildcard h .ifMatch &&
      !current.any (holdsTag h .ifMatch InboundTag.matchesStrongState)) ||
    current.any fun cur =>
      holdsWildcard h .ifNoneMatch || holdsTag h .ifNoneMatch InboundTag.matchesWeakState cur

/-- The handlers' own reading: the first line of each field, when it is text. -/
def firstLinesFail (h : HeaderMap) (current : Option Text) : Bool :=
  evaluate (headerStr h .ifMatch) (headerStr h .ifNoneMatch) current = .failed

/-! ## §2 The request without its precondition fields -/

/-- The same request without `If-Match` and `If-None-Match`. -/
def Request.unconditional (req : Request) : Request :=
  { req with headers := req.headers.filter fun l => l.1 ≠ .ifMatch && l.1 ≠ .ifNoneMatch }

section
variable (req : Request)

variable {n : HeaderName}

theorem get_unconditional (hm : n ≠ .ifMatch) (hn : n ≠ .ifNoneMatch) :
    req.unconditional.headers.get n = req.headers.get n := by
  unfold Request.unconditional HeaderMap.get
  rw [List.find?_filter]
  congr 2
  funext l
  by_cases hl : l.1 = n
  · simp [hl, hm, hn]
  · simp [hl]

theorem headerStr_unconditional (hm : n ≠ .ifMatch) (hn : n ≠ .ifNoneMatch) :
    headerStr req.unconditional.headers n = headerStr req.headers n := by
  unfold headerStr
  rw [get_unconditional req hm hn]

theorem get_unconditional_none (hn : n = .ifMatch ∨ n = .ifNoneMatch) :
    req.unconditional.headers.get n = none := by
  unfold Request.unconditional HeaderMap.get
  rw [List.find?_filter, Option.map_eq_none_iff, List.find?_eq_none]
  intro l _
  rcases hn with rfl | rfl <;> cases l.1 <;> decide

@[simp] theorem requester_unconditional : req.unconditional.requester = req.requester := by
  unfold Request.requester requestOrigin
  rw [headerStr_unconditional req (by decide) (by decide)]
  rfl

@[simp] theorem checkPreconditions_unconditional (current : Option Text) :
    LdpState.checkPreconditions req.unconditional.headers current = .ok () := by
  unfold LdpState.checkPreconditions headerStr
  rw [get_unconditional_none req (.inl rfl), get_unconditional_none req (.inr rfl)]
  rfl

@[simp] theorem guardConditional_unconditional (s : LdpState) (target : Iri)
    (granted : Finset AccessMode) (webId : Option Iri) :
    s.guardConditionalRequiresRead target req.unconditional.headers granted webId = .ok () := by
  unfold LdpState.guardConditionalRequiresRead LdpState.conditionalCarriesEtag
  rw [get_unconditional_none req (.inl rfl), get_unconditional_none req (.inr rfl)]
  rfl

@[simp] theorem requireContentType_unconditional :
    LdpState.requireContentType req.unconditional.headers =
      LdpState.requireContentType req.headers := by
  unfold LdpState.requireContentType
  rw [headerStr_unconditional req (by decide) (by decide)]

@[simp] theorem parsePatch_unconditional (s : LdpState) (target : Iri) :
    s.parsePatch req.unconditional target = s.parsePatch req target := by
  unfold LdpState.parsePatch
  rw [headerStr_unconditional req (by decide) (by decide)]
  rfl

end

/-! ## §3 A request next to the same request without preconditions -/

namespace LdpState

/-- The handlers refuse on the precondition fields: their own reading fails, or the fields need
the read mode and it is not granted. -/
def Refuses (s : LdpState) (req : Request) (b : Backend) (target : Iri) : Prop :=
  firstLinesFail req.headers ((b.index.meta? target).map ResourceMeta.etag) = true ∨
    s.guardConditionalRequiresRead target req.headers
      (grantedOn s.wac b target req.requester) req.webId ≠ .ok ()

/-- `p` leaves the backend as it was if it is refused, and is the run of `q` if it is not. -/
def Checked (refused : Prop) (b : Backend) {α : Type} (p q : Server α) (w : World) : Prop :=
  (refused → (exec p w).2.backend = b) ∧ (¬ refused → exec p w = exec q w)

section
variable {s : LdpState} {req : Request} {target : LdpTarget} {w : World} {b : Backend}
  {refused : Prop} {α β : Type}

theorem Checked.bind {p : Server α} {f g : α → Server β} (hp : Perused s.wac p)
    (hs : Sound s.wac w) (hb : w.backend = b)
    (hfg : ∀ a w', Sound s.wac w' → w'.backend = b → (exec p w).1 = .ok a →
      Checked refused b (f a) (g a) w') :
    Checked refused b (p >>= f) (p >>= g) w := by
  obtain ⟨hs', hq⟩ : Calm s.wac w (exec p w).1 (exec p w).2 := hp.calm rfl hs
  unfold Checked
  rcases hrun : exec p w with ⟨r, w'⟩
  rw [hrun] at hs' hq hfg
  cases r with
  | ok a =>
    rw [exec_bind_ok hrun, exec_bind_ok hrun]
    exact hfg a w' hs' (hq.backend.trans hb) rfl
  | error e =>
    rw [exec_bind_error hrun, exec_bind_error hrun]
    exact ⟨fun _ => hq.backend.trans hb, fun _ => rfl⟩

/-- A check both requests make. -/
theorem Checked.check {r : Except ServerError α} {f g : α → Server β} (hb : w.backend = b)
    (hfg : ∀ a, r = .ok a → Checked refused b (f a) (g a) w) :
    Checked refused b (Store.check r >>= f) (Store.check r >>= g) w := by
  cases r with
  | ok a => exact hfg a rfl
  | error e => exact ⟨fun _ => hb, fun _ => rfl⟩

/-- A check of the precondition fields: the request without them passes it. -/
theorem Checked.guard {r : Except ServerError Unit} {f g : Unit → Server β} (hb : w.backend = b)
    (hrefused : r ≠ .ok () → refused) (hfg : r = .ok () → Checked refused b (f ()) (g ()) w) :
    Checked refused b (Store.check r >>= f) (Store.check (.ok ()) >>= g) w := by
  cases r with
  | ok a => exact hfg rfl
  | error e => exact ⟨fun _ => hb, fun hnot => absurd (hrefused (by simp)) hnot⟩

/-- Past both checks the request is not refused. -/
theorem Checked.done (p : Server α) (h : ¬ refused) : Checked refused b p p w :=
  ⟨fun hr => absurd hr h, fun _ => rfl⟩

theorem Checked.throw (hb : w.backend = b) (e : ServerError) :
    Checked refused b (throw e : Server α) (throw e) w :=
  ⟨fun _ => hb, fun _ => rfl⟩

variable {current : Option Text}

theorem checkPreconditions_ok_iff {h : HeaderMap} :
    checkPreconditions h current = .ok () ↔ firstLinesFail h current = false := by
  unfold checkPreconditions firstLinesFail
  cases evaluate (headerStr h .ifMatch) (headerStr h .ifNoneMatch) current <;> simp [require]

theorem refuses_of_check (hc : current = (b.index.meta? target.iri).map ResourceMeta.etag)
    (h : checkPreconditions req.headers current ≠ .ok ()) : Refuses s req b target.iri := by
  left
  rw [← hc]
  simpa [checkPreconditions_ok_iff] using h

theorem not_refuses (hc : current = (b.index.meta? target.iri).map ResourceMeta.etag)
    (h : checkPreconditions req.headers current = .ok ())
    (hg : s.guardConditionalRequiresRead target.iri req.headers (grantedOn s.wac b target.iri req.requester) req.webId = .ok ())
    :
    ¬ Refuses s req b target.iri := by
  rw [checkPreconditions_ok_iff, hc] at h
  rintro (hr | hr)
  · rw [h] at hr
    cases hr
  · exact hr hg

theorem checked_putHandler (hs : Sound s.wac w)
    (hparse : parseTarget s.baseUrl req.path = .ok target) :
    Checked (Refuses s req w.backend target.iri) w.backend (s.putHandler req)
      (s.putHandler req.unconditional) w := by
  unfold putHandler
  simp only [requester_unconditional, guardConditional_unconditional,
    requireContentType_unconditional, checkPreconditions_unconditional]
  refine Checked.check rfl fun t ht => ?_
  obtain rfl := Except.ok.inj (hparse.symm.trans ht)
  refine Checked.bind (perused_authorizeMode _ _ _) hs rfl fun granted w₁ hs₁ hb₁ hgranted => ?_
  rw [((spec_authorizeMode hs _ _ _).2 _ hgranted).2]
  refine Checked.guard hb₁ Or.inr fun hguard => ?_
  refine Checked.bind (built_meta? _) hs₁ hb₁ fun current w₂ hs₂ hb₂ hcurrent => ?_
  rw [exec_meta?] at hcurrent
  have hc := congrArg (Option.map ResourceMeta.etag) (meta_of_probe hcurrent).symm
  rw [hb₁] at hc
  refine Checked.bind (perused_rejectSlashSemanticsConflict target) hs₂ hb₂ fun _ w₃ _ hb₃ _ => ?_
  refine Checked.check hb₃ fun contentType _ => ?_
  refine Checked.check hb₃ fun storedType _ => ?_
  exact Checked.guard hb₃ (refuses_of_check hc) fun hok => .done _ (not_refuses hc hok hguard)

theorem checked_patchHandler (hs : Sound s.wac w)
    (hparse : parseTarget s.baseUrl req.path = .ok target) :
    Checked (Refuses s req w.backend target.iri) w.backend (s.patchHandler req)
      (s.patchHandler req.unconditional) w := by
  unfold patchHandler
  simp only [requester_unconditional, guardConditional_unconditional, parsePatch_unconditional,
    checkPreconditions_unconditional]
  refine Checked.check rfl fun t ht => ?_
  obtain rfl := Except.ok.inj (hparse.symm.trans ht)
  refine Checked.check rfl fun patch _ => ?_
  refine Checked.bind (perused_authorizeMode _ _ _) hs rfl fun granted w₁ hs₁ hb₁ hgranted => ?_
  rw [((spec_authorizeMode hs _ _ _).2 _ hgranted).2]
  refine Checked.check hb₁ fun _ _ => ?_
  refine Checked.guard hb₁ Or.inr fun hguard => ?_
  refine Checked.bind (perused_readCurrent target.iri) hs₁ hb₁ fun current w₂ _ hb₂ hcurrent => ?_
  have hc : (current.map fun r => r.meta_.etag) =
      (w.backend.index.meta? target.iri).map ResourceMeta.etag := by
    rw [← hb₁, ← (readCurrent_ok hcurrent).1, Option.map_map]
    rfl
  exact Checked.guard hb₂ (refuses_of_check hc) fun hok => .done _ (not_refuses hc hok hguard)

theorem checked_deleteHandler (hs : Sound s.wac w)
    (hparse : parseTarget s.baseUrl req.path = .ok target) :
    Checked (Refuses s req w.backend target.iri) w.backend (s.deleteHandler req)
      (s.deleteHandler req.unconditional) w := by
  unfold deleteHandler
  simp only [requester_unconditional, guardConditional_unconditional,
    checkPreconditions_unconditional]
  refine Checked.check rfl fun t ht => ?_
  obtain rfl := Except.ok.inj (hparse.symm.trans ht)
  refine Checked.bind (perused_authorizeMode _ _ _) hs rfl fun granted w₁ hs₁ hb₁ hgranted => ?_
  rw [((spec_authorizeMode hs _ _ _).2 _ hgranted).2]
  refine Checked.bind (perused_onNearest _ _ _) hs₁ hb₁ fun _ w₂ hs₂ hb₂ _ => ?_
  refine Checked.guard hb₂ Or.inr fun hguard => ?_
  refine Checked.bind (built_meta? _) hs₂ hb₂ fun current w₃ _ hb₃ hcurrent => ?_
  rw [exec_meta?] at hcurrent
  have hc := congrArg (Option.map ResourceMeta.etag) (meta_of_probe hcurrent).symm
  rw [hb₂] at hc
  cases current with
  | none => exact Checked.throw hb₃ _
  | some m =>
    exact Checked.guard hb₃ (refuses_of_check hc) fun hok => .done _ (not_refuses hc hok hguard)

/-- **The fields only refuse**: a write that is not refused on its precondition fields runs as if
it had none. -/
theorem checked_serve (hs : Sound s.wac w)
    (hmethod : req.method = .put ∨ req.method = .patch ∨ req.method = .delete)
    (hparse : parseTarget s.baseUrl req.path = .ok target) :
    Checked (Refuses s req w.backend target.iri) w.backend (s.serve req)
      (s.serve req.unconditional) w := by
  have hsame : req.unconditional.method = req.method := rfl
  unfold serve
  rw [hsame]
  rcases hmethod with hm | hm | hm <;> rw [hm]
  · exact checked_putHandler hs hparse
  · exact checked_patchHandler hs hparse
  · exact checked_deleteHandler hs hparse

end

/-! ## §4 When a failed precondition keeps the store -/

/-- Every record, with its bytes, and every containment edge is as before. -/
def Untouched (b b' : Backend) : Prop :=
  ∀ iri, b'.record? iri = b.record? iri ∧ b'.index.childrenOf iri = b.index.childrenOf iri

/-- `PUT` of a text over the stored `/a`, with these field lines. -/
def conditionalPut (lines : HeaderMap) : Request :=
  { samplePut "/a" with headers := (samplePut "/a").headers ++ lines }

/-- The open pod with a text at `/a`. -/
def textWorld : World :=
  World.seeded samplePod
    [("http://h/a".toList, [7]), (aclFor samplePod, [0, 1, 2, 3, 4, 5, 6])]

end LdpState

end SolidServer.Ldp
