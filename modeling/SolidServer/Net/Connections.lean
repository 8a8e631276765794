import SolidServer.Net.RateLimit

/-!
# Connections per source

`try_acquire_ip` counts the live connections of an address and gives out a guard for each;
dropping the guard takes one off.  Each of the two is one critical section of the map's lock, so
concurrent calls are a sequence of them.
-/

namespace SolidServer.Net

open SolidServer.Store

/-! ## §1 The limiter and its guards -/

/-- The part of `ConnectionLimiter` about sources. -/
structure ConnectionLimiter where
  maxPerIp : Option Nat
  exemptInternal : Bool

/-- `with_per_ip_cap`: a cap is at least one. -/
def ConnectionLimiter.withPerIpCap (maxPerIp : Option Nat) (exemptInternal : Bool) :
    ConnectionLimiter where
  maxPerIp := maxPerIp.map fun n => max n 1
  exemptInternal := exemptInternal

/-- `IpConnGuard`: it counts for an address, or not at all. -/
inductive IpConnGuard where
  | disabled
  | tracked (ip : IpAddr)
deriving DecidableEq

/-- The count of an address without an entry is zero. -/
def countOf (perIp : Dict IpAddr Nat) (ip : IpAddr) : Nat := (perIp.lookup ip).getD 0

/-- `try_acquire_ip`: no guard if the address is at its cap. -/
def ConnectionLimiter.tryAcquireIp (l : ConnectionLimiter) (perIp : Dict IpAddr Nat) (ip : IpAddr) :
    Option IpConnGuard × Dict IpAddr Nat :=
  match l.maxPerIp with
  | none => (some .disabled, perIp)
  | some cap =>
    if l.exemptInternal && ip.isInternalIp then (some .disabled, perIp)
    else if cap ≤ countOf perIp ip then (none, perIp)
    else (some (.tracked ip), perIp.insert ip (countOf perIp ip + 1))

/-- The drop of a guard: the last one of an address removes its entry. -/
def IpConnGuard.drop (perIp : Dict IpAddr Nat) : IpConnGuard → Dict IpAddr Nat
  | .disabled => perIp
  | .tracked ip =>
    match perIp.lookup ip with
    | none => perIp
    | some count => if count - 1 = 0 then perIp.erase ip else perIp.insert ip (count - 1)

/-! ## §2 Runs -/

/-- The map and the guards that are alive. -/
structure Connections where
  perIp : Dict IpAddr Nat
  guards : List IpConnGuard

inductive ConnectionOp where
  | acquire (ip : IpAddr)
  | drop (guard : IpConnGuard)

namespace ConnectionLimiter

/-- One call; a guard that is not alive cannot be dropped. -/
def step (l : ConnectionLimiter) (c : Connections) : ConnectionOp → Connections
  | .acquire ip => ⟨(l.tryAcquireIp c.perIp ip).2, (l.tryAcquireIp c.perIp ip).1.toList ++ c.guards⟩
  | .drop guard => if guard ∈ c.guards then ⟨guard.drop c.perIp, c.guards.erase guard⟩ else c

/-- The connections after some calls, in the order of their critical sections. -/
def after (l : ConnectionLimiter) (ops : List ConnectionOp) : Connections :=
  ops.foldl l.step ⟨∅, []⟩

end ConnectionLimiter

/-! ## §3 The counts -/

/-- **Invariant.**  Counts are those of the live guards, within the cap, and never zero. -/
structure Accounted (cap : Nat) (c : Connections) : Prop where
  counts : ∀ ip, countOf c.perIp ip = c.guards.count (.tracked ip)
  capped : ∀ ip, countOf c.perIp ip ≤ cap
  positive : ∀ ip, c.perIp.lookup ip ≠ some 0

section
variable {l : ConnectionLimiter} {perIp : Dict IpAddr Nat} {ip k : IpAddr} {cap n : Nat}
  {c : Connections}

theorem countOf_insert :
    countOf (perIp.insert ip n) k = if k = ip then n else countOf perIp k := by
  unfold countOf
  split_ifs with hk
  · rw [hk, AList.lookup_insert, Option.getD_some]
  · rw [AList.lookup_insert_ne hk]

/-- What an acquire with a cap can do. -/
theorem tryAcquireIp_cases (perIp : Dict IpAddr Nat) (ip : IpAddr) (hcap : l.maxPerIp = some cap) :
    l.tryAcquireIp perIp ip = (some .disabled, perIp) ∨
    (cap ≤ countOf perIp ip ∧ l.tryAcquireIp perIp ip = (none, perIp)) ∨
    (countOf perIp ip < cap ∧ l.tryAcquireIp perIp ip =
      (some (.tracked ip), perIp.insert ip (countOf perIp ip + 1))) := by
  unfold ConnectionLimiter.tryAcquireIp
  rw [hcap]
  dsimp only
  split_ifs with hexempt hfull
  · exact .inl rfl
  · exact .inr (.inl ⟨hfull, rfl⟩)
  · exact .inr (.inr ⟨Nat.lt_of_not_le hfull, rfl⟩)

/-- A drop takes one off the guard's own address. -/
theorem countOf_drop :
    countOf ((IpConnGuard.tracked ip).drop perIp) k =
      if k = ip then countOf perIp ip - 1 else countOf perIp k := by
  unfold IpConnGuard.drop
  dsimp only
  split
  · next hnone =>
    split_ifs with hk
    · rw [hk, countOf, hnone]
      rfl
    · rfl
  · next count hcount =>
    have hcountOf : countOf perIp ip = count := by rw [countOf, hcount, Option.getD_some]
    rw [hcountOf]
    split_ifs with hlast hk hk
    · rw [hk, countOf, AList.lookup_erase, hlast]
      rfl
    · rw [countOf, AList.lookup_erase_ne hk, countOf]
    · rw [countOf_insert, if_pos hk]
    · rw [countOf_insert, if_neg hk]

theorem lookup_drop_ne_zero (h : ∀ k, perIp.lookup k ≠ some 0) :
    ((IpConnGuard.tracked ip).drop perIp).lookup k ≠ some 0 := by
  unfold IpConnGuard.drop
  dsimp only
  split
  · exact h k
  · split_ifs with hlast
    · exact fun hk => h k (lookup_of_lookup_erase hk)
    · intro hk
      rcases lookup_insert_cases hk with ⟨-, hzero⟩ | hold
      · exact hlast hzero.symm
      · exact h k hold

/-- **Step, acquire.** -/
theorem Accounted.acquire (h : Accounted cap c) (hcap : l.maxPerIp = some cap) :
    Accounted cap (l.step c (.acquire ip)) := by
  unfold ConnectionLimiter.step
  dsimp only
  rcases tryAcquireIp_cases c.perIp ip hcap with
    hdone | ⟨-, hdone⟩ | ⟨hroom, hdone⟩ <;> rw [hdone]
  · refine ⟨fun k => ?_, h.capped, h.positive⟩
    exact h.counts k
  · exact h
  · refine ⟨fun k => ?_, fun k => ?_, fun k hk => ?_⟩
    · rw [Option.toList_some, List.singleton_append, countOf_insert]
      by_cases hk : k = ip
      · simp [hk, h.counts ip]
      · simp [hk, Ne.symm hk, h.counts k]
    · rw [countOf_insert]
      split_ifs
      · exact hroom
      · exact h.capped k
    · rcases lookup_insert_cases hk with ⟨-, hzero⟩ | hold
      · exact absurd hzero.symm (Nat.succ_ne_zero _)
      · exact h.positive k hold

/-- **Step, drop.** -/
theorem Accounted.drop (h : Accounted cap c) (guard : IpConnGuard) :
    Accounted cap (l.step c (.drop guard)) := by
  unfold ConnectionLimiter.step
  dsimp only
  split_ifs with hlive
  · cases guard with
    | disabled =>
      refine ⟨fun k => ?_, h.capped, h.positive⟩
      rw [List.count_erase_of_ne (by simp)]
      exact h.counts k
    | tracked ip =>
      refine ⟨fun k => ?_, fun k => ?_, fun k => lookup_drop_ne_zero h.positive⟩
      · rw [countOf_drop]
        by_cases hk : k = ip
        · simp [hk, h.counts ip]
        · simp [hk, h.counts k]
      · rw [countOf_drop]
        split_ifs
        · exact Nat.le_trans (Nat.sub_le _ _) (h.capped ip)
        · exact h.capped k
  · exact h

/-- **Run.** -/
theorem accounted_after (hcap : l.maxPerIp = some cap) (ops : List ConnectionOp) :
    Accounted cap (l.after ops) := by
  have hrun : ∀ c, Accounted cap c → Accounted cap (ops.foldl l.step c) := by
    induction ops with
    | nil => exact fun c h => h
    | cons op ops ih =>
      intro c h
      apply ih
      cases op with
      | acquire ip => exact h.acquire hcap
      | drop guard => exact h.drop guard
  refine hrun _ ⟨fun ip => rfl, fun ip => Nat.zero_le _, fun ip hip => ?_⟩
  exact absurd hip (by simp)

end

/-- **Accounting.**  In every run the count of an address is that of its live guards and within
the cap, only an address at the cap is refused, no entry is zero, and without a live guard the
map is empty. -/
theorem connections_accounted (cap : Nat) (hcap : 1 ≤ cap) (exemptInternal : Bool)
    (ops : List ConnectionOp) :
    let l := ConnectionLimiter.withPerIpCap (some cap) exemptInternal
    let c := l.after ops
    (∀ ip, countOf c.perIp ip = c.guards.count (.tracked ip)) ∧
    (∀ ip, countOf c.perIp ip ≤ cap) ∧
    (∀ ip, (l.tryAcquireIp c.perIp ip).1 = none → countOf c.perIp ip = cap) ∧
    (∀ ip, c.perIp.lookup ip ≠ some 0) ∧
    ((∀ ip, .tracked ip ∉ c.guards) → c.perIp = ∅) := by
  intro l c
  have hmax : l.maxPerIp = some cap := congrArg some (max_eq_left hcap)
  have h : Accounted cap c := accounted_after hmax ops
  refine ⟨h.counts, h.capped, fun ip hrefused => ?_, h.positive, fun hdead => ?_⟩
  · rcases tryAcquireIp_cases c.perIp ip hmax with
      hdone | ⟨hfull, -⟩ | ⟨-, hdone⟩
    · rw [hdone] at hrefused
      cases hrefused
    · exact Nat.le_antisymm (h.capped ip) hfull
    · rw [hdone] at hrefused
      cases hrefused
  · -- an entry would be positive, and so the count of a live guard
    refine AList.ext (List.eq_nil_iff_forall_not_mem.mpr fun entry hentry => ?_)
    obtain ⟨ip, n⟩ := entry
    have hn : c.perIp.lookup ip = some n := AList.mem_lookup_iff.mpr hentry
    have hcount := h.counts ip
    rw [List.count_eq_zero_of_not_mem (hdead ip), countOf, hn, Option.getD_some] at hcount
    exact h.positive ip (hcount ▸ hn)

/-- The second connection of a source with a cap of one. -/
theorem connections_accounted_one :
    let l := ConnectionLimiter.withPerIpCap (some 1) true
    (l.tryAcquireIp (l.after [.acquire (.v4 0x08080808)]).perIp (.v4 0x08080808)).1 = none ∧
      countOf (l.after [.acquire (.v4 0x08080808)]).perIp (.v4 0x08080808) = 1 := by
  have hrefused : ((ConnectionLimiter.withPerIpCap (some 1) true).tryAcquireIp
      ((ConnectionLimiter.withPerIpCap (some 1) true).after [.acquire (.v4 0x08080808)]).perIp
      (.v4 0x08080808)).1 = none := by decide
  exact ⟨hrefused, (connections_accounted 1 le_rfl true [.acquire (.v4 0x08080808)]).2.2.1 _ hrefused⟩

end SolidServer.Net
