import SolidServer.Store.World

/-!
# Conditional requests and byte ranges

The precondition evaluator for writes (`If-Match`, `If-None-Match`), the cache
validator for reads (`If-None-Match`, `If-Modified-Since`) and the single byte range
(`ldp/conditional.rs`, `ldp/range.rs`), with the date formats of `store/timestamp.rs`
that reads use.

A wildcard looks only at whether the resource exists: `evaluate_wildcards` is what
keeps the entity tag of a resource out of the reach of requesters who may not read it.
-/

namespace SolidServer.Ldp

open SolidServer.Store

/-! ## §1 Entity tags -/

structure InboundTag where
  opaqueTag : Text
  weak : Bool
  deriving DecidableEq

/-- The bytes an entity tag may hold between its quotes. -/
def isEtagByte (b : UInt8) : Bool :=
  b.toNat == 0x21 || (0x23 ≤ b.toNat && b.toNat ≤ 0x7E) || 0x80 ≤ b.toNat

def parseEntityTag (raw : Text) : Option InboundTag := do
  let t := Text.trim raw
  let (weak, quoted) :=
    match Text.stripPrefix? t "W/".toList with
    | some rest => (true, rest)
    | none => (false, t)
  let opened ← Text.stripPrefix? quoted ['"']
  let inner ← Text.stripSuffix? opened ['"']
  if inner.utf8.all isEtagByte then some ⟨inner, weak⟩ else none

/-- `parse_current`: the inner text of a strong stored tag. -/
def parseCurrent (currentStrong : Text) : Option Text := do
  let tag ← parseEntityTag currentStrong
  if !tag.weak then some tag.opaqueTag else none

/-- `variant_etag`: the tag of a representation other than the stored one. -/
def variantEtag (stored variant : Text) : Text :=
  match Text.stripSuffix? stored ['"'] with
  | some head => head ++ "+".toList ++ variant ++ "\"".toList
  | none => stored ++ "+".toList ++ variant

/-- `state_part`: the tag without its variant. -/
def statePart (inner : Text) : Text :=
  match Text.splitOnce inner '+' with
  | some (head, _) => head
  | none => inner

namespace InboundTag

def matchesWeakState (t : InboundTag) (currentStrong : Text) : Bool :=
  match parseCurrent currentStrong with
  | some cur => statePart t.opaqueTag = statePart cur
  | none => false

def matchesStrongState (t : InboundTag) (currentStrong : Text) : Bool :=
  if t.weak then false else t.matchesWeakState currentStrong

def matchesWeak (t : InboundTag) (currentStrong : Text) : Bool :=
  match parseCurrent currentStrong with
  | some cur => t.opaqueTag = cur
  | none => false

end InboundTag

/-- `tag_list`: malformed members are skipped. -/
def tagList (header : Text) : List InboundTag := (header.splitOn ',').filterMap parseEntityTag

def isWildcard (header : Text) : Bool := Text.trim header = "*".toList

/-! ## §2 Write preconditions -/

inductive Precondition where
  | proceed
  | failed
  deriving DecidableEq, Repr

/-- Whether a header value selects the current state; a wildcard selects any. -/
def selects (header : Text) (current : Option Text) (test : InboundTag → Text → Bool) : Bool :=
  if isWildcard header then current.isSome
  else
    match current with
    | some cur => (tagList header).any fun t => test t cur
    | none => false

def evaluate (ifMatch ifNoneMatch current : Option Text) : Precondition :=
  let matchOk :=
    match ifMatch with
    | some im => selects im current InboundTag.matchesStrongState
    | none => true
  if !matchOk then .failed
  else
    let noneMatched :=
      match ifNoneMatch with
      | some inm => selects inm current InboundTag.matchesWeakState
      | none => false
    if noneMatched then .failed else .proceed

/-- `require`: a failed precondition is a 412. -/
def require (p : Precondition) : Except ServerError Unit :=
  match p with
  | .proceed => .ok ()
  | .failed => .error .preconditionFailed

/-- **Wildcards see only existence**: without a concrete tag in either header, any two states
that both exist, or both do not, are judged alike. -/
theorem evaluate_wildcards {im inm : Option Text} {c₁ c₂ : Option Text}
    (him : ∀ h, im = some h → isWildcard h = true)
    (hinm : ∀ h, inm = some h → isWildcard h = true) (hc : c₁.isSome = c₂.isSome) :
    evaluate im inm c₁ = evaluate im inm c₂ := by
  have hsel : ∀ (h : Text) (test : InboundTag → Text → Bool), isWildcard h = true →
      selects h c₁ test = selects h c₂ test := by
    intro h test hw
    simp only [selects, hw, if_true, hc]
  unfold evaluate
  cases im with
  | none =>
    cases inm with
    | none => rfl
    | some b => simp only [hsel b _ (hinm b rfl)]
  | some a =>
    cases inm with
    | none => simp only [hsel a _ (him a rfl)]
    | some b => simp only [hsel a _ (him a rfl), hsel b _ (hinm b rfl)]

/-! ## §3 Dates -/

def twoDigits (v : Text) (at_ : Nat) : Option Nat :=
  match v.drop at_ with
  | d₁ :: d₂ :: _ =>
    if Text.isAsciiDigit d₁ && Text.isAsciiDigit d₂ then
      some ((d₁.toNat - 48) * 10 + (d₂.toNat - 48))
    else none
  | _ => none

def fourDigits (v : Text) (at_ : Nat) : Option Nat :=
  let ds := (v.drop at_).take 4
  if ds.all Text.isAsciiDigit then some (ds.foldl (fun acc d => acc * 10 + (d.toNat - 48)) 0)
  else none

def daysInMonth (year : Int) (month : Nat) : Nat :=
  match month with
  | 1 | 3 | 5 | 7 | 8 | 10 | 12 => 31
  | 4 | 6 | 9 | 11 => 30
  | 2 => if (year % 4 = 0 ∧ year % 100 ≠ 0) ∨ year % 400 = 0 then 29 else 28
  | _ => 0

/-- The name of the day, counted from the epoch's Thursday. -/
def dayNameFor (daysSinceEpoch : Int) : Text :=
  match daysSinceEpoch % 7 with
  | 0 => "Thu".toList
  | 1 => "Fri".toList
  | 2 => "Sat".toList
  | 3 => "Sun".toList
  | 4 => "Mon".toList
  | 5 => "Tue".toList
  | _ => "Wed".toList

def monthNames : List Text :=
  ["Jan", "Feb", "Mar", "Apr", "May", "Jun", "Jul", "Aug", "Sep", "Oct", "Nov", "Dec"].map
    String.toList

def monthFromAbbrev (m : Text) : Option Nat := (monthNames.idxOf? m).map (· + 1)

/-- Days from the epoch to a civil date. -/
def daysFromCivil (y : Int) (m d : Nat) : Int :=
  let y := if m ≤ 2 then y - 1 else y
  let era := (if 0 ≤ y then y else y - 399).tdiv 400
  let yoe := y - era * 400
  let m : Int := m
  let doy := (153 * (if m > 2 then m - 3 else m + 9) + 2) / 5 + d - 1
  let doe := yoe * 365 + yoe / 4 - yoe / 100 + doy
  era * 146097 + doe - 719468

/-- `parse_http_date`: an IMF-fixdate, in seconds from the epoch. -/
def parseHttpDate (value : Text) : Option Int := do
  let v := Text.trim value
  let at_ (i n : Nat) : Text := (v.drop i).take n
  if !v.all (fun c => c.toNat < 128) ∨ v.length ≠ 29 ∨ at_ 3 2 ≠ ", ".toList ∨ at_ 7 1 ≠ [' '] ∨
      at_ 11 1 ≠ [' '] ∨ at_ 16 1 ≠ [' '] ∨ at_ 19 1 ≠ [':'] ∨ at_ 22 1 ≠ [':'] ∨
      at_ 25 4 ≠ " GMT".toList then none
  else do
    let day ← twoDigits v 5
    let month ← monthFromAbbrev (at_ 8 3)
    let year ← fourDigits v 12
    let hh ← twoDigits v 17
    let mm ← twoDigits v 20
    let ss ← twoDigits v 23
    if day = 0 ∨ daysInMonth year month < day ∨ 23 < hh ∨ 59 < mm ∨ 59 < ss then none
    else
      let days := daysFromCivil year month day
      if dayNameFor days ≠ at_ 0 3 then none
      else some (days * 86400 + hh * 3600 + mm * 60 + ss)

/-- Civil date of a number of days from the epoch. -/
def civilFromDays (z : Int) : Int × Int × Int :=
  let z := z + 719468
  let era := (if 0 ≤ z then z else z - 146096).tdiv 146097
  let doe := z - era * 146097
  let yoe := (doe - doe / 1460 + doe / 36524 - doe / 146096) / 365
  let y := yoe + era * 400
  let doy := doe - (365 * yoe + yoe / 4 - yoe / 100)
  let mp := (5 * doy + 2) / 153
  let d := doy - (153 * mp + 2) / 5 + 1
  let m := if mp < 10 then mp + 3 else mp - 9
  (if m ≤ 2 then y + 1 else y, m, d)

/-- `to_imf_fixdate`: the `Last-Modified` form of an instant; none before the epoch. -/
def toImfFixdate (t : SystemTime) : Option Text :=
  (SystemTime.unixSecs? t).map fun secs =>
    let days := secs / 86400
    let tod := secs % 86400
    let (y, m, d) := civilFromDays days
    let pad := fun (w : Nat) (n : Int) => Text.zeroPad w (Text.decimal n.toNat)
    dayNameFor days ++ ", ".toList ++ pad 2 d ++ " ".toList ++ monthNames.getD (m - 1).toNat [] ++
      " ".toList ++ pad 4 y ++ " ".toList ++ pad 2 (tod / 3600) ++ ":".toList ++
      pad 2 (tod % 3600 / 60) ++ ":".toList ++ pad 2 (tod % 60) ++ " GMT".toList

example : toImfFixdate (784111777 * 1000000000) = some "Sun, 06 Nov 1994 08:49:37 GMT".toList := by
  decide

example : parseHttpDate "Sun, 06 Nov 1994 08:49:37 GMT".toList = some 784111777 := by decide +kernel

/-! ## §4 Read preconditions -/

inductive ReadPrecondition where
  | proceed
  | notModified
  deriving DecidableEq, Repr

/-- `evaluate_read`: `If-None-Match` decides when present, else `If-Modified-Since`. -/
def evaluateRead (ifNoneMatch ifModifiedSince : Option Text) (currentEtag : Text)
    (lastModified : Option SystemTime) : ReadPrecondition :=
  match ifNoneMatch with
  | some inm =>
    if isWildcard inm || (tagList inm).any fun t => t.matchesWeak currentEtag then .notModified
    else .proceed
  | none =>
    match ifModifiedSince.bind parseHttpDate, lastModified.bind SystemTime.unixSecs? with
    | some imsSecs, some lmSecs => if lmSecs ≤ imsSecs then .notModified else .proceed
    | _, _ => .proceed

/-! ## §5 Byte ranges -/

inductive RangeOutcome where
  | full
  | satisfied (start stop : Nat)
  | unsatisfiable
  deriving DecidableEq, Repr

/-- The range after the unit, against a body of `len` bytes. -/
def evaluateSpec (first last : Text) (len : Nat) : RangeOutcome :=
  if len = 0 then .unsatisfiable
  else
    match first.isEmpty, last.isEmpty with
    | true, false =>
      match Text.parseUnsigned? 64 last with
      | some n => if n = 0 then .unsatisfiable else .satisfied (len - n) (len - 1)
      | none => .full
    | false, true =>
      match Text.parseUnsigned? 64 first with
      | some start => if len - 1 < start then .unsatisfiable else .satisfied start (len - 1)
      | none => .full
    | false, false =>
      match Text.parseUnsigned? 64 first, Text.parseUnsigned? 64 last with
      | some start, some stop =>
        if stop < start then .full
        else if len - 1 < start then .unsatisfiable
        else .satisfied start (min stop (len - 1))
      | _, _ => .full
    | true, true => .full

/-- `range::evaluate`: anything but one byte range is ignored. -/
def evaluateRange (range : Option Text) (len : Nat) : RangeOutcome :=
  match range with
  | none => .full
  | some r =>
    match Text.stripPrefix? (Text.trim r) "bytes=".toList with
    | none => .full
    | some specs =>
      let spec := Text.trim specs
      if ',' ∈ spec then .full
      else
        match Text.splitOnce spec '-' with
        | none => .full
        | some (first, last) => evaluateSpec (Text.trim first) (Text.trim last) len

theorem evaluateSpec_satisfied {first last : Text} {len start stop : Nat}
    (h : evaluateSpec first last len = .satisfied start stop) : start ≤ stop ∧ stop < len := by
  unfold evaluateSpec at h
  split_ifs at h with hlen
  split at h
  · -- the final `n` bytes
    split at h
    · split_ifs at h with hn
      obtain ⟨rfl, rfl⟩ := RangeOutcome.satisfied.inj h
      omega
    · cases h
  · -- from `start` to the end
    split at h
    · split_ifs at h with hs
      obtain ⟨rfl, rfl⟩ := RangeOutcome.satisfied.inj h
      omega
    · cases h
  · split at h
    · split_ifs at h with hinv hs
      obtain ⟨rfl, rfl⟩ := RangeOutcome.satisfied.inj h
      omega
    · cases h
  · cases h

/-- **A satisfied range lies in the body**, so slicing it out never fails. -/
theorem evaluateRange_satisfied {range : Option Text} {len start stop : Nat}
    (h : evaluateRange range len = .satisfied start stop) : start ≤ stop ∧ stop < len := by
  unfold evaluateRange at h
  split at h
  · cases h
  · split at h
    · cases h
    · simp only at h
      split_ifs at h
      split at h
      · cases h
      · exact evaluateSpec_satisfied h

end SolidServer.Ldp
