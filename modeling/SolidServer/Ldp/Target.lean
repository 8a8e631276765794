import SolidServer.Authz.Wac
import SolidServer.Http

/-!
# Request targets

From a request path to the resource identifier it names (`ldp/target.rs`), with the
refusal of the reserved identity namespace (`identity.rs`).

An accepted path is the storage root followed by segments that are neither empty nor
dots, except that slashes may repeat at either end of the path (`ParsedPath`).
-/

namespace SolidServer.Ldp

open SolidServer.Authz

/-! ## §1 The reserved namespace -/

def reservedSegment : Text := ".identity".toList

def hexDigit? (b : UInt8) : Option Nat :=
  let n := b.toNat
  if 0x30 ≤ n ∧ n ≤ 0x39 then some (n - 0x30)
  else if 0x61 ≤ n ∧ n ≤ 0x66 then some (n - 0x61 + 10)
  else if 0x41 ≤ n ∧ n ≤ 0x46 then some (n - 0x41 + 10)
  else none

/-- The bytes with every valid `%XX` pair decoded and any other `%` kept. -/
def percentDecode : Bytes → Bytes
  | [] => []
  | c :: rest =>
    match rest with
    | a :: b :: tail =>
      match c.toNat == 0x25, hexDigit? a, hexDigit? b with
      | true, some hi, some lo => UInt8.ofNat (hi * 16 + lo) :: percentDecode tail
      | _, _, _ => c :: percentDecode (a :: b :: tail)
    | short => c :: percentDecode short

/-- `percent_decode_lossy`. -/
def percentDecodeLossy (path : Text) : Text := Text.ofUtf8Lossy (percentDecode path.utf8)

/-- `first_segment_is_reserved`, ignoring ASCII case. -/
def firstSegmentIsReserved (path : Text) : Bool :=
  let first := (Text.trimStartMatches path '/').takeWhile (· ≠ '/')
  Text.toAsciiLowercase first = reservedSegment

/-- `is_reserved_identity_path`: raw or percent-decoded. -/
def isReservedIdentityPath (path : Text) : Bool :=
  firstSegmentIsReserved path || firstSegmentIsReserved (percentDecodeLossy path)

/-! ## §2 Parsing -/

structure LdpTarget where
  iri : Iri
  htu : Text
  isContainer : Bool
  deriving DecidableEq

/-- The path without query and fragment. -/
def pathOnly (path : Text) : Text := path.takeWhile fun c => c ≠ '?' ∧ c ≠ '#'

/-- The segment check of `parse_target`: the first offending segment is reported. -/
def checkSegments : List Text → Except ServerError Unit
  | [] => .ok ()
  | seg :: rest =>
    if seg = [] then .error (.badRequest "empty path segment rejected".toList)
    else if seg = "..".toList ∨ seg = ".".toList then
      .error (.badRequest "path traversal rejected".toList)
    else checkSegments rest

/-- The path without its leading and trailing slashes. -/
def innerPath (path : Text) : Text :=
  Text.trimEndMatches (Text.trimStartMatches path '/') '/'

def checkPath (path : Text) : Except ServerError Unit :=
  if innerPath path = [] then .ok () else checkSegments ((innerPath path).splitOn '/')

def parseTarget (base path : Text) : Except ServerError LdpTarget :=
  let base := Text.trimEndMatches base '/'
  let path := pathOnly path
  if base = [] then .error (.badRequest "empty base url".toList)
  else if !Text.startsWith path ['/'] then .error (.badRequest "path must be absolute".toList)
  else if isReservedIdentityPath path then .error .notFound
  else (checkPath path).map fun _ => ⟨base ++ path, base ++ path, Text.endsWith path ['/']⟩

/-! ## §3 Accepted targets -/

/-- What an accepted path looks like: the identifier is the storage root followed by `rel`, and
the segments of the path are neither empty nor dots. -/
structure ParsedPath (base path : Text) (t : LdpTarget) (rel : Text) : Prop where
  iri : t.iri = storageRoot base ++ rel
  path : pathOnly path = '/' :: rel
  container : t.isContainer = true ↔ t.iri.getLast? = some '/'
  htu : t.htu = t.iri
  segments : innerPath ('/' :: rel) ≠ [] → ∀ seg ∈ (innerPath ('/' :: rel)).splitOn '/',
    seg ≠ [] ∧ seg ≠ "..".toList ∧ seg ≠ ".".toList

theorem checkSegments_ok {segs : List Text} (h : checkSegments segs = .ok ()) :
    ∀ seg ∈ segs, seg ≠ [] ∧ seg ≠ "..".toList ∧ seg ≠ ".".toList := by
  induction segs with
  | nil => simp
  | cons seg rest ih =>
    unfold checkSegments at h
    split_ifs at h with h₁ h₂
    obtain ⟨hdd, hd⟩ := not_or.mp h₂
    exact List.forall_mem_cons.mpr ⟨⟨h₁, hdd, hd⟩, ih h⟩

/-- **Accepted targets lie under the storage root.** -/
theorem parseTarget_ok {base path : Text} {t : LdpTarget} (h : parseTarget base path = .ok t) :
    ∃ rel, ParsedPath base path t rel := by
  unfold parseTarget at h
  simp only at h
  split_ifs at h with hbase habs hres
  obtain ⟨rel, hrel⟩ : ∃ rel, ['/'] ++ rel = pathOnly path := by
    rw [Bool.not_eq_true, Bool.not_eq_false', Text.startsWith_iff] at habs
    exact habs
  have hroot : Text.trimEndMatches base '/' ++ pathOnly path = storageRoot base ++ rel := by
    rw [← hrel, storageRoot, List.append_assoc]
  have hends : Text.endsWith (pathOnly path) ['/'] = true ↔
      (storageRoot base ++ rel).getLast? = some '/' := by
    rw [Text.endsWith_singleton, ← hroot, ← hrel]
    simp [List.getLast?_append]
  rw [hroot] at h
  cases hc : checkPath (pathOnly path) with
  | error e =>
    rw [hc] at h
    cases h
  | ok u =>
    rw [hc] at h
    obtain rfl := Except.ok.inj h
    refine ⟨rel, rfl, hrel.symm, hends, rfl, fun hne => ?_⟩
    rw [← hrel] at hc
    exact checkSegments_ok ((if_neg hne).symm.trans hc)

end SolidServer.Ldp
