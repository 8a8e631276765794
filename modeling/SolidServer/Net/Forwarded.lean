import SolidServer.Http
import SolidServer.Net.RateLimit
import SolidServer.Text.Trim

/-!
# The client behind trusted proxies

Behind `N` trusted proxies the rate limiter charges the `N`-th address from the right of
`X-Forwarded-For`, skipping what is no address (`resolve_client_ip`).  It looks at the first
line of the field only, and only if that line is visible ASCII.

`spoofable_iff`: a client that sends at most one such line has no influence on the address
exactly if every proxy puts an address at the end of that line.
-/

namespace SolidServer.Net

/-! ## §1 Resolving the client -/

section
variable (parseIp : Text → Option IpAddr)

/-- The entries of a line that are addresses, from the left. -/
def addresses (line : Text) : List IpAddr :=
  (line.splitOn ',').filterMap fun token => parseIp (Text.trim token)

/-- `client_ip_from_xff`: the address at the hop count from the right. -/
def clientIpFromXff (xff : Text) (trustedProxyHops : Nat) : Option IpAddr :=
  if trustedProxyHops = 0 then none
  else (addresses parseIp xff).reverse[trustedProxyHops - 1]?

/-- `resolve_client_ip`. -/
def resolveClientIp (peer : IpAddr) (xff : Option Text) (trustedProxyHops : Nat) : IpAddr :=
  if trustedProxyHops = 0 then peer
  else (xff.bind fun line => clientIpFromXff parseIp line trustedProxyHops).getD peer

/-- The address `rate_limit_middleware` charges, from the lines of `X-Forwarded-For`: `get` finds
the first one. -/
def middlewareClientIp (trustedProxyHops : Nat) (peer : IpAddr) (lines : List HeaderValue) : IpAddr :=
  resolveClientIp parseIp peer (lines.head?.bind HeaderValue.toStr?) trustedProxyHops

end

/-! ## §2 Proxies -/

/-- What a trusted proxy adds: one entry, at the end of the last line or on a line of its own. -/
structure Hop where
  entry : HeaderValue
  token : Text
  ownLine : Bool
  reads : entry.toStr? = some token
  single : ',' ∉ token

/-- An entry at the end of a line. -/
def appendEntry (line entry : HeaderValue) : HeaderValue where
  bytes := line.bytes ++ [44, 32] ++ entry.bytes
  valid := by
    rw [List.all_append, List.all_append, line.valid, entry.valid]
    rfl

def Hop.forward (hop : Hop) : List HeaderValue → List HeaderValue
  | [] => [hop.entry]
  | [line] => if hop.ownLine then [line, hop.entry] else [appendEntry line hop.entry]
  | line :: next :: rest => line :: hop.forward (next :: rest)

/-- The lines that arrive behind the proxies, the client's nearest first. -/
def received (hops : List Hop) (lines : List HeaderValue) : List HeaderValue :=
  hops.foldl (fun lines hop => hop.forward lines) lines

/-- One line with the entries of some proxies after it. -/
def appendEntries (hops : List Hop) (line : HeaderValue) : HeaderValue :=
  hops.foldl (fun line hop => appendEntry line hop.entry) line

section
variable {parseIp : Text → Option IpAddr} {hops : List Hop} {line : HeaderValue} {text : Text}

theorem toStr?_appendEntry (h : line.toStr? = some text) (hop : Hop) :
    (appendEntry line hop.entry).toStr? = some (text ++ ',' :: ' ' :: hop.token) := by
  have hentry := hop.reads
  unfold HeaderValue.toStr? at h hentry ⊢
  split_ifs at h hentry with hline htoken
  rw [if_pos (by rw [appendEntry, List.all_append, List.all_append, hline, htoken]; rfl)]
  rw [← Option.some.inj h, ← Option.some.inj hentry, appendEntry, List.map_append, List.map_append,
    List.append_assoc]
  rfl

/-- **The entries of a line** stand behind those it came with. -/
theorem addresses_appendEntries (parseIp : Text → Option IpAddr) (hops : List Hop)
    (h : line.toStr? = some text) :
    ∃ text', (appendEntries hops line).toStr? = some text' ∧
      addresses parseIp text' =
        addresses parseIp text ++ hops.filterMap fun hop => parseIp (Text.trim hop.token) := by
  induction hops generalizing line text with
  | nil => exact ⟨text, h, by simp⟩
  | cons hop hops ih =>
    obtain ⟨text', htext', haddresses⟩ := ih (toStr?_appendEntry h hop)
    refine ⟨text', htext', ?_⟩
    have hspace : Text.trim (' ' :: hop.token) = Text.trim hop.token := by
      have hblank : Text.Spaces [' '] := by simp [Text.Spaces, Text.isWhitespace]
      have hpad := Text.trim_padded hblank .nil hop.token
      rwa [List.append_nil] at hpad
    have htoken : (' ' :: hop.token).splitOn ',' = [' ' :: hop.token] :=
      List.splitOn_eq_singleton (by simp [hop.single])
    rw [haddresses, addresses, List.splitOn_append_cons_self, htoken, List.filterMap_append,
      List.filterMap_cons, hspace]
    cases hparse : parseIp (Text.trim hop.token) <;> simp [addresses, hparse]

/-- A line with others behind it stays the first, and as it is. -/
theorem head?_received_cons (next : HeaderValue) (rest : List HeaderValue) :
    (received hops (line :: next :: rest)).head? = some line := by
  induction hops generalizing next rest with
  | nil => rfl
  | cons hop hops ih =>
    obtain ⟨next', rest', hforward⟩ : ∃ next' rest', hop.forward (next :: rest) = next' :: rest' := by
      cases rest with
      | nil =>
        rw [Hop.forward]
        split_ifs
        · exact ⟨_, _, rfl⟩
        · exact ⟨_, _, rfl⟩
      | cons => exact ⟨_, _, rfl⟩
    show (received hops (line :: hop.forward (next :: rest))).head? = some line
    rw [hforward]
    exact ih next' rest'

/-- **The first line** gets the entries up to the first proxy that begins a new one. -/
theorem head?_received (hops : List Hop) (line : HeaderValue) :
    (received hops [line]).head? =
    some (appendEntries (hops.takeWhile fun hop => !hop.ownLine) line) := by
  induction hops generalizing line with
  | nil => rfl
  | cons hop hops ih =>
    show (received hops (hop.forward [line])).head? = _
    rw [Hop.forward]
    cases hown : hop.ownLine with
    | true =>
      rw [List.takeWhile_cons_of_neg (by simp [hown])]
      exact head?_received_cons _ _
    | false =>
      rw [List.takeWhile_cons_of_pos (by simp [hown])]
      exact ih _

end

/-! ## §3 What a client can choose -/

/-- What the client is assumed to send: no line, or one of visible ASCII. -/
def OneLine (lines : List HeaderValue) : Prop :=
  lines = [] ∨ ∃ line text, lines = [line] ∧ line.toStr? = some text

section
variable {parseIp : Text → Option IpAddr} {hops : List Hop} {peer : IpAddr}

/-- The last addresses of a line, by their own order. -/
theorem getElem?_reverse_append {P A : List IpAddr} (hA : A ≠ []) :
    (P ++ A).reverse[A.length - 1]? = A.head? := by
  have hpos := List.length_pos_iff.mpr hA
  rw [List.reverse_append, List.getElem?_append_left (by rw [List.length_reverse]; omega),
    List.getElem?_reverse (by omega), List.head?_eq_getElem?]
  congr 1
  omega

/-- The address charged, from the entries of the first line. -/
theorem middlewareClientIp_eq {lines : List HeaderValue} {line : HeaderValue} {text : Text}
    (hne : hops ≠ []) (hhead : lines.head? = some line) (htext : line.toStr? = some text) :
    middlewareClientIp parseIp hops.length peer lines =
      ((addresses parseIp text).reverse[hops.length - 1]?).getD peer := by
  have hzero : hops.length ≠ 0 := fun h => hne (List.length_eq_zero_iff.mp h)
  simp only [middlewareClientIp, resolveClientIp, clientIpFromXff, hhead, htext, Option.bind_some,
    if_neg hzero]

/-- If every proxy puts an address at the end of the line, the first of them counts. -/
theorem middlewareClientIp_of_appended (hne : hops ≠ [])
    (hall : ∀ hop ∈ hops, hop.ownLine = false ∧ (parseIp (Text.trim hop.token)).isSome)
    {lines : List HeaderValue} (hlines : OneLine lines) :
    middlewareClientIp parseIp hops.length peer (received hops lines) =
      ((hops.filterMap fun hop => parseIp (Text.trim hop.token)).head?).getD peer := by
  have hlength : (hops.filterMap fun hop => parseIp (Text.trim hop.token)).length = hops.length :=
    List.filterMap_length_eq_length.mpr fun hop hhop => (hall hop hhop).2
  have hA : (hops.filterMap fun hop => parseIp (Text.trim hop.token)) ≠ [] := by
    intro hnil
    rw [hnil] at hlength
    exact hne (List.length_eq_zero_iff.mp hlength.symm)
  -- in both cases these are the last entries of the first line
  obtain ⟨line, text, P, hhead, htext, haddresses⟩ : ∃ line text P,
      (received hops lines).head? = some line ∧ line.toStr? = some text ∧
      addresses parseIp text = P ++ hops.filterMap fun hop => parseIp (Text.trim hop.token) := by
    have htake : ∀ rest : List Hop, (∀ hop ∈ rest, hop ∈ hops) →
        rest.takeWhile (fun hop => !hop.ownLine) = rest := fun rest hrest =>
      List.takeWhile_eq_self_iff.mpr fun hop hhop => by rw [(hall hop (hrest hop hhop)).1]; rfl
    rcases hlines with rfl | ⟨line, text, rfl, htext⟩
    · cases hops with
      | nil => exact absurd rfl hne
      | cons hop hops =>
        obtain ⟨text', htext', haddresses⟩ := addresses_appendEntries parseIp hops hop.reads
        refine ⟨_, text', [], head?_received hops hop.entry, ?_, ?_⟩
        · rw [htake hops fun h hh => List.mem_cons_of_mem _ hh]
          exact htext'
        · rw [haddresses, addresses, List.splitOn_eq_singleton hop.single]
          obtain ⟨a, ha⟩ := Option.isSome_iff_exists.mp (hall hop List.mem_cons_self).2
          simp [ha]
    · obtain ⟨text', htext', haddresses⟩ := addresses_appendEntries parseIp hops htext
      refine ⟨_, text', _, head?_received _ _, ?_, haddresses⟩
      rw [htake hops fun h hh => hh]
      exact htext'
  rw [middlewareClientIp_eq hne hhead htext, haddresses, ← hlength, getElem?_reverse_append hA]

/-- **Spoofing.**  Provided two addresses can be written down, a client with at most one line has
no influence exactly if every trusted proxy puts an address at the end of the line it finds. -/
theorem spoofable_iff (parseIp : Text → Option IpAddr) (one other : Hop) {a b : IpAddr}
    (hone : parseIp (Text.trim one.token) = some a)
    (hother : parseIp (Text.trim other.token) = some b) (hab : a ≠ b) (peer : IpAddr)
    (hops : List Hop) (hne : hops ≠ []) :
    (∀ lines lines', OneLine lines → OneLine lines' →
      middlewareClientIp parseIp hops.length peer (received hops lines) =
        middlewareClientIp parseIp hops.length peer (received hops lines')) ↔
      ∀ hop ∈ hops, hop.ownLine = false ∧ (parseIp (Text.trim hop.token)).isSome := by
  constructor
  · intro hsame
    by_contra hbad
    set front := hops.takeWhile fun hop => !hop.ownLine with hfront
    set A := front.filterMap fun hop => parseIp (Text.trim hop.token) with hA
    have hprefix : front <+: hops := List.takeWhile_prefix _
    have hshort : A.length < hops.length := by
      have hle : A.length ≤ front.length := List.length_filterMap_le _ _
      by_contra hlong
      have hfull : front = hops := hprefix.eq_of_length (by have := hprefix.length_le; omega)
      refine hbad fun hop hhop => ⟨?_, ?_⟩
      · have hown := List.takeWhile_eq_self_iff.mp (hfront.symm.trans hfull) hop hhop
        simpa using hown
      · rw [hfull] at hA hle
        exact List.filterMap_length_eq_length.mp (by rw [← hA]; omega) hop hhop
    -- a line with as many copies of an address as there are proxies decides
    have hchosen : ∀ (copy : Hop) (c : IpAddr), parseIp (Text.trim copy.token) = some c →
        ∃ lines, OneLine lines ∧
          middlewareClientIp parseIp hops.length peer (received hops lines) = c := by
      intro copy c hc
      obtain ⟨text, htext, haddresses⟩ := addresses_appendEntries parseIp
        (List.replicate hops.length copy) copy.reads
      obtain ⟨text', htext', haddresses'⟩ := addresses_appendEntries parseIp front htext
      refine ⟨_, .inr ⟨_, text, rfl, htext⟩, ?_⟩
      rw [middlewareClientIp_eq hne (head?_received _ _) htext', haddresses', haddresses, ← hA,
        List.filterMap_replicate_of_some (f := fun hop : Hop => parseIp (Text.trim hop.token)) hc,
        List.reverse_append,
        List.getElem?_append_right (by rw [List.length_reverse]; omega), List.reverse_append,
        List.reverse_replicate, List.length_reverse, List.getElem?_append_left
          (by rw [List.length_replicate]; omega), List.getElem?_replicate, if_pos (by omega)]
      rfl
    obtain ⟨lines, hlines, ha⟩ := hchosen one a hone
    obtain ⟨lines', hlines', hb⟩ := hchosen other b hother
    exact hab (ha.symm.trans ((hsame lines lines' hlines hlines').trans hb))
  · intro hall lines lines' hlines hlines'
    rw [middlewareClientIp_of_appended hne hall hlines,
      middlewareClientIp_of_appended hne hall hlines']

end

/-! ## §4 A proxy that begins a new line -/

/-- A parser for the addresses of one digit. -/
def digitAddress (token : Text) : Option IpAddr :=
  match token with
  | [c] => if Text.isAsciiDigit c then some (.v4 (BitVec.ofNat 32 c.toNat)) else none
  | _ => none

/-- A proxy that reports the address of one digit. -/
def digitHop (d : Fin 10) (ownLine : Bool) : Hop where
  entry := ⟨[UInt8.ofNat (48 + d)], by revert d; decide⟩
  token := [Char.ofNat (48 + d)]
  ownLine := ownLine
  reads := by revert d; decide
  single := by revert d; decide

/-- **The client decides**: its own line is the first one. -/
theorem own_line_ignored :
    middlewareClientIp digitAddress 1 (.v4 0)
        (received [digitHop 3 true] [(digitHop 1 true).entry]) = .v4 49 ∧
      middlewareClientIp digitAddress 1 (.v4 0)
        (received [digitHop 3 true] [(digitHop 2 true).entry]) = .v4 50 := by
  decide

theorem spoofable_iff_one_proxy :
    (digitHop 3 false).ownLine = false ∧ ∀ lines lines', OneLine lines → OneLine lines' →
      middlewareClientIp digitAddress 1 (.v4 0) (received [digitHop 3 false] lines) =
        middlewareClientIp digitAddress 1 (.v4 0) (received [digitHop 3 false] lines') :=
  ⟨rfl, (spoofable_iff digitAddress (digitHop 1 false) (digitHop 2 false) (by rfl) (by rfl)
    (by decide) (.v4 0) [digitHop 3 false] (by simp)).mpr (by decide)⟩

end SolidServer.Net
