import SolidServer.Text.Path

/-!
# The grammar of RFC 3987

An executable recognizer for the production `IRI`.  The production `IP-literal` of a host in
brackets is a parameter: what is proved here is about paths, for any host.

Below a base with an authority, a name without query and fragment is an IRI exactly when its
path is one (`isIri_append`).  Paths can be cut at a slash, and extended by unreserved
characters.
-/

namespace SolidServer.Text

/-! ## §1 Characters -/

def isAsciiAlpha (c : Char) : Bool := ('a' ≤ c && c ≤ 'z') || ('A' ≤ c && c ≤ 'Z')

def isHexDigit (c : Char) : Bool :=
  ('0' ≤ c && c ≤ '9') || ('a' ≤ c && c ≤ 'f') || ('A' ≤ c && c ≤ 'F')

/-- `ucschar`. -/
def isUcschar (c : Char) : Bool :=
  let n := c.toNat
  (0xA0 ≤ n && n ≤ 0xD7FF) || (0xF900 ≤ n && n ≤ 0xFDCF) || (0xFDF0 ≤ n && n ≤ 0xFFEF) ||
    -- the supplementary planes 1 to 14, without the last two of each plane
    (0x10000 ≤ n && n ≤ 0xEFFFD && n % 0x10000 ≤ 0xFFFD && !(0xE0000 ≤ n && n ≤ 0xE0FFF))

/-- `iprivate`. -/
def isIprivate (c : Char) : Bool :=
  let n := c.toNat
  (0xE000 ≤ n && n ≤ 0xF8FF) || (0xF0000 ≤ n && n ≤ 0xFFFFD) || (0x100000 ≤ n && n ≤ 0x10FFFD)

/-- `unreserved`, the ASCII part of `iunreserved`. -/
def isUnreserved (c : Char) : Bool :=
  isAsciiAlpha c || ('0' ≤ c && c ≤ '9') || c = '-' || c = '.' || c = '_' || c = '~'

def isIunreserved (c : Char) : Bool := isUnreserved c || isUcschar c

/-- `sub-delims`. -/
def isSubDelim (c : Char) : Bool :=
  c = '!' || c = '$' || c = '&' || c = '\'' || c = '(' || c = ')' || c = '*' || c = '+' ||
    c = ',' || c = ';' || c = '='

/-- `ipchar`, but for percent-encoded octets. -/
def isIpchar (c : Char) : Bool := isIunreserved c || isSubDelim c || c = ':' || c = '@'

/-- The characters of a path: of its segments, and the slash. -/
def isPathChar (c : Char) : Bool := isIpchar c || c = '/'

/-! ## §2 The recognizer -/

/-- Characters of a class and percent-encoded octets. -/
def pctAll (cls : Char → Bool) : Text → Bool
  | [] => true
  | c :: rest =>
    if c = '%' then
      match rest with
      | a :: b :: rest => isHexDigit a && isHexDigit b && pctAll cls rest
      | _ => false
    else cls c && pctAll cls rest

/-- `scheme`. -/
def isScheme : Text → Bool
  | [] => false
  | c :: rest =>
    isAsciiAlpha c && rest.all fun d =>
      isAsciiAlpha d || ('0' ≤ d && d ≤ '9') || d = '+' || d = '-' || d = '.'

/-- A text up to the first `c`, and what follows it. -/
def cut (c : Char) (t : Text) : Text × Option Text :=
  (t.takeWhile (· != c), ((t.dropWhile (· != c)).head?).map fun _ => (t.dropWhile (· != c)).drop 1)

/-- `[ ":" port ]`. -/
def isPortPart : Text → Bool
  | [] => true
  | c :: rest => c = ':' && rest.all fun d => '0' ≤ d && d ≤ '9'

/-- `ihost [ ":" port ]`; an `IPv4address` is an `ireg-name` too. -/
def isHostPart (ipLiteral : Text → Bool) (t : Text) : Bool :=
  match t with
  | '[' :: rest =>
    match cut ']' rest with
    | (literal, some port) => ipLiteral literal && isPortPart port
    | (_, none) => false
  | _ =>
    let name := t.takeWhile (· != ':')
    pctAll (fun c => isIunreserved c || isSubDelim c) name && isPortPart (t.drop name.length)

/-- `iauthority`. -/
def isAuthority (ipLiteral : Text → Bool) (t : Text) : Bool :=
  match cut '@' t with
  | (user, some host) =>
    pctAll (fun c => isIunreserved c || isSubDelim c || c = ':') user && isHostPart ipLiteral host
  | (host, none) => isHostPart ipLiteral host

/-- `ihier-part`. -/
def isHierPart (ipLiteral : Text → Bool) : Text → Bool
  | '/' :: '/' :: rest =>
    let authority := rest.takeWhile (· != '/')
    isAuthority ipLiteral authority && pctAll isPathChar (rest.drop authority.length)
  | path => pctAll isPathChar path

/-- **The production `IRI`.** -/
def isIri (ipLiteral : Text → Bool) (t : Text) : Bool :=
  match cut ':' t with
  | (_, none) => false
  | (scheme, some rest) =>
    let (body, fragment) := cut '#' rest
    let (hier, query) := cut '?' body
    isScheme scheme && isHierPart ipLiteral hier &&
      (query.all (pctAll fun c => isPathChar c || isIprivate c || c = '?')) &&
      (fragment.all (pctAll fun c => isPathChar c || c = '?'))

/-! ## §3 Texts with percent-encoded octets -/

section
variable {cls : Char → Bool} {a b t : Text} {c : Char}

theorem pctAll_octet (x y : Char) :
    pctAll cls ('%' :: x :: y :: t) = (isHexDigit x && isHexDigit y && pctAll cls t) := by
  rw [pctAll.eq_def]
  simp

theorem pctAll_cons (hc : c ≠ '%') : pctAll cls (c :: t) = (cls c && pctAll cls t) := by
  rw [pctAll.eq_def]
  simp [hc]

/-- Accepted texts are read one after the other. -/
theorem pctAll_append (ha : pctAll cls a = true) : pctAll cls (a ++ b) = pctAll cls b := by
  fun_induction pctAll cls a with
  | case1 => rfl
  | case2 x y rest ih =>
    simp only [Bool.and_eq_true] at ha
    rw [List.cons_append, List.cons_append, List.cons_append, pctAll_octet, ha.1.1, ha.1.2, ih ha.2]
    rfl
  | case3 => cases ha
  | case4 d rest hd ih =>
    simp only [Bool.and_eq_true] at ha
    rw [List.cons_append, pctAll_cons hd, ha.1, ih ha.2, Bool.true_and]

/-- **A cut**: a character that no encoded octet contains splits the text in two. -/
theorem pctAll_cut (hc : c ≠ '%') (hhex : isHexDigit c = false)
    (h : pctAll cls (a ++ c :: b) = true) :
    pctAll cls a = true ∧ cls c = true ∧ pctAll cls b = true := by
  generalize ht : a ++ c :: b = t at h
  -- along the text; an encoded octet that runs into the cut has a digit that is none
  fun_induction pctAll cls t generalizing a with
  | case1 => simp at ht
  | case2 x y rest ih =>
    simp only [Bool.and_eq_true] at h
    rcases a with _ | ⟨d₁, _ | ⟨d₂, _ | ⟨d₃, a⟩⟩⟩ <;>
      simp only [List.nil_append, List.cons_append, List.cons.injEq] at ht
    · exact absurd ht.1 hc
    · rw [← ht.2.1, hhex] at h
      exact absurd h.1.1 Bool.false_ne_true
    · rw [← ht.2.2.1, hhex] at h
      exact absurd h.1.2 Bool.false_ne_true
    · obtain ⟨rfl, rfl, rfl, ht⟩ := ht
      obtain ⟨ha, hrest⟩ := ih ht h.2
      refine ⟨?_, hrest⟩
      rw [pctAll_octet, h.1.1, h.1.2, ha]
      rfl
  | case3 => cases h
  | case4 d rest hd ih =>
    simp only [Bool.and_eq_true] at h
    cases a with
    | nil =>
      obtain ⟨rfl, rfl⟩ := List.cons.inj ht
      exact ⟨rfl, h⟩
    | cons e a =>
      obtain ⟨rfl, htail⟩ := List.cons.inj ht
      obtain ⟨ha, hrest⟩ := ih htail h.2
      refine ⟨?_, hrest⟩
      rw [pctAll_cons hd, h.1, ha]
      rfl

theorem pctAll_of_forall (h : ∀ c ∈ t, c ≠ '%' ∧ cls c = true) : pctAll cls t = true := by
  induction t with
  | nil => rfl
  | cons c t ih =>
    obtain ⟨⟨hc, hcls⟩, hrest⟩ := List.forall_mem_cons.mp h
    rw [pctAll_cons hc, hcls, ih hrest]
    rfl

/-- A character outside the class does not occur. -/
theorem not_mem_of_pctAll (hc : c ≠ '%') (hhex : isHexDigit c = false) (hcls : cls c = false)
    (h : pctAll cls t = true) : c ∉ t := by
  intro hmem
  obtain ⟨a, b, rfl⟩ := List.append_of_mem hmem
  rw [(pctAll_cut hc hhex h).2.1] at hcls
  cases hcls

end

/-! ## §4 Names below a base -/

theorem cut_of_not_mem {c : Char} {t : Text} (h : c ∉ t) : cut c t = (t, none) := by
  have hall : ∀ x ∈ t, (x != c) = true := by
    intro x hx
    rw [bne_iff_ne]
    rintro rfl
    exact h hx
  simp [cut, List.takeWhile_eq_self_iff.mpr hall, List.dropWhile_eq_nil_iff.mpr hall]

theorem takeWhile_append_cons {c : Char} {a : Text} (h : c ∉ a) (b : Text) :
    (a ++ c :: b).takeWhile (· != c) = a := by
  have hall : ∀ x ∈ a, (x != c) = true := by
    intro x hx
    rw [bne_iff_ne]
    rintro rfl
    exact h hx
  rw [List.takeWhile_append_of_pos hall]
  simp

theorem cut_append {c : Char} {a : Text} (h : c ∉ a) (b : Text) :
    cut c (a ++ c :: b) = (a, some b) := by
  have hall : ∀ x ∈ a, (x != c) = true := by
    intro x hx
    rw [bne_iff_ne]
    rintro rfl
    exact h hx
  have hdrop : (a ++ c :: b).dropWhile (· != c) = c :: b := by
    rw [List.dropWhile_append_of_pos hall]
    simp
  rw [cut, takeWhile_append_cons h, hdrop]
  rfl

/-- A base with an authority and a path, and neither query nor fragment. -/
structure IsBase (ipLiteral : Text → Bool) (base : Text) : Prop where
  parts : ∃ scheme authority path, base = scheme ++ "://".toList ++ authority ++ path ∧
    isScheme scheme = true ∧ isAuthority ipLiteral authority = true ∧
    (∀ c ∈ authority, c ≠ '/' ∧ c ≠ '?' ∧ c ≠ '#') ∧
    (path = [] ∨ ∃ rest, path = '/' :: rest) ∧ pctAll isPathChar path = true

theorem colon_not_mem_scheme {scheme : Text} (h : isScheme scheme = true) : ':' ∉ scheme := by
  cases scheme with
  | nil => simp
  | cons c rest =>
    simp only [isScheme, Bool.and_eq_true, List.all_eq_true] at h
    rintro (_ | ⟨_, hmem⟩)
    · exact absurd h.1 (by decide)
    · exact absurd (h.2 ':' hmem) (by decide)

/-- **Below a base the path decides.** -/
theorem isIri_append {ipLiteral : Text → Bool} {base rel : Text} (hbase : IsBase ipLiteral base)
    (hquery : '?' ∉ rel) (hfragment : '#' ∉ rel) :
    isIri ipLiteral (base ++ '/' :: rel) = pctAll isPathChar rel := by
  obtain ⟨scheme, authority, path, rfl, hscheme, hauth, hplain, hpath, hpct⟩ := hbase.parts
  have hslashes : ∃ more, path ++ '/' :: rel = '/' :: more := by
    rcases hpath with rfl | ⟨rest, rfl⟩
    · exact ⟨rel, rfl⟩
    · exact ⟨rest ++ '/' :: rel, rfl⟩
  obtain ⟨more, hmore⟩ := hslashes
  have hshape : scheme ++ "://".toList ++ authority ++ path ++ '/' :: rel =
      scheme ++ ':' :: ('/' :: '/' :: (authority ++ '/' :: more)) := by
    rw [← hmore]
    simp
  -- neither a query nor a fragment starts in what follows the scheme
  have hfree : ∀ c, c = '?' ∨ c = '#' → c ∉ '/' :: '/' :: (authority ++ '/' :: more) := by
    intro c hc hmem
    rw [← hmore] at hmem
    have hpathfree : c ∉ path := by
      rcases hc with rfl | rfl
      · exact not_mem_of_pctAll (by decide) (by decide) (by decide) hpct
      · exact not_mem_of_pctAll (by decide) (by decide) (by decide) hpct
    have hauthfree : c ∉ authority := by
      intro hin
      rcases hc with rfl | rfl
      · exact (hplain _ hin).2.1 rfl
      · exact (hplain _ hin).2.2 rfl
    have hrel : c ∉ rel := by
      rcases hc with rfl | rfl
      · exact hquery
      · exact hfragment
    have hslash : c ≠ '/' := by rcases hc with rfl | rfl <;> decide
    simp [hpathfree, hauthfree, hrel, hslash] at hmem
  have hauthslash : '/' ∉ authority := fun hin => (hplain _ hin).1 rfl
  have hhier : isHierPart ipLiteral ('/' :: '/' :: (authority ++ '/' :: more)) =
      pctAll isPathChar rel := by
    simp only [isHierPart, takeWhile_append_cons hauthslash, hauth,
      List.drop_left]
    rw [← hmore, pctAll_append hpct, pctAll_cons (by decide)]
    rfl
  rw [hshape, isIri, cut_append (colon_not_mem_scheme hscheme)]
  simp only [cut_of_not_mem (hfree '#' (.inr rfl)), cut_of_not_mem (hfree '?' (.inl rfl)), hscheme,
    hhier, Bool.true_and, Option.all_none, Bool.and_true]

end SolidServer.Text
