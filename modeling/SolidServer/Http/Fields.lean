import SolidServer.Http

/-!
# Field lines as received

The authentication layers look fields up by name, among them names the handlers never
read.  A `FieldMap` holds the lines as received, under lower-case names; the header map
of the handlers is the part of it they read.
-/

namespace SolidServer

/-- The field lines of a request, in order, under lower-case names. -/
abbrev FieldMap := List (Text × HeaderValue)

namespace FieldMap

/-- `headers.get_all(name)`. -/
def getAll (f : FieldMap) (name : Text) : List HeaderValue :=
  (f.filter fun l => l.1 = name).map Prod.snd

/-- `headers.get(name)`: the first line. -/
def get (f : FieldMap) (name : Text) : Option HeaderValue := (f.getAll name).head?

/-- `headers.contains_key(name)`. -/
def containsKey (f : FieldMap) (name : Text) : Bool := f.any fun l => l.1 = name

theorem containsKey_iff {f : FieldMap} {name : Text} :
    f.containsKey name = true ↔ f.getAll name ≠ [] := by
  simp [containsKey, getAll]

theorem getAll_eq_nil {f : FieldMap} {name : Text} (h : f.containsKey name = false) :
    f.getAll name = [] := by
  by_contra hne
  rw [containsKey_iff.mpr hne] at h
  cases h

end FieldMap

/-- The field name of a header the handlers know. -/
def HeaderName.text : HeaderName → Text
  | .accept => "accept".toList
  | .acceptPatch => "accept-patch".toList
  | .acceptPost => "accept-post".toList
  | .acceptRanges => "accept-ranges".toList
  | .allow => "allow".toList
  | .contentLength => "content-length".toList
  | .contentRange => "content-range".toList
  | .contentType => "content-type".toList
  | .etag => "etag".toList
  | .ifMatch => "if-match".toList
  | .ifModifiedSince => "if-modified-since".toList
  | .ifNoneMatch => "if-none-match".toList
  | .lastModified => "last-modified".toList
  | .link => "link".toList
  | .location => "location".toList
  | .origin => "origin".toList
  | .range => "range".toList
  | .slug => "slug".toList
  | .vary => "vary".toList
  | .wacAllow => "wac-allow".toList
  | .wwwAuthenticate => "www-authenticate".toList

def HeaderName.all : List HeaderName :=
  [.accept, .acceptPatch, .acceptPost, .acceptRanges, .allow, .contentLength, .contentRange,
    .contentType, .etag, .ifMatch, .ifModifiedSince, .ifNoneMatch, .lastModified, .link, .location,
    .origin, .range, .slug, .vary, .wacAllow, .wwwAuthenticate]

/-- The lines the handlers read. -/
def FieldMap.headers (f : FieldMap) : HeaderMap :=
  f.filterMap fun l => (HeaderName.all.find? fun n => n.text = l.1).map fun n => (n, l.2)

section
variable {α β : Type} {f g : α → Option β}

/-- An element of a mapped list comes from an element of the list. -/
theorem mem_of_mapM {as : List α} {bs : List β} (h : as.mapM f = some bs) {b : β} (hb : b ∈ bs) :
    ∃ a ∈ as, f a = some b := by
  induction as generalizing bs with
  | nil =>
    obtain rfl := Option.some.inj h
    cases hb
  | cons a as ih =>
    rw [List.mapM_cons] at h
    obtain ⟨b', hb', h₁⟩ := Option.bind_eq_some_iff.mp h
    obtain ⟨bs', hbs', h₂⟩ := Option.bind_eq_some_iff.mp h₁
    obtain rfl := Option.some.inj h₂
    rcases List.mem_cons.mp hb with rfl | hb
    · exact ⟨a, by simp, hb'⟩
    · obtain ⟨a', ha', hfa⟩ := ih hbs' hb
      exact ⟨a', List.mem_cons_of_mem _ ha', hfa⟩

/-- Two maps that give one list agree on every element. -/
theorem eq_of_mapM {as : List α} {bs : List β} (hf : as.mapM f = some bs)
    (hg : as.mapM g = some bs) : ∀ a ∈ as, f a = g a := by
  induction as generalizing bs with
  | nil => simp
  | cons a as ih =>
    rw [List.mapM_cons] at hf hg
    obtain ⟨b, hb, hf₁⟩ := Option.bind_eq_some_iff.mp hf
    obtain ⟨b', hb', hg₁⟩ := Option.bind_eq_some_iff.mp hg
    obtain ⟨bs₁, hbs₁, hf₂⟩ := Option.bind_eq_some_iff.mp hf₁
    obtain ⟨bs₂, hbs₂, hg₂⟩ := Option.bind_eq_some_iff.mp hg₁
    obtain rfl := Option.some.inj hf₂
    obtain ⟨rfl, rfl⟩ := List.cons.inj (Option.some.inj hg₂)
    intro x hx
    rcases List.mem_cons.mp hx with rfl | hx
    · rw [hb, hb']
    · exact ih hbs₁ hbs₂ x hx

end

/-- What reads as text is visible ASCII, space or tab. -/
theorem HeaderValue.toStr?_visible {v : HeaderValue} {s : Text} (h : v.toStr? = some s) :
    ∀ c ∈ s, (32 ≤ c.toNat ∧ c.toNat < 127) ∨ c.toNat = 9 := by
  unfold HeaderValue.toStr? at h
  split_ifs at h with hall
  cases h
  intro c hc
  obtain ⟨b, hb, rfl⟩ := List.mem_map.mp hc
  have hv := List.all_eq_true.mp hall b hb
  have hlt : b.toNat < 0xd800 := Nat.lt_trans (UInt8.toNat_lt b) (by decide)
  have hval : (Char.ofNat b.toNat).toNat = b.toNat := by
    rw [Char.ofNat, dif_pos (Or.inl hlt)]
    rfl
  rw [hval]
  simpa [isVisibleAscii] using hv

end SolidServer
