import NoblesseOblige.CString

namespace NoblesseOblige.CString
set_option autoImplicit true

/-- A `char` array of this size with a text in it, whose terminator is in the array as well. -/
structure Buffer where
  size : Nat
  text : Text
  fits : text.length < size
  deriving DecidableEq

/-- `sprintf` of this text into an array of this size. There is no result where it writes behind
the array. -/
def sprintf (size : Nat) (s : Text) : Option Buffer :=
  if h : s.length < size then some ⟨size, s, h⟩ else none

/-- An array of zeros. -/
def calloc (size : Nat) : Option Buffer := sprintf size []

def Buffer.strcpy (b : Buffer) (s : Text) : Option Buffer := sprintf b.size s

def Buffer.strcat (b : Buffer) (s : Text) : Option Buffer := sprintf b.size (b.text ++ s)

/-- The computation leaves this text in an array of this size, and fails only where the text has
no room in it. -/
def Builds (x : Option Buffer) (size : Nat) (s : Text) : Prop :=
  ∀ b, x = some b ↔ b.size = size ∧ b.text = s

theorem sprintf_builds (size : Nat) (s : Text) : Builds (sprintf size s) size s := by
  intro b
  constructor
  · intro h
    rw [sprintf] at h
    split at h
    · cases h
      exact ⟨rfl, rfl⟩
    · cases h
  · rintro ⟨rfl, rfl⟩
    rw [sprintf, dif_pos b.fits]

theorem calloc_builds (size : Nat) : Builds (calloc size) size [] := sprintf_builds size []

theorem Buffer.strcpy_builds (b : Buffer) (s : Text) : Builds (b.strcpy s) b.size s :=
  sprintf_builds b.size s

theorem Buffer.strcat_builds (b : Buffer) (s : Text) :
    Builds (b.strcat s) b.size (b.text ++ s) :=
  sprintf_builds b.size (b.text ++ s)

section
variable {x : Option Buffer} {k : Buffer → Option Buffer} {size size' : Nat} {s s' : Text}

/-- A computation after another, of which neither needs more room than the text at the end. -/
theorem Builds.bind (hx : Builds x size s)
    (hk : ∀ b, b.size = size → b.text = s → Builds (k b) size' s')
    (room : s'.length < size' → s.length < size) : Builds (x.bind k) size' s' := by
  intro b'
  rw [Option.bind_eq_some_iff]
  constructor
  · rintro ⟨b, hb, hb'⟩
    obtain ⟨hsize, htext⟩ := (hx b).mp hb
    exact (hk b hsize htext b').mp hb'
  · rintro ⟨hsize, htext⟩
    have hs : s.length < size := room (by rw [← hsize, ← htext]; exact b'.fits)
    refine ⟨⟨size, s, hs⟩, (hx _).mpr ⟨rfl, rfl⟩, ?_⟩
    exact (hk ⟨size, s, hs⟩ rfl rfl b').mpr ⟨hsize, htext⟩

theorem Builds.strcat (hx : Builds x size s) (t : Text) :
    Builds (x.bind fun b => b.strcat t) size (s ++ t) := by
  refine hx.bind (fun b hsize htext => ?_) ?_
  · rw [← hsize, ← htext]
    exact b.strcat_builds t
  · rw [List.length_append]
    exact Nat.lt_of_le_of_lt (Nat.le_add_right s.length t.length)

/-- A field that is printed to an array of its own first, where it has room. -/
theorem Builds.strcat_field (hx : Builds x size s) (hf : f.length < fieldSize) :
    Builds (x.bind fun b => (sprintf fieldSize f).bind fun field => b.strcat field.text) size
      (s ++ f) := by
  refine hx.bind (fun b hsize htext => ?_) ?_
  · refine (sprintf_builds fieldSize f).bind (fun field _ hfield => ?_) fun _ => hf
    rw [← hsize, ← htext, ← hfield]
    exact b.strcat_builds field.text
  · rw [List.length_append]
    exact Nat.lt_of_le_of_lt (Nat.le_add_right s.length f.length)

/-- A text is built exactly if it has room. -/
theorem Builds.exists_iff (hx : Builds x size s) : (∃ b, x = some b) ↔ s.length < size := by
  constructor
  · rintro ⟨b, hb⟩
    obtain ⟨hsize, htext⟩ := (hx b).mp hb
    rw [← hsize, ← htext]
    exact b.fits
  · intro h
    exact ⟨⟨size, s, h⟩, (hx _).mpr ⟨rfl, rfl⟩⟩

theorem Builds.result (hx : Builds x size s) (h : s.length < size) :
    ∃ b, x = some b ∧ b.size = size ∧ b.text = s := by
  obtain ⟨b, hb⟩ := hx.exists_iff.mpr h
  exact ⟨b, hb, (hx b).mp hb⟩

end

end NoblesseOblige.CString
