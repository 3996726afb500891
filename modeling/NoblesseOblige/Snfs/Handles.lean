import NoblesseOblige.Transition
import NoblesseOblige.Snfs.Request

namespace NoblesseOblige.Snfs
open CString
set_option autoImplicit true

/-- What a descriptor of the server is open on. -/
inductive Use
  | standard
  | listening
  | connection
  | file (opener : Nat)
  | directory (pointer : UInt64)
  deriving DecidableEq

/-- What a pointer of `opendir` stands for. Files and directories know the number of the request
that opened them. -/
structure Stream where
  opener : Nat
  fd : Int

/-- A call that was made, and the response to it. -/
structure Entry where
  call : Call
  reply : Text

/-- The descriptors and directory pointers of the server, and what it has served, latest first. -/
structure Handles where
  use : Int → Option Use
  stream : UInt64 → Option Stream
  log : List Entry

def Handles.start (listening : Int) : Handles where
  use fd :=
    if fd = listening then some .listening else if 0 ≤ fd ∧ fd ≤ 2 then some .standard else none
  stream _ := none
  log := []

def Handles.openFile (s : Handles) (fd : Int) : Handles :=
  { s with use := Function.update s.use fd (some (.file s.log.length)) }

def Handles.close (s : Handles) (fd : Int) : Handles :=
  { s with use := Function.update s.use fd none }

def Handles.closeDir (s : Handles) (p : UInt64) (d : Stream) : Handles :=
  { s with
    use := Function.update s.use d.fd none
    stream := Function.update s.stream p none }

/-- The calls that return a descriptor, and the one that returns a directory pointer. -/
def Call.opensFile : Call → Bool
  | .open _ _ | .create _ _ => true
  | _ => false

def Call.opensDir : Call → Bool
  | .opendir _ => true
  | _ => false

/-- The descriptor that a call closes, and the one it reads, writes or closes. -/
def Call.released : Call → Option Int
  | .release pointer => some (atoi pointer)
  | _ => none

def Call.touched : Call → Option Int
  | .read pointer _ _ | .write pointer _ _ _ | .release pointer => some (atoi pointer)
  | _ => none

/-- The directory pointer that a call closes. -/
def Call.releasedDir : Call → Option UInt64
  | .releasedir pointer => some (strtoull pointer)
  | _ => none

/-- The request that was answered with a descriptor, if no release of it has come since. -/
def holder : List Entry → Int → Option Nat
  | [], _ => none
  | e :: log, fd =>
    if e.call.opensFile = true ∧ 0 ≤ fd ∧ atoi e.reply = fd then some log.length
    else if e.call.released = some fd then none
    else holder log fd

def dirHolder : List Entry → UInt64 → Option Nat
  | [], _ => none
  | e :: log, p =>
    if e.call.opensDir = true ∧ p ≠ 0 ∧ strtoull e.reply = p then some log.length
    else if e.call.releasedDir = some p then none
    else dirHolder log p

/-- What is held is open, and the server listens. -/
structure Kept (listening : Int) (use : Int → Option Use) (stream : UInt64 → Option Stream)
    (log : List Entry) : Prop where
  listening : use listening = some .listening
  files : ∀ fd k, holder log fd = some k → use fd = some (.file k)
  dirs : ∀ p k, dirHolder log p = some k →
    ∃ fd, stream p = some ⟨k, fd⟩ ∧ use fd = some (.directory p)

section
variable {listening : Int} {use : Int → Option Use} {stream : UInt64 → Option Stream}
variable {log : List Entry} {s : Handles}

/-- Nothing that is held goes with a connection, or with a descriptor that is not in use. -/
theorem Kept.set (kept : Kept listening use stream log)
    (h : use fd = none ∨ use fd = some .connection) (v : Option Use) :
    Kept listening (Function.update use fd v) stream log := by
  have ne {fd' : Int} {u : Use} (hu : use fd' = some u) (hne : u ≠ .connection) : fd' ≠ fd := by
    rintro rfl
    rcases h with h | h
    · cases hu.symm.trans h
    · exact hne (Option.some.inj (hu.symm.trans h))
  constructor
  · rw [Function.update_of_ne (ne kept.listening (by simp))]
    exact kept.listening
  · intro fd' k hk
    have hu := kept.files fd' k hk
    rw [Function.update_of_ne (ne hu (by simp))]
    exact hu
  · intro p k hk
    obtain ⟨fd', hs, hu⟩ := kept.dirs p k hk
    refine ⟨fd', hs, ?_⟩
    rw [Function.update_of_ne (ne hu (by simp))]
    exact hu

theorem Call.not_opens_of_released {call : Call} (h : call.released = some fd) :
    call.opensFile = false ∧ call.opensDir = false ∧ call.releasedDir = none ∧
      call.touched = some fd := by
  cases call <;> first | exact ⟨rfl, rfl, rfl, h⟩ | cases h

theorem Call.not_opens_of_releasedDir {call : Call} (h : call.releasedDir = some p) :
    call.opensFile = false ∧ call.opensDir = false ∧ call.released = none := by
  cases call <;> first | exact ⟨rfl, rfl, rfl⟩ | cases h

theorem Call.not_released_of_opensFile {call : Call} (h : call.opensFile = true) :
    call.opensDir = false ∧ call.released = none ∧ call.releasedDir = none := by
  cases call <;> first | exact ⟨rfl, rfl, rfl⟩ | cases h

theorem holder_cons (h : holder (e :: log) fd = some k) :
    (e.call.opensFile = true ∧ 0 ≤ fd ∧ atoi e.reply = fd) ∧ log.length = k ∨
      e.call.released ≠ some fd ∧ holder log fd = some k := by
  rw [holder] at h
  split at h
  · exact .inl ⟨‹_›, Option.some.inj h⟩
  · split at h
    · cases h
    · exact .inr ⟨‹_›, h⟩

theorem dirHolder_cons (h : dirHolder (e :: log) p = some k) :
    (e.call.opensDir = true ∧ p ≠ 0 ∧ strtoull e.reply = p) ∧ log.length = k ∨
      e.call.releasedDir ≠ some p ∧ dirHolder log p = some k := by
  rw [dirHolder] at h
  split at h
  · exact .inl ⟨‹_›, Option.some.inj h⟩
  · split at h
    · cases h
    · exact .inr ⟨‹_›, h⟩

theorem Kept.cons (kept : Kept listening use stream log)
    (hf : ∀ fd, e.call.opensFile = true → 0 ≤ fd → atoi e.reply = fd →
      use fd = some (.file log.length))
    (hd : ∀ p, e.call.opensDir = true → p ≠ 0 → strtoull e.reply = p →
      ∃ fd, stream p = some ⟨log.length, fd⟩ ∧ use fd = some (.directory p)) :
    Kept listening use stream (e :: log) := by
  refine ⟨kept.listening, fun fd k hk => ?_, fun p k hk => ?_⟩
  · rcases holder_cons hk with ⟨⟨ho, h0, hr⟩, rfl⟩ | ⟨-, hk⟩
    · exact hf fd ho h0 hr
    · exact kept.files fd k hk
  · rcases dirHolder_cons hk with ⟨⟨ho, h0, hr⟩, rfl⟩ | ⟨-, hk⟩
    · exact hd p ho h0 hr
    · exact kept.dirs p k hk

theorem Kept.opened (kept : Kept listening s.use s.stream s.log) (h : call.opensFile = true)
    (hfd : s.use fd = none) (h0 : 0 ≤ fd) (h31 : fd < 2 ^ 31) :
    Kept listening (s.openFile fd).use s.stream (⟨call, dec fd⟩ :: s.log) := by
  refine (kept.set (.inl hfd) _).cons (fun fd' _ _ ha => ?_) fun p hd => ?_
  · obtain rfl : fd = fd' := (atoi_dec (by omega) h31).symm.trans ha
    exact Function.update_self ..
  · exact absurd hd (by simp [(Call.not_released_of_opensFile h).1])

/-- Closing a descriptor keeps what is held, if nothing that is held stands on it. -/
theorem Kept.close (kept : Kept listening use stream log) (hl : use fd ≠ some .listening)
    (hf : ∀ fd' k, holder log' fd' = some k → fd' ≠ fd ∧ holder log fd' = some k)
    (hd : ∀ p k, dirHolder log' p = some k →
      use fd ≠ some (.directory p) ∧ stream' p = stream p ∧ dirHolder log p = some k) :
    Kept listening (Function.update use fd none) stream' log' := by
  constructor
  · have hne : listening ≠ fd := by
      rintro rfl
      exact hl kept.listening
    exact (Function.update_of_ne hne ..).trans kept.listening
  · intro fd' k hk
    obtain ⟨hne, hk⟩ := hf fd' k hk
    exact (Function.update_of_ne hne ..).trans (kept.files fd' k hk)
  · intro p k hk
    obtain ⟨hu, hs, hk⟩ := hd p k hk
    obtain ⟨fd', hs', hu'⟩ := kept.dirs p k hk
    have hne : fd' ≠ fd := by
      rintro rfl
      exact hu hu'
    exact ⟨fd', hs.trans hs', (Function.update_of_ne hne ..).trans hu'⟩

theorem Kept.released (kept : Kept listening s.use s.stream s.log) (h : call.released = some fd)
    (hu : s.use fd = some (.file k)) (reply : Text) :
    Kept listening (s.close fd).use s.stream (⟨call, reply⟩ :: s.log) := by
  obtain ⟨hf, hd, -, -⟩ := Call.not_opens_of_released h
  refine kept.close (by simp [hu]) (fun fd' k' hk => ?_) fun p k' hk => ?_
  · rcases holder_cons hk with ⟨⟨ho, -⟩, -⟩ | ⟨hne, hk⟩
    · exact absurd (hf.symm.trans ho) (by simp)
    · refine ⟨?_, hk⟩
      rintro rfl
      exact hne h
  · rcases dirHolder_cons hk with ⟨⟨ho, -⟩, -⟩ | ⟨-, hk⟩
    · exact absurd (hd.symm.trans ho) (by simp)
    · exact ⟨by simp [hu], rfl, hk⟩

theorem Kept.releasedDir (kept : Kept listening s.use s.stream s.log)
    (h : call.releasedDir = some p) (hu : s.use d.fd = some (.directory p)) (reply : Text) :
    Kept listening (s.closeDir p d).use (s.closeDir p d).stream (⟨call, reply⟩ :: s.log) := by
  obtain ⟨hf, hd, -⟩ := Call.not_opens_of_releasedDir h
  refine kept.close (by simp [hu]) (fun fd k hk => ?_) fun q k hk => ?_
  · rcases holder_cons hk with ⟨⟨ho, -⟩, -⟩ | ⟨-, hk⟩
    · exact absurd (hf.symm.trans ho) (by simp)
    · refine ⟨?_, hk⟩
      rintro rfl
      cases hu.symm.trans (kept.files _ _ hk)
  · rcases dirHolder_cons hk with ⟨⟨ho, -⟩, -⟩ | ⟨hne, hk⟩
    · exact absurd (hd.symm.trans ho) (by simp)
    · have hq : q ≠ p := by
        rintro rfl
        exact hne h
      refine ⟨?_, Function.update_of_ne hq .., hk⟩
      rw [hu]
      rintro ⟨⟩
      exact hq rfl

end

end NoblesseOblige.Snfs
