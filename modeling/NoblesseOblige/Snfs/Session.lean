import NoblesseOblige.Files
import NoblesseOblige.Snfs.Widths

namespace NoblesseOblige.Snfs
open CString
set_option autoImplicit true

structure OpenFile where
  file : Nat
  readable : Bool
  writable : Bool
  deriving DecidableEq

/-- The server's disk. Several names and several descriptors may be of one file. -/
structure Disk where
  rootPath : Text
  names : Text → Option Nat
  descriptors : Int → Option OpenFile
  content : Nat → List Char
  heap : List Char

/-- As many bytes as one `pread` or `pwrite` transfers at most. -/
def maxCount : Nat := 0x7ffff000

namespace Disk
variable (D : Disk)

def readable (fd : Int) : Option Nat :=
  (D.descriptors fd).bind fun o => if o.readable then some o.file else none

def writable (fd : Int) : Option Nat :=
  (D.descriptors fd).bind fun o => if o.writable then some o.file else none

def pread (fd : Int) (size : Nat) (offset : Int) : Option (List Char) :=
  if 0 ≤ offset then
    (D.readable fd).map fun f => fileBytes (D.content f) (min size maxCount) offset
  else none

def pwrite (w : Pwrite) : Option (Edit Nat Char) :=
  if 0 ≤ w.offset then
    (D.writable w.fd).map fun f => .write f w.offset.toNat (w.data.take maxCount)
  else none

def truncate (path : Text) (newsize : Int) : Option (Edit Nat Char) :=
  if 0 ≤ newsize then (D.names path).map fun f => .truncate f newsize.toNat else none

/-- The calls of a session on open files; no other call succeeds. -/
def os : Os where
  __ := Os.failing
  rootPath := D.rootPath
  heap := D.heap
  pread := D.pread
  pwrite w := if (D.pwrite w).isSome then min w.size maxCount else -1
  truncate path newsize := if (D.truncate path newsize).isSome then 0 else -1
  close fd := if (D.descriptors fd).isSome then 0 else -1
  pwrite_range w := by
    unfold maxCount
    split <;> omega
  truncate_range path newsize := by
    split
    · exact .inl rfl
    · exact .inr rfl

theorem os_pwrite {w : Pwrite} (h : w.size ≤ maxCount) :
    D.os.pwrite w = if (D.pwrite w).isSome then (w.size : Int) else -1 := by
  change (if (D.pwrite w).isSome then min (w.size : Int) maxCount else -1) = _
  rw [min_eq_left (by exact_mod_cast h)]

def edited (e : Option (Edit Nat Char)) : Disk :=
  match e with
  | some e => { D with content := e.apply nul D.content }
  | none => D

def close (fd : Int) : Disk := { D with descriptors := Function.update D.descriptors fd none }

def after : Call → Disk
  | .write pointer size offset buffer =>
    D.edited ((remoteWrite pointer size offset buffer).bind D.pwrite)
  | .truncate path newsize => D.edited (D.truncate (D.os.fullPath path) newsize)
  | .release pointer => D.close (atoi pointer)
  | _ => D

end Disk

def Connection.makes (conn : Connection) (request : Text) : Option Call :=
  match conn with
  | .socketError | .connectError => none
  | .connected requested _ =>
    match handled (request.take requested) with
    | .called call => some call
    | _ => none

namespace Disk

/-- A callback over a connection: what it leaves on the disk and what it returns. -/
def exchange (D : Disk) (conn : Connection) (cb : Callback) : Option (Disk × Return) :=
  (cb.result D.os conn).map fun ret =>
    (match conn.makes cb.request with
      | some call => D.after call
      | none => D, ret)

def session (D : Disk) : List (Connection × Callback) → Option (Disk × List Return)
  | [] => some (D, [])
  | (conn, cb) :: events => do
    let (D₁, ret) ← D.exchange conn cb
    let (D₂, rets) ← D₁.session events
    return (D₂, ret :: rets)

/-- What a read returns: the bytes up to the first terminator, 4096 at most. If there are as many
as were asked for, what lies behind them follows. -/
def readText (D : Disk) (fd : Int) (size : Nat) (offset : Int) : Text :=
  let data := (D.pread fd size offset).getD []
  (cstr (if data.length < size then data else data ++ D.heap)).take 4096

/-- What a callback would do on the disk itself. A write puts a space in front of its data and
keeps the length. -/
def direct (D : Disk) : Callback → Disk × Return
  | .read fh size offset =>
    let text := D.readText fh.toNat size offset
    (D, { Return.of text.length with buf := text })
  | .write fh buf size offset =>
    let w : Pwrite := ⟨fh.toNat, ' ' :: buf, size, offset⟩
    (D.edited (D.pwrite w), .of (if (D.pwrite w).isSome then size else -1))
  | .truncate path newsize =>
    let e := D.truncate (D.rootPath ++ path) newsize
    (D.edited e, .of (if e.isSome then 0 else -1))
  | .release fh => (D.close fh.toNat, .of 0)
  | _ => (D, .of 0)

def directOver (D : Disk) (conn : Connection) (cb : Callback) : Disk × Return :=
  match conn with
  | .connected _ _ => D.direct cb
  | _ => (D, .of 0)

def directly (D : Disk) : List (Connection × Callback) → Disk × List Return
  | [] => (D, [])
  | (conn, cb) :: events =>
    let (D₁, ret) := D.directOver conn cb
    let (D₂, rets) := D₁.directly events
    (D₂, ret :: rets)

end Disk

/-- The callbacks of a session on open files, as FUSE makes them: the arguments fit the fields of
a request, and the request a message. -/
def Callback.OnFile : Callback → Prop
  | .read fh size offset =>
    fh.toNat < 2 ^ 31 ∧ 1 ≤ size ∧ size ≤ 131072 ∧ 0 ≤ offset ∧ offset < 2 ^ 31
  | .write fh buf size offset =>
    fh.toNat < 2 ^ 31 ∧ nul ∉ buf ∧ size = buf.length ∧ 0 ≤ offset ∧ offset < 2 ^ 31 ∧
      (Callback.write fh buf size offset).request.length < 4096
  | .truncate path newsize =>
    Plain path ∧ nul ∉ path ∧ 0 ≤ newsize ∧ newsize < 2 ^ 31 ∧
      (Callback.truncate path newsize).request.length < 4096
  | .release fh => fh.toNat < 2 ^ 31
  | _ => False

def Connection.Clean (conn : Connection) : Prop :=
  conn = .socketError ∨ conn = .connectError ∨ conn = .whole

section
variable {D : Disk} {cb : Callback} {conn : Connection}

theorem Callback.OnFile.wellFormed (h : cb.OnFile) : cb.WellFormed := by
  cases cb with
  | read | release => trivial
  | write => exact h.2.1
  | truncate => exact ⟨h.1, h.2.1⟩
  | _ => exact h.elim

theorem Callback.OnFile.handled (h : cb.OnFile) :
    handled cb.request = .called cb.call ∧ cb.request.length < 4096 := by
  cases cb with
  | read fh size offset =>
    have hread := handled_read fh size offset
    exact ⟨hread, (served_of_handled hread).1⟩
  | release fh =>
    have hl : (Callback.release fh).request.length < 4096 := by
      have hfh := decNat_length fh
      have hr : (Callback.release fh).request = "release, ".toList ++ decNat fh.toNat := rfl
      have hname : ("release, ".toList).length = 9 := by decide
      rw [hr, List.length_append]
      omega
    exact ⟨handled_request _ trivial hl, hl⟩
  | write fh buf size offset =>
    have hl := h.2.2.2.2.2
    exact ⟨handled_request _ h.wellFormed hl, hl⟩
  | truncate path newsize =>
    have hl := h.2.2.2.2
    exact ⟨handled_request _ h.wellFormed hl, hl⟩
  | _ => exact h.elim

theorem exchange_whole (h : cb.OnFile) : D.exchange .whole cb =
    (cb.finish (cb.call.received D.os 4096)).map fun ret => (D.after cb.call, ret) := by
  obtain ⟨hh, hl⟩ := h.handled
  have hm : Connection.whole.makes cb.request = some cb.call := by
    have ht : cb.request.take 4096 = cb.request := List.take_of_length_le (Nat.le_of_lt hl)
    simp only [Connection.whole, Connection.makes, ht, hh]
  rw [Disk.exchange, Callback.result_whole D.os hh, hm]

theorem exchange_failed (h : cb.OnFile) (hc : conn = .socketError ∨ conn = .connectError) :
    D.exchange conn cb = some (D, .of 0) := by
  have hf : cb.finish [] = some (.of 0) := by
    cases cb with
    | read | write | truncate | release => rfl
    | _ => exact h.elim
  rcases hc with rfl | rfl
  · rw [Disk.exchange, Callback.result, sendRequestToServer, Option.bind_some, hf]
    rfl
  · rw [Disk.exchange, Callback.result, sendRequestToServer, Option.bind_some, hf]
    rfl

theorem cstr_append_terminator (s rest : List Char) : cstr (s ++ nul :: rest) = cstr s := by
  induction s with
  | nil => rfl
  | cons c s ih =>
    by_cases hc : c = nul
    · subst hc
      rfl
    · rw [cstr, cstr, List.cons_append, List.takeWhile_cons_of_pos (by simpa using hc),
        List.takeWhile_cons_of_pos (by simpa using hc)]
      exact congrArg (c :: ·) ih

theorem pread_length (fd : Int) (size : Nat) (offset : Int) :
    ((D.pread fd size offset).getD []).length ≤ size := by
  rw [Disk.pread]
  split
  · cases D.readable fd with
    | none => exact Nat.zero_le _
    | some f =>
      rw [Option.map_some, Option.getD_some, fileBytes]
      exact (List.length_take_le _ _).trans (Nat.min_le_left _ _)
  · exact Nat.zero_le _

theorem received_readText (hp : atoi pointer = fd) :
    (Call.read pointer size offset).received D.os 4096 = D.readText fd size offset := by
  have hlen := pread_length (D := D) fd size offset
  rw [Call.received, Call.response, Disk.readText, hp]
  change recvText 4096 [(((D.pread fd size offset).getD [] ++ List.replicate
    (size - ((D.pread fd size offset).getD []).length) nul ++ D.heap).take 4096).take 4096] = _
  generalize (D.pread fd size offset).getD [] = data at hlen ⊢
  rw [recvText, List.take_take, List.take_take, cstr, takeWhile_take, ← cstr]
  congr 1
  split
  · rename_i hlt
    obtain ⟨k, hk⟩ : ∃ k, size - data.length = k + 1 := ⟨size - data.length - 1, by omega⟩
    rw [hk, List.replicate_succ, List.append_assoc, List.cons_append]
    exact cstr_append_terminator _ _
  · rename_i hge
    have hz : size - data.length = 0 := by omega
    rw [hz, List.replicate_zero, List.append_nil]

theorem exchange_read (h : (Callback.read fh size offset).OnFile) :
    D.exchange .whole (.read fh size offset) = some (D.direct (.read fh size offset)) := by
  obtain ⟨hfh, hpos, hsize, h0, h31⟩ := id h
  have hcall : (Callback.read fh size offset).call = .read (decNat fh.toNat) size offset := by
    rw [Callback.call_read, toInt_of_nonneg (Int.natCast_nonneg _) (by omega),
      toInt_of_nonneg h0 h31, sizeT_natCast (by omega)]
  rw [exchange_whole h, hcall, Callback.finish, received_readText (atoi_decNat hfh)]
  rfl

theorem atoi_received {call : Call} {v : Int}
    (hr : call.response D.os = some (D.os.memory (dec v))) (h : -1 ≤ v) (h' : v < 2 ^ 31) :
    atoi (call.received D.os 4096) = v := by
  have hl := dec_length (v := v) (by omega) h'
  rw [received_dec D.os 4096 hr (by omega) h', List.take_of_length_le (by omega),
    atoi_dec (by omega) h']

theorem exchange_write (h : (Callback.write fh buf size offset).OnFile) :
    D.exchange .whole (.write fh buf size offset) =
      some (D.direct (.write fh buf size offset)) := by
  obtain ⟨hfh, hn, hsize, h0, h31, hl⟩ := id h
  have hlen := Callback.length_le_request fh buf size offset
  have hcall : (Callback.write fh buf size offset).call = .write (decNat fh.toNat) size offset
      (Callback.write fh buf size offset).request := by
    rw [Callback.call_write, toInt_of_nonneg (Int.natCast_nonneg _) (by omega),
      toInt_of_nonneg h0 h31, sizeT_natCast (by omega)]
  have hremote : remoteWrite (decNat fh.toNat) size offset
      (Callback.write fh buf size offset).request = some ⟨fh.toNat, ' ' :: buf, size, offset⟩ := by
    rw [remoteWrite_request, atoi_decNat hfh]
  have hv := D.os.pwrite_range ⟨fh.toNat, ' ' :: buf, size, offset⟩
  have hwritten : D.os.pwrite ⟨fh.toNat, ' ' :: buf, size, offset⟩ =
      if (D.pwrite ⟨fh.toNat, ' ' :: buf, size, offset⟩).isSome then (size : Int) else -1 := by
    apply D.os_pwrite
    unfold maxCount
    dsimp only
    omega
  have hresponse : (Call.write (decNat fh.toNat) size offset
      (Callback.write fh buf size offset).request).response D.os =
        some (D.os.memory (dec (D.os.pwrite ⟨fh.toNat, ' ' :: buf, size, offset⟩))) := by
    rw [Call.response, hremote, Option.map_some]
  have hafter : D.after (.write (decNat fh.toNat) size offset
      (Callback.write fh buf size offset).request) =
        D.edited (D.pwrite ⟨fh.toNat, ' ' :: buf, size, offset⟩) := by
    rw [Disk.after, hremote, Option.bind_some]
  rw [exchange_whole h, hcall, hafter, Callback.finish, atoi_received hresponse hv.1 hv.2,
    hwritten]
  rfl

theorem exchange_truncate (h : (Callback.truncate path newsize).OnFile) :
    D.exchange .whole (.truncate path newsize) = some (D.direct (.truncate path newsize)) := by
  obtain ⟨hp, hn, h0, h31, hl⟩ := id h
  have hcall : (Callback.truncate path newsize).call = .truncate path newsize := by
    rw [Callback.call_truncate, toInt_of_nonneg h0 h31]
  have hv := D.os.truncate_range (D.os.fullPath path) newsize
  have hresponse : (Call.truncate path newsize).response D.os =
      some (D.os.memory (dec (D.os.truncate (D.os.fullPath path) newsize))) := rfl
  rw [exchange_whole h, hcall, Callback.finish, atoi_received hresponse (by omega) (by omega)]
  rfl

theorem exchange_release (h : (Callback.release fh).OnFile) :
    D.exchange .whole (.release fh) = some (D.direct (.release fh)) := by
  rw [exchange_whole h, Callback.call, Disk.after, atoi_decNat h]
  rfl

/-- One callback through the server does what it would do directly. -/
theorem exchange_direct (h : cb.OnFile) (hc : conn.Clean) :
    D.exchange conn cb = some (D.directOver conn cb) := by
  rcases hc with rfl | rfl | rfl
  · exact exchange_failed h (.inl rfl)
  · exact exchange_failed h (.inr rfl)
  · cases cb with
    | read => exact exchange_read h
    | write => exact exchange_write h
    | truncate => exact exchange_truncate h
    | release => exact exchange_release h
    | _ => exact h.elim

end

theorem session_eq (D : Disk) (events : List (Connection × Callback))
    (h : ∀ e ∈ events, e.1.Clean ∧ e.2.OnFile) : D.session events = some (D.directly events) := by
  induction events generalizing D with
  | nil => rfl
  | cons e events ih =>
    obtain ⟨conn, cb⟩ := e
    obtain ⟨hc, hcb⟩ := h _ List.mem_cons_self
    have htail := ih (D.directOver conn cb).1 fun e he => h e (List.mem_cons_of_mem _ he)
    rw [Disk.session, exchange_direct hcb hc, Option.bind_eq_bind, Option.bind_some]
    dsimp only
    rw [htail]
    rfl

namespace Disk

/-- What a callback changes in the files, if it gets a connection. -/
def editOver (D : Disk) (conn : Connection) (cb : Callback) : Option (Edit Nat Char) :=
  match conn with
  | .connected _ _ =>
    match cb with
    | .write fh buf size offset => D.pwrite ⟨fh.toNat, ' ' :: buf, size, offset⟩
    | .truncate path newsize => D.truncate (D.rootPath ++ path) newsize
    | _ => none
  | _ => none

def edits (D : Disk) : List (Connection × Callback) → List (Edit Nat Char)
  | [] => []
  | (conn, cb) :: events => (D.editOver conn cb).toList ++ (D.directOver conn cb).1.edits events

end Disk

section
variable {D D' : Disk} {events : List (Connection × Callback)} {rets : List Return}

theorem edited_content (e : Option (Edit Nat Char)) : (D.edited e).content =
    e.toList.foldl (fun content e => e.apply nul content) D.content := by
  cases e with
  | none => rfl
  | some e => rfl

theorem directOver_content (conn : Connection) (cb : Callback) :
    (D.directOver conn cb).1.content =
      (D.editOver conn cb).toList.foldl (fun content e => e.apply nul content) D.content := by
  cases conn with
  | socketError | connectError => rfl
  | connected requested responded =>
    cases cb with
    | write | truncate => exact edited_content _
    | _ => rfl

theorem directly_content : (D.directly events).1.content =
    (D.edits events).foldl (fun content e => e.apply nul content) D.content := by
  induction events generalizing D with
  | nil => rfl
  | cons e events ih =>
    obtain ⟨conn, cb⟩ := e
    rw [Disk.edits, List.foldl_append, ← directOver_content, ← ih]
    rfl

theorem session_keeps (h : ∀ e ∈ events, e.1.Clean ∧ e.2.OnFile)
    (hs : D.session events = some (D', rets)) (hb : (D.content f)[i]? = some b)
    (hn : ∀ e ∈ D.edits events, ¬ e.Touches f i) : (D'.content f)[i]? = some b := by
  rw [session_eq D events h] at hs
  obtain rfl := congrArg Prod.fst (Option.some.inj hs)
  rw [directly_content]
  exact Edit.foldl_of_not_touches hb hn

/-- A write stores a space and its data but for the last character. -/
theorem data_spaced (fd : Int) (d : Text) (offset : Int) :
    (⟨fd, ' ' :: d, d.length, offset⟩ : Pwrite).data = (' ' :: d).take d.length := by
  rw [Pwrite.data]
  exact List.take_append_of_le_length (by simp)

theorem length_spaced (d : Text) : ((' ' :: d).take d.length).length = d.length := by
  rw [List.length_take, List.length_cons]
  omega

theorem pwrite_content (hf : D.writable fd = some f) (h0 : 0 ≤ offset) (hk : k < d.length)
    (hc : d.length ≤ maxCount) :
    ((D.edited (D.pwrite ⟨fd, ' ' :: d, d.length, offset⟩)).content f)[offset.toNat + k]? =
      ((' ' :: d).take d.length)[k]? := by
  have hl := length_spaced d
  rw [Disk.pwrite, if_pos h0, hf, Option.map_some, data_spaced,
    List.take_of_length_le (by omega)]
  exact Edit.apply_write _ (by omega)

theorem prefix_readText {data : List Char} (hp : D.pread fd size offset = some data)
    (hn : nul ∉ data) (hl : data.length = size) (hs : size ≤ 4096) :
    data <+: D.readText fd size offset := by
  have hcut : cstr (data ++ D.heap) = data ++ cstr D.heap := by
    have hself := cstr_eq_self hn
    unfold cstr at hself ⊢
    rw [List.takeWhile_append, hself, if_pos rfl]
  rw [Disk.readText, hp, Option.getD_some, if_neg (by omega), hcut, List.take_append,
    List.take_of_length_le (by omega)]
  exact List.prefix_append _ _

theorem session_cons {e : Connection × Callback} (hc : e.1.Clean) (he : e.2.OnFile)
    (hs : D.session (e :: events) = some (D', rets)) :
    ∃ rets', (D.directOver e.1 e.2).1.session events = some (D', rets') := by
  obtain ⟨conn, cb⟩ := e
  rw [Disk.session, exchange_direct he hc, Option.bind_eq_bind, Option.bind_some] at hs
  dsimp only at hs
  cases ht : (D.directOver conn cb).1.session events with
  | none =>
    rw [ht] at hs
    cases hs
  | some r =>
    rw [ht] at hs
    cases hs
    exact ⟨_, rfl⟩

theorem fileBytes_eq {content data : List Char} (hl : data.length = size)
    (h : ∀ k, k < size → content[offset.toNat + k]? = data[k]?) :
    fileBytes content size offset = data := by
  apply List.ext_getElem?
  intro k
  rw [fileBytes, List.getElem?_take]
  split
  · rw [List.getElem?_drop]
    exact h k ‹_›
  · rw [List.getElem?_eq_none (by omega)]

end

/-- A session of any clients returns what the same callbacks would, done on the disk itself one
after the other, and leaves the files with the changes of its writes and truncations. -/
theorem session_refines (D : Disk) (events : List (Connection × Callback))
    (h : ∀ e ∈ events, e.1.Clean ∧ e.2.OnFile) :
    ∃ D' rets, D.session events = some (D', rets) ∧ D.directly events = (D', rets) ∧
      D'.content = (D.edits events).foldl (fun content e => e.apply nul content) D.content :=
  ⟨_, _, session_eq D events h, rfl, directly_content⟩

def Disk.twice : Disk where
  rootPath := "/srv".toList
  names path := if path = "/srv/a".toList then some 7 else none
  descriptors fd :=
    if fd = 4 then some ⟨7, true, true⟩ else if fd = 5 then some ⟨7, true, false⟩ else none
  content f := if f = 7 then "abcdef".toList else []
  heap := []

def someEvents : List (Connection × Callback) :=
  [(.socketError, .write 4 "no".toList 2 2), (.whole, .write 4 "hi".toList 2 4),
    (.whole, .release 4)]

theorem someEvents_clean : ∀ e ∈ someEvents, e.1.Clean ∧ e.2.OnFile := by
  intro e he
  rcases List.mem_cons.mp he with rfl | he
  · exact ⟨.inl rfl, by decide, by decide, by decide, by decide, by decide, by decide⟩
  rcases List.mem_cons.mp he with rfl | he
  · exact ⟨.inr (.inr rfl), by decide, by decide, by decide, by decide, by decide, by decide⟩
  · cases List.mem_singleton.mp he
    have hfh : (4 : UInt64).toNat < 2 ^ 31 := by decide
    exact ⟨.inr (.inr rfl), hfh⟩

theorem session_refines_twice : ∃ D' rets, Disk.twice.session someEvents = some (D', rets) ∧
    D'.content 7 = "abcd h".toList := by
  obtain ⟨D', rets, hs, -, hc⟩ := session_refines .twice someEvents someEvents_clean
  refine ⟨D', rets, hs, ?_⟩
  rw [hc]
  decide

/-- What was written is read back, by any client and after any session that leaves its place
alone, with a space in front and its last character missing. -/
theorem read_back (D D' : Disk) (fh fh' : UInt64) (d : Text) (offset : Int) (f : Nat)
    (events : List (Connection × Callback)) (rets : List Return) (hd : d ≠ [])
    (hw : (Callback.write fh d d.length offset).OnFile) (hf : D.writable fh.toNat = some f)
    (h : ∀ e ∈ events, e.1.Clean ∧ e.2.OnFile)
    (hs : D.session ((.whole, .write fh d d.length offset) :: events) = some (D', rets))
    (hn : ∀ e ∈ (D.direct (.write fh d d.length offset)).1.edits events,
      ∀ i, offset.toNat ≤ i → i < offset.toNat + d.length → ¬ e.Touches f i)
    (hfh : fh'.toNat < 2 ^ 31) (hf' : D'.readable fh'.toNat = some f) :
    ∃ ret, D'.exchange .whole (.read fh' d.length offset) = some (D', ret) ∧
      ret.buf.take d.length = (' ' :: d).take d.length ∧
      (ret.buf.take d.length = d ↔ ∀ c ∈ d, c = ' ') := by
  obtain ⟨-, hnul, -, h0, h31, hl⟩ := id hw
  have hlen := Callback.length_le_request fh d d.length offset
  have hpos : 0 < d.length := List.length_pos_iff.mpr hd
  obtain ⟨rets', hs⟩ := session_cons (.inr (.inr rfl)) hw hs
  have hdlen := length_spaced d
  have hdnul : nul ∉ (' ' :: d).take d.length := by
    intro hm
    rcases List.mem_cons.mp (List.mem_of_mem_take hm) with he | hm
    · exact absurd he (by decide)
    · exact hnul hm
  have hcount : d.length ≤ maxCount := by
    unfold maxCount
    omega
  have hwritten (k : Nat) (hk : k < d.length) :
      (D'.content f)[offset.toNat + k]? = ((' ' :: d).take d.length)[k]? := by
    have hb := pwrite_content hf h0 hk hcount
    have hsome := List.getElem?_eq_getElem (l := (' ' :: d).take d.length) (i := k) (by omega)
    rw [hsome] at hb ⊢
    apply session_keeps h hs hb
    intro e he
    exact hn e he _ (by omega) (by omega)
  have hpread : D'.pread fh'.toNat d.length offset = some ((' ' :: d).take d.length) := by
    rw [Disk.pread, if_pos h0, hf', Option.map_some, Nat.min_eq_left hcount,
      fileBytes_eq hdlen hwritten]
  have hread : (Callback.read fh' d.length offset).OnFile := ⟨hfh, hpos, by omega, h0, h31⟩
  have htext :
      (D'.readText fh'.toNat d.length offset).take d.length = (' ' :: d).take d.length := by
    have hp := prefix_readText hpread hdnul hdlen (by omega)
    rw [List.prefix_iff_eq_take, hdlen] at hp
    exact hp.symm
  refine ⟨_, exchange_read hread, htext, ?_⟩
  rw [← take_cons_eq_iff]
  exact Eq.congr_left htext

theorem read_back_twice :
    ∃ D' rets, Disk.twice.session ((.whole, .write 4 "xyz".toList 3 1) :: someEvents) =
      some (D', rets) ∧
      ∃ ret, D'.exchange .whole (.read 5 3 1) = some (D', ret) ∧ ret.buf.take 3 = " xy".toList := by
  have hw : (Callback.write 4 "xyz".toList 3 1).OnFile :=
    ⟨by decide, by decide, by decide, by decide, by decide, by decide⟩
  have hall : ∀ e ∈ (Connection.whole, Callback.write 4 "xyz".toList 3 1) :: someEvents,
      e.1.Clean ∧ e.2.OnFile := by
    intro e he
    rcases List.mem_cons.mp he with rfl | he
    · exact ⟨.inr (.inr rfl), hw⟩
    · exact someEvents_clean e he
  have hn : ∀ e ∈ (Disk.twice.direct (.write 4 "xyz".toList "xyz".toList.length 1)).1.edits
      someEvents, ∀ i, (1 : Int).toNat ≤ i → i < (1 : Int).toNat + "xyz".toList.length →
        ¬ e.Touches 7 i := by
    intro e he i _ hi ht
    have hedits : e ∈ [Edit.write 7 4 " h".toList] := he
    cases List.mem_singleton.mp hedits
    have hlast : i < 4 := hi
    exact absurd ht.2.1 (Nat.not_le.mpr hlast)
  have hs := session_eq .twice _ hall
  obtain ⟨ret, hr, hb, -⟩ := read_back .twice _ 4 5 "xyz".toList 1 7 someEvents _ (by decide) hw rfl
    someEvents_clean hs hn (by decide) rfl
  exact ⟨_, _, hs, ret, hr, hb⟩

end NoblesseOblige.Snfs
