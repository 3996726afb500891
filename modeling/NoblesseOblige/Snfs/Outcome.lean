import NoblesseOblige.Snfs.Response
import NoblesseOblige.Snfs.Request

namespace NoblesseOblige.Snfs
open CString
set_option autoImplicit true

/-- How the connection of a callback goes: `socket` or `connect` fails, or `recv` gives the server
the first characters of the request and the client the first characters of the response. -/
inductive Connection
  | socketError
  | connectError
  | connected (requested responded : Nat)

/-- What comes of a request in `request_handler`: it makes a call, or it reads a null pointer. Or
it does what is not defined: the request overruns its buffer, names no operation that would set the
response, or is a write that lacks a comma. -/
inductive Handled
  | called (call : Call)
  | crashed
  | undefined

def handled (recData : Text) : Handled :=
  if 4096 ≤ recData.length then .undefined
  else
    match served [recData] with
    | some call => if call.action.isSome then .called call else .undefined
    | none =>
      match (strtok delim recData).1 with
      | some firstarg => if (operands firstarg).isSome then .crashed else .undefined
      | none => .crashed

section
variable (os : Os)

/-- The text that a call's response leaves in the client's buffer, which is empty before. -/
def Call.received (call : Call) (responded : Nat) : Text :=
  match call.response os with
  | some memory => recvText 4096 [(memory.take 4096).take responded]
  | none => []

/-- What came of a request: the text in the client's buffer, if it is defined, and the call that
the server made, if it made one. -/
structure Exchange where
  text : Option Text
  made : Option Call

def sendRequestToServer (conn : Connection) (request : Text) : Exchange :=
  match conn with
  | .socketError | .connectError => ⟨some [], none⟩
  | .connected requested responded =>
    match handled (request.take requested) with
    | .called call => ⟨some (call.received os responded), some call⟩
    | .crashed => ⟨some [], none⟩
    | .undefined => ⟨none, none⟩

end

/-- The system call that a `remote_*` function makes, with what it passes. -/
inductive Syscall
  | opendir (path : Text)
  | lstat (path : Text)
  | closedir (dirp : UInt64)
  | mkdir (path : Text) (mode : Nat)
  | pread (fd : Int) (size : Nat) (offset : Int)
  | open (path : Text) (flags : Int)
  | close (fd : Int)
  | pwrite (fd : Int) (data : List Char) (size : Nat) (offset : Int)
  | truncate (path : Text) (newsize : Int)
  | creat (path : Text) (mode : Nat)
  | unlink (path : Text)
  deriving DecidableEq

def Call.syscall : Call → Option Syscall
  | .readdir path | .opendir path => some (.opendir path)
  | .getattr path => some (.lstat path)
  | .releasedir pointer => some (.closedir (strtoull pointer))
  | .mkdir path mode => some (.mkdir path mode)
  | .read pointer size offset => some (.pread (atoi pointer) size offset)
  | .open path flags => some (.open path flags)
  | .release pointer => some (.close (atoi pointer))
  | .write pointer size offset buffer =>
    (remoteWrite pointer size offset buffer).map fun w => .pwrite w.fd w.data w.size w.offset
  | .truncate path newsize => some (.truncate path newsize)
  | .create path mode => some (.creat path mode)
  | .unlink path => some (.unlink path)

/-- The call that a callback's request asks for. -/
def Callback.call (cb : Callback) : Call :=
  match cb with
  | .getattr path => .getattr path
  | .readdir path => .readdir path
  | .open path flags => .open path (atoi (dec flags))
  | .read fh size offset => .read (decNat fh.toNat) (sizeT (atoi (dec (toInt size))))
      (atoi (dec (toInt offset)))
  | .opendir path => .opendir path
  | .releasedir fh => .releasedir (decNat fh.toNat)
  | .mkdir path mode => .mkdir path (modeT (atoi (dec (toInt mode))))
  | .release fh => .release (decNat fh.toNat)
  | .write fh _ size offset => .write (decNat fh.toNat) (sizeT (atoi (dec (toInt size))))
      (atoi (dec (toInt offset))) cb.request
  | .truncate path newsize => .truncate path (atoi (dec (toInt newsize)))
  | .create path mode => .create path (modeT (atoi (dec (toInt mode))))
  | .unlink path => .unlink path

/-- What a callback returned, and whether the system call that it is for succeeded, if the server
made it. -/
structure Outcome where
  returned : Option Int
  syscall : Option Bool

/-- The first characters of a request may make the server do something else: that is not the
callback's system call. -/
def Callback.outcome (os : Os) (conn : Connection) (cb : Callback) : Outcome :=
  let e := sendRequestToServer os conn cb.request
  ⟨(e.text.bind cb.finish).map Return.value,
    e.made.bind fun call =>
      if call.syscall = cb.call.syscall then call.succeeds os else none⟩

/-- The callback returns, and a negative value exactly if the system call failed or was never
made. -/
def Outcome.Agrees (o : Outcome) : Prop :=
  ∃ v, o.returned = some v ∧ (v < 0 ↔ o.syscall ≠ some true)

/-- The path has no delimiter, and paths and data are texts. -/
def Callback.WellFormed : Callback → Prop
  | .getattr path | .readdir path | .open path _ | .opendir path | .mkdir path _
  | .truncate path _ | .create path _ | .unlink path => Plain path ∧ nul ∉ path
  | .write _ buf _ _ => nul ∉ buf
  | .read _ _ _ | .releasedir _ | .release _ => True

theorem served_plain {r path : Text} (hl : r.length < 4096) (hn : nul ∉ r) (hp : Plain path)
    (name : Text) (call : Text → Call) (hr : r = name ++ (", ".toList ++ path))
    (hs : requestHandler r (some name) = withToken call) (hw : Plain name) :
    served [r] = some (call path) := by
  rw [served_of_name name (withToken call) hr hs hw hl hn, alone_withToken, hp.strtok_end]
  rfl

theorem served_plainArg {r path : Text} {v : Int} (hl : r.length < 4096) (hn : nul ∉ r)
    (hp : Plain path) (name : Text) (call : Text → Int → Call)
    (hr : r = name ++ (", ".toList ++ (path ++ (", ".toList ++ dec v))))
    (hs : requestHandler r (some name) = withTokenAtoi call) (hw : Plain name) :
    served [r] = some (call path (atoi (dec v))) := by
  rw [served_of_name name (withTokenAtoi call) hr hs hw hl hn]
  exact alone_withTokenAtoi call hp (plain_dec v).strtok_end

theorem Callback.nul_notMem_of_wellFormed {cb : Callback} (h : cb.WellFormed) :
    nul ∉ cb.request := by
  cases cb with
  | getattr path | readdir path | opendir path | unlink path =>
    exact notMem_append (by decide) h.2
  | «open» path arg | mkdir path arg | truncate path arg | create path arg =>
    exact notMem_append (notMem_append (by decide) h.2)
      (notMem_append (by decide) (nul_notMem_dec _))
  | releasedir fh | release fh => exact notMem_append (by decide) (nul_notMem_decNat _)
  | write fh buf size offset => exact nul_notMem_write h
  | read fh size offset =>
    refine notMem_append (by decide) (notMem_append (notMem_append (notMem_append ?_ ?_) ?_) ?_)
    · exact notMem_append (nul_notMem_decNat _) (by decide)
    · exact nul_notMem_dec _
    · decide
    · exact nul_notMem_dec _

theorem append_two (n s a b : Text) : n ++ s ++ a ++ (s ++ b) = n ++ (s ++ (a ++ (s ++ b))) := by
  simp only [List.append_assoc]

theorem append_three (n s a b c : Text) : n ++ s ++ (a ++ s ++ b ++ s ++ c) =
    n ++ (s ++ (a ++ (s ++ (b ++ (s ++ c))))) := by
  simp only [List.append_assoc]

theorem Callback.mkdir_request : (Callback.mkdir path mode).request =
    "mkdir".toList ++ (", ".toList ++ (path ++ (", ".toList ++ dec (toInt mode)))) :=
  append_two "mkdir".toList ", ".toList path (dec (toInt mode))

theorem Callback.create_request : (Callback.create path mode).request =
    "create".toList ++ (", ".toList ++ (path ++ (", ".toList ++ dec (toInt mode)))) :=
  append_two "create".toList ", ".toList path (dec (toInt mode))

theorem Callback.read_request : (Callback.read fh size offset).request =
    "read".toList ++ (", ".toList ++ (decNat fh.toNat ++ (", ".toList ++ (dec (toInt size) ++
      (", ".toList ++ dec (toInt offset)))))) :=
  append_three "read".toList ", ".toList (decNat fh.toNat) (dec (toInt size)) (dec (toInt offset))

theorem served_request (cb : Callback) (h : cb.WellFormed) (hl : cb.request.length < 4096) :
    served [cb.request] = some cb.call := by
  have hn := Callback.nul_notMem_of_wellFormed h
  cases cb with
  | getattr path =>
    exact served_plain hl hn h.1 "getattr".toList .getattr rfl (requestHandler_getattr _)
      (by decide)
  | readdir path =>
    exact served_plain hl hn h.1 "readdir".toList .readdir rfl (requestHandler_readdir _)
      (by decide)
  | «open» path flags =>
    exact served_plainArg hl hn h.1 "open".toList .open rfl (requestHandler_open _) (by decide)
  | read fh size offset =>
    rw [served_of_name "read".toList _ Callback.read_request (requestHandler_read _)
      (by decide) hl hn]
    exact alone_withTokenAtoiAtoi _ (plain_decNat _) (plain_dec _) (plain_dec _).strtok_end
  | opendir path =>
    exact served_plain hl hn h.1 "opendir".toList .opendir rfl (requestHandler_opendir _)
      (by decide)
  | releasedir fh =>
    exact served_plain hl hn (plain_decNat _) "releasedir".toList .releasedir rfl
      (requestHandler_releasedir _) (by decide)
  | mkdir path mode =>
    exact served_plainArg hl hn h.1 "mkdir".toList (fun path v => .mkdir path (modeT v))
      Callback.mkdir_request (requestHandler_mkdir _) (by decide)
  | release fh =>
    exact served_plain hl hn (plain_decNat _) "release".toList .release rfl
      (requestHandler_release _) (by decide)
  | write fh buf size offset => exact served_write h hl
  | truncate path newsize =>
    exact served_plainArg hl hn h.1 "truncate".toList .truncate rfl (requestHandler_truncate _)
      (by decide)
  | create path mode =>
    exact served_plainArg hl hn h.1 "create".toList (fun path v => .create path (modeT v))
      Callback.create_request (requestHandler_create _) (by decide)
  | unlink path =>
    exact served_plain hl hn h.1 "unlink".toList .unlink rfl (requestHandler_unlink _) (by decide)

/-- A request that arrives whole makes the server do the call that the callback asks for. -/
theorem handled_request (cb : Callback) (h : cb.WellFormed) (hl : cb.request.length < 4096) :
    handled cb.request = .called cb.call := by
  have ha : cb.call.action.isSome = true := by
    cases cb with
    | write fh buf size offset =>
      rw [Callback.call, Call.action, remoteWrite_request]
      rfl
    | _ => rfl
  rw [handled, if_neg (by omega), served_request cb h hl]
  exact if_pos ha

/-- The callbacks that take a response of zero, or none, for a failure. -/
def Callback.opens : Callback → Bool
  | .open _ _ | .create _ _ | .opendir _ => true
  | _ => false

/-- A callback finds all it reads in the first `n` characters of the response to a call. -/
def Call.Answers (os : Os) (n : Nat) : Call → Prop
  | .getattr path =>
    (fields (((os.lstat (os.fullPath path)).getD os.uninit).ints.take 9)).length < n
  | _ => True

/-- It takes them for a failure. -/
def Call.Refuses (os : Os) (n : Nat) : Call → Prop
  | .getattr path =>
    let st := (os.lstat (os.fullPath path)).getD os.uninit
    st.mode = 0 ∨ st.uid = 0 ∨ st.gid = 0
  | .open path flags =>
    let fd := os.open (os.fullPath path) flags
    fd = 0 ∨ n = 0 ∨ fd = -1 ∧ n ≤ 1
  | .create path mode =>
    let fd := os.creat (os.fullPath path) mode
    fd = 0 ∨ n = 0 ∨ fd = -1 ∧ n ≤ 1
  | .opendir path =>
    let p := (os.opendir (os.fullPath path)).toNat
    let q := p / 10 ^ ((decNat p).length - n)
    q < 2 ^ 63 ∧ q % 2 ^ 32 = 0
  | .mkdir path mode => os.mkdir (os.fullPath path) mode = -1 ∧ 1 < n
  | .truncate path newsize => os.truncate (os.fullPath path) newsize = -1 ∧ 1 < n
  | .write pointer size offset buffer =>
    (Call.write pointer size offset buffer).succeeds os = some false ∧ 1 < n
  | _ => False

/-- When what a callback makes of the first `n` characters of the response to a call agrees with
what the call did. -/
def Call.HoldsWhen (os : Os) (n : Nat) : Call → Prop
  | .getattr path =>
    let st := (os.lstat (os.fullPath path)).getD os.uninit
    (fields (st.ints.take 9)).length < n ∧
      ((os.lstat (os.fullPath path)).isSome ↔ st.mode ≠ 0 ∧ st.uid ≠ 0 ∧ st.gid ≠ 0)
  | .open path flags =>
    let fd := os.open (os.fullPath path) flags
    0 < fd ∧ 0 < n ∨ fd = -1 ∧ n ≤ 1
  | .create path mode =>
    let fd := os.creat (os.fullPath path) mode
    0 < fd ∧ 0 < n ∨ fd = -1 ∧ n ≤ 1
  | .opendir path =>
    let p := (os.opendir (os.fullPath path)).toNat
    let q := p / 10 ^ ((decNat p).length - n)
    p = 0 ∨ 2 ^ 63 ≤ q ∨ q % 2 ^ 32 ≠ 0
  | .mkdir path mode => os.mkdir (os.fullPath path) mode ≠ -1 ∨ 1 < n
  | .truncate path newsize => os.truncate (os.fullPath path) newsize ≠ -1 ∨ 1 < n
  | .write pointer size offset buffer =>
    (Call.write pointer size offset buffer).succeeds os = some true ∨ 1 < n
  | call => call.succeeds os = some true

def Callback.HoldsWhen (os : Os) (conn : Connection) (cb : Callback) : Prop :=
  match conn with
  | .socketError | .connectError => cb.opens = true
  | .connected requested responded =>
    match handled (cb.request.take requested) with
    | .called call =>
      if call.syscall = cb.call.syscall then call.HoldsWhen os responded
      else call.Answers os responded ∧ call.Refuses os responded
    | .crashed => cb.opens = true
    | .undefined => False

theorem Outcome.agrees_iff (v : Int) (b : Option Bool) :
    (Outcome.mk (some v) b).Agrees ↔ (v < 0 ↔ b ≠ some true) := by
  constructor
  · rintro ⟨w, hw, ha⟩
    cases hw
    exact ha
  · exact fun ha => ⟨v, rfl, ha⟩

theorem Outcome.not_agrees_none (b : Option Bool) : ¬ (Outcome.mk none b).Agrees := by
  rintro ⟨v, hv, -⟩
  cases hv

/-- A callback that is given nothing, of a call that was not made. -/
theorem Callback.agrees_iff_opens (cb : Callback) :
    (Outcome.mk ((cb.finish []).map Return.value) none).Agrees ↔ cb.opens = true := by
  cases cb with
  | getattr path => exact iff_of_false (Outcome.not_agrees_none _) Bool.false_ne_true
  | «open» path arg | create path arg | opendir path =>
    exact iff_of_true ((Outcome.agrees_iff (-ENOENT) none).mpr (by decide)) rfl
  | _ =>
    refine iff_of_false ?_ Bool.false_ne_true
    rintro ⟨v, hv, ha⟩
    cases hv
    exact absurd (ha.mpr (by simp)) (by decide)

/-- `open` and `create` take zero for a failure. -/
theorem agrees_open {v : Int} (h : -1 ≤ v) (h' : v < 2 ^ 31) (n : Nat) (b : Option Bool) :
    (Outcome.mk (some (if atoi ((dec v).take n) = 0 then -ENOENT else 0)) b).Agrees ↔
      (v = 0 ∨ n = 0 ∨ v = -1 ∧ n ≤ 1 ↔ b ≠ some true) := by
  have hneg : -ENOENT < 0 := by decide
  rw [Outcome.agrees_iff, ← (atoi_take_dec h h' n).1]
  split
  · rename_i hz
    rw [iff_true_left hneg, iff_true_left hz]
  · rename_i hz
    rw [iff_false_left (Int.lt_irrefl 0), iff_false_left hz]

theorem agrees_opendir (p : UInt64) (n : Nat) (b : Option Bool) :
    (Outcome.mk (some (if atoi ((decNat p.toNat).take n) = 0 then -ENOENT else 0)) b).Agrees ↔
      (p.toNat / 10 ^ ((decNat p.toNat).length - n) < 2 ^ 63 ∧
        p.toNat / 10 ^ ((decNat p.toNat).length - n) % 2 ^ 32 = 0 ↔ b ≠ some true) := by
  have hneg : -ENOENT < 0 := by decide
  have hz : atoi ((decNat p.toNat).take n) = 0 ↔
      p.toNat / 10 ^ ((decNat p.toNat).length - n) < 2 ^ 63 ∧
        p.toNat / 10 ^ ((decNat p.toNat).length - n) % 2 ^ 32 = 0 := by
    rw [atoi_take_decNat, toInt, Int.bmod_def]
    generalize p.toNat / 10 ^ ((decNat p.toNat).length - n) = q
    omega
  rw [Outcome.agrees_iff, ← hz]
  split
  · rename_i hz
    rw [iff_true_left hneg, iff_true_left hz]
  · rename_i hz
    rw [iff_false_left (Int.lt_irrefl 0), iff_false_left hz]

theorem agrees_int {v : Int} (h : -1 ≤ v) (h' : v < 2 ^ 31) (n : Nat) (b : Option Bool) :
    (Outcome.mk (some (atoi ((dec v).take n))) b).Agrees ↔
      (v = -1 ∧ 1 < n ↔ b ≠ some true) := by
  rw [Outcome.agrees_iff, (atoi_take_dec h h' n).2]

theorem agrees_nonneg {v : Int} (h : 0 ≤ v) (b : Option Bool) :
    (Outcome.mk (some v) b).Agrees ↔ (False ↔ b ≠ some true) := by
  have hv : ¬ v < 0 := by omega
  rw [Outcome.agrees_iff, iff_false_left hv, iff_false_left not_false]

theorem alone_requestHandler_nil (r : Text) (o : Option Text) :
    (requestHandler r o).alone delim [] = none := by
  cases o with
  | none => rfl
  | some firstarg =>
    rcases switch firstarg with ⟨_, hs⟩ | ⟨_, _, hs⟩ | ⟨_, _, hs⟩ | ⟨_, _, hs⟩ | rfl
    · rw [hs]; rfl
    · rw [hs]; rfl
    · rw [hs]; rfl
    · rw [hs]; rfl
    · rfl

theorem served_of_handled (h : handled p = .called c) :
    p.length < 4096 ∧ served [p] = some c ∧ c.action.isSome = true := by
  unfold handled at h
  split at h
  · cases h
  rename_i hl
  refine ⟨by omega, ?_⟩
  cases hs : served [p] with
  | none =>
    simp only [hs] at h
    split at h
    · split at h <;> cases h
    · cases h
  | some c' =>
    simp only [hs] at h
    split at h
    · cases h
      exact ⟨rfl, ‹_›⟩
    · cases h

/-- A call that is made for the first characters of a request is one of the operation that the
request names. -/
theorem handled_called {r rest : Text} (name : Text) (hr : r = name ++ (", ".toList ++ rest))
    (hw : Plain name) (hn : nul ∉ r) (hc : handled (r.take k) = .called call) :
    (requestHandler (r.take k) (some name)).alone delim (strtok delim (r.take k)).2 =
      some call := by
  have hr' : strtok delim (r.take k ++ r.drop k) = (some name, ' ' :: rest) := by
    rw [List.take_append_drop, hr]
    exact hw.strtok_sep rest
  obtain ⟨hl, hs, -⟩ := served_of_handled hc
  rw [served, recvText_whole (by omega) fun h => hn (List.mem_of_mem_take h), Job.alone] at hs
  simp only [requestJob] at hs
  cases cut delim (r.take k) (r.drop k) with
  | blank h h' =>
    rw [h, alone_requestHandler_nil] at hs
    cases hs
  | whole w p' h h' =>
    have hw : some w = some name := congrArg Prod.fst (h'.symm.trans hr')
    rw [h, hw] at hs
    rwa [h]
  | inside w u t' h h' =>
    rw [h, alone_requestHandler_nil] at hs
    cases hs

section
variable (os : Os) (n : Nat)

theorem received_dec {call : Call} {v : Int} (h : call.response os = some (os.memory (dec v)))
    (hv : -2 ^ 31 ≤ v) (hv' : v < 2 ^ 31) : call.received os n = (dec v).take n := by
  have hl := dec_length hv hv'
  rw [Call.received, h]
  exact recvText_memory os (nul_notMem_dec v) (by omega) n

theorem received_opendir (path : Text) : (Call.opendir path).received os n =
    (decNat (os.opendir (os.fullPath path)).toNat).take n := by
  have hl := decNat_length (os.opendir (os.fullPath path))
  exact recvText_memory os (nul_notMem_decNat _) (by omega) n

theorem received_getattr (path : Text) : (Call.getattr path).received os n =
    (commaSeparated ((os.lstat (os.fullPath path)).getD os.uninit).ints).take n := by
  generalize hst : (os.lstat (os.fullPath path)).getD os.uninit = st
  obtain ⟨v, hv⟩ : ∃ v, st.ints = st.ints.take 9 ++ [v] := ⟨toInt st.size, rfl⟩
  have hb := st.ints_bounds
  have hl : (fields (st.ints.take 9)).length ≤ 13 * (st.ints.take 9).length :=
    fields_length fun w hw => hb w (List.mem_of_mem_take hw)
  have hlast := hb v (by rw [hv]; exact List.mem_append_right _ List.mem_cons_self)
  have hd := dec_length hlast.1 hlast.2
  have h9 : (st.ints.take 9).length = 9 := rfl
  have hc : commaSeparated st.ints = fields (st.ints.take 9) ++ dec v :=
    (congrArg commaSeparated hv).trans (commaSeparated_concat _ v)
  rw [Call.received, Call.response, hst, hc]
  refine recvText_memory os (notMem_append (nul_notMem_fields _) (nul_notMem_dec v)) ?_ n
  rw [List.length_append]
  omega

/-- A lookup is taken for what it is only if the whole of the mode and the owner come from it. -/
theorem agrees_getattr (path' path : Text) (b : Option Bool) :
    (Outcome.mk (((Callback.getattr path').finish ((Call.getattr path).received os n)).map
      Return.value) b).Agrees ↔ (Call.getattr path).Answers os n ∧
        ((Call.getattr path).Refuses os n ↔ b ≠ some true) := by
  rw [received_getattr, finish_getattr, Call.Answers, Call.Refuses]
  generalize (os.lstat (os.fullPath path)).getD os.uninit = st
  by_cases hn : (fields (st.ints.take 9)).length < n
  · have hneg : -ENOENT < 0 := by decide
    rw [if_pos hn, Outcome.agrees_iff]
    refine Iff.trans ?_ (and_iff_right hn).symm
    split
    · rename_i hz
      rw [iff_true_left hneg, iff_true_left hz]
    · rename_i hz
      rw [iff_false_left (Int.lt_irrefl 0), iff_false_left hz]
  · rw [if_neg hn]
    exact iff_of_false (Outcome.not_agrees_none _) fun h => hn h.1

/-- What a callback makes of the response to the call that the server made for it. -/
theorem Callback.agrees_iff_of_called {cb : Callback} (hn : nul ∉ cb.request)
    (hc : handled (cb.request.take k) = .called c) (b : Option Bool) :
    (Outcome.mk ((cb.finish (c.received os n)).map Return.value) b).Agrees ↔
      c.Answers os n ∧ (c.Refuses os n ↔ b ≠ some true) := by
  cases cb with
  | getattr path =>
    have h := handled_called "getattr".toList rfl (by decide) hn hc
    obtain ⟨t, -, rfl⟩ := alone_withToken_eq h
    exact agrees_getattr os n path t b
  | readdir path =>
    have h := handled_called "readdir".toList rfl (by decide) hn hc
    obtain ⟨t, -, rfl⟩ := alone_withToken_eq h
    rw [finish_readdir]
    exact (agrees_nonneg (Int.le_refl 0) b).trans (and_iff_right trivial).symm
  | «open» path flags =>
    have h := handled_called "open".toList rfl (by decide) hn hc
    obtain ⟨t, v, -, -, rfl⟩ := alone_withTokenAtoi_eq h
    have hr := os.open_range (os.fullPath t) (atoi v)
    rw [received_dec os n rfl (by omega) hr.2]
    exact (agrees_open hr.1 hr.2 n b).trans (and_iff_right trivial).symm
  | read fh size offset =>
    have h :=
      handled_called "read".toList Callback.read_request (by decide) hn hc
    obtain ⟨t, v, w, -, -, -, rfl⟩ := alone_withTokenAtoiAtoi_eq h
    exact (agrees_nonneg (Int.natCast_nonneg _) b).trans (and_iff_right trivial).symm
  | opendir path =>
    have h := handled_called "opendir".toList rfl (by decide) hn hc
    obtain ⟨t, -, rfl⟩ := alone_withToken_eq h
    rw [received_opendir]
    exact (agrees_opendir (os.opendir (os.fullPath t)) n b).trans (and_iff_right trivial).symm
  | releasedir fh =>
    have h := handled_called "releasedir".toList rfl (by decide) hn hc
    obtain ⟨t, -, rfl⟩ := alone_withToken_eq h
    exact (agrees_nonneg (Int.le_refl 0) b).trans (and_iff_right trivial).symm
  | mkdir path mode =>
    have h :=
      handled_called "mkdir".toList Callback.mkdir_request (by decide) hn hc
    obtain ⟨t, v, -, -, rfl⟩ := alone_withTokenAtoi_eq h
    have hr := os.mkdir_range (os.fullPath t) (modeT (atoi v))
    rw [received_dec os n rfl (by omega) (by omega)]
    exact (agrees_int (by omega) (by omega) n b).trans (and_iff_right trivial).symm
  | release fh =>
    have h := handled_called "release".toList rfl (by decide) hn hc
    obtain ⟨t, -, rfl⟩ := alone_withToken_eq h
    exact (agrees_nonneg (Int.le_refl 0) b).trans (and_iff_right trivial).symm
  | write fh buf size offset =>
    have h :=
      handled_called "write".toList Callback.write_request (by decide) hn hc
    obtain ⟨t, v, w, -, -, -, rfl⟩ := alone_withTokenAtoiAtoi_eq h
    obtain ⟨pw, hpw⟩ : ∃ pw, remoteWrite t (sizeT (atoi v)) (atoi w)
        ((Callback.write fh buf size offset).request.take k) = some pw := by
      obtain ⟨-, -, ha⟩ := served_of_handled hc
      rw [Call.action, Option.isSome_map] at ha
      exact Option.isSome_iff_exists.mp ha
    have hr := os.pwrite_range pw
    have hresp : (Call.write t (sizeT (atoi v)) (atoi w)
        ((Callback.write fh buf size offset).request.take k)).response os =
          some (os.memory (dec (os.pwrite pw))) := by
      rw [Call.response, hpw]
      rfl
    rw [received_dec os n hresp (by omega) hr.2, Call.Refuses, Call.succeeds, hpw]
    refine (agrees_int hr.1 hr.2 n b).trans (Iff.trans ?_ (and_iff_right trivial).symm)
    simp
  | truncate path newsize =>
    have h := handled_called "truncate".toList rfl (by decide) hn hc
    obtain ⟨t, v, -, -, rfl⟩ := alone_withTokenAtoi_eq h
    have hr := os.truncate_range (os.fullPath t) (atoi v)
    rw [received_dec os n rfl (by omega) (by omega)]
    exact (agrees_int (by omega) (by omega) n b).trans (and_iff_right trivial).symm
  | create path mode =>
    have h :=
      handled_called "create".toList Callback.create_request (by decide) hn hc
    obtain ⟨t, v, -, -, rfl⟩ := alone_withTokenAtoi_eq h
    have hr := os.creat_range (os.fullPath t) (modeT (atoi v))
    rw [received_dec os n rfl (by omega) hr.2]
    exact (agrees_open hr.1 hr.2 n b).trans (and_iff_right trivial).symm
  | unlink path =>
    have h := handled_called "unlink".toList rfl (by decide) hn hc
    obtain ⟨t, -, rfl⟩ := alone_withToken_eq h
    exact (agrees_nonneg (Int.le_refl 0) b).trans (and_iff_right trivial).symm

theorem Call.holdsWhen_iff {c : Call} (ha : c.action.isSome = true) :
    c.HoldsWhen os n ↔ c.Answers os n ∧ (c.Refuses os n ↔ c.succeeds os ≠ some true) := by
  cases c with
  | getattr path =>
    rw [Call.HoldsWhen, Call.Answers, Call.Refuses, Call.succeeds]
    generalize (os.lstat (os.fullPath path)).getD os.uninit = st
    refine and_congr_right fun _ => ?_
    have hfail : some (os.lstat (os.fullPath path)).isSome ≠ some true ↔
        ¬ (os.lstat (os.fullPath path)).isSome = true := by
      rw [ne_eq, Option.some.injEq]
    rw [hfail]
    constructor
    · intro h
      rw [h]
      omega
    · intro h
      by_cases hs : (os.lstat (os.fullPath path)).isSome = true
      · have hst := mt h.mp (not_not.mpr hs)
        exact iff_of_true hs (by omega)
      · have hst := h.mpr hs
        exact iff_of_false hs (by omega)
  | «open» path flags =>
    have hr := os.open_range (os.fullPath path) flags
    simp only [Call.HoldsWhen, Call.Answers, Call.Refuses, Call.succeeds, ne_eq,
      Option.some.injEq, decide_eq_true_iff, not_not, true_and]
    omega
  | create path mode =>
    have hr := os.creat_range (os.fullPath path) mode
    simp only [Call.HoldsWhen, Call.Answers, Call.Refuses, Call.succeeds, ne_eq,
      Option.some.injEq, decide_eq_true_iff, not_not, true_and]
    omega
  | opendir path =>
    have hp : os.opendir (os.fullPath path) = 0 ↔ (os.opendir (os.fullPath path)).toNat = 0 :=
      UInt64.toNat_inj.symm
    simp only [Call.HoldsWhen, Call.Answers, Call.Refuses, Call.succeeds, ne_eq,
      Option.some.injEq, decide_eq_true_iff, not_not, true_and, hp]
    generalize (os.opendir (os.fullPath path)).toNat = p
    have hle := Nat.div_le_self p (10 ^ ((decNat p).length - n))
    generalize p / 10 ^ ((decNat p).length - n) = q at hle ⊢
    omega
  | mkdir path mode | truncate path newsize =>
    simp only [Call.HoldsWhen, Call.Answers, Call.Refuses, Call.succeeds, ne_eq,
      Option.some.injEq, decide_eq_true_iff, not_not, true_and]
    omega
  | write pointer size offset buffer =>
    rw [Call.action, Option.isSome_map] at ha
    obtain ⟨w, hw⟩ := Option.isSome_iff_exists.mp ha
    simp only [Call.HoldsWhen, Call.Answers, Call.Refuses, Call.succeeds, hw, Option.map_some,
      ne_eq, Option.some.injEq, decide_eq_true_iff, decide_eq_false_iff_not, not_not, true_and]
    omega
  | readdir | releasedir | read | release | unlink =>
    simp [Call.HoldsWhen, Call.Answers, Call.Refuses]

end

/-- If the request arrives whole, they agree as the call that the callback asks for does. -/
theorem Callback.agrees_iff_of_whole (os : Os) {cb : Callback} (h : cb.WellFormed)
    (hl : cb.request.length < 4096) (hk : cb.request.length ≤ requested) (responded : Nat) :
    (cb.outcome os (.connected requested responded)).Agrees ↔ cb.call.HoldsWhen os responded := by
  have hw := handled_request cb h hl
  rw [← List.take_of_length_le hk] at hw
  obtain ⟨-, -, ha⟩ := served_of_handled hw
  rw [Callback.outcome, sendRequestToServer, hw, Call.holdsWhen_iff os responded ha]
  dsimp only [Option.bind_some]
  rw [if_pos rfl]
  exact Callback.agrees_iff_of_called os responded (nul_notMem_of_wellFormed h) hw _

/-- A callback's result agrees with what happened on the server exactly under these conditions on
what the system calls return, on how far the messages come and on which callback it is. -/
theorem outcome_agrees_iff (os : Os) (conn : Connection) (cb : Callback) (hn : nul ∉ cb.request) :
    (cb.outcome os conn).Agrees ↔ cb.HoldsWhen os conn := by
  cases conn with
  | socketError | connectError => exact cb.agrees_iff_opens
  | connected requested responded =>
    rw [Callback.outcome, sendRequestToServer, Callback.HoldsWhen]
    cases hc : handled (cb.request.take requested) with
    | called call =>
      have hagrees := Callback.agrees_iff_of_called os responded hn hc
      dsimp only [Option.bind_some]
      split
      · rw [Call.holdsWhen_iff os responded (served_of_handled hc).2.2]
        exact hagrees _
      · -- the callback's own system call was not made
        refine (hagrees none).trans (and_congr_right fun _ => ?_)
        exact iff_true_right nofun
    | crashed => exact cb.agrees_iff_opens
    | undefined => exact iff_of_false (Outcome.not_agrees_none _) id

/-- A system all of whose calls fail. -/
def Os.failing : Os where
  rootPath := "/srv".toList
  lstat _ := none
  opendir _ := 0
  entries _ := []
  «open» _ _ := -1
  creat _ _ := -1
  truncate _ _ := -1
  mkdir _ _ := -1
  unlink _ := -1
  pread _ _ _ := none
  pwrite _ := -1
  close _ := -1
  closedir _ := -1
  uninit := ⟨0, 0, 0, 0, 0, 0, 0, 0, 0, 0, by decide, by decide, by decide⟩
  heap := []
  open_range _ _ := by decide
  creat_range _ _ := by decide
  truncate_range _ _ := .inr rfl
  mkdir_range _ _ := .inr rfl
  pwrite_range _ := by decide

/-- A failed `mkdir` is told, also where only "mkdir, /abc, 4" has come; of "unlink, /abc" the
first ten characters are enough for another file to be unlinked, and that is not told. -/
theorem outcome_agrees_iff_mkdir :
    ((Callback.mkdir "/abc".toList 493).outcome Os.failing (.connected 4096 4096)).Agrees ∧
      ((Callback.mkdir "/abc".toList 493).outcome Os.failing (.connected 14 4096)).Agrees ∧
      ¬ ((Callback.unlink "/abc".toList).outcome Os.failing (.connected 10 4096)).Agrees := by
  have hwhole : handled ((Callback.mkdir "/abc".toList 493).request.take 4096) =
      .called (.mkdir "/abc".toList 493) := rfl
  have hcut : handled ((Callback.mkdir "/abc".toList 493).request.take 14) =
      .called (.mkdir "/abc".toList 4) := rfl
  have hother : handled ((Callback.unlink "/abc".toList).request.take 10) =
      .called (.unlink "/a".toList) := rfl
  refine ⟨(outcome_agrees_iff _ _ _ (by decide)).mpr ?_,
    (outcome_agrees_iff _ _ _ (by decide)).mpr ?_,
    fun h => ?_⟩
  · rw [Callback.HoldsWhen, hwhole]
    exact .inr (by decide)
  · rw [Callback.HoldsWhen, hcut]
    exact ⟨trivial, by decide, by decide⟩
  · have hholds := (outcome_agrees_iff _ _ _ (by decide)).mp h
    rw [Callback.HoldsWhen, hother] at hholds
    exact hholds.2

/-- Unlinking a file that is not there succeeds. -/
theorem outcome_not_agrees : ¬ ∀ (os : Os) (conn : Connection) (cb : Callback), cb.WellFormed →
    cb.request.length < 4096 → (cb.outcome os conn).Agrees := by
  intro h
  obtain ⟨v, hv, ha⟩ := h Os.failing (.connected 4096 4096) (.unlink "/a".toList)
    ⟨by decide, by decide⟩ (by decide)
  have hr : ((Callback.unlink "/a".toList).outcome Os.failing (.connected 4096 4096)).returned =
      some 0 := by decide
  have hs : ((Callback.unlink "/a".toList).outcome Os.failing (.connected 4096 4096)).syscall ≠
      some true := by decide
  obtain rfl := Option.some.inj (hr.symm.trans hv)
  exact absurd (ha.mpr hs) (by decide)

end NoblesseOblige.Snfs
