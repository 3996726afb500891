import NoblesseOblige.Snfs.Outcome

namespace NoblesseOblige.Snfs
open CString
set_option autoImplicit true

structure Host extends Os where
  calloc : Nat → Bool
  closable : UInt64 → Bool

/-- How a thread of `request_handler` ends: it has sent a response, it has none to send or its
connection is closed, it has sent and freed a pointer that was never set, it has written outside
`rec_data`, or it has used a pointer that is none. -/
inductive Ending
  | sent (response : List Char)
  | unsent
  | uninitialised
  | overrun (index : Int)
  | crashed
  deriving DecidableEq

def Call.reply (os : Os) (call : Call) : Ending :=
  match call.response os with
  | some memory => .sent (memory.take 4096)
  | none => if call.action.isSome then .unsent else .crashed

def Call.ending (host : Host) (connected : Int) (call : Call) : Ending :=
  match call with
  | .releasedir pointer =>
    if host.closable (strtoull pointer) then call.reply host.toOs else .crashed
  | .read _ size _ => if host.calloc size then call.reply host.toOs else .unsent
  | .release pointer => if atoi pointer = connected then .unsent else call.reply host.toOs
  | _ => call.reply host.toOs

/-- A thread of `request_handler` on its connection, with what `recv` gives it: nothing if that
fails, else the bytes that are there, as far as they fit. -/
def requestEnding (host : Host) (connected : Int) (received : Option (List Char)) : Ending :=
  match received with
  | none => .overrun (-1)
  | some bytes =>
    let recData := bytes.take 4096
    if recData.length = 4096 then .overrun 4096
    else
      match served [recData] with
      | some call => call.ending host connected
      | none =>
        match (strtok delim (cstr recData)).1 with
        | some firstarg => if (operands firstarg).isSome then .crashed else .uninitialised
        | none => .crashed

def Call.Answered (host : Host) (connected : Int) (call : Call) : Prop :=
  call.action.isSome = true ∧
    match call with
    | .readdir path => host.opendir (host.fullPath path) ≠ 0
    | .read _ size _ => host.calloc size = true
    | .release pointer => atoi pointer ≠ connected
    | .releasedir pointer => host.closable (strtoull pointer) = true
    | _ => True

/-- The text that was received names an operation and has its operands. The system can open what
is to be listed and has room for what is to be read; what is to be released is not the connection
itself, and is a directory if it is to be released as one. -/
structure Answerable (host : Host) (connected : Int) (text : Text) : Prop where
  complete : ∃ m num, Complete text m num
  readdir : token delim 0 text = some "readdir".toList → ∀ path, token delim 1 text = some path →
    host.opendir (host.fullPath path) ≠ 0
  read : token delim 0 text = some "read".toList → ∀ size, token delim 2 text = some size →
    host.calloc (sizeT (atoi size)) = true
  release : token delim 0 text = some "release".toList → ∀ fd, token delim 1 text = some fd →
    atoi fd ≠ connected
  releasedir : token delim 0 text = some "releasedir".toList → ∀ p, token delim 1 text = some p →
    host.closable (strtoull p) = true

theorem reply_sent_iff (os : Os) (call : Call) :
    (∃ response, call.reply os = .sent response) ↔
      call.action.isSome = true ∧
        ∀ path, call = .readdir path → os.opendir (os.fullPath path) ≠ 0 := by
  cases call with
  | readdir path =>
    rw [Call.reply, Call.response]
    by_cases hd : os.opendir (os.fullPath path) ≠ 0
    · rw [if_pos hd]
      exact iff_of_true ⟨_, rfl⟩ ⟨rfl, fun p hp => Call.readdir.inj hp ▸ hd⟩
    · rw [if_neg hd]
      exact iff_of_false (by simp [Call.action]) fun h => hd (h.2 path rfl)
  | write pointer size offset buffer =>
    rw [Call.reply, Call.response, Call.action]
    cases remoteWrite pointer size offset buffer with
    | none => exact iff_of_false (by simp) (by simp)
    | some w => exact iff_of_true ⟨_, rfl⟩ ⟨rfl, fun _ hp => by cases hp⟩
  | _ => exact iff_of_true ⟨_, rfl⟩ ⟨rfl, fun _ hp => by cases hp⟩

theorem exists_sent_ite {c : Prop} [Decidable c] {e e' : Ending}
    (h : ∀ response, e' ≠ .sent response) :
    (∃ response, (if c then e else e') = .sent response) ↔
      c ∧ ∃ response, e = .sent response := by
  split
  · rw [and_iff_right ‹c›]
  · exact iff_of_false (fun hr => h _ hr.choose_spec) fun hr => ‹¬ c› hr.1

theorem ending_sent_iff (host : Host) (connected : Int) (call : Call) :
    (∃ response, call.ending host connected = .sent response) ↔ call.Answered host connected := by
  have hreply := reply_sent_iff host.toOs call
  cases call with
  | readdir path =>
    exact hreply.trans ⟨fun h => ⟨h.1, h.2 path rfl⟩, fun h => ⟨h.1, fun p hp =>
      Call.readdir.inj hp ▸ h.2⟩⟩
  | read pointer size offset =>
    rw [Call.ending, exists_sent_ite (by simp), hreply]
    exact ⟨fun h => ⟨h.2.1, h.1⟩, fun h => ⟨h.2, h.1, fun _ hp => by cases hp⟩⟩
  | release pointer =>
    rw [Call.ending, ← ite_not, exists_sent_ite (by simp), hreply]
    exact ⟨fun h => ⟨h.2.1, h.1⟩, fun h => ⟨h.2, h.1, fun _ hp => by cases hp⟩⟩
  | releasedir pointer =>
    rw [Call.ending, exists_sent_ite (by simp), hreply]
    exact ⟨fun h => ⟨h.2.1, h.1⟩, fun h => ⟨h.2, h.1, fun _ hp => by cases hp⟩⟩
  | _ => exact hreply.trans ⟨fun h => ⟨h.1, trivial⟩, fun h => ⟨h.1, fun _ hp => by cases hp⟩⟩

theorem answered_iff (host : Host) (connected : Int) (text : Text) :
    (∃ call, (requestJob text).alone delim = some call ∧ call.Answered host connected) ↔
      Answerable host connected text := by
  constructor
  · rintro ⟨call, hc, ha⟩
    constructor
    · rw [← exec_isSome_iff, exec, hc]
      exact ha.1
    · intro h path hp
      rw [alone_of_name h, requestHandler_readdir] at hc
      obtain ⟨t, ht, rfl⟩ := alone_withToken_eq hc
      obtain rfl := Option.some.inj (ht.symm.trans hp)
      exact ha.2
    · intro h size hs
      rw [alone_of_name h, requestHandler_read] at hc
      obtain ⟨t, u, v, -, hu, -, rfl⟩ := alone_withTokenAtoiAtoi_eq hc
      obtain rfl := Option.some.inj (hu.symm.trans hs)
      obtain ⟨-, hcall⟩ := ha
      exact hcall
    · intro h fd hfd
      rw [alone_of_name h, requestHandler_release] at hc
      obtain ⟨t, ht, rfl⟩ := alone_withToken_eq hc
      obtain rfl := Option.some.inj (ht.symm.trans hfd)
      exact ha.2
    · intro h p hp
      rw [alone_of_name h, requestHandler_releasedir] at hc
      obtain ⟨t, ht, rfl⟩ := alone_withToken_eq hc
      obtain rfl := Option.some.inj (ht.symm.trans hp)
      exact ha.2
  · intro h
    obtain ⟨a, ha⟩ := Option.isSome_iff_exists.mp (exec_isSome_iff.mpr h.complete)
    obtain ⟨call, hc, ha⟩ := Option.bind_eq_some_iff.mp ha
    have hs : call.action.isSome = true := by rw [ha]; rfl
    obtain ⟨hname, ho⟩ := alone_spec hc
    refine ⟨call, hc, hs, ?_⟩
    cases call with
    | readdir path => exact h.readdir hname path ho
    | read pointer size offset =>
      have hread : token delim 0 text = some "read".toList := hname
      rw [alone_of_name hread, requestHandler_read] at hc
      obtain ⟨t, u, v, -, hu, -, he⟩ := alone_withTokenAtoiAtoi_eq hc
      simp only [Call.read.injEq] at he
      rw [he.2.1]
      exact h.read hread u hu
    | release pointer => exact h.release hname pointer ho
    | releasedir pointer => exact h.releasedir hname pointer ho
    | _ => trivial

/-- A request is answered exactly if it is shorter than the buffer, is complete, and the system
can do its part. -/
theorem survives_iff (host : Host) (connected : Int) (received : Option (List Char)) :
    (∃ response, requestEnding host connected received = .sent response) ↔
      ∃ bytes, received = some bytes ∧ bytes.length < 4096 ∧
        Answerable host connected (cstr bytes) := by
  cases received with
  | none => exact iff_of_false (by simp [requestEnding]) (by simp)
  | some bytes =>
    simp only [Option.some.injEq, exists_eq_left']
    rw [requestEnding]
    by_cases hl : bytes.length < 4096
    · have ht : bytes.take 4096 = bytes := List.take_of_length_le (by omega)
      have hs : served [bytes] = (requestJob (cstr bytes)).alone delim := by
        rw [served, recvText, ht]
      rw [and_iff_right hl, ← answered_iff, ht, if_neg (by omega), hs]
      cases (requestJob (cstr bytes)).alone delim with
      | some call => simp [ending_sent_iff]
      | none =>
        refine iff_of_false ?_ (by simp)
        rintro ⟨r, hr⟩
        dsimp only at hr
        split at hr
        · split at hr <;> cases hr
        · cases hr
    · have ht : (bytes.take 4096).length = 4096 := by
        rw [List.length_take]
        omega
      rw [if_pos ht]
      exact iff_of_false (by simp) fun h => hl h.1

def Os.host (os : Os) : Host := { os with calloc := fun _ => true, closable := fun _ => true }

theorem not_survives : ¬ ∀ (host : Host) (connected : Int) (received : Option (List Char)),
    ∃ response, requestEnding host connected received = .sent response := by
  intro h
  obtain ⟨r, hr⟩ := h Os.failing.host 4 (some " ,".toList)
  have hc : requestEnding Os.failing.host 4 (some " ,".toList) = .crashed := by decide
  cases hc.symm.trans hr

end NoblesseOblige.Snfs
