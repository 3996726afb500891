import NoblesseOblige.Snfs.Client
import NoblesseOblige.Snfs.Server

namespace NoblesseOblige.Snfs
open CString
set_option autoImplicit true

/-- A text that `strtok` returns whole. -/
def Plain (s : Text) : Prop := s ≠ [] ∧ ∀ c ∈ s, delim c = false

instance : DecidablePred Plain := fun s =>
  decidable_of_iff ((!s.isEmpty && s.all fun c => !delim c) = true) (by simp [Plain])

theorem delim_of_isDigit {c : Char} (h : c.isDigit = true) : delim c = false := by
  have hs : c ≠ ' ' := by
    rintro rfl
    cases h
  have hc : c ≠ ',' := by
    rintro rfl
    cases h
  simp [delim, hs, hc]

theorem plain_decNat (n : Nat) : Plain (decNat n) :=
  ⟨decNat_ne_nil n, fun _ hc => delim_of_isDigit (isDigit_of_mem_decNat hc)⟩

theorem plain_dec (v : Int) : Plain (dec v) := by
  unfold dec
  split
  · refine ⟨List.cons_ne_nil _ _, fun c hc => ?_⟩
    rcases List.mem_cons.mp hc with rfl | hc
    · rfl
    · exact (plain_decNat _).2 c hc
  · exact plain_decNat _

theorem nul_notMem_decNat (n : Nat) : nul ∉ decNat n := fun h =>
  absurd (isDigit_of_mem_decNat h) (by decide)

theorem nul_notMem_dec (v : Int) : nul ∉ dec v := by
  unfold dec
  split
  · intro h
    rcases List.mem_cons.mp h with h | h
    · exact absurd h (by decide)
    · exact nul_notMem_decNat _ h
  · exact nul_notMem_decNat _

theorem Plain.comma_notMem (h : Plain s) : ',' ∉ s := fun hm =>
  absurd (h.2 ',' hm) (by decide)

theorem Plain.strtok_sep (h : Plain s) (rest : Text) :
    strtok delim (s ++ (", ".toList ++ rest)) = (some s, ' ' :: rest) :=
  strtok_token h.1 h.2 rfl

theorem Plain.strtok_end (h : Plain s) : strtok delim s = (some s, []) := strtok_last h.1 h.2

theorem strtok_space (s : Text) : strtok delim (' ' :: s) = strtok delim s := strtok_delim rfl

/-- A text is the first token of itself only if it has no delimiter. -/
theorem plain_of_strtok (h : (strtok delim (s ++ t)).1 = some s) : Plain s := by
  cases hs : strtok delim (s ++ t) with
  | mk w s' =>
    rw [hs] at h
    obtain rfl : w = some s := h
    exact strtok_spec hs

theorem recvText_whole (h : r.length ≤ 4096) (hn : nul ∉ r) : recvText 4096 [r] = r := by
  rw [recvText, List.take_of_length_le h, cstr_eq_self hn]

/-- A whole request is switched on the name before its first delimiter. -/
theorem served_of_name {r rest : Text} (name : Text) (prog : Prog (Option Call))
    (hr : r = name ++ (", ".toList ++ rest)) (hs : requestHandler r (some name) = prog)
    (hw : Plain name) (hl : r.length < 4096) (hn : nul ∉ r) :
    served [r] = prog.alone delim (' ' :: rest) := by
  have ht : strtok delim r = (some name, ' ' :: rest) := hr ▸ hw.strtok_sep rest
  rw [served, recvText_whole (by omega) hn, Job.alone]
  simp only [requestJob, ht, hs]

theorem alone_withToken (call : Text → Call) (s : Text) :
    (withToken call).alone delim (' ' :: s) = (strtok delim s).1.map call := by
  rw [withToken, Prog.alone, strtok_space]
  rfl

theorem alone_next {k : Option Text → Prog R} (h : strtok delim s = (t, s')) :
    (Prog.next k).alone delim s = (k t).alone delim s' := by
  rw [Prog.alone, h]

theorem alone_withAtoi {k : Int → Prog (Option Call)} (h : strtok delim s = (some t, s')) :
    (withAtoi k).alone delim s = (k (atoi t)).alone delim s' :=
  alone_next h

theorem alone_withTokenAtoi {a b s s' : Text} (call : Text → Int → Call) (ha : Plain a)
    (hb : strtok delim s = (some b, s')) :
    (withTokenAtoi call).alone delim (' ' :: (a ++ (", ".toList ++ s))) =
      some (call a (atoi b)) := by
  have h₁ := (strtok_space _).trans (ha.strtok_sep s)
  exact (alone_next h₁).trans (alone_withAtoi ((strtok_space s).trans hb))

theorem alone_withTokenAtoiAtoi {a b c s s' : Text} (call : Text → Int → Int → Call)
    (ha : Plain a) (hb : Plain b) (hc : strtok delim s = (some c, s')) :
    (withTokenAtoiAtoi call).alone delim
      (' ' :: (a ++ (", ".toList ++ (b ++ (", ".toList ++ s))))) =
        some (call a (atoi b) (atoi c)) := by
  have h₁ := (strtok_space _).trans (ha.strtok_sep (b ++ (", ".toList ++ s)))
  have h₂ := (strtok_space _).trans (hb.strtok_sep s)
  have h₃ := (strtok_space s).trans hc
  exact (alone_next h₁).trans ((alone_withAtoi h₂).trans (alone_withAtoi h₃))

theorem modeT_natCast {n : Nat} (h : n < 2 ^ 31) : modeT n = n := by
  unfold modeT
  omega

theorem served_path_iff {r path : Text} (hl : r.length < 4096) (hn : nul ∉ r) (hp : path ≠ [])
    (name : Text) (call : Text → Call) (hr : r = name ++ (", ".toList ++ path))
    (hs : requestHandler r (some name) = withToken call) (hw : Plain name)
    (hc : ∀ s t, call s = call t → s = t) :
    served [r] = some (call path) ↔ ∀ c ∈ path, delim c = false := by
  rw [served_of_name name (withToken call) hr hs hw hl hn, alone_withToken]
  constructor
  · intro h
    obtain ⟨w, ht, he⟩ := Option.map_eq_some_iff.mp h
    obtain rfl := hc w path he
    have hfst : (strtok delim (w ++ [])).1 = some w := (List.append_nil w).symm ▸ ht
    exact (plain_of_strtok hfst).2
  · intro h
    rw [strtok_last hp h]
    rfl

theorem served_pathArg_iff {r path : Text} {v : Int} (hl : r.length < 4096) (hn : nul ∉ r)
    (hp : path ≠ []) (h0 : 0 ≤ v) (h31 : v < 2 ^ 31) (name : Text) (call : Text → Int → Call)
    (hr : r = name ++ (", ".toList ++ (path ++ (", ".toList ++ dec v))))
    (hs : requestHandler r (some name) = withTokenAtoi call) (hw : Plain name)
    (hc : ∀ s t w, call s w = call t v → s = t) :
    served [r] = some (call path v) ↔ ∀ c ∈ path, delim c = false := by
  rw [served_of_name name (withTokenAtoi call) hr hs hw hl hn]
  constructor
  · intro h
    rw [withTokenAtoi, Prog.alone, strtok_space] at h
    cases hs : strtok delim (path ++ (", ".toList ++ dec v)) with
    | mk w s =>
      rw [hs] at h
      simp only [withAtoi, Prog.alone] at h
      cases ht : (strtok delim s).1 with
      | none =>
        rw [ht] at h
        cases h
      | some t =>
        simp only [ht, Prog.alone] at h
        obtain ⟨u, hu, he⟩ := Option.map_eq_some_iff.mp h
        obtain rfl := hc u path _ he
        have hfst : (strtok delim (u ++ (", ".toList ++ dec v))).1 = some u := by
          rw [hs]
          exact hu
        exact (plain_of_strtok hfst).2
  · intro h
    rw [alone_withTokenAtoi call ⟨hp, h⟩ (plain_dec v).strtok_end,
      atoi_dec (by omega : -2 ^ 31 ≤ v) h31]

/-- The path operations, with the path and the call of the same name and arguments. -/
def Callback.pathCall : Callback → Option (Text × Call)
  | .getattr path => some (path, .getattr path)
  | .readdir path => some (path, .readdir path)
  | .opendir path => some (path, .opendir path)
  | .mkdir path mode => some (path, .mkdir path mode)
  | .open path flags => some (path, .open path flags)
  | .truncate path newsize => some (path, .truncate path newsize)
  | .create path mode => some (path, .create path mode)
  | .unlink path => some (path, .unlink path)
  | _ => none

def Callback.ArgInRange : Callback → Prop
  | .mkdir _ mode => mode < 2 ^ 31
  | .open _ flags => 0 ≤ flags ∧ flags < 2 ^ 31
  | .truncate _ newsize => 0 ≤ newsize ∧ newsize < 2 ^ 31
  | .create _ mode => mode < 2 ^ 31
  | _ => True

theorem notMem_append {c : Char} {s t : Text} (h : c ∉ s) (h' : c ∉ t) : c ∉ s ++ t := fun hm =>
  (List.mem_append.mp hm).elim h h'

theorem Callback.nul_notMem_request {cb : Callback} (h : cb.pathCall = some (path, call))
    (hn : nul ∉ path) : nul ∉ cb.request := by
  cases cb <;> cases h
  case getattr => exact notMem_append (by decide) hn
  case readdir => exact notMem_append (by decide) hn
  case opendir => exact notMem_append (by decide) hn
  case unlink => exact notMem_append (by decide) hn
  all_goals
    refine notMem_append (notMem_append (by decide) hn) ?_
    exact notMem_append (by decide) (nul_notMem_dec _)

/-- The server calls the operation of a path request on the client's path exactly if no character
of the path is a delimiter. -/
theorem path_served_iff (cb : Callback) (path : Text) (call : Call)
    (hcall : cb.pathCall = some (path, call)) (habs : path.head? = some '/') (hnul : nul ∉ path)
    (hlen : cb.request.length < 4096) (harg : cb.ArgInRange) :
    served [cb.request] = some call ↔ ∀ c ∈ path, delim c = false := by
  have hp : path ≠ [] := by
    rintro rfl
    cases habs
  have hn := Callback.nul_notMem_request hcall hnul
  cases cb <;> cases hcall
  case getattr =>
    exact served_path_iff hlen hn hp "getattr".toList .getattr rfl (requestHandler_getattr _)
      (by decide) fun _ _ => Call.getattr.inj
  case readdir =>
    exact served_path_iff hlen hn hp "readdir".toList .readdir rfl (requestHandler_readdir _)
      (by decide) fun _ _ => Call.readdir.inj
  case opendir =>
    exact served_path_iff hlen hn hp "opendir".toList .opendir rfl (requestHandler_opendir _)
      (by decide) fun _ _ => Call.opendir.inj
  case unlink =>
    exact served_path_iff hlen hn hp "unlink".toList .unlink rfl (requestHandler_unlink _)
      (by decide) fun _ _ => Call.unlink.inj
  case «open» flags =>
    exact served_pathArg_iff hlen hn hp harg.1 harg.2 "open".toList .open rfl
      (requestHandler_open _) (by decide) fun _ _ _ h => (Call.open.inj h).1
  case truncate newsize =>
    have hv : toInt newsize = newsize := toInt_of_nonneg harg.1 harg.2
    exact served_pathArg_iff hlen hn hp harg.1 harg.2 "truncate".toList .truncate
      (congrArg (fun v => "truncate, ".toList ++ path ++ (", ".toList ++ dec v)) hv)
      (requestHandler_truncate _) (by decide) fun _ _ _ h => (Call.truncate.inj h).1
  case mkdir mode =>
    have hm : (mode : Int) < 2 ^ 31 := by exact_mod_cast harg
    have hv : toInt mode = mode := toInt_of_nonneg (Int.natCast_nonneg mode) hm
    have h := served_pathArg_iff hlen hn hp (Int.natCast_nonneg mode) hm "mkdir".toList
      (fun path v => .mkdir path (modeT v))
      (congrArg (fun v => "mkdir, ".toList ++ path ++ (", ".toList ++ dec v)) hv)
      (requestHandler_mkdir _) (by decide) fun _ _ _ h => (Call.mkdir.inj h).1
    rwa [modeT_natCast harg] at h
  case create mode =>
    have hm : (mode : Int) < 2 ^ 31 := by exact_mod_cast harg
    have hv : toInt mode = mode := toInt_of_nonneg (Int.natCast_nonneg mode) hm
    have h := served_pathArg_iff hlen hn hp (Int.natCast_nonneg mode) hm "create".toList
      (fun path v => .create path (modeT v))
      (congrArg (fun v => "create, ".toList ++ path ++ (", ".toList ++ dec v)) hv)
      (requestHandler_create _) (by decide) fun _ _ _ h => (Call.create.inj h).1
    rwa [modeT_natCast harg] at h

theorem path_served_iff_plain : served [(Callback.truncate "/a".toList 5).request] =
    some (.truncate "/a".toList 5) ↔ ∀ c ∈ "/a".toList, delim c = false :=
  path_served_iff (.truncate "/a".toList 5) "/a".toList (.truncate "/a".toList 5) rfl (by decide)
    (by decide) (by decide) ⟨by decide, by decide⟩

/-- Unlinking "/a b" unlinks "/a". -/
theorem path_not_served : ¬ ∀ (cb : Callback) (path : Text) (call : Call),
    cb.pathCall = some (path, call) → path.head? = some '/' → nul ∉ path →
      cb.request.length < 4096 → cb.ArgInRange → served [cb.request] = some call := by
  intro h
  have := h (.unlink "/a b".toList) "/a b".toList (.unlink "/a b".toList) rfl (by decide)
    (by decide) (by decide) trivial
  revert this
  decide

end NoblesseOblige.Snfs
