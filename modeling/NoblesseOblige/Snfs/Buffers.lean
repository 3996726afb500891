import NoblesseOblige.Buffer
import NoblesseOblige.Snfs.Widths

namespace NoblesseOblige.Snfs
open CString
set_option autoImplicit true

/-- The array every callback starts with, which holds the operation's name. -/
def namedRequest (size : Nat) (name : Text) : Option Buffer := do
  let request ← calloc size
  request.strcpy name

/-- The operations that send a path. -/
def pathRequest (size : Nat) (name path : Text) : Option Buffer := do
  let request ← namedRequest size name
  request.strcat path

/-- The operations that send a number after the path, printed to an array of its own. -/
def pathNumberRequest (size : Nat) (name path number : Text) : Option Buffer := do
  let request ← pathRequest size name path
  let field ← sprintf 32 number
  request.strcat field.text

/-- The operations on a handle, printed to an array of its own with the numbers after it. -/
def handleRequest (size : Nat) (name : Text) (fieldSize : Nat) (numbers : Text) :
    Option Buffer := do
  let request ← namedRequest size name
  let field ← sprintf fieldSize numbers
  request.strcat field.text

/-- The request of a callback as it is put together, if no array is overrun on the way. -/
def Callback.buildRequest : Callback → Option Buffer
  | .getattr path => pathRequest (10 + path.length) "getattr, ".toList path
  | .readdir path => pathRequest (10 + path.length) "readdir, ".toList path
  | .open path flags =>
    pathNumberRequest (42 + path.length) "open, ".toList path (", ".toList ++ dec flags)
  | .read fh size offset => handleRequest 74 "read, ".toList 64
      (decNat fh.toNat ++ ", ".toList ++ dec (toInt size) ++ ", ".toList ++ dec (toInt offset))
  | .opendir path => pathRequest (10 + path.length) "opendir, ".toList path
  | .releasedir fh => handleRequest 47 "releasedir, ".toList 32 (decNat fh.toNat)
  | .mkdir path mode =>
    pathNumberRequest (42 + path.length) "mkdir, ".toList path (", ".toList ++ dec (toInt mode))
  | .release fh => handleRequest 42 "release, ".toList 32 (decNat fh.toNat)
  | .write fh buf size offset => do
    let request ← handleRequest (74 + buf.length) "write, ".toList 64
      (decNat fh.toNat ++ ", ".toList ++ dec (toInt size) ++ ", ".toList ++ dec (toInt offset) ++
        ", ".toList)
    request.strcat buf
  | .truncate path newsize => pathNumberRequest (42 + path.length) "truncate, ".toList path
      (", ".toList ++ dec (toInt newsize))
  | .create path mode =>
    pathNumberRequest (42 + path.length) "create, ".toList path (", ".toList ++ dec (toInt mode))
  | .unlink path => pathRequest (10 + path.length) "unlink, ".toList path

/-- How many bytes each callback allocates for it. -/
def Callback.requestSize : Callback → Nat
  | .getattr path | .readdir path | .opendir path | .unlink path => 10 + path.length
  | .open path _ | .mkdir path _ | .truncate path _ | .create path _ => 42 + path.length
  | .read _ _ _ => 74
  | .releasedir _ => 47
  | .release _ => 42
  | .write _ buf _ _ => 74 + buf.length

theorem namedRequest_builds (size : Nat) (name : Text) :
    Builds (namedRequest size name) size name := by
  refine (calloc_builds size).bind (fun request hsize _ => ?_) Nat.zero_lt_of_lt
  rw [← hsize]
  exact request.strcpy_builds name

theorem pathRequest_builds (size : Nat) (name path : Text) :
    Builds (pathRequest size name path) size (name ++ path) :=
  (namedRequest_builds size name).strcat path

theorem pathNumberRequest_builds (size : Nat) (name path : Text) {number : Text}
    (hn : number.length < 32) :
    Builds (pathNumberRequest size name path number) size (name ++ path ++ number) :=
  (pathRequest_builds size name path).strcat_field hn

theorem handleRequest_builds (size : Nat) (name : Text) {numbers : Text}
    (hn : numbers.length < fieldSize) :
    Builds (handleRequest size name fieldSize numbers) size (name ++ numbers) :=
  (namedRequest_builds size name).strcat_field hn

theorem dec_toInt_length (v : Int) : (dec (toInt v)).length ≤ 11 :=
  dec_length (toInt_bounds v).1 (toInt_bounds v).2

/-- The `flags` of an `open` are an `int`. -/
def Callback.IntFlags : Callback → Prop
  | .open _ flags => FitsInt flags
  | _ => True

/-- `", %d"` -/
theorem number_length (h : (dec v).length ≤ 11) : (", ".toList ++ dec v).length ≤ 13 := by
  have hsep : (", ".toList).length = 2 := by decide
  rw [List.length_append, hsep]
  omega

/-- `"%lu, %d, %d"` -/
theorem info_length (fh : UInt64) (size offset : Int) :
    (decNat fh.toNat ++ ", ".toList ++ dec (toInt size) ++ ", ".toList ++
      dec (toInt offset)).length ≤ 46 := by
  have hsep : (", ".toList).length = 2 := by decide
  have hfh := decNat_length fh
  have hsize := dec_toInt_length size
  have hoffset := dec_toInt_length offset
  simp only [List.length_append, hsep]
  omega

/-- `"%lu, %d, %d, "` -/
theorem writeInfo_length (fh : UInt64) (size offset : Int) :
    (decNat fh.toNat ++ ", ".toList ++ dec (toInt size) ++ ", ".toList ++ dec (toInt offset) ++
      ", ".toList).length ≤ 48 := by
  have hsep : (", ".toList).length = 2 := by decide
  have hinfo := info_length fh size offset
  rw [List.length_append, hsep]
  omega

/-- No field overruns its array, so a request is built wherever all of it has room. -/
theorem Callback.buildRequest_builds (cb : Callback) (h : cb.IntFlags) :
    Builds cb.buildRequest cb.requestSize cb.request := by
  cases cb with
  | getattr path | readdir path | opendir path | unlink path => exact pathRequest_builds _ _ path
  | «open» path flags =>
    have hn := number_length (dec_length h.1 h.2)
    exact pathNumberRequest_builds _ _ path (by omega)
  | mkdir path v | truncate path v | create path v =>
    have hn := number_length (dec_toInt_length v)
    exact pathNumberRequest_builds _ _ path (by omega)
  | read fh size offset =>
    have hn := info_length fh size offset
    exact handleRequest_builds _ _ (by omega)
  | releasedir fh | release fh =>
    have hn := decNat_length fh
    exact handleRequest_builds _ _ (by omega)
  | write fh buf size offset =>
    have hn := writeInfo_length fh size offset
    exact (handleRequest_builds _ _ (by omega)).strcat buf

theorem pathRequest_length {name : Text} (h : name.length < 10) (path : Text) :
    (name ++ path).length < 10 + path.length := by
  rw [List.length_append]
  omega

theorem pathNumberRequest_length {name number : Text} (h : name.length ≤ 28) (path : Text)
    (hn : number.length ≤ 13) : (name ++ path ++ number).length < 42 + path.length := by
  rw [List.length_append, List.length_append]
  omega

theorem handleRequest_length {name numbers : Text} (hn : numbers.length ≤ k)
    (h : name.length + k < size) : (name ++ numbers).length < size := by
  rw [List.length_append]
  omega

theorem Callback.request_length (cb : Callback) (h : cb.IntFlags) :
    cb.request.length < cb.requestSize := by
  cases cb with
  | getattr path | readdir path | opendir path | unlink path =>
    exact pathRequest_length (by decide) path
  | «open» path flags =>
    exact pathNumberRequest_length (by decide) path (number_length (dec_length h.1 h.2))
  | mkdir path v | truncate path v | create path v =>
    exact pathNumberRequest_length (by decide) path (number_length (dec_toInt_length v))
  | read fh size offset =>
    have hname : ("read, ".toList).length + 46 < 74 := by decide
    exact handleRequest_length (info_length fh size offset) hname
  | releasedir fh =>
    have hname : ("releasedir, ".toList).length + 20 < 47 := by decide
    exact handleRequest_length (decNat_length fh) hname
  | release fh =>
    have hname : ("release, ".toList).length + 20 < 42 := by decide
    exact handleRequest_length (decNat_length fh) hname
  | write fh buf size offset =>
    have hname : ("write, ".toList).length + 48 < 74 := by decide
    have hinfo := handleRequest_length (writeInfo_length fh size offset) hname
    change (_ ++ buf).length < 74 + buf.length
    rw [List.length_append]
    exact Nat.add_lt_add_right hinfo buf.length

/-- No callback writes behind an array while it puts its request together. -/
theorem Callback.request_fits (cb : Callback) (h : cb.IntFlags) :
    cb.request.length + 1 ≤ cb.requestSize ∧
      ∃ request, cb.buildRequest = some request ∧ request.size = cb.requestSize ∧
        request.text = cb.request := by
  have hl := cb.request_length h
  exact ⟨hl, (cb.buildRequest_builds h).result hl⟩

theorem Callback.request_fits_open :
    (Callback.open "/a".toList (-1)).request.length + 1 ≤
        (Callback.open "/a".toList (-1)).requestSize ∧
      ∃ request, (Callback.open "/a".toList (-1)).buildRequest = some request ∧
        request.size = (Callback.open "/a".toList (-1)).requestSize ∧
        request.text = (Callback.open "/a".toList (-1)).request :=
  Callback.request_fits (.open "/a".toList (-1)) ⟨by decide, by decide⟩

def sizeofInt : Nat := 4

def sizeofPointer : Nat := 8

def sizeofStat : Nat := 144

/-- How much a `remote_*` function allocates for its response, and the text it leaves there. -/
structure Response where
  allocated : Nat
  text : Text
  deriving DecidableEq

section
variable (os : Os)

/-- The response of each function that allocates a fixed number of bytes: not of `remote_readdir`,
which grows its list, nor of `remote_read`, which allocates what the client asks for. -/
def Call.allocates : Call → Option Response
  | .create path mode => some ⟨1 * sizeofInt, dec (os.creat (os.fullPath path) mode)⟩
  | .truncate path newsize => some ⟨sizeofInt + 1, dec (os.truncate (os.fullPath path) newsize)⟩
  | .write pointer size offset buffer =>
    (remoteWrite pointer size offset buffer).map fun w => ⟨sizeofInt + 1, dec (os.pwrite w)⟩
  | .release _ => some ⟨1, []⟩
  | .mkdir path mode => some ⟨sizeofInt + 1, dec (os.mkdir (os.fullPath path) mode)⟩
  | .releasedir _ => some ⟨1, []⟩
  | .opendir path => some ⟨sizeofPointer, decNat (os.opendir (os.fullPath path)).toNat⟩
  | .getattr path =>
    some ⟨sizeofStat, commaSeparated ((os.lstat (os.fullPath path)).getD os.uninit).ints⟩
  | .open path flags => some ⟨sizeofInt, dec (os.open (os.fullPath path) flags)⟩
  | .unlink _ => some ⟨1, []⟩
  | .readdir _ | .read _ _ _ => none

/-- The system call behind a response returned a number with so few digits that the response's
array holds them. -/
def Call.FewDigits : Call → Prop
  | .create path mode => os.creat (os.fullPath path) mode < 1000
  | .open path flags => os.open (os.fullPath path) flags < 1000
  | .write pointer size offset buffer =>
    ∀ w, remoteWrite pointer size offset buffer = some w → os.pwrite w < 10000
  | .opendir path => (os.opendir (os.fullPath path)).toNat < 10000000
  | _ => True

end

/-- `sprintf` writes within what is allocated. -/
def Response.Fits (r : Response) : Prop := ∃ b, sprintf r.allocated r.text = some b

/-- The 4096 bytes that `request_handler` sends are within what is allocated. -/
def Response.HoldsSent (r : Response) : Prop := 4096 ≤ r.allocated

/-- The text is the one in memory where the function's result points. -/
theorem Call.allocates_response {os : Os} {call : Call} {r : Response}
    (h : call.allocates os = some r) : call.response os = some (os.memory r.text) := by
  cases call with
  | write pointer size offset buffer =>
    obtain ⟨w, hw, rfl⟩ := Option.map_eq_some_iff.mp h
    rw [Call.response, hw, Option.map_some]
  | readdir path | read pointer size offset => cases h
  | _ =>
    cases h
    rfl

theorem Response.fits_iff (r : Response) : r.Fits ↔ r.text.length < r.allocated :=
  (sprintf_builds r.allocated r.text).exists_iff

theorem Call.allocates_le {os : Os} {call : Call} {r : Response}
    (h : call.allocates os = some r) : r.allocated ≤ sizeofStat := by
  cases call with
  | write pointer size offset buffer =>
    obtain ⟨w, -, rfl⟩ := Option.map_eq_some_iff.mp h
    exact (by decide : sizeofInt + 1 ≤ sizeofStat)
  | readdir path | read pointer size offset => cases h
  | _ =>
    cases h
    dsimp only
    decide

theorem status_length (h : v = 0 ∨ v = -1) : (dec v).length < sizeofInt + 1 := by
  rcases h with rfl | rfl
  · decide
  · decide

/-- The function's `sprintf` stays within what it allocates exactly if the number it prints has few
digits. The attributes always fit, and so do the results that are zero or minus one. -/
theorem Call.fits_iff {os : Os} {call : Call} {r : Response} (h : call.allocates os = some r) :
    r.Fits ↔ call.FewDigits os := by
  rw [Response.fits_iff]
  cases call with
  | create path mode =>
    cases h
    have hl := dec_length_le_iff (k := 3) (os.creat_range (os.fullPath path) mode).1 (by decide)
    exact Nat.lt_succ_iff.trans hl
  | «open» path flags =>
    cases h
    have hl := dec_length_le_iff (k := 3) (os.open_range (os.fullPath path) flags).1 (by decide)
    exact Nat.lt_succ_iff.trans hl
  | write pointer size offset buffer =>
    obtain ⟨w, hw, rfl⟩ := Option.map_eq_some_iff.mp h
    have hl := dec_length_le_iff (k := 4) (os.pwrite_range w).1 (by decide)
    rw [Call.FewDigits, hw]
    simp only [Option.some.injEq, forall_eq']
    exact Nat.lt_succ_iff.trans hl
  | opendir path =>
    cases h
    exact Nat.lt_succ_iff.trans (decNat_length_le_iff (k := 7) (by decide))
  | truncate path newsize =>
    cases h
    exact iff_of_true (status_length (os.truncate_range (os.fullPath path) newsize)) trivial
  | mkdir path mode =>
    cases h
    exact iff_of_true (status_length (os.mkdir_range (os.fullPath path) mode)) trivial
  | getattr path =>
    cases h
    have hroom : 128 < sizeofStat := by decide
    exact iff_of_true (Nat.lt_of_le_of_lt (commaSeparated_ints_length _) hroom) trivial
  | release pointer | releasedir pointer | unlink path =>
    cases h
    exact iff_of_true (by decide) trivial
  | readdir path | read pointer size offset => cases h

/-- What the ten functions print fits exactly if it has few digits. The bytes that are sent are
never all inside. -/
theorem Call.response_fits_iff (os : Os) (call : Call) (r : Response)
    (h : call.allocates os = some r) : ¬ r.HoldsSent ∧ (r.Fits ↔ call.FewDigits os) := by
  refine ⟨fun hsent => ?_, Call.fits_iff h⟩
  have hle : 4096 ≤ sizeofStat := hsent.trans (Call.allocates_le h)
  exact absurd hle (by decide)

/-- A system whose directories are all open at this address. -/
def Os.opening (dp : UInt64) : Os :=
  { Os.failing with
    opendir := fun _ => dp }

theorem Call.response_fits_iff_failing :
    ¬ (Response.mk sizeofPointer (decNat 0)).HoldsSent ∧
      ((Response.mk sizeofPointer (decNat 0)).Fits ↔
        (Call.opendir "/a".toList).FewDigits Os.failing) :=
  Call.response_fits_iff Os.failing (.opendir "/a".toList) ⟨sizeofPointer, decNat 0⟩ rfl

/-- A directory at a usual address of the heap, whose fourteen digits go into eight bytes. -/
theorem Call.response_overruns : ¬ ∀ (os : Os) (call : Call) (r : Response),
    call.allocates os = some r → r.Fits ∧ r.HoldsSent := by
  intro h
  have hc : (Call.opendir "/a".toList).allocates (.opening 93824992252576) =
      some ⟨sizeofPointer, decNat 93824992252576⟩ := rfl
  have hfits := (Response.fits_iff _).mp (h _ _ _ hc).1
  exact absurd hfits (by decide)

end NoblesseOblige.Snfs
