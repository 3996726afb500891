import NoblesseOblige.PathName
import NoblesseOblige.Snfs.Outcome

namespace NoblesseOblige.Snfs
open CString PathName
set_option autoImplicit true

/-- The `full_path` that a call hands to the system. -/
def Call.fullPath (os : Os) : Call → Option Text
  | .readdir path | .getattr path | .opendir path | .mkdir path _ | .open path _
  | .truncate path _ | .create path _ | .unlink path => some (os.fullPath path)
  | .releasedir _ | .read _ _ _ | .release _ | .write _ _ _ _ => none

/-- A path is the root or lies below it, for a server with this working directory. -/
def Inside (cwd : List Text) (root path : Text) : Prop := resolve cwd root <+: resolve cwd path

instance (cwd : List Text) (root path : Text) : Decidable (Inside cwd root path) :=
  inferInstanceAs (Decidable (_ <+: _))

/-- A path that begins with a slash, taken on its own, comes down again through the names of the
root that it climbs past. Without the slash the same holds of the last name of the root with the
path directly behind it. -/
def Confined (cwd : List Text) (root path : Text) : Prop :=
  if path.head? = some '/' then
    if root = [] then cwd <+: (walk path).names
    else (resolve cwd root).drop ((resolve cwd root).length - (walk path).ups) <+: (walk path).names
  else
    (resolve cwd root).drop
      ((resolve cwd (dirname root)).length - (walk (basename root ++ path)).ups) <+:
        (walk (basename root ++ path)).names

theorem inside_iff_confined (cwd : List Text) (root path : Text) :
    Inside cwd root (root ++ path) ↔ Confined cwd root path := by
  unfold Inside Confined
  split
  · rename_i hp
    split
    · rename_i hr
      subst hr
      have hcwd : resolve cwd [] = cwd := rfl
      rw [hcwd, List.nil_append, resolve, if_pos hp, follow_components, Walk.from_nil]
    · rw [resolve_append_slash cwd ‹_› hp]
      exact enter_prefix_from (resolve cwd root) [] (walk path)
  · rename_i hp
    rw [resolve_append cwd root hp, resolve_basename cwd root]
    exact enter_prefix_from _ _ _

/-- The paths that a file system of the client is asked for are confined. -/
theorem confined_of_notMem (cwd : List Text) (hr : root ≠ []) (hp : path.head? = some '/')
    (h : "..".toList ∉ components path) : Confined cwd root path := by
  rw [Confined, if_pos hp, if_neg hr, walk_ups_of_notMem h, Nat.sub_zero, List.drop_length]
  exact List.nil_prefix

/-- The operations that take a path. -/
def pathOperations : List Text :=
  ["getattr".toList, "readdir".toList, "opendir".toList, "mkdir".toList, "open".toList,
    "truncate".toList, "create".toList, "unlink".toList]

/-- The request names an operation on this path and has the operands for it. -/
def Requests (x path : Text) : Prop :=
  ∃ name ∈ pathOperations, token delim 0 x = some name ∧ token delim 1 x = some path ∧
    ∃ m num, Complete x m num

section
variable (os : Os)

theorem fullPath_eq_some_iff (call : Call) (full : Text) : call.fullPath os = some full ↔
    call.name ∈ pathOperations ∧ full = os.fullPath call.operand := by
  have one (name path : Text) (hm : name ∈ pathOperations) :
      some (os.fullPath path) = some full ↔
        name ∈ pathOperations ∧ full = os.fullPath path := by
    rw [and_iff_right hm, Option.some.injEq, eq_comm]
  have other (name path : Text) (hm : name ∉ pathOperations) :
      none = some full ↔ name ∈ pathOperations ∧ full = os.fullPath path :=
    iff_of_false (by simp) fun h => hm h.1
  cases call with
  | getattr path => exact one "getattr".toList path (by decide)
  | readdir path => exact one "readdir".toList path (by decide)
  | opendir path => exact one "opendir".toList path (by decide)
  | mkdir path mode => exact one "mkdir".toList path (by decide)
  | «open» path flags => exact one "open".toList path (by decide)
  | truncate path newsize => exact one "truncate".toList path (by decide)
  | create path mode => exact one "create".toList path (by decide)
  | unlink path => exact one "unlink".toList path (by decide)
  | releasedir pointer => exact other "releasedir".toList pointer (by decide)
  | read pointer size offset => exact other "read".toList pointer (by decide)
  | release pointer => exact other "release".toList pointer (by decide)
  | write pointer size offset buffer => exact other "write".toList pointer (by decide)

theorem action_of_fullPath {call : Call} (h : call.fullPath os = some full) :
    call.action = some (.remote call) := by
  cases call with
  | write pointer size offset buffer => cases h
  | _ => rfl

/-- The paths that a request hands to the system. -/
theorem fullPath_iff (x full : Text) : ((requestJob x).alone delim).bind (Call.fullPath os) =
    some full ↔ ∃ path, Requests x path ∧ full = os.fullPath path := by
  rw [Option.bind_eq_some_iff]
  constructor
  · rintro ⟨call, hc, hf⟩
    obtain ⟨hname, hpath⟩ := alone_spec hc
    obtain ⟨hm, rfl⟩ := (fullPath_eq_some_iff os call full).mp hf
    refine ⟨call.operand, ⟨call.name, hm, hname, hpath, exec_isSome_iff.mp ?_⟩, rfl⟩
    rw [exec, hc, Option.bind_some, action_of_fullPath os hf]
    rfl
  · rintro ⟨path, ⟨name, hm, hname, hpath, hcomplete⟩, rfl⟩
    obtain ⟨a, ha⟩ := Option.isSome_iff_exists.mp (exec_isSome_iff.mpr hcomplete)
    obtain ⟨call, hc, -⟩ := Option.bind_eq_some_iff.mp ha
    obtain ⟨hname', hpath'⟩ := alone_spec hc
    obtain rfl := Option.some.inj (hname.symm.trans hname')
    obtain rfl := Option.some.inj (hpath.symm.trans hpath')
    exact ⟨call, hc, (fullPath_eq_some_iff os call _).mpr ⟨hm, rfl⟩⟩

end

/-- A request for an operation on a path stays inside the export exactly if its path is confined. -/
theorem export_iff (os : Os) (cwd : List Text) (pieces : List Text) :
    (∀ full, (served pieces).bind (Call.fullPath os) = some full →
      Inside cwd os.rootPath full) ↔
    ∀ path, Requests (recvText 4096 pieces) path → Confined cwd os.rootPath path := by
  have hserved (full : Text) := fullPath_iff os (recvText 4096 pieces) full
  constructor
  · intro h path hr
    exact (inside_iff_confined cwd os.rootPath path).mp
      (h _ ((hserved _).mpr ⟨path, hr, rfl⟩))
  · intro h full hf
    obtain ⟨path, hr, rfl⟩ := (hserved full).mp hf
    exact (inside_iff_confined cwd os.rootPath path).mpr (h path hr)

/-- A request can name what lies beside the export. -/
theorem export_not_confined : ¬ ∀ (os : Os) (cwd : List Text) (pieces : List Text) (full : Text),
    (served pieces).bind (Call.fullPath os) = some full → Inside cwd os.rootPath full := by
  intro h
  have hin := h Os.failing [] ["unlink, /../etc/passwd".toList] "/srv/../etc/passwd".toList
    (by decide)
  exact absurd hin (by decide)

end NoblesseOblige.Snfs
