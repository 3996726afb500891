import NoblesseOblige.Snfs.Server

namespace NoblesseOblige.Snfs
open CString
set_option autoImplicit true

/-- The server's system: where it exports from, what its calls return for these arguments, and
what memory holds. -/
structure Os where
  rootPath : Text
  lstat : Text → Option Stat
  opendir : Text → UInt64
  entries : Text → List Text
  «open» : Text → Int → Int
  creat : Text → Nat → Int
  truncate : Text → Int → Int
  mkdir : Text → Nat → Int
  unlink : Text → Int
  pread : Int → Nat → Int → Option (List Char)
  pwrite : Pwrite → Int
  close : Int → Int
  closedir : UInt64 → Int
  /-- What `malloc` leaves in a `struct stat`. -/
  uninit : Stat
  /-- What lies behind a response in memory. -/
  heap : List Char
  open_range : ∀ path flags, -1 ≤ «open» path flags ∧ «open» path flags < 2 ^ 31
  creat_range : ∀ path mode, -1 ≤ creat path mode ∧ creat path mode < 2 ^ 31
  truncate_range : ∀ path size, truncate path size = 0 ∨ truncate path size = -1
  mkdir_range : ∀ path mode, mkdir path mode = 0 ∨ mkdir path mode = -1
  pwrite_range : ∀ w, -1 ≤ pwrite w ∧ pwrite w < 2 ^ 31

section
variable (os : Os)

def Os.fullPath (path : Text) : Text := os.rootPath ++ path

/-- Whether the system call of a `remote_*` function succeeds, if it is made. -/
def Call.succeeds : Call → Option Bool
  | .readdir path => some (os.opendir (os.fullPath path) ≠ 0)
  | .getattr path => some (os.lstat (os.fullPath path)).isSome
  | .opendir path => some (os.opendir (os.fullPath path) ≠ 0)
  | .releasedir pointer => some (os.closedir (strtoull pointer) ≠ -1)
  | .mkdir path mode => some (os.mkdir (os.fullPath path) mode ≠ -1)
  | .read pointer size offset => some (os.pread (atoi pointer) size offset).isSome
  | .open path flags => some (os.open (os.fullPath path) flags ≠ -1)
  | .release pointer => some (os.close (atoi pointer) ≠ -1)
  | .write pointer size offset buffer =>
    (remoteWrite pointer size offset buffer).map fun w => os.pwrite w ≠ -1
  | .truncate path newsize => some (os.truncate (os.fullPath path) newsize ≠ -1)
  | .create path mode => some (os.creat (os.fullPath path) mode ≠ -1)
  | .unlink path => some (os.unlink (os.fullPath path) ≠ -1)

/-- `"%d, %d, ..."` -/
def commaSeparated : List Int → Text
  | [] => []
  | [v] => dec v
  | v :: vs => dec v ++ (", ".toList ++ commaSeparated vs)

/-- The values `remote_getattr` prints, in its order, each as an `int`. -/
def Stat.ints (st : Stat) : List Int :=
  [(st.mode : Int), st.ino, st.dev, st.uid, st.gid, st.atime, st.ctime, st.mtime, st.nlink,
    st.size].map toInt

/-- Memory from the start of a response that holds this text. -/
def Os.memory (text : Text) : List Char := text ++ nul :: os.heap

/-- Memory from where the response of a `remote_*` function points, if it is not `NULL`. -/
def Call.response : Call → Option (List Char)
  | .readdir path =>
    if os.opendir (os.fullPath path) ≠ 0 then
      some (os.memory ((os.entries (os.fullPath path)).flatMap fun name => ", ".toList ++ name))
    else none
  | .getattr path =>
    some (os.memory (commaSeparated ((os.lstat (os.fullPath path)).getD os.uninit).ints))
  | .opendir path => some (os.memory (decNat (os.opendir (os.fullPath path)).toNat))
  | .releasedir _ => some (os.memory [])
  | .mkdir path mode => some (os.memory (dec (os.mkdir (os.fullPath path) mode)))
  | .read pointer size offset =>
    let data := (os.pread (atoi pointer) size offset).getD []
    some (data ++ List.replicate (size - data.length) nul ++ os.heap)
  | .open path flags => some (os.memory (dec (os.open (os.fullPath path) flags)))
  | .release _ => some (os.memory [])
  | .write pointer size offset buffer =>
    (remoteWrite pointer size offset buffer).map fun w => os.memory (dec (os.pwrite w))
  | .truncate path newsize => some (os.memory (dec (os.truncate (os.fullPath path) newsize)))
  | .create path mode => some (os.memory (dec (os.creat (os.fullPath path) mode)))
  | .unlink _ => some (os.memory [])

end

end NoblesseOblige.Snfs
