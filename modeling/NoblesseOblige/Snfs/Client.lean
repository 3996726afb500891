import NoblesseOblige.Strtok

namespace NoblesseOblige.Snfs
open CString
set_option autoImplicit true

/-- The delimiters `" ,"` of every `strtok`. -/
def delim (c : Char) : Bool := c = ' ' || c = ','

/-- The conversions of an `int` to `mode_t`, `uid_t` and `gid_t`, and to `size_t` and its like. -/
def modeT (v : Int) : Nat := (v % 2 ^ 32).toNat

def sizeT (v : Int) : Nat := (v % 2 ^ 64).toNat

theorem modeT_lt (v : Int) : modeT v < 2 ^ 32 := by
  unfold modeT
  omega

/-- The callbacks of `SNFS_oper` with the arguments they use, `fi->fh` and `fi->flags` included.
The buffer of a write is given as the text it points to. -/
inductive Callback
  | getattr (path : Text)
  | readdir (path : Text)
  | open (path : Text) (flags : Int)
  | read (fh : UInt64) (size : Nat) (offset : Int)
  | opendir (path : Text)
  | releasedir (fh : UInt64)
  | mkdir (path : Text) (mode : Nat)
  | release (fh : UInt64)
  | write (fh : UInt64) (buf : Text) (size : Nat) (offset : Int)
  | truncate (path : Text) (newsize : Int)
  | create (path : Text) (mode : Nat)
  | unlink (path : Text)

/-- The request each callback builds. -/
def Callback.request : Callback → Text
  | .getattr path => "getattr, ".toList ++ path
  | .readdir path => "readdir, ".toList ++ path
  | .open path flags => "open, ".toList ++ path ++ (", ".toList ++ dec flags)
  | .read fh size offset => "read, ".toList ++
      (decNat fh.toNat ++ ", ".toList ++ dec (toInt size) ++ ", ".toList ++ dec (toInt offset))
  | .opendir path => "opendir, ".toList ++ path
  | .releasedir fh => "releasedir, ".toList ++ decNat fh.toNat
  | .mkdir path mode => "mkdir, ".toList ++ path ++ (", ".toList ++ dec (toInt mode))
  | .release fh => "release, ".toList ++ decNat fh.toNat
  | .write fh buf size offset => "write, ".toList ++
      (decNat fh.toNat ++ ", ".toList ++ dec (toInt size) ++ ", ".toList ++ dec (toInt offset) ++
        ", ".toList) ++ buf
  | .truncate path newsize => "truncate, ".toList ++ path ++ (", ".toList ++ dec (toInt newsize))
  | .create path mode => "create, ".toList ++ path ++ (", ".toList ++ dec (toInt mode))
  | .unlink path => "unlink, ".toList ++ path

/-- The fields of a `struct stat` that are sent. The mode and the owner are 32 bits wide. -/
structure Stat where
  mode : Nat
  ino : Nat
  dev : Nat
  uid : Nat
  gid : Nat
  atime : Int
  ctime : Int
  mtime : Int
  nlink : Nat
  size : Int
  mode_lt : mode < 2 ^ 32
  uid_lt : uid < 2 ^ 32
  gid_lt : gid < 2 ^ 32
  deriving DecidableEq

/-- What a callback takes from a response with `strtok`: the attributes, unless it reads a null
pointer, or the names it passes to `filler`. -/
inductive Parsed
  | attributes (st : Option Stat)
  | names (l : List Text)
  deriving DecidableEq

/-- The values in the order in which `SNFS_getattr` stores them. -/
def statOf : List Int → Option Stat
  | [mode, ino, dev, uid, gid, atime, ctime, mtime, nlink, size] => some
    { mode := modeT mode
      ino := sizeT ino
      dev := sizeT dev
      uid := modeT uid
      gid := modeT gid
      atime := atime
      ctime := ctime
      mtime := mtime
      nlink := sizeT nlink
      size := size
      mode_lt := modeT_lt mode
      uid_lt := modeT_lt uid
      gid_lt := modeT_lt gid }
  | _ => none

/-- `atoi(token); token = strtok(NULL, " ,")` for each of the next `n` fields. -/
def statFields : Nat → List Int → Option Text → Prog Parsed
  | 0, vs, _ => .ret (.attributes (statOf vs))
  | _ + 1, _, none => .ret (.attributes none)
  | n + 1, vs, some token => .next (statFields n (vs ++ [atoi token]))

/-- The parsing of a response by `SNFS_getattr`. -/
def getattrJob (response : Text) : Job Parsed := ⟨response, statFields 10 []⟩

/-- The loop of `SNFS_readdir` over the tokens of a response. -/
def readdirJob (response : Text) : Job Parsed where
  text := response
  main
    | none => .ret (.names [])
    | some token => .each [token] .names

/-- What a callback returns and what it stores for FUSE: `fi->fh`, `stbuf`, the names for `filler`
and the contents of `buf`. -/
structure Return where
  value : Int
  fh : Option UInt64
  stbuf : Option Stat
  names : List Text
  buf : Text

def Return.of (value : Int) : Return := ⟨value, none, none, [], []⟩

def ENOENT : Int := 2

/-- The conversion of an `int` to `uint64_t`. -/
def toUInt64 (v : Int) : UInt64 := UInt64.ofNat (v % 2 ^ 64).toNat

/-- A callback after `sendRequestToServer`, with the text that is then in its buffer. It has no
result if it reads a null pointer. -/
def Callback.finish (cb : Callback) (response : Text) : Option Return :=
  match cb with
  | .getattr _ =>
    match (getattrJob response).alone delim with
    | .attributes (some st) => some
      { Return.of (if st.mode ≤ 0 ∨ st.uid ≤ 0 ∨ st.gid ≤ 0 then -ENOENT else 0) with
        stbuf := some st }
    | _ => none
  | .readdir _ =>
    match (readdirJob response).alone delim with
    | .names l => some { Return.of 0 with names := l }
    | _ => none
  | .open _ _ | .create _ _ => some
    { Return.of (if atoi response = 0 then -ENOENT else 0) with
      fh := some (toUInt64 (atoi response)) }
  | .opendir _ => some
    { Return.of (if atoi response = 0 then -ENOENT else 0) with fh := some (strtoull response) }
  | .read _ _ _ => some { Return.of response.length with buf := response }
  | .mkdir _ _ | .write _ _ _ _ | .truncate _ _ => some (.of (atoi response))
  | .releasedir _ | .release _ | .unlink _ => some (.of 0)

end NoblesseOblige.Snfs
