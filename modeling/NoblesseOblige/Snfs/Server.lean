import NoblesseOblige.Snfs.Client

namespace NoblesseOblige.Snfs
open CString
set_option autoImplicit true

/-- The calls of the `remote_*` functions. File and directory pointers are passed as texts. -/
inductive Call
  | readdir (path : Text)
  | getattr (path : Text)
  | opendir (path : Text)
  | releasedir (pointer : Text)
  | mkdir (path : Text) (mode : Nat)
  | read (pointer : Text) (size : Nat) (offset : Int)
  | open (path : Text) (flags : Int)
  | release (pointer : Text)
  | write (pointer : Text) (size : Nat) (offset : Int) (buffer : Text)
  | truncate (path : Text) (newsize : Int)
  | create (path : Text) (mode : Nat)
  | unlink (path : Text)
  deriving DecidableEq

/-- `remote_*(strtok(NULL, " ,"))`, which reads a null pointer if there is no token. -/
def withToken (call : Text → Call) : Prog (Option Call) :=
  .next fun tokenreq => .ret (tokenreq.map call)

/-- `atoi(strtok(NULL, " ,"))` and what follows it. -/
def withAtoi (k : Int → Prog (Option Call)) : Prog (Option Call) :=
  .next fun
    | none => .ret none
    | some t => k (atoi t)

def withTokenAtoi (call : Text → Int → Call) : Prog (Option Call) :=
  .next fun tokenreq => withAtoi fun v => .ret (tokenreq.map (call · v))

def withTokenAtoiAtoi (call : Text → Int → Int → Call) : Prog (Option Call) :=
  .next fun tokenreq => withAtoi fun v => withAtoi fun w => .ret (tokenreq.map (call · v w))

/-- The switch of `request_handler` on the first token. It calls nothing if there is none or if
it is not the name of an operation. -/
def requestHandler (requestCopy : Text) : Option Text → Prog (Option Call)
  | none => .ret none
  | some firstarg =>
    if firstarg = "readdir".toList then withToken .readdir
    else if firstarg = "getattr".toList then withToken .getattr
    else if firstarg = "opendir".toList then withToken .opendir
    else if firstarg = "releasedir".toList then withToken .releasedir
    else if firstarg = "mkdir".toList then withTokenAtoi fun path mode => .mkdir path (modeT mode)
    else if firstarg = "read".toList then
      withTokenAtoiAtoi fun pointer size offset => .read pointer (sizeT size) offset
    else if firstarg = "open".toList then withTokenAtoi .open
    else if firstarg = "release".toList then withToken .release
    else if firstarg = "write".toList then
      withTokenAtoiAtoi fun pointer size offset => .write pointer (sizeT size) offset requestCopy
    else if firstarg = "truncate".toList then withTokenAtoi .truncate
    else if firstarg = "create".toList then
      withTokenAtoi fun path mode => .create path (modeT mode)
    else if firstarg = "unlink".toList then withToken .unlink
    else .ret none

section
variable (r : Text)

theorem requestHandler_readdir : requestHandler r (some "readdir".toList) =
    withToken .readdir := rfl

theorem requestHandler_getattr : requestHandler r (some "getattr".toList) =
    withToken .getattr := rfl

theorem requestHandler_opendir : requestHandler r (some "opendir".toList) =
    withToken .opendir := rfl

theorem requestHandler_releasedir : requestHandler r (some "releasedir".toList) =
    withToken .releasedir := rfl

theorem requestHandler_mkdir : requestHandler r (some "mkdir".toList) =
    withTokenAtoi fun path mode => .mkdir path (modeT mode) := rfl

theorem requestHandler_read : requestHandler r (some "read".toList) =
    withTokenAtoiAtoi fun pointer size offset => .read pointer (sizeT size) offset := rfl

theorem requestHandler_open : requestHandler r (some "open".toList) = withTokenAtoi .open := rfl

theorem requestHandler_release : requestHandler r (some "release".toList) =
    withToken .release := rfl

theorem requestHandler_write : requestHandler r (some "write".toList) =
    withTokenAtoiAtoi fun pointer size offset => .write pointer (sizeT size) offset r := rfl

theorem requestHandler_truncate : requestHandler r (some "truncate".toList) =
    withTokenAtoi .truncate := rfl

theorem requestHandler_create : requestHandler r (some "create".toList) =
    withTokenAtoi fun path mode => .create path (modeT mode) := rfl

theorem requestHandler_unlink : requestHandler r (some "unlink".toList) = withToken .unlink := rfl

end

/-- What `recv(sock, buf, size, 0)` and the terminator put after it leave in the buffer, when the
message comes in these pieces. -/
def recvText (size : Nat) : List Text → Text
  | [] => []
  | piece :: _ => cstr (piece.take size)

def requestJob (recData : Text) : Job (Option Call) := ⟨recData, requestHandler recData⟩

/-- The call a thread of `request_handler` makes for a request that comes in these pieces. -/
def served (pieces : List Text) : Option Call :=
  (requestJob (recvText 4096 pieces)).alone delim

/-- What a `pwrite` is called with. The buffer is given as the text it points to. -/
structure Pwrite where
  fd : Int
  buffer : Text
  size : Nat
  offset : Int
  deriving DecidableEq

/-- The bytes it takes from the buffer, as far as the text and its terminator go. -/
def Pwrite.data (w : Pwrite) : List Char := (w.buffer ++ [nul]).take w.size

/-- `strchr(buffer, ',') + 1` -/
def afterComma (buffer : Text) : Option Text := (strchr buffer ',').map List.tail

/-- The `pwrite` of `remote_write`. -/
def remoteWrite (pointer : Text) (size : Nat) (offset : Int) (buffer : Text) : Option Pwrite := do
  let buffer ← afterComma buffer
  let buffer ← afterComma buffer
  let buffer ← afterComma buffer
  let buffer ← afterComma buffer
  return ⟨atoi pointer, buffer, size, offset⟩

end NoblesseOblige.Snfs
