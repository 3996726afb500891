import NoblesseOblige.Snfs.Server

namespace NoblesseOblige.Snfs
open CString
set_option autoImplicit true

/-- The callbacks that take a response apart with `strtok`, with their responses. -/
inductive Parsing
  | getattr (response : Text)
  | readdir (response : Text)

def Parsing.job : Parsing → Job Parsed
  | .getattr response => getattrJob response
  | .readdir response => readdirJob response

section
variable [DecidableEq ι] [DecidableEq κ]

/-- The server: one thread of `request_handler` for each request received. -/
def serverProcess (requests : ι → Text) : System (Process ι (Option Call)) :=
  Process.system delim fun i => requestJob (requests i)

/-- The client: one thread for each response that is being parsed. -/
def clientProcess (parsings : κ → Parsing) : System (Process κ Parsed) :=
  Process.system delim fun i => (parsings i).job

/-- In a run in which a thread calls `strtok(NULL, " ,")` only while the saved position is in its
own text, every request is dispatched and every response parsed as when it is alone. -/
theorem strtok_separate (requests : ι → Text) (parsings : κ → Parsing) :
    (∀ s, ((serverProcess requests).restrict
        (Process.Owned delim fun i => requestJob (requests i))).Reachable s →
      ∀ i call, s.returned i = some call → call = (requestJob (requests i)).alone delim) ∧
    (∀ s, ((clientProcess parsings).restrict
        (Process.Owned delim fun i => (parsings i).job)).Reachable s →
      ∀ i parsed, s.returned i = some parsed → parsed = (parsings i).job.alone delim) :=
  ⟨fun _ h => Process.returned_of_owned h, fun _ h => Process.returned_of_owned h⟩

end

def threeRequests : Option Bool → Text
  | none => "unlink, /c".toList
  | some false => "unlink, /a".toList
  | some true => "truncate, /b, 5".toList

def threeResponses : Option Bool → Parsing
  | none => .readdir ", x, y".toList
  | some false => .getattr "33188, 7, 1, 1000, 100, 1, 2, 3, 1, 42".toList
  | some true => .readdir ", a, notes, b.c".toList

/-- On the server and on the client one thread begins and is overtaken by two others, which go
through to the end. -/
theorem strtok_separate_three :
    some (.truncate "/b".toList 5) = (requestJob (threeRequests (some true))).alone delim ∧
      some (.unlink "/a".toList) = (requestJob (threeRequests (some false))).alone delim ∧
      .names ["a".toList, "notes".toList, "b.c".toList] =
        (threeResponses (some true)).job.alone delim ∧
      ∃ st, .attributes (some st) = (threeResponses (some false)).job.alone delim ∧
        st.uid = 1000 := by
  have hserver : ((serverProcess threeRequests).restrict
      (Process.Owned delim fun i => requestJob (threeRequests i))).Reachable
        ⟨fun _ => none, none⟩ := .start ⟨fun _ => rfl, rfl⟩
  have hclient : ((clientProcess threeResponses).restrict
      (Process.Owned delim fun i => (threeResponses i).job)).Reachable
        ⟨fun _ => none, none⟩ := .start ⟨fun _ => rfl, rfl⟩
  have hserved := hserver.play Process.step_of_owned
    (none :: List.replicate 3 (some true) ++ List.replicate 2 (some false)) rfl
  have hparsed := hclient.play Process.step_of_owned
    (none :: List.replicate 4 (some true) ++ List.replicate 11 (some false)) rfl
  obtain ⟨hs, hc⟩ := strtok_separate threeRequests threeResponses
  exact ⟨hs _ hserved (some true) _ rfl, hs _ hserved (some false) _ rfl,
    hc _ hparsed (some true) _ rfl, _, hc _ hparsed (some false) _ rfl, rfl⟩

/-- Two requests to unlink two files unlink one of them and crash on the other. -/
theorem strtok_not_separate : ¬ ∀ (requests : Bool → Text) (parsings : Bool → Parsing),
    (∀ s, (serverProcess requests).Reachable s →
      ∀ i call, s.returned i = some call → call = (requestJob (requests i)).alone delim) ∧
    (∀ s, (clientProcess parsings).Reachable s →
      ∀ i parsed, s.returned i = some parsed → parsed = (parsings i).job.alone delim) := by
  intro h
  let requests : Bool → Text := fun b => if b then "unlink, /b".toList else "unlink, /a".toList
  have hs : (serverProcess requests).Reachable ⟨fun _ => none, none⟩ :=
    .start ⟨fun _ => rfl, rfl⟩
  have hr := hs.play Process.step_of_call [false, true, false] rfl
  have := (h requests fun _ => .readdir []).1 _ hr false (.some (.unlink "/b".toList)) (by decide)
  revert this
  decide

end NoblesseOblige.Snfs
