import NoblesseOblige.FairShare.Kernel
import NoblesseOblige.Transition

namespace NoblesseOblige.FairShare.Smp
set_option autoImplicit true

/-- How far a task is in `do_fork`, `sys_incshare` or, once it has exited, in `release_task`. -/
inductive Phase
  | running
  | forking
  | raising
  | zombie
  | decremented
  | again
  | dropped
  | freed
  | unhashed
  deriving DecidableEq

/-- A task in the middle of `sys_incshare` has already raised its share, and one that is to be
decremented again has share 2. -/
structure Task where
  user : Nat
  share : Int
  counter : Int
  phase : Phase
  share_pos : 1 ≤ share
  share_raised : phase = .raising → 2 ≤ share
  share_again : phase = .again → share = 2

theorem running_raised : Phase.running = .raising → (2 : Int) ≤ 1 := nofun

theorem running_again : Phase.running = .again → (1 : Int) = 2 := nofun

/-- A `schedule` past `read_lock(&tasklist_lock)`, with the tasks it has still to visit. -/
structure Loop where
  procCount : Int
  rest : List Nat

/-- The task structures in the order they were linked, and what each CPU recalculates. -/
structure Kernel where
  tasks : List Task
  processes : Nat → Int
  loops : List (Option Loop)

/-- The statements that count, link or unlink a task. -/
inductive Stmt
  | forkCount
  | forkUndo
  | forkLink (counter : Int)
  | incShare
  | incProcesses
  | exit
  | decProcesses
  | testShare
  | decAgain
  | freeUid
  | unhash

def Task.goto (p : Task) (phase : Phase) (h : phase ≠ .raising ∧ phase ≠ .again) : Task :=
  { p with
    phase := phase
    share_raised := fun e => absurd e h.1
    share_again := fun e => absurd e h.2 }

/-- One statement of a task: the task after it and what it adds to its user's count. -/
def Task.run (p : Task) (s : Stmt) : Option (Task × Int) :=
  match s, p.phase with
  | .forkCount, .running => some (p.goto .forking (by decide), 1)
  | .forkUndo, .forking => some (p.goto .running (by decide), -1)
  | .forkLink _, .forking => some (p.goto .running (by decide), 0)
  | .incShare, .running => some
      ({ p with
          share := p.share + 1
          phase := .raising
          share_pos := Int.le_add_one p.share_pos
          share_raised := fun _ => Int.add_le_add_right p.share_pos 1
          share_again := nofun }, 0)
  | .incProcesses, .raising => some (p.goto .running (by decide), 1)
  | .exit, .running => some (p.goto .zombie (by decide), 0)
  | .decProcesses, .zombie => some (p.goto .decremented (by decide), -1)
  | .testShare, .decremented =>
    if h : p.share = 2 then some
      ({ p with phase := .again, share_raised := nofun, share_again := fun _ => h }, 0)
    else some (p.goto .dropped (by decide), 0)
  | .decAgain, .again => some (p.goto .dropped (by decide), -1)
  | .freeUid, .dropped => some (p.goto .freed (by decide), 0)
  | .unhash, .freed => some (p.goto .unhashed (by decide), 0)
  | _, _ => none

/-- The statements done under `write_lock_irq(&tasklist_lock)`. -/
def Stmt.writeLocked : Stmt → Bool
  | .forkLink _ => true
  | .unhash => true
  | _ => false

/-- The child that a statement links, with the share `do_fork` gave it. -/
def Stmt.child (s : Stmt) (p : Task) : List Task :=
  match s with
  | .forkLink counter => [⟨p.user, 1, counter, .running, share_one, running_raised, running_again⟩]
  | _ => []

def Kernel.readLocked (k : Kernel) : Bool := k.loops.any Option.isSome

def Kernel.stmt (k : Kernel) (i : Nat) (s : Stmt) : Option Kernel :=
  match k.tasks[i]? with
  | none => none
  | some p =>
    match p.run s with
    | none => none
    | some (p', d) =>
      if s.writeLocked && k.readLocked then none
      else some
        { k with
          tasks := k.tasks.set i p' ++ s.child p
          processes := bump k.processes p.user d }

/-- The tasks `for_each_task` visits. -/
def Kernel.linked (k : Kernel) : List Nat :=
  (List.range k.tasks.length).filter fun i => k.tasks[i]?.any fun p => p.phase ≠ .unhashed

/-- `procCount` was counted before the lock was taken. -/
def Kernel.lock (k : Kernel) (c : Nat) (procCount : Int) : Option Kernel :=
  match k.loops[c]? with
  | some none => some { k with loops := k.loops.set c (some ⟨procCount, k.linked⟩) }
  | _ => none

def Task.setCounter (p : Task) (counter : Int) : Task :=
  { p with counter := if counter = 0 then 1 else counter }

/-- The body of the recalculation loop for the next task, without a result for a count of 0. -/
def Kernel.evaluate (k : Kernel) (c : Nat) : Option Kernel :=
  match k.loops[c]? with
  | some (some ⟨procCount, i :: rest⟩) =>
    match k.tasks[i]? with
    | none => none
    | some p =>
      if k.processes p.user = 0 then none
      else
        let counter := (p.share * procCount).tdiv (k.processes p.user)
        some
          { k with
            tasks := k.tasks.set i (p.setCounter counter)
            loops := k.loops.set c (some ⟨procCount, rest⟩) }
  | _ => none

def Kernel.unlock (k : Kernel) (c : Nat) : Option Kernel :=
  match k.loops[c]? with
  | some (some ⟨_, []⟩) => some { k with loops := k.loops.set c none }
  | _ => none

inductive Act
  | stmt (i : Nat) (s : Stmt)
  | lock (c : Nat) (procCount : Int)
  | evaluate (c : Nat)
  | unlock (c : Nat)

def Kernel.perform (k : Kernel) : Act → Option Kernel
  | .stmt i s => k.stmt i s
  | .lock c procCount => k.lock c procCount
  | .evaluate c => k.evaluate c
  | .unlock c => k.unlock c

/-- Nobody is between two statements and every user is counted for the shares of its tasks. -/
structure Kernel.Fresh (k : Kernel) : Prop where
  settled : ∀ p ∈ k.tasks, p.phase = .running ∨ p.phase = .zombie
  counted : ∀ U, k.processes U = tally Task.user Task.share U k.tasks
  unlocked : ∀ l ∈ k.loops, l = none

def system : System Kernel where
  init := Kernel.Fresh
  step k k' := ∃ a, k.perform a = some k'

theorem step_of_perform (k : Kernel) (a : Act) (k' : Kernel) (h : k.perform a = some k') :
    system.step k k' :=
  ⟨a, h⟩

/-- What is still counted for a task: the share, without what it has given back. -/
def Task.held (p : Task) : Int :=
  match p.phase with
  | .running => p.share
  | .forking => p.share + 1
  | .raising => p.share - 1
  | .zombie => p.share
  | .decremented => p.share - 1
  | .again => 1
  | .dropped | .freed | .unhashed => p.share - if p.share = 2 then 2 else 1

/-- The task has not given back all that was counted for it: it has not come to its first
decrement, or was left short of its second one, or never makes it. -/
def Task.Retains (p : Task) : Prop :=
  match p.phase with
  | .running | .forking | .raising | .zombie => True
  | .decremented => 2 ≤ p.share
  | .again => True
  | .dropped | .freed | .unhashed => 3 ≤ p.share

theorem Task.held_nonneg (p : Task) : 0 ≤ p.held := by
  have := p.share_pos
  unfold Task.held
  cases p.phase <;> simp only <;> omega

theorem Task.held_pos_iff (p : Task) : 1 ≤ p.held ↔ p.Retains := by
  have := p.share_pos
  have hr := p.share_raised
  unfold Task.held Task.Retains
  cases hp : p.phase with
  | raising =>
    have := hr hp
    simp only [iff_true]
    omega
  | dropped | freed | unhashed =>
    simp only
    split <;> omega
  | _ =>
    simp only [iff_true]
    omega

end NoblesseOblige.FairShare.Smp
