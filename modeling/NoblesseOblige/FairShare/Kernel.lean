import NoblesseOblige.Tally
import Mathlib.Logic.Function.Basic

namespace NoblesseOblige.FairShare
set_option autoImplicit true

/-- What the patch reads and writes of a `task_struct`. Every task starts with share 1. -/
structure Task where
  pid : Nat
  user : Nat
  share : Int
  counter : Int
  exited : Bool
  share_pos : 1 ≤ share

/-- The tasks in the order of `for_each_task` and the `processes` count of every user. -/
structure Kernel where
  tasks : List Task
  processes : Nat → Int
  pids_nodup : (tasks.map Task.pid).Nodup

/-- `atomic_inc` and `atomic_dec` on one user's `processes`. -/
def bump (processes : Nat → Int) (user : Nat) (d : Int) : Nat → Int :=
  Function.update processes user (processes user + d)

theorem bump_apply : bump n u d v = n v + if u = v then d else 0 := by
  unfold bump
  by_cases h : u = v
  · subst h
    rw [Function.update_self, if_pos rfl]
  · rw [Function.update_of_ne (Ne.symm h), if_neg h, Int.add_zero]

def Kernel.task? (k : Kernel) (pid : Nat) : Option Task :=
  k.tasks.find? fun p => p.pid = pid

/-- The share of a new task. -/
theorem share_one : (1 : Int) ≤ 1 := Int.le_refl 1

/-- The child is a copy of its parent, except for its pid, its counter and the share. -/
def Task.copy (q : Task) (pid : Nat) (counter : Int) : Task :=
  { q with pid := pid, counter := counter, share := 1, share_pos := share_one }

/-- `do_fork` counts the child, sets its share to 1 and links it at the end of the list. -/
def Kernel.fork (k : Kernel) (parent child : Nat) (counter : Int) : Option Kernel :=
  match k.task? parent with
  | none => none
  | some q =>
    if h : q.exited = true ∨ child ∈ k.tasks.map Task.pid then none
    else some
      { tasks := k.tasks ++ [q.copy child counter]
        processes := bump k.processes q.user 1
        pids_nodup := by
          rw [List.map_append]
          refine List.Nodup.append k.pids_nodup (List.nodup_singleton _) ?_
          intro a ha hc
          obtain rfl : a = child := List.mem_singleton.mp hc
          exact h (.inr ha) }

theorem Kernel.fork_spec {k k' : Kernel} (h : k.fork parent child counter = some k') :
    ∃ q, k.task? parent = some q ∧ k'.tasks = k.tasks ++ [q.copy child counter] ∧
      k'.processes = bump k.processes q.user 1 := by
  unfold Kernel.fork at h
  cases hq : k.task? parent with
  | none =>
    rw [hq] at h
    cases h
  | some q =>
    simp only [hq] at h
    split at h
    · cases h
    · cases h
      exact ⟨q, rfl, rfl, rfl⟩

/-- A `do_fork` that fails undoes its increment. -/
def Kernel.forkFails (k : Kernel) (parent : Nat) : Option Kernel :=
  match k.task? parent with
  | none => none
  | some q =>
    if q.exited then none
    else some { k with processes := bump (bump k.processes q.user 1) q.user (-1) }

theorem Kernel.forkFails_spec {k k' : Kernel} (h : k.forkFails parent = some k') :
    k'.tasks = k.tasks ∧ ∃ u, k'.processes = bump (bump k.processes u 1) u (-1) := by
  unfold Kernel.forkFails at h
  cases hq : k.task? parent with
  | none =>
    rw [hq] at h
    cases h
  | some q =>
    simp only [hq] at h
    split at h
    · cases h
    · cases h
      exact ⟨rfl, q.user, rfl⟩

/-- `proc_sel(p, 0, 0)` -/
def procSel (p : Task) (current : Nat) : Bool := p.pid = current

def Task.incShare (p : Task) : Task :=
  { p with share := p.share + 1, share_pos := Int.le_add_one p.share_pos }

/-- The loop of `sys_incshare` over the task list. -/
def sysIncshare (current : Nat) : List Task → (Nat → Int) → List Task × (Nat → Int)
  | [], processes => ([], processes)
  | p :: ps, processes =>
    if !procSel p current then
      let r := sysIncshare current ps processes
      (p :: r.1, r.2)
    else
      let r := sysIncshare current ps (bump processes p.user 1)
      (p.incShare :: r.1, r.2)

theorem sysIncshare_tasks (n : Nat → Int) : (sysIncshare c l n).1 =
    l.map fun p => if procSel p c then p.incShare else p := by
  induction l generalizing n with
  | nil => rfl
  | cons p ps ih =>
    rw [sysIncshare, List.map_cons]
    cases procSel p c with
    | false => simp [ih]
    | true => simp [ih]

theorem sysIncshare_pids (n : Nat → Int) :
    (sysIncshare c l n).1.map Task.pid = l.map Task.pid := by
  rw [sysIncshare_tasks, List.map_map]
  refine List.map_congr_left fun p _ => ?_
  simp only [Function.comp_apply]
  split <;> rfl

def Kernel.incshare (k : Kernel) (caller : Nat) : Option Kernel :=
  match k.task? caller with
  | none => none
  | some q =>
    if q.exited then none
    else
      let r := sysIncshare caller k.tasks k.processes
      some { tasks := r.1, processes := r.2, pids_nodup := by
              rw [sysIncshare_pids]
              exact k.pids_nodup }

theorem Kernel.incshare_spec {k k' : Kernel} (h : k.incshare caller = some k') :
    k'.tasks = (sysIncshare caller k.tasks k.processes).1 ∧
      k'.processes = (sysIncshare caller k.tasks k.processes).2 := by
  unfold Kernel.incshare at h
  cases hq : k.task? caller with
  | none =>
    rw [hq] at h
    cases h
  | some q =>
    simp only [hq] at h
    split at h
    · cases h
    · cases h
      exact ⟨rfl, rfl⟩

def Task.exit (p : Task) : Task := { p with exited := true }

/-- The task becomes a zombie, still linked and still counted. -/
def Kernel.exit (k : Kernel) (pid : Nat) : Option Kernel :=
  match k.task? pid with
  | none => none
  | some q =>
    if q.exited then none
    else some
      { k with
        tasks := k.tasks.map fun p => if p.pid = pid then p.exit else p
        pids_nodup := by
          rw [List.map_map]
          refine (List.map_congr_left fun p _ => ?_) ▸ k.pids_nodup
          simp only [Function.comp_apply]
          split <;> rfl }

theorem Kernel.exit_spec {k k' : Kernel} (h : k.exit pid = some k') :
    k'.tasks = k.tasks.map (fun p => if p.pid = pid then p.exit else p) ∧
      k'.processes = k.processes := by
  unfold Kernel.exit at h
  cases hq : k.task? pid with
  | none =>
    rw [hq] at h
    cases h
  | some q =>
    simp only [hq] at h
    split at h
    · cases h
    · cases h
      exact ⟨rfl, rfl⟩

def Kernel.zombie? (k : Kernel) (pid : Nat) : Option Task :=
  (k.task? pid).filter Task.exited

/-- `release_task`: one decrement, a second one if the share is 2, then the task is unlinked. -/
def Kernel.release (k : Kernel) (pid : Nat) : Option Kernel :=
  match k.zombie? pid with
  | none => none
  | some p =>
    let processes := bump k.processes p.user (-1)
    let processes := if p.share = 2 then bump processes p.user (-1) else processes
    some
      { tasks := k.tasks.eraseP fun q => q.pid = pid
        processes := processes
        pids_nodup := k.pids_nodup.sublist (List.eraseP_sublist.map Task.pid) }

theorem Kernel.release_spec {k k' : Kernel} (h : k.release pid = some k') :
    ∃ p, k.zombie? pid = some p ∧ k'.tasks = k.tasks.eraseP (fun q => q.pid = pid) ∧
      k'.processes = if p.share = 2 then bump (bump k.processes p.user (-1)) p.user (-1)
        else bump k.processes p.user (-1) := by
  unfold Kernel.release at h
  cases hz : k.zombie? pid with
  | none =>
    rw [hz] at h
    cases h
  | some p =>
    simp only [hz] at h
    cases h
    exact ⟨p, rfl, rfl, rfl⟩

/-- The number of tasks `schedule` counts before it looks for the next one. -/
def Kernel.procCount (k : Kernel) : Int := k.tasks.length

/-- The body of the recalculation loop. -/
def Task.recalculate (procCount : Int) (processes : Nat → Int) (p : Task) : Task :=
  let counter := (p.share * procCount).tdiv (processes p.user)
  { p with counter := if counter = 0 then 1 else counter }

/-- The recalculation of `schedule`, which has no result where it divides by zero. -/
def Kernel.recalculate (k : Kernel) : Option Kernel :=
  if k.tasks.any fun p => k.processes p.user = 0 then none
  else some
    { k with
      tasks := k.tasks.map (Task.recalculate k.procCount k.processes)
      pids_nodup := by
        rw [List.map_map]
        exact k.pids_nodup }

theorem Kernel.recalculate_spec {k k' : Kernel} (h : k.recalculate = some k') :
    k'.tasks = k.tasks.map (Task.recalculate k.procCount k.processes) ∧
      k'.processes = k.processes := by
  unfold Kernel.recalculate at h
  split at h
  · cases h
  · cases h
    exact ⟨rfl, rfl⟩

inductive Op
  | fork (parent child : Nat) (counter : Int)
  | forkFails (parent : Nat)
  | incshare (caller : Nat)
  | exit (pid : Nat)
  | release (pid : Nat)
  | recalculate

def Kernel.perform? (k : Kernel) : Op → Option Kernel
  | .fork parent child counter => k.fork parent child counter
  | .forkFails parent => k.forkFails parent
  | .incshare caller => k.incshare caller
  | .exit pid => k.exit pid
  | .release pid => k.release pid
  | .recalculate => k.recalculate

/-- An operation no task can perform here does not happen. -/
def Kernel.perform (k : Kernel) (op : Op) : Kernel := (k.perform? op).getD k

/-- The states of a run, the first one included. -/
def Kernel.visited (k : Kernel) : List Op → List Kernel
  | [] => [k]
  | op :: ops => k :: (k.perform op).visited ops

theorem Kernel.mem_visited (k : Kernel) (ops : List Op) : k ∈ k.visited ops := by
  cases ops with
  | nil => exact List.mem_singleton_self k
  | cons op ops => exact List.mem_cons_self

end NoblesseOblige.FairShare
