import NoblesseOblige.FairShare.Epoch
import Mathlib.Algebra.Order.Ring.Int

namespace NoblesseOblige.FairShare.Reschedule
set_option autoImplicit true

/-- How the kernel is built: for several processors or one, and the constant
`PROC_CHANGE_PENALTY`. -/
structure Config where
  smp : Bool
  procChangePenalty : Int32
  penalty_range : 0 ≤ procChangePenalty.toInt ∧ procChangePenalty.toInt < 2 ^ 16

/-- What the patched `schedule` reads and writes of a `task_struct`. The share is an `atomic_t`,
the counter and the nice value are `long`s. -/
structure Task where
  pid : Nat
  user : Nat
  share : Int32
  counter : Int
  nice : Int
  policy : Policy
  yields : Bool
  rtPriority : Int32
  mm : Option Nat
  processor : Nat
  cpusRunnable : Nat
  cpusAllowed : Nat
  exited : Bool
  nice_range : -20 ≤ nice ∧ nice ≤ 19
  rtPriority_range : 0 ≤ rtPriority.toInt ∧ rtPriority.toInt < 100

/-- The tasks in the order of `for_each_task` and the `processes` count of every user. -/
structure Kernel where
  tasks : List Task
  processes : Nat → Int32

/-- `atomic_inc` and `atomic_dec` on one user's `processes`, which wrap. -/
def bump (processes : Nat → Int32) (user : Nat) (d : Int32) : Nat → Int32 :=
  Function.update processes user (processes user + d)

def Kernel.task? (k : Kernel) (pid : Nat) : Option Task :=
  k.tasks.find? fun p => p.pid = pid

/-- `do_fork` counts the child, sets its share to 1 and divides the parent's ticks. -/
def Kernel.fork (k : Kernel) (parent child : Nat) (counter rest : Int) : Option Kernel :=
  (k.task? parent).map fun q =>
    { tasks := (k.tasks.map fun p => if p.pid = parent then { p with counter := rest } else p) ++
        [{ q with pid := child, counter := counter, share := 1 }]
      processes := bump k.processes q.user 1 }

/-- The loop of `sys_incshare` over the task list. -/
def sysIncshare (current : Nat) : List Task → (Nat → Int32) → List Task × (Nat → Int32)
  | [], processes => ([], processes)
  | p :: ps, processes =>
    if p.pid ≠ current then
      let r := sysIncshare current ps processes
      (p :: r.1, r.2)
    else
      let r := sysIncshare current ps (bump processes p.user 1)
      ({ p with share := p.share + 1 } :: r.1, r.2)

def Kernel.incshare (k : Kernel) (caller : Nat) : Kernel :=
  let r := sysIncshare caller k.tasks k.processes
  ⟨r.1, r.2⟩

def Kernel.exit (k : Kernel) (pid : Nat) : Kernel :=
  { k with tasks := k.tasks.map fun p => if p.pid = pid then { p with exited := true } else p }

/-- `release_task`: one decrement, a second one if the share is 2, then the task is unlinked. -/
def Kernel.release (k : Kernel) (pid : Nat) : Option Kernel :=
  match (k.task? pid).filter Task.exited with
  | none => none
  | some p =>
    let processes := bump k.processes p.user (-1)
    let processes := if p.share = 2 then bump processes p.user (-1) else processes
    some { tasks := k.tasks.eraseP fun q => q.pid = pid, processes := processes }

/-- The timer interrupt charges the running task. -/
def Task.tick (p : Task) : Task :=
  { p with counter := if p.counter - 1 ≤ 0 then 0 else p.counter - 1 }

def Kernel.tick (k : Kernel) (pid : Nat) : Kernel :=
  { k with tasks := k.tasks.map fun p => if p.pid = pid then p.tick else p }

/-- `procCount` after the loop that counts the tasks. -/
def Kernel.procCount (k : Kernel) : Int32 := k.tasks.foldl (fun c _ => c + 1) 0

/-- `share*procCount/processes`, which the hardware refuses if the count is 0 or if the quotient
of the least product by -1 is not an `int`. -/
def Task.quotient (procCount : Int32) (processes : Nat → Int32) (p : Task) : Int32 :=
  p.share * procCount / processes p.user

def Task.traps (procCount : Int32) (processes : Nat → Int32) (p : Task) : Bool :=
  processes p.user = 0 || (p.share * procCount = Int32.minValue && processes p.user = -1)

/-- The body of the recalculation loop. -/
def Task.recalculate (procCount : Int32) (processes : Nat → Int32) (p : Task) : Task :=
  let counter := (p.quotient procCount processes).toInt
  { p with counter := if counter = 0 then 1 else counter }

def Kernel.recalculate (k : Kernel) : Option Kernel :=
  if k.tasks.any (Task.traps k.procCount k.processes) then none
  else some { k with tasks := k.tasks.map (Task.recalculate k.procCount k.processes) }

inductive Op
  | fork (parent child : Nat) (counter rest : Int)
  | incshare (caller : Nat)
  | exit (pid : Nat)
  | release (pid : Nat)
  | tick (pid : Nat)
  | recalculate

def Kernel.perform (k : Kernel) : Op → Option Kernel
  | .fork parent child counter rest => k.fork parent child counter rest
  | .incshare caller => some (k.incshare caller)
  | .exit pid => some (k.exit pid)
  | .release pid => k.release pid
  | .tick pid => some (k.tick pid)
  | .recalculate => k.recalculate

/-- Before any of this, every task has share 1 and every user is counted for its tasks. -/
structure Kernel.Fresh (k : Kernel) : Prop where
  share : ∀ p ∈ k.tasks, p.share = 1
  counted : ∀ U, k.processes U = Int32.ofNat (k.tasks.countP fun p => p.user = U)

/-- Where `schedule` runs: its processor, the `active_mm` of `prev` and the run queue. -/
structure Call where
  config : Config
  thisCpu : Nat
  activeMm : Nat
  runqueue : List Nat

def Call.canSchedule (s : Call) (p : Task) : Bool :=
  !s.config.smp || (p.cpusRunnable &&& p.cpusAllowed).testBit s.thisCpu

def Call.goodness (s : Call) (p : Task) : Int32 :=
  if p.yields then -1
  else if p.policy = .other then
    let weight := Int32.ofInt p.counter
    if weight = 0 then weight
    else
      let weight :=
        if s.config.smp ∧ p.processor = s.thisCpu then weight + s.config.procChangePenalty
        else weight
      let weight := if p.mm = some s.activeMm ∨ p.mm = none then weight + 1 else weight
      weight + Int32.ofInt (20 - p.nice)
  else 1000 + p.rtPriority

/-- The tasks the scan compares. -/
def Kernel.schedulable (k : Kernel) (s : Call) : List Task :=
  (s.runqueue.filterMap k.task?).filter s.canSchedule

/-- `c` and `next` after the scan of the run queue. -/
def Kernel.best (k : Kernel) (s : Call) : Int × Option Task :=
  scan (fun p => (s.goodness p).toInt) (k.schedulable s) (-1000, none)

/-- What `goodness` adds to a counter. -/
def Call.bonus (s : Call) (p : Task) : Int :=
  (if s.config.smp ∧ p.processor = s.thisCpu then s.config.procChangePenalty.toInt else 0) +
    (if p.mm = some s.activeMm ∨ p.mm = none then 1 else 0) + (20 - p.nice)

/-- The portion of a time-sharing task is negative, and its bonus makes up for it exactly. -/
def Kernel.Cancels (k : Kernel) (s : Call) (p : Task) : Prop :=
  p.yields = false ∧ (p.quotient k.procCount k.processes).toInt = -s.bonus p

/-- A task that is not chosen before one of weight 0: it yields, its portion is too small to be
made up for, or it is so large that the bonus makes it wrap. -/
def Kernel.Passed (k : Kernel) (s : Call) (p : Task) : Prop :=
  p.yields = true ∨ (p.quotient k.procCount k.processes).toInt ≤ -s.bonus p ∨
    2 ^ 31 ≤ (p.quotient k.procCount k.processes).toInt + s.bonus p

/-- Some task cancels, and no other one is chosen before it. -/
def Kernel.Stuck (k : Kernel) (s : Call) : Prop :=
  (∃ p ∈ k.schedulable s, k.Cancels s p) ∧ ∀ p ∈ k.schedulable s, k.Passed s p

theorem scan_eq_zero_iff {weight : ι → Int} {l : List ι} :
    (scan weight l (-1000, none)).1 = 0 ↔
      (∃ p ∈ l, weight p = 0) ∧ ∀ p ∈ l, weight p ≤ 0 := by
  have hspec : scan weight l (-1000, none) = (-1000, none) ∨
      ∃ p ∈ l, scan weight l (-1000, none) = (weight p, some p) := scan_spec
  constructor
  · intro h
    refine ⟨?_, fun p hp => h ▸ weight_le_scan hp⟩
    rcases hspec with hb | ⟨p, hp, hb⟩
    · rw [hb] at h
      cases h
    · rw [hb] at h
      exact ⟨p, hp, h⟩
  · rintro ⟨⟨p, hp, h0⟩, hle⟩
    have hge : weight p ≤ (scan weight l (-1000, none)).1 := weight_le_scan hp
    rcases hspec with hb | ⟨q, hq, hb⟩
    · rw [hb, h0] at hge
      cases hge
    · rw [hb] at hge ⊢
      have := hle q hq
      simp only at hge ⊢
      omega

section
variable {k k' : Kernel} {s : Call} {p : Task}

theorem Call.bonus_range (s : Call) (p : Task) : 1 ≤ s.bonus p ∧ s.bonus p < 2 ^ 17 := by
  have hn := p.nice_range
  have hp := s.config.penalty_range
  unfold Call.bonus
  split
  · split <;> omega
  · split <;> omega

theorem toInt_add_ite (c : Prop) [Decidable c] (w d : Int32) :
    (if c then w + d else w).toInt = (w.toInt + if c then d.toInt else 0).bmod (2 ^ 32) := by
  split
  · exact Int32.toInt_add w d
  · rw [Int.add_zero]
    exact w.toInt_bmod.symm

/-- The additions of `goodness` wrap as one. -/
theorem Call.goodness_other (hy : p.yields = false) (hp : p.policy = .other)
    (hc : Int32.ofInt p.counter ≠ 0) :
    (s.goodness p).toInt = (p.counter + s.bonus p).bmod (2 ^ 32) := by
  have hone : (1 : Int32).toInt = 1 := by decide
  have hsize : Int32.size = 2 ^ 32 := rfl
  simp only [Call.goodness, hy, hp, hc, Bool.false_eq_true, if_false, if_true]
  rw [Int32.toInt_add, toInt_add_ite, toInt_add_ite, Int32.toInt_ofInt, Int32.toInt_ofInt, hone,
    hsize]
  simp only [Int.bmod_add_bmod, Int.add_bmod_bmod]
  rw [Call.bonus, Int.add_assoc, Int.add_assoc, Int.add_assoc]

/-- The weight of a task that was just recalculated, by its portion. -/
theorem Kernel.weight_recalculate (k : Kernel) (s : Call) (hy : p.yields = false)
    (hp : p.policy = .other) :
    ((s.goodness (p.recalculate k.procCount k.processes)).toInt = 0 ↔ k.Cancels s p) ∧
      ((s.goodness (p.recalculate k.procCount k.processes)).toInt ≤ 0 ↔ k.Passed s p) := by
  have hb := s.bonus_range p
  have hlo := (p.quotient k.procCount k.processes).le_toInt
  have hhi := (p.quotient k.procCount k.processes).toInt_lt
  have hbonus : s.bonus (p.recalculate k.procCount k.processes) = s.bonus p := rfl
  have hcounter : (p.recalculate k.procCount k.processes).counter =
      if (p.quotient k.procCount k.processes).toInt = 0 then 1
      else (p.quotient k.procCount k.processes).toInt := rfl
  have hc : Int32.ofInt (p.recalculate k.procCount k.processes).counter ≠ 0 := by
    rw [hcounter]
    split
    · decide
    · intro h0
      rw [Int32.ofInt_toInt] at h0
      rename_i hq
      rw [h0] at hq
      exact hq rfl
  have hg := Call.goodness_other (s := s) (p := p.recalculate k.procCount k.processes) hy hp hc
  rw [hbonus, hcounter] at hg
  rw [hg, Kernel.Cancels, Kernel.Passed, hy, Int.bmod_def]
  simp only [true_and, Bool.false_eq_true, false_or]
  split
  · omega
  · omega

/-- Where the scan ended with `c` 0 there is no real-time task to choose. -/
theorem Call.other_of_goodness_nonpos (h : (s.goodness p).toInt ≤ 0) (hy : p.yields = false) :
    p.policy = .other := by
  by_contra hp
  have hr := p.rtPriority_range
  have hthousand : (1000 : Int32).toInt = 1000 := by decide
  simp only [Call.goodness, hy, hp, Bool.false_eq_true, if_false, Int32.toInt_add, hthousand] at h
  rw [Int.bmod_def] at h
  omega

theorem Kernel.rescanned (k : Kernel) (h : (s.goodness p).toInt ≤ 0) :
    ((s.goodness (p.recalculate k.procCount k.processes)).toInt = 0 ↔ k.Cancels s p) ∧
      ((s.goodness (p.recalculate k.procCount k.processes)).toInt ≤ 0 ↔ k.Passed s p) := by
  cases hy : p.yields with
  | false => exact k.weight_recalculate s hy (Call.other_of_goodness_nonpos h hy)
  | true =>
    have hw : s.goodness (p.recalculate k.procCount k.processes) = -1 := if_pos hy
    have hneg : (-1 : Int32).toInt = -1 := by decide
    rw [hw, hneg, Kernel.Cancels, Kernel.Passed, hy]
    simp

theorem Kernel.recalculate_tasks (h : k.recalculate = some k') :
    k'.tasks = k.tasks.map (Task.recalculate k.procCount k.processes) := by
  unfold Kernel.recalculate at h
  split at h
  · cases h
  · cases h
    rfl

theorem Kernel.recalculate_processes (h : k.recalculate = some k') :
    k'.processes = k.processes := by
  unfold Kernel.recalculate at h
  split at h
  · cases h
  · cases h
    rfl

theorem Kernel.schedulable_recalculate (s : Call) (h : k.recalculate = some k') :
    k'.schedulable s = (k.schedulable s).map (Task.recalculate k.procCount k.processes) := by
  have htask (pid : Nat) :
      k'.task? pid = (k.task? pid).map (Task.recalculate k.procCount k.processes) := by
    rw [Kernel.task?, recalculate_tasks h, List.find?_map]
    rfl
  rw [Kernel.schedulable, funext htask, ← List.map_filterMap, List.filter_map, Kernel.schedulable]
  rfl

theorem Kernel.best_recalculate (h : k.recalculate = some k') (h0 : (k.best s).1 = 0) :
    (k'.best s).1 = 0 ↔ k.Stuck s := by
  have hle := (scan_eq_zero_iff.mp h0).2
  rw [Kernel.best, scan_eq_zero_iff, schedulable_recalculate s h, List.forall_mem_map,
    Kernel.Stuck]
  constructor
  · rintro ⟨⟨q, hq, hw⟩, hall⟩
    obtain ⟨p, hp, rfl⟩ := List.mem_map.mp hq
    exact ⟨⟨p, hp, (k.rescanned (hle p hp)).1.mp hw⟩,
      fun q hq => (k.rescanned (hle q hq)).2.mp (hall q hq)⟩
  · rintro ⟨⟨p, hp, hc⟩, hall⟩
    exact ⟨⟨_, List.mem_map_of_mem hp, (k.rescanned (hle p hp)).1.mpr hc⟩,
      fun q hq => (k.rescanned (hle q hq)).2.mpr (hall q hq)⟩

theorem Kernel.recalculate_again (h : k.recalculate = some k') : k'.recalculate = some k' := by
  have hp := recalculate_processes h
  have ht := recalculate_tasks h
  have hcount : k'.procCount = k.procCount := by
    rw [Kernel.procCount, ht, List.foldl_map, Kernel.procCount]
  have htraps : k'.tasks.any (Task.traps k'.procCount k'.processes) = false := by
    unfold Kernel.recalculate at h
    split at h
    · cases h
    · rename_i hn
      rw [ht, hp, hcount, List.any_map]
      exact Bool.not_eq_true _ ▸ hn
  have hmap : k'.tasks.map (Task.recalculate k'.procCount k'.processes) = k'.tasks := by
    rw [hp, hcount, ht, List.map_map]
    rfl
  rw [Kernel.recalculate, htraps, hmap]
  rfl

theorem Kernel.recalculate_isSome (hu : ∀ p ∈ k.tasks, k.processes p.user ≠ 0) :
    (∃ k', k.recalculate = some k') ↔ ∀ p ∈ k.tasks,
      ¬ (p.share * k.procCount = Int32.minValue ∧ k.processes p.user = -1) := by
  have hany : k.tasks.any (Task.traps k.procCount k.processes) = true ↔
      ∃ p ∈ k.tasks, p.share * k.procCount = Int32.minValue ∧ k.processes p.user = -1 := by
    rw [List.any_eq_true]
    refine exists_congr fun p => and_congr_right fun hp => ?_
    simp [Task.traps, hu p hp]
  unfold Kernel.recalculate
  split
  · rename_i h
    obtain ⟨p, hp, ht⟩ := hany.mp h
    exact iff_of_false (by simp) fun hn => hn p hp ht
  · rename_i h
    exact iff_of_true ⟨_, rfl⟩ fun p hp ht => h (hany.mpr ⟨p, hp, ht⟩)

/-- One recalculation is enough exactly if every portion can be computed and none that its bonus
makes up for comes first. -/
theorem Kernel.rescan_iff (k : Kernel) (s : Call) (hu : ∀ p ∈ k.tasks, k.processes p.user ≠ 0)
    (h0 : (k.best s).1 = 0) :
    (∃ k', k.recalculate = some k' ∧ (k'.best s).1 ≠ 0) ↔
      (∀ p ∈ k.tasks, ¬ (p.share * k.procCount = Int32.minValue ∧ k.processes p.user = -1)) ∧
        ¬ k.Stuck s := by
  rw [← recalculate_isSome hu]
  constructor
  · rintro ⟨k', h, hb⟩
    exact ⟨⟨k', h⟩, fun hs => hb ((best_recalculate h h0).mpr hs)⟩
  · rintro ⟨⟨k', h⟩, hs⟩
    exact ⟨k', h, fun hb => hs ((best_recalculate h h0).mp hb)⟩

/-- As long as no portion is negative nothing is stuck. -/
theorem Kernel.not_stuck (h : ∀ p ∈ k.tasks, 0 ≤ (p.quotient k.procCount k.processes).toInt) :
    ¬ k.Stuck s := by
  rintro ⟨⟨p, hp, -, hc⟩, -⟩
  obtain ⟨pid, -, ht⟩ := List.mem_filterMap.mp (List.mem_of_mem_filter hp)
  have hq := h p (List.mem_of_find?_eq_some ht)
  have hb := s.bonus_range p
  omega

/-- Where it is not, `schedule` never leaves the loop. -/
theorem Kernel.stuck_for_ever (h : k.recalculate = some k') (h0 : (k.best s).1 = 0)
    (hs : k.Stuck s) : (k'.best s).1 = 0 ∧ k'.recalculate = some k' :=
  ⟨(best_recalculate h h0).mpr hs, recalculate_again h⟩

end

/-- A task of user 0 without ticks. -/
def idler (pid : Nat) (share : Int32) : Task where
  pid := pid
  user := 0
  share := share
  counter := 0
  nice := 19
  policy := .other
  yields := false
  rtPriority := 0
  mm := some pid
  processor := 0
  cpusRunnable := 1
  cpusAllowed := 1
  exited := false
  nice_range := by decide
  rtPriority_range := by decide

/-- One user with two tasks, the first of which has this share. -/
def pair (share count : Int32) : Kernel where
  tasks := [idler 1 share, idler 2 1]
  processes U := if U = 0 then count else 0

/-- A single processor on which only the first of the two runs. -/
def firstRuns : Call where
  config := ⟨false, 15, by decide⟩
  thisCpu := 0
  activeMm := 0
  runqueue := [1]

theorem pair_fresh : (pair 1 2).Fresh where
  share := by decide
  counted U := by
    by_cases h : U = 0
    · subst h
      rfl
    · simp [pair, idler, h, Ne.symm h]

theorem pair_incshare (share count : Int32) :
    (pair share count).incshare 1 = pair (share + 1) (count + 1) := by
  have hp : bump (pair share count).processes 0 1 = (pair (share + 1) (count + 1)).processes := by
    funext U
    by_cases h : U = 0
    · subst h
      rfl
    · simp [bump, pair, h]
  exact congrArg (Kernel.mk (pair (share + 1) (count + 1)).tasks) hp

theorem pair_play (n : Nat) (share count : Int32) :
    System.play Kernel.perform (pair share count) (List.replicate n (.incshare 1)) =
      some (pair (share + Int32.ofNat n) (count + Int32.ofNat n)) := by
  induction n generalizing share count with
  | zero =>
    have hzero : Int32.ofNat 0 = 0 := rfl
    rw [hzero, Int32.add_zero, Int32.add_zero]
    rfl
  | succ n ih =>
    have hsucc : Int32.ofNat (n + 1) = 1 + Int32.ofNat n := by
      rw [Nat.add_comm, Int32.ofNat_add]
      rfl
    rw [List.replicate_succ, System.play, Kernel.perform, pair_incshare, Option.bind_some, ih,
      hsucc, Int32.add_assoc, Int32.add_assoc]

theorem Kernel.rescan_iff_pair :
    (∃ k', (pair 1 2).recalculate = some k' ∧ (k'.best firstRuns).1 ≠ 0) ↔
      (∀ p ∈ (pair 1 2).tasks,
        ¬ (p.share * (pair 1 2).procCount = Int32.minValue ∧ (pair 1 2).processes p.user = -1)) ∧
        ¬ (pair 1 2).Stuck firstRuns :=
  Kernel.rescan_iff (pair 1 2) firstRuns (by decide) (by decide)

/-- With a share of 2 to the power of 30 the product of two tasks wraps, the portion is -1 and the
bonus of a nice task makes it 0 again. -/
theorem Kernel.not_rescan : ¬ ∀ (k₀ : Kernel) (ops : List Op) (k : Kernel) (s : Call), k₀.Fresh →
    System.play Kernel.perform k₀ ops = some k → (∀ p ∈ k.tasks, k.processes p.user ≠ 0) →
    (k.best s).1 = 0 → ∃ k', k.recalculate = some k' ∧ (k'.best s).1 ≠ 0 := by
  intro h
  obtain ⟨k', hr, hb⟩ := h (pair 1 2) _ _ firstRuns pair_fresh
    (pair_play (2 ^ 30 - 1) 1 2) (by decide) (by decide)
  have hzero : ((pair (1 + Int32.ofNat (2 ^ 30 - 1)) (2 + Int32.ofNat (2 ^ 30 - 1))).recalculate.map
      fun k => (k.best firstRuns).1) = some 0 := by decide
  rw [hr] at hzero
  exact hb (Option.some.inj hzero)

end NoblesseOblige.FairShare.Reschedule
