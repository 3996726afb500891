import NoblesseOblige.CString
import Mathlib.Logic.Function.Basic

namespace NoblesseOblige.Scheduler
open CString
set_option autoImplicit true

inductive State
  | running
  | interruptible
  | uninterruptible
  | zombie
  | stopped
  deriving DecidableEq

/-- `TASK_RUNNING`, `TASK_INTERRUPTIBLE` and so on, as `__wake_up_common` masks them. -/
def State.value : State → BitVec 32
  | .running => 0
  | .interruptible => 1
  | .uninterruptible => 2
  | .zombie => 4
  | .stopped => 8

/-- `SCHED_OTHER` -/
def schedOther : BitVec 32 := 0
/-- `SCHED_FIFO` -/
def schedFifo : BitVec 32 := 1
/-- `SCHED_RR` -/
def schedRr : BitVec 32 := 2
/-- `SCHED_YIELD` -/
def schedYield : BitVec 32 := 0x10

/-- What `sched.c` reads and writes of a `task_struct`. The task is `queued` where
`run_list.next` is not `NULL`. -/
structure Task (n : Nat) where
  state : State
  sigpending : Bool
  needResched : Int
  counter : Int
  nice : Int
  policy : BitVec 32
  rtPriority : Int
  mm : Option Nat
  activeMm : Option Nat
  processor : Fin n
  cpusRunnable : BitVec 32
  cpusAllowed : BitVec 32
  queued : Bool
  uid : Nat
  euid : Nat
  capSysNice : Bool

/-- What stays the same: `init_tasks`, the tasks of `for_each_task` and how `find_task_by_pid` finds
them, `PROC_CHANGE_PENALTY`, and `cpu_sibling_map` where `smp_num_siblings` is 2. -/
structure Board (n : Nat) (ι : Type) where
  idleTask : Fin n → ι
  idle_inj : Function.Injective idleTask
  cpus_le : n ≤ 32
  tasks : List ι
  findTaskByPid : Int → Option ι
  find_busy : ∀ {pid c}, findTaskByPid pid ≠ some (idleTask c)
  hz : Nat
  penalty : Int
  sibling : Option (Fin n → Fin n)

/-- Where a CPU is in `schedule`, `__schedule_tail`, `sys_sched_yield` or `setscheduler`, with
what it keeps in its local variables. Elsewhere it runs the `code` of its current task. -/
inductive Pc (n : Nat) (ι : Type)
  | code
  | pending (rest : List (Fin n)) (nrPending : Int)
  | yielding
  | needReschedBack
  | scan (rest : List ι) (c : Int) (next : ι)
  | recalculate (rest : List ι)
  | relock
  | same
  | sameClear (policy : BitVec 32)
  | switchTo (next : ι)
  | tail (prev : ι)
  | tailClear (prev : ι) (policy : BitVec 32)
  | release (prev : ι) (policy : BitVec 32)
  | check (prev : ι) (policy : BitVec 32)
  | push (prev : ι)
  | sameProcess
  | setting (p : ι) (policy : BitVec 32) (priority : Int)

/-- All the CPUs share. `curr` and `lastSchedule` are those of `aligned_data`, `current` is the
task on whose stack a CPU runs, and `lock` says who has `runqueue_lock`. -/
structure Kernel (n : Nat) (ι : Type) where
  task : ι → Task n
  runqueue : List ι
  nrRunning : Int
  lock : Option (Fin n)
  curr : Fin n → ι
  lastSchedule : Fin n → BitVec 64
  current : Fin n → ι
  pc : Fin n → Pc n ι
  mmCount : Nat → Int
  ipi : Fin n → Bool

/-- A CPU that cannot go on yet `waits`. A `bug` is a failed `BUG_ON`, a `NULL` that is followed
or a list operation on an entry that is not, or is already, in the list. -/
inductive Fault
  | waits
  | bug
  deriving DecidableEq

section
variable [DecidableEq ι]

def Kernel.modify (k : Kernel n ι) (p : ι) (f : Task n → Task n) : Kernel n ι :=
  { k with task := Function.update k.task p (f (k.task p)) }

def Kernel.goto (k : Kernel n ι) (c : Fin n) (l : Pc n ι) : Kernel n ι :=
  { k with pc := Function.update k.pc c l }

/-- `1UL << cpu` -/
def bit (cpu : Fin n) : BitVec 32 := 1#32 <<< cpu.val

/-- `can_schedule` -/
def Task.canSchedule (p : Task n) (cpu : Fin n) : Bool :=
  p.cpusRunnable &&& p.cpusAllowed &&& bit cpu ≠ 0

/-- `task_has_cpu` -/
def Task.hasCpu (p : Task n) : Bool := p.cpusRunnable ≠ BitVec.allOnes 32

/-- `task_set_cpu` -/
def Task.setCpu (p : Task n) (cpu : Fin n) : Task n :=
  { p with processor := cpu, cpusRunnable := bit cpu }

/-- `task_release_cpu` -/
def Task.releaseCpu (p : Task n) : Task n := { p with cpusRunnable := BitVec.allOnes 32 }

/-- `NICE_TO_TICKS` -/
def Board.niceToTicks (B : Board n ι) (nice : Int) : Int :=
  (if B.hz < 200 then (20 - nice) / 4
    else if B.hz < 400 then (20 - nice) / 2
    else if B.hz < 800 then 20 - nice
    else if B.hz < 1600 then (20 - nice) * 2
    else (20 - nice) * 4) + 1

def Board.goodness (B : Board n ι) (p : Task n) (thisCpu : Fin n) (thisMm : Option Nat) : Int :=
  if p.policy &&& schedYield ≠ 0 then -1
  else if p.policy = schedOther then
    let weight := toInt p.counter
    if weight = 0 then weight
    else
      let weight := if p.processor = thisCpu then toInt (weight + B.penalty) else weight
      let weight := if p.mm = thisMm ∨ p.mm = none then toInt (weight + 1) else weight
      toInt (weight + (20 - p.nice))
  else toInt (1000 + p.rtPriority)

def Board.preemptionGoodness (B : Board n ι) (prev p : Task n) (cpu : Fin n) : Int :=
  toInt (B.goodness p cpu prev.activeMm - B.goodness prev cpu prev.activeMm)

/-- The variables of the loop in `reschedule_idle`. -/
structure Search (ι : Type) where
  oldestIdle : BitVec 64
  target : Option ι
  maxPrio : Int

def Board.siblingIdle (B : Board n ι) (k : Kernel n ι) (cpu : Fin n) : Bool :=
  B.sibling.any fun sibling => k.curr (sibling cpu) = B.idleTask (sibling cpu)

/-- The loop of `reschedule_idle` over the CPUs, which ends early at an idle one whose sibling is
idle too. -/
def Board.search (B : Board n ι) (k : Kernel n ι) (p : ι) : List (Fin n) → Search ι → Search ι
  | [], s => s
  | cpu :: cpus, s =>
    if !(k.task p).canSchedule cpu then B.search k p cpus s
    else
      let tsk := k.curr cpu
      if tsk = B.idleTask cpu then
        if B.siblingIdle k cpu then
          { s with oldestIdle := k.lastSchedule cpu, target := some tsk }
        else if k.lastSchedule cpu < s.oldestIdle then
          B.search k p cpus { s with oldestIdle := k.lastSchedule cpu, target := some tsk }
        else B.search k p cpus s
      else if s.oldestIdle = -1 then
        let prio := B.preemptionGoodness (k.task tsk) (k.task p) cpu
        if prio > s.maxPrio then B.search k p cpus { s with maxPrio := prio, target := some tsk }
        else B.search k p cpus s
      else B.search k p cpus s

/-- `need_resched` of the chosen task is set, and its CPU told unless it is this one or an idle
one that polls. -/
def Kernel.sendNow (k : Kernel n ι) (thisCpu cpu : Fin n) (tsk : ι) (poll : Bool) : Kernel n ι :=
  { k.modify tsk fun t => { t with needResched := 1 } with
    ipi :=
      if cpu = thisCpu ∨ poll ∧ (k.task tsk).needResched ≠ 0 then k.ipi
      else Function.update k.ipi cpu true }

def Board.rescheduleIdle (B : Board n ι) (k : Kernel n ι) (thisCpu : Fin n) (p : ι) :
    Kernel n ι :=
  let bestCpu := (k.task p).processor
  if (k.task p).canSchedule bestCpu ∧ k.curr bestCpu = B.idleTask bestCpu then
    k.sendNow thisCpu bestCpu (B.idleTask bestCpu) true
  else
    let s := B.search k p (List.finRange n) ⟨-1, none, 0⟩
    match s.target with
    | none => k
    | some tsk => k.sendNow thisCpu (k.task tsk).processor tsk (s.oldestIdle ≠ -1)

/-- An entry that is already linked would be linked twice. -/
def Kernel.addToRunqueue (k : Kernel n ι) (p : ι) : Except Fault (Kernel n ι) :=
  if (k.task p).queued then .error .bug
  else .ok
    { k.modify p fun t => { t with queued := true } with
      runqueue := k.runqueue ++ [p]
      nrRunning := k.nrRunning + 1 }

def Kernel.delFromRunqueue (k : Kernel n ι) (p : ι) : Except Fault (Kernel n ι) :=
  if (k.task p).queued then .ok
    { k.modify p fun t => { t with queued := false } with
      runqueue := k.runqueue.erase p
      nrRunning := k.nrRunning - 1 }
  else .error .bug

def Kernel.moveLastRunqueue (k : Kernel n ι) (p : ι) : Except Fault (Kernel n ι) :=
  if (k.task p).queued then .ok { k with runqueue := k.runqueue.erase p ++ [p] }
  else .error .bug

/-- The waker runs on `thisCpu`. -/
def Board.tryToWakeUp (B : Board n ι) (k : Kernel n ι) (thisCpu : Fin n) (p : ι)
    (synchronous : Bool) : Except Fault (Kernel n ι × Bool) :=
  if k.lock.isSome then .error .waits
  else
    let k := k.modify p fun t => { t with state := .running }
    if (k.task p).queued then .ok (k, false)
    else
      (k.addToRunqueue p).map fun k =>
        if !synchronous ∨ (k.task p).cpusAllowed &&& bit thisCpu = 0 then
          (B.rescheduleIdle k thisCpu p, true)
        else (k, true)

end

end NoblesseOblige.Scheduler
