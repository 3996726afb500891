import NoblesseOblige.Scheduler.Kernel
import NoblesseOblige.Transition

namespace NoblesseOblige.Scheduler
set_option autoImplicit true

/-- The CPU holds `runqueue_lock`, with its interrupts off. -/
def Pc.locked : Pc n ι → Bool
  | .scan .. => true
  | .setting .. => true
  | _ => false

section
variable [DecidableEq ι]

/-- An idle task, which never sleeps and whom nobody wakes. -/
def Board.Idle (B : Board n ι) (p : ι) : Prop := ∃ c, B.idleTask c = p

instance (B : Board n ι) (p : ι) : Decidable (B.Idle p) :=
  inferInstanceAs (Decidable (∃ c, B.idleTask c = p))

/-- An exhausted round-robin task becomes the last one. -/
def Board.moveExhausted (B : Board n ι) (k : Kernel n ι) (prev : ι) : Except Fault (Kernel n ι) :=
  if (k.task prev).policy = schedRr ∧ (k.task prev).counter = 0 then
    (k.modify prev fun t => { t with counter := B.niceToTicks t.nice }).moveLastRunqueue prev
  else .ok k

/-- The `switch` over `prev->state`. -/
def Kernel.leave (k : Kernel n ι) (prev : ι) : Except Fault (Kernel n ι) :=
  match (k.task prev).state with
  | .running => .ok k
  | .interruptible =>
    if (k.task prev).sigpending then .ok (k.modify prev fun t => { t with state := .running })
    else k.delFromRunqueue prev
  | _ => k.delFromRunqueue prev

/-- `this_cpu`, and `smp_processor_id()`, are what the current task says. -/
def Kernel.thisCpu (k : Kernel n ι) (c : Fin n) : Fin n := (k.task (k.current c)).processor

/-- `repeat_schedule`, where the default is the idle task. -/
def Board.repeatSchedule (B : Board n ι) (k : Kernel n ι) (c : Fin n) : Kernel n ι :=
  { k.goto c (.scan k.runqueue (-1000) (B.idleTask (k.thisCpu c))) with lock := some c }

/-- From `spin_lock_irq(&runqueue_lock)` to `repeat_schedule`. -/
def Board.needReschedBack (B : Board n ι) (k : Kernel n ι) (c : Fin n) :
    Except Fault (Kernel n ι) :=
  if k.lock.isSome then .error .waits
  else
    let prev := k.current c
    (B.moveExhausted k prev).bind fun k =>
      (k.leave prev).map fun k =>
        B.repeatSchedule (k.modify prev fun t => { t with needResched := 0 }) c

/-- One round of `list_for_each` over the run queue. -/
def Board.examine (B : Board n ι) (k : Kernel n ι) (c : Fin n) (p : ι) (rest : List ι) (w : Int)
    (next : ι) : Kernel n ι :=
  let thisCpu := k.thisCpu c
  let weight := B.goodness (k.task p) thisCpu (k.task (k.current c)).activeMm
  if (k.task p).canSchedule thisCpu ∧ weight > w then k.goto c (.scan rest weight p)
  else k.goto c (.scan rest w next)

/-- From the end of the scan to where `runqueue_lock` is dropped. -/
def Board.choose (B : Board n ι) (k : Kernel n ι) (c : Fin n) (w : Int) (next : ι) :
    Kernel n ι :=
  if w = 0 then { k.goto c (.recalculate B.tasks) with lock := none }
  else
    let thisCpu := k.thisCpu c
    { (k.modify next fun t => t.setCpu thisCpu).goto c
        (if k.current c = next then .same else .switchTo next) with
      curr := Function.update k.curr thisCpu next
      lock := none }

/-- A `next` without an `mm` borrows that of `prev`. -/
def Kernel.borrowMm (k : Kernel n ι) (oldmm : Nat) (next : ι) : Except Fault (Kernel n ι) :=
  match (k.task next).mm with
  | none =>
    if (k.task next).activeMm ≠ none then .error .bug
    else .ok
      { k.modify next fun t => { t with activeMm := some oldmm } with
        mmCount := Function.update k.mmCount oldmm (k.mmCount oldmm + 1) }
  | some mm => if (k.task next).activeMm ≠ some mm then .error .bug else .ok k

/-- A `prev` without an `mm` gives back the one it has borrowed. -/
def Kernel.returnMm (k : Kernel n ι) (oldmm : Nat) (prev : ι) : Kernel n ι :=
  if (k.task prev).mm = none then
    { k.modify prev fun t => { t with activeMm := none } with
      mmCount := Function.update k.mmCount oldmm (k.mmCount oldmm - 1) }
  else k

/-- From `get_cycles` to the end of `switch_to`. -/
def Kernel.switchTo (k : Kernel n ι) (c : Fin n) (cycles : BitVec 64) (next : ι) :
    Except Fault (Kernel n ι) :=
  let prev := k.current c
  let thisCpu := k.thisCpu c
  match (k.task prev).activeMm with
  | none => .error .bug
  | some oldmm =>
    (k.borrowMm oldmm next).map fun k =>
      { (k.returnMm oldmm prev).goto c (.tail prev) with
        lastSchedule := Function.update k.lastSchedule thisCpu cycles
        current := Function.update k.current c next }

/-- What `__schedule_tail` does under `runqueue_lock`. -/
def Board.push (B : Board n ι) (k : Kernel n ι) (c : Fin n) (prev : ι) :
    Except Fault (Kernel n ι) :=
  if k.lock.isSome then .error .waits
  else
    let k := k.goto c .sameProcess
    .ok (if (k.task prev).state = .running ∧ !(k.task prev).hasCpu then
      B.rescheduleIdle k (k.thisCpu c) prev else k)

/-- The next statement of a CPU that is not in the code of its task. -/
def Board.advance (B : Board n ι) (k : Kernel n ι) (c : Fin n) (cycles : BitVec 64) :
    Except Fault (Kernel n ι) :=
  let prev := k.current c
  match k.pc c with
  | .code => .error .waits
  | .pending (cpu :: cpus) nr =>
    .ok (k.goto c (.pending cpus (if k.curr cpu ≠ B.idleTask cpu then nr - 1 else nr)))
  | .pending [] nr =>
    if nr = 0 then .ok (k.goto c .code)
    else .ok ((k.modify prev fun t =>
      { t with
        policy := if t.policy = schedOther then t.policy ||| schedYield else t.policy
        needResched := 1 }).goto c .yielding)
  | .yielding =>
    if k.lock.isSome then .error .waits
    else (k.moveLastRunqueue prev).map fun k => k.goto c .code
  | .needReschedBack => B.needReschedBack k c
  | .scan (p :: rest) w next => .ok (B.examine k c p rest w next)
  | .scan [] w next => .ok (B.choose k c w next)
  | .recalculate (p :: rest) =>
    .ok ((k.modify p fun t =>
      { t with counter := t.counter / 2 + B.niceToTicks t.nice }).goto c (.recalculate rest))
  | .recalculate [] => .ok (k.goto c .relock)
  | .relock => if k.lock.isSome then .error .waits else .ok (B.repeatSchedule k c)
  | .same => .ok (k.goto c (.sameClear (k.task prev).policy))
  | .sameClear policy =>
    .ok ((k.modify prev fun t => { t with policy := policy &&& ~~~schedYield }).goto c
      .sameProcess)
  | .switchTo next => k.switchTo c cycles next
  | .tail prev => .ok (k.goto c (.tailClear prev (k.task prev).policy))
  | .tailClear prev policy =>
    .ok ((k.modify prev fun t => { t with policy := policy &&& ~~~schedYield }).goto c
      (.release prev policy))
  | .release prev policy => .ok ((k.modify prev Task.releaseCpu).goto c (.check prev policy))
  | .check prev policy =>
    if (k.task prev).state = .running ∧ prev ≠ B.idleTask (k.thisCpu c) ∧
        policy &&& schedYield = 0 then .ok (k.goto c (.push prev))
    else .ok (k.goto c .sameProcess)
  | .push prev => B.push k c prev
  | .sameProcess =>
    .ok (k.goto c (if (k.task prev).needResched ≠ 0 then .needReschedBack else .code))
  | .setting p policy priority =>
    .ok
      { ((k.modify p fun t => { t with policy := policy, rtPriority := priority }).modify prev
          fun t => { t with needResched := 1 }).goto c .code with
        lock := none }

inductive Errno
  | einval
  | efault
  | esrch
  | eperm
  deriving DecidableEq

/-- The `param` of `setscheduler`. -/
inductive Param
  | null
  | unreadable
  | priority (v : Int)

/-- `find_process_by_pid` -/
def Board.findProcess (B : Board n ι) (k : Kernel n ι) (c : Fin n) (pid : Int) : Option ι :=
  if pid = 0 then some (k.current c) else B.findTaskByPid pid

/-- The checks `setscheduler` makes once it has found `p`, with the policy it is to write. -/
def permit (current p : Task n) (policy priority : Int) : Except Errno (BitVec 32) :=
  let word := if policy < 0 then p.policy else BitVec.ofInt 32 policy
  if 0 ≤ policy ∧ word ≠ schedFifo ∧ word ≠ schedRr ∧ word ≠ schedOther then .error .einval
  else if priority < 0 ∨ 99 < priority then .error .einval
  else if ¬(word = schedOther ↔ priority = 0) then .error .einval
  else if (word = schedFifo ∨ word = schedRr) ∧ !current.capSysNice then .error .eperm
  else if current.euid ≠ p.euid ∧ current.euid ≠ p.uid ∧ !current.capSysNice then .error .eperm
  else .ok word

/-- `setscheduler` up to its first write: whose policy and priority it sets, and to what. -/
def Board.setscheduler (B : Board n ι) (k : Kernel n ι) (c : Fin n) (pid policy : Int)
    (param : Param) : Except Errno (ι × BitVec 32 × Int) :=
  match param with
  | .null => .error .einval
  | .unreadable => if pid < 0 then .error .einval else .error .efault
  | .priority v =>
    if pid < 0 then .error .einval
    else
      match B.findProcess k c pid with
      | none => .error .esrch
      | some p => (permit (k.task (k.current c)) (k.task p) policy v).map fun word => (p, word, v)

/-- `sys_nice`, with the new `nice` of the caller. -/
def sysNice (current : Task n) (increment : Int) : Except Errno Int :=
  if increment < 0 ∧ !current.capSysNice then .error .eperm
  else
    let increment := max (-40) (min 40 increment)
    .ok (max (-20) (min 19 (current.nice + increment)))

/-- `cpu_online_map` -/
def onlineMap (n : Nat) : BitVec 32 := BitVec.ofNat 32 (2 ^ n - 1)

/-- `set_cpus_allowed` up to the loop in which its caller waits. -/
def Kernel.setCpusAllowed (k : Kernel n ι) (c : Fin n) (p : ι) (newMask : BitVec 32) :
    Except Fault (Kernel n ι) :=
  let newMask := newMask &&& onlineMap n
  if newMask = 0 then .error .bug
  else
    let k := k.modify p fun t => { t with cpusAllowed := newMask }
    if (k.task p).cpusRunnable &&& newMask = 0 ∧ p ≠ k.current c then .ok
      { k.modify p fun t => { t with needResched := 1 } with
        ipi := Function.update k.ipi (k.task p).processor true }
    else .ok k

/-- What happens: a CPU goes on, its task calls into the scheduler, or an interrupt comes. -/
inductive Act (n : Nat) (ι : Type)
  | advance (c : Fin n) (cycles : BitVec 64)
  | schedule (c : Fin n)
  | setState (c : Fin n) (state : State)
  | yield (c : Fin n)
  | nice (c : Fin n) (increment : Int)
  | setscheduler (c : Fin n) (pid policy : Int) (param : Param)
  | reparent (c : Fin n)
  | allow (c : Fin n) (p : ι) (newMask : BitVec 32)
  | wake (c : Fin n) (p : ι) (synchronous : Bool)
  | tick (c : Fin n)
  | signal (p : ι) (sigpending : Bool)
  | handle (c : Fin n)

/-- The task of this CPU runs its code, and is not the idle one. -/
def Board.Busy (B : Board n ι) (k : Kernel n ι) (c : Fin n) : Prop :=
  (match k.pc c with
    | .code => True
    | _ => False) ∧ ¬ B.Idle (k.current c)

instance (B : Board n ι) (k : Kernel n ι) (c : Fin n) : Decidable (B.Busy k c) := by
  unfold Board.Busy
  cases k.pc c <;> exact inferInstance

def Board.perform (B : Board n ι) (k : Kernel n ι) : Act n ι → Except Fault (Kernel n ι)
  | .advance c cycles => B.advance k c cycles
  | .schedule c =>
    match k.pc c with
    | .code =>
      if (k.task (k.current c)).activeMm = none then .error .bug
      else .ok (k.goto c .needReschedBack)
    | _ => .error .waits
  | .setState c state =>
    if B.Busy k c then .ok (k.modify (k.current c) fun t => { t with state := state })
    else .error .waits
  | .yield c =>
    if B.Busy k c then .ok (k.goto c (.pending (List.finRange n) k.nrRunning))
    else .error .waits
  | .nice c increment =>
    if B.Busy k c then
      match sysNice (k.task (k.current c)) increment with
      | .error _ => .ok k
      | .ok nice => .ok (k.modify (k.current c) fun t => { t with nice := nice })
    else .error .waits
  | .setscheduler c pid policy param =>
    if B.Busy k c ∧ k.lock = none then
      match B.setscheduler k c pid policy param with
      | .error _ => .ok k
      | .ok (p, word, v) => .ok { k.goto c (.setting p word v) with lock := some c }
    else .error .waits
  | .reparent c =>
    if B.Busy k c ∧ k.lock = none then
      .ok (k.modify (k.current c) fun t => { t with nice := 0, policy := schedOther })
    else .error .waits
  | .allow c p newMask => if B.Busy k c then k.setCpusAllowed c p newMask else .error .waits
  | .wake c p synchronous =>
    if B.Idle p then .error .waits
    else (B.tryToWakeUp k (k.thisCpu c) p synchronous).map Prod.fst
  | .tick c =>
    if (k.pc c).locked ∨ B.Idle (k.current c) then .error .waits
    else .ok (k.modify (k.current c) fun t =>
      if t.counter - 1 ≤ 0 then { t with counter := 0, needResched := 1 }
      else { t with counter := t.counter - 1 })
  | .signal p sigpending => .ok (k.modify p fun t => { t with sigpending := sigpending })
  | .handle c => .ok { k with ipi := Function.update k.ipi c false }

/-- The CPUs have just gone idle for the first time, and every other task waits to be chosen or to
be woken. -/
structure Board.Booted (B : Board n ι) (k : Kernel n ι) : Prop where
  lock : k.lock = none
  code : ∀ c, k.pc c = .code
  current : ∀ c, k.current c = B.idleTask c
  curr : ∀ c, k.curr c = B.idleTask c
  processor : ∀ c, (k.task (B.idleTask c)).processor = c
  idle : ∀ c, (k.task (B.idleTask c)).state = .running ∧
    (k.task (B.idleTask c)).policy = schedOther
  nodup : k.runqueue.Nodup
  busy : ∀ c, B.idleTask c ∉ k.runqueue
  queued : ∀ p, ¬ B.Idle p → ((k.task p).queued = true ↔ p ∈ k.runqueue)
  running : ∀ p, ¬ B.Idle p → ((k.task p).state = .running ↔ p ∈ k.runqueue)
  counted : k.nrRunning = k.runqueue.length
  released : ∀ p, ¬ B.Idle p → (k.task p).cpusRunnable = BitVec.allOnes 32
  mm : ∀ p m, (k.task p).mm = some m → (k.task p).activeMm = some m
  lazy : ∀ p, (k.task p).mm = none → ((k.task p).activeMm.isSome ↔ B.Idle p)

def Board.system (B : Board n ι) : System (Kernel n ι) where
  init := B.Booted
  step k k' := ∃ a, B.perform k a = .ok k'

def Board.act (B : Board n ι) (k : Kernel n ι) (a : Act n ι) : Option (Kernel n ι) :=
  (B.perform k a).toOption

/-- The events happen one after the other, if all of them can. -/
def Board.run (B : Board n ι) (k : Kernel n ι) (as : List (Act n ι)) : Option (Kernel n ι) :=
  System.play B.act k as

theorem Board.act_eq_some {B : Board n ι} {k k' : Kernel n ι} :
    B.act k a = some k' ↔ B.perform k a = .ok k' := by
  unfold Board.act
  cases B.perform k a with
  | ok u => simp [Except.toOption]
  | error e => exact iff_of_false nofun nofun

theorem Board.run_steps {B : Board n ι} {k k' : Kernel n ι} (h : B.run k as = some k') :
    Relation.ReflTransGen B.system.step k k' := by
  apply System.play_invariant (I := fun k' => Relation.ReflTransGen B.system.step k k') ?_ .refl h
  exact fun u a v hu ha => hu.tail ⟨a, act_eq_some.mp ha⟩

/-- A run that keeps a property is one of the steps that do. -/
theorem Board.run_keeps {B : Board n ι} {k k' : Kernel n ι} {P : Kernel n ι → Prop}
    (h : B.run k as = some k') (hk : System.Keeps B.act k as P) :
    Relation.ReflTransGen (fun u v => B.system.step u v ∧ P u ∧ P v) k k' := by
  induction as using List.reverseRecOn generalizing k' with
  | nil => exact Option.some.inj h ▸ .refl
  | append_singleton as a ih =>
    obtain ⟨u, hu, ha⟩ := System.play_concat h
    exact (ih hu hk.init).tail ⟨⟨a, act_eq_some.mp ha⟩, hk.init.last hu, hk.last h⟩

theorem Board.goes {B : Board n ι} (h : B.system.Reachable k) (hg : System.Goes B.act k as u a v) :
    B.system.Reachable u ∧ B.perform u a = .ok v := by
  obtain ⟨before, _, _, hu, ha⟩ := hg
  exact ⟨h.run (run_steps hu), act_eq_some.mp ha⟩

end

end NoblesseOblige.Scheduler
