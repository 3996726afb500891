import NoblesseOblige.Scheduler.Schedule

namespace NoblesseOblige.Scheduler
set_option autoImplicit true

/-- Where a task is in `wait_for_completion`. -/
inductive Place
  | out
  | entering
  | marking
  | unlocking
  | calling
  | back
  | finishing
  deriving DecidableEq

/-- Who has `wait.lock`, with its interrupts off, and how far `__wake_up_common` is. -/
inductive Hold (n : Nat) (ι : Type)
  | free
  | waiter (p : ι)
  | waker (c : Fin n) (rest : List ι)
  | waking (c : Fin n) (p : ι) (rest : List ι)

/-- A completion, the tasks that are in `wait_for_completion` on it, and all the rest. Every entry
of its wait queue is exclusive. -/
structure Completion (n : Nat) (ι : Type) where
  kernel : Kernel n ι
  done : BitVec 32
  queue : List ι
  hold : Hold n ι
  place : ι → Place

section
variable [DecidableEq ι]

/-- The CPU is in `complete`. -/
def Completion.interrupted (s : Completion n ι) (c : Fin n) : Bool :=
  match s.hold with
  | .waker d _ => d = c
  | .waking d _ _ => d = c
  | _ => false

def Completion.masked (s : Completion n ι) (c : Fin n) : Bool :=
  s.interrupted c ||
    match s.hold with
    | .waiter p => s.kernel.current c = p
    | _ => false

def Completion.put (s : Completion n ι) (p : ι) (l : Place) : Completion n ι :=
  { s with place := Function.update s.place p l }

/-- The CPU on which something happens. -/
def Act.cpu : Act n ι → Option (Fin n)
  | .advance c _ | .schedule c | .setState c _ | .yield c | .nice c _ | .setscheduler c .. |
    .reparent c | .allow c .. | .wake c .. | .tick c | .handle c => some c
  | .signal .. => none

/-- The CPU whose task calls into the scheduler. -/
def Act.caller : Act n ι → Option (Fin n)
  | .schedule c | .setState c _ | .yield c | .nice c _ | .setscheduler c .. | .reparent c |
    .allow c .. => some c
  | _ => none

/-- What anybody else does: no CPU whose interrupts are off, and no task that is in
`wait_for_completion`. -/
def Completion.Allows (s : Completion n ι) (a : Act n ι) : Prop :=
  (∀ c, a.cpu = some c → s.masked c = false) ∧
    ∀ c, a.caller = some c → s.place (s.kernel.current c) = .out

instance (s : Completion n ι) (a : Act n ι) : Decidable (s.Allows a) :=
  inferInstanceAs (Decidable (_ ∧ _))

/-- The next statement of `wait_for_completion` in the task `p` that runs on the CPU. -/
def Board.wait (B : Board n ι) (s : Completion n ι) (c : Fin n) (p : ι) :
    Except Fault (Completion n ι) :=
  match s.place p, s.hold with
  | .out, _ => .ok (s.put p .entering)
  | .entering, .free =>
    .ok (if s.done = 0 then { s.put p .marking with queue := s.queue ++ [p], hold := .waiter p }
      else { s.put p .finishing with hold := .waiter p })
  | .marking, _ =>
    (B.perform s.kernel (.setState c .uninterruptible)).map fun k =>
      { s.put p .unlocking with kernel := k }
  | .unlocking, _ => .ok { s.put p .calling with hold := .free }
  | .calling, _ =>
    (B.perform s.kernel (.schedule c)).map fun k => { s.put p .back with kernel := k }
  | .back, .free =>
    .ok (if s.done = 0 then { s.put p .marking with hold := .waiter p }
      else { s.put p .finishing with queue := s.queue.erase p, hold := .waiter p })
  | .finishing, _ => .ok { s.put p .out with done := s.done - 1, hold := .free }
  | _, _ => .error .waits

/-- `TASK_UNINTERRUPTIBLE | TASK_INTERRUPTIBLE` -/
def wakeMode : BitVec 32 := State.uninterruptible.value ||| State.interruptible.value

/-- The next statement of `complete`, in a task or in an interrupt of the CPU. The loop of
`__wake_up_common` is over as soon as one task has been woken. -/
def Board.complete (B : Board n ι) (s : Completion n ι) (c : Fin n) :
    Except Fault (Completion n ι) :=
  match s.hold with
  | .free => .ok { s with done := s.done + 1, hold := .waker c s.queue }
  | .waker d [] => if d = c then .ok { s with hold := .free } else .error .waits
  | .waker d (p :: rest) =>
    if d ≠ c then .error .waits
    else .ok
      { s with
        hold := if (s.kernel.task p).state.value &&& wakeMode ≠ 0 then .waking c p rest
          else .waker c rest }
  | .waking d p rest =>
    if d ≠ c then .error .waits
    else
      (B.tryToWakeUp s.kernel (s.kernel.thisCpu c) p false).map fun r =>
        { s with kernel := r.1, hold := .waker c (if r.2 then [] else rest) }
  | .waiter _ => .error .waits

/-- What happens: something else, or a step of one of the two functions on a CPU. -/
inductive Event (n : Nat) (ι : Type)
  | other (a : Act n ι)
  | wait (c : Fin n)
  | complete (c : Fin n)

def Board.attend (B : Board n ι) (s : Completion n ι) : Event n ι → Except Fault (Completion n ι)
  | .other a =>
    if s.Allows a then (B.perform s.kernel a).map fun k => { s with kernel := k }
    else .error .waits
  | .wait c =>
    if B.Busy s.kernel c ∧ s.interrupted c = false then B.wait s c (s.kernel.current c)
    else .error .waits
  | .complete c => if (s.kernel.pc c).locked then .error .waits else B.complete s c

/-- The completion has been initialised, and nobody is in `wait_for_completion`. -/
structure Board.Fresh (B : Board n ι) (s : Completion n ι) : Prop where
  booted : B.Booted s.kernel
  done : s.done = 0
  queue : s.queue = []
  hold : s.hold = .free
  place : ∀ p, s.place p = .out

def Board.completion (B : Board n ι) : System (Completion n ι) where
  init := B.Fresh
  step s s' := ∃ e, B.attend s e = .ok s'

end

end NoblesseOblige.Scheduler
