import NoblesseOblige.Scheduler.Schedule

namespace NoblesseOblige.Scheduler
set_option autoImplicit true

/-- How far a CPU is in handing itself from one task to the next. -/
inductive Loc (ι : Type)
  | settled
  | writing
  | scanning (rest : List ι) (next : ι)
  | between
  | switching (next : ι)
  | leaving (prev : ι)

def Loc.locked : Loc ι → Bool
  | .scanning .. => true
  | .writing => true
  | _ => false

def Loc.next? : Loc ι → Option ι
  | .switching next => some next
  | _ => none

def Loc.prev? : Loc ι → Option ι
  | .leaving prev => some prev
  | _ => none

def Loc.queued : Loc ι → Bool
  | .settled => true
  | .writing => true
  | .leaving _ => true
  | _ => false

/-- The current task of the CPU may be about to sleep. -/
def Loc.drowsy : Loc ι → Bool
  | .settled => true
  | .writing => true
  | _ => false

/-- What decides who runs where, without what `goodness` weighs. -/
@[ext]
structure Core (n : Nat) (ι : Type) where
  state : ι → State
  queued : ι → Bool
  runnable : ι → BitVec 32
  processor : ι → Fin n
  mm : ι → Option Nat
  activeMm : ι → Option Nat
  runqueue : List ι
  nrRunning : Int
  lock : Option (Fin n)
  curr : Fin n → ι
  current : Fin n → ι
  loc : Fin n → Loc ι
  mmCount : Nat → Int

namespace Core

/-- The CPU runs the task, or has not let go of it, or is committed to it. -/
def Held (s : Core n ι) (c : Fin n) (p : ι) : Prop :=
  s.current c = p ∨ (s.loc c).next? = some p ∨ (s.loc c).prev? = some p

section
variable [DecidableEq ι]

def Moved (B : Board n ι) (s : Core n ι) (prev : ι) (rq : List ι) : Prop :=
  rq = s.runqueue ∨
    ¬ B.Idle prev ∧ s.queued prev = true ∧ rq = s.runqueue.erase prev ++ [prev]

def borrow (s : Core n ι) (oldmm : Nat) (next : ι) : Core n ι :=
  { s with
    activeMm :=
      if s.mm next = none then Function.update s.activeMm next (some oldmm) else s.activeMm
    mmCount :=
      if s.mm next = none then Function.update s.mmCount oldmm (s.mmCount oldmm + 1)
      else s.mmCount }

def giveBack (s : Core n ι) (oldmm : Nat) (prev : ι) : Core n ι :=
  { s with
    activeMm := if s.mm prev = none then Function.update s.activeMm prev none else s.activeMm
    mmCount :=
      if s.mm prev = none then Function.update s.mmCount oldmm (s.mmCount oldmm - 1)
      else s.mmCount }

/-- The steps of the scheduler, with the choice of `next` left open. -/
inductive Step (B : Board n ι) (s : Core n ι) : Core n ι → Prop
  | stay : Step B s s
  | move (p : ι) (rq : List ι) (hk : s.lock = none) (hr : Moved B s p rq) :
      Step B s { s with runqueue := rq }
  | enter (c : Fin n) (rq : List ι) (hc : s.loc c = .settled) (hk : s.lock = none)
      (hr : Moved B s (s.current c) rq) :
      Step B s
        { s with
          state := Function.update s.state (s.current c) .running
          runqueue := rq
          lock := some c
          loc := Function.update s.loc c
            (.scanning rq (B.idleTask (s.processor (s.current c)))) }
  | sleep (c : Fin n) (rq : List ι) (hc : s.loc c = .settled) (hk : s.lock = none)
      (hi : ¬ B.Idle (s.current c)) (hs : s.state (s.current c) ≠ .running)
      (hq : s.queued (s.current c) = true) (hr : Moved B s (s.current c) rq) :
      Step B s
        { s with
          queued := Function.update s.queued (s.current c) false
          runqueue := rq.erase (s.current c)
          nrRunning := s.nrRunning - 1
          lock := some c
          loc := Function.update s.loc c
            (.scanning (rq.erase (s.current c)) (B.idleTask (s.processor (s.current c)))) }
  | relock (c : Fin n) (hc : s.loc c = .between) (hk : s.lock = none) :
      Step B s
        { s with
          lock := some c
          loc := Function.update s.loc c
            (.scanning s.runqueue (B.idleTask (s.processor (s.current c)))) }
  | examine (c : Fin n) (p : ι) (rest : List ι) (next next' : ι)
      (hc : s.loc c = .scanning (p :: rest) next)
      (hn : next' = next ∨
        next' = p ∧ s.runnable p &&& bit (s.processor (s.current c)) ≠ 0) :
      Step B s { s with loc := Function.update s.loc c (.scanning rest next') }
  | exhaust (c : Fin n) (next : ι) (hc : s.loc c = .scanning [] next) :
      Step B s { s with lock := none, loc := Function.update s.loc c .between }
  | choose (c : Fin n) (next : ι) (hc : s.loc c = .scanning [] next) :
      Step B s
        { s with
          runnable := Function.update s.runnable next (bit (s.processor (s.current c)))
          processor := Function.update s.processor next (s.processor (s.current c))
          curr := Function.update s.curr (s.processor (s.current c)) next
          lock := none
          loc := Function.update s.loc c
            (if s.current c = next then .settled else .switching next) }
  | switch (c : Fin n) (next : ι) (oldmm : Nat) (hc : s.loc c = .switching next)
      (hm : s.activeMm (s.current c) = some oldmm) :
      Step B s
        { (s.borrow oldmm next).giveBack oldmm (s.current c) with
          current := Function.update s.current c next
          loc := Function.update s.loc c (.leaving (s.current c)) }
  | release (c : Fin n) (prev : ι) (hc : s.loc c = .leaving prev) :
      Step B s
        { s with
          runnable := Function.update s.runnable prev (BitVec.allOnes 32)
          loc := Function.update s.loc c .settled }
  | rouse (p : ι) (hk : s.lock = none) (hi : ¬ B.Idle p) (hq : s.queued p = true) :
      Step B s { s with state := Function.update s.state p .running }
  | wake (p : ι) (hk : s.lock = none) (hi : ¬ B.Idle p) (hq : s.queued p = false) :
      Step B s
        { s with
          state := Function.update s.state p .running
          queued := Function.update s.queued p true
          runqueue := s.runqueue ++ [p]
          nrRunning := s.nrRunning + 1 }
  | doze (c : Fin n) (state : State) (hc : s.loc c = .settled) (hi : ¬ B.Idle (s.current c)) :
      Step B s { s with state := Function.update s.state (s.current c) state }
  | seize (c : Fin n) (hc : s.loc c = .settled) (hk : s.lock = none) :
      Step B s { s with lock := some c, loc := Function.update s.loc c .writing }
  | write (c : Fin n) (hc : s.loc c = .writing) :
      Step B s { s with lock := none, loc := Function.update s.loc c .settled }

structure LockInv (s : Core n ι) : Prop where
  iff : ∀ c, s.lock = some c ↔ (s.loc c).locked = true

/-- Every CPU knows its number, and `cpus_runnable` of a task tells who has it. -/
structure OwnInv (B : Board n ι) (s : Core n ι) : Prop where
  home : ∀ c, s.processor (s.current c) = c
  curr : ∀ c, s.curr c = (s.loc c).next?.getD (s.current c)
  held : ∀ {c p}, s.Held c p → ¬ B.Idle p → s.runnable p = bit c
  idle : ∀ {c d}, s.Held c (B.idleTask d) → c = d
  owned : ∀ {p}, ¬ B.Idle p → s.runnable p = BitVec.allOnes 32 ∨ ∃ c, s.Held c p
  candidate : ∀ {c rest next}, s.loc c = .scanning rest next →
    next = B.idleTask c ∨ ¬ B.Idle next ∧ s.runnable next &&& bit c ≠ 0
  chosen : ∀ {c next}, s.loc c = .switching next → next ≠ s.current c ∧ s.processor next = c
  left : ∀ {c prev}, s.loc c = .leaving prev → prev ≠ s.current c

structure QueueInv (B : Board n ι) (s : Core n ι) : Prop where
  nodup : s.runqueue.Nodup
  busy : ∀ {p}, p ∈ s.runqueue → ¬ B.Idle p
  queued : ∀ {p}, ¬ B.Idle p → (s.queued p = true ↔ p ∈ s.runqueue)
  counted : s.nrRunning = s.runqueue.length

structure PlaceInv (B : Board n ι) (s : Core n ι) : Prop where
  current : ∀ {c}, (s.loc c).queued = true → s.current c = B.idleTask c ∨ s.current c ∈ s.runqueue
  rest : ∀ {c rest next}, s.loc c = .scanning rest next →
    rest <:+ s.runqueue ∧ (next = B.idleTask c ∨ next ∈ s.runqueue)
  next : ∀ {c next}, s.loc c = .switching next → next = B.idleTask c ∨ next ∈ s.runqueue

/-- Runnable tasks are on the run queue, and what else is there has not come to `schedule` yet. -/
structure StateInv (B : Board n ι) (s : Core n ι) : Prop where
  awake : ∀ {p}, ¬ B.Idle p → s.state p = .running → p ∈ s.runqueue
  asleep : ∀ {p}, p ∈ s.runqueue → s.state p ≠ .running →
    ∃ c, s.current c = p ∧ (s.loc c).drowsy = true

structure MmInv (s : Core n ι) : Prop where
  own : ∀ {p m}, s.mm p = some m → s.activeMm p = some m
  lazy : ∀ {p}, s.mm p = none → (s.activeMm p ≠ none ↔ ∃ c, s.current c = p)

structure Inv (B : Board n ι) (s : Core n ι) : Prop where
  lock : LockInv s
  own : OwnInv B s
  queue : QueueInv B s
  place : PlaceInv B s
  state : StateInv B s
  mm : MmInv s

end

end Core

end NoblesseOblige.Scheduler
