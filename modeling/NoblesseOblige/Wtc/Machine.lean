import NoblesseOblige.Transition
import Mathlib.Logic.Function.Basic
import Mathlib.Tactic.Ring

namespace NoblesseOblige.Wtc
set_option autoImplicit true

/-- The semaphores or mutexes: parent to child, child to parent, and the one on the queue. -/
inductive Sem
  | p2c (w : Nat)
  | c2p (w : Nat)
  | queue
  deriving DecidableEq

/-- The processes signal by semaphores, the threads by mutexes used as hand-off locks. -/
inductive Sync
  | semaphore
  | mutex
  deriving DecidableEq

/-- The value after `sem_post`, which counts, and after `pthread_mutex_unlock`, which does not. -/
def Sync.release : Sync → Nat → Nat
  | .semaphore, v => v + 1
  | .mutex, _ => 1

@[simp] theorem Sync.release_zero (y : Sync) : y.release 0 = 1 := by
  cases y <;> rfl

/-- How entry (i,j) of an n by n matrix is found in memory. -/
structure Layout (n : Nat) where
  Addr : Type
  decEq : DecidableEq Addr
  cell : Nat → Nat → Addr
  cell_inj : ∀ {i j i' j'}, j < n → j' < n → cell i j = cell i' j' → i = i' ∧ j = j'

instance (L : Layout n) : DecidableEq L.Addr := L.decEq

/-- The shared arrays of the processes: `M[i*numVerts+j]`. -/
def Layout.flat (n : Nat) : Layout n where
  Addr := Nat
  decEq := inferInstance
  cell i j := i * n + j
  cell_inj := by
    intro i j i' j' hj hj' h
    have hi : i = i' := by
      have hd := congrArg (· / n) h
      simp only [Nat.mul_comm _ n, Nat.mul_add_div (Nat.zero_lt_of_lt hj),
        Nat.div_eq_of_lt hj, Nat.div_eq_of_lt hj', Nat.add_zero] at hd
      exact hd
    subst hi
    exact ⟨rfl, Nat.add_left_cancel h⟩

/-- The row pointers of the threads: `M[i][j]`. -/
def Layout.rows (n : Nat) : Layout n where
  Addr := Nat × Nat
  decEq := inferInstance
  cell := Prod.mk
  cell_inj _ _ h := Prod.mk.inj h

theorem Layout.update_cell (L : Layout n) (M : L.Addr → Int) (v : Int) (hj : j < n)
    (hj' : j' < n) : Function.update M (L.cell i j) v (L.cell i' j') =
      if i' = i ∧ j' = j then v else M (L.cell i' j') := by
  by_cases h : i' = i ∧ j' = j
  · rw [if_pos h, h.1, h.2, Function.update_self]
  · rw [if_neg h, Function.update_of_ne]
    exact fun he => h (L.cell_inj hj' hj he)

/-- Everything the parent and its workers share, with what was printed so far. -/
structure Shared (L : Layout n) where
  prev : L.Addr → Int
  curr : L.Addr → Int
  queue : Nat
  iterator : Nat
  sem : Sem → Nat
  destroyed : Sem → Bool
  born : Nat → Bool
  exited : Nat → Bool
  out : List Int

def Shared.setSem (h : Shared L) (x : Sem) (v : Nat) : Shared L :=
  { h with sem := Function.update h.sem x v }

@[simp] theorem Shared.setSem_self (h : Shared L) (x : Sem) (v : Nat) :
    (h.setSem x v).sem x = v := Function.update_self ..

theorem Shared.setSem_of_ne (h : Shared L) (v : Nat) (hx : x' ≠ x) :
    (h.setSem x v).sem x' = h.sem x' := Function.update_of_ne hx ..

/-- One atomic step of a parent or worker: an access to a shared word, an operation on a
semaphore or mutex, or a jump between them. -/
inductive Instr (L : Layout n) (Pc : Type)
  | jump (next : Pc)
  | readPrev (a : L.Addr) (next : Int → Pc)
  | readCurr (a : L.Addr) (next : Int → Pc)
  | writePrev (a : L.Addr) (v : Int) (next : Pc)
  | writeCurr (a : L.Addr) (v : Int) (next : Pc)
  | readQueue (next : Nat → Pc)
  | writeQueue (v : Nat) (next : Pc)
  | readIterator (next : Nat → Pc)
  | writeIterator (v : Nat) (next : Pc)
  | wait (x : Sem) (next : Pc)
  | post (x : Sem) (next : Pc)
  | destroy (x : Sem) (next : Pc)
  | fork (w : Nat) (next : Pc)
  | join (w : Nat) (next : Pc)
  | exit (w : Nat) (next : Pc)
  | printPrev (a : L.Addr) (next : Pc)
  | printCurr (a : L.Addr) (next : Pc)
  | halt

/-- The effect of one instruction; `none` when it is blocked. -/
def Instr.run (y : Sync) (h : Shared L) : Instr L Pc → Option (Shared L × Pc)
  | .jump next => some (h, next)
  | .readPrev a next => some (h, next (h.prev a))
  | .readCurr a next => some (h, next (h.curr a))
  | .writePrev a v next => some ({ h with prev := Function.update h.prev a v }, next)
  | .writeCurr a v next => some ({ h with curr := Function.update h.curr a v }, next)
  | .readQueue next => some (h, next h.queue)
  | .writeQueue v next => some ({ h with queue := v }, next)
  | .readIterator next => some (h, next h.iterator)
  | .writeIterator v next => some ({ h with iterator := v }, next)
  | .wait x next => if h.sem x = 0 then none else some (h.setSem x (h.sem x - 1), next)
  | .post x next => some (h.setSem x (y.release (h.sem x)), next)
  | .destroy x next => some ({ h with destroyed := Function.update h.destroyed x true }, next)
  | .fork w next => some ({ h with born := Function.update h.born w true }, next)
  | .join w next => if h.exited w then some (h, next) else none
  | .exit w next => some ({ h with exited := Function.update h.exited w true }, next)
  | .printPrev a next => some ({ h with out := h.out ++ [h.prev a] }, next)
  | .printCurr a next => some ({ h with out := h.out ++ [h.curr a] }, next)
  | .halt => none

/-- The nested loops of `printMatrix` and `printArrayMatrix`, standing at entry (y,z). -/
def printLoop (L : Layout n) (emit : L.Addr → Pc → Instr L Pc) (pc : Nat → Nat → Pc) (done : Pc)
    (y z : Nat) : Instr L Pc :=
  if y < n then if z < n then emit (L.cell y z) (pc y (z + 1)) else .jump (pc (y + 1) 0)
  else .jump done

/-- The threads pass `matrix`, which they share as `M_prev`. -/
def printMatrix (L : Layout n) (pc : Nat → Nat → Pc) (done : Pc) (y z : Nat) : Instr L Pc :=
  printLoop L .printPrev pc done y z

/-- The processes pass `M_curr`. -/
def printArrayMatrix (L : Layout n) (pc : Nat → Nat → Pc) (done : Pc) (y z : Nat) : Instr L Pc :=
  printLoop L .printCurr pc done y z

/-- A parent with its workers: the program of each party, by program point. -/
structure Program (L : Layout n) where
  ParentPc : Type
  ChildPc : Type
  sync : Sync
  workers : Nat
  parent : ParentPc → Instr L ParentPc
  child : Nat → ChildPc → Instr L ChildPc
  memory : Shared L
  parentStart : ParentPc
  childStart : ChildPc

structure State (M : Program L) where
  shared : Shared L
  parent : M.ParentPc
  child : Nat → M.ChildPc

/-- Any party whose next instruction is not blocked may take the next step. -/
inductive Step (M : Program L) : State M → State M → Prop
  | parent : (M.parent s.parent).run M.sync s.shared = some (h, pc) →
      Step M s ⟨h, pc, s.child⟩
  | child : w < M.workers → s.shared.born w = true →
      (M.child w (s.child w)).run M.sync s.shared = some (h, pc) →
      Step M s ⟨h, s.parent, Function.update s.child w pc⟩

def Program.initial (M : Program L) : State M := ⟨M.memory, M.parentStart, fun _ => M.childStart⟩

def Program.system (M : Program L) : System (State M) where
  init s := s = M.initial
  step := Step M

/-- The step of the parent (`none`) or of one worker, if it is enabled. -/
def Program.next (M : Program L) (s : State M) : Option Nat → Option (State M)
  | none => ((M.parent s.parent).run M.sync s.shared).map fun r => ⟨r.1, r.2, s.child⟩
  | some w =>
    if w < M.workers ∧ s.shared.born w = true then
      ((M.child w (s.child w)).run M.sync s.shared).map fun r =>
        ⟨r.1, s.parent, Function.update s.child w r.2⟩
    else none

/-- Give the parties their turns in the order listed; a party that is blocked loses its turn. -/
def Program.play (M : Program L) (turns : List (Option Nat)) : State M :=
  turns.foldl (fun s c => (M.next s c).getD s) M.initial

/-- Round-robin turns for the parent and two workers. -/
def turns : Nat → List (Option Nat)
  | 0 => []
  | k + 1 => none :: some 0 :: some 1 :: turns k

theorem Program.next_none {M : Program L} {s s' : State M} (h : M.next s none = some s') :
    ∃ r, (M.parent s.parent).run M.sync s.shared = some r ∧ s' = ⟨r.1, r.2, s.child⟩ := by
  obtain ⟨r, hr, rfl⟩ := Option.map_eq_some_iff.mp h
  exact ⟨r, hr, rfl⟩

theorem Program.next_some {M : Program L} {s s' : State M} (h : M.next s (some w) = some s') :
    (w < M.workers ∧ s.shared.born w = true) ∧
      ∃ r, (M.child w (s.child w)).run M.sync s.shared = some r ∧
        s' = ⟨r.1, s.parent, Function.update s.child w r.2⟩ := by
  rw [Program.next] at h
  split at h
  · obtain ⟨r, hr, rfl⟩ := Option.map_eq_some_iff.mp h
    exact ⟨‹_›, r, hr, rfl⟩
  · cases h

theorem Program.next_step (M : Program L) {s s' : State M} (h : M.next s c = some s') :
    Step M s s' := by
  cases c with
  | none =>
    obtain ⟨r, hr, rfl⟩ := Program.next_none h
    exact .parent hr
  | some w =>
    obtain ⟨⟨hw, hb⟩, r, hr, rfl⟩ := Program.next_some h
    exact .child hw hb hr

theorem Program.play_reachable (M : Program L) (turns : List (Option Nat)) :
    M.system.Reachable (M.play turns) := by
  have keep (s : State M) (h : M.system.Reachable s) :
      M.system.Reachable (turns.foldl (fun s c => (M.next s c).getD s) s) := by
    induction turns generalizing s with
    | nil => exact h
    | cons c cs ih =>
      apply ih
      change M.system.Reachable ((M.next s c).getD s)
      cases hc : M.next s c with
      | none => exact h
      | some s' => exact h.next (M.next_step hc)
  exact keep _ (.start rfl)

theorem Step.next {M : Program L} {s s' : State M} (hs : Step M s s') :
    ∃ c, M.next s c = some s' := by
  cases hs with
  | parent hr => exact ⟨none, by rw [Program.next, hr, Option.map_some]⟩
  | child hw hb hr => exact ⟨some _, by rw [Program.next, if_pos ⟨hw, hb⟩, hr, Option.map_some]⟩

/-- The lists of turns are all the interleavings. -/
theorem Program.exists_play (M : Program L) {s : State M} (h : M.system.Reachable s) :
    ∃ turns, M.play turns = s := by
  apply h.invariant (I := fun s => ∃ turns, M.play turns = s)
  · rintro s rfl
    exact ⟨[], rfl⟩
  · rintro s s' ⟨turns, rfl⟩ hs
    obtain ⟨c, hc⟩ := hs.next
    refine ⟨turns ++ [c], ?_⟩
    rw [Program.play, List.foldl_append, List.foldl_cons, List.foldl_nil]
    change (M.next (M.play turns) c).getD (M.play turns) = s'
    rw [hc, Option.getD_some]

end NoblesseOblige.Wtc
