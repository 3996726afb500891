import NoblesseOblige.Wtc.Machine

namespace NoblesseOblige.Wtc
set_option autoImplicit true

/-- A square matrix of zeros and ones, the only kind `main` builds. -/
structure Adjacency (n : Nat) where
  entry : Nat → Nat → Int
  zero_or_one : ∀ i j, i < n → j < n → entry i j = 0 ∨ entry i j = 1

/-- The graph whose edges lead from each vertex to the next, and from the last to the first. -/
def Adjacency.cycle (n : Nat) : Adjacency n where
  entry i j := if j = (i + 1) % n then 1 else 0
  zero_or_one i j _ _ := by
    split
    · exact .inr rfl
    · exact .inl rfl

/-- Fresh memory: zeroed arrays, all hand-offs taken, the queue's own lock free. -/
def fresh (L : Layout n) : Shared L where
  prev _ := 0
  curr _ := 0
  queue := 0
  iterator := 0
  sem x := if x = .queue then 1 else 0
  destroyed _ := false
  born _ := false
  exited _ := false
  out := []

namespace Partition

inductive ChildPc
  | loop (k : Nat)
  | row (k i : Nat)
  | cell (k i j : Nat)
  | both (k i j : Nat)
  | own (k i j : Nat)
  | set (k i j : Nat)
  | done
  deriving DecidableEq

/-- Worker `w` computes the rows `w, w + numProcs, ..` of each round. -/
def child (L : Layout n) (numProcs w : Nat) : ChildPc → Instr L ChildPc
  | .loop k => if k < n then .wait (.p2c w) (.row k w) else .exit w .done
  | .row k i => if i < n then .jump (.cell k i 0) else .post (.c2p w) (.loop (k + 1))
  | .cell k i j =>
    if j < n then .readPrev (L.cell k j) fun v => if v = 1 then .both k i j else .own k i j
    else .jump (.row k (i + numProcs))
  | .both k i j => .readPrev (L.cell i k) fun v => if v ≠ 0 then .set k i j else .own k i j
  | .own k i j =>
    .readPrev (L.cell i j) fun v => if v = 1 then .set k i j else .cell k i (j + 1)
  | .set k i j => .writeCurr (L.cell i j) 1 (.cell k i (j + 1))
  | .done => .halt

/-- The thread body reads the same conditions in the same order. -/
def thr (L : Layout n) (numThr t : Nat) : ChildPc → Instr L ChildPc := child L numThr t

inductive ParentPc
  | load (y z : Nat)
  | fork (k : Nat)
  | round (m : Nat)
  | signal (m k : Nat)
  | await (m k : Nat)
  | copy (m y z : Nat)
  | store (m y z : Nat) (v : Int)
  | join (k : Nat)
  | destroyP2c (k : Nat)
  | destroyC2p (k : Nat)
  | print (y z : Nat)
  | done
  deriving DecidableEq

/-- What both parents do between creating the workers and tearing down: each round signals
every worker, waits for every worker and copies the new matrix over the old one. -/
def rounds (L : Layout n) (P : Nat) (teardown : ParentPc) : ParentPc → Instr L ParentPc
  | .fork k => if k < P then .fork k (.fork (k + 1)) else .jump (.round 0)
  | .round m => if m < n then .jump (.signal m 0) else .jump teardown
  | .signal m k => if k < P then .post (.p2c k) (.signal m (k + 1)) else .jump (.await m 0)
  | .await m k => if k < P then .wait (.c2p k) (.await m (k + 1)) else .jump (.copy m 0 0)
  | .copy m y z =>
    if y < n then
      if z < n then .readCurr (L.cell y z) (.store m y z) else .jump (.copy m (y + 1) 0)
    else .jump (.round (m + 1))
  | .store m y z v => .writePrev (L.cell y z) v (.copy m y (z + 1))
  | _ => .halt

/-- The main process of `wtc_proc`. -/
def procParent (L : Layout n) (numProcs : Nat) (A : Adjacency n) : ParentPc → Instr L ParentPc
  | .load y z =>
    if y < n then
      if z < n then .writePrev (L.cell y z) (A.entry y z) (.load y (z + 1))
      else .jump (.load (y + 1) 0)
    else .jump (.fork 0)
  | .destroyP2c k =>
    if k < numProcs then .destroy (.p2c k) (.destroyC2p k) else .jump (.print 0 0)
  | .destroyC2p k => .destroy (.c2p k) (.destroyP2c (k + 1))
  | .print y z => printArrayMatrix L .print .done y z
  | pc => rounds L numProcs (.destroyP2c 0) pc

/-- The main thread of `wtc_thr`, which prints the caller's own matrix. -/
def thrParent (L : Layout n) (nThr : Nat) : ParentPc → Instr L ParentPc
  | .join k => if k < nThr then .join k (.destroyP2c k) else .jump (.print 0 0)
  | .destroyP2c k => .destroy (.p2c k) (.destroyC2p k)
  | .destroyC2p k => .destroy (.c2p k) (.join (k + 1))
  | .print y z => printMatrix L .print .done y z
  | pc => rounds L nThr (.join 0) pc

end Partition

@[reducible] def wtcProc (n numProcs : Nat) (A : Adjacency n) : Program (Layout.flat n) where
  ParentPc := Partition.ParentPc
  ChildPc := Partition.ChildPc
  sync := .semaphore
  workers := numProcs
  parent := Partition.procParent (Layout.flat n) numProcs A
  child := Partition.child (Layout.flat n) numProcs
  memory := fresh (Layout.flat n)
  parentStart := .load 0 0
  childStart := .loop 0

/-- The threads share `matrix` itself as `M_prev`, so nothing is loaded. -/
@[reducible] def wtcThr (n nThr : Nat) (A : Adjacency n) : Program (Layout.rows n) where
  ParentPc := Partition.ParentPc
  ChildPc := Partition.ChildPc
  sync := .mutex
  workers := nThr
  parent := Partition.thrParent (Layout.rows n) nThr
  child := Partition.thr (Layout.rows n) nThr
  memory := { fresh (Layout.rows n) with prev := fun a => A.entry a.1 a.2 }
  parentStart := .fork 0
  childStart := .loop 0

end NoblesseOblige.Wtc
