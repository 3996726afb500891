import NoblesseOblige.Wtc.Partition

namespace NoblesseOblige.Wtc
set_option autoImplicit true

namespace Bag

inductive ChildPc
  | outer
  | recheck
  | wait
  | inner
  | lock
  | dequeue
  | bump (row : Nat)
  | bumped (row q : Nat)
  | unlock (row : Nat)
  | cell (row j : Nat)
  | head (row j : Nat)
  | col (row j k : Nat)
  | via (row j : Nat)
  | row (row j k : Nat)
  | own (row j : Nat)
  | set (row j : Nat)
  | post
  | leave
  | done
  deriving DecidableEq

/-- What both bodies do alike: wait for a round, take a row off the queue under its lock, set a
cell, signal the parent, leave. -/
def taking (L : Layout n) (w : Nat) : ChildPc → Instr L ChildPc
  | .wait => .wait (.p2c w) .inner
  | .inner => .readQueue fun q => if q < n then .lock else .post
  | .lock => .wait .queue .dequeue
  | .dequeue => .readQueue .bump
  | .bump row => .readQueue (.bumped row)
  | .bumped row q => .writeQueue (q + 1) (.unlock row)
  | .set row j => .writeCurr (L.cell row j) 1 (.cell row (j + 1))
  | .post => .post (.c2p w) .outer
  | .leave => .exit w .done
  | _ => .halt

/-- The process re-reads `*iterator` at each use and looks at its own entry last. -/
def childProcess (L : Layout n) (processNumber : Nat) : ChildPc → Instr L ChildPc
  | .outer => .readQueue fun q => if q < n then .wait else .recheck
  | .recheck => .readIterator fun k => if k < n then .wait else .leave
  | .unlock row => .post .queue (if row < n then .cell row 0 else .inner)
  | .cell row j => if j < n then .readIterator (.col row j) else .jump .inner
  | .col row j k => .readPrev (L.cell k j) fun v => if v = 1 then .via row j else .own row j
  | .via row j => .readIterator (.row row j)
  | .row row j k => .readPrev (L.cell row k) fun v => if v ≠ 0 then .set row j else .own row j
  | .own row j =>
    .readPrev (L.cell row j) fun v => if v = 1 then .set row j else .cell row (j + 1)
  | pc => taking L processNumber pc

/-- The thread looks at its own entry first, and stops taking rows at the first useless one. -/
def thread (L : Layout n) (tid : Nat) : ChildPc → Instr L ChildPc
  | .outer => .readIterator fun k => if k < n then .recheck else .leave
  | .recheck => .readIterator fun k => if n ≤ k then .leave else .wait
  | .unlock row => .post .queue (if n ≤ row then .post else .cell row 0)
  | .cell row j =>
    if j < n then .readPrev (L.cell row j) fun v => if v = 1 then .set row j else .head row j
    else .jump .inner
  | .head row j => .readIterator (.col row j)
  | .col row j k =>
    .readPrev (L.cell k j) fun v => if v = 1 then .via row j else .cell row (j + 1)
  | .via row j => .readIterator (.row row j)
  | .row row j k =>
    .readPrev (L.cell row k) fun v => if v = 1 then .set row j else .cell row (j + 1)
  | pc => taking L tid pc

inductive ParentPc
  | load (y z : Nat)
  | fork (k : Nat)
  | start
  | test
  | lockQueue
  | reset
  | unlockQueue
  | signal (k : Nat)
  | await (k : Nat)
  | copy (y z : Nat)
  | store (y z : Nat) (v : Int)
  | step
  | stepped (k : Nat)
  | release (k : Nat)
  | destroyP2c (k : Nat)
  | destroyC2p (k : Nat)
  | join (k : Nat)
  | print (y z : Nat)
  | done
  deriving DecidableEq

/-- What both parents do alike. The round number is the shared `iterator`; `first`, `enter`
and `teardown` are where each goes after creating the workers, into a round, and at the end. -/
def rounds (L : Layout n) (P : Nat) (first enter teardown : ParentPc) :
    ParentPc → Instr L ParentPc
  | .fork k => if k < P then .fork k (.fork (k + 1)) else .jump first
  | .test => .readIterator fun k => if k < n then enter else teardown
  | .signal k => if k < P then .post (.p2c k) (.signal (k + 1)) else .jump (.await 0)
  | .await k => if k < P then .wait (.c2p k) (.await (k + 1)) else .jump (.copy 0 0)
  | .copy y z =>
    if y < n then
      if z < n then .readCurr (L.cell y z) (.store y z) else .jump (.copy (y + 1) 0)
    else .jump .step
  | .store y z v => .writePrev (L.cell y z) v (.copy y (z + 1))
  | .step => .readIterator .stepped
  | .stepped k => .writeIterator (k + 1) .test
  | _ => .halt

/-- The main process of `wtc_btproc`. -/
def procParent (L : Layout n) (numProcs : Nat) (A : Adjacency n) : ParentPc → Instr L ParentPc
  | .load y z =>
    if y < n then
      if z < n then .writePrev (L.cell y z) (A.entry y z) (.load y (z + 1))
      else .jump (.load (y + 1) 0)
    else .jump (.fork 0)
  | .reset => .writeQueue 0 (.signal 0)
  | .destroyP2c k =>
    if k < numProcs then .destroy (.p2c k) (.destroyC2p k) else .jump (.print 0 0)
  | .destroyC2p k => .destroy (.c2p k) (.destroyP2c (k + 1))
  | .print y z => printArrayMatrix L .print .done y z
  | pc => rounds L numProcs .test .reset (.destroyP2c 0) pc

/-- The main thread of `wtc_btthr`, which releases every worker once more after the last round
and destroys a worker's mutexes before joining it. -/
def thrParent (L : Layout n) (numThr : Nat) : ParentPc → Instr L ParentPc
  | .start => .writeIterator 0 .test
  | .lockQueue => .wait .queue .reset
  | .reset => .writeQueue 0 .unlockQueue
  | .unlockQueue => .post .queue (.signal 0)
  | .release k => if k < numThr then .post (.p2c k) (.release (k + 1)) else .jump (.destroyP2c 0)
  | .destroyP2c k =>
    if k < numThr then .destroy (.p2c k) (.destroyC2p k) else .jump (.print 0 0)
  | .destroyC2p k => .destroy (.c2p k) (.join k)
  | .join k => .join k (.destroyP2c (k + 1))
  | .print y z => printMatrix L .print .done y z
  | pc => rounds L numThr .start .lockQueue (.release 0) pc

end Bag

@[reducible] def wtcBtproc (n numProcs : Nat) (A : Adjacency n) : Program (Layout.flat n) where
  ParentPc := Bag.ParentPc
  ChildPc := Bag.ChildPc
  sync := .semaphore
  workers := numProcs
  parent := Bag.procParent (Layout.flat n) numProcs A
  child := Bag.childProcess (Layout.flat n)
  memory := fresh (Layout.flat n)
  parentStart := .load 0 0
  childStart := .outer

@[reducible] def wtcBtthr (n numThr : Nat) (A : Adjacency n) : Program (Layout.rows n) where
  ParentPc := Bag.ParentPc
  ChildPc := Bag.ChildPc
  sync := .mutex
  workers := numThr
  parent := Bag.thrParent (Layout.rows n) numThr
  child := Bag.thread (Layout.rows n)
  memory := { fresh (Layout.rows n) with prev := fun a => A.entry a.1 a.2 }
  parentStart := .fork 0
  childStart := .outer

end NoblesseOblige.Wtc
