import NoblesseOblige.Wtc.Rounds
import NoblesseOblige.Wtc.Bag

namespace NoblesseOblige.Wtc.Bag
set_option autoImplicit true

/-- What the parent's program point says about one worker. -/
inductive Stage
  | unborn
  | idle
  | busy
  | draining

def stage : ParentPc → Nat → Stage
  | .load _ _, _ => .unborn
  | .fork k, w => if w < k then .idle else .unborn
  | .signal k, w => if w < k then .busy else .idle
  | .await k, w => if w < k then .idle else .busy
  | .release _, _ | .destroyP2c _, _ | .destroyC2p _, _ | .join _, _ | .print _ _, _
  | .done, _ => .draining
  | _, _ => .idle

/-- The worker holds the queue's lock. -/
def Crit : ChildPc → Prop
  | .dequeue | .bump _ | .bumped _ _ | .unlock _ => True
  | _ => False

/-- The row the worker has taken and not yet finished. -/
def Owns : ChildPc → Nat → Prop
  | .unlock r, i | .cell r _, i | .head r _, i | .col r _ _, i | .via r _, i | .row r _ _, i
  | .own r _, i | .set r _, i => r = i
  | _, _ => False

def Tokens (h : Shared L) (w a b : Nat) : Prop := h.sem (.p2c w) = a ∧ h.sem (.c2p w) = b

/-- The worker is between two rounds; it leaves only after the last one. -/
def Outside (n : Nat) (h : Shared L) : ChildPc → Prop
  | .outer | .recheck | .wait => True
  | .leave | .done => n ≤ h.iterator
  | _ => False

/-- Where a worker can be once the last round is over. -/
def Draining : ChildPc → Prop
  | .outer | .recheck | .wait | .inner | .post | .leave | .done => True
  | _ => False

section
variable {n : Nat} (A : Adjacency n) (L : Layout n) (first : Bool) (h : Shared L)

structure InCell (i j : Nat) : Prop where
  row : i < n
  cells : ∀ j', j' < j → A.Upto (h.iterator + 1) i j' → h.curr (L.cell i j') = 1

/-- A body that tests its own entry first knows that the entry was not set. -/
def Missed (i j : Nat) : Prop := first = true → ¬ A.Upto h.iterator i j

/-- What a worker inside a round has computed, and what its reads have told it. -/
def Working : ChildPc → Prop
  | .inner | .lock | .dequeue => True
  | .bump r => r = h.queue
  | .bumped r q => r = h.queue ∧ q = h.queue
  | .unlock r => r < h.queue
  | .cell r j => InCell A L h r j
  | .head r j => j < n ∧ InCell A L h r j ∧ ¬ A.Upto h.iterator r j
  | .col r j k => k = h.iterator ∧ j < n ∧ InCell A L h r j ∧ Missed A L first h r j
  | .via r j => j < n ∧ InCell A L h r j ∧ Missed A L first h r j ∧ A.Upto h.iterator h.iterator j
  | .row r j k => k = h.iterator ∧ j < n ∧ InCell A L h r j ∧ Missed A L first h r j ∧
      A.Upto h.iterator h.iterator j
  | .own r j => j < n ∧ InCell A L h r j ∧
      ¬ (A.Upto h.iterator r h.iterator ∧ A.Upto h.iterator h.iterator j)
  | .set r j => j < n ∧ InCell A L h r j ∧ A.Upto (h.iterator + 1) r j
  | .post => n ≤ h.queue
  | _ => False

def BusyOk (w : Nat) (pc : ChildPc) : Prop :=
  Outside n h pc ∧ Tokens h w 1 0 ∨ Working A L first h pc ∧ Tokens h w 0 0 ∨
    Outside n h pc ∧ Tokens h w 0 1 ∧ n ≤ h.queue

def WorkerOk (w : Nat) (pc : ChildPc) : Stage → Prop
  | .unborn => h.born w = false ∧ pc = .outer ∧ Tokens h w 0 0
  | .idle => h.born w = true ∧ Outside n h pc ∧ Tokens h w 0 0
  | .busy => h.born w = true ∧ BusyOk A L first h w pc
  | .draining => h.born w = true ∧ Draining pc

/-- What the parent has loaded, copied and printed, and when the queue is known to be empty. -/
def ParentOk : ParentPc → Prop
  | .load y z => h.iterator = 0 ∧ z ≤ n ∧ Filled L h.prev (A.Upto 0) y z ∧
      Agrees L h.curr (fun _ _ => False) ∧ h.out = []
  | .fork _ | .start => h.iterator = 0 ∧ Agrees L h.prev (A.Upto 0) ∧
      Agrees L h.curr (fun _ _ => False) ∧ h.out = []
  | .test => h.iterator ≤ n ∧ (0 < h.iterator → n ≤ h.queue) ∧
      Agrees L h.prev (A.Upto h.iterator) ∧
      Agrees L h.curr (fun i j => 0 < h.iterator ∧ A.Upto h.iterator i j) ∧ h.out = []
  | .lockQueue | .reset => h.iterator < n ∧ Agrees L h.prev (A.Upto h.iterator) ∧
      Below L h.curr (A.Upto (h.iterator + 1)) ∧ h.out = []
  | .unlockQueue => h.iterator < n ∧ Agrees L h.prev (A.Upto h.iterator) ∧
      Below L h.curr (A.Upto (h.iterator + 1)) ∧ h.out = [] ∧ h.queue = 0
  | .signal _ => h.iterator < n ∧ Agrees L h.prev (A.Upto h.iterator) ∧
      Below L h.curr (A.Upto (h.iterator + 1)) ∧ h.out = []
  | .await k => h.iterator < n ∧ Agrees L h.prev (A.Upto h.iterator) ∧
      Below L h.curr (A.Upto (h.iterator + 1)) ∧ h.out = [] ∧ (0 < k → n ≤ h.queue)
  | .copy y z => h.iterator < n ∧ n ≤ h.queue ∧ Filled L h.prev (A.Upto (h.iterator + 1)) y z ∧
      Agrees L h.curr (A.Upto (h.iterator + 1)) ∧ h.out = []
  | .store y z v => h.iterator < n ∧ n ≤ h.queue ∧ y < n ∧ z < n ∧
      Filled L h.prev (A.Upto (h.iterator + 1)) y z ∧
      Agrees L h.curr (A.Upto (h.iterator + 1)) ∧ h.out = [] ∧
      (A.Upto (h.iterator + 1) y z → v = 1) ∧ (¬ A.Upto (h.iterator + 1) y z → v = 0)
  | .step => h.iterator < n ∧ n ≤ h.queue ∧ Agrees L h.prev (A.Upto (h.iterator + 1)) ∧
      Agrees L h.curr (A.Upto (h.iterator + 1)) ∧ h.out = []
  | .stepped k => k = h.iterator ∧ h.iterator < n ∧ n ≤ h.queue ∧
      Agrees L h.prev (A.Upto (h.iterator + 1)) ∧ Agrees L h.curr (A.Upto (h.iterator + 1)) ∧
      h.out = []
  | .release _ | .destroyP2c _ | .destroyC2p _ | .join _ => n ≤ h.iterator ∧ n ≤ h.queue ∧
      Agrees L h.prev (A.Upto n) ∧ Agrees L h.curr (A.Upto n) ∧ h.out = []
  | .print y z => n ≤ h.iterator ∧ n ≤ h.queue ∧ Agrees L h.prev (A.Upto n) ∧
      Agrees L h.curr (A.Upto n) ∧ Printing n A.closure y z h.out
  | .done => n ≤ h.iterator ∧ n ≤ h.queue ∧ Agrees L h.prev (A.Upto n) ∧
      Agrees L h.curr (A.Upto n) ∧ h.out = printed n A.closure n 0

end

/-- The parent is between its first signal of a round and its last collection. -/
def InRound : ParentPc → Prop
  | .signal _ | .await _ => True
  | _ => False

inductive Holder
  | free
  | parent
  | worker (v : Nat)
  deriving DecidableEq

section
variable {n : Nat} (A : Adjacency n) (L : Layout n) (first : Bool) (P : Nat)
variable (holds : ParentPc → Prop)

/-- At most one party is inside the queue's lock. -/
def Locked (h : Shared L) (pc : ParentPc) (cs : Nat → ChildPc) (o : Holder) : Prop :=
  h.sem .queue = (if o = .free then 1 else 0) ∧ (holds pc ↔ o = .parent) ∧
    ∀ w, w < P → (Crit (cs w) ↔ o = .worker w)

/-- Every row taken off the queue is complete or in the hands of a worker. -/
def Covered (h : Shared L) (cs : Nat → ChildPc) : Prop :=
  ∀ r, r < n → r < h.queue →
    RowDone L h.curr (A.Upto (h.iterator + 1)) r ∨ ∃ w, w < P ∧ Owns (cs w) r

/-- The invariant tying the program points, the hand-offs, the queue and the round together. -/
structure Inv (h : Shared L) (pc : ParentPc) (cs : Nat → ChildPc) : Prop where
  parent : ParentOk A L h pc
  worker : ∀ w, w < P → WorkerOk A L first h w (cs w) (stage pc w)
  lock : ∃ o, Locked L P holds h pc cs o
  rows : InRound pc → Covered A L P h cs

end

/-- The body of a worker of either program; `first` tells the threads. -/
def body (first : Bool) (L : Layout n) (w : Nat) : ChildPc → Instr L ChildPc :=
  match first with
  | true => thread L w
  | false => childProcess L w

/-- Everything a step of worker `w` can do, with what it has read. -/
inductive Goes (first : Bool) (L : Layout n) (w : Nat) (y : Sync) (h : Shared L) :
    ChildPc → Shared L → ChildPc → Prop
  | rows (hf : first = false) (hq : h.queue < n) : Goes first L w y h .outer h .wait
  | noRows (hf : first = false) (hq : n ≤ h.queue) : Goes first L w y h .outer h .recheck
  | more (hf : first = true) (hi : h.iterator < n) : Goes first L w y h .outer h .recheck
  | noMore (hf : first = true) (hi : n ≤ h.iterator) : Goes first L w y h .outer h .leave
  | again (hi : h.iterator < n) : Goes first L w y h .recheck h .wait
  | ended (hi : n ≤ h.iterator) : Goes first L w y h .recheck h .leave
  | wait (hp : h.sem (.p2c w) ≠ 0) :
      Goes first L w y h .wait (h.setSem (.p2c w) (h.sem (.p2c w) - 1)) .inner
  | pass (hq : h.queue < n) : Goes first L w y h .inner h .lock
  | empty (hq : n ≤ h.queue) : Goes first L w y h .inner h .post
  | lock (hl : h.sem .queue ≠ 0) :
      Goes first L w y h .lock (h.setSem .queue (h.sem .queue - 1)) .dequeue
  | dequeue : Goes first L w y h .dequeue h (.bump h.queue)
  | bump : Goes first L w y h (.bump r) h (.bumped r h.queue)
  | bumped : Goes first L w y h (.bumped r q) { h with queue := q + 1 } (.unlock r)
  | useful (hr : r < n) :
      Goes first L w y h (.unlock r) (h.setSem .queue (y.release (h.sem .queue))) (.cell r 0)
  | useless (hf : first = true) (hr : n ≤ r) :
      Goes first L w y h (.unlock r) (h.setSem .queue (y.release (h.sem .queue))) .post
  | skip (hf : first = false) (hr : n ≤ r) :
      Goes first L w y h (.unlock r) (h.setSem .queue (y.release (h.sem .queue))) .inner
  | finish (hj : n ≤ j) : Goes first L w y h (.cell r j) h .inner
  | entry (hf : first = true) (hj : j < n) (hv : h.prev (L.cell r j) = 1) :
      Goes first L w y h (.cell r j) h (.set r j)
  | noEntry (hf : first = true) (hj : j < n) (hv : h.prev (L.cell r j) ≠ 1) :
      Goes first L w y h (.cell r j) h (.head r j)
  | head (hf : first = true) : Goes first L w y h (.head r j) h (.col r j h.iterator)
  | cell (hf : first = false) (hj : j < n) :
      Goes first L w y h (.cell r j) h (.col r j h.iterator)
  | col (hv : h.prev (L.cell k j) = 1) : Goes first L w y h (.col r j k) h (.via r j)
  | noCol (hf : first = true) (hv : h.prev (L.cell k j) ≠ 1) :
      Goes first L w y h (.col r j k) h (.cell r (j + 1))
  | keep (hf : first = false) (hv : h.prev (L.cell k j) ≠ 1) :
      Goes first L w y h (.col r j k) h (.own r j)
  | via : Goes first L w y h (.via r j) h (.row r j h.iterator)
  | row (hv : h.prev (L.cell r k) = 1 ∨ first = false ∧ h.prev (L.cell r k) ≠ 0) :
      Goes first L w y h (.row r j k) h (.set r j)
  | noRow (hf : first = true) (hv : h.prev (L.cell r k) ≠ 1) :
      Goes first L w y h (.row r j k) h (.cell r (j + 1))
  | zero (hf : first = false) (hv : h.prev (L.cell r k) = 0) :
      Goes first L w y h (.row r j k) h (.own r j)
  | own (hf : first = false) (hv : h.prev (L.cell r j) = 1) :
      Goes first L w y h (.own r j) h (.set r j)
  | noOwn (hf : first = false) (hv : h.prev (L.cell r j) ≠ 1) :
      Goes first L w y h (.own r j) h (.cell r (j + 1))
  | set : Goes first L w y h (.set r j)
      { h with curr := Function.update h.curr (L.cell r j) 1 } (.cell r (j + 1))
  | post : Goes first L w y h .post (h.setSem (.c2p w) (y.release (h.sem (.c2p w)))) .outer
  | leave : Goes first L w y h .leave
      { h with exited := Function.update h.exited w true } .done

section
variable {n w : Nat} {L : Layout n} {first : Bool}

/-- What both bodies do alike. -/
theorem taking_goes {h h' : Shared L} (hs : (taking L w pc).run y h = some (h', pc')) :
    Goes first L w y h pc h' pc' := by
  cases pc with
  | wait =>
    rw [taking, Instr.run] at hs
    split at hs
    · cases hs
    · cases hs
      exact .wait ‹_›
  | inner =>
    cases hs
    dsimp only
    split
    · exact .pass ‹_›
    · exact .empty (Nat.le_of_not_lt ‹_›)
  | lock =>
    rw [taking, Instr.run] at hs
    split at hs
    · cases hs
    · cases hs
      exact .lock ‹_›
  | dequeue =>
    cases hs
    exact .dequeue
  | bump row =>
    cases hs
    exact .bump
  | bumped row q =>
    cases hs
    exact .bumped
  | set row j =>
    cases hs
    exact .set
  | post =>
    cases hs
    exact .post
  | leave =>
    cases hs
    exact .leave
  | _ => cases hs

theorem thread_goes {h h' : Shared L} (hs : (thread L w pc).run y h = some (h', pc')) :
    Goes true L w y h pc h' pc' := by
  cases pc with
  | outer =>
    cases hs
    dsimp only
    split
    · exact .more rfl ‹_›
    · exact .noMore rfl (Nat.le_of_not_lt ‹_›)
  | recheck =>
    cases hs
    dsimp only
    split
    · exact .ended ‹_›
    · exact .again (Nat.lt_of_not_le ‹_›)
  | unlock row =>
    cases hs
    split
    · exact .useless rfl ‹_›
    · exact .useful (Nat.lt_of_not_le ‹_›)
  | cell row j =>
    rw [thread] at hs
    split at hs
    · cases hs
      dsimp only
      split
      · exact .entry rfl ‹_› ‹_›
      · exact .noEntry rfl ‹_› ‹_›
    · cases hs
      exact .finish (Nat.le_of_not_lt ‹_›)
  | head row j =>
    cases hs
    exact .head rfl
  | col row j k =>
    cases hs
    dsimp only
    split
    · exact .col ‹_›
    · exact .noCol rfl ‹_›
  | via row j =>
    cases hs
    exact .via
  | row row j k =>
    cases hs
    dsimp only
    split
    · exact .row (.inl ‹_›)
    · exact .noRow rfl ‹_›
  | _ => exact taking_goes hs

theorem childProcess_goes {h h' : Shared L}
    (hs : (childProcess L w pc).run y h = some (h', pc')) : Goes false L w y h pc h' pc' := by
  cases pc with
  | outer =>
    cases hs
    dsimp only
    split
    · exact .rows rfl ‹_›
    · exact .noRows rfl (Nat.le_of_not_lt ‹_›)
  | recheck =>
    cases hs
    dsimp only
    split
    · exact .again ‹_›
    · exact .ended (Nat.le_of_not_lt ‹_›)
  | unlock row =>
    cases hs
    split
    · exact .useful ‹_›
    · exact .skip rfl (Nat.le_of_not_lt ‹_›)
  | cell row j =>
    rw [childProcess] at hs
    split at hs
    · cases hs
      exact .cell rfl ‹_›
    · cases hs
      exact .finish (Nat.le_of_not_lt ‹_›)
  | col row j k =>
    cases hs
    dsimp only
    split
    · exact .col ‹_›
    · exact .keep rfl ‹_›
  | via row j =>
    cases hs
    exact .via
  | row row j k =>
    cases hs
    dsimp only
    split
    · exact .row (.inr ⟨rfl, ‹_›⟩)
    · exact .zero rfl (Decidable.not_not.mp ‹_›)
  | own row j =>
    cases hs
    dsimp only
    split
    · exact .own rfl ‹_›
    · exact .noOwn rfl ‹_›
  | _ => exact taking_goes hs

theorem body_goes {h h' : Shared L} (hs : (body first L w pc).run y h = some (h', pc')) :
    Goes first L w y h pc h' pc' := by
  cases first with
  | true => exact thread_goes hs
  | false => exact childProcess_goes hs

end

/-- What a step of worker `w` does to the queue's lock. -/
def LockMove (y : Sync) (h h' : Shared L) (pc pc' : ChildPc) : Prop :=
  h'.sem .queue = h.sem .queue ∧ (Crit pc' ↔ Crit pc) ∨
    h.sem .queue ≠ 0 ∧ h'.sem .queue = h.sem .queue - 1 ∧ ¬ Crit pc ∧ Crit pc' ∨
    h'.sem .queue = y.release (h.sem .queue) ∧ Crit pc ∧ ¬ Crit pc'

/-- All that a step of worker `w` changes: its two hand-offs, the queue and its lock under mutual
exclusion and, inside a round, one cell that the round may set. -/
structure ChildEffect (A : Adjacency n) (y : Sync) (w : Nat) (st : Stage) (h h' : Shared L)
    (pc pc' : ChildPc) : Prop where
  prev : h'.prev = h.prev
  born : h'.born = h.born
  out : h'.out = h.out
  iterator : h'.iterator = h.iterator
  sem : ∀ x, x ≠ .p2c w → x ≠ .c2p w → x ≠ .queue → h'.sem x = h.sem x
  queue : h'.queue = h.queue ∨ Crit pc ∧ h'.queue = h.queue + 1 ∧ Owns pc' h.queue
  curr : h'.curr = h.curr ∨ ∃ i j, st = .busy ∧ i < n ∧ j < n ∧ A.Upto (h.iterator + 1) i j ∧
    h'.curr = Function.update h.curr (L.cell i j) 1
  lock : LockMove y h h' pc pc'
  owns : ∀ r, r < n → Owns pc r →
    Owns pc' r ∨ RowDone L h'.curr (A.Upto (h.iterator + 1)) r

section
variable {n : Nat} {A : Adjacency n} {L : Layout n} {first : Bool} {w : Nat}

theorem ChildEffect.ones {h h' : Shared L} (e : ChildEffect A y w st h h' pc pc') (a : L.Addr)
    (ha : h.curr a = 1) : h'.curr a = 1 := by
  rcases e.curr with he | ⟨i, j, _, _, _, _, he⟩
  · rwa [he]
  · rw [he]
    exact one_of_set ha _

theorem ChildEffect.queue_le {h h' : Shared L} (e : ChildEffect A y w st h h' pc pc') :
    h.queue ≤ h'.queue := by
  rcases e.queue with he | ⟨_, he, _⟩ <;> omega

theorem InCell.frame {h h' : Shared L} (hc : InCell A L h i j)
    (hi : h'.iterator = h.iterator) (hM : ∀ a, h.curr a = 1 → h'.curr a = 1) :
    InCell A L h' i j :=
  ⟨hc.row, fun j' hj hB => hM _ (hc.cells j' hj (hi ▸ hB))⟩

/-- A worker's own facts survive whatever leaves its hand-offs, its round and, while it holds
the lock, the queue alone, and clears no cell. -/
theorem Working.frame {h h' : Shared L} (hw : Working A L first h pc)
    (hi : h'.iterator = h.iterator) (hq : h.queue ≤ h'.queue)
    (hcrit : Crit pc → h'.queue = h.queue) (hM : ∀ a, h.curr a = 1 → h'.curr a = 1) :
    Working A L first h' pc := by
  cases pc with
  | inner | lock | dequeue => trivial
  | outer | recheck | wait | leave | done => exact hw
  | bump r => exact hw.trans (hcrit trivial).symm
  | bumped r q =>
    have he := (hcrit trivial).symm
    exact ⟨hw.1.trans he, hw.2.trans he⟩
  | unlock r => exact Nat.lt_of_lt_of_le hw hq
  | cell r j => exact InCell.frame hw hi hM
  | head r j =>
    obtain ⟨hj, hc, hb⟩ := hw
    exact ⟨hj, hc.frame hi hM, hi.symm ▸ hb⟩
  | col r j k =>
    obtain ⟨hk, hj, hc, hb⟩ := hw
    exact ⟨hk.trans hi.symm, hj, hc.frame hi hM, fun hf => hi.symm ▸ hb hf⟩
  | via r j =>
    obtain ⟨hj, hc, hb, hv⟩ := hw
    exact ⟨hj, hc.frame hi hM, fun hf => hi.symm ▸ hb hf, hi.symm ▸ hv⟩
  | row r j k =>
    obtain ⟨hk, hj, hc, hb, hv⟩ := hw
    exact ⟨hk.trans hi.symm, hj, hc.frame hi hM, fun hf => hi.symm ▸ hb hf, hi.symm ▸ hv⟩
  | own r j =>
    obtain ⟨hj, hc, hb⟩ := hw
    exact ⟨hj, hc.frame hi hM, hi.symm ▸ hb⟩
  | set r j =>
    obtain ⟨hj, hc, hb⟩ := hw
    exact ⟨hj, hc.frame hi hM, hi.symm ▸ hb⟩
  | post => exact Nat.le_trans hw hq

theorem Outside.frame {h h' : Shared L} (ho : Outside n h pc) (hi : h.iterator ≤ h'.iterator) :
    Outside n h' pc := by
  cases pc with
  | outer | recheck | wait => trivial
  | leave | done => exact Nat.le_trans ho hi
  | _ => exact ho

theorem WorkerOk.frame {h h' : Shared L} (ok : WorkerOk A L first h w pc st)
    (hb : h'.born w = h.born w) (hp : h'.sem (.p2c w) = h.sem (.p2c w))
    (hc : h'.sem (.c2p w) = h.sem (.c2p w)) (hi : h'.iterator = h.iterator)
    (hq : h.queue ≤ h'.queue) (hcrit : Crit pc → h'.queue = h.queue)
    (hM : ∀ a, h.curr a = 1 → h'.curr a = 1) : WorkerOk A L first h' w pc st := by
  cases st with
  | unborn =>
    obtain ⟨h₁, h₂, ht⟩ := ok
    exact ⟨hb.trans h₁, h₂, hp.trans ht.1, hc.trans ht.2⟩
  | idle =>
    obtain ⟨h₁, ho, ht⟩ := ok
    exact ⟨hb.trans h₁, ho.frame (Nat.le_of_eq hi.symm), hp.trans ht.1, hc.trans ht.2⟩
  | busy =>
    obtain ⟨h₁, h₂⟩ := ok
    refine ⟨hb.trans h₁, ?_⟩
    rcases h₂ with ⟨ho, ht⟩ | ⟨hw, ht⟩ | ⟨ho, ht, hn⟩
    · exact .inl ⟨ho.frame (Nat.le_of_eq hi.symm), hp.trans ht.1, hc.trans ht.2⟩
    · exact .inr (.inl ⟨hw.frame hi hq hcrit hM, hp.trans ht.1, hc.trans ht.2⟩)
    · exact .inr (.inr ⟨ho.frame (Nat.le_of_eq hi.symm), ⟨hp.trans ht.1, hc.trans ht.2⟩,
        Nat.le_trans hn hq⟩)
  | draining => exact ⟨hb.trans ok.1, ok.2⟩

theorem InCell.next {h h' : Shared L} (hc : InCell A L h i j) (hi : h'.iterator = h.iterator)
    (hM : ∀ a, h.curr a = 1 → h'.curr a = 1)
    (hj : A.Upto (h.iterator + 1) i j → h'.curr (L.cell i j) = 1) : InCell A L h' i (j + 1) := by
  refine ⟨hc.row, fun j' hj' hB => ?_⟩
  rw [hi] at hB
  rcases Nat.lt_succ_iff_lt_or_eq.1 hj' with hl | he
  · exact hM _ (hc.cells j' hl hB)
  · subst he
    exact hj hB

theorem InCell.rowDone {h : Shared L} (hc : InCell A L h i j) (hj : n ≤ j) :
    RowDone L h.curr (A.Upto (h.iterator + 1)) i :=
  fun j' hj' hB => hc.cells j' (by omega) hB

/-- Between two rounds a worker looks at the shared words, or takes the signal it was sent. -/
theorem Outside.step {h h' : Shared L} (ho : Outside n h pc)
    (hg : Goes first L w y h pc h' pc') :
    Outside n h pc' ∧ (∃ e, h' = { h with exited := e }) ∨
      pc' = .inner ∧ h.sem (.p2c w) ≠ 0 ∧ h' = h.setSem (.p2c w) (h.sem (.p2c w) - 1) := by
  cases hg with
  | rows | noRows | more | again => exact .inl ⟨trivial, _, rfl⟩
  | noMore hf hi => exact .inl ⟨hi, _, rfl⟩
  | ended hi => exact .inl ⟨hi, _, rfl⟩
  | wait hp => exact .inr ⟨rfl, hp, rfl⟩
  | leave => exact .inl ⟨ho, _, rfl⟩
  | _ => exact ho.elim

end

end NoblesseOblige.Wtc.Bag
