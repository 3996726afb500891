import NoblesseOblige.Wtc.BagTeardown
import NoblesseOblige.Wtc.Measure

namespace NoblesseOblige.Wtc.Bag
set_option autoImplicit true

/-- What a worker has still to do before it waits again, when the queue stands at `q`. -/
def ChildPc.rank (n q : Nat) : ChildPc → Nat
  | .done => 0
  | .leave | .wait => 1
  | .recheck => 2
  | .outer => 3
  | .post => 4
  | .inner => if q < n then 12 else 5
  | .lock => 11
  | .dequeue => 10
  | .bump _ => 9
  | .bumped _ _ => 8
  | .unlock r => if r < n then 7 * n + 14 else 6
  | .cell _ j => 7 * (n - j) + 13
  | .head _ j => 7 * (n - (j + 1)) + 19
  | .col _ j _ => 7 * (n - (j + 1)) + 18
  | .via _ j => 7 * (n - (j + 1)) + 17
  | .row _ j _ => 7 * (n - (j + 1)) + 16
  | .own _ j => 7 * (n - (j + 1)) + 15
  | .set _ j => 7 * (n - (j + 1)) + 14

/-- What the rows still on the queue will cost. -/
def queued (n q : Nat) : Nat := (7 * n + 7) * (n - q)

/-- What the signals to a worker and its own program point will still cost. -/
def burden (n : Nat) (h : Shared L) (w : Nat) (pc : ChildPc) : Nat :=
  12 * h.sem (.p2c w) + pc.rank n h.queue

/-- What a worker that moves the queue knows of it. -/
def Placed (h : Shared L) : ChildPc → Prop
  | .bumped r q => r = h.queue ∧ q = h.queue
  | .unlock r => r < h.queue
  | _ => True

theorem ChildPc.rank_le (pc : ChildPc) (hq : q ≤ q') : pc.rank n q' ≤ pc.rank n q := by
  cases pc with
  | inner =>
    simp only [ChildPc.rank]
    split <;> split <;> omega
  | _ => exact Nat.le_refl _

theorem queued_bump (hq : q < n) : queued n (q + 1) + (7 * n + 7) = queued n q := by
  have hsplit : n - q = n - (q + 1) + 1 := by omega
  unfold queued
  rw [hsplit, Nat.mul_add, Nat.mul_one]

section
variable {n : Nat} {A : Adjacency n} {L : Layout n} {first : Bool} {P w : Nat}

theorem WorkerOk.placed {h : Shared L} (ok : WorkerOk A L first h w pc st) : Placed h pc := by
  by_cases hd : Draining pc
  · cases pc <;> trivial
  · obtain ⟨_, hw⟩ := ok.working hd
    cases pc <;> trivial

/-- A step that leaves the queue and the worker's signals alone brings it to a lower rank. -/
theorem burden_keep {h h' : Shared L} (hq : h'.queue = h.queue)
    (hp : h'.sem (.p2c w) = h.sem (.p2c w)) (hr : pc'.rank n h.queue < pc.rank n h.queue) :
    queued n h'.queue + burden n h' w pc' < queued n h.queue + burden n h w pc := by
  unfold burden
  rw [hq, hp]
  omega

/-- Every step of a worker costs something of what was set aside for it. -/
theorem Goes.falls {h h' : Shared L} (placed : Placed h pc)
    (hg : Goes first L w y h pc h' pc') :
    queued n h'.queue + burden n h' w pc' < queued n h.queue + burden n h w pc := by
  cases hg with
  | wait hp =>
    have hr : ChildPc.rank n h.queue .inner ≤ 12 := by
      simp only [ChildPc.rank]
      split <;> omega
    unfold burden
    rw [Shared.setSem_self]
    simp only [Shared.setSem, show ChildPc.rank n h.queue .wait = 1 from rfl]
    omega
  | pass hq =>
    refine burden_keep rfl rfl ?_
    simp only [ChildPc.rank, if_pos hq]
    omega
  | empty hq =>
    refine burden_keep rfl rfl ?_
    simp only [ChildPc.rank, if_neg (Nat.not_lt.mpr hq)]
    omega
  | lock | post =>
    exact burden_keep rfl (h.setSem_of_ne _ (by simp)) (by simp only [ChildPc.rank]; omega)
  | bumped =>
    obtain ⟨rfl, rfl⟩ := placed
    simp only [burden, ChildPc.rank]
    by_cases hq : h.queue < n
    · have := queued_bump hq
      rw [if_pos hq]
      omega
    · have h0 : queued n (h.queue + 1) = queued n h.queue := by
        unfold queued
        rw [Nat.sub_eq_zero_of_le (by omega), Nat.sub_eq_zero_of_le (by omega)]
      rw [if_neg hq]
      omega
  | useful hr =>
    refine burden_keep rfl (h.setSem_of_ne _ (by simp)) ?_
    simp only [ChildPc.rank, if_pos hr]
    omega
  | useless hf hr =>
    refine burden_keep rfl (h.setSem_of_ne _ (by simp)) ?_
    simp only [ChildPc.rank, if_neg (Nat.not_lt.mpr hr)]
    omega
  | skip hf hr =>
    have hq : n < h.queue := Nat.lt_of_le_of_lt hr placed
    refine burden_keep rfl (h.setSem_of_ne _ (by simp)) ?_
    simp only [ChildPc.rank, if_neg (Nat.not_lt.mpr hr), if_neg (Nat.lt_asymm hq)]
    omega
  | finish hj =>
    refine burden_keep rfl rfl ?_
    simp only [ChildPc.rank]
    split <;> omega
  | _ => exact burden_keep rfl rfl (by simp only [ChildPc.rank]; omega)

end

/-- What the rounds from `it` on still take, with the teardown. -/
def roundsLeft (n P it : Nat) : Nat :=
  gridRank n 0 0 + 17 * P + 4 +
    (n - it) * (2 * gridRank n 0 0 + 14 * P + queued n 0 + 9)

/-- What the parent has still to do when the round number is `it`, with 12 for every signal to a
worker and a full queue for every round. -/
def ParentPc.rank (n P it : Nat) : ParentPc → Nat
  | .load y z => roundsLeft n P 0 + P + 3 + gridRank n y z
  | .fork k => roundsLeft n P 0 + 2 + (P - k)
  | .start => roundsLeft n P 0 + 1
  | .test => roundsLeft n P it
  | .lockQueue => roundsLeft n P (it + 1) + 2 * gridRank n 0 0 + 14 * P + queued n 0 + 8
  | .reset => roundsLeft n P (it + 1) + 2 * gridRank n 0 0 + 14 * P + queued n 0 + 7
  | .unlockQueue => roundsLeft n P (it + 1) + 2 * gridRank n 0 0 + 14 * P + 6
  | .signal k => roundsLeft n P (it + 1) + 2 * gridRank n 0 0 + P + 13 * (P - k) + 5
  | .await k => roundsLeft n P (it + 1) + 2 * gridRank n 0 0 + (P - k) + 4
  | .copy y z => roundsLeft n P (it + 1) + 2 * gridRank n y z + 3
  | .store y z _ => roundsLeft n P (it + 1) + 2 * gridRank n y (z + 1) + 4
  | .step => roundsLeft n P (it + 1) + 2
  | .stepped _ => roundsLeft n P (it + 1) + 1
  | .release k => gridRank n 0 0 + 4 * P + 13 * (P - k) + 3
  | .destroyP2c k => gridRank n 0 0 + 4 * (P - k) + 2
  | .destroyC2p k => gridRank n 0 0 + 4 * (P - (k + 1)) + 4
  | .join k => gridRank n 0 0 + 4 * (P - (k + 1)) + 3
  | .print y z => gridRank n y z + 1
  | .done => 0

theorem roundsLeft_next (P : Nat) (hi : it < n) : roundsLeft n P (it + 1) +
    (2 * gridRank n 0 0 + 14 * P + queued n 0 + 9) = roundsLeft n P it := by
  have hsplit : n - it = n - (it + 1) + 1 := by omega
  unfold roundsLeft
  rw [hsplit, Nat.add_mul, Nat.one_mul]
  omega

theorem roundsLeft_le (n P it : Nat) : roundsLeft n P it ≤ roundsLeft n P 0 :=
  Nat.add_le_add_left (Nat.mul_le_mul_right _ (Nat.sub_le_sub_left (Nat.zero_le it) n)) _

theorem le_roundsLeft (n P it : Nat) : gridRank n 0 0 + 17 * P + 4 ≤ roundsLeft n P it :=
  Nat.le_add_right _ _

/-- All that the run can still cost. -/
def cost (n P : Nat) (h : Shared L) (pc : ParentPc) (cs : Nat → ChildPc) : Nat :=
  pc.rank n P h.iterator + queued n h.queue + total P fun w => burden n h w (cs w)

section
variable {n : Nat} {A : Adjacency n} {L : Layout n} {first : Bool} {P : Nat}
variable {holds : ParentPc → Prop} {h h' : Shared L}

theorem Inv.child_falls (inv : Inv A L first P holds h pc cs) (hw : w < P) (hb : h.born w = true)
    (hs : (body first L w (cs w)).run y h = some (h', c)) :
    cost n P h' pc (Function.update cs w c) < cost n P h pc cs := by
  have ok := inv.worker w hw
  have he := (child_step ok inv.parent.busy inv.parent.draining hb hs).2
  have hfall := (body_goes hs).falls ok.placed
  have ht := total_add_le (fun v => burden n h v (cs v))
    (fun v => burden n h' v (Function.update cs w c v)) hw fun v _ hne => by
      have hsem := he.sem (.p2c v) (by simpa using hne) (by simp) (by simp)
      have := (cs v).rank_le (n := n) he.queue_le
      rw [Function.update_of_ne hne, burden, burden, hsem]
      omega
  simp only [Function.update_self] at ht
  unfold cost
  rw [he.iterator]
  omega

/-- A parent step that leaves the queue and the signals alone and goes to a lower rank. -/
theorem cost_keep (cs : Nat → ChildPc) (hi : h'.iterator = h.iterator) (hq : h'.queue = h.queue)
    (hp : ∀ w, h'.sem (.p2c w) = h.sem (.p2c w))
    (hr : pc'.rank n P h.iterator < pc.rank n P h.iterator) :
    cost n P h' pc' cs < cost n P h pc cs := by
  have ht : (total P fun w => burden n h' w (cs w)) ≤ total P fun w => burden n h w (cs w) :=
    total_le fun w _ => by rw [burden, burden, hp, hq]
  unfold cost
  rw [hi, hq]
  omega

/-- A signal to a worker costs no more than was set aside for it. -/
theorem cost_signal (cs : Nat → ChildPc) (y : Sync) (hk : k < P)
    (hr : pc'.rank n P h.iterator + 12 < pc.rank n P h.iterator) :
    cost n P (h.setSem (.p2c k) (y.release (h.sem (.p2c k)))) pc' cs < cost n P h pc cs := by
  have ht := total_add_le (fun w => burden n h w (cs w))
    (fun w => burden n (h.setSem (.p2c k) (y.release (h.sem (.p2c k)))) w (cs w)) hk
    fun w _ hne => by
      rw [burden, burden, Shared.setSem_of_ne h _ (by simpa using hne)]
      exact Nat.le_refl _
  have hrel : y.release (h.sem (.p2c k)) ≤ h.sem (.p2c k) + 1 := by
    cases y with
    | semaphore => exact Nat.le_refl _
    | mutex => exact Nat.succ_le_succ (Nat.zero_le _)
  have hburden : burden n (h.setSem (.p2c k) (y.release (h.sem (.p2c k)))) k (cs k) ≤
      burden n h k (cs k) + 12 := by
    unfold burden
    rw [Shared.setSem_self]
    simp only [Shared.setSem]
    omega
  unfold cost
  simp only [Shared.setSem] at ht hburden ⊢
  omega

/-- The queue is reset while no worker is inside a round. -/
theorem Inv.cost_reset (inv : Inv A L first P holds h .reset cs)
    (hr : pc'.rank n P h.iterator + queued n 0 < ParentPc.rank n P h.iterator .reset) :
    cost n P { h with queue := 0 } pc' cs < cost n P h .reset cs := by
  have ht : (total P fun w => burden n { h with queue := 0 } w (cs w)) ≤
      total P fun w => burden n h w (cs w) := by
    refine total_le fun w hw => ?_
    have ho : Outside n h (cs w) := (inv.worker w hw).2.1
    unfold burden
    generalize cs w = c at ho
    cases c <;> first | exact Nat.le_refl _ | exact ho.elim
  unfold cost
  simp only
  omega

theorem cost_print {emit : L.Addr → ParentPc → Instr L ParentPc} (cs : Nat → ChildPc)
    (he : ∀ a next, ∃ v, (emit a next).run y h = some ({ h with out := h.out ++ [v] }, next))
    (hs : (printLoop L emit ParentPc.print .done i j).run y h = some (h', pc')) :
    cost n P h' pc' cs < cost n P h (.print i j) cs := by
  unfold printLoop at hs
  by_cases hi : i < n
  · by_cases hj : j < n
    · rw [if_pos hi, if_pos hj] at hs
      obtain ⟨v, hv⟩ := he (L.cell i j) (.print i (j + 1))
      obtain ⟨rfl, rfl⟩ := Prod.mk.inj (Option.some.inj (hv.symm.trans hs))
      have := gridRank_cell i hj
      exact cost_keep cs rfl rfl (fun _ => rfl) (by simp only [ParentPc.rank]; omega)
    · rw [if_pos hi, if_neg hj] at hs
      cases hs
      have := gridRank_row j hi
      exact cost_keep cs rfl rfl (fun _ => rfl) (by simp only [ParentPc.rank]; omega)
  · rw [if_neg hi] at hs
    cases hs
    exact cost_keep cs rfl rfl (fun _ => rfl) (Nat.succ_pos _)

theorem Inv.rounds_falls (inv : Inv A L first P holds h pc cs) (en ro td : ParentPc)
    (hen : ∀ it, en.rank n P it < ParentPc.rank n P it (.fork P))
    (hro : ∀ it, it < n → ro.rank n P it < ParentPc.rank n P it .test)
    (htd : ∀ it, td.rank n P it < ParentPc.rank n P it .test)
    (hs : (Bag.rounds L P en ro td pc).run y h = some (h', pc')) :
    cost n P h' pc' cs < cost n P h pc cs := by
  cases rounds_goes hs with
  | forked hk =>
    have := hen h.iterator
    refine cost_keep cs rfl rfl (fun _ => rfl) ?_
    simp only [ParentPc.rank] at this ⊢
    omega
  | enter hi => exact cost_keep cs rfl rfl (fun _ => rfl) (hro _ hi)
  | ended => exact cost_keep cs rfl rfl (fun _ => rfl) (htd _)
  | signal hk => exact cost_signal cs y hk (by simp only [ParentPc.rank]; omega)
  | await =>
    exact cost_keep cs rfl rfl (fun w => h.setSem_of_ne _ (by simp))
      (by simp only [ParentPc.rank]; omega)
  | @read i j hi hj =>
    have := gridRank_cell i hj
    exact cost_keep cs rfl rfl (fun _ => rfl) (by simp only [ParentPc.rank]; omega)
  | @row i j hi hj =>
    have := gridRank_row j hi
    exact cost_keep cs rfl rfl (fun _ => rfl) (by simp only [ParentPc.rank]; omega)
  | stepped =>
    obtain rfl := inv.parent.1
    -- the round is counted, so its cost is no longer due
    unfold cost
    simp only [ParentPc.rank, burden]
    omega
  | _ => exact cost_keep cs rfl rfl (fun _ => rfl) (by simp only [ParentPc.rank]; omega)

theorem Inv.procParent_falls (inv : Inv A L first P holds h pc cs)
    (hs : (Bag.procParent L P A pc).run y h = some (h', pc')) :
    cost n P h' pc' cs < cost n P h pc cs := by
  have hloop (hl : Looping pc) : cost n P h' pc' cs < cost n P h pc cs := by
    rw [procParent_rounds hl] at hs
    refine inv.rounds_falls .test .reset (.destroyP2c 0) ?_ ?_ ?_ hs
    · intro it
      have := roundsLeft_le n P it
      simp only [ParentPc.rank]
      omega
    · intro it hi
      have := roundsLeft_next P hi
      simp only [ParentPc.rank]
      omega
    · intro it
      have := le_roundsLeft n P it
      simp only [ParentPc.rank]
      omega
  cases pc with
  | load i j =>
    by_cases hi : i < n
    · by_cases hj : j < n
      · rw [Bag.procParent, if_pos hi, if_pos hj] at hs
        cases hs
        have := gridRank_cell i hj
        exact cost_keep cs rfl rfl (fun _ => rfl) (by simp only [ParentPc.rank]; omega)
      · rw [Bag.procParent, if_pos hi, if_neg hj] at hs
        cases hs
        have := gridRank_row j hi
        exact cost_keep cs rfl rfl (fun _ => rfl) (by simp only [ParentPc.rank]; omega)
    · rw [Bag.procParent, if_neg hi] at hs
      cases hs
      exact cost_keep cs rfl rfl (fun _ => rfl) (by simp only [ParentPc.rank]; omega)
  | fork k | test | signal k | await k | copy i j | store i j v | step | stepped k =>
    exact hloop trivial
  | reset =>
    cases hs
    exact inv.cost_reset (by simp only [ParentPc.rank]; omega)
  | destroyP2c k =>
    by_cases hk : k < P
    · rw [Bag.procParent, if_pos hk] at hs
      cases hs
      exact cost_keep cs rfl rfl (fun _ => rfl) (by simp only [ParentPc.rank]; omega)
    · rw [Bag.procParent, if_neg hk] at hs
      cases hs
      exact cost_keep cs rfl rfl (fun _ => rfl) (by simp only [ParentPc.rank]; omega)
  | destroyC2p k =>
    cases hs
    exact cost_keep cs rfl rfl (fun _ => rfl) (by simp only [ParentPc.rank]; omega)
  | print i j => exact cost_print cs (fun a _ => ⟨h.curr a, rfl⟩) hs
  | _ => cases hs

theorem Inv.thrParent_falls (inv : Inv A L first P holds h pc cs)
    (hs : (Bag.thrParent L P pc).run y h = some (h', pc')) :
    cost n P h' pc' cs < cost n P h pc cs := by
  have hloop (hl : Looping pc) : cost n P h' pc' cs < cost n P h pc cs := by
    rw [thrParent_rounds hl] at hs
    refine inv.rounds_falls .start .lockQueue (.release 0) ?_ ?_ ?_ hs
    · intro it
      simp only [ParentPc.rank]
      omega
    · intro it hi
      have := roundsLeft_next P hi
      simp only [ParentPc.rank]
      omega
    · intro it
      have := le_roundsLeft n P it
      simp only [ParentPc.rank]
      omega
  cases pc with
  | fork k | test | signal k | await k | copy i j | store i j v | step | stepped k =>
    exact hloop trivial
  | start =>
    have hi : h.iterator = 0 := inv.parent.1
    cases hs
    exact cost_keep cs hi.symm rfl (fun _ => rfl) (by simp only [ParentPc.rank, hi]; omega)
  | lockQueue =>
    simp only [Bag.thrParent, Instr.run] at hs
    split at hs
    · cases hs
    · cases hs
      exact cost_keep cs rfl rfl (fun w => h.setSem_of_ne _ (by simp))
        (by simp only [ParentPc.rank]; omega)
  | reset =>
    cases hs
    exact inv.cost_reset (by simp only [ParentPc.rank]; omega)
  | unlockQueue =>
    cases hs
    exact cost_keep cs rfl rfl (fun w => h.setSem_of_ne _ (by simp))
      (by simp only [ParentPc.rank]; omega)
  | release k =>
    by_cases hk : k < P
    · rw [Bag.thrParent, if_pos hk] at hs
      cases hs
      exact cost_signal cs y hk (by simp only [ParentPc.rank]; omega)
    · rw [Bag.thrParent, if_neg hk] at hs
      cases hs
      exact cost_keep cs rfl rfl (fun _ => rfl) (by simp only [ParentPc.rank]; omega)
  | destroyP2c k =>
    by_cases hk : k < P
    · rw [Bag.thrParent, if_pos hk] at hs
      cases hs
      exact cost_keep cs rfl rfl (fun _ => rfl) (by simp only [ParentPc.rank]; omega)
    · rw [Bag.thrParent, if_neg hk] at hs
      cases hs
      exact cost_keep cs rfl rfl (fun _ => rfl) (by simp only [ParentPc.rank]; omega)
  | destroyC2p k =>
    cases hs
    exact cost_keep cs rfl rfl (fun _ => rfl) (by simp only [ParentPc.rank]; omega)
  | join k =>
    simp only [Bag.thrParent, Instr.run] at hs
    split at hs
    · cases hs
      exact cost_keep cs rfl rfl (fun _ => rfl) (by simp only [ParentPc.rank]; omega)
    · cases hs
  | print i j => exact cost_print cs (fun a _ => ⟨h.prev a, rfl⟩) hs
  | _ => cases hs

end

/-- Every run of `wtc_btproc` ends after the parent's last statement, although a child may then
still be waiting. -/
theorem wtcBtproc_ends (hn : 0 < n) (hP : 0 < P) (A : Adjacency n) :
    (wtcBtproc n P A).system.Ends fun s => s.parent = ParentPc.done := by
  refine .of_measure (fun s => cost n P s.shared s.parent s.child) (fun s s' hr hs => ?_)
    fun s hr hstuck => ?_
  · have inv := wtcBtproc_inv hn hP hr
    cases hs with
    | parent hs => exact inv.procParent_falls hs
    | child hw hb hs => exact inv.child_falls hw hb hs
  · by_contra hd
    obtain ⟨s', hs⟩ := wtcBtproc_runs hn hP hr hd
    exact hstuck s' hs

theorem wtcBtthr_ends (hn : 0 < n) (hP : 0 < P) (A : Adjacency n) :
    (wtcBtthr n P A).system.Ends fun s => s.parent = ParentPc.done := by
  refine .of_measure (fun s => cost n P s.shared s.parent s.child) (fun s s' hr hs => ?_)
    fun s hr hstuck => ?_
  · have inv := wtcBtthr_inv hn hP hr
    cases hs with
    | parent hs => exact inv.thrParent_falls hs
    | child hw hb hs => exact inv.child_falls hw hb hs
  · rcases wtcBtthr_runs hn hP hr with ⟨s', hs⟩ | hd
    · exact absurd hs (hstuck s')
    · exact hd.1

end NoblesseOblige.Wtc.Bag
