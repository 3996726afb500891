import NoblesseOblige.Wtc.Measure
import NoblesseOblige.Wtc.PartitionShutdown

namespace NoblesseOblige.Wtc.Partition
set_option autoImplicit true

/-- What a worker has still to do in its rows from `i` on. -/
def rowRank (n i : Nat) : Nat := (n - i) * (4 * n + 2)

def roundRank (n k : Nat) : Nat := (n - k) * (n * (4 * n + 2) + 2)

/-- What a worker has still to do. -/
def ChildPc.rank (n P : Nat) : ChildPc → Nat
  | .loop k => roundRank n k + 1
  | .row k i => roundRank n (k + 1) + 2 + rowRank n i
  | .cell k i j => roundRank n (k + 1) + 2 + rowRank n (i + P) + 1 + 4 * (n - j)
  | .both k i j => roundRank n (k + 1) + 2 + rowRank n (i + P) + 1 + 4 * (n - (j + 1)) + 3
  | .own k i j => roundRank n (k + 1) + 2 + rowRank n (i + P) + 1 + 4 * (n - (j + 1)) + 2
  | .set k i j => roundRank n (k + 1) + 2 + rowRank n (i + P) + 1 + 4 * (n - (j + 1)) + 1
  | .done => 0

theorem rowRank_le (i : Nat) : rowRank n i ≤ n * (4 * n + 2) :=
  Nat.mul_le_mul_right _ (Nat.sub_le n i)

theorem rowRank_next (hP : 0 < P) (hi : i < n) :
    rowRank n (i + P) + (4 * n + 2) ≤ rowRank n i := by
  have hle : n - (i + P) + 1 ≤ n - i := by omega
  have := Nat.mul_le_mul_right (4 * n + 2) hle
  unfold rowRank
  rw [Nat.add_mul] at this
  omega

theorem roundRank_next (hk : k < n) :
    roundRank n (k + 1) + (n * (4 * n + 2) + 2) = roundRank n k := by
  have hsplit : n - k = n - (k + 1) + 1 := by omega
  unfold roundRank
  rw [hsplit, Nat.add_mul, Nat.one_mul]

theorem child_rank {L : Layout n} {h h' : Shared L} (hP : 0 < P)
    (hs : (child L P w pc).run y h = some (h', pc')) : pc'.rank n P < pc.rank n P := by
  cases child_goes hs with
  | wait hk =>
    have := roundRank_next hk
    have := rowRank_le (n := n) w
    simp only [ChildPc.rank]
    omega
  | leave => exact Nat.succ_pos _
  | row hi =>
    have := rowRank_next hP hi
    simp only [ChildPc.rank]
    omega
  | _ =>
    simp only [ChildPc.rank]
    omega

/-- What the teardown of the parent has still to do; `joins` tells whether it starts with a join. -/
def ParentPc.tearRank (n P : Nat) (joins : Bool) : ParentPc → Nat
  | .join k => gridRank n 0 0 + 2 + 3 * (P - k)
  | .destroyP2c k =>
    if joins then gridRank n 0 0 + 2 + 3 * (P - (k + 1)) + 2 else gridRank n 0 0 + 2 + 3 * (P - k)
  | .destroyC2p k => gridRank n 0 0 + 2 + 3 * (P - (k + 1)) + 1
  | .print y z => gridRank n y z + 1
  | _ => 0

/-- What the rounds from `m` on still take, with the teardown. -/
def parentRound (n P m : Nat) : Nat :=
  gridRank n 0 0 + 3 + 3 * P + (n - m) * (2 * gridRank n 0 0 + 2 * P + 4)

/-- What the parent has still to do. -/
def ParentPc.rank (n P : Nat) (joins : Bool) : ParentPc → Nat
  | .load y z => parentRound n P 0 + P + 2 + gridRank n y z
  | .fork k => parentRound n P 0 + 1 + (P - k)
  | .round m => parentRound n P m
  | .signal m k => parentRound n P (m + 1) + 3 + 2 * gridRank n 0 0 + P + (P - k)
  | .await m k => parentRound n P (m + 1) + 2 + 2 * gridRank n 0 0 + (P - k)
  | .copy m y z => parentRound n P (m + 1) + 1 + 2 * gridRank n y z
  | .store m y z _ => parentRound n P (m + 1) + 1 + 2 * gridRank n y (z + 1) + 1
  | pc => pc.tearRank n P joins

theorem parentRound_next (hm : m < n) :
    parentRound n P (m + 1) + (2 * gridRank n 0 0 + 2 * P + 4) = parentRound n P m := by
  have hsplit : n - m = n - (m + 1) + 1 := by omega
  unfold parentRound
  rw [hsplit, Nat.add_mul, Nat.one_mul]
  omega

theorem parentRound_pos (n P m : Nat) : gridRank n 0 0 + 2 + 3 * P < parentRound n P m := by
  unfold parentRound
  omega

section
variable {n P : Nat} {L : Layout n} {joins : Bool} {pc pc' : ParentPc} {h h' : Shared L}

theorem rounds_rank (htd : td.rank n P joins ≤ gridRank n 0 0 + 2 + 3 * P)
    (hs : (Partition.rounds L P td pc).run y h = some (h', pc')) :
    pc'.rank n P joins < pc.rank n P joins := by
  cases rounds_goes hs with
  | enter hm =>
    have := parentRound_next (P := P) hm
    simp only [ParentPc.rank]
    omega
  | @ended m hm =>
    have := parentRound_pos n P m
    simp only [ParentPc.rank] at htd ⊢
    omega
  | @read i j m hi hj =>
    have := gridRank_cell i hj
    simp only [ParentPc.rank]
    omega
  | @row i j m hi hj =>
    have := gridRank_row j hi
    simp only [ParentPc.rank]
    omega
  | _ =>
    simp only [ParentPc.rank]
    omega

theorem procParent_rank (hs : (procParent L P A pc).run y h = some (h', pc')) :
    pc'.rank n P false < pc.rank n P false := by
  have hloop (hl : Looping pc) : pc'.rank n P false < pc.rank n P false := by
    rw [procParent_rounds hl] at hs
    refine rounds_rank ?_ hs
    simp [ParentPc.rank, ParentPc.tearRank]
  cases pc with
  | load y z =>
    by_cases hy : y < n
    · by_cases hz : z < n
      · rw [procParent, if_pos hy, if_pos hz] at hs
        cases hs
        have := gridRank_cell y hz
        simp only [ParentPc.rank]
        omega
      · rw [procParent, if_pos hy, if_neg hz] at hs
        cases hs
        have := gridRank_row z hy
        simp only [ParentPc.rank]
        omega
    · rw [procParent, if_neg hy] at hs
      cases hs
      simp only [ParentPc.rank]
      omega
  | fork k | round m | signal m k | await m k | copy m y z | store m y z v => exact hloop trivial
  | destroyP2c k =>
    by_cases hk : k < P
    · rw [procParent, if_pos hk] at hs
      cases hs
      simp only [ParentPc.rank, ParentPc.tearRank, Bool.false_eq_true, if_false]
      omega
    · rw [procParent, if_neg hk] at hs
      cases hs
      simp only [ParentPc.rank, ParentPc.tearRank, Bool.false_eq_true, if_false]
      omega
  | destroyC2p k =>
    cases hs
    simp only [ParentPc.rank, ParentPc.tearRank, Bool.false_eq_true, if_false]
    omega
  | print y z =>
    exact printLoop_rank .printCurr (ParentPc.rank n P false) (fun _ _ _ h => h) (fun _ _ => rfl)
      rfl (Instr.leads hs)
  | join k | done => cases hs

theorem thrParent_rank (hs : (thrParent L P pc).run y h = some (h', pc')) :
    pc'.rank n P true < pc.rank n P true := by
  have hloop (hl : Looping pc) : pc'.rank n P true < pc.rank n P true := by
    rw [thrParent_rounds hl] at hs
    refine rounds_rank ?_ hs
    simp [ParentPc.rank, ParentPc.tearRank]
  cases pc with
  | fork k | round m | signal m k | await m k | copy m y z | store m y z v => exact hloop trivial
  | join k =>
    by_cases hk : k < P
    · rw [thrParent, if_pos hk, Instr.run] at hs
      split at hs
      · cases hs
        simp only [ParentPc.rank, ParentPc.tearRank, if_true]
        omega
      · cases hs
    · rw [thrParent, if_neg hk] at hs
      cases hs
      simp only [ParentPc.rank, ParentPc.tearRank]
      omega
  | destroyP2c k =>
    cases hs
    simp only [ParentPc.rank, ParentPc.tearRank, if_true]
    omega
  | destroyC2p k =>
    cases hs
    simp only [ParentPc.rank, ParentPc.tearRank]
    omega
  | print y z =>
    exact printLoop_rank .printPrev (ParentPc.rank n P true) (fun _ _ _ h => h) (fun _ _ => rfl)
      rfl (Instr.leads hs)
  | load y z | done => cases hs

end

/-- Every run of `wtc_proc` ends with the parent's last statement. -/
theorem wtcProc_ends (hn : 0 < n) (hP : 0 < P) (A : Adjacency n) :
    (wtcProc n P A).system.Ends fun s => s.parent = ParentPc.done := by
  refine .of_measure (fun s => s.parent.rank n P false +
    total P (fun w => (s.child w).rank n P)) (fun s s' _ hs => ?_) fun s hr hstuck => ?_
  · exact Step.falls (ParentPc.rank n P false) (ChildPc.rank n P)
      (fun _ _ _ _ => procParent_rank) (fun _ _ _ _ _ => child_rank hP) hs
  · rcases wtcProc_runs hn hP hr with hruns | hd
    · obtain ⟨s', hs⟩ := step_iff_runs.mpr hruns
      exact absurd hs (hstuck s')
    · exact hd.1

theorem wtcThr_ends (hn : 0 < n) (hP : 0 < P) (A : Adjacency n) :
    (wtcThr n P A).system.Ends fun s => s.parent = ParentPc.done := by
  refine .of_measure (fun s => s.parent.rank n P true +
    total P (fun w => (s.child w).rank n P)) (fun s s' _ hs => ?_) fun s hr hstuck => ?_
  · exact Step.falls (ParentPc.rank n P true) (ChildPc.rank n P)
      (fun _ _ _ _ => thrParent_rank) (fun _ _ _ _ _ => child_rank hP) hs
  · rcases wtcThr_runs hn hP hr with hruns | hd
    · obtain ⟨s', hs⟩ := step_iff_runs.mpr hruns
      exact absurd hs (hstuck s')
    · exact hd.1

end NoblesseOblige.Wtc.Partition
