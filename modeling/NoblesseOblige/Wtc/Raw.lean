import NoblesseOblige.Wtc.PartitionClosure

namespace NoblesseOblige
set_option autoImplicit true

/-- `for (x = 0; x < n; x++)` over a body that does not touch `x` and `n`. -/
def forTo (body : Nat → σ → σ) : Nat → σ → σ
  | 0, s => s
  | n + 1, s => body n (forTo body n s)

/-- What holds before the first iteration and is passed on from each to the next holds at the
end. -/
theorem forTo_induction {body : Nat → σ → σ} {I : Nat → σ → Prop} (h₀ : I 0 s)
    (hs : ∀ x s, x < n → I x s → I (x + 1) (body x s)) : I n (forTo body n s) := by
  induction n with
  | zero => exact h₀
  | succ n ih => exact hs n _ (Nat.lt_succ_self n) (ih fun x s hx => hs x s (by omega))

namespace Wtc.Raw

/-- `mat[i][j] = v` -/
def set (mat : Nat → Nat → Int) (i j : Nat) (v : Int) : Nat → Nat → Int :=
  fun i' j' => if i' = i ∧ j' = j then v else mat i' j'

/-- The body of the loop over `j`. -/
def column (k i j : Nat) (mat : Nat → Nat → Int) : Nat → Nat → Int :=
  if mat k j = 1 then set mat i j 1 else mat

/-- The body of the loop over `i`. -/
def row (n k i : Nat) (mat : Nat → Nat → Int) : Nat → Nat → Int :=
  if mat i k = 1 then forTo (column k i) n mat else mat

/-- The matrix after the first `k` iterations of the outer loop. -/
def rounds (n k : Nat) (mat : Nat → Nat → Int) : Nat → Nat → Int :=
  forTo (fun k => forTo (row n k) n) k mat

def algorithm (n : Nat) (mat : Nat → Nat → Int) : Nat → Nat → Int := rounds n n mat

/-- The steps along ones of a matrix. -/
def Ones (n : Nat) (mat : Nat → Nat → Int) (i j : Nat) : Prop := i < n ∧ j < n ∧ mat i j = 1

/-- The paths through the first `m` vertices. -/
def Upto (n : Nat) (mat : Nat → Nat → Int) (m : Nat) : Nat → Nat → Prop :=
  Through (Ones n mat) {v | v < m}

/-- The matrix is 1 where the relation holds, and elsewhere as it was at first. -/
def Marked (n : Nat) (mat₀ mat : Nat → Nat → Int) (B : Nat → Nat → Prop) : Prop :=
  ∀ i j, i < n → j < n → (B i j → mat i j = 1) ∧ (¬ B i j → mat i j = mat₀ i j)

/-- What is marked in round `k` when the loops stand at row `i` and column `j`. -/
def At (n : Nat) (mat₀ : Nat → Nat → Int) (k i j i' j' : Nat) : Prop :=
  Upto n mat₀ k i' j' ∨ Passed i j i' j' ∧ Upto n mat₀ k i' k ∧ Upto n mat₀ k k j'

section
variable {n : Nat} {mat₀ mat : Nat → Nat → Int} {B C : Nat → Nat → Prop} {k : Nat}

theorem Marked.congr (h : Marked n mat₀ mat B) (hB : ∀ i j, i < n → j < n → (B i j ↔ C i j)) :
    Marked n mat₀ mat C := by
  intro i j hi hj
  rw [← hB i j hi hj]
  exact h i j hi hj

theorem Marked.set (h : Marked n mat₀ mat B) (i j : Nat) :
    Marked n mat₀ (set mat i j 1) fun i' j' => B i' j' ∨ i' = i ∧ j' = j := by
  intro i' j' hi hj
  by_cases he : i' = i ∧ j' = j
  · have hset : Raw.set mat i j 1 i' j' = 1 := if_pos he
    exact ⟨fun _ => hset, fun hn => (hn (.inr he)).elim⟩
  · have hset : Raw.set mat i j 1 i' j' = mat i' j' := if_neg he
    rw [hset]
    simp only [he, or_false]
    exact h i' j' hi hj

theorem upto_of_ones (h : Ones n mat₀ i j) (k : Nat) : Upto n mat₀ k i j := Through.edge h

theorem upto_succ (k i j : Nat) : Upto n mat₀ (k + 1) i j ↔
    Upto n mat₀ k i j ∨ Upto n mat₀ k i k ∧ Upto n mat₀ k k j :=
  through_lt_succ k i j

/-- An entry is 1 exactly where it is marked. -/
theorem Marked.one_iff (h : Marked n mat₀ mat B) (hB : ∀ i j, Ones n mat₀ i j → B i j)
    (hi : i < n) (hj : j < n) : mat i j = 1 ↔ B i j := by
  obtain ⟨h₁, h₀⟩ := h i j hi hj
  refine ⟨fun he => ?_, h₁⟩
  by_contra hn
  exact hn (hB i j ⟨hi, hj, by rw [← h₀ hn, he]⟩)

theorem At.of_ones (h : Ones n mat₀ i' j') : At n mat₀ k i j i' j' := .inl (upto_of_ones h k)

/-- Column `k` does not change in round `k`. -/
theorem at_column : At n mat₀ k i j i' k ↔ Upto n mat₀ k i' k := by
  constructor
  · rintro (h | ⟨-, h, -⟩)
    · exact h
    · exact h
  · exact .inl

theorem at_row : At n mat₀ k i j k j' ↔ Upto n mat₀ k k j' := by
  constructor
  · rintro (h | ⟨-, -, h⟩)
    · exact h
    · exact h
  · exact .inl

theorem column_spec (h : Marked n mat₀ mat (At n mat₀ k i j)) (hk : k < n) (hj : j < n)
    (hik : Upto n mat₀ k i k) : Marked n mat₀ (column k i j mat) (At n mat₀ k i (j + 1)) := by
  have hread : mat k j = 1 ↔ Upto n mat₀ k k j :=
    (h.one_iff (fun _ _ => At.of_ones) hk hj).trans at_row
  have hpassed (i' j' : Nat) : Passed i (j + 1) i' j' ↔ Passed i j i' j' ∨ i' = i ∧ j' = j := by
    unfold Passed
    omega
  unfold column
  split
  · rename_i hone
    refine (h.set i j).congr fun i' j' _ _ => ?_
    simp only [At, hpassed]
    constructor
    · rintro ((hu | ⟨hp, hu⟩) | ⟨rfl, rfl⟩)
      · exact .inl hu
      · exact .inr ⟨.inl hp, hu⟩
      · exact .inr ⟨.inr ⟨rfl, rfl⟩, hik, hread.mp hone⟩
    · rintro (hu | ⟨hp | he, hu⟩)
      · exact .inl (.inl hu)
      · exact .inl (.inr ⟨hp, hu⟩)
      · exact .inr he
  · rename_i hone
    refine h.congr fun i' j' _ _ => ?_
    simp only [At, hpassed]
    constructor
    · rintro (hu | ⟨hp, hu⟩)
      · exact .inl hu
      · exact .inr ⟨.inl hp, hu⟩
    · rintro (hu | ⟨hp | ⟨rfl, rfl⟩, hu⟩)
      · exact .inl hu
      · exact .inr ⟨hp, hu⟩
      · exact (hone (hread.mpr hu.2)).elim

/-- At the end of a row the loops stand at the start of the next one. -/
theorem at_row_end (hj : j' < n) : At n mat₀ k i n i' j' ↔ At n mat₀ k (i + 1) 0 i' j' := by
  have hpassed : Passed i n i' j' ↔ Passed (i + 1) 0 i' j' := by
    unfold Passed
    omega
  rw [At, At, hpassed]

theorem row_spec (h : Marked n mat₀ mat (At n mat₀ k i 0)) (hk : k < n) (hi : i < n) :
    Marked n mat₀ (row n k i mat) (At n mat₀ k (i + 1) 0) := by
  have hread : mat i k = 1 ↔ Upto n mat₀ k i k :=
    (h.one_iff (fun _ _ => At.of_ones) hi hk).trans at_column
  unfold row
  split
  · rename_i hone
    refine Marked.congr ?_ fun i' j' _ hj' => at_row_end hj'
    exact forTo_induction (I := fun j mat => Marked n mat₀ mat (At n mat₀ k i j)) h
      fun j mat hj h => column_spec h hk hj (hread.mp hone)
  · rename_i hone
    refine h.congr fun i' j' _ hj' => ?_
    have hpassed : Passed (i + 1) 0 i' j' ↔ Passed i 0 i' j' ∨ i' = i := by
      unfold Passed
      omega
    rw [At, At, hpassed]
    constructor
    · rintro (hu | ⟨hp, hu⟩)
      · exact .inl hu
      · exact .inr ⟨.inl hp, hu⟩
    · rintro (hu | ⟨hp | rfl, hu⟩)
      · exact .inl hu
      · exact .inr ⟨hp, hu⟩
      · exact (hone (hread.mpr hu.1)).elim

/-- A round admits one more vertex. -/
theorem round_spec (h : Marked n mat₀ mat (Upto n mat₀ k)) (hk : k < n) :
    Marked n mat₀ (forTo (row n k) n mat) (Upto n mat₀ (k + 1)) := by
  have hstart : Marked n mat₀ mat (At n mat₀ k 0 0) := by
    refine h.congr fun i' j' _ _ => ?_
    have hpassed : ¬ Passed 0 0 i' j' := by
      unfold Passed
      omega
    rw [At]
    simp only [hpassed, false_and, or_false]
  have hend := forTo_induction (I := fun i mat => Marked n mat₀ mat (At n mat₀ k i 0)) hstart
    fun i mat hi h => row_spec h hk hi
  refine hend.congr fun i' j' hi' _ => ?_
  have hpassed : Passed n 0 i' j' := .inl hi'
  rw [At, upto_succ]
  simp only [hpassed, true_and]

theorem rounds_spec (mat : Nat → Nat → Int) (hk : k ≤ n) :
    Marked n mat (rounds n k mat) (Upto n mat k) := by
  refine forTo_induction (I := fun k mat' => Marked n mat mat' (Upto n mat k)) ?_
    fun x mat' hx h => round_spec h (by omega)
  intro i j hi hj
  refine ⟨fun h => ?_, fun _ => rfl⟩
  exact ((through_lt_zero i j).mp h).2.2

end

/-- The loops in place leave ones exactly where a path along ones leads, and every other entry as
it was. -/
theorem algorithm_spec (n : Nat) (mat : Nat → Nat → Int) (i j : Nat) (hi : i < n) (hj : j < n) :
    (algorithm n mat i j = 1 ↔ Relation.TransGen (Ones n mat) i j) ∧
      (¬ Relation.TransGen (Ones n mat) i j → algorithm n mat i j = mat i j) := by
  have hpath : Upto n mat n i j ↔ Relation.TransGen (Ones n mat) i j :=
    through_lt_all (fun _ _ h => h.1) i j
  have h := rounds_spec mat (Nat.le_refl n)
  rw [← hpath]
  exact ⟨h.one_iff (fun _ _ h => upto_of_ones h n) hi hj, (h i j hi hj).2⟩

theorem algorithm_spec_two :
    (algorithm 2 (fun i j => if i = j then 7 else 1) 0 0 = 1 ↔
      Relation.TransGen (Ones 2 fun i j => if i = j then 7 else 1) 0 0) ∧
    (¬ Relation.TransGen (Ones 2 fun i j => if i = j then 7 else 1) 0 0 →
      algorithm 2 (fun i j => if i = j then 7 else 1) 0 0 = 7) :=
  algorithm_spec 2 (fun i j => if i = j then 7 else 1) 0 0 (by decide) (by decide)

/-- After any number of rounds of `wtc_proc`, whatever the interleaving, the shared matrix is the
one the loops in place hold after as many. -/
theorem wtcProc_simulates (n P : Nat) (hP : 1 ≤ P) (A : Adjacency n) (s : State (wtcProc n P A))
    (hr : (wtcProc n P A).system.Reachable s) (k : Nat)
    (hs : s.parent = Partition.ParentPc.round k) (i j : Nat) (hi : i < n) (hj : j < n) :
    s.shared.prev ((Layout.flat n).cell i j) = rounds n k A.entry i j := by
  have inv := (Partition.wtcProc_inv (Nat.zero_lt_of_lt hi) hP hr).parent
  rw [hs] at inv
  obtain ⟨hk, hprev, -, -⟩ := inv
  obtain ⟨h₁, h₀⟩ := hprev i j hi hj
  obtain ⟨hm₁, hm₀⟩ := rounds_spec A.entry hk i j hi hj
  by_cases hu : A.Upto k i j
  · rw [h₁ hu, hm₁ hu]
  · have hzero : A.entry i j = 0 := by
      rcases A.zero_or_one i j hi hj with hz | ho
      · exact hz
      · exact (hu (upto_of_ones ⟨hi, hj, ho⟩ k)).elim
    rw [h₀ hu, hm₀ hu, hzero]

/-- After the first round on a cycle of two vertices each of them reaches itself. -/
theorem wtcProc_simulates_cycle : ∃ s, (wtcProc 2 2 (.cycle 2)).system.Reachable s ∧
    s.parent = Partition.ParentPc.round 1 ∧ s.shared.prev ((Layout.flat 2).cell 1 1) = 1 ∧
      s.shared.prev ((Layout.flat 2).cell 1 1) = rounds 2 1 (Adjacency.cycle 2).entry 1 1 := by
  have hr := (wtcProc 2 2 (.cycle 2)).play_reachable (turns 35)
  have hpc : ((wtcProc 2 2 (.cycle 2)).play (turns 35)).parent = Partition.ParentPc.round 1 := by
    decide +kernel
  exact ⟨_, hr, hpc, by decide +kernel,
    wtcProc_simulates 2 2 (by decide) (.cycle 2) _ hr 1 hpc 1 1 (by decide) (by decide)⟩

end Wtc.Raw

end NoblesseOblige
