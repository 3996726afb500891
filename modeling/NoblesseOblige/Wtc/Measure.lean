import NoblesseOblige.Wtc.Progress
import Mathlib.Algebra.Order.BigOperators.Group.Finset

namespace NoblesseOblige.Wtc
set_option autoImplicit true

/-- The total over all workers. -/
def total (P : Nat) (f : Nat → Nat) : Nat := Finset.sum (Finset.range P) f

theorem total_le (h : ∀ w, w < P → f' w ≤ f w) : total P f' ≤ total P f :=
  Finset.sum_le_sum fun w hw => h w (Finset.mem_range.mp hw)

/-- Where only one worker's part may grow, the total grows by no more. -/
theorem total_add_le (f f' : Nat → Nat) (hw : w < P) (h : ∀ v, v < P → v ≠ w → f' v ≤ f v) :
    total P f' + f w ≤ total P f + f' w := by
  have hm : w ∈ Finset.range P := Finset.mem_range.mpr hw
  have hle : ((Finset.range P).erase w).sum f' ≤ ((Finset.range P).erase w).sum f := by
    refine Finset.sum_le_sum fun v hv => ?_
    obtain ⟨hne, hv⟩ := Finset.mem_erase.mp hv
    exact h v (Finset.mem_range.mp hv) hne
  have hf : f w + ((Finset.range P).erase w).sum f = total P f := Finset.add_sum_erase _ f hm
  have hf' : f' w + ((Finset.range P).erase w).sum f' = total P f' := Finset.add_sum_erase _ f' hm
  omega

theorem total_update (f : Nat → α → Nat) (cs : Nat → α) (c : α) (hw : w < P) :
    total P (fun v => f v (Function.update cs w c v)) + f w (cs w) ≤
      total P (fun v => f v (cs v)) + f w c := by
  have ht := total_add_le (fun v => f v (cs v)) (fun v => f v (Function.update cs w c v)) hw
    fun v _ hne => by rw [Function.update_of_ne hne]
  rwa [Function.update_self] at ht

/-- Parts of at most one add up to at most the number of workers. -/
theorem total_le_workers (h : ∀ w, w < P → f w ≤ 1) : total P f ≤ P := by
  have hle := total_le (f := fun _ => 1) h
  rw [total, total, ← Finset.card_eq_sum_ones, Finset.card_range] at hle
  exact hle

/-- What a row-major loop at (y,z) has still to do. -/
def gridRank (n y z : Nat) : Nat := (n - y) * (n + 2) + (n + 1 - z)

theorem gridRank_cell (y : Nat) (hz : z < n) : gridRank n y (z + 1) + 1 = gridRank n y z := by
  unfold gridRank
  omega

theorem gridRank_row (z : Nat) (hy : y < n) : gridRank n (y + 1) 0 < gridRank n y z := by
  have hsplit : n - y = n - (y + 1) + 1 := by omega
  unfold gridRank
  rw [hsplit, Nat.add_mul]
  omega

theorem printLoop_rank {L : Layout n} {Pc : Type} (emit : L.Addr → Pc → Instr L Pc)
    {at_ : Nat → Nat → Pc} {done pc : Pc} (rank : Pc → Nat)
    (he : ∀ a next pc', (emit a next).Leads pc' → pc' = next)
    (hat : ∀ y z, rank (at_ y z) = gridRank n y z + 1) (hd : rank done = 0)
    (h : (printLoop L emit at_ done y z).Leads pc) : rank pc < gridRank n y z + 1 := by
  unfold printLoop at h
  by_cases hy : y < n
  · by_cases hz : z < n
    · rw [if_pos hy, if_pos hz] at h
      have := gridRank_cell y hz
      rw [he _ _ _ h, hat]
      omega
    · rw [if_pos hy, if_neg hz] at h
      have := gridRank_row z hy
      rw [show pc = at_ (y + 1) 0 from h, hat]
      omega
  · rw [if_neg hy] at h
    rw [show pc = done from h, hd]
    omega

/-- If every instruction of the parent and of the workers leads to a lower rank, so does every
step. -/
theorem Step.falls {M : Program L} (par : M.ParentPc → Nat) (ch : M.ChildPc → Nat)
    (hpar : ∀ pc h h' pc', (M.parent pc).run M.sync h = some (h', pc') → par pc' < par pc)
    (hch : ∀ w pc h h' pc', (M.child w pc).run M.sync h = some (h', pc') → ch pc' < ch pc)
    {s s' : State M} (hs : Step M s s') :
    par s'.parent + total M.workers (fun w => ch (s'.child w)) <
      par s.parent + total M.workers (fun w => ch (s.child w)) := by
  cases hs with
  | parent hr =>
    have := hpar _ _ _ _ hr
    simp only
    omega
  | child hw hb hr =>
    rename_i w h pc
    have hlt := hch w _ _ _ _ hr
    have ht := total_update (fun _ => ch) s.child pc hw
    simp only
    omega

end NoblesseOblige.Wtc
