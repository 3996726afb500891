import NoblesseOblige.Scheduler.Choice
import NoblesseOblige.Scheduler.Progress
import Mathlib.Data.List.Perm.Subperm

namespace NoblesseOblige.Scheduler
set_option autoImplicit true

section
variable [DecidableEq ι] {B : Board n ι} {k k' k₁ : Kernel n ι}

/-- The CPU goes on `m` times, and nobody else does anything. -/
def Board.alone (B : Board n ι) (k : Kernel n ι) (c : Fin n) (cycles : BitVec 64) (m : Nat) :
    Option (Kernel n ι) :=
  B.run k (List.replicate m (.advance c cycles))

/-- The scan is over and has found no task with ticks left. -/
def Pc.spent : Pc n ι → Bool
  | .scan [] w _ => w = 0
  | _ => false

/-- How often the CPU recalculates while it goes on `m` times. -/
def Board.recalculations (B : Board n ι) (k : Kernel n ι) (c : Fin n) (cycles : BitVec 64)
    (m : Nat) : Nat :=
  (List.range m).countP fun j => (B.alone k c cycles j).any fun u => (u.pc c).spent

theorem alone_add (h : B.alone k c cycles m = some k₁) (m' : Nat) :
    B.alone k c cycles (m + m') = B.alone k₁ c cycles m' := by
  unfold Board.alone Board.run at h ⊢
  rw [← List.replicate_append_replicate, System.play_append, h]
  rfl

theorem alone_one (h : B.advance k c cycles = .ok k') : B.alone k c cycles 1 = some k' := by
  have hact : B.act k (.advance c cycles) = some k' := Board.act_eq_some.mpr h
  unfold Board.alone Board.run
  simp [System.play, hact]

theorem recalculations_add (h : B.alone k c cycles m = some k₁) (m' : Nat) :
    B.recalculations k c cycles (m + m') =
      B.recalculations k c cycles m + B.recalculations k₁ c cycles m' := by
  unfold Board.recalculations
  rw [List.range_add, List.countP_append, List.countP_map]
  congr 2
  funext j
  exact congrArg (Option.any fun u => (u.pc c).spent) (alone_add h j)

theorem recalculations_one (B : Board n ι) (k : Kernel n ι) (c : Fin n) (cycles : BitVec 64) :
    B.recalculations k c cycles 1 = if (k.pc c).spent then 1 else 0 := by
  unfold Board.recalculations
  simp [Board.alone, Board.run, System.play]

/-- Going on `m` times the CPU comes to `k'`, and recalculates `r` times. -/
def Board.Alone (B : Board n ι) (c : Fin n) (cycles : BitVec 64) (k : Kernel n ι) (m r : Nat)
    (k' : Kernel n ι) : Prop :=
  B.alone k c cycles m = some k' ∧ B.recalculations k c cycles m = r

theorem Board.Alone.trans (h : B.Alone c cycles k m r k₁) (h' : B.Alone c cycles k₁ m' r' k') :
    B.Alone c cycles k (m + m') (r + r') k' := by
  obtain ⟨hrun, rfl⟩ := h
  obtain ⟨hrun', rfl⟩ := h'
  exact ⟨(alone_add hrun m').trans hrun', recalculations_add hrun m'⟩

theorem Board.Alone.cons (hstep : B.advance k c cycles = .ok k₁) (hs : (k.pc c).spent = false)
    (h : B.Alone c cycles k₁ m r k') : B.Alone c cycles k (m + 1) r k' := by
  have hone : B.recalculations k c cycles 1 = 0 := by
    rw [recalculations_one, hs]
    rfl
  have hfirst : B.Alone c cycles k 1 0 k₁ := ⟨alone_one hstep, hone⟩
  rw [Nat.add_comm m, ← Nat.zero_add r]
  exact hfirst.trans h

theorem Board.Alone.refl (B : Board n ι) (c : Fin n) (cycles : BitVec 64) (k : Kernel n ι) :
    B.Alone c cycles k 0 0 k :=
  ⟨rfl, rfl⟩

end

end NoblesseOblige.Scheduler
