import NoblesseOblige.FairShare.Kernel

namespace NoblesseOblige.FairShare
set_option autoImplicit true

/-- What a user is counted for beyond the shares of the tasks not yet released. -/
def Kernel.balance (k : Kernel) (U : Nat) : Int :=
  k.processes U - tally Task.user Task.share U k.tasks

/-- What the release of a task leaves behind in its user's count. -/
def Task.leak (p : Task) : Int := p.share - if p.share = 2 then 2 else 1

theorem Task.leak_nonneg (p : Task) : 0 ≤ p.leak := by
  have := p.share_pos
  unfold Task.leak
  split <;> omega

theorem Task.leak_eq_zero (p : Task) : p.leak = 0 ↔ p.share = 1 ∨ p.share = 2 := by
  unfold Task.leak
  split <;> omega

/-- The zombie an operation releases, if it releases one. -/
def Kernel.reaped (k : Kernel) : Op → Option Task
  | .release pid => k.zombie? pid
  | _ => none

/-- The tasks a run releases, as they are when they are released. -/
def Kernel.released (k : Kernel) : List Op → List Task
  | [] => []
  | op :: ops => (k.reaped op).toList ++ (k.perform op).released ops

theorem Kernel.fork_balance {k k' : Kernel} (h : k.fork parent child counter = some k')
    (U : Nat) : k'.balance U = k.balance U := by
  obtain ⟨q, _, ht, hn⟩ := fork_spec h
  simp only [Kernel.balance, ht, hn, bump_apply, tally_append, tally_cons, tally_nil, Task.copy]
  omega

theorem Kernel.forkFails_balance {k k' : Kernel} (h : k.forkFails parent = some k')
    (U : Nat) : k'.balance U = k.balance U := by
  obtain ⟨ht, u, hn⟩ := forkFails_spec h
  simp only [Kernel.balance, ht, hn, bump_apply]
  split <;> omega

/-- The loop adds to a user's count what it adds to the shares. -/
theorem sysIncshare_balance (n : Nat → Int) :
    (sysIncshare c l n).2 U - tally Task.user Task.share U (sysIncshare c l n).1 =
      n U - tally Task.user Task.share U l := by
  induction l generalizing n with
  | nil => rfl
  | cons p ps ih =>
    rw [sysIncshare]
    cases procSel p c with
    | false =>
      have := ih n
      simp only [Bool.not_false, if_true, tally_cons] at this ⊢
      omega
    | true =>
      have := ih (bump n p.user 1)
      simp only [Bool.not_true, Bool.false_eq_true, if_false, tally_cons, Task.incShare,
        bump_apply] at this ⊢
      split at this
      · rename_i hu
        rw [if_pos hu, if_pos hu]
        omega
      · rename_i hu
        rw [if_neg hu, if_neg hu]
        omega

theorem Kernel.incshare_balance {k k' : Kernel} (h : k.incshare caller = some k')
    (U : Nat) : k'.balance U = k.balance U := by
  obtain ⟨ht, hn⟩ := incshare_spec h
  rw [Kernel.balance, ht, hn]
  exact sysIncshare_balance k.processes

theorem Kernel.exit_balance {k k' : Kernel} (h : k.exit pid = some k')
    (U : Nat) : k'.balance U = k.balance U := by
  obtain ⟨ht, hn⟩ := exit_spec h
  have hu : (Task.user ∘ fun p => if p.pid = pid then p.exit else p) = Task.user := by
    funext p
    simp only [Function.comp_apply]
    split <;> rfl
  have hs : (Task.share ∘ fun p => if p.pid = pid then p.exit else p) = Task.share := by
    funext p
    simp only [Function.comp_apply]
    split <;> rfl
  rw [Kernel.balance, ht, hn, tally_map, hu, hs]
  rfl

theorem Kernel.recalculate_balance {k k' : Kernel} (h : k.recalculate = some k')
    (U : Nat) : k'.balance U = k.balance U := by
  obtain ⟨ht, hn⟩ := recalculate_spec h
  rw [Kernel.balance, ht, hn, tally_map]
  rfl

/-- A release changes the balance of the task's user, by what leaks. -/
theorem Kernel.release_balance {k k' : Kernel} (h : k.release pid = some k') :
    ∃ p, k.zombie? pid = some p ∧
      ∀ U, k'.balance U = k.balance U + if p.user = U then p.leak else 0 := by
  obtain ⟨p, hz, ht, hn⟩ := release_spec h
  refine ⟨p, hz, fun U => ?_⟩
  have hp : k.tasks.find? (fun q => q.pid = pid) = some p := (Option.filter_eq_some_iff.mp hz).1
  simp only [Kernel.balance, ht, hn, tally_eraseP hp, Task.leak]
  by_cases hs : p.share = 2
  · simp only [hs, if_true, bump_apply]
    split <;> omega
  · simp only [hs, if_false, bump_apply]
    split <;> omega

/-- What one operation does to the balance of every user. -/
theorem Kernel.perform_balance (k : Kernel) (op : Op) (U : Nat) :
    (k.perform op).balance U =
      k.balance U + tally Task.user Task.leak U (k.reaped op).toList := by
  unfold Kernel.perform
  cases h : k.perform? op with
  | none =>
    have hr : k.reaped op = none := by
      cases op with
      | release pid =>
        simp only [Kernel.perform?, Kernel.release] at h
        simp only [Kernel.reaped]
        cases hz : k.zombie? pid with
        | none => rfl
        | some p =>
          rw [hz] at h
          cases h
      | _ => rfl
    rw [hr]
    exact (Int.add_zero _).symm
  | some k' =>
    cases op with
    | fork parent child counter => exact (fork_balance h U).trans (Int.add_zero _).symm
    | forkFails parent => exact (forkFails_balance h U).trans (Int.add_zero _).symm
    | incshare caller => exact (incshare_balance h U).trans (Int.add_zero _).symm
    | exit pid => exact (exit_balance h U).trans (Int.add_zero _).symm
    | recalculate => exact (recalculate_balance h U).trans (Int.add_zero _).symm
    | release pid =>
      obtain ⟨p, hz, hb⟩ := release_balance h
      simp only [Kernel.reaped, hz, Option.toList_some, tally_cons, tally_nil, Int.add_zero]
      exact hb U

theorem Kernel.balance_le_perform (k : Kernel) (op : Op) (U : Nat) :
    k.balance U ≤ (k.perform op).balance U := by
  rw [k.perform_balance op U]
  have : 0 ≤ tally Task.user Task.leak U (k.reaped op).toList :=
    tally_nonneg fun p _ _ => p.leak_nonneg
  omega

/-- Nothing ever takes a balance back down. -/
theorem Kernel.balance_le_visited (h : k' ∈ Kernel.visited k ops) (U : Nat) :
    k.balance U ≤ k'.balance U := by
  induction ops generalizing k with
  | nil => exact List.mem_singleton.mp h ▸ Int.le_refl _
  | cons op ops ih =>
    rcases List.mem_cons.mp h with rfl | h
    · exact Int.le_refl _
    · exact Int.le_trans (k.balance_le_perform op U) (ih h)

/-- The balances stand still exactly when no released task was raised more than once. -/
theorem Kernel.balance_constant_iff (k : Kernel) (ops : List Op) :
    (∀ k' ∈ k.visited ops, ∀ U, k'.balance U = k.balance U) ↔
      ∀ p ∈ k.released ops, p.share = 1 ∨ p.share = 2 := by
  induction ops generalizing k with
  | nil => simp [Kernel.visited, Kernel.released]
  | cons op ops ih =>
    constructor
    · intro h p hp
      have hop := h _ (List.mem_cons_of_mem k ((k.perform op).mem_visited ops))
      rcases List.mem_append.mp hp with hp | hp
      · have hr : k.reaped op = some p := Option.mem_toList.mp hp
        have hb := hop p.user
        rw [k.perform_balance op, hr] at hb
        simp only [Option.toList_some, tally_cons, tally_nil, if_true] at hb
        exact p.leak_eq_zero.mp (by omega)
      · refine (ih (k.perform op)).mp (fun k' hk' U => ?_) p hp
        rw [h k' (List.mem_cons_of_mem k hk') U, hop U]
    · intro h k' hk' U
      rcases List.mem_cons.mp hk' with rfl | hk'
      · rfl
      · have hrest := fun p hp => h p (List.mem_append_right _ hp)
        rw [(ih (k.perform op)).mpr hrest k' hk' U, k.perform_balance op]
        cases hr : k.reaped op with
        | none => exact Int.add_zero _
        | some p =>
          have hp := h p (List.mem_append_left _ (hr ▸ List.mem_singleton_self p))
          rw [Option.toList_some, tally_cons, tally_nil, p.leak_eq_zero.mpr hp]
          split <;> omega

/-- One user with one task. -/
def single : Kernel where
  tasks := [⟨1, 0, 1, 0, false, share_one⟩]
  processes U := if U = 0 then 1 else 0
  pids_nodup := by decide

theorem single_balance (U : Nat) : single.balance U = 0 := by
  by_cases h : 0 = U
  · subst h
    rfl
  · simp [Kernel.balance, single, tally_cons, h, Ne.symm h]

/-- A child that raised its share twice is released. -/
theorem Kernel.balance_not_constant : ¬ ∀ (k : Kernel) (ops : List Op),
    ∀ k' ∈ k.visited ops, ∀ U, k'.balance U = k.balance U := by
  intro h
  have := h single [.fork 1 2 0, .incshare 2, .incshare 2, .exit 2, .release 2]
    (((((single.perform (.fork 1 2 0)).perform (.incshare 2)).perform (.incshare 2)).perform
      (.exit 2)).perform (.release 2)) (by simp [Kernel.visited]) 0
  revert this
  decide

end NoblesseOblige.FairShare
