import NoblesseOblige.FairShare.Accounting

namespace NoblesseOblige.FairShare
set_option autoImplicit true

/-- What the tasks of a user may run for until the next recalculation. -/
def Kernel.allotted (k : Kernel) (U : Nat) : Int := tally Task.user Task.counter U k.tasks

/-- How often the task's share of all the tasks holds its user's count again, after the first. -/
def Kernel.beyondFirst (k : Kernel) (p : Task) : Nat :=
  Nat.count (fun j => ((j : Int) + 2) * k.processes p.user ≤ p.share * k.procCount)
    (p.share * k.procCount).toNat

/-- The tasks of the other users. -/
def Kernel.others (k : Kernel) (U : Nat) : Int := (k.tasks.filter fun p => p.user ≠ U).length

/-- A user counted for no more than all the tasks, or one whose tasks hold together no more whole
portions beyond their first ones than there are tasks of other users. -/
def Kernel.Fits (k : Kernel) (U : Nat) : Prop :=
  k.processes U ≤ k.procCount ∨
    tally Task.user (fun p => (k.beyondFirst p : Int)) U k.tasks ≤ k.others U

/-- The tasks whose share an operation raises. -/
def Kernel.raises (k : Kernel) : Op → List Task
  | .incshare caller =>
    if (k.incshare caller).isSome then k.tasks.filter fun p => procSel p caller else []
  | _ => []

/-- The tasks whose share a run raises, as they are before. -/
def Kernel.raised (k : Kernel) : List Op → List Task
  | [] => []
  | op :: ops => k.raises op ++ (k.perform op).raised ops

theorem Kernel.procCount_nonneg (k : Kernel) : 0 ≤ k.procCount := Int.natCast_nonneg _

theorem Kernel.portion_nonneg (k : Kernel) (p : Task) : 0 ≤ p.share * k.procCount :=
  Int.mul_nonneg (Int.le_trans Int.one_nonneg p.share_pos) k.procCount_nonneg

theorem Kernel.beyondFirst_eq (k : Kernel) (p : Task) (hP : 1 ≤ k.processes p.user) :
    k.beyondFirst p = (p.share * k.procCount / k.processes p.user).toNat - 1 := by
  have hm := k.portion_nonneg p
  generalize hq : p.share * k.procCount / k.processes p.user = q
  have hle : q ≤ p.share * k.procCount := hq ▸ Int.ediv_le_self _ hm
  unfold Kernel.beyondFirst
  rw [← count_lt (c := q.toNat - 1) (n := (p.share * k.procCount).toNat) (by omega)]
  congr 1
  funext j
  rw [← Int.le_ediv_iff_mul_le (by omega : 0 < k.processes p.user), hq]
  exact propext (by omega)

/-- The recalculated counter is one portion and every further one the share holds. -/
theorem Kernel.recalculate_counter (k : Kernel) (p : Task) (hP : 1 ≤ k.processes p.user) :
    (p.recalculate k.procCount k.processes).counter = 1 + (k.beyondFirst p : Int) := by
  have hq : 0 ≤ p.share * k.procCount / k.processes p.user :=
    Int.ediv_nonneg (k.portion_nonneg p) (by omega)
  rw [k.beyondFirst_eq p hP]
  simp only [Task.recalculate, Int.tdiv_eq_ediv_of_nonneg (k.portion_nonneg p)]
  split <;> omega

section
variable {k k' : Kernel} {U : Nat}

/-- A user whose balance is not negative is counted at least once for each of its tasks. -/
theorem Kernel.share_le_processes (hb : 0 ≤ k.balance U) (hp : p ∈ k.tasks) (hu : p.user = U) :
    p.share ≤ k.processes U := by
  have hle : p.share ≤ tally Task.user Task.share U k.tasks :=
    le_tally (fun q _ _ => Int.le_trans Int.one_nonneg q.share_pos) hp hu
  unfold Kernel.balance at hb
  omega

theorem Kernel.recalculate_of_counted (hk : ∀ p ∈ k.tasks, 0 < k.processes p.user) :
    ∃ k', k.recalculate = some k' := by
  have hz : ¬ (k.tasks.any fun p => k.processes p.user = 0) = true := by
    rw [List.any_eq_true]
    rintro ⟨p, hp, h0⟩
    have := hk p hp
    have := of_decide_eq_true h0
    omega
  unfold Kernel.recalculate
  exact ⟨_, if_neg hz⟩

theorem Kernel.recalculate_isSome (hb : ∀ U, 0 ≤ k.balance U) :
    ∃ k', k.recalculate = some k' := by
  apply recalculate_of_counted
  intro p hp
  have hle := share_le_processes (hb p.user) hp rfl
  have := p.share_pos
  omega

/-- After the recalculation a user has one portion a task and the further ones. -/
theorem Kernel.own_add_others (k : Kernel) (U : Nat) :
    tally Task.user (fun _ => 1) U k.tasks + k.others U = k.procCount :=
  tally_one_add_others

theorem Kernel.allotted_recalculate (hb : 0 ≤ k.balance U) (h : k.recalculate = some k') :
    k'.allotted U =
      k.procCount - k.others U + tally Task.user (fun p => (k.beyondFirst p : Int)) U k.tasks := by
  obtain ⟨ht, _⟩ := recalculate_spec h
  have hc : k'.allotted U =
      tally Task.user (fun p => 1 + (k.beyondFirst p : Int)) U k.tasks := by
    rw [Kernel.allotted, ht, tally_map]
    refine tally_congr fun p hp hu => k.recalculate_counter p ?_
    have hle := share_le_processes hb hp hu
    have := p.share_pos
    rw [show p.user = U from hu]
    omega
  have hl := k.own_add_others U
  rw [hc, tally_add]
  omega

/-- Where the user's count is not above the number of tasks, the truncated portions add up. -/
theorem Kernel.beyondFirst_le_others (hb : 0 ≤ k.balance U) (hP : k.processes U ≤ k.procCount) :
    tally Task.user (fun p => (k.beyondFirst p : Int)) U k.tasks ≤ k.others U := by
  have hl := k.own_add_others U
  rcases lt_or_ge (k.processes U) 1 with h0 | h1
  · have hnone : tally Task.user (fun p => (k.beyondFirst p : Int)) U k.tasks =
        tally Task.user (fun _ => 0 * 0) U k.tasks := by
      refine tally_congr fun p hp hu => ?_
      have := share_le_processes hb hp hu
      have := p.share_pos
      omega
    rw [hnone, tally_mul, Int.mul_zero]
    exact Int.natCast_nonneg _
  · have hsum : tally Task.user (fun p => 1 + (k.beyondFirst p : Int)) U k.tasks *
        k.processes U ≤ tally Task.user Task.share U k.tasks * k.procCount := by
      rw [← tally_mul, ← tally_mul]
      refine tally_le_tally fun p hp hu => ?_
      have hu : p.user = U := hu
      rw [k.beyondFirst_eq p (by rw [hu]; omega), hu]
      have hone : 1 ≤ p.share * k.procCount / k.processes U := by
        refine Int.le_ediv_of_mul_le (by omega) ?_
        have := Int.mul_le_mul_of_nonneg_right p.share_pos k.procCount_nonneg
        omega
      have hcast : 1 + (((p.share * k.procCount / k.processes U).toNat - 1 : Nat) : Int) =
          p.share * k.procCount / k.processes U := by omega
      rw [hcast]
      exact Int.ediv_mul_le _ (by omega)
    have hshare : tally Task.user Task.share U k.tasks * k.procCount ≤
        k.procCount * k.processes U := by
      rw [Int.mul_comm k.procCount]
      refine Int.mul_le_mul_of_nonneg_right ?_ k.procCount_nonneg
      unfold Kernel.balance at hb
      omega
    have hle := Int.le_of_mul_le_mul_right (Int.le_trans hsum hshare) (by omega)
    rw [tally_add] at hle
    omega

theorem Kernel.allotted_le_iff_fits (hb : 0 ≤ k.balance U) (h : k.recalculate = some k') :
    k'.allotted U ≤ k'.procCount ↔ k.Fits U := by
  obtain ⟨ht, _⟩ := recalculate_spec h
  have hN : k'.procCount = k.procCount := by
    rw [Kernel.procCount, ht, List.length_map]
    rfl
  rw [allotted_recalculate hb h, hN]
  unfold Kernel.Fits
  constructor
  · intro hle
    exact .inr (by omega)
  · rintro (hP | hle)
    · have := beyondFirst_le_others hb hP
      omega
    · omega

/-- Shares of at most 2 hold no second portion of a count above the number of tasks. -/
theorem Kernel.fits_of_share_le_two (hs : ∀ p ∈ k.tasks, p.user = U → p.share ≤ 2) :
    k.Fits U := by
  rcases lt_or_ge k.procCount (k.processes U) with hlt | hge
  · refine .inr ?_
    have hnone : tally Task.user (fun p => (k.beyondFirst p : Int)) U k.tasks =
        tally Task.user (fun _ => 0 * 0) U k.tasks := by
      refine tally_congr fun p hp hu => ?_
      have hu : p.user = U := hu
      have h0 := k.procCount_nonneg
      have h2 := Int.mul_le_mul_of_nonneg_right (hs p hp hu) h0
      rw [k.beyondFirst_eq p (by rw [hu]; omega), hu]
      have : p.share * k.procCount / k.processes U < 2 :=
        Int.ediv_lt_of_lt_mul (by omega) (by omega)
      omega
    rw [hnone, tally_mul, Int.mul_zero]
    exact Int.natCast_nonneg _
  · exact .inl hge

end

section
variable {k k' : Kernel} {U : Nat} {op : Op} {ops : List Op}

/-- An operation that raises a user's shares from 1 only keeps them at most 2. -/
theorem Kernel.perform_share_le_two (hs : ∀ p ∈ k.tasks, p.user = U → p.share ≤ 2)
    (hr : ∀ p ∈ k.raises op, p.user = U → p.share = 1) :
    ∀ p ∈ (k.perform op).tasks, p.user = U → p.share ≤ 2 := by
  unfold Kernel.perform
  cases h : k.perform? op with
  | none => exact hs
  | some k' =>
    rw [Option.getD_some]
    intro p hp
    cases op with
    | fork parent child counter =>
      obtain ⟨q, _, ht, _⟩ := fork_spec h
      rw [ht] at hp
      rcases List.mem_append.mp hp with hp | hp
      · exact hs p hp
      · obtain rfl := List.mem_singleton.mp hp
        intro _
        exact (by decide : (1 : Int) ≤ 2)
    | forkFails parent =>
      rw [(forkFails_spec h).1] at hp
      exact hs p hp
    | incshare caller =>
      have hsome : (k.incshare caller).isSome = true := Option.isSome_iff_exists.mpr ⟨k', h⟩
      simp only [Kernel.raises, hsome, if_true, List.mem_filter] at hr
      rw [(incshare_spec h).1, sysIncshare_tasks] at hp
      obtain ⟨q, hq, rfl⟩ := List.mem_map.mp hp
      split
      · rename_i hsel
        intro hu
        have := hr q ⟨hq, hsel⟩ hu
        simp only [Task.incShare]
        omega
      · exact hs q hq
    | exit pid =>
      rw [(exit_spec h).1] at hp
      obtain ⟨q, hq, rfl⟩ := List.mem_map.mp hp
      split
      · exact hs q hq
      · exact hs q hq
    | release pid =>
      obtain ⟨_, _, ht, _⟩ := release_spec h
      rw [ht] at hp
      exact hs p (List.mem_of_mem_eraseP hp)
    | recalculate =>
      rw [(recalculate_spec h).1] at hp
      obtain ⟨q, hq, rfl⟩ := List.mem_map.mp hp
      exact hs q hq

theorem Kernel.visited_share_le_two (hs : ∀ p ∈ k.tasks, p.user = U → p.share ≤ 2)
    (hr : ∀ p ∈ k.raised ops, p.user = U → p.share = 1) (h : k' ∈ k.visited ops) :
    ∀ p ∈ k'.tasks, p.user = U → p.share ≤ 2 := by
  induction ops generalizing k with
  | nil => exact List.mem_singleton.mp h ▸ hs
  | cons op ops ih =>
    rcases List.mem_cons.mp h with rfl | h
    · exact hs
    · exact ih (perform_share_le_two hs fun p hp => hr p (List.mem_append_left _ hp))
        (fun p hp => hr p (List.mem_append_right _ hp)) h

theorem Kernel.foldl_mem_visited (k : Kernel) (ops : List Op) :
    ops.foldl Kernel.perform k ∈ k.visited ops := by
  induction ops generalizing k with
  | nil => exact List.mem_singleton_self k
  | cons op ops ih => exact List.mem_cons_of_mem k (ih (k.perform op))

end

/-- A user none of whose tasks ever raises its share above 2 stays within the number of tasks in
every run from a balanced state, and so does one counted for no more than all the tasks. -/
theorem Kernel.allotted_le_procCount (k : Kernel) (ops : List Op)
    (hk : ∀ U, k.balance U = 0) :
    ∀ k' ∈ k.visited ops, ∃ k'', k'.recalculate = some k'' ∧
      ∀ U, ((∀ p ∈ k.tasks, p.user = U → p.share ≤ 2) ∧
          (∀ p ∈ k.raised ops, p.user = U → p.share = 1) ∨ k'.processes U ≤ k'.procCount) →
        k''.allotted U ≤ k''.procCount := by
  intro k' hk'
  have hb : ∀ U, 0 ≤ k'.balance U := fun U => hk U ▸ balance_le_visited hk' U
  obtain ⟨k'', h⟩ := recalculate_isSome hb
  refine ⟨k'', h, fun U hU => (allotted_le_iff_fits (hb U) h).mpr ?_⟩
  rcases hU with ⟨hs, hr⟩ | hP
  · exact fits_of_share_le_two (visited_share_le_two hs hr hk')
  · exact .inl hP

/-- Two users with one task each. -/
def couple : Kernel where
  tasks := [⟨1, 0, 1, 0, false, share_one⟩, ⟨2, 1, 1, 0, false, share_one⟩]
  processes U := if U = 0 ∨ U = 1 then 1 else 0
  pids_nodup := by decide

theorem couple_balance (U : Nat) : couple.balance U = 0 := by
  by_cases h0 : U = 0
  · subst h0
    rfl
  · by_cases h1 : U = 1
    · subst h1
      rfl
    · simp [Kernel.balance, couple, tally_cons, h0, h1, Ne.symm h0, Ne.symm h1]

/-- Both fork, both children raise their shares, and the first user's child does so again. -/
def coupleRaised : List Op :=
  [.fork 1 3 0, .incshare 3, .fork 2 4 0, .incshare 4, .incshare 3]

theorem Kernel.allotted_le_procCount_couple :
    ∃ k'', (coupleRaised.foldl Kernel.perform couple).recalculate = some k'' ∧
      k''.allotted 0 ≤ k''.procCount ∧ k''.allotted 1 ≤ k''.procCount := by
  obtain ⟨k'', h, ha⟩ := Kernel.allotted_le_procCount couple coupleRaised couple_balance
    (coupleRaised.foldl Kernel.perform couple) (Kernel.foldl_mem_visited couple coupleRaised)
  -- the first user is counted for four of the four tasks, the second one raised a share of 1
  exact ⟨k'', h, ha 0 (.inr (by decide)), ha 1 (.inl ⟨by decide, by decide⟩)⟩

/-- Four tasks of one user, one of which raised its share twice, are given five ticks. -/
theorem Kernel.allotted_gt_procCount : ¬ ∀ (k : Kernel) (ops : List Op),
    (∀ U, k.balance U = 0) → ∀ k' ∈ k.visited ops, ∀ k'', k'.recalculate = some k'' →
      ∀ U, k''.allotted U ≤ k''.procCount := by
  intro h
  let k := ((((single.perform (.fork 1 2 0)).perform (.fork 1 3 0)).perform
    (.fork 1 4 0)).perform (.incshare 4)).perform (.incshare 4)
  have := h single [.fork 1 2 0, .fork 1 3 0, .fork 1 4 0, .incshare 4, .incshare 4]
    single_balance k (by simp [k, Kernel.visited]) (k.perform .recalculate) (by rfl) 0
  revert this
  decide

end NoblesseOblige.FairShare
