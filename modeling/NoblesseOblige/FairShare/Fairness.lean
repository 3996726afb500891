import NoblesseOblige.FairShare.Portion
import Mathlib.Algebra.Order.Ring.Int
import Mathlib.Algebra.Order.Group.Abs

namespace NoblesseOblige.FairShare
set_option autoImplicit true

/-- How many of the listed tasks are the user's. -/
def Kernel.headcount (k : Kernel) (U : Nat) : Int := tally Task.user (fun _ => 1) U k.tasks

/-- A user with tasks, counted for their shares, each of which is one of the two intended. -/
structure Kernel.Regular (k : Kernel) (U : Nat) : Prop where
  headcount : 1 ≤ k.headcount U
  counted : k.processes U = tally Task.user Task.share U k.tasks
  share : ∀ p ∈ k.tasks, p.user = U → p.share = 1 ∨ p.share = 2

section
variable {k k' : Kernel} {U V : Nat}

theorem Kernel.Regular.balance (h : k.Regular U) : k.balance U = 0 := by
  rw [Kernel.balance, h.counted, Int.sub_self]

theorem Kernel.recalculate_procCount (h : k.recalculate = some k') :
    k'.procCount = k.procCount := by
  rw [Kernel.procCount, (recalculate_spec h).1, List.length_map, Kernel.procCount]

theorem Kernel.one_le_counter (hk : ∀ p ∈ k.tasks, 0 < k.processes p.user)
    (h : k.recalculate = some k') (hp : p ∈ k'.tasks) : 1 ≤ p.counter := by
  rw [(recalculate_spec h).1] at hp
  obtain ⟨q, hq, rfl⟩ := List.mem_map.mp hp
  have hpos := hk q hq
  rw [k.recalculate_counter q (by omega)]
  omega

/-- The truncation takes less than a whole count off a portion. -/
theorem Kernel.portion_lt (k : Kernel) (p : Task) (hP : 1 ≤ k.processes p.user) :
    p.share * k.procCount + 1 ≤
      ((p.recalculate k.procCount k.processes).counter + 1) * k.processes p.user := by
  have hq := Int.lt_ediv_add_one_mul_self (p.share * k.procCount)
    (by omega : 0 < k.processes p.user)
  have hle : p.share * k.procCount / k.processes p.user + 1 ≤
      (p.recalculate k.procCount k.processes).counter + 1 := by
    rw [k.recalculate_counter p hP, k.beyondFirst_eq p hP]
    omega
  have hmul := Int.mul_le_mul_of_nonneg_right hle (by omega : 0 ≤ k.processes p.user)
  omega

/-- A user loses less than one tick for each of its tasks. -/
theorem Kernel.lt_allotted (hR : k.Regular U) (hk : ∀ p ∈ k.tasks, 0 < k.processes p.user)
    (h : k.recalculate = some k') : k.procCount - k.headcount U < k'.allotted U := by
  have hm := hR.headcount
  obtain ⟨q, hq, hqU, -⟩ := (tally_pos_iff fun _ _ _ => Int.one_nonneg).mp hm
  have hP : 0 < k.processes U := hqU ▸ hk q hq
  have hT : k'.allotted U = tally Task.user
      (fun p => (p.recalculate k.procCount k.processes).counter) U k.tasks := by
    rw [Kernel.allotted, (recalculate_spec h).1, tally_map]
    rfl
  have hsum : tally Task.user (fun p => p.share * k.procCount + 1) U k.tasks ≤
      tally Task.user (fun p => ((p.recalculate k.procCount k.processes).counter + 1) *
        k.processes U) U k.tasks := by
    refine tally_le_tally fun p hp hu => ?_
    have hu : p.user = U := hu
    rw [← hu]
    exact k.portion_lt p (hk p hp)
  rw [tally_add, tally_mul, tally_mul, tally_add, ← hT, ← hR.counted] at hsum
  change k.processes U * k.procCount + k.headcount U ≤
    (k'.allotted U + k.headcount U) * k.processes U at hsum
  have hlt : k.procCount * k.processes U < (k'.allotted U + k.headcount U) * k.processes U := by
    rw [Int.mul_comm k.procCount]
    omega
  have := Int.lt_of_mul_lt_mul_right hlt (Int.le_of_lt hP)
  omega

theorem Kernel.Regular.allotted_le (hR : k.Regular U) (h : k.recalculate = some k') :
    k'.allotted U ≤ k.procCount := by
  have hfits : k.Fits U := fits_of_share_le_two fun p hp hu => by
    have := hR.share p hp hu
    omega
  rw [← recalculate_procCount h]
  exact (allotted_le_iff_fits (Int.le_of_eq hR.balance.symm) h).mpr hfits

/-- A recalculation gives a regular user as many ticks as there are tasks, but for the rounding,
so that two of them get the same up to their numbers of tasks. -/
theorem Kernel.recalculate_fair (k : Kernel) (hk : ∀ p ∈ k.tasks, 0 < k.processes p.user) :
    ∃ k', k.recalculate = some k' ∧
      (∀ U, k.Regular U → (∀ p ∈ k'.tasks, p.user = U → 1 ≤ p.counter) ∧
        k.procCount - k.headcount U < k'.allotted U ∧ k'.allotted U ≤ k.procCount) ∧
      ∀ U V, k.Regular U → k.Regular V →
        |k'.allotted U - k'.allotted V| < max (k.headcount U) (k.headcount V) := by
  obtain ⟨k', h⟩ := recalculate_of_counted hk
  refine ⟨k', h, fun U hU => ?_, fun U V hU hV => ?_⟩
  · exact ⟨fun p hp _ => one_le_counter hk h hp, lt_allotted hU hk h, hU.allotted_le h⟩
  · have := lt_allotted hU hk h
    have := lt_allotted hV hk h
    have := hU.allotted_le h
    have := hV.allotted_le h
    rw [abs_lt]
    omega

end

/-- The first of two users has three tasks, the second two, one of them with a share of 2. -/
def uneven : Kernel :=
  [.fork 1 3 0, .fork 1 4 0, .fork 2 5 0, .incshare 5].foldl Kernel.perform couple

theorem uneven_regular : uneven.Regular 0 ∧ uneven.Regular 1 :=
  ⟨⟨by decide, by decide, by decide⟩, ⟨by decide, by decide, by decide⟩⟩

theorem Kernel.recalculate_fair_uneven :
    ∃ k', uneven.recalculate = some k' ∧
      (∀ p ∈ k'.tasks, p.user = 0 ∨ p.user = 1 → 1 ≤ p.counter) ∧
      (2 < k'.allotted 0 ∧ k'.allotted 0 ≤ 5) ∧ (3 < k'.allotted 1 ∧ k'.allotted 1 ≤ 5) ∧
      |k'.allotted 0 - k'.allotted 1| < 3 := by
  obtain ⟨h0, h1⟩ := uneven_regular
  obtain ⟨k', h, hU, hd⟩ := Kernel.recalculate_fair uneven (by decide)
  obtain ⟨hc0, hT0⟩ := hU 0 h0
  obtain ⟨hc1, hT1⟩ := hU 1 h1
  exact ⟨k', h, fun p hp hu => hu.elim (hc0 p hp) (hc1 p hp), hT0, hT1, hd 0 1 h0 h1⟩

section
variable {k k' : Kernel} {p q : Task}

theorem Kernel.recalculate_task? (h : k.recalculate = some k') (pid : Nat) :
    k'.task? pid = (k.task? pid).map (Task.recalculate k.procCount k.processes) := by
  rw [Kernel.task?, (recalculate_spec h).1, List.find?_map]
  rfl

/-- Two shares hold twice what one holds exactly if one holds anything before the fix-up. -/
theorem Kernel.double_counter_iff (hu : p.user = q.user) (hP : 1 ≤ k.processes q.user)
    (hp : p.share = 2) (hq : q.share = 1) :
    2 * (q.recalculate k.procCount k.processes).counter ≤
      (p.recalculate k.procCount k.processes).counter ↔ k.processes q.user ≤ k.procCount := by
  rw [k.recalculate_counter q hP, k.recalculate_counter p (hu ▸ hP), k.beyondFirst_eq q hP,
    k.beyondFirst_eq p (hu ▸ hP), hu, hp, hq, Int.one_mul]
  have hone := Int.le_ediv_iff_mul_le (a := 1) (b := k.procCount)
    (by omega : 0 < k.processes q.user)
  have hdouble := Int.le_ediv_iff_mul_le (a := 2 * (k.procCount / k.processes q.user))
    (b := 2 * k.procCount) (by omega : 0 < k.processes q.user)
  have hmul := Int.ediv_mul_le k.procCount (by omega : k.processes q.user ≠ 0)
  have htwo := Int.ediv_lt_iff_lt_mul (a := 2 * k.procCount) (b := 2)
    (by omega : 0 < k.processes q.user)
  rw [Int.mul_assoc] at hdouble
  rw [Int.one_mul] at hone
  omega

/-- Raising the share of a task to two doubles its counter exactly if its user is counted for no
more than all the tasks. -/
theorem Kernel.incshare_doubles_iff (k : Kernel) (ops : List Op) (hk : ∀ U, k.balance U = 0)
    (k' : Kernel) (hk' : k' ∈ k.visited ops) (a b : Nat) (p q : Task) (ha : k'.task? a = some p)
    (hb : k'.task? b = some q) (hu : p.user = q.user) (hp : p.share = 2) (hq : q.share = 1) :
    ∃ k'' p' q', k'.recalculate = some k'' ∧ k''.task? a = some p' ∧ k''.task? b = some q' ∧
      (2 * q'.counter ≤ p'.counter ↔ k'.processes p.user ≤ k'.procCount) := by
  have hbal : ∀ U, 0 ≤ k'.balance U := fun U => hk U ▸ balance_le_visited hk' U
  have hle := share_le_processes (hbal q.user) (List.mem_of_find?_eq_some hb) rfl
  obtain ⟨k'', h⟩ := recalculate_isSome hbal
  have ha'' := recalculate_task? h a
  have hb'' := recalculate_task? h b
  rw [ha, Option.map_some] at ha''
  rw [hb, Option.map_some] at hb''
  refine ⟨k'', _, _, h, ha'', hb'', ?_⟩
  rw [hu]
  exact double_counter_iff hu (hq ▸ hle) hp hq

end

theorem Kernel.incshare_doubles_iff_three :
    ∃ k'' p' q',
      (((single.perform (.fork 1 2 0)).perform (.incshare 2)).recalculate = some k'') ∧
      k''.task? 2 = some p' ∧ k''.task? 1 = some q' ∧
      (2 * q'.counter ≤ p'.counter ↔
        ((single.perform (.fork 1 2 0)).perform (.incshare 2)).processes 0 ≤
          ((single.perform (.fork 1 2 0)).perform (.incshare 2)).procCount) :=
  Kernel.incshare_doubles_iff single [.fork 1 2 0, .incshare 2] single_balance
    ((single.perform (.fork 1 2 0)).perform (.incshare 2)) (by simp [Kernel.visited]) 2 1
    ⟨2, 0, 2, 0, false, by decide⟩ ⟨1, 0, 1, 0, false, share_one⟩ rfl rfl rfl rfl rfl

/-- A fork or an `incshare`. -/
def Op.enlarges : Op → Bool
  | .fork _ _ _ | .incshare _ => true
  | _ => false

/-- A user alone with two tasks that raises the share of one gets one tick for each. -/
theorem Kernel.incshare_not_doubles : ¬ ∀ (k : Kernel) (ops : List Op),
    (∀ U, k.balance U = 0) → (∀ op ∈ ops, op.enlarges = true) → ∀ k' ∈ k.visited ops,
    ∀ (a b : Nat) (p q : Task), k'.task? a = some p → k'.task? b = some q → p.user = q.user →
      p.share = 2 → q.share = 1 →
        ∃ k'' p' q', k'.recalculate = some k'' ∧ k''.task? a = some p' ∧ k''.task? b = some q' ∧
          2 * q'.counter ≤ p'.counter := by
  intro h
  let k := (single.perform (.fork 1 2 0)).perform (.incshare 2)
  obtain ⟨k', p', q', hr, hp, hq, hle⟩ := h single [.fork 1 2 0, .incshare 2] single_balance
    (by decide) k (by simp [k, Kernel.visited]) 2 1 ⟨2, 0, 2, 0, false, by decide⟩
    ⟨1, 0, 1, 0, false, share_one⟩ rfl rfl rfl rfl rfl
  have hp' : k.recalculate.bind (fun k' => (k'.task? 2).map Task.counter) = some 1 := by decide
  have hq' : k.recalculate.bind (fun k' => (k'.task? 1).map Task.counter) = some 1 := by decide
  rw [hr, Option.bind_some, hp] at hp'
  rw [hr, Option.bind_some, hq] at hq'
  have := Option.some.inj hp'
  have := Option.some.inj hq'
  omega

end NoblesseOblige.FairShare
