import NoblesseOblige.FairShare.Smp

namespace NoblesseOblige.FairShare.Smp
set_option autoImplicit true

/-- A statement changes its user's count by what the task and its child are then counted for. -/
theorem Task.run_held {p p' : Task} (h : p.run s = some (p', d)) :
    p'.user = p.user ∧ p'.held + tally Task.user Task.held p.user (s.child p) = p.held + d := by
  unfold Task.run at h
  split at h
  case h_8 =>
    rename_i hp
    split at h
    · rename_i h2
      cases h
      refine ⟨rfl, ?_⟩
      simp only [Task.held, hp, h2, Stmt.child, tally_nil]
      rfl
    · rename_i h2
      cases h
      refine ⟨rfl, ?_⟩
      simp only [Task.held, Task.goto, hp, h2, if_false, Stmt.child, tally_nil]
  case h_9 =>
    rename_i hp
    have h2 := p.share_again hp
    cases h
    refine ⟨rfl, ?_⟩
    simp only [Task.held, Task.goto, hp, h2, if_true, Stmt.child, tally_nil]
    omega
  case h_12 => cases h
  all_goals
    rename_i hp
    cases h
    refine ⟨rfl, ?_⟩
    simp only [Task.held, Task.goto, hp, Stmt.child, tally_cons, tally_nil, if_true] <;> omega

/-- Only `unhash_process` unlinks a task, and it holds the lock for writing. -/
theorem Task.run_linked {p p' : Task} (h : p.run s = some (p', d))
    (hs : s.writeLocked = false) : p'.phase ≠ .unhashed := by
  unfold Task.run at h
  split at h
  case h_8 =>
    split at h
    · cases h
      simp
    · cases h
      simp [Task.goto]
  case h_11 => cases hs
  case h_12 => cases h
  all_goals
    cases h
    simp [Task.goto]

/-- What holds between any two statements. -/
structure Inv (k : Kernel) : Prop where
  counted : ∀ U, k.processes U = tally Task.user Task.held U k.tasks
  listed : ∀ l, some l ∈ k.loops → ∀ i ∈ l.rest, ∃ p, k.tasks[i]? = some p ∧ p.phase ≠ .unhashed

theorem Kernel.Fresh.inv {k : Kernel} (h : k.Fresh) : Inv k where
  counted U := by
    rw [h.counted U]
    refine tally_congr fun p hp _ => ?_
    rcases h.settled p hp with he | he <;> simp only [Task.held, he]
  listed l hl := by cases h.unlocked _ hl

theorem Kernel.stmt_spec {k k' : Kernel} (h : k.stmt i s = some k') :
    ∃ p p' d, k.tasks[i]? = some p ∧ p.run s = some (p', d) ∧
      (s.writeLocked = true → k.readLocked = false) ∧
      k' = { k with
        tasks := k.tasks.set i p' ++ s.child p
        processes := bump k.processes p.user d } := by
  unfold Kernel.stmt at h
  cases hp : k.tasks[i]? with
  | none =>
    rw [hp] at h
    cases h
  | some p =>
    simp only [hp] at h
    cases hr : p.run s with
    | none =>
      rw [hr] at h
      cases h
    | some r =>
      simp only [hr] at h
      split at h
      · cases h
      · rename_i hl
        cases h
        refine ⟨p, r.1, r.2, rfl, hr, fun hw => ?_, rfl⟩
        simpa [hw] using hl

theorem Kernel.lock_spec {k k' : Kernel} (h : k.lock c procCount = some k') :
    k' = { k with loops := k.loops.set c (some ⟨procCount, k.linked⟩) } := by
  unfold Kernel.lock at h
  split at h
  · exact (Option.some.inj h).symm
  · cases h

theorem Kernel.evaluate_spec {k k' : Kernel} (h : k.evaluate c = some k') :
    ∃ n i rest p p', k.loops[c]? = some (some ⟨n, i :: rest⟩) ∧ k.tasks[i]? = some p ∧
      p'.user = p.user ∧ p'.phase = p.phase ∧ p'.held = p.held ∧
      k' = { k with
        tasks := k.tasks.set i p'
        loops := k.loops.set c (some ⟨n, rest⟩) } := by
  unfold Kernel.evaluate at h
  split at h
  · rename_i n i rest hc
    split at h
    · cases h
    · rename_i p hp
      split at h
      · cases h
      · exact ⟨n, i, rest, p, p.setCounter _, hc, hp, rfl, rfl, rfl, (Option.some.inj h).symm⟩
  · cases h

theorem Kernel.unlock_spec {k k' : Kernel} (h : k.unlock c = some k') :
    k' = { k with loops := k.loops.set c none } := by
  unfold Kernel.unlock at h
  split at h
  · exact (Option.some.inj h).symm
  · cases h

theorem Kernel.mem_linked {k : Kernel} (h : i ∈ k.linked) :
    ∃ p, k.tasks[i]? = some p ∧ p.phase ≠ .unhashed := by
  have hl := (List.mem_filter.mp h).2
  cases hp : k.tasks[i]? with
  | none =>
    rw [hp] at hl
    cases hl
  | some p =>
    rw [hp] at hl
    exact ⟨p, rfl, of_decide_eq_true hl⟩

theorem Inv.stmt (hk : Inv k) (h : k.stmt i s = some k') : Inv k' := by
  obtain ⟨p, p', d, hp, hr, hl, rfl⟩ := Kernel.stmt_spec h
  obtain ⟨hu, hd⟩ := Task.run_held hr
  constructor
  · intro U
    have hc := hk.counted U
    simp only [bump_apply, tally_append, tally_set hp hu]
    by_cases hU : p.user = U
    · subst hU
      rw [if_pos rfl, if_pos rfl]
      omega
    · have hchild : tally Task.user Task.held U (s.child p) = 0 := by
        cases s <;> simp [Stmt.child, tally_cons, hU]
      rw [if_neg hU, if_neg hU, hchild]
      omega
  · intro l hm j hj
    have hw : s.writeLocked = false := by
      cases hw : s.writeLocked with
      | false => rfl
      | true =>
        have hany : k.readLocked = true := List.any_eq_true.mpr ⟨some l, hm, rfl⟩
        rw [hl hw] at hany
        cases hany
    obtain ⟨q, hq, hqp⟩ := hk.listed l hm j hj
    have hlt := (List.getElem?_eq_some_iff.mp hq).1
    rw [List.getElem?_append_left (by rwa [List.length_set])]
    by_cases hij : i = j
    · subst hij
      exact ⟨p', List.getElem?_set_self hlt, Task.run_linked hr hw⟩
    · exact ⟨q, by rw [List.getElem?_set_ne hij, hq], hqp⟩

theorem Inv.lock (hk : Inv k) (h : k.lock c n = some k') : Inv k' := by
  rw [Kernel.lock_spec h]
  refine ⟨hk.counted, fun l hm i hi => ?_⟩
  rcases List.mem_or_eq_of_mem_set hm with hm | he
  · exact hk.listed l hm i hi
  · cases he
    exact Kernel.mem_linked hi

theorem Inv.evaluate (hk : Inv k) (h : k.evaluate c = some k') : Inv k' := by
  obtain ⟨n, i, rest, p, p', hc, hp, hu, hph, hh, rfl⟩ := Kernel.evaluate_spec h
  constructor
  · intro U
    simp only [tally_set hp hu, hh, ← hk.counted U, Int.sub_self, ite_self, Int.add_zero]
  · intro l hm j hj
    have hold : ∃ q, k.tasks[j]? = some q ∧ q.phase ≠ .unhashed := by
      rcases List.mem_or_eq_of_mem_set hm with hm | he
      · exact hk.listed l hm j hj
      · cases he
        exact hk.listed _ (List.mem_of_getElem? hc) j (List.mem_cons_of_mem i hj)
    obtain ⟨q, hq, hqp⟩ := hold
    by_cases hij : i = j
    · subst hij
      obtain rfl : p = q := Option.some.inj (hp.symm.trans hq)
      exact ⟨p', List.getElem?_set_self (List.getElem?_eq_some_iff.mp hq).1, hph ▸ hqp⟩
    · exact ⟨q, by rw [List.getElem?_set_ne hij, hq], hqp⟩

theorem Inv.unlock (hk : Inv k) (h : k.unlock c = some k') : Inv k' := by
  rw [Kernel.unlock_spec h]
  refine ⟨hk.counted, fun l hm i hi => ?_⟩
  rcases List.mem_or_eq_of_mem_set hm with hm | he
  · exact hk.listed l hm i hi
  · cases he

theorem reachable_inv (h : system.Reachable k) : Inv k := by
  refine h.invariant (fun k hk => hk.inv) ?_
  rintro k k' hk ⟨a, ha⟩
  cases a with
  | stmt i s => exact hk.stmt ha
  | lock c n => exact hk.lock ha
  | evaluate c => exact hk.evaluate ha
  | unlock c => exact hk.unlock ha

/-- The divisor of the next task of a loop is positive exactly while some task of the same user
has not given back all that was counted for it. -/
theorem Kernel.divisor_pos_iff (h : system.Reachable k)
    (hc : some ⟨procCount, i :: rest⟩ ∈ k.loops) :
    ∃ p, k.tasks[i]? = some p ∧ p.phase ≠ .unhashed ∧
      (1 ≤ k.processes p.user ↔ ∃ q ∈ k.tasks, q.user = p.user ∧ q.Retains) := by
  have hk := reachable_inv h
  obtain ⟨p, hp, hl⟩ := hk.listed _ hc i List.mem_cons_self
  refine ⟨p, hp, hl, ?_⟩
  rw [hk.counted, tally_pos_iff fun q _ _ => q.held_nonneg]
  simp only [Task.held_pos_iff]

/-- One user with one task, on a machine with two CPUs. -/
def single : Kernel where
  tasks := [⟨0, 1, 0, .running, share_one, running_raised, running_again⟩]
  processes U := if U = 0 then 1 else 0
  loops := [none, none]

theorem single_fresh : single.Fresh where
  settled := by decide
  counted U := by
    by_cases h : 0 = U
    · subst h
      rfl
    · simp [single, tally_cons, h, Ne.symm h]
  unlocked := by decide

theorem Kernel.divisor_pos_iff_single :
    ∃ k, System.play Kernel.perform single [.stmt 0 .incShare, .lock 1 1] = some k ∧
      ∃ p, k.tasks[0]? = some p ∧ p.phase ≠ .unhashed ∧
        (1 ≤ k.processes p.user ↔ ∃ q ∈ k.tasks, q.user = p.user ∧ q.Retains) :=
  ⟨_, rfl, Kernel.divisor_pos_iff
    ((System.Reachable.start single_fresh).play step_of_perform
      [.stmt 0 .incShare, .lock 1 1] rfl)
    (List.mem_cons_of_mem none List.mem_cons_self)⟩

/-- A user's only task is decremented on one CPU while the other recalculates. -/
theorem Kernel.divisor_not_pos : ¬ ∀ k, system.Reachable k → ∀ procCount i rest p,
    some ⟨procCount, i :: rest⟩ ∈ k.loops → k.tasks[i]? = some p →
      1 ≤ k.processes p.user := by
  intro h
  have hr := (System.Reachable.start single_fresh).play step_of_perform
    [.stmt 0 .exit, .stmt 0 .decProcesses, .lock 1 1] rfl
  have hp := h _ hr 1 0 [] _ (List.mem_cons_of_mem none List.mem_cons_self) rfl
  revert hp
  decide

end NoblesseOblige.FairShare.Smp
