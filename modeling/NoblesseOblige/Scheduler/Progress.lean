import NoblesseOblige.Scheduler.Settings

namespace NoblesseOblige.Scheduler
open Scheduler.Core
set_option autoImplicit true

section
variable [DecidableEq ι] {B : Board n ι} {k k' : Kernel n ι}

theorem delFromRunqueue_ok (hq : (k.task p).queued = true) :
    ∃ k', k.delFromRunqueue p = .ok k' := by
  unfold Kernel.delFromRunqueue
  rw [if_pos hq]
  exact ⟨_, rfl⟩

theorem moveLastRunqueue_ok (hq : (k.task p).queued = true) :
    ∃ k', k.moveLastRunqueue p = .ok k' := by
  unfold Kernel.moveLastRunqueue
  rw [if_pos hq]
  exact ⟨_, rfl⟩

theorem moveExhausted_ok (B : Board n ι) {k : Kernel n ι} {prev : ι}
    (hq : (k.task prev).policy = schedRr → (k.task prev).queued = true) :
    ∃ k', B.moveExhausted k prev = .ok k' := by
  unfold Board.moveExhausted
  split
  · rename_i hrr
    apply moveLastRunqueue_ok
    rw [k.task_modify, if_pos rfl]
    exact hq hrr.1
  · exact ⟨k, rfl⟩

theorem leave_ok (hq : (k.task prev).state ≠ .running → (k.task prev).queued = true) :
    ∃ k', k.leave prev = .ok k' := by
  unfold Kernel.leave
  split
  · exact ⟨k, rfl⟩
  · rename_i hst
    split
    · exact ⟨_, rfl⟩
    · exact delFromRunqueue_ok (hq (by rw [hst]; decide))
  · rename_i hst _
    exact delFromRunqueue_ok (hq hst)

/-- `schedule` finds the task it runs on still linked, unless it is the idle one. -/
theorem needReschedBack_ok (hs : Inv B k.core) (hi : IdleInv B k) (hc : k.pc c = .needReschedBack)
    (hk : k.lock = none) : ∃ k', B.needReschedBack k c = .ok k' := by
  have hqueued (hb : ¬ B.Idle (k.current c)) : (k.task (k.current c)).queued = true := by
    have hl : (k.core.loc c).queued = true := congrArg (fun l => (Pc.loc l).queued) hc
    exact (hs.queue.queued hb).mpr (hs.place.current_mem hl hb)
  have hrr : (k.task (k.current c)).policy = schedRr → (k.task (k.current c)).queued = true := by
    intro hrr
    apply hqueued
    intro hb
    rw [hi.policy hb] at hrr
    exact absurd hrr (by decide)
  obtain ⟨k₁, h₁⟩ := moveExhausted_ok B hrr
  obtain ⟨_, rq, _, hcore⟩ := moveExhausted_spec hi h₁
  have hst : (k₁.task (k.current c)).state = (k.task (k.current c)).state :=
    congrFun (congrArg Core.state hcore) (k.current c)
  have hq : (k₁.task (k.current c)).queued = (k.task (k.current c)).queued :=
    congrFun (congrArg Core.queued hcore) (k.current c)
  have hrun : (k₁.task (k.current c)).state ≠ .running →
      (k₁.task (k.current c)).queued = true := by
    intro hrun
    rw [hq]
    apply hqueued
    intro hb
    exact hrun (hst.trans (hi.state hb))
  obtain ⟨k₂, h₂⟩ := leave_ok hrun
  unfold Board.needReschedBack
  simp only [hk, Option.isSome_none, Bool.false_eq_true, if_false, h₁, Except.bind, h₂]
  exact ⟨_, rfl⟩

theorem borrowMm_ok (oldmm : Nat) (h : (k.task next).mm = none → (k.task next).activeMm = none)
    (h' : ∀ mm, (k.task next).mm = some mm → (k.task next).activeMm = some mm) :
    ∃ k', k.borrowMm oldmm next = .ok k' := by
  unfold Kernel.borrowMm
  split
  · rename_i hm
    rw [if_neg fun hne => hne (h hm)]
    exact ⟨_, rfl⟩
  · rename_i mm hm
    rw [if_neg fun hne => hne (h' mm hm)]
    exact ⟨_, rfl⟩

/-- None of the three tests of `active_mm` in `schedule` fails. -/
theorem switchTo_ok (cycles : BitVec 64) (hs : Inv B k.core) (hc : k.pc c = .switchTo next) :
    ∃ k', k.switchTo c cycles next = .ok k' := by
  have hloc : k.core.loc c = .switching next := congrArg Pc.loc hc
  have hnew : ¬ ∃ d, k.current d = next := by
    rintro ⟨d, hd⟩
    have hcd := hs.own.exclusive (c := c) (.inr (.inl (by rw [hloc]; rfl))) (.inl hd)
    subst hcd
    exact (hs.own.chosen hloc).1 hd.symm
  obtain ⟨oldmm, hm⟩ : ∃ oldmm, (k.task (k.current c)).activeMm = some oldmm := by
    apply Option.ne_none_iff_exists'.mp
    cases hmm : (k.task (k.current c)).mm with
    | none => exact (hs.mm.lazy hmm).mpr ⟨c, rfl⟩
    | some mm =>
      have hown : (k.task (k.current c)).activeMm = some mm := hs.mm.own hmm
      rw [hown]
      exact nofun
  have hlazy : (k.task next).mm = none → (k.task next).activeMm = none := by
    intro hnone
    by_contra hne
    exact hnew ((hs.mm.lazy hnone).mp hne)
  obtain ⟨k₁, h₁⟩ := borrowMm_ok oldmm hlazy fun mm hsome => hs.mm.own hsome
  unfold Kernel.switchTo
  simp only [hm, h₁]
  exact ⟨_, rfl⟩

omit [DecidableEq ι] in
theorem Core.LockInv.other {s : Core n ι} (hs : LockInv s) (hl : (s.loc c).locked = false)
    (hk : s.lock = some d) : d ≠ c := by
  rintro rfl
  rw [(hs.iff d).mp hk] at hl
  cases hl

/-- A CPU in the scheduler goes on, unless it waits for the lock that another one has. -/
theorem advance_cases (cycles : BitVec 64) (hs : Inv B k.core) (hi : IdleInv B k)
    (hc : k.pc c ≠ .code) :
    (∃ k', B.advance k c cycles = .ok k') ∨
      B.advance k c cycles = .error .waits ∧ ∃ d, d ≠ c ∧ k.lock = some d := by
  have hother {d} (hl : (k.pc c).loc.locked = false) (hk : k.lock = some d) : d ≠ c :=
    hs.lock.other hl hk
  have hspares := hi.spares c
  cases hpc : k.pc c with
  | code => exact absurd hpc hc
  | yielding =>
    rw [hpc] at hspares
    have hl : (k.core.loc c).queued = true := congrArg (fun l => (Pc.loc l).queued) hpc
    obtain ⟨k₁, h₁⟩ := moveLastRunqueue_ok (k := k) (p := k.current c)
      ((hs.queue.queued hspares).mpr (hs.place.current_mem hl hspares))
    simp only [Board.advance, hpc]
    cases hk : k.lock with
    | none =>
      rw [h₁]
      exact .inl ⟨_, rfl⟩
    | some d => exact .inr ⟨rfl, d, hother (by rw [hpc]; rfl) hk, rfl⟩
  | needReschedBack =>
    simp only [Board.advance, hpc]
    cases hk : k.lock with
    | none => exact .inl (needReschedBack_ok hs hi hpc hk)
    | some d =>
      unfold Board.needReschedBack
      rw [hk]
      exact .inr ⟨rfl, d, hother (by rw [hpc]; rfl) hk, rfl⟩
  | relock =>
    simp only [Board.advance, hpc]
    cases hk : k.lock with
    | none => exact .inl ⟨_, rfl⟩
    | some d => exact .inr ⟨rfl, d, hother (by rw [hpc]; rfl) hk, rfl⟩
  | push prev =>
    simp only [Board.advance, hpc, Board.push]
    cases hk : k.lock with
    | none => exact .inl ⟨_, rfl⟩
    | some d => exact .inr ⟨rfl, d, hother (by rw [hpc]; rfl) hk, rfl⟩
  | switchTo next =>
    simp only [Board.advance, hpc]
    exact .inl (switchTo_ok cycles hs hpc)
  | pending rest nr =>
    left
    cases rest with
    | nil =>
      simp only [Board.advance, hpc]
      split <;> exact ⟨_, rfl⟩
    | cons cpu cpus =>
      simp only [Board.advance, hpc]
      exact ⟨_, rfl⟩
  | scan rest w next =>
    left
    cases rest <;> simp only [Board.advance, hpc] <;> exact ⟨_, rfl⟩
  | recalculate rest =>
    left
    cases rest <;> simp only [Board.advance, hpc] <;> exact ⟨_, rfl⟩
  | check prev policy =>
    left
    simp only [Board.advance, hpc]
    split <;> exact ⟨_, rfl⟩
  | _ =>
    left
    simp only [Board.advance, hpc]
    exact ⟨_, rfl⟩

theorem tryToWakeUp_ne_bug : B.tryToWakeUp k c p synchronous ≠ .error .bug := by
  unfold Board.tryToWakeUp
  split
  · exact nofun
  · dsimp only
    split
    · exact nofun
    · rename_i hq
      unfold Kernel.addToRunqueue
      rw [if_neg hq]
      exact nofun

/-- The run queue is never corrupted, no `active_mm` is missed and no `BUG_ON` fires, but for that
of `set_cpus_allowed` on a mask without any CPU. -/
theorem bug_iff (h : B.system.Reachable k) : B.perform k a = .error .bug ↔
    ∃ c p newMask, a = .allow c p newMask ∧ B.Busy k c ∧ newMask &&& onlineMap n = 0 := by
  obtain ⟨hs, hi⟩ := reachable_inv h
  constructor
  · intro hbug
    cases a with
    | advance c cycles =>
      exfalso
      by_cases hc : k.pc c = .code
      · simp [Board.perform, Board.advance, hc] at hbug
      · rcases advance_cases cycles hs hi hc with ⟨k', hok⟩ | ⟨hw, _⟩
        · cases hok.symm.trans hbug
        · cases hw.symm.trans hbug
    | schedule c =>
      simp only [Board.perform] at hbug
      split at hbug
      · split at hbug
        · rename_i hmm
          have hno : ∀ mm, (k.task (k.current c)).mm ≠ some mm := by
            intro mm hsome
            have hown : (k.task (k.current c)).activeMm = some mm := hs.mm.own hsome
            rw [hmm] at hown
            cases hown
          have hnone := Option.eq_none_iff_forall_ne_some.mpr hno
          exact absurd hmm ((hs.mm.lazy hnone).mpr ⟨c, rfl⟩)
        · cases hbug
      · cases hbug
    | allow c p newMask =>
      simp only [Board.perform] at hbug
      split at hbug
      · rename_i hb
        unfold Kernel.setCpusAllowed at hbug
        dsimp only at hbug
        split at hbug
        · exact ⟨c, p, newMask, rfl, hb, ‹_›⟩
        · split at hbug <;> cases hbug
      · cases hbug
    | wake c p synchronous =>
      simp only [Board.perform] at hbug
      split at hbug
      · cases hbug
      · cases hw : B.tryToWakeUp k (k.thisCpu c) p synchronous with
        | ok r =>
          rw [hw] at hbug
          cases hbug
        | error e =>
          rw [hw] at hbug
          cases hbug
          exact absurd hw tryToWakeUp_ne_bug
    | nice c increment =>
      simp only [Board.perform] at hbug
      split at hbug
      · split at hbug <;> cases hbug
      · cases hbug
    | setscheduler c pid policy param =>
      simp only [Board.perform] at hbug
      split at hbug
      · split at hbug <;> cases hbug
      · cases hbug
    | setState | yield | reparent | tick =>
      simp only [Board.perform] at hbug
      split at hbug <;> cases hbug
    | signal | handle =>
      simp only [Board.perform] at hbug
      cases hbug
  · rintro ⟨c, p, newMask, rfl, hb, hm⟩
    simp only [Board.perform, if_pos hb, Kernel.setCpusAllowed, if_pos hm]

theorem bug_iff_pair : pair.perform pairRun (.allow 0 2 0) = .error .bug :=
  (bug_iff pairRun_reachable).mpr ⟨0, 2, 0, rfl, by decide +kernel, by decide⟩

/-- How many steps of its own the CPU is from giving `runqueue_lock` back. -/
def Pc.holding : Pc n ι → Nat
  | .scan rest _ _ => rest.length + 1
  | .setting .. => 1
  | _ => 0

end

end NoblesseOblige.Scheduler
