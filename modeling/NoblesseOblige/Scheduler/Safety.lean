import NoblesseOblige.Dispatch
import NoblesseOblige.Scheduler.Steps

namespace NoblesseOblige.Scheduler
open Scheduler.Core
set_option autoImplicit true

section
variable [DecidableEq ι] {B : Board n ι} {k k' : Kernel n ι}

theorem Board.Booted.idleInv (h : B.Booted k) : IdleInv B k where
  state {p} hp := by
    obtain ⟨c, rfl⟩ := hp
    exact (h.idle c).1
  policy {p} hp := by
    obtain ⟨c, rfl⟩ := hp
    exact (h.idle c).2
  spares c := by
    rw [h.code c]
    trivial

omit [DecidableEq ι] in
theorem Board.Booted.inv (h : B.Booted k) : Inv B k.core := by
  have hloc (c : Fin n) : k.core.loc c = .settled := congrArg Pc.loc (h.code c)
  have hheld {c p} (hc : k.core.Held c p) : p = B.idleTask c := by
    rcases hc with hc | hc | hc
    · exact hc.symm.trans (h.current c)
    · rw [hloc c] at hc
      cases hc
    · rw [hloc c] at hc
      cases hc
  refine ⟨⟨fun c => ?_⟩, ?_, ?_, ?_, ?_, ?_⟩
  · rw [hloc c]
    exact iff_of_false (fun hk => by cases hk.symm.trans h.lock) nofun
  · constructor
    · intro c
      exact (congrArg k.core.processor (h.current c)).trans (h.processor c)
    · intro c
      rw [hloc c]
      exact (h.curr c).trans (h.current c).symm
    · intro c p hc hi
      exact absurd ⟨c, (hheld hc).symm⟩ hi
    · intro c d hc
      exact (B.idle_inj (hheld hc)).symm
    · intro p hi
      exact .inl (h.released p hi)
    · intro c rest next hc
      rw [hloc c] at hc
      cases hc
    · intro c next hc
      rw [hloc c] at hc
      cases hc
    · intro c prev hc
      rw [hloc c] at hc
      cases hc
  · refine ⟨h.nodup, ?_, fun hi => h.queued _ hi, h.counted⟩
    rintro p hp ⟨c, rfl⟩
    exact h.busy c hp
  · constructor
    · intro c _
      exact .inl (h.current c)
    · intro c rest next hc
      rw [hloc c] at hc
      cases hc
    · intro c next hc
      rw [hloc c] at hc
      cases hc
  · constructor
    · intro p hi hr
      exact (h.running p hi).mp hr
    · intro p hp hr
      have hi : ¬ B.Idle p := by
        rintro ⟨c, rfl⟩
        exact h.busy c hp
      exact absurd ((h.running p hi).mpr hp) hr
  · refine ⟨fun hm => h.mm _ _ hm, ?_⟩
    intro p hm
    have hlazy := h.lazy p hm
    rw [← Option.isSome_iff_ne_none]
    refine hlazy.trans ?_
    unfold Board.Idle
    simp only [← h.current]
    rfl

theorem reachable_inv (h : B.system.Reachable k) : Inv B k.core ∧ IdleInv B k := by
  apply h.invariant (I := fun k => Inv B k.core ∧ IdleInv B k)
  · exact fun k hb => ⟨hb.inv, hb.idleInv⟩
  · rintro k k' ⟨hinv, hidle⟩ ⟨a, ha⟩
    have hnext := perform_next hidle ha
    exact ⟨hinv.step hnext.step, hnext.idle⟩

/-- The dispatcher that the scheduler is meant to be: the run queue is what is ready, and
`cpus_runnable` of a task that has a CPU is that CPU's bit. -/
def Core.dispatch (B : Board n ι) (s : Core n ι) : Dispatch (Fin n) ι where
  ready := { p | p ∈ s.runqueue }
  owner p := if B.Idle p then none else (List.finRange n).find? fun c => s.runnable p = bit c

omit [DecidableEq ι] in
theorem find_bit (hn : n ≤ 32) (x : BitVec 32) (c : Fin n) :
    (List.finRange n).find? (fun c => x = bit c) = some c ↔ x = bit c := by
  constructor
  · intro h
    simpa using List.find?_some h
  · rintro rfl
    cases hf : (List.finRange n).find? fun d => bit c = bit d with
    | none =>
      have hnone := List.find?_eq_none.mp hf c (List.mem_finRange c)
      simp at hnone
    | some d =>
      have hd : bit c = bit d := by simpa using List.find?_some hf
      rw [bit_inj hn hd]

omit [DecidableEq ι] in
theorem find_allOnes :
    (List.finRange n).find? (fun c => BitVec.allOnes 32 = bit c) = none := by
  rw [List.find?_eq_none]
  intro c _
  simpa using (bit_ne_allOnes c).symm

theorem Core.owner_eq_some {s : Core n ι} (hs : OwnInv B s) :
    (s.dispatch B).owner p = some c ↔ ¬ B.Idle p ∧ s.Held c p := by
  unfold Core.dispatch
  dsimp only
  split
  · rename_i hi
    exact iff_of_false nofun fun h => h.1 hi
  · rename_i hi
    rw [find_bit B.cpus_le]
    constructor
    · intro hr
      refine ⟨hi, ?_⟩
      rcases hs.owned hi with h | ⟨d, hd⟩
      · rw [h] at hr
        exact absurd hr.symm (bit_ne_allOnes c)
      · rwa [bit_inj B.cpus_le (hr.symm.trans (hs.held hd hi))]
    · exact fun h => hs.held h.2 hi

theorem Core.owner_eq_none {s : Core n ι} (hs : OwnInv B s)
    (h : ∀ c, ¬ s.Held c p) : (s.dispatch B).owner p = none := by
  cases hw : (s.dispatch B).owner p with
  | none => rfl
  | some c => exact absurd ((owner_eq_some hs).mp hw).2 (h c)

/-- Steps that keep the run queue up to its order, and `cpus_runnable`. -/
theorem Core.dispatch_eq {s s' : Core n ι} (hm : ∀ p, p ∈ s'.runqueue ↔ p ∈ s.runqueue)
    (hr : ∀ p, ¬ B.Idle p → s'.runnable p = s.runnable p) : s'.dispatch B = s.dispatch B := by
  apply Dispatch.ext
  · ext p
    exact hm p
  · funext p
    unfold Core.dispatch
    dsimp only
    split
    · rfl
    · rename_i hi
      rw [hr p hi]

theorem Core.dispatch_update {s s' : Core n ι} (hm : s'.runqueue = s.runqueue)
    (hr : s'.runnable = Function.update s.runnable p x) (hi : ¬ B.Idle p) :
    s'.dispatch B =
      { s.dispatch B with
        owner := Function.update (s.dispatch B).owner p
          ((List.finRange n).find? fun c => x = bit c) } := by
  apply Dispatch.ext
  · ext q
    show q ∈ s'.runqueue ↔ q ∈ s.runqueue
    rw [hm]
  · funext q
    unfold Core.dispatch
    dsimp only
    rw [hr]
    by_cases hq : q = p
    · subst hq
      simp [hi]
    · simp [hq]

/-- Only `schedule` taking its own task off, taking another one on, letting go of one, and a
wake-up are seen from above. -/
theorem Core.Step.dispatch {s s' : Core n ι} (hs : Inv B s) (h : Core.Step B s s') :
    s'.dispatch B = s.dispatch B ∨ Dispatch.Step (s.dispatch B) (s'.dispatch B) := by
  cases h with
  | stay => exact .inl rfl
  | relock | examine | exhaust | switch | rouse | doze | seize | write =>
    exact .inl (dispatch_eq (fun _ => .rfl) fun _ _ => rfl)
  | move p rq hk hr =>
    exact .inl (dispatch_eq (fun _ => (hr.perm hs.queue).mem_iff) fun _ _ => rfl)
  | enter c rq hc hk hr =>
    exact .inl (dispatch_eq (fun _ => (hr.perm hs.queue).mem_iff) fun _ _ => rfl)
  | sleep c rq hc hk hi hst hq hr =>
    right
    have howner := (owner_eq_some hs.own).mpr ⟨hi, (.inl rfl : s.Held c (s.current c))⟩
    refine (Dispatch.Step.sleep (s.current c) c howner).of_eq ?_
    have hperm := hr.perm hs.queue
    apply Dispatch.ext
    · ext p
      have hnodup := hperm.nodup_iff.mpr hs.queue.nodup
      have hmem : p ∈ rq.erase (s.current c) ↔ p ∈ s.runqueue ∧ p ≠ s.current c := by
        rw [hnodup.mem_erase_iff, hperm.mem_iff, and_comm]
      exact hmem.symm
    · rfl
  | choose c next hc =>
    have hhome := hs.own.home c
    rcases hs.own.candidate hc with rfl | ⟨hi, hb⟩
    · left
      refine dispatch_eq (fun _ => .rfl) fun p hp => Function.update_of_ne ?_ ..
      rintro rfl
      exact hp ⟨c, rfl⟩
    · by_cases hheld : ∃ d, s.Held d next
      · -- the task stays on its CPU
        left
        obtain ⟨d, hd⟩ := hheld
        have hr := hs.own.held hd hi
        rw [hs.own.of_runnable hi hb hd] at hr
        refine dispatch_eq (fun _ => .rfl) fun p _ => ?_
        dsimp only
        rw [hhome, ← hr, Function.update_eq_self]
      · right
        have hfree := owner_eq_none hs.own fun d hd => hheld ⟨d, hd⟩
        have hready : next ∈ (s.dispatch B).ready :=
          (hs.place.rest hc).2.resolve_left fun h => hi ⟨c, h.symm⟩
        refine (Dispatch.Step.take next c hready hfree).of_eq ?_
        symm
        refine (dispatch_update (s := s) (x := bit c) ?_ ?_ hi).trans ?_
        · rfl
        · dsimp only
          rw [hhome]
        · rw [(find_bit B.cpus_le _ c).mpr rfl]
  | release c prev hc =>
    by_cases hi : B.Idle prev
    · left
      refine dispatch_eq (fun _ => .rfl) fun p hp => Function.update_of_ne ?_ ..
      rintro rfl
      exact hp hi
    · right
      have hheld : s.Held c prev := .inr (.inr (by rw [hc]; rfl))
      have howner := (owner_eq_some hs.own).mpr ⟨hi, hheld⟩
      refine (Dispatch.Step.release prev c howner).of_eq ?_
      symm
      refine (dispatch_update (s := s) (x := BitVec.allOnes 32) ?_ ?_ hi).trans ?_
      · rfl
      · rfl
      · rw [find_allOnes]
  | wake p hk hi hq =>
    right
    refine (Dispatch.Step.wake p).of_eq ?_
    apply Dispatch.ext
    · ext q
      show q = p ∨ q ∈ s.runqueue ↔ q ∈ s.runqueue ++ [p]
      rw [List.mem_append, List.mem_singleton, or_comm]
    · rfl

end

abbrev cpu0 : Fin 2 := ⟨0, Nat.zero_lt_two⟩

abbrev cpu1 : Fin 2 := ⟨1, Nat.one_lt_two⟩

abbrev process : Fin 4 := 2

abbrev kthread : Fin 4 := 3

/-- Two CPUs with their idle tasks 0 and 1, a process that waits to run and a sleeping kernel
thread. -/
def pair : Board 2 (Fin 4) where
  idleTask c := Fin.castLE (by decide) c
  idle_inj c d h := by
    have hval := congrArg Fin.val h
    exact Fin.ext hval
  cpus_le := by decide
  tasks := [2, 3]
  findTaskByPid pid := if pid = 12 then some 2 else if pid = 13 then some 3 else none
  find_busy {pid c} := by
    split
    · revert c
      decide
    · split
      · revert c
        decide
      · exact nofun
  hz := 100
  penalty := 15
  sibling := none

def pairTask (p : Fin 4) : Task 2 where
  state := if p = 3 then .uninterruptible else .running
  sigpending := false
  needResched := 0
  counter := if p < 2 then -100 else 6
  nice := if p < 2 then 20 else 0
  policy := schedOther
  rtPriority := 0
  mm := if p = 2 then some 1 else none
  activeMm := if p = 2 then some 1 else if p = 3 then none else some 0
  processor := if p = 1 then cpu1 else cpu0
  cpusRunnable := BitVec.allOnes 32
  cpusAllowed := BitVec.allOnes 32
  queued := p = 2
  uid := 0
  euid := 0
  capSysNice := true

def pairBoot : Kernel 2 (Fin 4) where
  task := pairTask
  runqueue := [2]
  nrRunning := 1
  lock := none
  curr := pair.idleTask
  lastSchedule _ := 0
  current := pair.idleTask
  pc _ := .code
  mmCount _ := 2
  ipi _ := false

theorem pairBoot_booted : pair.Booted pairBoot where
  lock := rfl
  code _ := rfl
  current _ := rfl
  curr _ := rfl
  processor := by decide
  idle := by decide
  nodup := by decide
  busy := by decide
  queued := by decide
  running := by decide
  counted := rfl
  released := by decide
  mm := by
    intro p m h
    by_cases hp : p = 2
    · simpa [pairBoot, pairTask, hp] using h
    · simp [pairBoot, pairTask, hp] at h
  lazy := by decide

/-- CPU 0 schedules until it runs the process. -/
def pairRun : Kernel 2 (Fin 4) :=
  (pair.run pairBoot (.schedule cpu0 :: List.replicate 9 (.advance cpu0 0))).get (by decide +kernel)

theorem pairRun_reachable : pair.system.Reachable pairRun :=
  .run (.start pairBoot_booted) (Board.run_steps (Option.some_get _).symm)

/-- The process sleeps, CPU 1 wakes it and is about to switch to it. -/
def pairMove : List (Act 2 (Fin 4)) :=
  .setState cpu0 .uninterruptible :: .schedule cpu0 :: List.replicate 8 (.advance cpu0 0) ++
    .wake cpu1 2 false :: .schedule cpu1 :: List.replicate 3 (.advance cpu1 0)

def pairMoved : Kernel 2 (Fin 4) := (pair.run pairRun pairMove).get (by decide +kernel)

theorem pairMoved_run : pair.run pairRun pairMove = some pairMoved :=
  (Option.some_get _).symm

section
variable [DecidableEq ι] {B : Board n ι} {k k' : Kernel n ι}

theorem owner_iff (h : B.system.Reachable k) (p : ι) (c : Fin n) :
    (k.core.dispatch B).owner p = some c ↔ ¬ B.Idle p ∧ k.core.Held c p :=
  owner_eq_some (reachable_inv h).1.own

theorem system_refines :
    B.system.Refines (Dispatch.system (Fin n) ι) fun k => k.core.dispatch B where
  init := by
    intro k hb p
    unfold Core.dispatch
    dsimp only
    split
    · rfl
    · rename_i hi
      rw [show k.core.runnable p = _ from hb.released p hi, find_allOnes]
  step := by
    rintro k k' h ⟨a, ha⟩
    obtain ⟨hinv, hidle⟩ := reachable_inv h
    exact (perform_next hidle ha).step.dispatch hinv

/-- The scheduler refines a dispatcher that gives a task to one worker at a time, and what the
dispatcher calls its worker is the CPU that runs the task, is about to, or has just stopped. -/
theorem refines_dispatch (B : Board n ι) :
    B.system.Refines (Dispatch.system (Fin n) ι) (fun k => k.core.dispatch B) ∧
      ∀ k, B.system.Reachable k → ∀ p c,
        (k.core.dispatch B).owner p = some c ↔ ¬ B.Idle p ∧ k.core.Held c p :=
  ⟨system_refines, fun _ => owner_iff⟩

theorem hasCpu_iff (h : B.system.Reachable k) (hi : ¬ B.Idle p) :
    (k.task p).hasCpu = true ↔ ∃ c, k.core.Held c p := by
  rw [← (reachable_inv h).1.own.hasCpu hi]
  exact decide_eq_true_iff

/-- No task is on two CPUs, `task_has_cpu` tells which are on one, and every CPU knows itself. -/
theorem one_cpu (h : B.system.Reachable k) :
    (∀ p c d, k.core.Held c p → k.core.Held d p → c = d) ∧
      (∀ p, ¬ B.Idle p → ((k.task p).hasCpu = true ↔ ∃ c, k.core.Held c p)) ∧
      ∀ c, k.thisCpu c = c ∧ k.core.Held c (k.curr c) := by
  have hown := (reachable_inv h).1.own
  refine ⟨fun p c d => hown.exclusive, fun p hi => hasCpu_iff h hi, fun c => ⟨hown.home c, ?_⟩⟩
  have hcurr : k.curr c = (k.core.loc c).next?.getD (k.current c) := hown.curr c
  rw [hcurr]
  cases hn : (k.core.loc c).next? with
  | none => exact .inl rfl
  | some next => exact .inr (.inl hn)

theorem one_cpu_pair : pairRun.current 0 = 2 ∧ (pairRun.task 2).hasCpu = true ∧
    ¬ pairRun.core.Held 1 2 :=
  ⟨by decide +kernel, ((one_cpu pairRun_reachable).2.1 2 (by decide)).mpr
    ⟨0, .inl (by decide +kernel)⟩, fun h => absurd
      ((one_cpu pairRun_reachable).1 2 0 1 (.inl (by decide +kernel)) h) (by decide)⟩

/-- On its way to another CPU a task is on none at some moment. -/
theorem migrates_free (h : B.system.Reachable k) (hr : B.run k as = some k') (hi : ¬ B.Idle p)
    (hc : k.core.Held c p) (hd : k'.core.Held d p) (hne : c ≠ d) :
    System.Passes B.act k as fun u => (u.task p).hasCpu = false := by
  have how := (owner_iff h p c).mpr ⟨hi, hc⟩
  have hlost : ¬ (k'.core.dispatch B).owner p = some c := by
    rw [(owner_iff (h.run (Board.run_steps hr)) p d).mpr ⟨hi, hd⟩]
    exact fun he => hne (Option.some.inj he).symm
  obtain ⟨u, a, v, hg, hou, hov⟩ := System.play_loss
    (P := fun k : Kernel n ι => (k.core.dispatch B).owner p = some c) hr how hlost
  obtain ⟨hu, ha⟩ := Board.goes h hg
  have hst : B.system.step u v := ⟨a, ha⟩
  have hfree := (system_refines.loses (P := fun d : Dispatch (Fin n) ι => d.owner p = some c)
    hu hst hou hov).owner_lost hou hov
  have hrv := hu.next hst
  apply hg.passes
  rw [Bool.eq_false_iff, Ne, hasCpu_iff hrv hi]
  rintro ⟨e, he⟩
  rw [(owner_iff hrv p e).mpr ⟨hi, he⟩] at hfree
  cases hfree

theorem migrates_free_pair : System.Passes pair.act pairRun pairMove fun u =>
    (u.task 2).hasCpu = false :=
  migrates_free pairRun_reachable pairMoved_run (c := 0) (d := 1) (by decide)
    (.inl (by decide +kernel)) (.inr (.inl rfl)) (by decide)

/-- The run queue has every runnable task once, nothing else but tasks that have not come to
`schedule` yet, and is as long as `nr_running` says. -/
theorem runqueue_exact (h : B.system.Reachable k) :
    k.runqueue.Nodup ∧ k.nrRunning = k.runqueue.length ∧
      ∀ p, (p ∈ k.runqueue ↔ ¬ B.Idle p ∧ (k.task p).queued = true) ∧
        (¬ B.Idle p → (k.task p).state = .running → p ∈ k.runqueue) ∧
        (p ∈ k.runqueue → (k.task p).state = .running ∨
          ∃ c, k.current c = p ∧ (k.pc c).loc.drowsy = true) := by
  have hinv := (reachable_inv h).1
  refine ⟨hinv.queue.nodup, hinv.queue.counted, fun p => ⟨?_, fun hi => hinv.state.awake hi, ?_⟩⟩
  · constructor
    · intro hp
      have hi := hinv.queue.busy hp
      exact ⟨hi, (hinv.queue.queued hi).mpr hp⟩
    · exact fun ⟨hi, hq⟩ => (hinv.queue.queued hi).mp hq
  · intro hp
    by_cases hr : (k.task p).state = .running
    · exact .inl hr
    · exact .inr (hinv.state.asleep hp hr)

theorem runqueue_exact_pair : pairMoved.runqueue = [2] ∧ pairMoved.nrRunning = 1 ∧
    (pairMoved.task 2).queued = true := by
  have hrq : pairMoved.runqueue = [2] := by decide +kernel
  obtain ⟨_, hnr, hp⟩ := runqueue_exact (pairRun_reachable.run (Board.run_steps pairMoved_run))
  rw [hrq] at hnr hp
  exact ⟨hrq, hnr, ((hp 2).1.mp (List.mem_singleton_self 2)).2⟩

/-- The runnable tasks stay so. -/
def Kernel.Rouses (k k' : Kernel n ι) : Prop :=
  ∀ p, (k.task p).state = .running → (k'.task p).state = .running

omit [DecidableEq ι] in
theorem Kernel.Rouses.trans {k₁ : Kernel n ι} (h : k.Rouses k₁) (h' : k₁.Rouses k') :
    k.Rouses k' :=
  fun p hp => h' p (h p hp)

theorem rouses_update {t : Task n} (ht : k'.task = Function.update k.task p t)
    (h : (k.task p).state = .running → t.state = .running) : k.Rouses k' := by
  intro q hq
  rw [ht]
  rcases eq_or_ne q p with rfl | hne
  · rw [Function.update_self]
    exact h hq
  · rwa [Function.update_of_ne hne]

omit [DecidableEq ι] in
theorem Core.rouses {k k' : Kernel n ι} (h : k'.core.state = k.core.state) : k.Rouses k' :=
  fun p hp => (congrFun h p).trans hp

theorem leave_rouses (h : k.leave prev = .ok k') : k.Rouses k' := by
  rcases leave_spec h with hcore | ⟨_, _, hcore⟩
  · intro p hp
    have hst : k'.core.state = Function.update k.core.state prev .running := by rw [hcore]
    rcases eq_or_ne p prev with rfl | hne
    · exact (congrFun hst p).trans (Function.update_self ..)
    · exact (congrFun hst p).trans ((Function.update_of_ne hne ..).trans hp)
  · exact Core.rouses (by rw [hcore])

theorem needReschedBack_rouses (hs : IdleInv B k) (h : B.needReschedBack k c = .ok k') :
    k.Rouses k' := by
  unfold Board.needReschedBack at h
  split at h
  · cases h
  · obtain ⟨k₁, h₁, h⟩ := bind_ok h
    obtain ⟨k₂, h₂, rfl⟩ := map_ok h
    obtain ⟨_, rq, _, hcore⟩ := moveExhausted_spec hs h₁
    have hmove : k.Rouses k₁ := Core.rouses (by rw [hcore])
    have hclear : k₂.Rouses (B.repeatSchedule
        (k₂.modify (k.current c) fun t => { t with needResched := 0 }) c) :=
      rouses_update rfl fun hst => hst
    exact (hmove.trans (leave_rouses h₂)).trans hclear

theorem switchTo_rouses (h : k.switchTo c cycles next = .ok k') : k.Rouses k' := by
  unfold Kernel.switchTo at h
  dsimp only at h
  split at h
  · cases h
  · rename_i oldmm _
    obtain ⟨k₁, h₁, rfl⟩ := map_ok h
    have hborrow : k.Rouses k₁ := Core.rouses (by rw [borrowMm_spec h₁]; rfl)
    have hreturn : k₁.Rouses (k₁.returnMm oldmm (k.current c)) :=
      Core.rouses (by rw [returnMm_core]; rfl)
    exact hborrow.trans hreturn

theorem advance_rouses (hs : IdleInv B k) (h : B.advance k c cycles = .ok k') : k.Rouses k' := by
  cases hc : k.pc c with
  | code =>
    simp only [Board.advance, hc] at h
    cases h
  | pending rest nr =>
    cases rest with
    | cons cpu cpus =>
      simp only [Board.advance, hc] at h
      cases h
      exact fun _ => id
    | nil =>
      simp only [Board.advance, hc] at h
      split at h
      · cases h
        exact fun _ => id
      · cases h
        exact rouses_update rfl id
  | yielding =>
    simp only [Board.advance, hc] at h
    split at h
    · cases h
    · obtain ⟨k₁, h₁, rfl⟩ := map_ok h
      unfold Kernel.moveLastRunqueue at h₁
      split at h₁
      · cases h₁
        exact fun _ => id
      · cases h₁
  | needReschedBack =>
    simp only [Board.advance, hc] at h
    exact needReschedBack_rouses hs h
  | scan rest w next =>
    cases rest with
    | cons p rest =>
      simp only [Board.advance, hc, Board.examine] at h
      split at h
      · cases h
        exact fun _ => id
      · cases h
        exact fun _ => id
    | nil =>
      simp only [Board.advance, hc, Board.choose] at h
      split at h
      · cases h
        exact fun _ => id
      · cases h
        exact rouses_update rfl id
  | recalculate rest =>
    cases rest with
    | cons p rest =>
      simp only [Board.advance, hc] at h
      cases h
      exact rouses_update rfl id
    | nil =>
      simp only [Board.advance, hc] at h
      cases h
      exact fun _ => id
  | relock =>
    simp only [Board.advance, hc] at h
    split at h
    · cases h
    · cases h
      exact fun _ => id
  | same | tail =>
    simp only [Board.advance, hc] at h
    cases h
    exact fun _ => id
  | sameClear policy =>
    simp only [Board.advance, hc] at h
    cases h
    exact rouses_update rfl id
  | switchTo next =>
    simp only [Board.advance, hc] at h
    exact switchTo_rouses h
  | tailClear prev policy =>
    simp only [Board.advance, hc] at h
    cases h
    exact rouses_update rfl id
  | release prev policy =>
    simp only [Board.advance, hc] at h
    cases h
    exact rouses_update rfl id
  | check prev policy =>
    simp only [Board.advance, hc] at h
    split at h
    · cases h
      exact fun _ => id
    · cases h
      exact fun _ => id
  | push prev =>
    simp only [Board.advance, hc, Board.push] at h
    split at h
    · cases h
    · cases h
      split
      · exact Core.rouses (by rw [rescheduleIdle_core]; rfl)
      · exact fun _ => id
  | sameProcess =>
    simp only [Board.advance, hc] at h
    cases h
    exact fun _ => id
  | setting p policy priority =>
    simp only [Board.advance, hc] at h
    cases h
    have hset : k.Rouses (k.modify p fun t =>
      { t with policy := policy, rtPriority := priority }) := rouses_update rfl fun hst => hst
    exact hset.trans (rouses_update rfl fun hst => hst)

theorem addToRunqueue_rouses (h : k.addToRunqueue p = .ok k') : k.Rouses k' := by
  unfold Kernel.addToRunqueue at h
  split at h
  · cases h
  · cases h
    exact rouses_update rfl id

theorem tryToWakeUp_rouses (h : B.tryToWakeUp k c p synchronous = .ok (k', success)) :
    k.Rouses k' := by
  have hrun : k.Rouses (k.modify p fun t => { t with state := .running }) :=
    rouses_update rfl fun _ => rfl
  unfold Board.tryToWakeUp at h
  split at h
  · cases h
  · dsimp only at h
    split at h
    · cases h
      exact hrun
    · obtain ⟨k₁, h₁, hpair⟩ := map_ok h
      have hadd := hrun.trans (addToRunqueue_rouses h₁)
      split at hpair
      · cases hpair
        exact hadd.trans (Core.rouses (by rw [rescheduleIdle_core]))
      · cases hpair
        exact hadd

theorem setCpusAllowed_rouses (h : k.setCpusAllowed c p mask = .ok k') : k.Rouses k' := by
  have hset : k.Rouses (k.modify p fun t => { t with cpusAllowed := mask &&& onlineMap n }) :=
    rouses_update rfl id
  unfold Kernel.setCpusAllowed at h
  dsimp only at h
  split at h
  · cases h
  · split at h
    · cases h
      exact hset.trans (rouses_update rfl id)
    · cases h
      exact hset

/-- Only the task itself stops being runnable, by setting its state. -/
theorem state_lost (hs : IdleInv B k) (h : B.perform k a = .ok k')
    (hr : (k.task p).state = .running) (hr' : (k'.task p).state ≠ .running) :
    ∃ c st, a = .setState c st ∧ k.current c = p ∧ k.pc c = .code ∧ st ≠ .running := by
  have hlost : ¬ k.Rouses k' := fun hrouses => hr' (hrouses p hr)
  cases a with
  | setState c st =>
    simp only [Board.perform] at h
    split at h
    · rename_i hb
      cases h
      rw [k.task_modify] at hr'
      split at hr'
      · rename_i he
        exact ⟨c, st, rfl, he.symm, hb.code, hr'⟩
      · exact absurd hr hr'
    · cases h
  | advance c cycles => exact absurd (advance_rouses hs h) hlost
  | schedule c =>
    simp only [Board.perform] at h
    split at h
    · split at h
      · cases h
      · cases h
        exact (hlost fun _ => id).elim
    · cases h
  | yield c =>
    simp only [Board.perform] at h
    split at h
    · cases h
      exact (hlost fun _ => id).elim
    · cases h
  | nice c increment =>
    simp only [Board.perform] at h
    split at h
    · split at h
      · cases h
        exact (hlost fun _ => id).elim
      · cases h
        exact (hlost (rouses_update rfl id)).elim
    · cases h
  | setscheduler c pid policy param =>
    simp only [Board.perform] at h
    split at h
    · split at h
      · cases h
        exact (hlost fun _ => id).elim
      · cases h
        exact (hlost fun _ => id).elim
    · cases h
  | reparent c =>
    simp only [Board.perform] at h
    split at h
    · cases h
      exact (hlost (rouses_update rfl id)).elim
    · cases h
  | allow c q newMask =>
    simp only [Board.perform] at h
    split at h
    · exact absurd (setCpusAllowed_rouses h) hlost
    · cases h
  | wake c q synchronous =>
    simp only [Board.perform] at h
    split at h
    · cases h
    · obtain ⟨⟨k₁, success⟩, h₁, rfl⟩ := map_ok h
      exact absurd (tryToWakeUp_rouses h₁) hlost
  | tick c =>
    simp only [Board.perform] at h
    split at h
    · cases h
    · cases h
      refine (hlost (rouses_update rfl ?_)).elim
      intro hst
      dsimp only
      split
      · exact hst
      · exact hst
  | signal q sigpending =>
    simp only [Board.perform] at h
    cases h
    exact (hlost (rouses_update rfl id)).elim
  | handle c =>
    simp only [Board.perform] at h
    cases h
    exact (hlost fun _ => id).elim

/-- A runnable task stays on the run queue until it has itself, from its own code, set another
state: no wake-up is lost, whatever the other CPUs do. -/
theorem stays_awake (h : B.system.Reachable k) (hr : B.run k as = some k') (hi : ¬ B.Idle p)
    (hst : (k.task p).state = .running) (hq : p ∉ k'.runqueue) :
    ∃ u c st v, System.Goes B.act k as u (.setState c st) v ∧ u.current c = p ∧
      u.pc c = .code ∧ (u.task p).state = .running ∧ st ≠ .running := by
  have hst' : ¬ (k'.task p).state = .running := by
    intro hs
    exact hq ((reachable_inv (h.run (Board.run_steps hr))).1.state.awake hi hs)
  obtain ⟨u, a, v, hg, hpu, hpv⟩ :=
    System.play_loss (P := fun k : Kernel n ι => (k.task p).state = .running) hr hst hst'
  obtain ⟨hu, ha⟩ := Board.goes h hg
  obtain ⟨c, st, rfl, hc, hcode, hne⟩ := state_lost (reachable_inv hu).2 ha hpu hpv
  exact ⟨u, c, st, v, hg, hc, hcode, hpu, hne⟩

/-- The process of `pairRun` leaves the run queue, after its thread has been woken. -/
def pairSleep : List (Act 2 (Fin 4)) :=
  [.wake cpu1 3 false, .setState cpu0 .uninterruptible, .schedule cpu0, .advance cpu0 0]

theorem stays_awake_pair : ∃ u c st v,
    System.Goes pair.act pairRun pairSleep u (.setState c st) v ∧ u.current c = 2 ∧
      st ≠ .running := by
  have hr : pair.run pairRun pairSleep =
      some ((pair.run pairRun pairSleep).get (by decide +kernel)) := (Option.some_get _).symm
  obtain ⟨u, c, st, v, hg, hc, _, _, hst⟩ := stays_awake (p := 2) pairRun_reachable hr
    (by decide) (by decide +kernel) (by decide +kernel)
  exact ⟨u, c, st, v, hg, hc, hst⟩

end

end NoblesseOblige.Scheduler
