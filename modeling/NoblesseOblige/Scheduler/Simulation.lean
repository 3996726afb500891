import NoblesseOblige.Scheduler.Invariant

namespace NoblesseOblige.Scheduler
set_option autoImplicit true

/-- The statements of `schedule` by what the CPU has and has not let go of. -/
def Pc.loc : Pc n ι → Loc ι
  | .scan rest _ next => .scanning rest next
  | .recalculate _ | .relock => .between
  | .switchTo next => .switching next
  | .tail prev | .tailClear prev _ | .release prev _ => .leaving prev
  | .setting .. => .writing
  | _ => .settled

def Kernel.core (k : Kernel n ι) : Core n ι where
  state p := (k.task p).state
  queued p := (k.task p).queued
  runnable p := (k.task p).cpusRunnable
  processor p := (k.task p).processor
  mm p := (k.task p).mm
  activeMm p := (k.task p).activeMm
  runqueue := k.runqueue
  nrRunning := k.nrRunning
  lock := k.lock
  curr := k.curr
  current := k.current
  loc c := (k.pc c).loc
  mmCount := k.mmCount

/-- The fields that decide who runs where are the same. -/
structure Task.Soft (t t' : Task n) : Prop where
  state : t'.state = t.state
  queued : t'.queued = t.queued
  processor : t'.processor = t.processor
  runnable : t'.cpusRunnable = t.cpusRunnable
  mm : t'.mm = t.mm
  activeMm : t'.activeMm = t.activeMm

/-- What a CPU is about to write spares the policy of the idle tasks. -/
def Pc.Spares [DecidableEq ι] (B : Board n ι) (current : ι) : Pc n ι → Prop
  | .pending .. | .yielding => ¬ B.Idle current
  | .sameClear policy => B.Idle current → policy = schedOther
  | .tailClear prev policy => B.Idle prev → policy = schedOther
  | .setting p _ _ => ¬ B.Idle p
  | _ => True

section
variable [DecidableEq ι] {B : Board n ι} {k k' : Kernel n ι}

/-- The idle tasks stay runnable and ordinary. -/
structure IdleInv (B : Board n ι) (k : Kernel n ι) : Prop where
  state : ∀ {p}, B.Idle p → (k.task p).state = .running
  policy : ∀ {p}, B.Idle p → (k.task p).policy = schedOther
  spares : ∀ c, (k.pc c).Spares B (k.current c)

/-- A step as the level above sees it, and what it may not do to the idle tasks. -/
structure Next (B : Board n ι) (k k' : Kernel n ι) : Prop where
  step : Core.Step B k.core k'.core
  idle : IdleInv B k'

theorem Kernel.task_modify (k : Kernel n ι) (p q : ι) (f : Task n → Task n) :
    (k.modify p f).task q = if q = p then f (k.task p) else k.task q := by
  unfold Kernel.modify
  by_cases h : q = p
  · subst h
    simp
  · simp [h]

theorem Kernel.core_modify (k : Kernel n ι) (p : ι) (f : Task n → Task n) :
    (k.modify p f).core =
      { k.core with
        state := Function.update k.core.state p (f (k.task p)).state
        queued := Function.update k.core.queued p (f (k.task p)).queued
        runnable := Function.update k.core.runnable p (f (k.task p)).cpusRunnable
        processor := Function.update k.core.processor p (f (k.task p)).processor
        mm := Function.update k.core.mm p (f (k.task p)).mm
        activeMm := Function.update k.core.activeMm p (f (k.task p)).activeMm } := by
  have hfield {α : Type} (g : Task n → α) :
      (fun q => g ((k.modify p f).task q)) =
        Function.update (fun q => g (k.task q)) p (g (f (k.task p))) := by
    funext q
    rw [k.task_modify]
    by_cases h : q = p
    · subst h
      simp
    · simp [h]
  exact Core.ext (hfield Task.state) (hfield Task.queued) (hfield Task.cpusRunnable)
    (hfield Task.processor) (hfield Task.mm) (hfield Task.activeMm) rfl rfl rfl rfl rfl rfl rfl

theorem Kernel.core_soft (k : Kernel n ι) (p : ι) {f : Task n → Task n}
    (h : (k.task p).Soft (f (k.task p))) : (k.modify p f).core = k.core := by
  rw [k.core_modify, h.state, h.queued, h.runnable, h.processor, h.mm, h.activeMm]
  apply Core.ext <;> first | exact Function.update_eq_self p _ | rfl

theorem Kernel.core_state (k : Kernel n ι) (p : ι) (st : State) :
    (k.modify p fun t => { t with state := st }).core =
      { k.core with state := Function.update k.core.state p st } := by
  rw [k.core_modify]
  apply Core.ext <;> first | exact Function.update_eq_self p _ | rfl

theorem Kernel.core_queued (k : Kernel n ι) (p : ι) (b : Bool) :
    (k.modify p fun t => { t with queued := b }).core =
      { k.core with queued := Function.update k.core.queued p b } := by
  rw [k.core_modify]
  apply Core.ext <;> first | exact Function.update_eq_self p _ | rfl

theorem Kernel.core_setCpu (k : Kernel n ι) (p : ι) (cpu : Fin n) :
    (k.modify p fun t => t.setCpu cpu).core =
      { k.core with
        runnable := Function.update k.core.runnable p (bit cpu)
        processor := Function.update k.core.processor p cpu } := by
  rw [k.core_modify]
  apply Core.ext <;> first | exact Function.update_eq_self p _ | rfl

theorem Kernel.core_releaseCpu (k : Kernel n ι) (p : ι) :
    (k.modify p Task.releaseCpu).core =
      { k.core with runnable := Function.update k.core.runnable p (BitVec.allOnes 32) } := by
  rw [k.core_modify]
  apply Core.ext <;> first | exact Function.update_eq_self p _ | rfl

theorem Kernel.core_activeMm (k : Kernel n ι) (p : ι) (mm : Option Nat) :
    (k.modify p fun t => { t with activeMm := mm }).core =
      { k.core with activeMm := Function.update k.core.activeMm p mm } := by
  rw [k.core_modify]
  apply Core.ext <;> first | exact Function.update_eq_self p _ | rfl

omit [DecidableEq ι] in
theorem Kernel.core_goto (k : Kernel n ι) (c : Fin n) (l : Pc n ι) :
    (k.goto c l).core = { k.core with loc := Function.update k.core.loc c l.loc } := by
  have hloc : (fun d => (Function.update k.pc c l d).loc) =
      Function.update (fun d => (k.pc d).loc) c l.loc := by
    funext d
    by_cases h : d = c
    · subst h
      simp
    · simp [h]
  exact Core.ext rfl rfl rfl rfl rfl rfl rfl rfl rfl rfl rfl hloc rfl

omit [DecidableEq ι] in
theorem Kernel.core_goto_self (k : Kernel n ι) {c : Fin n} {l : Pc n ι}
    (h : l.loc = (k.pc c).loc) : (k.goto c l).core = k.core := by
  rw [k.core_goto, h]
  exact congrArg (fun loc => { k.core with loc := loc }) (Function.update_eq_self c k.core.loc)

theorem IdleInv.modify (hs : IdleInv B k) (p : ι) {f : Task n → Task n}
    (h : B.Idle p → (f (k.task p)).state = .running ∧ (f (k.task p)).policy = schedOther) :
    IdleInv B (k.modify p f) where
  state {q} hq := by
    rw [k.task_modify]
    split
    · rename_i he
      exact (h (he ▸ hq)).1
    · exact hs.state hq
  policy {q} hq := by
    rw [k.task_modify]
    split
    · rename_i he
      exact (h (he ▸ hq)).2
    · exact hs.policy hq
  spares := hs.spares

theorem IdleInv.goto (hs : IdleInv B k) (c : Fin n) {l : Pc n ι} (h : l.Spares B (k.current c)) :
    IdleInv B (k.goto c l) where
  state := hs.state
  policy := hs.policy
  spares d := by
    by_cases hd : d = c
    · subst hd
      simpa [Kernel.goto] using h
    · simpa [Kernel.goto, hd] using hs.spares d

/-- A change of other fields of the task. -/
theorem IdleInv.keep (hs : IdleInv B k) (p : ι) {f : Task n → Task n}
    (hst : (f (k.task p)).state = (k.task p).state)
    (hpol : (f (k.task p)).policy = (k.task p).policy) : IdleInv B (k.modify p f) :=
  hs.modify p fun hp => ⟨hst.trans (hs.state hp), hpol.trans (hs.policy hp)⟩

theorem Kernel.sendNow_core (k : Kernel n ι) : (k.sendNow c cpu tsk poll).core = k.core :=
  k.core_soft tsk (f := fun t => { t with needResched := 1 }) ⟨rfl, rfl, rfl, rfl, rfl, rfl⟩

theorem IdleInv.sendNow (hs : IdleInv B k) : IdleInv B (k.sendNow c cpu tsk poll) := by
  have hkeep := hs.keep tsk (f := fun t => { t with needResched := 1 }) rfl rfl
  exact ⟨hkeep.state, hkeep.policy, hkeep.spares⟩

theorem rescheduleIdle_spec (B : Board n ι) (k : Kernel n ι) (c : Fin n) (p : ι) :
    B.rescheduleIdle k c p = k ∨
      ∃ cpu tsk poll, B.rescheduleIdle k c p = k.sendNow c cpu tsk poll := by
  unfold Board.rescheduleIdle
  dsimp only
  split
  · exact .inr ⟨_, _, _, rfl⟩
  · split
    · exact .inl rfl
    · exact .inr ⟨_, _, _, rfl⟩

theorem rescheduleIdle_core (B : Board n ι) (k : Kernel n ι) (c : Fin n) (p : ι) :
    (B.rescheduleIdle k c p).core = k.core := by
  rcases rescheduleIdle_spec B k c p with h | ⟨cpu, tsk, poll, h⟩
  · rw [h]
  · rw [h, Kernel.sendNow_core]

theorem IdleInv.rescheduleIdle (hs : IdleInv B k) (c : Fin n) (p : ι) :
    IdleInv B (B.rescheduleIdle k c p) := by
  rcases rescheduleIdle_spec B k c p with h | ⟨cpu, tsk, poll, h⟩
  · rwa [h]
  · rw [h]
    exact hs.sendNow

theorem delFromRunqueue_spec (h : k.delFromRunqueue p = .ok k') :
    (k.task p).queued = true ∧ k' = { k.modify p fun t => { t with queued := false } with
      runqueue := k.runqueue.erase p
      nrRunning := k.nrRunning - 1 } := by
  unfold Kernel.delFromRunqueue at h
  split at h
  · cases h
    exact ⟨‹_›, rfl⟩
  · cases h

theorem moveExhausted_spec (hs : IdleInv B k) (h : B.moveExhausted k prev = .ok k') :
    IdleInv B k' ∧ ∃ rq, Core.Moved B k.core prev rq ∧
      k'.core = { k.core with runqueue := rq } := by
  unfold Board.moveExhausted at h
  split at h
  · rename_i hrr
    have hi : ¬ B.Idle prev := by
      intro hi
      rw [hs.policy hi] at hrr
      exact absurd hrr.1 (by decide)
    unfold Kernel.moveLastRunqueue at h
    split at h
    · rename_i hq
      cases h
      have hkeep := hs.keep prev (f := fun t => { t with counter := B.niceToTicks t.nice }) rfl rfl
      have hcore := k.core_soft prev (f := fun t => { t with counter := B.niceToTicks t.nice })
        ⟨rfl, rfl, rfl, rfl, rfl, rfl⟩
      rw [k.task_modify, if_pos rfl] at hq
      refine ⟨⟨hkeep.state, hkeep.policy, hkeep.spares⟩, _, .inr ⟨hi, hq, rfl⟩, ?_⟩
      exact congrArg (fun s => { s with runqueue := k.runqueue.erase prev ++ [prev] }) hcore
    · cases h
  · cases h
    exact ⟨hs, k.runqueue, .inl rfl, rfl⟩

/-- Either the task stays, now runnable, or it leaves the run queue. -/
theorem leave_spec (h : k.leave prev = .ok k') :
    k'.core = { k.core with state := Function.update k.core.state prev .running } ∨
      k.core.state prev ≠ .running ∧ k.core.queued prev = true ∧
        k'.core =
          { k.core with
            queued := Function.update k.core.queued prev false
            runqueue := k.runqueue.erase prev
            nrRunning := k.nrRunning - 1 } := by
  have hdel (hst : (k.task prev).state ≠ .running) (h : k.delFromRunqueue prev = .ok k') :
      k.core.state prev ≠ .running ∧ k.core.queued prev = true ∧
        k'.core =
          { k.core with
            queued := Function.update k.core.queued prev false
            runqueue := k.runqueue.erase prev
            nrRunning := k.nrRunning - 1 } := by
    obtain ⟨hq, rfl⟩ := delFromRunqueue_spec h
    refine ⟨hst, hq, ?_⟩
    exact congrArg (fun s =>
      { s with runqueue := k.runqueue.erase prev, nrRunning := k.nrRunning - 1 })
      (k.core_queued prev false)
  unfold Kernel.leave at h
  split at h
  · rename_i hst
    cases h
    refine .inl (Core.ext ?_ rfl rfl rfl rfl rfl rfl rfl rfl rfl rfl rfl rfl)
    rw [← hst]
    exact (Function.update_eq_self prev k.core.state).symm
  · rename_i hst
    split at h
    · cases h
      exact .inl (k.core_state prev .running)
    · exact .inr (hdel (by rw [hst]; decide) h)
  · rename_i hst _
    exact .inr (hdel hst h)

theorem IdleInv.leave (hs : IdleInv B k) (h : k.leave prev = .ok k') : IdleInv B k' := by
  have hdel (h : k.delFromRunqueue prev = .ok k') : IdleInv B k' := by
    obtain ⟨_, rfl⟩ := delFromRunqueue_spec h
    have hkeep := hs.keep prev (f := fun t => { t with queued := false }) rfl rfl
    exact ⟨hkeep.state, hkeep.policy, hkeep.spares⟩
  unfold Kernel.leave at h
  split at h
  · cases h
    exact hs
  · split at h
    · cases h
      exact hs.modify prev fun hp => ⟨rfl, hs.policy hp⟩
    · exact hdel h
  · exact hdel h

omit [DecidableEq ι] in
theorem repeatSchedule_core (B : Board n ι) (k : Kernel n ι) (c : Fin n) :
    (B.repeatSchedule k c).core =
      { k.core with
        lock := some c
        loc := Function.update k.core.loc c
          (.scanning k.core.runqueue (B.idleTask (k.core.processor (k.core.current c)))) } :=
  congrArg (fun s => { s with lock := some c }) (k.core_goto c _)

theorem IdleInv.repeatSchedule (hs : IdleInv B k) (c : Fin n) :
    IdleInv B (B.repeatSchedule k c) := by
  have hgoto := hs.goto c (l := .scan k.runqueue (-1000) (B.idleTask (k.thisCpu c))) trivial
  exact ⟨hgoto.state, hgoto.policy, hgoto.spares⟩

end

end NoblesseOblige.Scheduler
