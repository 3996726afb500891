import NoblesseOblige.Scheduler.Choice

namespace NoblesseOblige.Scheduler
open Scheduler.Core
set_option autoImplicit true

section
variable [DecidableEq ι] {B : Board n ι} {k k' : Kernel n ι}

/-- `cpus_runnable` and `cpus_allowed` of the task have a CPU in common, and no CPU that it may not
have has it as its choice so far. -/
structure Legal (k : Kernel n ι) (p : ι) : Prop where
  runnable : (k.task p).cpusRunnable &&& (k.task p).cpusAllowed ≠ 0
  choice : ∀ {c rest w}, k.pc c = .scan rest w p → (k.task p).cpusAllowed &&& bit c ≠ 0

omit [DecidableEq ι] in
theorem canSchedule_allowed {p : Task n} {cpu : Fin n} (h : p.canSchedule cpu = true) :
    p.cpusAllowed &&& bit cpu ≠ 0 := by
  intro hz
  rw [Task.canSchedule, BitVec.and_assoc, hz] at h
  simp at h

/-- A choice is the idle task until another one is examined. -/
theorem Core.Step.choice {s s' : Core n ι} (h : Core.Step B s s')
    (hc : s'.loc c = .scanning rest p) : (∃ rest', s.loc c = .scanning rest' p) ∨ B.Idle p ∨
      ∃ q, s.loc c = .scanning (p :: rest) q := by
  have hkeep {d : Fin n} {l : Loc ι} (hl : Function.update s.loc d l c = .scanning rest p)
      (hd : l = .scanning rest p → (∃ rest', s.loc d = .scanning rest' p) ∨ B.Idle p ∨
        ∃ q, s.loc d = .scanning (p :: rest) q) :
      (∃ rest', s.loc c = .scanning rest' p) ∨ B.Idle p ∨
        ∃ q, s.loc c = .scanning (p :: rest) q := by
    by_cases he : c = d
    · subst he
      rw [Function.update_self] at hl
      exact hd hl
    · rw [Function.update_of_ne he] at hl
      exact .inl ⟨rest, hl⟩
  cases h with
  | stay | move | rouse | wake | doze => exact .inl ⟨rest, hc⟩
  | enter d | sleep d | relock d =>
    apply hkeep hc
    intro hl
    cases hl
    exact .inr (.inl ⟨_, rfl⟩)
  | examine d q rest' next next' hd hn =>
    apply hkeep hc
    intro hl
    cases hl
    rcases hn with rfl | ⟨rfl, _⟩
    · exact .inl ⟨_, hd⟩
    · exact .inr (.inr ⟨_, hd⟩)
  | choose d next hd =>
    apply hkeep hc
    intro hl
    split at hl <;> cases hl
  | exhaust | switch | release | seize | write =>
    apply hkeep hc
    intro hl
    cases hl

omit [DecidableEq ι] in
theorem loc_scanning (h : k.core.loc c = .scanning rest next) :
    ∃ w, k.pc c = .scan rest w next := by
  have hl : (k.pc c).loc = .scanning rest next := h
  cases hc : k.pc c with
  | scan rest' w next' =>
    rw [hc] at hl
    cases hl
    exact ⟨w, rfl⟩
  | _ =>
    rw [hc] at hl
    cases hl

/-- A CPU that has a task as its choice after a step had it before, or has just examined it. -/
theorem choice_step (h : B.system.Reachable k) (hstep : B.system.step k k') (hi : ¬ B.Idle p)
    (hc : k'.pc c = .scan rest w p) :
    (∃ rest' w', k.pc c = .scan rest' w' p) ∨ (k.task p).canSchedule c = true := by
  obtain ⟨a, ha⟩ := hstep
  have hcore := (perform_next (reachable_inv h).2 ha).step
  have hloc : k'.core.loc c = .scanning rest p := congrArg Pc.loc hc
  rcases hcore.choice hloc with ⟨rest', hold⟩ | hidle | ⟨q, hfront⟩
  · obtain ⟨w', hold⟩ := loc_scanning hold
    exact .inl ⟨rest', w', hold⟩
  · exact absurd hidle hi
  · obtain ⟨w', hfront⟩ := loc_scanning hfront
    rcases scan_step ha hfront hc with ⟨hsame, _⟩ | ⟨_, q', _, hcons, hif⟩
    · exact absurd (congrArg List.length hsame) (by simp)
    · cases hcons
      rw [thisCpu_eq h] at hif
      split at hif
      · rename_i hcan
        exact .inr hcan.1
      · obtain ⟨_, rfl⟩ := hif
        exact .inl ⟨_, _, hfront⟩

/-- Only `schedule` gives a task to a CPU, and only the CPU it had lets go of it. -/
theorem Core.Step.runnable {s s' : Core n ι} (h : Core.Step B s s') :
    s'.runnable p = s.runnable p ∨ s'.runnable p = BitVec.allOnes 32 ∨
      ∃ c, s.loc c = .scanning [] p ∧ s'.runnable p = bit (s.processor (s.current c)) := by
  cases h with
  | choose c next hc =>
    by_cases hp : p = next
    · subst hp
      exact .inr (.inr ⟨c, hc, Function.update_self ..⟩)
    · exact .inl (Function.update_of_ne hp ..)
  | release c prev hc =>
    by_cases hp : p = prev
    · subst hp
      exact .inr (.inl (Function.update_self ..))
    · exact .inl (Function.update_of_ne hp ..)
  | _ => exact .inl rfl

/-- What `set_cpus_allowed` has reached stays so for as long as the mask does. -/
theorem Legal.step (h : B.system.Reachable k) (hl : Legal k p) (hi : ¬ B.Idle p)
    (hstep : B.system.step k k') (hm : (k'.task p).cpusAllowed = (k.task p).cpusAllowed) :
    Legal k' p where
  runnable := by
    obtain ⟨a, ha⟩ := hstep
    have hcore := (perform_next (reachable_inv h).2 ha).step
    have hcases : (k'.task p).cpusRunnable = (k.task p).cpusRunnable ∨
        (k'.task p).cpusRunnable = BitVec.allOnes 32 ∨
          ∃ c, k.core.loc c = .scanning [] p ∧ (k'.task p).cpusRunnable = bit (k.thisCpu c) :=
      hcore.runnable
    rw [hm]
    rcases hcases with hsame | hfree | ⟨c, hc, hbit⟩
    · rw [hsame]
      exact hl.runnable
    · rw [hfree, BitVec.allOnes_and]
      intro hz
      apply hl.runnable
      rw [hz]
      exact BitVec.and_zero
    · obtain ⟨w, hscan⟩ := loc_scanning hc
      rw [hbit, thisCpu_eq h, BitVec.and_comm]
      exact hl.choice hscan
  choice {c rest w} hc := by
    rw [hm]
    rcases choice_step h hstep hi hc with ⟨rest', w', hold⟩ | hcan
    · exact hl.choice hold
    · exact canSchedule_allowed hcan

/-- Once `cpus_runnable` and `cpus_allowed` of a task have met, which is what `set_cpus_allowed`
waits for, no CPU outside the mask has the task for as long as the mask stays, unless one had the
task as its choice already. -/
theorem affinity_kept (h : B.system.Reachable k) (hi : ¬ B.Idle p)
    (hmeet : (k.task p).cpusRunnable &&& (k.task p).cpusAllowed ≠ 0)
    (hchoice : ∀ c rest w, k.pc c = .scan rest w p → (k.task p).cpusAllowed &&& bit c ≠ 0)
    (hr : Relation.ReflTransGen (fun u v => B.system.step u v ∧
      (v.task p).cpusAllowed = (u.task p).cpusAllowed) k k') :
    (k'.task p).cpusRunnable &&& (k'.task p).cpusAllowed ≠ 0 ∧
      ∀ c, k'.core.Held c p → (k'.task p).cpusAllowed &&& bit c ≠ 0 := by
  have hboth : B.system.Reachable k' ∧ Legal k' p := by
    induction hr with
    | refl => exact ⟨h, hmeet, hchoice _ _ _⟩
    | tail _ hstep ih =>
      obtain ⟨hreach, hlegal⟩ := ih
      exact ⟨hreach.next hstep.1, hlegal.step hreach hi hstep.1 hstep.2⟩
  obtain ⟨hreach, hlegal⟩ := hboth
  refine ⟨hlegal.runnable, ?_⟩
  intro c hc
  have hbit : (k'.task p).cpusRunnable = bit c := (reachable_inv hreach).1.own.held hc hi
  have hmeet' := hlegal.runnable
  rwa [hbit, BitVec.and_comm] at hmeet'

/-- The process binds itself to CPU 0. -/
def pairBound : Kernel 2 (Fin 4) :=
  (pair.run pairRun [.allow cpu0 process 1]).get (by decide +kernel)

/-- CPU 0 goes on with the kernel thread, and CPU 1 scans a run queue that has both. -/
def pairSpread : List (Act 2 (Fin 4)) :=
  .wake cpu1 kthread false :: .tick cpu0 :: .schedule cpu0 ::
    List.replicate 11 (.advance cpu0 0) ++ .schedule cpu1 :: List.replicate 7 (.advance cpu1 0)

def pairLeft : Kernel 2 (Fin 4) := (pair.run pairBound pairSpread).get (by decide +kernel)

theorem affinity_kept_pair : pairLeft.runqueue = [2, 3] ∧ (pairLeft.task 2).hasCpu = false ∧
    ¬ pairLeft.core.Held 1 2 := by
  have hbound : Relation.ReflTransGen pair.system.step pairRun pairBound :=
    Board.run_steps (Option.some_get _).symm
  have hmask : System.Keeps pair.act pairBound pairSpread fun u => (u.task 2).cpusAllowed = 1 := by
    decide +kernel
  have hrun : pair.run pairBound pairSpread = some pairLeft := (Option.some_get _).symm
  have hcode : ∀ c, pairBound.pc c = .code
    | 0 => rfl
    | 1 => rfl
  refine ⟨by decide +kernel, by decide +kernel, fun hheld => ?_⟩
  have hkept := (affinity_kept (p := 2) (pairRun_reachable.run hbound) (by decide)
    (by decide +kernel) (fun c rest w hc => by rw [hcode c] at hc; cases hc)
    (Relation.ReflTransGen.mono (fun _ _ h => ⟨h.1, h.2.2.trans h.2.1.symm⟩) _ _
      (Board.run_keeps hrun hmask))).2 1 hheld
  rw [hmask.last hrun] at hkept
  exact hkept (by decide)

end

end NoblesseOblige.Scheduler
