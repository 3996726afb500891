import NoblesseOblige.Scheduler.Settings

namespace NoblesseOblige.Scheduler
open Scheduler.Core
set_option autoImplicit true

/-- No state changes but to `TASK_RUNNING`. -/
def Stirs (k k' : Kernel n ι) : Prop :=
  ∀ p, (k'.task p).state = (k.task p).state ∨ (k'.task p).state = .running

section
variable {B : Board n ι} {k k' k₁ : Kernel n ι}

theorem Stirs.refl (k : Kernel n ι) : Stirs k k := fun _ => .inl rfl

theorem Stirs.trans (h : Stirs k k₁) (h' : Stirs k₁ k') : Stirs k k' := by
  intro p
  rcases h' p with he | hr
  · rcases h p with he' | hr'
    · exact .inl (he.trans he')
    · exact .inr (he.trans hr')
  · exact .inr hr

end

section
variable [DecidableEq ι] {B : Board n ι} {k k' k₁ : Kernel n ι}

theorem stirs_update {t : Task n} (ht : k'.task = Function.update k.task p t)
    (h : t.state = (k.task p).state ∨ t.state = .running) : Stirs k k' := by
  intro q
  rw [ht]
  by_cases he : q = p
  · subst he
    rw [Function.update_self]
    exact h
  · rw [Function.update_of_ne he]
    exact .inl rfl

theorem stirs_rescheduleIdle (B : Board n ι) (k : Kernel n ι) (c : Fin n) (p : ι) :
    Stirs k (B.rescheduleIdle k c p) := by
  rcases rescheduleIdle_spec B k c p with h | ⟨cpu, tsk, poll, h⟩
  · rw [h]
    exact .refl k
  · rw [h]
    exact stirs_update rfl (.inl rfl)

theorem stirs_leave (h : k.leave prev = .ok k') : Stirs k k' := by
  have hdel (h : k.delFromRunqueue prev = .ok k') : Stirs k k' := by
    obtain ⟨_, rfl⟩ := delFromRunqueue_spec h
    exact stirs_update rfl (.inl rfl)
  unfold Kernel.leave at h
  split at h
  · cases h
    exact .refl k
  · split at h
    · cases h
      exact stirs_update rfl (.inr rfl)
    · exact hdel h
  · exact hdel h

theorem stirs_moveLast (h : k.moveLastRunqueue p = .ok k') : Stirs k k' := by
  unfold Kernel.moveLastRunqueue at h
  split at h
  · cases h
    exact fun _ => .inl rfl
  · cases h

theorem stirs_moveExhausted (h : B.moveExhausted k prev = .ok k') : Stirs k k' := by
  unfold Board.moveExhausted at h
  split at h
  · have hset : Stirs k (k.modify prev fun t => { t with counter := B.niceToTicks t.nice }) :=
      stirs_update rfl (.inl rfl)
    exact hset.trans (stirs_moveLast h)
  · cases h
    exact .refl k

theorem stirs_needReschedBack (h : B.needReschedBack k c = .ok k') : Stirs k k' := by
  unfold Board.needReschedBack at h
  split at h
  · cases h
  · obtain ⟨k₁, h₁, h⟩ := bind_ok h
    obtain ⟨k₂, h₂, rfl⟩ := map_ok h
    have hclear : Stirs k₂ (k₂.modify (k.current c) fun t => { t with needResched := 0 }) :=
      stirs_update rfl (.inl rfl)
    exact ((stirs_moveExhausted h₁).trans (stirs_leave h₂)).trans hclear

theorem stirs_switchTo (h : k.switchTo c cycles next = .ok k') : Stirs k k' := by
  unfold Kernel.switchTo at h
  dsimp only at h
  split at h
  · cases h
  · rename_i oldmm _
    obtain ⟨k₁, h₁, rfl⟩ := map_ok h
    have hborrow : Stirs k k₁ := by
      unfold Kernel.borrowMm at h₁
      split at h₁
      · split at h₁
        · cases h₁
        · cases h₁
          exact stirs_update rfl (.inl rfl)
      · split at h₁
        · cases h₁
        · cases h₁
          exact .refl k
    have hreturn : Stirs k₁ (k₁.returnMm oldmm (k.current c)) := by
      unfold Kernel.returnMm
      split
      · exact stirs_update rfl (.inl rfl)
      · exact .refl k₁
    exact hborrow.trans hreturn

theorem stirs_advance (h : B.advance k c cycles = .ok k') : Stirs k k' := by
  cases hc : k.pc c with
  | needReschedBack =>
    simp only [Board.advance, hc] at h
    exact stirs_needReschedBack h
  | switchTo next =>
    simp only [Board.advance, hc] at h
    exact stirs_switchTo h
  | yielding =>
    simp only [Board.advance, hc] at h
    split at h
    · cases h
    · obtain ⟨k₁, h₁, rfl⟩ := map_ok h
      exact (stirs_moveLast h₁).trans fun _ => .inl rfl
  | pending rest nr =>
    cases rest with
    | cons cpu cpus =>
      simp only [Board.advance, hc] at h
      cases h
      exact .refl k
    | nil =>
      simp only [Board.advance, hc] at h
      split at h
      · cases h
        exact .refl k
      · cases h
        exact stirs_update rfl (.inl rfl)
  | scan rest w next =>
    cases rest with
    | cons p rest =>
      simp only [Board.advance, hc, Board.examine] at h
      split at h <;> cases h <;> exact .refl k
    | nil =>
      simp only [Board.advance, hc, Board.choose] at h
      split at h
      · cases h
        exact .refl k
      · cases h
        exact stirs_update rfl (.inl rfl)
  | recalculate rest =>
    cases rest with
    | cons p rest =>
      simp only [Board.advance, hc] at h
      cases h
      exact stirs_update rfl (.inl rfl)
    | nil =>
      simp only [Board.advance, hc] at h
      cases h
      exact .refl k
  | relock =>
    simp only [Board.advance, hc] at h
    split at h
    · cases h
    · cases h
      exact .refl k
  | sameClear policy =>
    simp only [Board.advance, hc] at h
    cases h
    exact stirs_update rfl (.inl rfl)
  | tailClear prev policy =>
    simp only [Board.advance, hc] at h
    cases h
    exact stirs_update rfl (.inl rfl)
  | release prev policy =>
    simp only [Board.advance, hc] at h
    cases h
    exact stirs_update rfl (.inl rfl)
  | check prev policy =>
    simp only [Board.advance, hc] at h
    split at h <;> cases h <;> exact .refl k
  | push prev =>
    simp only [Board.advance, hc, Board.push] at h
    split at h
    · cases h
    · cases h
      split
      · exact stirs_rescheduleIdle B (k.goto c .sameProcess) _ prev
      · exact .refl k
  | setting p policy priority =>
    simp only [Board.advance, hc] at h
    cases h
    have hset : Stirs k (k.modify p fun t =>
      { t with policy := policy, rtPriority := priority }) := stirs_update rfl (.inl rfl)
    exact hset.trans (stirs_update rfl (.inl rfl))
  | code =>
    simp only [Board.advance, hc] at h
    cases h
  | same | tail | sameProcess =>
    simp only [Board.advance, hc] at h
    cases h
    exact .refl k

theorem stirs_tryToWakeUp (h : B.tryToWakeUp k c p sync = .ok (k', success)) :
    Stirs k k' ∧ (k'.task p).state = .running := by
  unfold Board.tryToWakeUp at h
  split at h
  · cases h
  · dsimp only at h
    have hset : Stirs k (k.modify p fun t => { t with state := .running }) :=
      stirs_update rfl (.inr rfl)
    have hrun : ((k.modify p fun t => { t with state := .running }).task p).state = .running := by
      rw [k.task_modify, if_pos rfl]
    split at h
    · cases h
      exact ⟨hset, hrun⟩
    · obtain ⟨k₂, h₂, hpair⟩ := map_ok h
      unfold Kernel.addToRunqueue at h₂
      split at h₂
      · cases h₂
      · cases h₂
        have hadd : Stirs (k.modify p fun t => { t with state := .running })
            ((k.modify p fun t => { t with state := .running }).modify p
              fun t => { t with queued := true }) := stirs_update rfl (.inl rfl)
        have hboth := hset.trans hadd
        have hrun₂ : (((k.modify p fun t => { t with state := .running }).modify p
            fun t => { t with queued := true }).task p).state = .running := by
          rw [Kernel.task_modify, if_pos rfl, hrun]
        split at hpair
        · cases hpair
          have hidle := stirs_rescheduleIdle B
            { (k.modify p fun t => { t with state := .running }).modify p
                fun t => { t with queued := true } with
              runqueue := (k.modify p fun t => { t with state := .running }).runqueue ++ [p]
              nrRunning := (k.modify p fun t => { t with state := .running }).nrRunning + 1 } c p
          refine ⟨hboth.trans hidle, ?_⟩
          rcases hidle p with he | hr
          · exact he.trans hrun₂
          · exact hr
        · cases hpair
          exact ⟨hboth, hrun₂⟩

/-- A task stops being runnable only by its own `set_current_state`. -/
theorem perform_state (h : B.perform k a = .ok k') :
    Stirs k k' ∨ ∃ c st, a = .setState c st ∧ B.Busy k c ∧
      k' = k.modify (k.current c) fun t => { t with state := st } := by
  cases a with
  | advance c cycles => exact .inl (stirs_advance h)
  | setState c st =>
    simp only [Board.perform] at h
    split at h
    · cases h
      exact .inr ⟨c, st, rfl, ‹_›, rfl⟩
    · cases h
  | wake c p synchronous =>
    simp only [Board.perform] at h
    split at h
    · cases h
    · obtain ⟨⟨k₁, success⟩, h₁, rfl⟩ := map_ok h
      exact .inl (stirs_tryToWakeUp h₁).1
  | allow c p newMask =>
    simp only [Board.perform] at h
    split at h
    · unfold Kernel.setCpusAllowed at h
      dsimp only at h
      have hset : Stirs k (k.modify p fun t =>
        { t with cpusAllowed := newMask &&& onlineMap n }) := stirs_update rfl (.inl rfl)
      split at h
      · cases h
      · split at h
        · cases h
          exact .inl (hset.trans (stirs_update rfl (.inl rfl)))
        · cases h
          exact .inl hset
    · cases h
  | schedule c =>
    simp only [Board.perform] at h
    split at h
    · split at h <;> cases h
      exact .inl (.refl k)
    · cases h
  | nice c increment =>
    simp only [Board.perform] at h
    split at h
    · split at h
      · cases h
        exact .inl (.refl k)
      · cases h
        exact .inl (stirs_update rfl (.inl rfl))
    · cases h
  | setscheduler c pid policy param =>
    simp only [Board.perform] at h
    split at h
    · split at h <;> cases h <;> exact .inl (.refl k)
    · cases h
  | reparent c =>
    simp only [Board.perform] at h
    split at h <;> cases h
    exact .inl (stirs_update rfl (.inl rfl))
  | yield c =>
    simp only [Board.perform] at h
    split at h <;> cases h
    exact .inl (.refl k)
  | tick c =>
    simp only [Board.perform] at h
    split at h
    · cases h
    · cases h
      refine .inl (stirs_update rfl (.inl ?_))
      dsimp only
      split <;> rfl
  | signal p sigpending =>
    simp only [Board.perform] at h
    cases h
    exact .inl (stirs_update rfl (.inl rfl))
  | handle c =>
    simp only [Board.perform] at h
    cases h
    exact .inl (.refl k)

end

end NoblesseOblige.Scheduler
