import NoblesseOblige.Scheduler.Safety

namespace NoblesseOblige.Scheduler
set_option autoImplicit true

/-- What `goodness` weighs of a task, whoever has it. -/
structure Settings where
  counter : Int
  nice : Int
  policy : BitVec 32
  rtPriority : Int

def Task.settings (t : Task n) : Settings := ⟨t.counter, t.nice, t.policy, t.rtPriority⟩

/-- The policy a CPU has read in order to write it back without `SCHED_YIELD`, and of whom. -/
def Pc.noted (current : ι) : Pc n ι → Option (ι × BitVec 32)
  | .sameClear policy => some (current, policy)
  | .tailClear prev policy => some (prev, policy)
  | _ => none

/-- What `setscheduler` is about to write, and to whom. -/
def Pc.written : Pc n ι → Option (ι × BitVec 32 × Int)
  | .setting p policy priority => some (p, policy, priority)
  | _ => none

/-- All that a step can do to the settings of a task. -/
inductive Adjust (B : Board n ι) (k : Kernel n ι) (p : ι) : Settings → Prop
  | keep : Adjust B k p (k.task p).settings
  | refill : Adjust B k p
      { (k.task p).settings with counter := B.niceToTicks (k.task p).nice }
  | recalculate : Adjust B k p
      { (k.task p).settings with
        counter := (k.task p).counter / 2 + B.niceToTicks (k.task p).nice }
  | tick (h : 0 < (k.task p).counter - 1) : Adjust B k p
      { (k.task p).settings with counter := (k.task p).counter - 1 }
  | exhaust : Adjust B k p { (k.task p).settings with counter := 0 }
  | yield (h : (k.task p).policy = schedOther) : Adjust B k p
      { (k.task p).settings with policy := (k.task p).policy ||| schedYield }
  | clear (c : Fin n) (policy : BitVec 32) (h : (k.pc c).noted (k.current c) = some (p, policy)) :
      Adjust B k p { (k.task p).settings with policy := policy &&& ~~~schedYield }
  | write (c : Fin n) (policy : BitVec 32) (priority : Int)
      (h : (k.pc c).written = some (p, policy, priority)) : Adjust B k p
      { (k.task p).settings with policy := policy, rtPriority := priority }
  | nice (increment nice : Int) (h : sysNice (k.task p) increment = .ok nice) :
      Adjust B k p { (k.task p).settings with nice := nice }
  | reparent : Adjust B k p { (k.task p).settings with nice := 0, policy := schedOther }

/-- What a step does to the settings, and to what the CPUs have read of them. A CPU that is not in
the code of its task goes on by itself. -/
structure Effect (B : Board n ι) (a : Act n ι) (k k' : Kernel n ι) : Prop where
  settings : ∀ p, Adjust B k p (k'.task p).settings
  pc : ∀ c, k'.pc c = k.pc c ∨ k.pc c = .code ∨ ∃ cycles, a = .advance c cycles
  noted : ∀ {c q policy}, (k'.pc c).noted (k'.current c) = some (q, policy) →
    (k.pc c).noted (k.current c) = some (q, policy) ∨ policy = (k.task q).policy
  written : ∀ {c q policy priority}, (k'.pc c).written = some (q, policy, priority) →
    (k.pc c).written = some (q, policy, priority) ∨
      ∃ pid policy' param, B.setscheduler k c pid policy' param = .ok (q, policy, priority)

section
variable {B : Board n ι} {k k' k₁ : Kernel n ι}

/-- The tasks, and where the CPUs are, are the same but for fields that are not settings. -/
structure Unset (k k' : Kernel n ι) : Prop where
  settings : ∀ p, (k'.task p).settings = (k.task p).settings
  pc : k'.pc = k.pc
  current : k'.current = k.current

theorem Unset.refl (k : Kernel n ι) : Unset k k := ⟨fun _ => rfl, rfl, rfl⟩

theorem Unset.trans (h : Unset k k₁) (h' : Unset k₁ k') : Unset k k' :=
  ⟨fun p => (h'.settings p).trans (h.settings p), h'.pc.trans h.pc, h'.current.trans h.current⟩

theorem Unset.adjust (h : Unset k₁ k') (hs : ∀ p, Adjust B k p (k₁.task p).settings) (p : ι) :
    Adjust B k p (k'.task p).settings := by
  rw [h.settings p]
  exact hs p

theorem Unset.keep (h : Unset k k') (p : ι) : Adjust B k p (k'.task p).settings :=
  h.adjust (fun _ => .keep) p

end

section
variable [DecidableEq ι] {B : Board n ι} {k k' k₁ : Kernel n ι}

omit [DecidableEq ι] in
theorem Effect.of_pc (hpc : k'.pc = k.pc) (hcur : k'.current = k.current)
    (h : ∀ p, Adjust B k p (k'.task p).settings) : Effect B a k k' where
  settings := h
  pc c := .inl (congrFun hpc c)
  noted hn := by
    rw [hpc, hcur] at hn
    exact .inl hn
  written hw := by
    rw [hpc] at hw
    exact .inl hw

omit [DecidableEq ι] in
/-- A CPU goes on to a statement for which it has read what it says. -/
theorem Effect.goto {l : Pc n ι}
    (hgo : k.pc c = .code ∨ ∃ cycles, a = .advance c cycles)
    (hpc : k'.pc = Function.update k.pc c l)
    (hcur : k'.current = k.current) (h : ∀ p, Adjust B k p (k'.task p).settings)
    (hn : ∀ q policy, l.noted (k.current c) = some (q, policy) → policy = (k.task q).policy)
    (hw : l.written = none) : Effect B a k k' where
  settings := h
  pc d := by
    by_cases he : d = c
    · subst he
      exact .inr hgo
    · left
      rw [hpc, Function.update_of_ne he]
  noted {d q policy} hd := by
    rw [hpc, hcur] at hd
    by_cases he : d = c
    · subst he
      right
      apply hn
      simpa using hd
    · left
      simpa [he] using hd
  written {d q policy priority} hd := by
    rw [hpc] at hd
    by_cases he : d = c
    · subst he
      rw [Function.update_self, hw] at hd
      cases hd
    · left
      simpa [he] using hd

omit [DecidableEq ι] in
theorem unnoted {l : Pc n ι} {p : ι} (h : l.noted p = none) (q : ι) (policy : BitVec 32)
    (hq : l.noted p = some (q, policy)) : policy = (k.task q).policy := by
  rw [h] at hq
  cases hq

theorem adjust_update {t : Task n} (ht : k'.task = Function.update k.task p t)
    (h : Adjust B k p t.settings) (q : ι) : Adjust B k q (k'.task q).settings := by
  rw [ht]
  by_cases he : q = p
  · subst he
    rw [Function.update_self]
    exact h
  · rw [Function.update_of_ne he]
    exact .keep

theorem unset_modify (k : Kernel n ι) (p : ι) {f : Task n → Task n}
    (h : (f (k.task p)).settings = (k.task p).settings) : Unset k (k.modify p f) where
  settings q := by
    rw [k.task_modify]
    split
    · rename_i he
      subst he
      exact h
    · rfl
  pc := rfl
  current := rfl

theorem unset_rescheduleIdle (B : Board n ι) (k : Kernel n ι) (c : Fin n) (p : ι) :
    Unset k (B.rescheduleIdle k c p) := by
  rcases rescheduleIdle_spec B k c p with h | ⟨cpu, tsk, poll, h⟩
  · rw [h]
    exact .refl k
  · rw [h]
    have hset := unset_modify k tsk (f := fun t => { t with needResched := 1 }) rfl
    exact ⟨hset.settings, rfl, rfl⟩

theorem unset_leave (h : k.leave prev = .ok k') : Unset k k' := by
  have hdel (h : k.delFromRunqueue prev = .ok k') : Unset k k' := by
    obtain ⟨_, rfl⟩ := delFromRunqueue_spec h
    have hset := unset_modify k prev (f := fun t => { t with queued := false }) rfl
    exact ⟨hset.settings, rfl, rfl⟩
  unfold Kernel.leave at h
  split at h
  · cases h
    exact .refl k
  · split at h
    · cases h
      exact unset_modify k prev rfl
    · exact hdel h
  · exact hdel h

theorem unset_borrowMm (h : k.borrowMm oldmm next = .ok k') : Unset k k' := by
  unfold Kernel.borrowMm at h
  split at h
  · split at h
    · cases h
    · cases h
      have hset := unset_modify k next (f := fun t => { t with activeMm := some oldmm }) rfl
      exact ⟨hset.settings, rfl, rfl⟩
  · split at h
    · cases h
    · cases h
      exact .refl k

theorem unset_returnMm (k : Kernel n ι) (oldmm : Nat) (prev : ι) :
    Unset k (k.returnMm oldmm prev) := by
  unfold Kernel.returnMm
  split
  · have hset := unset_modify k prev (f := fun t => { t with activeMm := none }) rfl
    exact ⟨hset.settings, rfl, rfl⟩
  · exact .refl k

theorem moveExhausted_adjust (h : B.moveExhausted k prev = .ok k') :
    (∀ p, Adjust B k p (k'.task p).settings) ∧ k'.pc = k.pc ∧ k'.current = k.current := by
  unfold Board.moveExhausted at h
  split at h
  · unfold Kernel.moveLastRunqueue at h
    split at h
    · cases h
      exact ⟨adjust_update rfl .refill, rfl, rfl⟩
    · cases h
  · cases h
    exact ⟨fun _ => .keep, rfl, rfl⟩

theorem needReschedBack_effect (h : B.needReschedBack k c = .ok k')
    (hgo : k.pc c = .code ∨ ∃ cycles, a = .advance c cycles) : Effect B a k k' := by
  unfold Board.needReschedBack at h
  split at h
  · cases h
  · obtain ⟨k₁, h₁, h⟩ := bind_ok h
    obtain ⟨k₂, h₂, rfl⟩ := map_ok h
    obtain ⟨hs₁, hpc₁, hcur₁⟩ := moveExhausted_adjust h₁
    have hset := (unset_leave h₂).trans
      (unset_modify k₂ (k.current c) (f := fun t => { t with needResched := 0 }) rfl)
    have hpc := congrArg (Function.update · c (.scan k₂.runqueue (-1000) (B.idleTask
      ((k₂.modify (k.current c) fun t => { t with needResched := 0 }).thisCpu c))))
      (hset.pc.trans hpc₁)
    exact .goto hgo hpc (hset.current.trans hcur₁) (hset.adjust hs₁) (unnoted rfl) rfl

theorem switchTo_effect (h : k.switchTo c cycles next = .ok k')
    (hgo : k.pc c = .code ∨ ∃ cycles, a = .advance c cycles) : Effect B a k k' := by
  unfold Kernel.switchTo at h
  dsimp only at h
  split at h
  · cases h
  · rename_i oldmm hm
    obtain ⟨k₁, h₁, rfl⟩ := map_ok h
    have hset := (unset_borrowMm h₁).trans (unset_returnMm k₁ oldmm (k.current c))
    have hpc : ((k₁.returnMm oldmm (k.current c)).goto c (.tail (k.current c))).pc =
        Function.update k.pc c (.tail (k.current c)) := congrArg (Function.update · c _) hset.pc
    refine ⟨hset.keep, ?_, ?_, ?_⟩
    · intro d
      by_cases he : d = c
      · subst he
        exact .inr hgo
      · left
        rw [hpc, Function.update_of_ne he]
    · intro d q policy hd
      rw [hpc, (unset_borrowMm h₁).current] at hd
      by_cases he : d = c
      · subst he
        simp [Pc.noted] at hd
      · left
        simpa [he] using hd
    · intro d q policy priority hd
      rw [hpc] at hd
      by_cases he : d = c
      · subst he
        simp [Pc.written] at hd
      · left
        simpa [he] using hd

theorem advance_effect (h : B.advance k c cycles = .ok k') :
    Effect B (.advance c cycles) k k' := by
  have hgo : k.pc c = .code ∨ ∃ cycles', Act.advance (ι := ι) c cycles = .advance c cycles' :=
    .inr ⟨cycles, rfl⟩
  cases hc : k.pc c with
  | code =>
    simp only [Board.advance, hc] at h
    cases h
  | pending rest nr =>
    cases rest with
    | cons cpu cpus =>
      simp only [Board.advance, hc] at h
      cases h
      exact .goto hgo rfl rfl (fun _ => .keep) (unnoted rfl) rfl
    | nil =>
      simp only [Board.advance, hc] at h
      split at h
      · cases h
        exact .goto hgo rfl rfl (fun _ => .keep) (unnoted rfl) rfl
      · cases h
        refine .goto hgo rfl rfl (adjust_update rfl ?_) (unnoted rfl) rfl
        by_cases ho : (k.task (k.current c)).policy = schedOther
        · have hy := Adjust.yield (B := B) ho
          simpa only [Task.settings, ho, if_true] using hy
        · simpa only [Task.settings, ho, if_false] using Adjust.keep (B := B)
  | yielding =>
    simp only [Board.advance, hc] at h
    split at h
    · cases h
    · obtain ⟨k₁, h₁, rfl⟩ := map_ok h
      unfold Kernel.moveLastRunqueue at h₁
      split at h₁
      · cases h₁
        exact .goto hgo rfl rfl (fun _ => .keep) (unnoted rfl) rfl
      · cases h₁
  | needReschedBack =>
    simp only [Board.advance, hc] at h
    exact needReschedBack_effect h hgo
  | scan rest w next =>
    cases rest with
    | cons p rest =>
      simp only [Board.advance, hc, Board.examine] at h
      split at h
      · cases h
        exact .goto hgo rfl rfl (fun _ => .keep) (unnoted rfl) rfl
      · cases h
        exact .goto hgo rfl rfl (fun _ => .keep) (unnoted rfl) rfl
    | nil =>
      simp only [Board.advance, hc, Board.choose] at h
      split at h
      · cases h
        exact .goto hgo rfl rfl (fun _ => .keep) (unnoted rfl) rfl
      · cases h
        have hset := unset_modify k next (f := fun t => t.setCpu (k.thisCpu c)) rfl
        refine .goto hgo rfl rfl hset.keep ?_ ?_
        · split
          · exact unnoted rfl
          · exact unnoted rfl
        · split
          · rfl
          · rfl
  | recalculate rest =>
    cases rest with
    | cons p rest =>
      simp only [Board.advance, hc] at h
      cases h
      exact .goto hgo rfl rfl (adjust_update rfl .recalculate) (unnoted rfl) rfl
    | nil =>
      simp only [Board.advance, hc] at h
      cases h
      exact .goto hgo rfl rfl (fun _ => .keep) (unnoted rfl) rfl
  | relock =>
    simp only [Board.advance, hc] at h
    split at h
    · cases h
    · cases h
      exact .goto hgo rfl rfl (fun _ => .keep) (unnoted rfl) rfl
  | same =>
    simp only [Board.advance, hc] at h
    cases h
    refine .goto hgo rfl rfl (fun _ => .keep) ?_ rfl
    intro q policy hq
    cases hq
    rfl
  | sameClear policy =>
    simp only [Board.advance, hc] at h
    cases h
    exact .goto hgo rfl rfl (adjust_update rfl (.clear c policy (by rw [hc]; rfl))) (unnoted rfl)
      rfl
  | switchTo next =>
    simp only [Board.advance, hc] at h
    exact switchTo_effect h hgo
  | tail prev =>
    simp only [Board.advance, hc] at h
    cases h
    refine .goto hgo rfl rfl (fun _ => .keep) ?_ rfl
    intro q policy hq
    cases hq
    rfl
  | tailClear prev policy =>
    simp only [Board.advance, hc] at h
    cases h
    exact .goto hgo rfl rfl (adjust_update rfl (.clear c policy (by rw [hc]; rfl))) (unnoted rfl)
      rfl
  | release prev policy =>
    simp only [Board.advance, hc] at h
    cases h
    have hset := unset_modify k prev (f := Task.releaseCpu) rfl
    exact .goto hgo rfl rfl hset.keep (unnoted rfl) rfl
  | check prev policy =>
    simp only [Board.advance, hc] at h
    split at h
    · cases h
      exact .goto hgo rfl rfl (fun _ => .keep) (unnoted rfl) rfl
    · cases h
      exact .goto hgo rfl rfl (fun _ => .keep) (unnoted rfl) rfl
  | push prev =>
    simp only [Board.advance, hc, Board.push] at h
    split at h
    · cases h
    · cases h
      split
      · have hset := unset_rescheduleIdle B (k.goto c .sameProcess)
          ((k.goto c .sameProcess).thisCpu c) prev
        exact .goto hgo hset.pc hset.current (hset.adjust fun _ => .keep) (unnoted rfl) rfl
      · exact .goto hgo rfl rfl (fun _ => .keep) (unnoted rfl) rfl
  | sameProcess =>
    simp only [Board.advance, hc] at h
    split at h
    · cases h
      exact .goto hgo rfl rfl (fun _ => .keep) (unnoted rfl) rfl
    · cases h
      exact .goto hgo rfl rfl (fun _ => .keep) (unnoted rfl) rfl
  | setting p policy priority =>
    simp only [Board.advance, hc] at h
    cases h
    have hset := unset_modify (k.modify p fun t =>
      { t with policy := policy, rtPriority := priority }) (k.current c)
      (f := fun t => { t with needResched := 1 }) rfl
    have hadjust := hset.adjust (B := B) (adjust_update rfl
      (.write c policy priority (by rw [hc]; rfl)))
    exact .goto hgo rfl rfl hadjust (unnoted rfl) rfl

/-- Every event does to the settings of each task one of the things that `Adjust` lists, and moves
one CPU at most. -/
theorem perform_effect (h : B.perform k a = .ok k') : Effect B a k k' := by
  cases a with
  | advance c cycles => exact advance_effect h
  | schedule c =>
    simp only [Board.perform] at h
    split at h
    · rename_i hcode
      split at h
      · cases h
      · cases h
        exact .goto (.inl hcode) rfl rfl (fun _ => .keep) (unnoted rfl) rfl
    · cases h
  | setState c state =>
    simp only [Board.perform] at h
    split at h
    · cases h
      exact .of_pc rfl rfl (adjust_update rfl .keep)
    · cases h
  | yield c =>
    simp only [Board.perform] at h
    split at h
    · rename_i hbusy
      cases h
      exact .goto (.inl hbusy.code) rfl rfl (fun _ => .keep) (unnoted rfl) rfl
    · cases h
  | nice c increment =>
    simp only [Board.perform] at h
    split at h
    · split at h
      · cases h
        exact .of_pc rfl rfl fun _ => .keep
      · rename_i nice hn
        cases h
        exact .of_pc rfl rfl (adjust_update rfl (.nice increment nice hn))
    · cases h
  | setscheduler c pid policy param =>
    simp only [Board.perform] at h
    split at h
    · rename_i hbusy
      split at h
      · cases h
        exact .of_pc rfl rfl fun _ => .keep
      · rename_i p word v hset
        cases h
        refine ⟨fun _ => .keep, ?_, ?_, ?_⟩
        · intro d
          by_cases he : d = c
          · subst he
            exact .inr (.inl hbusy.1.code)
          · left
            simp [Kernel.goto, he]
        · intro d q policy' hd
          left
          by_cases he : d = c
          · subst he
            simp [Kernel.goto, Pc.noted] at hd
          · simpa [Kernel.goto, he] using hd
        · intro d q policy' priority hd
          by_cases he : d = c
          · subst he
            right
            simp only [Kernel.goto, Function.update_self, Pc.written] at hd
            cases hd
            exact ⟨pid, policy, param, hset⟩
          · left
            simpa [Kernel.goto, he] using hd
    · cases h
  | reparent c =>
    simp only [Board.perform] at h
    split at h
    · cases h
      exact .of_pc rfl rfl (adjust_update rfl .reparent)
    · cases h
  | allow c p newMask =>
    simp only [Board.perform] at h
    split at h
    · unfold Kernel.setCpusAllowed at h
      dsimp only at h
      have hset := unset_modify k p
        (f := fun t => { t with cpusAllowed := newMask &&& onlineMap n }) rfl
      split at h
      · cases h
      · split at h
        · cases h
          have hneed := unset_modify (k.modify p fun t =>
            { t with cpusAllowed := newMask &&& onlineMap n }) p
            (f := fun t => { t with needResched := 1 }) rfl
          exact .of_pc rfl rfl (hset.trans hneed).keep
        · cases h
          exact .of_pc rfl rfl hset.keep
    · cases h
  | wake c p synchronous =>
    simp only [Board.perform] at h
    split at h
    · cases h
    · obtain ⟨⟨k₁, success⟩, h₁, rfl⟩ := map_ok h
      unfold Board.tryToWakeUp at h₁
      split at h₁
      · cases h₁
      · dsimp only at h₁
        have hset := unset_modify k p (f := fun t => { t with state := .running }) rfl
        split at h₁
        · cases h₁
          exact .of_pc rfl rfl hset.keep
        · obtain ⟨k₂, h₂, hpair⟩ := map_ok h₁
          unfold Kernel.addToRunqueue at h₂
          split at h₂
          · cases h₂
          · cases h₂
            have hadd := unset_modify (k.modify p fun t => { t with state := .running }) p
              (f := fun t => { t with queued := true }) rfl
            have hboth := hset.trans hadd
            split at hpair
            · cases hpair
              have hidle := unset_rescheduleIdle B
                { (k.modify p fun t => { t with state := .running }).modify p
                    fun t => { t with queued := true } with
                  runqueue := (k.modify p fun t => { t with state := .running }).runqueue ++ [p]
                  nrRunning := (k.modify p fun t => { t with state := .running }).nrRunning + 1 }
                (k.thisCpu c) p
              exact .of_pc hidle.pc hidle.current (hidle.adjust hboth.keep)
            · cases hpair
              exact .of_pc rfl rfl hboth.keep
  | tick c =>
    simp only [Board.perform] at h
    split at h
    · cases h
    · cases h
      refine .of_pc rfl rfl (adjust_update rfl ?_)
      dsimp only
      split
      · exact .exhaust
      · exact .tick (by omega)
  | signal p sigpending =>
    simp only [Board.perform] at h
    cases h
    exact .of_pc rfl rfl (adjust_update rfl .keep)
  | handle c =>
    simp only [Board.perform] at h
    cases h
    exact .of_pc rfl rfl fun _ => .keep

end

section
variable {B : Board n ι} {k k' : Kernel n ι}

/-- One of the three policies, with or without `SCHED_YIELD`. -/
def Known (policy : BitVec 32) : Prop :=
  policy &&& ~~~schedYield = schedOther ∨ policy &&& ~~~schedYield = schedFifo ∨
    policy &&& ~~~schedYield = schedRr

/-- Settings that `sys_nice`, `setscheduler` and the clock are meant to leave. -/
structure Sane (B : Board n ι) (s : Settings) : Prop where
  nice : -20 ≤ s.nice ∧ s.nice ≤ 19
  counter : 0 ≤ s.counter ∧ s.counter ≤ 2 * B.niceToTicks (-20)
  policy : Known s.policy
  priority : 0 ≤ s.rtPriority ∧ s.rtPriority ≤ 99

theorem Known.clear (h : Known policy) : Known (policy &&& ~~~schedYield) := by
  unfold Known
  rw [BitVec.and_assoc, BitVec.and_self]
  exact h

theorem niceToTicks_range (B : Board n ι) (h : -20 ≤ nice ∧ nice ≤ 19) :
    1 ≤ B.niceToTicks nice ∧ B.niceToTicks nice ≤ B.niceToTicks (-20) := by
  unfold Board.niceToTicks
  split_ifs <;> omega

theorem niceToTicks_le (B : Board n ι) : B.niceToTicks (-20) ≤ 161 := by
  unfold Board.niceToTicks
  split_ifs <;> omega

theorem sysNice_range {t : Task n} (h : sysNice t increment = .ok nice) :
    -20 ≤ nice ∧ nice ≤ 19 := by
  unfold sysNice at h
  split at h
  · cases h
  · cases h
    omega

theorem permit_sane {t p : Task n} (hp : Known p.policy)
    (h : permit t p policy priority = .ok word) : Known word ∧ 0 ≤ priority ∧ priority ≤ 99 := by
  unfold permit at h
  dsimp only at h
  generalize hw : (if policy < 0 then p.policy else BitVec.ofInt 32 policy) = w at h
  split at h
  · cases h
  · rename_i hword
    split at h
    · cases h
    · rename_i hrange
      split at h
      · cases h
      · split at h
        · cases h
        · split at h
          · cases h
          · cases h
            refine ⟨?_, by omega, by omega⟩
            by_cases hneg : policy < 0
            · rw [← hw, if_pos hneg]
              exact hp
            · by_cases hf : word = schedFifo
              · rw [hf]
                exact .inr (.inl (by decide))
              · by_cases hr : word = schedRr
                · rw [hr]
                  exact .inr (.inr (by decide))
                · by_cases ho : word = schedOther
                  · rw [ho]
                    exact .inl (by decide)
                  · exact absurd ⟨by omega, hf, hr, ho⟩ hword

theorem setscheduler_sane (hs : Known (k.task p).policy)
    (h : B.setscheduler k c pid policy param = .ok (p, word, priority)) :
    Known word ∧ 0 ≤ priority ∧ priority ≤ 99 := by
  unfold Board.setscheduler at h
  split at h
  · cases h
  · split at h <;> cases h
  · split at h
    · cases h
    · split at h
      · cases h
      · obtain ⟨word', hpermit, heq⟩ := map_ok h
        cases heq
        exact permit_sane hs hpermit

/-- The settings of the task are sane, and so is what the CPUs are about to write there. -/
structure SaneInv (B : Board n ι) (k : Kernel n ι) (p : ι) : Prop where
  settings : Sane B (k.task p).settings
  noted : ∀ {c policy}, (k.pc c).noted (k.current c) = some (p, policy) → Known policy
  written : ∀ {c policy priority}, (k.pc c).written = some (p, policy, priority) →
    Known policy ∧ 0 ≤ priority ∧ priority ≤ 99

theorem Adjust.sane (h : Adjust B k p s) (hs : SaneInv B k p) : Sane B s := by
  have hp := hs.settings
  have hnice : -20 ≤ (k.task p).nice ∧ (k.task p).nice ≤ 19 := hp.nice
  have hcounter : 0 ≤ (k.task p).counter ∧
    (k.task p).counter ≤ 2 * B.niceToTicks (-20) := hp.counter
  have hticks := niceToTicks_range B hnice
  cases h with
  | keep => exact hp
  | refill => exact ⟨hp.nice, ⟨by dsimp; omega, by dsimp; omega⟩, hp.policy, hp.priority⟩
  | recalculate => exact ⟨hp.nice, ⟨by dsimp; omega, by dsimp; omega⟩, hp.policy, hp.priority⟩
  | tick hpos => exact ⟨hp.nice, ⟨by dsimp; omega, by dsimp; omega⟩, hp.policy, hp.priority⟩
  | exhaust => exact ⟨hp.nice, ⟨by dsimp; omega, by dsimp; omega⟩, hp.policy, hp.priority⟩
  | yield hother =>
    refine ⟨hp.nice, hp.counter, ?_, hp.priority⟩
    dsimp only
    rw [hother]
    exact .inl (by decide)
  | clear c policy hn => exact ⟨hp.nice, hp.counter, (hs.noted hn).clear, hp.priority⟩
  | write c policy priority hw =>
    have hsane := hs.written hw
    exact ⟨hp.nice, hp.counter, hsane.1, hsane.2⟩
  | nice increment nice hn => exact ⟨sysNice_range hn, hp.counter, hp.policy, hp.priority⟩
  | reparent =>
    have hother : Known schedOther := .inl (by decide)
    exact ⟨⟨by dsimp; omega, by dsimp; omega⟩, hp.counter, hother, hp.priority⟩

end

section
variable [DecidableEq ι] {B : Board n ι} {k k' : Kernel n ι}

omit [DecidableEq ι] in
theorem Effect.sane (h : Effect B a k k') (hs : SaneInv B k p) : SaneInv B k' p where
  settings := (h.settings p).sane hs
  noted hn := by
    rcases h.noted hn with hold | rfl
    · exact hs.noted hold
    · exact hs.settings.policy
  written hw := by
    rcases h.written hw with hold | ⟨pid, policy', param, hset⟩
    · exact hs.written hold
    · exact setscheduler_sane hs.settings.policy hset

theorem run_sane (hb : B.Booted k) (hs : Sane B (k.task p).settings)
    (hr : Relation.ReflTransGen B.system.step k k') : SaneInv B k' p := by
  induction hr with
  | refl =>
    refine ⟨hs, ?_, ?_⟩
    · intro c policy hn
      rw [hb.code c] at hn
      cases hn
    · intro c policy priority hw
      rw [hb.code c] at hw
      cases hw
  | tail _ hstep ih =>
    obtain ⟨a, ha⟩ := hstep
    exact (perform_effect ha).sane ih

/-- From sane settings of a task no run gets to others, whatever stale policy a CPU writes back and
whatever the settings of the other tasks are. -/
theorem settings_sane (hb : B.Booted k) (hs : Sane B (k.task p).settings)
    (hr : Relation.ReflTransGen B.system.step k k') : Sane B (k'.task p).settings :=
  (run_sane hb hs hr).settings

theorem pair_sane (p : Fin 4) (hp : ¬ pair.Idle p) : Sane pair (pairBoot.task p).settings := by
  have hval : ¬ p < 2 := by
    revert p
    decide
  refine ⟨?_, ?_, .inl (by dsimp [pairBoot, pairTask, Task.settings]; decide), ?_⟩
  · simp [pairBoot, pairTask, Task.settings, hval]
  · simp [pairBoot, pairTask, Task.settings, hval, Board.niceToTicks, pair]
  · simp [pairBoot, pairTask, Task.settings]

theorem settings_sane_pair : Sane pair (pairRun.task 2).settings :=
  settings_sane pairBoot_booted (pair_sane 2 (by decide))
    (Board.run_steps (Option.some_get _).symm)

end

end NoblesseOblige.Scheduler
