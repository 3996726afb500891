import NoblesseOblige.Scheduler.Simulation

namespace NoblesseOblige.Scheduler
set_option autoImplicit true

theorem bind_ok {x : Except ε α} {f : α → Except ε β} (h : x.bind f = .ok b) :
    ∃ a, x = .ok a ∧ f a = .ok b := by
  cases x with
  | error e => cases h
  | ok a => exact ⟨a, rfl, h⟩

theorem map_ok {x : Except ε α} {f : α → β} (h : x.map f = .ok b) :
    ∃ a, x = .ok a ∧ b = f a := by
  cases x with
  | error e => cases h
  | ok a =>
    cases h
    exact ⟨a, rfl, rfl⟩

theorem isSome_false {o : Option α} (h : ¬ o.isSome = true) : o = none := by
  cases o with
  | none => rfl
  | some a => exact absurd rfl h

section
variable [DecidableEq ι] {B : Board n ι} {k k' : Kernel n ι}

theorem Core.Step.cast {s t u : Core n ι} (h : Core.Step B s t) (he : u = t) : Core.Step B s u :=
  he ▸ h

theorem Next.soft (hcore : k'.core = k.core) (hidle : IdleInv B k') : Next B k k' :=
  ⟨hcore ▸ .stay, hidle⟩

/-- A CPU goes on to a statement at the same place. -/
theorem Next.goto (hs : IdleInv B k) {l : Pc n ι} (hl : l.loc = (k.pc c).loc)
    (h : l.Spares B (k.current c)) : Next B k (k.goto c l) :=
  .soft (k.core_goto_self hl) (hs.goto c h)

theorem needReschedBack_next (hs : IdleInv B k) (hc : k.pc c = .needReschedBack)
    (h : B.needReschedBack k c = .ok k') : Next B k k' := by
  unfold Board.needReschedBack at h
  split at h
  · cases h
  · rename_i hk
    obtain ⟨k₁, h₁, h⟩ := bind_ok h
    obtain ⟨k₂, h₂, rfl⟩ := map_ok h
    obtain ⟨hs₁, rq, hrq, hcore₁⟩ := moveExhausted_spec hs h₁
    have hs₂ := hs₁.leave h₂
    have hloc : k.core.loc c = .settled := congrArg Pc.loc hc
    have hsoft := k₂.core_soft (k.current c) (f := fun t => { t with needResched := 0 })
      ⟨rfl, rfl, rfl, rfl, rfl, rfl⟩
    refine ⟨?_, (hs₂.keep _ rfl rfl).repeatSchedule c⟩
    rw [repeatSchedule_core, hsoft]
    rcases leave_spec h₂ with hcore₂ | ⟨hst, hq, hcore₂⟩
    · rw [hcore₂, hcore₁]
      exact .enter c rq hloc (isSome_false hk) hrq
    · rw [hcore₁] at hst hq
      rw [hcore₂, hcore₁]
      have hrun : k₁.runqueue = rq := congrArg Core.runqueue hcore₁
      have hnr : k₁.nrRunning = k.nrRunning := congrArg Core.nrRunning hcore₁
      rw [hrun, hnr]
      have hi : ¬ B.Idle (k.current c) := fun hi => hst (hs.state hi)
      exact .sleep c rq hloc (isSome_false hk) hi hst hq hrq

theorem canSchedule_runnable {p : Task n} {cpu : Fin n} (h : p.canSchedule cpu = true) :
    p.cpusRunnable &&& bit cpu ≠ 0 := by
  intro hz
  have hand : p.cpusRunnable &&& p.cpusAllowed &&& bit cpu =
      p.cpusAllowed &&& (p.cpusRunnable &&& bit cpu) := by
    ac_rfl
  have hz' : p.cpusAllowed &&& (p.cpusRunnable &&& bit cpu) = 0 := by
    rw [hz]
    exact BitVec.and_zero
  rw [Task.canSchedule, hand, hz'] at h
  simp at h

theorem examine_next (hs : IdleInv B k) (hc : k.pc c = .scan (p :: rest) w next) :
    Next B k (B.examine k c p rest w next) := by
  have hloc : k.core.loc c = .scanning (p :: rest) next := congrArg Pc.loc hc
  unfold Board.examine
  dsimp only
  split
  · rename_i hcan
    refine ⟨?_, hs.goto c trivial⟩
    rw [k.core_goto]
    exact .examine c p rest next p hloc (.inr ⟨rfl, canSchedule_runnable hcan.1⟩)
  · refine ⟨?_, hs.goto c trivial⟩
    rw [k.core_goto]
    exact .examine c p rest next next hloc (.inl rfl)

theorem choose_next (hs : IdleInv B k) (hc : k.pc c = .scan [] w next) :
    Next B k (B.choose k c w next) := by
  have hloc : k.core.loc c = .scanning [] next := congrArg Pc.loc hc
  unfold Board.choose
  split
  · have hgoto := hs.goto c (l := .recalculate B.tasks) trivial
    refine ⟨?_, hgoto.state, hgoto.policy, hgoto.spares⟩
    have hcore := congrArg (fun s => { s with lock := none })
      (k.core_goto c (.recalculate B.tasks))
    exact Core.Step.cast (.exhaust c next hloc) hcore
  · dsimp only
    have hset := hs.keep next (f := fun t => t.setCpu (k.thisCpu c)) rfl rfl
    have hgoto := hset.goto c (l := if k.current c = next then .same else .switchTo next) (by
      split <;> trivial)
    refine ⟨?_, hgoto.state, hgoto.policy, hgoto.spares⟩
    have hcore := ((k.modify next fun t => t.setCpu (k.thisCpu c)).core_goto c
      (if k.current c = next then .same else .switchTo next))
    rw [k.core_setCpu] at hcore
    have hstep := Core.Step.choose (B := B) c next hloc
    have hpc : (if k.current c = next then Pc.same else Pc.switchTo next : Pc n ι).loc =
        if k.core.current c = next then .settled else .switching next :=
      apply_ite Pc.loc (k.current c = next) ..
    rw [hpc] at hcore
    have hfull := congrArg (fun s =>
      { s with curr := Function.update k.curr (k.thisCpu c) next, lock := none }) hcore
    exact hstep.cast hfull

theorem borrowMm_spec (h : k.borrowMm oldmm next = .ok k') :
    k'.core = k.core.borrow oldmm next := by
  unfold Kernel.borrowMm at h
  split at h
  · rename_i hm
    split at h
    · cases h
    · cases h
      have hcore := k.core_activeMm next (some oldmm)
      have hnone : k.core.mm next = none := hm
      unfold Core.borrow
      rw [if_pos hnone, if_pos hnone]
      exact congrArg (fun s =>
        { s with mmCount := Function.update k.mmCount oldmm (k.mmCount oldmm + 1) }) hcore
  · rename_i mm hm
    split at h
    · cases h
    · cases h
      have hsome : k.core.mm next ≠ none := by
        rw [show k.core.mm next = some mm from hm]
        exact nofun
      unfold Core.borrow
      rw [if_neg hsome, if_neg hsome]

theorem IdleInv.borrowMm (hs : IdleInv B k) (h : k.borrowMm oldmm next = .ok k') :
    IdleInv B k' := by
  unfold Kernel.borrowMm at h
  split at h
  · split at h
    · cases h
    · cases h
      have hkeep := hs.keep next (f := fun t => { t with activeMm := some oldmm }) rfl rfl
      exact ⟨hkeep.state, hkeep.policy, hkeep.spares⟩
  · split at h
    · cases h
    · cases h
      exact hs

theorem returnMm_core (k : Kernel n ι) (oldmm : Nat) (prev : ι) :
    (k.returnMm oldmm prev).core = k.core.giveBack oldmm prev := by
  have hcore := k.core_activeMm prev none
  unfold Kernel.returnMm Core.giveBack
  by_cases hm : (k.task prev).mm = none
  · have hnone : k.core.mm prev = none := hm
    rw [if_pos hm, if_pos hnone, if_pos hnone]
    exact congrArg (fun s =>
      { s with mmCount := Function.update k.mmCount oldmm (k.mmCount oldmm - 1) }) hcore
  · have hsome : ¬ k.core.mm prev = none := hm
    rw [if_neg hm, if_neg hsome, if_neg hsome]

theorem IdleInv.returnMm (hs : IdleInv B k) (oldmm : Nat) (prev : ι) :
    IdleInv B (k.returnMm oldmm prev) := by
  unfold Kernel.returnMm
  split
  · have hkeep := hs.keep prev (f := fun t => { t with activeMm := none }) rfl rfl
    exact ⟨hkeep.state, hkeep.policy, hkeep.spares⟩
  · exact hs

theorem switchTo_next (hs : IdleInv B k) (hc : k.pc c = .switchTo next)
    (h : k.switchTo c cycles next = .ok k') : Next B k k' := by
  have hloc : k.core.loc c = .switching next := congrArg Pc.loc hc
  unfold Kernel.switchTo at h
  dsimp only at h
  split at h
  · cases h
  · rename_i oldmm hm
    obtain ⟨k₁, h₁, rfl⟩ := map_ok h
    have hcore₁ := borrowMm_spec h₁
    have hgoto := ((hs.borrowMm h₁).returnMm oldmm (k.current c)).goto c
      (l := .tail (k.current c)) trivial
    have hcur : (k₁.returnMm oldmm (k.current c)).current = k.current := by
      have hcore := congrArg Core.current (returnMm_core k₁ oldmm (k.current c))
      rw [hcore₁] at hcore
      exact hcore
    constructor
    · have hcore := (k₁.returnMm oldmm (k.current c)).core_goto c (.tail (k.current c))
      rw [returnMm_core, hcore₁] at hcore
      have hk₁ : k₁.current = k.current := congrArg Core.current hcore₁
      have hstep := Core.Step.switch (B := B) c next oldmm hloc hm
      have hfull := congrArg (fun s =>
        { s with current := Function.update k₁.current c next }) hcore
      rw [hk₁] at hfull
      rw [hk₁]
      exact hstep.cast hfull
    · refine ⟨hgoto.state, hgoto.policy, fun d => ?_⟩
      by_cases hd : d = c
      · subst hd
        simp [Kernel.goto, Pc.Spares]
      · have hk₁ : k₁.current = k.current := congrArg Core.current hcore₁
        have hspares := hgoto.spares d
        simp only [Kernel.goto, Function.update_of_ne hd, hcur] at hspares ⊢
        rwa [hk₁]

theorem push_next (hs : IdleInv B k) (hc : k.pc c = .push prev) (h : B.push k c prev = .ok k') :
    Next B k k' := by
  have hgoto := hs.goto c (l := .sameProcess) trivial
  have hcore : (k.goto c .sameProcess).core = k.core := k.core_goto_self (by rw [hc]; rfl)
  unfold Board.push at h
  split at h
  · cases h
  · cases h
    split
    · exact .soft ((rescheduleIdle_core ..).trans hcore) (hgoto.rescheduleIdle ..)
    · exact .soft hcore hgoto

theorem moveLast_next (hs : IdleInv B k) (hc : k.pc c = .yielding) (hk : k.lock = none)
    (h : k.moveLastRunqueue (k.current c) = .ok k') : Next B k (k'.goto c .code) := by
  have hi : ¬ B.Idle (k.current c) := by
    have hspares := hs.spares c
    rwa [hc] at hspares
  unfold Kernel.moveLastRunqueue at h
  split at h
  · rename_i hq
    cases h
    have hgoto := hs.goto c (l := .code) trivial
    refine ⟨?_, hgoto.state, hgoto.policy, hgoto.spares⟩
    have hcore : (k.goto c .code).core = k.core := k.core_goto_self (by rw [hc]; rfl)
    have hstep := Core.Step.move (B := B) (s := k.core) (k.current c) _ hk (.inr ⟨hi, hq, rfl⟩)
    exact hstep.cast (congrArg (fun s =>
      { s with runqueue := k.runqueue.erase (k.current c) ++ [k.current c] }) hcore)
  · cases h

theorem setting_next (hs : IdleInv B k) (hc : k.pc c = .setting p policy priority)
    (h : B.advance k c cycles = .ok k') : Next B k k' := by
  have hi : ¬ B.Idle p := by
    have hspares := hs.spares c
    rwa [hc] at hspares
  simp only [Board.advance, hc] at h
  cases h
  have hset := hs.modify p (f := fun t => { t with policy := policy, rtPriority := priority })
    fun hp => absurd hp hi
  have hneed := hset.keep (k.current c) (f := fun t => { t with needResched := 1 }) rfl rfl
  have hgoto := hneed.goto c (l := .code) trivial
  refine ⟨?_, hgoto.state, hgoto.policy, hgoto.spares⟩
  have hcore := Kernel.core_goto ((k.modify p fun t =>
    { t with policy := policy, rtPriority := priority }).modify (k.current c) fun t =>
      { t with needResched := 1 }) c .code
  rw [Kernel.core_soft _ _ ⟨rfl, rfl, rfl, rfl, rfl, rfl⟩,
    Kernel.core_soft _ _ ⟨rfl, rfl, rfl, rfl, rfl, rfl⟩] at hcore
  have hloc : k.core.loc c = .writing := congrArg Pc.loc hc
  exact (Core.Step.write c hloc).cast (congrArg (fun s => { s with lock := none }) hcore)

/-- A statement that writes a field of a task which does not decide who runs where. -/
theorem Next.modify_goto (hs : IdleInv B k) (p : ι) {f : Task n → Task n} {l : Pc n ι}
    (hf : (k.task p).Soft (f (k.task p)))
    (hpol : B.Idle p → (f (k.task p)).policy = schedOther)
    (hl : l.loc = (k.pc c).loc) (h : l.Spares B (k.current c)) :
    Next B k ((k.modify p f).goto c l) := by
  have hcore : ((k.modify p f).goto c l).core = (k.modify p f).core :=
    Kernel.core_goto_self _ hl
  refine .soft (hcore.trans (k.core_soft p hf)) ?_
  exact (hs.modify p fun hp => ⟨hf.state.trans (hs.state hp), hpol hp⟩).goto c h

theorem Next.modify (hs : IdleInv B k) (p : ι) {f : Task n → Task n}
    (hf : (k.task p).Soft (f (k.task p)))
    (hpol : B.Idle p → (f (k.task p)).policy = schedOther) : Next B k (k.modify p f) := by
  refine .soft (k.core_soft p hf) ?_
  exact hs.modify p fun hp => ⟨hf.state.trans (hs.state hp), hpol hp⟩

theorem clear_yield (h : policy = schedOther) : policy &&& ~~~schedYield = schedOther := by
  rw [h]
  decide

theorem advance_next (hs : IdleInv B k) (h : B.advance k c cycles = .ok k') : Next B k k' := by
  have hspares := hs.spares c
  cases hc : k.pc c with
  | code =>
    simp only [Board.advance, hc] at h
    cases h
  | pending rest nr =>
    rw [hc] at hspares
    cases rest with
    | cons cpu cpus =>
      simp only [Board.advance, hc] at h
      cases h
      exact .goto hs (by rw [hc]; rfl) hspares
    | nil =>
      simp only [Board.advance, hc] at h
      split at h
      · cases h
        exact .goto hs (by rw [hc]; rfl) trivial
      · cases h
        exact .modify_goto hs _ ⟨rfl, rfl, rfl, rfl, rfl, rfl⟩ (fun hp => absurd hp hspares)
          (by rw [hc]; rfl) hspares
  | yielding =>
    simp only [Board.advance, hc] at h
    split at h
    · cases h
    · rename_i hk
      obtain ⟨k₁, h₁, rfl⟩ := map_ok h
      exact moveLast_next hs hc (isSome_false hk) h₁
  | needReschedBack =>
    simp only [Board.advance, hc] at h
    exact needReschedBack_next hs hc h
  | scan rest w next =>
    cases rest with
    | cons p rest =>
      simp only [Board.advance, hc] at h
      cases h
      exact examine_next hs hc
    | nil =>
      simp only [Board.advance, hc] at h
      cases h
      exact choose_next hs hc
  | recalculate rest =>
    cases rest with
    | cons p rest =>
      simp only [Board.advance, hc] at h
      cases h
      exact .modify_goto hs p ⟨rfl, rfl, rfl, rfl, rfl, rfl⟩ (fun hp => hs.policy hp)
        (by rw [hc]; rfl) trivial
    | nil =>
      simp only [Board.advance, hc] at h
      cases h
      exact .goto hs (by rw [hc]; rfl) trivial
  | relock =>
    simp only [Board.advance, hc] at h
    split at h
    · cases h
    · rename_i hk
      cases h
      have hloc : k.core.loc c = .between := congrArg Pc.loc hc
      have hstep := Core.Step.relock (B := B) c hloc (isSome_false hk)
      exact ⟨hstep.cast (repeatSchedule_core B k c), hs.repeatSchedule c⟩
  | same =>
    simp only [Board.advance, hc] at h
    cases h
    exact .goto hs (by rw [hc]; rfl) fun hi => hs.policy hi
  | sameClear policy =>
    rw [hc] at hspares
    simp only [Board.advance, hc] at h
    cases h
    exact .modify_goto hs _ ⟨rfl, rfl, rfl, rfl, rfl, rfl⟩
      (fun hp => clear_yield (hspares hp)) (by rw [hc]; rfl) trivial
  | switchTo next =>
    simp only [Board.advance, hc] at h
    exact switchTo_next hs hc h
  | tail prev =>
    simp only [Board.advance, hc] at h
    cases h
    exact .goto hs (by rw [hc]; rfl) fun hi => hs.policy hi
  | tailClear prev policy =>
    rw [hc] at hspares
    simp only [Board.advance, hc] at h
    cases h
    exact .modify_goto hs _ ⟨rfl, rfl, rfl, rfl, rfl, rfl⟩
      (fun hp => clear_yield (hspares hp)) (by rw [hc]; rfl) trivial
  | release prev policy =>
    simp only [Board.advance, hc] at h
    cases h
    have hloc : k.core.loc c = .leaving prev := congrArg Pc.loc hc
    have hcore := (k.modify prev Task.releaseCpu).core_goto c (.check prev policy)
    rw [k.core_releaseCpu] at hcore
    exact ⟨(Core.Step.release c prev hloc).cast hcore, (hs.keep prev rfl rfl).goto c trivial⟩
  | check prev policy =>
    simp only [Board.advance, hc] at h
    split at h
    · cases h
      exact .goto hs (by rw [hc]; rfl) trivial
    · cases h
      exact .goto hs (by rw [hc]; rfl) trivial
  | push prev =>
    simp only [Board.advance, hc] at h
    exact push_next hs hc h
  | sameProcess =>
    simp only [Board.advance, hc] at h
    cases h
    split
    · exact .goto hs (by rw [hc]; rfl) trivial
    · exact .goto hs (by rw [hc]; rfl) trivial
  | setting p policy priority => exact setting_next hs hc h

theorem tryToWakeUp_next (hs : IdleInv B k) (hi : ¬ B.Idle p)
    (h : B.tryToWakeUp k c p synchronous = .ok (k', success)) :
    Next B k k' ∧ success = !(k.task p).queued := by
  unfold Board.tryToWakeUp at h
  split at h
  · cases h
  · rename_i hk
    have hk := isSome_false hk
    dsimp only at h
    have hrun := hs.modify p (f := fun t => { t with state := .running }) fun hp => absurd hp hi
    have hsame : ((k.modify p fun t => { t with state := .running }).task p).queued =
        (k.task p).queued := by
      rw [k.task_modify, if_pos rfl]
    rw [hsame] at h
    split at h
    · rename_i hq
      cases h
      have hqc : k.core.queued p = true := hq
      exact ⟨⟨(Core.Step.rouse p hk hi hqc).cast (k.core_state p .running), hrun⟩, by rw [hq]; rfl⟩
    · rename_i hq
      obtain ⟨k₁, h₁, hpair⟩ := map_ok h
      have hq : (k.task p).queued = false := by simpa using hq
      unfold Kernel.addToRunqueue at h₁
      rw [hsame, hq] at h₁
      cases h₁
      have hadd := hrun.keep p (f := fun t => { t with queued := true }) rfl rfl
      have hcore := Kernel.core_queued (k.modify p fun t => { t with state := .running }) p true
      rw [k.core_state] at hcore
      have hstep := Core.Step.wake (B := B) (s := k.core) p hk hi hq
      have hfull := hstep.cast (congrArg (fun s =>
        { s with runqueue := k.runqueue ++ [p], nrRunning := k.nrRunning + 1 }) hcore)
      have hidle : IdleInv B
          { ((k.modify p fun t => { t with state := .running }).modify p
              fun t => { t with queued := true }) with
            runqueue := k.runqueue ++ [p]
            nrRunning := k.nrRunning + 1 } := ⟨hadd.state, hadd.policy, hadd.spares⟩
      split at hpair
      · cases hpair
        exact ⟨⟨hfull.cast (rescheduleIdle_core ..), hidle.rescheduleIdle ..⟩, by rw [hq]; rfl⟩
      · cases hpair
        exact ⟨⟨hfull, hidle⟩, by rw [hq]; rfl⟩

theorem setCpusAllowed_next (hs : IdleInv B k) (h : k.setCpusAllowed c p mask = .ok k') :
    Next B k k' := by
  unfold Kernel.setCpusAllowed at h
  dsimp only at h
  have hset := hs.keep p (f := fun t => { t with cpusAllowed := mask &&& onlineMap n }) rfl rfl
  have hcore := k.core_soft p (f := fun t => { t with cpusAllowed := mask &&& onlineMap n })
    ⟨rfl, rfl, rfl, rfl, rfl, rfl⟩
  split at h
  · cases h
  · split at h
    · cases h
      have hneed := hset.keep p (f := fun t => { t with needResched := 1 }) rfl rfl
      have hcore₂ := (k.modify p fun t =>
        { t with cpusAllowed := mask &&& onlineMap n }).core_soft p
        (f := fun t => { t with needResched := 1 }) ⟨rfl, rfl, rfl, rfl, rfl, rfl⟩
      exact .soft (hcore₂.trans hcore) ⟨hneed.state, hneed.policy, hneed.spares⟩
    · cases h
      exact .soft hcore hset

omit [DecidableEq ι] in
theorem Board.Busy.code (h : B.Busy k c) : k.pc c = .code := by
  have hcode := h.1
  cases hc : k.pc c with
  | code => rfl
  | _ => simp [hc] at hcode

omit [DecidableEq ι] in
theorem setscheduler_busy (hi : ¬ B.Idle (k.current c))
    (h : B.setscheduler k c pid policy param = .ok (p, word, v)) : ¬ B.Idle p := by
  have hfind {q : ι} (hq : B.findProcess k c pid = some q) : ¬ B.Idle q := by
    unfold Board.findProcess at hq
    split at hq
    · cases hq
      exact hi
    · rintro ⟨d, rfl⟩
      exact B.find_busy hq
  unfold Board.setscheduler at h
  split at h
  · cases h
  · split at h <;> cases h
  · split at h
    · cases h
    · split at h
      · cases h
      · rename_i q hq
        obtain ⟨w, _, he⟩ := map_ok h
        cases he
        exact hfind hq

/-- Every event is a step of the level above, and spares the idle tasks. -/
theorem perform_next (hs : IdleInv B k) (h : B.perform k a = .ok k') : Next B k k' := by
  cases a with
  | advance c cycles => exact advance_next hs h
  | schedule c =>
    simp only [Board.perform] at h
    split at h
    · rename_i hc
      split at h
      · cases h
      · cases h
        exact .goto hs (by rw [hc]; rfl) trivial
    · cases h
  | setState c state =>
    simp only [Board.perform] at h
    split at h
    · rename_i hb
      cases h
      have hloc : k.core.loc c = .settled := congrArg Pc.loc hb.code
      refine ⟨(Core.Step.doze c state hloc hb.2).cast (k.core_state _ _), ?_⟩
      exact hs.modify _ fun hp => absurd hp hb.2
    · cases h
  | yield c =>
    simp only [Board.perform] at h
    split at h
    · rename_i hb
      cases h
      exact .goto hs (by rw [hb.code]; rfl) hb.2
    · cases h
  | nice c increment =>
    simp only [Board.perform] at h
    split at h
    · split at h
      · cases h
        exact .soft rfl hs
      · cases h
        exact .modify hs _ ⟨rfl, rfl, rfl, rfl, rfl, rfl⟩ fun hp => hs.policy hp
    · cases h
  | setscheduler c pid policy param =>
    simp only [Board.perform] at h
    split at h
    · rename_i hb
      split at h
      · cases h
        exact .soft rfl hs
      · rename_i p word v hset
        cases h
        have hloc : k.core.loc c = .settled := congrArg Pc.loc hb.1.code
        have hgoto := hs.goto c (l := .setting p word v) (setscheduler_busy hb.1.2 hset)
        refine ⟨?_, hgoto.state, hgoto.policy, hgoto.spares⟩
        exact (Core.Step.seize c hloc hb.2).cast
          (congrArg (fun s => { s with lock := some c }) (k.core_goto c (.setting p word v)))
    · cases h
  | reparent c =>
    simp only [Board.perform] at h
    split at h
    · cases h
      exact .modify hs _ ⟨rfl, rfl, rfl, rfl, rfl, rfl⟩ fun _ => rfl
    · cases h
  | allow c p newMask =>
    simp only [Board.perform] at h
    split at h
    · exact setCpusAllowed_next hs h
    · cases h
  | wake c p synchronous =>
    simp only [Board.perform] at h
    split at h
    · cases h
    · rename_i hi
      obtain ⟨⟨k₁, success⟩, h₁, rfl⟩ := map_ok h
      exact (tryToWakeUp_next hs hi h₁).1
  | tick c =>
    simp only [Board.perform] at h
    split at h
    · cases h
    · rename_i hi
      cases h
      refine .modify hs _ ?_ fun hp => absurd (.inr hp) hi
      split <;> exact ⟨rfl, rfl, rfl, rfl, rfl, rfl⟩
  | signal p sigpending =>
    simp only [Board.perform] at h
    cases h
    exact .modify hs p ⟨rfl, rfl, rfl, rfl, rfl, rfl⟩ fun hp => hs.policy hp
  | handle c =>
    simp only [Board.perform] at h
    cases h
    exact .soft rfl ⟨hs.state, hs.policy, hs.spares⟩

end

end NoblesseOblige.Scheduler
