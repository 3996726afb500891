import NoblesseOblige.Scheduler.Queue

namespace NoblesseOblige.Scheduler.Core
set_option autoImplicit true

section
variable {B : Board n ι} {s s' : Core n ι} {c d : Fin n}

/-- Steps that leave the states alone and keep the CPUs where a task may be about to sleep. -/
theorem StateInv.of_drowsy (hs : StateInv B s) (hm : ∀ p, p ∈ s'.runqueue ↔ p ∈ s.runqueue)
    (hst : s'.state = s.state)
    (hw : ∀ d, (s.loc d).drowsy = true → s'.current d = s.current d ∧ (s'.loc d).drowsy = true) :
    StateInv B s' where
  awake hi hr := by
    rw [hm]
    rw [hst] at hr
    exact hs.awake hi hr
  asleep {p} hp hr := by
    rw [hm] at hp
    rw [hst] at hr
    obtain ⟨d, hd, hl⟩ := hs.asleep hp hr
    obtain ⟨hcur, hl⟩ := hw d hl
    exact ⟨d, hcur.trans hd, hl⟩

theorem drowsy_update (hc : (s.loc c).drowsy = false ∨ l.drowsy = true)
    (hd : (s.loc d).drowsy = true) :
    (Function.update s.loc c l d).drowsy = true := by
  by_cases he : d = c
  · subst he
    rw [Function.update_self]
    rcases hc with hc | hc
    · rw [hc] at hd
      cases hd
    · exact hc
  · rwa [Function.update_of_ne he]

theorem PlaceInv.current_mem (hp : PlaceInv B s) (hc : (s.loc c).queued = true)
    (hi : ¬ B.Idle (s.current c)) : s.current c ∈ s.runqueue :=
  (hp.current hc).resolve_left fun h => hi ⟨c, h.symm⟩

end

section
variable [DecidableEq ι] {B : Board n ι} {s s' : Core n ι} {c d : Fin n}

theorem StateInv.enter (hs : StateInv B s) (hp : PlaceInv B s) (hc : s.loc c = .settled)
    (hm : ∀ p, p ∈ s'.runqueue ↔ p ∈ s.runqueue)
    (hst : s'.state = Function.update s.state (s.current c) .running)
    (hcur : s'.current = s.current) (hloc : s'.loc = Function.update s.loc c l) :
    StateInv B s' where
  awake {p} hi hr := by
    rw [hm]
    rw [hst] at hr
    by_cases he : p = s.current c
    · subst he
      exact hp.current_mem (by rw [hc]; rfl) hi
    · rw [Function.update_of_ne he] at hr
      exact hs.awake hi hr
  asleep {p} hq hr := by
    rw [hm] at hq
    rw [hst] at hr
    have he : p ≠ s.current c := by
      rintro rfl
      exact hr (Function.update_self ..)
    rw [Function.update_of_ne he] at hr
    obtain ⟨d, hd, hl⟩ := hs.asleep hq hr
    have hne : d ≠ c := by
      rintro rfl
      exact he hd.symm
    refine ⟨d, by rw [hcur, hd], ?_⟩
    rwa [hloc, Function.update_of_ne hne]

theorem StateInv.sleep (hs : StateInv B s) (hq : QueueInv B s)
    (hst : s.state (s.current c) ≠ .running)
    (hrq : s'.runqueue = s.runqueue.erase (s.current c)) (hst' : s'.state = s.state)
    (hcur : s'.current = s.current) (hloc : s'.loc = Function.update s.loc c l) :
    StateInv B s' where
  awake {p} hi hr := by
    rw [hst'] at hr
    have he : p ≠ s.current c := by
      rintro rfl
      exact hst hr
    rw [hrq]
    exact (List.mem_erase_of_ne he).mpr (hs.awake hi hr)
  asleep {p} hp hr := by
    rw [hst'] at hr
    rw [hrq, hq.nodup.mem_erase_iff] at hp
    obtain ⟨d, hd, hl⟩ := hs.asleep hp.2 hr
    have hne : d ≠ c := by
      rintro rfl
      exact hp.1 hd.symm
    refine ⟨d, by rw [hcur, hd], ?_⟩
    rwa [hloc, Function.update_of_ne hne]

/-- `try_to_wake_up` -/
theorem StateInv.wake (hs : StateInv B s) (hm : ∀ q, q ∈ s'.runqueue ↔ q ∈ s.runqueue ∨ q = p)
    (hst : s'.state = Function.update s.state p .running) (hcur : s'.current = s.current)
    (hloc : s'.loc = s.loc) : StateInv B s' where
  awake {q} hi hr := by
    rw [hm]
    rw [hst] at hr
    by_cases he : q = p
    · exact .inr he
    · rw [Function.update_of_ne he] at hr
      exact .inl (hs.awake hi hr)
  asleep {q} hq hr := by
    rw [hst] at hr
    have he : q ≠ p := by
      rintro rfl
      exact hr (Function.update_self ..)
    rw [Function.update_of_ne he] at hr
    rw [hcur, hloc]
    exact hs.asleep (((hm q).mp hq).resolve_right he) hr

theorem StateInv.doze (hs : StateInv B s) (hp : PlaceInv B s) (hc : s.loc c = .settled)
    (hrq : s'.runqueue = s.runqueue) (hst : s'.state = Function.update s.state (s.current c) st)
    (hcur : s'.current = s.current) (hloc : s'.loc = s.loc) : StateInv B s' where
  awake {p} hi hr := by
    rw [hrq]
    rw [hst] at hr
    by_cases he : p = s.current c
    · subst he
      exact hp.current_mem (by rw [hc]; rfl) hi
    · rw [Function.update_of_ne he] at hr
      exact hs.awake hi hr
  asleep {p} hq hr := by
    rw [hrq] at hq
    rw [hst] at hr
    rw [hcur, hloc]
    by_cases he : p = s.current c
    · exact ⟨c, he.symm, by rw [hc]; rfl⟩
    · rw [Function.update_of_ne he] at hr
      exact hs.asleep hq hr

theorem StateInv.step (hs : StateInv B s) (hq : QueueInv B s) (hp : PlaceInv B s)
    (h : Step B s s') : StateInv B s' := by
  cases h with
  | stay => exact hs
  | move p rq hk hr =>
    exact hs.of_drowsy (fun _ => (hr.perm hq).mem_iff) rfl fun _ hd => ⟨rfl, hd⟩
  | enter c rq hc hk hr => exact hs.enter hp hc (fun _ => (hr.perm hq).mem_iff) rfl rfl rfl
  | sleep c rq hc hk hi hst hqd hr =>
    have hmoved : StateInv B { s with runqueue := rq } :=
      hs.of_drowsy (fun _ => (hr.perm hq).mem_iff) rfl fun _ hd => ⟨rfl, hd⟩
    have hqueue : QueueInv B { s with runqueue := rq } := hq.of_perm (hr.perm hq) rfl rfl
    exact hmoved.sleep hqueue hst rfl rfl rfl rfl
  | relock c hc =>
    exact hs.of_drowsy (fun _ => .rfl) rfl
      fun d hd => ⟨rfl, drowsy_update (.inl (by rw [hc]; rfl)) hd⟩
  | examine c p rest next next' hc =>
    exact hs.of_drowsy (fun _ => .rfl) rfl
      fun d hd => ⟨rfl, drowsy_update (.inl (by rw [hc]; rfl)) hd⟩
  | exhaust c next hc =>
    exact hs.of_drowsy (fun _ => .rfl) rfl
      fun d hd => ⟨rfl, drowsy_update (.inl (by rw [hc]; rfl)) hd⟩
  | choose c next hc =>
    exact hs.of_drowsy (fun _ => .rfl) rfl
      fun d hd => ⟨rfl, drowsy_update (.inl (by rw [hc]; rfl)) hd⟩
  | switch c next oldmm hc =>
    refine hs.of_drowsy (fun _ => .rfl) rfl
      fun d hd => ⟨?_, drowsy_update (.inl (by rw [hc]; rfl)) hd⟩
    have hne : d ≠ c := by
      rintro rfl
      rw [hc] at hd
      cases hd
    exact Function.update_of_ne hne ..
  | release c prev hc =>
    exact hs.of_drowsy (fun _ => .rfl) rfl fun d hd => ⟨rfl, drowsy_update (.inr rfl) hd⟩
  | rouse p hk hi hqd =>
    have hmem := (hq.queued hi).mp hqd
    refine hs.wake (fun q => ?_) rfl rfl rfl
    exact ⟨.inl, fun h => h.elim id fun h => h ▸ hmem⟩
  | wake p hk hi hqd =>
    refine hs.wake (fun q => ?_) rfl rfl rfl
    simp
  | doze c st hc hi => exact hs.doze hp hc rfl rfl rfl rfl
  | seize c hc hk =>
    exact hs.of_drowsy (fun _ => .rfl) rfl fun d hd => ⟨rfl, drowsy_update (.inr rfl) hd⟩
  | write c hc =>
    exact hs.of_drowsy (fun _ => .rfl) rfl fun d hd => ⟨rfl, drowsy_update (.inr rfl) hd⟩

theorem activeMm_switch (s : Core n ι) (oldmm : Nat) (next prev p : ι) :
    ((s.borrow oldmm next).giveBack oldmm prev).activeMm p =
      if p = prev ∧ s.mm p = none then none
      else if p = next ∧ s.mm p = none then some oldmm else s.activeMm p := by
  have hborrow : (s.borrow oldmm next).activeMm p =
      if p = next ∧ s.mm p = none then some oldmm else s.activeMm p := by
    by_cases hp : p = next
    · subst hp
      by_cases hm : s.mm p = none
      · simp [borrow, hm]
      · simp [borrow, hm]
    · simp only [borrow, hp, false_and, if_false]
      split
      · exact Function.update_of_ne hp ..
      · rfl
  by_cases hp : p = prev
  · subst hp
    by_cases hm : s.mm p = none
    · simp [giveBack, borrow, hm]
    · rw [if_neg fun h => hm h.2, ← hborrow]
      simp [giveBack, borrow, hm]
  · rw [if_neg fun h => hp h.1, ← hborrow]
    simp only [giveBack]
    split
    · exact Function.update_of_ne hp ..
    · rfl

/-- The task a CPU switches to borrows what the one before gives back. -/
theorem MmInv.switch (hs : MmInv s) (ho : OwnInv B s) (hc : s.loc c = .switching next)
    (hm : s'.mm = s.mm) (ha : s'.activeMm = ((s.borrow oldmm next).giveBack oldmm
      (s.current c)).activeMm) (hcur : s'.current = Function.update s.current c next) :
    MmInv s' where
  own {p m} h := by
    rw [hm] at h
    rw [ha, activeMm_switch]
    simp only [h, reduceCtorEq, and_false, if_false]
    exact hs.own h
  lazy {p} h := by
    rw [hm] at h
    rw [ha, activeMm_switch, hcur]
    simp only [h, and_true]
    have hne := (ho.chosen hc).1
    have hrun (d : Fin n) : Function.update s.current c next d = p ↔
        d = c ∧ p = next ∨ d ≠ c ∧ s.current d = p := by
      by_cases hd : d = c
      · subst hd
        simp [eq_comm]
      · simp [hd]
    simp only [hrun]
    by_cases hv : p = s.current c
    · subst hv
      rw [if_pos rfl]
      refine ⟨fun h => absurd rfl h, ?_⟩
      rintro ⟨d, ⟨_, he⟩ | ⟨hd, he⟩⟩
      · exact absurd he.symm hne
      · exact absurd (ho.exclusive (.inl he) (.inl rfl)) hd
    · rw [if_neg hv]
      by_cases hn : p = next
      · rw [if_pos hn]
        exact ⟨fun _ => ⟨c, .inl ⟨rfl, hn⟩⟩, fun _ => nofun⟩
      · rw [if_neg hn, hs.lazy h]
        constructor
        · rintro ⟨d, hd⟩
          refine ⟨d, .inr ⟨?_, hd⟩⟩
          rintro rfl
          exact hv hd.symm
        · rintro ⟨d, ⟨_, he⟩ | ⟨_, hd⟩⟩
          · exact absurd he hn
          · exact ⟨d, hd⟩

theorem MmInv.step (hs : MmInv s) (ho : OwnInv B s) (h : Step B s s') : MmInv s' := by
  cases h with
  | switch c next oldmm hc => exact hs.switch ho hc rfl rfl rfl
  | _ => exact ⟨hs.own, hs.lazy⟩

theorem Inv.step (hs : Inv B s) (h : Step B s s') : Inv B s' where
  lock := hs.lock.step h
  own := by
    refine hs.own.step hs.lock ?_ h
    intro c rest next hc p hp
    exact hs.queue.busy ((hs.place.rest hc).1.subset hp)
  queue := hs.queue.step h
  place := hs.place.step hs.lock hs.own hs.queue h
  state := hs.state.step hs.queue hs.place h
  mm := hs.mm.step hs.own h

end

end NoblesseOblige.Scheduler.Core
