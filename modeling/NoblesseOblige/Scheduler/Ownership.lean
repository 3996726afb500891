import NoblesseOblige.Scheduler.Core

namespace NoblesseOblige.Scheduler
set_option autoImplicit true

theorem bit_eq_twoPow (c : Fin n) : bit c = BitVec.twoPow 32 c.val := rfl

theorem and_bit_ne_zero (hn : n ≤ 32) (x : BitVec 32) (c : Fin n) :
    x &&& bit c ≠ 0 ↔ x.getLsbD c.val = true := by
  have hc : c.val < 32 := Nat.lt_of_lt_of_le c.isLt hn
  have hpow : BitVec.twoPow 32 c.val ≠ 0#32 := by
    intro h
    have hbit := congrArg (fun y => y.getLsbD c.val) h
    simp [hc] at hbit
  rw [bit_eq_twoPow, BitVec.and_twoPow]
  cases x.getLsbD c.val with
  | false => simp
  | true => simpa using hpow

theorem bit_getLsbD (hn : n ≤ 32) (c d : Fin n) : (bit c).getLsbD d.val = true ↔ c = d := by
  have hd : d.val < 32 := Nat.lt_of_lt_of_le d.isLt hn
  rw [bit_eq_twoPow, BitVec.getLsbD_twoPow]
  simp only [Bool.and_eq_true, decide_eq_true_eq, Fin.ext_iff]
  omega

theorem bit_inj (hn : n ≤ 32) {c d : Fin n} (h : bit c = bit d) : c = d :=
  (bit_getLsbD hn c d).mp (h ▸ (bit_getLsbD hn d d).mpr rfl)

theorem bit_ne_allOnes (c : Fin n) : bit c ≠ BitVec.allOnes 32 := by
  intro h
  have h0 := congrArg (fun y => y.getLsbD 0) h
  have h1 := congrArg (fun y => y.getLsbD 1) h
  simp [bit_eq_twoPow] at h0 h1
  omega

theorem allOnes_and_bit (hn : n ≤ 32) (c : Fin n) : BitVec.allOnes 32 &&& bit c ≠ 0 := by
  rw [and_bit_ne_zero hn, BitVec.getLsbD_allOnes]
  exact decide_eq_true (Nat.lt_of_lt_of_le c.isLt hn)

theorem bit_and_bit (hn : n ≤ 32) {c d : Fin n} (h : bit c &&& bit d ≠ 0) : c = d :=
  (bit_getLsbD hn c d).mp ((and_bit_ne_zero hn _ d).mp h)

theorem Loc.eq_switching {l : Loc ι} (h : l.next? = some p) : l = .switching p := by
  cases l with
  | switching next => exact congrArg Loc.switching (Option.some.inj h)
  | _ => cases h

theorem Loc.eq_leaving {l : Loc ι} (h : l.prev? = some p) : l = .leaving p := by
  cases l with
  | leaving prev => exact congrArg Loc.leaving (Option.some.inj h)
  | _ => cases h

namespace Core

section
variable {B : Board n ι} {s s' : Core n ι} {c d : Fin n}

theorem LockInv.take (hs : LockInv s) (hk : s.lock = none) (hl : l.locked = true)
    (hk' : s'.lock = some c) (hloc : s'.loc = Function.update s.loc c l) : LockInv s' := by
  constructor
  intro d
  rw [hk', hloc]
  by_cases hd : d = c
  · subst hd
    simp [hl]
  · have hfree : ¬ (s.loc d).locked = true := by
      rw [← hs.iff d, hk]
      exact nofun
    simp [Function.update_of_ne hd, hfree, Ne.symm hd]

theorem LockInv.drop (hs : LockInv s) (hc : (s.loc c).locked = true) (hl : l.locked = false)
    (hk' : s'.lock = none) (hloc : s'.loc = Function.update s.loc c l) : LockInv s' := by
  constructor
  intro d
  rw [hk', hloc]
  by_cases hd : d = c
  · subst hd
    simp [hl]
  · have hfree : ¬ (s.loc d).locked = true := by
      rw [← hs.iff d, (hs.iff c).mpr hc]
      exact fun h => hd (Option.some.inj h).symm
    simp [Function.update_of_ne hd, hfree]

theorem LockInv.keep (hs : LockInv s) (hl : l.locked = (s.loc c).locked)
    (hk' : s'.lock = s.lock) (hloc : s'.loc = Function.update s.loc c l) : LockInv s' := by
  constructor
  intro d
  rw [hk', hloc, hs.iff d]
  by_cases hd : d = c
  · subst hd
    simp [hl]
  · rw [Function.update_of_ne hd]

theorem LockInv.unique (hs : LockInv s) (hc : (s.loc c).locked = true)
    (hd : (s.loc d).locked = true) : c = d := by
  have h := (hs.iff c).mpr hc
  rw [(hs.iff d).mpr hd] at h
  exact (Option.some.inj h).symm

/-- No two CPUs have the same task. -/
theorem OwnInv.exclusive (hs : OwnInv B s) (hc : s.Held c p) (hd : s.Held d p) : c = d := by
  by_cases hi : B.Idle p
  · obtain ⟨e, rfl⟩ := hi
    exact (hs.idle hc).trans (hs.idle hd).symm
  · exact bit_inj B.cpus_le ((hs.held hc hi).symm.trans (hs.held hd hi))

/-- `task_has_cpu` -/
theorem OwnInv.hasCpu (hs : OwnInv B s) (hi : ¬ B.Idle p) :
    s.runnable p ≠ BitVec.allOnes 32 ↔ ∃ c, s.Held c p := by
  constructor
  · exact fun h => (hs.owned hi).resolve_left h
  · rintro ⟨c, hc⟩
    rw [hs.held hc hi]
    exact bit_ne_allOnes c

/-- Whom a CPU may schedule no other CPU has. -/
theorem OwnInv.of_runnable (hs : OwnInv B s) (hi : ¬ B.Idle p)
    (hr : s.runnable p &&& bit c ≠ 0) (hd : s.Held d p) : d = c :=
  bit_and_bit B.cpus_le (hs.held hd hi ▸ hr)

theorem held_update (hloc : s'.loc = Function.update s.loc c l) (hc : s'.current = s.current)
    (hn : l.next? = (s.loc c).next?) (hv : l.prev? = (s.loc c).prev?) :
    s'.Held d p ↔ s.Held d p := by
  unfold Held
  rw [hc, hloc]
  by_cases hd : d = c
  · subst hd
    simp [hn, hv]
  · rw [Function.update_of_ne hd]

/-- A step of a CPU that neither chooses nor switches nor releases. -/
theorem OwnInv.relocate (hs : OwnInv B s) (hloc : s'.loc = Function.update s.loc c l)
    (hp : s'.processor = s.processor) (hc : s'.current = s.current) (hcurr : s'.curr = s.curr)
    (hr : s'.runnable = s.runnable) (hn : l.next? = (s.loc c).next?)
    (hv : l.prev? = (s.loc c).prev?)
    (hl : ∀ rest next, l = .scanning rest next →
      next = B.idleTask c ∨ ¬ B.Idle next ∧ s.runnable next &&& bit c ≠ 0) : OwnInv B s' where
  home d := by
    rw [hp, hc]
    exact hs.home d
  curr d := by
    have hnext : (s'.loc d).next? = (s.loc d).next? := by
      rw [hloc]
      by_cases hd : d = c
      · subst hd
        rw [Function.update_self, hn]
      · rw [Function.update_of_ne hd]
    rw [hcurr, hc, hnext]
    exact hs.curr d
  held h hi := by
    rw [hr]
    exact hs.held ((held_update hloc hc hn hv).mp h) hi
  idle h := hs.idle ((held_update hloc hc hn hv).mp h)
  owned hi := by
    rw [hr]
    rcases hs.owned hi with h | ⟨d, h⟩
    · exact .inl h
    · exact .inr ⟨d, (held_update hloc hc hn hv).mpr h⟩
  candidate {d rest next} h := by
    rw [hr]
    rw [hloc] at h
    by_cases hd : d = c
    · subst hd
      rw [Function.update_self] at h
      exact hl rest next h
    · rw [Function.update_of_ne hd] at h
      exact hs.candidate h
  chosen {d next} h := by
    rw [hp, hc]
    apply hs.chosen
    rw [hloc] at h
    by_cases hd : d = c
    · subst hd
      rw [Function.update_self] at h
      exact Loc.eq_switching (by rw [← hn, h]; rfl)
    · rwa [Function.update_of_ne hd] at h
  left {d prev} h := by
    rw [hc]
    apply hs.left
    rw [hloc] at h
    by_cases hd : d = c
    · subst hd
      rw [Function.update_self] at h
      exact Loc.eq_leaving (by rw [← hv, h]; rfl)
    · rwa [Function.update_of_ne hd] at h

end

section
variable [DecidableEq ι] {B : Board n ι} {s s' : Core n ι} {c d : Fin n}

theorem OwnInv.choose (hs : OwnInv B s) (hk : LockInv s) (hc : s.loc c = .scanning [] next)
    (hloc : s'.loc = Function.update s.loc c
      (if s.current c = next then .settled else .switching next))
    (hp : s'.processor = Function.update s.processor next c)
    (hr : s'.runnable = Function.update s.runnable next (bit c))
    (hcurr : s'.curr = Function.update s.curr c next) (hcur : s'.current = s.current) :
    OwnInv B s' := by
  have hfree {d} (hd : s.Held d next) : d = c := by
    rcases hs.candidate hc with h | ⟨hi, h⟩
    · exact hs.idle (h ▸ hd)
    · exact hs.of_runnable hi h hd
  have hself : s'.loc c = if s.current c = next then .settled else .switching next := by
    rw [hloc, Function.update_self]
  have hother {d} (hd : d ≠ c) : s'.loc d = s.loc d := by
    rw [hloc, Function.update_of_ne hd]
  have hheld {d p} : s'.Held d p ↔ s.Held d p ∨ d = c ∧ p = next := by
    unfold Held
    rw [hcur]
    by_cases hd : d = c
    · subst hd
      rw [hself, hc]
      by_cases he : s.current d = next
      · simp only [he, if_true, Loc.next?, Loc.prev?]
        simp [eq_comm]
      · simp only [he, if_false, Loc.next?, Loc.prev?]
        simp [eq_comm]
    · simp [hother hd, hd]
  constructor
  · intro d
    rw [hp, hcur]
    by_cases hd : s.current d = next
    · rw [hd, Function.update_self]
      exact (hfree (.inl hd)).symm
    · rw [Function.update_of_ne hd]
      exact hs.home d
  · intro d
    rw [hcurr, hcur]
    by_cases hd : d = c
    · subst hd
      rw [Function.update_self, hself]
      by_cases he : s.current d = next
      · simp [he, Loc.next?]
      · simp [he, Loc.next?]
    · rw [Function.update_of_ne hd, hother hd]
      exact hs.curr d
  · intro d p h hi
    rw [hr]
    by_cases hn : p = next
    · subst hn
      rw [Function.update_self]
      rcases hheld.mp h with h | ⟨rfl, _⟩
      · rw [hfree h]
      · rfl
    · rw [Function.update_of_ne hn]
      exact hs.held ((hheld.mp h).resolve_right fun h => hn h.2) hi
  · intro d e h
    rcases hheld.mp h with h | ⟨rfl, h⟩
    · exact hs.idle h
    · rcases hs.candidate hc with hn | ⟨hi, _⟩
      · exact (B.idle_inj (h.trans hn)).symm
      · exact absurd ⟨e, h⟩ hi
  · intro p hi
    rw [hr]
    by_cases hn : p = next
    · exact .inr ⟨c, hheld.mpr (.inr ⟨rfl, hn⟩)⟩
    · rw [Function.update_of_ne hn]
      rcases hs.owned hi with h | ⟨d, h⟩
      · exact .inl h
      · exact .inr ⟨d, hheld.mpr (.inl h)⟩
  · intro d rest p h
    by_cases hd : d = c
    · subst hd
      rw [hself] at h
      split at h <;> cases h
    · rw [hother hd] at h
      exact absurd (hk.unique (by rw [h]; rfl) (by rw [hc]; rfl)) hd
  · intro d p h
    rw [hp, hcur]
    by_cases hd : d = c
    · subst hd
      rw [hself] at h
      split at h
      · cases h
      · rename_i he
        cases h
        exact ⟨Ne.symm he, Function.update_self ..⟩
    · rw [hother hd] at h
      have hn : p ≠ next := by
        rintro rfl
        exact hd (hfree (.inr (.inl (by rw [h]; rfl))))
      rw [Function.update_of_ne hn]
      exact hs.chosen h
  · intro d p h
    rw [hcur]
    by_cases hd : d = c
    · subst hd
      rw [hself] at h
      split at h <;> cases h
    · rw [hother hd] at h
      exact hs.left h

omit [DecidableEq ι] in
theorem OwnInv.switch (hs : OwnInv B s) (hc : s.loc c = .switching next)
    (hloc : s'.loc = Function.update s.loc c (.leaving (s.current c)))
    (hp : s'.processor = s.processor) (hr : s'.runnable = s.runnable) (hcurr : s'.curr = s.curr)
    (hcur : s'.current = Function.update s.current c next) : OwnInv B s' := by
  have hself : s'.loc c = .leaving (s.current c) := by
    rw [hloc, Function.update_self]
  have hother {d} (hd : d ≠ c) : s'.loc d = s.loc d := by
    rw [hloc, Function.update_of_ne hd]
  have hheld {d p} : s'.Held d p ↔ s.Held d p := by
    unfold Held
    rw [hcur]
    by_cases hd : d = c
    · subst hd
      rw [Function.update_self, hself, hc]
      simp only [Loc.next?, Loc.prev?, Option.some.injEq]
      tauto
    · rw [hother hd, Function.update_of_ne hd]
  obtain ⟨hne, hhome⟩ := hs.chosen hc
  constructor
  · intro d
    rw [hp, hcur]
    by_cases hd : d = c
    · subst hd
      rwa [Function.update_self]
    · rw [Function.update_of_ne hd]
      exact hs.home d
  · intro d
    rw [hcurr, hcur, hs.curr d]
    by_cases hd : d = c
    · subst hd
      rw [Function.update_self, hself, hc]
      rfl
    · rw [Function.update_of_ne hd, hother hd]
  · intro d p h hi
    rw [hr]
    exact hs.held (hheld.mp h) hi
  · exact fun h => hs.idle (hheld.mp h)
  · intro p hi
    rw [hr]
    rcases hs.owned hi with h | ⟨d, h⟩
    · exact .inl h
    · exact .inr ⟨d, hheld.mpr h⟩
  · intro d rest p h
    rw [hr]
    by_cases hd : d = c
    · subst hd
      rw [hself] at h
      cases h
    · rw [hother hd] at h
      exact hs.candidate h
  · intro d p h
    rw [hp, hcur]
    by_cases hd : d = c
    · subst hd
      rw [hself] at h
      cases h
    · rw [hother hd] at h
      rw [Function.update_of_ne hd]
      exact hs.chosen h
  · intro d p h
    rw [hcur]
    by_cases hd : d = c
    · subst hd
      rw [hself] at h
      cases h
      rw [Function.update_self]
      exact Ne.symm hne
    · rw [hother hd] at h
      rw [Function.update_of_ne hd]
      exact hs.left h

theorem OwnInv.release (hs : OwnInv B s) (hc : s.loc c = .leaving prev)
    (hloc : s'.loc = Function.update s.loc c .settled)
    (hp : s'.processor = s.processor) (hcur : s'.current = s.current) (hcurr : s'.curr = s.curr)
    (hr : s'.runnable = Function.update s.runnable prev (BitVec.allOnes 32)) : OwnInv B s' := by
  have hself : s'.loc c = .settled := by
    rw [hloc, Function.update_self]
  have hother {d} (hd : d ≠ c) : s'.loc d = s.loc d := by
    rw [hloc, Function.update_of_ne hd]
  have hprev : s.Held c prev := .inr (.inr (by rw [hc]; rfl))
  have hne := hs.left hc
  have hheld {d p} : s'.Held d p ↔ s.Held d p ∧ p ≠ prev := by
    by_cases hd : d = c
    · subst hd
      unfold Held
      rw [hcur, hself, hc]
      simp only [Loc.next?, Loc.prev?, Option.some.injEq, reduceCtorEq, or_false, false_or]
      constructor
      · rintro rfl
        exact ⟨.inl rfl, Ne.symm hne⟩
      · rintro ⟨rfl | rfl, h⟩
        · rfl
        · exact absurd rfl h
    · have hkeep : s'.Held d p ↔ s.Held d p := by
        unfold Held
        rw [hcur, hother hd]
      rw [hkeep, iff_self_and]
      rintro h rfl
      exact hd (hs.exclusive h hprev)
  constructor
  · intro d
    rw [hp, hcur]
    exact hs.home d
  · intro d
    rw [hcurr, hcur, hs.curr d]
    by_cases hd : d = c
    · subst hd
      rw [hself, hc]
      rfl
    · rw [hother hd]
  · intro d p h hi
    obtain ⟨h, hn⟩ := hheld.mp h
    rw [hr, Function.update_of_ne hn]
    exact hs.held h hi
  · exact fun h => hs.idle (hheld.mp h).1
  · intro p hi
    rw [hr]
    by_cases hn : p = prev
    · subst hn
      exact .inl (Function.update_self ..)
    · rw [Function.update_of_ne hn]
      rcases hs.owned hi with h | ⟨d, h⟩
      · exact .inl h
      · exact .inr ⟨d, hheld.mpr ⟨h, hn⟩⟩
  · intro d rest p h
    rw [hr]
    by_cases hd : d = c
    · subst hd
      rw [hself] at h
      cases h
    · rw [hother hd] at h
      rcases hs.candidate h with hn | ⟨hi, hb⟩
      · exact .inl hn
      · refine .inr ⟨hi, ?_⟩
        by_cases hn : p = prev
        · subst hn
          rw [Function.update_self]
          exact allOnes_and_bit B.cpus_le d
        · rwa [Function.update_of_ne hn]
  · intro d p h
    rw [hp, hcur]
    by_cases hd : d = c
    · subst hd
      rw [hself] at h
      cases h
    · rw [hother hd] at h
      exact hs.chosen h
  · intro d p h
    rw [hcur]
    by_cases hd : d = c
    · subst hd
      rw [hself] at h
      cases h
    · rw [hother hd] at h
      exact hs.left h

theorem LockInv.step (hs : LockInv s) (h : Step B s s') : LockInv s' := by
  cases h with
  | stay | move | rouse | wake | doze => exact ⟨hs.iff⟩
  | enter c rq _ hk => exact hs.take hk rfl rfl rfl
  | sleep c rq _ hk => exact hs.take hk rfl rfl rfl
  | relock c _ hk => exact hs.take hk rfl rfl rfl
  | seize c _ hk => exact hs.take hk rfl rfl rfl
  | examine c p rest next next' hc => exact hs.keep (by rw [hc]; rfl) rfl rfl
  | exhaust c next hc => exact hs.drop (by rw [hc]; rfl) rfl rfl rfl
  | choose c next hc =>
    refine hs.drop (by rw [hc]; rfl) ?_ rfl rfl
    split <;> rfl
  | switch c next oldmm hc => exact hs.keep (by rw [hc]; rfl) rfl rfl
  | release c prev hc => exact hs.keep (by rw [hc]; rfl) rfl rfl
  | write c hc => exact hs.drop (by rw [hc]; rfl) rfl rfl rfl

/-- Only tasks of the run queue are examined, so what is chosen is not another CPU's idle task. -/
theorem OwnInv.step (hs : OwnInv B s) (hk : LockInv s) (hq : ∀ {c rest next},
    s.loc c = .scanning rest next → ∀ p ∈ rest, ¬ B.Idle p) (h : Step B s s') : OwnInv B s' := by
  have hidle (c : Fin n) : B.idleTask (s.processor (s.current c)) = B.idleTask c :=
    congrArg B.idleTask (hs.home c)
  cases h with
  | stay => exact hs
  | move | rouse | wake | doze =>
    exact ⟨hs.home, hs.curr, hs.held, hs.idle, hs.owned, hs.candidate, hs.chosen, hs.left⟩
  | enter c rq hc =>
    refine hs.relocate rfl rfl rfl rfl rfl (by rw [hc]; rfl) (by rw [hc]; rfl) ?_
    intro rest next h
    cases h
    exact .inl (hidle c)
  | sleep c rq hc =>
    refine hs.relocate rfl rfl rfl rfl rfl (by rw [hc]; rfl) (by rw [hc]; rfl) ?_
    intro rest next h
    cases h
    exact .inl (hidle c)
  | relock c hc =>
    refine hs.relocate rfl rfl rfl rfl rfl (by rw [hc]; rfl) (by rw [hc]; rfl) ?_
    intro rest next h
    cases h
    exact .inl (hidle c)
  | examine c p rest next next' hc hn =>
    refine hs.relocate rfl rfl rfl rfl rfl (by rw [hc]; rfl) (by rw [hc]; rfl) ?_
    intro rest' next'' h
    cases h
    rcases hn with rfl | ⟨rfl, hb⟩
    · exact hs.candidate hc
    · rw [hs.home c] at hb
      exact .inr ⟨hq hc _ List.mem_cons_self, hb⟩
  | exhaust c next hc =>
    exact hs.relocate rfl rfl rfl rfl rfl (by rw [hc]; rfl) (by rw [hc]; rfl) nofun
  | seize c hc =>
    exact hs.relocate rfl rfl rfl rfl rfl (by rw [hc]; rfl) (by rw [hc]; rfl) nofun
  | write c hc =>
    exact hs.relocate rfl rfl rfl rfl rfl (by rw [hc]; rfl) (by rw [hc]; rfl) nofun
  | choose c next hc =>
    refine hs.choose hk hc rfl ?_ ?_ ?_ rfl
    · simp only [hs.home c]
    · simp only [hs.home c]
    · simp only [hs.home c]
  | switch c next oldmm hc => exact hs.switch hc rfl rfl rfl rfl rfl
  | release c prev hc => exact hs.release hc rfl rfl rfl rfl rfl

end

end Core

end NoblesseOblige.Scheduler
