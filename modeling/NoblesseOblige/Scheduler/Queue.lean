import NoblesseOblige.Scheduler.Ownership

namespace NoblesseOblige.Scheduler.Core
set_option autoImplicit true

section
variable [DecidableEq ι] {B : Board n ι} {s s' : Core n ι} {c d : Fin n}

theorem Moved.perm (hs : QueueInv B s) (h : Moved B s p rq) : rq.Perm s.runqueue := by
  rcases h with rfl | ⟨hi, hq, rfl⟩
  · exact .refl _
  · have hmem := (hs.queued hi).mp hq
    exact List.perm_append_singleton p _ |>.trans (List.perm_cons_erase hmem).symm

omit [DecidableEq ι] in
theorem QueueInv.of_perm (hs : QueueInv B s) (h : s'.runqueue.Perm s.runqueue)
    (hq : s'.queued = s.queued) (hr : s'.nrRunning = s.nrRunning) : QueueInv B s' where
  nodup := h.nodup_iff.mpr hs.nodup
  busy hp := hs.busy (h.mem_iff.mp hp)
  queued hi := by
    rw [hq, h.mem_iff]
    exact hs.queued hi
  counted := by
    rw [hr, h.length_eq]
    exact hs.counted

theorem QueueInv.delete (hs : QueueInv B s) (hi : ¬ B.Idle p) (hp : s.queued p = true)
    (h : s'.runqueue = s.runqueue.erase p) (hq : s'.queued = Function.update s.queued p false)
    (hr : s'.nrRunning = s.nrRunning - 1) : QueueInv B s' where
  nodup := by
    rw [h]
    exact hs.nodup.erase p
  busy hq := hs.busy (List.mem_of_mem_erase (h ▸ hq))
  queued {q} hj := by
    rw [hq, h, hs.nodup.mem_erase_iff]
    by_cases he : q = p
    · subst he
      simp
    · rw [Function.update_of_ne he, hs.queued hj]
      exact (and_iff_right he).symm
  counted := by
    have hmem := (hs.queued hi).mp hp
    have hpos := List.length_pos_of_mem hmem
    rw [hr, h, hs.counted, List.length_erase_of_mem hmem]
    omega

theorem QueueInv.step (hs : QueueInv B s) (h : Step B s s') : QueueInv B s' := by
  cases h with
  | stay | relock | examine | exhaust | choose | switch | release | rouse | doze | seize | write =>
    exact hs.of_perm (.refl _) rfl rfl
  | move p rq hk hr => exact hs.of_perm (hr.perm hs) rfl rfl
  | enter c rq hc hk hr => exact hs.of_perm (hr.perm hs) rfl rfl
  | sleep c rq hc hk hi hst hq hr =>
    have hmoved : QueueInv B { s with runqueue := rq } := hs.of_perm (hr.perm hs) rfl rfl
    exact hmoved.delete hi hq rfl rfl rfl
  | wake p hk hi hq =>
    have hnew : p ∉ s.runqueue := by
      intro hp
      rw [← hs.queued hi, hq] at hp
      cases hp
    constructor
    · exact (List.perm_append_singleton p s.runqueue).nodup_iff.mpr
        (List.nodup_cons.mpr ⟨hnew, hs.nodup⟩)
    · intro q hq
      rcases List.mem_append.mp hq with hq | hq
      · exact hs.busy hq
      · exact List.mem_singleton.mp hq ▸ hi
    · intro q hj
      by_cases he : q = p
      · subst he
        simp
      · simp [hs.queued hj, he]
    · simp [hs.counted]

omit [DecidableEq ι] in
/-- Nobody scans while the lock is free. -/
theorem LockInv.not_scanning (hk : LockInv s) (h : s.lock = none)
    (hc : s.loc c = .scanning rest next) : False := by
  have hlock := (hk.iff c).mpr (by rw [hc]; rfl)
  rw [h] at hlock
  cases hlock

omit [DecidableEq ι] in
/-- What keeps the run queue, up to its order, keeps the places of those in it. -/
theorem PlaceInv.of_mem (hs : PlaceInv B s) (hk : LockInv s) (hfree : s.lock = none)
    (hm : ∀ p ∈ s.runqueue, p ∈ s'.runqueue) (hc : s'.current = s.current)
    (hloc : s'.loc = s.loc) : PlaceInv B s' where
  current {d} h := by
    rw [hc]
    rw [hloc] at h
    exact (hs.current h).imp_right (hm _)
  rest {d rest next} h := by
    rw [hloc] at h
    exact absurd h (hk.not_scanning hfree)
  next {d next} h := by
    rw [hloc] at h
    exact (hs.next h).imp_right (hm _)

omit [DecidableEq ι] in
/-- A CPU moves on while the run queue stays. -/
theorem PlaceInv.relocate (hs : PlaceInv B s) (hrq : s'.runqueue = s.runqueue)
    (hc : s'.current = s.current) (hloc : s'.loc = Function.update s.loc c l)
    (hcur : l.queued = true → s.current c = B.idleTask c ∨ s.current c ∈ s.runqueue)
    (hrest : ∀ rest next, l = .scanning rest next →
      rest <:+ s.runqueue ∧ (next = B.idleTask c ∨ next ∈ s.runqueue))
    (hnext : ∀ next, l = .switching next → next = B.idleTask c ∨ next ∈ s.runqueue) :
    PlaceInv B s' where
  current {d} h := by
    rw [hc, hrq]
    rw [hloc] at h
    by_cases hd : d = c
    · subst hd
      rw [Function.update_self] at h
      exact hcur h
    · rw [Function.update_of_ne hd] at h
      exact hs.current h
  rest {d rest next} h := by
    rw [hrq]
    rw [hloc] at h
    by_cases hd : d = c
    · subst hd
      rw [Function.update_self] at h
      exact hrest rest next h
    · rw [Function.update_of_ne hd] at h
      exact hs.rest h
  next {d next} h := by
    rw [hrq]
    rw [hloc] at h
    by_cases hd : d = c
    · subst hd
      rw [Function.update_self] at h
      exact hnext next h
    · rw [Function.update_of_ne hd] at h
      exact hs.next h

/-- Nobody else has the task that `schedule` takes off the run queue. -/
theorem PlaceInv.sleep (hs : PlaceInv B s) (hk : LockInv s) (ho : OwnInv B s)
    (hc : s.loc c = .settled) (hfree : s.lock = none)
    (hrq : s'.runqueue = s.runqueue.erase (s.current c)) (hcur : s'.current = s.current)
    (hloc : s'.loc = Function.update s.loc c (.scanning s'.runqueue (B.idleTask c))) :
    PlaceInv B s' where
  current {d} h := by
    rw [hcur, hrq]
    rw [hloc] at h
    by_cases hd : d = c
    · subst hd
      rw [Function.update_self] at h
      cases h
    · rw [Function.update_of_ne hd] at h
      have hne : s.current d ≠ s.current c := fun he => hd (ho.exclusive (.inl he) (.inl rfl))
      exact (hs.current h).imp_right (List.mem_erase_of_ne hne).mpr
  rest {d rest next} h := by
    rw [hloc] at h
    by_cases hd : d = c
    · subst hd
      rw [Function.update_self] at h
      cases h
      exact ⟨List.suffix_rfl, .inl rfl⟩
    · rw [Function.update_of_ne hd] at h
      exact absurd h (hk.not_scanning hfree)
  next {d next} h := by
    rw [hrq]
    rw [hloc] at h
    by_cases hd : d = c
    · subst hd
      rw [Function.update_self] at h
      cases h
    · rw [Function.update_of_ne hd] at h
      have hne : next ≠ s.current c :=
        fun he => hd (ho.exclusive (.inr (.inl (by rw [h]; rfl))) (.inl he.symm))
      exact (hs.next h).imp_right (List.mem_erase_of_ne hne).mpr

theorem PlaceInv.step (hs : PlaceInv B s) (hk : LockInv s) (ho : OwnInv B s) (hq : QueueInv B s)
    (h : Step B s s') : PlaceInv B s' := by
  have hidle (c : Fin n) : B.idleTask (s.processor (s.current c)) = B.idleTask c :=
    congrArg B.idleTask (ho.home c)
  cases h with
  | stay | rouse | doze => exact ⟨hs.current, hs.rest, hs.next⟩
  | move p rq hfree hr =>
    exact hs.of_mem hk hfree (fun _ => (hr.perm hq).mem_iff.mpr) rfl rfl
  | wake p hfree =>
    exact hs.of_mem hk hfree (fun _ => List.mem_append_left _) rfl rfl
  | enter c rq hc hfree hr =>
    have hmoved : PlaceInv B { s with runqueue := rq } :=
      hs.of_mem hk hfree (fun _ => (hr.perm hq).mem_iff.mpr) rfl rfl
    refine hmoved.relocate rfl rfl rfl nofun ?_ nofun
    intro rest next h
    cases h
    exact ⟨List.suffix_rfl, .inl (hidle c)⟩
  | sleep c rq hc hfree hi hst hqd hr =>
    have hmoved : PlaceInv B { s with runqueue := rq } :=
      hs.of_mem hk hfree (fun _ => (hr.perm hq).mem_iff.mpr) rfl rfl
    have hown : OwnInv B { s with runqueue := rq } :=
      ⟨ho.home, ho.curr, ho.held, ho.idle, ho.owned, ho.candidate, ho.chosen, ho.left⟩
    exact hmoved.sleep ⟨hk.iff⟩ hown hc hfree rfl rfl (by rw [hidle c])
  | relock c hc =>
    refine hs.relocate rfl rfl rfl nofun ?_ nofun
    intro rest next h
    cases h
    exact ⟨List.suffix_rfl, .inl (hidle c)⟩
  | examine c p rest next next' hc hn =>
    obtain ⟨hrest, hnext⟩ := hs.rest hc
    refine hs.relocate rfl rfl rfl nofun ?_ nofun
    intro rest' next'' h
    cases h
    refine ⟨(List.suffix_cons p rest).trans hrest, ?_⟩
    rcases hn with rfl | ⟨rfl, _⟩
    · exact hnext
    · exact .inr (hrest.subset List.mem_cons_self)
  | exhaust c next hc => exact hs.relocate rfl rfl rfl nofun nofun nofun
  | choose c next hc =>
    obtain ⟨_, hnext⟩ := hs.rest hc
    refine hs.relocate rfl rfl rfl ?_ ?_ ?_
    · intro h
      split at h
      · rename_i he
        rwa [he]
      · cases h
    · intro rest next' h
      split at h <;> cases h
    · intro next' h
      split at h <;> cases h
      exact hnext
  | switch c next oldmm hc =>
    have hnext := hs.next hc
    constructor
    · intro d h
      by_cases hd : d = c
      · subst hd
        simp only [Function.update_self]
        exact hnext
      · simp only [Function.update_of_ne hd] at h ⊢
        exact hs.current h
    · intro d rest p h
      by_cases hd : d = c
      · subst hd
        simp only [Function.update_self] at h
        cases h
      · simp only [Function.update_of_ne hd] at h
        exact hs.rest h
    · intro d p h
      by_cases hd : d = c
      · subst hd
        simp only [Function.update_self] at h
        cases h
      · simp only [Function.update_of_ne hd] at h
        exact hs.next h
  | release c prev hc =>
    exact hs.relocate rfl rfl rfl (fun _ => hs.current (by rw [hc]; rfl)) nofun nofun
  | seize c hc =>
    exact hs.relocate rfl rfl rfl (fun _ => hs.current (by rw [hc]; rfl)) nofun nofun
  | write c hc =>
    exact hs.relocate rfl rfl rfl (fun _ => hs.current (by rw [hc]; rfl)) nofun nofun

end

end NoblesseOblige.Scheduler.Core
