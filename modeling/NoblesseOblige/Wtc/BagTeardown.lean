import NoblesseOblige.Wtc.BagShutdown

namespace NoblesseOblige.Wtc.Bag
set_option autoImplicit true

/-- The main thread has given the worker its extra signal after the last round. -/
def Released : ParentPc → Nat → Prop
  | .release k, w => w < k
  | .destroyP2c _, _ | .destroyC2p _, _ | .join _, _ | .print _ _, _ | .done, _ => True
  | _, _ => False

/-- Such a worker finds the signal if it still waits for one. -/
def Woken (P : Nat) (h : Shared L) (pc : ParentPc) (cs : Nat → ChildPc) : Prop :=
  ∀ w, w < P → Released pc w → cs w = .wait → h.sem (.p2c w) ≠ 0

section
variable {n : Nat} {A : Adjacency n} {L : Layout n} {P w : Nat}
variable {holds : ParentPc → Prop}

theorem Released.draining (hr : Released pc w) : stage pc v = .draining := by
  cases pc <;> first | rfl | exact hr.elim

theorem Looping.not_released (hl : Looping pc) : ¬ Released pc w := by
  cases pc <;> first | exact id | exact hl.elim

theorem Woken.child {h h' : Shared L} (woken : Woken P h pc cs)
    (inv : Inv A L true P holds h pc cs) (hw : w < P) (hb : h.born w = true)
    (hs : (body true L w (cs w)).run y h = some (h', c)) :
    Woken P h' pc (Function.update cs w c) := by
  have he := (child_step (inv.worker w hw) inv.parent.busy inv.parent.draining hb hs).2
  intro v hv hrel hwait
  by_cases hvw : v = w
  · subst hvw
    rw [Function.update_self] at hwait
    subst hwait
    have hi := (inv.parent.draining (w := v) hrel.draining).1
    exact absurd (thread_wait hs).2 (Nat.not_lt.mpr hi)
  · rw [Function.update_of_ne hvw] at hwait
    have hsem : h'.sem (.p2c v) = h.sem (.p2c v) :=
      he.sem _ (by simpa using hvw) (by simp) (by simp)
    rw [hsem]
    exact woken v hv hrel hwait

theorem Woken.parent {h h' : Shared L} (woken : Woken P h pc cs)
    (hs : (thrParent L P pc).run .mutex h = some (h', pc')) : Woken P h' pc' cs := by
  have keep (hsem : h'.sem = h.sem) (hrel : ∀ w, w < P → Released pc' w → Released pc w) :
      Woken P h' pc' cs := fun w hw hr hwait => hsem ▸ woken w hw (hrel w hw hr) hwait
  cases pc with
  | release k =>
    rw [thrParent] at hs
    split at hs
    · cases hs
      intro w hw hrel hwait
      by_cases hwk : w = k
      · subst hwk
        rw [Shared.setSem_self]
        exact Nat.one_ne_zero
      · have hlt : w < k + 1 := hrel
        rw [Shared.setSem_of_ne _ _ (by simpa using hwk)]
        exact woken w hw (show w < k by omega) hwait
    · cases hs
      exact keep rfl fun w hw _ => show w < k by omega
  | destroyP2c k =>
    rw [thrParent] at hs
    split at hs <;> (cases hs; exact keep rfl fun _ _ => id)
  | destroyC2p k =>
    cases hs
    exact keep rfl fun _ _ => id
  | join k =>
    rw [thrParent, Instr.run] at hs
    split at hs
    · cases hs
      exact keep rfl fun _ _ => id
    · cases hs
  | print i j =>
    refine keep ?_ fun _ _ _ => trivial
    exact printLoop_cases (fun i => i.run .mutex h = some (h', pc') → h'.sem = h.sem)
      (fun _ _ he => by cases he; rfl) (fun _ he => by cases he; rfl) hs
  | start | lockQueue | reset | unlockQueue =>
    cases Instr.leads hs
    exact fun w _ hrel => absurd hrel (by simp [Released])
  | load i j | done => cases hs
  | fork k | test | signal k | await k | copy i j | store i j v | step | stepped k =>
    rw [thrParent_rounds] at hs
    · rcases rounds_leads _ _ _ (Instr.leads hs) with rfl | rfl | rfl | hl
      · exact fun w _ hrel => absurd hrel id
      · exact fun w _ hrel => absurd hrel id
      · exact fun w _ hrel => absurd hrel (Nat.not_lt_zero w)
      · exact fun w _ hrel => absurd hrel hl.not_released
    · trivial

end

theorem wtcBtthr_woken (hn : 0 < n) (hP : 0 < P) {s : State (wtcBtthr n P A)}
    (h : (wtcBtthr n P A).system.Reachable s) : Woken P s.shared s.parent s.child := by
  apply h.invariant_of_reachable (I := fun s => Woken P s.shared s.parent s.child)
  · rintro s rfl w _ hrel
    exact hrel.elim
  · intro s s' hr woken hs
    cases hs with
    | parent hs => exact woken.parent hs
    | child hw hb hs => exact woken.child (wtcBtthr_inv hn hP hr) hw hb hs

/-- A worker of `wtc_btthr` that has its extra signal has exited or can step. -/
theorem wtcBtthr_drains (hn : 0 < n) (hP : 0 < P) {s : State (wtcBtthr n P A)}
    (h : (wtcBtthr n P A).system.Reachable s) (hw : w < P) (hrel : Released s.parent w) :
    s.child w = ChildPc.done ∧ s.shared.exited w = true ∨
      s.shared.born w = true ∧
        (body true (Layout.rows n) w (s.child w)).blocked s.shared = false := by
  have ok := (wtcBtthr_inv hn hP h).worker w hw
  rw [hrel.draining] at ok
  by_cases hd : s.child w = ChildPc.done
  · exact .inl ⟨hd, Program.exited_of_done (d := ChildPc.done) (fun he => by cases he)
      (fun _ _ _ _ hs => body_done true hs) h hd⟩
  · exact .inr ⟨ok.1, ok.2.enabled (wtcBtthr_woken hn hP h w hw hrel) hd⟩

/-- Between two rounds the lock of the queue is there for the main thread. -/
theorem wtcBtthr_queue (hn : 0 < n) (hP : 0 < P) {s : State (wtcBtthr n P A)}
    (h : (wtcBtthr n P A).system.Reachable s) (hl : s.parent = ParentPc.lockQueue) :
    s.shared.sem .queue ≠ 0 := by
  intro hq
  rcases (wtcBtthr_sound hn hP h).keyed hq with (hh | hh) | ⟨w, hw, hc⟩
  · exact absurd (hl.symm.trans hh) (by simp)
  · exact absurd (hl.symm.trans hh) (by simp)
  · have hst := ((wtcBtthr_inv hn hP h).worker w hw).crit hc
    rw [hl] at hst
    cases hst

/-- `wtc_btthr` does not get stuck before everyone is at the end. -/
theorem wtcBtthr_runs (hn : 0 < n) (hP : 0 < P) {s : State (wtcBtthr n P A)}
    (h : (wtcBtthr n P A).system.Reachable s) :
    (∃ s', Step (wtcBtthr n P A) s s') ∨
      s.parent = ParentPc.done ∧ ∀ w, w < P → s.child w = ChildPc.done := by
  have inv := wtcBtthr_inv hn hP h
  have sound := wtcBtthr_sound hn hP h
  have drains := fun w => wtcBtthr_drains hn hP h (w := w)
  have queue := wtcBtthr_queue hn hP h
  have hr : Runs true (Layout.rows n) P (thrParent (Layout.rows n) P) s.shared s.parent s.child ∨
      s.parent = ParentPc.done ∧ ∀ w, w < P → s.child w = ChildPc.done := by
    generalize s.parent = pc at inv sound drains queue
    cases pc with
    | start | reset | unlockQueue | destroyC2p k => exact .inl (.inl rfl)
    | lockQueue => exact .inl (.inl (decide_eq_false (queue rfl)))
    | release k | destroyP2c k =>
      refine .inl (.inl ?_)
      rw [thrParent]
      split <;> rfl
    | print i j =>
      exact .inl (.inl (printLoop_cases (·.blocked s.shared = false) (fun _ _ => rfl) fun _ => rfl))
    | join k =>
      rcases drains k sound.path trivial with ⟨_, he⟩ | he
      · refine .inl (.inl ?_)
        rw [thrParent, Instr.blocked, he]
        rfl
      · exact .inl (.inr ⟨k, sound.path, he⟩)
    | done =>
      by_cases hd : ∀ w, w < P → s.child w = ChildPc.done
      · exact .inr ⟨rfl, hd⟩
      · obtain ⟨w, hw, hne⟩ : ∃ w, w < P ∧ s.child w ≠ ChildPc.done := by
          simpa only [not_forall, exists_prop] using hd
        rcases drains w hw trivial with ⟨hd, _⟩ | he
        · exact absurd hd hne
        · exact .inl (.inr ⟨w, hw, he⟩)
    | load i j => exact sound.path.elim
    | fork k | test | signal k | await k | copy i j | store i j v | step | stepped k =>
      have hl := inv.rounds_runs .start .lockQueue (.release 0) trivial sound.keyed
        (fun k hh => by cases hh with | inl hh => cases hh | inr hh => cases hh) sound.inBody
      rw [Runs, ← thrParent_rounds] at hl
      · exact .inl hl
      · trivial
  exact hr.imp step_iff_runs.mpr id

/-- The worker is about to take its last signal, or has not answered it yet. -/
def Answering : ChildPc → Prop
  | .wait | .inner | .post => True
  | _ => False

instance : (pc : ChildPc) → Decidable (Answering pc)
  | .wait | .inner | .post => isTrue trivial
  | .outer | .recheck | .lock | .dequeue | .bump _ | .bumped _ _ | .unlock _ | .cell _ _
  | .head _ _ | .col _ _ _ | .via _ _ | .row _ _ _ | .own _ _ | .set _ _ | .leave
  | .done => isFalse id

/-- The main thread destroys a mutex only when its worker is past it. -/
def Ready (n P : Nat) (A : Adjacency n) (s s' : State (wtcBtthr n P A)) : Prop :=
  ∀ k, k < P →
    (s.parent = ParentPc.destroyP2c k → s'.parent = ParentPc.destroyC2p k →
      s.child k ≠ ChildPc.wait) ∧
    (s.parent = ParentPc.destroyC2p k → s'.parent = ParentPc.join k → ¬ Answering (s.child k))

instance (s s' : State (wtcBtthr n P A)) : Decidable (Ready n P A s s') :=
  inferInstanceAs (Decidable (∀ k, k < P → _ ∧ _))

/-- A destroyed mutex has its worker past it. -/
structure Torn (P : Nat) (h : Shared L) (pc : ParentPc) (cs : Nat → ChildPc) : Prop where
  drained : ∀ x, h.destroyed x = true → ∀ v, stage pc v = .draining
  queue : h.destroyed .queue ≠ true
  p2c : ∀ w, w < P → h.destroyed (.p2c w) = true → cs w ≠ .wait
  c2p : ∀ w, w < P → h.destroyed (.c2p w) = true → ¬ Answering (cs w)

section
variable {n : Nat} {A : Adjacency n} {L : Layout n} {first : Bool} {P w : Nat}
variable {holds : ParentPc → Prop}

theorem body_touches (first : Bool)
    (ht : (body first L w pc).posts x = true ∨ (body first L w pc).waits x = true) :
    x = .queue ∨ x = .p2c w ∧ pc = .wait ∨ x = .c2p w ∧ pc = .post := by
  cases pc with
  | wait =>
    have ht : (taking L w .wait).posts x = true ∨ (taking L w .wait).waits x = true := by
      cases first <;> exact ht
    simp only [taking, Instr.posts, Instr.waits, Bool.false_eq_true, false_or,
      decide_eq_true_eq] at ht
    exact .inr (.inl ⟨ht.symm, rfl⟩)
  | post =>
    have ht : (taking L w .post).posts x = true ∨ (taking L w .post).waits x = true := by
      cases first <;> exact ht
    simp only [taking, Instr.posts, Instr.waits, Bool.false_eq_true, or_false,
      decide_eq_true_eq] at ht
    exact .inr (.inr ⟨ht.symm, rfl⟩)
  | lock =>
    have ht : (taking L w .lock).posts x = true ∨ (taking L w .lock).waits x = true := by
      cases first <;> exact ht
    simp only [taking, Instr.posts, Instr.waits, Bool.false_eq_true, false_or,
      decide_eq_true_eq] at ht
    exact .inl ht.symm
  | unlock r =>
    refine .inl ?_
    cases first <;>
      simp only [body, thread, childProcess, Instr.posts, Instr.waits, Bool.false_eq_true,
        or_false, decide_eq_true_eq] at ht <;>
      exact ht.symm
  | cell r j =>
    cases first with
    | true =>
      rw [body, thread] at ht
      split at ht <;> simp [Instr.posts, Instr.waits] at ht
    | false =>
      rw [body, childProcess] at ht
      split at ht <;> simp [Instr.posts, Instr.waits] at ht
  | _ => cases first <;> simp [body, thread, childProcess, taking, Instr.posts, Instr.waits] at ht

theorem body_destroys (x : Sem) : (body first L w pc).destroys x = false := by
  cases pc with
  | cell r j =>
    cases first with
    | true =>
      rw [body, thread]
      split <;> rfl
    | false =>
      rw [body, childProcess]
      split <;> rfl
  | _ => cases first <;> rfl

theorem rounds_destroys (en ro td pc : ParentPc) (x : Sem) :
    (Bag.rounds L P en ro td pc).destroys x = false := by
  cases pc with
  | fork k | signal k | await k =>
    rw [Bag.rounds]
    split <;> rfl
  | copy i j =>
    rw [Bag.rounds]
    split
    · split <;> rfl
    · rfl
  | _ => rfl

theorem thrParent_destroys (hd : (thrParent L P pc).destroys x = true) :
    (∃ k, pc = .destroyP2c k ∧ x = .p2c k) ∨ ∃ k, pc = .destroyC2p k ∧ x = .c2p k := by
  cases pc with
  | destroyP2c k =>
    rw [thrParent] at hd
    split at hd
    · exact .inl ⟨k, rfl, (of_decide_eq_true hd).symm⟩
    · cases hd
  | destroyC2p k => exact .inr ⟨k, rfl, (of_decide_eq_true hd).symm⟩
  | release k =>
    rw [thrParent] at hd
    split at hd <;> cases hd
  | print i j =>
    have hf : (thrParent L P (.print i j)).destroys x = false :=
      printLoop_cases (·.destroys x = false) (fun _ _ => rfl) fun _ => rfl
    rw [hf] at hd
    cases hd
  | load i j | start | lockQueue | reset | unlockQueue | join k | done => cases hd
  | _ =>
    rw [thrParent_rounds, rounds_destroys] at hd
    · cases hd
    · trivial

theorem Looping.not_draining (hl : Looping pc) : ¬ ∀ v, stage pc v = .draining := by
  intro hd
  cases pc with
  | fork k | signal k | await k =>
    have hst := hd 0
    simp only [stage] at hst
    split at hst <;> cases hst
  | test | copy | store | step | stepped => cases hd 0
  | _ => exact hl

/-- From the end of its rounds the main thread does not go back. -/
theorem ThrGoes.draining (hg : ThrGoes P pc pc') (hd : ∀ v, stage pc v = .draining) :
    ∀ v, stage pc' v = .draining := by
  cases hg with
  | rounds hl | forked hl | enter hl | teardown hl => exact absurd hd hl.not_draining
  | start | lockQueue | reset | unlockQueue => cases hd 0
  | _ => exact fun _ => rfl

theorem Draining.outside {h : Shared L} (hd : Draining pc) (hna : ¬ Answering pc)
    (hi : n ≤ h.iterator) : Outside n h pc := by
  cases pc with
  | leave | done => exact hi
  | wait | inner | post => exact absurd trivial hna
  | outer | recheck => trivial
  | _ => exact hd

theorem Torn.parent {h h' : Shared L} (torn : Torn P h pc cs) (path : thrPath P pc)
    (hs : (thrParent L P pc).run .mutex h = some (h', pc'))
    (hp : ∀ k, k < P → pc = .destroyP2c k → pc' = .destroyC2p k → cs k ≠ .wait)
    (hc : ∀ k, k < P → pc = .destroyC2p k → pc' = .join k → ¬ Answering (cs k)) :
    Torn P h' pc' cs := by
  have hl := Instr.leads hs
  have hdes (x : Sem) (hx : h'.destroyed x = true) :
      (thrParent L P pc).destroys x = true ∨ h.destroyed x = true := by
    rw [Instr.run_destroyed hs, Bool.or_eq_true] at hx
    exact hx
  constructor
  · intro x hx
    refine (thrParent_goes hl).draining ?_
    rcases hdes x hx with hd | hd
    · rcases thrParent_destroys hd with ⟨k, rfl, _⟩ | ⟨k, rfl, _⟩ <;> exact fun _ => rfl
    · exact torn.drained x hd
  · intro hx
    rcases hdes _ hx with hd | hd
    · rcases thrParent_destroys hd with ⟨k, _, he⟩ | ⟨k, _, he⟩ <;> cases he
    · exact torn.queue hd
  · intro w hw hx
    rcases hdes _ hx with hd | hd
    · rcases thrParent_destroys hd with ⟨k, rfl, he⟩ | ⟨k, _, he⟩
      · cases he
        rw [thrParent, if_pos hw] at hl
        exact hp w hw rfl hl
      · cases he
    · exact torn.p2c w hw hd
  · intro w hw hx
    rcases hdes _ hx with hd | hd
    · rcases thrParent_destroys hd with ⟨k, _, he⟩ | ⟨k, rfl, he⟩
      · cases he
      · cases he
        exact hc w hw rfl hl
    · exact torn.c2p w hw hd

theorem Torn.child {h h' : Shared L} (torn : Torn P h pc cs) (inv : Inv A L true P holds h pc cs)
    (hw : w < P) (hs : (body true L w (cs w)).run y h = some (h', c)) :
    Torn P h' pc (Function.update cs w c) := by
  have hdes (x : Sem) (hx : h'.destroyed x = true) : h.destroyed x = true := by
    rwa [Instr.run_destroyed hs, body_destroys, Bool.false_or] at hx
  have ends (x : Sem) (hx : h.destroyed x = true) : n ≤ h.iterator ∧ n ≤ h.queue :=
    inv.parent.draining (w := w) (torn.drained x hx w)
  refine ⟨fun x hx => torn.drained x (hdes x hx), fun hx => torn.queue (hdes _ hx), ?_, ?_⟩
  · intro v hv hx
    by_cases hvw : v = w
    · subst hvw
      rw [Function.update_self]
      rintro rfl
      exact absurd (thread_wait hs).2 (Nat.not_lt.mpr (ends _ (hdes _ hx)).1)
    · rw [Function.update_of_ne hvw]
      exact torn.p2c v hv (hdes _ hx)
  · intro v hv hx
    by_cases hvw : v = w
    · subst hvw
      rw [Function.update_self]
      obtain ⟨hi, hq⟩ := ends _ (hdes _ hx)
      have hna := torn.c2p v hv (hdes _ hx)
      have ok := inv.worker v hv
      rw [torn.drained _ (hdes _ hx) v] at ok
      obtain ⟨ho, hne, -, -⟩ := (ok.2.outside hna hi).toEnd (fun he => hna (he ▸ trivial)) hi hq hs
      intro ha
      cases c <;> first | exact hne rfl | exact ho | exact ha
    · rw [Function.update_of_ne hvw]
      exact torn.c2p v hv (hdes _ hx)

end

theorem wtcBtthr_torn (hn : 0 < n) (hP : 0 < P) {s : State (wtcBtthr n P A)}
    (h : ((wtcBtthr n P A).system.restrict (Ready n P A)).Reachable s) :
    (wtcBtthr n P A).system.Reachable s ∧ Torn P s.shared s.parent s.child := by
  apply h.invariant (I := fun s =>
    (wtcBtthr n P A).system.Reachable s ∧ Torn P s.shared s.parent s.child)
  · rintro s rfl
    have none (x : Sem) : (wtcBtthr n P A).initial.shared.destroyed x ≠ true := Bool.false_ne_true
    exact ⟨.start rfl, fun x hx => absurd hx (none x), none _, fun _ _ hx => absurd hx (none _),
      fun _ _ hx => absurd hx (none _)⟩
  · rintro s s' ⟨hr, torn⟩ ⟨hs, hc⟩
    refine ⟨hr.next hs, ?_⟩
    cases hs with
    | parent hs =>
      exact torn.parent (wtcBtthr_sound hn hP hr).path hs (fun k hk => (hc k hk).1)
        fun k hk => (hc k hk).2
    | child hw hb hs => exact torn.child (wtcBtthr_inv hn hP hr) hw hs

/-- `wtc_btthr` never gets stuck before everyone has ended, and when the main thread destroys each
mutex only after its worker is past it no worker uses a destroyed one. -/
theorem btthr_shutdown (n P : Nat) (hn : 1 ≤ n) (hP : 1 ≤ P) (A : Adjacency n) :
    (∀ s, (wtcBtthr n P A).system.Reachable s →
      (∃ s', Step (wtcBtthr n P A) s s') ∨
        s.parent = ParentPc.done ∧ ∀ w, w < P → s.child w = ChildPc.done) ∧
    (∀ s, ((wtcBtthr n P A).system.restrict (Ready n P A)).Reachable s →
      ∀ w, w < P → ∀ x, s.shared.destroyed x = true →
        (wtcBtthr n P A).posts x s (some w) = false ∧
          (wtcBtthr n P A).waits x s (some w) = false) := by
  refine ⟨fun s hr => wtcBtthr_runs hn hP hr, fun s hr w hw x hx => ?_⟩
  obtain ⟨hr, torn⟩ := wtcBtthr_torn hn hP hr
  have unused (ht : (wtcBtthr n P A).posts x s (some w) = true ∨
      (wtcBtthr n P A).waits x s (some w) = true) : False := by
    rcases body_touches true ht with rfl | ⟨rfl, hpc⟩ | ⟨rfl, hpc⟩
    · exact torn.queue hx
    · exact torn.p2c w hw hx hpc
    · exact torn.c2p w hw hx (by rw [hpc]; trivial)
  exact ⟨eq_false_of_ne_true fun ht => unused (.inl ht),
    eq_false_of_ne_true fun ht => unused (.inr ht)⟩

/-- The first of two workers is past both its mutexes when they are destroyed, and neither thread
has ended. -/
theorem btthr_shutdown_of_cycle : ∃ s, ((wtcBtthr 2 2 (.cycle 2)).system.restrict
    (Ready 2 2 (.cycle 2))).Reachable s ∧ s.shared.destroyed (.p2c 0) = true ∧
      s.shared.destroyed (.c2p 0) = true ∧ s.child 0 = ChildPc.leave ∧
      s.child 1 = ChildPc.outer ∧ (∃ s', Step (wtcBtthr 2 2 (.cycle 2)) s s') ∧
      (wtcBtthr 2 2 (.cycle 2)).waits (.p2c 0) s (some 0) = false ∧
      (wtcBtthr 2 2 (.cycle 2)).posts (.c2p 0) s (some 0) = false := by
  have hr := (wtcBtthr 2 2 (.cycle 2)).playIf_reachable (Ready 2 2 (.cycle 2))
    (turns 88 ++ [none])
  have hp : ((wtcBtthr 2 2 (.cycle 2)).playIf (Ready 2 2 (.cycle 2))
      (turns 88 ++ [none])).shared.destroyed (.p2c 0) = true := by
    decide +kernel
  have hc : ((wtcBtthr 2 2 (.cycle 2)).playIf (Ready 2 2 (.cycle 2))
      (turns 88 ++ [none])).shared.destroyed (.c2p 0) = true := by
    decide +kernel
  have hl : ((wtcBtthr 2 2 (.cycle 2)).playIf (Ready 2 2 (.cycle 2))
      (turns 88 ++ [none])).child 0 = ChildPc.leave := by
    decide +kernel
  have h := btthr_shutdown 2 2 (by decide) (by decide) (.cycle 2)
  have hr' := (wtcBtthr_torn (by decide) (by decide) hr).1
  refine ⟨_, hr, hp, hc, hl, by decide +kernel, (h.1 _ hr').resolve_right ?_,
    (h.2 _ hr 0 (by decide) _ hp).2, (h.2 _ hr 0 (by decide) _ hc).1⟩
  rintro ⟨_, hd⟩
  have := hl.symm.trans (hd 0 (by decide))
  cases this

/-- A worker that is slow to take its last signal locks a destroyed mutex. -/
theorem btthr_not_shutdown : ¬ ∀ (n P : Nat) (A : Adjacency n) (s s' : State (wtcBtthr n P A))
    (w : Nat) (x : Sem), 1 ≤ n → 1 ≤ P → w < P → (wtcBtthr n P A).system.Reachable s →
      (wtcBtthr n P A).next s (some w) = some s' →
      (wtcBtthr n P A).posts x s (some w) = true ∨ (wtcBtthr n P A).waits x s (some w) = true →
      s.shared.destroyed x = false := by
  intro h
  have hr := (wtcBtthr 1 1 (.cycle 1)).play_reachable
    (List.replicate 9 none ++ List.replicate 16 (some 0) ++ List.replicate 12 none)
  have hplay : ((wtcBtthr 1 1 (.cycle 1)).next ((wtcBtthr 1 1 (.cycle 1)).play
      (List.replicate 9 none ++ List.replicate 16 (some 0) ++ List.replicate 12 none))
        (some 0)).isSome = true := by
    decide +kernel
  obtain ⟨s', hs⟩ := Option.isSome_iff_exists.mp hplay
  have hd := h 1 1 (.cycle 1) _ s' 0 (.p2c 0) (by decide) (by decide) (by decide) hr hs
    (.inr (by decide +kernel))
  exact absurd hd (by decide +kernel)

end NoblesseOblige.Wtc.Bag
