import NoblesseOblige.Scheduler.Completion
import NoblesseOblige.Scheduler.Stirring

namespace NoblesseOblige.Scheduler
open Scheduler.Core
set_option autoImplicit true

def Place.queued : Place → Bool
  | .marking | .unlocking | .calling | .back => true
  | _ => false

def Place.holds : Place → Bool
  | .marking | .unlocking | .finishing => true
  | _ => false

theorem toNat_sub_one {x : BitVec 32} (h : x ≠ 0) :
    1 ≤ x.toNat ∧ (x - 1).toNat + 1 = x.toNat := by
  constructor <;> bv_omega

theorem toNat_add_one (x : BitVec 32) : (x + 1).toNat ≤ x.toNat + 1 := by
  bv_omega

/-- How many of the waiting tasks are runnable. -/
def Completion.awake (s : Completion n ι) : Nat :=
  s.queue.countP fun p => (s.kernel.task p).state = .running

/-- Of the tasks that wait, as many are runnable as there are completions for them, except for one
that is among those to whom the waker has still to come. -/
def Completion.Owes (s : Completion n ι) (rest : List ι) : Prop :=
  min s.done.toNat s.queue.length ≤ s.awake ∨
    min s.done.toNat s.queue.length ≤ s.awake + 1 ∧
      ∀ p ∈ s.queue, p ∉ rest → (s.kernel.task p).state = .running

def Completion.Enough (s : Completion n ι) : Prop :=
  match s.hold with
  | .free => min s.done.toNat s.queue.length ≤ s.awake
  | .waiter p =>
    if s.place p = .finishing then
      1 ≤ s.done.toNat ∧ min (s.done - 1).toNat s.queue.length ≤ s.awake
    else s.done = 0
  | .waker _ rest => (∀ p ∈ rest, p ∈ s.queue) ∧ s.Owes rest
  | .waking _ p rest => (∀ q ∈ p :: rest, q ∈ s.queue) ∧ s.Owes (p :: rest)

/-- A task that has called `schedule` is taken off the run queue unless it has been woken. -/
def Kernel.Gone (k : Kernel n ι) (p : ι) : Prop :=
  (k.task p).state = .running ∨ p ∉ k.runqueue ∨ ∃ c, k.current c = p ∧ k.pc c = .needReschedBack

structure WaitInv [DecidableEq ι] (B : Board n ι) (s : Completion n ι) : Prop where
  busy : ∀ {p}, s.place p ≠ .out → ¬ B.Idle p
  nodup : s.queue.Nodup
  member : ∀ {p}, p ∈ s.queue ↔ (s.place p).queued = true
  owner : ∀ {p}, s.hold = .waiter p ↔ (s.place p).holds = true
  state : ∀ {p}, p ∈ s.queue → s.place p ≠ .marking →
    (s.kernel.task p).state = .running ∨ (s.kernel.task p).state = .uninterruptible
  gone : ∀ {p}, s.place p = .back → s.kernel.Gone p
  enough : s.Enough

section
variable [DecidableEq ι] {B : Board n ι} {k k' : Kernel n ι} {s s' : Completion n ι}

/-- Only a wake-up puts a task on the run queue. -/
theorem Core.Step.joins {s s' : Core n ι} (hs : QueueInv B s) (h : Core.Step B s s')
    (hp : p ∉ s.runqueue) (hp' : p ∈ s'.runqueue) : s'.state p = .running := by
  cases h with
  | wake q =>
    rcases List.mem_append.mp hp' with hold | hnew
    · exact absurd hold hp
    · rw [List.mem_singleton.mp hnew]
      exact Function.update_self ..
  | move q rq hk hr => exact absurd ((hr.perm hs).mem_iff.mp hp') hp
  | enter c rq hc hk hr => exact absurd ((hr.perm hs).mem_iff.mp hp') hp
  | sleep c rq hc hk hi hst hq hr =>
    exact absurd ((hr.perm hs).mem_iff.mp (List.mem_of_mem_erase hp')) hp
  | _ => exact absurd hp' hp

theorem Core.Step.current_eq {s s' : Core n ι} (h : Core.Step B s s') (hc : s.loc c = .settled) :
    s'.current c = s.current c := by
  cases h with
  | switch d next oldmm hd =>
    refine Function.update_of_ne ?_ ..
    rintro rfl
    rw [hc] at hd
    cases hd
  | _ => rfl

theorem needReschedBack_gone (hs : Inv B k.core) (hi : IdleInv B k)
    (h : B.needReschedBack k c = .ok k') :
    (k'.task (k.current c)).state = .running ∨ k.current c ∉ k'.runqueue := by
  unfold Board.needReschedBack at h
  split at h
  · cases h
  · obtain ⟨k₁, h₁, h⟩ := bind_ok h
    obtain ⟨k₂, h₂, rfl⟩ := map_ok h
    obtain ⟨_, rq, hrq, hcore₁⟩ := moveExhausted_spec hi h₁
    have hstate : ((k₂.modify (k.current c) fun t => { t with needResched := 0 }).task
        (k.current c)).state = k₂.core.state (k.current c) := by
      rw [k₂.task_modify, if_pos rfl]
      rfl
    rcases leave_spec h₂ with hcore₂ | ⟨_, _, hcore₂⟩
    · left
      refine hstate.trans ?_
      rw [hcore₂]
      exact Function.update_self ..
    · right
      have hqueue : k₂.runqueue = k₁.runqueue.erase (k.current c) := congrArg Core.runqueue hcore₂
      have hrun : k₁.runqueue = rq := congrArg Core.runqueue hcore₁
      have hnodup : rq.Nodup := (hrq.perm hs.queue).nodup_iff.mpr hs.queue.nodup
      show k.current c ∉ k₂.runqueue
      rw [hqueue, hrun, hnodup.mem_erase_iff]
      exact fun hmem => hmem.1 rfl

/-- Who has called `schedule` stays gone until it is woken. -/
theorem Kernel.Gone.step (h : B.system.Reachable k) (hg : k.Gone p) (ha : B.perform k a = .ok k')
    (hst : (k'.task p).state = (k.task p).state ∨ (k'.task p).state = .running) : k'.Gone p := by
  obtain ⟨hinv, hidle⟩ := reachable_inv h
  have hstep := (perform_next hidle ha).step
  have hkeep (hr : (k.task p).state = .running) : (k'.task p).state = .running := by
    rcases hst with he | hr'
    · exact he.trans hr
    · exact hr'
  rcases hg with hr | hq | ⟨c, hc, hpc⟩
  · exact .inl (hkeep hr)
  · by_cases hq' : p ∈ k'.runqueue
    · exact .inl (hstep.joins hinv.queue hq hq')
    · exact .inr (.inl hq')
  · have hcur : k'.current c = k.current c := hstep.current_eq (congrArg Pc.loc hpc)
    rcases (perform_effect ha).pc c with hsame | hcode | ⟨cycles, rfl⟩
    · exact .inr (.inr ⟨c, hcur.trans hc, hsame.trans hpc⟩)
    · rw [hpc] at hcode
      cases hcode
    · simp only [Board.perform, Board.advance, hpc] at ha
      rcases needReschedBack_gone hinv hidle ha with hr | hq
      · exact .inl (hc ▸ hr)
      · exact .inr (.inl (hc ▸ hq))

theorem Kernel.Gone.running (h : B.system.Reachable k) (hg : k.Gone p) (hi : ¬ B.Idle p)
    (hc : k.current c = p) (hpc : k.pc c = .code) : (k.task p).state = .running := by
  have hinv := (reachable_inv h).1
  have hmem : p ∈ k.runqueue := by
    have hqueued : (k.core.loc c).queued = true := congrArg (fun l => (Pc.loc l).queued) hpc
    rw [← hc] at hi ⊢
    exact hinv.place.current_mem hqueued hi
  rcases hg with hr | hq | ⟨d, hd, hback⟩
  · exact hr
  · exact absurd hmem hq
  · have hcd := hinv.own.exclusive (c := c) (d := d) (.inl hc) (.inl hd)
    rw [← hcd, hpc] at hback
    cases hback

omit [DecidableEq ι] in
theorem awake_mono (hq : s'.queue = s.queue) (hrun : ∀ p ∈ s.queue,
    (s.kernel.task p).state = .running → (s'.kernel.task p).state = .running) :
    s.awake ≤ s'.awake := by
  unfold Completion.awake
  rw [hq]
  apply List.countP_mono_left
  intro p hp hr
  exact decide_eq_true (hrun p hp (of_decide_eq_true hr))

omit [DecidableEq ι] in
theorem Completion.Owes.mono (h : s.Owes rest) (hd : s'.done = s.done) (hq : s'.queue = s.queue)
    (hrun : ∀ p ∈ s.queue,
      (s.kernel.task p).state = .running → (s'.kernel.task p).state = .running) :
    s'.Owes rest := by
  have hle := awake_mono hq hrun
  unfold Completion.Owes at h ⊢
  rw [hd, hq]
  rcases h with h | ⟨h, hall⟩
  · exact .inl (h.trans hle)
  · exact .inr ⟨by omega, fun p hp hrest => hrun p hp (hall p hp hrest)⟩

omit [DecidableEq ι] in
theorem Completion.Enough.mono (h : s.Enough) (hd : s'.done = s.done) (hq : s'.queue = s.queue)
    (hh : s'.hold = s.hold) (hp : ∀ p, s.hold = .waiter p → s'.place p = s.place p)
    (hrun : ∀ p ∈ s.queue,
      (s.kernel.task p).state = .running → (s'.kernel.task p).state = .running) :
    s'.Enough := by
  have hle := awake_mono hq hrun
  unfold Completion.Enough at h ⊢
  rw [hh]
  cases hold : s.hold with
  | free =>
    rw [hold] at h
    dsimp only at h ⊢
    rw [hd, hq]
    exact h.trans hle
  | waiter p =>
    rw [hold] at h
    dsimp only at h ⊢
    rw [hp p hold, hd, hq]
    split
    · rename_i hf
      rw [if_pos hf] at h
      exact ⟨h.1, h.2.trans hle⟩
    · rename_i hf
      rwa [if_neg hf] at h
  | waker c rest =>
    rw [hold] at h
    dsimp only at h ⊢
    rw [hq]
    exact ⟨h.1, h.2.mono hd hq hrun⟩
  | waking c p rest =>
    rw [hold] at h
    dsimp only at h ⊢
    rw [hq]
    exact ⟨h.1, h.2.mono hd hq hrun⟩

theorem WaitInv.out_of_mem (hs : WaitInv B s) (hp : p ∈ s.queue) : s.place p ≠ .out := by
  intro ho
  have hqueued := hs.member.mp hp
  rw [ho] at hqueued
  cases hqueued

/-- What happens elsewhere only wakes tasks that wait. -/
theorem WaitInv.kernel (hs : WaitInv B s) (h : B.system.Reachable s.kernel)
    (ha : B.perform s.kernel a = .ok k')
    (hst : ∀ p, s.place p ≠ .out → (k'.task p).state = (s.kernel.task p).state ∨
      (k'.task p).state = .running) : WaitInv B { s with kernel := k' } where
  busy := hs.busy
  nodup := hs.nodup
  member := hs.member
  owner := hs.owner
  state {p} hp hm := by
    rcases hst p (hs.out_of_mem hp) with he | hr
    · dsimp only
      rw [he]
      exact hs.state hp hm
    · exact .inl hr
  gone {p} hb := (hs.gone hb).step h ha (hst p (by rw [hb]; decide))
  enough := by
    refine hs.enough.mono rfl rfl rfl (fun _ _ => rfl) ?_
    intro p hp hr
    rcases hst p (hs.out_of_mem hp) with he | hr'
    · exact he.trans hr
    · exact hr'

theorem WaitInv.move (hs : WaitInv B s) (hi : ¬ B.Idle p)
    (hplace : s'.place = Function.update s.place p l) (hn : s'.queue.Nodup)
    (hmem : ∀ q, q ≠ p → (q ∈ s'.queue ↔ q ∈ s.queue)) (hp : p ∈ s'.queue ↔ l.queued = true)
    (hown : ∀ q, q ≠ p → (s'.hold = .waiter q ↔ s.hold = .waiter q))
    (hown' : s'.hold = .waiter p ↔ l.holds = true)
    (hst : ∀ q, q ≠ p → (s'.kernel.task q).state = (s.kernel.task q).state)
    (hst' : l.queued = true → l ≠ .marking →
      (s'.kernel.task p).state = .running ∨ (s'.kernel.task p).state = .uninterruptible)
    (hg : ∀ q, q ≠ p → s.place q = .back → s'.kernel.Gone q) (hg' : l = .back → s'.kernel.Gone p)
    (he : s'.Enough) : WaitInv B s' where
  busy {q} hq := by
    by_cases hqp : q = p
    · exact hqp ▸ hi
    · rw [hplace, Function.update_of_ne hqp] at hq
      exact hs.busy hq
  nodup := hn
  member {q} := by
    by_cases hqp : q = p
    · subst hqp
      rw [hplace, Function.update_self]
      exact hp
    · rw [hplace, Function.update_of_ne hqp, hmem q hqp]
      exact hs.member
  owner {q} := by
    by_cases hqp : q = p
    · subst hqp
      rw [hplace, Function.update_self]
      exact hown'
    · rw [hplace, Function.update_of_ne hqp, hown q hqp]
      exact hs.owner
  state {q} hq hm := by
    by_cases hqp : q = p
    · subst hqp
      rw [hplace, Function.update_self] at hm
      exact hst' (hp.mp hq) hm
    · rw [hplace, Function.update_of_ne hqp] at hm
      rw [hst q hqp]
      exact hs.state ((hmem q hqp).mp hq) hm
  gone {q} hb := by
    by_cases hqp : q = p
    · subst hqp
      rw [hplace, Function.update_self] at hb
      exact hg' hb
    · rw [hplace, Function.update_of_ne hqp] at hb
      exact hg q hqp hb
  enough := he

omit [DecidableEq ι] in
/-- While somebody holds `wait.lock` and has found `done` to be 0, nothing is owed. -/
theorem enough_of_zero (hh : s.hold = .waiter p) (hp : s.place p ≠ .finishing) (hd : s.done = 0) :
    s.Enough := by
  unfold Completion.Enough
  rw [hh]
  dsimp only
  rwa [if_neg hp]

omit [DecidableEq ι] in
theorem enough_of_finishing (hh : s.hold = .waiter p) (hp : s.place p = .finishing)
    (hd : 1 ≤ s.done.toNat) (hle : min (s.done - 1).toNat s.queue.length ≤ s.awake) : s.Enough := by
  unfold Completion.Enough
  rw [hh]
  dsimp only
  rw [if_pos hp]
  exact ⟨hd, hle⟩

omit [DecidableEq ι] in
theorem free_ne_waiter : (Hold.free : Hold n ι) ≠ .waiter p := by
  intro h
  cases h

omit [DecidableEq ι] in
theorem waker_ne_waiter : (Hold.waker c rest : Hold n ι) ≠ .waiter p := by
  intro h
  cases h

omit [DecidableEq ι] in
theorem waking_ne_waiter : (Hold.waking c q rest : Hold n ι) ≠ .waiter p := by
  intro h
  cases h

theorem not_queued {l : Place} {P : Prop} (h : l.queued = false) (hq : l.queued = true)
    (_ : l ≠ .marking) : P := by
  rw [h] at hq
  cases hq

omit [DecidableEq ι] in
theorem hold_take (hf : s.hold = .free) (q : ι) (hq : q ≠ p) :
    (Hold.waiter p : Hold n ι) = .waiter q ↔ s.hold = .waiter q := by
  rw [hf]
  exact iff_of_false (fun he => hq (Hold.waiter.inj he).symm) free_ne_waiter

omit [DecidableEq ι] in
theorem hold_drop (hw : s.hold = .waiter p) (q : ι) (hq : q ≠ p) :
    (Hold.free : Hold n ι) = .waiter q ↔ s.hold = .waiter q := by
  rw [hw]
  exact iff_of_false free_ne_waiter fun he => hq (Hold.waiter.inj he).symm

/-- A statement of `wait_for_completion` keeps it all. -/
theorem wait_inv (hs : WaitInv B s) (h : B.system.Reachable s.kernel)
    (hb : B.Busy s.kernel c) (hc : s.kernel.current c = p) (hw : B.wait s c p = .ok s') :
    WaitInv B s' := by
  have hi : ¬ B.Idle p := hc ▸ hb.2
  have hmem : p ∈ s.queue ↔ (s.place p).queued = true := hs.member
  have hown : s.hold = .waiter p ↔ (s.place p).holds = true := hs.owner
  have henough := hs.enough
  unfold Board.wait at hw
  split at hw
  · -- the call
    rename_i hl
    cases hw
    rw [hl] at hmem hown
    refine hs.move hi rfl hs.nodup (fun _ _ => .rfl) hmem (fun _ _ => .rfl) hown (fun _ _ => rfl)
      (not_queued rfl) (fun q _ hq => hs.gone hq) (fun he => absurd he (by decide)) ?_
    refine henough.mono rfl rfl rfl (fun q hq => Function.update_of_ne ?_ ..) fun _ _ hr => hr
    rintro rfl
    exact absurd (hown.mp hq) (by decide)
  · -- the first test of `done`
    rename_i hl hfree
    rw [hl] at hmem
    have hout : p ∉ s.queue := fun hp => absurd (hmem.mp hp) (by decide)
    rw [Completion.Enough, hfree] at henough
    split at hw
    · rename_i hz
      cases hw
      refine hs.move (l := .marking) hi rfl ?_ ?_ ?_ (hold_take hfree) (iff_of_true rfl rfl)
        (fun _ _ => rfl) (fun _ hm => absurd rfl hm) (fun q _ hq => hs.gone hq)
        (fun he => absurd he (by decide)) ?_
      · exact (List.perm_append_singleton p s.queue).nodup_iff.mpr
          (List.nodup_cons.mpr ⟨hout, hs.nodup⟩)
      · intro q hq
        simp [hq]
      · simp [Place.queued]
      · exact enough_of_zero rfl (by simp [Completion.put]) hz
    · rename_i hz
      cases hw
      refine hs.move (l := .finishing) hi rfl hs.nodup (fun _ _ => .rfl)
        (iff_of_false hout (by decide)) (hold_take hfree) (iff_of_true rfl rfl) (fun _ _ => rfl)
        (not_queued rfl) (fun q _ hq => hs.gone hq) (fun he => absurd he (by decide)) ?_
      have hawake : min s.done.toNat s.queue.length ≤ s.awake := henough
      obtain ⟨hpos, hpred⟩ := toNat_sub_one hz
      refine enough_of_finishing rfl (by simp [Completion.put]) hpos ?_
      show min (s.done - 1).toNat s.queue.length ≤ s.awake
      omega
  · -- `__set_current_state(TASK_UNINTERRUPTIBLE)`
    rename_i hl
    obtain ⟨k, hk, rfl⟩ := map_ok hw
    rw [hl] at hmem hown
    have hhold := hown.mpr rfl
    have hzero : s.done = 0 := by
      rw [Completion.Enough, hhold] at henough
      dsimp only at henough
      rwa [if_neg (by rw [hl]; decide)] at henough
    have hset : k = s.kernel.modify p fun t => { t with state := .uninterruptible } := by
      simp only [Board.perform, if_pos hb, hc] at hk
      cases hk
      rfl
    have hother (q : ι) (hq : q ≠ p) : (k.task q).state = (s.kernel.task q).state := by
      rw [hset, Kernel.task_modify, if_neg hq]
    refine hs.move (l := .unlocking) hi rfl hs.nodup (fun _ _ => .rfl) hmem (fun _ _ => .rfl) hown
      hother ?_ ?_ (fun he => absurd he (by decide)) ?_
    · intro _ _
      right
      dsimp only
      rw [hset, Kernel.task_modify, if_pos rfl]
    · intro q hq hback
      exact (hs.gone hback).step h hk (.inl (hother q hq))
    · exact enough_of_zero hhold (by simp [Completion.put]) hzero
  · -- `spin_unlock_irq`
    rename_i hl
    cases hw
    rw [hl] at hmem hown
    have hhold := hown.mpr rfl
    have hzero : s.done = 0 := by
      rw [Completion.Enough, hhold] at henough
      dsimp only at henough
      rwa [if_neg (by rw [hl]; decide)] at henough
    refine hs.move (l := .calling) hi rfl hs.nodup (fun _ _ => .rfl) hmem (hold_drop hhold)
      (iff_of_false free_ne_waiter (by decide)) (fun _ _ => rfl) ?_ (fun q _ hq => hs.gone hq)
      (fun he => absurd he (by decide)) ?_
    · intro _ _
      exact hs.state (hmem.mpr rfl) (by rw [hl]; decide)
    · show min s.done.toNat s.queue.length ≤ _
      rw [hzero]
      exact (Nat.min_le_left ..).trans (Nat.zero_le _)
  · -- `schedule`
    rename_i hl
    obtain ⟨k, hk, rfl⟩ := map_ok hw
    rw [hl] at hmem hown
    have hgoto : k = s.kernel.goto c .needReschedBack := by
      simp only [Board.perform, hb.code] at hk
      split at hk
      · cases hk
      · cases hk
        rfl
    have hstate : ∀ q, (k.task q).state = (s.kernel.task q).state := by
      intro q
      rw [hgoto]
      rfl
    refine hs.move (l := .back) hi rfl hs.nodup (fun _ _ => .rfl) hmem (fun _ _ => .rfl) hown
      (fun q _ => hstate q) ?_ ?_ ?_ ?_
    · intro _ _
      rw [hstate p]
      exact hs.state (hmem.mpr rfl) (by rw [hl]; decide)
    · intro q _ hback
      exact (hs.gone hback).step h hk (.inl (hstate q))
    · intro _
      refine .inr (.inr ⟨c, ?_, ?_⟩)
      · rw [hgoto]
        exact hc
      · rw [hgoto]
        exact Function.update_self ..
    · refine henough.mono rfl rfl rfl (fun q hq => Function.update_of_ne ?_ ..) fun q _ hr =>
        (hstate q).trans hr
      rintro rfl
      exact absurd (hown.mp hq) (by decide)
  · -- the test of `done` in the loop
    rename_i hl hfree
    rw [hl] at hmem
    have hin : p ∈ s.queue := hmem.mpr rfl
    rw [Completion.Enough, hfree] at henough
    have hrun : (s.kernel.task p).state = .running := (hs.gone hl).running h hi hc hb.code
    split at hw
    · rename_i hz
      cases hw
      refine hs.move (l := .marking) hi rfl hs.nodup (fun _ _ => .rfl) hmem (hold_take hfree)
        (iff_of_true rfl rfl) (fun _ _ => rfl) (fun _ hm => absurd rfl hm)
        (fun q _ hq => hs.gone hq) (fun he => absurd he (by decide)) ?_
      exact enough_of_zero rfl (by simp [Completion.put]) hz
    · rename_i hz
      cases hw
      refine hs.move (l := .finishing) hi rfl (hs.nodup.erase p) ?_ ?_ (hold_take hfree)
        (iff_of_true rfl rfl) (fun _ _ => rfl) (not_queued rfl) (fun q _ hq => hs.gone hq)
        (fun he => absurd he (by decide)) ?_
      · intro q hq
        exact List.mem_erase_of_ne hq
      · exact iff_of_false (fun he => (hs.nodup.mem_erase_iff.mp he).1 rfl) (by decide)
      · have hawake : min s.done.toNat s.queue.length ≤ s.awake := henough
        obtain ⟨hpos, hpred⟩ := toNat_sub_one hz
        refine enough_of_finishing rfl (by simp [Completion.put]) hpos ?_
        have hlength := List.length_erase_of_mem hin
        have hcount : (s.queue.erase p).countP (fun q => (s.kernel.task q).state = .running) + 1 =
            s.awake := by
          unfold Completion.awake
          rw [(List.perm_cons_erase hin).countP_eq, List.countP_cons_of_pos (by simpa using hrun)]
        show min (s.done - 1).toNat (s.queue.erase p).length ≤
          (s.queue.erase p).countP (fun q => (s.kernel.task q).state = .running)
        omega
  · -- `x->done--`
    rename_i hl
    cases hw
    rw [hl] at hmem hown
    have hhold := hown.mpr rfl
    have hlast : 1 ≤ s.done.toNat ∧ min (s.done - 1).toNat s.queue.length ≤ s.awake := by
      rw [Completion.Enough, hhold] at henough
      dsimp only at henough
      rwa [if_pos hl] at henough
    exact hs.move (l := .out) hi rfl hs.nodup (fun _ _ => .rfl) hmem (hold_drop hhold)
      (iff_of_false free_ne_waiter (by decide)) (fun _ _ => rfl) (not_queued rfl)
      (fun q _ hq => hs.gone hq) (fun he => absurd he (by decide)) hlast.2
  · cases hw

theorem tryToWakeUp_fresh (hs : QueueInv B k.core) (hi : ¬ B.Idle p)
    (h : B.tryToWakeUp k c p sync = .ok (k', true)) : p ∉ k.runqueue := by
  unfold Board.tryToWakeUp at h
  split at h
  · cases h
  · dsimp only at h
    split at h
    · cases h
    · rename_i hq
      rw [k.task_modify, if_pos rfl] at hq
      exact fun hp => hq ((hs.queued hi).mpr hp)

/-- A statement of `complete` keeps it all. -/
theorem complete_inv (hs : WaitInv B s) (h : B.system.Reachable s.kernel)
    (hc : B.complete s c = .ok s') : WaitInv B s' := by
  have henough := hs.enough
  -- only the waker and `done` change
  have hmove {t : Completion n ι} (hk : t.kernel = s.kernel) (hq : t.queue = s.queue)
      (hp : t.place = s.place) (ho : ∀ q, t.hold = .waiter q ↔ s.hold = .waiter q)
      (he : t.Enough) : WaitInv B t := by
    refine ⟨?_, ?_, ?_, ?_, ?_, ?_, he⟩
    · rw [hp]
      exact hs.busy
    · rw [hq]
      exact hs.nodup
    · rw [hq, hp]
      exact hs.member
    · rw [hp]
      exact (ho _).trans hs.owner
    · rw [hk, hq, hp]
      exact hs.state
    · rw [hk, hp]
      exact hs.gone
  unfold Board.complete at hc
  split at hc
  · rename_i hfree
    cases hc
    rw [Completion.Enough, hfree] at henough
    refine hmove rfl rfl rfl (fun q => iff_of_false waker_ne_waiter (hfree ▸ free_ne_waiter)) ?_
    refine ⟨fun _ => id, .inr ⟨?_, fun p hp hn => absurd hp hn⟩⟩
    have hawake : min s.done.toNat s.queue.length ≤ s.awake := henough
    have hsucc := toNat_add_one s.done
    show min (s.done + 1).toNat s.queue.length ≤ s.awake + 1
    omega
  · rename_i d hlast
    rw [Completion.Enough, hlast] at henough
    split at hc
    · cases hc
      refine hmove rfl rfl rfl (fun q => iff_of_false free_ne_waiter (hlast ▸ waker_ne_waiter)) ?_
      rcases henough.2 with hle | ⟨_, hall⟩
      · exact hle
      · have hlength : s.awake = s.queue.length := by
          unfold Completion.awake
          rw [List.countP_eq_length]
          exact fun p hp => decide_eq_true (hall p hp List.not_mem_nil)
        show min s.done.toNat s.queue.length ≤ s.awake
        omega
    · cases hc
  · rename_i d p rest hwaker
    rw [Completion.Enough, hwaker] at henough
    obtain ⟨hsub, howes⟩ := henough
    split at hc
    · cases hc
    · cases hc
      split
      · exact hmove rfl rfl rfl (fun q => iff_of_false waking_ne_waiter (hwaker ▸ waker_ne_waiter))
          ⟨hsub, howes⟩
      · rename_i hmode
        refine hmove rfl rfl rfl
          (fun q => iff_of_false waker_ne_waiter (hwaker ▸ waker_ne_waiter)) ?_
        refine ⟨fun q hq => hsub q (List.mem_cons_of_mem p hq), ?_⟩
        rcases howes with hle | ⟨hle, hall⟩
        · exact .inl hle
        · refine .inr ⟨hle, fun q hq hrest => ?_⟩
          by_cases hqp : q = p
          · subst hqp
            have hmark : s.place q ≠ .marking := by
              intro hm
              have hheld := hs.owner.mpr (show (s.place q).holds = true by rw [hm]; rfl)
              rw [hwaker] at hheld
              cases hheld
            rcases hs.state hq hmark with hr | hu
            · exact hr
            · rw [hu] at hmode
              exact absurd (by decide) hmode
          · exact hall q hq fun hin => hrest ((List.mem_cons.mp hin).resolve_left hqp)
  · rename_i d p rest hwaking
    rw [Completion.Enough, hwaking] at henough
    obtain ⟨hsub, howes⟩ := henough
    split at hc
    · cases hc
    · obtain ⟨⟨k, success⟩, hwake, rfl⟩ := map_ok hc
      have hp : p ∈ s.queue := hsub p List.mem_cons_self
      have hi := hs.busy (hs.out_of_mem hp)
      obtain ⟨hstirs, hrun⟩ := stirs_tryToWakeUp hwake
      have ha : B.perform s.kernel (.wake c p false) = .ok k := by
        simp only [Board.perform, if_neg hi, hwake]
        rfl
      have hkernel := hs.kernel h ha fun q _ => hstirs q
      have hkeep (q : ι) (hr : (s.kernel.task q).state = .running) :
          (k.task q).state = .running := by
        rcases hstirs q with he | hr'
        · exact he.trans hr
        · exact hr'
      refine ⟨hkernel.busy, hkernel.nodup, hkernel.member, ?_, hkernel.state, hkernel.gone, ?_⟩
      · intro q
        refine iff_of_false waker_ne_waiter fun hq => ?_
        have hheld := hs.owner.mpr hq
        rw [hwaking] at hheld
        cases hheld
      · have howes' : Completion.Owes { s with kernel := k } (p :: rest) :=
          howes.mono rfl rfl fun q _ => hkeep q
        cases success with
        | true =>
          refine ⟨List.forall_mem_nil _, .inl ?_⟩
          have hold : (s.kernel.task p).state ≠ .running := by
            intro hr
            have hinv := (reachable_inv h).1
            exact tryToWakeUp_fresh hinv.queue hi hwake (hinv.state.awake hi hr)
          have hmore : s.awake + 1 ≤ s.queue.countP fun q => (k.task q).state = .running := by
            have hperm := List.perm_cons_erase hp
            unfold Completion.awake
            rw [hperm.countP_eq, hperm.countP_eq, List.countP_cons_of_neg (by simpa using hold),
              List.countP_cons_of_pos (by simpa using hrun)]
            apply Nat.succ_le_succ
            apply List.countP_mono_left
            exact fun q _ hr => decide_eq_true (hkeep q (of_decide_eq_true hr))
          have hle : min s.done.toNat s.queue.length ≤ s.awake + 1 := by
            rcases howes with hle | hle
            · omega
            · exact hle.1
          exact hle.trans hmore
        | false =>
          refine ⟨fun q hq => hsub q (List.mem_cons_of_mem p hq), ?_⟩
          rcases howes' with hle | ⟨hle, hall⟩
          · exact .inl hle
          · refine .inr ⟨hle, fun q hq hrest => ?_⟩
            by_cases hqp : q = p
            · rw [hqp]
              exact hrun
            · exact hall q hq fun hin => hrest ((List.mem_cons.mp hin).resolve_left hqp)
  · cases hc

/-- The kernel under a completion is the kernel of before, and every state keeps the accounts. -/
theorem completion_inv (h : B.completion.Reachable s) :
    B.system.Reachable s.kernel ∧ WaitInv B s := by
  apply h.invariant (I := fun s => B.system.Reachable s.kernel ∧ WaitInv B s)
  · intro s hf
    refine ⟨.start hf.booted, ?_, ?_, ?_, ?_, ?_, ?_, ?_⟩
    · intro p hp
      exact absurd (hf.place p) hp
    · rw [hf.queue]
      exact List.nodup_nil
    · intro p
      rw [hf.queue, hf.place p]
      exact iff_of_false List.not_mem_nil (by decide)
    · intro p
      rw [hf.hold, hf.place p]
      exact iff_of_false free_ne_waiter (by decide)
    · intro p hp
      rw [hf.queue] at hp
      cases hp
    · intro p hp
      rw [hf.place p] at hp
      cases hp
    · unfold Completion.Enough
      rw [hf.hold]
      dsimp only
      rw [hf.done]
      exact (Nat.min_le_left ..).trans (Nat.zero_le _)
  · rintro s s' ⟨hreach, hinv⟩ ⟨e, he⟩
    cases e with
    | other a =>
      simp only [Board.attend] at he
      split at he
      · rename_i hallow
        obtain ⟨k, hk, rfl⟩ := map_ok he
        refine ⟨hreach.next ⟨a, hk⟩, hinv.kernel hreach hk ?_⟩
        intro p hp
        rcases perform_state hk with hstirs | ⟨c, st, rfl, hb, rfl⟩
        · exact hstirs p
        · left
          have hout := hallow.2 c rfl
          rw [Kernel.task_modify, if_neg]
          rintro rfl
          exact hp hout
      · cases he
    | wait c =>
      simp only [Board.attend] at he
      split at he
      · rename_i hb
        refine ⟨?_, wait_inv hinv hreach hb.1 rfl he⟩
        unfold Board.wait at he
        split at he
        · cases he
          exact hreach
        · split at he <;> cases he <;> exact hreach
        · obtain ⟨k, hk, rfl⟩ := map_ok he
          exact hreach.next ⟨_, hk⟩
        · cases he
          exact hreach
        · obtain ⟨k, hk, rfl⟩ := map_ok he
          exact hreach.next ⟨_, hk⟩
        · split at he <;> cases he <;> exact hreach
        · cases he
          exact hreach
        · cases he
      · cases he
    | complete c =>
      simp only [Board.attend] at he
      split at he
      · cases he
      · refine ⟨?_, complete_inv hinv hreach he⟩
        unfold Board.complete at he
        split at he
        · cases he
          exact hreach
        · split at he <;> cases he
          exact hreach
        · split at he <;> cases he
          exact hreach
        · rename_i d p rest hwaking
          split at he
          · cases he
          · obtain ⟨⟨k, success⟩, hwake, rfl⟩ := map_ok he
            have henough := hinv.enough
            rw [Completion.Enough, hwaking] at henough
            have hi := hinv.busy (hinv.out_of_mem (henough.1 p List.mem_cons_self))
            refine hreach.next ⟨.wake c p false, ?_⟩
            simp only [Board.perform, if_neg hi, hwake]
            rfl
        · cases he

/-- No completion is lost: when nobody has `wait.lock`, as many of the tasks that wait are runnable
and on the run queue as there are completions left for them, however wake-ups by others, signals and
switches of the CPUs come in between. And `done` is never counted down from 0. -/
theorem no_lost_completion (h : B.completion.Reachable s) :
    (s.hold = .free → min s.done.toNat s.queue.length ≤ s.queue.countP fun p =>
      (s.kernel.task p).state = .running ∧ p ∈ s.kernel.runqueue) ∧
    ∀ p, s.place p = .finishing → 1 ≤ s.done.toNat := by
  obtain ⟨hreach, hinv⟩ := completion_inv h
  have henough := hinv.enough
  constructor
  · intro hfree
    rw [Completion.Enough, hfree] at henough
    refine le_trans henough ?_
    apply List.countP_mono_left
    intro p hp hr
    have hrun := of_decide_eq_true hr
    have hi := hinv.busy (hinv.out_of_mem hp)
    exact decide_eq_true ⟨hrun, (reachable_inv hreach).1.state.awake hi hrun⟩
  · intro p hf
    have hhold := hinv.owner.mpr (show (s.place p).holds = true by rw [hf]; rfl)
    rw [Completion.Enough, hhold] at henough
    dsimp only at henough
    rw [if_pos hf] at henough
    exact henough.1

/-- The events happen one after the other, if all of them can. -/
def Board.follow (B : Board n ι) (s : Completion n ι) (es : List (Event n ι)) :
    Option (Completion n ι) :=
  System.play (fun s e => (B.attend s e).toOption) s es

theorem Board.follow_reachable (h : B.completion.Reachable s) (hf : B.follow s es = some s') :
    B.completion.Reachable s' := by
  refine h.play ?_ es hf
  intro u e v he
  refine ⟨e, ?_⟩
  cases hp : B.attend u e with
  | ok w =>
    rw [hp] at he
    cases he
    rfl
  | error e =>
    rw [hp] at he
    cases he

/-- The process waits for a completion and has been taken off CPU 0 when CPU 1 completes it. -/
def pairCompleted : Completion 2 (Fin 4) :=
  (pair.follow ⟨pairBoot, 0, [], .free, fun _ => .out⟩
    (.other (.schedule cpu0) :: List.replicate 9 (.other (.advance cpu0 0)) ++
      List.replicate 5 (.wait cpu0) ++ List.replicate 8 (.other (.advance cpu0 0)) ++
      List.replicate 4 (.complete cpu1))).get (by decide +kernel)

theorem pairCompleted_reachable : pair.completion.Reachable pairCompleted :=
  Board.follow_reachable (.start ⟨pairBoot_booted, rfl, rfl, rfl, fun _ => rfl⟩)
    (Option.some_get _).symm

theorem no_lost_completion_pair : (pairCompleted.kernel.task 2).state = .running ∧
    2 ∈ pairCompleted.kernel.runqueue := by
  have howed := (no_lost_completion pairCompleted_reachable).1 rfl
  have hqueue : pairCompleted.queue = [2] := by decide +kernel
  have hdone : pairCompleted.done = 1 := by decide +kernel
  rw [hqueue, hdone] at howed
  by_contra hnot
  rw [List.countP_cons_of_neg (by simpa using hnot)] at howed
  exact absurd howed (by decide)

end

end NoblesseOblige.Scheduler
