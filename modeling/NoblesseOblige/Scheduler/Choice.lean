import NoblesseOblige.Scheduler.Settings

namespace NoblesseOblige.Scheduler
open CString
set_option autoImplicit true

/-- The task is neither ordinary nor about to yield. -/
def Task.RealTime (t : Task n) : Prop := t.policy &&& schedYield = 0 ∧ t.policy ≠ schedOther

instance (t : Task n) : Decidable t.RealTime :=
  inferInstanceAs (Decidable (t.policy &&& schedYield = 0 ∧ t.policy ≠ schedOther))

section
variable {B : Board n ι} {t : Task n}

theorem goodness_yield (h : t.policy &&& schedYield ≠ 0) : B.goodness t cpu mm = -1 := by
  unfold Board.goodness
  rw [if_pos h]

theorem goodness_realTime (h : t.RealTime) (hs : Sane B t.settings) :
    B.goodness t cpu mm = 1000 + t.rtPriority := by
  have hprio : 0 ≤ t.rtPriority ∧ t.rtPriority ≤ 99 := hs.priority
  unfold Board.goodness
  rw [if_neg (not_not.mpr h.1), if_neg h.2]
  exact toInt_eq_self (by omega) (by omega)

theorem goodness_exhausted (h : t.policy = schedOther) (hc : t.counter = 0) :
    B.goodness t cpu mm = 0 := by
  unfold Board.goodness
  rw [h, hc]
  rfl

/-- An ordinary task with ticks left weighs something, and less than any real-time task. -/
theorem goodness_other (cpu : Fin n) (mm : Option Nat) (h : t.policy = schedOther)
    (hc : t.counter ≠ 0) (hs : Sane B t.settings) (hpen : 0 ≤ B.penalty ∧ B.penalty ≤ 600) :
    1 ≤ B.goodness t cpu mm ∧ B.goodness t cpu mm < 1000 := by
  have hcounter : 0 ≤ t.counter ∧ t.counter ≤ 2 * B.niceToTicks (-20) := hs.counter
  have hnice : -20 ≤ t.nice ∧ t.nice ≤ 19 := hs.nice
  have hticks := niceToTicks_le B
  have hweight : toInt t.counter = t.counter := toInt_eq_self (by omega) (by omega)
  have hyield : ¬ t.policy &&& schedYield ≠ 0 := by
    rw [h]
    decide
  unfold Board.goodness
  rw [if_neg hyield, if_pos h]
  dsimp only
  rw [hweight, if_neg hc]
  -- the first and the second advantage
  generalize hfirst : (if t.processor = cpu then toInt (t.counter + B.penalty)
    else t.counter) = first
  have hfirst' : 1 ≤ first ∧ first ≤ 922 := by
    rw [← hfirst]
    split
    · rw [toInt_eq_self (by omega) (by omega)]
      omega
    · omega
  generalize hsecond : (if t.mm = mm ∨ t.mm = none then toInt (first + 1) else first) = second
  have hsecond' : 1 ≤ second ∧ second ≤ 923 := by
    rw [← hsecond]
    split
    · rw [toInt_eq_self (by omega) (by omega)]
      omega
    · omega
  rw [toInt_eq_self (by omega) (by omega)]
  omega

theorem realTime_cases (t : Task n) : t.policy &&& schedYield ≠ 0 ∨ t.policy = schedOther ∨
    t.RealTime := by
  by_cases hy : t.policy &&& schedYield = 0
  · by_cases ho : t.policy = schedOther
    · exact .inr (.inl ho)
    · exact .inr (.inr ⟨hy, ho⟩)
  · exact .inl hy

theorem goodness_sane (hs : Sane B t.settings) (hpen : 0 ≤ B.penalty ∧ B.penalty ≤ 600)
    (cpu : Fin n) (mm : Option Nat) :
    (B.goodness t cpu mm = -1 ↔ t.policy &&& schedYield ≠ 0) ∧
      (B.goodness t cpu mm = 0 ↔ t.policy = schedOther ∧ t.counter = 0) ∧
      (1000 ≤ B.goodness t cpu mm ↔ t.RealTime) ∧
      -1 ≤ B.goodness t cpu mm ∧ B.goodness t cpu mm ≤ 1099 := by
  have hother : schedOther &&& schedYield = 0 := by decide
  rcases realTime_cases t with hy | ho | hrt
  · rw [goodness_yield hy]
    have hne : t.policy ≠ schedOther := fun ho => hy (ho ▸ hother)
    exact ⟨iff_of_true rfl hy, iff_of_false (by omega) (fun h => hne h.1),
      iff_of_false (by omega) (fun h => hy h.1), by omega, by omega⟩
  · have hy : ¬ t.policy &&& schedYield ≠ 0 := by
      rw [ho]
      exact not_not.mpr hother
    have hrt : ¬ t.RealTime := fun h => h.2 ho
    by_cases hc : t.counter = 0
    · rw [goodness_exhausted ho hc]
      exact ⟨iff_of_false (by omega) hy, iff_of_true rfl ⟨ho, hc⟩, iff_of_false (by omega) hrt,
        by omega, by omega⟩
    · have hg := goodness_other cpu mm ho hc hs hpen
      exact ⟨iff_of_false (by omega) hy, iff_of_false (by omega) (fun h => hc h.2),
        iff_of_false (by omega) hrt, by omega, by omega⟩
  · have hprio : 0 ≤ t.rtPriority ∧ t.rtPriority ≤ 99 := hs.priority
    rw [goodness_realTime hrt hs]
    exact ⟨iff_of_false (by omega) (not_not.mpr hrt.1),
      iff_of_false (by omega) (fun h => hrt.2 h.1), iff_of_true (by omega) hrt, by omega, by omega⟩

def Board.weight (B : Board n ι) (k : Kernel n ι) (c : Fin n) (p : ι) : Int :=
  B.goodness (k.task p) (k.thisCpu c) (k.task (k.current c)).activeMm

/-- The CPU looks for the next task to run. -/
def Pc.scanning : Pc n ι → Bool
  | .scan .. => true
  | _ => false

theorem scanning_scan {l : Pc n ι} (h : l.scanning = true) :
    ∃ rest w next, l = .scan rest w next := by
  cases l with
  | scan rest w next => exact ⟨rest, w, next, rfl⟩
  | _ => cases h

end

section
variable [DecidableEq ι] {B : Board n ι} {k k' u v : Kernel n ι} {as : List (Act n ι)}

/-- At the moment `u` of the run the scan of the CPU has come to `p`, and weighs it. -/
def Board.Examines (B : Board n ι) (c : Fin n) (k : Kernel n ι) (as : List (Act n ι)) (p : ι)
    (u : Kernel n ι) : Prop :=
  ∃ cycles v rest w next, System.Goes B.act k as u (.advance c cycles) v ∧
    u.pc c = .scan (p :: rest) w next

/-- Of the tasks that have been examined, each weighed when the scan came to it, `next` is the
first of those that weighed most. -/
def Board.Best (B : Board n ι) (c : Fin n) (k : Kernel n ι) (as : List (Act n ι)) (seen : List ι)
    (w : Int) (next : ι) : Prop :=
  (next = B.idleTask c ∧ w = -1000 ∧ ∀ p ∈ seen, ∃ u, B.Examines c k as p u ∧
    ((u.task p).canSchedule c = true → B.weight u c p ≤ w)) ∨
  ∃ before after, seen = before ++ next :: after ∧
    (∀ p ∈ before, ∃ u, B.Examines c k as p u ∧
      ((u.task p).canSchedule c = true → B.weight u c p < w)) ∧
    (∃ u, B.Examines c k as next u ∧ (u.task next).canSchedule c = true ∧
      B.weight u c next = w) ∧
    ∀ p ∈ after, ∃ u, B.Examines c k as p u ∧
      ((u.task p).canSchedule c = true → B.weight u c p ≤ w)

theorem Board.Examines.append (h : B.Examines c k as p u) (bs : List (Act n ι)) :
    B.Examines c k (as ++ bs) p u := by
  obtain ⟨cycles, v, rest, w, next, hg, hc⟩ := h
  exact ⟨cycles, v, rest, w, next, hg.append bs, hc⟩

theorem examined_append {P : ι → Kernel n ι → Prop} {l : List ι} (bs : List (Act n ι))
    (h : ∀ p ∈ l, ∃ u, B.Examines c k as p u ∧ P p u) (p : ι) (hp : p ∈ l) :
    ∃ u, B.Examines c k (as ++ bs) p u ∧ P p u := by
  obtain ⟨u, hu, hw⟩ := h p hp
  exact ⟨u, hu.append bs, hw⟩

theorem Board.Best.append (h : B.Best c k as seen w next) (bs : List (Act n ι)) :
    B.Best c k (as ++ bs) seen w next := by
  rcases h with ⟨hn, hw, hseen⟩ | ⟨before, after, hseen, hbefore, ⟨u, hu, hnext⟩, hafter⟩
  · exact .inl ⟨hn, hw, examined_append bs hseen⟩
  · exact .inr ⟨before, after, hseen, examined_append bs hbefore, ⟨u, hu.append bs, hnext⟩,
      examined_append bs hafter⟩

/-- A task that does not weigh more changes nothing. -/
theorem Board.Best.skip (h : B.Best c k as seen w next) (hu : B.Examines c k as p u)
    (hp : (u.task p).canSchedule c = true → B.weight u c p ≤ w) :
    B.Best c k as (seen ++ [p]) w next := by
  have hall {l : List ι}
      (hl : ∀ q ∈ l, ∃ u, B.Examines c k as q u ∧
        ((u.task q).canSchedule c = true → B.weight u c q ≤ w))
      (q : ι) (hq : q ∈ l ++ [p]) : ∃ u, B.Examines c k as q u ∧
        ((u.task q).canSchedule c = true → B.weight u c q ≤ w) := by
    rcases List.mem_append.mp hq with hq | hq
    · exact hl q hq
    · rw [List.mem_singleton.mp hq]
      exact ⟨u, hu, hp⟩
  rcases h with ⟨hn, hw, hseen⟩ | ⟨before, after, rfl, hbefore, hnext, hafter⟩
  · exact .inl ⟨hn, hw, hall hseen⟩
  · refine .inr ⟨before, after ++ [p], ?_, hbefore, hnext, hall hafter⟩
    rw [List.append_assoc, List.cons_append]

/-- A task that weighs more is the new choice, and all before it weigh less. -/
theorem Board.Best.take (h : B.Best c k as seen w next) (hw : w < B.weight u c p)
    (hu : B.Examines c k as p u) (hp : (u.task p).canSchedule c = true) :
    B.Best c k as (seen ++ [p]) (B.weight u c p) p := by
  refine .inr ⟨seen, [], rfl, ?_, ⟨u, hu, hp, rfl⟩, nofun⟩
  intro q hq
  rcases h with ⟨_, _, hseen⟩ | ⟨before, after, rfl, hbefore, hnext, hafter⟩
  · obtain ⟨v, hv, hworse⟩ := hseen q hq
    exact ⟨v, hv, fun hcan => (hworse hcan).trans_lt hw⟩
  · rcases List.mem_append.mp hq with hq | hq
    · obtain ⟨v, hv, hworse⟩ := hbefore q hq
      exact ⟨v, hv, fun hcan => (hworse hcan).trans hw⟩
    · rcases List.mem_cons.mp hq with rfl | hq
      · obtain ⟨v, hv, _, hweight⟩ := hnext
        exact ⟨v, hv, fun _ => hweight ▸ hw⟩
      · obtain ⟨v, hv, hworse⟩ := hafter q hq
        exact ⟨v, hv, fun hcan => (hworse hcan).trans_lt hw⟩

/-- What `goodness` says of a task is what its comment promises, in every state of every run: -1 of
one that yields, 0 of one that is out of time, from 1000 on of a real-time one and in between of the
others. -/
theorem goodness_means (hb : B.Booted k) (hs : Sane B (k.task p).settings)
    (hpen : 0 ≤ B.penalty ∧ B.penalty ≤ 600) (hr : Relation.ReflTransGen B.system.step k k')
    (cpu : Fin n) (mm : Option Nat) :
    (B.goodness (k'.task p) cpu mm = -1 ↔ (k'.task p).policy &&& schedYield ≠ 0) ∧
      (B.goodness (k'.task p) cpu mm = 0 ↔
        (k'.task p).policy = schedOther ∧ (k'.task p).counter = 0) ∧
      (1000 ≤ B.goodness (k'.task p) cpu mm ↔ (k'.task p).RealTime) ∧
      -1 ≤ B.goodness (k'.task p) cpu mm ∧ B.goodness (k'.task p) cpu mm ≤ 1099 :=
  goodness_sane (run_sane hb hs hr).settings hpen cpu mm

theorem goodness_means_pair : (pairRun.task 2).RealTime ↔
    1000 ≤ pair.goodness (pairRun.task 2) 1 none :=
  ((goodness_means pairBoot_booted (pair_sane 2 (by decide)) (by decide)
    (Board.run_steps (Option.some_get _).symm) 1 none).2.2.1).symm

/-- While a CPU scans, it goes on to the next task only by its own step. -/
theorem scan_step (ha : B.perform k a = .ok k') (hc : k.pc c = .scan rest w next)
    (hc' : k'.pc c = .scan rest' w' next') :
    (rest' = rest ∧ w' = w ∧ next' = next) ∨
      ∃ cycles p, a = .advance c cycles ∧ rest = p :: rest' ∧
        if (k.task p).canSchedule (k.thisCpu c) ∧ B.weight k c p > w then
          w' = B.weight k c p ∧ next' = p
        else w' = w ∧ next' = next := by
  rcases (perform_effect ha).pc c with hsame | hcode | ⟨cycles, rfl⟩
  · rw [hsame, hc] at hc'
    cases hc'
    exact .inl ⟨rfl, rfl, rfl⟩
  · rw [hcode] at hc
    cases hc
  · right
    simp only [Board.perform] at ha
    cases rest with
    | nil =>
      simp only [Board.advance, hc, Board.choose] at ha
      split at ha
      · cases ha
        simp [Kernel.goto] at hc'
      · cases ha
        simp only [Kernel.goto, Function.update_self] at hc'
        split at hc' <;> cases hc'
    | cons p rest =>
      simp only [Board.advance, hc, Board.examine] at ha
      refine ⟨cycles, p, rfl, ?_⟩
      unfold Board.weight
      split at ha
      · rename_i hbest
        cases ha
        simp only [Kernel.goto, Function.update_self] at hc'
        cases hc'
        rw [if_pos hbest]
        exact ⟨rfl, rfl, rfl⟩
      · rename_i hbest
        cases ha
        simp only [Kernel.goto, Function.update_self] at hc'
        cases hc'
        rw [if_neg hbest]
        exact ⟨rfl, rfl, rfl⟩

theorem thisCpu_eq (h : B.system.Reachable k) (c : Fin n) : k.thisCpu c = c :=
  (reachable_inv h).1.own.home c

/-- The invariant of the scan. -/
theorem scan_best (h : B.system.Reachable k)
    (hc : k.pc c = .scan k.runqueue (-1000) (B.idleTask c)) (hr : B.run k as = some u)
    (hscan : System.Keeps B.act k as fun u => (u.pc c).scanning = true)
    (hu : u.pc c = .scan rest w next) :
    ∃ seen, k.runqueue = seen ++ rest ∧ B.Best c k as seen w next := by
  induction as using List.reverseRecOn generalizing u rest w next with
  | nil =>
    cases hr
    rw [hc] at hu
    cases hu
    exact ⟨[], rfl, .inl ⟨rfl, rfl, nofun⟩⟩
  | append_singleton as a ih =>
    obtain ⟨v, hv, ha⟩ := System.play_concat hr
    obtain ⟨rest', w', next', hvc⟩ := scanning_scan (hscan.init.last hv)
    obtain ⟨seen, hseen, hbest⟩ := ih hv hscan.init hvc
    have hbest := hbest.append [a]
    have hperform := Board.act_eq_some.mp ha
    rcases scan_step hperform hvc hu with ⟨rfl, rfl, rfl⟩ | ⟨cycles, p, rfl, rfl, hif⟩
    · exact ⟨seen, hseen, hbest⟩
    · rw [thisCpu_eq (h.run (Board.run_steps hv))] at hif
      have hex : B.Examines c k (as ++ [.advance c cycles]) p v :=
        ⟨cycles, u, rest, w', next', .last hv ha, hvc⟩
      refine ⟨seen ++ [p], by rw [hseen, List.append_assoc, List.singleton_append], ?_⟩
      split at hif
      · rename_i hbetter
        obtain ⟨rfl, rfl⟩ := hif
        exact hbest.take hbetter.2 hex hbetter.1
      · rename_i hworse
        obtain ⟨rfl, rfl⟩ := hif
        apply hbest.skip hex
        exact fun hcan => not_lt.mp fun hlt => hworse ⟨hcan, hlt⟩

theorem examined_sane (hb : B.Booted k₀) (hs : Sane B (k₀.task q).settings)
    (h : Relation.ReflTransGen B.system.step k₀ k) (hu : B.Examines c k as p u) :
    Sane B (u.task q).settings := by
  obtain ⟨_, _, _, _, _, ⟨before, _, _, hrun, _⟩, _⟩ := hu
  exact (run_sane hb hs (h.trans (Board.run_steps hrun))).settings

/-- Whatever happens meanwhile, a scan ends with the first of the tasks that weighed most when the
scan came to them, or with the idle task if then the CPU could have none of them. -/
theorem scan_chooses (hb : B.Booted k₀) (hs : ∀ p, ¬ B.Idle p → Sane B (k₀.task p).settings)
    (hpen : 0 ≤ B.penalty ∧ B.penalty ≤ 600) (h : Relation.ReflTransGen B.system.step k₀ k)
    (hc : k.pc c = .scan k.runqueue (-1000) (B.idleTask c)) (hr : B.run k as = some k')
    (hscan : System.Keeps B.act k as fun u => (u.pc c).scanning = true)
    (hc' : k'.pc c = .scan [] w next) :
    (next = B.idleTask c ∧
      ∀ p ∈ k.runqueue, ∃ u, B.Examines c k as p u ∧ (u.task p).canSchedule c = false) ∨
    ∃ before after, k.runqueue = before ++ next :: after ∧
      (∀ p ∈ before, ∃ u, B.Examines c k as p u ∧
        ((u.task p).canSchedule c = true → B.weight u c p < w)) ∧
      (∃ u, B.Examines c k as next u ∧ (u.task next).canSchedule c = true ∧
        B.weight u c next = w) ∧
      ∀ p ∈ after, ∃ u, B.Examines c k as p u ∧
        ((u.task p).canSchedule c = true → B.weight u c p ≤ w) := by
  have hreach : B.system.Reachable k := .run (.start hb) h
  obtain ⟨seen, hseen, hbest⟩ := scan_best hreach hc hr hscan hc'
  rw [List.append_nil] at hseen
  rcases hbest with ⟨hn, hw, hall⟩ | hbest
  · refine .inl ⟨hn, fun p hp => ?_⟩
    have hidle : ¬ B.Idle p := (reachable_inv hreach).1.queue.busy hp
    rw [hseen] at hp
    obtain ⟨u, hu, hworse⟩ := hall p hp
    refine ⟨u, hu, ?_⟩
    rw [Bool.eq_false_iff]
    intro hcan
    have hlow := (goodness_sane (examined_sane hb (hs p hidle) h hu) hpen (u.thisCpu c)
      (u.task (u.current c)).activeMm).2.2.2.1
    have hweight : B.weight u c p ≤ w := hworse hcan
    unfold Board.weight at hweight
    omega
  · rw [hseen]
    exact .inr hbest

/-- The kernel thread is awake, the process has lost a tick, and its CPU starts a scan of the
two. -/
def pairFirst : Kernel 2 (Fin 4) :=
  (pair.run pairRun [.wake cpu1 kthread false, .tick cpu0, .schedule cpu0, .advance cpu0 0]).get
    (by decide +kernel)

theorem pairFirst_steps : Relation.ReflTransGen pair.system.step pairBoot pairFirst :=
  (Board.run_steps (Option.some_get _).symm).trans (Board.run_steps (Option.some_get _).symm)

/-- Between the two examinations the process gets a signal, and the other CPU comes to the lock. -/
def pairScan : List (Act 2 (Fin 4)) :=
  [.advance cpu0 0, .signal process true, .schedule cpu1, .advance cpu0 0]

def pairExamined : Kernel 2 (Fin 4) := (pair.run pairFirst pairScan).get (by decide +kernel)

theorem scan_chooses_pair :
    (∃ u, pair.Examines 0 pairFirst pairScan 2 u ∧
      ((u.task 2).canSchedule 0 = true → pair.weight u 0 2 < 42)) ∧
    ∃ u, pair.Examines 0 pairFirst pairScan 3 u ∧ pair.weight u 0 3 = 42 := by
  have hc : pairExamined.pc 0 = .scan [] 42 3 := rfl
  rcases scan_chooses pairBoot_booted pair_sane (by decide) pairFirst_steps rfl
      (Option.some_get _).symm (by decide +kernel) hc with
    ⟨hidle, _⟩ | ⟨before, after, hq, hbefore, ⟨u, hu, _, hw⟩, _⟩
  · exact absurd hidle (by decide)
  · have hq : [2, 3] = before ++ 3 :: after := hq
    have hmem : 2 ∈ before := by
      cases before with
      | nil => cases hq
      | cons p before => exact (List.cons.inj hq).1 ▸ List.mem_cons_self
    exact ⟨hbefore 2 hmem, u, hu, hw⟩

/-- A real-time task that the CPU can have during the whole scan is passed over only for one of at
least its priority. -/
theorem scan_no_inversion (hb : B.Booted k₀) (hs : ∀ p, ¬ B.Idle p → Sane B (k₀.task p).settings)
    (hpen : 0 ≤ B.penalty ∧ B.penalty ≤ 600) (h : Relation.ReflTransGen B.system.step k₀ k)
    (hc : k.pc c = .scan k.runqueue (-1000) (B.idleTask c)) (hp : p ∈ k.runqueue)
    (hr : B.run k as = some k')
    (hscan : System.Keeps B.act k as fun u =>
      (u.pc c).scanning = true ∧ (u.task p).canSchedule c = true ∧ (u.task p).RealTime)
    (hc' : k'.pc c = .scan [] w next) :
    ∃ u v, B.Examines c k as next u ∧ B.Examines c k as p v ∧
      (u.task next).canSchedule c = true ∧ (u.task next).RealTime ∧
        (v.task p).rtPriority ≤ (u.task next).rtPriority := by
  have hreach : B.system.Reachable k := .run (.start hb) h
  have hsane {q q' u} (hq : q ∈ k.runqueue) (hu : B.Examines c k as q' u) :
      Sane B (u.task q).settings :=
    examined_sane hb (hs q ((reachable_inv hreach).1.queue.busy hq)) h hu
  -- the weight of the task when the scan comes to it
  have hown {v} (hv : B.Examines c k as p v) :
      (v.task p).canSchedule c = true ∧ B.weight v c p = 1000 + (v.task p).rtPriority := by
    have ⟨_, _, _, _, _, hg, _⟩ := hv
    have hstill := hscan.goes hg
    exact ⟨hstill.2.1, goodness_realTime hstill.2.2 (hsane hp hv)⟩
  obtain ⟨seen, hseen, hbest⟩ := scan_best hreach hc hr (hscan.mono fun _ hu => hu.1) hc'
  rw [List.append_nil] at hseen
  have hweighed : ∃ v, B.Examines c k as p v ∧ 1000 + (v.task p).rtPriority ≤ w := by
    rw [hseen] at hp
    rcases hbest with ⟨_, _, hall⟩ | ⟨before, after, rfl, hbefore, hnext, hafter⟩
    · obtain ⟨v, hv, hworse⟩ := hall p hp
      exact ⟨v, hv, (hown hv).2 ▸ hworse (hown hv).1⟩
    · rcases List.mem_append.mp hp with hp | hp
      · obtain ⟨v, hv, hworse⟩ := hbefore p hp
        exact ⟨v, hv, ((hown hv).2 ▸ hworse (hown hv).1).le⟩
      · rcases List.mem_cons.mp hp with rfl | hp
        · obtain ⟨v, hv, _, hw⟩ := hnext
          exact ⟨v, hv, ((hown hv).2 ▸ hw).le⟩
        · obtain ⟨v, hv, hworse⟩ := hafter p hp
          exact ⟨v, hv, (hown hv).2 ▸ hworse (hown hv).1⟩
  obtain ⟨v, hv, hw⟩ := hweighed
  have hhigh : 1000 ≤ w := by
    have hprio : 0 ≤ (v.task p).rtPriority ∧ (v.task p).rtPriority ≤ 99 := (hsane hp hv).priority
    omega
  rcases hbest with ⟨_, hw, _⟩ | ⟨before, after, hmem, _, ⟨u, hu, hcan, hweight⟩, _⟩
  · omega
  · have hnext : next ∈ k.runqueue := by
      rw [hseen, hmem]
      exact List.mem_append_right before List.mem_cons_self
    have hrt : (u.task next).RealTime :=
      (goodness_sane (hsane hnext hu) hpen _ _).2.2.1.mp (hhigh.trans hweight.ge)
    have hprio : B.weight u c next = 1000 + (u.task next).rtPriority :=
      goodness_realTime hrt (hsane hnext hu)
    exact ⟨u, v, hu, hv, hcan, hrt, by omega⟩

/-- The process has made itself a real-time one of priority 20 and its thread one of priority 50,
and its CPU starts a scan of the two. -/
def pairUrgent : Kernel 2 (Fin 4) :=
  (pair.run pairRun [.wake cpu1 kthread false, .setscheduler cpu0 12 2 (.priority 20),
    .advance cpu0 0, .setscheduler cpu0 13 1 (.priority 50), .advance cpu0 0, .schedule cpu0,
    .advance cpu0 0]).get (by decide +kernel)

theorem scan_no_inversion_pair : ∃ u v, pair.Examines 0 pairUrgent pairScan 3 u ∧
    pair.Examines 0 pairUrgent pairScan 2 v ∧ (u.task 3).RealTime ∧
      (v.task 2).rtPriority ≤ (u.task 3).rtPriority := by
  have hsteps : Relation.ReflTransGen pair.system.step pairBoot pairUrgent :=
    (Board.run_steps (Option.some_get _).symm).trans (Board.run_steps (Option.some_get _).symm)
  have hend : ∃ k, pair.run pairUrgent pairScan = some k ∧ k.pc 0 = .scan [] 1050 3 :=
    ⟨_, rfl, rfl⟩
  obtain ⟨k, hr, hc⟩ := hend
  obtain ⟨u, v, hu, hv, _, hrt, hprio⟩ := scan_no_inversion (p := 2) pairBoot_booted pair_sane
    (by decide) hsteps rfl (by decide +kernel) hr (by decide +kernel) hc
  exact ⟨u, v, hu, hv, hrt, hprio⟩

end

end NoblesseOblige.Scheduler
