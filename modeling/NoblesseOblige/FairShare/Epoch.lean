import NoblesseOblige.CString
import NoblesseOblige.FairShare.Kernel
import NoblesseOblige.Quota
import NoblesseOblige.Transition
import Mathlib.Data.List.FinRange

namespace NoblesseOblige.FairShare
open CString
set_option autoImplicit true

inductive Policy
  | other
  | fifo
  | rr
  deriving DecidableEq

structure Runnable extends Task where
  nice : Int
  mm : Option Nat
  policy : Policy
  rtPriority : Int

/-- One CPU with the tasks of `for_each_task`, none of which ever blocks. `penalty` is
`PROC_CHANGE_PENALTY`, or 0 without `CONFIG_SMP`: every task last ran on this CPU. -/
structure Machine (n : Nat) where
  task : Fin n → Runnable
  processes : Nat → Int
  penalty : Int
  hz : Nat

/-- What changes as the CPU runs. The idle task is `none`, and `activeMm` is that of `current`.
Between `need_resched_back` and the choice of `next` the CPU is `scheduling`. -/
structure Cpu (n : Nat) where
  counter : Fin n → Int
  yields : Fin n → Bool
  runqueue : List (Fin n)
  needResched : Option (Fin n) → Bool
  current : Option (Fin n)
  activeMm : Nat
  scheduling : Bool

def Machine.niceToTicks (M : Machine n) (nice : Int) : Int :=
  (if M.hz < 200 then (20 - nice) / 4
    else if M.hz < 400 then (20 - nice) / 2
    else if M.hz < 800 then 20 - nice
    else if M.hz < 1600 then (20 - nice) * 2
    else (20 - nice) * 4) + 1

def Machine.goodness (M : Machine n) (s : Cpu n) (p : Fin n) (thisMm : Nat) : Int :=
  if s.yields p then -1
  else if (M.task p).policy = .other then
    let weight := toInt (s.counter p)
    if weight = 0 then weight
    else
      let weight := toInt (weight + M.penalty)
      let weight :=
        if (M.task p).mm = some thisMm ∨ (M.task p).mm = none then toInt (weight + 1) else weight
      toInt (weight + (20 - (M.task p).nice))
  else toInt (1000 + (M.task p).rtPriority)

def scan (weight : ι → Int) : List ι → Int × Option ι → Int × Option ι
  | [], best => best
  | p :: ps, best => scan weight ps (if weight p > best.1 then (weight p, some p) else best)

def Machine.best (M : Machine n) (s : Cpu n) : Int × Option (Fin n) :=
  scan (fun p => M.goodness s p s.activeMm) s.runqueue (-1000, none)

def Machine.quota (M : Machine n) (p : Fin n) : Int :=
  ((M.task p).recalculate n M.processes).counter

inductive Event
  | tick
  | needReschedBack
  | recalculate
  | switchTo
  deriving DecidableEq

def Cpu.tick (s : Cpu n) : Option (Cpu n) :=
  if s.scheduling || s.needResched s.current then none
  else
    match s.current with
    | none => some s
    | some p =>
      if s.counter p - 1 ≤ 0 then some
        { s with
          counter := Function.update s.counter p 0
          needResched := Function.update s.needResched (some p) true }
      else some { s with counter := Function.update s.counter p (s.counter p - 1) }

def Machine.moveLast (M : Machine n) (s : Cpu n) (prev : Fin n) : Cpu n :=
  if (M.task prev).policy = .rr ∧ s.yields prev = false ∧ s.counter prev = 0 then
    { s with
      counter := Function.update s.counter prev (M.niceToTicks (M.task prev).nice)
      runqueue := s.runqueue.erase prev ++ [prev] }
  else s

/-- `schedule` from its label `need_resched_back` to `repeat_schedule`. -/
def Machine.needReschedBack (M : Machine n) (s : Cpu n) : Option (Cpu n) :=
  if s.scheduling then none
  else
    let s := s.current.elim s (M.moveLast s)
    some
      { s with
        needResched := Function.update s.needResched s.current false
        scheduling := true }

/-- The recalculation, taken where the scan ends with `c` 0, up to the `goto repeat_schedule`. -/
def Machine.recalculate (M : Machine n) (s : Cpu n) : Option (Cpu n) :=
  if s.scheduling && (M.best s).1 = 0 then
    if (List.finRange n).any fun p => M.processes (M.task p).user = 0 then none
    else some { s with counter := M.quota }
  else none

/-- The rest of `schedule` where `c` is not 0. `prev` stops yielding, and a task without an `mm`
borrows the `active_mm` of the one before it. -/
def Machine.switchTo (M : Machine n) (s : Cpu n) : Option (Cpu n) :=
  let next := (M.best s).2
  if s.scheduling && (M.best s).1 ≠ 0 then some
    { s with
      yields := s.current.elim s.yields fun prev => Function.update s.yields prev false
      current := next
      activeMm :=
        if s.current = next then s.activeMm
        else (next.bind fun p => (M.task p).mm).getD s.activeMm
      scheduling := false }
  else none

/-- A `schedule` may start at any time, and has to where `need_resched` is set. -/
def Machine.perform (M : Machine n) (s : Cpu n) : Event → Option (Cpu n)
  | .tick => s.tick
  | .needReschedBack => M.needReschedBack s
  | .recalculate => M.recalculate s
  | .switchTo => M.switchTo s

def Cpu.act (s : Cpu n) : Event → List (Quota.Act (Fin n))
  | .tick => s.current.toList.map .spend
  | .recalculate => [.refill]
  | .needReschedBack | .switchTo => []

/-- The ticks of the tasks and the recalculations of a run, in order. -/
def Machine.observed (M : Machine n) (s : Cpu n) : List Event → List (Quota.Act (Fin n))
  | [] => []
  | e :: es => s.act e ++ (M.perform s e).elim [] fun s' => M.observed s' es

def Machine.ticks (M : Machine n) (s : Cpu n) (es : List Event) (p : Fin n) : Int :=
  (M.observed s es).count (.spend p)

def Machine.user (M : Machine n) (p : Fin n) : Nat := (M.task p).user

/-- A recalculation comes only where nobody has ticks left, until the next one everybody is
charged for the counter it got, and its user for all of them as often as there are epochs. -/
structure Machine.ExactEpochs (M : Machine n) (s : Cpu n) : Prop where
  exhausted : System.play M.perform s es = some s₁ → M.perform s₁ .recalculate = some s₂ →
    ∀ p, s₁.counter p = 0
  charged : System.play M.perform s es = some s₁ → M.perform s₁ .recalculate = some s₂ →
    System.play M.perform s₂ es' = some s₃ → Event.recalculate ∉ es' →
    (M.perform s₃ .recalculate).isSome → ∀ p, M.ticks s₂ es' p = s₂.counter p
  users : System.play M.perform s es = some s₁ → M.perform s₁ .recalculate = some s₂ →
    System.play M.perform s₂ (es' ++ [.recalculate]) = some s₃ →
    ∀ U, tally M.user (M.ticks s₂ (es' ++ [.recalculate])) U (List.finRange n) =
      (es' ++ [.recalculate]).count .recalculate * tally M.user M.quota U (List.finRange n)

/-- Time-sharing tasks whose shares and counts give counters without overflow. -/
structure Machine.CpuBound (M : Machine n) : Prop where
  other : ∀ p, (M.task p).policy = .other
  nice : ∀ p, -20 ≤ (M.task p).nice ∧ (M.task p).nice ≤ 19
  counted : ∀ p, 1 ≤ M.processes (M.task p).user
  product : ∀ p, (M.task p).share * n < 2 ^ 31
  penalty : 0 ≤ M.penalty

structure Cpu.Ready (s : Cpu n) : Prop where
  counters : ∀ p, 0 ≤ s.counter p
  queued : ∀ p, p ∈ s.runqueue
  stays : ∀ p, s.yields p = false

def Machine.Fits (M : Machine n) (counter : Fin n → Int) : Prop :=
  ∀ p, counter p + M.penalty + 21 - (M.task p).nice < 2 ^ 31

/-- Whoever is to be charged for the next tick has something left. -/
def Cpu.Charged (s : Cpu n) : Prop :=
  s.scheduling = true ∨ s.needResched s.current = true ∨ ∀ p, s.current = some p → 0 < s.counter p

section
variable {weight : ι → Int} {l : List ι} {best : Int × Option ι}

theorem le_scan : best.1 ≤ (scan weight l best).1 := by
  induction l generalizing best with
  | nil => exact Int.le_refl _
  | cons p ps ih =>
    have hp : best.1 ≤ (if weight p > best.1 then (weight p, some p) else best).1 := by
      split
      · exact Int.le_of_lt ‹_›
      · exact Int.le_refl _
    exact Int.le_trans hp ih

theorem weight_le_scan (h : p ∈ l) : weight p ≤ (scan weight l best).1 := by
  induction l generalizing best with
  | nil => cases h
  | cons q ps ih =>
    rcases List.mem_cons.mp h with rfl | h
    · have hq : weight p ≤ (if weight p > best.1 then (weight p, some p) else best).1 := by
        split
        · exact Int.le_refl _
        · exact Int.not_lt.mp ‹_›
      exact Int.le_trans hq le_scan
    · exact ih h

theorem scan_spec : scan weight l best = best ∨
    ∃ p ∈ l, scan weight l best = (weight p, some p) := by
  induction l generalizing best with
  | nil => exact .inl rfl
  | cons q ps ih =>
    rw [scan]
    by_cases hq : weight q > best.1
    · rw [if_pos hq]
      rcases ih with h | ⟨p, hp, h⟩
      · exact .inr ⟨q, List.mem_cons_self, h⟩
      · exact .inr ⟨p, List.mem_cons_of_mem q hp, h⟩
    · rw [if_neg hq]
      rcases ih with h | ⟨p, hp, h⟩
      · exact .inl h
      · exact .inr ⟨p, List.mem_cons_of_mem q hp, h⟩

end

section
variable {M : Machine n} {s s' : Cpu n}

theorem Machine.one_le_quota (hM : M.CpuBound) (p : Fin n) : 1 ≤ M.quota p := by
  have hm : 0 ≤ (M.task p).share * (n : Int) :=
    Int.mul_nonneg (Int.le_trans Int.one_nonneg (M.task p).share_pos) (Int.natCast_nonneg n)
  have hq := Int.tdiv_nonneg hm (Int.le_trans Int.one_nonneg (hM.counted p))
  simp only [Machine.quota, Task.recalculate]
  split <;> omega

theorem Machine.goodness_spec (hM : M.CpuBound) (hs : s.Ready) (hf : M.Fits s.counter)
    (p : Fin n) (mm : Nat) : (s.counter p = 0 ∧ M.goodness s p mm = 0) ∨
      (0 < s.counter p ∧ s.counter p < M.goodness s p mm) := by
  have hc := hs.counters p
  have hn := hM.nice p
  have hp := hM.penalty
  have hw := hf p
  have h0 : toInt (s.counter p) = s.counter p := toInt_of_nonneg hc (by omega)
  have h1 : toInt (s.counter p + M.penalty) = s.counter p + M.penalty :=
    toInt_of_nonneg (by omega) (by omega)
  have h2 : toInt (s.counter p + M.penalty + 1) = s.counter p + M.penalty + 1 :=
    toInt_of_nonneg (by omega) (by omega)
  simp only [Machine.goodness, hs.stays p, hM.other p, Bool.false_eq_true, if_false, if_true, h0]
  by_cases hz : s.counter p = 0
  · exact .inl ⟨hz, by rw [if_pos hz, hz]⟩
  · right
    refine ⟨by omega, ?_⟩
    rw [if_neg hz, h1, h2]
    split
    · rw [toInt_of_nonneg (by omega) (by omega)]
      omega
    · rw [toInt_of_nonneg (by omega) (by omega)]
      omega

theorem Machine.counter_eq_zero (hM : M.CpuBound) (hs : s.Ready) (hf : M.Fits s.counter)
    (h : (M.best s).1 = 0) (p : Fin n) : s.counter p = 0 := by
  have hle : M.goodness s p s.activeMm ≤ (M.best s).1 := weight_le_scan (hs.queued p)
  rcases M.goodness_spec hM hs hf p s.activeMm with ⟨hz, _⟩ | ⟨hpos, hlt⟩
  · exact hz
  · omega

theorem Machine.best_pos (hM : M.CpuBound) (hs : s.Ready) (hf : M.Fits s.counter)
    (h : (M.best s).1 ≠ 0) (hp : (M.best s).2 = some p) : 0 < s.counter p := by
  have hscan : M.best s = (-1000, none) ∨
      ∃ q ∈ s.runqueue, M.best s = (M.goodness s q s.activeMm, some q) := scan_spec
  rcases hscan with hb | ⟨q, _, hb⟩
  · rw [hb] at hp
    cases hp
  · rw [hb] at h hp
    obtain rfl := Option.some.inj hp
    rcases M.goodness_spec hM hs hf q s.activeMm with ⟨_, hz⟩ | ⟨hpos, _⟩
    · exact absurd hz h
    · exact hpos

theorem Machine.needReschedBack_spec (hM : M.CpuBound) (h : M.needReschedBack s = some s') :
    s'.counter = s.counter ∧ s'.yields = s.yields ∧ s'.runqueue = s.runqueue ∧
      s'.scheduling = true := by
  have hk : s.current.elim s (M.moveLast s) = s := by
    cases s.current with
    | none => rfl
    | some p => simp [Machine.moveLast, hM.other p]
  simp only [Machine.needReschedBack, hk] at h
  split at h
  · cases h
  · cases h
    exact ⟨rfl, rfl, rfl, rfl⟩

theorem Machine.recalculate_spec (h : M.recalculate s = some s') :
    s.scheduling = true ∧ (M.best s).1 = 0 ∧ s' = { s with counter := M.quota } := by
  unfold Machine.recalculate at h
  split at h
  · rename_i hc
    rw [Bool.and_eq_true, decide_eq_true_eq] at hc
    split at h
    · cases h
    · cases h
      exact ⟨hc.1, hc.2, rfl⟩
  · cases h

theorem Machine.switchTo_spec (h : M.switchTo s = some s') :
    (M.best s).1 ≠ 0 ∧ s'.current = (M.best s).2 ∧ s'.counter = s.counter ∧
      s'.runqueue = s.runqueue ∧ ∀ p, s.yields p = false → s'.yields p = false := by
  unfold Machine.switchTo at h
  split at h
  · rename_i hc
    rw [Bool.and_eq_true, decide_eq_true_eq] at hc
    cases h
    refine ⟨hc.2, rfl, rfl, rfl, fun p hp => ?_⟩
    cases hcur : s.current with
    | none => simpa [hcur] using hp
    | some q =>
      by_cases hq : p = q
      · subst hq
        simp
      · simpa [Function.update_of_ne hq] using hp
  · cases h

theorem update_between {c : Fin n → Int} (hc : ∀ p, 0 ≤ c p) (h0 : 0 ≤ v) (hv : v ≤ c q)
    (p : Fin n) : 0 ≤ Function.update c q v p ∧ Function.update c q v p ≤ c p := by
  by_cases hp : p = q
  · subst hp
    rw [Function.update_self]
    exact ⟨h0, hv⟩
  · rw [Function.update_of_ne hp]
    exact ⟨hc p, Int.le_refl _⟩

theorem Cpu.tick_le (hs : s.Ready) (h : s.tick = some s') :
    s'.Ready ∧ ∀ p, s'.counter p ≤ s.counter p := by
  unfold Cpu.tick at h
  split at h
  · cases h
  · cases hcur : s.current with
    | none =>
      simp only [hcur] at h
      cases h
      exact ⟨hs, fun p => Int.le_refl _⟩
    | some q =>
      have hq := hs.counters q
      simp only [hcur] at h
      by_cases hl : s.counter q - 1 ≤ 0
      · rw [if_pos hl] at h
        cases h
        have hu := update_between hs.counters (Int.le_refl 0) hq
        exact ⟨⟨fun p => (hu p).1, hs.queued, hs.stays⟩, fun p => (hu p).2⟩
      · rw [if_neg hl] at h
        cases h
        have hu := update_between hs.counters (Int.le_of_lt (Int.not_le.mp hl))
          (Int.sub_le_self (s.counter q) Int.one_nonneg)
        exact ⟨⟨fun p => (hu p).1, hs.queued, hs.stays⟩, fun p => (hu p).2⟩

theorem Cpu.tick_charged (hs : s.Charged) (h : s.tick = some s') :
    Quota.Run quota s.counter (s.act .tick) s'.counter ∧ s'.Charged := by
  unfold Cpu.tick at h
  split at h
  · cases h
  · rename_i hn
    rw [Bool.or_eq_true, not_or] at hn
    cases hcur : s.current with
    | none =>
      simp only [hcur] at h
      cases h
      simp only [Cpu.act, hcur]
      exact ⟨.nil, hs⟩
    | some p =>
      have hpos : 0 < s.counter p := by
        rcases hs with hs | hs | hs
        · exact absurd hs hn.1
        · exact absurd hs hn.2
        · exact hs p hcur
      simp only [hcur] at h
      simp only [Cpu.act, hcur]
      by_cases hl : s.counter p - 1 ≤ 0
      · rw [if_pos hl] at h
        cases h
        refine ⟨.spend hpos ?_, .inr (.inl ?_)⟩
        · rw [show s.counter p - 1 = 0 by omega]
          exact .nil
        · simp
      · rw [if_neg hl] at h
        cases h
        refine ⟨.spend hpos .nil, .inr (.inr fun q hq => ?_)⟩
        obtain rfl : p = q := Option.some.inj hq
        simp only [Function.update_self]
        omega

/-- What a run never loses: tasks that are ready and counters that give no overflow. -/
def Machine.Keeps (M : Machine n) (s : Cpu n) : Prop := s.Ready ∧ M.Fits s.counter

theorem Machine.perform_keeps (hM : M.CpuBound) (hq : M.Fits M.quota) (e : Event)
    (hs : M.Keeps s) (h : M.perform s e = some s') : M.Keeps s' := by
  cases e with
  | tick =>
    obtain ⟨hr, hle⟩ := Cpu.tick_le hs.1 h
    refine ⟨hr, fun p => ?_⟩
    have := hle p
    have := hs.2 p
    omega
  | needReschedBack =>
    obtain ⟨hc, hy, hr, _⟩ := M.needReschedBack_spec hM h
    refine ⟨⟨?_, ?_, ?_⟩, ?_⟩
    · exact hc ▸ hs.1.counters
    · exact hr ▸ hs.1.queued
    · exact hy ▸ hs.1.stays
    · exact hc ▸ hs.2
  | recalculate =>
    obtain ⟨_, _, rfl⟩ := M.recalculate_spec h
    exact ⟨⟨fun p => Int.le_trans Int.one_nonneg (M.one_le_quota hM p), hs.1.queued, hs.1.stays⟩,
      hq⟩
  | switchTo =>
    obtain ⟨_, _, hc, hr, hy⟩ := M.switchTo_spec h
    refine ⟨⟨?_, ?_, fun p => hy p (hs.1.stays p)⟩, ?_⟩
    · exact hc ▸ hs.1.counters
    · exact hr ▸ hs.1.queued
    · exact hc ▸ hs.2

theorem Machine.perform_act (hM : M.CpuBound) (e : Event) (hs : M.Keeps s) (hc : s.Charged)
    (h : M.perform s e = some s') :
    Quota.Run M.quota s.counter (s.act e) s'.counter ∧ s'.Charged := by
  cases e with
  | tick => exact Cpu.tick_charged hc h
  | needReschedBack =>
    obtain ⟨hcounter, _, _, hsch⟩ := M.needReschedBack_spec hM h
    exact ⟨hcounter ▸ .nil, .inl hsch⟩
  | recalculate =>
    obtain ⟨hsch, hb, rfl⟩ := M.recalculate_spec h
    exact ⟨.refill (M.counter_eq_zero hM hs.1 hs.2 hb) .nil, .inl hsch⟩
  | switchTo =>
    obtain ⟨hb, hcur, hcounter, _, _⟩ := M.switchTo_spec h
    refine ⟨hcounter ▸ .nil, .inr (.inr fun p hp => ?_)⟩
    rw [hcounter]
    exact M.best_pos hM hs.1 hs.2 hb (hcur ▸ hp)

theorem Machine.observed_run (hM : M.CpuBound) (hq : M.Fits M.quota) (es : List Event)
    (hs : M.Keeps s) (hc : s.Charged) (hp : System.play M.perform s es = some s') :
    Quota.Run M.quota s.counter (M.observed s es) s'.counter := by
  induction es generalizing s with
  | nil =>
    obtain rfl := Option.some.inj hp
    exact .nil
  | cons e es ih =>
    obtain ⟨s₁, he, hp⟩ := Option.bind_eq_some_iff.mp hp
    obtain ⟨hrun, hc₁⟩ := M.perform_act hM e hs hc he
    rw [Machine.observed, he]
    exact hrun.append (ih (M.perform_keeps hM hq e hs he) hc₁ hp)

theorem Cpu.act_refills (s : Cpu n) (e : Event) :
    (s.act e).count .refill = [e].count .recalculate := by
  cases e with
  | tick => cases h : s.current <;> simp [Cpu.act, h]
  | needReschedBack => rfl
  | recalculate => rfl
  | switchTo => rfl

theorem Machine.observed_refills (es : List Event) (hp : System.play M.perform s es = some s') :
    (M.observed s es).count .refill = es.count .recalculate := by
  induction es generalizing s with
  | nil => rfl
  | cons e es ih =>
    obtain ⟨s₁, he, hp⟩ := Option.bind_eq_some_iff.mp hp
    rw [Machine.observed, he, List.count_append, s.act_refills e]
    simp only [Option.elim_some]
    rw [ih hp, ← List.count_append]
    rfl

theorem Machine.play_keeps (hM : M.CpuBound) (hq : M.Fits M.quota) (hs : M.Keeps s)
    (hp : System.play M.perform s es = some s') : M.Keeps s' :=
  System.play_invariant (fun _ e _ => M.perform_keeps hM hq e) hs hp

theorem Machine.ticks_of_epoch (hM : M.CpuBound) (hq : M.Fits M.quota) (hs : M.Keeps s)
    (hr : M.perform s .recalculate = some s') (hp : System.play M.perform s' es = some t)
    (hn : .recalculate ∉ es) (ht : (M.perform t .recalculate).isSome) (p : Fin n) :
    M.ticks s' es p = s'.counter p := by
  have hs' := M.perform_keeps hM hq .recalculate hs hr
  obtain ⟨hsch, _, rfl⟩ := M.recalculate_spec hr
  obtain ⟨_, ht⟩ := Option.isSome_iff_exists.mp ht
  have hrun := M.observed_run hM hq es hs' (.inl hsch) hp
  refine hrun.spent ?_ ?_ p
  · rw [← List.count_eq_zero, M.observed_refills es hp]
    exact List.count_eq_zero.mpr hn
  · have hk := M.play_keeps hM hq hs' hp
    exact M.counter_eq_zero hM hk.1 hk.2 (M.recalculate_spec ht).2.1

theorem Machine.ticks_of_epochs (hM : M.CpuBound) (hq : M.Fits M.quota) (hs : M.Keeps s)
    (hr : M.perform s .recalculate = some s')
    (hp : System.play M.perform s' (es ++ [.recalculate]) = some t) (U : Nat) :
    tally M.user (M.ticks s' (es ++ [.recalculate])) U (List.finRange n) =
      (es ++ [.recalculate]).count .recalculate * tally M.user M.quota U (List.finRange n) := by
  have hs' := M.perform_keeps hM hq .recalculate hs hr
  obtain ⟨hsch, _, rfl⟩ := M.recalculate_spec hr
  have hrun := M.observed_run hM hq _ hs' (.inl hsch) hp
  have hrefills := M.observed_refills _ hp
  obtain ⟨_, _, hlast⟩ := System.play_concat hp
  obtain ⟨_, _, rfl⟩ := M.recalculate_spec hlast
  rw [← hrefills]
  exact hrun.tally_spent U (List.finRange n)

/-- Without overflow every epoch gives each task exactly its counter. -/
theorem Machine.exactEpochs (hM : M.CpuBound) (hq : M.Fits M.quota) (hs : s.Ready)
    (hf : M.Fits s.counter) : M.ExactEpochs s where
  exhausted hp hr := by
    have hk := M.play_keeps hM hq ⟨hs, hf⟩ hp
    exact M.counter_eq_zero hM hk.1 hk.2 (M.recalculate_spec hr).2.1
  charged hp hr hp' hn ht := M.ticks_of_epoch hM hq (M.play_keeps hM hq ⟨hs, hf⟩ hp) hr hp' hn ht
  users hp hr hp' := M.ticks_of_epochs hM hq (M.play_keeps hM hq ⟨hs, hf⟩ hp) hr hp'

end

def lopsided (share : Int) (h : 1 ≤ share) : Machine 2 where
  task p :=
    if p = 0 then ⟨⟨1, 0, share, 0, false, h⟩, 0, some 0, .other, 0⟩
    else ⟨⟨2, 1, 1, 0, false, share_one⟩, 0, some 1, .other, 0⟩
  processes _ := 1
  penalty := 0
  hz := 100

def spent : Cpu 2 where
  counter _ := 0
  yields _ := false
  runqueue := [0, 1]
  needResched _ := false
  current := some 0
  activeMm := 0
  scheduling := false

theorem lopsided_cpuBound (h : 1 ≤ share) (hs : share * 2 < 2 ^ 31) :
    (lopsided share h).CpuBound where
  other p := by cases p using Fin.cases <;> rfl
  nice p := by cases p using Fin.cases <;> exact show -20 ≤ (0 : Int) ∧ 0 ≤ (19 : Int) by decide
  counted _ := Int.le_refl 1
  product p := by
    cases p using Fin.cases with
    | zero => exact hs
    | succ p => exact show (1 : Int) * (2 : Nat) < 2 ^ 31 by decide
  penalty := Int.le_refl 0

theorem spent_ready : spent.Ready where
  counters := by decide
  queued := by decide
  stays := by decide

theorem Machine.exactEpochs_lopsided : (lopsided 3 (by decide)).ExactEpochs spent :=
  Machine.exactEpochs (lopsided_cpuBound (by decide) (by decide))
    (by unfold Machine.Fits; decide) spent_ready (by unfold Machine.Fits; decide)

theorem share_large : (1 : Int) ≤ 2 ^ 30 - 1 := by decide

/-- The weight of the first task overflows, and the second one alone is recalculated for. -/
theorem Machine.not_exactEpochs : ¬ ∀ (n : Nat) (M : Machine n) (s : Cpu n),
    M.CpuBound → s.Ready → M.ExactEpochs s := by
  intro h
  have he := h 2 (lopsided _ share_large) spent (lopsided_cpuBound share_large (by decide))
    spent_ready
  have hrun : ((System.play (lopsided _ share_large).perform spent [.needReschedBack, .recalculate,
      .switchTo, .tick, .tick, .needReschedBack]).any fun s =>
        ((lopsided _ share_large).perform s .recalculate).isSome && decide (s.counter 0 ≠ 0)) =
      true := by decide
  obtain ⟨s, hp, hs⟩ := (Option.any_eq_true _ _).mp hrun
  rw [Bool.and_eq_true, decide_eq_true_eq] at hs
  obtain ⟨s', hr⟩ := Option.isSome_iff_exists.mp hs.1
  exact hs.2 (he.exhausted hp hr 0)

end NoblesseOblige.FairShare
