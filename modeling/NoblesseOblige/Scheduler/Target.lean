import NoblesseOblige.Scheduler.Safety

namespace NoblesseOblige.Scheduler
open Scheduler.Core
set_option autoImplicit true

section
variable [DecidableEq ι]

/-- How much better the task is than the one that the CPU has. -/
def Board.gain (B : Board n ι) (k : Kernel n ι) (p : ι) (c : Fin n) : Int :=
  B.preemptionGoodness (k.task (k.curr c)) (k.task p) c

/-- The CPU has its idle task. -/
def Board.Rests (B : Board n ι) (k : Kernel n ι) (c : Fin n) : Prop := k.curr c = B.idleTask c

/-- What the loop of `reschedule_idle` has found among the CPUs it has `seen`. -/
inductive Board.Found (B : Board n ι) (k : Kernel n ι) (p : ι) (seen : List (Fin n)) :
    Search ι → Prop
  | nobody (h : ∀ d ∈ seen, (k.task p).canSchedule d = true → ¬ B.Rests k d ∧ B.gain k p d ≤ 0) :
      Found B k p seen ⟨-1, none, 0⟩
  | busy (before after : List (Fin n)) (c : Fin n) (hseen : seen = before ++ c :: after)
      (hc : (k.task p).canSchedule c = true) (hb : ¬ B.Rests k c) (hpos : 0 < B.gain k p c)
      (hbefore : ∀ d ∈ before, (k.task p).canSchedule d = true →
        ¬ B.Rests k d ∧ B.gain k p d < B.gain k p c)
      (hafter : ∀ d ∈ after, (k.task p).canSchedule d = true →
        ¬ B.Rests k d ∧ B.gain k p d ≤ B.gain k p c) :
      Found B k p seen ⟨-1, some (k.curr c), B.gain k p c⟩
  | rests (before after : List (Fin n)) (c : Fin n) (m : Int) (hseen : seen = before ++ c :: after)
      (hc : (k.task p).canSchedule c = true) (hb : B.Rests k c)
      (halone : ∀ d ∈ seen, (k.task p).canSchedule d = true → B.Rests k d →
        B.siblingIdle k d = false)
      (hbefore : ∀ d ∈ before, (k.task p).canSchedule d = true → B.Rests k d →
        k.lastSchedule c < k.lastSchedule d)
      (hafter : ∀ d ∈ after, (k.task p).canSchedule d = true → B.Rests k d →
        k.lastSchedule c ≤ k.lastSchedule d) :
      Found B k p seen ⟨k.lastSchedule c, some (k.curr c), m⟩

variable {B : Board n ι} {k : Kernel n ι}

theorem Board.Found.skip (h : B.Found k p seen s) (hc : (k.task p).canSchedule c = false) :
    B.Found k p (seen ++ [c]) s := by
  have hno {P : Prop} (d : Fin n) (hd : d = c) (hcan : (k.task p).canSchedule d = true) : P := by
    rw [hd, hc] at hcan
    cases hcan
  cases h with
  | nobody h =>
    refine .nobody fun d hd hcan => ?_
    rcases List.mem_append.mp hd with hd | hd
    · exact h d hd hcan
    · exact hno d (List.mem_singleton.mp hd) hcan
  | busy before after b hseen hb hbusy hpos hbefore hafter =>
    refine .busy before (after ++ [c]) b ?_ hb hbusy hpos hbefore fun d hd hcan => ?_
    · rw [hseen, List.append_assoc, List.cons_append]
    · rcases List.mem_append.mp hd with hd | hd
      · exact hafter d hd hcan
      · exact hno d (List.mem_singleton.mp hd) hcan
  | rests before after b m hseen hb hrests halone hbefore hafter =>
    refine .rests before (after ++ [c]) b m ?_ hb hrests ?_ hbefore fun d hd hcan => ?_
    · rw [hseen, List.append_assoc, List.cons_append]
    · intro d hd hcan
      rcases List.mem_append.mp hd with hd | hd
      · exact halone d hd hcan
      · exact hno d (List.mem_singleton.mp hd) hcan
    · rcases List.mem_append.mp hd with hd | hd
      · exact hafter d hd hcan
      · exact hno d (List.mem_singleton.mp hd) hcan

/-- A resting CPU whose sibling is at work. -/
theorem Board.Found.rest (h : B.Found k p seen s) (hlast : ∀ d, k.lastSchedule d ≠ -1)
    (hc : (k.task p).canSchedule c = true) (hr : B.Rests k c) (hs : B.siblingIdle k c = false) :
    B.Found k p (seen ++ [c])
      (if k.lastSchedule c < s.oldestIdle then
        { s with oldestIdle := k.lastSchedule c, target := some (k.curr c) }
      else s) := by
  have hnew : k.lastSchedule c < -1 := by
    have hne := hlast c
    bv_omega
  have hnone {Q : Fin n → Prop} (l : List (Fin n))
      (hl : ∀ d ∈ l, (k.task p).canSchedule d = true → ¬ B.Rests k d) :
      ∀ d ∈ l, (k.task p).canSchedule d = true → B.Rests k d → Q d :=
    fun d hd hcan hrest => absurd hrest (hl d hd hcan)
  have hfirst {m : Int}
      (hl : ∀ d ∈ seen, (k.task p).canSchedule d = true → ¬ B.Rests k d) :
      B.Found k p (seen ++ [c]) ⟨k.lastSchedule c, some (k.curr c), m⟩ := by
    refine .rests seen [] c m rfl hc hr ?_ (hnone seen hl) nofun
    intro d hd hcan hrest
    rcases List.mem_append.mp hd with hd | hd
    · exact absurd hrest (hl d hd hcan)
    · rw [List.mem_singleton.mp hd]
      exact hs
  cases h with
  | nobody h =>
    rw [if_pos hnew]
    exact hfirst fun d hd hcan => (h d hd hcan).1
  | busy before after b hseen hb hbusy hpos hbefore hafter =>
    rw [if_pos hnew]
    refine hfirst fun d hd hcan => ?_
    rw [hseen] at hd
    rcases List.mem_append.mp hd with hd | hd
    · exact (hbefore d hd hcan).1
    · rcases List.mem_cons.mp hd with rfl | hd
      · exact hbusy
      · exact (hafter d hd hcan).1
  | rests before after b m hseen hb hrests halone hbefore hafter =>
    have halone' : ∀ d ∈ seen ++ [c], (k.task p).canSchedule d = true → B.Rests k d →
        B.siblingIdle k d = false := by
      intro d hd
      rcases List.mem_append.mp hd with hd | hd
      · exact halone d hd
      · rw [List.mem_singleton.mp hd]
        exact fun _ _ => hs
    split
    · rename_i hlt
      refine .rests seen [] c m rfl hc hr halone' ?_ nofun
      intro d hd hcan hrest
      rw [hseen] at hd
      rcases List.mem_append.mp hd with hd | hd
      · exact BitVec.lt_trans hlt (hbefore d hd hcan hrest)
      · rcases List.mem_cons.mp hd with rfl | hd
        · exact hlt
        · have hle := hafter d hd hcan hrest
          bv_omega
    · rename_i hge
      refine .rests before (after ++ [c]) b m ?_ hb hrests halone' hbefore fun d hd => ?_
      · rw [hseen, List.append_assoc, List.cons_append]
      · rcases List.mem_append.mp hd with hd | hd
        · exact hafter d hd
        · rw [List.mem_singleton.mp hd]
          exact fun _ _ => BitVec.not_lt.mp hge

/-- No CPU seen so far rests together with its sibling. -/
theorem Board.Found.alone (h : B.Found k p seen s) (hd : d ∈ seen)
    (hcan : (k.task p).canSchedule d = true) (hr : B.Rests k d) : B.siblingIdle k d = false := by
  cases h with
  | nobody h => exact absurd hr (h d hd hcan).1
  | busy before after b hseen hb hbusy hpos hbefore hafter =>
    rw [hseen] at hd
    rcases List.mem_append.mp hd with hd | hd
    · exact absurd hr (hbefore d hd hcan).1
    · rcases List.mem_cons.mp hd with rfl | hd
      · exact absurd hr hbusy
      · exact absurd hr (hafter d hd hcan).1
  | rests before after b m hseen hb hrests halone => exact halone d hd hcan hr

end

end NoblesseOblige.Scheduler
