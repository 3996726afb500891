import NoblesseOblige.Scheduler.Safety
import Mathlib.Algebra.BigOperators.Fin

namespace NoblesseOblige.Scheduler
open Scheduler.Core
set_option autoImplicit true

/-- 1 where the CPU runs a task that has borrowed the address space. -/
def Core.borrows (s : Core n ι) (m : Nat) (c : Fin n) : Int :=
  if s.mm (s.current c) = none ∧ s.activeMm (s.current c) = some m then 1 else 0

def Core.borrowers (s : Core n ι) (m : Nat) : Int := ∑ c, s.borrows m c

section
variable [DecidableEq ι] {B : Board n ι} {k k' : Kernel n ι}

/-- A switch changes what one CPU has borrowed. -/
theorem Core.borrowers_switch {s : Core n ι} (ho : OwnInv B s) (hc : s.loc c = .switching next)
    (hm : s.activeMm (s.current c) = some oldmm) (s' : Core n ι) (hmm : s'.mm = s.mm)
    (ha : s'.activeMm = ((s.borrow oldmm next).giveBack oldmm (s.current c)).activeMm)
    (hcur : s'.current = Function.update s.current c next) (m : Nat) :
    s'.borrowers m - s.borrowers m =
      (if s.mm next = none ∧ oldmm = m then 1 else 0) -
        if s.mm (s.current c) = none ∧ oldmm = m then 1 else 0 := by
  have hne := (ho.chosen hc).1
  have hother : ∀ d ∈ Finset.univ.erase c, s'.borrows m d = s.borrows m d := by
    intro d hd
    have hdc := Finset.ne_of_mem_erase hd
    have hsame : s'.current d = s.current d := by rw [hcur, Function.update_of_ne hdc]
    have hprev : s.current d ≠ s.current c := fun he => hdc (ho.exclusive (.inl he) (.inl rfl))
    have hnext : s.current d ≠ next := by
      intro he
      exact hdc (ho.exclusive (.inl he) (.inr (.inl (by rw [hc]; rfl))))
    have hactive : s'.activeMm (s.current d) = s.activeMm (s.current d) := by
      rw [ha, activeMm_switch, if_neg fun h => hprev h.1, if_neg fun h => hnext h.1]
    unfold borrows
    rw [hsame, hmm, hactive]
  have hprev : s.borrows m c = if s.mm (s.current c) = none ∧ oldmm = m then 1 else 0 := by
    unfold borrows
    simp only [hm, Option.some.injEq]
  have hnext : s'.borrows m c = if s.mm next = none ∧ oldmm = m then 1 else 0 := by
    have hactive := activeMm_switch s oldmm next (s.current c) next
    rw [if_neg fun h => hne h.1] at hactive
    unfold borrows
    rw [hcur, Function.update_self, hmm, ha, hactive]
    by_cases hnone : s.mm next = none
    · simp [hnone]
    · simp [hnone]
  unfold borrowers
  rw [← Finset.add_sum_erase _ (s'.borrows m) (Finset.mem_univ c),
    ← Finset.add_sum_erase _ (s.borrows m) (Finset.mem_univ c), Finset.sum_congr rfl hother,
    hprev, hnext, add_sub_add_right_eq_sub]

theorem Core.Step.borrowed {s s' : Core n ι} (ho : OwnInv B s) (h : Core.Step B s s') (m : Nat) :
    s'.mmCount m - s'.borrowers m = s.mmCount m - s.borrowers m := by
  cases h with
  | switch c next oldmm hc hm =>
    let t : Core n ι :=
      { (s.borrow oldmm next).giveBack oldmm (s.current c) with
        current := Function.update s.current c next
        loc := Function.update s.loc c (.leaving (s.current c)) }
    have hdiff := borrowers_switch ho hc hm t rfl rfl rfl m
    have hcount : ((s.borrow oldmm next).giveBack oldmm (s.current c)).mmCount m =
        s.mmCount m + (if s.mm next = none ∧ oldmm = m then 1 else 0) -
          if s.mm (s.current c) = none ∧ oldmm = m then 1 else 0 := by
      by_cases hmo : oldmm = m
      · subst hmo
        by_cases hn : s.mm next = none <;> by_cases hp : s.mm (s.current c) = none <;>
          simp [borrow, giveBack, hn, hp]
      · have hmo' : m ≠ oldmm := fun h => hmo h.symm
        by_cases hn : s.mm next = none <;> by_cases hp : s.mm (s.current c) = none <;>
          simp [borrow, giveBack, hn, hp, hmo, hmo']
    show t.mmCount m - t.borrowers m = s.mmCount m - s.borrowers m
    rw [show t.mmCount m = _ from hcount]
    omega
  | _ => rfl

/-- `mm_count` has one reference for each CPU that runs a task which has borrowed the address
space: what is left when those are taken away never changes. -/
theorem mm_count_exact (h : B.system.Reachable k)
    (hr : Relation.ReflTransGen B.system.step k k') (m : Nat) :
    k'.mmCount m - k'.core.borrowers m = k.mmCount m - k.core.borrowers m := by
  induction hr with
  | refl => rfl
  | @tail u v hu hstep ih =>
    obtain ⟨hinv, hidle⟩ := reachable_inv (h.run hu)
    obtain ⟨a, ha⟩ := hstep
    exact ((perform_next hidle ha).step.borrowed hinv.own m).trans ih

theorem mm_count_exact_pair : pairRun.mmCount 0 = 1 := by
  have hsteps : Relation.ReflTransGen pair.system.step pairBoot pairRun :=
    Board.run_steps (Option.some_get _).symm
  have hexact := mm_count_exact (.start pairBoot_booted) hsteps 0
  rw [show pairBoot.mmCount 0 = 2 from rfl, show pairBoot.core.borrowers 0 = 2 by decide +kernel,
    show pairRun.core.borrowers 0 = 1 by decide +kernel] at hexact
  omega

end

end NoblesseOblige.Scheduler
