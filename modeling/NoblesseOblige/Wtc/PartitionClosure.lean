import NoblesseOblige.Wtc.PartitionInvariant

namespace NoblesseOblige.Wtc.Partition
set_option autoImplicit true

section
variable {n : Nat} {A : Adjacency n} {L : Layout n} {P : Nat}

/-- Tearing down and printing change neither the matrices nor the hand-offs. -/
theorem Inv.finish {h h' : Shared L} (inv : Inv A L P h pc cs) (hpar : ParentOk A L h' pc')
    (hst : ∀ w, stage n pc w = .idle n) (hst' : ∀ w, stage n pc' w = .idle n)
    (hborn : h'.born = h.born) (hsem : h'.sem = h.sem) (hcurr : h'.curr = h.curr) :
    Inv A L P h' pc' cs := by
  refine inv.pass hpar (fun w _ ok => ?_) hborn hsem hcurr
  rw [hst w] at ok
  rwa [hst' w]

theorem Inv.load {h : Shared L} (inv : Inv A L P h (.load y z) cs)
    (hs : (procParent L P A (.load y z)).run x h = some (h', pc')) : Inv A L P h' pc' cs := by
  obtain ⟨hz, hp, hc, ho⟩ := inv.parent
  by_cases hy : y < n
  · by_cases hzn : z < n
    · simp only [procParent, if_pos hy, if_pos hzn, Instr.run, Option.some.injEq,
        Prod.mk.injEq] at hs
      obtain ⟨rfl, rfl⟩ := hs
      exact inv.pass ⟨hzn, hp.cell hzn (A.entry_holds hy hzn), hc, ho⟩ (fun _ _ ok => ok)
        rfl rfl rfl
    · simp only [procParent, if_pos hy, if_neg hzn, Instr.run, Option.some.injEq,
        Prod.mk.injEq] at hs
      obtain ⟨rfl, rfl⟩ := hs
      exact inv.pass ⟨Nat.zero_le _, hp.row (by omega), hc, ho⟩ (fun _ _ ok => ok) rfl rfl rfl
  · simp only [procParent, if_neg hy, Instr.run, Option.some.injEq, Prod.mk.injEq] at hs
    obtain ⟨rfl, rfl⟩ := hs
    refine inv.pass ⟨hp.agrees (by omega), hc, ho⟩ (fun w _ ok => ?_) rfl rfl rfl
    simpa only [stage, Nat.not_lt_zero, ↓reduceIte] using ok

theorem Inv.print {h h' : Shared L} (inv : Inv A L P h (.print y z) cs)
    (he : ∀ a next, (emit a next).run s h = some ({ h with out := h.out ++ [M a] }, next))
    (hM : Agrees L M (A.Upto n))
    (hs : (printLoop L emit ParentPc.print .done y z).run s h = some (h', pc')) :
    Inv A L P h' pc' cs := by
  obtain ⟨hp, hc, ho⟩ := inv.parent
  rcases ho.step he (fun i j hi hj => hM.closure hi hj) hs with
    ⟨y', z', out, rfl, rfl, ho'⟩ | ⟨rfl, rfl, ho'⟩
  · exact inv.finish ⟨hp, hc, ho'⟩ (fun _ => rfl) (fun _ => rfl) rfl rfl rfl
  · exact inv.finish ⟨hp, hc, ho'⟩ (fun _ => rfl) (fun _ => rfl) rfl rfl rfl

theorem Inv.procParent {h h' : Shared L} (inv : Inv A L P h pc cs) (hn : 0 < n) (hP : 0 < P)
    (hs : (procParent L P A pc).run x h = some (h', pc')) : Inv A L P h' pc' cs := by
  cases pc with
  | load y z => exact inv.load hs
  | fork | round | signal | await | copy | store | join | done =>
    exact inv.rounds (.destroyP2c 0) hn hP (fun _ hp hc ho => ⟨hp, hc, ho⟩) (fun _ => rfl) hs
  | destroyP2c k =>
    obtain ⟨hp, hc, ho⟩ := inv.parent
    by_cases hk : k < P
    · simp only [Partition.procParent, if_pos hk, Instr.run, Option.some.injEq,
        Prod.mk.injEq] at hs
      obtain ⟨rfl, rfl⟩ := hs
      exact inv.finish ⟨hp, hc, ho⟩ (fun _ => rfl) (fun _ => rfl) rfl rfl rfl
    · simp only [Partition.procParent, if_neg hk, Instr.run, Option.some.injEq,
        Prod.mk.injEq] at hs
      obtain ⟨rfl, rfl⟩ := hs
      exact inv.finish ⟨hp, hc, ho ▸ .start ..⟩ (fun _ => rfl) (fun _ => rfl) rfl rfl rfl
  | destroyC2p k =>
    simp only [Partition.procParent, Instr.run, Option.some.injEq, Prod.mk.injEq] at hs
    obtain ⟨rfl, rfl⟩ := hs
    exact inv.finish inv.parent (fun _ => rfl) (fun _ => rfl) rfl rfl rfl
  | print y z => exact inv.print (fun _ _ => rfl) inv.parent.2.1 hs

theorem Inv.thrParent {h h' : Shared L} (inv : Inv A L P h pc cs) (hn : 0 < n) (hP : 0 < P)
    (hs : (thrParent L P pc).run x h = some (h', pc')) : Inv A L P h' pc' cs := by
  cases pc with
  | load | fork | round | signal | await | copy | store | done =>
    exact inv.rounds (.join 0) hn hP (fun _ hp hc ho => ⟨hp, hc, ho⟩) (fun _ => rfl) hs
  | join k =>
    obtain ⟨hp, hc, ho⟩ := inv.parent
    by_cases hk : k < P
    · simp only [Partition.thrParent, if_pos hk, Instr.run] at hs
      split at hs
      · obtain ⟨rfl, rfl⟩ := Prod.mk.inj (Option.some.inj hs)
        exact inv.finish ⟨hp, hc, ho⟩ (fun _ => rfl) (fun _ => rfl) rfl rfl rfl
      · cases hs
    · simp only [Partition.thrParent, if_neg hk, Instr.run, Option.some.injEq,
        Prod.mk.injEq] at hs
      obtain ⟨rfl, rfl⟩ := hs
      exact inv.finish ⟨hp, hc, ho ▸ .start ..⟩ (fun _ => rfl) (fun _ => rfl) rfl rfl rfl
  | destroyP2c k =>
    simp only [Partition.thrParent, Instr.run, Option.some.injEq, Prod.mk.injEq] at hs
    obtain ⟨rfl, rfl⟩ := hs
    exact inv.finish inv.parent (fun _ => rfl) (fun _ => rfl) rfl rfl rfl
  | destroyC2p k =>
    simp only [Partition.thrParent, Instr.run, Option.some.injEq, Prod.mk.injEq] at hs
    obtain ⟨rfl, rfl⟩ := hs
    exact inv.finish inv.parent (fun _ => rfl) (fun _ => rfl) rfl rfl rfl
  | print y z => exact inv.print (fun _ _ => rfl) inv.parent.1 hs

end

/-- The lockstep invariant of `wtc_proc`, over every interleaving. -/
theorem wtcProc_inv (hn : 0 < n) (hP : 0 < P) {s : State (wtcProc n P A)}
    (h : (wtcProc n P A).system.Reachable s) :
    Inv A (Layout.flat n) P s.shared s.parent s.child := by
  apply h.invariant (I := fun s => Inv A (Layout.flat n) P s.shared s.parent s.child)
  · rintro s rfl
    refine ⟨⟨Nat.zero_le _, .start _ _ _, ?_, rfl⟩, fun w _ => ⟨rfl, rfl, rfl, rfl⟩⟩
    exact fun i j _ _ => ⟨False.elim, fun _ => rfl⟩
  · intro s s' inv hs
    cases hs with
    | parent hs => exact inv.procParent hn hP hs
    | child hw hb hs => exact inv.child hw hb hs

theorem wtcThr_inv (hn : 0 < n) (hP : 0 < P) {s : State (wtcThr n P A)}
    (h : (wtcThr n P A).system.Reachable s) :
    Inv A (Layout.rows n) P s.shared s.parent s.child := by
  apply h.invariant (I := fun s => Inv A (Layout.rows n) P s.shared s.parent s.child)
  · rintro s rfl
    refine ⟨⟨fun i j hi hj => A.entry_holds hi hj, ?_, rfl⟩, fun w _ => ?_⟩
    · exact fun i j _ _ => ⟨False.elim, fun _ => rfl⟩
    · exact ⟨rfl, rfl, rfl, rfl⟩
  · intro s s' inv hs
    cases hs with
    | parent hs => exact inv.thrParent hn hP hs
    | child hw hb hs => exact inv.child hw hb hs

/-- Whatever the interleaving, the statically partitioned programs print the closure. -/
theorem partition_prints_closure (n P : Nat) (hn : 1 ≤ n) (hP : 1 ≤ P) (A : Adjacency n) :
    (∀ s, (wtcProc n P A).system.Reachable s →
      (∀ y z, s.parent = ParentPc.print y z →
        (∀ i j, i < n → j < n →
          s.shared.curr ((Layout.flat n).cell i j) = A.closure i j) ∧
        s.shared.out = printed n A.closure y z) ∧
      (s.parent = ParentPc.done → s.shared.out = printed n A.closure n 0)) ∧
    (∀ s, (wtcThr n P A).system.Reachable s →
      (∀ y z, s.parent = ParentPc.print y z →
        (∀ i j, i < n → j < n →
          s.shared.prev ((Layout.rows n).cell i j) = A.closure i j) ∧
        s.shared.out = printed n A.closure y z) ∧
      (s.parent = ParentPc.done → s.shared.out = printed n A.closure n 0)) := by
  constructor
  · intro s h
    have inv := (wtcProc_inv hn hP h).parent
    constructor
    · intro y z hpc
      rw [hpc] at inv
      exact ⟨fun i j hi hj => inv.2.1.closure hi hj, inv.2.2.out⟩
    · intro hpc
      rw [hpc] at inv
      exact inv.2.2
  · intro s h
    have inv := (wtcThr_inv hn hP h).parent
    constructor
    · intro y z hpc
      rw [hpc] at inv
      exact ⟨fun i j hi hj => inv.1.closure hi hj, inv.2.2.out⟩
    · intro hpc
      rw [hpc] at inv
      exact inv.2.2

/-- Both programs, run with two workers on a cycle of two vertices, end and print ones only. -/
theorem partition_prints_closure_of_cycle :
    (∃ s, (wtcProc 2 2 (.cycle 2)).system.Reachable s ∧ s.parent = ParentPc.done ∧
      s.shared.out = [1, 1, 1, 1] ∧
      s.shared.out = printed 2 (Adjacency.cycle 2).closure 2 0) ∧
    (∃ s, (wtcThr 2 2 (.cycle 2)).system.Reachable s ∧ s.parent = ParentPc.done ∧
      s.shared.out = [1, 1, 1, 1] ∧
      s.shared.out = printed 2 (Adjacency.cycle 2).closure 2 0) := by
  have h := partition_prints_closure 2 2 (by decide) (by decide) (.cycle 2)
  constructor
  · have hr := (wtcProc 2 2 (.cycle 2)).play_reachable (turns 90)
    have hd : ((wtcProc 2 2 (.cycle 2)).play (turns 90)).parent = ParentPc.done := by
      decide +kernel
    exact ⟨_, hr, hd, by decide +kernel, (h.1 _ hr).2 hd⟩
  · have hr := (wtcThr 2 2 (.cycle 2)).play_reachable (turns 90)
    have hd : ((wtcThr 2 2 (.cycle 2)).play (turns 90)).parent = ParentPc.done := by
      decide +kernel
    exact ⟨_, hr, hd, by decide +kernel, (h.2 _ hr).2 hd⟩

end NoblesseOblige.Wtc.Partition
