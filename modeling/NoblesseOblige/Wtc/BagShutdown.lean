import NoblesseOblige.Wtc.BagProgress

namespace NoblesseOblige.Wtc.Bag
set_option autoImplicit true

/-- The parent has signalled the worker in the round it is in. -/
def Signalled : ParentPc → Nat → Prop
  | .signal k, w => w < k
  | .await _, _ | .copy _ _, _ | .store _ _ _, _ | .step, _ | .stepped _, _ => True
  | .load _ _, _ | .fork _, _ | .start, _ | .test, _ | .lockQueue, _ | .reset, _
  | .unlockQueue, _ | .release _, _ | .destroyP2c _, _ | .destroyC2p _, _ | .join _, _
  | .print _ _, _ | .done, _ => False

/-- The last round has its signal to the worker taken, but its number is still in `iterator`. -/
def Closing (n : Nat) (h : Shared L) (pc : ParentPc) (w : Nat) : Prop :=
  h.iterator + 1 = n ∧ Signalled pc w ∧ h.sem (.p2c w) = 0

/-- The main process is past its iteration loop. -/
def Left : ParentPc → Prop
  | .destroyP2c _ | .destroyC2p _ | .print _ _ | .done => True
  | _ => False

/-- No child that has done the last round looks at `iterator` before the parent has counted it. -/
def Punctual (n P : Nat) (A : Adjacency n) (s s' : State (wtcBtproc n P A)) : Prop :=
  ∀ w, w < P → Closing n s.shared s.parent w → s.child w = ChildPc.recheck →
    s'.child w = ChildPc.recheck

instance : (pc : ParentPc) → (w : Nat) → Decidable (Signalled pc w)
  | .signal k, w => inferInstanceAs (Decidable (w < k))
  | .await _, _ | .copy _ _, _ | .store _ _ _, _ | .step, _ | .stepped _, _ => isTrue trivial
  | .load _ _, _ | .fork _, _ | .start, _ | .test, _ | .lockQueue, _ | .reset, _
  | .unlockQueue, _ | .release _, _ | .destroyP2c _, _ | .destroyC2p _, _ | .join _, _
  | .print _ _, _ | .done, _ => isFalse id

instance (h : Shared L) (pc : ParentPc) (w : Nat) : Decidable (Closing n h pc w) :=
  inferInstanceAs (Decidable (_ ∧ _ ∧ _))

instance (s s' : State (wtcBtproc n P A)) : Decidable (Punctual n P A s s') :=
  inferInstanceAs (Decidable (∀ w, w < P → _ → _ → _))

section
variable {n : Nat} {A : Adjacency n} {L : Layout n} {first : Bool} {P w : Nat}
variable {holds : ParentPc → Prop}

theorem ParentOk.queue {h : Shared L} (ok : ParentOk A L h pc) (hn : 0 < n)
    (hi : n ≤ h.iterator) : n ≤ h.queue := by
  cases pc with
  | load i j | fork k | start =>
    have := ok.1
    omega
  | test => exact ok.2.1 (by omega)
  | release k | destroyP2c k | destroyC2p k | join k | print i j | done => exact ok.2.1
  | stepped k => exact ok.2.2.1
  | _ => exact absurd ok.1 (Nat.not_lt.mpr hi)

theorem Inv.queue_of_closing {h : Shared L} (inv : Inv A L first P holds h pc cs) (hw : w < P)
    (hc : Closing n h pc w) (ho : Outside n h (cs w)) : n ≤ h.queue := by
  obtain ⟨_, hs, hp⟩ := hc
  have busy (ok : BusyOk A L first h w (cs w)) : n ≤ h.queue := by
    rcases ok with ⟨_, ht⟩ | ⟨hw, _⟩ | ⟨_, _, hq⟩
    · exact absurd (hp.symm.trans ht.1) Nat.zero_ne_one
    · cases hcs : cs w <;> rw [hcs] at ho hw <;> first | exact ho.elim | exact hw.elim
    · exact hq
  have ok := inv.worker w hw
  have hpar := inv.parent
  cases pc with
  | signal k =>
    simp only [stage, if_pos (show w < k from hs)] at ok
    exact busy ok.2
  | await k =>
    by_cases hk : w < k
    · exact hpar.2.2.2.2 (by omega)
    · simp only [stage, if_neg hk] at ok
      exact busy ok.2
  | copy i j | store i j v | step => exact hpar.2.1
  | stepped k => exact hpar.2.2.1
  | _ => exact hs.elim

/-- A child goes to its wait when there are rows or, as it reads it, rounds left. -/
theorem childProcess_wait {h h' : Shared L}
    (hs : (body false L w pc).run y h = some (h', .wait)) :
    h' = h ∧ (pc = .outer ∧ h.queue < n ∨ pc = .recheck ∧ h.iterator < n) := by
  cases body_goes hs with
  | rows _ hq => exact ⟨rfl, .inl ⟨rfl, hq⟩⟩
  | again hi => exact ⟨rfl, .inr ⟨rfl, hi⟩⟩

/-- A thread goes to its wait when, as it reads it, there are rounds left. -/
theorem thread_wait {h h' : Shared L} (hs : (body true L w pc).run y h = some (h', .wait)) :
    h' = h ∧ h.iterator < n := by
  cases body_goes hs with
  | rows hf _ => cases hf
  | again hi => exact ⟨rfl, hi⟩

/-- How far a worker that will not wait any more is from its end. -/
def ChildPc.toEnd : ChildPc → Nat
  | .outer => 3
  | .recheck => 2
  | .leave => 1
  | _ => 0

/-- When all rounds are over a worker that is not at its wait goes to its end. -/
theorem Outside.toEnd {h h' : Shared L} (ho : Outside n h pc) (hne : pc ≠ .wait)
    (hi : n ≤ h.iterator) (hq : n ≤ h.queue)
    (hs : (body first L w pc).run y h = some (h', pc')) :
    Outside n h pc' ∧ pc' ≠ .wait ∧ pc'.toEnd < pc.toEnd ∧ ∃ e, h' = { h with exited := e } := by
  cases body_goes hs with
  | rows _ hlt => exact absurd hlt (Nat.not_lt.mpr hq)
  | more _ hlt | again hlt => exact absurd hlt (Nat.not_lt.mpr hi)
  | noRows => exact ⟨trivial, (by simp), Nat.lt_succ_self 2, _, rfl⟩
  | noMore => exact ⟨hi, (by simp), Nat.lt_of_sub_eq_succ rfl, _, rfl⟩
  | ended => exact ⟨hi, (by simp), Nat.lt_succ_self 1, _, rfl⟩
  | wait => exact absurd rfl hne
  | leave => exact ⟨hi, (by simp), Nat.lt_succ_self 0, _, rfl⟩
  | _ => exact ho.elim

/-- No child waits for a signal that will not come: the last round has its signal taken, or all
rounds are over. -/
structure Settled (n P : Nat) (h : Shared L) (pc : ParentPc) (cs : Nat → ChildPc) : Prop where
  wait : ∀ w, w < P → Closing n h pc w ∨ n ≤ h.iterator → cs w ≠ .wait
  left : Left pc → ∀ w, w < P → Outside n h (cs w)

theorem Left.draining (hl : Left pc) : stage pc w = .draining := by
  cases pc <;> first | rfl | exact hl.elim

theorem Settled.child {h h' : Shared L} (settled : Settled n P h pc cs)
    (inv : Inv A L false P holds h pc cs) (hn : 0 < n) (hw : w < P) (hb : h.born w = true)
    (hs : (body false L w (cs w)).run y h = some (h', c))
    (hc : Closing n h pc w → cs w = .recheck → c = .recheck) :
    Settled n P h' pc (Function.update cs w c) := by
  have he := (child_step (inv.worker w hw) inv.parent.busy inv.parent.draining hb hs).2
  constructor
  · intro v hv hcl
    by_cases hvw : v = w
    · subst hvw
      rw [Function.update_self]
      rintro rfl
      obtain ⟨rfl, hcs⟩ := childProcess_wait hs
      rcases hcs with ⟨hcs, hq⟩ | ⟨hcs, hi⟩
      · have hle : n ≤ h'.queue := by
          rcases hcl with hcl | hi
          · exact inv.queue_of_closing hv hcl (hcs ▸ trivial)
          · exact inv.parent.queue hn hi
        exact absurd hq (Nat.not_lt.mpr hle)
      · rcases hcl with hcl | hle
        · exact absurd (hc hcl hcs) (by simp)
        · exact absurd hi (Nat.not_lt.mpr hle)
    · rw [Function.update_of_ne hvw]
      refine settled.wait v hv ?_
      have hsem : h'.sem (.p2c v) = h.sem (.p2c v) :=
        he.sem _ (by simpa using hvw) (by simp) (by simp)
      rwa [Closing, he.iterator, hsem] at hcl
  · intro hl v hv
    by_cases hvw : v = w
    · subst hvw
      rw [Function.update_self]
      obtain ⟨hi, hq⟩ := inv.parent.draining (w := v) hl.draining
      obtain ⟨ho, -, -, e, rfl⟩ :=
        (settled.left hl v hv).toEnd (settled.wait v hv (.inr hi)) hi hq hs
      exact ho
    · rw [Function.update_of_ne hvw]
      exact (settled.left hl v hv).frame (Nat.le_of_eq he.iterator.symm)

/-- A parent step that neither counts a round nor signals. -/
theorem Settled.keep {h h' : Shared L} (settled : Settled n P h pc cs)
    (hi : h'.iterator = h.iterator) (hsem : ∀ w, h'.sem (.p2c w) = h.sem (.p2c w))
    (hsig : ∀ w, w < P → Signalled pc' w → Signalled pc w) (hl : Left pc' → Left pc) :
    Settled n P h' pc' cs := by
  constructor
  · intro w hw hc
    refine settled.wait w hw (hc.imp ?_ ?_)
    · rintro ⟨hn, hs, hp⟩
      exact ⟨hi ▸ hn, hsig w hw hs, (hsem w).symm.trans hp⟩
    · exact fun hle => hi ▸ hle
  · exact fun hp w hw => (settled.left (hl hp) w hw).frame (Nat.le_of_eq hi.symm)

theorem Settled.signal {h : Shared L} (settled : Settled n P h (.signal k) cs)
    (hk : h.sem (.p2c k) = 0) (y : Sync) :
    Settled n P (h.setSem (.p2c k) (y.release (h.sem (.p2c k)))) (.signal (k + 1)) cs := by
  constructor
  · rintro w hw (⟨hn, hs, hp⟩ | hi)
    · have hwk : w ≠ k := by
        rintro rfl
        rw [Shared.setSem_self, hk, Sync.release_zero] at hp
        cases hp
      rw [Shared.setSem_of_ne _ _ (by simpa using hwk)] at hp
      have hlt : w < k := by
        have : w < k + 1 := hs
        omega
      exact settled.wait w hw (.inl ⟨hn, hlt, hp⟩)
    · exact settled.wait w hw (.inr hi)
  · exact False.elim

/-- When the last round is counted, no child is at its wait. -/
theorem Settled.stepped {h : Shared L} (settled : Settled n P h (.stepped k) cs)
    (inv : Inv A L first P holds h (.stepped k) cs) :
    Settled n P { h with iterator := k + 1 } .test cs := by
  obtain ⟨hk, hi, -⟩ := inv.parent
  constructor
  · rintro w hw (⟨_, hs, _⟩ | hn)
    · exact hs.elim
    · have hn : n ≤ k + 1 := hn
      exact settled.wait w hw (.inl ⟨by omega, trivial, (inv.worker w hw).2.2.1⟩)
  · exact False.elim

theorem Settled.rounds {h h' : Shared L} (settled : Settled n P h pc cs)
    (inv : Inv A L first P holds h pc cs)
    (hs : (Bag.rounds L P .test .reset (.destroyP2c 0) pc).run y h = some (h', pc')) :
    Settled n P h' pc' cs := by
  cases pc with
  | fork k =>
    rw [Bag.rounds] at hs
    split at hs <;> (cases hs; exact settled.keep rfl (fun _ => rfl) (fun _ _ => id) id)
  | test =>
    obtain ⟨rfl, hpc⟩ := Prod.mk.inj (Option.some.inj hs)
    dsimp only at hpc
    split at hpc <;> cases hpc
    · exact settled.keep rfl (fun _ => rfl) (fun _ _ => id) id
    · refine ⟨fun w hw hc => settled.wait w hw (hc.imp (fun hc => ?_) id), fun _ w hw => ?_⟩
      · exact absurd hc.2.1 id
      · exact (inv.worker w hw).2.1
  | signal k =>
    rw [Bag.rounds] at hs
    split at hs
    · cases hs
      have ok := inv.worker k ‹_›
      simp only [stage, Nat.lt_irrefl, ↓reduceIte] at ok
      exact settled.signal ok.2.2.1 y
    · cases hs
      exact settled.keep rfl (fun _ => rfl) (fun w hw _ => show w < k by omega) id
  | await k =>
    rw [Bag.rounds] at hs
    split at hs
    · rw [Instr.run] at hs
      split at hs
      · cases hs
      · cases hs
        exact settled.keep rfl (fun _ => h.setSem_of_ne _ (by simp)) (fun _ _ => id) id
    · cases hs
      exact settled.keep rfl (fun _ => rfl) (fun _ _ => id) id
  | copy i j =>
    rw [Bag.rounds] at hs
    split at hs
    · split at hs <;>
        (cases hs; exact settled.keep rfl (fun _ => rfl) (fun _ _ => id) id)
    · cases hs
      exact settled.keep rfl (fun _ => rfl) (fun _ _ => id) id
  | store i j v | step =>
    cases hs
    exact settled.keep rfl (fun _ => rfl) (fun _ _ => id) id
  | stepped k =>
    cases hs
    exact settled.stepped inv
  | _ => cases hs

theorem Settled.parent {h h' : Shared L} (settled : Settled n P h pc cs)
    (inv : Inv A L first P holds h pc cs)
    (hs : (procParent L P A pc).run y h = some (h', pc')) : Settled n P h' pc' cs := by
  cases pc with
  | load i j =>
    rw [procParent] at hs
    split at hs
    · split at hs <;>
        (cases hs; exact settled.keep rfl (fun _ => rfl) (fun _ _ => id) id)
    · cases hs
      exact settled.keep rfl (fun _ => rfl) (fun _ _ => id) id
  | reset =>
    cases hs
    exact settled.keep rfl (fun _ => rfl) (fun w _ hw => absurd hw (Nat.not_lt_zero w)) id
  | destroyP2c k =>
    rw [procParent] at hs
    split at hs <;> (cases hs; exact settled.keep rfl (fun _ => rfl) (fun _ _ => id) id)
  | destroyC2p k =>
    cases hs
    exact settled.keep rfl (fun _ => rfl) (fun _ _ => id) id
  | print i j =>
    rw [procParent, printArrayMatrix, printLoop] at hs
    split at hs
    · split at hs <;>
        (cases hs; exact settled.keep rfl (fun _ => rfl) (fun _ _ => id) id)
    · cases hs
      exact settled.keep rfl (fun _ => rfl) (fun _ _ => id) id
  | _ => exact settled.rounds inv hs

end

theorem wtcBtproc_settled (hn : 0 < n) (hP : 0 < P) {s : State (wtcBtproc n P A)}
    (h : ((wtcBtproc n P A).system.restrict (Punctual n P A)).Reachable s) :
    (wtcBtproc n P A).system.Reachable s ∧ Settled n P s.shared s.parent s.child := by
  apply h.invariant (I := fun s =>
    (wtcBtproc n P A).system.Reachable s ∧ Settled n P s.shared s.parent s.child)
  · rintro s rfl
    exact ⟨.start rfl, fun _ _ _ => by simp [Program.initial], False.elim⟩
  · rintro s s' ⟨hr, settled⟩ ⟨hs, hc⟩
    refine ⟨hr.next hs, ?_⟩
    have inv := wtcBtproc_inv hn hP hr
    cases hs with
    | parent hs => exact settled.parent inv hs
    | child hw hb hs =>
      rename_i w h' pc
      refine settled.child inv hn hw hb hs fun hcl hre => ?_
      have hu : Function.update s.child w pc w = ChildPc.recheck := hc w hw hcl hre
      rwa [Function.update_self] at hu

theorem Looping.not_left (hl : Looping pc) : ¬ Left pc := by
  cases pc <;> first | exact id | exact hl.elim

theorem ProcGoes.left (hg : ProcGoes pc pc') (hl : Left pc) : Left pc' := by
  cases hg with
  | rounds hp | enter hp | teardown hp => exact absurd hl hp.not_left
  | load | loaded | reset => exact hl.elim
  | _ => trivial

/-- The main process has left its loop, and no child is at its wait or gets there. -/
structure Quiet (s : State (wtcBtproc n P A)) : Prop where
  reachable : (wtcBtproc n P A).system.Reachable s
  left : Left s.parent
  settled : Settled n P s.shared s.parent s.child

theorem Left.not_signalled (hl : Left pc) : ¬ Signalled pc w := by
  cases pc <;> first | exact id | exact hl.elim

section
variable {n P : Nat} {A : Adjacency n} {s s' : State (wtcBtproc n P A)}

theorem Quiet.ended (hq : Quiet s) (hn : 0 < n) (hP : 0 < P) :
    n ≤ s.shared.iterator ∧ n ≤ s.shared.queue :=
  (wtcBtproc_inv hn hP hq.reachable).parent.draining (w := 0) hq.left.draining

theorem Quiet.wait (hq : Quiet s) (hn : 0 < n) (hP : 0 < P) (hw : w < P) :
    s.child w ≠ ChildPc.wait :=
  hq.settled.wait w hw (.inr (hq.ended hn hP).1)

theorem Quiet.step (hq : Quiet s) (hn : 0 < n) (hP : 0 < P)
    (hs : Step (wtcBtproc n P A) s s') : Quiet s' := by
  have inv := wtcBtproc_inv hn hP hq.reachable
  have hr := hq.reachable.next hs
  cases hs with
  | parent hs =>
    exact ⟨hr, (procParent_goes (Instr.leads hs)).left hq.left, hq.settled.parent inv hs⟩
  | child hw hb hs =>
    exact ⟨hr, hq.left, hq.settled.child inv hn hw hb hs
      fun hc _ => absurd hc.2.1 hq.left.not_signalled⟩

theorem Quiet.run (hq : Quiet s) (hn : 0 < n) (hP : 0 < P)
    (hs : Relation.ReflTransGen (Step (wtcBtproc n P A)) s s') : Quiet s' := by
  induction hs with
  | refl => exact hq
  | tail _ hs ih => exact ih.step hn hP hs

/-- A child that has not ended goes one step on. -/
theorem Quiet.advance (hq : Quiet s) (hn : 0 < n) (hP : 0 < P) (hw : w < P)
    (hd : s.child w ≠ ChildPc.done) : ∃ s', Step (wtcBtproc n P A) s s' ∧
      ChildPc.toEnd (s'.child w) < ChildPc.toEnd (s.child w) ∧
      ∀ v, v ≠ w → s'.child v = s.child v := by
  have inv := wtcBtproc_inv hn hP hq.reachable
  have hb : s.shared.born w = true := by
    have ok := inv.worker w hw
    rw [hq.left.draining] at ok
    exact ok.1
  obtain ⟨hi, hqu⟩ := hq.ended hn hP
  have ho := hq.settled.left hq.left w hw
  have hne := hq.wait hn hP hw
  have he : (body false (Layout.flat n) w (s.child w)).blocked s.shared = false :=
    ho.enabled (fun hp => absurd hp hne) hd
  have hr := Instr.run_isSome (wtcBtproc n P A).sync s.shared
    (body false (Layout.flat n) w (s.child w))
  rw [he] at hr
  obtain ⟨⟨h', c⟩, hs⟩ := Option.isSome_iff_exists.mp hr
  refine ⟨⟨h', s.parent, Function.update s.child w c⟩, .child hw hb hs, ?_, fun v hv => ?_⟩
  · simp only [Function.update_self]
    exact (ho.toEnd hne hi hqu hs).2.2.1
  · exact Function.update_of_ne hv ..

/-- Every child can go on to its end, whatever the others do not do meanwhile. -/
theorem Quiet.finish (hq : Quiet s) (hn : 0 < n) (hP : 0 < P) (hw : w < P) :
    ∃ s', Relation.ReflTransGen (Step (wtcBtproc n P A)) s s' ∧ s'.child w = ChildPc.done ∧
      ∀ v, v ≠ w → s'.child v = s.child v := by
  induction hk : ChildPc.toEnd (s.child w) using Nat.strong_induction_on generalizing s with
  | _ k ih =>
    by_cases hd : s.child w = ChildPc.done
    · exact ⟨s, .refl, hd, fun _ _ => rfl⟩
    · obtain ⟨s₁, hs, hlt, hv⟩ := hq.advance hn hP hw hd
      obtain ⟨s₂, hr, hd₂, hv₂⟩ := ih _ (hk ▸ hlt) (hq.step hn hP hs) rfl
      exact ⟨s₂, .head hs hr, hd₂, fun v hne => (hv₂ v hne).trans (hv v hne)⟩

theorem Quiet.finish_all (hq : Quiet s) (hn : 0 < n) (hP : 0 < P) (k : Nat) (hk : k ≤ P) :
    ∃ s', Relation.ReflTransGen (Step (wtcBtproc n P A)) s s' ∧
      ∀ w, w < k → s'.child w = ChildPc.done := by
  induction k with
  | zero => exact ⟨s, .refl, fun w hw => absurd hw (Nat.not_lt_zero w)⟩
  | succ k ih =>
    obtain ⟨s₁, hr₁, hd₁⟩ := ih (by omega)
    obtain ⟨s₂, hr₂, hd₂, hv⟩ := (hq.run hn hP hr₁).finish hn hP (w := k) (by omega)
    refine ⟨s₂, hr₁.trans hr₂, fun w hw => ?_⟩
    by_cases hwk : w = k
    · exact hwk ▸ hd₂
    · exact (hv w hwk).trans (hd₁ w (by omega))

end

/-- Before its loop ends `wtc_btproc` does not get stuck, and when no child reads the round number
too early no child is left waiting when the loop has ended: each can exit. -/
theorem btproc_shutdown (n P : Nat) (hn : 1 ≤ n) (hP : 1 ≤ P) (A : Adjacency n) :
    (∀ s, (wtcBtproc n P A).system.Reachable s → ¬ Left s.parent →
      ∃ s', Step (wtcBtproc n P A) s s') ∧
    (∀ s, ((wtcBtproc n P A).system.restrict (Punctual n P A)).Reachable s → Left s.parent →
      (∀ s', Relation.ReflTransGen (Step (wtcBtproc n P A)) s s' →
        ∀ w, w < P → s'.child w ≠ ChildPc.wait) ∧
      ∃ s', Relation.ReflTransGen (Step (wtcBtproc n P A)) s s' ∧
        ∀ w, w < P → s'.child w = ChildPc.done ∧ s'.shared.exited w = true) := by
  constructor
  · intro s hr hl
    refine wtcBtproc_runs hn hP hr fun hd => hl ?_
    rw [hd]
    trivial
  · intro s hr hl
    obtain ⟨hr, settled⟩ := wtcBtproc_settled hn hP hr
    have hq : Quiet s := ⟨hr, hl, settled⟩
    refine ⟨fun s' hs w hw => (hq.run hn hP hs).wait hn hP hw, ?_⟩
    obtain ⟨s', hs, hd⟩ := hq.finish_all hn hP P (Nat.le_refl P)
    refine ⟨s', hs, fun w hw => ⟨hd w hw, ?_⟩⟩
    exact Program.exited_of_done (d := ChildPc.done) (fun he => by cases he)
      (fun _ _ _ _ hs => body_done false hs) (hq.run hn hP hs).reachable (hd w hw)

/-- Two children that look at `iterator` only when their parent has left the loop. -/
theorem btproc_shutdown_of_cycle : ∃ s, ((wtcBtproc 2 2 (.cycle 2)).system.restrict
    (Punctual 2 2 (.cycle 2))).Reachable s ∧ s.parent = ParentPc.destroyP2c 0 ∧
      s.child 0 = ChildPc.recheck ∧ s.child 1 = ChildPc.recheck ∧
      ∃ s', Relation.ReflTransGen (Step (wtcBtproc 2 2 (.cycle 2))) s s' ∧
        ∀ w, w < 2 → s'.child w = ChildPc.done ∧ s'.shared.exited w = true := by
  have hr := (wtcBtproc 2 2 (.cycle 2)).playIf_reachable (Punctual 2 2 (.cycle 2))
    (turns 90 ++ List.replicate 2 none)
  have hpc : ((wtcBtproc 2 2 (.cycle 2)).playIf (Punctual 2 2 (.cycle 2))
      (turns 90 ++ List.replicate 2 none)).parent = ParentPc.destroyP2c 0 := by
    decide +kernel
  have h := (btproc_shutdown 2 2 (by decide) (by decide) (.cycle 2)).2 _ hr (by
    rw [hpc]
    trivial)
  exact ⟨_, hr, hpc, by decide +kernel, by decide +kernel, h.2⟩

/-- A child that looks too early waits for a signal that does not come. -/
theorem btproc_not_shutdown : ¬ ∀ (n P : Nat) (A : Adjacency n) (s : State (wtcBtproc n P A)),
    1 ≤ n → 1 ≤ P → (wtcBtproc n P A).system.Reachable s → Left s.parent →
      ∀ w, w < P → s.child w ≠ ChildPc.wait := by
  intro h
  have hr := (wtcBtproc 1 1 (.cycle 1)).play_reachable
    (List.replicate 9 none ++ List.replicate 18 (some 0) ++ List.replicate 9 none)
  refine h 1 1 (.cycle 1) _ (by decide) (by decide) hr ?_ 0 (by decide) (by decide +kernel)
  have hpc : ((wtcBtproc 1 1 (.cycle 1)).play
      (List.replicate 9 none ++ List.replicate 18 (some 0) ++ List.replicate 9 none)).parent =
        ParentPc.destroyP2c 0 := by
    decide +kernel
  rw [hpc]
  trivial

end NoblesseOblige.Wtc.Bag
