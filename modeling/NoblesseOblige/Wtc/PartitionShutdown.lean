import NoblesseOblige.Wtc.PartitionClosure
import NoblesseOblige.Wtc.Progress

namespace NoblesseOblige.Wtc.Partition
set_option autoImplicit true

/-- The round a worker is in, inside its row loop. -/
def ChildPc.inRound : ChildPc → Option Nat
  | .row k _ | .cell k _ _ | .both k _ _ | .own k _ _ | .set k _ _ => some k
  | .loop _ | .done => none

def ParentPc.inRound : ParentPc → Option Nat
  | .signal m _ | .await m _ | .copy m _ _ | .store m _ _ _ => some m
  | _ => none

/-- How many rounds a worker has begun, and how many it has finished. -/
def ChildPc.begun (n : Nat) : ChildPc → Nat
  | .loop k => min k n
  | .row k _ | .cell k _ _ | .both k _ _ | .own k _ _ | .set k _ _ => min (k + 1) n
  | .done => n

def ChildPc.finished (n : Nat) (pc : ChildPc) : Nat :=
  pc.begun n - if pc.inRound.isSome then 1 else 0

/-- No run of the program gets stuck, loses or doubles a signal, leaves out a round of one of the
`P` workers or lets a worker be in another round than its parent, and when a semaphore or mutex is
destroyed no worker has a signal or a wait before it. -/
structure Orderly (n P : Nat) (M : Program L) (pc : State M → ParentPc)
    (cs : State M → Nat → ChildPc) : Prop where
  runs : ∀ s, M.system.Reachable s →
    (∃ s', Step M s s') ∨ pc s = .done ∧ ∀ w, w < P → cs s w = .done
  signals : ∀ turns x, (M.play turns).shared.sem x + M.count (M.waits x) M.initial turns =
    M.memory.sem x + M.count (M.posts x) M.initial turns
  rounds : ∀ turns w, w < P → M.count (M.waits (.p2c w)) M.initial turns ≤ n ∧
    (cs (M.play turns) w = .done → M.count (M.waits (.p2c w)) M.initial turns = n ∧
      M.count (M.posts (.c2p w)) M.initial turns = n)
  ends : ∀ turns, (∀ s', ¬ Step M (M.play turns) s') → pc (M.play turns) = .done ∧
    ∀ w, w < P → cs (M.play turns) w = .done ∧
      M.count (M.waits (.p2c w)) M.initial turns = n ∧
      M.count (M.posts (.c2p w)) M.initial turns = n
  lockstep : ∀ s, M.system.Reachable s → ∀ w k, w < P →
    (cs s w).inRound = some k → (pc s).inRound = some k
  teardown : ∀ s, M.system.Reachable s → ∀ x, (M.parent s.parent).destroys x = true →
    ∀ w, w < P → M.Retired s w

/-- What the two programs have in common. -/
@[reducible] def program (L : Layout n) (P : Nat) (y : Sync) (par : ParentPc → Instr L ParentPc)
    (memory : Shared L) (start : ParentPc) : Program L where
  ParentPc := ParentPc
  ChildPc := ChildPc
  sync := y
  workers := P
  parent := par
  child := child L P
  memory := memory
  parentStart := start
  childStart := .loop 0

section
variable {n : Nat} {A : Adjacency n} {L : Layout n} {P w : Nat}

theorem Working.enabled {h : Shared L} (hw : Working A L P m w M pc) :
    (child L P w pc).blocked h = false := by
  cases pc with
  | loop k | done => exact hw.elim
  | row k i =>
    rw [child]
    split <;> rfl
  | cell k i j =>
    rw [child]
    split <;> rfl
  | both k i j | own k i j | set k i j => rfl

theorem BusyOk.enabled {h : Shared L} (hb : BusyOk A L P h w m pc) (hm : m < n)
    (hc : h.sem (.c2p w) = 0) : (child L P w pc).blocked h = false := by
  rcases hb with ⟨rfl, ht⟩ | ⟨hw, _⟩ | ⟨_, ht, _⟩
  · rw [child, if_pos hm, Instr.blocked, ht.1]
    rfl
  · exact hw.enabled
  · exact absurd (hc.symm.trans ht.2) Nat.zero_ne_one

/-- A worker that has left its last round has exited, or can. -/
theorem AtLoop.enabled {h : Shared L} (ha : AtLoop n n pc) :
    (child L P w pc).blocked h = false ∨ pc = .done := by
  rcases ha with rfl | ⟨_, hd⟩
  · rw [child, if_neg (Nat.lt_irrefl n)]
    exact .inl rfl
  · exact .inr hd

/-- The program points between the creation of the workers and the teardown. -/
def Looping : ParentPc → Prop
  | .fork _ | .round _ | .signal _ _ | .await _ _ | .copy _ _ _ | .store _ _ _ _ => True
  | _ => False

/-- Someone can take a step. -/
def Runs (L : Layout n) (P : Nat) (par : ParentPc → Instr L ParentPc) (h : Shared L)
    (pc : ParentPc) (cs : Nat → ChildPc) : Prop :=
  (par pc).blocked h = false ∨
    ∃ w, w < P ∧ h.born w = true ∧ (child L P w (cs w)).blocked h = false

theorem Inv.rounds_runs {h : Shared L} (inv : Inv A L P h pc cs) (td : ParentPc)
    (hpc : Looping pc) : Runs L P (Partition.rounds L P td) h pc cs := by
  cases pc with
  | fork k =>
    refine .inl ?_
    rw [Partition.rounds]
    split <;> rfl
  | round m =>
    refine .inl ?_
    rw [Partition.rounds]
    split <;> rfl
  | signal m k =>
    refine .inl ?_
    rw [Partition.rounds]
    split <;> rfl
  | await m k =>
    by_cases hk : k < P
    · by_cases hc : h.sem (.c2p k) = 0
      · have ok := inv.worker k hk
        simp only [stage, Nat.lt_irrefl, ↓reduceIte] at ok
        exact .inr ⟨k, hk, ok.1, ok.2.enabled inv.parent.1 hc⟩
      · refine .inl ?_
        rw [Partition.rounds, if_pos hk, Instr.blocked, decide_eq_false hc]
    · refine .inl ?_
      rw [Partition.rounds, if_neg hk]
      rfl
  | copy m y z =>
    refine .inl ?_
    rw [Partition.rounds]
    split
    · split <;> rfl
    · rfl
  | store m y z v => exact .inl rfl
  | _ => exact hpc.elim

/-- The loops lead to the teardown or stay in the loops. -/
theorem rounds_target (td : ParentPc) (hl : (Partition.rounds L P td pc).Leads pc') :
    pc' = td ∨ Looping pc' := by
  cases pc with
  | fork k | signal m k | await m k =>
    rw [Partition.rounds] at hl
    split at hl <;> (cases hl; exact .inr trivial)
  | round m =>
    rw [Partition.rounds] at hl
    split at hl
    · cases hl
      exact .inr trivial
    · cases hl
      exact .inl rfl
  | copy m y z =>
    rw [Partition.rounds] at hl
    split at hl
    · split at hl
      · obtain ⟨v, rfl⟩ := hl
        exact .inr trivial
      · cases hl
        exact .inr trivial
    · cases hl
      exact .inr trivial
  | store m y z v =>
    cases hl
    exact .inr trivial
  | _ => exact hl.elim

/-- While every worker has its last round behind it, all have exited or one can step. -/
theorem Inv.idle_runs {h : Shared L} (inv : Inv A L P h pc cs)
    (par : ParentPc → Instr L ParentPc) (hst : ∀ w, stage n pc w = .idle n) :
    Runs L P par h pc cs ∨ ∀ w, w < P → cs w = .done := by
  by_cases hd : ∀ w, w < P → cs w = .done
  · exact .inr hd
  · simp only [not_forall] at hd
    obtain ⟨w, hw, hd⟩ := hd
    have ok := inv.worker w hw
    rw [hst w] at ok
    rcases ok.2.1.enabled (L := L) (P := P) (w := w) (h := h) with he | he
    · exact .inl (.inr ⟨w, hw, ok.1, he⟩)
    · exact absurd he hd

/-- A signal finds the last one taken. -/
theorem Inv.signal_free {h : Shared L} (inv : Inv A L P h (.signal m k) cs) (hk : k < P) :
    h.sem (.p2c k) = 0 := by
  have ok := inv.worker k hk
  simp only [stage, Nat.lt_irrefl, ↓reduceIte] at ok
  exact ok.2.2.1

theorem WorkerOk.post_free {h : Shared L} (ok : WorkerOk A L P h w pc st) (hb : h.born w = true)
    (hp : (child L P w pc).posts x = true) : h.sem x = 0 := by
  cases pc with
  | row k i =>
    rw [child] at hp
    split at hp
    · cases hp
    · obtain rfl : Sem.c2p w = x := of_decide_eq_true hp
      cases st with
      | unborn => exact absurd (hb.symm.trans ok.1) (by simp)
      | idle m =>
        rcases ok.2.1 with hl | ⟨_, hl⟩ <;> cases hl
      | busy m =>
        rcases ok.2 with ⟨hl, _⟩ | ⟨_, ht⟩ | ⟨hl | ⟨_, hl⟩, _⟩
        · cases hl
        · exact ht.2
        · cases hl
        · cases hl
      | collected m =>
        rcases ok.2.1 with hl | ⟨_, hl⟩ <;> cases hl
  | loop k =>
    rw [child] at hp
    split at hp <;> cases hp
  | cell k i j =>
    rw [child] at hp
    split at hp <;> cases hp
  | both k i j | own k i j | set k i j | done => cases hp

theorem child_posts (hp : (child L P w pc).posts x = true) : x = .c2p w := by
  cases pc with
  | loop k =>
    rw [child] at hp
    split at hp <;> cases hp
  | row k i =>
    rw [child] at hp
    split at hp
    · cases hp
    · exact (of_decide_eq_true hp).symm
  | cell k i j =>
    rw [child] at hp
    split at hp <;> cases hp
  | both k i j | own k i j | set k i j | done => cases hp

theorem child_waits (hw : (child L P w pc).waits x = true) : x = .p2c w := by
  cases pc with
  | loop k =>
    rw [child] at hw
    split at hw
    · exact (of_decide_eq_true hw).symm
    · cases hw
  | row k i =>
    rw [child] at hw
    split at hw <;> cases hw
  | cell k i j =>
    rw [child] at hw
    split at hw <;> cases hw
  | both k i j | own k i j | set k i j | done => cases hw

theorem ChildPc.begun_le (n : Nat) (pc : ChildPc) : pc.begun n ≤ n := by
  cases pc with
  | done => exact Nat.le_refl n
  | _ => exact Nat.min_le_right _ _

/-- A worker begins a round with each wait and finishes one with each signal. -/
theorem child_rounds {h h' : Shared L} (hn : 0 < n)
    (hs : (child L P w pc).run y h = some (h', pc')) :
    pc'.begun n = pc.begun n + (if (child L P w pc).waits (.p2c w) then 1 else 0) ∧
      pc'.finished n = pc.finished n + (if (child L P w pc).posts (.c2p w) then 1 else 0) := by
  cases child_goes hs with
  | wait hk =>
    rw [child, if_pos hk]
    simp only [Instr.waits, Instr.posts, ChildPc.begun, ChildPc.finished, ChildPc.inRound,
      Option.isSome_some, Option.isSome_none, decide_true, if_true, Bool.false_eq_true, if_false]
    omega
  | leave hk =>
    rw [child, if_neg (Nat.not_lt.mpr hk)]
    simp only [Instr.waits, Instr.posts, ChildPc.begun, ChildPc.finished, ChildPc.inRound,
      Option.isSome_none, Bool.false_eq_true, if_false]
    omega
  | row hi =>
    rw [child, if_pos hi]
    exact ⟨rfl, rfl⟩
  | post hi =>
    rw [child, if_neg (Nat.not_lt.mpr hi)]
    simp only [Instr.waits, Instr.posts, ChildPc.begun, ChildPc.finished, ChildPc.inRound,
      Option.isSome_some, Option.isSome_none, decide_true, if_true, Bool.false_eq_true, if_false]
    omega
  | both hj | noPath hj =>
    rw [child, if_pos hj]
    exact ⟨rfl, rfl⟩
  | next hj =>
    rw [child, if_neg (Nat.not_lt.mpr hj)]
    exact ⟨rfl, rfl⟩
  | _ => exact ⟨rfl, rfl⟩

theorem AtLoop.inRound (h : AtLoop n m pc) : pc.inRound = none := by
  rcases h with rfl | ⟨_, rfl⟩ <;> rfl

theorem Working.inRound (hw : Working A L P m w M pc) : pc.inRound = some m := by
  cases pc with
  | loop k | done => exact hw.elim
  | row k i | cell k i j | both k i j | own k i j | set k i j => exact congrArg some hw.1

/-- A worker is inside its row loop only in the round its parent is in. -/
theorem WorkerOk.lockstep {h : Shared L} (ok : WorkerOk A L P h w pc st)
    (hk : pc.inRound = some k) : st = .busy k := by
  cases st with
  | unborn =>
    rw [ok.2.1] at hk
    cases hk
  | idle m =>
    rw [ok.2.1.inRound] at hk
    cases hk
  | busy m =>
    rcases ok.2 with ⟨rfl, _⟩ | ⟨hw, _⟩ | ⟨ha, _⟩
    · cases hk
    · exact congrArg Stage.busy (Option.some.inj (hw.inRound.symm.trans hk))
    · rw [ha.inRound] at hk
      cases hk
  | collected m =>
    rw [ok.2.1.inRound] at hk
    cases hk

theorem inRound_of_busy {pc : ParentPc} (h : stage n pc w = .busy k) : pc.inRound = some k := by
  cases pc with
  | fork k' =>
    simp only [stage] at h
    split at h <;> cases h
  | signal m k' | await m k' =>
    simp only [stage] at h
    split at h <;> cases h
    rfl
  | _ => cases h

/-- From behind its last round a worker gets to no signal and no wait. -/
theorem loop_retired {y : Sync} {par : ParentPc → Instr L ParentPc} {memory : Shared L}
    {start : ParentPc} {s : State (program L P y par memory start)} (h : AtLoop n n (s.child w)) :
    (program L P y par memory start).Retired s w := by
  refine Program.retired_of (fun s => AtLoop n n (s.child w)) h (fun s s' h hs => ?_)
    fun s h x => ?_
  · cases hs with
    | parent _ => exact h
    | child hv hb hs =>
      rename_i v h' pc
      have hu : AtLoop n n (Function.update s.child v pc w) := by
        by_cases hvw : w = v
        · subst hvw
          rw [Function.update_self]
          rcases h with h | ⟨_, h⟩
          · rw [h] at hs
            simp only [child, if_neg (Nat.lt_irrefl n)] at hs
            cases hs
            exact .inr ⟨Nat.le_refl n, rfl⟩
          · rw [h] at hs
            cases hs
        · rwa [Function.update_of_ne hvw]
      exact hu
  · have hi : (child L P w (s.child w)).posts x = false ∧
        (child L P w (s.child w)).waits x = false := by
      rcases h with h | ⟨_, h⟩
      · rw [h, child, if_neg (Nat.lt_irrefl n)]
        exact ⟨rfl, rfl⟩
      · rw [h]
        exact ⟨rfl, rfl⟩
    exact hi

section
variable {y : Sync} {par : ParentPc → Instr L ParentPc} {memory : Shared L} {start : ParentPc}

/-- The parent signals and waits in its loops only, and destroys when every worker has its last
round behind it. -/
def Handshakes (n P : Nat) (par : ParentPc → Instr L ParentPc) : Prop :=
  ∀ pc x, ((par pc).posts x = true → ∃ m k, pc = .signal m k ∧ k < P ∧ x = .p2c k) ∧
    ((par pc).waits x = true → ∃ m k, pc = .await m k ∧ x = .c2p k) ∧
    ((par pc).destroys x = true → ∀ w, stage n pc w = .idle n)

/-- Each step of the program counts for the worker that takes it. -/
theorem next_rounds (hn : 0 < n) (hand : Handshakes n P par)
    {s s' : State (program L P y par memory start)}
    (hs : (program L P y par memory start).next s c = some s') (w : Nat) :
    (s'.child w).begun n = (s.child w).begun n +
        (if (program L P y par memory start).waits (.p2c w) s c then 1 else 0) ∧
      (s'.child w).finished n = (s.child w).finished n +
        (if (program L P y par memory start).posts (.c2p w) s c then 1 else 0) := by
  have idle (hp : (program L P y par memory start).posts (.c2p w) s c = false)
      (hw : (program L P y par memory start).waits (.p2c w) s c = false)
      (hc : s'.child w = s.child w) :
      (s'.child w).begun n = (s.child w).begun n +
          (if (program L P y par memory start).waits (.p2c w) s c then 1 else 0) ∧
        (s'.child w).finished n = (s.child w).finished n +
          (if (program L P y par memory start).posts (.c2p w) s c then 1 else 0) := by
    rw [hp, hw, hc]
    exact ⟨rfl, rfl⟩
  cases c with
  | none =>
    obtain ⟨r, hr, rfl⟩ := Option.map_eq_some_iff.mp hs
    refine idle ?_ ?_ rfl
    · rw [Program.posts, Bool.eq_false_iff]
      intro hp
      obtain ⟨_, _, _, _, hx⟩ := (hand _ _).1 hp
      cases hx
    · rw [Program.waits, Bool.eq_false_iff]
      intro hw
      obtain ⟨_, _, _, hx⟩ := (hand _ _).2.1 hw
      cases hx
  | some v =>
    obtain ⟨_, r, hr, rfl⟩ := Program.next_some hs
    by_cases hvw : w = v
    · subst hvw
      have hc := child_rounds hn hr
      simp only [Function.update_self]
      exact hc
    · refine idle ?_ ?_ (Function.update_of_ne hvw ..)
      · rw [Program.posts, Bool.eq_false_iff]
        intro hp
        exact hvw (Sem.c2p.inj (child_posts hp))
      · rw [Program.waits, Bool.eq_false_iff]
        intro hw
        exact hvw (Sem.p2c.inj (child_waits hw))

theorem rounds_of_handshakes (hn : 0 < n) (hand : Handshakes n P par)
    (turns : List (Option Nat)) (w : Nat) :
    let M := program L P y par memory start
    M.count (M.waits (.p2c w)) M.initial turns ≤ n ∧
      ((M.play turns).child w = ChildPc.done → M.count (M.waits (.p2c w)) M.initial turns = n ∧
        M.count (M.posts (.c2p w)) M.initial turns = n) := by
  have hb := Program.count_balance
    (φ := fun s : State (program L P y par memory start) => (s.child w).begun n)
    (q := fun _ _ => false)
    (fun s c s' _ hs => (next_rounds hn hand hs w).1) turns
  have hf := Program.count_balance
    (φ := fun s : State (program L P y par memory start) => (s.child w).finished n)
    (q := fun _ _ => false)
    (fun s c s' _ hs => (next_rounds hn hand hs w).2) turns
  rw [Program.count_none, Nat.add_zero] at hb hf
  have hb0 : (ChildPc.loop 0).begun n = 0 := Nat.zero_min n
  have hf0 : (ChildPc.loop 0).finished n = 0 := Nat.zero_min n
  have hle := ChildPc.begun_le n (((program L P y par memory start).play turns).child w)
  simp only [Program.initial, hb0, hf0, Nat.zero_add] at hb hf
  rw [hb] at hle
  refine ⟨hle, fun hd => ?_⟩
  rw [hd] at hb hf
  exact ⟨hb.symm, hf.symm⟩

theorem orderly (hn : 0 < n)
    (hinv : ∀ s, (program L P y par memory start).system.Reachable s →
      Inv A L P s.shared s.parent s.child)
    (hruns : ∀ s, (program L P y par memory start).system.Reachable s →
      Runs L P par s.shared s.parent s.child ∨
        s.parent = ParentPc.done ∧ ∀ w, w < P → s.child w = ChildPc.done)
    (hand : Handshakes n P par) :
    Orderly n P (program L P y par memory start) State.parent State.child where
  runs s hr := by
    exact (hruns s hr).imp step_iff_runs.mpr id
  signals turns x := by
    refine Program.count_posts (fun s c s' x hr hs hp => ?_) x turns
    have inv := hinv s hr
    cases c with
    | none =>
      obtain ⟨m, k, hpc, hk, rfl⟩ := (hand _ _).1 hp
      rw [hpc] at inv
      exact inv.signal_free hk
    | some w =>
      obtain ⟨⟨hw, hb⟩, _⟩ := Program.next_some hs
      exact (inv.worker w hw).post_free hb hp
  rounds turns w _ := rounds_of_handshakes hn hand turns w
  ends turns hstuck := by
    rcases hruns _ (Program.play_reachable _ turns) with hr | ⟨hp, hc⟩
    · obtain ⟨s', hs⟩ := step_iff_runs.mpr hr
      exact absurd hs (hstuck s')
    · exact ⟨hp, fun w hw => ⟨hc w hw, (rounds_of_handshakes hn hand turns w).2 (hc w hw)⟩⟩
  lockstep s hr w k hw hk := inRound_of_busy ((hinv s hr).worker w hw |>.lockstep hk)
  teardown s hr x hx w hw := by
    have ok := (hinv s hr).worker w hw
    rw [(hand _ _).2.2 hx w] at ok
    exact loop_retired ok.2.1

end

theorem procParent_rounds (hl : Looping pc) :
    procParent L P A pc = Partition.rounds L P (.destroyP2c 0) pc := by
  cases pc <;> first | rfl | exact hl.elim

theorem thrParent_rounds (hl : Looping pc) :
    thrParent L P pc = Partition.rounds L P (.join 0) pc := by
  cases pc <;> first | rfl | exact hl.elim

/-- Where the main process goes from each of its program points. -/
inductive ProcGoes : ParentPc → ParentPc → Prop
  | load : ProcGoes (.load y z) (.load y' z')
  | loaded : ProcGoes (.load y z) (.fork 0)
  | rounds (hl : Looping pc) (ht : Looping pc') : ProcGoes pc pc'
  | teardown (hl : Looping pc) : ProcGoes pc (.destroyP2c 0)
  | p2c : ProcGoes (.destroyP2c k) (.destroyC2p k)
  | c2p : ProcGoes (.destroyC2p k) (.destroyP2c (k + 1))
  | destroyed : ProcGoes (.destroyP2c k) (.print 0 0)
  | print : ProcGoes (.print y z) (.print y' z')
  | printed : ProcGoes (.print y z) .done

/-- Where the main thread goes. -/
inductive ThrGoes : ParentPc → ParentPc → Prop
  | rounds (hl : Looping pc) (ht : Looping pc') : ThrGoes pc pc'
  | teardown (hl : Looping pc) : ThrGoes pc (.join 0)
  | join : ThrGoes (.join k) (.destroyP2c k)
  | p2c : ThrGoes (.destroyP2c k) (.destroyC2p k)
  | c2p : ThrGoes (.destroyC2p k) (.join (k + 1))
  | destroyed : ThrGoes (.join k) (.print 0 0)
  | print : ThrGoes (.print y z) (.print y' z')
  | printed : ThrGoes (.print y z) .done

theorem procParent_goes (hl : (procParent L P A pc).Leads pc') : ProcGoes pc pc' := by
  cases pc with
  | load y z =>
    rw [procParent] at hl
    split at hl
    · split at hl <;> (cases hl; exact .load)
    · cases hl
      exact .loaded
  | destroyP2c k =>
    rw [procParent] at hl
    split at hl
    · cases hl
      exact .p2c
    · cases hl
      exact .destroyed
  | destroyC2p k =>
    cases hl
    exact .c2p
  | print y z =>
    rcases printLoop_leads .printCurr (fun _ _ _ h => h) hl with ⟨y', z', rfl⟩ | rfl
    · exact .print
    · exact .printed
  | join k | done => exact hl.elim
  | fork k | round m | signal m k | await m k | copy m y z | store m y z v =>
    rw [procParent_rounds] at hl
    · rcases rounds_target _ hl with rfl | ht
      · exact .teardown trivial
      · exact .rounds trivial ht
    · trivial

theorem thrParent_goes (hl : (thrParent L P pc).Leads pc') : ThrGoes pc pc' := by
  cases pc with
  | join k =>
    rw [thrParent] at hl
    split at hl
    · cases hl
      exact .join
    · cases hl
      exact .destroyed
  | destroyP2c k =>
    cases hl
    exact .p2c
  | destroyC2p k =>
    cases hl
    exact .c2p
  | print y z =>
    rcases printLoop_leads .printPrev (fun _ _ _ h => h) hl with ⟨y', z', rfl⟩ | rfl
    · exact .print
    · exact .printed
  | load y z | done => exact hl.elim
  | fork k | round m | signal m k | await m k | copy m y z | store m y z v =>
    rw [thrParent_rounds] at hl
    · rcases rounds_target _ hl with rfl | ht
      · exact .teardown trivial
      · exact .rounds trivial ht
    · trivial

theorem ProcGoes.ne_join (hg : ProcGoes pc pc') (k : Nat) : pc' ≠ .join k := by
  rintro rfl
  cases hg with
  | rounds _ ht => exact ht

theorem ThrGoes.ne_load (hg : ThrGoes pc pc') (i j : Nat) : pc' ≠ .load i j := by
  rintro rfl
  cases hg with
  | rounds _ ht => exact ht

/-- The only instruction that leads to the end exits. -/
theorem child_done {h h' : Shared L} (hs : (child L P w pc).run y h = some (h', .done)) :
    h'.exited w = true := by
  cases child_goes hs with
  | leave => exact Function.update_self ..

theorem wtcProc_runs (hn : 0 < n) (hP : 0 < P) {s : State (wtcProc n P A)}
    (h : (wtcProc n P A).system.Reachable s) :
    Runs (Layout.flat n) P (procParent (Layout.flat n) P A) s.shared s.parent s.child ∨
      s.parent = ParentPc.done ∧ ∀ w, w < P → s.child w = ChildPc.done := by
  have inv := wtcProc_inv hn hP h
  have hjoin : ∀ k, s.parent ≠ ParentPc.join k := by
    apply h.invariant (I := fun s => ∀ k, s.parent ≠ ParentPc.join k)
    · rintro s rfl k hk
      cases hk
    · intro s s' ih hs
      cases hs with
      | parent hs => exact (procParent_goes (Instr.leads hs)).ne_join
      | child _ _ _ => exact ih
  generalize s.parent = pc at inv hjoin
  cases pc with
  | load y z =>
    refine .inl (.inl ?_)
    rw [procParent]
    split
    · split <;> rfl
    · rfl
  | fork k | round m | signal m k | await m k | copy m y z | store m y z v =>
    have hr := inv.rounds_runs (.destroyP2c 0) trivial
    rw [Runs, ← procParent_rounds (A := A)] at hr
    · exact .inl hr
    · trivial
  | join k => exact absurd rfl (hjoin k)
  | destroyP2c k =>
    refine .inl (.inl ?_)
    rw [procParent]
    split <;> rfl
  | destroyC2p k => exact .inl (.inl rfl)
  | print y z =>
    exact .inl (.inl (printLoop_cases (·.blocked s.shared = false) (fun _ _ => rfl) fun _ => rfl))
  | done => exact (inv.idle_runs _ fun _ => rfl).imp id fun hd => ⟨rfl, hd⟩

theorem wtcThr_runs (hn : 0 < n) (hP : 0 < P) {s : State (wtcThr n P A)}
    (h : (wtcThr n P A).system.Reachable s) :
    Runs (Layout.rows n) P (thrParent (Layout.rows n) P) s.shared s.parent s.child ∨
      s.parent = ParentPc.done ∧ ∀ w, w < P → s.child w = ChildPc.done := by
  have inv := wtcThr_inv hn hP h
  have hexit : ∀ w, s.child w = ChildPc.done → s.shared.exited w = true := fun w =>
    Program.exited_of_done (d := ChildPc.done) (fun he => by cases he)
      (fun _ _ _ _ hs => child_done hs) h
  have hload : ∀ i j, s.parent ≠ ParentPc.load i j := by
    apply h.invariant (I := fun s => ∀ i j, s.parent ≠ ParentPc.load i j)
    · rintro s rfl i j hl
      cases hl
    · intro s s' ih hs
      cases hs with
      | parent hs => exact (thrParent_goes (Instr.leads hs)).ne_load
      | child _ _ _ => exact ih
  generalize s.parent = pc at inv hload
  cases pc with
  | load y z => exact absurd rfl (hload y z)
  | fork k | round m | signal m k | await m k | copy m y z | store m y z v =>
    have hr := inv.rounds_runs (.join 0) trivial
    rw [Runs, ← thrParent_rounds] at hr
    · exact .inl hr
    · trivial
  | join k =>
    by_cases hk : k < P
    · rcases inv.idle_runs (thrParent (Layout.rows n) P) (fun _ => rfl) with hr | hd
      · exact .inl hr
      · refine .inl (.inl ?_)
        rw [thrParent, if_pos hk, Instr.blocked, hexit k (hd k hk)]
        rfl
    · refine .inl (.inl ?_)
      rw [thrParent, if_neg hk]
      rfl
  | destroyP2c k | destroyC2p k => exact .inl (.inl rfl)
  | print y z =>
    exact .inl (.inl (printLoop_cases (·.blocked s.shared = false) (fun _ _ => rfl) fun _ => rfl))
  | done => exact (inv.idle_runs _ fun _ => rfl).imp id fun hd => ⟨rfl, hd⟩

theorem rounds_handshakes (td : ParentPc) : Handshakes n P (Partition.rounds L P td) := by
  intro pc x
  cases pc with
  | signal m k =>
    rw [Partition.rounds]
    split
    · exact ⟨fun hp => ⟨m, k, rfl, ‹_›, (of_decide_eq_true hp).symm⟩, (by simp [Instr.waits]),
        (by simp [Instr.destroys])⟩
    · simp [Instr.posts, Instr.waits, Instr.destroys]
  | await m k =>
    rw [Partition.rounds]
    split
    · exact ⟨(by simp [Instr.posts]), fun hw => ⟨m, k, rfl, (of_decide_eq_true hw).symm⟩,
        (by simp [Instr.destroys])⟩
    · simp [Instr.posts, Instr.waits, Instr.destroys]
  | fork k | round m | copy m y z =>
    rw [Partition.rounds]
    repeat' split
    all_goals simp [Instr.posts, Instr.waits, Instr.destroys]
  | _ => simp [Partition.rounds, Instr.posts, Instr.waits, Instr.destroys]

theorem procParent_handshakes : Handshakes n P (procParent L P A) := by
  intro pc x
  cases pc with
  | fork k | round m | signal m k | await m k | copy m y z | store m y z v =>
    rw [procParent_rounds]
    · exact rounds_handshakes _ _ x
    · trivial
  | load y z =>
    rw [Partition.procParent]
    repeat' split
    all_goals simp [Instr.posts, Instr.waits, Instr.destroys]
  | print y z =>
    rw [Partition.procParent, printArrayMatrix, printLoop]
    repeat' split
    all_goals simp [Instr.posts, Instr.waits, Instr.destroys]
  | destroyP2c k =>
    rw [Partition.procParent]
    split <;> simp [Instr.posts, Instr.waits, stage]
  | destroyC2p k => simp [Partition.procParent, Instr.posts, Instr.waits, stage]
  | join k | done => exact ⟨(by simp [Partition.procParent, Partition.rounds, Instr.posts]),
      (by simp [Partition.procParent, Partition.rounds, Instr.waits]), fun _ _ => rfl⟩

theorem thrParent_handshakes : Handshakes n P (thrParent L P) := by
  intro pc x
  cases pc with
  | fork k | round m | signal m k | await m k | copy m y z | store m y z v =>
    rw [thrParent_rounds]
    · exact rounds_handshakes _ _ x
    · trivial
  | print y z =>
    rw [Partition.thrParent, printMatrix, printLoop]
    repeat' split
    all_goals simp [Instr.posts, Instr.waits, Instr.destroys]
  | join k =>
    rw [Partition.thrParent]
    split <;> simp [Instr.posts, Instr.waits, stage]
  | destroyP2c k | destroyC2p k => simp [Partition.thrParent, Instr.posts, Instr.waits, stage]
  | load y z => simp [Partition.thrParent, Partition.rounds, Instr.posts, Instr.waits,
      Instr.destroys]
  | done => exact ⟨(by simp [Partition.thrParent, Partition.rounds, Instr.posts]),
      (by simp [Partition.thrParent, Partition.rounds, Instr.waits]), fun _ _ => rfl⟩

end

/-- Neither program deadlocks, loses or doubles a signal or tears down early. -/
theorem partition_orderly (n P : Nat) (hn : 1 ≤ n) (hP : 1 ≤ P) (A : Adjacency n) :
    Orderly n P (wtcProc n P A) State.parent State.child ∧
      Orderly n P (wtcThr n P A) State.parent State.child :=
  ⟨orderly hn (fun _ => wtcProc_inv hn hP) (fun _ => wtcProc_runs hn hP) procParent_handshakes,
    orderly hn (fun _ => wtcThr_inv hn hP) (fun _ => wtcThr_runs hn hP) thrParent_handshakes⟩

/-- With more workers than rows, the last of which take their turns first. -/
def threeTurns (k : Nat) : List (Option Nat) :=
  (List.replicate k [none, some 2, some 1, some 0]).flatten

/-- In one run a worker is inside the parent's second round, in another it has still to exit when
the parent destroys the first semaphore, and both programs end after two rounds of each worker. -/
theorem partition_orderly_of_cycle :
    let M := wtcProc 2 3 (.cycle 2)
    let T := wtcThr 2 3 (.cycle 2)
    ((M.play (threeTurns 46)).child 1 = ChildPc.set 1 1 1 ∧
      (M.play (threeTurns 46)).parent.inRound = some 1) ∧
    ((M.play (threeTurns 49 ++ List.replicate 15 none)).parent = ParentPc.destroyP2c 0 ∧
      (M.play (threeTurns 49 ++ List.replicate 15 none)).child 1 = ChildPc.loop 2 ∧
      M.Retired (M.play (threeTurns 49 ++ List.replicate 15 none)) 1) ∧
    ((M.play (threeTurns 80)).parent = ParentPc.done ∧
      ∀ w, w < 3 → (M.play (threeTurns 80)).child w = ChildPc.done ∧
        M.count (M.waits (.p2c w)) M.initial (threeTurns 80) = 2 ∧
        M.count (M.posts (.c2p w)) M.initial (threeTurns 80) = 2) ∧
    ((T.play (threeTurns 80)).parent = ParentPc.done ∧
      ∀ w, w < 3 → (T.play (threeTurns 80)).child w = ChildPc.done ∧
        T.count (T.waits (.p2c w)) T.initial (threeTurns 80) = 2 ∧
        T.count (T.posts (.c2p w)) T.initial (threeTurns 80) = 2) := by
  dsimp only
  have h := partition_orderly 2 3 (by decide) (by decide) (.cycle 2)
  have hin : ((wtcProc 2 3 (.cycle 2)).play (threeTurns 46)).child 1 = ChildPc.set 1 1 1 := by
    decide +kernel
  have htear : ((wtcProc 2 3 (.cycle 2)).play
      (threeTurns 49 ++ List.replicate 15 none)).parent = ParentPc.destroyP2c 0 := by
    decide +kernel
  refine ⟨⟨hin, ?_⟩, ⟨htear, by decide +kernel, ?_⟩, ?_, ?_⟩
  · exact h.1.lockstep _ (Program.play_reachable _ _) 1 1 (by decide) (congrArg _ hin)
  · refine h.1.teardown _ (Program.play_reachable _ _) (.p2c 0) ?_ 1 (by decide)
    rw [htear]
    rfl
  · refine h.1.ends (threeTurns 80) fun s' hs => ?_
    have hr := step_iff_runs.mp ⟨s', hs⟩
    revert hr
    decide +kernel
  · refine h.2.ends (threeTurns 80) fun s' hs => ?_
    have hr := step_iff_runs.mp ⟨s', hs⟩
    revert hr
    decide +kernel

end NoblesseOblige.Wtc.Partition
