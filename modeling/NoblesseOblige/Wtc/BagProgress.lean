import NoblesseOblige.Wtc.BagClosure
import NoblesseOblige.Wtc.Progress

namespace NoblesseOblige.Wtc.Bag
set_option autoImplicit true

/-- The program points of each body. -/
def InBody (first : Bool) : ChildPc → Prop
  | .head _ _ => first = true
  | .own _ _ => first = false
  | _ => True

/-- Someone can take a step. -/
def Runs (first : Bool) (L : Layout n) (P : Nat) (par : ParentPc → Instr L ParentPc)
    (h : Shared L) (pc : ParentPc) (cs : Nat → ChildPc) : Prop :=
  (par pc).blocked h = false ∨
    ∃ w, w < P ∧ h.born w = true ∧ (body first L w (cs w)).blocked h = false

/-- Where the lock of the queue is, if nobody can take it. -/
def Keyed (P : Nat) (holds : ParentPc → Prop) (h : Shared L) (pc : ParentPc)
    (cs : Nat → ChildPc) : Prop :=
  h.sem .queue = 0 → holds pc ∨ ∃ w, w < P ∧ Crit (cs w)

section
variable {n : Nat} {A : Adjacency n} {L : Layout n} {first : Bool} {P w : Nat}
variable {holds : ParentPc → Prop}

/-- A body stays in its own program points. -/
theorem Goes.inBody {h h' : Shared L} (hg : Goes first L w y h pc h' pc') : InBody first pc' := by
  cases hg with
  | noEntry hf | keep hf | zero hf => exact hf
  | _ => trivial

theorem body_done (first : Bool) {h h' : Shared L}
    (hs : (body first L w pc).run y h = some (h', .done)) :
    h'.exited w = true := by
  cases body_goes hs with
  | leave => exact Function.update_self ..

/-- A worker inside a round can step unless it waits for the lock of the queue. -/
theorem Working.enabled {h : Shared L} (hw : Working A L first h' pc) (hb : InBody first pc)
    (hl : pc = .lock → h.sem .queue ≠ 0) : (body first L w pc).blocked h = false := by
  cases pc with
  | outer | recheck | wait | leave | done => exact hw.elim
  | lock =>
    have he : (taking L w .lock).blocked h = false := decide_eq_false (hl rfl)
    cases first <;> exact he
  | head r j =>
    obtain rfl : first = true := hb
    rfl
  | own r j =>
    obtain rfl : first = false := hb
    rfl
  | cell r j =>
    cases first with
    | true =>
      rw [body, thread]
      split <;> rfl
    | false =>
      rw [body, childProcess]
      split <;> rfl
  | _ => cases first <;> rfl

/-- A worker between two rounds can step if its signal is there or it does not wait for one. -/
theorem Outside.enabled {h : Shared L} (ho : Outside n h' pc) (hp : pc = .wait → h.sem (.p2c w) ≠ 0)
    (hd : pc ≠ .done) : (body first L w pc).blocked h = false := by
  cases pc with
  | wait =>
    have he : (taking L w .wait).blocked h = false := decide_eq_false (hp rfl)
    cases first <;> exact he
  | outer | recheck | leave => cases first <;> rfl
  | done => exact absurd rfl hd
  | _ => exact ho.elim

theorem Draining.enabled {h : Shared L} (hd : Draining pc) (hp : pc = .wait → h.sem (.p2c w) ≠ 0)
    (hne : pc ≠ .done) : (body first L w pc).blocked h = false := by
  cases pc with
  | wait =>
    have he : (taking L w .wait).blocked h = false := decide_eq_false (hp rfl)
    cases first <;> exact he
  | outer | recheck | inner | post | leave => cases first <;> rfl
  | done => exact absurd rfl hne
  | _ => exact hd.elim

theorem crit_enabled {h : Shared L} (hc : Crit pc) : (body first L w pc).blocked h = false := by
  cases pc with
  | dequeue | bump r | bumped r q | unlock r => cases first <;> rfl
  | _ => exact hc.elim

theorem Keyed.child {h h' : Shared L} (hk : Keyed P holds h pc cs) (hw : w < P)
    (hm : LockMove y h h' (cs w) c) : Keyed P holds h' pc (Function.update cs w c) := by
  intro hq
  have other (hc : Crit c ↔ Crit (cs w)) (h0 : h.sem .queue = 0) :
      holds pc ∨ ∃ v, v < P ∧ Crit (Function.update cs w c v) := by
    rcases hk h0 with hh | ⟨v, hv, hcv⟩
    · exact .inl hh
    · refine .inr ⟨v, hv, ?_⟩
      by_cases hvw : v = w
      · subst hvw
        rw [Function.update_self]
        exact hc.mpr hcv
      · rwa [Function.update_of_ne hvw]
  rcases hm with ⟨he, hc⟩ | ⟨_, _, _, hc⟩ | ⟨he, _, _⟩
  · exact other hc (he.symm.trans hq)
  · exact .inr ⟨w, hw, by rwa [Function.update_self]⟩
  · rw [he] at hq
    cases y <;> cases hq

theorem Keyed.parent {h h' : Shared L} {i : Instr L ParentPc} (hk : Keyed P holds h pc cs)
    (hs : i.run y h = some (h', pc')) (hp : i.posts .queue = false)
    (hw : i.waits .queue = false) (hh : holds pc → holds pc') : Keyed P holds h' pc' cs := by
  intro hq
  cases Instr.touch hs .queue with
  | post hp' _ _ => exact absurd (hp.symm.trans hp') (by simp)
  | wait _ hw' _ => exact absurd (hw.symm.trans hw') (by simp)
  | keep _ _ hv => exact (hk (hv.symm.trans hq)).imp hh id

/-- While the parent waits for a worker, that worker or whoever is in its way can step. -/
theorem Inv.await_runs {h : Shared L} (inv : Inv A L first P holds h (.await k) cs) (hk : k < P)
    (hc : h.sem (.c2p k) = 0) (hkey : Keyed P holds h (.await k) cs)
    (hh : ¬ holds (.await k)) (hbody : ∀ w, InBody first (cs w)) :
    ∃ w, w < P ∧ h.born w = true ∧ (body first L w (cs w)).blocked h = false := by
  have ok := inv.worker k hk
  simp only [stage, Nat.lt_irrefl, ↓reduceIte] at ok
  rcases ok.2 with ⟨ho, ht⟩ | ⟨hw, _⟩ | ⟨_, ht, _⟩
  · refine ⟨k, hk, ok.1, ho.enabled (fun _ => by simp [ht.1]) fun hd => ?_⟩
    rw [hd] at ho
    exact absurd inv.parent.1 (Nat.not_lt.mpr ho)
  · by_cases hl : cs k = .lock → h.sem .queue ≠ 0
    · exact ⟨k, hk, ok.1, hw.enabled (hbody k) hl⟩
    · simp only [Classical.not_imp, not_not] at hl
      rcases hkey hl.2 with hp | ⟨w, hw', hcw⟩
      · exact absurd hp hh
      · have okw := inv.worker w hw'
        rw [okw.crit hcw] at okw
        exact ⟨w, hw', okw.1, crit_enabled hcw⟩
  · exact absurd (hc.symm.trans ht.2) Nat.zero_ne_one

/-- The program points between the creation of the workers and the end of the rounds. -/
def Looping : ParentPc → Prop
  | .fork _ | .test | .signal _ | .await _ | .copy _ _ | .store _ _ _ | .step | .stepped _ => True
  | _ => False

theorem Inv.rounds_runs {h : Shared L} (inv : Inv A L first P holds h pc cs)
    (en ro td : ParentPc) (hpc : Looping pc) (hkey : Keyed P holds h pc cs)
    (hh : ∀ k, ¬ holds (.await k)) (hbody : ∀ w, InBody first (cs w)) :
    Runs first L P (Bag.rounds L P en ro td) h pc cs := by
  cases pc with
  | await k =>
    by_cases hk : k < P
    · by_cases hc : h.sem (.c2p k) = 0
      · exact .inr (inv.await_runs hk hc hkey (hh k) hbody)
      · refine .inl ?_
        rw [Bag.rounds, if_pos hk, Instr.blocked, decide_eq_false hc]
    · refine .inl ?_
      rw [Bag.rounds, if_neg hk]
      rfl
  | fork k | signal k =>
    refine .inl ?_
    rw [Bag.rounds]
    split <;> rfl
  | copy i j =>
    refine .inl ?_
    rw [Bag.rounds]
    split
    · split <;> rfl
    · rfl
  | test | store i j v | step | stepped k => exact .inl rfl
  | _ => exact hpc.elim

/-- What the rounds lead to. -/
theorem rounds_leads (en ro td : ParentPc)
    (hl : (Bag.rounds L P en ro td pc).Leads pc') :
    pc' = en ∨ pc' = ro ∨ pc' = td ∨ Looping pc' := by
  cases pc with
  | fork k =>
    rw [Bag.rounds] at hl
    split at hl
    · cases hl
      simp [Looping]
    · cases hl
      exact .inl rfl
  | test =>
    obtain ⟨v, rfl⟩ := hl
    dsimp only
    split
    · exact .inr (.inl rfl)
    · exact .inr (.inr (.inl rfl))
  | signal k | await k =>
    rw [Bag.rounds] at hl
    split at hl <;> (cases hl; simp [Looping])
  | copy i j =>
    rw [Bag.rounds] at hl
    split at hl
    · split at hl
      · obtain ⟨v, rfl⟩ := hl
        simp [Looping]
      · cases hl
        simp [Looping]
    · cases hl
      simp [Looping]
  | step =>
    obtain ⟨v, rfl⟩ := hl
    simp [Looping]
  | store i j v | stepped k =>
    cases hl
    simp [Looping]
  | _ => exact hl.elim

theorem rounds_queue (en ro td pc : ParentPc) :
    (Bag.rounds L P en ro td pc).posts .queue = false ∧
      (Bag.rounds L P en ro td pc).waits .queue = false := by
  cases pc with
  | fork k | signal k | await k =>
    rw [Bag.rounds]
    split <;> simp [Instr.posts, Instr.waits]
  | copy i j =>
    rw [Bag.rounds]
    split
    · split <;> exact ⟨rfl, rfl⟩
    · exact ⟨rfl, rfl⟩
  | _ => exact ⟨rfl, rfl⟩

theorem procParent_rounds (hl : Looping pc) :
    procParent L P A pc = Bag.rounds L P .test .reset (.destroyP2c 0) pc := by
  cases pc <;> first | rfl | exact hl.elim

theorem thrParent_rounds (hl : Looping pc) :
    thrParent L P pc = Bag.rounds L P .start .lockQueue (.release 0) pc := by
  cases pc <;> first | rfl | exact hl.elim

/-- The program points of the main process. -/
def procPath : ParentPc → Prop
  | .start | .lockQueue | .unlockQueue | .release _ | .join _ => False
  | _ => True

/-- The program points of the main thread. -/
def thrPath (P : Nat) : ParentPc → Prop
  | .load _ _ => False
  | .destroyC2p k | .join k => k < P
  | _ => True

theorem Looping.procPath (hl : Looping pc) : procPath pc := by
  cases pc <;> trivial

theorem Looping.thrPath (hl : Looping pc) : thrPath P pc := by
  cases pc <;> trivial

/-- Where the main process goes from each of its program points. -/
inductive ProcGoes : ParentPc → ParentPc → Prop
  | load : ProcGoes (.load i j) (.load i' j')
  | loaded : ProcGoes (.load i j) (.fork 0)
  | rounds (hl : Looping pc) (ht : Looping pc') : ProcGoes pc pc'
  | enter (hl : Looping pc) : ProcGoes pc .reset
  | reset : ProcGoes .reset (.signal 0)
  | teardown (hl : Looping pc) : ProcGoes pc (.destroyP2c 0)
  | p2c : ProcGoes (.destroyP2c k) (.destroyC2p k)
  | c2p : ProcGoes (.destroyC2p k) (.destroyP2c (k + 1))
  | destroyed : ProcGoes (.destroyP2c k) (.print 0 0)
  | print : ProcGoes (.print i j) (.print i' j')
  | printed : ProcGoes (.print i j) .done

/-- Where the main thread goes. -/
inductive ThrGoes (P : Nat) : ParentPc → ParentPc → Prop
  | rounds (hl : Looping pc) (ht : Looping pc') : ThrGoes P pc pc'
  | forked (hl : Looping pc) : ThrGoes P pc .start
  | start : ThrGoes P .start .test
  | enter (hl : Looping pc) : ThrGoes P pc .lockQueue
  | lockQueue : ThrGoes P .lockQueue .reset
  | reset : ThrGoes P .reset .unlockQueue
  | unlockQueue : ThrGoes P .unlockQueue (.signal 0)
  | teardown (hl : Looping pc) : ThrGoes P pc (.release 0)
  | release : ThrGoes P (.release k) (.release (k + 1))
  | released : ThrGoes P (.release k) (.destroyP2c 0)
  | p2c (hk : k < P) : ThrGoes P (.destroyP2c k) (.destroyC2p k)
  | c2p : ThrGoes P (.destroyC2p k) (.join k)
  | join : ThrGoes P (.join k) (.destroyP2c (k + 1))
  | destroyed : ThrGoes P (.destroyP2c k) (.print 0 0)
  | print : ThrGoes P (.print i j) (.print i' j')
  | printed : ThrGoes P (.print i j) .done

theorem procParent_goes (hl : (procParent L P A pc).Leads pc') : ProcGoes pc pc' := by
  cases pc with
  | load i j =>
    rw [procParent] at hl
    split at hl
    · split at hl <;> (cases hl; exact .load)
    · cases hl
      exact .loaded
  | reset =>
    cases hl
    exact .reset
  | destroyP2c k =>
    rw [procParent] at hl
    split at hl
    · cases hl
      exact .p2c
    · cases hl
      exact .destroyed
  | destroyC2p k =>
    cases hl
    exact .c2p
  | print i j =>
    rcases printLoop_leads .printCurr (fun _ _ _ h => h) hl with ⟨i', j', rfl⟩ | rfl
    · exact .print
    · exact .printed
  | start | lockQueue | unlockQueue | release k | join k | done => exact hl.elim
  | _ =>
    rw [procParent_rounds] at hl
    · rcases rounds_leads _ _ _ hl with rfl | rfl | rfl | ht
      · exact .rounds trivial trivial
      · exact .enter trivial
      · exact .teardown trivial
      · exact .rounds trivial ht
    · trivial

theorem thrParent_goes (hl : (thrParent L P pc).Leads pc') : ThrGoes P pc pc' := by
  cases pc with
  | start =>
    cases hl
    exact .start
  | lockQueue =>
    cases hl
    exact .lockQueue
  | reset =>
    cases hl
    exact .reset
  | unlockQueue =>
    cases hl
    exact .unlockQueue
  | release k =>
    rw [thrParent] at hl
    split at hl
    · cases hl
      exact .release
    · cases hl
      exact .released
  | destroyP2c k =>
    rw [thrParent] at hl
    split at hl
    · cases hl
      exact .p2c ‹_›
    · cases hl
      exact .destroyed
  | destroyC2p k =>
    cases hl
    exact .c2p
  | join k =>
    cases hl
    exact .join
  | print i j =>
    rcases printLoop_leads .printPrev (fun _ _ _ h => h) hl with ⟨i', j', rfl⟩ | rfl
    · exact .print
    · exact .printed
  | load i j | done => exact hl.elim
  | _ =>
    rw [thrParent_rounds] at hl
    · rcases rounds_leads _ _ _ hl with rfl | rfl | rfl | ht
      · exact .forked trivial
      · exact .enter trivial
      · exact .teardown trivial
      · exact .rounds trivial ht
    · trivial

theorem ProcGoes.path (hg : ProcGoes pc pc') : procPath pc' := by
  cases hg with
  | rounds _ ht => exact ht.procPath
  | _ => trivial

theorem ThrGoes.path (hg : ThrGoes P pc pc') (hp : thrPath P pc) : thrPath P pc' := by
  cases hg with
  | rounds _ ht => exact ht.thrPath
  | p2c hk => exact hk
  | c2p => exact hp
  | _ => trivial

theorem procParent_queue (pc : ParentPc) :
    (procParent L P A pc).posts .queue = false ∧ (procParent L P A pc).waits .queue = false := by
  cases pc with
  | load i j =>
    rw [procParent]
    split
    · split <;> exact ⟨rfl, rfl⟩
    · exact ⟨rfl, rfl⟩
  | print i j =>
    exact printLoop_cases (fun i => i.posts .queue = false ∧ i.waits .queue = false)
      (fun _ _ => ⟨rfl, rfl⟩) fun _ => ⟨rfl, rfl⟩
  | destroyP2c k =>
    rw [procParent]
    split <;> exact ⟨rfl, rfl⟩
  | fork k | test | signal k | await k | copy i j | store i j v | step | stepped k =>
    rw [procParent_rounds]
    · exact rounds_queue _ _ _ _
    · trivial
  | _ => exact ⟨rfl, rfl⟩

theorem thrParent_queue (hl : pc ≠ .lockQueue) (hu : pc ≠ .unlockQueue) :
    (thrParent L P pc).posts .queue = false ∧ (thrParent L P pc).waits .queue = false := by
  cases pc with
  | print i j =>
    exact printLoop_cases (fun i => i.posts .queue = false ∧ i.waits .queue = false)
      (fun _ _ => ⟨rfl, rfl⟩) fun _ => ⟨rfl, rfl⟩
  | release k | destroyP2c k =>
    rw [thrParent]
    split <;> simp [Instr.posts, Instr.waits]
  | lockQueue => exact absurd rfl hl
  | unlockQueue => exact absurd rfl hu
  | fork k | test | signal k | await k | copy i j | store i j v | step | stepped k =>
    rw [thrParent_rounds]
    · exact rounds_queue _ _ _ _
    · trivial
  | _ => exact ⟨rfl, rfl⟩

/-- What else holds along every run: the parties stay in their own programs, and the lock of the
queue is in someone's hands when it cannot be taken. -/
structure Sound (first : Bool) (P : Nat) (holds path : ParentPc → Prop) (h : Shared L)
    (pc : ParentPc) (cs : Nat → ChildPc) : Prop where
  path : path pc
  inBody : ∀ w, InBody first (cs w)
  keyed : Keyed P holds h pc cs

theorem Sound.child {path : ParentPc → Prop} {h h' : Shared L}
    (sound : Sound first P holds path h pc cs) (inv : Inv A L first P holds h pc cs) (hw : w < P)
    (hb : h.born w = true) (hs : (body first L w (cs w)).run y h = some (h', c)) :
    Sound first P holds path h' pc (Function.update cs w c) := by
  have he := (child_step (inv.worker w hw) inv.parent.busy inv.parent.draining hb hs).2
  refine ⟨sound.path, fun v => ?_, sound.keyed.child hw he.lock⟩
  by_cases hvw : v = w
  · subst hvw
    rw [Function.update_self]
    exact (body_goes hs).inBody
  · rw [Function.update_of_ne hvw]
    exact sound.inBody v

end

theorem wtcBtproc_sound (hn : 0 < n) (hP : 0 < P) {s : State (wtcBtproc n P A)}
    (h : (wtcBtproc n P A).system.Reachable s) :
    Sound false P procHolds procPath s.shared s.parent s.child := by
  apply h.invariant_of_reachable
    (I := fun s => Sound false P procHolds procPath s.shared s.parent s.child)
  · rintro s rfl
    exact ⟨trivial, fun _ => trivial, fun hq => absurd hq Nat.one_ne_zero⟩
  · intro s s' hr sound hs
    cases hs with
    | parent hs =>
      obtain ⟨hp, hw⟩ := procParent_queue (L := Layout.flat n) (P := P) (A := A) s.parent
      exact ⟨(procParent_goes (Instr.leads hs)).path, sound.inBody, sound.keyed.parent hs hp hw id⟩
    | child hw hb hs => exact sound.child (wtcBtproc_inv hn hP hr) hw hb hs

theorem wtcBtthr_sound (hn : 0 < n) (hP : 0 < P) {s : State (wtcBtthr n P A)}
    (h : (wtcBtthr n P A).system.Reachable s) :
    Sound true P thrHolds (thrPath P) s.shared s.parent s.child := by
  apply h.invariant_of_reachable
    (I := fun s => Sound true P thrHolds (thrPath P) s.shared s.parent s.child)
  · rintro s rfl
    exact ⟨trivial, fun _ => trivial, fun hq => absurd hq Nat.one_ne_zero⟩
  · intro s s' hr sound hs
    cases hs with
    | parent hs =>
      rename_i h' pc'
      refine ⟨(thrParent_goes (Instr.leads hs)).path sound.path, sound.inBody, ?_⟩
      by_cases hl : s.parent = ParentPc.lockQueue
      · have hl' := Instr.leads hs
        rw [hl] at hl'
        obtain rfl : pc' = ParentPc.reset := hl'
        exact fun _ => .inl (.inl rfl)
      · by_cases hu : s.parent = ParentPc.unlockQueue
        · rw [hu] at hs
          cases hs
          intro hq
          exact absurd ((s.shared.setSem_self _ _).symm.trans hq) Nat.one_ne_zero
        · obtain ⟨hp, hw⟩ := thrParent_queue (L := Layout.rows n) (P := P) hl hu
          refine sound.keyed.parent hs hp hw fun hh => ?_
          rcases hh with hh | hh
          · have hl' := Instr.leads hs
            rw [hh] at hl'
            exact .inr hl'
          · exact absurd hh hu
    | child hw hb hs => exact sound.child (wtcBtthr_inv hn hP hr) hw hb hs

/-- In `wtc_btproc` someone can step until the parent has printed. -/
theorem wtcBtproc_runs (hn : 0 < n) (hP : 0 < P) {s : State (wtcBtproc n P A)}
    (h : (wtcBtproc n P A).system.Reachable s) (hd : s.parent ≠ ParentPc.done) :
    ∃ s', Step (wtcBtproc n P A) s s' := by
  have inv := wtcBtproc_inv hn hP h
  have sound := wtcBtproc_sound hn hP h
  have hr : Runs false (Layout.flat n) P (procParent (Layout.flat n) P A) s.shared s.parent
      s.child := by
    generalize s.parent = pc at inv sound hd
    cases pc with
    | load i j =>
      refine .inl ?_
      rw [procParent]
      split
      · split <;> rfl
      · rfl
    | print i j =>
      exact .inl (printLoop_cases (·.blocked s.shared = false) (fun _ _ => rfl) fun _ => rfl)
    | destroyP2c k =>
      refine .inl ?_
      rw [procParent]
      split <;> rfl
    | reset | destroyC2p k => exact .inl rfl
    | done => exact absurd rfl hd
    | start | lockQueue | unlockQueue | release k | join k => exact sound.path.elim
    | fork k | test | signal k | await k | copy i j | store i j v | step | stepped k =>
      have hl := inv.rounds_runs .test .reset (.destroyP2c 0) trivial sound.keyed
        (fun _ => id) sound.inBody
      rw [Runs, ← procParent_rounds (A := A)] at hl
      · exact hl
      · trivial
  exact step_iff_runs.mpr hr

end NoblesseOblige.Wtc.Bag
