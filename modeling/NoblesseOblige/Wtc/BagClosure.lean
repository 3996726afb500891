import NoblesseOblige.Wtc.BagSteps

namespace NoblesseOblige.Wtc.Bag
set_option autoImplicit true

section
variable {n : Nat} {A : Adjacency n} {L : Layout n} {first : Bool} {P : Nat}
variable {holds : ParentPc → Prop}

/-- Every step of a worker keeps it where the parent's program point says it is. -/
theorem child_step {h h' : Shared L} (ok : WorkerOk A L first h w pc st)
    (hbusy : st = .busy → h.iterator < n ∧ Agrees L h.prev (A.Upto h.iterator))
    (hdrain : st = .draining → n ≤ h.iterator ∧ n ≤ h.queue) (hb : h.born w = true)
    (hs : (body first L w pc).run y h = some (h', pc')) :
    WorkerOk A L first h' w pc' st ∧ ChildEffect A y w st h h' pc pc' := by
  have hg := body_goes hs
  have leave (e : Nat → Bool) (ho : Outside n h pc) (ho' : Outside n h pc') :
      ChildEffect A y w st h { h with exited := e } pc pc' :=
    ⟨rfl, rfl, rfl, rfl, fun _ _ _ _ => rfl, .inl rfl, .inl rfl,
      .inl ⟨rfl, iff_of_false ho'.not_crit ho.not_crit⟩, fun _ _ hr => absurd hr ho.not_owns⟩
  cases st with
  | unborn => exact absurd (hb.symm.trans ok.1) (by simp)
  | idle =>
    obtain ⟨hb, ho, ht⟩ := ok
    rcases ho.step hg with ⟨ho', e, rfl⟩ | ⟨_, hne, _⟩
    · exact ⟨⟨hb, ho', ht⟩, leave e ho ho'⟩
    · exact absurd ht.1 hne
  | busy =>
    obtain ⟨hi, hp⟩ := hbusy rfl
    obtain ⟨hb, hw⟩ := ok
    rcases hw with ⟨ho, ht⟩ | ⟨hw, ht⟩ | ⟨ho, ht, hn⟩
    · rcases ho.step hg with ⟨ho', e, rfl⟩ | ⟨rfl, _, rfl⟩
      · exact ⟨⟨hb, .inl ⟨ho', ht⟩⟩, leave e ho ho'⟩
      · refine ⟨⟨hb, .inr (.inl ⟨trivial, ?_, ?_⟩)⟩,
          .token _ _ _ _ _ _ (.inl rfl) (iff_of_false id ho.not_crit) fun _ => ho.not_owns⟩
        · rw [Shared.setSem_self, ht.1]
        · exact (h.setSem_of_ne _ (by simp)).trans ht.2
    · obtain ⟨hok, he⟩ := hw.step ht hi hp hg
      exact ⟨⟨he.born ▸ hb, hok⟩, he⟩
    · rcases ho.step hg with ⟨ho', e, rfl⟩ | ⟨_, hne, _⟩
      · exact ⟨⟨hb, .inr (.inr ⟨ho', ht, hn⟩)⟩, leave e ho ho'⟩
      · exact absurd ht.1 hne
  | draining =>
    have hq := (hdrain rfl).2
    obtain ⟨hb, hd⟩ := ok
    obtain ⟨hd', he⟩ := hd.step hq hg
    have hcrit : Crit pc' ↔ Crit pc := iff_of_false hd'.not_crit hd.not_crit
    rcases he with ⟨e, rfl⟩ | ⟨x, v, hx, rfl⟩
    · exact ⟨⟨hb, hd'⟩, rfl, rfl, rfl, rfl, fun _ _ _ _ => rfl, .inl rfl, .inl rfl,
        .inl ⟨rfl, hcrit⟩, fun _ _ hr => absurd hr hd.not_owns⟩
    · exact ⟨⟨hb, hd'⟩, .token _ _ _ _ _ _ hx hcrit fun _ => hd.not_owns⟩

/-- A worker is busy only while the parent is between its signals and its collections. -/
theorem ParentOk.busy {h : Shared L} (ok : ParentOk A L h pc) (hst : stage pc w = .busy) :
    h.iterator < n ∧ Agrees L h.prev (A.Upto h.iterator) := by
  cases pc with
  | fork k =>
    simp only [stage] at hst
    split at hst <;> cases hst
  | signal k => exact ⟨ok.1, ok.2.1⟩
  | await k => exact ⟨ok.1, ok.2.1⟩
  | _ => cases hst

theorem ParentOk.draining {h : Shared L} (ok : ParentOk A L h pc)
    (hst : stage pc w = .draining) : n ≤ h.iterator ∧ n ≤ h.queue := by
  cases pc with
  | fork k | signal k | await k =>
    simp only [stage] at hst
    split at hst <;> cases hst
  | release | destroyP2c | destroyC2p | join | print | done => exact ⟨ok.1, ok.2.1⟩
  | _ => cases hst

theorem ParentOk.child {h h' : Shared L} (ok : ParentOk A L h pc)
    (e : ChildEffect A y w (stage pc w) h h' c c') (hcrit : Crit c → stage pc w = .busy) :
    ParentOk A L h' pc := by
  have hq := e.queue_le
  obtain ⟨hp, _, ho, hi, _, hqueue, hc, _, _⟩ := e
  have idle (hst : stage pc w ≠ .busy) : h'.curr = h.curr ∧ h'.queue = h.queue := by
    constructor
    · rcases hc with hc | ⟨_, _, hb, _⟩
      · exact hc
      · exact absurd hb hst
    · rcases hqueue with hqe | ⟨hcr, _⟩
      · exact hqe
      · exact absurd (hcrit hcr) hst
  have busy (hok : Below L h.curr (A.Upto (h.iterator + 1))) :
      Below L h'.curr (A.Upto (h.iterator + 1)) := by
    rcases hc with hc | ⟨i, j, _, _, hj, hB, hc⟩
    · rwa [hc]
    · rw [hc]
      exact hok.set hj hB
  cases pc with
  | signal k =>
    obtain ⟨hn, hA, hB, hO⟩ := ok
    simp only [ParentOk, hp, ho, hi]
    exact ⟨hn, hA, busy hB, hO⟩
  | await k =>
    obtain ⟨hn, hA, hB, hO, hk⟩ := ok
    simp only [ParentOk, hp, ho, hi]
    exact ⟨hn, hA, busy hB, hO, fun h0 => Nat.le_trans (hk h0) hq⟩
  | fork k =>
    obtain ⟨hcu, hqu⟩ := idle (by simp only [stage]; split <;> simp)
    simpa only [ParentOk, hp, ho, hi, hcu, hqu] using ok
  | _ =>
    obtain ⟨hcu, hqu⟩ := idle (by simp [stage])
    simpa only [ParentOk, hp, ho, hi, hcu, hqu] using ok

/-- A worker at none of the points where the draining ones are is inside the round. -/
theorem WorkerOk.working {h : Shared L} (ok : WorkerOk A L first h w pc st)
    (hd : ¬ Draining pc) : st = .busy ∧ Working A L first h pc := by
  cases st with
  | unborn =>
    obtain ⟨_, rfl, _⟩ := ok
    exact absurd trivial hd
  | idle => exact absurd ok.2.1.draining hd
  | busy =>
    rcases ok.2 with ⟨ho, _⟩ | ⟨hw, _⟩ | ⟨ho, _, _⟩
    · exact absurd ho.draining hd
    · exact ⟨rfl, hw⟩
    · exact absurd ho.draining hd
  | draining => exact absurd ok.2 hd

theorem WorkerOk.crit {h : Shared L} (ok : WorkerOk A L first h w pc st) (hc : Crit pc) :
    st = .busy :=
  (ok.working fun hd => hd.not_crit hc).1

theorem Locked.child {h h' : Shared L} (hl : Locked L P holds h pc cs o) (hw : w < P)
    (hm : LockMove y h h' (cs w) c) :
    ∃ o', Locked L P holds h' pc (Function.update cs w c) o' := by
  obtain ⟨hq, hpar, hcs⟩ := hl
  rcases hm with ⟨he, hc⟩ | ⟨hne, he, hc, hc'⟩ | ⟨he, hc, hc'⟩
  · refine ⟨o, he.trans hq, hpar, fun v hv => ?_⟩
    by_cases hvw : v = w
    · subst hvw
      rw [Function.update_self, hc]
      exact hcs v hv
    · rw [Function.update_of_ne hvw]
      exact hcs v hv
  · have hf : o = .free := by
      by_contra hf
      exact hne (hq.trans (if_neg hf))
    subst hf
    refine ⟨.worker w, ?_, ?_, fun v hv => ?_⟩
    · rw [he, hq]
      rfl
    · rw [hpar]
      exact iff_of_false (by simp) (by simp)
    · by_cases hvw : v = w
      · subst hvw
        rw [Function.update_self]
        exact iff_of_true hc' rfl
      · rw [Function.update_of_ne hvw, hcs v hv]
        exact iff_of_false (by simp) fun he => hvw (Holder.worker.inj he).symm
  · obtain rfl := (hcs w hw).1 hc
    refine ⟨.free, ?_, ?_, fun v hv => ?_⟩
    · rw [he, hq]
      exact Sync.release_zero y
    · rw [hpar]
      exact iff_of_false (by simp) (by simp)
    · by_cases hvw : v = w
      · subst hvw
        rw [Function.update_self]
        exact iff_of_false hc' (by simp)
      · rw [Function.update_of_ne hvw, hcs v hv]
        exact iff_of_false (fun he => hvw (Holder.worker.inj he).symm) (by simp)

theorem Covered.child {h h' : Shared L} (hr : Covered A L P h cs) (hw : w < P)
    (e : ChildEffect A y w st h h' (cs w) c) :
    Covered A L P h' (Function.update cs w c) := by
  intro r hn hq
  rw [e.iterator]
  have own (hc : Owns c r) : ∃ v, v < P ∧ Owns (Function.update cs w c v) r :=
    ⟨w, hw, by rwa [Function.update_self]⟩
  have old (hlt : r < h.queue) : RowDone L h'.curr (A.Upto (h.iterator + 1)) r ∨
      ∃ v, v < P ∧ Owns (Function.update cs w c v) r := by
    rcases hr r hn hlt with hd | ⟨v, hv, ho⟩
    · exact .inl fun j hj hB => e.ones _ (hd j hj hB)
    · by_cases hvw : v = w
      · subst hvw
        exact (e.owns r hn ho).elim (fun ho => .inr (own ho)) .inl
      · exact .inr ⟨v, hv, by rwa [Function.update_of_ne hvw]⟩
  rcases e.queue with hqe | ⟨_, hqe, ho⟩
  · exact old (hqe ▸ hq)
  · rw [hqe] at hq
    rcases Nat.lt_succ_iff_lt_or_eq.1 hq with hlt | he
    · exact old hlt
    · subst he
      exact .inr (own ho)

theorem Inv.child {h h' : Shared L} (inv : Inv A L first P holds h pc cs) (hw : w < P)
    (hb : h.born w = true) (hs : (body first L w (cs w)).run y h = some (h', c)) :
    Inv A L first P holds h' pc (Function.update cs w c) := by
  have ok := inv.worker w hw
  obtain ⟨hok, he⟩ := child_step ok inv.parent.busy inv.parent.draining hb hs
  obtain ⟨o, hl⟩ := inv.lock
  refine ⟨inv.parent.child he ok.crit, fun v hv => ?_, hl.child hw he.lock,
    fun hr => (inv.rows hr).child hw he⟩
  by_cases hvw : v = w
  · subst hvw
    rwa [Function.update_self]
  · rw [Function.update_of_ne hvw]
    refine (inv.worker v hv).frame (congrFun he.born v)
      (he.sem _ (by simpa using hvw) (by simp) (by simp))
      (he.sem _ (by simp) (by simpa using hvw) (by simp)) he.iterator he.queue_le
      (fun hcv => ?_) he.ones
    -- only the holder of the lock moves the queue, and that is `v`
    rcases he.queue with hqe | ⟨hcw, _⟩
    · exact hqe
    · have hv' := ((hl.2.2 v hv).1 hcv).symm.trans ((hl.2.2 w hw).1 hcw)
      exact absurd (Holder.worker.inj hv') hvw

theorem Locked.pass {h h' : Shared L} (hl : ∃ o, Locked L P holds h pc cs o)
    (hq : h'.sem .queue = h.sem .queue) (hh : holds pc' ↔ holds pc) :
    ∃ o, Locked L P holds h' pc' cs o := by
  obtain ⟨o, hs, hp, hc⟩ := hl
  exact ⟨o, hq.trans hs, hh.trans hp, hc⟩

theorem Covered.empty {h : Shared L} (hq : h.queue = 0) : Covered A L P h cs :=
  fun r _ hr => by omega

/-- A parent step that moves one worker to its next stage and leaves the others where they were. -/
theorem Inv.move {h h' : Shared L} (inv : Inv A L first P holds h pc cs) (k : Nat)
    (hpar : ParentOk A L h' pc')
    (hk : WorkerOk A L first h' k (cs k) (stage pc' k))
    (hst : ∀ w, w ≠ k → stage pc' w = stage pc w)
    (hborn : ∀ w, w ≠ k → h'.born w = h.born w)
    (hsem : ∀ w, w ≠ k → h'.sem (.p2c w) = h.sem (.p2c w) ∧ h'.sem (.c2p w) = h.sem (.c2p w))
    (hqsem : h'.sem .queue = h.sem .queue) (hh : holds pc' ↔ holds pc)
    (hi : h'.iterator = h.iterator) (hq : h'.queue = h.queue) (hcurr : h'.curr = h.curr)
    (hr : InRound pc' → InRound pc) : Inv A L first P holds h' pc' cs := by
  refine ⟨hpar, fun w hw => ?_, Locked.pass inv.lock hqsem hh, fun hpc => ?_⟩
  · by_cases hwk : w = k
    · subst hwk
      exact hk
    · rw [hst w hwk]
      exact (inv.worker w hw).frame (hborn w hwk) (hsem w hwk).1 (hsem w hwk).2 hi
        (Nat.le_of_eq hq.symm) (fun _ => hq) fun _ ha => hcurr ▸ ha
  · simpa only [Covered, hi, hq, hcurr] using inv.rows (hr hpc)

/-- A parent step that changes no hand-off, nor the queue, the round or the new matrix. -/
theorem Inv.pass {h h' : Shared L} (inv : Inv A L first P holds h pc cs)
    (hpar : ParentOk A L h' pc')
    (hst : ∀ w, w < P → WorkerOk A L first h w (cs w) (stage pc w) →
      WorkerOk A L first h w (cs w) (stage pc' w))
    (hborn : h'.born = h.born) (hsem : h'.sem = h.sem) (hh : holds pc' ↔ holds pc)
    (hi : h'.iterator = h.iterator) (hq : h'.queue = h.queue) (hcurr : h'.curr = h.curr)
    (hr : InRound pc' → InRound pc) : Inv A L first P holds h' pc' cs := by
  refine ⟨hpar, fun w hw => ?_, Locked.pass inv.lock (congrFun hsem _) hh, fun hpc => ?_⟩
  · exact (hst w hw (inv.worker w hw)).frame (congrFun hborn w) (congrFun hsem _)
      (congrFun hsem _) hi (Nat.le_of_eq hq.symm) (fun _ => hq) fun _ ha => hcurr ▸ ha
  · simpa only [Covered, hi, hq, hcurr] using inv.rows (hr hpc)

/-- Between two rounds the parent may also reset the queue and advance the iterator. -/
theorem Inv.turn {h h' : Shared L} (inv : Inv A L first P holds h pc cs)
    (hpar : ParentOk A L h' pc') (hst : ∀ w, w < P → stage pc w = .idle)
    (hst' : ∀ w, w < P → stage pc' w = .idle) (hborn : h'.born = h.born)
    (hsem : ∀ w, h'.sem (.p2c w) = h.sem (.p2c w) ∧ h'.sem (.c2p w) = h.sem (.c2p w))
    (hi : h.iterator ≤ h'.iterator) (hl : ∃ o, Locked L P holds h' pc' cs o)
    (hr : InRound pc' → h'.queue = 0) : Inv A L first P holds h' pc' cs := by
  refine ⟨hpar, fun w hw => ?_, hl, fun hpc => .empty (hr hpc)⟩
  have ok := inv.worker w hw
  rw [hst w hw] at ok
  rw [hst' w hw]
  obtain ⟨hb, ho, ht⟩ := ok
  exact ⟨(congrFun hborn w).trans hb, ho.frame hi, (hsem w).1.trans ht.1, (hsem w).2.trans ht.2⟩

theorem Inv.fork {h : Shared L} (inv : Inv A L first P holds h (.fork k) cs) (hk : k < P)
    (hh : holds (.fork (k + 1)) ↔ holds (.fork k)) :
    Inv A L first P holds { h with born := Function.update h.born k true } (.fork (k + 1)) cs := by
  have ok := inv.worker k hk
  simp only [stage, Nat.lt_irrefl, ↓reduceIte, WorkerOk] at ok
  refine inv.move k inv.parent ?_ ?_ ?_ (fun _ _ => ⟨rfl, rfl⟩) rfl hh rfl rfl rfl id
  · simp only [stage, Nat.lt_succ_self, ↓reduceIte]
    refine ⟨Function.update_self .., ?_, ok.2.2⟩
    rw [ok.2.1]
    trivial
  · intro w hw
    have : w < k + 1 ↔ w < k := by omega
    simp only [stage, this]
  · exact fun w hw => Function.update_of_ne hw ..

theorem Inv.signal {h : Shared L} (inv : Inv A L first P holds h (.signal k) cs) (hk : k < P)
    (y : Sync) (hh : holds (.signal (k + 1)) ↔ holds (.signal k)) :
    Inv A L first P holds (h.setSem (.p2c k) (y.release (h.sem (.p2c k)))) (.signal (k + 1))
      cs := by
  have ok := inv.worker k hk
  simp only [stage, Nat.lt_irrefl, ↓reduceIte, WorkerOk] at ok
  obtain ⟨hb, ho, ht⟩ := ok
  refine inv.move k inv.parent ?_ ?_ (fun _ _ => rfl) ?_ (h.setSem_of_ne _ (by simp)) hh rfl rfl
    rfl id
  · simp only [stage, Nat.lt_succ_self, ↓reduceIte]
    refine ⟨hb, .inl ⟨ho, ?_, ?_⟩⟩
    · rw [Shared.setSem_self, ht.1, Sync.release_zero]
    · exact (h.setSem_of_ne _ (by simp)).trans ht.2
  · intro w hw
    have : w < k + 1 ↔ w < k := by omega
    simp only [stage, this]
  · exact fun w hw => ⟨h.setSem_of_ne _ (by simpa using hw), h.setSem_of_ne _ (by simp)⟩

/-- The parent gets past a worker only after that worker has found the queue empty. -/
theorem Inv.await {h : Shared L} (inv : Inv A L first P holds h (.await k) cs) (hk : k < P)
    (hc : h.sem (.c2p k) ≠ 0) (hh : holds (.await (k + 1)) ↔ holds (.await k)) :
    Inv A L first P holds (h.setSem (.c2p k) (h.sem (.c2p k) - 1)) (.await (k + 1)) cs := by
  have ok := inv.worker k hk
  simp only [stage, Nat.lt_irrefl, ↓reduceIte, WorkerOk] at ok
  obtain ⟨hb, hw⟩ := ok
  rcases hw with ⟨_, ht⟩ | ⟨_, ht⟩ | ⟨ho, ht, hn⟩
  · exact absurd ht.2 hc
  · exact absurd ht.2 hc
  obtain ⟨hi, hp, hB, hO, _⟩ := inv.parent
  refine inv.move k ⟨hi, hp, hB, hO, fun _ => hn⟩ ?_ ?_ (fun _ _ => rfl) ?_
    (h.setSem_of_ne _ (by simp)) hh rfl rfl rfl id
  · simp only [stage, Nat.lt_succ_self, ↓reduceIte]
    refine ⟨hb, ho, ?_, ?_⟩
    · exact (h.setSem_of_ne _ (by simp)).trans ht.1
    · rw [Shared.setSem_self, ht.2]
  · intro w hw
    have : w < k + 1 ↔ w < k := by omega
    simp only [stage, this]
  · exact fun w hw => ⟨h.setSem_of_ne _ (by simp), h.setSem_of_ne _ (by simpa using hw)⟩

theorem Inv.not_owns {h : Shared L} (inv : Inv A L first P holds h pc cs)
    (hst : ∀ v, v < P → stage pc v = .idle) (v : Nat) (hv : v < P) (r : Nat) :
    ¬ Owns (cs v) r := by
  have ok := inv.worker v hv
  rw [hst v hv] at ok
  exact ok.2.1.not_owns

/-- When every worker is collected the queue is empty and nobody holds a row. -/
theorem Inv.copy {h : Shared L} (inv : Inv A L first P holds h (.await k) cs) (hP : 0 < P)
    (hk : P ≤ k) (hh : holds (.copy 0 0) ↔ holds (.await k)) :
    Inv A L first P holds h (.copy 0 0) cs := by
  have hst (w : Nat) (hw : w < P) : stage (.await k) w = .idle := by
    simp only [stage, show w < k by omega, ↓reduceIte]
  obtain ⟨hi, hp, hB, hO, hq⟩ := inv.parent
  have hn := hq (by omega)
  refine inv.pass ⟨hi, hn, .start _ _ _, ?_, hO⟩ (fun w hw ok => ?_) rfl rfl hh rfl rfl rfl
    False.elim
  · apply hB.agrees
    intro r hr
    rcases inv.rows trivial r hr (Nat.lt_of_lt_of_le hr hn) with hd | ⟨w, hw, ho⟩
    · exact hd
    · exact absurd ho (inv.not_owns hst w hw r)
  · rwa [hst w hw] at ok

/-- Where a parent may hold the queue's lock. -/
def guarded : ParentPc → Bool
  | .reset | .unlockQueue => true
  | _ => false

/-- Everything a step in the loops both parents share can do. -/
inductive RoundGoes (L : Layout n) (P : Nat) (init enter td : ParentPc) (y : Sync) (h : Shared L) :
    ParentPc → Shared L → ParentPc → Prop
  | fork (hk : k < P) : RoundGoes L P init enter td y h (.fork k)
      { h with born := Function.update h.born k true } (.fork (k + 1))
  | forked (hk : P ≤ k) : RoundGoes L P init enter td y h (.fork k) h init
  | enter (hi : h.iterator < n) : RoundGoes L P init enter td y h .test h enter
  | ended (hi : n ≤ h.iterator) : RoundGoes L P init enter td y h .test h td
  | signal (hk : k < P) : RoundGoes L P init enter td y h (.signal k)
      (h.setSem (.p2c k) (y.release (h.sem (.p2c k)))) (.signal (k + 1))
  | signalled (hk : P ≤ k) : RoundGoes L P init enter td y h (.signal k) h (.await 0)
  | await (hk : k < P) (hc : h.sem (.c2p k) ≠ 0) : RoundGoes L P init enter td y h (.await k)
      (h.setSem (.c2p k) (h.sem (.c2p k) - 1)) (.await (k + 1))
  | awaited (hk : P ≤ k) : RoundGoes L P init enter td y h (.await k) h (.copy 0 0)
  | read (hi : i < n) (hj : j < n) : RoundGoes L P init enter td y h (.copy i j) h
      (.store i j (h.curr (L.cell i j)))
  | row (hi : i < n) (hj : n ≤ j) :
      RoundGoes L P init enter td y h (.copy i j) h (.copy (i + 1) 0)
  | copied (hi : n ≤ i) : RoundGoes L P init enter td y h (.copy i j) h .step
  | store : RoundGoes L P init enter td y h (.store i j v)
      { h with prev := Function.update h.prev (L.cell i j) v } (.copy i (j + 1))
  | step : RoundGoes L P init enter td y h .step h (.stepped h.iterator)
  | stepped : RoundGoes L P init enter td y h (.stepped k) { h with iterator := k + 1 } .test

theorem rounds_goes {h h' : Shared L} {init enter td : ParentPc}
    (hs : (Bag.rounds L P init enter td pc).run y h = some (h', pc')) :
    RoundGoes L P init enter td y h pc h' pc' := by
  cases pc with
  | fork k =>
    rw [Bag.rounds] at hs
    split at hs
    · cases hs
      exact .fork ‹_›
    · cases hs
      exact .forked (Nat.le_of_not_lt ‹_›)
  | test =>
    cases hs
    dsimp only
    split
    · exact .enter ‹_›
    · exact .ended (Nat.le_of_not_lt ‹_›)
  | signal k =>
    rw [Bag.rounds] at hs
    split at hs
    · cases hs
      exact .signal ‹_›
    · cases hs
      exact .signalled (Nat.le_of_not_lt ‹_›)
  | await k =>
    rw [Bag.rounds] at hs
    split at hs
    · rw [Instr.run] at hs
      split at hs
      · cases hs
      · cases hs
        exact .await ‹_› ‹_›
    · cases hs
      exact .awaited (Nat.le_of_not_lt ‹_›)
  | copy i j =>
    rw [Bag.rounds] at hs
    split at hs
    · split at hs
      · cases hs
        exact .read ‹_› ‹_›
      · cases hs
        exact .row ‹_› (Nat.le_of_not_lt ‹_›)
    · cases hs
      exact .copied (Nat.le_of_not_lt ‹_›)
  | store i j v =>
    cases hs
    exact .store
  | step =>
    cases hs
    exact .step
  | stepped k =>
    cases hs
    exact .stepped
  | _ => cases hs

theorem Inv.rounds {h h' : Shared L} (inv : Inv A L first P holds h pc cs)
    (init enter td : ParentPc) (hn : 0 < n) (hP : 0 < P)
    (hh : ∀ pc, guarded pc = false → ¬ holds pc) (hent : ¬ holds enter)
    (hinit : init = .start ∨ init = .test) (henter : enter = .lockQueue ∨ enter = .reset)
    (htd : td = .release 0 ∨ td = .destroyP2c 0)
    (hs : (Bag.rounds L P init enter td pc).run y h = some (h', pc')) :
    Inv A L first P holds h' pc' cs := by
  cases rounds_goes hs with
  | fork hk => exact inv.fork hk (iff_of_false (hh _ rfl) (hh _ rfl))
  | forked hk =>
    have hst (w : Nat) (hw : w < P) : stage (.fork _) w = .idle := if_pos (Nat.lt_of_lt_of_le hw hk)
    obtain ⟨hi, hp, hc, ho⟩ := inv.parent
    rcases hinit with rfl | rfl
    · refine inv.pass ⟨hi, hp, hc, ho⟩ (fun w hw ok => ?_) rfl rfl
        (iff_of_false (hh _ rfl) (hh _ rfl)) rfl rfl rfl False.elim
      rwa [hst w hw] at ok
    · refine inv.pass ⟨by omega, by omega, by rwa [hi], hc.congr fun i j => ?_, ho⟩
        (fun w hw ok => ?_) rfl rfl (iff_of_false (hh _ rfl) (hh _ rfl)) rfl rfl
        rfl False.elim
      · simp only [hi, Nat.lt_irrefl, false_and]
      · rwa [hst w hw] at ok
  | enter hlt =>
    obtain ⟨hi, hq, hp, hc, ho⟩ := inv.parent
    have hB : Below L h.curr (A.Upto (h.iterator + 1)) :=
      hc.below fun i j hB => (A.upto_succ h.iterator i j).mpr (.inl hB.2)
    have hne := iff_of_false hent (hh .test rfl)
    rcases henter with rfl | rfl
    · exact inv.pass ⟨hlt, hp, hB, ho⟩ (fun _ _ ok => ok) rfl rfl hne rfl rfl rfl False.elim
    · exact inv.pass ⟨hlt, hp, hB, ho⟩ (fun _ _ ok => ok) rfl rfl hne rfl rfl rfl False.elim
  | ended hle =>
    obtain ⟨hi, hq, hp, hc, ho⟩ := inv.parent
    have he : h.iterator = n := by omega
    have hp' : Agrees L h.prev (A.Upto n) := by rwa [he] at hp
    have hc' : Agrees L h.curr (A.Upto n) := by
      refine hc.congr fun i j => ?_
      simp only [he, hn, true_and]
    have hst (w : Nat) (ok : WorkerOk A L first h w (cs w) (stage .test w)) :
        WorkerOk A L first h w (cs w) .draining := ⟨ok.1, ok.2.1.draining⟩
    rcases htd with rfl | rfl
    · exact inv.pass ⟨hle, hq (by omega), hp', hc', ho⟩ (fun w _ => hst w) rfl rfl
        (iff_of_false (hh _ rfl) (hh _ rfl)) rfl rfl rfl False.elim
    · exact inv.pass ⟨hle, hq (by omega), hp', hc', ho⟩ (fun w _ => hst w) rfl rfl
        (iff_of_false (hh _ rfl) (hh _ rfl)) rfl rfl rfl False.elim
  | signal hk => exact inv.signal hk y (iff_of_false (hh _ rfl) (hh _ rfl))
  | signalled hk =>
    obtain ⟨hi, hp, hB, ho⟩ := inv.parent
    refine inv.pass ⟨hi, hp, hB, ho, by omega⟩ (fun w hw ok => ?_) rfl rfl
      (iff_of_false (hh _ rfl) (hh _ rfl)) rfl rfl rfl fun _ => trivial
    simpa only [stage, Nat.lt_of_lt_of_le hw hk, Nat.not_lt_zero, ↓reduceIte] using ok
  | await hk hc => exact inv.await hk hc (iff_of_false (hh _ rfl) (hh _ rfl))
  | awaited hk => exact inv.copy hP hk (iff_of_false (hh _ rfl) (hh _ rfl))
  | read hy hz =>
    obtain ⟨hi, hq, hp, hc, ho⟩ := inv.parent
    exact inv.pass ⟨hi, hq, hy, hz, hp, hc, ho, hc _ _ hy hz⟩ (fun _ _ ok => ok) rfl rfl
      (iff_of_false (hh _ rfl) (hh _ rfl)) rfl rfl rfl False.elim
  | row hy hz =>
    obtain ⟨hi, hq, hp, hc, ho⟩ := inv.parent
    exact inv.pass ⟨hi, hq, hp.row hz, hc, ho⟩ (fun _ _ ok => ok) rfl rfl
      (iff_of_false (hh _ rfl) (hh _ rfl)) rfl rfl rfl False.elim
  | copied hy =>
    obtain ⟨hi, hq, hp, hc, ho⟩ := inv.parent
    exact inv.pass ⟨hi, hq, hp.agrees hy, hc, ho⟩ (fun _ _ ok => ok) rfl rfl
      (iff_of_false (hh _ rfl) (hh _ rfl)) rfl rfl rfl False.elim
  | store =>
    obtain ⟨hi, hq, hy, hz, hp, hc, ho, hv⟩ := inv.parent
    exact inv.pass ⟨hi, hq, hp.cell hz hv, hc, ho⟩ (fun _ _ ok => ok) rfl rfl
      (iff_of_false (hh _ rfl) (hh _ rfl)) rfl rfl rfl False.elim
  | step =>
    exact inv.pass ⟨rfl, inv.parent⟩ (fun _ _ ok => ok) rfl rfl
      (iff_of_false (hh _ rfl) (hh _ rfl)) rfl rfl rfl False.elim
  | stepped =>
    obtain ⟨rfl, hi, hq, hp, hc, ho⟩ := inv.parent
    refine inv.turn ⟨hi, fun _ => hq, hp, hc.congr fun i j => ?_, ho⟩ (fun _ _ => rfl)
      (fun _ _ => rfl) rfl (fun _ => ⟨rfl, rfl⟩) (Nat.le_succ _)
      (Locked.pass inv.lock rfl (iff_of_false (hh _ rfl) (hh _ rfl))) False.elim
    simp only [Nat.succ_pos, true_and]

theorem Inv.finish {h h' : Shared L} (inv : Inv A L first P holds h pc cs)
    (hpar : ParentOk A L h' pc') (hst : ∀ w, stage pc w = .draining)
    (hst' : ∀ w, stage pc' w = .draining) (hborn : h'.born = h.born)
    (hq : h'.sem .queue = h.sem .queue) (hh : holds pc' ↔ holds pc) (hin : ¬ InRound pc') :
    Inv A L first P holds h' pc' cs := by
  refine ⟨hpar, fun w hw => ?_, Locked.pass inv.lock hq hh, fun hr => absurd hr hin⟩
  have ok := inv.worker w hw
  rw [hst w] at ok
  rw [hst' w]
  exact ⟨(congrFun hborn w).trans ok.1, ok.2⟩

theorem Inv.print {h h' : Shared L} (inv : Inv A L first P holds h (.print y z) cs)
    (he : ∀ a next, (emit a next).run s h = some ({ h with out := h.out ++ [M a] }, next))
    (hM : Agrees L M (A.Upto n)) (hh : ∀ pc, guarded pc = false → ¬ holds pc)
    (hs : (printLoop L emit ParentPc.print .done y z).run s h = some (h', pc')) :
    Inv A L first P holds h' pc' cs := by
  obtain ⟨hi, hq, hp, hc, ho⟩ := inv.parent
  rcases ho.step he (fun i j hi hj => hM.closure hi hj) hs with
    ⟨y', z', out, rfl, rfl, ho'⟩ | ⟨rfl, rfl, ho'⟩
  · exact inv.finish ⟨hi, hq, hp, hc, ho'⟩ (fun _ => rfl) (fun _ => rfl) rfl rfl
      (iff_of_false (hh _ rfl) (hh _ rfl)) id
  · exact inv.finish ⟨hi, hq, hp, hc, ho'⟩ (fun _ => rfl) (fun _ => rfl) rfl rfl
      (iff_of_false (hh _ rfl) (hh _ rfl)) id

theorem Inv.load {h : Shared L} (inv : Inv A L first P holds h (.load y z) cs)
    (hh : ∀ pc, guarded pc = false → ¬ holds pc)
    (hs : (procParent L P A (.load y z)).run x h = some (h', pc')) :
    Inv A L first P holds h' pc' cs := by
  obtain ⟨hi, hz, hp, hc, ho⟩ := inv.parent
  have hne (pc') (hg : guarded pc' = false) : holds pc' ↔ holds (.load y z) :=
    iff_of_false (hh _ hg) (hh _ rfl)
  by_cases hy : y < n
  · by_cases hzn : z < n
    · simp only [procParent, if_pos hy, if_pos hzn, Instr.run, Option.some.injEq,
        Prod.mk.injEq] at hs
      obtain ⟨rfl, rfl⟩ := hs
      exact inv.pass ⟨hi, hzn, hp.cell hzn (A.entry_holds hy hzn), hc, ho⟩ (fun _ _ ok => ok) rfl
        rfl (hne _ rfl) rfl rfl rfl False.elim
    · simp only [procParent, if_pos hy, if_neg hzn, Instr.run, Option.some.injEq,
        Prod.mk.injEq] at hs
      obtain ⟨rfl, rfl⟩ := hs
      exact inv.pass ⟨hi, Nat.zero_le _, hp.row (by omega), hc, ho⟩ (fun _ _ ok => ok) rfl rfl
        (hne _ rfl) rfl rfl rfl False.elim
  · simp only [procParent, if_neg hy, Instr.run, Option.some.injEq, Prod.mk.injEq] at hs
    obtain ⟨rfl, rfl⟩ := hs
    refine inv.pass ⟨hi, hp.agrees (by omega), hc, ho⟩ (fun w _ ok => ?_) rfl rfl
      (hne _ rfl) rfl rfl rfl False.elim
    simpa only [stage, Nat.not_lt_zero, ↓reduceIte] using ok

/-- The main process never takes the queue's lock, the main thread does to reset the queue. -/
def procHolds : ParentPc → Prop := fun _ => False

def thrHolds (pc : ParentPc) : Prop := pc = .reset ∨ pc = .unlockQueue

theorem thrHolds_not (pc : ParentPc) (hg : guarded pc = false) : ¬ thrHolds pc := by
  rintro (rfl | rfl)
  · cases hg
  · cases hg

theorem Inv.procParent {h h' : Shared L} (inv : Inv A L false P procHolds h pc cs) (hn : 0 < n)
    (hP : 0 < P) (hs : (procParent L P A pc).run x h = some (h', pc')) :
    Inv A L false P procHolds h' pc' cs := by
  cases pc with
  | load y z => exact inv.load (fun _ _ => id) hs
  | reset =>
    obtain ⟨hi, hp, hB, ho⟩ := inv.parent
    simp only [Bag.procParent, Instr.run, Option.some.injEq, Prod.mk.injEq] at hs
    obtain ⟨rfl, rfl⟩ := hs
    exact inv.turn ⟨hi, hp, hB, ho⟩ (fun _ _ => rfl)
      (fun w _ => by simp only [stage, Nat.not_lt_zero, ↓reduceIte]) rfl (fun _ => ⟨rfl, rfl⟩)
      (Nat.le_refl _) (Locked.pass inv.lock rfl Iff.rfl) fun _ => rfl
  | destroyP2c k =>
    obtain ⟨hi, hq, hp, hc, ho⟩ := inv.parent
    by_cases hk : k < P
    · simp only [Bag.procParent, if_pos hk, Instr.run, Option.some.injEq, Prod.mk.injEq] at hs
      obtain ⟨rfl, rfl⟩ := hs
      exact inv.finish ⟨hi, hq, hp, hc, ho⟩ (fun _ => rfl) (fun _ => rfl) rfl rfl Iff.rfl id
    · simp only [Bag.procParent, if_neg hk, Instr.run, Option.some.injEq, Prod.mk.injEq] at hs
      obtain ⟨rfl, rfl⟩ := hs
      exact inv.finish ⟨hi, hq, hp, hc, ho ▸ .start ..⟩ (fun _ => rfl) (fun _ => rfl) rfl rfl
        Iff.rfl id
  | destroyC2p k =>
    simp only [Bag.procParent, Instr.run, Option.some.injEq, Prod.mk.injEq] at hs
    obtain ⟨rfl, rfl⟩ := hs
    exact inv.finish inv.parent (fun _ => rfl) (fun _ => rfl) rfl rfl Iff.rfl id
  | print y z => exact inv.print (fun _ _ => rfl) inv.parent.2.2.2.1 (fun _ _ => id) hs
  | _ =>
    exact inv.rounds .test .reset (.destroyP2c 0) hn hP (fun _ _ => id) id (.inr rfl) (.inr rfl)
      (.inr rfl) hs

theorem Inv.thrParent {h h' : Shared L} (inv : Inv A L true P thrHolds h pc cs) (hn : 0 < n)
    (hP : 0 < P) (hs : (thrParent L P pc).run .mutex h = some (h', pc')) :
    Inv A L true P thrHolds h' pc' cs := by
  have hne (pc pc') (hg : guarded pc = false) (hg' : guarded pc' = false) :
      thrHolds pc ↔ thrHolds pc' :=
    iff_of_false (thrHolds_not _ hg) (thrHolds_not _ hg')
  cases pc with
  | start =>
    obtain ⟨hi, hp, hc, ho⟩ := inv.parent
    simp only [Bag.thrParent, Instr.run, Option.some.injEq, Prod.mk.injEq] at hs
    obtain ⟨rfl, rfl⟩ := hs
    refine inv.turn ⟨Nat.zero_le _, fun h0 => absurd h0 (Nat.lt_irrefl 0), hp,
      hc.congr fun i j => ?_, ho⟩ (fun _ _ => rfl) (fun _ _ => rfl) rfl (fun _ => ⟨rfl, rfl⟩)
      (Nat.le_of_eq hi) (Locked.pass inv.lock rfl (hne _ _ rfl rfl)) False.elim
    simp only [Nat.lt_irrefl, false_and]
  | lockQueue =>
    simp only [Bag.thrParent, Instr.run] at hs
    split at hs
    · cases hs
    · obtain ⟨rfl, rfl⟩ := Prod.mk.inj (Option.some.inj hs)
      refine inv.turn inv.parent (fun _ _ => rfl) (fun _ _ => rfl) rfl
        (fun _ => ⟨h.setSem_of_ne _ (by simp), h.setSem_of_ne _ (by simp)⟩) (Nat.le_refl _) ?_
        False.elim
      obtain ⟨o, hq, _, hc⟩ := inv.lock
      have hf : o = .free := by
        by_contra hf
        exact ‹¬ _› (hq.trans (if_neg hf))
      subst hf
      refine ⟨.parent, ?_, iff_of_true (.inl rfl) rfl, fun w hw => ?_⟩
      · rw [Shared.setSem_self, hq]
        rfl
      · rw [hc w hw]
        exact iff_of_false (by simp) (by simp)
  | reset =>
    obtain ⟨hi, hp, hB, ho⟩ := inv.parent
    simp only [Bag.thrParent, Instr.run, Option.some.injEq, Prod.mk.injEq] at hs
    obtain ⟨rfl, rfl⟩ := hs
    exact inv.turn ⟨hi, hp, hB, ho, rfl⟩ (fun _ _ => rfl) (fun _ _ => rfl) rfl
      (fun _ => ⟨rfl, rfl⟩) (Nat.le_refl _)
      (Locked.pass inv.lock rfl (iff_of_true (.inr rfl) (.inl rfl))) False.elim
  | unlockQueue =>
    obtain ⟨hi, hp, hB, ho, hq⟩ := inv.parent
    simp only [Bag.thrParent, Instr.run, Option.some.injEq, Prod.mk.injEq] at hs
    obtain ⟨rfl, rfl⟩ := hs
    refine inv.turn ⟨hi, hp, hB, ho⟩ (fun _ _ => rfl)
      (fun w _ => by simp only [stage, Nat.not_lt_zero, ↓reduceIte]) rfl
      (fun _ => ⟨h.setSem_of_ne _ (by simp), h.setSem_of_ne _ (by simp)⟩) (Nat.le_refl _) ?_
      fun _ => hq
    obtain ⟨o, hs, hpar, hc⟩ := inv.lock
    obtain rfl := hpar.1 (.inr rfl)
    refine ⟨.free, h.setSem_self _ _, iff_of_false (thrHolds_not _ rfl) (by simp),
      fun w hw => ?_⟩
    rw [hc w hw]
    exact iff_of_false (by simp) (by simp)
  | release k =>
    obtain ⟨hi, hq, hp, hc, ho⟩ := inv.parent
    by_cases hk : k < P
    · simp only [Bag.thrParent, if_pos hk, Instr.run, Option.some.injEq, Prod.mk.injEq] at hs
      obtain ⟨rfl, rfl⟩ := hs
      exact inv.finish ⟨hi, hq, hp, hc, ho⟩ (fun _ => rfl) (fun _ => rfl) rfl
        (h.setSem_of_ne _ (by simp)) (hne _ _ rfl rfl) id
    · simp only [Bag.thrParent, if_neg hk, Instr.run, Option.some.injEq, Prod.mk.injEq] at hs
      obtain ⟨rfl, rfl⟩ := hs
      exact inv.finish ⟨hi, hq, hp, hc, ho⟩ (fun _ => rfl) (fun _ => rfl) rfl rfl
        (hne _ _ rfl rfl) id
  | destroyP2c k =>
    obtain ⟨hi, hq, hp, hc, ho⟩ := inv.parent
    by_cases hk : k < P
    · simp only [Bag.thrParent, if_pos hk, Instr.run, Option.some.injEq, Prod.mk.injEq] at hs
      obtain ⟨rfl, rfl⟩ := hs
      exact inv.finish ⟨hi, hq, hp, hc, ho⟩ (fun _ => rfl) (fun _ => rfl) rfl rfl
        (hne _ _ rfl rfl) id
    · simp only [Bag.thrParent, if_neg hk, Instr.run, Option.some.injEq, Prod.mk.injEq] at hs
      obtain ⟨rfl, rfl⟩ := hs
      exact inv.finish ⟨hi, hq, hp, hc, ho ▸ .start ..⟩ (fun _ => rfl) (fun _ => rfl) rfl rfl
        (hne _ _ rfl rfl) id
  | destroyC2p k =>
    simp only [Bag.thrParent, Instr.run, Option.some.injEq, Prod.mk.injEq] at hs
    obtain ⟨rfl, rfl⟩ := hs
    exact inv.finish inv.parent (fun _ => rfl) (fun _ => rfl) rfl rfl
      (hne _ _ rfl rfl) id
  | join k =>
    simp only [Bag.thrParent, Instr.run] at hs
    split at hs
    · obtain ⟨rfl, rfl⟩ := Prod.mk.inj (Option.some.inj hs)
      exact inv.finish inv.parent (fun _ => rfl) (fun _ => rfl) rfl rfl
        (hne _ _ rfl rfl) id
    · cases hs
  | print y z => exact inv.print (fun _ _ => rfl) inv.parent.2.2.1 thrHolds_not hs
  | _ =>
    exact inv.rounds .start .lockQueue (.release 0) hn hP thrHolds_not
      (thrHolds_not _ rfl) (.inl rfl) (.inl rfl) (.inl rfl) hs

end

theorem wtcBtproc_inv (hn : 0 < n) (hP : 0 < P) {s : State (wtcBtproc n P A)}
    (h : (wtcBtproc n P A).system.Reachable s) :
    Inv A (Layout.flat n) false P procHolds s.shared s.parent s.child := by
  apply h.invariant
    (I := fun s => Inv A (Layout.flat n) false P procHolds s.shared s.parent s.child)
  · rintro s rfl
    refine ⟨⟨rfl, Nat.zero_le _, .start _ _ _, ?_, rfl⟩, fun w _ => ⟨rfl, rfl, rfl, rfl⟩,
      ⟨.free, rfl, iff_of_false id (by simp), fun _ _ => iff_of_false id (by simp)⟩, False.elim⟩
    exact fun i j _ _ => ⟨False.elim, fun _ => rfl⟩
  · intro s s' inv hs
    cases hs with
    | parent hs => exact inv.procParent hn hP hs
    | child hw hb hs => exact inv.child hw hb hs

theorem wtcBtthr_inv (hn : 0 < n) (hP : 0 < P) {s : State (wtcBtthr n P A)}
    (h : (wtcBtthr n P A).system.Reachable s) :
    Inv A (Layout.rows n) true P thrHolds s.shared s.parent s.child := by
  apply h.invariant
    (I := fun s => Inv A (Layout.rows n) true P thrHolds s.shared s.parent s.child)
  · rintro s rfl
    refine ⟨⟨rfl, fun i j hi hj => A.entry_holds hi hj, ?_, rfl⟩, fun w _ => ?_,
      ⟨.free, rfl, iff_of_false (thrHolds_not _ rfl) (by simp),
        fun _ _ => iff_of_false id (by simp)⟩, False.elim⟩
    · exact fun i j _ _ => ⟨False.elim, fun _ => rfl⟩
    · exact ⟨rfl, rfl, rfl, rfl⟩
  · intro s s' inv hs
    cases hs with
    | parent hs => exact inv.thrParent hn hP hs
    | child hw hb hs => exact inv.child hw hb hs

/-- Whatever the interleaving, the bag-of-tasks programs print the closure. -/
theorem bag_prints_closure (n P : Nat) (hn : 1 ≤ n) (hP : 1 ≤ P) (A : Adjacency n) :
    (∀ s, (wtcBtproc n P A).system.Reachable s →
      (∀ y z, s.parent = ParentPc.print y z →
        (∀ i j, i < n → j < n →
          s.shared.curr ((Layout.flat n).cell i j) = A.closure i j) ∧
        s.shared.out = printed n A.closure y z) ∧
      (s.parent = ParentPc.done → s.shared.out = printed n A.closure n 0)) ∧
    (∀ s, (wtcBtthr n P A).system.Reachable s →
      (∀ y z, s.parent = ParentPc.print y z →
        (∀ i j, i < n → j < n →
          s.shared.prev ((Layout.rows n).cell i j) = A.closure i j) ∧
        s.shared.out = printed n A.closure y z) ∧
      (s.parent = ParentPc.done → s.shared.out = printed n A.closure n 0)) := by
  constructor
  · intro s h
    have inv := (wtcBtproc_inv hn hP h).parent
    constructor
    · intro y z hpc
      rw [hpc] at inv
      exact ⟨fun i j hi hj => inv.2.2.2.1.closure hi hj, inv.2.2.2.2.out⟩
    · intro hpc
      rw [hpc] at inv
      exact inv.2.2.2.2
  · intro s h
    have inv := (wtcBtthr_inv hn hP h).parent
    constructor
    · intro y z hpc
      rw [hpc] at inv
      exact ⟨fun i j hi hj => inv.2.2.1.closure hi hj, inv.2.2.2.2.out⟩
    · intro hpc
      rw [hpc] at inv
      exact inv.2.2.2.2

/-- Both programs, run with two workers on a cycle of two vertices, end and print ones only. -/
theorem bag_prints_closure_of_cycle :
    (∃ s, (wtcBtproc 2 2 (.cycle 2)).system.Reachable s ∧ s.parent = ParentPc.done ∧
      s.shared.out = [1, 1, 1, 1] ∧
      s.shared.out = printed 2 (Adjacency.cycle 2).closure 2 0) ∧
    (∃ s, (wtcBtthr 2 2 (.cycle 2)).system.Reachable s ∧ s.parent = ParentPc.done ∧
      s.shared.out = [1, 1, 1, 1] ∧
      s.shared.out = printed 2 (Adjacency.cycle 2).closure 2 0) := by
  have h := bag_prints_closure 2 2 (by decide) (by decide) (.cycle 2)
  constructor
  · have hr := (wtcBtproc 2 2 (.cycle 2)).play_reachable (turns 120)
    have hd : ((wtcBtproc 2 2 (.cycle 2)).play (turns 120)).parent = ParentPc.done := by
      decide +kernel
    exact ⟨_, hr, hd, by decide +kernel, (h.1 _ hr).2 hd⟩
  · have hr := (wtcBtthr 2 2 (.cycle 2)).play_reachable (turns 120)
    have hd : ((wtcBtthr 2 2 (.cycle 2)).play (turns 120)).parent = ParentPc.done := by
      decide +kernel
    exact ⟨_, hr, hd, by decide +kernel, (h.2 _ hr).2 hd⟩

end NoblesseOblige.Wtc.Bag
