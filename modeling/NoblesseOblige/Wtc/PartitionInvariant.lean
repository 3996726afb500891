import NoblesseOblige.Wtc.Rounds

namespace NoblesseOblige.Wtc.Partition
set_option autoImplicit true

/-- What the parent's program point says about one worker. -/
inductive Stage
  | unborn
  | idle (m : Nat)
  | busy (m : Nat)
  | collected (m : Nat)

def stage (n : Nat) : ParentPc → Nat → Stage
  | .load _ _, _ => .unborn
  | .fork k, w => if w < k then .idle 0 else .unborn
  | .round m, _ => .idle m
  | .signal m k, w => if w < k then .busy m else .idle m
  | .await m k, w => if w < k then .collected m else .busy m
  | .copy m _ _, _ => .collected m
  | .store m _ _ _, _ => .collected m
  | _, _ => .idle n

/-- The worker stands before its round `m`, or has left after the last one. -/
def AtLoop (n m : Nat) (pc : ChildPc) : Prop := pc = .loop m ∨ n ≤ m ∧ pc = .done

def Tokens (h : Shared L) (w a b : Nat) : Prop := h.sem (.p2c w) = a ∧ h.sem (.c2p w) = b

section
variable {n : Nat} (A : Adjacency n) (L : Layout n) (P m w : Nat) (M : L.Addr → Int)

/-- The first `q` rows of the worker are complete for round `m`. -/
def RowsBefore (q : Nat) : Prop :=
  ∀ q', q' < q → w + q' * P < n → RowDone L M (A.Upto (m + 1)) (w + q' * P)

def RowsDone : Prop := ∀ i, i < n → i % P = w → RowDone L M (A.Upto (m + 1)) i

structure InCell (i j : Nat) : Prop where
  row : i < n
  before : ∃ q, i = w + q * P ∧ RowsBefore A L P m w M q
  cells : ∀ j', j' < j → A.Upto (m + 1) i j' → M (L.cell i j') = 1

/-- What a worker inside its row loop has computed, and what its reads have told it. -/
def Working : ChildPc → Prop
  | .row k i => k = m ∧ ∃ q, i = w + q * P ∧ RowsBefore A L P m w M q
  | .cell k i j => k = m ∧ InCell A L P m w M i j
  | .both k i j => k = m ∧ j < n ∧ InCell A L P m w M i j ∧ A.Upto m m j
  | .own k i j => k = m ∧ j < n ∧ InCell A L P m w M i j ∧ ¬ (A.Upto m i m ∧ A.Upto m m j)
  | .set k i j => k = m ∧ j < n ∧ InCell A L P m w M i j ∧ A.Upto (m + 1) i j
  | _ => False

end

section
variable {n : Nat} (A : Adjacency n) (L : Layout n) (P : Nat)

def BusyOk (h : Shared L) (w m : Nat) (pc : ChildPc) : Prop :=
  pc = .loop m ∧ Tokens h w 1 0 ∨ Working A L P m w h.curr pc ∧ Tokens h w 0 0 ∨
    AtLoop n (m + 1) pc ∧ Tokens h w 0 1 ∧ RowsDone A L P m w h.curr

def WorkerOk (h : Shared L) (w : Nat) (pc : ChildPc) : Stage → Prop
  | .unborn => h.born w = false ∧ pc = .loop 0 ∧ Tokens h w 0 0
  | .idle m => h.born w = true ∧ AtLoop n m pc ∧ Tokens h w 0 0
  | .busy m => h.born w = true ∧ BusyOk A L P h w m pc
  | .collected m =>
    h.born w = true ∧ AtLoop n (m + 1) pc ∧ Tokens h w 0 0 ∧ RowsDone A L P m w h.curr

/-- What the parent has loaded, copied and printed. -/
def ParentOk (h : Shared L) : ParentPc → Prop
  | .load y z => z ≤ n ∧ Filled L h.prev (A.Upto 0) y z ∧ Agrees L h.curr (fun _ _ => False) ∧
      h.out = []
  | .fork _ => Agrees L h.prev (A.Upto 0) ∧ Agrees L h.curr (fun _ _ => False) ∧ h.out = []
  | .round m => m ≤ n ∧ Agrees L h.prev (A.Upto m) ∧
      Agrees L h.curr (fun i j => 0 < m ∧ A.Upto m i j) ∧ h.out = []
  | .signal m _ | .await m _ => m < n ∧ Agrees L h.prev (A.Upto m) ∧
      Below L h.curr (A.Upto (m + 1)) ∧ h.out = []
  | .copy m y z => m < n ∧ Filled L h.prev (A.Upto (m + 1)) y z ∧
      Agrees L h.curr (A.Upto (m + 1)) ∧ h.out = []
  | .store m y z v => m < n ∧ y < n ∧ z < n ∧ Filled L h.prev (A.Upto (m + 1)) y z ∧
      Agrees L h.curr (A.Upto (m + 1)) ∧ h.out = [] ∧
      (A.Upto (m + 1) y z → v = 1) ∧ (¬ A.Upto (m + 1) y z → v = 0)
  | .join _ | .destroyP2c _ | .destroyC2p _ =>
      Agrees L h.prev (A.Upto n) ∧ Agrees L h.curr (A.Upto n) ∧ h.out = []
  | .print y z => Agrees L h.prev (A.Upto n) ∧ Agrees L h.curr (A.Upto n) ∧
      Printing n A.closure y z h.out
  | .done => Agrees L h.prev (A.Upto n) ∧ Agrees L h.curr (A.Upto n) ∧
      h.out = printed n A.closure n 0

/-- The lockstep of the parent with its `P` workers. -/
structure Inv (h : Shared L) (pc : ParentPc) (cs : Nat → ChildPc) : Prop where
  parent : ParentOk A L h pc
  worker : ∀ w, w < P → WorkerOk A L P h w (cs w) (stage n pc w)

end

/-- Everything a step of worker `w` can do, with what it has read. -/
inductive Goes (L : Layout n) (P w : Nat) (y : Sync) (h : Shared L) :
    ChildPc → Shared L → ChildPc → Prop
  | wait (hk : k < n) (hp : h.sem (.p2c w) ≠ 0) :
      Goes L P w y h (.loop k) (h.setSem (.p2c w) (h.sem (.p2c w) - 1)) (.row k w)
  | leave (hk : n ≤ k) : Goes L P w y h (.loop k)
      { h with exited := Function.update h.exited w true } .done
  | row (hi : i < n) : Goes L P w y h (.row k i) h (.cell k i 0)
  | post (hi : n ≤ i) : Goes L P w y h (.row k i)
      (h.setSem (.c2p w) (y.release (h.sem (.c2p w)))) (.loop (k + 1))
  | both (hj : j < n) (hv : h.prev (L.cell k j) = 1) :
      Goes L P w y h (.cell k i j) h (.both k i j)
  | noPath (hj : j < n) (hv : h.prev (L.cell k j) ≠ 1) :
      Goes L P w y h (.cell k i j) h (.own k i j)
  | next (hj : n ≤ j) : Goes L P w y h (.cell k i j) h (.row k (i + P))
  | path (hv : h.prev (L.cell i k) ≠ 0) : Goes L P w y h (.both k i j) h (.set k i j)
  | zero (hv : h.prev (L.cell i k) = 0) : Goes L P w y h (.both k i j) h (.own k i j)
  | own (hv : h.prev (L.cell i j) = 1) : Goes L P w y h (.own k i j) h (.set k i j)
  | noOwn (hv : h.prev (L.cell i j) ≠ 1) : Goes L P w y h (.own k i j) h (.cell k i (j + 1))
  | set : Goes L P w y h (.set k i j)
      { h with curr := Function.update h.curr (L.cell i j) 1 } (.cell k i (j + 1))

/-- Everything a step in the loops both parents share can do. -/
inductive RoundGoes (L : Layout n) (P : Nat) (td : ParentPc) (y : Sync) (h : Shared L) :
    ParentPc → Shared L → ParentPc → Prop
  | fork (hk : k < P) : RoundGoes L P td y h (.fork k)
      { h with born := Function.update h.born k true } (.fork (k + 1))
  | forked (hk : P ≤ k) : RoundGoes L P td y h (.fork k) h (.round 0)
  | enter (hm : m < n) : RoundGoes L P td y h (.round m) h (.signal m 0)
  | ended (hm : n ≤ m) : RoundGoes L P td y h (.round m) h td
  | signal (hk : k < P) : RoundGoes L P td y h (.signal m k)
      (h.setSem (.p2c k) (y.release (h.sem (.p2c k)))) (.signal m (k + 1))
  | signalled (hk : P ≤ k) : RoundGoes L P td y h (.signal m k) h (.await m 0)
  | await (hk : k < P) (hc : h.sem (.c2p k) ≠ 0) : RoundGoes L P td y h (.await m k)
      (h.setSem (.c2p k) (h.sem (.c2p k) - 1)) (.await m (k + 1))
  | awaited (hk : P ≤ k) : RoundGoes L P td y h (.await m k) h (.copy m 0 0)
  | read (hi : i < n) (hj : j < n) : RoundGoes L P td y h (.copy m i j) h
      (.store m i j (h.curr (L.cell i j)))
  | row (hi : i < n) (hj : n ≤ j) : RoundGoes L P td y h (.copy m i j) h (.copy m (i + 1) 0)
  | copied (hi : n ≤ i) : RoundGoes L P td y h (.copy m i j) h (.round (m + 1))
  | store : RoundGoes L P td y h (.store m i j v)
      { h with prev := Function.update h.prev (L.cell i j) v } (.copy m i (j + 1))

section
variable {n : Nat} {A : Adjacency n} {L : Layout n} {P m w : Nat} {M M' : L.Addr → Int}

theorem RowDone.mono (h : RowDone L M B i) (hM : ∀ a, M a = 1 → M' a = 1) :
    RowDone L M' B i := fun j hj hB => hM _ (h j hj hB)

theorem RowsBefore.mono (h : RowsBefore A L P m w M q) (hM : ∀ a, M a = 1 → M' a = 1) :
    RowsBefore A L P m w M' q := fun q' hq hi => RowDone.mono (h q' hq hi) hM

theorem RowsDone.mono (h : RowsDone A L P m w M) (hM : ∀ a, M a = 1 → M' a = 1) :
    RowsDone A L P m w M' := fun i hi hw => RowDone.mono (h i hi hw) hM

theorem InCell.mono (h : InCell A L P m w M i j) (hM : ∀ a, M a = 1 → M' a = 1) :
    InCell A L P m w M' i j := by
  obtain ⟨q, hi, hq⟩ := h.before
  exact ⟨h.row, ⟨q, hi, hq.mono hM⟩, fun j' hj hB => hM _ (h.cells j' hj hB)⟩

theorem Working.mono (h : Working A L P m w M pc) (hM : ∀ a, M a = 1 → M' a = 1) :
    Working A L P m w M' pc := by
  cases pc with
  | loop k => exact h
  | row k i =>
    obtain ⟨hk, q, hi, hq⟩ := h
    exact ⟨hk, q, hi, hq.mono hM⟩
  | cell k i j => exact ⟨h.1, h.2.mono hM⟩
  | both k i j => exact ⟨h.1, h.2.1, h.2.2.1.mono hM, h.2.2.2⟩
  | own k i j => exact ⟨h.1, h.2.1, h.2.2.1.mono hM, h.2.2.2⟩
  | set k i j => exact ⟨h.1, h.2.1, h.2.2.1.mono hM, h.2.2.2⟩
  | done => exact h

/-- A worker's own facts survive whatever leaves its hand-offs alone and clears no cell. -/
theorem WorkerOk.frame {h h' : Shared L} (ok : WorkerOk A L P h w pc st)
    (hb : h'.born w = h.born w) (hp : h'.sem (.p2c w) = h.sem (.p2c w))
    (hc : h'.sem (.c2p w) = h.sem (.c2p w)) (hM : ∀ a, h.curr a = 1 → h'.curr a = 1) :
    WorkerOk A L P h' w pc st := by
  cases st with
  | unborn =>
    obtain ⟨h₁, h₂, ht⟩ := ok
    exact ⟨hb.trans h₁, h₂, hp.trans ht.1, hc.trans ht.2⟩
  | idle m =>
    obtain ⟨h₁, h₂, ht⟩ := ok
    exact ⟨hb.trans h₁, h₂, hp.trans ht.1, hc.trans ht.2⟩
  | busy m =>
    obtain ⟨h₁, h₂⟩ := ok
    refine ⟨hb.trans h₁, ?_⟩
    rcases h₂ with ⟨hl, ht⟩ | ⟨hw, ht⟩ | ⟨hl, ht, hr⟩
    · exact .inl ⟨hl, hp.trans ht.1, hc.trans ht.2⟩
    · exact .inr (.inl ⟨hw.mono hM, hp.trans ht.1, hc.trans ht.2⟩)
    · exact .inr (.inr ⟨hl, ⟨hp.trans ht.1, hc.trans ht.2⟩, hr.mono hM⟩)
  | collected m =>
    obtain ⟨h₁, h₂, ht, hr⟩ := ok
    exact ⟨hb.trans h₁, h₂, ⟨hp.trans ht.1, hc.trans ht.2⟩, hr.mono hM⟩

/-- A worker that has run past the last row has done every row that is its own. -/
theorem RowsBefore.done (h : RowsBefore A L P m w M q) (hi : n ≤ w + q * P) :
    RowsDone A L P m w M := by
  intro i hn hw
  have he : w + i / P * P = i := by
    have := Nat.mod_add_div i P
    rw [Nat.mul_comm] at this
    omega
  have hq : i / P < q := by
    by_contra hq
    have := Nat.mul_le_mul_right P (Nat.le_of_not_lt hq)
    omega
  have hr := h (i / P) hq (by omega)
  rwa [he] at hr

theorem InCell.next (h : InCell A L P m w M i j) (hj : A.Upto (m + 1) i j → M (L.cell i j) = 1) :
    InCell A L P m w M i (j + 1) := by
  refine ⟨h.row, h.before, fun j' hj' hB => ?_⟩
  rcases Nat.lt_succ_iff_lt_or_eq.1 hj' with hl | he
  · exact h.cells j' hl hB
  · subst he
    exact hj hB

theorem InCell.rowsBefore (h : InCell A L P m w M i j) (hj : n ≤ j) :
    ∃ q, i + P = w + q * P ∧ RowsBefore A L P m w M q := by
  obtain ⟨q, hi, hq⟩ := h.before
  refine ⟨q + 1, by rw [Nat.add_mul]; omega, fun q' hq' hn => ?_⟩
  rcases Nat.lt_succ_iff_lt_or_eq.1 hq' with hl | he
  · exact hq q' hl hn
  · subst he
    intro j' hj' hB
    rw [← hi] at hB ⊢
    exact h.cells j' (by omega) hB

/-- All that a step of worker `w` changes: its two hand-offs and, when it is in round `m`,
one cell that the round may set. -/
structure ChildEffect (A : Adjacency n) (w : Nat) (st : Stage) (h h' : Shared L) : Prop where
  prev : h'.prev = h.prev
  born : h'.born = h.born
  out : h'.out = h.out
  sem : ∀ x, x ≠ .p2c w → x ≠ .c2p w → h'.sem x = h.sem x
  curr : h'.curr = h.curr ∨ ∃ m i j, st = .busy m ∧ i < n ∧ j < n ∧ A.Upto (m + 1) i j ∧
    h'.curr = Function.update h.curr (L.cell i j) 1

theorem ChildEffect.ones {h h' : Shared L} (e : ChildEffect A w st h h') (a : L.Addr)
    (ha : h.curr a = 1) : h'.curr a = 1 := by
  rcases e.curr with he | ⟨m, i, j, _, _, _, _, he⟩
  · rwa [he]
  · rw [he]
    exact one_of_set ha _

theorem child_goes {h h' : Shared L} (hs : (child L P w pc).run y h = some (h', pc')) :
    Goes L P w y h pc h' pc' := by
  cases pc with
  | loop k =>
    rw [child] at hs
    split at hs
    · rw [Instr.run] at hs
      split at hs
      · cases hs
      · cases hs
        exact .wait ‹_› ‹_›
    · cases hs
      exact .leave (Nat.le_of_not_lt ‹_›)
  | row k i =>
    rw [child] at hs
    split at hs
    · cases hs
      exact .row ‹_›
    · cases hs
      exact .post (Nat.le_of_not_lt ‹_›)
  | cell k i j =>
    rw [child] at hs
    split at hs
    · cases hs
      dsimp only
      split
      · exact .both ‹_› ‹_›
      · exact .noPath ‹_› ‹_›
    · cases hs
      exact .next (Nat.le_of_not_lt ‹_›)
  | both k i j =>
    cases hs
    dsimp only
    split
    · exact .path ‹_›
    · exact .zero (Decidable.not_not.mp ‹_›)
  | own k i j =>
    cases hs
    dsimp only
    split
    · exact .own ‹_›
    · exact .noOwn ‹_›
  | set k i j =>
    cases hs
    exact .set
  | done => cases hs

theorem working_step {h h' : Shared L} (hm : m < n) (hp : Agrees L h.prev (A.Upto m))
    (hw : Working A L P m w h.curr pc) (ht : Tokens h w 0 0)
    (hg : Goes L P w y h pc h' pc') :
    BusyOk A L P h' w m pc' ∧ ChildEffect A w (.busy m) h h' := by
  have look (hw' : Working A L P m w h.curr pc') :
      BusyOk A L P h w m pc' ∧ ChildEffect A w (.busy m) h h :=
    ⟨.inr (.inl ⟨hw', ht⟩), rfl, rfl, rfl, fun _ _ _ => rfl, .inl rfl⟩
  cases hg with
  | wait | leave => exact hw.elim
  | row hi =>
    obtain ⟨rfl, hq⟩ := hw
    exact look ⟨rfl, hi, hq, fun _ h0 => absurd h0 (Nat.not_lt_zero _)⟩
  | post hi =>
    obtain ⟨rfl, q, rfl, hq⟩ := hw
    refine ⟨.inr (.inr ⟨.inl rfl, ⟨?_, ?_⟩, hq.done hi⟩), rfl, rfl, rfl, ?_, .inl rfl⟩
    · exact (h.setSem_of_ne _ (by simp)).trans ht.1
    · rw [Shared.setSem_self, ht.2, Sync.release_zero]
    · exact fun x _ hx => h.setSem_of_ne _ hx
  | both hj hv =>
    obtain ⟨rfl, hc⟩ := hw
    exact look ⟨rfl, hj, hc, (hp.one_iff hm hj).mp hv⟩
  | noPath hj hv =>
    obtain ⟨rfl, hc⟩ := hw
    exact look ⟨rfl, hj, hc, fun hb => hv ((hp.one_iff hm hj).mpr hb.2)⟩
  | next hj =>
    obtain ⟨rfl, hc⟩ := hw
    exact look ⟨rfl, hc.rowsBefore hj⟩
  | path hv =>
    obtain ⟨rfl, hj, hc, hb⟩ := hw
    have hi := (hp.ne_zero_iff hc.row hm).mp hv
    exact look ⟨rfl, hj, hc, (A.upto_succ _ _ _).mpr (.inr ⟨hi, hb⟩)⟩
  | zero hv =>
    obtain ⟨rfl, hj, hc, -⟩ := hw
    exact look ⟨rfl, hj, hc, fun hb => (hp.ne_zero_iff hc.row hm).mpr hb.1 hv⟩
  | own hv =>
    obtain ⟨rfl, hj, hc, -⟩ := hw
    have hown := (hp.one_iff hc.row hj).mp hv
    exact look ⟨rfl, hj, hc, (A.upto_succ _ _ _).mpr (.inl hown)⟩
  | noOwn hv =>
    obtain ⟨rfl, hj, hc, hb⟩ := hw
    refine look ⟨rfl, hc.next fun hB => ?_⟩
    rcases (A.upto_succ _ _ _).mp hB with hB | hB
    · exact absurd ((hp.one_iff hc.row hj).mpr hB) hv
    · exact absurd hB hb
  | set =>
    obtain ⟨rfl, hj, hc, hB⟩ := hw
    refine ⟨.inr (.inl ⟨⟨rfl, ?_⟩, ht⟩), rfl, rfl, rfl, fun _ _ _ => rfl,
      .inr ⟨_, _, _, rfl, hc.row, hj, hB, rfl⟩⟩
    exact (hc.mono fun a ha => one_of_set ha _).next fun _ => Function.update_self ..

/-- Without a signal a worker before its round can do nothing but leave after the last one. -/
theorem AtLoop.step {h h' : Shared L} (ha : AtLoop n m pc) (hp : h.sem (.p2c w) = 0)
    (hg : Goes L P w y h pc h' pc') :
    AtLoop n m pc' ∧ h' = { h with exited := Function.update h.exited w true } := by
  rcases ha with rfl | ⟨_, rfl⟩
  · cases hg with
    | wait _ hne => exact absurd hp hne
    | leave hm => exact ⟨.inr ⟨hm, rfl⟩, rfl⟩
  · cases hg

theorem signalled_step {h h' : Shared L} (hm : m < n) (ht : Tokens h w 1 0)
    (hg : Goes L P w y h (.loop m) h' pc') :
    BusyOk A L P h' w m pc' ∧ ChildEffect A w (.busy m) h h' := by
  cases hg with
  | wait =>
    refine ⟨.inr (.inl ⟨⟨rfl, 0, by omega, fun _ h0 => absurd h0 (Nat.not_lt_zero _)⟩, ?_, ?_⟩),
      rfl, rfl, rfl, fun x hx _ => h.setSem_of_ne _ hx, .inl rfl⟩
    · rw [Shared.setSem_self, ht.1]
    · exact (h.setSem_of_ne _ (by simp)).trans ht.2
  | leave hle => exact absurd hm (Nat.not_lt.mpr hle)

/-- Every step of a worker keeps it where the parent's program point says it is. -/
theorem child_step {h h' : Shared L} (ok : WorkerOk A L P h w pc st)
    (hbusy : ∀ m, st = .busy m → m < n ∧ Agrees L h.prev (A.Upto m)) (hb : h.born w = true)
    (hs : (child L P w pc).run y h = some (h', pc')) :
    WorkerOk A L P h' w pc' st ∧ ChildEffect A w st h h' := by
  have hg := child_goes hs
  cases st with
  | unborn => exact absurd (hb.symm.trans ok.1) (by simp)
  | idle m =>
    obtain ⟨hb, ha, ht⟩ := ok
    obtain ⟨ha', rfl⟩ := ha.step ht.1 hg
    exact ⟨⟨hb, ha', ht⟩, rfl, rfl, rfl, fun _ _ _ => rfl, .inl rfl⟩
  | busy m =>
    obtain ⟨hm, hp⟩ := hbusy m rfl
    obtain ⟨hb, hw⟩ := ok
    rcases hw with ⟨rfl, ht⟩ | ⟨hw, ht⟩ | ⟨ha, ht, hr⟩
    · obtain ⟨hok, he⟩ := signalled_step hm ht hg
      exact ⟨⟨he.born ▸ hb, hok⟩, he⟩
    · obtain ⟨hok, he⟩ := working_step hm hp hw ht hg
      exact ⟨⟨he.born ▸ hb, hok⟩, he⟩
    · obtain ⟨ha', rfl⟩ := ha.step ht.1 hg
      exact ⟨⟨hb, .inr (.inr ⟨ha', ht, hr⟩)⟩, rfl, rfl, rfl, fun _ _ _ => rfl, .inl rfl⟩
  | collected m =>
    obtain ⟨hb, ha, ht, hr⟩ := ok
    obtain ⟨ha', rfl⟩ := ha.step ht.1 hg
    exact ⟨⟨hb, ha', ht, hr⟩, rfl, rfl, rfl, fun _ _ _ => rfl, .inl rfl⟩

/-- A worker is busy only in the round its parent is in, before the copy. -/
theorem ParentOk.busy {h : Shared L} (ok : ParentOk A L h pc) (hst : stage n pc w = .busy m) :
    m < n ∧ Agrees L h.prev (A.Upto m) := by
  cases pc <;> simp only [stage] at hst <;> try cases hst
  case fork k => split at hst <;> cases hst
  case signal m' k =>
    split at hst <;> cases hst
    exact ⟨ok.1, ok.2.1⟩
  case await m' k =>
    split at hst <;> cases hst
    exact ⟨ok.1, ok.2.1⟩

theorem ParentOk.child {h h' : Shared L} (ok : ParentOk A L h pc)
    (e : ChildEffect A w (stage n pc w) h h') : ParentOk A L h' pc := by
  obtain ⟨hp, _, ho, _, hc⟩ := e
  have idle (hst : ∀ m, stage n pc w ≠ .busy m) : h'.curr = h.curr := by
    rcases hc with hc | ⟨m, _, _, hb, _⟩
    · exact hc
    · exact absurd hb (hst m)
  have busy {m : Nat} (hok : Below L h.curr (A.Upto (m + 1)))
      (hst : ∀ m', stage n pc w = .busy m' → m' = m) :
      Below L h'.curr (A.Upto (m + 1)) := by
    rcases hc with hc | ⟨m', i, j, hb, _, hj, hB, hc⟩
    · rwa [hc]
    · obtain rfl := hst m' hb
      rw [hc]
      exact hok.set hj hB
  cases pc with
  | load y z => simpa only [ParentOk, hp, ho, idle (by simp [stage])] using ok
  | fork k =>
    have hi : h'.curr = h.curr := idle fun m => by simp only [stage]; split <;> simp
    simpa only [ParentOk, hp, ho, hi] using ok
  | round m => simpa only [ParentOk, hp, ho, idle (by simp [stage])] using ok
  | signal m k =>
    obtain ⟨hm, hA, hB, hO⟩ := ok
    refine ⟨hm, hp ▸ hA, busy hB fun m' hst => ?_, ho ▸ hO⟩
    simp only [stage] at hst
    split at hst
    · cases hst; rfl
    · cases hst
  | await m k =>
    obtain ⟨hm, hA, hB, hO⟩ := ok
    refine ⟨hm, hp ▸ hA, busy hB fun m' hst => ?_, ho ▸ hO⟩
    simp only [stage] at hst
    split at hst
    · cases hst
    · cases hst; rfl
  | copy m y z => simpa only [ParentOk, hp, ho, idle (by simp [stage])] using ok
  | store m y z v => simpa only [ParentOk, hp, ho, idle (by simp [stage])] using ok
  | join k => simpa only [ParentOk, hp, ho, idle (by simp [stage])] using ok
  | destroyP2c k => simpa only [ParentOk, hp, ho, idle (by simp [stage])] using ok
  | destroyC2p k => simpa only [ParentOk, hp, ho, idle (by simp [stage])] using ok
  | print y z => simpa only [ParentOk, hp, ho, idle (by simp [stage])] using ok
  | done => simpa only [ParentOk, hp, ho, idle (by simp [stage])] using ok

theorem Inv.child {h h' : Shared L} (inv : Inv A L P h pc cs) (hw : w < P)
    (hb : h.born w = true) (hs : (child L P w (cs w)).run y h = some (h', c)) :
    Inv A L P h' pc (Function.update cs w c) := by
  obtain ⟨hok, he⟩ := child_step (inv.worker w hw) (fun _ => inv.parent.busy) hb hs
  refine ⟨inv.parent.child he, fun v hv => ?_⟩
  by_cases hvw : v = w
  · subst hvw
    rwa [Function.update_self]
  · rw [Function.update_of_ne hvw]
    exact (inv.worker v hv).frame (congrFun he.born v) (he.sem _ (by simpa using hvw) (by simp))
      (he.sem _ (by simp) (by simpa using hvw)) he.ones

/-- A parent step that touches one hand-off or one birth flag moves one worker to its next
stage and leaves the others where they were. -/
theorem Inv.move {h h' : Shared L} (inv : Inv A L P h pc cs) (k : Nat) (hpar : ParentOk A L h' pc')
    (hk : WorkerOk A L P h' k (cs k) (stage n pc' k))
    (hst : ∀ w, w ≠ k → stage n pc' w = stage n pc w)
    (hborn : ∀ w, w ≠ k → h'.born w = h.born w)
    (hsem : ∀ w, w ≠ k → h'.sem (.p2c w) = h.sem (.p2c w) ∧ h'.sem (.c2p w) = h.sem (.c2p w))
    (hcurr : h'.curr = h.curr) : Inv A L P h' pc' cs := by
  refine ⟨hpar, fun w hw => ?_⟩
  by_cases hwk : w = k
  · subst hwk
    exact hk
  · rw [hst w hwk]
    exact (inv.worker w hw).frame (hborn w hwk) (hsem w hwk).1 (hsem w hwk).2 fun _ ha => hcurr ▸ ha

theorem Inv.pass {h h' : Shared L} (inv : Inv A L P h pc cs) (hpar : ParentOk A L h' pc')
    (hst : ∀ w, w < P → WorkerOk A L P h w (cs w) (stage n pc w) →
      WorkerOk A L P h w (cs w) (stage n pc' w))
    (hborn : h'.born = h.born) (hsem : h'.sem = h.sem) (hcurr : h'.curr = h.curr) :
    Inv A L P h' pc' cs :=
  ⟨hpar, fun w hw => (hst w hw (inv.worker w hw)).frame (congrFun hborn w) (congrFun hsem _)
    (congrFun hsem _) fun _ ha => hcurr ▸ ha⟩

theorem Inv.fork {h : Shared L} (inv : Inv A L P h (.fork k) cs) (hk : k < P) :
    Inv A L P { h with born := Function.update h.born k true } (.fork (k + 1)) cs := by
  have ok := inv.worker k hk
  simp only [stage, Nat.lt_irrefl, ↓reduceIte, WorkerOk] at ok
  refine inv.move k inv.parent ?_ ?_ ?_ (fun _ _ => ⟨rfl, rfl⟩) rfl
  · simp only [stage, Nat.lt_succ_self, ↓reduceIte]
    exact ⟨Function.update_self .., .inl ok.2.1, ok.2.2⟩
  · intro w hw
    have : w < k + 1 ↔ w < k := by omega
    simp only [stage, this]
  · exact fun w hw => Function.update_of_ne hw ..

theorem Inv.signal {h : Shared L} (inv : Inv A L P h (.signal m k) cs) (hk : k < P) (y : Sync) :
    Inv A L P (h.setSem (.p2c k) (y.release (h.sem (.p2c k)))) (.signal m (k + 1)) cs := by
  have ok := inv.worker k hk
  simp only [stage, Nat.lt_irrefl, ↓reduceIte, WorkerOk] at ok
  obtain ⟨hb, ha, ht⟩ := ok
  have hl : cs k = .loop m := by
    rcases ha with ha | ⟨ha, _⟩
    · exact ha
    · have := inv.parent.1
      omega
  refine inv.move k inv.parent ?_ ?_ (fun _ _ => rfl) ?_ rfl
  · simp only [stage, Nat.lt_succ_self, ↓reduceIte]
    refine ⟨hb, .inl ⟨hl, ?_, ?_⟩⟩
    · rw [Shared.setSem_self, ht.1, Sync.release_zero]
    · exact (h.setSem_of_ne _ (by simp)).trans ht.2
  · intro w hw
    have : w < k + 1 ↔ w < k := by omega
    simp only [stage, this]
  · exact fun w hw => ⟨h.setSem_of_ne _ (by simpa using hw), h.setSem_of_ne _ (by simp)⟩

/-- The parent gets past a worker only after the worker's last row of the round. -/
theorem Inv.await {h : Shared L} (inv : Inv A L P h (.await m k) cs) (hk : k < P)
    (hc : h.sem (.c2p k) ≠ 0) :
    Inv A L P (h.setSem (.c2p k) (h.sem (.c2p k) - 1)) (.await m (k + 1)) cs := by
  have ok := inv.worker k hk
  simp only [stage, Nat.lt_irrefl, ↓reduceIte, WorkerOk] at ok
  obtain ⟨hb, hw⟩ := ok
  rcases hw with ⟨_, ht⟩ | ⟨_, ht⟩ | ⟨ha, ht, hr⟩
  · exact absurd ht.2 hc
  · exact absurd ht.2 hc
  refine inv.move k inv.parent ?_ ?_ (fun _ _ => rfl) ?_ rfl
  · simp only [stage, Nat.lt_succ_self, ↓reduceIte]
    refine ⟨hb, ha, ⟨?_, ?_⟩, hr⟩
    · exact (h.setSem_of_ne _ (by simp)).trans ht.1
    · rw [Shared.setSem_self, ht.2]
  · intro w hw
    have : w < k + 1 ↔ w < k := by omega
    simp only [stage, this]
  · exact fun w hw => ⟨h.setSem_of_ne _ (by simp), h.setSem_of_ne _ (by simpa using hw)⟩

/-- When every worker is collected, every row of the round is complete. -/
theorem Inv.copy {h : Shared L} (inv : Inv A L P h (.await m k) cs) (hP : 0 < P) (hk : P ≤ k) :
    Inv A L P h (.copy m 0 0) cs := by
  have hst (w : Nat) (hw : w < P) : stage n (.await m k) w = .collected m := by
    simp only [stage, show w < k by omega, ↓reduceIte]
  refine inv.pass ⟨inv.parent.1, .start _ _ _, ?_, inv.parent.2.2.2⟩ (fun w hw ok => ?_)
    rfl rfl rfl
  · apply inv.parent.2.2.1.agrees
    intro i hi
    have hlt := Nat.mod_lt i hP
    have ok := inv.worker (i % P) hlt
    rw [hst _ hlt] at ok
    exact ok.2.2.2 i hi rfl
  · rwa [hst w hw] at ok

theorem rounds_goes {h h' : Shared L} {td : ParentPc}
    (hs : (Partition.rounds L P td pc).run y h = some (h', pc')) :
    RoundGoes L P td y h pc h' pc' := by
  cases pc with
  | fork k =>
    rw [Partition.rounds] at hs
    split at hs
    · cases hs
      exact .fork ‹_›
    · cases hs
      exact .forked (Nat.le_of_not_lt ‹_›)
  | round m =>
    rw [Partition.rounds] at hs
    split at hs
    · cases hs
      exact .enter ‹_›
    · cases hs
      exact .ended (Nat.le_of_not_lt ‹_›)
  | signal m k =>
    rw [Partition.rounds] at hs
    split at hs
    · cases hs
      exact .signal ‹_›
    · cases hs
      exact .signalled (Nat.le_of_not_lt ‹_›)
  | await m k =>
    rw [Partition.rounds] at hs
    split at hs
    · rw [Instr.run] at hs
      split at hs
      · cases hs
      · cases hs
        exact .await ‹_› ‹_›
    · cases hs
      exact .awaited (Nat.le_of_not_lt ‹_›)
  | copy m i j =>
    rw [Partition.rounds] at hs
    split at hs
    · split at hs
      · cases hs
        exact .read ‹_› ‹_›
      · cases hs
        exact .row ‹_› (Nat.le_of_not_lt ‹_›)
    · cases hs
      exact .copied (Nat.le_of_not_lt ‹_›)
  | store m i j v =>
    cases hs
    exact .store
  | _ => cases hs

theorem Inv.rounds {h h' : Shared L} (inv : Inv A L P h pc cs) (td : ParentPc) (hn : 0 < n)
    (hP : 0 < P)
    (htd : ∀ h : Shared L, Agrees L h.prev (A.Upto n) → Agrees L h.curr (A.Upto n) →
      h.out = [] → ParentOk A L h td) (hidle : ∀ w, stage n td w = .idle n)
    (hs : (Partition.rounds L P td pc).run y h = some (h', pc')) : Inv A L P h' pc' cs := by
  cases rounds_goes hs with
  | fork hk => exact inv.fork hk
  | forked hk =>
    obtain ⟨hp, hc, ho⟩ := inv.parent
    refine inv.pass ⟨Nat.zero_le _, hp, hc.congr fun i j => ?_, ho⟩ (fun w hw ok => ?_)
      rfl rfl rfl
    · simp only [Nat.lt_irrefl, false_and]
    · simpa only [stage, Nat.lt_of_lt_of_le hw hk, ↓reduceIte] using ok
  | enter hlt =>
    obtain ⟨hm, hp, hc, ho⟩ := inv.parent
    refine inv.pass ⟨hlt, hp, hc.below fun i j hB => (A.upto_succ _ i j).mpr (.inl hB.2), ho⟩
      (fun w _ ok => ?_) rfl rfl rfl
    simpa only [stage, Nat.not_lt_zero, ↓reduceIte] using ok
  | ended hle =>
    obtain ⟨hm, hp, hc, ho⟩ := inv.parent
    obtain rfl := Nat.le_antisymm hm hle
    refine inv.pass (htd h hp (hc.congr fun i j => ?_) ho) (fun w _ ok => ?_) rfl rfl rfl
    · simp only [hn, true_and]
    · rw [hidle w]
      exact ok
  | signal hk => exact inv.signal hk y
  | signalled hk =>
    refine inv.pass inv.parent (fun w hw ok => ?_) rfl rfl rfl
    simpa only [stage, Nat.lt_of_lt_of_le hw hk, Nat.not_lt_zero, ↓reduceIte] using ok
  | await hk hc => exact inv.await hk hc
  | awaited hk => exact inv.copy hP hk
  | read hy hz =>
    obtain ⟨hm, hp, hc, ho⟩ := inv.parent
    exact inv.pass ⟨hm, hy, hz, hp, hc, ho, hc _ _ hy hz⟩ (fun _ _ ok => ok) rfl rfl rfl
  | row hy hz =>
    obtain ⟨hm, hp, hc, ho⟩ := inv.parent
    exact inv.pass ⟨hm, hp.row hz, hc, ho⟩ (fun _ _ ok => ok) rfl rfl rfl
  | copied hy =>
    obtain ⟨hm, hp, hc, ho⟩ := inv.parent
    refine inv.pass ⟨hm, hp.agrees hy, hc.congr fun i j => ?_, ho⟩ (fun w _ ok => ?_)
      rfl rfl rfl
    · simp only [Nat.succ_pos, true_and]
    · exact ⟨ok.1, ok.2.1, ok.2.2.1⟩
  | store =>
    obtain ⟨hm, hy, hz, hp, hc, ho, hv⟩ := inv.parent
    exact inv.pass ⟨hm, hp.cell hz hv, hc, ho⟩ (fun _ _ ok => ok) rfl rfl rfl

end

end NoblesseOblige.Wtc.Partition
