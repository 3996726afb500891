import NoblesseOblige.Wtc.HandedOut
import NoblesseOblige.Wtc.PartitionClosure

namespace NoblesseOblige.Wtc
set_option autoImplicit true

/-- What the parties share besides the semaphores and mutexes. -/
inductive Word (L : Layout n)
  | prev (a : L.Addr)
  | curr (a : L.Addr)
  | queue
  | iterator

/-- The word that an instruction accesses, and whether it writes it. -/
def Instr.access : Instr L Pc → Option (Word L × Bool)
  | .readPrev a _ | .printPrev a _ => some (.prev a, false)
  | .readCurr a _ | .printCurr a _ => some (.curr a, false)
  | .writePrev a _ _ => some (.prev a, true)
  | .writeCurr a _ _ => some (.curr a, true)
  | .readQueue _ => some (.queue, false)
  | .writeQueue _ _ => some (.queue, true)
  | .readIterator _ => some (.iterator, false)
  | .writeIterator _ _ => some (.iterator, true)
  | _ => none

/-- What the parent (`none`) or a worker that has been created accesses next. -/
def Program.access (M : Program L) (s : State M) : Option Nat → Option (Word L × Bool)
  | none => (M.parent s.parent).access
  | some w =>
    if w < M.workers ∧ s.shared.born w = true then (M.child w (s.child w)).access else none

/-- One party is about to write a word and another one to access it, too; `both` tells whether that
is another write. -/
structure Program.Race (M : Program L) (s : State M) (p q : Option Nat) (x : Word L)
    (both : Bool) : Prop where
  two : p ≠ q
  writes : M.access s p = some (x, true)
  accesses : M.access s q = some (x, both)

section
variable {n : Nat} {L : Layout n} {M : Program L} {s : State M} {x : Word L} {b : Bool}
variable {p q : Option Nat}

theorem Program.access_worker (h : M.access s (some w) = some (x, b)) :
    w < M.workers ∧ (M.child w (s.child w)).access = some (x, b) := by
  rw [Program.access] at h
  split at h
  · rename_i hw
    exact ⟨hw.1, h⟩
  · cases h

/-- The parent writes, or a worker writes and the other party is the parent or a worker. -/
theorem Program.Race.cases (h : M.Race s p q x b) :
    (∃ w, w < M.workers ∧ q = some w ∧ (M.parent s.parent).access = some (x, true) ∧
      (M.child w (s.child w)).access = some (x, b)) ∨
    (∃ w, w < M.workers ∧ (M.parent s.parent).access = some (x, b) ∧
      (M.child w (s.child w)).access = some (x, true)) ∨
    ∃ v w, v ≠ w ∧ v < M.workers ∧ w < M.workers ∧ q = some w ∧
      (M.child v (s.child v)).access = some (x, true) ∧
      (M.child w (s.child w)).access = some (x, b) := by
  obtain ⟨hne, hp, hq⟩ := h
  cases p with
  | none =>
    cases q with
    | none => exact absurd rfl hne
    | some w =>
      obtain ⟨hw, hq⟩ := access_worker hq
      exact .inl ⟨w, hw, rfl, hp, hq⟩
  | some v =>
    obtain ⟨hv, hp⟩ := access_worker hp
    cases q with
    | none => exact .inr (.inl ⟨v, hv, hq, hp⟩)
    | some w =>
      obtain ⟨hw, hq⟩ := access_worker hq
      exact .inr (.inr ⟨v, w, fun he => hne (congrArg some he), hv, hw, rfl, hp, hq⟩)

/-- There is no race where the parent keeps still while a worker accesses a word, and what one
worker writes no other accesses. -/
theorem Program.not_race
    (hparent : ∀ w x b, w < M.workers → (M.child w (s.child w)).access = some (x, b) →
      (M.parent s.parent).access = none)
    (hchild : ∀ v w x b, v < M.workers → w < M.workers →
      (M.child v (s.child v)).access = some (x, true) →
      (M.child w (s.child w)).access = some (x, b) → v = w) : ¬ M.Race s p q x b := by
  intro h
  rcases h.cases with ⟨w, hw, -, hp, hc⟩ | ⟨w, hw, hp, hc⟩ | ⟨v, w, hne, hv, hw, -, hp, hc⟩
  · rw [hparent w x b hw hc] at hp
    cases hp
  · rw [hparent w x true hw hc] at hp
    cases hp
  · exact hne (hchild v w x b hv hw hp hc)

end

namespace Partition

section
variable {n : Nat} {A : Adjacency n} {L : Layout n} {P m v w : Nat} {x : Word L} {b : Bool}

/-- What a worker may do to the shared words: look at the old matrix, and set entries of its own
rows in the new one. -/
inductive Uses (L : Layout n) (P w : Nat) : Word L → Bool → Prop
  | look (a : L.Addr) : Uses L P w (.prev a) false
  | mark (hi : i % P = w) (hj : j < n) : Uses L P w (.curr (L.cell i j)) true

theorem AtLoop.access (ha : AtLoop n m pc) : (child L P w pc).access = none := by
  rcases ha with rfl | ⟨-, rfl⟩
  · rw [child]
    split
    · rfl
    · rfl
  · rfl

theorem Working.uses {M : L.Addr → Int} (hw : w < P) (h : Working A L P m w M pc)
    (ha : (child L P w pc).access = some (x, b)) : Uses L P w x b := by
  cases pc with
  | loop k | done => exact h.elim
  | row k i =>
    rw [child] at ha
    split at ha
    · cases ha
    · cases ha
  | cell k i j =>
    rw [child] at ha
    split at ha
    · cases ha
      exact .look _
    · cases ha
  | both k i j | own k i j =>
    cases ha
    exact .look _
  | set k i j =>
    obtain ⟨-, hj, hc, -⟩ := h
    obtain ⟨q, rfl, -⟩ := hc.before
    cases ha
    apply Uses.mark _ hj
    rw [Nat.add_mul_mod_self_right, Nat.mod_eq_of_lt hw]

/-- A worker that accesses a shared word has been signalled and not been collected. -/
theorem Inv.uses {h : Shared L} (inv : Inv A L P h pc cs) (hw : w < P)
    (ha : (Partition.child L P w (cs w)).access = some (x, b)) :
    (∃ m, stage n pc w = .busy m) ∧ Uses L P w x b := by
  have ok := inv.worker w hw
  have loop {m : Nat} (hl : AtLoop n m (cs w)) :
      (∃ m, stage n pc w = .busy m) ∧ Uses L P w x b := by
    rw [hl.access] at ha
    cases ha
  cases hst : stage n pc w with
  | unborn =>
    rw [hst] at ok
    exact hst ▸ loop (.inl ok.2.1)
  | idle m =>
    rw [hst] at ok
    exact hst ▸ loop ok.2.1
  | busy m =>
    rw [hst] at ok
    rcases ok.2 with ⟨hl, -⟩ | ⟨hwork, -⟩ | ⟨hl, -⟩
    · exact hst ▸ loop (.inl hl)
    · exact ⟨⟨m, rfl⟩, hwork.uses hw ha⟩
    · exact hst ▸ loop hl
  | collected m =>
    rw [hst] at ok
    exact hst ▸ loop ok.2.1

/-- While a worker is busy the parent signals or waits. -/
theorem busy_parent (hst : stage n pc w = .busy m) : ∃ k, pc = .signal m k ∨ pc = .await m k := by
  cases pc with
  | signal m' k =>
    rw [stage] at hst
    split at hst
    · cases hst
      exact ⟨k, .inl rfl⟩
    · cases hst
  | await m' k =>
    rw [stage] at hst
    split at hst
    · cases hst
    · cases hst
      exact ⟨k, .inr rfl⟩
  | fork k =>
    rw [stage] at hst
    split at hst
    · cases hst
    · cases hst
  | _ => cases hst

theorem rounds_access (td : ParentPc) (hst : stage n pc w = .busy m) :
    (rounds L P td pc).access = none := by
  obtain ⟨k, rfl | rfl⟩ := busy_parent hst
  · rw [rounds]
    split
    · rfl
    · rfl
  · rw [rounds]
    split
    · rfl
    · rfl

theorem procParent_access (hst : stage n pc w = .busy m) :
    (procParent L P A pc).access = none := by
  have ha := rounds_access (L := L) (P := P) (.destroyP2c 0) hst
  obtain ⟨k, rfl | rfl⟩ := busy_parent hst
  · exact ha
  · exact ha

theorem thrParent_access (hst : stage n pc w = .busy m) : (thrParent L P pc).access = none := by
  have ha := rounds_access (L := L) (P := P) (.join 0) hst
  obtain ⟨k, rfl | rfl⟩ := busy_parent hst
  · exact ha
  · exact ha

/-- What one worker writes no other touches. -/
theorem Uses.apart (hv : Uses L P v x true) (hw : Uses L P w x b) : v = w := by
  generalize hx : x = x' at hw
  cases hv with
  | mark hi hj =>
    cases hw with
    | look a => cases hx
    | mark hi' hj' =>
      obtain ⟨rfl, -⟩ := L.cell_inj hj hj' (Word.curr.inj hx)
      exact hi.symm.trans hi'

end

/-- Neither program has a race on the matrices, nor on anything else. -/
theorem partition_race_free (n P : Nat) (hn : 1 ≤ n) (A : Adjacency n) :
    (∀ s p q x b, (wtcProc n P A).system.Reachable s → ¬ (wtcProc n P A).Race s p q x b) ∧
    ∀ s p q x b, (wtcThr n P A).system.Reachable s → ¬ (wtcThr n P A).Race s p q x b := by
  constructor
  · intro s p q x b hr
    have inv {w : Nat} (hw : w < P) := wtcProc_inv hn (Nat.zero_lt_of_lt hw) hr
    apply Program.not_race
    · intro w x b hw hc
      obtain ⟨⟨m, hst⟩, -⟩ := (inv hw).uses hw hc
      exact procParent_access hst
    · intro v w x b hv hw hcv hcw
      exact ((inv hv).uses hv hcv).2.apart ((inv hw).uses hw hcw).2
  · intro s p q x b hr
    have inv {w : Nat} (hw : w < P) := wtcThr_inv hn (Nat.zero_lt_of_lt hw) hr
    apply Program.not_race
    · intro w x b hw hc
      obtain ⟨⟨m, hst⟩, -⟩ := (inv hw).uses hw hc
      exact thrParent_access hst
    · intro v w x b hv hw hcv hcw
      exact ((inv hv).uses hv hcv).2.apart ((inv hw).uses hw hcw).2

/-- The parent signals, and both workers come to the entries that they set first. -/
def setting : List (Option Nat) :=
  .replicate 30 none ++ .replicate 7 (some 0) ++ .replicate 4 (some 1)

theorem partition_race_free_setting :
    (((wtcProc 2 2 (.cycle 2)).play setting).child 0 = ChildPc.set 0 0 1 ∧
      ((wtcProc 2 2 (.cycle 2)).play setting).child 1 = ChildPc.set 0 1 0 ∧
      ∀ p q x b, ¬ (wtcProc 2 2 (.cycle 2)).Race ((wtcProc 2 2 (.cycle 2)).play setting) p q x b) ∧
    ∀ p q x b, ¬ (wtcThr 2 2 (.cycle 2)).Race ((wtcThr 2 2 (.cycle 2)).play setting) p q x b := by
  have free := partition_race_free 2 2 (by decide) (.cycle 2)
  refine ⟨⟨by decide +kernel, by decide +kernel, fun p q x b => ?_⟩, fun p q x b => ?_⟩
  · exact free.1 _ p q x b (Program.play_reachable _ _)
  · exact free.2 _ p q x b (Program.play_reachable _ _)

end Partition

namespace Bag

section
variable {n : Nat} {A : Adjacency n} {L : Layout n} {first : Bool} {P v w : Nat}
variable {holds : ParentPc → Prop} {x : Word L} {b : Bool}

/-- The worker is at the test of one of its loops. -/
def Testing : ChildPc → Prop
  | .outer | .recheck | .inner => True
  | _ => False

/-- What a worker may do to the shared words, by where it stands: access the matrices only in a
round, write only its own row, move the queue under the lock. -/
inductive Uses (L : Layout n) (pc : ChildPc) : Word L → Bool → Prop
  | look (hd : ¬ Draining pc) (a : L.Addr) : Uses L pc (.prev a) false
  | mark (hd : ¬ Draining pc) (hr : Owns pc r) (hj : j < n) : Uses L pc (.curr (L.cell r j)) true
  | peek (hp : Testing pc ∨ Crit pc) : Uses L pc .queue false
  | bump (hc : Crit pc) : Uses L pc .queue true
  | round (hp : Testing pc ∨ ¬ Draining pc) : Uses L pc .iterator false

theorem taking_uses (hset : ∀ r j, pc = .set r j → j < n)
    (ha : (taking L w pc).access = some (x, b)) : Uses L pc x b := by
  cases pc with
  | inner =>
    cases ha
    exact .peek (.inl trivial)
  | dequeue | bump row =>
    cases ha
    exact .peek (.inr trivial)
  | bumped row q =>
    cases ha
    exact .bump trivial
  | set row j =>
    cases ha
    exact .mark id rfl (hset row j rfl)
  | _ => cases ha

theorem thread_uses (hset : ∀ r j, pc = .set r j → j < n)
    (ha : (thread L w pc).access = some (x, b)) : Uses L pc x b := by
  cases pc with
  | outer | recheck =>
    cases ha
    exact .round (.inl trivial)
  | head row j | via row j =>
    cases ha
    exact .round (.inr id)
  | unlock row => cases ha
  | cell row j =>
    rw [thread] at ha
    split at ha
    · cases ha
      exact .look id _
    · cases ha
  | col row j k | row row j k =>
    cases ha
    exact .look id _
  | _ => exact taking_uses (w := w) hset ha

theorem childProcess_uses (hset : ∀ r j, pc = .set r j → j < n)
    (ha : (childProcess L w pc).access = some (x, b)) : Uses L pc x b := by
  cases pc with
  | outer =>
    cases ha
    exact .peek (.inl trivial)
  | recheck =>
    cases ha
    exact .round (.inl trivial)
  | via row j =>
    cases ha
    exact .round (.inr id)
  | unlock row => cases ha
  | cell row j =>
    rw [childProcess] at ha
    split at ha
    · cases ha
      exact .round (.inr id)
    · cases ha
  | col row j k | row row j k | own row j =>
    cases ha
    exact .look id _
  | _ => exact taking_uses (w := w) hset ha

theorem Inv.uses {h : Shared L} (inv : Inv A L first P holds h pc cs) (hw : w < P)
    (ha : (body first L w (cs w)).access = some (x, b)) : Uses L (cs w) x b := by
  have hset : ∀ r j, cs w = .set r j → j < n := by
    intro r j hcs
    have hd : ¬ Draining (cs w) := by
      rw [hcs]
      exact id
    have hwork := ((inv.worker w hw).working hd).2
    rw [hcs] at hwork
    exact hwork.1
  cases first with
  | true => exact thread_uses hset ha
  | false => exact childProcess_uses hset ha

/-- What a parent does to the shared words, all of it while no worker is busy. -/
inductive ParentUses (L : Layout n) (pc : ParentPc) : Word L → Bool → Prop
  | prev (hq : ∀ w, stage pc w ≠ .busy) (a : L.Addr) (b : Bool) : ParentUses L pc (.prev a) b
  | curr (hq : ∀ w, stage pc w ≠ .busy) (a : L.Addr) : ParentUses L pc (.curr a) false
  | reset (hq : ∀ w, stage pc w ≠ .busy) : ParentUses L pc .queue true
  | round (hq : ∀ w, stage pc w ≠ .busy) (b : Bool) : ParentUses L pc .iterator b

theorem rounds_uses (init enter td : ParentPc)
    (ha : (Bag.rounds L P init enter td pc).access = some (x, b)) : ParentUses L pc x b := by
  cases pc with
  | test | step | stepped k =>
    cases ha
    exact .round (fun _ => by simp [stage]) _
  | copy y z =>
    rw [Bag.rounds] at ha
    split at ha
    · split at ha
      · cases ha
        exact .curr (fun _ => by simp [stage]) _
      · cases ha
    · cases ha
  | store y z v =>
    cases ha
    exact .prev (fun _ => by simp [stage]) _ _
  | fork k | signal k | await k =>
    rw [Bag.rounds] at ha
    split at ha
    · cases ha
    · cases ha
  | _ => cases ha

theorem printLoop_uses {emit : L.Addr → ParentPc → Instr L ParentPc} (y z : Nat)
    (he : ∀ a next, (emit a next).access = some (x, b) → ParentUses L (.print y z) x b)
    (ha : (printLoop L emit .print .done y z).access = some (x, b)) :
    ParentUses L (.print y z) x b := by
  rw [printLoop] at ha
  split at ha
  · split at ha
    · exact he _ _ ha
    · cases ha
  · cases ha

theorem procParent_uses (ha : (procParent L P A pc).access = some (x, b)) :
    ParentUses L pc x b := by
  cases pc with
  | load y z =>
    rw [procParent] at ha
    split at ha
    · split at ha
      · cases ha
        exact .prev (fun _ => by simp [stage]) _ _
      · cases ha
    · cases ha
  | reset =>
    cases ha
    exact .reset fun _ => by simp [stage]
  | destroyP2c k =>
    rw [procParent] at ha
    split at ha
    · cases ha
    · cases ha
  | destroyC2p k => cases ha
  | print y z =>
    apply printLoop_uses y z _ ha
    intro a next he
    cases he
    exact .curr (fun _ => by simp [stage]) _
  | _ => exact rounds_uses (P := P) .test .reset (.destroyP2c 0) ha

theorem thrParent_uses (ha : (thrParent L P pc).access = some (x, b)) : ParentUses L pc x b := by
  cases pc with
  | start =>
    cases ha
    exact .round (fun _ => by simp [stage]) _
  | reset =>
    cases ha
    exact .reset fun _ => by simp [stage]
  | release k | destroyP2c k =>
    rw [thrParent] at ha
    split at ha
    · cases ha
    · cases ha
  | lockQueue | unlockQueue | destroyC2p k | join k => cases ha
  | print y z =>
    apply printLoop_uses y z _ ha
    intro a next he
    cases he
    exact .prev (fun _ => by simp [stage]) _ _
  | _ => exact rounds_uses (P := P) .start .lockQueue (.release 0) ha

theorem Inv.rests {h : Shared L} (inv : Inv A L first P holds h pc cs) (hw : w < P)
    (hq : ∀ w, stage pc w ≠ .busy) : Draining (cs w) := by
  by_contra hd
  exact hq w ((inv.worker w hw).working hd).1

theorem ParentUses.quiet (hp : ParentUses L pc x b) : ∀ w, stage pc w ≠ .busy := by
  cases hp with
  | prev hq | curr hq | reset hq | round hq => exact hq

/-- When the parent writes what a worker reads, the worker is at a test. -/
theorem ParentUses.meets (hd : Draining c) (hp : ParentUses L pc x true) (hc : Uses L c x b) :
    (x = .queue ∨ x = .iterator) ∧ b = false ∧ Testing c := by
  cases hc with
  | look hn | mark hn => exact absurd hd hn
  | peek ht => exact ⟨.inl rfl, rfl, ht.resolve_right hd.not_crit⟩
  | bump hcrit => exact absurd hcrit hd.not_crit
  | round ht => exact ⟨.inr rfl, rfl, ht.resolve_right (not_not_intro hd)⟩

theorem Uses.not_parent (hd : Draining c) (hc : Uses L c x true) : False := by
  cases hc with
  | mark hn => exact hn hd
  | bump hcrit => exact hd.not_crit hcrit

/-- When one worker writes what another accesses, it is the queue, and the other one is at a
test. -/
theorem Uses.meets {h : Shared L} {e : Ledger} (inv : Inv A L first P holds h pc cs)
    (k : Kept n P h pc cs e) (hv : v < P) (hw : w < P) (hne : v ≠ w)
    (hcv : Uses L (cs v) x true) (hcw : Uses L (cs w) x b) :
    x = .queue ∧ b = false ∧ Testing (cs w) := by
  have lock (hc : Crit (cs v)) : ¬ Crit (cs w) := by
    intro hc'
    obtain ⟨o, -, -, ho⟩ := inv.lock
    have hov := (ho v hv).mp hc
    have how := (ho w hw).mp hc'
    exact hne (Holder.worker.inj (hov.symm.trans how))
  generalize hx : x = x' at hcw
  cases hcv with
  | mark hd hr hj =>
    cases hcw with
    | mark hd' hr' hj' =>
      obtain ⟨rfl, -⟩ := L.cell_inj hj hj' (Word.curr.inj hx)
      exact absurd (k.taken_once (k.owns v hv _ hr).1 (k.owns w hw _ hr').1) hne
    | _ => cases hx
  | bump hc =>
    cases hcw with
    | peek ht => exact ⟨rfl, rfl, ht.resolve_right (lock hc)⟩
    | bump hc' => exact absurd hc' (lock hc)
    | _ => cases hx

end

/-- The races of both programs are on the queue and on the number of the round, and what they
spoil is at most the test of a worker's loop: each row is taken, and each entry computed, from
words that nobody else writes. -/
theorem bag_races (n P : Nat) (hn : 1 ≤ n) (A : Adjacency n) :
    (∀ s p q x b, (wtcBtproc n P A).system.Reachable s → (wtcBtproc n P A).Race s p q x b →
      (x = .queue ∨ x = .iterator) ∧ b = false ∧ ∃ w, q = some w ∧ Testing (s.child w)) ∧
    ∀ s p q x b, (wtcBtthr n P A).system.Reachable s → (wtcBtthr n P A).Race s p q x b →
      (x = .queue ∨ x = .iterator) ∧ b = false ∧ ∃ w, q = some w ∧ Testing (s.child w) := by
  constructor
  · intro s p q x b hr hrace
    have inv {w : Nat} (hw : w < P) := wtcBtproc_inv hn (Nat.zero_lt_of_lt hw) hr
    have uses {w : Nat} {b : Bool} (hw : w < P) := (inv hw).uses (x := x) (b := b) hw
    rcases hrace.cases with ⟨w, hw, hq, hp, hc⟩ | ⟨w, hw, hp, hc⟩ | ⟨v, w, hne, hv, hw, hq, hp, hc⟩
    · have hp := procParent_uses hp
      obtain ⟨hx, hb, ht⟩ := hp.meets ((inv hw).rests hw hp.quiet) (uses hw hc)
      exact ⟨hx, hb, w, hq, ht⟩
    · have hp := procParent_uses hp
      exact (Uses.not_parent ((inv hw).rests hw hp.quiet) (uses hw hc)).elim
    · obtain ⟨turns, rfl⟩ := (wtcBtproc n P A).exists_play hr
      have k := procLedger_kept hn (Nat.zero_lt_of_lt hw) A turns
      obtain ⟨hx, hb, ht⟩ := Uses.meets (inv hw) k hv hw hne (uses hv hp) (uses hw hc)
      exact ⟨.inl hx, hb, w, hq, ht⟩
  · intro s p q x b hr hrace
    have inv {w : Nat} (hw : w < P) := wtcBtthr_inv hn (Nat.zero_lt_of_lt hw) hr
    have uses {w : Nat} {b : Bool} (hw : w < P) := (inv hw).uses (x := x) (b := b) hw
    rcases hrace.cases with ⟨w, hw, hq, hp, hc⟩ | ⟨w, hw, hp, hc⟩ | ⟨v, w, hne, hv, hw, hq, hp, hc⟩
    · have hp := thrParent_uses hp
      obtain ⟨hx, hb, ht⟩ := hp.meets ((inv hw).rests hw hp.quiet) (uses hw hc)
      exact ⟨hx, hb, w, hq, ht⟩
    · have hp := thrParent_uses hp
      exact (Uses.not_parent ((inv hw).rests hw hp.quiet) (uses hw hc)).elim
    · obtain ⟨turns, rfl⟩ := (wtcBtthr n P A).exists_play hr
      have k := thrLedger_kept hn (Nat.zero_lt_of_lt hw) A turns
      obtain ⟨hx, hb, ht⟩ := Uses.meets (inv hw) k hv hw hne (uses hv hp) (uses hw hc)
      exact ⟨.inl hx, hb, w, hq, ht⟩

/-- One worker has the lock and is about to move the queue, the other one tests it. -/
def peeking : List (Option Nat) :=
  .replicate 30 none ++ .replicate 6 (some 0) ++ .replicate 2 (some 1)

theorem bag_races_peeking :
    ∃ s : State (wtcBtproc 2 2 (.cycle 2)), (wtcBtproc 2 2 (.cycle 2)).system.Reachable s ∧
      (wtcBtproc 2 2 (.cycle 2)).Race s (some 0) (some 1) .queue false ∧ Testing (s.child 1) := by
  have hr := (wtcBtproc 2 2 (.cycle 2)).play_reachable peeking
  have h0 : ((wtcBtproc 2 2 (.cycle 2)).play peeking).child 0 = ChildPc.bumped 0 0 := by
    decide +kernel
  have h1 : ((wtcBtproc 2 2 (.cycle 2)).play peeking).child 1 = ChildPc.inner := by
    decide +kernel
  have hb : ∀ w, w < 2 → ((wtcBtproc 2 2 (.cycle 2)).play peeking).shared.born w = true := by
    decide +kernel
  generalize (wtcBtproc 2 2 (.cycle 2)).play peeking = s at hr h0 h1 hb
  have hrace : (wtcBtproc 2 2 (.cycle 2)).Race s (some 0) (some 1) .queue false := by
    constructor
    · decide
    · rw [Program.access, if_pos ⟨by decide, hb 0 (by decide)⟩, h0]
      rfl
    · rw [Program.access, if_pos ⟨by decide, hb 1 (by decide)⟩, h1]
      rfl
  obtain ⟨-, -, w, hw, ht⟩ := (bag_races 2 2 (by decide) (.cycle 2)).1 s _ _ _ _ hr hrace
  cases hw
  exact ⟨s, hr, hrace, ht⟩

end Bag

end NoblesseOblige.Wtc
