import NoblesseOblige.Wtc.BagEnds

namespace NoblesseOblige.Wtc.Bag
set_option autoImplicit true

/-- What has happened to the rows since the parent last reset the queue: who took which row off
it and who has been through all of its columns. -/
structure Ledger where
  round : Nat
  taken : List (Nat × Nat)
  finished : List (Nat × Nat)

def Ledger.child (b : Ledger) (w : Nat) : ChildPc → ChildPc → Ledger
  | .bumped r _, _ => { b with taken := b.taken ++ [(w, r)] }
  | .cell r _, .inner => { b with finished := b.finished ++ [(w, r)] }
  | _, _ => b

def Ledger.parent (b : Ledger) (iterator : Nat) : ParentPc → Ledger
  | .reset => ⟨iterator, [], []⟩
  | _ => b

/-- What a step of the parent (`none`) or of a worker adds to the ledger. -/
def Ledger.note (h : Shared L) (pc : ParentPc) (cs cs' : Nat → ChildPc) :
    Option Nat → Ledger → Ledger
  | none, b => b.parent h.iterator pc
  | some w, b => b.child w (cs w) (cs' w)

/-- The ledger after these turns. -/
def procLedger (n P : Nat) (A : Adjacency n) (turns : List (Option Nat)) : Ledger :=
  (wtcBtproc n P A).account (fun s c s' => Ledger.note s.shared s.parent s.child s'.child c)
    (wtcBtproc n P A).initial ⟨0, [], []⟩ turns

def thrLedger (n P : Nat) (A : Adjacency n) (turns : List (Option Nat)) : Ledger :=
  (wtcBtthr n P A).account (fun s c s' => Ledger.note s.shared s.parent s.child s'.child c)
    (wtcBtthr n P A).initial ⟨0, [], []⟩ turns

/-- The parent has collected all signals of the round and not counted it yet. -/
def Collected (P : Nat) : ParentPc → Prop
  | .await k => P ≤ k
  | .copy _ _ | .store _ _ _ | .step | .stepped _ => True
  | _ => False

/-- Each row of a round goes to one worker, which computes it with the number of the round, and
the queue never gets further past the last row than the other workers can push it. -/
structure HandsOut (A : Adjacency n) (L : Layout n) (P : Nat) (h : Shared L) (pc : ParentPc)
    (cs : Nat → ChildPc) (b : Ledger) : Prop where
  once : Collected P pc → ∀ r, r < n → ∃ w, w < P ∧
    b.taken.filter (·.2 = r) = [(w, r)] ∧ b.finished.filter (·.2 = r) = [(w, r)]
  computed : Collected P pc → h.iterator = b.round ∧
    ∀ i j, i < n → j < n → (h.curr (L.cell i j) = 1 ↔ A.Upto (b.round + 1) i j)
  current : ∀ w, w < P → ∀ r j k, cs w = .col r j k ∨ cs w = .row r j k →
    k = b.round ∧ (w, r) ∈ b.taken
  bounded : h.queue ≤ n + P - 1

/-- The worker has passed the test of the queue and not moved it yet. -/
def between : ChildPc → Nat
  | .lock | .dequeue | .bump _ | .bumped _ _ => 1
  | _ => 0

theorem between_le (pc : ChildPc) : between pc ≤ 1 := by
  cases pc with
  | lock | dequeue | bump row | bumped row q => exact Nat.le_refl 1
  | _ => exact Nat.zero_le 1

/-- What a step of a worker means for the rows. -/
inductive Handles (n : Nat) (h h' : Shared L) : ChildPc → ChildPc → Prop
  | passed (hn : h.queue < n) (hq : h'.queue = h.queue) : Handles n h h' .inner .lock
  | took (hq : h'.queue = q + 1) : Handles n h h' (.bumped r q) (.unlock r)
  | finished (hq : h'.queue = h.queue) : Handles n h h' (.cell r j) .inner
  | kept (hq : h'.queue = h.queue) (hb : between pc' ≤ between pc)
      (ho : ∀ r, Owns pc' r → Owns pc r) (hk : ∀ r, r < n → Owns pc r → Owns pc' r)
      (hl : ∀ (b : Ledger) w, b.child w pc pc' = b) : Handles n h h' pc pc'

section
variable {n : Nat} {A : Adjacency n} {L : Layout n} {first : Bool} {P w : Nat}
variable {holds : ParentPc → Prop}

theorem Goes.handles {h h' : Shared L} (hg : Goes first L w y h pc h' pc') :
    Handles n h h' pc pc' := by
  cases hg with
  | pass hq => exact .passed hq rfl
  | bumped => exact .took rfl
  | finish => exact .finished rfl
  | useless hf hr | skip hf hr =>
    exact .kept rfl (Nat.le_refl _) (fun _ => False.elim)
      (fun _ hi he => absurd hi (he ▸ Nat.not_lt.mpr hr)) fun _ _ => rfl
  | _ => exact .kept rfl (Nat.le_refl _) (fun _ => id) (fun _ _ => id) fun _ _ => rfl

/-- The parent is between the reset of the queue and the end of the round. -/
def Open : ParentPc → Prop
  | .unlockQueue | .signal _ | .await _ | .copy _ _ | .store _ _ _ | .step | .stepped _ => True
  | _ => False

/-- What a step of the parent means for the rows and the round. -/
inductive Turns (h h' : Shared L) : ParentPc → ParentPc → Prop
  | reset (hq : h'.queue = 0) (hi : h'.iterator = h.iterator) : Turns h h' .reset pc'
  | other (hr : pc ≠ .reset) (hq : h'.queue = h.queue)
      (ho : Open pc' → Open pc ∧ h'.iterator = h.iterator) : Turns h h' pc pc'

theorem rounds_turns {h h' : Shared L} (en ro td : ParentPc) (he : ¬ Open en) (hr : ¬ Open ro)
    (ht : ¬ Open td) (hp : pc ≠ .reset)
    (hs : (Bag.rounds L P en ro td pc).run y h = some (h', pc')) : Turns h h' pc pc' := by
  cases rounds_goes hs with
  | fork | stepped => exact .other hp rfl False.elim
  | forked => exact .other hp rfl fun ho => absurd ho he
  | enter => exact .other hp rfl fun ho => absurd ho hr
  | ended => exact .other hp rfl fun ho => absurd ho ht
  | _ => exact .other hp rfl fun _ => ⟨trivial, rfl⟩

theorem printLoop_turns {h h' : Shared L} {emit : L.Addr → ParentPc → Instr L ParentPc}
    {M : L.Addr → Int} (he : ∀ a next, (emit a next).run y h =
      some ({ h with out := h.out ++ [M a] }, next))
    (hs : (printLoop L emit .print .done i j).run y h = some (h', pc')) :
    Turns h h' (.print i j) pc' := by
  rw [printLoop] at hs
  split at hs
  · split at hs
    · rw [he] at hs
      cases hs
      exact .other (by simp) rfl False.elim
    · cases hs
      exact .other (by simp) rfl False.elim
  · cases hs
    exact .other (by simp) rfl False.elim

theorem procParent_turns {h h' : Shared L}
    (hs : (procParent L P A pc).run y h = some (h', pc')) : Turns h h' pc pc' := by
  cases pc with
  | load i j =>
    rw [procParent] at hs
    split at hs
    · split at hs <;> (cases hs; exact .other (by simp) rfl False.elim)
    · cases hs
      exact .other (by simp) rfl False.elim
  | reset =>
    cases hs
    exact .reset rfl rfl
  | destroyP2c k =>
    rw [procParent] at hs
    split at hs <;> (cases hs; exact .other (by simp) rfl False.elim)
  | destroyC2p k =>
    cases hs
    exact .other (by simp) rfl False.elim
  | print i j => exact printLoop_turns (fun _ _ => rfl) hs
  | _ => exact rounds_turns (P := P) .test .reset (.destroyP2c 0) id id id (by simp) hs

theorem thrParent_turns {h h' : Shared L}
    (hs : (thrParent L P pc).run y h = some (h', pc')) : Turns h h' pc pc' := by
  cases pc with
  | start =>
    cases hs
    exact .other (by simp) rfl False.elim
  | lockQueue =>
    rw [thrParent, Instr.run] at hs
    split at hs
    · cases hs
    · cases hs
      exact .other (by simp) rfl False.elim
  | reset =>
    cases hs
    exact .reset rfl rfl
  | unlockQueue =>
    cases hs
    exact .other (by simp) rfl fun _ => ⟨trivial, rfl⟩
  | release k | destroyP2c k =>
    rw [thrParent] at hs
    split at hs <;> (cases hs; exact .other (by simp) rfl False.elim)
  | destroyC2p k =>
    cases hs
    exact .other (by simp) rfl False.elim
  | join k =>
    rw [thrParent, Instr.run] at hs
    split at hs
    · cases hs
      exact .other (by simp) rfl False.elim
    · cases hs
  | print i j => exact printLoop_turns (fun _ _ => rfl) hs
  | _ => exact rounds_turns (P := P) .start .lockQueue (.release 0) id id id (by simp) hs

/-- A row that is listed once is found once. -/
theorem filter_eq_singleton {l : List (Nat × Nat)} (hl : (l.map Prod.snd).Nodup)
    (hm : (w, r) ∈ l) : l.filter (·.2 = r) = [(w, r)] := by
  induction l with
  | nil => cases hm
  | cons x l ih =>
    rw [List.map_cons, List.nodup_cons] at hl
    rcases List.mem_cons.mp hm with rfl | hm
    · have hnil : l.filter (·.2 = r) = [] := by
        apply List.filter_eq_nil_iff.mpr
        intro x hx he
        exact hl.1 (List.mem_map.mpr ⟨x, hx, of_decide_eq_true he⟩)
      rw [List.filter_cons_of_pos (by simp), hnil]
    · have hne : x.2 ≠ r := fun he => hl.1 (List.mem_map.mpr ⟨(w, r), hm, he.symm⟩)
      rw [List.filter_cons_of_neg (by simpa using hne), ih hl.2 hm]

/-- The ledger agrees with the queue and with what the workers hold. -/
structure Kept (n P : Nat) (h : Shared L) (pc : ParentPc) (cs : Nat → ChildPc) (b : Ledger) :
    Prop where
  rows : b.taken.map Prod.snd = List.range h.queue
  workers : ∀ v r, (v, r) ∈ b.taken → v < P
  held : ∀ v r, (v, r) ∈ b.taken → r < n → (v, r) ∈ b.finished ∨ Owns (cs v) r
  given : ∀ v r, (v, r) ∈ b.finished → (v, r) ∈ b.taken
  nodup : (b.finished.map Prod.snd).Nodup
  owns : ∀ v, v < P → ∀ r, Owns (cs v) r → (v, r) ∈ b.taken ∧ (v, r) ∉ b.finished
  bound : h.queue + total P (fun v => between (cs v)) + 1 ≤ n + P
  round : Open pc → h.iterator = b.round

theorem Kept.taken_once {h : Shared L} {b : Ledger} (k : Kept n P h pc cs b)
    (hv : (v, r) ∈ b.taken) (hw : (w, r) ∈ b.taken) : v = w := by
  have hl : (b.taken.map Prod.snd).Nodup := k.rows ▸ List.nodup_range
  have he := List.inj_on_of_nodup_map hl hv hw rfl
  exact congrArg Prod.fst he

/-- A step of a worker that takes no row and finishes none. -/
theorem Kept.move {h h' : Shared L} {b : Ledger} (k : Kept n P h pc cs b)
    (hq : h'.queue = h.queue) (hi : h'.iterator = h.iterator)
    (hb : total P (fun v => between (Function.update cs w c v)) + h.queue + 1 ≤ n + P)
    (ho : ∀ r, Owns c r → Owns (cs w) r) (hk : ∀ r, r < n → Owns (cs w) r → Owns c r) :
    Kept n P h' pc (Function.update cs w c) b where
  rows := k.rows.trans (congrArg List.range hq.symm)
  workers := k.workers
  held v r hm hr := by
    refine (k.held v r hm hr).imp_right fun hown => ?_
    by_cases hvw : v = w
    · subst hvw
      rw [Function.update_self]
      exact hk r hr hown
    · rwa [Function.update_of_ne hvw]
  given := k.given
  nodup := k.nodup
  owns v hv r hown := by
    apply k.owns v hv r
    by_cases hvw : v = w
    · subst hvw
      rw [Function.update_self] at hown
      exact ho r hown
    · rwa [Function.update_of_ne hvw] at hown
  bound := by
    rw [hq]
    omega
  round hpc := hi.trans (k.round hpc)

/-- A worker takes the row the queue stands at. -/
theorem Kept.take {h h' : Shared L} {b : Ledger} (k : Kept n P h pc cs b) (hw : w < P)
    (hc : cs w = .bumped h.queue h.queue) (hq : h'.queue = h.queue + 1)
    (hi : h'.iterator = h.iterator)
    (hb : total P (fun v => between (Function.update cs w (.unlock h.queue) v)) + 1 ≤
      total P (fun v => between (cs v))) :
    Kept n P h' pc (Function.update cs w (.unlock h.queue))
      { b with taken := b.taken ++ [(w, h.queue)] } where
  rows := by rw [List.map_append, k.rows, hq, List.range_succ]; rfl
  workers v r hm := by
    rcases List.mem_append.mp hm with hm | hm
    · exact k.workers v r hm
    · cases List.mem_singleton.mp hm
      exact hw
  held v r hm hr := by
    rcases List.mem_append.mp hm with hm | hm
    · refine (k.held v r hm hr).imp_right fun hown => ?_
      have hvw : v ≠ w := by
        rintro rfl
        rw [hc] at hown
        exact hown
      rwa [Function.update_of_ne hvw]
    · cases List.mem_singleton.mp hm
      rw [Function.update_self]
      exact .inr rfl
  given v r hm := List.mem_append_left _ (k.given v r hm)
  nodup := k.nodup
  owns v hv r hown := by
    by_cases hvw : v = w
    · subst hvw
      rw [Function.update_self] at hown
      cases hown
      refine ⟨List.mem_append_right _ (List.mem_singleton.mpr rfl), fun hm => ?_⟩
      have hrow : h.queue ∈ b.taken.map Prod.snd := List.mem_map_of_mem (k.given v _ hm)
      rw [k.rows] at hrow
      exact Nat.lt_irrefl _ (List.mem_range.mp hrow)
    · rw [Function.update_of_ne hvw] at hown
      obtain ⟨hm, hf⟩ := k.owns v hv r hown
      exact ⟨List.mem_append_left _ hm, hf⟩
  bound := by
    have := k.bound
    omega
  round hpc := hi.trans (k.round hpc)

/-- A worker has been through all the columns of its row. -/
theorem Kept.finish {h h' : Shared L} {b : Ledger} (k : Kept n P h pc cs b) (hw : w < P)
    (hc : cs w = .cell i j) (hq : h'.queue = h.queue) (hi : h'.iterator = h.iterator)
    (hb : total P (fun v => between (Function.update cs w .inner v)) ≤
      total P (fun v => between (cs v))) :
    Kept n P h' pc (Function.update cs w .inner)
      { b with finished := b.finished ++ [(w, i)] } where
  rows := k.rows.trans (congrArg List.range hq.symm)
  workers := k.workers
  held v r hm hr := by
    rcases k.held v r hm hr with hf | hown
    · exact .inl (List.mem_append_left _ hf)
    · by_cases hvw : v = w
      · subst hvw
        rw [hc] at hown
        cases hown
        exact .inl (List.mem_append_right _ (List.mem_singleton.mpr rfl))
      · rw [Function.update_of_ne hvw]
        exact .inr hown
  given v r hm := by
    rcases List.mem_append.mp hm with hm | hm
    · exact k.given v r hm
    · cases List.mem_singleton.mp hm
      exact (k.owns w hw i (hc ▸ rfl)).1
  nodup := by
    obtain ⟨hm, hf⟩ := k.owns w hw i (hc ▸ rfl)
    rw [List.map_append]
    refine List.nodup_append.mpr ⟨k.nodup, List.nodup_singleton _, ?_⟩
    rintro r hr _ hi' rfl
    obtain ⟨⟨v, r⟩, hv, rfl⟩ := List.mem_map.mp hr
    cases List.mem_singleton.mp hi'
    exact hf (k.taken_once (k.given v i hv) hm ▸ hv)
  owns v hv r hown := by
    have hvw : v ≠ w := by
      rintro rfl
      rw [Function.update_self] at hown
      exact hown
    rw [Function.update_of_ne hvw] at hown
    obtain ⟨hm, hf⟩ := k.owns v hv r hown
    refine ⟨hm, fun hm' => ?_⟩
    rcases List.mem_append.mp hm' with hm' | hm'
    · exact hf hm'
    · cases List.mem_singleton.mp hm'
      exact hvw rfl
  bound := by
    have := k.bound
    omega
  round hpc := hi.trans (k.round hpc)

theorem Kept.child {h h' : Shared L} {b : Ledger} (k : Kept n P h pc cs b) (hw : w < P)
    (hp : Placed h (cs w)) (hi : h'.iterator = h.iterator) (hs : Handles n h h' (cs w) c) :
    Kept n P h' pc (Function.update cs w c) (b.child w (cs w) c) := by
  have hsum := total_update (fun _ => between) cs c hw
  have hbound := k.bound
  generalize hc : cs w = c₀ at hp hs hsum ⊢
  cases hs with
  | passed hn hq =>
    have hle : total P (fun v => between (Function.update cs w .lock v)) ≤ P :=
      total_le_workers fun v _ => between_le _
    exact k.move hq hi (by omega) (fun _ => False.elim) fun r _ hown => by rwa [hc] at hown
  | took hq =>
    obtain ⟨rfl, rfl⟩ := hp
    exact k.take hw hc hq hi hsum
  | finished hq => exact k.finish hw hc hq hi hsum
  | kept hq hb ho hk hl =>
    rw [hl]
    exact k.move hq hi (by omega) (hc ▸ ho) (hc ▸ hk)

/-- The parent wipes the ledger when it resets the queue, while no worker holds a row. -/
theorem Kept.parent {h h' : Shared L} {b : Ledger} (k : Kept n P h pc cs b) (hn : 0 < n)
    (ho : pc = .reset → ∀ v, v < P → ∀ r, ¬ Owns (cs v) r) (hs : Turns h h' pc pc') :
    Kept n P h' pc' cs (b.parent h.iterator pc) := by
  cases hs with
  | reset hq hi =>
    have hle : total P (fun v => between (cs v)) ≤ P := total_le_workers fun v _ => between_le _
    refine ⟨by rw [hq]; rfl, fun _ _ hm => ?_, fun _ _ hm => ?_, fun _ _ hm => ?_, List.nodup_nil,
      fun v hv r hown => absurd hown (ho rfl v hv r), by omega, fun _ => hi⟩
    · cases hm
    · cases hm
    · cases hm
  | other hr hq hopen =>
    have hb : b.parent h.iterator pc = b := by
      cases pc with
      | reset => exact absurd rfl hr
      | _ => rfl
    rw [hb]
    refine { k with rows := ?_, bound := ?_, round := fun hpc => ?_ }
    · exact k.rows.trans (congrArg List.range hq.symm)
    · rw [hq]
      exact k.bound
    · obtain ⟨hpc, hi⟩ := hopen hpc
      exact hi.trans (k.round hpc)

theorem open_of_busy (hst : stage pc w = .busy) : Open pc := by
  cases pc with
  | signal k | await k => trivial
  | fork k =>
    rw [stage] at hst
    split at hst <;> cases hst
  | _ => cases hst

theorem Collected.opened (hc : Collected P pc) : Open pc := by
  cases pc with
  | await k | copy i j | store i j v | step | stepped k => trivial
  | _ => exact hc.elim

theorem Collected.stage (hc : Collected P pc) (hw : w < P) : stage pc w = .idle := by
  cases pc with
  | await k => simp only [Bag.stage, Nat.lt_of_lt_of_le hw hc, ↓reduceIte]
  | copy i j | store i j v | step | stepped k => rfl
  | _ => exact hc.elim

/-- With all signals of the round collected, the queue is past the last row and the round's matrix
is there. -/
theorem Inv.collected {h : Shared L} (inv : Inv A L first P holds h pc cs) (hP : 0 < P)
    (hh : ∀ pc, guarded pc = false → ¬ holds pc) (hc : Collected P pc) :
    n ≤ h.queue ∧ Agrees L h.curr (A.Upto (h.iterator + 1)) := by
  cases pc with
  | await k =>
    have inv' := inv.copy hP hc (iff_of_false (hh _ rfl) (hh _ rfl))
    obtain ⟨_, hq, _, hM, _⟩ := inv'.parent
    exact ⟨hq, hM⟩
  | copy i j =>
    obtain ⟨_, hq, _, hM, _⟩ := inv.parent
    exact ⟨hq, hM⟩
  | store i j v =>
    obtain ⟨_, hq, _, _, _, hM, _⟩ := inv.parent
    exact ⟨hq, hM⟩
  | step =>
    obtain ⟨_, hq, _, hM, _⟩ := inv.parent
    exact ⟨hq, hM⟩
  | stepped k =>
    obtain ⟨_, _, hq, _, hM, _⟩ := inv.parent
    exact ⟨hq, hM⟩
  | _ => exact hc.elim

theorem Inv.handsOut {h : Shared L} {b : Ledger} (inv : Inv A L first P holds h pc cs)
    (k : Kept n P h pc cs b) (hP : 0 < P) (hh : ∀ pc, guarded pc = false → ¬ holds pc) :
    HandsOut A L P h pc cs b where
  once hc r hr := by
    have hq := (inv.collected hP hh hc).1
    have hrow : r ∈ b.taken.map Prod.snd := by
      rw [k.rows]
      exact List.mem_range.mpr (Nat.lt_of_lt_of_le hr hq)
    obtain ⟨⟨w, r⟩, hm, rfl⟩ := List.mem_map.mp hrow
    have hw := k.workers w r hm
    have hf := (k.held w r hm hr).resolve_right (inv.not_owns (fun _ => hc.stage) w hw r)
    exact ⟨w, hw, filter_eq_singleton (k.rows ▸ List.nodup_range) hm,
      filter_eq_singleton k.nodup hf⟩
  computed hc := by
    have hi := k.round hc.opened
    refine ⟨hi, fun i j hin hjn => ?_⟩
    rw [← hi]
    exact (inv.collected hP hh hc).2.one_iff hin hjn
  current w hw r j m hcs := by
    have hd : ¬ Draining (cs w) := by
      rcases hcs with hcs | hcs <;> (rw [hcs]; exact id)
    have hown : Owns (cs w) r := by
      rcases hcs with hcs | hcs <;> (rw [hcs]; exact rfl)
    obtain ⟨hst, hwork⟩ := (inv.worker w hw).working hd
    have hm : m = h.iterator := by
      rcases hcs with hcs | hcs <;> (rw [hcs] at hwork; exact hwork.1)
    exact ⟨hm.trans (k.round (open_of_busy hst)), (k.owns w hw r hown).1⟩
  bounded := by
    have := k.bound
    omega

theorem Inv.child_kept {h h' : Shared L} {b : Ledger} (inv : Inv A L first P holds h pc cs)
    (k : Kept n P h pc cs b) (hw : w < P) (hb : h.born w = true)
    (hs : (body first L w (cs w)).run y h = some (h', c)) :
    Kept n P h' pc (Function.update cs w c) (b.child w (cs w) c) := by
  have ok := inv.worker w hw
  have he := (child_step ok inv.parent.busy inv.parent.draining hb hs).2
  exact k.child hw ok.placed he.iterator (body_goes hs).handles

theorem Inv.parent_kept {h h' : Shared L} {b : Ledger} (inv : Inv A L first P holds h pc cs)
    (k : Kept n P h pc cs b) (hn : 0 < n) (hs : Turns h h' pc pc') :
    Kept n P h' pc' cs (b.parent h.iterator pc) := by
  refine k.parent hn (fun hpc => inv.not_owns fun v _ => ?_) hs
  rw [hpc]
  rfl

theorem Kept.start (h : Shared L) (hn : 0 < n) (hq : h.queue = 0) (hpc : ¬ Open pc) :
    Kept n P h pc (fun _ => .outer) ⟨0, [], []⟩ := by
  have hle : total P (fun _ => between .outer) ≤ P := total_le_workers fun _ _ => between_le _
  refine ⟨by rw [hq]; rfl, fun _ _ hm => ?_, fun _ _ hm => ?_, fun _ _ hm => ?_, List.nodup_nil,
    fun _ _ _ hown => hown.elim, by omega, fun ho => absurd ho hpc⟩
  · cases hm
  · cases hm
  · cases hm

end

theorem procLedger_kept (hn : 0 < n) (hP : 0 < P) (A : Adjacency n) (turns : List (Option Nat)) :
    Kept n P ((wtcBtproc n P A).play turns).shared ((wtcBtproc n P A).play turns).parent
      ((wtcBtproc n P A).play turns).child (procLedger n P A turns) := by
  apply Program.account_invariant
    (I := fun s : State (wtcBtproc n P A) => Kept n P s.shared s.parent s.child)
  · exact .start _ hn rfl id
  · intro s c s' b hr hs k
    have inv := wtcBtproc_inv hn hP hr
    cases c with
    | none =>
      obtain ⟨r, hrun, rfl⟩ := Program.next_none hs
      exact inv.parent_kept k hn (procParent_turns hrun)
    | some w =>
      obtain ⟨⟨hw, hb⟩, r, hrun, rfl⟩ := Program.next_some hs
      have k' := inv.child_kept k hw hb hrun
      simpa only [Ledger.note, Function.update_self] using k'

theorem thrLedger_kept (hn : 0 < n) (hP : 0 < P) (A : Adjacency n) (turns : List (Option Nat)) :
    Kept n P ((wtcBtthr n P A).play turns).shared ((wtcBtthr n P A).play turns).parent
      ((wtcBtthr n P A).play turns).child (thrLedger n P A turns) := by
  apply Program.account_invariant
    (I := fun s : State (wtcBtthr n P A) => Kept n P s.shared s.parent s.child)
  · exact .start _ hn rfl id
  · intro s c s' b hr hs k
    have inv := wtcBtthr_inv hn hP hr
    cases c with
    | none =>
      obtain ⟨r, hrun, rfl⟩ := Program.next_none hs
      exact inv.parent_kept k hn (thrParent_turns hrun)
    | some w =>
      obtain ⟨⟨hw, hb⟩, r, hrun, rfl⟩ := Program.next_some hs
      have k' := inv.child_kept k hw hb hrun
      simpa only [Ledger.note, Function.update_self] using k'

/-- Whatever the interleaving, each round hands out every row once, to be computed with the number
of that round, and the queue stays below the number of vertices plus the workers. -/
theorem bag_hands_out (n P : Nat) (hn : 1 ≤ n) (hP : 1 ≤ P) (A : Adjacency n)
    (turns : List (Option Nat)) :
    HandsOut A (Layout.flat n) P ((wtcBtproc n P A).play turns).shared
      ((wtcBtproc n P A).play turns).parent ((wtcBtproc n P A).play turns).child
      (procLedger n P A turns) ∧
    HandsOut A (Layout.rows n) P ((wtcBtthr n P A).play turns).shared
      ((wtcBtthr n P A).play turns).parent ((wtcBtthr n P A).play turns).child
      (thrLedger n P A turns) := by
  constructor
  · have inv := wtcBtproc_inv hn hP ((wtcBtproc n P A).play_reachable turns)
    exact inv.handsOut (procLedger_kept hn hP A turns) hP fun _ _ => id
  · have inv := wtcBtthr_inv hn hP ((wtcBtthr n P A).play_reachable turns)
    exact inv.handsOut (thrLedger_kept hn hP A turns) hP thrHolds_not

/-- The second worker gets `k` turns while the first has one row and the queue another. -/
def overtaking (k : Nat) : List (Option Nat) :=
  .replicate 30 none ++ .replicate 9 (some 0) ++ .replicate k (some 1) ++
    .replicate 60 (some 0) ++ .replicate 60 (some 1) ++ .replicate 3 none

/-- Both workers pass the test for the last row: the queue goes as far as it may, and each row
still goes to one of them. -/
theorem bag_hands_out_overtaking :
    (((wtcBtproc 2 2 (.cycle 2)).play (overtaking 3)).parent = ParentPc.copy 0 0 ∧
      ((wtcBtproc 2 2 (.cycle 2)).play (overtaking 3)).shared.queue = 2 + 2 - 1 ∧
      ∀ r, r < 2 → ∃ w, w < 2 ∧
        (procLedger 2 2 (.cycle 2) (overtaking 3)).taken.filter (·.2 = r) = [(w, r)] ∧
        (procLedger 2 2 (.cycle 2) (overtaking 3)).finished.filter (·.2 = r) = [(w, r)]) ∧
    (((wtcBtthr 2 2 (.cycle 2)).play (overtaking 4)).parent = ParentPc.copy 0 0 ∧
      ((wtcBtthr 2 2 (.cycle 2)).play (overtaking 4)).shared.queue = 2 + 2 - 1 ∧
      ∀ r, r < 2 → ∃ w, w < 2 ∧
        (thrLedger 2 2 (.cycle 2) (overtaking 4)).taken.filter (·.2 = r) = [(w, r)] ∧
        (thrLedger 2 2 (.cycle 2) (overtaking 4)).finished.filter (·.2 = r) = [(w, r)]) := by
  constructor
  · have hpc : ((wtcBtproc 2 2 (.cycle 2)).play (overtaking 3)).parent = ParentPc.copy 0 0 := by
      decide +kernel
    have h := (bag_hands_out 2 2 (by decide) (by decide) (.cycle 2) (overtaking 3)).1
    exact ⟨hpc, by decide +kernel, h.once (by rw [hpc]; exact trivial)⟩
  · have hpc : ((wtcBtthr 2 2 (.cycle 2)).play (overtaking 4)).parent = ParentPc.copy 0 0 := by
      decide +kernel
    have h := (bag_hands_out 2 2 (by decide) (by decide) (.cycle 2) (overtaking 4)).2
    exact ⟨hpc, by decide +kernel, h.once (by rw [hpc]; exact trivial)⟩

end NoblesseOblige.Wtc.Bag
