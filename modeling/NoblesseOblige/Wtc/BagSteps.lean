import NoblesseOblige.Wtc.BagInvariant

namespace NoblesseOblige.Wtc.Bag
set_option autoImplicit true

section
variable {n : Nat} {A : Adjacency n} {L : Layout n} {first : Bool} {w : Nat}

theorem Outside.draining {h : Shared L} (ho : Outside n h pc) : Draining pc := by
  cases pc with
  | outer | recheck | wait | inner | post | leave | done => trivial
  | _ => exact ho

theorem Outside.not_crit {h : Shared L} (ho : Outside n h pc) : ¬ Crit pc := by
  cases pc <;> first | exact id | exact ho.elim

theorem Outside.not_owns {h : Shared L} (ho : Outside n h pc) : ¬ Owns pc r := by
  cases pc <;> first | exact id | exact ho.elim

theorem Draining.not_crit (hd : Draining pc) : ¬ Crit pc := by
  cases pc <;> first | exact id | exact hd.elim

theorem Draining.not_owns (hd : Draining pc) : ¬ Owns pc r := by
  cases pc <;> first | exact id | exact hd.elim

/-- After the last round a worker finds the queue empty and does nothing more. -/
theorem Draining.step {h h' : Shared L} (hd : Draining pc) (hq : n ≤ h.queue)
    (hg : Goes first L w y h pc h' pc') :
    Draining pc' ∧ ((∃ e, h' = { h with exited := e }) ∨
      ∃ x v, (x = .p2c w ∨ x = .c2p w) ∧ h' = h.setSem x v) := by
  cases hg with
  | rows | noRows | more | noMore | again | ended | empty | leave =>
    exact ⟨trivial, .inl ⟨_, rfl⟩⟩
  | wait => exact ⟨trivial, .inr ⟨_, _, .inl rfl, rfl⟩⟩
  | pass hlt => exact absurd hlt (Nat.not_lt.mpr hq)
  | post => exact ⟨trivial, .inr ⟨_, _, .inr rfl, rfl⟩⟩
  | _ => exact hd.elim

theorem ChildEffect.move (A : Adjacency n) (y : Sync) (w : Nat) (st : Stage) (h : Shared L)
    (hc : Crit pc' ↔ Crit pc)
    (ho : ∀ r, r < n → Owns pc r →
      Owns pc' r ∨ RowDone L h.curr (A.Upto (h.iterator + 1)) r) :
    ChildEffect A y w st h h pc pc' :=
  ⟨rfl, rfl, rfl, rfl, fun _ _ _ _ => rfl, .inl rfl, .inl rfl, .inl ⟨rfl, hc⟩, ho⟩

/-- A step on a worker's own hand-offs. -/
theorem ChildEffect.token (A : Adjacency n) (y : Sync) (w : Nat) (st : Stage) (h : Shared L)
    (v : Nat) (hx : x = .p2c w ∨ x = .c2p w) (hc : Crit pc' ↔ Crit pc) (ho : ∀ r, ¬ Owns pc r) :
    ChildEffect A y w st h (h.setSem x v) pc pc' := by
  refine ⟨rfl, rfl, rfl, rfl, fun x' hp hc _ => h.setSem_of_ne v ?_, .inl rfl, .inl rfl,
    .inl ⟨h.setSem_of_ne v ?_, hc⟩, fun r _ hr => absurd hr (ho r)⟩
  · rcases hx with rfl | rfl
    · exact hp
    · exact hc
  · rcases hx with rfl | rfl <;> simp

theorem ChildEffect.unlock {h : Shared L} (hc : ¬ Crit pc')
    (ho : ∀ i, i < n → r = i → Owns pc' i) :
    ChildEffect A y w .busy h (h.setSem .queue (y.release (h.sem .queue))) (.unlock r) pc' :=
  ⟨rfl, rfl, rfl, rfl, fun _ _ _ hx => h.setSem_of_ne _ hx, .inl rfl, .inl rfl,
    .inr (.inr ⟨h.setSem_self _ _, trivial, hc⟩), fun i hin hr => .inl (ho i hin hr)⟩

theorem Working.step {h h' : Shared L} (hw : Working A L first h pc) (ht : Tokens h w 0 0)
    (hi : h.iterator < n) (hp : Agrees L h.prev (A.Upto h.iterator))
    (hg : Goes first L w y h pc h' pc') :
    BusyOk A L first h' w pc' ∧ ChildEffect A y w .busy h h' pc pc' := by
  have look (hw' : Working A L first h pc') (hc : Crit pc' ↔ Crit pc)
      (ho : ∀ r, Owns pc r → Owns pc' r) :
      BusyOk A L first h w pc' ∧ ChildEffect A y w .busy h h pc pc' :=
    ⟨.inr (.inl ⟨hw', ht⟩), .move _ _ _ _ _ hc fun r _ hr => .inl (ho r hr)⟩
  have tokens (v : Nat) : Tokens (h.setSem .queue v) w 0 0 :=
    ⟨(h.setSem_of_ne _ (by simp)).trans ht.1, (h.setSem_of_ne _ (by simp)).trans ht.2⟩
  cases hg with
  | pass => exact look trivial Iff.rfl fun _ => id
  | empty hq => exact look hq Iff.rfl fun _ => id
  | lock hl =>
    exact ⟨.inr (.inl ⟨trivial, tokens _⟩), rfl, rfl, rfl, rfl, fun x _ _ hx => h.setSem_of_ne _ hx,
      .inl rfl, .inl rfl, .inr (.inl ⟨hl, h.setSem_self _ _, id, trivial⟩), fun _ _ hr => hr.elim⟩
  | dequeue => exact look rfl Iff.rfl fun _ => False.elim
  | bump => exact look ⟨hw, rfl⟩ Iff.rfl fun _ => id
  | bumped =>
    obtain ⟨rfl, rfl⟩ := hw
    exact ⟨.inr (.inl ⟨Nat.lt_succ_self _, ht⟩), rfl, rfl, rfl, rfl, fun _ _ _ _ => rfl,
      .inr ⟨trivial, rfl, rfl⟩, .inl rfl, .inl ⟨rfl, Iff.rfl⟩, fun _ _ hr => hr.elim⟩
  | useful hr =>
    exact ⟨.inr (.inl ⟨⟨hr, fun _ h0 => absurd h0 (Nat.not_lt_zero _)⟩, tokens _⟩),
      .unlock id fun _ _ he => he⟩
  | useless hf hr =>
    exact ⟨.inr (.inl ⟨Nat.le_trans hr (Nat.le_of_lt hw), tokens _⟩),
      .unlock id fun i hin he => absurd hin (he ▸ Nat.not_lt.mpr hr)⟩
  | skip hf hr =>
    exact ⟨.inr (.inl ⟨trivial, tokens _⟩),
      .unlock id fun i hin he => absurd hin (he ▸ Nat.not_lt.mpr hr)⟩
  | finish hj =>
    exact ⟨.inr (.inl ⟨trivial, ht⟩), .move _ _ _ _ _ Iff.rfl fun i _ hr =>
      .inr (hr ▸ InCell.rowDone hw hj)⟩
  | entry hf hj hv =>
    have hB := (A.upto_succ h.iterator _ _).mpr (.inl ((hp.one_iff hw.row hj).mp hv))
    exact look ⟨hj, hw, hB⟩ Iff.rfl fun _ => id
  | noEntry hf hj hv =>
    exact look ⟨hj, hw, fun hB => hv ((hp.one_iff hw.row hj).mpr hB)⟩ Iff.rfl fun _ => id
  | head hf =>
    obtain ⟨hj, hc, hB⟩ := hw
    exact look ⟨rfl, hj, hc, fun _ => hB⟩ Iff.rfl fun _ => id
  | cell hf hj =>
    refine look ⟨rfl, hj, hw, fun ht => ?_⟩ Iff.rfl fun _ => id
    rw [hf] at ht
    cases ht
  | col hv =>
    obtain ⟨rfl, hj, hc, hm⟩ := hw
    exact look ⟨hj, hc, hm, (hp.one_iff hi hj).mp hv⟩ Iff.rfl fun _ => id
  | noCol hf hv =>
    obtain ⟨rfl, hj, hc, hm⟩ := hw
    refine look (hc.next rfl (fun _ => id) fun hB => ?_) Iff.rfl fun _ => id
    rcases (A.upto_succ h.iterator _ _).mp hB with hB | hB
    · exact absurd hB (hm hf)
    · exact absurd ((hp.one_iff hi hj).mpr hB.2) hv
  | keep hf hv =>
    obtain ⟨rfl, hj, hc, hm⟩ := hw
    exact look ⟨hj, hc, fun hB => hv ((hp.one_iff hi hj).mpr hB.2)⟩ Iff.rfl fun _ => id
  | via =>
    obtain ⟨hj, hc, hm, hB⟩ := hw
    exact look ⟨rfl, hj, hc, hm, hB⟩ Iff.rfl fun _ => id
  | row hv =>
    obtain ⟨rfl, hj, hc, hm, hB⟩ := hw
    refine look ⟨hj, hc, (A.upto_succ h.iterator _ _).mpr (.inr ⟨?_, hB⟩)⟩ Iff.rfl fun _ => id
    rcases hv with hv | ⟨_, hv⟩
    · exact (hp.one_iff hc.row hi).mp hv
    · exact (hp.ne_zero_iff hc.row hi).mp hv
  | noRow hf hv =>
    obtain ⟨rfl, hj, hc, hm, hB⟩ := hw
    refine look (hc.next rfl (fun _ => id) fun hB' => ?_) Iff.rfl fun _ => id
    rcases (A.upto_succ h.iterator _ _).mp hB' with hB' | hB'
    · exact absurd hB' (hm hf)
    · exact absurd ((hp.one_iff hc.row hi).mpr hB'.1) hv
  | zero hf hv =>
    obtain ⟨rfl, hj, hc, hm, hB⟩ := hw
    refine look ⟨hj, hc, fun hB' => ?_⟩ Iff.rfl fun _ => id
    exact (hp.ne_zero_iff hc.row hi).mpr hB'.1 hv
  | own hf hv =>
    obtain ⟨hj, hc, hB⟩ := hw
    have hset := (A.upto_succ h.iterator _ _).mpr (.inl ((hp.one_iff hc.row hj).mp hv))
    exact look ⟨hj, hc, hset⟩ Iff.rfl fun _ => id
  | noOwn hf hv =>
    obtain ⟨hj, hc, hB⟩ := hw
    refine look (hc.next rfl (fun _ => id) fun hB' => ?_) Iff.rfl fun _ => id
    rcases (A.upto_succ h.iterator _ _).mp hB' with hB' | hB'
    · exact absurd ((hp.one_iff hc.row hj).mpr hB') hv
    · exact absurd hB' hB
  | set =>
    obtain ⟨hj, hc, hB⟩ := hw
    refine ⟨.inr (.inl ⟨hc.next rfl (fun _ ha => one_of_set ha _) fun _ => Function.update_self ..,
      ht⟩), rfl, rfl, rfl, rfl, fun _ _ _ _ => rfl, .inl rfl,
      .inr ⟨_, _, rfl, hc.row, hj, hB, rfl⟩, .inl ⟨rfl, Iff.rfl⟩, fun _ _ hr => .inl hr⟩
  | post =>
    refine ⟨.inr (.inr ⟨trivial, ⟨?_, ?_⟩, hw⟩),
      .token _ _ _ _ _ _ (.inr rfl) Iff.rfl fun _ hr => hr⟩
    · exact (h.setSem_of_ne _ (by simp)).trans ht.1
    · rw [Shared.setSem_self, ht.2, Sync.release_zero]
  | _ => exact hw.elim

end

end NoblesseOblige.Wtc.Bag
