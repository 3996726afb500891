import NoblesseOblige.Warshall
import NoblesseOblige.Wtc.Partition

namespace NoblesseOblige.Wtc
set_option autoImplicit true

def Adjacency.Edge (A : Adjacency n) (i j : Nat) : Prop := i < n ∧ j < n ∧ A.entry i j = 1

/-- The relation Warshall's algorithm has computed after `m` rounds. -/
def Adjacency.Upto (A : Adjacency n) (m : Nat) : Nat → Nat → Prop :=
  Through A.Edge {v | v < m}

open Classical in
/-- What the programs are for: 1 where a path of length at least one leads, 0 elsewhere. -/
noncomputable def Adjacency.closure (A : Adjacency n) (i j : Nat) : Int :=
  if Relation.TransGen A.Edge i j then 1 else 0

theorem Adjacency.upto_zero (A : Adjacency n) (i j : Nat) : A.Upto 0 i j ↔ A.Edge i j :=
  through_lt_zero i j

theorem Adjacency.upto_succ (A : Adjacency n) (m i j : Nat) :
    A.Upto (m + 1) i j ↔ A.Upto m i j ∨ A.Upto m i m ∧ A.Upto m m j :=
  through_lt_succ m i j

/-- After `n` rounds every vertex has been admitted. -/
theorem Adjacency.upto_all (A : Adjacency n) (i j : Nat) :
    A.Upto n i j ↔ Relation.TransGen A.Edge i j :=
  through_lt_all (fun _ _ h => h.1) i j

/-- The cell holds the relation's value as a zero or a one. -/
def Holds (L : Layout n) (M : L.Addr → Int) (B : Nat → Nat → Prop) (i j : Nat) : Prop :=
  (B i j → M (L.cell i j) = 1) ∧ (¬ B i j → M (L.cell i j) = 0)

/-- The cells a row-major loop has passed when it stands at (y,z). -/
def Passed (y z i j : Nat) : Prop := i < y ∨ i = y ∧ j < z

def Filled (L : Layout n) (M : L.Addr → Int) (B : Nat → Nat → Prop) (y z : Nat) : Prop :=
  ∀ i j, i < n → j < n → Passed y z i j → Holds L M B i j

def Agrees (L : Layout n) (M : L.Addr → Int) (B : Nat → Nat → Prop) : Prop :=
  ∀ i j, i < n → j < n → Holds L M B i j

/-- No cell claims more than the relation allows. -/
def Below (L : Layout n) (M : L.Addr → Int) (B : Nat → Nat → Prop) : Prop :=
  ∀ i j, i < n → j < n → M (L.cell i j) = 0 ∨ M (L.cell i j) = 1 ∧ B i j

def RowDone (L : Layout n) (M : L.Addr → Int) (B : Nat → Nat → Prop) (i : Nat) : Prop :=
  ∀ j, j < n → B i j → M (L.cell i j) = 1

variable {n : Nat} {L : Layout n} {M : L.Addr → Int} {B C : Nat → Nat → Prop}

theorem Agrees.one_iff (h : Agrees L M B) (hi : i < n) (hj : j < n) :
    M (L.cell i j) = 1 ↔ B i j := by
  obtain ⟨h₁, h₀⟩ := h i j hi hj
  refine ⟨fun he => ?_, h₁⟩
  by_contra hB
  have := h₀ hB
  omega

theorem Agrees.ne_zero_iff (h : Agrees L M B) (hi : i < n) (hj : j < n) :
    M (L.cell i j) ≠ 0 ↔ B i j := by
  obtain ⟨h₁, h₀⟩ := h i j hi hj
  refine ⟨fun he => ?_, fun hB => ?_⟩
  · by_contra hB
    exact he (h₀ hB)
  · have := h₁ hB
    omega

theorem Agrees.below (h : Agrees L M B) (hB : ∀ i j, B i j → C i j) :
    Below L M C := by
  intro i j hi hj
  obtain ⟨h₁, h₀⟩ := h i j hi hj
  by_cases hb : B i j
  · exact .inr ⟨h₁ hb, hB i j hb⟩
  · exact .inl (h₀ hb)

/-- A matrix below the relation all of whose rows are complete is the relation. -/
theorem Below.agrees (h : Below L M B) (hr : ∀ i, i < n → RowDone L M B i) :
    Agrees L M B := by
  intro i j hi hj
  refine ⟨hr i hi j hj, fun hb => ?_⟩
  rcases h i j hi hj with h₀ | ⟨_, hB⟩
  · exact h₀
  · exact (hb hB).elim

theorem Below.set (h : Below L M B) (hj : j < n) (hB : B i j) :
    Below L (Function.update M (L.cell i j) 1) B := by
  intro i' j' hi' hj'
  rw [L.update_cell M 1 hj hj']
  by_cases he : i' = i ∧ j' = j
  · rw [if_pos he]
    exact .inr ⟨rfl, he.1 ▸ he.2 ▸ hB⟩
  · rw [if_neg he]
    exact h i' j' hi' hj'

theorem one_of_set [DecidableEq α] {M : α → Int} (h : M a = 1) (b : α) :
    Function.update M b 1 a = 1 := by
  by_cases he : a = b
  · rw [he, Function.update_self]
  · rwa [Function.update_of_ne he]

theorem Filled.start (L : Layout n) (M : L.Addr → Int) (B : Nat → Nat → Prop) :
    Filled L M B 0 0 := by
  intro i j _ _ hp
  rcases hp with hp | ⟨_, hp⟩ <;> omega

theorem Filled.cell (h : Filled L M B y z) (hz : z < n)
    (hv : (B y z → v = 1) ∧ (¬ B y z → v = 0)) :
    Filled L (Function.update M (L.cell y z) v) B y (z + 1) := by
  intro i j hi hj hp
  simp only [Holds, L.update_cell M v hz hj]
  by_cases he : i = y ∧ j = z
  · simp only [he.1, he.2, and_self, ↓reduceIte]
    exact hv
  · simp only [if_neg he]
    refine h i j hi hj ?_
    rcases hp with hp | ⟨hp, hq⟩
    · exact .inl hp
    · exact .inr ⟨hp, by omega⟩

theorem Filled.row (h : Filled L M B y z) (hz : n ≤ z) :
    Filled L M B (y + 1) 0 := by
  intro i j hi hj hp
  refine h i j hi hj ?_
  rcases hp with hp | ⟨_, hp⟩
  · rcases Nat.lt_succ_iff_lt_or_eq.1 hp with hp | hp
    · exact .inl hp
    · exact .inr ⟨hp, by omega⟩
  · omega

theorem Filled.agrees (h : Filled L M B y z) (hy : n ≤ y) : Agrees L M B :=
  fun i j hi hj => h i j hi hj (.inl (by omega))

theorem Agrees.congr (h : Agrees L M B) (hB : ∀ i j, B i j ↔ C i j) :
    Agrees L M C := by
  intro i j hi hj
  obtain ⟨h₁, h₀⟩ := h i j hi hj
  exact ⟨fun hc => h₁ ((hB i j).2 hc), fun hc => h₀ fun hb => hc ((hB i j).1 hb)⟩

theorem Adjacency.entry_holds (A : Adjacency n) (hi : i < n) (hj : j < n) :
    (A.Upto 0 i j → A.entry i j = 1) ∧ (¬ A.Upto 0 i j → A.entry i j = 0) := by
  rw [A.upto_zero]
  refine ⟨fun h => h.2.2, fun h => ?_⟩
  rcases A.zero_or_one i j hi hj with h₀ | h₁
  · exact h₀
  · exact (h ⟨hi, hj, h₁⟩).elim

/-- After the last round the matrix is the closure. -/
theorem Agrees.closure {A : Adjacency n} (h : Agrees L M (A.Upto n))
    (hi : i < n) (hj : j < n) : M (L.cell i j) = A.closure i j := by
  obtain ⟨h₁, h₀⟩ := h i j hi hj
  rw [A.upto_all] at h₁ h₀
  unfold Adjacency.closure
  split
  · exact h₁ ‹_›
  · exact h₀ ‹_›

/-- The entries a row-major loop over `f` has printed when it stands at (y,z). -/
def printed (n : Nat) (f : Nat → Nat → Int) (y z : Nat) : List Int :=
  ((List.range y).flatMap fun i => (List.range n).map (f i)) ++ (List.range z).map (f y)

theorem printed_cell (n : Nat) (f : Nat → Nat → Int) (y z : Nat) :
    printed n f y (z + 1) = printed n f y z ++ [f y z] := by
  simp only [printed, List.range_succ, List.map_append, List.map_cons, List.map_nil,
    List.append_assoc]

theorem printed_row (n : Nat) (f : Nat → Nat → Int) (y : Nat) :
    printed n f (y + 1) 0 = printed n f y n := by
  simp only [printed, List.range_succ, List.flatMap_append, List.flatMap_cons, List.flatMap_nil,
    List.range_zero, List.map_nil, List.append_nil]

/-- The printing loop stands at (y,z) and has printed what comes before. -/
structure Printing (n : Nat) (f : Nat → Nat → Int) (y z : Nat) (out : List Int) : Prop where
  row : y ≤ n
  col : z ≤ n
  last : y = n → z = 0
  out : out = printed n f y z

theorem Printing.start (n : Nat) (f : Nat → Nat → Int) : Printing n f 0 0 [] :=
  ⟨Nat.zero_le _, Nat.zero_le _, fun _ => rfl, rfl⟩

/-- A step of the printing loop prints the entry it stands at, moves on, or ends. -/
theorem Printing.step {Pc : Type} {emit : L.Addr → Pc → Instr L Pc} {pc : Nat → Nat → Pc}
    {done pc' : Pc} {h h' : Shared L} (p : Printing n f y z h.out)
    (he : ∀ a next, (emit a next).run s h = some ({ h with out := h.out ++ [M a] }, next))
    (hM : ∀ i j, i < n → j < n → M (L.cell i j) = f i j)
    (hs : (printLoop L emit pc done y z).run s h = some (h', pc')) :
    (∃ y' z' out, h' = { h with out := out } ∧ pc' = pc y' z' ∧ Printing n f y' z' out) ∨
      h' = h ∧ pc' = done ∧ h.out = printed n f n 0 := by
  obtain ⟨hy, hz, hl, ho⟩ := p
  unfold printLoop at hs
  split at hs
  · split at hs
    · obtain ⟨rfl, rfl⟩ := Prod.mk.inj (Option.some.inj ((he _ _).symm.trans hs))
      refine .inl ⟨y, z + 1, _, rfl, rfl, hy, ‹_›, by omega, ?_⟩
      rw [printed_cell, ho, hM y z ‹_› ‹_›]
    · obtain ⟨rfl, rfl⟩ := Prod.mk.inj (Option.some.inj hs)
      obtain rfl : z = n := by omega
      exact .inl ⟨y + 1, 0, _, rfl, rfl, ‹_›, Nat.zero_le _, fun _ => rfl,
        ho.trans (printed_row ..).symm⟩
  · obtain ⟨rfl, rfl⟩ := Prod.mk.inj (Option.some.inj hs)
    obtain rfl : y = n := by omega
    obtain rfl := hl rfl
    exact .inr ⟨rfl, rfl, ho⟩

end NoblesseOblige.Wtc
