import Mathlib.Logic.Relation
import Mathlib.Data.Set.Insert

namespace NoblesseOblige
set_option autoImplicit true

/-- A path of length at least one whose intermediate vertices all lie in `S`. -/
inductive Through (E : V → V → Prop) (S : Set V) : V → V → Prop
  | edge : E i j → Through E S i j
  | step : E i k → k ∈ S → Through E S k j → Through E S i j

theorem Through.mono {E : V → V → Prop} (h : Through E S i j) (hST : S ⊆ T) :
    Through E T i j := by
  induction h with
  | edge he => exact .edge he
  | step he hk _ ih => exact .step he (hST hk) ih

/-- Two paths join at a vertex that the joined path may pass. -/
theorem Through.join {E : V → V → Prop} (h : Through E S i k) (hk : k ∈ S)
    (h' : Through E S k j) : Through E S i j := by
  induction h with
  | edge he => exact .step he hk h'
  | step he hm _ ih => exact .step he hm (ih hk h')

theorem Through.transGen {E : V → V → Prop} (h : Through E S i j) :
    Relation.TransGen E i j := by
  induction h with
  | edge he => exact .single he
  | step he _ _ ih => exact ih.head he

theorem through_univ (E : V → V → Prop) (i j : V) :
    Through E Set.univ i j ↔ Relation.TransGen E i j := by
  constructor
  · exact Through.transGen
  · intro h
    induction h using Relation.TransGen.head_induction_on with
    | single he => exact .edge he
    | head he _ ih => exact .step he (Set.mem_univ _) ih

theorem through_empty (E : V → V → Prop) (i j : V) : Through E ∅ i j ↔ E i j := by
  constructor
  · intro h
    cases h with
    | edge he => exact he
    | step _ hk _ => exact hk.elim
  · exact .edge

/-- A path may be cut at its visits to `k`: either it avoids `k`, or it reaches `k` and
leaves it again without passing `k` in between. -/
theorem Through.split {E : V → V → Prop} (h : Through E (insert k S) i j) :
    Through E S i j ∨ Through E S i k ∧ Through E S k j := by
  induction h with
  | edge he => exact .inl (.edge he)
  | @step i m j he hm _ ih =>
    rcases Set.mem_insert_iff.1 hm with hk | hk
    · subst hk
      rcases ih with hj | ⟨_, hj⟩
      · exact .inr ⟨.edge he, hj⟩
      · exact .inr ⟨.edge he, hj⟩
    · rcases ih with hj | ⟨hmk, hj⟩
      · exact .inl (.step he hk hj)
      · exact .inr ⟨.step he hk hmk, hj⟩

/-- Warshall's recurrence: admitting one more intermediate vertex. -/
theorem through_insert (E : V → V → Prop) (S : Set V) (k i j : V) :
    Through E (insert k S) i j ↔ Through E S i j ∨ Through E S i k ∧ Through E S k j := by
  constructor
  · exact Through.split
  · rintro (h | ⟨hi, hj⟩)
    · exact h.mono (Set.subset_insert k S)
    · exact (hi.mono (Set.subset_insert k S)).join (Set.mem_insert k S)
        (hj.mono (Set.subset_insert k S))

theorem Through.source {E : V → V → Prop} (h : Through E S i j) : ∃ m, E i m := by
  cases h with
  | edge he => exact ⟨_, he⟩
  | step he _ _ => exact ⟨_, he⟩

/-- Intermediate vertices have an outgoing edge, so only those with one need be admitted. -/
theorem Through.narrow {E : V → V → Prop} (h : Through E S i j)
    (hT : ∀ k ∈ S, (∃ m, E k m) → k ∈ T) : Through E T i j := by
  induction h with
  | edge he => exact .edge he
  | step he hk hr ih => exact .step he (hT _ hk hr.source) ih

section
variable {E : Nat → Nat → Prop}

/-- The recurrence with the vertices admitted in order. -/
theorem through_lt_zero (i j : Nat) : Through E {v | v < 0} i j ↔ E i j := by
  have he : {v : Nat | v < 0} = ∅ := by
    ext v
    simp
  rw [he, through_empty]

theorem through_lt_succ (m i j : Nat) : Through E {v | v < m + 1} i j ↔
    Through E {v | v < m} i j ∨ Through E {v | v < m} i m ∧ Through E {v | v < m} m j := by
  have he : {v : Nat | v < m + 1} = insert m {v | v < m} := by
    ext v
    simp only [Set.mem_ofPred_eq, Set.mem_insert_iff]
    omega
  rw [he, through_insert]

/-- When every vertex with an edge is admitted the paths are those of the transitive closure. -/
theorem through_lt_all (hE : ∀ i j, E i j → i < n) (i j : Nat) :
    Through E {v | v < n} i j ↔ Relation.TransGen E i j := by
  rw [← through_univ]
  constructor
  · exact fun h => h.mono (Set.subset_univ _)
  · intro h
    apply h.narrow
    rintro k _ ⟨m, hk⟩
    exact hE k m hk

end

end NoblesseOblige
