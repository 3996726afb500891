import Mathlib.Algebra.BigOperators.Group.List.Basic
import Mathlib.Algebra.Order.BigOperators.Group.List
import Mathlib.Algebra.Order.Group.Int
import Mathlib.Data.Nat.Count

namespace NoblesseOblige
set_option autoImplicit true

/-- The total of `f` over the entries of the list that belong to `k`. -/
def tally [DecidableEq κ] (key : α → κ) (f : α → Int) (k : κ) : List α → Int
  | [] => 0
  | a :: l => (if key a = k then f a else 0) + tally key f k l

section
variable [DecidableEq κ] {key : α → κ} {f g : α → Int} {k : κ} {l : List α}

@[simp] theorem tally_nil : tally key f k [] = 0 := rfl

theorem tally_cons : tally key f k (a :: l) = (if key a = k then f a else 0) + tally key f k l :=
  rfl

@[simp] theorem tally_append (l l' : List α) :
    tally key f k (l ++ l') = tally key f k l + tally key f k l' := by
  induction l with
  | nil => simp
  | cons a l ih => simp only [List.cons_append, tally_cons, ih, Int.add_assoc]

theorem tally_map {u : β → α} (l : List β) :
    tally key f k (l.map u) = tally (key ∘ u) (f ∘ u) k l := by
  induction l with
  | nil => rfl
  | cons a l ih => simp only [List.map_cons, tally_cons, ih, Function.comp_apply]

theorem tally_congr (h : ∀ a ∈ l, key a = k → f a = g a) :
    tally key f k l = tally key g k l := by
  induction l with
  | nil => rfl
  | cons a l ih =>
    rw [tally_cons, tally_cons, ih fun b hb => h b (List.mem_cons_of_mem a hb)]
    congr 1
    split
    · exact h a List.mem_cons_self ‹_›
    · rfl

theorem tally_le_tally (h : ∀ a ∈ l, key a = k → f a ≤ g a) :
    tally key f k l ≤ tally key g k l := by
  induction l with
  | nil => exact Int.le_refl 0
  | cons a l ih =>
    have hl := ih fun b hb => h b (List.mem_cons_of_mem a hb)
    have ha := h a List.mem_cons_self
    rw [tally_cons, tally_cons]
    split
    · have := ha ‹_›
      omega
    · omega

theorem tally_add : tally key (fun a => f a + g a) k l = tally key f k l + tally key g k l := by
  induction l with
  | nil => rfl
  | cons a l ih =>
    rw [tally_cons, tally_cons, tally_cons, ih]
    split <;> omega

theorem tally_mul (c : Int) : tally key (fun a => f a * c) k l = tally key f k l * c := by
  induction l with
  | nil => rw [tally_nil, tally_nil, Int.zero_mul]
  | cons a l ih =>
    rw [tally_cons, tally_cons, ih, Int.add_mul]
    split <;> simp

theorem tally_nonneg (h : ∀ a ∈ l, key a = k → 0 ≤ f a) : 0 ≤ tally key f k l := by
  induction l with
  | nil => exact Int.le_refl 0
  | cons a l ih =>
    have hl := ih fun b hb => h b (List.mem_cons_of_mem a hb)
    have ha := h a List.mem_cons_self
    rw [tally_cons]
    split
    · have := ha ‹_›
      omega
    · omega

theorem le_tally (h : ∀ a ∈ l, key a = k → 0 ≤ f a) (ha : a ∈ l) (hk : key a = k) :
    f a ≤ tally key f k l := by
  induction l with
  | nil => cases ha
  | cons b l ih =>
    have hl : ∀ c ∈ l, key c = k → 0 ≤ f c := fun c hc => h c (List.mem_cons_of_mem b hc)
    rw [tally_cons]
    rcases List.mem_cons.mp ha with rfl | ha
    · rw [if_pos hk]
      have := tally_nonneg hl
      omega
    · have := ih hl ha
      have := h b List.mem_cons_self
      split
      · have := this ‹_›
        omega
      · omega

theorem tally_pos_iff (h : ∀ a ∈ l, key a = k → 0 ≤ f a) :
    1 ≤ tally key f k l ↔ ∃ a ∈ l, key a = k ∧ 1 ≤ f a := by
  constructor
  · intro h1
    by_contra hn
    have hz : tally key f k l ≤ tally key (fun _ => 0 * 0) k l := by
      refine tally_le_tally fun a ha hk => ?_
      by_contra hf
      exact hn ⟨a, ha, hk, by omega⟩
    rw [tally_mul, Int.mul_zero] at hz
    omega
  · rintro ⟨a, ha, hk, h1⟩
    have := le_tally h ha hk
    omega

/-- The entries of one key and the others are all the entries. -/
theorem tally_one_add_others :
    tally key (fun _ => 1) k l + (l.filter fun a => key a ≠ k).length = l.length := by
  induction l with
  | nil => rfl
  | cons a l ih =>
    rw [tally_cons, List.filter_cons, List.length_cons]
    by_cases h : key a = k
    · simp only [h, if_true, ne_eq, not_true_eq_false, decide_false, Bool.false_eq_true, if_false,
        Int.natCast_add] at ih ⊢
      omega
    · simp only [h, if_false, ne_eq, not_false_eq_true, decide_true, if_true, List.length_cons,
        Int.natCast_add] at ih ⊢
      omega

/-- Taking out the first entry that passes a test takes its value off its own key's total. -/
theorem tally_eraseP {p : α → Bool} (h : l.find? p = some a) :
    tally key f k (l.eraseP p) = tally key f k l - if key a = k then f a else 0 := by
  induction l with
  | nil => cases h
  | cons b l ih =>
    rw [List.find?_cons] at h
    rw [List.eraseP_cons, tally_cons]
    cases hp : p b with
    | true =>
      rw [hp] at h
      obtain rfl := Option.some.inj h
      simp only [cond_true]
      omega
    | false =>
      rw [hp] at h
      simp only [cond_false]
      rw [tally_cons, ih h]
      omega

/-- Replacing an entry by one of the same key moves that key's total by the difference. -/
theorem tally_set {i : Nat} (h : l[i]? = some a) (hk : key b = key a) :
    tally key f k (l.set i b) = tally key f k l + if key a = k then f b - f a else 0 := by
  induction l generalizing i with
  | nil => cases h
  | cons c l ih =>
    cases i with
    | zero =>
      obtain rfl : c = a := Option.some.inj h
      rw [List.set_cons_zero, tally_cons, tally_cons, hk]
      split <;> omega
    | succ i =>
      rw [List.set_cons_succ, tally_cons, tally_cons, ih (by simpa using h)]
      omega

end

/-- How many of the first `n` numbers lie below `c`. -/
theorem count_lt (h : c ≤ n) : Nat.count (fun j => j < c) n = c := by
  induction n with
  | zero => exact (Nat.le_zero.mp h).symm ▸ rfl
  | succ n ih =>
    rw [Nat.count_succ]
    rcases Nat.lt_or_ge n c with hlt | hge
    · have hc : c = n + 1 := by omega
      subst hc
      rw [if_pos hlt]
      congr 1
      refine (Nat.count_iff_forall).mpr fun j hj => ?_
      omega
    · rw [if_neg (by omega), ih hge, Nat.add_zero]

end NoblesseOblige
