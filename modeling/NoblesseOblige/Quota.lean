import NoblesseOblige.Tally
import Mathlib.Logic.Function.Basic

namespace NoblesseOblige.Quota
set_option autoImplicit true

/-- Somebody spends one unit, or everybody gets a new quota. -/
inductive Act (ι : Type)
  | spend (i : ι)
  | refill
  deriving DecidableEq

/-- A run spends only what is left, and refills only when nobody has anything left. -/
inductive Run [DecidableEq ι] (quota : ι → Int) : (ι → Int) → List (Act ι) → (ι → Int) → Prop
  | nil : Run quota r [] r
  | spend : 0 < r i → Run quota (Function.update r i (r i - 1)) as r' →
      Run quota r (.spend i :: as) r'
  | refill : (∀ i, r i = 0) → Run quota quota as r' → Run quota r (.refill :: as) r'

section
variable [DecidableEq ι] {quota r r' r'' : ι → Int} {as bs : List (Act ι)}

theorem Run.append (h : Run quota r as r') (h' : Run quota r' bs r'') :
    Run quota r (as ++ bs) r'' := by
  induction h with
  | nil => exact h'
  | spend hp _ ih => exact .spend hp (ih h')
  | refill hz _ ih => exact .refill hz (ih h')

/-- What is spent and what is left is what there was at first and what every refill gave. -/
theorem Run.balance (h : Run quota r as r') (i : ι) :
    (as.count (.spend i) : Int) + r' i = r i + as.count .refill * quota i := by
  induction h with
  | nil =>
    rw [List.count_nil, List.count_nil, Int.natCast_zero, Int.zero_mul]
    exact Int.add_comm _ _
  | @spend r j as r' _ _ ih =>
    rw [List.count_cons_of_ne (a := Act.refill) (by simp)]
    by_cases hj : j = i
    · subst hj
      rw [Function.update_self] at ih
      rw [List.count_cons_self]
      omega
    · rw [Function.update_of_ne (Ne.symm hj)] at ih
      rw [List.count_cons_of_ne (by simpa using hj)]
      exact ih
  | refill hz _ ih =>
    rw [List.count_cons_of_ne (by simp), List.count_cons_self, hz i, ih, Int.natCast_add,
      Int.add_mul, Int.natCast_one, Int.one_mul]
    omega

/-- Between two refills everybody spends the quota of the first one. -/
theorem Run.spent (h : Run quota quota as r') (hn : .refill ∉ as) (hz : ∀ i, r' i = 0) (i : ι) :
    (as.count (.spend i) : Int) = quota i := by
  have hb := h.balance i
  rw [List.count_eq_zero_of_not_mem hn, hz i] at hb
  omega

/-- From refill to refill everybody spends one quota for each of them. -/
theorem Run.spent_refills (h : Run quota quota as quota) (i : ι) :
    (as.count (.spend i) : Int) = as.count .refill * quota i := by
  have hb := h.balance i
  omega

theorem Run.tally_spent [DecidableEq κ] {key : ι → κ} (h : Run quota quota as quota) (k : κ)
    (l : List ι) : tally key (fun i => (as.count (.spend i) : Int)) k l =
      as.count .refill * tally key quota k l := by
  rw [tally_congr fun i _ _ => (h.spent_refills i).trans (Int.mul_comm _ _), tally_mul]
  exact Int.mul_comm _ _

end

end NoblesseOblige.Quota
