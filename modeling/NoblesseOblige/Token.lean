import NoblesseOblige.CString

namespace NoblesseOblige.CString
set_option autoImplicit true

/-- The token that the call number `n` of `strtok` on a text returns. -/
def token (δ : Char → Bool) : Nat → Text → Option Text
  | 0, s => (strtok δ s).1
  | n + 1, s => token δ n (strtok δ s).2

/-- The number of characters up to the end of token `n`. -/
def tokenEnd (δ : Char → Bool) : Nat → Text → Nat
  | 0, s => (s.takeWhile δ).length + ((s.dropWhile δ).takeWhile fun c => !δ c).length
  | n + 1, s => s.length - (strtok δ s).2.length + tokenEnd δ n (strtok δ s).2

/-- What `strtok` does on a text and on a text that goes on after it. -/
inductive Cut (δ : Char → Bool) (p t : Text) : Prop
  | blank (h : strtok δ p = (none, [])) (h' : strtok δ (p ++ t) = strtok δ t)
      (he : tokenEnd δ 0 (p ++ t) = p.length + tokenEnd δ 0 t)
  | whole (w p' : Text) (h : strtok δ p = (some w, p')) (h' : strtok δ (p ++ t) = (some w, p' ++ t))
      (he : tokenEnd δ 0 (p ++ t) ≤ p.length)
  | inside (w u t' : Text) (h : strtok δ p = (some w, []))
      (h' : strtok δ (p ++ t) = (some (w ++ u), t')) (ht : t'.length + u.length ≤ t.length)
      (he : tokenEnd δ 0 (p ++ t) = p.length + u.length)

section
variable {δ : Char → Bool} {p t s w : Text}

theorem token_nil (n : Nat) : token δ n [] = none := by
  induction n with
  | zero => rfl
  | succ n ih => exact ih

theorem token_isSome_of_succ (h : (token δ (n + 1) s).isSome = true) :
    (token δ n s).isSome = true := by
  induction n generalizing s with
  | zero =>
    cases hs : strtok δ s with
    | mk w s' =>
      cases w with
      | some w => rw [token, hs]; rfl
      | none =>
        obtain rfl := strtok_none hs
        rw [token, hs, token_nil] at h
        cases h
  | succ n ih => exact ih h

theorem strtok_rest_le (s : Text) : (strtok δ s).2.length ≤ s.length := by
  cases h : strtok δ s with
  | mk w s' =>
    cases w with
    | none =>
      rw [strtok_none h]
      exact Nat.zero_le _
    | some w => exact Nat.le_of_lt (strtok_length_lt h)

theorem tokenEnd_delim (h : δ c = true) (s : Text) :
    tokenEnd δ 0 (c :: s) = tokenEnd δ 0 s + 1 := by
  simp only [tokenEnd, List.takeWhile_cons_of_pos h, List.dropWhile_cons_of_pos h,
    List.length_cons]
  omega

theorem tokenEnd_of_head (h : δ c = false) (s : Text) :
    tokenEnd δ 0 (c :: s) = (s.takeWhile fun c => !δ c).length + 1 := by
  have hn : ¬ δ c = true := by simp [h]
  rw [tokenEnd, List.takeWhile_cons_of_neg hn, List.dropWhile_cons_of_neg hn,
    List.takeWhile_cons_of_pos (by simp [h])]
  exact Nat.zero_add _

theorem cut_of_head (h : δ c = false) (p t : Text) : Cut δ (c :: p) t := by
  cases hd : p.dropWhile fun c => !δ c with
  | nil =>
    have hall : ∀ c ∈ p, (!δ c) = true := List.dropWhile_eq_nil_iff.mp hd
    refine .inside (c :: p) (t.takeWhile fun c => !δ c) (t.dropWhile fun c => !δ c).tail ?_ ?_ ?_ ?_
    · rw [strtok_of_head h, List.takeWhile_eq_self_iff.mpr hall, hd]
      rfl
    · rw [List.cons_append, strtok_of_head h, List.takeWhile_append_of_pos hall,
        List.dropWhile_append_of_pos hall]
      rfl
    · have hl := congrArg List.length
        (List.takeWhile_append_dropWhile (l := t) (p := fun c => !δ c))
      rw [List.length_append] at hl
      rw [List.length_tail]
      omega
    · rw [List.cons_append, tokenEnd_of_head h, List.takeWhile_append_of_pos hall,
        List.length_append, List.length_cons]
      omega
  | cons d q =>
    have hl := congrArg List.length (List.takeWhile_append_dropWhile (l := p) (p := fun c => !δ c))
    rw [List.length_append, hd, List.length_cons] at hl
    have htake : (p ++ t).takeWhile (fun c => !δ c) = p.takeWhile fun c => !δ c := by
      rw [List.takeWhile_append, if_neg (by omega)]
    have hdrop : (p ++ t).dropWhile (fun c => !δ c) = d :: (q ++ t) := by
      rw [List.dropWhile_append, hd]
      rfl
    refine .whole (c :: p.takeWhile fun c => !δ c) q ?_ ?_ ?_
    · rw [strtok_of_head h, hd]
      rfl
    · rw [List.cons_append, strtok_of_head h, htake, hdrop]
      rfl
    · rw [List.cons_append, tokenEnd_of_head h, htake, List.length_cons]
      omega

theorem cut (δ : Char → Bool) (p t : Text) : Cut δ p t := by
  induction p with
  | nil => exact .blank rfl rfl (Nat.zero_add _).symm
  | cons c p ih =>
    cases hc : δ c with
    | false => exact cut_of_head hc p t
    | true =>
      cases ih with
      | blank h h' he =>
        refine .blank (by rw [strtok_delim hc, h])
          (by rw [List.cons_append, strtok_delim hc, h']) ?_
        rw [List.cons_append, tokenEnd_delim hc, he, List.length_cons]
        omega
      | whole w p' h h' he =>
        refine .whole w p' (by rw [strtok_delim hc, h])
          (by rw [List.cons_append, strtok_delim hc, h']) ?_
        rw [List.cons_append, tokenEnd_delim hc, List.length_cons]
        omega
      | inside w u t' h h' ht he =>
        refine .inside w u t' (by rw [strtok_delim hc, h])
          (by rw [List.cons_append, strtok_delim hc, h']) ht ?_
        rw [List.cons_append, tokenEnd_delim hc, he, List.length_cons]
        omega

theorem tokenEnd_pos (h : token δ n s = some w) : 0 < tokenEnd δ n s := by
  induction n generalizing s with
  | zero =>
    cases s with
    | nil => cases h
    | cons c s =>
      cases hc : δ c with
      | true =>
        rw [tokenEnd_delim hc]
        exact Nat.succ_pos _
      | false =>
        rw [tokenEnd_of_head hc]
        exact Nat.succ_pos _
  | succ n ih => exact Nat.lt_of_lt_of_le (ih h) (Nat.le_add_left _ _)

/-- Once the first token has used up all of `p`, the next ones end beyond it. -/
theorem lt_tokenEnd_succ (hle : n + (strtok δ s).2.length ≤ s.length)
    (h : token δ (m + 1) s = some w) : n < tokenEnd δ (m + 1) s := by
  have hpos : 0 < tokenEnd δ m (strtok δ s).2 := tokenEnd_pos h
  rw [tokenEnd]
  omega

/-- The tokens of a text and of one that goes on after it. A token of the first ends before the
second goes on, or is the last of the first and may go on itself. -/
theorem token_append (n : Nat) (p t : Text) :
    (token δ n p = none ∧ ∀ w, token δ n (p ++ t) = some w → p.length < tokenEnd δ n (p ++ t)) ∨
    ∃ w u, token δ n p = some w ∧ token δ n (p ++ t) = some (w ++ u) ∧
      (u = [] ↔ tokenEnd δ n (p ++ t) ≤ p.length) ∧
      ∀ i < n, token δ i p = token δ i (p ++ t) := by
  induction n generalizing p t with
  | zero =>
    cases cut δ p t with
    | blank h h' he =>
      refine .inl ⟨congrArg Prod.fst h, fun w hw => ?_⟩
      have ht : token δ 0 t = some w := (congrArg Prod.fst h').symm.trans hw
      have := tokenEnd_pos ht
      omega
    | whole w p' h h' he =>
      refine .inr ⟨w, [], congrArg Prod.fst h, ?_, ⟨fun _ => he, fun _ => rfl⟩,
        fun i hi => absurd hi (Nat.not_lt_zero i)⟩
      rw [List.append_nil]
      exact congrArg Prod.fst h'
    | inside w u t' h h' ht he =>
      refine .inr ⟨w, u, congrArg Prod.fst h, congrArg Prod.fst h', ?_,
        fun i hi => absurd hi (Nat.not_lt_zero i)⟩
      rw [he, ← List.length_eq_zero_iff]
      omega
  | succ n ih =>
    cases cut δ p t with
    | blank h h' he =>
      refine .inl ⟨?_, fun w hw => ?_⟩
      · rw [token, h]
        exact token_nil n
      · refine lt_tokenEnd_succ ?_ hw
        have := strtok_rest_le (δ := δ) t
        rw [h', List.length_append]
        omega
    | inside w u t' h h' ht he =>
      refine .inl ⟨?_, fun w hw => ?_⟩
      · rw [token, h]
        exact token_nil n
      · refine lt_tokenEnd_succ ?_ hw
        rw [h', List.length_append]
        simp only
        omega
    | whole w p' h h' he =>
      have hlt := strtok_length_lt h
      have hend : tokenEnd δ (n + 1) (p ++ t) =
          p.length - p'.length + tokenEnd δ n (p' ++ t) := by
        rw [tokenEnd, h', List.length_append, List.length_append, Nat.add_sub_add_right]
      rw [hend, token, token, h, h']
      rcases ih p' t with ⟨hn, hlast⟩ | ⟨v, u, hv, hvu, hu, hbefore⟩
      · refine .inl ⟨hn, fun v hv => ?_⟩
        have := hlast v hv
        omega
      · refine .inr ⟨v, u, hv, hvu, ?_, fun i hi => ?_⟩
        · rw [hu]
          omega
        · cases i with
          | zero => rw [token, token, h, h']
          | succ i =>
            rw [token, token, h, h']
            exact hbefore i (by omega)

end

end NoblesseOblige.CString
