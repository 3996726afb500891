import NoblesseOblige.CString

namespace NoblesseOblige.CString
set_option autoImplicit true

/-- `fscanf(fp, "%d", &v)`: `none` at the end of the file, otherwise what `v` is then and what is
left to read. Where no number stands `v` keeps its value. -/
def fscanf (s : Text) (v : Int) : Option (Int × Text) :=
  match s.dropWhile isspace with
  | [] => none
  | c :: t =>
    let body := if c = '-' ∨ c = '+' then t else c :: t
    if body.takeWhile Char.isDigit = [] then some (v, body)
    else some (atoi (c :: t), body.dropWhile Char.isDigit)

/-- White space only. -/
def Blank (w : Text) : Prop := ∀ c ∈ w, isspace c = true

instance (w : Text) : Decidable (Blank w) :=
  decidable_of_iff (w.all isspace = true) List.all_eq_true

/-- A text of decimal numbers, leading zeros allowed, with white space between them. -/
inductive Numbers : Text → List Nat → Prop
  | nil : Blank s → Numbers s []
  | cons : Blank w → d ≠ [] → (∀ c ∈ d, c.isDigit = true) →
      (∀ c, s.head? = some c → isspace c = true) → Numbers s vs →
      Numbers (w ++ (d ++ s)) (digits d :: vs)

theorem Numbers.of_all (hw : w.all isspace = true) (hne : d ≠ [])
    (hd : d.all Char.isDigit = true) (hs : s.head?.all isspace = true) (h : Numbers s vs) :
    Numbers (w ++ (d ++ s)) (digits d :: vs) := by
  refine .cons (List.all_eq_true.mp hw) hne (List.all_eq_true.mp hd) ?_ h
  intro c hc
  rw [hc] at hs
  exact hs

/-- The text does not go on with a digit. -/
def Ends (s : Text) : Prop := ∀ c, s.head? = some c → c.isDigit = false

theorem Ends.of_isspace (h : ∀ c, s.head? = some c → isspace c = true) : Ends s := by
  intro c hc
  cases hd : c.isDigit with
  | false => rfl
  | true =>
    have hs := h c hc
    rw [isspace_of_isDigit hd] at hs
    cases hs

theorem takeWhile_isDigit (hd : ∀ c ∈ d, c.isDigit = true) (hs : Ends s) :
    (d ++ s).takeWhile Char.isDigit = d := by
  rw [List.takeWhile_append_of_pos hd]
  cases s with
  | nil => exact List.append_nil d
  | cons c s =>
    have hc := hs c rfl
    rw [List.takeWhile_cons_of_neg (by simp [hc]), List.append_nil]

theorem dropWhile_isDigit (hd : ∀ c ∈ d, c.isDigit = true) (hs : Ends s) :
    (d ++ s).dropWhile Char.isDigit = s := by
  rw [List.dropWhile_append_of_pos hd]
  cases s with
  | nil => rfl
  | cons c s =>
    have hc := hs c rfl
    exact List.dropWhile_cons_of_neg (by simp [hc])

theorem digits_append (hd : ∀ c ∈ d, c.isDigit = true) (hs : Ends s) :
    digits (d ++ s) = digits d := by
  have ht : d.takeWhile Char.isDigit = d := List.takeWhile_eq_self_iff.mpr hd
  rw [digits, takeWhile_isDigit hd hs, digits, ht]

theorem dropWhile_isspace (hw : Blank w) (hd : ∀ c ∈ d, c.isDigit = true)
    (hne : d ≠ []) : (w ++ (d ++ s)).dropWhile isspace = d ++ s := by
  rw [List.dropWhile_append_of_pos hw]
  cases d with
  | nil => exact absurd rfl hne
  | cons c d =>
    have hc := isspace_of_isDigit (hd c List.mem_cons_self)
    exact List.dropWhile_cons_of_neg (by simp [hc])

theorem atoi_append (hd : ∀ c ∈ d, c.isDigit = true) (hne : d ≠ []) (hs : Ends s)
    (hlt : digits d < 2 ^ 31) : atoi (d ++ s) = digits d := by
  have hdrop : (d ++ s).dropWhile isspace = d ++ s :=
    dropWhile_isspace (w := []) (fun c hc => by cases hc) hd hne
  have hsigned : signed (d ++ s) = digits d := by
    cases d with
    | nil => exact absurd rfl hne
    | cons c d =>
      rw [List.cons_append, signed_of_isDigit (hd c List.mem_cons_self), ← List.cons_append,
        digits_append hd hs]
  rw [atoi, strtol, hdrop, hsigned, toInt_of_nonneg (by omega) (by omega)]
  omega

/-- A number after white space is read, up to what follows it. -/
theorem fscanf_digits (hw : Blank w) (hd : ∀ c ∈ d, c.isDigit = true)
    (hne : d ≠ []) (hs : Ends s) (hlt : digits d < 2 ^ 31) (v : Int) :
    fscanf (w ++ (d ++ s)) v = some ((digits d : Int), s) := by
  have hread := atoi_append hd hne hs hlt
  have htake := takeWhile_isDigit hd hs
  have hrest := dropWhile_isDigit hd hs
  rw [fscanf, dropWhile_isspace hw hd hne]
  cases d with
  | nil => exact absurd rfl hne
  | cons c d =>
    have hsign : ¬ (c = '-' ∨ c = '+') := by
      have hc := hd c List.mem_cons_self
      rintro (rfl | rfl) <;> cases hc
    rw [List.cons_append] at hread htake hrest ⊢
    simp only [if_neg hsign, htake, hread, hrest, List.cons_ne_nil, if_false]

theorem fscanf_neg (hw : Blank w) (hd : ∀ c ∈ d, c.isDigit = true)
    (hne : d ≠ []) (hs : Ends s) (hlt : digits d ≤ 2 ^ 31) (v : Int) :
    fscanf (w ++ ('-' :: d ++ s)) v = some (-(digits d : Int), s) := by
  have htake := takeWhile_isDigit hd hs
  have hrest := dropWhile_isDigit hd hs
  have hsp : isspace '-' = false := by decide
  have hread : atoi ('-' :: (d ++ s)) = -(digits d : Int) := by
    rw [atoi, strtol, List.dropWhile_cons_of_neg (by simp [hsp])]
    simp only [signed, digits_append hd hs]
    rw [toInt_eq_self (by omega) (by omega)]
    omega
  rw [fscanf, List.dropWhile_append_of_pos hw, List.cons_append,
    List.dropWhile_cons_of_neg (by simp [hsp])]
  simp only [true_or, if_true, htake, hne, if_false, hread, hrest]

/-- What `%d` prints is read back. -/
theorem fscanf_dec {x : Int} (hw : Blank w) (hs : Ends s) (hx : -2 ^ 31 ≤ x)
    (hx' : x < 2 ^ 31) (v : Int) : fscanf (w ++ (dec x ++ s)) v = some (x, s) := by
  have hd : ∀ c ∈ decNat x.natAbs, c.isDigit = true := fun c hc => isDigit_of_mem_decNat hc
  have hv := digits_decNat x.natAbs
  rw [dec]
  split
  · rw [fscanf_neg hw hd (decNat_ne_nil _) hs (by omega), hv]
    congr 2
    omega
  · rw [fscanf_digits hw hd (decNat_ne_nil _) hs (by omega), hv]
    congr 2
    omega

theorem Numbers.fscanf_nil (h : Numbers s []) (v : Int) : fscanf s v = none := by
  cases h with
  | nil h =>
    rw [fscanf, List.dropWhile_eq_nil_iff.mpr h]

theorem Numbers.fscanf_cons (h : Numbers s (a :: vs)) (ha : a < 2 ^ 31) (v : Int) :
    ∃ t, fscanf s v = some ((a : Int), t) ∧ Numbers t vs ∧ t.length < s.length := by
  cases h with
  | @cons w d s _ hw hne hd hs ht =>
    refine ⟨s, fscanf_digits hw hd hne (.of_isspace hs) ha v, ht, ?_⟩
    have := List.length_pos_iff.mpr hne
    simp only [List.length_append]
    omega

/-- What a scan finds whatever the variable holds: the number, if one stands there, and the rest. -/
def convert (s : Text) : Option (Option Int × Text) :=
  match s.dropWhile isspace with
  | [] => none
  | c :: t =>
    let body := if c = '-' ∨ c = '+' then t else c :: t
    if body.takeWhile Char.isDigit = [] then some (none, body)
    else some (some (atoi (c :: t)), body.dropWhile Char.isDigit)

theorem fscanf_eq_convert (s : Text) (v : Int) :
    fscanf s v = (convert s).map fun p => (p.1.getD v, p.2) := by
  rw [fscanf, convert]
  cases s.dropWhile isspace with
  | nil => rfl
  | cons c t =>
    simp only
    generalize (if c = '-' ∨ c = '+' then t else c :: t) = body
    split <;> rfl

/-- The characters that `%d` reads: white space, digits and signs. -/
def numeric (c : Char) : Bool := isspace c || c.isDigit || c = '+' || c = '-'

/-- A scan that meets anything but white space reads up to the end of the digits. -/
theorem fscanf_cons (h : s.dropWhile isspace = c :: r) (v : Int) :
    ∃ w, fscanf s v =
      some (w, (if c = '-' ∨ c = '+' then r else c :: r).dropWhile Char.isDigit) := by
  rw [fscanf, h]
  simp only
  generalize (if c = '-' ∨ c = '+' then r else c :: r) = body
  split
  · rename_i hd
    have hsplit := List.takeWhile_append_dropWhile (p := Char.isDigit) (l := body)
    rw [hd, List.nil_append] at hsplit
    exact ⟨v, by rw [hsplit]⟩
  · exact ⟨_, rfl⟩

theorem fscanf_eq_none_iff : fscanf s v = none ↔ Blank s := by
  cases hs : s.dropWhile isspace with
  | nil => exact iff_of_true (by rw [fscanf, hs]) (List.dropWhile_eq_nil_iff.mp hs)
  | cons c r =>
    obtain ⟨w, hw⟩ := fscanf_cons hs v
    refine iff_of_false (by simp [hw]) fun hb => ?_
    rw [List.dropWhile_eq_nil_iff.mpr hb] at hs
    cases hs

theorem numeric_of_mem_digits {s : Text} (h : c ∈ s.takeWhile Char.isDigit) :
    numeric c = true := by
  have := List.mem_takeWhile_imp h
  simp [numeric, this]

theorem numeric_of_mem_blank {s : Text} (h : c ∈ s.takeWhile isspace) : numeric c = true := by
  have := List.mem_takeWhile_imp h
  simp [numeric, this]

/-- A scan reads numeric characters only, and none at all only in front of another one. -/
theorem fscanf_spec (h : fscanf s v = some (w, t)) :
    ∃ u, s = u ++ t ∧ (∀ c ∈ u, numeric c = true) ∧
      (u = [] → ∃ c ∈ t, numeric c = false) := by
  have hsplit := List.takeWhile_append_dropWhile (p := isspace) (l := s)
  cases hs : s.dropWhile isspace with
  | nil =>
    rw [fscanf, hs] at h
    cases h
  | cons c r =>
    obtain ⟨w', hw⟩ := fscanf_cons hs v
    obtain ⟨-, rfl⟩ := Prod.mk.inj (Option.some.inj (hw.symm.trans h))
    rw [hs] at hsplit
    by_cases hsign : c = '-' ∨ c = '+'
    · have hc : numeric c = true := by
        rcases hsign with rfl | rfl <;> decide
      refine ⟨s.takeWhile isspace ++ c :: r.takeWhile Char.isDigit, ?_, fun d hd => ?_, by simp⟩
      · rw [if_pos hsign, List.append_assoc, List.cons_append, List.takeWhile_append_dropWhile,
          hsplit]
      · rcases List.mem_append.mp hd with hd | hd
        · exact numeric_of_mem_blank hd
        · rcases List.mem_cons.mp hd with rfl | hd
          · exact hc
          · exact numeric_of_mem_digits hd
    · refine ⟨s.takeWhile isspace ++ (c :: r).takeWhile Char.isDigit, ?_, fun d hd => ?_,
        fun hnil => ?_⟩
      · rw [if_neg hsign, List.append_assoc, List.takeWhile_append_dropWhile, hsplit]
      · rcases List.mem_append.mp hd with hd | hd
        · exact numeric_of_mem_blank hd
        · exact numeric_of_mem_digits hd
      · have hspace : isspace c = false := by
          have := List.head?_dropWhile_not isspace s
          rw [hs] at this
          simpa using this
        have hdigit : c.isDigit = false := by
          cases hd : c.isDigit with
          | false => rfl
          | true =>
            rw [List.takeWhile_cons_of_pos hd] at hnil
            exact absurd (List.append_eq_nil_iff.mp hnil).2 (List.cons_ne_nil _ _)
        rw [not_or] at hsign
        refine ⟨c, ?_, by simp [numeric, hspace, hdigit, hsign]⟩
        rw [if_neg (not_or.mpr hsign), List.dropWhile_cons_of_neg (by simp [hdigit])]
        exact List.mem_cons_self

end NoblesseOblige.CString
