import Mathlib.Algebra.Order.Ring.Int
import Mathlib.Data.List.TakeWhile
import Mathlib.Data.List.TakeDrop

namespace NoblesseOblige.CString
set_option autoImplicit true

/-- The contents of a `char *`, without the terminator. -/
abbrev Text := List Char

def nul : Char := Char.ofNat 0

/-- The text in a buffer: what stands before the first terminator. -/
def cstr (buf : List Char) : Text := buf.takeWhile (· ≠ nul)

theorem cstr_eq_self (h : nul ∉ s) : cstr s = s := by
  refine List.takeWhile_eq_self_iff.mpr fun c hc => decide_eq_true ?_
  rintro rfl
  exact h hc

theorem cstr_append_nul (h : nul ∉ s) (rest : List Char) : cstr (s ++ nul :: rest) = s := by
  have hs := cstr_eq_self h
  unfold cstr at hs ⊢
  rw [List.takeWhile_append, hs, if_pos rfl]
  simp

/-- `strtok(s, δ)`, or `strtok(NULL, δ)` at the saved position `s`: the next token and the
position that is saved. -/
def strtok (δ : Char → Bool) (s : Text) : Option Text × Text :=
  match s.dropWhile δ with
  | [] => (none, [])
  | t => (some (t.takeWhile fun c => !δ c), (t.dropWhile fun c => !δ c).tail)

section
variable {δ : Char → Bool} {s w : Text}

theorem strtok_delim (h : δ c = true) : strtok δ (c :: s) = strtok δ s := by
  unfold strtok
  rw [List.dropWhile_cons_of_pos h]

theorem strtok_of_head (h : δ c = false) : strtok δ (c :: s) =
    (some (c :: s.takeWhile fun c => !δ c), (s.dropWhile fun c => !δ c).tail) := by
  unfold strtok
  rw [List.dropWhile_cons_of_neg (by simp [h])]
  simp [h]

theorem strtok_token (hw : w ≠ []) (h : ∀ c ∈ w, δ c = false) (hd : δ d = true) :
    strtok δ (w ++ d :: s) = (some w, s) := by
  cases w with
  | nil => exact absurd rfl hw
  | cons c w =>
    have hall : ∀ c ∈ w, (!δ c) = true := fun c hc => by simp [h c (List.mem_cons_of_mem _ hc)]
    rw [List.cons_append, strtok_of_head (h c List.mem_cons_self),
      List.takeWhile_append_of_pos hall, List.dropWhile_append_of_pos hall]
    simp [hd]

theorem strtok_last (hw : w ≠ []) (h : ∀ c ∈ w, δ c = false) : strtok δ w = (some w, []) := by
  cases w with
  | nil => exact absurd rfl hw
  | cons c w =>
    have hall : ∀ c ∈ w, (!δ c) = true := fun c hc => by simp [h c (List.mem_cons_of_mem _ hc)]
    rw [strtok_of_head (h c List.mem_cons_self), List.takeWhile_eq_self_iff.mpr hall,
      List.dropWhile_eq_nil_iff.mpr hall]
    rfl

/-- A token is not empty and holds no delimiter. -/
theorem strtok_spec (h : strtok δ s = (some w, s')) : w ≠ [] ∧ ∀ c ∈ w, δ c = false := by
  induction s with
  | nil => cases h
  | cons c s ih =>
    cases hc : δ c with
    | true => exact ih (strtok_delim hc ▸ h)
    | false =>
      rw [strtok_of_head hc] at h
      cases h
      refine ⟨List.cons_ne_nil _ _, fun d hd => ?_⟩
      rcases List.mem_cons.mp hd with rfl | hd
      · exact hc
      · simpa using List.mem_takeWhile_imp hd

theorem strtok_none (h : strtok δ s = (none, s')) : s' = [] := by
  unfold strtok at h
  split at h
  · cases h
    rfl
  · cases h

theorem strtok_length_lt (h : strtok δ s = (some w, s')) : s'.length < s.length := by
  induction s with
  | nil => cases h
  | cons c s ih =>
    cases hc : δ c with
    | true =>
      have := ih (strtok_delim hc ▸ h)
      rw [List.length_cons]
      omega
    | false =>
      rw [strtok_of_head hc] at h
      cases h
      have := (List.dropWhile_sublist (fun c => !δ c) (l := s)).length_le
      rw [List.length_tail, List.length_cons]
      omega

end

/-- `strchr` for a character that is not the terminator. -/
def strchr (s : Text) (c : Char) : Option Text :=
  match s.dropWhile (· ≠ c) with
  | [] => none
  | t => some t

theorem strchr_append (h : c ∉ w) : strchr (w ++ c :: s) c = some (c :: s) := by
  unfold strchr
  have hw : ∀ d ∈ w, decide (d ≠ c) = true := fun d hd => decide_eq_true fun e => h (e ▸ hd)
  rw [List.dropWhile_append_of_pos hw]
  simp

/-- The conversion to a 32-bit `int`. -/
def toInt (v : Int) : Int := Int.bmod v (2 ^ 32)

theorem toInt_eq_self (h : -2 ^ 31 ≤ v) (h' : v < 2 ^ 31) : toInt v = v := by
  unfold toInt
  rw [Int.bmod_def]
  omega

theorem toInt_of_nonneg (h : 0 ≤ v) (h' : v < 2 ^ 31) : toInt v = v :=
  toInt_eq_self (by omega) h'

theorem toInt_bounds (v : Int) : -2 ^ 31 ≤ toInt v ∧ toInt v < 2 ^ 31 := by
  unfold toInt
  rw [Int.bmod_def]
  omega

def isspace (c : Char) : Bool := c = ' ' || ('\t' ≤ c && c ≤ '\r')

def digits (s : Text) : Nat := Nat.ofDigitChars 10 (s.takeWhile Char.isDigit) 0

def signed : Text → Int
  | '-' :: s => -digits s
  | '+' :: s => digits s
  | s => digits s

/-- `strtol` in base 10, which stops at the limits of `long`. -/
def strtol (s : Text) : Int := max (-2 ^ 63) (min (2 ^ 63 - 1) (signed (s.dropWhile isspace)))

def atoi (s : Text) : Int := toInt (strtol s)

def digitVal (c : Char) : Option Nat :=
  if c.isDigit then some (c.toNat - '0'.toNat)
  else if 'a' ≤ c && c ≤ 'z' then some (c.toNat - 'a'.toNat + 10)
  else if 'A' ≤ c && c ≤ 'Z' then some (c.toNat - 'A'.toNat + 10)
  else none

/-- The value of the digits a text starts with, after digits of value `v`. -/
def numeral (base v : Nat) : Text → Nat
  | [] => v
  | c :: s =>
    match digitVal c with
    | some d => if d < base then numeral base (base * v + d) s else v
    | none => v

/-- The bases of the C language: `0x` starts a hexadecimal numeral, `0` an octal one. -/
def literal : Text → Nat
  | '0' :: x :: c :: s =>
    if (x = 'x' || x = 'X') && (digitVal c).any (· < 16) then numeral 16 0 (c :: s)
    else numeral 8 0 ('0' :: x :: c :: s)
  | '0' :: s => numeral 8 0 ('0' :: s)
  | s => numeral 10 0 s

/-- `strtoull(s, NULL, 0)`, which stops at the largest `unsigned long long`. -/
def strtoull (s : Text) : UInt64 :=
  match s.dropWhile isspace with
  | '-' :: t => if 2 ^ 64 ≤ literal t then UInt64.ofNat (2 ^ 64 - 1) else -UInt64.ofNat (literal t)
  | '+' :: t => UInt64.ofNat (min (literal t) (2 ^ 64 - 1))
  | t => UInt64.ofNat (min (literal t) (2 ^ 64 - 1))

/-- `%lu` -/
def decNat (n : Nat) : Text := Nat.toDigits 10 n

/-- `%d` -/
def dec (v : Int) : Text := if v < 0 then '-' :: decNat v.natAbs else decNat v.natAbs

theorem decNat_ne_nil (n : Nat) : decNat n ≠ [] := Nat.toDigits_ne_nil

theorem decNat_length_le_iff (hk : 0 < k) : (decNat n).length ≤ k ↔ n < 10 ^ k :=
  Nat.length_toDigits_le_iff (by decide) hk

/-- The length of what a system call returned, printed with `%d`. -/
theorem dec_length_le_iff {v : Int} (h : -1 ≤ v) (hk : 2 ≤ k) :
    (dec v).length ≤ k ↔ v < 10 ^ k := by
  by_cases hv : v = -1
  · have hl : (dec (-1)).length = 2 := by decide
    have hpos : (0 : Int) < 10 ^ k := Int.pow_pos (by decide)
    rw [hv, hl]
    omega
  · obtain ⟨n, rfl⟩ := Int.eq_ofNat_of_zero_le (by omega : 0 ≤ v)
    rw [dec, if_neg (by omega), Int.natAbs_natCast, decNat_length_le_iff (by omega)]
    norm_cast

theorem isDigit_of_mem_decNat (h : c ∈ decNat n) : c.isDigit = true :=
  Nat.isDigit_of_mem_toDigits (by decide) (by decide) h

theorem digits_decNat (n : Nat) : digits (decNat n) = n := by
  have hall : (decNat n).takeWhile Char.isDigit = decNat n :=
    List.takeWhile_eq_self_iff.mpr fun c hc => isDigit_of_mem_decNat hc
  rw [digits, hall]
  exact Nat.ofDigitChars_ten_toDigits

theorem signed_of_isDigit (h : c.isDigit = true) : signed (c :: s) = digits (c :: s) := by
  unfold signed
  split
  · rename_i he
    cases he
    cases h
  · rename_i he
    cases he
    cases h
  · rfl

theorem isspace_of_isDigit {c : Char} (h : c.isDigit = true) : isspace c = false := by
  have hd : '0'.toNat ≤ c.toNat ∧ c.toNat ≤ '9'.toNat := Char.isDigit_iff_toNat.mp h
  have hne : c ≠ ' ' := by
    rintro rfl
    cases h
  have hgt : ¬ c ≤ '\r' := fun hle => by
    have : c.toNat ≤ '\r'.toNat := hle
    have h0 : '0'.toNat = 48 := rfl
    have hr : '\r'.toNat = 13 := rfl
    omega
  simp [isspace, hne, hgt]

theorem strtol_of_isDigit (h : ∀ c ∈ s, c.isDigit = true) :
    strtol s = min (2 ^ 63 - 1) (digits s : Int) := by
  cases s with
  | nil => rfl
  | cons c s =>
    have hc := h c List.mem_cons_self
    rw [strtol, List.dropWhile_cons_of_neg (by simp [isspace_of_isDigit hc]),
      signed_of_isDigit hc]
    omega

theorem strtol_decNat (n : Nat) : strtol (decNat n) = min (2 ^ 63 - 1) n := by
  rw [strtol_of_isDigit fun c hc => isDigit_of_mem_decNat hc, digits_decNat]
  omega

theorem atoi_decNat {n : Nat} (h : n < 2 ^ 31) : atoi (decNat n) = n := by
  rw [atoi, strtol_decNat, toInt_eq_self (by omega) (by omega)]
  omega

theorem strtol_dec (v : Int) : strtol (dec v) = max (-2 ^ 63) (min (2 ^ 63 - 1) v) := by
  unfold dec
  split
  · have hd := digits_decNat v.natAbs
    rw [strtol, List.dropWhile_cons_of_neg (by decide)]
    simp only [signed, hd]
    omega
  · rw [strtol_decNat]
    omega

theorem atoi_dec {v : Int} (h : -2 ^ 31 ≤ v) (h' : v < 2 ^ 31) : atoi (dec v) = v := by
  rw [atoi, strtol_dec, toInt_eq_self (by omega) (by omega)]
  omega

theorem ofDigitChars_lt {s : Text} (h : ∀ c ∈ s, c.isDigit = true) (v : Nat) :
    Nat.ofDigitChars 10 s v < (v + 1) * 10 ^ s.length := by
  induction s generalizing v with
  | nil =>
    rw [Nat.ofDigitChars_nil, List.length_nil]
    omega
  | cons c s ih =>
    have hc := Char.isDigit_iff_toNat.mp (h c List.mem_cons_self)
    have h0 : '0'.toNat = 48 := rfl
    have h9 : '9'.toNat = 57 := rfl
    rw [Nat.ofDigitChars_cons, List.length_cons, Nat.pow_succ, Nat.mul_comm (10 ^ s.length),
      ← Nat.mul_assoc]
    refine (ih (fun c hc => h c (List.mem_cons_of_mem _ hc)) _).trans_le ?_
    exact Nat.mul_le_mul_right _ (by omega)

/-- The first digits of a number are its quotient by a power of ten. -/
theorem digits_take_decNat (m n : Nat) :
    digits ((decNat m).take n) = m / 10 ^ ((decNat m).length - n) := by
  have hd : ∀ c ∈ decNat m, c.isDigit = true := fun c hc => isDigit_of_mem_decNat hc
  have htake : ((decNat m).take n).takeWhile Char.isDigit = (decNat m).take n :=
    List.takeWhile_eq_self_iff.mpr fun c hc => hd c (List.mem_of_mem_take hc)
  have hm : Nat.ofDigitChars 10 ((decNat m).take n ++ (decNat m).drop n) 0 = m := by
    rw [List.take_append_drop]
    exact Nat.ofDigitChars_ten_toDigits
  have hlt := ofDigitChars_lt (s := (decNat m).drop n)
    (fun c hc => hd c (List.mem_of_mem_drop hc)) 0
  rw [Nat.zero_add, Nat.one_mul, List.length_drop] at hlt
  rw [Nat.ofDigitChars_append, Nat.ofDigitChars_eq_ofDigitChars_zero, List.length_drop] at hm
  rw [digits, htake]
  refine (Nat.div_eq_of_lt_le ?_ ?_).symm
  · rw [Nat.mul_comm]
    omega
  · rw [Nat.add_mul, Nat.one_mul, Nat.mul_comm]
    omega

/-- The first digits of a number are zero only if they are none or the number is. -/
theorem digits_take_decNat_eq_zero : digits ((decNat m).take n) = 0 ↔ m = 0 ∨ n = 0 := by
  rw [digits_take_decNat, Nat.div_eq_zero_iff_lt (Nat.pow_pos (by decide))]
  have hpos : 0 < (decNat m).length := List.length_pos_iff.mpr (decNat_ne_nil m)
  by_cases he : (decNat m).length - n = 0
  · rw [he]
    omega
  · rw [← Nat.length_toDigits_le_iff (by decide) (by omega)]
    change (decNat m).length ≤ _ ↔ _
    by_cases hm : m = 0
    · subst hm
      have : (decNat 0).length = 1 := by decide
      omega
    · omega

theorem atoi_take_decNat (m n : Nat) : atoi ((decNat m).take n) =
    toInt (min (2 ^ 63 - 1) (m / 10 ^ ((decNat m).length - n) : Nat)) := by
  rw [atoi, strtol_of_isDigit fun c hc => isDigit_of_mem_decNat (List.mem_of_mem_take hc),
    digits_take_decNat]

theorem atoi_take_neg_one (n : Nat) : atoi ((dec (-1)).take n) = if n ≤ 1 then 0 else -1 := by
  have hl : (dec (-1)).length = 2 := by decide
  by_cases hn : n ≤ 1
  · rcases Nat.le_one_iff_eq_zero_or_eq_one.mp hn with rfl | rfl
    · decide
    · decide
  · rw [if_neg hn, List.take_of_length_le (by omega)]
    decide

/-- What `atoi` reads in the first characters of what a system call returned. -/
theorem atoi_take_dec {v : Int} (h : -1 ≤ v) (h' : v < 2 ^ 31) (n : Nat) :
    (atoi ((dec v).take n) = 0 ↔ v = 0 ∨ n = 0 ∨ v = -1 ∧ n ≤ 1) ∧
      (atoi ((dec v).take n) < 0 ↔ v = -1 ∧ 1 < n) := by
  by_cases hv : v = -1
  · subst hv
    rw [atoi_take_neg_one]
    split <;> omega
  · obtain ⟨m, rfl⟩ := Int.eq_ofNat_of_zero_le (by omega : 0 ≤ v)
    have hdec : dec m = decNat m := by
      rw [dec, if_neg (by omega), Int.natAbs_natCast]
    have hz := digits_take_decNat_eq_zero (m := m) (n := n)
    have hle : m / 10 ^ ((decNat m).length - n) ≤ m := Nat.div_le_self _ _
    rw [digits_take_decNat] at hz
    rw [hdec, atoi_take_decNat]
    generalize m / 10 ^ ((decNat m).length - n) = q at hz hle
    rw [toInt_of_nonneg (by omega) (by omega)]
    omega

end NoblesseOblige.CString
