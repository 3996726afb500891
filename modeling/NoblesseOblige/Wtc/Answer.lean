import NoblesseOblige.Scan

namespace NoblesseOblige.Wtc
open CString
set_option autoImplicit true

/-- The first entries of a row as they are printed. -/
def entries (f : Nat → Int) (z : Nat) : Text := (List.range z).flatMap fun j => dec (f j) ++ [' ']

def rows (n : Nat) (f : Nat → Nat → Int) (y : Nat) : Text :=
  (List.range y).flatMap fun i => entries (f i) n ++ "\n ".toList

/-- The whole output for a matrix. -/
def answer (n : Nat) (f : Nat → Nat → Int) : Text :=
  "Output:\n ".toList ++ rows n f n ++ ['\n']

theorem entries_zero (f : Nat → Int) : entries f 0 = [] := rfl

theorem entries_succ (f : Nat → Int) (z : Nat) :
    entries f (z + 1) = entries f z ++ (dec (f z) ++ [' ']) := by
  simp only [entries, List.range_succ, List.flatMap_append, List.flatMap_singleton]

theorem rows_succ (n : Nat) (f : Nat → Nat → Int) (y : Nat) :
    rows n f (y + 1) = rows n f y ++ (entries (f y) n ++ "\n ".toList) := by
  simp only [rows, List.range_succ, List.flatMap_append, List.flatMap_singleton]

/-- The next numbers of a text. -/
def readRow : Nat → Text → Option (List Int × Text)
  | 0, s => some ([], s)
  | k + 1, s => (fscanf s 0).bind fun r => (readRow k r.2).map fun q => (r.1 :: q.1, q.2)

def readRows (n : Nat) : Nat → Text → Option (List (List Int) × Text)
  | 0, s => some ([], s)
  | k + 1, s => (readRow n s).bind fun r => (readRows n k r.2).map fun q => (r.1 :: q.1, q.2)

/-- The `n` rows of `n` numbers after the heading. -/
def readAnswer (n : Nat) (s : Text) : Option (List (List Int)) :=
  if "Output:\n".toList.isPrefixOf s then
    (readRows n n (s.drop "Output:\n".length)).map Prod.fst
  else none

theorem readRow_entries {f : Nat → Int} (l : List Nat)
    (hf : ∀ j ∈ l, -2 ^ 31 ≤ f j ∧ f j < 2 ^ 31) (hw : Blank w) (s : Text) :
    ∃ w', Blank w' ∧ readRow l.length (w ++ ((l.flatMap fun j => dec (f j) ++ [' ']) ++ s)) =
      some (l.map f, w' ++ s) := by
  induction l generalizing w with
  | nil => exact ⟨w, hw, rfl⟩
  | cons j l ih =>
    obtain ⟨hj, hj'⟩ := hf j List.mem_cons_self
    obtain ⟨w', hw', hread⟩ := ih (w := [' ']) (fun j hj => hf j (List.mem_cons_of_mem _ hj))
      (fun c hc => by rw [List.mem_singleton.mp hc]; rfl)
    refine ⟨w', hw', ?_⟩
    have hends : Ends ([' '] ++ ((l.flatMap fun j => dec (f j) ++ [' ']) ++ s)) := by
      rintro c hc
      cases hc
      rfl
    have hscan := fscanf_dec hw hends hj hj' 0
    rw [List.length_cons, readRow, List.flatMap_cons, List.append_assoc, List.append_assoc, hscan,
      Option.bind_some, hread]
    rfl

theorem readRows_rows {f : Nat → Nat → Int} (l : List Nat)
    (hf : ∀ i ∈ l, ∀ j, j < n → -2 ^ 31 ≤ f i j ∧ f i j < 2 ^ 31) (hw : Blank w) (s : Text) :
    ∃ w', Blank w' ∧
      readRows n l.length (w ++ ((l.flatMap fun i => entries (f i) n ++ "\n ".toList) ++ s)) =
        some (l.map fun i => (List.range n).map (f i), w' ++ s) := by
  induction l generalizing w with
  | nil => exact ⟨w, hw, rfl⟩
  | cons i l ih =>
    have hrow := hf i List.mem_cons_self
    obtain ⟨w₁, hw₁, hread₁⟩ := readRow_entries (f := f i) (List.range n)
      (fun j hj => hrow j (List.mem_range.mp hj)) hw
      ("\n ".toList ++ ((l.flatMap fun i => entries (f i) n ++ "\n ".toList) ++ s))
    have hw₂ : Blank (w₁ ++ "\n ".toList) := by
      intro c hc
      rcases List.mem_append.mp hc with hc | hc
      · exact hw₁ c hc
      · have hnl : Blank "\n ".toList := by decide
        exact hnl c hc
    obtain ⟨w', hw', hread⟩ := ih (fun i hi => hf i (List.mem_cons_of_mem _ hi)) hw₂
    refine ⟨w', hw', ?_⟩
    rw [List.length_range] at hread₁
    rw [List.append_assoc] at hread
    rw [List.length_cons, readRows, List.flatMap_cons, List.append_assoc, List.append_assoc,
      entries, hread₁, Option.bind_some, hread]
    rfl

/-- Reading the rows after the heading gives the matrix back. -/
theorem readAnswer_answer {f : Nat → Nat → Int}
    (hf : ∀ i j, i < n → j < n → -2 ^ 31 ≤ f i j ∧ f i j < 2 ^ 31) :
    readAnswer n (answer n f) =
      some ((List.range n).map fun i => (List.range n).map (f i)) := by
  have hsplit : answer n f =
      "Output:\n".toList ++ ([' '] ++ (rows n f n ++ ['\n'])) := by
    have hh : "Output:\n ".toList = "Output:\n".toList ++ [' '] := by decide
    change "Output:\n ".toList ++ rows n f n ++ ['\n'] = _
    rw [hh, List.append_assoc, List.append_assoc]
  have hdrop : (answer n f).drop "Output:\n".length = [' '] ++ (rows n f n ++ ['\n']) := by
    rw [hsplit]
    exact List.drop_left
  have hprefix : "Output:\n".toList.isPrefixOf (answer n f) = true := by
    rw [hsplit, List.isPrefixOf_iff_prefix]
    exact List.prefix_append _ _
  obtain ⟨w', _, hread⟩ := readRows_rows (w := [' ']) (List.range n)
    (fun i hi j hj => hf i j (List.mem_range.mp hi) hj) (by decide) ['\n']
  rw [List.length_range] at hread
  rw [readAnswer, if_pos hprefix, hdrop, rows, hread]
  rfl

/-- Matrices printed alike are the same. -/
theorem answer_inj {f g : Nat → Nat → Int}
    (hf : ∀ i j, i < n → j < n → -2 ^ 31 ≤ f i j ∧ f i j < 2 ^ 31)
    (hg : ∀ i j, i < n → j < n → -2 ^ 31 ≤ g i j ∧ g i j < 2 ^ 31)
    (h : answer n f = answer n g) (hi : i < n) (hj : j < n) : f i j = g i j := by
  have hrows := readAnswer_answer hf
  rw [h, readAnswer_answer hg] at hrows
  have hrow := List.map_inj_left.mp (Option.some.inj hrows) i (List.mem_range.mpr hi)
  exact (List.map_inj_left.mp hrow j (List.mem_range.mpr hj)).symm

end NoblesseOblige.Wtc
