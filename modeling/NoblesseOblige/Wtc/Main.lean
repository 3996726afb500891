import NoblesseOblige.Wtc.Printing

namespace NoblesseOblige.Wtc
open CString
set_option autoImplicit true

theorem zero_or_one_empty (n i j : Nat) (_ : i < n) (_ : j < n) : (0 : Int) = 0 ∨ (0 : Int) = 1 :=
  .inl rfl

/-- The matrix as it is initialized. -/
def Adjacency.empty (n : Nat) : Adjacency n := ⟨fun _ _ => 0, zero_or_one_empty n⟩

theorem Adjacency.zero_or_one_set (A : Adjacency n) (u v i j : Nat) (hi : i < n) (hj : j < n) :
    (if i = u ∧ j = v then (1 : Int) else A.entry i j) = 0 ∨
      (if i = u ∧ j = v then (1 : Int) else A.entry i j) = 1 := by
  split
  · exact .inr rfl
  · exact A.zero_or_one i j hi hj

/-- `A[u][v]=1` -/
def Adjacency.set (A : Adjacency n) (u v : Nat) : Adjacency n :=
  ⟨fun i j => if i = u ∧ j = v then 1 else A.entry i j, A.zero_or_one_set u v⟩

/-- The loop that reads the edges into `i` and `j`. There is no result where it writes outside the
matrix, nor where it goes round more often than allowed. -/
def fill (n : Nat) : Nat → Int → Int → Text → Adjacency n → Option (Adjacency n)
  | 0, _, _, _, _ => none
  | fuel + 1, i, j, fp, A =>
    match fscanf fp i with
    | none => some A
    | some (i, fp) =>
      match fscanf fp j with
      | none => some A
      | some (j, fp) =>
        if 1 ≤ i ∧ i ≤ n ∧ 1 ≤ j ∧ j ≤ n then
          fill n fuel i j fp (A.set (i - 1).toNat (j - 1).toNat)
        else none

/-- The program that `choice` stands for. -/
def chosen (choice : Int) (num_pt : Nat) (A : Adjacency n) : Printer :=
  if choice = 1 then procPrinter n num_pt A
  else if choice = 2 then thrPrinter n num_pt A
  else if choice = 3 then btprocPrinter n num_pt A
  else btthrPrinter n num_pt A

/-- `main` fails with a message, is undefined, or comes to run one of the programs. -/
inductive Started
  | failed (message : Text)
  | undefined
  | running (p : Printer)

/-- `main` up to the chosen program, with `fopen` for the files there are. A `fscanf` at the end of
the file leaves its variable alone, and a number takes at least one character. The sizes passed to
`malloc` are those where the product does not wrap. -/
def main (argv : List Text) (fopen : Text → Option Text) : Started :=
  match argv with
  | [_, arg, name] =>
    let choice := atoi arg
    if choice < 1 ∨ choice > 4 then .failed "Invalid choice!\n".toList
    else
      match fopen name with
      | none => .failed "Error opening file!\n".toList
      | some fp =>
        let pt := (fscanf fp 0).getD (0, fp)
        let ver := (fscanf pt.2 0).getD (0, pt.2)
        match fill ver.1.toNat (ver.2.length + 1) ver.1 ver.1 ver.2 (.empty ver.1.toNat) with
        | none => .undefined
        | some A => .running (chosen choice pt.1.toNat A)
  | _ => .failed "Invalid number of arguments!\n".toList

/-- The edges a list of vertex numbers gives, without an unpaired last number. -/
def pairs : List Nat → List (Nat × Nat)
  | [] => []
  | [_] => []
  | a :: b :: vs => (a, b) :: pairs vs

theorem mem_of_mem_pairs (h : (a, b) ∈ pairs vs) : a ∈ vs ∧ b ∈ vs := by
  induction vs using pairs.induct with
  | case1 => cases h
  | case2 c => cases h
  | case3 c d vs ih =>
    rcases List.mem_cons.mp h with he | h
    · cases he
      exact ⟨List.mem_cons_self, List.mem_cons_of_mem _ List.mem_cons_self⟩
    · obtain ⟨ha, hb⟩ := ih h
      exact ⟨List.mem_cons_of_mem _ (List.mem_cons_of_mem _ ha),
        List.mem_cons_of_mem _ (List.mem_cons_of_mem _ hb)⟩

section
variable {n : Nat} {vs : List Nat}

/-- The loop sets the entries of the listed edges, and no others. -/
theorem fill_numbers (hn : n < 2 ^ 31) (hvs : ∀ v ∈ vs, 1 ≤ v ∧ v ≤ n) (h : Numbers fp vs)
    (hfuel : fp.length < fuel) (i j : Int) (A : Adjacency n) :
    ∃ B, fill n fuel i j fp A = some B ∧
      ∀ u v, B.entry u v = if (u + 1, v + 1) ∈ pairs vs then 1 else A.entry u v := by
  obtain ⟨fuel, rfl⟩ : ∃ k, fuel = k + 1 := ⟨fuel - 1, by omega⟩
  induction vs using pairs.induct generalizing fp fuel i j A with
  | case1 =>
    refine ⟨A, ?_, fun u v => by rw [pairs, if_neg List.not_mem_nil]⟩
    rw [fill, h.fscanf_nil]
  | case2 a =>
    obtain ⟨t, hread, ht, _⟩ := h.fscanf_cons (by have := hvs a (by simp); omega) i
    refine ⟨A, ?_, fun u v => by rw [pairs, if_neg List.not_mem_nil]⟩
    rw [fill, hread]
    simp only [ht.fscanf_nil]
  | case3 a b vs ih =>
    obtain ⟨ha, ha'⟩ := hvs a (by simp)
    obtain ⟨hb, hb'⟩ := hvs b (by simp)
    obtain ⟨t, hread, ht, hlen⟩ := h.fscanf_cons (by omega) i
    obtain ⟨t', hread', ht', hlen'⟩ := ht.fscanf_cons (by omega) j
    obtain ⟨B, hfill, hB⟩ := ih (fun v hv => hvs v (by simp [hv])) ht' (a : Int) (b : Int)
      (A.set ((a : Int) - 1).toNat ((b : Int) - 1).toNat) (fuel - 1) (by omega)
    refine ⟨B, ?_, fun u v => ?_⟩
    · obtain ⟨k, rfl⟩ : ∃ k, fuel = k + 1 := ⟨fuel - 1, by omega⟩
      rw [fill, hread]
      simp only [hread']
      rw [if_pos (by omega)]
      exact hfill
    · have hmem : (u + 1, v + 1) ∈ pairs (a :: b :: vs) ↔
          (u + 1, v + 1) = (a, b) ∨ (u + 1, v + 1) ∈ pairs vs := List.mem_cons
      have hset : (u = ((a : Int) - 1).toNat ∧ v = ((b : Int) - 1).toNat) ↔
          (u + 1, v + 1) = (a, b) := by
        rw [Prod.mk.injEq]
        omega
      simp only [hB, Adjacency.set, hset, hmem]
      by_cases hm : (u + 1, v + 1) ∈ pairs vs
      · rw [if_pos hm, if_pos (.inr hm)]
      · simp only [hm, or_false, if_false]

/-- A path in the matrix is a path along the listed edges, with the vertices counted from 1. -/
theorem transGen_pairs {A : Adjacency n} (hvs : ∀ v ∈ vs, 1 ≤ v ∧ v ≤ n)
    (hA : ∀ u v, A.entry u v = if (u + 1, v + 1) ∈ pairs vs then 1 else 0) (u v : Nat) :
    Relation.TransGen A.Edge u v ↔
      Relation.TransGen (fun a b => (a, b) ∈ pairs vs) (u + 1) (v + 1) := by
  have hone (i j : Nat) : A.entry i j = 1 ↔ (i + 1, j + 1) ∈ pairs vs := by
    rw [hA]
    split <;> simp_all
  constructor
  · intro h
    refine h.lift (· + 1) fun i j he => ?_
    exact (hone i j).mp he.2.2
  · intro h
    refine h.lift (· - 1) fun a b he => ?_
    obtain ⟨ha, hb⟩ := mem_of_mem_pairs he
    have ha := hvs a ha
    have hb := hvs b hb
    refine ⟨by dsimp only; omega, by dsimp only; omega, (hone _ _).mpr ?_⟩
    rw [Nat.sub_add_cancel ha.1, Nat.sub_add_cancel hb.1]
    exact he

theorem chosen_cases {Q : Printer → Prop} (choice : Int) (h₁ : Q (procPrinter n P A))
    (h₂ : Q (thrPrinter n P A)) (h₃ : Q (btprocPrinter n P A)) (h₄ : Q (btthrPrinter n P A)) :
    Q (chosen choice P A) := by
  unfold chosen
  split
  · exact h₁
  · split
    · exact h₂
    · split
      · exact h₃
      · exact h₄

/-- Whatever the choice and the interleaving, the program ends and has printed the closure. -/
theorem chosen_ends (hn : 0 < n) (hP : 0 < P) (choice : Int) (A : Adjacency n) :
    (chosen choice P A).system.Ends fun s => s.2 = answer n A.closure :=
  chosen_cases (Q := fun p => p.system.Ends fun s => s.2 = answer n A.closure) choice
    ((procPrinter_prints hn hP A).ends (Partition.wtcProc_ends hn hP A))
    ((thrPrinter_prints hn hP A).ends (Partition.wtcThr_ends hn hP A))
    ((btprocPrinter_prints hn hP A).ends (Bag.wtcBtproc_ends hn hP A))
    ((btthrPrinter_prints hn hP A).ends (Bag.wtcBtthr_ends hn hP A))

theorem Adjacency.closure_bounds (A : Adjacency n) (i j : Nat) :
    -2 ^ 31 ≤ A.closure i j ∧ A.closure i j < 2 ^ 31 := by
  unfold Adjacency.closure
  split <;> omega

theorem Adjacency.closure_one (A : Adjacency n) (i j : Nat) :
    A.closure i j = 1 ↔ Relation.TransGen A.Edge i j := by
  unfold Adjacency.closure
  split
  · exact iff_of_true rfl ‹_›
  · exact iff_of_false Int.zero_ne_one ‹_›

/-- From the numbers in the file to the program that `main` runs. -/
theorem main_running (hfile : Numbers file (P :: n :: vs)) (hP : P < 2 ^ 31) (hn : n < 2 ^ 31)
    (hvs : ∀ v ∈ vs, 1 ≤ v ∧ v ≤ n) :
    ∃ A : Adjacency n,
      (∀ u v, A.entry u v = if (u + 1, v + 1) ∈ pairs vs then 1 else 0) ∧
      ∀ prog arg name fopen, fopen name = some file → 1 ≤ atoi arg → atoi arg ≤ 4 →
        main [prog, arg, name] fopen = .running (chosen (atoi arg) P A) := by
  obtain ⟨t, hread, ht, _⟩ := hfile.fscanf_cons hP 0
  obtain ⟨t', hread', ht', _⟩ := ht.fscanf_cons hn 0
  obtain ⟨A, hfill, hA⟩ := fill_numbers hn hvs ht' (Nat.lt_succ_self _) (n : Int) (n : Int)
    (.empty n)
  refine ⟨A, hA, fun prog arg name fopen hopen h₁ h₄ => ?_⟩
  have hrange : ¬ (atoi arg < 1 ∨ atoi arg > 4) := by omega
  have hpt : (fscanf file 0).getD (0, file) = ((P : Int), t) := by rw [hread, Option.getD_some]
  have hver : (fscanf t 0).getD (0, t) = ((n : Int), t') := by rw [hread', Option.getD_some]
  have hfill : fill (n : Int).toNat (t'.length + 1) n n t' (.empty (n : Int).toNat) = some A :=
    hfill
  simp only [main, if_neg hrange, hopen]
  rw [hpt]
  dsimp only
  rw [hver]
  dsimp only
  rw [hfill]
  rfl

/-- For every file of numbers `main` builds the matrix of the listed edges, and every run of every
one of the four programs ends and prints the same text. Reading that text gives back a matrix, and
no other prints alike; its ones are the paths along the listed edges. -/
theorem main_prints_closure (hfile : Numbers file (P :: n :: vs)) (hP : 1 ≤ P) (hP' : P < 2 ^ 31)
    (hn : 1 ≤ n) (hn' : n < 2 ^ 31) (hvs : ∀ v ∈ vs, 1 ≤ v ∧ v ≤ n) :
    ∃ (A : Adjacency n) (text : Text),
      (∀ u v, A.entry u v = if (u + 1, v + 1) ∈ pairs vs then 1 else 0) ∧
      (∀ prog arg name fopen, fopen name = some file → 1 ≤ atoi arg → atoi arg ≤ 4 →
        main [prog, arg, name] fopen = .running (chosen (atoi arg) P A) ∧
        (chosen (atoi arg) P A).system.Ends fun s => s.2 = text) ∧
      ∃ M : Nat → Nat → Int,
        text = answer n M ∧
        readAnswer n text = some ((List.range n).map fun u => (List.range n).map (M u)) ∧
        (∀ M' : Nat → Nat → Int, (∀ u v, u < n → v < n → -2 ^ 31 ≤ M' u v ∧ M' u v < 2 ^ 31) →
          text = answer n M' → ∀ u v, u < n → v < n → M' u v = M u v) ∧
        ∀ u v, u < n → v < n → (M u v = 1 ↔
          Relation.TransGen (fun a b => (a, b) ∈ pairs vs) (u + 1) (v + 1)) := by
  obtain ⟨A, hA, hmain⟩ := main_running hfile hP' hn' hvs
  have hrange : ∀ u v, u < n → v < n → -2 ^ 31 ≤ A.closure u v ∧ A.closure u v < 2 ^ 31 :=
    fun u v _ _ => A.closure_bounds u v
  refine ⟨A, answer n A.closure, hA, fun prog arg name fopen hopen h₁ h₄ => ?_, A.closure, rfl,
    readAnswer_answer hrange, fun M' hM' heq u v hu hv => ?_, fun u v _ _ => ?_⟩
  · exact ⟨hmain prog arg name fopen hopen h₁ h₄, chosen_ends hn hP _ A⟩
  · exact answer_inj hM' hrange heq.symm hu hv
  · rw [A.closure_one, transGen_pairs hvs hA]

end

theorem main_prints_closure_of_edge :
    Numbers "1 02 1 2\n2".toList [1, 2, 1, 2, 2] ∧ (∀ v ∈ [1, 2, 2], 1 ≤ v ∧ v ≤ 2) ∧
      ∃ (A : Adjacency 2) (text : Text),
        (∀ u v, A.entry u v = if (u + 1, v + 1) ∈ pairs [1, 2, 2] then 1 else 0) ∧
        (∀ prog arg name fopen, fopen name = some "1 02 1 2\n2".toList → 1 ≤ atoi arg →
          atoi arg ≤ 4 → main [prog, arg, name] fopen = .running (chosen (atoi arg) 1 A) ∧
            (chosen (atoi arg) 1 A).system.Ends fun s => s.2 = text) ∧
        ∃ M : Nat → Nat → Int,
          text = answer 2 M ∧
          readAnswer 2 text = some ((List.range 2).map fun u => (List.range 2).map (M u)) ∧
          (∀ M' : Nat → Nat → Int,
            (∀ u v, u < 2 → v < 2 → -2 ^ 31 ≤ M' u v ∧ M' u v < 2 ^ 31) →
            text = answer 2 M' → ∀ u v, u < 2 → v < 2 → M' u v = M u v) ∧
          ∀ u v, u < 2 → v < 2 → (M u v = 1 ↔
            Relation.TransGen (fun a b => (a, b) ∈ pairs [1, 2, 2]) (u + 1) (v + 1)) := by
  have hfile : Numbers "1 02 1 2\n2".toList [1, 2, 1, 2, 2] :=
    .of_all (w := []) (d := ['1']) rfl (by decide) rfl rfl <|
    .of_all (w := [' ']) (d := ['0', '2']) rfl (by decide) rfl rfl <|
    .of_all (w := [' ']) (d := ['1']) rfl (by decide) rfl rfl <|
    .of_all (w := [' ']) (d := ['2']) rfl (by decide) rfl rfl <|
    .of_all (w := ['\n']) (d := ['2']) rfl (by decide) rfl rfl <|
    .nil (s := []) (by decide)
  have hvs : ∀ v ∈ [1, 2, 2], 1 ≤ v ∧ v ≤ 2 := by decide
  exact ⟨hfile, hvs, main_prints_closure hfile (by decide) (by decide) (by decide) (by decide) hvs⟩

end NoblesseOblige.Wtc
