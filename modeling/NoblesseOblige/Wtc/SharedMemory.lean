import NoblesseOblige.CString
import NoblesseOblige.Wtc.BagProgress
import NoblesseOblige.Wtc.PartitionShutdown

namespace NoblesseOblige.Wtc
open CString
set_option autoImplicit true

/-- The conversion to a 64-bit `unsigned long`. -/
def toUnsignedLong (v : Int) : Int := v % 2 ^ 64

/-- `int size2 = sizeof(int)*numVerts*numVerts`, where both products are `unsigned long`. -/
def size2 (numVerts : Int) : Int :=
  toInt (toUnsignedLong (toUnsignedLong (4 * toUnsignedLong numVerts) * toUnsignedLong numVerts))

/-- The `off_t` of `ftruncate(fd,size2*2)`. -/
def fileLength (numVerts : Int) : Int := toInt (size2 numVerts * 2)

/-- The `size_t` of `mmap(0,size2*2,..)`. -/
def mappedLength (numVerts : Int) : Int := toUnsignedLong (toInt (size2 numVerts * 2))

/-- `row*numVerts+column` in `int`, as all parents and workers index `M_prev` and `M_curr`. -/
def flatIndex (numVerts row column : Int) : Int := toInt (toInt (row * numVerts) + column)

/-- The four bytes of the cell are in the file and in the mapping. -/
structure InMapping (numVerts index : Int) : Prop where
  nonneg : 0 ≤ index
  file : 4 * index + 4 ≤ fileLength numVerts
  mapped : 4 * index + 4 ≤ mappedLength numVerts

/-- The element of a shared matrix that an instruction reads or writes. -/
def Instr.element : Instr L Pc → Option L.Addr
  | .readPrev a _ | .readCurr a _ | .writePrev a _ _ | .writeCurr a _ _ | .printPrev a _
  | .printCurr a _ => some a
  | _ => none

/-- In some run the parent or a worker comes to an instruction on this element. -/
def Program.Addresses (M : Program L) (a : L.Addr) : Prop :=
  ∃ s, M.system.Reachable s ∧ ((M.parent s.parent).element = some a ∨
    ∃ w, w < M.workers ∧ (M.child w (s.child w)).element = some a)

def Layout.InMatrix (L : Layout n) (a : L.Addr) : Prop := ∃ i j, i < n ∧ j < n ∧ a = L.cell i j

/-- The nested loops over rows and columns come to the entry they stand at, if it is inside. -/
theorem grid_element {L : Layout n} {cell row done : Instr L Pc} {a : L.Addr}
    (hcell : cell.element = some (L.cell y z)) (hrow : row.element = none)
    (hdone : done.element = none)
    (he : (if y < n then if z < n then cell else row else done).element = some a) :
    L.InMatrix a := by
  split at he
  · split at he
    · rw [hcell] at he
      cases he
      exact ⟨y, z, ‹_›, ‹_›, rfl⟩
    · rw [hrow] at he
      cases he
  · rw [hdone] at he
    cases he

/-- The parent is where it starts or where one of its steps took it. -/
theorem Program.parent_came {M : Program L} {s : State M} (h : M.system.Reachable s) :
    s.parent = M.parentStart ∨
      ∃ pc h h', (M.parent pc).run M.sync h = some (h', s.parent) := by
  apply h.invariant (I := fun s => s.parent = M.parentStart ∨
    ∃ pc h h', (M.parent pc).run M.sync h = some (h', s.parent))
  · rintro s rfl
    exact .inl rfl
  · intro s s' hs hstep
    cases hstep with
    | parent hr => exact .inr ⟨s.parent, s.shared, _, hr⟩
    | child => exact hs

namespace Partition

section
variable {n : Nat} {A : Adjacency n} {L : Layout n} {P w : Nat} {a : L.Addr}

theorem procParent_store {h h' : Shared L}
    (hs : (procParent L P A pc).run x h = some (h', .store m y z v)) : y < n ∧ z < n := by
  cases procParent_goes (Instr.leads hs) with
  | rounds hl =>
    rw [procParent_rounds hl] at hs
    cases rounds_goes hs with
    | read hy hz => exact ⟨hy, hz⟩

theorem rounds_element {td : ParentPc} (hst : ∀ m y z v, pc = .store m y z v → y < n ∧ z < n)
    (he : (Partition.rounds L P td pc).element = some a) : L.InMatrix a := by
  cases pc with
  | copy m y z =>
    rw [Partition.rounds] at he
    exact grid_element rfl rfl rfl he
  | store m y z v =>
    obtain ⟨hy, hz⟩ := hst m y z v rfl
    cases he
    exact ⟨y, z, hy, hz, rfl⟩
  | fork k | round m | signal m k | await m k =>
    rw [Partition.rounds] at he
    split at he
    · cases he
    · cases he
  | _ => cases he

theorem procParent_element (hst : ∀ m y z v, pc = .store m y z v → y < n ∧ z < n)
    (he : (procParent L P A pc).element = some a) : L.InMatrix a := by
  cases pc with
  | load y z =>
    rw [procParent] at he
    exact grid_element rfl rfl rfl he
  | destroyP2c k =>
    rw [procParent] at he
    split at he
    · cases he
    · cases he
  | print y z => exact grid_element rfl rfl rfl he
  | destroyC2p k | join k | done => cases he
  | _ =>
    rw [procParent_rounds] at he
    · exact rounds_element hst he
    · trivial

/-- A worker reads and sets only entries of its row, of the row and the column of the round. -/
theorem Working.element (hm : m < n) (hw : Working A L P m w M pc)
    (he : (child L P w pc).element = some a) : L.InMatrix a := by
  cases pc with
  | loop k | done => exact hw.elim
  | row k i =>
    rw [child] at he
    split at he
    · cases he
    · cases he
  | cell k i j =>
    obtain ⟨rfl, hc⟩ := hw
    rw [child] at he
    split at he
    · cases he
      exact ⟨k, j, hm, ‹_›, rfl⟩
    · cases he
  | both k i j =>
    obtain ⟨rfl, hj, hc, -⟩ := hw
    cases he
    exact ⟨i, k, hc.row, hm, rfl⟩
  | own k i j | set k i j =>
    obtain ⟨rfl, hj, hc, -⟩ := hw
    cases he
    exact ⟨i, j, hc.row, hj, rfl⟩

theorem AtLoop.element (ha : AtLoop n m pc) : (child L P w pc).element = none := by
  rcases ha with rfl | ⟨-, rfl⟩
  · rw [child]
    split
    · rfl
    · rfl
  · rfl

theorem Inv.element {h : Shared L} (inv : Inv A L P h pc cs) (hw : w < P)
    (he : (Partition.child L P w (cs w)).element = some a) : L.InMatrix a := by
  have ok := inv.worker w hw
  have loop {m : Nat} (ha : AtLoop n m (cs w)) : L.InMatrix a := by
    rw [ha.element] at he
    cases he
  cases hst : stage n pc w with
  | unborn =>
    rw [hst] at ok
    exact loop (.inl ok.2.1)
  | idle m =>
    rw [hst] at ok
    exact loop ok.2.1
  | busy m =>
    rw [hst] at ok
    rcases ok.2 with ⟨hl, -⟩ | ⟨hw, -⟩ | ⟨ha, -⟩
    · exact loop (.inl hl)
    · exact hw.element (inv.parent.busy hst).1 he
    · exact loop ha
  | collected m =>
    rw [hst] at ok
    exact loop ok.2.1

end

/-- Every element of a run of `wtc_proc` is an entry of the matrix. -/
theorem wtcProc_addresses (hn : 0 < n) {a : (Layout.flat n).Addr}
    (h : (wtcProc n P A).Addresses a) : (Layout.flat n).InMatrix a := by
  obtain ⟨s, hr, he⟩ := h
  rcases he with he | ⟨w, hw, he⟩
  · refine procParent_element (fun m y z v hpc => ?_) he
    rcases Program.parent_came hr with h0 | ⟨pc, h, h', hs⟩
    · exact absurd (h0.symm.trans hpc) (by simp)
    · rw [hpc] at hs
      exact procParent_store hs
  · exact (wtcProc_inv hn (Nat.zero_lt_of_lt hw) hr).element hw he

end Partition

namespace Bag

section
variable {n : Nat} {A : Adjacency n} {L : Layout n} {P w : Nat} {a : L.Addr}

theorem procParent_store {h h' : Shared L}
    (hs : (procParent L P A pc).run x h = some (h', .store y z v)) : y < n ∧ z < n := by
  cases procParent_goes (Instr.leads hs) with
  | rounds hl =>
    rw [procParent_rounds hl] at hs
    cases rounds_goes hs with
    | read hy hz => exact ⟨hy, hz⟩

theorem rounds_element (init enter td : ParentPc)
    (hst : ∀ y z v, pc = .store y z v → y < n ∧ z < n)
    (he : (Bag.rounds L P init enter td pc).element = some a) : L.InMatrix a := by
  cases pc with
  | copy y z =>
    rw [Bag.rounds] at he
    exact grid_element rfl rfl rfl he
  | store y z v =>
    obtain ⟨hy, hz⟩ := hst y z v rfl
    cases he
    exact ⟨y, z, hy, hz, rfl⟩
  | fork k | signal k | await k =>
    rw [Bag.rounds] at he
    split at he
    · cases he
    · cases he
  | _ => cases he

theorem procParent_element (hst : ∀ y z v, pc = .store y z v → y < n ∧ z < n)
    (he : (procParent L P A pc).element = some a) : L.InMatrix a := by
  cases pc with
  | load y z =>
    rw [procParent] at he
    exact grid_element rfl rfl rfl he
  | destroyP2c k =>
    rw [procParent] at he
    split at he
    · cases he
    · cases he
  | print y z => exact grid_element rfl rfl rfl he
  | reset | destroyC2p k => cases he
  | _ => exact rounds_element (P := P) .test .reset (.destroyP2c 0) hst he

/-- The round number a worker reads is that of a round, since the parent waits for the worker
before it ends the last one. -/
theorem Working.element {h : Shared L} (hi : h.iterator < n)
    (hw : Working A L first h pc) (he : (childProcess L w pc).element = some a) :
    L.InMatrix a := by
  cases pc with
  | cell r j =>
    rw [childProcess] at he
    split at he
    · cases he
    · cases he
  | col r j k =>
    obtain ⟨rfl, hj, hc, -⟩ := hw
    cases he
    exact ⟨h.iterator, j, hi, hj, rfl⟩
  | row r j k =>
    obtain ⟨rfl, hj, hc, -⟩ := hw
    cases he
    exact ⟨r, h.iterator, hc.row, hi, rfl⟩
  | own r j | set r j =>
    obtain ⟨hj, hc, -⟩ := hw
    cases he
    exact ⟨r, j, hc.row, hj, rfl⟩
  | _ => cases he

theorem Outside.element {h : Shared L} (ho : Outside n h pc) :
    (childProcess L w pc).element = none := by
  cases pc with
  | outer | recheck | wait | leave | done => rfl
  | _ => exact ho.elim

theorem Draining.element (hd : Draining pc) : (childProcess L w pc).element = none := by
  cases pc with
  | outer | recheck | wait | inner | post | leave | done => rfl
  | _ => exact hd.elim

theorem Inv.element {h : Shared L} (inv : Inv A L false P holds h pc cs) (hw : w < P)
    (he : (childProcess L w (cs w)).element = some a) : L.InMatrix a := by
  have ok := inv.worker w hw
  have outside (ho : Outside n h (cs w)) : L.InMatrix a := by
    rw [ho.element] at he
    cases he
  cases hst : stage pc w with
  | unborn =>
    rw [hst] at ok
    rw [ok.2.1] at he
    cases he
  | idle =>
    rw [hst] at ok
    exact outside ok.2.1
  | busy =>
    rw [hst] at ok
    rcases ok.2 with ⟨ho, -⟩ | ⟨hw, -⟩ | ⟨ho, -⟩
    · exact outside ho
    · exact hw.element (inv.parent.busy hst).1 he
    · exact outside ho
  | draining =>
    rw [hst] at ok
    rw [ok.2.element] at he
    cases he

end

theorem wtcBtproc_addresses (hn : 0 < n) {a : (Layout.flat n).Addr}
    (h : (wtcBtproc n P A).Addresses a) : (Layout.flat n).InMatrix a := by
  obtain ⟨s, hr, he⟩ := h
  rcases he with he | ⟨w, hw, he⟩
  · refine procParent_element (fun y z v hpc => ?_) he
    rcases Program.parent_came hr with h0 | ⟨pc, h, h', hs⟩
    · exact absurd (h0.symm.trans hpc) (by simp)
    · rw [hpc] at hs
      exact procParent_store hs
  · exact (wtcBtproc_inv hn (Nat.zero_lt_of_lt hw) hr).element hw he

end Bag

/-- The product is exact, but what is passed on is twice it as an `int`. -/
theorem fileLength_eq {n : Nat} (h : n < 2 ^ 31) :
    fileLength n = Int.bmod (8 * (n * n)) (2 ^ 32) := by
  have hn : (n : Int) < 2 ^ 31 := by exact_mod_cast h
  have hsq : (n : Int) * n ≤ (2 ^ 31 - 1) * (2 ^ 31 - 1) :=
    Int.mul_le_mul (by omega) (by omega) (by omega) (by decide)
  have hpos : (0 : Int) ≤ n * n := Int.mul_nonneg (by omega) (by omega)
  have hn64 : toUnsignedLong n = n := Int.emod_eq_of_lt (by omega) (by omega)
  have hfour : toUnsignedLong (4 * n) = 4 * n := Int.emod_eq_of_lt (by omega) (by omega)
  have hsize : toUnsignedLong (4 * n * n) = 4 * (n * n) := by
    rw [Int.mul_assoc]
    exact Int.emod_eq_of_lt (by omega) (by omega)
  rw [fileLength, size2, hn64, hfour, hsize, toInt, toInt]
  generalize (n : Int) * n = s
  rw [Int.bmod_def, Int.bmod_def, Int.bmod_def]
  omega

/-- Two matrices fit in an `int` of bytes exactly up to 16383 vertices. -/
theorem fileLength_ge_iff {n : Nat} (h0 : 0 < n) (h : n < 2 ^ 31) :
    4 * (n * n : Int) ≤ fileLength n ↔ n < 16384 := by
  have hlow (hn : n < 16384) : n * n ≤ 16383 * 16383 :=
    Nat.mul_le_mul (Nat.le_of_lt_succ hn) (Nat.le_of_lt_succ hn)
  have hhigh (hn : 16384 ≤ n) : 16384 * 16384 ≤ n * n := Nat.mul_le_mul hn hn
  have hpos : 0 < n * n := Nat.mul_pos h0 h0
  rw [fileLength_eq h, Int.bmod_def]
  have hcast : (n * n : Int) = (n * n : Nat) := (Nat.cast_mul n n).symm
  rw [hcast]
  generalize n * n = s at *
  omega

theorem mappedLength_of_nonneg (h : 0 ≤ fileLength v) : mappedLength v = fileLength v := by
  have hlt : fileLength v < 2 ^ 31 := (toInt_bounds _).2
  change toUnsignedLong (fileLength v) = fileLength v
  exact Int.emod_eq_of_lt h (by omega)

section
variable {n i j : Nat}

theorem cell_lt (hi : i < n) (hj : j < n) : i * n + j < n * n := by
  have hrow : (i + 1) * n ≤ n * n := Nat.mul_le_mul_right n hi
  rw [Nat.add_mul] at hrow
  omega

theorem flatIndex_eq (h : n * n ≤ 2 ^ 31) (hi : i < n) (hj : j < n) :
    flatIndex n i j = i * n + j := by
  have hlt := cell_lt hi hj
  have hcast : (i * n : Int) = (i * n : Nat) := (Nat.cast_mul i n).symm
  rw [flatIndex, hcast, toInt_of_nonneg (Int.natCast_nonneg _) (by omega),
    toInt_of_nonneg (by omega) (by omega)]

/-- The indices alone are right up to 46340 vertices. -/
theorem flatIndex_exact_iff : (∀ i j : Nat, i < n → j < n → flatIndex n i j = i * n + j) ↔
    n ≤ 46340 := by
  constructor
  · intro h
    by_contra hn
    have hlast := h (n - 1) (n - 1) (by omega) (by omega)
    have hlt : flatIndex n (n - 1 : Nat) (n - 1 : Nat) < 2 ^ 31 := (toInt_bounds _).2
    have hmul : 46340 * 46341 ≤ (n - 1) * n := Nat.mul_le_mul (by omega) (by omega)
    have hcast : ((n - 1 : Nat) * n : Int) = ((n - 1) * n : Nat) := (Nat.cast_mul _ _).symm
    rw [hcast] at hlast
    omega
  · intro h i j hi hj
    have hsq : n * n ≤ 46340 * 46340 := Nat.mul_le_mul h h
    exact flatIndex_eq (by omega) hi hj

theorem inMapping_of_file (hi : i < n) (hj : j < n) (h : 4 * (n * n : Int) ≤ fileLength n) :
    InMapping n (i * n + j) := by
  have hlt := cell_lt hi hj
  have hcell : (i * n + j : Int) + 1 ≤ n * n := by exact_mod_cast hlt
  have hpos : (0 : Int) ≤ i * n := Int.mul_nonneg (by omega) (by omega)
  have hfile : 4 * (i * n + j : Int) + 4 ≤ fileLength n := by omega
  refine ⟨by omega, hfile, ?_⟩
  rw [mappedLength_of_nonneg (by omega)]
  exact hfile

end

/-- In every run each index comes out as it is meant and addresses a cell of the mapping. -/
def Program.IndicesFit (M : Program (Layout.flat n)) : Prop :=
  ∀ a, M.Addresses a → ∃ i j : Nat, i < n ∧ j < n ∧ a = (Layout.flat n).cell i j ∧
    flatIndex n i j = i * n + j ∧ InMapping n (flatIndex n i j)

/-- The shared matrices of `wtc_proc` and `wtc_btproc` have room for every entry, and the indices
find it there. -/
structure MatricesFit (n numProcs : Nat) (A : Adjacency n) : Prop where
  file : 4 * n * n ≤ fileLength n
  mapped : 4 * n * n ≤ mappedLength n
  index : ∀ i j : Nat, i < n → j < n →
    flatIndex n i j = i * n + j ∧ InMapping n (flatIndex n i j)
  proc : (wtcProc n numProcs A).IndicesFit
  btproc : (wtcBtproc n numProcs A).IndicesFit

theorem Program.IndicesFit.of_inMatrix {M : Program (Layout.flat n)}
    (h : ∀ a, M.Addresses a → (Layout.flat n).InMatrix a)
    (hindex : ∀ i j : Nat, i < n → j < n →
      flatIndex n i j = i * n + j ∧ InMapping n (flatIndex n i j)) : M.IndicesFit := by
  intro a ha
  obtain ⟨i, j, hi, hj, he⟩ := h a ha
  exact ⟨i, j, hi, hj, he, hindex i j hi hj⟩

/-- The matrices fit exactly up to 16383 vertices. From there on `size2*2` is too large for an
`int`. -/
theorem shared_memory_iff (n numProcs : Nat) (A : Adjacency n) (h0 : 0 < n) (h31 : n < 2 ^ 31) :
    MatricesFit n numProcs A ↔ n < 16384 := by
  have hfile := fileLength_ge_iff h0 h31
  constructor
  · intro h
    have hlength := h.file
    rw [Int.mul_assoc] at hlength
    exact hfile.mp hlength
  · intro hn
    have hlength := hfile.mpr hn
    have hpos : (0 : Int) ≤ n * n := Int.mul_nonneg (by omega) (by omega)
    have hindex (i j : Nat) (hi : i < n) (hj : j < n) :
        flatIndex n i j = i * n + j ∧ InMapping n (flatIndex n i j) := by
      have heq := flatIndex_exact_iff.mpr (by omega : n ≤ 46340) i j hi hj
      rw [heq]
      exact ⟨rfl, inMapping_of_file hi hj hlength⟩
    refine ⟨?_, ?_, hindex, ?_, ?_⟩
    · rw [Int.mul_assoc]
      exact hlength
    · rw [Int.mul_assoc, mappedLength_of_nonneg (by omega)]
      exact hlength
    · exact .of_inMatrix (fun a => Partition.wtcProc_addresses h0) hindex
    · exact .of_inMatrix (fun a => Bag.wtcBtproc_addresses h0) hindex

theorem shared_memory_iff_three : MatricesFit 3 2 (.cycle 3) ↔ 3 < 16384 :=
  shared_memory_iff 3 2 (.cycle 3) (by decide) (by decide)

/-- With 16384 vertices both lengths are negative as an `int`. -/
theorem shared_memory_overflows : ¬ ∀ (n numProcs : Nat) (A : Adjacency n),
    0 < n → n < 2 ^ 31 → MatricesFit n numProcs A := by
  intro h
  have hfit := (h 16384 1 (.cycle 16384) (by decide) (by decide)).file
  exact absurd hfit (by decide)

end NoblesseOblige.Wtc
