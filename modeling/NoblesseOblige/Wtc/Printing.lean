import NoblesseOblige.Wtc.BagEnds
import NoblesseOblige.Wtc.Console
import NoblesseOblige.Wtc.PartitionEnds

namespace NoblesseOblige.Wtc
set_option autoImplicit true

/-- Both printing loops go through a matrix that agrees with the closure. -/
theorem printed_closure {A : Adjacency n} {L : Layout n} {Pc : Type}
    {emit : L.Addr → Pc → Instr L Pc} {at_ : Nat → Nat → Pc} {done pc : Pc}
    {pos : Pc → Option (Nat × Nat)} {h h' : Shared L} {M : L.Addr → Int}
    (hpos : ∀ y z, pos (at_ y z) = some (y, z))
    (he : ∀ a next, (emit a next).shown h = some (M a) ∧
      ∀ pc', (emit a next).Leads pc' → pc' = next)
    (hM : Agrees L M (A.Upto n)) (hp : Printing n A.closure y z h.out)
    (hs : (printLoop L emit at_ done y z).run s h = some (h', pc)) :
    Printed n A.closure pos done y z ((printLoop L emit at_ done y z).shown h) pc :=
  printed_of_printLoop hpos he (fun _ _ hi hj => hM.closure hi hj) hp.row hp.col hp.last hs

namespace Partition

def ParentPc.pos : ParentPc → Option (Nat × Nat)
  | .print y z => some (y, z)
  | _ => none

theorem ParentPc.eq_print {pc : ParentPc} (h : pc.pos = some (y, z)) : pc = .print y z := by
  cases pc with
  | print y' z' =>
    cases h
    rfl
  | _ => cases h

theorem Looping.pos (h : Looping pc) : pc ≠ .done ∧ (pc.pos = none ∨ pc.pos = some (0, 0)) := by
  cases pc with
  | fork | round | signal | await | copy | store => exact ⟨by simp, .inl rfl⟩
  | _ => exact h.elim

theorem ProcGoes.print_start (hg : ProcGoes pc pc') (hpc : pc.pos = none) :
    pc' ≠ .done ∧ (pc'.pos = none ∨ pc'.pos = some (0, 0)) := by
  cases hg with
  | rounds _ ht => exact ht.pos
  | destroyed => exact ⟨by simp, .inr rfl⟩
  | print | printed => cases hpc
  | _ => exact ⟨by simp, .inl rfl⟩

theorem ThrGoes.print_start (hg : ThrGoes pc pc') (hpc : pc.pos = none) :
    pc' ≠ .done ∧ (pc'.pos = none ∨ pc'.pos = some (0, 0)) := by
  cases hg with
  | rounds _ ht => exact ht.pos
  | destroyed => exact ⟨by simp, .inr rfl⟩
  | print | printed => cases hpc
  | _ => exact ⟨by simp, .inl rfl⟩

end Partition

namespace Bag

def ParentPc.pos : ParentPc → Option (Nat × Nat)
  | .print y z => some (y, z)
  | _ => none

theorem ParentPc.eq_print {pc : ParentPc} (h : pc.pos = some (y, z)) : pc = .print y z := by
  cases pc with
  | print y' z' =>
    cases h
    rfl
  | _ => cases h

theorem Looping.pos (h : Looping pc) : pc ≠ .done ∧ (pc.pos = none ∨ pc.pos = some (0, 0)) := by
  cases pc with
  | fork | test | signal | await | copy | store | step | stepped => exact ⟨by simp, .inl rfl⟩
  | _ => exact h.elim

theorem ProcGoes.print_start (hg : ProcGoes pc pc') (hpc : pc.pos = none) :
    pc' ≠ .done ∧ (pc'.pos = none ∨ pc'.pos = some (0, 0)) := by
  cases hg with
  | rounds _ ht => exact ht.pos
  | destroyed => exact ⟨by simp, .inr rfl⟩
  | print | printed => cases hpc
  | _ => exact ⟨by simp, .inl rfl⟩

theorem ThrGoes.print_start (hg : ThrGoes P pc pc') (hpc : pc.pos = none) :
    pc' ≠ .done ∧ (pc'.pos = none ∨ pc'.pos = some (0, 0)) := by
  cases hg with
  | rounds _ ht => exact ht.pos
  | destroyed => exact ⟨by simp, .inr rfl⟩
  | print | printed => cases hpc
  | _ => exact ⟨by simp, .inl rfl⟩

end Bag

@[reducible] def procPrinter (n P : Nat) (A : Adjacency n) : Printer :=
  ⟨n, Layout.flat n, wtcProc n P A, Partition.ParentPc.pos⟩

@[reducible] def thrPrinter (n P : Nat) (A : Adjacency n) : Printer :=
  ⟨n, Layout.rows n, wtcThr n P A, Partition.ParentPc.pos⟩

@[reducible] def btprocPrinter (n P : Nat) (A : Adjacency n) : Printer :=
  ⟨n, Layout.flat n, wtcBtproc n P A, Bag.ParentPc.pos⟩

@[reducible] def btthrPrinter (n P : Nat) (A : Adjacency n) : Printer :=
  ⟨n, Layout.rows n, wtcBtthr n P A, Bag.ParentPc.pos⟩

section
variable {n P : Nat} (hn : 0 < n) (hP : 0 < P) (A : Adjacency n)
include hn hP

theorem procPrinter_prints :
    (procPrinter n P A).Prints Partition.ParentPc.done A.closure where
  start := ⟨by simp, rfl⟩
  halts := ⟨rfl, rfl⟩
  enter _ _ _ _ hpc hs := (Partition.procParent_goes (Instr.leads hs)).print_start hpc
  loop s y z h pc hr hpos hs := by
    have inv := (Partition.wtcProc_inv hn hP hr).parent
    have hpc : s.parent = .print y z := Partition.ParentPc.eq_print hpos
    rw [hpc] at inv hs ⊢
    exact printed_closure (fun _ _ => rfl) (fun _ _ => ⟨rfl, fun _ h => h⟩) inv.2.1 inv.2.2 hs

theorem thrPrinter_prints :
    (thrPrinter n P A).Prints Partition.ParentPc.done A.closure where
  start := ⟨by simp, rfl⟩
  halts := ⟨rfl, rfl⟩
  enter _ _ _ _ hpc hs := (Partition.thrParent_goes (Instr.leads hs)).print_start hpc
  loop s y z h pc hr hpos hs := by
    have inv := (Partition.wtcThr_inv hn hP hr).parent
    have hpc : s.parent = .print y z := Partition.ParentPc.eq_print hpos
    rw [hpc] at inv hs ⊢
    exact printed_closure (fun _ _ => rfl) (fun _ _ => ⟨rfl, fun _ h => h⟩) inv.1 inv.2.2 hs

theorem btprocPrinter_prints :
    (btprocPrinter n P A).Prints Bag.ParentPc.done A.closure where
  start := ⟨by simp, rfl⟩
  halts := ⟨rfl, rfl⟩
  enter _ _ _ _ hpc hs := (Bag.procParent_goes (Instr.leads hs)).print_start hpc
  loop s y z h pc hr hpos hs := by
    have inv := (Bag.wtcBtproc_inv hn hP hr).parent
    have hpc : s.parent = .print y z := Bag.ParentPc.eq_print hpos
    rw [hpc] at inv hs ⊢
    exact printed_closure (fun _ _ => rfl) (fun _ _ => ⟨rfl, fun _ h => h⟩) inv.2.2.2.1
      inv.2.2.2.2 hs

theorem btthrPrinter_prints :
    (btthrPrinter n P A).Prints Bag.ParentPc.done A.closure where
  start := ⟨by simp, rfl⟩
  halts := ⟨rfl, rfl⟩
  enter _ _ _ _ hpc hs := (Bag.thrParent_goes (Instr.leads hs)).print_start hpc
  loop s y z h pc hr hpos hs := by
    have inv := (Bag.wtcBtthr_inv hn hP hr).parent
    have hpc : s.parent = .print y z := Bag.ParentPc.eq_print hpos
    rw [hpc] at inv hs ⊢
    exact printed_closure (fun _ _ => rfl) (fun _ _ => ⟨rfl, fun _ h => h⟩) inv.2.2.1
      inv.2.2.2.2 hs

end

end NoblesseOblige.Wtc
