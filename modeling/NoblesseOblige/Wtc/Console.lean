import NoblesseOblige.Wtc.Answer
import NoblesseOblige.Wtc.Progress
import NoblesseOblige.Wtc.Rounds

namespace NoblesseOblige.Wtc
open CString
set_option autoImplicit true

/-- The value an instruction prints. -/
def Instr.shown (h : Shared L) : Instr L Pc → Option Int
  | .printPrev a _ => some (h.prev a)
  | .printCurr a _ => some (h.curr a)
  | _ => none

/-- What `printf("Output:\n")` and the first `printf` of `printMatrix` and `printArrayMatrix`
write before the loop. -/
def heading (y z : Nat) : Text := if y = 0 ∧ z = 0 then "Output:\n ".toList else []

/-- What the printing loop writes at (y,z): an entry, the end of a row or the end. -/
def written (n y : Nat) : Option Int → Text
  | some v => dec v ++ [' ']
  | none => if y < n then "\n ".toList else ['\n']

/-- A program whose parent writes to the standard output; `pos` tells where its printing loop
stands. -/
structure Printer where
  n : Nat
  layout : Layout n
  program : Program layout
  pos : program.ParentPc → Option (Nat × Nat)

/-- What the next step of the parent writes. -/
def Printer.write (p : Printer) (s : State p.program) : Text :=
  match p.pos s.parent with
  | none => []
  | some (y, z) =>
    heading y z ++ written p.n y ((p.program.parent s.parent).shown s.shared)

/-- The steps of the program together with what has been written so far. -/
inductive Printer.Step (p : Printer) : State p.program × Text → State p.program × Text → Prop
  | parent : (p.program.parent s.parent).run p.program.sync s.shared = some (h, pc) →
      p.Step (s, t) (⟨h, pc, s.child⟩, t ++ p.write s)
  | child : w < p.program.workers → s.shared.born w = true →
      (p.program.child w (s.child w)).run p.program.sync s.shared = some (h, pc) →
      p.Step (s, t) (⟨h, s.parent, Function.update s.child w pc⟩, t)

def Printer.system (p : Printer) : System (State p.program × Text) where
  init s := s = (p.program.initial, [])
  step := p.Step

/-- What has been written when the printing loop stands at (y,z). -/
def said (n : Nat) (f : Nat → Nat → Int) (y z : Nat) : Text :=
  if y = 0 ∧ z = 0 then [] else "Output:\n ".toList ++ rows n f y ++ entries (f y) z

theorem said_heading (n : Nat) (f : Nat → Nat → Int) (y z : Nat) :
    said n f y z ++ heading y z = "Output:\n ".toList ++ rows n f y ++ entries (f y) z := by
  by_cases h : y = 0 ∧ z = 0
  · obtain ⟨rfl, rfl⟩ := h
    rfl
  · rw [said, heading, if_neg h, if_neg h, List.append_nil]

theorem said_entry (n : Nat) (f : Nat → Nat → Int) (y z : Nat) :
    said n f y z ++ (heading y z ++ written n y (some (f y z))) = said n f y (z + 1) := by
  have hz : ¬ (y = 0 ∧ z + 1 = 0) := by omega
  rw [← List.append_assoc, said_heading, said, if_neg hz, entries_succ, written]
  exact List.append_assoc _ _ _

theorem said_row (f : Nat → Nat → Int) (hy : y < n) :
    said n f y n ++ (heading y n ++ written n y none) = said n f (y + 1) 0 := by
  have hz : ¬ (y + 1 = 0 ∧ 0 = 0) := by omega
  rw [← List.append_assoc, said_heading, said, if_neg hz, rows_succ, written, if_pos hy,
    entries_zero, List.append_nil, List.append_assoc, List.append_assoc]

theorem said_end (n : Nat) (f : Nat → Nat → Int) :
    said n f n 0 ++ (heading n 0 ++ written n n none) = answer n f := by
  have hh := said_heading n f n 0
  rw [entries_zero, List.append_nil] at hh
  have hend : written n n none = ['\n'] := if_neg (Nat.lt_irrefl n)
  rw [← List.append_assoc, hh, hend]
  rfl

/-- One step of the printing loop at (y,z) over the matrix `f`. -/
inductive Printed (n : Nat) (f : Nat → Nat → Int) (pos : Pc → Option (Nat × Nat)) (done : Pc)
    (y z : Nat) : Option Int → Pc → Prop
  | entry : pos pc = some (y, z + 1) → Printed n f pos done y z (some (f y z)) pc
  | row : y < n → z = n → pos pc = some (y + 1, 0) → Printed n f pos done y z none pc
  | last : y = n → z = 0 → Printed n f pos done y z none done

/-- The parent comes to its printing loop at the first entry, goes through the matrix `f` there
and ends at `done`. -/
structure Printer.Prints (p : Printer) (done : p.program.ParentPc) (f : Nat → Nat → Int) :
    Prop where
  start : p.program.parentStart ≠ done ∧ p.pos p.program.parentStart = none
  halts : p.pos done = none ∧ p.program.parent done = .halt
  enter : ∀ pc h h' pc', p.pos pc = none →
    (p.program.parent pc).run p.program.sync h = some (h', pc') →
    pc' ≠ done ∧ (p.pos pc' = none ∨ p.pos pc' = some (0, 0))
  loop : ∀ s y z h pc, p.program.system.Reachable s → p.pos s.parent = some (y, z) →
    (p.program.parent s.parent).run p.program.sync s.shared = some (h, pc) →
    Printed p.n f p.pos done y z ((p.program.parent s.parent).shown s.shared) pc

/-- What has been written, by where the parent stands. -/
structure Printer.Written (p : Printer) (done : p.program.ParentPc) (f : Nat → Nat → Int)
    (pc : p.program.ParentPc) (t : Text) : Prop where
  before : pc ≠ done → p.pos pc = none → t = []
  loop : ∀ y z, p.pos pc = some (y, z) → t = said p.n f y z
  last : pc = done → t = answer p.n f

section
variable {p : Printer} {done : p.program.ParentPc} {f : Nat → Nat → Int}

theorem Printer.Step.forget {s s' : State p.program × Text} (h : p.Step s s') :
    Wtc.Step p.program s.1 s'.1 := by
  cases h with
  | parent h => exact .parent h
  | child hw hb h => exact .child hw hb h

theorem Printer.Step.lift {s s' : State p.program} (h : Wtc.Step p.program s s') (t : Text) :
    ∃ t', p.Step (s, t) (s', t') := by
  cases h with
  | parent h => exact ⟨_, .parent h⟩
  | child hw hb h => exact ⟨_, .child hw hb h⟩

theorem Printer.reachable {s : State p.program × Text} (h : p.system.Reachable s) :
    p.program.system.Reachable s.1 := by
  apply h.invariant (I := fun s => p.program.system.Reachable s.1)
  · rintro s rfl
    exact .start rfl
  · exact fun s s' ih hs => ih.next hs.forget

theorem Printer.Prints.ne_done (hp : p.Prints done f)
    (h : (p.program.parent pc).run p.program.sync m = some r) : pc ≠ done := by
  rintro rfl
  rw [hp.halts.2] at h
  cases h

/-- What the printing loop writes brings the output from one position to the next. -/
theorem Printed.written {v : Option Int} (h : Printed p.n f p.pos done y z v pc)
    (hd : p.pos done = none) :
    p.Written done f pc (said p.n f y z ++ (heading y z ++ Wtc.written p.n y v)) := by
  cases h with
  | entry hpc =>
    refine ⟨fun _ hn => ?_, fun y' z' hpos => ?_, ?_⟩
    · rw [hpc] at hn
      cases hn
    · rw [hpc] at hpos
      cases hpos
      exact said_entry ..
    · rintro rfl
      rw [hpc] at hd
      cases hd
  | row hy hz hpc =>
    subst hz
    refine ⟨fun _ hn => ?_, fun y' z' hpos => ?_, ?_⟩
    · rw [hpc] at hn
      cases hn
    · rw [hpc] at hpos
      cases hpos
      exact said_row f hy
    · rintro rfl
      rw [hpc] at hd
      cases hd
  | last hy hz =>
    subst hy hz
    refine ⟨fun hne => absurd rfl hne, fun y' z' hpos => ?_, fun _ => said_end ..⟩
    rw [hd] at hpos
    cases hpos

theorem Printer.Written.parent {s : State p.program} {h : Shared p.layout}
    (hw : p.Written done f s.parent t) (hp : p.Prints done f) (hr : p.program.system.Reachable s)
    (hs : (p.program.parent s.parent).run p.program.sync s.shared = some (h, pc)) :
    p.Written done f pc (t ++ p.write s) := by
  cases hpos : p.pos s.parent with
  | none =>
    obtain ⟨hdone, hpc⟩ := hp.enter _ _ _ _ hpos hs
    rw [hw.before (hp.ne_done hs) hpos]
    simp only [Printer.write, hpos]
    refine ⟨fun _ _ => rfl, fun y z hyz => ?_, fun he => absurd he hdone⟩
    rcases hpc with hpc | hpc
    · rw [hpc] at hyz
      cases hyz
    · rw [hpc] at hyz
      cases hyz
      rfl
  | some yz =>
    obtain ⟨y, z⟩ := yz
    rw [hw.loop y z hpos]
    simp only [Printer.write, hpos]
    exact (hp.loop s y z h pc hr hpos hs).written hp.halts.1

theorem Printer.Prints.written (hp : p.Prints done f) {s : State p.program × Text}
    (h : p.system.Reachable s) : p.Written done f s.1.parent s.2 := by
  apply h.invariant_of_reachable (I := fun s => p.Written done f s.1.parent s.2)
  · rintro s rfl
    refine ⟨fun _ _ => rfl, fun y z hyz => ?_, fun he => absurd he hp.start.1⟩
    have hn := hp.start.2
    rw [show p.pos p.program.parentStart = some (y, z) from hyz] at hn
    cases hn
  · intro s s' hr ih hs
    cases hs with
    | parent hs => exact ih.parent hp (Printer.reachable hr) hs
    | child _ _ _ => exact ih

/-- If every run of the program ends and ends after the printing, what is written is the answer. -/
theorem Printer.Prints.ends (hp : p.Prints done f)
    (he : p.program.system.Ends fun s => s.parent = done) :
    p.system.Ends fun s => s.2 = answer p.n f := by
  constructor
  · rintro ⟨run, h₀, hrun⟩
    refine he.finite ⟨fun k => (run k).1, ?_, fun k => (hrun k).forget⟩
    exact congrArg Prod.fst h₀
  · intro s hr hstuck
    refine (hp.written hr).last (he.last _ (Printer.reachable hr) fun s' hs => ?_)
    obtain ⟨t', hs'⟩ := Printer.Step.lift hs s.2
    exact hstuck _ hs'

end

/-- The shape of both printing loops, for a program that prints from the matrix `M`. -/
theorem printed_of_printLoop {L : Layout n} {Pc : Type} {emit : L.Addr → Pc → Instr L Pc}
    {at_ : Nat → Nat → Pc} {done pc : Pc} {pos : Pc → Option (Nat × Nat)} {h h' : Shared L}
    {M : L.Addr → Int} {f : Nat → Nat → Int} (hpos : ∀ y z, pos (at_ y z) = some (y, z))
    (he : ∀ a next, (emit a next).shown h = some (M a) ∧
      ∀ pc', (emit a next).Leads pc' → pc' = next)
    (hM : ∀ i j, i < n → j < n → M (L.cell i j) = f i j) (hy : y ≤ n) (hz : z ≤ n)
    (hl : y = n → z = 0) (hs : (printLoop L emit at_ done y z).run s h = some (h', pc)) :
    Printed n f pos done y z ((printLoop L emit at_ done y z).shown h) pc := by
  have hlead := Instr.leads hs
  unfold printLoop at hlead ⊢
  by_cases hyn : y < n
  · by_cases hzn : z < n
    · rw [if_pos hyn, if_pos hzn] at hlead ⊢
      obtain ⟨hshown, hnext⟩ := he (L.cell y z) (at_ y (z + 1))
      rw [hshown, hM y z hyn hzn]
      exact .entry (hnext _ hlead ▸ hpos ..)
    · rw [if_pos hyn, if_neg hzn] at hlead ⊢
      exact .row hyn (by omega) (hlead ▸ hpos ..)
  · rw [if_neg hyn] at hlead ⊢
    obtain rfl : y = n := by omega
    obtain rfl : pc = done := hlead
    exact .last rfl (hl rfl)

end NoblesseOblige.Wtc
