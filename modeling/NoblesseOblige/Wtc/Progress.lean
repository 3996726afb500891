import NoblesseOblige.Wtc.Machine

namespace NoblesseOblige.Wtc
set_option autoImplicit true

/-- An instruction that cannot be taken now: a wait for a signal that is not there, a join with a
worker that has not exited, or the end of a program. -/
def Instr.blocked (h : Shared L) : Instr L Pc → Bool
  | .wait x _ => h.sem x = 0
  | .join w _ => !h.exited w
  | .halt => true
  | _ => false

theorem Instr.run_isSome (y : Sync) (h : Shared L) (i : Instr L Pc) :
    (i.run y h).isSome = !i.blocked h := by
  cases i with
  | wait x next =>
    rw [Instr.run, Instr.blocked]
    by_cases hx : h.sem x = 0
    · rw [if_pos hx, decide_eq_true hx]
      rfl
    · rw [if_neg hx, decide_eq_false hx]
      rfl
  | join w next =>
    rw [Instr.run, Instr.blocked]
    cases h.exited w <;> rfl
  | _ => rfl

theorem Instr.blocked_of_run {i : Instr L Pc} {h : Shared L} (hs : i.run y h = some r) :
    i.blocked h = false := by
  have hr := Instr.run_isSome y h i
  rw [hs, Option.isSome_some] at hr
  cases hb : i.blocked h with
  | false => rfl
  | true =>
    rw [hb] at hr
    cases hr

/-- The program points an instruction can lead to. -/
def Instr.Leads : Instr L Pc → Pc → Prop
  | .readPrev _ next, pc | .readCurr _ next, pc => ∃ v, pc = next v
  | .readQueue next, pc | .readIterator next, pc => ∃ v, pc = next v
  | .jump next, pc | .writePrev _ _ next, pc | .writeCurr _ _ next, pc | .writeQueue _ next, pc
  | .writeIterator _ next, pc | .wait _ next, pc | .post _ next, pc | .destroy _ next, pc
  | .fork _ next, pc | .join _ next, pc | .exit _ next, pc | .printPrev _ next, pc
  | .printCurr _ next, pc => pc = next
  | .halt, _ => False

theorem Instr.leads {i : Instr L Pc} (hs : i.run y h = some (h', pc')) : i.Leads pc' := by
  cases i with
  | wait x next =>
    rw [Instr.run] at hs
    split at hs
    · cases hs
    · cases hs
      rfl
  | join w next =>
    rw [Instr.run] at hs
    split at hs
    · cases hs
      rfl
    · cases hs
  | halt => cases hs
  | readPrev a next | readCurr a next | readQueue next | readIterator next =>
    cases hs
    exact ⟨_, rfl⟩
  | _ =>
    cases hs
    rfl

/-- The printing loop prints or jumps. -/
theorem printLoop_cases {L : Layout n} {emit : L.Addr → Pc → Instr L Pc} {at_ : Nat → Nat → Pc}
    {done : Pc} (Q : Instr L Pc → Prop) (he : ∀ a next, Q (emit a next))
    (hj : ∀ next, Q (.jump next)) : Q (printLoop L emit at_ done y z) := by
  unfold printLoop
  split
  · split
    · exact he ..
    · exact hj _
  · exact hj _

theorem printLoop_leads {L : Layout n} (emit : L.Addr → Pc → Instr L Pc) {at_ : Nat → Nat → Pc}
    {done pc : Pc} (he : ∀ a next pc', (emit a next).Leads pc' → pc' = next)
    (hl : (printLoop L emit at_ done y z).Leads pc) : (∃ y' z', pc = at_ y' z') ∨ pc = done := by
  unfold printLoop at hl
  split at hl
  · split at hl
    · exact .inl ⟨_, _, he _ _ _ hl⟩
    · exact .inl ⟨_, _, hl⟩
  · exact .inr hl

/-- The instruction is a signal on `x`. -/
def Instr.posts (x : Sem) : Instr L Pc → Bool
  | .post x' _ => x' = x
  | _ => false

def Instr.waits (x : Sem) : Instr L Pc → Bool
  | .wait x' _ => x' = x
  | _ => false

def Instr.destroys (x : Sem) : Instr L Pc → Bool
  | .destroy x' _ => x' = x
  | _ => false

theorem Instr.run_destroyed {i : Instr L Pc} {h h' : Shared L} (hs : i.run y h = some (h', pc')) :
    h'.destroyed x = (i.destroys x || h.destroyed x) := by
  cases i with
  | wait x' next =>
    rw [Instr.run] at hs
    split at hs
    · cases hs
    · cases hs
      rfl
  | join w next =>
    rw [Instr.run] at hs
    split at hs
    · cases hs
      rfl
    · cases hs
  | destroy x' next =>
    cases hs
    by_cases hx : x' = x
    · subst hx
      simp [Instr.destroys]
    · have hne : x ≠ x' := fun he => hx he.symm
      simp [Instr.destroys, hx, Function.update_of_ne hne]
  | halt => cases hs
  | _ =>
    cases hs
    rfl

/-- Who has exited stays so. -/
theorem Instr.run_exited {i : Instr L Pc} {h h' : Shared L} (hs : i.run y h = some (h', pc'))
    (he : h.exited w = true) : h'.exited w = true := by
  cases i with
  | wait x next =>
    rw [Instr.run] at hs
    split at hs
    · cases hs
    · cases hs
      exact he
  | join w' next =>
    rw [Instr.run] at hs
    split at hs
    · cases hs
      exact he
    · cases hs
  | exit w' next =>
    cases hs
    by_cases hw : w = w'
    · exact hw ▸ Function.update_self ..
    · exact (Function.update_of_ne hw ..).trans he
  | halt => cases hs
  | _ =>
    cases hs
    exact he

/-- What a step does to a semaphore or mutex: it signals, takes a signal or leaves it alone. -/
inductive Sync.Moved (y : Sync) (posts waits : Bool) (v v' : Nat) : Prop
  | post (hp : posts = true) (hw : waits = false) (hv : v' = y.release v)
  | wait (hp : posts = false) (hw : waits = true) (hv : v' + 1 = v)
  | keep (hp : posts = false) (hw : waits = false) (hv : v' = v)

theorem Instr.touch {i : Instr L Pc} {h h' : Shared L} (hs : i.run y h = some (h', pc'))
    (x : Sem) : y.Moved (i.posts x) (i.waits x) (h.sem x) (h'.sem x) := by
  cases i with
  | wait x' next =>
    rw [Instr.run] at hs
    split at hs
    · cases hs
    · cases hs
      by_cases hx : x' = x
      · subst hx
        refine .wait rfl (decide_eq_true rfl) ?_
        rw [Shared.setSem_self]
        omega
      · exact .keep rfl (decide_eq_false hx) (h.setSem_of_ne _ fun he => hx he.symm)
  | post x' next =>
    cases hs
    by_cases hx : x' = x
    · subst hx
      exact .post (decide_eq_true rfl) rfl (h.setSem_self _ _)
    · exact .keep (decide_eq_false hx) rfl (h.setSem_of_ne _ fun he => hx he.symm)
  | join w next =>
    rw [Instr.run] at hs
    split at hs
    · cases hs
      exact .keep rfl rfl rfl
    · cases hs
  | halt => cases hs
  | _ =>
    cases hs
    exact .keep rfl rfl rfl

section
variable {n : Nat} {L : Layout n} (M : Program L)

/-- The next instruction of the parent (`none`) or of a worker signals on `x`, or waits for it. -/
def Program.posts (x : Sem) (s : State M) : Option Nat → Bool
  | none => (M.parent s.parent).posts x
  | some w => (M.child w (s.child w)).posts x

def Program.waits (x : Sem) (s : State M) : Option Nat → Bool
  | none => (M.parent s.parent).waits x
  | some w => (M.child w (s.child w)).waits x

/-- How often, when the parties get these turns from `s` on, one that is not blocked takes its turn
with such an instruction. -/
def Program.count (M : Program L) (p : State M → Option Nat → Bool) :
    State M → List (Option Nat) → Nat
  | _, [] => 0
  | s, c :: cs =>
    match M.next s c with
    | none => M.count p s cs
    | some s' => (if p s c then 1 else 0) + M.count p s' cs

/-- What is noted of the steps taken when the parties get these turns. -/
def Program.account (M : Program L) (note : State M → Option Nat → State M → β → β) :
    State M → β → List (Option Nat) → β
  | _, b, [] => b
  | s, b, c :: cs =>
    match M.next s c with
    | none => M.account note s b cs
    | some s' => M.account note s' (note s c s' b) cs

/-- The step of a party, if it meets the condition. -/
def Program.nextIf (C : State M → State M → Prop) [∀ s s', Decidable (C s s')] (s : State M)
    (c : Option Nat) : Option (State M) :=
  (M.next s c).filter fun s' => C s s'

/-- The same turns as in `play`, where a party also loses its turn if its step breaks the
condition. -/
def Program.playIf (M : Program L) (C : State M → State M → Prop) [∀ s s', Decidable (C s s')]
    (turns : List (Option Nat)) : State M :=
  turns.foldl (fun s c => (M.nextIf C s c).getD s) M.initial

/-- The worker will not touch a semaphore or mutex any more. -/
def Program.Retired (s : State M) (w : Nat) : Prop :=
  ∀ s', Relation.ReflTransGen (Step M) s s' →
    ∀ x, M.posts x s' (some w) = false ∧ M.waits x s' (some w) = false

variable {M : Program L}

theorem Step.of_parent {s : State M} (h : (M.parent s.parent).blocked s.shared = false) :
    ∃ s', Step M s s' := by
  have hr := Instr.run_isSome M.sync s.shared (M.parent s.parent)
  rw [h] at hr
  obtain ⟨⟨h', pc⟩, hs⟩ := Option.isSome_iff_exists.mp hr
  exact ⟨_, .parent hs⟩

theorem Step.of_child {s : State M} (hw : w < M.workers) (hb : s.shared.born w = true)
    (h : (M.child w (s.child w)).blocked s.shared = false) : ∃ s', Step M s s' := by
  have hr := Instr.run_isSome M.sync s.shared (M.child w (s.child w))
  rw [h] at hr
  obtain ⟨⟨h', pc⟩, hs⟩ := Option.isSome_iff_exists.mp hr
  exact ⟨_, .child hw hb hs⟩

theorem step_iff_runs {s : State M} : (∃ s', Step M s s') ↔
    ((M.parent s.parent).blocked s.shared = false ∨ ∃ w, w < M.workers ∧
      s.shared.born w = true ∧ (M.child w (s.child w)).blocked s.shared = false) := by
  constructor
  · rintro ⟨s', hs⟩
    cases hs with
    | parent hs => exact .inl (Instr.blocked_of_run hs)
    | child hw hb hs => exact .inr ⟨_, hw, hb, Instr.blocked_of_run hs⟩
  · rintro (hr | ⟨w, hw, hb, hr⟩)
    · exact Step.of_parent hr
    · exact Step.of_child hw hb hr

theorem Program.nextIf_step {C : State M → State M → Prop} [∀ s s', Decidable (C s s')]
    (s : State M) (c : Option Nat) (s' : State M) (h : M.nextIf C s c = some s') :
    (M.system.restrict C).step s s' := by
  obtain ⟨hs, hc⟩ := Option.filter_eq_some_iff.mp h
  exact ⟨M.next_step hs, of_decide_eq_true hc⟩

theorem Program.playIf_reachable (M : Program L) (C : State M → State M → Prop)
    [∀ s s', Decidable (C s s')] (turns : List (Option Nat)) :
    (M.system.restrict C).Reachable (M.playIf C turns) := by
  have keep (s : State M) (h : (M.system.restrict C).Reachable s) : (M.system.restrict C).Reachable
      (turns.foldl (fun s c => (M.nextIf C s c).getD s) s) := by
    induction turns generalizing s with
    | nil => exact h
    | cons c cs ih =>
      apply ih
      change (M.system.restrict C).Reachable ((M.nextIf C s c).getD s)
      cases hc : M.nextIf C s c with
      | none => exact h
      | some s' => exact h.next (Program.nextIf_step s c s' hc)
  exact keep _ (.start rfl)

/-- If with each step `φ` grows by the steps of one kind and falls by those of another, it counts
them. -/
theorem Program.count_balance {p q : State M → Option Nat → Bool} {φ : State M → Nat}
    (h : ∀ s c s', M.system.Reachable s → M.next s c = some s' →
      φ s' + (if q s c then 1 else 0) = φ s + (if p s c then 1 else 0))
    (turns : List (Option Nat)) :
    φ (M.play turns) + M.count q M.initial turns = φ M.initial + M.count p M.initial turns := by
  have from_ (s : State M) (hr : M.system.Reachable s) :
      φ (turns.foldl (fun s c => (M.next s c).getD s) s) + M.count q s turns =
        φ s + M.count p s turns := by
    induction turns generalizing s with
    | nil => rfl
    | cons c cs ih =>
      rw [List.foldl_cons, Program.count, Program.count]
      cases hc : M.next s c with
      | none => exact ih s hr
      | some s' =>
        have hstep := h s c s' hr hc
        have hrest := ih s' (hr.next (M.next_step hc))
        simp only [Option.getD_some]
        omega
  exact from_ M.initial (.start rfl)

/-- What holds at first of the state and of the account, and after every step, holds after all
turns. -/
theorem Program.account_invariant {note : State M → Option Nat → State M → β → β}
    {I : State M → β → Prop} {b : β} (hi : I M.initial b)
    (h : ∀ s c s' b, M.system.Reachable s → M.next s c = some s' → I s b →
      I s' (note s c s' b)) (turns : List (Option Nat)) :
    I (M.play turns) (M.account note M.initial b turns) := by
  have from_ (s : State M) (b : β) (hr : M.system.Reachable s) (hs : I s b) :
      I (turns.foldl (fun s c => (M.next s c).getD s) s) (M.account note s b turns) := by
    induction turns generalizing s b with
    | nil => exact hs
    | cons c cs ih =>
      rw [List.foldl_cons, Program.account]
      cases hc : M.next s c with
      | none => exact ih s b hr hs
      | some s' => exact ih s' _ (hr.next (M.next_step hc)) (h s c s' b hr hc hs)
  exact from_ M.initial b (.start rfl) hi

theorem Program.count_none (s : State M) (turns : List (Option Nat)) :
    M.count (fun _ _ => false) s turns = 0 := by
  induction turns generalizing s with
  | nil => rfl
  | cons c cs ih =>
    rw [Program.count]
    cases M.next s c with
    | none => exact ih s
    | some s' => simp only [Bool.false_eq_true, ↓reduceIte, ih s']

theorem Program.next_touch {s s' : State M} (h : M.next s c = some s') (x : Sem) :
    M.sync.Moved (M.posts x s c) (M.waits x s c) (s.shared.sem x) (s'.shared.sem x) := by
  cases c with
  | none =>
    obtain ⟨r, hr, rfl⟩ := Program.next_none h
    exact Instr.touch hr x
  | some w =>
    obtain ⟨_, r, hr, rfl⟩ := Program.next_some h
    exact Instr.touch hr x

/-- If every signal finds the last one taken, none is lost: each has been taken or is there. -/
theorem Program.count_posts
    (h : ∀ s c s' x, M.system.Reachable s → M.next s c = some s' → M.posts x s c = true →
      s.shared.sem x = 0) (x : Sem) (turns : List (Option Nat)) :
    (M.play turns).shared.sem x + M.count (M.waits x) M.initial turns =
      M.memory.sem x + M.count (M.posts x) M.initial turns := by
  refine M.count_balance (φ := fun s => s.shared.sem x) (fun s c s' hr hs => ?_) turns
  cases M.next_touch hs x with
  | post hp hw hv =>
    have hz := h s c s' x hr hs hp
    rw [hz, Sync.release_zero] at hv
    simp only [hp, hw, hv, hz]
    rfl
  | wait hp hw hv =>
    simp only [hp, hw]
    exact hv
  | keep hp hw hv => simp only [hp, hw, hv]

theorem Program.exited_of_done {d : M.ChildPc} (hd : M.childStart ≠ d)
    (hs : ∀ w pc h h', (M.child w pc).run M.sync h = some (h', d) → h'.exited w = true)
    {s : State M} (hr : M.system.Reachable s) (hw : s.child w = d) :
    s.shared.exited w = true := by
  revert hw
  apply hr.invariant (I := fun s => s.child w = d → s.shared.exited w = true)
  · rintro s rfl h
    exact absurd h hd
  · intro s s' ih hstep hw
    cases hstep with
    | parent h => exact Instr.run_exited h (ih hw)
    | child hv hb h =>
      rename_i v h' pc
      have hw : Function.update s.child v pc w = d := hw
      by_cases hvw : w = v
      · subst hvw
        rw [Function.update_self] at hw
        exact hs w _ _ _ (hw ▸ h)
      · rw [Function.update_of_ne hvw] at hw
        exact Instr.run_exited h (ih hw)

/-- A worker is retired if it is where it never gets to a signal or a wait. -/
theorem Program.retired_of {s : State M} (Q : State M → Prop) (hQ : Q s)
    (hstep : ∀ s s', Q s → Step M s s' → Q s')
    (hno : ∀ s, Q s → ∀ x, M.posts x s (some w) = false ∧ M.waits x s (some w) = false) :
    M.Retired s w := by
  intro s' hr
  apply hno s'
  induction hr with
  | refl => exact hQ
  | tail _ hs ih => exact hstep _ _ ih hs

end

end NoblesseOblige.Wtc
