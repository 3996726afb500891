import Mathlib.Logic.Relation
import Mathlib.Data.List.Induction
import Mathlib.Logic.Function.Iterate
import Mathlib.Tactic.Choose

namespace NoblesseOblige
set_option autoImplicit true

/-- A transition system: where runs start and what one step may do. -/
structure System (σ : Type) where
  init : σ → Prop
  step : σ → σ → Prop

namespace System

/-- A state some run of the system ends in. -/
def Reachable (T : System σ) (s : σ) : Prop :=
  ∃ s₀, T.init s₀ ∧ Relation.ReflTransGen T.step s₀ s

theorem Reachable.start {T : System σ} (h : T.init s) : T.Reachable s :=
  ⟨s, h, .refl⟩

theorem Reachable.next {T : System σ} (h : T.Reachable s) (hs : T.step s s') :
    T.Reachable s' := by
  obtain ⟨s₀, hi, hr⟩ := h
  exact ⟨s₀, hi, hr.tail hs⟩

/-- A property that holds initially and survives every step holds in every reachable state. -/
theorem Reachable.invariant {T : System σ} {I : σ → Prop} (h : T.Reachable s)
    (hi : ∀ s, T.init s → I s) (hs : ∀ s s', I s → T.step s s' → I s') : I s := by
  obtain ⟨s₀, h₀, hr⟩ := h
  induction hr with
  | refl => exact hi _ h₀
  | tail _ hstep ih => exact hs _ _ ih hstep

/-- The same for a property that survives the steps taken in reachable states. -/
theorem Reachable.invariant_of_reachable {T : System σ} {I : σ → Prop} (h : T.Reachable s)
    (hi : ∀ s, T.init s → I s) (hs : ∀ s s', T.Reachable s → I s → T.step s s' → I s') : I s := by
  have hr : T.Reachable s ∧ I s :=
    h.invariant (I := fun s => T.Reachable s ∧ I s) (fun s h₀ => ⟨.start h₀, hi s h₀⟩)
      fun s s' h hstep => ⟨h.1.next hstep, hs s s' h.1 h.2 hstep⟩
  exact hr.2

/-- No run goes on for ever, and one that cannot go on ends in a state with `Q`. -/
structure Ends (T : System σ) (Q : σ → Prop) : Prop where
  finite : ¬ ∃ run : Nat → σ, T.init (run 0) ∧ ∀ k, T.step (run k) (run (k + 1))
  last : ∀ s, T.Reachable s → (∀ s', ¬ T.step s s') → Q s

theorem Reachable.of_run {T : System σ} {run : Nat → σ} (h₀ : T.init (run 0))
    (h : ∀ k, T.step (run k) (run (k + 1))) (k : Nat) : T.Reachable (run k) := by
  induction k with
  | zero => exact .start h₀
  | succ k ih => exact ih.next (h k)

/-- Runs end if some quantity falls with every step. -/
theorem Ends.of_measure {T : System σ} {Q : σ → Prop} (φ : σ → Nat)
    (hφ : ∀ s s', T.Reachable s → T.step s s' → φ s' < φ s)
    (hQ : ∀ s, T.Reachable s → (∀ s', ¬ T.step s s') → Q s) : T.Ends Q := by
  refine ⟨?_, hQ⟩
  rintro ⟨run, h₀, h⟩
  have fall (k : Nat) : φ (run k) + k ≤ φ (run 0) := by
    induction k with
    | zero => exact Nat.le_refl _
    | succ k ih =>
      have := hφ _ _ (Reachable.of_run h₀ h k) (h k)
      omega
  have := fall (φ (run 0) + 1)
  omega

/-- A run goes on for ever if some property always allows a step that keeps it. -/
theorem endless {T : System σ} {I : σ → Prop} (h₀ : T.init s) (hs : I s)
    (hn : ∀ s, I s → ∃ s', T.step s s' ∧ I s') :
    ∃ run : Nat → σ, T.init (run 0) ∧ ∀ k, T.step (run k) (run (k + 1)) := by
  have hsub (s : { s // I s }) : ∃ s' : { s // I s }, T.step s.1 s'.1 := by
    obtain ⟨s', hstep, hs'⟩ := hn s.1 s.2
    exact ⟨⟨s', hs'⟩, hstep⟩
  choose next hnext using hsub
  refine ⟨fun k => (next^[k] ⟨s, hs⟩).1, h₀, fun k => ?_⟩
  have hk := hnext (next^[k] ⟨s, hs⟩)
  rw [← Function.iterate_succ_apply' next k] at hk
  exact hk

theorem Reachable.run {T : System σ} (h : T.Reachable s) (hr : Relation.ReflTransGen T.step s t) :
    T.Reachable t := by
  induction hr with
  | refl => exact h
  | tail _ hstep ih => exact ih.next hstep

/-- Every step of `T` is one of `S`, or none, as `f` shows it. -/
structure Refines (T : System σ) (S : System τ) (f : σ → τ) : Prop where
  init : ∀ s, T.init s → S.init (f s)
  step : ∀ s s', T.Reachable s → T.step s s' → f s' = f s ∨ S.step (f s) (f s')

/-- A step that loses a property seen from above is a step above. -/
theorem Refines.loses {T : System σ} {S : System τ} {f : σ → τ} {P : τ → Prop}
    (h : T.Refines S f) (hs : T.Reachable s) (hstep : T.step s s') (hp : P (f s))
    (hp' : ¬ P (f s')) : S.step (f s) (f s') := by
  rcases h.step s s' hs hstep with he | hnext
  · rw [he] at hp'
    exact absurd hp hp'
  · exact hnext

/-- The runs of `T` all of whose steps meet the condition `C`. -/
def restrict (T : System σ) (C : σ → σ → Prop) : System σ where
  init := T.init
  step s s' := T.step s s' ∧ C s s'

/-- A schedule, played from a state as long as its steps can be taken. -/
def play (f : σ → α → Option σ) (s : σ) : List α → Option σ
  | [] => some s
  | a :: as => (f s a).bind fun s' => play f s' as

/-- What every action keeps a schedule keeps. -/
theorem play_invariant {f : σ → α → Option σ} {I : σ → Prop}
    (hf : ∀ s a s', I s → f s a = some s' → I s') (hs : I s)
    (hp : play f s as = some s') : I s' := by
  induction as generalizing s with
  | nil => exact Option.some.inj hp ▸ hs
  | cons a as ih =>
    obtain ⟨s₁, ha, hp⟩ := Option.bind_eq_some_iff.mp hp
    exact ih (hf s a s₁ hs ha) hp

theorem play_append {f : σ → α → Option σ} (as bs : List α) :
    play f s (as ++ bs) = (play f s as).bind fun s' => play f s' bs := by
  induction as generalizing s with
  | nil => rfl
  | cons a as ih =>
    cases h : f s a with
    | none => simp [play, h]
    | some s₁ => simp [play, h, ih]

theorem play_concat {f : σ → α → Option σ} (h : play f s (as ++ [a]) = some t) :
    ∃ s', play f s as = some s' ∧ f s' a = some t := by
  rw [play_append] at h
  obtain ⟨s', hs, h⟩ := Option.bind_eq_some_iff.mp h
  obtain ⟨t', ha, ht⟩ := Option.bind_eq_some_iff.mp h
  exact ⟨s', hs, Option.some.inj ht ▸ ha⟩

theorem Reachable.play {T : System σ} {f : σ → α → Option σ} (h : T.Reachable s)
    (hf : ∀ s a s', f s a = some s' → T.step s s') (as : List α)
    (hp : System.play f s as = some s') : T.Reachable s' := by
  induction as generalizing s with
  | nil => exact Option.some.inj hp ▸ h
  | cons a as ih =>
    obtain ⟨s₁, ha, hp⟩ := Option.bind_eq_some_iff.mp hp
    exact ih (h.next (hf s a s₁ ha)) hp

/-- Played from `s`, the schedule takes the action `a` from `u` to `v`. -/
def Goes (f : σ → α → Option σ) (s : σ) (as : List α) (u : σ) (a : α) (v : σ) : Prop :=
  ∃ before after, as = before ++ a :: after ∧ play f s before = some u ∧ f u a = some v

/-- Played from `s`, the schedule comes to a state with `P`. -/
def Passes (f : σ → α → Option σ) (s : σ) (as : List α) (P : σ → Prop) : Prop :=
  ∃ before after u, as = before ++ after ∧ play f s before = some u ∧ P u

/-- Played from `s`, the schedule never is in a state without `P`. -/
def Keeps (f : σ → α → Option σ) (s : σ) (as : List α) (P : σ → Prop) : Prop :=
  ∀ before after u, as = before ++ after → play f s before = some u → P u

section
variable {f : σ → α → Option σ} {P : σ → Prop} {as : List α}

theorem Goes.last (hs : play f s as = some u) (ha : f u a = some v) :
    Goes f s (as ++ [a]) u a v :=
  ⟨as, [], rfl, hs, ha⟩

theorem Goes.append (h : Goes f s as u a v) (bs : List α) : Goes f s (as ++ bs) u a v := by
  obtain ⟨before, after, rfl, hu, hv⟩ := h
  exact ⟨before, after ++ bs, by rw [List.append_assoc, List.cons_append], hu, hv⟩

theorem Goes.passes (h : Goes f s as u a v) (hv : P v) : Passes f s as P := by
  obtain ⟨before, after, rfl, hu, ha⟩ := h
  refine ⟨before ++ [a], after, v, by rw [List.append_assoc, List.singleton_append], ?_, hv⟩
  simp [play_append, hu, System.play, ha]

theorem Passes.cons (ha : f s a = some s') (h : Passes f s' as P) : Passes f s (a :: as) P := by
  obtain ⟨before, after, u, rfl, hu, hp⟩ := h
  refine ⟨a :: before, after, u, rfl, ?_, hp⟩
  simp [System.play, ha, hu]

theorem Keeps.last (h : Keeps f s as P) (hs : play f s as = some u) : P u :=
  h as [] u (List.append_nil as).symm hs

theorem Keeps.init (h : Keeps f s (as ++ bs) P) : Keeps f s as P := by
  rintro before after u rfl hu
  exact h before (after ++ bs) u (List.append_assoc ..) hu

theorem Keeps.goes (h : Keeps f s as P) (hg : Goes f s as u a v) : P u := by
  obtain ⟨before, after, he, hu, _⟩ := hg
  exact h before (a :: after) u he hu

theorem Keeps.mono {Q : σ → Prop} (h : Keeps f s as P) (hpq : ∀ u, P u → Q u) : Keeps f s as Q :=
  fun before after u he hu => hpq u (h before after u he hu)

theorem keeps_nil : Keeps f s [] P ↔ P s := by
  refine ⟨fun h => h.last rfl, ?_⟩
  intro hs before after u he hu
  rw [(List.nil_eq_append_iff.mp he).1] at hu
  exact Option.some.inj hu ▸ hs

theorem keeps_cons : Keeps f s (a :: as) P ↔ P s ∧ ∀ s', f s a = some s' → Keeps f s' as P := by
  constructor
  · intro h
    refine ⟨h [] (a :: as) s rfl rfl, ?_⟩
    rintro s' ha before after u rfl hu
    exact h (a :: before) after u rfl (by simp [System.play, ha, hu])
  · rintro ⟨hs, h⟩ before after u he hu
    cases before with
    | nil => exact Option.some.inj hu ▸ hs
    | cons b before =>
      obtain ⟨rfl, rfl⟩ := List.cons.inj he
      obtain ⟨s', ha, hu⟩ := Option.bind_eq_some_iff.mp hu
      exact h s' ha before after u rfl hu

instance decidableKeeps [DecidablePred P] : (as : List α) → (s : σ) → Decidable (Keeps f s as P)
  | [], _ => decidable_of_iff _ keeps_nil.symm
  | a :: as, s =>
    match h : f s a with
    | none => decidable_of_iff (P s) (by simp [keeps_cons, h])
    | some s' =>
      have := decidableKeeps as s'
      decidable_of_iff (P s ∧ Keeps f s' as P) (by simp [keeps_cons, h])

/-- What a schedule loses it loses by one of its actions. -/
theorem play_loss (h : play f s as = some t) (hs : P s) (ht : ¬ P t) :
    ∃ u a v, Goes f s as u a v ∧ P u ∧ ¬ P v := by
  induction as using List.reverseRecOn generalizing t with
  | nil => exact absurd (Option.some.inj h ▸ hs) ht
  | append_singleton as a ih =>
    obtain ⟨u, hu, ha⟩ := play_concat h
    by_cases hp : P u
    · exact ⟨u, a, t, .last hu ha, hp, ht⟩
    · obtain ⟨u', a', v', hg, hpu, hpv⟩ := ih hu hp
      exact ⟨u', a', v', hg.append [a], hpu, hpv⟩

end

end System

end NoblesseOblige
