import NoblesseOblige.CString
import NoblesseOblige.Transition
import Mathlib.Logic.Function.Basic

namespace NoblesseOblige.CString
set_option autoImplicit true

/-- A program between two calls of `strtok(NULL, δ)`: it has returned, goes on with the next token,
or gathers tokens until there are none. -/
inductive Prog (R : Type)
  | ret (r : R)
  | next (k : Option Text → Prog R)
  | each (acc : List Text) (k : List Text → R)

def Prog.result : Prog R → Option R
  | .ret r => some r
  | _ => none

/-- The program after `strtok(NULL, δ)` has returned `t`. -/
def Prog.feed : Prog R → Option Text → Prog R
  | .ret r, _ => .ret r
  | .next k, t => k t
  | .each acc k, some t => .each (acc ++ [t]) k
  | .each acc k, none => .ret (k acc)

def tokensWithin (δ : Char → Bool) : Nat → Text → List Text
  | 0, _ => []
  | n + 1, s =>
    match strtok δ s with
    | (none, _) => []
    | (some t, s) => t :: tokensWithin δ n s

/-- The tokens of a text up to the first `NULL`. -/
def tokens (δ : Char → Bool) (s : Text) : List Text := tokensWithin δ s.length s

theorem tokensWithin_nil (n : Nat) : tokensWithin δ n [] = [] := by
  cases n <;> rfl

theorem tokensWithin_congr (h : s.length ≤ n) (h' : s.length ≤ m) :
    tokensWithin δ n s = tokensWithin δ m s := by
  induction n generalizing s m with
  | zero =>
    obtain rfl := List.eq_nil_of_length_eq_zero (Nat.le_zero.mp h)
    rw [tokensWithin_nil, tokensWithin_nil]
  | succ n ih =>
    cases m with
    | zero =>
      obtain rfl := List.eq_nil_of_length_eq_zero (Nat.le_zero.mp h')
      rw [tokensWithin_nil, tokensWithin_nil]
    | succ m =>
      rw [tokensWithin, tokensWithin]
      cases hs : strtok δ s with
      | mk t s' =>
        cases t with
        | none => rfl
        | some t =>
          have hlt := strtok_length_lt hs
          simp only
          rw [ih (by omega) (by omega : s'.length ≤ m)]

theorem tokens_of_none (h : strtok δ s = (none, s')) : tokens δ s = [] := by
  cases s with
  | nil => rfl
  | cons c s => simp [tokens, tokensWithin, h]

theorem tokens_of_some (h : strtok δ s = (some t, s')) : tokens δ s = t :: tokens δ s' := by
  have hlt := strtok_length_lt h
  cases s with
  | nil => exact absurd hlt (Nat.not_lt_zero _)
  | cons c s =>
    simp only [tokens, tokensWithin, h, List.length_cons]
    congr 1
    rw [List.length_cons] at hlt
    exact tokensWithin_congr (by omega) (Nat.le_refl _)

theorem tokens_delim (h : δ c = true) (s : Text) : tokens δ (c :: s) = tokens δ s := by
  have hs := strtok_delim (s := s) h
  cases ht : strtok δ s with
  | mk t s' =>
    cases t with
    | none => rw [tokens_of_none (hs.trans ht), tokens_of_none ht]
    | some t => rw [tokens_of_some (hs.trans ht), tokens_of_some ht]

/-- The characters of a text that are no delimiters are those of the next token and of what
follows it. -/
theorem strtok_filter (h : strtok δ s = (t, s')) :
    s.filter (fun c => !δ c) = t.getD [] ++ s'.filter fun c => !δ c := by
  induction s with
  | nil =>
    cases h
    rfl
  | cons c s ih =>
    cases hc : δ c with
    | true =>
      rw [List.filter_cons_of_neg (by simp [hc])]
      exact ih (strtok_delim hc ▸ h)
    | false =>
      rw [strtok_of_head hc] at h
      cases h
      rw [List.filter_cons_of_pos (by simp [hc]), Option.getD_some, List.cons_append]
      congr 1
      have hsplit := List.takeWhile_append_dropWhile (l := s) (p := fun c => !δ c)
      have hword : (s.takeWhile fun c => !δ c).filter (fun c => !δ c) =
          s.takeWhile fun c => !δ c :=
        List.filter_eq_self.mpr fun d hd => List.mem_takeWhile_imp (p := fun c => !δ c) hd
      conv_lhs => rw [← hsplit, List.filter_append, hword]
      congr 1
      cases hd : s.dropWhile fun c => !δ c with
      | nil => rfl
      | cons d r =>
        have hstop := List.head?_dropWhile_not (fun c => !δ c) s
        rw [hd] at hstop
        exact List.filter_cons_of_neg (by simpa using hstop)

/-- The tokens of a text are its characters without the delimiters. -/
theorem tokens_flatten (s : Text) : (tokens δ s).flatten = s.filter fun c => !δ c := by
  suffices ∀ n, s.length ≤ n → (tokens δ s).flatten = s.filter fun c => !δ c from
    this s.length (Nat.le_refl _)
  intro n
  induction n generalizing s with
  | zero =>
    intro h
    obtain rfl := List.eq_nil_of_length_eq_zero (Nat.le_zero.mp h)
    rfl
  | succ n ih =>
    intro h
    cases hs : strtok δ s with
    | mk t s' =>
      cases t with
      | none =>
        obtain rfl : s' = [] := strtok_none hs
        rw [tokens_of_none hs, strtok_filter hs]
        rfl
      | some t =>
        have hlt := strtok_length_lt hs
        rw [tokens_of_some hs, strtok_filter hs, List.flatten_cons, ih s' (by omega),
          Option.getD_some]

theorem notDelim_of_mem_tokens (h : w ∈ tokens δ s) (hc : c ∈ w) : δ c = false := by
  have hf : c ∈ s.filter fun c => !δ c := tokens_flatten s ▸ List.mem_flatten_of_mem h hc
  simpa using (List.mem_filter.mp hf).2

/-- What the program returns when no one else calls `strtok`, from the saved position `s`. -/
def Prog.alone (δ : Char → Bool) : Prog R → Text → R
  | .ret r, _ => r
  | .next k, s => (k (strtok δ s).1).alone δ (strtok δ s).2
  | .each acc k, s => k (acc ++ tokens δ s)

theorem Prog.alone_feed (p : Prog R) (hp : p.result = none) (s : Text) :
    (p.feed (strtok δ s).1).alone δ (strtok δ s).2 = p.alone δ s := by
  cases p with
  | ret r => cases hp
  | next k => rfl
  | each acc k =>
    cases hs : strtok δ s with
    | mk t s' =>
      cases t with
      | none => simp only [Prog.feed, Prog.alone, tokens_of_none hs, List.append_nil]
      | some t => simp only [Prog.feed, Prog.alone, tokens_of_some hs, List.append_assoc,
          List.singleton_append]

/-- A thread starts with `strtok(text, δ)` and goes on as the first token says. -/
structure Job (R : Type) where
  text : Text
  main : Option Text → Prog R

def Job.alone (δ : Char → Bool) (j : Job R) : R :=
  (j.main (strtok δ j.text).1).alone δ (strtok δ j.text).2

/-- The threads of one process. The position `strtok` saves belongs to all of them: it is kept
with the thread in whose text it is. -/
structure Process (ι R : Type) where
  thread : ι → Option (Prog R)
  saved : Option (ι × Text)

section
variable [DecidableEq ι]

/-- One call of `strtok` by thread `i`: on its text if it has not started, else on `NULL`. -/
def Process.call (δ : Char → Bool) (jobs : ι → Job R) (s : Process ι R) (i : ι) :
    Option (Process ι R) :=
  match s.thread i with
  | none =>
    let t := strtok δ (jobs i).text
    some ⟨Function.update s.thread i (some ((jobs i).main t.1)), some (i, t.2)⟩
  | some p =>
    match p.result, s.saved with
    | none, some (o, text) =>
      let t := strtok δ text
      some ⟨Function.update s.thread i (some (p.feed t.1)), some (o, t.2)⟩
    | _, _ => none

/-- Any schedule of any threads, none of which has started. -/
def Process.system (δ : Char → Bool) (jobs : ι → Job R) : System (Process ι R) where
  init s := (∀ i, s.thread i = none) ∧ s.saved = none
  step s s' := ∃ i, s.call δ jobs i = some s'

/-- The saved position is in the thread's own text, unless its call is the first one. -/
def Process.Owns (s : Process ι R) (i : ι) : Prop :=
  s.thread i = none ∨ ∃ text, s.saved = some (i, text)

instance (s : Process ι R) (i : ι) : Decidable (s.Owns i) :=
  decidable_of_iff ((s.thread i).isNone = true ∨ (s.saved.any fun o => o.1 = i) = true)
    (or_congr Option.isNone_iff_eq_none (by cases s.saved <;> simp [Prod.ext_iff]))

/-- A step of a thread that goes on only where it was itself the last to start. -/
def Process.Owned (δ : Char → Bool) (jobs : ι → Job R) (s s' : Process ι R) : Prop :=
  ∃ i, s.Owns i ∧ s.call δ jobs i = some s'

def Process.returned (s : Process ι R) (i : ι) : Option R := (s.thread i).bind Prog.result

theorem Process.step_of_call {jobs : ι → Job R} (s : Process ι R) (i : ι) (s' : Process ι R)
    (h : s.call δ jobs i = some s') : (Process.system δ jobs).step s s' :=
  ⟨i, h⟩

theorem Process.step_of_owned {jobs : ι → Job R} (s : Process ι R) (i : ι) (s' : Process ι R)
    (h : (if s.Owns i then s.call δ jobs i else none) = some s') :
    ((Process.system δ jobs).restrict (Process.Owned δ jobs)).step s s' := by
  obtain ⟨ho, hc⟩ := Option.ite_none_right_eq_some.mp h
  exact ⟨⟨i, hc⟩, i, ho, hc⟩

/-- The owner of the saved position will return what it returns alone, and so did all others. -/
structure Process.Separate (δ : Char → Bool) (jobs : ι → Job R) (s : Process ι R) : Prop where
  owner : ∀ i text, s.saved = some (i, text) →
    ∃ p, s.thread i = some p ∧ p.alone δ text = (jobs i).alone δ
  done : ∀ i p r, s.thread i = some p → p.result = some r → r = (jobs i).alone δ

theorem Prog.alone_of_result {p : Prog R} (h : p.result = some r) (s : Text) :
    p.alone δ s = r := by
  cases p with
  | ret r' => exact Option.some.inj h
  | next k => cases h
  | each acc k => cases h

theorem Process.Separate.call {s s' : Process ι R} (h : s.Separate δ jobs) (ho : s.Owns i)
    (hc : s.call δ jobs i = some s') : s'.Separate δ jobs := by
  obtain ⟨p, text, rfl, hp⟩ : ∃ p text, s' = ⟨Function.update s.thread i (some p),
      some (i, text)⟩ ∧ p.alone δ text = (jobs i).alone δ := by
    unfold Process.call at hc
    cases ht : s.thread i with
    | none =>
      rw [ht] at hc
      exact ⟨_, _, (Option.some.inj hc).symm, rfl⟩
    | some p =>
      rcases ho with hn | ⟨text, hs⟩
      · rw [hn] at ht
        cases ht
      · obtain ⟨q, hq, ha⟩ := h.owner i text hs
        obtain rfl : p = q := Option.some.inj (ht.symm.trans hq)
        rw [ht, hs] at hc
        cases hr : p.result with
        | some r => simp [hr] at hc
        | none =>
          simp only [hr] at hc
          exact ⟨_, _, (Option.some.inj hc).symm, (p.alone_feed hr text).trans ha⟩
  constructor
  · intro j text' hj
    cases hj
    exact ⟨p, Function.update_self i (some p) s.thread, hp⟩
  · intro j q r hq hr
    by_cases hij : j = i
    · subst hij
      have hq : some p = some q := (Function.update_self j (some p) s.thread).symm.trans hq
      obtain rfl := Option.some.inj hq
      exact (Prog.alone_of_result hr text).symm.trans hp
    · exact h.done j q r ((Function.update_of_ne hij (some p) s.thread).symm.trans hq) hr

/-- In a run of such steps every thread that has returned has returned what it returns alone. -/
theorem Process.returned_of_owned {jobs : ι → Job R} {s : Process ι R}
    (h : ((Process.system δ jobs).restrict (Process.Owned δ jobs)).Reachable s) (i : ι) (r : R)
    (hr : s.returned i = some r) : r = (jobs i).alone δ := by
  have hs : s.Separate δ jobs := by
    refine h.invariant ?_ ?_
    · rintro s ⟨ht, hs⟩
      constructor
      · intro i text h
        rw [hs] at h
        cases h
      · intro i p r h
        rw [ht] at h
        cases h
    · rintro s s' hs ⟨_, i, ho, hc⟩
      exact hs.call ho hc
  obtain ⟨p, hp, hpr⟩ := Option.bind_eq_some_iff.mp hr
  exact hs.done i p r hp hpr

end

end NoblesseOblige.CString
