import NoblesseOblige.CString
import Mathlib.Data.List.DropRight

namespace NoblesseOblige.PathName
open CString
set_option autoImplicit true

/-- What stands between the slashes of a path. -/
def components (s : Text) : List Text := s.splitOnP (· = '/')

/-- A component entered from a directory, which is given by the names that lead to it. -/
def enter (dir : List Text) (c : Text) : List Text :=
  if c = [] ∨ c = ".".toList then dir
  else if c = "..".toList then dir.dropLast
  else dir ++ [c]

def follow (dir : List Text) (cs : List Text) : List Text := cs.foldl enter dir

/-- Where a path leads from a working directory when there are no links. -/
def resolve (cwd : List Text) (s : Text) : List Text :=
  follow (if s.head? = some '/' then [] else cwd) (components s)

/-- The components of a path without what cancels: so many levels up, then these names down. -/
structure Walk where
  ups : Nat
  names : List Text
  deriving DecidableEq

def Walk.enter (w : Walk) (c : Text) : Walk :=
  if c = [] ∨ c = ".".toList then w
  else if c = "..".toList then
    if w.names = [] then ⟨w.ups + 1, []⟩ else ⟨w.ups, w.names.dropLast⟩
  else ⟨w.ups, w.names ++ [c]⟩

def walk (s : Text) : Walk := (components s).foldl Walk.enter ⟨0, []⟩

/-- Where a walk leads from a directory. There is nothing above the root. -/
def Walk.from (w : Walk) (dir : List Text) : List Text :=
  dir.take (dir.length - w.ups) ++ w.names

theorem Walk.from_nil (w : Walk) : w.from [] = w.names := by
  rw [Walk.from, List.take_nil, List.nil_append]

theorem Walk.enter_from (w : Walk) (dir : List Text) (c : Text) :
    PathName.enter (w.from dir) c = (w.enter c).from dir := by
  unfold PathName.enter Walk.enter
  split
  · rfl
  · split
    · split
      · rename_i hn
        rw [Walk.from, Walk.from, hn, List.append_nil, List.append_nil, List.dropLast_eq_take,
          List.length_take, List.take_take]
        congr 1
        simp only
        omega
      · rw [Walk.from, Walk.from, List.dropLast_append_of_ne_nil ‹_›]
    · rw [Walk.from, Walk.from, List.append_assoc]

/-- Following a path is taking its walk. -/
theorem follow_components (dir : List Text) (s : Text) :
    follow dir (components s) = (walk s).from dir := by
  have go (cs : List Text) (w : Walk) :
      follow (w.from dir) cs = (cs.foldl Walk.enter w).from dir := by
    induction cs generalizing w with
    | nil => rfl
    | cons c cs ih => rw [follow, List.foldl_cons, Walk.enter_from, List.foldl_cons, ← ih]; rfl
  have h := go (components s) ⟨0, []⟩
  rwa [Walk.from, List.append_nil, Nat.sub_zero, List.take_length] at h

/-- A path without `..` does not climb. -/
theorem walk_ups_of_notMem (h : "..".toList ∉ components s) : (walk s).ups = 0 := by
  have go (cs : List Text) (hcs : "..".toList ∉ cs) (w : Walk) :
      (cs.foldl Walk.enter w).ups = w.ups := by
    induction cs generalizing w with
    | nil => rfl
    | cons c cs ih =>
      have hc : c ≠ "..".toList := fun he => hcs (List.mem_cons.mpr (.inl he.symm))
      rw [List.foldl_cons, ih (List.not_mem_of_not_mem_cons hcs), Walk.enter, if_neg hc]
      split <;> rfl
  exact go (components s) h ⟨0, []⟩

theorem components_of_notMem (h : '/' ∉ s) : components s = [s] := by
  refine List.splitOnP_eq_singleton fun c hc => decide_eq_false ?_
  rintro rfl
  exact h hc

theorem components_append_slash (s t : Text) :
    components (s ++ '/' :: t) = components s ++ components t :=
  List.splitOnP_append_cons s t (decide_eq_true rfl)

theorem components_slash (t : Text) : components ('/' :: t) = [] :: components t :=
  components_append_slash [] t

theorem follow_append (dir cs ds : List Text) :
    follow dir (cs ++ ds) = follow (follow dir cs) ds := List.foldl_append

/-- A path that goes on with a slash. -/
theorem resolve_append_slash (cwd : List Text) (hs : s ≠ []) (ht : t.head? = some '/') :
    resolve cwd (s ++ t) = (walk t).from (resolve cwd s) := by
  cases t with
  | nil => cases ht
  | cons c t =>
    obtain rfl : c = '/' := Option.some.inj ht
    rw [resolve, resolve, List.head?_append_of_ne_nil s hs, components_append_slash, follow_append,
      ← follow_components, components_slash]
    rfl

/-- A path that goes on after a slash. -/
theorem resolve_slash_append (cwd : List Text) (hs : s.getLast? = some '/') (t : Text) :
    resolve cwd (s ++ t) = (walk t).from (resolve cwd s) := by
  obtain ⟨u, rfl⟩ := List.getLast?_eq_some_iff.mp hs
  have hne : u ++ ['/'] ≠ [] := List.concat_ne_nil _ _
  have hc : components (u ++ ['/']) = components u ++ [[]] := components_append_slash u []
  have hc' : components (u ++ ['/'] ++ t) = components u ++ components t := by
    rw [List.append_assoc]
    exact components_append_slash u t
  rw [resolve, resolve, List.head?_append_of_ne_nil _ hne, hc, hc', follow_append, follow_append,
    ← follow_components]
  rfl

theorem resolve_relative (cwd : List Text) (h : s.head? ≠ some '/') :
    resolve cwd s = (walk s).from cwd := by
  rw [resolve, if_neg h, follow_components]

/-- A path up to its last slash, and the component that follows it. -/
def dirname (s : Text) : Text := s.rdropWhile (· ≠ '/')

def basename (s : Text) : Text := s.rtakeWhile (· ≠ '/')

theorem dirname_append_basename (s : Text) : dirname s ++ basename s = s :=
  List.rdropWhile_append_rtakeWhile

theorem slash_notMem_basename (s : Text) : '/' ∉ basename s := by
  intro h
  have hne := List.mem_rtakeWhile_imp (p := fun c : Char => decide (c ≠ '/')) h
  exact of_decide_eq_true hne rfl

theorem dirname_cases (s : Text) : dirname s = [] ∨ (dirname s).getLast? = some '/' := by
  by_cases h : dirname s = []
  · exact .inl h
  · have hl := List.rdropWhile_last_not (· ≠ '/') s h
    refine .inr ((List.getLast?_eq_some_getLast h).trans (congrArg some ?_))
    exact of_not_not fun hne => hl (decide_eq_true hne)

/-- A path whose last component goes on. -/
theorem resolve_append (cwd : List Text) (s : Text) (h : t.head? ≠ some '/') :
    resolve cwd (s ++ t) = (walk (basename s ++ t)).from (resolve cwd (dirname s)) := by
  have hs := dirname_append_basename s
  rcases dirname_cases s with hd | hd
  · have hb : basename s = s := by rwa [hd, List.nil_append] at hs
    have hn := slash_notMem_basename s
    rw [hb] at hn ⊢
    rw [hd]
    refine resolve_relative cwd ?_
    cases s with
    | nil => exact h
    | cons c s =>
      intro hc
      obtain rfl : c = '/' := Option.some.inj hc
      exact hn List.mem_cons_self
  · rw [← resolve_slash_append cwd hd, ← List.append_assoc, hs]

theorem resolve_basename (cwd : List Text) (s : Text) :
    resolve cwd s = enter (resolve cwd (dirname s)) (basename s) := by
  have h := resolve_append cwd s (t := []) (by simp)
  rw [List.append_nil, List.append_nil] at h
  rw [h, ← follow_components, components_of_notMem (slash_notMem_basename s)]
  rfl

theorem prefix_take_append {l d names : List Text} (h : l.take k = d.take k) :
    l <+: d.take k ++ names ↔ l.drop k <+: names := by
  have hl := List.take_append_drop k l
  rw [h] at hl
  generalize l.drop k = rest at hl ⊢
  rw [← hl, List.prefix_append_right_inj]

/-- A walk from a directory stays at or below what a component leads to from there exactly if it
comes down again through the names it climbed past. -/
theorem enter_prefix_from (dir : List Text) (c : Text) (w : Walk) :
    enter dir c <+: w.from dir ↔ (enter dir c).drop (dir.length - w.ups) <+: w.names := by
  rw [Walk.from, enter]
  split
  · exact prefix_take_append rfl
  · split
    · by_cases hu : w.ups = 0
      · rw [hu, Nat.sub_zero, List.take_length, List.drop_of_length_le (by simp)]
        exact iff_of_true ((List.dropLast_prefix dir).trans (List.prefix_append ..))
          List.nil_prefix
      · refine prefix_take_append ?_
        rw [List.dropLast_eq_take, List.take_take]
        congr 1
        omega
    · exact prefix_take_append (List.take_append_of_le_length (by omega))

end NoblesseOblige.PathName
