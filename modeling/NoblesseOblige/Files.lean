import Mathlib.Data.List.Basic
import Mathlib.Logic.Function.Basic

namespace NoblesseOblige
set_option autoImplicit true

/-- A file after data was written into it at an offset. What lies between its end and the offset
is filled up; to write nothing does nothing. -/
def overwrite (zero : α) (content : List α) (offset : Nat) : List α → List α
  | [] => content
  | a :: data =>
    content.take offset ++ List.replicate (offset - content.length) zero ++ a :: data ++
      content.drop (offset + (data.length + 1))

/-- A file cut off or filled up to a size. -/
def resize (zero : α) (content : List α) (size : Nat) : List α :=
  content.take size ++ List.replicate (size - content.length) zero

/-- A change to one of many files. -/
inductive Edit (ι α : Type)
  | write (file : ι) (offset : Nat) (data : List α)
  | truncate (file : ι) (size : Nat)

def Edit.apply [DecidableEq ι] (zero : α) (content : ι → List α) : Edit ι α → ι → List α
  | .write file offset data =>
    Function.update content file (overwrite zero (content file) offset data)
  | .truncate file size => Function.update content file (resize zero (content file) size)

/-- The places of a file that a change writes or cuts off. -/
def Edit.Touches (file : ι) (i : Nat) : Edit ι α → Prop
  | .write file' offset data => file' = file ∧ offset ≤ i ∧ i < offset + data.length
  | .truncate file' size => file' = file ∧ size ≤ i

section
variable {α : Type} {zero b : α} {content data : List α} {i k offset : Nat}

theorem overwrite_outside (h : content[i]? = some b)
    (hi : i < offset ∨ offset + data.length ≤ i) :
    (overwrite zero content offset data)[i]? = some b := by
  obtain ⟨hlt, -⟩ := List.getElem?_eq_some_iff.mp h
  cases data with
  | nil => exact h
  | cons a data =>
    rw [List.length_cons] at hi
    rw [overwrite, List.append_assoc, List.append_assoc]
    rcases hi with hi | hi
    · rw [List.getElem?_append_left (by rw [List.length_take]; omega), List.getElem?_take,
        if_pos hi, h]
    · have hgap : offset - content.length = 0 := by omega
      rw [hgap, List.replicate_zero, List.nil_append,
        List.getElem?_append_right (by rw [List.length_take]; omega),
        List.getElem?_append_right (by rw [List.length_take, List.length_cons]; omega),
        List.getElem?_drop, List.length_take, List.length_cons, ← h]
      congr 1
      omega

theorem overwrite_inside (hk : k < data.length) :
    (overwrite zero content offset data)[offset + k]? = data[k]? := by
  cases data with
  | nil => cases hk
  | cons a data =>
    have hpad : (content.take offset ++ List.replicate (offset - content.length) zero).length =
        offset := by
      rw [List.length_append, List.length_take, List.length_replicate]
      omega
    rw [overwrite, List.append_assoc, List.getElem?_append_right (by omega), hpad,
      Nat.add_sub_cancel_left, List.getElem?_append_left hk]

theorem resize_below (h : content[i]? = some b) (hi : i < size) :
    (resize zero content size)[i]? = some b := by
  obtain ⟨hlt, -⟩ := List.getElem?_eq_some_iff.mp h
  rw [resize, List.getElem?_append_left (by rw [List.length_take]; omega), List.getElem?_take,
    if_pos hi, h]

end

namespace Edit
variable {ι α : Type} [DecidableEq ι] {zero b : α} {content : ι → List α} {file : ι} {i : Nat}

/-- A change leaves alone what it does not touch. -/
theorem apply_of_not_touches {e : Edit ι α} (h : (content file)[i]? = some b)
    (he : ¬ e.Touches file i) : (e.apply zero content file)[i]? = some b := by
  cases e with
  | write file' offset data =>
    rw [apply]
    by_cases hf : file' = file
    · subst hf
      rw [Function.update_self]
      apply overwrite_outside h
      by_contra hi
      exact he ⟨rfl, by omega, by omega⟩
    · rwa [Function.update_of_ne (Ne.symm hf)]
  | truncate file' size =>
    rw [apply]
    by_cases hf : file' = file
    · subst hf
      rw [Function.update_self]
      apply resize_below h
      by_contra hi
      exact he ⟨rfl, by omega⟩
    · rwa [Function.update_of_ne (Ne.symm hf)]

theorem apply_write {data : List α} (offset : Nat) (hk : k < data.length) :
    ((write file offset data).apply zero content file)[offset + k]? = data[k]? := by
  rw [apply, Function.update_self, overwrite_inside hk]

/-- So do many changes. -/
theorem foldl_of_not_touches {es : List (Edit ι α)} (h : (content file)[i]? = some b)
    (he : ∀ e ∈ es, ¬ e.Touches file i) :
    (es.foldl (fun content e => e.apply zero content) content file)[i]? = some b := by
  induction es generalizing content with
  | nil => exact h
  | cons e es ih =>
    rw [List.foldl_cons]
    apply ih
    · exact apply_of_not_touches h (he e List.mem_cons_self)
    · exact fun e' hm => he e' (List.mem_cons_of_mem e hm)

end Edit

end NoblesseOblige
