import NoblesseOblige.Transition
import Mathlib.Data.Set.Insert

namespace NoblesseOblige
set_option autoImplicit true

/-- Which tasks are ready, and which worker has which task. A task has one worker at most. -/
@[ext]
structure Dispatch (κ τ : Type) where
  ready : Set τ
  owner : τ → Option κ

namespace Dispatch

section
variable [DecidableEq τ]

/-- A task becomes ready at any time, but only its worker makes it stop being so. A worker takes
only what is ready and free. -/
inductive Step (d : Dispatch κ τ) : Dispatch κ τ → Prop
  | wake (p : τ) : Step d { d with ready := insert p d.ready }
  | sleep (p : τ) (c : κ) (h : d.owner p = some c) : Step d { d with ready := d.ready \ {p} }
  | take (p : τ) (c : κ) (hr : p ∈ d.ready) (h : d.owner p = none) :
      Step d { d with owner := Function.update d.owner p (some c) }
  | release (p : τ) (c : κ) (h : d.owner p = some c) :
      Step d { d with owner := Function.update d.owner p none }

/-- At first nobody works. -/
def system (κ τ : Type) [DecidableEq τ] : System (Dispatch κ τ) where
  init d := ∀ p, d.owner p = none
  step := Step

theorem Step.of_eq {d e e' : Dispatch κ τ} (h : Step d e) (he : e = e') : Step d e' := he ▸ h

/-- A worker that loses a task leaves it free. -/
theorem Step.owner_lost {d d' : Dispatch κ τ} (h : Step d d') (hc : d.owner p = some c)
    (hc' : d'.owner p ≠ some c) : d'.owner p = none := by
  cases h with
  | wake => exact absurd hc hc'
  | sleep => exact absurd hc hc'
  | take q e hr hfree =>
    by_cases hp : p = q
    · subst hp
      rw [hfree] at hc
      cases hc
    · exact absurd ((Function.update_of_ne hp ..).trans hc) hc'
  | release q e hq =>
    by_cases hp : p = q
    · subst hp
      exact Function.update_self ..
    · exact absurd ((Function.update_of_ne hp ..).trans hc) hc'

end

end Dispatch

end NoblesseOblige
