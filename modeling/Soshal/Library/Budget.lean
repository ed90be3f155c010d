import Mathlib.Algebra.BigOperators.Group.List.Basic
import Mathlib.Algebra.GroupWithZero.Nat
import Mathlib.Data.List.Basic

/-! Queues that are held to a number of entries and to a total weight.

The weight is counted beside the queue, and each entry that is dropped is taken off
the count. An entry that is heavier than the whole budget empties the queue.
-/

set_option autoImplicit false

namespace Soshal.Library.Budget

variable {α : Type} (weight : α → Nat) (most budget : Nat)

def total (queue : List α) : Nat := (queue.map weight).sum

/-- Drop entries from the front until both limits are met. -/
def trim : List α → Nat → List α × Nat
  | [], counted => ([], counted)
  | first :: rest, counted =>
    if most < rest.length + 1 ∨ budget < counted then trim rest (counted - weight first)
    else (first :: rest, counted)

theorem total_append (front back : List α) : total weight (front ++ back) = total weight front + total weight back := by
  simp [total]

theorem trim_suffix (queue : List α) (counted : Nat) : (trim weight most budget queue counted).1 <:+ queue := by
  induction queue generalizing counted with
  | nil => exact List.suffix_refl []
  | cons first rest ih =>
    unfold trim
    split
    · exact (ih _).trans (List.suffix_cons first rest)
    · exact List.suffix_refl _

theorem trim_counted (queue : List α) :
    (trim weight most budget queue (total weight queue)).2 =
      total weight (trim weight most budget queue (total weight queue)).1 := by
  induction queue with
  | nil => rfl
  | cons first rest ih =>
    have left : total weight (first :: rest) - weight first = total weight rest := by simp [total]
    unfold trim
    rw [left]
    split
    · exact ih
    · rfl

theorem length_trim_le (queue : List α) (counted : Nat) : (trim weight most budget queue counted).1.length ≤ most := by
  induction queue generalizing counted with
  | nil => exact Nat.zero_le most
  | cons first rest ih =>
    unfold trim
    split
    · exact ih _
    · rename_i met
      exact Nat.not_lt.mp fun long => met (.inl long)

theorem trim_total_le (queue : List α) : (trim weight most budget queue (total weight queue)).2 ≤ budget := by
  induction queue with
  | nil => exact Nat.zero_le budget
  | cons first rest ih =>
    have left : total weight (first :: rest) - weight first = total weight rest := by simp [total]
    unfold trim
    rw [left]
    split
    · exact ih
    · rename_i met
      exact Nat.not_lt.mp fun heavy => met (.inr heavy)

end Soshal.Library.Budget
