import Mathlib.Data.List.Nodup
import Mathlib.Data.List.Perm.Basic
import Mathlib.Order.Defs.LinearOrder
import Mathlib.Order.Lattice

/-! Lists sorted by a key.

Where the keys are distinct there is one sorted arrangement, so neither the order
before sorting nor the sorting algorithm shows in the result, and the first elements
of it can be selected before sorting.
-/

set_option autoImplicit false

namespace Soshal.Library.Sorting

variable {α κ : Type} [LinearOrder κ] (key : α → κ)

def sortByKey (xs : List α) : List α := xs.mergeSort fun a b => decide (key a ≤ key b)

/-- The elements at the first positions are below the others. -/
def Selected (count : Nat) (xs : List α) : Prop := ∀ a ∈ xs.take count, ∀ b ∈ xs.drop count, key a ≤ key b

instance (count : Nat) (xs : List α) : Decidable (Selected key count xs) :=
  inferInstanceAs (Decidable (∀ a ∈ xs.take count, ∀ b ∈ xs.drop count, key a ≤ key b))

variable {key}

theorem sortByKey_perm (xs : List α) : (sortByKey key xs).Perm xs := List.mergeSort_perm xs _

theorem pairwise_sortByKey (xs : List α) : (sortByKey key xs).Pairwise fun a b => key a ≤ key b := by
  have sorted := @List.pairwise_mergeSort α (fun a b => decide (key a ≤ key b))
    (fun a b c first second => by simpa using le_trans (of_decide_eq_true first) (of_decide_eq_true second))
    (fun a b => by simpa using le_total (key a) (key b)) xs
  simpa [sortByKey] using sorted

theorem eq_of_sorted {xs ys : List α} (distinct : (ys.map key).Nodup) (perm : xs.Perm ys)
    (first : xs.Pairwise fun a b => key a ≤ key b) (second : ys.Pairwise fun a b => key a ≤ key b) : xs = ys := by
  refine List.Perm.eq_of_pairwise ?_ first second perm
  intro a b member other below above
  exact List.inj_on_of_nodup_map distinct (perm.subset member) other (le_antisymm below above)

theorem sortByKey_eq {xs ys : List α} (distinct : (ys.map key).Nodup) (perm : xs.Perm ys)
    (sorted : ys.Pairwise fun a b => key a ≤ key b) : sortByKey key xs = ys :=
  eq_of_sorted distinct ((sortByKey_perm xs).trans perm) (pairwise_sortByKey xs) sorted

theorem sortByKey_take {xs arranged : List α} (distinct : (xs.map key).Nodup) (perm : arranged.Perm xs) {count : Nat}
    (selected : Selected key count arranged) :
    sortByKey key (arranged.take count) = (sortByKey key xs).take count := by
  have whole : sortByKey key (arranged.take count) ++ sortByKey key (arranged.drop count) = sortByKey key xs := by
    have joined : (sortByKey key (arranged.take count) ++ sortByKey key (arranged.drop count)).Perm xs := by
      refine (List.Perm.append (sortByKey_perm _) (sortByKey_perm _)).trans ?_
      rw [List.take_append_drop]
      exact perm
    refine eq_of_sorted ?_ (joined.trans (sortByKey_perm xs).symm) ?_ (pairwise_sortByKey xs)
    · exact (((sortByKey_perm xs).map key).nodup_iff).mpr distinct
    · rw [List.pairwise_append]
      refine ⟨pairwise_sortByKey _, pairwise_sortByKey _, ?_⟩
      intro a front b back
      exact selected a ((sortByKey_perm _).mem_iff.mp front) b ((sortByKey_perm _).mem_iff.mp back)
  have length : (sortByKey key (arranged.take count)).length = min count xs.length := by
    rw [(sortByKey_perm _).length_eq, List.length_take, perm.length_eq]
  by_cases short : count ≤ xs.length
  · rw [← whole, List.take_left' (by omega)]
  · have all : arranged.take count = arranged := List.take_of_length_le (by rw [perm.length_eq]; omega)
    have nothing : arranged.drop count = [] := List.drop_of_length_le (by rw [perm.length_eq]; omega)
    have empty : sortByKey key ([] : List α) = [] := List.mergeSort_nil
    rw [← whole, all, nothing, empty, List.append_nil, List.take_of_length_le]
    rw [all] at length
    omega

end Soshal.Library.Sorting
