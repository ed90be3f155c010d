import Mathlib.Algebra.BigOperators.Intervals
import Mathlib.Algebra.BigOperators.Ring.Finset
import Mathlib.Algebra.Order.BigOperators.Group.Finset
import Mathlib.Algebra.Order.Field.Basic
import Mathlib.Tactic.Linarith
import Mathlib.Tactic.Ring

/-! Sparse matrices, row by row, and the product of a vector with one.

A row lists the columns it has an entry for. A vector is a function on indices, of
which the first `n` count. What a product moves into a set of columns is the sum,
over the rows, of the row's weight in that set.
-/

set_option autoImplicit false

namespace Soshal.Library.SparseRows

variable {K : Type} [Field K] [LinearOrder K] [IsStrictOrderedRing K]

/-- Adds `x` times the row to a vector. -/
def spread (x : K) (row : List (Nat × K)) (acc : Nat → K) : Nat → K :=
  row.foldl (fun acc entry => Function.update acc entry.1 (acc entry.1 + entry.2 * x)) acc

/-- The transposed matrix times a vector; rows of weight zero are skipped. -/
def push (n : Nat) (rows : Nat → List (Nat × K)) (t : Nat → K) : Nat → K :=
  (List.range n).foldl (fun acc i => if t i = 0 then acc else spread (t i) (rows i) acc) fun _ => 0

def weight (row : List (Nat × K)) : K := (row.map Prod.snd).sum

/-- The weight of a row in a set of columns. -/
def weightIn (columns : Finset Nat) (row : List (Nat × K)) : K :=
  (row.map fun entry => if entry.1 ∈ columns then entry.2 else 0).sum

def scale (x : K) (row : List (Nat × K)) : List (Nat × K) := row.map fun entry => (entry.1, entry.2 / x)

omit [LinearOrder K] [IsStrictOrderedRing K] in
theorem sum_spread (columns : Finset Nat) (x : K) (row : List (Nat × K)) (acc : Nat → K) :
    ∑ j ∈ columns, spread x row acc j = ∑ j ∈ columns, acc j + weightIn columns row * x := by
  induction row generalizing acc with
  | nil => simp [spread, weightIn]
  | cons entry rest ih =>
    have first : ∑ j ∈ columns, Function.update acc entry.1 (acc entry.1 + entry.2 * x) j =
        ∑ j ∈ columns, acc j + (if entry.1 ∈ columns then entry.2 else 0) * x := by
      by_cases inside : entry.1 ∈ columns
      · rw [Finset.sum_update_of_mem inside, if_pos inside, ← Finset.add_sum_erase columns acc inside,
          Finset.sdiff_singleton_eq_erase]
        ring
      · rw [Finset.sum_update_of_notMem inside, if_neg inside]
        ring
    calc ∑ j ∈ columns, spread x (entry :: rest) acc j
        = ∑ j ∈ columns, spread x rest (Function.update acc entry.1 (acc entry.1 + entry.2 * x)) j := rfl
      _ = ∑ j ∈ columns, acc j + (if entry.1 ∈ columns then entry.2 else 0) * x + weightIn columns rest * x := by
          rw [ih, first]
      _ = ∑ j ∈ columns, acc j + weightIn columns (entry :: rest) * x := by
          simp only [weightIn, List.map_cons, List.sum_cons]
          ring

omit [IsStrictOrderedRing K] in
theorem sum_push (columns : Finset Nat) (n : Nat) (rows : Nat → List (Nat × K)) (t : Nat → K) :
    ∑ j ∈ columns, push n rows t j = ∑ i ∈ Finset.range n, weightIn columns (rows i) * t i := by
  induction n with
  | zero => simp [push]
  | succ n ih =>
    rw [Finset.sum_range_succ, ← ih]
    unfold push
    rw [List.range_succ, List.foldl_append, List.foldl_cons, List.foldl_nil]
    split
    · rename_i zero
      rw [zero, mul_zero, add_zero]
    · exact sum_spread columns (t n) (rows n) _

omit [IsStrictOrderedRing K] in
theorem push_apply (n : Nat) (rows : Nat → List (Nat × K)) (t : Nat → K) (j : Nat) :
    push n rows t j = ∑ i ∈ Finset.range n, weightIn {j} (rows i) * t i := by
  rw [← sum_push, Finset.sum_singleton]

theorem weightIn_nonneg {row : List (Nat × K)} (nonneg : ∀ entry ∈ row, 0 ≤ entry.2) (columns : Finset Nat) :
    0 ≤ weightIn columns row := by
  apply List.sum_nonneg
  intro x member
  obtain ⟨entry, inside, rfl⟩ := List.mem_map.mp member
  split
  · exact nonneg entry inside
  · exact le_rfl

theorem weightIn_pos {row : List (Nat × K)} (nonneg : ∀ entry ∈ row, 0 ≤ entry.2) {columns : Finset Nat}
    {entry : Nat × K} (member : entry ∈ row) (inside : entry.1 ∈ columns) (positive : 0 < entry.2) :
    0 < weightIn columns row := by
  obtain ⟨before, after, rfl⟩ := List.append_of_mem member
  have left := weightIn_nonneg (fun e member => nonneg e (List.mem_append_left _ member)) columns
  have right := weightIn_nonneg
    (fun e member => nonneg e (List.mem_append_right _ (List.mem_cons_of_mem _ member))) columns
  simp only [weightIn, List.map_append, List.sum_append, List.map_cons, List.sum_cons, if_pos inside] at left right ⊢
  linarith

omit [LinearOrder K] [IsStrictOrderedRing K] in
theorem weightIn_of_subset {columns : Finset Nat} {row : List (Nat × K)}
    (inside : ∀ entry ∈ row, entry.1 ∈ columns) : weightIn columns row = weight row := by
  unfold weightIn weight
  congr 1
  exact List.map_congr_left fun entry member => if_pos (inside entry member)

omit [LinearOrder K] [IsStrictOrderedRing K] in
theorem weightIn_of_disjoint {columns : Finset Nat} {row : List (Nat × K)}
    (outside : ∀ entry ∈ row, entry.1 ∉ columns) : weightIn columns row = 0 := by
  unfold weightIn
  rw [List.map_congr_left fun entry member => if_neg (outside entry member)]
  simp

omit [LinearOrder K] [IsStrictOrderedRing K] in
theorem weight_scale (x : K) (row : List (Nat × K)) : weight (scale x row) = weight row / x := by
  simp only [weight, scale, List.map_map, Function.comp_def]
  rw [div_eq_mul_inv, ← List.sum_map_mul_right]
  simp [div_eq_mul_inv]

theorem push_nonneg {n : Nat} {rows : Nat → List (Nat × K)} {t : Nat → K}
    (rowsNonneg : ∀ i, ∀ entry ∈ rows i, 0 ≤ entry.2) (nonneg : ∀ i, 0 ≤ t i) (j : Nat) : 0 ≤ push n rows t j := by
  rw [push_apply]
  exact Finset.sum_nonneg fun i _ => mul_nonneg (weightIn_nonneg (rowsNonneg i) _) (nonneg i)

theorem push_pos {n : Nat} {rows : Nat → List (Nat × K)} {t : Nat → K}
    (rowsNonneg : ∀ i, ∀ entry ∈ rows i, 0 ≤ entry.2) (nonneg : ∀ i, 0 ≤ t i) {i : Nat} (inRange : i < n)
    (positive : 0 < t i) {entry : Nat × K} (member : entry ∈ rows i) (counts : 0 < entry.2) :
    0 < push n rows t entry.1 := by
  rw [push_apply]
  refine Finset.sum_pos' (fun i _ => mul_nonneg (weightIn_nonneg (rowsNonneg i) _) (nonneg i))
    ⟨i, Finset.mem_range.mpr inRange, mul_pos ?_ positive⟩
  exact weightIn_pos (rowsNonneg i) member (Finset.mem_singleton_self _) counts

omit [IsStrictOrderedRing K] in
theorem push_support {n : Nat} {rows : Nat → List (Nat × K)} {t : Nat → K} {j : Nat} (moved : push n rows t j ≠ 0) :
    ∃ i < n, t i ≠ 0 ∧ ∃ entry ∈ rows i, entry.1 = j := by
  rw [push_apply] at moved
  obtain ⟨i, inRange, term⟩ := Finset.exists_ne_zero_of_sum_ne_zero moved
  refine ⟨i, Finset.mem_range.mp inRange, right_ne_zero_of_mul term, ?_⟩
  by_contra missing
  push Not at missing
  refine left_ne_zero_of_mul term (weightIn_of_disjoint fun entry member => ?_)
  rw [Finset.mem_singleton]
  exact missing entry member

end Soshal.Library.SparseRows
