import Mathlib.Data.List.Basic
import Mathlib.Data.List.Range

/-! Cutting a list into windows of one size, the last of which may be shorter. -/

set_option autoImplicit false

namespace Soshal.Library.Windows

variable {α : Type}

/-- `usize::div_ceil`. -/
def divCeil (a b : Nat) : Nat := (a + b - 1) / b

def window (size : Nat) (xs : List α) (i : Nat) : List α := (xs.drop (i * size)).take size

/-- `slice::chunks`. -/
def windows (size : Nat) (xs : List α) : List (List α) := (List.range (divCeil xs.length size)).map (window size xs)

theorem le_divCeil_mul {a b : Nat} (positive : 0 < b) : a ≤ divCeil a b * b := by
  have quotient := Nat.div_add_mod (a + b - 1) b
  have remainder := Nat.mod_lt (a + b - 1) positive
  rw [divCeil, Nat.mul_comm]
  omega

theorem divCeil_le_iff {a b n : Nat} (positive : 0 < b) : divCeil a b ≤ n ↔ a ≤ n * b := by
  rw [divCeil, ← Nat.lt_succ_iff, Nat.div_lt_iff_lt_mul positive, Nat.succ_mul]
  omega

theorem lt_divCeil_iff {a b n : Nat} (positive : 0 < b) : n < divCeil a b ↔ n * b < a := by
  rw [← Nat.not_le, divCeil_le_iff positive, Nat.not_le]

@[simp] theorem length_windows (size : Nat) (xs : List α) : (windows size xs).length = divCeil xs.length size := by
  simp [windows]

theorem flatMap_window (size : Nat) (xs : List α) (n : Nat) :
    (List.range n).flatMap (window size xs) = xs.take (n * size) := by
  induction n with
  | zero => simp
  | succ n ih =>
    rw [List.range_succ, List.flatMap_append, List.flatMap_singleton, ih, Nat.succ_mul, List.take_add, window]

theorem flatten_windows {size : Nat} (positive : 0 < size) (xs : List α) : (windows size xs).flatten = xs := by
  have joined := flatMap_window size xs (divCeil xs.length size)
  rw [List.flatMap_def, List.take_of_length_le (le_divCeil_mul positive)] at joined
  exact joined

end Soshal.Library.Windows
