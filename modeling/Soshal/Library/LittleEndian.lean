import Mathlib.Algebra.Order.Ring.Nat

/-! Numbers written in a fixed count of bytes, the lowest byte first.

What is written is read back as long as the number fits its width, and every byte
string is what its own number is written as.
-/

set_option autoImplicit false

namespace Soshal.Library.LittleEndian

abbrev Bytes := List UInt8

/-- The lowest `width` bytes of a number, the lowest first. -/
def leBytes : Nat → Nat → Bytes
  | 0, _ => []
  | width + 1, n => UInt8.ofNat (n % 256) :: leBytes width (n / 256)

def beBytes (width n : Nat) : Bytes := (leBytes width n).reverse

def leValue : Bytes → Nat
  | [] => 0
  | b :: rest => b.toNat + 256 * leValue rest

def takeLe (width : Nat) (data : Bytes) : Option (Nat × Bytes) :=
  if data.length < width then none else some (leValue (data.take width), data.drop width)

theorem length_leBytes (width n : Nat) : (leBytes width n).length = width := by
  induction width generalizing n with
  | zero => rfl
  | succ width ih => simp [leBytes, ih]

theorem leValue_leBytes {width n : Nat} (small : n < 256 ^ width) : leValue (leBytes width n) = n := by
  induction width generalizing n with
  | zero =>
    rw [pow_zero] at small
    simp only [leBytes, leValue]
    omega
  | succ width ih =>
    have rest : n / 256 < 256 ^ width := by
      rw [Nat.div_lt_iff_lt_mul (by decide), ← pow_succ]
      exact small
    have byte : (UInt8.ofNat (n % 256)).toNat = n % 256 := by
      rw [UInt8.toNat_ofNat']
      omega
    simp only [leBytes, leValue]
    rw [ih rest, byte]
    omega

theorem leValue_lt (bytes : Bytes) : leValue bytes < 256 ^ bytes.length := by
  induction bytes with
  | nil => decide
  | cons byte rest ih =>
    have small := byte.toNat_lt
    rw [leValue, List.length_cons, pow_succ]
    omega

theorem takeLe_leBytes {width n : Nat} (small : n < 256 ^ width) (rest : Bytes) :
    takeLe width (leBytes width n ++ rest) = some (n, rest) := by
  unfold takeLe
  rw [if_neg (by rw [List.length_append, length_leBytes]; omega), List.take_left' (length_leBytes width n),
    List.drop_left' (length_leBytes width n), leValue_leBytes small]

theorem leBytes_leValue (bytes : Bytes) : leBytes bytes.length (leValue bytes) = bytes := by
  induction bytes with
  | nil => rfl
  | cons b rest ih =>
    have small := b.toNat_lt
    have low : (b.toNat + 256 * leValue rest) % 256 = b.toNat := by omega
    have high : (b.toNat + 256 * leValue rest) / 256 = leValue rest := by omega
    rw [leValue, List.length_cons, leBytes, low, high, ih, UInt8.ofNat_toNat]

theorem of_takeLe {width n : Nat} {data rest : Bytes} (taken : takeLe width data = some (n, rest)) :
    n < 256 ^ width ∧ data = leBytes width n ++ rest := by
  unfold takeLe at taken
  split at taken
  · cases taken
  · rename_i enough
    cases taken
    have whole : (data.take width).length = width := List.length_take_of_le (Nat.not_lt.mp enough)
    have small := leValue_lt (data.take width)
    have written := leBytes_leValue (data.take width)
    rw [whole] at small written
    exact ⟨small, by rw [written, List.take_append_drop]⟩

end Soshal.Library.LittleEndian
