import Mathlib.Data.List.Basic
import Mathlib.Data.Nat.Log
import Mathlib.Tactic.Ring

/-! Numbers that bytes spell, most significant byte first.

Byte strings of one length compare lexicographically as their numbers do, and the
bytewise exclusive or spells that of the numbers. The leading zero bits of a
string bound its number from both sides.
-/

set_option autoImplicit false

namespace Soshal.Library.Octets

def value (bytes : List UInt8) : Nat := bytes.foldl (fun n byte => n * 256 + byte.toNat) 0

@[simp] theorem value_nil : value [] = 0 := rfl

theorem foldl_value (n : Nat) (bytes : List UInt8) :
    bytes.foldl (fun n byte => n * 256 + byte.toNat) n = n * 256 ^ bytes.length + value bytes := by
  induction bytes generalizing n with
  | nil => simp
  | cons byte rest ih =>
    simp only [value, List.foldl_cons, List.length_cons]
    rw [ih, ih (0 * 256 + byte.toNat)]
    ring

theorem value_cons (byte : UInt8) (rest : List UInt8) :
    value (byte :: rest) = byte.toNat * 256 ^ rest.length + value rest := by
  rw [value, List.foldl_cons, foldl_value, Nat.zero_mul, Nat.zero_add]

theorem value_append (first second : List UInt8) :
    value (first ++ second) = value first * 256 ^ second.length + value second := by
  rw [value, List.foldl_append, foldl_value]
  rfl

theorem value_snoc (front : List UInt8) (byte : UInt8) : value (front ++ [byte]) = value front * 256 + byte.toNat := by
  rw [value, List.foldl_append]
  rfl

theorem value_lt (bytes : List UInt8) : value bytes < 256 ^ bytes.length := by
  induction bytes with
  | nil => simp
  | cons byte rest ih =>
    have small := byte.toNat_lt
    calc value (byte :: rest) = byte.toNat * 256 ^ rest.length + value rest := value_cons byte rest
      _ < (byte.toNat + 1) * 256 ^ rest.length := by rw [Nat.add_mul, Nat.one_mul]; omega
      _ ≤ 256 * 256 ^ rest.length := Nat.mul_le_mul_right _ (by omega)
      _ = 256 ^ (byte :: rest).length := by rw [List.length_cons, Nat.pow_succ, Nat.mul_comm]

theorem value_eq_zero_iff {bytes : List UInt8} : value bytes = 0 ↔ ∀ byte ∈ bytes, byte = 0 := by
  induction bytes with
  | nil => simp
  | cons byte rest ih =>
    have unit : 0 < 256 ^ rest.length := Nat.pow_pos (by omega)
    rw [value_cons, Nat.add_eq_zero_iff, ih, Nat.mul_eq_zero, List.forall_mem_cons]
    refine and_congr_left fun _ => ?_
    rw [or_iff_left (Nat.ne_of_gt unit)]
    exact UInt8.toNat_inj (b := 0)

theorem value_append_lt_iff {front back : List UInt8} :
    value (front ++ back) < 256 ^ back.length ↔ ∀ byte ∈ front, byte = 0 := by
  have below := value_lt back
  rw [← value_eq_zero_iff, value_append]
  generalize 256 ^ back.length = unit at below
  constructor
  · intro less
    by_contra positive
    -- A front that is not zero counts at least one unit of the back.
    have jump : 1 * unit ≤ value front * unit := Nat.mul_le_mul_right _ (Nat.pos_of_ne_zero positive)
    omega
  · intro zero
    rw [zero, Nat.zero_mul, Nat.zero_add]
    exact below

theorem two_pow_mul (n : Nat) : 2 ^ (8 * n) = 256 ^ n := by rw [Nat.pow_mul]

theorem value_append_cons_lt_iff {front rest : List UInt8} {byte : UInt8} {low : Nat} (short : low ≤ 8) :
    value (front ++ byte :: rest) < 2 ^ (8 * rest.length + low) ↔
      (∀ byte ∈ front, byte = 0) ∧ byte.toNat < 2 ^ low := by
  have below := value_lt rest
  have within : 2 ^ low ≤ 2 ^ 8 := Nat.pow_le_pow_right (by omega) short
  have unit : 2 ^ (8 * rest.length + low) = 2 ^ low * 256 ^ rest.length := by
    rw [Nat.pow_add, two_pow_mul, Nat.mul_comm]
  have whole : 2 ^ low * 256 ^ rest.length ≤ 256 ^ (byte :: rest).length := by
    rw [List.length_cons, Nat.pow_succ, Nat.mul_comm]
    exact Nat.mul_le_mul_left _ within
  rw [unit]
  constructor
  · intro less
    have front_zero := value_append_lt_iff.mp (less.trans_le whole)
    refine ⟨front_zero, ?_⟩
    rw [value_append, value_eq_zero_iff.mpr front_zero, Nat.zero_mul, Nat.zero_add, value_cons] at less
    exact Nat.lt_of_mul_lt_mul_right ((Nat.le_add_right _ _).trans_lt less)
  · rintro ⟨front_zero, less⟩
    rw [value_append, value_eq_zero_iff.mpr front_zero, Nat.zero_mul, Nat.zero_add, value_cons]
    calc byte.toNat * 256 ^ rest.length + value rest < (byte.toNat + 1) * 256 ^ rest.length := by
          rw [Nat.add_mul, Nat.one_mul]
          omega
      _ ≤ 2 ^ low * 256 ^ rest.length := Nat.mul_le_mul_right _ less

theorem value_cons_lt_iff {first second : UInt8} {rest rest' : List UInt8} (length : rest.length = rest'.length) :
    value (first :: rest) < value (second :: rest') ↔
      first.toNat < second.toNat ∨ first = second ∧ value rest < value rest' := by
  have below := value_lt rest
  have below' := value_lt rest'
  rw [value_cons, value_cons, length]
  rw [length] at below
  generalize 256 ^ rest'.length = unit at below below'
  constructor
  · intro less
    obtain before | same | after := Nat.lt_trichotomy first.toNat second.toNat
    · exact .inl before
    · rw [same] at less
      exact .inr ⟨UInt8.toNat_inj.mp same, by omega⟩
    · have jump : (second.toNat + 1) * unit ≤ first.toNat * unit := Nat.mul_le_mul_right _ after
      rw [Nat.add_mul] at jump
      omega
  · rintro (before | ⟨rfl, less⟩)
    · have jump : (first.toNat + 1) * unit ≤ second.toNat * unit := Nat.mul_le_mul_right _ before
      rw [Nat.add_mul] at jump
      omega
    · omega

theorem compare_eq {first second : List UInt8} (length : first.length = second.length) :
    compare first second = compare (value first) (value second) := by
  induction first generalizing second with
  | nil =>
    obtain rfl := List.eq_nil_of_length_eq_zero length.symm
    rfl
  | cons byte rest ih =>
    cases second with
    | nil => cases length
    | cons byte' rest' =>
      have tails : rest.length = rest'.length := Nat.succ.inj length
      rw [List.compare_cons_cons, UInt8.compare_eq_toNat_compare_toNat, ih tails]
      cases first : compare byte.toNat byte'.toNat with
      | lt =>
        have less := Nat.compare_eq_lt.mp first
        exact (Nat.compare_eq_lt.mpr ((value_cons_lt_iff tails).mpr (.inl less))).symm
      | gt =>
        have more := Nat.compare_eq_gt.mp first
        exact (Nat.compare_eq_gt.mpr ((value_cons_lt_iff tails.symm).mpr (.inl more))).symm
      | eq =>
        have same := UInt8.toNat_inj.mp (Nat.compare_eq_eq.mp first)
        subst same
        rw [Ordering.then, value_cons, value_cons, tails, Nat.compare_eq_ite_lt, Nat.compare_eq_ite_lt]
        simp only [Nat.add_lt_add_iff_left]

theorem value_inj {first second : List UInt8} (length : first.length = second.length)
    (same : value first = value second) : first = second := by
  have level : compare first second = .eq := by rw [compare_eq length, same, Nat.compare_eq_eq]
  exact Std.LawfulEqOrd.eq_of_compare level

theorem mul_two_pow_add_or {a b c n : Nat} (left : b < 2 ^ n) (right : c < 2 ^ n) :
    (a * 2 ^ n + b) ||| c = a * 2 ^ n + (b ||| c) := by
  rw [← Nat.shiftLeft_eq, Nat.shiftLeft_add_eq_or_of_lt left, Nat.or_assoc,
    Nat.shiftLeft_add_eq_or_of_lt (Nat.or_lt_two_pow left right)]

theorem mul_two_pow_add_xor {a b x y n : Nat} (left : x < 2 ^ n) (right : y < 2 ^ n) :
    (a * 2 ^ n + x) ^^^ (b * 2 ^ n + y) = (a ^^^ b) * 2 ^ n + (x ^^^ y) := by
  have quotient : ∀ {c z : Nat}, z < 2 ^ n → (c * 2 ^ n + z) / 2 ^ n = c := by
    intro c z below
    rw [Nat.mul_comm, Nat.mul_add_div (Nat.two_pow_pos n), Nat.div_eq_of_lt below, Nat.add_zero]
  have remainder : ∀ {c z : Nat}, z < 2 ^ n → (c * 2 ^ n + z) % 2 ^ n = z := by
    intro c z below
    rw [Nat.mul_comm, Nat.mul_add_mod, Nat.mod_eq_of_lt below]
  rw [← Nat.div_add_mod' ((a * 2 ^ n + x) ^^^ (b * 2 ^ n + y)) (2 ^ n), Nat.xor_div_two_pow, Nat.xor_mod_two_pow,
    quotient left, quotient right, remainder left, remainder right]

theorem value_xor {first second : List UInt8} (length : first.length = second.length) :
    value (List.zipWith (· ^^^ ·) first second) = value first ^^^ value second := by
  induction first generalizing second with
  | nil =>
    obtain rfl := List.eq_nil_of_length_eq_zero length.symm
    rfl
  | cons byte rest ih =>
    cases second with
    | nil => cases length
    | cons byte' rest' =>
      have tails : rest.length = rest'.length := Nat.succ.inj length
      have unit : 256 ^ rest'.length = 2 ^ (8 * rest'.length) := (two_pow_mul _).symm
      have left : value rest < 2 ^ (8 * rest'.length) := by rw [← unit, ← tails]; exact value_lt rest
      have right : value rest' < 2 ^ (8 * rest'.length) := by rw [← unit]; exact value_lt rest'
      rw [List.zipWith_cons_cons, value_cons, value_cons, value_cons, ih tails, List.length_zipWith, tails,
        Nat.min_self, unit, mul_two_pow_add_xor left right, UInt8.toNat_xor]

def leadingZeros (byte : UInt8) : Nat := if byte = 0 then 8 else 7 - byte.toNat.log2

theorem leadingZeros_bounds {byte : UInt8} (nonzero : byte ≠ 0) :
    leadingZeros byte < 8 ∧ 2 ^ (7 - leadingZeros byte) ≤ byte.toNat ∧ byte.toNat < 2 ^ (8 - leadingZeros byte) := by
  have positive : byte.toNat ≠ 0 := fun zero => nonzero (UInt8.toNat_inj.mp zero)
  have high : byte.toNat.log2 < 8 := (Nat.log2_lt positive).mpr byte.toNat_lt
  rw [leadingZeros, if_neg nonzero]
  refine ⟨by omega, ?_, ?_⟩
  · rw [show 7 - (7 - byte.toNat.log2) = byte.toNat.log2 by omega]
    exact Nat.log2_self_le positive
  · rw [show 8 - (7 - byte.toNat.log2) = byte.toNat.log2 + 1 by omega]
    exact Nat.lt_log2_self

theorem masked_eq_zero_iff {byte : UInt8} {low : Nat} (short : low < 8) :
    byte &&& (0xff <<< UInt8.ofNat low) = 0 ↔ byte.toNat < 2 ^ low := by
  have table : ∀ low < 8, ∀ n < 256, UInt8.ofNat n &&& (0xff <<< UInt8.ofNat low) = 0 ↔ n < 2 ^ low := by
    decide +kernel
  -- Eight masks and all bytes are compared once and for all.
  have entry := table low short byte.toNat byte.toNat_lt
  rwa [UInt8.ofNat_toNat] at entry

theorem value_bounds (zeros : Nat) {byte : UInt8} (nonzero : byte ≠ 0) (rest : List UInt8) :
    2 ^ (8 * rest.length + (7 - leadingZeros byte)) ≤ value (List.replicate zeros 0 ++ byte :: rest) ∧
      value (List.replicate zeros 0 ++ byte :: rest) < 2 ^ (8 * rest.length + (8 - leadingZeros byte)) := by
  obtain ⟨-, low, high⟩ := leadingZeros_bounds nonzero
  constructor
  · rw [← not_lt, value_append_cons_lt_iff (by omega)]
    exact fun less => absurd less.2 (Nat.not_lt.mpr low)
  · rw [value_append_cons_lt_iff (by omega)]
    exact ⟨fun _ member => List.eq_of_mem_replicate member, high⟩

end Soshal.Library.Octets
