import Mathlib.Data.Nat.Digits.Defs
import Mathlib.Data.Nat.Digits.Lemmas
import Mathlib.Tactic.Ring
import Soshal.Library.Text

/-! Numerals in a radix up to sixteen, written without leading zeros and read from the front of a text.

Reading stops at the first character that is no digit, so a numeral is read back
whatever follows it, as long as that does not go on with a digit.
-/

set_option autoImplicit false

namespace Soshal.Library.Numerals

open Text (hexDigit)

def numeral (radix n : Nat) : List Char :=
  if n = 0 then ['0'] else ((Nat.digits radix n).reverse).map hexDigit

/-- The value of a character as a digit, letters of either case counting from ten. -/
def toDigit (radix : Nat) (c : Char) : Option Nat :=
  let value :=
    if c.isDigit then some (c.toNat - 48)
    else if 'a' ≤ c ∧ c ≤ 'z' then some (c.toNat - 87)
    else if 'A' ≤ c ∧ c ≤ 'Z' then some (c.toNat - 55)
    else none
  value.filter (· < radix)

def isDigitIn (radix : Nat) (c : Char) : Bool := (toDigit radix c).isSome

def numeralValue (radix : Nat) (cs : List Char) : Nat :=
  cs.foldl (fun acc c => acc * radix + (toDigit radix c).getD 0) 0

/-- A number of at most `maxDigits` digits and of at most `most`, and what follows it. -/
def readNumber (radix maxDigits : Nat) (allowZeroPrefix : Bool) (most : Nat) (cs : List Char) :
    Option (Nat × List Char) :=
  let digits := cs.takeWhile (isDigitIn radix)
  if digits = [] ∨ digits.length > maxDigits ∨ (allowZeroPrefix = false ∧ digits.head? = some '0' ∧ digits.length > 1) then
    none
  else if numeralValue radix digits > most then none
  else some (numeralValue radix digits, cs.drop digits.length)

def withoutSign : List Char → List Char
  | '+' :: rest => rest
  | cs => cs

/-- `from_str_radix` at an unsigned type with `bound` values: a sign and leading zeros are read too. -/
def fromStrRadix (radix bound : Nat) (cs : List Char) : Option Nat :=
  let digits := withoutSign cs
  if digits ≠ [] ∧ digits.all (isDigitIn radix) ∧ numeralValue radix digits < bound then
    some (numeralValue radix digits)
  else none

variable {radix : Nat}

theorem toDigit_hexDigit {d : Nat} (digit : d < radix) (small : radix ≤ 16) : toDigit radix (hexDigit d) = some d := by
  have plain : toDigit 16 (hexDigit d) = some d := by
    have bound : d < 16 := by omega
    interval_cases d <;> rfl
  unfold toDigit at plain ⊢
  dsimp only at plain ⊢
  obtain ⟨found, -⟩ := Option.filter_eq_some_iff.mp plain
  exact Option.filter_eq_some_iff.mpr ⟨found, decide_eq_true digit⟩

theorem digits_numeral (binary : 1 < radix) (n : Nat) :
    ∃ ds : List Nat, numeral radix n = ds.map hexDigit ∧ (∀ d ∈ ds, d < radix) ∧ ds ≠ [] ∧
      (ds.foldl (fun acc d => acc * radix + d) 0 = n) ∧
      (∀ width, 0 < width → n < radix ^ width → ds.length ≤ width) ∧ (ds.head? = some 0 → ds.length = 1) := by
  unfold numeral
  split
  · rename_i zero
    refine ⟨[0], rfl, ?_, List.cons_ne_nil _ _, ?_, ?_, fun _ => rfl⟩
    · intro d member
      rw [List.mem_singleton.mp member]
      omega
    · simp [zero]
    · intro width positive _
      exact positive
  · rename_i nonzero
    refine ⟨(Nat.digits radix n).reverse, rfl, ?_, ?_, ?_, ?_, ?_⟩
    · intro d member
      exact Nat.digits_lt_base binary (List.mem_reverse.mp member)
    · rw [Ne, List.reverse_eq_nil_iff, Nat.digits_eq_nil_iff_eq_zero]
      exact nonzero
    · rw [List.foldl_reverse]
      have value := Nat.ofDigits_digits radix n
      rw [Nat.ofDigits_eq_foldr] at value
      rw [← value]
      congr 1
      · funext d acc
        simp [Nat.mul_comm, Nat.add_comm]
      · rw [value]
    · intro width _ below
      rw [List.length_reverse]
      exact (Nat.digits_length_le_iff binary n).mpr below
    · intro leading
      have last := Nat.getLast_digit_ne_zero radix nonzero
      rw [List.head?_reverse, List.getLast?_eq_some_getLast (Nat.digits_ne_nil_iff_ne_zero.mpr nonzero)] at leading
      exact absurd (Option.some.inj leading) last

theorem takeWhile_append_of_stop {α : Type} {p : α → Bool} {front rest : List α} (all : ∀ x ∈ front, p x = true)
    (stop : ∀ x, rest.head? = some x → p x = false) : (front ++ rest).takeWhile p = front := by
  rw [List.takeWhile_append_of_pos all]
  cases rest with
  | nil => simp
  | cons x rest => simp [stop x rfl]

theorem numeralValue_hexDigits {ds : List Nat} (digits : ∀ d ∈ ds, d < radix) (small : radix ≤ 16) :
    numeralValue radix (ds.map hexDigit) = ds.foldl (fun acc d => acc * radix + d) 0 := by
  unfold numeralValue
  rw [List.foldl_map]
  refine List.foldl_ext _ _ _ ?_
  intro acc d member
  rw [toDigit_hexDigit (digits d member) small]
  rfl

theorem readNumber_numeral {maxDigits most n : Nat} {allowZeroPrefix : Bool} {rest : List Char} (binary : 1 < radix)
    (small : radix ≤ 16) (room : 0 < maxDigits) (width : n < radix ^ maxDigits) (within : n ≤ most)
    (stop : ∀ c, rest.head? = some c → isDigitIn radix c = false) :
    readNumber radix maxDigits allowZeroPrefix most (numeral radix n ++ rest) = some (n, rest) := by
  obtain ⟨ds, same, digits, nonempty, value, short, leading⟩ := digits_numeral binary n
  rw [same]
  have taken : (ds.map hexDigit ++ rest).takeWhile (isDigitIn radix) = ds.map hexDigit := by
    refine takeWhile_append_of_stop ?_ stop
    intro c member
    obtain ⟨d, inside, rfl⟩ := List.mem_map.mp member
    rw [isDigitIn, toDigit_hexDigit (digits d inside) small]
    rfl
  have fits : ¬ (ds.map hexDigit = [] ∨ (ds.map hexDigit).length > maxDigits ∨
      (allowZeroPrefix = false ∧ (ds.map hexDigit).head? = some '0' ∧ (ds.map hexDigit).length > 1)) := by
    rw [List.length_map, List.map_eq_nil_iff]
    have bound := short maxDigits room width
    rintro (empty | long | ⟨-, zero, more⟩)
    · exact nonempty empty
    · omega
    · have first : ds.head? = some 0 := by
        cases ds with
        | nil => exact absurd rfl nonempty
        | cons d rest =>
          have zero : hexDigit d = hexDigit 0 := Option.some.inj zero
          have d16 : d < 16 := by
            have := digits d List.mem_cons_self
            omega
          rw [Text.hexDigit_inj d16 (by omega) zero]
          rfl
      have one := leading first
      omega
  unfold readNumber
  dsimp only
  rw [taken, if_neg fits, numeralValue_hexDigits digits small, value, if_neg (by omega)]
  simp

theorem numeralValue_snoc (radix : Nat) (cs : List Char) (c : Char) :
    numeralValue radix (cs ++ [c]) = numeralValue radix cs * radix + (toDigit radix c).getD 0 := by
  rw [numeralValue, List.foldl_append, List.foldl_cons, List.foldl_nil, numeralValue]

theorem numeralValue_append (radix : Nat) (front back : List Char) :
    numeralValue radix (front ++ back) = numeralValue radix front * radix ^ back.length + numeralValue radix back := by
  induction back using List.reverseRecOn with
  | nil => simp [numeralValue]
  | append_singleton back c ih =>
    rw [← List.append_assoc, numeralValue_snoc, ih, numeralValue_snoc, List.length_append, List.length_singleton,
      pow_succ]
    ring

theorem getD_toDigit_lt (positive : 0 < radix) (c : Char) : (toDigit radix c).getD 0 < radix := by
  cases digit : toDigit radix c with
  | none => exact positive
  | some d => exact of_decide_eq_true (Option.filter_eq_some_iff.mp digit).2

theorem numeralValue_lt (positive : 0 < radix) (cs : List Char) : numeralValue radix cs < radix ^ cs.length := by
  induction cs using List.reverseRecOn with
  | nil => exact Nat.one_pos
  | append_singleton cs c ih =>
    have last := getD_toDigit_lt positive c
    rw [numeralValue_snoc, List.length_append, List.length_singleton, pow_succ]
    calc numeralValue radix cs * radix + (toDigit radix c).getD 0
        < numeralValue radix cs * radix + radix := Nat.add_lt_add_left last _
      _ = (numeralValue radix cs + 1) * radix := (Nat.succ_mul _ _).symm
      _ ≤ radix ^ cs.length * radix := Nat.mul_le_mul_right radix ih

theorem withoutSign_cases (cs : List Char) : cs = withoutSign cs ∨ cs = '+' :: withoutSign cs := by
  unfold withoutSign
  split
  · exact .inr rfl
  · exact .inl rfl

theorem withoutSign_of_not_mem {cs : List Char} (unsigned : '+' ∉ cs) : withoutSign cs = cs := by
  obtain same | signed := withoutSign_cases cs
  · exact same.symm
  · rw [signed] at unsigned
    exact absurd List.mem_cons_self unsigned

theorem not_mem_digits {c : Char} {ds : List Char} (other : isDigitIn radix c = false)
    (digits : ds.all (isDigitIn radix) = true) : c ∉ ds := by
  intro inside
  rw [List.all_eq_true.mp digits c inside] at other
  cases other

theorem fromStrRadix_eq_some {bound n : Nat} {cs : List Char} : fromStrRadix radix bound cs = some n ↔
    withoutSign cs ≠ [] ∧ (withoutSign cs).all (isDigitIn radix) = true ∧ numeralValue radix (withoutSign cs) = n ∧
      n < bound := by
  rw [fromStrRadix, Option.ite_none_right_eq_some, Option.some.injEq]
  constructor
  · rintro ⟨⟨nonempty, digits, small⟩, rfl⟩
    exact ⟨nonempty, digits, rfl, small⟩
  · rintro ⟨nonempty, digits, rfl, small⟩
    exact ⟨⟨nonempty, digits, small⟩, rfl⟩

end Soshal.Library.Numerals
