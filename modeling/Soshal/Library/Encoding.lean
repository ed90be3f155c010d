import Soshal.Library.Text
import Mathlib.Data.Fintype.Basic

/-! Base64 with the standard alphabet and canonical padding, and reading hexadecimal. -/

set_option autoImplicit false

namespace Soshal.Library.Encoding

def digit (n : Nat) : Char :=
  if n < 26 then Char.ofNat (65 + n)
  else if n < 52 then Char.ofNat (71 + n)
  else if n < 62 then Char.ofNat (n - 4)
  else if n = 62 then '+' else '/'

def sextet (c : Char) : Option Nat :=
  let n := c.toNat
  if 65 ≤ n ∧ n ≤ 90 then some (n - 65)
  else if 97 ≤ n ∧ n ≤ 122 then some (n - 71)
  else if 48 ≤ n ∧ n ≤ 57 then some (n + 4)
  else if c = '+' then some 62
  else if c = '/' then some 63
  else none

def base64Chars : List UInt8 → List Char
  | a :: b :: c :: rest =>
    digit (a.toNat / 4) :: digit (a.toNat % 4 * 16 + b.toNat / 16) ::
      digit (b.toNat % 16 * 4 + c.toNat / 64) :: digit (c.toNat % 64) :: base64Chars rest
  | [a, b] => [digit (a.toNat / 4), digit (a.toNat % 4 * 16 + b.toNat / 16), digit (b.toNat % 16 * 4), '=']
  | [a] => [digit (a.toNat / 4), digit (a.toNat % 4 * 16), '=', '=']
  | [] => []

def byte (n : Nat) : UInt8 := UInt8.ofNat n

/-- Padding stands in the last group only, and the bits it cuts off are zero. -/
def base64Bytes : List Char → Option (List UInt8)
  | [] => some []
  | [c₀, c₁, '=', '='] => do
    let v₀ ← sextet c₀
    let v₁ ← sextet c₁
    if v₁ % 16 = 0 then some [byte (v₀ * 4 + v₁ / 16)] else none
  | [c₀, c₁, c₂, '='] => do
    let v₀ ← sextet c₀
    let v₁ ← sextet c₁
    let v₂ ← sextet c₂
    if v₂ % 4 = 0 then some [byte (v₀ * 4 + v₁ / 16), byte (v₁ % 16 * 16 + v₂ / 4)] else none
  | c₀ :: c₁ :: c₂ :: c₃ :: rest => do
    let v₀ ← sextet c₀
    let v₁ ← sextet c₁
    let v₂ ← sextet c₂
    let v₃ ← sextet c₃
    let tail ← base64Bytes rest
    some (byte (v₀ * 4 + v₁ / 16) :: byte (v₁ % 16 * 16 + v₂ / 4) :: byte (v₂ % 4 * 64 + v₃) :: tail)
  | _ => none

def base64Encode (bytes : List UInt8) : String := String.ofList (base64Chars bytes)

def base64Decode (s : String) : Option (List UInt8) := base64Bytes s.toList

theorem sextet_digit {n : Nat} (small : n < 64) : sextet (digit n) = some n := by
  have all : ∀ n : Fin 64, sextet (digit n) = some n.val := by decide
  exact all ⟨n, small⟩

theorem digit_ne_pad {n : Nat} (small : n < 64) : digit n ≠ '=' := by
  intro same
  have pad : sextet (digit n) = none := by rw [same]; rfl
  rw [sextet_digit small] at pad
  cases pad

theorem byte_toNat {b : UInt8} {n : Nat} (same : n = b.toNat) : byte n = b := by
  rw [same, byte, UInt8.ofNat_toNat]

theorem base64Bytes_base64Chars (bytes : List UInt8) : base64Bytes (base64Chars bytes) = some bytes := by
  fun_induction base64Chars bytes with
  | case1 a b c rest ih =>
    have ha := a.toNat_lt
    have hb := b.toNat_lt
    have hc := c.toNat_lt
    have last := digit_ne_pad (n := c.toNat % 64) (by omega)
    rw [base64Bytes]
    · rw [sextet_digit (by omega), sextet_digit (by omega), sextet_digit (by omega), sextet_digit (by omega), ih]
      simp only [Option.bind_eq_bind, Option.bind_some, Option.some.injEq, List.cons.injEq, and_true]
      exact ⟨byte_toNat (by omega), byte_toNat (by omega), byte_toNat (by omega)⟩
    · intro _ pad _
      exact last pad
    · intro pad _
      exact last pad
  | case2 a b =>
    have ha := a.toNat_lt
    have hb := b.toNat_lt
    have third := digit_ne_pad (n := b.toNat % 16 * 4) (by omega)
    rw [base64Bytes]
    · rw [sextet_digit (by omega), sextet_digit (by omega), sextet_digit (by omega)]
      simp only [Option.bind_eq_bind, Option.bind_some]
      rw [if_pos (by omega)]
      simp only [Option.some.injEq, List.cons.injEq, and_true]
      exact ⟨byte_toNat (by omega), byte_toNat (by omega)⟩
    · exact third
  | case3 a =>
    have ha := a.toNat_lt
    rw [base64Bytes, sextet_digit (by omega), sextet_digit (by omega)]
    simp only [Option.bind_eq_bind, Option.bind_some]
    rw [if_pos (by omega)]
    simp only [Option.some.injEq, List.cons.injEq, and_true]
    exact byte_toNat (by omega)
  | case4 => rfl

@[simp] theorem base64Decode_base64Encode (bytes : List UInt8) : base64Decode (base64Encode bytes) = some bytes := by
  simp [base64Decode, base64Encode, base64Bytes_base64Chars]

theorem utf8Size_digit {n : Nat} (small : n < 64) : (digit n).utf8Size = 1 := by
  have all : ∀ n : Fin 64, (digit n).utf8Size = 1 := by decide
  exact all ⟨n, small⟩

theorem utf8Size_pad : '='.utf8Size = 1 := by decide

theorem byteLen_base64Encode (bytes : List UInt8) :
    Text.byteLen (base64Encode bytes) = (bytes.length + 2) / 3 * 4 := by
  rw [base64Encode]
  fun_induction base64Chars bytes with
  | case1 a b c rest ih =>
    have ha := a.toNat_lt
    have hb := b.toNat_lt
    have hc := c.toNat_lt
    simp only [Text.byteLen_ofList_cons, ih, List.length_cons]
    rw [utf8Size_digit (by omega), utf8Size_digit (by omega), utf8Size_digit (by omega), utf8Size_digit (by omega)]
    omega
  | case2 a b =>
    have ha := a.toNat_lt
    have hb := b.toNat_lt
    simp only [Text.byteLen_ofList_cons, utf8Size_pad, List.length_cons, List.length_nil]
    rw [utf8Size_digit (by omega), utf8Size_digit (by omega), utf8Size_digit (by omega)]
    rfl
  | case3 a =>
    have ha := a.toNat_lt
    simp only [Text.byteLen_ofList_cons, utf8Size_pad, List.length_cons, List.length_nil]
    rw [utf8Size_digit (by omega), utf8Size_digit (by omega)]
    rfl
  | case4 => rfl

def hexValue (c : Char) : Option Nat :=
  let n := c.toNat
  if 48 ≤ n ∧ n ≤ 57 then some (n - 48)
  else if 97 ≤ n ∧ n ≤ 102 then some (n - 87)
  else if 65 ≤ n ∧ n ≤ 70 then some (n - 55)
  else none

def hexBytes : List Char → Option (List UInt8)
  | [] => some []
  | high :: low :: rest => do
    let h ← hexValue high
    let l ← hexValue low
    let tail ← hexBytes rest
    some (byte (h * 16 + l) :: tail)
  | [_] => none

def hexDecode (s : String) : Option (List UInt8) := hexBytes s.toList

theorem hexValue_hexDigit {n : Nat} (small : n < 16) : hexValue (Text.hexDigit n) = some n := by
  have all : ∀ n : Fin 16, hexValue (Text.hexDigit n) = some n.val := by decide
  exact all ⟨n, small⟩

@[simp] theorem hexDecode_hexEncode (bytes : List UInt8) : hexDecode (Text.hexEncode bytes) = some bytes := by
  simp only [hexDecode, Text.hexEncode, String.toList_ofList]
  induction bytes with
  | nil => rfl
  | cons b rest ih =>
    have small := b.toNat_lt
    simp only [List.flatMap_cons, List.cons_append, List.nil_append, hexBytes, ih]
    rw [hexValue_hexDigit (by omega), hexValue_hexDigit (by omega)]
    simp only [Option.bind_eq_bind, Option.bind_some, Option.some.injEq, List.cons.injEq, and_true]
    exact byte_toNat (by omega)

theorem hexDigit_of_hexValue {c : Char} {n : Nat} (read : hexValue c = some n) :
    n < 16 ∧ Text.hexDigit n = c.toLower := by
  have all : ∀ k : Fin 103, ∀ m ∈ hexValue (Char.ofNat k), m < 16 ∧ Text.hexDigit m = (Char.ofNat k).toLower := by
    decide
  have small : c.toNat < 103 := by
    by_contra large
    unfold hexValue at read
    dsimp only at read
    rw [if_neg (by omega), if_neg (by omega), if_neg (by omega)] at read
    cases read
  have found := all ⟨c.toNat, small⟩
  rw [Char.ofNat_toNat] at found
  exact found n read

theorem hexEncode_of_hexDecode {s : String} {bytes : List UInt8} (read : hexDecode s = some bytes) :
    Text.hexEncode bytes = Text.toAsciiLowercase s := by
  rw [Text.hexEncode, Text.toAsciiLowercase]
  congr 1
  unfold hexDecode at read
  generalize s.toList = cs at read
  fun_induction hexBytes cs generalizing bytes with
  | case1 =>
    cases read
    rfl
  | case2 high low rest ih =>
    simp only [Option.bind_eq_bind, Option.bind_eq_some_iff] at read
    obtain ⟨h, first, l, second, tail, later, built⟩ := read
    cases built
    obtain ⟨hSmall, hDigit⟩ := hexDigit_of_hexValue first
    obtain ⟨lSmall, lDigit⟩ := hexDigit_of_hexValue second
    have value : (byte (h * 16 + l)).toNat = h * 16 + l := by
      rw [byte, UInt8.toNat_ofNat']
      omega
    rw [List.flatMap_cons, ih later, value, List.map_cons, List.map_cons]
    rw [show (h * 16 + l) / 16 = h by omega, show (h * 16 + l) % 16 = l by omega, hDigit, lDigit]
    rfl
  | case3 => cases read

end Soshal.Library.Encoding
