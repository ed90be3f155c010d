import Soshal.Library.Text

/-! Byte positions in a text, and the cuts at them.

A text can be cut at the positions where a character begins or where it ends. From
any position the nearest of them below is found by walking back, at the latest at
the start.
-/

set_option autoImplicit false

namespace Soshal.Library.CharBoundaries

open Text

/-- The UTF-8 length of the characters. -/
def byteSize (cs : List Char) : Nat := (cs.map Char.utf8Size).sum

/-- What stands before the byte position and what from it on; inside of a character there is no cut. -/
def splitAtByte : List Char → Nat → Option (List Char × List Char)
  | cs, 0 => some ([], cs)
  | [], _ + 1 => none
  | c :: cs, n + 1 =>
    if c.utf8Size ≤ n + 1 then (splitAtByte cs (n + 1 - c.utf8Size)).map fun (front, back) => (c :: front, back)
    else none

def isCharBoundary (cs : List Char) (n : Nat) : Bool := (splitAtByte cs n).isSome

/-- Goes down from a position until it is a boundary. -/
def walkBack (cs : List Char) : Nat → Nat
  | 0 => 0
  | n + 1 => if isCharBoundary cs (n + 1) then n + 1 else walkBack cs n

@[simp] theorem byteSize_nil : byteSize [] = 0 := rfl

@[simp] theorem byteSize_cons (c : Char) (cs : List Char) : byteSize (c :: cs) = c.utf8Size + byteSize cs := by
  simp [byteSize]

@[simp] theorem byteSize_append (front back : List Char) :
    byteSize (front ++ back) = byteSize front + byteSize back := by
  simp [byteSize]

@[simp] theorem byteLen_ofList (cs : List Char) : byteLen (String.ofList cs) = byteSize cs := by
  induction cs with
  | nil => rfl
  | cons c cs ih => rw [byteLen_ofList_cons, ih, byteSize_cons]

theorem byteSize_toList (s : String) : byteSize s.toList = byteLen s := by
  rw [← byteLen_ofList, String.ofList_toList]

theorem byteSize_pos {cs : List Char} (nonempty : cs ≠ []) : 0 < byteSize cs := by
  cases cs with
  | nil => exact absurd rfl nonempty
  | cons c cs =>
    have wide := c.utf8Size_pos
    rw [byteSize_cons]
    omega

theorem length_le_byteSize (cs : List Char) : cs.length ≤ byteSize cs := by
  induction cs with
  | nil => exact Nat.le_refl _
  | cons c cs ih =>
    have wide := c.utf8Size_pos
    rw [byteSize_cons, List.length_cons]
    omega

theorem splitAtByte_eq_some {cs front back : List Char} {n : Nat} :
    splitAtByte cs n = some (front, back) ↔ front ++ back = cs ∧ byteSize front = n := by
  induction cs generalizing front n with
  | nil =>
    cases n with
    | zero =>
      simp only [splitAtByte, Option.some.injEq, Prod.mk.injEq, List.append_eq_nil_iff]
      constructor
      · rintro ⟨rfl, rfl⟩
        exact ⟨⟨rfl, rfl⟩, rfl⟩
      · rintro ⟨⟨rfl, rfl⟩, -⟩
        exact ⟨rfl, rfl⟩
    | succ n =>
      simp only [splitAtByte, reduceCtorEq, List.append_eq_nil_iff, false_iff]
      rintro ⟨⟨rfl, -⟩, long⟩
      simp at long
  | cons c cs ih =>
    have wide := c.utf8Size_pos
    cases n with
    | zero =>
      simp only [splitAtByte, Option.some.injEq, Prod.mk.injEq]
      constructor
      · rintro ⟨rfl, rfl⟩
        exact ⟨rfl, rfl⟩
      · rintro ⟨joined, empty⟩
        cases front with
        | nil => exact ⟨rfl, joined.symm⟩
        | cons d front =>
          have positive := byteSize_pos (List.cons_ne_nil d front)
          omega
    | succ n =>
      rw [splitAtByte]
      split
      · rename_i fits
        rw [Option.map_eq_some_iff]
        constructor
        · rintro ⟨⟨first, rest⟩, cut, same⟩
          cases same
          obtain ⟨rfl, size⟩ := ih.mp cut
          exact ⟨rfl, by rw [byteSize_cons]; omega⟩
        · rintro ⟨joined, size⟩
          cases front with
          | nil => simp at size
          | cons d front =>
            obtain ⟨rfl, rfl⟩ := List.cons.inj joined
            rw [byteSize_cons] at size
            exact ⟨(front, back), ih.mpr ⟨rfl, by omega⟩, rfl⟩
      · -- The position is inside of the first character, which the front would have to begin with.
        rename_i narrow
        simp only [reduceCtorEq, false_iff]
        rintro ⟨joined, size⟩
        cases front with
        | nil => simp at size
        | cons d front =>
          obtain ⟨rfl, -⟩ := List.cons.inj joined
          rw [byteSize_cons] at size
          omega

theorem isCharBoundary_iff {cs : List Char} {n : Nat} :
    isCharBoundary cs n = true ↔ ∃ front back, front ++ back = cs ∧ byteSize front = n := by
  rw [isCharBoundary, Option.isSome_iff_exists]
  constructor
  · rintro ⟨⟨front, back⟩, cut⟩
    exact ⟨front, back, splitAtByte_eq_some.mp cut⟩
  · rintro ⟨front, back, cut⟩
    exact ⟨(front, back), splitAtByte_eq_some.mpr cut⟩

theorem isCharBoundary_zero (cs : List Char) : isCharBoundary cs 0 = true :=
  isCharBoundary_iff.mpr ⟨[], cs, rfl, rfl⟩

theorem walkBack_le (cs : List Char) (n : Nat) : walkBack cs n ≤ n := by
  induction n with
  | zero => exact Nat.le_refl _
  | succ n ih =>
    unfold walkBack
    split
    · exact Nat.le_refl _
    · exact ih.trans (Nat.le_succ n)

theorem isCharBoundary_walkBack (cs : List Char) (n : Nat) : isCharBoundary cs (walkBack cs n) = true := by
  induction n with
  | zero => exact isCharBoundary_zero cs
  | succ n ih =>
    unfold walkBack
    split
    · rename_i boundary
      exact boundary
    · exact ih

theorem utf8_singleton (c : Char) : utf8 (String.singleton c) = String.utf8EncodeChar c := by
  simp [utf8, List.utf8Encode_singleton]

theorem isUTF8FirstByte_head {s : String} {b : UInt8} (first : (utf8 s).head? = some b) : b.IsUTF8FirstByte := by
  cases chars : s.toList with
  | nil =>
    have empty : s = "" := by simpa using chars
    subst empty
    cases first
  | cons c cs =>
    have whole : s = String.singleton c ++ String.ofList cs := by
      rw [← String.toList_inj]
      simp [chars]
    have lead : (String.utf8EncodeChar c)[0]? = some b := by
      have wide : 0 < (String.utf8EncodeChar c).length := by
        rw [String.length_utf8EncodeChar]
        exact c.utf8Size_pos
      rw [whole, utf8_append, utf8_singleton, List.head?_eq_getElem?, List.getElem?_append_left wide] at first
      exact first
    obtain ⟨inside, rfl⟩ := List.getElem?_eq_some_iff.mp lead
    exact UInt8.isUTF8FirstByte_getElem_zero_utf8EncodeChar

end Soshal.Library.CharBoundaries
