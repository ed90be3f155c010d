import Soshal.Library.Encoding

/-! Lines of separated fields: cutting at a separator, and the numbers in the fields.

A cut is determined by its separator being the first, or by its separator being
the last; reading a number accepts more spellings than writing one produces.
-/

set_option autoImplicit false

namespace Soshal.Library.Fields

open Text (stripPrefix)

def cut (sep : Char) : List Char → Option (List Char × List Char)
  | [] => none
  | c :: rest => if c = sep then some ([], rest) else (cut sep rest).map fun (head, tail) => (c :: head, tail)

/-- `str::split_once`. -/
def splitOnce (s : String) (sep : Char) : Option (String × String) :=
  (cut sep s.toList).map fun (head, tail) => (String.ofList head, String.ofList tail)

theorem cut_eq_some {sep : Char} {cs head tail : List Char} :
    cut sep cs = some (head, tail) ↔ cs = head ++ sep :: tail ∧ sep ∉ head := by
  induction cs generalizing head with
  | nil => simp [cut]
  | cons c rest ih =>
    unfold cut
    split
    · rename_i same
      subst same
      constructor
      · intro found
        cases found
        exact ⟨rfl, List.not_mem_nil⟩
      · rintro ⟨whole, outside⟩
        cases head with
        | nil =>
          cases whole
          rfl
        | cons first head =>
          cases whole
          exact absurd (List.mem_cons_self ..) outside
    · rename_i other
      simp only [Option.map_eq_some_iff, Prod.mk.injEq, Prod.exists, ↓existsAndEq, and_true]
      constructor
      · rintro ⟨before, found, rfl⟩
        obtain ⟨rfl, outside⟩ := ih.mp found
        exact ⟨rfl, by simpa [Ne.symm other] using outside⟩
      · rintro ⟨whole, outside⟩
        cases head with
        | nil =>
          cases whole
          exact absurd rfl other
        | cons first head =>
          cases whole
          exact ⟨head, ih.mpr ⟨rfl, fun inside => outside (List.mem_cons_of_mem _ inside)⟩, rfl⟩

theorem splitOnce_eq_some {s head tail : String} {sep : Char} :
    splitOnce s sep = some (head, tail) ↔ s = head ++ String.singleton sep ++ tail ∧ sep ∉ head.toList := by
  have lists : s = head ++ String.singleton sep ++ tail ↔ s.toList = head.toList ++ sep :: tail.toList := by
    rw [← String.toList_inj]
    simp
  rw [lists, ← cut_eq_some, splitOnce]
  constructor
  · intro found
    obtain ⟨⟨before, after⟩, cutAt, same⟩ := Option.map_eq_some_iff.mp found
    cases same
    simpa using cutAt
  · intro found
    simp [found]

theorem first_cut_unique {sep : Char} {a a' b b' : List Char} (plain : sep ∉ a) (plain' : sep ∉ a')
    (same : a ++ sep :: b = a' ++ sep :: b') : a = a' ∧ b = b' := by
  have first : cut sep (a ++ sep :: b) = some (a, b) := cut_eq_some.mpr ⟨rfl, plain⟩
  have second : cut sep (a' ++ sep :: b') = some (a', b') := cut_eq_some.mpr ⟨rfl, plain'⟩
  rw [same, second] at first
  cases first
  exact ⟨rfl, rfl⟩

theorem last_cut_unique {sep : Char} {a a' b b' : List Char} (plain : sep ∉ b) (plain' : sep ∉ b')
    (same : a ++ sep :: b = a' ++ sep :: b') : a = a' ∧ b = b' := by
  have reversed := congrArg List.reverse same
  simp only [List.reverse_append, List.reverse_cons, List.append_assoc, List.singleton_append] at reversed
  obtain ⟨after, before⟩ := first_cut_unique (fun inside => plain (List.mem_reverse.mp inside))
    (fun inside => plain' (List.mem_reverse.mp inside)) reversed
  exact ⟨List.reverse_inj.mp before, List.reverse_inj.mp after⟩

theorem exists_last_cut {sep : Char} {cs : List Char} (inside : sep ∈ cs) : ∃ a b, cs = a ++ sep :: b ∧ sep ∉ b := by
  obtain ⟨after, before, reversed, plain⟩ := List.eq_append_cons_of_mem (List.mem_reverse.mpr inside)
  refine ⟨before.reverse, after.reverse, ?_, fun late => plain (List.mem_reverse.mp late)⟩
  rw [← List.reverse_inj, reversed]
  simp

/-- `str::parse` at an unsigned type with `bound` values: a sign and leading zeros are read too. -/
def parseUnsigned (bound : Nat) (s : String) : Option Nat :=
  let digits := (stripPrefix s "+").getD s
  if digits ≠ "" ∧ digits.toList.all Char.isDigit then
    let n := Nat.ofDigitChars 10 digits.toList 0
    if n < bound then some n else none
  else none

theorem isDigit_of_mem_toString {n : Nat} {c : Char} (member : c ∈ (toString n).toList) : c.isDigit = true := by
  rw [Nat.toString_eq_ofList_toDigits, String.toList_ofList] at member
  exact Nat.isDigit_of_mem_toDigits (by decide) (by decide) member

theorem toString_ne_empty (n : Nat) : toString n ≠ "" := by
  intro empty
  have digits := congrArg String.toList empty
  rw [Nat.toString_eq_ofList_toDigits, String.toList_ofList] at digits
  exact Nat.toDigits_ne_nil digits

theorem parseUnsigned_toString {n bound : Nat} (small : n < bound) : parseUnsigned bound (toString n) = some n := by
  have unsigned : stripPrefix (toString n) "+" = none := by
    refine Text.stripPrefix_eq_none (Bool.eq_false_iff.mpr fun signed => ?_)
    obtain ⟨rest, whole⟩ := Text.startsWith_iff.mp signed
    have sign : '+' ∈ (toString n).toList := by rw [whole]; simp
    cases isDigit_of_mem_toString sign
  have digits : (toString n).toList.all Char.isDigit = true :=
    List.all_eq_true.mpr fun c member => isDigit_of_mem_toString member
  have value : Nat.ofDigitChars 10 (toString n).toList 0 = n := by
    rw [Nat.toString_eq_ofList_toDigits, String.toList_ofList, Nat.ofDigitChars_ten_toDigits]
  simp only [parseUnsigned, unsigned, Option.getD_none]
  rw [if_pos ⟨toString_ne_empty n, digits⟩, value, if_pos small]

theorem utf8Size_of_isDigit {c : Char} (digit : c.isDigit = true) : c.utf8Size = 1 := by
  have small : c.val ≤ '9'.val := (Bool.and_eq_true_iff.mp digit).2 |> of_decide_eq_true
  have ascii : c.val ≤ 0x7f := UInt32.le_trans small (by decide)
  exact if_pos ascii

theorem byteLen_toString (n : Nat) : Text.byteLen (toString n) = (Nat.toDigits 10 n).length := by
  have digits : ∀ c ∈ Nat.toDigits 10 n, c.isDigit = true :=
    fun c => Nat.isDigit_of_mem_toDigits (by decide) (by decide)
  rw [Nat.toString_eq_ofList_toDigits]
  generalize Nat.toDigits 10 n = cs at digits
  induction cs with
  | nil => rfl
  | cons c cs ih =>
    rw [Text.byteLen_ofList_cons, utf8Size_of_isDigit (digits c List.mem_cons_self),
      ih fun d member => digits d (List.mem_cons_of_mem _ member), List.length_cons, Nat.add_comm]

theorem byteLen_toString_le {n k : Nat} (positive : 0 < k) (small : n < 10 ^ k) : Text.byteLen (toString n) ≤ k := by
  rw [byteLen_toString, Nat.length_toDigits_le_iff (by decide) positive]
  exact small

end Soshal.Library.Fields
