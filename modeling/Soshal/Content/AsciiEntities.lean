import Soshal.Content.Entities

/-! Numeric references to ASCII characters, decoded for the detection of schemes.

A reference is read as a browser reads it, to the end of its digits and with or without
its semicolon. Only so many digits are kept, and what is not decoded is written anew.
-/

set_option autoImplicit false

namespace Soshal.Content.Entities

open Library
open Library.Numerals (fromStrRadix fromStrRadix_eq_some isDigitIn not_mem_digits numeralValue withoutSign_of_not_mem)
open Library.Scanner (scan scan_cons)

inductive Base where
  | decimal
  | hexLower
  | hexUpper
  deriving DecidableEq

def Base.radix : Base → Nat
  | .decimal => 10
  | _ => 16

def Base.letter : Base → List Char
  | .decimal => []
  | .hexLower => ['x']
  | .hexUpper => ['X']

/-- What stands behind an ampersand and a number sign: all digits there are, and whether a semicolon ends them. -/
structure Reference where
  base : Base
  digits : List Char
  closed : Bool
  allDigits : digits.all (isDigitIn base.radix) = true

variable (r : Reference)

namespace Reference

def text : List Char :=
  '&' :: '#' :: (r.base.letter ++ (r.digits ++ if r.closed then [';'] else []))

def bufLen : Nat := 16

def numStr : List Char := r.digits.take bufLen

def decoded : Option Char :=
  (fromStrRadix r.base.radix (2 ^ 32) r.numStr).bind fun val =>
    if 0 < val ∧ val < 128 then some (Char.ofNat val) else none

def isHex : Bool := r.base != .decimal

/-- What is written for a reference: its character, or the reference in a normal form. -/
def written : List Char :=
  match r.decoded with
  | some decodedChar => [decodedChar.toLower]
  | none => '&' :: '#' :: ((if r.isHex then ['x'] else []) ++ (r.numStr ++ if r.digits ≠ [] then [';'] else []))

end Reference

def readBase : List Char → Base
  | 'x' :: _ => .hexLower
  | 'X' :: _ => .hexUpper
  | _ => .decimal

def readReference (rest : List Char) : Reference where
  base := readBase rest
  digits := (rest.drop (readBase rest).letter.length).takeWhile (isDigitIn (readBase rest).radix)
  closed :=
    let digits := (rest.drop (readBase rest).letter.length).takeWhile (isDigitIn (readBase rest).radix)
    decide (digits ≠ []) && ((rest.drop (readBase rest).letter.length).drop digits.length).head? == some ';'
  allDigits := List.all_takeWhile

inductive Piece where
  | char (c : Char)
  | reference (r : Reference)

def Piece.text : Piece → List Char
  | .char c => [c]
  | .reference r => r.text

def Piece.written : Piece → List Char
  | .char c => [c]
  | .reference r => r.written

def asciiStep (c : Char) (rest : List Char) : List Piece × Nat :=
  if c = '&' ∧ rest.head? = some '#' then
    let r := readReference rest.tail
    ([.reference r], r.text.length - 1)
  else ([.char c], 0)

def asciiPieces (s : String) : List Piece := scan asciiStep s.toList

def decodeAsciiEntities (s : String) : String :=
  if '&' ∈ s.toList then String.ofList ((asciiPieces s).flatMap Piece.written) else s

def Reference.browserChar : Option Char :=
  let value := numeralValue r.base.radix r.digits
  if 0 < value ∧ value < 128 then some (Char.ofNat value) else none

/-- An ASCII character is decoded, in lower case. Anything else is copied at most. -/
def Piece.Right : Piece → Prop
  | .char c => (Piece.char c).written = [c]
  | .reference r =>
    match r.browserChar with
    | some c => r.written = [c.toLower]
    | none => r.written.Sublist r.text

/-- The text is cut into characters and references, and what is written for each of them is right. -/
structure AsciiFaithful (s : String) : Prop where
  cut : (asciiPieces s).flatMap Piece.text = s.toList
  joined : (decodeAsciiEntities s).toList = (asciiPieces s).flatMap Piece.written
  right : ∀ p ∈ asciiPieces s, p.Right

/-- A reference to an ASCII character has digits that are all kept. Another one has a semicolon when it has digits, and
no capital letter; or else the digits that are kept denote a character that stands in it. -/
def Reference.Readable : Prop :=
  match r.browserChar with
  | some _ => r.digits.length ≤ bufLen
  | none =>
    let kept := numeralValue r.base.radix r.numStr
    if 0 < kept ∧ kept < 128 then (Char.ofNat kept).toLower ∈ r.text
    else (r.digits = [] ∨ r.closed = true) ∧ r.base ≠ .hexUpper

namespace Reference

variable {r : Reference}

theorem all_numStr : r.numStr.all (isDigitIn r.base.radix) = true :=
  List.all_eq_true.mpr fun c inside => List.all_eq_true.mp r.allDigits c (List.mem_of_mem_take inside)

theorem decoded_eq : r.decoded =
      if 0 < numeralValue r.base.radix r.numStr ∧ numeralValue r.base.radix r.numStr < 128 then
        some (Char.ofNat (numeralValue r.base.radix r.numStr))
      else none := by
  have unsigned : Numerals.withoutSign r.numStr = r.numStr :=
    withoutSign_of_not_mem (not_mem_digits rfl r.all_numStr)
  unfold decoded fromStrRadix
  dsimp only
  rw [unsigned]
  by_cases read : r.numStr ≠ [] ∧ r.numStr.all (isDigitIn r.base.radix) = true ∧
    numeralValue r.base.radix r.numStr < 2 ^ 32
  · rw [if_pos read, Option.bind_some]
  · rw [if_neg read, Option.bind_none, if_neg]
    rintro ⟨positive, small⟩
    refine read ⟨?_, r.all_numStr, by omega⟩
    intro empty
    rw [empty] at positive
    exact Nat.lt_irrefl 0 positive

theorem not_mem_digits_of (c : Char) (other : ∀ base : Base, isDigitIn base.radix c = false) (r : Reference) :
    c ∉ r.digits :=
  not_mem_digits (other r.base) r.allDigits

theorem mem_text {c : Char} :
    c ∈ r.text ↔ c = '&' ∨ c = '#' ∨ c ∈ r.base.letter ∨ c ∈ r.digits ∨ (r.closed = true ∧ c = ';') := by
  rw [text, List.mem_cons, List.mem_cons, List.mem_append, List.mem_append]
  cases r.closed <;> simp

theorem anew_sublist :
    ('&' :: '#' :: ((if r.isHex then ['x'] else []) ++ (r.numStr ++ if r.digits ≠ [] then [';'] else []))).Sublist r.text ↔
      (r.digits = [] ∨ r.closed = true) ∧ r.base ≠ .hexUpper := by
  constructor
  · intro part
    refine ⟨?_, ?_⟩
    · -- A semicolon that is written has to stand in the text.
      by_contra missing
      obtain ⟨nonempty, unclosed⟩ := not_or.mp missing
      have added : ';' ∈ r.text := part.subset (by simp [nonempty])
      obtain same | same | letter | digit | ⟨closed, -⟩ := mem_text.mp added
      · cases same
      · cases same
      · cases base : r.base <;> simp [base, Base.letter] at letter
      · exact not_mem_digits_of ';' (fun base => by cases base <;> rfl) r digit
      · exact unclosed closed
    · -- The letter is written in lower case, whichever it was.
      intro upper
      have added : 'x' ∈ r.text := part.subset (by simp [isHex, upper])
      obtain same | same | letter | digit | ⟨-, same⟩ := mem_text.mp added
      · cases same
      · cases same
      · rw [upper] at letter
        simp [Base.letter] at letter
      · exact not_mem_digits_of 'x' (fun base => by cases base <;> rfl) r digit
      · cases same
  · rintro ⟨ended, lower⟩
    refine ((List.Sublist.append ?_ (List.Sublist.append (List.take_sublist _ _) ?_)).cons_cons _).cons_cons _
    · rw [isHex]
      cases base : r.base with
      | decimal => exact List.Sublist.refl _
      | hexLower => exact List.Sublist.refl _
      | hexUpper => exact absurd base lower
    · split
      · rename_i nonempty
        rw [if_pos (ended.resolve_left nonempty)]
      · exact List.nil_sublist _

theorem kept_small (long : bufLen < r.digits.length) :
    numeralValue r.base.radix r.numStr * 10 ≤ numeralValue r.base.radix r.digits := by
  have whole := Numerals.numeralValue_append r.base.radix r.numStr (r.digits.drop bufLen)
  rw [numStr, List.take_append_drop] at whole
  have dropped : (r.digits.drop bufLen).length ≠ 0 := by
    rw [List.length_drop]
    omega
  have ten : 10 ≤ r.base.radix := by cases r.base <;> decide
  have power : 10 ≤ r.base.radix ^ (r.digits.drop bufLen).length := ten.trans (Nat.le_self_pow dropped _)
  rw [numStr, whole]
  exact (Nat.mul_le_mul_left _ power).trans (Nat.le_add_right _ _)

theorem toLower_ne {small large : Nat} (positive : 0 < small) (tenfold : small * 10 ≤ large) (ascii : large < 128) :
    (Char.ofNat small).toLower ≠ (Char.ofNat large).toLower := by
  have all : ∀ small : Fin 13, ∀ large : Fin 128, 0 < small.val → small.val * 10 ≤ large.val →
      (Char.ofNat small).toLower ≠ (Char.ofNat large).toLower := by decide
  exact all ⟨small, by omega⟩ ⟨large, ascii⟩ positive tenfold

theorem right_iff : (Piece.reference r).Right ↔ r.Readable := by
  unfold Piece.Right Readable browserChar
  dsimp only
  by_cases ascii : 0 < numeralValue r.base.radix r.digits ∧ numeralValue r.base.radix r.digits < 128
  · rw [if_pos ascii]
    dsimp only
    rw [written, decoded_eq]
    constructor
    · intro same
      by_contra long
      -- The digits that were kept denote at most a tenth of what the browser reads.
      have small := kept_small (Nat.not_le.mp long)
      split at same
      · rename_i character found
        obtain ⟨⟨positive, -⟩, made⟩ := Option.ite_none_right_eq_some.mp found
        cases made
        exact toLower_ne positive small ascii.2 (List.cons.inj same).1
      · simp at same
    · intro short
      have all : r.numStr = r.digits := List.take_of_length_le short
      rw [all, if_pos ascii]
  · rw [if_neg ascii]
    dsimp only
    rw [written, decoded_eq]
    by_cases kept : 0 < numeralValue r.base.radix r.numStr ∧ numeralValue r.base.radix r.numStr < 128
    · rw [if_pos kept, if_pos kept]
      exact List.singleton_sublist
    · rw [if_neg kept, if_neg kept]
      exact anew_sublist

end Reference

theorem letter_append (rest : List Char) :
    (readBase rest).letter ++ rest.drop (readBase rest).letter.length = rest := by
  unfold readBase
  split <;> rfl

theorem readReference_text (rest : List Char) : ∃ left, '&' :: '#' :: rest = (readReference rest).text ++ left := by
  have front : (readReference rest).base.letter ++ rest.drop (readReference rest).base.letter.length = rest :=
    letter_append rest
  have digits : (readReference rest).digits ++
      (rest.drop (readReference rest).base.letter.length).drop (readReference rest).digits.length =
        rest.drop (readReference rest).base.letter.length :=
    List.prefix_iff_eq_append.mp (List.takeWhile_prefix _)
  have closed : (readReference rest).closed = true →
      ((rest.drop (readReference rest).base.letter.length).drop (readReference rest).digits.length).head? = some ';' :=
    fun closed => eq_of_beq (Bool.and_elim_right closed)
  generalize readReference rest = r at front digits closed ⊢
  rw [Reference.text]
  by_cases ended : r.closed = true
  · rw [List.eq_cons_of_mem_head? (closed ended)] at digits
    rw [if_pos ended, ← front, ← digits]
    exact ⟨((rest.drop r.base.letter.length).drop r.digits.length).tail, by simp⟩
  · rw [if_neg ended, ← front, ← digits]
    exact ⟨(rest.drop r.base.letter.length).drop r.digits.length, by simp⟩

theorem length_text_pos : 0 < r.text.length := by
  rw [Reference.text, List.length_cons]
  omega

inductive Reads : List Char → List Piece → Prop where
  | nil : Reads [] []
  | char {c : Char} {rest : List Char} {pieces : List Piece} (plain : ¬ (c = '&' ∧ rest.head? = some '#'))
      (later : Reads rest pieces) : Reads (c :: rest) (.char c :: pieces)
  | reference {rest left : List Char} {pieces : List Piece} (cut : '&' :: '#' :: rest = (readReference rest).text ++ left)
      (later : Reads left pieces) : Reads ('&' :: '#' :: rest) (.reference (readReference rest) :: pieces)

theorem reads_scan (cs : List Char) : Reads cs (scan asciiStep cs) := by
  induction size : cs.length using Nat.strong_induction_on generalizing cs with
  | _ n ih =>
    obtain _ | ⟨c, rest⟩ := cs
    · exact .nil
    · rw [scan_cons, asciiStep]
      by_cases starts : c = '&' ∧ rest.head? = some '#'
      · rw [if_pos starts]
        obtain ⟨rfl, hash⟩ := starts
        obtain ⟨after, rfl⟩ : ∃ after, rest = '#' :: after := ⟨rest.tail, List.eq_cons_of_mem_head? hash⟩
        obtain ⟨left, cut⟩ := readReference_text after
        -- The scan drops what the step took, except for the ampersand it has dropped itself.
        have dropped : ('#' :: after).drop ((readReference after).text.length - 1) = left := by
          have tail := congrArg List.tail cut
          rw [List.tail_cons, Reference.text, List.cons_append, List.tail_cons] at tail
          rw [tail]
          exact List.drop_left
        dsimp only [List.tail_cons]
        rw [dropped]
        refine .reference cut (ih left.length ?_ left rfl)
        have length := congrArg List.length cut
        have positive := length_text_pos (readReference after)
        rw [List.length_append, size] at length
        omega
      · rw [if_neg starts]
        exact .char starts (ih rest.length (by rw [← size, List.length_cons]; omega) rest rfl)

theorem text_of_reads {cs : List Char} {pieces : List Piece} (reads : Reads cs pieces) :
    pieces.flatMap Piece.text = cs := by
  induction reads with
  | nil => rfl
  | char _ _ ih => rw [List.flatMap_cons, ih]; rfl
  | reference cut _ ih => rw [List.flatMap_cons, ih, cut]; rfl

theorem ampersand_not_mem_tail : '&' ∉ r.text.tail := by
  rw [Reference.text, List.tail_cons]
  intro inside
  simp only [List.mem_cons, List.mem_append] at inside
  obtain same | letter | digit | semicolon := inside
  · cases same
  · cases base : r.base <;> simp [base, Base.letter] at letter
  · exact Reference.not_mem_digits_of '&' (fun base => by cases base <;> rfl) r digit
  · split at semicolon
    · simp at semicolon
    · cases semicolon

/-- Every ampersand with a number sign behind it starts a reference, since none has another one in it. -/
theorem reference_mem_iff {cs : List Char} {pieces : List Piece} (reads : Reads cs pieces) (r : Reference) :
    .reference r ∈ pieces ↔ ∃ before rest, cs = before ++ '&' :: '#' :: rest ∧ readReference rest = r := by
  induction reads with
  | nil => simp
  | char plain _ ih =>
    rw [List.mem_cons, or_iff_right (fun same => by cases same), ih]
    constructor
    · rintro ⟨before, rest, rfl, same⟩
      exact ⟨_ :: before, rest, rfl, same⟩
    · rintro ⟨before, rest, whole, same⟩
      obtain _ | ⟨d, before⟩ := before
      · cases whole
        exact absurd ⟨rfl, rfl⟩ plain
      · exact ⟨before, rest, (List.cons.inj whole).2, same⟩
  | @reference after left pieces cut _ ih =>
    rw [List.mem_cons, ih]
    constructor
    · rintro (same | ⟨before, rest, rfl, same⟩)
      · cases same
        exact ⟨[], after, rfl, rfl⟩
      · exact ⟨(readReference after).text ++ before, rest, by rw [cut, List.append_assoc], same⟩
    · rintro ⟨before, rest, whole, same⟩
      obtain _ | ⟨d, before⟩ := before
      · cases whole
        exact .inl (by rw [same])
      · rw [cut] at whole
        right
        obtain ⟨middle, -, later⟩ | ⟨middle, covered, later⟩ := List.append_eq_append_iff.mp whole
        · exact ⟨middle, rest, later, same⟩
        · obtain _ | ⟨e, middle⟩ := middle
          · exact ⟨[], rest, later.symm, same⟩
          · -- The reference would have an ampersand behind its first one.
            have inner := ampersand_not_mem_tail (readReference after)
            rw [covered, List.cons_append, List.tail_cons, ← (List.cons.inj later).1] at inner
            exact absurd (by simp) inner

theorem AsciiFaithful.readable {s : String} (faithful : AsciiFaithful s) {before rest : List Char}
    (whole : s.toList = before ++ '&' :: '#' :: rest) : (readReference rest).Readable :=
  Reference.right_iff.mp (faithful.right _ ((reference_mem_iff (reads_scan s.toList) _).mpr ⟨before, rest, whole, rfl⟩))

/-- Both decoders do what is expected of them: the first where no ampersand or sign gets in its way, whatever the
reference takes for the longest entity from the window on, the second where it can read each reference in full. -/
theorem entities_iff {most : Nat} (wide : maxEntityLen ≤ most) (s : String) :
    (decodeHtmlEntities s = referenceDecode most s ↔ Apart most s.toList) ∧
      (AsciiFaithful s ↔ ∀ before rest, s.toList = before ++ '&' :: '#' :: rest → (readReference rest).Readable) := by
  refine ⟨decode_html_iff wide s, ?_⟩
  have reads := reads_scan s.toList
  constructor
  · exact fun faithful before rest whole => faithful.readable whole
  · intro readable
    refine ⟨text_of_reads reads, ?_, ?_⟩
    · unfold decodeAsciiEntities
      split
      · exact String.toList_ofList
      · rename_i absent
        rw [← text_of_reads reads]
        refine List.flatMap_congr fun p inside => ?_
        cases p with
        | char c => rfl
        | reference r =>
          obtain ⟨before, rest, whole, -⟩ := (reference_mem_iff reads r).mp inside
          exact absurd (by rw [whole]; simp) absent
    · intro p inside
      cases p with
      | char c => rfl
      | reference r =>
        obtain ⟨before, rest, whole, rfl⟩ := (reference_mem_iff reads r).mp inside
        exact Reference.right_iff.mpr (readable before rest whole)

theorem entities_numeric : Apart maxEntityLen "&#74;".toList ∧ AsciiFaithful "&#74;" := by
  obtain ⟨html, ascii⟩ := entities_iff (le_refl maxEntityLen) "&#74;"
  refine ⟨html.mp (by decide), ascii.mpr ?_⟩
  intro before rest whole
  obtain _ | ⟨c, before⟩ := before
  · cases whole
    exact (by decide : 2 ≤ Reference.bufLen)
  · have inside : '&' ∈ ['#', '7', '4', ';'] := by
      rw [show ['#', '7', '4', ';'] = before ++ '&' :: '#' :: rest from (List.cons.inj whole).2]
      simp
    exact absurd inside (by decide)

/-- An ampersand hides the entity behind it, and references are not decoded for their zeros, or closed and put into
lower case though they stay. -/
theorem entities_lost :
    decodeHtmlEntities "& &lt;" = "& &lt;" ∧ referenceDecode maxEntityLen "& &lt;" = "& <" ∧
      ¬ AsciiFaithful "&#00000000000000000106;" ∧
      decodeAsciiEntities "&#00000000000000000106;" = "&#0000000000000000;" ∧
      ¬ AsciiFaithful "&#X3e7" ∧ decodeAsciiEntities "&#X3e7" = "&#x3e7;" := by
  refine ⟨by decide, by decide, ?_, by decide, ?_, by decide⟩
  · intro faithful
    have short : 20 ≤ Reference.bufLen := @AsciiFaithful.readable _ faithful [] _ rfl
    exact absurd short (by decide)
  · intro faithful
    have lower : _ ∧ Base.hexUpper ≠ .hexUpper := @AsciiFaithful.readable _ faithful [] _ rfl
    exact lower.2 rfl

end Soshal.Content.Entities
