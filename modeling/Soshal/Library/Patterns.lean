import Mathlib.Data.List.Infix

/-! Regular expressions without captures, and searching a text for them.

`rests` lists what may be left of a text after an expression has matched its
front. A pattern may be tied to the start or to the end of the text. Literals are
compared after folding each character, so that a pattern may ignore case.
-/

set_option autoImplicit false

namespace Soshal.Library

inductive Regex where
  | empty
  | one (p : Char → Bool)
  | many (p : Char → Bool) (least : Nat) (most : Option Nat)
  | seq (first second : Regex)
  | alt (left right : Regex)

namespace Regex

def rests : Regex → List Char → List (List Char)
  | .empty, text => [text]
  | .one _, [] => []
  | .one p, c :: rest => if p c then [rest] else []
  | .many p least most, text =>
    ((List.range ((text.takeWhile p).length + 1)).filter fun n => decide (least ≤ n) && most.all (decide <| n ≤ ·)).map
      text.drop
  | .seq first second, text => (first.rests text).flatMap second.rests
  | .alt left right, text => left.rests text ++ right.rests text

def literal (fold : Char → Char) : List Char → Regex
  | [] => .empty
  | c :: rest => .seq (.one fun d => fold d == c) (literal fold rest)

theorem mem_rests_seq {first second : Regex} {text rest : List Char} :
    rest ∈ (seq first second).rests text ↔ ∃ middle ∈ first.rests text, rest ∈ second.rests middle := List.mem_flatMap

theorem mem_rests_many {p : Char → Bool} {least : Nat} {most : Option Nat} {front rest : List Char}
    (all : ∀ c ∈ front, p c = true) (enough : least ≤ front.length) (few : ∀ n ∈ most, front.length ≤ n) :
    rest ∈ (many p least most).rests (front ++ rest) := by
  refine List.mem_map.mpr ⟨front.length, List.mem_filter.mpr ⟨?_, ?_⟩, List.drop_left⟩
  · rw [List.mem_range, List.takeWhile_append_of_pos all, List.length_append]
    omega
  · rw [Bool.and_eq_true, decide_eq_true_eq, Option.all_eq_true]
    exact ⟨enough, fun n member => decide_eq_true (few n member)⟩

theorem mem_rests_literal {fold : Char → Char} {cs text rest : List Char} :
    rest ∈ (literal fold cs).rests text ↔ ∃ front, text = front ++ rest ∧ front.map fold = cs := by
  induction cs generalizing text with
  | nil =>
    simp only [literal, rests, List.mem_singleton, List.map_eq_nil_iff]
    constructor
    · rintro rfl
      exact ⟨[], rfl, rfl⟩
    · rintro ⟨front, rfl, rfl⟩
      rfl
  | cons c cs ih =>
    rw [literal, mem_rests_seq]
    cases text with
    | nil =>
      simp only [rests, List.not_mem_nil, false_and, exists_false, false_iff]
      rintro ⟨front, split, folded⟩
      obtain ⟨rfl, -⟩ := List.append_eq_nil_iff.mp split.symm
      cases folded
    | cons d text =>
      constructor
      · rintro ⟨middle, first, later⟩
        obtain ⟨front, rfl, folded⟩ := ih.mp later
        by_cases same : fold d = c
        · simp only [rests, same, beq_self_eq_true, if_true, List.mem_singleton] at first
          subst first
          exact ⟨d :: front, rfl, by rw [List.map_cons, same, folded]⟩
        · simp [rests, same] at first
      · rintro ⟨front, split, folded⟩
        cases front with
        | nil => cases folded
        | cons e front =>
          obtain ⟨rfl, rfl⟩ := List.cons.inj split
          obtain ⟨same, folded⟩ := List.cons.inj folded
          refine ⟨front ++ rest, ?_, ih.mpr ⟨front, rfl, folded⟩⟩
          simp [rests, same]

end Regex

structure Pattern where
  atStart : Bool
  body : Regex
  atEnd : Bool

namespace Pattern

def isMatch (pattern : Pattern) (text : List Char) : Bool :=
  (if pattern.atStart then [text] else text.tails).any fun suffix =>
    (pattern.body.rests suffix).any fun rest => !pattern.atEnd || rest.isEmpty

/-- A literal anywhere in the text, at its start, at its end, or all of it. -/
def literal (fold : Char → Char) (atStart : Bool) (s : String) (atEnd : Bool) : Pattern :=
  ⟨atStart, .literal fold s.toList, atEnd⟩

variable {fold : Char → Char} {s : String} {text : List Char}

theorem isMatch_anywhere : (literal fold false s false).isMatch text = true ↔ s.toList <:+: text.map fold := by
  simp only [isMatch, literal, Bool.false_eq_true, if_false, List.any_eq_true, List.mem_tails, Bool.not_false,
    Bool.true_or, and_true]
  constructor
  · rintro ⟨suffix, ⟨before, rfl⟩, rest, found⟩
    obtain ⟨front, rfl, folded⟩ := Regex.mem_rests_literal.mp found
    exact ⟨before.map fold, rest.map fold, by simp [folded]⟩
  · rintro ⟨before, after, same⟩
    obtain ⟨front, rest, rfl, folded, -⟩ := List.map_eq_append_iff.mp same.symm
    obtain ⟨before', front, rfl, -, folded⟩ := List.map_eq_append_iff.mp folded
    rw [List.append_assoc]
    exact ⟨front ++ rest, List.suffix_append .., rest, Regex.mem_rests_literal.mpr ⟨front, rfl, folded⟩⟩

theorem isMatch_atEnd : (literal fold false s true).isMatch text = true ↔ s.toList <:+ text.map fold := by
  simp only [isMatch, literal, Bool.false_eq_true, if_false, List.any_eq_true, List.mem_tails, Bool.not_true,
    Bool.false_or, List.isEmpty_iff]
  constructor
  · rintro ⟨suffix, ⟨before, rfl⟩, rest, found, rfl⟩
    obtain ⟨front, rfl, folded⟩ := Regex.mem_rests_literal.mp found
    exact ⟨before.map fold, by simp [folded]⟩
  · rintro ⟨before, same⟩
    obtain ⟨before', front, rfl, -, folded⟩ := List.map_eq_append_iff.mp same.symm
    exact ⟨front, List.suffix_append .., [], Regex.mem_rests_literal.mpr ⟨front, (List.append_nil _).symm, folded⟩, rfl⟩

theorem isMatch_whole : (literal fold true s true).isMatch text = true ↔ text.map fold = s.toList := by
  simp only [isMatch, literal, if_true, List.any_eq_true, List.mem_singleton, exists_eq_left, Bool.not_true,
    Bool.false_or, List.isEmpty_iff]
  constructor
  · rintro ⟨rest, found, rfl⟩
    obtain ⟨front, rfl, folded⟩ := Regex.mem_rests_literal.mp found
    rw [List.append_nil, folded]
  · intro folded
    exact ⟨[], Regex.mem_rests_literal.mpr ⟨text, (List.append_nil _).symm, folded⟩, rfl⟩

end Pattern

end Soshal.Library
