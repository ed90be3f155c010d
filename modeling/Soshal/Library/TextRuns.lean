import Mathlib.Data.List.Chain
import Mathlib.Data.List.Infix

/-! Lists cut into their maximal runs.

A predicate cuts a list into the runs of elements that have it and the single
elements between them. A list whose pieces are rewritten run by run has the
rewritten pieces, as long as no run vanishes or leaves the predicate.
-/

set_option autoImplicit false

namespace Soshal.Library.TextRuns

variable {α : Type}

inductive Piece (α : Type) where
  | run (word : List α)
  | other (a : α)
  deriving DecidableEq

def Piece.text : Piece α → List α
  | .run word => word
  | .other a => [a]

def Piece.run? : Piece α → Option (List α)
  | .run word => some word
  | .other _ => none

def Piece.mapRun (f : List α → List α) : Piece α → Piece α
  | .run word => .run (f word)
  | .other a => .other a

def text (pieces : List (Piece α)) : List α := pieces.flatMap Piece.text

@[simp] theorem text_nil : text ([] : List (Piece α)) = [] := rfl

@[simp] theorem text_cons (piece : Piece α) (rest : List (Piece α)) : text (piece :: rest) = piece.text ++ text rest := rfl

@[simp] theorem text_append (first second : List (Piece α)) : text (first ++ second) = text first ++ text second :=
  List.flatMap_append

def flush : List α → List (Piece α)
  | [] => []
  | a :: rest => [.run (a :: rest)]

variable (p : α → Bool)

/-- The pieces of a list behind a run that has begun. -/
def piecesFrom (word : List α) : List α → List (Piece α)
  | [] => flush word
  | a :: rest => if p a then piecesFrom (word ++ [a]) rest else flush word ++ .other a :: piecesFrom [] rest

def pieces (as : List α) : List (Piece α) := piecesFrom p [] as

def runs (as : List α) : List (List α) := (pieces p as).filterMap Piece.run?

def mapRuns (f : List α → List α) (as : List α) : List α := text ((pieces p as).map (Piece.mapRun f))

variable {p}

variable (p) in
/-- A run is not empty and has the predicate; what stands between two runs has not. -/
def Piece.Proper : Piece α → Prop
  | .run word => word ≠ [] ∧ ∀ a ∈ word, p a = true
  | .other a => p a = false

/-- Two runs next to each other would be one. -/
def Apart : Piece α → Piece α → Prop
  | .run _, .run _ => False
  | _, _ => True

variable (p) in
structure Maximal (pieces : List (Piece α)) : Prop where
  proper : ∀ piece ∈ pieces, piece.Proper p
  apart : pieces.IsChain Apart

theorem maximal_nil : Maximal p ([] : List (Piece α)) := ⟨nofun, .nil⟩

theorem Maximal.tail {piece : Piece α} {rest : List (Piece α)} (maximal : Maximal p (piece :: rest)) :
    Maximal p rest :=
  ⟨fun other member => maximal.proper other (List.mem_cons_of_mem _ member), maximal.apart.tail⟩

theorem Maximal.other {a : α} {rest : List (Piece α)} (outside : p a = false) (maximal : Maximal p rest) :
    Maximal p (.other a :: rest) := by
  refine ⟨fun piece member => ?_, ?_⟩
  · obtain rfl | later := List.mem_cons.mp member
    · exact outside
    · exact maximal.proper piece later
  · cases rest with
    | nil => exact .singleton _
    | cons next rest => exact .cons_cons trivial maximal.apart

theorem maximal_piecesFrom (word as : List α) (inside : ∀ a ∈ word, p a = true) :
    Maximal p (piecesFrom p word as) := by
  induction as generalizing word with
  | nil =>
    cases word with
    | nil => exact maximal_nil
    | cons b word =>
      refine ⟨fun piece member => ?_, .singleton _⟩
      obtain rfl := List.mem_singleton.mp member
      exact ⟨List.cons_ne_nil b word, inside⟩
  | cons a rest ih =>
    rw [piecesFrom]
    split_ifs with runs
    · refine ih (word ++ [a]) fun b member => ?_
      obtain earlier | last := List.mem_append.mp member
      · exact inside b earlier
      · rw [List.mem_singleton.mp last]
        exact runs
    · have later := (ih [] nofun).other (Bool.eq_false_iff.mpr runs)
      cases word with
      | nil => exact later
      | cons b word =>
        refine ⟨fun piece member => ?_, .cons_cons trivial later.apart⟩
        obtain rfl | other := List.mem_cons.mp member
        · exact ⟨List.cons_ne_nil b word, inside⟩
        · exact later.proper piece other

theorem maximal_pieces (as : List α) : Maximal p (pieces p as) := maximal_piecesFrom [] as nofun

theorem piecesFrom_append_of_all {word front : List α} (inside : ∀ a ∈ front, p a = true) (rest : List α) :
    piecesFrom p word (front ++ rest) = piecesFrom p (word ++ front) rest := by
  induction front generalizing word with
  | nil => simp
  | cons a front ih =>
    rw [List.cons_append, piecesFrom, if_pos (inside a List.mem_cons_self),
      ih fun b member => inside b (List.mem_cons_of_mem _ member), List.append_assoc, List.singleton_append]

theorem pieces_text {parts : List (Piece α)} (maximal : Maximal p parts) : pieces p (text parts) = parts := by
  induction parts with
  | nil => rfl
  | cons piece rest ih =>
    have later := ih maximal.tail
    have proper := maximal.proper piece List.mem_cons_self
    cases piece with
    | other a =>
      have outside : p a = false := proper
      change piecesFrom p [] (a :: text rest) = _
      rw [piecesFrom, outside, if_neg Bool.false_ne_true]
      exact congrArg (Piece.other a :: ·) later
    | run word =>
      obtain ⟨nonempty, inside⟩ := proper
      change piecesFrom p [] (word ++ text rest) = _
      have flushed : flush word = [.run word] := by
        cases word with
        | nil => exact absurd rfl nonempty
        | cons b word => rfl
      rw [piecesFrom_append_of_all inside, List.nil_append]
      cases rest with
      | nil => exact flushed
      | cons next rest =>
        cases next with
        | run other => exact absurd maximal.apart.rel id
        | other a =>
          have outside : p a = false := maximal.proper (.other a) (by simp)
          have same : pieces p (a :: text rest) = .other a :: rest := later
          rw [pieces, piecesFrom, outside, if_neg Bool.false_ne_true] at same
          change piecesFrom p word (a :: text rest) = _
          rw [piecesFrom, outside, if_neg Bool.false_ne_true, flushed]
          exact congrArg (Piece.run word :: ·) same

theorem Maximal.mapRun {parts : List (Piece α)} (maximal : Maximal p parts) {f : List α → List α}
    (keeps : ∀ word, word ≠ [] → (∀ a ∈ word, p a = true) → f word ≠ [] ∧ ∀ a ∈ f word, p a = true) :
    Maximal p (parts.map (Piece.mapRun f)) := by
  refine ⟨fun piece member => ?_, ?_⟩
  · obtain ⟨before, source, rfl⟩ := List.mem_map.mp member
    cases before with
    | run word => exact keeps word (maximal.proper _ source).1 (maximal.proper _ source).2
    | other a => exact maximal.proper _ source
  · rw [List.isChain_map]
    refine maximal.apart.imp fun first second apart => ?_
    cases first <;> cases second <;> exact apart

theorem pieces_mapRuns {f : List α → List α}
    (keeps : ∀ word, word ≠ [] → (∀ a ∈ word, p a = true) → f word ≠ [] ∧ ∀ a ∈ f word, p a = true) (as : List α) :
    pieces p (mapRuns p f as) = (pieces p as).map (Piece.mapRun f) :=
  pieces_text ((maximal_pieces as).mapRun keeps)

theorem piecesFrom_append_other {a : α} (outside : p a = false) (word front rest : List α) :
    piecesFrom p word (front ++ a :: rest) = piecesFrom p word front ++ .other a :: pieces p rest := by
  induction front generalizing word with
  | nil => simp [piecesFrom, outside, pieces]
  | cons b front ih =>
    rw [List.cons_append, piecesFrom, piecesFrom]
    split_ifs
    · exact ih (word ++ [b])
    · rw [ih [], List.append_assoc, List.cons_append]

/-- What stands on both sides of an element outside the runs is cut on its own. -/
theorem runs_append_other {a : α} (outside : p a = false) (front rest : List α) :
    runs p (front ++ a :: rest) = runs p front ++ runs p rest := by
  rw [runs, pieces, piecesFrom_append_other outside, List.filterMap_append]
  rfl

theorem runs_cons_other {a : α} (outside : p a = false) (rest : List α) : runs p (a :: rest) = runs p rest :=
  runs_append_other outside [] rest

theorem runs_of_all {word : List α} (nonempty : word ≠ []) (inside : ∀ a ∈ word, p a = true) : runs p word = [word] := by
  have cut : piecesFrom p [] (word ++ []) = piecesFrom p ([] ++ word) [] := piecesFrom_append_of_all inside []
  rw [List.append_nil, List.nil_append] at cut
  rw [runs, pieces, cut]
  cases word with
  | nil => exact absurd rfl nonempty
  | cons a rest => rfl

theorem mem_runs {as word : List α} : word ∈ runs p as ↔ Piece.run word ∈ pieces p as := by
  rw [runs, List.mem_filterMap]
  constructor
  · rintro ⟨piece, member, same⟩
    cases piece with
    | run other => exact Option.some.inj same ▸ member
    | other a => cases same
  · exact fun member => ⟨.run word, member, rfl⟩

end Soshal.Library.TextRuns
