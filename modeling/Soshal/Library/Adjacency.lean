import Mathlib.Data.List.Basic
import Mathlib.Data.List.Nodup
import Mathlib.Logic.Relation

/-! Directed graphs given by the lists of their successors.

A node has successors only if it is one of finitely many keys, which is what ends
a walk that expands no node twice: every step that expands a key leaves fewer keys
that are not marked.
-/

set_option autoImplicit false

namespace Soshal.Library

structure Adjacency (α : Type) where
  keys : List α
  children : α → List α
  outside : ∀ n, n ∉ keys → children n = []

namespace Adjacency

variable {α : Type} (g : Adjacency α)

def Edge (parent child : α) : Prop := child ∈ g.children parent

/-- What is reached from a node, the node itself included. -/
def Reaches : α → α → Prop := Relation.ReflTransGen g.Edge

/-- What is reached by one step or more. -/
def Below : α → α → Prop := Relation.TransGen g.Edge

theorem closed_of_reaches {kept : α → Prop} (closed : ∀ n m, g.Edge n m → kept n → kept m) {n m : α}
    (reached : g.Reaches n m) (start : kept n) : kept m := by
  induction reached with
  | refl => exact start
  | tail _ edge ih => exact closed _ _ edge ih

theorem closed_of_below {kept : α → Prop} (closed : ∀ n m, g.Edge n m → kept n → kept m) {n m : α}
    (below : g.Below n m) (start : kept n) : kept m :=
  g.closed_of_reaches closed below.to_reflTransGen start

theorem not_below_of_rank (rank : α → Nat) (falls : ∀ n m, g.Edge n m → rank m < rank n) (n : α) :
    ¬ g.Below n n := by
  have lower : ∀ m, g.Below n m → rank m < rank n := by
    intro m below
    induction below with
    | single edge => exact falls _ _ edge
    | tail _ edge ih => exact Nat.lt_trans (falls _ _ edge) ih
  intro below
  exact Nat.lt_irrefl _ (lower n below)

section Marks

/-- The keys that are not marked yet. -/
def unmarked (marked : α → Bool) : Nat := (g.keys.filter fun n => !marked n).length

theorem unmarked_le {before after : α → Bool} (grown : ∀ n, before n = true → after n = true) :
    g.unmarked after ≤ g.unmarked before := by
  refine (List.monotone_filter_right g.keys ?_).length_le
  intro n fresh
  cases marked : before n with
  | false => rfl
  | true => simp [grown n marked] at fresh

theorem unmarked_lt {before after : α → Bool} (grown : ∀ n, before n = true → after n = true) {node : α}
    (key : node ∈ g.keys) (fresh : before node = false) (marked : after node = true) :
    g.unmarked after < g.unmarked before := by
  have sub := List.monotone_filter_right (p := fun n => !after n) (q := fun n => !before n) g.keys fun n fresh => by
    cases marked : before n with
    | false => rfl
    | true => simp [grown n marked] at fresh
  refine Nat.lt_of_le_of_ne sub.length_le fun same => ?_
  have whole := sub.eq_of_length same
  have member : node ∈ g.keys.filter fun n => !before n := List.mem_filter.mpr ⟨key, by simp [fresh]⟩
  rw [← whole] at member
  simp [marked] at member

end Marks

end Adjacency

end Soshal.Library
