import Mathlib.Data.List.Basic

/-! First-in first-out sets and maps that drop their oldest entry past a capacity. -/

set_option autoImplicit false

namespace Soshal.Library

structure BoundedSet (α : Type) where
  capacity : Nat
  order : List α

namespace BoundedSet

variable {α : Type} [DecidableEq α]

def empty (capacity : Nat) : BoundedSet α := ⟨capacity, []⟩

def contains (s : BoundedSet α) (key : α) : Bool := decide (key ∈ s.order)

/-- The set after an insertion, and whether the key was new. -/
def insert (s : BoundedSet α) (key : α) : BoundedSet α × Bool :=
  if key ∈ s.order then (s, false)
  else
    let order := s.order ++ [key]
    ({ s with order := order.drop (order.length - s.capacity) }, true)

def clear (s : BoundedSet α) : BoundedSet α := { s with order := [] }

theorem insert_snd (s : BoundedSet α) (key : α) : (s.insert key).2 = !s.contains key := by
  unfold insert contains
  split <;> simp_all

theorem contains_insert_self (s : BoundedSet α) (key : α) (room : 0 < s.capacity) :
    (s.insert key).1.contains key = true := by
  apply decide_eq_true
  unfold insert
  split
  · assumption
  · have cut : (s.order ++ [key]).length - s.capacity ≤ s.order.length := by
      rw [List.length_append, List.length_singleton]
      omega
    dsimp only
    rw [List.drop_append_of_le_length cut]
    simp

end BoundedSet

structure BoundedMap (α β : Type) where
  capacity : Nat
  rows : List (α × β)

namespace BoundedMap

variable {α β : Type} [DecidableEq α]

def empty (capacity : Nat) : BoundedMap α β := ⟨capacity, []⟩

variable (m : BoundedMap α β) (key : α) (value : β)

def get : Option β := (m.rows.find? (·.1 = key)).map Prod.snd

def containsKey : Bool := (m.get key).isSome

/-- A key that is present keeps its place; a new one makes room first. -/
def insert : BoundedMap α β :=
  if m.containsKey key then
    { m with rows := m.rows.map fun row => if row.1 = key then (key, value) else row }
  else
    { m with rows := (if m.capacity ≤ m.rows.length then m.rows.tail else m.rows) ++ [(key, value)] }

def remove : BoundedMap α β :=
  { m with rows := m.rows.filter (·.1 ≠ key) }

def clear : BoundedMap α β := { m with rows := [] }

theorem mem_insert_self : (key, value) ∈ (m.insert key value).rows := by
  unfold insert
  split
  · rename_i present
    obtain ⟨_, found⟩ := Option.isSome_iff_exists.mp present
    obtain ⟨row, first, -⟩ := Option.map_eq_some_iff.mp found
    have same : row.1 = key := by simpa using List.find?_some first
    exact List.mem_map.mpr ⟨row, List.mem_of_find?_eq_some first, if_pos same⟩
  · simp

theorem mem_of_mem_insert {m : BoundedMap α β} {key : α} {value : β} {row : α × β}
    (member : row ∈ (m.insert key value).rows) : row = (key, value) ∨ row ∈ m.rows := by
  unfold insert at member
  split at member
  · obtain ⟨before, inside, rfl⟩ := List.mem_map.mp member
    by_cases same : before.1 = key
    · exact .inl (if_pos same)
    · rw [if_neg same]
      exact .inr inside
  · obtain older | new := List.mem_append.mp member
    · right
      split at older
      · exact List.mem_of_mem_tail older
      · exact older
    · exact .inl (List.mem_singleton.mp new)

end BoundedMap

end Soshal.Library
