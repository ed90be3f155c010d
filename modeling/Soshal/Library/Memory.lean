import Mathlib.Algebra.Group.Nat.Defs
import Mathlib.Data.List.Basic

/-! A region of memory of a fixed size, read and written through bounds checks.

An access outside of the region, or a sum past the machine word, is a fault. What a
write leaves is told position by position, and for the slices that lie before, in and
behind it.
-/

set_option autoImplicit false

namespace Soshal.Library.Memory

inductive Fault where
  | outOfBounds
  | overflow
  deriving DecidableEq

variable {α : Type}

def slice (m : List α) (start stop : Nat) : List α := (m.drop start).take (stop - start)

def put (m : List α) (pos : Nat) (data : List α) : List α := m.take pos ++ data ++ m.drop (pos + data.length)

/-- `&m[start..stop]`. -/
def load (m : List α) (start stop : Nat) : Except Fault (List α) :=
  if start ≤ stop ∧ stop ≤ m.length then .ok (slice m start stop) else .error .outOfBounds

/-- `m[pos]`. -/
def loadAt (m : List α) (pos : Nat) : Except Fault α := (m[pos]?).elim (.error .outOfBounds) .ok

/-- `m[pos..pos + data.len()].copy_from_slice(data)`. -/
def store (m : List α) (pos : Nat) (data : List α) : Except Fault (List α) :=
  if pos + data.length ≤ m.length then .ok (put m pos data) else .error .outOfBounds

/-- A sum of two 64-bit numbers. -/
def add (a b : Nat) : Except Fault Nat := if a + b < 2 ^ 64 then .ok (a + b) else .error .overflow

theorem add_ok {a b : Nat} (small : a + b < 2 ^ 64) : add a b = .ok (a + b) := if_pos small

variable {m : List α} {pos : Nat} {data : List α}

theorem load_ok {start stop : Nat} (order : start ≤ stop) (inside : stop ≤ m.length) :
    load m start stop = .ok (slice m start stop) := if_pos ⟨order, inside⟩

theorem store_ok (inside : pos + data.length ≤ m.length) : store m pos data = .ok (put m pos data) := if_pos inside

theorem loadAt_ok {a : α} (found : m[pos]? = some a) : loadAt m pos = .ok a := by
  rw [loadAt, found]
  rfl

theorem length_slice {start stop : Nat} (inside : stop ≤ m.length) : (slice m start stop).length = stop - start := by
  simp only [slice, List.length_take, List.length_drop]
  omega

theorem length_put (inside : pos + data.length ≤ m.length) : (put m pos data).length = m.length := by
  simp only [put, List.length_append, List.length_take, List.length_drop]
  omega

theorem getElem?_slice (m : List α) (start stop i : Nat) :
    (slice m start stop)[i]? = if i < stop - start then m[start + i]? else none := by
  rw [slice, List.getElem?_take]
  split
  · rw [List.getElem?_drop]
  · rfl

theorem getElem?_put (inside : pos + data.length ≤ m.length) (i : Nat) :
    (put m pos data)[i]? = if i < pos then m[i]? else if i < pos + data.length then data[i - pos]? else m[i]? := by
  have first : (m.take pos).length = pos := by
    rw [List.length_take]
    omega
  rw [put, List.append_assoc]
  by_cases before : i < pos
  · rw [if_pos before, List.getElem?_append_left (by omega), List.getElem?_take_of_lt before]
  · rw [if_neg before, List.getElem?_append_right (by omega), first]
    by_cases within : i < pos + data.length
    · rw [if_pos within, List.getElem?_append_left (by omega)]
    · rw [if_neg within, List.getElem?_append_right (by omega), List.getElem?_drop]
      congr 1
      omega

theorem slice_put_self (inside : pos + data.length ≤ m.length) :
    slice (put m pos data) pos (pos + data.length) = data := by
  refine List.ext_getElem? fun i => ?_
  rw [getElem?_slice]
  by_cases within : i < data.length
  · rw [if_pos (by omega), getElem?_put inside, if_neg (by omega), if_pos (by omega)]
    congr 1
    omega
  · rw [if_neg (by omega), List.getElem?_eq_none (by omega)]

theorem slice_put_before {pos start stop : Nat} (inside : pos + data.length ≤ m.length)
    (before : stop ≤ pos) : slice (put m pos data) start stop = slice m start stop := by
  refine List.ext_getElem? fun i => ?_
  rw [getElem?_slice, getElem?_slice]
  split
  · rw [getElem?_put inside, if_pos (by omega)]
  · rfl

theorem slice_put_behind {pos start stop : Nat} (inside : pos + data.length ≤ m.length)
    (behind : pos + data.length ≤ start) : slice (put m pos data) start stop = slice m start stop := by
  refine List.ext_getElem? fun i => ?_
  rw [getElem?_slice, getElem?_slice]
  split
  · rw [getElem?_put inside, if_neg (by omega), if_neg (by omega)]
  · rfl

theorem slice_slice (m : List α) {start stop from_ to_ : Nat} (inside : start + to_ ≤ stop) :
    slice (slice m start stop) from_ to_ = slice m (start + from_) (start + to_) := by
  refine List.ext_getElem? fun i => ?_
  rw [getElem?_slice, getElem?_slice, getElem?_slice]
  by_cases within : i < to_ - from_
  · rw [if_pos within, if_pos (by omega), if_pos (by omega)]
    congr 1
    omega
  · rw [if_neg within, if_neg (by omega)]

theorem put_append_left (inside : pos + data.length ≤ m.length) (rest : List α) :
    put (m ++ rest) pos data = put m pos data ++ rest := by
  rw [put, put, List.take_append_of_le_length (by omega), List.drop_append_of_le_length inside]
  simp only [List.append_assoc]

theorem slice_append_left {start stop : Nat} (inside : stop ≤ m.length) (rest : List α) :
    slice (m ++ rest) start stop = slice m start stop := by
  refine List.ext_getElem? fun i => ?_
  rw [getElem?_slice, getElem?_slice]
  split
  · rw [List.getElem?_append_left (by omega)]
  · rfl

theorem slice_append_right {m rest : List α} {start stop : Nat} (behind : m.length ≤ start) :
    slice (m ++ rest) start stop = slice rest (start - m.length) (stop - m.length) := by
  refine List.ext_getElem? fun i => ?_
  rw [getElem?_slice, getElem?_slice]
  by_cases within : i < stop - start
  · rw [if_pos within, if_pos (by omega), List.getElem?_append_right (by omega)]
    congr 1
    omega
  · rw [if_neg within, if_neg (by omega)]

theorem put_append_right {m rest : List α} (behind : m.length ≤ pos) :
    put (m ++ rest) pos data = m ++ put rest (pos - m.length) data := by
  rw [put, put, List.take_append, List.take_of_length_le behind, List.drop_append,
    List.drop_eq_nil_of_le (by omega), List.nil_append]
  simp only [List.append_assoc]
  congr 4
  omega

end Soshal.Library.Memory
