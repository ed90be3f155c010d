import Mathlib.Data.List.Basic
import Mathlib.Data.List.Range

/-! Symmetric key chains and bounded buffers.

A chain is advanced by a step that yields a key to use now and the chain to go
on from. When the step loses nothing, and a chain's base is not itself the
result of a step, a key determines both the base it grew from and its position.
-/

set_option autoImplicit false

namespace Soshal.Library.KeyChain

variable {K : Type} (step : K → K × K)

def chainAt (base : K) : Nat → K
  | 0 => base
  | i + 1 => (step (chainAt base i)).2

def keyAt (base : K) (i : Nat) : K := (step (chainAt step base i)).1

theorem chainAt_succ_base (base : K) (i : Nat) :
    chainAt step (step base).2 i = chainAt step base (i + 1) := by
  induction i with
  | zero => rfl
  | succ i ih => simp only [chainAt] at ih ⊢; rw [ih]

theorem keyAt_succ_base (base : K) (i : Nat) : keyAt step (step base).2 i = keyAt step base (i + 1) := by
  simp only [keyAt, chainAt_succ_base]

theorem chainAt_add (base : K) (i j : Nat) : chainAt step (chainAt step base i) j = chainAt step base (i + j) := by
  induction j with
  | zero => rfl
  | succ j ih => rw [chainAt, ih]; rfl

theorem keyAt_add (base : K) (i j : Nat) : keyAt step (chainAt step base i) j = keyAt step base (i + j) := by
  simp only [keyAt, chainAt_add]

section Lossless

variable {step}
variable (next_inj : ∀ c d, (step c).2 = (step d).2 → c = d)

include next_inj

-- Both chains are unwound together; the one that reaches its base first stops the descent.
theorem chainAt_inj {b d : K} (fresh : ∀ c, (step c).2 ≠ b) (fresh' : ∀ c, (step c).2 ≠ d) :
    ∀ i j, chainAt step b i = chainAt step d j → b = d ∧ i = j := by
  intro i
  induction i with
  | zero =>
    intro j same
    cases j with
    | zero => exact ⟨same, rfl⟩
    | succ j => exact absurd same.symm (fresh _)
  | succ i ih =>
    intro j same
    cases j with
    | zero => exact absurd same (fresh' _)
    | succ j =>
      obtain ⟨base, index⟩ := ih j (next_inj _ _ same)
      exact ⟨base, congrArg Nat.succ index⟩

theorem keyAt_inj (key_inj : ∀ c d, (step c).1 = (step d).1 → c = d) {b d : K}
    (fresh : ∀ c, (step c).2 ≠ b) (fresh' : ∀ c, (step c).2 ≠ d) {i j : Nat}
    (same : keyAt step b i = keyAt step d j) : b = d ∧ i = j := by
  apply chainAt_inj next_inj fresh fresh'
  exact key_inj _ _ same

end Lossless

variable {α : Type}

def push (limit : Nat) (buffer : List α) (entry : α) : List α :=
  if (buffer ++ [entry]).length > limit then (buffer ++ [entry]).tail else buffer ++ [entry]

theorem push_sublist (limit : Nat) (buffer : List α) (entry : α) :
    (push limit buffer entry).Sublist (buffer ++ [entry]) := by
  unfold push
  split
  · exact List.tail_sublist _
  · exact List.Sublist.refl _

theorem push_of_room {limit : Nat} {buffer : List α} (entry : α) (room : buffer.length < limit) :
    push limit buffer entry = buffer ++ [entry] := by
  rw [push, if_neg]
  simp only [List.length_append, List.length_singleton]
  omega

theorem length_push_le {limit : Nat} {buffer : List α} (entry : α) (within : buffer.length ≤ limit) :
    (push limit buffer entry).length ≤ limit := by
  unfold push
  split
  · rw [List.length_tail, List.length_append, List.length_singleton]
    omega
  · omega

/-- The other order: make room first, then append. -/
def shiftIn (limit : Nat) (buffer : List α) (entry : α) : List α :=
  (if limit ≤ buffer.length then buffer.tail else buffer) ++ [entry]

theorem shiftIn_sublist (limit : Nat) (buffer : List α) (entry : α) :
    (shiftIn limit buffer entry).Sublist (buffer ++ [entry]) := by
  unfold shiftIn
  apply List.Sublist.append_right
  split
  · exact List.tail_sublist _
  · exact List.Sublist.refl _

theorem length_shiftIn_le {limit : Nat} {buffer : List α} (entry : α) (room : 0 < limit)
    (within : buffer.length ≤ limit) :
    (shiftIn limit buffer entry).length ≤ limit := by
  unfold shiftIn
  rw [List.length_append, List.length_singleton]
  split
  · rw [List.length_tail]
    omega
  · omega

theorem foldl_length_le {f : List α → α → List α} {limit : Nat}
    (step : ∀ buffer entry, buffer.length ≤ limit → (f buffer entry).length ≤ limit) (entries : List α)
    {buffer : List α} (within : buffer.length ≤ limit) : (entries.foldl f buffer).length ≤ limit := by
  induction entries generalizing buffer with
  | nil => exact within
  | cons entry rest ih => exact ih (step buffer entry within)

theorem foldl_sublist {f : List α → α → List α} (appends : ∀ buffer entry, (f buffer entry).Sublist (buffer ++ [entry]))
    (entries buffer : List α) : (entries.foldl f buffer).Sublist (buffer ++ entries) := by
  induction entries generalizing buffer with
  | nil => simp
  | cons entry rest ih =>
    have first := (appends buffer entry).append_right rest
    rw [List.append_assoc, List.singleton_append] at first
    exact (ih _).trans first

theorem foldl_push_of_room {limit : Nat} (entries : List α) {buffer : List α}
    (room : buffer.length + entries.length ≤ limit) : entries.foldl (push limit) buffer = buffer ++ entries := by
  induction entries generalizing buffer with
  | nil => simp
  | cons entry rest ih =>
    simp only [List.length_cons] at room
    rw [List.foldl_cons, push_of_room entry (by omega), ih (by simp; omega), List.append_assoc,
      List.singleton_append]

end Soshal.Library.KeyChain
