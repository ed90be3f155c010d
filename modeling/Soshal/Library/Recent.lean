import Mathlib.Data.List.Basic

/-! Queues that forget from the front.

An entry is safe as long as it is recent enough: what is among the last `k` entries
survives every cut that leaves at least `k`.
-/

set_option autoImplicit false

namespace Soshal.Library

variable {α : Type}

/-- The entry stands among the last `k` of the queue. -/
def Recent (x : α) (k : Nat) (queue : List α) : Prop :=
  ∃ front back, queue = front ++ x :: back ∧ back.length < k

namespace Recent

variable {x : α} {k : Nat} {queue : List α}

theorem mem (recent : Recent x k queue) : x ∈ queue := by
  obtain ⟨front, back, rfl, -⟩ := recent
  simp

theorem mono (recent : Recent x k queue) {n : Nat} (later : k ≤ n) : Recent x n queue := by
  obtain ⟨front, back, same, short⟩ := recent
  exact ⟨front, back, same, Nat.lt_of_lt_of_le short later⟩

theorem append (recent : Recent x k queue) (more : List α) : Recent x (k + more.length) (queue ++ more) := by
  obtain ⟨front, back, rfl, short⟩ := recent
  refine ⟨front, back ++ more, by simp, ?_⟩
  rw [List.length_append]
  omega

theorem of_mem_append {more : List α} (member : x ∈ more) (queue : List α) :
    Recent x more.length (queue ++ more) := by
  obtain ⟨front, back, rfl⟩ := List.append_of_mem member
  refine ⟨queue ++ front, back, by simp, ?_⟩
  simp only [List.length_append, List.length_cons]
  omega

theorem drop (recent : Recent x k queue) {n : Nat} (left : k + n ≤ queue.length) : Recent x k (queue.drop n) := by
  obtain ⟨front, back, rfl, short⟩ := recent
  have before : n ≤ front.length := by
    simp only [List.length_append, List.length_cons] at left
    omega
  exact ⟨front.drop n, back, List.drop_append_of_le_length before, short⟩

/-- Cutting a queue to its last `cap` entries. -/
theorem keep (recent : Recent x k queue) {cap : Nat} (room : k ≤ cap) :
    Recent x k (queue.drop (queue.length - cap)) := by
  obtain short | long := Nat.le_total queue.length cap
  · rw [Nat.sub_eq_zero_of_le short]
    exact recent
  · exact recent.drop (by omega)

end Recent

end Soshal.Library
