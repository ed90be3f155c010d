import Mathlib.Data.List.Basic

/-! What happened in a history and has held ever since.

An event is judged together with the calls before it. The operator is the past-time
"since": it is carried along a history call by call.
-/

set_option autoImplicit false

namespace Soshal.Library

variable {Call : Type}

/-- Some call of the history was a `P`, and every call after it was a `Q`. -/
def Since (P Q : List Call → Call → Prop) (history : List Call) : Prop :=
  ∃ before call after, history = before ++ call :: after ∧ P before call ∧
    ∀ mid later rest, after = mid ++ later :: rest → Q (before ++ call :: mid) later

variable {P Q : List Call → Call → Prop}

theorem not_since_nil : ¬ Since P Q [] := by
  rintro ⟨before, call, after, split, -⟩
  exact absurd split.symm (by simp)

theorem since_snoc {history : List Call} {call : Call} :
    Since P Q (history ++ [call]) ↔ P history call ∨ (Since P Q history ∧ Q history call) := by
  constructor
  · rintro ⟨before, event, after, split, happened, held⟩
    rcases List.eq_nil_or_concat after with rfl | ⟨after, last, rfl⟩
    · -- the event is the last call itself
      obtain ⟨rfl, same⟩ := List.append_inj' split rfl
      obtain ⟨rfl, -⟩ := List.cons.inj same
      exact .inl happened
    · rw [List.concat_eq_append, ← List.cons_append, ← List.append_assoc] at split
      obtain ⟨rfl, same⟩ := List.append_inj' split rfl
      obtain ⟨rfl, -⟩ := List.cons.inj same
      refine .inr ⟨⟨before, event, after, rfl, happened, fun mid later rest within => ?_⟩, ?_⟩
      · exact held mid later (rest ++ [call]) (by rw [within, List.concat_eq_append, List.append_assoc, List.cons_append])
      · exact held after call [] (List.concat_eq_append ..)
  · rintro (happened | ⟨⟨before, event, after, rfl, happened, held⟩, last⟩)
    · exact ⟨history, call, [], rfl, happened, fun mid later rest none => absurd none.symm (by simp)⟩
    · refine ⟨before, event, after ++ [call], by simp, happened, fun mid later rest split => ?_⟩
      rcases List.eq_nil_or_concat rest with rfl | ⟨rest, final, rfl⟩
      · obtain ⟨rfl, same⟩ := List.append_inj' split rfl
        obtain ⟨rfl, -⟩ := List.cons.inj same
        exact last
      · rw [List.concat_eq_append, ← List.cons_append, ← List.append_assoc] at split
        obtain ⟨rfl, -⟩ := List.append_inj' split rfl
        exact held mid later rest rfl

end Soshal.Library
