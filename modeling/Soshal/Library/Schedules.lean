import Mathlib.Logic.Relation
import Mathlib.Order.WellFounded

/-! Systems of threads: a state, the moves that threads can make in it, and every order of them.

A move that is blocked has no result. A state is stuck when every move is blocked.
Where each move lowers a measure, every run ends, and it ends in a state from
which nothing moves.
-/

set_option autoImplicit false

namespace Soshal.Library.Schedules

variable {State Move : Type} (step : State → Move → Option State)

def Moves (s s' : State) : Prop := ∃ move, step s move = some s'

/-- Some schedule leads from one state to the other. -/
def Reaches : State → State → Prop := Relation.ReflTransGen (Moves step)

def CanMove (s : State) : Prop := ∃ move s', step s move = some s'

variable {step}

theorem Reaches.refl (s : State) : Reaches step s s := Relation.ReflTransGen.refl

theorem Reaches.trans {s s' s'' : State} (first : Reaches step s s') (second : Reaches step s' s'') :
    Reaches step s s'' := Relation.ReflTransGen.trans first second

theorem Reaches.next {s s' s'' : State} (reached : Reaches step s s') {move : Move} (moved : step s' move = some s'') :
    Reaches step s s'' := Relation.ReflTransGen.tail reached ⟨move, moved⟩

theorem reaches_of_foldlM {s s' : State} {moves : List Move} (ran : moves.foldlM step s = some s') :
    Reaches step s s' := by
  induction moves generalizing s with
  | nil =>
    cases ran
    exact .refl _
  | cons move rest ih =>
    rw [List.foldlM_cons] at ran
    obtain ⟨next, moved, ran⟩ := Option.bind_eq_some_iff.mp ran
    exact ((Reaches.refl s).next moved).trans (ih ran)

/-- What the start has and every move keeps, every state of every schedule has. -/
theorem Reaches.invariant {P : State → Prop} (keeps : ∀ s move s', P s → step s move = some s' → P s') {start s : State}
    (initial : P start) (reached : Reaches step start s) : P s := by
  induction reached with
  | refl => exact initial
  | tail _ moved ih =>
    obtain ⟨move, moved⟩ := moved
    exact keeps _ move _ ih moved

theorem exists_end (measure : State → Nat) (lowers : ∀ s move s', step s move = some s' → measure s' < measure s)
    (s : State) : ∃ s', Reaches step s s' ∧ ¬ CanMove step s' := by
  induction len : measure s using Nat.strong_induction_on generalizing s with
  | _ n ih =>
    by_cases moves : CanMove step s
    · obtain ⟨move, next, moved⟩ := moves
      obtain ⟨last, reached, ends⟩ := ih (measure next) (len ▸ lowers s move next moved) next rfl
      exact ⟨last, ((Reaches.refl s).next moved).trans reached, ends⟩
    · exact ⟨s, .refl s, moves⟩

/-- From a state with a property that every move keeps, some schedule ends in a state with that property. -/
theorem exists_end_with (measure : State → Nat) (lowers : ∀ s move s', step s move = some s' → measure s' < measure s)
    {P : State → Prop} (keeps : ∀ s move s', P s → step s move = some s' → P s') {s : State} (holds : P s) :
    ∃ s', Reaches step s s' ∧ P s' ∧ ¬ CanMove step s' := by
  obtain ⟨last, reached, ends⟩ := exists_end measure lowers s
  exact ⟨last, reached, reached.invariant keeps holds, ends⟩

end Soshal.Library.Schedules
