import Mathlib.Data.List.Basic

/-! Runs of a deterministic step function.

`Always P` says that a property holds in every state a run passes through, and
`Throughout C` that each step meets a condition in the state it starts from. When
the condition decides whether a step keeps the property, the two coincide.
-/

set_option autoImplicit false

namespace Soshal.Library.Runs

variable {State Call : Type} (step : State → Call → State)

def run (start : State) (calls : List Call) : State := calls.foldl step start

def Always (P : State → Prop) : State → List Call → Prop
  | s, [] => P s
  | s, call :: rest => P s ∧ Always P (step s call) rest

def Throughout (C : State → Call → Prop) : State → List Call → Prop
  | _, [] => True
  | s, call :: rest => C s call ∧ Throughout C (step s call) rest

variable {step}

instance instDecidableThroughout {C : State → Call → Prop} [∀ s call, Decidable (C s call)] :
    (start : State) → (calls : List Call) → Decidable (Throughout step C start calls)
  | _, [] => .isTrue trivial
  | s, call :: rest =>
    have : Decidable (Throughout step C (step s call) rest) := instDecidableThroughout (step s call) rest
    inferInstanceAs (Decidable (C s call ∧ Throughout step C (step s call) rest))

theorem always_iff {P : State → Prop} {start : State} {calls : List Call} :
    Always step P start calls ↔ ∀ done rest, calls = done ++ rest → P (run step start done) := by
  induction calls generalizing start with
  | nil =>
    constructor
    · intro holds done rest split
      obtain ⟨rfl, rfl⟩ := List.append_eq_nil_iff.mp split.symm
      exact holds
    · intro holds
      exact holds [] [] rfl
  | cons call later ih =>
    constructor
    · rintro ⟨now, after⟩ done rest split
      cases done with
      | nil => exact now
      | cons first done =>
        obtain ⟨rfl, rfl⟩ := List.cons.inj split
        exact ih.mp after done rest rfl
    · intro holds
      refine ⟨holds [] (call :: later) rfl, ih.mpr ?_⟩
      rintro done rest rfl
      exact holds (call :: done) rest rfl

theorem Always.last {P : State → Prop} {start : State} {calls : List Call} (always : Always step P start calls) :
    P (run step start calls) :=
  always_iff.mp always calls [] (List.append_nil calls).symm

theorem Always.imp {P Q : State → Prop} (implies : ∀ s, P s → Q s) {start : State} {calls : List Call}
    (always : Always step P start calls) : Always step Q start calls := by
  rw [always_iff] at *
  intro done rest split
  exact implies _ (always done rest split)

theorem throughout_iff {C : State → Call → Prop} {start : State} {calls : List Call} :
    Throughout step C start calls ↔
      ∀ done call rest, calls = done ++ call :: rest → C (run step start done) call := by
  induction calls generalizing start with
  | nil => simp [Throughout]
  | cons call later ih =>
    constructor
    · rintro ⟨now, after⟩ done next rest split
      cases done with
      | nil =>
        obtain ⟨rfl, rfl⟩ := List.cons.inj split
        exact now
      | cons first done =>
        obtain ⟨rfl, rfl⟩ := List.cons.inj split
        exact ih.mp after done next rest rfl
    · intro holds
      refine ⟨holds [] call later rfl, ih.mpr ?_⟩
      rintro done next rest rfl
      exact holds (call :: done) next rest rfl

theorem run_cons (start : State) (call : Call) (rest : List Call) :
    run step start (call :: rest) = run step (step start call) rest := rfl

theorem run_append (start : State) (done later : List Call) :
    run step start (done ++ later) = run step (run step start done) later := List.foldl_append

/-- What holds at the end of a run and not at its start was brought about by some step. -/
theorem exists_step_of_run {P : State → Prop} {start : State} {calls : List Call} (before : ¬ P start)
    (after : P (run step start calls)) :
    ∃ done call rest, calls = done ++ call :: rest ∧ ¬ P (run step start done) ∧ P (step (run step start done) call) := by
  induction calls generalizing start with
  | nil => exact absurd after before
  | cons call rest ih =>
    by_cases made : P (step start call)
    · exact ⟨[], call, rest, rfl, before, made⟩
    · obtain ⟨done, next, later, split, still, holds⟩ := ih made after
      exact ⟨call :: done, next, later, by rw [split, List.cons_append], still, holds⟩

theorem throughout_append {C : State → Call → Prop} {start : State} {done later : List Call} :
    Throughout step C start (done ++ later) ↔
      Throughout step C start done ∧ Throughout step C (run step start done) later := by
  induction done generalizing start with
  | nil => simp [Throughout, run]
  | cons call rest ih =>
    simp only [List.cons_append, Throughout, ih, and_assoc]
    rfl

section

variable {start : State} {calls : List Call}

theorem throughout_congr {C D : State → Call → Prop} (same : ∀ s call, C s call ↔ D s call) :
    Throughout step C start calls ↔ Throughout step D start calls := by
  induction calls generalizing start with
  | nil => exact Iff.rfl
  | cons call rest ih => exact and_congr (same start call) ih

theorem Throughout.strengthen {Inv : State → Prop} {C D : State → Call → Prop}
    (keeps : ∀ s call, Inv s → Inv (step s call)) (adds : ∀ s call, Inv s → C s call → D s call) (initial : Inv start)
    (meets : Throughout step C start calls) :
    Throughout step D start calls := by
  induction calls generalizing start with
  | nil => trivial
  | cons call rest ih => exact ⟨adds start call initial meets.1, ih (keeps start call initial) meets.2⟩

theorem Always.throughout {P : State → Prop} {C D : State → Call → Prop} (adds : ∀ s call, P s → C s call → D s call)
    (always : Always step P start calls) (meets : Throughout step C start calls) :
    Throughout step D start calls := by
  induction calls generalizing start with
  | nil => trivial
  | cons call rest ih => exact ⟨adds start call always.1 meets.1, ih always.2 meets.2⟩

theorem always_of_throughout {P : State → Prop} {C : State → Call → Prop}
    (keeps : ∀ s call, P s → C s call → P (step s call)) (initial : P start) (meets : Throughout step C start calls) :
    Always step P start calls := by
  induction calls generalizing start with
  | nil => exact initial
  | cons call rest ih => exact ⟨initial, ih (keeps start call initial meets.1) meets.2⟩

theorem always_of_invariant {P : State → Prop} (keeps : ∀ s call, P s → P (step s call)) (initial : P start) :
    Always step P start calls := by
  induction calls generalizing start with
  | nil => exact initial
  | cons call rest ih => exact ⟨initial, ih (keeps start call initial)⟩

/-- The property is read off an invariant, which a step keeps exactly when it meets the condition. -/
theorem always_iff_of_invariant {P Inv : State → Prop} {C : State → Call → Prop} (sound : ∀ s, Inv s → P s)
    (forced : ∀ s call, Inv s → P (step s call) → C s call) (keeps : ∀ s call, Inv s → C s call → Inv (step s call))
    (initial : Inv start) : Always step P start calls ↔ Throughout step C start calls := by
  induction calls generalizing start with
  | nil => simp [Always, Throughout, sound start initial]
  | cons call rest ih =>
    simp only [Always, Throughout, sound start initial, true_and]
    constructor
    · intro after
      have good : P (step start call) := by
        cases rest with
        | nil => exact after
        | cons => exact after.1
      have met := forced start call initial good
      exact ⟨met, (ih (keeps start call initial met)).mp after⟩
    · rintro ⟨now, later⟩
      exact (ih (keeps start call initial now)).mpr later

theorem always_iff_throughout {P : State → Prop} {C : State → Call → Prop}
    (decides : ∀ s call, P s → (P (step s call) ↔ C s call)) (initial : P start) :
    Always step P start calls ↔ Throughout step C start calls :=
  always_iff_of_invariant (fun _ => id) (fun s call holds => (decides s call holds).mp)
    (fun s call holds => (decides s call holds).mpr) initial

end

end Soshal.Library.Runs
