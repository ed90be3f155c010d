import Mathlib.Data.List.Basic

/-! Machines that answer every call, and simulations between them. -/

set_option autoImplicit false

namespace Soshal.Library.Replies

variable {State Other Call Reply : Type}

/-- The state after a sequence of calls, and the answer to each. -/
def serve (step : State → Call → State × Reply) : State → List Call → State × List Reply
  | s, [] => (s, [])
  | s, call :: rest =>
    let after := serve step (step s call).1 rest
    (after.1, (step s call).2 :: after.2)

/-- Related states answer alike and stay related. -/
structure Simulates (first : State → Call → State × Reply) (second : Other → Call → Other × Reply)
    (R : State → Other → Prop) : Prop where
  reply : ∀ {s t}, R s t → ∀ call, (first s call).2 = (second t call).2
  next : ∀ {s t}, R s t → ∀ call, R (first s call).1 (second t call).1

variable {first : State → Call → State × Reply} {second : Other → Call → Other × Reply} {R : State → Other → Prop}

theorem Simulates.state (sim : Simulates first second R) {s : State} {t : Other} (start : R s t)
    (calls : List Call) : R (serve first s calls).1 (serve second t calls).1 := by
  induction calls generalizing s t with
  | nil => exact start
  | cons call rest ih => exact ih (sim.next start call)

theorem Simulates.replies (sim : Simulates first second R) {s : State} {t : Other} (start : R s t)
    (calls : List Call) : (serve first s calls).2 = (serve second t calls).2 := by
  induction calls generalizing s t with
  | nil => rfl
  | cons call rest ih =>
    simp only [serve, sim.reply start call, ih (sim.next start call)]

theorem serve_keeps (step : State → Call → State × Reply) {Inv : State → Prop}
    (keeps : ∀ s call, Inv s → Inv (step s call).1) {s : State} (start : Inv s) (calls : List Call) :
    Inv (serve step s calls).1 := by
  induction calls generalizing s with
  | nil => exact start
  | cons call rest ih => exact ih (keeps s call start)

theorem serve_of_stateless (step : State → Call → State × Reply) {Inv : State → Prop} {answer : Call → Reply}
    (keeps : ∀ s call, Inv s → Inv (step s call).1) (answers : ∀ s call, Inv s → (step s call).2 = answer call)
    {s : State} (start : Inv s) (calls : List Call) :
    Inv (serve step s calls).1 ∧ (serve step s calls).2 = calls.map answer := by
  refine ⟨serve_keeps step keeps start calls, ?_⟩
  induction calls generalizing s with
  | nil => rfl
  | cons call rest ih => rw [serve, List.map_cons, answers s call start, ih (keeps s call start)]

end Soshal.Library.Replies
