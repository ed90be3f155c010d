import Mathlib.Data.List.Perm.Basic
import Soshal.Library.Runs

/-! Calls that run side by side over shared state.

A system is the shared state and one process per call. A move begins a call or lets
one process take its next step, with whatever the environment answers it. An
invariant of the shared state and of each process holds along a run when the
process that moves keeps it for itself and for every other process.
-/

set_option autoImplicit false

namespace Soshal.Library.Processes

open Runs

structure System (Shared Proc : Type) where
  shared : Shared
  procs : List Proc

inductive Move (Call Input : Type) where
  | call (c : Call)
  | advance (i : Nat) (input : Input)

variable {Shared Proc Call Input : Type}

section Step

variable (enter : Call → Proc) (advance : Shared → Proc → Input → Shared × Proc)

def step (s : System Shared Proc) : Move Call Input → System Shared Proc
  | .call c => { s with procs := s.procs ++ [enter c] }
  | .advance i input =>
    match s.procs[i]? with
    | none => s
    | some p => ⟨(advance s.shared p input).1, s.procs.set i (advance s.shared p input).2⟩

variable {enter : Call → Proc} {advance : Shared → Proc → Input → Shared × Proc}

theorem step_of_getElem? {s : System Shared Proc} {i : Nat} {p : Proc} (here : s.procs[i]? = some p) (input : Input) :
    step enter advance s (.advance i input) = ⟨(advance s.shared p input).1, s.procs.set i (advance s.shared p input).2⟩ := by
  simp only [step, here]

/-- A process of the next state is new, or has not moved, or is the one that moved. -/
theorem procs_step {s : System Shared Proc} {move : Move Call Input} {i : Nat} {p : Proc}
    (here : (step enter advance s move).procs[i]? = some p) :
    (∃ c, move = .call c ∧ p = enter c) ∨ s.procs[i]? = some p ∨
      ∃ input q, move = .advance i input ∧ s.procs[i]? = some q ∧ p = (advance s.shared q input).2 := by
  cases move with
  | call c =>
    change (s.procs ++ [enter c])[i]? = some p at here
    rw [List.getElem?_append] at here
    split at here
    · exact .inr (.inl here)
    · exact .inl ⟨c, rfl, List.mem_singleton.mp (List.mem_of_getElem? here)⟩
  | advance j input =>
    cases moving : s.procs[j]? with
    | none =>
      simp only [step, moving] at here
      exact .inr (.inl here)
    | some q =>
      rw [step_of_getElem? moving] at here
      by_cases same : j = i
      · subst same
        change (s.procs.set j (advance s.shared q input).2)[j]? = some p at here
        rw [List.getElem?_set_self (List.getElem?_eq_some_iff.mp moving).1] at here
        exact .inr (.inr ⟨input, q, rfl, moving, (Option.some.inj here).symm⟩)
      · change (s.procs.set j (advance s.shared q input).2)[i]? = some p at here
        rw [List.getElem?_set_ne same] at here
        exact .inr (.inl here)

theorem shared_step {P : Shared → Prop} {s : System Shared Proc} (keeps : ∀ p ∈ s.procs, ∀ input, P (advance s.shared p input).1)
    (holds : P s.shared) (move : Move Call Input) : P (step enter advance s move).shared := by
  cases move with
  | call c => exact holds
  | advance i input =>
    cases here : s.procs[i]? with
    | none =>
      simp only [step, here]
      exact holds
    | some p =>
      rw [step_of_getElem? here]
      exact keeps p (List.mem_of_getElem? here) input

end Step

/-- The process that moves meets its own condition, and one with each of the other processes. -/
def Meets (own : Shared → Proc → Input → Prop) (beside : Shared → Proc → Input → Proc → Prop)
    (s : System Shared Proc) : Move Call Input → Prop
  | .call _ => True
  | .advance i input =>
    match s.procs[i]? with
    | none => True
    | some p => own s.shared p input ∧ ∀ q ∈ s.procs.eraseIdx i, beside s.shared p input q

/-- The shared state has a property, and every process has one with it. -/
def Holds (G : Shared → Prop) (I : Shared → Proc → Prop) (s : System Shared Proc) : Prop :=
  G s.shared ∧ ∀ p ∈ s.procs, I s.shared p

instance {own : Shared → Proc → Input → Prop} {beside : Shared → Proc → Input → Proc → Prop}
    [∀ shared p input, Decidable (own shared p input)] [∀ shared p input q, Decidable (beside shared p input q)]
    (s : System Shared Proc) (move : Move Call Input) : Decidable (Meets own beside s move) :=
  match move with
  | .call _ => .isTrue trivial
  | .advance i input =>
    match found : s.procs[i]? with
    | none => decidable_of_iff True (by simp [Meets, found])
    | some p => decidable_of_iff (own s.shared p input ∧ ∀ q ∈ s.procs.eraseIdx i, beside s.shared p input q)
        (by simp [Meets, found])

section Rule

variable {enter : Call → Proc} {advance : Shared → Proc → Input → Shared × Proc}
  {own : Shared → Proc → Input → Prop} {beside : Shared → Proc → Input → Proc → Prop}
  {G : Shared → Prop} {I : Shared → Proc → Prop}

theorem mem_set_or_others {procs : List Proc} {i : Nat} {p after q : Proc} (here : procs[i]? = some p)
    (member : q ∈ procs.set i after) : q = after ∨ q ∈ procs.eraseIdx i := by
  obtain ⟨small, rfl⟩ := List.getElem?_eq_some_iff.mp here
  exact List.mem_cons.mp ((List.set_perm_cons_eraseIdx small after).mem_iff.mp member)

theorem countP_set_of_getElem? {procs : List Proc} {i : Nat} {p : Proc} (here : procs[i]? = some p) (after : Proc)
    (counts : Proc → Bool) :
    (procs.set i after).countP counts + (counts p).toNat = procs.countP counts + (counts after).toNat := by
  obtain ⟨small, rfl⟩ := List.getElem?_eq_some_iff.mp here
  have afterwards := (List.set_perm_cons_eraseIdx small after).countP_eq counts
  have before := (List.getElem_cons_eraseIdx_perm small).countP_eq counts
  rw [List.countP_cons] at afterwards before
  rw [afterwards, ← before]
  cases counts procs[i] <;> cases counts after <;> simp

theorem exists_mem_set {procs : List Proc} {i : Nat} {p after : Proc} (here : procs[i]? = some p) {Q : Proc → Prop}
    (grows : Q p → Q after) (has : ∃ q ∈ procs, Q q) : ∃ q ∈ procs.set i after, Q q := by
  obtain ⟨q, member, holds⟩ := has
  obtain ⟨small, rfl⟩ := List.getElem?_eq_some_iff.mp here
  have moved := List.set_perm_cons_eraseIdx small after
  obtain rfl | other := List.mem_cons.mp ((List.getElem_cons_eraseIdx_perm small).mem_iff.mpr member)
  · exact ⟨after, moved.mem_iff.mpr List.mem_cons_self, grows holds⟩
  · exact ⟨q, moved.mem_iff.mpr (List.mem_cons_of_mem _ other), holds⟩

theorem meets_true (s : System Shared Proc) (move : Move Call Input) :
    Meets (fun _ _ _ => True) (fun _ _ _ _ => True) s move := by
  cases move with
  | call c => trivial
  | advance i input =>
    cases here : s.procs[i]? with
    | none => simp only [Meets, here]
    | some p => simp only [Meets, here, implies_true, and_self]

variable (enter advance own beside G I) in
/-- The process that moves keeps the invariant for the shared state, for itself and for every other process. -/
structure Guarantee : Prop where
  entered : ∀ shared c, G shared → I shared (enter c)
  moves : ∀ shared p input, G shared → I shared p → own shared p input →
    G (advance shared p input).1 ∧ I (advance shared p input).1 (advance shared p input).2
  others : ∀ shared p input q, G shared → I shared p → I shared q → own shared p input →
    beside shared p input q → I (advance shared p input).1 q

variable (guarantee : Guarantee enter advance own beside G I)

include guarantee

theorem Guarantee.step {s : System Shared Proc} {move : Move Call Input} (holds : Holds G I s)
    (meets : Meets own beside s move) : Holds G I (step enter advance s move) := by
  cases move with
  | call c =>
    refine ⟨holds.1, fun p member => ?_⟩
    obtain old | new := List.mem_append.mp member
    · exact holds.2 p old
    · rw [List.mem_singleton.mp new]
      exact guarantee.entered s.shared c holds.1
  | advance i input =>
    cases here : s.procs[i]? with
    | none => simpa only [Processes.step, here] using holds
    | some p =>
      simp only [Meets, here] at meets
      simp only [Processes.step, here]
      have mine := holds.2 p (List.mem_of_getElem? here)
      have moved := guarantee.moves s.shared p input holds.1 mine meets.1
      refine ⟨moved.1, fun q member => ?_⟩
      obtain rfl | other := mem_set_or_others here member
      · exact moved.2
      · exact guarantee.others s.shared p input q holds.1 mine (holds.2 q (List.mem_of_mem_eraseIdx other)) meets.1
          (meets.2 q other)

theorem Guarantee.always {start : System Shared Proc} {calls : List (Move Call Input)} (initial : Holds G I start)
    (meets : Throughout (Processes.step enter advance) (Meets own beside) start calls) :
    Always (Processes.step enter advance) (Holds G I) start calls :=
  always_of_throughout (fun _ _ holds met => guarantee.step holds met) initial meets

omit guarantee in
theorem Guarantee.reached (guarantee : Guarantee enter advance (fun _ _ _ => True) (fun _ _ _ _ => True) G I)
    {start : System Shared Proc} (initial : Holds G I start) (calls : List (Move Call Input)) :
    Holds G I (run (Processes.step enter advance) start calls) :=
  (always_of_invariant (fun s move holds => guarantee.step holds (meets_true s move)) initial).last

section Apart

variable {R : Proc → Proc → Prop} (symm : ∀ p q, R p q → R q p) (fresh : ∀ c q, R (enter c) q)
  (apart : ∀ shared p input q, G shared → I shared p → I shared q → R p q → own shared p input →
    beside shared p input q → R (advance shared p input).2 q)

include symm fresh apart

omit guarantee in
theorem pairwise_step {s : System Shared Proc} {move : Move Call Input} (holds : Holds G I s)
    (pairwise : s.procs.Pairwise R) (meets : Meets own beside s move) :
    (step enter advance s move).procs.Pairwise R := by
  cases move with
  | call c =>
    refine List.pairwise_append.mpr ⟨pairwise, List.pairwise_singleton R _, fun p _ q new => ?_⟩
    rw [List.mem_singleton.mp new]
    exact symm _ _ (fresh c p)
  | advance i input =>
    cases here : s.procs[i]? with
    | none => simpa only [step, here] using pairwise
    | some p =>
      simp only [Meets, here] at meets
      simp only [step, here]
      obtain ⟨small, rfl⟩ := List.getElem?_eq_some_iff.mp here
      have reorder : ∀ {first second : List Proc}, first.Perm second → (first.Pairwise R ↔ second.Pairwise R) :=
        fun same => same.pairwise_iff fun {p q} => symm p q
      have before := (reorder (List.getElem_cons_eraseIdx_perm small)).mpr pairwise
      rw [List.pairwise_cons] at before
      refine (reorder (List.set_perm_cons_eraseIdx small _)).mpr (List.pairwise_cons.mpr ⟨fun q other => ?_, before.2⟩)
      exact apart s.shared _ input q holds.1 (holds.2 _ (List.getElem_mem small))
        (holds.2 q (List.mem_of_mem_eraseIdx other)) (before.1 q other) meets.1 (meets.2 q other)

theorem Guarantee.always_apart {start : System Shared Proc} {calls : List (Move Call Input)} (initial : Holds G I start)
    (pairwise : start.procs.Pairwise R)
    (meets : Throughout (Processes.step enter advance) (Meets own beside) start calls) :
    Always (Processes.step enter advance) (fun s => Holds G I s ∧ s.procs.Pairwise R) start calls :=
  always_of_throughout (fun _ _ both met =>
    ⟨guarantee.step both.1 met, pairwise_step symm fresh apart both.1 both.2 met⟩) ⟨initial, pairwise⟩ meets

end Apart

end Rule

section Exclusive

variable (enter : Call → Proc) (advance : Shared → Proc → Input → Shared × Proc)
  (own : Shared → Proc → Input → Prop) (beside : Shared → Proc → Input → Proc → Prop)
  (busy : Proc → Prop) (Q : Shared → Prop) (I : Shared → Proc → Prop)

/-- At most one process is busy. While none is, the shared state has one property; while one is, it has another. -/
inductive Turns (s : System Shared Proc) : Prop where
  | idle : (∀ q ∈ s.procs, ¬ busy q) → Q s.shared → Turns s
  | taken {i : Nat} {p : Proc} : s.procs[i]? = some p → busy p → (∀ k q, k ≠ i → s.procs[k]? = some q → ¬ busy q) →
      I s.shared p → Turns s

/-- A busy process keeps its invariant until it is done; one that is not busy moves on only when none is. -/
structure Exclusive : Prop where
  entered : ∀ c, ¬ busy (enter c)
  begins : ∀ shared p input, ¬ busy p → own shared p input → Q shared →
    (busy (advance shared p input).2 → I (advance shared p input).1 (advance shared p input).2) ∧
      (¬ busy (advance shared p input).2 → Q (advance shared p input).1)
  waits : ∀ shared p input q, ¬ busy p → busy q → beside shared p input q →
    (advance shared p input).1 = shared ∧ ¬ busy (advance shared p input).2
  goes : ∀ shared p input, busy p → own shared p input → I shared p →
    (busy (advance shared p input).2 → I (advance shared p input).1 (advance shared p input).2) ∧
      (¬ busy (advance shared p input).2 → Q (advance shared p input).1)

variable {enter advance own beside busy Q I}

/-- The process at `i` has moved while no other was busy. -/
theorem turns_of_moved {s : System Shared Proc} {i : Nat} {p : Proc} (here : s.procs[i]? = some p)
    (others : ∀ k q, k ≠ i → s.procs[k]? = some q → ¬ busy q) {shared : Shared} {p' : Proc}
    (taken : busy p' → I shared p') (idle : ¬ busy p' → Q shared) :
    Turns busy Q I ⟨shared, s.procs.set i p'⟩ := by
  have small := (List.getElem?_eq_some_iff.mp here).1
  by_cases now : busy p'
  · refine .taken (i := i) (List.getElem?_set_self small) now (fun k q other found => ?_) (taken now)
    rw [List.getElem?_set_ne (Ne.symm other)] at found
    exact others k q other found
  · refine .idle (fun q member => ?_) (idle now)
    obtain rfl | other := mem_set_or_others here member
    · exact now
    · obtain ⟨k, apart, found⟩ := List.mem_eraseIdx_iff_getElem?.mp other
      exact others k q apart found

theorem Exclusive.step (exclusive : Exclusive enter advance own beside busy Q I) {s : System Shared Proc}
    {move : Move Call Input} (turns : Turns busy Q I s) (meets : Meets own beside s move) :
    Turns busy Q I (step enter advance s move) := by
  cases move with
  | call c =>
    cases turns with
    | idle none rest =>
      refine .idle (fun q member => ?_) rest
      obtain old | new := List.mem_append.mp member
      · exact none q old
      · rw [List.mem_singleton.mp new]
        exact exclusive.entered c
    | @taken i p here now others inv =>
      have small := (List.getElem?_eq_some_iff.mp here).1
      refine .taken (i := i) (p := p) ?_ now (fun k q apart found => ?_) inv
      · rw [Processes.step, List.getElem?_append_left small]
        exact here
      · rw [Processes.step, List.getElem?_append] at found
        split at found
        · exact others k q apart found
        · rw [List.mem_singleton.mp (List.mem_of_getElem? found)]
          exact exclusive.entered c
  | advance j input =>
    cases moving : s.procs[j]? with
    | none => simpa only [Processes.step, moving] using turns
    | some p =>
      simp only [Meets, moving] at meets
      simp only [Processes.step, moving]
      cases turns with
      | idle none rest =>
        have after := exclusive.begins s.shared p input (none p (List.mem_of_getElem? moving)) meets.1 rest
        exact turns_of_moved moving (fun k q _ found => none q (List.mem_of_getElem? found)) after.1 after.2
      | @taken i q here now others inv =>
        by_cases same : j = i
        · -- The process that holds the turn moves.
          subst same
          obtain rfl : p = q := Option.some.inj (moving.symm.trans here)
          have after := exclusive.goes s.shared p input now meets.1 inv
          exact turns_of_moved moving others after.1 after.2
        · -- Another one moves: it waits, and the turn stays where it is.
          have apart : q ∈ s.procs.eraseIdx j := List.mem_eraseIdx_iff_getElem?.mpr ⟨i, Ne.symm same, here⟩
          have waiting := exclusive.waits s.shared p input q (others j p same moving) now (meets.2 q apart)
          refine .taken (i := i) (p := q) ?_ now (fun k other different found => ?_) (waiting.1.symm ▸ inv)
          · rw [List.getElem?_set_ne same]
            exact here
          · by_cases moved : k = j
            · subst moved
              rw [List.getElem?_set_self (List.getElem?_eq_some_iff.mp moving).1] at found
              cases found
              exact waiting.2
            · rw [List.getElem?_set_ne (Ne.symm moved)] at found
              exact others k other different found

theorem Exclusive.always (exclusive : Exclusive enter advance own beside busy Q I) {start : System Shared Proc}
    {calls : List (Move Call Input)} (initial : Turns busy Q I start)
    (meets : Throughout (Processes.step enter advance) (Meets own beside) start calls) :
    Always (Processes.step enter advance) (Turns busy Q I) start calls :=
  always_of_throughout (fun _ _ turns met => exclusive.step turns met) initial meets

end Exclusive

end Soshal.Library.Processes
