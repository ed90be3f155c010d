import Mathlib.Data.List.Basic
import Mathlib.Data.List.Induction

/-! Streams of marks that open and close elements.

Running through a balanced stream keeps a stack of what is open. A single flag in the
place of the stack never claims too much, and it is lost when an inner element closes.
-/

set_option autoImplicit false

namespace Soshal.Library.Nesting

inductive Mark (κ : Type) where
  | opening (k : κ)
  | closing (k : κ)
  | plain

section

variable {κ : Type}

section Stack

variable [DecidableEq κ]

/-- What is open after a mark, the innermost first. Only the innermost element can be closed. -/
def step : List κ → Mark κ → Option (List κ)
  | stack, .opening k => some (k :: stack)
  | inner :: stack, .closing k => if inner = k then some stack else none
  | [], .closing _ => none
  | stack, .plain => some stack

def run : List κ → List (Mark κ) → Option (List κ)
  | stack, [] => some stack
  | stack, mark :: rest => (step stack mark).bind fun stack => run stack rest

def Balanced (marks : List (Mark κ)) : Prop := run [] marks = some []

theorem run_append (stack : List κ) (front back : List (Mark κ)) :
    run stack (front ++ back) = (run stack front).bind fun stack => run stack back := by
  induction front generalizing stack with
  | nil => rfl
  | cons mark rest ih => simp only [List.cons_append, run, Option.bind_assoc, ih]

theorem Balanced.open_at {front back : List (Mark κ)} (balanced : Balanced (front ++ back)) :
    ∃ stack, run [] front = some stack := by
  rw [Balanced, run_append, Option.bind_eq_some_iff] at balanced
  obtain ⟨stack, opened, -⟩ := balanced
  exact ⟨stack, opened⟩

end Stack

variable {p : κ → Bool}

/-- A flag for the elements of one kind: set when one opens, cleared when one closes. -/
def flagStep (p : κ → Bool) (set : Bool) : Mark κ → Bool
  | .opening k => p k || set
  | .closing k => !p k && set
  | .plain => set

def flag (p : κ → Bool) (marks : List (Mark κ)) : Bool := marks.foldl (flagStep p) false

/-- An element of the kind was opened, and since then none was closed. -/
def LatestOpen (p : κ → Bool) (marks : List (Mark κ)) : Prop :=
  ∃ before k after, marks = before ++ .opening k :: after ∧ p k = true ∧ ∀ closed, .closing closed ∈ after → p closed = false

theorem latestOpen_snoc {marks : List (Mark κ)} {mark : Mark κ} :
    LatestOpen p (marks ++ [mark]) ↔
      (∃ k, mark = .opening k ∧ p k = true) ∨
        LatestOpen p marks ∧ ∀ closed, mark = .closing closed → p closed = false := by
  constructor
  · rintro ⟨before, k, after, joined, kind, still⟩
    obtain rfl | ⟨after, last, rfl⟩ := List.eq_nil_or_concat' after
    · obtain ⟨-, same⟩ := List.append_inj' joined rfl
      cases same
      exact .inl ⟨k, rfl, kind⟩
    · rw [← List.cons_append, ← List.append_assoc] at joined
      obtain ⟨rfl, same⟩ := List.append_inj' joined rfl
      cases same
      refine .inr ⟨⟨before, k, after, rfl, kind, fun closed inside => still closed (by simp [inside])⟩, ?_⟩
      rintro closed rfl
      exact still closed (by simp)
  · rintro (⟨k, rfl, kind⟩ | ⟨⟨before, k, after, rfl, kind, still⟩, last⟩)
    · exact ⟨marks, k, [], rfl, kind, fun closed inside => absurd inside List.not_mem_nil⟩
    · refine ⟨before, k, after ++ [mark], by simp, kind, ?_⟩
      intro closed inside
      obtain earlier | final := List.mem_append.mp inside
      · exact still closed earlier
      · exact last closed (List.mem_singleton.mp final).symm

theorem flag_iff {marks : List (Mark κ)} : flag p marks = true ↔ LatestOpen p marks := by
  induction marks using List.reverseRecOn with
  | nil =>
    simp only [flag, List.foldl_nil, Bool.false_eq_true, false_iff]
    rintro ⟨before, k, after, joined, -⟩
    simp at joined
  | append_singleton marks mark ih =>
    have folded : flag p (marks ++ [mark]) = flagStep p (flag p marks) mark := by
      rw [flag, List.foldl_append, List.foldl_cons, List.foldl_nil, flag]
    rw [folded, latestOpen_snoc, ← ih]
    cases mark with
    | opening k => simp [flagStep]
    | closing k => simp [flagStep, and_comm]
    | plain => simp [flagStep]

variable [DecidableEq κ]

theorem exists_open_step {stack next : List κ} {set : Bool} {mark : Mark κ} (stepped : step stack mark = some next)
    (held : set = true → ∃ k ∈ stack, p k = true) (kept : flagStep p set mark = true) : ∃ k ∈ next, p k = true := by
  cases mark with
  | opening k =>
    cases stepped
    obtain kind | before := Bool.or_eq_true_iff.mp kept
    · exact ⟨k, List.mem_cons_self, kind⟩
    · obtain ⟨outer, inside, kind⟩ := held before
      exact ⟨outer, List.mem_cons_of_mem _ inside, kind⟩
  | closing k =>
    obtain ⟨other, before⟩ := Bool.and_eq_true_iff.mp kept
    obtain ⟨outer, inside, kind⟩ := held before
    cases stack with
    | nil => cases inside
    | cons inner rest =>
      simp only [step, Option.ite_none_right_eq_some, Option.some.injEq] at stepped
      obtain ⟨rfl, rfl⟩ := stepped
      -- What closes is not of the kind, so that it is not the one held.
      obtain rfl | deeper := List.mem_cons.mp inside
      · rw [kind] at other
        cases other
      · exact ⟨outer, deeper, kind⟩
  | plain =>
    cases stepped
    exact held kept

theorem exists_open_run {marks : List (Mark κ)} {stack last : List κ} {set : Bool} (ran : run stack marks = some last)
    (held : set = true → ∃ k ∈ stack, p k = true) (kept : marks.foldl (flagStep p) set = true) :
    ∃ k ∈ last, p k = true := by
  induction marks generalizing stack set with
  | nil =>
    cases ran
    exact held kept
  | cons mark rest ih =>
    obtain ⟨next, stepped, later⟩ := Option.bind_eq_some_iff.mp ran
    exact ih later (exists_open_step stepped held) kept

theorem exists_open_of_flag {marks : List (Mark κ)} {stack : List κ} (opened : run [] marks = some stack)
    (set : flag p marks = true) : ∃ k ∈ stack, p k = true :=
  exists_open_run opened (by simp) set

end

end Soshal.Library.Nesting
