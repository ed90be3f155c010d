import Mathlib.Data.List.Basic
import Mathlib.Data.List.Forall2

/-! Computations that may fail: what a success says of their parts. -/

set_option autoImplicit false

namespace Soshal.Library.Fallible

variable {ε α β : Type}

theorem error_or_ok (x : Except ε α) : (∃ e, x = .error e) ∨ ∃ a, x = .ok a := by
  cases x with
  | error e => exact .inl ⟨e, rfl⟩
  | ok a => exact .inr ⟨a, rfl⟩

theorem ok_bind (a : α) (f : α → Except ε β) : (Except.ok a >>= f) = f a := rfl

theorem bind_eq_ok {x : Except ε α} {f : α → Except ε β} {b : β} :
    (x >>= f) = .ok b ↔ ∃ a, x = .ok a ∧ f a = .ok b := by
  cases x with
  | error e => simp [bind, Except.bind]
  | ok a => simp [bind, Except.bind]

theorem map_eq_ok {x : Except ε α} {f : α → β} {b : β} : x.map f = .ok b ↔ ∃ a, x = .ok a ∧ f a = b := by
  cases x with
  | error e => simp [Except.map]
  | ok a => simp [Except.map]

theorem bind_pure_succeeds {x : Except ε α} {f : α → β} :
    (∃ b, (x >>= fun a => pure (f a)) = .ok b) ↔ ∃ a, x = .ok a := by
  cases x with
  | error e => simp [bind, Except.bind]
  | ok a => simp [bind, Except.bind, pure, Except.pure]

theorem pure_eq_ok {a b : α} : (pure a : Except ε α) = .ok b ↔ a = b := by
  simp [pure, Except.pure]

theorem guard_eq_ok {c : Prop} [Decidable c] {e : ε} {x : Except ε α} {a : α} :
    (if c then .error e else x) = .ok a ↔ ¬ c ∧ x = .ok a := by
  by_cases failed : c
  · simp [failed]
  · simp [failed]

theorem elim_eq_ok {x : Option α} {e : ε} {a : α} : x.elim (.error e) Except.ok = .ok a ↔ x = some a := by
  cases x with
  | none => simp
  | some b => simp

theorem mapM_eq_ok {f : α → Except ε β} {l : List α} {bs : List β} :
    l.mapM f = .ok bs ↔ List.Forall₂ (fun a b => f a = .ok b) l bs := by
  induction l generalizing bs with
  | nil => rw [List.mapM_nil, pure_eq_ok, List.forall₂_nil_left_iff, eq_comm]
  | cons a rest ih =>
    rw [List.mapM_cons, bind_eq_ok, List.forall₂_cons_left_iff]
    constructor
    · rintro ⟨b, first, later⟩
      obtain ⟨bs', traversed, built⟩ := bind_eq_ok.mp later
      exact ⟨b, bs', first, ih.mp traversed, (pure_eq_ok.mp built).symm⟩
    · rintro ⟨b, bs', first, traversed, rfl⟩
      exact ⟨b, first, bind_eq_ok.mpr ⟨bs', ih.mpr traversed, rfl⟩⟩

theorem mapM_ok {f : α → Except ε β} {g : α → β} {l : List α} (each : ∀ a ∈ l, f a = .ok (g a)) :
    l.mapM f = .ok (l.map g) := by
  rw [mapM_eq_ok, List.forall₂_map_right_iff, List.forall₂_same]
  exact each

theorem forall₂_mem {R : α → β → Prop} {l : List α} {bs : List β} (all : List.Forall₂ R l bs) {a : α}
    (member : a ∈ l) : ∃ b ∈ bs, R a b := by
  induction all with
  | nil => cases member
  | cons first _ ih =>
    obtain rfl | later := List.mem_cons.mp member
    · exact ⟨_, List.mem_cons_self, first⟩
    · obtain ⟨b, inside, related⟩ := ih later
      exact ⟨b, List.mem_cons_of_mem _ inside, related⟩

theorem mapM_eq_some {f : α → Option β} {l : List α} {bs : List β} : l.mapM f = some bs ↔ l.map f = bs.map some := by
  induction l generalizing bs with
  | nil => cases bs <;> simp
  | cons a rest ih =>
    simp only [List.mapM_cons, Option.bind_eq_bind, Option.bind_eq_some_iff, Option.pure_def, Option.some.injEq,
      List.map_cons]
    constructor
    · rintro ⟨b, first, bs', later, rfl⟩
      rw [first, ih.mp later, List.map_cons]
    · intro same
      cases bs with
      | nil => cases same
      | cons b bs' =>
        obtain ⟨first, later⟩ := List.cons.inj same
        exact ⟨b, first, bs', ih.mpr later, rfl⟩

theorem mapM_isSome {f : α → Option β} {l : List α} (each : ∀ a ∈ l, (f a).isSome) : (l.mapM f).isSome := by
  induction l with
  | nil => rfl
  | cons a rest ih =>
    obtain ⟨first, later⟩ := List.forall_mem_cons.mp each
    obtain ⟨b, found⟩ := Option.isSome_iff_exists.mp first
    obtain ⟨bs, traversed⟩ := Option.isSome_iff_exists.mp (ih later)
    simp [found, traversed]

theorem mapError_eq_ok {x : Except ε α} {f : ε → β} {a : α} : x.mapError f = .ok a ↔ x = .ok a := by
  cases x with
  | error e => simp [Except.mapError]
  | ok b => simp [Except.mapError]

section Folds

variable {f : β → α → Except ε β} {l : List α} {b b' : β}

theorem foldlM_still (still : ∀ a ∈ l, f b a = .ok b) : l.foldlM f b = .ok b := by
  induction l with
  | nil => rfl
  | cons a rest ih =>
    rw [List.foldlM_cons, still a List.mem_cons_self, ok_bind]
    exact ih fun c member => still c (List.mem_cons_of_mem _ member)

theorem foldl_still {g : β → α → β} (still : ∀ a ∈ l, g b a = b) : l.foldl g b = b := by
  induction l with
  | nil => rfl
  | cons a rest ih =>
    rw [List.foldl_cons, still a List.mem_cons_self]
    exact ih fun c member => still c (List.mem_cons_of_mem _ member)

theorem foldlM_keeps {P : β → Prop} (step : ∀ a ∈ l, ∀ b b', f b a = .ok b' → P b → P b') (run : l.foldlM f b = .ok b')
    (start : P b) : P b' := by
  induction l generalizing b with
  | nil =>
    cases run
    exact start
  | cons a rest ih =>
    obtain ⟨next, first, later⟩ := bind_eq_ok.mp run
    exact ih (fun c member => step c (List.mem_cons_of_mem _ member)) later (step a List.mem_cons_self _ _ first start)

theorem foldl_keeps {g : β → α → β} {P : β → Prop} (step : ∀ a ∈ l, ∀ b, P b → P (g b a)) (start : P b) :
    P (l.foldl g b) := by
  induction l generalizing b with
  | nil => exact start
  | cons a rest ih => exact ih (fun c member => step c (List.mem_cons_of_mem _ member)) (step a List.mem_cons_self _ start)

theorem foldlM_leaves {Q : α → β → Prop} (made : ∀ a ∈ l, ∀ b b', f b a = .ok b' → Q a b')
    (kept : ∀ c, ∀ a ∈ l, ∀ b b', f b a = .ok b' → Q c b → Q c b') (run : l.foldlM f b = .ok b') : ∀ a ∈ l, Q a b' := by
  induction l generalizing b with
  | nil => exact fun a member => absurd member List.not_mem_nil
  | cons a rest ih =>
    obtain ⟨next, first, later⟩ := bind_eq_ok.mp run
    have kept_ : ∀ c, ∀ a ∈ rest, ∀ b b', f b a = .ok b' → Q c b → Q c b' :=
      fun c a member => kept c a (List.mem_cons_of_mem _ member)
    intro c member
    rcases List.mem_cons.mp member with rfl | member
    · exact foldlM_keeps (kept_ c) later (made c List.mem_cons_self _ _ first)
    · exact ih (fun a member => made a (List.mem_cons_of_mem _ member)) kept_ later c member

end Folds

end Soshal.Library.Fallible
