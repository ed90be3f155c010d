import Mathlib.Data.List.Basic
import Mathlib.Data.List.Perm.Basic

/-! Scanners that look ahead, and comparing what two of them write.

A scanner decides at each place what it writes and how much of the rest it has read
by that. Two edits of the same pieces can differ in two ways: one replaces what the
other copies, or the other way round. A mark that only the copies hold tells them
apart, so that equal results come from equal pieces.
-/

set_option autoImplicit false

namespace Soshal.Library.Scanner

variable {α β : Type}

/-- The number says how many are passed over that were read ahead. -/
def scanFrom (step : α → List α → List β × Nat) : Nat → List α → List β
  | _, [] => []
  | ahead + 1, _ :: rest => scanFrom step ahead rest
  | 0, a :: rest => (step a rest).1 ++ scanFrom step (step a rest).2 rest

def scan (step : α → List α → List β × Nat) (as : List α) : List β := scanFrom step 0 as

theorem scanFrom_eq_drop (step : α → List α → List β × Nat) (ahead : Nat) (as : List α) :
    scanFrom step ahead as = scan step (as.drop ahead) := by
  induction as generalizing ahead with
  | nil => rw [List.drop_nil]; cases ahead <;> rfl
  | cons a rest ih =>
    cases ahead with
    | zero => rfl
    | succ ahead => rw [scanFrom, ih, List.drop_succ_cons]

@[simp] theorem scan_nil (step : α → List α → List β × Nat) : scan step [] = [] := rfl

theorem scan_cons (step : α → List α → List β × Nat) (a : α) (rest : List α) :
    scan step (a :: rest) = (step a rest).1 ++ scan step (rest.drop (step a rest).2) := by
  rw [scan, scanFrom, scanFrom_eq_drop]

theorem scan_append_of_copies {step : α → List α → List α × Nat} {front : List α} (rest : List α)
    (copies : ∀ a ∈ front, ∀ rest, step a rest = ([a], 0)) : scan step (front ++ rest) = front ++ scan step rest := by
  induction front with
  | nil => rfl
  | cons a front ih =>
    rw [List.cons_append, scan_cons, copies a List.mem_cons_self, List.drop_zero,
      ih fun b inside => copies b (List.mem_cons_of_mem _ inside)]
    rfl

/-- What two edits make of one piece. The mark stands close to the front of what only the second of them replaces. -/
inductive Edited (opener mark : α) : List α → List α → Prop where
  | same (written : List α) : Edited opener mark written written
  | missed (front : List α) (a : α) (copy : List α) (plain : mark ∉ copy) (long : a = opener → 4 ≤ copy.length) :
      Edited opener mark (front ++ [a]) (front ++ opener :: copy)
  | invented (front : List α) (a : α) (copy : List α) (marked : mark ∈ copy.take 3) :
      Edited opener mark (front ++ opener :: copy) (front ++ [a])

theorem rotate {front rest before last : List α} (same : front ++ rest = before ++ (front ++ last)) :
    ∃ after, after.Perm before ∧ rest = after ++ last := by
  rw [← List.append_assoc] at same
  obtain ⟨after, whole, tail⟩ | ⟨more, whole, tail⟩ := List.append_eq_append_iff.mp same
  · refine ⟨after, ?_, tail⟩
    have swapped : (front ++ after).Perm (front ++ before) := whole ▸ List.perm_append_comm
    exact (List.perm_append_left_iff front).mp swapped
  · have length := congrArg List.length whole
    simp only [List.length_append] at length
    obtain rfl : before = [] := List.eq_nil_of_length_eq_zero (by omega)
    obtain rfl : more = [] := List.eq_nil_of_length_eq_zero (by omega)
    exact ⟨[], List.Perm.refl _, tail.symm⟩

section Edits

variable [DecidableEq α] {opener mark : α} {pieces : List (List α × List α)}

theorem count_le (apart : opener ≠ mark) (edited : ∀ p ∈ pieces, Edited opener mark p.1 p.2) :
    (pieces.flatMap Prod.snd).count mark ≤ (pieces.flatMap Prod.fst).count mark := by
  induction pieces with
  | nil => exact Nat.le_refl _
  | cons p rest ih =>
    obtain ⟨first, later⟩ := List.forall_mem_cons.mp edited
    have fewer := ih later
    obtain ⟨kept, written⟩ := p
    rw [List.flatMap_cons, List.flatMap_cons, List.count_append, List.count_append]
    refine Nat.add_le_add ?_ fewer
    dsimp only at first ⊢
    cases first with
    | same => exact Nat.le_refl _
    | missed front a copy plain _ =>
      rw [List.count_append, List.count_append, List.count_cons_of_ne apart, List.count_eq_zero.mpr plain]
      omega
    | invented front a copy marked =>
      have there : 0 < copy.count mark := List.count_pos_iff.mpr (List.mem_of_mem_take marked)
      have one : List.count mark [a] ≤ 1 := List.count_le_length
      rw [List.count_append, List.count_append, List.count_cons_of_ne apart]
      omega

omit [DecidableEq α] in
/-- What the first edit writes is not that of the second behind some text without marks. -/
theorem ne_append (apart : opener ≠ mark) (edited : ∀ p ∈ pieces, Edited opener mark p.1 p.2) {before : List α}
    (plain : mark ∉ before) (long : 4 ≤ before.length) :
    pieces.flatMap Prod.fst ≠ before ++ pieces.flatMap Prod.snd := by
  induction pieces generalizing before with
  | nil =>
    intro same
    have length := congrArg List.length same
    simp only [List.flatMap_nil, List.length_append, List.length_nil] at length
    omega
  | cons p rest ih =>
    obtain ⟨first, later⟩ := List.forall_mem_cons.mp edited
    obtain ⟨kept, written⟩ := p
    rw [List.flatMap_cons, List.flatMap_cons]
    dsimp only at first ⊢
    intro same
    cases first with
    | same =>
      obtain ⟨after, moved, tail⟩ := rotate same
      exact ih later (fun inside => plain (moved.subset inside)) (by rw [moved.length_eq]; exact long) tail
    | missed front a copy unmarked _ =>
      rw [List.append_assoc, List.append_assoc] at same
      obtain ⟨after, moved, tail⟩ := rotate same
      have width := moved.length_eq
      obtain _ | ⟨b, after⟩ := after
      · simp only [List.length_nil] at width
        omega
      · rw [List.cons_append, List.cons_append] at tail
        obtain ⟨-, tail⟩ := List.cons.inj tail
        rw [← List.append_assoc] at tail
        refine ih later ?_ ?_ tail
        · have unmoved : mark ∉ after := fun inside => plain (moved.subset (List.mem_cons_of_mem _ inside))
          simp only [List.mem_append, List.mem_cons, not_or]
          exact ⟨unmoved, apart.symm, unmarked⟩
        · rw [List.length_append, List.length_cons]
          rw [List.length_cons] at width
          omega
    | invented front a copy marked =>
      rw [List.append_assoc, List.append_assoc] at same
      obtain ⟨after, moved, tail⟩ := rotate same
      -- What stood in front reaches beyond the place of the mark.
      have reach : 4 ≤ after.length := by
        rw [moved.length_eq]
        exact long
      have front_ : (opener :: copy.take 3) <+: after := by
        refine List.prefix_of_prefix_length_le ?_ (List.prefix_append after ([a] ++ rest.flatMap Prod.snd)) ?_
        · rw [← tail]
          exact (List.prefix_cons_inj opener).mpr ((List.take_prefix 3 copy).trans (List.prefix_append _ _))
        · have short := List.length_take_le 3 copy
          rw [List.length_cons]
          omega
      exact plain (moved.subset (front_.subset (List.mem_cons_of_mem _ marked)))

theorem pieces_same (apart : opener ≠ mark) (edited : ∀ p ∈ pieces, Edited opener mark p.1 p.2)
    (same : pieces.flatMap Prod.fst = pieces.flatMap Prod.snd) : ∀ p ∈ pieces, p.1 = p.2 := by
  induction pieces with
  | nil => exact fun p inside => absurd inside List.not_mem_nil
  | cons p rest ih =>
    obtain ⟨first, later⟩ := List.forall_mem_cons.mp edited
    obtain ⟨kept, written⟩ := p
    rw [List.flatMap_cons, List.flatMap_cons] at same
    dsimp only at first same
    cases first with
    | same =>
      exact List.forall_mem_cons.mpr ⟨rfl, ih later (List.append_cancel_left same)⟩
    | missed front a copy plain long =>
      rw [List.append_assoc, List.append_assoc] at same
      obtain ⟨opened, tail⟩ := List.cons.inj (List.append_cancel_left same)
      exact absurd tail (ne_append apart later plain (long opened))
    | invented front a copy marked =>
      rw [List.append_assoc, List.append_assoc] at same
      have tail : copy ++ rest.flatMap Prod.fst = rest.flatMap Prod.snd :=
        (List.cons.inj (List.append_cancel_left same)).2
      have there : 0 < copy.count mark := List.count_pos_iff.mpr (List.mem_of_mem_take marked)
      have fewer := count_le apart later
      rw [← tail, List.count_append] at fewer
      omega

end Edits

end Soshal.Library.Scanner
