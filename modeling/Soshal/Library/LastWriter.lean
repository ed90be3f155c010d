import Mathlib.Data.List.Induction
import Mathlib.Order.Basic
import Mathlib.Order.Lattice

/-! A register that keeps the newest value written, and forgets what it gave up.

A write carries a stamp and a value, or takes the value back. It is dropped when the
register holds a newer one. A register that was emptied remembers no stamp, so an
older write that comes late fills it again.
-/

set_option autoImplicit false

namespace Soshal.Library.LastWriter

variable {τ β : Type} [LinearOrder τ]

/-- A write; without a value it takes the held one back. -/
structure Write (τ β : Type) where
  stamp : τ
  value : Option β

def apply (held : Option (τ × β)) (w : Write τ β) : Option (τ × β) :=
  if held.any fun h => w.stamp < h.1 then held else w.value.map (w.stamp, ·)

/-- A value of this stamp is taken back by one of the writes. -/
def Taken (stamp : τ) (writes : List (Write τ β)) : Prop := ∃ w ∈ writes, w.value = none ∧ stamp ≤ w.stamp

/-- Each value of a stamp above is taken back after it. -/
def Cleared (Above : τ → Prop) : List (Write τ β) → Prop
  | [] => True
  | w :: rest => (w.value ≠ none → Above w.stamp → Taken w.stamp rest) ∧ Cleared Above rest

omit [LinearOrder τ] in
theorem ext_value {w : Write τ β} {v : β} (same : w.value = some v) : w = ⟨w.stamp, some v⟩ := by
  cases w
  cases same
  rfl

theorem Taken.mono {first second : τ} {writes : List (Write τ β)} (le : first ≤ second) (taken : Taken second writes) :
    Taken first writes := by
  obtain ⟨w, member, none, above⟩ := taken
  exact ⟨w, member, none, le.trans above⟩

theorem taken_cons {stamp : τ} {w : Write τ β} {rest : List (Write τ β)} :
    Taken stamp (w :: rest) ↔ w.value = none ∧ stamp ≤ w.stamp ∨ Taken stamp rest := by
  simp only [Taken, List.mem_cons, or_and_right, exists_or, exists_eq_left]

theorem apply_none (w : Write τ β) : apply none w = w.value.map (w.stamp, ·) := rfl

theorem apply_newer {h : τ × β} {w : Write τ β} (newer : w.stamp < h.1) : apply (some h) w = some h := by
  simp [apply, newer]

theorem apply_older {h : τ × β} {w : Write τ β} (older : h.1 ≤ w.stamp) :
    apply (some h) w = w.value.map (w.stamp, ·) := by
  simp [apply, not_lt.mpr older]

/-- The register ends without a value of a stamp above exactly when each such value is taken back. -/
theorem not_above_iff {Above : τ → Prop} (up : ∀ first second, first ≤ second → Above first → Above second)
    {held : Option (τ × β)} {writes : List (Write τ β)} :
    (∀ h, writes.foldl apply held = some h → ¬ Above h.1) ↔
      (∀ h, held = some h → Above h.1 → Taken h.1 writes) ∧ Cleared Above writes := by
  induction writes generalizing held with
  | nil => simp [Cleared, Taken]
  | cons w rest ih =>
    rw [List.foldl_cons, ih, Cleared, ← and_assoc]
    refine and_congr_left fun _ => ?_
    -- what `w` leaves in the register decides which of the two stamps is still to be taken back
    cases held with
    | none =>
      rw [apply_none]
      cases value : w.value with
      | none => simp
      | some v => simp
    | some h =>
      rcases lt_or_ge w.stamp h.1 with newer | older
      · rw [apply_newer newer]
        simp only [Option.some.injEq, forall_eq', taken_cons, not_le.mpr newer, and_false, false_or]
        refine ⟨fun taken => ⟨taken, fun _ above => ?_⟩, And.left⟩
        exact (taken (up _ _ newer.le above)).mono newer.le
      · rw [apply_older older]
        cases value : w.value with
        | none => simp [taken_cons, value, older]
        | some v =>
          simp only [Option.map_some, Option.some.injEq, forall_eq', taken_cons, value, reduceCtorEq, false_and,
            false_or, ne_eq, not_false_eq_true, forall_const]
          refine ⟨fun taken => ⟨fun above => ?_, taken⟩, And.right⟩
          exact (taken (up _ _ older above)).mono older

theorem cleared_iff {Above : τ → Prop} (up : ∀ first second, first ≤ second → Above first → Above second)
    {writes : List (Write τ β)} : Cleared Above writes ↔ ∀ h, writes.foldl apply none = some h → ¬ Above h.1 := by
  rw [not_above_iff up]
  simp

theorem ends_empty_iff {writes : List (Write τ β)} :
    writes.foldl apply none = none ↔ Cleared (fun _ => True) writes := by
  rw [cleared_iff fun _ _ _ => id]
  simp [Option.eq_none_iff_forall_ne_some]

/-- What is held at the end was taken at some point, and everything after it was older. -/
theorem ends_some_iff {writes : List (Write τ β)} {t : τ} {v : β} :
    writes.foldl apply none = some (t, v) ↔
      ∃ before after, writes = before ++ ⟨t, some v⟩ :: after ∧ (∀ w ∈ after, w.stamp < t) ∧
        Cleared (t < ·) before := by
  have cleared : ∀ before : List (Write τ β),
      Cleared (t < ·) before ↔ ∀ h, before.foldl apply none = some h → h.1 ≤ t := by
    intro before
    rw [cleared_iff fun _ _ le above => lt_of_lt_of_le above le]
    simp only [not_lt]
  simp only [cleared]
  induction writes using List.reverseRecOn with
  | nil => simp
  | append_singleton writes w ih =>
    rw [List.foldl_append, List.foldl_cons, List.foldl_nil]
    constructor
    · intro ends
      by_cases dropped : ∃ h, writes.foldl apply none = some h ∧ w.stamp < h.1
      · -- The last write is older than what is held, which stays.
        obtain ⟨h, held, newer⟩ := dropped
        rw [held, apply_newer newer] at ends
        obtain rfl := Option.some.inj ends
        obtain ⟨before, after, split, older, first⟩ := ih.mp held
        refine ⟨before, after ++ [w], by simp [split], fun later member => ?_, first⟩
        rcases List.mem_append.mp member with old | new
        · exact older later old
        · rw [List.mem_singleton.mp new]
          exact newer
      · -- The last write is taken and is the one that is left.
        have taken : apply (writes.foldl apply none) w = w.value.map (w.stamp, ·) := by
          cases held : writes.foldl apply none with
          | none => rfl
          | some h => exact apply_older (not_lt.mp fun newer => dropped ⟨h, held, newer⟩)
        rw [taken] at ends
        obtain ⟨value, same, pair⟩ := Option.map_eq_some_iff.mp ends
        obtain ⟨rfl, rfl⟩ := Prod.mk.inj pair
        refine ⟨writes, [], by rw [← ext_value same], by simp, fun h held => ?_⟩
        exact not_lt.mp fun newer => dropped ⟨h, held, newer⟩
    · rintro ⟨before, after, split, older, first⟩
      rcases List.eq_nil_or_concat after with rfl | ⟨after, last, rfl⟩
      · obtain ⟨rfl, same⟩ := List.append_inj' split rfl
        obtain rfl : w = ⟨t, some v⟩ := by simpa using same
        cases held : writes.foldl apply none with
        | none => rfl
        | some h => exact apply_older (first h held)
      · rw [List.concat_eq_append, ← List.cons_append, ← List.append_assoc] at split
        obtain ⟨rfl, same⟩ := List.append_inj' split rfl
        obtain rfl : w = last := by simpa using same
        have held := ih.mpr ⟨before, after, rfl, fun later member => older later (by simp [member]), first⟩
        rw [held]
        exact apply_newer (older w (by simp))

/-- The writes leave this value: nothing when each value is taken back, and a value when it is written once
with only older writes after it and the newer values before it taken back. -/
def Settles (writes : List (Write τ β)) : Option β → Prop
  | none => Cleared (fun _ => True) writes
  | some v => ∃ before t after, writes = before ++ ⟨t, some v⟩ :: after ∧ (∀ w ∈ after, w.stamp < t) ∧
      Cleared (t < ·) before

theorem ends_iff_settles {writes : List (Write τ β)} {value : Option β} :
    (writes.foldl apply none).map Prod.snd = value ↔ Settles writes value := by
  cases value with
  | none => rw [Option.map_eq_none_iff, ends_empty_iff, Settles]
  | some v =>
    rw [Option.map_eq_some_iff, Settles]
    constructor
    · rintro ⟨⟨t, _⟩, ends, rfl⟩
      obtain ⟨before, after, rest⟩ := ends_some_iff.mp ends
      exact ⟨before, t, after, rest⟩
    · rintro ⟨before, t, after, rest⟩
      exact ⟨(t, v), ends_some_iff.mpr ⟨before, after, rest⟩, rfl⟩

end Soshal.Library.LastWriter
