import Soshal.Library.Fallible
import Soshal.Telemetry.Recorder

/-! What the recorder reads in a window of bytes.

The two scans of the recorder walk the map by position. Here they are functions of the
bytes between their start and the end of what is valid, so that what they find does not
depend on where in the map the bytes lie.
-/

set_option autoImplicit false

namespace Soshal.Telemetry

open Library.Memory
open Library.Fallible (ok_bind)
open Library.LittleEndian (Bytes leBytes leValue)

/-- The first word of a window is the length of an entry that lies in it. -/
def startsEntry (window : Bytes) : Bool :=
  decide (4 ≤ window.length ∧ leValue (slice window 0 4) ≠ 0 ∧ leValue (slice window 0 4) ≤ entryMaxTotal ∧
    leValue (slice window 0 4) ≤ window.length)

theorem startsEntry_iff {window : Bytes} : startsEntry window = true ↔ 4 ≤ window.length ∧
    leValue (slice window 0 4) ≠ 0 ∧ leValue (slice window 0 4) ≤ entryMaxTotal ∧
      leValue (slice window 0 4) ≤ window.length := decide_eq_true_iff

def parse (window : Bytes) : List Entry :=
  if _ : startsEntry window = true then
    let total := leValue (slice window 0 4)
    let plen := leValue (slice window 13 17)
    if window.length < entryHeader ∨ plen > entryMaxPayload ∨ entryHeader + plen > total then []
    else
      match window[4]?.bind RecordKind.fromU8 with
      | some kind =>
        (kind, UInt64.ofNat (leValue (slice window 5 13)), slice window entryHeader (entryHeader + plen)) ::
          parse (window.drop total)
      | none => parse (window.drop total)
  else []
termination_by window.length
decreasing_by all_goals
  have positive := startsEntry_iff.mp ‹_›
  simp only [List.length_drop]
  omega

def count (window : Bytes) : Nat :=
  if start : startsEntry window = true then count (window.drop (leValue (slice window 0 4))) + 1 else 0
termination_by window.length
decreasing_by
  have positive := startsEntry_iff.mp start
  simp only [List.length_drop]
  omega

theorem parse_stops {window : Bytes} (stops : startsEntry window = false) : parse window = [] := by
  rw [parse, dif_neg (by simp [stops])]

theorem count_stops {window : Bytes} (stops : startsEntry window = false) : count window = 0 := by
  rw [count, dif_neg (by simp [stops])]

theorem count_starts {window : Bytes} (starts : startsEntry window = true) :
    count window = count (window.drop (leValue (slice window 0 4))) + 1 := by
  rw [count, dif_pos starts]

theorem drop_slice (m : Bytes) (pos stop total : Nat) : (slice m pos stop).drop total = slice m (pos + total) stop := by
  rw [slice, slice, List.drop_take, List.drop_drop]
  congr 1
  omega

theorem first_word {m : Bytes} {pos stop : Nat} (room : pos + 4 ≤ stop) :
    slice (slice m pos stop) 0 4 = slice m pos (pos + 4) := by
  rw [slice_slice m room, Nat.add_zero]

section Scan

variable {m : Bytes} {stop : Nat} (inside : stop ≤ m.length)
include inside

theorem startsEntry_slice {pos : Nat} (order : pos ≤ stop) :
    startsEntry (slice m pos stop) = true ↔ pos + 4 ≤ stop ∧ leValue (slice m pos (pos + 4)) ≠ 0 ∧
      leValue (slice m pos (pos + 4)) ≤ entryMaxTotal ∧ pos + leValue (slice m pos (pos + 4)) ≤ stop := by
  rw [startsEntry_iff, length_slice inside]
  by_cases room : pos + 4 ≤ stop
  · rw [slice_slice m room, Nat.add_zero]
    omega
  · omega

variable (mapped : m.length < 2 ^ 63)
include mapped

theorem countFrom_eq {pos : Nat} (order : pos ≤ stop) : countFrom m pos stop = .ok (count (slice m pos stop)) := by
  induction left : stop - pos using Nat.strong_induction_on generalizing pos with
  | h left ih =>
    have starts := startsEntry_slice inside order
    rw [countFrom, add_ok (by omega), ok_bind]
    by_cases room : pos + 4 ≤ stop
    · rw [if_pos room, load_ok (by omega) (by omega), ok_bind]
      dsimp only
      generalize word : leValue (slice m pos (pos + 4)) = total at starts ⊢
      by_cases odd : total = 0 ∨ total > entryMaxTotal
      · rw [dif_pos odd, count_stops (by rw [← Bool.not_eq_true, starts]; omega)]
        rfl
      · have small : total ≤ entryMaxTotal := by omega
        rw [dif_neg odd, add_ok (by rw [entryMaxTotal, entryHeader, entryMaxPayload] at small; omega), ok_bind]
        by_cases past : pos + total > stop
        · rw [dif_pos past, count_stops (by rw [← Bool.not_eq_true, starts]; omega)]
          rfl
        · rw [dif_neg past, ih (stop - (pos + total)) (by omega) (by omega) rfl, ok_bind,
            count_starts (starts.mpr (by omega)), first_word room, word, drop_slice]
          rfl
    · rw [if_neg room, count_stops (by rw [← Bool.not_eq_true, starts]; omega)]
      rfl

theorem readFrom_eq {pos : Nat} (order : pos ≤ stop) : readFrom m pos stop = .ok (parse (slice m pos stop)) := by
  induction left : stop - pos using Nat.strong_induction_on generalizing pos with
  | h left ih =>
    have starts := startsEntry_slice inside order
    rw [readFrom, add_ok (by omega), ok_bind]
    by_cases room : pos + 4 ≤ stop
    · rw [if_pos room, load_ok (by omega) (by omega), ok_bind]
      dsimp only
      generalize word : leValue (slice m pos (pos + 4)) = total at starts ⊢
      by_cases odd : total = 0 ∨ total > entryMaxTotal
      · rw [dif_pos odd, parse_stops (by rw [← Bool.not_eq_true, starts]; omega)]
        rfl
      · have small : total ≤ entryMaxTotal := by omega
        rw [dif_neg odd, add_ok (by rw [entryMaxTotal, entryHeader, entryMaxPayload] at small; omega), ok_bind]
        by_cases past : pos + total > stop
        · rw [dif_pos past, parse_stops (by rw [← Bool.not_eq_true, starts]; omega)]
          rfl
        · rw [dif_neg past, parse, dif_pos (starts.mpr (by omega))]
          dsimp only
          rw [first_word room, word, length_slice inside, drop_slice, add_ok (by rw [entryHeader]; omega), ok_bind]
          by_cases short : pos + entryHeader > stop
          · rw [if_pos short, if_pos (by omega)]
            rfl
          · rw [if_neg short]
            have long : pos + 17 ≤ stop := by rw [entryHeader] at short; omega
            obtain ⟨mark, found⟩ : ∃ mark, m[pos + 4]? = some mark :=
              ⟨m[pos + 4], List.getElem?_eq_getElem (by omega)⟩
            have here : (slice m pos stop)[4]? = some mark := by rw [getElem?_slice, if_pos (by omega), found]
            rw [loadAt_ok found, ok_bind, load_ok (by omega) (by omega), ok_bind, load_ok (by omega) (by omega),
              ok_bind, slice_slice m (by omega), slice_slice m (by omega), here]
            generalize leValue (slice m (pos + 13) (pos + 17)) = plen
            by_cases cut : plen > entryMaxPayload ∨ entryHeader + plen > total
            · rw [if_pos cut, if_pos (by omega)]
              rfl
            · rw [if_neg cut, if_neg (by omega), load_ok (by omega) (by omega), ok_bind,
                ih (stop - (pos + total)) (by omega) (by omega) rfl, ok_bind, Option.bind_some, slice_slice m (by omega),
                Nat.add_assoc pos entryHeader plen]
              cases RecordKind.fromU8 mark with
              | none => rfl
              | some kind => rfl
    · rw [if_neg room, parse_stops (by rw [← Bool.not_eq_true, starts]; omega)]
      rfl

end Scan

end Soshal.Telemetry
