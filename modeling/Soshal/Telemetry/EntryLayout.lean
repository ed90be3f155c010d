import Soshal.Telemetry.Recorder

/-! The layout of one entry, which the recorder and the shared ring have in common.

The length of the entry with its padding, the kind, the time and the length of the
payload stand in front of the payload.
-/

set_option autoImplicit false

namespace Soshal.Telemetry

open Library.Memory
open Library.LittleEndian (Bytes leBytes leValue leValue_leBytes length_leBytes)

theorem entryTotal_le (payload : Bytes) : entryTotal payload ≤ entryHeader + payload.length + 3 := by
  rw [entryTotal]
  omega

theorem le_entryTotal (payload : Bytes) : entryHeader + payload.length ≤ entryTotal payload := by
  rw [entryTotal]
  omega

def entryBody (kind : UInt8) (ts : UInt64) (payload : Bytes) : Bytes :=
  leBytes 4 (entryTotal payload) ++ (kind :: (leBytes 8 ts.toNat ++ (leBytes 4 payload.length ++ payload)))

section Fields

variable (kind : UInt8) (ts : UInt64) (payload rest : Bytes)

theorem length_entryBody : (entryBody kind ts payload).length = entryHeader + payload.length := by
  simp only [entryBody, List.length_append, List.length_cons, length_leBytes, entryHeader]
  omega

theorem body_total : slice (entryBody kind ts payload ++ rest) 0 4 = leBytes 4 (entryTotal payload) := by
  rw [slice_append_left (by rw [length_entryBody, entryHeader]; omega), entryBody,
    slice_append_left (by rw [length_leBytes]),
    slice, List.drop_zero, List.take_of_length_le (by rw [length_leBytes])]

theorem body_kind : (entryBody kind ts payload ++ rest)[4]? = some kind := by
  rw [List.getElem?_append_left (by rw [length_entryBody, entryHeader]; omega), entryBody,
    List.getElem?_append_right (by rw [length_leBytes]), length_leBytes]
  rfl

theorem slice_fields {start stop : Nat} (behind : 5 ≤ start) (inside : stop ≤ entryHeader + payload.length) :
    slice (entryBody kind ts payload ++ rest) start stop =
      slice (leBytes 8 ts.toNat ++ (leBytes 4 payload.length ++ payload)) (start - 5) (stop - 5) := by
  have split : entryBody kind ts payload = (leBytes 4 (entryTotal payload) ++ [kind]) ++
      (leBytes 8 ts.toNat ++ (leBytes 4 payload.length ++ payload)) := by
    rw [entryBody, List.append_assoc]
    rfl
  have front : (leBytes 4 (entryTotal payload) ++ [kind]).length = 5 := by
    rw [List.length_append, length_leBytes, List.length_singleton]
  rw [slice_append_left (by rw [length_entryBody]; exact inside), split, slice_append_right (by omega), front]

theorem body_ts : slice (entryBody kind ts payload ++ rest) 5 13 = leBytes 8 ts.toNat := by
  rw [slice_fields _ _ _ _ (by omega) (by rw [entryHeader]; omega), slice_append_left (by rw [length_leBytes]), slice,
    List.drop_zero, List.take_of_length_le (by rw [length_leBytes])]

theorem body_plen : slice (entryBody kind ts payload ++ rest) 13 17 = leBytes 4 payload.length := by
  rw [slice_fields _ _ _ _ (by omega) (by rw [entryHeader]; omega), slice_append_right (by rw [length_leBytes]),
    length_leBytes, slice_append_left (by rw [length_leBytes]), slice, List.drop_zero,
    List.take_of_length_le (by rw [length_leBytes])]

theorem body_payload :
    slice (entryBody kind ts payload ++ rest) entryHeader (entryHeader + payload.length) = payload := by
  have header : entryHeader = 17 := rfl
  rw [slice_fields _ _ _ _ (by omega) (by omega), slice_append_right (by rw [length_leBytes]; omega), length_leBytes,
    slice_append_right (by rw [length_leBytes]; omega), length_leBytes, slice, header, List.drop_zero,
    List.take_of_length_le (by omega)]

variable {payload} (short : payload.length ≤ entryMaxPayload)
include short

theorem leValue_total : leValue (slice (entryBody kind ts payload ++ rest) 0 4) = entryTotal payload := by
  have small := entryTotal_le payload
  rw [entryMaxPayload] at short
  rw [entryHeader] at small
  rw [body_total, leValue_leBytes (by omega)]

theorem leValue_plen : leValue (slice (entryBody kind ts payload ++ rest) 13 17) = payload.length := by
  rw [entryMaxPayload] at short
  rw [body_plen, leValue_leBytes (by omega)]

end Fields

end Soshal.Telemetry
