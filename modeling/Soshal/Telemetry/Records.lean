import Soshal.Telemetry.EntryLayout
import Soshal.Telemetry.Header

/-! Records: how one is laid out, how it is read back, and where a call puts it. -/

set_option autoImplicit false

namespace Soshal.Telemetry

open Library.Memory
open Library.Fallible (ok_bind)
open Library.LittleEndian (Bytes leBytes leValue leValue_leBytes length_leBytes)

section Entry

variable {kind : RecordKind} {ts : UInt64} {payload : Bytes}

def padding (payload : Bytes) : Bytes := List.replicate (entryTotal payload - (entryHeader + payload.length)) 0

theorem entryBytes_eq (kind : RecordKind) (ts : UInt64) (payload : Bytes) :
    entryBytes kind ts payload = entryBody kind.toU8 ts payload ++ padding payload := by
  rw [padding, ← length_entryBody kind.toU8 ts payload]
  rfl

theorem length_entryBytes : (entryBytes kind ts payload).length = entryTotal payload := by
  have fits := le_entryTotal payload
  rw [entryBytes_eq, padding, List.length_append, List.length_replicate, length_entryBody]
  omega

theorem fromU8_toU8 (kind : RecordKind) : RecordKind.fromU8 kind.toU8 = some kind := by
  cases kind <;> rfl

theorem drop_entry (rest : Bytes) : (entryBytes kind ts payload ++ rest).drop (entryTotal payload) = rest :=
  List.drop_left' length_entryBytes

theorem entryBytes_total (short : payload.length ≤ entryMaxPayload) (rest : Bytes) :
    leValue (slice (entryBytes kind ts payload ++ rest) 0 4) = entryTotal payload := by
  rw [entryBytes_eq, List.append_assoc, leValue_total _ _ _ short]

theorem startsEntry_entry (short : payload.length ≤ entryMaxPayload) (rest : Bytes) :
    startsEntry (entryBytes kind ts payload ++ rest) = true ↔ payload.length ≠ entryMaxPayload := by
  have long := le_entryTotal payload
  have total : (entryBytes kind ts payload ++ rest).length = entryTotal payload + rest.length := by
    rw [List.length_append, length_entryBytes]
  rw [startsEntry_iff, entryBytes_total short, total]
  simp only [entryTotal, entryMaxTotal, entryHeader, entryMaxPayload] at *
  omega

theorem parse_entry (short : payload.length < entryMaxPayload) (rest : Bytes) :
    parse (entryBytes kind ts payload ++ rest) = (kind, ts, payload) :: parse rest := by
  have starts : startsEntry (entryBytes kind ts payload ++ rest) = true :=
    (startsEntry_entry short.le rest).mpr short.ne
  have long := le_entryTotal payload
  have bytes : (entryBytes kind ts payload ++ rest).length = entryTotal payload + rest.length := by
    rw [List.length_append, length_entryBytes]
  have stamp : UInt64.ofNat (leValue (slice (entryBytes kind ts payload ++ rest) 5 13)) = ts := by
    rw [entryBytes_eq, List.append_assoc, body_ts, leValue_leBytes ts.toNat_lt, UInt64.ofNat_toNat]
  have fields : leValue (slice (entryBytes kind ts payload ++ rest) 13 17) = payload.length ∧
      (entryBytes kind ts payload ++ rest)[4]? = some kind.toU8 ∧
        slice (entryBytes kind ts payload ++ rest) entryHeader (entryHeader + payload.length) = payload := by
    rw [entryBytes_eq, List.append_assoc]
    exact ⟨leValue_plen _ _ _ short.le, body_kind _ _ _ _, body_payload _ _ _ _⟩
  obtain ⟨plen, mark, content⟩ := fields
  rw [parse, dif_pos starts]
  dsimp only
  rw [entryBytes_total short.le, plen, stamp, mark, content, drop_entry, bytes, if_neg (by omega),
    Option.bind_some, fromU8_toU8]

theorem count_entry (short : payload.length < entryMaxPayload) (rest : Bytes) :
    count (entryBytes kind ts payload ++ rest) = count rest + 1 := by
  rw [count_starts ((startsEntry_entry short.le rest).mpr short.ne), entryBytes_total short.le, drop_entry]

end Entry

section Record

variable (o : Outside) {h d : Bytes} {hdr : HeaderView} {kind : RecordKind} {payload : Bytes} {ts : UInt64}

def cursorOf (hdr : HeaderView) : Nat := max hdr.head headerLen - headerLen

def appended (d : Bytes) (hdr : HeaderView) (entry : Bytes) : Bytes := put d (cursorOf hdr) entry

def wrapped (d : Bytes) (hdr : HeaderView) (entry : Bytes) : Bytes := put (put d (cursorOf hdr) [0, 0, 0, 0]) 0 entry

variable (size : h.length = headerLen) (data : 64 * 1024 ≤ d.length) (mapped : headerLen + d.length < 2 ^ 63)
  (valid : view o h d.length = .ok hdr) (unsealed : hdr.isSealed = false) (short : payload.length ≤ entryMaxPayload)
include size data mapped valid unsealed short

theorem recordBytes_append :
    recordBytes o (h ++ d) kind payload ts =
      if max hdr.head headerLen + entryTotal payload < 2 ^ 64 then
        if cursorOf hdr + entryTotal payload ≤ d.length then
          .ok (.ok (stamped o h 0 (max hdr.head headerLen + entryTotal payload) (min (hdr.len + entryTotal payload) d.length) ++
            appended d hdr (entryBytes kind ts payload)))
        else if cursorOf hdr + 4 ≤ d.length then
          .ok (.ok (stamped o h 0 (headerLen + entryTotal payload) d.length ++ wrapped d hdr (entryBytes kind ts payload)))
        else .error .outOfBounds
      else .error .overflow := by
  have header : headerLen = 4096 := rfl
  have total : (h ++ d).length = headerLen + d.length := by rw [List.length_append, size]
  have used : hdr.len ≤ d.length := (view_ok o valid).2
  have bytes := entryTotal_le payload
  have entry : (entryBytes kind ts payload).length = entryTotal payload := length_entryBytes
  have least := le_entryTotal payload
  simp only [entryHeader, entryMaxPayload] at bytes short least
  unfold recordBytes
  rw [if_neg (by rw [entryMaxPayload]; omega), readHeader_append o size, ok_bind, valid]
  dsimp only
  rw [unsealed, if_neg Bool.false_ne_true]
  by_cases small : max hdr.head headerLen + entryTotal payload < 2 ^ 64
  · rw [if_pos small, add_ok small, ok_bind, total, Nat.add_sub_cancel_left]
    by_cases fits : cursorOf hdr + entryTotal payload ≤ d.length
    · rw [if_pos fits]
      rw [cursorOf] at fits
      rw [if_neg (by omega), store_ok (by rw [total, entry]; omega), ok_bind, add_ok (by omega), ok_bind,
        put_append_right (by omega), writeHeaderState_append o size, ok_bind, appended, cursorOf, size]
      rfl
    · rw [if_neg fits]
      rw [cursorOf] at fits ⊢
      rw [if_pos (by omega), add_ok (by omega), ok_bind]
      by_cases room : max hdr.head headerLen - headerLen + 4 ≤ d.length
      · have marked : (put d (max hdr.head headerLen - headerLen) ([0, 0, 0, 0] : Bytes)).length = d.length := length_put room
        rw [if_pos room, store_ok (by rw [total]; simp only [List.length_cons, List.length_nil]; omega), ok_bind,
          put_append_right (by omega), size,
          store_ok (by rw [List.length_append, marked, entry, size]; omega), ok_bind, add_ok (by omega), ok_bind,
          put_append_right (by omega), size, Nat.sub_self, writeHeaderState_append o size, ok_bind, wrapped, cursorOf]
        rfl
      · rw [if_neg room, store, if_neg (by rw [total]; simp only [List.length_cons, List.length_nil]; omega)]
        rfl
  · rw [if_neg small, add, if_neg small]
    rfl

end Record

theorem clear_append (o : Outside) {h : Bytes} (size : h.length = headerLen) (d : Bytes) (flush : Except String Unit) :
    clear o (h ++ d) flush =
      .ok (flush.mapError ("flush recorder: " ++ ·), stamped o h 0 headerLen 0 ++ List.replicate d.length 0) := by
  have total : (h ++ d).length = headerLen + d.length := by rw [List.length_append, size]
  have data : (slice (h ++ d) headerLen (h ++ d).length).length = d.length := by
    rw [length_slice (by omega), total, Nat.add_sub_cancel_left]
  have wiped : put (h ++ d) headerLen (List.replicate d.length 0) = h ++ List.replicate d.length 0 := by
    rw [put_append_right (by omega), size, Nat.sub_self, put, List.take_zero, List.nil_append, Nat.zero_add,
      List.length_replicate, List.drop_length, List.append_nil]
  rw [clear, load_ok (by rw [total]; exact Nat.le_add_right _ _) (Nat.le_refl _), ok_bind, data,
    store_ok (by rw [List.length_replicate, total]), ok_bind, wiped, writeHeaderState_append o size, ok_bind]
  rfl

end Soshal.Telemetry
