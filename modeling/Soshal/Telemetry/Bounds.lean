import Soshal.Library.Runs
import Soshal.Telemetry.Records

/-! The bounds of the recorder's map, over every run of the host.

The host opens the recorder on a file that may hold anything, calls it, and opens it
again with another capacity. The write cursor is taken from the header as it stands:
nothing relates it to the map, so a record is in bounds exactly when the cursor leaves
room for it, or for the four bytes that mark the end of the ring.
-/

set_option autoImplicit false

namespace Soshal.Telemetry

open Library.Memory
open Library.Fallible (ok_bind bind_eq_ok map_eq_ok bind_pure_succeeds)
open Library.Runs (Throughout)
open Library.LittleEndian (Bytes leBytes leValue leValue_leBytes length_leBytes)

variable (o : Outside)

/-- The file, and the key of the recorder that has it mapped. -/
structure Host where
  file : Bytes
  recorder : Option (Vector UInt8 32)

inductive HostCall where
  | init (capacityBytes : UInt64) (os : Opening)
  | record (kind : RecordKind) (msg : Bytes) (ts : UInt64)
  | markCrash (reason : Bytes) (ts : UInt64) (flush : Except String Unit)
  | clear (flush : Except String Unit)
  | dumpEncrypted (flush : Except String Unit) (nonce : Except String (Vector UInt8 12))
  | info
  | readAll

def use (file : Bytes) (key : Vector UInt8 32) : HostCall → Except Fault Bytes
  | .init _ _ => .ok file
  | .record kind msg ts => return match ← recordBytes o file kind msg ts with
      | .error _ => file
      | .ok file => file
  | .markCrash reason ts flush => return (← markCrash o file reason ts flush).2
  | .clear flush => return (← clear o file flush).2
  | .dumpEncrypted flush nonce => do
    let _ ← dumpEncrypted o file key flush nonce
    return file
  | .info => do
    let _ ← info o file
    return file
  | .readAll => do
    let _ ← readAll o file
    return file

/-- A new `init` drops the recorder that was open. -/
def perform (host : Host) : HostCall → Except Fault Host
  | .init capacityBytes os => do
    let (answer, file) ← init o host.file capacityBytes.toNat os
    return ⟨file, answer.toOption⟩
  | call =>
    match host.recorder with
    | none => .ok host
    | some key => return ⟨← use o host.file key call, some key⟩

/-- A fault ends the process: the recorder is gone, and the file stays. -/
def Host.step (host : Host) (call : HostCall) : Host :=
  match perform o host call with
  | .ok after => after
  | .error _ => ⟨host.file, none⟩

/-- The call does not fault, and a crash mark on an open recorder that is not sealed leaves it sealed. -/
def Safe (host : Host) (call : HostCall) : Prop :=
  ∃ after, perform o host call = .ok after ∧ ∀ reason ts flush, call = .markCrash reason ts flush →
    host.recorder ≠ none → isSealed o host.file = .ok false → isSealed o after.file = .ok true

/-- The cursor leaves room for an entry, or for the mark of the end of the ring. -/
def Room (m : Bytes) (hdr : HeaderView) (payload : Bytes) : Prop :=
  max hdr.head headerLen + entryTotal payload < 2 ^ 64 ∧
    (max hdr.head headerLen + entryTotal payload ≤ m.length ∨ max hdr.head headerLen + 4 ≤ m.length)

def RecordSound (m payload : Bytes) : Prop :=
  ∀ hdr, readHeader o m = .ok (.ok hdr) → hdr.isSealed = false → payload.length ≤ entryMaxPayload → Room m hdr payload

def SealSound (m reason : Bytes) : Prop :=
  ∀ hdr, readHeader o m = .ok (.ok hdr) → hdr.isSealed = false → reason.length ≤ entryMaxPayload ∧ Room m hdr reason

/-- The header and the capacity fit in the address space; an open recorder has room for its next record; and the reason
of a crash is not longer than a payload may be. -/
def Sound (host : Host) : HostCall → Prop
  | .init capacityBytes os => os.opens = .ok () → headerLen + max capacityBytes.toNat (64 * 1024) < 2 ^ 64
  | .record _ msg _ => host.recorder ≠ none → RecordSound o host.file msg
  | .markCrash reason _ _ => host.recorder ≠ none → SealSound o host.file reason
  | _ => True

/-- A map with a valid header and at least the least capacity behind it. -/
structure Ready (m : Bytes) (hdr : HeaderView) : Prop where
  layout : ∃ h d, m = h ++ d ∧ h.length = headerLen ∧ 64 * 1024 ≤ d.length ∧ headerLen + d.length < 2 ^ 63 ∧
    view o h d.length = .ok hdr

variable {o}

theorem ready_stamped {h d : Bytes} {mark : UInt8} {head len : Nat} (size : h.length = headerLen)
    (magic : slice h 0 8 = recorderMagic) (data : 64 * 1024 ≤ d.length) (mapped : headerLen + d.length < 2 ^ 63)
    (small : head < 2 ^ 64) (smallLen : len < 2 ^ 64) :
    Ready o (stamped o h mark head len ++ d) ⟨head, min len d.length, mark != 0⟩ :=
  ⟨_, d, rfl, length_stamped o size mark head len, data, mapped, view_stamped o size magic small smallLen d.length⟩

section Ready

variable {m : Bytes} {hdr : HeaderView} (ready : Ready o m hdr)
include ready

theorem Ready.header : readHeader o m = .ok (.ok hdr) := by
  obtain ⟨h, d, rfl, size, -, -, valid⟩ := ready
  rw [readHeader_append o size, valid]

theorem Ready.isSealed : isSealed o m = .ok hdr.isSealed := by
  rw [Telemetry.isSealed, ready.header, ok_bind]
  rfl

theorem Ready.record_refused (kind : RecordKind) {payload : Bytes} (ts : UInt64)
    (refused : hdr.isSealed = true ∨ ¬ payload.length ≤ entryMaxPayload) :
    ∃ text, recordBytes o m kind payload ts = .ok (.error text) := by
  unfold recordBytes
  by_cases long : payload.length > entryMaxPayload
  · exact ⟨_, if_pos long⟩
  · have closed : hdr.isSealed = true := refused.resolve_right (not_not.mpr (not_lt.mp long))
    refine ⟨"recorder sealed", ?_⟩
    rw [if_neg long, ready.header, ok_bind]
    dsimp only
    rw [closed, if_pos rfl]
    rfl

section Accepted

variable (unsealed : hdr.isSealed = false) {payload : Bytes} (short : payload.length ≤ entryMaxPayload)
include unsealed short

theorem Ready.record_ok (kind : RecordKind) (ts : UInt64) (room : Room m hdr payload) :
    ∃ after next, recordBytes o m kind payload ts = .ok (.ok after) ∧ Ready o after next ∧ next.isSealed = false := by
  obtain ⟨h, d, rfl, size, data, mapped, valid⟩ := ready
  have header : headerLen = 4096 := rfl
  have magic : slice h 0 8 = recorderMagic := (view_ok o valid).1
  have used : hdr.len ≤ d.length := (view_ok o valid).2
  have bytes := entryTotal_le payload
  have entry : (entryBytes kind ts payload).length = entryTotal payload := length_entryBytes
  simp only [entryHeader, entryMaxPayload] at bytes short
  obtain ⟨small, place⟩ := room
  rw [List.length_append, size] at place
  rw [recordBytes_append o size data mapped valid unsealed short, if_pos small]
  by_cases fits : cursorOf hdr + entryTotal payload ≤ d.length
  · have same : (appended d hdr (entryBytes kind ts payload)).length = d.length := length_put (by rw [entry]; exact fits)
    rw [if_pos fits]
    exact ⟨_, _, rfl, ready_stamped size magic (by omega) (by omega) small (by omega), rfl⟩
  · have mark : cursorOf hdr + 4 ≤ d.length := by
      rw [cursorOf] at fits ⊢
      omega
    have same : (wrapped d hdr (entryBytes kind ts payload)).length = d.length := by
      have marked : (put d (cursorOf hdr) ([0, 0, 0, 0] : Bytes)).length = d.length := length_put mark
      rw [wrapped, length_put (by rw [marked, entry]; omega), marked]
    rw [if_neg fits, if_pos mark]
    exact ⟨_, _, rfl, ready_stamped size magic (by omega) (by omega) (by omega) (by omega), rfl⟩

theorem Ready.record_faults (kind : RecordKind) (ts : UInt64) (crowded : ¬ Room m hdr payload) :
    ∃ fault, recordBytes o m kind payload ts = .error fault := by
  obtain ⟨h, d, rfl, size, data, mapped, valid⟩ := ready
  rw [recordBytes_append o size data mapped valid unsealed short]
  by_cases small : max hdr.head headerLen + entryTotal payload < 2 ^ 64
  · rw [Room, List.length_append, size] at crowded
    rw [if_pos small, cursorOf, if_neg (by omega), if_neg (by omega)]
    exact ⟨_, rfl⟩
  · rw [if_neg small]
    exact ⟨_, rfl⟩

end Accepted

theorem Ready.recordSound_iff {payload : Bytes} : RecordSound o m payload ↔
    (hdr.isSealed = false → payload.length ≤ entryMaxPayload → Room m hdr payload) := by
  constructor
  · exact fun sound => sound hdr ready.header
  · intro sound other read
    rw [ready.header] at read
    cases read
    exact sound

theorem Ready.sealSound_iff {reason : Bytes} : SealSound o m reason ↔
    (hdr.isSealed = false → reason.length ≤ entryMaxPayload ∧ Room m hdr reason) := by
  constructor
  · exact fun sound => sound hdr ready.header
  · intro sound other read
    rw [ready.header] at read
    cases read
    exact sound

theorem Ready.record_ready {kind : RecordKind} {payload after : Bytes} {ts : UInt64}
    (recorded : recordBytes o m kind payload ts = .ok (.ok after)) :
    ∃ next, Ready o after next ∧ hdr.isSealed = false ∧ payload.length ≤ entryMaxPayload := by
  by_cases refused : hdr.isSealed = true ∨ ¬ payload.length ≤ entryMaxPayload
  · obtain ⟨text, answer⟩ := ready.record_refused kind ts refused
    rw [answer] at recorded
    cases recorded
  · obtain ⟨unsealed, short⟩ := not_or.mp refused
    rw [Bool.not_eq_true] at unsealed
    rw [not_not] at short
    by_cases room : Room m hdr payload
    · obtain ⟨written, next, done, again, -⟩ := ready.record_ok unsealed short kind ts room
      rw [done] at recorded
      cases recorded
      exact ⟨next, again, unsealed, short⟩
    · obtain ⟨fault, done⟩ := ready.record_faults unsealed short kind ts room
      rw [done] at recorded
      cases recorded

theorem Ready.record_total_iff (kind : RecordKind) {payload : Bytes} (ts : UInt64) :
    (∃ answer, recordBytes o m kind payload ts = .ok answer) ↔ RecordSound o m payload := by
  rw [ready.recordSound_iff]
  constructor
  · rintro ⟨answer, recorded⟩ unsealed short
    by_contra crowded
    obtain ⟨fault, done⟩ := ready.record_faults unsealed short kind ts crowded
    rw [done] at recorded
    cases recorded
  · intro sound
    by_cases refused : hdr.isSealed = true ∨ ¬ payload.length ≤ entryMaxPayload
    · obtain ⟨text, answer⟩ := ready.record_refused kind ts refused
      exact ⟨_, answer⟩
    · obtain ⟨unsealed, short⟩ := not_or.mp refused
      rw [Bool.not_eq_true] at unsealed
      rw [not_not] at short
      obtain ⟨written, next, done, -⟩ := ready.record_ok unsealed short kind ts (sound unsealed short)
      exact ⟨_, done⟩

theorem Ready.seal (flush : Except String Unit) : ∃ after next, (do
      let mmap ← store m 24 [1]
      let mmap ← store mmap 25 (leBytes 8 hdr.head)
      let mmap ← store mmap 33 (leBytes 8 hdr.len)
      let covered ← load mmap 0 (headerLen - 8)
      let mmap ← store mmap (headerLen - 8) (o.checksum covered).toList
      return (flush.mapError ("flush recorder: " ++ ·), mmap)) =
        (.ok (flush.mapError ("flush recorder: " ++ ·), after) : Except Fault (Except String Unit × Bytes)) ∧
      Ready o after next ∧ next.isSealed = true := by
  obtain ⟨h, d, rfl, size, data, mapped, valid⟩ := ready
  have stamp := congrArg (· >>= fun mmap => pure (flush.mapError ("flush recorder: " ++ ·), mmap))
    (stamp_append o size d 1 hdr.head hdr.len)
  simp only [bind_assoc] at stamp
  have magic : slice h 0 8 = recorderMagic := (view_ok o valid).1
  have used : hdr.len ≤ d.length := (view_ok o valid).2
  exact ⟨_, _, stamp, ready_stamped size magic data mapped (view_head_lt o valid) (by omega), rfl⟩

/-- A crash mark whose record is refused changes nothing, and otherwise it seals the recorder. -/
theorem Ready.markCrash_eq (reason : Bytes) (ts : UInt64) (flush : Except String Unit) :
    (∃ fault, markCrash o m reason ts flush = .error fault ∧ recordBytes o m .crash reason ts = .error fault) ∨
      ∃ answer after next, markCrash o m reason ts flush = .ok (answer, after) ∧ Ready o after next ∧
        (∃ answer, recordBytes o m .crash reason ts = .ok answer) ∧
          (hdr.isSealed = false → (next.isSealed = true ↔ reason.length ≤ entryMaxPayload)) := by
  unfold markCrash
  cases recorded : recordBytes o m .crash reason ts with
  | error fault => exact .inl ⟨fault, rfl, rfl⟩
  | ok answer =>
    right
    rw [ok_bind]
    cases answer with
    | error text =>
      refine ⟨_, m, hdr, rfl, ready, ⟨_, rfl⟩, fun unsealed => ?_⟩
      rw [unsealed]
      refine ⟨fun marked => absurd marked Bool.false_ne_true, fun short => ?_⟩
      have sound := (ready.record_total_iff .crash ts).mp ⟨_, recorded⟩
      obtain ⟨written, next, done, -⟩ :=
        ready.record_ok unsealed short .crash ts (ready.recordSound_iff.mp sound unsealed short)
      rw [done] at recorded
      cases recorded
    | ok written =>
      obtain ⟨next, again, unsealed, short⟩ := ready.record_ready recorded
      obtain ⟨after, last, done, sealed, marked⟩ := again.seal flush
      dsimp only
      rw [again.header, ok_bind]
      exact ⟨_, after, last, done, sealed, ⟨_, rfl⟩, fun _ => ⟨fun _ => short, fun _ => marked⟩⟩

theorem Ready.clear_ok (flush : Except String Unit) :
    ∃ answer after next, clear o m flush = .ok (answer, after) ∧ Ready o after next := by
  obtain ⟨h, d, rfl, size, data, mapped, valid⟩ := ready
  have magic : slice h 0 8 = recorderMagic := (view_ok o valid).1
  have header : headerLen = 4096 := rfl
  have zeros : (List.replicate d.length (0 : UInt8)).length = d.length := List.length_replicate
  exact ⟨_, _, _, clear_append o size d flush, ready_stamped size magic (by omega) (by omega) (by omega) (by omega)⟩

theorem Ready.dumpEncrypted_ok (key : Vector UInt8 32) (flush : Except String Unit)
    (nonce : Except String (Vector UInt8 12)) :
    ∃ answer, dumpEncrypted o m key flush nonce = .ok answer := by
  unfold dumpEncrypted
  cases flush with
  | error text => exact ⟨_, rfl⟩
  | ok u =>
    simp only [Except.mapError]
    rw [ready.header, ok_bind]
    obtain ⟨h, d, rfl, size, data, mapped, valid⟩ := ready
    have used : hdr.len ≤ d.length := (view_ok o valid).2
    dsimp only
    rw [add_ok (by omega), ok_bind, add_ok (by omega), ok_bind,
      load_ok (by omega) (by rw [List.length_append, size]; omega), ok_bind]
    exact ⟨_, rfl⟩

end Ready

theorem openMap_total {h d : Bytes} (size : h.length = headerLen) (os : Opening) :
    ∃ after, openMap o (h ++ d) d.length os = .ok after := by
  cases maps : os.maps with
  | error text =>
    rw [openMap, maps]
    exact ⟨_, rfl⟩
  | ok u =>
    by_cases small : headerLen + d.length < 2 ^ 63
    · exact ⟨_, openMap_ok o size maps small⟩
    · rw [openMap, maps]
      simp only [Except.mapError]
      rw [if_pos (by rw [List.length_append, size]; exact not_lt.mp small)]
      exact ⟨_, rfl⟩

theorem resize_split (file : Bytes) (cap : Nat) :
    ∃ h d, resize file (headerLen + cap) = h ++ d ∧ h.length = headerLen ∧ d.length = cap := by
  refine ⟨_, _, (List.take_append_drop headerLen _).symm, ?_, ?_⟩
  · rw [List.length_take, length_resize]
    omega
  · rw [List.length_drop, length_resize]
    omega

theorem init_total_iff {file : Bytes} {capacityBytes : Nat} {os : Opening} :
    (∃ after, init o file capacityBytes os = .ok after) ↔
      (os.opens = .ok () → headerLen + max capacityBytes (64 * 1024) < 2 ^ 64) := by
  unfold init
  cases opens : os.opens with
  | error text =>
    constructor
    · exact fun _ open_ => nomatch open_
    · exact fun _ => ⟨_, rfl⟩
  | ok u =>
    simp only [Except.mapError]
    by_cases small : headerLen + max capacityBytes (64 * 1024) < 2 ^ 64
    · rw [add_ok small, ok_bind]
      refine ⟨fun _ _ => small, fun _ => ?_⟩
      cases os.measures with
      | error text => exact ⟨_, rfl⟩
      | ok u =>
        dsimp only
        split
        · exact ⟨_, rfl⟩
        · obtain ⟨h, d, split, size, rest⟩ := resize_split file (max capacityBytes (64 * 1024))
          rw [split, ← rest]
          exact openMap_total size os
    · rw [add, if_neg small]
      constructor
      · rintro ⟨after, done⟩
        cases done
      · exact fun fits => absurd (fits trivial) small

theorem init_ready {file m : Bytes} {capacityBytes : Nat} {os : Opening} {key : Vector UInt8 32}
    (opened : init o file capacityBytes os = .ok (.ok key, m)) : ∃ hdr, Ready o m hdr := by
  have mapped := init_opened o opened
  have least : 64 * 1024 ≤ max capacityBytes (64 * 1024) := Nat.le_max_right _ _
  generalize max capacityBytes (64 * 1024) = cap at mapped least
  obtain ⟨maps, small⟩ := openMap_opened o mapped
  obtain ⟨h, d, split, size, rfl⟩ := resize_split file cap
  rw [length_resize] at small
  rw [split, openMap_ok o size maps small] at mapped
  injection mapped with pair
  injection pair with _ same
  cases valid : view o h d.length with
  | ok hdr =>
    rw [valid] at same
    exact ⟨hdr, h, d, same.symm, size, least, small, valid⟩
  | error text =>
    rw [valid] at same
    have zeros : (List.replicate d.length (0 : UInt8)).length = d.length := List.length_replicate
    refine ⟨⟨headerLen, 0, false⟩, _, _, same.symm, length_stamped o (length_titled _) 0 headerLen 0, by omega,
      by omega, ?_⟩
    rw [zeros]
    exact view_fresh o (by omega)

def Inv (o : Outside) (host : Host) : Prop := host.recorder ≠ none → ∃ hdr, Ready o host.file hdr

theorem use_ready {file after : Bytes} {hdr : HeaderView} {key : Vector UInt8 32} {call : HostCall}
    (ready : Ready o file hdr) (used : use o file key call = .ok after) : ∃ next, Ready o after next := by
  cases call with
  | init capacityBytes os =>
    cases used
    exact ⟨hdr, ready⟩
  | record kind msg ts =>
    obtain ⟨answer, recorded, same⟩ := bind_eq_ok.mp used
    cases answer with
    | error text =>
      cases same
      exact ⟨hdr, ready⟩
    | ok written =>
      cases same
      obtain ⟨next, again, -⟩ := ready.record_ready recorded
      exact ⟨next, again⟩
  | markCrash reason ts flush =>
    obtain ⟨pair, marked, same⟩ := bind_eq_ok.mp used
    cases same
    rcases ready.markCrash_eq reason ts flush with ⟨fault, failed, -⟩ | ⟨answer, written, next, done, again, -⟩
    · rw [failed] at marked
      cases marked
    · rw [done] at marked
      cases marked
      exact ⟨next, again⟩
  | clear flush =>
    obtain ⟨answer, written, next, done, again⟩ := ready.clear_ok flush
    obtain ⟨pair, cleared, same⟩ := bind_eq_ok.mp used
    rw [done] at cleared
    cases cleared
    cases same
    exact ⟨next, again⟩
  | dumpEncrypted flush nonce =>
    obtain ⟨answer, -, same⟩ := bind_eq_ok.mp used
    cases same
    exact ⟨hdr, ready⟩
  | info =>
    obtain ⟨answer, -, same⟩ := bind_eq_ok.mp used
    cases same
    exact ⟨hdr, ready⟩
  | readAll =>
    obtain ⟨answer, -, same⟩ := bind_eq_ok.mp used
    cases same
    exact ⟨hdr, ready⟩

variable {host : Host} {call : HostCall} {key : Vector UInt8 32}

theorem perform_use (alive : host.recorder = some key) (other : ∀ capacityBytes os, call ≠ .init capacityBytes os) :
    perform o host call = (use o host.file key call).map fun file => ⟨file, some key⟩ := by
  cases call with
  | init capacityBytes os => exact absurd rfl (other capacityBytes os)
  | _ =>
    simp only [perform, alive]
    cases use o host.file key _ <;> rfl

theorem perform_closed (closed : host.recorder = none)
    (other : ∀ capacityBytes os, call ≠ .init capacityBytes os) : perform o host call = .ok host := by
  cases call with
  | init capacityBytes os => exact absurd rfl (other capacityBytes os)
  | _ => simp only [perform, closed]

theorem inv_step (call : HostCall) (inv : Inv o host) : Inv o (host.step o call) := by
  unfold Host.step
  cases done : perform o host call with
  | error fault => exact fun alive => absurd rfl alive
  | ok after =>
    intro alive
    by_cases opens : ∃ capacityBytes os, call = .init capacityBytes os
    · obtain ⟨capacityBytes, os, rfl⟩ := opens
      obtain ⟨⟨answer, file⟩, opened, same⟩ := bind_eq_ok.mp done
      cases same
      cases answer with
      | error text => exact absurd rfl alive
      | ok key => exact init_ready opened
    · have other : ∀ capacityBytes os, call ≠ .init capacityBytes os := fun c os same => opens ⟨c, os, same⟩
      cases recorder : host.recorder with
      | none =>
        rw [perform_closed recorder other] at done
        cases done
        exact inv alive
      | some key =>
        rw [perform_use recorder other] at done
        obtain ⟨file, used, rfl⟩ := map_eq_ok.mp done
        obtain ⟨hdr, ready⟩ := inv (by rw [recorder]; exact Option.some_ne_none key)
        exact use_ready ready used

theorem use_total_iff {file : Bytes} {hdr : HeaderView} (ready : Ready o file hdr) (key : Vector UInt8 32)
    (call : HostCall) :
    (∃ after, use o file key call = .ok after) ↔ match call with
      | .record _ msg _ => RecordSound o file msg
      | .markCrash reason _ _ => RecordSound o file reason
      | _ => True := by
  cases call with
  | init capacityBytes os => exact ⟨fun _ => trivial, fun _ => ⟨file, rfl⟩⟩
  | record kind msg ts => exact bind_pure_succeeds.trans (ready.record_total_iff kind ts)
  | markCrash reason ts flush =>
    refine bind_pure_succeeds.trans ?_
    dsimp only
    rw [← ready.record_total_iff .crash ts]
    rcases ready.markCrash_eq reason ts flush with ⟨fault, failed, same⟩ | ⟨answer, after, next, done, -, recorded, -⟩
    · simp [failed, same]
    · exact ⟨fun _ => recorded, fun _ => ⟨_, done⟩⟩
  | clear flush =>
    obtain ⟨answer, after, next, done, -⟩ := ready.clear_ok flush
    exact bind_pure_succeeds.trans ⟨fun _ => trivial, fun _ => ⟨_, done⟩⟩
  | dumpEncrypted flush nonce =>
    exact bind_pure_succeeds.trans ⟨fun _ => trivial, fun _ => ready.dumpEncrypted_ok key flush nonce⟩
  | info =>
    obtain ⟨h, d, rfl, size, -, mapped, -⟩ := ready
    exact bind_pure_succeeds.trans ⟨fun _ => trivial, fun _ => ⟨_, info_append o size mapped⟩⟩
  | readAll =>
    obtain ⟨h, d, rfl, size, -, mapped, -⟩ := ready
    exact bind_pure_succeeds.trans ⟨fun _ => trivial, fun _ => ⟨_, readAll_append o size mapped⟩⟩

theorem perform_total_iff (alive : host.recorder = some key)
    (other : ∀ capacityBytes os, call ≠ .init capacityBytes os) :
    (∃ after, perform o host call = .ok after) ↔ ∃ file, use o host.file key call = .ok file := by
  rw [perform_use alive other]
  cases use o host.file key call with
  | error fault => simp [Except.map]
  | ok file => exact ⟨fun _ => ⟨file, rfl⟩, fun _ => ⟨_, rfl⟩⟩

theorem safe_iff_total (other : ∀ reason ts flush, call ≠ .markCrash reason ts flush) :
    Safe o host call ↔ ∃ after, perform o host call = .ok after := by
  constructor
  · rintro ⟨after, done, -⟩
    exact ⟨after, done⟩
  · rintro ⟨after, done⟩
    exact ⟨after, done, fun reason ts flush same => absurd same (other reason ts flush)⟩

theorem safe_markCrash {hdr : HeaderView} (alive : host.recorder = some key)
    (ready : Ready o host.file hdr) (reason : Bytes) (ts : UInt64) (flush : Except String Unit) :
    Safe o host (.markCrash reason ts flush) ↔ SealSound o host.file reason := by
  have performed : perform o host (.markCrash reason ts flush) =
      (use o host.file key (.markCrash reason ts flush)).map fun file => ⟨file, some key⟩ :=
    perform_use alive fun _ _ same => nomatch same
  have open_ : host.recorder ≠ none := by rw [alive]; exact Option.some_ne_none key
  have sound_iff : (∃ answer, recordBytes o host.file .crash reason ts = .ok answer) ↔ RecordSound o host.file reason :=
    ready.record_total_iff .crash ts
  rw [ready.recordSound_iff] at sound_iff
  rw [ready.sealSound_iff]
  rcases ready.markCrash_eq reason ts flush with ⟨fault, failed, same⟩ | ⟨answer, after, next, done, again, recorded, seals⟩
  · rw [use, failed] at performed
    constructor
    · rintro ⟨after, done, -⟩
      rw [performed] at done
      cases done
    · intro sound
      obtain ⟨answer, wrong⟩ := sound_iff.mpr fun unsealed _ => (sound unsealed).2
      rw [same] at wrong
      cases wrong
  · rw [use, done] at performed
    constructor
    · rintro ⟨final, reached, marks⟩ unsealed
      rw [performed] at reached
      cases reached
      have marked := marks reason ts flush rfl open_ (by rw [ready.isSealed, unsealed])
      have short := (seals unsealed).mp (Except.ok.inj (again.isSealed.symm.trans marked))
      exact ⟨short, sound_iff.mp recorded unsealed short⟩
    · intro sound
      refine ⟨⟨after, some key⟩, performed, fun _ _ _ _ _ open_ => ?_⟩
      rw [ready.isSealed] at open_
      have unsealed : hdr.isSealed = false := Except.ok.inj open_
      rw [again.isSealed, (seals unsealed).mpr (sound unsealed).1]

theorem safe_init (capacityBytes : UInt64) (os : Opening) :
    Safe o host (.init capacityBytes os) ↔ Sound o host (.init capacityBytes os) := by
  refine (safe_iff_total ?_).trans (bind_pure_succeeds.trans init_total_iff)
  intro reason ts flush same
  cases same

theorem safe_closed (closed : host.recorder = none)
    (other : ∀ capacityBytes os, call ≠ .init capacityBytes os) : Safe o host call ∧ Sound o host call := by
  refine ⟨⟨host, perform_closed closed other, fun _ _ _ _ alive => absurd closed alive⟩, ?_⟩
  cases call with
  | init capacityBytes os => exact absurd rfl (other capacityBytes os)
  | record kind msg ts => exact fun alive => absurd closed alive
  | markCrash reason ts flush => exact fun alive => absurd closed alive
  | _ => trivial

theorem safe_open {hdr : HeaderView} (recorder : host.recorder = some key)
    (ready : Ready o host.file hdr) {call : HostCall} (other : ∀ capacityBytes os, call ≠ .init capacityBytes os) :
    Safe o host call ↔ Sound o host call := by
  have alive : host.recorder ≠ none := by rw [recorder]; exact Option.some_ne_none key
  cases call with
  | init capacityBytes os => exact absurd rfl (other capacityBytes os)
  | markCrash reason ts flush =>
    rw [safe_markCrash recorder ready]
    exact ⟨fun sound _ => sound, fun sound => sound alive⟩
  | record kind msg ts =>
    refine (safe_iff_total ?_).trans ((perform_total_iff recorder other).trans ((use_total_iff ready key _).trans ?_))
    · intro reason ts flush same
      cases same
    · exact ⟨fun sound _ => sound, fun sound => sound alive⟩
  | _ =>
    refine (safe_iff_total ?_).trans ((perform_total_iff recorder other).trans (use_total_iff ready key _))
    intro reason ts flush same
    cases same

theorem safe_iff_sound (call : HostCall) (inv : Inv o host) : Safe o host call ↔ Sound o host call := by
  by_cases opens : ∃ capacityBytes os, call = .init capacityBytes os
  · obtain ⟨capacityBytes, os, rfl⟩ := opens
    exact safe_init capacityBytes os
  · have other : ∀ capacityBytes os, call ≠ .init capacityBytes os := fun c os same => opens ⟨c, os, same⟩
    cases recorder : host.recorder with
    | none =>
      obtain ⟨safe, sound⟩ : Safe o host call ∧ Sound o host call := safe_closed recorder other
      exact ⟨fun _ => sound, fun _ => safe⟩
    | some key =>
      obtain ⟨hdr, ready⟩ := inv (by rw [recorder]; exact Option.some_ne_none key)
      exact safe_open recorder ready other

/-- In every run on every file each call is safe exactly when each call is sound. -/
theorem recorder_bounds_iff (o : Outside) (file : Bytes) (calls : List HostCall) :
    Throughout (Host.step o) (Safe o) ⟨file, none⟩ calls ↔ Throughout (Host.step o) (Sound o) ⟨file, none⟩ calls := by
  have initial : Inv o ⟨file, none⟩ := fun alive => absurd rfl alive
  constructor
  · exact Library.Runs.Throughout.strengthen (fun _ call inv => inv_step call inv)
      (fun _ call inv => (safe_iff_sound call inv).mp) initial
  · exact Library.Runs.Throughout.strengthen (fun _ call inv => inv_step call inv)
      (fun _ call inv => (safe_iff_sound call inv).mpr) initial

section Full

/-- A ring of `cap` bytes whose cursor stands behind the first `n` of them. -/
def Filled (o : Outside) (cap n : Nat) (m : Bytes) : Prop := m.length = headerLen + cap ∧ ∃ len, Ready o m ⟨headerLen + n, len, false⟩

theorem filled_fresh {cap : Nat} (data : 64 * 1024 ≤ cap) (small : headerLen + cap < 2 ^ 63) :
    Filled o cap 0 (fresh o cap) := by
  have zeros : (List.replicate cap (0 : UInt8)).length = cap := List.length_replicate
  have size := length_stamped o (length_titled cap) 0 headerLen 0
  refine ⟨by rw [fresh, List.length_append, size, zeros], 0, ⟨_, _, rfl, size, by omega, by omega, ?_⟩⟩
  rw [zeros]
  exact view_fresh o (by omega)

theorem Filled.record {cap n : Nat} {m payload : Bytes} (filled : Filled o cap n m) (kind : RecordKind)
    (short : payload.length ≤ entryMaxPayload) (ts : UInt64) (fits : n + entryTotal payload ≤ cap) :
    ∃ after, recordBytes o m kind payload ts = .ok (.ok after) ∧ Filled o cap (n + entryTotal payload) after := by
  obtain ⟨length, len, h, d, rfl, size, data, mapped, valid⟩ := filled
  rw [List.length_append, size, Nat.add_left_cancel_iff] at length
  subst length
  have magic : slice h 0 8 = recorderMagic := (view_ok o valid).1
  have entry : (entryBytes kind ts payload).length = entryTotal payload := length_entryBytes
  have cursor : cursorOf ⟨headerLen + n, len, false⟩ = n := by
    rw [cursorOf, Nat.max_eq_left (Nat.le_add_right _ _), Nat.add_sub_cancel_left]
  have same : (put d n (entryBytes kind ts payload)).length = d.length := length_put (by rw [entry]; exact fits)
  rw [recordBytes_append o size data mapped valid rfl short, cursor, appended, cursor,
    Nat.max_eq_left (Nat.le_add_right _ _), if_pos (by omega), if_pos fits]
  have ready : Ready o (stamped o h 0 (headerLen + n + entryTotal payload) (min (len + entryTotal payload) d.length) ++
      put d n (entryBytes kind ts payload)) ⟨headerLen + n + entryTotal payload, _, false⟩ :=
    ready_stamped size magic (by omega) (by omega) (by omega) (by omega)
  rw [Nat.add_assoc] at ready ⊢
  exact ⟨_, rfl, by rw [List.length_append, length_stamped o size, same], _, ready⟩

/-- A payload that fills 4096 bytes with its header and padding. -/
def page : Bytes := List.replicate 4079 0x61

theorem entryTotal_page : entryTotal page = 4096 := by
  rw [entryTotal, page, List.length_replicate]
  rfl

theorem short_page : page.length ≤ entryMaxPayload := by
  rw [page, List.length_replicate]
  decide

theorem Filled.pages {cap n : Nat} {m : Bytes} {key : Vector UInt8 32} (filled : Filled o cap n m) (count : Nat)
    (fits : n + 4096 * count ≤ cap) : ∃ after,
      Library.Runs.run (Host.step o) ⟨m, some key⟩ (List.replicate count (.record .app page 5)) = ⟨after, some key⟩ ∧
        Filled o cap (n + 4096 * count) after := by
  induction count generalizing n m with
  | zero => exact ⟨m, rfl, filled⟩
  | succ count ih =>
    have total := entryTotal_page
    have place : n + entryTotal page ≤ cap := by omega
    obtain ⟨next, recorded, more⟩ := filled.record .app short_page 5 place
    rw [total] at more
    obtain ⟨after, rest, full⟩ := ih more (by omega)
    have first : Host.step o ⟨m, some key⟩ (.record .app page 5) = ⟨next, some key⟩ := by
      simp only [Host.step, perform, use, recorded, ok_bind]
      rfl
    refine ⟨after, ?_, ?_⟩
    · rw [List.replicate_succ, Library.Runs.run, List.foldl_cons, first]
      exact rest
    · rwa [Nat.add_assoc, Nat.add_comm 4096, ← Nat.mul_succ] at full

/-- Sixteen records fill a new recorder to its end, and the next one is written outside of the map. -/
theorem full_ring_aborts : ¬ ∃ o : Outside, Throughout (Host.step o) (Safe o) ⟨[], none⟩
    (.init 0 ⟨.ok (), .ok (), .ok (), .ok (), .ok (Vector.replicate 32 7)⟩ :: List.replicate 17 (.record .app page 5)) := by
  rintro ⟨o, -, safe⟩
  have header : headerLen = 4096 := rfl
  have opened : Host.step o ⟨[], none⟩ (.init 0 ⟨.ok (), .ok (), .ok (), .ok (), .ok (Vector.replicate 32 7)⟩) =
      ⟨fresh o (64 * 1024), some (Vector.replicate 32 7)⟩ := by
    have done : init o [] (0 : UInt64).toNat ⟨.ok (), .ok (), .ok (), .ok (), .ok (Vector.replicate 32 7)⟩ = _ :=
      @init_succeeds o 0 (by omega) (Vector.replicate 32 7)
    rw [Host.step, perform, done]
    rfl
  rw [opened] at safe
  obtain ⟨m, filled, length, len, ready⟩ :=
    @Filled.pages o (64 * 1024) 0 _ (Vector.replicate 32 7) (filled_fresh (Nat.le_refl _) (by omega)) 16 (by omega)
  have last := Library.Runs.throughout_iff.mp safe (List.replicate 16 (.record .app page 5)) (.record .app page 5) []
    List.replicate_succ'
  rw [filled, safe_iff_sound _ fun _ => ⟨_, ready⟩] at last
  obtain ⟨-, place⟩ := last (Option.some_ne_none _) _ ready.header rfl short_page
  have total := entryTotal_page
  rw [length] at place
  dsimp only at place
  omega

end Full

end Soshal.Telemetry
