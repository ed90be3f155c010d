import Soshal.Library.Runs
import Soshal.Telemetry.Records

/-! The transcript that a recorder gives back.

As long as the bytes behind the newest record do not read as an entry, the scan finds
the records from the start of the ring to the cursor and stops there. A record that
starts the ring over leaves older ones behind it, and a payload of the greatest size
is longer with its padding than the scan accepts.
-/

set_option autoImplicit false

namespace Soshal.Telemetry

open Library.Memory
open Library.Fallible (ok_bind)
open Library.Runs (Always Throughout run)
open Library.LittleEndian (Bytes leBytes leValue leValue_leBytes length_leBytes)

variable (o : Outside)

/-- The map of a recorder, until the process is aborted, and the records accepted since it was cleared. -/
structure Tape where
  map : Option Bytes
  accepted : List (RecordKind × Bytes)

inductive TapeCall where
  | record (kind : RecordKind) (payload : Bytes) (ts : UInt64)
  | clear (flush : Except String Unit)

def Tape.record (t : Tape) (m : Bytes) (kind : RecordKind) (payload : Bytes) (ts : UInt64) : Tape :=
  match recordBytes o m kind payload ts with
  | .error _ => ⟨none, t.accepted⟩
  | .ok (.error _) => t
  | .ok (.ok m) => ⟨some m, t.accepted ++ [(kind, payload)]⟩

def Tape.clear (t : Tape) (m : Bytes) (flush : Except String Unit) : Tape :=
  match Telemetry.clear o m flush with
  | .error _ => ⟨none, t.accepted⟩
  | .ok (_, m) => ⟨some m, []⟩

def Tape.step (t : Tape) (call : TapeCall) : Tape :=
  match t.map, call with
  | none, _ => t
  | some m, .record kind payload ts => t.record o m kind payload ts
  | some m, .clear flush => t.clear o m flush

/-- The records read are the last ones accepted, and there are as many as the recorder says. -/
def Faithful (t : Tape) : Prop :=
  ∃ m entries i, t.map = some m ∧ readAll o m = .ok (.ok entries) ∧ info o m = .ok (.ok i) ∧ i.entries = entries.length ∧
    (entries.map fun entry => (entry.1, entry.2.2)) <:+ t.accepted ∧ (t.accepted ≠ [] → entries ≠ [])

/-- A record that is accepted has less than the greatest payload, and the word behind it, among the bytes that count
as valid then, is not the length of an entry that lies in them. When the ring starts over, the zero word of the old
cursor lies in the map. -/
def Tidy (m payload : Bytes) : Prop :=
  payload.length ≤ entryMaxPayload → ∀ hdr, readHeader o m = .ok (.ok hdr) → hdr.isSealed = false →
    payload.length < entryMaxPayload ∧
      if max hdr.head headerLen + entryTotal payload ≤ m.length then
        startsEntry (slice m (max hdr.head headerLen + entryTotal payload)
          (headerLen + min (hdr.len + entryTotal payload) (m.length - headerLen))) = false
      else max hdr.head headerLen + 4 ≤ m.length ∧
        startsEntry (slice (put m (max hdr.head headerLen) [0, 0, 0, 0]) (headerLen + entryTotal payload) m.length) = false

def TidyCall (t : Tape) : TapeCall → Prop
  | .record _ payload _ => ∀ m, t.map = some m → Tidy o m payload
  | .clear _ => True

def entriesBytes (entries : List Entry) : Bytes :=
  entries.flatMap fun entry => entryBytes entry.1 entry.2.1 entry.2.2

theorem parse_entries {entries : List Entry}
    (short : ∀ entry ∈ entries, entry.2.2.length < entryMaxPayload) (rest : Bytes) :
    parse (entriesBytes entries ++ rest) = entries ++ parse rest := by
  induction entries with
  | nil => rfl
  | cons entry entries ih =>
    rw [entriesBytes, List.flatMap_cons, List.append_assoc, parse_entry (short entry List.mem_cons_self)]
    exact congrArg (entry :: ·) (ih fun other member => short other (List.mem_cons_of_mem _ member))

theorem count_entries {entries : List Entry}
    (short : ∀ entry ∈ entries, entry.2.2.length < entryMaxPayload) (rest : Bytes) :
    count (entriesBytes entries ++ rest) = entries.length + count rest := by
  induction entries with
  | nil => exact (Nat.zero_add _).symm
  | cons entry entries ih =>
    have later := ih fun other member => short other (List.mem_cons_of_mem _ member)
    rw [entriesBytes, List.flatMap_cons, List.append_assoc, count_entry (short entry List.mem_cons_self),
      List.length_cons]
    rw [entriesBytes] at later
    omega

/-- A map whose data are the entries up to the cursor and bytes behind it that do not read as an entry. -/
structure Laid (m : Bytes) (entries : List Entry) : Prop where
  layout : ∃ h rest len, m = h ++ (entriesBytes entries ++ rest) ∧ h.length = headerLen ∧
    view o h (entriesBytes entries ++ rest).length = .ok ⟨headerLen + (entriesBytes entries).length, len, false⟩ ∧
      (entriesBytes entries).length ≤ len ∧ startsEntry (rest.take (len - (entriesBytes entries).length)) = false
  roomy : headerLen + 64 * 1024 ≤ m.length
  mapped : m.length < 2 ^ 63
  short : ∀ entry ∈ entries, entry.2.2.length < entryMaxPayload

theorem Laid.reads {m : Bytes} {entries : List Entry} (laid : Laid o m entries) :
    readAll o m = .ok (.ok entries) ∧ ∃ i, info o m = .ok (.ok i) ∧ i.entries = entries.length := by
  obtain ⟨⟨h, rest, len, rfl, size, valid, covers, stops⟩, -, mapped, short⟩ := laid
  rw [List.length_append, size] at mapped
  have window : (entriesBytes entries ++ rest).take len =
      entriesBytes entries ++ rest.take (len - (entriesBytes entries).length) := by
    rw [List.take_append, List.take_of_length_le covers]
  constructor
  · rw [readAll_append o size mapped, valid]
    simp only [Except.map]
    rw [window, parse_entries short, parse_stops stops, List.append_nil]
  · refine ⟨_, by rw [info_append o size mapped, valid]; rfl, ?_⟩
    dsimp only
    rw [window, count_entries short, count_stops stops, Nat.add_zero]

theorem put_at_end (front rest data : Bytes) :
    put (front ++ rest) front.length data = front ++ (data ++ rest.drop data.length) := by
  rw [put_append_right (le_refl _), Nat.sub_self, put, List.take_zero, List.nil_append, Nat.zero_add]

theorem put_at_start (m data : Bytes) : put m 0 data = data ++ m.drop data.length := by
  rw [put, List.take_zero, List.nil_append, Nat.zero_add]

theorem entriesBytes_snoc (entries : List Entry) (kind : RecordKind) (ts : UInt64)
    (payload : Bytes) :
    entriesBytes (entries ++ [(kind, ts, payload)]) = entriesBytes entries ++ entryBytes kind ts payload := by
  simp [entriesBytes]

theorem entriesBytes_single (kind : RecordKind) (ts : UInt64) (payload : Bytes) :
    entriesBytes [(kind, ts, payload)] = entryBytes kind ts payload := by
  simp [entriesBytes]

theorem laid_stamped {h rest : Bytes} {entries : List Entry} {len : Nat}
    (size : h.length = headerLen) (magic : slice h 0 8 = recorderMagic)
    (roomy : 64 * 1024 ≤ (entriesBytes entries ++ rest).length)
    (mapped : headerLen + (entriesBytes entries ++ rest).length < 2 ^ 63)
    (short : ∀ entry ∈ entries, entry.2.2.length < entryMaxPayload) (covers : (entriesBytes entries).length ≤ len)
    (inside : len ≤ (entriesBytes entries ++ rest).length)
    (stops : startsEntry (rest.take (len - (entriesBytes entries).length)) = false) :
    Laid o (stamped o h 0 (headerLen + (entriesBytes entries).length) len ++ (entriesBytes entries ++ rest)) entries := by
  have full := length_stamped o size 0 (headerLen + (entriesBytes entries).length) len
  refine ⟨⟨_, rest, len, rfl, full, ?_, covers, stops⟩, ?_, ?_, short⟩
  · rw [view_stamped o size magic (by omega) (by omega), Nat.min_eq_left inside]
    rfl
  · rw [List.length_append, full]
    omega
  · rw [List.length_append, full]
    exact mapped

section Record

variable {h rest : Bytes} {entries : List Entry} {len : Nat} {kind : RecordKind} {payload : Bytes}
  {ts : UInt64} (size : h.length = headerLen) (magic : slice h 0 8 = recorderMagic)
  (roomy : 64 * 1024 ≤ (entriesBytes entries ++ rest).length)
  (mapped : headerLen + (entriesBytes entries ++ rest).length < 2 ^ 63)
  (shorts : ∀ entry ∈ entries, entry.2.2.length < entryMaxPayload) (short : payload.length < entryMaxPayload)
include size magic roomy mapped short

include shorts in
theorem laid_append (covers : (entriesBytes entries).length ≤ len)
    (fits : (entriesBytes entries).length + entryTotal payload ≤ (entriesBytes entries ++ rest).length)
    (stops : startsEntry (slice rest (entryTotal payload) (min (len + entryTotal payload)
      (entriesBytes entries ++ rest).length - (entriesBytes entries).length)) = false) :
    Laid o (stamped o h 0 (headerLen + (entriesBytes entries).length + entryTotal payload)
        (min (len + entryTotal payload) (entriesBytes entries ++ rest).length) ++
          put (entriesBytes entries ++ rest) (entriesBytes entries).length (entryBytes kind ts payload))
      (entries ++ [(kind, ts, payload)]) := by
  have entry : (entryBytes kind ts payload).length = entryTotal payload := length_entryBytes
  have grown : (entriesBytes (entries ++ [(kind, ts, payload)])).length =
      (entriesBytes entries).length + entryTotal payload := by
    rw [entriesBytes_snoc, List.length_append, entry]
  have split : (entriesBytes entries ++ rest).length = (entriesBytes entries).length + rest.length := List.length_append
  have data : put (entriesBytes entries ++ rest) (entriesBytes entries).length (entryBytes kind ts payload) =
      entriesBytes (entries ++ [(kind, ts, payload)]) ++ rest.drop (entryTotal payload) := by
    rw [put_at_end, entriesBytes_snoc, List.append_assoc, entry]
  have kept : (entriesBytes (entries ++ [(kind, ts, payload)]) ++ rest.drop (entryTotal payload)).length =
      (entriesBytes entries ++ rest).length := by
    rw [List.length_append, grown, List.length_drop]
    omega
  rw [data, Nat.add_assoc, ← grown]
  refine laid_stamped o size magic (by omega) (by omega) ?_ (by omega) (by omega) ?_
  · intro other member
    rcases List.mem_append.mp member with old | new
    · exact shorts other old
    · rw [List.mem_singleton.mp new]
      exact short
  · rw [grown]
    rw [slice] at stops
    rwa [← Nat.sub_sub]

theorem laid_wrap (start : entryTotal payload ≤ (entriesBytes entries ++ rest).length) {marked : Bytes}
    (same : marked.length = (entriesBytes entries ++ rest).length)
    (stops : startsEntry (marked.drop (entryTotal payload)) = false) :
    Laid o (stamped o h 0 (headerLen + entryTotal payload) (entriesBytes entries ++ rest).length ++
      put marked 0 (entryBytes kind ts payload)) [(kind, ts, payload)] := by
  have entry : (entryBytes kind ts payload).length = entryTotal payload := length_entryBytes
  have only : (entriesBytes [(kind, ts, payload)]).length = entryTotal payload := by rw [entriesBytes_single, entry]
  have data : put marked 0 (entryBytes kind ts payload) =
      entriesBytes [(kind, ts, payload)] ++ marked.drop (entryTotal payload) := by
    rw [put_at_start, entriesBytes_single, entry]
  have kept : (entriesBytes [(kind, ts, payload)] ++ marked.drop (entryTotal payload)).length =
      (entriesBytes entries ++ rest).length := by
    rw [List.length_append, only, List.length_drop]
    omega
  have laid : Laid o (stamped o h 0 (headerLen + (entriesBytes [(kind, ts, payload)]).length)
      (entriesBytes entries ++ rest).length ++ (entriesBytes [(kind, ts, payload)] ++ marked.drop (entryTotal payload)))
        [(kind, ts, payload)] := by
    refine laid_stamped o size magic (by omega) (by omega) ?_ (by omega) (by omega) ?_
    · intro other member
      rw [List.mem_singleton.mp member]
      exact short
    · rw [only, List.take_of_length_le]
      · exact stops
      · rw [List.length_drop]
        omega
  rw [only] at laid
  rwa [data]

end Record

/-- A tidy record that is short enough is accepted, and lies behind the entries or alone at the start. -/
theorem Laid.record {m : Bytes} {entries : List Entry} (laid : Laid o m entries)
    (kind : RecordKind) {payload : Bytes} (ts : UInt64) (short : payload.length ≤ entryMaxPayload)
    (tidy : Tidy o m payload) :
    ∃ after, recordBytes o m kind payload ts = .ok (.ok after) ∧
      (Laid o after (entries ++ [(kind, ts, payload)]) ∨ Laid o after [(kind, ts, payload)]) := by
  obtain ⟨⟨h, rest, len, rfl, size, valid, covers, -⟩, roomy, mapped, shorts⟩ := laid
  have magic : slice h 0 8 = recorderMagic := (view_ok o valid).1
  have inside : len ≤ (entriesBytes entries ++ rest).length := (view_ok o valid).2
  have total : (h ++ (entriesBytes entries ++ rest)).length = headerLen + (entriesBytes entries ++ rest).length := by
    rw [List.length_append, size]
  have bytes := entryTotal_le payload
  have header : readHeader o (h ++ (entriesBytes entries ++ rest)) =
      .ok (.ok ⟨headerLen + (entriesBytes entries).length, len, false⟩) := by
    rw [readHeader_append o size, valid]
  obtain ⟨less, behind⟩ := tidy short _ header rfl
  have cursor : max (headerLen + (entriesBytes entries).length) headerLen = headerLen + (entriesBytes entries).length :=
    Nat.max_eq_left (Nat.le_add_right _ _)
  have place : cursorOf ⟨headerLen + (entriesBytes entries).length, len, false⟩ = (entriesBytes entries).length := by
    rw [cursorOf, cursor, Nat.add_sub_cancel_left]
  rw [recordBytes_append o size (by omega) (by omega) valid rfl short, place]
  simp only [cursor, total] at behind ⊢
  simp only [entryHeader, entryMaxPayload] at bytes short
  have sizes : headerLen = 4096 := rfl
  rw [if_pos (by omega)]
  by_cases fits : (entriesBytes entries).length + entryTotal payload ≤ (entriesBytes entries ++ rest).length
  · rw [if_pos fits]
    rw [if_pos (by omega)] at behind
    refine ⟨_, rfl, .inl ?_⟩
    rw [appended, place]
    refine laid_append o size magic (by omega) (by omega) shorts less covers fits ?_
    rw [slice_append_right (by omega), slice_append_right (by omega), size, Nat.add_sub_cancel_left headerLen,
      Nat.add_sub_cancel_left headerLen] at behind
    convert behind using 3
    omega
  · rw [if_neg fits]
    rw [if_neg (by omega)] at behind
    obtain ⟨room, stops⟩ := behind
    rw [if_pos (by omega)]
    refine ⟨_, rfl, .inr ?_⟩
    rw [wrapped, place]
    refine laid_wrap o size magic (by omega) (by omega) less (by omega) (length_put (by simp only [List.length_cons, List.length_nil]; omega)) ?_
    have marked : (put (entriesBytes entries ++ rest) (entriesBytes entries).length ([0, 0, 0, 0] : Bytes)).length =
        (entriesBytes entries ++ rest).length := length_put (by simp only [List.length_cons, List.length_nil]; omega)
    rw [put_append_right (by omega), size, Nat.add_sub_cancel_left, slice_append_right (by omega), size,
      Nat.add_sub_cancel_left, Nat.add_sub_cancel_left, slice, List.take_of_length_le (by rw [List.length_drop]; omega)] at stops
    exact stops

theorem laid_nil {h rest : Bytes} (size : h.length = headerLen) (magic : slice h 0 8 = recorderMagic)
    (roomy : 64 * 1024 ≤ rest.length) (mapped : headerLen + rest.length < 2 ^ 63) :
    Laid o (stamped o h 0 headerLen 0 ++ rest) [] := by
  have none : entriesBytes [] = [] := rfl
  have laid : Laid o (stamped o h 0 (headerLen + (entriesBytes []).length) 0 ++ (entriesBytes [] ++ rest)) [] := by
    refine laid_stamped o size magic ?_ ?_ (fun _ member => absurd member List.not_mem_nil) ?_ (Nat.zero_le _) ?_
    · rwa [none, List.nil_append]
    · rwa [none, List.nil_append]
    · rw [none, List.length_nil]
    · rw [Nat.zero_sub, List.take_zero]
      decide
  rwa [none, List.length_nil, Nat.add_zero, List.nil_append] at laid

theorem Laid.clear {m : Bytes} {entries : List Entry} (laid : Laid o m entries)
    (flush : Except String Unit) :
    ∃ answer after, Telemetry.clear o m flush = .ok (answer, after) ∧ Laid o after [] := by
  obtain ⟨⟨h, rest, len, rfl, size, valid, covers, -⟩, roomy, mapped, -⟩ := laid
  have magic : slice h 0 8 = recorderMagic := (view_ok o valid).1
  rw [List.length_append, size] at roomy mapped
  generalize entriesBytes entries ++ rest = d at roomy mapped
  refine ⟨_, _, clear_append o size d flush, laid_nil o size magic ?_ ?_⟩
  · rw [List.length_replicate]
    exact Nat.le_of_add_le_add_left roomy
  · rw [List.length_replicate]
    exact mapped

theorem laid_init {capacityBytes : Nat} {os : Opening} {key : Vector UInt8 32} {m : Bytes}
    (opened : init o [] capacityBytes os = .ok (.ok key, m)) : Laid o m [] := by
  obtain ⟨small, rfl⟩ := init_new o opened
  refine laid_nil o (length_titled _) (titled_magic _) ?_ ?_
  · rw [List.length_replicate]
    exact Nat.le_max_right _ _
  · rw [List.length_replicate]
    exact small

theorem Laid.faithful {t : Tape} {m : Bytes} {entries : List Entry} (here : t.map = some m)
    (laid : Laid o m entries) (last : (entries.map fun entry => (entry.1, entry.2.2)) <:+ t.accepted)
    (found : t.accepted ≠ [] → entries ≠ []) : Faithful o t := by
  obtain ⟨read, i, told, same⟩ := laid.reads
  exact ⟨m, entries, i, here, read, told, same, last, found⟩

/-- The map is laid out with the last records that were accepted. -/
def Kept (t : Tape) : Prop :=
  ∃ m entries, t.map = some m ∧ Laid o m entries ∧ (entries.map fun entry => (entry.1, entry.2.2)) <:+ t.accepted ∧
    (t.accepted ≠ [] → entries ≠ [])

theorem kept_step {t : Tape} {call : TapeCall} (kept : Kept o t) (tidy : TidyCall o t call) :
    Kept o (t.step o call) := by
  obtain ⟨m, entries, here, laid, last, found⟩ := kept
  cases call with
  | clear flush =>
    obtain ⟨answer, after, done, wiped⟩ := laid.clear o flush
    have cleared : t.step o (.clear flush) = ⟨.some after, []⟩ := by simp only [Tape.step, here, Tape.clear, done]
    rw [cleared]
    exact ⟨after, [], rfl, wiped, List.suffix_refl _, fun nonempty => absurd rfl nonempty⟩
  | record kind payload ts =>
    by_cases short : payload.length ≤ entryMaxPayload
    · obtain ⟨after, done, grown⟩ := laid.record o kind ts short (tidy m here)
      have recorded : t.step o (.record kind payload ts) = ⟨.some after, t.accepted ++ [(kind, payload)]⟩ := by
        simp only [Tape.step, here, Tape.record, done]
      rw [recorded]
      rcases grown with behind | alone
      · refine ⟨after, _, rfl, behind, ?_, fun _ => by simp⟩
        obtain ⟨older, whole⟩ := last
        exact ⟨older, by rw [← whole]; simp⟩
      · exact ⟨after, _, rfl, alone, List.suffix_append _ _, fun _ => by simp⟩
    · have refused : t.step o (.record kind payload ts) = t := by
        simp only [Tape.step, here, Tape.record, recordBytes, if_pos (not_le.mp short)]
      rw [refused]
      exact ⟨m, entries, here, laid, last, found⟩

/-- In every run of tidy calls on a new recorder the transcript is faithful in every state. -/
theorem transcript_faithful {capacityBytes : Nat} {os : Opening} {key : Vector UInt8 32} {m : Bytes}
    (opened : init o [] capacityBytes os = .ok (.ok key, m)) {calls : List TapeCall}
    (tidy : Throughout (Tape.step o) (TidyCall o) ⟨some m, []⟩ calls) :
    Always (Tape.step o) (Faithful o) ⟨some m, []⟩ calls := by
  have kept : Always (Tape.step o) (Kept o) ⟨some m, []⟩ calls :=
    Library.Runs.always_of_throughout (fun _ _ kept tidy => kept_step o kept tidy)
      ⟨m, [], rfl, laid_init o opened, List.suffix_refl _, fun nonempty => absurd rfl nonempty⟩ tidy
  exact kept.imp fun _ ⟨_, _, here, laid, last, found⟩ => laid.faithful o here last found

theorem greatest_unread {cap : Nat} (roomy : 64 * 1024 ≤ cap) (small : headerLen + cap < 2 ^ 63) (kind : RecordKind)
    {payload : Bytes} (greatest : payload.length = entryMaxPayload) (ts : UInt64) :
    ¬ Faithful o (Tape.step o ⟨some (fresh o cap), []⟩ (.record kind payload ts)) := by
  have header : headerLen = 4096 := rfl
  have most : entryMaxPayload = 4096 := rfl
  have least : entryHeader = 17 := rfl
  have size := length_stamped o (length_titled cap) 0 headerLen 0
  have zeros : (List.replicate cap (0 : UInt8)).length = cap := List.length_replicate
  have valid := view_fresh o (by omega : headerLen + cap < 2 ^ 64)
  have magic := (view_ok o valid).1
  have total : entryTotal payload = 4116 := by rw [entryTotal, greatest]; rfl
  have recorded : recordBytes o (fresh o cap) kind payload ts =
      .ok (.ok (stamped o (stamped o (titled cap) 0 headerLen 0) 0 (headerLen + entryTotal payload) (entryTotal payload) ++
        put (List.replicate cap 0) 0 (entryBytes kind ts payload))) := by
    rw [fresh, recordBytes_append o size (by omega) (by omega) (by rw [zeros]; exact valid) rfl (by omega)]
    simp only [cursorOf, appended, max_self, Nat.sub_self, Nat.zero_add, zeros]
    rw [if_pos (by omega), if_pos (by omega), Nat.min_eq_left (by omega)]
  have unread : readAll o (stamped o (stamped o (titled cap) 0 headerLen 0) 0 (headerLen + entryTotal payload)
      (entryTotal payload) ++ put (List.replicate cap 0) 0 (entryBytes kind ts payload)) = .ok (.ok []) := by
    have entry : (entryBytes kind ts payload).length = entryTotal payload := length_entryBytes
    have behind : (put (List.replicate cap 0) 0 (entryBytes kind ts payload)).length = cap := by
      rw [length_put (by omega), zeros]
    have stops : startsEntry (entryBytes kind ts payload ++ []) = false := by
      rw [← Bool.not_eq_true, startsEntry_entry (by omega)]
      exact not_not.mpr greatest
    rw [readAll_append o (length_stamped o size _ _ _) (by omega), view_stamped o size magic (by omega) (by omega),
      behind, Nat.min_eq_left (by omega)]
    simp only [Except.map]
    rw [put_at_start, List.take_append_of_le_length (by omega), ← entry, List.take_length,
      ← List.append_nil (entryBytes kind ts payload), parse_stops stops]
  rintro ⟨m, entries, i, here, read, -, -, -, found⟩
  simp only [Tape.step, Tape.record, recorded] at here found
  injection here with same
  rw [← same, unread] at read
  injection read with read
  injection read with read
  exact found (by simp) read.symm

/-- The digests of the headers that the recorders below write, by the number of bytes that count as valid. -/
def headerDigests : List (Nat × Nat) :=
  [(0, 0x7dc361bdeb9d80b3), (4116, 0x7fc069abfb8a2c74), (4020, 0x6d33518d0b3aeee2), (8040, 0x6184450012a8c6a9),
    (12060, 0x8c27169b752f3578), (16080, 0xe7556177105220f8), (20100, 0x670dd36462778471),
    (24120, 0xa502381e1ff0742b), (28140, 0x90f72fb0ec2ddff2), (32160, 0x98f2a552b280b7af),
    (36180, 0xbd4779754c343f56), (40200, 0x54d4e2e3cefebde3), (44220, 0x84f5d3ccbc61086b),
    (48240, 0xf58cc30d759228ef), (52260, 0xe157d0ff9bf2297d), (56280, 0x9889bdda570fd07d),
    (60300, 0xa56161e920673c3c), (64320, 0x147be584fd118eae), (65536, 0xd40ff02838843b4b)]

def sampleOutside : Outside where
  checksum covered :=
    let digest := (headerDigests.lookup (leValue (slice covered 33 41))).getD 0
    .ofFn fun i => UInt8.ofNat (digest / 256 ^ (7 - i.val))
  encrypt _ _ plain := .ok plain

def sampleKey : Vector UInt8 32 := Vector.replicate 32 7

theorem sample_opened : init sampleOutside [] 0 ⟨.ok (), .ok (), .ok (), .ok (), .ok sampleKey⟩ =
    .ok (.ok sampleKey, fresh sampleOutside (64 * 1024)) :=
  @init_succeeds sampleOutside 0 (by have header : headerLen = 4096 := rfl; omega) sampleKey

/-- One record of 4096 bytes on a new recorder: it is accepted, and the transcript is empty. -/
theorem greatest_payload_lost :
    init sampleOutside [] 0 ⟨.ok (), .ok (), .ok (), .ok (), .ok sampleKey⟩ =
        .ok (.ok sampleKey, fresh sampleOutside (64 * 1024)) ∧
      ¬ Always (Tape.step sampleOutside) (Faithful sampleOutside) ⟨some (fresh sampleOutside (64 * 1024)), []⟩
        [.record .app (List.replicate 4096 0x61) 5] := by
  refine ⟨sample_opened, fun always => ?_⟩
  have header : headerLen = 4096 := rfl
  exact greatest_unread sampleOutside (Nat.le_refl _) (by omega) .app List.length_replicate 5 always.2

/-- A short record behind a ring that has not started over is tidy: no byte behind it counts as valid. -/
theorem tidy_behind {m payload : Bytes} (short : payload.length < entryMaxPayload)
    (unwrapped : ∀ hdr, readHeader o m = .ok (.ok hdr) → headerLen + hdr.len ≤ max hdr.head headerLen ∧
      max hdr.head headerLen + entryTotal payload ≤ m.length) : Tidy o m payload := by
  intro _ hdr read _
  obtain ⟨behind, fits⟩ := unwrapped hdr read
  refine ⟨short, ?_⟩
  rw [if_pos fits, slice, Nat.sub_eq_zero_of_le (by omega), List.take_zero]
  decide

/-- A short record that starts the ring over is tidy when it ends where no entry starts. -/
theorem tidy_around {m payload : Bytes} {n len : Nat} (short : payload.length < entryMaxPayload)
    (header : readHeader o m = .ok (.ok ⟨headerLen + n, len, false⟩)) (full : m.length < headerLen + n + entryTotal payload)
    (room : headerLen + n + 4 ≤ m.length)
    (stops : startsEntry (slice (put m (headerLen + n) [0, 0, 0, 0]) (headerLen + entryTotal payload) m.length) = false) :
    Tidy o m payload := by
  intro _ hdr read _
  rw [header] at read
  cases read
  rw [Nat.max_eq_left (Nat.le_add_right _ _), if_neg (Nat.not_le.mpr full)]
  exact ⟨short, room, stops⟩

section Unwrapped

variable {cap : Nat} {entries : List Entry} {m : Bytes}

def ringOf (cap : Nat) (entries : List Entry) : Bytes :=
  entriesBytes entries ++ List.replicate (cap - (entriesBytes entries).length) 0

/-- A ring that has not started over: behind its entries it has never been written. -/
def Unwrapped (cap : Nat) (entries : List Entry) (m : Bytes) : Prop :=
  ∃ h, m = h ++ ringOf cap entries ∧ h.length = headerLen ∧ (entriesBytes entries).length ≤ cap ∧
    view o h cap = .ok ⟨headerLen + (entriesBytes entries).length, (entriesBytes entries).length, false⟩

theorem length_ringOf (fits : (entriesBytes entries).length ≤ cap) : (ringOf cap entries).length = cap := by
  rw [ringOf, List.length_append, List.length_replicate]
  omega

theorem unwrapped_fresh (small : headerLen + cap < 2 ^ 64) : Unwrapped o cap [] (fresh o cap) :=
  ⟨_, rfl, length_stamped o (length_titled cap) 0 headerLen 0, Nat.zero_le cap, view_fresh o small⟩

variable (unwrapped : Unwrapped o cap entries m)
include unwrapped

theorem Unwrapped.header : readHeader o m =
    .ok (.ok ⟨headerLen + (entriesBytes entries).length, (entriesBytes entries).length, false⟩) := by
  obtain ⟨h, rfl, size, fits, valid⟩ := unwrapped
  rw [readHeader_append o size, length_ringOf fits, valid]

theorem Unwrapped.length : m.length = headerLen + cap := by
  obtain ⟨h, rfl, size, fits, -⟩ := unwrapped
  rw [List.length_append, length_ringOf fits, size]

variable {payload : Bytes} (short : payload.length < entryMaxPayload)
  (room : (entriesBytes entries).length + entryTotal payload ≤ cap)
include short room

theorem Unwrapped.tidy : Tidy o m payload := by
  refine tidy_behind o short fun hdr read => ?_
  rw [unwrapped.header] at read
  cases read
  rw [unwrapped.length]
  dsimp only
  omega

theorem Unwrapped.record (data : 64 * 1024 ≤ cap) (mapped : headerLen + cap < 2 ^ 63) (kind : RecordKind) (ts : UInt64) :
    ∃ after, recordBytes o m kind payload ts = .ok (.ok after) ∧
      Unwrapped o cap (entries ++ [(kind, ts, payload)]) after := by
  obtain ⟨h, rfl, size, fits, valid⟩ := unwrapped
  have entry : (entryBytes kind ts payload).length = entryTotal payload := length_entryBytes
  have magic : slice h 0 8 = recorderMagic := (view_ok o valid).1
  have whole := length_ringOf fits
  have grown : (entriesBytes (entries ++ [(kind, ts, payload)])).length =
      (entriesBytes entries).length + entryTotal payload := by
    rw [entriesBytes_snoc, List.length_append, entry]
  have cursor : cursorOf ⟨headerLen + (entriesBytes entries).length, (entriesBytes entries).length, false⟩ =
      (entriesBytes entries).length := by
    rw [cursorOf, Nat.max_eq_left (Nat.le_add_right _ _), Nat.add_sub_cancel_left]
  have written : put (ringOf cap entries) (entriesBytes entries).length (entryBytes kind ts payload) =
      ringOf cap (entries ++ [(kind, ts, payload)]) := by
    rw [ringOf, put_at_end, ringOf, entriesBytes_snoc, List.append_assoc, entry, List.drop_replicate, List.length_append,
      entry, Nat.sub_sub]
  rw [recordBytes_append o size (by omega) (by omega) (by rw [whole]; exact valid) rfl short.le, cursor, whole, appended,
    cursor, written, Nat.max_eq_left (Nat.le_add_right _ _), if_pos (by omega), if_pos room]
  refine ⟨_, rfl, _, rfl, length_stamped o size _ _ _, by omega, ?_⟩
  rw [view_stamped o size magic (by omega) (by dsimp only; omega), grown, Nat.min_eq_left room, Nat.min_eq_left room,
    Nat.add_assoc]
  rfl

end Unwrapped

def letters (n : Nat) : Bytes := List.replicate n 0x61

theorem length_letters (n : Nat) : (letters n).length = n := List.length_replicate

theorem unwrapped_run {cap : Nat} (data : 64 * 1024 ≤ cap) (mapped : headerLen + cap < 2 ^ 63) {t : Tape} {m : Bytes}
    {entries : List Entry} (here : t.map = some m) (unwrapped : Unwrapped o cap entries m)
    {payload : Bytes} (short : payload.length < entryMaxPayload) (kind : RecordKind) (ts : UInt64) (count : Nat)
    (room : (entriesBytes entries).length + entryTotal payload * count ≤ cap) :
    Throughout (Tape.step o) (TidyCall o) t (List.replicate count (.record kind payload ts)) ∧
      ∃ after, (run (Tape.step o) t (List.replicate count (.record kind payload ts))).map = some after ∧
        Unwrapped o cap (entries ++ List.replicate count (kind, ts, payload)) after := by
  induction count generalizing t m entries with
  | zero => exact ⟨trivial, m, here, by rwa [List.replicate_zero, List.append_nil]⟩
  | succ count ih =>
    rw [Nat.mul_succ] at room
    obtain ⟨next, recorded, grown⟩ := unwrapped.record o short (by omega) data mapped kind ts
    have stepped : t.step o (.record kind payload ts) = ⟨some next, t.accepted ++ [(kind, payload)]⟩ := by
      simp only [Tape.step, here, Tape.record, recorded]
    have longer : (entriesBytes (entries ++ [(kind, ts, payload)])).length =
        (entriesBytes entries).length + entryTotal payload := by
      rw [entriesBytes_snoc, List.length_append, length_entryBytes]
    obtain ⟨tidy, after, there, last⟩ := ih (congrArg Tape.map stepped) grown (by omega)
    refine ⟨⟨fun other same => ?_, tidy⟩, after, there, ?_⟩
    · obtain rfl := Option.some.inj (here.symm.trans same)
      exact unwrapped.tidy o short (by omega)
    · rwa [List.append_assoc, List.singleton_append, ← List.replicate_succ] at last

theorem startsEntry_letters {n stop : Nat} (long : 4 ≤ n) (far : 4 ≤ stop) (rest : Bytes) :
    startsEntry (slice (letters n ++ rest) 0 stop) = false := by
  have word : slice (slice (letters n ++ rest) 0 stop) 0 4 = letters 4 := by
    rw [slice, slice, List.drop_zero, List.drop_zero, List.take_take, Nat.sub_zero, Nat.sub_zero, Nat.min_eq_left far,
      List.take_append_of_le_length (by rwa [length_letters]), letters, List.take_replicate,
      Nat.min_eq_left long, letters]
  rw [← Bool.not_eq_true, startsEntry_iff, word]
  rintro ⟨-, -, most, -⟩
  exact absurd most (by decide)

theorem entry_letters (kind : RecordKind) (ts : UInt64) (i n : Nat) (rest : Bytes) : ∃ front back,
    entryBytes kind ts (letters (i + n)) ++ rest = front ++ (letters n ++ back) ∧ front.length = entryHeader + i := by
  have apart : letters (i + n) = letters i ++ letters n :=
    (List.replicate_append_replicate ..).symm
  refine ⟨leBytes 4 (entryTotal (letters (i + n))) ++
    (kind.toU8 :: (leBytes 8 ts.toNat ++ (leBytes 4 (letters (i + n)).length ++ letters i))),
    padding (letters (i + n)) ++ rest, ?_, ?_⟩
  · rw [entryBytes_eq, entryBody, apart]
    simp only [List.append_assoc, List.cons_append]
  · simp only [List.length_append, List.length_cons, length_leBytes, length_letters, entryHeader]
    omega

/-- Sixteen records fill a new recorder, a shorter one starts it over and ends within the first of them, and a clear. -/
def bootCalls : List TapeCall :=
  List.replicate 16 (.record .app (letters 4000) 5) ++ [.record .state (letters 2000) 6, .clear (.ok ())]

theorem tidy_wrapping {m : Bytes}
    (filled : Unwrapped sampleOutside (64 * 1024) (List.replicate 16 (.app, 5, letters 4000)) m) :
    Tidy sampleOutside m (letters 2000) := by
  have header : headerLen = 4096 := rfl
  have newest : entryTotal (letters 2000) = 2020 := by rw [entryTotal, length_letters]; rfl
  have oldest : entryTotal (letters 4000) = 4020 := by rw [entryTotal, length_letters]; rfl
  have used : (entriesBytes (List.replicate 16 (.app, 5, letters 4000))).length = 64320 := by
    rw [entriesBytes, List.length_flatMap, List.map_replicate, List.sum_replicate_nat, length_entryBytes, oldest]
  have length := filled.length
  have head := filled.header
  rw [used] at head
  refine tidy_around _ (by rw [length_letters]; decide) head (by omega) (by omega) ?_
  rw [length, newest]
  obtain ⟨h, rfl, size, -, -⟩ := filled
  -- The new record ends among the letters of the oldest one.
  obtain ⟨front, back, split, place⟩ := entry_letters .app 5 2003 1997 (entriesBytes (List.replicate 15 (.app, 5, letters 4000)) ++
    List.replicate (64 * 1024 - (entriesBytes (List.replicate 16 (.app, 5, letters 4000))).length) 0)
  have ring : ringOf (64 * 1024) (List.replicate 16 (.app, 5, letters 4000)) = front ++ (letters 1997 ++ back) := by
    rw [← split, ringOf, ← List.append_assoc]
    rfl
  have long : (h ++ front).length = headerLen + 2020 := by
    rw [List.length_append, size, place]
    rfl
  rw [ring, ← List.append_assoc, put_append_right (by omega), put_append_right (by rw [length_letters]; omega),
    slice_append_right (by omega), long, Nat.sub_self]
  exact startsEntry_letters (by decide) (by omega) _

/-- The older records are forgotten when the ring starts over. -/
theorem boot_transcript_faithful :
    init sampleOutside [] 0 ⟨.ok (), .ok (), .ok (), .ok (), .ok sampleKey⟩ =
        .ok (.ok sampleKey, fresh sampleOutside (64 * 1024)) ∧
      Always (Tape.step sampleOutside) (Faithful sampleOutside) ⟨some (fresh sampleOutside (64 * 1024)), []⟩ bootCalls := by
  have header : headerLen = 4096 := rfl
  have total : entryTotal (letters 4000) = 4020 := by rw [entryTotal, length_letters]; rfl
  obtain ⟨tidy, after, there, filled⟩ := @unwrapped_run sampleOutside (64 * 1024) (le_refl _) (by omega)
    ⟨some (fresh sampleOutside (64 * 1024)), []⟩ _ [] rfl (unwrapped_fresh sampleOutside (by omega)) (letters 4000)
    (by rw [length_letters]; decide) .app 5 16 (by rw [total]; decide)
  refine ⟨sample_opened, transcript_faithful sampleOutside sample_opened (Library.Runs.throughout_append.mpr ⟨tidy, ?_⟩)⟩
  refine ⟨fun m here => ?_, trivial, trivial⟩
  obtain rfl := Option.some.inj (there.symm.trans here)
  exact tidy_wrapping filled

end Soshal.Telemetry
