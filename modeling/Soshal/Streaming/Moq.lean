import Soshal.Library.Fallible
import Soshal.Library.LittleEndian

/-! Groups of media objects on a stream.

The decoder caps the whole frame and the encoder the payloads alone, at the same
number of bytes. An object that is too large is found while the objects before it
have been written.
-/

set_option autoImplicit false

namespace Soshal.Streaming.Moq

open Library
open Library.LittleEndian (Bytes leBytes leValue takeLe takeLe_leBytes of_takeLe length_leBytes)

def maxGroupObjects : Nat := 4096
def maxObjectPayload : Nat := 8 * 1024 * 1024
def maxGroupBytes : Nat := 64 * 1024 * 1024

inductive MoqTrackType where
  | videoKeyframe
  | videoDelta
  | audioDatagram
  deriving DecidableEq

def MoqTrackType.code : MoqTrackType → Nat
  | .videoKeyframe => 0
  | .videoDelta => 1
  | .audioDatagram => 2

def MoqTrackType.ofCode : Nat → Option MoqTrackType
  | 0 => some .videoKeyframe
  | 1 => some .videoDelta
  | 2 => some .audioDatagram
  | _ => none

structure MoqObjectHeader where
  trackId : UInt32
  groupSequence : UInt64
  objectSequence : UInt64
  payloadSize : UInt32
  trackType : MoqTrackType
  timestampMs : UInt64

structure MoqObject where
  header : MoqObjectHeader
  payload : Bytes

structure MoqGroup where
  groupSequence : UInt64
  objects : List MoqObject

def MoqGroup.totalPayload (group : MoqGroup) : Nat := (group.objects.map fun o => o.payload.length).sum

/-- Something that bytes can be written to. A write that succeeds writes all of its bytes. -/
structure Writer (W : Type) where
  writeAll : W → Bytes → W × Except String Unit
  written : W → Bytes
  written_writeAll : ∀ w bytes, (writeAll w bytes).2 = .ok () → written (writeAll w bytes).1 = written w ++ bytes

def vecWriter : Writer Bytes where
  writeAll w bytes := (w ++ bytes, .ok ())
  written := id
  written_writeAll _ _ _ := rfl

section Write

variable {W : Type} (writer : Writer W)

def andThen (first second : W → W × Except String Unit) (out : W) : W × Except String Unit :=
  match first out with
  | (out, .ok ()) => second out
  | (out, .error e) => (out, .error e)

def push (bytes : Bytes) (out : W) : W × Except String Unit :=
  ((writer.writeAll out bytes).1, (writer.writeAll out bytes).2.mapError ("moq write failed: " ++ ·))

/-- The 33 bytes in front of a payload. -/
def headerBytes (obj : MoqObject) : Bytes :=
  leBytes 4 obj.header.trackId.toNat ++ (leBytes 8 obj.header.groupSequence.toNat ++
    (leBytes 8 obj.header.objectSequence.toNat ++ (leBytes 1 obj.header.trackType.code ++
      (leBytes 8 obj.header.timestampMs.toNat ++ leBytes 4 obj.payload.length))))

def writeObjects : List MoqObject → W → W × Except String Unit
  | [], out => (out, .ok ())
  | obj :: rest, out =>
    if obj.payload.length > maxObjectPayload then (out, .error "moq object oversized")
    else if obj.payload.length ≥ 2 ^ 32 then
      (out, .error "payload too large: out of range integral type conversion attempted")
    else
      andThen (push writer (headerBytes obj))
        (andThen (if obj.payload.isEmpty then fun out => (out, .ok ()) else push writer obj.payload)
          (writeObjects rest)) out

def encodeGroupStreamToWriterInner (group : MoqGroup) : W → W × Except String Unit :=
  andThen (push writer (leBytes 8 group.groupSequence.toNat))
    (andThen (push writer (leBytes 4 (group.objects.length % 2 ^ 32))) (writeObjects writer group.objects))

def encodeGroupStreamToWriter (group : MoqGroup) (out : W) : W × Except String Unit :=
  if group.objects.length > maxGroupObjects then (out, .error "moq group too many objects")
  else if group.totalPayload > maxGroupBytes then (out, .error "moq group oversized")
  else encodeGroupStreamToWriterInner writer group out

end Write

def encodeGroupStream (group : MoqGroup) : Except String Bytes :=
  if group.objects.length > maxGroupObjects then .error "moq group too many objects"
  else if group.totalPayload > maxGroupBytes then .error "moq group oversized"
  else
    match encodeGroupStreamToWriterInner vecWriter group [] with
    | (out, .ok ()) => .ok out
    | (_, .error e) => .error e

def readLe (width : Nat) (data : Bytes) : Except String (Nat × Bytes) :=
  (takeLe width data).elim (.error "moq truncated header") .ok

def readObjects : Nat → Bytes → Except String (List MoqObject × Bytes)
  | 0, data => .ok ([], data)
  | count + 1, data => do
    let (trackId, data) ← readLe 4 data
    let (objGroupSeq, data) ← readLe 8 data
    let (objectSeq, data) ← readLe 8 data
    let (trackType, data) ← readLe 1 data
    let trackType ← (MoqTrackType.ofCode trackType).elim (.error "moq bad track type") .ok
    let (timestampMs, data) ← readLe 8 data
    let (payloadLen, data) ← readLe 4 data
    if payloadLen > maxObjectPayload then .error "moq object oversized"
    else if payloadLen > data.length then .error "moq truncated payload"
    else do
      let (objects, rest) ← readObjects count (data.drop payloadLen)
      let header : MoqObjectHeader :=
        { trackId := UInt32.ofNat trackId
          groupSequence := UInt64.ofNat objGroupSeq
          objectSequence := UInt64.ofNat objectSeq
          payloadSize := UInt32.ofNat payloadLen
          trackType := trackType
          timestampMs := UInt64.ofNat timestampMs }
      return (⟨header, data.take payloadLen⟩ :: objects, rest)

def decodeGroupStream (bytes : Bytes) : Except String MoqGroup :=
  if bytes.length > maxGroupBytes then .error "moq stream oversized"
  else do
    let (groupSeq, data) ← readLe 8 bytes
    let (count, data) ← readLe 4 data
    if count > maxGroupObjects then .error "moq object count exceeds cap"
    else if data.length < count * 33 then .error "moq input truncated for declared object count"
    else do
      let (objects, data) ← readObjects count data
      if data.isEmpty then return ⟨UInt64.ofNat groupSeq, objects⟩
      else .error "moq trailing bytes"

def Sized (group : MoqGroup) : Prop := ∀ o ∈ group.objects, o.header.payloadSize.toNat = o.payload.length

def RoundTrips (group : MoqGroup) : Prop :=
  ∀ bytes, encodeGroupStream group = .ok bytes → decodeGroupStream bytes = .ok group

def Writer.Fails {W : Type} (writer : Writer W) : Prop := ∃ w bytes e, (writer.writeAll w bytes).2 = .error e

/-- The whole encoding is written, unless the writer fails, or there is none and nothing is written. -/
def AllOrNothing (group : MoqGroup) : Prop :=
  ∀ (W : Type) (writer : Writer W) (out : W),
    match encodeGroupStream group with
    | .ok bytes => writer.Fails ∨ (encodeGroupStreamToWriter writer group out).2 = .ok () ∧
        writer.written (encodeGroupStreamToWriter writer group out).1 = writer.written out ++ bytes
    | .error e => (encodeGroupStreamToWriter writer group out).2 = .error e ∧
        writer.written (encodeGroupStreamToWriter writer group out).1 = writer.written out

/-- A group that passes the first two checks has no object that is too large, and its frame is not too long. -/
def Fits (group : MoqGroup) : Prop :=
  group.objects.length ≤ maxGroupObjects → group.totalPayload ≤ maxGroupBytes →
    (∀ o ∈ group.objects, o.payload.length ≤ maxObjectPayload) ∧
      12 + 33 * group.objects.length + group.totalPayload ≤ maxGroupBytes

def objectBytes (obj : MoqObject) : Bytes := headerBytes obj ++ obj.payload

def groupBytes (group : MoqGroup) : Bytes :=
  leBytes 8 group.groupSequence.toNat ++ (leBytes 4 (group.objects.length % 2 ^ 32) ++ group.objects.flatMap objectBytes)

/-- Unless the writer fails, the action succeeds and writes these bytes. -/
def Writes {W : Type} (writer : Writer W) (action : W → W × Except String Unit) (bytes : Bytes) : Prop :=
  ∀ out, writer.Fails ∨ (action out).2 = .ok () ∧ writer.written (action out).1 = writer.written out ++ bytes

section Writes

variable {W : Type} {writer : Writer W} {first second : W → W × Except String Unit} {bytes later : Bytes}

theorem writes_push (bytes : Bytes) : Writes writer (push writer bytes) bytes := by
  intro out
  cases done : (writer.writeAll out bytes).2 with
  | error e => exact .inl ⟨out, bytes, e, done⟩
  | ok value => exact .inr ⟨by rw [push, done]; rfl, writer.written_writeAll out bytes done⟩

theorem writes_nothing : Writes writer (fun out => (out, .ok ())) [] :=
  fun _ => .inr ⟨rfl, (List.append_nil _).symm⟩

theorem Writes.andThen (one : Writes writer first bytes) (two : Writes writer second later) :
    Writes writer (andThen first second) (bytes ++ later) := by
  intro out
  obtain fails | ⟨succeeded, written⟩ := one out
  · exact .inl fails
  · have next : Moq.andThen first second out = second (first out).1 := by
      unfold Moq.andThen
      split
      · rename_i done
        rw [done]
      · rename_i failed
        rw [failed] at succeeded
        cases succeeded
    rw [next, ← List.append_assoc, ← written]
    exact two _

theorem writes_objects {objects : List MoqObject} (small : ∀ o ∈ objects, o.payload.length ≤ maxObjectPayload) :
    Writes writer (writeObjects writer objects) (objects.flatMap objectBytes) := by
  induction objects with
  | nil => exact writes_nothing
  | cons obj rest ih =>
    rw [List.forall_mem_cons] at small
    have most : maxObjectPayload < 2 ^ 32 := by decide
    have action : writeObjects writer (obj :: rest) = Moq.andThen (push writer (headerBytes obj))
        (Moq.andThen (if obj.payload.isEmpty then fun out => (out, .ok ()) else push writer obj.payload)
          (writeObjects writer rest)) := by
      funext out
      rw [writeObjects, if_neg (by omega), if_neg (by omega)]
    have payload : Writes writer (if obj.payload.isEmpty then fun out => (out, .ok ()) else push writer obj.payload)
        obj.payload := by
      split
      · rename_i empty
        rw [List.isEmpty_iff.mp empty]
        exact writes_nothing
      · exact writes_push _
    rw [action, List.flatMap_cons, objectBytes, List.append_assoc]
    exact (writes_push _).andThen (payload.andThen (ih small.2))

theorem writes_inner {group : MoqGroup} (small : ∀ o ∈ group.objects, o.payload.length ≤ maxObjectPayload) :
    Writes writer (encodeGroupStreamToWriterInner writer group) (groupBytes group) :=
  (writes_push _).andThen ((writes_push _).andThen (writes_objects small))

end Writes

theorem vecWriter_succeeds : ¬ vecWriter.Fails := by
  rintro ⟨_, _, _, failed⟩
  cases failed

theorem writeObjects_oversized {objects : List MoqObject}
    (oversized : ∃ o ∈ objects, o.payload.length > maxObjectPayload)
    (out : Bytes) : (writeObjects vecWriter objects out).2 = .error "moq object oversized" ∧
      out.length ≤ (writeObjects vecWriter objects out).1.length := by
  -- The first object that is too large ends the loop, and nothing takes back what those before it have written.
  induction objects generalizing out with
  | nil =>
    obtain ⟨_, member, _⟩ := oversized
    cases member
  | cons obj rest ih =>
    by_cases large : obj.payload.length > maxObjectPayload
    · rw [writeObjects, if_pos large]
      exact ⟨rfl, le_rfl⟩
    · have later : ∃ o ∈ rest, o.payload.length > maxObjectPayload := by
        obtain ⟨o, member, large'⟩ := oversized
        obtain rfl | member := List.mem_cons.mp member
        · exact absurd large' large
        · exact ⟨o, member, large'⟩
      have most : maxObjectPayload < 2 ^ 32 := by decide
      have next : ∃ bytes, writeObjects vecWriter (obj :: rest) out = writeObjects vecWriter rest (out ++ bytes) := by
        rw [writeObjects, if_neg large, if_neg (by omega)]
        split
        · exact ⟨headerBytes obj, rfl⟩
        · exact ⟨headerBytes obj ++ obj.payload, by rw [← List.append_assoc]; rfl⟩
      obtain ⟨bytes, next⟩ := next
      rw [next]
      obtain ⟨failed, grown⟩ := ih later (out ++ bytes)
      rw [List.length_append] at grown
      exact ⟨failed, by omega⟩

theorem inner_oversized {group : MoqGroup} (oversized : ∃ o ∈ group.objects, o.payload.length > maxObjectPayload) :
    (encodeGroupStreamToWriterInner vecWriter group []).2 = .error "moq object oversized" ∧
      12 ≤ (encodeGroupStreamToWriterInner vecWriter group []).1.length := by
  have objects := writeObjects_oversized oversized
    (leBytes 8 group.groupSequence.toNat ++ leBytes 4 (group.objects.length % 2 ^ 32))
  rw [List.length_append, length_leBytes, length_leBytes] at objects
  exact objects

section Encode

variable {group : MoqGroup}

theorem encodeGroupStream_ok (few : group.objects.length ≤ maxGroupObjects) (light : group.totalPayload ≤ maxGroupBytes)
    (small : ∀ o ∈ group.objects, o.payload.length ≤ maxObjectPayload) :
    encodeGroupStream group = .ok (groupBytes group) := by
  obtain ⟨done, written⟩ := (writes_inner small ([] : Bytes)).resolve_left vecWriter_succeeds
  have result : encodeGroupStreamToWriterInner vecWriter group [] = (groupBytes group, .ok ()) := Prod.ext written done
  rw [encodeGroupStream, if_neg (Nat.not_lt.mpr few), if_neg (Nat.not_lt.mpr light), result]

theorem encodeGroupStream_oversized (few : group.objects.length ≤ maxGroupObjects)
    (light : group.totalPayload ≤ maxGroupBytes)
    (oversized : ∃ o ∈ group.objects, o.payload.length > maxObjectPayload) :
    encodeGroupStream group = .error "moq object oversized" := by
  rw [encodeGroupStream, if_neg (Nat.not_lt.mpr few), if_neg (Nat.not_lt.mpr light)]
  have failed := (inner_oversized oversized).1
  split
  · rename_i done
    rw [done] at failed
    cases failed
  · rename_i e done
    rw [done] at failed
    cases failed
    rfl

theorem of_encodeGroupStream {bytes : Bytes} (encoded : encodeGroupStream group = .ok bytes) :
    group.objects.length ≤ maxGroupObjects ∧ group.totalPayload ≤ maxGroupBytes ∧
      (∀ o ∈ group.objects, o.payload.length ≤ maxObjectPayload) ∧ bytes = groupBytes group := by
  by_cases few : group.objects.length ≤ maxGroupObjects
  · by_cases light : group.totalPayload ≤ maxGroupBytes
    · by_cases small : ∀ o ∈ group.objects, o.payload.length ≤ maxObjectPayload
      · rw [encodeGroupStream_ok few light small] at encoded
        exact ⟨few, light, small, (Except.ok.inj encoded).symm⟩
      · simp only [not_forall, not_le, exists_prop] at small
        rw [encodeGroupStream_oversized few light small] at encoded
        cases encoded
    · rw [encodeGroupStream, if_neg (Nat.not_lt.mpr few), if_pos (Nat.not_le.mp light)] at encoded
      cases encoded
  · rw [encodeGroupStream, if_pos (Nat.not_le.mp few)] at encoded
    cases encoded

theorem allOrNothing_iff : AllOrNothing group ↔
    (group.objects.length ≤ maxGroupObjects → group.totalPayload ≤ maxGroupBytes →
      ∀ o ∈ group.objects, o.payload.length ≤ maxObjectPayload) := by
  constructor
  · intro law few light
    by_contra large
    simp only [not_forall, not_le, exists_prop] at large
    have nothing := (law Bytes vecWriter [])
    rw [encodeGroupStream_oversized few light large] at nothing
    have written : (encodeGroupStreamToWriterInner vecWriter group []).1 = [] := by
      have same := nothing.2
      rw [encodeGroupStreamToWriter, if_neg (Nat.not_lt.mpr few), if_neg (Nat.not_lt.mpr light)] at same
      exact same
    have more := (inner_oversized large).2
    rw [written] at more
    exact absurd more (by decide)
  · intro small W writer out
    by_cases few : group.objects.length ≤ maxGroupObjects
    · by_cases light : group.totalPayload ≤ maxGroupBytes
      · rw [encodeGroupStream_ok few light (small few light), encodeGroupStreamToWriter, if_neg (Nat.not_lt.mpr few),
          if_neg (Nat.not_lt.mpr light)]
        exact writes_inner (small few light) out
      · rw [encodeGroupStream, if_neg (Nat.not_lt.mpr few), if_pos (Nat.not_le.mp light), encodeGroupStreamToWriter,
          if_neg (Nat.not_lt.mpr few), if_pos (Nat.not_le.mp light)]
        exact ⟨rfl, rfl⟩
    · rw [encodeGroupStream, if_pos (Nat.not_le.mp few), encodeGroupStreamToWriter, if_pos (Nat.not_le.mp few)]
      exact ⟨rfl, rfl⟩

end Encode

theorem readLe_leBytes {width n : Nat} (small : n < 256 ^ width) (rest : Bytes) :
    readLe width (leBytes width n ++ rest) = .ok (n, rest) := by
  rw [readLe, takeLe_leBytes small]
  rfl

theorem of_readLe {width n : Nat} {data rest : Bytes} (read : readLe width data = .ok (n, rest)) :
    n < 256 ^ width ∧ data = leBytes width n ++ rest :=
  of_takeLe (Fallible.elim_eq_ok.mp read)

theorem ofCode_code (t : MoqTrackType) : MoqTrackType.ofCode t.code = some t := by
  cases t <;> rfl

theorem code_of_ofCode {n : Nat} {t : MoqTrackType} (read : MoqTrackType.ofCode n = some t) : t.code = n := by
  unfold MoqTrackType.ofCode at read
  split at read <;> cases read <;> rfl

theorem length_objects (objects : List MoqObject) :
    (objects.flatMap objectBytes).length = 33 * objects.length + (objects.map fun o => o.payload.length).sum := by
  induction objects with
  | nil => rfl
  | cons obj rest ih =>
    have header : (objectBytes obj).length = 33 + obj.payload.length := by
      simp only [objectBytes, headerBytes, List.length_append, length_leBytes]
    rw [List.flatMap_cons, List.length_append, header, ih, List.length_cons, List.map_cons, List.sum_cons]
    omega

theorem length_groupBytes (group : MoqGroup) :
    (groupBytes group).length = 12 + 33 * group.objects.length + group.totalPayload := by
  rw [groupBytes, List.length_append, List.length_append, length_leBytes, length_leBytes, length_objects,
    MoqGroup.totalPayload]
  omega

theorem readObjects_objectBytes {objects : List MoqObject}
    (sized : ∀ o ∈ objects, o.header.payloadSize.toNat = o.payload.length)
    (small : ∀ o ∈ objects, o.payload.length ≤ maxObjectPayload) (rest : Bytes) :
    readObjects objects.length (objects.flatMap objectBytes ++ rest) = .ok (objects, rest) := by
  induction objects with
  | nil => rfl
  | cons obj tail ih =>
    rw [List.forall_mem_cons] at sized small
    have most : maxObjectPayload < 256 ^ 4 := by decide
    have code : obj.header.trackType.code < 256 ^ 1 := by cases obj.header.trackType <;> decide
    have again := ih sized.2 small.2
    rw [List.flatMap_cons, List.length_cons, readObjects, objectBytes, headerBytes]
    simp only [List.append_assoc]
    rw [readLe_leBytes (show obj.header.trackId.toNat < 256 ^ 4 from obj.header.trackId.toNat_lt), Fallible.ok_bind]
    dsimp only
    rw [readLe_leBytes (show obj.header.groupSequence.toNat < 256 ^ 8 from obj.header.groupSequence.toNat_lt),
      Fallible.ok_bind]
    dsimp only
    rw [readLe_leBytes (show obj.header.objectSequence.toNat < 256 ^ 8 from obj.header.objectSequence.toNat_lt),
      Fallible.ok_bind]
    dsimp only
    rw [readLe_leBytes code, Fallible.ok_bind]
    dsimp only
    rw [ofCode_code, Option.elim_some, Fallible.ok_bind,
      readLe_leBytes (show obj.header.timestampMs.toNat < 256 ^ 8 from obj.header.timestampMs.toNat_lt), Fallible.ok_bind]
    dsimp only
    rw [readLe_leBytes (Nat.lt_of_le_of_lt small.1 most), Fallible.ok_bind]
    dsimp only
    rw [if_neg (by omega), if_neg (by rw [List.length_append]; omega), List.drop_left, List.take_left, again,
      Fallible.ok_bind]
    dsimp only
    rw [← sized.1]
    simp only [UInt32.ofNat_toNat, UInt64.ofNat_toNat]
    rfl

theorem of_readObjects {count : Nat} {data rest : Bytes} {objects : List MoqObject}
    (read : readObjects count data = .ok (objects, rest)) :
    objects.length = count ∧ data = objects.flatMap objectBytes ++ rest ∧
      ∀ o ∈ objects, o.payload.length ≤ maxObjectPayload := by
  induction count generalizing data objects with
  | zero =>
    cases read
    exact ⟨rfl, rfl, fun _ member => absurd member List.not_mem_nil⟩
  | succ count ih =>
    rw [readObjects] at read
    obtain ⟨⟨trackId, data₁⟩, first, read⟩ := Fallible.bind_eq_ok.mp read
    obtain ⟨⟨objGroupSeq, data₂⟩, second, read⟩ := Fallible.bind_eq_ok.mp read
    obtain ⟨⟨objectSeq, data₃⟩, third, read⟩ := Fallible.bind_eq_ok.mp read
    obtain ⟨⟨code, data₄⟩, fourth, read⟩ := Fallible.bind_eq_ok.mp read
    obtain ⟨trackType, known, read⟩ := Fallible.bind_eq_ok.mp read
    obtain ⟨⟨timestampMs, data₅⟩, fifth, read⟩ := Fallible.bind_eq_ok.mp read
    obtain ⟨⟨payloadLen, data₆⟩, sixth, read⟩ := Fallible.bind_eq_ok.mp read
    dsimp only at read
    rw [Fallible.guard_eq_ok, Fallible.guard_eq_ok] at read
    obtain ⟨small, enough, read⟩ := read
    obtain ⟨⟨tail, left⟩, later, built⟩ := Fallible.bind_eq_ok.mp read
    cases Fallible.pure_eq_ok.mp built
    obtain ⟨length, split, all⟩ := ih later
    obtain ⟨trackSmall, rfl⟩ := of_readLe first
    obtain ⟨groupSmall, rfl⟩ := of_readLe second
    obtain ⟨objectSmall, rfl⟩ := of_readLe third
    obtain ⟨-, rfl⟩ := of_readLe fourth
    obtain ⟨timeSmall, rfl⟩ := of_readLe fifth
    obtain ⟨-, rfl⟩ := of_readLe sixth
    have whole : (data₆.take payloadLen).length = payloadLen := List.length_take_of_le (Nat.not_lt.mp enough)
    -- Each field was read at the width of its type, so none of them wraps.
    have track : (UInt32.ofNat trackId).toNat = trackId := UInt32.toNat_ofNat_of_lt' trackSmall
    have group : (UInt64.ofNat objGroupSeq).toNat = objGroupSeq := UInt64.toNat_ofNat_of_lt' groupSmall
    have object : (UInt64.ofNat objectSeq).toNat = objectSeq := UInt64.toNat_ofNat_of_lt' objectSmall
    have time : (UInt64.ofNat timestampMs).toNat = timestampMs := UInt64.toNat_ofNat_of_lt' timeSmall
    refine ⟨by rw [List.length_cons, length], ?_, List.forall_mem_cons.mpr ⟨by dsimp only; omega, all⟩⟩
    rw [List.flatMap_cons, objectBytes, headerBytes]
    dsimp only
    rw [track, group, object, time, whole, code_of_ofCode (Fallible.elim_eq_ok.mp known)]
    simp only [List.append_assoc]
    rw [← split, List.take_append_drop]

section Groups

variable {group : MoqGroup}

theorem decode_groupBytes (sized : Sized group) (few : group.objects.length ≤ maxGroupObjects)
    (small : ∀ o ∈ group.objects, o.payload.length ≤ maxObjectPayload) :
    decodeGroupStream (groupBytes group) =
      if (groupBytes group).length > maxGroupBytes then .error "moq stream oversized" else .ok group := by
  have most : maxGroupObjects < 2 ^ 32 := by decide
  have count : group.objects.length % 2 ^ 32 = group.objects.length := Nat.mod_eq_of_lt (by omega)
  have countSmall : group.objects.length < 256 ^ 4 := by omega
  have objects := readObjects_objectBytes sized small []
  have length := length_objects group.objects
  rw [List.append_nil] at objects
  rw [decodeGroupStream]
  -- Only the cap on the whole frame can refuse it; all that follows reads what was written.
  congr 1
  rw [groupBytes, readLe_leBytes (show group.groupSequence.toNat < 256 ^ 8 from group.groupSequence.toNat_lt),
    Fallible.ok_bind]
  dsimp only
  rw [count, readLe_leBytes countSmall, Fallible.ok_bind]
  dsimp only
  rw [if_neg (Nat.not_lt.mpr few), if_neg (by omega), objects, Fallible.ok_bind]
  simp only [List.isEmpty_nil, if_true, UInt64.ofNat_toNat]
  rfl

theorem encode_of_decode {bytes : Bytes} (decoded : decodeGroupStream bytes = .ok group) :
    encodeGroupStream group = .ok bytes := by
  rw [decodeGroupStream, Fallible.guard_eq_ok] at decoded
  obtain ⟨short, decoded⟩ := decoded
  obtain ⟨⟨groupSeq, data⟩, first, decoded⟩ := Fallible.bind_eq_ok.mp decoded
  obtain ⟨⟨count, data₁⟩, second, decoded⟩ := Fallible.bind_eq_ok.mp decoded
  dsimp only at decoded
  rw [Fallible.guard_eq_ok, Fallible.guard_eq_ok] at decoded
  obtain ⟨few, -, decoded⟩ := decoded
  obtain ⟨⟨objects, rest⟩, read, decoded⟩ := Fallible.bind_eq_ok.mp decoded
  dsimp only at decoded
  split at decoded
  · rename_i ended
    cases Fallible.pure_eq_ok.mp decoded
    obtain rfl := List.isEmpty_iff.mp ended
    obtain ⟨length, rfl, small⟩ := of_readObjects read
    obtain ⟨groupSmall, rfl⟩ := of_readLe first
    obtain ⟨countSmall, rfl⟩ := of_readLe second
    have sequence : (UInt64.ofNat groupSeq).toNat = groupSeq := UInt64.toNat_ofNat_of_lt' groupSmall
    have counted : objects.length % 2 ^ 32 = count := by
      rw [length]
      exact Nat.mod_eq_of_lt countSmall
    have whole : groupBytes ⟨UInt64.ofNat groupSeq, objects⟩ =
        leBytes 8 groupSeq ++ (leBytes 4 count ++ (objects.flatMap objectBytes ++ [])) := by
      rw [groupBytes, sequence, counted, List.append_nil]
    rw [← whole, length_groupBytes] at short
    rw [encodeGroupStream_ok (by dsimp only; omega) (by omega) small, whole]
  · cases decoded

theorem roundTrips_iff (sized : Sized group) : RoundTrips group ↔
    (group.objects.length ≤ maxGroupObjects → group.totalPayload ≤ maxGroupBytes →
      (∀ o ∈ group.objects, o.payload.length ≤ maxObjectPayload) →
        12 + 33 * group.objects.length + group.totalPayload ≤ maxGroupBytes) := by
  constructor
  · intro law few light small
    have decoded := law _ (encodeGroupStream_ok few light small)
    rw [decode_groupBytes sized few small, length_groupBytes] at decoded
    exact Nat.not_lt.mp (Fallible.guard_eq_ok.mp decoded).1
  · intro short bytes encoded
    obtain ⟨few, light, small, rfl⟩ := of_encodeGroupStream encoded
    rw [decode_groupBytes sized few small, length_groupBytes, if_neg (Nat.not_lt.mpr (short few light small))]

end Groups

/-- What is decoded is encoded again as it was, and for a group the other two laws hold exactly when it fits. -/
theorem group_stream_laws_iff {group : MoqGroup} (sized : Sized group) :
    (RoundTrips group ∧ (∀ bytes decoded, decodeGroupStream bytes = .ok decoded → encodeGroupStream decoded = .ok bytes) ∧
      AllOrNothing group) ↔ Fits group := by
  rw [roundTrips_iff sized, allOrNothing_iff]
  constructor
  · rintro ⟨short, -, small⟩ few light
    exact ⟨small few light, short few light (small few light)⟩
  · intro fits
    exact ⟨fun few light _ => (fits few light).2, fun _ _ => encode_of_decode, fun few light => (fits few light).1⟩

section Frames

def keyframe (payloadSize : UInt32) (payload : Bytes) : MoqObject := ⟨⟨1, 1, 1, payloadSize, .videoKeyframe, 1000⟩, payload⟩

def smallGroup : MoqGroup := ⟨1, [keyframe 3 [0, 1, 2]]⟩

theorem small_group_laws : RoundTrips smallGroup ∧
    (∀ bytes decoded, decodeGroupStream bytes = .ok decoded → encodeGroupStream decoded = .ok bytes) ∧
      AllOrNothing smallGroup :=
  (group_stream_laws_iff (by simp [Sized, smallGroup, keyframe])).mpr
    (by simp [Fits, smallGroup, keyframe, MoqGroup.totalPayload, maxGroupObjects, maxGroupBytes, maxObjectPayload])

/-- Eight objects that are as large as an object may be pass the encoder, and not the decoder. -/
theorem eight_full_objects {payload : Bytes} (full : payload.length = maxObjectPayload) :
    Sized ⟨1, List.replicate 8 (keyframe 8388608 payload)⟩ ∧
      ¬ RoundTrips ⟨1, List.replicate 8 (keyframe 8388608 payload)⟩ := by
  have sized : Sized ⟨1, List.replicate 8 (keyframe 8388608 payload)⟩ := by
    intro o member
    rw [List.eq_of_mem_replicate member]
    exact full.symm
  have total : MoqGroup.totalPayload ⟨1, List.replicate 8 (keyframe 8388608 payload)⟩ = 8 * maxObjectPayload := by
    rw [MoqGroup.totalPayload, List.map_replicate, List.sum_replicate_nat, keyframe, full]
  refine ⟨sized, fun law => ?_⟩
  have short := (roundTrips_iff sized).mp law
  rw [total, List.length_replicate] at short
  have small : ∀ o ∈ List.replicate 8 (keyframe 8388608 payload), o.payload.length ≤ maxObjectPayload := by
    intro o member
    rw [List.eq_of_mem_replicate member]
    exact full.le
  unfold maxGroupBytes maxGroupObjects at short
  unfold maxObjectPayload at short small
  exact absurd (short (by omega) (by omega) small) (by omega)

/-- One object that is a byte larger is found when the sequence and the count have been written. -/
theorem one_large_object {payload : Bytes} (large : payload.length = maxObjectPayload + 1) :
    Sized ⟨1, [keyframe 8388609 payload]⟩ ∧ ¬ AllOrNothing ⟨1, [keyframe 8388609 payload]⟩ := by
  have sized : Sized ⟨1, [keyframe 8388609 payload]⟩ := by
    intro o member
    rw [List.mem_singleton.mp member]
    exact large.symm
  have total : MoqGroup.totalPayload ⟨1, [keyframe 8388609 payload]⟩ = maxObjectPayload + 1 := by
    rw [MoqGroup.totalPayload, List.map_singleton, List.sum_singleton, keyframe, large]
  refine ⟨sized, fun law => ?_⟩
  have small := allOrNothing_iff.mp law
  rw [total, List.length_singleton] at small
  have most := small (by unfold maxGroupObjects; omega) (by unfold maxObjectPayload maxGroupBytes; omega) _
    List.mem_cons_self
  rw [keyframe, large] at most
  omega

def fullGroup : MoqGroup := ⟨1, List.replicate 8 (keyframe 8388608 (List.replicate maxObjectPayload 0))⟩

def largeObject : MoqGroup := ⟨1, [keyframe 8388609 (List.replicate (maxObjectPayload + 1) 0)]⟩

theorem laws_fail_at_caps : (Sized fullGroup ∧ ¬ RoundTrips fullGroup) ∧ Sized largeObject ∧ ¬ AllOrNothing largeObject :=
  ⟨eight_full_objects List.length_replicate, one_large_object List.length_replicate⟩

end Frames

end Soshal.Streaming.Moq
