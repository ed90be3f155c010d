import Soshal.Library.LittleEndian
import Soshal.Library.Memory

/-! The flight recorder: a ring of records in a mapped file, behind a header with a checksum.

Every access to the map and every sum of positions goes through the checks of the
machine; a fault ends the process. The checksum and the cipher are code outside of the
recorder, and what the operating system answers is passed in with each call.
-/

set_option autoImplicit false

namespace Soshal.Telemetry

open Library.Memory (Fault load loadAt store add)
open Library.LittleEndian (Bytes leBytes leValue)

def headerLen : Nat := 4096
def recorderMagic : Bytes := [0x53, 0x4f, 0x53, 0x48, 0x54, 0x45, 0x4c, 0x45]
def recorderVersion : Nat := 1
def dumpMagic : Bytes := [0x53, 0x4f, 0x53, 0x48, 0x44, 0x4d, 0x50, 0x31]
def entryMaxPayload : Nat := 4096
def entryHeader : Nat := 4 + 1 + 8 + 4
def entryMaxTotal : Nat := entryHeader + entryMaxPayload

inductive RecordKind where
  | state
  | ipc
  | network
  | ffi
  | app
  | crash
  deriving DecidableEq

def RecordKind.toU8 : RecordKind → UInt8
  | .state => 1
  | .ipc => 2
  | .network => 3
  | .ffi => 4
  | .app => 5
  | .crash => 6

def RecordKind.fromU8 (v : UInt8) : Option RecordKind :=
  if v = 1 then some .state
  else if v = 2 then some .ipc
  else if v = 3 then some .network
  else if v = 4 then some .ffi
  else if v = 5 then some .app
  else if v = 6 then some .crash
  else none

/-- The first eight bytes of SHA-256, and the cipher of the dumps. -/
structure Outside where
  checksum : Bytes → Vector UInt8 8
  encrypt : Vector UInt8 32 → Bytes → Bytes → Except String Bytes

structure HeaderView where
  head : Nat
  len : Nat
  isSealed : Bool
  deriving DecidableEq

structure RecorderInfo where
  capacityBytes : Nat
  usedBytes : Nat
  entries : Nat
  isSealed : Bool

variable (o : Outside)

def readHeader (mmap : Bytes) : Except Fault (Except String HeaderView) :=
  if mmap.length < headerLen then .ok (.error "recorder header invalid")
  else do
    let found ← load mmap 0 8
    if found ≠ recorderMagic then return .error "recorder header invalid"
    else
      let covered ← load mmap 0 (headerLen - 8)
      let stored ← load mmap (headerLen - 8) headerLen
      if stored ≠ (o.checksum covered).toList then return .error "recorder header checksum failed"
      else
        let mark ← loadAt mmap 24
        let head ← load mmap 25 33
        let len ← load mmap 33 41
        let available := mmap.length - headerLen
        return .ok ⟨leValue head, min (leValue len) available, mark != 0⟩

def writeHeader (mmap : Bytes) (capacity : Nat) : Except Fault Bytes := do
  let mmap := List.replicate mmap.length 0
  let mmap ← store mmap 0 recorderMagic
  let mmap ← store mmap 8 (leBytes 4 recorderVersion)
  let mmap ← store mmap 12 (leBytes 4 capacity)
  let mmap ← store mmap 16 (leBytes 8 headerLen)
  let mmap ← store mmap 24 [0]
  let mmap ← store mmap 25 (leBytes 8 headerLen)
  let mmap ← store mmap 33 (leBytes 8 0)
  let covered ← load mmap 0 (headerLen - 8)
  store mmap (headerLen - 8) (o.checksum covered).toList

def writeHeaderState (mmap : Bytes) (head len : Nat) : Except Fault Bytes := do
  let hdr ← load mmap 0 headerLen
  let hdr ← store hdr 24 [0]
  let hdr ← store hdr 25 (leBytes 8 head)
  let hdr ← store hdr 33 (leBytes 8 len)
  let covered ← load hdr 0 (headerLen - 8)
  let hdr ← store hdr (headerLen - 8) (o.checksum covered).toList
  store mmap 0 hdr

def entryTotal (payload : Bytes) : Nat := (entryHeader + payload.length + 3) / 4 * 4

def entryBytes (kind : RecordKind) (ts : UInt64) (payload : Bytes) : Bytes :=
  let body := leBytes 4 (entryTotal payload) ++ (kind.toU8 :: (leBytes 8 ts.toNat ++ (leBytes 4 payload.length ++ payload)))
  body ++ List.replicate (entryTotal payload - body.length) 0

def recordBytes (mmap : Bytes) (kind : RecordKind) (payload : Bytes) (ts : UInt64) : Except Fault (Except String Bytes) :=
  if payload.length > entryMaxPayload then .ok (.error "record payload too large")
  else do
    match ← readHeader o mmap with
    | .error text => return .error text
    | .ok hdr =>
      if hdr.isSealed then return .error "recorder sealed"
      else
        let total := entryTotal payload
        let entry := entryBytes kind ts payload
        let dataStart := headerLen
        let cap := mmap.length - dataStart
        let writePos := max hdr.head dataStart
        let stop ← add writePos total
        if ¬ stop ≤ mmap.length then
          -- The stale tail gets a zero length, and the ring starts over.
          let _ ← add writePos 4
          let mmap ← store mmap writePos [0, 0, 0, 0]
          let mmap ← store mmap dataStart entry
          let next ← add dataStart total
          let mmap ← writeHeaderState o mmap next cap
          return .ok mmap
        else
          let mmap ← store mmap writePos entry
          let used ← add hdr.len total
          let mmap ← writeHeaderState o mmap stop (min used cap)
          return .ok mmap

/-- The answer of the call and the map after it; `flush` is what the operating system says to the sync. -/
def markCrash (mmap : Bytes) (reason : Bytes) (ts : UInt64) (flush : Except String Unit) :
    Except Fault (Except String Unit × Bytes) := do
  match ← recordBytes o mmap .crash reason ts with
  | .error text => return (.error text, mmap)
  | .ok mmap =>
    match ← readHeader o mmap with
    | .error text => return (.error text, mmap)
    | .ok hdr =>
      let mmap ← store mmap 24 [1]
      let mmap ← store mmap 25 (leBytes 8 hdr.head)
      let mmap ← store mmap 33 (leBytes 8 hdr.len)
      let covered ← load mmap 0 (headerLen - 8)
      let mmap ← store mmap (headerLen - 8) (o.checksum covered).toList
      return (flush.mapError ("flush recorder: " ++ ·), mmap)

def isSealed (mmap : Bytes) : Except Fault Bool := do
  match ← readHeader o mmap with
  | .error _ => return false
  | .ok hdr => return hdr.isSealed

def clear (mmap : Bytes) (flush : Except String Unit) : Except Fault (Except String Unit × Bytes) := do
  let data ← load mmap headerLen mmap.length
  let mmap ← store mmap headerLen (List.replicate data.length 0)
  let mmap ← writeHeaderState o mmap headerLen 0
  return (flush.mapError ("flush recorder: " ++ ·), mmap)

def dumpEncrypted (mmap : Bytes) (key : Vector UInt8 32) (flush : Except String Unit)
    (nonce : Except String (Vector UInt8 12)) : Except Fault (Except String Bytes) := do
  match flush.mapError ("flush recorder: " ++ ·) with
  | .error text => return .error text
  | .ok () =>
    match ← readHeader o mmap with
    | .error text => return .error text
    | .ok hdr =>
      let _ ← add 16 hdr.len
      let stop ← add headerLen hdr.len
      let data ← load mmap headerLen stop
      let plain := leBytes 8 hdr.head ++ leBytes 8 hdr.len ++ data
      return do
        let nonce ← nonce.mapError ("nonce entropy: " ++ ·)
        let ct ← (o.encrypt key nonce.toList plain).mapError ("encrypt dump: " ++ ·)
        return dumpMagic ++ nonce.toList ++ ct

abbrev Entry := RecordKind × UInt64 × Bytes

/-- The records from a position on, up to the end of the valid bytes. Sums below `pos + total` stay below the end. -/
def readFrom (mmap : Bytes) (pos stop : Nat) : Except Fault (List Entry) := do
  let word ← add pos 4
  if word ≤ stop then
    let total := leValue (← load mmap pos word)
    if _ : total = 0 ∨ total > entryMaxTotal then return []
    else
      let _ ← add pos total
      if _ : pos + total > stop then return []
      else
        let body ← add pos entryHeader
        if body > stop then return []
        else
          let kind := RecordKind.fromU8 (← loadAt mmap (pos + 4))
          let ts := leValue (← load mmap (pos + 5) (pos + 13))
          let plen := leValue (← load mmap (pos + 13) (pos + 17))
          if plen > entryMaxPayload ∨ entryHeader + plen > total then return []
          else
            let payload ← load mmap (pos + entryHeader) (pos + entryHeader + plen)
            let rest ← readFrom mmap (pos + total) stop
            return match kind with
              | some kind => (kind, UInt64.ofNat ts, payload) :: rest
              | none => rest
  else return []
termination_by stop - pos

def readAll (mmap : Bytes) : Except Fault (Except String (List Entry)) := do
  match ← readHeader o mmap with
  | .error text => return .error text
  | .ok hdr =>
    let stop ← add headerLen hdr.len
    return .ok (← readFrom mmap headerLen stop)

def countFrom (mmap : Bytes) (pos stop : Nat) : Except Fault Nat := do
  let word ← add pos 4
  if word ≤ stop then
    let total := leValue (← load mmap pos word)
    if _ : total = 0 ∨ total > entryMaxTotal then return 0
    else
      let _ ← add pos total
      if _ : pos + total > stop then return 0
      else return (← countFrom mmap (pos + total) stop) + 1
  else return 0
termination_by stop - pos

def countEntries (mmap : Bytes) (len : Nat) : Except Fault Nat := do
  let stop ← add headerLen len
  countFrom mmap headerLen stop

def info (mmap : Bytes) : Except Fault (Except String RecorderInfo) := do
  match ← readHeader o mmap with
  | .error text => return .error text
  | .ok hdr =>
    let entries ← countEntries mmap hdr.len
    return .ok ⟨mmap.length - headerLen, hdr.len, entries, hdr.isSealed⟩

/-- What the operating system answers while a recorder is opened. -/
structure Opening where
  opens : Except String Unit
  measures : Except String Unit
  resizes : Except String Unit
  maps : Except String Unit
  key : Except String (Vector UInt8 32)

def resize (file : Bytes) (total : Nat) : Bytes := file.take total ++ List.replicate (total - file.length) 0

/-- The second half of `init`, once the file has its size. -/
def openMap (file : Bytes) (cap : Nat) (os : Opening) : Except Fault (Except String (Vector UInt8 32) × Bytes) := do
  match os.maps.mapError ("mmap recorder: " ++ ·) with
  | .error text => return (.error text, file)
  | .ok () =>
    if file.length ≥ 2 ^ 63 then return (.error "mmap recorder: memory map length overflows isize", file)
    else
      match ← readHeader o file with
      | .ok _ => return (os.key, file)
      | .error _ =>
        let mmap ← writeHeader o file cap
        return (os.key, mmap)

/-- The key of the recorder, and the file after the call. A length past the address space is never mapped. -/
def init (file : Bytes) (capacityBytes : Nat) (os : Opening) : Except Fault (Except String (Vector UInt8 32) × Bytes) := do
  let cap := max capacityBytes (64 * 1024)
  match os.opens.mapError ("open recorder: " ++ ·) with
  | .error text => return (.error text, file)
  | .ok () =>
    let total ← add headerLen cap
    match os.measures with
    | .error text => return (.error text, file)
    | .ok () =>
      match if file.length ≠ total then os.resizes.mapError ("resize recorder: " ++ ·) else .ok () with
      | .error text => return (.error text, file)
      | .ok () => openMap o (resize file total) cap os

end Soshal.Telemetry
