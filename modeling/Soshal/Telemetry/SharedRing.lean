import Soshal.Library.Fallible
import Soshal.Library.LittleEndian
import Soshal.Library.Memory

/-! The shared ring: entries that the interface writes into mapped memory, drained by a task.

The two cursors count all bytes ever written and read, and a position in the ring is a
cursor modulo the capacity. The writer has the address of the map and writes its bytes
without a call; only the head is advanced through one.
-/

set_option autoImplicit false

namespace Soshal.Telemetry

open Library.Memory (Fault load loadAt store put add length_put)
open Library.LittleEndian (Bytes leBytes leValue)

def ringHeaderLen : Nat := 4096
def ringEntryMaxPayload : Nat := 4096
def ringEntryHeader : Nat := 4 + 1 + 8 + 4
def ringEntryMaxTotal : Nat := (ringEntryHeader + ringEntryMaxPayload + 3) / 4 * 4
def maxRingCapacity : Nat := 256 * 1024 * 1024

structure DrainedEntry where
  kind : UInt8
  payload : Bytes
  deriving DecidableEq

/-- A map of the header and as many bytes as the capacity, which is a multiple of 4096. -/
structure SharedRing where
  map : Bytes
  capacity : Nat
  sized : map.length = ringHeaderLen + capacity
  whole : 4096 ∣ capacity
  least : 64 * 1024 ≤ capacity
  most : capacity ≤ maxRingCapacity

namespace SharedRing

/-- `map[pos..pos + data.len()].copy_from_slice(data)`. -/
def copy (ring : SharedRing) (pos : Nat) (data : Bytes) : Except Fault SharedRing :=
  if inside : pos + data.length ≤ ring.map.length then
    .ok { ring with map := put ring.map pos data, sized := by rw [length_put inside, ring.sized] }
  else .error .outOfBounds

def readU64 (map : Bytes) (off : Nat) : Except Fault Nat := return leValue (← load map off (off + 8))

def readU32 (map : Bytes) (off : Nat) : Except Fault Nat := return leValue (← load map off (off + 4))

def head (ring : SharedRing) : Except Fault Nat := readU64 ring.map 0

def rounded (capacityBytes : Nat) : Nat := (max capacityBytes (64 * 1024) + 4095) / 4096 * 4096

theorem rounded_bounds {capacityBytes : Nat} (small : ¬ capacityBytes > maxRingCapacity) :
    64 * 1024 ≤ rounded capacityBytes ∧ rounded capacityBytes ≤ maxRingCapacity := by
  simp only [rounded, maxRingCapacity] at small ⊢
  omega

def onFile (file : Bytes) (capacityBytes : Nat) (small : ¬ capacityBytes > maxRingCapacity) : SharedRing where
  map := file.take (ringHeaderLen + rounded capacityBytes) ++
    List.replicate (ringHeaderLen + rounded capacityBytes - file.length) 0
  capacity := rounded capacityBytes
  sized := by
    rw [List.length_append, List.length_take, List.length_replicate]
    omega
  whole := Nat.dvd_mul_left 4096 _
  least := (rounded_bounds small).1
  most := (rounded_bounds small).2

/-- A ring whose head is zero gets its cursors and its capacity written. -/
def titled (ring : SharedRing) : Except Fault SharedRing := do
  let existing ← readU64 ring.map 0
  if existing = 0 then
    let ring ← ring.copy 0 (leBytes 8 0)
    let ring ← ring.copy 8 (leBytes 8 0)
    ring.copy 16 (leBytes 4 ring.capacity)
  else return ring

/-- What the operating system answers to opening, measuring, resizing and mapping the file. -/
structure RingOpening where
  opens : Except String Unit
  measures : Except String Unit
  resizes : Except String Unit
  maps : Except String Unit

/-- What is checked before the file is mapped: another capacity in its header is refused. -/
def openFile (file : Bytes) (cap : Nat) (os : RingOpening) : Except String Unit := do
  os.opens.mapError ("ring open: " ++ ·)
  os.measures
  let existingCap := if file.length ≥ ringHeaderLen + 4 then leValue (Library.Memory.slice file 16 20) else 0
  if existingCap ≠ 0 ∧ existingCap ≠ cap then throw "ring capacity shrink not supported"
  if file.length < ringHeaderLen + cap then os.resizes.mapError ("ring resize: " ++ ·)
  os.maps.mapError ("ring mmap: " ++ ·)

def init (file : Bytes) (capacityBytes : Nat) (os : RingOpening) : Except Fault (Except String SharedRing) :=
  if large : capacityBytes > maxRingCapacity then
    .ok (.error s!"ring capacity too large: {capacityBytes} bytes (max {maxRingCapacity})")
  else
    match openFile file (rounded capacityBytes) os with
    | .error text => .ok (.error text)
    | .ok () => return .ok (← (onFile file capacityBytes large).titled)

/-- Rewinds, and advances by more than the capacity, are rejected. -/
def advanceHead (ring : SharedRing) (newHead : UInt64) : Except Fault (Except String SharedRing) := do
  let old ← ring.head
  if newHead.toNat < old then return .error s!"head rewind: {old} -> {newHead}"
  else if newHead.toNat - old > ring.capacity then return .error "head advanced beyond capacity"
  else return .ok (← ring.copy 0 (leBytes 8 newHead.toNat))

/-- The payload of an entry, or none when its length does not fit the entry. -/
def takePayload (map : Bytes) (start total payloadLen : Nat) : Except Fault Bytes :=
  if payloadLen ≤ ringEntryMaxPayload ∧ payloadLen ≤ total - ringEntryHeader ∧ start + payloadLen ≤ map.length then
    load map start (start + payloadLen)
  else .ok []

/-- The loop of `drain`: the entries from a position on, and the tail it ends with. -/
def drainFrom (ring : SharedRing) (tail head : Nat) : Except Fault (List DrainedEntry × Nat) := do
  if _ : tail < head then
    let idx := tail % ring.capacity
    let total ← readU32 ring.map (ringHeaderLen + idx)
    if total = 0 then
      -- The mark of the end: on to the next boundary.
      let _ ← add tail (ring.capacity - idx)
      drainFrom ring (tail + (ring.capacity - idx)) head
    else if _ : ¬ (ringEntryHeader ≤ total ∧ total ≤ ringEntryMaxTotal) ∨ idx + total > ring.capacity then
      let _ ← add tail 4
      drainFrom ring (tail + 4) head
    else
      let base := ringHeaderLen + idx
      let kind ← loadAt ring.map (base + 4)
      let payloadLen ← readU32 ring.map (base + 13)
      let start := base + ringEntryHeader
      let payload ← takePayload ring.map start total payloadLen
      let _ ← add tail total
      let (rest, tail) ← drainFrom ring (tail + total) head
      return (⟨kind, payload⟩ :: rest, tail)
  else return ([], tail)
termination_by head - tail
decreasing_by
  · have := Nat.mod_lt tail (show 0 < ring.capacity by have := ring.least; omega)
    omega
  · omega
  · have : 0 < ringEntryHeader := by decide
    omega

/-- Where `drain` starts to read. -/
def clamped (ring : SharedRing) (tail head : Nat) : Nat :=
  if tail > head then head
  else if head > ring.capacity ∧ tail < head - ring.capacity then head - ring.capacity
  else tail

/-- The entries that are passed to the callback, and the ring after. -/
def drain (ring : SharedRing) : Except Fault (List DrainedEntry × SharedRing) := do
  let tail ← readU64 ring.map 8
  let head ← ring.head
  let (entries, tail) ← ring.drainFrom (ring.clamped tail head) head
  let ring ← ring.copy 8 (leBytes 8 tail)
  return (entries, ring)

end SharedRing

end Soshal.Telemetry
