import Soshal.Telemetry.EntryLayout
import Soshal.Telemetry.RingDrain

/-! Items that the ring's writer lays down, and how they are drained.

An item is an entry, or the zero word that sends the reader to the boundary. A chain of
items that lie in the ring is drained as a whole, and an item stays until the writer
has gone a lap further than its start.
-/

set_option autoImplicit false

namespace Soshal.Telemetry

open Library.Memory
open Library.Fallible (ok_bind bind_eq_ok)
open Library.LittleEndian (Bytes leBytes leValue leValue_leBytes length_leBytes)

structure RingEntry where
  kind : UInt8
  ts : UInt64
  payload : Bytes
  short : payload.length ≤ ringEntryMaxPayload

/-- What the writer lays down at its cursor: an entry, or the mark of the end. -/
inductive Item where
  | entry (e : RingEntry)
  | mark

namespace Item

def bytes : Item → Bytes
  | .entry e => entryBody e.kind e.ts e.payload
  | .mark => [0, 0, 0, 0]

def size (capacity pos : Nat) : Item → Nat
  | .entry e => entryTotal e.payload
  | .mark => capacity - pos % capacity

/-- An entry ends before the boundary, and a mark does not stand on it. -/
def Fits (capacity pos : Nat) : Item → Prop
  | .entry e => pos % capacity + entryTotal e.payload ≤ capacity
  | .mark => 0 < pos % capacity

instance instDecidableFits (capacity pos : Nat) : (item : Item) → Decidable (item.Fits capacity pos)
  | .entry e => inferInstanceAs (Decidable (pos % capacity + entryTotal e.payload ≤ capacity))
  | .mark => inferInstanceAs (Decidable (0 < pos % capacity))

def entries : Item → List DrainedEntry
  | .entry e => [⟨e.kind, e.payload⟩]
  | .mark => []

end Item

def entriesOf (items : List (Nat × Item)) : List DrainedEntry := items.flatMap fun placed => placed.2.entries

def Lies (ring : SharedRing) (pos : Nat) (item : Item) : Prop :=
  slice ring.map (ringHeaderLen + pos % ring.capacity) (ringHeaderLen + pos % ring.capacity + item.bytes.length) = item.bytes

/-- Items one behind the other from one position to another, none over the boundary. -/
def Chained (capacity : Nat) : Nat → List (Nat × Item) → Nat → Prop
  | pos, [], head => pos = head
  | pos, (place, item) :: rest, head => place = pos ∧ item.Fits capacity pos ∧ Chained capacity (pos + item.size capacity pos) rest head

section Items

variable {ring : SharedRing} {pos head : Nat} {item : Item} {items : List (Nat × Item)}

theorem capacity_aligned (ring : SharedRing) : ring.capacity % 4 = 0 := by
  obtain ⟨pages, whole⟩ := ring.whole
  omega

theorem idx_aligned (ring : SharedRing) (aligned : pos % 4 = 0) : pos % ring.capacity % 4 = 0 := by
  have four : 4 ∣ ring.capacity := Nat.dvd_of_mod_eq_zero (capacity_aligned ring)
  rw [Nat.mod_mod_of_dvd _ four]
  exact aligned

theorem Item.Fits.ends (fits : item.Fits ring.capacity pos) :
    0 < item.size ring.capacity pos ∧ pos % ring.capacity + item.size ring.capacity pos ≤ ring.capacity := by
  have inside := ring.idx_lt pos
  cases item with
  | entry e =>
    have least := le_entryTotal e.payload
    have header : entryHeader = 17 := rfl
    exact ⟨by rw [Item.size]; omega, fits⟩
  | mark =>
    rw [Item.size]
    omega

theorem size_aligned (ring : SharedRing) (item : Item) (aligned : pos % 4 = 0) :
    item.size ring.capacity pos % 4 = 0 := by
  cases item with
  | entry e =>
    rw [Item.size, entryTotal]
    omega
  | mark =>
    have whole := capacity_aligned ring
    have idx := idx_aligned ring aligned
    have inside := ring.idx_lt pos
    rw [Item.size]
    omega

theorem bytes_le_size (ring : SharedRing) (item : Item) (aligned : pos % 4 = 0) :
    4 ≤ item.bytes.length ∧ item.bytes.length ≤ item.size ring.capacity pos := by
  cases item with
  | entry e =>
    have least := le_entryTotal e.payload
    have header : entryHeader = 17 := rfl
    rw [Item.bytes, Item.size, length_entryBody]
    omega
  | mark =>
    have whole := capacity_aligned ring
    have idx := idx_aligned ring aligned
    have inside := ring.idx_lt pos
    rw [Item.bytes, Item.size]
    simp only [List.length_cons, List.length_nil]
    omega

theorem Chained.bounds (chained : Chained ring.capacity pos items head) :
    pos ≤ head ∧ ∀ placed ∈ items, pos ≤ placed.1 ∧ placed.1 + placed.2.size ring.capacity placed.1 ≤ head ∧
      placed.2.Fits ring.capacity placed.1 := by
  induction items generalizing pos with
  | nil => exact ⟨chained.le, fun placed member => absurd member List.not_mem_nil⟩
  | cons first rest ih =>
    obtain ⟨place, item⟩ := first
    obtain ⟨rfl, fits, later⟩ := chained
    obtain ⟨ordered, others⟩ := ih later
    have forward := fits.ends
    refine ⟨by omega, fun placed member => ?_⟩
    rcases List.mem_cons.mp member with rfl | member
    · exact ⟨le_refl _, ordered, fits⟩
    · obtain ⟨behind, ends, fitting⟩ := others placed member
      exact ⟨by omega, ends, fitting⟩

theorem Chained.aligned (chained : Chained ring.capacity pos items head) (aligned : pos % 4 = 0) :
    head % 4 = 0 ∧ ∀ placed ∈ items, placed.1 % 4 = 0 := by
  induction items generalizing pos with
  | nil =>
    obtain rfl : pos = head := chained
    exact ⟨aligned, fun placed member => absurd member List.not_mem_nil⟩
  | cons first rest ih =>
    obtain ⟨place, item⟩ := first
    obtain ⟨rfl, fits, later⟩ := chained
    have whole := size_aligned ring item aligned
    obtain ⟨last, others⟩ := ih later (by omega)
    refine ⟨last, fun placed member => ?_⟩
    rcases List.mem_cons.mp member with rfl | member
    · exact aligned
    · exact others placed member

theorem Chained.snoc (chained : Chained ring.capacity pos items head) (fits : item.Fits ring.capacity head) :
    Chained ring.capacity pos (items ++ [(head, item)]) (head + item.size ring.capacity head) := by
  induction items generalizing pos with
  | nil =>
    obtain rfl : pos = head := chained
    exact ⟨rfl, fits, rfl⟩
  | cons first rest ih =>
    obtain ⟨place, item⟩ := first
    obtain ⟨rfl, fitting, later⟩ := chained
    exact ⟨rfl, fitting, ih later⟩

theorem Chained.cut (chained : Chained ring.capacity pos items head) {start : Nat}
    (boundary : start = head ∨ start ∈ items.map Prod.fst) :
    ∃ before after, items = before ++ after ∧ Chained ring.capacity start after head ∧
    ∀ placed ∈ before, placed.1 < start := by
  induction items generalizing pos with
  | nil =>
    obtain rfl := boundary.resolve_right List.not_mem_nil
    exact ⟨[], [], rfl, rfl, fun placed member => absurd member List.not_mem_nil⟩
  | cons first rest ih =>
    obtain ⟨place, item⟩ := first
    have whole := chained
    obtain ⟨rfl, fits, later⟩ := chained
    by_cases here : start = place
    · subst here
      exact ⟨[], (start, item) :: rest, rfl, whole, fun placed member => absurd member List.not_mem_nil⟩
    · have behind : start = head ∨ start ∈ rest.map Prod.fst := by
        rcases boundary with last | member
        · exact .inl last
        · exact .inr ((List.mem_cons.mp member).resolve_left here)
      obtain ⟨before, after, split, chain, earlier⟩ := ih later behind
      have ahead := chain.bounds.1
      refine ⟨(place, item) :: before, after, by rw [split]; rfl, chain, fun placed member => ?_⟩
      rcases List.mem_cons.mp member with rfl | member
      · have forward := fits.ends
        obtain ⟨ordered, others⟩ := later.bounds
        rcases behind with rfl | member
        · dsimp only
          omega
        · obtain ⟨other, listed, rfl⟩ := List.mem_map.mp member
          have := (others other listed).1
          dsimp only
          omega
      · exact earlier placed member

theorem Lies.part (lies : Lies ring pos item) (start : Nat) {stop : Nat} (inside : stop ≤ item.bytes.length) :
    slice ring.map (ringHeaderLen + pos % ring.capacity + start) (ringHeaderLen + pos % ring.capacity + stop) =
      slice item.bytes start stop := by
  rw [← slice_slice ring.map (Nat.add_le_add_left inside _), lies]

theorem Lies.word_mark (lies : Lies ring pos .mark) : ring.word pos = 0 := by
  have zeros : slice ring.map (ringHeaderLen + pos % ring.capacity) (ringHeaderLen + pos % ring.capacity + 4) = [0, 0, 0, 0] :=
    lies
  rw [SharedRing.word, zeros]
  rfl

section Entry

variable {e : RingEntry} (lies : Lies ring pos (.entry e)) (fits : Item.Fits ring.capacity pos (.entry e))
include lies

theorem Lies.entry_part (start : Nat) {stop : Nat} (inside : stop ≤ entryHeader + e.payload.length) :
    slice ring.map (ringHeaderLen + pos % ring.capacity + start) (ringHeaderLen + pos % ring.capacity + stop) =
      slice (entryBody e.kind e.ts e.payload ++ []) start stop := by
  rw [lies.part start (by rw [Item.bytes, length_entryBody]; exact inside), List.append_nil]
  rfl

theorem Lies.word_entry : ring.word pos = entryTotal e.payload := by
  have first := lies.entry_part 0 (by rw [entryHeader]; omega : 4 ≤ entryHeader + e.payload.length)
  rw [Nat.add_zero] at first
  rw [SharedRing.word, first, leValue_total _ _ _ e.short]

theorem Lies.kind_entry : ring.map[ringHeaderLen + pos % ring.capacity + 4]? = some e.kind := by
  have part : (slice ring.map (ringHeaderLen + pos % ring.capacity)
      (ringHeaderLen + pos % ring.capacity + (entryBody e.kind e.ts e.payload).length))[4]? = some e.kind := by
    have whole : slice ring.map (ringHeaderLen + pos % ring.capacity)
        (ringHeaderLen + pos % ring.capacity + (entryBody e.kind e.ts e.payload).length) = entryBody e.kind e.ts e.payload := lies
    rw [whole, ← List.append_nil (entryBody _ _ _), body_kind]
  rw [getElem?_slice, if_pos (by rw [length_entryBody, entryHeader]; omega)] at part
  exact part

include fits

theorem Lies.likely : ring.Plausible pos := by
  have least := le_entryTotal e.payload
  have most := entryTotal_le e.payload
  have short := e.short
  rw [SharedRing.Plausible, lies.word_entry]
  refine ⟨by rw [ringEntryHeader]; rw [entryHeader] at least; omega, ?_, fits⟩
  rw [ringEntryMaxPayload] at short
  rw [ringEntryMaxTotal, ringEntryHeader, ringEntryMaxPayload]
  rw [entryTotal, entryHeader]
  omega

theorem Lies.payload_entry : ring.payloadAt pos = e.payload := by
  have size := ring.sized
  have least := le_entryTotal e.payload
  have header : entryHeader = 17 := rfl
  have same : ringEntryHeader = entryHeader := rfl
  have length := lies.entry_part 13 (by omega : 17 ≤ entryHeader + e.payload.length)
  have content := lies.entry_part entryHeader (le_refl (entryHeader + e.payload.length))
  have room : pos % ring.capacity + entryTotal e.payload ≤ ring.capacity := fits
  rw [SharedRing.payloadAt, length, leValue_plen _ _ _ e.short, lies.word_entry, if_pos ⟨e.short, by omega, by omega⟩]
  rw [body_payload, ← Nat.add_assoc] at content
  rw [same]
  exact content

end Entry

theorem Lies.turn (lies : Lies ring pos item) (fits : item.Fits ring.capacity pos) :
    ring.stride pos = item.size ring.capacity pos ∧ ring.entryAt pos = item.entries := by
  cases item with
  | entry e =>
    have likely := lies.likely fits
    have least := le_entryTotal e.payload
    have header : entryHeader = 17 := rfl
    have word := lies.word_entry
    rw [SharedRing.stride, SharedRing.entryAt, if_neg (by omega), if_pos likely, if_pos likely, word,
      lies.kind_entry, lies.payload_entry fits]
    exact ⟨rfl, rfl⟩
  | mark =>
    have word := lies.word_mark
    have odd : ¬ ring.Plausible pos := by
      rintro ⟨least, -⟩
      rw [word] at least
      exact absurd least (by decide)
    rw [SharedRing.stride, SharedRing.entryAt, if_pos word, if_neg odd]
    exact ⟨rfl, rfl⟩

theorem Chained.drains (chained : Chained ring.capacity pos items head) (aligned : pos % 4 = 0) (small : head < 2 ^ 64)
    (lies : ∀ placed ∈ items, Lies ring placed.1 placed.2) :
    ring.drainFrom pos head = .ok (entriesOf items, head) := by
  induction items generalizing pos with
  | nil =>
    obtain rfl : pos = head := chained
    exact ring.drainFrom_done (le_refl _)
  | cons first rest ih =>
    obtain ⟨place, item⟩ := first
    obtain ⟨rfl, fits, later⟩ := chained
    have forward := fits.ends
    have words := bytes_le_size ring item aligned
    have whole := size_aligned ring item aligned
    have ahead := later.bounds.1
    have here : Lies ring place item := lies _ List.mem_cons_self
    obtain ⟨strides, found⟩ := here.turn fits
    have rests := ih later (by omega) fun placed member => lies placed (List.mem_cons_of_mem _ member)
    rw [← strides] at rests
    rw [ring.drainFrom_next (by omega) (by omega) (by omega) rests, found, entriesOf, entriesOf, List.flatMap_cons]

end Items

/-- Of two ranges, the second behind the first and ending less than a lap later, the positions in the ring are apart. -/
theorem mod_apart {capacity a b m n : Nat} (behind : a + m ≤ b) (near : b + n ≤ a + capacity) :
    a % capacity + m ≤ b % capacity ∨ b % capacity + n ≤ a % capacity := by
  have left := Nat.div_add_mod a capacity
  have right := Nat.div_add_mod b capacity
  have laps : a / capacity ≤ b / capacity := Nat.div_le_div_right (by omega)
  obtain ⟨more, laps⟩ := Nat.exists_eq_add_of_le laps
  rw [laps, Nat.mul_add] at right
  match more with
  | 0 => omega
  | 1 => omega
  | more + 2 =>
    have far : capacity * 2 ≤ capacity * (more + 2) := Nat.mul_le_mul_left capacity (Nat.le_add_left 2 more)
    by_cases positive : 0 < capacity
    · have inside := Nat.mod_lt a positive
      omega
    · omega

section Writing

variable {ring after : SharedRing} {pos place : Nat} {item : Item} {data : Bytes}

theorem Lies.header_write (lies : Lies ring pos item) (map : after.map = put ring.map place data)
    (same : after.capacity = ring.capacity) (inside : place + data.length ≤ ringHeaderLen) : Lies after pos item := by
  have size := ring.sized
  rw [Lies, map, same, slice_put_behind (by omega) (by omega)]
  exact lies

theorem poke_ok (ring : SharedRing) {idx : Nat} {bytes : Bytes} (inside : idx + bytes.length ≤ ring.capacity) :
    (ring.poke idx bytes).map = put ring.map (ringHeaderLen + idx) bytes ∧
      (ring.poke idx bytes).capacity = ring.capacity ∧
      (ring.poke idx bytes).headOf = ring.headOf ∧ (ring.poke idx bytes).tailOf = ring.tailOf := by
  have size := ring.sized
  have header : ringHeaderLen = 4096 := rfl
  have within : ringHeaderLen + idx + bytes.length ≤ ring.map.length := by omega
  obtain ⟨after, copied, map, same⟩ := ring.copy_ok within
  have poked : ring.poke idx bytes = after := by
    rw [SharedRing.poke, copied]
    rfl
  rw [poked]
  refine ⟨map, same, ?_, ?_⟩
  · rw [SharedRing.headOf, SharedRing.headOf, map, slice_put_before within (by omega)]
  · rw [SharedRing.tailOf, SharedRing.tailOf, map, slice_put_before within (by omega)]

theorem Lies.poke {other : Item} (lies : Lies ring pos item)
    (room : place % ring.capacity + other.bytes.length ≤ ring.capacity) (behind : pos + item.bytes.length ≤ place)
    (near : place + other.bytes.length ≤ pos + ring.capacity) :
    Lies (ring.poke (place % ring.capacity) other.bytes) pos item := by
  have size := ring.sized
  obtain ⟨map, same, -, -⟩ := poke_ok ring room
  rw [Lies, map, same]
  rcases mod_apart behind near with before | beyond
  · rw [slice_put_before (by omega) (by omega)]
    exact lies
  · rw [slice_put_behind (by omega) (by omega)]
    exact lies

theorem lies_poked (ring : SharedRing) (place : Nat) (item : Item)
    (room : place % ring.capacity + item.bytes.length ≤ ring.capacity) :
    Lies (ring.poke (place % ring.capacity) item.bytes) place item := by
  have size := ring.sized
  obtain ⟨map, same, -, -⟩ := poke_ok ring room
  rw [Lies, map, same]
  exact slice_put_self (by omega)

theorem advanceHead_ok (ring : SharedRing) {more : Nat} (least : more ≤ ring.capacity)
    (small : ring.headOf + more < 2 ^ 64) :
    ∃ after, ring.advanceHead (UInt64.ofNat (ring.headOf + more)) = .ok (.ok after) ∧
      after.map = put ring.map 0 (leBytes 8 (ring.headOf + more)) ∧ after.capacity = ring.capacity ∧
        after.headOf = ring.headOf + more ∧ after.tailOf = ring.tailOf := by
  have size := ring.sized
  have header : ringHeaderLen = 4096 := rfl
  have value : (UInt64.ofNat (ring.headOf + more)).toNat = ring.headOf + more := by
    rw [UInt64.toNat_ofNat', Nat.mod_eq_of_lt small]
  have inside : 0 + (leBytes 8 (ring.headOf + more)).length ≤ ring.map.length := by
    rw [length_leBytes]
    omega
  obtain ⟨after, copied, map, same⟩ := ring.copy_ok inside
  have cursor : slice after.map 0 8 = leBytes 8 (ring.headOf + more) := by
    have written := slice_put_self inside
    rwa [← map, length_leBytes, Nat.zero_add] at written
  refine ⟨after, ?_, map, same, ?_, ?_⟩
  · rw [SharedRing.advanceHead, SharedRing.head_ok, ok_bind, value, if_neg (by omega), if_neg (by omega), copied]
    rfl
  · rw [SharedRing.headOf, cursor, leValue_leBytes (by omega)]
  · rw [SharedRing.tailOf, SharedRing.tailOf, map, slice_put_behind inside (by rw [length_leBytes])]

end Writing

theorem slice_zeros {n start stop : Nat} (inside : stop ≤ n) :
    slice (List.replicate n (0 : UInt8)) start stop = List.replicate (stop - start) 0 := by
  rw [slice, List.drop_replicate, List.take_replicate, Nat.min_eq_left (by omega)]

theorem onFile_nil {capacityBytes : Nat} (small : ¬ capacityBytes > maxRingCapacity) :
    (SharedRing.onFile [] capacityBytes small).map = List.replicate (ringHeaderLen + SharedRing.rounded capacityBytes) 0 := by
  simp only [SharedRing.onFile, List.take_nil, List.nil_append, List.length_nil, Nat.sub_zero]

theorem titled_new {capacityBytes : Nat} (small : ¬ capacityBytes > maxRingCapacity) :
    ∃ ring, (SharedRing.onFile [] capacityBytes small).titled = .ok ring ∧
    ring.capacity = SharedRing.rounded capacityBytes ∧
      ring.headOf = 0 ∧ ring.tailOf = 0 ∧ ring.word 0 = 0 := by
  have header : ringHeaderLen = 4096 := rfl
  have zeros := onFile_nil small
  have capacity : (SharedRing.onFile [] capacityBytes small).capacity = SharedRing.rounded capacityBytes := rfl
  generalize SharedRing.onFile [] capacityBytes small = blank at zeros capacity
  have room : 64 * 1024 ≤ blank.capacity := blank.least
  have length : blank.map.length = ringHeaderLen + blank.capacity := blank.sized
  have blankHead : SharedRing.readU64 blank.map 0 = .ok 0 := by
    rw [blank.readU64_ok (by omega), zeros, slice_zeros (by omega)]
    rfl
  have one : 0 + (leBytes 8 0).length ≤ blank.map.length := by rw [length_leBytes]; omega
  obtain ⟨first, headed, firstMap, firstSame⟩ := blank.copy_ok one
  have two : 8 + (leBytes 8 0).length ≤ first.map.length := by rw [length_leBytes, first.sized, firstSame]; omega
  obtain ⟨second, tailed, secondMap, secondSame⟩ := first.copy_ok two
  have three : 16 + (leBytes 4 second.capacity).length ≤ second.map.length := by
    rw [length_leBytes, second.sized, secondSame, firstSame]
    omega
  obtain ⟨third, marked, thirdMap, thirdSame⟩ := second.copy_ok three
  have headWritten := slice_put_self one
  have tailWritten := slice_put_self two
  rw [← firstMap, length_leBytes] at headWritten
  rw [← secondMap, length_leBytes] at tailWritten
  refine ⟨third, ?_, by rw [thirdSame, secondSame, firstSame, capacity], ?_, ?_, ?_⟩
  · rw [SharedRing.titled, blankHead, ok_bind, if_pos rfl, headed, ok_bind, tailed, ok_bind, marked]
  · rw [SharedRing.headOf, thirdMap, slice_put_before three (by omega), secondMap,
      slice_put_before two (le_refl 8), headWritten]
    rfl
  · rw [SharedRing.tailOf, thirdMap, slice_put_before three (le_refl 16), tailWritten]
    rfl
  · rw [SharedRing.word, thirdMap, Nat.zero_mod, Nat.add_zero,
      slice_put_behind three (by rw [length_leBytes]; omega), secondMap,
      slice_put_behind two (by rw [length_leBytes]; omega), firstMap,
      slice_put_behind one (by rw [length_leBytes]; omega), zeros, slice_zeros (by omega), Nat.add_sub_cancel_left]
    rfl

theorem ring_init_new {capacityBytes : Nat} {os : SharedRing.RingOpening} {ring : SharedRing}
    (opened : SharedRing.init [] capacityBytes os = .ok (.ok ring)) : ring.headOf = 0 ∧ ring.tailOf = 0 := by
  unfold SharedRing.init at opened
  split at opened
  · cases opened
  · rename_i small
    split at opened
    · cases opened
    · obtain ⟨titled, done, same⟩ := bind_eq_ok.mp opened
      cases same
      obtain ⟨other, again, -, head, tail, -⟩ := titled_new small
      rw [done] at again
      cases again
      exact ⟨head, tail⟩

end Soshal.Telemetry
