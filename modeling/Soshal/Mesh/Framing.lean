import Soshal.Mesh.Link

/-! Packets on the wire: serialisation, SLIP framing, and what a cut frame decodes to.

The two frame markers are escaped inside a frame, so the length of a frame depends
on the bytes it carries. The decoder asks for no closing marker: it reads a frame
that was cut off as the packet with its end missing, unless the cut falls inside
an escape.
-/

set_option autoImplicit false

namespace Soshal.Mesh

open Library Crypto
open Library.Text (hexEncode)

def maxHops : UInt8 := 128

def ReticulumPacketType.toByte : ReticulumPacketType → UInt8
  | .data => 0x00
  | .announce => 0x01
  | .linkRequest => 0x02
  | .proof => 0x03

def ReticulumPacketType.fromU8 (val : UInt8) : Option ReticulumPacketType :=
  if val = 0x00 then some .data
  else if val = 0x01 then some .announce
  else if val = 0x02 then some .linkRequest
  else if val = 0x03 then some .proof
  else none

@[simp] theorem ReticulumPacketType.fromU8_toByte (type : ReticulumPacketType) : fromU8 type.toByte = some type := by
  cases type <;> decide

theorem ReticulumPacketType.toByte_of_fromU8 {val : UInt8} {type : ReticulumPacketType}
    (known : fromU8 val = some type) : type.toByte = val := by
  unfold fromU8 at known
  split_ifs at known with data announce linkRequest proof
  · cases known
    exact data.symm
  · cases known
    exact announce.symm
  · cases known
    exact linkRequest.symm
  · cases known
    exact proof.symm

namespace ReticulumPacket

def toBytes (pkt : ReticulumPacket) : Bytes :=
  pkt.flags :: pkt.hops :: (pkt.destination.bytes ++ pkt.packetType.toByte :: pkt.payload)

def fromBytes (data : Bytes) : Except String ReticulumPacket :=
  match data with
  | flags :: hops :: rest =>
    if long : 17 ≤ rest.length then
      if maxHops < hops then .error ("Exceeded MAX_HOPS: " ++ toString hops.toNat)
      else
        let type := rest.get ⟨16, long⟩
        match ReticulumPacketType.fromU8 type with
        | none => .error ("Unknown packet type 0x" ++ hexEncode [type])
        | some packetType => .ok
            { flags := flags, hops := hops, destination := ⟨rest.take 16, by simp; omega⟩, packetType := packetType,
              payload := rest.drop 17 }
    else .error "Packet too short (minimum 19 bytes)"
  | _ => .error "Packet too short (minimum 19 bytes)"

def incrementHops (pkt : ReticulumPacket) : Option ReticulumPacket :=
  if maxHops ≤ pkt.hops then none else some { pkt with hops := pkt.hops + 1 }

theorem length_toBytes (pkt : ReticulumPacket) : pkt.toBytes.length = 19 + pkt.payload.length := by
  simp only [toBytes, List.length_cons, List.length_append, pkt.destination.size]
  omega

theorem fromBytes_toBytes {pkt : ReticulumPacket} (hops : pkt.hops ≤ maxHops) : fromBytes pkt.toBytes = .ok pkt := by
  obtain ⟨flags, count, ⟨address, size⟩, packetType, payload⟩ := pkt
  have long : 17 ≤ (address ++ packetType.toByte :: payload).length := by
    simp only [List.length_append, List.length_cons, size]
    omega
  have within : ¬ maxHops < count := by simpa using hops
  have type : (address ++ packetType.toByte :: payload).get ⟨16, long⟩ = packetType.toByte := by
    simp [List.getElem_append_right, size]
  have head : (address ++ packetType.toByte :: payload).take 16 = address := List.take_left' size
  have tail : (address ++ packetType.toByte :: payload).drop 17 = payload := by
    rw [List.append_cons]
    exact List.drop_left' (by simp [size])
  simp only [fromBytes, toBytes]
  rw [dif_pos long, if_neg within]
  simp only [type, ReticulumPacketType.fromU8_toByte, head, tail]

theorem toBytes_of_fromBytes {data : Bytes} {pkt : ReticulumPacket} (parsed : fromBytes data = .ok pkt) :
    pkt.toBytes = data := by
  unfold fromBytes at parsed
  split at parsed
  · rename_i flags hops rest
    split at parsed
    · rename_i long
      split at parsed
      · cases parsed
      · dsimp only at parsed
        split at parsed
        · cases parsed
        · rename_i packetType known
          cases parsed
          have type := ReticulumPacketType.toByte_of_fromU8 known
          simp only [toBytes, type]
          rw [List.get_eq_getElem, ← List.drop_eq_getElem_cons long, List.take_append_drop]
    · cases parsed
  · cases parsed

end ReticulumPacket

def slipEnd : UInt8 := 0xC0
def slipEsc : UInt8 := 0xDB
def slipEscEnd : UInt8 := 0xDC
def slipEscEsc : UInt8 := 0xDD

def maxSlipFrameSize : Nat := 65536

def stuffed (b : UInt8) : Bytes :=
  if b = slipEnd then [slipEsc, slipEscEnd] else if b = slipEsc then [slipEsc, slipEscEsc] else [b]

def slipEncode (data : Bytes) : Bytes := slipEnd :: (data.flatMap stuffed ++ [slipEnd])

/-- The loop of the decoder; the flag is whether the last byte was an escape. -/
def unstuff : Bool → Bytes → Except String Bytes
  | true, [] => .error "dangling SLIP escape character at EOF"
  | false, [] => .ok []
  | true, b :: rest =>
    (unstuff false rest).map ((if b = slipEscEnd then slipEnd else if b = slipEscEsc then slipEsc else b) :: ·)
  | false, b :: rest =>
    if b = slipEsc then unstuff true rest
    -- Frame markers are skipped wherever they stand.
    else if b = slipEnd then unstuff false rest
    else (unstuff false rest).map (b :: ·)

def slipDecode (data : Bytes) : Except String Bytes :=
  if maxSlipFrameSize < data.length then .error "SLIP frame exceeds maximum allowed size" else unstuff false data

def escapes (data : Bytes) : Nat := data.countP fun b => decide (b = slipEnd ∨ b = slipEsc)

theorem length_stuffed (data : Bytes) : (data.flatMap stuffed).length = data.length + escapes data := by
  induction data with
  | nil => rfl
  | cons b rest ih =>
    have count : escapes (b :: rest) = escapes rest + if b = slipEnd ∨ b = slipEsc then 1 else 0 := by
      simp [escapes, List.countP_cons]
    rw [List.flatMap_cons, List.length_append, ih, List.length_cons, count]
    by_cases isEnd : b = slipEnd
    · simp [stuffed, isEnd]
      omega
    · by_cases isEsc : b = slipEsc
      · simp [stuffed, isEsc, slipEnd, slipEsc]
        omega
      · simp [stuffed, isEnd, isEsc]
        omega

theorem unstuff_stuffed (b : UInt8) (rest : Bytes) :
    unstuff false (stuffed b ++ rest) = (unstuff false rest).map (b :: ·) := by
  by_cases isEnd : b = slipEnd
  · subst isEnd
    simp [stuffed, unstuff]
  · by_cases isEsc : b = slipEsc
    · subst isEsc
      have apart : slipEscEsc ≠ slipEscEnd := by decide
      simp [stuffed, isEnd, unstuff, apart]
    · simp [stuffed, isEnd, isEsc, unstuff]

/-- Data without the two marked bytes stands in a frame as it is. -/
def Plain (data : Bytes) : Prop := ∀ b ∈ data, b ≠ slipEnd ∧ b ≠ slipEsc

theorem flatMap_stuffed_of_plain {data : Bytes} (plain : Plain data) : data.flatMap stuffed = data := by
  induction data with
  | nil => rfl
  | cons b rest ih =>
    obtain ⟨notEnd, notEsc⟩ := plain b (List.mem_cons_self ..)
    have tail : Plain rest := fun c member => plain c (List.mem_cons_of_mem _ member)
    rw [List.flatMap_cons, ih tail, stuffed, if_neg notEnd, if_neg notEsc]
    rfl

theorem map_map_except {ε α β γ : Type} (f : α → β) (g : β → γ) (r : Except ε α) :
    (r.map f).map g = r.map fun a => g (f a) := by
  cases r <;> rfl

theorem unstuff_flatMap (data rest : Bytes) :
    unstuff false (data.flatMap stuffed ++ rest) = (unstuff false rest).map (data ++ ·) := by
  induction data with
  | nil =>
    rw [List.flatMap_nil, List.nil_append]
    cases unstuff false rest <;> rfl
  | cons b data ih =>
    rw [List.flatMap_cons, List.append_assoc, unstuff_stuffed, ih, map_map_except]
    rfl

theorem unstuff_take {data : Bytes} {k : Nat} (cut : k < (data.flatMap stuffed).length) {out : Bytes}
    (read : unstuff false ((data.flatMap stuffed).take k) = .ok out) : out.length < data.length := by
  induction data generalizing k out with
  | nil => simp at cut
  | cons b data ih =>
    rw [List.flatMap_cons] at read cut
    rw [List.length_append] at cut
    by_cases whole : (stuffed b).length ≤ k
    · rw [List.take_append, List.take_of_length_le whole, unstuff_stuffed] at read
      cases tail : unstuff false ((data.flatMap stuffed).take (k - (stuffed b).length)) with
      | error e =>
        rw [tail] at read
        cases read
      | ok short =>
        rw [tail] at read
        cases read
        have shorter := ih (by omega) tail
        simpa using shorter
    · -- The cut falls before the byte, or between an escape and what it escapes.
      have size : (stuffed b).length ≤ 2 := by
        unfold stuffed
        split
        · simp
        · split <;> simp
      rw [List.take_append_of_le_length (by omega)] at read
      obtain rfl | rfl : k = 0 ∨ k = 1 := by omega
      · rw [List.take_zero, unstuff] at read
        cases read
        simp
      · unfold stuffed at read whole
        split at read
        · simp [unstuff] at read
        · split at read
          · simp [unstuff] at read
          · simp_all

theorem length_unstuff {data out : Bytes} {escaping : Bool} (read : unstuff escaping data = .ok out) :
    out.length ≤ data.length := by
  induction data generalizing escaping out with
  | nil =>
    cases escaping with
    | true => cases read
    | false =>
      cases read
      simp
  | cons b rest ih =>
    cases escaping with
    | true =>
      simp only [unstuff] at read
      cases tail : unstuff false rest with
      | error e =>
        rw [tail] at read
        cases read
      | ok short =>
        rw [tail] at read
        cases read
        simpa using ih tail
    | false =>
      simp only [unstuff] at read
      split at read
      · exact (ih read).trans (by simp)
      · split at read
        · exact (ih read).trans (by simp)
        · cases tail : unstuff false rest with
          | error e =>
            rw [tail] at read
            cases read
          | ok short =>
            rw [tail] at read
            cases read
            simpa using ih tail

theorem unstuff_of_plain {data : Bytes} (plain : Plain data) : unstuff false data = .ok data := by
  have whole := unstuff_flatMap data []
  rw [List.append_nil, flatMap_stuffed_of_plain plain] at whole
  rw [whole]
  simp [unstuff, Except.map]

theorem unstuff_slipEnd (data : Bytes) : unstuff false (slipEnd :: data) = unstuff false data := by
  rw [unstuff, if_neg (by decide), if_pos rfl]

theorem slipDecode_slipEncode {data : Bytes} (fits : (slipEncode data).length ≤ maxSlipFrameSize) :
    slipDecode (slipEncode data) = .ok data := by
  rw [slipDecode, if_neg (by omega), slipEncode, unstuff_slipEnd, unstuff_flatMap, unstuff_slipEnd]
  simp [unstuff, Except.map]

/-- A receiver that keeps `size` bytes reads the data back exactly when all but the closing marker fits. -/
theorem slipDecode_take_iff {data : Bytes} {size : Nat} (positive : 0 < size) (small : size ≤ maxSlipFrameSize) :
    slipDecode ((slipEncode data).take size) = .ok data ↔ data.length + escapes data + 1 ≤ size := by
  have kept : ¬ maxSlipFrameSize < ((slipEncode data).take size).length := by
    rw [List.length_take]
    omega
  obtain ⟨room, rfl⟩ : ∃ room, size = room + 1 := ⟨size - 1, by omega⟩
  rw [slipDecode, if_neg kept, slipEncode, List.take_succ_cons, unstuff_slipEnd]
  have length := length_stuffed data
  by_cases fits : (data.flatMap stuffed).length ≤ room
  · rw [List.take_append, List.take_of_length_le fits, unstuff_flatMap]
    have closing : unstuff false ([slipEnd].take (room - (data.flatMap stuffed).length)) = .ok [] := by
      cases room - (data.flatMap stuffed).length with
      | zero => rfl
      | succ more => simp [unstuff_slipEnd, unstuff]
    rw [closing]
    simp only [Except.map, List.append_nil, true_iff]
    omega
  · rw [List.take_append_of_le_length (by omega)]
    constructor
    · intro read
      exact absurd (unstuff_take (by omega) read) (lt_irrefl _)
    · intro fits'
      omega

theorem slipDecode_take_plain {data : Bytes} (plain : Plain data) {room : Nat} (cut : room < data.length)
    (small : room < maxSlipFrameSize) :
    slipDecode ((slipEncode data).take (room + 1)) = .ok (data.take room) := by
  have kept : ¬ maxSlipFrameSize < ((slipEncode data).take (room + 1)).length := by
    rw [List.length_take]
    omega
  have tail : Plain (data.take room) := fun b member => plain b (List.mem_of_mem_take member)
  rw [slipDecode, if_neg kept, slipEncode, flatMap_stuffed_of_plain plain, List.take_succ_cons, unstuff_slipEnd,
    List.take_append_of_le_length (by omega), unstuff_of_plain tail]

/-- A packet is serialised, framed, and read back by the receiver of the frame. -/
def ReticulumPacket.throughSlip (pkt : ReticulumPacket) : Except String ReticulumPacket :=
  (slipDecode (slipEncode pkt.toBytes)).bind ReticulumPacket.fromBytes

theorem ReticulumPacket.fromBytes_of_hops {pkt : ReticulumPacket} (hops : maxHops < pkt.hops) :
    fromBytes pkt.toBytes = .error ("Exceeded MAX_HOPS: " ++ toString pkt.hops.toNat) := by
  have long : 17 ≤ (pkt.destination.bytes ++ pkt.packetType.toByte :: pkt.payload).length := by
    simp only [List.length_append, List.length_cons, pkt.destination.size]
    omega
  simp only [fromBytes, toBytes]
  rw [dif_pos long, if_pos hops]

theorem ReticulumPacket.throughSlip_eq (pkt : ReticulumPacket) :
    pkt.throughSlip =
      if maxSlipFrameSize < (slipEncode pkt.toBytes).length then .error "SLIP frame exceeds maximum allowed size"
      else if maxHops < pkt.hops then .error ("Exceeded MAX_HOPS: " ++ toString pkt.hops.toNat)
      else .ok pkt := by
  unfold throughSlip
  split
  · rename_i long
    rw [slipDecode, if_pos long]
    rfl
  · rename_i fits
    rw [slipDecode_slipEncode (Nat.not_lt.mp fits)]
    split
    · rename_i far
      exact fromBytes_of_hops far
    · rename_i near
      exact fromBytes_toBytes (UInt8.not_lt.mp near)

/-- A packet comes through exactly when its hops and its frame are within the limits; otherwise an error does. -/
theorem packet_through_slip (pkt : ReticulumPacket) :
    (pkt.throughSlip = .ok pkt ↔ pkt.hops ≤ maxHops ∧ (slipEncode pkt.toBytes).length ≤ maxSlipFrameSize) ∧
      ∀ other, pkt.throughSlip = .ok other → other = pkt := by
  rw [pkt.throughSlip_eq]
  split
  · rename_i long
    constructor
    · simp only [reduceCtorEq, false_iff, not_and]
      exact fun _ => Nat.not_le.mpr long
    · nofun
  · rename_i fits
    split
    · rename_i far
      constructor
      · simp only [reduceCtorEq, false_iff, not_and]
        exact fun near => absurd far (UInt8.not_lt.mpr near)
      · nofun
    · rename_i near
      refine ⟨iff_of_true rfl ⟨UInt8.not_lt.mp near, Nat.not_lt.mp fits⟩, ?_⟩
      rintro other ⟨⟩
      rfl

end Soshal.Mesh
