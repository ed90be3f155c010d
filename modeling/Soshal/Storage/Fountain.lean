import Soshal.Library.Fallible
import Soshal.Library.LittleEndian
import Soshal.Library.Windows

/-! Media payloads as fountain packets.

The sender bounds the bytes of a payload and the receiver the number of its symbols
and of the packets it is handed, so a payload near the sender's bound cannot be
received. The code itself is taken as ideal.
-/

set_option autoImplicit false

namespace Soshal.Storage

open Library
open Library.Windows (divCeil)
open Library.LittleEndian (Bytes leBytes beBytes leValue leValue_leBytes length_leBytes)

def maxFountainLen : Nat := 64 * 1024 * 1024
def maxSourceSymbols : Nat := 56000
def maxPackets : Nat := 60000

structure FountainManifest where
  totalLen : Nat
  symbolSize : Nat
  numSourceSymbols : Nat
  otiData : Bytes
  checksum : Bytes

structure EncodedFountainPayload where
  manifest : FountainManifest
  packets : List Bytes

/-- A fountain code: what an encoder makes of a payload, and a decoder that takes one packet after another. -/
structure RaptorQ where
  Oti : Type
  Packet : Type
  Decoder : Type
  /-- The transmission parameters for a transfer length and a symbol size. -/
  withDefaults : Nat → Nat → Oti
  transferLength : Oti → Nat
  symbolSize : Oti → Nat
  sourceBlocks : Oti → Nat
  /-- The parameters an encoder chooses for a payload and a symbol size. -/
  config : Bytes → Nat → Oti
  /-- The source packets of a payload, with the given number of repair packets for each block. -/
  encodedPackets : Bytes → Nat → Nat → List Packet
  serialize : Packet → Bytes
  deserialize : Bytes → Packet
  sourceBlockNumber : Packet → Nat
  new : Oti → Decoder
  decode : Decoder → Packet → Decoder × Option Bytes

namespace RaptorQ

variable (rq : RaptorQ)

/-- The packet belongs to the payload, as a source or as a repair packet. -/
def Genuine (data : Bytes) (symbolSize : Nat) (p : rq.Packet) : Prop :=
  ∃ repair, p ∈ rq.encodedPackets data symbolSize repair

def feed (decoder : rq.Decoder) (packets : List rq.Packet) : rq.Decoder :=
  packets.foldl (fun decoder p => (rq.decode decoder p).1) decoder

/-- An encoder uses the default parameters of its payload. Under them, packets of the payload never make a decoder
return anything else, and once all source packets are among them it has returned. -/
structure Ideal (data : Bytes) (symbolSize : Nat) : Prop where
  defaults : rq.config data symbolSize = rq.withDefaults data.length symbolSize
  source : ∀ repair, ∀ p ∈ rq.encodedPackets data symbolSize 0, p ∈ rq.encodedPackets data symbolSize repair
  length : ∀ p, rq.Genuine data symbolSize p → (rq.serialize p).length = 4 + symbolSize
  read : ∀ p, rq.Genuine data symbolSize p → rq.deserialize (rq.serialize p) = p
  block : ∀ p, rq.Genuine data symbolSize p → rq.sourceBlockNumber p < rq.sourceBlocks (rq.config data symbolSize)
  sound : ∀ packets, (∀ p ∈ packets, rq.Genuine data symbolSize p) → ∀ p, rq.Genuine data symbolSize p →
    ∀ result, (rq.decode (rq.feed (rq.new (rq.config data symbolSize)) packets) p).2 = some result → result = data
  complete : ∀ packets, (∀ p ∈ packets, rq.Genuine data symbolSize p) →
    (∀ p ∈ rq.encodedPackets data symbolSize 0, p ∈ packets) → ∃ front p back, packets = front ++ p :: back ∧
      (rq.decode (rq.feed (rq.new (rq.config data symbolSize)) front) p).2.isSome

end RaptorQ

section Fountain

variable (rq : RaptorQ) (sha256 : Bytes → Bytes)

/-- `ceil` and a cast, for a number that is not negative and below `2 ^ 32`. -/
def ceilToU32 (x : Float32) : UInt32 :=
  let whole := x.toUInt32
  if Float32.ofNat whole.toNat < x then whole + 1 else whole

def encodeFountain (data : Bytes) (redundancyRatio : Float32) : Except String EncodedFountainPayload :=
  if data.isEmpty then .error "Cannot fountain encode empty payload"
  else if data.length > maxFountainLen then
    .error ("fountain payload too large: " ++ toString data.length ++ " bytes (max " ++ toString maxFountainLen ++ ")")
  else if ¬ redundancyRatio.isFinite ∨ ¬ (0 ≤ redundancyRatio ∧ redundancyRatio ≤ 10) then
    .error "redundancy_ratio must be a finite float between 0.0 and 10.0"
  else if data.isEmpty ∨ data.length > maxFountainLen then .error "fountain payload length out of range"
  else
    let symbolSize := 1024
    let oti := rq.config data symbolSize
    -- The quotient by a power of two is exact as a float.
    let numSourceSymbols := divCeil data.length symbolSize
    let repairPackets := ceilToU32 (Float32.ofNat numSourceSymbols * redundancyRatio)
    .ok
      { manifest :=
          { totalLen := data.length
            symbolSize := symbolSize
            numSourceSymbols := numSourceSymbols
            otiData := beBytes 8 (rq.transferLength oti) ++ beBytes 2 (rq.symbolSize oti) ++ beBytes 4 numSourceSymbols
            checksum := sha256 data }
        packets := (rq.encodedPackets data symbolSize repairPackets.toNat).map rq.serialize }

def decodePackets (manifest : FountainManifest) (oti : rq.Oti) : rq.Decoder → List Bytes → Except String Bytes
  | _, [] => .error "Insufficient Fountain packets received to reconstruct payload"
  | decoder, packetBytes :: rest =>
    if packetBytes.length < 4 + manifest.symbolSize then .error "fountain packet too short"
    else
      let packet := rq.deserialize packetBytes
      if rq.sourceBlockNumber packet ≥ rq.sourceBlocks oti then .error "fountain packet source block out of range"
      else
        match rq.decode decoder packet with
        | (_, some result) =>
          if ¬ manifest.checksum.isEmpty ∧ sha256 result ≠ manifest.checksum then
            .error "fountain payload checksum mismatch"
          else .ok result
        | (decoder, none) => decodePackets manifest oti decoder rest

def decodeFountain (manifest : FountainManifest) (packets : List Bytes) : Except String Bytes :=
  if manifest.totalLen = 0 ∨ manifest.totalLen > maxFountainLen then .error "invalid fountain total length"
  else if manifest.symbolSize < 16 ∨ manifest.symbolSize > 8192 then .error "invalid fountain symbol size"
  else
    let effectiveSymbolSize :=
      if manifest.symbolSize ≥ 64 then manifest.symbolSize - manifest.symbolSize % 8 else manifest.symbolSize
    if divCeil manifest.totalLen effectiveSymbolSize > maxSourceSymbols then
      .error "fountain source symbol count exceeds limit"
    else
      let oti := rq.withDefaults manifest.totalLen manifest.symbolSize
      if packets.length > maxPackets then .error "too many fountain packets provided"
      else decodePackets rq sha256 manifest oti (rq.new oti) packets

variable {rq sha256} {data : Bytes} {redundancyRatio : Float32} {enc : EncodedFountainPayload}

theorem of_encoded (accepted : encodeFountain rq sha256 data redundancyRatio = .ok enc) :
    0 < data.length ∧ data.length ≤ maxFountainLen ∧ enc.manifest.totalLen = data.length ∧
      enc.manifest.symbolSize = 1024 ∧ enc.manifest.checksum = sha256 data ∧
      ∃ repair, enc.packets = (rq.encodedPackets data 1024 repair).map rq.serialize := by
  obtain ⟨held, accepted⟩ := Fallible.guard_eq_ok.mp accepted
  obtain ⟨bounded, accepted⟩ := Fallible.guard_eq_ok.mp accepted
  obtain ⟨-, accepted⟩ := Fallible.guard_eq_ok.mp accepted
  obtain ⟨-, accepted⟩ := Fallible.guard_eq_ok.mp accepted
  cases accepted
  refine ⟨?_, Nat.not_lt.mp bounded, rfl, rfl, rfl, _, rfl⟩
  exact List.length_pos_iff.mpr fun empty => held (List.isEmpty_iff.mpr empty)

theorem encodeFountain_accepts (held : data ≠ []) (bounded : data.length ≤ maxFountainLen)
    (finite : redundancyRatio.isFinite) (low : 0 ≤ redundancyRatio) (high : redundancyRatio ≤ 10) :
    ∃ enc, encodeFountain rq sha256 data redundancyRatio = .ok enc := by
  have some_byte : ¬ data.isEmpty = true := fun empty => held (List.isEmpty_iff.mp empty)
  have small : ¬ data.length > maxFountainLen := Nat.not_lt.mpr bounded
  have ratio : ¬ (¬ redundancyRatio.isFinite = true ∨ ¬ (0 ≤ redundancyRatio ∧ redundancyRatio ≤ 10)) :=
    fun refused => refused.elim (· finite) (· ⟨low, high⟩)
  unfold encodeFountain
  rw [if_neg some_byte, if_neg small, if_neg ratio, if_neg (not_or.mpr ⟨some_byte, small⟩)]
  exact ⟨_, rfl⟩

/-- A decoder that has been fed packets of the payload without returning returns the payload from the rest. -/
theorem decodePackets_ideal (ideal : rq.Ideal data 1024) {manifest : FountainManifest}
    (size : manifest.symbolSize = 1024)
    (checksum : manifest.checksum = sha256 data) {fed rest : List rq.Packet}
    (genuine : ∀ p ∈ fed ++ rest, rq.Genuine data 1024 p)
    (silent : ∀ front p back, fed = front ++ p :: back →
      (rq.decode (rq.feed (rq.new (rq.config data 1024)) front) p).2 = none)
    (all : ∀ p ∈ rq.encodedPackets data 1024 0, p ∈ fed ++ rest) :
    decodePackets rq sha256 manifest (rq.config data 1024) (rq.feed (rq.new (rq.config data 1024)) fed)
      (rest.map rq.serialize) = .ok data := by
  induction rest generalizing fed with
  | nil =>
    rw [List.append_nil] at genuine all
    -- All source packets are in, so the decoder had returned at one of them.
    obtain ⟨front, p, back, split, returned⟩ := ideal.complete fed genuine all
    rw [silent front p back split] at returned
    cases returned
  | cons p rest ih =>
    have mine := genuine p (by simp)
    have before : ∀ q ∈ fed, rq.Genuine data 1024 q := fun q member => genuine q (List.mem_append_left _ member)
    rw [List.map_cons, decodePackets, if_neg (by rw [ideal.length p mine, size]; exact Nat.lt_irrefl _)]
    simp only [ideal.read p mine, if_neg (Nat.not_le.mpr (ideal.block p mine))]
    cases decoded : rq.decode (rq.feed (rq.new (rq.config data 1024)) fed) p with
    | mk decoder returned =>
      cases returned with
      | some result =>
        obtain rfl := ideal.sound fed before p mine result (by rw [decoded])
        dsimp only
        rw [if_neg fun mismatch => mismatch.2 checksum.symm]
      | none =>
        have fed_more : rq.feed (rq.new (rq.config data 1024)) (fed ++ [p]) = decoder := by
          rw [RaptorQ.feed, List.foldl_append]
          exact congrArg Prod.fst decoded
        dsimp only
        rw [← fed_more]
        -- The packet joins those that were fed without an answer.
        refine ih (by simpa using genuine) ?_ (by simpa using all)
        intro front q back split
        obtain rfl | ⟨back, last, rfl⟩ := List.eq_nil_or_concat back
        · obtain ⟨rfl, same⟩ := List.append_inj' split rfl
          obtain ⟨rfl, -⟩ := List.cons.inj same
          exact congrArg Prod.snd decoded
        · rw [List.concat_eq_append, ← List.cons_append, ← List.append_assoc] at split
          obtain ⟨earlier, -⟩ := List.append_inj' split rfl
          exact silent front q back earlier

/-- The receiver refuses a payload of too many symbols and a list of too many packets, and nothing else. -/
theorem decodeFountain_iff (ideal : rq.Ideal data 1024)
    (accepted : encodeFountain rq sha256 data redundancyRatio = .ok enc) {received : List rq.Packet}
    (genuine : ∀ p ∈ received, rq.Genuine data 1024 p)
    (all : ∀ bytes ∈ enc.packets, bytes ∈ received.map rq.serialize) :
    decodeFountain rq sha256 enc.manifest (received.map rq.serialize) = .ok data ↔
      data.length ≤ 1024 * maxSourceSymbols ∧ received.length ≤ maxPackets := by
  obtain ⟨held, bounded, total, size, checksum, repair, packets⟩ := of_encoded accepted
  have length_ok : ¬ (data.length = 0 ∨ data.length > maxFountainLen) := by omega
  have symbols : divCeil data.length 1024 > maxSourceSymbols ↔ ¬ data.length ≤ 1024 * maxSourceSymbols := by
    rw [gt_iff_lt, Windows.lt_divCeil_iff (by decide), Nat.mul_comm, Nat.not_le]
  unfold decodeFountain
  rw [total, size, if_neg length_ok, if_neg (by decide)]
  simp only [Nat.reduceLeDiff, ge_iff_le, ↓reduceIte, Nat.reduceMod, Nat.sub_zero, Fallible.guard_eq_ok, symbols,
    List.length_map, not_not, Nat.not_lt, gt_iff_lt, ← ideal.defaults]
  refine and_congr_right fun _ => and_iff_left ?_
  have source : ∀ p ∈ rq.encodedPackets data 1024 0, p ∈ [] ++ received := by
    intro p member
    have mine : rq.Genuine data 1024 p := ⟨0, member⟩
    have sent : rq.serialize p ∈ enc.packets := by
      rw [packets]
      exact List.mem_map_of_mem (ideal.source repair p member)
    obtain ⟨q, inside, same⟩ := List.mem_map.mp (all _ sent)
    have read := congrArg rq.deserialize same
    rw [ideal.read p mine, ideal.read q (genuine q inside)] at read
    exact read ▸ inside
  exact decodePackets_ideal ideal size checksum genuine (fun front p back split => by simp at split) source

end Fountain

namespace Systematic

def padded (data : Bytes) (symbolSize : Nat) : Bytes :=
  data ++ List.replicate (divCeil data.length symbolSize * symbolSize - data.length) 0

def packet (data : Bytes) (symbolSize i : Nat) : Nat × Nat × Bytes :=
  (0, i, Windows.window symbolSize (padded data symbolSize) i)

def assembled (oti : Nat × Nat) (seen : List (Nat × Nat × Bytes)) : Option Bytes :=
  ((List.range (divCeil oti.1 oti.2)).mapM fun i => (seen.find? fun p => p.2.1 = i).map fun p => p.2.2).map
    fun symbols => symbols.flatten.take oti.1

end Systematic

open Systematic in
def systematic : RaptorQ where
  Oti := Nat × Nat
  Packet := Nat × Nat × Bytes
  Decoder := (Nat × Nat) × List (Nat × Nat × Bytes)
  withDefaults len symbolSize := (len, symbolSize)
  transferLength := Prod.fst
  symbolSize := Prod.snd
  sourceBlocks _ := 1
  config data symbolSize := (data.length, symbolSize)
  encodedPackets data symbolSize _ := (List.range (divCeil data.length symbolSize)).map (packet data symbolSize)
  serialize p := leBytes 1 p.1 ++ beBytes 3 p.2.1 ++ p.2.2
  deserialize bytes :=
    (leValue (bytes.take 1), leValue ((bytes.drop 1).take 3).reverse, bytes.drop 4)
  sourceBlockNumber := Prod.fst
  new oti := (oti, [])
  decode decoder p := ((decoder.1, decoder.2 ++ [p]), assembled decoder.1 (decoder.2 ++ [p]))

namespace Systematic

variable {data : Bytes}

theorem genuine_iff {p : Nat × Nat × Bytes} : systematic.Genuine data 1024 p ↔
    ∃ i < divCeil data.length 1024, packet data 1024 i = p := by
  refine (exists_const Nat).trans (List.mem_map.trans ?_)
  simp only [List.mem_range]
  exact Iff.rfl

theorem decode_feed (oti : Nat × Nat) (packets : List (Nat × Nat × Bytes)) (p : Nat × Nat × Bytes) :
    (systematic.decode (systematic.feed (systematic.new oti) packets) p).2 = assembled oti (packets ++ [p]) := by
  have fed (seen : List (Nat × Nat × Bytes)) : systematic.feed (oti, seen) packets = (oti, seen ++ packets) := by
    induction packets generalizing seen with
    | nil =>
      rw [List.append_nil]
      rfl
    | cons p rest ih =>
      have next := ih (seen ++ [p])
      rw [List.append_assoc] at next
      exact next
  exact congrArg (fun decoder => (systematic.decode decoder p).2) (fed [])

theorem length_padded (data : Bytes) : (padded data 1024).length = divCeil data.length 1024 * 1024 := by
  have enough := Windows.le_divCeil_mul (a := data.length) (b := 1024) (by decide)
  rw [padded, List.length_append, List.length_replicate]
  omega

theorem take_symbols (data : Bytes) :
    (((List.range (divCeil data.length 1024)).map fun i => (packet data 1024 i).2.2).flatten).take data.length =
      data := by
  have joined := Windows.flatMap_window 1024 (padded data 1024) (divCeil data.length 1024)
  rw [List.take_of_length_le (Nat.le_of_eq (length_padded data)), List.flatMap_def] at joined
  have symbols : ((List.range (divCeil data.length 1024)).map fun i => (packet data 1024 i).2.2).flatten =
      padded data 1024 := joined
  rw [symbols, padded, List.take_left]

theorem assembled_sound {seen : List (Nat × Nat × Bytes)} (mine : ∀ p ∈ seen, systematic.Genuine data 1024 p)
    {result : Bytes} (done : assembled (data.length, 1024) seen = some result) : result = data := by
  obtain ⟨symbols, read, rfl⟩ := Option.map_eq_some_iff.mp done
  have each := Fallible.mapM_eq_some.mp read
  have right : symbols = (List.range (divCeil data.length 1024)).map fun i => (packet data 1024 i).2.2 := by
    apply List.map_injective_iff.mpr (Option.some_injective Bytes)
    rw [← each, List.map_map]
    refine List.map_congr_left fun i member => ?_
    have found : ((seen.find? fun p => p.2.1 = i).map fun p => p.2.2).isSome := by
      have inside := List.mem_map_of_mem (f := fun i => (seen.find? fun p => p.2.1 = i).map fun p => p.2.2) member
      rw [each] at inside
      obtain ⟨symbol, -, same⟩ := List.mem_map.mp inside
      rw [← same]
      rfl
    obtain ⟨symbol, found⟩ := Option.isSome_iff_exists.mp found
    obtain ⟨p, first, rfl⟩ := Option.map_eq_some_iff.mp found
    obtain ⟨j, -, rfl⟩ := genuine_iff.mp (mine p (List.mem_of_find?_eq_some first))
    have matched := List.find?_some first
    obtain rfl : j = i := of_decide_eq_true matched
    exact found
  rw [right]
  exact take_symbols data

theorem assembled_complete {seen : List (Nat × Nat × Bytes)}
    (all : ∀ i < divCeil data.length 1024, packet data 1024 i ∈ seen) :
    (assembled (data.length, 1024) seen).isSome := by
  have each : ∀ i ∈ List.range (divCeil data.length 1024),
      ((seen.find? fun p => p.2.1 = i).map fun p => p.2.2).isSome := by
    intro i member
    rw [Option.isSome_map, List.find?_isSome]
    exact ⟨_, all i (List.mem_range.mp member), decide_eq_true rfl⟩
  rw [assembled, Option.isSome_map]
  exact Fallible.mapM_isSome each

theorem ideal (held : data ≠ []) (bounded : data.length ≤ maxFountainLen) : systematic.Ideal data 1024 where
  defaults := rfl
  source _ _ member := member
  length := by
    intro p mine
    obtain ⟨i, inside, rfl⟩ := genuine_iff.mp mine
    have whole : i * 1024 + 1024 ≤ divCeil data.length 1024 * 1024 := by
      rw [← Nat.succ_mul]
      exact Nat.mul_le_mul_right _ inside
    change (leBytes 1 0 ++ beBytes 3 i ++ Windows.window 1024 (padded data 1024) i).length = _
    rw [List.length_append, List.length_append, length_leBytes, beBytes, List.length_reverse,
      length_leBytes, Windows.window, List.length_take, List.length_drop, length_padded]
    omega
  read := by
    intro p mine
    obtain ⟨i, inside, rfl⟩ := genuine_iff.mp mine
    have few : divCeil data.length 1024 ≤ 65536 := (Windows.divCeil_le_iff (by decide)).mpr bounded
    have small : i < 256 ^ 3 := by omega
    have index : leValue (beBytes 3 i).reverse = i := by
      rw [beBytes, List.reverse_reverse, leValue_leBytes small]
    have length : (beBytes 3 i).length = 3 := by rw [beBytes, List.length_reverse, length_leBytes]
    refine Prod.ext (Nat.zero_add _) (Prod.ext ?_ ?_)
    · change leValue ((beBytes 3 i ++ Windows.window 1024 (padded data 1024) i).take 3).reverse = i
      rw [List.take_left' length, index]
    · refine List.drop_left' ?_
      change (leBytes 1 0 ++ beBytes 3 i).length = 4
      rw [List.length_append, length_leBytes, length]
  block := by
    intro p mine
    obtain ⟨i, inside, rfl⟩ := genuine_iff.mp mine
    exact Nat.zero_lt_one
  sound := by
    intro packets mine p last result returned
    have done := (decode_feed (data.length, 1024) packets p).symm.trans returned
    refine assembled_sound (fun q member => ?_) done
    obtain earlier | rfl := List.mem_append.mp member |>.imp_right List.mem_singleton.mp
    · exact mine q earlier
    · exact last
  complete := by
    intro packets mine all
    have some_symbol : 0 < divCeil data.length 1024 := by
      rw [Windows.lt_divCeil_iff (by decide), Nat.zero_mul]
      exact List.length_pos_iff.mpr held
    have sent : ∀ i < divCeil data.length 1024, packet data 1024 i ∈ packets := fun i inside =>
      all _ (List.mem_map.mpr ⟨i, List.mem_range.mpr inside, rfl⟩)
    obtain rfl | ⟨front, p, rfl⟩ := List.eq_nil_or_concat packets
    · exact absurd (sent 0 some_symbol) List.not_mem_nil
    · refine ⟨front, p, [], List.concat_eq_append, ?_⟩
      rw [List.concat_eq_append] at sent
      exact (congrArg Option.isSome (decode_feed (data.length, 1024) front p)).trans (assembled_complete sent)

end Systematic

/-- The packets come back as the payload, in any order and with any duplicates, exactly for payloads of at most
57344000 bytes and lists of at most 60000 packets. -/
theorem fountain_roundtrip_iff (rq : RaptorQ) (sha256 : Bytes → Bytes) (data : Bytes) (redundancyRatio : Float32)
    (enc : EncodedFountainPayload) (ideal : rq.Ideal data 1024)
    (accepted : encodeFountain rq sha256 data redundancyRatio = .ok enc) (packets : List Bytes)
    (genuine : ∀ bytes ∈ packets, ∃ p, rq.Genuine data 1024 p ∧ rq.serialize p = bytes)
    (all : ∀ bytes ∈ enc.packets, bytes ∈ packets) :
    decodeFountain rq sha256 enc.manifest packets = .ok data ↔ data.length ≤ 57344000 ∧ packets.length ≤ 60000 := by
  obtain ⟨received, mine, rfl⟩ : ∃ received : List rq.Packet, (∀ p ∈ received, rq.Genuine data 1024 p) ∧
      received.map rq.serialize = packets := by
    clear all accepted
    induction packets with
    | nil => exact ⟨[], fun p member => absurd member List.not_mem_nil, rfl⟩
    | cons bytes rest ih =>
      obtain ⟨p, first, rfl⟩ := genuine bytes List.mem_cons_self
      obtain ⟨received, later, rfl⟩ := ih fun bytes member => genuine bytes (List.mem_cons_of_mem _ member)
      exact ⟨p :: received, List.forall_mem_cons.mpr ⟨first, later⟩, rfl⟩
  rw [List.length_map]
  exact decodeFountain_iff ideal accepted mine all

/-- Three bytes, with the digest that SHA-256 gives for them, and each packet twice. -/
theorem small_fountain_roundtrip :
    let sha256 : Bytes → Bytes := fun _ =>
      [0x03, 0x90, 0x58, 0xc6, 0xf2, 0xc0, 0xcb, 0x49, 0x2c, 0x53, 0x3b, 0x0a, 0x4d, 0x14, 0xef, 0x77,
        0xcc, 0x0f, 0x78, 0xab, 0xcc, 0xce, 0xd5, 0x28, 0x7d, 0x84, 0xa1, 0xa2, 0x01, 0x1c, 0xfb, 0x81]
    ∃ enc, encodeFountain systematic sha256 [1, 2, 3] 0 = .ok enc ∧
      decodeFountain systematic sha256 enc.manifest (enc.packets ++ enc.packets) = .ok [1, 2, 3] := by
  intro sha256
  obtain ⟨enc, accepted⟩ := @encodeFountain_accepts systematic sha256 [1, 2, 3] 0
    (by decide) (by decide) (by decide) (by decide) (by decide)
  obtain ⟨-, -, -, -, -, repair, packets⟩ := of_encoded accepted
  refine ⟨enc, accepted, (fountain_roundtrip_iff systematic sha256 [1, 2, 3] 0 enc
    (Systematic.ideal (by decide) (by decide)) accepted (enc.packets ++ enc.packets) ?_ ?_).mpr ?_⟩
  · intro bytes member
    have sent : bytes ∈ enc.packets := (List.mem_append.mp member).elim id id
    rw [packets] at sent
    obtain ⟨p, mine, same⟩ := List.mem_map.mp sent
    exact ⟨p, ⟨repair, mine⟩, same⟩
  · exact fun bytes sent => List.mem_append_left _ sent
  · have one : enc.packets.length = 1 := by
      rw [packets]
      rfl
    rw [List.length_append, one]
    decide

/-- A payload one byte above what the receiver takes, well below what the sender takes. -/
theorem large_payload_lost :
    let data : Bytes := List.replicate 57344001 0
    systematic.Ideal data 1024 ∧ ∃ enc, encodeFountain systematic (fun _ => []) data 0 = .ok enc ∧
      decodeFountain systematic (fun _ => []) enc.manifest enc.packets ≠ .ok data := by
  intro data
  have length : data.length = 57344001 := List.length_replicate
  have held : data ≠ [] := List.ne_nil_of_length_pos (by omega)
  have bounded : data.length ≤ maxFountainLen := by
    rw [length]
    decide
  have ideal := Systematic.ideal held bounded
  obtain ⟨enc, accepted⟩ := @encodeFountain_accepts systematic (fun _ => []) data 0 held bounded
    (by decide) (by decide) (by decide)
  obtain ⟨-, -, -, -, -, repair, packets⟩ := of_encoded accepted
  refine ⟨ideal, enc, accepted, fun done => ?_⟩
  rw [packets] at done
  have limits := (decodeFountain_iff ideal accepted (fun p mine => ⟨repair, mine⟩)
    (fun bytes sent => packets ▸ sent)).mp done
  have cap : 1024 * maxSourceSymbols = 57344000 := rfl
  omega

end Soshal.Storage
