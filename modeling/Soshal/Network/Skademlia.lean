import Soshal.Library.Octets
import Soshal.Library.OrderedMap
import Soshal.Library.Runs
import Soshal.Library.Text
import Soshal.Nostr.Event
import Mathlib.Data.List.MinMax
import Mathlib.Data.LawfulXor.Basic

/-! The S/Kademlia routing table.

A node id is minted: two hashes over the public key and two nonces have to start
with enough zero bits. The table keeps a peer only under an id that it can mint
again from the peer's key and nonces, in the bucket of the number of leading zero
bits of its XOR distance to the local id.
-/

set_option autoImplicit false

namespace Soshal.Network.Skademlia

open Library
open Library.Octets (value leadingZeros)

abbrev Bytes := List UInt8

structure NodeId where
  bytes : Bytes
  size : bytes.length = 32
  deriving DecidableEq

def powStaticDifficultyBits : Nat := 21
def powDynamicDifficultyBits : Nat := 8

def NodeId.value (id : NodeId) : Nat := Octets.value id.bytes

theorem NodeId.value_inj {first second : NodeId} (same : first.value = second.value) : first = second := by
  have bytes := Octets.value_inj (first.size.trans second.size.symm) same
  cases first
  cases second
  congr

structure F64 where
  bits : UInt64
  deriving DecidableEq

namespace F64

def negative (x : F64) : Bool := decide (2 ^ 63 ≤ x.bits.toNat)
def magnitude (x : F64) : Nat := x.bits.toNat % 2 ^ 63
def isNan (x : F64) : Bool := decide (0x7ff0000000000000 < x.magnitude)

/-- Where a double stands in the total order of `total_cmp`, which sets the two zeros and the NaNs apart: the integer
that is compared there, moved up to the naturals. -/
def totalKey (x : F64) : Nat := if x.negative then 2 ^ 63 - 1 - x.magnitude else 2 ^ 63 + x.magnitude

def lt (x y : F64) : Bool :=
  let number (x : F64) : Int := if x.negative then -x.magnitude else x.magnitude
  !x.isNan && !y.isNan && decide (number x < number y)

theorem magnitude_lt (x : F64) : x.magnitude < 2 ^ 63 := Nat.mod_lt _ (by decide)

theorem totalKey_lt_of_lt {x y : F64} (less : x.lt y = true) : x.totalKey < y.totalKey := by
  simp only [lt, Bool.and_eq_true, decide_eq_true_eq] at less
  obtain ⟨-, less⟩ := less
  have first := x.magnitude_lt
  have second := y.magnitude_lt
  unfold totalKey
  cases left : x.negative <;> cases right : y.negative <;>
    simp only [left, right, Bool.false_eq_true, if_true, if_false] at less ⊢ <;> omega

end F64

section Minting

variable (sha256 : Bytes → NodeId)

/-- The number of leading zero bits that are asked for, byte by byte and then under a mask. -/
def checkLeadingZeros (hash : NodeId) (bits : Nat) : Bool :=
  if bits > 256 then false
  else
    let fullBytes := bits / 8
    let remBits := bits % 8
    (hash.bytes.take fullBytes).all (fun b => decide (b = 0)) &&
      (decide (remBits = 0) || decide (hash.bytes.getD fullBytes 0 &&& (0xff <<< UInt8.ofNat (8 - remBits)) = 0))

theorem checkLeadingZeros_iff {hash : NodeId} {bits : Nat} :
    checkLeadingZeros hash bits = true ↔ bits ≤ 256 ∧ hash.value < 2 ^ (256 - bits) := by
  unfold checkLeadingZeros
  split
  case isTrue large => simp [Nat.not_le.mpr large]
  case isFalse fits =>
    rw [not_lt] at fits
    have size := hash.size
    have divided := Nat.div_add_mod bits 8
    have remainder : bits % 8 < 8 := Nat.mod_lt _ (by omega)
    generalize bits / 8 = full at divided
    generalize bits % 8 = rem at divided remainder
    have spelled : hash.value = value (hash.bytes.take full ++ hash.bytes.drop full) := by
      rw [List.take_append_drop]
      rfl
    have length : (hash.bytes.drop full).length = 32 - full := by rw [List.length_drop, size]
    simp only [Bool.and_eq_true, List.all_eq_true, decide_eq_true_eq, Bool.or_eq_true, fits, true_and]
    rw [spelled]
    obtain rfl | partly := Nat.eq_zero_or_pos rem
    · have exponent : 2 ^ (256 - bits) = 256 ^ (hash.bytes.drop full).length := by
        rw [length, ← Octets.two_pow_mul]
        congr 1
        omega
      rw [exponent, Octets.value_append_lt_iff, and_iff_left (.inl rfl)]
    · -- The mask reaches into the byte after the whole ones.
      have inside : full < hash.bytes.length := by omega
      have rest : (hash.bytes.drop (full + 1)).length = 31 - full := by rw [List.length_drop, size]; omega
      have exponent : 2 ^ (256 - bits) = 2 ^ (8 * (hash.bytes.drop (full + 1)).length + (8 - rem)) := by
        rw [rest]
        congr 1
        omega
      rw [exponent, List.drop_eq_getElem_cons inside, Octets.value_append_cons_lt_iff (by omega),
        List.getD_eq_getElem?_getD, List.getElem?_eq_getElem inside, Option.getD_some,
        Octets.masked_eq_zero_iff (by omega), or_iff_right (by omega)]

def u64BeBytes (n : UInt64) : Bytes := (Nostr.beBytes 8 n.toNat).toList

def staticHash (pubkey : String) (staticNonce : UInt64) : NodeId := sha256 (Text.utf8 pubkey ++ u64BeBytes staticNonce)

def dynamicHash (pubkey : String) (staticNonce dynamicNonce : UInt64) : NodeId :=
  sha256 ((staticHash sha256 pubkey staticNonce).bytes ++ u64BeBytes dynamicNonce)

def generateNodeId (pubkey : String) (staticNonce dynamicNonce : UInt64) : Option NodeId :=
  if checkLeadingZeros (staticHash sha256 pubkey staticNonce) powStaticDifficultyBits then
    let nodeId := dynamicHash sha256 pubkey staticNonce dynamicNonce
    if checkLeadingZeros nodeId powDynamicDifficultyBits then some nodeId else none
  else none

/-- The id of a peer is minted from its key and nonces: both hashes start with the zero bits that are asked for. -/
def Minted (pubkey : String) (staticNonce dynamicNonce : UInt64) (nodeId : NodeId) : Prop :=
  (staticHash sha256 pubkey staticNonce).value < 2 ^ (256 - powStaticDifficultyBits) ∧
    nodeId = dynamicHash sha256 pubkey staticNonce dynamicNonce ∧ nodeId.value < 2 ^ (256 - powDynamicDifficultyBits)

variable {sha256}

theorem generateNodeId_eq_some {pubkey : String} {staticNonce dynamicNonce : UInt64} {nodeId : NodeId} :
    generateNodeId sha256 pubkey staticNonce dynamicNonce = some nodeId ↔
      Minted sha256 pubkey staticNonce dynamicNonce nodeId := by
  have static : powStaticDifficultyBits ≤ 256 := by decide
  have dynamic : powDynamicDifficultyBits ≤ 256 := by decide
  simp only [generateNodeId, Minted, checkLeadingZeros_iff, static, dynamic, true_and]
  constructor
  · intro minted
    split at minted
    case isFalse => cases minted
    case isTrue first =>
      split at minted
      case isFalse => cases minted
      case isTrue second =>
        cases minted
        exact ⟨first, rfl, second⟩
  · rintro ⟨first, rfl, second⟩
    rw [if_pos first, if_pos second]

/-- The first nonces within the budgets that mint an id the predicate accepts. -/
def findPowNoncesWhere (sha256 : Bytes → NodeId) (pubkey : String) (staticBudget dynamicBudget : UInt64)
    (predicate : NodeId → Bool) : Option (UInt64 × UInt64 × NodeId) :=
  (List.range staticBudget.toNat).findSome? fun n =>
    let staticNonce := UInt64.ofNat n
    if checkLeadingZeros (staticHash sha256 pubkey staticNonce) powStaticDifficultyBits then
      (List.range dynamicBudget.toNat).findSome? fun n =>
        let dynamicNonce := UInt64.ofNat n
        let nodeId := dynamicHash sha256 pubkey staticNonce dynamicNonce
        if checkLeadingZeros nodeId powDynamicDifficultyBits && predicate nodeId then
          some (staticNonce, dynamicNonce, nodeId)
        else none
    else none

end Minting

def xorDistance (a b : NodeId) : NodeId where
  bytes := List.zipWith (· ^^^ ·) a.bytes b.bytes
  size := by rw [List.length_zipWith, a.size, b.size]; rfl

theorem value_xorDistance (a b : NodeId) : (xorDistance a b).value = a.value ^^^ b.value :=
  Octets.value_xor (a.size.trans b.size.symm)

structure SkademliaPeer where
  nodeId : NodeId
  pubkey : String
  address : String
  reputationScore : F64
  staticNonce : UInt64
  dynamicNonce : UInt64
  deriving DecidableEq

structure SkademliaRoutingTable where
  selfNodeId : NodeId
  kBuckets : OrderedMap Nat (List SkademliaPeer)
  bucketCapacity : Nat

def firstNonzero (position : Nat) : Bytes → Option (Nat × UInt8)
  | [] => none
  | byte :: rest => if byte ≠ 0 then some (position, byte) else firstNonzero (position + 1) rest

namespace SkademliaRoutingTable

def new (selfNodeId : NodeId) (bucketCapacity : Nat) : SkademliaRoutingTable := ⟨selfNodeId, .empty, bucketCapacity⟩

def bucketIndex (table : SkademliaRoutingTable) (other : NodeId) : Nat :=
  match firstNonzero 0 (xorDistance table.selfNodeId other).bytes with
  | some (i, byte) => i * 8 + leadingZeros byte
  | none => 256

/-- A bucket after a peer that belongs there has come up, and whether it is in it. -/
def intoBucket (capacity : Nat) (bucket : List SkademliaPeer) (peer : SkademliaPeer) : List SkademliaPeer × Bool :=
  match bucket.findIdx? fun p => decide (p.nodeId = peer.nodeId) with
  | some existing => (bucket.set existing peer, true)
  | none =>
    if bucket.length < capacity then (bucket ++ [peer], true)
    else
      match bucket.zipIdx.argmin fun entry => entry.1.reputationScore.totalKey with
      | some (lowest, lowestIdx) =>
        if lowest.reputationScore.lt peer.reputationScore then (bucket.set lowestIdx peer, true)
        else (bucket, false)
      | none => (bucket, false)

def addPeer (sha256 : Bytes → NodeId) (table : SkademliaRoutingTable) (peer : SkademliaPeer) :
    SkademliaRoutingTable × Bool :=
  if peer.nodeId = table.selfNodeId then (table, false)
  else if generateNodeId sha256 peer.pubkey peer.staticNonce peer.dynamicNonce ≠ some peer.nodeId then (table, false)
  else
    let index := table.bucketIndex peer.nodeId
    -- An empty bucket stays in the table even when it takes nobody.
    let (bucket, added) := intoBucket table.bucketCapacity ((table.kBuckets.get? index).getD []) peer
    ({ table with kBuckets := table.kBuckets.insert index bucket }, added)

def peers (table : SkademliaRoutingTable) : List SkademliaPeer := table.kBuckets.values.flatten

end SkademliaRoutingTable

open SkademliaRoutingTable

theorem firstNonzero_some {position i : Nat} {byte : UInt8} {bytes : Bytes}
    (found : firstNonzero position bytes = some (i, byte)) :
    ∃ zeros rest, i = position + zeros ∧ bytes = List.replicate zeros 0 ++ byte :: rest ∧ byte ≠ 0 := by
  induction bytes generalizing position with
  | nil => cases found
  | cons first rest ih =>
    unfold firstNonzero at found
    split at found
    · rename_i nonzero
      cases found
      exact ⟨0, rest, rfl, rfl, nonzero⟩
    · rename_i zero
      obtain ⟨zeros, tail, rfl, rfl, nonzero⟩ := ih found
      rw [not_not] at zero
      subst zero
      exact ⟨zeros + 1, tail, by omega, rfl, nonzero⟩

theorem firstNonzero_none {position : Nat} {bytes : Bytes} (missing : firstNonzero position bytes = none) :
    ∀ byte ∈ bytes, byte = 0 := by
  induction bytes generalizing position with
  | nil => simp
  | cons first rest ih =>
    unfold firstNonzero at missing
    split at missing
    · cases missing
    · rename_i zero
      rw [not_not] at zero
      exact List.forall_mem_cons.mpr ⟨zero, ih missing⟩

theorem bucketIndex_bounds (table : SkademliaRoutingTable) {other : NodeId} (differ : other ≠ table.selfNodeId) :
    table.bucketIndex other < 256 ∧ 2 ^ (255 - table.bucketIndex other) ≤ table.selfNodeId.value ^^^ other.value ∧
      table.selfNodeId.value ^^^ other.value < 2 ^ (256 - table.bucketIndex other) := by
  rw [← value_xorDistance]
  have size := (xorDistance table.selfNodeId other).size
  unfold bucketIndex
  cases found : firstNonzero 0 (xorDistance table.selfNodeId other).bytes with
  | none =>
    -- No byte differs, so the id is the local one.
    have zero : (xorDistance table.selfNodeId other).value = 0 :=
      Octets.value_eq_zero_iff.mpr (firstNonzero_none found)
    rw [value_xorDistance, xor_eq_zero_iff] at zero
    exact absurd (NodeId.value_inj zero.symm) differ
  | some entry =>
    obtain ⟨i, byte⟩ := entry
    obtain ⟨zeros, rest, rfl, spelled, nonzero⟩ := firstNonzero_some found
    obtain ⟨short, -⟩ := Octets.leadingZeros_bounds nonzero
    obtain ⟨low, high⟩ := Octets.value_bounds zeros nonzero rest
    rw [← spelled] at low high
    rw [spelled, List.length_append, List.length_replicate, List.length_cons] at size
    dsimp only
    refine ⟨by omega, ?_, ?_⟩
    · rw [show 255 - ((0 + zeros) * 8 + leadingZeros byte) = 8 * rest.length + (7 - leadingZeros byte) by omega]
      exact low
    · rw [show 256 - ((0 + zeros) * 8 + leadingZeros byte) = 8 * rest.length + (8 - leadingZeros byte) by omega]
      exact high

theorem intoBucket_cases {capacity : Nat} {bucket after : List SkademliaPeer} {peer : SkademliaPeer} {added : Bool}
    (admitted : intoBucket capacity bucket peer = (after, added)) :
    (∃ existing, ∃ inside : existing < bucket.length, bucket[existing].nodeId = peer.nodeId ∧
        after = bucket.set existing peer ∧ added = true) ∨
      peer.nodeId ∉ bucket.map SkademliaPeer.nodeId ∧
        ((bucket.length < capacity ∧ after = bucket ++ [peer] ∧ added = true) ∨
          (∃ lowestIdx, ∃ inside : lowestIdx < bucket.length, capacity ≤ bucket.length ∧
            (∀ p ∈ bucket, bucket[lowestIdx].reputationScore.totalKey ≤ p.reputationScore.totalKey) ∧
            bucket[lowestIdx].reputationScore.lt peer.reputationScore = true ∧
            after = bucket.set lowestIdx peer ∧ added = true) ∨
          capacity ≤ bucket.length ∧ after = bucket ∧ added = false) := by
  unfold intoBucket at admitted
  split at admitted
  · rename_i existing found
    obtain ⟨inside, same, -⟩ := List.findIdx?_eq_some_iff_getElem.mp found
    cases admitted
    exact .inl ⟨existing, inside, of_decide_eq_true same, rfl, rfl⟩
  · rename_i missing
    have absent : peer.nodeId ∉ bucket.map SkademliaPeer.nodeId := by
      intro member
      obtain ⟨other, stored, same⟩ := List.mem_map.mp member
      have differs := List.findIdx?_eq_none_iff.mp missing other stored
      simp [same] at differs
    refine .inr ⟨absent, ?_⟩
    split at admitted
    · rename_i space
      cases admitted
      exact .inl ⟨space, rfl, rfl⟩
    · rename_i full
      rw [not_lt] at full
      split at admitted
      · rename_i lowest lowestIdx least
        have position : bucket[lowestIdx]? = some lowest :=
          List.mem_zipIdx_iff_getElem?.mp (List.argmin_mem (Option.mem_def.mpr least))
        obtain ⟨inside, rfl⟩ := List.getElem?_eq_some_iff.mp position
        -- The least entry with its position is the least score.
        have below : ∀ p ∈ bucket, bucket[lowestIdx].reputationScore.totalKey ≤ p.reputationScore.totalKey := by
          intro p stored
          obtain ⟨position, bound, rfl⟩ := List.getElem_of_mem stored
          have entry : (bucket[position], position) ∈ bucket.zipIdx :=
            List.mem_zipIdx_iff_getElem?.mpr (List.getElem?_eq_getElem bound)
          exact List.le_of_mem_argmin (f := fun entry : SkademliaPeer × Nat => entry.1.reputationScore.totalKey) entry
            (Option.mem_def.mpr least)
        split at admitted
        · rename_i worse
          cases admitted
          exact .inr (.inl ⟨lowestIdx, inside, full, below, worse, rfl, rfl⟩)
        · cases admitted
          exact .inr (.inr ⟨full, rfl, rfl⟩)
      · cases admitted
        exact .inr (.inr ⟨full, rfl, rfl⟩)

/-- A newcomer to a full bucket takes the place of a peer of the lowest score, which is below its own, so the lowest
score does not fall. -/
theorem intoBucket_displaces {capacity : Nat} {bucket after : List SkademliaPeer} {peer : SkademliaPeer}
    (full : capacity ≤ bucket.length) (absent : peer.nodeId ∉ bucket.map SkademliaPeer.nodeId)
    (admitted : intoBucket capacity bucket peer = (after, true)) :
    ∃ lowestIdx, ∃ inside : lowestIdx < bucket.length, after = bucket.set lowestIdx peer ∧
      bucket[lowestIdx].reputationScore.totalKey < peer.reputationScore.totalKey ∧
      ∀ p ∈ bucket ++ after, bucket[lowestIdx].reputationScore.totalKey ≤ p.reputationScore.totalKey := by
  obtain ⟨existing, inside, same, -⟩ | ⟨-, ⟨space, -⟩ | ⟨lowestIdx, inside, -, least, worse, rfl, -⟩ | ⟨-, -, kept⟩⟩ :=
    intoBucket_cases admitted
  · exact absurd (List.mem_map.mpr ⟨_, List.getElem_mem inside, same⟩) absent
  · omega
  · have below := F64.totalKey_lt_of_lt worse
    refine ⟨lowestIdx, inside, rfl, below, ?_⟩
    intro p member
    obtain before | after := List.mem_append.mp member
    · exact least p before
    · obtain stayed | new := List.mem_or_eq_of_mem_set after
      · exact least p stayed
      · rw [new]
        exact below.le
  · cases kept

theorem intoBucket_displaces_one :
    let worse : SkademliaPeer := ⟨⟨.replicate 32 1, rfl⟩, "a", "", ⟨0x3ff0000000000000⟩, 0, 0⟩
    let better : SkademliaPeer := ⟨⟨.replicate 32 2, rfl⟩, "b", "", ⟨0x4000000000000000⟩, 0, 0⟩
    let newcomer : SkademliaPeer := ⟨⟨.replicate 32 3, rfl⟩, "c", "", ⟨0x3ff8000000000000⟩, 0, 0⟩
    ∃ lowestIdx, ∃ inside : lowestIdx < [better, worse].length,
      [better, newcomer] = [better, worse].set lowestIdx newcomer ∧
      [better, worse][lowestIdx].reputationScore.totalKey < newcomer.reputationScore.totalKey ∧
      ∀ p ∈ [better, worse] ++ [better, newcomer],
        [better, worse][lowestIdx].reputationScore.totalKey ≤ p.reputationScore.totalKey := by
  intro worse better newcomer
  exact @intoBucket_displaces 2 [better, worse] _ newcomer (by decide) (by decide) (by decide)

/-- What `addPeer` does: it refuses the peer outright, or puts it up for its bucket. -/
theorem addPeer_cases {sha256 : Bytes → NodeId} (table : SkademliaRoutingTable) (peer : SkademliaPeer) :
    ((peer.nodeId = table.selfNodeId ∨ ¬ Minted sha256 peer.pubkey peer.staticNonce peer.dynamicNonce peer.nodeId) ∧
        table.addPeer sha256 peer = (table, false)) ∨
      (peer.nodeId ≠ table.selfNodeId ∧ Minted sha256 peer.pubkey peer.staticNonce peer.dynamicNonce peer.nodeId ∧
        ∃ bucket added,
          intoBucket table.bucketCapacity ((table.kBuckets.get? (table.bucketIndex peer.nodeId)).getD []) peer =
            (bucket, added) ∧
          table.addPeer sha256 peer =
            ({ table with kBuckets := table.kBuckets.insert (table.bucketIndex peer.nodeId) bucket }, added)) := by
  unfold addPeer
  split
  · rename_i self
    exact .inl ⟨.inl self, rfl⟩
  · rename_i other
    split
    · rename_i forged
      exact .inl ⟨.inr (mt generateNodeId_eq_some.mpr forged), rfl⟩
    · rename_i minted
      exact .inr ⟨other, generateNodeId_eq_some.mp (not_not.mp minted), _, _, rfl, rfl⟩

/-- One bucket: within the capacity, with distinct ids that belong there and are minted. -/
structure Kept (sha256 : Bytes → NodeId) (table : SkademliaRoutingTable) (index : Nat) (bucket : List SkademliaPeer) :
    Prop where
  capped : bucket.length ≤ table.bucketCapacity
  distinct : (bucket.map SkademliaPeer.nodeId).Nodup
  placed : ∀ peer ∈ bucket, table.bucketIndex peer.nodeId = index
  minted : ∀ peer ∈ bucket, Minted sha256 peer.pubkey peer.staticNonce peer.dynamicNonce peer.nodeId
  other : ∀ peer ∈ bucket, peer.nodeId ≠ table.selfNodeId

variable {sha256 : Bytes → NodeId}

theorem kept_nil (table : SkademliaRoutingTable) (index : Nat) : Kept sha256 table index [] where
  capped := Nat.zero_le _
  distinct := List.nodup_nil
  placed := nofun
  minted := nofun
  other := nofun

theorem Kept.set {table : SkademliaRoutingTable} {bucket : List SkademliaPeer} {peer : SkademliaPeer}
    (kept : Kept sha256 table (table.bucketIndex peer.nodeId) bucket) {position : Nat}
    (distinct : ((bucket.set position peer).map SkademliaPeer.nodeId).Nodup)
    (minted : Minted sha256 peer.pubkey peer.staticNonce peer.dynamicNonce peer.nodeId)
    (other : peer.nodeId ≠ table.selfNodeId) :
    Kept sha256 table (table.bucketIndex peer.nodeId) (bucket.set position peer) where
  capped := by rw [List.length_set]; exact kept.capped
  distinct := distinct
  placed p member := (List.mem_or_eq_of_mem_set member).elim (kept.placed p) fun same => same ▸ rfl
  minted p member := (List.mem_or_eq_of_mem_set member).elim (kept.minted p) fun same => same ▸ minted
  other p member := (List.mem_or_eq_of_mem_set member).elim (kept.other p) fun same => same ▸ other

theorem Kept.intoBucket {table : SkademliaRoutingTable} {bucket after : List SkademliaPeer} {peer : SkademliaPeer}
    (kept : Kept sha256 table (table.bucketIndex peer.nodeId) bucket) {added : Bool}
    (minted : Minted sha256 peer.pubkey peer.staticNonce peer.dynamicNonce peer.nodeId)
    (other : peer.nodeId ≠ table.selfNodeId)
    (admitted : SkademliaRoutingTable.intoBucket table.bucketCapacity bucket peer = (after, added)) :
    Kept sha256 table (table.bucketIndex peer.nodeId) after := by
  obtain ⟨existing, inside, same, rfl, -⟩ | ⟨absent, ⟨space, rfl, -⟩ | ⟨lowestIdx, -, -, -, -, rfl, -⟩ | ⟨-, rfl, -⟩⟩ :=
    intoBucket_cases admitted
  · -- A known peer is put in its own place, so the ids stay the same.
    refine kept.set ?_ minted other
    have unchanged : (bucket.map SkademliaPeer.nodeId).set existing peer.nodeId = bucket.map SkademliaPeer.nodeId := by
      rw [← same, ← List.getElem_map SkademliaPeer.nodeId (h := by simpa using inside)]
      exact List.set_getElem_self _
    rw [List.map_set, unchanged]
    exact kept.distinct
  · refine ⟨by rw [List.length_append]; exact space, ?_, ?_, ?_, ?_⟩
    · rw [List.map_append, List.map_singleton]
      exact List.nodup_append.mpr ⟨kept.distinct, List.nodup_singleton _, by simpa using absent⟩
    all_goals
      intro p member
      obtain before | last := List.mem_append.mp member
    · exact kept.placed p before
    · rw [List.mem_singleton.mp last]
    · exact kept.minted p before
    · exact List.mem_singleton.mp last ▸ minted
    · exact kept.other p before
    · exact List.mem_singleton.mp last ▸ other
  · -- A newcomer with a new id takes the place of another.
    refine kept.set ?_ minted other
    rw [List.map_set]
    exact kept.distinct.set absent
  · exact kept

def AllKept (sha256 : Bytes → NodeId) (table : SkademliaRoutingTable) : Prop :=
  ∀ entry ∈ table.kBuckets, Kept sha256 table entry.1 entry.2

theorem AllKept.addPeer {table : SkademliaRoutingTable} (kept : AllKept sha256 table) (peer : SkademliaPeer) :
    AllKept sha256 (table.addPeer sha256 peer).1 := by
  obtain ⟨-, refused⟩ | ⟨other, minted, bucket, added, admitted, put⟩ := @addPeer_cases sha256 table peer
  · rw [refused]
    exact kept
  · rw [put]
    have before : Kept sha256 table (table.bucketIndex peer.nodeId)
        ((table.kBuckets.get? (table.bucketIndex peer.nodeId)).getD []) := by
      cases found : table.kBuckets.get? (table.bucketIndex peer.nodeId) with
      | none => exact kept_nil _ _
      | some bucket => exact kept _ (OrderedMap.get?_eq_some.mp found)
    have after := before.intoBucket minted other admitted
    rintro entry member
    obtain rfl | ⟨old, -⟩ := OrderedMap.mem_insert.mp member
    · exact ⟨after.capped, after.distinct, after.placed, after.minted, after.other⟩
    · -- The other buckets are as they were, and the places do not depend on the buckets.
      obtain ⟨capped, distinct, placed, minted, other⟩ := kept entry old
      exact ⟨capped, distinct, placed, minted, other⟩

theorem mem_peers {table : SkademliaRoutingTable} {peer : SkademliaPeer} :
    peer ∈ table.peers ↔ ∃ entry ∈ table.kBuckets, peer ∈ entry.2 := by
  rw [peers, OrderedMap.values, List.mem_flatten]
  constructor
  · rintro ⟨bucket, member, stored⟩
    obtain ⟨entry, inside, rfl⟩ := List.mem_map.mp member
    exact ⟨entry, inside, stored⟩
  · rintro ⟨entry, inside, stored⟩
    exact ⟨entry.2, List.mem_map_of_mem inside, stored⟩

theorem AllKept.distinct {table : SkademliaRoutingTable} (kept : AllKept sha256 table) :
    (table.peers.map SkademliaPeer.nodeId).Nodup := by
  rw [peers, OrderedMap.values, List.map_flatten, List.map_map, List.nodup_flatten]
  constructor
  · intro ids member
    obtain ⟨entry, stored, rfl⟩ := List.mem_map.mp member
    exact (kept entry stored).distinct
  · rw [List.pairwise_map]
    refine table.kBuckets.sorted.imp_of_mem ?_
    -- An id in two buckets would have two places.
    intro first second one two below id here there
    obtain ⟨peer, member, rfl⟩ := List.mem_map.mp here
    obtain ⟨peer', member', same⟩ := List.mem_map.mp there
    have place := (kept first one).placed peer member
    have place' := (kept second two).placed peer' member'
    rw [same, place] at place'
    omega

theorem added_iff_stored {table : SkademliaRoutingTable} (kept : AllKept sha256 table) (peer : SkademliaPeer) :
    (table.addPeer sha256 peer).2 = true ↔ peer ∈ (table.addPeer sha256 peer).1.peers := by
  obtain ⟨refusal, refused⟩ | ⟨other, minted, bucket, added, admitted, put⟩ :=
    @addPeer_cases sha256 table peer
  · rw [refused, mem_peers]
    simp only [Bool.false_eq_true, false_iff, not_exists, not_and]
    intro entry member stored
    have own := (kept entry member).other peer stored
    have bound := (kept entry member).minted peer stored
    exact refusal.elim own fun forged => forged bound
  · rw [put, mem_peers]
    have entry : (table.bucketIndex peer.nodeId, bucket) ∈
        table.kBuckets.insert (table.bucketIndex peer.nodeId) bucket := OrderedMap.mem_insert.mpr (.inl rfl)
    have answered : added = true ↔ peer ∈ bucket := by
      obtain ⟨existing, inside, -, rfl, rfl⟩ | ⟨absent, ⟨-, rfl, rfl⟩ | ⟨lowestIdx, inside, -, -, -, rfl, rfl⟩ |
        ⟨-, rfl, rfl⟩⟩ := intoBucket_cases admitted
      · exact iff_of_true rfl (List.mem_set inside _)
      · simp
      · exact iff_of_true rfl (List.mem_set inside _)
      · simp only [Bool.false_eq_true, false_iff]
        exact fun stored => absent (List.mem_map_of_mem stored)
    rw [answered]
    constructor
    · intro stored
      exact ⟨_, entry, stored⟩
    · rintro ⟨found, member, stored⟩
      obtain rfl | ⟨old, apart⟩ := OrderedMap.mem_insert.mp member
      · exact stored
      · -- An older bucket that holds the peer has its index.
        exact absurd ((kept found old).placed peer stored).symm apart

def step (sha256 : Bytes → NodeId) (table : SkademliaRoutingTable) (peer : SkademliaPeer) : SkademliaRoutingTable :=
  (table.addPeer sha256 peer).1

/-- Every bucket is within the capacity and holds peers whose distance has as many leading zero bits, no id is stored
twice, every stored id is minted, and the local one is not stored. -/
structure Sound (sha256 : Bytes → NodeId) (selfNodeId : NodeId) (bucketCapacity : Nat) (table : SkademliaRoutingTable) :
    Prop where
  capped : ∀ entry ∈ table.kBuckets, entry.2.length ≤ bucketCapacity
  placed : ∀ entry ∈ table.kBuckets, ∀ peer ∈ entry.2, entry.1 < 256 ∧
    2 ^ (255 - entry.1) ≤ selfNodeId.value ^^^ peer.nodeId.value ∧
      selfNodeId.value ^^^ peer.nodeId.value < 2 ^ (256 - entry.1)
  distinct : (table.peers.map SkademliaPeer.nodeId).Nodup
  minted : ∀ peer ∈ table.peers, Minted sha256 peer.pubkey peer.staticNonce peer.dynamicNonce peer.nodeId
  other : ∀ peer ∈ table.peers, peer.nodeId ≠ selfNodeId

theorem AllKept.sound {table : SkademliaRoutingTable} (kept : AllKept sha256 table) :
    Sound sha256 table.selfNodeId table.bucketCapacity table where
  capped entry member := (kept entry member).capped
  placed entry member peer stored := by
    have bounds := bucketIndex_bounds table ((kept entry member).other peer stored)
    rwa [(kept entry member).placed peer stored] at bounds
  distinct := kept.distinct
  minted peer stored := by
    obtain ⟨entry, member, inside⟩ := mem_peers.mp stored
    exact (kept entry member).minted peer inside
  other peer stored := by
    obtain ⟨entry, member, inside⟩ := mem_peers.mp stored
    exact (kept entry member).other peer inside

theorem addPeer_config (table : SkademliaRoutingTable) (peer : SkademliaPeer) :
    (table.addPeer sha256 peer).1.selfNodeId = table.selfNodeId ∧
      (table.addPeer sha256 peer).1.bucketCapacity = table.bucketCapacity := by
  obtain ⟨-, refused⟩ | ⟨-, -, bucket, added, -, put⟩ := @addPeer_cases sha256 table peer
  · rw [refused]
    exact ⟨rfl, rfl⟩
  · rw [put]
    exact ⟨rfl, rfl⟩

theorem allKept_run (sha256 : Bytes → NodeId) (selfNodeId : NodeId) (bucketCapacity : Nat)
    (calls : List SkademliaPeer) : Runs.Always (step sha256)
      (fun table => AllKept sha256 table ∧ table.selfNodeId = selfNodeId ∧ table.bucketCapacity = bucketCapacity)
      (new selfNodeId bucketCapacity) calls := by
  refine Runs.always_of_invariant ?_ ⟨nofun, rfl, rfl⟩
  rintro table peer ⟨kept, rfl, rfl⟩
  exact ⟨kept.addPeer peer, addPeer_config table peer⟩

/-- In every table that calls have led to, the answer of the next `addPeer` says whether its peer is in the table. -/
theorem answer_iff_stored (sha256 : Bytes → NodeId) (selfNodeId : NodeId) (bucketCapacity : Nat)
    (calls : List SkademliaPeer) (peer : SkademliaPeer) :
    ((Runs.run (step sha256) (new selfNodeId bucketCapacity) calls).addPeer sha256 peer).2 = true ↔
      peer ∈ ((Runs.run (step sha256) (new selfNodeId bucketCapacity) calls).addPeer sha256 peer).1.peers :=
  added_iff_stored (allKept_run sha256 selfNodeId bucketCapacity calls).last.1 peer

theorem add_peer_sound (sha256 : Bytes → NodeId) (selfNodeId : NodeId) (bucketCapacity : Nat)
    (calls : List SkademliaPeer) :
    Runs.Always (step sha256) (Sound sha256 selfNodeId bucketCapacity) (new selfNodeId bucketCapacity) calls := by
  refine (allKept_run sha256 selfNodeId bucketCapacity calls).imp ?_
  rintro table ⟨kept, rfl, rfl⟩
  exact kept.sound

end Soshal.Network.Skademlia
