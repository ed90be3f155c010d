import Soshal.Library.Recent
import Soshal.Library.Runs
import Soshal.Library.Table
import Soshal.Network.Beacon

/-! The replay guard for beacons.

Each peer's last nonces are remembered in a queue. When a new peer finds the table
full, an arbitrary peer is dropped and its nonces become tombstones. A nonce falls
out of memory when its peer sends enough others, or when enough tombstones follow.
-/

set_option autoImplicit false

namespace Soshal.Network.Beacon

open Library
open Library.Text (startsWith)

structure BeaconSeq where
  seen : Table String (List Nonce)
  evicted : List Nonce

namespace BeaconSeq

def maxNoncesPerPeer : Nat := 64
def maxTrackedPeers : Nat := 1024
def maxEvictedTombstones : Nat := 16384

def new : BeaconSeq := ⟨.empty, []⟩

def queueOf (seq : BeaconSeq) (peer : String) : List Nonce := (seq.seen.find? peer).getD []

def evicts (seq : BeaconSeq) (peer : String) : Bool :=
  decide (peer ∉ seq.seen.keys) && decide (maxTrackedPeers ≤ seq.seen.keys.length)

def bury (evicted : List Nonce) : List Nonce → List Nonce
  | [] => evicted
  | nonce :: queue => bury (if nonce ∈ evicted then evicted else evicted ++ [nonce]) queue

/-- Dropping a peer. The order of a hash map's keys is arbitrary: `pick` stands for it. -/
def evict (seq : BeaconSeq) (pick : Nat) : BeaconSeq :=
  match seq.seen.keys[pick % seq.seen.keys.length]? with
  | none => seq
  | some victim =>
    let evicted := bury seq.evicted (seq.queueOf victim)
    { seen := seq.seen.delete fun peer _ => peer = victim
      evicted := evicted.drop (evicted.length - maxEvictedTombstones) }

def makeRoom (seq : BeaconSeq) (pick : Nat) (peer : String) : BeaconSeq :=
  if seq.evicts peer then seq.evict pick else seq

def remember (queue : List Nonce) (nonce : Nonce) : List Nonce :=
  (if queue.length ≥ maxNoncesPerPeer then queue.tail else queue) ++ [nonce]

def record (seq : BeaconSeq) (peer : String) (nonce : Nonce) : BeaconSeq :=
  let queue := remember (seq.queueOf peer) nonce
  { seq with seen := seq.seen.upsert peer queue fun _ => queue }

def checkAndRecord (seq : BeaconSeq) (pick : Nat) (peer : String) (nonce : Nonce) : BeaconSeq × Bool :=
  let seq := seq.makeRoom pick peer
  if nonce ∈ seq.evicted then (seq, false)
  else if nonce ∈ seq.queueOf peer then (seq, false)
  else (seq.record peer nonce, true)

end BeaconSeq

/-- A line as it arrives, with the arbitrary choice of a hash map at that time. -/
structure Arrival where
  line : String
  now : UInt64
  pick : Nat

section Receiver

variable (hmacSha256 : List UInt8 → List UInt8 → List UInt8) (key : List UInt8) (magic : String) (defaultPort : UInt16)

/-- The guard after an arrival, and whether the line was accepted. -/
def receive (seq : BeaconSeq) (a : Arrival) : BeaconSeq × Bool :=
  match parseBeacon hmacSha256 key magic a.line defaultPort a.now with
  | none => (seq, false)
  | some (pk, _, nonce) => seq.checkAndRecord a.pick pk nonce

def next (seq : BeaconSeq) (a : Arrival) : BeaconSeq := (receive hmacSha256 key magic defaultPort seq a).1

def peerOf (line : String) : Option String := (splitFields line).map BeaconFields.pubkey

def acceptedOf (peer : Option String) : BeaconSeq → List Arrival → Nat
  | _, [] => 0
  | seq, a :: rest =>
    let (after, accepted) := receive hmacSha256 key magic defaultPort seq a
    (if accepted && peerOf a.line == peer then 1 else 0) + acceptedOf peer after rest

def buriedBy (seq : BeaconSeq) (a : Arrival) : Nat :=
  match parseBeacon hmacSha256 key magic a.line defaultPort a.now with
  | none => 0
  | some (pk, _, _) =>
    if seq.evicts pk then
      match seq.seen.keys[a.pick % seq.seen.keys.length]? with
      | none => 0
      | some victim =>
        (BeaconSeq.bury seq.evicted (seq.queueOf victim)).length - seq.evicted.length
    else 0

def buried : BeaconSeq → List Arrival → Nat
  | _, [] => 0
  | seq, a :: rest =>
    buriedBy hmacSha256 key magic defaultPort seq a + buried (next hmacSha256 key magic defaultPort seq a) rest

end Receiver

namespace BeaconSeq

structure Bounded (seq : BeaconSeq) : Prop where
  peers : seq.seen.keys.length ≤ maxTrackedPeers
  nonces : ∀ peer queue, seq.seen.find? peer = some queue → queue.length ≤ maxNoncesPerPeer
  tombstones : seq.evicted.length ≤ maxEvictedTombstones

theorem bounded_new : new.Bounded where
  peers := by decide
  nonces := fun peer queue found => by simp [new] at found
  tombstones := by decide

theorem length_remember {queue : List Nonce} (bounded : queue.length ≤ maxNoncesPerPeer) (nonce : Nonce) :
    (remember queue nonce).length ≤ maxNoncesPerPeer := by
  unfold remember
  split
  · simp only [List.length_append, List.length_tail, List.length_singleton]
    have : 0 < maxNoncesPerPeer := by decide
    omega
  · simp only [List.length_append, List.length_singleton]
    omega

theorem Bounded.makeRoom {seq : BeaconSeq} (bounded : seq.Bounded) (pick : Nat) (peer : String) :
    (seq.makeRoom pick peer).Bounded ∧
      (peer ∉ (seq.makeRoom pick peer).seen.keys → (seq.makeRoom pick peer).seen.keys.length < maxTrackedPeers) := by
  unfold BeaconSeq.makeRoom
  cases full : seq.evicts peer with
  | false =>
    refine ⟨bounded, fun untracked => ?_⟩
    simp only [evicts, Bool.and_eq_false_iff, decide_eq_false_iff_not] at full
    exact Nat.lt_of_not_le (full.resolve_left (not_not.mpr untracked))
  | true =>
    simp only [evicts, Bool.and_eq_true, decide_eq_true_eq] at full
    have positive : 0 < seq.seen.keys.length := Nat.lt_of_lt_of_le (by decide) full.2
    have small : pick % seq.seen.keys.length < seq.seen.keys.length := Nat.mod_lt _ positive
    simp only [if_true, evict, List.getElem?_eq_getElem small]
    obtain ⟨queue, found⟩ := Table.mem_keys_iff.mp (List.getElem_mem small)
    have fewer := (Table.keys_perm_delete_key found).length_eq
    rw [List.length_cons] at fewer
    have limit := bounded.peers
    refine ⟨⟨by dsimp only; omega, fun other kept held => bounded.nonces other kept (Table.find?_of_delete held), ?_⟩,
      fun _ => by omega⟩
    simp only [List.length_drop]
    omega

theorem queueOf_record (seq : BeaconSeq) (peer : String) (nonce : Nonce) (other : String) :
    (seq.record peer nonce).queueOf other =
      if other = peer then remember (seq.queueOf peer) nonce else seq.queueOf other := by
  by_cases same : other = peer
  · cases held : seq.seen.find? peer <;> simp [queueOf, record, same, held]
  · simp [queueOf, record, Table.find?_upsert_of_ne, same]

theorem Bounded.queueOf {seq : BeaconSeq} (bounded : seq.Bounded) (peer : String) :
    (seq.queueOf peer).length ≤ maxNoncesPerPeer := by
  cases held : seq.seen.find? peer with
  | none => simp [BeaconSeq.queueOf, held]
  | some queue => simpa [BeaconSeq.queueOf, held] using bounded.nonces peer queue held

theorem Bounded.record {seq : BeaconSeq} (bounded : seq.Bounded) {peer : String}
    (room : peer ∉ seq.seen.keys → seq.seen.keys.length < maxTrackedPeers) (nonce : Nonce) :
    (seq.record peer nonce).Bounded := by
  refine ⟨?_, fun other queue found => ?_, bounded.tombstones⟩
  · rw [BeaconSeq.record]
    dsimp only
    rw [Table.length_keys_upsert]
    split
    · exact bounded.peers
    · rename_i untracked
      exact room untracked
  · have held := queueOf_record seq peer nonce other
    rw [BeaconSeq.queueOf, found, Option.getD_some] at held
    rw [held]
    split
    · exact length_remember (bounded.queueOf peer) nonce
    · exact bounded.queueOf other

theorem Bounded.checkAndRecord {seq : BeaconSeq} (bounded : seq.Bounded) (pick : Nat) (peer : String) (nonce : Nonce) :
    (seq.checkAndRecord pick peer nonce).1.Bounded := by
  obtain ⟨bounded, room⟩ := bounded.makeRoom pick peer
  unfold BeaconSeq.checkAndRecord
  dsimp only
  split
  · exact bounded
  · split
    · exact bounded
    · exact bounded.record room nonce

/-- The nonce of a peer is in its queue, followed by fewer than `others`, or a tombstone; and wherever it is a
tombstone, fewer than `buried` follow. -/
structure Remembers (seq : BeaconSeq) (peer : String) (nonce : Nonce) (others buried : Nat) : Prop where
  kept : Recent nonce others (seq.queueOf peer) ∨ nonce ∈ seq.evicted
  late : nonce ∈ seq.evicted → Recent nonce buried seq.evicted

variable {seq : BeaconSeq} {peer : String} {nonce : Nonce} {others before : Nat}

theorem bury_eq (evicted queue : List Nonce) :
    ∃ more, bury evicted queue = evicted ++ more ∧ ∀ nonce ∈ queue, nonce ∈ evicted ++ more := by
  induction queue generalizing evicted with
  | nil => exact ⟨[], by simp [bury], by simp⟩
  | cons first rest ih =>
    rw [bury]
    split
    · rename_i present
      obtain ⟨more, same, all⟩ := ih evicted
      refine ⟨more, same, fun nonce member => ?_⟩
      obtain rfl | later := List.mem_cons.mp member
      · exact List.mem_append_left _ present
      · exact all nonce later
    · obtain ⟨more, same, all⟩ := ih (evicted ++ [first])
      rw [List.append_assoc] at same
      refine ⟨[first] ++ more, same, fun nonce member => ?_⟩
      obtain rfl | later := List.mem_cons.mp member
      · simp
      · rw [← List.append_assoc]
        exact all nonce later

theorem Remembers.evict (remembers : seq.Remembers peer nonce others before) (pick : Nat) {victim : String}
    (picked : seq.seen.keys[pick % seq.seen.keys.length]? = some victim)
    (room : before + ((bury seq.evicted (seq.queueOf victim)).length - seq.evicted.length) ≤ maxEvictedTombstones) :
    (seq.evict pick).Remembers peer nonce others
      (before + ((bury seq.evicted (seq.queueOf victim)).length - seq.evicted.length)) := by
  obtain ⟨more, same, moved⟩ := bury_eq seq.evicted (seq.queueOf victim)
  have added : (bury seq.evicted (seq.queueOf victim)).length - seq.evicted.length = more.length := by
    rw [same, List.length_append]
    omega
  rw [added] at room ⊢
  have recent : nonce ∈ seq.evicted ++ more → Recent nonce (before + more.length) (seq.evicted ++ more) := by
    intro member
    obtain old | new := List.mem_append.mp member
    · exact (remembers.late old).append more
    · exact (Recent.of_mem_append new seq.evicted).mono (Nat.le_add_left _ _)
  have kept : nonce ∈ seq.evicted ++ more → Recent nonce (before + more.length) (seq.evict pick).evicted := by
    intro member
    simp only [BeaconSeq.evict, picked, same]
    exact (recent member).keep room
  refine ⟨?_, fun member => kept ?_⟩
  · obtain queued | buried := remembers.kept
    · by_cases dropped : peer = victim
      · exact .inr (kept (moved nonce (dropped ▸ queued.mem))).mem
      · left
        simp only [queueOf, BeaconSeq.evict, picked, Table.find?_delete_key, if_neg dropped]
        exact queued
    · exact .inr (kept (List.mem_append_left _ buried)).mem
  · simp only [BeaconSeq.evict, picked, same] at member
    exact List.mem_of_mem_drop member

theorem recent_remember {queue : List Nonce} (recent : Recent nonce others queue) (room : others < maxNoncesPerPeer)
    (other : Nonce) : Recent nonce (others + 1) (remember queue other) := by
  unfold remember
  split
  · rename_i full
    rw [← List.drop_one]
    exact (recent.drop (by omega)).append [other]
  · exact recent.append [other]

/-- Recording another nonce of the peer keeps this one in memory, and one of another peer does not touch it. -/
theorem Remembers.record (remembers : seq.Remembers peer nonce others before) (sender : String) (fresh : Nonce)
    (room : sender = peer → others < maxNoncesPerPeer) :
    (seq.record sender fresh).Remembers peer nonce (if sender = peer then others + 1 else others) before := by
  refine ⟨?_, remembers.late⟩
  obtain queued | buried := remembers.kept
  · left
    rw [queueOf_record]
    by_cases same : sender = peer
    · rw [if_pos same.symm, if_pos same]
      exact recent_remember (same ▸ queued) (room same) fresh
    · rw [if_neg (Ne.symm same), if_neg same]
      exact queued
  · exact .inr buried

theorem Remembers.refuses (remembers : seq.Remembers peer nonce others before) :
    nonce ∈ seq.evicted ∨ nonce ∈ seq.queueOf peer := remembers.kept.symm.imp_right Recent.mem

end BeaconSeq

section Runs

variable {hmacSha256 : List UInt8 → List UInt8 → List UInt8} {key : List UInt8} {magic : String} {defaultPort : UInt16}
  {seq : BeaconSeq} {peer : String} {nonce : Nonce} {others before : Nat}

theorem peerOf_of_parseBeacon {line pk : String} {now : UInt64} {port : UInt16}
    (parsed : parseBeacon hmacSha256 key magic line defaultPort now = some (pk, port, nonce)) :
    peerOf line = some pk := by
  obtain ⟨-, f, split, -, rfl, -⟩ := parseBeacon_eq_some.mp parsed
  rw [peerOf, split, Option.map_some]

theorem remembers_makeRoom (remembers : seq.Remembers peer nonce others before) {a : Arrival} {pk : String}
    {port : UInt16} {fresh : Nonce}
    (parsed : parseBeacon hmacSha256 key magic a.line defaultPort a.now = some (pk, port, fresh))
    (room : before + buriedBy hmacSha256 key magic defaultPort seq a ≤ BeaconSeq.maxEvictedTombstones) :
    (seq.makeRoom a.pick pk).Remembers peer nonce others
      (before + buriedBy hmacSha256 key magic defaultPort seq a) := by
  unfold buriedBy at room ⊢
  unfold BeaconSeq.makeRoom
  simp only [parsed] at room ⊢
  cases full : seq.evicts pk with
  | false => simpa [full] using remembers
  | true =>
    simp only [full, if_true] at room ⊢
    cases picked : seq.seen.keys[a.pick % seq.seen.keys.length]? with
    | none => simpa [BeaconSeq.evict, picked] using remembers
    | some victim =>
      simp only [picked] at room ⊢
      exact remembers.evict a.pick picked room

theorem remembers_next (remembers : seq.Remembers peer nonce others before) (a : Arrival)
    (few : others + (if (receive hmacSha256 key magic defaultPort seq a).2 && peerOf a.line == some peer then 1 else 0) ≤
      BeaconSeq.maxNoncesPerPeer)
    (room : before + buriedBy hmacSha256 key magic defaultPort seq a ≤ BeaconSeq.maxEvictedTombstones) :
    (next hmacSha256 key magic defaultPort seq a).Remembers peer nonce
      (others + if (receive hmacSha256 key magic defaultPort seq a).2 && peerOf a.line == some peer then 1 else 0)
      (before + buriedBy hmacSha256 key magic defaultPort seq a) := by
  cases parsed : parseBeacon hmacSha256 key magic a.line defaultPort a.now with
  | none => simpa [next, receive, buriedBy, parsed] using remembers
  | some result =>
    obtain ⟨pk, port, fresh⟩ := result
    have roomy := remembers_makeRoom remembers parsed room
    have named := peerOf_of_parseBeacon parsed
    simp only [next, receive, parsed, BeaconSeq.checkAndRecord, named] at few ⊢
    split
    · simpa using roomy
    · split
      · simpa using roomy
      · rename_i unburied unqueued
        simp only [if_neg unburied, if_neg unqueued, Bool.true_and, beq_iff_eq, Option.some.injEq] at few ⊢
        have recorded := roomy.record pk fresh fun same => by
          rw [if_pos same] at few
          omega
        by_cases same : pk = peer
        · simpa [same] using recorded
        · simpa [same] using recorded

theorem remembers_run (arrivals : List Arrival) (remembers : seq.Remembers peer nonce others before)
    (few : others + acceptedOf hmacSha256 key magic defaultPort (some peer) seq arrivals ≤ BeaconSeq.maxNoncesPerPeer)
    (room : before + buried hmacSha256 key magic defaultPort seq arrivals ≤ BeaconSeq.maxEvictedTombstones) :
    (Runs.run (next hmacSha256 key magic defaultPort) seq arrivals).Remembers peer nonce
      (others + acceptedOf hmacSha256 key magic defaultPort (some peer) seq arrivals)
      (before + buried hmacSha256 key magic defaultPort seq arrivals) := by
  induction arrivals generalizing seq others before with
  | nil => exact remembers
  | cons a rest ih =>
    simp only [acceptedOf, buried, ← Nat.add_assoc] at few room ⊢
    exact ih (remembers_next remembers a (by omega) (by omega)) few room

theorem buriedBy_of_quiet {a : Arrival} {pk : String} {port : UInt16} {fresh : Nonce}
    (parsed : parseBeacon hmacSha256 key magic a.line defaultPort a.now = some (pk, port, fresh))
    (quiet : seq.evicts pk = false) : buriedBy hmacSha256 key magic defaultPort seq a = 0 := by
  simp [buriedBy, parsed, quiet]

theorem buried_concat (arrivals : List Arrival) (last : Arrival) :
    buried hmacSha256 key magic defaultPort seq (arrivals ++ [last]) =
      buried hmacSha256 key magic defaultPort seq arrivals +
        buriedBy hmacSha256 key magic defaultPort
          (Runs.run (next hmacSha256 key magic defaultPort) seq arrivals) last := by
  induction arrivals generalizing seq with
  | nil => simp [buried, Runs.run]
  | cons a rest ih =>
    simp only [List.cons_append, buried, ih, Nat.add_assoc]
    rfl

theorem remembers_accepted {a : Arrival}
    (accepted : (receive hmacSha256 key magic defaultPort seq a).2 = true) :
    ∃ pk nonce, peerOf a.line = some pk ∧ (∀ now port pk' nonce',
        parseBeacon hmacSha256 key magic a.line defaultPort now = some (pk', port, nonce') →
        pk' = pk ∧ nonce' = nonce) ∧
      (next hmacSha256 key magic defaultPort seq a).Remembers pk nonce 1 0 := by
  cases parsed : parseBeacon hmacSha256 key magic a.line defaultPort a.now with
  | none => simp [receive, parsed] at accepted
  | some result =>
    obtain ⟨pk, port, nonce⟩ := result
    refine ⟨pk, nonce, peerOf_of_parseBeacon parsed, ?_, ?_⟩
    · -- The key and the nonce of a line do not depend on when it is read.
      intro now port' pk' nonce' again
      obtain ⟨-, f, split, passes, rfl, -⟩ := parseBeacon_eq_some.mp parsed
      obtain ⟨-, f', split', passes', rfl, -⟩ := parseBeacon_eq_some.mp again
      cases split.symm.trans split'
      have same := passes.nonce.symm.trans passes'.nonce
      exact ⟨rfl, Subtype.ext (Option.some.inj same).symm⟩
    · simp only [next, receive, parsed, BeaconSeq.checkAndRecord] at accepted ⊢
      split at accepted
      · cases accepted
      · rename_i unburied
        split at accepted
        · cases accepted
        · rename_i unqueued
          simp only [if_neg unburied, if_neg unqueued]
          refine ⟨.inl ?_, fun member => absurd member unburied⟩
          rw [BeaconSeq.queueOf_record, if_pos rfl, BeaconSeq.remember]
          exact Recent.of_mem_append (List.mem_singleton_self nonce) _

theorem refused_of_remembers (remembers : seq.Remembers peer nonce others before) {a : Arrival}
    (room : before + buriedBy hmacSha256 key magic defaultPort seq a ≤ BeaconSeq.maxEvictedTombstones)
    (own : ∀ port pk' nonce', parseBeacon hmacSha256 key magic a.line defaultPort a.now = some (pk', port, nonce') →
      pk' = peer ∧ nonce' = nonce) :
    (receive hmacSha256 key magic defaultPort seq a).2 = false := by
  cases parsed : parseBeacon hmacSha256 key magic a.line defaultPort a.now with
  | none => simp [receive, parsed]
  | some result =>
    obtain ⟨pk, port, fresh⟩ := result
    obtain ⟨rfl, rfl⟩ := own port pk fresh parsed
    have refuses := (remembers_makeRoom remembers parsed room).refuses
    simp only [receive, parsed, BeaconSeq.checkAndRecord]
    split
    · rfl
    · rename_i unburied
      rw [if_pos (refuses.resolve_left unburied)]

theorem refused_again {first again : Arrival} {between : List Arrival} (same : again.line = first.line)
    (accepted : (receive hmacSha256 key magic defaultPort seq first).2 = true)
    (few : acceptedOf hmacSha256 key magic defaultPort (peerOf first.line)
      (next hmacSha256 key magic defaultPort seq first) between < BeaconSeq.maxNoncesPerPeer)
    (room : buried hmacSha256 key magic defaultPort (next hmacSha256 key magic defaultPort seq first)
      (between ++ [again]) ≤ BeaconSeq.maxEvictedTombstones) :
    (receive hmacSha256 key magic defaultPort
      (Runs.run (next hmacSha256 key magic defaultPort) (next hmacSha256 key magic defaultPort seq first) between)
      again).2 = false := by
  obtain ⟨pk, nonce, named, own, remembers⟩ := remembers_accepted accepted
  rw [named] at few
  rw [buried_concat] at room
  have still := remembers_run between remembers (by rw [Nat.add_comm]; exact few)
    (by rw [Nat.zero_add]; exact Nat.le_of_add_right_le room)
  refine refused_of_remembers still (by rwa [Nat.zero_add]) ?_
  rw [same]
  exact own again.now

theorem bounded_next (bounded : seq.Bounded) (a : Arrival) :
    (next hmacSha256 key magic defaultPort seq a).Bounded := by
  unfold next receive
  split
  · exact bounded
  · exact bounded.checkAndRecord _ _ _

end Runs

/-- In every run the guard keeps to its limits, and an accepted line is not accepted again as long as fewer than 64
other lines of its peer have been accepted and at most 16384 tombstones been added since. -/
theorem beacon_not_accepted_twice (hmacSha256 : List UInt8 → List UInt8 → List UInt8) (key : List UInt8)
    (magic : String) (defaultPort : UInt16) :
    let next := next hmacSha256 key magic defaultPort
    let receive := receive hmacSha256 key magic defaultPort
    (∀ arrivals, (Runs.run next .new arrivals).Bounded) ∧
      ∀ earlier first between again, again.line = first.line →
        (receive (Runs.run next .new earlier) first).2 = true →
        acceptedOf hmacSha256 key magic defaultPort (peerOf first.line) (Runs.run next .new (earlier ++ [first])) between
          < BeaconSeq.maxNoncesPerPeer →
        buried hmacSha256 key magic defaultPort (Runs.run next .new (earlier ++ [first])) (between ++ [again])
          ≤ BeaconSeq.maxEvictedTombstones →
        (receive (Runs.run next .new (earlier ++ first :: between)) again).2 = false := by
  dsimp only
  constructor
  · intro arrivals
    have keeps : ∀ seq a, BeaconSeq.Bounded seq → (next hmacSha256 key magic defaultPort seq a).Bounded :=
      fun seq a bounded => bounded_next bounded a
    exact (Runs.always_of_invariant keeps BeaconSeq.bounded_new).last
  · intro earlier first between again same accepted few room
    have start : Runs.run (next hmacSha256 key magic defaultPort) .new (earlier ++ [first]) =
        next hmacSha256 key magic defaultPort
          (Runs.run (next hmacSha256 key magic defaultPort) .new earlier) first := by
      simp [Runs.run]
    rw [start] at few room
    have refused := refused_again same accepted few room
    simpa [Runs.run] using refused

/-- The zero beacon with a nonce that begins with `k`, at time 100. -/
def arrivalOf (hmacSha256 : List UInt8 → List UInt8 → List UInt8) (k : UInt8) : Arrival :=
  ⟨zeroLine hmacSha256 [] lanMagic ⟨k :: List.replicate 15 0, rfl⟩, 100, 0⟩

theorem receive_arrivalOf (hmacSha256 : List UInt8 → List UInt8 → List UInt8) (seq : BeaconSeq) (k : UInt8) :
    receive hmacSha256 [] lanMagic 0 seq (arrivalOf hmacSha256 k) =
      seq.checkAndRecord 0 zeroPubkey ⟨k :: List.replicate 15 0, rfl⟩ := by
  simp only [receive, arrivalOf]
  rw [parseBeacon_zeroLine (by decide) (startsWith_self lanMagic)]

/-- The guard after beacons of the zero public key with these nonces. -/
def recorded (ks : List UInt8) : BeaconSeq :=
  ks.foldl (fun seq k => (seq.checkAndRecord 0 zeroPubkey ⟨k :: List.replicate 15 0, rfl⟩).1) .new

theorem run_arrivalOf (hmacSha256 : List UInt8 → List UInt8 → List UInt8) (ks : List UInt8) :
    Runs.run (next hmacSha256 [] lanMagic 0) .new (ks.map (arrivalOf hmacSha256)) = recorded ks := by
  have same : (fun seq k => next hmacSha256 [] lanMagic 0 seq (arrivalOf hmacSha256 k)) =
      fun seq k => (BeaconSeq.checkAndRecord seq 0 zeroPubkey ⟨k :: List.replicate 15 0, rfl⟩).1 := by
    funext seq k
    rw [next, receive_arrivalOf]
  rw [Runs.run, List.foldl_map, recorded, same]

/-- Only the zero public key is tracked, and nothing has been dropped. -/
structure BeaconSeq.Alone (seq : BeaconSeq) : Prop where
  clean : seq.evicted = []
  single : seq.seen.keys = [] ∨ seq.seen.keys.length = 1 ∧ zeroPubkey ∈ seq.seen.keys

theorem BeaconSeq.Alone.quiet {seq : BeaconSeq} (alone : seq.Alone) : seq.evicts zeroPubkey = false := by
  obtain none | ⟨one, member⟩ := alone.single
  · simp [evicts, none, maxTrackedPeers]
  · simp [evicts, member]

theorem BeaconSeq.Alone.checkAndRecord {seq : BeaconSeq} (alone : seq.Alone) (nonce : Nonce) :
    seq.checkAndRecord 0 zeroPubkey nonce =
      if nonce ∈ seq.queueOf zeroPubkey then (seq, false) else (seq.record zeroPubkey nonce, true) := by
  simp only [BeaconSeq.checkAndRecord, makeRoom, alone.quiet, alone.clean, List.not_mem_nil, if_false, Bool.false_eq_true]

theorem BeaconSeq.Alone.record {seq : BeaconSeq} (alone : seq.Alone) (nonce : Nonce) :
    (seq.record zeroPubkey nonce).Alone := by
  refine ⟨alone.clean, .inr ⟨?_, ?_⟩⟩
  · rw [BeaconSeq.record]
    dsimp only
    rw [Table.length_keys_upsert]
    obtain none | ⟨one, member⟩ := alone.single
    · simp [none]
    · simp [one, member]
  · exact Table.mem_keys_upsert.mpr (.inl rfl)

theorem recorded_alone (ks : List UInt8) : (recorded ks).Alone ∧ (recorded ks).queueOf zeroPubkey =
    ks.foldl (fun queue k =>
      if ⟨k :: List.replicate 15 0, rfl⟩ ∈ queue then queue else BeaconSeq.remember queue ⟨k :: List.replicate 15 0, rfl⟩)
      [] := by
  induction ks using List.reverseRecOn with
  | nil => exact ⟨⟨rfl, .inl rfl⟩, rfl⟩
  | append_singleton ks k ih =>
    obtain ⟨alone, queue⟩ := ih
    rw [recorded, List.foldl_append, List.foldl_append, List.foldl_cons, List.foldl_cons, List.foldl_nil,
      List.foldl_nil, ← queue]
    change ((recorded ks).checkAndRecord 0 zeroPubkey _).1.Alone ∧
      ((recorded ks).checkAndRecord 0 zeroPubkey _).1.queueOf zeroPubkey = _
    rw [alone.checkAndRecord]
    split
    · exact ⟨alone, rfl⟩
    · refine ⟨alone.record _, ?_⟩
      rw [BeaconSeq.queueOf_record, if_pos rfl]

theorem next_recorded (ks : List UInt8) (k : UInt8) :
    next zeroHmac [] lanMagic 0 (recorded ks) (arrivalOf zeroHmac k) = recorded (ks ++ [k]) := by
  rw [next, receive_arrivalOf, recorded, recorded, List.foldl_append]
  rfl

theorem buried_recorded (ks later : List UInt8) :
    buried zeroHmac [] lanMagic 0 (recorded ks) (later.map (arrivalOf zeroHmac)) = 0 := by
  induction later generalizing ks with
  | nil => rfl
  | cons k rest ih =>
    have parsed : parseBeacon zeroHmac [] lanMagic (arrivalOf zeroHmac k).line 0 (arrivalOf zeroHmac k).now =
        some (zeroPubkey, 7777, ⟨k :: List.replicate 15 0, rfl⟩) :=
      parseBeacon_zeroLine (by decide) (startsWith_self lanMagic) _
    rw [List.map_cons, buried, buriedBy_of_quiet parsed (recorded_alone ks).1.quiet, Nat.zero_add, next_recorded, ih]

theorem peerOf_arrivalOf (hmacSha256 : List UInt8 → List UInt8 → List UInt8) (k : UInt8) :
    peerOf (arrivalOf hmacSha256 k).line = some zeroPubkey := by
  rw [peerOf, arrivalOf, zeroLine_eq, split_sentFields (by decide) zeroPubkey_valid]
  rfl

theorem acceptedOf_recorded :
    acceptedOf zeroHmac [] lanMagic 0 (some zeroPubkey) (recorded [0]) ([1, 2, 3].map (arrivalOf zeroHmac)) = 3 := by
  have one (ks : List UInt8) (k : UInt8) (rest : List Arrival)
      (fresh : ((recorded ks).checkAndRecord 0 zeroPubkey ⟨k :: List.replicate 15 0, rfl⟩).2 = true) :
      acceptedOf zeroHmac [] lanMagic 0 (some zeroPubkey) (recorded ks) (arrivalOf zeroHmac k :: rest) =
        1 + acceptedOf zeroHmac [] lanMagic 0 (some zeroPubkey) (recorded (ks ++ [k])) rest := by
    rw [acceptedOf, ← next_recorded, next, receive_arrivalOf, peerOf_arrivalOf]
    simp only [fresh, Bool.true_and, beq_self_eq_true, if_true]
  rw [List.map_cons, one [0] 1 _ (by decide +kernel), List.map_cons, one ([0] ++ [1]) 2 _ (by decide +kernel), List.map_cons,
    one ([0] ++ [1] ++ [2]) 3 _ (by decide +kernel)]
  rfl

/-- Three other beacons of the peer are accepted in between. -/
theorem zero_beacon_refused_again :
    (receive zeroHmac [] lanMagic 0 (Runs.run (next zeroHmac [] lanMagic 0) .new []) (arrivalOf zeroHmac 0)).2 = true ∧
      acceptedOf zeroHmac [] lanMagic 0 (some zeroPubkey) (recorded [0]) ([1, 2, 3].map (arrivalOf zeroHmac)) = 3 ∧
      (receive zeroHmac [] lanMagic 0
        (Runs.run (next zeroHmac [] lanMagic 0) .new ([] ++ arrivalOf zeroHmac 0 :: [1, 2, 3].map (arrivalOf zeroHmac)))
        (arrivalOf zeroHmac 0)).2 = false := by
  have accepted : (receive zeroHmac [] lanMagic 0 (Runs.run (next zeroHmac [] lanMagic 0) .new [])
      (arrivalOf zeroHmac 0)).2 = true := by
    rw [Runs.run, List.foldl_nil, receive_arrivalOf]
    decide
  have after : Runs.run (next zeroHmac [] lanMagic 0) .new ([] ++ [arrivalOf zeroHmac 0]) = recorded [0] :=
    run_arrivalOf zeroHmac [0]
  have few : acceptedOf zeroHmac [] lanMagic 0 (peerOf (arrivalOf zeroHmac 0).line)
      (Runs.run (next zeroHmac [] lanMagic 0) .new ([] ++ [arrivalOf zeroHmac 0])) ([1, 2, 3].map (arrivalOf zeroHmac)) <
        BeaconSeq.maxNoncesPerPeer := by
    rw [after, peerOf_arrivalOf, acceptedOf_recorded]
    decide
  have room : buried zeroHmac [] lanMagic 0 (Runs.run (next zeroHmac [] lanMagic 0) .new ([] ++ [arrivalOf zeroHmac 0]))
      ([1, 2, 3].map (arrivalOf zeroHmac) ++ [arrivalOf zeroHmac 0]) ≤ BeaconSeq.maxEvictedTombstones := by
    have all := buried_recorded [0] ([1, 2, 3] ++ [0])
    rw [List.map_append, List.map_singleton] at all
    rw [after, all]
    exact Nat.zero_le _
  exact ⟨accepted, acceptedOf_recorded, (beacon_not_accepted_twice zeroHmac [] lanMagic 0).2 [] (arrivalOf zeroHmac 0)
    ([1, 2, 3].map (arrivalOf zeroHmac)) (arrivalOf zeroHmac 0) rfl accepted few room⟩

/-- Whatever the MAC is, after 64 newer beacons of its peer a beacon is accepted a second time, at the same moment. -/
theorem replay_after_sixty_four :
    ¬ ∃ hmacSha256 : List UInt8 → List UInt8 → List UInt8, ∀ key magic defaultPort earlier first between again,
      ((earlier ++ first :: between ++ [again]).map Arrival.now).Pairwise (· ≤ ·) → again.line = first.line →
      (receive hmacSha256 key magic defaultPort
        (Runs.run (next hmacSha256 key magic defaultPort) .new earlier) first).2 = true →
      (receive hmacSha256 key magic defaultPort
        (Runs.run (next hmacSha256 key magic defaultPort) .new (earlier ++ first :: between)) again).2 = false := by
  rintro ⟨hmacSha256, never⟩
  let others : List UInt8 := (List.range 64).map fun i => UInt8.ofNat (i + 1)
  have refused := never [] lanMagic 0 [] (arrivalOf hmacSha256 0) (others.map (arrivalOf hmacSha256))
    (arrivalOf hmacSha256 0) ?_ rfl ?_
  · rw [List.nil_append, ← List.map_cons, run_arrivalOf, receive_arrivalOf] at refused
    obtain ⟨alone, queue⟩ := recorded_alone (0 :: others)
    rw [alone.checkAndRecord, if_neg] at refused
    · cases refused
    · rw [queue]
      decide +kernel
  · have constant : ∀ a ∈ [] ++ arrivalOf hmacSha256 0 :: others.map (arrivalOf hmacSha256) ++ [arrivalOf hmacSha256 0],
        a.now = 100 := by
      intro a member
      simp only [List.nil_append, List.cons_append, List.mem_cons, List.mem_append, List.mem_map, List.not_mem_nil,
        or_false] at member
      obtain rfl | ⟨k, -, rfl⟩ | rfl := member <;> rfl
    rw [List.pairwise_map]
    refine List.pairwise_of_forall_mem_list fun a first b second => ?_
    rw [constant a first, constant b second]
    exact UInt64.le_refl 100
  · rw [Runs.run, List.foldl_nil, receive_arrivalOf]
    decide

end Soshal.Network.Beacon
