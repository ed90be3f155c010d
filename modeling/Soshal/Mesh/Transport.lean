import Mathlib.Data.Finset.Card
import Soshal.Library.Runs
import Soshal.Mesh.Framing

/-! The node behind a UDP socket: what it does with a datagram, and what it sends.

A node learns its peers from the sources of the packets it reads, and passes packets
on to all of them but the source. One window of digests is shared by the data it
delivers, the data it relays and the announces it relays. The address type is that
of socket addresses; the clock and the draws of a key generation are passed in.
-/

set_option autoImplicit false

namespace Soshal.Mesh

open Library Crypto

def maxPeers : Nat := 4096
def maxSeenData : Nat := 4096
def maxDelivered : Nat := 4096
def maxDataPayload : Nat := 262144
def receiveBuffer : Nat := 2048

def defaultRouteTtlSecs : Nat := 7200
def maxPathTableRoutes : Nat := 4096

structure PathEntry where
  destination : ReticulumAddress
  nextHop : ReticulumAddress
  hopCount : UInt8
  expiresAt : Nat

abbrev PathTable := Table ReticulumAddress PathEntry

namespace PathTable

def pruneExpired (routes : PathTable) (nowSecs : Nat) : PathTable :=
  routes.delete fun _ entry => decide (entry.expiresAt ≤ nowSecs)

def updateRoute (routes : PathTable) (destination nextHop : ReticulumAddress) (hopCount : UInt8) (nowSecs : Nat) :
    PathTable :=
  let entry : PathEntry := ⟨destination, nextHop, hopCount, nowSecs + defaultRouteTtlSecs⟩
  match routes.find? destination with
  | some existing =>
    if existing.nextHop = nextHop ∨ hopCount ≤ existing.hopCount ∨ existing.expiresAt < nowSecs then
      routes.upsert destination entry fun _ => { entry with destination := existing.destination }
    else routes
  | none =>
    let routes := if maxPathTableRoutes ≤ routes.rows.length then routes.pruneExpired nowSecs else routes
    if maxPathTableRoutes ≤ routes.rows.length then routes
    else routes.upsert destination entry fun _ => entry

end PathTable

def LinkManager.updateActivity {Key Sk : Type} (manager : LinkManager Key Sk) (dest : ReticulumAddress) (now : Nat) :
    LinkManager Key Sk :=
  { manager with links := manager.links.modify fun key link =>
      if key = dest then { link with lastActivity := now } else link }

def ReticulumAddress.isBroadcast (address : ReticulumAddress) : Bool := address.bytes.all (· == 0xff)

def broadcastAddress : ReticulumAddress := ⟨List.replicate 16 0xff, rfl⟩

/-- What the node takes from outside: the link algorithms, the hexadecimal text of BLAKE3, the address
`from_aspect("reticulum.peer", …)` of a socket, and the test for private sources. -/
structure TransportEnv (Addr Key Sk Secret Seed : Type) where
  prims : Primitives Key Sk Secret Seed
  blake3 : Bytes → String
  peerAddress : Addr → ReticulumAddress
  isPrivateIp : Addr → Bool

structure ReticulumNode (Addr Key Sk : Type) where
  destination : ReticulumAddress
  pathTable : PathTable
  linkManager : LinkManager Key Sk
  peers : Finset Addr
  delivered : List Bytes
  seenData : List String

/-- What a packet leads to: the payload handed up, the digest that is remembered, and the packet that is sent
with the peers it goes to. -/
structure Handling (Addr Key Sk : Type) where
  node : ReticulumNode Addr Key Sk
  handed : Option Bytes := none
  noted : Option String := none
  sent : Option (Finset Addr × ReticulumPacket) := none

def pushBounded {α : Type} (capacity : Nat) (queue : List α) (entry : α) : List α :=
  (if capacity ≤ queue.length then queue.tail else queue) ++ [entry]

variable {Addr Key Sk Secret Seed : Type} [DecidableEq Addr] (env : TransportEnv Addr Key Sk Secret Seed)

namespace ReticulumNode

def new (destination : ReticulumAddress) : ReticulumNode Addr Key Sk where
  destination := destination
  pathTable := .empty
  linkManager := .new
  peers := ∅
  delivered := []
  seenData := []

variable (node : ReticulumNode Addr Key Sk) (src : Addr) (pkt : ReticulumPacket)

/-- The packet one hop further, to every peer but its source. -/
def forward : Option (Finset Addr × ReticulumPacket) :=
  pkt.incrementHops.map fun fwd => (node.peers.erase src, fwd)

def learn : ReticulumNode Addr Key Sk :=
  { node with peers := if node.peers.card < maxPeers then insert src node.peers else node.peers }

def isFor (pkt : ReticulumPacket) : Bool :=
  pkt.destination.isBroadcast || pkt.destination == node.destination

def handleData : Handling Addr Key Sk :=
  if pkt.payload.length ≤ maxDataPayload then
    -- The digest is of the payload alone, whoever sent it and whoever it is for.
    let digest := env.blake3 pkt.payload
    if digest ∈ node.seenData then { node := node }
    else
      let node := { node with seenData := pushBounded maxSeenData node.seenData digest }
      let handed := if node.isFor pkt then some pkt.payload else none
      { node := { node with delivered := handed.elim node.delivered (pushBounded maxDelivered node.delivered) }
        handed := handed
        noted := some digest
        sent := node.forward src pkt }
  else { node := node }

def handleAnnounce (now : Nat) : Handling Addr Key Sk :=
  let nextHop := if pkt.hops = 0 then pkt.destination else env.peerAddress src
  let node := { node with pathTable := node.pathTable.updateRoute pkt.destination nextHop pkt.hops now }
  -- The digest is of the whole packet, its hop count included.
  let digest := env.blake3 pkt.toBytes
  if digest ∈ node.seenData then { node := node }
  else
    { node := { node with seenData := pushBounded maxSeenData node.seenData digest }
      noted := some digest
      sent := node.forward src pkt }

/-- The address a request names as its sender's, or else one made from the source. -/
def senderDest (src : Addr) (payload : Bytes) : ReticulumAddress :=
  match if payload.head? = some linkRequestPqcSender then splitSender payload else none with
  | some (sender, _) => sender
  | none => env.peerAddress src

def handleLinkRequest (now : Nat) (seed : Seed) : Handling Addr Key Sk :=
  if pkt.destination = node.destination then
    match node.linkManager.handleLinkRequestWithOwnDest env.prims (some node.destination)
        (senderDest env src pkt.payload) pkt.payload now seed with
    | (manager, .ok proof) => { node := { node with linkManager := manager }, sent := some ({src}, proof) }
    | (manager, .error _) => { node := { node with linkManager := manager } }
  else { node := node, sent := node.forward src pkt }

def handleProof (now : Nat) : Handling Addr Key Sk :=
  if pkt.destination = node.destination then
    { node := { node with linkManager := (node.linkManager.handleLinkProof pkt.destination pkt.payload now).1 } }
  else { node := node, sent := node.forward src pkt }

def handlePacket (now : Nat) (seed : Seed) : Handling Addr Key Sk :=
  let node := node.learn src
  let done :=
    match pkt.packetType with
    | .data => node.handleData env src pkt
    | .announce => node.handleAnnounce env src pkt now
    | .linkRequest => node.handleLinkRequest env src pkt now seed
    | .proof => node.handleProof src pkt now
  { done with node :=
      { done.node with linkManager := done.node.linkManager.updateActivity pkt.destination now } }

/-- The packet in a datagram, as much of it as the receive buffer holds. -/
def readFrame (datagram : Bytes) : Option ReticulumPacket :=
  match slipDecode (datagram.take receiveBuffer) with
  | .error _ => none
  | .ok data => (ReticulumPacket.fromBytes data).toOption

def receive (datagram : Bytes) (now : Nat) (seed : Seed) : Handling Addr Key Sk :=
  if !env.isPrivateIp src then { node := node }
  else
    match readFrame datagram with
    | none => { node := node }
    | some pkt => node.handlePacket env src pkt now seed

/-- `process_packet`: routing for a caller that relays by itself; the packet to pass on is returned. -/
def processPacket (pkt : ReticulumPacket) (aspectAddress : ReticulumAddress)
    (now : Nat) : ReticulumNode Addr Key Sk × Option ReticulumPacket :=
  let node :=
    if pkt.packetType = .announce then
      let nextHop := if pkt.hops = 0 then pkt.destination else aspectAddress
      { node with pathTable := node.pathTable.updateRoute pkt.destination nextHop pkt.hops now }
    else node
  if pkt.destination = node.destination then (node, none)
  else if pkt.packetType = .data then
    if maxDataPayload < pkt.payload.length then (node, none)
    else
      let digest := env.blake3 pkt.payload
      if digest ∈ node.seenData then (node, none)
      else
        ({ node with seenData := pushBounded maxSeenData node.seenData digest }, pkt.incrementHops)
  else (node, pkt.incrementHops)

def frame (pkt : ReticulumPacket) : Bytes := slipEncode pkt.toBytes

def broadcastData (payload : Bytes) : Option (Finset Addr × ReticulumPacket) :=
  if maxDataPayload < payload.length then none
  else if node.peers = ∅ then none
  else some (node.peers, .new broadcastAddress .data payload)

def sendDataTo (peer : Addr) (payload : Bytes) : Except String (Addr × ReticulumPacket) :=
  if maxDataPayload < payload.length then .error "Data payload exceeds 256 KiB cap"
  -- The packet carries the sender's own address as its destination.
  else .ok (peer, .new node.destination .data payload)

def Sends (payload : Bytes) (pkt : ReticulumPacket) : Prop :=
  (∃ peers, node.broadcastData payload = some (peers, pkt)) ∨ ∃ peer, node.sendDataTo peer payload = .ok (peer, pkt)

/-- A receiver in any state hands up the payload as it was sent or nothing, and the packet is within what it
can read. -/
def ArrivesIntact (payload : Bytes) (pkt : ReticulumPacket) : Prop :=
  (∀ (receiver : ReticulumNode Addr Key Sk) src now seed,
    (receiver.receive env src (frame pkt) now seed).handed = none ∨
      (receiver.receive env src (frame pkt) now seed).handed = some payload) ∧
    readFrame (frame pkt) = some pkt

theorem handlePacket_handed (now : Nat) (seed : Seed) : (node.handlePacket env src pkt now seed).handed =
      if pkt.packetType = .data ∧ pkt.payload.length ≤ maxDataPayload ∧ env.blake3 pkt.payload ∉ node.seenData ∧
        node.isFor pkt = true then some pkt.payload else none := by
  have same : (node.learn src).seenData = node.seenData := rfl
  simp only [handlePacket]
  cases type : pkt.packetType with
  | data =>
    simp only [handleData, same, true_and]
    by_cases short : pkt.payload.length ≤ maxDataPayload
    · by_cases seen : env.blake3 pkt.payload ∈ node.seenData
      · simp [short, seen]
      · simp only [short, seen, if_true, if_false, not_false_eq_true, true_and]
        rfl
    · simp [short]
  | announce =>
    simp only [handleAnnounce, reduceCtorEq, false_and, if_false]
    split <;> rfl
  | linkRequest =>
    simp only [handleLinkRequest, reduceCtorEq, false_and, if_false]
    split
    · split <;> rfl
    · rfl
  | proof =>
    simp only [handleProof, reduceCtorEq, false_and, if_false]
    split <;> rfl

def digestFor (pkt : ReticulumPacket) : Option String :=
  match pkt.packetType with
  | .data => if pkt.payload.length ≤ maxDataPayload then some (env.blake3 pkt.payload) else none
  | .announce => some (env.blake3 pkt.toBytes)
  | .linkRequest | .proof => none

/-- A packet leaves the node's address alone, adds its source to the peers while there is room, and its digest to
the window unless it stands there already. -/
theorem handlePacket_spec (now : Nat) (seed : Seed) : let done := node.handlePacket env src pkt now seed
    done.node.destination = node.destination ∧ done.node.peers = (node.learn src).peers ∧
      done.noted = (digestFor env pkt).filter (fun digest => decide (digest ∉ node.seenData)) ∧
      done.node.seenData = done.noted.elim node.seenData (pushBounded maxSeenData node.seenData) := by
  have same : (node.learn src).seenData = node.seenData := rfl
  unfold handlePacket digestFor
  cases type : pkt.packetType with
  | data =>
    dsimp only
    unfold handleData
    rw [same]
    by_cases short : pkt.payload.length ≤ maxDataPayload
    · rw [if_pos short, if_pos short, Option.filter_some]
      by_cases seen : env.blake3 pkt.payload ∈ node.seenData
      · rw [if_pos seen, if_neg (by simpa using seen)]
        exact ⟨rfl, rfl, rfl, rfl⟩
      · rw [if_neg seen, if_pos (by simpa using seen)]
        exact ⟨rfl, rfl, rfl, rfl⟩
    · rw [if_neg short, if_neg short]
      exact ⟨rfl, rfl, rfl, rfl⟩
  | announce =>
    unfold handleAnnounce
    dsimp only
    rw [same, Option.filter_some]
    by_cases seen : env.blake3 pkt.toBytes ∈ node.seenData
    · have old : decide (env.blake3 pkt.toBytes ∉ node.seenData) = false := by simpa using seen
      rw [if_pos seen, old, if_neg Bool.false_ne_true]
      exact ⟨rfl, rfl, rfl, rfl⟩
    · rw [if_neg seen, decide_eq_true seen, if_pos rfl]
      exact ⟨rfl, rfl, rfl, rfl⟩
  | linkRequest =>
    unfold handleLinkRequest
    dsimp only
    split
    · generalize LinkManager.handleLinkRequestWithOwnDest env.prims _ _ _ _ _ _ = answer
      obtain ⟨manager, proof | error⟩ := answer <;> exact ⟨rfl, rfl, rfl, rfl⟩
    · exact ⟨rfl, rfl, rfl, rfl⟩
  | proof =>
    unfold handleProof
    dsimp only
    split <;> exact ⟨rfl, rfl, rfl, rfl⟩

def answer (now : Nat) (seed : Seed) : Option ReticulumPacket :=
  if pkt.packetType = .linkRequest ∧ pkt.destination = node.destination then
    (node.linkManager.handleLinkRequestWithOwnDest env.prims (some node.destination)
      (senderDest env src pkt.payload) pkt.payload now seed).2.toOption
  else none

/-- The packets that a node does not relay, whatever their hop count. -/
def Suppresses (pkt : ReticulumPacket) : Prop :=
  match pkt.packetType with
  | .data => pkt.payload.length ≤ maxDataPayload → env.blake3 pkt.payload ∈ node.seenData
  | .announce => env.blake3 pkt.toBytes ∈ node.seenData
  | .linkRequest | .proof => pkt.destination = node.destination

theorem handlePacket_relays {node : ReticulumNode Addr Key Sk} {pkt : ReticulumPacket}
    (passes : ¬ node.Suppresses env pkt) (src : Addr) (now : Nat) (seed : Seed) :
    (node.handlePacket env src pkt now seed).sent = (node.learn src).forward src pkt := by
  unfold handlePacket
  unfold Suppresses at passes
  cases type : pkt.packetType with
  | data =>
    simp only [type, Classical.not_imp] at passes
    have unseen : env.blake3 pkt.payload ∉ (node.learn src).seenData := passes.2
    dsimp only
    rw [handleData, if_pos passes.1]
    dsimp only
    rw [if_neg unseen]
    rfl
  | announce =>
    simp only [type] at passes
    have unseen : env.blake3 pkt.toBytes ∉ (node.learn src).seenData := passes
    dsimp only
    rw [handleAnnounce]
    dsimp only
    rw [if_neg unseen]
    rfl
  | linkRequest =>
    simp only [type] at passes
    have other : pkt.destination ≠ (node.learn src).destination := passes
    dsimp only
    rw [handleLinkRequest, if_neg other]
  | proof =>
    simp only [type] at passes
    have other : pkt.destination ≠ (node.learn src).destination := passes
    dsimp only
    rw [handleProof, if_neg other]

theorem handlePacket_answers {node : ReticulumNode Addr Key Sk} {pkt : ReticulumPacket}
    (stays : node.Suppresses env pkt) (src : Addr) (now : Nat) (seed : Seed) :
    (node.handlePacket env src pkt now seed).sent =
      (node.answer env src pkt now seed).map fun proof => ({src}, proof) := by
  unfold handlePacket answer
  unfold Suppresses at stays
  cases type : pkt.packetType with
  | data =>
    simp only [type] at stays
    dsimp only
    unfold handleData
    split
    · rename_i short
      have seen : env.blake3 pkt.payload ∈ (node.learn src).seenData := stays short
      dsimp only
      rw [if_pos seen]
      simp
    · simp
  | announce =>
    simp only [type] at stays
    have seen : env.blake3 pkt.toBytes ∈ (node.learn src).seenData := stays
    dsimp only
    rw [handleAnnounce]
    dsimp only
    rw [if_pos seen]
    simp
  | linkRequest =>
    simp only [type] at stays
    have own : pkt.destination = (node.learn src).destination := stays
    dsimp only
    rw [handleLinkRequest, if_pos own, if_pos ⟨rfl, stays⟩]
    have same : (node.learn src).linkManager = node.linkManager ∧ (node.learn src).destination = node.destination :=
      ⟨rfl, rfl⟩
    rw [same.1, same.2]
    generalize node.linkManager.handleLinkRequestWithOwnDest env.prims _ _ _ _ _ = outcome
    obtain ⟨manager, error | proof⟩ := outcome <;> rfl
  | proof =>
    simp only [type] at stays
    have own : pkt.destination = (node.learn src).destination := stays
    dsimp only
    rw [handleProof, if_pos own]
    simp

omit [DecidableEq Addr] in
theorem answer_suppresses {node : ReticulumNode Addr Key Sk} {src : Addr} {pkt proof : ReticulumPacket} {now : Nat}
    {seed : Seed} (answered : node.answer env src pkt now seed = some proof) :
    pkt.packetType = .linkRequest ∧ node.Suppresses env pkt := by
  unfold answer at answered
  split at answered
  · rename_i own
    refine ⟨own.1, ?_⟩
    simp only [Suppresses, own.1]
    exact own.2
  · cases answered

omit [DecidableEq Addr] in
theorem answer_type {node : ReticulumNode Addr Key Sk} {src : Addr} {pkt proof : ReticulumPacket} {now : Nat}
    {seed : Seed} (answered : node.answer env src pkt now seed = some proof) : proof.packetType = .proof := by
  unfold answer LinkManager.handleLinkRequestWithOwnDest at answered
  split at answered
  · split at answered
    · cases answered
    · split at answered
      · cases answered
      · split at answered
        · cases answered
        · cases answered
          rfl
  · cases answered

theorem Sends.packet {node : ReticulumNode Addr Key Sk} {payload : Bytes} {pkt : ReticulumPacket}
    (sends : node.Sends payload pkt) : ∃ destination, pkt = .new destination .data payload := by
  obtain ⟨peers, sent⟩ | ⟨peer, sent⟩ := sends
  · unfold broadcastData at sent
    split_ifs at sent
    cases sent
    exact ⟨_, rfl⟩
  · unfold sendDataTo at sent
    split_ifs at sent
    cases sent
    exact ⟨_, rfl⟩

theorem escapes_toBytes (destination : ReticulumAddress) (payload : Bytes) :
    escapes (ReticulumPacket.new destination .data payload).toBytes = escapes destination.bytes + escapes payload := by
  simp only [escapes, ReticulumPacket.toBytes, ReticulumPacket.new, ReticulumPacketType.toByte, List.countP_cons,
    List.countP_append]
  simp [slipEnd, slipEsc]

theorem readFrame_frame_iff {pkt : ReticulumPacket} (hops : pkt.hops ≤ maxHops) :
    readFrame (frame pkt) = some pkt ↔ pkt.toBytes.length + escapes pkt.toBytes + 1 ≤ receiveBuffer := by
  rw [← slipDecode_take_iff (by decide) (by decide), readFrame, frame]
  constructor
  · intro read
    cases decoded : slipDecode ((slipEncode pkt.toBytes).take receiveBuffer) with
    | error e =>
      rw [decoded] at read
      cases read
    | ok data =>
      rw [decoded] at read
      cases parsed : ReticulumPacket.fromBytes data with
      | error e =>
        simp only [parsed] at read
        cases read
      | ok other =>
        simp only [parsed] at read
        cases read
        rw [ReticulumPacket.toBytes_of_fromBytes parsed]
  · intro decoded
    rw [decoded]
    simp only [ReticulumPacket.fromBytes_toBytes hops]
    rfl

theorem readFrame_payload {datagram : Bytes} {pkt : ReticulumPacket} (read : readFrame datagram = some pkt) :
    pkt.payload.length ≤ maxDataPayload := by
  unfold readFrame at read
  split at read
  · cases read
  · rename_i data decoded
    have length : data.length ≤ receiveBuffer := by
      unfold slipDecode at decoded
      split at decoded
      · cases decoded
      · exact (length_unstuff decoded).trans (List.length_take_le _ _)
    cases parsed : ReticulumPacket.fromBytes data with
    | error e =>
      rw [parsed] at read
      cases read
    | ok other =>
      rw [parsed] at read
      cases read
      have whole := ReticulumPacket.length_toBytes pkt
      rw [ReticulumPacket.toBytes_of_fromBytes parsed] at whole
      simp only [receiveBuffer, maxDataPayload] at length ⊢
      omega

end ReticulumNode

inductive NodeCall (Addr Seed : Type) where
  | datagram (src : Addr) (bytes : Bytes) (now : Nat) (seed : Seed)
  | processPacket (pkt : ReticulumPacket) (aspectAddress : ReticulumAddress) (now : Nat)
  | drainDelivered

/-- A node, and the destinations and payloads of the data packets it has processed. -/
structure NodeHistory (Addr Key Sk : Type) where
  node : ReticulumNode Addr Key Sk
  processed : List (ReticulumAddress × Bytes)

namespace NodeHistory

def packetOf : NodeCall Addr Seed → Option ReticulumPacket
  | .datagram src bytes _ _ => if env.isPrivateIp src then ReticulumNode.readFrame bytes else none
  | .processPacket pkt _ _ => some pkt
  | .drainDelivered => none

def step (h : NodeHistory Addr Key Sk) (call : NodeCall Addr Seed) : NodeHistory Addr Key Sk where
  node := match call with
    | .datagram src bytes now seed => (h.node.receive env src bytes now seed).node
    | .processPacket pkt aspectAddress now => (h.node.processPacket env pkt aspectAddress now).1
    | .drainDelivered => { h.node with delivered := [] }
  processed := match packetOf env call with
    | some pkt =>
      if pkt.packetType = .data then (pkt.destination, pkt.payload) :: h.processed else h.processed
    | none => h.processed

/-- The call reads a data packet for this node that it has not processed before. -/
def BringsNew (h : NodeHistory Addr Key Sk) (call : NodeCall Addr Seed) (pkt : ReticulumPacket) : Prop :=
  packetOf env call = some pkt ∧ pkt.packetType = .data ∧ h.node.isFor pkt = true ∧
    (pkt.destination, pkt.payload) ∉ h.processed

def DeliversNew (h : NodeHistory Addr Key Sk) : NodeCall Addr Seed → Prop
  | .datagram src bytes now seed => ∀ pkt, h.BringsNew env (.datagram src bytes now seed) pkt →
      (h.node.receive env src bytes now seed).handed = some pkt.payload
  | .processPacket _ _ _ | .drainDelivered => True

def UnseenPayload (h : NodeHistory Addr Key Sk) : NodeCall Addr Seed → Prop
  | .datagram src bytes now seed => ∀ pkt, h.BringsNew env (.datagram src bytes now seed) pkt →
      env.blake3 pkt.payload ∉ h.node.seenData
  | .processPacket _ _ _ | .drainDelivered => True

open ReticulumNode in
theorem deliversNew_iff (h : NodeHistory Addr Key Sk) (call : NodeCall Addr Seed) :
    h.DeliversNew env call ↔ h.UnseenPayload env call := by
  cases call with
  | datagram src bytes now seed =>
    refine forall₂_congr fun pkt brings => ?_
    obtain ⟨read, data, forMe, -⟩ := brings
    simp only [packetOf] at read
    split at read
    · rename_i allowed
      have small := readFrame_payload read
      simp only [receive, allowed, Bool.not_true, Bool.false_eq_true, if_false, read]
      rw [handlePacket_handed]
      simp only [data, forMe, small, true_and, and_true]
      by_cases seen : env.blake3 pkt.payload ∈ h.node.seenData
      · simp [seen]
      · simp [seen]
    · cases read
  | processPacket pkt aspectAddress now => exact Iff.rfl
  | drainDelivered => exact Iff.rfl

end NodeHistory

namespace ReticulumNode

theorem readFrame_cut {destination : ReticulumAddress} {payload : Bytes} (address : Plain destination.bytes)
    (plain : Plain payload) (long : 2028 < payload.length) :
    readFrame (frame (.new destination .data payload)) = some (.new destination .data (payload.take 2028)) := by
  have bytes : Plain (ReticulumPacket.new destination .data payload).toBytes := by
    intro b member
    simp only [ReticulumPacket.toBytes, ReticulumPacket.new, ReticulumPacketType.toByte, List.mem_cons,
      List.mem_append] at member
    rcases member with rfl | rfl | found | rfl | found
    · decide
    · decide
    · exact address b found
    · decide
    · exact plain b found
  have length := ReticulumPacket.length_toBytes (.new destination .data payload)
  have cut : (ReticulumPacket.new destination .data payload).toBytes.take 2047 =
      (ReticulumPacket.new destination .data (payload.take 2028)).toBytes := by
    simp only [ReticulumPacket.toBytes, ReticulumPacket.new, List.take_succ_cons]
    rw [List.take_append, List.take_of_length_le (by simp [destination.size]), destination.size, List.take_succ_cons]
  have decoded : slipDecode ((frame (.new destination .data payload)).take receiveBuffer) =
      .ok (ReticulumPacket.new destination .data (payload.take 2028)).toBytes := by
    rw [← cut]
    refine slipDecode_take_plain bytes ?_ (by decide)
    rw [length]
    simp only [ReticulumPacket.new]
    omega
  rw [readFrame, decoded]
  have hops : (ReticulumPacket.new destination .data (payload.take 2028)).hops ≤ maxHops := by
    simp only [ReticulumPacket.new]
    decide
  simp only [ReticulumPacket.fromBytes_toBytes hops]
  rfl

section Cut

open Crypto.Transcript

/-- BLAKE3 of `hi`, and of the 2028 zero bytes below. -/
def digestOf (data : Bytes) : String :=
  if data = [104, 105] then "85052e9aab1b67b6622d94a08441b09fd5b7aca61ee360416d70de5da67d86ca"
  else "e570aabaa3dde4c26a6a9ef67249f1f6f7ca3a9099ea6b1595c01c4a551b89b7"

def numberedSockets : TransportEnv Nat Bytes UInt8 Bytes UInt8 where
  prims := primitives
  blake3 := digestOf
  peerAddress _ := north
  isPrivateIp _ := true

def knowing (destination : ReticulumAddress) (peers : Finset Nat) : ReticulumNode Nat Bytes UInt8 :=
  { (new destination : ReticulumNode Nat Bytes UInt8) with peers := peers }

theorem knowing_broadcasts {destination : ReticulumAddress} {peers : Finset Nat} {payload : Bytes} (known : peers ≠ ∅)
    (small : payload.length ≤ maxDataPayload) :
    (knowing destination peers).Sends payload (.new broadcastAddress .data payload) := by
  refine .inl ⟨peers, ?_⟩
  have others : (knowing destination peers).peers ≠ ∅ := known
  rw [broadcastData, if_neg (Nat.not_lt.mpr small), if_neg others]
  rfl

end Cut

end ReticulumNode

end Soshal.Mesh
