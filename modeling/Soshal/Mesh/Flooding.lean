import Mathlib.Algebra.BigOperators.Group.Finset.Basic
import Mathlib.Algebra.Order.BigOperators.Group.Finset
import Mathlib.Data.Multiset.Basic
import Soshal.Mesh.Transport

/-! Announces, link requests and link proofs across a network of nodes.

Any node may send a packet, and any datagram in flight may be delivered or lost, in any
order. A node relays a packet under the same type, destination and payload with one hop
more. Beside the nodes the network keeps what each of them has transmitted; a transmission
counts as remembered until the node has recorded as many digests as its window holds.
-/

set_option autoImplicit false

namespace Soshal.Mesh

open Library Crypto

/-- What makes two packets the same announce, request or proof. -/
abbrev PacketKey := ReticulumPacketType × ReticulumAddress × Bytes

def ReticulumPacket.key (pkt : ReticulumPacket) : PacketKey := (pkt.packetType, pkt.destination, pkt.payload)

structure Envelope (Node : Type) where
  src : Node
  dst : Node
  bytes : Bytes
  deriving DecidableEq

/-- A packet that a node sent to some peers, and how many digests the node had recorded by then. -/
structure Transmission (Node : Type) where
  key : PacketKey
  peers : Finset Node
  stamp : Nat

/-- The nodes with the datagrams in flight. `contacts` are the addresses a node has written to by itself or heard
from, `recorded` counts the digests it has put into its window, and `log` holds its transmissions of packets other
than data, newest first. -/
structure Network (Node Key Sk : Type) where
  nodes : Node → ReticulumNode Node Key Sk
  inFlight : Multiset (Envelope Node)
  contacts : Node → Finset Node
  recorded : Node → Nat
  log : Node → List (Transmission Node)

inductive NetworkCall (Node Seed : Type) where
  | originate (node : Node) (pkt : ReticulumPacket) (peers : Finset Node)
  | deliver (envelope : Envelope Node) (now : Nat) (seed : Seed)
  | lose (envelope : Envelope Node)

namespace Network

variable {Node Key Sk Secret Seed : Type} [DecidableEq Node] (env : TransportEnv Node Key Sk Secret Seed)

/-- A network in which nothing has been sent yet; its nodes may be in any state. -/
def quiet (nodes : Node → ReticulumNode Node Key Sk) : Network Node Key Sk where
  nodes := nodes
  inFlight := 0
  contacts _ := ∅
  recorded _ := 0
  log _ := []

variable (net : Network Node Key Sk)

def send (node : Node) (peers : Finset Node) (pkt : ReticulumPacket) : Network Node Key Sk :=
  { net with
    inFlight := net.inFlight + peers.val.map fun peer => ⟨node, peer, ReticulumNode.frame pkt⟩
    log := if pkt.packetType = .data ∨ peers = ∅ then net.log
      else Function.update net.log node (⟨pkt.key, peers, net.recorded node⟩ :: net.log node) }

def handling (e : Envelope Node) (now : Nat) (seed : Seed) : Handling Node Key Sk :=
  (net.nodes e.dst).receive env e.src e.bytes now seed

def arrive (e : Envelope Node) (done : Handling Node Key Sk) : Network Node Key Sk :=
  { net with
    nodes := Function.update net.nodes e.dst done.node
    inFlight := net.inFlight.erase e
    contacts := Function.update net.contacts e.dst (insert e.src (net.contacts e.dst))
    recorded := if done.noted.isSome then Function.update net.recorded e.dst (net.recorded e.dst + 1)
      else net.recorded }

def step : NetworkCall Node Seed → Network Node Key Sk
  | .originate node pkt peers =>
    { net with contacts := Function.update net.contacts node (net.contacts node ∪ peers) }.send node peers pkt
  | .deliver e now seed =>
    if e ∈ net.inFlight then
      let done := net.handling env e now seed
      match done.sent with
      | none => net.arrive e done
      | some (peers, pkt) => (net.arrive e done).send e.dst peers pkt
    else net
  | .lose e => { net with inFlight := net.inFlight.erase e }

/-- The packet that a call makes a node transmit, and to whom. -/
def transmission : NetworkCall Node Seed → Option (Node × Finset Node × ReticulumPacket)
  | .originate node pkt peers => some (node, peers, pkt)
  | .deliver e now seed =>
    if e ∈ net.inFlight then (net.handling env e now seed).sent.map fun sent => (e.dst, sent) else none
  | .lose _ => none

/-- The node has transmitted the packet, and recorded fewer digests since than its window holds. -/
def Remembers (node : Node) (key : PacketKey) : Prop :=
  ∃ t ∈ net.log node, t.key = key ∧ net.recorded node < t.stamp + maxSeenData

/-- No node transmits an announce, request or proof that it remembers to have transmitted. -/
def TransmitsOnce (call : NetworkCall Node Seed) : Prop :=
  ∀ node peers pkt, net.transmission env call = some (node, peers, pkt) → pkt.packetType ≠ .data → peers ≠ ∅ →
    ¬ net.Remembers node pkt.key

def interfaces (node : Node) : Finset Node := (net.nodes node).peers ∪ net.contacts node

def transmissions (node : Node) (key : PacketKey) : Nat :=
  (((net.log node).filter fun t => t.key = key).map fun t => t.peers.card).sum

/-- A packet that no node has forgotten was transmitted at most once for each node and interface. -/
def Bounded [Fintype Node] (net : Network Node Key Sk) : Prop :=
  ∀ key, (∀ node, ∀ t ∈ net.log node, t.key = key → net.recorded node < t.stamp + maxSeenData) →
    ∑ node, net.transmissions node key ≤ ∑ node, (net.interfaces node).card

/-- A packet with hops left reaches a node that would pass it on to someone. -/
def Relays (node : ReticulumNode Node Key Sk) (src : Node) (pkt : ReticulumPacket) : Prop :=
  pkt.hops < maxHops ∧ (node.learn src).peers.erase src ≠ ∅ ∧ ¬ node.Suppresses env pkt

/-- The announce, request or proof in a datagram, when its addressee reads it. -/
def Reads (e : Envelope Node) (pkt : ReticulumPacket) : Prop :=
  env.isPrivateIp e.src = true ∧ ReticulumNode.readFrame e.bytes = some pkt ∧ pkt.packetType ≠ .data

/-- What a node sends of its own is new to it, and no packet that it remembers to have transmitted comes back
to it with hops left, other than an announce whose very bytes stand in the window or a request or proof
for the node itself. -/
def NothingReturns : NetworkCall Node Seed → Prop
  | .originate node pkt peers => pkt.packetType ≠ .data → peers ≠ ∅ → ¬ net.Remembers node pkt.key
  | .deliver e now seed => e ∈ net.inFlight → ∀ pkt, Reads env e pkt →
      (Relays env (net.nodes e.dst) e.src pkt → ¬ net.Remembers e.dst pkt.key) ∧
        ∀ proof, (net.nodes e.dst).answer env e.src pkt now seed = some proof → ¬ net.Remembers e.dst proof.key
  | .lose _ => True

theorem key_of_incrementHops {pkt fwd : ReticulumPacket} (next : pkt.incrementHops = some fwd) :
    fwd.key = pkt.key ∧ fwd.packetType = pkt.packetType ∧ pkt.hops < maxHops := by
  unfold ReticulumPacket.incrementHops at next
  split at next
  · cases next
  · rename_i below
    cases next
    exact ⟨rfl, rfl, by simpa using below⟩

theorem incrementHops_of_lt {pkt : ReticulumPacket} (below : pkt.hops < maxHops) :
    ∃ fwd, pkt.incrementHops = some fwd := by
  unfold ReticulumPacket.incrementHops
  rw [if_neg (by simpa using below)]
  exact ⟨_, rfl⟩

theorem sent_iff (e : Envelope Node) (now : Nat) (seed : Seed) (key : PacketKey) :
    (∃ peers out, (net.handling env e now seed).sent = some (peers, out) ∧ out.packetType ≠ .data ∧ peers ≠ ∅ ∧
        out.key = key) ↔
      ∃ pkt, Reads env e pkt ∧ ((Relays env (net.nodes e.dst) e.src pkt ∧ pkt.key = key) ∨
        ∃ proof, (net.nodes e.dst).answer env e.src pkt now seed = some proof ∧ proof.key = key) := by
  unfold handling ReticulumNode.receive
  constructor
  · rintro ⟨peers, out, sent, other, someone, rfl⟩
    split at sent
    · cases sent
    · rename_i allowed
      split at sent
      · cases sent
      · rename_i pkt read
        by_cases stays : (net.nodes e.dst).Suppresses env pkt
        · rw [ReticulumNode.handlePacket_answers env stays] at sent
          obtain ⟨proof, answered, same⟩ := Option.map_eq_some_iff.mp sent
          cases same
          have request := (ReticulumNode.answer_suppresses env answered).1
          exact ⟨pkt, ⟨by simpa using allowed, read, by simp [request]⟩, .inr ⟨_, answered, rfl⟩⟩
        · rw [ReticulumNode.handlePacket_relays env stays] at sent
          obtain ⟨fwd, next, same⟩ := Option.map_eq_some_iff.mp sent
          cases same
          obtain ⟨key, type, below⟩ := key_of_incrementHops next
          rw [type] at other
          exact ⟨pkt, ⟨by simpa using allowed, read, other⟩, .inl ⟨⟨below, someone, stays⟩, key.symm⟩⟩
  · rintro ⟨pkt, ⟨allowed, read, other⟩, relayed | answered⟩
    · obtain ⟨⟨below, someone, passes⟩, rfl⟩ := relayed
      obtain ⟨fwd, next⟩ := incrementHops_of_lt below
      obtain ⟨key, type, -⟩ := key_of_incrementHops next
      refine ⟨_, fwd, ?_, type ▸ other, someone, key⟩
      rw [allowed, Bool.not_true, if_neg Bool.false_ne_true, read]
      dsimp only
      rw [ReticulumNode.handlePacket_relays env passes, ReticulumNode.forward, next]
      rfl
    · obtain ⟨proof, answered, rfl⟩ := answered
      have stays := (ReticulumNode.answer_suppresses env answered).2
      refine ⟨{e.src}, proof, ?_, by simp [ReticulumNode.answer_type env answered], Finset.singleton_ne_empty _, rfl⟩
      rw [allowed, Bool.not_true, if_neg Bool.false_ne_true, read]
      dsimp only
      rw [ReticulumNode.handlePacket_answers env stays, answered]
      rfl

theorem transmitsOnce_iff (call : NetworkCall Node Seed) :
    net.TransmitsOnce env call ↔ net.NothingReturns env call := by
  cases call with
  | originate node pkt peers =>
    simp only [TransmitsOnce, NothingReturns, transmission, Option.some.injEq, Prod.mk.injEq]
    constructor
    · intro once data someone
      exact once node peers pkt ⟨rfl, rfl, rfl⟩ data someone
    · rintro new _ _ _ ⟨rfl, rfl, rfl⟩
      exact new
  | deliver e now seed =>
    by_cases flies : e ∈ net.inFlight
    · simp only [TransmitsOnce, NothingReturns, transmission, flies, if_true, true_implies]
      constructor
      · intro once pkt reads
        constructor
        · intro relays remembers
          obtain ⟨peers, out, sent, other, someone, same⟩ :=
            (sent_iff env net e now seed pkt.key).mpr ⟨pkt, reads, .inl ⟨relays, rfl⟩⟩
          exact once e.dst peers out (by rw [sent]; rfl) other someone (same ▸ remembers)
        · intro proof answered remembers
          obtain ⟨peers, out, sent, other, someone, same⟩ :=
            (sent_iff env net e now seed proof.key).mpr ⟨pkt, reads, .inr ⟨proof, answered, rfl⟩⟩
          exact once e.dst peers out (by rw [sent]; rfl) other someone (same ▸ remembers)
      · intro nothing node peers out sent other someone
        obtain ⟨⟨others, pkt⟩, sent, same⟩ := Option.map_eq_some_iff.mp sent
        obtain ⟨rfl, rfl, rfl⟩ := same
        obtain ⟨pkt', reads, ⟨relays, same⟩ | ⟨proof, answered, same⟩⟩ :=
          (sent_iff env net e now seed out.key).mp ⟨peers, out, sent, other, someone, rfl⟩
        · rw [← same]
          exact (nothing pkt' reads).1 relays
        · rw [← same]
          exact (nothing pkt' reads).2 proof answered
    · simp [TransmitsOnce, NothingReturns, transmission, flies]
  | lose e => simp [TransmitsOnce, NothingReturns, transmission]

/-- Transmissions of one packet lie a full window apart, and all went to interfaces of their node. -/
structure LogSpaced (log : List (Transmission Node)) (recorded : Nat) (interfaces : Finset Node) : Prop where
  apart : log.Pairwise fun newer older => newer.key = older.key → older.stamp + maxSeenData ≤ newer.stamp
  past : ∀ t ∈ log, t.stamp ≤ recorded
  known : ∀ t ∈ log, t.peers ⊆ interfaces

omit [DecidableEq Node] in
theorem LogSpaced.nil (recorded : Nat) (interfaces : Finset Node) : LogSpaced [] recorded interfaces where
  apart := .nil
  past _ member := absurd member List.not_mem_nil
  known _ member := absurd member List.not_mem_nil

omit [DecidableEq Node] in
theorem LogSpaced.mono {log : List (Transmission Node)} {recorded later : Nat} {interfaces more : Finset Node}
    (spaced : LogSpaced log recorded interfaces) (grows : recorded ≤ later) (known : interfaces ⊆ more) :
    LogSpaced log later more where
  apart := spaced.apart
  past t member := (spaced.past t member).trans grows
  known t member := (spaced.known t member).trans known

omit [DecidableEq Node] in
theorem LogSpaced.cons {log : List (Transmission Node)} {recorded : Nat} {interfaces : Finset Node}
    (spaced : LogSpaced log recorded interfaces) {t : Transmission Node} (stamped : t.stamp = recorded)
    (new : ∀ older ∈ log, older.key = t.key → older.stamp + maxSeenData ≤ recorded) (known : t.peers ⊆ interfaces) :
    LogSpaced (t :: log) recorded interfaces where
  apart := by
    refine List.pairwise_cons.mpr ⟨?_, spaced.apart⟩
    intro older member key
    rw [stamped]
    exact new older member key.symm
  past := List.forall_mem_cons.mpr ⟨stamped.le, spaced.past⟩
  known := List.forall_mem_cons.mpr ⟨known, spaced.known⟩

omit [DecidableEq Node] in
theorem LogSpaced.sum_le {log : List (Transmission Node)} {recorded : Nat} {interfaces : Finset Node}
    (spaced : LogSpaced log recorded interfaces) {key : PacketKey}
    (remembered : ∀ t ∈ log, t.key = key → recorded < t.stamp + maxSeenData) :
    ((log.filter fun t => t.key = key).map fun t => t.peers.card).sum ≤ interfaces.card := by
  have apart := spaced.apart.filter fun t => decide (t.key = key)
  have entries : ∀ t ∈ log.filter (fun t => decide (t.key = key)), t ∈ log ∧ t.key = key := by
    intro t member
    simpa using member
  generalize log.filter (fun t => decide (t.key = key)) = matching at apart entries
  match matching, apart, entries with
  | [], _, _ => exact Nat.zero_le _
  | [t], _, entries =>
    obtain ⟨member, -⟩ := entries t (by simp)
    simpa using Finset.card_le_card (spaced.known t member)
  | newer :: older :: rest, apart, entries =>
    obtain ⟨newerIn, newerKey⟩ := entries newer (by simp)
    obtain ⟨olderIn, olderKey⟩ := entries older (by simp)
    have gap := (List.pairwise_cons.mp apart).1 older (by simp) (newerKey.trans olderKey.symm)
    have window := remembered older olderIn olderKey
    have now := spaced.past newer newerIn
    omega

def Spaced : Prop :=
  ∀ node, LogSpaced (net.log node) (net.recorded node) (net.interfaces node)

theorem Spaced.bounded [Fintype Node] {net : Network Node Key Sk} (spaced : net.Spaced) : net.Bounded := by
  intro key remembered
  exact Finset.sum_le_sum fun node _ => (spaced node).sum_le (remembered node)

theorem Spaced.send {net : Network Node Key Sk} (spaced : net.Spaced) {node : Node} {peers : Finset Node}
    {pkt : ReticulumPacket} (new : pkt.packetType ≠ .data → peers ≠ ∅ →
      ∀ t ∈ net.log node, t.key = pkt.key → t.stamp + maxSeenData ≤ net.recorded node)
    (known : peers ⊆ net.interfaces node) : (net.send node peers pkt).Spaced := by
  intro other
  by_cases unlogged : pkt.packetType = .data ∨ peers = ∅
  · have same : (net.send node peers pkt).log = net.log := if_pos unlogged
    rw [same]
    exact spaced other
  · have logged : (net.send node peers pkt).log =
        Function.update net.log node (⟨pkt.key, peers, net.recorded node⟩ :: net.log node) := if_neg unlogged
    rw [not_or] at unlogged
    rw [logged]
    by_cases same : other = node
    · subst same
      rw [Function.update_self]
      exact (spaced other).cons rfl (new unlogged.1 unlogged.2) known
    · rw [Function.update_of_ne same]
      exact spaced other

theorem interfaces_arrive {net : Network Node Key Sk} {e : Envelope Node} {done : Handling Node Key Sk}
    (grows : (net.nodes e.dst).peers ⊆ done.node.peers) (node : Node) :
    net.interfaces node ⊆ (net.arrive e done).interfaces node := by
  unfold interfaces arrive
  by_cases same : node = e.dst
  · subst same
    simp only [Function.update_self]
    exact Finset.union_subset_union grows (Finset.subset_insert _ _)
  · simp only [Function.update_of_ne same]
    exact Finset.Subset.refl _

theorem recorded_arrive (e : Envelope Node) (done : Handling Node Key Sk) (node : Node) :
    net.recorded node ≤ (net.arrive e done).recorded node := by
  unfold arrive
  dsimp only
  split
  · by_cases same : node = e.dst
    · subst same
      rw [Function.update_self]
      exact Nat.le_succ _
    · rw [Function.update_of_ne same]
  · exact Nat.le_refl _

theorem Spaced.arrive {net : Network Node Key Sk} (spaced : net.Spaced) {e : Envelope Node}
    {done : Handling Node Key Sk} (grows : (net.nodes e.dst).peers ⊆ done.node.peers) : (net.arrive e done).Spaced :=
  fun node => (spaced node).mono (recorded_arrive net e done node) (interfaces_arrive grows node)

theorem handling_peers (e : Envelope Node) (now : Nat) (seed : Seed) :
    (net.nodes e.dst).peers ⊆ (net.handling env e now seed).node.peers ∧
      ∀ peers pkt, (net.handling env e now seed).sent = some (peers, pkt) →
        peers ⊆ insert e.src (net.handling env e now seed).node.peers := by
  unfold handling ReticulumNode.receive
  split
  · exact ⟨Finset.Subset.refl _, by simp⟩
  · split
    · exact ⟨Finset.Subset.refl _, by simp⟩
    · rename_i read _
      obtain ⟨-, learnt, -⟩ := (net.nodes e.dst).handlePacket_spec env e.src read now seed
      rw [learnt]
      constructor
      · unfold ReticulumNode.learn
        dsimp only
        split
        · exact Finset.subset_insert _ _
        · exact Finset.Subset.refl _
      · intro peers pkt sent
        by_cases stays : (net.nodes e.dst).Suppresses env read
        · rw [ReticulumNode.handlePacket_answers env stays] at sent
          obtain ⟨proof, -, same⟩ := Option.map_eq_some_iff.mp sent
          cases same
          exact Finset.singleton_subset_iff.mpr (Finset.mem_insert_self _ _)
        · rw [ReticulumNode.handlePacket_relays env stays] at sent
          obtain ⟨fwd, -, same⟩ := Option.map_eq_some_iff.mp sent
          cases same
          exact (Finset.erase_subset _ _).trans (Finset.subset_insert _ _)

omit [DecidableEq Node] in
theorem not_remembers {net : Network Node Key Sk} {node : Node} {key : PacketKey}
    (forgotten : ¬ net.Remembers node key) :
    ∀ t ∈ net.log node, t.key = key → t.stamp + maxSeenData ≤ net.recorded node := by
  intro t member same
  by_contra within
  exact forgotten ⟨t, member, same, by omega⟩

theorem step_spaced {net : Network Node Key Sk} {call : NetworkCall Node Seed} (spaced : net.Spaced)
    (once : net.TransmitsOnce env call) : (net.step env call).Spaced := by
  cases call with
  | originate node pkt peers =>
    have wider : Spaced { net with contacts := Function.update net.contacts node (net.contacts node ∪ peers) } := by
      intro other
      refine (spaced other).mono (Nat.le_refl _) ?_
      unfold interfaces
      by_cases same : other = node
      · subst same
        simp only [Function.update_self]
        exact Finset.union_subset_union_right Finset.subset_union_left
      · simp only [Function.update_of_ne same]
        exact Finset.Subset.refl _
    refine wider.send ?_ ?_
    · intro other someone
      exact not_remembers (once node peers pkt rfl other someone)
    · simp only [interfaces, Function.update_self]
      exact Finset.subset_union_right.trans Finset.subset_union_right
  | deliver e now seed =>
    by_cases flies : e ∈ net.inFlight
    · obtain ⟨grows, towards⟩ := handling_peers env net e now seed
      have arrived := spaced.arrive grows
      simp only [step, flies, if_true]
      cases sent : (net.handling env e now seed).sent with
      | none => exact arrived
      | some out =>
        obtain ⟨peers, pkt⟩ := out
        refine arrived.send ?_ ?_
        · intro other someone t member key
          have transmitted : net.transmission env (.deliver e now seed) = some (e.dst, peers, pkt) := by
            simp only [transmission, flies, if_true, sent, Option.map_some]
          have old := not_remembers (once e.dst peers pkt transmitted other someone) t member key
          exact old.trans (recorded_arrive net e _ e.dst)
        · refine (towards peers pkt sent).trans ?_
          simp only [interfaces, Network.arrive, Function.update_self]
          intro peer member
          rcases Finset.mem_insert.mp member with rfl | learnt
          · exact Finset.mem_union_right _ (Finset.mem_insert_self _ _)
          · exact Finset.mem_union_left _ learnt
    · simp only [step, flies, if_false]
      exact spaced
  | lose e => exact spaced

/-- Over any topology and any order of deliveries, every node transmits each announce, request and proof at most
once while it remembers it, and so at most once for each node and interface, exactly in the runs in which
no such packet comes back to a node that has transmitted it. -/
theorem transmits_once_iff [Fintype Node] (nodes : Node → ReticulumNode Node Key Sk)
    (calls : List (NetworkCall Node Seed)) :
    Runs.Throughout (step env) (TransmitsOnce env) (quiet nodes) calls ∧
        Runs.Always (step env) Bounded (quiet nodes) calls ↔
      Runs.Throughout (step env) (NothingReturns env) (quiet nodes) calls := by
  have sides : Runs.Throughout (step env) (TransmitsOnce env) (quiet nodes) calls ↔
      Runs.Throughout (step env) (NothingReturns env) (quiet nodes) calls :=
    Runs.throughout_congr (transmitsOnce_iff env)
  rw [← sides]
  refine ⟨fun holds => holds.1, fun once => ⟨once, ?_⟩⟩
  have spaced : Runs.Always (step env) Spaced (quiet nodes) calls :=
    Runs.always_of_throughout (fun net call spaced once => step_spaced env spaced once)
      (fun node => LogSpaced.nil _ _) once
  exact spaced.imp fun net => Spaced.bounded

section Triangle

open Crypto.Transcript

def triangle : Fin 3 → ReticulumNode (Fin 3) Bytes UInt8 := fun node =>
  { (.new ⟨List.replicate 16 (UInt8.ofNat node.val), rfl⟩ : ReticulumNode (Fin 3) Bytes UInt8) with
    peers := Finset.univ.erase node }

def triangleSockets : TransportEnv (Fin 3) Bytes UInt8 Bytes UInt8 where
  prims := primitives
  blake3 := ReticulumNode.digestOf
  peerAddress _ := north
  isPrivateIp _ := true

/-- A request for a node outside the triangle, after some hops. -/
def stray (hops : UInt8) : ReticulumPacket :=
  { ReticulumPacket.new south .linkRequest [linkRequestPqc, 104, 105] with hops := hops }

/-- The request goes from each node to the next and comes back. -/
def aroundTriangle : List (NetworkCall (Fin 3) UInt8) :=
  [.originate 0 (stray 0) {1}, .deliver ⟨0, 1, ReticulumNode.frame (stray 0)⟩ 0 0,
    .deliver ⟨1, 2, ReticulumNode.frame (stray 1)⟩ 0 0, .deliver ⟨2, 0, ReticulumNode.frame (stray 2)⟩ 0 0]

/-- The second node of the triangle relays the request again when it comes round. -/
theorem request_circles_triangle :
    ¬ (Runs.Throughout (step triangleSockets) (TransmitsOnce triangleSockets) (quiet triangle)
          (aroundTriangle ++ [.deliver ⟨0, 1, ReticulumNode.frame (stray 3)⟩ 0 0]) ∧
        Runs.Always (step triangleSockets) Bounded (quiet triangle)
          (aroundTriangle ++ [.deliver ⟨0, 1, ReticulumNode.frame (stray 3)⟩ 0 0])) := by
  rintro ⟨once, -⟩
  have last := Runs.throughout_iff.mp once aroundTriangle (.deliver ⟨0, 1, ReticulumNode.frame (stray 3)⟩ 0 0) [] rfl
  rw [transmitsOnce_iff] at last
  have read : ReticulumNode.readFrame (ReticulumNode.frame (stray 3)) = some (stray 3) :=
    (ReticulumNode.readFrame_frame_iff (by decide)).mpr (by decide)
  obtain ⟨silent, -⟩ := last (by decide) (stray 3) ⟨rfl, read, by decide⟩
  refine silent ⟨by decide, by decide, ?_⟩ ?_
  · change ¬ (stray 3).destination = _
    decide
  · unfold Remembers
    decide

end Triangle

end Network

end Soshal.Mesh
