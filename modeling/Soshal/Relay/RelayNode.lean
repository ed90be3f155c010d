import Soshal.Library.Bounded
import Soshal.Library.Runs
import Soshal.Relay.Envelope

/-! The relay node: flood gossip over any number of backends.

A payload is identified by its digest. Two structures remember digests: a Bloom
filter that is never emptied and an exact set that forgets its oldest entry. An
inbound payload that either of them reports is dropped, so a payload is queued and
passed on at most once; a fresh one is dropped too when the filter reports it
falsely, or when its poll has already taken as many envelopes as it may.
-/

set_option autoImplicit false

namespace Soshal.Relay

open Library
open Library.LittleEndian (Bytes)
open Library.Runs (run Always Throughout)
open Library.Text (byteLen normKey normKey_normKey)

def recentCapacity : Nat := 10000
def seenCapacity : Nat := 100000
def deliveredCapacity : Nat := 4096

/-- A Bloom filter. All that is known of it is that it reports what it was given. -/
structure BloomFilter (F : Type) where
  empty : F
  insert : F → String → F
  contains : F → String → Bool
  noFalseNegatives : ∀ (items : List String) (digest : String), digest ∈ items → contains (items.foldl insert empty) digest = true

/-- The other code outside: SHA-256 as text, and parsing and verifying an event. -/
structure Outside (Event : Type) where
  payloadDigest : Bytes → String
  verifiedEventPayload : Bytes → Option Event

structure FastBloomSeenFilter (F : Type) where
  filter : F
  count : Nat
  capacity : Nat

structure RelayNode (F Event : Type) where
  backends : Nat
  recent : List MeshEnvelope
  seen : BoundedSet String
  seenBloom : FastBloomSeenFilter F
  delivered : List Event
  published : Nat
  received : Nat
  running : Bool

/-- What a node has done. Bytes go to a target for a payload of its own, or for one that came from a source. -/
inductive Happening (Event : Type) where
  | noted (digest : String)
  | queued (digest : String) (event : Event)
  | sent (source : Option Nat) (target : Nat) (digest : String) (bytes : Bytes)
  | drained

def lastOf {α : Type} (capacity : Nat) (queue : List α) : List α := queue.drop (queue.length - capacity)

section Node

variable {F Event : Type} (bloom : BloomFilter F) (outside : Outside Event)

def FastBloomSeenFilter.new (expectedItems : Nat) : FastBloomSeenFilter F := ⟨bloom.empty, 0, max expectedItems 1024⟩

def FastBloomSeenFilter.contains (f : FastBloomSeenFilter F) (digest : String) : Bool := bloom.contains f.filter digest

def FastBloomSeenFilter.insert (f : FastBloomSeenFilter F) (digest : String) : FastBloomSeenFilter F × Bool :=
  if bloom.contains f.filter digest then (f, false)
  else ({ f with filter := bloom.insert f.filter digest, count := f.count + 1 }, true)

namespace RelayNode

def new : RelayNode F Event := ⟨0, [], .empty seenCapacity, .new bloom seenCapacity, [], 0, 0, false⟩

variable (node : RelayNode F Event) (recv : Nat → List Bytes) (running : Nat → Nat → Bool)

def addBackend : RelayNode F Event := { node with backends := node.backends + 1 }

/-- The node after a start in which so many backends came up. -/
def start (started : Nat) : RelayNode F Event × Except String Nat :=
  ({ node with running := decide (started > 0) },
    if started = 0 then .error "no mesh backend started" else .ok started)

def stop : RelayNode F Event := { node with running := false }

def noteSeen (id : String) : RelayNode F Event :=
  { node with seenBloom := (node.seenBloom.insert bloom id).1, seen := (node.seen.insert id).1 }

/-- Publishes at hop 0. A backend that runs says how many peers it handed the envelope. -/
def publish (eventId : String) (kind : UInt16) (author : String) (createdAt : UInt64)
    (payload : Bytes) (handed : Nat → Option Nat) : RelayNode F Event × Except String Nat × List (Happening Event) :=
  let refused (e : String) : RelayNode F Event × Except String Nat × List (Happening Event) := (node, .error e, [])
  if !node.running then refused "relay node not running"
  else if payload.length > maxPayloadBytes then refused "payload exceeds mesh cap"
  else
    let eventId := normKey eventId
    let author := normKey author
    if eventId.isEmpty ∨ author.isEmpty then refused "event id or author cannot be empty"
    else if byteLen eventId > 128 ∨ byteLen author > 128 then refused "event id or author exceeds 128-byte cap"
    else
      let env := MeshEnvelope.new eventId kind author createdAt payload
      let digest := outside.payloadDigest env.payload
      let node := node.noteSeen bloom digest
      let node := { node with recent := lastOf recentCapacity (node.recent ++ [env]), published := node.published + 1 }
      let bytes := env.toBytes.toOption.getD []
      let total := ((List.range node.backends).map fun idx => (handed idx).getD 0).sum
      let targets := (List.range node.backends).filter fun idx => (handed idx).isSome
      (node, .ok total, .noted digest :: targets.map fun idx => .sent none idx digest bytes)

/-- Envelopes that parse are taken until there are as many as the delivery queue holds; what is left over is lost. -/
def collectJobs : List (Nat × Bytes) → List (Nat × MeshEnvelope) → List (Nat × MeshEnvelope)
  | [], jobs => jobs
  | (idx, payload) :: rest, jobs =>
    if jobs.length ≥ deliveredCapacity then jobs
    else
      match MeshEnvelope.fromBytes payload with
      | none => collectJobs rest jobs
      | some env => collectJobs rest (jobs ++ [(idx, env)])

def inbound (backends : Nat) (recv : Nat → List Bytes) : List (Nat × Bytes) :=
  (List.range backends).flatMap fun idx => (recv idx).map fun payload => (idx, payload)

def reBroadcast (env : MeshEnvelope) (sourceIdx : Nat) (running : Nat → Bool) : List (Happening Event) :=
  match env.toBytes with
  | .error _ => []
  | .ok bytes =>
    ((List.range node.backends).filter fun idx => decide (idx ≠ sourceIdx) && running idx).map fun idx =>
      .sent (some sourceIdx) idx (outside.payloadDigest env.payload) bytes

def receive (env : MeshEnvelope) (event : Event) : RelayNode F Event :=
  let node := node.noteSeen bloom (outside.payloadDigest env.payload)
  { node with
    received := node.received + 1
    delivered := lastOf deliveredCapacity (node.delivered ++ [event])
    recent := lastOf recentCapacity (node.recent ++ [env]) }

/-- One envelope of a poll, and how many new ones that makes. Backends come and go between two envelopes: which of
them run is asked when the envelope is passed on, after so many have been received. -/
def relayJob (running : Nat → Nat → Bool) (node : RelayNode F Event) (job : Nat × MeshEnvelope) :
    RelayNode F Event × Nat × List (Happening Event) :=
  match outside.verifiedEventPayload job.2.payload with
  | none => (node, 0, [])
  | some event =>
    let digest := outside.payloadDigest job.2.payload
    if node.seenBloom.contains bloom digest || node.seen.contains digest then (node, 0, [])
    else
      let node := node.receive bloom outside job.2 event
      let relayed := match job.2.intoIncrementedHop with
        | none => []
        | some next => node.reBroadcast outside next job.1 (running node.received)
      (node, 1, .noted digest :: .queued digest event :: relayed)

def relayJobs (running : Nat → Nat → Bool) : RelayNode F Event → List (Nat × MeshEnvelope) →
    RelayNode F Event × Nat × List (Happening Event)
  | node, [] => (node, 0, [])
  | node, job :: rest =>
    let (node, one, first) := relayJob bloom outside running node job
    let (node, more, later) := relayJobs running node rest
    (node, one + more, first ++ later)

def jobs : List (Nat × MeshEnvelope) :=
  collectJobs (inbound node.backends recv) []

def poll : RelayNode F Event × Nat × List (Happening Event) :=
  node.relayJobs bloom outside running (node.jobs recv)

def drainDelivered : RelayNode F Event × List Event :=
  ({ node with delivered := [] }, node.delivered)

end RelayNode

inductive Move where
  | addBackend
  | start (started : Nat)
  | stop
  | publish (eventId : String) (kind : UInt16) (author : String) (createdAt : UInt64) (payload : Bytes)
      (handed : Nat → Option Nat)
  | poll (recv : Nat → List Bytes) (running : Nat → Nat → Bool)
  | drain

structure World (F Event : Type) where
  node : RelayNode F Event
  journal : List (Happening Event)

def step (relay : World F Event) : Move → World F Event
  | .addBackend => { relay with node := relay.node.addBackend }
  | .start started => { relay with node := (relay.node.start started).1 }
  | .stop => { relay with node := relay.node.stop }
  | .publish eventId kind author createdAt payload handed =>
    let (node, _, happened) := relay.node.publish bloom outside eventId kind author createdAt payload handed
    ⟨node, relay.journal ++ happened⟩
  | .poll recv running =>
    let (node, _, happened) := relay.node.poll bloom outside recv running
    ⟨node, relay.journal ++ happened⟩
  | .drain => ⟨relay.node.drainDelivered.1, relay.journal ++ [.drained]⟩

def initial : World F Event := ⟨.new bloom, []⟩

end Node

end Soshal.Relay
