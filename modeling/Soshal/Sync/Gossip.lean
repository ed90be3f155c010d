import Mathlib.Data.Finset.Sort
import Mathlib.Data.String.Basic
import Soshal.Network.Grafts
import Soshal.Nostr.VerifiedCache

/-! Gossip that reaches the store: one message at a time, and in batches.

Only a signed event whose id is the announced one is passed on to the broadcast
tree. It is ingested unless the process has seen it before for this account. The
set of seen keys is shared by all accounts of the process and filled before ingest
has answered.
-/

set_option autoImplicit false

namespace Soshal.Network.PlumTreeNode

/-- The order in which the peer sets of a node are iterated: a function of everything the node has been
through, and otherwise unknown. -/
structure PeerOrder where
  eager : List PlumTreeCall → Finset String → List String
  lazy : List PlumTreeCall → Finset String → List String
  eager_lists : ∀ calls peers, (eager calls peers : Multiset String) = peers.val
  lazy_lists : ∀ calls peers, (lazy calls peers : Multiset String) = peers.val

/-- The answer of `handleIncoming` in the order in which it is built. -/
def outgoing (order : PeerOrder) (calls : List PlumTreeCall) (node : PlumTreeNode) (now : Nat) (fromPeer : String) :
    PlumTreeMessage → List (String × PlumTreeMessage)
  | .gossip messageId payloadJson round =>
    if node.receivedMessages.contains messageId then [(fromPeer, .prune messageId)]
    else
      ((order.eager calls node.eagerPeers).filter (· ≠ fromPeer)).map
          (fun peer => (peer, .gossip messageId payloadJson (saturatingSucc round))) ++
        ((order.lazy calls node.lazyPeers).filter (· ≠ fromPeer)).map
          (fun peer => (peer, .iHave messageId (saturatingSucc round)))
  | .iHave messageId _ =>
    if isPlausibleEventId messageId && (node.consumeGraftCredit now fromPeer).2 &&
        !node.receivedMessages.contains messageId && !node.pendingGrafts.containsKey messageId then
      [(fromPeer, .graft messageId)]
    else []
  | .graft messageId =>
    match node.payloadCache.get messageId with
    | some payload => [(fromPeer, .gossip messageId payload 0)]
    | none => []
  | .prune _ => []

theorem PeerOrder.mem_eager (order : PeerOrder) (calls : List PlumTreeCall) (peers : Finset String) (peer : String) :
    peer ∈ order.eager calls peers ↔ peer ∈ peers := by
  rw [← Multiset.mem_coe, order.eager_lists, Finset.mem_val]

theorem PeerOrder.mem_lazy (order : PeerOrder) (calls : List PlumTreeCall) (peers : Finset String) (peer : String) :
    peer ∈ order.lazy calls peers ↔ peer ∈ peers := by
  rw [← Multiset.mem_coe, order.lazy_lists, Finset.mem_val]

theorem mem_outgoing_iff (order : PeerOrder) (calls : List PlumTreeCall) (node : PlumTreeNode) (now : Nat)
    (fromPeer : String) (msg : PlumTreeMessage) (sent : String × PlumTreeMessage) :
    sent ∈ node.outgoing order calls now fromPeer msg ↔ sent ∈ (node.handleIncoming now fromPeer msg).2 := by
  cases msg with
  | gossip messageId payloadJson round =>
    by_cases seen : node.receivedMessages.contains messageId = true
    · simp [outgoing, handleIncoming, seen]
    · simp [outgoing, handleIncoming, seen, forward, order.mem_eager, order.mem_lazy, and_comm]
  | iHave messageId round =>
    by_cases registers : node.Registers now fromPeer messageId
    · rw [(handleIncoming_registers registers).1]
      obtain ⟨wellFormed, granted, unseen, idle⟩ := registers
      simp [outgoing, wellFormed, granted, unseen, idle]
    · rw [(handleIncoming_ignores registers).1]
      simp only [Registers] at registers
      simp only [outgoing, Bool.and_eq_true, Bool.not_eq_true', and_assoc, if_neg registers]
      simp
  | graft messageId =>
    by_cases promoted : fromPeer ∈ node.lazyPeers ∧ node.eagerPeers.card < eagerPeerCap
    · simp only [outgoing, handleIncoming, if_pos promoted]
      cases node.payloadCache.get messageId <;> simp
    · simp only [outgoing, handleIncoming, if_neg promoted]
      cases node.payloadCache.get messageId <;> simp
  | prune messageId => simp [outgoing, handleIncoming]

end Soshal.Network.PlumTreeNode

namespace Soshal.Sync

open Library
open Library.Text (hexEncode)
open Network (PlumTreeMessage PlumTreeNode PlumTreeCall)
open Network.PlumTreeNode (PeerOrder)
open Nostr (Event)

def seenGossipCap : Nat := 10000

/-- A message as a peer delivers it, with the answers that are given while it is processed: whether
`verify_event` accepts its event, and whether the event's own writes succeed. -/
structure GossipDelivery where
  fromPeer : String
  msg : PlumTreeMessage
  now : Nat
  accepted : Bool
  persists : Bool

/-- The bridge and the set of seen keys. `calls` is what its node has handled, and `failed` holds the events
whose last ingest failed. -/
structure GossipSyncBridge where
  node : PlumTreeNode
  calls : List PlumTreeCall
  seen : BoundedSet String
  failed : List Event

/-- What a call leaves, what it sends, and which events it handed to ingest and stored. -/
structure GossipResult where
  bridge : GossipSyncBridge
  outgoing : List (String × PlumTreeMessage)
  handed : List Event
  ingested : List Event

section Bridge

-- `serde_json` on a payload, and the iteration order of the node.
variable (parseEvent : String → Option Event) (order : PeerOrder)

def verifiedGossip (d : GossipDelivery) : Option Event :=
  match d.msg with
  | .gossip messageId payloadJson _ =>
    (parseEvent payloadJson).filter fun event => hexEncode event.id.toList == messageId && d.accepted
  | .iHave _ _ | .graft _ | .prune _ => none

def isGossip : PlumTreeMessage → Bool
  | .gossip _ _ _ => true
  | .iHave _ _ | .graft _ | .prune _ => false

/-- Gossip that does not survive verification: it changes nothing and is not passed on. -/
def refused (d : GossipDelivery) : Bool := isGossip d.msg && (verifiedGossip parseEvent d).isNone

variable (b : GossipSyncBridge)

namespace GossipSyncBridge

def new (selfPubkey : String) : GossipSyncBridge where
  node := .new selfPubkey
  calls := []
  seen := .empty seenGossipCap
  failed := []

def key (event : Event) : String := b.node.selfPeerId ++ ":" ++ hexEncode event.id.toList

def receive (d : GossipDelivery) : GossipSyncBridge :=
  { b with
    node := (b.node.handleIncoming d.now d.fromPeer d.msg).1
    calls := b.calls ++ [.handleIncoming d.now d.fromPeer d.msg] }

def record (handed ingested : List Event) : GossipSyncBridge :=
  { b with failed := b.failed.filter (· ∉ handed) ++ handed.filter (· ∉ ingested) }

def processGossip (d : GossipDelivery) : GossipResult :=
  if refused parseEvent d then ⟨b, [], [], []⟩
  else
    let out := b.node.outgoing order b.calls d.now d.fromPeer d.msg
    let b := b.receive d
    match verifiedGossip parseEvent d with
    | none => ⟨b, out, [], []⟩
    | some event =>
      match b.seen.insert (b.key event) with
      | (seen, true) =>
        let ingested := if d.persists then [event] else []
        -- The key stays in the set also when ingest has failed.
        ⟨{ b with seen }.record [event] ingested, out, [event], ingested⟩
      | (seen, false) => ⟨{ b with seen }, out, [], []⟩

/-- The loop of a batch: the messages pass through the tree one by one, their events are kept for later. -/
structure GossipLoop where
  bridge : GossipSyncBridge
  outgoing : List (String × PlumTreeMessage)
  verified : List (Event × Bool)

def relay (state : GossipLoop) (d : GossipDelivery) : GossipLoop :=
  if refused parseEvent d then state
  else
    { bridge := state.bridge.receive d
      outgoing := state.outgoing ++
        state.bridge.node.outgoing order state.bridge.calls d.now d.fromPeer d.msg
      verified := state.verified ++ ((verifiedGossip parseEvent d).map fun event => (event, d.persists)).toList }

/-- The events whose key is new to the set, and the set with all of them. -/
def unseen (keyOf : Event → String) (seen : BoundedSet String) (events : List (Event × Bool)) :
    BoundedSet String × List (Event × Bool) :=
  events.foldl (fun (seen, fresh) entry =>
    match seen.insert (keyOf entry.1) with
    | (seen, true) => (seen, fresh ++ [entry])
    | (seen, false) => (seen, fresh)) (seen, [])

/-- `committed` is whether the one transaction of the batch goes through. -/
def processGossipBatch (messages : List GossipDelivery) (committed : Bool) : GossipResult :=
  let state := messages.foldl (relay parseEvent order) ⟨b, [], []⟩
  let (seen, fresh) := unseen b.key state.bridge.seen state.verified
  let b := { state.bridge with seen }
  if fresh.isEmpty then ⟨b, state.outgoing, [], []⟩
  else
    let handed := fresh.map Prod.fst
    let ingested := if committed then (fresh.filter Prod.snd).map Prod.fst else []
    ⟨b.record handed ingested, state.outgoing, handed, ingested⟩

def foldGossip (messages : List GossipDelivery) : GossipResult :=
  messages.foldl (fun done d =>
    let next := done.bridge.processGossip parseEvent order d
    ⟨next.bridge, done.outgoing ++ next.outgoing, done.handed ++ next.handed, done.ingested ++ next.ingested⟩)
    ⟨b, [], [], []⟩

@[simp] theorem key_receive (d : GossipDelivery) : (b.receive d).key = b.key := by
  funext event
  have self := (b.node.handleIncoming_peers d.now d.fromPeer d.msg).1
  simp only [key, receive, self]

theorem unseen_snoc (keyOf : Event → String) (seen : BoundedSet String) (events : List (Event × Bool))
    (entry : Event × Bool) :
    unseen keyOf seen (events ++ [entry]) =
      (((unseen keyOf seen events).1.insert (keyOf entry.1)).1,
        (unseen keyOf seen events).2 ++
          if (unseen keyOf seen events).1.contains (keyOf entry.1) then [] else [entry]) := by
  rw [unseen, List.foldl_append, ← unseen, List.foldl_cons, List.foldl_nil]
  have fresh := (unseen keyOf seen events).1.insert_snd (keyOf entry.1)
  rcases inserted : (unseen keyOf seen events).1.insert (keyOf entry.1) with ⟨after, new⟩
  rw [inserted] at fresh
  cases new with
  | true => simp_all
  | false => simp_all

/-- Where the loop of a batch stands against the same messages handled one by one. -/
structure InStep (b : GossipSyncBridge) (state : GossipLoop) (done : GossipResult) : Prop where
  node : done.bridge.node = state.bridge.node
  calls : done.bridge.calls = state.bridge.calls
  keys : done.bridge.key = b.key
  waiting : state.bridge.seen = b.seen
  seen : done.bridge.seen = (unseen b.key b.seen state.verified).1
  outgoing : done.outgoing = state.outgoing
  handed : done.handed = (unseen b.key b.seen state.verified).2.map Prod.fst
  ingested : done.ingested = ((unseen b.key b.seen state.verified).2.filter Prod.snd).map Prod.fst

theorem InStep.next {b : GossipSyncBridge} {state : GossipLoop} {done : GossipResult} (same : InStep b state done)
    (d : GossipDelivery) :
    InStep b (relay parseEvent order state d)
      ⟨(done.bridge.processGossip parseEvent order d).bridge,
        done.outgoing ++ (done.bridge.processGossip parseEvent order d).outgoing,
        done.handed ++ (done.bridge.processGossip parseEvent order d).handed,
        done.ingested ++ (done.bridge.processGossip parseEvent order d).ingested⟩ := by
  unfold processGossip relay
  -- Both ways drop the same deliveries, and the rest differ only in when they are handed on.
  by_cases drop : refused parseEvent d = true
  · simp only [drop, if_true, List.append_nil]
    exact same
  simp only [drop, Bool.false_eq_true, if_false]
  have keys : (done.bridge.receive d).key = b.key := by rw [key_receive, same.keys]
  have received : (done.bridge.receive d).seen = (unseen b.key b.seen state.verified).1 := same.seen
  have node : (done.bridge.receive d).node = (state.bridge.receive d).node := by simp only [receive, same.node]
  have calls : (done.bridge.receive d).calls = (state.bridge.receive d).calls := by simp only [receive, same.calls]
  have sent : done.outgoing ++ done.bridge.node.outgoing order done.bridge.calls d.now d.fromPeer d.msg =
      state.outgoing ++ state.bridge.node.outgoing order state.bridge.calls d.now d.fromPeer d.msg := by
    rw [same.outgoing, same.node, same.calls]
  cases verifiedGossip parseEvent d with
  | none =>
    simp only [Option.map_none, Option.toList_none, List.append_nil]
    exact ⟨node, calls, keys, same.waiting, received, sent, same.handed, same.ingested⟩
  | some event =>
    simp only [Option.map_some, Option.toList_some]
    have fresh := (unseen b.key b.seen state.verified).1.insert_snd (b.key event)
    have snoc := unseen_snoc b.key b.seen state.verified (event, d.persists)
    rw [keys, received]
    rcases inserted : (unseen b.key b.seen state.verified).1.insert (b.key event) with ⟨after, new⟩
    rw [inserted] at fresh snoc
    cases new with
    | true =>
      have absent : (unseen b.key b.seen state.verified).1.contains (b.key event) = false := by simpa using fresh
      rw [absent, if_neg Bool.false_ne_true] at snoc
      refine ⟨node, calls, keys, same.waiting, ?_, sent, ?_, ?_⟩
      · rw [snoc]
        rfl
      · rw [snoc, List.map_append, ← same.handed]
        rfl
      · rw [snoc, List.filter_append, List.map_append, ← same.ingested]
        cases d.persists <;> rfl
    | false =>
      have present : (unseen b.key b.seen state.verified).1.contains (b.key event) = true := by simpa using fresh
      rw [present, if_pos rfl, List.append_nil] at snoc
      refine ⟨node, calls, keys, same.waiting, ?_, sent, ?_, ?_⟩
      · rw [snoc]
      · rw [snoc]
        exact (List.append_nil _).trans same.handed
      · rw [snoc]
        exact (List.append_nil _).trans same.ingested

theorem inStep_fold (messages : List GossipDelivery) :
    InStep b (messages.foldl (relay parseEvent order) ⟨b, [], []⟩) (b.foldGossip parseEvent order messages) := by
  induction messages using List.reverseRecOn with
  | nil => constructor <;> rfl
  | append_singleton before d ih =>
    rw [foldGossip, List.foldl_append, List.foldl_append]
    exact ih.next parseEvent order d

/-- A batch leaves the state, the messages and the handed events of the fold, and stores the events that the
fold stores when its transaction goes through. -/
theorem processGossipBatch_spec (messages : List GossipDelivery) (committed : Bool) :
    let batch := b.processGossipBatch parseEvent order messages committed
    let single := b.foldGossip parseEvent order messages
    batch.bridge.node = single.bridge.node ∧ batch.outgoing = single.outgoing ∧ batch.handed = single.handed ∧
      batch.bridge.seen = single.bridge.seen ∧
      batch.ingested = if committed then single.ingested else [] := by
  have same := inStep_fold parseEvent order b messages
  simp only [processGossipBatch]
  rw [same.waiting, same.node, same.outgoing, same.handed, same.ingested, same.seen]
  split
  · rename_i nothing
    rw [List.isEmpty_iff] at nothing
    rw [nothing]
    simp
  · exact ⟨rfl, rfl, rfl, rfl, rfl⟩

end GossipSyncBridge

inductive GossipCall where
  | addPeer (peerId : String)
  | removePeer (peerId : String)
  | processGossip (d : GossipDelivery)
  | processGossipBatch (messages : List GossipDelivery) (committed : Bool)
  /-- Another bridge of the process records an event it has seen. -/
  | elsewhere (account : String) (event : Event)

namespace GossipSyncBridge

def call : GossipCall → GossipResult
  | .addPeer peerId =>
    ⟨{ b with node := b.node.addPeer peerId, calls := b.calls ++ [.addPeer peerId] }, [], [], []⟩
  | .removePeer peerId =>
    ⟨{ b with node := b.node.removePeer peerId, calls := b.calls ++ [.removePeer peerId] }, [], [], []⟩
  | .processGossip d => b.processGossip parseEvent order d
  | .processGossipBatch messages committed => b.processGossipBatch parseEvent order messages committed
  | .elsewhere account event =>
    ⟨{ b with seen := (b.seen.insert (account ++ ":" ++ hexEncode event.id.toList)).1 }, [], [], []⟩

def step (c : GossipCall) : GossipSyncBridge := (b.call parseEvent order c).bridge

def messagesOf : GossipCall → List GossipDelivery
  | .addPeer _ | .removePeer _ | .elsewhere _ _ => []
  | .processGossip d => [d]
  | .processGossipBatch messages _ => messages

def eventsOf (c : GossipCall) : List Event := (messagesOf c).filterMap (verifiedGossip parseEvent)

def MatchesFold : GossipCall → Prop
  | .processGossipBatch messages committed =>
    let batch := b.processGossipBatch parseEvent order messages committed
    let single := b.foldGossip parseEvent order messages
    batch.bridge.node = single.bridge.node ∧ batch.outgoing = single.outgoing ∧
      ∀ event, event ∈ batch.ingested ↔ event ∈ single.ingested
  | _ => True

/-- An event whose ingest failed is handed to ingest again when it is delivered again. -/
def Retries (c : GossipCall) : Prop :=
  ∀ event ∈ b.failed, event ∈ eventsOf parseEvent c → event ∈ (b.call parseEvent order c).handed

def seenAfter (events : List Event) : BoundedSet String :=
  events.foldl (fun seen event => (seen.insert (b.key event)).1) b.seen

/-- A message brings the event at a moment when its key is not among the seen ones. -/
def NewAt (messages : List GossipDelivery) (d : GossipDelivery) (event : Event) : Prop :=
  ∃ before after, messages = before ++ d :: after ∧ verifiedGossip parseEvent d = some event ∧
    (b.seenAfter (before.filterMap (verifiedGossip parseEvent))).contains (b.key event) = false

/-- The transaction of a batch goes through, or none of the events that are new to it would be stored. -/
def Stores : GossipCall → Prop
  | .processGossipBatch messages committed =>
    committed = true ∨ ∀ d event, b.NewAt parseEvent messages d event → d.persists = false
  | _ => True

/-- The keys of failed events are forgotten before the events come again. -/
def Forgets (c : GossipCall) : Prop :=
  ∀ event ∈ b.failed, event ∈ eventsOf parseEvent c → ∃ d, b.NewAt parseEvent (messagesOf c) d event

section

variable (b : GossipSyncBridge)

theorem processGossip_spec (d : GossipDelivery) :
    let next := b.processGossip parseEvent order d
    next.bridge.key = b.key ∧
      next.bridge.seen = (verifiedGossip parseEvent d).elim b.seen (fun event => (b.seen.insert (b.key event)).1) ∧
      next.handed = (verifiedGossip parseEvent d).toList.filter (fun event => !b.seen.contains (b.key event)) ∧
      next.ingested = if d.persists then next.handed else [] := by
  simp only [processGossip]
  by_cases drop : refused parseEvent d = true
  · have none : verifiedGossip parseEvent d = none := by
      simp only [refused, Bool.and_eq_true, Option.isNone_iff_eq_none] at drop
      exact drop.2
    simp [drop, none]
  simp only [drop, Bool.false_eq_true, if_false]
  have same : (b.receive d).seen = b.seen := rfl
  cases verifiedGossip parseEvent d with
  | none => simp [same]
  | some event =>
    have fresh := b.seen.insert_snd (b.key event)
    simp only [key_receive, same]
    rcases inserted : b.seen.insert (b.key event) with ⟨after, new⟩
    rw [inserted] at fresh
    have keys : ∀ seen failed, (⟨(b.receive d).node, (b.receive d).calls, seen, failed⟩ : GossipSyncBridge).key =
        b.key := fun _ _ => key_receive b d
    cases new with
    | true =>
      have absent : b.seen.contains (b.key event) = false := by simpa using fresh
      cases d.persists <;> simp [record, absent, keys, inserted]
    | false =>
      have present : b.seen.contains (b.key event) = true := by simpa using fresh
      cases d.persists <;> simp [present, keys, inserted]

theorem foldGossip_snoc (messages : List GossipDelivery) (d : GossipDelivery) :
    let done := b.foldGossip parseEvent order messages
    let next := done.bridge.processGossip parseEvent order d
    b.foldGossip parseEvent order (messages ++ [d]) =
      ⟨next.bridge, done.outgoing ++ next.outgoing, done.handed ++ next.handed, done.ingested ++ next.ingested⟩ := by
  simp only [foldGossip, List.foldl_append, List.foldl_cons, List.foldl_nil]

theorem foldGossip_seen (messages : List GossipDelivery) :
    (b.foldGossip parseEvent order messages).bridge.key = b.key ∧
      (b.foldGossip parseEvent order messages).bridge.seen =
        b.seenAfter (messages.filterMap (verifiedGossip parseEvent)) := by
  induction messages using List.reverseRecOn with
  | nil => exact ⟨rfl, rfl⟩
  | append_singleton before d ih =>
    obtain ⟨keys, seen, -⟩ := processGossip_spec parseEvent order (b.foldGossip parseEvent order before).bridge d
    rw [foldGossip_snoc]
    refine ⟨keys.trans ih.1, seen.trans ?_⟩
    rw [ih.1, ih.2, List.filterMap_append, seenAfter, seenAfter, List.foldl_append]
    cases found : verifiedGossip parseEvent d with
    | none => simp [found]
    | some event => simp [found]

theorem mem_foldGossip {pick : GossipResult → List Event} {Counts : GossipDelivery → Prop}
    (start : pick (b.foldGossip parseEvent order []) = [])
    (next : ∀ messages d, pick (b.foldGossip parseEvent order (messages ++ [d])) =
      pick (b.foldGossip parseEvent order messages) ++
        pick ((b.foldGossip parseEvent order messages).bridge.processGossip parseEvent order d))
    (one : ∀ (b : GossipSyncBridge) d event, event ∈ pick (b.processGossip parseEvent order d) ↔
      verifiedGossip parseEvent d = some event ∧ b.seen.contains (b.key event) = false ∧ Counts d)
    (messages : List GossipDelivery) (event : Event) :
    event ∈ pick (b.foldGossip parseEvent order messages) ↔
      ∃ d, b.NewAt parseEvent messages d event ∧ Counts d := by
  induction messages using List.reverseRecOn with
  | nil => simp [start, NewAt]
  | append_singleton earlier last ih =>
    obtain ⟨keys, seen⟩ := foldGossip_seen parseEvent order b earlier
    rw [next, List.mem_append, ih, one, keys, seen]
    constructor
    · rintro (⟨d, ⟨before, after, rfl, found, fresh⟩, counts⟩ | ⟨found, fresh, counts⟩)
      · exact ⟨d, ⟨before, after ++ [last], by simp, found, fresh⟩, counts⟩
      · exact ⟨last, ⟨earlier, [], rfl, found, fresh⟩, counts⟩
    · rintro ⟨d, ⟨before, after, split, found, fresh⟩, counts⟩
      rcases List.eq_nil_or_concat after with rfl | ⟨rest, final, rfl⟩
      · obtain ⟨rfl, same⟩ := List.append_inj' split rfl
        obtain rfl := List.singleton_inj.mp same
        exact .inr ⟨found, fresh, counts⟩
      · rw [List.concat_eq_append, ← List.cons_append, ← List.append_assoc] at split
        obtain ⟨rfl, -⟩ := List.append_inj' split rfl
        exact .inl ⟨d, ⟨before, rest, rfl, found, fresh⟩, counts⟩

theorem mem_handed_one (d : GossipDelivery) (event : Event) :
    event ∈ (b.processGossip parseEvent order d).handed ↔
      verifiedGossip parseEvent d = some event ∧ b.seen.contains (b.key event) = false := by
  obtain ⟨-, -, handed, -⟩ := processGossip_spec parseEvent order b d
  simp [handed]

theorem mem_handed_iff (messages : List GossipDelivery) (event : Event) :
    event ∈ (b.foldGossip parseEvent order messages).handed ↔ ∃ d, b.NewAt parseEvent messages d event := by
  have collected := @mem_foldGossip parseEvent order b GossipResult.handed (fun _ => True) rfl
    (fun messages d => by rw [foldGossip_snoc]) (fun b d event => by simp [mem_handed_one]) messages event
  simpa using collected

theorem mem_ingested_iff (messages : List GossipDelivery) (event : Event) :
    event ∈ (b.foldGossip parseEvent order messages).ingested ↔
      ∃ d, b.NewAt parseEvent messages d event ∧ d.persists = true := by
  refine @mem_foldGossip parseEvent order b GossipResult.ingested (fun d => d.persists = true) rfl
    (fun messages d => by rw [foldGossip_snoc]) (fun b d event => ?_) messages event
  obtain ⟨-, -, -, ingested⟩ := processGossip_spec parseEvent order b d
  rw [ingested]
  cases d.persists with
  | true => simp [mem_handed_one]
  | false => simp

theorem matchesFold_iff (c : GossipCall) : b.MatchesFold parseEvent order c ↔ b.Stores parseEvent c := by
  cases c with
  | processGossipBatch messages committed =>
    obtain ⟨node, outgoing, -, -, ingested⟩ := processGossipBatch_spec parseEvent order b messages committed
    simp only [MatchesFold, Stores, node, outgoing, ingested, true_and]
    cases committed with
    | true => simp
    | false =>
      simp only [Bool.false_eq_true, if_false, List.not_mem_nil, false_iff, mem_ingested_iff, false_or]
      constructor
      · intro nothing d event new
        by_contra persists
        exact nothing event ⟨d, new, by simpa using persists⟩
      · rintro nothing event ⟨d, new, persists⟩
        exact absurd (nothing d event new) (by simp [persists])
  | addPeer peerId => simp [MatchesFold, Stores]
  | removePeer peerId => simp [MatchesFold, Stores]
  | processGossip d => simp [MatchesFold, Stores]
  | elsewhere account event => simp [MatchesFold, Stores]

theorem mem_handed_call_iff (c : GossipCall) (event : Event) :
    event ∈ (b.call parseEvent order c).handed ↔ ∃ d, b.NewAt parseEvent (messagesOf c) d event := by
  cases c with
  | processGossipBatch messages committed =>
    obtain ⟨-, -, handed, -⟩ := processGossipBatch_spec parseEvent order b messages committed
    rw [call, handed, mem_handed_iff]
    rfl
  | processGossip d =>
    have single := mem_handed_iff parseEvent order b [d] event
    exact single
  | addPeer peerId => simp [call, NewAt, messagesOf]
  | removePeer peerId => simp [call, NewAt, messagesOf]
  | elsewhere account event => simp [call, NewAt, messagesOf]

theorem retries_iff (c : GossipCall) : b.Retries parseEvent order c ↔ b.Forgets parseEvent c := by
  simp only [Retries, Forgets, mem_handed_call_iff]

end

theorem failure_is_remembered {b : GossipSyncBridge} {d : GossipDelivery} {event : Event}
    (found : verifiedGossip parseEvent d = some event) (fresh : b.seen.contains (b.key event) = false)
    (fails : d.persists = false) (room : 0 < b.seen.capacity) :
    event ∈ (b.processGossip parseEvent order d).bridge.failed ∧
      (b.processGossip parseEvent order d).bridge.seen.contains (b.key event) = true := by
  obtain ⟨-, seen, -⟩ := processGossip_spec parseEvent order b d
  refine ⟨?_, ?_⟩
  · have new := b.seen.insert_snd (b.key event)
    have kept : refused parseEvent d = false := by simp [refused, found]
    have same : (b.receive d).seen = b.seen := rfl
    simp only [processGossip, kept, Bool.false_eq_true, if_false, found, key_receive, same, fails]
    rcases inserted : b.seen.insert (b.key event) with ⟨after, added⟩
    rw [inserted, fresh] at new
    obtain rfl : added = true := new
    simp [record]
  · rw [seen, found, Option.elim_some]
    exact b.seen.contains_insert_self (b.key event) room

end GossipSyncBridge

end Bridge

namespace GossipSyncBridge

def byName : PeerOrder where
  eager _ peers := peers.sort
  lazy _ peers := peers.sort
  eager_lists _ peers := peers.sort_eq (· ≤ ·)
  lazy_lists _ peers := peers.sort_eq (· ≤ ·)

def gossipedNote (fromPeer : String) : GossipDelivery where
  fromPeer := fromPeer
  msg := .gossip (hexEncode Nostr.note.id.toList) "note" 0
  now := 0
  accepted := true
  persists := false

end GossipSyncBridge

end Soshal.Sync
