import Mathlib.Data.Finset.Card
import Mathlib.Data.Finset.Image
import Soshal.Library.Bounded
import Soshal.Library.Runs
import Soshal.Library.Table
import Soshal.Library.Text

/-! The epidemic broadcast tree of one node: membership and message handling.

Peers are eager (they are sent payloads) or lazy (they are sent announcements).
A node keeps them in two hash sets, whose iteration order is unspecified, so what
a call sends is a finite set of addressed messages. The clock is passed in.
-/

set_option autoImplicit false

namespace Soshal.Network

open Library
open Library.Text (byteLen isAsciiHexdigit)

def maxReceivedMessages : Nat := 10000
def maxPendingGrafts : Nat := 4096
def eagerPeerCap : Nat := 64
def lazyPeerCap : Nat := 256
def graftWindow : Nat := 1000
def graftCreditsPerWindow : Nat := 16

inductive PlumTreeMessage where
  | gossip (messageId payloadJson : String) (round : Nat)
  | iHave (messageId : String) (round : Nat)
  | graft (messageId : String)
  | prune (messageId : String)
  deriving DecidableEq

structure PlumTreeNode where
  selfPeerId : String
  eagerPeers : Finset String
  lazyPeers : Finset String
  receivedMessages : BoundedSet String
  pendingGrafts : BoundedMap String String
  payloadCache : BoundedMap String String
  /-- Start of the peer's window in milliseconds, and the credits left in it. -/
  graftWindows : Table String (Nat × Nat)

def PlumTreeNode.new (selfPeerId : String) : PlumTreeNode where
  selfPeerId := selfPeerId
  eagerPeers := ∅
  lazyPeers := ∅
  receivedMessages := .empty maxReceivedMessages
  pendingGrafts := .empty maxPendingGrafts
  payloadCache := .empty maxReceivedMessages
  graftWindows := .empty

def isPlausibleEventId (id : String) : Bool :=
  byteLen id == 64 && id.toList.all isAsciiHexdigit

def saturatingSucc (round : Nat) : Nat := min (round + 1) (2 ^ 32 - 1)

variable (node : PlumTreeNode) (now : Nat) (fromPeer : String) (msg : PlumTreeMessage)

namespace PlumTreeNode

def addPeer (peerId : String) : PlumTreeNode :=
  if peerId = node.selfPeerId then node
  -- Whether the peer is already linked the other way is not looked at.
  else if node.eagerPeers.card < eagerPeerCap then { node with eagerPeers := insert peerId node.eagerPeers }
  else if node.lazyPeers.card < lazyPeerCap then { node with lazyPeers := insert peerId node.lazyPeers }
  else node

def removePeer (peerId : String) : PlumTreeNode :=
  { node with eagerPeers := node.eagerPeers.erase peerId, lazyPeers := node.lazyPeers.erase peerId }

def consumeGraftCredit (peer : String) : PlumTreeNode × Bool :=
  let entry := (node.graftWindows.find? peer).getD (now, graftCreditsPerWindow)
  let entry := if now - entry.1 ≥ graftWindow then (now, graftCreditsPerWindow) else entry
  let left := if entry.2 = 0 then entry else (entry.1, entry.2 - 1)
  ({ node with graftWindows := node.graftWindows.upsert peer left fun _ => left }, entry.2 != 0)

def demote (peer : String) : PlumTreeNode :=
  { node with eagerPeers := node.eagerPeers.erase peer, lazyPeers := insert peer node.lazyPeers }

/-- The fan-out of a new payload: the payload to eager peers, its id to lazy ones, never back to the sender. -/
def forward (fromPeer messageId payloadJson : String) (round : Nat) : Finset (String × PlumTreeMessage) :=
  (node.eagerPeers.erase fromPeer).image (fun peer => (peer, .gossip messageId payloadJson (saturatingSucc round))) ∪
    (node.lazyPeers.erase fromPeer).image (fun peer => (peer, .iHave messageId (saturatingSucc round)))

def handleIncoming : PlumTreeNode × Finset (String × PlumTreeMessage) :=
  match msg with
  | .gossip messageId payloadJson round =>
    if node.receivedMessages.contains messageId then
      (node.demote fromPeer, {(fromPeer, .prune messageId)})
    else
      ({ node with
          receivedMessages := (node.receivedMessages.insert messageId).1
          pendingGrafts := node.pendingGrafts.remove messageId
          payloadCache := node.payloadCache.insert messageId payloadJson },
        node.forward fromPeer messageId payloadJson round)
  | .iHave messageId _ =>
    if !isPlausibleEventId messageId then (node, ∅)
    else
      -- A credit is spent also on an announcement that leads to nothing.
      let (node, granted) := node.consumeGraftCredit now fromPeer
      if !granted then (node, ∅)
      else if !node.receivedMessages.contains messageId && !node.pendingGrafts.containsKey messageId then
        ({ node with pendingGrafts := node.pendingGrafts.insert messageId fromPeer },
          {(fromPeer, .graft messageId)})
      else (node, ∅)
  | .graft messageId =>
    -- Only a peer that is already a lazy member is promoted.
    let node :=
      if fromPeer ∈ node.lazyPeers ∧ node.eagerPeers.card < eagerPeerCap then
        { node with lazyPeers := node.lazyPeers.erase fromPeer, eagerPeers := insert fromPeer node.eagerPeers }
      else node
    match node.payloadCache.get messageId with
    | some payload => (node, {(fromPeer, .gossip messageId payload 0)})
    | none => (node, ∅)
  -- The sender need not have been a peer before.
  | .prune _ => (node.demote fromPeer, ∅)

end PlumTreeNode

inductive PlumTreeCall where
  | addPeer (peerId : String)
  | removePeer (peerId : String)
  | handleIncoming (now : Nat) (fromPeer : String) (msg : PlumTreeMessage)

namespace PlumTreeNode

def step : PlumTreeCall → PlumTreeNode
  | .addPeer peerId => node.addPeer peerId
  | .removePeer peerId => node.removePeer peerId
  | .handleIncoming now fromPeer msg => (node.handleIncoming now fromPeer msg).1

def Demotes : PlumTreeMessage → Prop
  | .gossip messageId _ _ => node.receivedMessages.contains messageId = true
  | .prune _ => True
  | .iHave _ _ | .graft _ => False

theorem handleIncoming_peers : let after := (node.handleIncoming now fromPeer msg).1
    after.selfPeerId = node.selfPeerId ∧
      ((node.Demotes msg ∧ after.eagerPeers = node.eagerPeers.erase fromPeer ∧
          after.lazyPeers = insert fromPeer node.lazyPeers) ∨
        (¬ node.Demotes msg ∧ after.eagerPeers = node.eagerPeers ∧ after.lazyPeers = node.lazyPeers) ∨
        (¬ node.Demotes msg ∧ fromPeer ∈ node.lazyPeers ∧ node.eagerPeers.card < eagerPeerCap ∧
          after.eagerPeers = insert fromPeer node.eagerPeers ∧ after.lazyPeers = node.lazyPeers.erase fromPeer)) := by
  cases msg with
  | gossip messageId payloadJson round =>
    by_cases seen : node.receivedMessages.contains messageId = true
    · simp [handleIncoming, Demotes, demote, seen]
    · simp [handleIncoming, Demotes, seen]
  | iHave messageId round =>
    simp only [handleIncoming, Demotes, not_false_eq_true, true_and, false_and, false_or]
    split
    · simp
    · split
      · simp [consumeGraftCredit]
      · split <;> simp [consumeGraftCredit]
  | graft messageId =>
    by_cases promoted : fromPeer ∈ node.lazyPeers ∧ node.eagerPeers.card < eagerPeerCap
    · simp only [handleIncoming, if_pos promoted, Demotes]
      split <;> simp [promoted]
    · simp only [handleIncoming, if_neg promoted, Demotes]
      split <;> simp
  | prune messageId => simp [handleIncoming, Demotes, demote]

structure WellFormed (node : PlumTreeNode) : Prop where
  disjoint : Disjoint node.eagerPeers node.lazyPeers
  self_not_eager : node.selfPeerId ∉ node.eagerPeers
  self_not_lazy : node.selfPeerId ∉ node.lazyPeers
  eager_cap : node.eagerPeers.card ≤ eagerPeerCap
  lazy_cap : node.lazyPeers.card ≤ lazyPeerCap

/-- What a call must respect: a peer is added only where it is not already linked the other way,
and a demoted sender is another peer for which there is room among the lazy ones. -/
def Respects : PlumTreeCall → Prop
  | .addPeer peerId => peerId ≠ node.selfPeerId →
      (node.eagerPeers.card < eagerPeerCap → peerId ∉ node.lazyPeers) ∧
        (eagerPeerCap ≤ node.eagerPeers.card → node.lazyPeers.card < lazyPeerCap → peerId ∉ node.eagerPeers)
  | .removePeer _ => True
  | .handleIncoming _ fromPeer msg => node.Demotes msg →
      fromPeer ≠ node.selfPeerId ∧ (fromPeer ∈ node.lazyPeers ∨ node.lazyPeers.card < lazyPeerCap)

theorem wellFormed_new (selfPeerId : String) : (new selfPeerId).WellFormed := by
  constructor <;> simp [new]

theorem card_insert_le_iff {peers : Finset String} {peer : String} {cap : Nat} (within : peers.card ≤ cap) :
    (insert peer peers).card ≤ cap ↔ peer ∈ peers ∨ peers.card < cap := by
  by_cases member : peer ∈ peers
  · simp [member, within]
  · rw [Finset.card_insert_of_notMem member]
    simp only [member, false_or]
    omega

theorem addPeer_wellFormed_iff {node : PlumTreeNode} (good : node.WellFormed) (peerId : String) :
    (node.addPeer peerId).WellFormed ↔ node.Respects (.addPeer peerId) := by
  obtain ⟨disjoint, selfEager, selfLazy, eagerCap, lazyCap⟩ := good
  unfold addPeer Respects
  by_cases self : peerId = node.selfPeerId
  · simp only [self, ne_eq, not_true_eq_false, false_implies, iff_true]
    exact ⟨disjoint, selfEager, selfLazy, eagerCap, lazyCap⟩
  have other : node.selfPeerId ≠ peerId := fun same => self same.symm
  rw [if_neg self]
  by_cases room : node.eagerPeers.card < eagerPeerCap
  · simp only [ne_eq, self, not_false_eq_true, room, true_implies, Nat.not_le.mpr room, false_implies, and_true]
    constructor
    · intro after member
      exact Finset.disjoint_left.mp after.disjoint (Finset.mem_insert_self _ _) member
    · intro fresh
      refine ⟨Finset.disjoint_insert_left.mpr ⟨fresh, disjoint⟩, ?_, selfLazy, ?_, lazyCap⟩
      · simp [other, selfEager]
      · exact (card_insert_le_iff eagerCap).mpr (.inr room)
  · rw [if_neg room]
    by_cases space : node.lazyPeers.card < lazyPeerCap
    · simp only [ne_eq, self, not_false_eq_true, room, true_implies, false_implies, true_and, Nat.not_lt.mp room,
        space]
      constructor
      · intro after member
        exact Finset.disjoint_left.mp after.disjoint member (Finset.mem_insert_self _ _)
      · intro fresh
        refine ⟨Finset.disjoint_insert_right.mpr ⟨fresh, disjoint⟩, selfEager, ?_, eagerCap, ?_⟩
        · simp [other, selfLazy]
        · exact (card_insert_le_iff lazyCap).mpr (.inr space)
    · simp only [space, false_implies, implies_true, room, and_self, iff_true]
      exact ⟨disjoint, selfEager, selfLazy, eagerCap, lazyCap⟩

theorem removePeer_wellFormed {node : PlumTreeNode} (good : node.WellFormed) (peerId : String) :
    (node.removePeer peerId).WellFormed where
  disjoint := (good.disjoint.mono_left (Finset.erase_subset _ _)).mono_right (Finset.erase_subset _ _)
  self_not_eager := fun member => good.self_not_eager (Finset.mem_of_mem_erase member)
  self_not_lazy := fun member => good.self_not_lazy (Finset.mem_of_mem_erase member)
  eager_cap := (Finset.card_erase_le).trans good.eager_cap
  lazy_cap := (Finset.card_erase_le).trans good.lazy_cap

theorem handleIncoming_wellFormed_iff {node : PlumTreeNode} (good : node.WellFormed) (now : Nat) (fromPeer : String)
    (msg : PlumTreeMessage) : (node.handleIncoming now fromPeer msg).1.WellFormed ↔
      node.Respects (.handleIncoming now fromPeer msg) := by
  obtain ⟨disjoint, selfEager, selfLazy, eagerCap, lazyCap⟩ := good
  obtain ⟨self, demoted | kept | promoted⟩ := node.handleIncoming_peers now fromPeer msg
  · obtain ⟨demotes, eager, lazy⟩ := demoted
    simp only [Respects, demotes, true_implies]
    constructor
    · intro after
      have notSelf := after.self_not_lazy
      have cap := after.lazy_cap
      rw [lazy, self] at notSelf
      rw [lazy] at cap
      refine ⟨?_, (card_insert_le_iff lazyCap).mp cap⟩
      rintro rfl
      exact notSelf (Finset.mem_insert_self _ _)
    · rintro ⟨notSelf, room⟩
      constructor
      · rw [eager, lazy, Finset.disjoint_insert_right]
        exact ⟨by simp, disjoint.mono_left (Finset.erase_subset _ _)⟩
      · rw [eager, self]
        exact fun member => selfEager (Finset.mem_of_mem_erase member)
      · rw [lazy, self]
        simp [Ne.symm notSelf, selfLazy]
      · rw [eager]
        exact Finset.card_erase_le.trans eagerCap
      · rw [lazy]
        exact (card_insert_le_iff lazyCap).mpr room
  · obtain ⟨stays, eager, lazy⟩ := kept
    simp only [Respects, stays, false_implies, iff_true]
    exact ⟨by rw [eager, lazy]; exact disjoint, by rw [eager, self]; exact selfEager,
      by rw [lazy, self]; exact selfLazy, by rw [eager]; exact eagerCap, by rw [lazy]; exact lazyCap⟩
  · -- A promoted sender was lazy, so it is not the node itself and was not eager.
    obtain ⟨stays, member, room, eager, lazy⟩ := promoted
    simp only [Respects, stays, false_implies, iff_true]
    have notSelf : node.selfPeerId ≠ fromPeer := fun same => selfLazy (same ▸ member)
    constructor
    · rw [eager, lazy, Finset.disjoint_insert_left]
      exact ⟨by simp, disjoint.mono_right (Finset.erase_subset _ _)⟩
    · rw [eager, self]
      simp [notSelf, selfEager]
    · rw [lazy, self]
      exact fun inside => selfLazy (Finset.mem_of_mem_erase inside)
    · rw [eager]
      exact (card_insert_le_iff eagerCap).mpr (.inr room)
    · rw [lazy]
      exact Finset.card_erase_le.trans lazyCap

theorem step_wellFormed_iff (call : PlumTreeCall) (good : node.WellFormed) :
    (node.step call).WellFormed ↔ node.Respects call := by
  cases call with
  | addPeer peerId => exact addPeer_wellFormed_iff good peerId
  | removePeer peerId => simp [step, Respects, removePeer_wellFormed good]
  | handleIncoming now fromPeer msg => exact handleIncoming_wellFormed_iff good now fromPeer msg

/-- A run keeps the sets disjoint, bounded and free of the node itself exactly when all its calls respect them. -/
theorem always_wellFormed_iff (selfPeerId : String) (calls : List PlumTreeCall) :
    Runs.Always step WellFormed (new selfPeerId) calls ↔ Runs.Throughout step Respects (new selfPeerId) calls :=
  Runs.always_iff_throughout step_wellFormed_iff (wellFormed_new selfPeerId)

/-- A peer that the node has just accepted as lazy and that is added again ends up in both sets. -/
theorem readded_peer_is_eager_and_lazy :
    ¬ Runs.Always step WellFormed (new "self") [.addPeer "a", .handleIncoming 0 "a" (.prune "m"), .addPeer "a"] := by
  intro always
  have both := always.last.disjoint
  exact absurd both (by decide)

def sent : PlumTreeCall → Finset (String × PlumTreeMessage)
  | .addPeer _ | .removePeer _ => ∅
  | .handleIncoming now fromPeer msg => (node.handleIncoming now fromPeer msg).2

def sender : PlumTreeCall → Option String
  | .addPeer _ | .removePeer _ => none
  | .handleIncoming _ fromPeer _ => some fromPeer

theorem sent_to_member_or_reply {node : PlumTreeNode} {call : PlumTreeCall} {target : String} {msg : PlumTreeMessage}
    (out : (target, msg) ∈ node.sent call) :
    target ∈ node.eagerPeers ∪ node.lazyPeers ∨ sender call = some target ∧ ∀ id round, msg ≠ .iHave id round := by
  cases call with
  | addPeer peerId => simp [sent] at out
  | removePeer peerId => simp [sent] at out
  | handleIncoming now fromPeer received =>
    simp only [sent] at out
    cases received with
    | gossip messageId payloadJson round =>
      simp only [handleIncoming] at out
      split at out
      · right
        simp only [Finset.mem_singleton, Prod.mk.injEq] at out
        obtain ⟨rfl, rfl⟩ := out
        exact ⟨rfl, by simp⟩
      · left
        simp only [forward, Finset.mem_union, Finset.mem_image, Finset.mem_erase, Prod.mk.injEq] at out
        obtain ⟨peer, ⟨-, member⟩, rfl, -⟩ | ⟨peer, ⟨-, member⟩, rfl, -⟩ := out
        · exact Finset.mem_union_left _ member
        · exact Finset.mem_union_right _ member
    | iHave messageId round =>
      right
      simp only [handleIncoming] at out
      split at out
      · simp at out
      · split at out
        · simp at out
        · split at out
          · simp only [Finset.mem_singleton, Prod.mk.injEq] at out
            obtain ⟨rfl, rfl⟩ := out
            exact ⟨rfl, by simp⟩
          · simp at out
    | graft messageId =>
      right
      simp only [handleIncoming] at out
      split at out <;> split at out
      all_goals simp only [Finset.mem_singleton, Prod.mk.injEq, Finset.notMem_empty] at out
      all_goals
        obtain ⟨rfl, rfl⟩ := out
        exact ⟨rfl, by simp⟩
    | prune messageId => simp [handleIncoming] at out

end PlumTreeNode

/-- A node and the peers that were added to it and not removed since. -/
structure Membership where
  node : PlumTreeNode
  admitted : Finset String

namespace Membership

def new (selfPeerId : String) : Membership := ⟨.new selfPeerId, ∅⟩

def step (m : Membership) (call : PlumTreeCall) : Membership where
  node := m.node.step call
  admitted := match call with
    | .addPeer peerId => insert peerId m.admitted
    | .removePeer peerId => m.admitted.erase peerId
    | .handleIncoming _ _ _ => m.admitted

def Closed (m : Membership) : Prop := m.node.eagerPeers ∪ m.node.lazyPeers ⊆ m.admitted

/-- A peer that is not admitted is sent nothing but the reply to its own message. -/
def Withholds (m : Membership) (call : PlumTreeCall) : Prop :=
  ∀ target msg, (target, msg) ∈ m.node.sent call → target ∉ m.admitted →
    PlumTreeNode.sender call = some target ∧ ∀ id round, msg ≠ .iHave id round

def DemotesAdmitted (m : Membership) : PlumTreeCall → Prop
  | .addPeer _ | .removePeer _ => True
  | .handleIncoming _ fromPeer msg => m.node.Demotes msg → fromPeer ∈ m.admitted

theorem closed_new (selfPeerId : String) : (new selfPeerId).Closed := by simp [Closed, new, PlumTreeNode.new]

theorem closed_withholds {m : Membership} (closed : m.Closed) (call : PlumTreeCall) : m.Withholds call := by
  intro target msg out stranger
  obtain member | reply := PlumTreeNode.sent_to_member_or_reply out
  · exact absurd (closed member) stranger
  · exact reply

theorem step_closed_iff (m : Membership) (call : PlumTreeCall) (closed : m.Closed) :
    (m.step call).Closed ↔ m.DemotesAdmitted call := by
  have eager : m.node.eagerPeers ⊆ m.admitted := Finset.subset_union_left.trans closed
  have lazy : m.node.lazyPeers ⊆ m.admitted := Finset.subset_union_right.trans closed
  cases call with
  | addPeer peerId =>
    have grown : m.admitted ⊆ insert peerId m.admitted := Finset.subset_insert _ _
    simp only [DemotesAdmitted, iff_true, Closed, step, PlumTreeNode.step, PlumTreeNode.addPeer]
    split
    · exact closed.trans grown
    · split
      · exact Finset.union_subset (Finset.insert_subset_insert _ eager) (lazy.trans grown)
      · split
        · exact Finset.union_subset (eager.trans grown) (Finset.insert_subset_insert _ lazy)
        · exact closed.trans grown
  | removePeer peerId =>
    simp only [DemotesAdmitted, iff_true, Closed, step, PlumTreeNode.step, PlumTreeNode.removePeer]
    exact Finset.union_subset (Finset.erase_subset_erase _ eager) (Finset.erase_subset_erase _ lazy)
  | handleIncoming now fromPeer msg =>
    obtain ⟨-, demoted | kept | promoted⟩ := m.node.handleIncoming_peers now fromPeer msg
    · obtain ⟨demotes, eager', lazy'⟩ := demoted
      simp only [Closed, step, PlumTreeNode.step, eager', lazy', DemotesAdmitted, demotes, true_implies]
      constructor
      · intro inside
        exact inside (Finset.mem_union_right _ (Finset.mem_insert_self _ _))
      · intro admitted
        exact Finset.union_subset ((Finset.erase_subset _ _).trans eager) (Finset.insert_subset admitted lazy)
    · obtain ⟨stays, eager', lazy'⟩ := kept
      simp only [Closed, step, PlumTreeNode.step, eager', lazy', DemotesAdmitted, stays, false_implies, iff_true]
      exact closed
    · obtain ⟨stays, member, -, eager', lazy'⟩ := promoted
      simp only [Closed, step, PlumTreeNode.step, eager', lazy', DemotesAdmitted, stays, false_implies, iff_true]
      exact Finset.union_subset (Finset.insert_subset (lazy member) eager) ((Finset.erase_subset _ _).trans lazy)

/-- Peers that were never added, or were removed, stay out of both sets and out of the fan-out exactly in
the runs whose prunes and repeated payloads all come from admitted peers. -/
theorem only_admitted_linked_iff (selfPeerId : String) (calls : List PlumTreeCall) :
    Runs.Always step Closed (new selfPeerId) calls ∧ Runs.Throughout step Withholds (new selfPeerId) calls ↔
      Runs.Throughout step DemotesAdmitted (new selfPeerId) calls := by
  constructor
  · intro holds
    exact (Runs.always_iff_throughout step_closed_iff (closed_new selfPeerId)).mp holds.1
  · intro admitted
    have always := (Runs.always_iff_throughout step_closed_iff (closed_new selfPeerId)).mpr admitted
    refine ⟨always, Runs.throughout_iff.mpr ?_⟩
    intro done call rest split
    exact closed_withholds (Runs.always_iff.mp always done (call :: rest) split) call

/-- A stranger's prune makes it a lazy peer, and its graft then an eager one. -/
theorem stranger_joins_by_prune_and_graft :
    ¬ (Runs.Always step Closed (new "self")
          [.handleIncoming 0 "x" (.prune "m"), .handleIncoming 0 "x" (.graft "m")] ∧
        Runs.Throughout step Withholds (new "self")
          [.handleIncoming 0 "x" (.prune "m"), .handleIncoming 0 "x" (.graft "m")]) := by
  rintro ⟨always, -⟩
  have closed : Closed _ := always.last
  exact absurd closed (by unfold Closed; decide)

end Membership

end Soshal.Network
