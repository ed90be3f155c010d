import Soshal.Network.Plumtree

/-! Outstanding grafts and the membership they rely on.

A graft is registered against the peer that announced the message, and while it
stands no other announcement of that message is answered. Removing a peer leaves
the grafts registered against it, so they stand until they are evicted or the
payload arrives by itself.
-/

set_option autoImplicit false

namespace Soshal.Network

open Library

namespace PlumTreeNode

variable (node : PlumTreeNode) (now : Nat) (peer : String)

def members : Finset String := node.eagerPeers ∪ node.lazyPeers

def Registers (fromPeer messageId : String) : Prop :=
  isPlausibleEventId messageId = true ∧ (node.consumeGraftCredit now fromPeer).2 = true ∧
    node.receivedMessages.contains messageId = false ∧ node.pendingGrafts.containsKey messageId = false

@[simp] theorem consumeGraftCredit_receivedMessages :
    (node.consumeGraftCredit now peer).1.receivedMessages = node.receivedMessages := rfl

@[simp] theorem consumeGraftCredit_pendingGrafts :
    (node.consumeGraftCredit now peer).1.pendingGrafts = node.pendingGrafts := rfl

theorem handleIncoming_registers {node : PlumTreeNode} {now round : Nat} {fromPeer messageId : String}
    (registers : node.Registers now fromPeer messageId) :
    (node.handleIncoming now fromPeer (.iHave messageId round)).2 = {(fromPeer, .graft messageId)} ∧
      (node.handleIncoming now fromPeer (.iHave messageId round)).1.pendingGrafts =
        node.pendingGrafts.insert messageId fromPeer := by
  obtain ⟨wellFormed, granted, unseen, idle⟩ := registers
  simp [handleIncoming, wellFormed, granted, unseen, idle]

theorem handleIncoming_ignores {node : PlumTreeNode} {now round : Nat} {fromPeer messageId : String}
    (ignored : ¬ node.Registers now fromPeer messageId) :
    (node.handleIncoming now fromPeer (.iHave messageId round)).2 = ∅ ∧
      (node.handleIncoming now fromPeer (.iHave messageId round)).1.pendingGrafts = node.pendingGrafts := by
  simp only [handleIncoming]
  split
  · exact ⟨rfl, rfl⟩
  · rename_i wellFormed
    split
    · exact ⟨rfl, rfl⟩
    · rename_i granted
      split
      · rename_i fresh
        rw [Bool.and_eq_true] at fresh
        refine absurd ⟨by simpa using wellFormed, by simpa using granted, ?_, ?_⟩ ignored
        · simpa using fresh.1
        · simpa using fresh.2
      · exact ⟨rfl, rfl⟩

def GraftsToMembers : Prop := ∀ row ∈ node.pendingGrafts.rows, row.2 ∈ node.members

/-- A message whose provider has left is fetched from the next other member that announces it. -/
def Recovers : Prop :=
  ∀ messageId target peer now round, isPlausibleEventId messageId = true →
    node.receivedMessages.contains messageId = false → node.pendingGrafts.get messageId = some target →
    target ∉ node.members → peer ∈ node.members → peer ≠ target →
    (node.handleIncoming now peer (.iHave messageId round)).2 = {(peer, .graft messageId)}

/-- What keeps every graft with a member: no peer is removed that a graft is registered against, and
an announcement that is answered comes from a member. -/
def KeepsProviders : PlumTreeCall → Prop
  | .addPeer _ => True
  | .removePeer peerId => ∀ row ∈ node.pendingGrafts.rows, row.2 ≠ peerId
  | .handleIncoming now fromPeer (.iHave messageId _) =>
    node.Registers now fromPeer messageId → fromPeer ∈ node.members
  | .handleIncoming _ _ _ => True

theorem GraftsToMembers.recovers {node : PlumTreeNode} (held : node.GraftsToMembers) : node.Recovers := by
  intro messageId target peer now round _ _ pending gone
  obtain ⟨row, found, rfl⟩ := Option.map_eq_some_iff.mp pending
  exact absurd (held row (List.mem_of_find?_eq_some found)) gone

theorem pending_silences {node : PlumTreeNode} {messageId target : String}
    (pending : node.pendingGrafts.get messageId = some target) (now round : Nat) (peer : String) :
    (node.handleIncoming now peer (.iHave messageId round)).2 = ∅ := by
  refine (handleIncoming_ignores ?_).1
  rintro ⟨-, -, -, idle⟩
  simp [BoundedMap.containsKey, pending] at idle

theorem addPeer_members (peerId : String) : node.members ⊆ (node.addPeer peerId).members := by
  unfold addPeer members
  split
  · exact Finset.Subset.refl _
  · split
    · exact Finset.union_subset_union_left (Finset.subset_insert _ _)
    · split
      · exact Finset.union_subset_union_right (Finset.subset_insert _ _)
      · exact Finset.Subset.refl _

theorem handleIncoming_members (fromPeer : String) (msg : PlumTreeMessage) :
    node.members ⊆ (node.handleIncoming now fromPeer msg).1.members := by
  intro peer member
  have split := Finset.mem_union.mp member
  obtain ⟨-, ⟨-, eager, lazy⟩ | ⟨-, eager, lazy⟩ | ⟨-, -, -, eager, lazy⟩⟩ :=
    node.handleIncoming_peers now fromPeer msg
  · simp only [members, eager, lazy, Finset.mem_union, Finset.mem_erase, Finset.mem_insert]
    tauto
  · simp only [members, eager, lazy]
    exact member
  · simp only [members, eager, lazy, Finset.mem_union, Finset.mem_erase, Finset.mem_insert]
    tauto

theorem iHave_members (now round : Nat) (fromPeer messageId : String) :
    (node.handleIncoming now fromPeer (.iHave messageId round)).1.members = node.members := by
  obtain ⟨-, ⟨demotes, -⟩ | ⟨-, eager, lazy⟩ | ⟨-, member, -, eager, lazy⟩⟩ :=
    node.handleIncoming_peers now fromPeer (.iHave messageId round)
  · exact demotes.elim
  · simp only [members, eager, lazy]
  · simp only [members, eager, lazy]
    ext peer
    simp only [Finset.mem_union, Finset.mem_insert, Finset.mem_erase]
    by_cases same : peer = fromPeer
    · subst same
      simp [member]
    · simp [same]

theorem handleIncoming_pendingGrafts {node : PlumTreeNode} {now : Nat} {fromPeer : String} {msg : PlumTreeMessage}
    (other : ∀ messageId round, msg ≠ .iHave messageId round) :
    ∀ row ∈ (node.handleIncoming now fromPeer msg).1.pendingGrafts.rows, row ∈ node.pendingGrafts.rows := by
  intro row member
  cases msg with
  | gossip messageId payloadJson round =>
    simp only [handleIncoming] at member
    split at member
    · exact member
    · exact List.mem_of_mem_filter member
  | iHave messageId round => exact absurd rfl (other messageId round)
  | graft messageId =>
    simp only [handleIncoming] at member
    split at member <;> split at member <;> exact member
  | prune messageId => exact member

theorem iHave_graftsToMembers_iff {node : PlumTreeNode} (held : node.GraftsToMembers) (now round : Nat)
    (fromPeer messageId : String) :
    (node.handleIncoming now fromPeer (.iHave messageId round)).1.GraftsToMembers ↔
      (node.Registers now fromPeer messageId → fromPeer ∈ node.members) := by
  unfold GraftsToMembers
  rw [iHave_members]
  by_cases registers : node.Registers now fromPeer messageId
  · rw [(handleIncoming_registers registers).2]
    simp only [registers, true_implies]
    constructor
    · intro after
      exact after (messageId, fromPeer) (BoundedMap.mem_insert_self _ _ _)
    · intro member row inside
      obtain rfl | before := BoundedMap.mem_of_mem_insert inside
      · exact member
      · exact held row before
  · rw [(handleIncoming_ignores registers).2]
    simp only [registers, false_implies, iff_true]
    exact held

theorem step_graftsToMembers_iff (call : PlumTreeCall) (held : node.GraftsToMembers) :
    (node.step call).GraftsToMembers ↔ node.KeepsProviders call := by
  cases call with
  | addPeer peerId =>
    simp only [KeepsProviders, iff_true]
    intro row member
    have same : (node.addPeer peerId).pendingGrafts = node.pendingGrafts := by
      unfold addPeer
      split
      · rfl
      · split
        · rfl
        · split <;> rfl
    rw [step, same] at member
    exact node.addPeer_members peerId (held row member)
  | removePeer peerId =>
    simp only [KeepsProviders, GraftsToMembers, step, removePeer, members, ← Finset.erase_union_distrib,
      Finset.mem_erase]
    constructor
    · intro after row member
      exact (after row member).1
    · intro spared row member
      exact ⟨spared row member, held row member⟩
  | handleIncoming now fromPeer msg =>
    cases msg with
    | iHave messageId round => exact iHave_graftsToMembers_iff held now round fromPeer messageId
    | gossip messageId payloadJson round | graft messageId | prune messageId =>
      simp only [KeepsProviders, iff_true]
      intro row member
      exact handleIncoming_members _ _ _ _ (held row (handleIncoming_pendingGrafts (by simp) row member))

/-- Every outstanding graft names a current member, and so no departed provider blocks a message, exactly in
the runs that remove no peer with a graft and answer no announcement of a stranger. -/
theorem grafts_name_members_iff (selfPeerId : String) (calls : List PlumTreeCall) :
    Runs.Always step (fun node => node.GraftsToMembers ∧ node.Recovers) (new selfPeerId) calls ↔
      Runs.Throughout step KeepsProviders (new selfPeerId) calls := by
  refine Runs.always_iff_throughout ?_ ?_
  · intro node call held
    rw [← step_graftsToMembers_iff node call held.1]
    exact ⟨fun after => after.1, fun after => ⟨after, after.recovers⟩⟩
  · have empty : (new selfPeerId).GraftsToMembers := by simp [GraftsToMembers, new, BoundedMap.empty]
    exact ⟨empty, empty.recovers⟩

def announcedId : String := "0123456789abcdef0123456789abcdef0123456789abcdef0123456789abcdef"

/-- The provider leaves before it answers: its graft stands, and another member that has the message is not
asked for it. -/
theorem departed_provider_blocks_message :
    ¬ Runs.Always step (fun node => node.GraftsToMembers ∧ node.Recovers) (new "self")
      [.addPeer "a", .addPeer "b", .handleIncoming 0 "a" (.iHave announcedId 0), .removePeer "a"] := by
  intro always
  have recovers := always.last.2 announcedId "a" "b" 1 0 (by decide) (by decide) (by decide) (by decide)
    (by decide) (by decide)
  rw [pending_silences (by decide : _ = some "a")] at recovers
  exact Finset.singleton_ne_empty _ recovers.symm

end PlumTreeNode

end Soshal.Network
