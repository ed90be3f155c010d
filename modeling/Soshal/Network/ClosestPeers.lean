import Soshal.Library.Sorting
import Soshal.Network.Skademlia

/-! The peers closest to an id.

The nearest peers are selected before they are sorted, by an algorithm that leaves
the order on either side of the cut open. As ids are stored once, no two peers are
at the same distance, and the result is the front of all peers in their order.
-/

set_option autoImplicit false

namespace Soshal.Network.Skademlia

open Library

/-- `select_nth_unstable_by`: an arrangement in which nothing before the position comes after what is from there on. -/
structure SelectNth (α : Type) where
  select : (α → α → Ordering) → Nat → List α → List α
  perm : ∀ cmp position xs, (select cmp position xs).Perm xs
  parted : ∀ (cmp : α → α → Ordering) [Std.TransCmp cmp] (position : Nat) (xs : List α), position < xs.length →
    ∀ a ∈ (select cmp position xs).take position, ∀ b ∈ (select cmp position xs).drop position, (cmp a b).isLE

def sortBy {α : Type} (cmp : α → α → Ordering) (xs : List α) : List α := xs.mergeSort fun a b => (cmp a b).isLE

def SelectNth.sorting (α : Type) : SelectNth α where
  select cmp _ xs := sortBy cmp xs
  perm cmp _ xs := List.mergeSort_perm xs _
  parted cmp _ position xs _ a before b behind := by
    have sorted := @List.pairwise_mergeSort _ (fun a b => (cmp a b).isLE) (fun _ _ _ => Std.TransCmp.isLE_trans)
      (fun a b => by
        rw [Bool.or_eq_true, or_iff_not_imp_left]
        intro above
        rw [Std.OrientedCmp.lt_of_not_isLE above]
        rfl) xs
    rw [← List.take_append_drop position (xs.mergeSort _), List.pairwise_append] at sorted
    exact sorted.2.2 a before b behind

def cmpDistance (target : NodeId) (a b : SkademliaPeer) : Ordering :=
  compare (xorDistance a.nodeId target).bytes (xorDistance b.nodeId target).bytes

def SkademliaRoutingTable.findClosest (nth : SelectNth SkademliaPeer) (table : SkademliaRoutingTable) (target : NodeId)
    (count : Nat) : List SkademliaPeer :=
  let allPeers := table.peers
  if count = 0 ∨ allPeers = [] then []
  else if count < allPeers.length then
    sortBy (cmpDistance target) ((nth.select (cmpDistance target) count allPeers).take count)
  else sortBy (cmpDistance target) allPeers

def distance (target : NodeId) (peer : SkademliaPeer) : Nat := peer.nodeId.value ^^^ target.value

theorem cmpDistance_eq (target : NodeId) : cmpDistance target = compareOn (distance target) := by
  funext a b
  have length : (xorDistance a.nodeId target).bytes.length = (xorDistance b.nodeId target).bytes.length :=
    (xorDistance a.nodeId target).size.trans (xorDistance b.nodeId target).size.symm
  rw [cmpDistance, Octets.compare_eq length]
  exact congrArg₂ compare (value_xorDistance _ _) (value_xorDistance _ _)

theorem sortBy_cmpDistance (target : NodeId) (peers : List SkademliaPeer) :
    sortBy (cmpDistance target) peers = Sorting.sortByKey (distance target) peers := by
  rw [sortBy, Sorting.sortByKey, cmpDistance_eq]
  congr 1
  funext a b
  rw [Bool.eq_iff_iff, decide_eq_true_eq]
  exact Nat.isLE_compare

theorem distance_nodup {peers : List SkademliaPeer} (distinct : (peers.map SkademliaPeer.nodeId).Nodup)
    (target : NodeId) : (peers.map (distance target)).Nodup := by
  have apart : peers.map (distance target) =
      (peers.map SkademliaPeer.nodeId).map fun id => id.value ^^^ target.value := by
    rw [List.map_map]
    rfl
  rw [apart]
  exact distinct.map fun first second same => NodeId.value_inj ((xor_left_involutive target.value).injective same)

theorem findClosest_eq (nth : SelectNth SkademliaPeer) {table : SkademliaRoutingTable}
    (distinct : (table.peers.map SkademliaPeer.nodeId).Nodup) (target : NodeId) (count : Nat) :
    table.findClosest nth target count = (Sorting.sortByKey (distance target) table.peers).take count := by
  unfold SkademliaRoutingTable.findClosest
  dsimp only
  split
  · rename_i nothing
    obtain rfl | empty := nothing
    · rw [List.take_zero]
    · rw [empty, Sorting.sortByKey, List.mergeSort_nil, List.take_nil]
  · simp only [sortBy_cmpDistance]
    split
    · rename_i fewer
      have lawful : Std.TransCmp (cmpDistance target) := by
        rw [cmpDistance_eq]
        infer_instance
      -- What is selected is below the rest, so sorting it alone gives the front of the whole order.
      refine Sorting.sortByKey_take (distance_nodup distinct target) (nth.perm _ _ _) ?_
      intro a before b behind
      have below := nth.parted (cmpDistance target) count table.peers fewer a before b behind
      rw [cmpDistance_eq] at below
      exact Nat.isLE_compare.mp below
    · rename_i all
      rw [List.take_of_length_le]
      rw [Sorting.sortByKey, List.length_mergeSort]
      exact Nat.not_lt.mp all

/-- On every table that `addPeer` builds, the closest peers are the first of all stored peers in the order of their
distance, whichever way they are selected. -/
theorem find_closest_sorted (sha256 : Bytes → NodeId) (nth : SelectNth SkademliaPeer) (selfNodeId : NodeId)
    (bucketCapacity : Nat) (calls : List SkademliaPeer) (target : NodeId) (count : Nat) :
    (Runs.run (step sha256) (.new selfNodeId bucketCapacity) calls).findClosest nth target count =
      (Sorting.sortByKey (distance target) (Runs.run (step sha256) (.new selfNodeId bucketCapacity) calls).peers).take
        count := by
  obtain ⟨kept, -, -⟩ := (allKept_run sha256 selfNodeId bucketCapacity calls).last
  exact findClosest_eq nth kept.distinct target count

end Soshal.Network.Skademlia
