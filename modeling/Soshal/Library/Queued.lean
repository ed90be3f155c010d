import Mathlib.Data.Finmap
import Mathlib.Data.Finset.Card

/-! Hash containers beside a queue of their keys.

A container that drops its oldest entry keeps the order of its keys in a queue of
its own. The two are updated one after the other, so what has to be shown of each
operation is that they name the same keys again when it ends.
-/

set_option autoImplicit false

namespace Soshal.Library

variable {α β : Type} [DecidableEq α]

/-- The queue names every key of the container, each once. -/
structure Queued (queue : List α) (keys : Finset α) : Prop where
  nodup : queue.Nodup
  same : queue.toFinset = keys

namespace Queued

variable {queue : List α} {keys : Finset α}

theorem empty : Queued ([] : List α) ∅ := ⟨List.nodup_nil, rfl⟩

theorem mem (queued : Queued queue keys) {key : α} : key ∈ queue ↔ key ∈ keys := by
  rw [← queued.same, List.mem_toFinset]

theorem length (queued : Queued queue keys) : queue.length = keys.card := by
  rw [← queued.same, List.toFinset_card_of_nodup queued.nodup]

theorem push (queued : Queued queue keys) {key : α} (fresh : key ∉ keys) :
    Queued (queue ++ [key]) (insert key keys) where
  nodup := queued.nodup.append (List.nodup_singleton key) (by simpa [queued.mem] using fresh)
  same := by
    ext other
    simp [queued.mem]

theorem pop {oldest : α} {rest : List α} (queued : Queued (oldest :: rest) keys) :
    Queued rest (keys.erase oldest) where
  nodup := queued.nodup.of_cons
  same := by
    have absent : oldest ∉ rest := (List.nodup_cons.mp queued.nodup).1
    rw [← queued.same, List.toFinset_cons, Finset.erase_insert (by simpa using absent)]

theorem retain (queued : Queued queue keys) (key : α) :
    Queued (queue.filter fun other => decide (other ≠ key)) (keys.erase key) where
  nodup := queued.nodup.filter _
  same := by
    ext other
    simp [queued.mem, and_comm]

end Queued

theorem keys_insert (map : Finmap fun _ : α => β) (key : α) (value : β) :
    (map.insert key value).keys = insert key map.keys := by
  ext other
  simp [Finmap.mem_keys, Finmap.mem_insert]

theorem lookup_insert (map : Finmap fun _ : α => β) (key other : α) (value : β) :
    (map.insert key value).lookup other = if other = key then some value else map.lookup other := by
  split
  · rename_i same
    rw [same, Finmap.lookup_insert]
  · rename_i ne
    exact Finmap.lookup_insert_of_ne map ne

theorem lookup_erase (map : Finmap fun _ : α => β) (key other : α) :
    (map.erase key).lookup other = if other = key then none else map.lookup other := by
  split
  · rename_i same
    rw [same, Finmap.lookup_erase]
  · rename_i ne
    exact Finmap.lookup_erase_ne ne

theorem mem_keys_iff_lookup {map : Finmap fun _ : α => β} {key : α} :
    key ∈ map.keys ↔ ∃ value, map.lookup key = some value := Finmap.mem_keys.trans Finmap.mem_iff

end Soshal.Library
