import Soshal.Library.Bounded
import Soshal.Library.Queued
import Soshal.Library.Replies

/-! The bounded set and map shared across cores, as they keep a hash container and a queue side by side. -/

set_option autoImplicit false

namespace Soshal.Common

open Library (Queued)
open Library.Replies (serve serve_keeps Simulates)

structure BoundedSet (T : Type) where
  set : Finset T
  order : List T
  capacity : Nat

namespace BoundedSet

variable {T : Type} [DecidableEq T]

def new (capacity : Nat) : BoundedSet T := ⟨∅, [], capacity⟩

/-- `while order.len() > capacity`: the oldest key leaves the queue and then the set. -/
def evict (capacity : Nat) (set : Finset T) : List T → Finset T × List T
  | [] => (set, [])
  | oldest :: rest =>
    if capacity < (oldest :: rest).length then evict capacity (set.erase oldest) rest else (set, oldest :: rest)

def insert (s : BoundedSet T) (key : T) : BoundedSet T × Bool :=
  if key ∈ s.set then (s, false)
  else
    let kept := evict s.capacity (Insert.insert key s.set) (s.order ++ [key])
    ({ s with set := kept.1, order := kept.2 }, true)

def contains (s : BoundedSet T) (key : T) : Bool := decide (key ∈ s.set)

def len (s : BoundedSet T) : Nat := s.set.card

def isEmpty (s : BoundedSet T) : Bool := decide (s.set = ∅)

def clear (s : BoundedSet T) : BoundedSet T := { s with set := ∅, order := [] }

end BoundedSet

structure BoundedMap (K V : Type) where
  map : Finmap fun _ : K => V
  order : List K
  capacity : Nat

namespace BoundedMap

variable {K V : Type} [DecidableEq K]

def new (capacity : Nat) : BoundedMap K V := ⟨∅, [], capacity⟩

def containsKey (m : BoundedMap K V) (key : K) : Bool := (m.map.lookup key).isSome

/-- Room is made before a new key is queued; with an empty queue there is nothing to pop. -/
def makeRoom (m : BoundedMap K V) : BoundedMap K V :=
  if m.capacity ≤ m.order.length then
    match m.order with
    | [] => m
    | oldest :: rest => { m with map := m.map.erase oldest, order := rest }
  else m

def insert (m : BoundedMap K V) (key : K) (value : V) : BoundedMap K V × Option V :=
  let m :=
    if m.containsKey key then m
    else
      let m := m.makeRoom
      { m with order := m.order ++ [key] }
  ({ m with map := m.map.insert key value }, m.map.lookup key)

def get (m : BoundedMap K V) (key : K) : Option V := m.map.lookup key

def remove (m : BoundedMap K V) (key : K) : BoundedMap K V × Option V :=
  let removed := m.map.lookup key
  let m := { m with map := m.map.erase key }
  if removed.isSome then ({ m with order := m.order.filter fun other => decide (other ≠ key) }, removed)
  else (m, removed)

def len (m : BoundedMap K V) : Nat := m.map.keys.card

def isEmpty (m : BoundedMap K V) : Bool := decide (m.map.keys = ∅)

def clear (m : BoundedMap K V) : BoundedMap K V := { m with map := ∅, order := [] }

end BoundedMap

inductive SetCall (T : Type) where
  | insert (key : T)
  | contains (key : T)
  | len
  | isEmpty
  | clear

inductive SetReply where
  | flag (answer : Bool)
  | count (n : Nat)
  | done
  deriving DecidableEq

inductive MapCall (K V : Type) where
  | insert (key : K) (value : V)
  | get (key : K)
  | containsKey (key : K)
  | remove (key : K)
  | len
  | isEmpty
  | clear

inductive MapReply (V : Type) where
  | value (found : Option V)
  | flag (answer : Bool)
  | count (n : Nat)
  | done
  deriving DecidableEq

section Steps

variable {T K V : Type} [DecidableEq T] [DecidableEq K]

def BoundedSet.step (s : BoundedSet T) : SetCall T → BoundedSet T × SetReply
  | .insert key => ((s.insert key).1, .flag (s.insert key).2)
  | .contains key => (s, .flag (s.contains key))
  | .len => (s, .count s.len)
  | .isEmpty => (s, .flag s.isEmpty)
  | .clear => (s.clear, .done)

def setReference (s : Library.BoundedSet T) : SetCall T → Library.BoundedSet T × SetReply
  | .insert key => ((s.insert key).1, .flag (s.insert key).2)
  | .contains key => (s, .flag (s.contains key))
  | .len => (s, .count s.order.length)
  | .isEmpty => (s, .flag s.order.isEmpty)
  | .clear => (s.clear, .done)

def BoundedMap.step (m : BoundedMap K V) : MapCall K V → BoundedMap K V × MapReply V
  | .insert key value => ((m.insert key value).1, .value (m.insert key value).2)
  | .get key => (m, .value (m.get key))
  | .containsKey key => (m, .flag (m.containsKey key))
  | .remove key => ((m.remove key).1, .value (m.remove key).2)
  | .len => (m, .count m.len)
  | .isEmpty => (m, .flag m.isEmpty)
  | .clear => (m.clear, .done)

/-- The same calls on rows in the order in which their keys were inserted. -/
def mapReference (m : Library.BoundedMap K V) : MapCall K V → Library.BoundedMap K V × MapReply V
  | .insert key value => (m.insert key value, .value (m.get key))
  | .get key => (m, .value (m.get key))
  | .containsKey key => (m, .flag (m.containsKey key))
  | .remove key => (m.remove key, .value (m.get key))
  | .len => (m, .count m.rows.length)
  | .isEmpty => (m, .flag m.rows.isEmpty)
  | .clear => (m.clear, .done)

end Steps

namespace BoundedSet

variable {T : Type} [DecidableEq T] {s : BoundedSet T} {reference : Library.BoundedSet T}

/-- The queue is the reference list, and the set holds its keys. -/
structure Follows (s : BoundedSet T) (reference : Library.BoundedSet T) : Prop where
  capacity : s.capacity = reference.capacity
  order : s.order = reference.order
  queued : Queued s.order s.set
  bounded : s.order.length ≤ s.capacity

theorem evict_order (capacity : Nat) (set : Finset T) (order : List T) :
    (evict capacity set order).2 = order.drop (order.length - capacity) := by
  induction order generalizing set with
  | nil => simp [evict]
  | cons oldest rest ih =>
    rw [evict]
    split
    · -- One more than the capacity has to go, and the oldest goes first.
      rename_i full
      rw [List.length_cons] at full ⊢
      rw [ih, show rest.length + 1 - capacity = (rest.length - capacity) + 1 by omega, List.drop_succ_cons]
    · rename_i fits
      rw [Nat.sub_eq_zero_of_le (Nat.not_lt.mp fits), List.drop_zero]

theorem evict_queued (capacity : Nat) {set : Finset T} {order : List T} (queued : Queued order set) :
    Queued (evict capacity set order).2 (evict capacity set order).1 := by
  induction order generalizing set with
  | nil => exact queued
  | cons oldest rest ih =>
    rw [evict]
    split
    · exact ih queued.pop
    · exact queued

theorem Follows.mem (follows : Follows s reference) {key : T} : key ∈ s.set ↔ key ∈ reference.order := by
  rw [← follows.queued.mem, follows.order]

theorem Follows.insert (follows : Follows s reference) (key : T) :
    Follows (s.insert key).1 (reference.insert key).1 ∧ (s.insert key).2 = (reference.insert key).2 := by
  unfold BoundedSet.insert Library.BoundedSet.insert
  by_cases present : key ∈ s.set
  · rw [if_pos present, if_pos (follows.mem.mp present)]
    exact ⟨follows, rfl⟩
  · rw [if_neg present, if_neg fun known => present (follows.mem.mpr known)]
    -- The new key is queued before the old ones are evicted, so a capacity of zero evicts it at once.
    have kept := evict_order s.capacity (Insert.insert key s.set) (s.order ++ [key])
    have pushed := follows.queued.push present
    refine ⟨⟨follows.capacity, ?_, evict_queued s.capacity pushed, ?_⟩, rfl⟩
    · show (evict s.capacity _ _).2 = _
      rw [kept, follows.order, follows.capacity]
    · show (evict s.capacity _ _).2.length ≤ s.capacity
      rw [kept, List.length_drop]
      omega

theorem Follows.clear (follows : Follows s reference) : Follows s.clear reference.clear where
  capacity := follows.capacity
  order := rfl
  queued := .empty
  bounded := Nat.zero_le _

theorem Follows.contains (follows : Follows s reference) (key : T) : s.contains key = reference.contains key :=
  decide_eq_decide.mpr follows.mem

theorem Follows.len (follows : Follows s reference) : s.len = reference.order.length := by
  rw [BoundedSet.len, ← follows.queued.length, follows.order]

theorem Follows.isEmpty (follows : Follows s reference) : s.isEmpty = reference.order.isEmpty := by
  rw [BoundedSet.isEmpty, ← follows.queued.same, follows.order, Bool.eq_iff_iff]
  simp

theorem simulates : Simulates (BoundedSet.step (T := T)) setReference Follows where
  reply {s t} follows call := by
    cases call with
    | insert key => exact congrArg SetReply.flag (follows.insert key).2
    | contains key => exact congrArg SetReply.flag (follows.contains key)
    | len => exact congrArg SetReply.count follows.len
    | isEmpty => exact congrArg SetReply.flag follows.isEmpty
    | clear => rfl
  next {s t} follows call := by
    cases call with
    | insert key => exact (follows.insert key).1
    | clear => exact follows.clear
    | contains | len | isEmpty => exact follows

theorem follows_new (capacity : Nat) : Follows (new capacity : BoundedSet T) (.empty capacity) where
  capacity := rfl
  order := rfl
  queued := .empty
  bounded := Nat.zero_le _

end BoundedSet

namespace BoundedMap

variable {K V : Type} [DecidableEq K] {m : BoundedMap K V} {reference : Library.BoundedMap K V}

/-- The queue is the reference's column of keys, and the map holds its rows. -/
structure Follows (m : BoundedMap K V) (reference : Library.BoundedMap K V) : Prop where
  capacity : m.capacity = reference.capacity
  order : m.order = reference.rows.map Prod.fst
  lookup : ∀ {key value}, m.map.lookup key = some value ↔ (key, value) ∈ reference.rows
  queued : Queued m.order m.map.keys
  bounded : m.order.length ≤ max 1 m.capacity

theorem Follows.length (follows : Follows m reference) : m.order.length = reference.rows.length := by
  rw [follows.order, List.length_map]

theorem Follows.rows_nodup (follows : Follows m reference) : (reference.rows.map Prod.fst).Nodup :=
  follows.order ▸ follows.queued.nodup

theorem Follows.get (follows : Follows m reference) (key : K) : m.map.lookup key = reference.get key := by
  apply Option.ext
  intro value
  rw [follows.lookup, Library.BoundedMap.get]
  constructor
  · intro member
    cases search : reference.rows.find? (·.1 = key) with
    | none => exact absurd (List.find?_eq_none.mp search _ member) (by simp)
    | some row =>
      have named : row.1 = key := by simpa using List.find?_some search
      have same := List.inj_on_of_nodup_map follows.rows_nodup (List.mem_of_find?_eq_some search) member named
      rw [Option.map_some, same]
  · intro found
    obtain ⟨row, search, rfl⟩ := Option.map_eq_some_iff.mp found
    have named : row.1 = key := by simpa using List.find?_some search
    rw [← named]
    exact List.mem_of_find?_eq_some search

theorem Follows.containsKey (follows : Follows m reference) (key : K) :
    m.containsKey key = reference.containsKey key := by
  rw [BoundedMap.containsKey, Library.BoundedMap.containsKey, follows.get]

theorem containsKey_iff {key : K} : m.containsKey key = true ↔ key ∈ m.map.keys := by
  rw [containsKey, Option.isSome_iff_exists, Library.mem_keys_iff_lookup]

/-- What is left of the reference when room was made for a new key. -/
def room (reference : Library.BoundedMap K V) : Library.BoundedMap K V :=
  { reference with
    rows := if reference.capacity ≤ reference.rows.length then reference.rows.tail else reference.rows }

theorem Follows.pop (follows : Follows m reference) {oldest : K} {rest : List K} (queue : m.order = oldest :: rest) :
    Follows { m with map := m.map.erase oldest, order := rest } { reference with rows := reference.rows.tail } := by
  have nodup := follows.rows_nodup
  have queued := follows.queued
  have bounded := follows.bounded
  have order := follows.order
  rw [queue] at queued bounded order
  cases rows : reference.rows with
  | nil => simp [rows] at order
  | cons row later =>
    rw [rows, List.map_cons] at order nodup
    obtain ⟨rfl, same⟩ := List.cons.inj order
    refine ⟨follows.capacity, same, ?_, ?_, ?_⟩
    · intro key value
      rw [Library.lookup_erase]
      split
      · -- the key of the popped row stands in no other
        rename_i popped
        have absent : (key, value) ∉ later := fun member =>
          (List.nodup_cons.mp nodup).1 (popped ▸ List.mem_map_of_mem (f := Prod.fst) member)
        simp [absent]
      · rename_i other
        rw [follows.lookup, rows, List.mem_cons]
        exact or_iff_right fun named => other (congrArg Prod.fst named)
    · rw [Finmap.keys_erase]
      exact queued.pop
    · rw [List.length_cons] at bounded
      exact (Nat.le_succ _).trans bounded

theorem Follows.makeRoom (follows : Follows m reference) :
    Follows m.makeRoom (room reference) ∧ m.makeRoom.order.length < max 1 m.capacity := by
  have bounded := follows.bounded
  have alike : m.capacity ≤ m.order.length ↔ reference.capacity ≤ reference.rows.length := by
    rw [follows.capacity, follows.length]
  unfold BoundedMap.makeRoom room
  by_cases full : m.capacity ≤ m.order.length
  · rw [if_pos full, if_pos (alike.mp full)]
    cases queue : m.order with
    | nil =>
      -- A capacity of zero: there is nothing to evict, and room for one all the same.
      have none : reference.rows = [] := by simpa [queue] using follows.order.symm
      refine ⟨?_, by simp [queue]⟩
      rw [none, List.tail_nil, ← none]
      exact follows
    | cons oldest rest =>
      rw [queue, List.length_cons] at bounded
      exact ⟨follows.pop queue, Nat.lt_of_succ_le bounded⟩
  · rw [if_neg full, if_neg (mt alike.mpr full)]
    exact ⟨follows, lt_of_lt_of_le (Nat.not_le.mp full) (Nat.le_max_right _ _)⟩

theorem makeRoom_absent {key : K} (absent : key ∉ m.map.keys) : key ∉ m.makeRoom.map.keys := by
  unfold makeRoom
  split
  · cases m.order with
    | nil => exact absent
    | cons oldest rest =>
      rw [Finmap.keys_erase]
      exact fun kept => absent (Finset.mem_of_mem_erase kept)
  · exact absent

section

variable (follows : Follows m reference)
include follows

theorem Follows.push {key : K} (absent : key ∉ m.map.keys) (value : V) (space : m.order.length < max 1 m.capacity) :
    Follows { m with order := m.order ++ [key], map := m.map.insert key value }
      { reference with rows := reference.rows ++ [(key, value)] } where
  capacity := follows.capacity
  order := by
    rw [follows.order, List.map_append, List.map_singleton]
  lookup {other found} := by
    rw [Library.lookup_insert, List.mem_append, List.mem_singleton, Prod.mk.injEq]
    split
    · rename_i same
      have missing : (other, found) ∉ reference.rows := fun member =>
        absent (same ▸ Library.mem_keys_iff_lookup.mpr ⟨found, follows.lookup.mpr member⟩)
      rw [or_iff_right missing, and_iff_right same, Option.some.injEq, eq_comm]
    · rename_i ne
      simp [ne, follows.lookup]
  queued := by
    rw [Library.keys_insert]
    exact follows.queued.push absent
  bounded := by
    rw [List.length_append, List.length_singleton]
    exact space

theorem Follows.update {key : K} (present : key ∈ m.map.keys) (value : V) :
    Follows { m with map := m.map.insert key value }
      { reference with rows := reference.rows.map fun row => if row.1 = key then (key, value) else row } where
  capacity := follows.capacity
  order := by
    rw [follows.order, List.map_map]
    refine List.map_congr_left fun row _ => ?_
    by_cases same : row.1 = key <;> simp [same]
  lookup {other found} := by
    rw [Library.lookup_insert, List.mem_map]
    obtain ⟨old, stored⟩ := Library.mem_keys_iff_lookup.mp present
    have row := follows.lookup.mp stored
    split
    · rename_i same
      constructor
      · rintro ⟨⟩
        exact ⟨(key, old), row, by rw [if_pos rfl, same]⟩
      · rintro ⟨before, inside, changed⟩
        split at changed
        · exact congrArg some (Prod.mk.inj changed).2
        · rename_i ne
          exact absurd ((congrArg Prod.fst changed).trans same) ne
    · rename_i ne
      rw [follows.lookup]
      constructor
      · intro inside
        exact ⟨(other, found), inside, if_neg ne⟩
      · rintro ⟨before, inside, changed⟩
        split at changed
        · exact absurd (congrArg Prod.fst changed).symm ne
        · exact changed ▸ inside
  queued := by
    rw [Library.keys_insert, Finset.insert_eq_self.mpr present]
    exact follows.queued
  bounded := follows.bounded

theorem Follows.insert (key : K) (value : V) :
    Follows (m.insert key value).1 (reference.insert key value) ∧ (m.insert key value).2 = reference.get key := by
  unfold BoundedMap.insert Library.BoundedMap.insert
  rw [← follows.containsKey]
  by_cases known : m.containsKey key = true
  · rw [if_pos known, if_pos known]
    exact ⟨follows.update (containsKey_iff.mp known) value, follows.get key⟩
  · rw [if_neg known, if_neg known]
    have absent := mt containsKey_iff.mpr known
    obtain ⟨made, space⟩ := follows.makeRoom
    -- What was evicted is another key, so the answer is that of a key that is not there.
    have missing := makeRoom_absent absent
    have kept : m.makeRoom.capacity = m.capacity := made.capacity.trans follows.capacity.symm
    refine ⟨made.push missing value (kept ▸ space), ?_⟩
    show m.makeRoom.map.lookup key = _
    rw [← follows.get, Finmap.lookup_eq_none.mpr (mt Finmap.mem_keys.mpr missing),
      Finmap.lookup_eq_none.mpr (mt Finmap.mem_keys.mpr absent)]

theorem Follows.remove (key : K) :
    Follows (m.remove key).1 (reference.remove key) ∧ (m.remove key).2 = reference.get key := by
  have filtered : (reference.rows.filter (·.1 ≠ key)).map Prod.fst = m.order.filter fun other => decide (other ≠ key) := by
    rw [follows.order, List.filter_map]
    rfl
  have erased : Follows { m with map := m.map.erase key, order := m.order.filter fun other => decide (other ≠ key) }
      (reference.remove key) := by
    refine ⟨follows.capacity, filtered.symm, ?_, ?_, ?_⟩
    · intro other value
      rw [Library.lookup_erase, Library.BoundedMap.remove, List.mem_filter]
      split <;> simp_all [follows.lookup]
    · rw [Finmap.keys_erase]
      exact follows.queued.retain key
    · exact (List.length_filter_le _ _).trans follows.bounded
  refine ⟨?_, ?_⟩
  · unfold BoundedMap.remove
    by_cases present : (m.map.lookup key).isSome = true
    · rw [if_pos present]
      exact erased
    · -- without an entry the queue is left alone, and nothing in it has to go
      rw [if_neg present]
      have absent : key ∉ m.order := by
        rw [follows.queued.mem, Library.mem_keys_iff_lookup, ← Option.isSome_iff_exists]
        exact present
      have unchanged : (m.order.filter fun other => decide (other ≠ key)) = m.order :=
        List.filter_eq_self.mpr fun other member => decide_eq_true fun same => absent (same ▸ member)
      rwa [unchanged] at erased
  · unfold BoundedMap.remove
    by_cases present : (m.map.lookup key).isSome = true
    · rw [if_pos present, follows.get]
    · rw [if_neg present, follows.get]

theorem Follows.clear : Follows m.clear reference.clear where
  capacity := follows.capacity
  order := rfl
  lookup {key value} := by simp [BoundedMap.clear, Library.BoundedMap.clear]
  queued := .empty
  bounded := Nat.zero_le _

theorem Follows.len : m.len = reference.rows.length := by
  rw [BoundedMap.len, ← follows.queued.length, follows.length]

theorem Follows.isEmpty : m.isEmpty = reference.rows.isEmpty := by
  rw [BoundedMap.isEmpty, ← follows.queued.same, follows.order, Bool.eq_iff_iff]
  simp

end

theorem simulates : Simulates (BoundedMap.step (K := K) (V := V)) mapReference Follows where
  reply {m reference} follows call := by
    cases call with
    | insert key value => exact congrArg MapReply.value (follows.insert key value).2
    | get key => exact congrArg MapReply.value (follows.get key)
    | containsKey key => exact congrArg MapReply.flag (follows.containsKey key)
    | remove key => exact congrArg MapReply.value (follows.remove key).2
    | len => exact congrArg MapReply.count follows.len
    | isEmpty => exact congrArg MapReply.flag follows.isEmpty
    | clear => rfl
  next {m reference} follows call := by
    cases call with
    | insert key value => exact (follows.insert key value).1
    | remove key => exact (follows.remove key).1
    | clear => exact follows.clear
    | get | containsKey | len | isEmpty => exact follows

theorem follows_new (capacity : Nat) : Follows (new capacity : BoundedMap K V) (.empty capacity) where
  capacity := rfl
  order := rfl
  lookup {key value} := by simp [new, Library.BoundedMap.empty]
  queued := .empty
  bounded := Nat.zero_le _

end BoundedMap

section Runs

variable {T K V : Type} [DecidableEq T] [DecidableEq K]

theorem BoundedSet.capacity_step (s : BoundedSet T) (call : SetCall T) : (s.step call).1.capacity = s.capacity := by
  cases call with
  | insert key =>
    simp only [BoundedSet.step, BoundedSet.insert]
    split <;> rfl
  | contains | len | isEmpty | clear => rfl

theorem BoundedMap.capacity_step (m : BoundedMap K V) (call : MapCall K V) : (m.step call).1.capacity = m.capacity := by
  cases call with
  | insert key value =>
    simp only [BoundedMap.step, BoundedMap.insert, BoundedMap.makeRoom]
    split
    · rfl
    · split
      · cases m.order <;> rfl
      · rfl
  | remove key =>
    simp only [BoundedMap.step, BoundedMap.remove]
    split <;> rfl
  | get | containsKey | len | isEmpty | clear => rfl

/-- Every sequence of calls is answered as the list in the order of insertion answers it, and
queue and container end on the same keys, within the capacity. -/
theorem bounded_refine (capacity : Nat) (room : 1 ≤ capacity) (setCalls : List (SetCall T))
    (mapCalls : List (MapCall K V)) :
    let s := serve BoundedSet.step (BoundedSet.new capacity) setCalls
    let m := serve BoundedMap.step (BoundedMap.new capacity) mapCalls
    let setList := serve setReference (.empty capacity) setCalls
    let mapList := serve mapReference (.empty capacity) mapCalls
    (s.2 = setList.2 ∧ s.1.order = setList.1.order ∧ Queued s.1.order s.1.set ∧ s.1.len ≤ capacity) ∧
      (m.2 = mapList.2 ∧ m.1.order = mapList.1.rows.map Prod.fst ∧
        (∀ key, m.1.get key = mapList.1.get key) ∧ Queued m.1.order m.1.map.keys ∧ m.1.len ≤ capacity) := by
  intro s m setList mapList
  have setCapacity : s.1.capacity = capacity :=
    serve_keeps BoundedSet.step (fun t call kept => (BoundedSet.capacity_step t call).trans kept) rfl setCalls
  have mapCapacity : m.1.capacity = capacity :=
    serve_keeps BoundedMap.step (fun t call kept => (BoundedMap.capacity_step t call).trans kept) rfl mapCalls
  have setStart := BoundedSet.follows_new (T := T) capacity
  have mapStart := BoundedMap.follows_new (K := K) (V := V) capacity
  have setFollows : s.1.Follows setList.1 := BoundedSet.simulates.state setStart setCalls
  have mapFollows : m.1.Follows mapList.1 := BoundedMap.simulates.state mapStart mapCalls
  refine ⟨⟨BoundedSet.simulates.replies setStart setCalls, setFollows.order, setFollows.queued, ?_⟩,
    BoundedMap.simulates.replies mapStart mapCalls, mapFollows.order, mapFollows.get, mapFollows.queued, ?_⟩
  · rw [BoundedSet.len, ← setFollows.queued.length, ← setCapacity]
    exact setFollows.bounded
  · have bounded := mapFollows.bounded
    rw [mapCapacity, Nat.max_eq_right room] at bounded
    rw [BoundedMap.len, ← mapFollows.queued.length]
    exact bounded

/-- A capacity of one, and keys that come back after they were pushed out. -/
theorem bounded_refine_one :
    let setCalls : List (SetCall String) := [.insert "a", .insert "b", .insert "a", .contains "b"]
    let mapCalls : List (MapCall String Nat) :=
      [.insert "a" 1, .insert "b" 2, .get "a", .insert "a" 3, .insert "a" 4, .get "a", .remove "a", .len]
    1 ≤ 1 ∧ (serve BoundedSet.step (.new 1) setCalls).2 = (serve setReference (.empty 1) setCalls).2 ∧
      (serve BoundedMap.step (.new 1) mapCalls).2 = (serve mapReference (.empty 1) mapCalls).2 := by
  intro setCalls mapCalls
  have room : 1 ≤ 1 := by decide
  obtain ⟨⟨set, -⟩, map, -⟩ := bounded_refine 1 room setCalls mapCalls
  exact ⟨room, set, map⟩

end Runs

end Soshal.Common
