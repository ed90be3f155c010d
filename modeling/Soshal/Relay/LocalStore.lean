import Soshal.Library.Runs
import Soshal.Library.Table
import Soshal.Library.Text

/-! The store of the local relay: events by id, and the ids in the order of insertion.

It keeps what a bounded list of distinct events keeps. A query looks at its limit
after it has taken an event, so the limit zero is one event too few.
-/

set_option autoImplicit false

namespace Soshal.Relay.LocalStore

open Library
open Library.Runs (run)
open Library.Text (normKey)

/-- What the store uses of events and filters. -/
structure Nostr (Event Filter : Type) where
  id : Event → String
  limit : Filter → Option Nat
  matchEvent : Filter → Event → Bool

variable {Event Filter : Type}

structure LocalRelayStore (Event Filter : Type) where
  events : Table String Event
  subscriptions : Table String (List Filter)
  recentIds : List String
  maxEvents : Nat

variable (store : LocalRelayStore Event Filter)

namespace LocalRelayStore

def new (maxEvents : Nat) : LocalRelayStore Event Filter := ⟨.empty, .empty, [], max maxEvents 1⟩

def subscribe (subId : String) (filters : List Filter) : LocalRelayStore Event Filter :=
  { store with subscriptions := store.subscriptions.upsert subId filters fun _ => filters }

def unsubscribe (subId : String) : LocalRelayStore Event Filter × Bool :=
  ({ store with subscriptions := store.subscriptions.delete fun name _ => name = subId },
    (store.subscriptions.find? subId).isSome)

def eventCount : Nat := store.events.keys.length

def getEvent (id : String) : Option Event := store.events.find? (normKey id)

def evict (maxEvents : Nat) : List String → Table String Event → List String × Table String Event
  | [], events => ([], events)
  | oldId :: rest, events =>
    if (oldId :: rest).length > maxEvents then evict maxEvents rest (events.delete fun name _ => name = oldId)
    else (oldId :: rest, events)

section Calls

variable (nostr : Nostr Event Filter)

def insertEvent (event : Event) : LocalRelayStore Event Filter × List String :=
  let idStr := nostr.id event
  let matchedSubs :=
    (store.subscriptions.rows.filter fun sub => sub.2.any fun filter => nostr.matchEvent filter event).map Prod.fst
  let wasNew := (store.events.find? idStr).isNone
  let events := store.events.upsert idStr event fun _ => event
  if wasNew then
    let (recentIds, events) := evict store.maxEvents (store.recentIds ++ [idStr]) events
    ({ store with events := events, recentIds := recentIds }, matchedSubs)
  else ({ store with events := events }, matchedSubs)

/-- Takes matching events until there are as many as the limit. -/
def collect (events : Table String Event) (filter : Filter) (limit : Nat) : List String → List Event → List Event
  | [], matched => matched
  | id :: ids, matched =>
    match events.find? id with
    | some ev =>
      if nostr.matchEvent filter ev then
        let matched := matched ++ [ev]
        if matched.length ≥ limit then matched else collect events filter limit ids matched
      else collect events filter limit ids matched
    | none => collect events filter limit ids matched

def query (filter : Filter) : List Event :=
  collect nostr store.events filter ((nostr.limit filter).getD 100) store.recentIds.reverse []

end Calls

def clear : LocalRelayStore Event Filter :=
  { store with events := .empty, subscriptions := .empty, recentIds := [] }

end LocalRelayStore

inductive Operation (Event Filter : Type) where
  | subscribe (subId : String) (filters : List Filter)
  | unsubscribe (subId : String)
  | insert (event : Event)
  | clear

def step (nostr : Nostr Event Filter) (store : LocalRelayStore Event Filter) :
    Operation Event Filter → LocalRelayStore Event Filter
  | .subscribe subId filters => store.subscribe subId filters
  | .unsubscribe subId => (store.unsubscribe subId).1
  | .insert event => (store.insertEvent nostr event).1
  | .clear => store.clear

/-- Distinct events in the order in which they were inserted, the oldest first. -/
abbrev Reference (Event : Type) := Table String Event

namespace Reference

def newest (capacity : Nat) (r : Reference Event) : Reference Event where
  rows := r.rows.drop (r.rows.length - capacity)
  nodup := r.nodup.sublist ((List.drop_sublist _ _).map Prod.fst)

def insert (capacity : Nat) (id : String) (event : Event) (r : Reference Event) : Reference Event :=
  newest capacity (r.upsert id event fun _ => event)

def query (r : Reference Event) (isMatch : Event → Bool) (limit : Nat) : List Event :=
  ((r.rows.reverse.map Prod.snd).filter isMatch).take limit

end Reference

def referenceStep (nostr : Nostr Event Filter) (capacity : Nat) (r : Reference Event) :
    Operation Event Filter → Reference Event
  | .insert event => r.insert capacity (nostr.id event) event
  | .clear => .empty
  | _ => r

/-- The store is in step with itself and with the list, and a query returns what the list gives. -/
structure BehavesAs (nostr : Nostr Event Filter) (store : LocalRelayStore Event Filter) (r : Reference Event)
    (filter : Filter) : Prop where
  ids : store.recentIds.Nodup ∧ ∀ id, id ∈ store.recentIds ↔ id ∈ store.events.keys
  size : store.eventCount ≤ store.maxEvents ∧ store.recentIds.length ≤ store.maxEvents
  events : store.recentIds = r.keys ∧ ∀ id, store.getEvent id = r.find? (normKey id)
  query : store.query nostr filter = r.query (nostr.matchEvent filter) ((nostr.limit filter).getD 100)

/-- The filter asks for some event, or no event that is stored matches it. -/
def AsksForSome (nostr : Nostr Event Filter) (store : LocalRelayStore Event Filter) (filter : Filter) : Prop :=
  nostr.limit filter ≠ some 0 ∨ ∀ id ev, store.events.find? id = some ev → nostr.matchEvent filter ev = false

/-- The list holds the same events, and the ids in the same order. -/
structure Simulates (store : LocalRelayStore Event Filter) (capacity : Nat) (r : Reference Event) : Prop where
  ids : store.recentIds = r.keys
  events : store.events.Alike r
  capped : store.maxEvents = capacity
  fits : r.keys.length ≤ capacity

theorem Reference.newest_of_fits {capacity : Nat} {r : Reference Event} (fits : r.keys.length ≤ capacity) :
    r.newest capacity = r := by
  have length : r.rows.length ≤ capacity := by simpa [Table.keys] using fits
  refine Table.ext_rows ?_
  change r.rows.drop (r.rows.length - capacity) = r.rows
  rw [Nat.sub_eq_zero_of_le length, List.drop_zero]

theorem Reference.length_newest (capacity : Nat) (r : Reference Event) :
    (r.newest capacity).keys.length ≤ capacity := by
  simp only [Table.keys, newest, List.length_map, List.length_drop]
  omega

namespace LocalRelayStore

theorem evict_of_fits {capacity : Nat} {ids : List String} {events : Table String Event}
    (fits : ids.length ≤ capacity) :
    evict capacity ids events = (ids, events) := by
  cases ids with
  | nil => rfl
  | cons oldId rest => exact if_neg (Nat.not_lt.mpr fits)

theorem evict_newest (capacity : Nat) (r : Reference Event) {events : Table String Event} (alike : events.Alike r) :
    (evict capacity r.keys events).1 = (r.newest capacity).keys ∧
      (evict capacity r.keys events).2.Alike (r.newest capacity) := by
  obtain ⟨rows, nodup⟩ := r
  induction rows generalizing events with
  | nil =>
    rw [Reference.newest_of_fits (Nat.zero_le capacity)]
    exact ⟨rfl, alike⟩
  | cons row rest ih =>
    obtain ⟨oldId, old⟩ := row
    by_cases many : (oldId :: rest.map Prod.fst).length > capacity
    · have later := (List.nodup_cons.mp nodup).2
      have removed : (events.delete fun name _ => name = oldId).Alike ⟨rest, later⟩ := by
        intro id
        rw [Table.find?_delete_key]
        split
        · rename_i same
          rw [same]
          exact (Table.find?_eq_none.mpr (List.nodup_cons.mp nodup).1).symm
        · rename_i other
          have differs : (id == oldId) = false := beq_false_of_ne other
          rw [alike id]
          simp [Table.find?, List.lookup_cons, differs]
      have dropped :
          Reference.newest capacity ⟨(oldId, old) :: rest, nodup⟩ = Reference.newest capacity ⟨rest, later⟩ := by
        refine Table.ext_rows ?_
        change List.drop (rest.length + 1 - capacity) _ = List.drop (rest.length - capacity) rest
        rw [List.length_cons, List.length_map] at many
        rw [Nat.succ_sub (by omega), List.drop_succ_cons]
      have evicted : evict capacity (Table.keys ⟨(oldId, old) :: rest, nodup⟩) events =
          evict capacity (Table.keys ⟨rest, later⟩) (events.delete fun name _ => name = oldId) := if_pos many
      rw [evicted, dropped]
      exact ih later removed
    · have kept : evict capacity (Table.keys ⟨(oldId, old) :: rest, nodup⟩) events = (_, events) :=
        evict_of_fits (Nat.not_lt.mp many)
      rw [Reference.newest_of_fits (Nat.not_lt.mp many), kept]
      exact ⟨rfl, alike⟩

end LocalRelayStore

namespace Simulates

variable {nostr : Nostr Event Filter} {store : LocalRelayStore Event Filter} {capacity : Nat} {r : Reference Event}

theorem insert (simulates : Simulates store capacity r) (event : Event) :
    Simulates (store.insertEvent nostr event).1 capacity (r.insert capacity (nostr.id event) event) := by
  have upserted := simulates.events.upsert (nostr.id event) event fun _ => event
  unfold LocalRelayStore.insertEvent
  dsimp only
  cases known : store.events.find? (nostr.id event) with
  | some old =>
    have member : nostr.id event ∈ r.keys := Table.mem_keys_iff.mpr ⟨old, (simulates.events _).symm.trans known⟩
    have sameKeys := Table.keys_upsert_of_mem event (fun _ => event) member
    have same : r.insert capacity (nostr.id event) event = r.upsert (nostr.id event) event fun _ => event :=
      Reference.newest_of_fits (by rw [sameKeys]; exact simulates.fits)
    rw [same]
    exact ⟨by rw [sameKeys]; exact simulates.ids, upserted, simulates.capped, by rw [sameKeys]; exact simulates.fits⟩
  | none =>
    have fresh : nostr.id event ∉ r.keys := Table.find?_eq_none.mp ((simulates.events _).symm.trans known)
    have keys := Table.keys_upsert_of_not_mem event (fun _ => event) fresh
    rw [Option.isNone_none, if_pos rfl, simulates.ids, simulates.capped, ← keys]
    obtain ⟨ids, events⟩ := LocalRelayStore.evict_newest capacity _ upserted
    exact ⟨ids, events, rfl, Reference.length_newest _ _⟩

theorem step (simulates : Simulates store capacity r) (operation : Operation Event Filter) :
    Simulates (step nostr store operation) capacity (referenceStep nostr capacity r operation) := by
  cases operation with
  | subscribe subId filters => exact ⟨simulates.ids, simulates.events, simulates.capped, simulates.fits⟩
  | unsubscribe subId => exact ⟨simulates.ids, simulates.events, simulates.capped, simulates.fits⟩
  | insert event => exact simulates.insert event
  | clear => exact ⟨rfl, .refl _, simulates.capped, Nat.zero_le _⟩

theorem run (simulates : Simulates store capacity r) (operations : List (Operation Event Filter)) :
    Simulates (run (LocalStore.step nostr) store operations) capacity (run (referenceStep nostr capacity) r operations) := by
  induction operations generalizing store r with
  | nil => exact simulates
  | cons operation rest ih => exact ih (simulates.step operation)

end Simulates

theorem simulates_new (maxEvents : Nat) :
    Simulates (.new maxEvents : LocalRelayStore Event Filter) (max maxEvents 1) .empty :=
  ⟨rfl, .refl _, rfl, Nat.zero_le _⟩

section Query

variable (nostr : Nostr Event Filter) (events : Table String Event) (filter : Filter)

theorem collect_eq (limit : Nat) (ids : List String) (matched : List Event) (few : matched.length < max limit 1) :
    LocalRelayStore.collect nostr events filter limit ids matched =
      matched ++ ((ids.filterMap events.find?).filter (nostr.matchEvent filter)).take (max limit 1 - matched.length) := by
  induction ids generalizing matched with
  | nil => simp [LocalRelayStore.collect]
  | cons id rest ih =>
    rw [LocalRelayStore.collect]
    cases found : events.find? id with
    | none =>
      dsimp only
      rw [ih matched few, List.filterMap_cons_none found]
    | some ev =>
      dsimp only
      rw [List.filterMap_cons_some found]
      by_cases hit : nostr.matchEvent filter ev = true
      · rw [if_pos hit, List.filter_cons_of_pos hit]
        obtain ⟨left, room⟩ : ∃ left, max limit 1 - matched.length = left + 1 :=
          Nat.exists_eq_add_one.mpr (Nat.sub_pos_of_lt few)
        rw [room, List.take_succ_cons]
        split
        · rename_i full
          rw [List.length_append, List.length_singleton] at full
          rw [show left = 0 by omega, List.take_zero]
        · rename_i more
          rw [List.length_append, List.length_singleton] at more
          have later : (matched ++ [ev]).length = matched.length + 1 := by simp
          rw [ih _ (by omega), later, show max limit 1 - (matched.length + 1) = left by omega, List.append_assoc,
            List.singleton_append]
      · rw [if_neg hit, List.filter_cons_of_neg hit, ih matched few]

theorem query_eq : store.query nostr filter =
    ((store.recentIds.reverse.filterMap store.events.find?).filter (nostr.matchEvent filter)).take
      (max ((nostr.limit filter).getD 100) 1) := by
  rw [LocalRelayStore.query, collect_eq nostr store.events filter _ _ [] (by simp)]
  rfl

end Query

section Behaviour

variable {nostr : Nostr Event Filter} {store : LocalRelayStore Event Filter} {capacity : Nat} {r : Reference Event}

theorem Simulates.stored (simulates : Simulates store capacity r) :
    store.recentIds.reverse.filterMap store.events.find? = r.rows.reverse.map Prod.snd := by
  have each : ∀ row ∈ r.rows.reverse, store.events.find? row.1 = some row.2 := by
    intro row member
    rw [simulates.events, Table.find?_eq_some]
    exact List.mem_reverse.mp member
  rw [simulates.ids, Table.keys, ← List.map_reverse, List.filterMap_map]
  refine (List.filterMap_congr each).trans ?_
  exact congrFun (List.filterMap_eq_map (f := Prod.snd)) _

theorem Simulates.query_iff (simulates : Simulates store capacity r) (filter : Filter) :
    store.query nostr filter = r.query (nostr.matchEvent filter) ((nostr.limit filter).getD 100) ↔
      AsksForSome nostr store filter := by
  have none : (r.rows.reverse.map Prod.snd).filter (nostr.matchEvent filter) = [] ↔
      ∀ id ev, store.events.find? id = some ev → nostr.matchEvent filter ev = false := by
    rw [List.filter_eq_nil_iff]
    simp only [List.mem_map, List.mem_reverse, Bool.not_eq_true, simulates.events _, Table.find?_eq_some, Prod.exists,
      forall_exists_index, and_imp]
    constructor
    · exact fun all id ev member => all ev id ev member rfl
    · rintro all ev id _ member rfl
      exact all id _ member
  rw [query_eq, Reference.query, simulates.stored, AsksForSome, ← none]
  generalize (r.rows.reverse.map Prod.snd).filter (nostr.matchEvent filter) = found
  cases limit : nostr.limit filter with
  | none => simp
  | some count =>
    cases count with
    | zero =>
      simp only [Option.getD_some, Nat.zero_max, List.take_zero, ne_eq, not_true_eq_false, false_or]
      cases found with
      | nil => simp
      | cons ev rest => simp
    | succ count =>
      rw [Option.getD_some, Nat.max_eq_left (by omega)]
      simp

theorem Simulates.behavesAs_iff (simulates : Simulates store capacity r) (filter : Filter) :
    BehavesAs nostr store r filter ↔ AsksForSome nostr store filter := by
  rw [← simulates.query_iff]
  have known : ∀ id, id ∈ store.events.keys ↔ id ∈ r.keys := fun id => by
    rw [Table.mem_keys_iff, Table.mem_keys_iff, simulates.events]
  refine ⟨BehavesAs.query, fun query =>
    ⟨⟨?_, fun id => ?_⟩, ⟨?_, ?_⟩, ⟨simulates.ids, fun id => simulates.events _⟩, query⟩⟩
  · rw [simulates.ids]
    exact r.nodup
  · rw [simulates.ids, known]
  · have same : store.events.keys.Perm r.keys := (List.perm_ext_iff_of_nodup store.events.nodup r.nodup).mpr known
    rw [LocalRelayStore.eventCount, same.length_eq, simulates.capped]
    exact simulates.fits
  · rw [simulates.ids, simulates.capped]
    exact simulates.fits

end Behaviour

/-- After any operations the store behaves as the bounded list, exactly when the query asks for some event or finds none. -/
theorem local_store_iff (nostr : Nostr Event Filter) (maxEvents : Nat) (operations : List (Operation Event Filter))
    (filter : Filter) :
    BehavesAs nostr (run (step nostr) (.new maxEvents) operations)
        (run (referenceStep nostr (max maxEvents 1)) .empty operations) filter ↔
      AsksForSome nostr (run (step nostr) (.new maxEvents) operations) filter :=
  ((simulates_new maxEvents).run operations).behavesAs_iff filter

def named : Nostr String Nat := ⟨id, some, fun _ _ => true⟩

theorem limit_zero_returns_one :
    (run (step named) (.new 10) [.insert "a"]).query named 0 = ["a"] ∧
      ¬ BehavesAs named (run (step named) (.new 10) [.insert "a"])
        (run (referenceStep named 10) .empty [.insert "a"]) 0 := by
  have one : (run (step named) (.new 10) [.insert "a"]).query named 0 = ["a"] := by decide
  refine ⟨one, fun behaves => ?_⟩
  have query := behaves.query
  rw [one] at query
  cases query

end Soshal.Relay.LocalStore
