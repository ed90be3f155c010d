import Soshal.Library.Queued
import Soshal.Library.Since
import Soshal.Media.ChunkStore
import Mathlib.Data.Prod.Lex
import Mathlib.Data.String.Basic
import Mathlib.Data.Finset.Max

/-! The cache of the chunk store as it keeps a map and an ordered set of epochs.

Every use of a key gives it the next epoch, and the least epoch is evicted. The epoch
counter is a checked `u64`, so the process ends when it runs out.
-/

set_option autoImplicit false

namespace Soshal.Media.Cas

open Library (Since)

structure FifoCache (α : Type) where
  order : Finset (Nat ×ₗ String)
  map : Finmap fun _ : String => Nat × α
  cap : Nat
  nextEpoch : Nat

namespace FifoCache

variable {α : Type}

def withCap (cap : Nat) : FifoCache α := ⟨∅, ∅, cap, 0⟩

/-- `next_epoch += 1`; an overflow aborts. -/
def tick (cache : FifoCache α) : Option (FifoCache α) :=
  if cache.nextEpoch + 1 < 2 ^ 64 then some { cache with nextEpoch := cache.nextEpoch + 1 } else none

/-- A stored entry gets the current epoch, in the map and in the order. -/
def restamp (cache : FifoCache α) (key : String) (oldEpoch : Nat) (value : α) : FifoCache α :=
  { cache with
    map := cache.map.insert key (cache.nextEpoch, value)
    order := insert (toLex (cache.nextEpoch, key)) (cache.order.erase (toLex (oldEpoch, key))) }

def get (cache : FifoCache α) (key : String) : Option (FifoCache α × Option α) :=
  match cache.map.lookup key with
  | none => some (cache, none)
  | some (oldEpoch, val) => cache.tick.map fun cache => (cache.restamp key oldEpoch val, some val)

def popFirst (order : Finset (Nat ×ₗ String)) : Option (Nat ×ₗ String) :=
  if nonempty : order.Nonempty then some (order.min' nonempty) else none

def evictOldest (cache : FifoCache α) : FifoCache α :=
  if 0 < cache.cap ∧ cache.cap ≤ cache.map.keys.card then
    match popFirst cache.order with
    | none => cache
    | some oldest => { cache with order := cache.order.erase oldest, map := cache.map.erase (ofLex oldest).2 }
  else cache

def add (cache : FifoCache α) (key : String) (value : α) : FifoCache α :=
  { cache with
    order := insert (toLex (cache.nextEpoch, key)) cache.order
    map := cache.map.insert key (cache.nextEpoch, value) }

def put (cache : FifoCache α) (key : String) (value : α) : Option (FifoCache α) :=
  cache.tick.map fun cache =>
    match cache.map.lookup key with
    | some (oldEpoch, _) => cache.restamp key oldEpoch value
    | none => cache.evictOldest.add key value

def invalidate (cache : FifoCache α) (blobHash : String) : FifoCache α :=
  match cache.map.lookup blobHash with
  | none => cache
  | some (epoch, _) =>
    { cache with map := cache.map.erase blobHash, order := cache.order.erase (toLex (epoch, blobHash)) }

/-! ## The two structures -/

/-- The order holds exactly the epochs that the map gives to its keys, and no two keys share one. -/
structure Good (cache : FifoCache α) : Prop where
  listed : ∀ {epoch key}, toLex (epoch, key) ∈ cache.order ↔ ∃ value, cache.map.lookup key = some (epoch, value)
  distinct : ∀ {epoch first second v w}, cache.map.lookup first = some (epoch, v) →
    cache.map.lookup second = some (epoch, w) → first = second
  past : ∀ {epoch key value}, cache.map.lookup key = some (epoch, value) → epoch ≤ cache.nextEpoch
  bounded : 0 < cache.cap → cache.map.keys.card ≤ cache.cap

variable {cache after : FifoCache α}

theorem tick_eq_some : cache.tick = some after ↔
    cache.nextEpoch + 1 < 2 ^ 64 ∧ after = { cache with nextEpoch := cache.nextEpoch + 1 } := by
  unfold tick
  split
  · rename_i room
    rw [Option.some.injEq, and_iff_right room, eq_comm]
  · rename_i full
    exact iff_of_false (by simp) fun both => full both.1

def Fresh (cache : FifoCache α) : Prop :=
  ∀ ⦃epoch key value⦄, cache.map.lookup key = some (epoch, value) → epoch < cache.nextEpoch

theorem Good.tick (good : Good cache) (ticked : cache.tick = some after) : Good after ∧ Fresh after := by
  obtain ⟨-, rfl⟩ := tick_eq_some.mp ticked
  exact ⟨⟨good.listed, good.distinct, fun stored => (good.past stored).trans (Nat.le_succ _), good.bounded⟩,
    fun _ _ _ stored => Nat.lt_succ_of_le (good.past stored)⟩

theorem good_withCap (cap : Nat) : Good (withCap cap : FifoCache α) where
  listed {epoch key} := by simp [withCap]
  distinct {epoch first second v w} stored := by simp [withCap] at stored
  past {epoch key value} stored := by simp [withCap] at stored
  bounded _ := Nat.zero_le _

theorem lookup_restamp (key : String) (oldEpoch : Nat) (value : α) (other : String) :
    (cache.restamp key oldEpoch value).map.lookup other =
      if other = key then some (cache.nextEpoch, value) else cache.map.lookup other := Library.lookup_insert ..

theorem lookup_add (key : String) (value : α) (other : String) :
    (cache.add key value).map.lookup other =
      if other = key then some (cache.nextEpoch, value) else cache.map.lookup other := Library.lookup_insert ..

theorem distinct_of_insert (good : Good cache) (fresh : Fresh cache) {key first second : String} {value v w : α}
    {epoch : Nat} (one : (if first = key then some (cache.nextEpoch, value) else cache.map.lookup first) = some (epoch, v))
    (two : (if second = key then some (cache.nextEpoch, value) else cache.map.lookup second) = some (epoch, w)) :
    first = second := by
  split at one <;> split at two
  · simp_all
  · obtain ⟨rfl, -⟩ := Prod.mk.inj (Option.some.inj one)
    exact absurd (fresh two) (Nat.lt_irrefl _)
  · obtain ⟨rfl, -⟩ := Prod.mk.inj (Option.some.inj two)
    exact absurd (fresh one) (Nat.lt_irrefl _)
  · exact good.distinct one two

theorem past_of_insert (good : Good cache) {key other : String} {value found : α} {epoch : Nat}
    (stored : (if other = key then some (cache.nextEpoch, value) else cache.map.lookup other) = some (epoch, found)) :
    epoch ≤ cache.nextEpoch := by
  split at stored
  · exact (Prod.mk.inj (Option.some.inj stored)).1.ge
  · exact good.past stored

theorem Good.restamp (good : Good cache) (fresh : Fresh cache) {key : String} {oldEpoch : Nat} {old : α}
    (stored : cache.map.lookup key = some (oldEpoch, old)) (value : α) : Good (cache.restamp key oldEpoch value) where
  listed {epoch other} := by
    rw [lookup_restamp]
    show toLex (epoch, other) ∈ insert (toLex (cache.nextEpoch, key)) (cache.order.erase (toLex (oldEpoch, key))) ↔ _
    rw [Finset.mem_insert, Finset.mem_erase, good.listed, toLex_inj, Ne, toLex_inj, Prod.mk.injEq, Prod.mk.injEq]
    split
    · rename_i same
      subst same
      simp [stored, eq_comm]
    · rename_i ne
      simp [ne]
  distinct one two := distinct_of_insert good fresh (lookup_restamp .. ▸ one) (lookup_restamp .. ▸ two)
  past found := past_of_insert good (lookup_restamp .. ▸ found)
  bounded limited := by
    have present : key ∈ cache.map.keys := Library.mem_keys_iff_lookup.mpr ⟨_, stored⟩
    show (cache.map.insert key _).keys.card ≤ cache.cap
    rw [Library.keys_insert, Finset.insert_eq_self.mpr present]
    exact good.bounded limited

theorem Good.add (good : Good cache) (fresh : Fresh cache) {key : String} (absent : cache.map.lookup key = none)
    (space : 0 < cache.cap → cache.map.keys.card < cache.cap) (value : α) : Good (cache.add key value) where
  listed {epoch other} := by
    rw [lookup_add]
    show toLex (epoch, other) ∈ insert (toLex (cache.nextEpoch, key)) cache.order ↔ _
    rw [Finset.mem_insert, good.listed, toLex_inj, Prod.mk.injEq]
    split
    · rename_i same
      subst same
      simp [absent, eq_comm]
    · rename_i ne
      simp [ne]
  distinct one two := distinct_of_insert good fresh (lookup_add .. ▸ one) (lookup_add .. ▸ two)
  past found := past_of_insert good (lookup_add .. ▸ found)
  bounded limited := by
    show (cache.map.insert key _).keys.card ≤ cache.cap
    rw [Library.keys_insert]
    exact (Finset.card_insert_le ..).trans (space limited)

def drop (cache : FifoCache α) (epoch : Nat) (key : String) : FifoCache α :=
  { cache with order := cache.order.erase (toLex (epoch, key)), map := cache.map.erase key }

theorem lookup_drop (epoch : Nat) (key other : String) :
    (cache.drop epoch key).map.lookup other = if other = key then none else cache.map.lookup other :=
  Library.lookup_erase ..

theorem lookup_of_drop {epoch : Nat} {key other : String} {found : Nat × α}
    (stored : (cache.drop epoch key).map.lookup other = some found) : cache.map.lookup other = some found := by
  rw [lookup_drop] at stored
  split at stored
  · cases stored
  · exact stored

theorem card_drop {epoch : Nat} {key : String} {value : α} (stored : cache.map.lookup key = some (epoch, value)) :
    (cache.drop epoch key).map.keys.card + 1 = cache.map.keys.card := by
  have present : key ∈ cache.map.keys := Library.mem_keys_iff_lookup.mpr ⟨_, stored⟩
  show (cache.map.erase key).keys.card + 1 = _
  rw [Finmap.keys_erase, Finset.card_erase_add_one present]

theorem Good.drop (good : Good cache) {key : String} {epoch : Nat} {value : α}
    (stored : cache.map.lookup key = some (epoch, value)) : Good (cache.drop epoch key) where
  listed {stamp other} := by
    rw [lookup_drop]
    show toLex (stamp, other) ∈ cache.order.erase (toLex (epoch, key)) ↔ _
    rw [Finset.mem_erase, good.listed, Ne, toLex_inj, Prod.mk.injEq]
    split
    · rename_i same
      subst same
      simp [stored, eq_comm]
    · rename_i ne
      simp [ne]
  distinct one two := good.distinct (lookup_of_drop one) (lookup_of_drop two)
  past found := good.past (lookup_of_drop found)
  bounded limited := by
    have fewer := card_drop stored
    have bound := good.bounded limited
    show (cache.drop epoch key).map.keys.card ≤ cache.cap
    omega

theorem Good.evictOldest (good : Good cache) :
    (cache.evictOldest = cache ∧ (0 < cache.cap → cache.map.keys.card < cache.cap)) ∨
      ∃ epoch oldest value, cache.map.lookup oldest = some (epoch, value) ∧
        (∀ {stamp other found}, cache.map.lookup other = some (stamp, found) → epoch ≤ stamp) ∧
        cache.map.keys.card = cache.cap ∧ cache.evictOldest = cache.drop epoch oldest := by
  unfold FifoCache.evictOldest
  by_cases full : 0 < cache.cap ∧ cache.cap ≤ cache.map.keys.card
  · right
    rw [if_pos full]
    have held : 0 < cache.map.keys.card := full.1.trans_le full.2
    obtain ⟨key, present⟩ := Finset.card_pos.mp held
    obtain ⟨⟨stamp, found⟩, stored⟩ := Library.mem_keys_iff_lookup.mp present
    have nonempty : cache.order.Nonempty := ⟨_, good.listed.mpr ⟨found, stored⟩⟩
    have least := cache.order.min'_mem nonempty
    have below : ∀ entry ∈ cache.order, cache.order.min' nonempty ≤ entry := fun entry => cache.order.min'_le entry
    rw [popFirst, dif_pos nonempty]
    generalize cache.order.min' nonempty = first at least below
    obtain ⟨epoch, oldest⟩ := first
    obtain ⟨value, first⟩ := good.listed.mp least
    refine ⟨epoch, oldest, value, first, ?_, Nat.le_antisymm (good.bounded full.1) full.2, rfl⟩
    intro stamp other found stored
    have under := below _ (good.listed.mpr ⟨found, stored⟩)
    rcases Prod.Lex.le_iff.mp under with earlier | ⟨same, -⟩
    · exact Nat.le_of_lt earlier
    · exact Nat.le_of_eq same
  · left
    rw [if_neg full]
    exact ⟨rfl, fun limited => Nat.not_le.mp fun much => full ⟨limited, much⟩⟩

/-! ## What a call does to an entry -/

inductive Call (α : Type) where
  | get (key : String)
  | put (key : String) (value : α)
  | invalidate (key : String)

/-- `none` is the abort; the answer of a call that returns nothing is `none`. -/
def step (cache : FifoCache α) : Call α → Option (FifoCache α × Option α)
  | .get key => cache.get key
  | .put key value => (cache.put key value).map fun cache => (cache, none)
  | .invalidate key => some (cache.invalidate key, none)

def Uses (cache : FifoCache α) : Call α → String → Prop
  | .get key, used => used = key ∧ used ∈ cache.map.keys
  | .put key _, used => used = key
  | .invalidate _, _ => False

/-- A new key finds the cache full, and this one has the least epoch. -/
def Evicts (cache : FifoCache α) (call : Call α) (key : String) : Prop :=
  ∃ other value, call = .put other value ∧ cache.map.lookup other = none ∧ cache.map.keys.card = cache.cap ∧
    ∃ epoch held, cache.map.lookup key = some (epoch, held) ∧
      ∀ {stamp third found}, cache.map.lookup third = some (stamp, found) → epoch ≤ stamp

inductive Entry (cache : FifoCache α) (call : Call α) (after : FifoCache α) (key : String) : Prop where
  | used (value : α) (uses : cache.Uses call key)
      (stored : after.map.lookup key = some (cache.nextEpoch + 1, value))
      (origin : call = .put key value ∨ call = .get key ∧ ∃ epoch, cache.map.lookup key = some (epoch, value))
  | kept (unused : ¬ cache.Uses call key) (same : after.map.lookup key = cache.map.lookup key)
  | lost (unused : ¬ cache.Uses call key) (gone : after.map.lookup key = none)
      (cause : call = .invalidate key ∨ cache.Evicts call key)

/-- One call leaves a good cache, and says of each key what became of it. -/
structure Steps (cache : FifoCache α) (call : Call α) (after : FifoCache α) : Prop where
  good : Good after
  cap : after.cap = cache.cap
  clock : cache.nextEpoch ≤ after.nextEpoch ∧ after.nextEpoch ≤ cache.nextEpoch + 1
  entry : ∀ key, cache.Entry call after key

theorem Good.steps_get (good : Good cache) {key : String} {answer : Option α}
    (stepped : cache.get key = some (after, answer)) : cache.Steps (.get key) after := by
  unfold get at stepped
  cases lookup : cache.map.lookup key with
  | none =>
    rw [lookup] at stepped
    obtain ⟨rfl, -⟩ := Prod.mk.inj (Option.some.inj stepped)
    refine ⟨good, rfl, ⟨Nat.le_refl _, Nat.le_succ _⟩, fun other => .kept ?_ rfl⟩
    rintro ⟨rfl, present⟩
    exact Library.mem_keys_iff_lookup.mp present |>.elim fun value stored => absurd (lookup ▸ stored) (by simp)
  | some entry =>
    obtain ⟨oldEpoch, value⟩ := entry
    rw [lookup] at stepped
    obtain ⟨ticked, tick, same⟩ := Option.map_eq_some_iff.mp stepped
    obtain ⟨rfl, -⟩ := Prod.mk.inj same
    obtain ⟨stillGood, fresh⟩ := good.tick tick
    obtain ⟨-, rfl⟩ := tick_eq_some.mp tick
    refine ⟨stillGood.restamp fresh lookup value, rfl, ⟨Nat.le_succ _, Nat.le_refl _⟩, fun other => ?_⟩
    by_cases same : other = key
    · subst same
      refine .used value ⟨rfl, Library.mem_keys_iff_lookup.mpr ⟨_, lookup⟩⟩ ?_ (.inr ⟨rfl, oldEpoch, lookup⟩)
      rw [lookup_restamp, if_pos rfl]
    · refine .kept (fun uses => same uses.1) ?_
      rw [lookup_restamp, if_neg same]

theorem Good.steps_put (good : Good cache) {key : String} {value : α} (stepped : cache.put key value = some after) :
    cache.Steps (.put key value) after := by
  unfold put at stepped
  obtain ⟨ticked, tick, same⟩ := Option.map_eq_some_iff.mp stepped
  obtain ⟨stillGood, fresh⟩ := good.tick tick
  obtain ⟨-, rfl⟩ := tick_eq_some.mp tick
  cases lookup : cache.map.lookup key with
  | some entry =>
    obtain ⟨oldEpoch, old⟩ := entry
    simp only [lookup] at same
    subst same
    refine ⟨stillGood.restamp fresh lookup value, rfl, ⟨Nat.le_succ _, Nat.le_refl _⟩, fun other => ?_⟩
    by_cases same : other = key
    · subst same
      refine .used value rfl ?_ (.inl rfl)
      rw [lookup_restamp, if_pos rfl]
    · refine .kept same ?_
      rw [lookup_restamp, if_neg same]
  | none =>
    simp only [lookup] at same
    subst same
    rcases stillGood.evictOldest with ⟨unchanged, room⟩ | ⟨epoch, oldest, held, stored, least, full, evicted⟩
    · rw [unchanged]
      refine ⟨stillGood.add fresh lookup room value, rfl, ⟨Nat.le_succ _, Nat.le_refl _⟩, fun other => ?_⟩
      by_cases same : other = key
      · subst same
        refine .used value rfl ?_ (.inl rfl)
        rw [lookup_add, if_pos rfl]
      · refine .kept same ?_
        rw [lookup_add, if_neg same]
    · have fewer := card_drop stored
      have absent :
          (FifoCache.drop { cache with nextEpoch := cache.nextEpoch + 1 } epoch oldest).map.lookup key = none := by
        rw [lookup_drop]
        split
        · rfl
        · exact lookup
      have freshAfter : Fresh (FifoCache.drop { cache with nextEpoch := cache.nextEpoch + 1 } epoch oldest) :=
        fun _ _ _ stored => fresh (lookup_of_drop stored)
      rw [evicted]
      refine ⟨(stillGood.drop stored).add freshAfter absent (fun _ => ?_) value, rfl,
        ⟨Nat.le_succ _, Nat.le_refl _⟩, fun other => ?_⟩
      · show (FifoCache.drop { cache with nextEpoch := cache.nextEpoch + 1 } epoch oldest).map.keys.card < cache.cap
        have full : cache.map.keys.card = cache.cap := full
        rw [← full, ← fewer]
        exact Nat.lt_succ_self _
      by_cases same : other = key
      · subst same
        refine .used value rfl ?_ (.inl rfl)
        rw [lookup_add, if_pos rfl]
        rfl
      · by_cases first : other = oldest
        · subst first
          refine .lost same ?_ (.inr ⟨key, value, rfl, lookup, full, epoch, held, stored, least⟩)
          rw [lookup_add, if_neg same, lookup_drop, if_pos rfl]
        · refine .kept same ?_
          rw [lookup_add, if_neg same, lookup_drop, if_neg first]

theorem lookup_invalidate (cache : FifoCache α) (key : String) : (cache.invalidate key).map.lookup key = none := by
  unfold invalidate
  cases lookup : cache.map.lookup key with
  | none => exact lookup
  | some entry => exact (lookup_drop entry.1 key key).trans (if_pos rfl)

theorem Good.steps_invalidate (good : Good cache) (key : String) :
    cache.Steps (.invalidate key) (cache.invalidate key) := by
  unfold invalidate
  cases lookup : cache.map.lookup key with
  | none => exact ⟨good, rfl, ⟨Nat.le_refl _, Nat.le_succ _⟩, fun other => .kept id rfl⟩
  | some entry =>
    obtain ⟨epoch, value⟩ := entry
    refine ⟨good.drop lookup, rfl, ⟨Nat.le_refl _, Nat.le_succ _⟩, fun other => ?_⟩
    have looked : (cache.drop epoch key).map.lookup other = _ := lookup_drop epoch key other
    by_cases same : other = key
    · subst same
      exact .lost id (looked.trans (if_pos rfl)) (.inl rfl)
    · exact .kept id (looked.trans (if_neg same))

theorem Good.steps (good : Good cache) {call : Call α} {answer : Option α}
    (stepped : cache.step call = some (after, answer)) : cache.Steps call after := by
  cases call with
  | get key => exact good.steps_get stepped
  | put key value =>
    obtain ⟨_, put, same⟩ := Option.map_eq_some_iff.mp stepped
    obtain ⟨rfl, -⟩ := Prod.mk.inj same
    exact good.steps_put put
  | invalidate key =>
    obtain ⟨rfl, -⟩ := Prod.mk.inj (Option.some.inj stepped)
    exact good.steps_invalidate key

theorem step_isSome (call : Call α) (room : cache.nextEpoch + 1 < 2 ^ 64) : (cache.step call).isSome := by
  have ticks : cache.tick.isSome := by rw [tick, if_pos room, Option.isSome_some]
  cases call with
  | get key =>
    show (cache.get key).isSome
    unfold get
    split
    · rfl
    · rw [Option.isSome_map, ticks]
  | put key value => rw [step, put, Option.isSome_map, Option.isSome_map, ticks]
  | invalidate key => rfl

/-! ## Every sequence of calls -/

/-- The cache after a sequence of calls, unless the process aborted. -/
def reach (cap : Nat) (done : List (Call α)) : Option (FifoCache α) :=
  done.foldlM (fun cache call => (cache.step call).map Prod.fst) (withCap cap)

theorem reach_snoc {cap : Nat} {done : List (Call α)} {call : Call α} :
    reach cap (done ++ [call]) = (reach cap done).bind fun cache => (cache.step call).map Prod.fst := by
  simp [reach, List.foldlM_append]

theorem reach_snoc_eq_some {cap : Nat} {done : List (Call α)} {call : Call α} {next : FifoCache α} :
    reach cap (done ++ [call]) = some next ↔
      ∃ cache, reach cap done = some cache ∧ ∃ answer, cache.step call = some (next, answer) := by
  rw [reach_snoc, Option.bind_eq_some_iff]
  refine exists_congr fun cache => and_congr_right fun _ => ?_
  simp [Option.map_eq_some_iff]

def UsesAt (cap : Nat) (before : List (Call α)) (call : Call α) (key : String) : Prop :=
  ∃ cache, reach cap before = some cache ∧ cache.Uses call key

def LosesAt (cap : Nat) (before : List (Call α)) (call : Call α) (key : String) : Prop :=
  ∃ cache next, reach cap before = some cache ∧ reach cap (before ++ [call]) = some next ∧
    key ∈ cache.map.keys ∧ key ∉ next.map.keys

/-- `recent` was used after the last use of `key`. -/
def UsedSince (cap : Nat) (key recent : String) : List (Call α) → Prop :=
  Since (fun before call => UsesAt cap before call recent) fun before call => ¬ UsesAt cap before call key

/-- The value was inserted under the key, which was neither inserted again nor removed or lost since. -/
def LastInserted (cap : Nat) (key : String) (value : α) : List (Call α) → Prop :=
  Since (fun _ call => call = .put key value) fun before call =>
    (∀ other, call ≠ .put key other) ∧ call ≠ .invalidate key ∧ ¬ LosesAt cap before call key

structure Recorded (cap : Nat) (done : List (Call α)) (cache : FifoCache α) : Prop where
  good : Good cache
  limit : cache.cap = cap
  clock : cache.nextEpoch ≤ done.length
  ranked : ∀ {older newer first second v w}, cache.map.lookup first = some (older, v) →
    cache.map.lookup second = some (newer, w) → older < newer → UsedSince cap first second done
  held : ∀ {key value}, (∃ epoch, cache.map.lookup key = some (epoch, value)) ↔ LastInserted cap key value done

theorem recorded_nil (cap : Nat) : Recorded cap [] (withCap cap : FifoCache α) where
  good := good_withCap cap
  limit := rfl
  clock := Nat.le_refl _
  ranked stored := by simp [withCap] at stored
  held {key value} := iff_of_false (by simp [withCap]) Library.not_since_nil

section Step

variable {cap : Nat} {done : List (Call α)} {call : Call α} {next : FifoCache α}

theorem Entry.of_unused {key : String} (entry : cache.Entry call next key) (unused : ¬ cache.Uses call key)
    {found : Nat × α} (stored : next.map.lookup key = some found) : cache.map.lookup key = some found := by
  cases entry with
  | used value uses => exact absurd uses unused
  | kept _ same => exact same ▸ stored
  | lost _ gone => exact absurd (gone ▸ stored) (by simp)

theorem Recorded.ranked_step (recorded : Recorded cap done cache) (here : reach cap done = some cache)
    (steps : cache.Steps call next) {older newer : Nat} {first second : String} {v w : α}
    (one : next.map.lookup first = some (older, v)) (two : next.map.lookup second = some (newer, w))
    (less : older < newer) : UsedSince cap first second (done ++ [call]) := by
  -- the key with the newest epoch cannot be the older one
  have firstUnused : ¬ cache.Uses call first := by
    intro uses
    cases steps.entry first with
    | used value _ stored =>
      have stamp := (Prod.mk.inj (Option.some.inj (one.symm.trans stored))).1
      have late := (steps.good.past two).trans steps.clock.2
      omega
    | kept unused => exact unused uses
    | lost unused => exact unused uses
  have notUsed : ¬ UsesAt cap done call first := by
    rintro ⟨_, same, uses⟩
    exact firstUnused (Option.some.inj (here.symm.trans same) ▸ uses)
  rw [UsedSince, Library.since_snoc]
  by_cases secondUsed : cache.Uses call second
  · exact .inl ⟨cache, here, secondUsed⟩
  · have earlier := recorded.ranked ((steps.entry first).of_unused firstUnused one)
      ((steps.entry second).of_unused secondUsed two) less
    exact .inr ⟨earlier, notUsed⟩

theorem Recorded.held_step (recorded : Recorded cap done cache) (here : reach cap done = some cache)
    (there : reach cap (done ++ [call]) = some next) (steps : cache.Steps call next) {key : String} {value : α} :
    (∃ epoch, next.map.lookup key = some (epoch, value)) ↔ LastInserted cap key value (done ++ [call]) := by
  rw [LastInserted, Library.since_snoc]
  constructor
  · rintro ⟨epoch, stored⟩
    have present : key ∈ next.map.keys := Library.mem_keys_iff_lookup.mpr ⟨_, stored⟩
    have notLost : ¬ LosesAt cap done call key := by
      rintro ⟨_, _, -, same, -, absent⟩
      exact absent (Option.some.inj (there.symm.trans same) ▸ present)
    have notRemoved : call ≠ .invalidate key := by
      rintro rfl
      obtain ⟨_, -, _, stepped⟩ := reach_snoc_eq_some.mp there
      obtain ⟨rfl, -⟩ := Prod.mk.inj (Option.some.inj stepped)
      simp [lookup_invalidate] at stored
    have before : (∃ stamp, cache.map.lookup key = some (stamp, value)) → (∀ other, call ≠ .put key other) →
        call = .put key value ∨ LastInserted cap key value done ∧ (∀ other, call ≠ .put key other) ∧
          call ≠ .invalidate key ∧ ¬ LosesAt cap done call key :=
      fun found noPut => .inr ⟨recorded.held.mp found, noPut, notRemoved, notLost⟩
    cases steps.entry key with
    | used found uses now origin =>
      obtain ⟨-, rfl⟩ := Prod.mk.inj (Option.some.inj (stored.symm.trans now))
      rcases origin with put | ⟨rfl, found⟩
      · exact .inl put
      · exact before found (by simp)
    | kept unused same =>
      exact before ⟨epoch, same ▸ stored⟩ fun other put => unused (put ▸ rfl)
    | lost unused gone => exact absurd (gone ▸ stored) (by simp)
  · rintro (rfl | ⟨earlier, noPut, -, notLost⟩)
    · cases steps.entry key with
      | used found uses stored origin =>
        rcases origin with put | ⟨get, -⟩
        · obtain ⟨-, rfl⟩ := Call.put.inj put
          exact ⟨_, stored⟩
        · cases get
      | kept unused => exact absurd rfl unused
      | lost unused => exact absurd rfl unused
    · obtain ⟨epoch, stored⟩ := recorded.held.mpr earlier
      cases steps.entry key with
      | used found uses now origin =>
        rcases origin with put | ⟨-, stamp, same⟩
        · exact absurd put (noPut found)
        · obtain ⟨-, rfl⟩ := Prod.mk.inj (Option.some.inj (stored.symm.trans same))
          exact ⟨_, now⟩
      | kept unused same => exact ⟨epoch, same ▸ stored⟩
      | lost unused gone =>
        refine absurd ⟨cache, next, here, there, Library.mem_keys_iff_lookup.mpr ⟨_, stored⟩, ?_⟩ notLost
        rw [Library.mem_keys_iff_lookup]
        simp [gone]

theorem Recorded.step (recorded : Recorded cap done cache) (here : reach cap done = some cache)
    (there : reach cap (done ++ [call]) = some next) (steps : cache.Steps call next) :
    Recorded cap (done ++ [call]) next where
  good := steps.good
  limit := steps.cap.trans recorded.limit
  clock := by
    rw [List.length_append, List.length_singleton]
    exact steps.clock.2.trans (Nat.succ_le_succ recorded.clock)
  ranked := recorded.ranked_step here steps
  held := recorded.held_step here there steps

end Step

theorem recorded_reach {cap : Nat} {done : List (Call α)} (reached : reach cap done = some cache) :
    Recorded cap done cache := by
  induction done using List.reverseRecOn generalizing cache with
  | nil =>
    obtain rfl := Option.some.inj reached
    exact recorded_nil cap
  | append_singleton done call ih =>
    obtain ⟨before, here, answer, stepped⟩ := reach_snoc_eq_some.mp reached
    exact (ih here).step here reached ((ih here).good.steps stepped)

/-- The epochs last for `2 ^ 64 - 1` uses. -/
theorem reach_isSome {cap : Nat} {done : List (Call α)} (few : done.length < 2 ^ 64) :
    ∃ cache : FifoCache α, reach cap done = some cache := by
  induction done using List.reverseRecOn with
  | nil => exact ⟨_, rfl⟩
  | append_singleton done call ih =>
    rw [List.length_append, List.length_singleton] at few
    obtain ⟨cache, here⟩ := ih (by omega)
    have clock := (recorded_reach here).clock
    have steps : (cache.step call).isSome := step_isSome call (by omega)
    obtain ⟨⟨next, answer⟩, stepped⟩ := Option.isSome_iff_exists.mp steps
    exact ⟨next, reach_snoc_eq_some.mpr ⟨cache, here, answer, stepped⟩⟩

theorem Good.image_order (good : Good cache) : (cache.order.image fun entry => (ofLex entry).2) = cache.map.keys := by
  ext key
  rw [Finset.mem_image, Library.mem_keys_iff_lookup]
  constructor
  · rintro ⟨⟨epoch, _⟩, member, rfl⟩
    obtain ⟨value, stored⟩ := good.listed.mp member
    exact ⟨_, stored⟩
  · rintro ⟨⟨epoch, value⟩, stored⟩
    exact ⟨toLex (epoch, key), good.listed.mpr ⟨value, stored⟩, rfl⟩

theorem Good.card_order (good : Good cache) : cache.order.card = cache.map.keys.card := by
  rw [← good.image_order, Finset.card_image_of_injOn]
  rintro ⟨first, key⟩ one ⟨second, _⟩ two rfl
  obtain ⟨v, stored⟩ := good.listed.mp one
  obtain ⟨w, again⟩ := good.listed.mp two
  have same := (Prod.mk.inj (Option.some.inj (stored.symm.trans again))).1
  exact congrArg (fun epoch => toLex (epoch, key)) same

/-- One key set without repetition, the capacity (a capacity of zero is none), the least recently
used key as the only one that an insertion evicts, and the value last inserted as what a get finds. -/
theorem fifoCache_lru (cap : Nat) (done : List (Call α)) :
    (done.length < 2 ^ 64 → ∃ cache : FifoCache α, reach cap done = some cache) ∧
      ∀ cache, reach cap done = some cache →
        ((cache.order.image fun entry => (ofLex entry).2) = cache.map.keys ∧
          cache.order.card = cache.map.keys.card) ∧
        (0 < cap → cache.map.keys.card ≤ cap) ∧
        (∀ call key, LosesAt cap done call key → call = .invalidate key ∨
          ∃ other value, call = .put other value ∧ other ∉ cache.map.keys ∧ cache.map.keys.card = cap ∧
            ∀ third ∈ cache.map.keys, third ≠ key → UsedSince cap key third done) ∧
        ∀ key next answer, cache.get key = some (next, answer) →
          ∀ value, answer = some value ↔ LastInserted cap key value done := by
  refine ⟨reach_isSome, fun cache here => ?_⟩
  have recorded := recorded_reach here
  refine ⟨⟨recorded.good.image_order, recorded.good.card_order⟩, ?_, ?_, ?_⟩
  · intro limited
    rw [← recorded.limit]
    exact recorded.good.bounded (recorded.limit ▸ limited)
  · rintro call key ⟨same, next, here', there, present, absent⟩
    obtain rfl := Option.some.inj (here.symm.trans here')
    obtain ⟨same, here', answer, stepped⟩ := reach_snoc_eq_some.mp there
    obtain rfl := Option.some.inj (here.symm.trans here')
    obtain ⟨found, stored⟩ := Library.mem_keys_iff_lookup.mp present
    have gone : ∀ found, next.map.lookup key ≠ some found := fun found still =>
      absent (Library.mem_keys_iff_lookup.mpr ⟨found, still⟩)
    cases (recorded.good.steps stepped).entry key with
    | used value uses now => exact absurd now (gone _)
    | kept unused same => exact absurd (same.trans stored) (gone _)
    | lost unused _ cause =>
      refine cause.imp id ?_
      rintro ⟨other, value, put, fresh, full, epoch, held, oldest, least⟩
      refine ⟨other, value, put, ?_, full.trans recorded.limit, fun third inside ne => ?_⟩
      · rw [Library.mem_keys_iff_lookup, fresh]
        simp
      · obtain ⟨⟨stamp, kept⟩, stored⟩ := Library.mem_keys_iff_lookup.mp inside
        -- no two keys share an epoch, so the least one is strictly below
        have older : epoch < stamp := Nat.lt_of_le_of_ne (least stored) fun same =>
          ne (recorded.good.distinct (same ▸ stored) oldest)
        exact recorded.ranked oldest stored older
  · intro key next answer got value
    rw [← recorded.held]
    unfold get at got
    cases lookup : cache.map.lookup key with
    | none =>
      rw [lookup] at got
      obtain ⟨-, rfl⟩ := Prod.mk.inj (Option.some.inj got)
      simp
    | some entry =>
      obtain ⟨epoch, held⟩ := entry
      rw [lookup] at got
      obtain ⟨_, -, same⟩ := Option.map_eq_some_iff.mp got
      obtain ⟨-, rfl⟩ := Prod.mk.inj same
      simp

/-! ## The list in the order of last use -/

/-- The entries of the map with their epochs, by rising epoch. -/
structure Stamped (cache : FifoCache α) (rows : List (Nat × String × α)) : Prop where
  rising : rows.Pairwise fun first second => first.1 < second.1
  mem : ∀ {epoch key value}, (epoch, key, value) ∈ rows ↔ cache.map.lookup key = some (epoch, value)

/-- The list holds what the map holds, in the order of the epochs. -/
structure Follows (cache : FifoCache α) (list : Media.FifoCache α) : Prop where
  cap : list.cap = cache.cap
  stamped : ∃ rows, list.entries = rows.map Prod.snd ∧ Stamped cache rows

variable {rows : List (Nat × String × α)} {list : Media.FifoCache α}

theorem Stamped.epoch_inj (stamped : Stamped cache rows) {first second : Nat × String × α} (one : first ∈ rows)
    (two : second ∈ rows) (same : first.2.1 = second.2.1) : first = second := by
  obtain ⟨epoch, key, value⟩ := first
  obtain ⟨stamp, _, found⟩ := second
  obtain rfl : key = _ := same
  obtain ⟨rfl, rfl⟩ := Prod.mk.inj (Option.some.inj ((stamped.mem.mp one).symm.trans (stamped.mem.mp two)))
  rfl

theorem Stamped.nodup_keys (stamped : Stamped cache rows) : (rows.map fun row => row.2.1).Nodup := by
  refine List.Nodup.map_on (fun _ one _ two same => stamped.epoch_inj one two same) ?_
  exact stamped.rising.imp fun less same => absurd (same ▸ less) (Nat.lt_irrefl _)

theorem Stamped.length (stamped : Stamped cache rows) : rows.length = cache.map.keys.card := by
  have queued : Library.Queued (rows.map fun row => row.2.1) cache.map.keys := by
    refine ⟨stamped.nodup_keys, ?_⟩
    ext key
    rw [List.mem_toFinset, List.mem_map, Library.mem_keys_iff_lookup]
    constructor
    · rintro ⟨⟨epoch, _, value⟩, member, rfl⟩
      exact ⟨_, stamped.mem.mp member⟩
    · rintro ⟨⟨epoch, value⟩, stored⟩
      exact ⟨(epoch, key, value), stamped.mem.mpr stored, rfl⟩
  rw [← queued.length, List.length_map]

theorem Stamped.remove (stamped : Stamped cache rows) (key : String)
    (lookups : ∀ other, after.map.lookup other = if other = key then none else cache.map.lookup other) :
    Stamped after (rows.filter fun row => decide (row.2.1 ≠ key)) where
  rising := stamped.rising.filter _
  mem {epoch other value} := by
    rw [List.mem_filter, stamped.mem, lookups]
    split <;> simp_all

theorem Stamped.refresh (stamped : Stamped cache rows) (fresh : Fresh cache) (key : String) (value : α)
    (lookups : ∀ other, after.map.lookup other =
      if other = key then some (cache.nextEpoch, value) else cache.map.lookup other) :
    Stamped after ((rows.filter fun row => decide (row.2.1 ≠ key)) ++ [(cache.nextEpoch, key, value)]) where
  rising := by
    rw [List.pairwise_append]
    refine ⟨stamped.rising.filter _, List.pairwise_singleton _ _, ?_⟩
    rintro ⟨epoch, other, held⟩ member last final
    rw [List.mem_singleton.mp final]
    exact fresh (stamped.mem.mp (List.mem_of_mem_filter member))
  mem {epoch other found} := by
    rw [List.mem_append, List.mem_filter, List.mem_singleton, stamped.mem, lookups]
    split
    · rename_i same
      subst same
      simp [eq_comm]
    · rename_i ne
      simp [ne]

theorem filter_entries (entries : List (Nat × String × α)) (key : String) :
    (entries.map Prod.snd).filter (·.1 ≠ key) = (entries.filter fun row => decide (row.2.1 ≠ key)).map Prod.snd := by
  rw [List.filter_map]
  rfl

theorem Stamped.find (stamped : Stamped cache rows) (key : String) :
    (rows.map Prod.snd).find? (·.1 = key) = (cache.map.lookup key).map fun entry => (key, entry.2) := by
  cases lookup : cache.map.lookup key with
  | none =>
    refine List.find?_eq_none.mpr fun row member named => ?_
    obtain ⟨⟨epoch, other, value⟩, inside, rfl⟩ := List.mem_map.mp member
    obtain rfl : other = key := by simpa using named
    exact absurd ((stamped.mem.mp inside).symm.trans lookup) (by simp)
  | some entry =>
    obtain ⟨epoch, value⟩ := entry
    have member := stamped.mem.mpr lookup
    cases search : (rows.map Prod.snd).find? (·.1 = key) with
    | none => exact absurd (List.find?_eq_none.mp search _ (List.mem_map_of_mem member)) (by simp)
    | some found =>
      obtain ⟨row, inside, rfl⟩ := List.mem_map.mp (List.mem_of_find?_eq_some search)
      have named : row.2.1 = key := by simpa using List.find?_some search
      rw [stamped.epoch_inj inside member named]
      rfl

theorem Stamped.tail (stamped : Stamped cache rows) {epoch : Nat} {oldest : String} {value : α}
    (stored : cache.map.lookup oldest = some (epoch, value))
    (least : ∀ {stamp other found}, cache.map.lookup other = some (stamp, found) → epoch ≤ stamp) :
    rows.tail = rows.filter fun row => decide (row.2.1 ≠ oldest) := by
  have member := stamped.mem.mpr stored
  have nodup := stamped.nodup_keys
  cases rows with
  | nil => cases member
  | cons row rest =>
    obtain ⟨stamp, other, found⟩ := row
    have first := least (stamped.mem.mp (List.mem_cons_self ..))
    rcases List.mem_cons.mp member with same | later
    · obtain ⟨rfl, rfl, rfl⟩ : epoch = stamp ∧ oldest = other ∧ value = found := by simpa using same
      have others : ∀ row ∈ rest, decide (row.2.1 ≠ oldest) = true := fun row inside =>
        decide_eq_true fun same => (List.nodup_cons.mp nodup).1 (List.mem_map.mpr ⟨row, inside, same⟩)
      rw [List.tail_cons, List.filter_cons_of_neg (by simp), List.filter_eq_self.mpr others]
    · exact absurd ((List.pairwise_cons.mp stamped.rising).1 _ later) (Nat.not_lt.mpr first)

theorem Stamped.tick (stamped : Stamped cache rows) (ticked : cache.tick = some after) : Stamped after rows := by
  obtain ⟨-, rfl⟩ := tick_eq_some.mp ticked
  exact ⟨stamped.rising, stamped.mem⟩

theorem Follows.get (follows : Follows cache list) (good : Good cache) {key : String} {answer : Option α}
    (stepped : cache.get key = some (after, answer)) :
    Follows after (list.get key).1 ∧ answer = (list.get key).2 := by
  obtain ⟨rows, entries, stamped⟩ := follows.stamped
  unfold FifoCache.get at stepped
  rw [Media.FifoCache.get, entries, stamped.find]
  cases lookup : cache.map.lookup key with
  | none =>
    rw [lookup] at stepped
    obtain ⟨rfl, rfl⟩ := Prod.mk.inj (Option.some.inj stepped)
    exact ⟨follows, rfl⟩
  | some entry =>
    obtain ⟨oldEpoch, value⟩ := entry
    rw [lookup] at stepped
    obtain ⟨ticked, tick, same⟩ := Option.map_eq_some_iff.mp stepped
    obtain ⟨rfl, rfl⟩ := Prod.mk.inj same
    have fresh := (good.tick tick).2
    have restamped := (stamped.tick tick).refresh fresh key value fun other => lookup_restamp key oldEpoch value other
    refine ⟨⟨?_, _, ?_, restamped⟩, rfl⟩
    · obtain ⟨-, rfl⟩ := tick_eq_some.mp tick
      exact follows.cap
    · rw [List.map_append, ← filter_entries]
      rfl

theorem Stamped.any (stamped : Stamped cache rows) (key : String) :
    (rows.map Prod.snd).any (·.1 = key) = (cache.map.lookup key).isSome := by
  have found := congrArg Option.isSome (stamped.find key)
  rw [Option.isSome_map] at found
  rw [← found, Bool.eq_iff_iff, List.find?_isSome, List.any_eq_true]

theorem Stamped.filter_absent (stamped : Stamped cache rows) {key : String} (absent : cache.map.lookup key = none) :
    rows.filter (fun row => decide (row.2.1 ≠ key)) = rows := by
  refine List.filter_eq_self.mpr fun row member => decide_eq_true fun same => ?_
  obtain ⟨epoch, _, found⟩ := row
  obtain rfl : _ = key := same
  exact absurd ((stamped.mem.mp member).symm.trans absent) (by simp)

theorem Follows.add (stamped : Stamped cache rows) (fresh : Fresh cache) {key : String} {value : α}
    (absent : cache.map.lookup key = none) (cap : list.cap = cache.cap)
    (entries : list.entries = rows.map Prod.snd ++ [(key, value)]) : Follows (cache.add key value) list := by
  refine ⟨cap, _, ?_, stamped.refresh fresh key value fun other => lookup_add key value other⟩
  rw [stamped.filter_absent absent, entries, List.map_append, List.map_singleton]

theorem Follows.put (follows : Follows cache list) (good : Good cache) {key : String} {value : α}
    (stepped : cache.put key value = some after) : Follows after (list.put key value) := by
  obtain ⟨rows, entries, stamped⟩ := follows.stamped
  obtain ⟨ticked, tick, same⟩ := Option.map_eq_some_iff.mp stepped
  obtain ⟨stillGood, fresh⟩ := good.tick tick
  have stampedNow := stamped.tick tick
  obtain ⟨-, rfl⟩ := tick_eq_some.mp tick
  rw [Media.FifoCache.put, entries, stamped.any, follows.cap, List.length_map, stamped.length]
  cases lookup : cache.map.lookup key with
  | some entry =>
    obtain ⟨oldEpoch, old⟩ := entry
    simp only [lookup] at same
    subst same
    rw [Option.isSome_some, if_pos rfl]
    refine ⟨rfl, _, ?_, stampedNow.refresh fresh key value fun other => lookup_restamp key oldEpoch value other⟩
    rw [List.map_append, ← filter_entries]
    rfl
  | none =>
    simp only [lookup] at same
    subst same
    rw [Option.isSome_none, if_neg Bool.false_ne_true]
    rcases stillGood.evictOldest with ⟨unchanged, room⟩ | ⟨epoch, oldest, held, stored, least, full, evicted⟩
    · have space : ¬ (0 < cache.cap ∧ cache.cap ≤ cache.map.keys.card) := fun both =>
        absurd both.2 (Nat.not_le.mpr (room both.1))
      rw [unchanged, if_neg space]
      exact Follows.add stampedNow fresh lookup rfl rfl
    · have present : oldest ∈ cache.map.keys := Library.mem_keys_iff_lookup.mpr ⟨_, stored⟩
      have crowded : 0 < cache.cap ∧ cache.cap ≤ cache.map.keys.card :=
        ⟨full ▸ Finset.card_pos.mpr ⟨_, present⟩, full.ge⟩
      rw [evicted, if_pos crowded]
      refine Follows.add (stampedNow.remove oldest fun other => lookup_drop epoch oldest other) ?_ ?_ rfl ?_
      · exact fun _ _ _ kept => fresh (lookup_of_drop kept)
      · rw [lookup_drop]
        split
        · rfl
        · exact lookup
      · rw [← stampedNow.tail stored least, List.map_tail]

theorem Follows.invalidate (follows : Follows cache list) (key : String) :
    Follows (cache.invalidate key) (list.invalidate key) := by
  obtain ⟨rows, entries, stamped⟩ := follows.stamped
  rw [Media.FifoCache.invalidate, entries, filter_entries]
  unfold FifoCache.invalidate
  cases lookup : cache.map.lookup key with
  | none =>
    refine ⟨follows.cap, rows, ?_, stamped⟩
    rw [stamped.filter_absent lookup]
  | some entry =>
    obtain ⟨epoch, value⟩ := entry
    exact ⟨follows.cap, _, rfl, stamped.remove key fun other => lookup_drop epoch key other⟩

def listStep (list : Media.FifoCache α) : Call α → Media.FifoCache α × Option α
  | .get key => list.get key
  | .put key value => (list.put key value, none)
  | .invalidate key => (list.invalidate key, none)

theorem Follows.step (follows : Follows cache list) (good : Good cache) {call : Call α} {answer : Option α}
    (stepped : cache.step call = some (after, answer)) :
    Follows after (listStep list call).1 ∧ answer = (listStep list call).2 := by
  cases call with
  | get key => exact follows.get good stepped
  | put key value =>
    obtain ⟨_, put, same⟩ := Option.map_eq_some_iff.mp stepped
    obtain ⟨rfl, rfl⟩ := Prod.mk.inj same
    exact ⟨follows.put good put, rfl⟩
  | invalidate key =>
    obtain ⟨rfl, rfl⟩ := Prod.mk.inj (Option.some.inj stepped)
    exact ⟨follows.invalidate key, rfl⟩

theorem follows_reach {cap : Nat} {done : List (Call α)} (reached : reach cap done = some cache) :
    Follows cache (done.foldl (fun list call => (listStep list call).1) ⟨cap, []⟩) := by
  induction done using List.reverseRecOn generalizing cache with
  | nil =>
    obtain rfl := Option.some.inj reached
    exact ⟨rfl, [], rfl, List.Pairwise.nil, by simp [withCap]⟩
  | append_singleton done call ih =>
    obtain ⟨before, here, answer, stepped⟩ := reach_snoc_eq_some.mp reached
    rw [List.foldl_append]
    exact ((ih here).step (recorded_reach here).good stepped).1

theorem follows_reach_three :
    ∃ cache : FifoCache Nat, reach 1 [.put "a" 1, .put "b" 2, .get "a"] = some cache ∧
      Follows cache ([Call.put "a" 1, .put "b" 2, .get "a"].foldl (fun list call => (listStep list call).1) ⟨1, []⟩) := by
  obtain ⟨cache, reached⟩ := @reach_isSome Nat 1 [.put "a" 1, .put "b" 2, .get "a"] (by decide)
  exact ⟨cache, reached, follows_reach reached⟩

end FifoCache

end Soshal.Media.Cas
