import Soshal.Library.Runs
import Soshal.Nostr.VerifiedCache

/-! How many keys the two generations of the verified-event cache hold.

An insertion turns the generations over when the current one is full. A hit in the
old generation is copied into the current one without looking at its size, so the
bound depends on whether hits come while there is room.
-/

set_option autoImplicit false

namespace Soshal.Nostr

open Library.Runs (run Always Throughout always_of_throughout always_iff)

/-- `max_cache_capacity`, by target platform. -/
def maxCacheCapacity (android : Bool) : Nat := if android then 10000 else 50000

/-- The entries of both generations; a key that was promoted counts in each. -/
def entryCount : Option VerifiedCache → Nat
  | none => 0
  | some cache => cache.current.card + cache.previous.card

theorem card_held_le (guard : Option VerifiedCache) : (held guard).card ≤ entryCount guard := by
  cases guard with
  | none => exact Nat.le_refl _
  | some cache => exact Finset.card_union_le _ _

def HalfFull (maxCap : Nat) (guard : Option VerifiedCache) : Prop :=
  ∀ cache ∈ guard, cache.current.card ≤ halfCap maxCap ∧ cache.previous.card ≤ halfCap maxCap

variable (prims : Primitives) (maxCap : Nat)

/-- A key that is answered from the old generation finds room in the current one. -/
def PromotesWithRoom (guard : Option VerifiedCache) : CacheOp → Prop
  | .clear => True
  | .verify e => ∀ cache ∈ guard, computeVerifyCacheKey prims e ∈ cache.previous →
      computeVerifyCacheKey prims e ∉ cache.current → cache.current.card < halfCap maxCap

variable {prims maxCap} {guard : Option VerifiedCache} {cache : VerifiedCache}

theorem HalfFull.entryCount_le (halves : HalfFull maxCap guard) (large : 1024 ≤ maxCap) : entryCount guard ≤ maxCap := by
  cases guard with
  | none => exact Nat.zero_le _
  | some cache =>
    obtain ⟨current, previous⟩ := halves cache rfl
    rw [halfCap] at current previous
    show cache.current.card + cache.previous.card ≤ maxCap
    omega

theorem card_insert_of_room {key : Vector UInt8 32} {keys : Finset (Vector UInt8 32)} {bound : Nat}
    (room : keys.card < bound) : (insert key keys).card ≤ bound := (Finset.card_insert_le ..).trans room

theorem HalfFull.remember (halves : HalfFull maxCap guard) (key : Vector UInt8 32) :
    HalfFull maxCap (some (remember maxCap guard key)) := by
  have positive : 0 < halfCap maxCap := lt_of_lt_of_le (by decide) (Nat.le_max_right _ _)
  have start : HalfFull maxCap (some (guard.getD (.withCapacity maxCap))) := by
    cases guard with
    | none => rintro _ ⟨⟩; exact ⟨Nat.zero_le _, Nat.zero_le _⟩
    | some cache => exact halves
  obtain ⟨current, previous⟩ := start _ rfl
  rintro _ ⟨⟩
  unfold Nostr.remember
  by_cases full : halfCap maxCap ≤ (guard.getD (.withCapacity maxCap)).current.card
  · simp only [if_pos full]
    exact ⟨card_insert_of_room positive, current⟩
  · simp only [if_neg full]
    exact ⟨card_insert_of_room (Nat.not_le.mp full), previous⟩

theorem HalfFull.cacheStep (halves : HalfFull maxCap guard) (op : CacheOp)
    (room : PromotesWithRoom prims maxCap guard op) : HalfFull maxCap (cacheStep prims maxCap guard op) := by
  cases op with
  | clear => rintro _ ⟨⟩
  | verify e =>
    unfold Nostr.cacheStep verifyEvent
    cases guard with
    | none =>
      dsimp only
      split
      · exact HalfFull.remember (by rintro _ ⟨⟩) _
      · rintro _ ⟨⟩
    | some cache =>
      obtain ⟨current, previous⟩ := halves cache rfl
      dsimp only
      split
      · exact halves
      · rename_i fresh
        split
        · rename_i old
          rintro _ ⟨⟩
          exact ⟨card_insert_of_room (room cache rfl old fresh), previous⟩
        · split
          · exact halves.remember _
          · exact halves

theorem halfFull_none : HalfFull maxCap none := by rintro _ ⟨⟩

theorem run_eq_cacheAfter (ops : List CacheOp) :
    run (cacheStep prims maxCap) none ops = cacheAfter prims maxCap ops := rfl

/-- The keys of the cache always come from events that verified, and while every promotion finds
room the two generations together stay within the capacity. -/
theorem verifiedCache_bounded (prims : Primitives) (android : Bool) (ops : List CacheOp)
    (room : Throughout (cacheStep prims (maxCacheCapacity android)) (PromotesWithRoom prims (maxCacheCapacity android))
      none ops) :
    ∀ done rest, ops = done ++ rest →
      entryCount (cacheAfter prims (maxCacheCapacity android) done) ≤ maxCacheCapacity android ∧
      (held (cacheAfter prims (maxCacheCapacity android) done)).card ≤ maxCacheCapacity android ∧
      ∀ key ∈ held (cacheAfter prims (maxCacheCapacity android) done),
        ∃ e, .verify e ∈ done ∧ e.verify prims = true ∧ computeVerifyCacheKey prims e = key := by
  intro done rest split
  have large : 1024 ≤ maxCacheCapacity android := by cases android <;> decide
  have halves : Always (cacheStep prims (maxCacheCapacity android)) (HalfFull (maxCacheCapacity android)) none ops :=
    always_of_throughout (fun guard op halves met => halves.cacheStep op met) halfFull_none room
  have small := (always_iff.mp halves done rest split).entryCount_le large
  exact ⟨small, (card_held_le _).trans small, fun key member => held_cacheAfter prims _ done member⟩

/-- Events that verify, with keys that differ from each other and from those of the cache. -/
structure FreshEvents (prims : Primitives) (cache : VerifiedCache) (events : List Event) : Prop where
  valid : ∀ e ∈ events, e.verify prims = true
  nodup : (events.map (computeVerifyCacheKey prims)).Nodup
  current : ∀ e ∈ events, computeVerifyCacheKey prims e ∉ cache.current
  previous : ∀ e ∈ events, computeVerifyCacheKey prims e ∉ cache.previous

def keysOf (prims : Primitives) (events : List Event) : Finset (Vector UInt8 32) :=
  (events.map (computeVerifyCacheKey prims)).toFinset

theorem card_keysOf {events : List Event} (nodup : (events.map (computeVerifyCacheKey prims)).Nodup) :
    (keysOf prims events).card = events.length := by
  rw [keysOf, List.toFinset_card_of_nodup nodup, List.length_map]

theorem cacheStep_fresh {e : Event} (valid : e.verify prims = true)
    (current : computeVerifyCacheKey prims e ∉ cache.current)
    (previous : computeVerifyCacheKey prims e ∉ cache.previous) :
    cacheStep prims maxCap (some cache) (.verify e) =
      some (remember maxCap (some cache) (computeVerifyCacheKey prims e)) := by
  simp [cacheStep, verifyEvent, current, previous, valid]

theorem run_fill {events : List Event} (fresh : FreshEvents prims cache events)
    (room : cache.current.card + events.length ≤ halfCap maxCap) :
    run (cacheStep prims maxCap) (some cache) (events.map .verify) =
      some { cache with current := cache.current ∪ keysOf prims events } := by
  induction events generalizing cache with
  | nil => simp [run, keysOf]
  | cons e rest ih =>
    have absent := fresh.current e (List.mem_cons_self ..)
    rw [List.length_cons] at room
    have space : ¬ halfCap maxCap ≤ cache.current.card := by omega
    have inserted : cacheStep prims maxCap (some cache) (.verify e) =
        some { cache with current := insert (computeVerifyCacheKey prims e) cache.current } := by
      rw [cacheStep_fresh (fresh.valid e (List.mem_cons_self ..)) absent (fresh.previous e (List.mem_cons_self ..)),
        remember, Option.getD_some, if_neg space]
    have nodup := List.nodup_cons.mp (List.map_cons ▸ fresh.nodup)
    have later : FreshEvents prims
        { cache with current := insert (computeVerifyCacheKey prims e) cache.current } rest := by
      refine ⟨fun f member => fresh.valid f (List.mem_cons_of_mem _ member), nodup.2, fun f member => ?_,
        fun f member => fresh.previous f (List.mem_cons_of_mem _ member)⟩
      rw [Finset.mem_insert, not_or]
      exact ⟨fun same => nodup.1 (same ▸ List.mem_map_of_mem member),
        fresh.current f (List.mem_cons_of_mem _ member)⟩
    rw [List.map_cons, Library.Runs.run_cons, inserted, ih later]
    · congr 2
      ext key
      simp [keysOf, or_left_comm]
    · rw [Finset.card_insert_of_notMem absent]
      omega

theorem run_turn {events : List Event} (fresh : FreshEvents prims cache events) (nonempty : events ≠ [])
    (full : halfCap maxCap ≤ cache.current.card) (few : events.length ≤ halfCap maxCap) :
    run (cacheStep prims maxCap) (some cache) (events.map .verify) = some ⟨keysOf prims events, cache.current⟩ := by
  cases events with
  | nil => exact absurd rfl nonempty
  | cons e rest =>
    have turned : cacheStep prims maxCap (some cache) (.verify e) =
        some ⟨{computeVerifyCacheKey prims e}, cache.current⟩ := by
      rw [cacheStep_fresh (fresh.valid e (List.mem_cons_self ..)) (fresh.current e (List.mem_cons_self ..))
        (fresh.previous e (List.mem_cons_self ..)), remember, Option.getD_some, if_pos full]
      rfl
    have nodup := List.nodup_cons.mp (List.map_cons ▸ fresh.nodup)
    have later : FreshEvents prims ⟨{computeVerifyCacheKey prims e}, cache.current⟩ rest := by
      refine ⟨fun f member => fresh.valid f (List.mem_cons_of_mem _ member), nodup.2, fun f member => ?_,
        fun f member => fresh.current f (List.mem_cons_of_mem _ member)⟩
      rw [Finset.mem_singleton]
      exact fun same => nodup.1 (same ▸ List.mem_map_of_mem member)
    rw [List.length_cons] at few
    rw [List.map_cons, Library.Runs.run_cons, turned, run_fill later]
    · congr 2
      ext key
      simp [keysOf]
    · rw [Finset.card_singleton]
      omega

theorem cacheStep_promote {e : Event} (current : computeVerifyCacheKey prims e ∉ cache.current)
    (previous : computeVerifyCacheKey prims e ∈ cache.previous) :
    cacheStep prims maxCap (some cache) (.verify e) =
      some { cache with current := insert (computeVerifyCacheKey prims e) cache.current } := by
  simp [cacheStep, verifyEvent, current, previous]

theorem run_none {events : List Event} (valid : ∀ e ∈ events, e.verify prims = true) (nonempty : events ≠ []) :
    run (cacheStep prims maxCap) none (events.map .verify) =
      run (cacheStep prims maxCap) (some ⟨∅, ∅⟩) (events.map .verify) := by
  cases events with
  | nil => exact absurd rfl nonempty
  | cons e rest =>
    rw [List.map_cons, Library.Runs.run_cons, Library.Runs.run_cons]
    congr 1
    simp [cacheStep, verifyEvent, valid e (List.mem_cons_self ..), remember, VerifiedCache.withCapacity]

theorem mem_keysOf {events : List Event} {key : Vector UInt8 32} :
    key ∈ keysOf prims events ↔ ∃ e ∈ events, computeVerifyCacheKey prims e = key := by
  simp [keysOf]

/-- A generation filled from nothing, and turned over by the next. -/
theorem run_generations {first second : List Event} (valid : ∀ e ∈ first ++ second, e.verify prims = true)
    (nodup : ((first ++ second).map (computeVerifyCacheKey prims)).Nodup) (full : first.length = halfCap maxCap)
    (nonempty : second ≠ []) (few : second.length ≤ halfCap maxCap) :
    run (cacheStep prims maxCap) none (first.map .verify ++ second.map .verify) =
      some ⟨keysOf prims second, keysOf prims first⟩ := by
  have positive : 0 < halfCap maxCap := lt_of_lt_of_le (by decide) (Nat.le_max_right _ _)
  rw [List.map_append] at nodup
  obtain ⟨firstNodup, secondNodup, apart⟩ := List.nodup_append.mp nodup
  have filled : run (cacheStep prims maxCap) none (first.map .verify) = some ⟨keysOf prims first, ∅⟩ := by
    rw [run_none (fun e inside => valid e (List.mem_append_left _ inside))
      (List.ne_nil_of_length_pos (full ▸ positive)), run_fill]
    · simp
    · exact ⟨fun e inside => valid e (List.mem_append_left _ inside), firstNodup, by simp, by simp⟩
    · simp [full]
  rw [Library.Runs.run_append, filled]
  refine run_turn ⟨fun e inside => valid e (List.mem_append_right _ inside), secondNodup, fun e inside held => ?_, by simp⟩
    nonempty ((card_keysOf firstNodup).trans full).ge few
  obtain ⟨f, early, same⟩ := mem_keysOf.mp held
  exact apart _ (List.mem_map_of_mem early) _ (List.mem_map_of_mem inside) same

theorem held_overflow {first second third : List Event} {replayed : Event}
    (valid : ∀ e ∈ first ++ second ++ third, e.verify prims = true)
    (nodup : ((first ++ second ++ third).map (computeVerifyCacheKey prims)).Nodup) (member : replayed ∈ first)
    (firstFull : first.length = halfCap maxCap) (secondFull : second.length = halfCap maxCap)
    (thirdFull : third.length = halfCap maxCap) :
    (held (cacheAfter prims maxCap (first.map .verify ++ second.map .verify ++ [.verify replayed] ++
      third.map .verify))).card = 2 * halfCap maxCap + 1 := by
  have positive : 0 < halfCap maxCap := lt_of_lt_of_le (by decide) (Nat.le_max_right _ _)
  rw [List.map_append, List.map_append] at nodup
  obtain ⟨both, thirdNodup, apart⟩ := List.nodup_append.mp nodup
  obtain ⟨firstNodup, secondNodup, firstSecond⟩ := List.nodup_append.mp both
  have inThird : ∀ e ∈ third, e ∈ first ++ second ++ third := fun e inside => by simp [inside]
  have cardFirst := (card_keysOf firstNodup).trans firstFull
  have cardSecond := (card_keysOf secondNodup).trans secondFull
  have cardThird := (card_keysOf thirdNodup).trans thirdFull
  have secondApart : ∀ e ∈ second, computeVerifyCacheKey prims e ∉ keysOf prims first := by
    intro e inside held
    obtain ⟨f, early, same⟩ := mem_keysOf.mp held
    exact firstSecond _ (List.mem_map_of_mem early) _ (List.mem_map_of_mem inside) same
  have thirdApart : ∀ e ∈ third, computeVerifyCacheKey prims e ∉ keysOf prims first ∪ keysOf prims second := by
    intro e inside held
    have split := Finset.mem_union.mp held
    rw [mem_keysOf, mem_keysOf] at split
    rcases split with ⟨f, early, same⟩ | ⟨f, early, same⟩
    all_goals
      refine apart _ ?_ _ (List.mem_map_of_mem inside) same
      simp only [List.mem_append]
    · exact .inl (List.mem_map_of_mem early)
    · exact .inr (List.mem_map_of_mem early)
  have turned : run (cacheStep prims maxCap) none (first.map .verify ++ second.map .verify) =
      some ⟨keysOf prims second, keysOf prims first⟩ := by
    refine run_generations (fun e inside => valid e (List.mem_append_left _ inside)) ?_ firstFull ?_ secondFull.le
    · rwa [List.map_append]
    · exact List.ne_nil_of_length_pos (secondFull ▸ positive)
  have hit : computeVerifyCacheKey prims replayed ∈ keysOf prims first := mem_keysOf.mpr ⟨replayed, member, rfl⟩
  have missed : computeVerifyCacheKey prims replayed ∉ keysOf prims second := by
    intro held
    obtain ⟨e, inside, same⟩ := mem_keysOf.mp held
    exact secondApart e inside (same ▸ hit)
  have promoted : run (cacheStep prims maxCap) (some ⟨keysOf prims second, keysOf prims first⟩) [.verify replayed] =
      some ⟨insert (computeVerifyCacheKey prims replayed) (keysOf prims second), keysOf prims first⟩ :=
    cacheStep_promote missed hit
  -- the generation with the extra key is turned over as it is
  have again : run (cacheStep prims maxCap)
      (some ⟨insert (computeVerifyCacheKey prims replayed) (keysOf prims second), keysOf prims first⟩)
      (third.map .verify) =
      some ⟨keysOf prims third, insert (computeVerifyCacheKey prims replayed) (keysOf prims second)⟩ := by
    refine run_turn ⟨fun e inside => valid e (inThird e inside), thirdNodup, fun e inside held => ?_,
      fun e inside held => thirdApart e inside (Finset.mem_union_left _ held)⟩
      (List.ne_nil_of_length_pos (thirdFull ▸ positive)) ?_ thirdFull.le
    · refine thirdApart e inside ?_
      rcases Finset.mem_insert.mp held with same | late
      · exact Finset.mem_union_left _ (same ▸ hit)
      · exact Finset.mem_union_right _ late
    · rw [Finset.card_insert_of_notMem missed, cardSecond]
      exact Nat.le_succ _
  have apart : Disjoint (keysOf prims third) (insert (computeVerifyCacheKey prims replayed) (keysOf prims second)) := by
    rw [Finset.disjoint_left]
    intro key late held
    obtain ⟨e, inside, rfl⟩ := mem_keysOf.mp late
    refine thirdApart e inside ?_
    rcases Finset.mem_insert.mp held with same | earlier
    · exact Finset.mem_union_left _ (same ▸ hit)
    · exact Finset.mem_union_right _ earlier
  rw [← run_eq_cacheAfter, Library.Runs.run_append, Library.Runs.run_append, turned, promoted, again]
  rw [held, Finset.card_union_of_disjoint apart, cardThird, Finset.card_insert_of_notMem missed, cardSecond]
  omega

/-! ### Numbered events -/

/-- The note with this number, under an id that is the number. -/
def numbered (i : Nat) : Event := ⟨⟨notePubkey, UInt64.ofNat i, 1, [], ""⟩, beBytes 32 i, beBytes 64 0⟩

/-- Hashes that number what they are given, and signatures that are all good. -/
def numberingPrims : Primitives where
  eventId body := beBytes 32 body.createdAt.toNat
  sha256 bytes := Vector.ofFn fun i => bytes.getD i.val 0
  schnorrVerify _ _ _ := true

theorem getElem_beBytes {size n k : Nat} (inside : k < size) :
    (beBytes size n)[k] = UInt8.ofNat (n / 256 ^ (size - 1 - k)) := Vector.getElem_ofFn inside

theorem numbered_verify {i : Nat} (small : i < 2 ^ 64) : (numbered i).verify numberingPrims = true := by
  have number : (UInt64.ofNat i).toNat = i := UInt64.toNat_ofNat_of_lt' small
  rw [Event.verify_iff]
  constructor
  · simp only [numbered, numberingPrims, number]
  · simp only [numberingPrims]

theorem numbered_key (i : Nat) : computeVerifyCacheKey numberingPrims (numbered i) = beBytes 32 i := by
  refine Vector.ext fun j inside => ?_
  have first : j < (beBytes 32 i).toList.length := by simpa using inside
  simp only [computeVerifyCacheKey, numberingPrims, numbered, Vector.getElem_ofFn, List.getD_eq_getElem?_getD]
  rw [List.getElem?_append_left first]
  simp [inside]

theorem beBytes_inj {i j : Nat} (small : i < 2 ^ 16) (small' : j < 2 ^ 16) (same : beBytes 32 i = beBytes 32 j) :
    i = j := by
  have high := congrArg (fun bytes => bytes[30].toNat) same
  have low := congrArg (fun bytes => bytes[31].toNat) same
  simp only [getElem_beBytes, UInt8.toNat_ofNat'] at high low
  omega

/-- The events numbered from `start` on. -/
def numberedFrom (start n : Nat) : List Event := (List.range' start n).map numbered

theorem length_numberedFrom (start n : Nat) : (numberedFrom start n).length = n := by
  rw [numberedFrom, List.length_map, List.length_range']

theorem numberedFrom_append (start m n : Nat) :
    numberedFrom start m ++ numberedFrom (start + m) n = numberedFrom start (m + n) := by
  rw [numberedFrom, numberedFrom, ← List.map_append, List.range'_append_1, numberedFrom]

theorem mem_numberedFrom {start n : Nat} {e : Event} :
    e ∈ numberedFrom start n ↔ ∃ i, start ≤ i ∧ i < start + n ∧ numbered i = e := by
  simp [numberedFrom, and_assoc]

theorem nodup_numberedFrom {start n : Nat} (small : start + n ≤ 2 ^ 16) :
    ((numberedFrom start n).map (computeVerifyCacheKey numberingPrims)).Nodup := by
  rw [numberedFrom, List.map_map]
  refine List.Nodup.map_on (fun i first j second same => ?_) List.nodup_range'
  rw [List.mem_range'_1] at first second
  rw [Function.comp_apply, Function.comp_apply, numbered_key, numbered_key] at same
  exact beBytes_inj (by omega) (by omega) same

/-- Three generations for a phone, with one event of the first again before the third. -/
def overflowingCalls : List CacheOp :=
  (numberedFrom 0 5000).map .verify ++ (numberedFrom 5000 5000).map .verify ++ [.verify (numbered 0)] ++
    (numberedFrom 10000 5000).map .verify

/-- After them the two generations hold one key more than the capacity. -/
theorem verifiedCache_overflows :
    ¬ (held (cacheAfter numberingPrims (maxCacheCapacity true) overflowingCalls)).card ≤ maxCacheCapacity true := by
  have joined : numberedFrom 0 5000 ++ numberedFrom 5000 5000 ++ numberedFrom 10000 5000 = numberedFrom 0 15000 := by
    rw [← numberedFrom_append 0 10000 5000, ← numberedFrom_append 0 5000 5000]
  have half : halfCap (maxCacheCapacity true) = 5000 := by decide
  have overflow : (held (cacheAfter numberingPrims (maxCacheCapacity true) overflowingCalls)).card =
      2 * halfCap (maxCacheCapacity true) + 1 := by
    refine held_overflow ?_ ?_ (mem_numberedFrom.mpr ⟨0, Nat.le_refl _, by decide, rfl⟩) ?_ ?_ ?_
    · intro e member
      rw [joined] at member
      obtain ⟨i, -, less, rfl⟩ := mem_numberedFrom.mp member
      exact numbered_verify (by omega)
    · rw [joined]
      exact nodup_numberedFrom (by decide)
    all_goals rw [length_numberedFrom, half]
  rw [overflow, half]
  decide

theorem promotesWithRoom_of_nodup {events : List Event} (nodup : (events.map (computeVerifyCacheKey prims)).Nodup) :
    Throughout (cacheStep prims maxCap) (PromotesWithRoom prims maxCap) none (events.map .verify) := by
  refine Library.Runs.throughout_iff.mpr fun done call rest split => ?_
  obtain ⟨before, others, rfl, rfl, later⟩ := List.map_eq_append_iff.mp split
  obtain ⟨e, after, rfl, rfl, -⟩ := List.map_eq_cons_iff.mp later
  intro cache here old
  have known : computeVerifyCacheKey prims e ∈ held (cacheAfter prims maxCap (before.map .verify)) := by
    rw [← run_eq_cacheAfter, here]
    exact Finset.mem_union_right _ old
  obtain ⟨f, earlier, -, same⟩ := held_cacheAfter prims maxCap _ known
  have early : f ∈ before := by simpa using earlier
  rw [List.map_append, List.map_cons] at nodup
  exact absurd same ((List.nodup_append.mp nodup).2.2 _ (List.mem_map_of_mem early) _ List.mem_cons_self)

/-- A full generation of a phone, three events that turn it over, and the first event again, which is promoted. -/
def promotingCalls : List CacheOp := (numberedFrom 0 5000 ++ numberedFrom 5000 3).map .verify ++ [.verify (numbered 0)]

theorem verifiedCache_bounded_promoting :
    Throughout (cacheStep numberingPrims (maxCacheCapacity true)) (PromotesWithRoom numberingPrims (maxCacheCapacity true))
        none promotingCalls ∧
      (held (cacheAfter numberingPrims (maxCacheCapacity true) promotingCalls)).card ≤ 10000 := by
  have joined : numberedFrom 0 5000 ++ numberedFrom 5000 3 = numberedFrom 0 5003 := numberedFrom_append 0 5000 3
  have nodup : ((numberedFrom 0 5003).map (computeVerifyCacheKey numberingPrims)).Nodup :=
    nodup_numberedFrom (by decide)
  have room : Throughout (cacheStep numberingPrims (maxCacheCapacity true))
      (PromotesWithRoom numberingPrims (maxCacheCapacity true)) none promotingCalls := by
    refine Library.Runs.throughout_append.mpr ⟨?_, ?_, trivial⟩
    · rw [joined]
      exact promotesWithRoom_of_nodup nodup
    · rw [List.map_append, run_generations]
      · rintro _ ⟨⟩ - -
        rw [keysOf]
        exact (List.toFinset_card_le _).trans_lt (by rw [List.length_map, length_numberedFrom]; decide)
      · intro e member
        rw [joined] at member
        obtain ⟨i, -, less, rfl⟩ := mem_numberedFrom.mp member
        exact numbered_verify (by omega)
      · rwa [joined]
      · rw [length_numberedFrom]
        decide
      · exact List.ne_nil_of_length_pos (by rw [length_numberedFrom]; decide)
      · rw [length_numberedFrom]
        decide
  exact ⟨room, (verifiedCache_bounded numberingPrims true promotingCalls room promotingCalls [] (List.append_nil _).symm).2.1⟩

end Soshal.Nostr
