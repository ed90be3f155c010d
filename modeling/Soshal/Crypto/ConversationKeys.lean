import Soshal.Crypto.Nip44
import Soshal.Library.Queued
import Soshal.Library.Replies

/-! The cache of NIP-44 conversation keys.

A derivation looks the key up under the read lock, derives it unlocked and stores it
under the write lock, where another thread may have stored it first. The cache keeps
the order of arrival in a queue beside the map.
-/

set_option autoImplicit false

namespace Soshal.Crypto

open Library (Queued)
open Library.Replies (serve serve_keeps serve_of_stateless)

structure CkCache (Key : Type) where
  map : Finmap fun _ : Key => Bytes
  queue : List Key

namespace CkCache

def maxEntries : Nat := 128

variable {Key Seed : Type} [DecidableEq Key] (nip44 : Nip44 Key Seed)

/-- `CK_CACHE` is empty until the first key is stored. -/
def cached (guard : Option (CkCache Key)) (key : Key) : Option Bytes := guard.bind fun cache => cache.map.lookup key

def popOldest (cache : CkCache Key) : CkCache Key :=
  match cache.queue with
  | [] => cache
  | oldest :: rest => ⟨cache.map.erase oldest, rest⟩

/-- What `derive_conversation_key` does under the write lock. -/
def store (guard : Option (CkCache Key)) (key : Key) (ck : Bytes) : Option (CkCache Key) :=
  let cache := guard.getD ⟨∅, []⟩
  if (cache.map.lookup key).isSome then some cache
  else
    let cache := if maxEntries ≤ cache.map.keys.card then cache.popOldest else cache
    some ⟨cache.map.insert key ck, cache.queue ++ [key]⟩

def deriveConversationKey (guard : Option (CkCache Key)) (key : Key) : Option (CkCache Key) × Bytes :=
  match cached guard key with
  | some ck => (guard, ck)
  | none =>
    let ck := nip44.deriveConversationKey key
    (store guard key ck, ck)

def clearConversationKeyCache (_guard : Option (CkCache Key)) : Option (CkCache Key) := none

/-- Queue and map name the same keys, there are not too many, and each has the key that derivation gives. -/
structure Good (cache : CkCache Key) : Prop where
  queued : Queued cache.queue cache.map.keys
  bounded : cache.map.keys.card ≤ maxEntries
  derived : ∀ {key ck}, cache.map.lookup key = some ck → ck = nip44.deriveConversationKey key

def GoodGuard (guard : Option (CkCache Key)) : Prop := ∀ cache ∈ guard, Good nip44 cache

variable {nip44} {cache : CkCache Key} {guard : Option (CkCache Key)}

theorem GoodGuard.cached (good : GoodGuard nip44 guard) {key : Key} {ck : Bytes} (found : cached guard key = some ck) :
    ck = nip44.deriveConversationKey key := by
  obtain ⟨cache, held, stored⟩ := Option.bind_eq_some_iff.mp found
  exact (good cache held).derived stored

theorem GoodGuard.cached_eq (good : GoodGuard nip44 guard) (key : Key) :
    CkCache.cached guard key = none ∨ CkCache.cached guard key = some (nip44.deriveConversationKey key) := by
  cases found : CkCache.cached guard key with
  | none => exact .inl rfl
  | some ck => exact .inr (congrArg some (good.cached found))

theorem good_empty : Good nip44 (⟨∅, []⟩ : CkCache Key) where
  queued := .empty
  bounded := Nat.zero_le _
  derived {key ck} stored := by simp at stored

theorem Good.popOldest (good : Good nip44 cache) : Good nip44 cache.popOldest := by
  unfold CkCache.popOldest
  cases queue : cache.queue with
  | nil => exact good
  | cons oldest rest =>
    have queued := good.queued
    rw [queue] at queued
    refine ⟨?_, ?_, ?_⟩
    · rw [Finmap.keys_erase]
      exact queued.pop
    · rw [Finmap.keys_erase]
      exact (Finset.card_erase_le).trans good.bounded
    · intro key ck stored
      rw [Library.lookup_erase] at stored
      split at stored
      · exact absurd stored (by simp)
      · exact good.derived stored

theorem Good.card_popOldest (good : Good nip44 cache) (full : maxEntries ≤ cache.map.keys.card) :
    cache.popOldest.map.keys.card < maxEntries := by
  unfold CkCache.popOldest
  have length := good.queued.length
  have bounded := good.bounded
  cases queue : cache.queue with
  | nil =>
    rw [queue, List.length_nil] at length
    exact absurd (length ▸ full) (by decide)
  | cons oldest rest =>
    have queued := good.queued
    rw [queue] at queued length
    show (cache.map.erase oldest).keys.card < maxEntries
    rw [Finmap.keys_erase, ← queued.pop.length]
    rw [List.length_cons] at length
    omega

theorem popOldest_absent {key : Key} (absent : key ∉ cache.map.keys) : key ∉ cache.popOldest.map.keys := by
  unfold popOldest
  cases cache.queue with
  | nil => exact absent
  | cons oldest rest =>
    rw [Finmap.keys_erase]
    exact fun kept => absent (Finset.mem_of_mem_erase kept)

theorem Good.push (good : Good nip44 cache) {key : Key} (absent : key ∉ cache.map.keys)
    (space : cache.map.keys.card < maxEntries) :
    Good nip44 ⟨cache.map.insert key (nip44.deriveConversationKey key), cache.queue ++ [key]⟩ where
  queued := by
    rw [Library.keys_insert]
    exact good.queued.push absent
  bounded := by
    rw [Library.keys_insert, Finset.card_insert_of_notMem absent]
    exact space
  derived {other ck} stored := by
    rw [Library.lookup_insert] at stored
    split at stored
    · rename_i same
      rw [same]
      exact (Option.some.inj stored).symm
    · exact good.derived stored

theorem GoodGuard.getD (good : GoodGuard nip44 guard) : Good nip44 (guard.getD ⟨∅, []⟩) := by
  cases guard with
  | none => exact good_empty
  | some cache => exact good cache rfl

theorem GoodGuard.store (good : GoodGuard nip44 guard) (key : Key) :
    GoodGuard nip44 (store guard key (nip44.deriveConversationKey key)) := by
  have start := good.getD
  unfold CkCache.store
  generalize guard.getD ⟨∅, []⟩ = cache at start
  intro after held
  by_cases known : (cache.map.lookup key).isSome = true
  · rw [if_pos known] at held
    exact Option.some.inj held ▸ start
  · rw [if_neg known] at held
    have absent : key ∉ cache.map.keys := by
      rw [Library.mem_keys_iff_lookup, ← Option.isSome_iff_exists]
      exact known
    rw [← Option.some.inj held]
    by_cases full : maxEntries ≤ cache.map.keys.card
    · rw [if_pos full]
      exact start.popOldest.push (popOldest_absent absent) (start.card_popOldest full)
    · rw [if_neg full]
      exact start.push absent (Nat.not_le.mp full)

theorem goodGuard_none : GoodGuard nip44 (none : Option (CkCache Key)) := fun _ held => by cases held

inductive KeyCall (Key : Type) where
  | derive (key : Key)
  | clear

def step (nip44 : Nip44 Key Seed) (guard : Option (CkCache Key)) : KeyCall Key → Option (CkCache Key) × Option Bytes
  | .derive key => ((deriveConversationKey nip44 guard key).1, some (deriveConversationKey nip44 guard key).2)
  | .clear => (clearConversationKeyCache guard, none)

def answer (nip44 : Nip44 Key Seed) : KeyCall Key → Option Bytes
  | .derive key => some (nip44.deriveConversationKey key)
  | .clear => none

theorem GoodGuard.derive (good : GoodGuard nip44 guard) (key : Key) :
    GoodGuard nip44 (deriveConversationKey nip44 guard key).1 ∧
      (deriveConversationKey nip44 guard key).2 = nip44.deriveConversationKey key := by
  unfold deriveConversationKey
  cases found : CkCache.cached guard key with
  | some ck => exact ⟨good, good.cached found⟩
  | none => exact ⟨good.store key, rfl⟩

theorem conversationKeys_transparent (nip44 : Nip44 Key Seed) (calls : List (KeyCall Key)) :
    (serve (step nip44) none calls).2 = calls.map (answer nip44) ∧
      ∀ cache, (serve (step nip44) none calls).1 = some cache →
        Queued cache.queue cache.map.keys ∧ cache.map.keys.card ≤ 128 ∧
          ∀ key, cached (some cache) key = none ∨ cached (some cache) key = some (nip44.deriveConversationKey key) := by
  have keeps : ∀ guard call, GoodGuard nip44 guard → GoodGuard nip44 (step nip44 guard call).1 := by
    intro guard call good
    cases call with
    | derive key => exact (good.derive key).1
    | clear => exact goodGuard_none
  have answers : ∀ guard call, GoodGuard nip44 guard → (step nip44 guard call).2 = answer nip44 call := by
    intro guard call good
    cases call with
    | derive key => exact congrArg some (good.derive key).2
    | clear => rfl
  obtain ⟨good, replies⟩ : GoodGuard nip44 (serve (step nip44) none calls).1 ∧
      (serve (step nip44) none calls).2 = calls.map (answer nip44) :=
    serve_of_stateless (step nip44) keeps answers goodGuard_none calls
  refine ⟨replies, fun cache held => ⟨(good cache held).queued, (good cache held).bounded, fun key => ?_⟩⟩
  rw [held] at good
  exact good.cached_eq key

/-- The lock sections of any number of threads: a lookup, a store of what was derived, or a clearing. -/
inductive LockSection (Key : Type) where
  | lookup (key : Key)
  | store (key : Key)
  | clear

def lockStep (nip44 : Nip44 Key Seed) (guard : Option (CkCache Key)) : LockSection Key → Option (CkCache Key) × Option Bytes
  | .lookup key => (guard, cached guard key)
  | .store key =>
    let ck := nip44.deriveConversationKey key
    (store guard key ck, some ck)
  | .clear => (clearConversationKeyCache guard, none)

theorem goodGuard_lockStep (nip44 : Nip44 Key Seed) (done : List (LockSection Key)) :
    GoodGuard nip44 (serve (lockStep nip44) none done).1 := by
  refine serve_keeps (lockStep nip44) (fun guard call good => ?_) goodGuard_none done
  cases call with
  | lookup => exact good
  | store key => exact good.store key
  | clear => exact goodGuard_none

theorem lookup_lockStep (nip44 : Nip44 Key Seed) (done : List (LockSection Key)) (key : Key) :
    cached (serve (lockStep nip44) none done).1 key = none ∨
      cached (serve (lockStep nip44) none done).1 key = some (nip44.deriveConversationKey key) :=
  (goodGuard_lockStep nip44 done).cached_eq key

end CkCache

end Soshal.Crypto
