import Soshal.Library.Runs
import Soshal.Library.Table

/-! The peers of a key by their distance in the web of trust, and the cache in front of that search.

The search walks the contact graph from a key, two steps far. The cache keeps what
it found under the key and the distance asked for, and leaves out the graph it was
found in. An answer from the cache is right as long as the cache was emptied
whenever the graph changed.
-/

set_option autoImplicit false

namespace Soshal.Identity

open Library
open Library.Runs (Always Throughout)

structure WotUser where
  pubkey : String
  contacts : List String
  deriving DecidableEq

abbrev Peers := Table Nat (List String)

def maxContacts : Nat := 2000
def maxEdges : Nat := 100000

/-- Each user's contacts up to a limit; past the limit on all edges a user that is not known yet has none. -/
def limitedMap (maxContacts maxEdges : Nat) :
    List WotUser → Nat → Table String (List String) → Table String (List String)
  | [], _, map => map
  | user :: rest, totalEdges, map =>
    if totalEdges ≥ maxEdges then limitedMap maxContacts maxEdges rest totalEdges (map.insertIgnore user.pubkey [])
    else
      let slice := user.contacts.take maxContacts
      limitedMap maxContacts maxEdges rest (totalEdges + slice.length) (map.upsert user.pubkey slice fun _ => slice)

def contactMap : List WotUser → Nat → Table String (List String) → Table String (List String) :=
  limitedMap maxContacts maxEdges

/-- One contact of a key at a distance: it is noted unless it is known, and followed further when it is near. -/
def visit (newDist : Nat) (state : Table String Nat × List (String × Nat)) (contact : String) :
    Table String Nat × List (String × Nat) :=
  match state.1.find? contact with
  | some _ => state
  | none =>
    (state.1.upsert contact newDist fun _ => newDist,
      if newDist < 2 then state.2 ++ [(contact, newDist)] else state.2)

/-- The walk, for as many keys as may still be taken from the queue. -/
def walk (contacts : Table String (List String)) : Nat → Table String Nat → List (String × Nat) → Table String Nat
  | 0, distances, _ => distances
  | _ + 1, distances, [] => distances
  | left + 1, distances, (current, currentDist) :: queue =>
    match contacts.find? current with
    | none => walk contacts left distances queue
    | some list =>
      let newDist := min (currentDist + 1) 3
      let (distances, queue) := list.foldl (visit newDist) (distances, queue)
      walk contacts left distances queue

def partitionWotPeers (selfPubkey : String) (users : List WotUser) (maxDistance : Nat) : Peers :=
  if maxDistance = 0 ∨ users = [] then .empty
  else
    let distances := walk (contactMap users 0 .empty) (min users.length 10000)
      (Table.empty.upsert selfPubkey 0 id) [(selfPubkey, 0)]
    users.foldl (fun result user =>
      let distance := (distances.find? user.pubkey).getD 3
      if distance > 0 ∧ distance ≤ maxDistance then
        result.upsert distance [user.pubkey] (· ++ [user.pubkey])
      else result) .empty

abbrev Key := String × Nat

structure WotPeersCache where
  entries : Table Key Peers
  order : List Key

def WotPeersCache.empty : WotPeersCache := ⟨.empty, []⟩

/-- Oldest entries are dropped until there is room for one more; without an order all are. -/
def evict (entries : Table Key Peers) : List Key → Table Key Peers × List Key
  | [] => if entries.rows.length ≥ 16 then (.empty, []) else (entries, [])
  | oldest :: order =>
    if entries.rows.length ≥ 16 then evict (entries.delete fun key _ => key == oldest) order
    else (entries, oldest :: order)

def getWotPeersByDistance (cache : WotPeersCache) (selfPubkey : String) (users : List WotUser) (maxDistance : Nat) :
    WotPeersCache × Peers :=
  if users.length > 64 then
    let key := (selfPubkey, maxDistance)
    match cache.entries.find? key with
    | some cached => (cache, cached)
    | none =>
      let result := partitionWotPeers selfPubkey users maxDistance
      let (entries, order) := evict cache.entries cache.order
      (⟨entries.upsert key result fun _ => result, order.filter (· ≠ key) ++ [key]⟩, result)
  else (cache, partitionWotPeers selfPubkey users maxDistance)

def invalidateWotPeersCache (_ : WotPeersCache) : WotPeersCache := .empty

inductive Call where
  | get (selfPubkey : String) (users : List WotUser) (maxDistance : Nat)
  | invalidate

/-- The cache, and the users of the last call for a key since the cache was emptied. -/
structure Asked where
  cache : WotPeersCache
  latest : String → Option (List WotUser)

def Asked.start : Asked := ⟨.empty, fun _ => none⟩

def step (s : Asked) : Call → Asked
  | .get selfPubkey users maxDistance =>
    ⟨(getWotPeersByDistance s.cache selfPubkey users maxDistance).1,
      fun key => if key = selfPubkey then some users else s.latest key⟩
  | .invalidate => ⟨invalidateWotPeersCache s.cache, fun _ => none⟩

/-- The graph of a key is the one of the previous call for it, or the cache has been emptied since. -/
def Told (s : Asked) : Call → Prop
  | .get selfPubkey users _ => s.latest selfPubkey = none ∨ s.latest selfPubkey = some users
  | .invalidate => True

/-- A call answers what the search finds for its own arguments. -/
def Transparent (s : Asked) : Call → Prop
  | .get selfPubkey users maxDistance =>
    (getWotPeersByDistance s.cache selfPubkey users maxDistance).2 = partitionWotPeers selfPubkey users maxDistance
  | .invalidate => True

/-- Every entry is the answer for the users of the last call for its key. -/
def Sound (s : Asked) : Prop :=
  ∀ selfPubkey maxDistance cached, s.cache.entries.find? (selfPubkey, maxDistance) = some cached →
    ∃ users, s.latest selfPubkey = some users ∧ cached = partitionWotPeers selfPubkey users maxDistance

theorem find?_evict {entries : Table Key Peers} {order : List Key} {key : Key} {cached : Peers}
    (found : (evict entries order).1.find? key = some cached) : entries.find? key = some cached := by
  induction order generalizing entries with
  | nil =>
    unfold evict at found
    split at found
    · cases found
    · exact found
  | cons oldest order ih =>
    unfold evict at found
    split at found
    · exact Table.find?_of_delete (ih found)
    · exact found

theorem transparent_of_sound {s : Asked} {call : Call} (sound : Sound s) (told : Told s call) : Transparent s call := by
  cases call with
  | invalidate => trivial
  | get selfPubkey users maxDistance =>
    show (getWotPeersByDistance s.cache selfPubkey users maxDistance).2 = _
    unfold getWotPeersByDistance
    dsimp only
    split
    · cases found : s.cache.entries.find? (selfPubkey, maxDistance) with
      | none => rfl
      | some cached =>
        obtain ⟨known, latest, same⟩ := sound selfPubkey maxDistance cached found
        cases told with
        | inl none => cases none.symm.trans latest
        | inr some =>
          obtain rfl : users = known := Option.some.inj (some.symm.trans latest)
          exact same
    · rfl

theorem find?_getWotPeersByDistance {cache : WotPeersCache} {selfPubkey : String} {users : List WotUser}
    {maxDistance : Nat} {key : Key} {cached : Peers}
    (found : (getWotPeersByDistance cache selfPubkey users maxDistance).1.entries.find? key = some cached) :
    cache.entries.find? key = some cached ∨
      key = (selfPubkey, maxDistance) ∧ cached = partitionWotPeers selfPubkey users maxDistance := by
  unfold getWotPeersByDistance at found
  dsimp only at found
  by_cases many : users.length > 64
  · rw [if_pos many] at found
    cases known : cache.entries.find? (selfPubkey, maxDistance) with
    | some answer =>
      rw [known] at found
      exact .inl found
    | none =>
      rw [known] at found
      dsimp only at found
      rw [Table.find?_upsert] at found
      by_cases same : key = (selfPubkey, maxDistance)
      · rw [if_pos same] at found
        refine .inr ⟨same, ?_⟩
        cases stored : (evict cache.entries cache.order).1.find? (selfPubkey, maxDistance) with
        | none => rw [stored] at found; exact (Option.some.inj found).symm
        | some old => rw [stored] at found; exact (Option.some.inj found).symm
      · rw [if_neg same] at found
        exact .inl (find?_evict found)
  · rw [if_neg many] at found
    exact .inl found

theorem sound_step {s : Asked} (call : Call) (sound : Sound s) (told : Told s call) : Sound (step s call) := by
  cases call with
  | invalidate => exact fun _ _ _ found => nomatch found
  | get selfPubkey users maxDistance =>
    intro key distance cached found
    simp only [step] at found ⊢
    obtain old | ⟨same, answer⟩ := find?_getWotPeersByDistance found
    · obtain ⟨known, latest, same⟩ := sound key distance cached old
      by_cases mine : key = selfPubkey
      · subst mine
        refine ⟨users, if_pos rfl, ?_⟩
        cases told with
        | inl none => cases none.symm.trans latest
        | inr some =>
          obtain rfl : users = known := Option.some.inj (some.symm.trans latest)
          exact same
      · exact ⟨known, by rw [if_neg mine]; exact latest, same⟩
    · obtain ⟨rfl, rfl⟩ := Prod.mk.inj same
      exact ⟨users, if_pos rfl, answer⟩

/-- The cache is transparent over every sequence of calls in which it is emptied when the graph of a key changes. -/
theorem transparent_throughout {calls : List Call} (told : Throughout step Told .start calls) :
    Throughout step Transparent .start calls := by
  have sound : Always step Sound .start calls :=
    Runs.always_of_throughout (fun _ call sound told => sound_step call sound told) (fun _ _ _ found => nomatch found) told
  rw [Runs.throughout_iff] at told ⊢
  intro done call rest split
  exact transparent_of_sound (Runs.always_iff.mp sound done (call :: rest) split) (told done call rest split)

end Soshal.Identity
