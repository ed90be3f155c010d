import Soshal.Identity.WotPeers
import Soshal.Sync.FollowerCounts

/-! Contact lists from the network and the cache of peers.

A contact list that is ingested changes the stored graph. Nothing on that path empties
the cache: only the follow and unfollow of the local user do.
-/

set_option autoImplicit false

namespace Soshal.Identity

open Nostr Library Library.Text Db Sync
open Library.Runs (Throughout)

variable (env : Env)

def followsIn (users : Table String UserRow) (u : String) : List String :=
  splitPubkeyList ((listOf users u).getD "")

theorem storedFollows_eq_followsIn (db : Db) (u : String) : storedFollows db u = followsIn db.users (normKey u) := rfl

theorem followsIn_upsert {users : Table String UserRow} {k : String} {row : UserRow} {merge : UserRow → UserRow}
    (opens : users.find? k = none → Blank row.contactPubkeys)
    (keeps : ∀ old, users.find? k = some old → (merge old).contactPubkeys = old.contactPubkeys) :
    followsIn (users.upsert k row merge) = followsIn users := by
  funext u
  unfold followsIn listOf
  by_cases same : u = k
  · subst same
    rw [Table.find?_upsert_self]
    cases found : users.find? u with
    | none => exact (opens found).entries.2
    | some old => simp only [Option.elim_some, Option.map_some, keeps old found]
  · rw [Table.find?_upsert_of_ne _ _ _ same]

theorem followsIn_insertIgnore {users : Table String UserRow} {k : String} {row : UserRow}
    (blank : Blank row.contactPubkeys) : followsIn (users.insertIgnore k row) = followsIn users :=
  followsIn_upsert (fun _ => blank) fun _ _ => rfl

theorem followsIn_withMe (users : Table String UserRow) (asked : Bool) :
    followsIn (withMe env asked users) = followsIn users := by
  cases asked with
  | false => rfl
  | true => exact followsIn_insertIgnore (.inr rfl)

theorem followsIn_opened (db : Db) (d : Delivery) :
    followsIn (opened db.users d (openingRow env db d)) = followsIn db.users := by
  cases opening : openingRow env db d with
  | none => rfl
  | some row =>
    refine followsIn_insertIgnore ?_
    rw [openingRow_eq env opening]
    split
    · exact .inr rfl
    · exact .inl rfl

theorem followsIn_metadata (db : Db) (d : Delivery) :
    followsIn (handleMetadata env db d).users = followsIn db.users := by
  unfold handleMetadata Db.getByPubkey
  rw [normKey_pubkeyHex]
  cases parsed : userRow env d with
  | none => rfl
  | some row =>
    obtain ⟨field, -, rfl⟩ := Option.map_eq_some_iff.mp parsed
    cases found : db.users.find? (pubkeyHex d.event) with
    | none =>
      refine followsIn_upsert (fun _ => .inl rfl) fun old stored => ?_
      rw [normKey_pubkeyHex, found] at stored
      cases stored
    | some stored =>
      dsimp only
      split
      · refine followsIn_upsert (fun none => ?_) fun old same => ?_
        · rw [normKey_pubkeyHex, found] at none
          cases none
        · rw [normKey_pubkeyHex] at same
          obtain rfl : stored = old := Option.some.inj (found.symm.trans same)
          rfl
      · rfl

theorem followsIn_listed_of_ne (db : Db) (d : Delivery) {u : String} (other : u ≠ pubkeyHex d.event) :
    followsIn (listed env db d).users u = followsIn db.users u := by
  have lists : listOf (listed env db d).users u = listOf db.users u := by
    rw [listOf, listOf, listed, Db.bumpFollowerCounts, Db.upsertUser, normKey_pubkeyHex, Table.find?_modify,
      Table.find?_upsert_of_ne _ _ _ other, Option.map_map]
    congr 1
    funext row
    simp only [Function.comp_apply]
    split <;> rfl
  rw [followsIn, followsIn, lists]

/-- A contact list that is verified and names other keys, or in another order, than the stored one. -/
def Relists (db : Db) (d : Delivery) : Prop :=
  d.event.verify env.prims = true ∧ kindOf d.event = .contactList ∧ pTags d.event ≠ storedFollows db (pubkeyHex d.event)

def ContactsChanged (before after : Db) : Prop := ∃ u, storedFollows after u ≠ storedFollows before u

theorem contactsChanged_iff (db : Db) (d : Delivery) :
    ContactsChanged db (handle env db d).db ↔ Relists env db d := by
  cases verified : d.event.verify env.prims with
  | false =>
    rw [handle_unverified env db verified]
    exact ⟨fun ⟨_, differ⟩ => absurd rfl differ, fun relists => absurd relists.1 (by simp [verified])⟩
  | true =>
    rw [handle_verified env db verified]
    by_cases list : kindOf d.event = .contactList
    · constructor
      · rintro ⟨u, differ⟩
        refine ⟨verified, list, fun same => differ ?_⟩
        have handled : applied env db d = handleContactList env db d := by simp only [applied, list]
        by_cases mine : normKey u = pubkeyHex d.event
        · have written := storedFollows_contactList env db d list
          rw [storedFollows_eq_followsIn, normKey_pubkeyHex] at written same
          rw [storedFollows_eq_followsIn, storedFollows_eq_followsIn, mine, written, same]
        · rw [storedFollows_eq_followsIn, storedFollows_eq_followsIn, handled, handleContactList_users,
            followsIn_withMe, followsIn_listed_of_ne env db d mine]
      · rintro ⟨-, -, other⟩
        refine ⟨pubkeyHex d.event, ?_⟩
        rw [storedFollows_contactList env db d list]
        exact other
    · have kept : followsIn (applied env db d).users = followsIn db.users := by
        by_cases metadata : kindOf d.event = .metadata
        · have handled : applied env db d = handleMetadata env db d := by simp only [applied, metadata]
          rw [handled, followsIn_metadata]
        · rw [applied_users env db d metadata list, followsIn_withMe, followsIn_opened]
      constructor
      · rintro ⟨u, differ⟩
        rw [storedFollows_eq_followsIn, storedFollows_eq_followsIn, kept] at differ
        exact absurd rfl differ
      · exact fun relists => absurd relists.2.1 list

/-- The store and the cache of a running node. -/
structure Node where
  db : Db
  cache : WotPeersCache

/-- An event comes in: the store takes it, and the cache is not told. -/
def Node.ingest (node : Node) (d : Delivery) : Node := { node with db := (handle env node.db d).db }

/-- Contacts that change with the event leave no answer in the cache. -/
def Invalidates (node : Node) (d : Delivery) : Prop :=
  ContactsChanged node.db (node.ingest env d).db → ∀ key, (node.ingest env d).cache.entries.find? key = none

theorem invalidates_iff (node : Node) (d : Delivery) :
    Invalidates env node d ↔ ¬ Relists env node.db d ∨ ∀ key, node.cache.entries.find? key = none := by
  rw [Invalidates, Node.ingest, contactsChanged_iff]
  exact imp_iff_not_or

/-- Answers are those of the search in every sequence of calls that tells the cache of each change,
and an ingested event tells the cache of its change exactly when there is none to tell or nothing to forget. -/
theorem wot_peers_cache_iff :
    (∀ calls, Throughout step Told .start calls → Throughout step Transparent .start calls) ∧
      ∀ node d, Invalidates env node d ↔ ¬ Relists env node.db d ∨ ∀ key, node.cache.entries.find? key = none :=
  ⟨fun _ told => transparent_throughout told, invalidates_iff env⟩

section Stale

def crowd : List WotUser := List.replicate 65 ⟨pubkeyHex olderList, [carol]⟩

/-- The cache after the first call for the author of the list. -/
def askedOnce : WotPeersCache := (getWotPeersByDistance .empty (pubkeyHex olderList) crowd 1).1

/-- The author's list arrives, and the peers that were found before it stay in the cache. -/
theorem contact_list_leaves_peers_cached : ¬ Invalidates listsEnv ⟨Db.empty, askedOnce⟩ heardOlder := by
  have verified : heardOlder.event.verify listsEnv.prims = true :=
    (ofAuthor_lists fun _ member => .inl (List.mem_singleton.mp member)).1.verified heardOlder (List.mem_singleton_self _)
  rw [invalidates_iff]
  rintro (quiet | forgotten)
  · refine quiet ⟨verified, rfl, ?_⟩
    rw [show heardOlder.event = olderList from rfl, storedFollows_empty, pTags_older]
    exact List.cons_ne_nil _ _
  · have cached := forgotten (pubkeyHex olderList, 1)
    unfold askedOnce getWotPeersByDistance at cached
    rw [if_pos (by decide)] at cached
    simp [WotPeersCache.empty] at cached

end Stale

end Soshal.Identity
