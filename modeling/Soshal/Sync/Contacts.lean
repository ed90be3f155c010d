import Soshal.Nostr.VerifiedCache
import Soshal.Sync.Effects

/-! Contact lists under reordering: which list the stored follows end with.

A contact list replaces the stored one whatever its timestamp. The stored follows are
those of the list that was ingested last.
-/

set_option autoImplicit false

namespace Soshal.Sync

open Nostr Library Library.Text Db

variable (env : Env)

theorem find?_listed (db : Db) (d : Delivery) :
    ∃ row, (listed env db d).users.find? (pubkeyHex d.event) = some row ∧
      row.contactPubkeys = JsonStrings.toJson (pTags d.event) := by
  simp only [listed, Db.bumpFollowerCounts, Db.upsertUser, normKey_pubkeyHex, Table.find?_modify,
    Table.find?_upsert_self, Option.map_some]
  refine ⟨_, rfl, ?_⟩
  cases db.users.find? (pubkeyHex d.event) <;> dsimp only [Option.elim_none, Option.elim_some] <;>
    split_ifs <;> rfl

theorem storedFollows_contactList (db : Db) (d : Delivery) (kind : kindOf d.event = .contactList) :
    storedFollows (applied env db d) (pubkeyHex d.event) = pTags d.event := by
  have same : applied env db d = handleContactList env db d := by simp only [applied, kind]
  obtain ⟨row, found, list⟩ := find?_listed env db d
  rw [same, storedFollows, Db.getByPubkey, normKey_pubkeyHex, handleContactList_users, find?_withMe env _ found,
    Option.map_some, Option.getD_some, list, splitPubkeyList_toJson]

theorem storedFollows_ingestAll (db : Db) {author : Vector UInt8 32} {run : List Delivery} {last : Delivery}
    (own : OfAuthor env author (run ++ [last])) (kind : kindOf last.event = .contactList) :
    storedFollows (ingestAll env db (run ++ [last])) (keyOf author) = pTags last.event := by
  obtain ⟨step, key⟩ := own.last env db
  rw [step, key]
  exact storedFollows_contactList env _ last kind

/-- `newest` has the greatest timestamp of the run. -/
def IsNewest (run : List Delivery) (newest : Delivery) : Prop :=
  newest ∈ run ∧ ∀ d ∈ run, d.event.createdAt ≤ newest.event.createdAt

/-- The stored follows end equal to the p-tags of the newest list. -/
def FollowsNewest (db : Db) (author : Vector UInt8 32) (run : List Delivery) : Prop :=
  ∀ newest, IsNewest run newest → ∀ key,
    key ∈ storedFollows (ingestAll env db run) (keyOf author) ↔ key ∈ pTags newest.event

/-- The list ingested last names the same keys as the newest. -/
def LastAgreesWithNewest (run : List Delivery) : Prop :=
  ∀ before last newest, run = before ++ [last] → IsNewest run newest → ∀ key,
    key ∈ pTags last.event ↔ key ∈ pTags newest.event

theorem follows_newest_iff {db : Db} {author : Vector UInt8 32} {run : List Delivery} (own : OfAuthor env author run)
    (lists : ∀ d ∈ run, kindOf d.event = .contactList) (nonempty : run ≠ []) :
    FollowsNewest env db author run ↔ LastAgreesWithNewest run := by
  obtain ⟨before, last, rfl⟩ := (List.eq_nil_or_concat run).resolve_left nonempty
  rw [List.concat_eq_append] at own lists ⊢
  have follows := storedFollows_ingestAll env db own (lists last (by simp))
  constructor
  · intro ends before' last' newest split isNewest key
    obtain ⟨-, same⟩ := List.append_inj' split rfl
    obtain rfl : last = last' := by simpa using same
    rw [← follows]
    exact ends newest isNewest key
  · intro agrees newest isNewest key
    rw [follows]
    exact agrees before last newest rfl isNewest key

section Late

def bob : String := keyOf (beBytes 32 0x79be667ef9dcbbac55a06295ce870b07029bfcdb2dce28d959f2815b16f81798)

def carol : String := keyOf (beBytes 32 0xc6047f9441ed7d6d3045406e95c07cd85c778e4b8cef3ca7abac09b95c709ee5)

/-- The older contact list of the author of `note`. -/
def olderList : Event where
  pubkey := notePubkey
  createdAt := 1700000300
  kind := 3
  tags := [["p", bob]]
  content := ""
  id := beBytes 32 0xa313ea45832c18b752e23ecbc0d03cc775b82fbb9c22ceb82c437b3fbc5b88ee
  sig := beBytes 64 0x6573adb9bea85a8cf99a46eecbf62ee6cec00785eb828febbf89ff65ab2b55c2674290a2d93a9beeb8148a1d925a4a0c0aeb9de53aa7d3add4dc110c9d59b404

def newerList : Event where
  pubkey := notePubkey
  createdAt := 1700000400
  kind := 3
  tags := [["p", carol]]
  content := ""
  id := beBytes 32 0x8a62c1590a3a59471874a44a26a1358229de39f05df9297665b7fdf0ff68b257
  sig := beBytes 64 0xd28c42007369d6f48d24ffe011e2e0b2af250ef34481d0e2434cff2bc226a99a51ed2f75d901dc6739469ebf519d6dd97b9cdc2242692e36cd0d99618d009fb0

def listsEnv : Env :=
  { Env.plain (.ofSigned [olderList, newerList]) "" with
    toBech32 := fun _ => "npub1lycg5qvjtrp3qjf5f7zl382j9x6nrjz9sdhenvyxq8c3808qxmus6gq266" }

def heardOlder : Delivery := ⟨olderList, 1700000500, true⟩

def heardNewer : Delivery := ⟨newerList, 1700000500, true⟩

theorem ofAuthor_lists {run : List Delivery} (lists : ∀ d ∈ run, d = heardOlder ∨ d = heardNewer) :
    OfAuthor listsEnv notePubkey run ∧ ∀ d ∈ run, kindOf d.event = .contactList := by
  have distinct : ([olderList, newerList].map Event.toUnsignedEvent).Nodup := by decide
  refine ⟨⟨fun d member => ?_, fun d member => ?_⟩, fun d member => ?_⟩
  · rcases lists d member with rfl | rfl
    · exact Primitives.verify_ofSigned distinct (by simp [heardOlder])
    · exact Primitives.verify_ofSigned distinct (by simp [heardNewer])
  · rcases lists d member with rfl | rfl <;> rfl
  · rcases lists d member with rfl | rfl <;> rfl

theorem bob_ne_carol : bob ≠ carol := by
  intro same
  exact absurd (hexEncode_inj same) (by decide)

theorem pTags_older : pTags olderList = [bob] := by simp [pTags, tagContents, olderList]

theorem pTags_newer : pTags newerList = [carol] := by simp [pTags, tagContents, newerList]

theorem newest_of_lists {run : List Delivery} (lists : ∀ d ∈ run, d = heardOlder ∨ d = heardNewer)
    (member : heardNewer ∈ run) : IsNewest run heardNewer := by
  refine ⟨member, fun d found => ?_⟩
  rcases lists d found with rfl | rfl <;> decide

/-- The older list arrives last and takes the newer one's place. -/
theorem older_list_wins :
    OfAuthor listsEnv notePubkey [heardNewer, heardOlder] ∧
      ¬ FollowsNewest listsEnv Db.empty notePubkey [heardNewer, heardOlder] := by
  obtain ⟨own, kinds⟩ : OfAuthor listsEnv notePubkey [heardNewer, heardOlder] ∧
      ∀ d ∈ [heardNewer, heardOlder], kindOf d.event = .contactList := ofAuthor_lists (by simp)
  refine ⟨own, fun ends => ?_⟩
  have follows : storedFollows (ingestAll listsEnv Db.empty ([heardNewer] ++ [heardOlder])) (keyOf notePubkey) =
      pTags heardOlder.event := storedFollows_ingestAll listsEnv Db.empty own rfl
  have agrees := (ends heardNewer (newest_of_lists (by simp) (by simp)) bob).mp (by
    rw [show [heardNewer, heardOlder] = [heardNewer] ++ [heardOlder] from rfl, follows, heardOlder, pTags_older]
    simp)
  rw [heardNewer, pTags_newer, List.mem_singleton] at agrees
  exact bob_ne_carol agrees

theorem newer_list_last_holds :
    OfAuthor listsEnv notePubkey [heardOlder, heardNewer] ∧
      FollowsNewest listsEnv Db.empty notePubkey [heardOlder, heardNewer] := by
  obtain ⟨own, kinds⟩ : OfAuthor listsEnv notePubkey [heardOlder, heardNewer] ∧
      ∀ d ∈ [heardOlder, heardNewer], kindOf d.event = .contactList := ofAuthor_lists (by simp)
  refine ⟨own, (follows_newest_iff listsEnv own kinds (by simp)).mpr ?_⟩
  intro before last newest split isNewest key
  obtain ⟨-, same⟩ := List.append_inj' (show [heardOlder] ++ [heardNewer] = before ++ [last] from split) rfl
  obtain rfl : heardNewer = last := by simpa using same
  -- the older list is not a newest one
  obtain rfl | rfl : newest = heardOlder ∨ newest = heardNewer := by simpa using isNewest.1
  · exact absurd (isNewest.2 heardNewer (by simp)) (by decide)
  · exact Iff.rfl

end Late

end Soshal.Sync
