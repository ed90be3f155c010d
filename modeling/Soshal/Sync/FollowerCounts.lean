import Soshal.Sync.Contacts

/-! Follower counts: the running count of each user against a recount of every stored list.

Ingest bumps a count by the difference of two lists, taken as sets of spellings, and
only where the followed key has a row. A recount reads every stored list again, entry
by entry. The two agree as long as no list and no new row hides an entry from the bump.
-/

set_option autoImplicit false

namespace Soshal.Sync

open Nostr Library Library.Text Db

variable (env : Env)

/-! ## The recount -/

/-- Each user's stored count is the one that a recount of the same table stores. -/
def CountsMatch (db : Db) : Prop :=
  ∀ u row, db.users.find? u = some row →
    ((recomputeAllFollowerCounts db).users.find? u).map UserRow.followerCount = some row.followerCount

/-- The keys that a list of `author` counts for. -/
def listEntries (author : String) (list : List String) : List String :=
  (list.map normKey).filter fun entry => entry ≠ "" ∧ entry ≠ author

def timesFollowed (users : Table String UserRow) (u : String) : Nat := (followEntries users).count u

def timesListed (u author : String) (row : UserRow) : Nat :=
  (listEntries (normKey author) (contactEntries row.contactPubkeys)).count u

theorem timesFollowed_eq_total (users : Table String UserRow) (u : String) :
    timesFollowed users u = users.total (timesListed u) := by
  simp only [timesFollowed, followEntries, List.count_flatMap, Table.total, timesListed, listEntries, Function.comp_def]

theorem followEntries_modify (users : Table String UserRow) {f : String → UserRow → UserRow}
    (same : ∀ u row, (f u row).contactPubkeys = row.contactPubkeys) :
    followEntries (users.modify f) = followEntries users := by
  simp [followEntries, Table.modify, List.flatMap_map, same]

theorem find?_foldl_insertIgnore {users : Table String UserRow} {u : String} {row : UserRow}
    (found : users.find? u = some row) (entries : List String) :
    (entries.foldl (fun users entry => users.insertIgnore entry .defaults) users).find? u = some row := by
  induction entries generalizing users with
  | nil => exact found
  | cons entry rest ih =>
    apply ih
    rw [Table.find?_insertIgnore]
    split
    · rename_i same
      rw [← same, found]
      rfl
    · exact found

theorem find?_recompute {db : Db} {u : String} {row : UserRow} (found : db.users.find? u = some row) :
    (recomputeAllFollowerCounts db).users.find? u = some { row with followerCount := timesFollowed db.users u } := by
  have cleared : (db.users.modify fun _ row => { row with followerCount := 0 }).find? u =
      some { row with followerCount := 0 } := by rw [Table.find?_modify, found, Option.map_some]
  have same : followEntries (db.users.modify fun _ row => { row with followerCount := 0 }) = followEntries db.users :=
    followEntries_modify db.users fun _ _ => rfl
  simp only [recomputeAllFollowerCounts, Table.find?_modify, same,
    find?_foldl_insertIgnore cleared (followEntries db.users), Option.map_some]
  -- a key that no list names keeps the zero of the reset
  split
  · rfl
  · rename_i absent
    rw [timesFollowed, List.count_eq_zero_of_not_mem absent]
    rfl

theorem countsMatch_iff {db : Db} :
    CountsMatch db ↔ ∀ u row, db.users.find? u = some row → row.followerCount = timesFollowed db.users u := by
  refine forall₂_congr fun u row => imp_congr_right fun found => ?_
  rw [find?_recompute found, Option.map_some, Option.some.injEq, eq_comm]

/-! ## Steps that change no list -/

def countOf (users : Table String UserRow) (u : String) : Option Int := (users.find? u).map UserRow.followerCount

def Agree (users : Table String UserRow) : Prop := ∀ u n, countOf users u = some n → n = timesFollowed users u

theorem countsMatch_iff_agree {db : Db} : CountsMatch db ↔ Agree db.users := by
  rw [countsMatch_iff]
  constructor
  · intro counts u n found
    obtain ⟨row, stored, rfl⟩ := Option.map_eq_some_iff.mp found
    exact counts u row stored
  · intro agree u row found
    exact agree u row.followerCount (by rw [countOf, found, Option.map_some])

def listOf (users : Table String UserRow) (u : String) : Option String := (users.find? u).map UserRow.contactPubkeys

def Blank (list : String) : Prop := list = "" ∨ list = "[]"

theorem Blank.entries {list : String} (blank : Blank list) : contactEntries list = [] ∧ splitPubkeyList list = [] := by
  rcases blank with rfl | rfl <;> decide

/-- The lists stay, and the rows that are new have a blank list and the count zero. -/
structure Grows (before after : Table String UserRow) (created : List String) : Prop where
  followed : ∀ u, timesFollowed after u = timesFollowed before u
  counts : ∀ u, countOf after u = (countOf before u).or (if u ∈ created then some 0 else none)
  lists : ∀ u list, listOf after u = some list → listOf before u = some list ∨ (u ∈ created ∧ Blank list)

theorem Grows.refl (users : Table String UserRow) : Grows users users [] where
  followed _ := rfl
  counts _ := by simp
  lists _ _ found := .inl found

theorem Grows.trans {first second third : Table String UserRow} {created more : List String}
    (one : Grows first second created) (two : Grows second third more) : Grows first third (created ++ more) where
  followed u := (two.followed u).trans (one.followed u)
  counts u := by
    rw [two.counts, one.counts, Option.or_assoc]
    by_cases early : u ∈ created
    · simp [early]
    · simp [early]
  lists u list found := by
    rcases two.lists u list found with found | ⟨member, blank⟩
    · rcases one.lists u list found with found | ⟨member, blank⟩
      · exact .inl found
      · exact .inr ⟨List.mem_append_left _ member, blank⟩
    · exact .inr ⟨List.mem_append_right _ member, blank⟩

theorem countOf_upsert (users : Table String UserRow) (k : String) {row : UserRow} {merge : UserRow → UserRow}
    (kept : ∀ old, (merge old).followerCount = old.followerCount) (zero : row.followerCount = 0 ∨ k ∈ users.keys)
    (u : String) :
    countOf (users.upsert k row merge) u = (countOf users u).or (if u = k then some 0 else none) := by
  unfold countOf
  rw [Table.find?_upsert]
  by_cases same : u = k
  · subst same
    cases found : users.find? u with
    | none =>
      have absent := Table.find?_eq_none.mp found
      simp [zero.resolve_right absent]
    | some old => simp [kept]
  · simp [same]

theorem grows_upsert (users : Table String UserRow) (k : String) {row : UserRow} {merge : UserRow → UserRow}
    (kept : ∀ old, (merge old).followerCount = old.followerCount)
    (fresh : (row.followerCount = 0 ∧ Blank row.contactPubkeys) ∨ k ∈ users.keys)
    (lists : ∀ old, users.find? k = some old → (merge old).contactPubkeys = old.contactPubkeys) :
    Grows users (users.upsert k row merge) [k] where
  followed u := by
    have sum := users.total_upsert k row merge (timesListed u)
    rw [timesFollowed_eq_total, timesFollowed_eq_total]
    cases found : users.find? k with
    | none =>
      have blank := (fresh.resolve_right (Table.find?_eq_none.mp found)).2
      simpa [found, timesListed, blank.entries.1, listEntries] using sum
    | some old => simpa [found, timesListed, lists old found] using sum
  counts u := by simpa using countOf_upsert users k kept (fresh.imp_left And.left) u
  lists u list found := by
    rw [listOf, Table.find?_upsert] at found
    split at found
    · rename_i same
      rw [same, listOf]
      cases stored : users.find? k with
      | none =>
        have blank := (fresh.resolve_right (Table.find?_eq_none.mp stored)).2
        obtain rfl : row.contactPubkeys = list := by simpa [stored] using found
        exact .inr ⟨List.mem_singleton_self k, blank⟩
      | some old =>
        obtain rfl : old.contactPubkeys = list := by simpa [stored, lists old stored] using found
        exact .inl rfl
    · exact .inl found

theorem grows_insertIgnore (users : Table String UserRow) (k : String) {row : UserRow} (zero : row.followerCount = 0)
    (blank : Blank row.contactPubkeys) : Grows users (users.insertIgnore k row) [k] :=
  grows_upsert users k (fun _ => rfl) (.inl ⟨zero, blank⟩) fun _ _ => rfl

theorem grows_withMe (users : Table String UserRow) (asked : Bool) :
    Grows users (withMe env asked users) (if asked then [normKey env.myPubkey] else []) := by
  cases asked with
  | false => exact .refl users
  | true => exact grows_insertIgnore users _ rfl (.inr rfl)

theorem grows_opened (users : Table String UserRow) (d : Delivery) {opening : Option UserRow}
    (shape : ∀ row, opening = some row → row.followerCount = 0 ∧ Blank row.contactPubkeys) :
    Grows users (opened users d opening) (if opening.isSome then [pubkeyHex d.event] else []) := by
  cases opening with
  | none => exact .refl users
  | some row => exact grows_insertIgnore users _ (shape row rfl).1 (shape row rfl).2

/-- The author's row is put in place by this event, if it is not there yet. -/
def opensAuthor (db : Db) (d : Delivery) : Bool :=
  match kindOf d.event with
  | .metadata => (userRow env d).isSome
  | .contactList => true
  | _ => (openingRow env db d).isSome

def ensured (db : Db) (d : Delivery) : List String :=
  (if opensAuthor env db d then [pubkeyHex d.event] else []) ++
    if noticed env db d then [normKey env.myPubkey] else []

theorem grows_metadata (db : Db) (d : Delivery) (kind : kindOf d.event = .metadata) :
    Grows db.users (handleMetadata env db d).users (ensured env db d) := by
  have keys : ensured env db d = if (userRow env d).isSome then [pubkeyHex d.event] else [] := by
    simp [ensured, opensAuthor, noticed, kind]
  rw [keys]
  unfold handleMetadata Db.getByPubkey
  rw [normKey_pubkeyHex]
  cases parsed : userRow env d with
  | none => exact .refl db.users
  | some row =>
    rw [if_pos Option.isSome_some]
    obtain ⟨field, -, rfl⟩ := Option.map_eq_some_iff.mp parsed
    cases found : db.users.find? (pubkeyHex d.event) with
    | none =>
      dsimp only [Db.upsertUser]
      rw [normKey_pubkeyHex]
      refine grows_upsert db.users _ (fun _ => rfl) (.inl ⟨rfl, .inl rfl⟩) fun old stored => ?_
      simp [found] at stored
    | some stored =>
      have present : pubkeyHex d.event ∈ db.users.keys := Table.mem_keys_iff.mpr ⟨stored, found⟩
      dsimp only [Db.upsertUser]
      split_ifs
      · rw [normKey_pubkeyHex]
        refine grows_upsert db.users _ (fun _ => rfl) (.inr present) fun old same => ?_
        obtain rfl : stored = old := Option.some.inj (found.symm.trans same)
        rfl
      · refine ⟨fun _ => rfl, fun u => ?_, fun _ _ => .inl⟩
        by_cases same : u = pubkeyHex d.event
        · simp [same, countOf, found]
        · simp [same]

theorem grows_other (db : Db) (d : Delivery) (metadata : kindOf d.event ≠ .metadata)
    (contactList : kindOf d.event ≠ .contactList) :
    Grows db.users (applied env db d).users (ensured env db d) := by
  have author : opensAuthor env db d = (openingRow env db d).isSome := by
    unfold opensAuthor
    cases kind : kindOf d.event <;> first | rfl | exact absurd kind metadata | exact absurd kind contactList
  rw [applied_users env db d metadata contactList, ensured, author]
  refine (grows_opened db.users d fun row found => ?_).trans (grows_withMe env _ _)
  rw [openingRow_eq env found]
  split
  · exact ⟨rfl, .inr rfl⟩
  · exact ⟨rfl, .inl rfl⟩

/-! ## Contact lists -/

def named (u : String) (list : List String) : Nat := list.countP fun entry => normKey entry = u

/-- The entries of the new list that the old one does not have. -/
def added (u : String) (before after : List String) : Nat :=
  after.countP fun entry => normKey entry = u ∧ entry ∉ before

def kept (u : String) (before after : List String) : Nat :=
  after.countP fun entry => normKey entry = u ∧ entry ∈ before

/-- The entries of the old list, each once, that the new one does not have. -/
def dropped (u : String) (before after : List String) : Nat :=
  before.dedup.countP fun entry => normKey entry = u ∧ entry ∉ after

theorem added_add_kept (u : String) (before after : List String) :
    added u before after + kept u before after = named u after := by
  unfold added kept named
  induction after with
  | nil => rfl
  | cons entry rest ih =>
    simp only [List.countP_cons, decide_eq_true_eq]
    by_cases spells : normKey entry = u <;> by_cases old : entry ∈ before <;>
      simp only [spells, old, not_true_eq_false, not_false_eq_true, and_true, and_false, if_true, if_false] <;> omega

theorem count_listEntries (u author : String) (list : List String) :
    (listEntries author list).count u = if u = "" ∨ u = author then 0 else named u list := by
  unfold listEntries named
  split_ifs with excluded
  · apply List.count_eq_zero_of_not_mem
    intro member
    have counted := (List.mem_filter.mp member).2
    simp only [decide_eq_true_eq] at counted
    exact excluded.elim counted.1 counted.2
  · rw [List.count_filter (by simpa [not_or] using excluded), List.count, List.countP_map]
    simp [Function.comp_def, beq_eq_decide]

theorem sumDeltas_append (first second : List (String × Int)) (u : String) :
    sumDeltas (first ++ second) u = sumDeltas first u + sumDeltas second u := by
  simp [sumDeltas]

theorem sumDeltas_map (entries : List String) (change : Int) (u : String) :
    sumDeltas (entries.map (·, change)) u = (entries.countP fun entry => normKey entry = u) * change := by
  unfold sumDeltas
  induction entries with
  | nil => simp
  | cons entry rest ih =>
    by_cases spells : normKey entry = u
    · simp only [List.map_cons, List.filter_cons, spells, decide_true, if_true, List.sum_cons, ih,
        List.countP_cons_of_pos]
      rw [Nat.cast_add, Nat.cast_one, Int.add_mul, Int.one_mul, Int.add_comm]
    · simpa [List.filter_cons, spells] using ih

theorem sumDeltas_followerDeltas {author u : String} (spelled : normKey author = author) (other : u ≠ author)
    (before after : List String) :
    sumDeltas (followerDeltas author before after) u = added u before after - dropped u before after := by
  have distinct : ∀ entry, normKey entry = u → entry ≠ author := by
    rintro _ spells rfl
    exact other (spells.symm.trans spelled)
  unfold followerDeltas added dropped
  rw [sumDeltas_append, sumDeltas_map, sumDeltas_map, List.countP_filter, List.countP_filter]
  have news : after.countP (fun entry => decide (normKey entry = u) && decide (entry ≠ author ∧ entry ∉ before)) =
      after.countP fun entry => normKey entry = u ∧ entry ∉ before := by
    apply List.countP_congr
    intro entry _
    simp only [Bool.and_eq_true, decide_eq_true_eq]
    exact ⟨fun h => ⟨h.1, h.2.2⟩, fun h => ⟨h.1, distinct entry h.1, h.2⟩⟩
  have olds : before.dedup.countP (fun entry => decide (normKey entry = u) && decide (entry ∉ after ∧ entry ≠ author)) =
      before.dedup.countP fun entry => normKey entry = u ∧ entry ∉ after := by
    apply List.countP_congr
    intro entry _
    simp only [Bool.and_eq_true, decide_eq_true_eq]
    exact ⟨fun h => ⟨h.1, h.2.1⟩, fun h => ⟨h.1, h.2, distinct entry h.1⟩⟩
  rw [news, olds]
  omega

theorem sumDeltas_author {author : String} {before after : List String}
    (old : ∀ entry ∈ before, normKey entry = author → entry = author)
    (new : ∀ entry ∈ after, normKey entry = author → entry = author) :
    sumDeltas (followerDeltas author before after) author = 0 := by
  unfold followerDeltas
  rw [sumDeltas_append, sumDeltas_map, sumDeltas_map, List.countP_eq_zero.mpr, List.countP_eq_zero.mpr]
  · simp
  · intro entry member spells
    simp only [List.mem_filter, List.mem_dedup, decide_eq_true_eq] at member spells
    exact member.2.2 (old entry member.1 spells)
  · intro entry member spells
    simp only [List.mem_filter, decide_eq_true_eq] at member spells
    exact member.2.1 (new entry member.1 spells)

/-- Both readers agree on every stored list, and a list spells its author's key in one way only. -/
structure Tidy (users : Table String UserRow) : Prop where
  keys : ∀ u list, listOf users u = some list → normKey u = u
  reads : ∀ u list, listOf users u = some list → contactEntries list = splitPubkeyList list
  own : ∀ u list, listOf users u = some list → ∀ entry ∈ splitPubkeyList list, normKey entry = u → entry = u

theorem mem_keys_iff_listOf {users : Table String UserRow} {u : String} :
    u ∈ users.keys ↔ ∃ list, listOf users u = some list := Table.mem_keys_iff_map _

theorem mem_keys_iff_countOf {users : Table String UserRow} {u : String} :
    u ∈ users.keys ↔ ∃ n, countOf users u = some n := Table.mem_keys_iff_map _

theorem Grows.agree {before after : Table String UserRow} {created : List String} (grows : Grows before after created)
    (agree : Agree before) (fresh : ∀ u ∈ created, u ∉ before.keys → timesFollowed before u = 0) : Agree after := by
  intro u n found
  rw [grows.counts] at found
  rw [grows.followed]
  cases old : countOf before u with
  | some count =>
    obtain rfl : count = n := by simpa [old] using found
    exact agree u count old
  | none =>
    have absent : u ∉ before.keys := fun member => by
      obtain ⟨n, stored⟩ := mem_keys_iff_countOf.mp member
      simp [stored] at old
    rw [old, Option.none_or] at found
    split at found
    · rename_i member
      obtain rfl := Option.some.inj found
      rw [fresh u member absent]
      rfl
    · cases found

theorem Grows.tidy {before after : Table String UserRow} {created : List String} (grows : Grows before after created)
    (tidy : Tidy before) (spelled : ∀ u ∈ created, normKey u = u) : Tidy after where
  keys u list found := by
    rcases grows.lists u list found with old | ⟨member, -⟩
    · exact tidy.keys u list old
    · exact spelled u member
  reads u list found := by
    rcases grows.lists u list found with old | ⟨-, blank⟩
    · exact tidy.reads u list old
    · rw [blank.entries.1, blank.entries.2]
  own u list found := by
    rcases grows.lists u list found with old | ⟨-, blank⟩
    · exact tidy.own u list old
    · rw [blank.entries.2]
      simp

theorem contactEntries_toJson (list : List String) : contactEntries (JsonStrings.toJson list) = list := by
  unfold contactEntries
  rw [JsonStrings.trim_toJson, if_pos (JsonStrings.startsWith_toJson list), JsonStrings.fromJson_toJson,
    Option.getD_some]

theorem storedFollows_eq (db : Db) (e : Event) :
    storedFollows db (pubkeyHex e) = splitPubkeyList ((listOf db.users (pubkeyHex e)).getD "") := by
  rw [storedFollows, Db.getByPubkey, normKey_pubkeyHex, listOf]

theorem timesFollowed_listed {db : Db} (tidy : Tidy db.users) (d : Delivery) (u : String) :
    timesFollowed (listed env db d).users u +
        (listEntries (pubkeyHex d.event) (storedFollows db (pubkeyHex d.event))).count u =
      timesFollowed db.users u + (listEntries (pubkeyHex d.event) (pTags d.event)).count u := by
  have bumped : timesFollowed (listed env db d).users u =
      timesFollowed (db.upsertUser (pubkeyHex d.event) (listRow env db d)).users u := by
    unfold timesFollowed listed Db.bumpFollowerCounts
    rw [followEntries_modify]
    intro key row
    split <;> rfl
  have sum := db.users.total_upsert (pubkeyHex d.event) (listRow env db d) (listRow env db d).merge (timesListed u)
  have new : ∀ row : UserRow, row.contactPubkeys = JsonStrings.toJson (pTags d.event) →
      timesListed u (pubkeyHex d.event) row = (listEntries (pubkeyHex d.event) (pTags d.event)).count u := by
    intro row list
    rw [timesListed, normKey_pubkeyHex, list, contactEntries_toJson]
  rw [bumped, Db.upsertUser, normKey_pubkeyHex, timesFollowed_eq_total, timesFollowed_eq_total, storedFollows_eq]
  cases found : db.users.find? (pubkeyHex d.event) with
  | none =>
    rw [found, Option.elim_none, Option.elim_none, new _ rfl] at sum
    have none : listOf db.users (pubkeyHex d.event) = none := by rw [listOf, found, Option.map_none]
    rw [none, Option.getD_none, (Blank.entries (.inl rfl)).2]
    exact sum
  | some old =>
    rw [found, Option.elim_some, Option.elim_some, new ((listRow env db d).merge old) rfl] at sum
    have list : listOf db.users (pubkeyHex d.event) = some old.contactPubkeys := by
      rw [listOf, found, Option.map_some]
    rw [list, Option.getD_some, ← tidy.reads _ _ list]
    rw [timesListed, normKey_pubkeyHex] at sum
    exact sum

theorem countOf_listed (db : Db) (d : Delivery) (u : String) :
    countOf (listed env db d).users u =
      ((countOf db.users u).or (if u = pubkeyHex d.event then some 0 else none)).map fun n =>
        if sumDeltas (followerDeltas (pubkeyHex d.event) (storedFollows db (pubkeyHex d.event)) (pTags d.event)) u = 0
        then n
        else max 0 (n + sumDeltas
          (followerDeltas (pubkeyHex d.event) (storedFollows db (pubkeyHex d.event)) (pTags d.event)) u) := by
  have zero : (listRow env db d).followerCount = 0 ∨ pubkeyHex d.event ∈ db.users.keys := by
    cases found : db.users.find? (pubkeyHex d.event) with
    | none =>
      refine .inl ?_
      rw [listRow, Db.getByPubkey, normKey_pubkeyHex, found]
      rfl
    | some old => exact .inr (Table.mem_keys_iff.mpr ⟨old, found⟩)
  have keeps : ∀ old, ((listRow env db d).merge old).followerCount = old.followerCount := fun _ => rfl
  rw [← countOf_upsert db.users (pubkeyHex d.event) keeps zero u]
  unfold listed Db.bumpFollowerCounts Db.upsertUser countOf
  rw [normKey_pubkeyHex, Table.find?_modify, Option.map_map, Option.map_map]
  congr 1
  funext row
  simp only [Function.comp_apply]
  split <;> rfl

/-- A list that the bump follows entry by entry. -/
structure CarefulList (db : Db) (e : Event) : Prop where
  own : ∀ entry ∈ pTags e, normKey entry = pubkeyHex e → entry = pubkeyHex e
  repeats : ∀ u ∈ db.users.keys, u ≠ "" → u ≠ pubkeyHex e →
    kept u (storedFollows db (pubkeyHex e)) (pTags e) + dropped u (storedFollows db (pubkeyHex e)) (pTags e) =
      named u (storedFollows db (pubkeyHex e))
  blank : "" ∈ db.users.keys →
    added "" (storedFollows db (pubkeyHex e)) (pTags e) ≤ dropped "" (storedFollows db (pubkeyHex e)) (pTags e)

theorem followEntries_nonblank (users : Table String UserRow) : timesFollowed users "" = 0 := by
  apply List.count_eq_zero_of_not_mem
  intro member
  simp [followEntries] at member

theorem followEntries_other {users : Table String UserRow} {u : String} (absent : u ∉ followEntries users) :
    timesFollowed users u = 0 := List.count_eq_zero_of_not_mem absent

theorem own_storedFollows {db : Db} (tidy : Tidy db.users) (e : Event) :
    ∀ entry ∈ storedFollows db (pubkeyHex e), normKey entry = pubkeyHex e → entry = pubkeyHex e := by
  rw [storedFollows_eq]
  cases found : listOf db.users (pubkeyHex e) with
  | none =>
    rw [Option.getD_none, (Blank.entries (.inl rfl)).2]
    simp
  | some list => exact tidy.own _ _ found

theorem agree_listed {db : Db} {d : Delivery} (tidy : Tidy db.users) (agree : Agree db.users)
    (careful : CarefulList db d.event)
    (fresh : pubkeyHex d.event ∉ db.users.keys → pubkeyHex d.event ∉ followEntries db.users) :
    Agree (listed env db d).users := by
  intro u n found
  have recount := timesFollowed_listed env tidy d u
  rw [countOf_listed] at found
  rw [count_listEntries, count_listEntries] at recount
  by_cases mine : u = pubkeyHex d.event
  · -- neither the bump nor the recount sees the author's own entries
    subst mine
    rw [sumDeltas_author (own_storedFollows tidy d.event) careful.own] at found
    simp only [or_true, if_true] at recount
    cases old : countOf db.users (pubkeyHex d.event) with
    | none =>
      have absent : pubkeyHex d.event ∉ db.users.keys := fun member => by
        obtain ⟨n, stored⟩ := mem_keys_iff_countOf.mp member
        simp [stored] at old
      have none := followEntries_other (fresh absent)
      obtain rfl : 0 = n := by simpa [old] using found
      omega
    | some count =>
      obtain rfl : count = n := by simpa [old] using found
      have before := agree _ _ old
      omega
  · rw [sumDeltas_followerDeltas (normKey_pubkeyHex d.event) mine, if_neg mine, Option.or_none] at found
    obtain ⟨count, old, bumped⟩ := Option.map_eq_some_iff.mp found
    have present : u ∈ db.users.keys := mem_keys_iff_countOf.mpr ⟨count, old⟩
    have before := agree u count old
    by_cases empty : u = ""
    · subst empty
      have none := followEntries_nonblank db.users
      have fewer := careful.blank present
      simp only [true_or, if_true] at recount
      split at bumped <;> omega
    · have split := added_add_kept u (storedFollows db (pubkeyHex d.event)) (pTags d.event)
      have balance := careful.repeats u present empty mine
      simp only [empty, mine, or_self, if_false] at recount
      split at bumped <;> omega

theorem tidy_listed {db : Db} {d : Delivery} (tidy : Tidy db.users) (careful : CarefulList db d.event) :
    Tidy (listed env db d).users := by
  have lists : ∀ u list, listOf (listed env db d).users u = some list →
      (u = pubkeyHex d.event ∧ list = JsonStrings.toJson (pTags d.event)) ∨ listOf db.users u = some list := by
    intro u list found
    by_cases mine : u = pubkeyHex d.event
    · obtain ⟨row, stored, written⟩ := find?_listed env db d
      rw [listOf, mine, stored, Option.map_some, written] at found
      exact .inl ⟨mine, (Option.some.inj found).symm⟩
    · refine .inr ?_
      rw [← found, listOf, listOf, listed, Db.bumpFollowerCounts, Db.upsertUser, normKey_pubkeyHex,
        Table.find?_modify, Table.find?_upsert_of_ne _ _ _ mine, Option.map_map]
      congr 1
      funext row
      simp only [Function.comp_apply]
      split <;> rfl
  constructor
  · intro u list found
    rcases lists u list found with ⟨rfl, -⟩ | old
    · exact normKey_pubkeyHex d.event
    · exact tidy.keys u list old
  · intro u list found
    rcases lists u list found with ⟨-, rfl⟩ | old
    · rw [contactEntries_toJson, splitPubkeyList_toJson]
    · exact tidy.reads u list old
  · intro u list found
    rcases lists u list found with ⟨rfl, rfl⟩ | old
    · rw [splitPubkeyList_toJson]
      exact careful.own
    · exact tidy.own u list old

/-! ## Runs -/

/-- An event that the counts survive: its list is careful, and no row it puts in place is followed already. -/
structure Careful (db : Db) (d : Delivery) : Prop where
  list : kindOf d.event = .contactList → CarefulList db d.event
  fresh : ∀ u ∈ ensured env db d, u ∉ db.users.keys → u ∉ followEntries db.users
  unlisted : kindOf d.event = .contactList → ∀ u ∈ ensured env db d, u ∉ db.users.keys →
    u ∉ listEntries (pubkeyHex d.event) (pTags d.event)

structure Steady (users : Table String UserRow) : Prop where
  tidy : Tidy users
  agree : Agree users

theorem steady_empty : Steady Db.empty.users where
  tidy := ⟨fun _ _ found => by simp [listOf, Db.empty] at found, fun _ _ found => by simp [listOf, Db.empty] at found,
    fun _ _ found => by simp [listOf, Db.empty] at found⟩
  agree _ _ found := by simp [countOf, Db.empty] at found

theorem normKey_ensured {db : Db} {d : Delivery} : ∀ u ∈ ensured env db d, normKey u = u := by
  intro u member
  unfold ensured at member
  rcases List.mem_append.mp member with member | member
  · split at member
    · rw [List.mem_singleton.mp member, normKey_pubkeyHex]
    · cases member
  · split at member
    · rw [List.mem_singleton.mp member, normKey_normKey]
    · cases member

theorem Steady.grows {before after : Table String UserRow} {created : List String} (steady : Steady before)
    (grows : Grows before after created) (spelled : ∀ u ∈ created, normKey u = u)
    (fresh : ∀ u ∈ created, u ∉ before.keys → timesFollowed before u = 0) : Steady after :=
  ⟨grows.tidy steady.tidy spelled, grows.agree steady.agree fresh⟩

theorem steady_contactList {db : Db} {d : Delivery} (kind : kindOf d.event = .contactList) (steady : Steady db.users)
    (careful : Careful env db d) : Steady (handleContactList env db d).users := by
  have asked : ensured env db d =
      pubkeyHex d.event :: if newlyFollowsMe env db d.event && notices env d .follow "" then
        [normKey env.myPubkey] else [] := by
    simp [ensured, opensAuthor, noticed, kind]
  have list := careful.list kind
  have middle : Steady (listed env db d).users := by
    refine ⟨tidy_listed env steady.tidy list, agree_listed env steady.tidy steady.agree list ?_⟩
    exact careful.fresh _ (by rw [asked]; exact List.mem_cons_self ..)
  rw [handleContactList_users]
  have member : ∀ u ∈ (if newlyFollowsMe env db d.event && notices env d .follow "" then
      [normKey env.myPubkey] else []), u ∈ ensured env db d := by
    intro u found
    rw [asked]
    exact List.mem_cons_of_mem _ found
  refine middle.grows (grows_withMe env _ _) (fun u found => normKey_ensured env u (member u found)) ?_
  -- a row that is new for the local user was new before the list as well
  intro u found absent
  have before : u ∉ db.users.keys := by
    intro present
    obtain ⟨n, stored⟩ := mem_keys_iff_countOf.mp present
    refine absent (mem_keys_iff_countOf.mpr ?_)
    rw [countOf_listed, stored]
    exact ⟨_, rfl⟩
  have recount := timesFollowed_listed env steady.tidy d u
  rw [followEntries_other (careful.fresh u (member u found) before),
    List.count_eq_zero_of_not_mem (careful.unlisted kind u (member u found) before)] at recount
  omega

theorem steady_applied {db : Db} {d : Delivery} (steady : Steady db.users) (careful : Careful env db d) :
    Steady (applied env db d).users := by
  have unfollowed : ∀ u ∈ ensured env db d, u ∉ db.users.keys → timesFollowed db.users u = 0 := fun u member absent =>
    followEntries_other (careful.fresh u member absent)
  by_cases contactList : kindOf d.event = .contactList
  · have same : applied env db d = handleContactList env db d := by simp only [applied, contactList]
    rw [same]
    exact steady_contactList env contactList steady careful
  · by_cases metadata : kindOf d.event = .metadata
    · have same : applied env db d = handleMetadata env db d := by simp only [applied, metadata]
      rw [same]
      exact steady.grows (grows_metadata env db d metadata) (normKey_ensured env) unfollowed
    · exact steady.grows (grows_other env db d metadata contactList) (normKey_ensured env) unfollowed

/-- Every verified event of the run is careful in the state that it meets. -/
def CarefulRun (db : Db) (run : List Delivery) : Prop :=
  ∀ before d after, run = before ++ d :: after → d.event.verify env.prims = true →
    Careful env (ingestAll env db before) d

theorem steady_ingestAll {db : Db} {run : List Delivery} (steady : Steady db.users) (careful : CarefulRun env db run) :
    Steady (ingestAll env db run).users := by
  induction run using List.reverseRecOn with
  | nil => exact steady
  | append_singleton before d ih =>
    have past : CarefulRun env db before := by
      rintro first d' rest rfl verified
      exact careful first d' (rest ++ [d]) (by simp) verified
    rw [ingestAll_snoc]
    cases verified : d.event.verify env.prims with
    -- An event that does not verify is rolled back whole.
    | false =>
      rw [handle_unverified env _ verified]
      exact ih past
    | true =>
      rw [handle_verified env _ verified]
      exact steady_applied env (ih past) (careful before d [] rfl verified)

/-- The counts match the recount in every state of a careful run. -/
theorem follower_counts_match {run : List Delivery} (careful : CarefulRun env Db.empty run) :
    ∀ before after, run = before ++ after → CountsMatch (ingestAll env Db.empty before) := by
  rintro before after rfl
  have past : CarefulRun env Db.empty before := by
    rintro first d rest rfl verified
    exact careful first d (rest ++ after) (by simp) verified
  exact countsMatch_iff_agree.mpr (steady_ingestAll env steady_empty past).agree

/-! ## A follow of a key without a row -/

section Unknown

/-- A note of the key that `olderList` follows. -/
def bobNote : Event where
  pubkey := beBytes 32 0x79be667ef9dcbbac55a06295ce870b07029bfcdb2dce28d959f2815b16f81798
  createdAt := 1700000000
  kind := 1
  tags := []
  content := "hi"
  id := beBytes 32 0x33c758466a465ce9df004b6d6e3abb039d593277784c276c49725a622794eca0
  sig := beBytes 64 0xa9544c5a2c6556f47336d7e49362b414af672e689bfbd5d8c1fff3105b2bfe8ac3c8436707b3db6dc4e88ed9c82001f23c6883dfb2b3e0d6c0f173cbf4e8c9f6

def bobEnv : Env :=
  { Env.plain (.ofSigned [olderList, bobNote]) "" with
    toBech32 := fun _ => "npub1lycg5qvjtrp3qjf5f7zl382j9x6nrjz9sdhenvyxq8c3808qxmus6gq266" }

def heardBob : Delivery := ⟨bobNote, 1700000500, true⟩

theorem verified_bob {d : Delivery} (member : d = heardOlder ∨ d = heardBob) :
    d.event.verify bobEnv.prims = true := by
  have distinct : ([olderList, bobNote].map Event.toUnsignedEvent).Nodup := by decide
  rcases member with rfl | rfl
  · exact Primitives.verify_ofSigned distinct (by simp [heardOlder])
  · exact Primitives.verify_ofSigned distinct (by simp [heardBob])

theorem author_ne_bob : pubkeyHex olderList ≠ bob := by
  intro same
  exact absurd (hexEncode_inj same) (by decide)

theorem normKey_bob : normKey bob = bob := normKey_hexEncode _

theorem bob_ne_blank : bob ≠ "" := by decide

theorem bob_counted : ¬ (bob = "" ∨ bob = pubkeyHex heardOlder.event) :=
  fun excluded => excluded.elim bob_ne_blank author_ne_bob.symm

theorem ensured_bob (db : Db) : ensured bobEnv db heardBob = [bob] := by
  have opens : opensAuthor bobEnv db heardBob = true := by
    change ((storableRow bobEnv heardBob).map fun _ => authorRow heardBob).isSome = true
    rw [Option.isSome_map]
    decide
  have silent : noticed bobEnv db heardBob = false := by
    have unaddressed : ∀ row ∈ storableRow bobEnv heardBob, replyTarget row = none := by decide
    change ((storableRow bobEnv heardBob).any fun row =>
      (noteNotice bobEnv (written bobEnv db heardBob row) heardBob row).any (notices bobEnv heardBob · row.content)) = false
    cases found : storableRow bobEnv heardBob with
    | none => rfl
    | some row =>
      rw [Option.any_some, noteNotice, unaddressed row found]
      rfl
  rw [ensured, opens, silent]
  rfl

theorem ensured_older (db : Db) : ensured bobEnv db heardOlder = [pubkeyHex olderList] := by
  have silent : noticed bobEnv db heardOlder = false := by rfl
  rw [ensured, silent]
  rfl

theorem storedFollows_empty (e : Event) : storedFollows Db.empty (pubkeyHex e) = [] := by
  rw [storedFollows_eq]
  rfl

/-- The list is stored while bob has no row; the row then starts from zero. -/
theorem follow_before_row_is_uncounted :
    (∀ d ∈ [heardOlder, heardBob], d.event.verify bobEnv.prims = true) ∧
      ¬ CountsMatch (ingestAll bobEnv Db.empty [heardOlder, heardBob]) := by
  refine ⟨by simpa using ⟨verified_bob (.inl rfl), verified_bob (.inr rfl)⟩, fun counts => ?_⟩
  have states : ingestAll bobEnv Db.empty [heardOlder, heardBob] =
      applied bobEnv (handleContactList bobEnv Db.empty heardOlder) heardBob := by
    rw [← handle_verified bobEnv _ (verified_bob (.inr rfl)),
      show handleContactList bobEnv Db.empty heardOlder = applied bobEnv Db.empty heardOlder from rfl,
      ← handle_verified bobEnv _ (verified_bob (.inl rfl))]
    rfl
  have users : (handleContactList bobEnv Db.empty heardOlder).users = (listed bobEnv Db.empty heardOlder).users := by
    rw [handleContactList_users]
    rfl
  have grows := grows_other bobEnv (handleContactList bobEnv Db.empty heardOlder) heardBob (by decide) (by decide)
  have followed : timesFollowed (listed bobEnv Db.empty heardOlder).users bob = 1 := by
    have recount := timesFollowed_listed bobEnv steady_empty.tidy heardOlder bob
    rw [count_listEntries, count_listEntries, if_neg bob_counted, if_neg bob_counted, storedFollows_empty,
      show pTags heardOlder.event = [bob] from pTags_older] at recount
    have once : named bob [bob] = 1 := by simp [named, normKey_bob]
    have before : named bob [] = 0 := List.countP_nil
    have unfollowed : timesFollowed Db.empty.users bob = 0 := List.count_nil
    omega
  have unknown : countOf (listed bobEnv Db.empty heardOlder).users bob = none := by
    rw [countOf_listed, if_neg fun same => bob_counted (.inr same)]
    rfl
  have count : countOf (applied bobEnv (handleContactList bobEnv Db.empty heardOlder) heardBob).users bob = some 0 := by
    rw [grows.counts, users, unknown, ensured_bob]
    simp
  have agree := countsMatch_iff_agree.mp counts bob 0 (by rw [states, count])
  rw [states, grows.followed, users, followed] at agree
  exact absurd agree (by decide)

/-- The row is there first and the list then counts. -/
theorem follow_after_row_is_counted :
    CountsMatch (ingestAll bobEnv Db.empty [heardBob]) ∧
      CountsMatch (ingestAll bobEnv Db.empty [heardBob, heardOlder]) := by
  have first : ingestAll bobEnv Db.empty [heardBob] = applied bobEnv Db.empty heardBob :=
    handle_verified bobEnv Db.empty (verified_bob (.inr rfl))
  have grows := grows_other bobEnv Db.empty heardBob (by decide) (by decide)
  have unfollowed : ∀ u, timesFollowed (applied bobEnv Db.empty heardBob).users u = 0 := grows.followed
  have unlisted : storedFollows (applied bobEnv Db.empty heardBob) (pubkeyHex olderList) = [] := by
    rw [storedFollows_eq]
    cases list : listOf (applied bobEnv Db.empty heardBob).users (pubkeyHex olderList) with
    | none => rw [Option.getD_none, (Blank.entries (.inl rfl)).2]
    | some list' =>
      rcases grows.lists _ _ list with old | ⟨-, blank⟩
      · simp [listOf, Db.empty] at old
      · rw [Option.getD_some, blank.entries.2]
  have careful : CarefulRun bobEnv Db.empty [heardBob, heardOlder] := by
    intro before d after split _
    rcases before with _ | ⟨heard, _ | ⟨other, rest⟩⟩
    · -- The first delivery is no list.
      obtain ⟨rfl, -⟩ := List.cons.inj split
      refine ⟨fun kind => absurd kind (by decide), ?_, fun kind => absurd kind (by decide)⟩
      exact fun _ _ _ => List.not_mem_nil
    · -- The list comes to an author without a list, and the user it names has a row.
      obtain ⟨rfl, rest⟩ := List.cons.inj split
      obtain ⟨rfl, -⟩ := List.cons.inj rest
      rw [first]
      refine ⟨fun _ => ⟨?_, ?_, ?_⟩, ?_, ?_⟩
      · intro entry member same
        rw [heardOlder, pTags_older, List.mem_singleton] at member
        rw [member, normKey_bob] at same
        exact absurd same.symm author_ne_bob
      · intro u _ _ _
        rw [heardOlder, unlisted]
        simp [kept, dropped, named]
      · intro blank
        obtain ⟨list, found⟩ := mem_keys_iff_listOf.mp blank
        rcases grows.lists _ _ found with old | ⟨member, -⟩
        · simp [listOf, Db.empty] at old
        · rw [ensured_bob, List.mem_singleton] at member
          exact absurd member.symm bob_ne_blank
      · intro u _ _ member
        exact absurd (unfollowed u) (Nat.ne_of_gt (List.count_pos_iff.mpr member))
      · intro _ u member _ listed
        rw [ensured_older, List.mem_singleton] at member
        have counted := (List.mem_filter.mp listed).2
        simp [member, heardOlder] at counted
    · simp at split
  have counts := follower_counts_match bobEnv careful
  exact ⟨counts [heardBob] [heardOlder] rfl, counts [heardBob, heardOlder] [] rfl⟩

end Unknown

end Soshal.Sync
