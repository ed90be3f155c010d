import Soshal.Db.CanonicalSchema
import Soshal.Db.KeyMigration

/-! Migration of a database of version 1 to normalised keys.

Spellings of one user are merged into the newest, and what refers to an older spelling
goes with it. Nothing but duplicates is lost where each such row has a duplicate that
stays, and the transaction goes through where no reference and no unique index is broken.
-/

set_option autoImplicit false

namespace Soshal.Db

open Library.Relational
open Library.Fallible (ok_bind bind_eq_ok)

def rowOf (rowid : Int) (cells : List (String × String)) : Row := ⟨rowid, fun c => cells.lookup c⟩

def ofUser : Reference := ⟨"pubkey", "users", "pubkey", true⟩

def ofGroup : Reference := ⟨"group_id", "groups", "id", true⟩

/-- What the schema of version 1 and the list of targets say. -/
structure UpgradeFacts : Prop where
  flat : Flat v1Layouts
  targets : (targets.map Prod.fst).Nodup ∧ ∀ target ∈ targets, Fits v1Layouts target
  reverseTables : ∀ index ∈ reverseIndexes, (v1Layouts.lookup index.table).isSome
  /-- Users come first, and refer to nothing. -/
  users : (v1Layouts.lookup "users").isSome ∧ (layoutOf v1Layouts "users").references = [] ∧
    (layoutOf v1Layouts "users").primaryKey = ["pubkey"] ∧ Db.targets.lookup "users" = some ["pubkey"] ∧
    "users" ∉ Db.targets.tail.map Prod.fst
  /-- The keys of groups are not rewritten, and groups refer to nothing. -/
  groups : (v1Layouts.lookup "groups").isSome ∧ (layoutOf v1Layouts "groups").references = [] ∧
    (layoutOf v1Layouts "groups").primaryKey = ["id"] ∧ Db.targets.lookup "groups" = some ["pubkey"] ∧
    ∀ target ∈ Db.targets, target.1 = "groups" → "id" ∉ target.2
  votes : (layoutOf v1Layouts "poll_votes").primaryKey = ["id"] ∧ (layoutOf v1Layouts "poll_votes").references = [] ∧
    ("poll_votes", ["voter_pubkey"]) ∈ Db.targets.tail ∧
    ∀ target ∈ Db.targets, target.1 = "poll_votes" → target = ("poll_votes", ["voter_pubkey"])
  media : (v1Layouts.lookup "media_blobs").isSome ∧ Db.targets.lookup "media_blobs" = none ∧
    ofUser ∈ (layoutOf v1Layouts "media_blobs").references
  /-- A reference is to a user, and rewritten but for media, or to a group, and not rewritten. -/
  references : ∀ entry ∈ v1Layouts, ∀ r ∈ entry.2.references,
    r = ofUser ∧ ((entry.1 = "media_blobs" ∧ Db.targets.lookup entry.1 = none) ∨
        (Db.targets.lookup entry.1).any (fun cols => cols.contains "pubkey") = true) ∨
      r = ofGroup ∧ (Db.targets.lookup entry.1).any (fun cols => cols.contains "group_id") = false
  unique : v1Indexes.filter (fun index => index.isUnique) =
    [⟨"idx_poll_votes_poll_voter", "poll_votes", ["poll_id", "voter_pubkey"], true⟩]

theorem upgradeFacts : UpgradeFacts where
  flat := by unfold Flat; decide +kernel
  targets := by decide +kernel
  reverseTables := by decide +kernel
  users := by decide +kernel
  groups := by decide +kernel
  votes := by decide +kernel
  media := by decide +kernel
  references := by decide +kernel
  unique := by decide +kernel

/-- The rows of a database that meets the constraints of version 1. -/
structure V1Database where
  rows : String → List Row
  rowids : ∀ name, ((rows name).map Row.rowid).Nodup
  keys : ∀ entry ∈ v1Layouts, distinct entry.2.primaryKey (rows entry.1) = true
  indexes : ∀ entry ∈ v1Layouts, Database.indexesHold v1Indexes entry.1 (rows entry.1) = true
  references : referencesHold (fill v1Layouts rows) = true

namespace V1Database

variable (v1 : V1Database)

def db : Database := ⟨fill v1Layouts v1.rows, v1Indexes, v1Search, v1Triggers, some [1]⟩

/-- The rows of `users` with a newer spelling of their key. -/
def olderSpellings : List (String × Row) := replaced v1Layouts v1.rows "users" ["pubkey"]

def refersToOlder (name : String) (row : Row) : Bool := points v1.olderSpellings (layoutOf v1Layouts name) row

def standing (name : String) : List Row := (v1.rows name).filter fun row => !v1.refersToOlder name row

def primaryKey (name : String) : List String := (layoutOf v1Layouts name).primaryKey

/-- A row of a target table is gone, and one with the same normalised key is there. -/
def Merged (after : Database) (name : String) (row : Row) : Prop :=
  ∃ cols, targets.lookup name = some cols ∧
    ∃ left ∈ after.rowsOf name, (primaryKey name).map left.cell = groupKey (primaryKey name) cols row

structure Upgraded (after : Database) : Prop where
  keys : after.KeysNormalized
  references : referencesHold after.tables = true
  lost : ∀ name, (v1Layouts.lookup name).isSome → ∀ row ∈ v1.rows name,
    (∃ left ∈ after.rowsOf name, left.rowid = row.rowid) ∨ Merged after name row

/-- `migrate` succeeds, and leaves normalised keys, references that hold, and all rows but duplicates. -/
def Upgrades : Prop := ∃ after, v1.db.migrate = (.ok (), after) ∧ v1.Upgraded after

/-- What the rows of a database have to meet. -/
structure Clean : Prop where
  /-- A row that refers to an older spelling of a user has a duplicate that does not. -/
  duplicates : ∀ name, (v1Layouts.lookup name).isSome → ∀ row ∈ v1.rows name, v1.refersToOlder name row = true →
    ∃ cols, targets.lookup name = some cols ∧
      ∃ other ∈ v1.standing name, groupKey (primaryKey name) cols other = groupKey (primaryKey name) cols row
  /-- Media, whose keys are not rewritten, belong to normalised ones. -/
  blobs : ∀ row ∈ v1.rows "media_blobs", row.cell "pubkey" = (row.cell "pubkey").map lowerTrim
  /-- A voter with two spellings has not voted twice in a poll. -/
  votes : ∀ a ∈ v1.rows "poll_votes", ∀ b ∈ v1.rows "poll_votes",
    newest ["id"] ["voter_pubkey"] (v1.rows "poll_votes") a = true →
    newest ["id"] ["voter_pubkey"] (v1.rows "poll_votes") b = true →
    a.cell "poll_id" ≠ none → a.cell "poll_id" = b.cell "poll_id" → a.cell "voter_pubkey" ≠ none →
    (a.cell "voter_pubkey").map lowerTrim = (b.cell "voter_pubkey").map lowerTrim → a.rowid = b.rowid

end V1Database

theorem v1_layout {entry : String × Layout} (member : entry ∈ v1Layouts) : layoutOf v1Layouts entry.1 = entry.2 :=
  layoutOf_mem v1_names member

theorem entry_of_isSome {name : String} (known : (v1Layouts.lookup name).isSome) :
    (name, layoutOf v1Layouts name) ∈ v1Layouts :=
  mem_of_lookup (layoutOf_isSome known)

theorem indexesHold_v1 {name : String} {rows : List Row} :
    Database.indexesHold v1Indexes name rows = true ↔
      (name = "poll_votes" → distinct ["poll_id", "voter_pubkey"] rows = true) := by
  rw [Database.indexesHold, List.all_eq_true]
  constructor
  · rintro holds rfl
    have listed :
        (⟨"idx_poll_votes_poll_voter", "poll_votes", ["poll_id", "voter_pubkey"], true⟩ : Index) ∈ v1Indexes := by
      refine List.mem_of_mem_filter (p := fun index => index.isUnique) ?_
      rw [upgradeFacts.unique]
      exact List.mem_cons_self
    exact holds _ listed
  · intro holds index listed
    cases uniq : index.isUnique with
    | false => rfl
    | true =>
      have only : index ∈ v1Indexes.filter fun index => index.isUnique := List.mem_filter.mpr ⟨listed, uniq⟩
      rw [upgradeFacts.unique, List.mem_singleton] at only
      subst only
      by_cases same : "poll_votes" = name
      · rw [holds same.symm, Bool.or_true]
      · rw [decide_eq_false same]
        rfl

theorem full_fill (rows : String → List Row) (migrations : Option (List Int)) :
    (⟨fill v1Layouts rows, v1Indexes, v1Search, v1Triggers, migrations⟩ : Database).FullSchema where
  tables entry member := by
    refine ⟨⟨entry.2, rows entry.1⟩, ?_, ⟨fun c listed => listed, rfl, rfl⟩⟩
    rw [lookup_fill, lookup_of_mem v1_names member]
    rfl
  indexes index listed := ⟨index, listed, rfl⟩
  search table listed := ⟨table.2, lookup_of_mem v1_search_names listed, fun c member => member⟩
  triggers trigger listed := ⟨trigger, listed, rfl⟩

variable (v1 : V1Database)

namespace V1Database

variable {v1 : V1Database}

theorem full : v1.db.FullSchema := full_fill v1.rows (some [1])

def final : String → List Row := finish v1Layouts targets v1.standing

theorem standing_users : v1.standing "users" = v1.rows "users" := by
  rw [standing, List.filter_eq_self]
  intro row _
  rw [refersToOlder, points, upgradeFacts.users.2.1]
  rfl

theorem refers_v1 {child : String × Layout} (listed : child ∈ v1Layouts) {r : Reference}
    (named : r ∈ child.2.references) :
    r = ofUser ∨ r = ofGroup := (upgradeFacts.references child listed r named).imp And.left And.left

def usersSettled : String → List Row :=
  Function.update v1.standing "users" (settled v1Layouts v1.standing ("users", ["pubkey"]))

theorem normalizeUsers : v1.db.normalizeTable "users" ["pubkey"] = .ok (v1.db.holding v1Layouts v1.usersSettled) := by
  have known := layoutOf_isSome upgradeFacts.users.1
  obtain ⟨-, keyed, some_, columns⟩ := upgradeFacts.targets.2 ("users", ["pubkey"]) List.mem_cons_self
  have holds : Database.indexesHold v1.db.indexes "users"
      (settle (layoutOf v1Layouts "users").primaryKey ["pubkey"] (v1.rows "users")) = true :=
    indexesHold_v1.mpr fun same => absurd same (by decide)
  refine (@normalizeTable_root v1Layouts v1.rows v1.db _ _ _ v1_names upgradeFacts.flat known keyed columns some_ upgradeFacts.users.2.1).trans ?_
  rw [if_pos holds]
  congr 2
  funext name
  rw [usersSettled, settled, standing_users]
  by_cases same : name = "users"
  · subst same
    rw [Function.update_self, Function.update_self]
  · rw [Function.update_of_ne same, Function.update_of_ne same, deduped, unpointed, Function.update_of_ne same]
    rfl

theorem unreferred_v1 : ∀ target ∈ targets.tail,
    Unreferred v1Layouts target.1 target.2 (v1.usersSettled target.1) := by
  intro target listed row member older child named r refers parent
  have apart : target.1 ≠ "users" := fun same => upgradeFacts.users.2.2.2.2 (same ▸ List.mem_map_of_mem listed)
  rcases refers_v1 named refers with rfl | rfl
  · exact absurd parent.symm apart
  · have parent : "groups" = target.1 := parent
    have settled_ : v1.usersSettled "groups" = v1.standing "groups" :=
      Function.update_of_ne (by decide : "groups" ≠ "users") ..
    rw [← parent, settled_, upgradeFacts.groups.2.2.1] at older
    rw [← parent, settled_] at member
    obtain ⟨other, there, same, later⟩ := newer_of_not_newest older
    have plain : "id" ∉ target.2 :=
      fun listed_ => upgradeFacts.groups.2.2.2.2 target (List.mem_of_mem_tail listed) parent.symm listed_
    have key : row.cell "id" = other.cell "id" := by
      rw [groupKey, groupKey, List.map_inj_left] at same
      have id := same "id" List.mem_cons_self
      rw [if_neg (List.contains_iff_mem.not.mpr plain), if_neg (List.contains_iff_mem.not.mpr plain)] at id
      exact id.symm
    by_contra present
    have groups := v1.keys _ (entry_of_isSome upgradeFacts.groups.1)
    rw [upgradeFacts.groups.2.2.1, distinct_iff] at groups
    have one := groups row (List.mem_of_mem_filter member) other (List.mem_of_mem_filter there)
      (fun c listed => List.mem_singleton.mp listed ▸ present) (fun c listed => List.mem_singleton.mp listed ▸ key)
    omega

theorem normalizeAll_v1 : v1.db.normalizeAll =
      if distinct ["poll_id", "voter_pubkey"] (settled v1Layouts v1.standing ("poll_votes", ["voter_pubkey"])) then
        .ok ((v1.db.holding v1Layouts v1.final).record 2)
      else .error (.uniqueFailed "poll_votes") := by
  have names : (targets.tail.map Prod.fst).Nodup := (List.nodup_cons.mp upgradeFacts.targets.1).2
  have fit : ∀ target ∈ targets.tail, Fits v1Layouts target :=
    fun target listed => upgradeFacts.targets.2 target (List.mem_of_mem_tail listed)
  have final : finish v1Layouts targets.tail v1.usersSettled = v1.final :=
    @finish_cons v1Layouts v1.standing ("users", ["pubkey"]) targets.tail upgradeFacts.users.2.2.2.2
  have run :=
    @normalizeTables_fill v1Layouts v1.usersSettled v1.db v1_names upgradeFacts.flat _ names fit v1.unreferred_v1
  rw [final] at run
  have split_ : targets = ("users", ["pubkey"]) :: targets.tail := rfl
  rw [Database.normalizeAll, split_, List.foldlM_cons, normalizeUsers, ok_bind, run]
  cases found : targets.tail.find? fun target =>
      !Database.indexesHold v1.db.indexes target.1 (settled v1Layouts v1.usersSettled target) with
  | none =>
    rw [if_pos]
    · rfl
    · have holds := List.find?_eq_none.mp found _ upgradeFacts.votes.2.2.1
      rw [Bool.not_eq_true, Bool.not_eq_false'] at holds
      exact indexesHold_v1.mp holds rfl
  | some target =>
    have fails := List.find?_some found
    have listed := List.mem_of_find?_eq_some found
    rw [Bool.not_eq_true', Bool.eq_false_iff] at fails
    have fails := Classical.not_imp.mp fun told => fails (indexesHold_v1.mpr told)
    have same := upgradeFacts.votes.2.2.2 target (List.mem_of_mem_tail listed) fails.1
    subst same
    rw [if_neg]
    · rfl
    · intro told
      refine fails.2 ?_
      rw [settled, usersSettled, Function.update_of_ne (by decide : "poll_votes" ≠ "users")]
      exact told

end V1Database

theorem createReverseIndexes {indexes : List Index} {base : Database}
    (columns : ∀ index ∈ indexes, ∃ relation, base.tables.lookup index.table = some relation ∧
      ∀ c ∈ index.columns, c ∈ relation.layout.columns)
    (plain : ∀ index ∈ indexes, index.isUnique = false) :
    ∃ created, indexes.foldlM Database.createReverseIndex base = .ok { base with indexes := created } := by
  induction indexes generalizing base with
  | nil => exact ⟨base.indexes, rfl⟩
  | cons index rest ih =>
    obtain ⟨relation, found, there⟩ := columns index List.mem_cons_self
    have missing : (index.columns.find? fun column => !relation.layout.columns.contains column) = none := by
      rw [List.find?_eq_none]
      intro c listed
      rw [List.contains_iff_mem.mpr (there c listed)]
      decide
    have first : ∃ created, base.createReverseIndex index = .ok { base with indexes := created } := by
      rw [Database.createReverseIndex, if_pos (Database.tableExists_iff.mpr ⟨relation, found⟩),
        Database.createIndex, found]
      simp only [missing, plain index List.mem_cons_self]
      split
      · exact ⟨base.indexes, rfl⟩
      · exact ⟨base.indexes ++ [index], rfl⟩
    obtain ⟨created, first⟩ := first
    obtain ⟨final, later⟩ :=
      @ih { base with indexes := created } (fun other listed => columns other (List.mem_cons_of_mem _ listed))
      (fun other listed => plain other (List.mem_cons_of_mem _ listed))
    exact ⟨final, by rw [List.foldlM_cons, first, ok_bind, later]⟩

namespace V1Database

variable {v1 : V1Database}

theorem v3_v1 : ∃ after,
    ((v1.db.holding v1Layouts v1.final).record 2).v3ReverseKeyIndexes = .ok after ∧
      after.tables = fill v1Layouts v1.final := by
  obtain ⟨created, made⟩ := @createReverseIndexes reverseIndexes ((v1.db.holding v1Layouts v1.final).record 2)
    (fun index listed => by
      refine ⟨⟨layoutOf v1Layouts index.table, v1.final index.table⟩, ?_, ?_⟩
      · exact (lookup_fill ..).trans (by rw [layoutOf_isSome (upgradeFacts.reverseTables index listed)]; rfl)
      · exact index_columns_v1 index (List.mem_append_right _ listed)) (by decide)
  refine ⟨({ (v1.db.holding v1Layouts v1.final).record 2 with indexes := created } : Database).record 3, ?_, rfl⟩
  rw [Database.v3ReverseKeyIndexes, made]
  rfl

theorem transaction_v1 : ∃ after, after.tables = fill v1Layouts v1.final ∧
    v1.db.transaction =
      if distinct ["poll_id", "voter_pubkey"] (settled v1Layouts v1.standing ("poll_votes", ["voter_pubkey"])) then
        if referencesHold (fill v1Layouts v1.final) then .ok after else .error .foreignKeyFailed
      else .error (.uniqueFailed "poll_votes") := by
  obtain ⟨after, third, same⟩ := v1.v3_v1
  refine ⟨after, same, ?_⟩
  have current : v1.db.currentVersion = 1 := rfl
  have run : v1.db.transaction = v1.db.normalizeAll >>= fun db => db.v3ReverseKeyIndexes >>= Database.commit := by
    rw [Database.transaction, v1.full.healed, ok_bind, current]
    have first : v1.db.runStep 1 (1, Database.v1CreateTables) = .ok v1.db := if_neg (by decide)
    rw [if_neg (by decide), Database.steps, List.foldlM_cons, first, ok_bind, List.foldlM_cons, bind_assoc]
    refine congrArg _ (funext fun db => ?_)
    rw [List.foldlM_cons, bind_assoc]
    rfl
  rw [run, normalizeAll_v1]
  split
  · rw [ok_bind, third, ok_bind, Database.commit, same]
  · rfl

theorem final_target {name : String} {cols : List String} (listed : targets.lookup name = some cols) :
    v1.final name = settle (primaryKey name) cols (v1.standing name) := by
  rw [final, finish, listed]
  rfl

theorem final_other {name : String} (none_ : targets.lookup name = none) : v1.final name = v1.standing name := by
  rw [final, finish, none_]

theorem standing_root {name : String} (root : (layoutOf v1Layouts name).references = []) :
    v1.standing name = v1.rows name := by
  rw [standing, List.filter_eq_self]
  intro row _
  rw [refersToOlder, points, root]
  rfl

theorem mem_standing {name : String} {row : Row} :
    row ∈ v1.standing name ↔ row ∈ v1.rows name ∧ v1.refersToOlder name row = false := by
  rw [standing, List.mem_filter, Bool.not_eq_true']

theorem votes_iff :
    distinct ["poll_id", "voter_pubkey"] (settled v1Layouts v1.standing ("poll_votes", ["voter_pubkey"])) = true ↔
    ∀ a ∈ v1.rows "poll_votes", ∀ b ∈ v1.rows "poll_votes",
      newest ["id"] ["voter_pubkey"] (v1.rows "poll_votes") a = true →
      newest ["id"] ["voter_pubkey"] (v1.rows "poll_votes") b = true →
      a.cell "poll_id" ≠ none → a.cell "poll_id" = b.cell "poll_id" → a.cell "voter_pubkey" ≠ none →
      (a.cell "voter_pubkey").map lowerTrim = (b.cell "voter_pubkey").map lowerTrim → a.rowid = b.rowid := by
  have rows : settled v1Layouts v1.standing ("poll_votes", ["voter_pubkey"]) =
      settle ["id"] ["voter_pubkey"] (v1.rows "poll_votes") := by
    rw [settled, upgradeFacts.votes.1, standing_root upgradeFacts.votes.2.1]
  have poll : ∀ row, (rewriteAll ["voter_pubkey"] row).cell "poll_id" = row.cell "poll_id" := fun row => by
    rw [cell_rewriteAll, if_neg (by decide)]
  have voter : ∀ row, (rewriteAll ["voter_pubkey"] row).cell "voter_pubkey" = (row.cell "voter_pubkey").map lowerTrim :=
    fun row => by rw [cell_rewriteAll, if_pos List.mem_cons_self]
  rw [rows, distinct_iff]
  simp only [mem_settle, List.forall_mem_cons, List.not_mem_nil, false_imp_iff, forall_const, and_true]
  constructor
  · intro told a listed b listed' newer newer' present same present' same'
    have one := told _ ⟨a, listed, newer, rfl⟩ _ ⟨b, listed', newer', rfl⟩
    rw [poll, poll, voter, voter, rowid_rewriteAll, rowid_rewriteAll, Ne, Ne, Option.map_eq_none_iff] at one
    exact one ⟨present, present'⟩ ⟨same, same'⟩
  · rintro told _ ⟨a, listed, newer, rfl⟩ _ ⟨b, listed', newer', rfl⟩ ⟨present, present'⟩ ⟨same, same'⟩
    rw [poll] at present
    rw [voter, Ne, Option.map_eq_none_iff] at present'
    rw [poll, poll] at same
    rw [voter, voter] at same'
    rw [rowid_rewriteAll, rowid_rewriteAll]
    exact told a listed b listed' newer newer' present same present' same'

theorem resolves_fill {rows : String → List Row} {r : Reference} {row : Row}
    (known : (v1Layouts.lookup r.parent).isSome) :
    resolves (fill v1Layouts rows) r row = true ↔
      row.cell r.column = none ∨ ∃ parent ∈ rows r.parent, parent.cell r.parentColumn = row.cell r.column := by
  rw [resolves, lookup_fill, layoutOf_isSome known]
  simp only [Option.map_some, Option.any_some, Bool.or_eq_true, Option.isNone_iff_eq_none, List.any_eq_true,
    decide_eq_true_eq]

theorem referencesHold_fill {rows : String → List Row} :
    referencesHold (fill v1Layouts rows) = true ↔
      ∀ entry ∈ v1Layouts, ∀ row ∈ rows entry.1, ∀ r ∈ entry.2.references, resolves (fill v1Layouts rows) r row = true := by
  simp only [referencesHold, List.all_eq_true]
  constructor
  · exact fun told entry member => told _ (List.mem_map_of_mem member)
  · intro told filled member
    obtain ⟨entry, listed, rfl⟩ := List.mem_map.mp member
    exact told entry listed

theorem user_stays {user : Row} (member : user ∈ v1.rows "users") :
    ∃ left ∈ v1.final "users", left.cell "pubkey" = (user.cell "pubkey").map lowerTrim := by
  rw [final_target upgradeFacts.users.2.2.2.1, primaryKey, upgradeFacts.users.2.2.1,
    standing_root upgradeFacts.users.2.1]
  obtain ⟨left, there, same⟩ := exists_settled ["pubkey"] ["pubkey"] member
  refine ⟨left, there, ?_⟩
  rw [List.map_cons, List.map_nil, groupKey, List.map_cons, List.map_nil, if_pos (by decide), List.cons.injEq] at same
  exact same.1

theorem group_stays {group : Row} (member : group ∈ v1.rows "groups") :
    ∃ left ∈ v1.final "groups", left.cell "id" = group.cell "id" := by
  rw [final_target upgradeFacts.groups.2.2.2.1, standing_root upgradeFacts.groups.2.1]
  obtain ⟨left, there, same⟩ := exists_settled (primaryKey "groups") ["pubkey"] member
  refine ⟨left, there, ?_⟩
  rw [primaryKey, upgradeFacts.groups.2.2.1, List.map_cons, List.map_nil, groupKey, List.map_cons, List.map_nil,
    if_neg (by decide), List.cons.injEq] at same
  exact same.1

theorem origin {name : String} {left : Row} (member : left ∈ v1.final name) :
    ∃ row ∈ v1.standing name, row.rowid = left.rowid ∧
      ∀ c, left.cell c = if (targets.lookup name).any (fun cols => cols.contains c) then (row.cell c).map lowerTrim else row.cell c := by
  cases listed : targets.lookup name with
  | none =>
    rw [final_other listed] at member
    exact ⟨left, member, rfl, fun c => rfl⟩
  | some cols =>
    rw [final_target listed] at member
    obtain ⟨row, there, -, rfl⟩ := mem_settle.mp member
    refine ⟨row, there, (rowid_rewriteAll ..).symm, fun c => ?_⟩
    rw [cell_rewriteAll]
    simp only [Option.any_some, List.contains_iff_mem]

theorem references_iff : referencesHold (fill v1Layouts v1.final) = true ↔
    ∀ row ∈ v1.standing "media_blobs", row.cell "pubkey" = (row.cell "pubkey").map lowerTrim := by
  have before := referencesHold_fill.mp v1.references
  rw [referencesHold_fill]
  constructor
  · intro after row member
    have left : row ∈ v1.final "media_blobs" := by rwa [final_other upgradeFacts.media.2.1]
    have held := after _ (entry_of_isSome upgradeFacts.media.1) row left ofUser upgradeFacts.media.2.2
    rcases (resolves_fill upgradeFacts.users.1).mp held with absent | ⟨parent, there, same⟩
    · have absent : row.cell "pubkey" = none := absent
      rw [absent]
      rfl
    · have same : parent.cell "pubkey" = row.cell "pubkey" := same
      have there : parent ∈ v1.final "users" := there
      rw [final_target upgradeFacts.users.2.2.2.1] at there
      rw [← same]
      exact settle_normal there List.mem_cons_self
  · intro media entry listed left member r named
    obtain ⟨row, there, -, cells⟩ := origin member
    have held := before entry listed row (mem_standing.mp there).1 r named
    rcases upgradeFacts.references entry listed r named with ⟨rfl, rewritten⟩ | ⟨rfl, plain⟩
    · have value : left.cell "pubkey" = (row.cell "pubkey").map lowerTrim := by
        rcases rewritten with ⟨media_, none_⟩ | listed
        · rw [cells, none_, ← media row (media_ ▸ there)]
          rfl
        · rw [cells, if_pos listed]
      rw [resolves_fill upgradeFacts.users.1] at held ⊢
      show left.cell "pubkey" = none ∨ ∃ parent ∈ v1.final "users", parent.cell "pubkey" = left.cell "pubkey"
      rw [value]
      rcases held with absent | ⟨user, known, same⟩
      · exact .inl (Option.map_eq_none_iff.mpr absent)
      · obtain ⟨parent, stays, key⟩ := user_stays known
        exact .inr ⟨parent, stays, key.trans (congrArg _ same)⟩
    · have value : left.cell "group_id" = row.cell "group_id" := by
        rw [cells, if_neg (Bool.eq_false_iff.mp plain)]
      rw [resolves_fill upgradeFacts.groups.1] at held ⊢
      show left.cell "group_id" = none ∨ ∃ parent ∈ v1.final "groups", parent.cell "id" = left.cell "group_id"
      rw [value]
      rcases held with absent | ⟨group, known, same⟩
      · exact .inl absent
      · obtain ⟨parent, stays, key⟩ := group_stays known
        exact .inr ⟨parent, stays, key.trans same⟩

section Outcome

variable {after : Database}

theorem rowsOf_final (tables : after.tables = fill v1Layouts v1.final) {name : String}
    (known : (v1Layouts.lookup name).isSome) :
    after.rowsOf name = v1.final name := by
  rw [Database.rowsOf, tables, lookup_fill, layoutOf_isSome known]
  rfl

theorem keys_normal (tables : after.tables = fill v1Layouts v1.final) : after.KeysNormalized := by
  intro target listed relation found row member c col
  have rows : relation.rows = v1.final target.1 := by
    rw [tables, lookup_fill, layoutOf_isSome (upgradeFacts.targets.2 target listed).1] at found
    cases found
    rfl
  rw [rows, final_target (lookup_of_mem upgradeFacts.targets.1 listed)] at member
  exact settle_normal member col

section

variable (tables : after.tables = fill v1Layouts v1.final) {name : String} (known : (v1Layouts.lookup name).isSome)
  {row : Row}
include tables known

theorem standing_stays (member : row ∈ v1.standing name) :
    (∃ left ∈ after.rowsOf name, left.rowid = row.rowid) ∨ Merged after name row := by
  rw [Merged, rowsOf_final tables known]
  cases listed : targets.lookup name with
  | none =>
    rw [final_other listed]
    exact .inl ⟨row, member, rfl⟩
  | some cols =>
    rw [final_target listed]
    exact .inr ⟨cols, rfl, exists_settled (primaryKey name) cols member⟩

theorem referring_lost (member : row ∈ v1.rows name) (refers : v1.refersToOlder name row = true) :
    ¬ ∃ left ∈ after.rowsOf name, left.rowid = row.rowid := by
  rintro ⟨left, there, same⟩
  rw [rowsOf_final tables known] at there
  obtain ⟨before, stands, ids, -⟩ := origin there
  obtain ⟨listed, plain⟩ := mem_standing.mp stands
  have one : before = row := List.inj_on_of_nodup_map (v1.rowids name) listed member (ids.trans same)
  rw [one, refers] at plain
  cases plain

theorem merged_iff : Merged after name row ↔ ∃ cols, targets.lookup name = some cols ∧
      ∃ other ∈ v1.standing name, groupKey (primaryKey name) cols other = groupKey (primaryKey name) cols row := by
  rw [Merged, rowsOf_final tables known]
  refine exists_congr fun cols => and_congr_right fun listed => ?_
  rw [final_target listed]
  constructor
  · rintro ⟨left, there, same⟩
    obtain ⟨other, stands, -, rfl⟩ := mem_settle.mp there
    exact ⟨other, stands, (groupKey_eq ..).trans same⟩
  · rintro ⟨other, stands, same⟩
    obtain ⟨left, there, key⟩ := exists_settled (primaryKey name) cols stands
    exact ⟨left, there, key.trans same⟩

end

end Outcome

theorem migrates (votes : distinct ["poll_id", "voter_pubkey"] (settled v1Layouts v1.standing ("poll_votes", ["voter_pubkey"])) = true)
    (references : referencesHold (fill v1Layouts v1.final) = true) :
    ∃ after, v1.db.migrate = (.ok (), after) ∧ after.tables = fill v1Layouts v1.final := by
  obtain ⟨after, tables, outcome⟩ := v1.transaction_v1
  rw [if_pos votes, if_pos references] at outcome
  exact ⟨after, migrate_ok.mpr outcome, tables⟩

theorem migrated {after : Database} (run : v1.db.migrate = (.ok (), after)) :
    after.tables = fill v1Layouts v1.final ∧
      distinct ["poll_id", "voter_pubkey"] (settled v1Layouts v1.standing ("poll_votes", ["voter_pubkey"])) = true ∧
      referencesHold (fill v1Layouts v1.final) = true := by
  obtain ⟨final, tables, outcome⟩ := v1.transaction_v1
  have run := migrate_ok.mp run
  rw [show v1.db.createMigrations = v1.db from rfl, outcome] at run
  split at run
  · rename_i votes
    split at run
    · rename_i references
      cases run
      exact ⟨tables, votes, references⟩
    · cases run
  · cases run

theorem Upgrades.clean (upgrades : v1.Upgrades) : v1.Clean := by
  obtain ⟨after, run, upgraded⟩ := upgrades
  obtain ⟨tables, votes, references⟩ := migrated run
  have merged : ∀ name, (v1Layouts.lookup name).isSome → ∀ row ∈ v1.rows name, v1.refersToOlder name row = true →
      Merged after name row := fun name known row member refers =>
    (upgraded.lost name known row member).resolve_left (referring_lost tables known member refers)
  refine ⟨fun name known row member refers => (merged_iff tables known).mp (merged name known row member refers),
    fun row member => ?_, votes_iff.mp votes⟩
  refine references_iff.mp references row (mem_standing.mpr ⟨member, Bool.eq_false_iff.mpr fun refers => ?_⟩)
  obtain ⟨cols, listed, -⟩ := merged _ upgradeFacts.media.1 row member refers
  rw [upgradeFacts.media.2.1] at listed
  cases listed

theorem Clean.upgrades (clean : v1.Clean) : v1.Upgrades := by
  have references : referencesHold (fill v1Layouts v1.final) = true :=
    references_iff.mpr fun row stands => clean.blobs row (mem_standing.mp stands).1
  obtain ⟨after, run, tables⟩ := migrates (votes_iff.mpr clean.votes) references
  refine ⟨after, run, keys_normal tables, (congrArg referencesHold tables).trans references,
    fun name known row member => ?_⟩
  cases refers : v1.refersToOlder name row with
  | false => exact standing_stays tables known (mem_standing.mpr ⟨member, refers⟩)
  | true => exact .inr ((merged_iff tables known).mpr (clean.duplicates name known row member refers))

/-- A migration keeps all but duplicates exactly where the rows are clean. -/
theorem upgrades_iff_clean (v1 : V1Database) : v1.Upgrades ↔ v1.Clean := ⟨Upgrades.clean, Clean.upgrades⟩

/-- A user in two spellings, with a post under the older one. -/
def twoSpellings : V1Database where
  rows name :=
    if name = "users" then [rowOf 1 [("pubkey", "ABC"), ("npub", "npub1")], rowOf 2 [("pubkey", "abc"), ("npub", "npub1")]]
    else if name = "posts" then [rowOf 1 [("id", "p1"), ("pubkey", "ABC"), ("content", "hello")]]
    else []
  rowids name := by
    split_ifs
    · decide
    · decide
    · exact List.nodup_nil
  keys := by decide +kernel
  indexes := by decide +kernel
  references := by decide +kernel

/-- The post is lost, and no other has its id. -/
theorem post_of_older_spelling_lost : ¬ twoSpellings.Upgrades := by
  intro upgrades
  have refers : ∃ row ∈ twoSpellings.rows "posts", twoSpellings.refersToOlder "posts" row = true := by decide +kernel
  have standing : twoSpellings.standing "posts" = [] := List.isEmpty_iff.mp (by decide +kernel)
  obtain ⟨row, member, refers⟩ := refers
  obtain ⟨-, -, other, stands, -⟩ := upgrades.clean.duplicates "posts" (by decide +kernel) row member refers
  rw [standing] at stands
  exact absurd stands List.not_mem_nil

end V1Database

end Soshal.Db
