import Soshal.Db.NormalizeKeys

/-! `migrate`: legacy schemas are healed, and then the steps above the recorded version run.

All of it is one transaction. A database whose greatest version is that of the schema or
above it is committed as it is healed.
-/

set_option autoImplicit false

namespace Soshal.Db

open Library.Relational

def schemaVersion : Int := 3

/-- Columns of the squashed migrations, with what `DEFAULT` gives to the rows there are. -/
def legacyAlterColumns : List (String × String × Option String) := [
  ("posts", "rsvp_event_id", none), ("posts", "category", none), ("posts", "reposts_count", some "0"),
  ("posts", "event_lat", none), ("posts", "event_lng", none), ("reminders", "trigger_at", none),
  ("users", "follower_count", some "0"), ("escrows", "buyer_confirmed", some "0"),
  ("escrows", "seller_confirmed", some "0"), ("groups", "password_hash", none), ("group_messages", "room_id", some ""),
  ("musiclouds", "blob_hash", some ""), ("musiclouds", "media_size", some "0"), ("musiclouds", "hashtags", some "[]"),
  ("musiclouds", "d", some "")]

/-- The tables that are created for legacy databases, each as version 1 has it. -/
def healedTables : List String := [
  "ignored_notifications", "musicloud_playlists", "musicloud_timed_comments", "group_rooms", "group_threads",
  "group_thread_replies", "group_voice_channels", "group_voice_presence", "group_thread_reactions",
  "group_room_reactions", "zk_state_rollups", "saved_content", "musicloud_playlist_tracks"]

def healedIndexes : List Index := [
  ⟨"idx_group_rooms_group", "group_rooms", ["group_id", "position"], false⟩,
  ⟨"idx_group_threads_group", "group_threads", ["group_id", "created_at"], false⟩,
  ⟨"idx_group_threads_pinned", "group_threads", ["group_id", "is_pinned", "created_at"], false⟩,
  ⟨"idx_group_thread_replies_thread", "group_thread_replies", ["thread_id", "created_at"], false⟩,
  ⟨"idx_group_thread_replies_parent", "group_thread_replies", ["parent_id", "created_at"], false⟩,
  ⟨"idx_group_voice_channels_group", "group_voice_channels", ["group_id", "position"], false⟩,
  ⟨"idx_group_voice_presence_pubkey", "group_voice_presence", ["pubkey"], false⟩,
  ⟨"idx_gtr_thread", "group_thread_reactions", ["thread_id"], false⟩,
  ⟨"idx_gtr_reply", "group_thread_reactions", ["reply_id"], false⟩,
  ⟨"idx_grr_room", "group_room_reactions", ["group_id", "room_id"], false⟩,
  ⟨"idx_grr_msg", "group_room_reactions", ["message_id"], false⟩,
  ⟨"idx_saved_content_saved_at", "saved_content", ["saved_at"], false⟩,
  ⟨"idx_saved_content_kind_saved", "saved_content", ["kind", "saved_at"], false⟩,
  ⟨"idx_playlist_tracks_pos", "musicloud_playlist_tracks", ["playlist_id", "position"], false⟩]

def followerIndex : Index := ⟨"idx_users_follower_count", "users", ["follower_count"], false⟩

/-- `INDEXES` of migration 3. -/
def reverseIndexes : List Index := [
  ⟨"idx_dating_unmatches_pubkey", "dating_unmatches", ["pubkey"], false⟩,
  ⟨"idx_blocks_blocked_pubkey", "blocks", ["blocked_pubkey"], false⟩,
  ⟨"idx_mcl_pl_pubkey", "musicloud_playlists", ["pubkey"], false⟩,
  ⟨"idx_saved_content_pubkey", "saved_content", ["pubkey"], false⟩]

def searchedColumns : List String := ["id", "pubkey", "content", "subject", "category", "is_deleted"]

namespace Database

variable (db : Database)

def healColumn (alter : String × String × Option String) : Database :=
  match db.tables.lookup alter.1 with
  | none => db
  | some relation =>
    if relation.layout.columns.contains alter.2.1 then db else db.addColumn alter.1 alter.2.1 alter.2.2

/-- `dating_unmatches` is swapped for a table with its present key, if it is still in the old shape. -/
def healUnmatches : Database :=
  match db.tables.lookup "dating_unmatches" with
  | none => db
  | some relation =>
    if relation.layout.columns.contains "actor_pubkey" then db
    else
      let fresh := db.createTable ("dating_unmatches_new", layoutOf v1Layouts "dating_unmatches")
      (fresh.dropTable "dating_unmatches").renameTable "dating_unmatches_new" "dating_unmatches"

/-- The search table of posts is made anew, if it is without categories. -/
def healSearch : Except SqlError Database :=
  match db.search.lookup "posts_fts" with
  | none => .ok db
  | some columns =>
    if columns.contains "category" then .ok db
    else do
      let db := ((db.dropTrigger "posts_ai").dropTrigger "posts_au").dropSearch "posts_fts"
      let db := db.createSearch ("posts_fts", ["id", "pubkey", "content", "subject", "category"])
      let db ← db.createTrigger ⟨"posts_ai", "posts"⟩
      let db ← db.createTrigger ⟨"posts_au", "posts"⟩
      match db.tables.lookup "posts" with
      | none => .error (.noSuchTable "posts")
      | some relation =>
        match searchedColumns.find? fun column => !relation.layout.columns.contains column with
        | some column => .error (.noSuchColumn "posts" column)
        | none => .ok db

def healFollowers : Except SqlError Database :=
  if db.tableExists "users" then db.createIndex followerIndex else .ok db

def healLegacySchema : Except SqlError Database := do
  let db := legacyAlterColumns.foldl healColumn db
  let db := healedTables.foldl (fun db name => db.createTable (name, layoutOf v1Layouts name)) db
  let db ← healedIndexes.foldlM createIndex db
  let db ← db.healFollowers
  db.healUnmatches.healSearch

def v1CreateTables : Except SqlError Database := do
  let db := v1Layouts.foldl createTable db
  let db := v1Search.foldl createSearch db
  let db ← v1Indexes.foldlM createIndex db
  let db ← v1Triggers.foldlM createTrigger db
  return db.record 1

def v2NormalizeKeys : Except SqlError Database := db.normalizeAll

def createReverseIndex (index : Index) : Except SqlError Database :=
  if db.tableExists index.table then db.createIndex index else .ok db

def v3ReverseKeyIndexes : Except SqlError Database := do
  let db ← reverseIndexes.foldlM createReverseIndex db
  return db.record 3

def steps : List (Int × (Database → Except SqlError Database)) := [
  (1, v1CreateTables), (2, v2NormalizeKeys), (3, v3ReverseKeyIndexes)]

def runStep (current : Int) (step : Int × (Database → Except SqlError Database)) : Except SqlError Database :=
  if step.1 > current then step.2 db else .ok db

/-- `COALESCE(MAX(version), 0)`. -/
def currentVersion : Int := ((db.migrations.getD []).max?).getD 0

/-- What stands between `BEGIN IMMEDIATE` and `COMMIT`. -/
def transaction : Except SqlError Database := do
  let db ← db.healLegacySchema
  let current := db.currentVersion
  if current ≥ schemaVersion then db.commit
  else
    let db ← steps.foldlM (runStep · current ·) db
    db.commit

/-- `CREATE TABLE IF NOT EXISTS _migrations`. -/
def createMigrations : Database := { db with migrations := some (db.migrations.getD []) }

/-- The outcome, and the database that is left: what a failed transaction did is rolled back. -/
def migrate : Except SqlError Unit × Database :=
  match db.createMigrations.transaction with
  | .ok after => (.ok (), after)
  | .error e => (.error e, db.createMigrations)

end Database

end Soshal.Db
