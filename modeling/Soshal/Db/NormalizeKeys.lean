import Soshal.Db.Statements

/-! Migration 2: key columns in lower case and without blanks around them.

Table by table, rows that would collide on the primary key are deleted, all but the
newest, and then the columns are rewritten one after the other. References are checked
when the transaction commits.
-/

set_option autoImplicit false

namespace Soshal.Db

open Library.Relational

def targets : List (String × List String) := [
  ("users", ["pubkey"]), ("posts", ["id", "pubkey", "root_id"]), ("reactions", ["id", "pubkey", "event_id"]),
  ("reposts", ["id", "pubkey", "event_id"]), ("bookmarks", ["id", "pubkey", "event_id"]),
  ("zaps", ["id", "pubkey", "sender_pubkey", "recipient_pubkey", "event_id"]),
  ("blocks", ["pubkey", "blocked_pubkey"]), ("notifications", ["id", "pubkey", "from_pubkey", "event_id"]),
  ("ignored_notifications", ["pubkey", "from_pubkey", "event_id"]), ("saved_content", ["id", "pubkey"]),
  ("guestbook_entries", ["id", "profile_pubkey"]), ("messages", ["id", "pubkey"]),
  ("escrows", ["buyer_pubkey", "seller_pubkey"]), ("friend_backups", ["user_pubkey"]),
  ("spam_reports", ["pubkey", "target_pubkey"]), ("poll_votes", ["voter_pubkey"]), ("polls", ["pubkey"]),
  ("post_views", ["pubkey", "post_id"]), ("hashtags", ["pubkey"]), ("story_reactions", ["pubkey"]),
  ("groups", ["pubkey"]), ("group_members", ["pubkey"]), ("banned_members", ["pubkey"]),
  ("group_join_requests", ["pubkey"]), ("group_voice_presence", ["pubkey"]), ("group_thread_reactions", ["pubkey"]),
  ("group_room_reactions", ["pubkey"]), ("musiclouds", ["pubkey"]), ("musicloud_comments", ["pubkey"]),
  ("relays", ["pubkey"]), ("dating_unmatches", ["actor_pubkey", "pubkey"]),
  ("secret_crushes", ["owner_pubkey", "crush_pubkey"]), ("marketplace_saved", ["pubkey"]),
  ("tx_edges", ["parent_id", "child_id"])]

/-- The value that a row is grouped by: the primary key, with the columns that are rewritten as they will be. -/
def groupKey (pk cols : List String) (row : Row) : List (Option String) :=
  pk.map fun c => if cols.contains c then (row.cell c).map lowerTrim else row.cell c

/-- The row has the greatest `rowid` of its group. -/
def newest (pk cols : List String) (rows : List Row) (row : Row) : Bool :=
  rows.all fun other => decide (groupKey pk cols other = groupKey pk cols row → other.rowid ≤ row.rowid)

namespace Database

variable (db : Database)

/-- `pk_columns`: none for a table that is absent. -/
def pkColumns (table : String) : List String := (db.tables.lookup table).elim [] fun relation => relation.layout.primaryKey

def dedupe (table : String) (pk cols : List String) : Database :=
  match db.tables.lookup table with
  | none => db
  | some relation => { db with tables := delete db.tables table fun row => !newest pk cols relation.rows row }

def normalizeTable (table : String) (cols : List String) : Except SqlError Database :=
  let pk := db.pkColumns table
  if pk.isEmpty then .ok db
  else cols.foldlM (fun db col => db.updateColumn table col) (db.dedupe table pk cols)

def normalizeAll : Except SqlError Database := do
  let db ← targets.foldlM (fun db target => db.normalizeTable target.1 target.2) db
  return db.record 2

end Database

end Soshal.Db
