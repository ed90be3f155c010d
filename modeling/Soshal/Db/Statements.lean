import Soshal.Library.Text
import Soshal.Db.SchemaV1

/-! The statements that the migrations are made of, on a database.

A database is its tables with their rows, and the names of all that hangs on them. What
the search tables hold, and the counters that triggers keep, is left out: neither is a
key, a reference or a schema object.
-/

set_option autoImplicit false

namespace Soshal.Db

open Library.Relational

structure Database where
  tables : Tables
  indexes : List Index
  /-- The search tables, with their columns. -/
  search : List (String × List String)
  triggers : List Trigger
  /-- The rows of `_migrations`, if there is such a table. -/
  migrations : Option (List Int)

inductive SqlError where
  | noSuchColumn (table column : String)
  | noSuchTable (table : String)
  | uniqueFailed (table : String)
  | foreignKeyFailed
  deriving DecidableEq

/-- `LOWER(TRIM(text))`: blanks are the space only, and letters the ones of ASCII. -/
def lowerTrim (text : String) : String :=
  String.ofList ((Library.Text.strip (· == ' ') text.toList).map Char.toLower)

def rewrite (col : String) (row : Row) : Row :=
  if row.cell col = (row.cell col).map lowerTrim then row else row.set col ((row.cell col).map lowerTrim)

namespace Database

variable (db : Database)

def tableExists (table : String) : Bool := (db.tables.lookup table).isSome

/-- The keys of the unique indexes of a table tell its rows apart. -/
def indexesHold (indexes : List Index) (table : String) (rows : List Row) : Bool :=
  indexes.all fun index => !(index.isUnique && decide (index.table = table)) || distinct index.columns rows

/-- `UPDATE table SET col = LOWER(TRIM(col)) WHERE col <> LOWER(TRIM(col))`. -/
def updateColumn (table col : String) : Except SqlError Database :=
  match db.tables.lookup table with
  | none => .error (.noSuchTable table)
  | some relation =>
    if ¬ relation.layout.columns.contains col then .error (.noSuchColumn table col)
    else
      let rows := relation.rows.map (rewrite col)
      if distinct relation.layout.primaryKey rows && indexesHold db.indexes table rows then
        .ok { db with tables := setRows db.tables table rows }
      else .error (.uniqueFailed table)

/-- `INSERT OR IGNORE INTO _migrations (version)`. -/
def record (version : Int) : Database :=
  { db with migrations := db.migrations.map fun versions =>
      if versions.contains version then versions else versions ++ [version] }

def commit : Except SqlError Database := if referencesHold db.tables then .ok db else .error .foreignKeyFailed

/-- `ALTER TABLE table ADD COLUMN column`, with what the rows have there. -/
def addColumn (table column : String) (initial : Option String) : Database :=
  { db with tables := db.tables.map fun entry =>
      if entry.1 = table then
        (entry.1, ⟨{ entry.2.layout with columns := entry.2.layout.columns ++ [column] },
          entry.2.rows.map fun row => row.set column initial⟩)
      else entry }

/-- `CREATE TABLE IF NOT EXISTS`. -/
def createTable (table : String × Layout) : Database :=
  if db.tableExists table.1 then db else { db with tables := db.tables ++ [(table.1, ⟨table.2, []⟩)] }

/-- `DROP TABLE IF EXISTS`: the rows go first, and what hangs on the table goes with it. -/
def dropTable (table : String) : Database :=
  { db with
    tables := (delete db.tables table fun _ => true).filter fun entry => decide (entry.1 ≠ table)
    indexes := db.indexes.filter fun index => decide (index.table ≠ table)
    triggers := db.triggers.filter fun trigger => decide (trigger.table ≠ table) }

def renamed (old new name : String) : String := if name = old then new else name

/-- `ALTER TABLE old RENAME TO new`, in all that names the table. -/
def renameTable (old new : String) : Database :=
  { db with
    tables := db.tables.map fun entry =>
      (renamed old new entry.1, { entry.2 with layout := { entry.2.layout with
        references := entry.2.layout.references.map fun r => { r with parent := renamed old new r.parent } } })
    indexes := db.indexes.map fun index => { index with table := renamed old new index.table }
    triggers := db.triggers.map fun trigger => { trigger with table := renamed old new trigger.table } }

/-- `CREATE INDEX IF NOT EXISTS`. -/
def createIndex (index : Index) : Except SqlError Database :=
  match db.tables.lookup index.table with
  | none => .error (.noSuchTable index.table)
  | some relation =>
    if db.indexes.any fun other => decide (other.name = index.name) then .ok db
    else
      match index.columns.find? fun column => !relation.layout.columns.contains column with
      | some column => .error (.noSuchColumn index.table column)
      | none =>
        if index.isUnique && !distinct index.columns relation.rows then .error (.uniqueFailed index.table)
        else .ok { db with indexes := db.indexes ++ [index] }

/-- `CREATE VIRTUAL TABLE IF NOT EXISTS`. -/
def createSearch (table : String × List String) : Database :=
  if (db.search.lookup table.1).isSome then db else { db with search := db.search ++ [table] }

/-- `CREATE TRIGGER IF NOT EXISTS`. -/
def createTrigger (trigger : Trigger) : Except SqlError Database :=
  if ¬ db.tableExists trigger.table then .error (.noSuchTable trigger.table)
  else if db.triggers.any fun other => decide (other.name = trigger.name) then .ok db
  else .ok { db with triggers := db.triggers ++ [trigger] }

/-- `DROP TRIGGER IF EXISTS`. -/
def dropTrigger (name : String) : Database :=
  { db with triggers := db.triggers.filter fun trigger => decide (trigger.name ≠ name) }

def dropSearch (name : String) : Database := { db with search := db.search.filter fun table => decide (table.1 ≠ name) }

end Database

end Soshal.Db
