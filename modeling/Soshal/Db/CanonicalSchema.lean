import Soshal.Library.Fallible
import Soshal.Db.Migrate

/-! What the steps leave behind, and that healing has nothing to do where it is there. -/

set_option autoImplicit false

namespace Soshal.Db

open Library.Relational
open Library.Fallible (ok_bind foldlM_still foldl_still)

theorem v1_names : (v1Layouts.map Prod.fst).Nodup := by decide

theorem v1_search_names : (v1Search.map Prod.fst).Nodup := by decide

/-- A column of a table of version 1. -/
def IsColumn (table column : String) : Prop := column ∈ (layoutOf v1Layouts table).columns

instance (table column : String) : Decidable (IsColumn table column) := inferInstanceAs (Decidable (_ ∈ _))

theorem legacyAlterColumns_v1 : ∀ alter ∈ legacyAlterColumns, IsColumn alter.1 alter.2.1 := by decide

theorem healedTables_v1 : ∀ name ∈ healedTables, (v1Layouts.lookup name).isSome := by decide

theorem healedIndexes_v1 : ∀ index ∈ followerIndex :: healedIndexes, index ∈ v1Indexes := by decide

theorem index_columns_v1 :
    ∀ index ∈ v1Indexes ++ reverseIndexes, ∀ column ∈ index.columns, IsColumn index.table column := by
  decide +kernel

theorem index_table_v1 : ∀ index ∈ v1Indexes, (v1Layouts.lookup index.table).isSome := by decide +kernel

theorem unmatches_column : IsColumn "dating_unmatches" "actor_pubkey" := by decide

/-- A table has the columns, the key and the references of a layout. -/
structure Shaped (layout : Layout) (relation : Relation) : Prop where
  columns : ∀ c ∈ layout.columns, c ∈ relation.layout.columns
  primaryKey : relation.layout.primaryKey = layout.primaryKey
  references : relation.layout.references = layout.references

/-- The columns are in lower case and without blanks around them. -/
def Normal (cols : List String) (rows : List Row) : Prop := ∀ row ∈ rows, ∀ c ∈ cols, row.cell c = (row.cell c).map lowerTrim

namespace Database

variable (db : Database)

def rowsOf (name : String) : List Row := (db.tables.lookup name).elim [] Relation.rows

def hasIndex (name : String) : Prop := ∃ index ∈ db.indexes, index.name = name

def hasTrigger (name : String) : Prop := ∃ trigger ∈ db.triggers, trigger.name = name

/-- Step 1: all of version 1 is there. -/
structure FullSchema : Prop where
  tables : ∀ entry ∈ v1Layouts, ∃ relation, db.tables.lookup entry.1 = some relation ∧ Shaped entry.2 relation
  indexes : ∀ index ∈ v1Indexes, db.hasIndex index.name
  search : ∀ table ∈ v1Search, ∃ columns, db.search.lookup table.1 = some columns ∧ ∀ c ∈ table.2, c ∈ columns
  triggers : ∀ trigger ∈ v1Triggers, db.hasTrigger trigger.name

/-- Step 2: every key column of every target is normalised. -/
def KeysNormalized : Prop :=
  ∀ target ∈ targets, ∀ relation, db.tables.lookup target.1 = some relation → Normal target.2 relation.rows

/-- Step 3. -/
def ReverseIndexed : Prop := ∀ index ∈ reverseIndexes, db.hasIndex index.name

end Database

theorem migrate_ok {db after : Database} :
    db.migrate = (.ok (), after) ↔ db.createMigrations.transaction = .ok after := by
  unfold Database.migrate
  generalize db.createMigrations.transaction = outcome
  cases outcome with
  | error e =>
    constructor
    · intro run
      have failed : Except.error e = Except.ok () := congrArg Prod.fst run
      cases failed
    · intro run
      cases run
  | ok final =>
    constructor
    · exact fun run => congrArg Except.ok (congrArg Prod.snd run)
    · exact fun run => by rw [Except.ok.inj run]

theorem migrate_error {db : Database} {e : SqlError} (failed : db.createMigrations.transaction = .error e) :
    db.migrate = (.error e, db.createMigrations) := by
  unfold Database.migrate
  generalize db.createMigrations.transaction = outcome at failed
  subst failed
  rfl

theorem layoutOf_isSome {name : String} (known : (v1Layouts.lookup name).isSome) :
    v1Layouts.lookup name = some (layoutOf v1Layouts name) := by
  obtain ⟨layout, found⟩ := Option.isSome_iff_exists.mp known
  rw [layoutOf, found]
  rfl

theorem isSome_of_column {table column : String} (listed : IsColumn table column) :
    (v1Layouts.lookup table).isSome := by
  rw [IsColumn, layoutOf] at listed
  cases found : v1Layouts.lookup table with
  | none =>
    rw [found] at listed
    exact absurd listed List.not_mem_nil
  | some layout => rfl

section Still

variable {db : Database}

namespace Database

theorem tableExists_iff {name : String} :
    db.tableExists name = true ↔ ∃ relation, db.tables.lookup name = some relation :=
  Option.isSome_iff_exists

namespace FullSchema

theorem table (full : db.FullSchema) {name : String} (known : (v1Layouts.lookup name).isSome) :
    ∃ relation, db.tables.lookup name = some relation ∧ Shaped (layoutOf v1Layouts name) relation :=
  full.tables (name, layoutOf v1Layouts name) (mem_of_lookup (layoutOf_isSome known))

theorem column (full : db.FullSchema) {name column : String} (listed : IsColumn name column) :
    ∃ relation, db.tables.lookup name = some relation ∧ relation.layout.columns.contains column = true := by
  obtain ⟨relation, found, shaped⟩ := full.table (isSome_of_column listed)
  exact ⟨relation, found, List.contains_iff_mem.mpr (shaped.columns column listed)⟩

theorem createIndex_still (full : db.FullSchema) {index : Index} (listed : index ∈ v1Indexes) :
    db.createIndex index = .ok db := by
  obtain ⟨relation, found, -⟩ := full.table (index_table_v1 index listed)
  obtain ⟨other, there, named⟩ := full.indexes index listed
  have present : (db.indexes.any fun other => decide (other.name = index.name)) = true :=
    List.any_eq_true.mpr ⟨other, there, decide_eq_true named⟩
  rw [createIndex, found]
  simp only [present, if_true]

theorem healed (full : db.FullSchema) : db.healLegacySchema = .ok db := by
  have columns : legacyAlterColumns.foldl healColumn db = db := foldl_still fun alter listed => by
    obtain ⟨relation, found, there⟩ := full.column (legacyAlterColumns_v1 alter listed)
    rw [healColumn, found]
    simp only [there, if_true]
  have tables : healedTables.foldl (fun db name => db.createTable (name, layoutOf v1Layouts name)) db = db :=
    foldl_still fun name listed => by
      obtain ⟨relation, found, -⟩ := full.table (healedTables_v1 name listed)
      rw [createTable, if_pos (tableExists_iff.mpr ⟨relation, found⟩)]
  have indexes : healedIndexes.foldlM createIndex db = .ok db := foldlM_still fun index listed =>
    full.createIndex_still (healedIndexes_v1 index (List.mem_cons_of_mem _ listed))
  have follower : db.healFollowers = .ok db := by
    rw [healFollowers, full.createIndex_still (healedIndexes_v1 _ List.mem_cons_self), ite_self]
  have unmatches : db.healUnmatches = db := by
    obtain ⟨relation, found, there⟩ := full.column unmatches_column
    rw [healUnmatches, found]
    simp only [there, if_true]
  have search : db.healSearch = .ok db := by
    obtain ⟨columns, found, there⟩ :=
      full.search ("posts_fts", ["id", "pubkey", "content", "subject", "category"]) (by decide)
    have category : columns.contains "category" = true := List.contains_iff_mem.mpr (there "category" (by decide))
    rw [healSearch, found]
    simp only [category, if_true]
  rw [healLegacySchema, columns, tables, indexes, ok_bind, follower, ok_bind, unmatches, search]

end FullSchema

end Database

end Still

end Soshal.Db
