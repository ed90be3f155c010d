import Soshal.Db.HealedSchema
import Soshal.Db.KeyMigration

/-! What each step of a migration leaves, whatever it starts from. -/

set_option autoImplicit false

namespace Soshal.Db

open Library.Relational
open Library.Fallible (ok_bind bind_eq_ok foldl_keeps foldlM_keeps foldlM_leaves)

theorem lookup_createSearch (db : Database) (table : String × List String) (name : String) :
    (db.createSearch table).search.lookup name = (db.search.lookup name).or (if name = table.1 then some table.2 else none) := by
  have search : (db.createSearch table).search =
      if (db.search.lookup table.1).isSome then db.search else db.search ++ [table] := apply_ite Database.search ..
  rw [search]
  exact lookup_added db.search table name

theorem lookup_createSearches (tables : List (String × List String)) (db : Database) (name : String) :
    (tables.foldl Database.createSearch db).search.lookup name = (db.search.lookup name).or (tables.lookup name) := by
  have each := @lookup_foldl_added _ _ _ Database.search Database.createSearch id lookup_createSearch tables db name
  rw [List.map_id] at each
  exact each

theorem createSearches_rest (tables : List (String × List String)) (db : Database) :
    (tables.foldl Database.createSearch db).tables = db.tables ∧
      (tables.foldl Database.createSearch db).indexes = db.indexes ∧
      (tables.foldl Database.createSearch db).triggers = db.triggers ∧
      (tables.foldl Database.createSearch db).migrations = db.migrations := by
  refine foldl_keeps (P := fun made : Database => made.tables = db.tables ∧ made.indexes = db.indexes ∧
    made.triggers = db.triggers ∧ made.migrations = db.migrations) (fun table _ made same => ?_) ⟨rfl, rfl, rfl, rfl⟩
  rw [Database.createSearch]
  split
  · exact same
  · exact same

/-- Triggers of a list are there, and all else stays. -/
structure Triggered (db after : Database) : Prop where
  tables : after.tables = db.tables
  indexes : after.indexes = db.indexes
  search : after.search = db.search
  migrations : after.migrations = db.migrations
  keeps : ∀ name, db.hasTrigger name → after.hasTrigger name

theorem createTriggers_ok {triggers : List Trigger} {db after : Database}
    (run : triggers.foldlM Database.createTrigger db = .ok after) :
    Triggered db after ∧ ∀ trigger ∈ triggers, after.hasTrigger trigger.name := by
  constructor
  · refine foldlM_keeps (P := Triggered db) (fun trigger _ middle next step so => ?_) run ⟨rfl, rfl, rfl, rfl, fun _ => id⟩
    obtain ⟨tables, indexes, migrations, search, names⟩ := createTrigger_ok step
    exact ⟨tables.trans so.tables, indexes.trans so.indexes, search.trans so.search, migrations.trans so.migrations,
      fun name has => (names name).mpr (.inl (so.keeps name has))⟩
  · refine foldlM_leaves (Q := fun trigger middle => Database.hasTrigger middle trigger.name)
      (fun trigger _ middle next step => ((createTrigger_ok step).2.2.2.2 _).mpr (.inr rfl))
      (fun other trigger _ middle next step has => ((createTrigger_ok step).2.2.2.2 _).mpr (.inl has)) run

def recorded (version : Int) (migrations : Option (List Int)) : Option (List Int) :=
  migrations.map fun versions => if versions.contains version then versions else versions ++ [version]

/-- What step 1 leaves. -/
structure Created (db after : Database) : Prop where
  tables : ∀ name, after.tables.lookup name =
    (db.tables.lookup name).or ((v1Layouts.lookup name).map fun layout => ⟨layout, []⟩)
  search : ∀ name, after.search.lookup name = (db.search.lookup name).or (v1Search.lookup name)
  indexes : ∀ index ∈ v1Indexes, after.hasIndex index.name
  triggers : ∀ trigger ∈ v1Triggers, after.hasTrigger trigger.name
  migrations : after.migrations = recorded 1 db.migrations

theorem v1CreateTables_ok {db after : Database} (run : db.v1CreateTables = .ok after) : Created db after := by
  rw [Database.v1CreateTables] at run
  obtain ⟨indexed, one, run⟩ := bind_eq_ok.mp run
  obtain ⟨triggered, two, run⟩ := bind_eq_ok.mp run
  cases run
  obtain ⟨created, made⟩ := createIndexes_ok one
  obtain ⟨kept, triggers⟩ := createTriggers_ok two
  obtain ⟨tables, -, -, migrations⟩ := createSearches_rest v1Search (v1Layouts.foldl Database.createTable db)
  have rest := rest_createTables v1Layouts db
  simp only [Database.rest, Prod.mk.injEq] at rest
  refine ⟨fun name => ?_, fun name => ?_, fun index listed => ?_, triggers, ?_⟩
  · rw [Database.record, kept.tables, created.tables, tables, lookup_createTables]
  · rw [Database.record, kept.search, created.search, lookup_createSearches, rest.2.1]
  · obtain ⟨other, member, named⟩ := made index listed
    exact ⟨other, kept.indexes.symm ▸ member, named⟩
  · rw [Database.record, kept.migrations, created.migrations, migrations, rest.2.2.2]
    rfl

/-- Rows are deleted and rewritten, and all else stays. -/
structure Rewritten (db after : Database) : Prop where
  layouts : ∀ name, (after.tables.lookup name).map Relation.layout = (db.tables.lookup name).map Relation.layout
  rest : after.rest = db.rest
  normal : ∀ name relation cols, after.tables.lookup name = some relation →
    (∀ before, db.tables.lookup name = some before → Normal cols before.rows) → Normal cols relation.rows

theorem Rewritten.refl (db : Database) : Rewritten db db :=
  ⟨fun _ => rfl, rfl, fun _ relation _ found normal => normal relation found⟩

theorem Rewritten.trans {db middle after : Database} (one : Rewritten db middle) (two : Rewritten middle after) :
    Rewritten db after where
  layouts name := (two.layouts name).trans (one.layouts name)
  rest := two.rest.trans one.rest
  normal name relation cols found normal :=
    two.normal name relation cols found fun before there => one.normal name before cols there normal

theorem normal_rewrite {cols : List String} {row : Row} (col : String)
    (normal : ∀ c ∈ cols, row.cell c = (row.cell c).map lowerTrim) :
    ∀ c ∈ cols, (rewrite col row).cell c = ((rewrite col row).cell c).map lowerTrim := by
  intro c listed
  rw [cell_rewrite]
  split
  · rw [map_lowerTrim_idem]
  · exact normal c listed

theorem updateColumn_ok {db after : Database} {table col : String} (run : db.updateColumn table col = .ok after) :
    Rewritten db after ∧ ∀ relation, after.tables.lookup table = some relation → Normal [col] relation.rows := by
  rw [Database.updateColumn] at run
  cases found : db.tables.lookup table with
  | none =>
    rw [found] at run
    cases run
  | some before =>
    rw [found] at run
    dsimp only at run
    split at run
    · cases run
    · split at run
      · cases run
        have tables : ∀ name, (setRows db.tables table (before.rows.map (rewrite col))).lookup name =
            (db.tables.lookup name).map fun relation =>
              { relation with rows := if name = table then before.rows.map (rewrite col) else relation.rows } :=
          fun name => lookup_mapRows ..
        refine ⟨⟨fun name => ?_, rfl, fun name relation cols there normal => ?_⟩, fun relation there => ?_⟩
        · rw [tables, Option.map_map]
          rfl
        · rw [tables, Option.map_eq_some_iff] at there
          obtain ⟨start, known, rfl⟩ := there
          dsimp only
          split
          · rename_i same
            rw [same, found, Option.some.injEq] at known
            subst known
            rintro _ member
            obtain ⟨row, listed, rfl⟩ := List.mem_map.mp member
            exact normal_rewrite col (normal before (same ▸ found) row listed)
          · exact normal start known
        · rw [tables, found, Option.map_some, if_pos rfl, Option.some.injEq] at there
          subst there
          rintro _ member c listed
          obtain ⟨row, -, rfl⟩ := List.mem_map.mp member
          rw [List.mem_singleton.mp listed, cell_rewrite, if_pos rfl, map_lowerTrim_idem]
      · cases run

theorem dedupe_rewritten (db : Database) (table : String) (pk cols : List String) :
    Rewritten db (db.dedupe table pk cols) := by
  rw [Database.dedupe]
  split
  · exact Rewritten.refl db
  · rename_i relation found
    have thinner := thinner_delete db.tables table fun row => !newest pk cols relation.rows row
    refine ⟨fun name => (thinner name).1, rfl, fun name after cols there normal => ?_⟩
    obtain ⟨before, known, fewer⟩ := (thinner name).2 after there
    exact fun row member => normal before known row (fewer member)

theorem normalizeTable_ok {db after : Database} {table : String} {cols : List String}
    (run : db.normalizeTable table cols = .ok after) :
    Rewritten db after ∧ ∀ relation, after.tables.lookup table = some relation → relation.layout.primaryKey ≠ [] →
      Normal cols relation.rows := by
  rw [Database.normalizeTable] at run
  split at run
  · rename_i keyless
    cases run
    refine ⟨Rewritten.refl db, fun relation found keyed => ?_⟩
    rw [Database.pkColumns, found, Option.elim_some] at keyless
    exact absurd (List.isEmpty_iff.mp keyless) keyed
  · have columns : ∀ col ∈ cols, ∀ relation, after.tables.lookup table = some relation → Normal [col] relation.rows :=
      foldlM_leaves (Q := fun col (middle : Database) => ∀ relation, middle.tables.lookup table = some relation →
        Normal [col] relation.rows)
        (fun col _ middle next step => (updateColumn_ok step).2)
        (fun other col _ middle next step normal relation found => (updateColumn_ok step).1.normal table relation [other] found normal)
        run
    refine ⟨?_, fun relation found _ row member c listed => columns c listed relation found row member c List.mem_cons_self⟩
    exact foldlM_keeps (P := Rewritten db) (fun col _ middle next step so => so.trans (updateColumn_ok step).1) run
      (dedupe_rewritten db table _ cols)

/-- What step 2 leaves. -/
structure Normalized (db after : Database) : Prop where
  layouts : ∀ name, (after.tables.lookup name).map Relation.layout = (db.tables.lookup name).map Relation.layout
  indexes : after.indexes = db.indexes
  search : after.search = db.search
  triggers : after.triggers = db.triggers
  migrations : after.migrations = recorded 2 db.migrations
  normal : ∀ target ∈ targets, ∀ relation, after.tables.lookup target.1 = some relation → relation.layout.primaryKey ≠ [] →
    Normal target.2 relation.rows

theorem layout_of_map {first second : Option Relation} (same : first.map Relation.layout = second.map Relation.layout)
    {relation : Relation} (found : first = some relation) :
    ∃ other, second = some other ∧ other.layout = relation.layout := by
  rw [found, Option.map_some] at same
  exact Option.map_eq_some_iff.mp same.symm

theorem v2NormalizeKeys_ok {db after : Database} (run : db.v2NormalizeKeys = .ok after) : Normalized db after := by
  rw [Database.v2NormalizeKeys, Database.normalizeAll] at run
  obtain ⟨normalized, one, run⟩ := bind_eq_ok.mp run
  cases run
  have rewritten : Rewritten db normalized :=
    foldlM_keeps (P := Rewritten db) (fun target _ middle next step so => so.trans (normalizeTable_ok step).1) one (Rewritten.refl db)
  have rest := rewritten.rest
  simp only [Database.rest, Prod.mk.injEq] at rest
  refine ⟨rewritten.layouts, rest.1, rest.2.1, rest.2.2.1, congrArg (recorded 2) rest.2.2.2, ?_⟩
  refine foldlM_leaves (Q := fun target (middle : Database) => ∀ relation, middle.tables.lookup target.1 = some relation →
      relation.layout.primaryKey ≠ [] → Normal target.2 relation.rows)
    (fun target _ middle next step => (normalizeTable_ok step).2) (fun other target _ middle next step normal relation found keyed => ?_) one
  have so := (normalizeTable_ok step).1
  obtain ⟨before, known, layout⟩ := layout_of_map (so.layouts other.1) found
  exact so.normal other.1 relation other.2 found fun start there => by
    rw [known, Option.some.injEq] at there
    exact there ▸ normal before known (layout ▸ keyed)

theorem v3ReverseKeyIndexes_ok {db after : Database} (run : db.v3ReverseKeyIndexes = .ok after) :
    ∃ indexed, Indexed reverseIndexes db indexed ∧ after = indexed.record 3 ∧
      ∀ index ∈ reverseIndexes, db.tableExists index.table = true → indexed.hasIndex index.name := by
  rw [Database.v3ReverseKeyIndexes] at run
  obtain ⟨indexed, one, run⟩ := bind_eq_ok.mp run
  cases run
  have step_ : ∀ index ∈ reverseIndexes, ∀ middle next : Database, middle.createReverseIndex index = .ok next →
      Indexed reverseIndexes middle next ∧ (middle.tableExists index.table = true → next.hasIndex index.name) := by
    intro index listed middle next step
    rw [Database.createReverseIndex] at step
    split at step
    · exact ⟨(createIndex_ok listed step).1, fun _ => (createIndex_ok listed step).2.1⟩
    · rename_i absent
      cases step
      exact ⟨Indexed.refl reverseIndexes _, fun there => absurd there absent⟩
  have indexed_ : Indexed reverseIndexes db indexed := foldlM_keeps (P := Indexed reverseIndexes db)
    (fun index listed middle next step so => so.trans (step_ index listed middle next step).1) one (Indexed.refl reverseIndexes db)
  refine ⟨indexed, indexed_, rfl, fun index listed exists_ => ?_⟩
  refine foldlM_leaves (Q := fun index (middle : Database) => middle.tables = db.tables →
    db.tableExists index.table = true →
      middle.hasIndex index.name) (fun index listed middle next step same exists_ => ?_)
    (fun other index listed middle next step has same exists_ => ?_) one index listed indexed_.tables exists_
  · obtain ⟨kept, made⟩ := step_ index listed middle next step
    refine made ?_
    rw [Database.tableExists, ← kept.tables, same]
    exact exists_
  · obtain ⟨kept, -⟩ := step_ index listed middle next step
    exact hasIndex_mono kept (has (kept.tables.symm.trans same) exists_)

end Soshal.Db
