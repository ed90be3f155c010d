import Soshal.Db.CanonicalSchema

/-! What healing makes of a database: the tables, the indexes and the triggers it leaves.

Columns are added to tables that are there, tables that are missing are created empty, and
`dating_unmatches` in its old shape gives way to a table with the present one.
-/

set_option autoImplicit false

namespace Soshal.Db

open Library.Relational
open Library.Fallible (ok_bind bind_eq_ok foldl_keeps foldl_still foldlM_keeps foldlM_leaves)

/-! ## Facts about the tables that are healed -/

theorem unmatches_v1 : (layoutOf v1Layouts "dating_unmatches").references = [] := by decide

theorem unaltered : ∀ alter ∈ legacyAlterColumns, alter.1 ≠ "dating_unmatches" ∧ alter.1 ≠ "dating_unmatches_new" := by
  decide

theorem unhealed :
    "dating_unmatches" ∉ healedTables ∧ "dating_unmatches_new" ∉ healedTables ∧ "users" ∉ healedTables := by
  decide +kernel

theorem healed_plain : (∀ name ∈ healedTables, (layoutOf v1Layouts name).references = []) ∧
    ∀ index ∈ followerIndex :: healedIndexes, index.table ≠ "dating_unmatches" := by decide

/-! ## Columns -/

def Widened (relation : Relation) (column : String) (initial : Option String) : Relation :=
  if relation.layout.columns.contains column then relation
  else ⟨{ relation.layout with columns := relation.layout.columns ++ [column] }, relation.rows.map fun row => row.set column initial⟩

/-- A relation with the columns that are added to the tables of a name. -/
def widen (name : String) (relation : Relation) : Relation :=
  legacyAlterColumns.foldl (fun relation alter => if alter.1 = name then Widened relation alter.2.1 alter.2.2 else relation) relation

def IsHealed (name column : String) : Prop := ∃ alter ∈ legacyAlterColumns, alter.1 = name ∧ alter.2.1 = column

variable (db : Database)

theorem lookup_healColumn (alter : String × String × Option String) (name : String) :
    (db.healColumn alter).tables.lookup name =
      (db.tables.lookup name).map fun relation => if alter.1 = name then Widened relation alter.2.1 alter.2.2 else relation := by
  have kept (still : ∀ relation, db.tables.lookup name = some relation → alter.1 = name →
      Widened relation alter.2.1 alter.2.2 = relation) :
      db.tables.lookup name =
        (db.tables.lookup name).map fun relation => if alter.1 = name then Widened relation alter.2.1 alter.2.2 else relation := by
    cases found : db.tables.lookup name with
    | none => rfl
    | some relation =>
      rw [Option.map_some]
      split
      · rename_i same
        rw [still relation found same]
      · rfl
  -- Without the table, or with the column in it, nothing changes.
  rw [Database.healColumn]
  cases there : db.tables.lookup alter.1 with
  | none =>
    refine kept fun relation found same => ?_
    rw [same, found] at there
    cases there
  | some relation =>
    dsimp only
    split
    · rename_i has
      refine kept fun other found same => ?_
      rw [same, found, Option.some.injEq] at there
      rw [there, Widened, if_pos has]
    · rename_i lacks
      have entries : (db.addColumn alter.1 alter.2.1 alter.2.2).tables = db.tables.map fun entry =>
          (entry.1, if alter.1 = entry.1 then ⟨{ entry.2.layout with columns := entry.2.layout.columns ++ [alter.2.1] },
            entry.2.rows.map fun row => row.set alter.2.1 alter.2.2⟩ else entry.2) := by
        refine List.map_congr_left fun entry _ => ?_
        by_cases same : entry.1 = alter.1
        · rw [if_pos same, if_pos same.symm]
        · rw [if_neg same, if_neg (Ne.symm same)]
      rw [entries, lookup_map fun name relation => if alter.1 = name then (⟨{ relation.layout with
        columns := relation.layout.columns ++ [alter.2.1] }, relation.rows.map fun row => row.set alter.2.1 alter.2.2⟩ : Relation)
        else relation]
      cases found : db.tables.lookup name with
      | none => rfl
      | some other =>
        rw [Option.map_some, Option.map_some]
        split
        · rename_i same
          rw [same, found, Option.some.injEq] at there
          rw [Widened, if_neg (there ▸ lacks)]
        · rfl

theorem lookup_healColumns (alters : List (String × String × Option String)) (db : Database) (name : String) :
    (alters.foldl Database.healColumn db).tables.lookup name = (db.tables.lookup name).map fun relation =>
      alters.foldl (fun relation alter => if alter.1 = name then Widened relation alter.2.1 alter.2.2 else relation) relation := by
  induction alters generalizing db with
  | nil => exact Option.map_id'.symm
  | cons alter rest ih =>
    rw [List.foldl_cons, ih, lookup_healColumn, Option.map_map]
    rfl

theorem mem_columns_widened {relation : Relation} {column : String} {initial : Option String} {c : String} :
    c ∈ (Widened relation column initial).layout.columns ↔ c ∈ relation.layout.columns ∨ c = column := by
  rw [Widened]
  split
  · rename_i has
    constructor
    · exact .inl
    · rintro (there | rfl)
      · exact there
      · exact List.contains_iff_mem.mp has
  · rw [List.mem_append, List.mem_singleton]

theorem mem_columns_widen {name : String} {relation : Relation} {c : String} :
    c ∈ (widen name relation).layout.columns ↔ c ∈ relation.layout.columns ∨ IsHealed name c := by
  rw [widen, IsHealed]
  generalize legacyAlterColumns = alters
  induction alters generalizing relation with
  | nil => simp
  | cons alter rest ih =>
    rw [List.foldl_cons, ih]
    simp only [List.exists_mem_cons_iff]
    split
    · rename_i same
      rw [mem_columns_widened, or_assoc]
      simp only [same, true_and, eq_comm]
    · rename_i apart
      simp only [apart, false_and, false_or]

theorem widen_keeps {name : String} {relation : Relation} {cols : List String} (plain : ∀ c ∈ cols, ¬ IsHealed name c) :
    (widen name relation).layout.primaryKey = relation.layout.primaryKey ∧
      (widen name relation).layout.references = relation.layout.references ∧
      (Normal cols (widen name relation).rows ↔ Normal cols relation.rows) := by
  refine foldl_keeps (P := fun wider : Relation => wider.layout.primaryKey = relation.layout.primaryKey ∧
    wider.layout.references = relation.layout.references ∧ (Normal cols wider.rows ↔ Normal cols relation.rows))
    (fun alter listed wider kept => ?_) ⟨rfl, rfl, Iff.rfl⟩
  split
  · rename_i same
    rw [Widened]
    split
    · exact kept
    · refine ⟨kept.1, kept.2.1, Iff.trans ?_ kept.2.2⟩
      have cells : ∀ row : Row, ∀ c ∈ cols, (row.set alter.2.1 alter.2.2).cell c = row.cell c :=
        fun row c member => if_neg fun equal => plain c member ⟨alter, listed, same, equal.symm⟩
      simp only [Normal, List.forall_mem_map]
      refine forall_congr' fun row => imp_congr_right fun _ => forall_congr' fun c => imp_congr_right fun member => ?_
      rw [cells row c member]
  · exact kept

/-! ## Tables -/

theorem lookup_createTable (table : String × Layout) (name : String) : (db.createTable table).tables.lookup name =
      (db.tables.lookup name).or (if name = table.1 then some ⟨table.2, []⟩ else none) := by
  have tables : (db.createTable table).tables =
      if (db.tables.lookup table.1).isSome then db.tables else db.tables ++ [(table.1, ⟨table.2, []⟩)] :=
    apply_ite Database.tables ..
  rw [tables]
  exact lookup_added db.tables (table.1, ⟨table.2, []⟩) name

theorem lookup_createTables (tables : List (String × Layout)) (db : Database) (name : String) :
    (tables.foldl Database.createTable db).tables.lookup name =
      (db.tables.lookup name).or ((tables.lookup name).map fun layout => ⟨layout, []⟩) := by
  have each := @lookup_foldl_added _ _ _ Database.tables Database.createTable
    (fun table => (table.1, (⟨table.2, []⟩ : Relation))) lookup_createTable tables db name
  rw [lookup_map fun _ layout => (⟨layout, []⟩ : Relation)] at each
  exact each

def Database.rest : List Index × List (String × List String) × List Trigger × Option (List Int) :=
  (db.indexes, db.search, db.triggers, db.migrations)

theorem rest_healColumns (alters : List (String × String × Option String)) (db : Database) :
    (alters.foldl Database.healColumn db).rest = db.rest := by
  refine foldl_keeps (P := fun healed : Database => healed.rest = db.rest) (fun alter _ healed same => ?_) rfl
  rw [Database.healColumn]
  split
  · exact same
  · split
    · exact same
    · exact same

theorem rest_createTables (tables : List (String × Layout)) (db : Database) :
    (tables.foldl Database.createTable db).rest = db.rest := by
  refine foldl_keeps (P := fun made : Database => made.rest = db.rest) (fun table _ made same => ?_) rfl
  rw [Database.createTable]
  split
  · exact same
  · exact same

/-! ## Indexes -/

/-- Indexes of a list are created where they are missing, and all else stays. -/
structure Indexed (created : List Index) (db after : Database) : Prop where
  tables : after.tables = db.tables
  search : after.search = db.search
  triggers : after.triggers = db.triggers
  migrations : after.migrations = db.migrations
  origin : ∀ index ∈ after.indexes, index ∈ db.indexes ∨ index ∈ created ∧ ¬ db.hasIndex index.name
  keeps : ∀ index ∈ db.indexes, index ∈ after.indexes

theorem Indexed.refl (created : List Index) (db : Database) : Indexed created db db :=
  ⟨rfl, rfl, rfl, rfl, fun _ => .inl, fun _ => id⟩

theorem hasIndex_mono {created : List Index} {db after : Database} (indexed : Indexed created db after) {name : String}
    (has : db.hasIndex name) : after.hasIndex name := by
  obtain ⟨index, member, named⟩ := has
  exact ⟨index, indexed.keeps index member, named⟩

theorem Indexed.trans {created : List Index} {db middle after : Database} (one : Indexed created db middle)
    (two : Indexed created middle after) : Indexed created db after where
  tables := two.tables.trans one.tables
  search := two.search.trans one.search
  triggers := two.triggers.trans one.triggers
  migrations := two.migrations.trans one.migrations
  origin index member := by
    rcases two.origin index member with member | ⟨listed, fresh⟩
    · exact one.origin index member
    · exact .inr ⟨listed, fun has => fresh (hasIndex_mono one has)⟩
  keeps index member := two.keeps index (one.keeps index member)

theorem createIndex_ok {db after : Database} {index : Index} {created : List Index} (listed : index ∈ created)
    (run : db.createIndex index = .ok after) :
    Indexed created db after ∧ after.hasIndex index.name ∧ db.tableExists index.table = true := by
  rw [Database.createIndex] at run
  cases found : db.tables.lookup index.table with
  | none =>
    rw [found] at run
    cases run
  | some relation =>
    rw [found] at run
    have exists_ := Database.tableExists_iff.mpr ⟨relation, found⟩
    dsimp only at run
    split at run
    · rename_i there
      cases run
      obtain ⟨other, member, named⟩ := List.any_eq_true.mp there
      exact ⟨Indexed.refl created db, ⟨other, member, of_decide_eq_true named⟩, exists_⟩
    · rename_i missing
      split at run
      · cases run
      · split at run
        · cases run
        · cases run
          refine ⟨⟨rfl, rfl, rfl, rfl, fun other member => ?_, fun other => List.mem_append_left _⟩,
            ⟨index, List.mem_append_right _ List.mem_cons_self, rfl⟩, exists_⟩
          rcases List.mem_append.mp member with before | last
          · exact .inl before
          · rw [List.mem_singleton.mp last]
            refine .inr ⟨listed, fun has => missing ?_⟩
            obtain ⟨other, there, named⟩ := has
            exact List.any_eq_true.mpr ⟨other, there, decide_eq_true named⟩

theorem createIndexes_ok {created : List Index} {db after : Database}
    (run : created.foldlM Database.createIndex db = .ok after) :
    Indexed created db after ∧ ∀ index ∈ created, after.hasIndex index.name := by
  refine ⟨foldlM_keeps (P := Indexed created db) (fun index listed middle next step so => ?_) run (Indexed.refl created db), ?_⟩
  · exact so.trans (createIndex_ok listed step).1
  · refine foldlM_leaves (Q := fun index middle => Database.hasIndex middle index.name)
      (fun index listed middle next step => (createIndex_ok listed step).2.1)
      (fun other index listed middle next step has => hasIndex_mono (createIndex_ok listed step).1 has) run

/-! ## The swap -/

def Database.RefersPlainly : Prop :=
  ∀ entry ∈ db.tables, ∀ r ∈ entry.2.layout.references, r.parent = "users" ∨ r.parent = "groups"

/-- `dating_unmatches` is there in its old shape. -/
def Database.rebuilt : Bool :=
  (db.tables.lookup "dating_unmatches").any fun relation => !relation.layout.columns.contains "actor_pubkey"

/-- What hangs on a table is not dropped with the old `dating_unmatches`. -/
def Database.keeps (table : String) : Prop := ¬ (db.rebuilt = true ∧ table = "dating_unmatches")

theorem lookup_renamed {β : Type} {f : β → β} {old new : String} (apart : old ≠ new) {entries : List (String × β)}
    (fresh : entries.lookup new = none) (name : String) :
    (entries.map fun entry => (Database.renamed old new entry.1, f entry.2)).lookup name =
      (if name = new then entries.lookup old else if name = old then none else entries.lookup name).map f := by
  induction entries with
  | nil => simp
  | cons first rest ih =>
    obtain ⟨other, value⟩ := first
    have other_new : new ≠ other := fun same => by
      rw [same, List.lookup_cons_self] at fresh
      cases fresh
    rw [List.lookup_cons, beq_false_of_ne other_new] at fresh
    have ih := ih fresh
    rw [List.map_cons, List.lookup_cons]
    by_cases here : other = old
    · subst here
      rw [Database.renamed, if_pos rfl]
      by_cases same : name = new
      · subst same
        rw [beq_self_eq_true, if_pos rfl, List.lookup_cons_self]
        rfl
      · rw [beq_false_of_ne same, ih, if_neg same, if_neg same]
        by_cases old_ : name = other
        · rw [if_pos old_, if_pos old_]
        · rw [if_neg old_, if_neg old_, List.lookup_cons, beq_false_of_ne old_]
    · rw [Database.renamed, if_neg here]
      by_cases same : name = other
      · subst same
        rw [beq_self_eq_true, if_neg other_new.symm, if_neg here, List.lookup_cons_self]
        rfl
      · rw [beq_false_of_ne same, ih, List.lookup_cons, List.lookup_cons, beq_false_of_ne same,
          beq_false_of_ne (Ne.symm here)]

theorem lookup_filter_ne {β : Type} (entries : List (String × β)) (gone name : String) :
    (entries.filter fun entry => decide (entry.1 ≠ gone)).lookup name = if name = gone then none else entries.lookup name := by
  induction entries with
  | nil => simp
  | cons first rest ih =>
    obtain ⟨other, value⟩ := first
    by_cases here : other = gone
    · rw [List.filter_cons_of_neg (by simp [here]), ih]
      split
      · rfl
      · rename_i apart
        rw [List.lookup_cons, beq_false_of_ne (here ▸ apart)]
    · rw [List.filter_cons_of_pos (by simp [here]), List.lookup_cons, List.lookup_cons]
      by_cases same : name = other
      · rw [beq_iff_eq.mpr same, if_neg (same ▸ here)]
      · rw [beq_false_of_ne same]
        exact ih

/-- The database with `dating_unmatches` swapped. -/
def Database.swapped : Database :=
  ((db.createTable ("dating_unmatches_new", layoutOf v1Layouts "dating_unmatches")).dropTable "dating_unmatches").renameTable
    "dating_unmatches_new" "dating_unmatches"

theorem healUnmatches_eq : db.healUnmatches = if db.rebuilt then db.swapped else db := by
  rw [Database.healUnmatches, Database.rebuilt]
  cases found : db.tables.lookup "dating_unmatches" with
  | none => rfl
  | some relation =>
    dsimp only
    rw [Option.any_some]
    cases has : relation.layout.columns.contains "actor_pubkey" with
    | true => rfl
    | false => rfl

theorem refersPlainly_createTable {db : Database} (plain : db.RefersPlainly) {table : String × Layout}
    (plain_ : ∀ r ∈ table.2.references, r.parent = "users" ∨ r.parent = "groups") :
    (db.createTable table).RefersPlainly := by
  rw [Database.createTable]
  split
  · exact plain
  · intro entry member
    rcases List.mem_append.mp member with before | last
    · exact plain entry before
    · rw [List.mem_singleton.mp last]
      exact plain_

def repointed (relation : Relation) : Relation :=
  { relation with layout := { relation.layout with
    references := relation.layout.references.map fun r =>
      { r with parent := Database.renamed "dating_unmatches_new" "dating_unmatches" r.parent } } }

theorem repointed_of_plain {relation : Relation}
    (plain : ∀ r ∈ relation.layout.references, r.parent = "users" ∨ r.parent = "groups") :
    repointed relation = relation := by
  have same : (relation.layout.references.map fun r =>
      { r with parent := Database.renamed "dating_unmatches_new" "dating_unmatches" r.parent }) = relation.layout.references := by
    conv_rhs => rw [← List.map_id relation.layout.references]
    refine List.map_congr_left fun r named => ?_
    rcases plain r named with parent | parent
    · rw [parent, Database.renamed, if_neg (by decide), ← parent, id]
    · rw [parent, Database.renamed, if_neg (by decide), ← parent, id]
  rw [repointed, same]

theorem lookup_swapped {db : Database} (plain : db.RefersPlainly) (rebuilt : db.rebuilt = true) {name : String}
    (other : name ≠ "dating_unmatches_new") :
    db.swapped.tables.lookup name =
      if name = "dating_unmatches" then
        some ((db.tables.lookup "dating_unmatches_new").getD ⟨layoutOf v1Layouts "dating_unmatches", []⟩)
      else db.tables.lookup name := by
  let fresh := db.createTable ("dating_unmatches_new", layoutOf v1Layouts "dating_unmatches")
  have plain : fresh.RefersPlainly := refersPlainly_createTable plain fun r member => by
    rw [unmatches_v1] at member
    exact absurd member List.not_mem_nil
  have lookup_fresh : ∀ name, fresh.tables.lookup name =
      (db.tables.lookup name).or (if name = "dating_unmatches_new" then some ⟨layoutOf v1Layouts "dating_unmatches", []⟩ else none) :=
    lookup_createTable db _
  have there : ∃ relation, fresh.tables.lookup "dating_unmatches" = some relation := by
    obtain ⟨relation, found, -⟩ := (Option.any_eq_true _ _).mp rebuilt
    exact ⟨relation, by rw [lookup_fresh, found, Option.some_or]⟩
  obtain ⟨relation, there⟩ := there
  have dropped : ∀ name, (fresh.dropTable "dating_unmatches").tables.lookup name =
      if name = "dating_unmatches" then none else fresh.tables.lookup name := by
    intro name
    have rows := delete_unreferred there (fun _ => true) fun entry member r named same => by
      rcases plain entry member r named with parent | parent
      · exact absurd (same.symm.trans parent) (by decide)
      · exact absurd (same.symm.trans parent) (by decide)
    rw [Database.dropTable, rows, lookup_filter_ne]
    split
    · rfl
    · rename_i apart
      rw [setRows, lookup_mapRows]
      simp only [apart, if_false]
      exact Option.map_id'
  have unchanged : ∀ name, (fresh.tables.lookup name).map repointed = fresh.tables.lookup name := by
    intro name
    cases found : fresh.tables.lookup name with
    | none => rfl
    | some relation => rw [Option.map_some, repointed_of_plain fun r named => plain _ (mem_of_lookup found) r named]
  have renamed := lookup_renamed (f := repointed) (by decide : "dating_unmatches_new" ≠ "dating_unmatches")
    (by rw [dropped, if_pos rfl] : (fresh.dropTable "dating_unmatches").tables.lookup "dating_unmatches" = none) name
  refine Eq.trans renamed ?_
  by_cases same : name = "dating_unmatches"
  · rw [if_pos same, if_pos same, dropped, if_neg (by decide), unchanged, lookup_fresh, if_pos rfl]
    cases db.tables.lookup "dating_unmatches_new" with
    | none => rfl
    | some relation => rfl
  · rw [if_neg same, if_neg other, if_neg same, dropped, if_neg same, unchanged, lookup_fresh, if_neg other,
      Option.or_none]

/-- Outside the swapped table nothing changes but what hung on it. -/
structure Unmatched (db after : Database) : Prop where
  search : after.search = db.search
  migrations : after.migrations = db.migrations
  indexes : ∀ name, after.hasIndex name ↔ ∃ index ∈ db.indexes, index.name = name ∧ db.keeps index.table
  triggers : ∀ name, after.hasTrigger name ↔ ∃ trigger ∈ db.triggers, trigger.name = name ∧ db.keeps trigger.table

theorem healUnmatches_ok : Unmatched db db.healUnmatches := by
  rw [healUnmatches_eq]
  cases rebuilt : db.rebuilt with
  | false =>
    have keeps : ∀ table, db.keeps table := fun table lost => by
      rw [rebuilt] at lost
      cases lost.1
    refine ⟨rfl, rfl, fun name => exists_congr fun index => ?_, fun name => exists_congr fun trigger => ?_⟩
    · exact and_congr_right fun _ => ⟨fun named => ⟨named, keeps _⟩, And.left⟩
    · exact and_congr_right fun _ => ⟨fun named => ⟨named, keeps _⟩, And.left⟩
  | true =>
    have keeps : ∀ table, db.keeps table ↔ table ≠ "dating_unmatches" := fun table => by
      rw [Database.keeps, rebuilt]
      simp
    have rest : (db.createTable ("dating_unmatches_new", layoutOf v1Layouts "dating_unmatches")).rest = db.rest :=
      rest_createTables [_] db
    simp only [Database.rest, Prod.mk.injEq] at rest
    obtain ⟨indexes, search, triggers, migrations⟩ := rest
    rw [if_pos rfl]
    refine ⟨search, migrations, fun name => ?_, fun name => ?_⟩
    · simp only [Database.hasIndex, Database.swapped, Database.renameTable, Database.dropTable, indexes, List.mem_map,
        List.mem_filter, decide_eq_true_eq, keeps]
      constructor
      · rintro ⟨_, ⟨index, ⟨member, other⟩, rfl⟩, named⟩
        exact ⟨index, member, named, other⟩
      · rintro ⟨index, member, named, other⟩
        exact ⟨_, ⟨index, ⟨member, other⟩, rfl⟩, named⟩
    · simp only [Database.hasTrigger, Database.swapped, Database.renameTable, Database.dropTable, triggers,
        List.mem_map, List.mem_filter, decide_eq_true_eq, keeps]
      constructor
      · rintro ⟨_, ⟨trigger, ⟨member, other⟩, rfl⟩, named⟩
        exact ⟨trigger, member, named, other⟩
      · rintro ⟨trigger, member, named, other⟩
        exact ⟨_, ⟨trigger, ⟨member, other⟩, rfl⟩, named⟩

theorem lookup_healUnmatches {db : Database} (plain : db.RefersPlainly) {name : String}
    (other : name ≠ "dating_unmatches_new") :
    db.healUnmatches.tables.lookup name =
      if name = "dating_unmatches" ∧ db.rebuilt = true then
        some ((db.tables.lookup "dating_unmatches_new").getD ⟨layoutOf v1Layouts "dating_unmatches", []⟩)
      else db.tables.lookup name := by
  rw [healUnmatches_eq]
  cases rebuilt : db.rebuilt with
  | false => simp
  | true =>
    rw [if_pos rfl, lookup_swapped plain rebuilt other]
    simp

/-! ## Searching -/

def Database.uncategorized : Bool :=
  (db.search.lookup "posts_fts").any fun columns => !columns.contains "category"

structure Searchable (db after : Database) : Prop where
  tables : after.tables = db.tables
  indexes : after.indexes = db.indexes
  migrations : after.migrations = db.migrations
  search : ∀ name, after.search.lookup name =
    if name = "posts_fts" ∧ db.uncategorized = true then some ["id", "pubkey", "content", "subject", "category"]
    else db.search.lookup name
  triggers : ∀ name, after.hasTrigger name ↔
    db.hasTrigger name ∨ db.uncategorized = true ∧ (name = "posts_ai" ∨ name = "posts_au")

theorem createTrigger_ok {db after : Database} {trigger : Trigger} (run : db.createTrigger trigger = .ok after) :
    after.tables = db.tables ∧ after.indexes = db.indexes ∧ after.migrations = db.migrations ∧
    after.search = db.search ∧
      ∀ name, after.hasTrigger name ↔ db.hasTrigger name ∨ name = trigger.name := by
  rw [Database.createTrigger] at run
  split at run
  · cases run
  · split at run
    · rename_i there
      cases run
      refine ⟨rfl, rfl, rfl, rfl, fun name => ⟨.inl, fun has => has.elim id fun same => ?_⟩⟩
      obtain ⟨other, member, named⟩ := List.any_eq_true.mp there
      exact ⟨other, member, (of_decide_eq_true named).trans same.symm⟩
    · cases run
      refine ⟨rfl, rfl, rfl, rfl, fun name => ?_⟩
      simp only [Database.hasTrigger, List.mem_append, List.mem_singleton, or_and_right, exists_or, exists_eq_left]
      exact or_congr_right eq_comm

/-- The database between the old search table and the new triggers. -/
def remade : Database :=
  (((db.dropTrigger "posts_ai").dropTrigger "posts_au").dropSearch "posts_fts").createSearch
    ("posts_fts", ["id", "pubkey", "content", "subject", "category"])

theorem remade_search :
    ((remade db).tables = db.tables ∧ (remade db).indexes = db.indexes ∧ (remade db).migrations = db.migrations) ∧
      (∀ name, (remade db).search.lookup name =
        if name = "posts_fts" then some ["id", "pubkey", "content", "subject", "category"] else db.search.lookup name) ∧
      ∀ name, (remade db).hasTrigger name ↔ db.hasTrigger name ∧ name ≠ "posts_ai" ∧ name ≠ "posts_au" := by
  have dropped : ((((db.dropTrigger "posts_ai").dropTrigger "posts_au").dropSearch "posts_fts").search.lookup "posts_fts") = none :=
    (lookup_filter_ne db.search "posts_fts" "posts_fts").trans (if_pos rfl)
  have made : remade db = { (((db.dropTrigger "posts_ai").dropTrigger "posts_au").dropSearch "posts_fts") with
      search := (db.search.filter fun table => decide (table.1 ≠ "posts_fts")) ++
        [("posts_fts", ["id", "pubkey", "content", "subject", "category"])] } := by
    rw [remade, Database.createSearch, dropped, if_neg (by decide)]
    rfl
  rw [made]
  refine ⟨⟨rfl, rfl, rfl⟩, fun name => ?_, fun name => ?_⟩
  · rw [List.lookup_append, lookup_filter_ne]
    by_cases same : name = "posts_fts"
    · rw [if_pos same, if_pos same, same]
      rfl
    · rw [if_neg same, if_neg same, List.lookup_cons, beq_false_of_ne same]
      exact Option.or_none
  · simp only [Database.hasTrigger, Database.dropSearch, Database.dropTrigger, List.mem_filter, decide_eq_true_eq]
    constructor
    · rintro ⟨trigger, ⟨⟨member, ai⟩, au⟩, rfl⟩
      exact ⟨⟨trigger, member, rfl⟩, ai, au⟩
    · rintro ⟨⟨trigger, member, rfl⟩, ai, au⟩
      exact ⟨trigger, ⟨⟨member, ai⟩, au⟩, rfl⟩

theorem healSearch_ok {db after : Database} (run : db.healSearch = .ok after) : Searchable db after := by
  rw [Database.healSearch] at run
  cases found : db.search.lookup "posts_fts" with
  | none =>
    rw [found] at run
    cases run
    have lacks : db.uncategorized = false := by rw [Database.uncategorized, found, Option.any_none]
    exact ⟨rfl, rfl, rfl, fun name => by simp [lacks], fun name => by simp [lacks]⟩
  | some columns =>
    rw [found] at run
    dsimp only at run
    cases has : columns.contains "category" with
    | true =>
      rw [has, if_pos rfl] at run
      cases run
      have lacks : db.uncategorized = false := by
        rw [Database.uncategorized, found, Option.any_some, has, Bool.not_true]
      exact ⟨rfl, rfl, rfl, fun name => by simp [lacks], fun name => by simp [lacks]⟩
    | false =>
      rw [has, if_neg Bool.false_ne_true] at run
      have lacks : db.uncategorized = true := by
        rw [Database.uncategorized, found, Option.any_some, has, Bool.not_false]
      obtain ⟨first, one, run⟩ := bind_eq_ok.mp run
      obtain ⟨second, two, run⟩ := bind_eq_ok.mp run
      have one : (remade db).createTrigger ⟨"posts_ai", "posts"⟩ = .ok first := one
      obtain ⟨tables, indexes, migrations, search, triggers⟩ := createTrigger_ok one
      obtain ⟨tables', indexes', migrations', search', triggers'⟩ := createTrigger_ok two
      have last : after = second := by
        split at run
        · cases run
        · split at run
          · cases run
          · exact (Except.ok.inj run).symm
      subst last
      obtain ⟨base, rows, names⟩ := remade_search db
      refine ⟨(tables'.trans tables).trans base.1, (indexes'.trans indexes).trans base.2.1,
        (migrations'.trans migrations).trans base.2.2, fun name => ?_, fun name => ?_⟩
      · rw [search', search, rows, lacks]
        simp
      · rw [triggers', triggers, names, lacks]
        by_cases ai : name = "posts_ai"
        · simp [ai]
        · by_cases au : name = "posts_au"
          · simp [au]
          · simp [ai, au]

/-! ## Healing -/

def Database.source (name : String) : Option Relation :=
  if name = "dating_unmatches" ∧ db.rebuilt = true then db.tables.lookup "dating_unmatches_new" else db.tables.lookup name

def Database.keepsIndex (name : String) : Prop := ∃ index ∈ db.indexes, index.name = name ∧ db.keeps index.table

def Database.keepsTrigger (name : String) : Prop :=
  ∃ trigger ∈ db.triggers, trigger.name = name ∧ db.keeps trigger.table

/-- The indexes that healing creates: the one on users once there are some. -/
def Database.indexHealed (index : Index) : Prop :=
  index ∈ healedIndexes ∨ index = followerIndex ∧ db.tableExists "users" = true

def Database.tableHealed (name : String) : Prop :=
  name ∈ healedTables ∨ name = "dating_unmatches" ∧ db.rebuilt = true

structure Healed (db after : Database) : Prop where
  migrations : after.migrations = db.migrations
  table : ∀ name relation, name ≠ "dating_unmatches_new" → db.source name = some relation →
    after.tables.lookup name = some (widen name relation)
  missing : ∀ name, name ≠ "dating_unmatches_new" → db.source name = none → db.tableHealed name →
    after.tables.lookup name = some ⟨layoutOf v1Layouts name, []⟩
  absent : ∀ name, name ≠ "dating_unmatches_new" → db.source name = none → ¬ db.tableHealed name →
    after.tables.lookup name = none
  indexes : ∀ name, after.hasIndex name ↔
    db.keepsIndex name ∨ ¬ db.hasIndex name ∧ ∃ index, db.indexHealed index ∧ index.name = name
  search : ∀ name, after.search.lookup name =
    if name = "posts_fts" ∧ db.uncategorized = true then some ["id", "pubkey", "content", "subject", "category"]
    else db.search.lookup name
  triggers : ∀ name, after.hasTrigger name ↔
    db.keepsTrigger name ∨ db.uncategorized = true ∧ (name = "posts_ai" ∨ name = "posts_au")

theorem widen_unaltered {name : String} (other : ∀ alter ∈ legacyAlterColumns, alter.1 ≠ name) (relation : Relation) :
    widen name relation = relation := foldl_still fun alter listed => if_neg (other alter listed)

def Database.tabled : Database :=
  healedTables.foldl (fun db name => db.createTable (name, layoutOf v1Layouts name)) (legacyAlterColumns.foldl Database.healColumn db)

theorem tabled_eq : db.tabled =
    (healedTables.map fun name => (name, layoutOf v1Layouts name)).foldl Database.createTable
      (legacyAlterColumns.foldl Database.healColumn db) := by
  rw [Database.tabled, List.foldl_map]

theorem rest_tabled : db.tabled.rest = db.rest := by
  rw [tabled_eq, rest_createTables, rest_healColumns]

theorem lookup_tabled (name : String) : db.tabled.tables.lookup name = ((db.tables.lookup name).map (widen name)).or
      (if name ∈ healedTables then some ⟨layoutOf v1Layouts name, []⟩ else none) := by
  rw [tabled_eq, lookup_createTables, lookup_healColumns]
  congr 1
  split
  · rename_i listed
    rw [List.lookup_graph _ listed]
    rfl
  · rename_i missing
    rw [Option.map_eq_none_iff, List.lookup_eq_none_iff]
    intro entry member
    obtain ⟨other, listed, rfl⟩ := List.mem_map.mp member
    exact bne_iff_ne.mpr fun same => missing (same ▸ listed)

theorem refersPlainly_tabled {db : Database} (plain : db.RefersPlainly) : db.tabled.RefersPlainly := by
  have widened : (legacyAlterColumns.foldl Database.healColumn db).RefersPlainly := by
    refine foldl_keeps (P := Database.RefersPlainly) (fun alter _ wider plain => ?_) plain
    rw [Database.healColumn]
    split
    · exact plain
    · split
      · exact plain
      · intro entry member
        obtain ⟨before, listed, rfl⟩ := List.mem_map.mp member
        have same : ∀ r, r ∈ (if before.1 = alter.1 then (before.1, (⟨{ before.2.layout with
            columns := before.2.layout.columns ++ [alter.2.1] }, before.2.rows.map fun row => row.set alter.2.1 alter.2.2⟩ : Relation))
            else before).2.layout.references → r ∈ before.2.layout.references := by
          intro r
          split
          · exact id
          · exact id
        exact fun r named => plain before listed r (same r named)
  refine foldl_keeps (P := Database.RefersPlainly) (fun name listed made plain => ?_) widened
  exact refersPlainly_createTable plain fun r named => by
    rw [healed_plain.1 name listed] at named
    exact absurd named List.not_mem_nil

theorem tableExists_tabled : db.tabled.tableExists "users" = db.tableExists "users" := by
  rw [Database.tableExists, Database.tableExists, lookup_tabled, if_neg unhealed.2.2, Option.or_none, Option.isSome_map]

theorem followed_ok {db indexed followed : Database}
    (one : healedIndexes.foldlM Database.createIndex db.tabled = .ok indexed)
    (two : indexed.healFollowers = .ok followed) :
    (followed.tables = db.tabled.tables ∧ followed.search = db.search ∧ followed.triggers = db.triggers ∧
      followed.migrations = db.migrations) ∧
      (∀ index ∈ followed.indexes, index ∈ db.indexes ∨ db.indexHealed index ∧ ¬ db.hasIndex index.name) ∧
      (∀ index ∈ db.indexes, index ∈ followed.indexes) ∧ ∀ index, db.indexHealed index →
      followed.hasIndex index.name := by
  obtain ⟨created, made⟩ := createIndexes_ok one
  have rest := rest_tabled db
  simp only [Database.rest, Prod.mk.injEq] at rest
  obtain ⟨indexes, search, triggers, migrations⟩ := rest
  have mem_tabled : ∀ index, index ∈ db.tabled.indexes ↔ index ∈ db.indexes := fun index => by rw [indexes]
  have has_tabled : ∀ name, db.tabled.hasIndex name ↔ db.hasIndex name := fun name => by
    rw [Database.hasIndex, Database.hasIndex, indexes]
  have users : indexed.tableExists "users" = db.tableExists "users" := by
    rw [Database.tableExists, created.tables]
    exact tableExists_tabled db
  rw [Database.healFollowers, users] at two
  cases there : db.tableExists "users" with
  | true =>
    rw [there, if_pos rfl] at two
    obtain ⟨last, has, -⟩ := createIndex_ok List.mem_cons_self two
    refine ⟨⟨last.tables.trans created.tables, (last.search.trans created.search).trans search,
      (last.triggers.trans created.triggers).trans triggers, (last.migrations.trans created.migrations).trans migrations⟩, ?_, ?_, ?_⟩
    · -- An index is old, or one of the healed ones, or the last one.
      intro index member
      rcases last.origin index member with member | ⟨listed, fresh⟩
      · rcases created.origin index member with member | ⟨listed, fresh⟩
        · exact .inl ((mem_tabled index).mp member)
        · exact .inr ⟨.inl listed, fun has => fresh ((has_tabled _).mpr has)⟩
      · rw [List.mem_singleton.mp listed] at fresh ⊢
        exact .inr ⟨.inr ⟨rfl, there⟩, fun has => fresh (hasIndex_mono created ((has_tabled _).mpr has))⟩
    · exact fun index member => last.keeps index (created.keeps index ((mem_tabled index).mpr member))
    · rintro index (listed | ⟨rfl, -⟩)
      · exact hasIndex_mono last (made index listed)
      · exact has
  | false =>
    rw [there, if_neg Bool.false_ne_true] at two
    cases two
    refine ⟨⟨created.tables, created.search.trans search, created.triggers.trans triggers,
      created.migrations.trans migrations⟩, ?_, ?_, ?_⟩
    · intro index member
      rcases created.origin index member with member | ⟨listed, fresh⟩
      · exact .inl ((mem_tabled index).mp member)
      · exact .inr ⟨.inl listed, fun has => fresh ((has_tabled _).mpr has)⟩
    · exact fun index member => created.keeps index ((mem_tabled index).mpr member)
    · rintro index (listed | ⟨-, some_⟩)
      · exact made index listed
      · rw [there] at some_
        cases some_

theorem rebuilt_of_lookup {db other : Database}
    (same : other.tables.lookup "dating_unmatches" = db.tables.lookup "dating_unmatches") :
    other.rebuilt = db.rebuilt := by
  rw [Database.rebuilt, Database.rebuilt, same]

theorem lookup_tabled_unaltered {name : String} (plain : ∀ alter ∈ legacyAlterColumns, alter.1 ≠ name)
    (unlisted : name ∉ healedTables) : db.tabled.tables.lookup name = db.tables.lookup name := by
  rw [lookup_tabled, if_neg unlisted, Option.or_none]
  cases db.tables.lookup name with
  | none => rfl
  | some relation => rw [Option.map_some, widen_unaltered plain]

theorem healLegacySchema_ok {db after : Database} (plain : db.RefersPlainly) (run : db.healLegacySchema = .ok after) :
    Healed db after := by
  rw [Database.healLegacySchema] at run
  obtain ⟨indexed, one, run⟩ := bind_eq_ok.mp run
  obtain ⟨followed, two, run⟩ := bind_eq_ok.mp run
  obtain ⟨⟨tables, search, triggers, migrations⟩, origin, kept, made⟩ := followed_ok one two
  have old := lookup_tabled_unaltered db (fun alter listed => (unaltered alter listed).1) unhealed.1
  have new := lookup_tabled_unaltered db (fun alter listed => (unaltered alter listed).2) unhealed.2.1
  have rebuilt : followed.rebuilt = db.rebuilt := rebuilt_of_lookup (by rw [tables, old])
  have keeps : ∀ table, followed.keeps table ↔ db.keeps table := fun table => by
    rw [Database.keeps, Database.keeps, rebuilt]
  have plain_ : followed.RefersPlainly := by
    rw [Database.RefersPlainly, tables]
    exact refersPlainly_tabled plain
  have unmatched := healUnmatches_ok followed
  have searched := healSearch_ok run
  have uncategorized : followed.healUnmatches.uncategorized = db.uncategorized := by
    rw [Database.uncategorized, Database.uncategorized, unmatched.search, search]
  -- A table comes from the swap or from what was there before it.
  have final : ∀ name, name ≠ "dating_unmatches_new" → after.tables.lookup name =
      if name = "dating_unmatches" ∧ db.rebuilt = true then
        some ((db.tables.lookup "dating_unmatches_new").getD ⟨layoutOf v1Layouts "dating_unmatches", []⟩)
      else db.tabled.tables.lookup name := fun name other => by
    rw [searched.tables, lookup_healUnmatches plain_ other, rebuilt, tables, new]
  refine ⟨?_, ?_, ?_, ?_, ?_, ?_, ?_⟩
  · exact (searched.migrations.trans unmatched.migrations).trans migrations
  · intro name relation other found
    rw [final name other]
    rw [Database.source] at found
    split at found
    · rename_i swap
      rw [if_pos swap, found, swap.1, widen_unaltered fun alter listed => (unaltered alter listed).1]
      rfl
    · rename_i stays
      rw [if_neg stays, lookup_tabled, found, Option.map_some, Option.some_or]
  · intro name other found healed
    rw [final name other]
    rw [Database.source] at found
    split at found
    · rename_i swap
      rw [if_pos swap, found, swap.1]
      rfl
    · rename_i stays
      rw [if_neg stays, lookup_tabled, found, Option.map_none, Option.none_or, if_pos (healed.resolve_right stays)]
  · intro name other found unhealed
    rw [Database.tableHealed, not_or] at unhealed
    rw [Database.source, if_neg unhealed.2] at found
    rw [final name other, if_neg unhealed.2, lookup_tabled, found, Option.map_none, Option.none_or, if_neg unhealed.1]
  · intro name
    have indexes : after.hasIndex name ↔ followed.healUnmatches.hasIndex name := by
      rw [Database.hasIndex, Database.hasIndex, searched.indexes]
    rw [indexes, unmatched.indexes]
    constructor
    · rintro ⟨index, member, rfl, stays⟩
      rcases origin index member with before | ⟨healed, fresh⟩
      · exact .inl ⟨index, before, rfl, (keeps _).mp stays⟩
      · exact .inr ⟨fresh, index, healed, rfl⟩
    · rintro (⟨index, member, named, stays⟩ | ⟨fresh, index, healed, rfl⟩)
      · exact ⟨index, kept index member, named, (keeps _).mpr stays⟩
      · -- An index goes only with the table of the swap, and no healed one is on it.
        obtain ⟨other, member, named⟩ := made index healed
        refine ⟨other, member, named, fun lost => ?_⟩
        rcases origin other member with before | ⟨healed, -⟩
        · exact fresh ⟨other, before, named⟩
        · rcases healed with listed | ⟨rfl, -⟩
          · exact healed_plain.2 other (List.mem_cons_of_mem _ listed) lost.2
          · exact healed_plain.2 _ List.mem_cons_self lost.2
  · intro name
    rw [searched.search, uncategorized, unmatched.search, search]
  · intro name
    rw [searched.triggers, uncategorized, unmatched.triggers, Database.keepsTrigger, triggers]
    simp only [keeps]

end Soshal.Db
