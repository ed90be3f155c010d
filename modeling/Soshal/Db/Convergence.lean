import Soshal.Db.StepEffects
import Soshal.Db.UpgradedKeys

/-! Whether a migration brings every database to the present schema.

The steps up to the greatest recorded version are passed over, whoever recorded it: what
they would have made has to be there already, or to be healed. A migration that goes
through leaves the present schema exactly where that is so.
-/

set_option autoImplicit false

namespace Soshal.Db

open Library.Relational
open Library.Fallible (error_or_ok ok_bind bind_eq_ok)

theorem v1_apart : (∀ entry ∈ v1Layouts, entry.1 ≠ "dating_unmatches_new") ∧
    ∀ index ∈ v1Indexes, ∀ other ∈ reverseIndexes, index.name ≠ other.name := by decide +kernel

theorem healed_keys : ∀ target ∈ targets, ∀ alter ∈ legacyAlterColumns, alter.1 = target.1 → alter.2.1 ∉ target.2 := by
  decide

theorem v1_index_names : (v1Indexes.map Index.name).Nodup := by
  -- Numbers are compared faster than texts.
  refine List.Nodup.of_map (fun name => name.toByteArray.data.toList.foldl (fun n b => n * 256 + b.toNat) 0) ?_
  decide +kernel

theorem v1_search_columns : ∀ table ∈ v1Search, table.1 = "posts_fts" →
    table.2 = ["id", "pubkey", "content", "subject", "category"] := by decide

namespace Database

structure Complete (db : Database) : Prop where
  schema : db.FullSchema
  keys : db.KeysNormalized
  reverse : db.ReverseIndexed

/-- A migration that succeeds leaves the present schema, and a second one changes nothing; one that fails changes
nothing but that there is a table of versions. -/
structure Converges (db : Database) : Prop where
  success : ∀ after, db.migrate = (.ok (), after) → after.Complete ∧ after.migrate = (.ok (), after)
  failure : ∀ e after, db.migrate = (.error e, after) → after = db.createMigrations

/-- What the steps that are passed over leave is there, or is healed; and so is the shape of every table that is there. -/
structure Covered (db : Database) : Prop where
  shapes : ∀ entry ∈ v1Layouts, ∀ relation, db.source entry.1 = some relation →
    (∀ c ∈ entry.2.columns, c ∈ relation.layout.columns ∨ IsHealed entry.1 c) ∧
      relation.layout.primaryKey = entry.2.primaryKey ∧ relation.layout.references = entry.2.references
  searches : ∀ table ∈ v1Search, ∀ columns, db.search.lookup table.1 = some columns →
    table.1 = "posts_fts" ∧ db.uncategorized = true ∨ ∀ c ∈ table.2, c ∈ columns
  tables : 1 ≤ db.currentVersion → ∀ entry ∈ v1Layouts, db.source entry.1 ≠ none ∨ db.tableHealed entry.1
  searchTables : 1 ≤ db.currentVersion → ∀ table ∈ v1Search, db.search.lookup table.1 ≠ none
  indexes : 1 ≤ db.currentVersion → ∀ index ∈ v1Indexes,
    db.keepsIndex index.name ∨ ¬ db.hasIndex index.name ∧ db.indexHealed index
  triggers : 1 ≤ db.currentVersion → ∀ trigger ∈ v1Triggers,
    db.keepsTrigger trigger.name ∨ db.uncategorized = true ∧ (trigger.name = "posts_ai" ∨ trigger.name = "posts_au")
  keys : 2 ≤ db.currentVersion → ∀ target ∈ targets, ∀ relation, db.source target.1 = some relation → Normal target.2 relation.rows
  reverse : 3 ≤ db.currentVersion → ∀ index ∈ reverseIndexes, db.keepsIndex index.name

end Database

/-- A database as some version of the program left it: references are to users and to groups, and hold. -/
structure Stored where
  db : Database
  plain : db.RefersPlainly
  references : referencesHold db.tables = true

def Stepped (current version : Int) (step : Database → Except SqlError Database) (db after : Database) : Prop :=
  version ≤ current ∧ after = db ∨ current < version ∧ step db = .ok after

theorem runStep_ok {db after : Database} {current version : Int} {step : Database → Except SqlError Database}
    (run : db.runStep current (version, step) = .ok after) : Stepped current version step db after := by
  rw [Database.runStep] at run
  split at run
  · rename_i above
    exact .inr ⟨above, run⟩
  · rename_i below
    exact .inl ⟨not_lt.mp below, (Except.ok.inj run).symm⟩

structure Committed (db healed created normalized after : Database) : Prop where
  heal : db.healLegacySchema = .ok healed
  first : Stepped healed.currentVersion 1 Database.v1CreateTables healed created
  second : Stepped healed.currentVersion 2 Database.v2NormalizeKeys created normalized
  third : Stepped healed.currentVersion 3 Database.v3ReverseKeyIndexes normalized after
  references : referencesHold after.tables = true

theorem commit_ok {db after : Database} (run : db.commit = .ok after) :
    after = db ∧ referencesHold after.tables = true := by
  rw [Database.commit] at run
  split at run
  · rename_i references
    rw [← Except.ok.inj run]
    exact ⟨rfl, references⟩
  · cases run

theorem transaction_ok {db after : Database} (run : db.transaction = .ok after) :
    ∃ healed created normalized, Committed db healed created normalized after := by
  rw [Database.transaction] at run
  obtain ⟨healed, heal, run⟩ := bind_eq_ok.mp run
  dsimp only at run
  split at run
  · rename_i current
    obtain ⟨rfl, references⟩ := commit_ok run
    have current : 3 ≤ Database.currentVersion _ := current
    exact ⟨_, _, _, heal, .inl ⟨by omega, rfl⟩, .inl ⟨by omega, rfl⟩, .inl ⟨current, rfl⟩, references⟩
  · obtain ⟨last, run, committed⟩ := bind_eq_ok.mp run
    obtain ⟨rfl, references⟩ := commit_ok committed
    rw [Database.steps, List.foldlM_cons] at run
    obtain ⟨created, first, run⟩ := bind_eq_ok.mp run
    rw [List.foldlM_cons] at run
    obtain ⟨normalized, second, run⟩ := bind_eq_ok.mp run
    rw [List.foldlM_cons] at run
    obtain ⟨last, third, run⟩ := bind_eq_ok.mp run
    cases run
    exact ⟨healed, created, normalized, heal, runStep_ok first, runStep_ok second, runStep_ok third, references⟩

theorem unhealed_key {target : String × List String} (listed : target ∈ targets) :
    ∀ c ∈ target.2, ¬ IsHealed target.1 c := by
  rintro c member ⟨alter, altered, table, rfl⟩
  exact healed_keys target listed alter altered table member

namespace Committed

variable {db healed created normalized after : Database} (committed : Committed db healed created normalized after)
include committed

theorem third_tables : after.tables = normalized.tables := by
  rcases committed.third with ⟨-, same⟩ | ⟨-, run⟩
  · rw [same]
  · obtain ⟨indexed, kept, rfl, -⟩ := v3ReverseKeyIndexes_ok run
    exact kept.tables

theorem second_layouts (name : String) :
    (normalized.tables.lookup name).map Relation.layout = (created.tables.lookup name).map Relation.layout := by
  rcases committed.second with ⟨-, same⟩ | ⟨-, run⟩
  · rw [same]
  · exact (v2NormalizeKeys_ok run).layouts name

theorem first_tables {name : String} {relation : Relation}
    (found : healed.tables.lookup name = some relation) : created.tables.lookup name = some relation := by
  rcases committed.first with ⟨-, same⟩ | ⟨-, run⟩
  · rw [same, found]
  · rw [(v1CreateTables_ok run).tables, found, Option.some_or]

theorem first_search {name : String} {columns : List String}
    (found : healed.search.lookup name = some columns) : created.search.lookup name = some columns := by
  rcases committed.first with ⟨-, same⟩ | ⟨-, run⟩
  · rw [same, found]
  · rw [(v1CreateTables_ok run).search, found, Option.some_or]

theorem layout_kept {name : String} {relation : Relation}
    (found : created.tables.lookup name = some relation) :
    ∃ last, after.tables.lookup name = some last ∧ last.layout = relation.layout := by
  rw [committed.third_tables]
  exact layout_of_map (committed.second_layouts name).symm found

theorem layout_before {name : String} {relation : Relation}
    (found : after.tables.lookup name = some relation) :
    ∃ first, created.tables.lookup name = some first ∧ first.layout = relation.layout := by
  rw [committed.third_tables] at found
  exact layout_of_map (committed.second_layouts name) found

theorem second_rest :
    normalized.indexes = created.indexes ∧ normalized.search = created.search ∧
    normalized.triggers = created.triggers := by
  rcases committed.second with ⟨-, same⟩ | ⟨-, run⟩
  · rw [same]
    exact ⟨rfl, rfl, rfl⟩
  · exact ⟨(v2NormalizeKeys_ok run).indexes, (v2NormalizeKeys_ok run).search, (v2NormalizeKeys_ok run).triggers⟩

theorem third_rest :
    after.search = normalized.search ∧ after.triggers = normalized.triggers ∧
      (∀ index ∈ normalized.indexes, index ∈ after.indexes) ∧
      ∀ index ∈ after.indexes, index ∈ normalized.indexes ∨ index ∈ reverseIndexes := by
  rcases committed.third with ⟨-, same⟩ | ⟨-, run⟩
  · rw [same]
    exact ⟨rfl, rfl, fun _ => id, fun _ => .inl⟩
  · obtain ⟨indexed, kept, rfl, -⟩ := v3ReverseKeyIndexes_ok run
    exact ⟨kept.search, kept.triggers, kept.keeps, fun index member => (kept.origin index member).imp_right And.left⟩

theorem search_eq : after.search = created.search :=
  committed.third_rest.1.trans committed.second_rest.2.1

theorem trigger_iff (name : String) :
    after.hasTrigger name ↔ created.hasTrigger name := by
  rw [Database.hasTrigger, Database.hasTrigger, committed.third_rest.2.1, committed.second_rest.2.2]

theorem index_kept {name : String}
    (has : created.hasIndex name) :
    after.hasIndex name := by
  obtain ⟨index, member, named⟩ := has
  exact ⟨index, committed.third_rest.2.2.1 index (committed.second_rest.1 ▸ member), named⟩

theorem index_before {index : Index}
    (listed : index ∈ v1Indexes) (has : after.hasIndex index.name) : created.hasIndex index.name := by
  obtain ⟨other, member, named⟩ := has
  rcases committed.third_rest.2.2.2 other member with before | reverse
  · exact ⟨other, committed.second_rest.1 ▸ before, named⟩
  · exact absurd named.symm (v1_apart.2 index listed other reverse)

theorem first_passed (above : 1 ≤ healed.currentVersion) : created = healed :=
  committed.first.elim And.right fun ran => absurd ran.1 (not_lt.mpr above)

theorem second_passed (above : 2 ≤ healed.currentVersion) :
    normalized = created := committed.second.elim And.right fun ran => absurd ran.1 (not_lt.mpr above)

theorem third_passed (above : 3 ≤ healed.currentVersion) :
    after = normalized := committed.third.elim And.right fun ran => absurd ran.1 (not_lt.mpr above)

end Committed

section Outcome

variable {db healed created normalized after : Database}

theorem current_healed (spec : Healed db healed) : healed.currentVersion = db.currentVersion := by
  rw [Database.currentVersion, Database.currentVersion, spec.migrations]

theorem v1_known {entry : String × Layout} (member : entry ∈ v1Layouts) : (v1Layouts.lookup entry.1).isSome := by
  rw [lookup_of_mem v1_names member]
  rfl

theorem target_entry {target : String × List String} (listed : target ∈ targets) :
    (target.1, layoutOf v1Layouts target.1) ∈ v1Layouts := entry_of_isSome (upgradeFacts.targets.2 target listed).1

theorem indexHealed_v1 {index : Index} (healed : db.indexHealed index) : index ∈ v1Indexes := by
  rcases healed with listed | ⟨rfl, -⟩
  · exact healedIndexes_v1 index (List.mem_cons_of_mem _ listed)
  · exact healedIndexes_v1 _ List.mem_cons_self

theorem shaped_widen {layout : Layout} {name : String} {relation : Relation} :
    Shaped layout (widen name relation) ↔ (∀ c ∈ layout.columns, c ∈ relation.layout.columns ∨ IsHealed name c) ∧
      relation.layout.primaryKey = layout.primaryKey ∧ relation.layout.references = layout.references := by
  obtain ⟨key, references, -⟩ := @widen_keeps name relation [] (fun c member => absurd member List.not_mem_nil)
  constructor
  · intro shaped
    exact ⟨fun c member => mem_columns_widen.mp (shaped.columns c member), key.symm.trans shaped.primaryKey,
      references.symm.trans shaped.references⟩
  · rintro ⟨columns, key', references'⟩
    exact ⟨fun c member => mem_columns_widen.mpr (columns c member), key.trans key', references.trans references'⟩

theorem Shaped.of_layout {layout : Layout} {relation other : Relation} (shaped : Shaped layout relation)
    (same : other.layout = relation.layout) : Shaped layout other :=
  ⟨same ▸ shaped.columns, same ▸ shaped.primaryKey, same ▸ shaped.references⟩

section

variable (spec : Healed db healed) (committed : Committed db healed created normalized after)
include spec committed

theorem covered_of_complete (complete : after.Complete) : db.Covered where
  shapes entry member relation found := by
    -- No step changes the layout of a table that is there.
    have there := spec.table entry.1 relation (v1_apart.1 entry member) found
    obtain ⟨last, found, layout⟩ := committed.layout_kept (committed.first_tables there)
    obtain ⟨relation', found', shaped⟩ := complete.schema.tables entry member
    rw [found, Option.some.injEq] at found'
    exact shaped_widen.mp ((found' ▸ shaped).of_layout layout.symm)
  searches table listed columns found := by
    by_cases remade : table.1 = "posts_fts" ∧ db.uncategorized = true
    · exact .inl remade
    · have there : healed.search.lookup table.1 = some columns := by rw [spec.search, if_neg remade, found]
      obtain ⟨columns', found', all⟩ := complete.schema.search table listed
      rw [committed.search_eq, committed.first_search there, Option.some.injEq] at found'
      exact .inr (found' ▸ all)
  tables above entry member := by
    -- With step 1 passed over, the table can only be old or healed.
    by_contra uncovered
    rw [not_or, not_not] at uncovered
    obtain ⟨relation, found, -⟩ := complete.schema.tables entry member
    obtain ⟨first, before, -⟩ := committed.layout_before found
    rw [committed.first_passed (current_healed spec ▸ above),
      spec.absent _ (v1_apart.1 entry member) uncovered.1 uncovered.2] at before
    cases before
  searchTables above table listed none_ := by
    obtain ⟨columns, found, -⟩ := complete.schema.search table listed
    rw [committed.search_eq, committed.first_passed (current_healed spec ▸ above), spec.search] at found
    split at found
    · rename_i remade
      obtain ⟨columns, there, -⟩ := (Option.any_eq_true _ _).mp remade.2
      rw [remade.1, there] at none_
      cases none_
    · rw [none_] at found
      cases found
  indexes above index listed := by
    have has := committed.index_before listed (complete.schema.indexes index listed)
    rw [committed.first_passed (current_healed spec ▸ above)] at has
    rcases (spec.indexes _).mp has with kept | ⟨fresh, other, healed_, named⟩
    · exact .inl kept
    · have same : other = index := List.inj_on_of_nodup_map v1_index_names (indexHealed_v1 healed_) listed named
      exact .inr ⟨fresh, same ▸ healed_⟩
  triggers above trigger listed := by
    have has := (committed.trigger_iff _).mp (complete.schema.triggers trigger listed)
    rw [committed.first_passed (current_healed spec ▸ above)] at has
    exact (spec.triggers _).mp has
  keys above target listed relation found := by
    have member := target_entry listed
    have there := spec.table target.1 relation (v1_apart.1 _ member) found
    have same : after.tables = healed.tables := by
      rw [committed.third_tables, committed.second_passed (current_healed spec ▸ above),
        committed.first_passed (current_healed spec ▸ (by omega))]
    exact (widen_keeps (unhealed_key listed)).2.2.mp (complete.keys target listed _ (same ▸ there))
  reverse above index listed := by
    have has := complete.reverse index listed
    rw [committed.third_passed (current_healed spec ▸ above),
      committed.second_passed (current_healed spec ▸ (by omega)),
      committed.first_passed (current_healed spec ▸ (by omega))] at has
    rcases (spec.indexes _).mp has with kept | ⟨fresh, other, healed_, named⟩
    · exact kept
    · exact absurd named (v1_apart.2 other (indexHealed_v1 healed_) index listed)

theorem created_shaped (covered : db.Covered) {entry : String × Layout} (member : entry ∈ v1Layouts) :
    ∃ relation, created.tables.lookup entry.1 = some relation ∧ Shaped entry.2 relation := by
  have fresh : Shaped entry.2 ⟨layoutOf v1Layouts entry.1, []⟩ := by
    rw [v1_layout member]
    exact ⟨fun c listed => listed, rfl, rfl⟩
  cases source : db.source entry.1 with
  | some relation =>
    exact ⟨_, committed.first_tables (spec.table _ relation (v1_apart.1 entry member) source),
      shaped_widen.mpr (covered.shapes entry member relation source)⟩
  | none =>
    by_cases healed_ : db.tableHealed entry.1
    · exact ⟨_, committed.first_tables (spec.missing _ (v1_apart.1 entry member) source healed_), fresh⟩
    · rcases committed.first with ⟨above, -⟩ | ⟨-, run⟩
      · have there := covered.tables (current_healed spec ▸ above) entry member
        exact absurd (there.resolve_right healed_) (not_not.mpr source)
      · refine ⟨⟨layoutOf v1Layouts entry.1, []⟩, ?_, fresh⟩
        rw [(v1CreateTables_ok run).tables, spec.absent _ (v1_apart.1 entry member) source healed_, Option.none_or,
          layoutOf_isSome (v1_known member)]
        rfl

theorem full_of_covered (covered : db.Covered) :
    after.FullSchema where
  tables entry member := by
    obtain ⟨relation, found, shaped⟩ := created_shaped spec committed covered member
    obtain ⟨last, found, layout⟩ := committed.layout_kept found
    exact ⟨last, found, shaped.of_layout layout⟩
  indexes index listed := by
    refine committed.index_kept ?_
    rcases committed.first with ⟨above, same⟩ | ⟨-, run⟩
    · rw [same]
      refine (spec.indexes _).mpr ((covered.indexes (current_healed spec ▸ above) index listed).imp_right fun made => ?_)
      exact ⟨made.1, index, made.2, rfl⟩
    · exact (v1CreateTables_ok run).indexes index listed
  search table listed := by
    rw [committed.search_eq]
    by_cases remade : table.1 = "posts_fts" ∧ db.uncategorized = true
    · have there : healed.search.lookup table.1 = some ["id", "pubkey", "content", "subject", "category"] := by
        rw [spec.search, if_pos remade]
      refine ⟨_, committed.first_search there, fun c member => ?_⟩
      rw [v1_search_columns table listed remade.1] at member
      exact member
    · cases found : db.search.lookup table.1 with
      | some columns =>
        have there : healed.search.lookup table.1 = some columns := by rw [spec.search, if_neg remade, found]
        exact ⟨columns, committed.first_search there,
          (covered.searches table listed columns found).resolve_left remade⟩
      | none =>
        rcases committed.first with ⟨above, -⟩ | ⟨-, run⟩
        · exact absurd found (covered.searchTables (current_healed spec ▸ above) table listed)
        · refine ⟨table.2, ?_, fun c member => member⟩
          rw [(v1CreateTables_ok run).search, spec.search, if_neg remade, found, Option.none_or,
            lookup_of_mem v1_search_names listed]
  triggers trigger listed := by
    refine (committed.trigger_iff _).mpr ?_
    rcases committed.first with ⟨above, same⟩ | ⟨-, run⟩
    · rw [same]
      exact (spec.triggers _).mpr (covered.triggers (current_healed spec ▸ above) trigger listed)
    · exact (v1CreateTables_ok run).triggers trigger listed

theorem complete_of_covered (covered : db.Covered) :
    after.Complete where
  schema := full_of_covered spec committed covered
  keys target listed relation found := by
    have member := target_entry listed
    have full := full_of_covered spec committed covered
    rw [committed.third_tables] at found
    rcases committed.second with ⟨above, same⟩ | ⟨-, run⟩
    · have above : 2 ≤ db.currentVersion := current_healed spec ▸ above
      rw [same, committed.first_passed (current_healed spec ▸ (by omega))] at found
      cases source : db.source target.1 with
      | some before =>
        rw [spec.table _ before (v1_apart.1 _ member) source, Option.some.injEq] at found
        rw [← found]
        exact (widen_keeps (unhealed_key listed)).2.2.mpr (covered.keys above target listed before source)
      | none =>
        have healed_ := (covered.tables (by omega) _ member).resolve_left (not_not.mpr source)
        rw [spec.missing _ (v1_apart.1 _ member) source healed_, Option.some.injEq] at found
        rw [← found]
        exact fun row listed => absurd listed List.not_mem_nil
    · refine (v2NormalizeKeys_ok run).normal target listed relation found ?_
      obtain ⟨last, there, shaped⟩ := full.tables _ member
      rw [committed.third_tables, found, Option.some.injEq] at there
      rw [there, shaped.primaryKey]
      exact (upgradeFacts.targets.2 target listed).2.1
  reverse index listed := by
    rcases committed.third with ⟨above, same⟩ | ⟨-, run⟩
    · have above : 3 ≤ db.currentVersion := current_healed spec ▸ above
      rw [same, committed.second_passed (current_healed spec ▸ (by omega)),
        committed.first_passed (current_healed spec ▸ (by omega))]
      exact (spec.indexes _).mpr (.inl (covered.reverse above index listed))
    · obtain ⟨relation, found, -⟩ := (full_of_covered spec committed covered).table (upgradeFacts.reverseTables index listed)
      rw [committed.third_tables] at found
      obtain ⟨indexed, -, rfl, made⟩ := v3ReverseKeyIndexes_ok run
      exact made index listed (Database.tableExists_iff.mpr ⟨relation, found⟩)

end

theorem mem_recorded {version : Int} {migrations : Option (List Int)} (recording : migrations.isSome) :
    ∃ versions, recorded version migrations = some versions ∧ version ∈ versions := by
  obtain ⟨versions, rfl⟩ := Option.isSome_iff_exists.mp recording
  refine ⟨_, rfl, ?_⟩
  dsimp only
  split
  · rename_i there
    exact List.contains_iff_mem.mp there
  · exact List.mem_append_right _ List.mem_cons_self

theorem le_currentVersion {version : Int} {versions : List Int} (recorded : db.migrations = some versions)
    (member : version ∈ versions) : version ≤ db.currentVersion := by
  rw [Database.currentVersion, recorded, Option.getD_some]
  obtain ⟨greatest, found⟩ := Option.isSome_iff_exists.mp (List.isSome_max?_of_mem member)
  rw [found, Option.getD_some]
  exact (List.max?_eq_some_iff.mp found).2 version member

theorem Stepped.recording {current version : Int} {step : Database → Except SqlError Database}
    (stepped : Stepped current version step db after)
    (keeps : step db = .ok after → ∃ last, after.migrations = recorded last db.migrations)
    (recording : db.migrations.isSome) :
    after.migrations.isSome := by
  rcases stepped with ⟨-, same⟩ | ⟨-, run⟩
  · rw [same]
    exact recording
  · obtain ⟨last, same⟩ := keeps run
    rw [same, recorded, Option.isSome_map]
    exact recording

theorem current_after (spec : Healed db healed) (committed : Committed db healed created normalized after)
    (recording : db.migrations.isSome) : after.migrations.isSome ∧ 3 ≤ after.currentVersion := by
  have recording : healed.migrations.isSome := spec.migrations.symm ▸ recording
  have recording_created := committed.first.recording (fun run => ⟨1, (v1CreateTables_ok run).migrations⟩) recording
  have recording_normalized :=
    committed.second.recording (fun run => ⟨2, (v2NormalizeKeys_ok run).migrations⟩) recording_created
  rcases committed.third with ⟨above, same⟩ | ⟨-, run⟩
  · rw [same]
    refine ⟨recording_normalized, ?_⟩
    rw [committed.second_passed (by omega), committed.first_passed (by omega)]
    exact above
  · obtain ⟨indexed, kept, rfl, -⟩ := v3ReverseKeyIndexes_ok run
    have same : (indexed.record 3).migrations = recorded 3 normalized.migrations :=
      congrArg (recorded 3) kept.migrations
    obtain ⟨versions, found, member⟩ := @mem_recorded 3 _ recording_normalized
    rw [same, found]
    exact ⟨rfl, le_currentVersion (same.trans found) member⟩

end Outcome

theorem migrate_again {db : Database} (complete : db.Complete) (references : referencesHold db.tables = true)
    (recording : db.migrations.isSome) (current : 3 ≤ db.currentVersion) : db.migrate = (.ok (), db) := by
  have start : db.createMigrations = db := by
    obtain ⟨versions, some_⟩ := Option.isSome_iff_exists.mp recording
    rw [Database.createMigrations, some_, Option.getD_some, ← some_]
  have above : db.currentVersion ≥ schemaVersion := current
  refine migrate_ok.mpr ?_
  rw [start, Database.transaction, complete.schema.healed, ok_bind]
  dsimp only
  rw [if_pos above, Database.commit, if_pos references]

theorem covered_createMigrations {db : Database} : db.createMigrations.Covered ↔ db.Covered :=
  ⟨fun h => ⟨h.shapes, h.searches, h.tables, h.searchTables, h.indexes, h.triggers, h.keys, h.reverse⟩,
    fun h => ⟨h.shapes, h.searches, h.tables, h.searchTables, h.indexes, h.triggers, h.keys, h.reverse⟩⟩

theorem migrate_failed {db after : Database} {e : SqlError} (run : db.migrate = (.error e, after)) :
    after = db.createMigrations := by
  rcases error_or_ok db.createMigrations.transaction with ⟨other, failed⟩ | ⟨last, passed⟩
  · rw [migrate_error failed] at run
    exact (congrArg Prod.snd run).symm
  · rw [migrate_ok.mpr passed] at run
    have clash : Except.ok () = Except.error e := congrArg Prod.fst run
    cases clash

/-- A migration converges exactly where it fails or the steps that are passed over are covered. -/
theorem converges_iff (stored : Stored) :
    stored.db.Converges ↔ ((∃ after, stored.db.migrate = (.ok (), after)) → stored.db.Covered) := by
  constructor
  · rintro converges ⟨after, run⟩
    obtain ⟨healed, created, normalized, committed⟩ := transaction_ok (migrate_ok.mp run)
    have spec : Healed stored.db.createMigrations healed := healLegacySchema_ok stored.plain committed.heal
    exact covered_createMigrations.mp (covered_of_complete spec committed (converges.success after run).1)
  · refine fun covered => ⟨fun after run => ?_, fun e after => migrate_failed⟩
    obtain ⟨healed, created, normalized, committed⟩ := transaction_ok (migrate_ok.mp run)
    have spec : Healed stored.db.createMigrations healed := healLegacySchema_ok stored.plain committed.heal
    have complete := complete_of_covered spec committed (covered_createMigrations.mpr (covered ⟨after, run⟩))
    obtain ⟨recording, current⟩ := current_after spec committed rfl
    exact ⟨complete, migrate_again complete committed.references recording current⟩

def oldRows (name : String) : List Row := if name = "users" then [rowOf 1 [("pubkey", "ABC"), ("npub", "npub1")]] else []

theorem plain_fill (rows : String → List Row) (migrations : Option (List Int)) :
    (⟨fill v1Layouts rows, v1Indexes, v1Search, v1Triggers, migrations⟩ : Database).RefersPlainly := by
  intro entry member r named
  obtain ⟨child, listed, rfl⟩ := List.mem_map.mp member
  rcases V1Database.refers_v1 listed named with rfl | rfl
  · exact .inl rfl
  · exact .inr rfl

theorem oldRows_hold : referencesHold (fill v1Layouts oldRows) = true := by
  refine V1Database.referencesHold_fill.mpr fun entry listed row member r named => ?_
  rw [oldRows] at member
  split at member
  · rename_i same
    rw [← v1_layout listed, same, upgradeFacts.users.2.1] at named
    exact absurd named List.not_mem_nil
  · exact absurd member List.not_mem_nil

/-- A database with the whole schema, under the version numbers from before the steps were squashed into one. -/
def preSquash : Stored where
  db := ⟨fill v1Layouts oldRows, v1Indexes, v1Search, v1Triggers, some [1, 2, 3, 4, 5, 6, 7, 8, 9, 10, 11, 12, 13]⟩
  plain := plain_fill oldRows _
  references := oldRows_hold

/-- The migration succeeds, and the key is not normalised. -/
theorem old_versions_skip_steps : ¬ preSquash.db.Converges := by
  intro converges
  have full : preSquash.db.FullSchema := full_fill _ _
  have current : preSquash.db.currentVersion ≥ schemaVersion := by decide
  have run : preSquash.db.createMigrations.transaction = .ok preSquash.db := by
    rw [show preSquash.db.createMigrations = preSquash.db from rfl, Database.transaction, full.healed, ok_bind]
    dsimp only
    rw [if_pos current, Database.commit, if_pos preSquash.references]
  obtain ⟨complete, -⟩ := converges.success _ (migrate_ok.mpr run)
  have listed : (("users", ["pubkey"]) : String × List String) ∈ targets := List.mem_cons_self
  have found : preSquash.db.tables.lookup "users" = some ⟨layoutOf v1Layouts "users", oldRows "users"⟩ := by
    rw [show preSquash.db.tables = fill v1Layouts oldRows from rfl, lookup_fill, layoutOf_isSome upgradeFacts.users.1, Option.map_some]
  have member : rowOf 1 [("pubkey", "ABC"), ("npub", "npub1")] ∈ oldRows "users" := by
    rw [oldRows, if_pos rfl]
    exact List.mem_cons_self
  have normal := complete.keys _ listed _ found _ member "pubkey" List.mem_cons_self
  exact absurd normal (by decide)

end Soshal.Db
