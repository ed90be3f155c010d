import Mathlib.Algebra.GroupWithZero.Nat
import Mathlib.Data.List.Basic
import Mathlib.Data.List.Nodup
import Mathlib.Logic.Function.Basic

/-! Tables of rows with keys that refer to one another.

A database is its layouts, in order, and the rows of each. A deletion takes the rows
that refer to what is gone with it, round by round, where the reference says so; unique columns are checked on the
rows as a statement leaves them, and references when all statements are done. Cells are
texts or absent.
-/

set_option autoImplicit false

namespace Soshal.Library.Relational

/-- A column that holds the key of a row of another table. -/
structure Reference where
  column : String
  parent : String
  parentColumn : String
  /-- `ON DELETE CASCADE`. -/
  cascades : Bool
  deriving DecidableEq

structure Layout where
  columns : List String
  primaryKey : List String
  references : List Reference
  deriving DecidableEq

structure Row where
  rowid : Int
  cell : String → Option String

structure Relation where
  layout : Layout
  rows : List Row

abbrev Tables := List (String × Relation)

def Row.set (row : Row) (column : String) (value : Option String) : Row :=
  { row with cell := fun c => if c = column then value else row.cell c }

/-- Rows that agree on columns without an absent cell are one row. -/
def distinct (columns : List String) (rows : List Row) : Bool :=
  rows.all fun a => rows.all fun b =>
    decide (a.rowid = b.rowid) || columns.any fun c => decide (a.cell c = none) || decide (a.cell c ≠ b.cell c)

theorem distinct_iff {columns : List String} {rows : List Row} :
    distinct columns rows = true ↔ ∀ a ∈ rows, ∀ b ∈ rows,
      (∀ c ∈ columns, a.cell c ≠ none) → (∀ c ∈ columns, a.cell c = b.cell c) → a.rowid = b.rowid := by
  simp only [distinct, List.all_eq_true, Bool.or_eq_true, decide_eq_true_eq, List.any_eq_true]
  constructor
  · intro all a listed b listed' present same
    rcases all a listed b listed' with one | ⟨c, member, absent | apart⟩
    · exact one
    · exact absurd absent (present c member)
    · exact absurd (same c member) apart
  · intro all a listed b listed'
    by_contra none
    rw [not_or, not_exists] at none
    refine none.1 (all a listed b listed' (fun c member absent => ?_) (fun c member => ?_))
    · exact none.2 c ⟨member, .inl absent⟩
    · by_contra apart
      exact none.2 c ⟨member, .inr apart⟩

section Tables

variable (tables : Tables)

def mapRows (f : String → Relation → List Row) : Tables :=
  tables.map fun entry => (entry.1, { entry.2 with rows := f entry.1 entry.2 })

def setRows (name : String) (rows : List Row) : Tables :=
  mapRows tables fun other relation => if other = name then rows else relation.rows

def rowCount : Nat := (tables.map fun entry => entry.2.rows.length).sum

/-- A row holds the key of one that is gone, and goes with it. -/
def points (gone : List (String × Row)) (layout : Layout) (row : Row) : Bool :=
  layout.references.any fun r => r.cascades && gone.any fun lost =>
    decide (lost.1 = r.parent) && (row.cell r.column).isSome && decide (row.cell r.column = lost.2.cell r.parentColumn)

def pointing (gone : List (String × Row)) : List (String × Row) :=
  tables.flatMap fun entry => (entry.2.rows.filter (points gone entry.2.layout)).map fun row => (entry.1, row)

/-- Rounds of deletions, each of the rows that refer to the last. One round a row is enough. -/
def cascade : Nat → List (String × Row) → Tables → Tables
  | 0, _, tables => tables
  | fuel + 1, gone, tables =>
    if (pointing tables gone).isEmpty then tables
    else cascade fuel (pointing tables gone) (mapRows tables fun _ relation =>
      relation.rows.filter fun row => !points gone relation.layout row)

/-- `DELETE FROM name WHERE p`. -/
def delete (name : String) (p : Row → Bool) : Tables :=
  match tables.lookup name with
  | none => tables
  | some relation =>
    let kept := setRows tables name (relation.rows.filter fun row => !p row)
    cascade (rowCount kept) ((relation.rows.filter p).map fun row => (name, row)) kept

/-- The parent of a row is there, if the row names one. -/
def resolves (r : Reference) (row : Row) : Bool :=
  (row.cell r.column).isNone ||
    (tables.lookup r.parent).any fun relation => relation.rows.any fun p => decide (p.cell r.parentColumn = row.cell r.column)

def referencesHold : Bool :=
  tables.all fun entry => entry.2.rows.all fun row => entry.2.layout.references.all fun r => resolves tables r row

end Tables

theorem lookup_of_mem {β : Type} {entries : List (String × β)} {entry : String × β}
    (nodup : (entries.map Prod.fst).Nodup) (member : entry ∈ entries) : entries.lookup entry.1 = some entry.2 := by
  induction entries with
  | nil => exact absurd member List.not_mem_nil
  | cons first rest ih =>
    obtain ⟨name, value⟩ := first
    rw [List.map_cons, List.nodup_cons] at nodup
    rcases List.mem_cons.mp member with rfl | later
    · exact List.lookup_cons_self
    · have apart : entry.1 ≠ name := fun same => nodup.1 (List.mem_map.mpr ⟨entry, later, same⟩)
      rw [List.lookup_cons, beq_false_of_ne apart]
      exact ih nodup.2 later

theorem mem_of_lookup {β : Type} {entries : List (String × β)} {name : String} {value : β}
    (found : entries.lookup name = some value) : (name, value) ∈ entries := by
  obtain ⟨before, after, split_, -⟩ := List.lookup_eq_some_iff.mp found
  rw [split_]
  exact List.mem_append_right _ List.mem_cons_self

theorem lookup_map {β γ : Type} (f : String → β → γ) (entries : List (String × β)) (name : String) :
    (entries.map fun entry => (entry.1, f entry.1 entry.2)).lookup name = (entries.lookup name).map (f name) := by
  induction entries with
  | nil => rfl
  | cons first rest ih =>
    obtain ⟨other, value⟩ := first
    by_cases same : name = other
    · subst same
      simp
    · have apart : (name == other) = false := beq_false_of_ne same
      simp only [List.map_cons, List.lookup_cons, apart]
      exact ih

theorem lookup_added {β : Type} (entries : List (String × β)) (entry : String × β) (name : String) :
    (if (entries.lookup entry.1).isSome then entries else entries ++ [entry]).lookup name =
      (entries.lookup name).or (if name = entry.1 then some entry.2 else none) := by
  split
  · rename_i there
    obtain ⟨value, found⟩ := Option.isSome_iff_exists.mp there
    split
    · rename_i same
      rw [same, found, Option.some_or]
    · rw [Option.or_none]
  · rw [List.lookup_append]
    by_cases same : name = entry.1
    · rw [if_pos same, same, List.lookup_cons_self]
    · rw [if_neg same, List.lookup_cons, beq_false_of_ne same]
      rfl

theorem lookup_foldl_added {α β γ : Type} {get : γ → List (String × β)} {add : γ → α → γ} {entry : α → String × β}
    (step : ∀ db a name, (get (add db a)).lookup name =
      ((get db).lookup name).or (if name = (entry a).1 then some (entry a).2 else none))
    (news : List α) (db : γ) (name : String) :
    (get (news.foldl add db)).lookup name = ((get db).lookup name).or ((news.map entry).lookup name) := by
  induction news generalizing db with
  | nil => rw [List.foldl_nil, List.map_nil, List.lookup_nil, Option.or_none]
  | cons a rest ih =>
    rw [List.foldl_cons, ih, step, Option.or_assoc, List.map_cons]
    congr 1
    by_cases same : name = (entry a).1
    · rw [if_pos same, same, List.lookup_cons_self, Option.some_or]
    · rw [if_neg same, List.lookup_cons, beq_false_of_ne same, Option.none_or]

theorem lookup_mapRows (tables : Tables) (f : String → Relation → List Row) (name : String) :
    (mapRows tables f).lookup name = (tables.lookup name).map fun relation => { relation with rows := f name relation } :=
  lookup_map (fun name (relation : Relation) => ({ relation with rows := f name relation } : Relation)) tables name

/-! ### What a deletion leaves -/

/-- Every table is there as before, with some of its rows. -/
def Thinner (fewer tables : Tables) : Prop :=
  ∀ name, (fewer.lookup name).map Relation.layout = (tables.lookup name).map Relation.layout ∧
    ∀ relation, fewer.lookup name = some relation → ∃ before, tables.lookup name = some before ∧ relation.rows ⊆ before.rows

theorem Thinner.refl (tables : Tables) : Thinner tables tables :=
  fun _ => ⟨rfl, fun relation found => ⟨relation, found, fun _ member => member⟩⟩

theorem Thinner.trans {first second third : Tables} (one : Thinner first second) (two : Thinner second third) :
    Thinner first third := by
  refine fun name => ⟨(one name).1.trans (two name).1, fun relation found => ?_⟩
  obtain ⟨before, found, fewer⟩ := (one name).2 relation found
  obtain ⟨start, found, fewest⟩ := (two name).2 before found
  exact ⟨start, found, fun row member => fewest (fewer member)⟩

theorem thinner_mapRows {tables : Tables} {f : String → Relation → List Row}
    (fewer : ∀ name relation, tables.lookup name = some relation → f name relation ⊆ relation.rows) :
    Thinner (mapRows tables f) tables := by
  intro name
  rw [lookup_mapRows]
  cases found : tables.lookup name with
  | none => exact ⟨rfl, fun relation found => nomatch found⟩
  | some relation =>
    refine ⟨rfl, fun after same => ?_⟩
    rw [Option.map_some, Option.some.injEq] at same
    exact ⟨relation, rfl, same ▸ fewer name relation found⟩

theorem thinner_cascade (fuel : Nat) (gone : List (String × Row)) (tables : Tables) :
    Thinner (cascade fuel gone tables) tables := by
  induction fuel generalizing gone tables with
  | zero => exact Thinner.refl tables
  | succ fuel ih =>
    rw [cascade]
    split
    · exact Thinner.refl tables
    · exact (ih _ _).trans (thinner_mapRows fun _ relation _ => List.filter_subset_self relation.rows)

theorem thinner_delete (tables : Tables) (name : String) (p : Row → Bool) : Thinner (delete tables name p) tables := by
  rw [delete]
  cases known : tables.lookup name with
  | none => exact Thinner.refl tables
  | some relation =>
    refine (thinner_cascade _ _ _).trans (thinner_mapRows fun other before found => ?_)
    split
    · rename_i same
      rw [same, known, Option.some.injEq] at found
      exact found ▸ List.filter_subset_self relation.rows
    · exact fun _ member => member

theorem cascade_quiet {fuel : Nat} {gone : List (String × Row)} {tables : Tables} (quiet : pointing tables gone = []) :
    cascade fuel gone tables = tables := by
  cases fuel with
  | zero => rfl
  | succ fuel => rw [cascade, quiet, List.isEmpty_nil, if_pos rfl]

theorem delete_unreferred {tables : Tables} {name : String} {relation : Relation}
    (known : tables.lookup name = some relation)
    (p : Row → Bool) (plain : ∀ entry ∈ tables, ∀ r ∈ entry.2.layout.references, r.parent ≠ name) :
    delete tables name p = setRows tables name (relation.rows.filter fun row => !p row) := by
  rw [delete, known]
  refine cascade_quiet (List.eq_nil_iff_forall_not_mem.mpr fun lost found => ?_)
  simp only [pointing, List.mem_flatMap, List.mem_map, List.mem_filter] at found
  obtain ⟨after, member, row, ⟨-, hit⟩, -⟩ := found
  obtain ⟨before, listed, rfl⟩ := List.mem_map.mp member
  obtain ⟨r, named, hit⟩ := List.any_eq_true.mp hit
  obtain ⟨gone, dropped, hit⟩ := List.any_eq_true.mp (Bool.and_eq_true_iff.mp hit).2
  obtain ⟨row, -, rfl⟩ := List.mem_map.mp dropped
  simp only [Bool.and_eq_true, decide_eq_true_eq] at hit
  exact plain before listed r named hit.1.1.symm

/-- The database with these layouts whose rows are given by name. -/
def fill (layouts : List (String × Layout)) (rows : String → List Row) : Tables :=
  layouts.map fun entry => (entry.1, ⟨entry.2, rows entry.1⟩)

section Fill

variable {layouts : List (String × Layout)} {rows : String → List Row}

theorem lookup_fill (layouts : List (String × Layout)) (rows : String → List Row) (name : String) :
    (fill layouts rows).lookup name = (layouts.lookup name).map fun layout => ⟨layout, rows name⟩ :=
  lookup_map (fun name (layout : Layout) => (⟨layout, rows name⟩ : Relation)) layouts name

theorem fill_congr {other : String → List Row} (same : ∀ entry ∈ layouts, rows entry.1 = other entry.1) :
    fill layouts rows = fill layouts other := by
  refine List.map_congr_left fun entry member => ?_
  rw [same entry member]

theorem setRows_fill (name : String) (fresh : List Row) :
    setRows (fill layouts rows) name fresh = fill layouts (Function.update rows name fresh) := by
  rw [setRows, mapRows, fill, fill, List.map_map]
  refine List.map_congr_left fun entry _ => ?_
  simp only [Function.comp_apply, Function.update_apply]

/-- The layout of a table, by its name. -/
def layoutOf (layouts : List (String × Layout)) (name : String) : Layout := (layouts.lookup name).getD ⟨[], [], []⟩

theorem layoutOf_mem {entry : String × Layout} (nodup : (layouts.map Prod.fst).Nodup) (member : entry ∈ layouts) :
    layoutOf layouts entry.1 = entry.2 := by
  rw [layoutOf, lookup_of_mem nodup member]
  rfl

/-- The rows without those that refer to what is gone. -/
def unpointed (layouts : List (String × Layout)) (gone : List (String × Row)) (rows : String → List Row) (name : String) :
    List Row := (rows name).filter fun row => !points gone (layoutOf layouts name) row

theorem mapRows_fill (nodup : (layouts.map Prod.fst).Nodup) (gone : List (String × Row)) :
    mapRows (fill layouts rows) (fun _ relation => relation.rows.filter fun row => !points gone relation.layout row) =
      fill layouts (unpointed layouts gone rows) := by
  rw [mapRows, fill, fill, List.map_map]
  refine List.map_congr_left fun entry member => ?_
  simp only [Function.comp_apply, unpointed, layoutOf_mem nodup member]

theorem mem_pointing {gone : List (String × Row)} {lost : String × Row} :
    lost ∈ pointing (fill layouts rows) gone ↔
      ∃ entry ∈ layouts, entry.1 = lost.1 ∧ lost.2 ∈ rows entry.1 ∧ points gone entry.2 lost.2 = true := by
  simp only [pointing, fill, List.mem_flatMap, List.mem_map, List.mem_filter]
  constructor
  · rintro ⟨filled, ⟨entry, member, rfl⟩, row, ⟨listed, hit⟩, rfl⟩
    exact ⟨entry, member, rfl, listed, hit⟩
  · rintro ⟨entry, member, same, listed, hit⟩
    exact ⟨_, ⟨entry, member, rfl⟩, lost.2, ⟨listed, hit⟩, by rw [same]⟩

theorem unpointed_of_quiet (nodup : (layouts.map Prod.fst).Nodup) {gone : List (String × Row)}
    (quiet : pointing (fill layouts rows) gone = []) :
    fill layouts (unpointed layouts gone rows) = fill layouts rows := by
  refine fill_congr fun entry member => ?_
  rw [unpointed, layoutOf_mem nodup member, List.filter_eq_self]
  intro row listed
  by_contra hit
  rw [Bool.not_eq_true, Bool.not_eq_false'] at hit
  have found : (entry.1, row) ∈ pointing (fill layouts rows) gone := mem_pointing.mpr ⟨entry, member, rfl, listed, hit⟩
  rw [quiet] at found
  exact absurd found List.not_mem_nil

/-- No table that refers to another is referred to. -/
def Flat (layouts : List (String × Layout)) : Prop :=
  ∀ child ∈ layouts, ∀ r ∈ child.2.references, ∀ parent ∈ layouts, parent.1 = r.parent → parent.2.references = []

theorem cascade_flat (nodup : (layouts.map Prod.fst).Nodup) (flat : Flat layouts) (gone : List (String × Row))
    {fuel : Nat} (enough : fuel = 0 → pointing (fill layouts rows) gone = []) :
    cascade fuel gone (fill layouts rows) = fill layouts (unpointed layouts gone rows) := by
  by_cases quiet : pointing (fill layouts rows) gone = []
  · rw [cascade_quiet quiet, unpointed_of_quiet nodup quiet]
  · cases fuel with
    | zero => exact absurd (enough rfl) quiet
    | succ fuel =>
      have some_ : ¬ (pointing (fill layouts rows) gone).isEmpty = true :=
        fun empty => quiet (List.isEmpty_iff.mp empty)
      rw [cascade, if_neg some_, mapRows_fill nodup]
      refine cascade_quiet (List.eq_nil_iff_forall_not_mem.mpr fun lost found => ?_)
      obtain ⟨child, member, -, -, hit⟩ := mem_pointing.mp found
      obtain ⟨r, named, hit⟩ := List.any_eq_true.mp hit
      obtain ⟨before, dropped, hit⟩ := List.any_eq_true.mp (Bool.and_eq_true_iff.mp hit).2
      obtain ⟨parent, listed, same, -, pointed⟩ := mem_pointing.mp dropped
      have named_ : before.1 = r.parent := by
        simp only [Bool.and_eq_true, decide_eq_true_eq] at hit
        exact hit.1.1
      have none := flat child member r named parent listed (same.trans named_)
      rw [points, none, List.any_nil] at pointed
      cases pointed

theorem rowCount_fill (layouts : List (String × Layout)) (rows : String → List Row) :
    rowCount (fill layouts rows) = (layouts.map fun entry => (rows entry.1).length).sum := by
  rw [rowCount, fill, List.map_map]
  rfl

theorem delete_flat (nodup : (layouts.map Prod.fst).Nodup) (flat : Flat layouts) {name : String} {layout : Layout}
    (known : layouts.lookup name = some layout) (p : Row → Bool) :
    delete (fill layouts rows) name p = fill layouts (unpointed layouts (((rows name).filter p).map fun row => (name, row))
      (Function.update rows name ((rows name).filter fun row => !p row))) := by
  rw [delete, lookup_fill, known]
  simp only [Option.map_some]
  rw [setRows_fill]
  refine cascade_flat nodup flat _ fun none => ?_
  rw [rowCount_fill, List.sum_eq_zero_iff_forall_eq_nat] at none
  refine List.eq_nil_iff_forall_not_mem.mpr fun lost found => ?_
  obtain ⟨entry, member, -, listed, -⟩ := mem_pointing.mp found
  have empty := none _ (List.mem_map_of_mem member)
  rw [List.length_eq_zero_iff.mp empty] at listed
  exact absurd listed List.not_mem_nil

end Fill

end Soshal.Library.Relational
