import Mathlib.Data.List.Find
import Mathlib.Data.List.MinMax
import Soshal.Library.Fallible
import Soshal.Db.NormalizeKeys

/-! What migration 2 makes of the rows of a table, and of a database.

A table is settled when it has the newest row of each key, rewritten. The deletion of
duplicates reaches other tables only through references to a row that goes.
-/

set_option autoImplicit false

namespace Soshal.Db

open Library.Relational
open Library.Text (strip_map strip_strip toLower_toLower toNat_shift)
open Library.Fallible (ok_bind)

theorem toLower_beq_space (c : Char) : (c.toLower == ' ') = (c == ' ') := by
  delta Char.toLower
  split
  · rename_i upper
    have low : 65 ≤ c.val.toNat := upper.1
    rw [beq_eq_false_iff_ne.mpr, beq_eq_false_iff_ne.mpr]
    · intro same
      have value : c.val.toNat = 32 := congrArg (fun d : Char => d.val.toNat) same
      omega
    · intro same
      have value := congrArg (fun d : Char => d.val.toNat) same
      have shifted : c.val.toNat + 32 = 32 := (toNat_shift upper.2).symm.trans value
      omega
  · rfl

theorem lowerTrim_idem (text : String) : lowerTrim (lowerTrim text) = lowerTrim text := by
  have stable := @strip_map (· == ' ') Char.toLower toLower_beq_space
  simp only [lowerTrim, String.toList_ofList, stable, strip_strip, List.map_map]
  congr 2
  funext c
  exact toLower_toLower c

theorem map_lowerTrim_idem (value : Option String) : (value.map lowerTrim).map lowerTrim = value.map lowerTrim := by
  cases value with
  | none => rfl
  | some text => rw [Option.map_some, Option.map_some, lowerTrim_idem]

def rewriteAll (cols : List String) (row : Row) : Row := cols.foldl (fun row col => rewrite col row) row

theorem rowid_rewrite (col : String) (row : Row) : (rewrite col row).rowid = row.rowid := by
  unfold rewrite
  split <;> rfl

theorem cell_rewrite (col : String) (row : Row) (c : String) :
    (rewrite col row).cell c = if c = col then (row.cell c).map lowerTrim else row.cell c := by
  unfold rewrite
  split
  · rename_i settled
    split
    · rename_i same
      rw [same]
      exact settled
    · rfl
  · rename_i unsettled
    show (if c = col then _ else _) = _
    split
    · rename_i same
      rw [same]
    · rfl

theorem rowid_rewriteAll (cols : List String) (row : Row) : (rewriteAll cols row).rowid = row.rowid := by
  induction cols generalizing row with
  | nil => rfl
  | cons col rest ih =>
    rw [rewriteAll, List.foldl_cons]
    exact (ih (rewrite col row)).trans (rowid_rewrite col row)

theorem cell_rewriteAll (cols : List String) (row : Row) (c : String) :
    (rewriteAll cols row).cell c = if c ∈ cols then (row.cell c).map lowerTrim else row.cell c := by
  induction cols generalizing row with
  | nil => rfl
  | cons col rest ih =>
    rw [rewriteAll, List.foldl_cons]
    refine (ih (rewrite col row)).trans ?_
    rw [cell_rewrite]
    by_cases here : c = col
    · subst here
      rw [if_pos rfl, if_pos List.mem_cons_self, map_lowerTrim_idem, ite_self]
    · rw [if_neg here]
      by_cases later : c ∈ rest
      · rw [if_pos later, if_pos (List.mem_cons_of_mem _ later)]
      · rw [if_neg later, if_neg (fun member => (List.mem_cons.mp member).elim here later)]

theorem groupKey_eq (pk cols : List String) (row : Row) : groupKey pk cols row = pk.map (rewriteAll cols row).cell := by
  refine List.map_congr_left fun c _ => ?_
  rw [cell_rewriteAll]
  simp only [List.contains_iff_mem]

def settle (pk cols : List String) (rows : List Row) : List Row :=
  (rows.filter (newest pk cols rows)).map (rewriteAll cols)

theorem newest_iff {pk cols : List String} {rows : List Row} {row : Row} :
    newest pk cols rows row = true ↔
      ∀ other ∈ rows, groupKey pk cols other = groupKey pk cols row → other.rowid ≤ row.rowid := by
  simp only [newest, List.all_eq_true, decide_eq_true_eq]

theorem newer_of_not_newest {pk cols : List String} {rows : List Row} {row : Row}
    (older : newest pk cols rows row = false) :
    ∃ other ∈ rows, groupKey pk cols other = groupKey pk cols row ∧ row.rowid < other.rowid := by
  by_contra none
  refine Bool.eq_false_iff.mp older (newest_iff.mpr fun other member same => ?_)
  by_contra later
  exact none ⟨other, member, same, not_le.mp later⟩

theorem exists_newest (pk cols : List String) {rows : List Row} {row : Row} (member : row ∈ rows) :
    ∃ last ∈ rows, newest pk cols rows last = true ∧ groupKey pk cols last = groupKey pk cols row := by
  let group := rows.filter fun other => groupKey pk cols other = groupKey pk cols row
  have mem_group : ∀ {other}, other ∈ group ↔ other ∈ rows ∧ groupKey pk cols other = groupKey pk cols row := by
    intro other
    rw [List.mem_filter, decide_eq_true_eq]
  have listed : row ∈ group := mem_group.mpr ⟨member, rfl⟩
  cases greatest : group.argmax Row.rowid with
  | none =>
    rw [List.argmax_eq_none.mp greatest] at listed
    exact absurd listed List.not_mem_nil
  | some last =>
    obtain ⟨found, same⟩ := mem_group.mp (List.argmax_mem greatest)
    refine ⟨last, found, newest_iff.mpr fun other member key => ?_, same⟩
    exact List.le_of_mem_argmax (mem_group.mpr ⟨member, key.trans same⟩) greatest

theorem mem_settle {pk cols : List String} {rows : List Row} {left : Row} :
    left ∈ settle pk cols rows ↔ ∃ row ∈ rows, newest pk cols rows row = true ∧ rewriteAll cols row = left := by
  simp only [settle, List.mem_map, List.mem_filter, and_assoc]

theorem exists_settled (pk cols : List String) {rows : List Row} {row : Row} (member : row ∈ rows) :
    ∃ left ∈ settle pk cols rows, pk.map left.cell = groupKey pk cols row := by
  obtain ⟨last, listed, newer, same⟩ := exists_newest pk cols member
  exact ⟨rewriteAll cols last, mem_settle.mpr ⟨last, listed, newer, rfl⟩, (groupKey_eq ..).symm.trans same⟩

theorem settle_normal {pk cols : List String} {rows : List Row} {left : Row} (member : left ∈ settle pk cols rows)
    {c : String} (listed : c ∈ cols) : left.cell c = (left.cell c).map lowerTrim := by
  obtain ⟨row, -, -, rfl⟩ := mem_settle.mp member
  rw [cell_rewriteAll, if_pos listed, map_lowerTrim_idem]

theorem distinct_settle (pk cols : List String) (rows : List Row) : distinct pk (settle pk cols rows) = true := by
  rw [distinct_iff]
  simp only [settle, List.mem_map, List.mem_filter]
  rintro _ ⟨a, ⟨listed, newer⟩, rfl⟩ _ ⟨b, ⟨listed', newer'⟩, rfl⟩ - same
  have key : groupKey pk cols a = groupKey pk cols b := by
    rw [groupKey_eq, groupKey_eq]
    exact List.map_congr_left same
  rw [rowid_rewriteAll, rowid_rewriteAll]
  exact le_antisymm (newest_iff.mp newer' a listed key) (newest_iff.mp newer b listed' key.symm)

theorem distinct_of_rewriteAll {columns cols : List String} {rows : List Row}
    (apart : distinct columns (rows.map (rewriteAll cols)) = true) : distinct columns rows = true := by
  rw [distinct_iff] at apart ⊢
  intro a listed b listed' present same
  have ids :=
    apart _ (List.mem_map_of_mem listed) _ (List.mem_map_of_mem listed') (fun c member => ?_) (fun c member => ?_)
  · rwa [rowid_rewriteAll, rowid_rewriteAll] at ids
  · rw [cell_rewriteAll]
    split
    · rw [Ne, Option.map_eq_none_iff]
      exact present c member
    · exact present c member
  · rw [cell_rewriteAll, cell_rewriteAll, same c member]

section Table

variable {layouts : List (String × Layout)} {rows : String → List Row} {db : Database}
variable {name : String} {layout : Layout} {cols : List String}

def Database.holding (db : Database) (layouts : List (String × Layout)) (rows : String → List Row) : Database :=
  { db with tables := fill layouts rows }

theorem indexesHold_of_rewriteAll {fresh : List Row}
    (holds : Database.indexesHold db.indexes name (fresh.map (rewriteAll cols)) = true) :
    Database.indexesHold db.indexes name fresh = true := by
  rw [Database.indexesHold, List.all_eq_true] at holds ⊢
  intro index listed
  have told := holds index listed
  rw [Bool.or_eq_true] at told ⊢
  exact told.imp_right distinct_of_rewriteAll

theorem updateColumn_fill (known : layouts.lookup name = some layout) {col : String} (column : col ∈ layout.columns) :
    (db.holding layouts rows).updateColumn name col =
      if distinct layout.primaryKey ((rows name).map (rewrite col)) && Database.indexesHold db.indexes name ((rows name).map (rewrite col)) then
        .ok (db.holding layouts (Function.update rows name ((rows name).map (rewrite col))))
      else .error (.uniqueFailed name) := by
  rw [Database.updateColumn]
  simp only [Database.holding, lookup_fill, known, Option.map_some, setRows_fill]
  rw [if_neg]
  rw [not_not, List.contains_iff_mem]
  exact column

theorem updateColumns_fill (known : layouts.lookup name = some layout) (columns : ∀ col ∈ cols, col ∈ layout.columns)
    (apart : distinct layout.primaryKey ((rows name).map (rewriteAll cols)) = true)
    (before : Database.indexesHold db.indexes name (rows name) = true ∨ cols ≠ []) :
    cols.foldlM (fun db col => Database.updateColumn db name col) (db.holding layouts rows) =
      if Database.indexesHold db.indexes name ((rows name).map (rewriteAll cols)) then
        .ok (db.holding layouts (Function.update rows name ((rows name).map (rewriteAll cols))))
      else .error (.uniqueFailed name) := by
  induction cols generalizing rows with
  | nil =>
    have same : (rows name).map (rewriteAll []) = rows name := List.map_id' _
    rw [same, Function.update_eq_self, if_pos (before.resolve_right fun some_ => some_ rfl)]
    rfl
  | cons col rest ih =>
    have split_ : (rows name).map (rewriteAll (col :: rest)) =
        ((rows name).map (rewrite col)).map (rewriteAll rest) := by
      rw [List.map_map]
      rfl
    have here : (Function.update rows name ((rows name).map (rewrite col))) name = (rows name).map (rewrite col) :=
      Function.update_self ..
    rw [split_] at apart ⊢
    rw [List.foldlM_cons, updateColumn_fill known (columns col List.mem_cons_self), distinct_of_rewriteAll apart,
      Bool.true_and]
    by_cases holds : Database.indexesHold db.indexes name ((rows name).map (rewrite col)) = true
    · rw [if_pos holds, ok_bind]
      rw [ih (fun c member => columns c (List.mem_cons_of_mem _ member)) (by rw [here]; exact apart)
        (.inl (by rw [here]; exact holds)), here, Function.update_idem]
    · rw [if_neg holds, if_neg fun final => holds (indexesHold_of_rewriteAll final)]
      rfl

def replaced (layouts : List (String × Layout)) (rows : String → List Row) (name : String) (cols : List String) :
    List (String × Row) :=
  ((rows name).filter fun row => !newest (layoutOf layouts name).primaryKey cols (rows name) row).map fun row => (name, row)

/-- The rows once the replaced ones of a table are deleted, with all that refer to them. -/
def deduped (layouts : List (String × Layout)) (rows : String → List Row) (name : String) (cols : List String) :
    String → List Row :=
  unpointed layouts (replaced layouts rows name cols)
    (Function.update rows name ((rows name).filter (newest (layoutOf layouts name).primaryKey cols (rows name))))

theorem layoutOf_known (known : layouts.lookup name = some layout) : layoutOf layouts name = layout := by
  rw [layoutOf, known]
  rfl

theorem pkColumns_fill (known : layouts.lookup name = some layout) :
    (db.holding layouts rows).pkColumns name = layout.primaryKey := by
  rw [Database.pkColumns]
  simp only [Database.holding, lookup_fill, known, Option.map_some, Option.elim_some]

theorem dedupe_fill (nodup : (layouts.map Prod.fst).Nodup) (flat : Flat layouts)
    (known : layouts.lookup name = some layout) :
    (db.holding layouts rows).dedupe name layout.primaryKey cols =
      db.holding layouts (deduped layouts rows name cols) := by
  rw [Database.dedupe]
  simp only [Database.holding, lookup_fill, known, Option.map_some, delete_flat nodup flat known, Bool.not_not,
    deduped, replaced, layoutOf_known known]

/-- No row refers to a row that is replaced: the columns that are referred to are absent there. -/
def Unreferred (layouts : List (String × Layout)) (name : String) (cols : List String) (rows : List Row) : Prop :=
  ∀ row ∈ rows, newest (layoutOf layouts name).primaryKey cols rows row = false →
    ∀ child ∈ layouts, ∀ r ∈ child.2.references, r.parent = name → row.cell r.parentColumn = none

theorem pointing_replaced (unreferred : Unreferred layouts name cols (rows name)) (other : String → List Row) :
    pointing (fill layouts other) (replaced layouts rows name cols) = [] := by
  refine List.eq_nil_iff_forall_not_mem.mpr fun lost found => ?_
  obtain ⟨child, member, -, -, hit⟩ := mem_pointing.mp found
  obtain ⟨r, named, hit⟩ := List.any_eq_true.mp hit
  obtain ⟨before, dropped, hit⟩ := List.any_eq_true.mp (Bool.and_eq_true_iff.mp hit).2
  simp only [replaced, List.mem_map, List.mem_filter, Bool.not_eq_true'] at dropped
  obtain ⟨row, ⟨listed, older⟩, rfl⟩ := dropped
  simp only [Bool.and_eq_true, decide_eq_true_eq] at hit
  obtain ⟨⟨parent, present⟩, same⟩ := hit
  rw [same, unreferred row listed older child member r named parent.symm] at present
  cases present

theorem holding_deduped (nodup : (layouts.map Prod.fst).Nodup) (unreferred : Unreferred layouts name cols (rows name)) :
    db.holding layouts (deduped layouts rows name cols) = db.holding layouts
      (Function.update rows name ((rows name).filter (newest (layoutOf layouts name).primaryKey cols (rows name)))) := by
  rw [Database.holding, Database.holding, deduped, unpointed_of_quiet nodup (pointing_replaced unreferred _)]

section

variable (nodup : (layouts.map Prod.fst).Nodup) (flat : Flat layouts) (known : layouts.lookup name = some layout)
  (keyed : layout.primaryKey ≠ []) (columns : ∀ col ∈ cols, col ∈ layout.columns) (some_ : cols ≠ [])
include nodup flat known keyed columns some_

theorem normalizeTable_kept {kept : String → List Row}
    (held : db.holding layouts (deduped layouts rows name cols) = db.holding layouts kept)
    (here : kept name = (rows name).filter (newest layout.primaryKey cols (rows name))) :
    (db.holding layouts rows).normalizeTable name cols =
      if Database.indexesHold db.indexes name (settle layout.primaryKey cols (rows name)) then
        .ok (db.holding layouts (Function.update kept name (settle layout.primaryKey cols (rows name))))
      else .error (.uniqueFailed name) := by
  have keyed_ : ¬ layout.primaryKey.isEmpty = true := fun empty => keyed (List.isEmpty_iff.mp empty)
  rw [Database.normalizeTable]
  simp only [pkColumns_fill known]
  rw [if_neg keyed_, dedupe_fill nodup flat known, held]
  rw [updateColumns_fill known columns ?_ (.inr some_)]
  · rw [here]
    rfl
  · rw [here]
    exact distinct_settle ..

theorem normalizeTable_unreferred (unreferred : Unreferred layouts name cols (rows name)) :
    (db.holding layouts rows).normalizeTable name cols =
      if Database.indexesHold db.indexes name (settle layout.primaryKey cols (rows name)) then
        .ok (db.holding layouts (Function.update rows name (settle layout.primaryKey cols (rows name))))
      else .error (.uniqueFailed name) := by
  have held := @holding_deduped layouts rows db name cols nodup unreferred
  rw [layoutOf_known known] at held
  rw [normalizeTable_kept nodup flat known keyed columns some_ held (Function.update_self ..), Function.update_idem]

/-- A table that refers to none is settled, and what refers to a row that is replaced goes. -/
theorem normalizeTable_root (root : layout.references = []) :
    (db.holding layouts rows).normalizeTable name cols =
      if Database.indexesHold db.indexes name (settle layout.primaryKey cols (rows name)) then
        .ok (db.holding layouts
          (Function.update (deduped layouts rows name cols) name (settle layout.primaryKey cols (rows name))))
      else .error (.uniqueFailed name) := by
  have here : deduped layouts rows name cols name = (rows name).filter (newest layout.primaryKey cols (rows name)) := by
    rw [deduped, unpointed, Function.update_self, layoutOf_known known, List.filter_eq_self]
    intro row _
    rw [points, root]
    rfl
  exact normalizeTable_kept nodup flat known keyed columns some_ rfl here

end

end Table

section Run

variable {layouts : List (String × Layout)} {rows : String → List Row} {db : Database}

def settled (layouts : List (String × Layout)) (rows : String → List Row) (target : String × List String) : List Row :=
  settle (layoutOf layouts target.1).primaryKey target.2 (rows target.1)

def finish (layouts : List (String × Layout)) (targets : List (String × List String)) (rows : String → List Row)
    (name : String) : List Row :=
  match targets.lookup name with
  | some cols => settled layouts rows (name, cols)
  | none => rows name

/-- A target is a table with a key, and with the columns that are rewritten. -/
def Fits (layouts : List (String × Layout)) (target : String × List String) : Prop :=
  (layouts.lookup target.1).isSome = true ∧ (layoutOf layouts target.1).primaryKey ≠ [] ∧ target.2 ≠ [] ∧
    ∀ col ∈ target.2, col ∈ (layoutOf layouts target.1).columns

instance (layouts : List (String × Layout)) (target : String × List String) : Decidable (Fits layouts target) :=
  inferInstanceAs (Decidable (_ ∧ _ ∧ _ ∧ _))

theorem finish_cons {target : String × List String} {rest : List (String × List String)}
    (fresh : target.1 ∉ rest.map Prod.fst) :
    finish layouts rest (Function.update rows target.1 (settled layouts rows target)) = finish layouts (target :: rest) rows := by
  funext name
  by_cases same : name = target.1
  · subst same
    rw [finish, finish, List.lookup_cons_self, List.lookup_eq_none_iff.mpr]
    · exact Function.update_self ..
    · intro entry member
      rw [bne_iff_ne]
      exact fun equal => fresh (List.mem_map.mpr ⟨entry, member, equal.symm⟩)
  · have apart : (name == target.1) = false := beq_false_of_ne same
    rw [finish, finish, List.lookup_cons, apart]
    simp only [settled, Function.update_of_ne same]

theorem normalizeTables_fill (nodup : (layouts.map Prod.fst).Nodup) (flat : Flat layouts)
    {targets : List (String × List String)} (names : (targets.map Prod.fst).Nodup)
    (fit : ∀ target ∈ targets, Fits layouts target)
    (unreferred : ∀ target ∈ targets, Unreferred layouts target.1 target.2 (rows target.1)) :
    targets.foldlM (fun db target => Database.normalizeTable db target.1 target.2) (db.holding layouts rows) =
      match targets.find? fun target => !Database.indexesHold db.indexes target.1 (settled layouts rows target) with
      | none => .ok (db.holding layouts (finish layouts targets rows))
      | some target => .error (.uniqueFailed target.1) := by
  induction targets generalizing rows with
  | nil => rfl
  | cons target rest ih =>
    obtain ⟨known, keyed, some_, columns⟩ := fit target List.mem_cons_self
    obtain ⟨layout, known⟩ := Option.isSome_iff_exists.mp known
    rw [List.map_cons, List.nodup_cons] at names
    rw [layoutOf_known known] at keyed columns
    have later : ∀ other ∈ rest, Function.update rows target.1 (settled layouts rows target) other.1 = rows other.1 :=
      fun other member => Function.update_of_ne (fun same => names.1 (List.mem_map.mpr ⟨other, member, same⟩)) ..
    have first : (db.holding layouts rows).normalizeTable target.1 target.2 =
        if Database.indexesHold db.indexes target.1 (settled layouts rows target) then
          .ok (db.holding layouts (Function.update rows target.1 (settled layouts rows target)))
        else .error (.uniqueFailed target.1) := by
      rw [settled, layoutOf_known known]
      exact normalizeTable_unreferred nodup flat known keyed columns some_ (unreferred target List.mem_cons_self)
    have others : (rest.find? fun other =>
          !Database.indexesHold db.indexes other.1 (settled layouts (Function.update rows target.1 (settled layouts rows target)) other)) =
        rest.find? fun other => !Database.indexesHold db.indexes other.1 (settled layouts rows other) := by
      refine List.find?_congr fun other member => ?_
      rw [settled, later other member]
      rfl
    rw [List.foldlM_cons, first, List.find?_cons]
    by_cases holds : Database.indexesHold db.indexes target.1 (settled layouts rows target) = true
    · rw [if_pos holds, ok_bind, ← finish_cons names.1, holds]
      refine (ih names.2 (fun other member => fit other (List.mem_cons_of_mem _ member)) fun other member => ?_).trans ?_
      · rw [later other member]
        exact unreferred other (List.mem_cons_of_mem _ member)
      · rw [others]
        rfl
    · rw [if_neg holds, Bool.eq_false_iff.mpr holds]
      rfl

end Run

end Soshal.Db
