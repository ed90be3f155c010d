import Mathlib.Algebra.BigOperators.Group.List.Basic
import Mathlib.Algebra.GroupWithZero.Nat
import Mathlib.Data.List.Basic
import Mathlib.Data.List.Induction
import Mathlib.Data.List.Nodup

/-! Tables with a primary key, in insertion order.

A table keeps one row per key as part of its type. The statements that change it
are the ones of SQL: insert or merge into the row that is already there
(`upsert`), insert unless present (`insertIgnore`), rewrite rows (`modify`) and
delete rows (`delete`). Each has one lemma that says what a lookup then finds.
-/

set_option autoImplicit false

namespace Soshal.Library

structure Table (α β : Type) where
  rows : List (α × β)
  nodup : (rows.map Prod.fst).Nodup

namespace Table

variable {α β : Type}

theorem ext_rows {first second : Table α β} (same : first.rows = second.rows) : first = second := by
  cases first
  cases second
  simp only at same
  subst same
  rfl

def empty : Table α β := ⟨[], List.nodup_nil⟩

variable (t : Table α β)

def keys : List α := t.rows.map Prod.fst

/-- Rewrite every row; a `WHERE` clause is a rewrite that leaves the other rows alone. -/
def modify (f : α → β → β) : Table α β where
  rows := t.rows.map fun row => (row.1, f row.1 row.2)
  nodup := by simpa [List.map_map, Function.comp_def] using t.nodup

def delete (p : α → β → Bool) : Table α β where
  rows := t.rows.filter fun row => !p row.1 row.2
  nodup := t.nodup.sublist (List.filter_sublist.map Prod.fst)

@[simp] theorem keys_modify (f : α → β → β) : (t.modify f).keys = t.keys := by
  simp [keys, modify]

theorem modify_congr {t : Table α β} {f g : α → β → β} (same : ∀ k v, f k v = g k v) : t.modify f = t.modify g := by
  rw [funext fun k => funext (same k)]

theorem modify_modify (f g : α → β → β) : (t.modify f).modify g = t.modify fun k v => g k (f k v) := by
  apply ext_rows
  simp [modify]

theorem modify_eq_self {t : Table α β} {f : α → β → β} (same : ∀ row ∈ t.rows, f row.1 row.2 = row.2) :
    t.modify f = t := by
  apply ext_rows
  calc (t.modify f).rows = t.rows.map id := List.map_congr_left fun row member => by
        simp only [same row member, id]
    _ = t.rows := List.map_id _

/-- The sum of a weight over the rows. -/
def total (weight : α → β → Nat) : Nat := (t.rows.map fun row => weight row.1 row.2).sum

variable [DecidableEq α]

def find? (k : α) : Option β := t.rows.lookup k

/-- `INSERT … ON CONFLICT DO UPDATE`: append the row, or merge into the stored one. -/
def upsert (k : α) (row : β) (merge : β → β) : Table α β :=
  if present : k ∈ t.keys then t.modify fun k' v => if k' = k then merge v else v
  else ⟨t.rows ++ [(k, row)], by
    rw [List.map_append]
    exact t.nodup.append (by simp) (by simpa [keys] using present)⟩

def insertIgnore (k : α) (row : β) : Table α β := t.upsert k row id

theorem lookup_eq_none {rows : List (α × β)} {k : α} : rows.lookup k = none ↔ k ∉ rows.map Prod.fst := by
  induction rows with
  | nil => simp
  | cons row rest ih =>
    obtain ⟨k', v'⟩ := row
    by_cases same : k = k'
    · simp [same]
    · rw [List.lookup_cons, beq_eq_false_iff_ne.mpr same, ih]
      simp [same]

theorem find?_eq_none {t : Table α β} {k : α} : t.find? k = none ↔ k ∉ t.keys := lookup_eq_none

theorem mem_keys_iff {t : Table α β} {k : α} : k ∈ t.keys ↔ ∃ v, t.find? k = some v := by
  rw [← not_iff_not, ← find?_eq_none, Option.eq_none_iff_forall_ne_some]
  simp

theorem mem_keys_iff_map {γ : Type} {t : Table α β} {k : α} (f : β → γ) :
    k ∈ t.keys ↔ ∃ v, (t.find? k).map f = some v := by
  rw [mem_keys_iff]
  cases t.find? k <;> simp

theorem lookup_eq_some {rows : List (α × β)} (nodup : (rows.map Prod.fst).Nodup) {k : α} {v : β} :
    rows.lookup k = some v ↔ (k, v) ∈ rows := by
  induction rows with
  | nil => simp
  | cons row rest ih =>
    obtain ⟨k', v'⟩ := row
    simp only [List.map_cons, List.nodup_cons] at nodup
    by_cases same : k = k'
    · subst same
      have absent : (k, v) ∉ rest := fun member => nodup.1 (List.mem_map_of_mem (f := Prod.fst) member)
      simp [absent, eq_comm]
    · simp [List.lookup_cons, same, beq_eq_false_iff_ne.mpr same, ih nodup.2]

theorem find?_eq_some {t : Table α β} {k : α} {v : β} : t.find? k = some v ↔ (k, v) ∈ t.rows :=
  lookup_eq_some t.nodup

@[simp] theorem find?_empty (k : α) : (empty : Table α β).find? k = none := rfl

@[simp] theorem find?_modify (f : α → β → β) (k : α) : (t.modify f).find? k = (t.find? k).map (f k) := by
  obtain ⟨rows, nodup⟩ := t
  simp only [find?, modify]
  clear nodup
  induction rows with
  | nil => rfl
  | cons row rest ih =>
    obtain ⟨k', v'⟩ := row
    by_cases same : k = k'
    · simp [same]
    · simp [List.lookup_cons, beq_eq_false_iff_ne.mpr same, ih]

theorem find?_of_delete {t : Table α β} {p : α → β → Bool} {k : α} {v : β}
    (found : (t.delete p).find? k = some v) : t.find? k = some v := by
  rw [find?_eq_some] at found ⊢
  exact List.mem_of_mem_filter found

theorem find?_delete (p : α → β → Bool) (k : α) : (t.delete p).find? k = (t.find? k).filter fun v => !p k v := by
  apply Option.ext
  intro v
  simp [Option.filter_eq_some_iff, find?_eq_some, delete]

theorem find?_delete_key (k other : α) :
    (t.delete fun name _ => name = k).find? other = if other = k then none else t.find? other := by
  by_cases same : other = k
  · rw [if_pos same, find?_eq_none]
    simp [keys, delete, same]
  · rw [if_neg same]
    apply Option.ext
    intro v
    rw [find?_eq_some, find?_eq_some]
    simp [delete, same]

theorem keys_delete_key (k : α) :
    (t.delete fun name _ => name = k).keys = t.keys.filter fun name => !decide (name = k) := by
  simp [keys, delete, List.filter_map, Function.comp_def]

theorem keys_perm_delete_key {t : Table α β} {k : α} {v : β} (found : t.find? k = some v) :
    t.keys.Perm (k :: (t.delete fun name _ => name = k).keys) := by
  have nodup : t.keys.Nodup := t.nodup
  rw [keys_delete_key]
  refine (List.perm_cons_erase (mem_keys_iff.mpr ⟨v, found⟩)).trans ?_
  rw [nodup.erase_eq_filter]
  exact .of_eq (by congr)

theorem keys_upsert_of_mem {t : Table α β} {k : α} (row : β) (merge : β → β) (present : k ∈ t.keys) :
    (t.upsert k row merge).keys = t.keys := by
  rw [upsert, dif_pos present, keys_modify]

theorem keys_upsert_of_not_mem {t : Table α β} {k : α} (row : β) (merge : β → β) (absent : k ∉ t.keys) :
    (t.upsert k row merge).keys = t.keys ++ [k] := by
  rw [upsert, dif_neg absent, keys, List.map_append]
  rfl

theorem length_keys_upsert (k : α) (row : β) (merge : β → β) :
    (t.upsert k row merge).keys.length = if k ∈ t.keys then t.keys.length else t.keys.length + 1 := by
  unfold upsert
  split
  · simp
  · simp [keys]

theorem lookup_append (first second : List (α × β)) (k : α) :
    (first ++ second).lookup k = (first.lookup k).or (second.lookup k) := by
  induction first with
  | nil => simp
  | cons row rest ih =>
    obtain ⟨k', v'⟩ := row
    by_cases same : k = k'
    · simp [same]
    · simp [List.lookup_cons, beq_eq_false_iff_ne.mpr same, ih]

theorem find?_upsert (k : α) (row : β) (merge : β → β) (other : α) : (t.upsert k row merge).find? other =
      if other = k then some ((t.find? k).elim row merge) else t.find? other := by
  unfold upsert
  split
  · rename_i present
    obtain ⟨old, found⟩ := mem_keys_iff.mp present
    rw [find?_modify]
    by_cases same : other = k
    · simp [same, found]
    · simp [same]
  · rename_i absent
    have missing := find?_eq_none.mpr absent
    simp only [find?] at missing ⊢
    rw [lookup_append]
    by_cases same : other = k
    · simp [same, missing]
    · simp [same, List.lookup_cons, beq_eq_false_iff_ne.mpr same]

@[simp] theorem find?_upsert_self (k : α) (row : β) (merge : β → β) :
    (t.upsert k row merge).find? k = some ((t.find? k).elim row merge) := by
  simp [find?_upsert]

theorem find?_upsert_replace (k : α) (row : β) : (t.upsert k row fun _ => row).find? k = some row := by
  rw [find?_upsert_self]
  cases t.find? k <;> rfl

theorem find?_upsert_of_ne {k other : α} (row : β) (merge : β → β) (ne : other ≠ k) :
    (t.upsert k row merge).find? other = t.find? other := by
  simp [find?_upsert, ne]

theorem find?_insertIgnore (k : α) (row : β) (other : α) : (t.insertIgnore k row).find? other =
      if other = k then some ((t.find? k).getD row) else t.find? other := by
  rw [insertIgnore, find?_upsert]
  cases t.find? k <;> rfl

theorem insertIgnore_of_mem {t : Table α β} {k : α} (row : β) (present : k ∈ t.keys) :
    t.insertIgnore k row = t := by
  rw [insertIgnore, upsert, dif_pos present]
  exact modify_eq_self (by simp)

theorem mem_keys_upsert {t : Table α β} {k other : α} {row : β} {merge : β → β} :
    other ∈ (t.upsert k row merge).keys ↔ other = k ∨ other ∈ t.keys := by
  rw [mem_keys_iff, find?_upsert, mem_keys_iff]
  by_cases same : other = k <;> simp [same]

theorem mem_keys_insertIgnore {t : Table α β} {k other : α} {row : β} :
    other ∈ (t.insertIgnore k row).keys ↔ other = k ∨ other ∈ t.keys := mem_keys_upsert

theorem sum_modify_key {rows : List (α × β)} (nodup : (rows.map Prod.fst).Nodup) {k : α} {old : β}
    (member : (k, old) ∈ rows) (merge : β → β) (weight : α → β → Nat) :
    (rows.map fun row => weight row.1 (if row.1 = k then merge row.2 else row.2)).sum + weight k old =
      (rows.map fun row => weight row.1 row.2).sum + weight k (merge old) := by
  induction rows with
  | nil => simp at member
  | cons row rest ih =>
    obtain ⟨k', v'⟩ := row
    simp only [List.map_cons, List.nodup_cons] at nodup
    simp only [List.map_cons, List.sum_cons]
    rcases List.mem_cons.mp member with same | later
    · -- the changed row is the head, and the key does not occur again
      obtain ⟨rfl, rfl⟩ := Prod.mk.inj same
      have tail : rest.map (fun row => weight row.1 (if row.1 = k then merge row.2 else row.2)) =
          rest.map fun row => weight row.1 row.2 := by
        refine List.map_congr_left fun row found => ?_
        have other : row.1 ≠ k := fun same => nodup.1 (same ▸ List.mem_map_of_mem found)
        simp [other]
      rw [tail, if_pos rfl]
      omega
    · have other : k' ≠ k := fun same => nodup.1 (same ▸ List.mem_map_of_mem later)
      have := ih nodup.2 later
      simp only [other, if_false]
      omega

theorem total_upsert (k : α) (row : β) (merge : β → β) (weight : α → β → Nat) :
    (t.upsert k row merge).total weight + (t.find? k).elim 0 (weight k) =
      t.total weight + weight k ((t.find? k).elim row merge) := by
  unfold upsert
  split
  · rename_i present
    obtain ⟨old, found⟩ := mem_keys_iff.mp present
    have changed := sum_modify_key t.nodup (find?_eq_some.mp found) merge weight
    simpa [total, modify, found, Function.comp_def] using changed
  · rename_i absent
    simp [total, find?_eq_none.mpr absent]

section Collect

variable {γ : Type}

def mapValues (f : β → γ) (t : Table α β) : Table α γ where
  rows := t.rows.map fun row => (row.1, f row.2)
  nodup := by simpa [List.map_map, Function.comp_def] using t.nodup

/-- The rows of a list; a later row replaces an earlier one of the same key. -/
def collect (entries : List (α × β)) : Table α β :=
  entries.foldl (fun t row => t.upsert row.1 row.2 fun _ => row.2) empty

theorem collect_concat (entries : List (α × β)) (row : α × β) :
    collect (entries ++ [row]) = (collect entries).upsert row.1 row.2 fun _ => row.2 := by
  simp [collect]

omit [DecidableEq α] in
theorem keys_mapValues (f : β → γ) (t : Table α β) : (t.mapValues f).keys = t.keys := by
  simp [keys, mapValues]

theorem find?_mapValues (f : β → γ) (t : Table α β) (k : α) : (t.mapValues f).find? k = (t.find? k).map f := by
  simp only [find?, mapValues]
  induction t.rows with
  | nil => rfl
  | cons row rows ih =>
    obtain ⟨key, v⟩ := row
    by_cases same : k = key
    · subst same
      simp
    · have differs : (k == key) = false := beq_false_of_ne same
      simpa only [List.map_cons, List.lookup_cons, differs] using ih

theorem upsert_mapValues (f : β → γ) (t : Table α β) (k : α) (row : β) :
    (t.mapValues f).upsert k (f row) (fun _ => f row) = (t.upsert k row fun _ => row).mapValues f := by
  by_cases present : k ∈ t.keys
  · rw [upsert, dif_pos (by rw [keys_mapValues]; exact present), upsert, dif_pos present]
    apply ext_rows
    simp only [modify, mapValues, List.map_map]
    refine List.map_congr_left fun pair _ => ?_
    by_cases same : pair.1 = k <;> simp [same]
  · rw [upsert, dif_neg (by rw [keys_mapValues]; exact present), upsert, dif_neg present]
    apply ext_rows
    simp [mapValues]

theorem collect_map (f : β → γ) (entries : List (α × β)) :
    collect (entries.map fun row => (row.1, f row.2)) = (collect entries).mapValues f := by
  induction entries using List.reverseRecOn with
  | nil => rfl
  | append_singleton entries row ih =>
    rw [List.map_append, List.map_singleton, collect_concat, collect_concat, ih]
    exact upsert_mapValues f _ _ _

theorem mem_collect {entries : List (α × β)} {row : α × β} (member : row ∈ (collect entries).rows) :
    row ∈ entries := by
  induction entries using List.reverseRecOn with
  | nil => cases member
  | append_singleton entries last ih =>
    rw [collect_concat] at member
    have found := find?_eq_some.mpr member
    rw [find?_upsert] at found
    split at found
    · rename_i same
      have value : last.2 = row.2 := by
        cases before : (collect entries).find? last.1 <;> simpa [before] using found
      exact List.mem_append_right _ (List.mem_singleton.mpr (Prod.ext same value.symm))
    · exact List.mem_append_left _ (ih (find?_eq_some.mp found))

theorem mem_keys_collect {entries : List (α × β)} {k : α} :
    k ∈ (collect entries).keys ↔ k ∈ entries.map Prod.fst := by
  induction entries using List.reverseRecOn with
  | nil => exact Iff.rfl
  | append_singleton entries last ih =>
    rw [collect_concat, mem_keys_upsert, ih]
    simp [or_comm]

end Collect

/-- The same rows, in whatever order they were inserted. -/
def Alike (first second : Table α β) : Prop := ∀ k, first.find? k = second.find? k

theorem Alike.refl : Alike t t := fun _ => rfl

theorem Alike.symm {first second : Table α β} (alike : Alike first second) : Alike second first :=
  fun k => (alike k).symm

theorem Alike.trans {first second third : Table α β} (one : Alike first second) (two : Alike second third) :
    Alike first third := fun k => (one k).trans (two k)

theorem Alike.upsert {first second : Table α β} (alike : Alike first second) (k : α) (row : β) (merge : β → β) :
    Alike (first.upsert k row merge) (second.upsert k row merge) := by
  intro other
  rw [find?_upsert, find?_upsert, alike k, alike other]

theorem Alike.insertIgnore {first second : Table α β} (alike : Alike first second) (k : α) (row : β) :
    Alike (first.insertIgnore k row) (second.insertIgnore k row) := alike.upsert k row id

theorem alike_upsert_comm {k k' : α} (ne : k ≠ k') (row row' : β) (merge merge' : β → β) :
    Alike ((t.upsert k row merge).upsert k' row' merge') ((t.upsert k' row' merge').upsert k row merge) := by
  intro other
  by_cases first : other = k
  · subst first
    rw [find?_upsert_of_ne _ _ _ ne, find?_upsert_self, find?_upsert_self, find?_upsert_of_ne _ _ _ ne]
  · by_cases second : other = k'
    · subst second
      rw [find?_upsert_of_ne _ _ _ first, find?_upsert_self, find?_upsert_self, find?_upsert_of_ne _ _ _ first]
    · simp [find?_upsert, first, second]

/-- An upsert commutes with a rewrite that leaves a fresh row alone and commutes with the merge. -/
theorem upsert_modify_comm {k : α} {row : β} {merge : β → β} {f : α → β → β}
    (fresh : t.find? k = none → f k row = row) (stored : ∀ v, t.find? k = some v → merge (f k v) = f k (merge v)) :
    (t.modify f).upsert k row merge = (t.upsert k row merge).modify f := by
  by_cases present : k ∈ t.keys
  · rw [upsert, dif_pos (by simpa using present), upsert, dif_pos present, modify_modify, modify_modify]
    apply ext_rows
    refine List.map_congr_left fun pair member => ?_
    by_cases same : pair.1 = k
    · have found : t.find? k = some pair.2 := find?_eq_some.mpr (same ▸ member)
      simp [same, stored pair.2 found]
    · simp [same]
  · rw [upsert, dif_neg (by simpa using present), upsert, dif_neg present]
    apply ext_rows
    simp [modify, fresh (find?_eq_none.mpr present)]

theorem upsert_eq_self {t : Table α β} {k : α} {row v : β} {merge : β → β} (found : t.find? k = some v)
    (same : merge v = v) : t.upsert k row merge = t := by
  rw [upsert, dif_pos (mem_keys_iff.mpr ⟨v, found⟩)]
  refine modify_eq_self fun pair member => ?_
  by_cases key : pair.1 = k
  · have : t.find? k = some pair.2 := find?_eq_some.mpr (key ▸ member)
    obtain rfl : v = pair.2 := Option.some.inj (found.symm.trans this)
    simp [key, same]
  · simp [key]

theorem filter_upsert_of_not {k : α} {row : β} {merge : β → β} {p : α × β → Bool}
    (fresh : t.find? k = none → p (k, row) = false)
    (stored : ∀ v, t.find? k = some v → p (k, v) = false ∧ p (k, merge v) = false) :
    (t.upsert k row merge).rows.filter p = t.rows.filter p := by
  unfold upsert
  split
  · rename_i present
    have keep : ∀ r ∈ t.rows, r.1 ≠ k ∨ (p r = false ∧ p (r.1, merge r.2) = false) := by
      intro r member
      by_cases same : r.1 = k
      · obtain ⟨old, new⟩ := stored r.2 (find?_eq_some.mpr (same ▸ member))
        exact .inr ⟨by rw [← same] at old; exact old, by rw [same]; exact new⟩
      · exact .inl same
    simp only [modify]
    generalize t.rows = rows at keep
    induction rows with
    | nil => rfl
    | cons r rest ih =>
      have tail := ih fun r' member => keep r' (List.mem_cons_of_mem _ member)
      simp only [List.map_cons, List.filter_cons, tail]
      rcases keep r (List.mem_cons_self ..) with ne | ⟨old, new⟩
      · simp [ne]
      · by_cases same : r.1 = k
        · simp only [same, if_true, old] at new ⊢
          simp [new]
        · simp [same]
  · rename_i absent
    simp [List.filter_append, fresh (find?_eq_none.mpr absent)]

end Table

end Soshal.Library
