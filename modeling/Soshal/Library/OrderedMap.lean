import Mathlib.Data.List.Sort
import Mathlib.Order.Defs.LinearOrder

/-! Maps kept in the order of their keys, and the search around them.

The entries are strictly ordered as part of the type, so a map is determined by
its entries as a set. `around` finds the first entry at or after a key and starts
over at the least one when there is none; it is the entry that comes before every
other going up from the key.
-/

set_option autoImplicit false

namespace Soshal.Library

structure OrderedMap (α β : Type) [LinearOrder α] where
  entries : List (α × β)
  sorted : entries.Pairwise fun first second => first.1 < second.1

namespace OrderedMap

variable {α β : Type} [LinearOrder α]

instance : Membership (α × β) (OrderedMap α β) := ⟨fun m entry => entry ∈ m.entries⟩

variable {m : OrderedMap α β}

theorem mem_def {entry : α × β} : entry ∈ m ↔ entry ∈ m.entries := Iff.rfl

@[ext] theorem ext {first second : OrderedMap α β} (same : ∀ entry, entry ∈ first ↔ entry ∈ second) :
    first = second := by
  have irrefl : Std.Irrefl fun first second : α × β => first.1 < second.1 := ⟨fun entry => lt_irrefl entry.1⟩
  have antisymm : Std.Antisymm fun first second : α × β => first.1 < second.1 :=
    ⟨fun _ _ below above => absurd (lt_trans below above) (lt_irrefl _)⟩
  have entries := first.sorted.eq_of_mem_iff second.sorted same
  cases first
  cases second
  congr

theorem nodup_keys (m : OrderedMap α β) : (m.entries.map Prod.fst).Nodup := by
  rw [List.Nodup, List.pairwise_map]
  exact m.sorted.imp ne_of_lt

theorem eq_of_key {first second : α × β} (one : first ∈ m) (two : second ∈ m)
    (same : first.1 = second.1) : first = second := List.inj_on_of_nodup_map m.nodup_keys one two same

def empty : OrderedMap α β := ⟨[], List.Pairwise.nil⟩

@[simp] theorem not_mem_empty (entry : α × β) : entry ∉ (empty : OrderedMap α β) := List.not_mem_nil

def get? (m : OrderedMap α β) (key : α) : Option β := (m.entries.find? fun entry => decide (entry.1 = key)).map Prod.snd

def values (m : OrderedMap α β) : List β := m.entries.map Prod.snd

theorem get?_eq_some {key : α} {value : β} : m.get? key = some value ↔ (key, value) ∈ m := by
  constructor
  · intro found
    obtain ⟨entry, search, rfl⟩ := Option.map_eq_some_iff.mp found
    have same : entry.1 = key := by simpa using List.find?_some search
    subst same
    exact List.mem_of_find?_eq_some search
  · intro member
    cases search : m.entries.find? fun entry => decide (entry.1 = key) with
    | none =>
      have missing := List.find?_eq_none.mp search (key, value) member
      simp at missing
    | some entry =>
      have same : entry.1 = key := by simpa using List.find?_some search
      rw [get?, search, eq_of_key (List.mem_of_find?_eq_some search) member same]
      rfl

def insertEntry (key : α) (value : β) : List (α × β) → List (α × β)
  | [] => [(key, value)]
  | entry :: rest =>
    if key < entry.1 then (key, value) :: entry :: rest
    else if key = entry.1 then (key, value) :: rest
    else entry :: insertEntry key value rest

theorem mem_insertEntry {key : α} {value : β} {entries : List (α × β)}
    (sorted : entries.Pairwise fun first second => first.1 < second.1) {entry : α × β} :
    entry ∈ insertEntry key value entries ↔ entry = (key, value) ∨ (entry ∈ entries ∧ entry.1 ≠ key) := by
  induction entries with
  | nil => simp [insertEntry]
  | cons first rest ih =>
    obtain ⟨above, tail⟩ := List.pairwise_cons.mp sorted
    unfold insertEntry
    split
    case isTrue below =>
      have others : entry ∈ first :: rest → entry.1 ≠ key := by
        intro member
        rcases List.mem_cons.mp member with rfl | later
        · exact (ne_of_lt below).symm
        · exact (ne_of_lt (lt_trans below (above entry later))).symm
      rw [List.mem_cons]
      exact or_congr_right (iff_self_and.mpr others)
    case isFalse =>
      split
      case isTrue same =>
        have others : entry ∈ rest → entry.1 ≠ key := by
          intro later
          exact (ne_of_lt (same ▸ above entry later)).symm
        rw [List.mem_cons, List.mem_cons]
        constructor
        · rintro (rfl | later)
          · exact .inl rfl
          · exact .inr ⟨.inr later, others later⟩
        · rintro (rfl | ⟨rfl | later, other⟩)
          · exact .inl rfl
          · exact absurd same.symm other
          · exact .inr later
      case isFalse other =>
        rw [List.mem_cons, List.mem_cons, ih tail]
        constructor
        · rintro (rfl | new | ⟨later, ne⟩)
          · exact .inr ⟨.inl rfl, Ne.symm other⟩
          · exact .inl new
          · exact .inr ⟨.inr later, ne⟩
        · rintro (new | ⟨rfl | later, ne⟩)
          · exact .inr (.inl new)
          · exact .inl rfl
          · exact .inr (.inr ⟨later, ne⟩)

theorem sorted_insertEntry {key : α} {value : β} {entries : List (α × β)}
    (sorted : entries.Pairwise fun first second => first.1 < second.1) :
    (insertEntry key value entries).Pairwise fun first second => first.1 < second.1 := by
  induction entries with
  | nil => exact List.pairwise_singleton _ _
  | cons first rest ih =>
    obtain ⟨above, tail⟩ := List.pairwise_cons.mp sorted
    unfold insertEntry
    split
    case isTrue below =>
      refine List.pairwise_cons.mpr ⟨?_, sorted⟩
      intro entry member
      rcases List.mem_cons.mp member with rfl | later
      · exact below
      · exact lt_trans below (above entry later)
    case isFalse reached =>
      split
      case isTrue same => exact List.pairwise_cons.mpr ⟨fun entry later => same ▸ above entry later, tail⟩
      case isFalse other =>
        refine List.pairwise_cons.mpr ⟨?_, ih tail⟩
        intro entry member
        rcases (mem_insertEntry tail).mp member with rfl | ⟨later, _⟩
        · exact lt_of_le_of_ne (not_lt.mp reached) (Ne.symm other)
        · exact above entry later

theorem insertEntry_of_above {key : α} {value : β} {entries : List (α × β)} (above : ∀ entry ∈ entries, entry.1 < key) :
    insertEntry key value entries = entries ++ [(key, value)] := by
  induction entries with
  | nil => rfl
  | cons first rest ih =>
    have below := above first List.mem_cons_self
    rw [insertEntry, if_neg (not_lt_of_gt below), if_neg (ne_of_gt below),
      ih fun entry later => above entry (List.mem_cons_of_mem _ later)]
    rfl

def insert (m : OrderedMap α β) (key : α) (value : β) : OrderedMap α β :=
  ⟨insertEntry key value m.entries, sorted_insertEntry m.sorted⟩

theorem mem_insert {key : α} {value : β} {entry : α × β} :
    entry ∈ m.insert key value ↔ entry = (key, value) ∨ (entry ∈ m ∧ entry.1 ≠ key) := mem_insertEntry m.sorted

theorem insert_perm {key : α} (fresh : ∀ entry ∈ m, entry.1 ≠ key) (value : β) :
    (m.insert key value).entries.Perm ((key, value) :: m.entries) := by
  refine (List.perm_ext_iff_of_nodup (List.Nodup.of_map _ (m.insert key value).nodup_keys) ?_).mpr fun entry => ?_
  · exact List.nodup_cons.mpr ⟨fun inside => fresh _ inside rfl, List.Nodup.of_map _ m.nodup_keys⟩
  · rw [List.mem_cons]
    exact mem_insert.trans (or_congr_right (and_iff_left_of_imp (fresh entry)))

def retain (m : OrderedMap α β) (keep : α → β → Bool) : OrderedMap α β :=
  ⟨m.entries.filter fun entry => keep entry.1 entry.2, m.sorted.filter _⟩

theorem mem_retain {keep : α → β → Bool} {entry : α × β} :
    entry ∈ m.retain keep ↔ entry ∈ m ∧ keep entry.1 entry.2 = true := List.mem_filter

/-- The first entry at or after the key, or the least one of all. -/
def around (m : OrderedMap α β) (key : α) : Option (α × β) :=
  (m.entries.find? fun entry => decide (key ≤ entry.1)).or m.entries.head?

/-- Going up from `key` and over the top, `first` is met no later than `second`. -/
def NoLater (key first second : α) : Prop := (first < key → second < key) ∧ ((first < key ↔ second < key) → first ≤ second)

theorem NoLater.antisymm {key first second : α} (one : NoLater key first second) (two : NoLater key second first) :
    first = second := by
  have level : first < key ↔ second < key := ⟨one.1, two.1⟩
  exact le_antisymm (one.2 level) (two.2 level.symm)

theorem noLater_of_le {key first second : α} (reached : key ≤ first) (ordered : key ≤ second → first ≤ second) :
    NoLater key first second := by
  refine ⟨fun below => absurd reached (not_le.mpr below), ?_⟩
  intro level
  rcases lt_or_ge second key with below | above
  · exact absurd reached (not_le.mpr (level.mpr below))
  · exact ordered above

theorem noLater_of_around {key : α} {entry : α × β} (found : m.around key = some entry) :
    entry ∈ m ∧ ∀ other ∈ m, NoLater key entry.1 other.1 := by
  have sorted := m.sorted
  rcases Option.or_eq_some_iff.mp found with ahead | ⟨behind, least⟩
  · -- Before the entry the keys are below `key`, after it they are above the entry.
    obtain ⟨reached, before, after, split, skipped⟩ := List.find?_eq_some_iff_append.mp ahead
    refine ⟨List.mem_of_find?_eq_some ahead, ?_⟩
    intro other member
    apply noLater_of_le (of_decide_eq_true reached)
    intro above
    rw [mem_def, split] at member
    rw [split, List.pairwise_append, List.pairwise_cons] at sorted
    rcases List.mem_append.mp member with early | late
    · have below := skipped other early
      simp only [Bool.not_eq_true', decide_eq_false_iff_not] at below
      exact absurd above below
    · rcases List.mem_cons.mp late with rfl | later
      · exact le_refl _
      · exact le_of_lt (sorted.2.1.1 other later)
  · -- Nothing is at or above `key`, so the least entry is the next one.
    obtain ⟨rest, split⟩ := List.head?_eq_some_iff.mp least
    have wrapped : ∀ other ∈ m.entries, other.1 < key := by
      intro other member
      simpa using List.find?_eq_none.mp behind other member
    have first : entry ∈ m.entries := by simp [split]
    refine ⟨first, ?_⟩
    intro other member
    refine ⟨fun _ => wrapped other member, fun _ => ?_⟩
    rw [mem_def, split] at member
    rw [split, List.pairwise_cons] at sorted
    rcases List.mem_cons.mp member with rfl | later
    · exact le_refl _
    · exact le_of_lt (sorted.1 other later)

theorem around_isSome {entry : α × β} (member : entry ∈ m) (key : α) : ∃ found, m.around key = some found := by
  cases m with
  | mk entries sorted =>
    cases entries with
    | nil => cases member
    | cons first rest => exact Option.isSome_iff_exists.mp (by simp [around])

theorem around_eq_some {key : α} {entry : α × β} :
    m.around key = some entry ↔ entry ∈ m ∧ ∀ other ∈ m, NoLater key entry.1 other.1 := by
  constructor
  · exact noLater_of_around
  · rintro ⟨member, first⟩
    obtain ⟨found, search⟩ := around_isSome member key
    obtain ⟨member', first'⟩ := noLater_of_around search
    have same := (first found member').antisymm (first' entry member)
    rw [search, eq_of_key member' member same.symm]

theorem around_eq_none {key : α} : m.around key = none ↔ m = empty := by
  constructor
  · intro missing
    ext entry
    constructor
    · intro member
      obtain ⟨found, search⟩ := around_isSome member key
      rw [missing] at search
      cases search
    · intro member
      exact absurd member (not_mem_empty entry)
  · rintro rfl
    rfl

theorem around_retain {keep : α → β → Bool} {key : α} {entry : α × β}
    (found : m.around key = some entry) (kept : keep entry.1 entry.2 = true) :
    (m.retain keep).around key = some entry := by
  obtain ⟨member, first⟩ := noLater_of_around found
  exact around_eq_some.mpr ⟨mem_retain.mpr ⟨member, kept⟩, fun other rest => first other (mem_retain.mp rest).1⟩

theorem around_of_insert {key search : α} {value : β} {entry : α × β}
    (found : (m.insert key value).around search = some entry) (old : entry ≠ (key, value)) :
    m.around search = some entry := by
  obtain ⟨member, first⟩ := noLater_of_around found
  rcases mem_insert.mp member with new | ⟨before, _⟩
  · exact absurd new old
  · refine around_eq_some.mpr ⟨before, ?_⟩
    intro other present
    by_cases same : other.1 = key
    · exact same ▸ first (key, value) (mem_insert.mpr (.inl rfl))
    · exact first other (mem_insert.mpr (.inr ⟨present, same⟩))

end OrderedMap

end Soshal.Library
