import Soshal.Sync.ProllyTree

/-! The levels of a Prolly tree, and when there is a last one.

A row is cut into as many nodes as it has entries when every entry but the last is a
boundary, and into fewer otherwise. The entries of an upper row hold node hashes, so
whether the rows get shorter is up to the hash: the build ends with the first level of
a single node and goes on for as long as there is none.
-/

set_option autoImplicit false

namespace Soshal.Sync.Prolly

open Library Library.Text

def EachCut (row : List Entry) : Prop := ∀ e ∈ row.dropLast, isKvBoundary e = true

instance (row : List Entry) : Decidable (EachCut row) := inferInstanceAs (Decidable (∀ _ ∈ _, _))

/-- No entry but the last ends a node, and the row fits into one. -/
def Whole (row : List Entry) : Prop := row.length ≤ 100 ∧ ∀ e ∈ row.dropLast, isKvBoundary e = false

instance (row : List Entry) : Decidable (Whole row) := inferInstanceAs (Decidable (_ ∧ _))

def ProllyNode.entries (n : ProllyNode) : List Entry := n.keys.zip n.valuesOrChildHashes

def ProllyTree.level (tree : ProllyTree) (level : Nat) : List ProllyNode := tree.nodes.filter (·.level = level)

section Rows

variable (sha256 : List UInt8 → Vector UInt8 32)

/-- The row that a level is cut from, whether or not a build gets that far. -/
def rowAt (pairs : List Entry) : Nat → List Entry
  | 0 => pairs
  | level + 1 => (levelNodes sha256 level (rowAt pairs level)).map ProllyNode.above

end Rows

variable {sha256 : List UInt8 → Vector UInt8 32}

theorem splitNodes_cons (chunk : List Entry) (e : Entry) (rest : List Entry) :
    splitNodes chunk (e :: rest) =
      if isKvBoundary e || decide (chunk.length + 1 ≥ 100) then (chunk ++ [e]) :: splitNodes [] rest
      else splitNodes (chunk ++ [e]) rest := by
  rw [splitNodes]
  simp only [List.length_append, List.length_singleton]

theorem length_splitNodes_le (chunk row : List Entry) :
    (splitNodes chunk row).length ≤ row.length + if chunk.isEmpty then 0 else 1 := by
  induction row generalizing chunk with
  | nil =>
    unfold splitNodes
    split <;> simp_all
  | cons e rest ih =>
    rw [splitNodes_cons]
    split
    · have later := ih []
      simp only [List.isEmpty_nil, if_true, List.length_cons] at later ⊢
      omega
    · have later := ih (chunk ++ [e])
      have filled : (chunk ++ [e]).isEmpty = false := by simp
      rw [filled] at later
      simp only [List.length_cons, Bool.false_eq_true, if_false] at later ⊢
      omega

/-- A row keeps its length when each entry but the last is a boundary, and gets shorter otherwise. -/
theorem length_splitNodes_eq_iff (row : List Entry) : (splitNodes [] row).length = row.length ↔ EachCut row := by
  induction row with
  | nil => simp [splitNodes, EachCut]
  | cons e rest ih =>
    rw [splitNodes_cons]
    cases rest with
    | nil =>
      have one : ∀ node, splitNodes node [] = if node.isEmpty then [] else [node] := fun node => rfl
      simp only [one, EachCut, List.dropLast_singleton, List.not_mem_nil, false_implies, implies_true, iff_true]
      split <;> simp
    | cons second rest =>
      have short : ¬ ([] : List Entry).length + 1 ≥ 100 := by simp
      simp only [EachCut, List.dropLast_cons_cons, List.forall_mem_cons] at ih ⊢
      cases boundary : isKvBoundary e with
      | true => simp only [Bool.true_or, if_true, List.length_cons, ← ih, Nat.add_right_cancel_iff, true_and]
      | false =>
        have fewer := length_splitNodes_le ([] ++ [e]) rest
        -- The second entry goes into the node of the first.
        have joined : (splitNodes ([] ++ [e]) (second :: rest)).length ≤ rest.length + 1 := by
          rw [splitNodes_cons]
          split
          · have later := length_splitNodes_le [] rest
            simp only [List.isEmpty_nil, if_true, List.length_cons] at later ⊢
            omega
          · have later := length_splitNodes_le ([] ++ [e] ++ [second]) rest
            simpa using later
        simp only [Bool.false_or, short, decide_false, Bool.false_eq_true, if_false, false_and, iff_false,
          List.length_cons]
        omega

theorem splitNodes_eq_singleton_iff {chunk row : List Entry} (room : chunk.length < 100) :
    (splitNodes chunk row).length = 1 ↔
      chunk ++ row ≠ [] ∧ chunk.length + row.length ≤ 100 ∧ ∀ e ∈ row.dropLast, isKvBoundary e = false := by
  induction row generalizing chunk with
  | nil =>
    unfold splitNodes
    cases chunk with
    | nil => simp
    | cons e rest =>
      simp only [List.isEmpty_cons, Bool.false_eq_true, if_false, List.length_singleton, true_iff]
      exact ⟨by simp, Nat.le_of_lt room, by simp⟩
  | cons e rest ih =>
    rw [splitNodes_cons]
    split
    · rename_i closes
      simp only [List.length_cons, Nat.add_eq_right, List.length_eq_zero_iff]
      cases rest with
      | nil =>
        simp only [splitNodes, List.isEmpty_nil, if_true, true_iff]
        exact ⟨by simp, room, by simp⟩
      | cons second rest =>
        -- A node that closes early leaves entries for another.
        have cut : splitNodes [] (second :: rest) ≠ [] := by
          intro none_left
          have joined := flatten_splitNodes [] (second :: rest)
          simp [none_left] at joined
        simp only [cut, false_iff, List.dropLast_cons_cons, List.forall_mem_cons]
        rintro ⟨-, fits, whole, -⟩
        simp only [whole, Bool.false_or, decide_eq_true_eq, List.length_cons] at closes fits
        omega
    · rename_i stays
      simp only [Bool.or_eq_true, decide_eq_true_eq, not_or] at stays
      rw [ih (by simp only [List.length_append, List.length_singleton]; omega)]
      have whole : isKvBoundary e = false := by simpa using stays.1
      cases rest with
      | nil => simp
      | cons second rest =>
        have shifted : (chunk ++ [e]).length + (second :: rest).length =
            chunk.length + (e :: second :: rest).length := by
          simp only [List.length_append, List.length_cons, List.length_nil]
          omega
        simp only [List.append_assoc, List.singleton_append, shifted, List.dropLast_cons_cons, List.forall_mem_cons,
          whole, true_and]

theorem single_level_iff {level : Nat} {row : List Entry} : (levelNodes sha256 level row).length = 1 ↔ Whole row := by
  unfold levelNodes
  split
  · rename_i empty
    simp [Whole, List.isEmpty_iff.mp empty]
  · rename_i filled
    rw [List.length_map, splitNodes_eq_singleton_iff (by simp)]
    simp only [List.isEmpty_iff] at filled
    simp [Whole, filled]

theorem entries_levelNodes (level : Nat) (row : List Entry) :
    (levelNodes sha256 level row).flatMap ProllyNode.entries = row := by
  unfold levelNodes
  split
  · rename_i empty
    simp [List.isEmpty_iff.mp empty, ProllyNode.entries, mkNode]
  · have whole : ∀ chunk : List Entry, (mkNode sha256 level chunk).entries = chunk := by
      intro chunk
      simp [ProllyNode.entries, mkNode, List.zip_map', List.map_id']
    rw [List.flatMap_map]
    simp only [whole, List.flatMap_id', flatten_splitNodes, List.nil_append]

theorem filter_levelNodes (level here : Nat) (row : List Entry) :
    (levelNodes sha256 level row).filter (·.level = here) =
      if level = here then levelNodes sha256 level row else [] := by
  split
  · rename_i same
    exact List.filter_eq_self.mpr fun n member => by simpa [same] using (mem_levelNodes member).1
  · rename_i differ
    exact List.filter_eq_nil_iff.mpr fun n member => by simpa [(mem_levelNodes member).1] using differ

theorem levels_of_buildLevels {fuel level : Nat} {pairs : List Entry} {tree : ProllyTree}
    (built : buildLevels sha256 fuel level (rowAt sha256 pairs level) = some tree) :
    ∃ top, level ≤ top ∧ top < level + fuel ∧ Whole (rowAt sha256 pairs top) ∧ ∀ here, tree.level here =
      if level ≤ here ∧ here ≤ top then levelNodes sha256 here (rowAt sha256 pairs here) else [] := by
  replace built := built_of_buildLevels built
  generalize cut_from : rowAt sha256 pairs level = row at built
  induction built with
  | @ends fuel level row root alone =>
    subst cut_from
    refine ⟨level, Nat.le_refl _, by omega, single_level_iff.mp (by rw [alone]; rfl), ?_⟩
    intro here
    have cut := @filter_levelNodes sha256 level here (rowAt sha256 pairs level)
    rw [alone] at cut
    simp only [ProllyTree.level, cut, ← Nat.le_antisymm_iff]
    split
    · rename_i same
      rw [← same, alone]
    · rfl
  | @goesOn fuel level row upper many above ih =>
    subst cut_from
    obtain ⟨top, low, high, whole, levels⟩ := ih rfl
    refine ⟨top, by omega, by omega, whole, ?_⟩
    intro here
    have later := levels here
    simp only [ProllyTree.level] at later
    simp only [ProllyTree.level, List.filter_append, filter_levelNodes, later]
    by_cases same : level = here
    · subst same
      rw [if_pos rfl, if_neg (by omega), if_pos ⟨Nat.le_refl _, by omega⟩, List.append_nil]
    · rw [if_neg same, List.nil_append]
      by_cases inside : level ≤ here ∧ here ≤ top
      · rw [if_pos inside, if_pos ⟨by omega, inside.2⟩]
      · rw [if_neg inside, if_neg (by omega)]

theorem buildLevels_of_whole {fuel level top : Nat} {pairs : List Entry} (low : level ≤ top) (high : top < level + fuel)
    (whole : Whole (rowAt sha256 pairs top)) :
    ∃ tree, buildLevels sha256 fuel level (rowAt sha256 pairs level) = some tree := by
  induction fuel generalizing level with
  | zero => omega
  | succ fuel ih =>
    by_cases single : (levelNodes sha256 level (rowAt sha256 pairs level)).length = 1
    · obtain ⟨root, alone⟩ := List.length_eq_one_iff.mp single
      exact ⟨_, buildLevels_single alone⟩
    · have further : level ≠ top := by
        rintro rfl
        exact single (single_level_iff.mpr whole)
      -- This row is not whole, so the whole one is above and still within the fuel.
      obtain ⟨upper, above⟩ := @ih (level + 1) (by omega) (by omega)
      exact ⟨_, by rw [buildLevels_many single, Option.map_eq_some_iff]; exact ⟨upper, above, rfl⟩⟩

/-- Rows only get shorter, except that a row whose every entry but the last is a boundary has one as long above it. -/
theorem length_row_above {pairs : List Entry} {level : Nat} (filled : rowAt sha256 pairs level ≠ []) :
    (rowAt sha256 pairs (level + 1)).length ≤ (rowAt sha256 pairs level).length ∧
      ((rowAt sha256 pairs (level + 1)).length = (rowAt sha256 pairs level).length ↔
        EachCut (rowAt sha256 pairs level)) := by
  have nodes : (rowAt sha256 pairs (level + 1)).length = (splitNodes [] (rowAt sha256 pairs level)).length := by
    rw [rowAt, List.length_map, levelNodes, if_neg (by simpa using filled), List.length_map]
  rw [nodes]
  refine ⟨?_, length_splitNodes_eq_iff _⟩
  simpa using length_splitNodes_le [] (rowAt sha256 pairs level)

/-- A build ends exactly when one of the rows is whole, and what it yields indexes the pairs: the leaves hold them in
order, and each level above holds in order the first keys and hashes of the nodes below it. -/
theorem build_indexes (pairs : List Entry) :
    ((∃ tree, build sha256 pairs = some tree) ↔ ∃ top < 2 ^ 32, Whole (rowAt sha256 pairs top)) ∧
    ∀ tree, build sha256 pairs = some tree →
      (tree.level 0).flatMap ProllyNode.entries = pairs ∧
      ∀ level, tree.level (level + 1) ≠ [] →
        (tree.level (level + 1)).flatMap ProllyNode.entries = (tree.level level).map ProllyNode.above := by
  constructor
  · constructor
    · rintro ⟨tree, built⟩
      obtain ⟨top, -, high, whole, -⟩ := @levels_of_buildLevels sha256 _ 0 _ _ built
      exact ⟨top, by omega, whole⟩
    · rintro ⟨top, high, whole⟩
      exact buildLevels_of_whole (Nat.zero_le top) (by omega) whole
  · intro tree built
    obtain ⟨top, -, -, -, levels⟩ := @levels_of_buildLevels sha256 _ 0 _ _ built
    constructor
    · rw [levels 0, if_pos ⟨Nat.le_refl _, Nat.zero_le _⟩, entries_levelNodes, rowAt]
    · intro level present
      rw [levels (level + 1)] at present ⊢
      split at present
      · rename_i inside
        rw [if_pos inside, levels level, if_pos ⟨Nat.zero_le _, by omega⟩, entries_levelNodes, rowAt]
      · exact absurd rfl present

/-- The same digest for every text; an entry with it as its value is a boundary. -/
def constantDigest (_ : List UInt8) : Vector UInt8 32 := Nostr.beBytes 32 0x30000

def constantHex : String := hexEncode (constantDigest []).toList

/-- Three nodes, of which the last has two entries. -/
def cutRow : List Entry := [("a", constantHex), ("b", constantHex), ("c", "x"), ("d", "y")]

theorem length_row_above_constant :
    (rowAt constantDigest cutRow 1).length = 3 ∧ (rowAt constantDigest cutRow 1).length ≤ (rowAt constantDigest cutRow 0).length ∧
      ((rowAt constantDigest cutRow 1).length = (rowAt constantDigest cutRow 0).length ↔
        EachCut (rowAt constantDigest cutRow 0)) :=
  ⟨by decide +kernel, @length_row_above constantDigest cutRow 0 (by rw [rowAt]; exact List.cons_ne_nil _ _)⟩

theorem levelNodes_constant (level : Nat) :
    (levelNodes constantDigest level [("a", constantHex), ("b", constantHex)]).map ProllyNode.above =
      [("a", constantHex), ("b", constantHex)] := by
  have cut : splitNodes [] [("a", constantHex), ("b", constantHex)] = [[("a", constantHex)], [("b", constantHex)]] := by
    decide +kernel
  rw [levelNodes, cut]
  rfl

/-- Two entries stay two entries on every level. -/
theorem constant_digest_never_ends : build constantDigest [("a", constantHex), ("b", constantHex)] = none := by
  have rows : ∀ level, rowAt constantDigest [("a", constantHex), ("b", constantHex)] level =
      [("a", constantHex), ("b", constantHex)] := by
    intro level
    induction level with
    | zero => rfl
    | succ level ih => rw [rowAt, ih, levelNodes_constant]
  rw [Option.eq_none_iff_forall_not_mem]
  intro tree built
  obtain ⟨top, -, -, whole, -⟩ := @levels_of_buildLevels constantDigest _ 0 _ _ built
  rw [rows] at whole
  exact absurd whole (by decide +kernel)

end Soshal.Sync.Prolly
