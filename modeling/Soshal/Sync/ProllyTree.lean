import Soshal.Library.Text
import Soshal.Nostr.Event

/-! Prolly trees: Merkle trees over a list of key/value pairs with content-defined nodes.

Each level cuts its row of entries into nodes and hashes them; the next row pairs
each node's first key with its hash. A node is hashed as its level followed by all
its keys and all its values, with nothing in between.
-/

set_option autoImplicit false

namespace Soshal.Sync

open Library Library.Text

namespace Prolly

/-- A key with its value, or above the leaves the first key of a node with its hash. -/
abbrev Entry := String × String

def gearMask : UInt32 := 0x0FFF

def gear (hash : UInt32) (bytes : List UInt8) : UInt32 := bytes.foldl (fun h b => (h <<< 1) + b.toUInt32) hash

def isKvBoundary (e : Entry) : Bool := (gear (gear 0 (utf8 e.1 ++ utf8 ":")) (utf8 e.2)) &&& gearMask == 0

/-- Cuts a row after each boundary and after every hundredth entry; `chunk` is the node being filled. -/
def splitNodes : List Entry → List Entry → List (List Entry)
  | chunk, [] => if chunk.isEmpty then [] else [chunk]
  | chunk, e :: rest =>
    let chunk := chunk ++ [e]
    if isKvBoundary e || decide (chunk.length ≥ 100) then chunk :: splitNodes [] rest
    else splitNodes chunk rest

structure ProllyNode where
  level : Nat
  nodeHash : String
  keys : List String
  valuesOrChildHashes : List String
  deriving DecidableEq

structure ProllyTree where
  rootHash : String
  nodes : List ProllyNode
  deriving DecidableEq

def toBeBytes (level : Nat) : List UInt8 :=
  [UInt8.ofNat (level / 2 ^ 24), UInt8.ofNat (level / 2 ^ 16), UInt8.ofNat (level / 2 ^ 8), UInt8.ofNat level]

def nodeText (level : Nat) (keys children : List String) : List UInt8 :=
  toBeBytes level ++ keys.flatMap utf8 ++ children.flatMap utf8

def ProllyNode.text (n : ProllyNode) : List UInt8 := nodeText n.level n.keys n.valuesOrChildHashes

section Build

variable (sha256 : List UInt8 → Vector UInt8 32)

def computeNodeHash (level : Nat) (keys children : List String) : String :=
  hexEncode (sha256 (nodeText level keys children)).toList

def mkNode (level : Nat) (chunk : List Entry) : ProllyNode where
  level := level
  nodeHash := computeNodeHash sha256 level (chunk.map Prod.fst) (chunk.map Prod.snd)
  keys := chunk.map Prod.fst
  valuesOrChildHashes := chunk.map Prod.snd

/-- The nodes of a row; an empty list of pairs still has one node. -/
def levelNodes (level : Nat) (row : List Entry) : List ProllyNode :=
  if row.isEmpty then [mkNode sha256 level []] else (splitNodes [] row).map (mkNode sha256 level)

def ProllyNode.above (n : ProllyNode) : Entry := (n.keys.head?.getD n.nodeHash, n.nodeHash)

/-- Builds the levels from `level` on; `fuel` counts the levels left before the level number overflows, which
aborts. -/
def buildLevels : Nat → Nat → List Entry → Option ProllyTree
  | 0, _, _ => none
  | fuel + 1, level, row =>
    -- The tree is complete with the first level of a single node.
    match levelNodes sha256 level row with
    | [root] => some ⟨root.nodeHash, [root]⟩
    | nodes =>
      (buildLevels fuel (level + 1) (nodes.map ProllyNode.above)).map fun upper =>
        ⟨upper.rootHash, nodes ++ upper.nodes⟩

def build (pairs : List Entry) : Option ProllyTree := buildLevels sha256 (2 ^ 32) 0 pairs

/-- Level by level, as far as both trees go: rows that run together into the same node texts under the same first
keys, or into the same single node, are the same row. -/
def ToldApart : Nat → Nat → List Entry → List Entry → Prop
  | 0, _, _, _ => True
  | fuel + 1, level, row, row' =>
    let nodes := levelNodes sha256 level row
    let nodes' := levelNodes sha256 level row'
    (nodes.map ProllyNode.text = nodes'.map ProllyNode.text →
      (nodes.length = 1 ∨ nodes.map (·.keys.head?) = nodes'.map (·.keys.head?)) → row = row') ∧
    (nodes.length ≠ 1 → nodes'.length ≠ 1 →
      ToldApart fuel (level + 1) (nodes.map ProllyNode.above) (nodes'.map ProllyNode.above))

end Build

variable {sha256 : List UInt8 → Vector UInt8 32}

theorem toBeBytes_inj {first second : Nat} (small : first < 2 ^ 32) (small' : second < 2 ^ 32)
    (same : toBeBytes first = toBeBytes second) : first = second := by
  simp only [toBeBytes, List.cons.injEq, and_true, ← UInt8.toNat_inj, UInt8.toNat_ofNat'] at same
  omega

theorem level_of_text {first second : ProllyNode} (small : first.level < 2 ^ 32) (small' : second.level < 2 ^ 32)
    (same : first.text = second.text) : first.level = second.level := by
  apply toBeBytes_inj small small'
  simp only [ProllyNode.text, nodeText, List.append_assoc] at same
  exact (List.append_inj same (by simp [toBeBytes])).1

def ProllyNode.Sealed (sha256 : List UInt8 → Vector UInt8 32) (n : ProllyNode) : Prop :=
  n.nodeHash = hexEncode (sha256 n.text).toList

theorem mem_levelNodes {level : Nat} {row : List Entry} {n : ProllyNode} (member : n ∈ levelNodes sha256 level row) :
    n.level = level ∧ n.Sealed sha256 := by
  unfold levelNodes at member
  split at member
  · obtain rfl := List.mem_singleton.mp member
    exact ⟨rfl, rfl⟩
  · obtain ⟨chunk, -, rfl⟩ := List.mem_map.mp member
    exact ⟨rfl, rfl⟩

theorem splitNodes_ne_nil {chunk row : List Entry} {node : List Entry} (member : node ∈ splitNodes chunk row) :
    node ≠ [] := by
  induction row generalizing chunk with
  | nil =>
    unfold splitNodes at member
    split at member
    · simp at member
    · rename_i filled
      obtain rfl := List.mem_singleton.mp member
      simpa using filled
  | cons e rest ih =>
    unfold splitNodes at member
    simp only at member
    split at member
    · cases member with
      | head => simp
      | tail _ later => exact ih later
    · exact ih member

theorem head_of_many {level : Nat} {row : List Entry} (many : (levelNodes sha256 level row).length ≠ 1)
    {n : ProllyNode} (member : n ∈ levelNodes sha256 level row) : ∃ key, n.keys.head? = some key := by
  unfold levelNodes at many member
  split at member
  · rename_i empty
    simp [empty] at many
  · obtain ⟨chunk, inside, rfl⟩ := List.mem_map.mp member
    cases chunk with
    | nil => exact absurd rfl (splitNodes_ne_nil inside)
    | cons e rest => exact ⟨e.1, rfl⟩

variable {fuel level : Nat} {row : List Entry} {tree : ProllyTree}

theorem buildLevels_single {root : ProllyNode} (single : levelNodes sha256 level row = [root]) :
    buildLevels sha256 (fuel + 1) level row = some ⟨root.nodeHash, [root]⟩ := by
  simp [buildLevels, single]

theorem buildLevels_many (many : (levelNodes sha256 level row).length ≠ 1) : buildLevels sha256 (fuel + 1) level row =
      (buildLevels sha256 fuel (level + 1) ((levelNodes sha256 level row).map ProllyNode.above)).map fun upper =>
        ⟨upper.rootHash, levelNodes sha256 level row ++ upper.nodes⟩ := by
  rw [buildLevels]
  split
  · rename_i root single
    simp [single] at many
  · rfl

/-- How a build goes: level by level, up to the first that is a single node. -/
inductive Built (sha256 : List UInt8 → Vector UInt8 32) : Nat → Nat → List Entry → ProllyTree → Prop where
  | ends {fuel level : Nat} {row : List Entry} {root : ProllyNode} (alone : levelNodes sha256 level row = [root]) :
      Built sha256 (fuel + 1) level row ⟨root.nodeHash, [root]⟩
  | goesOn {fuel level : Nat} {row : List Entry} {upper : ProllyTree}
      (many : (levelNodes sha256 level row).length ≠ 1)
      (above : Built sha256 fuel (level + 1) ((levelNodes sha256 level row).map ProllyNode.above) upper) :
      Built sha256 (fuel + 1) level row ⟨upper.rootHash, levelNodes sha256 level row ++ upper.nodes⟩

theorem built_of_buildLevels (built : buildLevels sha256 fuel level row = some tree) : Built sha256 fuel level row tree := by
  induction fuel generalizing level row tree with
  | zero => simp [buildLevels] at built
  | succ fuel ih =>
    by_cases single : (levelNodes sha256 level row).length = 1
    · obtain ⟨root, alone⟩ := List.length_eq_one_iff.mp single
      rw [buildLevels_single alone] at built
      cases built
      exact .ends alone
    · rw [buildLevels_many single, Option.map_eq_some_iff] at built
      obtain ⟨upper, above, rfl⟩ := built
      exact .goesOn single (ih above)

/-- The root hash is that of a node of the tree, which lies on or above the level the build started from. -/
theorem root_of_buildLevels (built : buildLevels sha256 fuel level row = some tree) :
    ∃ root ∈ tree.nodes, tree.rootHash = root.nodeHash ∧ root.Sealed sha256 ∧ level ≤ root.level ∧
      root.level < level + fuel := by
  replace built := built_of_buildLevels built
  induction built with
  | @ends fuel level row root alone =>
    obtain ⟨at_level, hashed⟩ := mem_levelNodes (alone ▸ List.mem_singleton_self root)
    exact ⟨root, List.mem_singleton_self root, rfl, hashed, by omega, by omega⟩
  | goesOn many above ih =>
    obtain ⟨root, member, named, hashed, low, high⟩ := ih
    exact ⟨root, List.mem_append_right _ member, named, hashed, by omega, by omega⟩

theorem flatten_splitNodes (chunk row : List Entry) : (splitNodes chunk row).flatten = chunk ++ row := by
  induction row generalizing chunk with
  | nil =>
    unfold splitNodes
    split
    · rename_i empty
      simp [List.isEmpty_iff.mp empty]
    · simp
  | cons e rest ih =>
    unfold splitNodes
    simp only
    split
    · simp [ih]
    · simp [ih]

theorem length_splitNodes {chunk row node : List Entry} (room : chunk.length < 100)
    (member : node ∈ splitNodes chunk row) : node.length ≤ 100 := by
  induction row generalizing chunk with
  | nil =>
    unfold splitNodes at member
    split at member
    · simp at member
    · obtain rfl := List.mem_singleton.mp member
      omega
  | cons e rest ih =>
    unfold splitNodes at member
    simp only at member
    split at member
    · cases member with
      | head =>
        simp only [List.length_append, List.length_cons, List.length_nil]
        omega
      | tail _ later => exact ih (by simp) later
    · rename_i open_node
      apply ih _ member
      simp only [Bool.or_eq_true, decide_eq_true_eq, not_or] at open_node
      omega

theorem keys_levelNodes (level : Nat) (row : List Entry) :
    (levelNodes sha256 level row).flatMap ProllyNode.keys = row.map Prod.fst := by
  unfold levelNodes
  split
  · rename_i empty
    simp [List.isEmpty_iff.mp empty, mkNode]
  · have joined := congrArg (List.map Prod.fst) (flatten_splitNodes [] row)
    rw [List.map_flatten, List.nil_append] at joined
    rw [List.flatMap_map]
    exact joined

theorem mem_keys_buildLevels (built : buildLevels sha256 fuel level row = some tree) {key : String} :
    key ∈ tree.nodes.flatMap ProllyNode.keys ↔ key ∈ row.map Prod.fst := by
  replace built := built_of_buildLevels built
  induction built with
  | @ends fuel level row root alone => rw [← @keys_levelNodes sha256 level row, alone]
  | @goesOn fuel level row upper many above ih =>
    rw [List.flatMap_append, List.mem_append, keys_levelNodes]
    refine or_iff_left_of_imp fun upstairs => ?_
    have upstairs := ih.mp upstairs
    simp only [List.map_map, List.mem_map, Function.comp_apply] at upstairs
    obtain ⟨n, member, rfl⟩ := upstairs
    obtain ⟨first, head⟩ := head_of_many many member
    have inside : first ∈ (levelNodes sha256 level row).flatMap ProllyNode.keys :=
      List.mem_flatMap.mpr ⟨n, member, List.mem_of_mem_head? head⟩
    rw [keys_levelNodes] at inside
    simpa [ProllyNode.above, head] using inside

def ProllyTree.rootKeys (tree : ProllyTree) : List String := (tree.nodes.getLast?.map ProllyNode.keys).getD []

theorem root_last (built : buildLevels sha256 fuel level row = some tree) :
    ∃ lower root, tree.nodes = lower ++ [root] ∧ root.nodeHash = tree.rootHash ∧ root.keys.length ≤ 100 := by
  replace built := built_of_buildLevels built
  induction built with
  | @ends fuel level row root alone =>
    refine ⟨[], root, rfl, rfl, ?_⟩
    have member : root ∈ levelNodes sha256 level row := alone ▸ List.mem_singleton_self root
    unfold levelNodes at member
    split at member
    · obtain rfl := List.mem_singleton.mp member
      simp [mkNode]
    · obtain ⟨chunk, inside, rfl⟩ := List.mem_map.mp member
      simpa [mkNode] using length_splitNodes (by simp) inside
  | @goesOn fuel level row upper many above ih =>
    obtain ⟨lower, root, nodes, named, short⟩ := ih
    exact ⟨levelNodes sha256 level row ++ lower, root, by simp [nodes], named, short⟩

/-- SHA-256 takes different values on the texts in `texts`; this is all that is assumed of it. -/
abbrev CollisionFree (sha256 : List UInt8 → Vector UInt8 32) (texts : Set (List UInt8)) : Prop := Set.InjOn sha256 texts

section

variable {texts : Set (List UInt8)} (free : CollisionFree sha256 texts)
include free

theorem text_eq_of_hash {first second : ProllyNode} (first_in : first.text ∈ texts) (second_in : second.text ∈ texts)
    (first_sealed : first.Sealed sha256) (second_sealed : second.Sealed sha256)
    (same : first.nodeHash = second.nodeHash) : first.text = second.text := by
  rw [first_sealed, second_sealed] at same
  exact free first_in second_in (Vector.toList_inj.mp (hexEncode_inj same))

theorem above_inj {nodes nodes' : List ProllyNode}
    (nodes_in : ∀ n ∈ nodes, n.text ∈ texts ∧ n.Sealed sha256 ∧ ∃ key, n.keys.head? = some key)
    (nodes_in' : ∀ n ∈ nodes', n.text ∈ texts ∧ n.Sealed sha256 ∧ ∃ key, n.keys.head? = some key) :
    nodes.map ProllyNode.above = nodes'.map ProllyNode.above ↔
      nodes.map ProllyNode.text = nodes'.map ProllyNode.text ∧
        nodes.map (·.keys.head?) = nodes'.map (·.keys.head?) := by
  -- Node by node: the entry above is the first key and the hash, and the hash stands for the text.
  induction nodes generalizing nodes' with
  | nil => cases nodes' <;> simp
  | cons n rest ih =>
    cases nodes' with
    | nil => simp
    | cons n' rest' =>
      rw [List.forall_mem_cons] at nodes_in nodes_in'
      obtain ⟨⟨n_in, n_sealed, key, n_head⟩, rest_in⟩ := nodes_in
      obtain ⟨⟨n_in', n_sealed', key', n_head'⟩, rest_in'⟩ := nodes_in'
      have one : n.above = n'.above ↔ n.text = n'.text ∧ n.keys.head? = n'.keys.head? := by
        simp only [ProllyNode.above, n_head, n_head', Option.getD_some, Prod.mk.injEq, Option.some.injEq]
        constructor
        · rintro ⟨rfl, same⟩
          exact ⟨text_eq_of_hash free n_in n_in' n_sealed n_sealed' same, rfl⟩
        · rintro ⟨same, rfl⟩
          exact ⟨rfl, by rw [n_sealed, n_sealed', same]⟩
      simp only [List.map_cons, List.cons.injEq, one, ih rest_in rest_in']
      constructor
      · rintro ⟨⟨text, head⟩, texts, heads⟩
        exact ⟨⟨text, texts⟩, head, heads⟩
      · rintro ⟨⟨text, texts⟩, head, heads⟩
        exact ⟨⟨text, head⟩, texts, heads⟩

theorem nodeHash_ne_rootHash {root : ProllyNode} {upper : ProllyTree}
    (bounded : level + (fuel + 1) ≤ 2 ^ 32) (at_level : root.level = level) (root_in : root.text ∈ texts)
    (root_sealed : root.Sealed sha256) (built : buildLevels sha256 fuel (level + 1) row = some upper)
    (hashed : ∀ n ∈ upper.nodes, n.text ∈ texts) :
    root.nodeHash ≠ upper.rootHash := by
  intro same
  obtain ⟨top, member, named, top_sealed, low, high⟩ := root_of_buildLevels built
  have text := text_eq_of_hash free root_in (hashed top member) root_sealed top_sealed (same.trans named)
  have levels := level_of_text (by omega) (by omega) text
  omega

/-- A tree that ends on a level below another's root has another root hash, and its row other node texts. -/
theorem ends_below {row row' : List Entry} {tree tree' : ProllyTree}
    (bounded : level + (fuel + 1) ≤ 2 ^ 32) (single : (levelNodes sha256 level row).length = 1)
    (many : (levelNodes sha256 level row').length ≠ 1) (built : buildLevels sha256 (fuel + 1) level row = some tree)
    (built' : buildLevels sha256 (fuel + 1) level row' = some tree') (hashed : ∀ n ∈ tree.nodes, n.text ∈ texts)
    (hashed' : ∀ n ∈ tree'.nodes, n.text ∈ texts) :
    tree.rootHash ≠ tree'.rootHash ∧
      (levelNodes sha256 level row).map ProllyNode.text ≠ (levelNodes sha256 level row').map ProllyNode.text := by
  obtain ⟨root, alone⟩ := List.length_eq_one_iff.mp single
  obtain ⟨at_level, root_sealed⟩ := mem_levelNodes (alone ▸ List.mem_singleton_self root)
  rw [buildLevels_single alone] at built
  cases built
  rw [buildLevels_many many, Option.map_eq_some_iff] at built'
  obtain ⟨upper, above, rfl⟩ := built'
  have differ := nodeHash_ne_rootHash free bounded at_level (hashed root (List.mem_singleton_self _)) root_sealed
    above fun n member => hashed' n (List.mem_append_right _ member)
  refine ⟨differ, ?_⟩
  intro same
  have lengths := congrArg List.length same
  simp only [List.length_map] at lengths
  exact many (lengths.symm.trans single)

theorem root_tells_levels {row row' : List Entry} {tree tree' : ProllyTree}
    (bounded : level + fuel ≤ 2 ^ 32) (built : buildLevels sha256 fuel level row = some tree)
    (built' : buildLevels sha256 fuel level row' = some tree') (hashed : ∀ n ∈ tree.nodes, n.text ∈ texts)
    (hashed' : ∀ n ∈ tree'.nodes, n.text ∈ texts) :
    (tree.rootHash = tree'.rootHash → row = row') ↔ ToldApart sha256 fuel level row row' := by
  induction fuel generalizing level row row' tree tree' with
  | zero => simp [buildLevels] at built
  | succ fuel ih =>
    by_cases single : (levelNodes sha256 level row).length = 1 <;>
      by_cases single' : (levelNodes sha256 level row').length = 1
    · -- Both trees end here: the roots agree exactly when their texts do.
      obtain ⟨root, alone⟩ := List.length_eq_one_iff.mp single
      obtain ⟨root', alone'⟩ := List.length_eq_one_iff.mp single'
      rw [buildLevels_single alone] at built
      rw [buildLevels_single alone'] at built'
      cases built
      cases built'
      have root_sealed := (mem_levelNodes (alone ▸ List.mem_singleton_self root)).2
      have root_sealed' := (mem_levelNodes (alone' ▸ List.mem_singleton_self root')).2
      have agree : root.nodeHash = root'.nodeHash ↔ root.text = root'.text := by
        constructor
        · exact text_eq_of_hash free (hashed root (List.mem_singleton_self _))
            (hashed' root' (List.mem_singleton_self _)) root_sealed root_sealed'
        · intro same
          rw [root_sealed, root_sealed', same]
      simp [ToldApart, alone, alone', agree]
    · -- Only the first ends here: its root lies on a lower level than the other's.
      obtain ⟨roots, texts⟩ := ends_below free bounded single single' built built' hashed hashed'
      exact iff_of_true (fun same => absurd same roots) ⟨fun same => absurd same texts, fun many => absurd single many⟩
    · obtain ⟨roots, texts⟩ := ends_below free bounded single' single built' built hashed' hashed
      exact iff_of_true (fun same => absurd same.symm roots)
        ⟨fun same => absurd same.symm texts, fun _ many => absurd single' many⟩
    · -- Neither ends here: the rows above are equal exactly when texts and first keys are.
      rw [buildLevels_many single, Option.map_eq_some_iff] at built
      rw [buildLevels_many single', Option.map_eq_some_iff] at built'
      obtain ⟨upper, above, rfl⟩ := built
      obtain ⟨upper', above', rfl⟩ := built'
      have higher := ih (by omega) above above' (fun n member => hashed n (List.mem_append_right _ member))
        (fun n member => hashed' n (List.mem_append_right _ member))
      have rows := above_inj free
        (fun n member => ⟨hashed n (List.mem_append_left _ member), (mem_levelNodes member).2, head_of_many single member⟩)
        (fun n member =>
          ⟨hashed' n (List.mem_append_left _ member), (mem_levelNodes member).2, head_of_many single' member⟩)
      constructor
      · intro tells
        refine ⟨?_, fun _ _ => higher.mp ?_⟩
        · intro texts_eq heads_eq
          apply tells
          have equal := rows.mpr ⟨texts_eq, heads_eq.resolve_left single⟩
          rw [equal, above'] at above
          rw [Option.some.inj above]
        · intro same
          rw [tells same]
      · rintro ⟨here, beyond⟩ same
        obtain ⟨texts_eq, heads_eq⟩ := rows.mp (higher.mpr (beyond single single') same)
        exact here texts_eq (.inr heads_eq)

end

/-- Equal roots mean equal lists, exactly when on no level two different rows run together into the same node
texts. -/
theorem root_tells_lists_apart_iff {pairs pairs' : List Entry} {tree tree' : ProllyTree}
    (built : build sha256 pairs = some tree) (built' : build sha256 pairs' = some tree')
    (free : CollisionFree sha256 {text | ∃ n ∈ tree.nodes ++ tree'.nodes, text = n.text}) :
    (tree.rootHash = tree'.rootHash → pairs = pairs') ↔ ToldApart sha256 (2 ^ 32) 0 pairs pairs' :=
  root_tells_levels free (by omega) built built' (fun n member => ⟨n, List.mem_append_left _ member, rfl⟩)
    (fun n member => ⟨n, List.mem_append_right _ member, rfl⟩)

/-- SHA-256 of the leaf texts "ab", "ac" and "abc" at level zero. -/
def leafDigest (text : List UInt8) : Vector UInt8 32 :=
  if text = [0, 0, 0, 0, 0x61, 0x62] then
    Nostr.beBytes 32 0xee17f6951b1890fbb32ed400de05d962dfb43f0f646359f2d3b9cf02d057e0fa
  else if text = [0, 0, 0, 0, 0x61, 0x63] then
    Nostr.beBytes 32 0xa356f19700d659f14148adbe396b0229035b9e2af10e08b3dd73027829577ba6
  else Nostr.beBytes 32 0x0a834ab04b1628b0b4ec20ca71e77f96a80431c1da87ebf07276c438b662206a

theorem build_single (e : Entry) :
    build sha256 [e] = some ⟨(mkNode sha256 0 [e]).nodeHash, [mkNode sha256 0 [e]]⟩ := by
  have alone : levelNodes sha256 0 [e] = [mkNode sha256 0 [e]] := by
    have cut : splitNodes [] [e] = [[e]] := by
      simp only [splitNodes, List.nil_append]
      split <;> rfl
    rw [levelNodes, cut]
    rfl
  exact buildLevels_single alone

/-- The last 32 bytes of a text. -/
def tailDigest (text : List UInt8) : Vector UInt8 32 :=
  Nostr.beBytes 32 (text.foldl (fun n byte => n * 256 + byte.toNat) 0)

/-- The first entry ends its node. -/
def twoLeaves (last : String) : List Entry := [("a", "EEEFEF"), ("b", last)]

def leavesOf (last : String) : List ProllyNode :=
  [mkNode tailDigest 0 [("a", "EEEFEF")], mkNode tailDigest 0 [("b", last)]]

def rootOf (last : String) : ProllyNode := mkNode tailDigest 1 ((leavesOf last).map ProllyNode.above)

theorem one_letter_values_told_apart :
    ((rootOf "x").nodeHash = (rootOf "y").nodeHash → twoLeaves "x" = twoLeaves "y") ↔
      ToldApart tailDigest (2 ^ 32) 0 (twoLeaves "x") (twoLeaves "y") := by
  have built : build tailDigest (twoLeaves "x") = some ⟨(rootOf "x").nodeHash, leavesOf "x" ++ [rootOf "x"]⟩ := by
    decide +kernel
  have built' : build tailDigest (twoLeaves "y") = some ⟨(rootOf "y").nodeHash, leavesOf "y" ++ [rootOf "y"]⟩ := by
    decide +kernel
  have free : ∀ n ∈ leavesOf "x" ++ [rootOf "x"] ++ (leavesOf "y" ++ [rootOf "y"]),
      ∀ n' ∈ leavesOf "x" ++ [rootOf "x"] ++ (leavesOf "y" ++ [rootOf "y"]),
        tailDigest n.text = tailDigest n'.text → n.text = n'.text := by
    decide +kernel
  apply root_tells_lists_apart_iff built built'
  rintro _ ⟨n, member, rfl⟩ _ ⟨n', member', rfl⟩
  exact free n member n' member'

/-- Where the key ends and the value begins is not hashed. -/
theorem shifted_pair_has_same_root :
    ∃ tree tree', build leafDigest [("a", "bc")] = some tree ∧ build leafDigest [("ab", "c")] = some tree' ∧
      CollisionFree leafDigest {text | ∃ n ∈ tree.nodes ++ tree'.nodes, text = n.text} ∧
      tree.rootHash = tree'.rootHash ∧ [("a", "bc")] ≠ [("ab", "c")] := by
  refine ⟨_, _, build_single _, build_single _, ?_, by decide, by decide⟩
  rintro _ ⟨n, member, rfl⟩ _ ⟨n', member', rfl⟩ -
  simp only [List.mem_append, List.mem_singleton] at member member'
  obtain rfl | rfl := member <;> obtain rfl | rfl := member' <;> decide

end Prolly

end Soshal.Sync
