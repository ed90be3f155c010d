import Soshal.Identity.WotPeers
import Soshal.Library.Fallible
import Soshal.Library.HopDistance
import Soshal.Library.Text

/-! The web of trust as a graph, and the search for the peers within a number of hops.

Each key is a node once, in lower case. The search goes through the nodes in the
order of a breadth-first search, to its end, and takes the distance of a node from a
table that it fills up to the limit. A node beyond the limit has no entry there and
counts as the root.
-/

set_option autoImplicit false

namespace Soshal.Identity

open Library
open Library.Text (toAsciiLowercase)

/-- A directed graph with a text for each node and a weight for each edge. -/
structure DiGraph (W : Type) where
  nodes : List String
  edges : List (Nat × Nat × W)

structure WotGraph (W : Type) where
  graph : DiGraph W
  nodeMap : Table String Nat

variable {W : Type}

namespace DiGraph

def addNode (g : DiGraph W) (weight : String) : DiGraph W × Nat :=
  ({ g with nodes := g.nodes ++ [weight] }, g.nodes.length)

def updateEdge (g : DiGraph W) (a b : Nat) (weight : W) : DiGraph W :=
  if g.edges.any fun edge => edge.1 == a && edge.2.1 == b then
    { g with edges := g.edges.map fun edge => if edge.1 = a ∧ edge.2.1 = b then (a, b, weight) else edge }
  else { g with edges := g.edges ++ [(a, b, weight)] }

def neighbors (g : DiGraph W) (a : Nat) : List Nat :=
  (g.edges.filter fun edge => edge.1 == a).reverse.map fun edge => edge.2.1

def Edge (g : DiGraph W) (a b : Nat) : Prop := ∃ weight, (a, b, weight) ∈ g.edges

end DiGraph

namespace WotGraph

def new : WotGraph W := ⟨⟨[], []⟩, .empty⟩

def getOrInsertNode (g : WotGraph W) (pubkey : String) : WotGraph W × Nat :=
  let pkLower := toAsciiLowercase pubkey
  match g.nodeMap.find? pkLower with
  | some idx => (g, idx)
  | none =>
    let (graph, idx) := g.graph.addNode pkLower
    (⟨graph, g.nodeMap.upsert pkLower idx fun _ => idx⟩, idx)

def connect (g : WotGraph W) (u : Nat) (target : String) (weight : W) : WotGraph W :=
  let (g, v) := g.getOrInsertNode target
  { g with graph := g.graph.updateEdge u v weight }

def addTrustEdge (g : WotGraph W) (source target : String) (weight : W) : WotGraph W :=
  let (g, u) := g.getOrInsertNode source
  g.connect u target weight

def fromUsers (one : W) (users : List WotUser) : WotGraph W :=
  users.foldl (fun g user =>
    let (g, u) := g.getOrInsertNode user.pubkey
    user.contacts.foldl (fun g contact => g.connect u contact one) g) .new

/-- A neighbor that has no distance yet is one hop further, and a result. -/
def reach (g : DiGraph W) (dist : Nat) (state : Table Nat Nat × Table String Nat) (neighbor : Nat) :
    Table Nat Nat × Table String Nat :=
  match state.1.find? neighbor with
  | some _ => state
  | none =>
    (state.1.upsert neighbor (dist + 1) fun _ => dist + 1,
      state.2.upsert (g.nodes.getD neighbor "") (dist + 1) fun _ => dist + 1)

def visitNode (g : DiGraph W) (maxHops : Nat) (state : Table Nat Nat × Table String Nat) (nx : Nat) :
    Table Nat Nat × Table String Nat :=
  let dist := (state.1.find? nx).getD 0
  if dist ≥ maxHops then state else (g.neighbors nx).foldl (reach g dist) state

/-- The order of the breadth-first search comes from outside. -/
def findKHopPeers (bfs : DiGraph W → Nat → List Nat) (g : WotGraph W) (root : String) (maxHops : Nat) :
    Table String Nat :=
  match g.nodeMap.find? (toAsciiLowercase root) with
  | none => .empty
  | some rootIdx =>
    ((bfs g.graph rootIdx).foldl (visitNode g.graph maxHops) (Table.empty.upsert rootIdx 0 id, .empty)).2

/-! ## The graph of the calls -/

/-- A graph that calls have built, and which key they have said to trust which. -/
inductive Built (one : W) : WotGraph W → (String → String → Prop) → Prop where
  | new : Built one .new fun _ _ => False
  | fromUsers (users : List WotUser) : Built one (fromUsers one users) fun a b =>
    ∃ user ∈ users, a = toAsciiLowercase user.pubkey ∧ ∃ contact ∈ user.contacts, b = toAsciiLowercase contact
  | addTrustEdge {g : WotGraph W} {told : String → String → Prop} (built : Built one g told) (source target : String)
      (weight : W) : Built one (g.addTrustEdge source target weight) fun a b =>
        told a b ∨ a = toAsciiLowercase source ∧ b = toAsciiLowercase target

/-- Nodes are keys, each once, and the edges are the trust told between keys. -/
structure WellFormed (g : WotGraph W) (told : String → String → Prop) : Prop where
  named : ∀ key i, g.nodeMap.find? key = some i ↔ g.graph.nodes[i]? = some key
  edges : ∀ u v, g.graph.Edge u v → ∃ a b, g.graph.nodes[u]? = some a ∧ g.graph.nodes[v]? = some b ∧ told a b
  told : ∀ a b, told a b → ∃ u v, g.graph.nodes[u]? = some a ∧ g.graph.nodes[v]? = some b ∧ g.graph.Edge u v

theorem edge_updateEdge (g : DiGraph W) (a b : Nat) (weight : W) {u v : Nat} :
    (g.updateEdge a b weight).Edge u v ↔ g.Edge u v ∨ u = a ∧ v = b := by
  unfold DiGraph.updateEdge DiGraph.Edge
  split
  · rename_i present
    simp only [List.any_eq_true, Bool.and_eq_true, beq_iff_eq, Prod.exists] at present
    obtain ⟨x, y, old, member, rfl, rfl⟩ := present
    simp only [List.mem_map, Prod.exists]
    constructor
    · rintro ⟨w, x', y', w', member', same⟩
      split at same
      · cases same
        exact .inr ⟨rfl, rfl⟩
      · cases same
        exact .inl ⟨w, member'⟩
    · rintro (⟨w, member'⟩ | ⟨rfl, rfl⟩)
      · by_cases equal : u = x ∧ v = y
        · exact ⟨weight, u, v, w, member', by rw [if_pos equal, equal.1, equal.2]⟩
        · exact ⟨w, u, v, w, member', if_neg equal⟩
      · exact ⟨weight, u, v, old, member, if_pos ⟨rfl, rfl⟩⟩
  · simp only [List.mem_append, List.mem_singleton, Prod.mk.injEq]
    constructor
    · rintro ⟨w, member | ⟨rfl, rfl, -⟩⟩
      · exact .inl ⟨w, member⟩
      · exact .inr ⟨rfl, rfl⟩
    · rintro (⟨w, member⟩ | ⟨rfl, rfl⟩)
      · exact ⟨w, .inl member⟩
      · exact ⟨weight, .inr ⟨rfl, rfl, rfl⟩⟩

theorem mem_neighbors {g : DiGraph W} {u v : Nat} : v ∈ g.neighbors u ↔ g.Edge u v := by
  simp only [DiGraph.neighbors, DiGraph.Edge, List.mem_map, List.mem_reverse, List.mem_filter, beq_iff_eq, Prod.exists]
  constructor
  · rintro ⟨_, _, w, ⟨member, rfl⟩, rfl⟩
    exact ⟨w, member⟩
  · rintro ⟨w, member⟩
    exact ⟨u, v, w, ⟨member, rfl⟩, rfl⟩

variable {g : WotGraph W} {told : String → String → Prop}

theorem WellFormed.new : WellFormed (W := W) .new fun _ _ => False where
  named key i := by simp [WotGraph.new]
  edges u v edge := by simp [WotGraph.new, DiGraph.Edge] at edge
  told a b told := told.elim

theorem getOrInsertNode_spec (formed : WellFormed g told) (pubkey : String) :
    WellFormed (g.getOrInsertNode pubkey).1 told ∧
      (g.getOrInsertNode pubkey).1.graph.nodes[(g.getOrInsertNode pubkey).2]? = some (toAsciiLowercase pubkey) ∧
      ∀ (i : Nat) (key : String), g.graph.nodes[i]? = some key →
        (g.getOrInsertNode pubkey).1.graph.nodes[i]? = some key := by
  cases found : g.nodeMap.find? (toAsciiLowercase pubkey) with
  | some idx =>
    simp only [getOrInsertNode, found]
    exact ⟨formed, (formed.named _ _).mp found, fun _ _ node => node⟩
  | none =>
    simp only [getOrInsertNode, found, DiGraph.addNode]
    have kept : ∀ (i : Nat) (key : String), g.graph.nodes[i]? = some key →
        (g.graph.nodes ++ [toAsciiLowercase pubkey])[i]? = some key := by
      intro i key node
      rw [List.getElem?_append_left (List.getElem?_eq_some_iff.mp node).1, node]
    refine ⟨⟨?_, ?_, ?_⟩, List.getElem?_concat_length, kept⟩
    · intro key i
      dsimp only
      by_cases mine : key = toAsciiLowercase pubkey
      · subst mine
        rw [Table.find?_upsert_replace, Option.some.injEq]
        constructor
        · rintro rfl
          exact List.getElem?_concat_length
        · intro node
          obtain ⟨less, -⟩ := List.getElem?_eq_some_iff.mp node
          rw [List.length_append, List.length_singleton] at less
          by_contra other
          have old : i < g.graph.nodes.length := Nat.lt_of_le_of_ne (Nat.lt_succ_iff.mp less) (Ne.symm other)
          rw [List.getElem?_append_left old, ← formed.named, found] at node
          cases node
      · rw [Table.find?_upsert_of_ne _ _ _ mine, formed.named]
        constructor
        · exact kept i key
        · intro node
          by_cases old : i < g.graph.nodes.length
          · rwa [List.getElem?_append_left old] at node
          · obtain ⟨less, node⟩ := List.getElem?_eq_some_iff.mp node
            rw [List.length_append, List.length_singleton] at less
            obtain rfl : i = g.graph.nodes.length := Nat.le_antisymm (Nat.lt_succ_iff.mp less) (Nat.not_lt.mp old)
            rw [List.getElem_concat_length rfl] at node
            exact absurd node.symm mine
    · intro u v edge
      obtain ⟨a, b, first, second, trust⟩ := formed.edges u v edge
      exact ⟨a, b, kept _ _ first, kept _ _ second, trust⟩
    · intro a b trust
      obtain ⟨u, v, first, second, edge⟩ := formed.told a b trust
      exact ⟨u, v, kept _ _ first, kept _ _ second, edge⟩

theorem connect_spec (formed : WellFormed g told) {u : Nat} {a : String} (node : g.graph.nodes[u]? = some a)
    (target : String) (weight : W) :
    WellFormed (g.connect u target weight) (fun x y => told x y ∨ x = a ∧ y = toAsciiLowercase target) ∧
      (g.connect u target weight).graph.nodes[u]? = some a := by
  obtain ⟨inserted, named, kept⟩ := getOrInsertNode_spec formed target
  have nodes : (g.connect u target weight).graph.nodes = (g.getOrInsertNode target).1.graph.nodes := by
    simp only [connect, DiGraph.updateEdge]
    split <;> rfl
  have edges : ∀ x y, (g.connect u target weight).graph.Edge x y ↔
      (g.getOrInsertNode target).1.graph.Edge x y ∨ x = u ∧ y = (g.getOrInsertNode target).2 :=
    fun x y => edge_updateEdge _ _ _ _
  refine ⟨⟨?_, ?_, ?_⟩, by rw [nodes, kept u a node]⟩
  · intro key i
    rw [nodes]
    exact inserted.named key i
  · intro x y edge
    rw [nodes]
    obtain old | ⟨rfl, rfl⟩ := (edges x y).mp edge
    · obtain ⟨b, c, first, second, trust⟩ := inserted.edges x y old
      exact ⟨b, c, first, second, .inl trust⟩
    · exact ⟨a, _, kept _ _ node, named, .inr ⟨rfl, rfl⟩⟩
  · intro b c trust
    rw [nodes]
    obtain old | ⟨rfl, rfl⟩ := trust
    · obtain ⟨x, y, first, second, edge⟩ := inserted.told b c old
      exact ⟨x, y, first, second, (edges x y).mpr (.inl edge)⟩
    · exact ⟨u, _, kept _ _ node, named, (edges _ _).mpr (.inr ⟨rfl, rfl⟩)⟩

theorem WellFormed.congr {other : String → String → Prop} (formed : WellFormed g told)
    (same : ∀ a b, told a b ↔ other a b) : WellFormed g other := by
  obtain rfl : told = other := funext fun a => funext fun b => propext (same a b)
  exact formed

theorem connect_foldl (contacts : List String) (formed : WellFormed g told) {u : Nat} {a : String}
    (node : g.graph.nodes[u]? = some a) (weight : W) :
    WellFormed (contacts.foldl (fun g contact => g.connect u contact weight) g) fun x y =>
      told x y ∨ x = a ∧ ∃ contact ∈ contacts, y = toAsciiLowercase contact := by
  induction contacts generalizing g told with
  | nil => exact formed.congr fun x y => by simp
  | cons contact rest ih =>
    obtain ⟨connected, node⟩ := connect_spec formed node contact weight
    refine (ih connected node).congr fun x y => ?_
    simp only [List.mem_cons, exists_eq_or_imp]
    tauto

theorem users_foldl (users : List WotUser) (formed : WellFormed g told) (one : W) :
    WellFormed (users.foldl (fun g user =>
        let (g, u) := g.getOrInsertNode user.pubkey
        user.contacts.foldl (fun g contact => g.connect u contact one) g) g) fun x y =>
      told x y ∨
        ∃ user ∈ users, x = toAsciiLowercase user.pubkey ∧ ∃ contact ∈ user.contacts, y = toAsciiLowercase contact := by
  induction users generalizing g told with
  | nil => exact formed.congr fun x y => by simp
  | cons user rest ih =>
    obtain ⟨inserted, named, -⟩ := getOrInsertNode_spec formed user.pubkey
    refine (ih (connect_foldl user.contacts inserted named one)).congr fun x y => ?_
    simp only [List.mem_cons, exists_eq_or_imp]
    exact or_assoc

theorem wellFormed_of_built {one : W} (built : Built one g told) : WellFormed g told := by
  induction built with
  | new => exact .new
  | fromUsers users => exact (users_foldl users .new one).congr fun a b => by simp
  | addTrustEdge _ source target weight ih =>
    obtain ⟨inserted, named, -⟩ := getOrInsertNode_spec ih source
    exact (connect_spec inserted named target weight).1

/-! ## What a visit does to the distances -/

section Search

variable {graph : DiGraph W} {rootIdx : Nat} {maxHops dist : Nat} {state : Table Nat Nat × Table String Nat}

theorem find?_reach (neighbor v : Nat) : (reach graph dist state neighbor).1.find? v =
    (state.1.find? v).or (if v = neighbor then some (dist + 1) else none) := by
  unfold reach
  cases known : state.1.find? neighbor with
  | some n =>
    by_cases same : v = neighbor
    · rw [same, known, Option.some_or]
    · rw [if_neg same, Option.or_none]
  | none =>
    by_cases same : v = neighbor
    · rw [if_pos same, same, known, Table.find?_upsert_replace, Option.none_or]
    · rw [if_neg same, Option.or_none, Table.find?_upsert_of_ne _ _ _ same]

theorem find?_reach_foldl (neighbors : List Nat) (v : Nat) :
    (neighbors.foldl (reach graph dist) state).1.find? v =
      (state.1.find? v).or (if v ∈ neighbors then some (dist + 1) else none) := by
  induction neighbors generalizing state with
  | nil => simp
  | cons neighbor rest ih =>
    rw [List.foldl_cons, ih, find?_reach, Option.or_assoc]
    by_cases first : v = neighbor
    · simp [first]
    · simp [first]

def assumed (state : Table Nat Nat × Table String Nat) (nx : Nat) : Nat := (state.1.find? nx).getD 0

open Classical in
theorem find?_visitNode (nx v : Nat) : (visitNode graph maxHops state nx).1.find? v =
    (state.1.find? v).or (if assumed state nx < maxHops ∧ graph.Edge nx v then some (assumed state nx + 1) else none) := by
  unfold visitNode
  dsimp only
  rw [← assumed]
  split
  · rename_i far
    rw [if_neg (fun both => absurd both.1 (Nat.not_lt.mpr far)), Option.or_none]
  · rename_i near
    rw [find?_reach_foldl]
    simp only [mem_neighbors, Nat.not_le.mp near, true_and]

theorem find?_visits {v : Nat} {n : Nat} (known : state.1.find? v = some n) (order : List Nat) :
    (order.foldl (visitNode graph maxHops) state).1.find? v = some n := by
  induction order generalizing state with
  | nil => exact known
  | cons nx rest ih => exact ih (by rw [find?_visitNode, known, Option.some_or])

/-! ## Up to the limit -/

variable (graph rootIdx maxHops) in
/-- After these nodes: the distances that are known are right, and those of all nodes behind the nearer ones are known. -/
structure Near (done : List Nat) (state : Table Nat Nat × Table String Nat) : Prop where
  start : state.1.find? rootIdx = some 0
  right : ∀ v n, state.1.find? v = some n → hops graph.Edge rootIdx v = n ∧ n ≤ maxHops
  met : ∀ u ∈ done, ∀ v, graph.Edge u v → hops graph.Edge rootIdx u < maxHops → ∃ n, state.1.find? v = some n

variable (graph rootIdx maxHops) in
/-- From the first nodes beyond the limit, no edge leads to another node beyond it. -/
def Closed : Prop := ∀ u v, graph.Edge u v → hops graph.Edge rootIdx u = maxHops + 1 → hops graph.Edge rootIdx v ≤ maxHops

theorem Near.known {done rest : List Nat} {u v : Nat} (near : Near graph rootIdx maxHops done state)
    (search : BreadthFirst graph.Edge rootIdx (done ++ u :: rest)) {n : Nat} (at_hops : hops graph.Edge rootIdx v = n)
    (within : n ≤ maxHops) (nearer : n ≤ hops graph.Edge rootIdx u) : state.1.find? v = some n := by
  cases n with
  | zero =>
    obtain rfl := hops_eq_zero_iff.mp at_hops
    exact near.start
  | succ n =>
    obtain ⟨p, before, edge⟩ := exists_nearer at_hops
    have earlier : p ∈ done := search.before <| by
      rw [before]
      exact lt_of_lt_of_le (by exact_mod_cast Nat.lt_succ_self n) nearer
    obtain ⟨m, known⟩ := near.met p earlier v edge (by rw [before]; exact_mod_cast within)
    have exact := (near.right v m known).1
    rw [at_hops, Nat.cast_inj] at exact
    rw [known, exact]

theorem hops_of_closed (closed : Closed graph rootIdx maxHops) {m : Nat} {v : Nat}
    (path : Path graph.Edge m rootIdx v) : hops graph.Edge rootIdx v ≤ maxHops + 1 := by
  generalize start : rootIdx = a at path
  induction path with
  | here a =>
    subst start
    rw [hops_self]
    exact bot_le
  | @further _ _ b _ _ edge ih =>
    subst start
    obtain near | beyond := le_iff_lt_or_eq.mp (ih rfl)
    · exact hops_le_succ (Order.le_of_lt_add_one near) edge
    · exact (closed _ _ edge beyond).trans le_self_add

/-- One more node is done: what was known is still known, and so are the node's own neighbors. -/
theorem Near.met_of_kept {done : List Nat} {u : Nat} {next : Table Nat Nat × Table String Nat}
    (near : Near graph rootIdx maxHops done state)
    (kept : ∀ v n, state.1.find? v = some n → next.1.find? v = some n)
    (last : ∀ v, graph.Edge u v → hops graph.Edge rootIdx u < maxHops → ∃ n, next.1.find? v = some n) :
    ∀ u' ∈ done ++ [u], ∀ v, graph.Edge u' v → hops graph.Edge rootIdx u' < maxHops → ∃ n, next.1.find? v = some n := by
  intro u' member v edge less
  rw [List.mem_append, List.mem_singleton] at member
  obtain earlier | rfl := member
  · obtain ⟨k, known⟩ := near.met u' earlier v edge less
    exact ⟨k, kept v k known⟩
  · exact last v edge less

section Visit

variable {done rest : List Nat} {u : Nat}

section

variable (near : Near graph rootIdx maxHops done state) (search : BreadthFirst graph.Edge rootIdx (done ++ u :: rest))
include near search

theorem Near.visit_within {n : Nat} (here : hops graph.Edge rootIdx u = n) (within : n ≤ maxHops) :
    Near graph rootIdx maxHops (done ++ [u]) (visitNode graph maxHops state u) := by
  have kept : ∀ v n, state.1.find? v = some n → (visitNode graph maxHops state u).1.find? v = some n :=
    fun v n known => find?_visits known [u]
  have known := near.known search here within here.ge
  have assumes : assumed state u = n := by rw [assumed, known, Option.getD_some]
  refine ⟨kept _ _ near.start, ?_, near.met_of_kept kept ?_⟩
  · intro v k found
    rw [find?_visitNode, assumes, Option.or_eq_some_iff] at found
    obtain old | ⟨missing, new⟩ := found
    · exact near.right v k old
    · split at new
      · rename_i reached
        cases new
        refine ⟨?_, reached.1⟩
        -- A neighbor that is nearer than this edge makes it would be known already.
        have most := hops_le_succ here.le reached.2
        obtain less | exact := lt_or_eq_of_le most
        · obtain ⟨k, exact⟩ := ENat.ne_top_iff_exists.mp less.ne_top
          rw [← exact] at less
          have nearer : k ≤ n := Nat.lt_succ_iff.mp (by exact_mod_cast less)
          rw [near.known search exact.symm (nearer.trans within) (by rw [here]; exact_mod_cast nearer)] at missing
          cases missing
        · exact exact
      · cases new
  · intro v edge less
    rw [here, Nat.cast_lt] at less
    rw [find?_visitNode, assumes, if_pos ⟨less, edge⟩]
    cases state.1.find? v <;> exact ⟨_, rfl⟩

theorem Near.visit_beyond (closed : Closed graph rootIdx maxHops) (beyond : hops graph.Edge rootIdx u = maxHops + 1) :
    Near graph rootIdx maxHops (done ++ [u]) (visitNode graph maxHops state u) := by
  have same : ∀ v, (visitNode graph maxHops state u).1.find? v = state.1.find? v := by
    intro v
    rw [find?_visitNode]
    split
    · rename_i reached
      have inside := closed u v reached.2 beyond
      obtain ⟨k, exact⟩ := ENat.ne_top_iff_exists.mp (ne_top_of_le_ne_top (ENat.natCast_ne_top maxHops) inside)
      rw [← exact, Nat.cast_le] at inside
      have nearer : (k : ℕ∞) ≤ hops graph.Edge rootIdx u := by
        rw [beyond]
        exact_mod_cast inside.trans (Nat.le_succ _)
      rw [near.known search exact.symm inside nearer, Option.some_or]
    · exact Option.or_none
  refine ⟨(same _).trans near.start, fun v k found => near.right v k ((same v).symm.trans found),
    near.met_of_kept ?_ ?_⟩
  · exact fun v k known => (same v).trans known
  · intro v _ less
    rw [beyond] at less
    exact absurd less (not_lt.mpr le_self_add)

-- The order brings a node when all nearer ones are done, and no node is further away than one step beyond the limit.
theorem Near.visit (closed : Closed graph rootIdx maxHops) :
    Near graph rootIdx maxHops (done ++ [u]) (visitNode graph maxHops state u) := by
  obtain ⟨m, path⟩ := hops_ne_top_iff.mp ((search.reached u).mp (by simp))
  obtain ⟨n, here⟩ := ENat.ne_top_iff_exists.mp (hops_ne_top_iff.mpr ⟨m, path⟩)
  by_cases within : n ≤ maxHops
  · exact near.visit_within search here.symm within
  · refine near.visit_beyond search closed (le_antisymm (hops_of_closed closed path) ?_)
    rw [← here]
    exact_mod_cast Nat.lt_of_not_le within

end

end Visit

theorem Near.visits {done rest : List Nat} (near : Near graph rootIdx maxHops done state)
    (search : BreadthFirst graph.Edge rootIdx (done ++ rest)) (closed : Closed graph rootIdx maxHops) :
    Near graph rootIdx maxHops (done ++ rest) (rest.foldl (visitNode graph maxHops) state) := by
  induction rest generalizing done state with
  | nil => simpa using near
  | cons u rest ih =>
    have visited := near.visit search closed
    rw [List.append_cons] at search ⊢
    exact ih visited search

/-- The distances of all nodes within the limit, and of no others. -/
def Right (graph : DiGraph W) (rootIdx : Nat) (maxHops : Nat) (distances : Table Nat Nat) : Prop :=
  ∀ v n, distances.find? v = some n ↔ hops graph.Edge rootIdx v = n ∧ n ≤ maxHops

variable (graph rootIdx maxHops) in
def distancesFrom (order : List Nat) : Table Nat Nat × Table String Nat :=
  order.foldl (visitNode graph maxHops) (Table.empty.upsert rootIdx 0 id, .empty)

theorem near_start : Near graph rootIdx maxHops [] (Table.empty.upsert rootIdx 0 id, .empty) := by
  refine ⟨by simp, ?_, fun u member => nomatch member⟩
  intro v n found
  rw [Table.find?_upsert, Table.find?_empty] at found
  split at found
  · rename_i same
    cases found
    exact ⟨by rw [same, hops_self]; rfl, Nat.zero_le _⟩
  · cases found

theorem right_of_closed {order : List Nat} (search : BreadthFirst graph.Edge rootIdx order)
    (closed : Closed graph rootIdx maxHops) :
    Right graph rootIdx maxHops (distancesFrom graph rootIdx maxHops order).1 := by
  have near : Near graph rootIdx maxHops order (distancesFrom graph rootIdx maxHops order) :=
    @Near.visits W graph rootIdx maxHops _ [] order near_start search closed
  intro v n
  refine ⟨near.right v n, ?_⟩
  rintro ⟨exact, within⟩
  cases n with
  | zero =>
    obtain rfl := hops_eq_zero_iff.mp exact
    exact near.start
  | succ n =>
    obtain ⟨p, before, edge⟩ := exists_nearer exact
    have member := (search.reached p).mpr (by rw [before]; exact ENat.natCast_ne_top n)
    obtain ⟨k, known⟩ := near.met p member v edge (by rw [before]; exact_mod_cast within)
    have same := (near.right v k known).1
    rw [exact, Nat.cast_inj] at same
    rw [known, same]

theorem closed_of_right {order : List Nat} (search : BreadthFirst graph.Edge rootIdx order) (positive : 0 < maxHops)
    (right : Right graph rootIdx maxHops (distancesFrom graph rootIdx maxHops order).1) :
    Closed graph rootIdx maxHops := by
  intro u v edge beyond
  have member : u ∈ order := (search.reached u).mpr (by rw [beyond]; exact ENat.natCast_ne_top (maxHops + 1))
  obtain ⟨done, rest, rfl⟩ := List.append_of_mem member
  rw [distancesFrom, List.foldl_append, List.foldl_cons] at right
  generalize done.foldl (visitNode graph maxHops) (Table.empty.upsert rootIdx 0 id, .empty) = state at right
  have unknown : state.1.find? u = none := by
    cases known : state.1.find? u with
    | none => rfl
    | some n =>
      obtain ⟨exact, within⟩ := (right u n).mp (find?_visits (find?_visits known [u]) rest)
      rw [beyond] at exact
      have more : n = maxHops + 1 := by exact_mod_cast exact.symm
      omega
  have reached : ∃ n, (visitNode graph maxHops state u).1.find? v = some n := by
    rw [find?_visitNode, assumed, unknown, Option.getD_none, if_pos ⟨positive, edge⟩]
    cases state.1.find? v <;> exact ⟨_, rfl⟩
  obtain ⟨n, known⟩ := reached
  obtain ⟨exact, within⟩ := (right v n).mp (find?_visits known rest)
  rw [exact]
  exact_mod_cast within

/-! ## The results -/

variable (graph rootIdx) in
/-- Every node but the root that has a distance is a result under its text, and there are no other results. -/
structure Reported (state : Table Nat Nat × Table String Nat) : Prop where
  root : ∃ n, state.1.find? rootIdx = some n
  nodes : ∀ (v : Nat) (n : Nat), state.1.find? v = some n → ∃ name, graph.nodes[v]? = some name
  results : ∀ name n, state.2.find? name = some n ↔
    ∃ v, v ≠ rootIdx ∧ graph.nodes[v]? = some name ∧ state.1.find? v = some n

theorem Reported.reach (distinct : ∀ (u v : Nat) (name : String), graph.nodes[u]? = some name →
    graph.nodes[v]? = some name → u = v) (reported : Reported graph rootIdx state) {neighbor : Nat}
    {text : String} (node : graph.nodes[neighbor]? = some text) :
    Reported graph rootIdx (reach graph dist state neighbor) := by
  unfold WotGraph.reach
  cases known : state.1.find? neighbor with
  | some n => exact reported
  | none =>
    obtain ⟨n, root⟩ := reported.root
    have other : neighbor ≠ rootIdx := by
      rintro rfl
      cases known.symm.trans root
    have named : graph.nodes.getD neighbor "" = text := by rw [List.getD_eq_getElem?_getD, node, Option.getD_some]
    dsimp only
    rw [named]
    refine ⟨⟨n, by rw [Table.find?_upsert_of_ne _ _ _ other.symm, root]⟩, ?_, ?_⟩
    · intro v k found
      by_cases mine : v = neighbor
      · exact ⟨text, mine ▸ node⟩
      · rw [Table.find?_upsert_of_ne _ _ _ mine] at found
        exact reported.nodes v k found
    intro name k
    by_cases mine : name = text
    · subst mine
      rw [Table.find?_upsert_replace, Option.some.injEq]
      constructor
      · rintro rfl
        exact ⟨neighbor, other, node, Table.find?_upsert_replace _ _ _⟩
      · rintro ⟨v, -, node', found⟩
        rw [distinct v neighbor name node' node, Table.find?_upsert_replace] at found
        exact Option.some.inj found
    · rw [Table.find?_upsert_of_ne _ _ _ mine, reported.results]
      refine exists_congr fun v => and_congr_right fun _ => and_congr_right fun node' => ?_
      rw [Table.find?_upsert_of_ne]
      rintro rfl
      exact mine (Option.some.inj (node'.symm.trans node))

theorem reported_distancesFrom (distinct : ∀ (u v : Nat) (name : String), graph.nodes[u]? = some name →
    graph.nodes[v]? = some name → u = v) (valid : ∀ u v, graph.Edge u v → ∃ name, graph.nodes[v]? = some name)
    (rooted : ∃ name, graph.nodes[rootIdx]? = some name) (order : List Nat) :
    Reported graph rootIdx (distancesFrom graph rootIdx maxHops order) := by
  refine Fallible.foldl_keeps (P := Reported graph rootIdx) (fun u _ state reported => ?_) ⟨⟨0, by simp⟩, ?_, ?_⟩
  · unfold visitNode
    dsimp only
    split
    · exact reported
    · refine Fallible.foldl_keeps (P := Reported graph rootIdx) (fun v member state reported => ?_) reported
      obtain ⟨name, node⟩ := valid u v (mem_neighbors.mp member)
      exact reported.reach distinct node
  · intro v n found
    by_cases same : v = rootIdx
    · rwa [same]
    · rw [Table.find?_upsert_of_ne _ _ _ same] at found
      cases found
  · intro name n
    simp only [Table.find?_empty, reduceCtorEq, false_iff]
    rintro ⟨v, other, -, found⟩
    rw [Table.find?_upsert_of_ne _ _ _ other] at found
    cases found

end Search

/-! ## The peers that are found -/

/-- The peers within the limit, each with its distance in the graph of the trust that was told. -/
def Exact (told : String → String → Prop) (root : String) (maxHops : Nat) (results : Table String Nat) : Prop :=
  ∀ name n, results.find? name = some n ↔ hops told root name = n ∧ 1 ≤ n ∧ n ≤ maxHops

theorem WellFormed.distinct (formed : WellFormed g told) (u v : Nat) (name : String)
    (first : g.graph.nodes[u]? = some name) (second : g.graph.nodes[v]? = some name) : u = v :=
  Option.some.inj (((formed.named name u).mpr first).symm.trans ((formed.named name v).mpr second))

theorem WellFormed.valid (formed : WellFormed g told) (u v : Nat) (edge : g.graph.Edge u v) :
    ∃ name, g.graph.nodes[v]? = some name := by
  obtain ⟨_, b, -, node, -⟩ := formed.edges u v edge
  exact ⟨b, node⟩

theorem WellFormed.hops_eq (formed : WellFormed g told) {u v : Nat} {a b : String}
    (first : g.graph.nodes[u]? = some a) (second : g.graph.nodes[v]? = some b) :
    hops g.graph.Edge u v = hops told a b := by
  refine @hops_of_related _ _ _ told (fun i name => g.graph.nodes[i]? = some name) ?_ ?_ ?_ ?_ u v a b first second
  · intro i j name node edge
    obtain ⟨a, b, source, target, trust⟩ := formed.edges i j edge
    cases node.symm.trans source
    exact ⟨b, target, trust⟩
  · intro i x y node trust
    obtain ⟨i', j, source, target, edge⟩ := formed.told x y trust
    obtain rfl := formed.distinct i i' x node source
    exact ⟨j, target, edge⟩
  · exact fun i x y node node' => Option.some.inj (node.symm.trans node')
  · exact formed.distinct

variable {rootIdx : Nat} {rootKey : String} {maxHops : Nat}

theorem closed_iff (formed : WellFormed g told) (rooted : g.graph.nodes[rootIdx]? = some rootKey) :
    Closed g.graph rootIdx maxHops ↔
      ∀ a b, told a b → hops told rootKey a = maxHops + 1 → hops told rootKey b ≤ maxHops := by
  constructor
  · intro closed a b trust beyond
    obtain ⟨u, v, first, second, edge⟩ := formed.told a b trust
    rw [← formed.hops_eq rooted first] at beyond
    rw [← formed.hops_eq rooted second]
    exact closed u v edge beyond
  · intro closed u v edge beyond
    obtain ⟨a, b, first, second, trust⟩ := formed.edges u v edge
    rw [formed.hops_eq rooted first] at beyond
    rw [formed.hops_eq rooted second]
    exact closed a b trust beyond

theorem exact_iff_right (formed : WellFormed g told) (rooted : g.graph.nodes[rootIdx]? = some rootKey)
    (order : List Nat) : Exact told rootKey maxHops (distancesFrom g.graph rootIdx maxHops order).2 ↔
      Right g.graph rootIdx maxHops (distancesFrom g.graph rootIdx maxHops order).1 := by
  have reported := @reported_distancesFrom _ _ rootIdx maxHops formed.distinct formed.valid ⟨rootKey, rooted⟩ order
  have start : (distancesFrom g.graph rootIdx maxHops order).1.find? rootIdx = some 0 := find?_visits (by simp) order
  constructor
  · intro exact v n
    by_cases root : v = rootIdx
    · subst root
      rw [start, hops_self, Option.some.injEq]
      constructor
      · rintro rfl
        exact ⟨rfl, Nat.zero_le _⟩
      · exact fun zero => by exact_mod_cast zero.1
    · have away : ∀ k : Nat, hops g.graph.Edge rootIdx v = k → 1 ≤ k := by
        intro k at_hops
        rw [Nat.one_le_iff_ne_zero]
        rintro rfl
        exact root (hops_eq_zero_iff.mp at_hops).symm
      constructor
      · intro found
        obtain ⟨name, node⟩ := reported.nodes v n found
        rw [formed.hops_eq rooted node]
        have entry := (exact name n).mp ((reported.results name n).mpr ⟨v, root, node, found⟩)
        exact ⟨entry.1, entry.2.2⟩
      · rintro ⟨at_hops, within⟩
        obtain ⟨k, rfl⟩ := Nat.exists_eq_add_one.mpr (away n at_hops)
        obtain ⟨p, -, edge⟩ := exists_nearer at_hops
        obtain ⟨name, node⟩ := formed.valid p v edge
        have positive := away _ at_hops
        rw [formed.hops_eq rooted node] at at_hops
        obtain ⟨v', -, node', found⟩ := (reported.results name _).mp ((exact name _).mpr ⟨at_hops, positive, within⟩)
        rwa [formed.distinct v v' name node node']
  · intro right name n
    rw [reported.results]
    constructor
    · rintro ⟨v, other, node, found⟩
      obtain ⟨at_hops, within⟩ := (right v n).mp found
      refine ⟨formed.hops_eq rooted node ▸ at_hops, ?_, within⟩
      rw [Nat.one_le_iff_ne_zero]
      rintro rfl
      exact other (hops_eq_zero_iff.mp at_hops).symm
    · rintro ⟨at_hops, positive, within⟩
      obtain ⟨k, rfl⟩ := Nat.exists_eq_add_one.mpr positive
      obtain ⟨p, -, trust⟩ := exists_nearer at_hops
      obtain ⟨_, v, -, node, -⟩ := formed.told p name trust
      rw [← formed.hops_eq rooted node] at at_hops
      refine ⟨v, ?_, node, (right v _).mpr ⟨at_hops, within⟩⟩
      rintro rfl
      rw [hops_self] at at_hops
      cases at_hops

theorem not_hops_of_sink (sink : ∀ b, ¬ told rootKey b) {b : String} {n : Nat} (positive : 1 ≤ n) :
    hops told rootKey b ≠ n := by
  intro at_hops
  have path := path_of_hops at_hops
  obtain ⟨k, rfl⟩ := Nat.exists_eq_add_one.mpr positive
  clear at_hops positive
  induction k generalizing b with
  | zero =>
    cases path with
    | further path edge =>
      cases path
      exact sink _ edge
  | succ k ih =>
    cases path with
    | further path _ => exact ih path

/-- The search is exact unless an edge leads on from a peer just beyond the limit to another peer beyond it. -/
theorem find_k_hop_peers_iff {one : W} (built : Built one g told) (bfs : DiGraph W → Nat → List Nat)
    (root : String) (maxHops : Nat)
    (search : ∀ u, g.nodeMap.find? (toAsciiLowercase root) = some u → BreadthFirst g.graph.Edge u (bfs g.graph u)) :
    Exact told (toAsciiLowercase root) maxHops (findKHopPeers bfs g root maxHops) ↔
      maxHops = 0 ∨ ∀ a b, told a b → hops told (toAsciiLowercase root) a = maxHops + 1 →
        hops told (toAsciiLowercase root) b ≤ maxHops := by
  have formed := wellFormed_of_built built
  unfold findKHopPeers
  cases found : g.nodeMap.find? (toAsciiLowercase root) with
  | none =>
    have sink : ∀ b, ¬ told (toAsciiLowercase root) b := by
      intro b trust
      obtain ⟨u, _, node, -⟩ := formed.told _ b trust
      cases found.symm.trans ((formed.named _ u).mpr node)
    refine iff_of_true ?_ (.inr fun a b _ beyond => ?_)
    · intro name n
      simp only [Table.find?_empty, reduceCtorEq, false_iff]
      exact fun entry => not_hops_of_sink sink entry.2.1 entry.1
    · exact absurd beyond (not_hops_of_sink sink (Nat.le_add_left 1 maxHops))
  | some rootIdx =>
    have rooted := (formed.named _ rootIdx).mp found
    have right := @exact_iff_right _ _ _ _ _ maxHops formed rooted (bfs g.graph rootIdx)
    rw [distancesFrom] at right
    rw [right, ← closed_iff formed rooted]
    cases maxHops with
    | zero =>
      refine iff_of_true ?_ (.inl rfl)
      rw [Fallible.foldl_still fun u _ => by rw [visitNode, if_pos (Nat.zero_le _)]]
      have near : Near g.graph rootIdx 0 [] (Table.empty.upsert rootIdx 0 id, .empty) := near_start
      refine fun v n => ⟨near.right v n, ?_⟩
      rintro ⟨at_hops, within⟩
      obtain rfl := Nat.le_zero.mp within
      rw [← hops_eq_zero_iff.mp at_hops]
      exact near.start
    | succ maxHops =>
      rw [or_iff_right (Nat.succ_ne_zero _)]
      exact ⟨closed_of_right (search rootIdx found) (Nat.succ_pos _), right_of_closed (search rootIdx found)⟩

section Chain

def chain : WotGraph Nat :=
  (((new.addTrustEdge "a" "b" 1).addTrustEdge "b" "c" 1).addTrustEdge "c" "d" 1).addTrustEdge "d" "e" 1

def chainTold (x y : String) : Prop := (x, y) ∈ [("a", "b"), ("b", "c"), ("c", "d"), ("d", "e")]

theorem chain_built : Built 1 chain chainTold := by
  have lower : ∀ s ∈ ["a", "b", "c", "d", "e"], toAsciiLowercase s = s := by decide
  have same : chainTold = fun x y => (((False ∨ x = toAsciiLowercase "a" ∧ y = toAsciiLowercase "b") ∨
      x = toAsciiLowercase "b" ∧ y = toAsciiLowercase "c") ∨ x = toAsciiLowercase "c" ∧ y = toAsciiLowercase "d") ∨
      x = toAsciiLowercase "d" ∧ y = toAsciiLowercase "e" := by
    funext x y
    simp [chainTold, lower, or_assoc]
  rw [same]
  exact (((Built.new.addTrustEdge "a" "b" 1).addTrustEdge "b" "c" 1).addTrustEdge "c" "d" 1).addTrustEdge "d" "e" 1

theorem edge_chain {u v : Nat} : chain.graph.Edge u v ↔ u < 4 ∧ v = u + 1 := by
  have edges : chain.graph.edges = [(0, 1, 1), (1, 2, 1), (2, 3, 1), (3, 4, 1)] := by decide
  simp only [DiGraph.Edge, edges, List.mem_cons, List.not_mem_nil, or_false, Prod.mk.injEq]
  constructor
  · rintro ⟨w, h | h | h | h⟩ <;> omega
  · rintro ⟨less, rfl⟩
    exact ⟨1, by omega⟩

theorem path_chain {n v : Nat} : Path chain.graph.Edge n 0 v ↔ v = n ∧ n ≤ 4 := by
  induction n generalizing v with
  | zero =>
    constructor
    · intro path
      cases path
      exact ⟨rfl, Nat.zero_le _⟩
    · rintro ⟨rfl, -⟩
      exact .here 0
  | succ n ih =>
    constructor
    · intro path
      cases path with
      | further path edge =>
        obtain ⟨less, rfl⟩ := edge_chain.mp edge
        obtain ⟨rfl, -⟩ := ih.mp path
        exact ⟨rfl, less⟩
    · rintro ⟨rfl, less⟩
      exact .further (ih.mpr ⟨rfl, Nat.le_of_succ_le less⟩) (edge_chain.mpr ⟨less, rfl⟩)

theorem hops_chain {v : Nat} (inside : v ≤ 4) : hops chain.graph.Edge 0 v = v :=
  hops_eq_coe_iff.mpr ⟨path_chain.mpr ⟨rfl, inside⟩, fun _ less path => Nat.ne_of_gt less (path_chain.mp path).1⟩

theorem chain_breadthFirst : BreadthFirst chain.graph.Edge 0 [0, 1, 2, 3, 4] where
  nodup := by decide
  reached v := by
    rw [hops_ne_top_iff]
    constructor
    · intro member
      have inside : v ≤ 4 := by
        simp only [List.mem_cons, List.not_mem_nil, or_false] at member
        omega
      exact ⟨v, path_chain.mpr ⟨rfl, inside⟩⟩
    · rintro ⟨n, path⟩
      obtain ⟨rfl, inside⟩ := path_chain.mp path
      simp only [List.mem_cons, List.not_mem_nil, or_false]
      omega
  levels := by
    have sorted : [0, 1, 2, 3, 4].Pairwise fun u v : Nat => u ≤ v ∧ v ≤ 4 := by decide
    refine sorted.imp fun {u v} both => ?_
    rw [hops_chain (both.1.trans both.2), hops_chain both.2]
    exact_mod_cast both.1

theorem chain_search (u : Nat) (found : chain.nodeMap.find? (toAsciiLowercase "a") = some u) :
    BreadthFirst chain.graph.Edge u [0, 1, 2, 3, 4] := by
  have root : chain.nodeMap.find? (toAsciiLowercase "a") = some 0 := by decide
  obtain rfl := Option.some.inj (root.symm.trans found)
  exact chain_breadthFirst

/-- The last key is just beyond a limit of three and trusts nobody, so the search is exact. -/
theorem chain_within_three :
    Exact chainTold (toAsciiLowercase "a") 3 (findKHopPeers (fun _ _ => [0, 1, 2, 3, 4]) chain "a" 3) := by
  refine (find_k_hop_peers_iff chain_built (fun _ _ => [0, 1, 2, 3, 4]) "a" 3 chain_search).mpr (.inr ?_)
  rw [show toAsciiLowercase "a" = "a" by decide]
  have start : Path chainTold 0 "a" "a" := .here "a"
  have toB : Path chainTold 1 "a" "b" := .further start (by simp [chainTold])
  have toC : Path chainTold 2 "a" "c" := .further toB (by simp [chainTold])
  have toD : Path chainTold 3 "a" "d" := .further toC (by simp [chainTold])
  intro x y trust beyond
  have no_nearer := ((hops_eq_coe_iff (n := 4)).mp beyond).2
  simp only [chainTold, List.mem_cons, Prod.mk.injEq, List.not_mem_nil, or_false] at trust
  obtain ⟨rfl, -⟩ | ⟨rfl, -⟩ | ⟨rfl, -⟩ | ⟨rfl, -⟩ := trust
  · exact absurd start (no_nearer 0 (by decide))
  · exact absurd toB (no_nearer 1 (by decide))
  · exact absurd toC (no_nearer 2 (by decide))
  · exact absurd toD (no_nearer 3 (by decide))

/-- The fourth key of the chain is beyond a limit of two and counts as the root, so the fifth is found one hop away. -/
theorem chain_beyond_two : BreadthFirst chain.graph.Edge 0 [0, 1, 2, 3, 4] ∧
    (findKHopPeers (fun _ _ => [0, 1, 2, 3, 4]) chain "a" 2).find? "e" = some 1 ∧
    ¬ Exact chainTold (toAsciiLowercase "a") 2 (findKHopPeers (fun _ _ => [0, 1, 2, 3, 4]) chain "a" 2) := by
  have found : (findKHopPeers (fun _ _ => [0, 1, 2, 3, 4]) chain "a" 2).find? "e" = some 1 := by rfl
  refine ⟨chain_breadthFirst, found, fun exact => ?_⟩
  have root : toAsciiLowercase "a" = "a" := by decide
  have path := path_of_hops ((exact "e" 1).mp found).1
  rw [root] at path
  cases path with
  | further path edge =>
    cases path
    simp [chainTold] at edge

end Chain

end WotGraph

end Soshal.Identity
