import Soshal.Library.OrderedMap
import Soshal.Library.Runs
import Soshal.Library.Text

/-! Consistent hashing of keys to nodes.

A ring holds points, each belonging to a node; a key belongs to the node of the
first point at or after its hash. XXHash64 is a parameter. While no two points of
the calls coincide, a ring is determined by how many points each node has.
-/

set_option autoImplicit false

namespace Soshal.Sync

open Library
open Library.Text (utf8)
open Library.Runs (run)

/-- A 64-bit hash. -/
abbrev Point := Fin (2 ^ 64)

structure ConsistentHashRing where
  ring : OrderedMap Point String

def vnodeKey (node : String) (i : Nat) : String := node ++ "#vn" ++ toString i

inductive RingCall where
  | addNode (node : String) (vnodes : Nat)
  | removeNode (node : String)
  deriving DecidableEq

namespace ConsistentHashRing

def new : ConsistentHashRing := ⟨.empty⟩

def isEmpty (r : ConsistentHashRing) : Bool := r.ring.entries.isEmpty

def removeNode (r : ConsistentHashRing) (node : String) : ConsistentHashRing := ⟨r.ring.retain fun _ v => v != node⟩

section Hashed

variable (xxhash64Bytes : List UInt8 → Point)

def xxhash64Str (s : String) : Point := xxhash64Bytes (utf8 s)

def vnodePoint (node : String) (i : Nat) : Point := xxhash64Str xxhash64Bytes (vnodeKey node i)

def addNode (r : ConsistentHashRing) (node : String) (vnodes : Nat) : ConsistentHashRing :=
  -- A node has at least one point.
  ⟨(List.range (max vnodes 1)).foldl (fun ring i => ring.insert (vnodePoint xxhash64Bytes node i) node) r.ring⟩

def getNode (r : ConsistentHashRing) (key : String) : Option String :=
  if r.isEmpty then none
  else
    let keyHash := xxhash64Str xxhash64Bytes key
    match r.ring.entries.find? fun entry => decide (keyHash ≤ entry.1) with
    | some (_, node) => some node
    | none => r.ring.entries.head?.map Prod.snd

def step (r : ConsistentHashRing) : RingCall → ConsistentHashRing
  | .addNode node vnodes => r.addNode xxhash64Bytes node vnodes
  | .removeNode node => r.removeNode node

variable {xxhash64Bytes}

theorem getNode_eq (r : ConsistentHashRing) (key : String) :
    r.getNode xxhash64Bytes key = (r.ring.around (xxhash64Str xxhash64Bytes key)).map Prod.snd := by
  unfold getNode OrderedMap.around
  split
  case isTrue none' =>
    rw [isEmpty, List.isEmpty_iff] at none'
    rw [none']
    rfl
  case isFalse =>
    dsimp only
    split
    case h_1 found => rw [found]; rfl
    case h_2 missing => rw [missing]; rfl

theorem mem_foldl_insert {node : String} {points : List Nat} {ring : OrderedMap Point String} {entry : Point × String} :
    entry ∈ points.foldl (fun ring i => ring.insert (vnodePoint xxhash64Bytes node i) node) ring ↔
      (∃ i ∈ points, entry = (vnodePoint xxhash64Bytes node i, node)) ∨
        (entry ∈ ring ∧ ∀ i ∈ points, entry.1 ≠ vnodePoint xxhash64Bytes node i) := by
  induction points generalizing ring with
  | nil => simp
  | cons first rest ih =>
    rw [List.foldl_cons, ih, OrderedMap.mem_insert]
    simp only [List.mem_cons, exists_eq_or_imp, forall_eq_or_imp]
    constructor
    · rintro (⟨i, later, rfl⟩ | ⟨rfl | ⟨present, other⟩, apart⟩)
      · exact .inl (.inr ⟨i, later, rfl⟩)
      · exact .inl (.inl rfl)
      · exact .inr ⟨present, other, apart⟩
    · rintro ((rfl | ⟨i, later, rfl⟩) | ⟨present, other, apart⟩)
      · by_cases again : ∃ i ∈ rest, vnodePoint xxhash64Bytes node first = vnodePoint xxhash64Bytes node i
        · obtain ⟨i, later, same⟩ := again
          exact .inl ⟨i, later, by rw [same]⟩
        · exact .inr ⟨.inl rfl, fun i later same => again ⟨i, later, same⟩⟩
      · exact .inl ⟨i, later, rfl⟩
      · exact .inr ⟨.inr ⟨present, other⟩, apart⟩

variable {r : ConsistentHashRing} {count : String → Nat}

theorem mem_addNode {node : String} {vnodes : Nat} {entry : Point × String} :
    entry ∈ (r.addNode xxhash64Bytes node vnodes).ring ↔
      (∃ i < max vnodes 1, entry = (vnodePoint xxhash64Bytes node i, node)) ∨
        (entry ∈ r.ring ∧ ∀ i < max vnodes 1, entry.1 ≠ vnodePoint xxhash64Bytes node i) := by
  rw [addNode, mem_foldl_insert]
  simp only [List.mem_range]

theorem mem_removeNode {node : String} {entry : Point × String} :
    entry ∈ (r.removeNode node).ring ↔ entry ∈ r.ring ∧ entry.2 ≠ node := by
  rw [removeNode, OrderedMap.mem_retain, bne_iff_ne]

theorem getNode_removeNode {node key : String} (elsewhere : r.getNode xxhash64Bytes key ≠ some node) :
    (r.removeNode node).getNode xxhash64Bytes key = r.getNode xxhash64Bytes key := by
  simp only [getNode_eq] at elsewhere ⊢
  cases found : r.ring.around (xxhash64Str xxhash64Bytes key) with
  | none =>
    rw [OrderedMap.around_eq_none] at found
    have rest : (r.removeNode node).ring = .empty := by
      rw [removeNode, found]
      rfl
    rw [rest]
    rfl
  | some entry =>
    rw [found, Option.map_some, Ne, Option.some.injEq] at elsewhere
    have kept : (entry.2 != node) = true := bne_iff_ne.mpr elsewhere
    have still : (r.removeNode node).ring.around (xxhash64Str xxhash64Bytes key) = some entry :=
      OrderedMap.around_retain found kept
    rw [still]

theorem around_foldl_insert {node : String} {points : List Nat} {ring : OrderedMap Point String} {search : Point}
    {entry : Point × String}
    (found : (points.foldl (fun ring i => ring.insert (vnodePoint xxhash64Bytes node i) node) ring).around search =
      some entry) (other : entry.2 ≠ node) : ring.around search = some entry := by
  induction points generalizing ring with
  | nil => exact found
  | cons first rest ih =>
    apply OrderedMap.around_of_insert (ih found)
    rintro rfl
    exact other rfl

theorem getNode_addNode {node key : String} {vnodes : Nat}
    (moved : (r.addNode xxhash64Bytes node vnodes).getNode xxhash64Bytes key ≠ r.getNode xxhash64Bytes key) :
    (r.addNode xxhash64Bytes node vnodes).getNode xxhash64Bytes key = some node := by
  simp only [getNode_eq] at moved ⊢
  have point : (vnodePoint xxhash64Bytes node 0, node) ∈ (r.addNode xxhash64Bytes node vnodes).ring :=
    mem_addNode.mpr (.inl ⟨0, by omega, rfl⟩)
  obtain ⟨entry, found⟩ := OrderedMap.around_isSome point (xxhash64Str xxhash64Bytes key)
  rw [found, Option.map_some] at moved ⊢
  by_contra other
  have before := around_foldl_insert found (fun same => other (congrArg some same))
  rw [before] at moved
  exact moved rfl

def Present (r : ConsistentHashRing) (node : String) : Prop := ∃ point, (point, node) ∈ r.ring

def vnodeCount (r : ConsistentHashRing) (node : String) : Nat := (r.ring.entries.filter fun entry => entry.2 == node).length

theorem removeNode_of_absent {node : String} (absent : ¬ r.Present node) : r.removeNode node = r := by
  have same : (r.removeNode node).ring = r.ring := by
    ext entry
    rw [mem_removeNode]
    constructor
    · rintro ⟨member, _⟩
      exact member
    · intro member
      exact ⟨member, fun owned => absent ⟨entry.1, owned ▸ member⟩⟩
  cases r
  exact congrArg mk same

def Uses (call : RingCall) (node : String) (i : Nat) : Prop := ∃ vnodes, call = .addNode node vnodes ∧ i < max vnodes 1

variable (xxhash64Bytes) in
def DistinctPoints (calls : List RingCall) : Prop :=
  ∀ call ∈ calls, ∀ call' ∈ calls, ∀ node i node' i', Uses call node i → Uses call' node' i' →
    vnodePoint xxhash64Bytes node i = vnodePoint xxhash64Bytes node' i' → node = node' ∧ i = i'

def countAfter (count : String → Nat) : RingCall → String → Nat
  | .addNode node vnodes => Function.update count node (max (count node) (max vnodes 1))
  | .removeNode node => Function.update count node 0

variable (xxhash64Bytes) in
/-- The points on the ring are the first virtual nodes of each node. -/
def Counted (r : ConsistentHashRing) (count : String → Nat) : Prop :=
  ∀ point node, (point, node) ∈ r.ring ↔ ∃ i < count node, point = vnodePoint xxhash64Bytes node i

theorem ring_ext_of_counted {r r' : ConsistentHashRing} (counted : r.Counted xxhash64Bytes count)
    (counted' : r'.Counted xxhash64Bytes count) : r = r' := by
  have same : r.ring = r'.ring := by
    ext entry
    rw [counted entry.1 entry.2, counted' entry.1 entry.2]
  cases r
  exact congrArg mk same

/-- The points that some call of `calls` may put on a ring. -/
def UsedBy (calls : List RingCall) (node : String) (i : Nat) : Prop := ∃ call ∈ calls, Uses call node i

theorem counted_addNode {calls : List RingCall} (distinct : DistinctPoints xxhash64Bytes calls)
    {count : String → Nat} (counted : r.Counted xxhash64Bytes count)
    (used : ∀ node i, i < count node → UsedBy calls node i)
    {node : String} {vnodes : Nat} (member : RingCall.addNode node vnodes ∈ calls) :
    (r.addNode xxhash64Bytes node vnodes).Counted xxhash64Bytes (countAfter count (.addNode node vnodes)) := by
  intro point owner
  rw [mem_addNode, counted point owner]
  by_cases same : owner = node
  · subst same
    simp only [countAfter, Function.update_self, Prod.mk.injEq, and_true]
    constructor
    · rintro (⟨i, small, rfl⟩ | ⟨⟨i, small, rfl⟩, _⟩)
      · exact ⟨i, lt_max_of_lt_right small, rfl⟩
      · exact ⟨i, lt_max_of_lt_left small, rfl⟩
    · rintro ⟨i, small, rfl⟩
      by_cases placed : ∃ j < max vnodes 1, vnodePoint xxhash64Bytes owner i = vnodePoint xxhash64Bytes owner j
      · exact .inl placed
      · rcases lt_max_iff.mp small with old | new
        · exact .inr ⟨⟨i, old, rfl⟩, fun j less same => placed ⟨j, less, same⟩⟩
        · exact absurd ⟨i, new, rfl⟩ placed
  · simp only [countAfter, Function.update_of_ne same, Prod.mk.injEq, same, and_false, exists_false, false_or,
      and_iff_left_iff_imp]
    -- A point of another node is none of those placed now.
    rintro ⟨i, small, rfl⟩ j less hit
    obtain ⟨call, among, uses⟩ := used owner i small
    exact same (distinct call among _ member owner i node j uses ⟨vnodes, rfl, less⟩ hit).1

theorem counted_removeNode (counted : r.Counted xxhash64Bytes count)
    (node : String) : (r.removeNode node).Counted xxhash64Bytes (countAfter count (.removeNode node)) := by
  intro point owner
  rw [mem_removeNode, counted point owner]
  by_cases same : owner = node
  · subst same
    simp [countAfter]
  · simp [countAfter, same]

theorem used_countAfter {calls : List RingCall}
    (used : ∀ node i, i < count node → UsedBy calls node i) {call : RingCall} (member : call ∈ calls) :
    ∀ node i, i < countAfter count call node → UsedBy calls node i := by
  intro node i small
  cases call with
  | addNode added vnodes =>
    by_cases same : node = added
    · subst same
      rw [countAfter, Function.update_self] at small
      rcases lt_max_iff.mp small with old | new
      · exact used node i old
      · exact ⟨_, member, vnodes, rfl, new⟩
    · rw [countAfter, Function.update_of_ne same] at small
      exact used node i small
  | removeNode removed =>
    by_cases same : node = removed
    · subst same
      simp [countAfter] at small
    · rw [countAfter, Function.update_of_ne same] at small
      exact used node i small

section

variable {calls : List RingCall} (distinct : DistinctPoints xxhash64Bytes calls)
include distinct

theorem counted_step (counted : r.Counted xxhash64Bytes count)
    (used : ∀ node i, i < count node → UsedBy calls node i) {call : RingCall} (member : call ∈ calls) :
    (r.step xxhash64Bytes call).Counted xxhash64Bytes (countAfter count call) := by
  cases call with
  | addNode node vnodes => exact counted_addNode distinct counted used member
  | removeNode node => exact counted_removeNode counted node

theorem counted_run {done : List RingCall} (among : ∀ call ∈ done, call ∈ calls)
    {count : String → Nat} (counted : r.Counted xxhash64Bytes count)
    (used : ∀ node i, i < count node → UsedBy calls node i) :
    (run (step xxhash64Bytes) r done).Counted xxhash64Bytes (run countAfter count done) ∧
      ∀ node i, i < run countAfter count done node → UsedBy calls node i := by
  induction done generalizing r count with
  | nil => exact ⟨counted, used⟩
  | cons call rest ih =>
    have member := among call (List.mem_cons_self ..)
    exact ih (fun later found => among later (List.mem_cons_of_mem _ found))
      (counted_step distinct counted used member) (used_countAfter used member)

theorem counted_calls :
    (run (step xxhash64Bytes) new calls).Counted xxhash64Bytes (run countAfter (fun _ => 0) calls) ∧
      ∀ node i, i < run countAfter (fun _ => 0) calls node → UsedBy calls node i := by
  apply counted_run distinct (fun call member => member)
  · intro point node
    exact iff_of_false (OrderedMap.not_mem_empty _) (by rintro ⟨i, small, _⟩; exact absurd small (Nat.not_lt_zero i))
  · intro node i small
    exact absurd small (Nat.not_lt_zero i)

theorem vnodeCount_of_counted
    (counted : r.Counted xxhash64Bytes count) (used : ∀ node i, i < count node → UsedBy calls node i) (node : String)
    : r.vnodeCount node = count node := by
  have points : ((r.ring.entries.filter fun entry => entry.2 == node).map Prod.fst).Perm
      ((List.range (count node)).map (vnodePoint xxhash64Bytes node)) := by
    apply (List.perm_ext_iff_of_nodup ?_ ?_).mpr
    · intro point
      simp only [List.mem_map, List.mem_filter, beq_iff_eq, List.mem_range]
      constructor
      · rintro ⟨⟨_, _⟩, ⟨member, rfl⟩, rfl⟩
        obtain ⟨i, small, same⟩ := (counted _ _).mp member
        exact ⟨i, small, same.symm⟩
      · rintro ⟨i, small, rfl⟩
        exact ⟨(_, node), ⟨(counted _ _).mpr ⟨i, small, rfl⟩, rfl⟩, rfl⟩
    · exact r.ring.nodup_keys.sublist (List.filter_sublist.map Prod.fst)
    · apply List.Nodup.map_on _ List.nodup_range
      intro i small j less same
      obtain ⟨call, among, uses⟩ := used node i (List.mem_range.mp small)
      obtain ⟨call', among', uses'⟩ := used node j (List.mem_range.mp less)
      exact (distinct call among call' among' node i node j uses uses' same).2
  have length := points.length_eq
  rwa [List.length_map, List.length_map, List.length_range] at length

end

theorem present_iff_of_counted (counted : r.Counted xxhash64Bytes count)
    (node : String) : r.Present node ↔ 0 < count node := by
  constructor
  · rintro ⟨point, member⟩
    obtain ⟨i, small, _⟩ := (counted point node).mp member
    exact Nat.zero_lt_of_lt small
  · intro some'
    exact ⟨_, (counted _ node).mpr ⟨0, some', rfl⟩⟩

theorem addNode_of_counted (counted : r.Counted xxhash64Bytes count)
    {node : String} {vnodes : Nat} (enough : max vnodes 1 ≤ count node) : r.addNode xxhash64Bytes node vnodes = r := by
  have same : (r.addNode xxhash64Bytes node vnodes).ring = r.ring := by
    ext entry
    rw [mem_addNode]
    constructor
    · rintro (⟨i, small, rfl⟩ | ⟨member, _⟩)
      · exact (counted _ _).mpr ⟨i, Nat.lt_of_lt_of_le small enough, rfl⟩
      · exact member
    · intro member
      by_cases placed : ∃ i < max vnodes 1, entry.1 = vnodePoint xxhash64Bytes node i
      · obtain ⟨i, small, hit⟩ := placed
        have there : (vnodePoint xxhash64Bytes node i, node) ∈ r.ring :=
          (counted _ _).mpr ⟨i, Nat.lt_of_lt_of_le small enough, rfl⟩
        exact .inl ⟨i, small, OrderedMap.eq_of_key member there hit⟩
      · exact .inr ⟨member, fun i small hit => placed ⟨i, small, hit⟩⟩
  cases r
  exact congrArg mk same

theorem count_of_uniform {vnodes : Nat} {calls : List RingCall}
    (uniform : ∀ node given, RingCall.addNode node given ∈ calls → given = vnodes) {count : String → Nat}
    (before : ∀ node, count node = 0 ∨ count node = max vnodes 1) (node : String) :
    run countAfter count calls node = 0 ∨ run countAfter count calls node = max vnodes 1 := by
  induction calls generalizing count with
  | nil => exact before node
  | cons call rest ih =>
    apply ih (fun node given later => uniform node given (List.mem_cons_of_mem _ later))
    intro other
    cases call with
    | addNode added given =>
      obtain rfl := uniform added given (List.mem_cons_self ..)
      by_cases same : other = added
      · subst same
        rw [countAfter, Function.update_self]
        rcases before other with none' | all <;> omega
      · rw [countAfter, Function.update_of_ne same]
        exact before other
    | removeNode removed =>
      by_cases same : other = removed
      · subst same
        exact .inl (Function.update_self ..)
      · rw [countAfter, Function.update_of_ne same]
        exact before other

variable (xxhash64Bytes) in
def ringOf (calls : List RingCall) : ConsistentHashRing := run (step xxhash64Bytes) new calls

theorem ring_of_vnodeCounts {calls calls' : List RingCall} (distinct : DistinctPoints xxhash64Bytes calls)
    (distinct' : DistinctPoints xxhash64Bytes calls')
    (same : ∀ node, (ringOf xxhash64Bytes calls).vnodeCount node = (ringOf xxhash64Bytes calls').vnodeCount node) :
    ringOf xxhash64Bytes calls = ringOf xxhash64Bytes calls' := by
  obtain ⟨counted, used⟩ := counted_calls distinct
  obtain ⟨counted', used'⟩ := counted_calls distinct'
  have counts : run countAfter (fun _ => 0) calls = run countAfter (fun _ => 0) calls' := by
    funext node
    calc
      run countAfter (fun _ => 0) calls node = (ringOf xxhash64Bytes calls).vnodeCount node :=
        (vnodeCount_of_counted distinct counted used node).symm
      _ = (ringOf xxhash64Bytes calls').vnodeCount node := same node
      _ = run countAfter (fun _ => 0) calls' node := vnodeCount_of_counted distinct' counted' used' node
  exact ring_ext_of_counted counted (counts ▸ counted')

theorem ring_of_present {vnodes : Nat} {calls calls' : List RingCall} (distinct : DistinctPoints xxhash64Bytes calls)
    (distinct' : DistinctPoints xxhash64Bytes calls')
    (uniform : ∀ node given, RingCall.addNode node given ∈ calls → given = vnodes)
    (uniform' : ∀ node given, RingCall.addNode node given ∈ calls' → given = vnodes)
    (same : ∀ node, (ringOf xxhash64Bytes calls).Present node ↔ (ringOf xxhash64Bytes calls').Present node) :
    ringOf xxhash64Bytes calls = ringOf xxhash64Bytes calls' := by
  obtain ⟨counted, _⟩ := counted_calls distinct
  obtain ⟨counted', _⟩ := counted_calls distinct'
  have counts : run countAfter (fun _ => 0) calls = run countAfter (fun _ => 0) calls' := by
    funext node
    have presence := same node
    rw [ringOf, ringOf, present_iff_of_counted counted, present_iff_of_counted counted'] at presence
    rcases count_of_uniform uniform (fun _ => .inl rfl) node with none' | all <;>
      rcases count_of_uniform uniform' (fun _ => .inl rfl) node with none'' | all' <;> omega
  exact ring_ext_of_counted counted (counts ▸ counted')

theorem ring_assignment_laws (xxhash64Bytes : List UInt8 → Point) (calls : List RingCall) :
    (∀ node key, ((ringOf xxhash64Bytes calls).removeNode node).getNode xxhash64Bytes key ≠
        (ringOf xxhash64Bytes calls).getNode xxhash64Bytes key →
      (ringOf xxhash64Bytes calls).getNode xxhash64Bytes key = some node) ∧
    (∀ node vnodes key, ((ringOf xxhash64Bytes calls).addNode xxhash64Bytes node vnodes).getNode xxhash64Bytes key ≠
        (ringOf xxhash64Bytes calls).getNode xxhash64Bytes key →
      ((ringOf xxhash64Bytes calls).addNode xxhash64Bytes node vnodes).getNode xxhash64Bytes key = some node) ∧
    (∀ node, ¬ (ringOf xxhash64Bytes calls).Present node →
      (ringOf xxhash64Bytes calls).removeNode node = ringOf xxhash64Bytes calls) ∧
    (DistinctPoints xxhash64Bytes calls → ∀ node vnodes, max vnodes 1 ≤ (ringOf xxhash64Bytes calls).vnodeCount node →
      (ringOf xxhash64Bytes calls).addNode xxhash64Bytes node vnodes = ringOf xxhash64Bytes calls) ∧
    ∀ calls', DistinctPoints xxhash64Bytes calls → DistinctPoints xxhash64Bytes calls' →
      ((∀ node, (ringOf xxhash64Bytes calls).vnodeCount node = (ringOf xxhash64Bytes calls').vnodeCount node) ∨
        ∃ vnodes, (∀ node given, RingCall.addNode node given ∈ calls ++ calls' → given = vnodes) ∧
          ∀ node, (ringOf xxhash64Bytes calls).Present node ↔ (ringOf xxhash64Bytes calls').Present node) →
      ∀ key, (ringOf xxhash64Bytes calls).getNode xxhash64Bytes key =
        (ringOf xxhash64Bytes calls').getNode xxhash64Bytes key := by
  refine ⟨?_, fun _ _ _ => getNode_addNode, fun _ => removeNode_of_absent, ?_, ?_⟩
  · intro node key moved
    by_contra elsewhere
    exact moved (getNode_removeNode elsewhere)
  · intro distinct node vnodes enough
    obtain ⟨counted, used⟩ := counted_calls distinct
    rw [ringOf, vnodeCount_of_counted distinct counted used node] at enough
    exact addNode_of_counted counted enough
  · rintro calls' distinct distinct' (counts | ⟨vnodes, uniform, present⟩) key
    · rw [ring_of_vnodeCounts distinct distinct' counts]
    · have same := ring_of_present distinct distinct' (fun node given member => uniform node given (List.mem_append_left _ member))
        (fun node given member => uniform node given (List.mem_append_right _ member)) present
      rw [same]

end Hashed

/-- XXHash64 at the virtual nodes and the key used here. -/
def xxhashHere (bytes : List UInt8) : Point :=
  if bytes = utf8 "a#vn0" then 0xac34ab38b156074e
  else if bytes = utf8 "a#vn1" then 0xfd599a80fd5e583e
  else if bytes = utf8 "b#vn0" then 0x6824d2e3f7dcbdc8
  else 0xc3d31922c50b1b63

theorem points_here : vnodePoint xxhashHere "a" 0 = 0xac34ab38b156074e ∧
    vnodePoint xxhashHere "a" 1 = 0xfd599a80fd5e583e ∧ vnodePoint xxhashHere "b" 0 = 0x6824d2e3f7dcbdc8 := by
  decide

theorem distinct_here : DistinctPoints xxhashHere [.addNode "a" 1, .addNode "b" 1, .addNode "a" 2] := by
  obtain ⟨a0, a1, b0⟩ := points_here
  have used : ∀ call ∈ [RingCall.addNode "a" 1, .addNode "b" 1, .addNode "a" 2], ∀ node i, Uses call node i →
      (node, i) ∈ [("a", 0), ("a", 1), ("b", 0)] := by
    rintro call member node i ⟨vnodes, rfl, small⟩
    simp only [List.mem_cons, RingCall.addNode.injEq, List.not_mem_nil, or_false] at member
    rcases member with ⟨rfl, rfl⟩ | ⟨rfl, rfl⟩ | ⟨rfl, rfl⟩
    · obtain rfl : i = 0 := by omega
      decide
    · obtain rfl : i = 0 := by omega
      decide
    · obtain rfl | rfl : i = 0 ∨ i = 1 := by omega
      · decide
      · decide
  intro call member call' member' node i node' i' uses uses' same
  have first := used call member node i uses
  have second := used call' member' node' i' uses'
  simp only [List.mem_cons, Prod.mk.injEq, List.not_mem_nil, or_false] at first second
  rcases first with ⟨rfl, rfl⟩ | ⟨rfl, rfl⟩ | ⟨rfl, rfl⟩ <;>
    rcases second with ⟨rfl, rfl⟩ | ⟨rfl, rfl⟩ | ⟨rfl, rfl⟩ <;>
    simp [a0, a1, b0] at same ⊢

/-- Adding a node that is on the ring moves a key, and the nodes on the ring stay the same. -/
theorem added_again_moves_key :
    DistinctPoints xxhashHere [.addNode "a" 1, .addNode "b" 1, .addNode "a" 2] ∧
      (ringOf xxhashHere [.addNode "a" 1, .addNode "b" 1]).Present "a" ∧
      (ringOf xxhashHere [.addNode "a" 1, .addNode "b" 1]).getNode xxhashHere "k" = some "b" ∧
      (ringOf xxhashHere [.addNode "a" 1, .addNode "b" 1, .addNode "a" 2]).getNode xxhashHere "k" = some "a" ∧
      ∀ node, (ringOf xxhashHere [.addNode "a" 1, .addNode "b" 1]).Present node ↔
        (ringOf xxhashHere [.addNode "a" 1, .addNode "b" 1, .addNode "a" 2]).Present node := by
  have fewer : DistinctPoints xxhashHere [.addNode "a" 1, .addNode "b" 1] := by
    have among : ∀ call ∈ [RingCall.addNode "a" 1, .addNode "b" 1],
        call ∈ [RingCall.addNode "a" 1, .addNode "b" 1, .addNode "a" 2] := by simp
    intro call member call' member'
    exact distinct_here call (among call member) call' (among call' member')
  have present : ∀ node, (ringOf xxhashHere [.addNode "a" 1, .addNode "b" 1]).Present node ↔ node = "a" ∨ node = "b" := by
    intro node
    rw [ringOf, present_iff_of_counted (counted_calls fewer).1]
    simp only [run, List.foldl, countAfter, Function.update_apply]
    split <;> split <;> simp_all
  have present' : ∀ node, (ringOf xxhashHere [.addNode "a" 1, .addNode "b" 1, .addNode "a" 2]).Present node ↔
      node = "a" ∨ node = "b" := by
    intro node
    rw [ringOf, present_iff_of_counted (counted_calls distinct_here).1]
    simp only [run, List.foldl, countAfter, Function.update_apply]
    split <;> split <;> simp_all
  refine ⟨distinct_here, (present "a").mpr (.inl rfl), by decide, by decide, ?_⟩
  intro node
  rw [present, present']

end ConsistentHashRing

end Soshal.Sync
