import Mathlib.Algebra.GroupWithZero.Nat
import Mathlib.Data.Finset.Basic
import Mathlib.Data.List.Pairwise
import Soshal.Library.Adjacency

/-! The graph of optimistic transactions: the dependents of a transaction, and the
order in which they are undone.

Both walks keep their own stack. A hash set lists its members in no fixed order, so
the order of `reverse_topological` is taken for every listing of the closure.
-/

set_option autoImplicit false

namespace Soshal.Sync

open Library

/-- A row of `tx_edges`: the child depends on the parent. -/
structure TxEdge where
  parent_id : String
  child_id : String
  deriving DecidableEq, Repr

def loadEdges (rows : List TxEdge) : Adjacency String where
  keys := rows.map (·.parent_id)
  children n := (rows.filter (·.parent_id = n)).map (·.child_id)
  outside n absent := by
    simp only [List.map_eq_nil_iff, List.filter_eq_nil_iff, decide_eq_true_eq]
    intro row member parent
    exact absent (List.mem_map.mpr ⟨row, member, parent⟩)

section Closure

variable (adj : Adjacency String)

-- The top of the stack is the head of the list, so the last child pushed is the next one popped.
def pushChildren (cur : String) (stack : List String) : List String := (adj.children cur).reverse ++ stack

@[simp]
theorem mem_pushChildren (cur n : String) (stack : List String) :
    n ∈ pushChildren adj cur stack ↔ n ∈ adj.children cur ∨ n ∈ stack := by
  simp [pushChildren]

def closureLoop (closure : Finset String) : List String → Finset String
  | [] => closure
  | cur :: stack =>
    if cur ∈ closure then closureLoop closure stack
    else closureLoop (insert cur closure) (pushChildren adj cur stack)
termination_by stack => (adj.unmarked fun n => decide (n ∈ closure), stack.length)
decreasing_by
  · exact Prod.Lex.right _ (Nat.lt_succ_self _)
  · rename_i fresh
    have grown : ∀ n, decide (n ∈ closure) = true → decide (n ∈ insert cur closure) = true := by
      simp +contextual
    by_cases key : cur ∈ adj.keys
    · exact Prod.Lex.left _ _ (adj.unmarked_lt grown key (by simpa using fresh) (by simp))
    · rw [pushChildren, adj.outside cur key]
      rcases Nat.lt_or_eq_of_le (adj.unmarked_le grown) with less | same
      · exact Prod.Lex.left _ _ less
      · rw [same]
        exact Prod.Lex.right _ (Nat.lt_succ_self _)

def dependentClosure (root : String) : Finset String := closureLoop adj ∅ [root]

/-- What the walk knows of its closure and its stack. -/
structure Closing (root : String) (closure : Finset String) (stack : List String) : Prop where
  held : root ∈ closure ∨ root ∈ stack
  reached : ∀ n, n ∈ closure ∨ n ∈ stack → adj.Reaches root n
  closed : ∀ n ∈ closure, ∀ c ∈ adj.children n, c ∈ closure ∨ c ∈ stack

variable {adj}

theorem Closing.skip {root cur : String} {closure : Finset String} {stack : List String}
    (closing : Closing adj root closure (cur :: stack)) (seen : cur ∈ closure) :
    Closing adj root closure stack where
  held := by
    rcases closing.held with kept | kept
    · exact .inl kept
    · rcases List.mem_cons.mp kept with rfl | kept
      · exact .inl seen
      · exact .inr kept
  reached n member := closing.reached n (member.imp_right (List.mem_cons_of_mem _))
  closed n member c child := by
    rcases closing.closed n member c child with kept | kept
    · exact .inl kept
    · rcases List.mem_cons.mp kept with rfl | kept
      · exact .inl seen
      · exact .inr kept

theorem Closing.visit {root cur : String} {closure : Finset String} {stack : List String}
    (closing : Closing adj root closure (cur :: stack)) :
    Closing adj root (insert cur closure) (pushChildren adj cur stack) where
  held := by
    have kept := closing.held
    simp only [List.mem_cons, Finset.mem_insert, mem_pushChildren] at kept ⊢
    tauto
  reached n member := by
    have here : adj.Reaches root cur := closing.reached cur (.inr List.mem_cons_self)
    simp only [Finset.mem_insert, mem_pushChildren] at member
    rcases member with (rfl | member) | child | member
    · exact here
    · exact closing.reached n (.inl member)
    · exact here.tail child
    · exact closing.reached n (.inr (List.mem_cons_of_mem _ member))
  closed n member c child := by
    simp only [Finset.mem_insert, mem_pushChildren] at member ⊢
    rcases member with rfl | member
    · exact .inr (.inl child)
    · have kept := closing.closed n member c child
      simp only [List.mem_cons] at kept
      tauto

theorem Closing.run {root : String} (closure : Finset String) (stack : List String)
    (closing : Closing adj root closure stack) : Closing adj root (closureLoop adj closure stack) [] := by
  fun_induction closureLoop adj closure stack with
  | case1 closure => exact closing
  | case2 closure cur stack seen ih => exact ih (closing.skip seen)
  | case3 closure cur stack fresh ih => exact ih closing.visit

variable (adj)

theorem mem_dependentClosure (root n : String) : n ∈ dependentClosure adj root ↔ adj.Reaches root n := by
  have start : Closing adj root ∅ [root] :=
    { held := .inr List.mem_cons_self
      reached := by
        intro n member
        have at_root : n = root := by simpa using member
        exact at_root ▸ .refl
      closed := by simp }
  have done : Closing adj root (dependentClosure adj root) [] := start.run
  refine ⟨fun member => done.reached n (.inl member), fun reached => ?_⟩
  refine adj.closed_of_reaches (fun n m edge member => ?_) reached ?_
  · simpa using done.closed n member m edge
  · simpa using done.held

theorem dependentClosure_closed {root n c : String} (member : n ∈ dependentClosure adj root)
    (child : c ∈ adj.children n) : c ∈ dependentClosure adj root := by
  rw [mem_dependentClosure] at member ⊢
  exact member.tail child

end Closure

section Order

variable (adj : Adjacency String) (closure : Finset String)

def pushPending (node : String) (visited inProgress : Finset String) (stack : List (String × Bool)) :
    List (String × Bool) :=
  (((adj.children node).filter fun c => c ∈ closure ∧ c ∉ visited ∧ c ∉ inProgress).map fun c => (c, false)).reverse ++
    (node, true) :: stack

def entryWeight : String × Bool → Nat
  | (_, true) => 1
  | (_, false) => 2

def orderLoop (order : List String) (visited inProgress : Finset String) : List (String × Bool) → List String
  | [] => order
  | (node, expanded) :: stack =>
    if expanded then
      if node ∈ visited then orderLoop order visited (inProgress.erase node) stack
      else orderLoop (order ++ [node]) (insert node visited) (inProgress.erase node) stack
    else if node ∈ visited ∨ node ∈ inProgress then orderLoop order visited inProgress stack
    else
      orderLoop order visited (insert node inProgress)
        (pushPending adj closure node visited (insert node inProgress) stack)
termination_by stack =>
  (adj.unmarked fun n => decide (n ∈ visited ∨ n ∈ inProgress), (stack.map entryWeight).sum)
decreasing_by
  · rename_i seen
    refine Prod.Lex.right' _ (adj.unmarked_le fun n marked => ?_) (by simp_all [entryWeight])
    by_cases same : n = node <;> simp_all
  · refine Prod.Lex.right' _ (adj.unmarked_le fun n marked => ?_) (by simp_all [entryWeight])
    by_cases same : n = node <;> simp_all
  · exact Prod.Lex.right _ (by simp_all [entryWeight])
  · rename_i unexpanded fresh
    have grown : ∀ n, decide (n ∈ visited ∨ n ∈ inProgress) = true →
        decide (n ∈ visited ∨ n ∈ insert node inProgress) = true := by
      intro n
      simp only [decide_eq_true_eq, Finset.mem_insert]
      tauto
    by_cases key : node ∈ adj.keys
    · exact Prod.Lex.left _ _ (adj.unmarked_lt grown key (by simpa using fresh) (by simp))
    · refine Prod.Lex.right' _ (adj.unmarked_le grown) ?_
      simp_all [pushPending, adj.outside node key, entryWeight]

/-- The stack starts as the closure in its listing, whose last member is popped first. -/
def reverseTopological (iteration : List String) : List String :=
  orderLoop adj closure [] ∅ ∅ (iteration.map fun n => (n, false)).reverse

/-- What any graph leaves true: no member of the closure is lost, none is listed twice. -/
structure Covering (order : List String) (visited inProgress : Finset String) (stack : List (String × Bool)) :
    Prop where
  inside : ∀ n b, (n, b) ∈ stack → n ∈ closure
  covered : ∀ n ∈ closure, n ∈ visited ∨ ∃ b, (n, b) ∈ stack
  within : ∀ n ∈ visited, n ∈ closure
  listed : ∀ n, n ∈ order ↔ n ∈ visited
  once : order.Nodup
  gray : ∀ n ∈ inProgress, (n, true) ∈ stack

/-- What holds of the expanded nodes on the stack, and of the order as far as it stands. -/
structure Layered (order : List String) (visited inProgress : Finset String) (stack : List (String × Bool)) :
    Prop where
  above : stack.Pairwise fun upper lower => lower.2 = true → adj.Below lower.1 upper.1
  pending : ∀ n c, (n, true) ∈ stack → c ∈ adj.children n → c ∈ closure →
    c ∈ visited ∨ c ∈ inProgress ∨ [(c, false), (n, true)].Sublist stack
  settled : ∀ n ∈ visited, ∀ c ∈ adj.children n, c ∈ closure → c ∈ visited
  placed : order.Pairwise fun earlier later => ¬ adj.Below earlier later

variable {adj closure}

section Covering

variable {order : List String} {visited inProgress : Finset String} {stack : List (String × Bool)} {node : String}

theorem mem_pushPending (n : String) (b : Bool) :
    (n, b) ∈ pushPending adj closure node visited inProgress stack ↔
      (b = false ∧ n ∈ adj.children node ∧ n ∈ closure ∧ n ∉ visited ∧ n ∉ inProgress) ∨
        (n = node ∧ b = true) ∨ (n, b) ∈ stack := by
  simp only [pushPending, List.mem_append, List.mem_reverse, List.mem_map, List.mem_filter, decide_eq_true_eq,
    Prod.mk.injEq, List.mem_cons]
  constructor
  · rintro (⟨c, ⟨child, open_⟩, rfl, rfl⟩ | rest)
    · exact .inl ⟨rfl, child, open_⟩
    · exact .inr rest
  · rintro (⟨rfl, child, open_⟩ | rest)
    · exact .inl ⟨n, ⟨child, open_⟩, rfl, rfl⟩
    · exact .inr rest

theorem Covering.finish (covering : Covering closure order visited inProgress ((node, true) :: stack)) :
    Covering closure (if node ∈ visited then order else order ++ [node]) (insert node visited)
      (inProgress.erase node) stack where
  inside n b member := covering.inside n b (List.mem_cons_of_mem _ member)
  covered n member := by
    have kept := covering.covered n member
    simp only [List.mem_cons, Prod.mk.injEq, Finset.mem_insert] at kept ⊢
    grind
  within n member := by
    rcases Finset.mem_insert.mp member with rfl | member
    · exact covering.inside n true List.mem_cons_self
    · exact covering.within n member
  listed n := by
    have listed := covering.listed n
    split <;> simp only [List.mem_append, List.mem_singleton, Finset.mem_insert] <;> grind
  once := by
    split
    · exact covering.once
    · rename_i fresh
      rw [← covering.listed] at fresh
      exact List.concat_eq_append ▸ List.Nodup.concat fresh covering.once
  gray n member := by
    obtain ⟨other, member⟩ := Finset.mem_erase.mp member
    exact (List.mem_cons.mp (covering.gray n member)).resolve_left (by simp [other])

theorem Covering.skip (covering : Covering closure order visited inProgress ((node, false) :: stack))
    (seen : node ∈ visited ∨ node ∈ inProgress) : Covering closure order visited inProgress stack where
  inside n b member := covering.inside n b (List.mem_cons_of_mem _ member)
  covered n member := by
    have kept := covering.covered n member
    have waiting := covering.gray node
    simp only [List.mem_cons, Prod.mk.injEq] at kept waiting
    grind
  within := covering.within
  listed := covering.listed
  once := covering.once
  gray n member := (List.mem_cons.mp (covering.gray n member)).resolve_left (by simp)

theorem Covering.expand (covering : Covering closure order visited inProgress ((node, false) :: stack)) :
    Covering closure order visited (insert node inProgress)
      (pushPending adj closure node visited (insert node inProgress) stack) where
  inside n b member := by
    rcases (mem_pushPending n b).mp member with ⟨_, _, kept, _⟩ | ⟨rfl, _⟩ | member
    · exact kept
    · exact covering.inside n false List.mem_cons_self
    · exact covering.inside n b (List.mem_cons_of_mem _ member)
  covered n member := by
    rcases covering.covered n member with kept | ⟨b, kept⟩
    · exact .inl kept
    · simp only [mem_pushPending]
      rcases List.mem_cons.mp kept with same | kept
      · exact .inr ⟨true, .inr (.inl ⟨(Prod.mk.inj same).1, rfl⟩)⟩
      · exact .inr ⟨b, .inr (.inr kept)⟩
  within := covering.within
  listed := covering.listed
  once := covering.once
  gray n member := by
    rw [mem_pushPending]
    rcases Finset.mem_insert.mp member with rfl | member
    · exact .inr (.inl ⟨rfl, rfl⟩)
    · exact .inr (.inr ((List.mem_cons.mp (covering.gray n member)).resolve_left (by simp)))

end Covering

section Layered

variable {order : List String} {visited inProgress : Finset String} {stack : List (String × Bool)} {node : String}

theorem Layered.skip (layered : Layered adj closure order visited inProgress ((node, false) :: stack))
    (seen : node ∈ visited ∨ node ∈ inProgress) :
    Layered adj closure order visited inProgress stack where
  above := layered.above.of_cons
  pending n c expanded child kept := by
    rcases layered.pending n c (List.mem_cons_of_mem _ expanded) child kept with done | done | waits
    · exact .inl done
    · exact .inr (.inl done)
    · by_cases same : c = node
      · exact same ▸ seen.imp_right .inl
      · exact .inr (.inr (waits.of_cons_of_ne (by simp [same])))
  settled := layered.settled
  placed := layered.placed

theorem Layered.expand (layered : Layered adj closure order visited inProgress ((node, false) :: stack)) :
    Layered adj closure order visited (insert node inProgress)
      (pushPending adj closure node visited (insert node inProgress) stack) where
  above := by
    obtain ⟨below, rest⟩ := List.pairwise_cons.mp layered.above
    refine List.pairwise_append.mpr ⟨?_, List.pairwise_cons.mpr ⟨below, rest⟩, ?_⟩
    · refine List.pairwise_reverse.mpr (List.pairwise_map.mpr (List.pairwise_of_forall ?_))
      simp
    · intro upper pushed lower member expanded
      simp only [List.mem_reverse, List.mem_map, List.mem_filter] at pushed
      obtain ⟨c, ⟨child, _⟩, rfl⟩ := pushed
      rcases List.mem_cons.mp member with rfl | member
      · exact .single child
      · exact (below lower member expanded).tail child
  pending n c expanded child kept := by
    rcases (mem_pushPending n true).mp expanded with ⟨absurd_, _⟩ | ⟨rfl, _⟩ | expanded
    · cases absurd_
    · by_cases open_ : c ∈ visited ∨ c ∈ insert n inProgress
      · exact open_.imp_right .inl
      · rw [not_or] at open_
        refine .inr (.inr (show List.Sublist ([(c, false)] ++ [(n, true)]) _ from List.Sublist.append ?_ ?_))
        · rw [List.singleton_sublist, List.mem_reverse, List.mem_map]
          exact ⟨c, List.mem_filter.mpr ⟨child, decide_eq_true ⟨kept, open_⟩⟩, rfl⟩
        · simp
    · rcases layered.pending n c (List.mem_cons_of_mem _ expanded) child kept with done | done | waits
      · exact .inl done
      · exact .inr (.inl (Finset.mem_insert_of_mem done))
      · by_cases same : c = node
        · exact .inr (.inl (same ▸ Finset.mem_insert_self _ _))
        · have below := waits.of_cons_of_ne (by simp [same])
          exact .inr (.inr ((below.trans (List.sublist_cons_self _ _)).trans (List.sublist_append_right _ _)))
  settled := layered.settled
  placed := layered.placed

section Acyclic

variable (acyclic : ∀ n ∈ closure, ¬ adj.Below n n)

include acyclic

theorem Layered.ready (layered : Layered adj closure order visited inProgress ((node, true) :: stack))
    (covering : Covering closure order visited inProgress ((node, true) :: stack)) :
    ∀ c ∈ adj.children node, c ∈ closure → c ∈ visited := by
  intro c child kept
  have inside := covering.inside node true List.mem_cons_self
  have above := (List.pairwise_cons.mp layered.above).1
  rcases layered.pending node c List.mem_cons_self child kept with done | gray | waits
  · exact done
  · rcases List.mem_cons.mp (covering.gray c gray) with same | under
    · have loop : adj.Below node node := .single ((Prod.mk.inj same).1 ▸ child)
      exact absurd loop (acyclic node inside)
    · have loop : adj.Below c c := (above (c, true) under rfl).tail child
      exact absurd loop (acyclic c kept)
  · have under : (node, true) ∈ stack := (waits.of_cons_of_ne (by simp)).mem (by simp)
    exact absurd (above (node, true) under rfl) (acyclic node inside)

theorem Layered.finish (layered : Layered adj closure order visited inProgress ((node, true) :: stack))
    (covering : Covering closure order visited inProgress ((node, true) :: stack))
    (closed : ∀ n ∈ closure, ∀ c ∈ adj.children n, c ∈ closure) :
    Layered adj closure (if node ∈ visited then order else order ++ [node])
      (insert node visited) (inProgress.erase node) stack where
  above := layered.above.of_cons
  pending n c expanded child kept := by
    rcases layered.pending n c (List.mem_cons_of_mem _ expanded) child kept with done | done | waits
    · exact .inl (Finset.mem_insert_of_mem done)
    · by_cases same : c = node
      · exact .inl (same ▸ Finset.mem_insert_self _ _)
      · exact .inr (.inl (Finset.mem_erase.mpr ⟨same, done⟩))
    · exact .inr (.inr (waits.of_cons_of_ne (by simp)))
  settled n member c child kept := by
    rcases Finset.mem_insert.mp member with rfl | member
    · exact Finset.mem_insert_of_mem (layered.ready acyclic covering c child kept)
    · exact Finset.mem_insert_of_mem (layered.settled n member c child kept)
  placed := by
    split
    · exact layered.placed
    · rename_i fresh
      refine List.pairwise_append.mpr ⟨layered.placed, List.pairwise_singleton _ _, ?_⟩
      intro earlier listed later last below
      rw [List.mem_singleton.mp last] at below
      have kept : ∀ n m, adj.Edge n m → n ∈ visited → m ∈ visited := fun n m edge member =>
        layered.settled n member m edge (closed n (covering.within n member) m edge)
      exact fresh (adj.closed_of_below kept below ((covering.listed earlier).mp listed))

end Acyclic

end Layered

theorem orderLoop_keeps {kept : List String → Finset String → Finset String → List (String × Bool) → Prop}
    (finish : ∀ order visited inProgress node stack, kept order visited inProgress ((node, true) :: stack) →
      kept (if node ∈ visited then order else order ++ [node]) (insert node visited) (inProgress.erase node) stack)
    (skip : ∀ order visited inProgress node stack, kept order visited inProgress ((node, false) :: stack) →
      node ∈ visited ∨ node ∈ inProgress → kept order visited inProgress stack)
    (expand : ∀ order visited inProgress node stack, kept order visited inProgress ((node, false) :: stack) →
      kept order visited (insert node inProgress)
        (pushPending adj closure node visited (insert node inProgress) stack))
    (order : List String) (visited inProgress : Finset String) (stack : List (String × Bool))
    (start : kept order visited inProgress stack) :
    ∃ seen left, kept (orderLoop adj closure order visited inProgress stack) seen left [] := by
  fun_induction orderLoop adj closure order visited inProgress stack with
  | case1 order visited inProgress => exact ⟨visited, inProgress, start⟩
  | case2 order visited inProgress node stack seen ih =>
    have after := finish order visited inProgress node stack start
    rw [if_pos seen, Finset.insert_eq_self.mpr seen] at after
    exact ih after
  | case3 order visited inProgress node stack fresh ih =>
    have after := finish order visited inProgress node stack start
    rw [if_neg fresh] at after
    exact ih after
  | case4 order visited inProgress node expanded stack popped seen ih =>
    rw [Bool.not_eq_true] at popped
    exact ih (skip order visited inProgress node stack (popped ▸ start) seen)
  | case5 order visited inProgress node expanded stack popped fresh ih =>
    rw [Bool.not_eq_true] at popped
    exact ih (expand order visited inProgress node stack (popped ▸ start))

/-- A listing of a set, as an iterator gives it. -/
structure Iterates (iteration : List String) (members : Finset String) : Prop where
  once : iteration.Nodup
  all : ∀ n, n ∈ iteration ↔ n ∈ members

theorem covering_start {iteration : List String} (iterates : Iterates iteration closure) :
    Covering closure [] ∅ ∅ (iteration.map fun n => (n, false)).reverse where
  inside n b member := by
    rw [← iterates.all]
    simp_all
  covered n member := by
    rw [← iterates.all] at member
    exact .inr ⟨false, by simpa using member⟩
  within n member := absurd member (Finset.notMem_empty n)
  listed n := by simp
  once := List.nodup_nil
  gray n member := absurd member (Finset.notMem_empty n)

theorem layered_start (iteration : List String) :
    Layered adj closure [] ∅ ∅ (iteration.map fun n => (n, false)).reverse where
  above := List.pairwise_reverse.mpr (List.pairwise_map.mpr (List.pairwise_of_forall (by simp)))
  pending n c expanded := by simp at expanded
  settled n member := absurd member (Finset.notMem_empty n)
  placed := List.Pairwise.nil

theorem reverseTopological_members {iteration : List String} (iterates : Iterates iteration closure) :
    (reverseTopological adj closure iteration).Nodup ∧
      ∀ n, n ∈ reverseTopological adj closure iteration ↔ n ∈ closure := by
  obtain ⟨visited, _, covering⟩ := @orderLoop_keeps adj closure (Covering closure)
    (fun _ _ _ _ _ => Covering.finish) (fun _ _ _ _ _ => Covering.skip) (fun _ _ _ _ _ => Covering.expand)
    [] ∅ ∅ _ (covering_start iterates)
  refine ⟨covering.once, fun n => (covering.listed n).trans ⟨covering.within n, fun member => ?_⟩⟩
  simpa using covering.covered n member

theorem reverseTopological_placed {iteration : List String} (iterates : Iterates iteration closure)
    (closed : ∀ n ∈ closure, ∀ c ∈ adj.children n, c ∈ closure) (acyclic : ∀ n ∈ closure, ¬ adj.Below n n) :
    (reverseTopological adj closure iteration).Pairwise fun earlier later => ¬ adj.Below earlier later := by
  obtain ⟨_, _, _, layered⟩ := @orderLoop_keeps adj closure
    (fun order visited inProgress stack =>
      Covering closure order visited inProgress stack ∧ Layered adj closure order visited inProgress stack)
    (fun _ _ _ _ _ both => ⟨both.1.finish, both.2.finish acyclic both.1 closed⟩)
    (fun _ _ _ _ _ both seen => ⟨both.1.skip seen, both.2.skip seen⟩)
    (fun _ _ _ _ _ both => ⟨both.1.expand, both.2.expand⟩)
    [] ∅ ∅ _ ⟨covering_start iterates, layered_start iteration⟩
  exact layered.placed

end Order

section Rollback

variable (adj : Adjacency String)

/-- The order in which the dependents of a transaction are undone. -/
def rollbackOrder (root : String) (iteration : List String) : List String :=
  reverseTopological adj (dependentClosure adj root) iteration

/-- The closure is the set of the dependents; it is listed whole and without repeats, and with every dependent
first where nothing depends on itself. -/
theorem dependents_first (root : String) (iteration : List String)
    (iterates : Iterates iteration (dependentClosure adj root)) :
    (∀ n, n ∈ dependentClosure adj root ↔ adj.Reaches root n) ∧
      (rollbackOrder adj root iteration).Nodup ∧
      (∀ n, n ∈ rollbackOrder adj root iteration ↔ n ∈ dependentClosure adj root) ∧
      ((∀ n ∈ dependentClosure adj root, ¬ adj.Below n n) → ∀ n ∈ dependentClosure adj root, ∀ m, adj.Below n m →
        (rollbackOrder adj root iteration).idxOf m < (rollbackOrder adj root iteration).idxOf n) := by
  obtain ⟨once, members⟩ := @reverseTopological_members adj _ _ iterates
  refine ⟨mem_dependentClosure adj root, once, members, fun acyclic n member m below => ?_⟩
  have closed : ∀ n ∈ dependentClosure adj root, ∀ c ∈ adj.children n, c ∈ dependentClosure adj root :=
    fun _ member _ child => dependentClosure_closed adj member child
  have dependent : m ∈ dependentClosure adj root :=
    adj.closed_of_below (fun _ _ edge member => closed _ member _ edge) below member
  have placed := reverseTopological_placed iterates closed acyclic
  have here := List.idxOf_lt_length_of_mem ((members n).mpr member)
  have there := List.idxOf_lt_length_of_mem ((members m).mpr dependent)
  rw [List.pairwise_iff_getElem] at placed
  rcases Nat.lt_trichotomy ((rollbackOrder adj root iteration).idxOf m) ((rollbackOrder adj root iteration).idxOf n)
    with before | same | after
  · exact before
  · have equal : m = n := (List.idxOf_inj ((members m).mpr dependent)).mp same
    exact absurd (equal ▸ below) (acyclic n member)
  · have wrong := placed _ _ here there after
    rw [List.getElem_idxOf here, List.getElem_idxOf there] at wrong
    exact absurd below wrong

-- Two dependents share one of their own.
def diamond : Adjacency String :=
  loadEdges [⟨"root", "left"⟩, ⟨"root", "right"⟩, ⟨"left", "leaf"⟩, ⟨"right", "leaf"⟩]

theorem diamond_closure : dependentClosure diamond "root" = {"left", "leaf", "right", "root"} := by
  simp [dependentClosure, closureLoop, pushChildren, diamond, loadEdges]

theorem diamond_iterates : Iterates ["leaf", "root", "left", "right"] (dependentClosure diamond "root") where
  once := by decide
  all n := by
    rw [diamond_closure]
    simp
    tauto

theorem diamond_acyclic (n : String) : ¬ diamond.Below n n := by
  refine diamond.not_below_of_rank (fun n => if n = "root" then 2 else if n = "leaf" then 0 else 1) ?_ n
  intro n m edge
  simp only [Adjacency.Edge, diamond, loadEdges, List.mem_map, List.mem_filter, List.mem_cons, List.not_mem_nil,
    or_false, decide_eq_true_eq] at edge
  obtain ⟨row, ⟨rfl | rfl | rfl | rfl, rfl⟩, rfl⟩ := edge <;> decide

theorem diamond_undone :
    (rollbackOrder diamond "root" ["leaf", "root", "left", "right"]).Nodup ∧
      (rollbackOrder diamond "root" ["leaf", "root", "left", "right"]).idxOf "leaf" <
        (rollbackOrder diamond "root" ["leaf", "root", "left", "right"]).idxOf "root" := by
  obtain ⟨reached, once, _, first⟩ := dependents_first diamond "root" _ diamond_iterates
  have below : diamond.Below "root" "leaf" := .tail (.single (show "left" ∈ diamond.children "root" by decide))
    (show "leaf" ∈ diamond.children "left" by decide)
  exact ⟨once, first (fun n _ => diamond_acyclic n) "root" ((reached _).mpr .refl) "leaf" below⟩

end Rollback

end Soshal.Sync
