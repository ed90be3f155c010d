import Mathlib.Data.ENat.Basic
import Mathlib.Data.Nat.Find

/-! Distances in a directed graph, as the number of edges of a shortest path.

Nothing is assumed of the graph: it is any relation, and a node that is not reached
is infinitely far.
-/

set_option autoImplicit false

namespace Soshal.Library

variable {α β : Type} (r : α → α → Prop)

/-- A path of so many edges. -/
inductive Path : Nat → α → α → Prop where
  | here (a : α) : Path 0 a a
  | further {n : Nat} {a b c : α} : Path n a b → r b c → Path (n + 1) a c

open Classical in
noncomputable def hops (a b : α) : ℕ∞ := if reached : ∃ n, Path r n a b then Nat.find reached else ⊤

variable {r}

theorem hops_eq_coe_iff {a b : α} {n : Nat} : hops r a b = n ↔ Path r n a b ∧ ∀ m < n, ¬ Path r m a b := by
  classical
  unfold hops
  split
  · rename_i reached
    rw [Nat.cast_inj, Nat.find_eq_iff]
  · rename_i unreached
    simp only [ENat.top_ne_natCast, false_iff]
    exact fun path => unreached ⟨n, path.1⟩

theorem hops_ne_top_iff {a b : α} : hops r a b ≠ ⊤ ↔ ∃ n, Path r n a b := by
  unfold hops
  split
  · rename_i reached
    simp [reached]
  · rename_i unreached
    simp [unreached]

theorem hops_le_of_path {a b : α} {n : Nat} (path : Path r n a b) : hops r a b ≤ n := by
  obtain ⟨m, exact⟩ := ENat.ne_top_iff_exists.mp (hops_ne_top_iff.mpr ⟨n, path⟩)
  rw [← exact, Nat.cast_le]
  exact Nat.not_lt.mp fun shorter => (hops_eq_coe_iff.mp exact.symm).2 n shorter path

theorem path_of_hops {a b : α} {n : Nat} (at_hops : hops r a b = n) : Path r n a b := (hops_eq_coe_iff.mp at_hops).1

@[simp] theorem hops_self (a : α) : hops r a a = 0 :=
  hops_eq_coe_iff.mpr ⟨.here a, fun _ less => absurd less (Nat.not_lt_zero _)⟩

theorem hops_eq_zero_iff {a b : α} : hops r a b = 0 ↔ a = b := by
  constructor
  · intro zero
    cases path_of_hops (n := 0) zero
    rfl
  · rintro rfl
    exact hops_self a

theorem hops_le_succ {a b c : α} {n : Nat} (near : hops r a b ≤ n) (edge : r b c) : hops r a c ≤ n + 1 := by
  obtain ⟨m, exact⟩ := ENat.ne_top_iff_exists.mp (ne_top_of_le_ne_top (ENat.natCast_ne_top n) near)
  rw [← exact, Nat.cast_le] at near
  refine (hops_le_of_path (.further (path_of_hops exact.symm) edge)).trans ?_
  exact_mod_cast Nat.succ_le_succ near

theorem exists_nearer {a c : α} {n : Nat} (at_hops : hops r a c = (n + 1 : Nat)) : ∃ b, hops r a b = n ∧ r b c := by
  obtain ⟨path, least⟩ := hops_eq_coe_iff.mp at_hops
  cases path with
  | @further _ _ b _ path edge =>
    refine ⟨b, hops_eq_coe_iff.mpr ⟨path, fun m shorter path => ?_⟩, edge⟩
    exact least (m + 1) (Nat.succ_lt_succ shorter) (.further path edge)

section Related

variable {s : β → β → Prop} {R : α → β → Prop}

theorem path_of_related (forth : ∀ a b x, R a x → r a b → ∃ y, R b y ∧ s x y) {n : Nat} {a b : α} {x : β}
    (path : Path r n a b) (start : R a x) : ∃ y, R b y ∧ Path s n x y := by
  induction path with
  | here => exact ⟨x, start, .here x⟩
  | further _ edge ih =>
    obtain ⟨y, related, path⟩ := ih start
    obtain ⟨z, next, below⟩ := forth _ _ y related edge
    exact ⟨z, next, .further path below⟩

theorem hops_of_related (forth : ∀ a b x, R a x → r a b → ∃ y, R b y ∧ s x y)
    (back : ∀ a x y, R a x → s x y → ∃ b, R b y ∧ r a b) (functional : ∀ a x y, R a x → R a y → x = y)
    (injective : ∀ a b x, R a x → R b x → a = b) {a b : α} {x y : β} (start : R a x) (target : R b y) :
    hops r a b = hops s x y := by
  have same : ∀ n, Path r n a b ↔ Path s n x y := by
    intro n
    constructor
    · intro path
      obtain ⟨y', related, image⟩ := path_of_related forth path start
      rwa [functional b y y' target related]
    · intro path
      obtain ⟨b', related, source⟩ :=
        @path_of_related β α s r (fun x a => R a x) (fun x y a => back a x y) n x y a path start
      rwa [injective b b' y target related]
  cases far : hops s x y with
  | top =>
    refine not_not.mp fun reached => hops_ne_top_iff.mpr ?_ far
    obtain ⟨n, path⟩ := hops_ne_top_iff.mp reached
    exact ⟨n, (same n).mp path⟩
  | coe n =>
    obtain ⟨path, least⟩ := hops_eq_coe_iff.mp far
    exact hops_eq_coe_iff.mpr ⟨(same n).mpr path, fun m shorter path => least m shorter ((same m).mp path)⟩

end Related

/-- An order in which a search may visit what is reached: each node once, and the nearer ones first. -/
structure BreadthFirst (r : α → α → Prop) (root : α) (order : List α) : Prop where
  nodup : order.Nodup
  reached : ∀ v, v ∈ order ↔ hops r root v ≠ ⊤
  levels : order.Pairwise fun u v => hops r root u ≤ hops r root v

theorem BreadthFirst.before {root u v : α} {done rest : List α} (search : BreadthFirst r root (done ++ u :: rest))
    (nearer : hops r root v < hops r root u) : v ∈ done := by
  have member := (search.reached v).mpr nearer.ne_top
  rw [List.mem_append, List.mem_cons] at member
  obtain earlier | rfl | later := member
  · exact earlier
  · exact absurd nearer (lt_irrefl _)
  · have sorted := (List.pairwise_append.mp search.levels).2.1
    exact absurd nearer (not_lt.mpr (List.rel_of_pairwise_cons sorted later))

end Soshal.Library
