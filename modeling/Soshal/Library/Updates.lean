import Mathlib.Data.List.Basic

/-! Updates that may be repeated.

An update is settled in a state that it would not change. Updates that can be
repeated and that commute stay settled once they have run, whatever runs after them.
-/

set_option autoImplicit false

namespace Soshal.Library.Updates

variable {α σ : Type} (run : α → σ → σ)

def Settled (s : σ) (update : α) : Prop := run update s = s

def runAll (updates : List α) (s : σ) : σ := updates.foldl (fun s update => run update s) s

variable {run}

theorem runAll_of_settled {updates : List α} {s : σ} (settled : ∀ update ∈ updates, Settled run s update) :
    runAll run updates s = s := by
  induction updates with
  | nil => rfl
  | cons update rest ih =>
    have first : run update s = s := settled update List.mem_cons_self
    rw [runAll, List.foldl_cons, first]
    exact ih fun update member => settled update (List.mem_cons_of_mem _ member)

theorem runAll_same {updates : List α} {update : α} (repeats : ∀ s, run update (run update s) = run update s)
    (same : ∀ other ∈ updates, other = update) (some_ : updates ≠ []) (s : σ) :
    runAll run updates s = run update s := by
  cases updates with
  | nil => exact absurd rfl some_
  | cons first rest =>
    obtain rfl : first = update := same first List.mem_cons_self
    rw [runAll, List.foldl_cons]
    refine runAll_of_settled fun other member => ?_
    rw [same other (List.mem_cons_of_mem _ member)]
    exact repeats s

theorem Settled.after {s : σ} {kept update : α} (settled : Settled run s kept)
    (commute : run kept (run update s) = run update (run kept s)) : Settled run (run update s) kept := by
  rw [Settled, commute, settled]

theorem runAll_settles {updates : List α} {g : σ → Prop} (stays : ∀ update s, g s → g (run update s))
    (repeats : ∀ update s, run update (run update s) = run update s)
    (commute : ∀ first ∈ updates, ∀ second ∈ updates, ∀ s, g s →
      run first (run second s) = run second (run first s))
    {s : σ} (start : g s) : ∀ update ∈ updates, Settled run (runAll run updates s) update := by
  -- The updates that have run are the ones that stand before the rest of the list.
  suffices general : ∀ rest done : List α, (∀ update ∈ rest, update ∈ updates) → (∀ update ∈ done, update ∈ updates) →
      ∀ s, g s → (∀ update ∈ done, Settled run s update) →
      ∀ update, update ∈ done ∨ update ∈ rest → Settled run (runAll run rest s) update by
    intro update member
    exact general updates [] (fun _ member => member) (by simp) s start (by simp) update (.inr member)
  intro rest
  induction rest with
  | nil =>
    intro done _ _ s _ settled update member
    exact settled update (by simpa using member)
  | cons next rest ih =>
    intro done inRest inDone s start settled update member
    have here := inRest next List.mem_cons_self
    refine ih (next :: done) (fun update member => inRest update (List.mem_cons_of_mem _ member)) ?_
      (run next s) (stays next s start) ?_ update ?_
    · intro update member
      rcases List.mem_cons.mp member with rfl | member
      · exact here
      · exact inDone update member
    · intro update member
      rcases List.mem_cons.mp member with rfl | member
      · exact repeats update s
      · exact (settled update member).after (commute update (inDone update member) next here s start)
    · rcases member with member | member
      · exact .inl (List.mem_cons_of_mem _ member)
      · rcases List.mem_cons.mp member with rfl | member
        · exact .inl List.mem_cons_self
        · exact .inr member

end Soshal.Library.Updates
