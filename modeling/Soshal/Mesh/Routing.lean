import Soshal.Mesh.Transport

/-! The Reticulum path table, with its times as 64-bit numbers and what its updates answer.

An update counts a route as expired from the second after its expiry on, pruning in
that second already. In between a table that was pruned first accepts updates that
it refuses otherwise. As long as no expiry overflows, the table is that of the nodes,
where times are natural numbers.
-/

set_option autoImplicit false

namespace Soshal.Mesh.Routing

open Library

structure PathEntry where
  destination : ReticulumAddress
  nextHop : ReticulumAddress
  hopCount : UInt8
  expiresAt : UInt64
  deriving DecidableEq

structure PathTable where
  routes : Table ReticulumAddress PathEntry

structure RouteUpdate where
  destination : ReticulumAddress
  nextHop : ReticulumAddress
  hopCount : UInt8
  nowSecs : UInt64

/-- When a route that is taken up now expires; the sum is checked and aborts. -/
def expiryFrom (nowSecs : UInt64) : Option UInt64 :=
  if nowSecs.toNat + defaultRouteTtlSecs < 2 ^ 64 then some (UInt64.ofNat (nowSecs.toNat + defaultRouteTtlSecs))
  else none

def RouteUpdate.entry (u : RouteUpdate) (expiresAt : UInt64) : PathEntry :=
  ⟨u.destination, u.nextHop, u.hopCount, expiresAt⟩

/-- The update comes from the route's own next hop, or is as short, or the route has expired. -/
def PathEntry.yields (existing : PathEntry) (u : RouteUpdate) : Bool :=
  decide (existing.nextHop = u.nextHop ∨ u.hopCount ≤ existing.hopCount ∨ existing.expiresAt < u.nowSecs)

variable (t : PathTable)

namespace PathTable

def new : PathTable := ⟨Table.empty⟩

def len : Nat := t.routes.rows.length

def getRoute (destination : ReticulumAddress) : Option PathEntry := t.routes.find? destination

def pruneExpired (nowSecs : UInt64) : PathTable :=
  ⟨t.routes.delete fun _ entry => !decide (entry.expiresAt > nowSecs)⟩

/-- The table after an update and whether it is accepted; `none` when the expiry overflows. -/
def updateRoute (u : RouteUpdate) : Option (PathTable × Bool) :=
  (expiryFrom u.nowSecs).map fun expiresAt =>
    match t.getRoute u.destination with
    | some existing =>
      if existing.yields u then
        (⟨t.routes.modify fun destination entry =>
          if destination = u.destination then
            { entry with nextHop := u.nextHop, hopCount := u.hopCount, expiresAt := expiresAt }
          else entry⟩, true)
      else (t, false)
    | none =>
      let t := if t.len ≥ maxPathTableRoutes then t.pruneExpired u.nowSecs else t
      if t.len ≥ maxPathTableRoutes then (t, false)
      else (⟨t.routes.insertIgnore u.destination (u.entry expiresAt)⟩, true)

end PathTable

inductive PathCall where
  | update (u : RouteUpdate)
  | prune (nowSecs : UInt64)

def PathCall.nowSecs : PathCall → UInt64
  | .update u => u.nowSecs
  | .prune nowSecs => nowSecs

namespace PathTable

/-- The table after a call. An update that aborts is the last call of a program, and the table it leaves is not looked
at. -/
def step : PathCall → PathTable
  | .update u => (t.updateRoute u).elim t Prod.fst
  | .prune nowSecs => t.pruneExpired nowSecs

structure WellFormed (t : PathTable) : Prop where
  capped : t.len ≤ maxPathTableRoutes
  own : ∀ destination entry, t.getRoute destination = some entry → entry.destination = destination

/-- A route that has not expired gives way only to one of its own next hop or with as few hops. -/
def KeepsLive (call : PathCall) : Prop :=
  ∀ destination before after, t.getRoute destination = some before → call.nowSecs ≤ before.expiresAt →
    (t.step call).getRoute destination = some after →
      after = before ∨ after.nextHop = before.nextHop ∨ after.hopCount ≤ before.hopCount

/-- An update is accepted alike when the table is pruned first. -/
def PruneAgnostic : PathCall → Prop
  | .update u => ((t.pruneExpired u.nowSecs).updateRoute u).map Prod.snd = (t.updateRoute u).map Prod.snd
  | .prune _ => True

/-- The update is for a route that expires this very second, and is longer and from another next hop. -/
def AtExpiry (u : RouteUpdate) : Prop :=
  ∃ existing, t.getRoute u.destination = some existing ∧ existing.expiresAt = u.nowSecs ∧
    existing.nextHop ≠ u.nextHop ∧ existing.hopCount < u.hopCount

/-- Nothing is updated in the second of its expiry that the update would not replace. -/
def Clear : PathCall → Prop
  | .update u => (expiryFrom u.nowSecs).isSome → ¬ t.AtExpiry u
  | .prune _ => True

theorem getRoute_prune (nowSecs : UInt64) (destination : ReticulumAddress) :
    (t.pruneExpired nowSecs).getRoute destination =
      (t.getRoute destination).filter fun entry => decide (entry.expiresAt > nowSecs) := by
  apply Option.ext
  intro entry
  simp only [getRoute, pruneExpired, Option.filter_eq_some_iff, Table.find?_eq_some, Table.delete, List.mem_filter,
    Bool.not_not]

theorem len_prune_le (nowSecs : UInt64) : (t.pruneExpired nowSecs).len ≤ t.len :=
  List.length_filter_le _ _

theorem len_prune_lt {t : PathTable} {nowSecs : UInt64} {destination : ReticulumAddress} {entry : PathEntry}
    (found : t.getRoute destination = some entry) (expired : entry.expiresAt ≤ nowSecs) :
    (t.pruneExpired nowSecs).len < t.len := by
  have member := Table.find?_eq_some.mp found
  refine List.length_filter_lt_length_iff_exists.mpr ⟨(destination, entry), member, ?_⟩
  simpa using expired

theorem prune_prune (nowSecs : UInt64) : (t.pruneExpired nowSecs).pruneExpired nowSecs = t.pruneExpired nowSecs := by
  simp only [pruneExpired, PathTable.mk.injEq]
  apply Table.ext_rows
  simp only [Table.delete, List.filter_filter, Bool.and_self]

theorem updateRoute_cases {t after : PathTable} {u : RouteUpdate} {accepted : Bool}
    (updated : t.updateRoute u = some (after, accepted)) :
    ∃ expiresAt, expiryFrom u.nowSecs = some expiresAt ∧
      ((∃ existing, t.getRoute u.destination = some existing ∧ accepted = existing.yields u ∧
          after.len = t.len ∧ ∀ destination, after.getRoute destination =
            if existing.yields u ∧ destination = u.destination then
              some ⟨existing.destination, u.nextHop, u.hopCount, expiresAt⟩
            else t.getRoute destination) ∨
        t.getRoute u.destination = none ∧ ∃ room, (room = t ∨ room = t.pruneExpired u.nowSecs) ∧
          (accepted = true → room.len < maxPathTableRoutes ∧ after.len = room.len + 1 ∧
            ∀ destination, after.getRoute destination =
              if destination = u.destination then some (u.entry expiresAt) else room.getRoute destination) ∧
          (accepted = false → after = room)) := by
  unfold updateRoute at updated
  obtain ⟨expiresAt, expiry, done⟩ := Option.map_eq_some_iff.mp updated
  refine ⟨expiresAt, expiry, ?_⟩
  cases found : t.getRoute u.destination with
  | some existing =>
    -- The entry is rewritten in its place, or the table stays.
    left
    simp only [found] at done
    refine ⟨existing, rfl, ?_⟩
    split at done
    · rename_i yields
      cases done
      refine ⟨yields.symm, by simp [len, Table.modify], ?_⟩
      intro destination
      simp only [getRoute, Table.find?_modify]
      by_cases same : destination = u.destination
      · subst same
        have row : t.routes.find? u.destination = some existing := found
        simp [row, yields]
      · simp [same]
    · rename_i stays
      cases done
      refine ⟨by simpa using stays, rfl, ?_⟩
      intro destination
      rw [if_neg (by simp [stays])]
  | none =>
    -- A full table is pruned; what is left takes the route or is full still.
    right
    simp only [found] at done
    refine ⟨rfl, if t.len ≥ maxPathTableRoutes then t.pruneExpired u.nowSecs else t, ?_, ?_⟩
    · split
      · exact .inr rfl
      · exact .inl rfl
    generalize room_eq : (if t.len ≥ maxPathTableRoutes then t.pruneExpired u.nowSecs else t) = room at done ⊢
    have absent : room.getRoute u.destination = none := by
      rw [← room_eq]
      split
      · rw [getRoute_prune, found, Option.filter_none]
      · exact found
    split at done
    · cases done
      exact ⟨fun taken => absurd taken Bool.false_ne_true, fun _ => rfl⟩
    · rename_i space
      cases done
      refine ⟨fun _ => ⟨Nat.not_le.mp space, ?_, ?_⟩, fun refused => absurd refused.symm Bool.false_ne_true⟩
      · have missing : u.destination ∉ room.routes.keys := Table.find?_eq_none.mp absent
        simp only [len, Table.insertIgnore, Table.upsert, dif_neg missing, List.length_append, List.length_singleton]
      · intro destination
        have row : room.routes.find? u.destination = none := absent
        simp only [getRoute, Table.find?_insertIgnore]
        by_cases same : destination = u.destination
        · simp [same, row]
        · simp [same]

theorem wellFormed_new : new.WellFormed where
  capped := Nat.zero_le _
  own := nofun

theorem WellFormed.prune {t : PathTable} (formed : t.WellFormed) (nowSecs : UInt64) :
    (t.pruneExpired nowSecs).WellFormed where
  capped := (t.len_prune_le nowSecs).trans formed.capped
  own := by
    intro destination entry found
    rw [getRoute_prune] at found
    exact formed.own destination entry (Option.filter_eq_some_iff.mp found).1

theorem WellFormed.update {t after : PathTable} (formed : t.WellFormed) {u : RouteUpdate} {accepted : Bool}
    (updated : t.updateRoute u = some (after, accepted)) : after.WellFormed := by
  obtain ⟨expiresAt, -, ⟨existing, found, -, length, routes⟩ | ⟨-, room, rooms, inserted, refused⟩⟩ :=
    updateRoute_cases updated
  · refine ⟨length ▸ formed.capped, ?_⟩
    intro destination entry stored
    rw [routes] at stored
    split at stored
    · -- The rewritten entry keeps its destination, which was its key before.
      rename_i replaced
      cases stored
      rw [replaced.2]
      exact formed.own u.destination existing found
    · exact formed.own destination entry stored
  · have roomy : room.WellFormed := by
      obtain rfl | rfl := rooms
      · exact formed
      · exact formed.prune u.nowSecs
    cases accepted with
    | false => exact refused rfl ▸ roomy
    | true =>
      obtain ⟨space, length, routes⟩ := inserted rfl
      refine ⟨by omega, ?_⟩
      intro destination entry stored
      rw [routes] at stored
      split at stored
      · rename_i same
        cases stored
        exact same.symm
      · exact roomy.own destination entry stored

theorem WellFormed.step {t : PathTable} (formed : t.WellFormed) (call : PathCall) : (t.step call).WellFormed := by
  cases call with
  | prune nowSecs => exact formed.prune nowSecs
  | update u =>
    cases updated : t.updateRoute u with
    | none => simpa [PathTable.step, updated] using formed
    | some result => simpa [PathTable.step, updated] using formed.update updated

theorem keepsLive_prune (nowSecs : UInt64) {destination : ReticulumAddress} {before after : PathEntry}
    (found : t.getRoute destination = some before)
    (kept : (t.pruneExpired nowSecs).getRoute destination = some after) : after = before := by
  rw [getRoute_prune, found, Option.filter_eq_some_iff] at kept
  exact (Option.some.inj kept.1).symm

theorem keepsLive (call : PathCall) : t.KeepsLive call := by
  intro destination before after found live stored
  cases call with
  | prune nowSecs => exact .inl (keepsLive_prune t nowSecs found stored)
  | update u =>
    cases updated : t.updateRoute u with
    | none =>
      simp only [step, updated, Option.elim_none, found, Option.some.injEq] at stored
      exact .inl stored.symm
    | some result =>
      obtain ⟨table, accepted⟩ := result
      simp only [step, updated, Option.elim_some] at stored
      obtain ⟨expiresAt, -, ⟨existing, present, -, -, routes⟩ | ⟨absent, room, rooms, inserted, refused⟩⟩ :=
        updateRoute_cases updated
      · rw [routes] at stored
        split at stored
        · rename_i replaced
          obtain ⟨yields, rfl⟩ := replaced
          cases stored
          rw [found, Option.some.injEq] at present
          subst present
          have not_expired : ¬ before.expiresAt < u.nowSecs := UInt64.not_lt.mpr live
          obtain same | short | expired := of_decide_eq_true yields
          · exact .inr (.inl same.symm)
          · exact .inr (.inr short)
          · exact absurd expired not_expired
        · rw [found, Option.some.injEq] at stored
          exact .inl stored.symm
      · -- The update is for a route that was not there, so this one can only have been pruned.
        have other : destination ≠ u.destination := by
          rintro rfl
          rw [found] at absent
          cases absent
        have in_room : room.getRoute destination = some after := by
          cases accepted with
          | false =>
            obtain rfl := refused rfl
            exact stored
          | true =>
            have row := (inserted rfl).2.2 destination
            rw [if_neg other] at row
            exact row.symm.trans stored
        obtain rfl | rfl := rooms
        · rw [found, Option.some.injEq] at in_room
          exact .inl in_room.symm
        · exact .inl (keepsLive_prune t u.nowSecs found in_room)

def accepts (u : RouteUpdate) : Bool :=
  match t.getRoute u.destination with
  | some existing => existing.yields u
  | none => decide ((if t.len ≥ maxPathTableRoutes then t.pruneExpired u.nowSecs else t).len < maxPathTableRoutes)

theorem updateRoute_accepts (u : RouteUpdate) :
    (t.updateRoute u).map Prod.snd = (expiryFrom u.nowSecs).map fun _ => t.accepts u := by
  rw [updateRoute, Option.map_map]
  congr 1
  funext expiresAt
  simp only [Function.comp_apply, accepts]
  cases t.getRoute u.destination with
  | some existing =>
    dsimp only
    split
    · rename_i yields
      exact yields.symm
    · rename_i stays
      simpa using stays
  | none =>
    dsimp only
    generalize (if t.len ≥ maxPathTableRoutes then t.pruneExpired u.nowSecs else t) = room
    split
    · rename_i full
      exact (decide_eq_false (Nat.not_lt.mpr full)).symm
    · rename_i space
      exact (decide_eq_true (Nat.not_le.mp space)).symm

theorem accepts_prune_of_absent {t : PathTable} {u : RouteUpdate} (absent : t.getRoute u.destination = none) :
    (t.pruneExpired u.nowSecs).accepts u = t.accepts u := by
  have less := t.len_prune_le u.nowSecs
  simp only [accepts, getRoute_prune, absent, Option.filter_none, prune_prune, ite_self]
  congr 1
  by_cases full : t.len ≥ maxPathTableRoutes
  · rw [if_pos full]
  · rw [if_neg full]
    exact propext (iff_of_true (by omega) (by omega))

theorem accepts_prune_iff {t : PathTable} (formed : t.WellFormed) (u : RouteUpdate) :
    (t.pruneExpired u.nowSecs).accepts u = t.accepts u ↔ ¬ t.AtExpiry u := by
  cases found : t.getRoute u.destination with
  | none =>
    simp only [accepts_prune_of_absent found, AtExpiry, found, reduceCtorEq, false_and, exists_false,
      not_false_eq_true]
  | some existing =>
    by_cases live : u.nowSecs < existing.expiresAt
    · -- The route outlives the pruning and is asked as before.
      have later : existing.expiresAt ≠ u.nowSecs := fun same => absurd live (by simp [same])
      have kept : (t.pruneExpired u.nowSecs).getRoute u.destination = some existing := by
        rw [getRoute_prune, found, Option.filter_some, if_pos (decide_eq_true live)]
      simp only [accepts, kept, found, AtExpiry, Option.some.injEq, true_iff, not_exists, not_and]
      rintro _ rfl same
      exact absurd same later
    · -- The route is pruned and its room taken; without pruning it has to yield.
      have expired : existing.expiresAt ≤ u.nowSecs := UInt64.not_lt.mp live
      have gone : (t.pruneExpired u.nowSecs).getRoute u.destination = none := by
        rw [getRoute_prune, found, Option.filter_some, if_neg (by simpa using expired)]
      have room : (t.pruneExpired u.nowSecs).accepts u = true := by
        have less := len_prune_lt found expired
        have capped := formed.capped
        simp only [accepts, gone, prune_prune, ite_self, decide_eq_true_eq]
        omega
      have yields : t.accepts u = existing.yields u := by simp only [accepts, found]
      rw [room, yields, eq_comm]
      simp only [PathEntry.yields, decide_eq_true_eq, AtExpiry, found, Option.some.injEq, exists_eq_left', not_and,
        UInt8.not_lt]
      constructor
      · rintro (same | short | past) equal differ
        · exact absurd same differ
        · exact short
        · exact absurd past (by simp [equal])
      · intro otherwise
        by_cases same : existing.nextHop = u.nextHop
        · exact .inl same
        · obtain past | equal := UInt64.lt_or_eq_of_le expired
          · exact .inr (.inr past)
          · exact .inr (.inl (otherwise equal same))

theorem pruneAgnostic_iff {t : PathTable} (formed : t.WellFormed) (call : PathCall) :
    t.PruneAgnostic call ↔ t.Clear call := by
  cases call with
  | prune => exact Iff.rfl
  | update u =>
    simp only [PruneAgnostic, Clear, updateRoute_accepts]
    cases expiryFrom u.nowSecs with
    | none => simp
    | some expiresAt => simpa using accepts_prune_iff formed u

end PathTable

def PathEntry.natural (entry : PathEntry) : Mesh.PathEntry :=
  ⟨entry.destination, entry.nextHop, entry.hopCount, entry.expiresAt.toNat⟩

namespace PathTable

def natural : Mesh.PathTable := t.routes.mapValues PathEntry.natural

theorem length_natural : t.natural.rows.length = t.len := by
  simp only [natural, Table.mapValues, List.length_map, len]

theorem natural_prune (nowSecs : UInt64) :
    (t.pruneExpired nowSecs).natural = t.natural.pruneExpired nowSecs.toNat := by
  apply Table.ext_rows
  simp only [natural, Table.mapValues, pruneExpired, Table.delete, Mesh.PathTable.pruneExpired, List.filter_map]
  congr 2
  funext row
  simp only [Function.comp_apply, PathEntry.natural, Bool.not_not, gt_iff_lt, UInt64.lt_iff_toNat_lt]
  by_cases live : nowSecs.toNat < row.2.expiresAt.toNat
  · simp [live]
  · simp [live, Nat.not_lt.mp live]

theorem natural_update {t after : PathTable} {u : RouteUpdate} {accepted : Bool}
    (updated : t.updateRoute u = some (after, accepted)) :
    after.natural = t.natural.updateRoute u.destination u.nextHop u.hopCount u.nowSecs.toNat := by
  obtain ⟨expiresAt, expires, updated⟩ := Option.map_eq_some_iff.mp updated
  unfold expiryFrom at expires
  split at expires
  case isFalse => cases expires
  case isTrue fits =>
    have expiry : expiresAt.toNat = u.nowSecs.toNat + defaultRouteTtlSecs := by
      rw [← Option.some.inj expires]
      exact UInt64.toNat_ofNat_of_lt fits
    have row : t.natural.find? u.destination = (t.getRoute u.destination).map PathEntry.natural :=
      Table.find?_mapValues _ _ _
    unfold Mesh.PathTable.updateRoute
    cases found : t.getRoute u.destination with
    | some existing =>
      simp only [found, Option.map_some] at updated row
      simp only [row]
      have alike : existing.yields u = true ↔ existing.natural.nextHop = u.nextHop ∨
          u.hopCount ≤ existing.natural.hopCount ∨ existing.natural.expiresAt < u.nowSecs.toNat := by
        simp only [PathEntry.yields, decide_eq_true_eq, PathEntry.natural, UInt64.lt_iff_toNat_lt]
      split at updated
      · rename_i yields
        cases updated
        rw [if_pos (alike.mp yields)]
        have present : u.destination ∈ t.natural.keys := Table.mem_keys_iff.mpr ⟨_, row⟩
        rw [Table.upsert, dif_pos present]
        apply Table.ext_rows
        simp only [natural, Table.mapValues, Table.modify, List.map_map]
        refine List.map_congr_left fun pair member => ?_
        by_cases same : pair.1 = u.destination
        · -- The rewritten entry keeps its own destination, which is that of the one row found.
          have stored : t.getRoute u.destination = some pair.2 := by
            rw [← same]
            exact Table.find?_eq_some.mpr member
          rw [found, Option.some.injEq] at stored
          simp [same, stored, PathEntry.natural, expiry]
        · simp [same]
      · rename_i stays
        cases updated
        rw [if_neg (mt alike.mpr stays)]
    | none =>
      simp only [found, Option.map_none] at updated row
      simp only [row]
      have room : (if maxPathTableRoutes ≤ t.natural.rows.length then t.natural.pruneExpired u.nowSecs.toNat
          else t.natural) = (if t.len ≥ maxPathTableRoutes then t.pruneExpired u.nowSecs else t).natural := by
        rw [length_natural]
        split
        · exact (natural_prune t u.nowSecs).symm
        · rfl
      rw [room]
      have absent :
          (if t.len ≥ maxPathTableRoutes then t.pruneExpired u.nowSecs else t).getRoute u.destination = none := by
        split
        · rw [getRoute_prune, found, Option.filter_none]
        · exact found
      generalize (if t.len ≥ maxPathTableRoutes then t.pruneExpired u.nowSecs else t) = room at updated absent ⊢
      rw [length_natural]
      split at updated
      · rename_i full
        cases updated
        rw [if_pos full]
      · rename_i space
        cases updated
        rw [if_neg space]
        have missing : u.destination ∉ room.routes.keys := Table.find?_eq_none.mp absent
        have missing' : u.destination ∉ room.natural.keys := by rwa [natural, Table.keys_mapValues]
        rw [Table.upsert, dif_neg missing']
        apply Table.ext_rows
        simp [natural, Table.mapValues, Table.insertIgnore, Table.upsert, missing, RouteUpdate.entry,
          PathEntry.natural, expiry]

def naturalStep (t : Mesh.PathTable) : PathCall → Mesh.PathTable
  | .update u => t.updateRoute u.destination u.nextHop u.hopCount u.nowSecs.toNat
  | .prune nowSecs => t.pruneExpired nowSecs.toNat

/-- As long as no expiry overflows, the calls leave the table that the nodes would have. -/
theorem natural_run {t : PathTable} {calls : List PathCall}
    (fits : ∀ call ∈ calls, call.nowSecs.toNat + defaultRouteTtlSecs < 2 ^ 64) :
    (Runs.run step t calls).natural = Runs.run naturalStep t.natural calls := by
  induction calls generalizing t with
  | nil => rfl
  | cons call rest ih =>
    obtain ⟨first, later⟩ := List.forall_mem_cons.mp fits
    have stepped : (t.step call).natural = naturalStep t.natural call := by
      cases call with
      | update u =>
        have ends : u.nowSecs.toNat + defaultRouteTtlSecs < 2 ^ 64 := first
        obtain ⟨⟨after, accepted⟩, updated⟩ : ∃ result, t.updateRoute u = some result :=
          ⟨_, by rw [updateRoute, expiryFrom, if_pos ends]; rfl⟩
        rw [step, updated]
        exact natural_update updated
      | prune nowSecs => exact natural_prune t nowSecs
    rw [Runs.run_cons, ih later, stepped, Runs.run_cons]

end PathTable

def plainAddress (b : UInt8) : ReticulumAddress := ⟨List.replicate 16 b, List.length_replicate⟩

/-- The first route gives way to a shorter one and, once that has expired, to a longer one; pruning leaves only that. -/
def journey : List PathCall :=
  [.update ⟨plainAddress 1, plainAddress 2, 3, 1000⟩, .update ⟨plainAddress 4, plainAddress 2, 1, 1200⟩,
    .update ⟨plainAddress 1, plainAddress 3, 2, 1500⟩, .update ⟨plainAddress 1, plainAddress 2, 6, 8800⟩, .prune 9000]

theorem PathTable.natural_run_prune :
    (Runs.run step new journey).natural = Runs.run naturalStep new.natural journey ∧
      (Runs.run step new journey).routes.rows = [(plainAddress 1, ⟨plainAddress 1, plainAddress 2, 6, 16000⟩)] :=
  ⟨natural_run (by decide), by decide⟩

open Runs

/-- In every run the table is capped, holds each route under its own destination and keeps live routes from longer
ones of other next hops; updates are accepted alike after pruning exactly when none is for a route in the second of
its expiry that it would not replace. -/
theorem path_table_laws (calls : List PathCall) :
    Always PathTable.step PathTable.WellFormed .new calls ∧ Throughout PathTable.step PathTable.KeepsLive .new calls ∧
      (Throughout PathTable.step PathTable.PruneAgnostic .new calls ↔
        Throughout PathTable.step PathTable.Clear .new calls) := by
  have formed : Always PathTable.step PathTable.WellFormed .new calls :=
    always_of_invariant (fun _ call formed => formed.step call) PathTable.wellFormed_new
  refine ⟨formed, ?_, ?_⟩
  · rw [throughout_iff]
    intro done call rest _
    exact PathTable.keepsLive _ call
  · constructor
    · exact formed.throughout fun _ call formed => (PathTable.pruneAgnostic_iff formed call).mp
    · exact formed.throughout fun _ call formed => (PathTable.pruneAgnostic_iff formed call).mpr

/-- A route of two hops is learnt at second 1000 and one of four hops arrives from another next hop at second 8200: it
is refused, but accepted when the table is pruned in that second first. -/
theorem longer_route_at_expiry :
    (Runs.run PathTable.step .new [.update ⟨plainAddress 1, plainAddress 2, 2, 1000⟩]).accepts
        ⟨plainAddress 1, plainAddress 3, 4, 8200⟩ = false ∧
      (Runs.run PathTable.step .new [.update ⟨plainAddress 1, plainAddress 2, 2, 1000⟩, .prune 8200]).accepts
        ⟨plainAddress 1, plainAddress 3, 4, 8200⟩ = true ∧
      ¬ Throughout PathTable.step PathTable.PruneAgnostic .new
        [.update ⟨plainAddress 1, plainAddress 2, 2, 1000⟩, .update ⟨plainAddress 1, plainAddress 3, 4, 8200⟩] := by
  refine ⟨by decide, by decide, ?_⟩
  rintro ⟨-, agnostic, -⟩
  exact absurd agnostic (by unfold PathTable.PruneAgnostic; decide)

end Soshal.Mesh.Routing
