import Mathlib.Data.List.Perm.Basic
import Soshal.Library.Schedules
import Soshal.Network.BlobFetch

/-! Every schedule of a blob fetch.

No index is lost or doubled between the cursor, the workers, the slot and the
reorder buffer, so a fetch that returns has taken the chunks in manifest order.
It returns unless the consumer leaves while two more bodies are on their way: then
a worker can wait for the slot for ever.
-/

set_option autoImplicit false

namespace Soshal.Network.BlobFetch

open Library
open Library.Schedules (Reaches CanMove)
open Media
open Swarm (Reply maxBlobFetchBytes)

/-! ## What holds in every schedule -/

def Worker.index : Worker → Option Nat
  | .fetching idx => some idx
  | .sending idx _ => some idx
  | _ => none

/-- How far the consumer has come when it has taken the first `taken` bodies. -/
inductive Progress (job : Job) (out : Option Bytes) (store : ChunkStore) (assembly : Job.Assembly) :
    Nat → Consumer → Prop where
  | taking {next : Nat} : next ≤ job.total → job.absorbUpTo store next = (assembly, .ok ()) →
      Progress job out store assembly next (.taking next)
  | through : job.absorbUpTo store job.total = (assembly, .ok ()) →
      Progress job out store assembly job.total (.left (.ok ()))
  | failed {k : Nat} {e : String} : k < job.total → (job.absorbUpTo store k).2 = .ok () →
      job.absorbUpTo store (k + 1) = (assembly, .error e) →
      Progress job out store assembly (k + 1) (.left (.error e))
  | returned {taken : Nat} : Progress job out store assembly taken (.returned (job.expected out store))

namespace Fetch

/-- Every index that was claimed and not yet taken by the consumer. -/
def inFlight (s : Fetch) : List Nat :=
  s.workers.filterMap Worker.index ++ s.slot.toList.map Prod.fst ++ s.pending.keys

/-- Bodies travel under their own index, and no index is lost or doubled. -/
structure Inv (job : Job) (out : Option Bytes) (store : ChunkStore) (s : Fetch) (taken : Nat) : Prop where
  admitted : job.admitted = .ok ()
  staffed : s.workers ≠ []
  claimed : taken ≤ min s.cursor job.total
  flight : s.inFlight.Perm (List.range' taken (min s.cursor job.total - taken))
  sent : ∀ idx result, .sending idx result ∈ s.workers → result = job.results idx
  slotted : ∀ idx result, s.slot = some (idx, result) → result = job.results idx
  buffered : ∀ idx result, s.pending.find? idx = some result → result = job.results idx
  exhausted : .stopped ∈ s.workers → job.total ≤ s.cursor
  requested : s.requested = List.range (min s.cursor job.total)
  progress : Progress job out store s.assembly taken s.consumer

variable {job : Job} {out : Option Bytes} {store : ChunkStore} {s : Fetch} {taken : Nat}

theorem others_of_set {workers : List Worker} {w : Nat} {before : Worker} (here : workers[w]? = some before) :
    ∃ rest : List Worker, workers.Perm (before :: rest) ∧ ∀ after, (workers.set w after).Perm (after :: rest) := by
  obtain ⟨small, rfl⟩ := List.getElem?_eq_some_iff.mp here
  exact ⟨workers.eraseIdx w, (List.getElem_cons_eraseIdx_perm small).symm, List.set_perm_cons_eraseIdx small⟩

theorem inFlight_become {w : Nat} {before : Worker} (here : s.workers[w]? = some before) :
    ∃ rest : List Nat, s.inFlight.Perm (before.index.toList ++ rest) ∧
      ∀ after, (s.become w after).inFlight.Perm (after.index.toList ++ rest) := by
  obtain ⟨rest, old, new⟩ := others_of_set here
  have first : ∀ worker : Worker, (worker :: rest).filterMap Worker.index =
      worker.index.toList ++ rest.filterMap Worker.index := by
    intro worker
    cases index : worker.index <;> simp [index]
  refine ⟨rest.filterMap Worker.index ++ (s.slot.toList.map Prod.fst ++ s.pending.keys), ?_, fun after => ?_⟩
  · rw [inFlight, List.append_assoc, ← List.append_assoc before.index.toList, ← first]
    exact (old.filterMap Worker.index).append_right _
  · rw [inFlight, List.append_assoc, ← List.append_assoc after.index.toList, ← first]
    exact ((new after).filterMap Worker.index).append_right _

theorem mem_become {w : Nat} {worker other : Worker} (member : other ∈ (s.become w worker).workers) :
    other ∈ s.workers ∨ other = worker := List.mem_or_eq_of_mem_set member

section

variable (inv : Inv job out store s taken)
include inv

theorem staffed_become (w : Nat) (worker : Worker) : (s.become w worker).workers ≠ [] := by
  intro empty
  have := congrArg List.length empty
  rw [become, List.length_set, List.length_nil] at this
  exact inv.staffed (List.length_eq_zero_iff.mp this)

theorem Inv.stops {w : Nat} (here : s.workers[w]? = some .claiming) (spent : s.cursor ≥ job.total)
    : Inv job out store { s.become w .stopped with cursor := s.cursor + 1 } taken := by
  have same : min (s.cursor + 1) job.total = min s.cursor job.total := by omega
  obtain ⟨rest, old, new⟩ := inFlight_become here
  refine ⟨inv.admitted, staffed_become inv w _, same ▸ inv.claimed, ?_, ?_, inv.slotted, inv.buffered,
    fun _ => Nat.le_succ_of_le spent, same ▸ inv.requested, inv.progress⟩
  · exact ((new .stopped).trans old.symm).trans (same ▸ inv.flight)
  · intro idx result member
    obtain before | same := mem_become member
    · exact inv.sent idx result before
    · cases same

theorem Inv.claims {w : Nat} (here : s.workers[w]? = some .claiming) (left : ¬ s.cursor ≥ job.total)
    : Inv job out store
      { s.become w (.fetching s.cursor) with cursor := s.cursor + 1, requested := s.requested ++ [s.cursor] } taken := by
  have before : min s.cursor job.total = s.cursor := by omega
  have after : min (s.cursor + 1) job.total = s.cursor + 1 := by omega
  have claimed := inv.claimed
  obtain ⟨rest, old, new⟩ := inFlight_become here
  refine ⟨inv.admitted, staffed_become inv w _, ?_, ?_, ?_, inv.slotted, inv.buffered, ?_, ?_, inv.progress⟩
  · dsimp only
    omega
  · have flight := inv.flight
    rw [before] at flight claimed
    have length : s.cursor + 1 - taken = s.cursor - taken + 1 := by omega
    have last : taken + (s.cursor - taken) = s.cursor := by omega
    dsimp only
    rw [after, length, List.range'_1_concat, last]
    have grown : (s.become w (.fetching s.cursor)).inFlight.Perm (s.cursor :: s.inFlight) :=
      (new (.fetching s.cursor)).trans (old.symm.cons s.cursor)
    exact grown.trans ((flight.cons s.cursor).trans (List.perm_append_singleton _ _).symm)
  · intro idx result member
    obtain before | same := mem_become member
    · exact inv.sent idx result before
    · cases same
  · intro member
    obtain before | same := mem_become member
    · exact absurd (inv.exhausted before) left
    · cases same
  · dsimp only
    rw [after, inv.requested, before, List.range_succ]

theorem Inv.fetches {w idx : Nat} (here : s.workers[w]? = some (.fetching idx)) :
    Inv job out store (s.become w (.sending idx (job.results idx))) taken := by
  obtain ⟨rest, old, new⟩ := inFlight_become here
  refine ⟨inv.admitted, staffed_become inv w _, inv.claimed, ((new (.sending idx _)).trans old.symm).trans inv.flight,
    ?_, inv.slotted, inv.buffered, ?_, inv.requested, inv.progress⟩
  · intro other result member
    obtain before | same := mem_become member
    · exact inv.sent other result before
    · cases same
      rfl
  · intro member
    obtain before | same := mem_become member
    · exact inv.exhausted before
    · cases same

theorem Inv.sends {w idx : Nat} {result : Except String Bytes} (here : s.workers[w]? = some (.sending idx result))
    (free : s.slot = none) :
    Inv job out store { s.become w .claiming with slot := some (idx, result) } taken := by
  obtain ⟨rest, old, new⟩ := inFlight_become here
  have moved : ({ s.become w .claiming with slot := some (idx, result) } : Fetch).inFlight.Perm
      (idx :: (s.become w .claiming).inFlight) := by
    simp only [inFlight, become, free, Option.toList_some, Option.toList_none, List.map_cons, List.map_nil,
      List.append_nil, List.append_assoc, List.singleton_append]
    exact List.perm_middle
  refine ⟨inv.admitted, staffed_become inv w _, inv.claimed, ?_, ?_, ?_, inv.buffered, ?_, inv.requested, inv.progress⟩
  · exact (moved.trans (((new .claiming).cons idx).trans old.symm)).trans inv.flight
  · intro other body member
    obtain before | same := mem_become member
    · exact inv.sent other body before
    · cases same
  · rintro other body ⟨⟩
    exact inv.sent idx result (List.mem_of_getElem? here)
  · intro member
    obtain before | same := mem_become member
    · exact inv.exhausted before
    · cases same

theorem Inv.absorbs (consumer : s.consumer = .taking taken) (left : taken < job.total)
    {slot : Option (Nat × Except String Bytes)} {pending : Table Nat (Except String Bytes)}
    (flight : s.inFlight.Perm (taken :: ({ s with slot := slot, pending := pending } : Fetch).inFlight))
    (slotted : ∀ entry, slot = some entry → s.slot = some entry)
    (buffered : ∀ idx result, pending.find? idx = some result → s.pending.find? idx = some result) :
    Inv job out store
      (({ s with slot := slot, pending := pending } : Fetch).absorbed job taken (job.results taken)) (taken + 1) := by
  obtain ⟨c, chunk⟩ := chunk_of_lt left
  have claimed : taken < min s.cursor job.total := by
    have lengths := (flight.symm.trans inv.flight).length_eq
    rw [List.length_cons, List.length_range'] at lengths
    omega
  have rest : ({ s with slot := slot, pending := pending } : Fetch).inFlight.Perm
      (List.range' (taken + 1) (min s.cursor job.total - (taken + 1))) := by
    have all := flight.symm.trans inv.flight
    have length : min s.cursor job.total - taken = min s.cursor job.total - (taken + 1) + 1 := by omega
    rw [length, List.range'_succ] at all
    exact all.cons_inv
  have before : job.absorbUpTo store taken = (s.assembly, .ok ()) := by
    have progress := inv.progress
    rw [consumer] at progress
    cases progress with
    | taking _ done => exact done
  have after := absorbUpTo_succ before chunk
  unfold absorbed
  rw [chunk]
  dsimp only
  split
  · rename_i assembly accepted
    exact ⟨inv.admitted, inv.staffed, claimed, rest, inv.sent,
      fun idx result found => inv.slotted idx result (slotted _ found),
      fun idx result found => inv.buffered idx result (buffered _ _ found), inv.exhausted, inv.requested,
      .taking left (after.trans accepted)⟩
  · rename_i assembly e refused
    exact ⟨inv.admitted, inv.staffed, claimed, rest, inv.sent,
      fun idx result found => inv.slotted idx result (slotted _ found),
      fun idx result found => inv.buffered idx result (buffered _ _ found), inv.exhausted, inv.requested,
      .failed left (by rw [before]) (after.trans refused)⟩

theorem taking_eq {next : Nat} (consumer : s.consumer = .taking next) : next = taken := by
  have progress := inv.progress
  rw [consumer] at progress
  cases progress with
  | taking _ _ => rfl

theorem Inv.takes {next : Nat} (consumer : s.consumer = .taking next) (left : next < job.total)
    {result : Except String Bytes} (found : s.pending.find? next = some result) :
    Inv job out store
      (({ s with pending := s.pending.delete fun idx _ => idx = next } : Fetch).absorbed job next result) (taken + 1) := by
  obtain rfl := taking_eq inv consumer
  rw [inv.buffered next result found]
  refine inv.absorbs consumer left ?_ (fun _ same => same) fun idx body kept => Table.find?_of_delete kept
  simp only [inFlight]
  exact ((Table.keys_perm_delete_key found).append_left _).trans List.perm_middle

theorem Inv.receives {next : Nat} (consumer : s.consumer = .taking next) (left : next < job.total)
    {result : Except String Bytes} (full : s.slot = some (next, result)) :
    Inv job out store (({ s with slot := none } : Fetch).absorbed job next result) (taken + 1) := by
  obtain rfl := taking_eq inv consumer
  rw [inv.slotted next result full]
  refine inv.absorbs consumer left ?_ (fun _ same => by cases same) fun idx body kept => kept
  simp only [inFlight, full, Option.toList_some, Option.toList_none, List.map_cons, List.map_nil, List.append_nil,
    List.append_assoc, List.singleton_append]
  exact List.perm_middle

theorem Inv.buffers {idx : Nat} {result : Except String Bytes} (full : s.slot = some (idx, result)) :
    Inv job out store { s with slot := none, pending := s.pending.upsert idx result fun _ => result } taken := by
  have fresh : idx ∉ s.pending.keys := by
    have nodup : s.inFlight.Nodup := inv.flight.nodup_iff.mpr List.nodup_range'
    simp only [inFlight, full, Option.toList_some, List.map_cons, List.map_nil, List.append_assoc,
      List.singleton_append] at nodup
    exact (List.nodup_cons.mp (List.nodup_append.mp nodup).2.1).1
  have keys : (s.pending.upsert idx result fun _ => result).keys = s.pending.keys ++ [idx] := by
    rw [Table.upsert, dif_neg fresh]
    simp [Table.keys]
  refine ⟨inv.admitted, inv.staffed, inv.claimed, ?_, inv.sent, ?_, ?_, inv.exhausted, inv.requested, inv.progress⟩
  · refine List.Perm.trans ?_ inv.flight
    simp only [inFlight, keys, full, Option.toList_some, Option.toList_none, List.map_cons, List.map_nil,
      List.append_nil, List.append_assoc, List.singleton_append]
    exact (List.perm_append_singleton idx s.pending.keys).append_left _
  · intro other body same
    cases same
  · intro other body found
    rw [Table.find?_upsert] at found
    split at found
    · rename_i same
      subst same
      rw [inv.slotted other result full] at found
      cases held : s.pending.find? other <;> simpa [held] using found.symm
    · exact inv.buffered other body found

end

theorem stopped_of_allStopped (all : s.allStopped = true) {worker : Worker} (member : worker ∈ s.workers) :
    worker = .stopped := by
  have one := List.all_eq_true.mp all worker member
  cases worker with
  | stopped => rfl
  | _ => cases one

theorem spent_of_allStopped (inv : Inv job out store s taken) (all : s.allStopped = true) : job.total ≤ s.cursor := by
  obtain ⟨worker, member⟩ := List.exists_mem_of_ne_nil _ inv.staffed
  exact inv.exhausted (stopped_of_allStopped all member ▸ member)

/-- The wanted body is on its way as long as the consumer wants one, so the senders are never all gone. -/
theorem Inv.connected (inv : Inv job out store s taken) {next : Nat} (consumer : s.consumer = .taking next)
    (left : next < job.total) (free : s.slot = none) (missing : s.pending.find? next = none) :
    s.allStopped = false := by
  obtain rfl := taking_eq inv consumer
  by_contra all
  rw [Bool.not_eq_false] at all
  have spent := spent_of_allStopped inv all
  have none : s.workers.filterMap Worker.index = [] := by
    refine List.filterMap_eq_nil_iff.mpr fun worker member => ?_
    rw [stopped_of_allStopped all member]
    rfl
  have inside : next ∈ s.inFlight := by
    refine inv.flight.mem_iff.mpr (List.mem_range'_1.mpr ⟨le_rfl, ?_⟩)
    omega
  simp only [inFlight, none, free, Option.toList_none, List.map_nil, List.append_nil, List.nil_append] at inside
  exact Table.find?_eq_none.mp missing inside

theorem Inv.finishes (inv : Inv job out store s taken) {next : Nat} (consumer : s.consumer = .taking next)
    (done : next ≥ job.total) : Inv job out store { s with consumer := .left (.ok ()) } taken := by
  obtain rfl := taking_eq inv consumer
  have progress := inv.progress
  rw [consumer] at progress
  cases progress with
  | taking bound absorbed =>
    obtain rfl : next = job.total := le_antisymm bound done
    exact { inv with progress := .through absorbed }

theorem Inv.joins (inv : Inv job out store s taken) {scope : Except String Unit} (consumer : s.consumer = .left scope) :
    Inv job out store { s with consumer := .returned (job.conclude out s.assembly scope) } taken := by
  have expected : job.conclude out s.assembly scope = job.expected out store := by
    have progress := inv.progress
    rw [consumer] at progress
    simp only [Job.expected, inv.admitted]
    cases progress with
    | through absorbed => rw [absorbed]
    | failed small _ refused => rw [absorbUpTo_of_error refused small]
  rw [expected]
  exact { inv with progress := .returned }

theorem Inv.step (inv : Inv job out store s taken) {move : Move} {s' : Fetch} (moved : s.step job out move = some s') :
    ∃ taken', Inv job out store s' taken' := by
  cases stepped_of_step moved with
  | stops here spent => exact ⟨taken, inv.stops here spent⟩
  | claims here left => exact ⟨taken, inv.claims here left⟩
  | fetches here => exact ⟨taken, inv.fetches here⟩
  | sends here free => exact ⟨taken, inv.sends here free⟩
  | takes consumer left found => exact ⟨taken + 1, inv.takes consumer left found⟩
  | receives consumer left full => exact ⟨taken + 1, inv.receives consumer left full⟩
  | buffers consumer full => exact ⟨taken, inv.buffers full⟩
  | disconnects consumer left free missing all =>
    have connected := inv.connected consumer left free missing
    rw [all] at connected
    cases connected
  | finishes consumer done => exact ⟨taken, inv.finishes consumer done⟩
  | joins consumer all => exact ⟨taken, inv.joins consumer⟩

/-! ## Progress -/

def Returned (s : Fetch) : Prop := ∃ outcome, s.consumer = .returned outcome

theorem canMove_of_worker {worker : Worker} (member : worker ∈ s.workers) (runs : worker ≠ .stopped)
    (slot : ∀ idx result, worker = .sending idx result → s.slot = none) : CanMove (Fetch.step job out) s := by
  obtain ⟨w, here⟩ := List.mem_iff_getElem?.mp member
  cases worker with
  | claiming =>
    by_cases spent : s.cursor ≥ job.total
    · exact ⟨.claim w, _, by simp only [step, here, if_pos spent]; rfl⟩
    · exact ⟨.claim w, _, by simp only [step, here, if_neg spent]; rfl⟩
  | fetching idx => exact ⟨.fetched w, _, by simp only [step, here]; rfl⟩
  | sending idx result => exact ⟨.send w, _, by simp only [step, here, slot idx result rfl]; rfl⟩
  | stopped => exact absurd rfl runs

theorem exists_running (some : s.allStopped = false) : ∃ worker ∈ s.workers, worker ≠ .stopped := by
  obtain ⟨worker, member, runs⟩ := List.all_eq_false.mp some
  refine ⟨worker, member, ?_⟩
  rintro rfl
  exact runs rfl

theorem Inv.canMove_taking (inv : Inv job out store s taken) {next : Nat} (consumer : s.consumer = .taking next) :
    CanMove (Fetch.step job out) s := by
  by_cases done : next ≥ job.total
  · exact ⟨.finish, _, by simp only [Fetch.step, consumer, if_pos done]; rfl⟩
  have left := Nat.lt_of_not_le done
  cases found : s.pending.find? next with
  | some result => exact ⟨.take, _, by simp only [Fetch.step, consumer, if_neg done, found]; rfl⟩
  | none =>
    cases full : s.slot with
    | some entry =>
      obtain ⟨idx, result⟩ := entry
      have wanted : ¬ (next ≥ job.total ∨ (s.pending.find? next).isSome = true) := by simp [found, left]
      by_cases same : idx = next
      · exact ⟨.receive, _, by simp only [Fetch.step, consumer, full, if_neg wanted, if_pos same]; rfl⟩
      · exact ⟨.receive, _, by simp only [Fetch.step, consumer, full, if_neg wanted, if_neg same]; rfl⟩
    | none =>
      obtain ⟨worker, member, runs⟩ := exists_running (inv.connected consumer left full found)
      exact canMove_of_worker member runs fun _ _ _ => full

/-- After the consumer has left, only a full slot can hold a worker up, and then two bodies are still in flight. -/
theorem Inv.canMove_left (inv : Inv job out store s taken) {scope : Except String Unit}
    (consumer : s.consumer = .left scope) (few : job.total ≤ taken + 1) : CanMove (Fetch.step job out) s := by
  cases all : s.allStopped with
  | true => exact ⟨.join, _, by simp only [Fetch.step, consumer, all, if_true]; rfl⟩
  | false =>
    obtain ⟨worker, member, runs⟩ := exists_running all
    refine canMove_of_worker member runs ?_
    rintro idx result rfl
    cases full : s.slot with
    | none => rfl
    | some entry =>
      have lengths := inv.flight.length_eq
      have held : idx ∈ s.workers.filterMap Worker.index := List.mem_filterMap.mpr ⟨_, member, rfl⟩
      have := List.length_pos_of_mem held
      simp only [inFlight, full, List.length_append, List.length_range', Option.toList_some, List.map_cons,
        List.map_nil, List.length_cons, List.length_nil] at lengths
      omega

/-! ## Every run ends -/

/-- What is left to do, for a worker, for the consumer and for all of them. -/
def workOf : Worker → Nat
  | .claiming => 1
  | .fetching _ => 4
  | .sending _ _ => 3
  | .stopped => 0

def restOf (job : Job) : Consumer → Nat
  | .taking next => job.total - next + 2
  | .left _ => 1
  | .returned _ => 0

def remaining (job : Job) (s : Fetch) : Nat :=
  4 * (job.total - s.cursor) + (s.workers.map workOf).sum + s.slot.toList.length + restOf job s.consumer

theorem sum_become {w : Nat} {before : Worker} (here : s.workers[w]? = some before) (after : Worker) :
    ((s.become w after).workers.map workOf).sum + workOf before = (s.workers.map workOf).sum + workOf after := by
  obtain ⟨rest, old, new⟩ := others_of_set here
  have first := (old.map workOf).sum_eq
  have second := ((new after).map workOf).sum_eq
  simp only [become, List.map_cons, List.sum_cons] at first second ⊢
  omega

theorem absorbed_frame (job : Job) (s : Fetch) (next : Nat) (result : Except String Bytes) :
    (s.absorbed job next result).cursor = s.cursor ∧ (s.absorbed job next result).workers = s.workers ∧
      (s.absorbed job next result).slot = s.slot := by
  unfold absorbed
  split
  · exact ⟨rfl, rfl, rfl⟩
  · split <;> exact ⟨rfl, rfl, rfl⟩

theorem restOf_absorbed (s : Fetch) {next : Nat} (result : Except String Bytes) (left : next < job.total) :
    restOf job (s.absorbed job next result).consumer < job.total - next + 2 := by
  obtain ⟨c, chunk⟩ := chunk_of_lt left
  unfold absorbed
  rw [chunk]
  dsimp only
  split
  · simp only [restOf]
    omega
  · simp only [restOf]
    omega

theorem remaining_absorbed {next : Nat} (result : Except String Bytes) (left : next < job.total)
    (consumer : s.consumer = .taking next) : remaining job (s.absorbed job next result) < remaining job s := by
  obtain ⟨cursor, workers, slot⟩ := absorbed_frame job s next result
  have rest := restOf_absorbed s result left
  simp only [remaining, cursor, workers, slot, consumer, restOf] at rest ⊢
  omega

theorem remaining_emptied {entry : Nat × Except String Bytes} (full : s.slot = some entry) :
    remaining job { s with slot := none } < remaining job s := by
  simp [remaining, full]

theorem remaining_step {move : Move} {s' : Fetch} (moved : s.step job out move = some s') :
    remaining job s' < remaining job s := by
  cases stepped_of_step moved with
  | stops here spent =>
    have work := sum_become here .stopped
    simp only [remaining, become, workOf] at work ⊢
    omega
  | claims here left =>
    have work := sum_become here (.fetching s.cursor)
    simp only [remaining, become, workOf] at work ⊢
    omega
  | @fetches w idx here =>
    have work := sum_become here (.sending idx (job.results idx))
    simp only [remaining, become, workOf] at work ⊢
    omega
  | sends here free =>
    have work := sum_become here .claiming
    simp only [remaining, become, workOf, free, Option.toList_some, Option.toList_none, List.length_nil,
      List.length_singleton] at work ⊢
    omega
  | takes consumer left found => exact remaining_absorbed _ left consumer
  | receives consumer left full =>
    exact (remaining_absorbed (s := { s with slot := none }) _ left consumer).trans (remaining_emptied full)
  | buffers consumer full => exact remaining_emptied full
  | disconnects consumer =>
    simp only [remaining, consumer, restOf]
    omega
  | finishes consumer =>
    simp only [remaining, consumer, restOf]
    omega
  | joins consumer =>
    simp only [remaining, consumer, restOf]
    omega

/-! ## Schedules with one busy worker -/

section Lineup

variable (job : Job)

/-- Every worker about to claim an index, after `k` claims. -/
def lineup (k : Nat) (slot : Option (Nat × Except String Bytes)) (consumer : Consumer) (assembly : Job.Assembly) :
    Fetch where
  cursor := k
  workers := List.replicate (min concurrentChunks (max job.total 1)) .claiming
  slot := slot
  pending := .empty
  consumer := consumer
  assembly := assembly
  requested := List.range k

variable {job} {k : Nat} {slot : Option (Nat × Except String Bytes)} {consumer : Consumer} {assembly : Job.Assembly}

theorem first_worker (job : Job) (worker : Worker) :
    ((List.replicate (min concurrentChunks (max job.total 1)) Worker.claiming).set 0 worker)[0]? = some worker := by
  rw [List.getElem?_set_self]
  simp [concurrentChunks]

theorem first_claiming (job : Job) :
    (List.replicate (min concurrentChunks (max job.total 1)) Worker.claiming)[0]? = some .claiming := by
  have first := first_worker job .claiming
  rwa [List.set_replicate_self] at first

theorem reaches_sending (left : k < job.total) :
    Reaches (Fetch.step job out) (lineup job k slot consumer assembly)
      { lineup job k slot consumer assembly with
        cursor := k + 1
        workers := (lineup job k slot consumer assembly).workers.set 0 (.sending k (job.results k))
        requested := List.range k ++ [k] } := by
  have claimed : (lineup job k slot consumer assembly).step job out (.claim 0) =
      some { lineup job k slot consumer assembly with
        cursor := k + 1
        workers := (lineup job k slot consumer assembly).workers.set 0 (.fetching k)
        requested := List.range k ++ [k] } := by
    simp only [step, lineup, first_claiming, become]
    exact if_neg (Nat.not_le.mpr left)
  have fetched : Fetch.step job out { lineup job k slot consumer assembly with
        cursor := k + 1
        workers := (lineup job k slot consumer assembly).workers.set 0 (.fetching k)
        requested := List.range k ++ [k] } (.fetched 0) =
      some { lineup job k slot consumer assembly with
        cursor := k + 1
        workers := (lineup job k slot consumer assembly).workers.set 0 (.sending k (job.results k))
        requested := List.range k ++ [k] } := by
    simp only [step, lineup, first_worker, become, List.set_set]
  exact ((Reaches.refl _).next claimed).next fetched

theorem reaches_sent (left : k < job.total) :
    Reaches (Fetch.step job out) (lineup job k none consumer assembly)
      (lineup job (k + 1) (some (k, job.results k)) consumer assembly) := by
  have sent : Fetch.step job out { lineup job k none consumer assembly with
        cursor := k + 1
        workers := (lineup job k none consumer assembly).workers.set 0 (.sending k (job.results k))
        requested := List.range k ++ [k] } (.send 0) =
      some (lineup job (k + 1) (some (k, job.results k)) consumer assembly) := by
    simp only [step, lineup, first_worker, become, List.set_set, List.set_replicate_self, List.range_succ]
  exact (reaches_sending left).next sent

/-- The consumer goes on to the next index, or leaves with an error. -/
def heading (k : Nat) : Except String Unit → Consumer
  | .ok () => .taking (k + 1)
  | .error e => .left (.error e)

theorem receive_lineup (left : k < job.total) {c : ChunkRef} (chunk : job.manifest.chunks[k]? = some c)
    {after : Job.Assembly} {scope : Except String Unit}
    (absorbs : job.absorb k c (job.results k) assembly = (after, scope)) :
    (lineup job (k + 1) (some (k, job.results k)) (.taking k) assembly).step job out .receive =
      some (lineup job (k + 1) none (heading k scope) after) := by
  have wanted : ¬ (k ≥ job.total ∨ ((Table.empty : Table Nat (Except String Bytes)).find? k).isSome = true) := by
    simp only [Table.find?_empty, Option.isSome_none, Bool.false_eq_true, or_false]
    omega
  simp only [step, lineup, if_neg wanted, if_true, absorbed, chunk, absorbs]
  cases scope <;> rfl

theorem reaches_lineup (admitted : job.admitted = .ok ()) (bound : k ≤ job.total)
    {assembly : Job.Assembly} (done : job.absorbUpTo store k = (assembly, .ok ())) :
    Reaches (Fetch.step job out) (start job out store) (lineup job k none (.taking k) assembly) := by
  induction k generalizing assembly with
  | zero =>
    cases done
    simp only [start, admitted]
    exact .refl _
  | succ k ih =>
    obtain ⟨c, chunk⟩ := chunk_of_lt bound
    cases before : job.absorbUpTo store k with
    | mk earlier scope =>
      cases scope with
      | error e =>
        rw [absorbUpTo_of_error before (Nat.le_succ k)] at done
        cases done
      | ok u =>
        have accepted := (absorbUpTo_succ before chunk).symm.trans done
        have sent := (ih (Nat.le_of_succ_le bound) before).trans (reaches_sent bound)
        exact sent.next (receive_lineup bound chunk accepted)

end Lineup

/-! ## A full slot nobody empties -/

/-- The consumer has left, and a worker waits for a slot that stays full. -/
structure Doomed (s : Fetch) : Prop where
  gone : ∃ scope, s.consumer = .left scope
  full : s.slot ≠ none
  waits : ∃ idx result, .sending idx result ∈ s.workers

theorem mem_become_of_ne {w : Nat} {before after worker : Worker} (here : s.workers[w]? = some before)
    (member : worker ∈ s.workers) (other : worker ≠ before) : worker ∈ (s.become w after).workers := by
  obtain ⟨rest, old, new⟩ := others_of_set here
  have inside := (List.mem_cons.mp (old.mem_iff.mp member)).resolve_left other
  exact (new after).mem_iff.mpr (List.mem_cons_of_mem _ inside)

theorem Doomed.not_taking (doomed : s.Doomed) {next : Nat} (consumer : s.consumer = .taking next) : False := by
  obtain ⟨scope, gone⟩ := doomed.gone
  rw [consumer] at gone
  cases gone

theorem Doomed.become (doomed : s.Doomed) {w : Nat} {before : Worker} (here : s.workers[w]? = some before)
    (quiet : ∀ idx result, before ≠ .sending idx result) (after : Worker) : (s.become w after).Doomed := by
  obtain ⟨idx, result, member⟩ := doomed.waits
  exact ⟨doomed.gone, doomed.full, idx, result, mem_become_of_ne here member (quiet idx result).symm⟩

theorem Doomed.step (doomed : s.Doomed) {move : Move} {s' : Fetch} (moved : s.step job out move = some s') :
    s'.Doomed := by
  cases stepped_of_step moved with
  | stops here spent =>
    have kept := doomed.become here (fun _ _ never => nomatch never) .stopped
    exact ⟨kept.gone, kept.full, kept.waits⟩
  | claims here left =>
    have kept := doomed.become here (fun _ _ never => nomatch never) (.fetching s.cursor)
    exact ⟨kept.gone, kept.full, kept.waits⟩
  | fetches here => exact doomed.become here (fun _ _ never => nomatch never) _
  | sends here free => exact absurd free doomed.full
  | takes consumer left found => exact (doomed.not_taking consumer).elim
  | receives consumer left full => exact (doomed.not_taking consumer).elim
  | buffers consumer full => exact (doomed.not_taking consumer).elim
  | disconnects consumer left free missing all => exact (doomed.not_taking consumer).elim
  | finishes consumer done => exact (doomed.not_taking consumer).elim
  | joins consumer all =>
    obtain ⟨idx, result, member⟩ := doomed.waits
    cases stopped_of_allStopped all member

theorem Doomed.not_returned (doomed : s.Doomed) : ¬ s.Returned := by
  rintro ⟨outcome, returned⟩
  obtain ⟨scope, gone⟩ := doomed.gone
  rw [gone] at returned
  cases returned

theorem reaches_doomed (admitted : job.admitted = .ok ()) {k : Nat} {e : String} (early : k + 2 < job.total)
    (first : ∀ j < k, job.failure store j = none) (fails : job.failure store k = some e) :
    ∃ s, Reaches (Fetch.step job out) (start job out store) s ∧ s.Doomed := by
  obtain ⟨before, after, c, done, chunk, refused⟩ := absorbUpTo_first (by omega) first fails
  have taken : Reaches (Fetch.step job out) (start job out store) (lineup job k none (.taking k) before) :=
    reaches_lineup admitted (by omega) done
  have left := (taken.trans (reaches_sent (by omega))).next (receive_lineup (by omega) chunk refused)
  have sent := left.trans (reaches_sent (by omega))
  refine ⟨_, sent.trans (reaches_sending early), ⟨_, rfl⟩, (by simp [lineup]), k + 2, job.results (k + 2), ?_⟩
  exact List.mem_of_getElem? (first_worker job _)

/-! ## The invariant in every reachable state -/

theorem inv_start (admitted : job.admitted = .ok ()) : Inv job out store (start job out store) 0 := by
  simp only [start, admitted]
  have claiming : ∀ worker ∈ List.replicate (min concurrentChunks (max job.total 1)) Worker.claiming,
      worker = .claiming := fun worker member => (List.mem_replicate.mp member).2
  refine ⟨admitted, ?_, Nat.zero_le _, ?_, ?_, ?_, ?_, ?_, ?_,
    .taking (Nat.zero_le _) rfl⟩
  · simp [concurrentChunks]
  · have none : (List.replicate (min concurrentChunks (max job.total 1)) Worker.claiming).filterMap Worker.index = [] :=
      List.filterMap_eq_nil_iff.mpr fun worker member => by rw [claiming worker member]; rfl
    simp [inFlight, none, Table.keys, Table.empty]
  · intro idx result member
    cases claiming _ member
  · rintro idx result ⟨⟩
  · intro idx result found
    simp at found
  · intro member
    cases claiming _ member
  · simp

theorem inv_of_reaches (admitted : job.admitted = .ok ())
    (reached : Reaches (Fetch.step job out) (start job out store) s) : ∃ taken, Inv job out store s taken := by
  refine reached.invariant (P := fun s => ∃ taken, Inv job out store s taken) ?_ ⟨0, inv_start admitted⟩
  rintro before move after ⟨taken, inv⟩ moved
  exact inv.step moved

theorem reaches_refused {e : String} (refused : job.admitted = .error e)
    (reached : Reaches (Fetch.step job out) (start job out store) s) : s = start job out store := by
  refine reached.invariant (P := fun s => s = start job out store) ?_ rfl
  rintro before move after rfl moved
  simp only [start, refused] at moved
  cases move <;> simp [Fetch.step] at moved

theorem returned_eq (reached : Reaches (Fetch.step job out) (start job out store) s) {outcome : Job.Outcome}
    (returned : s.consumer = .returned outcome) : outcome = job.expected out store := by
  cases admitted : job.admitted with
  | error e =>
    rw [reaches_refused admitted reached] at returned
    simp only [start, admitted, Consumer.returned.injEq] at returned
    simp only [Job.expected, admitted, ← returned]
  | ok u =>
    obtain ⟨taken, inv⟩ := inv_of_reaches admitted reached
    have progress := inv.progress
    rw [returned] at progress
    cases progress with
    | returned => rfl

theorem moves_of_sound (sound : job.admitted = .ok () → ∀ k, k + 2 < job.total → job.failure store k = none)
    (reached : Reaches (Fetch.step job out) (start job out store) s) :
    s.Returned ∨ CanMove (Fetch.step job out) s := by
  cases admitted : job.admitted with
  | error e =>
    left
    rw [reaches_refused admitted reached]
    simp only [start, admitted]
    exact ⟨_, rfl⟩
  | ok u =>
    obtain ⟨taken, inv⟩ := inv_of_reaches admitted reached
    cases consumer : s.consumer with
    | returned outcome => exact .inl ⟨outcome, consumer⟩
    | taking next => exact .inr (inv.canMove_taking consumer)
    | left scope =>
      refine .inr (inv.canMove_left consumer ?_)
      have progress := inv.progress
      rw [consumer] at progress
      cases progress with
      | through => exact Nat.le_succ _
      | @failed k e small done refused =>
        by_contra many
        have all : ∀ j < k + 1, job.failure store j = none := fun j early => sound admitted j (by omega)
        obtain ⟨assembly, accepted, -⟩ := absorbUpTo_sound small all
        rw [accepted] at refused
        cases refused

theorem exists_stuck (admitted : job.admitted = .ok ()) {k : Nat} (early : k + 2 < job.total)
    (fails : job.failure store k ≠ none) :
    ∃ s, Reaches (Fetch.step job out) (start job out store) s ∧ ¬ s.Returned ∧ ¬ CanMove (Fetch.step job out) s := by
  obtain ⟨j, small, first, e, reason⟩ := exists_first fails
  obtain ⟨s, reached, doomed⟩ : ∃ s, Reaches (Fetch.step job out) (start job out store) s ∧ s.Doomed :=
    reaches_doomed admitted (by omega) first reason
  obtain ⟨last, onward, still, ends⟩ := Schedules.exists_end_with (remaining job)
    (fun _ _ _ moved => remaining_step moved) (fun _ _ _ holds moved => Doomed.step holds moved) doomed
  exact ⟨last, reached.trans onward, still.not_returned, ends⟩

theorem returned_of_absorbed {next : Nat} {result : Except String Bytes} {outcome : Job.Outcome}
    (returned : (s.absorbed job next result).consumer = .returned outcome) : s.consumer = .returned outcome := by
  unfold absorbed at returned
  split at returned
  · exact returned
  · split at returned
    · cases returned
    · cases returned

theorem stopped_of_returned (admitted : job.admitted = .ok ())
    (reached : Reaches (Fetch.step job out) (start job out store) s) {outcome : Job.Outcome}
    (returned : s.consumer = .returned outcome) : s.allStopped = true := by
  refine reached.invariant (P := fun s => ∀ outcome, s.consumer = .returned outcome → s.allStopped = true) ?_ ?_
    outcome returned
  · intro before move after ih moved outcome returned
    have idle : ∀ {w : Nat} {worker : Worker}, before.workers[w]? = some worker →
        before.consumer = .returned outcome → worker = .stopped := fun here ended => stopped_of_allStopped (ih outcome ended) (List.mem_of_getElem? here)
    cases stepped_of_step moved with
    | stops here spent => cases idle here returned
    | claims here left => cases idle here returned
    | fetches here => cases idle here returned
    | sends here free => cases idle here returned
    | takes consumer left found =>
      have ended := returned_of_absorbed returned
      cases consumer.symm.trans ended
    | receives consumer left full =>
      have ended := returned_of_absorbed returned
      cases consumer.symm.trans ended
    | buffers consumer full => cases consumer.symm.trans returned
    | disconnects consumer left free missing all => cases returned
    | finishes consumer done => cases returned
    | joins consumer all => exact all
  · intro outcome returned
    simp only [start, admitted] at returned
    cases returned

end Fetch

/-! ## What a fetch returns -/

section Outcome

variable {job : Job} {out : Option Bytes} {store : ChunkStore}

theorem valid_of_admitted (admitted : job.admitted = .ok ()) :
    job.manifest.isValid = true ∧ job.manifest.totalSize.toNat ≤ maxBlobFetchBytes := by
  unfold Job.admitted at admitted
  split at admitted
  · cases admitted
  · split at admitted
    · cases admitted
    · cases checked : job.pathChecked with
      | error e => simp [checked, bind, Except.bind] at admitted
      | ok u =>
        cases crawled : job.crawled with
        | error e => simp [checked, crawled, bind, Except.bind] at admitted
        | ok v =>
          simp only [checked, crawled, bind, Except.bind] at admitted
          split at admitted
          · cases admitted
          · split at admitted
            · cases admitted
            · rename_i small
              split at admitted
              · cases admitted
              · rename_i valid
                exact ⟨by simpa using valid, Nat.le_of_not_lt small⟩

theorem conclude_ok {assembly : Job.Assembly} {scope : Except String Unit} {count : Nat}
    (succeeds : (job.conclude out assembly scope).result = .ok count) :
    scope = .ok () ∧ job.blake3 assembly.file = job.blobHash ∧ count = assembly.file.length ∧
      (job.conclude out assembly scope).out = some assembly.file := by
  unfold Job.conclude at succeeds ⊢
  split at succeeds
  · cases succeeds
  · split at succeeds
    · cases succeeds
    · rename_i same
      split at succeeds
      · cases succeeds
      · split at succeeds
        · cases succeeds
          simp only [ne_eq, not_not] at same
          simp only [same, ne_eq, not_true_eq_false, if_false, true_and]
        · cases succeeds
        · cases succeeds

theorem sizes_of_validFrom {total next : Nat} {chunks : List ChunkRef} (small : total < maxU64)
    (valid : validFrom total next chunks = true) : next + (chunks.map ChunkRef.size).sum = total := by
  induction chunks generalizing next with
  | nil => simpa [validFrom] using valid
  | cons c rest ih =>
    obtain ⟨-, -, tail⟩ := Swarm.validFrom_ends small valid
    rw [List.map_cons, List.sum_cons, ← Nat.add_assoc]
    exact ih tail

theorem length_of_declared {blake3 : Bytes → String} {chunks : List ChunkRef} {bodies : List Bytes}
    (declared : List.Forall₂ (Declared blake3) chunks bodies) :
    bodies.flatten.length = (chunks.map ChunkRef.size).sum := by
  induction declared with
  | nil => rfl
  | cons first _ ih => rw [List.flatten_cons, List.length_append, ih, first.length, List.map_cons, List.sum_cons]

/-- The file holds the bodies of all chunks in manifest order, each chunk asked for once. -/
structure Complete (job : Job) (requested : List Nat) (out : Option Bytes) (count : Nat) : Prop where
  bodies : ∃ bodies : List Bytes, List.Forall₂ (Declared job.blake3) job.manifest.chunks bodies ∧
    out = some bodies.flatten ∧ bodies.flatten.length = job.manifest.totalSize.toNat ∧
    job.blake3 bodies.flatten = job.blobHash
  count : count = job.manifest.totalSize.toNat
  requested : requested = List.range job.total

/-- The fetch whose chunks come as the peer's replies give them. -/
def Job.over (job : Job) (quicPort : Option UInt16) (quic tcp : Nat → Reply) : Job :=
  { job with
    results := fun idx =>
      match job.manifest.chunks[idx]? with
      | some c => fetchChunkBytes job.blake3 quicPort c (quic idx) (tcp idx)
      | none => .error "" }

theorem declared_of_over {quicPort : Option UInt16} {quic tcp : Nat → Reply} {bodies : List Bytes}
    (length : bodies.length = job.total)
    (taken : ∀ k (small : k < bodies.length), (job.over quicPort quic tcp).results k = .ok bodies[k]) :
    List.Forall₂ (Declared job.blake3) job.manifest.chunks bodies := by
  refine List.forall₂_iff_get.mpr ⟨length.symm, fun k inside small => ?_⟩
  have result := taken k small
  simp only [Job.over, List.getElem?_eq_getElem inside] at result
  exact fetchChunkBytes_declared result

theorem expected_ok {count : Nat} (succeeds : (job.expected out store).result = .ok count) :
    job.admitted = .ok () ∧ ∃ assembly, job.absorbUpTo store job.total = (assembly, .ok ()) ∧
      job.blake3 assembly.file = job.blobHash ∧ count = assembly.file.length ∧
      (job.expected out store).out = some assembly.file := by
  unfold Job.expected at succeeds ⊢
  cases admitted : job.admitted with
  | error e => simp [admitted] at succeeds
  | ok u =>
    simp only [admitted] at succeeds ⊢
    obtain ⟨scope, same, long, written⟩ := conclude_ok succeeds
    exact ⟨trivial, _, by rw [← scope], same, long, written⟩

theorem expected_first (admitted : job.admitted = .ok ()) {k : Nat} {e : String}
    (first : ∀ j < k, job.failure store j = none) (fails : job.failure store k = some e) :
    (job.expected out store).result = .error e := by
  have small : k < job.total := by
    by_contra past
    have none : job.manifest.chunks[k]? = none := List.getElem?_eq_none (Nat.le_of_not_lt past)
    simp [Job.failure, none] at fails
  obtain ⟨before, after, c, done, chunk, refused⟩ := absorbUpTo_first small first fails
  have stopped := absorbUpTo_of_error ((absorbUpTo_succ done chunk).trans refused) small
  simp only [Job.expected, admitted, stopped, Job.conclude]

theorem complete_of_returned {quicPort : Option UInt16} {quic tcp : Nat → Reply} {s : Fetch}
    (reached : Reaches (Fetch.step (job.over quicPort quic tcp) out)
      (Fetch.start (job.over quicPort quic tcp) out store) s) {outcome : Job.Outcome}
    (returned : s.consumer = .returned outcome) {count : Nat} (succeeds : outcome.result = .ok count) :
    Complete (job.over quicPort quic tcp) s.requested outcome.out count := by
  obtain rfl := Fetch.returned_eq reached returned
  obtain ⟨admitted, assembly, done, same, long, written⟩ := expected_ok succeeds
  obtain ⟨bodies, length, file, taken⟩ := absorbUpTo_file le_rfl done
  obtain ⟨valid, small⟩ := valid_of_admitted admitted
  have declared := declared_of_over length taken
  have size : bodies.flatten.length = job.manifest.totalSize.toNat := by
    have total : job.manifest.totalSize.toNat < maxU64 := lt_of_le_of_lt small (by decide)
    rw [length_of_declared declared, ← sizes_of_validFrom total (ChunkManifest.validFrom_zero valid), Nat.zero_add]
    rfl
  obtain ⟨n, inv⟩ := Fetch.inv_of_reaches admitted reached
  have spent := Fetch.spent_of_allStopped inv (Fetch.stopped_of_returned admitted reached returned)
  refine ⟨⟨bodies, declared, by rw [written, file], size, by rw [← file]; exact same⟩, ?_, ?_⟩
  · rw [long, file, size]
    rfl
  · rw [inv.requested, Nat.min_eq_right spent]

theorem failure_of_moves (moves : ∀ s, Reaches (Fetch.step job out) (Fetch.start job out store) s →
    s.Returned ∨ CanMove (Fetch.step job out) s) (admitted : job.admitted = .ok ()) {k : Nat}
    (early : k + 2 < job.total) : job.failure store k = none := by
  by_contra fails
  obtain ⟨s, reached, running, stuck⟩ := Fetch.exists_stuck admitted early fails
  exact (moves s reached).elim running stuck

end Outcome

/-! ## Every schedule -/

/-- The fetch never gets stuck exactly when no chunk fails before the last two. -/
theorem fetch_blob_from_peer_moves_iff (job : Job) (out : Option Bytes) (store : ChunkStore) :
    (∀ s, Reaches (Fetch.step job out) (Fetch.start job out store) s →
      s.Returned ∨ CanMove (Fetch.step job out) s) ↔
      (job.admitted = .ok () → ∀ k, k + 2 < job.total → job.failure store k = none) := by
  constructor
  · intro moves admitted k early
    exact failure_of_moves moves admitted early
  · intro sound s reached
    exact Fetch.moves_of_sound sound reached

/-- The outcome is the same in every order of completion exactly when no chunk fails before the last two: then it
is the bodies in manifest order, or the error of the first chunk that fails. -/
theorem fetch_blob_from_peer_outcome_iff (job : Job) (quicPort : Option UInt16) (quic tcp : Nat → Reply)
    (out : Option Bytes) (store : ChunkStore) :
    let job := job.over quicPort quic tcp
    (∀ s, Reaches (Fetch.step job out) (Fetch.start job out store) s →
      (CanMove (Fetch.step job out) s ∨ s.consumer = .returned (job.expected out store)) ∧
      ∀ outcome, s.consumer = .returned outcome →
        outcome = job.expected out store ∧
        (∀ count, outcome.result = .ok count → Complete job s.requested outcome.out count) ∧
        (job.admitted = .ok () → ∀ k e, (∀ j < k, job.failure store j = none) → job.failure store k = some e →
          outcome.result = .error e)) ↔
      (job.admitted = .ok () → ∀ k, k + 2 < job.total → job.failure store k = none) := by
  intro job
  constructor
  · intro settles admitted k early
    have moves : ∀ s, Reaches (Fetch.step job out) (Fetch.start job out store) s →
        s.Returned ∨ CanMove (Fetch.step job out) s :=
      fun s reached => (settles s reached).1.symm.imp_left fun returned => ⟨_, returned⟩
    exact failure_of_moves moves admitted early
  · intro sound s reached
    constructor
    · refine (Fetch.moves_of_sound sound reached).symm.imp_right ?_
      rintro ⟨outcome, returned⟩
      rw [returned, Fetch.returned_eq reached returned]
    · intro outcome returned
      refine ⟨Fetch.returned_eq reached returned, fun count succeeds => ?_, fun admitted k e first fails => ?_⟩
      · exact complete_of_returned reached returned succeeds
      · rw [Fetch.returned_eq reached returned]
        exact expected_first admitted first fails

def refused : Job where
  blobHash := shortDigest [0x61, 0x62]
  outPath := "/tmp/blob"
  tmpPath := "/tmp/blob.tmp.1"
  privatePeer := true
  pathChecked := .ok ()
  crawled := .ok ()
  manifest := ⟨shortDigest [0x61, 0x62], 3,
    [⟨shortDigest [0x61], 0, 1⟩, ⟨shortDigest [0x62], 1, 1⟩, ⟨shortDigest [0x61], 2, 1⟩]⟩
  results := fun _ => .error "tcp: connection refused"
  io := ⟨.ok (), fun _ => true, fun _ => .ok (), .ok (), .ok ()⟩
  now := 0
  blake3 := shortDigest

theorem refused_fetch_gets_stuck :
    ∃ s, Reaches (Fetch.step refused none) (Fetch.start refused none (.new .empty .empty)) s ∧
      ¬ s.Returned ∧ ¬ CanMove (Fetch.step refused none) s :=
  Fetch.exists_stuck (by decide) (k := 0) (by decide) (by decide)

/-- Every worker hands its result over before the first chunk's arrives. -/
def firstChunkLast : List Move :=
  [.claim 0, .claim 1, .claim 2, .fetched 0, .fetched 1, .fetched 2, .send 1, .receive, .send 2, .receive, .send 0,
    .receive, .claim 0, .claim 1, .claim 2, .join]

/-- With the same replies the fetch returns the error of its first chunk in one order of completion and never returns
in another. -/
theorem refused_fetch_depends_on_order :
    let job := refused.over none (fun _ => .failed "connection refused") fun _ => .failed "connection refused"
    let start := Fetch.start job none (.new .empty .empty)
    (∃ s outcome, Reaches (Fetch.step job none) start s ∧ s.consumer = .returned outcome) ∧
      ∃ s, Reaches (Fetch.step job none) start s ∧ ¬ s.Returned ∧ ¬ CanMove (Fetch.step job none) s := by
  intro job start
  constructor
  · have ran : ((firstChunkLast.foldlM (Fetch.step job none) start).map fun s =>
        match s.consumer with | .returned _ => true | _ => false) = some true := by decide
    obtain ⟨s, ended, last⟩ := Option.map_eq_some_iff.mp ran
    have reached := Schedules.reaches_of_foldlM ended
    cases consumer : s.consumer with
    | returned outcome => exact ⟨s, outcome, reached, consumer⟩
    | taking next => simp [consumer] at last
    | left scope => simp [consumer] at last
  · exact Fetch.exists_stuck (by decide) (k := 0) (by decide) (by decide)

end Soshal.Network.BlobFetch
