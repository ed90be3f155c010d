import Soshal.Bridge.Escrow
import Soshal.Library.Processes

/-! Burn-after-viewing media: a row with a counter of views, and the calls that read and end it.

A view checks the row on one read and raises the counter by a later statement, which
asks for the row to exist and for nothing else. The clock is read for each statement.
-/

set_option autoImplicit false

namespace Soshal.Bridge.Ephemeral

open Library
open Library.Processes (System Move)
open Library.Runs (run Throughout)
open Library.Text (toAsciiLowercase)
open Bridge.Escrow (Failure Key signerPubkey)

inductive MediaState where
  | pending
  | expired
  | screenshotDetected
  deriving DecidableEq

/-- The columns next to the primary key `id`. -/
structure EphemeralMediaRow where
  messageId : String
  conversationId : String
  conversationType : String
  mediaUrl : String
  mediaType : String
  senderPubkey : String
  recipientPubkey : String
  maxViews : Int
  currentViews : Int
  state : MediaState
  expiresAt : Option Int
  createdAt : Int
  viewedAt : Option Int
  deriving DecidableEq

/-- The rows of `ephemeral_media` by their `id`. -/
abbrev Rows := Table String EphemeralMediaRow

/-- The expiry lies before the clock; a row without one never expires. -/
def EphemeralMediaRow.Past (row : EphemeralMediaRow) (now : Int) : Prop := ∃ stamp ∈ row.expiresAt, stamp < now

instance (row : EphemeralMediaRow) (now : Int) : Decidable (row.Past now) :=
  match expiry : row.expiresAt with
  | none => .isFalse (by simp [EphemeralMediaRow.Past, expiry])
  | some stamp => decidable_of_iff (stamp < now) (by simp [EphemeralMediaRow.Past, expiry])

def cleanExpired (rows : Rows) (now : Int) : Rows × List String :=
  (rows.delete fun _ row => decide (row.Past now),
    (rows.rows.filter fun entry => decide (entry.2.Past now)).map Prod.fst)

def EphemeralMediaRow.viewedOnce (row : EphemeralMediaRow) (now : Int) : EphemeralMediaRow :=
  { row with
    currentViews := row.currentViews + 1
    viewedAt := some now
    state := if row.maxViews ≤ row.currentViews + 1 then .expired else row.state }

/-- One `UPDATE … WHERE id=?1 RETURNING …`. -/
def incrementViewCount (rows : Rows) (id : String) (now : Int) : Rows × Option EphemeralMediaRow :=
  (rows.modify fun key row => if key = id then row.viewedOnce now else row,
    (rows.find? id).map fun row => row.viewedOnce now)

def delete (rows : Rows) (id : String) : Rows := rows.delete fun key _ => key = id

inductive Proc where
  | viewClean (caller id : String)
  | viewRead (caller id : String)
  | viewIncrement (id : String)
  | viewed (id : String) (row : EphemeralMediaRow)
  | deleteRead (caller id : String)
  | deleteRow (id : String)
  | deleted (found : Bool)
  | cleaning
  | cleaned (ids : List String)
  | failed (failure : Failure)
  deriving DecidableEq

inductive Call where
  | view (signer : Option Key) (id : String)
  | delete (signer : Option Key) (id : String)
  | cleanExpired

/-- A call of the sender or the recipient goes on; any other fails. -/
def asParty (signer : Option Key) (next : String → Proc) : Proc :=
  match signerPubkey signer with
  | .error failure => .failed failure
  | .ok caller => next (toAsciiLowercase caller)

def enter : Call → Proc
  | .view signer id => asParty signer (.viewClean · id)
  | .delete signer id => asParty signer (.deleteRead · id)
  | .cleanExpired => .cleaning

def EphemeralMediaRow.isParty (row : EphemeralMediaRow) (caller : String) : Bool :=
  decide (toAsciiLowercase row.recipientPubkey = caller) || decide (toAsciiLowercase row.senderPubkey = caller)

/-- The checks of `ephemeral_view` on the row it read. -/
def checkView (row : Option EphemeralMediaRow) (caller id : String) (now : Int) : Proc :=
  match row with
  | none => .failed (.db .notFound)
  | some existing =>
    if !existing.isParty caller then .failed (.db (.migration "unauthorized to view ephemeral media"))
    else if existing.Past now ∨ existing.state ≠ .pending then
      .failed (.db (.migration "ephemeral media unavailable (expired or burned)"))
    else .viewIncrement id

def checkDelete (row : Option EphemeralMediaRow) (caller id : String) : Proc :=
  match row with
  | none => .deleted false
  | some existing =>
    if !existing.isParty caller then .failed (.db (.migration "unauthorized to delete ephemeral media"))
    else .deleteRow id

def advance (rows : Rows) (p : Proc) (now : Int) : Rows × Proc :=
  match p with
  | .viewClean caller id => ((cleanExpired rows now).1, .viewRead caller id)
  | .viewRead caller id => (rows, checkView (rows.find? id) caller id now)
  | .viewIncrement id =>
    let (rows, row) := incrementViewCount rows id now
    (rows, row.elim (.failed (.db .notFound)) (.viewed id))
  | .deleteRead caller id => (rows, checkDelete (rows.find? id) caller id)
  | .deleteRow id => (delete rows id, .deleted true)
  | .cleaning =>
    let (rows, ids) := cleanExpired rows now
    (rows, .cleaned ids)
  | .viewed .. | .deleted _ | .cleaned _ | .failed _ => (rows, p)

abbrev State := System Rows Proc

def step : State → Move Call Int → State := Processes.step enter advance

def Proc.isViewed (id : String) : Proc → Bool
  | .viewed other _ => other = id
  | _ => false

/-- The calls of `ephemeral_view` that have returned the row. -/
def views (s : State) (id : String) : Nat := s.procs.countP (Proc.isViewed id)

section Step

variable {rows : Rows} {id : String}

/-- What becomes of the row under an id when a process takes its next step. -/
inductive Effect (rows : Rows) (id : String) (p : Proc) (now : Int) : Prop where
  | increments (row : EphemeralMediaRow) (about : p = .viewIncrement id) (stored : rows.find? id = some row)
      (after : (advance rows p now).1.find? id = some (row.viewedOnce now))
      (answers : (advance rows p now).2.isViewed id = true)
  | keeps (same : (advance rows p now).1.find? id = rows.find? id)
      (quiet : (advance rows p now).2.isViewed id = p.isViewed id)
      (elsewhere : p = .viewIncrement id → rows.find? id = none)
  | removes (gone : (advance rows p now).1.find? id = none)
      (quiet : (advance rows p now).2.isViewed id = p.isViewed id) (other : p ≠ .viewIncrement id)

@[simp] theorem isViewed_asParty {next : String → Proc} (quiet : ∀ caller, (next caller).isViewed id = false)
    (signer : Option Key) : (asParty signer next).isViewed id = false := by
  unfold asParty
  cases signerPubkey signer with
  | error failure => rfl
  | ok caller => exact quiet (toAsciiLowercase caller)

@[simp] theorem isViewed_enter (call : Call) : (enter call).isViewed id = false := by
  cases call with
  | view signer other =>
    exact isViewed_asParty (fun caller => show (Proc.viewClean caller other).isViewed id = false from rfl) signer
  | delete signer other =>
    exact isViewed_asParty (fun caller => show (Proc.deleteRead caller other).isViewed id = false from rfl) signer
  | cleanExpired => rfl

@[simp] theorem isViewed_checkView (row : Option EphemeralMediaRow) (caller other : String) (now : Int) :
    (checkView row caller other now).isViewed id = false := by
  cases row with
  | none => rfl
  | some existing =>
    simp only [checkView]
    split_ifs <;> rfl

@[simp] theorem isViewed_checkDelete (row : Option EphemeralMediaRow) (caller other : String) :
    (checkDelete row caller other).isViewed id = false := by
  cases row with
  | none => rfl
  | some existing =>
    simp only [checkDelete]
    split_ifs <;> rfl

theorem find?_cleanExpired (rows : Rows) (id : String) (now : Int) :
    (cleanExpired rows now).1.find? id = none ∨ (cleanExpired rows now).1.find? id = rows.find? id := by
  cases found : (cleanExpired rows now).1.find? id with
  | none => exact .inl rfl
  | some row => exact .inr (Table.find?_of_delete found).symm

theorem effect_viewIncrement (rows : Rows) (id other : String) (now : Int) :
    Effect rows id (.viewIncrement other) now := by
  cases stored : rows.find? other with
  | none =>
    refine .keeps ?_ ?_ fun same => ?_
    · simp only [advance, incrementViewCount, Table.find?_modify]
      by_cases same : id = other
      · simp [same, stored]
      · simp [same]
    · simp [advance, incrementViewCount, stored, Proc.isViewed]
    · cases same
      exact stored
  | some row =>
    by_cases same : other = id
    · subst same
      exact .increments row rfl stored (by simp [advance, incrementViewCount, stored])
        (by simp [advance, incrementViewCount, stored, Proc.isViewed])
    · refine .keeps ?_ ?_ fun about => absurd (Proc.viewIncrement.inj about) same
      · simp [advance, incrementViewCount, Ne.symm same]
      · simp [advance, incrementViewCount, stored, Proc.isViewed, same]

theorem effect (rows : Rows) (id : String) (p : Proc) (now : Int) : Effect rows id p now := by
  cases p with
  | viewIncrement other => exact effect_viewIncrement rows id other now
  | viewClean caller other =>
    obtain gone | same := find?_cleanExpired rows id now
    · exact .removes gone rfl nofun
    · exact .keeps same rfl nofun
  | viewRead caller other => exact .keeps rfl (isViewed_checkView _ _ _ _) nofun
  | deleteRead caller other => exact .keeps rfl (isViewed_checkDelete _ _ _) nofun
  | deleteRow other =>
    have after := Table.find?_delete_key rows other id
    -- A row that is not there is gone as well.
    by_cases same : id = other
    · exact .removes (after.trans (if_pos same)) rfl nofun
    · exact .keeps (after.trans (if_neg same)) rfl nofun
  | cleaning =>
    obtain gone | same := find?_cleanExpired rows id now
    · exact .removes gone rfl nofun
    · exact .keeps same rfl nofun
  | viewed other row => exact .keeps rfl rfl nofun
  | deleted found => exact .keeps rfl rfl nofun
  | cleaned ids => exact .keeps rfl rfl nofun
  | failed failure => exact .keeps rfl rfl nofun

end Step

section Run

variable {id : String} {most : Int}

/-- What every run keeps: the row counts the calls that returned it, and is pending below its limit. -/
structure Counts (id : String) (most : Int) (s : State) (row : EphemeralMediaRow) : Prop where
  limit : row.maxViews = most
  counted : row.currentViews = (views s id : Int)
  pending : row.state = .pending ↔ row.currentViews < most

def Counted (id : String) (most : Int) (s : State) : Prop := ∀ row ∈ s.shared.find? id, Counts id most s row

theorem shared_advance {s : State} {i : Nat} {p : Proc} {now : Int} (here : s.procs[i]? = some p) :
    (step s (.advance i now)).shared = (advance s.shared p now).1 := by
  simp only [step, Processes.step, here]

theorem views_call (s : State) (call : Call) : views (step s (.call call)) id = views s id := by
  simp [views, step, Processes.step, List.countP_append, isViewed_enter]

theorem views_quiet {s : State} {i : Nat} {p : Proc} {now : Int} (here : s.procs[i]? = some p)
    (quiet : (advance s.shared p now).2.isViewed id = p.isViewed id) :
    views (step s (.advance i now)) id = views s id := by
  have moved := Processes.countP_set_of_getElem? here (advance s.shared p now).2 (Proc.isViewed id)
  rw [quiet] at moved
  simpa only [views, step, Processes.step, here] using Nat.add_right_cancel moved

theorem views_answers {s : State} {i : Nat} {now : Int} (here : s.procs[i]? = some (.viewIncrement id))
    (answers : (advance s.shared (.viewIncrement id) now).2.isViewed id = true) :
    views (step s (.advance i now)) id = views s id + 1 := by
  have moved := Processes.countP_set_of_getElem? here (advance s.shared (.viewIncrement id) now).2 (Proc.isViewed id)
  rw [answers] at moved
  simpa only [views, step, Processes.step, here, Proc.isViewed, Bool.toNat_false, Bool.toNat_true, Nat.add_zero]
    using moved

theorem Counts.viewedOnce {s : State} {row : EphemeralMediaRow} (counts : Counts id most s row) (now : Int)
    {s' : State} (more : views s' id = views s id + 1) : Counts id most s' (row.viewedOnce now) := by
  obtain ⟨rfl, counted, pending⟩ := counts
  refine ⟨rfl, ?_, ?_⟩
  · rw [more, Nat.cast_succ, ← counted]
    rfl
  · by_cases reached : row.maxViews ≤ row.currentViews + 1
    · simp only [EphemeralMediaRow.viewedOnce, if_pos reached]
      exact iff_of_false nofun (by omega)
    · simp only [EphemeralMediaRow.viewedOnce, if_neg reached]
      exact iff_of_true (pending.mpr (by omega)) (by omega)

theorem counted_step {s : State} (counted : Counted id most s) (move : Move Call Int) :
    Counted id most (step s move) := by
  intro row stored
  cases move with
  | call call =>
    have before := counted row stored
    exact ⟨before.limit, before.counted.trans (by rw [views_call]), before.pending⟩
  | advance i now =>
    cases here : s.procs[i]? with
    | none =>
      simp only [step, Processes.step, here] at stored ⊢
      exact counted row stored
    | some p =>
      rw [shared_advance here, Option.mem_def] at stored
      -- Row and views move together or not at all; a deleted row has nothing left to count.
      cases effect s.shared id p now with
      | increments before about found after answers =>
        subst about
        obtain rfl := Option.some.inj (stored.symm.trans after)
        exact (counted before found).viewedOnce now (views_answers here answers)
      | keeps same quiet _ =>
        have before := counted row (same.symm.trans stored)
        exact ⟨before.limit, before.counted.trans (by rw [views_quiet here quiet]), before.pending⟩
      | removes gone _ _ => simp [gone] at stored

/-- No more calls than allowed have returned the row, and it counts them. -/
structure Capped (id : String) (most : Int) (s : State) : Prop where
  atMost : views s id ≤ most
  counted : ∀ row ∈ s.shared.find? id, row.currentViews = views s id

/-- A call that returns the row now finds it stored, below its maximum and not past its expiry. -/
def InTime (id : String) (most : Int) (s : State) : Move Call Int → Prop
  | .call call => views (step s (.call call)) id = views s id
  | .advance i now => views (step s (.advance i now)) id = views s id ∨
      ∃ row ∈ s.shared.find? id, row.currentViews < most ∧ ¬ row.Past now

/-- Where the next step raises the counter, the row would still pass the check that was made when it was read. -/
def StillViewable (id : String) (s : State) : Move Call Int → Prop
  | .call _ => True
  | .advance i now => ∀ p ∈ s.procs[i]?, p = .viewIncrement id →
      ∀ row ∈ s.shared.find? id, row.state = .pending ∧ ¬ row.Past now

instance (id : String) (s : State) : (move : Move Call Int) → Decidable (StillViewable id s move)
  | .call _ => .isTrue trivial
  | .advance i now => inferInstanceAs (Decidable (∀ p ∈ s.procs[i]?, p = .viewIncrement id →
      ∀ row ∈ s.shared.find? id, row.state = .pending ∧ ¬ row.Past now))

theorem views_advance {s : State} {i : Nat} {p : Proc} {now : Int} (here : s.procs[i]? = some p)
    (counted : Counted id most s) (met : StillViewable id s (.advance i now)) :
    views (step s (.advance i now)) id = views s id ∨ ∃ row ∈ s.shared.find? id, row.currentViews < most ∧
      ¬ row.Past now ∧ views (step s (.advance i now)) id = views s id + 1 := by
  cases effect s.shared id p now with
  | increments row about found after answers =>
    subst about
    obtain ⟨waiting, ahead⟩ := met _ here rfl row found
    exact .inr ⟨row, found, (counted row found).pending.mp waiting, ahead, views_answers here answers⟩
  | keeps _ quiet _ => exact .inl (views_quiet here quiet)
  | removes _ quiet _ => exact .inl (views_quiet here quiet)

/-- The next step deletes the row: that of an `ephemeral_delete` which was let through, or a cleaning past its expiry. -/
def Deletes (id : String) (s : State) : Move Call Int → Prop
  | .call _ => False
  | .advance i now => ∃ p ∈ s.procs[i]?, p = .deleteRow id ∨
      (p = .cleaning ∨ ∃ caller other, p = .viewClean caller other) ∧ ∃ row ∈ s.shared.find? id, row.Past now

/-- The row is gone, and this many calls have returned it. -/
def Gone (id : String) (returned : Nat) (s : State) : Prop := s.shared.find? id = none ∧ views s id = returned

/-- Once it was deleted the row is in no later state, and no later call returns it. -/
def StaysDeleted (id : String) (start : State) (calls : List (Move Call Int)) : Prop :=
  ∀ before move after rest, calls = before ++ move :: (after ++ rest) → Deletes id (run step start before) move →
    Gone id (views (run step start before) id) (run step start (before ++ move :: after))

theorem find?_cleanExpired_of_past {rows : Rows} {row : EphemeralMediaRow} {now : Int} (stored : rows.find? id = some row)
    (past : row.Past now) : (cleanExpired rows now).1.find? id = none := by
  rw [cleanExpired, Table.find?_delete, stored, Option.filter_some, decide_eq_true past]
  rfl

theorem gone_of_deletes {s : State} {move : Move Call Int} (deletes : Deletes id s move) :
    Gone id (views s id) (step s move) := by
  cases move with
  | call call => exact deletes.elim
  | advance i now =>
    obtain ⟨p, here, rfl | ⟨rfl | ⟨caller, other, rfl⟩, row, stored, past⟩⟩ := deletes
    · refine ⟨?_, views_quiet here rfl⟩
      rw [shared_advance here]
      exact (Table.find?_delete_key s.shared id id).trans (if_pos rfl)
    all_goals
      refine ⟨?_, views_quiet here rfl⟩
      rw [shared_advance here]
      exact find?_cleanExpired_of_past stored past

theorem Gone.step {returned : Nat} {s : State} (gone : Gone id returned s) (move : Move Call Int) :
    Gone id returned (step s move) := by
  obtain ⟨absent, returned⟩ := gone
  cases move with
  | call call => exact ⟨absent, (views_call s call).trans returned⟩
  | advance i now =>
    cases here : s.procs[i]? with
    | none =>
      simp only [Ephemeral.step, Processes.step, here]
      exact ⟨absent, returned⟩
    | some p =>
      rw [Gone, shared_advance here]
      cases effect s.shared id p now with
      | increments row _ stored => cases absent.symm.trans stored
      | keeps same quiet => exact ⟨same.trans absent, (views_quiet here quiet).trans returned⟩
      | removes gone quiet => exact ⟨gone, (views_quiet here quiet).trans returned⟩

theorem stays_deleted (start : State) (calls : List (Move Call Int)) : StaysDeleted id start calls := by
  intro before move after rest _ deletes
  rw [Runs.run_append]
  exact (Runs.always_of_invariant (fun _ move gone => gone.step move) (gone_of_deletes deletes)).last

/-- As `ephemeral_save` writes a row. -/
structure EphemeralMediaRow.Saved (row : EphemeralMediaRow) : Prop where
  allowed : 1 ≤ row.maxViews ∧ row.maxViews ≤ 100
  unviewed : row.currentViews = 0
  pending : row.state = .pending

theorem counted_start {rows : Rows} {row : EphemeralMediaRow} (stored : rows.find? id = some row) (saved : row.Saved) :
    Counted id row.maxViews ⟨rows, []⟩ := by
  intro other found
  obtain rfl := Option.some.inj (stored.symm.trans found)
  refine ⟨rfl, saved.unviewed, iff_of_true saved.pending ?_⟩
  rw [saved.unviewed]
  exact saved.allowed.1

/-- The calls return the row no more often than it allows, while it lasts and never after it was deleted, and it counts
them. -/
def Burns (id : String) (most : Int) (start : State) (calls : List (Move Call Int)) : Prop :=
  Runs.Always step (Capped id most) start calls ∧ Throughout step (InTime id most) start calls ∧
    StaysDeleted id start calls

theorem stillViewable_of_inTime {s : State} (counted : Counted id most s) (move : Move Call Int)
    (inTime : InTime id most s move) : StillViewable id s move := by
  cases move with
  | call call => trivial
  | advance i now =>
    rintro p here rfl row stored
    obtain ⟨row', about, found, after, answers⟩ | ⟨_, _, absent⟩ | ⟨_, _, other⟩ :=
      effect s.shared id (.viewIncrement id) now
    · -- This step returns the row, so the views are not what they were.
      have more := views_answers here answers
      obtain same | ⟨again, found', below, ahead⟩ := inTime
      · omega
      · obtain rfl := Option.some.inj (Eq.trans stored.symm found')
        exact ⟨(counted row stored).pending.mpr below, ahead⟩
    · exact nomatch (absent rfl).symm.trans stored
    · exact absurd rfl other

theorem inTime_of_stillViewable {s : State} (counted : Counted id most s) (move : Move Call Int)
    (met : StillViewable id s move) : InTime id most s move := by
  cases move with
  | call call => exact views_call s call
  | advance i now =>
    cases here : s.procs[i]? with
    | none => exact .inl (by simp only [step, Processes.step, here])
    | some p =>
      obtain same | ⟨row, found, below, ahead, _⟩ := views_advance here counted met
      · exact .inl same
      · exact .inr ⟨row, found, below, ahead⟩

theorem views_step_le {s : State} (counted : Counted id most s) (atMost : views s id ≤ most) (move : Move Call Int)
    (met : StillViewable id s move) : views (step s move) id ≤ most := by
  cases move with
  | call call => rwa [views_call]
  | advance i now =>
    cases here : s.procs[i]? with
    | none => simpa only [step, Processes.step, here] using atMost
    | some p =>
      obtain same | ⟨row, found, below, _, more⟩ := views_advance here counted met
      · rwa [same]
      · -- The row that is returned once more was below its maximum.
        rw [(counted row found).counted] at below
        omega

theorem counted_always {start : State} (counted : Counted id most start) (calls : List (Move Call Int)) :
    Runs.Always step (Counted id most) start calls :=
  Runs.always_of_invariant (fun _ move kept => counted_step kept move) counted

theorem ephemeralView_burns (rows : Rows) (id : String) (row : EphemeralMediaRow) (stored : rows.find? id = some row)
    (saved : row.Saved) (calls : List (Move Call Int)) :
    Burns id row.maxViews ⟨rows, []⟩ calls ↔ Throughout step (StillViewable id) ⟨rows, []⟩ calls := by
  have counted := counted_start stored saved
  have always := counted_always counted calls
  constructor
  · rintro ⟨-, inTime, -⟩
    exact always.throughout (fun _ move counted inTime => stillViewable_of_inTime counted move inTime) inTime
  · intro met
    refine ⟨?_, always.throughout (fun _ move counted met => inTime_of_stillViewable counted move met) met,
      stays_deleted _ calls⟩
    have both := Runs.always_of_throughout
      (P := fun s => Counted id row.maxViews s ∧ (views s id : Int) ≤ row.maxViews)
      (fun _ move kept met => ⟨counted_step kept.1 move, views_step_le kept.1 kept.2 move met⟩)
      ⟨counted, (show (0 : Int) ≤ 1 by decide).trans saved.allowed.1⟩ met
    exact both.imp fun _ kept => ⟨kept.2, fun row found => (kept.1 row found).counted⟩

end Run

def recipient : Key := Vector.replicate 32 0x22

def note : EphemeralMediaRow where
  messageId := "msg1"
  conversationId := "conv1"
  conversationType := "dm"
  mediaUrl := "https://example.com/media.jpg"
  mediaType := "image/jpeg"
  senderPubkey := Escrow.toHex (Vector.replicate 32 0x11)
  recipientPubkey := Escrow.toHex recipient
  maxViews := 1
  currentViews := 0
  state := .pending
  expiresAt := some 100
  createdAt := 0
  viewedAt := none

def noteRows : Rows := Table.empty.upsert "m" note id

/-- Both calls check the row before either of them raises its counter. -/
def viewedTwice : List (Move Call Int) :=
  [.call (.view (some recipient) "m"), .call (.view (some recipient) "m"), .advance 0 10, .advance 1 10, .advance 0 10,
    .advance 1 10, .advance 0 10, .advance 1 10]

theorem ephemeralView_twice :
    noteRows.find? "m" = some note ∧ note.maxViews = 1 ∧ views (run step ⟨noteRows, []⟩ viewedTwice) "m" = 2 ∧
      ((run step ⟨noteRows, []⟩ viewedTwice).shared.find? "m").map (·.currentViews) = some 2 := by
  decide

/-- The second call reads the row after the first has raised its counter, and the fourth after it was deleted. -/
def viewedInTurn : List (Move Call Int) :=
  [.call (.view (some recipient) "m"), .call (.view (some recipient) "m"), .advance 0 10, .advance 0 10, .advance 0 10,
    .advance 1 10, .advance 1 10, .advance 1 10, .call (.delete (some recipient) "m"), .advance 2 10, .advance 2 10,
    .call (.view (some recipient) "m"), .advance 3 10, .advance 3 10]

theorem ephemeralView_burns_note :
    noteRows.find? "m" = some note ∧ note.Saved ∧ Burns "m" 1 ⟨noteRows, []⟩ viewedInTurn := by
  have stored : noteRows.find? "m" = some note := by decide
  have saved : note.Saved := ⟨by decide, rfl, rfl⟩
  exact ⟨stored, saved, (ephemeralView_burns noteRows "m" note stored saved _).mpr (by decide)⟩

end Soshal.Bridge.Ephemeral
