import Soshal.Library.Broadcast
import Soshal.Library.Runs
import Soshal.Library.Text

/-! Observed queries.

A query is evaluated once by the caller of `observe`; the task that is spawned
subscribes to the change bus and evaluates it again after every change it watches.
Commits, their notifications and the steps of both threads interleave freely. An
evaluation reads the database over a stretch of time: where a watched write is
committed meanwhile, nothing is said of its result.
-/

set_option autoImplicit false

namespace Soshal.Db.Observable

open Library.Broadcast Library.Runs
open Library.Text (eqIgnoreAsciiCase normKey)

inductive Table where
  | posts
  | reactions
  | messages
  | notifications
  | profiles
  | blocks
  | bookmarks
  | settings
  | relays
  | groups
  deriving DecidableEq

structure TableChangeEvent where
  table : Table
  affectedAccount : Option String
  timestamp : Int
  deriving DecidableEq

def defaultChangeBusCapacity : Nat := 1024

/-- What `observe` is called with. -/
structure Query (σ τ : Type) where
  tables : List Table
  accountFilter : Option String
  capacity : Nat
  query : σ → τ

/-- The step of a thread that comes next. `torn` tells whether a watched write was committed since an evaluation began. -/
inductive Phase where
  | initial (torn : Bool)
  | spawned
  | idle
  | debouncing
  | draining
  | evaluating (torn : Bool)
  deriving DecidableEq

def Phase.subscribed : Phase → Bool
  | .initial _ => false
  | .spawned => false
  | _ => true

def Phase.touch (watched : Bool) : Phase → Phase
  | .initial torn => .initial (torn || watched)
  | .evaluating torn => .evaluating (torn || watched)
  | phase => phase

/-- A notification that its writer has still to send; `late` when the write was committed after `observe` began. -/
structure Notice where
  event : TableChangeEvent
  late : Bool

structure System (σ τ : Type) where
  committed : σ
  observed : Option τ
  phase : Phase
  bus : Receiver TableChangeEvent
  outstanding : List Notice

inductive Move (σ τ : Type) where
  | commit (after : σ) (event : TableChangeEvent)
  | notify (i : Nat)
  | evaluated (torn : τ)
  | subscribe
  | receive
  | wake
  | drain

section Steps

variable {σ τ : Type} (q : Query σ τ)

/-- The filters of the task: the table, and the account where both sides name one. -/
def Query.watches (e : TableChangeEvent) : Bool :=
  decide (e.table ∈ q.tables) &&
    match q.accountFilter.map normKey, e.affectedAccount with
    | some filter, some account => eqIgnoreAsciiCase filter account
    | _, _ => true

/-- What the task makes of a loss: a change of the first watched table. -/
def Query.fallback : TableChangeEvent := ⟨q.tables.head?.getD .posts, none, 0⟩

def System.heard (s : System σ τ) (e : TableChangeEvent) (bus : Receiver TableChangeEvent) : System σ τ :=
  { s with bus := bus, phase := if q.watches e then .debouncing else .idle }

def step (s : System σ τ) : Move σ τ → System σ τ
  | .commit after event =>
    { s with
      committed := after
      phase := s.phase.touch (q.watches event)
      outstanding := s.outstanding ++ [⟨event, true⟩] }
  | .notify i =>
    match s.outstanding[i]? with
    | none => s
    | some notice =>
      { s with
        outstanding := s.outstanding.eraseIdx i
        -- A broadcast reaches the receivers that exist.
        bus := if s.phase.subscribed then s.bus.deliver q.capacity notice.event else s.bus }
  | .evaluated value =>
    match s.phase with
    | .initial torn =>
      { s with observed := some (if torn then value else q.query s.committed), phase := .spawned }
    | .evaluating torn =>
      { s with observed := some (if torn then value else q.query s.committed), phase := .idle }
    | _ => s
  | .subscribe => if s.phase = .spawned then { s with phase := .idle, bus := .new } else s
  | .receive =>
    if s.phase = .idle then
      match s.bus.receive with
      | (.empty, _) => s
      | (.message e, bus) => s.heard q e bus
      | (.lagged, bus) => s.heard q q.fallback bus
    else s
  | .wake => if s.phase = .debouncing then { s with phase := .draining } else s
  | .drain =>
    if s.phase = .draining then
      match s.bus.receive with
      | (.message _, bus) => { s with bus := bus }
      -- A loss ends the loop like an empty bus.
      | (_, bus) => { s with bus := bus, phase := .evaluating false }
    else s

/-- The caller of `observe` evaluates the query; notifications of earlier writes may still be on their way. -/
structure Start (s : System σ τ) : Prop where
  phase : s.phase = .initial false
  bus : s.bus = .new

/-- At rest with nothing to hear, the value is the query of the latest committed state. -/
def Fresh (s : System σ τ) : Prop :=
  s.phase = .spawned ∨ s.phase = .idle → s.bus = .new → (∀ notice ∈ s.outstanding, q.watches notice.event = false) →
    s.observed = some (q.query s.committed)

/-- No watched change is announced between the first evaluation and the subscription; a write that the filters skip is
one that the query does not see. -/
def Heard (s : System σ τ) : Move σ τ → Prop
  | .commit after event => q.watches event = false → q.query after = q.query s.committed
  | .notify i => ∀ notice, s.outstanding[i]? = some notice → notice.late = true → q.watches notice.event = true →
      s.phase.subscribed = true
  | _ => True

/-- The task will hear of a watched change, or of having lost one. -/
def Coming (s : System σ τ) : Prop :=
  (∃ notice ∈ s.outstanding, notice.late = true ∧ q.watches notice.event = true) ∨
    (q.watches q.fallback = true ∧ s.bus.Pending fun e => q.watches e = true)

/-- A value that is not current is about to be replaced, or a watched change is coming. -/
structure Inv (s : System σ τ) : Prop where
  unheard : s.phase.subscribed = false → s.bus = .new
  current :
    match s.phase with
    | .initial torn => torn = true → Coming q s
    | .evaluating torn => torn = true → Coming q s
    | .spawned => s.observed ≠ some (q.query s.committed) → Coming q s
    | .idle => s.observed ≠ some (q.query s.committed) → Coming q s
    | .debouncing => True
    | .draining => True

variable {q} {s : System σ τ}

theorem watches_fallback {e : TableChangeEvent} (watched : q.watches e = true) : q.watches q.fallback = true := by
  have member : e.table ∈ q.tables := by
    simp only [Query.watches, Bool.and_eq_true, decide_eq_true_eq] at watched
    exact watched.1
  obtain ⟨first, rest, tables⟩ := List.exists_cons_of_ne_nil (List.ne_nil_of_mem member)
  cases filter : q.accountFilter <;> simp [Query.watches, Query.fallback, tables, filter]

theorem Start.inv (start : Start s) : Inv q s where
  unheard _ := start.bus
  current := by simp [start.phase]

theorem Inv.fresh (inv : Inv q s) : Fresh q s := by
  intro rest empty told
  have current := inv.current
  have silent : ¬ Coming q s := by
    rintro (⟨notice, member, _, watched⟩ | ⟨_, pending⟩)
    · simp [told notice member] at watched
    · exact Receiver.not_pending_new (empty ▸ pending)
  by_contra stale
  rcases rest with phase | phase <;> rw [phase] at current <;> exact silent (current stale)

theorem Coming.grow (coming : Coming q s) {after : System σ τ} (bus : after.bus = s.bus)
    (outstanding : ∀ notice ∈ s.outstanding, notice ∈ after.outstanding) : Coming q after := by
  rcases coming with ⟨notice, member, told⟩ | ⟨loss, pending⟩
  · exact .inl ⟨notice, outstanding notice member, told⟩
  · exact .inr ⟨loss, bus.symm ▸ pending⟩

theorem Inv.commit (inv : Inv q s) {after : σ} {event : TableChangeEvent} (heard : Heard q s (.commit after event)) :
    Inv q (step q s (.commit after event)) := by
  have grow : Coming q s → Coming q (step q s (.commit after event)) := fun coming =>
    coming.grow rfl fun notice member => List.mem_append_left _ member
  have new : q.watches event = true → Coming q (step q s (.commit after event)) := fun watched =>
    .inl ⟨⟨event, true⟩, List.mem_append_right _ List.mem_cons_self, rfl, watched⟩
  have torn : ∀ before : Bool, (before = true → Coming q s) → (before || q.watches event) = true →
      Coming q (step q s (.commit after event)) := by
    intro before current now
    rcases Bool.or_eq_true_iff.mp now with old | watched
    · exact grow (current old)
    · exact new watched
  have stale : (s.observed ≠ some (q.query s.committed) → Coming q s) → s.observed ≠ some (q.query after) →
      Coming q (step q s (.commit after event)) := by
    intro current other
    cases watched : q.watches event with
    | true => exact new watched
    | false => exact grow (current (heard watched ▸ other))
  have current := inv.current
  refine ⟨fun mute => inv.unheard ?_, ?_⟩
  · simp only [step] at mute
    cases phase : s.phase <;> simp_all [Phase.touch, Phase.subscribed]
  · cases phase : s.phase <;> simp only [phase] at current <;> simp only [step, phase, Phase.touch]
    case initial before => exact torn before current
    case evaluating before => exact torn before current
    case spawned => exact stale current
    case idle => exact stale current

theorem Coming.notify {i : Nat} {notice : Notice} (found : s.outstanding[i]? = some notice) (coming : Coming q s)
    (subscribed : s.phase.subscribed = true ∨ (s.bus = .new ∧ ¬ (notice.late = true ∧ q.watches notice.event = true))) :
    Coming q (step q s (.notify i)) := by
  rcases coming with ⟨told, member, late, watched⟩ | ⟨loss, pending⟩
  · rcases eq_or_ne told notice with rfl | other
    · rcases subscribed with subscribed | ⟨_, apart⟩
      · refine .inr ⟨watches_fallback watched, ?_⟩
        simp only [step, found, subscribed, if_true]
        exact Receiver.pending_deliver (p := fun e => q.watches e = true) watched _ _
      · exact absurd ⟨late, watched⟩ apart
    · refine .inl ⟨told, ?_, late, watched⟩
      simp only [step, found]
      obtain ⟨j, here⟩ := List.mem_iff_getElem?.mp member
      refine List.mem_eraseIdx_iff_getElem?.mpr ⟨j, fun same => other ?_, here⟩
      rw [same, found] at here
      exact (Option.some.inj here).symm
  · rcases subscribed with subscribed | ⟨bus, _⟩
    · refine .inr ⟨loss, ?_⟩
      simp only [step, found, subscribed, if_true]
      exact pending.deliver _ _
    · exact absurd (bus ▸ pending) Receiver.not_pending_new

theorem Inv.notify (inv : Inv q s) {i : Nat} (heard : Heard q s (.notify i)) : Inv q (step q s (.notify i)) := by
  cases found : s.outstanding[i]? with
  | none => simpa only [step, found] using inv
  | some notice =>
    have coming : Coming q s → Coming q (step q s (.notify i)) := by
      intro coming
      refine coming.notify found ?_
      cases subscribed : s.phase.subscribed with
      | true => exact .inl rfl
      | false =>
        refine .inr ⟨inv.unheard subscribed, fun told => ?_⟩
        have impossible := heard notice found told.1 told.2
        simp [subscribed] at impossible
    have phase : (step q s (.notify i)).phase = s.phase := by simp only [step, found]
    have observed : (step q s (.notify i)).observed = s.observed := by simp only [step, found]
    have committed : (step q s (.notify i)).committed = s.committed := by simp only [step, found]
    have current := inv.current
    refine ⟨fun mute => ?_, ?_⟩
    · rw [phase] at mute
      simp only [step, found, mute]
      exact inv.unheard mute
    · rw [phase, observed, committed]
      cases here : s.phase <;> simp only [here] at current ⊢
      case initial before => exact fun torn => coming (current torn)
      case evaluating before => exact fun torn => coming (current torn)
      case spawned => exact fun stale => coming (current stale)
      case idle => exact fun stale => coming (current stale)

theorem Inv.evaluated (inv : Inv q s) (value : τ) : Inv q (step q s (.evaluated value)) := by
  have current := inv.current
  cases phase : s.phase <;> simp only [step, phase] at current ⊢
  case initial torn =>
    refine ⟨fun _ => inv.unheard (by simp [phase, Phase.subscribed]), fun stale => ?_⟩
    cases torn with
    | true => exact (current rfl).grow rfl fun _ member => member
    | false => exact absurd rfl stale
  case evaluating torn =>
    refine ⟨fun mute => by simp [Phase.subscribed] at mute, fun stale => ?_⟩
    cases torn with
    | true => exact (current rfl).grow rfl fun _ member => member
    | false => exact absurd rfl stale
  all_goals exact inv

theorem Inv.subscribe (inv : Inv q s) : Inv q (step q s .subscribe) := by
  by_cases spawned : s.phase = .spawned
  · have current := inv.current
    have bus := inv.unheard (by simp [spawned, Phase.subscribed])
    simp only [spawned] at current
    simp only [step, if_pos spawned]
    refine ⟨fun mute => by simp [Phase.subscribed] at mute, fun stale => ?_⟩
    exact (current stale).grow bus.symm fun _ member => member
  · simpa only [step, if_neg spawned] using inv

theorem heard_inv {e : TableChangeEvent} {bus : Receiver TableChangeEvent}
    (skipped : q.watches e = false → s.observed ≠ some (q.query s.committed) → Coming q (s.heard q e bus)) :
    Inv q (s.heard q e bus) := by
  cases watched : q.watches e with
  | true =>
    have phase : (s.heard q e bus).phase = .debouncing := by simp [System.heard, watched]
    exact ⟨fun mute => by simp [phase, Phase.subscribed] at mute, by simp [phase]⟩
  | false =>
    have phase : (s.heard q e bus).phase = .idle := by simp [System.heard, watched]
    refine ⟨fun mute => by simp [phase, Phase.subscribed] at mute, ?_⟩
    rw [phase]
    exact skipped watched

theorem Inv.receive (inv : Inv q s) : Inv q (step q s .receive) := by
  by_cases idle : s.phase = .idle
  · have current := inv.current
    simp only [idle] at current
    simp only [step, if_pos idle]
    -- What was coming is heard now, or still coming.
    have next : ∀ e bus, (q.watches e = false → (s.bus.Pending fun e => q.watches e = true) →
          q.watches q.fallback = true → bus.Pending fun e => q.watches e = true) → Inv q (s.heard q e bus) := by
      intro e bus left
      refine heard_inv fun skipped stale => ?_
      rcases current stale with told | ⟨loss, pending⟩
      · exact .inl told
      · exact .inr ⟨loss, left skipped pending loss⟩
    cases heard : s.bus.receive with
    | mk received bus =>
      cases received with
      | empty => exact inv
      | message e =>
        refine next e bus fun skipped pending _ => ?_
        have left := pending.receive
        simp only [heard, reduceCtorEq, Received.message.injEq, exists_eq_left', false_or, skipped,
          Bool.false_eq_true] at left
        exact left
      | lagged =>
        refine next _ bus fun skipped _ loss => ?_
        simp [skipped] at loss
  · simpa only [step, if_neg idle] using inv

theorem Inv.wake (inv : Inv q s) : Inv q (step q s .wake) := by
  by_cases debouncing : s.phase = .debouncing
  · simp only [step, if_pos debouncing]
    exact ⟨fun mute => by simp [Phase.subscribed] at mute, trivial⟩
  · simpa only [step, if_neg debouncing] using inv

theorem Inv.drain (inv : Inv q s) : Inv q (step q s .drain) := by
  by_cases draining : s.phase = .draining
  · simp only [step, if_pos draining]
    split
    · exact ⟨fun mute => by simp [draining, Phase.subscribed] at mute, by simp [draining]⟩
    · exact ⟨fun mute => by simp [Phase.subscribed] at mute, by simp⟩
  · simpa only [step, if_neg draining] using inv

theorem Inv.step (inv : Inv q s) {move : Move σ τ} (heard : Heard q s move) : Inv q (step q s move) := by
  cases move with
  | commit after event => exact inv.commit heard
  | notify i => exact inv.notify heard
  | evaluated value => exact inv.evaluated value
  | subscribe => exact inv.subscribe
  | receive => exact inv.receive
  | wake => exact inv.wake
  | drain => exact inv.drain

/-- In a run that announces no watched change before the subscription, the value is current whenever it is at rest. -/
theorem observe_fresh {start : System σ τ} {moves : List (Move σ τ)} (begins : Start start)
    (heard : Throughout (Observable.step q) (Heard q) start moves) :
    Always (Observable.step q) (Fresh q) start moves :=
  (always_of_throughout (fun _ _ inv heard => inv.step heard) begins.inv heard).imp fun _ inv => inv.fresh

end Steps

section Counter

def counterQuery : Query Nat Nat := ⟨[.posts], none, defaultChangeBusCapacity, id⟩

def counterStart : System Nat Nat := ⟨0, none, .initial false, .new, []⟩

def posted : TableChangeEvent := ⟨.posts, none, 1⟩

theorem counter_fresh : Always (step counterQuery) (Fresh counterQuery) counterStart
    [.evaluated 0, .subscribe, .commit 1 posted, .notify 0, .receive, .wake, .drain, .evaluated 0] := by
  refine observe_fresh ⟨rfl, rfl⟩ ⟨trivial, trivial, ?_, ?_, trivial, trivial, trivial, trivial, trivial⟩
  · intro skipped
    exact absurd skipped (by decide)
  · intro notice _ _ _
    decide

/-- A write that is committed and announced between the two evaluations is never seen. -/
theorem early_write_missed :
    let last := run (step counterQuery) counterStart [.evaluated 0, .commit 1 posted, .notify 0, .subscribe]
    last.phase = .idle ∧ last.bus = .new ∧ last.outstanding = [] ∧ last.observed = some 0 ∧ last.committed = 1 ∧
      ¬ Fresh counterQuery last := by
  refine ⟨rfl, rfl, rfl, rfl, rfl, fun fresh => ?_⟩
  have current := fresh (.inr rfl) rfl fun notice member => absurd member List.not_mem_nil
  exact absurd current (by decide)

end Counter

end Soshal.Db.Observable
