import Soshal.Library.Bounded
import Soshal.Library.Runs
import Soshal.Library.Text
import Soshal.Nostr.Event

/-! Catch-up cursors of the sync engine.

Received events are remembered, batched and ingested; each event that persists
raises the cursor of its kind, and a flush writes the cursors that moved. The next
session subscribes from the persisted values, a little before each. A session and
its restarts are one run; only the settings table survives a restart.
-/

set_option autoImplicit false

namespace Soshal.Sync

open Library
open Library.Text (hexEncode)
open Nostr (Event)

inductive Watermark where
  | feed
  | dm
  | metadata
  deriving DecidableEq

abbrev Cursors := Watermark → Nat

def overlapFeedSecs : Nat := 120

def overlapDmSecs : Nat := 300

def overlapMetaSecs : Nat := 3600

def watermarkSkewSecs : Nat := 120

def seenCap : Nat := 8192

/-- Which watermark an event of this kind moves; kinds without one of their own count as feed. -/
def watermarkKey (kind : UInt16) : Option Watermark :=
  if kind = 31020 then some .metadata
  else if kind = 1 then some .feed
  else if kind = 4 then some .dm
  else if kind = 0 then some .metadata
  else if kind = 3 ∨ kind = 10002 ∨ kind = 10003 ∨ kind = 9735 then some .metadata
  else some .feed

/-- A subscription filter; its `since` is a watermark less an overlap. -/
structure CatchUp where
  kinds : Option (List UInt16)
  ownOnly : Bool
  taggingMe : Bool
  watermark : Watermark
  overlap : Nat

def catchUps : List CatchUp :=
  [⟨some [1, 5], false, false, .feed, overlapFeedSecs⟩,
   ⟨some [4], false, true, .dm, overlapDmSecs⟩,
   ⟨some [0], false, false, .metadata, overlapMetaSecs⟩,
   ⟨some [3, 10002, 10003, 9734, 9735], false, false, .metadata, overlapMetaSecs⟩,
   ⟨some [31020], false, false, .metadata, overlapMetaSecs⟩,
   ⟨some [7], true, false, .feed, overlapFeedSecs⟩,
   ⟨none, true, false, .feed, overlapFeedSecs⟩]

section Engine

variable (me : Vector UInt8 32)

/-- The event is of the kind the filter asks for, whatever its time. -/
def CatchUp.Asks (c : CatchUp) (e : Event) : Prop :=
  (∀ kinds, c.kinds = some kinds → e.kind ∈ kinds) ∧ (c.ownOnly = true → e.pubkey = me) ∧
    (c.taggingMe = true → ∃ tag ∈ e.tags, tag[0]? = some "p" ∧ tag[1]? = some (hexEncode me.toList))

def CatchUp.since (c : CatchUp) (persisted : Cursors) : Nat := persisted c.watermark - c.overlap

/-- The settings table; the session's cursors, the values it last wrote, the ids it has seen and the batch it is
filling. `failed` and `failedHere` hold the events whose last ingest failed, in any session and in this one, and
`ignored` the redeliveries of the latter that were not handed to ingest. -/
structure Engine where
  settings : Cursors
  cursors : Cursors
  persisted : Cursors
  seen : BoundedSet (Vector UInt8 32)
  batch : List Event
  failed : List Event
  failedHere : List Event
  ignored : List Event

def Engine.opened (settings : Cursors) (failed ignored : List Event) : Engine where
  settings := settings
  cursors := settings
  persisted := settings
  seen := .empty seenCap
  batch := []
  failed := failed
  failedHere := []
  ignored := ignored

/-- Raises the cursor of an event that was ingested, to at most a little past the present. -/
def advance (now : Nat) (cursors : Cursors) (e : Event) : Cursors :=
  match watermarkKey e.kind with
  | none => cursors
  | some key =>
    let capped := min e.createdAt.toNat (now + watermarkSkewSecs)
    if capped > cursors key then Function.update cursors key capped else cursors

/-- The events of the batch at the positions that `ok` lists, and those at the others. -/
def persistedOf (ok : List Nat) (batch : List Event) : List Event :=
  (batch.zipIdx.filter fun entry => decide (entry.2 ∈ ok)).map Prod.fst

def skippedOf (ok : List Nat) (batch : List Event) : List Event :=
  (batch.zipIdx.filter fun entry => decide (entry.2 ∉ ok)).map Prod.fst

inductive EngineCall where
  | receive (e : Event)
  /-- `outcome` lists the positions that persisted; `none` when the transaction or its worker failed. -/
  | ingest (outcome : Option (List Nat)) (now : Nat)
  | flush (written : Bool)
  | restart

def Engine.receive (s : Engine) (e : Event) : Engine :=
  -- An id counts as seen from its first arrival on, whatever its ingest comes to.
  match s.seen.insert e.id with
  | (seen, true) => { s with seen := seen, batch := s.batch ++ [e], failedHere := s.failedHere.filter (· ≠ e) }
  | (seen, false) =>
    { s with seen := seen, ignored := if e ∈ s.failedHere then e :: s.ignored else s.ignored }

def Engine.ingest (s : Engine) (outcome : Option (List Nat)) (now : Nat) : Engine :=
  let ok := outcome.getD []
  let succeeded := persistedOf ok s.batch
  let skipped := skippedOf ok s.batch
  { s with
    batch := []
    -- A cursor rises past events of its kind that failed in the same batch.
    cursors := succeeded.foldl (advance now) s.cursors
    failed := s.failed.filter (· ∉ succeeded) ++ skipped
    failedHere := s.failedHere ++ skipped }

/-- Writes the cursors that differ from what was written last; a failed write is tried again at the next flush. -/
def Engine.flush (s : Engine) (written : Bool) : Engine :=
  if written then
    { s with
      settings := fun key => if s.persisted key ≠ s.cursors key then s.cursors key else s.settings key
      persisted := fun key => if s.persisted key ≠ s.cursors key then s.cursors key else s.persisted key }
  else s

def Engine.step (s : Engine) : EngineCall → Engine
  | .receive e => s.receive e
  | .ingest outcome now => s.ingest outcome now
  | .flush written => s.flush written
  | .restart => .opened s.settings s.failed s.ignored

variable {me}

theorem advance_apply (now : Nat) (cursors : Cursors) (e : Event) (key : Watermark) :
    advance now cursors e key =
      if watermarkKey e.kind = some key then max (cursors key) (min e.createdAt.toNat (now + watermarkSkewSecs))
      else cursors key := by
  unfold advance
  cases moves : watermarkKey e.kind with
  | none => simp
  | some other =>
    by_cases same : key = other
    · subst same
      simp only [if_true]
      split
      · rw [Function.update_self]
        omega
      · omega
    · rw [if_neg (by simpa using Ne.symm same)]
      simp only
      split
      · exact Function.update_of_ne same _ _
      · rfl

theorem le_advance (now : Nat) (cursors : Cursors) (e : Event) (key : Watermark) :
    cursors key ≤ advance now cursors e key := by
  rw [advance_apply]
  split
  · exact Nat.le_max_left _ _
  · exact Nat.le_refl _

theorem advance_le {now bound : Nat} {cursors : Cursors} {e : Event} {key : Watermark} (before : cursors key ≤ bound)
    (raised : watermarkKey e.kind = some key → min e.createdAt.toNat (now + watermarkSkewSecs) ≤ bound) :
    advance now cursors e key ≤ bound := by
  rw [advance_apply]
  split
  · rename_i moves
    exact Nat.max_le.mpr ⟨before, raised moves⟩
  · exact before

theorem le_foldl_advance (now : Nat) (events : List Event) (cursors : Cursors) (key : Watermark) :
    cursors key ≤ events.foldl (advance now) cursors key := by
  induction events generalizing cursors with
  | nil => exact Nat.le_refl _
  | cons e rest ih => exact (le_advance now cursors e key).trans (ih _)

theorem foldl_advance_le {now bound : Nat} {events : List Event} {cursors : Cursors} {key : Watermark}
    (before : cursors key ≤ bound)
    (raised : ∀ e ∈ events, watermarkKey e.kind = some key →
      min e.createdAt.toNat (now + watermarkSkewSecs) ≤ bound) :
    events.foldl (advance now) cursors key ≤ bound := by
  induction events generalizing cursors with
  | nil => exact before
  | cons e rest ih =>
    rw [List.forall_mem_cons] at raised
    exact ih (advance_le before raised.1) raised.2

/-- What was written last is what the settings hold, and the cursors are never behind it. -/
structure Engine.Ordered (s : Engine) : Prop where
  written : s.settings = s.persisted
  ahead : ∀ key, s.settings key ≤ s.cursors key

theorem Engine.ordered_opened (settings : Cursors) (failed ignored : List Event) :
    (opened settings failed ignored).Ordered := ⟨rfl, fun _ => Nat.le_refl _⟩

theorem Engine.Ordered.step {s : Engine} (ordered : s.Ordered) (call : EngineCall) : (s.step call).Ordered := by
  cases call with
  | receive e =>
    simp only [Engine.step, Engine.receive]
    split <;> exact ⟨ordered.written, ordered.ahead⟩
  | ingest outcome now =>
    refine ⟨ordered.written, ?_⟩
    intro key
    exact (ordered.ahead key).trans (le_foldl_advance now _ _ key)
  | flush written =>
    simp only [Engine.step, Engine.flush]
    split
    · refine ⟨by rw [ordered.written], ?_⟩
      intro key
      simp only
      split
      · exact Nat.le_refl _
      · exact ordered.ahead key
    · exact ordered
  | restart => exact Engine.ordered_opened s.settings s.failed s.ignored

theorem Engine.Ordered.settings_le {s : Engine} (ordered : s.Ordered) (call : EngineCall) (key : Watermark) :
    s.settings key ≤ (s.step call).settings key := by
  cases call with
  | receive e =>
    simp only [Engine.step, Engine.receive]
    split <;> exact Nat.le_refl _
  | ingest outcome now => exact Nat.le_refl _
  | flush written =>
    simp only [Engine.step, Engine.flush]
    split
    · simp only
      split
      · exact ordered.ahead key
      · exact Nat.le_refl _
    · exact Nat.le_refl _
  | restart => exact Nat.le_refl _

theorem Engine.Ordered.run {s : Engine} (ordered : s.Ordered) (calls : List EngineCall) :
    (Runs.run Engine.step s calls).Ordered := by
  have always : Runs.Always Engine.step Engine.Ordered s calls :=
    Runs.always_of_invariant (fun _ call kept => kept.step call) ordered
  exact always.last

theorem Engine.Ordered.settings_le_run {s : Engine} (ordered : s.Ordered) (calls : List EngineCall) (key : Watermark) :
    s.settings key ≤ (Runs.run Engine.step s calls).settings key := by
  induction calls generalizing s with
  | nil => exact Nat.le_refl _
  | cons call rest ih => exact (ordered.settings_le call key).trans (ih (ordered.step call))

variable (me)

/-- If the engine asks for such events at all, one of its filters reaches back to this one. -/
def CaughtUp (settings : Cursors) (e : Event) : Prop :=
  (∃ c ∈ catchUps, c.Asks me e) → ∃ c ∈ catchUps, c.Asks me e ∧ c.since settings ≤ e.createdAt.toNat

/-- No event whose ingest failed is lost: a new session asks for it, and this one takes it again. -/
structure Engine.Recoverable (s : Engine) : Prop where
  queried : ∀ e ∈ s.failed, CaughtUp me s.settings e
  retaken : s.ignored = []

/-- A failed event stays within the overlap of all that was and is ingested under the same watermark, and does not
come again while its id is remembered. -/
def Engine.Sparing (s : Engine) : EngineCall → Prop
  | .receive e => e ∈ s.failedHere → s.seen.contains e.id = false
  | .ingest outcome now =>
    ∀ e, (e ∈ s.failed ∧ e ∉ persistedOf (outcome.getD []) s.batch ∨ e ∈ skippedOf (outcome.getD []) s.batch) →
      (∃ c ∈ catchUps, c.Asks me e) →
      ∃ c ∈ catchUps, c.Asks me e ∧ s.cursors c.watermark ≤ e.createdAt.toNat + c.overlap ∧
        ∀ other ∈ persistedOf (outcome.getD []) s.batch, watermarkKey other.kind = some c.watermark →
          min other.createdAt.toNat (now + watermarkSkewSecs) ≤ e.createdAt.toNat + c.overlap
  | _ => True

/-- The cursors themselves still reach every failed event. -/
structure Engine.Spared (s : Engine) : Prop extends s.Ordered where
  reached : ∀ e ∈ s.failed, (∃ c ∈ catchUps, c.Asks me e) →
    ∃ c ∈ catchUps, c.Asks me e ∧ s.cursors c.watermark ≤ e.createdAt.toNat + c.overlap
  retaken : s.ignored = []

variable {me}

theorem Engine.Spared.recoverable {s : Engine} (spared : s.Spared me) : s.Recoverable me where
  queried e failed asked := by
    obtain ⟨c, listed, asks, near⟩ := spared.reached e failed asked
    refine ⟨c, listed, asks, ?_⟩
    have behind := spared.ahead c.watermark
    unfold CatchUp.since
    omega
  retaken := spared.retaken

theorem Engine.Spared.step {s : Engine} {call : EngineCall} (spared : s.Spared me) (sparing : s.Sparing me call) :
    (s.step call).Spared me := by
  have ordered := spared.toOrdered.step call
  cases call with
  | receive e =>
    have known := s.seen.insert_snd e.id
    simp only [Engine.step, Engine.receive] at ordered ⊢
    split
    · rename_i seen inserted
      rw [inserted] at ordered
      exact { toOrdered := ordered, reached := spared.reached, retaken := spared.retaken }
    · rename_i seen refused
      rw [refused] at ordered known
      refine { toOrdered := ordered, reached := spared.reached, retaken := ?_ }
      simp only
      rw [if_neg, spared.retaken]
      intro failed
      rw [sparing failed] at known
      simp at known
  | ingest outcome now =>
    refine { toOrdered := ordered, reached := ?_, retaken := spared.retaken }
    intro e failed asked
    have still : e ∈ s.failed ∧ e ∉ persistedOf (outcome.getD []) s.batch ∨
        e ∈ skippedOf (outcome.getD []) s.batch := by
      simpa [Engine.step, Engine.ingest] using failed
    obtain ⟨c, listed, asks, near, raised⟩ := sparing e still asked
    exact ⟨c, listed, asks, foldl_advance_le near raised⟩
  | flush written =>
    simp only [Engine.step, Engine.flush] at ordered ⊢
    split
    · rename_i done
      rw [if_pos done] at ordered
      exact { toOrdered := ordered, reached := spared.reached, retaken := spared.retaken }
    · exact spared
  | restart =>
    refine { toOrdered := ordered, reached := ?_, retaken := spared.retaken }
    intro e failed asked
    obtain ⟨c, listed, asks, near⟩ := spared.reached e failed asked
    exact ⟨c, listed, asks, (spared.ahead c.watermark).trans near⟩

end Engine

def ownKey : Vector UInt8 32 := Nostr.beBytes 32 9

def noteAt (number : Nat) (createdAt : UInt64) : Event where
  pubkey := Nostr.beBytes 32 7
  createdAt := createdAt
  kind := 1
  tags := []
  content := ""
  id := Nostr.beBytes 32 number
  sig := Nostr.beBytes 64 number

theorem asks_noteAt {c : CatchUp} {number : Nat} {createdAt : UInt64} (listed : c ∈ catchUps)
    (asks : c.Asks ownKey (noteAt number createdAt)) : c.watermark = .feed ∧ c.overlap = overlapFeedSecs := by
  have other : (noteAt number createdAt).pubkey ≠ ownKey := by
    simp only [noteAt]
    decide
  obtain ⟨kinds, own, -⟩ := asks
  simp only [catchUps, List.mem_cons, List.not_mem_nil, or_false] at listed
  obtain rfl | rfl | rfl | rfl | rfl | rfl | rfl := listed
  · exact ⟨rfl, rfl⟩
  · exact absurd (kinds _ rfl) (by simp [noteAt])
  · exact absurd (kinds _ rfl) (by simp [noteAt])
  · exact absurd (kinds _ rfl) (by simp [noteAt])
  · exact absurd (kinds _ rfl) (by simp [noteAt])
  · exact absurd (own rfl) other
  · exact absurd (own rfl) other

theorem firstFilter_asks (number : Nat) (createdAt : UInt64) :
    ∃ c ∈ catchUps, c.Asks ownKey (noteAt number createdAt) ∧ c.watermark = .feed ∧ c.overlap = overlapFeedSecs :=
  ⟨_, List.mem_cons_self .., ⟨by simp [noteAt], by simp, by simp⟩, rfl, rfl⟩

end Soshal.Sync
