import Soshal.Bridge.PinLock
import Soshal.Library.Checked

/-! Sequences of PIN attempts, with the counters as 64-bit integers.

The clock may go back. The caller keeps the counters after every attempt, and the
permanent lock once an attempt reports it. The end of a lockout window is the only sum
that the integers may be too small for, and an overflow ends the process.
-/

set_option autoImplicit false

namespace Soshal.Bridge.PinAttempts

open Library
open Library.Checked
open PinLock (PinLockoutState PinVerdict applyPinAttempt pinHardLimit pinLockoutDelays pinMaxAttempts)
open Library.Runs (Always Throughout run)

def lockoutDelay (attemptCount : Int) : Int :=
  pinLockoutDelays.getD (min (attemptCount - pinMaxAttempts) (pinLockoutDelays.length - 1)).toNat 0

def applyPinAttemptChecked (state : PinLockoutState) (now : Int) (correct permanentLocked : Bool) :
    Call (PinLockoutState × PinVerdict) :=
  if permanentLocked then pure (state, .permanentlyLocked)
  else
    let now := max now state.lastAttemptAt
    match state.lockedAt now with
    | some time => do
      let attemptCount ← Call.arith (state.attemptCount + 1)
      let state := { state with attemptCount := attemptCount, lastAttemptAt := now }
      if attemptCount ≥ pinHardLimit then return (state, .permanentlyLocked)
      else return (state, .lockedOutUntil time)
    | none =>
      if correct then pure (⟨0, now, none⟩, .ok)
      else do
        let attemptCount ← Call.arith (state.attemptCount + 1)
        let state := { state with attemptCount := attemptCount, lastAttemptAt := now }
        if attemptCount ≥ pinHardLimit then return (state, .permanentlyLocked)
        else if attemptCount ≥ pinMaxAttempts then do
          let _ ← Call.arith (attemptCount - pinMaxAttempts)
          let time ← Call.arith (now + lockoutDelay attemptCount)
          return ({ state with lockoutUntil := some time }, .incorrect (some time))
        else return (state, .incorrect none)

structure Attempt where
  now : Int
  correct : Bool
  inRange : InI64 now

/-- What the caller keeps between two attempts. -/
structure Lock where
  state : PinLockoutState
  permanent : Bool

def Lock.fresh : Lock := ⟨.fresh, false⟩

structure Entry where
  before : Lock
  attempt : Attempt
  after : Lock
  verdict : PinVerdict

/-- The device after some attempts, the last one first. -/
structure Device where
  lock : Lock
  log : List Entry
  aborted : Bool

def Device.fresh : Device := ⟨.fresh, [], false⟩

def Lock.keep (lock : Lock) (state : PinLockoutState) : PinVerdict → Lock
  | .ok => ⟨state, false⟩
  | .permanentlyLocked => ⟨state, true⟩
  | _ => ⟨state, lock.permanent⟩

@[simp] theorem Lock.state_keep (lock : Lock) (state : PinLockoutState) (verdict : PinVerdict) :
    (lock.keep state verdict).state = state := by
  cases verdict <;> rfl

def Device.attempt (d : Device) (a : Attempt) : Device :=
  if d.aborted then d
  else
    match (applyPinAttemptChecked d.lock.state a.now a.correct d.lock.permanent).outcome with
    | .error _ => { d with aborted := true }
    | .ok (state, verdict) =>
      let after := d.lock.keep state verdict
      ⟨after, ⟨d.lock, a, after, verdict⟩ :: d.log, false⟩

namespace Entry

def time (e : Entry) : Int := max e.attempt.now e.before.state.lastAttemptAt

/-- A lockout that was set before the attempt has not been lowered. -/
def KeepsLockout (e : Entry) : Prop :=
  ∀ before ∈ e.before.state.lockoutUntil, ∃ after ∈ e.after.state.lockoutUntil, before ≤ after

end Entry

structure Lawful (d : Device) : Prop where
  correct : ∀ e ∈ d.log, e.verdict = .ok →
    e.attempt.correct = true ∧ ∀ lockout ∈ e.before.state.lockoutUntil, lockout ≤ e.time
  locked : ∀ e ∈ d.log, pinHardLimit ≤ e.before.state.attemptCount → e.verdict ≠ .ok
  lockedLater : d.log.Pairwise fun later e => pinHardLimit ≤ e.before.state.attemptCount → later.verdict ≠ .ok
  lowered : ∀ e ∈ d.log, e.verdict ≠ .ok → e.KeepsLockout
  noOverflow : d.aborted = false

/-- No lockout window begins that the integers have no end for. -/
def WindowFits (state : PinLockoutState) (now : Int) (correct permanentLocked : Bool) : Prop :=
  permanentLocked = false → state.lockedAt (max now state.lastAttemptAt) = none → correct = false →
    pinMaxAttempts ≤ state.attemptCount + 1 → state.attemptCount + 1 < pinHardLimit →
      max now state.lastAttemptAt + lockoutDelay (state.attemptCount + 1) ≤ maxI64

instance (state : PinLockoutState) (now : Int) (correct permanentLocked : Bool) :
    Decidable (WindowFits state now correct permanentLocked) := inferInstanceAs (Decidable (_ → _ → _ → _ → _ → _))

def Device.Fits (d : Device) (a : Attempt) : Prop := WindowFits d.lock.state a.now a.correct d.lock.permanent

instance (d : Device) (a : Attempt) : Decidable (d.Fits a) := inferInstanceAs (Decidable (WindowFits _ _ _ _))

/-- What an attempt may do, at the time it is judged by. -/
inductive Attempted (state : PinLockoutState) (now : Int) : Bool → Bool → PinLockoutState × PinVerdict → Prop where
  | permanent {correct : Bool} : Attempted state now correct true (state, .permanentlyLocked)
  | window {correct : Bool} {time : Int} {verdict : PinVerdict} : state.lockoutUntil = some time → now < time →
      (pinHardLimit ≤ state.attemptCount + 1 ∧ verdict = .permanentlyLocked ∨
        state.attemptCount + 1 < pinHardLimit ∧ verdict = .lockedOutUntil time) →
      Attempted state now correct false (⟨state.attemptCount + 1, now, some time⟩, verdict)
  | correct : (∀ time ∈ state.lockoutUntil, time ≤ now) → Attempted state now true false (⟨0, now, none⟩, .ok)
  | hard : (∀ time ∈ state.lockoutUntil, time ≤ now) → pinHardLimit ≤ state.attemptCount + 1 →
      Attempted state now false false (⟨state.attemptCount + 1, now, state.lockoutUntil⟩, .permanentlyLocked)
  | lockout {time : Int} : (∀ time ∈ state.lockoutUntil, time ≤ now) → state.attemptCount + 1 < pinHardLimit →
      time = now + lockoutDelay (state.attemptCount + 1) →
      Attempted state now false false (⟨state.attemptCount + 1, now, some time⟩, .incorrect (some time))
  | wrong : (∀ time ∈ state.lockoutUntil, time ≤ now) → state.attemptCount + 1 < pinHardLimit →
      Attempted state now false false (⟨state.attemptCount + 1, now, state.lockoutUntil⟩, .incorrect none)

theorem lockedAt_eq_none_iff {state : PinLockoutState} {now : Int} :
    state.lockedAt now = none ↔ ∀ time ∈ state.lockoutUntil, time ≤ now := by
  simp [PinLockoutState.lockedAt, Option.filter_eq_none_iff]

theorem lockedAt_eq_some_iff {state : PinLockoutState} {now time : Int} :
    state.lockedAt now = some time ↔ state.lockoutUntil = some time ∧ now < time := by
  simp [PinLockoutState.lockedAt, Option.filter_eq_some_iff]

theorem attempted (state : PinLockoutState) (now : Int) (correct permanent : Bool) :
    Attempted state (max now state.lastAttemptAt) correct permanent (applyPinAttempt state now correct permanent) := by
  unfold applyPinAttempt
  cases permanent with
  | true => exact .permanent
  | false =>
    rw [if_neg Bool.false_ne_true]
    dsimp only
    cases window : state.lockedAt (max now state.lastAttemptAt) with
    | some time =>
      obtain ⟨lockout, early⟩ := lockedAt_eq_some_iff.mp window
      dsimp only
      rw [lockout]
      split
      · rename_i hard
        exact .window lockout early (.inl ⟨hard, rfl⟩)
      · rename_i few
        exact .window lockout early (.inr ⟨Int.not_le.mp few, rfl⟩)
    | none =>
      have expired := lockedAt_eq_none_iff.mp window
      cases correct with
      | true => exact .correct expired
      | false =>
        dsimp only
        rw [if_neg Bool.false_ne_true]
        split
        · rename_i hard
          exact .hard expired hard
        · rename_i few
          split
          · exact .lockout expired (Int.not_le.mp few) rfl
          · exact .wrong expired (Int.not_le.mp few)

theorem lockoutDelay_nonneg (attemptCount : Int) : 0 ≤ lockoutDelay attemptCount := by
  have all : ∀ delay ∈ pinLockoutDelays, 0 ≤ delay := by decide
  rw [lockoutDelay, List.getD_eq_getElem?_getD]
  cases found : pinLockoutDelays[(min (attemptCount - pinMaxAttempts) (pinLockoutDelays.length - 1)).toNat]? with
  | none => exact le_rfl
  | some delay => exact all delay (List.mem_of_getElem? found)

namespace Attempted

variable {state after : PinLockoutState} {now : Int} {correct permanent : Bool} {verdict : PinVerdict}

theorem ok (tried : Attempted state now correct permanent (after, .ok)) :
    permanent = false ∧ correct = true ∧ ∀ time ∈ state.lockoutUntil, time ≤ now := by
  cases tried with
  | window _ _ refused => obtain ⟨_, no⟩ | ⟨_, no⟩ := refused <;> cases no
  | correct expired => exact ⟨rfl, rfl, expired⟩

theorem keepsLockout (tried : Attempted state now correct permanent (after, verdict)) (refused : verdict ≠ .ok) :
    ∀ before ∈ state.lockoutUntil, ∃ later ∈ after.lockoutUntil, before ≤ later := by
  intro before member
  cases tried with
  | permanent => exact ⟨before, member, le_rfl⟩
  | window lockout _ _ => exact ⟨before, lockout ▸ member, le_rfl⟩
  | correct _ => exact absurd rfl refused
  | hard _ _ => exact ⟨before, member, le_rfl⟩
  | lockout expired _ ends =>
    -- The window before has ended, and the new one ends later than now.
    have past := expired before member
    have delay := lockoutDelay_nonneg (state.attemptCount + 1)
    exact ⟨_, rfl, by omega⟩
  | wrong _ _ => exact ⟨before, member, le_rfl⟩

theorem counted (tried : Attempted state now correct permanent (after, verdict)) (positive : 0 ≤ state.attemptCount) :
    0 ≤ after.attemptCount ∧ (verdict = .permanentlyLocked ∨ permanent = false ∧ after.attemptCount < pinHardLimit) := by
  have hardLimit : pinHardLimit = 10 := rfl
  cases tried with
  | permanent => exact ⟨positive, .inl rfl⟩
  | window _ _ refused =>
    refine ⟨by dsimp only; omega, ?_⟩
    obtain ⟨-, locked⟩ | ⟨few, -⟩ := refused
    · exact .inl locked
    · exact .inr ⟨rfl, few⟩
  | correct _ => exact ⟨le_rfl, .inr ⟨rfl, by dsimp only; omega⟩⟩
  | hard _ _ => exact ⟨by dsimp only; omega, .inl rfl⟩
  | lockout _ few _ => exact ⟨by dsimp only; omega, .inr ⟨rfl, few⟩⟩
  | wrong _ few => exact ⟨by dsimp only; omega, .inr ⟨rfl, few⟩⟩

theorem time (tried : Attempted state now correct permanent (after, verdict)) :
    after.lastAttemptAt = now ∨ after.lastAttemptAt = state.lastAttemptAt := by
  cases tried with
  | permanent => exact .inr rfl
  | window _ _ _ => exact .inl rfl
  | correct _ => exact .inl rfl
  | hard _ _ => exact .inl rfl
  | lockout _ _ _ => exact .inl rfl
  | wrong _ _ => exact .inl rfl

end Attempted

section Checked

variable {state : PinLockoutState} {now : Int} {correct permanent : Bool}

/-- Below the hard limit, and with no clock outside the integers, only a new lockout window can overflow. -/
theorem applyPinAttemptChecked_outcome (positive : 0 ≤ state.attemptCount)
    (few : permanent = false → state.attemptCount < pinHardLimit) (inRange : InI64 (max now state.lastAttemptAt)) :
    (applyPinAttemptChecked state now correct permanent).outcome =
      if WindowFits state now correct permanent then .ok (applyPinAttempt state now correct permanent)
      else .error .overflow := by
  unfold applyPinAttemptChecked applyPinAttempt
  cases permanent with
  | true =>
    have fits : WindowFits state now correct true := fun temporary => nomatch temporary
    rw [if_pos fits]
    rfl
  | false =>
    have counted : InI64 (state.attemptCount + 1) := by
      have := few rfl
      simp only [InI64, minI64, maxI64, pinHardLimit] at this ⊢
      omega
    have hardLimit : pinHardLimit = 10 := rfl
    have maxAttempts : pinMaxAttempts = 3 := rfl
    simp only [Bool.false_eq_true, if_false, Call.arith_of counted, Call.pure_bind]
    cases window : state.lockedAt (max now state.lastAttemptAt) with
    | some time =>
      have fits : WindowFits state now correct false := fun _ none => by rw [window] at none; cases none
      rw [if_pos fits]
      dsimp only
      split <;> rfl
    | none =>
      cases correct with
      | true =>
        have fits : WindowFits state now true false := fun _ _ wrong => nomatch wrong
        rw [if_pos fits]
        rfl
      | false =>
        dsimp only
        rw [if_neg Bool.false_ne_true]
        by_cases hard : state.attemptCount + 1 ≥ pinHardLimit
        · have fits : WindowFits state now false false := fun _ _ _ _ below => absurd hard (Int.not_le.mpr below)
          rw [if_pos fits, if_pos hard, if_neg Bool.false_ne_true, if_pos hard]
          rfl
        · by_cases many : state.attemptCount + 1 ≥ pinMaxAttempts
          · have past : InI64 (state.attemptCount + 1 - pinMaxAttempts) := by
              simp only [InI64, minI64, maxI64] at counted ⊢
              omega
            rw [if_neg hard, if_pos many, Call.arith_of past, Call.pure_bind, if_neg Bool.false_ne_true,
              if_neg hard, if_pos many]
            have delay := lockoutDelay_nonneg (state.attemptCount + 1)
            have same : WindowFits state now false false ↔
                InI64 (max now state.lastAttemptAt + lockoutDelay (state.attemptCount + 1)) := by
              constructor
              · intro fits
                exact ⟨by have := inRange.1; omega, fits rfl window rfl many (Int.not_le.mp hard)⟩
              · exact fun fits _ _ _ _ _ => fits.2
            by_cases fits : WindowFits state now false false
            · rw [if_pos fits, Call.arith_of (same.mp fits)]
              rfl
            · rw [if_neg fits]
              exact Call.arith_overflow (fun inside => fits (same.mpr inside)) _
          · have fits : WindowFits state now false false := fun _ _ _ three => absurd three many
            rw [if_pos fits, if_neg hard, if_neg many, if_neg Bool.false_ne_true, if_neg hard, if_neg many]
            rfl

end Checked

namespace Device

/-- The counter reaches the hard limit only with the permanent lock. -/
structure Sound (d : Device) : Prop where
  lawful : Lawful d
  positive : 0 ≤ d.lock.state.attemptCount
  few : d.lock.permanent = false → d.lock.state.attemptCount < pinHardLimit
  inRange : InI64 d.lock.state.lastAttemptAt
  reached : ∀ e ∈ d.log, pinHardLimit ≤ e.before.state.attemptCount → d.lock.permanent = true

theorem sound_fresh : Sound .fresh := by
  refine ⟨⟨?_, ?_, .nil, ?_, rfl⟩, le_rfl, fun _ => by decide, ?_, ?_⟩
  -- Nothing is logged yet.
  all_goals try exact fun e member => absurd member List.not_mem_nil
  rw [InI64, minI64, maxI64]
  exact ⟨by decide, by decide⟩

theorem Sound.time {d : Device} (sound : d.Sound) (a : Attempt) : InI64 (max a.now d.lock.state.lastAttemptAt) := by
  obtain same | same := max_choice a.now d.lock.state.lastAttemptAt
  · rw [same]
    exact a.inRange
  · rw [same]
    exact sound.inRange

theorem Sound.outcome {d : Device} (sound : d.Sound) (a : Attempt) :
    (applyPinAttemptChecked d.lock.state a.now a.correct d.lock.permanent).outcome =
      if d.Fits a then .ok (applyPinAttempt d.lock.state a.now a.correct d.lock.permanent) else .error .overflow :=
  applyPinAttemptChecked_outcome sound.positive sound.few (sound.time a)

def entry (d : Device) (a : Attempt) : Entry :=
  let result := applyPinAttempt d.lock.state a.now a.correct d.lock.permanent
  ⟨d.lock, a, d.lock.keep result.1 result.2, result.2⟩

theorem Sound.attempt_eq {d : Device} (sound : d.Sound) {a : Attempt} (fits : d.Fits a) :
    d.attempt a = ⟨(d.entry a).after, d.entry a :: d.log, false⟩ := by
  rw [attempt, if_neg (by simp [sound.lawful.noOverflow]), sound.outcome, if_pos fits]
  rfl

theorem entry_attempted (d : Device) (a : Attempt) : Attempted d.lock.state (d.entry a).time a.correct d.lock.permanent
    ((d.entry a).after.state, (d.entry a).verdict) := by
  have result := PinAttempts.attempted d.lock.state a.now a.correct d.lock.permanent
  rw [entry, Lock.state_keep]
  exact result

theorem Sound.aborts {d : Device} (sound : d.Sound) {a : Attempt} (overflows : ¬ d.Fits a) :
    (d.attempt a).aborted = true := by
  rw [attempt, if_neg (by simp [sound.lawful.noOverflow]), sound.outcome, if_neg overflows]

theorem Sound.attempt {d : Device} (sound : d.Sound) {a : Attempt} (fits : d.Fits a) : (d.attempt a).Sound := by
  have tried := d.entry_attempted a
  have kept : (d.entry a).after = d.lock.keep (d.entry a).after.state (d.entry a).verdict := by
    rw [entry, Lock.state_keep]
  have passed : (d.entry a).verdict = .ok → ¬ pinHardLimit ≤ d.lock.state.attemptCount := by
    intro ok many
    rw [ok] at tried
    exact absurd (sound.few tried.ok.1) (Int.not_lt.mpr many)
  have staysLocked : d.lock.permanent = true → (d.entry a).after.permanent = true := by
    intro locked
    rw [locked] at tried
    have refused : (d.entry a).verdict = .permanentlyLocked :=
      (tried.counted sound.positive).2.resolve_right fun temporary => nomatch temporary.1
    rw [kept, refused]
    rfl
  have afterTime : InI64 (d.entry a).time := by
    have given : (d.entry a).time = max a.now d.lock.state.lastAttemptAt := rfl
    rw [given]
    exact sound.time a
  rw [sound.attempt_eq fits]
  refine ⟨⟨?_, ?_, ?_, ?_, rfl⟩, (tried.counted sound.positive).1, ?_, ?_, ?_⟩
  · refine List.forall_mem_cons.mpr ⟨fun ok => ?_, sound.lawful.correct⟩
    rw [ok] at tried
    exact tried.ok.2
  · exact List.forall_mem_cons.mpr ⟨fun many ok => passed ok many, sound.lawful.locked⟩
  · refine List.pairwise_cons.mpr ⟨fun e member many ok => ?_, sound.lawful.lockedLater⟩
    rw [ok, sound.reached e member many] at tried
    exact nomatch tried.ok.1
  · exact List.forall_mem_cons.mpr ⟨fun refused => tried.keepsLockout refused, sound.lawful.lowered⟩
  · intro temporary
    obtain locked | ⟨-, few⟩ := (tried.counted sound.positive).2
    · rw [kept, locked] at temporary
      cases temporary
    · exact few
  · obtain same | same := tried.time
    · exact same ▸ afterTime
    · exact same ▸ sound.inRange
  · refine List.forall_mem_cons.mpr
      ⟨fun many => staysLocked ?_, fun e member many => staysLocked (sound.reached e member many)⟩
    by_contra temporary
    exact absurd (sound.few (Bool.eq_false_iff.mpr temporary)) (Int.not_lt.mpr many)

end Device

/-- The laws hold in every sequence of attempts, exactly when no lockout window begins that the integers have no end for. -/
theorem pin_attempts_lawful_iff (attempts : List Attempt) :
    Always Device.attempt Lawful .fresh attempts ↔ Throughout Device.attempt Device.Fits .fresh attempts := by
  refine Runs.always_iff_of_invariant (fun d sound => sound.lawful) (fun d a sound lawful => ?_)
    (fun d a sound fits => sound.attempt fits) Device.sound_fresh
  by_contra overflows
  have aborted := sound.aborts overflows
  rw [lawful.noOverflow] at aborted
  cases aborted

def atTheEnd : List Attempt := List.replicate 3 ⟨maxI64, false, by decide⟩

theorem third_wrong_pin_overflows : ¬ Always Device.attempt Lawful .fresh atTheEnd := by
  intro always
  have aborted : (run Device.attempt .fresh atTheEnd).aborted = true := by decide
  rw [always.last.noOverflow] at aborted
  cases aborted

end Soshal.Bridge.PinAttempts
