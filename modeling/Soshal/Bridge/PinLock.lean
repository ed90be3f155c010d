import Soshal.Library.Fields
import Soshal.Library.Processes

/-! The lock PIN: attempt counters, temporary lockouts and the permanent lock.

A call reads the counters, computes a slow hash, and writes the counters back. No
lock is held in between, and a counter that cannot be written after a wrong PIN is
only reported. Calls that do not overlap, and whose writes succeed, never evaluate
more wrong PINs than the hard limit allows.
-/

set_option autoImplicit false

namespace Soshal.Bridge.PinLock

open Library
open Library.Encoding (hexDecode)
open Library.Fields (splitOnce)
open Library.Processes (System Move Meets Turns)
open Library.Runs (Always Throughout run)
open Library.Text (byteLen hexEncode utf8)

abbrev Bytes := List UInt8

def pinIterations : Nat := 600000
def pinDkLen : Nat := 32
def pinMaxAttempts : Int := 3
def pinHardLimit : Int := 10
def pinLockoutDelays : List Int := [5000, 15000, 30000, 60000, 120000]

structure PinLockoutState where
  attemptCount : Int
  lastAttemptAt : Int
  lockoutUntil : Option Int

def PinLockoutState.fresh : PinLockoutState := ⟨0, 0, none⟩

inductive PinVerdict where
  | ok
  | incorrect (lockedUntil : Option Int)
  | lockedOutUntil (time : Int)
  | permanentlyLocked

def PinLockoutState.lockedAt (state : PinLockoutState) (now : Int) : Option Int :=
  state.lockoutUntil.filter fun time => now < time

def applyPinAttempt (state : PinLockoutState) (now : Int) (correct permanentLocked : Bool) :
    PinLockoutState × PinVerdict :=
  if permanentLocked then (state, .permanentlyLocked)
  else
    -- A clock that was set back does not end a lockout.
    let now := max now state.lastAttemptAt
    match state.lockedAt now with
    | some time =>
      let state := { state with attemptCount := state.attemptCount + 1, lastAttemptAt := now }
      if state.attemptCount ≥ pinHardLimit then (state, .permanentlyLocked) else (state, .lockedOutUntil time)
    | none =>
      if correct then (⟨0, now, none⟩, .ok)
      else
        let state := { state with attemptCount := state.attemptCount + 1, lastAttemptAt := now }
        if state.attemptCount ≥ pinHardLimit then (state, .permanentlyLocked)
        else if state.attemptCount ≥ pinMaxAttempts then
          let idx := (min (state.attemptCount - pinMaxAttempts) (pinLockoutDelays.length - 1)).toNat
          let time := now + pinLockoutDelays.getD idx 0
          ({ state with lockoutUntil := some time }, .incorrect (some time))
        else (state, .incorrect none)

def derivePinHash (pbkdf2 : Bytes → Bytes → Nat → Nat → Bytes) (pin saltHex : String) (iterations dkLen : Nat) :
    Except String String :=
  if pin.isEmpty ∨ byteLen pin > 64 then .error "invalid pin"
  else if iterations < 600000 ∨ iterations > 1000000 ∨ dkLen < 16 ∨ dkLen > 64 then .error "invalid kdf parameters"
  else
    match hexDecode saltHex with
    | none => .error "invalid salt"
    | some salt =>
      if salt.length < 16 then .error "salt too short"
      else .ok (hexEncode (pbkdf2 (utf8 pin) salt iterations dkLen))

/-- A PIN that was compared with the stored one, and whether a lockout was in force. -/
structure Evaluation where
  correct : Bool
  locked : Bool

/-- The stored settings, and the PINs that were evaluated, the last one first. -/
structure Vault where
  pinHash : Option String
  permanentlyLocked : Bool
  lockout : PinLockoutState
  log : List Evaluation

inductive Setting where
  | pinHash (value : String)
  | permanentlyLocked (value : Bool)
  | lockoutState (value : PinLockoutState)

/-- A setting to write. A failure ends the call with this text before the reason, or is only reported. -/
structure Write where
  setting : Setting
  failure : Option String

inductive Call where
  | verify (pin : String)
  | change (oldPin newPin : String)
  | clear (pin : String)

def Call.pin : Call → String
  | .verify pin => pin
  | .change oldPin _ => oldPin
  | .clear pin => pin

inductive Task where
  | calling (call : Call)
  | locked (call : Call) (now : Int) (permanent : Bool) (state : PinLockoutState)
  | unlocked (call : Call) (now : Int) (state : PinLockoutState) (stored : Option String)
  | checked (call : Call) (now : Int) (state : PinLockoutState) (correct : Bool)
  | refusing (call : Call) (writes : List Write) (e : String)
  | persisting (call : Call) (writes : List Write) (result : Except String Unit)
  | changing (newPin : String)
  | clearing
  | resetting (writes : List Write)
  | returned (result : Except String Bool)

/-- What a step meets: the clock, the random salt, and how its access to the database ends. -/
structure Answer where
  now : Int
  salt : Except String Bytes
  db : Except String Unit

namespace Vault

def write (v : Vault) : Setting → Vault
  | .pinHash value => { v with pinHash := some value }
  | .permanentlyLocked value => { v with permanentlyLocked := value }
  | .lockoutState value => { v with lockout := value }

def lockedAt (v : Vault) (now : Int) : Bool := v.permanentlyLocked || (v.lockout.lockoutUntil.any fun time => now < time)

end Vault

def lockedError : String := "too many incorrect PIN attempts; try again later"
def permanentError : String := "account permanently locked after too many failed PIN attempts"

def strictly (state : PinLockoutState) : Write := ⟨.lockoutState state, some "pin lockout state persist failed: "⟩
def permanently : Write := ⟨.permanentlyLocked true, some "pin permanent lock persist failed: "⟩

/-- What is written, and what is returned, after an attempt that was not evaluated. -/
def refusal (state : PinLockoutState) : PinVerdict → List Write × String
  | .permanentlyLocked => ([strictly state, permanently], permanentError)
  | _ => ([strictly state], lockedError)

/-- What is written, and what is returned, after an attempt that was evaluated. -/
def verdictWrites (state : PinLockoutState) : PinVerdict → List Write × Except String Unit
  | .ok => ([⟨.lockoutState state, none⟩, ⟨.permanentlyLocked false, none⟩], .ok ())
  | .incorrect _ => ([⟨.lockoutState state, none⟩], .error "incorrect PIN")
  | .lockedOutUntil _ => ([strictly state], .error lockedError)
  | .permanentlyLocked => ([strictly state, permanently], .error permanentError)

def Call.conclude : Call → Except String Unit → Task
  | .verify _, .ok () => .returned (.ok true)
  | .verify _, .error e => if e = "incorrect PIN" then .returned (.ok false) else .returned (.error e)
  | .change _ newPin, .ok () => .changing newPin
  | .clear _, .ok () => .clearing
  | .change _ _, .error e => .returned (.error e)
  | .clear _, .error e => .returned (.error e)

def Call.wellFormed : Call → Bool
  | .change _ newPin => newPin.toList.all Char.isDigit && decide (4 ≤ byteLen newPin) && decide (byteLen newPin ≤ 12)
  | _ => true

def changeWrites (saltHex hash : String) : List Write :=
  [⟨.pinHash (saltHex ++ ":" ++ hash), some ""⟩, ⟨.permanentlyLocked false, some ""⟩, ⟨.lockoutState .fresh, some ""⟩]

def clearWrites : List Write :=
  [⟨.pinHash "", some ""⟩, ⟨.lockoutState .fresh, some "pin lockout reset failed: "⟩,
    ⟨.permanentlyLocked false, some "pin lock reset failed: "⟩]

section Advance

variable (pbkdf2 : Bytes → Bytes → Nat → Nat → Bytes) (v : Vault)

def readSettings (call : Call) (answer : Answer) : Vault × Task :=
  if !call.wellFormed then (v, .returned (.error "new PIN must be 4-12 digits"))
  else
    match answer.db with
    | .error e => (v, call.conclude (.error e))
    | .ok () =>
      if v.lockedAt answer.now then (v, .locked call answer.now v.permanentlyLocked v.lockout)
      else (v, .unlocked call answer.now v.lockout v.pinHash)

def checkPin (call : Call) (now : Int) (state : PinLockoutState) (stored : Option String) : Vault × Task :=
  match stored.filter fun value => !value.isEmpty with
  | none => (v, call.conclude (.error "no PIN configured; set a PIN in Settings > Security first"))
  | some value =>
    match splitOnce value ':' with
    | none => (v, call.conclude (.error "corrupt pin storage"))
    | some (saltHex, expected) =>
      match derivePinHash pbkdf2 call.pin saltHex pinIterations pinDkLen with
      | .error e => (v, call.conclude (.error e))
      | .ok candidate =>
        ({ v with log := ⟨candidate == expected, v.lockedAt now⟩ :: v.log },
          .checked call now state (candidate == expected))

/-- Writes one setting; `none` when the call goes on. -/
def writeNext (w : Write) (answer : Answer) : Vault × Option String :=
  match answer.db with
  | .ok () => (v.write w.setting, none)
  | .error e => (v, w.failure.map fun text => text ++ e)

def advance (task : Task) (answer : Answer) : Vault × Task :=
  match task with
  | .calling call => readSettings v call answer
  | .locked call now permanent state =>
    match answer.db with
    | .error e => (v, call.conclude (.error e))
    | .ok () =>
      let (state, verdict) := applyPinAttempt state now false permanent
      (v, .refusing call (refusal state verdict).1 (refusal state verdict).2)
  | .unlocked call now state stored => checkPin pbkdf2 v call now state stored
  | .checked call now state correct =>
    match answer.db with
    | .error e => (v, call.conclude (.error e))
    | .ok () =>
      let (state, verdict) := applyPinAttempt state now correct false
      (v, .persisting call (verdictWrites state verdict).1 (verdictWrites state verdict).2)
  | .refusing call (w :: writes) e =>
    match writeNext v w answer with
    | (v, none) => (v, .refusing call writes e)
    | (v, some failure) => (v, call.conclude (.error failure))
  | .refusing call [] e => (v, call.conclude (.error e))
  | .persisting call (w :: writes) result =>
    match writeNext v w answer with
    | (v, none) => (v, .persisting call writes result)
    | (v, some failure) => (v, call.conclude (.error failure))
  | .persisting call [] result => (v, call.conclude result)
  | .changing newPin =>
    match answer.salt with
    | .error e => (v, .returned (.error ("rng: " ++ e)))
    | .ok salt =>
      match derivePinHash pbkdf2 newPin (hexEncode salt) pinIterations pinDkLen, answer.db with
      | .error e, _ => (v, .returned (.error e))
      | .ok _, .error e => (v, .returned (.error e))
      | .ok hash, .ok () => (v, .resetting (changeWrites (hexEncode salt) hash))
  | .clearing =>
    match answer.db with
    | .error e => (v, .returned (.error e))
    | .ok () => (v, .resetting clearWrites)
  | .resetting (w :: writes) =>
    match writeNext v w answer with
    | (v, none) => (v, .resetting writes)
    | (v, some failure) => (v, .returned (.error failure))
  | .resetting [] => (v, .returned (.ok true))
  | .returned result => (v, .returned result)

end Advance

/-- Calls begin at any time and take their steps in any order. -/
def step (pbkdf2 : Bytes → Bytes → Nat → Nat → Bytes) : System Vault Task → Move Call Answer → System Vault Task :=
  Processes.step Task.calling (advance pbkdf2)

def start (pinHash : Option String) : System Vault Task := ⟨⟨pinHash, false, .fresh, []⟩, []⟩

/-- How many wrong PINs have been evaluated since the last correct one. -/
def wrongRun : List Evaluation → Nat
  | [] => 0
  | e :: earlier => if e.correct then 0 else wrongRun earlier + 1

/-- At most as many wrong PINs as the hard limit in a row, and no correct one while a lockout was in force. -/
structure Protected (v : Vault) : Prop where
  bounded : wrongRun v.log ≤ pinHardLimit
  respected : ∀ e ∈ v.log, e.correct = true → e.locked = false

def Task.Busy : Task → Prop
  | .calling _ => False
  | .returned _ => False
  | _ => True

def Persists (_ : Vault) (task : Task) (answer : Answer) : Prop :=
  match task with
  | .checked _ _ _ false => answer.db = .ok ()
  | .persisting _ _ (.error _) => answer.db = .ok ()
  | _ => True

/-- A call reads the settings only while no other call has read them and not returned. -/
def NotOverlapping (_ : Vault) (task : Task) (_ : Answer) (other : Task) : Prop :=
  match task with
  | .calling call => call.wellFormed = true → ¬ other.Busy
  | _ => True

namespace Vault

/-- Between two calls the counter is at least the number of wrong PINs, unless the lock is permanent. -/
structure Settled (v : Vault) : Prop where
  safe : Protected v
  counted : v.permanentlyLocked = true ∨ wrongRun v.log < pinHardLimit ∧ wrongRun v.log ≤ v.lockout.attemptCount

structure Fresh (v : Vault) : Prop where
  respected : ∀ e ∈ v.log, e.correct = true → e.locked = false
  none : wrongRun v.log = 0
  counter : 0 ≤ v.lockout.attemptCount

theorem Fresh.settled {v : Vault} (fresh : v.Fresh) : v.Settled := by
  have none := fresh.none
  have counter := fresh.counter
  have limit : pinHardLimit = 10 := rfl
  exact ⟨⟨by omega, fresh.respected⟩, .inr ⟨by omega, by omega⟩⟩

@[simp] theorem log_write (v : Vault) (setting : Setting) : (v.write setting).log = v.log := by
  cases setting <;> rfl

def Remembers (v : Vault) : Setting → Prop
  | .pinHash _ => False
  | .permanentlyLocked value => value = true
  | .lockoutState value => v.permanentlyLocked = true ∨ wrongRun v.log ≤ value.attemptCount

theorem Settled.write {v : Vault} (settled : v.Settled) {setting : Setting} (remembers : v.Remembers setting) :
    (v.write setting).Settled := by
  cases setting with
  | pinHash value => exact remembers.elim
  | permanentlyLocked value => exact ⟨⟨settled.safe.bounded, settled.safe.respected⟩, .inl remembers⟩
  | lockoutState value =>
    refine ⟨⟨settled.safe.bounded, settled.safe.respected⟩, ?_⟩
    obtain permanent | ⟨few, -⟩ := settled.counted
    · exact .inl permanent
    · exact remembers.imp_right fun counted => ⟨few, counted⟩

theorem Remembers.write {v : Vault} {setting other : Setting} (first : v.Remembers setting)
    (second : v.Remembers other) :
    (v.write setting).Remembers other := by
  cases other with
  | pinHash value => exact second
  | permanentlyLocked value => exact second
  | lockoutState value =>
    cases setting with
    | pinHash _ => exact first.elim
    | permanentlyLocked _ => exact .inl first
    | lockoutState _ => exact second

def Resets : Setting → Prop
  | .lockoutState value => 0 ≤ value.attemptCount
  | _ => True

theorem Fresh.write {v : Vault} (fresh : v.Fresh) {setting : Setting} (resets : Resets setting) :
    (v.write setting).Fresh := by
  cases setting with
  | pinHash value => exact ⟨fresh.respected, fresh.none, fresh.counter⟩
  | permanentlyLocked value => exact ⟨fresh.respected, fresh.none, fresh.counter⟩
  | lockoutState value => exact ⟨fresh.respected, fresh.none, resets⟩

end Vault

def Task.Inv (v : Vault) : Task → Prop
  | .calling _ => True
  | .returned _ => True
  | .locked _ _ permanent state => v.Settled ∧ permanent = v.permanentlyLocked ∧ state = v.lockout
  | .unlocked _ now state _ => v.Settled ∧ state = v.lockout ∧ v.lockedAt now = false
  | .checked _ now state true => v.Fresh ∧ state = v.lockout ∧ v.lockedAt now = false
  | .checked _ now state false => Protected v ∧ state = v.lockout ∧ v.lockedAt now = false ∧
      wrongRun v.log ≤ state.attemptCount + 1
  | .refusing _ writes _ => v.Settled ∧ ∀ w ∈ writes, v.Remembers w.setting
  | .persisting _ writes (.ok ()) => v.Fresh ∧ ∀ w ∈ writes, Vault.Resets w.setting
  | .persisting _ writes (.error _) => Protected v ∧ (writes.foldl (fun v w => v.write w.setting) v).Settled
  | .changing _ => v.Fresh
  | .clearing => v.Fresh
  | .resetting writes => v.Fresh ∧ ∀ w ∈ writes, Vault.Resets w.setting

/-! ### The counters under one attempt -/

section Attempt

variable {state : PinLockoutState} {now : Int}

theorem lockedAt_eq_none (expired : (state.lockoutUntil.any fun time => decide (now < time)) = false) :
    state.lockedAt (max now state.lastAttemptAt) = none := by
  unfold PinLockoutState.lockedAt
  cases ends : state.lockoutUntil with
  | none => rfl
  | some time =>
    rw [ends, Option.any_some, decide_eq_false_iff_not] at expired
    rw [Option.filter_some, if_neg]
    have later := le_max_left now state.lastAttemptAt
    simp only [decide_eq_true_eq]
    omega

theorem applyPinAttempt_correct (expired : (state.lockoutUntil.any fun time => decide (now < time)) = false) :
    applyPinAttempt state now true false = (⟨0, max now state.lastAttemptAt, none⟩, .ok) := by
  simp [applyPinAttempt, lockedAt_eq_none expired]

theorem applyPinAttempt_wrong (expired : (state.lockoutUntil.any fun time => decide (now < time)) = false) :
    (applyPinAttempt state now false false).1.attemptCount = state.attemptCount + 1 ∧
      ((applyPinAttempt state now false false).2 = .permanentlyLocked ∨
        state.attemptCount + 1 < pinHardLimit ∧
        ∃ time, (applyPinAttempt state now false false).2 = .incorrect time) := by
  unfold applyPinAttempt
  simp only [lockedAt_eq_none expired, Bool.false_eq_true, if_false]
  by_cases hard : state.attemptCount + 1 ≥ pinHardLimit
  · rw [if_pos hard]
    exact ⟨rfl, .inl rfl⟩
  · rw [if_neg hard]
    refine ⟨?_, .inr ⟨Int.lt_of_not_ge hard, ?_⟩⟩
    · split <;> rfl
    · split
      · exact ⟨_, rfl⟩
      · exact ⟨_, rfl⟩

theorem applyPinAttempt_locked (state : PinLockoutState) (now : Int) (permanent : Bool) :
    state.attemptCount ≤ (applyPinAttempt state now false permanent).1.attemptCount := by
  unfold applyPinAttempt
  split
  · exact le_rfl
  · have raised : state.attemptCount ≤ state.attemptCount + 1 := by omega
    dsimp only
    split
    · split <;> exact raised
    · rw [if_neg Bool.false_ne_true]
      split
      · exact raised
      · split <;> exact raised

end Attempt

/-! ### Every step of a call -/

section Steps

variable {pbkdf2 : Bytes → Bytes → Nat → Nat → Bytes} {v : Vault} {answer : Answer}

/-- A step leaves a call that is under way with its invariant, or it ends the call with settled counters. -/
def After (after : Vault × Task) : Prop :=
  (after.2.Busy → after.2.Inv after.1) ∧ (¬ after.2.Busy → after.1.Settled)

theorem after_busy {task : Task} (busy : task.Busy) (inv : task.Inv v) : After (v, task) :=
  ⟨fun _ => inv, fun idle => absurd busy idle⟩

theorem after_returned (settled : v.Settled) (result : Except String Bool) : After (v, .returned result) :=
  ⟨fun _ => trivial, fun _ => settled⟩

theorem after_error (settled : v.Settled) (call : Call) (e : String) : After (v, call.conclude (.error e)) := by
  cases call with
  | verify pin =>
    simp only [Call.conclude]
    split
    · exact after_returned settled _
    · exact after_returned settled _
  | change oldPin newPin => exact after_returned settled _
  | clear pin => exact after_returned settled _

theorem after_ok (fresh : v.Fresh) (call : Call) : After (v, call.conclude (.ok ())) := by
  cases call with
  | verify pin => exact after_returned fresh.settled _
  | change oldPin newPin => exact after_busy trivial fresh
  | clear pin => exact after_busy trivial fresh

theorem after_read (settled : v.Settled) (call : Call) : After (readSettings v call answer) := by
  unfold readSettings
  split
  · exact after_returned settled _
  · split
    · exact after_error settled call _
    · split
      · exact after_busy trivial ⟨settled, rfl, rfl⟩
      · rename_i expired
        exact after_busy trivial ⟨settled, rfl, by simpa using expired⟩

theorem after_locked {call : Call} {now : Int} {permanent : Bool} {state : PinLockoutState}
    (inv : (Task.locked call now permanent state).Inv v) :
    After (advance pbkdf2 v (.locked call now permanent state) answer) := by
  obtain ⟨settled, rfl, rfl⟩ := inv
  unfold advance
  dsimp only
  split
  · exact after_error settled call _
  · have raised := applyPinAttempt_locked v.lockout now v.permanentlyLocked
    have remembers : v.Remembers (.lockoutState (applyPinAttempt v.lockout now false v.permanentlyLocked).1) :=
      settled.counted.imp_right fun counted => counted.2.trans raised
    refine after_busy trivial ⟨settled, fun w member => ?_⟩
    cases verdict : (applyPinAttempt v.lockout now false v.permanentlyLocked).2 with
    | permanentlyLocked =>
      simp only [refusal, verdict, List.mem_cons, List.not_mem_nil, or_false] at member
      obtain rfl | rfl := member
      · exact remembers
      · rfl
    | _ =>
      simp only [refusal, verdict, List.mem_singleton] at member
      rw [member]
      exact remembers

theorem after_unlocked {call : Call} {now : Int} {state : PinLockoutState} {stored : Option String}
    (inv : (Task.unlocked call now state stored).Inv v) :
    After (advance pbkdf2 v (.unlocked call now state stored) answer) := by
  obtain ⟨settled, rfl, expired⟩ := inv
  unfold advance checkPin
  dsimp only
  split
  · exact after_error settled call _
  split
  · exact after_error settled call _
  split
  · exact after_error settled call _
  rename_i expected _ _ candidate _
  have counted : wrongRun v.log < pinHardLimit ∧ wrongRun v.log ≤ v.lockout.attemptCount := by
    refine settled.counted.resolve_left fun permanent => ?_
    rw [Vault.lockedAt, permanent, Bool.true_or] at expired
    cases expired
  have respected : ∀ e ∈ (⟨candidate == expected, v.lockedAt now⟩ : Evaluation) :: v.log,
      e.correct = true → e.locked = false := by
    rw [List.forall_mem_cons]
    exact ⟨fun _ => expired, settled.safe.respected⟩
  cases correct : candidate == expected with
  | true =>
    rw [correct] at respected
    have counter : 0 ≤ v.lockout.attemptCount := by omega
    exact after_busy trivial ⟨⟨respected, rfl, counter⟩, rfl, expired⟩
  | false =>
    rw [correct] at respected
    have grown : wrongRun (⟨false, v.lockedAt now⟩ :: v.log) = wrongRun v.log + 1 := rfl
    refine after_busy trivial ⟨⟨?_, respected⟩, rfl, expired, ?_⟩
    · dsimp only
      omega
    · dsimp only
      omega

theorem any_of_lockedAt {now : Int} (expired : v.lockedAt now = false) :
    v.permanentlyLocked = false ∧ (v.lockout.lockoutUntil.any fun time => decide (now < time)) = false := by
  rw [Vault.lockedAt, Bool.or_eq_false_iff] at expired
  exact expired

theorem after_checked {call : Call} {now : Int} {state : PinLockoutState} {correct : Bool}
    (inv : (Task.checked call now state correct).Inv v)
    (persists : Persists v (.checked call now state correct) answer) :
    After (advance pbkdf2 v (.checked call now state correct) answer) := by
  unfold advance
  cases correct with
  | true =>
    obtain ⟨fresh, rfl, expired⟩ := inv
    dsimp only
    split
    · exact after_error fresh.settled call _
    · rw [applyPinAttempt_correct (any_of_lockedAt expired).2]
      refine after_busy trivial ⟨fresh, fun w member => ?_⟩
      simp only [verdictWrites, List.mem_cons, List.not_mem_nil, or_false] at member
      obtain rfl | rfl := member
      · exact le_rfl
      · trivial
  | false =>
    obtain ⟨safe, rfl, expired, counted⟩ := inv
    have success : answer.db = .ok () := persists
    have wrong := applyPinAttempt_wrong (any_of_lockedAt expired).2
    simp only [success]
    obtain locks | ⟨few, time, again⟩ := wrong.2
    · simp only [locks, verdictWrites]
      exact after_busy trivial ⟨safe, ⟨safe.bounded, safe.respected⟩, .inl rfl⟩
    · simp only [again, verdictWrites]
      refine after_busy trivial ⟨safe, ⟨safe.bounded, safe.respected⟩, .inr ⟨?_, ?_⟩⟩
      · exact lt_of_le_of_lt counted few
      · simp only [List.foldl_cons, List.foldl_nil, Vault.write, wrong.1]
        exact counted

theorem writeNext_cases (w : Write) (answer : Answer) :
    writeNext v w answer = (v.write w.setting, none) ∨
    ∃ failure, writeNext v w answer = (v, failure) ∧ answer.db ≠ .ok () := by
  unfold writeNext
  cases answer.db with
  | ok u => exact .inl rfl
  | error e => exact .inr ⟨_, rfl, fun same => nomatch same⟩

theorem after_refusing {call : Call} {writes : List Write} {e : String}
    (inv : (Task.refusing call writes e).Inv v) : After (advance pbkdf2 v (.refusing call writes e) answer) := by
  obtain ⟨settled, remembers⟩ := inv
  cases writes with
  | nil => exact after_error settled call e
  | cons w rest =>
    rw [List.forall_mem_cons] at remembers
    unfold advance
    obtain wrote | ⟨failure, refused, -⟩ := writeNext_cases w answer
    · dsimp only
      rw [wrote]
      exact after_busy trivial ⟨settled.write remembers.1, fun later member =>
        remembers.1.write (remembers.2 later member)⟩
    · dsimp only
      rw [refused]
      cases failure with
      | none => exact after_busy trivial ⟨settled, remembers.2⟩
      | some text => exact after_error settled call text

theorem after_persisting {call : Call} {writes : List Write} {result : Except String Unit}
    (inv : (Task.persisting call writes result).Inv v)
    (persists : Persists v (.persisting call writes result) answer) :
    After (advance pbkdf2 v (.persisting call writes result) answer) := by
  cases result with
  | ok u =>
    obtain ⟨fresh, resets⟩ := inv
    cases writes with
    | nil => exact after_ok fresh call
    | cons w rest =>
      rw [List.forall_mem_cons] at resets
      unfold advance
      obtain wrote | ⟨failure, refused, -⟩ := writeNext_cases w answer
      · dsimp only
        rw [wrote]
        exact after_busy trivial ⟨fresh.write resets.1, resets.2⟩
      · dsimp only
        rw [refused]
        cases failure with
        | none => exact after_busy trivial ⟨fresh, resets.2⟩
        | some text => exact after_error fresh.settled call text
  | error e =>
    obtain ⟨safe, settled⟩ := inv
    cases writes with
    | nil => exact after_error settled call e
    | cons w rest =>
      unfold advance
      obtain wrote | ⟨failure, -, refused⟩ := writeNext_cases w answer
      · dsimp only
        rw [wrote]
        refine after_busy trivial ⟨⟨?_, ?_⟩, settled⟩
        · rw [Vault.log_write]
          exact safe.bounded
        · rw [Vault.log_write]
          exact safe.respected
      · exact absurd persists refused

theorem after_resetting {writes : List Write} (inv : (Task.resetting writes).Inv v) :
    After (advance pbkdf2 v (.resetting writes) answer) := by
  obtain ⟨fresh, resets⟩ := inv
  cases writes with
  | nil => exact after_returned fresh.settled _
  | cons w rest =>
    rw [List.forall_mem_cons] at resets
    unfold advance
    obtain wrote | ⟨failure, refused, -⟩ := writeNext_cases w answer
    · dsimp only
      rw [wrote]
      exact after_busy trivial ⟨fresh.write resets.1, resets.2⟩
    · dsimp only
      rw [refused]
      cases failure with
      | none => exact after_busy trivial ⟨fresh, resets.2⟩
      | some text => exact after_returned fresh.settled _

theorem resets_changeWrites (saltHex hash : String) : ∀ w ∈ changeWrites saltHex hash, Vault.Resets w.setting := by
  intro w member
  simp only [changeWrites, List.mem_cons, List.not_mem_nil, or_false] at member
  obtain rfl | rfl | rfl := member
  · trivial
  · trivial
  · exact le_rfl

theorem resets_clearWrites : ∀ w ∈ clearWrites, Vault.Resets w.setting := by
  intro w member
  simp only [clearWrites, List.mem_cons, List.not_mem_nil, or_false] at member
  obtain rfl | rfl | rfl := member
  · trivial
  · exact le_rfl
  · trivial

theorem after_changing {newPin : String} (fresh : v.Fresh) : After (advance pbkdf2 v (.changing newPin) answer) := by
  unfold advance
  dsimp only
  split
  · exact after_returned fresh.settled _
  · split
    · exact after_returned fresh.settled _
    · exact after_returned fresh.settled _
    · exact after_busy trivial ⟨fresh, resets_changeWrites _ _⟩

theorem after_clearing (fresh : v.Fresh) : After (advance pbkdf2 v .clearing answer) := by
  unfold advance
  dsimp only
  split
  · exact after_returned fresh.settled _
  · exact after_busy trivial ⟨fresh, resets_clearWrites⟩

theorem after_advance {task : Task} (busy : task.Busy) (persists : Persists v task answer) (inv : task.Inv v) :
    After (advance pbkdf2 v task answer) := by
  cases task with
  | calling call => exact busy.elim
  | locked call now permanent state => exact after_locked inv
  | unlocked call now state stored => exact after_unlocked inv
  | checked call now state correct => exact after_checked inv persists
  | refusing call writes e => exact after_refusing inv
  | persisting call writes result => exact after_persisting inv persists
  | changing newPin => exact after_changing inv
  | clearing => exact after_clearing inv
  | resetting writes => exact after_resetting inv
  | returned result => exact busy.elim

end Steps

theorem waits_of_notOverlapping {pbkdf2 : Bytes → Bytes → Nat → Nat → Bytes} {v : Vault} {task other : Task}
    {answer : Answer} (idle : ¬ task.Busy) (busy : other.Busy) (apart : NotOverlapping v task answer other) :
    (advance pbkdf2 v task answer).1 = v ∧ ¬ (advance pbkdf2 v task answer).2.Busy := by
  cases task with
  | calling call =>
    simp only [advance, readSettings]
    cases formed : call.wellFormed with
    | false => exact ⟨rfl, id⟩
    | true => exact absurd busy (apart formed)
  | returned result => exact ⟨rfl, id⟩
  | _ => exact absurd trivial idle

theorem protected_of_inv {v : Vault} {task : Task} (busy : task.Busy) (inv : task.Inv v) : Protected v := by
  cases task with
  | calling call => exact busy.elim
  | locked call now permanent state => exact inv.1.safe
  | unlocked call now state stored => exact inv.1.safe
  | checked call now state correct =>
    cases correct with
    | true => exact inv.1.settled.safe
    | false => exact inv.1
  | refusing call writes e => exact inv.1.safe
  | persisting call writes result =>
    cases result with
    | ok u => exact inv.1.settled.safe
    | error e => exact inv.1
  | changing newPin => exact Vault.Settled.safe (Vault.Fresh.settled inv)
  | clearing => exact Vault.Settled.safe (Vault.Fresh.settled inv)
  | resetting writes => exact inv.1.settled.safe
  | returned result => exact busy.elim

instance (task : Task) : Decidable task.Busy :=
  match task with
  | .calling _ | .returned _ => .isFalse id
  | .locked _ _ _ _ | .unlocked _ _ _ _ | .checked _ _ _ _ | .refusing _ _ _ | .persisting _ _ _ | .changing _
  | .clearing | .resetting _ => .isTrue trivial

def Answer.succeeds (answer : Answer) : Bool := answer.db.isOk

theorem succeeds_iff {answer : Answer} : answer.succeeds = true ↔ answer.db = .ok () := by
  unfold Answer.succeeds
  cases answer.db with
  | ok u => simp [Except.isOk, Except.toBool]
  | error e => simp [Except.isOk, Except.toBool]

instance (v : Vault) (task : Task) (answer : Answer) : Decidable (Persists v task answer) :=
  match task with
  | .checked _ _ _ false => decidable_of_iff _ succeeds_iff
  | .persisting _ _ (.error _) => decidable_of_iff _ succeeds_iff
  | .checked _ _ _ true | .persisting _ _ (.ok _) | .calling _ | .returned _ | .locked _ _ _ _ | .unlocked _ _ _ _
  | .refusing _ _ _ | .changing _ | .clearing | .resetting _ => .isTrue trivial

instance (v : Vault) (task : Task) (answer : Answer) (other : Task) : Decidable (NotOverlapping v task answer other) :=
  match task with
  | .calling call => inferInstanceAs (Decidable (call.wellFormed = true → ¬ other.Busy))
  | .returned _ | .locked _ _ _ _ | .unlocked _ _ _ _ | .checked _ _ _ _ | .refusing _ _ _ | .persisting _ _ _
  | .changing _ | .clearing | .resetting _ => .isTrue trivial

/-- The hashes of the two PINs of the concrete runs under the salt 00 01 … 0f. -/
def samplePbkdf2 (pin _salt : Bytes) (_iterations _dkLen : Nat) : Bytes :=
  (hexDecode (if pin = utf8 "1234" then "9f39d9c71c22c4c459bc2cbacc6d74e2184185d671d91f0a34a6834413a0849d"
    else "2e236abcf3397f131e65797a39259faa6d4fc77a9393c4042acde710ffac6ca0")).getD []

/-- The PIN is 1234. -/
def sampleStored : Option String :=
  some ("000102030405060708090a0b0c0d0e0f" ++ ":" ++ "9f39d9c71c22c4c459bc2cbacc6d74e2184185d671d91f0a34a6834413a0849d")

def working (now : Int) : Answer := ⟨now, .error "", .ok ()⟩

def unwritable (now : Int) : Answer := ⟨now, .error "", .error "disk full"⟩

def alone (i : Nat) (call : Call) (now : Int) : List (Move Call Answer) :=
  .call call :: List.replicate 6 (.advance i (working now))

def inTurn : List (Move Call Answer) :=
  alone 0 (.verify "0000") 1 ++ alone 1 (.verify "0000") 2 ++ alone 2 (.verify "1234") 3

/-- Eleven calls read the settings before one of them has checked its PIN. -/
def atOnce : List (Move Call Answer) :=
  List.replicate 11 (.call (.verify "0000")) ++ (List.range 11).map (fun i => .advance i (working 1)) ++
    (List.range 11).map fun i => .advance i (working 1)

/-- Eleven calls one after the other, none of which can write the counters. -/
def unwritten : List (Move Call Answer) :=
  (List.range 11).flatMap fun i =>
    [.call (.verify "0000"), .advance i (working 1), .advance i (working 1), .advance i (working 1),
      .advance i (unwritable 1), .advance i (working 1)]

/-- A call reads the settings, three wrong PINs start a lockout, and then the call finds its PIN correct. -/
def throughLockout : List (Move Call Answer) :=
  [.call (.verify "1234"), .advance 0 (working 1)] ++ alone 1 (.verify "0000") 1 ++ alone 2 (.verify "0000") 1 ++
    alone 3 (.verify "0000") 1 ++ [.advance 0 (working 1)]

end Soshal.Bridge.PinLock
