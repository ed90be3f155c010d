import Soshal.Library.Fallible
import Soshal.Library.Fields

/-! Calls whose integer arithmetic is checked.

An overflow ends the program; any other failure is an error that the caller is
handed. Work that is worth counting is counted whatever the outcome.
-/

set_option autoImplicit false

namespace Soshal.Library.Checked

def maxI64 : Int := 2 ^ 63 - 1
def minI64 : Int := -2 ^ 63

def InI64 (n : Int) : Prop := minI64 ≤ n ∧ n ≤ maxI64

instance (n : Int) : Decidable (InI64 n) := inferInstanceAs (Decidable (_ ∧ _))

/-- `str::parse` at the signed type: a sign of either kind and leading zeros are read. -/
def parseI64 (s : String) : Option Int :=
  match Text.stripPrefix s "-" with
  | none => (Fields.parseUnsigned (2 ^ 63) s).map Int.ofNat
  | some digits =>
    if digits ≠ "" ∧ digits.toList.all Char.isDigit then
      let n := Nat.ofDigitChars 10 digits.toList 0
      if n ≤ 2 ^ 63 then some (-(n : Int)) else none
    else none

theorem inI64_of_parseI64 {s : String} {n : Int} (read : parseI64 s = some n) : InI64 n := by
  unfold parseI64 at read
  cases negative : Text.stripPrefix s "-" with
  | none =>
    simp only [negative, Option.map_eq_some_iff] at read
    obtain ⟨m, read, rfl⟩ := read
    unfold Fields.parseUnsigned at read
    dsimp only at read
    split at read
    · split at read
      · cases read
        simp only [InI64, minI64, maxI64, Int.ofNat_eq_natCast]
        omega
      · cases read
    · cases read
  | some digits =>
    simp only [negative] at read
    split at read
    · split at read
      · cases read
        simp only [InI64, minI64, maxI64]
        omega
      · cases read
    · cases read

inductive Fault where
  | overflow
  | refused (message : String)
  deriving DecidableEq

structure Call (α : Type) where
  work : Nat
  outcome : Except Fault α

instance : Monad Call where
  pure a := ⟨0, .ok a⟩
  bind x f :=
    match x.outcome with
    | .error fault => ⟨x.work, .error fault⟩
    | .ok a => ⟨x.work + (f a).work, (f a).outcome⟩

namespace Call

variable {α β : Type}

def refuse (message : String) : Call α := ⟨0, .error (.refused message)⟩

/-- An early return with an error. -/
def failIf (c : Prop) [Decidable c] (message : String) : Call Unit := if c then refuse message else pure ()

/-- The result of a sum or difference, if the integers of the machine have it. -/
def arith (n : Int) : Call Int := if InI64 n then pure n else ⟨0, .error .overflow⟩

def counted (work : Nat) (a : α) : Call α := ⟨work, .ok a⟩

end Call

/-- An error of the program that is no overflow. -/
def lift {α : Type} : Except String α → Except Fault α
  | .error message => .error (.refused message)
  | .ok a => .ok a

def Call.ofExcept {α : Type} (x : Except String α) : Call α := ⟨0, lift x⟩

namespace Call

variable {α β : Type}

@[simp] theorem pure_outcome (a : α) : (pure a : Call α).outcome = .ok a := rfl
@[simp] theorem counted_outcome (n : Nat) (a : α) : (counted n a).outcome = .ok a := rfl
@[simp] theorem ofExcept_outcome (x : Except String α) : (ofExcept x).outcome = lift x := rfl

@[simp] theorem arith_work (n : Int) : (arith n).work = 0 := by
  unfold arith
  split <;> rfl

theorem bind_outcome (x : Call α) (f : α → Call β) : (x >>= f).outcome = x.outcome >>= fun a => (f a).outcome := by
  obtain ⟨work, outcome⟩ := x
  cases outcome with
  | error fault => rfl
  | ok a => rfl

theorem bind_work (x : Call α) (f : α → Call β) :
    (x >>= f).work = x.work + match x.outcome with | .error _ => 0 | .ok a => (f a).work := by
  obtain ⟨work, outcome⟩ := x
  cases outcome with
  | error fault => rfl
  | ok a => rfl

theorem bind_work_le {x : Call α} {f : α → Call β} {first rest : Nat} (bounded : x.work ≤ first)
    (later : ∀ a, x.outcome = .ok a → (f a).work ≤ rest) : (x >>= f).work ≤ first + rest := by
  rw [bind_work]
  cases done : x.outcome with
  | error fault => exact Nat.le_add_right_of_le bounded
  | ok a => exact Nat.add_le_add bounded (later a done)

theorem bind_work_free {x : Call α} {f : α → Call β} {n : Nat} (free : x.work = 0) (rest : ∀ a, (f a).work ≤ n) :
    (x >>= f).work ≤ n := by
  have added := bind_work_le (Nat.le_of_eq free) fun a _ => rest a
  rwa [Nat.zero_add] at added

@[simp] theorem failIf_work {c : Prop} [Decidable c] (message : String) : (failIf c message).work = 0 := by
  unfold failIf
  split <;> rfl

@[simp] theorem refuse_bind (message : String) (f : α → Call β) : refuse message >>= f = refuse message := rfl

@[simp] theorem pure_bind (a : α) (f : α → Call β) : pure a >>= f = f a := by
  change (⟨0 + (f a).work, (f a).outcome⟩ : Call β) = f a
  rw [Nat.zero_add]

theorem failIf_bind {c : Prop} [Decidable c] (message : String) (f : Unit → Call β) :
    failIf c message >>= f = if c then refuse message else f () := by
  unfold failIf
  split
  case isTrue => exact refuse_bind message f
  case isFalse => exact pure_bind () f

theorem bind_ok {x : Call α} {f : α → Call β} {b : β} :
    (x >>= f).outcome = .ok b ↔ ∃ a, x.outcome = .ok a ∧ (f a).outcome = .ok b := by
  rw [bind_outcome]
  exact Fallible.bind_eq_ok

theorem ofExcept_ok {x : Except String α} {a : α} : (ofExcept x).outcome = .ok a ↔ x = .ok a := by
  cases x with
  | error message => simp [ofExcept, lift]
  | ok b => simp [ofExcept, lift]

theorem arith_ok {n m : Int} : (arith n).outcome = .ok m ↔ InI64 n ∧ m = n := by
  unfold arith
  split
  case isTrue fits => simp [fits, eq_comm]
  case isFalse beyond => simp [beyond]

theorem arith_of {n : Int} (fits : InI64 n) : arith n = pure n := if_pos fits

theorem arith_overflow {n : Int} (beyond : ¬ InI64 n) (f : Int → Call β) :
    (arith n >>= f).outcome = .error .overflow := by
  rw [bind_outcome, arith, if_neg beyond]
  rfl

end Call

section Lift

variable {α β : Type}

theorem lift_eq_ok {x : Except String α} {a : α} : lift x = .ok a ↔ x = .ok a := by
  cases x with
  | error message => simp [lift]
  | ok b => simp [lift]

theorem lift_ne_overflow (x : Except String α) : lift x ≠ .error .overflow := by
  cases x with
  | error message => simp [lift]
  | ok a => simp [lift]

theorem refuse_alike {c : Prop} [Decidable c] {message : String} {x : Call α} {y : Except String α}
    (same : ¬ c → x.outcome = lift y) :
    (if c then Call.refuse message else x).outcome = lift (if c then .error message else y) := by
  split
  case isTrue => rfl
  case isFalse passed => exact same passed

theorem bind_alike {x : Call α} {y : Except String α} {f : α → Call β} {g : α → Except String β}
    (first : x.outcome = lift y) (rest : ∀ a, y = .ok a → (f a).outcome = lift (g a)) :
    (x >>= f).outcome = lift (y >>= g) := by
  rw [Call.bind_outcome, first]
  cases y with
  | error message => rfl
  | ok a => exact rest a rfl

end Lift

end Soshal.Library.Checked
