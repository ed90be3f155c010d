import Mathlib.Data.List.Basic

/-! A receiver of a bounded broadcast channel.

Every message is delivered to the receiver's own backlog. When the backlog is full
the oldest message is lost, and the next attempt to receive reports the loss instead
of a message. What is still to be read is never forgotten silently: it stays in the
backlog, or the loss stays to be reported.
-/

set_option autoImplicit false

namespace Soshal.Library.Broadcast

variable {α : Type}

structure Receiver (α : Type) where
  backlog : List α
  lagged : Bool
  deriving DecidableEq

inductive Received (α : Type) where
  | message (m : α)
  | lagged
  | empty

namespace Receiver

def new : Receiver α := ⟨[], false⟩

def deliver (capacity : Nat) (r : Receiver α) (m : α) : Receiver α :=
  if r.backlog.length < capacity then { r with backlog := r.backlog ++ [m] }
  else ⟨(r.backlog ++ [m]).tail, true⟩

def receive (r : Receiver α) : Received α × Receiver α :=
  if r.lagged then (.lagged, { r with lagged := false })
  else
    match r.backlog with
    | [] => (.empty, r)
    | m :: rest => (.message m, { r with backlog := rest })

/-- A message of some kind is still to be read, or a loss to be reported. -/
def Pending (p : α → Prop) (r : Receiver α) : Prop := r.lagged = true ∨ ∃ m ∈ r.backlog, p m

variable {p : α → Prop} {r : Receiver α}

theorem not_pending_new : ¬ Pending p (new : Receiver α) := by
  simp [Pending, new]

theorem Pending.deliver (pending : Pending p r) (capacity : Nat) (m : α) : Pending p (r.deliver capacity m) := by
  rw [Receiver.deliver]
  split
  · exact pending.imp_right fun ⟨old, member, holds⟩ => ⟨old, List.mem_append_left _ member, holds⟩
  · exact .inl rfl

theorem pending_deliver {m : α} (holds : p m) (r : Receiver α) (capacity : Nat) : Pending p (r.deliver capacity m) := by
  rw [Receiver.deliver]
  split
  · exact .inr ⟨m, by simp, holds⟩
  · exact .inl rfl

theorem Pending.receive (pending : Pending p r) :
    r.receive.1 = .lagged ∨ ∃ m, r.receive.1 = .message m ∧ (p m ∨ Pending p r.receive.2) := by
  obtain ⟨backlog, lagged⟩ := r
  cases lagged with
  | true => exact .inl rfl
  | false =>
    obtain ⟨m, member, holds⟩ := pending.resolve_left (by simp)
    cases backlog with
    | nil => exact absurd member List.not_mem_nil
    | cons first rest =>
      refine .inr ⟨first, rfl, ?_⟩
      rcases List.mem_cons.mp member with rfl | later
      · exact .inl holds
      · exact .inr (.inr ⟨m, later, holds⟩)

end Receiver

end Soshal.Library.Broadcast
