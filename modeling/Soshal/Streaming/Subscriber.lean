import Soshal.Library.Budget
import Soshal.Library.Runs
import Soshal.Streaming.Moq

/-! What a subscriber of a media stream holds until it is read.

Two limits are met together after each object, the oldest objects going first. An
object that is larger than the byte limit by itself drops everything, itself included.
-/

set_option autoImplicit false

namespace Soshal.Streaming.Moq

open Library
open Library.Runs (run)

def maxSubscriberObjects : Nat := 1000
def maxSubscriberBufferBytes : Nat := 64 * 1024 * 1024

structure SubscriberBuffer where
  objects : List MoqObject
  bytes : Nat

def MoqObject.size (object : MoqObject) : Nat := object.payload.length

namespace SubscriberBuffer

def empty : SubscriberBuffer := ⟨[], 0⟩

def pushIncomingObject (buf : SubscriberBuffer) (object : MoqObject) : SubscriberBuffer :=
  let kept := Budget.trim MoqObject.size maxSubscriberObjects maxSubscriberBufferBytes (buf.objects ++ [object])
    (buf.bytes + object.payload.length)
  ⟨kept.1, kept.2⟩

def drainPendingObjects (buf : SubscriberBuffer) : SubscriberBuffer × List MoqObject :=
  (⟨[], 0⟩, buf.objects)

inductive Call where
  | push (object : MoqObject)
  | drain

/-- A buffer, with everything that was pushed to it and everything that was drained from it. -/
structure Session where
  buffer : SubscriberBuffer
  pushed : List MoqObject
  drained : List MoqObject

def Session.new : Session := ⟨empty, [], []⟩

def Session.step (s : Session) : Call → Session
  | .push object =>
    { s with
      buffer := s.buffer.pushIncomingObject object
      pushed := s.pushed ++ [object] }
  | .drain =>
    { s with
      buffer := s.buffer.drainPendingObjects.1
      drained := s.drained ++ s.buffer.drainPendingObjects.2 }

/-- The counter is right and both limits are met. -/
structure Within (buf : SubscriberBuffer) : Prop where
  counted : buf.bytes = (buf.objects.map fun o => o.payload.length).sum
  few : buf.objects.length ≤ maxSubscriberObjects
  light : buf.bytes ≤ maxSubscriberBufferBytes

/-- Everything drained was pushed earlier than anything that is still held. -/
def InOrder (s : Session) : Prop :=
  ∃ before since, s.pushed = before ++ since ∧ s.drained.Sublist before ∧ s.buffer.objects <:+ since

theorem within_empty : Within empty := ⟨rfl, Nat.zero_le _, Nat.zero_le _⟩

theorem within_push {buf : SubscriberBuffer} (within : Within buf) (object : MoqObject) :
    Within (buf.pushIncomingObject object) := by
  have counted : buf.bytes + object.payload.length = Budget.total MoqObject.size (buf.objects ++ [object]) := by
    rw [Budget.total_append, within.counted, Budget.total, Budget.total, List.map_singleton, List.sum_singleton]
    rfl
  unfold pushIncomingObject
  rw [counted]
  exact ⟨Budget.trim_counted _ _ _ _, Budget.length_trim_le _ _ _ _ _, Budget.trim_total_le _ _ _ _⟩

theorem inOrder_push {s : Session} (ordered : InOrder s) (object : MoqObject) : InOrder (s.step (.push object)) := by
  obtain ⟨before, since, split, earlier, suffix⟩ := ordered
  refine ⟨before, since ++ [object], ?_, earlier, ?_⟩
  · change s.pushed ++ [object] = _
    rw [split, List.append_assoc]
  · -- Evicting shortens what is held from the front, older objects first.
    obtain ⟨evicted, rfl⟩ := suffix
    refine (Budget.trim_suffix _ _ _ _ _).trans ⟨evicted, ?_⟩
    exact (List.append_assoc _ _ _).symm

theorem inOrder_drain {s : Session} (ordered : InOrder s) : InOrder (s.step .drain) := by
  obtain ⟨before, since, split, earlier, suffix⟩ := ordered
  refine ⟨before ++ since, [], ?_, earlier.append suffix.sublist, List.suffix_refl []⟩
  change s.pushed = _
  rw [split, List.append_nil]

theorem step_keeps (s : Session) (call : Call) (holds : Within s.buffer ∧ InOrder s) :
    Within (s.step call).buffer ∧ InOrder (s.step call) := by
  obtain ⟨within, ordered⟩ := holds
  cases call with
  | push object => exact ⟨within_push within object, inOrder_push ordered object⟩
  | drain => exact ⟨within_empty, inOrder_drain ordered⟩

/-- Whatever is pushed and however it is read, the counter is exact, both limits are met and
the content is a suffix of what was pushed and not drained. -/
theorem subscriber_buffer_within (calls : List Call) :
    let s := run Session.step Session.new calls
    s.buffer.bytes = (s.buffer.objects.map fun o => o.payload.length).sum ∧
    s.buffer.objects.length ≤ 1000 ∧ s.buffer.bytes ≤ 64 * 1024 * 1024 ∧
    ∃ before since, s.pushed = before ++ since ∧ s.drained.Sublist before ∧ s.buffer.objects <:+ since := by
  intro s
  have initial : Within Session.new.buffer ∧ InOrder Session.new :=
    ⟨within_empty, [], [], rfl, List.Sublist.refl [], List.suffix_refl []⟩
  have always : Runs.Always Session.step (fun s => Within s.buffer ∧ InOrder s) Session.new calls :=
    Runs.always_of_invariant step_keeps initial
  obtain ⟨within, ordered⟩ := always.last
  exact ⟨within.counted, within.few, within.light, ordered⟩

end SubscriberBuffer

end Soshal.Streaming.Moq
