import Soshal.Library.Runs

/-! Reading a feed in instalments.

A reader names the last event it was given and is handed what came after it. What it
is handed leaves the buffer, the named event with it, so the next request names an
event that the buffer no longer holds.
-/

set_option autoImplicit false

namespace Soshal.Feed

open Library
open Library.Runs (run Always Throughout)

variable {Event : Type} (eventId : Event → Option String)

/-- Where the pending events start, unless the named event is not there. -/
def pendingFrom (events : List Event) (sinceId : String) : Option Nat :=
  if sinceId.isEmpty then some 0
  else (events.findIdx? fun e => eventId e = some sinceId).map (· + 1)

/-- The events left, the pending events and how many there were before. -/
def splitFeedBuffer (events : List Event) (sinceId : String) (max : Nat) : List Event × List Event × Nat :=
  match pendingFrom eventId events sinceId with
  | none => (events, [], events.length)
  | some start =>
    let left := events.take start
    (left.drop (left.length - max), events.drop start, events.length)

theorem splitFeedBuffer_all (events : List Event) (max : Nat) :
    splitFeedBuffer eventId events "" max = ([], events, events.length) := by
  simp [splitFeedBuffer, pendingFrom]

theorem splitFeedBuffer_empty (sinceId : String) (max : Nat) :
    splitFeedBuffer eventId [] sinceId max = ([], [], 0) := by
  unfold splitFeedBuffer
  split <;> simp

theorem length_pending_lt {events : List Event} {sinceId : String} (max : Nat) (named : sinceId ≠ "")
    (held : events ≠ []) : (splitFeedBuffer eventId events sinceId max).2.1.length < events.length := by
  have some_held : 0 < events.length := List.length_pos_iff.mpr held
  unfold splitFeedBuffer
  cases found : pendingFrom eventId events sinceId with
  | none => exact some_held
  | some start =>
    have after : 0 < start := by
      unfold pendingFrom at found
      rw [if_neg (by simpa using named)] at found
      obtain ⟨i, -, rfl⟩ := Option.map_eq_some_iff.mp found
      exact Nat.succ_pos i
    rw [List.length_drop]
    omega

inductive Call (Event : Type) where
  | append (e : Event)
  | poll (max : Nat)

/-- The buffer and the id its reader holds, with what was appended, what was appended before the
latest poll and what the reader was given. -/
structure Session (Event : Type) where
  buffer : List Event
  sinceId : String
  appended : List Event
  due : List Event
  delivered : List Event

def Session.new : Session Event := ⟨[], "", [], [], []⟩

/-- The id of the last event that was delivered; the old one if none was. -/
def nextSinceId (sinceId : String) (pending : List Event) : String :=
  match pending.getLast? with
  | some e => (eventId e).getD ""
  | none => sinceId

def Session.step (s : Session Event) : Call Event → Session Event
  | .append e => { s with buffer := s.buffer ++ [e], appended := s.appended ++ [e] }
  | .poll max =>
    let (left, pending, _) := splitFeedBuffer eventId s.buffer s.sinceId max
    { s with
      buffer := left
      sinceId := nextSinceId eventId s.sinceId pending
      due := s.appended
      delivered := s.delivered ++ pending }

/-- Each event that was appended before the latest poll was delivered once, in order. -/
def Session.Exact (s : Session Event) : Prop := s.delivered = s.due

/-- Nothing has been appended since the latest poll, or the reader holds no id. -/
def Session.Clear (s : Session Event) : Call Event → Prop
  | .append _ => True
  | .poll _ => s.buffer = [] ∨ s.sinceId = ""

/-- The buffer holds exactly what was not due yet. -/
structure Session.Settled (s : Session Event) : Prop where
  exact : s.delivered = s.due
  held : s.appended = s.due ++ s.buffer

theorem poll_clear {s : Session Event} {max : Nat} (clear : s.Clear (.poll max)) :
    (splitFeedBuffer eventId s.buffer s.sinceId max).1 = [] ∧
      (splitFeedBuffer eventId s.buffer s.sinceId max).2.1 = s.buffer := by
  obtain none_held | unnamed := clear
  · rw [none_held, splitFeedBuffer_empty]
    exact ⟨rfl, rfl⟩
  · rw [unnamed, splitFeedBuffer_all]
    exact ⟨rfl, rfl⟩

theorem settled_step (s : Session Event) (call : Call Event) (settled : s.Settled) (clear : s.Clear call) :
    (s.step eventId call).Settled := by
  cases call with
  | append e =>
    refine ⟨settled.exact, ?_⟩
    change s.appended ++ [e] = s.due ++ (s.buffer ++ [e])
    rw [settled.held, List.append_assoc]
  | poll max =>
    obtain ⟨left, pending⟩ := poll_clear eventId clear
    constructor
    · change s.delivered ++ (splitFeedBuffer eventId s.buffer s.sinceId max).2.1 = s.appended
      rw [pending, settled.exact, settled.held]
    · change s.appended = s.appended ++ (splitFeedBuffer eventId s.buffer s.sinceId max).1
      rw [left, List.append_nil]

theorem clear_of_exact (s : Session Event) (call : Call Event) (settled : s.Settled)
    (exact_after : (s.step eventId call).Exact) : s.Clear call := by
  cases call with
  | append e => trivial
  | poll max =>
    by_contra unclear
    obtain ⟨held, named⟩ := not_or.mp unclear
    have short := length_pending_lt eventId max named held
    have same : s.delivered ++ (splitFeedBuffer eventId s.buffer s.sinceId max).2.1 = s.appended := exact_after
    -- What was handed over would be all that was held.
    rw [settled.held, settled.exact] at same
    rw [List.append_cancel_left same] at short
    exact Nat.lt_irrefl _ short

/-- A reader that names the last event it was given gets every event once and in order exactly as long as
nothing is appended between a delivery and a later poll. -/
theorem polls_exact_iff (calls : List (Call Event)) :
    Always (Session.step eventId) Session.Exact Session.new calls ↔
      Throughout (Session.step eventId) Session.Clear Session.new calls :=
  Runs.always_iff_of_invariant (fun _ settled => settled.exact) (clear_of_exact eventId) (settled_step eventId)
    ⟨rfl, rfl⟩

/-- Two events with a poll after each: the second is never delivered. -/
theorem second_event_lost :
    let calls : List (Call String) := [.append "a", .poll 100, .append "b", .poll 100]
    (run (Session.step some) Session.new calls).delivered = ["a"] ∧
      (run (Session.step some) Session.new calls).due = ["a", "b"] ∧
      ¬ Always (Session.step some) Session.Exact Session.new calls := by
  have delivered : (run (Session.step some) Session.new
      [Call.append "a", .poll 100, .append "b", .poll 100]).delivered = ["a"] := by decide
  have due : (run (Session.step some) Session.new
      [Call.append "a", .poll 100, .append "b", .poll 100]).due = ["a", "b"] := by decide
  refine ⟨delivered, due, fun always => ?_⟩
  have exact_end : _ = _ := always.last
  rw [delivered, due] at exact_end
  exact absurd exact_end (by decide)

end Soshal.Feed
