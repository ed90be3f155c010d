import Soshal.Library.OrderedMap
import Soshal.Library.Runs
import Soshal.Library.Table
import Soshal.Library.Text

/-! The registry of live streams.

A stream is a log of encoded groups, numbered as they are pushed. A push drops the
oldest groups until two limits hold, and a stream without a push for ten seconds is
dropped whole the next time anybody looks.
-/

set_option autoImplicit false

namespace Soshal.Network.LiveStreams

open Library Library.Runs
open Library.Text (byteLen)

abbrev Group := List UInt8

def liveMaxStreamId : Nat := 128

def liveMaxStreams : Nat := 32

def liveStreamHistory : Nat := 128

def liveMaxReplayBytes : Nat := 8 * 1024 * 1024

def liveMaxGroupBytes : Nat := 64 * 1024 * 1024

def idleNanos : Nat := 10 * 1000 * 1000 * 1000

structure LiveStreamLog where
  entries : OrderedMap Nat Group
  watermark : Nat
  lastActivity : Nat

def LiveStreamLog.default (now : Nat) : LiveStreamLog := ⟨.empty, 0, now⟩

def totalBytes (entries : List (Nat × Group)) : Nat := (entries.map fun entry => entry.2.length).sum

/-- The loop that drops the oldest groups; `total` is what the groups that are left add up to. -/
def dropOldest (total : Nat) : List (Nat × Group) → List (Nat × Group)
  | [] => []
  | (seq, g) :: rest =>
    if liveStreamHistory < rest.length + 1 ∨ (liveMaxReplayBytes < total ∧ 1 < rest.length + 1) then
      dropOldest (total - g.length) rest
    else (seq, g) :: rest

theorem dropOldest_suffix (total : Nat) (entries : List (Nat × Group)) : dropOldest total entries <:+ entries := by
  induction entries generalizing total with
  | nil => exact List.suffix_rfl
  | cons entry rest ih =>
    rw [dropOldest]
    split
    · exact (ih _).trans (List.suffix_cons _ _)
    · exact List.suffix_rfl

theorem dropOldest_concat (total : Nat) (entries : List (Nat × Group)) (last : Nat × Group) :
    ∃ kept, dropOldest total (entries ++ [last]) = kept ++ [last] := by
  induction entries generalizing total with
  | nil =>
    refine ⟨[], ?_⟩
    simp [dropOldest, liveStreamHistory]
  | cons entry rest ih =>
    rw [List.cons_append, dropOldest]
    split
    · exact ih _
    · exact ⟨entry :: rest, rfl⟩

theorem dropOldest_bounded (entries : List (Nat × Group)) :
    (dropOldest (totalBytes entries) entries).length ≤ liveStreamHistory ∧
      (totalBytes (dropOldest (totalBytes entries) entries) ≤ liveMaxReplayBytes ∨
        (dropOldest (totalBytes entries) entries).length ≤ 1) := by
  induction entries with
  | nil => simp [dropOldest]
  | cons entry rest ih =>
    rw [dropOldest]
    split
    · have left : totalBytes (entry :: rest) - entry.2.length = totalBytes rest := by simp [totalBytes]
      rw [left]
      exact ih
    · rename_i within
      rw [not_or, not_and_or, Nat.not_lt, Nat.not_lt, Nat.not_lt] at within
      exact within

namespace LiveStreamLog

def append (log : LiveStreamLog) (now : Nat) (encoded : Group) : LiveStreamLog :=
  let grown := log.entries.insert (log.watermark + 1) encoded
  { entries := ⟨dropOldest (totalBytes grown.entries) grown.entries,
      grown.sorted.sublist (dropOldest_suffix _ _).sublist⟩
    watermark := log.watermark + 1
    lastActivity := now }

/-- The bounded history of a stream: its keys end at the watermark. -/
structure Bounded (log : LiveStreamLog) : Prop where
  count : log.entries.entries.length ≤ liveStreamHistory
  bytes : totalBytes log.entries.entries ≤ liveMaxReplayBytes ∨ log.entries.entries.length = 1
  ends : (log.entries.entries.getLast?).map Prod.fst = some log.watermark

def Below (log : LiveStreamLog) : Prop := ∀ entry ∈ log.entries.entries, entry.1 ≤ log.watermark

theorem Bounded.below {log : LiveStreamLog} (bounded : log.Bounded) : log.Below := by
  obtain ⟨last, found, top⟩ := Option.map_eq_some_iff.mp bounded.ends
  obtain ⟨kept, split⟩ := List.getLast?_eq_some_iff.mp found
  have sorted := log.entries.sorted
  intro entry member
  rw [split] at sorted member
  rcases List.mem_append.mp member with earlier | here
  · exact top ▸ (List.pairwise_append.mp sorted).2.2 entry earlier last List.mem_cons_self |>.le
  · rw [List.mem_singleton.mp here, top]

theorem append_entries {log : LiveStreamLog} (below : log.Below) (now : Nat) (encoded : Group) :
    (log.append now encoded).entries.entries =
      dropOldest (totalBytes (log.entries.entries ++ [(log.watermark + 1, encoded)]))
        (log.entries.entries ++ [(log.watermark + 1, encoded)]) := by
  have grown : OrderedMap.insertEntry (log.watermark + 1) encoded log.entries.entries =
      log.entries.entries ++ [(log.watermark + 1, encoded)] :=
    OrderedMap.insertEntry_of_above fun entry member => Nat.lt_succ_of_le (below entry member)
  simp only [append, OrderedMap.insert, grown]

theorem append_bounded {log : LiveStreamLog} (below : log.Below) (now : Nat) (encoded : Group) :
    (log.append now encoded).Bounded := by
  obtain ⟨kept, split⟩ := dropOldest_concat (totalBytes (log.entries.entries ++ [(log.watermark + 1, encoded)]))
    log.entries.entries (log.watermark + 1, encoded)
  have entries := append_entries below now encoded
  have bounds := dropOldest_bounded (log.entries.entries ++ [(log.watermark + 1, encoded)])
  rw [← entries] at split bounds
  refine ⟨bounds.1, ?_, ?_⟩
  · refine bounds.2.imp_right fun short => Nat.le_antisymm short ?_
    simp [split]
  · rw [split, List.getLast?_concat]
    rfl

end LiveStreamLog

structure LiveStreamRegistry where
  streams : Table String LiveStreamLog

namespace LiveStreamRegistry

def empty : LiveStreamRegistry := ⟨.empty⟩

/-- A clock younger than the cutoff counts from its own start. -/
def idleCutoff (now : Nat) : Nat := if idleNanos ≤ now then now - idleNanos else now

def evictIdle (now : Nat) (registry : LiveStreamRegistry) : LiveStreamRegistry :=
  ⟨registry.streams.delete fun _ log => log.lastActivity < idleCutoff now⟩

def get (now : Nat) (registry : LiveStreamRegistry) (streamId : String) : LiveStreamRegistry × Option LiveStreamLog :=
  let registry := registry.evictIdle now
  (registry, registry.streams.find? streamId)

def remove (registry : LiveStreamRegistry) (streamId : String) : LiveStreamRegistry :=
  ⟨registry.streams.delete fun id _ => id = streamId⟩

/-- What `push` refuses before it looks at the streams. -/
def refused (streamId : String) (encoded : Group) : Option String :=
  if streamId = "" ∨ liveMaxStreamId < byteLen streamId then some "bad live stream id"
  else if encoded = [] ∨ liveMaxGroupBytes < encoded.length then some "bad live group payload"
  else none

def push (now : Nat) (registry : LiveStreamRegistry) (streamId : String) (encoded : Group) :
    LiveStreamRegistry × Except String Nat :=
  match refused streamId encoded with
  | some e => (registry, .error e)
  | none =>
    let registry := registry.evictIdle now
    if liveMaxStreams ≤ registry.streams.keys.length ∧ streamId ∉ registry.streams.keys then
      (registry, .error "live registry full")
    else
      let log := ((registry.streams.find? streamId).getD (.default now)).append now encoded
      (⟨registry.streams.upsert streamId log fun _ => log⟩, .ok log.watermark)

/-- What publishers and viewers ask of the registry. -/
inductive Call where
  | push (now : Nat) (streamId : String) (encoded : Group)
  | look (now : Nat)
  | remove (streamId : String)

def step (registry : LiveStreamRegistry) : Call → LiveStreamRegistry
  | .push now streamId encoded => (registry.push now streamId encoded).1
  | .look now => registry.evictIdle now
  | .remove streamId => registry.remove streamId

def Bounded (registry : LiveStreamRegistry) : Prop :=
  ∀ streamId log, registry.streams.find? streamId = some log → log.Bounded

theorem Bounded.evictIdle {registry : LiveStreamRegistry} (bounded : registry.Bounded) (now : Nat) :
    (registry.evictIdle now).Bounded :=
  fun streamId log found => bounded streamId log (Table.find?_of_delete found)

theorem Bounded.step {registry : LiveStreamRegistry} (bounded : registry.Bounded) (call : Call) :
    (registry.step call).Bounded := by
  cases call with
  | look now => exact bounded.evictIdle now
  | remove streamId => exact fun other log found => bounded other log (Table.find?_of_delete found)
  | push now streamId encoded =>
    have kept := bounded.evictIdle now
    simp only [LiveStreamRegistry.step, LiveStreamRegistry.push]
    split
    · exact bounded
    · split
      · exact kept
      · intro other log found
        rw [Table.find?_upsert] at found
        split at found
        · have below : (((registry.evictIdle now).streams.find? streamId).getD (.default now)).Below := by
            cases old : (registry.evictIdle now).streams.find? streamId with
            | none => exact fun entry member => absurd member List.not_mem_nil
            | some log => exact (kept streamId log old).below
          have appended := LiveStreamLog.append_bounded below now encoded
          obtain rfl : _ = log := by simpa using found
          cases old : (registry.evictIdle now).streams.find? streamId <;> simpa [old] using appended
        · exact kept other log found

theorem bounded_run (calls : List Call) : (run step empty calls).Bounded :=
  (always_of_invariant (fun _ call bounded => bounded.step call) (fun _ _ found => by simp [empty] at found)).last

end LiveStreamRegistry

end Soshal.Network.LiveStreams
