import Soshal.Network.LiveStreams

/-! A viewer's subscription to a live stream.

The subscription replays the groups that are buffered and then follows the log by
reading what lies above its watermark, while publishers push and the bounded history
drops groups. Beside the subscription stands the list of the groups it owes its
viewer: those of the log at its start, and those pushed later that were still in the
log at a read.
-/

set_option autoImplicit false

namespace Soshal.Network.LiveStreams

open Library Library.Runs

def replayFrom (replayedBytes : Nat) : List (Nat × Group) → List (Nat × Group)
  | [] => []
  | (seq, g) :: rest =>
    if liveMaxReplayBytes < replayedBytes + g.length then [] else (seq, g) :: replayFrom (replayedBytes + g.length) rest

inductive Phase where
  | replaying (rest : List (Nat × Group))
  | following (pending : List (Nat × Group))
  | finished

structure Subscription where
  watermark : Nat
  phase : Phase
  sent : List (Nat × Group)

namespace Subscription

/-- The first read of the log. Where nothing was replayed, the log's own watermark is taken. -/
def start (log : LiveStreamLog) : Subscription :=
  let replay := replayFrom 0 log.entries.entries
  { watermark := (replay.getLast?.map Prod.fst).getD log.watermark
    phase := .replaying replay
    sent := [] }

def write (sub : Subscription) : Subscription :=
  match sub.phase with
  | .replaying (group :: rest) => { sub with phase := .replaying rest, sent := sub.sent ++ [group] }
  | .following (group :: rest) =>
    { watermark := group.1, phase := .following rest, sent := sub.sent ++ [group] }
  | _ => sub

def left (sub : Subscription) : List (Nat × Group) :=
  match sub.phase with
  | .replaying rest => rest
  | .following pending => pending
  | .finished => []

/-- The top of the loop: everything that was read is written. -/
def atTop (sub : Subscription) : Bool :=
  match sub.phase with
  | .replaying [] => true
  | .following [] => true
  | _ => false

def read (log : LiveStreamLog) (sub : Subscription) : Subscription :=
  { sub with phase := .following (log.entries.entries.filter fun entry => sub.watermark < entry.1) }

/-- The deadline and the idle gap are read off the clock: the loop may end whenever it is at its top. -/
def finish (sub : Subscription) : Subscription := if sub.atTop then { sub with phase := .finished } else sub

def mark (sub : Subscription) : Nat :=
  match sub.phase with
  | .following pending => (pending.getLast?.map Prod.fst).getD sub.watermark
  | _ => sub.watermark

end Subscription

/-- The registry with one subscription and what that one owes its viewer. -/
structure Watching where
  registry : LiveStreamRegistry
  sub : Subscription
  unread : List (Nat × Group)
  owed : List (Nat × Group)

inductive Move where
  | call (call : LiveStreamRegistry.Call)
  | read
  | write
  | finish

section Watching

variable (streamId : String)

def entriesOf (registry : LiveStreamRegistry) : List (Nat × Group) :=
  ((registry.streams.find? streamId).map fun log => log.entries.entries).getD []

def pushed (registry : LiveStreamRegistry) : LiveStreamRegistry.Call → List (Nat × Group)
  | .push now other encoded =>
    match (registry.push now other encoded).2 with
    | .ok seq => if other = streamId then [(seq, encoded)] else []
    | .error _ => []
  | _ => []

def watch (registry : LiveStreamRegistry) (log : LiveStreamLog) : Watching :=
  ⟨registry, .start log, [], log.entries.entries⟩

def Watching.step (w : Watching) : Move → Watching
  | .call call =>
    let registry := w.registry.step call
    { w with
      registry := registry
      -- A group that the history drops before it was read is owed no more.
      unread := (w.unread ++ pushed streamId w.registry call).filter fun entry => entry ∈ entriesOf streamId registry }
  | .read =>
    match w.registry.streams.find? streamId with
    | some log =>
      if w.sub.atTop then { w with sub := w.sub.read log, unread := [], owed := w.owed ++ w.unread } else w
    | none => w
  | .write => { w with sub := w.sub.write }
  | .finish => { w with sub := w.sub.finish }

def Stays (w : Watching) : Move → Prop
  | .call (.push now other encoded) =>
    LiveStreamRegistry.refused other encoded = none → streamId ∈ (w.registry.evictIdle now).streams.keys
  | .call (.look now) => streamId ∈ (w.registry.evictIdle now).streams.keys
  | .call (.remove other) => other ≠ streamId
  | _ => True

end Watching

theorem replayFrom_prefix (replayedBytes : Nat) (entries : List (Nat × Group)) :
    replayFrom replayedBytes entries <+: entries := by
  induction entries generalizing replayedBytes with
  | nil => exact List.prefix_rfl
  | cons entry rest ih =>
    rw [replayFrom]
    split
    · exact List.nil_prefix
    · exact (List.prefix_cons_inj entry).mpr (ih _)

theorem replayFrom_whole {replayedBytes : Nat} {entries : List (Nat × Group)}
    (fits : replayedBytes + totalBytes entries ≤ liveMaxReplayBytes) : replayFrom replayedBytes entries = entries := by
  induction entries generalizing replayedBytes with
  | nil => rfl
  | cons entry rest ih =>
    have split : totalBytes (entry :: rest) = entry.2.length + totalBytes rest := by simp [totalBytes]
    rw [split] at fits
    rw [replayFrom, if_neg (by omega), ih (by omega)]

def Oversized (log : LiveStreamLog) : Prop :=
  ∃ entry, log.entries.entries = [entry] ∧ liveMaxReplayBytes < entry.2.length

theorem replay_of_bounded {log : LiveStreamLog} (bounded : log.Bounded) :
    (¬ Oversized log ∧ replayFrom 0 log.entries.entries = log.entries.entries) ∨
      (Oversized log ∧ replayFrom 0 log.entries.entries = []) := by
  rcases bounded.bytes with small | single
  · refine .inl ⟨?_, replayFrom_whole (by omega)⟩
    rintro ⟨entry, only, large⟩
    simp [only, totalBytes] at small
    omega
  · obtain ⟨entry, only⟩ := List.length_eq_one_iff.mp single
    by_cases large : liveMaxReplayBytes < entry.2.length
    · exact .inr ⟨⟨entry, only, large⟩, by simp [only, replayFrom, large]⟩
    · refine .inl ⟨?_, by simp [only, replayFrom, large]⟩
      rintro ⟨other, same, above⟩
      rw [only] at same
      exact large ((List.cons.inj same).1 ▸ above)

theorem start_watermark {log : LiveStreamLog} (bounded : log.Bounded) :
    (Subscription.start log).watermark = log.watermark := by
  rcases replay_of_bounded bounded with ⟨_, whole⟩ | ⟨_, none_⟩
  · simp only [Subscription.start, whole, bounded.ends, Option.getD_some]
  · simp [Subscription.start, none_]

section Calls

variable {streamId : String} {w : Watching} {log : LiveStreamLog}

theorem find?_evictIdle {registry : LiveStreamRegistry} {now : Nat} (found : registry.streams.find? streamId = some log)
    (stays : streamId ∈ (registry.evictIdle now).streams.keys) :
    (registry.evictIdle now).streams.find? streamId = some log := by
  obtain ⟨other, kept⟩ := Table.mem_keys_iff.mp stays
  have same := Table.find?_of_delete kept
  rw [kept, ← same, found]

theorem call_log {call : LiveStreamRegistry.Call} (found : w.registry.streams.find? streamId = some log)
    (stays : Stays streamId w (.call call)) :
    (pushed streamId w.registry call = [] ∧ (w.registry.step call).streams.find? streamId = some log) ∨
      ∃ now encoded, pushed streamId w.registry call = [(log.watermark + 1, encoded)] ∧
        (w.registry.step call).streams.find? streamId = some (log.append now encoded) := by
  cases call with
  | look now => exact .inl ⟨rfl, find?_evictIdle found stays⟩
  | remove other =>
    refine .inl ⟨rfl, ?_⟩
    have apart : streamId ≠ other := fun same => stays same.symm
    simp only [LiveStreamRegistry.step, LiveStreamRegistry.remove, Table.find?_delete_key, if_neg apart, found]
  | push now other encoded =>
    simp only [pushed, LiveStreamRegistry.step, LiveStreamRegistry.push]
    cases refusal : LiveStreamRegistry.refused other encoded with
    | some e => exact .inl ⟨rfl, found⟩
    | none =>
      have kept := find?_evictIdle found (stays refusal)
      by_cases full : liveMaxStreams ≤ (w.registry.evictIdle now).streams.keys.length ∧
          other ∉ (w.registry.evictIdle now).streams.keys
      · simp only [if_pos full]
        exact .inl ⟨trivial, kept⟩
      · simp only [if_neg full]
        by_cases here : other = streamId
        · subst here
          refine .inr ⟨now, encoded, ?_, ?_⟩
          · simp [kept, LiveStreamLog.append]
          · simp [kept]
        · refine .inl ⟨if_neg here, ?_⟩
          rw [Table.find?_upsert_of_ne _ _ _ (Ne.symm here), kept]

end Calls

section Following

variable (streamId : String)

/-- The subscription has read everything up to its mark, and nothing above it. -/
structure Follows (w : Watching) (log : LiveStreamLog) : Prop where
  found : w.registry.streams.find? streamId = some log
  bounded : log.Bounded
  ordered : (w.sub.sent ++ w.sub.left).Pairwise fun first second => first.1 < second.1
  marked : ∀ entry ∈ w.sub.sent ++ w.sub.left, entry.1 ≤ w.sub.mark
  behind : w.sub.mark ≤ log.watermark
  unread : ∀ entry, entry ∈ w.unread ↔ entry ∈ log.entries.entries ∧ w.sub.mark < entry.1

def Kept (w : Watching) : Prop := ∀ entry ∈ w.owed, entry ∈ w.sub.sent ++ w.sub.left

variable {streamId} {w : Watching} {log : LiveStreamLog}

theorem Follows.call (follows : Follows streamId w log) {call : LiveStreamRegistry.Call}
    (stays : Stays streamId w (.call call)) : ∃ after, Follows streamId (w.step streamId (.call call)) after := by
  rcases call_log follows.found stays with ⟨nothing, found⟩ | ⟨now, encoded, one, found⟩
  · refine ⟨log, { follows with found := found, unread := fun entry => ?_ }⟩
    have old := follows.unread entry
    simp only [Watching.step, nothing, List.append_nil, List.mem_filter, entriesOf, found, Option.map_some,
      Option.getD_some, decide_eq_true_eq]
    tauto
  · have below := follows.bounded.below
    refine ⟨log.append now encoded, { follows with
      found := found
      bounded := LiveStreamLog.append_bounded below now encoded
      behind := Nat.le_succ_of_le follows.behind
      unread := fun entry => ?_ }⟩
    have old := follows.unread entry
    have kept : entry ∈ (log.append now encoded).entries.entries →
        entry ∈ log.entries.entries ∨ entry = (log.watermark + 1, encoded) := by
      intro member
      rw [LiveStreamLog.append_entries below] at member
      simpa using (dropOldest_suffix _ _).subset member
    have new : entry = (log.watermark + 1, encoded) → w.sub.mark < entry.1 := by
      rintro rfl
      exact Nat.lt_succ_of_le follows.behind
    have same : (w.step streamId (.call call)).sub = w.sub := rfl
    simp only [Watching.step, one, List.mem_filter, entriesOf, found, Option.map_some, Option.getD_some,
      decide_eq_true_eq, List.mem_append, List.mem_singleton]
    tauto

theorem Subscription.left_of_atTop {sub : Subscription} (top : sub.atTop = true) :
    sub.left = [] ∧ sub.mark = sub.watermark := by
  obtain ⟨watermark, phase, sent⟩ := sub
  cases phase with
  | replaying rest => cases rest <;> simp_all [Subscription.atTop, Subscription.left, Subscription.mark]
  | following rest => cases rest <;> simp_all [Subscription.atTop, Subscription.left, Subscription.mark]
  | finished => simp [Subscription.atTop] at top

theorem Subscription.write_all (sub : Subscription) :
    sub.write.sent ++ sub.write.left = sub.sent ++ sub.left ∧ sub.write.mark = sub.mark := by
  obtain ⟨watermark, phase, sent⟩ := sub
  cases phase with
  | replaying rest => cases rest <;> simp [Subscription.write, Subscription.left, Subscription.mark]
  | following rest =>
    cases rest with
    | nil => simp [Subscription.write, Subscription.left, Subscription.mark]
    | cons group rest =>
      cases rest <;> simp [Subscription.write, Subscription.left, Subscription.mark, List.getLast?_cons]
  | finished => simp [Subscription.write, Subscription.left]

/-- What was sent and what is left to send, together, and the mark do not change. -/
theorem Follows.goesOn (follows : Follows streamId w log) {sub : Subscription}
    (same : sub.sent ++ sub.left = w.sub.sent ++ w.sub.left ∧ sub.mark = w.sub.mark) :
    Follows streamId { w with sub := sub } log where
  found := follows.found
  bounded := follows.bounded
  ordered := by simpa only [same.1] using follows.ordered
  marked := by simpa only [same.1, same.2] using follows.marked
  behind := by simpa only [same.2] using follows.behind
  unread := by simpa only [same.2] using follows.unread

theorem Follows.write (follows : Follows streamId w log) : Follows streamId (w.step streamId .write) log :=
  follows.goesOn w.sub.write_all

theorem Subscription.finish_all (sub : Subscription) :
    sub.finish.sent ++ sub.finish.left = sub.sent ++ sub.left ∧ sub.finish.mark = sub.mark := by
  rw [Subscription.finish]
  split
  · rename_i top
    obtain ⟨left, mark⟩ := Subscription.left_of_atTop top
    rw [left, mark]
    exact ⟨rfl, rfl⟩
  · exact ⟨rfl, rfl⟩

theorem Follows.finish (follows : Follows streamId w log) : Follows streamId (w.step streamId .finish) log :=
  follows.goesOn w.sub.finish_all

theorem le_lastKey {entries : List (Nat × Group)} (sorted : entries.Pairwise fun first second => first.1 < second.1)
    (otherwise : Nat) {entry : Nat × Group} (member : entry ∈ entries) :
    entry.1 ≤ (entries.getLast?.map Prod.fst).getD otherwise := by
  obtain rfl | ⟨kept, last, rfl⟩ := List.eq_nil_or_concat' entries
  · exact absurd member List.not_mem_nil
  simp only [List.getLast?_concat, Option.map_some, Option.getD_some]
  rcases List.mem_append.mp member with earlier | here
  · exact ((List.pairwise_append.mp sorted).2.2 entry earlier last List.mem_cons_self).le
  · rw [List.mem_singleton.mp here]

theorem lastKey_bounds {entries : List (Nat × Group)} {low high : Nat} (above : ∀ entry ∈ entries, low < entry.1)
    (below : ∀ entry ∈ entries, entry.1 ≤ high) (order : low ≤ high) :
    low ≤ (entries.getLast?.map Prod.fst).getD low ∧ (entries.getLast?.map Prod.fst).getD low ≤ high := by
  cases last : entries.getLast? with
  | none => simpa using order
  | some entry =>
    have member := List.mem_of_getLast? last
    exact ⟨(above entry member).le, below entry member⟩

theorem Follows.read (follows : Follows streamId w log) : Follows streamId (w.step streamId .read) log := by
  by_cases top : w.sub.atTop = true
  · obtain ⟨left, mark⟩ := Subscription.left_of_atTop top
    have step : w.step streamId .read =
        { w with sub := w.sub.read log, unread := [], owed := w.owed ++ w.unread } := by
      simp only [Watching.step, follows.found, top, if_true]
    have sent : ∀ entry ∈ w.sub.sent, entry.1 ≤ w.sub.watermark := by
      have marked := follows.marked
      simpa only [left, mark, List.append_nil] using marked
    have sorted := log.entries.sorted.filter fun entry => decide (w.sub.watermark < entry.1)
    have above : ∀ entry ∈ (w.sub.read log).left, w.sub.watermark < entry.1 := by
      simp [Subscription.read, Subscription.left]
    have bounds : w.sub.watermark ≤ (w.sub.read log).mark ∧ (w.sub.read log).mark ≤ log.watermark := by
      refine lastKey_bounds above (fun entry member => ?_) (mark ▸ follows.behind)
      exact follows.bounded.below entry (List.mem_of_mem_filter member)
    rw [step]
    refine { follows with ordered := ?_, marked := ?_, behind := bounds.2, unread := fun entry => ?_ }
    · have ordered := follows.ordered
      rw [left, List.append_nil] at ordered
      exact List.pairwise_append.mpr ⟨ordered, sorted, fun first member second later =>
        Nat.lt_of_le_of_lt (sent first member) (above second later)⟩
    · intro entry member
      rcases List.mem_append.mp member with earlier | later
      · exact (sent entry earlier).trans bounds.1
      · exact le_lastKey sorted _ later
    · simp only [List.not_mem_nil, false_iff, not_and, Nat.not_lt]
      intro member
      by_cases later : w.sub.watermark < entry.1
      · exact le_lastKey sorted _ (List.mem_filter.mpr ⟨member, decide_eq_true later⟩)
      · exact (Nat.not_lt.mp later).trans bounds.1
  · have step : w.step streamId .read = w := by simp only [Watching.step, follows.found, top]; rfl
    rw [step]
    exact follows

theorem Follows.step (follows : Follows streamId w log) {move : Move} (stays : Stays streamId w move) :
    ∃ after, Follows streamId (w.step streamId move) after := by
  cases move with
  | call call => exact follows.call stays
  | read => exact ⟨log, follows.read⟩
  | write => exact ⟨log, follows.write⟩
  | finish => exact ⟨log, follows.finish⟩

theorem Kept.step (follows : Follows streamId w log) (kept : Kept w) (move : Move) : Kept (w.step streamId move) := by
  cases move with
  | call call => exact kept
  | write =>
    intro entry member
    simpa only [Watching.step, w.sub.write_all.1] using kept entry member
  | finish =>
    intro entry member
    simpa only [Watching.step, w.sub.finish_all.1] using kept entry member
  | read =>
    by_cases top : w.sub.atTop = true
    · obtain ⟨left, mark⟩ := Subscription.left_of_atTop top
      simp only [Kept, Watching.step, follows.found, top, if_true]
      intro entry member
      rcases List.mem_append.mp member with old | new
      · have sent := kept entry old
        rw [left, List.append_nil] at sent
        exact List.mem_append_left _ sent
      · obtain ⟨held, above⟩ := (follows.unread entry).mp new
        exact List.mem_append_right _ (List.mem_filter.mpr ⟨held, decide_eq_true (mark ▸ above)⟩)
    · have step : w.step streamId .read = w := by simp only [Watching.step, follows.found, top]; rfl
      rw [step]
      exact kept

theorem follows_watch {registry : LiveStreamRegistry} (found : registry.streams.find? streamId = some log)
    (bounded : log.Bounded) : Follows streamId (watch registry log) log := by
  have mark : (watch registry log).sub.mark = log.watermark := start_watermark bounded
  have replay := replayFrom_prefix 0 log.entries.entries
  refine { found := found, bounded := bounded, ordered := ?_, marked := ?_, behind := mark.le, unread := fun entry => ?_ }
  · exact log.entries.sorted.sublist replay.sublist
  · exact fun entry member => mark ▸ bounded.below entry (replay.subset member)
  · rw [mark]
    simp only [watch, List.not_mem_nil, false_iff, not_and, Nat.not_lt]
    exact bounded.below entry

theorem kept_watch (registry : LiveStreamRegistry) (bounded : log.Bounded) (fits : ¬ Oversized log) :
    Kept (watch registry log) := by
  rcases replay_of_bounded bounded with ⟨_, whole⟩ | ⟨large, _⟩
  · intro entry member
    have start : (watch registry log).sub.sent ++ (watch registry log).sub.left =
        replayFrom 0 log.entries.entries := rfl
    rw [start, whole]
    exact member
  · exact absurd large fits

end Following

section Runs

variable (streamId : String)

theorem Watching.step_read_registry (w : Watching) : (w.step streamId .read).registry = w.registry := by
  simp only [Watching.step]
  split
  · split <;> rfl
  · rfl

/-- The groups that a viewer has been sent are numbered upwards. -/
def Upwards (w : Watching) : Prop := w.sub.sent.Pairwise fun first second => first.1 < second.1

/-- Once everything that was read is written, everything that is owed was sent. -/
def Delivers (w : Watching) : Prop := w.sub.left = [] → ∀ entry ∈ w.owed, entry ∈ w.sub.sent

variable {streamId} {w : Watching} {log : LiveStreamLog} {moves : List Move}

theorem run_follows (histories : w.registry.Bounded) (follows : Follows streamId w log)
    (stays : Throughout (Watching.step streamId) (Stays streamId) w moves) :
    (run (Watching.step streamId) w moves).registry.Bounded ∧
      ∃ last, Follows streamId (run (Watching.step streamId) w moves) last := by
  refine (always_of_throughout (P := fun w => w.registry.Bounded ∧ ∃ log, Follows streamId w log) ?_
    ⟨histories, log, follows⟩ stays).last
  rintro w move ⟨histories, log, follows⟩ stays
  refine ⟨?_, follows.step stays⟩
  cases move with
  | call call => exact histories.step call
  | read => exact (w.step_read_registry streamId).symm ▸ histories
  | write => exact histories
  | finish => exact histories

theorem run_kept (follows : Follows streamId w log) (kept : Kept w)
    (stays : Throughout (Watching.step streamId) (Stays streamId) w moves) :
    Kept (run (Watching.step streamId) w moves) := by
  refine (always_of_throughout (P := fun w => (∃ log, Follows streamId w log) ∧ Kept w) ?_
    ⟨⟨log, follows⟩, kept⟩ stays).last.2
  rintro w move ⟨⟨log, follows⟩, kept⟩ stays
  exact ⟨follows.step stays, kept.step follows move⟩

variable (streamId)

/-- A viewer is sent every group that is owed exactly when the log is not a single group that no replay takes. The
histories stay bounded and the groups come in order in any case. -/
theorem subscription_exact (calls : List LiveStreamRegistry.Call) (now : Nat) (log : LiveStreamLog)
    (found : ((run LiveStreamRegistry.step .empty calls).get now streamId).2 = some log) :
    let start := watch ((run LiveStreamRegistry.step .empty calls).get now streamId).1 log
    (∀ moves, Throughout (Watching.step streamId) (Stays streamId) start moves →
      (run (Watching.step streamId) start moves).registry.Bounded ∧ Upwards (run (Watching.step streamId) start moves)) ∧
      ((∀ moves, Throughout (Watching.step streamId) (Stays streamId) start moves →
        Delivers (run (Watching.step streamId) start moves)) ↔ ¬ Oversized log) := by
  have histories := (LiveStreamRegistry.bounded_run calls).evictIdle now
  have bounded : log.Bounded := histories streamId log found
  have follows := follows_watch found bounded
  refine ⟨fun moves stays => ?_, fun delivers large => ?_, fun fits moves stays => ?_⟩
  · obtain ⟨histories, last, follows⟩ := run_follows histories follows stays
    exact ⟨histories, (List.pairwise_append.mp follows.ordered).1⟩
  · -- Before anything else happens, nothing was sent and nothing is left to send.
    have nothing : replayFrom 0 log.entries.entries = [] :=
      (replay_of_bounded bounded).elim (fun small => absurd large small.1) fun big => big.2
    obtain ⟨entry, only, _⟩ := large
    have sent := delivers [] trivial nothing entry (by simp [run, watch, only])
    exact absurd sent List.not_mem_nil
  · have kept := run_kept follows (kept_watch _ bounded fits) stays
    intro done entry member
    refine (List.mem_append.mp (kept entry member)).resolve_right fun later => ?_
    exact absurd (Eq.mp (congrArg (entry ∈ ·) done) later) List.not_mem_nil

theorem push_first {encoded : Group} (accepted : LiveStreamRegistry.refused streamId encoded = none) :
    LiveStreamRegistry.empty.push 0 streamId encoded =
      (⟨Table.empty.insertIgnore streamId ((LiveStreamLog.default 0).append 0 encoded)⟩, .ok 1) := by
  simp only [LiveStreamRegistry.push, accepted]
  rfl

theorem append_watermark (log : LiveStreamLog) (now : Nat) (encoded : Group) :
    (log.append now encoded).watermark = log.watermark + 1 := rfl

theorem first_entries (encoded : Group) :
    ((LiveStreamLog.default 0).append 0 encoded).entries.entries = [(1, encoded)] := by
  rw [LiveStreamLog.append_entries fun entry member => absurd member List.not_mem_nil]
  simp [LiveStreamLog.default, OrderedMap.empty, dropOldest, liveStreamHistory]

theorem get_first {encoded : Group} (accepted : LiveStreamRegistry.refused streamId encoded = none) :
    ((run LiveStreamRegistry.step .empty [.push 0 streamId encoded]).get 0 streamId).2 =
      some ((LiveStreamLog.default 0).append 0 encoded) := by
  simp only [run, List.foldl_cons, List.foldl_nil, LiveStreamRegistry.step, push_first streamId accepted,
    LiveStreamRegistry.get, LiveStreamRegistry.evictIdle]
  rw [Table.find?_eq_some]
  refine List.mem_filter.mpr ⟨Table.find?_eq_some.mp ?_, rfl⟩
  rw [Table.find?_insertIgnore, if_pos rfl, Table.find?_empty, Option.getD_none]

def seconds (n : Nat) : Nat := n * (1000 * 1000 * 1000)

def twoPushed : List LiveStreamRegistry.Call :=
  [.push (seconds 20) "live" [7, 7], .push (seconds 21) "live" [8, 9, 10]]

def twoGroups : LiveStreamLog :=
  ((LiveStreamLog.default (seconds 20)).append (seconds 20) [7, 7]).append (seconds 21) [8, 9, 10]

/-- Two groups are replayed, and two that are pushed meanwhile and later are read. -/
def smallMoves : List Move :=
  [.write, .call (.push (seconds 22) "live" [1]), .write, .read, .write, .call (.push (seconds 23) "other" [3]),
    .call (.push (seconds 24) "live" [2, 2]), .read, .write]

theorem small_groups_sent :
    let registry := run LiveStreamRegistry.step .empty twoPushed
    let last := run (Watching.step "live") (watch (registry.get (seconds 22) "live").1 twoGroups) smallMoves
    (registry.get (seconds 22) "live").2 = some twoGroups ∧
      last.sub.sent = [(1, [7, 7]), (2, [8, 9, 10]), (3, [1]), (4, [2, 2])] ∧ Delivers last := by
  intro registry last
  have found : (registry.get (seconds 22) "live").2 = some twoGroups := by rfl
  refine ⟨found, by decide, (subscription_exact "live" twoPushed _ twoGroups found).2.mpr ?_ smallMoves ?_⟩
  · rintro ⟨entry, only, large⟩
    have two : twoGroups.entries.entries.length = 2 := by decide
    rw [only] at two
    cases two
  · refine ⟨trivial, ?_, trivial, trivial, trivial, ?_, ?_, trivial, trivial, trivial⟩ <;> exact fun _ => by decide

section Large

variable {encoded : Group} (length : encoded.length = liveMaxReplayBytes + 1)

include length

theorem large_accepted : LiveStreamRegistry.refused "live" encoded = none := by
  have filled : encoded ≠ [] := List.ne_nil_of_length_pos (by omega)
  rw [LiveStreamRegistry.refused, if_neg (by decide), if_neg]
  rw [length]
  rintro (empty | long)
  · exact filled empty
  · exact absurd long (by decide)

theorem start_large : Subscription.start ((LiveStreamLog.default 0).append 0 encoded) = ⟨1, .replaying [], []⟩ := by
  have large : liveMaxReplayBytes < 0 + encoded.length := by omega
  have watermark : ((LiveStreamLog.default 0).append 0 encoded).watermark = 1 := append_watermark _ _ _
  simp only [Subscription.start, first_entries, replayFrom, if_pos large, List.getLast?_nil, Option.map_none,
    Option.getD_none, watermark]

end Large

variable {streamId} in
theorem nothing_sent {registry : LiveStreamRegistry} {encoded : Group}
    (start : Subscription.start log = ⟨1, .replaying [], []⟩) (held : registry.streams.find? streamId = some log)
    (entries : log.entries.entries = [(1, encoded)]) :
    let last := run (Watching.step streamId) (watch registry log) [.write, .read, .finish]
    last.sub.sent = [] ∧ last.sub.phase = .finished ∧ last.owed = [(1, encoded)] ∧ ¬ Delivers last := by
  simp [run, watch, start, Watching.step, Subscription.write, held, Subscription.atTop, Subscription.read, entries,
    Subscription.finish, Delivers, Subscription.left]

/-- A group of one byte more than eight megabytes is accepted; a viewer that comes after it never gets it. -/
theorem large_group_lost : ∃ encoded : Group, encoded.length = liveMaxReplayBytes + 1 ∧
    (LiveStreamRegistry.empty.push 0 "live" encoded).2 = .ok 1 ∧
      let start := watch ((run LiveStreamRegistry.step .empty [.push 0 "live" encoded]).get 0 "live").1
        ((LiveStreamLog.default 0).append 0 encoded)
      let last := run (Watching.step "live") start [.write, .read, .finish]
      last.sub.sent = [] ∧ last.sub.phase = .finished ∧ last.owed = [(1, encoded)] ∧ ¬ Delivers last := by
  obtain ⟨encoded, length⟩ : ∃ encoded : Group, encoded.length = liveMaxReplayBytes + 1 :=
    ⟨List.replicate _ 0, List.length_replicate⟩
  have accepted := large_accepted length
  refine ⟨encoded, length, by rw [push_first "live" accepted], ?_⟩
  exact nothing_sent (start_large length) (get_first "live" accepted) (first_entries encoded)

end Runs

end Soshal.Network.LiveStreams
