import Mathlib.Data.List.Nodup
import Soshal.Relay.RelayNode

/-! What a relay node does with every payload over a whole run.

The journal of a run says which digests were noted, which payloads were queued and
what was handed to which backend. The invariant ties the two seen-structures to it:
the Bloom filter was given every queued digest, and the exact set holds noted ones
only. From the first follows that nothing is queued twice, from the second that a
payload never noted is turned away by the filter alone.
-/

set_option autoImplicit false

namespace Soshal.Relay

open Library
open Library.LittleEndian (Bytes)
open Library.Runs (run Always Throughout)
open Library.Text (byteLen normKey normKey_normKey)

section Journal

variable {F Event : Type}

def Happening.queuedDigest : Happening Event → Option String
  | .queued digest _ => some digest
  | _ => none

def queuedDigests (journal : List (Happening Event)) : List String := journal.filterMap Happening.queuedDigest

/-- The digest of a payload that is passed on, and the backend it is handed to. -/
def Happening.passed : Happening Event → Option (String × Nat)
  | .sent (some _) target digest _ => some (digest, target)
  | _ => none

def passedOn (journal : List (Happening Event)) : List (String × Nat) := journal.filterMap Happening.passed

def Happening.waiting (events : List Event) : Happening Event → List Event
  | .queued _ event => events ++ [event]
  | .drained => []
  | _ => events

/-- The events queued since the application last drained the queue. -/
def pending (journal : List (Happening Event)) : List Event := journal.foldl Happening.waiting []

/-- What holds of everything a node has done. -/
structure Floods (outside : Outside Event) (relay : World F Event) : Prop where
  queue : relay.node.delivered = lastOf deliveredCapacity (pending relay.journal)
  queuedOnce : (queuedDigests relay.journal).Nodup
  passedOnce : (passedOn relay.journal).Nodup
  passedQueued : ∀ row ∈ passedOn relay.journal, row.1 ∈ queuedDigests relay.journal
  oneSource : ∀ source target digest bytes source' target' bytes',
    .sent (some source) target digest bytes ∈ relay.journal →
      .sent (some source') target' digest bytes' ∈ relay.journal → source = source' ∧ bytes = bytes'
  notBack : ∀ source target digest bytes, .sent (some source) target digest bytes ∈ relay.journal → target ≠ source
  hops : ∀ source target digest bytes, .sent source target digest bytes ∈ relay.journal →
    ∃ env, MeshEnvelope.fromBytes bytes = some env ∧ env.hopCount ≤ maxHopCount ∧
      outside.payloadDigest env.payload = digest

/-- The envelopes that parse, in the order in which a poll meets them. -/
def wellFormedInbound (backends : Nat) (recv : Nat → List Bytes) : List (Nat × MeshEnvelope) :=
  (RelayNode.inbound backends recv).filterMap fun pair => (MeshEnvelope.fromBytes pair.2).map fun env => (pair.1, env)

/-- A poll queues exactly once every verified payload never noted before it that is among the envelopes it takes
and that the filter does not report when its turn comes. -/
def QueuesFresh (bloom : BloomFilter F) (outside : Outside Event) (relay : World F Event) : Move → Prop
  | .poll recv running => ∀ before idx env after event,
      (wellFormedInbound relay.node.backends recv).take deliveredCapacity = before ++ (idx, env) :: after →
      outside.verifiedEventPayload env.payload = some event →
      .noted (outside.payloadDigest env.payload) ∉ relay.journal →
      (relay.node.relayJobs bloom outside running before).1.seenBloom.contains bloom
        (outside.payloadDigest env.payload) = false →
      (queuedDigests (step bloom outside relay (.poll recv running)).journal).count
        (outside.payloadDigest env.payload) = 1
  | _ => True

/-! ## What one happening adds to the journal -/

theorem queuedDigests_append (journal batch : List (Happening Event)) :
    queuedDigests (journal ++ batch) = queuedDigests journal ++ queuedDigests batch := List.filterMap_append

theorem passedOn_append (journal batch : List (Happening Event)) :
    passedOn (journal ++ batch) = passedOn journal ++ passedOn batch := List.filterMap_append

theorem pending_append (journal batch : List (Happening Event)) :
    pending (journal ++ batch) = batch.foldl Happening.waiting (pending journal) := List.foldl_append

def sends (source : Option Nat) (digest : String) (bytes : Bytes) (targets : List Nat) : List (Happening Event) :=
  targets.map fun idx => .sent source idx digest bytes

variable {source : Option Nat} {digest : String} {bytes : Bytes} {targets : List Nat}

@[simp] theorem queuedDigests_sends :
    queuedDigests (sends source digest bytes targets : List (Happening Event)) = [] := by
  induction targets with
  | nil => rfl
  | cons target rest ih => exact ih

@[simp] theorem passedOn_sends_none : passedOn (sends none digest bytes targets : List (Happening Event)) = [] := by
  induction targets with
  | nil => rfl
  | cons target rest ih => exact ih

@[simp] theorem passedOn_sends_some {from_ : Nat} :
    passedOn (sends (some from_) digest bytes targets : List (Happening Event)) = targets.map (digest, ·) := by
  induction targets with
  | nil => rfl
  | cons target rest ih => exact congrArg ((digest, target) :: ·) ih

@[simp] theorem waiting_sends (events : List Event) :
    (sends source digest bytes targets).foldl Happening.waiting events = events := by
  induction targets with
  | nil => rfl
  | cons target rest ih => exact ih

theorem mem_sends {source' : Option Nat} {target : Nat} {digest' : String} {bytes' : Bytes} :
    (.sent source' target digest' bytes' : Happening Event) ∈ sends source digest bytes targets ↔
      source' = source ∧ target ∈ targets ∧ digest' = digest ∧ bytes' = bytes := by
  simp only [sends, List.mem_map, Happening.sent.injEq]
  constructor
  · rintro ⟨idx, member, rfl, rfl, rfl, rfl⟩
    exact ⟨rfl, member, rfl, rfl⟩
  · rintro ⟨rfl, member, rfl, rfl⟩
    exact ⟨target, member, rfl, rfl, rfl, rfl⟩

theorem lastOf_lastOf {α : Type} {capacity : Nat} (queue : List α) (entry : α) :
    lastOf capacity (lastOf capacity queue ++ [entry]) = lastOf capacity (queue ++ [entry]) := by
  have cut : queue.length - capacity ≤ queue.length := Nat.sub_le ..
  have kept : lastOf capacity queue ++ [entry] = (queue ++ [entry]).drop (queue.length - capacity) := by
    rw [lastOf, List.drop_append_of_le_length cut]
  rw [kept]
  simp only [lastOf, List.drop_drop, List.length_drop, List.length_append, List.length_singleton]
  congr 1
  omega

end Journal

section Steps

variable {F Event : Type} {bloom : BloomFilter F} {outside : Outside Event} {relay : World F Event}

/-- The two seen-structures against the journal. -/
structure Remembers (bloom : BloomFilter F) (outside : Outside Event) (relay : World F Event) : Prop where
  given : ∃ items : List String, relay.node.seenBloom.filter = items.foldl bloom.insert bloom.empty ∧
    ∀ digest ∈ queuedDigests relay.journal, digest ∈ items
  remembered : ∀ digest ∈ relay.node.seen.order, .noted digest ∈ relay.journal
  floods : Floods outside relay

theorem Remembers.reported (remembers : Remembers bloom outside relay) {digest : String}
    (queued : digest ∈ queuedDigests relay.journal) : relay.node.seenBloom.contains bloom digest = true := by
  obtain ⟨items, filter, given⟩ := remembers.given
  unfold FastBloomSeenFilter.contains
  rw [filter]
  exact bloom.noFalseNegatives items digest (given digest queued)

theorem given_noteSeen {node : RelayNode F Event} {items : List String} (digest : String)
    (filter : node.seenBloom.filter = items.foldl bloom.insert bloom.empty) :
    ∃ more, (node.noteSeen bloom digest).seenBloom.filter = (items ++ more).foldl bloom.insert bloom.empty ∧
      (node.seenBloom.contains bloom digest = false → digest ∈ more) := by
  unfold RelayNode.noteSeen FastBloomSeenFilter.insert FastBloomSeenFilter.contains
  by_cases reported : bloom.contains node.seenBloom.filter digest = true
  · refine ⟨[], ?_, fun absent => ?_⟩
    · simpa [reported] using filter
    · rw [reported] at absent
      cases absent
  · refine ⟨[digest], ?_, fun _ => List.mem_singleton_self digest⟩
    rw [if_neg reported, List.foldl_append, ← filter]
    rfl

theorem mem_of_mem_insert_seen {seen : BoundedSet String} {digest other : String}
    (member : other ∈ (seen.insert digest).1.order) : other = digest ∨ other ∈ seen.order := by
  unfold BoundedSet.insert at member
  split at member
  · exact .inr member
  · cases List.mem_append.mp (List.mem_of_mem_drop member) with
    | inl older => exact .inr older
    | inr same => exact .inl (List.mem_singleton.mp same)

def Readable (outside : Outside Event) (digest : String) (bytes : Bytes) : Prop :=
  ∃ env, MeshEnvelope.fromBytes bytes = some env ∧ env.hopCount ≤ maxHopCount ∧
    outside.payloadDigest env.payload = digest

theorem mem_passedOn {from_ target : Nat} {digest : String} {bytes : Bytes} {journal : List (Happening Event)}
    (handed : .sent (some from_) target digest bytes ∈ journal) : (digest, target) ∈ passedOn journal :=
  List.mem_filterMap.mpr ⟨_, handed, rfl⟩

/-- A payload that was not queued yet is queued and passed on, to no backend twice and not to its source. -/
theorem Floods.receive (floods : Floods outside relay) {node : RelayNode F Event} {digest : String} {event : Event}
    {from_ : Nat} {bytes : Bytes} {targets : List Nat} (fresh : digest ∉ queuedDigests relay.journal)
    (delivered : node.delivered = lastOf deliveredCapacity (relay.node.delivered ++ [event])) (once : targets.Nodup)
    (away : from_ ∉ targets) (readable : targets ≠ [] → Readable outside digest bytes) :
    Floods outside
      ⟨node, relay.journal ++ .noted digest :: .queued digest event :: sends (some from_) digest bytes targets⟩ := by
  have queued : queuedDigests (relay.journal ++ .noted digest :: .queued digest event ::
      sends (some from_) digest bytes targets) = queuedDigests relay.journal ++ [digest] := by
    rw [queuedDigests_append]
    exact congrArg (queuedDigests relay.journal ++ digest :: ·) queuedDigests_sends
  have passed : passedOn (relay.journal ++ .noted digest :: .queued digest event ::
      sends (some from_) digest bytes targets) = passedOn relay.journal ++ targets.map (digest, ·) := by
    rw [passedOn_append]
    exact congrArg (passedOn relay.journal ++ ·) passedOn_sends_some
  have handed : ∀ source target digest' bytes', .sent source target digest' bytes' ∈ relay.journal ++ .noted digest ::
      .queued digest event :: sends (some from_) digest bytes targets →
        .sent source target digest' bytes' ∈ relay.journal ∨
        source = some from_ ∧ target ∈ targets ∧ digest' = digest ∧ bytes' = bytes := by
    intro source target digest' bytes' member
    simpa [mem_sends] using member
  have unpassed : ∀ from' target bytes', .sent (some from') target digest bytes' ∉ relay.journal := by
    intro from' target bytes' member
    exact fresh (floods.passedQueued _ (mem_passedOn member))
  constructor
  case queue =>
    dsimp only
    rw [delivered, floods.queue, pending_append, lastOf_lastOf]
    exact (congrArg (lastOf deliveredCapacity) (waiting_sends _)).symm
  case queuedOnce =>
    rw [queued]
    exact floods.queuedOnce.append (List.nodup_singleton digest) (by simpa using fresh)
  case passedOnce =>
    rw [passed]
    refine floods.passedOnce.append (once.map fun _ _ same => (Prod.mk.inj same).2) ?_
    intro row old new
    obtain ⟨target, -, rfl⟩ := List.mem_map.mp new
    exact fresh (floods.passedQueued _ old)
  case passedQueued =>
    intro row member
    rw [passed] at member
    rw [queued]
    cases List.mem_append.mp member with
    | inl old => exact List.mem_append_left _ (floods.passedQueued row old)
    | inr new =>
      obtain ⟨target, -, rfl⟩ := List.mem_map.mp new
      exact List.mem_append_right _ (List.mem_singleton_self digest)
  case oneSource =>
    -- The digest was passed on by nobody before, so both messages are old or both are of this call.
    intro source target digest' bytes₁ source' target' bytes₂ one other
    obtain old | ⟨same, -, rfl, rfl⟩ :=
      handed _ _ _ _ one <;> obtain old' | ⟨same', -, again, rfl⟩ := handed _ _ _ _ other
    · exact floods.oneSource _ _ _ _ _ _ _ old old'
    · rw [again] at old
      exact absurd old (unpassed _ _ _)
    · exact absurd old' (unpassed _ _ _)
    · exact ⟨Option.some.inj (same.trans same'.symm), rfl⟩
  case notBack =>
    intro source target digest' bytes' member
    obtain old | ⟨same, inside, -, -⟩ := handed _ _ _ _ member
    · exact floods.notBack _ _ _ _ old
    · cases same
      rintro rfl
      exact away inside
  case hops =>
    intro source target digest' bytes' member
    obtain old | ⟨-, inside, rfl, rfl⟩ := handed _ _ _ _ member
    · exact floods.hops _ _ _ _ old
    · exact readable (List.ne_nil_of_mem inside)

theorem Floods.quiet (floods : Floods outside relay) {node : RelayNode F Event} {batch : List (Happening Event)}
    (queue : node.delivered = lastOf deliveredCapacity (pending (relay.journal ++ batch)))
    (noneQueued : queuedDigests batch = []) (nonePassed : passedOn batch = [])
    (readable : ∀ source target digest bytes, .sent source target digest bytes ∈ batch →
      Readable outside digest bytes) : Floods outside ⟨node, relay.journal ++ batch⟩ := by
  have queued : queuedDigests (relay.journal ++ batch) = queuedDigests relay.journal := by
    rw [queuedDigests_append, noneQueued, List.append_nil]
  have passed : passedOn (relay.journal ++ batch) = passedOn relay.journal := by
    rw [passedOn_append, nonePassed, List.append_nil]
  have passing : ∀ from_ target digest bytes, .sent (some from_) target digest bytes ∈ relay.journal ++ batch →
      .sent (some from_) target digest bytes ∈ relay.journal := by
    intro from_ target digest bytes member
    refine (List.mem_append.mp member).resolve_right fun new => ?_
    have inside := mem_passedOn new
    rw [nonePassed] at inside
    cases inside
  constructor
  case queue => exact queue
  case queuedOnce => rw [queued]; exact floods.queuedOnce
  case passedOnce => rw [passed]; exact floods.passedOnce
  case passedQueued => rw [passed, queued]; exact floods.passedQueued
  case oneSource =>
    intro source target digest bytes source' target' bytes' one other
    exact floods.oneSource _ _ _ _ _ _ _ (passing _ _ _ _ one) (passing _ _ _ _ other)
  case notBack =>
    intro source target digest bytes member
    exact floods.notBack _ _ _ _ (passing _ _ _ _ member)
  case hops =>
    intro source target digest bytes member
    cases List.mem_append.mp member with
    | inl old => exact floods.hops _ _ _ _ old
    | inr new => exact readable _ _ _ _ new

/-! ## One envelope, one call -/

/-- What a node may do with an envelope: nothing, or take in a payload that neither structure reports. -/
theorem relayJob_cases (running : Nat → Nat → Bool) (node : RelayNode F Event) (idx : Nat) (env : MeshEnvelope) :
    node.relayJob bloom outside running (idx, env) = (node, 0, []) ∨
      ∃ event relayed, outside.verifiedEventPayload env.payload = some event ∧
        node.seenBloom.contains bloom (outside.payloadDigest env.payload) = false ∧
        (relayed = [] ∨ ∃ next, env.intoIncrementedHop = some next ∧
          relayed = (node.receive bloom outside env event).reBroadcast outside next idx (running (node.received + 1))) ∧
        node.relayJob bloom outside running (idx, env) = (node.receive bloom outside env event, 1,
          .noted (outside.payloadDigest env.payload) :: .queued (outside.payloadDigest env.payload) event :: relayed) := by
  unfold RelayNode.relayJob
  dsimp only
  cases verified : outside.verifiedEventPayload env.payload with
  | none => exact .inl rfl
  | some event =>
    dsimp only
    split
    · exact .inl rfl
    · rename_i unknown
      rw [Bool.or_eq_true, not_or, Bool.not_eq_true] at unknown
      right
      cases incremented : env.intoIncrementedHop with
      | none => exact ⟨event, [], rfl, unknown.1, .inl rfl, rfl⟩
      | some next => exact ⟨event, _, rfl, unknown.1, .inr ⟨next, rfl, rfl⟩, rfl⟩

theorem relayJob_takes {running : Nat → Nat → Bool} {node : RelayNode F Event} {idx : Nat} {env : MeshEnvelope}
    {event : Event} (verified : outside.verifiedEventPayload env.payload = some event)
    (unreported : node.seenBloom.contains bloom (outside.payloadDigest env.payload) = false)
    (unseen : outside.payloadDigest env.payload ∉ node.seen.order) :
    outside.payloadDigest env.payload ∈ queuedDigests (node.relayJob bloom outside running (idx, env)).2.2 := by
  have unknown : ¬ (node.seenBloom.contains bloom (outside.payloadDigest env.payload) ||
      node.seen.contains (outside.payloadDigest env.payload)) = true := by
    simp [unreported, BoundedSet.contains, unseen]
  unfold RelayNode.relayJob
  dsimp only
  rw [verified]
  dsimp only
  rw [if_neg unknown]
  exact List.mem_filterMap.mpr ⟨.queued _ event, by simp, rfl⟩

theorem reBroadcast_eq {node : RelayNode F Event} {env next : MeshEnvelope} {idx : Nat} {running : Nat → Bool}
    (formed : env.WellFormed) (incremented : env.intoIncrementedHop = some next) :
    ∃ bytes targets, node.reBroadcast outside next idx running =
        sends (some idx) (outside.payloadDigest env.payload) bytes targets ∧
      targets.Nodup ∧ idx ∉ targets ∧ (targets ≠ [] → Readable outside (outside.payloadDigest env.payload) bytes) := by
  have nextFormed := MeshEnvelope.wellFormed_intoIncrementedHop formed incremented
  have payload : next.payload = env.payload := by
    unfold MeshEnvelope.intoIncrementedHop at incremented
    split at incremented <;> cases incremented
    rfl
  unfold RelayNode.reBroadcast
  rw [payload]
  cases written : next.toBytes with
  | error e => exact ⟨[], [], rfl, List.nodup_nil, List.not_mem_nil, fun some => absurd rfl some⟩
  | ok bytes =>
    refine ⟨bytes, _, rfl, List.nodup_range.filter _, by simp, fun _ => ?_⟩
    exact ⟨next, MeshEnvelope.fromBytes_toBytes nextFormed written, nextFormed.hops, by rw [payload]⟩

theorem receive_delivered (node : RelayNode F Event) (env : MeshEnvelope) (event : Event) :
    (node.receive bloom outside env event).delivered = lastOf deliveredCapacity (node.delivered ++ [event]) := by
  simp only [RelayNode.receive, RelayNode.noteSeen]

theorem Remembers.relayJob (remembers : Remembers bloom outside relay) (running : Nat → Nat → Bool) (idx : Nat)
    {env : MeshEnvelope} (formed : env.WellFormed) :
    Remembers bloom outside ⟨(relay.node.relayJob bloom outside running (idx, env)).1,
      relay.journal ++ (relay.node.relayJob bloom outside running (idx, env)).2.2⟩ := by
  obtain same | ⟨event, relayed, -, unreported, passing, same⟩ := relayJob_cases running relay.node idx env
  · rw [same]
    dsimp only
    rw [List.append_nil]
    exact remembers
  · rw [same]
    dsimp only
    obtain ⟨bytes, targets, rfl, once, away, readable⟩ : ∃ bytes targets,
        relayed = sends (some idx) (outside.payloadDigest env.payload) bytes targets ∧ targets.Nodup ∧ idx ∉ targets ∧
          (targets ≠ [] → Readable outside (outside.payloadDigest env.payload) bytes) := by
      obtain rfl | ⟨next, incremented, rfl⟩ := passing
      · exact ⟨[], [], rfl, List.nodup_nil, List.not_mem_nil, fun some => absurd rfl some⟩
      · exact reBroadcast_eq formed incremented
    have fresh : outside.payloadDigest env.payload ∉ queuedDigests relay.journal := by
      intro queued
      rw [remembers.reported queued] at unreported
      cases unreported
    refine ⟨?_, ?_, remembers.floods.receive fresh (receive_delivered relay.node env event) once away readable⟩
    · obtain ⟨items, filter, given⟩ := remembers.given
      obtain ⟨more, noted, new⟩ := given_noteSeen (outside.payloadDigest env.payload) filter
      refine ⟨items ++ more, noted, fun digest queued => ?_⟩
      have cases : digest ∈ queuedDigests relay.journal ∨ digest = outside.payloadDigest env.payload := by
        rw [queuedDigests_append] at queued
        refine (List.mem_append.mp queued).imp_right fun last => ?_
        have single : queuedDigests (.noted (outside.payloadDigest env.payload) ::
            .queued (outside.payloadDigest env.payload) event :: sends (some idx) (outside.payloadDigest env.payload)
              bytes targets) = [outside.payloadDigest env.payload] := congrArg (_ :: ·) queuedDigests_sends
        rw [single] at last
        exact List.mem_singleton.mp last
      obtain old | rfl := cases
      · exact List.mem_append_left _ (given digest old)
      · exact List.mem_append_right _ (new unreported)
    · intro digest member
      obtain rfl | old := mem_of_mem_insert_seen member
      · simp
      · exact List.mem_append_left _ (remembers.remembered digest old)

theorem Remembers.relayJobs (remembers : Remembers bloom outside relay) (running : Nat → Nat → Bool)
    {jobs : List (Nat × MeshEnvelope)} (formed : ∀ job ∈ jobs, job.2.WellFormed) :
    Remembers bloom outside ⟨(relay.node.relayJobs bloom outside running jobs).1,
      relay.journal ++ (relay.node.relayJobs bloom outside running jobs).2.2⟩ := by
  induction jobs generalizing relay with
  | nil =>
    simp only [RelayNode.relayJobs, List.append_nil]
    exact remembers
  | cons job rest ih =>
    obtain ⟨idx, env⟩ := job
    have first := remembers.relayJob running idx (formed (idx, env) List.mem_cons_self)
    have later := ih first fun job member => formed job (List.mem_cons_of_mem (idx, env) member)
    rw [List.append_assoc] at later
    exact later

theorem publish_readable {eventId author : String} {kind : UInt16} {createdAt : UInt64} {payload : Bytes}
    (capped : ¬ payload.length > maxPayloadBytes)
    (named : ¬ ((normKey eventId).isEmpty = true ∨ (normKey author).isEmpty = true))
    (short : ¬ (byteLen (normKey eventId) > 128 ∨ byteLen (normKey author) > 128)) :
    Readable outside (outside.payloadDigest payload)
      ((MeshEnvelope.new (normKey eventId) kind (normKey author) createdAt payload).toBytes.toOption.getD []) := by
  rw [← normKey_normKey eventId, ← normKey_normKey author] at named short
  exact ⟨_, MeshEnvelope.fromBytes_new capped named short, UInt8.le_iff_toNat_le.mpr (Nat.zero_le _), rfl⟩

variable (bloom outside) in
theorem publish_cases (node : RelayNode F Event) (eventId : String) (kind : UInt16) (author : String)
    (createdAt : UInt64) (payload : Bytes) (handed : Nat → Option Nat) :
    (∃ e, node.publish bloom outside eventId kind author createdAt payload handed = (node, .error e, [])) ∨
      ∃ digest recent total bytes targets, Readable outside digest bytes ∧
        node.publish bloom outside eventId kind author createdAt payload handed =
          ({ node.noteSeen bloom digest with recent := recent, published := node.published + 1 }, .ok total,
            .noted digest :: sends none digest bytes targets) := by
  unfold RelayNode.publish
  dsimp only
  split
  · exact .inl ⟨_, rfl⟩
  split
  · exact .inl ⟨_, rfl⟩
  rename_i capped
  split
  · exact .inl ⟨_, rfl⟩
  rename_i named
  split
  · exact .inl ⟨_, rfl⟩
  rename_i short
  exact .inr ⟨_, _, _, _, _, publish_readable capped named short, rfl⟩

theorem Remembers.publish (remembers : Remembers bloom outside relay) (eventId : String) (kind : UInt16)
    (author : String) (createdAt : UInt64) (payload : Bytes) (handed : Nat → Option Nat) :
    Remembers bloom outside (step bloom outside relay (.publish eventId kind author createdAt payload handed)) := by
  simp only [step]
  obtain ⟨e, same⟩ | ⟨digest, recent, total, bytes, targets, readable, same⟩ :=
      publish_cases bloom outside relay.node eventId kind author createdAt payload handed
  · rw [same]
    dsimp only
    rw [List.append_nil]
    exact remembers
  · rw [same]
    have noneQueued : queuedDigests (.noted digest :: sends none digest bytes targets : List (Happening Event)) = [] :=
      queuedDigests_sends
    refine ⟨?_, ?_, remembers.floods.quiet ?_ noneQueued passedOn_sends_none ?_⟩
    · obtain ⟨items, filter, given⟩ := remembers.given
      obtain ⟨more, noted, -⟩ := given_noteSeen digest filter
      refine ⟨items ++ more, noted, fun other queued => ?_⟩
      rw [queuedDigests_append, noneQueued, List.append_nil] at queued
      exact List.mem_append_left _ (given other queued)
    · intro other member
      obtain rfl | old := mem_of_mem_insert_seen member
      · simp
      · exact List.mem_append_left _ (remembers.remembered other old)
    · rw [pending_append]
      exact remembers.floods.queue.trans (congrArg (lastOf deliveredCapacity) (waiting_sends _).symm)
    · intro source target digest' bytes' member
      obtain ⟨-, -, rfl, rfl⟩ : source = none ∧ target ∈ targets ∧ digest' = digest ∧ bytes' = bytes := by
        simpa [mem_sends] using member
      exact readable

theorem collectJobs_eq (pairs : List (Nat × Bytes)) {jobs : List (Nat × MeshEnvelope)}
    (within : jobs.length ≤ deliveredCapacity) :
    RelayNode.collectJobs pairs jobs = jobs ++ (pairs.filterMap fun pair =>
      (MeshEnvelope.fromBytes pair.2).map fun env => (pair.1, env)).take (deliveredCapacity - jobs.length) := by
  induction pairs generalizing jobs with
  | nil => simp [RelayNode.collectJobs]
  | cons pair rest ih =>
    obtain ⟨idx, payload⟩ := pair
    simp only [RelayNode.collectJobs]
    split
    · rename_i full
      rw [Nat.sub_eq_zero_of_le full, List.take_zero, List.append_nil]
    · rename_i room
      cases read : MeshEnvelope.fromBytes payload with
      | none => simpa [read] using ih within
      | some env =>
        have one : deliveredCapacity - jobs.length = deliveredCapacity - (jobs ++ [(idx, env)]).length + 1 := by
          rw [List.length_append, List.length_singleton]
          omega
        dsimp only
        rw [ih (by rw [List.length_append, List.length_singleton]; omega), one]
        simp [read]

theorem jobs_eq (node : RelayNode F Event) (recv : Nat → List Bytes) :
    node.jobs recv = (wellFormedInbound node.backends recv).take deliveredCapacity :=
  collectJobs_eq _ (Nat.zero_le _)

theorem wellFormed_jobs (node : RelayNode F Event) (recv : Nat → List Bytes) {job : Nat × MeshEnvelope}
    (member : job ∈ node.jobs recv) : job.2.WellFormed := by
  rw [jobs_eq] at member
  obtain ⟨pair, -, read⟩ := List.mem_filterMap.mp (List.mem_of_mem_take member)
  obtain ⟨env, parsed, rfl⟩ := Option.map_eq_some_iff.mp read
  exact MeshEnvelope.wellFormed_fromBytes parsed

theorem Remembers.drain (remembers : Remembers bloom outside relay) :
    Remembers bloom outside (step bloom outside relay .drain) := by
  refine ⟨?_, ?_, remembers.floods.quiet ?_ rfl rfl ?_⟩
  · obtain ⟨items, filter, given⟩ := remembers.given
    refine ⟨items, filter, fun digest queued => given digest ?_⟩
    simpa [step, queuedDigests, Happening.queuedDigest] using queued
  · intro digest member
    exact List.mem_append_left _ (remembers.remembered digest member)
  · rw [pending_append]
    exact List.drop_nil.symm
  · intro source target digest bytes member
    simp at member

theorem Remembers.step (remembers : Remembers bloom outside relay) (move : Move) :
    Remembers bloom outside (step bloom outside relay move) := by
  cases move with
  | addBackend => exact ⟨remembers.given, remembers.remembered, { remembers.floods with }⟩
  | start started => exact ⟨remembers.given, remembers.remembered, { remembers.floods with }⟩
  | stop => exact ⟨remembers.given, remembers.remembered, { remembers.floods with }⟩
  | publish eventId kind author createdAt payload handed => exact remembers.publish ..
  | poll recv running => exact remembers.relayJobs running fun _ member => wellFormed_jobs relay.node recv member
  | drain => exact remembers.drain

theorem remembers_initial : Remembers bloom outside (initial bloom) where
  given := ⟨[], rfl, fun _ member => nomatch member⟩
  remembered := fun _ member => nomatch member
  floods :=
    { queue := List.drop_nil.symm
      queuedOnce := List.nodup_nil
      passedOnce := List.nodup_nil
      passedQueued := fun _ member => nomatch member
      oneSource := fun _ _ _ _ _ _ _ member => nomatch member
      notBack := fun _ _ _ _ member => nomatch member
      hops := fun _ _ _ _ member => nomatch member }

/-! ## Fresh payloads -/

theorem relayJobs_append (running : Nat → Nat → Bool) (node : RelayNode F Event)
    (before after : List (Nat × MeshEnvelope)) :
    (node.relayJobs bloom outside running (before ++ after)).2.2 =
      (node.relayJobs bloom outside running before).2.2 ++
        ((node.relayJobs bloom outside running before).1.relayJobs bloom outside running after).2.2 := by
  induction before generalizing node with
  | nil => rfl
  | cons job rest ih =>
    simp only [List.cons_append, RelayNode.relayJobs, List.append_assoc]
    rw [ih]

theorem relayJobs_singleton (running : Nat → Nat → Bool) (node : RelayNode F Event) (job : Nat × MeshEnvelope) :
    node.relayJobs bloom outside running [job] = node.relayJob bloom outside running job := by
  simp only [RelayNode.relayJobs, Nat.add_zero, List.append_nil]

theorem queued_of_noted {running : Nat → Nat → Bool} {node : RelayNode F Event} {jobs : List (Nat × MeshEnvelope)}
    {digest : String} (noted : .noted digest ∈ (node.relayJobs bloom outside running jobs).2.2) :
    digest ∈ queuedDigests (node.relayJobs bloom outside running jobs).2.2 := by
  induction jobs generalizing node with
  | nil => cases noted
  | cons job rest ih =>
    obtain ⟨idx, env⟩ := job
    simp only [RelayNode.relayJobs, queuedDigests_append, List.mem_append] at noted ⊢
    cases noted with
    | inr later => exact .inr (ih later)
    | inl first =>
      left
      obtain same | ⟨event, relayed, -, -, passing, same⟩ := relayJob_cases running node idx env
      · rw [same] at first
        cases first
      · rw [same] at first ⊢
        have unnoted : .noted digest ∉ relayed := by
          obtain rfl | ⟨next, -, rfl⟩ := passing
          · exact List.not_mem_nil
          · unfold RelayNode.reBroadcast
            split <;> simp
        have this : digest = outside.payloadDigest env.payload := by simpa [unnoted] using first
        rw [this]
        exact List.mem_filterMap.mpr ⟨.queued _ event, by simp, rfl⟩

theorem queuesFresh (remembers : Remembers bloom outside relay) (move : Move) :
    QueuesFresh bloom outside relay move := by
  cases move with
  | poll recv running =>
    intro before idx env after event taken verified unnoted unreported
    have queued : outside.payloadDigest env.payload ∈
        queuedDigests (relay.node.poll bloom outside recv running).2.2 := by
      unfold RelayNode.poll
      rw [jobs_eq, taken, relayJobs_append, queuedDigests_append, List.mem_append]
      by_cases already : .noted (outside.payloadDigest env.payload) ∈
          (relay.node.relayJobs bloom outside running before).2.2
      · exact .inl (queued_of_noted already)
      · right
        have formed : ∀ job ∈ before, job.2.WellFormed := by
          intro job member
          refine wellFormed_jobs relay.node recv ?_
          rw [jobs_eq, taken]
          exact List.mem_append_left _ member
        have unseen : outside.payloadDigest env.payload ∉
            (relay.node.relayJobs bloom outside running before).1.seen.order := by
          intro member
          cases List.mem_append.mp ((remembers.relayJobs running formed).remembered _ member) with
          | inl old => exact unnoted old
          | inr new => exact already new
        simp only [RelayNode.relayJobs, queuedDigests_append]
        exact List.mem_append_left _ (relayJob_takes verified unreported unseen)
    have once : (queuedDigests (step bloom outside relay (.poll recv running)).journal).Nodup :=
      (remembers.step (.poll recv running)).floods.queuedOnce
    refine List.count_eq_one_of_mem once ?_
    simp only [step, queuedDigests_append]
    exact List.mem_append_right _ queued
  | addBackend => trivial
  | start started => trivial
  | stop => trivial
  | publish eventId kind author createdAt payload handed => trivial
  | drain => trivial

end Steps

/-! ## Fresh payloads that are lost -/

section Losses

open Library.Text (utf8)

def firstNote : String :=
  "\x7b\"id\":\"62b24b87acc4370dc44caa60fd2dc5a9a1ae02d8f6ba490759625a39bee160ac\",\"pubkey\":\"f9308a019258c31049344f85f89d5229b531c845836f99b08601f113bce036f9\",\"created_at\":1700000000,\"kind\":1,\"tags\":[],\"content\":\"first\",\"sig\":\"1ff6e6d42939e65a2b84f792b84e7198da946ca3d1b038938785dbe65d7b18729a10ed747c4ac3c3eb814d4c20937e985f95c34d6c69df52e723e0ade5791abd\"\x7d"

def secondNote : String :=
  "\x7b\"id\":\"60252315d882ee9a987fa56d9f4b01f7b7c123c813229f0a8fff06d4cb77ada5\",\"pubkey\":\"f9308a019258c31049344f85f89d5229b531c845836f99b08601f113bce036f9\",\"created_at\":1700000000,\"kind\":1,\"tags\":[],\"content\":\"second\",\"sig\":\"fc06e5249363238dd88c27a20f435d614cb1e7091ce0d488ad8242624664d4b3d20437981461d7c5b00448a67a6dc69a65e8d48497c00d8f9f683f2a0c736cdd\"\x7d"

/-- SHA-256 and the signature check, as they are on the two notes. -/
def notesOutside : Outside String where
  payloadDigest payload :=
    if payload = utf8 firstNote then "bde70180048dc6573dffa7eb146067eaaa68a9a1592c9d6e7fa933f820f85f09"
    else "e5baa6c5802b1516f0572d7a059cabcfc0b49beb707f19434368cd91880a240c"
  verifiedEventPayload payload :=
    if payload = utf8 firstNote then some firstNote
    else if payload = utf8 secondNote then some secondNote
    else none

theorem reports_of_steps {F : Type} {empty : F} (insert : F → String → F) (contains : F → String → Bool)
    (self : ∀ f digest, contains (insert f digest) digest = true)
    (keeps : ∀ f digest other, contains f digest = true → contains (insert f other) digest = true)
    (items : List String) (digest : String) (member : digest ∈ items) :
    contains (items.foldl insert empty) digest = true := by
  have kept : ∀ (later : List String) (f : F), contains f digest = true →
    contains (later.foldl insert f) digest = true := by
    intro later
    induction later with
    | nil => exact fun _ reported => reported
    | cons other rest ih => exact fun f reported => ih _ (keeps f digest other reported)
  obtain ⟨before, after, rfl⟩ := List.append_of_mem member
  rw [List.foldl_append]
  exact kept after _ (self _ digest)

def exactFilter : BloomFilter (List String) where
  empty := []
  insert items digest := digest :: items
  contains items digest := decide (digest ∈ items)
  noFalseNegatives := reports_of_steps _ (fun items digest => decide (digest ∈ items)) (by simp) (by simp +contextual)

def oneBit : BloomFilter Bool where
  empty := false
  insert _ _ := true
  contains bit _ := bit
  noFalseNegatives := reports_of_steps _ (fun bit _ => bit) (fun _ _ => rfl) (fun _ _ _ _ => rfl)

theorem contains_oneBit (f : FastBloomSeenFilter Bool) (digest : String) : f.contains oneBit digest = f.filter := rfl

/-- An envelope is not held to the id and the author of its payload; these give the first digits. -/
def firstEnvelope : MeshEnvelope :=
  .new "62b2" 1 "f930" 1700000000 (utf8 firstNote)

def secondEnvelope : MeshEnvelope :=
  .new "6025" 1 "f930" 1700000000 (utf8 secondNote)

def firstBytes : Bytes := firstEnvelope.toBytes.toOption.getD []
def secondBytes : Bytes := secondEnvelope.toBytes.toOption.getD []

theorem byteLen_firstNote : byteLen firstNote = 347 := by decide +kernel
theorem byteLen_secondNote : byteLen secondNote = 348 := by decide +kernel

theorem fromBytes_firstBytes : MeshEnvelope.fromBytes firstBytes = some firstEnvelope := by
  refine MeshEnvelope.fromBytes_new ?_ ?_ ?_
  · rw [Library.Text.length_utf8, byteLen_firstNote]
    decide
  · decide
  · decide

theorem fromBytes_secondBytes : MeshEnvelope.fromBytes secondBytes = some secondEnvelope := by
  refine MeshEnvelope.fromBytes_new ?_ ?_ ?_
  · rw [Library.Text.length_utf8, byteLen_secondNote]
    decide
  · decide
  · decide +kernel

/-- Every verified payload never noted before is queued exactly once, whatever else the poll meets. -/
def QueuesEveryFresh {F Event : Type} (bloom : BloomFilter F) (outside : Outside Event) (relay : World F Event)
    (recv : Nat → List Bytes) (running : Nat → Nat → Bool) : Prop :=
  ∀ idx env event, (idx, env) ∈ wellFormedInbound relay.node.backends recv →
    outside.verifiedEventPayload env.payload = some event →
    .noted (outside.payloadDigest env.payload) ∉ relay.journal →
    (queuedDigests (step bloom outside relay (.poll recv running)).journal).count
      (outside.payloadDigest env.payload) = 1

/-- As many copies of the first note as a poll takes, and then the second note. -/
def crowded (_ : Nat) : List Bytes := List.replicate deliveredCapacity firstBytes ++ [secondBytes]

def bothNotes (_ : Nat) : List Bytes := [firstBytes, secondBytes]

def oneBackend {F : Type} (bloom : BloomFilter F) : World F String := step bloom notesOutside (initial bloom) .addBackend

theorem job_of_queued {F Event : Type} {bloom : BloomFilter F} {outside : Outside Event} {running : Nat → Nat → Bool}
    {node : RelayNode F Event} {jobs : List (Nat × MeshEnvelope)} {digest : String}
    (queued : digest ∈ queuedDigests (node.relayJobs bloom outside running jobs).2.2) :
    ∃ job ∈ jobs, outside.payloadDigest job.2.payload = digest := by
  induction jobs generalizing node with
  | nil => cases queued
  | cons job rest ih =>
    obtain ⟨idx, env⟩ := job
    simp only [RelayNode.relayJobs, queuedDigests_append, List.mem_append] at queued
    cases queued with
    | inr later =>
      obtain ⟨job, member, same⟩ := ih later
      exact ⟨job, List.mem_cons_of_mem _ member, same⟩
    | inl first =>
      refine ⟨(idx, env), List.mem_cons_self, ?_⟩
      obtain same | ⟨event, relayed, -, -, passing, same⟩ := relayJob_cases running node idx env
      · rw [same] at first
        cases first
      · rw [same] at first
        have unqueued : queuedDigests relayed = [] := by
          obtain rfl | ⟨next, -, rfl⟩ := passing
          · rfl
          · unfold RelayNode.reBroadcast
            split
            · rfl
            · exact queuedDigests_sends
        have single : queuedDigests (.noted (outside.payloadDigest env.payload) ::
            .queued (outside.payloadDigest env.payload) event :: relayed) = [outside.payloadDigest env.payload] :=
          congrArg (_ :: ·) unqueued
        rw [single] at first
        exact (List.mem_singleton.mp first).symm

theorem firstPayload : notesOutside.verifiedEventPayload firstEnvelope.payload = some firstNote := by
  simp only [notesOutside, firstEnvelope, MeshEnvelope.new, if_true]

theorem secondPayload : notesOutside.verifiedEventPayload secondEnvelope.payload = some secondNote ∧
    notesOutside.payloadDigest secondEnvelope.payload ≠ notesOutside.payloadDigest firstEnvelope.payload := by
  have different : utf8 secondNote ≠ utf8 firstNote := by
    intro same
    have lengths := congrArg List.length same
    rw [Library.Text.length_utf8, Library.Text.length_utf8, byteLen_firstNote, byteLen_secondNote] at lengths
    cases lengths
  simp only [notesOutside, firstEnvelope, secondEnvelope, MeshEnvelope.new, if_neg different, if_true, true_and]
  simp

theorem wellFormedInbound_one (recv : Nat → List Bytes) : wellFormedInbound 1 recv =
    (recv 0).filterMap fun bytes => (MeshEnvelope.fromBytes bytes).map fun env => (0, env) := by
  simp [wellFormedInbound, RelayNode.inbound, List.filterMap_map]

theorem wellFormedInbound_crowded :
    wellFormedInbound 1 crowded = List.replicate deliveredCapacity (0, firstEnvelope) ++ [(0, secondEnvelope)] := by
  rw [wellFormedInbound_one, crowded, List.filterMap_append,
    List.filterMap_replicate_of_some (by rw [fromBytes_firstBytes]; rfl)]
  simp [fromBytes_secondBytes]

theorem wellFormedInbound_bothNotes : wellFormedInbound 1 bothNotes = [(0, firstEnvelope), (0, secondEnvelope)] := by
  rw [wellFormedInbound_one]
  simp [bothNotes, fromBytes_firstBytes, fromBytes_secondBytes]

theorem queuedDigests_poll {F : Type} {bloom : BloomFilter F} (recv : Nat → List Bytes) (running : Nat → Nat → Bool) :
    queuedDigests (step bloom notesOutside (oneBackend bloom) (.poll recv running)).journal =
      queuedDigests ((oneBackend bloom).node.relayJobs bloom notesOutside running
        ((oneBackend bloom).node.jobs recv)).2.2 := rfl

theorem crowded_lost (running : Nat → Nat → Bool) :
    ¬ QueuesEveryFresh exactFilter notesOutside (oneBackend exactFilter) crowded running := by
  intro every
  have inbound : (0, secondEnvelope) ∈ wellFormedInbound (oneBackend exactFilter).node.backends crowded := by
    change _ ∈ wellFormedInbound 1 crowded
    rw [wellFormedInbound_crowded]
    exact List.mem_append_right _ (List.mem_singleton_self _)
  have once := every 0 secondEnvelope secondNote inbound secondPayload.1 List.not_mem_nil
  have queued := List.count_pos_iff.mp (by rw [once]; exact Nat.one_pos)
  have taken : (oneBackend exactFilter).node.jobs crowded = List.replicate deliveredCapacity (0, firstEnvelope) := by
    rw [jobs_eq]
    change (wellFormedInbound 1 crowded).take deliveredCapacity = _
    rw [wellFormedInbound_crowded]
    exact List.take_left' List.length_replicate
  rw [queuedDigests_poll, taken] at queued
  obtain ⟨job, member, same⟩ := job_of_queued queued
  rw [List.eq_of_mem_replicate member] at same
  exact secondPayload.2 same.symm

theorem bit_set {Event : Type} {outside : Outside Event} {relay : World Bool Event}
    (remembers : Remembers oneBit outside relay) (running : Nat → Nat → Bool) (idx : Nat) {env : MeshEnvelope}
    {event : Event} (formed : env.WellFormed) (verified : outside.verifiedEventPayload env.payload = some event)
    (clear : relay.node.seenBloom.filter = false) (unseen : outside.payloadDigest env.payload ∉ relay.node.seen.order) :
    (relay.node.relayJob oneBit outside running (idx, env)).1.seenBloom.filter = true := by
  have after := remembers.relayJob running idx formed
  have queued : outside.payloadDigest env.payload ∈ queuedDigests (relay.journal ++
      (relay.node.relayJob oneBit outside running (idx, env)).2.2) := by
    rw [queuedDigests_append]
    exact List.mem_append_right _ (relayJob_takes verified clear unseen)
  exact after.reported queued

theorem relayJob_bit {Event : Type} {outside : Outside Event} {running : Nat → Nat → Bool} {node : RelayNode Bool Event}
    {idx : Nat} {env : MeshEnvelope} (bit : node.seenBloom.filter = true) :
    node.relayJob oneBit outside running (idx, env) = (node, 0, []) := by
  obtain same | ⟨event, relayed, -, unreported, -⟩ := relayJob_cases running node idx env
  · exact same
  · rw [contains_oneBit, bit] at unreported
    cases unreported

theorem misreported_lost (running : Nat → Nat → Bool) :
    ¬ QueuesEveryFresh oneBit notesOutside (oneBackend oneBit) bothNotes running := by
  intro every
  have inbound : (0, secondEnvelope) ∈ wellFormedInbound (oneBackend oneBit).node.backends bothNotes := by
    change _ ∈ wellFormedInbound 1 bothNotes
    rw [wellFormedInbound_bothNotes]
    simp
  have once := every 0 secondEnvelope secondNote inbound secondPayload.1 List.not_mem_nil
  have queued := List.count_pos_iff.mp (by rw [once]; exact Nat.one_pos)
  have taken : (oneBackend oneBit).node.jobs bothNotes = [(0, firstEnvelope)] ++ [(0, secondEnvelope)] := by
    rw [jobs_eq]
    change (wellFormedInbound 1 bothNotes).take deliveredCapacity = _
    rw [wellFormedInbound_bothNotes]
    exact List.take_of_length_le (by decide)
  rw [queuedDigests_poll, taken, relayJobs_append, queuedDigests_append] at queued
  cases List.mem_append.mp queued with
  | inl first =>
    obtain ⟨job, member, same⟩ := job_of_queued first
    rw [List.mem_singleton.mp member] at same
    exact secondPayload.2 same.symm
  | inr second =>
    -- the first note set the bit, and the bit reports the second one too
    have remembers : Remembers oneBit notesOutside (oneBackend oneBit) := remembers_initial.step .addBackend
    have formed := MeshEnvelope.wellFormed_fromBytes fromBytes_firstBytes
    have bit := bit_set remembers running 0 formed firstPayload rfl List.not_mem_nil
    rw [relayJobs_singleton, relayJobs_singleton, relayJob_bit bit] at second
    cases second

end Losses
end Soshal.Relay
