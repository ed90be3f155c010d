import Soshal.Sync.ProllySync

/-! The missing keys a session gathers from its peer.

A branch is compared with the keys found missing before it, as they stood when it
arrived. What it brings is then absent locally, sized and capped in every run; that
no key is gathered twice rests on the branches, each of which may name a new key twice.
-/

set_option autoImplicit false

namespace Soshal.Sync.Prolly

open Library

namespace ProllySyncSession

variable (s : ProllySyncSession) (msg : ProllySyncMessage)

/-- The session after a message; the answer goes to the peer. -/
def receive : ProllySyncSession := (s.handleMessage msg).1

def Fresh (key : String) : Prop :=
  Sized key ∧ key ∉ s.localKeySet ∧ key ∉ s.missingKeys

instance (s : ProllySyncSession) (key : String) : Decidable (s.Fresh key) := inferInstanceAs (Decidable (_ ∧ _ ∧ _))

/-- The branch is neither too long by itself nor too much for the session. -/
def HasRoomFor (keys : List String) : Prop :=
  keys.length ≤ maxKeysPerBranch ∧ s.missingKeys.length + keys.countP (s.Fresh ·) ≤ maxMissingKeysTotal

instance (s : ProllySyncSession) (keys : List String) : Decidable (s.HasRoomFor keys) :=
  inferInstanceAs (Decidable (_ ∧ _))

/-- A branch that the session has room for names no fresh key twice. -/
def NamesOnce : ProllySyncMessage → Prop
  | .responseBranch _ keys _ => s.HasRoomFor keys → ∀ key ∈ keys, s.Fresh key → keys.count key = 1
  | _ => True

instance (s : ProllySyncSession) : (msg : ProllySyncMessage) → Decidable (s.NamesOnce msg)
  | .responseBranch _ keys _ =>
    inferInstanceAs (Decidable (s.HasRoomFor keys → ∀ key ∈ keys, s.Fresh key → keys.count key = 1))
  | .rootExchange _ | .matched | .requestBranch _ _ | .requestDeltas _ | .responseDeltas _ | .responsePatch _ _ _ _ =>
    .isTrue trivial

/-- What holds of the missing keys whatever the peer sends. -/
structure Lacking (s : ProllySyncSession) : Prop where
  absent : ∀ key ∈ s.missingKeys, key ∉ s.localKeySet
  capped : s.missingKeys.length ≤ maxMissingKeysTotal
  sized : ∀ key ∈ s.missingKeys, Sized key

/-- The missing keys are a set of keys to ask for. -/
structure Tracked (s : ProllySyncSession) : Prop extends Lacking s where
  distinct : s.missingKeys.Nodup

theorem missingOf_eq (keys : List String) : s.missingOf keys = keys.filter (s.Fresh ·) := by
  rw [missingOf, List.filter_filter]
  apply List.filter_congr
  intro key _
  simp only [Fresh, Sized]
  grind

theorem mem_missingOf {s : ProllySyncSession} {keys : List String} {key : String} :
    key ∈ s.missingOf keys ↔ key ∈ keys ∧ s.Fresh key := by simp [missingOf_eq]

theorem length_missingOf (keys : List String) :
    (s.missingOf keys).length = keys.countP (s.Fresh ·) := by rw [missingOf_eq, List.countP_eq_length_filter]

theorem nodup_missingOf_iff {s : ProllySyncSession} {keys : List String} :
    (s.missingOf keys).Nodup ↔ ∀ key ∈ keys, s.Fresh key → keys.count key = 1 := by
  have counted : ∀ key, s.Fresh key → (s.missingOf keys).count key = keys.count key := by
    intro key fresh
    rw [missingOf_eq, List.count_filter (by simpa using fresh)]
  rw [List.nodup_iff_count_eq_one]
  constructor
  · intro once key member fresh
    rw [← counted key fresh]
    exact once key (mem_missingOf.mpr ⟨member, fresh⟩)
  · intro once key member
    obtain ⟨inside, fresh⟩ := mem_missingOf.mp member
    rw [counted key fresh]
    exact once key inside fresh

theorem receive_cases : (s.receive msg).localTree = s.localTree ∧
      ((s.receive msg).missingKeys = s.missingKeys ∧ s.NamesOnce msg ∨
        ∃ nodeHash keys children, msg = .responseBranch nodeHash keys children ∧ s.HasRoomFor keys ∧
          (s.receive msg).missingKeys = s.missingKeys ++ s.missingOf keys) := by
  cases msg with
  | rootExchange rootHash =>
    simp only [receive, handleMessage]
    split <;> exact ⟨rfl, .inl ⟨rfl, trivial⟩⟩
  | responseBranch nodeHash keys children =>
    simp only [receive, handleMessage]
    split
    · rename_i long
      exact ⟨rfl, .inl ⟨rfl, fun room => absurd room.1 (Nat.not_le.mpr long)⟩⟩
    · rename_i short
      split
      · -- Without fresh keys there is none to be named twice.
        rename_i nothing
        refine ⟨rfl, .inl ⟨rfl, fun _ => ?_⟩⟩
        rw [← nodup_missingOf_iff, List.isEmpty_iff.mp nothing]
        exact List.nodup_nil
      · rename_i news
        split
        · rename_i full
          rw [length_missingOf] at full
          exact ⟨rfl, .inl ⟨rfl, fun room => absurd room.2 (Nat.not_le.mpr full)⟩⟩
        · rename_i fits
          rw [length_missingOf] at fits
          exact ⟨rfl, .inr ⟨nodeHash, keys, children, rfl, ⟨Nat.not_lt.mp short, Nat.not_lt.mp fits⟩, rfl⟩⟩
  | matched | requestBranch | requestDeltas | responseDeltas | responsePatch => exact ⟨rfl, .inl ⟨rfl, trivial⟩⟩

theorem localKeySet_receive :
    (s.receive msg).localKeySet = s.localKeySet := by rw [localKeySet, (receive_cases s msg).1, localKeySet]

theorem Lacking.receive {s : ProllySyncSession} (lacking : s.Lacking) (msg : ProllySyncMessage) :
    (s.receive msg).Lacking := by
  obtain ⟨-, ⟨same, -⟩ | ⟨nodeHash, keys, children, rfl, room, more⟩⟩ := receive_cases s msg
  · refine ⟨?_, ?_, ?_⟩ <;> rw [same]
    · rw [localKeySet_receive]
      exact lacking.absent
    · exact lacking.capped
    · exact lacking.sized
  · refine ⟨?_, ?_, ?_⟩ <;> rw [more]
    · intro key member
      rw [localKeySet_receive]
      obtain old | new := List.mem_append.mp member
      · exact lacking.absent key old
      · exact (mem_missingOf.mp new).2.2.1
    · rw [List.length_append, length_missingOf]
      exact room.2
    · intro key member
      obtain old | new := List.mem_append.mp member
      · exact lacking.sized key old
      · exact (mem_missingOf.mp new).2.1

theorem Tracked.receive_iff {s : ProllySyncSession} (tracked : s.Tracked) (msg : ProllySyncMessage) :
    (s.receive msg).Tracked ↔ s.NamesOnce msg := by
  have lacking := tracked.toLacking.receive msg
  obtain ⟨-, ⟨same, once⟩ | ⟨nodeHash, keys, children, rfl, room, more⟩⟩ := receive_cases s msg
  · refine ⟨fun _ => once, fun _ => ⟨lacking, ?_⟩⟩
    rw [same]
    exact tracked.distinct
  · -- What is fresh is not among the missing keys yet, so only the new ones can repeat one another.
    have apart : ∀ key ∈ s.missingKeys, key ∉ s.missingOf keys :=
      fun key old new => (mem_missingOf.mp new).2.2.2 old
    have split : (s.receive (.responseBranch nodeHash keys children)).missingKeys.Nodup ↔ (s.missingOf keys).Nodup := by
      rw [more, List.nodup_append]
      constructor
      · rintro ⟨-, news, -⟩
        exact news
      · intro news
        refine ⟨tracked.distinct, news, ?_⟩
        rintro key old other new rfl
        exact apart key old new
    constructor
    · intro after _
      exact nodup_missingOf_iff.mp (split.mp after.distinct)
    · intro once
      exact ⟨lacking, split.mpr (nodup_missingOf_iff.mpr (once room))⟩

theorem tracked_new (tree : ProllyTree) : (new tree).Tracked where
  absent := by simp [new]
  capped := Nat.zero_le _
  sized := by simp [new]
  distinct := List.nodup_nil

end ProllySyncSession

open ProllySyncSession

/-- Whatever a peer sends, the missing keys are absent locally, sized and capped; they are distinct as well in every
state of a run exactly when no branch that is taken up names a fresh key twice. -/
theorem missing_keys_tracked (tree : ProllyTree) (messages : List ProllySyncMessage) :
    Runs.Always receive Lacking (new tree) messages ∧
      (Runs.Always receive Tracked (new tree) messages ↔ Runs.Throughout receive NamesOnce (new tree) messages) :=
  ⟨Runs.always_of_invariant (fun _ msg lacking => lacking.receive msg) (tracked_new tree).toLacking,
    Runs.always_iff_throughout (fun _ msg tracked => tracked.receive_iff msg) (tracked_new tree)⟩

/-- One branch that names a key twice is asked for twice. -/
theorem repeated_key_is_missing_twice :
    (Runs.run receive (new ⟨"", []⟩) [.responseBranch "" ["a", "a"] []]).missingKeys = ["a", "a"] ∧
      ¬ Runs.Always receive Tracked (new ⟨"", []⟩) [.responseBranch "" ["a", "a"] []] := by
  have gathered : (Runs.run receive (new ⟨"", []⟩) [.responseBranch "" ["a", "a"] []]).missingKeys = ["a", "a"] := by
    decide
  refine ⟨gathered, fun always => ?_⟩
  have distinct := always.last.distinct
  rw [gathered] at distinct
  simp at distinct

end Soshal.Sync.Prolly
