import Soshal.Relay.RelayNode

/-! The envelopes that a node publishes, and the bytes that are read as one.

Reading puts the strings into their stored spelling, so other bytes than those that
are written for an envelope can be read as it.
-/

set_option autoImplicit false

namespace Soshal.Relay

open Library.LittleEndian (Bytes)
open Library.Text (byteLen normKey normKey_normKey)

namespace RelayNode

variable {F Event : Type} {bloom : BloomFilter F} {outside : Outside Event}

theorem getLast?_lastOf {α : Type} {capacity : Nat} (positive : 0 < capacity) (queue : List α) (entry : α) :
    (lastOf capacity (queue ++ [entry])).getLast? = some entry := by
  rw [lastOf, List.getLast?_drop, List.length_append, List.length_singleton, if_neg (by omega)]
  simp

theorem recent_publish {node : RelayNode F Event} {eventId author : String} {kind : UInt16} {createdAt : UInt64}
    {payload : Bytes} {handed : Nat → Option Nat} {total : Nat}
    (accepted : (node.publish bloom outside eventId kind author createdAt payload handed).2.1 = .ok total) :
    (node.publish bloom outside eventId kind author createdAt payload handed).1.recent.getLast? =
        some (.new eventId kind author createdAt payload) ∧
      ¬ payload.length > maxPayloadBytes ∧ ¬ ((normKey eventId).isEmpty = true ∨ (normKey author).isEmpty = true) ∧
      ¬ (byteLen (normKey eventId) > 128 ∨ byteLen (normKey author) > 128) := by
  unfold publish at accepted ⊢
  dsimp only at accepted ⊢
  split at accepted
  · cases accepted
  rename_i running
  split at accepted
  · cases accepted
  rename_i capped
  split at accepted
  · cases accepted
  rename_i named
  split at accepted
  · cases accepted
  rename_i short
  rw [if_neg running, if_neg capped, if_neg named, if_neg short]
  refine ⟨?_, capped, named, short⟩
  dsimp only
  rw [getLast?_lastOf (by decide), MeshEnvelope.new, MeshEnvelope.new, normKey_normKey, normKey_normKey]

end RelayNode

/-- What is written for an envelope that the node publishes is not too long and is read back as it; data that is read as
an envelope is what is written for it exactly when its strings are in their stored spelling. -/
theorem envelope_laws {F Event : Type} (bloom : BloomFilter F) (outside : Outside Event) :
    (∀ (node : RelayNode F Event) eventId kind author createdAt payload handed total,
      (node.publish bloom outside eventId kind author createdAt payload handed).2.1 = .ok total →
        ∃ env bytes, (node.publish bloom outside eventId kind author createdAt payload handed).1.recent.getLast? = some env ∧
          env.toBytes = .ok bytes ∧ bytes.length ≤ maxEnvelopeBytes ∧ MeshEnvelope.fromBytes bytes = some env) ∧
      ∀ data env, MeshEnvelope.fromBytes data = some env →
        (env.toBytes = .ok data ↔ MeshEnvelope.CarriesNormal data) := by
  refine ⟨?_, fun data env read => MeshEnvelope.toBytes_fromBytes_iff read⟩
  intro node eventId kind author createdAt payload handed total accepted
  obtain ⟨recent, capped, named, short⟩ := RelayNode.recent_publish accepted
  obtain ⟨bytes, written, read⟩ := @MeshEnvelope.toBytes_new _ _ kind createdAt _ capped named short
  obtain ⟨_, _, _, _, -, -, -, -, -, -, sized, -⟩ := MeshEnvelope.of_fromBytes read
  exact ⟨_, bytes, recent, written, sized, read⟩

section Small

def sampleBloom : BloomFilter Unit where
  empty := ()
  insert _ _ := ()
  contains _ _ := true
  noFalseNegatives _ _ _ := rfl

def sampleOutside : Outside Unit := ⟨fun _ => "", fun _ => none⟩

def runningNode : RelayNode Unit Unit := { RelayNode.new sampleBloom with running := true }

def smallEnvelope : MeshEnvelope := ⟨1, 0, "a", 1, "b", 0, []⟩

def smallBytes : Bytes :=
  magic ++ [1, 0] ++ [1, 0, 0x61] ++ [1, 0] ++ [1, 0, 0x62] ++ List.replicate 8 0 ++ List.replicate 4 0

theorem small_envelope_laws :
    (∃ env bytes, (runningNode.publish sampleBloom sampleOutside " A" 1 "b" 0 [] fun _ => none).1.recent.getLast? = some env ∧
      env.toBytes = .ok bytes ∧ bytes.length ≤ maxEnvelopeBytes ∧ MeshEnvelope.fromBytes bytes = some env) ∧
      (smallEnvelope.toBytes = .ok smallBytes ↔ MeshEnvelope.CarriesNormal smallBytes) :=
  ⟨(envelope_laws sampleBloom sampleOutside).1 runningNode " A" 1 "b" 0 [] (fun _ => none) 0 (by decide),
    (envelope_laws sampleBloom sampleOutside).2 smallBytes smallEnvelope (by decide)⟩

end Small

section Capital

def capitalBytes : Bytes :=
  magic ++ [1, 0] ++ [1, 0, 0x41] ++ [1, 0] ++ [1, 0, 0x62] ++ List.replicate 8 0 ++ List.replicate 4 0

theorem capital_not_written_back : MeshEnvelope.fromBytes capitalBytes = some smallEnvelope ∧
    normKey smallEnvelope.eventId = smallEnvelope.eventId ∧ normKey smallEnvelope.author = smallEnvelope.author ∧
    smallEnvelope.toBytes ≠ .ok capitalBytes := by
  decide +kernel

end Capital

end Soshal.Relay
