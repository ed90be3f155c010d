import Soshal.Library.Encoding
import Soshal.Library.Table
import Soshal.Library.Runs
import Soshal.Nostr.Event

/-! Rollups of a thread's state and the commitments they are checked against.

A commitment is the SHA-256 of the thread's name, its first and its last state
root and the number of operations, written one after the other. Nothing marks
where one text ends and the next begins, so a commitment fixes the fields only
together with the lengths of the first two.
-/

set_option autoImplicit false

namespace Soshal.Sync

open Library
open Library.Text (byteLen utf8 trim eqIgnoreAsciiCase hexEncode)
open Library.Encoding (hexDecode)

structure CommitmentRollup where
  threadId : String
  genesisRoot : String
  finalStateRoot : String
  operationCount : UInt64
  commitmentHex : String
  deriving DecidableEq

structure RollupVerificationResult where
  verified : Bool
  threadId : String
  verifiedOperations : UInt64
  errorMsg : Option String
  deriving DecidableEq

/-- The `sha2` crate, and the message of the `hex` crate for a text that it does not decode. -/
structure RollupPrimitives where
  sha256 : List UInt8 → Vector UInt8 32
  hexError : String → String

def toLeBytes (n : UInt64) : List UInt8 := (List.range 8).map fun i => UInt8.ofNat (n.toNat / 256 ^ i)

namespace CommitmentRollup

def preimage (rollup : CommitmentRollup) : List UInt8 :=
  utf8 rollup.threadId ++ utf8 rollup.genesisRoot ++ utf8 rollup.finalStateRoot ++ toLeBytes rollup.operationCount

def rejected (rollup : CommitmentRollup) (errorMsg : String) : RollupVerificationResult where
  verified := false
  threadId := rollup.threadId
  verifiedOperations := 0
  errorMsg := some errorMsg

end CommitmentRollup

section Verify

variable (prims : RollupPrimitives)

def verifyRollup (rollup : CommitmentRollup) : RollupVerificationResult :=
  if trim rollup.threadId = "" ∨ 128 < byteLen rollup.threadId then rollup.rejected "Invalid thread_id"
  else if rollup.genesisRoot = "" ∨ 128 < byteLen rollup.genesisRoot then rollup.rejected "Invalid genesis_root"
  else if rollup.finalStateRoot = "" ∨ 128 < byteLen rollup.finalStateRoot then
    rollup.rejected "Invalid final_state_root"
  else
    match hexDecode rollup.commitmentHex with
    | none => rollup.rejected ("Invalid commitment hex: " ++ prims.hexError rollup.commitmentHex)
    | some commitment =>
      if commitment = [] then rollup.rejected "Commitment payload is empty"
      -- Bytes after the first 32 are not looked at.
      else if 32 ≤ commitment.length ∧ commitment.take 32 = (prims.sha256 rollup.preimage).toList then
        { verified := true, threadId := rollup.threadId, verifiedOperations := rollup.operationCount, errorMsg := none }
      else rollup.rejected "Rollup commitment mismatch"

variable {prims}

theorem mod_pow_of_bytes {n m : Nat} (k : Nat) (same : ∀ i < k, n / 256 ^ i % 256 = m / 256 ^ i % 256) :
    n % 256 ^ k = m % 256 ^ k := by
  induction k with
  | zero => rw [Nat.pow_zero, Nat.mod_one, Nat.mod_one]
  | succ k ih =>
    have lower := ih fun i less => same i (Nat.lt_succ_of_lt less)
    rw [Nat.mod_pow_succ, Nat.mod_pow_succ, lower, same k (Nat.lt_succ_self k)]

theorem toLeBytes_inj {first second : UInt64} (same : toLeBytes first = toLeBytes second) : first = second := by
  have bytes : ∀ i < 8, first.toNat / 256 ^ i % 256 = second.toNat / 256 ^ i % 256 := by
    intro i less
    have byte := List.map_inj_left.mp same i (List.mem_range.mpr less)
    simpa only [← UInt8.toNat_inj, UInt8.toNat_ofNat'] using byte
  have whole := mod_pow_of_bytes 8 bytes
  have power : 256 ^ 8 = 2 ^ 64 := rfl
  rw [← UInt64.toNat_inj]
  rwa [power, Nat.mod_eq_of_lt first.toNat_lt, Nat.mod_eq_of_lt second.toNat_lt] at whole

theorem length_toLeBytes (n : UInt64) : (toLeBytes n).length = 8 := by
  rw [toLeBytes, List.length_map, List.length_range]

theorem digest_of_verified {rollup : CommitmentRollup} (verified : (verifyRollup prims rollup).verified = true) :
    (hexDecode rollup.commitmentHex).map (List.take 32) = some (prims.sha256 rollup.preimage).toList := by
  unfold verifyRollup at verified
  split at verified
  · cases verified
  · split at verified
    · cases verified
    · split at verified
      · cases verified
      · split at verified
        · cases verified
        case h_2 commitment decoded =>
          split at verified
          · cases verified
          · split at verified
            case isTrue matched => rw [decoded, Option.map_some, matched.2]
            case isFalse => cases verified

theorem verified_of_commitment {rollup : CommitmentRollup}
    (thread : trim rollup.threadId ≠ "" ∧ byteLen rollup.threadId ≤ 128)
    (genesis : rollup.genesisRoot ≠ "" ∧ byteLen rollup.genesisRoot ≤ 128)
    (final : rollup.finalStateRoot ≠ "" ∧ byteLen rollup.finalStateRoot ≤ 128)
    (committed : rollup.commitmentHex = hexEncode (prims.sha256 rollup.preimage).toList) :
    (verifyRollup prims rollup).verified = true := by
  unfold verifyRollup
  rw [committed, Encoding.hexDecode_hexEncode]
  generalize prims.sha256 rollup.preimage = digest
  have length : digest.toList.length = 32 := Vector.length_toList
  have whole : digest.toList.take 32 = digest.toList := List.take_of_length_le (Nat.le_of_eq length)
  have some' : digest.toList ≠ [] := List.ne_nil_of_length_pos (by omega)
  rw [if_neg (not_or.mpr ⟨thread.1, Nat.not_lt.mpr thread.2⟩),
    if_neg (not_or.mpr ⟨genesis.1, Nat.not_lt.mpr genesis.2⟩),
    if_neg (not_or.mpr ⟨final.1, Nat.not_lt.mpr final.2⟩)]
  dsimp only
  rw [if_neg some', if_pos ⟨Nat.le_of_eq length.symm, whole⟩]

theorem fields_of_preimage {first second : CommitmentRollup} (same : first.preimage = second.preimage)
    (thread : byteLen first.threadId = byteLen second.threadId)
    (genesis : byteLen first.genesisRoot = byteLen second.genesisRoot) :
    first.threadId = second.threadId ∧ first.genesisRoot = second.genesisRoot ∧
      first.finalStateRoot = second.finalStateRoot ∧ first.operationCount = second.operationCount := by
  simp only [CommitmentRollup.preimage, List.append_assoc] at same
  obtain ⟨threads, same⟩ := List.append_inj same (by simpa only [Text.length_utf8] using thread)
  obtain ⟨roots, same⟩ := List.append_inj same (by simpa only [Text.length_utf8] using genesis)
  obtain ⟨finals, counts⟩ := List.append_inj' same (by rw [length_toLeBytes, length_toLeBytes])
  exact ⟨Text.utf8_inj threads, Text.utf8_inj roots, Text.utf8_inj finals, toLeBytes_inj counts⟩

theorem commitment_binds_iff {first second : CommitmentRollup}
    (collisionFree : prims.sha256 first.preimage = prims.sha256 second.preimage → first.preimage = second.preimage)
    (verified : (verifyRollup prims first).verified = true)
    (verified' : (verifyRollup prims second).verified = true) (same : first.commitmentHex = second.commitmentHex) :
    (first.threadId = second.threadId ∧ first.genesisRoot = second.genesisRoot ∧
        first.finalStateRoot = second.finalStateRoot ∧ first.operationCount = second.operationCount) ↔
      byteLen first.threadId = byteLen second.threadId ∧ byteLen first.genesisRoot = byteLen second.genesisRoot := by
  constructor
  · rintro ⟨thread, genesis, _, _⟩
    exact ⟨congrArg byteLen thread, congrArg byteLen genesis⟩
  · rintro ⟨thread, genesis⟩
    have digest := digest_of_verified verified
    rw [same, digest_of_verified verified'] at digest
    have hashes := Vector.toList_inj.mp (Option.some.inj digest)
    exact fields_of_preimage (collisionFree hashes.symm) thread genesis

end Verify

def abcdDigest : Vector UInt8 32 :=
  Nostr.beBytes 32 0x8ace81c4a485a58aee8900a1a8b8e5a48c070de01cc78e5232b86b7dd1665019

/-- SHA-256 where every rollup here hashes the letters "abcd" and one operation. -/
def abcdPrimitives : RollupPrimitives := ⟨fun _ => abcdDigest, fun _ => ""⟩

def splitRollup (threadId genesisRoot finalStateRoot : String) : CommitmentRollup :=
  ⟨threadId, genesisRoot, finalStateRoot, 1, hexEncode abcdDigest.toList⟩

theorem preimage_splits : (splitRollup "ab" "c" "d").preimage = (splitRollup "a" "bc" "d").preimage := by decide

theorem lengths_of_splits :
    (verifyRollup abcdPrimitives (splitRollup "ab" "c" "d")).verified = true ∧
      (verifyRollup abcdPrimitives (splitRollup "a" "bc" "d")).verified = true ∧
      (("ab" = "a" ∧ "c" = "bc" ∧ "d" = "d" ∧ (1 : UInt64) = 1) ↔ byteLen "ab" = byteLen "a" ∧ byteLen "c" = byteLen "bc") := by
  have first : (verifyRollup abcdPrimitives (splitRollup "ab" "c" "d")).verified = true :=
    verified_of_commitment (by decide) (by decide) (by decide) rfl
  have second : (verifyRollup abcdPrimitives (splitRollup "a" "bc" "d")).verified = true :=
    verified_of_commitment (by decide) (by decide) (by decide) rfl
  exact ⟨first, second, commitment_binds_iff (fun _ => preimage_splits) first second rfl⟩

/-- A letter moved from the thread's name to its first root, under the same commitment. -/
theorem commitment_of_two_rollups :
    ∃ first second : CommitmentRollup,
      (abcdPrimitives.sha256 first.preimage = abcdPrimitives.sha256 second.preimage → first.preimage = second.preimage) ∧
      (verifyRollup abcdPrimitives first).verified = true ∧ (verifyRollup abcdPrimitives second).verified = true ∧
      first.commitmentHex = second.commitmentHex ∧ first.threadId ≠ second.threadId ∧
      first.genesisRoot ≠ second.genesisRoot :=
  ⟨splitRollup "ab" "c" "d", splitRollup "a" "bc" "d", fun _ => preimage_splits,
    verified_of_commitment (by decide) (by decide) (by decide) rfl,
    verified_of_commitment (by decide) (by decide) (by decide) rfl, rfl, by decide, by decide⟩

end Soshal.Sync
