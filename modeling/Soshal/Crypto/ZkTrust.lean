import Soshal.Library.Encoding

/-! Commitment envelopes of the web of trust, and the two functions that verify them.

One compares the nullifier with the prover's as bytes, the other as text; both look it
up among the blacklisted nullifiers as text. Hexadecimal is read in either case, so a
nullifier has more spellings than the one that is looked up.
-/

set_option autoImplicit false

namespace Soshal.Crypto.ZkTrust

open Library
open Library.Encoding (base64Decode base64Encode hexDecode)
open Library.Text (hexEncode toAsciiLowercase utf8)

abbrev Bytes := List UInt8

structure ZkTrustProof where
  wotMerkleRoot : String
  blacklistNullifierHash : String
  proofBytesB64 : String

section Functions

variable (sha256 : Bytes → Vector UInt8 32)

def nullifierHash (proverPubkey : String) : Bytes := (sha256 (utf8 "nullifier:" ++ utf8 proverPubkey)).toList

def proofHash (proverPubkey wotMerkleRoot blacklistRoot : String) : Bytes :=
  (sha256 (utf8 proverPubkey ++ utf8 wotMerkleRoot ++ utf8 blacklistRoot)).toList

def generateZkWotProof (proverPubkey wotMerkleRoot blacklistRoot : String) : ZkTrustProof where
  wotMerkleRoot := wotMerkleRoot
  blacklistNullifierHash := hexEncode (nullifierHash sha256 proverPubkey)
  proofBytesB64 := base64Encode (proofHash sha256 proverPubkey wotMerkleRoot blacklistRoot)

def differences (expected bytes : Bytes) : UInt8 := (expected.zip bytes).foldl (fun acc (e, p) => acc ||| (e ^^^ p)) 0

variable (proof : ZkTrustProof) (proverPubkey expectedWotRoot blacklistRoot : String)
  (knownBlacklistedNullifiers : List String)

def verifyZkWotProof : Bool :=
  if proof.wotMerkleRoot ≠ expectedWotRoot then false
  else if proof.blacklistNullifierHash ∈ knownBlacklistedNullifiers then false
  else
    let nullifierH := nullifierHash sha256 proverPubkey
    match (hexDecode proof.blacklistNullifierHash).filter fun provided => provided.length = nullifierH.length with
    | none => false
    | some provided =>
      if provided ≠ nullifierH then false
      else
        let expectedHash := proofHash sha256 proverPubkey proof.wotMerkleRoot blacklistRoot
        match base64Decode proof.proofBytesB64 with
        | some bytes => if bytes.length ≠ expectedHash.length then false else differences expectedHash bytes == 0
        | none => false

def verifyZkWotProofBinding : Bool :=
  if proof.wotMerkleRoot ≠ expectedWotRoot then false
  else if proof.blacklistNullifierHash ∈ knownBlacklistedNullifiers then false
  else if hexEncode (nullifierHash sha256 proverPubkey) ≠ proof.blacklistNullifierHash then false
  else
    let expectedHash := proofHash sha256 proverPubkey proof.wotMerkleRoot blacklistRoot
    match base64Decode proof.proofBytesB64 with
    | some bytes => if bytes.length ≠ expectedHash.length then false else bytes == expectedHash
    | none => false

/-- The envelope commits the prover to the roots, its nullifier is read as the prover's, and its text is not blacklisted. -/
structure Bound : Prop where
  root : proof.wotMerkleRoot = expectedWotRoot
  unlisted : proof.blacklistNullifierHash ∉ knownBlacklistedNullifiers
  nullifier : hexDecode proof.blacklistNullifierHash = some (nullifierHash sha256 proverPubkey)
  proof : base64Decode proof.proofBytesB64 = some (proofHash sha256 proverPubkey expectedWotRoot blacklistRoot)

/-- No blacklisted value is accepted in any spelling, and the two functions agree. -/
def SpellingsAgree : Prop :=
  (∀ entry ∈ knownBlacklistedNullifiers, ∀ value, value.length = 32 → hexDecode entry = some value →
      hexDecode proof.blacklistNullifierHash = some value →
        verifyZkWotProof sha256 proof proverPubkey expectedWotRoot blacklistRoot knownBlacklistedNullifiers = false) ∧
    verifyZkWotProof sha256 proof proverPubkey expectedWotRoot blacklistRoot knownBlacklistedNullifiers =
      verifyZkWotProofBinding sha256 proof proverPubkey expectedWotRoot blacklistRoot knownBlacklistedNullifiers

end Functions

theorem foldl_differences {expected bytes : Bytes} (same : expected.length = bytes.length) (acc : UInt8) :
    (expected.zip bytes).foldl (fun acc (e, p) => acc ||| (e ^^^ p)) acc = 0 ↔ acc = 0 ∧ expected = bytes := by
  induction expected generalizing bytes acc with
  | nil =>
    obtain rfl := List.length_eq_zero_iff.mp same.symm
    simp
  | cons e expected ih =>
    cases bytes with
    | nil => cases same
    | cons p bytes =>
      rw [List.zip_cons_cons, List.foldl_cons, ih (Nat.succ.inj same), UInt8.or_eq_zero_iff, UInt8.xor_eq_zero_iff,
        List.cons.injEq, and_assoc]

theorem differences_eq_zero {expected bytes : Bytes} (same : expected.length = bytes.length) :
    differences expected bytes = 0 ↔ bytes = expected := by
  rw [differences, foldl_differences same, eq_comm (a := bytes)]
  exact and_iff_right rfl

theorem toLower_eq_self {c : Char} : c.toLower = c ↔ c.isUpper = false := by
  unfold Char.toLower Char.isUpper
  split
  · rename_i upper
    have shifted := Text.toNat_shift upper.2
    constructor
    · intro same
      have value : (c.val + (97 - 65)).toNat = c.val.toNat := congrArg (fun c : Char => c.val.toNat) same
      omega
    · intro lower
      rw [decide_eq_false_iff_not] at lower
      exact absurd upper lower
  · rename_i other
    simpa using other

theorem hexEncode_eq_iff {s : String} {bytes : Bytes} (read : hexDecode s = some bytes) :
    hexEncode bytes = s ↔ ∀ c ∈ s.toList, c.isUpper = false := by
  rw [Encoding.hexEncode_of_hexDecode read, toAsciiLowercase, ← String.toList_inj, String.toList_ofList]
  conv_lhs => rw [← List.map_id s.toList, List.map_map, List.map_inj_left]
  exact forall₂_congr fun c _ => toLower_eq_self

section Verified

variable {sha256 : Bytes → Vector UInt8 32} {proof : ZkTrustProof}
  {proverPubkey expectedWotRoot blacklistRoot : String} {knownBlacklistedNullifiers : List String}

theorem length_nullifierHash : (nullifierHash sha256 proverPubkey).length = 32 := by simp [nullifierHash]

/-- A test that compares bytes of one length accepts the proof of the expected bytes alone. -/
theorem proof_iff {text : String} {expectedHash : Bytes} {test : Bytes → Bool}
    (equal : ∀ bytes, bytes.length = expectedHash.length → (test bytes = true ↔ bytes = expectedHash)) :
    (match base64Decode text with
      | some bytes => if bytes.length ≠ expectedHash.length then false else test bytes
      | none => false) = true ↔ base64Decode text = some expectedHash := by
  cases base64Decode text with
  | none => simp
  | some bytes =>
    dsimp only
    rw [Option.some_inj]
    split
    · rename_i other
      exact ⟨fun failed => (nomatch failed), fun same => absurd (congrArg List.length same) other⟩
    · rename_i same
      exact equal bytes (not_not.mp same)

-- The two functions compare the proof in their own ways, byte by byte without an early end and at once.
theorem proofMatches_iff {text : String} {expectedHash : Bytes} :
    (match base64Decode text with
      | some bytes => if bytes.length ≠ expectedHash.length then false else differences expectedHash bytes == 0
      | none => false) = true ↔ base64Decode text = some expectedHash :=
  proof_iff fun _ same => by rw [beq_iff_eq, differences_eq_zero same.symm]

theorem proofEquals_iff {text : String} {expectedHash : Bytes} :
    (match base64Decode text with
      | some bytes => if bytes.length ≠ expectedHash.length then false else bytes == expectedHash
      | none => false) = true ↔ base64Decode text = some expectedHash :=
  proof_iff fun _ _ => beq_iff_eq

theorem verifyZkWotProof_eq_true :
    verifyZkWotProof sha256 proof proverPubkey expectedWotRoot blacklistRoot knownBlacklistedNullifiers = true ↔
      Bound sha256 proof proverPubkey expectedWotRoot blacklistRoot knownBlacklistedNullifiers := by
  unfold verifyZkWotProof
  constructor
  · intro accepted
    split at accepted
    · cases accepted
    · rename_i root
      split at accepted
      · cases accepted
      · rename_i unlisted
        dsimp only at accepted
        split at accepted
        · cases accepted
        · rename_i provided read
          split at accepted
          · cases accepted
          · rename_i same
            have read := (Option.filter_eq_some_iff.mp read).1
            rw [not_not] at root same
            rw [same] at read
            rw [root, proofMatches_iff] at accepted
            exact ⟨root, unlisted, read, accepted⟩
  · rintro ⟨root, unlisted, read, proven⟩
    have provided : (hexDecode proof.blacklistNullifierHash).filter
        (fun provided => decide (provided.length = (nullifierHash sha256 proverPubkey).length)) =
          some (nullifierHash sha256 proverPubkey) := by simp [read]
    rw [if_neg (not_not.mpr root), if_neg unlisted]
    dsimp only
    rw [provided]
    dsimp only
    rw [if_neg (not_not.mpr rfl), root]
    exact proofMatches_iff.mpr proven

theorem verifyZkWotProofBinding_eq_true :
    verifyZkWotProofBinding sha256 proof proverPubkey expectedWotRoot blacklistRoot knownBlacklistedNullifiers = true ↔
      Bound sha256 proof proverPubkey expectedWotRoot blacklistRoot knownBlacklistedNullifiers ∧
        ∀ c ∈ proof.blacklistNullifierHash.toList, c.isUpper = false := by
  unfold verifyZkWotProofBinding
  constructor
  · intro accepted
    split at accepted
    · cases accepted
    · rename_i root
      split at accepted
      · cases accepted
      · rename_i unlisted
        split at accepted
        · cases accepted
        · rename_i same
          rw [not_not] at root same
          have read : hexDecode proof.blacklistNullifierHash = some (nullifierHash sha256 proverPubkey) := by
            rw [← same, Encoding.hexDecode_hexEncode]
          dsimp only at accepted
          rw [root, proofEquals_iff] at accepted
          exact ⟨⟨root, unlisted, read, accepted⟩, (hexEncode_eq_iff read).mp same⟩
  · rintro ⟨⟨root, unlisted, read, proven⟩, lower⟩
    rw [if_neg (not_not.mpr root), if_neg unlisted, if_neg (not_not.mpr ((hexEncode_eq_iff read).mpr lower)), root]
    exact proofEquals_iff.mpr proven

end Verified

/-- The functions agree on every spelling unless an envelope that is bound to its prover has a nullifier with a capital
letter, or a blacklisted text is another spelling of it. -/
theorem spellings_agree_iff (sha256 : Bytes → Vector UInt8 32) (proof : ZkTrustProof)
    (proverPubkey expectedWotRoot blacklistRoot : String) (knownBlacklistedNullifiers : List String) :
    SpellingsAgree sha256 proof proverPubkey expectedWotRoot blacklistRoot knownBlacklistedNullifiers ↔
      (Bound sha256 proof proverPubkey expectedWotRoot blacklistRoot knownBlacklistedNullifiers →
        (∀ c ∈ proof.blacklistNullifierHash.toList, c.isUpper = false) ∧
          ∀ entry ∈ knownBlacklistedNullifiers, hexDecode entry ≠ hexDecode proof.blacklistNullifierHash) := by
  have agree : verifyZkWotProof sha256 proof proverPubkey expectedWotRoot blacklistRoot knownBlacklistedNullifiers =
      verifyZkWotProofBinding sha256 proof proverPubkey expectedWotRoot blacklistRoot knownBlacklistedNullifiers ↔
        (Bound sha256 proof proverPubkey expectedWotRoot blacklistRoot knownBlacklistedNullifiers →
          ∀ c ∈ proof.blacklistNullifierHash.toList, c.isUpper = false) := by
    rw [Bool.eq_iff_iff, verifyZkWotProof_eq_true, verifyZkWotProofBinding_eq_true]
    exact ⟨fun both bound => (both.mp bound).2, fun lower => ⟨fun bound => ⟨bound, lower bound⟩, And.left⟩⟩
  rw [SpellingsAgree, agree]
  constructor
  · rintro ⟨never, lower⟩ bound
    refine ⟨lower bound, fun entry member same => ?_⟩
    have refused := never entry member _ length_nullifierHash (same.trans bound.nullifier) bound.nullifier
    rw [verifyZkWotProof_eq_true.mpr bound] at refused
    cases refused
  · intro good
    refine ⟨fun entry member value _ listed own => ?_, fun bound => (good bound).1⟩
    rw [← Bool.not_eq_true, verifyZkWotProof_eq_true]
    exact fun bound => (good bound).2 entry member (listed.trans own.symm)

/-- What was generated is verified by both functions, as long as its nullifier is not blacklisted. -/
theorem verify_generated (sha256 : Bytes → Vector UInt8 32) (proverPubkey wotMerkleRoot blacklistRoot : String)
    {knownBlacklistedNullifiers : List String}
    (unlisted : hexEncode (nullifierHash sha256 proverPubkey) ∉ knownBlacklistedNullifiers) :
    verifyZkWotProof sha256 (generateZkWotProof sha256 proverPubkey wotMerkleRoot blacklistRoot) proverPubkey wotMerkleRoot
        blacklistRoot knownBlacklistedNullifiers = true ∧
      verifyZkWotProofBinding sha256 (generateZkWotProof sha256 proverPubkey wotMerkleRoot blacklistRoot) proverPubkey
        wotMerkleRoot blacklistRoot knownBlacklistedNullifiers = true := by
  have bound :
      Bound sha256 (generateZkWotProof sha256 proverPubkey wotMerkleRoot blacklistRoot) proverPubkey wotMerkleRoot
      blacklistRoot knownBlacklistedNullifiers :=
    ⟨rfl, unlisted, Encoding.hexDecode_hexEncode _, Encoding.base64Decode_base64Encode _⟩
  exact ⟨verifyZkWotProof_eq_true.mpr bound,
    verifyZkWotProofBinding_eq_true.mpr ⟨bound, (hexEncode_eq_iff bound.nullifier).mp rfl⟩⟩

section Capitals

/-- The hash of the prover's nullifier text, and for other texts the hash of the commitment below. -/
def sampleSha256 (input : Bytes) : Vector UInt8 32 :=
  if input.length = 15 then
    #v[0xfb, 0xcb, 0xc8, 0x33, 0x12, 0x5b, 0x55, 0xca, 0x34, 0x23, 0x6f, 0x0b, 0x5e, 0xf1, 0x85, 0xc5,
      0x57, 0x1d, 0xab, 0xea, 0xb1, 0xc9, 0xd5, 0x90, 0x4e, 0x32, 0x4d, 0xe5, 0xb7, 0x9e, 0xb2, 0x57]
  else
    #v[0xdb, 0x16, 0x43, 0xd0, 0x3b, 0x71, 0xd6, 0x57, 0x77, 0x2a, 0x37, 0xd3, 0xbb, 0xad, 0xf7, 0xfc,
      0x45, 0xe8, 0x27, 0xbc, 0xa3, 0xcf, 0xee, 0x7f, 0x14, 0x2d, 0xd7, 0xb0, 0x91, 0x16, 0x14, 0x9c]

/-- An envelope of one prover, with the nullifier in capitals. -/
def inCapitals : ZkTrustProof where
  wotMerkleRoot := "root"
  blacklistNullifierHash := "FBCBC833125B55CA34236F0B5EF185C5571DABEAB1C9D5904E324DE5B79EB257"
  proofBytesB64 := "2xZD0Dtx1ld3KjfTu633/EXoJ7yjz+5/FC3XsJEWFJw="

def inLowercase : String := "fbcbc833125b55ca34236f0b5ef185c5571dabeab1c9d5904e324de5b79eb257"

/-- The nullifier of another prover is blacklisted. -/
def blacklisted : List String := ["f2e7807fdd904b9671ff10ea67fce5b11d3e2735fcacc3fefcab0bbfd795dfae"]

theorem verify_generated_alice :
    hexEncode (nullifierHash sampleSha256 "alice") ∉ blacklisted ∧
      verifyZkWotProof sampleSha256 (generateZkWotProof sampleSha256 "alice" "root" "bl") "alice" "root" "bl"
        blacklisted = true ∧
      verifyZkWotProofBinding sampleSha256 (generateZkWotProof sampleSha256 "alice" "root" "bl") "alice" "root" "bl"
        blacklisted = true := by
  have unlisted : hexEncode (nullifierHash sampleSha256 "alice") ∉ blacklisted := by decide +kernel
  exact ⟨unlisted, verify_generated sampleSha256 "alice" "root" "bl" unlisted⟩

theorem capitals_pass_blacklist :
    hexDecode inLowercase = hexDecode inCapitals.blacklistNullifierHash ∧
      verifyZkWotProof sampleSha256 inCapitals "alice" "root" "bl" [inLowercase] = true ∧
      ¬ SpellingsAgree sampleSha256 inCapitals "alice" "root" "bl" [inLowercase] := by
  have accepted : verifyZkWotProof sampleSha256 inCapitals "alice" "root" "bl" [inLowercase] = true := by rfl
  have refused : verifyZkWotProofBinding sampleSha256 inCapitals "alice" "root" "bl" [inLowercase] = false := by
    decide
  refine ⟨by decide +kernel, accepted, fun agree => ?_⟩
  have same := agree.2
  rw [accepted, refused] at same
  cases same

end Capitals

end Soshal.Crypto.ZkTrust
