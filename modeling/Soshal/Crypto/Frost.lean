import Mathlib.Logic.Encodable.Basic
import Mathlib.Logic.Equiv.List
import Soshal.Library.Encoding
import Soshal.Library.Fallible
import Soshal.Library.Table

/-! Threshold signatures of a jury.

The dealer, the two signing rounds and the aggregation are those of a library, over
which this code reads and writes JSON and chooses the identifiers. The coordinator
packs the commitments of all jurors that take part, and aggregates the first shares up
to the threshold only.
-/

set_option autoImplicit false

namespace Soshal.Crypto.Frost

open Library
open Library.Encoding (hexDecode)
open Library.Text (hexEncode)

abbrev Bytes := List UInt8
abbrev Identifier := Nat

/-! ## The library -/

structure Json (α : Type) where
  text : α → Except String String
  read : String → Except String α

/-- What is to be signed, with the commitments of those who sign it. -/
structure SigningPackage (SigningCommitments : Type) where
  commitments : Table Identifier SigningCommitments
  message : Bytes

structure Crate where
  SecretShare : Type
  SigningShare : Type
  KeyPackage : Type
  SigningNonces : Type
  SigningCommitments : Type
  SignatureShare : Type
  VerifyingKey : Type
  PublicKeyPackage : Type
  Signature : Type
  Rng : Type
  identifier : Nat → Except String Identifier
  generateWithDealer : Nat → Nat → Rng → Except String (List (Identifier × SecretShare) × PublicKeyPackage)
  keyPackage : SecretShare → Except String KeyPackage
  signingShare : KeyPackage → SigningShare
  commit : SigningShare → Rng → SigningNonces × SigningCommitments
  sign : SigningPackage SigningCommitments → SigningNonces → KeyPackage → Except String SignatureShare
  verifyShare : Identifier → SignatureShare → SigningPackage SigningCommitments → PublicKeyPackage → Bool
  aggregate : SigningPackage SigningCommitments → Table Identifier SignatureShare → PublicKeyPackage →
    Except String Signature
  verifyingKey : PublicKeyPackage → VerifyingKey
  publicKeyPackage : VerifyingKey → Nat → PublicKeyPackage
  verify : VerifyingKey → Bytes → Signature → Bool
  keyBytes : VerifyingKey → Except String Bytes
  keyOfBytes : Bytes → Except String VerifyingKey
  signatureBytes : Signature → Except String Bytes
  secretShareJson : Json SecretShare
  noncesJson : Json SigningNonces
  commitmentsJson : Json SigningCommitments
  signatureShareJson : Json SignatureShare
  packageJson : Json (SigningPackage SigningCommitments)
  publicKeyJson : Json PublicKeyPackage

/-! ## The session manager -/

structure FrostKeyShare where
  participantId : Nat
  threshold : Nat
  totalParticipants : Nat
  secretShareHex : String
  groupPubkeyHex : String

structure FrostSignatureShare where
  participantId : Nat
  sigShareHex : String
  commitmentsHex : String

structure FrostThresholdSignature where
  groupPubkeyHex : String
  schnorrSignatureHex : String
  messageHashHex : String

def named {α : Type} (text : String) (x : Except String α) : Except String α := x.mapError (text ++ ·)

def asU16 (n : Nat) : Nat := n % 2 ^ 16

variable (frost : Crate) (sha256 : Bytes → Bytes) (hexError : String → String)

def jurorIdentifier (participantId : Nat) : Except String Identifier := frost.identifier (max (asU16 participantId) 1)

def generateJuryKeys (threshold totalParticipants : Nat) (_groupPubkeyHint : String) (rng : frost.Rng) :
    Except String (List FrostKeyShare × String) :=
  if threshold = 0 ∨ threshold > totalParticipants then .error "invalid threshold"
  else do
    let (shares, pubkeyPackage) ←
      named "dealer keygen failed: " (frost.generateWithDealer (asU16 totalParticipants) (asU16 threshold) rng)
    let groupPkBytes ← named "verifying key serialize failed: " (frost.keyBytes (frost.verifyingKey pubkeyPackage))
    let pubkeyPkgJson ← named "pubkey package serialize failed: " (frost.publicKeyJson.text pubkeyPackage)
    let keyShares ← shares.zipIdx.mapM fun ((_, share), idx) => do
      let shareJson ← named "serializing secret share failed: " (frost.secretShareJson.text share)
      return ⟨idx + 1, threshold, totalParticipants, shareJson, pubkeyPkgJson⟩
    return (keyShares, hexEncode groupPkBytes)

def readKeyPackage (keyShare : FrostKeyShare) : Except String frost.KeyPackage := do
  let secretShare ← named "deserializing secret share failed: " (frost.secretShareJson.read keyShare.secretShareHex)
  named "converting key package failed: " (frost.keyPackage secretShare)

def createRound1Commitment (keyShare : FrostKeyShare) (rng : frost.Rng) : Except String (String × String) := do
  let keyPackage ← readKeyPackage frost keyShare
  let (nonces, commitments) := frost.commit (frost.signingShare keyPackage) rng
  let noncesJson ← frost.noncesJson.text nonces
  let commitmentsJson ← frost.commitmentsJson.text commitments
  return (noncesJson, commitmentsJson)

def createSigningPackage (commitments : List (Nat × String)) (messageBytes : Bytes) : Except String String := do
  let map ← commitments.foldlM (fun (map : Table Identifier frost.SigningCommitments) (idNum, commJson) => do
    let id ← named "invalid id: " (jurorIdentifier frost idNum)
    let comm ← named "invalid commitment json: " (frost.commitmentsJson.read commJson)
    return map.upsert id comm fun _ => comm) .empty
  frost.packageJson.text ⟨map, messageBytes⟩

def signShare (keyShare : FrostKeyShare) (noncesJson signingPackageJson : String) : Except String FrostSignatureShare := do
  let keyPackage ← readKeyPackage frost keyShare
  let nonces ← named "deserializing nonces failed: " (frost.noncesJson.read noncesJson)
  let signingPackage ← named "deserializing signing package failed: " (frost.packageJson.read signingPackageJson)
  let sigShare ← named "signing share failed: " (frost.sign signingPackage nonces keyPackage)
  let sigShareJson ← named "serializing sig share failed: " (frost.signatureShareJson.text sigShare)
  return ⟨keyShare.participantId, sigShareJson, ""⟩

/-- The group's public keys, as a package or as the key alone. The message for a text that is no hex comes from outside. -/
def readPublicKeys (threshold : Nat) (groupPubkeyOrPackage : String) : Except String frost.PublicKeyPackage :=
  match frost.publicKeyJson.read groupPubkeyOrPackage with
  | .ok package => .ok package
  | .error _ => do
    let groupPkBytes ← (hexDecode groupPubkeyOrPackage).elim
      (.error ("invalid group pubkey hex: " ++ hexError groupPubkeyOrPackage)) .ok
    let verifyingKey ← named "invalid verifying key deserialize: " (frost.keyOfBytes groupPkBytes)
    return frost.publicKeyPackage verifyingKey (asU16 threshold)

def aggregateSignature (shares : List FrostSignatureShare) (threshold : Nat)
    (signingPackageJson groupPubkeyOrPackage : String) : Except String FrostThresholdSignature :=
  if shares.length < threshold then
    .error ("insufficient signature shares: got " ++ toString shares.length ++ ", required threshold " ++ toString threshold)
  else do
    let signingPackage ← named "invalid signing package json: " (frost.packageJson.read signingPackageJson)
    let sigShares ← (shares.take threshold).foldlM (fun (map : Table Identifier frost.SignatureShare) share => do
      let id ← named "invalid participant identifier: " (jurorIdentifier frost share.participantId)
      let sigShare ← named "invalid sig share json: " (frost.signatureShareJson.read share.sigShareHex)
      return map.upsert id sigShare fun _ => sigShare) .empty
    let pubkeyPackage ← readPublicKeys frost hexError threshold groupPubkeyOrPackage
    let signature ← named "aggregation failed: " (frost.aggregate signingPackage sigShares pubkeyPackage)
    let sigBytes ← named "sig serialize failed: " (frost.signatureBytes signature)
    let msgDigest := sha256 signingPackage.message
    let groupPkBytes := (frost.keyBytes (frost.verifyingKey pubkeyPackage)).toOption.getD []
    return ⟨hexEncode groupPkBytes, hexEncode sigBytes, hexEncode msgDigest⟩

/-! ## A session of honest jurors -/

/-- The jurors commit and sign; their shares may come in another order. -/
def session (rng : Nat → frost.Rng) (jurors signers : List FrostKeyShare) (threshold : Nat) (messageBytes : Bytes)
    (groupPubkey : String) : Except String FrostThresholdSignature := do
  let commitments ← jurors.mapM fun juror => do
    let (_, commitments) ← createRound1Commitment frost juror (rng juror.participantId)
    return (juror.participantId, commitments)
  let signingPackage ← createSigningPackage frost commitments messageBytes
  let shares ← signers.mapM fun juror => do
    let (nonces, _) ← createRound1Commitment frost juror (rng juror.participantId)
    signShare frost juror nonces signingPackage
  aggregateSignature frost sha256 hexError shares threshold signingPackage groupPubkey

/-- The signature is one of the message under the group's key. -/
def ValidSignature (groupPubkeyHex : String) (messageBytes : Bytes) (result : FrostThresholdSignature) : Prop :=
  result.groupPubkeyHex = groupPubkeyHex ∧ result.messageHashHex = hexEncode (sha256 messageBytes) ∧
    ∃ key signature keyBytes signatureBytes,
      frost.keyBytes key = .ok keyBytes ∧ groupPubkeyHex = hexEncode keyBytes ∧
      frost.signatureBytes signature = .ok signatureBytes ∧ result.schnorrSignatureHex = hexEncode signatureBytes ∧
      frost.verify key messageBytes signature = true

def DistinctIdentifiers (totalParticipants : Nat) : Prop :=
  ∀ a b id, 0 < a → a ≤ totalParticipants → 0 < b → b ≤ totalParticipants →
    jurorIdentifier frost a = .ok id → jurorIdentifier frost b = .ok id → a = b

/-! ## The ideal library -/

def Json.RoundTrips {α : Type} (json : Json α) : Prop := ∀ a, ∃ text, json.text a = .ok text ∧ json.read text = .ok a

/-- An honest share is valid, and the aggregation succeeds exactly on valid shares of those who committed. -/
structure Crate.Ideal : Prop where
  identifier : ∀ n, 0 < n → n < 2 ^ 16 → frost.identifier n = .ok n
  identifiers : ∀ {n t rng shares package}, frost.generateWithDealer n t rng = .ok (shares, package) →
    shares.map Prod.fst = List.range' 1 n
  signs : ∀ {n t rng shares package}, frost.generateWithDealer n t rng = .ok (shares, package) →
    ∀ id share, (id, share) ∈ shares → ∃ keyPackage, frost.keyPackage share = .ok keyPackage ∧
      ∀ rng signingPackage, t ≤ signingPackage.commitments.keys.length →
        signingPackage.commitments.find? id = some (frost.commit (frost.signingShare keyPackage) rng).2 →
        ∃ sigShare,
          frost.sign signingPackage (frost.commit (frost.signingShare keyPackage) rng).1 keyPackage = .ok sigShare ∧
          frost.verifyShare id sigShare signingPackage package = true
  aggregates : ∀ signingPackage sigShares package,
    (∃ signature, frost.aggregate signingPackage sigShares package = .ok signature) ↔
      (∀ id, id ∈ sigShares.keys ↔ id ∈ signingPackage.commitments.keys) ∧
        ∀ id sigShare, sigShares.find? id = some sigShare → frost.verifyShare id sigShare signingPackage package = true
  verifies : ∀ {signingPackage sigShares package signature},
    frost.aggregate signingPackage sigShares package = .ok signature →
    frost.verify (frost.verifyingKey package) signingPackage.message signature = true
  keyBytes : ∀ key, ∃ bytes, frost.keyBytes key = .ok bytes
  signatureBytes : ∀ signature, ∃ bytes, frost.signatureBytes signature = .ok bytes
  secretShareJson : frost.secretShareJson.RoundTrips
  noncesJson : frost.noncesJson.RoundTrips
  commitmentsJson : frost.commitmentsJson.RoundTrips
  signatureShareJson : frost.signatureShareJson.RoundTrips
  packageJson : frost.packageJson.RoundTrips
  publicKeyJson : frost.publicKeyJson.RoundTrips

section Identifiers

variable {frost}

theorem Json.RoundTrips.read {α : Type} {json : Json α} (faithful : json.RoundTrips) {a : α} {text : String}
    (written : json.text a = .ok text) : json.read text = .ok a := by
  obtain ⟨text', written', read⟩ := faithful a
  rw [written] at written'
  cases written'
  exact read

theorem named_eq_ok {α : Type} {text : String} {x : Except String α} {a : α} : named text x = .ok a ↔ x = .ok a :=
  Fallible.mapError_eq_ok

theorem named_ok {α : Type} (text : String) (a : α) : named text (.ok a) = .ok a := rfl

theorem jurorIdentifier_eq (ideal : frost.Ideal) (participantId : Nat) :
    jurorIdentifier frost participantId = .ok (max (asU16 participantId) 1) := by
  refine ideal.identifier _ (Nat.lt_of_lt_of_le Nat.zero_lt_one (Nat.le_max_right _ _)) ?_
  have small : asU16 participantId < 2 ^ 16 := Nat.mod_lt _ (by decide)
  omega

theorem jurorIdentifier_of_small (ideal : frost.Ideal) {participantId : Nat} (positive : 0 < participantId)
    (small : participantId < 2 ^ 16) : jurorIdentifier frost participantId = .ok participantId := by
  rw [jurorIdentifier_eq ideal, asU16, Nat.mod_eq_of_lt small, Nat.max_eq_left positive]

theorem distinctIdentifiers_iff (ideal : frost.Ideal) (totalParticipants : Nat) :
    DistinctIdentifiers frost totalParticipants ↔ totalParticipants < 2 ^ 16 := by
  constructor
  · intro distinct
    by_contra many
    have collision := distinct 1 (2 ^ 16) 1 (by omega) (by omega) (by omega) (by omega)
      (jurorIdentifier_eq ideal 1) (jurorIdentifier_eq ideal (2 ^ 16))
    exact absurd collision (by decide)
  · intro few a b id positive below positive' below' first second
    rw [jurorIdentifier_of_small ideal positive (by omega)] at first
    rw [jurorIdentifier_of_small ideal positive' (by omega)] at second
    cases first
    cases second
    rfl

theorem of_generateJuryKeys (ideal : frost.Ideal) {threshold total : Nat} {hint groupPk : String} {rng : frost.Rng}
    {keyShares : List FrostKeyShare} (dealt : generateJuryKeys frost threshold total hint rng = .ok (keyShares, groupPk)) :
    0 < threshold ∧ threshold ≤ total ∧ ∃ shares package keyBytes,
      frost.generateWithDealer (asU16 total) (asU16 threshold) rng = .ok (shares, package) ∧
      frost.keyBytes (frost.verifyingKey package) = .ok keyBytes ∧ groupPk = hexEncode keyBytes ∧
      ∀ keyShare ∈ keyShares, frost.publicKeyJson.read keyShare.groupPubkeyHex = .ok package ∧
        0 < keyShare.participantId ∧ keyShare.participantId ≤ asU16 total ∧
        ∃ share, (keyShare.participantId, share) ∈ shares ∧
          frost.secretShareJson.read keyShare.secretShareHex = .ok share := by
  rw [generateJuryKeys, Fallible.guard_eq_ok, not_or] at dealt
  obtain ⟨⟨positive, most⟩, dealt⟩ := dealt
  obtain ⟨⟨shares, package⟩, generated, dealt⟩ := Fallible.bind_eq_ok.mp dealt
  obtain ⟨keyBytes, written, dealt⟩ := Fallible.bind_eq_ok.mp dealt
  obtain ⟨text, packed, dealt⟩ := Fallible.bind_eq_ok.mp dealt
  obtain ⟨written', traversed, dealt⟩ := Fallible.bind_eq_ok.mp dealt
  cases Fallible.pure_eq_ok.mp dealt
  rw [named_eq_ok] at generated written packed
  refine ⟨Nat.pos_of_ne_zero positive, Nat.not_lt.mp most, shares, package, keyBytes, generated, written, rfl, ?_⟩
  intro keyShare member
  obtain ⟨i, inside, rfl⟩ := List.mem_iff_getElem.mp member
  have each := Fallible.mapM_eq_ok.mp traversed
  have length := each.length_eq
  rw [List.length_zipIdx] at length
  have here := (List.forall₂_iff_get.mp each).2 i (by rw [List.length_zipIdx]; omega) inside
  simp only [List.get_eq_getElem, List.getElem_zipIdx, Nat.zero_add] at here
  obtain ⟨json, shareText, built⟩ := Fallible.bind_eq_ok.mp here
  rw [← Fallible.pure_eq_ok.mp built]
  have within : i < shares.length := by omega
  have identified : shares[i].1 = i + 1 := by
    have all := congrArg (fun l => l[i]?) (ideal.identifiers generated)
    simp only [List.getElem?_map, List.getElem?_eq_getElem within, Option.map_some] at all
    obtain ⟨_, same⟩ := List.getElem?_eq_some_iff.mp all.symm
    rw [List.getElem_range', Nat.one_mul, Nat.add_comm] at same
    exact same.symm
  have count : shares.length = asU16 total := by
    have all := congrArg List.length (ideal.identifiers generated)
    rwa [List.length_map, List.length_range'] at all
  refine ⟨ideal.publicKeyJson.read packed, by dsimp only; omega, by dsimp only; omega, shares[i].2, ?_,
    ideal.secretShareJson.read (named_eq_ok.mp shareText)⟩
  dsimp only
  rw [← identified]
  exact List.getElem_mem within

end Identifiers

/-! ## The honest session -/

section Honest

variable {frost} {sha256} {hexError} {rng : Nat → frost.Rng} {package : frost.PublicKeyPackage} {threshold : Nat}

/-- The first round of a juror, and what it can sign with it. -/
structure Ready (frost : Crate) (rng : Nat → frost.Rng) (package : frost.PublicKeyPackage) (threshold : Nat)
    (juror : FrostKeyShare) (nonces commitments : String) (commitment : frost.SigningCommitments) : Prop where
  first : createRound1Commitment frost juror (rng juror.participantId) = .ok (nonces, commitments)
  read : frost.commitmentsJson.read commitments = .ok commitment
  signs : ∀ {signingPackage text}, frost.packageJson.read text = .ok signingPackage →
    threshold ≤ signingPackage.commitments.keys.length →
    signingPackage.commitments.find? juror.participantId = some commitment →
    ∃ share json, signShare frost juror nonces text = .ok ⟨juror.participantId, json, ""⟩ ∧
      frost.signatureShareJson.read json = .ok share ∧
      frost.verifyShare juror.participantId share signingPackage package = true

theorem exists_ready (ideal : frost.Ideal) {total : Nat} {dealer : frost.Rng}
    {shares : List (Identifier × frost.SecretShare)}
    (generated : frost.generateWithDealer total threshold dealer = .ok (shares, package)) (rng : Nat → frost.Rng)
    {juror : FrostKeyShare} {share : frost.SecretShare} (member : (juror.participantId, share) ∈ shares)
    (held : frost.secretShareJson.read juror.secretShareHex = .ok share) :
    ∃ nonces commitments commitment, Ready frost rng package threshold juror nonces commitments commitment := by
  obtain ⟨keyPackage, own, signs⟩ := ideal.signs generated _ _ member
  have read : readKeyPackage frost juror = .ok keyPackage := by
    rw [readKeyPackage, held, named_ok, Fallible.ok_bind, own]
    rfl
  obtain ⟨nonces, writtenNonces, readNonces⟩ :=
    ideal.noncesJson (frost.commit (frost.signingShare keyPackage) (rng juror.participantId)).1
  obtain ⟨commitments, written, readCommitments⟩ :=
    ideal.commitmentsJson (frost.commit (frost.signingShare keyPackage) (rng juror.participantId)).2
  refine ⟨nonces, commitments, _, ?_, readCommitments, ?_⟩
  · rw [createRound1Commitment, read, Fallible.ok_bind]
    dsimp only
    rw [writtenNonces, written]
    rfl
  · intro signingPackage text packed enough committed
    obtain ⟨sigShare, signed, valid⟩ := signs _ signingPackage enough committed
    obtain ⟨json, writtenShare, readShare⟩ := ideal.signatureShareJson sigShare
    refine ⟨sigShare, json, ?_, readShare, valid⟩
    rw [signShare, read, readNonces, packed, Fallible.ok_bind, named_ok, Fallible.ok_bind, named_ok, Fallible.ok_bind,
      signed, named_ok, Fallible.ok_bind, writtenShare]
    rfl

theorem foldlM_collect {α β : Type} {entries : List α}
    {step : Table Identifier β → α → Except String (Table Identifier β)} (row : α → Identifier × β)
    (each : ∀ entry ∈ entries, ∀ map,
      step map entry = .ok (map.upsert (row entry).1 (row entry).2 fun _ => (row entry).2)) :
    entries.foldlM step .empty = .ok (Table.collect (entries.map row)) := by
  induction entries using List.reverseRecOn with
  | nil => rfl
  | append_singleton entries last ih =>
    rw [List.foldlM_append, ih fun entry member => each entry (List.mem_append_left _ member), Fallible.ok_bind,
      List.map_append, List.map_singleton, Table.collect_concat, List.foldlM_cons,
      each last (List.mem_append_right _ (List.mem_singleton.mpr rfl))]
    rfl

theorem createSigningPackage_eq (ideal : frost.Ideal) {jurors : List FrostKeyShare}
    {commitments : FrostKeyShare → String} {commitment : FrostKeyShare → frost.SigningCommitments}
    (small : ∀ juror ∈ jurors, 0 < juror.participantId ∧ juror.participantId < 2 ^ 16)
    (read : ∀ juror ∈ jurors, frost.commitmentsJson.read (commitments juror) = .ok (commitment juror))
    (message : Bytes) :
    ∃ text,
      createSigningPackage frost (jurors.map fun juror => (juror.participantId, commitments juror)) message = .ok text ∧
      frost.packageJson.read text =
        .ok ⟨Table.collect (jurors.map fun juror => (juror.participantId, commitment juror)), message⟩ := by
  obtain ⟨text, written, packed⟩ :=
    ideal.packageJson ⟨Table.collect (jurors.map fun juror => (juror.participantId, commitment juror)), message⟩
  refine ⟨text, ?_, packed⟩
  rw [createSigningPackage, List.foldlM_map, foldlM_collect fun juror => (juror.participantId, commitment juror),
    Fallible.ok_bind, written]
  intro juror member map
  obtain ⟨positive, below⟩ := small juror member
  dsimp only
  rw [jurorIdentifier_of_small ideal positive below, named_ok, Fallible.ok_bind, read juror member, named_ok]
  rfl

theorem aggregateSignature_eq (ideal : frost.Ideal) {signers : List FrostKeyShare} {json : FrostKeyShare → String}
    {share : FrostKeyShare → frost.SignatureShare} {text group : String}
    {signingPackage : SigningPackage frost.SigningCommitments}
    (small : ∀ juror ∈ signers, 0 < juror.participantId ∧ juror.participantId < 2 ^ 16)
    (read : ∀ juror ∈ signers, frost.signatureShareJson.read (json juror) = .ok (share juror))
    (packed : frost.packageJson.read text = .ok signingPackage) (keys : frost.publicKeyJson.read group = .ok package)
    (enough : threshold ≤ signers.length) :
    aggregateSignature frost sha256 hexError (signers.map fun juror => ⟨juror.participantId, json juror, ""⟩) threshold
        text group = do
      let signature ← named "aggregation failed: " (frost.aggregate signingPackage
        (Table.collect ((signers.take threshold).map fun juror => (juror.participantId, share juror))) package)
      let sigBytes ← named "sig serialize failed: " (frost.signatureBytes signature)
      return ⟨hexEncode ((frost.keyBytes (frost.verifyingKey package)).toOption.getD []), hexEncode sigBytes,
        hexEncode (sha256 signingPackage.message)⟩ := by
  rw [aggregateSignature, if_neg (by rw [List.length_map]; omega), packed, named_ok, Fallible.ok_bind, ← List.map_take,
    List.foldlM_map, foldlM_collect fun juror => (juror.participantId, share juror), Fallible.ok_bind, readPublicKeys,
    keys]
  · rfl
  · intro juror member map
    have signer := List.mem_of_mem_take member
    obtain ⟨positive, below⟩ := small juror signer
    dsimp only
    rw [jurorIdentifier_of_small ideal positive below, named_ok, Fallible.ok_bind, read juror signer, named_ok]
    rfl

section Jurors

variable {β : Type} {jurors : List FrostKeyShare} {value : FrostKeyShare → β}

theorem mem_keys_jurors {id : Identifier} :
    id ∈ (Table.collect (jurors.map fun juror => (juror.participantId, value juror))).keys ↔
      id ∈ jurors.map FrostKeyShare.participantId := by
  rw [Table.mem_keys_collect, List.map_map]
  rfl

theorem find?_jurors (distinct : (jurors.map FrostKeyShare.participantId).Nodup) {juror : FrostKeyShare}
    (member : juror ∈ jurors) :
    (Table.collect (jurors.map fun juror => (juror.participantId, value juror))).find? juror.participantId =
      some (value juror) := by
  obtain ⟨v, found⟩ := Table.mem_keys_iff.mp (mem_keys_jurors.mpr (List.mem_map_of_mem member))
  obtain ⟨other, here, same⟩ := List.mem_map.mp (Table.mem_collect (Table.find?_eq_some.mp found))
  obtain ⟨sameId, rfl⟩ := Prod.mk.inj same
  rw [found, List.inj_on_of_nodup_map distinct here member sameId]

theorem length_keys_jurors (distinct : (jurors.map FrostKeyShare.participantId).Nodup) :
    jurors.length ≤ (Table.collect (jurors.map fun juror => (juror.participantId, value juror))).keys.length := by
  have all : jurors.map FrostKeyShare.participantId ⊆
      (Table.collect (jurors.map fun juror => (juror.participantId, value juror))).keys :=
    fun _ member => mem_keys_jurors.mpr member
  have within := (List.subperm_of_subset distinct all).length_le
  rwa [List.length_map] at within

end Jurors

/-- The shares that are aggregated are those of all jurors exactly when there are no more than the threshold. -/
theorem mem_take_iff {jurors signers : List FrostKeyShare} (distinct : (jurors.map FrostKeyShare.participantId).Nodup)
    (order : signers.Perm jurors) (enough : threshold ≤ jurors.length) :
    (∀ id, id ∈ (signers.take threshold).map FrostKeyShare.participantId ↔
      id ∈ jurors.map FrostKeyShare.participantId) ↔
      jurors.length = threshold := by
  have length := order.length_eq
  constructor
  · intro all
    have within := (List.subperm_of_subset distinct fun id member => (all id).mpr member).length_le
    rw [List.length_map, List.length_map, List.length_take] at within
    omega
  · intro exact id
    rw [List.take_of_length_le (by omega)]
    exact (order.map _).mem_iff

theorem session_eq {jurors signers : List FrostKeyShare} {nonces commitments json : FrostKeyShare → String}
    {message : Bytes} {text group : String} (order : signers.Perm jurors)
    (first : ∀ juror ∈ jurors,
      createRound1Commitment frost juror (rng juror.participantId) = .ok (nonces juror, commitments juror))
    (created :
      createSigningPackage frost (jurors.map fun juror => (juror.participantId, commitments juror)) message = .ok text)
    (signs : ∀ juror ∈ jurors, signShare frost juror (nonces juror) text = .ok ⟨juror.participantId, json juror, ""⟩) :
    session frost sha256 hexError rng jurors signers threshold message group =
      aggregateSignature frost sha256 hexError (signers.map fun juror => ⟨juror.participantId, json juror, ""⟩) threshold
        text group := by
  rw [session, Fallible.mapM_ok (g := fun juror => (juror.participantId, commitments juror)), Fallible.ok_bind, created,
    Fallible.ok_bind, Fallible.mapM_ok (g := fun juror => ⟨juror.participantId, json juror, ""⟩), Fallible.ok_bind]
  · intro juror signer
    have member := order.mem_iff.mp signer
    rw [first juror member, Fallible.ok_bind]
    exact signs juror member
  · intro juror member
    rw [first juror member]
    rfl

/-- Among jurors with 16-bit identifiers the honest session fails only by what the aggregation leaves out. -/
theorem session_succeeds_iff (ideal : frost.Ideal) {total : Nat} {dealer : frost.Rng} {keyBytes : Bytes}
    {shares : List (Identifier × frost.SecretShare)}
    (generated : frost.generateWithDealer total threshold dealer = .ok (shares, package))
    (written : frost.keyBytes (frost.verifyingKey package) = .ok keyBytes) (rng : Nat → frost.Rng)
    {jurors signers : List FrostKeyShare} {group : String} (keys : frost.publicKeyJson.read group = .ok package)
    (small : ∀ juror ∈ jurors, 0 < juror.participantId ∧ juror.participantId < 2 ^ 16)
    (held : ∀ juror ∈ jurors, ∃ share, (juror.participantId, share) ∈ shares ∧
      frost.secretShareJson.read juror.secretShareHex = .ok share)
    (distinct : (jurors.map FrostKeyShare.participantId).Nodup) (enough : threshold ≤ jurors.length)
    (order : signers.Perm jurors) (someone : jurors ≠ []) (message : Bytes) :
    (∃ result, session frost sha256 hexError rng jurors signers threshold message group = .ok result ∧
      ValidSignature frost sha256 (hexEncode keyBytes) message result) ↔ jurors.length = threshold := by
  have prepared : ∀ juror ∈ jurors, ∃ nonces commitments commitment,
      Ready frost rng package threshold juror nonces commitments commitment := by
    intro juror member
    obtain ⟨share, member, read⟩ := held juror member
    exact exists_ready ideal generated rng member read
  obtain ⟨first, member⟩ := List.exists_mem_of_ne_nil _ someone
  have : Nonempty frost.SigningCommitments := let ⟨_, _, commitment, _⟩ := prepared first member; ⟨commitment⟩
  choose! nonces commitments commitment ready using prepared
  obtain ⟨text, created, packed⟩ :=
    createSigningPackage_eq ideal small (fun juror member => (ready juror member).read) message
  have signed : ∀ juror ∈ jurors, ∃ share json,
      signShare frost juror (nonces juror) text = .ok ⟨juror.participantId, json, ""⟩ ∧
      frost.signatureShareJson.read json = .ok share ∧
      frost.verifyShare juror.participantId share
        ⟨Table.collect (jurors.map fun juror => (juror.participantId, commitment juror)), message⟩ package = true :=
    fun juror member => (ready juror member).signs packed (Nat.le_trans enough (length_keys_jurors distinct))
      (find?_jurors distinct member)
  have : Nonempty frost.SignatureShare := let ⟨share, _⟩ := signed first member; ⟨share⟩
  choose! share json signs read valid using signed
  have signersSmall : ∀ juror ∈ signers, _ := fun juror signer => small juror (order.mem_iff.mp signer)
  rw [session_eq order (fun juror member => (ready juror member).first) created signs,
    aggregateSignature_eq ideal signersSmall (fun juror signer => read juror (order.mem_iff.mp signer)) packed keys
    (by rw [order.length_eq]; exact enough), written]
  have aggregates := ideal.aggregates
    ⟨Table.collect (jurors.map fun juror => (juror.participantId, commitment juror)), message⟩
    (Table.collect ((signers.take threshold).map fun juror => (juror.participantId, share juror))) package
  simp only [mem_keys_jurors, mem_take_iff distinct order enough] at aggregates
  constructor
  · rintro ⟨result, done, -⟩
    obtain ⟨signature, aggregated, -⟩ := Fallible.bind_eq_ok.mp done
    exact (aggregates.mp ⟨signature, named_eq_ok.mp aggregated⟩).1
  · intro exact
    have own : ∀ id sigShare,
        (Table.collect ((signers.take threshold).map fun juror => (juror.participantId, share juror))).find? id =
          some sigShare → frost.verifyShare id sigShare
          ⟨Table.collect (jurors.map fun juror => (juror.participantId, commitment juror)), message⟩ package = true := by
      intro id sigShare found
      obtain ⟨juror, here, same⟩ := List.mem_map.mp (Table.mem_collect (Table.find?_eq_some.mp found))
      obtain ⟨rfl, rfl⟩ := Prod.mk.inj same
      exact valid juror (order.mem_iff.mp (List.mem_of_mem_take here))
    obtain ⟨signature, aggregated⟩ := aggregates.mpr ⟨exact, own⟩
    obtain ⟨signatureBytes, serialized⟩ := ideal.signatureBytes signature
    refine ⟨_, by rw [aggregated, named_ok, Fallible.ok_bind, serialized]; rfl, ?_⟩
    exact ⟨rfl, rfl, _, signature, keyBytes, signatureBytes, written, rfl, serialized, rfl, ideal.verifies aggregated⟩

end Honest

section Jury

variable {frost : Crate} (ideal : frost.Ideal) (sha256 : Bytes → Bytes) (hexError : String → String)
  {threshold total : Nat} {hint groupPk : String} {dealer : frost.Rng} {keyShares : List FrostKeyShare}
  (dealt : generateJuryKeys frost threshold total hint dealer = .ok (keyShares, groupPk)) (rng : Nat → frost.Rng)
  {jurors signers : List FrostKeyShare} {coordinator : FrostKeyShare} (held : ∀ juror ∈ jurors, juror ∈ keyShares)
  (distinct : (jurors.map FrostKeyShare.participantId).Nodup) (enough : threshold ≤ jurors.length)
  (order : signers.Perm jurors) (coordinates : coordinator ∈ keyShares) (message : Bytes)

include ideal dealt held distinct enough order coordinates

theorem jury_signs_iff (few : total < 2 ^ 16) :
    (∃ result, session frost sha256 hexError rng jurors signers threshold message coordinator.groupPubkeyHex = .ok result ∧
      ValidSignature frost sha256 groupPk message result) ↔ jurors.length = threshold := by
  obtain ⟨positive, most, shares, package, keyBytes, generated, written, rfl, all⟩ := of_generateJuryKeys ideal dealt
  have narrow : asU16 total = total := Nat.mod_eq_of_lt few
  have narrowThreshold : asU16 threshold = threshold := Nat.mod_eq_of_lt (by omega)
  rw [narrow, narrowThreshold] at generated
  rw [narrow] at all
  refine session_succeeds_iff ideal generated written rng (all coordinator coordinates).1 (fun juror member => ?_)
    (fun juror member => (all juror (held juror member)).2.2.2) distinct enough order ?_ message
  · obtain ⟨-, positive, below, -⟩ := all juror (held juror member)
    exact ⟨positive, by omega⟩
  · rintro rfl
    exact absurd enough (Nat.not_le.mpr positive)

/-- A jury signs together exactly when as many jurors take part as the threshold, and identifiers stay apart
exactly when there are fewer participants than 16 bits can count. -/
theorem session_valid_iff :
    ((∃ result, session frost sha256 hexError rng jurors signers threshold message coordinator.groupPubkeyHex = .ok result ∧
      ValidSignature frost sha256 groupPk message result) ∧ DistinctIdentifiers frost total) ↔
        jurors.length = threshold ∧ total < 2 ^ 16 := by
  rw [distinctIdentifiers_iff ideal]
  exact and_congr_left (jury_signs_iff ideal sha256 hexError dealt rng held distinct enough order coordinates message)

end Jury

/-! ## A library of this kind -/

section Sample

def unary {α : Type} [Encodable α] : Json α where
  text a := .ok (String.ofList (List.replicate (Encodable.encode a) '1'))
  read text := (Encodable.decode text.toList.length : Option α).elim (.error "invalid value") .ok

theorem unary_roundTrips {α : Type} [Encodable α] : (unary : Json α).RoundTrips := fun a =>
  ⟨_, rfl, by simp [unary]⟩

instance encodableUInt8 : Encodable UInt8 := Encodable.ofLeftInverse UInt8.toNat UInt8.ofNat fun _ => UInt8.ofNat_toNat

instance : Encodable (SigningPackage Nat) :=
  Encodable.ofLeftInjection (fun package => (package.commitments.rows, package.message))
    (fun parts => if distinct : (parts.1.map Prod.fst).Nodup then some ⟨⟨parts.1, distinct⟩, parts.2⟩ else none)
    fun package => dif_pos package.commitments.nodup

def sampleAggregate (package : SigningPackage Nat) (shares : Table Nat Nat) (key : UInt8) : Except String (UInt8 × Bytes) :=
  if (∀ id ∈ shares.keys, id ∈ package.commitments.keys) ∧ (∀ id ∈ package.commitments.keys, id ∈ shares.keys) ∧
      ∀ row ∈ shares.rows, row.2 = row.1 then .ok (key, package.message)
  else .error "unknown identifier"

theorem sampleAggregate_succeeds (package : SigningPackage Nat) (shares : Table Nat Nat) (key : UInt8) :
    (∃ signature, sampleAggregate package shares key = .ok signature) ↔
      (∀ id, id ∈ shares.keys ↔ id ∈ package.commitments.keys) ∧
        ∀ id share, shares.find? id = some share → decide (share = id) = true := by
  have valid : (∀ row ∈ shares.rows, row.2 = row.1) ↔
      ∀ id share, shares.find? id = some share → decide (share = id) = true := by
    simp only [Table.find?_eq_some, decide_eq_true_iff, Prod.forall]
  have same : (∀ id, id ∈ shares.keys ↔ id ∈ package.commitments.keys) ↔
      (∀ id ∈ shares.keys, id ∈ package.commitments.keys) ∧ ∀ id ∈ package.commitments.keys, id ∈ shares.keys :=
    ⟨fun both => ⟨fun id => (both id).mp, fun id => (both id).mpr⟩, fun both id => ⟨both.1 id, both.2 id⟩⟩
  rw [same, and_assoc, ← valid, sampleAggregate]
  split
  · rename_i all
    exact ⟨fun _ => all, fun _ => ⟨_, rfl⟩⟩
  · rename_i missing
    constructor
    · rintro ⟨_, failed⟩
      cases failed
    · exact fun all => absurd all missing

/-- Shares are identifiers, and a signature is the key with the message. -/
def sampleCrate : Crate where
  SecretShare := Nat × Nat
  SigningShare := Nat
  KeyPackage := Nat × Nat
  SigningNonces := Nat
  SigningCommitments := Nat
  SignatureShare := Nat
  VerifyingKey := UInt8
  PublicKeyPackage := UInt8
  Signature := UInt8 × Bytes
  Rng := Nat
  identifier n := if n = 0 then .error "zero" else .ok n
  generateWithDealer n t rng :=
    if t < 2 ∨ n < t then .error "invalid signers"
    else .ok ((List.range' 1 n).map fun id => (id, (id, t)), UInt8.ofNat rng)
  keyPackage share := .ok share
  signingShare keyPackage := keyPackage.1
  commit _ rng := (rng, rng)
  sign package nonces keyPackage :=
    if package.commitments.keys.length < keyPackage.2 then .error "too few commitments"
    else if package.commitments.find? keyPackage.1 = some nonces then .ok keyPackage.1
    else .error "incorrect commitment"
  verifyShare id share _ _ := decide (share = id)
  aggregate := sampleAggregate
  verifyingKey key := key
  publicKeyPackage key _ := key
  verify key message signature := decide (signature = (key, message))
  keyBytes key := .ok [key]
  keyOfBytes
    | [key] => .ok key
    | _ => .error "invalid key"
  signatureBytes signature := .ok (signature.1 :: signature.2)
  secretShareJson := @unary (Nat × Nat) _
  noncesJson := @unary Nat _
  commitmentsJson := @unary Nat _
  signatureShareJson := @unary Nat _
  packageJson := @unary (SigningPackage Nat) _
  publicKeyJson := @unary UInt8 _

theorem sampleCrate_ideal : sampleCrate.Ideal where
  identifier n positive _ := if_neg (Nat.pos_iff_ne_zero.mp positive)
  identifiers dealt := by
    obtain ⟨-, dealt⟩ := Fallible.guard_eq_ok.mp dealt
    cases dealt
    exact (List.map_map ..).trans (List.map_id _)
  signs dealt id share member := by
    obtain ⟨-, dealt⟩ := Fallible.guard_eq_ok.mp dealt
    cases dealt
    obtain ⟨_, -, same⟩ := List.mem_map.mp member
    obtain ⟨rfl, rfl⟩ := Prod.mk.inj same
    refine ⟨_, rfl, fun rng package enough committed => ⟨_, ?_, decide_eq_true rfl⟩⟩
    exact (if_neg (Nat.not_lt.mpr enough)).trans (if_pos committed)
  aggregates := sampleAggregate_succeeds
  verifies aggregated := by
    change sampleAggregate _ _ _ = _ at aggregated
    unfold sampleAggregate at aggregated
    split at aggregated
    · cases aggregated
      exact decide_eq_true rfl
    · cases aggregated
  keyBytes key := ⟨_, rfl⟩
  signatureBytes signature := ⟨_, rfl⟩
  secretShareJson := @unary_roundTrips (Nat × Nat) _
  noncesJson := @unary_roundTrips Nat _
  commitmentsJson := @unary_roundTrips Nat _
  signatureShareJson := @unary_roundTrips Nat _
  packageJson := @unary_roundTrips (SigningPackage Nat) _
  publicKeyJson := @unary_roundTrips UInt8 _

def unaryText {α : Type} [Encodable α] (a : α) : String := String.ofList (List.replicate (Encodable.encode a) '1')

def sampleShare (id : Nat) : FrostKeyShare := ⟨id, 2, 3, unaryText (id, 2), unaryText (7 : UInt8)⟩

theorem sample_dealt (hint : String) : generateJuryKeys sampleCrate 2 3 hint (7 : Nat) =
    .ok ([sampleShare 1, sampleShare 2, sampleShare 3], hexEncode [7]) := rfl

/-- Two of the three sign, and their shares come in the other order. -/
theorem two_of_three_sign :
    (∃ result, session sampleCrate id id (fun n => n) [sampleShare 1, sampleShare 3] [sampleShare 3, sampleShare 1] 2 [1]
        (sampleShare 1).groupPubkeyHex = .ok result ∧ ValidSignature sampleCrate id (hexEncode [7]) [1] result) ∧
      DistinctIdentifiers sampleCrate 3 :=
  (session_valid_iff sampleCrate_ideal id id (sample_dealt "") (fun n => n) (by simp) (by decide) (by decide)
    (List.Perm.swap _ _ _) (by simp) [1]).mpr (by decide)

/-- All three sign, and only two of their shares are aggregated; of more jurors two may have one identifier. -/
theorem three_of_three_fail :
    (¬ ∃ result, session sampleCrate id id (fun n => n) [sampleShare 1, sampleShare 2, sampleShare 3]
        [sampleShare 1, sampleShare 2, sampleShare 3] 2 [1] (sampleShare 1).groupPubkeyHex = .ok result ∧
          ValidSignature sampleCrate id (hexEncode [7]) [1] result) ∧
      ¬ DistinctIdentifiers sampleCrate (2 ^ 16) := by
  rw [jury_signs_iff sampleCrate_ideal id id (sample_dealt "") (fun n => n) (by simp) (by decide) (by decide)
    (List.Perm.refl _) (by simp) [1] (by decide), distinctIdentifiers_iff sampleCrate_ideal]
  decide

end Sample

end Soshal.Crypto.Frost
