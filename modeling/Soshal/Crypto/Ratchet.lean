import Soshal.Library.Encoding
import Soshal.Library.Fallible
import Soshal.Library.KeyChain

/-! The hybrid double ratchet: session state, headers, encryption and decryption.

Keys, secret keys and shared secrets are opaque; what goes over the wire is text,
as it is in the sources. A key that the sources keep as an empty string until it
is derived is an optional key here. The operating system's randomness is passed
in, one draw for each use.
-/

set_option autoImplicit false

namespace Soshal.Crypto

open Library
open Library.Text (byteLen utf8 fromUtf8 hexEncode)
open Library.Encoding (base64Decode hexDecode)
open Library.Fallible (bind_eq_ok guard_eq_ok)
open Library.KeyChain (push shiftIn chainAt keyAt)

abbrev Bytes := List UInt8

def ratchetVersion : Nat := 3
def maxRatchetWindow : Nat := 1024
def maxRatchetCiphertext : Nat := 64 * 1024
def hybridPkLen : Nat := 1 + 32 + 1184
def hybridCtLen : Nat := 1 + 32 + 1088
def maxInputLen : Nat := 64 * 1024
def rawPlaintextTag : UInt8 := 0x52

structure SkippedKey (Key : Type) where
  seq : Int
  key : Key

structure RatchetState (Key Sk : Type) where
  version : Nat
  rootKey : Option Key
  currentSk : Sk
  currentPk : String
  peerPk : String
  context : String
  chainCounter : Int
  sendingChainKey : Option Key
  sendingChainCounter : Int
  sendingEpochPeerPk : String
  sendingCt : String
  receivingChainKey : Option Key
  receivingChainCounter : Int
  skipped : List (SkippedKey Key)
  prevEpochSkipped : List (SkippedKey Key)

structure HeaderOutput where
  version : Nat
  pk : String
  ct : String
  seq : Int
  chainCounter : Int
  headerMac : String
  deriving DecidableEq

/-- The algorithms the ratchet is built from: the hybrid KEM, the HKDF derivations, the
header MAC, deflate, the JSON reading of frames of older builds, and NIP-44. -/
structure Primitives (Key Sk Secret Seed : Type) where
  hybridKeygen : Seed → Option (String × Sk)
  hybridEncapsulate : String → Seed → Option (String × Secret)
  hybridDecapsulate : String → Sk → Option Secret
  initRoot : Secret → String → Key
  deriveRootStep : Secret → Key → String → Key × Key
  deriveChain : Key → String → Key
  deriveMsgKey : Key → String → Key × Key
  headerMac : Option Key → String → String → Int → Int → Bytes
  deflate : Bytes → Option Bytes
  inflateLimited : Bytes → Option Bytes
  jsonPlaintext : Bytes → Option Bytes
  nip44Encrypt : Bytes → Key → Seed → Except String String
  nip44Decrypt : String → Key → Except String Bytes

structure Draws (Seed : Type) where
  encapsulation : Seed
  keypair : Seed
  nonce : Seed

variable {Key Sk Secret Seed : Type} (p : Primitives Key Sk Secret Seed)

def initState (peerPk context : String) (currentSk : Sk) (currentPk : String) : RatchetState Key Sk where
  version := ratchetVersion
  rootKey := none
  currentSk := currentSk
  currentPk := currentPk
  peerPk := peerPk
  context := context
  chainCounter := 0
  sendingChainKey := none
  sendingChainCounter := 0
  sendingEpochPeerPk := ""
  sendingCt := ""
  receivingChainKey := none
  receivingChainCounter := 0
  skipped := []
  prevEpochSkipped := []

def compressBytes (bytes : Bytes) : Except String Bytes :=
  if bytes.length > maxInputLen then .error "input too large"
  else
    match p.deflate bytes with
    | none => .error "deflate err"
    | some compressed => .ok (rawPlaintextTag :: compressed)

def decompressJson (compressed : Bytes) : Except String Bytes :=
  match compressed with
  | 0x7a :: 0x3a :: rest =>
    -- "z:" marks the base64 form of older builds.
    match fromUtf8 rest with
    | none => .error "bad utf8"
    | some src =>
      match base64Decode src with
      | none => .error "bad b64"
      | some bytes => (p.inflateLimited bytes).elim (.error "inflate err") .ok
  | _ => (p.inflateLimited compressed).elim (.error "inflate err") .ok

def decompressBytes (compressed : Bytes) : Except String Bytes :=
  match compressed with
  | [] => do
    let inflated ← decompressJson p []
    (p.jsonPlaintext inflated).elim (.error "bad json") .ok
  | first :: rest =>
    if first = rawPlaintextTag then (p.inflateLimited rest).elim (.error "inflate err") .ok
    else do
      let inflated ← decompressJson p (first :: rest)
      (p.jsonPlaintext inflated).elim (.error "bad json") .ok

def computeHeaderMac (rootKey : Option Key) (header : HeaderOutput) : String :=
  hexEncode (p.headerMac rootKey header.pk header.ct header.seq header.chainCounter)

def verifyHeaderMac (rootKey : Option Key) (header : HeaderOutput) : Bool :=
  hexDecode header.headerMac == some (p.headerMac rootKey header.pk header.ct header.seq header.chainCounter)

/-- What a message is sent with: the epoch that is current, or one just opened. -/
structure SendingEpoch (Key Sk : Type) where
  rootKey : Option Key
  chainKey : Key
  chainCounter : Int
  seq : Int
  peerPk : String
  ct : String
  sk : Sk
  pk : String

/-- The root and chain that a shared secret leads to, from the session's root if it has one. -/
def advanceRoot (rootKey : Option Key) (secret : Secret) (context : String) : Key × Key :=
  match rootKey with
  -- The first step derives its chain from the new root; later ones take both halves of one expansion.
  | none => (p.initRoot secret context, p.deriveChain (p.initRoot secret context) context)
  | some root => p.deriveRootStep secret root context

def openSendingEpoch (state : RatchetState Key Sk) (draws : Draws Seed) : Except String (SendingEpoch Key Sk) :=
  match p.hybridEncapsulate state.peerPk draws.encapsulation with
  | none => .error "bad peer pk hex"
  | some (ct, secret) =>
    let advanced := advanceRoot p state.rootKey secret state.context
    match p.hybridKeygen draws.keypair with
    | none => .error "rng failed"
    | some (pk, sk) => .ok
        { rootKey := some advanced.1, chainKey := advanced.2, chainCounter := state.chainCounter + 1, seq := 0,
          peerPk := state.peerPk, ct := ct, sk := sk, pk := pk }

/-- The epoch to send in: a new one before the first send and whenever the peer's key changed. -/
def sendingEpoch (state : RatchetState Key Sk) (draws : Draws Seed) : Except String (SendingEpoch Key Sk) :=
  match state.sendingChainKey with
  | none => openSendingEpoch p state draws
  | some chainKey =>
    if state.peerPk ≠ state.sendingEpochPeerPk then openSendingEpoch p state draws
    else .ok
      { rootKey := state.rootKey, chainKey := chainKey, chainCounter := state.chainCounter,
        seq := state.sendingChainCounter, peerPk := state.sendingEpochPeerPk, ct := state.sendingCt,
        sk := state.currentSk, pk := state.currentPk }

def SendingEpoch.header (epoch : SendingEpoch Key Sk) : HeaderOutput :=
  let header : HeaderOutput :=
    { version := ratchetVersion, pk := epoch.pk, ct := epoch.ct, seq := epoch.seq,
      chainCounter := epoch.chainCounter, headerMac := "" }
  { header with headerMac := computeHeaderMac p epoch.rootKey header }

def SendingEpoch.after (epoch : SendingEpoch Key Sk) (state : RatchetState Key Sk) : RatchetState Key Sk :=
  { state with
    version := ratchetVersion
    rootKey := epoch.rootKey
    currentSk := epoch.sk
    currentPk := epoch.pk
    chainCounter := epoch.chainCounter
    sendingChainKey := some (p.deriveMsgKey epoch.chainKey state.context).2
    sendingChainCounter := epoch.seq + 1
    sendingEpochPeerPk := epoch.peerPk
    sendingCt := epoch.ct }

def encryptRatchet (state : RatchetState Key Sk) (plaintext : Bytes) (draws : Draws Seed) :
    Except String (RatchetState Key Sk × HeaderOutput × String) := do
  if state.version ≠ ratchetVersion then throw "ratchet v3 required"
  if state.peerPk = "" then throw "no peer public key"
  let epoch ← sendingEpoch p state draws
  let compressed ← compressBytes p plaintext
  let ciphertext ← p.nip44Encrypt compressed (p.deriveMsgKey epoch.chainKey state.context).1 draws.nonce
  return (epoch.after p state, epoch.header p, ciphertext)

def checkHeader (state : RatchetState Key Sk) (header : HeaderOutput) (ciphertext : String) : Except String Unit := do
  if state.version ≠ ratchetVersion then throw "ratchet v3 required"
  if header.version ≠ ratchetVersion then throw "unsupported ratchet header version"
  if byteLen header.pk ≠ hybridPkLen * 2 then throw "bad pk size"
  if byteLen header.ct ≠ hybridCtLen * 2 then throw "bad ct size"
  if byteLen ciphertext > maxRatchetCiphertext then throw "ciphertext too large"
  -- One counter for both directions: the party's own sending epochs count here too.
  if header.chainCounter + 1 < state.chainCounter then throw "replay"
  if header.chainCounter > state.chainCounter + 1 then
    throw "message too far ahead of ratchet (lost messages; re-sync required)"

/-- The state, receiving chain and next expected position a message is opened with. -/
structure Receiving (Key Sk : Type) where
  out : RatchetState Key Sk
  chain : Key
  prevCounter : Int

/-- A header of the next epoch performs the root step; any other continues the receiving chain. -/
def receivingEpoch (state : RatchetState Key Sk) (header : HeaderOutput) (keypair : Seed) :
    Except String (Receiving Key Sk) :=
  if header.chainCounter = state.chainCounter + 1 then
    match p.hybridDecapsulate header.ct state.currentSk with
    | none => .error "bad ct/sk hex"
    | some secret =>
      let advanced := advanceRoot p state.rootKey secret state.context
      match p.hybridKeygen keypair with
      | none => .error "rng failed"
      | some (rotatedPk, rotatedSk) => .ok
          { out := { state with
              rootKey := some advanced.1
              chainCounter := header.chainCounter
              receivingChainCounter := 0
              -- What was retained before is dropped; only the epoch that ends here is kept.
              prevEpochSkipped := state.skipped.foldl (shiftIn maxRatchetWindow) []
              skipped := []
              currentSk := rotatedSk
              currentPk := rotatedPk }
            chain := advanced.2
            prevCounter := 0 }
  else
    match state.receivingChainKey with
    | none => .error "no receiving chain for chain_counter"
    | some chain => .ok { out := state, chain := chain, prevCounter := state.receivingChainCounter }

/-- Derives and buffers the keys of `gap` messages that have not arrived. -/
def skipKeys (context : String) : Nat → Int → Key → List (SkippedKey Key) → Key × List (SkippedKey Key)
  | 0, _, chain, skipped => (chain, skipped)
  | gap + 1, seq, chain, skipped =>
    let derived := p.deriveMsgKey chain context
    skipKeys context gap (seq + 1) derived.2 (push maxRatchetWindow skipped ⟨seq, derived.1⟩)

def takeSkipped (skipped : List (SkippedKey Key)) (seq : Int) : Except String (Key × List (SkippedKey Key)) :=
  match skipped.find? (·.seq == seq) with
  | none => .error "replay"
  | some entry => .ok (entry.key, skipped.eraseP (·.seq == seq))

structure MessageKey (Key Sk : Type) where
  out : RatchetState Key Sk
  key : Key
  macOk : Bool

/-- A message of the previous epoch opens from the retained keys only, and its header MAC is not checked. -/
def messageKey (state : RatchetState Key Sk) (header : HeaderOutput) (receiving : Receiving Key Sk) :
    Except String (MessageKey Key Sk) :=
  -- Decided by the counter before the call, not by the one a root step has just set.
  if header.chainCounter + 1 = state.chainCounter then do
    let (key, rest) ← takeSkipped receiving.out.prevEpochSkipped header.seq
    return { out := { receiving.out with prevEpochSkipped := rest }, key := key, macOk := false }
  else if header.seq < receiving.prevCounter then do
    let (key, rest) ← takeSkipped receiving.out.skipped header.seq
    return { out := { receiving.out with skipped := rest }, key := key, macOk := true }
  else
    let gap := header.seq - receiving.prevCounter
    if gap > maxRatchetWindow then
      .error "message too far ahead of ratchet (lost messages; re-sync required)"
    else
      let (chain, skipped) :=
        skipKeys p state.context gap.toNat receiving.prevCounter receiving.chain receiving.out.skipped
      let derived := p.deriveMsgKey chain state.context
      .ok
        { out := { receiving.out with
            skipped := skipped
            receivingChainKey := some derived.2
            receivingChainCounter := header.seq + 1 }
          key := derived.1
          macOk := true }

def adoptPeerKey (header : HeaderOutput) (taken : MessageKey Key Sk) : Except String (RatchetState Key Sk) :=
  if taken.macOk then
    if verifyHeaderMac p taken.out.rootKey header then .ok { taken.out with peerPk := header.pk }
    else .error "bad header mac"
  else .ok taken.out

def decryptRatchet (state : RatchetState Key Sk) (header : HeaderOutput) (ciphertext : String) (keypair : Seed) :
    Except String (RatchetState Key Sk × Bytes) := do
  checkHeader state header ciphertext
  let receiving ← receivingEpoch p state header keypair
  let taken ← messageKey p state header receiving
  let compressed ← p.nip44Decrypt ciphertext taken.key
  let plaintext ← decompressBytes p compressed
  let out ← adoptPeerKey p header taken
  return (out, plaintext)

/-- One position of a symmetric chain: the key of the message there, and the chain after it. -/
def chainStep (context : String) (chain : Key) : Key × Key := p.deriveMsgKey chain context

/-- The keys of `gap` messages from position `seq` on. -/
def gapKeys (context : String) (chain : Key) (seq : Int) (gap : Nat) : List (SkippedKey Key) :=
  (List.range gap).map fun (i : Nat) => ⟨seq + i, keyAt (chainStep p context) chain i⟩

theorem gapKeys_succ (context : String) (chain : Key) (seq : Int) (gap : Nat) :
    gapKeys p context chain seq (gap + 1) =
      ⟨seq, (chainStep p context chain).1⟩ :: gapKeys p context (chainStep p context chain).2 (seq + 1) gap := by
  simp only [gapKeys, List.range_succ_eq_map, List.map_cons, List.map_map, Nat.cast_zero, Int.add_zero]
  congr 1
  apply List.map_congr_left
  intro i _
  simp only [Function.comp, Nat.succ_eq_add_one, KeyChain.keyAt_succ_base, Nat.cast_add, Nat.cast_one]
  congr 1
  omega

theorem skipKeys_eq (context : String) (gap : Nat) (seq : Int) (chain : Key) (skipped : List (SkippedKey Key)) :
    skipKeys p context gap seq chain skipped =
      (chainAt (chainStep p context) chain gap,
        (gapKeys p context chain seq gap).foldl (push maxRatchetWindow) skipped) := by
  induction gap generalizing seq chain skipped with
  | zero => rfl
  | succ gap ih =>
    rw [skipKeys, ih, gapKeys_succ, List.foldl_cons, ← KeyChain.chainAt_succ_base]
    rfl

theorem takeSkipped_ok {skipped rest : List (SkippedKey Key)} {seq : Int} {key : Key}
    (taken : takeSkipped skipped seq = .ok (key, rest)) :
    ⟨seq, key⟩ ∈ skipped ∧ rest = skipped.eraseP (·.seq == seq) := by
  unfold takeSkipped at taken
  cases found : skipped.find? (·.seq == seq) with
  | none => simp [found] at taken
  | some entry =>
    simp only [found, Except.ok.injEq, Prod.mk.injEq] at taken
    obtain ⟨rfl, rfl⟩ := taken
    have same : entry.seq = seq := by simpa using List.find?_some found
    exact ⟨same ▸ List.mem_of_find?_eq_some found, rfl⟩

structure Admitted (state : RatchetState Key Sk) (header : HeaderOutput) (ciphertext : String) : Prop where
  version : state.version = ratchetVersion
  headerVersion : header.version = ratchetVersion
  pkLength : byteLen header.pk = hybridPkLen * 2
  ctLength : byteLen header.ct = hybridCtLen * 2
  short : byteLen ciphertext ≤ maxRatchetCiphertext
  recent : state.chainCounter ≤ header.chainCounter + 1
  near : header.chainCounter ≤ state.chainCounter + 1

variable {state : RatchetState Key Sk} {header : HeaderOutput}

theorem checkHeader_ok {ciphertext : String} :
    checkHeader state header ciphertext = .ok () ↔ Admitted state header ciphertext := by
  simp only [checkHeader, bind, Except.bind, pure, Except.pure, throw, throwThe, MonadExceptOf.throw, guard_eq_ok,
    not_not, Int.not_lt, Nat.not_lt, and_true, gt_iff_lt]
  constructor
  · rintro ⟨version, headerVersion, pkLength, ctLength, short, recent, near⟩
    exact ⟨version, headerVersion, pkLength, ctLength, short, recent, near⟩
  · intro admitted
    exact ⟨admitted.version, admitted.headerVersion, admitted.pkLength, admitted.ctLength, admitted.short,
      admitted.recent, admitted.near⟩

variable {p}

/-- The state after the root step of a header of the next epoch. -/
def joined (state : RatchetState Key Sk) (header : HeaderOutput) (root : Key) (pk : String) (sk : Sk) :
    RatchetState Key Sk :=
  { state with
    rootKey := some root
    chainCounter := header.chainCounter
    receivingChainCounter := 0
    prevEpochSkipped := state.skipped.foldl (shiftIn maxRatchetWindow) []
    skipped := []
    currentSk := sk
    currentPk := pk }

theorem receivingEpoch_ok {keypair : Seed}
    {receiving : Receiving Key Sk} (opened : receivingEpoch p state header keypair = .ok receiving) :
    (header.chainCounter = state.chainCounter + 1 ∧ ∃ secret pk sk,
      p.hybridDecapsulate header.ct state.currentSk = some secret ∧ p.hybridKeygen keypair = some (pk, sk) ∧
      receiving =
        { out := joined state header (advanceRoot p state.rootKey secret state.context).1 pk sk
          chain := (advanceRoot p state.rootKey secret state.context).2
          prevCounter := 0 }) ∨
    (header.chainCounter ≠ state.chainCounter + 1 ∧ ∃ chain, state.receivingChainKey = some chain ∧
      receiving = { out := state, chain := chain, prevCounter := state.receivingChainCounter }) := by
  unfold receivingEpoch at opened
  split at opened
  case isTrue next =>
    cases decapsulated : p.hybridDecapsulate header.ct state.currentSk with
    | none => simp [decapsulated] at opened
    | some secret =>
      cases generated : p.hybridKeygen keypair with
      | none => simp [decapsulated, generated] at opened
      | some pair =>
        simp only [decapsulated, generated, Except.ok.injEq] at opened
        exact .inl ⟨next, secret, pair.1, pair.2, rfl, rfl, opened.symm⟩
  case isFalse other =>
    cases chained : state.receivingChainKey with
    | none => simp [chained] at opened
    | some chain =>
      simp only [chained, Except.ok.injEq] at opened
      exact .inr ⟨other, chain, rfl, opened.symm⟩

inductive KeySource (state : RatchetState Key Sk) (header : HeaderOutput) (receiving : Receiving Key Sk) :
    MessageKey Key Sk → Prop where
  | late {key : Key} {rest : List (SkippedKey Key)} : header.chainCounter + 1 = state.chainCounter →
      takeSkipped receiving.out.prevEpochSkipped header.seq = .ok (key, rest) →
      KeySource state header receiving
        { out := { receiving.out with prevEpochSkipped := rest }, key := key, macOk := false }
  | kept {key : Key} {rest : List (SkippedKey Key)} : header.chainCounter + 1 ≠ state.chainCounter →
      header.seq < receiving.prevCounter → takeSkipped receiving.out.skipped header.seq = .ok (key, rest) →
      KeySource state header receiving { out := { receiving.out with skipped := rest }, key := key, macOk := true }
  | advanced (gap : Nat) : header.chainCounter + 1 ≠ state.chainCounter →
      header.seq = receiving.prevCounter + gap → gap ≤ maxRatchetWindow →
      KeySource state header receiving
        { out := { receiving.out with
            skipped := (gapKeys p state.context receiving.chain receiving.prevCounter gap).foldl
              (push maxRatchetWindow) receiving.out.skipped
            receivingChainKey := some (chainAt (chainStep p state.context) receiving.chain (gap + 1))
            receivingChainCounter := header.seq + 1 }
          key := keyAt (chainStep p state.context) receiving.chain gap
          macOk := true }

theorem messageKey_ok {receiving : Receiving Key Sk}
    {taken : MessageKey Key Sk} (found : messageKey p state header receiving = .ok taken) :
    KeySource (p := p) state header receiving taken := by
  unfold messageKey at found
  split at found
  case isTrue previous =>
    obtain ⟨⟨key, rest⟩, kept, same⟩ := bind_eq_ok.mp found
    cases same
    exact .late previous kept
  case isFalse other =>
    split at found
    case isTrue before =>
      obtain ⟨⟨key, rest⟩, kept, same⟩ := bind_eq_ok.mp found
      cases same
      exact .kept other before kept
    case isFalse reached =>
      obtain ⟨near, same⟩ := guard_eq_ok.mp found
      rw [skipKeys_eq] at same
      cases same
      have position : header.seq = receiving.prevCounter + (header.seq - receiving.prevCounter).toNat := by omega
      exact .advanced _ other position (by omega)

theorem adoptPeerKey_ok {taken : MessageKey Key Sk} {after : RatchetState Key Sk}
    (adopted : adoptPeerKey p header taken = .ok after) :
    (taken.macOk = true ∧ after = { taken.out with peerPk := header.pk }) ∨
      (taken.macOk = false ∧ after = taken.out) := by
  unfold adoptPeerKey at adopted
  cases verified : taken.macOk with
  | false =>
    rw [verified] at adopted
    cases adopted
    exact .inr ⟨rfl, rfl⟩
  | true =>
    simp only [verified, ↓reduceIte] at adopted
    split at adopted
    · cases adopted
      exact .inl ⟨rfl, rfl⟩
    · cases adopted

theorem decryptRatchet_ok {state after : RatchetState Key Sk} {ciphertext : String}
    {keypair : Seed} {plaintext : Bytes}
    (decrypted : decryptRatchet p state header ciphertext keypair = .ok (after, plaintext)) :
    Admitted state header ciphertext ∧ ∃ receiving taken compressed,
      receivingEpoch p state header keypair = .ok receiving ∧ messageKey p state header receiving = .ok taken ∧
      p.nip44Decrypt ciphertext taken.key = .ok compressed ∧ decompressBytes p compressed = .ok plaintext ∧
      adoptPeerKey p header taken = .ok after := by
  obtain ⟨_, passed, rest⟩ := bind_eq_ok.mp decrypted
  obtain ⟨receiving, opened, rest⟩ := bind_eq_ok.mp rest
  obtain ⟨taken, found, rest⟩ := bind_eq_ok.mp rest
  obtain ⟨compressed, unsealed, rest⟩ := bind_eq_ok.mp rest
  obtain ⟨text, inflated, rest⟩ := bind_eq_ok.mp rest
  obtain ⟨out, adopted, same⟩ := bind_eq_ok.mp rest
  cases same
  exact ⟨checkHeader_ok.mp passed, receiving, taken, compressed, opened, found, unsealed, inflated, adopted⟩

/-- The epoch that a fresh encapsulation to the peer's key opens. -/
def OpensEpoch (p : Primitives Key Sk Secret Seed) (state : RatchetState Key Sk) (draws : Draws Seed)
    (epoch : SendingEpoch Key Sk) : Prop :=
  ∃ ct secret pk sk, p.hybridEncapsulate state.peerPk draws.encapsulation = some (ct, secret) ∧
    p.hybridKeygen draws.keypair = some (pk, sk) ∧
    epoch =
      { rootKey := some (advanceRoot p state.rootKey secret state.context).1
        chainKey := (advanceRoot p state.rootKey secret state.context).2
        chainCounter := state.chainCounter + 1, seq := 0, peerPk := state.peerPk, ct := ct, sk := sk, pk := pk }

theorem openSendingEpoch_ok {draws : Draws Seed} {epoch : SendingEpoch Key Sk}
    (opened : openSendingEpoch p state draws = .ok epoch) : OpensEpoch p state draws epoch := by
  unfold openSendingEpoch at opened
  cases encapsulated : p.hybridEncapsulate state.peerPk draws.encapsulation with
  | none => simp [encapsulated] at opened
  | some shared =>
    cases generated : p.hybridKeygen draws.keypair with
    | none => simp [encapsulated, generated] at opened
    | some pair =>
      simp only [encapsulated, generated, Except.ok.injEq] at opened
      exact ⟨shared.1, shared.2, pair.1, pair.2, encapsulated, generated, opened.symm⟩

theorem sendingEpoch_ok {draws : Draws Seed} {epoch : SendingEpoch Key Sk}
    (chosen : sendingEpoch p state draws = .ok epoch) :
    OpensEpoch p state draws epoch ∨
    (∃ chain, state.sendingChainKey = some chain ∧ state.peerPk = state.sendingEpochPeerPk ∧
      epoch =
        { rootKey := state.rootKey, chainKey := chain, chainCounter := state.chainCounter,
          seq := state.sendingChainCounter, peerPk := state.sendingEpochPeerPk, ct := state.sendingCt,
          sk := state.currentSk, pk := state.currentPk }) := by
  unfold sendingEpoch at chosen
  cases chained : state.sendingChainKey with
  | none =>
    rw [chained] at chosen
    exact .inl (openSendingEpoch_ok chosen)
  | some chain =>
    simp only [chained] at chosen
    split at chosen
    case isTrue => exact .inl (openSendingEpoch_ok chosen)
    case isFalse same =>
      cases chosen
      exact .inr ⟨chain, rfl, not_not.mp same, rfl⟩

theorem encryptRatchet_ok {state after : RatchetState Key Sk} {plaintext : Bytes} {draws : Draws Seed}
    {header : HeaderOutput} {ciphertext : String}
    (encrypted : encryptRatchet p state plaintext draws = .ok (after, header, ciphertext)) :
    state.version = ratchetVersion ∧ state.peerPk ≠ "" ∧ ∃ epoch compressed,
      sendingEpoch p state draws = .ok epoch ∧ compressBytes p plaintext = .ok compressed ∧
      p.nip44Encrypt compressed (chainStep p state.context epoch.chainKey).1 draws.nonce = .ok ciphertext ∧
      after = epoch.after p state ∧ header = epoch.header p := by
  simp only [encryptRatchet, bind, Except.bind, pure, Except.pure, throw, throwThe, MonadExceptOf.throw, guard_eq_ok,
    not_not] at encrypted
  obtain ⟨version, addressed, rest⟩ := encrypted
  obtain ⟨epoch, chosen, rest⟩ := bind_eq_ok.mp rest
  obtain ⟨compressed, deflated, rest⟩ := bind_eq_ok.mp rest
  obtain ⟨sealed, encrypted, same⟩ := bind_eq_ok.mp rest
  cases same
  exact ⟨version, addressed, epoch, compressed, chosen, deflated, encrypted, rfl, rfl⟩

theorem sendingEpoch_continues {chain : Key}
    (chained : state.sendingChainKey = some chain) (same : state.peerPk = state.sendingEpochPeerPk)
    (draws : Draws Seed) :
    sendingEpoch p state draws = .ok
      { rootKey := state.rootKey, chainKey := chain, chainCounter := state.chainCounter,
        seq := state.sendingChainCounter, peerPk := state.sendingEpochPeerPk, ct := state.sendingCt,
        sk := state.currentSk, pk := state.currentPk } := by
  simp only [sendingEpoch, chained, if_neg (not_not.mpr same)]

theorem encryptRatchet_of {plaintext compressed : Bytes} {draws : Draws Seed}
    {epoch : SendingEpoch Key Sk} {ciphertext : String} (version : state.version = ratchetVersion)
    (addressed : state.peerPk ≠ "") (chosen : sendingEpoch p state draws = .ok epoch)
    (deflated : compressBytes p plaintext = .ok compressed)
    (sealed : p.nip44Encrypt compressed (chainStep p state.context epoch.chainKey).1 draws.nonce = .ok ciphertext) :
    encryptRatchet p state plaintext draws = .ok (epoch.after p state, epoch.header p, ciphertext) := by
  rw [chainStep] at sealed
  rw [encryptRatchet, if_neg (not_not.mpr version), if_neg addressed]
  simp only [chosen, deflated, sealed, bind, Except.bind, pure, Except.pure]

theorem verifyHeaderMac_header (epoch : SendingEpoch Key Sk) :
    verifyHeaderMac p epoch.rootKey (epoch.header p) = true := by
  simp [verifyHeaderMac, SendingEpoch.header, computeHeaderMac]

theorem decryptRatchet_of {ciphertext : String} {keypair : Seed}
    {receiving : Receiving Key Sk} {taken : MessageKey Key Sk} {compressed plaintext : Bytes}
    (admitted : Admitted state header ciphertext) (joins : receivingEpoch p state header keypair = .ok receiving)
    (found : messageKey p state header receiving = .ok taken)
    (opened : p.nip44Decrypt ciphertext taken.key = .ok compressed)
    (inflated : decompressBytes p compressed = .ok plaintext) (current : taken.macOk = true)
    (verified : verifyHeaderMac p taken.out.rootKey header = true) :
    decryptRatchet p state header ciphertext keypair = .ok ({ taken.out with peerPk := header.pk }, plaintext) := by
  simp only [decryptRatchet, checkHeader_ok.mpr admitted, joins, found, opened, inflated, adoptPeerKey, current,
    verified, ↓reduceIte, bind, Except.bind, pure, Except.pure]

theorem messageKey_advances {receiving : Receiving Key Sk}
    {gap : Nat}
    (current : header.chainCounter + 1 ≠ state.chainCounter) (position : header.seq = receiving.prevCounter + gap)
    (near : gap ≤ maxRatchetWindow) :
    messageKey p state header receiving = .ok
      { out := { receiving.out with
          skipped := (gapKeys p state.context receiving.chain receiving.prevCounter gap).foldl
            (push maxRatchetWindow) receiving.out.skipped
          receivingChainKey := some (chainAt (chainStep p state.context) receiving.chain (gap + 1))
          receivingChainCounter := header.seq + 1 }
        key := keyAt (chainStep p state.context) receiving.chain gap
        macOk := true } := by
  have distance : header.seq - receiving.prevCounter = gap := by omega
  rw [messageKey, if_neg current, if_neg (by omega)]
  simp only [distance, Int.toNat_natCast, skipKeys_eq]
  rw [if_neg (by omega)]
  rfl

theorem takeSkipped_of_mem {skipped : List (SkippedKey Key)} {entry : SkippedKey Key} (member : entry ∈ skipped)
    (once : (skipped.map (·.seq)).Nodup) :
    takeSkipped skipped entry.seq = .ok (entry.key, skipped.eraseP (·.seq == entry.seq)) := by
  have found : skipped.find? (·.seq == entry.seq) = some entry := by
    induction skipped with
    | nil => cases member
    | cons first rest ih =>
      rw [List.map_cons, List.nodup_cons] at once
      obtain rfl | later := List.mem_cons.mp member
      · rw [List.find?_cons_of_pos (by simp)]
      · rw [List.find?_cons_of_neg, ih later once.2]
        intro same
        exact once.1 (List.mem_map.mpr ⟨entry, later, (by simpa using same : first.seq = entry.seq).symm⟩)
  rw [takeSkipped, found]

theorem messageKey_keeps {receiving : Receiving Key Sk}
    {key : Key}
    (current : header.chainCounter + 1 ≠ state.chainCounter) (before : header.seq < receiving.prevCounter)
    (member : ⟨header.seq, key⟩ ∈ receiving.out.skipped) (once : (receiving.out.skipped.map (·.seq)).Nodup) :
    messageKey p state header receiving = .ok
      { out := { receiving.out with skipped := receiving.out.skipped.eraseP (·.seq == header.seq) }
        key := key
        macOk := true } := by
  rw [messageKey, if_neg current, if_pos before, takeSkipped_of_mem member once]
  rfl

theorem receivingEpoch_joins {keypair : Seed} {secret : Secret}
    {pk : String} {sk : Sk} (next : header.chainCounter = state.chainCounter + 1)
    (decapsulated : p.hybridDecapsulate header.ct state.currentSk = some secret)
    (generated : p.hybridKeygen keypair = some (pk, sk)) :
    receivingEpoch p state header keypair = .ok
      { out := joined state header (advanceRoot p state.rootKey secret state.context).1 pk sk
        chain := (advanceRoot p state.rootKey secret state.context).2
        prevCounter := 0 } := by
  simp only [receivingEpoch, next, ↓reduceIte, decapsulated, generated, joined]

theorem receivingEpoch_stays {keypair : Seed} {chain : Key}
    (other : header.chainCounter ≠ state.chainCounter + 1) (chained : state.receivingChainKey = some chain) :
    receivingEpoch p state header keypair =
      .ok { out := state, chain := chain, prevCounter := state.receivingChainCounter } := by
  simp only [receivingEpoch, if_neg other, chained]

end Soshal.Crypto
