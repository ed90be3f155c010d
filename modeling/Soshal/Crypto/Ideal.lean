import Soshal.Crypto.Ratchet

/-! Ideal primitives.

An ideal KEM returns to the holder of the secret key what was encapsulated; an
ideal KDF gives different outputs for different inputs, where the label tells the
derivations apart that have a salt or an info text of their own, or read another
half of the output; an ideal cipher opens under the key it sealed with and under
no other.
-/

set_option autoImplicit false

namespace Soshal.Crypto

open Library
open Library.Text (byteLen)
open Library.KeyChain (push chainAt keyAt)
open Library.Fallible (guard_eq_ok)

inductive Derivation (Key Secret : Type) where
  | initRoot (secret : Secret) (context : String)
  | stepRoot (secret : Secret) (root : Key) (context : String)
  | stepChain (secret : Secret) (root : Key) (context : String)
  | chain (root : Key) (context : String)
  | msgKey (chain : Key) (context : String)
  | nextChain (chain : Key) (context : String)

variable {Key Sk Secret Seed : Type}

def Primitives.derive (p : Primitives Key Sk Secret Seed) : Derivation Key Secret → Key
  | .initRoot secret context => p.initRoot secret context
  | .stepRoot secret root context => (p.deriveRootStep secret root context).1
  | .stepChain secret root context => (p.deriveRootStep secret root context).2
  | .chain root context => p.deriveChain root context
  | .msgKey chain context => (p.deriveMsgKey chain context).1
  | .nextChain chain context => (p.deriveMsgKey chain context).2

structure Ideal (p : Primitives Key Sk Secret Seed) : Prop where
  generates : ∀ seed, ∃ pk sk, p.hybridKeygen seed = some (pk, sk)
  pkLength : ∀ {seed pk sk}, p.hybridKeygen seed = some (pk, sk) → byteLen pk = hybridPkLen * 2
  ctLength : ∀ {pk draw ct secret}, p.hybridEncapsulate pk draw = some (ct, secret) → byteLen ct = hybridCtLen * 2
  decapsulates : ∀ {seed pk sk draw ct secret}, p.hybridKeygen seed = some (pk, sk) →
    p.hybridEncapsulate pk draw = some (ct, secret) → p.hybridDecapsulate ct sk = some secret
  separates : ∀ {x y}, p.derive x = p.derive y → x = y
  opens : ∀ {plaintext key nonce ciphertext}, p.nip44Encrypt plaintext key nonce = .ok ciphertext →
    p.nip44Decrypt ciphertext key = .ok plaintext
  refuses : ∀ {plaintext key nonce ciphertext other text}, p.nip44Encrypt plaintext key nonce = .ok ciphertext →
    p.nip44Decrypt ciphertext other = .ok text → other = key
  inflates : ∀ {bytes deflated}, bytes.length ≤ maxInputLen → p.deflate bytes = some deflated →
    p.inflateLimited deflated = some bytes

variable {p : Primitives Key Sk Secret Seed}

namespace Ideal

theorem key_context (ideal : Ideal p) {chain other : Key} {context foreign : String}
    (same : (chainStep p context chain).1 = (chainStep p foreign other).1) : chain = other ∧ context = foreign := by
  have inputs := ideal.separates (x := .msgKey chain context) (y := .msgKey other foreign) same
  cases inputs
  exact ⟨rfl, rfl⟩

theorem decompress (ideal : Ideal p) {plaintext compressed : Bytes}
    (deflated : compressBytes p plaintext = .ok compressed) : decompressBytes p compressed = .ok plaintext := by
  obtain ⟨small, deflated⟩ := guard_eq_ok.mp deflated
  cases packed : p.deflate plaintext with
  | none => simp [packed] at deflated
  | some bytes =>
    simp only [packed] at deflated
    cases deflated
    have unpacked := ideal.inflates (Nat.not_lt.mp small) packed
    simp only [decompressBytes, ↓reduceIte, unpacked, Option.elim_some]

end Ideal

/-- A message of one context never opens at a party that has received nothing and uses another context,
whatever header it comes with. -/
theorem foreign_context_refused (ideal : Ideal p) {sender receiver after opened : RatchetState Key Sk}
    {plaintext text : Bytes} {draws : Draws Seed} {keypair : Seed} {sent header : HeaderOutput} {ciphertext : String}
    (foreign : sender.context ≠ receiver.context) (unused : receiver.receivingChainKey = none)
    (encrypted : encryptRatchet p sender plaintext draws = .ok (after, sent, ciphertext)) :
    decryptRatchet p receiver header ciphertext keypair ≠ .ok (opened, text) := by
  intro decrypted
  obtain ⟨_, _, epoch, compressed, _, _, sealed, _, _⟩ := encryptRatchet_ok encrypted
  obtain ⟨_, receiving, taken, bytes, joins, found, unsealed, _, _⟩ := decryptRatchet_ok decrypted
  obtain ⟨next, secret, pk, sk, _, _, rfl⟩ | ⟨_, chain, chained, _⟩ := receivingEpoch_ok joins
  · cases messageKey_ok found with
    | late previous _ => omega
    | kept _ _ taken => cases taken
    | advanced gap _ _ _ =>
      obtain ⟨_, same⟩ := ideal.key_context (ideal.refuses sealed unsealed).symm
      exact foreign same
  · rw [unused] at chained
    cases chained

/-- A header that the checks before any KEM work let pass, its distance apart. -/
structure WellFormed (header : HeaderOutput) (ciphertext : String) : Prop where
  version : header.version = ratchetVersion
  pkLength : byteLen header.pk = hybridPkLen * 2
  ctLength : byteLen header.ct = hybridCtLen * 2
  short : byteLen ciphertext ≤ maxRatchetCiphertext

/-- A message of the next epoch opens at a party that decapsulates its secret from the same root. -/
theorem Ideal.joins (ideal : Ideal p) {state : RatchetState Key Sk} {header : HeaderOutput} {ciphertext : String}
    {secret : Secret} {gap : Nat} {compressed plaintext : Bytes} (version : state.version = ratchetVersion)
    (formed : WellFormed header ciphertext) (next : header.chainCounter = state.chainCounter + 1)
    (decapsulated : p.hybridDecapsulate header.ct state.currentSk = some secret) (position : header.seq = gap)
    (near : gap ≤ maxRatchetWindow)
    (opened : p.nip44Decrypt ciphertext
      (keyAt (chainStep p state.context) (advanceRoot p state.rootKey secret state.context).2 gap) = .ok compressed)
    (deflated : compressBytes p plaintext = .ok compressed)
    (verified : verifyHeaderMac p (some (advanceRoot p state.rootKey secret state.context).1) header = true)
    (keypair : Seed) :
    ∃ pk sk, p.hybridKeygen keypair = some (pk, sk) ∧
      decryptRatchet p state header ciphertext keypair = .ok
        ({ joined state header (advanceRoot p state.rootKey secret state.context).1 pk sk with
           peerPk := header.pk
           skipped := (gapKeys p state.context (advanceRoot p state.rootKey secret state.context).2 0 gap).foldl
             (push maxRatchetWindow) []
           receivingChainKey := some
             (chainAt (chainStep p state.context) (advanceRoot p state.rootKey secret state.context).2 (gap + 1))
           receivingChainCounter := gap + 1 }, plaintext) := by
  obtain ⟨pk, sk, generated⟩ := ideal.generates keypair
  refine ⟨pk, sk, generated, ?_⟩
  have admitted : Admitted state header ciphertext :=
    ⟨version, formed.version, formed.pkLength, formed.ctLength, formed.short, by omega, by omega⟩
  have found := @messageKey_advances _ _ _ _ p state header
    ⟨joined state header (advanceRoot p state.rootKey secret state.context).1 pk sk,
      (advanceRoot p state.rootKey secret state.context).2, 0⟩ gap (by omega) (position.trans (Int.zero_add _).symm) near
  rw [← position]
  exact decryptRatchet_of admitted (receivingEpoch_joins next decapsulated generated) found opened
    (ideal.decompress deflated) rfl verified

/-- The first message of a session opens at the holder of the key it was encapsulated to, whoever sent it. -/
theorem Ideal.first_message_opens (ideal : Ideal p) {sender after receiver : RatchetState Key Sk} {seed : Seed}
    (addressee : p.hybridKeygen seed = some (sender.peerPk, receiver.currentSk))
    (version : receiver.version = ratchetVersion) (context : receiver.context = sender.context)
    (roots : sender.rootKey = none ∧ receiver.rootKey = none)
    (counters : sender.chainCounter = 0 ∧ receiver.chainCounter = 0) (silent : sender.sendingChainKey = none)
    {plaintext : Bytes} {draws : Draws Seed} {header : HeaderOutput} {ciphertext : String}
    (encrypted : encryptRatchet p sender plaintext draws = .ok (after, header, ciphertext))
    (short : byteLen ciphertext ≤ maxRatchetCiphertext) (keypair : Seed) :
    ∃ opened, decryptRatchet p receiver header ciphertext keypair = .ok (opened, plaintext) ∧
      opened.version = ratchetVersion ∧ opened.peerPk = header.pk ∧
      opened.sendingChainKey = receiver.sendingChainKey ∧ opened.chainCounter = header.chainCounter ∧
      opened.context = receiver.context ∧ opened.rootKey = after.rootKey := by
  obtain ⟨_, _, epoch, compressed, chosen, deflated, sealed, rfl, rfl⟩ := encryptRatchet_ok encrypted
  obtain ⟨ct, secret, pk, sk, encapsulated, generated, opened⟩ | ⟨chain, chained, _⟩ := sendingEpoch_ok chosen
  · have formed : WellFormed (epoch.header p) ciphertext := by
      rw [opened]
      exact ⟨rfl, ideal.pkLength generated, ideal.ctLength encapsulated, short⟩
    have decapsulated : p.hybridDecapsulate (epoch.header p).ct receiver.currentSk = some secret := by
      rw [opened]
      exact ideal.decapsulates addressee encapsulated
    have next : (epoch.header p).chainCounter = receiver.chainCounter + 1 := by
      rw [opened, counters.2, ← counters.1]
      rfl
    have first : (epoch.header p).seq = (0 : Nat) := by
      rw [opened]
      rfl
    have same : advanceRoot p receiver.rootKey secret receiver.context =
        advanceRoot p sender.rootKey secret sender.context := by rw [roots.1, roots.2, context]
    have unsealed : p.nip44Decrypt ciphertext (keyAt (chainStep p receiver.context)
        (advanceRoot p receiver.rootKey secret receiver.context).2 0) = .ok compressed := by
      rw [same, context]
      rw [opened] at sealed
      exact ideal.opens sealed
    have verified := verifyHeaderMac_header (p := p) epoch
    have root : epoch.rootKey = some (advanceRoot p receiver.rootKey secret receiver.context).1 := by rw [same, opened]
    rw [root] at verified
    obtain ⟨_, _, _, opens⟩ :=
      ideal.joins version formed next decapsulated first (Nat.zero_le _) unsealed deflated verified keypair
    exact ⟨_, opens, version, rfl, rfl, rfl, rfl, root.symm⟩
  · rw [silent] at chained
    cases chained

end Soshal.Crypto
