import Soshal.Crypto.Padding

/-! Blobs of older builds: a salt, a version byte that the oldest ones lack, and a
text sealed with ChaCha20-Poly1305.

They carry no mark of their own, so the reader goes by the first byte and the
length, and then by the byte behind the salt. What is relied on of the cipher is
that a sealed text opens, is longer by its tag, and does not open once bytes are
cut off its front.
-/

set_option autoImplicit false

namespace Soshal.Crypto

open Library
open Library.Text (utf8)
open Library.Encoding (base64Encode base64Decode)

def versionLegacy : UInt8 := 1
def derivedLen : Nat := 76
def keyLen : Nat := 32
def tagLen : Nat := 16
def nip44Info : Bytes := utf8 "nip44-v2"

structure LegacyCipher where
  hkdfSha256 : Bytes → Bytes → Bytes → Nat → Option Bytes
  aeadEncrypt : Bytes → Bytes → Bytes → Bytes → Option Bytes
  aeadDecrypt : Bytes → Bytes → Bytes → Bytes → Option Bytes
  decrypt_encrypt : ∀ {key nonce aad text sealed}, aeadEncrypt key nonce aad text = some sealed →
    aeadDecrypt key nonce aad sealed = some text
  encrypt_length : ∀ {key nonce aad text sealed}, aeadEncrypt key nonce aad text = some sealed →
    sealed.length = text.length + tagLen
  -- The tag is over the whole ciphertext.
  decrypt_cut : ∀ {key nonce aad text sealed}, aeadEncrypt key nonce aad text = some sealed →
    ∀ cut, 0 < cut → aeadDecrypt key nonce aad (sealed.drop cut) = none

structure LegacyKeys where
  enc : Bytes
  nonce : Bytes
  aad : Bytes

namespace LegacyCipher

variable (cipher : LegacyCipher)

def deriveKeys (key salt : Bytes) : Except String LegacyKeys :=
  match cipher.hkdfSha256 key salt nip44Info derivedLen with
  | none => .error "hkdf failed"
  | some derived => .ok
      { enc := derived.take keyLen
        nonce := (derived.drop keyLen).drop keyLen
        aad := nip44Info ++ (derived.drop keyLen).take keyLen }

/-- The encoder of older builds, kept for the tests of the reader. -/
def encryptPadded (plaintext key salt : Bytes) : Except String Bytes :=
  match cipher.deriveKeys key salt with
  | .error e => .error e
  | .ok keys =>
    match cipher.aeadEncrypt keys.enc keys.nonce keys.aad plaintext with
    | none => .error "encrypt failed"
    | some ciphertext => .ok (salt ++ versionLegacy :: ciphertext)

def unpadVersion (version : UInt8) (plaintext : Bytes) : Except String Bytes :=
  if version = versionLegacy then .ok plaintext
  else if version ≠ versionPadded then .error "unsupported payload version"
  else unpadInPlace plaintext

def decryptLegacy (decoded key : Bytes) : Except String Bytes :=
  match decoded.drop saltLen with
  | [] => .error "payload too short"
  | marker :: rest =>
    let tagged := marker = versionLegacy ∨ marker = versionPadded
    match cipher.deriveKeys key (decoded.take saltLen) with
    | .error e => .error e
    | .ok keys =>
      let opens := cipher.aeadDecrypt keys.enc keys.nonce keys.aad
      match opens (if tagged then rest else marker :: rest) with
      | some plaintext => unpadVersion (if tagged then marker else versionLegacy) plaintext
      | none =>
        -- What looked like a version byte was the first byte of the ciphertext.
        if tagged then
          match opens (marker :: rest) with
          | some plaintext => unpadVersion versionLegacy plaintext
          | none => .error "decrypt failed"
        else .error "decrypt failed"

end LegacyCipher

/-- The form of the blobs from before there was a version byte. -/
def untagged (blob : Bytes) : Bytes := blob.take saltLen ++ blob.drop (saltLen + 1)

def Nip44.withLegacy {Key Seed : Type} (nip44 : Nip44 Key Seed) (cipher : LegacyCipher) : Nip44 Key Seed :=
  { nip44 with decryptLegacy := fun decoded key => cipher.decryptLegacy decoded (nip44.keyBytes key) }

namespace LegacyCipher

variable {cipher : LegacyCipher}

theorem encryptPadded_ok {plaintext key salt blob : Bytes}
    (encrypted : cipher.encryptPadded plaintext key salt = .ok blob) :
    ∃ keys ciphertext, cipher.deriveKeys key salt = .ok keys ∧
      cipher.aeadEncrypt keys.enc keys.nonce keys.aad plaintext = some ciphertext ∧
      blob = salt ++ versionLegacy :: ciphertext := by
  unfold encryptPadded at encrypted
  cases derived : cipher.deriveKeys key salt with
  | error e => simp [derived] at encrypted
  | ok keys =>
    cases sealed : cipher.aeadEncrypt keys.enc keys.nonce keys.aad plaintext with
    | none => simp [derived, sealed] at encrypted
    | some ciphertext =>
      simp only [derived, sealed, Except.ok.injEq] at encrypted
      exact ⟨keys, ciphertext, rfl, sealed, encrypted.symm⟩

section

variable {plaintext key salt ciphertext : Bytes} {keys : LegacyKeys} (saltSize : salt.length = saltLen)
  (derived : cipher.deriveKeys key salt = .ok keys)
  (sealed : cipher.aeadEncrypt keys.enc keys.nonce keys.aad plaintext = some ciphertext)
include saltSize derived sealed

theorem decryptLegacy_tagged : cipher.decryptLegacy (salt ++ versionLegacy :: ciphertext) key = .ok plaintext := by
  simp only [decryptLegacy, ← saltSize, List.drop_left, List.take_left, derived, true_or, if_true,
    cipher.decrypt_encrypt sealed, unpadVersion]

/-- Without a version byte the first byte of the ciphertext stands in its place: where it reads as one, the text behind
it does not open, and the whole is tried again. -/
theorem decryptLegacy_untagged : cipher.decryptLegacy (salt ++ ciphertext) key = .ok plaintext := by
  have opened := cipher.decrypt_encrypt sealed
  have longer := cipher.encrypt_length sealed
  have cut := cipher.decrypt_cut sealed 1 Nat.zero_lt_one
  cases ciphertext with
  | nil => simp [tagLen] at longer
  | cons first rest =>
    simp only [List.drop_one, List.tail_cons] at cut
    simp only [decryptLegacy, ← saltSize, List.drop_left, List.take_left, derived]
    by_cases tagged : first = versionLegacy ∨ first = versionPadded
    · simp only [if_pos tagged, cut, opened, unpadVersion, if_true]
    · simp only [if_neg tagged, opened, unpadVersion, if_true]

end

theorem decryptLegacy_encryptPadded {plaintext key salt blob form : Bytes} (saltSize : salt.length = saltLen)
    (encrypted : cipher.encryptPadded plaintext key salt = .ok blob) (either : form = blob ∨ form = untagged blob) :
    saltLen < form.length ∧ cipher.decryptLegacy form key = .ok plaintext := by
  obtain ⟨keys, ciphertext, derived, sealed, rfl⟩ := encryptPadded_ok encrypted
  have longer := cipher.encrypt_length sealed
  obtain rfl | rfl := either
  · refine ⟨?_, decryptLegacy_tagged saltSize derived sealed⟩
    rw [List.length_append, List.length_cons]
    omega
  · have same : untagged (salt ++ versionLegacy :: ciphertext) = salt ++ ciphertext := by
      rw [untagged, ← saltSize, List.take_left, ← List.drop_drop, List.drop_left, List.drop_one, List.tail_cons]
    rw [same]
    refine ⟨?_, decryptLegacy_untagged saltSize derived sealed⟩
    rw [List.length_append, tagLen] at *
    omega

end LegacyCipher

namespace Nip44

variable {Key Seed : Type}

theorem decrypt_older (nip44 : Nip44 Key Seed) {decoded : Bytes} (nonempty : decoded ≠ [])
    (other : ¬ (decoded.head? = some versionPadded ∧ isSpecShape decoded = true)) (key : Key) :
    nip44.decrypt (base64Encode decoded) key = nip44.decryptLegacy decoded key := by
  simp only [decrypt, Encoding.base64Decode_base64Encode]
  rw [if_neg nonempty, if_neg other]

theorem le_length_of_shape {decoded : Bytes} (shape : isSpecShape decoded = true) :
    1 + saltLen + 2 + 32 + macLen ≤ decoded.length := by
  simp only [isSpecShape, Bool.or_eq_true, Bool.and_eq_true, decide_eq_true_eq, beq_iff_eq] at shape
  simp only [extendedPrefixThreshold] at shape
  simp only [saltLen, macLen]
  omega

theorem decryptSpec_mac_fails {nip44 : Nip44 Key Seed} {nonce text mac decoded : Bytes} {key : Key}
    (laid : versionPadded :: (nonce ++ text ++ mac) = decoded) (nonceSize : nonce.length = saltLen)
    (macSize : mac.length = macLen) (shape : isSpecShape decoded = true)
    (fails : nip44.hmacSha256 (nip44.specDeriveKeys (nip44.deriveConversationKey key) nonce).auth (nonce ++ text) ≠ mac) :
    nip44.decryptSpec decoded key = .error "decrypt failed" := by
  have head : decoded.head? = some versionPadded := by rw [← laid, List.head?_cons]
  obtain ⟨nonceCut, textCut, macCut⟩ := cuts_of_layout laid nonceSize macSize
  rw [decryptSpec, if_neg (not_not.mpr head), if_neg (Nat.not_lt.mpr (le_length_of_shape shape))]
  simp only [nonceCut, textCut, macCut]
  rw [if_pos fails]

end Nip44

/-- Blobs of either older form open to their text unless they look like version 2, and what looks like version 2 never
reaches the older reader, whatever that is and whether or not its authenticator holds. -/
theorem older_blobs_open {Key Seed : Type} (nip44 : Nip44 Key Seed) (cipher : LegacyCipher) :
    (∀ (plaintext salt blob form : Bytes) (key : Key), salt.length = saltLen →
      cipher.encryptPadded plaintext (nip44.keyBytes key) salt = .ok blob → form = blob ∨ form = untagged blob →
      ¬ (form.head? = some versionPadded ∧ Nip44.isSpecShape form = true) →
      (nip44.withLegacy cipher).decrypt (base64Encode form) key = .ok plaintext) ∧
    (∀ (payload : String) (decoded : Bytes) (key : Key), base64Decode payload = some decoded →
      decoded.head? = some versionPadded → Nip44.isSpecShape decoded = true →
      ∀ reader, { nip44 with decryptLegacy := reader }.decrypt payload key = nip44.decryptSpec decoded key) ∧
    ∀ (payload : String) (nonce text mac : Bytes) (key : Key),
      base64Decode payload = some (versionPadded :: (nonce ++ text ++ mac)) → nonce.length = saltLen →
      mac.length = macLen → Nip44.isSpecShape (versionPadded :: (nonce ++ text ++ mac)) = true →
      nip44.hmacSha256 (nip44.specDeriveKeys (nip44.deriveConversationKey key) nonce).auth (nonce ++ text) ≠ mac →
      (nip44.withLegacy cipher).decrypt payload key = .error "decrypt failed" := by
  refine ⟨?_, ?_, ?_⟩
  · intro plaintext salt blob form key saltSize encrypted either other
    obtain ⟨long, opened⟩ := LegacyCipher.decryptLegacy_encryptPadded saltSize encrypted either
    have nonempty : form ≠ [] := List.ne_nil_of_length_pos (Nat.zero_lt_of_lt long)
    rw [Nip44.decrypt_older _ nonempty other]
    exact opened
  · intro payload decoded key read head shape reader
    exact Nip44.decrypt_routed head shape read key
  · intro payload nonce text mac key read nonceSize macSize shape fails
    rw [Nip44.decrypt_routed rfl shape read key]
    exact Nip44.decryptSpec_mac_fails rfl nonceSize macSize shape fails

section Counting

/-- A checksum of the length in the place of the tag; texts from 256 bytes on are refused. -/
def countingSeal (text : Bytes) : Option Bytes :=
  if text.length < 256 then some (text ++ List.replicate tagLen (UInt8.ofNat text.length)) else none

def countingOpen (sealed : Bytes) : Option Bytes :=
  if tagLen ≤ sealed.length ∧
      sealed.drop (sealed.length - tagLen) = List.replicate tagLen (UInt8.ofNat (sealed.length - tagLen)) then
    some (sealed.take (sealed.length - tagLen))
  else none

theorem countingSeal_some {text sealed : Bytes} (encrypted : countingSeal text = some sealed) :
    text.length < 256 ∧ sealed = text ++ List.replicate tagLen (UInt8.ofNat text.length) := by
  unfold countingSeal at encrypted
  split at encrypted
  case isTrue short => exact ⟨short, (Option.some.inj encrypted).symm⟩
  case isFalse => cases encrypted

theorem countingOpen_seal {text sealed : Bytes} (encrypted : countingSeal text = some sealed) :
    countingOpen sealed = some text := by
  obtain ⟨_, rfl⟩ := countingSeal_some encrypted
  have size : (text ++ List.replicate tagLen (UInt8.ofNat text.length)).length - tagLen = text.length := by
    rw [List.length_append, List.length_replicate, Nat.add_sub_cancel]
  rw [countingOpen, size, if_pos, List.take_left]
  refine ⟨?_, List.drop_left⟩
  rw [List.length_append, List.length_replicate]
  exact Nat.le_add_left tagLen text.length

theorem countingOpen_cut {text sealed : Bytes} (encrypted : countingSeal text = some sealed) {cut : Nat}
    (some' : 0 < cut) :
    countingOpen (sealed.drop cut) = none := by
  obtain ⟨short, rfl⟩ := countingSeal_some encrypted
  rw [countingOpen, if_neg]
  rintro ⟨long, tag⟩
  simp only [List.length_drop, List.length_append, List.length_replicate] at long tag
  have within : cut ≤ text.length := by
    rw [tagLen] at long
    omega
  have rest : cut + (text.length + tagLen - cut - tagLen) = text.length := by omega
  rw [List.drop_drop, rest, List.drop_left, List.replicate_right_inj (by decide), ← UInt8.toNat_inj, UInt8.toNat_ofNat',
    UInt8.toNat_ofNat'] at tag
  omega

def countingCipher : LegacyCipher where
  hkdfSha256 key salt info len := some ((key ++ salt ++ info ++ List.replicate len 0).take len)
  aeadEncrypt _ _ _ text := countingSeal text
  aeadDecrypt _ _ _ sealed := countingOpen sealed
  decrypt_encrypt := countingOpen_seal
  encrypt_length encrypted := by
    obtain ⟨_, rfl⟩ := countingSeal_some encrypted
    rw [List.length_append, List.length_replicate]
  decrypt_cut encrypted _ some' := countingOpen_cut encrypted some'

/-- The salt begins like a payload of version 2, and the text like a version byte. -/
theorem older_hello_opens :
    (xorNip44.withLegacy countingCipher).decrypt
      (base64Encode (untagged (List.replicate saltLen 2 ++ 1 :: ([1, 2, 3] ++ List.replicate tagLen 3)))) [7] = .ok [1, 2, 3] :=
  (older_blobs_open xorNip44 countingCipher).1 [1, 2, 3] (List.replicate saltLen 2) _ _ [7] (by decide) (by rfl) (.inr rfl)
    (by decide)

end Counting

end Soshal.Crypto
