import Soshal.Crypto.Ratchet
import Mathlib.Data.Nat.Log

/-! NIP-44 version 2: padding, the sealed layout, and opening it again.

HMAC-SHA256, ChaCha20, the random source and the reader of blobs of older builds
are parameters. What is relied on of them is their lengths, and that applying a
keystream twice gives the text back. The size of a ciphertext then depends on the
length of its plaintext alone.
-/

set_option autoImplicit false

namespace Soshal.Crypto

open Library
open Library.Text (byteLen utf8)
open Library.Encoding (base64Encode base64Decode base64Chars digit)
open Library.Fallible (guard_eq_ok)

def saltLen : Nat := 32
def nonceLen : Nat := 12
def macLen : Nat := 32
def versionPadded : UInt8 := 2
def extendedPrefixThreshold : Nat := 65536

def log2RoundDown (n : Nat) : Nat := Nat.log 2 n

def calcPadding (len : Nat) : Nat :=
  if len ≤ 32 then 32
  else
    let nextPower := 2 ^ (log2RoundDown (len - 1) + 1)
    let chunk := if nextPower ≤ 256 then 32 else nextPower / 8
    chunk * ((len - 1) / chunk + 1)

def encodePrefix (len : Nat) : Bytes :=
  if extendedPrefixThreshold ≤ len then
    [0, 0, UInt8.ofNat (len / 2 ^ 24), UInt8.ofNat (len / 2 ^ 16), UInt8.ofNat (len / 2 ^ 8), UInt8.ofNat len]
  else [UInt8.ofNat (len / 2 ^ 8), UInt8.ofNat len]

/-- The length a padded blob declares, and the length of the prefix that declares it. -/
def decodePrefix : Bytes → Except String (Nat × Nat)
  | a :: b :: rest =>
    if a.toNat * 2 ^ 8 + b.toNat = 0 then
      match rest with
      | c :: d :: e :: f :: _ =>
        let len := c.toNat * 2 ^ 24 + d.toNat * 2 ^ 16 + e.toNat * 2 ^ 8 + f.toNat
        if len < extendedPrefixThreshold then .error "invalid extended padding length" else .ok (len, 6)
      | _ => .error "padded payload too short"
    else .ok (a.toNat * 2 ^ 8 + b.toNat, 2)
  | _ => .error "padded payload too short"

def pad (plaintext : Bytes) : Bytes :=
  encodePrefix plaintext.length ++ plaintext ++
    List.replicate (calcPadding plaintext.length - plaintext.length) 0

def unpadInPlace (padded : Bytes) : Except String Bytes :=
  if padded.length < 2 + 32 then .error "padded payload too short"
  else
    match decodePrefix padded with
    | .error e => .error e
    | .ok (unpaddedLen, prefixLen) =>
      if unpaddedLen = 0 then .error "empty plaintext"
      else if padded.length ≠ prefixLen + calcPadding unpaddedLen then .error "invalid padding"
      else .ok ((padded.drop prefixLen).take unpaddedLen)

structure Nip44 (Key Seed : Type) where
  keyBytes : Key → Bytes
  fill : Seed → Option Bytes
  hmacSha256 : Bytes → Bytes → Bytes
  chacha20 : Bytes → Bytes → Bytes → Bytes
  decryptLegacy : Bytes → Key → Except String Bytes
  fill_length : ∀ {seed nonce}, fill seed = some nonce → nonce.length = saltLen
  hmac_length : ∀ key message, (hmacSha256 key message).length = macLen
  chacha20_length : ∀ key nonce text, (chacha20 key nonce text).length = text.length
  chacha20_twice : ∀ key nonce text, chacha20 key nonce (chacha20 key nonce text) = text

theorem length_of_filled {seed : UInt8} {nonce : Bytes} (filled : some (List.replicate saltLen seed) = some nonce) :
    nonce.length = saltLen := by
  cases filled
  exact List.length_replicate

structure DerivedKeys where
  enc : Bytes
  nonce : Bytes
  auth : Bytes

namespace Nip44

variable {Key Seed : Type} (nip44 : Nip44 Key Seed)

def deriveConversationKey (key : Key) : Bytes := nip44.hmacSha256 (utf8 "nip44-v2") (nip44.keyBytes key)

def specDeriveKeys (ck nonce : Bytes) : DerivedKeys :=
  let t1 := nip44.hmacSha256 ck (nonce ++ [1])
  let t2 := nip44.hmacSha256 ck (t1 ++ nonce ++ [2])
  let t3 := nip44.hmacSha256 ck (t2 ++ nonce ++ [3])
  { enc := t1, nonce := t2.take nonceLen, auth := t2.drop nonceLen ++ t3.take nonceLen }

def encrypt (plaintext : Bytes) (key : Key) (seed : Seed) : Except String String :=
  if plaintext = [] then .error "empty plaintext"
  else
    match nip44.fill seed with
    | none => .error "rng failed"
    | some nonce =>
      let keys := nip44.specDeriveKeys (nip44.deriveConversationKey key) nonce
      let ciphertext := nip44.chacha20 keys.enc keys.nonce (pad plaintext)
      .ok (base64Encode
        (versionPadded :: (nonce ++ ciphertext ++ nip44.hmacSha256 keys.auth (nonce ++ ciphertext))))

/-- The two layouts of version 2: 67 bytes around a text padded in steps of 32, or 71 around a long one. -/
def isSpecShape (decoded : Bytes) : Bool :=
  (decide (67 + 32 ≤ decoded.length) && (decoded.length - 67) % 32 == 0) ||
    (decide (71 + extendedPrefixThreshold ≤ decoded.length) && (decoded.length - 71) % 32 == 0)

def decryptSpec (decoded : Bytes) (key : Key) : Except String Bytes :=
  if decoded.head? ≠ some versionPadded then .error "unsupported payload version"
  else if decoded.length < 1 + saltLen + 2 + 32 + macLen then .error "payload too short"
  else
    let nonce := (decoded.drop 1).take saltLen
    let buffer := (decoded.drop (1 + saltLen)).take (decoded.length - macLen - (1 + saltLen))
    let mac := decoded.drop (decoded.length - macLen)
    let keys := nip44.specDeriveKeys (nip44.deriveConversationKey key) nonce
    -- The authenticator is checked before any keystream is applied.
    if nip44.hmacSha256 keys.auth (nonce ++ buffer) ≠ mac then .error "decrypt failed"
    else unpadInPlace (nip44.chacha20 keys.enc keys.nonce buffer)

def decrypt (payload : String) (key : Key) : Except String Bytes :=
  match base64Decode payload with
  | none => .error "invalid base64"
  | some decoded =>
    if decoded = [] then .error "empty payload"
    -- A blob of the shape of version 2 is never handed on to the older reader.
    else if decoded.head? = some versionPadded ∧ isSpecShape decoded then nip44.decryptSpec decoded key
    else nip44.decryptLegacy decoded key

end Nip44

/-- What the padding of a length above the least is made of: whole chunks up to at most the next power of two. -/
theorem calcPadding_chunks {len : Nat} (long : 32 < len) :
    ∃ chunk count, chunk * count = 2 ^ (log2RoundDown (len - 1) + 1) ∧ 32 ∣ chunk ∧
      calcPadding len = chunk * ((len - 1) / chunk + 1) := by
  have least : 5 ≤ log2RoundDown (len - 1) := Nat.le_log_of_pow_le (by decide) (by omega)
  unfold calcPadding
  rw [if_neg (Nat.not_le.mpr long)]
  dsimp only
  split
  case isTrue =>
    obtain ⟨count, pieces⟩ : 2 ^ 5 ∣ 2 ^ (log2RoundDown (len - 1) + 1) := Nat.pow_dvd_pow 2 (by omega)
    exact ⟨32, count, pieces.symm, dvd_refl 32, rfl⟩
  case isFalse large =>
    have eighth : 2 ^ (log2RoundDown (len - 1) + 1) = 2 ^ (log2RoundDown (len - 1) - 2) * 8 := by
      rw [show (8 : Nat) = 2 ^ 3 from rfl, ← Nat.pow_add]
      congr 1
      omega
    have above : 2 ^ 8 < 2 ^ (log2RoundDown (len - 1) + 1) := Nat.not_le.mp large
    have exponent := (Nat.pow_lt_pow_iff_right (by decide : 1 < 2)).mp above
    rw [eighth, Nat.mul_div_cancel _ (by decide)]
    refine ⟨_, 8, rfl, ?_, rfl⟩
    exact Nat.pow_dvd_pow 2 (by omega : 5 ≤ log2RoundDown (len - 1) - 2)

theorem le_calcPadding (len : Nat) : len ≤ calcPadding len := by
  rcases Nat.lt_or_ge 32 len with long | short
  · obtain ⟨chunk, count, pieces, _, padded⟩ := calcPadding_chunks long
    have positive : 0 < chunk * count := by
      rw [pieces]
      exact Nat.pow_pos (by decide)
    have next := Nat.lt_mul_div_succ (len - 1) (Nat.pos_of_mul_pos_right positive)
    omega
  · rw [calcPadding, if_pos short]
    exact short

theorem dvd_calcPadding (len : Nat) : 32 ∣ calcPadding len := by
  rcases Nat.lt_or_ge 32 len with long | short
  · obtain ⟨chunk, count, _, aligned, padded⟩ := calcPadding_chunks long
    rw [padded]
    exact dvd_mul_of_dvd_left aligned _
  · rw [calcPadding, if_pos short]

theorem calcPadding_le_pow {len k : Nat} (large : 5 ≤ k) (bounded : len ≤ 2 ^ k) : calcPadding len ≤ 2 ^ k := by
  rcases Nat.lt_or_ge 32 len with long | short
  · obtain ⟨chunk, count, pieces, _, padded⟩ := calcPadding_chunks long
    have inside : len - 1 < chunk * count := pieces ▸ Nat.lt_pow_succ_log_self (by decide) _
    have below : log2RoundDown (len - 1) + 1 ≤ k := Nat.log_lt_of_lt_pow (by omega) (by omega)
    calc
      calcPadding len = chunk * ((len - 1) / chunk + 1) := padded
      _ ≤ chunk * count := Nat.mul_le_mul_left _ (Nat.div_lt_of_lt_mul inside)
      _ = 2 ^ (log2RoundDown (len - 1) + 1) := pieces
      _ ≤ 2 ^ k := Nat.pow_le_pow_right (by decide) below
  · rw [calcPadding, if_pos short]
    exact Nat.pow_le_pow_right (by decide : 0 < 2) large

theorem calcPadding_upper {len : Nat} (above : 2 ^ 15 < len) (below : len ≤ 2 ^ 16) :
    calcPadding len = 8192 * ((len - 1) / 8192 + 1) := by
  have power : log2RoundDown (len - 1) = 15 := Nat.log_eq_of_pow_le_of_lt_pow (by omega) (by omega)
  rw [calcPadding, if_neg (by omega), power]
  rfl

theorem length_encodePrefix (len : Nat) :
    (encodePrefix len).length = if extendedPrefixThreshold ≤ len then 6 else 2 := by
  unfold encodePrefix
  split <;> rfl

theorem length_pad (plaintext : Bytes) :
    (pad plaintext).length = (encodePrefix plaintext.length).length + calcPadding plaintext.length := by
  have covered := le_calcPadding plaintext.length
  simp only [pad, List.length_append, List.length_replicate]
  omega

/-- The bytes under the base64 of a ciphertext. -/
def sealedLen (len : Nat) : Nat := 1 + saltLen + ((encodePrefix len).length + calcPadding len) + macLen

/-- A ciphertext stays within 64 KiB exactly when its plaintext has at most 40 KiB: the next padding step is 48 KiB,
which the base64 form no longer fits. -/
theorem sealedLen_fits_iff (len : Nat) : (sealedLen len + 2) / 3 * 4 ≤ maxRatchetCiphertext ↔ len ≤ 40960 := by
  have covered := le_calcPadding len
  have lead : 2 ≤ (encodePrefix len).length ∧ (encodePrefix len).length ≤ 6 := by
    rw [length_encodePrefix]
    split <;> decide
  simp only [sealedLen, saltLen, macLen, maxRatchetCiphertext]
  rcases Nat.lt_or_ge (2 ^ 15) len with above | short
  · rcases Nat.lt_or_ge (2 ^ 16) len with beyond | below
    · omega
    · have steps := calcPadding_upper above below
      omega
  · have power := calcPadding_le_pow (by decide : 5 ≤ 15) short
    omega

theorem le_calcPadding_least (len : Nat) : 32 ≤ calcPadding len := by
  rcases Nat.lt_or_ge 32 len with long | short
  · exact le_trans (Nat.le_of_lt long) (le_calcPadding len)
  · rw [calcPadding, if_pos short]

theorem decodePrefix_encodePrefix {len : Nat} (nonempty : 0 < len) (bounded : len < 2 ^ 32) (rest : Bytes) :
    decodePrefix (encodePrefix len ++ rest) = .ok (len, (encodePrefix len).length) := by
  unfold encodePrefix
  split
  case isTrue long =>
    simp only [extendedPrefixThreshold] at long
    simp only [List.cons_append, List.nil_append, decodePrefix, UInt8.toNat_zero, UInt8.toNat_ofNat', Nat.zero_mul,
      Nat.add_zero, if_true]
    have whole : len / 2 ^ 24 % 2 ^ 8 * 2 ^ 24 + len / 2 ^ 16 % 2 ^ 8 * 2 ^ 16 + len / 2 ^ 8 % 2 ^ 8 * 2 ^ 8 +
        len % 2 ^ 8 = len := by omega
    rw [whole, if_neg (by simpa only [extendedPrefixThreshold, Nat.not_lt] using long)]
    rfl
  case isFalse short =>
    simp only [extendedPrefixThreshold] at short
    simp only [List.cons_append, List.nil_append, decodePrefix, UInt8.toNat_ofNat']
    have whole : len / 2 ^ 8 % 2 ^ 8 * 2 ^ 8 + len % 2 ^ 8 = len := by omega
    rw [whole, if_neg (by omega)]
    rfl

theorem unpadInPlace_pad {plaintext : Bytes} (nonempty : plaintext ≠ []) (bounded : plaintext.length < 2 ^ 32) :
    unpadInPlace (pad plaintext) = .ok plaintext := by
  have some' := List.length_pos_iff.mpr nonempty
  have least := le_calcPadding_least plaintext.length
  have lead := length_encodePrefix plaintext.length
  have size := length_pad plaintext
  have decoded : decodePrefix (pad plaintext) = .ok (plaintext.length, (encodePrefix plaintext.length).length) := by
    rw [pad, List.append_assoc]
    exact decodePrefix_encodePrefix some' bounded _
  rw [unpadInPlace, if_neg, decoded]
  · simp only [size, ne_eq, not_true_eq_false, if_false, if_neg (Nat.ne_of_gt some')]
    rw [pad, List.append_assoc, List.drop_left, List.take_left]
  · split at lead <;> omega

namespace Nip44

variable {Key Seed : Type} {nip44 : Nip44 Key Seed}

theorem isSpecShape_of_length {decoded : Bytes} {len : Nat} (size : decoded.length = sealedLen len) :
    isSpecShape decoded = true := by
  obtain ⟨steps, aligned⟩ := dvd_calcPadding len
  have least := le_calcPadding_least len
  have covered := le_calcPadding len
  have lead := length_encodePrefix len
  simp only [sealedLen, saltLen, macLen] at size
  simp only [isSpecShape, Bool.or_eq_true, Bool.and_eq_true, decide_eq_true_eq, beq_iff_eq, size]
  split at lead
  case isTrue large =>
    simp only [extendedPrefixThreshold] at large ⊢
    right
    omega
  case isFalse =>
    left
    omega

theorem cuts_of_layout {nonce text mac decoded : Bytes} (laid : versionPadded :: (nonce ++ text ++ mac) = decoded)
    (nonceSize : nonce.length = saltLen) (macSize : mac.length = macLen) :
    (decoded.drop 1).take saltLen = nonce ∧
      (decoded.drop (1 + saltLen)).take (decoded.length - macLen - (1 + saltLen)) = text ∧
      decoded.drop (decoded.length - macLen) = mac := by
  subst laid
  have size : (versionPadded :: (nonce ++ text ++ mac)).length = 1 + saltLen + text.length + macLen := by
    rw [List.length_cons, List.length_append, List.length_append, nonceSize, macSize]
    omega
  refine ⟨?_, ?_, ?_⟩
  · rw [List.drop_one, List.tail_cons, List.append_assoc, ← nonceSize, List.take_left]
  · have count : (versionPadded :: (nonce ++ text ++ mac)).length - macLen - (1 + saltLen) = text.length := by omega
    have rest : (versionPadded :: (nonce ++ text ++ mac)).drop (1 + saltLen) = text ++ mac := by
      rw [← nonceSize, Nat.add_comm, List.drop_succ_cons, List.append_assoc, List.drop_left]
    rw [rest, count, List.take_left]
  · have count : (versionPadded :: (nonce ++ text ++ mac)).length - macLen = (versionPadded :: (nonce ++ text)).length := by
      rw [size, List.length_cons, List.length_append, nonceSize]
      omega
    rw [count]
    exact List.drop_left

/-- The bytes under the base64 of what is sealed under a nonce. -/
def layout (nip44 : Nip44 Key Seed) (plaintext : Bytes) (key : Key) (nonce : Bytes) : Bytes :=
  let keys := nip44.specDeriveKeys (nip44.deriveConversationKey key) nonce
  let ciphertext := nip44.chacha20 keys.enc keys.nonce (pad plaintext)
  versionPadded :: (nonce ++ ciphertext ++ nip44.hmacSha256 keys.auth (nonce ++ ciphertext))

theorem encrypt_eq {plaintext nonce : Bytes} {seed : Seed} (nonempty : plaintext ≠ [])
    (filled : nip44.fill seed = some nonce) (key : Key) :
    nip44.encrypt plaintext key seed = .ok (base64Encode (nip44.layout plaintext key nonce)) := by
  rw [encrypt, if_neg nonempty, filled]
  rfl

theorem encrypt_ok {plaintext : Bytes} {key : Key} {seed : Seed} {ciphertext : String}
    (encrypted : nip44.encrypt plaintext key seed = .ok ciphertext) :
    plaintext ≠ [] ∧ ∃ nonce, nip44.fill seed = some nonce ∧
      ciphertext = base64Encode (nip44.layout plaintext key nonce) := by
  obtain ⟨nonempty, rest⟩ := guard_eq_ok.mp encrypted
  cases filled : nip44.fill seed with
  | none => simp [filled] at rest
  | some nonce =>
    rw [encrypt_eq nonempty filled] at encrypted
    exact ⟨nonempty, nonce, rfl, (Except.ok.inj encrypted).symm⟩

theorem length_layout (nip44 : Nip44 Key Seed) (plaintext : Bytes) {nonce : Bytes}
    (nonceSize : nonce.length = saltLen) (key : Key) :
    (nip44.layout plaintext key nonce).length = sealedLen plaintext.length := by
  simp only [layout, List.length_cons, List.length_append, nonceSize, nip44.chacha20_length, nip44.hmac_length,
    length_pad, sealedLen]
  omega

theorem routed_layout (nip44 : Nip44 Key Seed) (plaintext : Bytes) {nonce : Bytes} (nonceSize : nonce.length = saltLen)
    (key : Key) : (nip44.layout plaintext key nonce).head? = some versionPadded ∧
      isSpecShape (nip44.layout plaintext key nonce) :=
  ⟨rfl, isSpecShape_of_length (length_layout nip44 plaintext nonceSize key)⟩

theorem decryptSpec_layout {plaintext nonce : Bytes} (nonempty : plaintext ≠ []) (bounded : plaintext.length < 2 ^ 32)
    (nonceSize : nonce.length = saltLen) (key : Key) :
    nip44.decryptSpec (nip44.layout plaintext key nonce) key = .ok plaintext := by
  have size := length_layout nip44 plaintext nonceSize key
  have head := (routed_layout nip44 plaintext nonceSize key).1
  generalize laid : nip44.layout plaintext key nonce = decoded at size head ⊢
  simp only [layout] at laid
  generalize derived : nip44.specDeriveKeys (nip44.deriveConversationKey key) nonce = keys at laid
  have opened := nip44.chacha20_twice keys.enc keys.nonce (pad plaintext)
  generalize nip44.chacha20 keys.enc keys.nonce (pad plaintext) = text at laid opened
  have macSize := nip44.hmac_length keys.auth (nonce ++ text)
  generalize tagged : nip44.hmacSha256 keys.auth (nonce ++ text) = mac at laid macSize
  obtain ⟨nonceCut, textCut, macCut⟩ := cuts_of_layout laid nonceSize macSize
  have least := le_calcPadding_least plaintext.length
  have long : ¬ decoded.length < 1 + saltLen + 2 + 32 + macLen := by
    rw [size, sealedLen, length_encodePrefix]
    split <;> omega
  rw [decryptSpec, if_neg (not_not.mpr head), if_neg long]
  simp only [nonceCut, textCut, macCut, derived, tagged, opened, ne_eq, not_true_eq_false, if_false]
  exact unpadInPlace_pad nonempty bounded

theorem byteLen_encrypt {plaintext : Bytes} {key : Key} {seed : Seed} {ciphertext : String}
    (encrypted : nip44.encrypt plaintext key seed = .ok ciphertext) :
    byteLen ciphertext = (sealedLen plaintext.length + 2) / 3 * 4 := by
  obtain ⟨_, nonce, filled, rfl⟩ := encrypt_ok encrypted
  rw [Encoding.byteLen_base64Encode, length_layout nip44 plaintext (nip44.fill_length filled)]

theorem decrypt_routed {decoded : Bytes} (head : decoded.head? = some versionPadded) (shape : isSpecShape decoded)
    {payload : String} (read : base64Decode payload = some decoded) (key : Key) :
    nip44.decrypt payload key = nip44.decryptSpec decoded key := by
  have nonempty : decoded ≠ [] := by
    rintro rfl
    cases head
  simp only [decrypt, read]
  rw [if_neg nonempty, if_pos ⟨head, shape⟩]

theorem decrypt_encrypt {plaintext : Bytes} {key : Key} {seed : Seed} {ciphertext : String}
    (bounded : plaintext.length < 2 ^ 32) (encrypted : nip44.encrypt plaintext key seed = .ok ciphertext) :
    nip44.decrypt ciphertext key = .ok plaintext := by
  obtain ⟨nonempty, nonce, filled, rfl⟩ := encrypt_ok encrypted
  have nonceSize := nip44.fill_length filled
  obtain ⟨head, shape⟩ := routed_layout nip44 plaintext nonceSize key
  rw [decrypt_routed head shape (Encoding.base64Decode_base64Encode _)]
  exact decryptSpec_layout nonempty bounded nonceSize key

end Nip44

section Sealing

variable {Key Sk Secret Seed : Type} (p : Primitives Key Sk Secret Seed) (nip44 : Nip44 Key Seed)

def Primitives.withNip44 : Primitives Key Sk Secret Seed :=
  { p with nip44Encrypt := nip44.encrypt, nip44Decrypt := nip44.decrypt }

/-- With the tag in front, the deflated text is still within the last padding step that fits. -/
def DeflatesBelow (plaintext : Bytes) : Prop := ∃ deflated, p.deflate plaintext = some deflated ∧ deflated.length < 40960

variable {p} {nip44} {state after : RatchetState Key Sk} {plaintext : Bytes} {draws : Draws Seed} {header : HeaderOutput}
  {ciphertext : String}

theorem byteLen_encryptRatchet
    (encrypted : encryptRatchet (p.withNip44 nip44) state plaintext draws = .ok (after, header, ciphertext)) :
    ∃ deflated, p.deflate plaintext = some deflated ∧
      byteLen ciphertext = (sealedLen (deflated.length + 1) + 2) / 3 * 4 := by
  obtain ⟨_, _, epoch, compressed, _, deflates, sealed, _, _⟩ := encryptRatchet_ok encrypted
  obtain ⟨_, deflates⟩ := guard_eq_ok.mp deflates
  cases deflated : p.deflate plaintext with
  | none => simp [Primitives.withNip44, deflated] at deflates
  | some bytes =>
    simp only [Primitives.withNip44, deflated, Except.ok.injEq] at deflates
    refine ⟨bytes, rfl, ?_⟩
    rw [Nip44.byteLen_encrypt sealed, ← deflates, List.length_cons]

theorem encryptRatchet_fits_iff
    (encrypted : encryptRatchet (p.withNip44 nip44) state plaintext draws = .ok (after, header, ciphertext)) :
    byteLen ciphertext ≤ maxRatchetCiphertext ↔ DeflatesBelow p plaintext := by
  obtain ⟨deflated, deflates, size⟩ := byteLen_encryptRatchet encrypted
  rw [size, sealedLen_fits_iff]
  constructor
  · intro fits
    exact ⟨deflated, deflates, fits⟩
  · rintro ⟨other, same, small⟩
    cases deflates.symm.trans same
    exact small

/-- A check whose error is another one does not answer with `e'`. -/
theorem guard_ne_error {ε α : Type} {c : Prop} [Decidable c] {e e' : ε} {x : Except ε α} (other : c → e ≠ e')
    (rest : x ≠ .error e') : (if c then .error e else x) ≠ .error e' := by
  split
  case isTrue failed =>
    intro same
    exact other failed (Except.error.inj same)
  case isFalse => exact rest

theorem checkHeader_ne_too_large (fits : byteLen ciphertext ≤ maxRatchetCiphertext) (state : RatchetState Key Sk)
    (header : HeaderOutput) : checkHeader state header ciphertext ≠ .error "ciphertext too large" := by
  simp only [checkHeader, bind, Except.bind, pure, Except.pure, throw, throwThe, MonadExceptOf.throw]
  apply guard_ne_error (by simp)
  apply guard_ne_error (by simp)
  apply guard_ne_error (by simp)
  apply guard_ne_error (by simp)
  apply guard_ne_error (fun large => absurd fits (Nat.not_le.mpr large))
  apply guard_ne_error (by simp)
  apply guard_ne_error (by simp)
  simp

theorem decryptRatchet_too_large {keypair : Seed} (version : state.version = ratchetVersion)
    (headerVersion : header.version = ratchetVersion) (pkLength : byteLen header.pk = hybridPkLen * 2)
    (ctLength : byteLen header.ct = hybridCtLen * 2) (large : maxRatchetCiphertext < byteLen ciphertext) :
    decryptRatchet p state header ciphertext keypair = .error "ciphertext too large" := by
  have refused : checkHeader state header ciphertext = .error "ciphertext too large" := by
    rw [checkHeader, if_neg (not_not.mpr version), if_neg (not_not.mpr headerVersion), if_neg (not_not.mpr pkLength),
      if_neg (not_not.mpr ctLength), if_pos large]
    rfl
  rw [decryptRatchet, refused]
  rfl

end Sealing

end Soshal.Crypto
