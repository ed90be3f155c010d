import Soshal.Crypto.Nip44

/-! The padded layout of NIP-44, read back: which byte strings are one, and of what.

There are two readers. One copies a range of its buffer out, the other cuts the
buffer down to it. A range that does not lie within the buffer ends the program,
which is an absent result here.
-/

set_option autoImplicit false

namespace Soshal.Crypto

open Library
open Library.Encoding (base64Encode base64Decode)
open Library.Fallible (guard_eq_ok)

namespace Padding

def pad (plaintext : Bytes) : Except String Bytes :=
  if plaintext = [] then .error "empty plaintext" else .ok (Crypto.pad plaintext)

/-- The bytes from `start` up to `stop`, if they lie within the buffer. -/
def range (bytes : Bytes) (start stop : Nat) : Option Bytes :=
  if start ≤ stop ∧ stop ≤ bytes.length then some ((bytes.take stop).drop start) else none

def unpad (padded : Bytes) : Option (Except String Bytes) :=
  if padded.length < 2 + 32 then some (.error "padded payload too short")
  else
    match decodePrefix padded with
    | .error e => some (.error e)
    | .ok (unpaddedLen, prefixLen) =>
      if unpaddedLen = 0 then some (.error "empty plaintext")
      else if padded.length ≠ prefixLen + calcPadding unpaddedLen then some (.error "invalid padding")
      else (range padded prefixLen (prefixLen + unpaddedLen)).map .ok

/-- The form a length is written in: two bytes for what they hold, four behind two zeros for what they do not. -/
inductive LengthPrefix : Bytes → Nat → Prop where
  | short {hi lo : UInt8} {len : Nat} : len = hi.toNat * 2 ^ 8 + lo.toNat → 0 < len → LengthPrefix [hi, lo] len
  | extended {c d e f : UInt8} {len : Nat} :
      len = c.toNat * 2 ^ 24 + d.toNat * 2 ^ 16 + e.toNat * 2 ^ 8 + f.toNat → extendedPrefixThreshold ≤ len →
      LengthPrefix [0, 0, c, d, e, f] len

/-- What `pad` makes of a text, but for the bytes behind the text. -/
def IsPadded (plaintext bytes : Bytes) : Prop :=
  ∃ lead zeros tail : Bytes, pad plaintext = .ok (lead ++ plaintext ++ zeros) ∧ LengthPrefix lead plaintext.length ∧
    plaintext.length + zeros.length = calcPadding plaintext.length ∧ tail.length = zeros.length ∧
    bytes = lead ++ plaintext ++ tail

theorem LengthPrefix.pos {lead : Bytes} {len : Nat} (written : LengthPrefix lead len) : 0 < len := by
  cases written with
  | short _ positive => exact positive
  | extended _ large => exact Nat.lt_of_lt_of_le (by decide) large

theorem LengthPrefix.eq_encodePrefix {lead : Bytes} {len : Nat} (written : LengthPrefix lead len) :
    lead = encodePrefix len := by
  have byte_eq : ∀ {b : UInt8} {n : Nat}, n % 2 ^ 8 = b.toNat → b = UInt8.ofNat n := by
    intro b n same
    exact UInt8.toNat_inj.mp (by rw [UInt8.toNat_ofNat', same])
  cases written with
  | @short hi lo len value _ =>
    have := hi.toNat_lt
    have := lo.toNat_lt
    rw [encodePrefix, if_neg (by simp only [extendedPrefixThreshold]; omega), ← byte_eq (b := hi) (by omega),
      ← byte_eq (b := lo) (by omega)]
  | @extended c d e f len value large =>
    have := c.toNat_lt
    have := d.toNat_lt
    have := e.toNat_lt
    have := f.toNat_lt
    rw [encodePrefix, if_pos large, ← byte_eq (b := c) (by omega), ← byte_eq (b := d) (by omega),
      ← byte_eq (b := e) (by omega), ← byte_eq (b := f) (by omega)]

theorem LengthPrefix.lt {lead : Bytes} {len : Nat} (written : LengthPrefix lead len) : len < 2 ^ 32 := by
  cases written with
  | @short hi lo _ _ _ =>
    have := hi.toNat_lt
    have := lo.toNat_lt
    omega
  | @extended c d e f _ _ _ =>
    have := c.toNat_lt
    have := d.toNat_lt
    have := e.toNat_lt
    have := f.toNat_lt
    omega

theorem decodePrefix_ok {padded : Bytes} {len prefixLen : Nat} (decoded : decodePrefix padded = .ok (len, prefixLen)) :
    ∃ lead rest, padded = lead ++ rest ∧ lead.length = prefixLen ∧ LengthPrefix lead len := by
  match padded with
  | [] => cases decoded
  | [_] => cases decoded
  | a :: b :: rest =>
    by_cases zero : a.toNat * 2 ^ 8 + b.toNat = 0
    · have first : a = 0 := UInt8.toNat_inj.mp (by rw [UInt8.toNat_zero]; omega)
      have second : b = 0 := UInt8.toNat_inj.mp (by rw [UInt8.toNat_zero]; omega)
      match rest with
      | c :: d :: e :: f :: rest =>
        simp only [decodePrefix, zero, if_true] at decoded
        obtain ⟨large, same⟩ := guard_eq_ok.mp decoded
        cases same
        subst first second
        exact ⟨[0, 0, c, d, e, f], rest, rfl, rfl, .extended rfl (Nat.not_lt.mp large)⟩
      | [] => simp only [decodePrefix, zero, if_true, reduceCtorEq] at decoded
      | [_] => simp only [decodePrefix, zero, if_true, reduceCtorEq] at decoded
      | [_, _] => simp only [decodePrefix, zero, if_true, reduceCtorEq] at decoded
      | [_, _, _] => simp only [decodePrefix, zero, if_true, reduceCtorEq] at decoded
    · rw [decodePrefix.eq_def] at decoded
      simp only [zero, if_false, Except.ok.injEq, Prod.mk.injEq] at decoded
      obtain ⟨rfl, rfl⟩ := decoded
      exact ⟨[a, b], rest, rfl, rfl, .short rfl (Nat.pos_of_ne_zero zero)⟩

theorem unpadInPlace_ok_iff (plaintext bytes : Bytes) :
    unpadInPlace bytes = .ok plaintext ↔ IsPadded plaintext bytes := by
  constructor
  · intro accepted
    obtain ⟨_, accepted⟩ := guard_eq_ok.mp accepted
    cases decoded : decodePrefix bytes with
    | error e => simp [decoded] at accepted
    | ok lengths =>
      obtain ⟨len, prefixLen⟩ := lengths
      simp only [decoded, guard_eq_ok, not_not, Except.ok.injEq] at accepted
      obtain ⟨_, sized, taken⟩ := accepted
      obtain ⟨lead, rest, rfl, rfl, written⟩ := decodePrefix_ok decoded
      rw [List.drop_left] at taken
      have covered := le_calcPadding len
      have restSize : rest.length = calcPadding len := by
        rw [List.length_append] at sized
        omega
      have textSize : plaintext.length = len := by
        rw [← taken, List.length_take, restSize]
        omega
      have nonempty : plaintext ≠ [] := List.length_pos_iff.mp (textSize ▸ written.pos)
      subst textSize
      refine ⟨lead, List.replicate (calcPadding plaintext.length - plaintext.length) 0, rest.drop plaintext.length,
        ?_, written, ?_, ?_, ?_⟩
      · rw [pad, if_neg nonempty, Crypto.pad, ← written.eq_encodePrefix]
      · rw [List.length_replicate]
        omega
      · rw [List.length_replicate, List.length_drop, restSize]
      · rw [List.append_assoc]
        nth_rewrite 1 [← taken]
        rw [List.take_append_drop]
  · rintro ⟨lead, zeros, tail, _, written, sized, same, rfl⟩
    -- The least padding makes the buffer long enough for the first check.
    have least := le_calcPadding_least plaintext.length
    have decoded := decodePrefix_encodePrefix written.pos written.lt (plaintext ++ tail)
    rw [← written.eq_encodePrefix, ← List.append_assoc] at decoded
    have whole : (lead ++ plaintext ++ tail).length = lead.length + calcPadding plaintext.length := by
      rw [List.length_append, List.length_append, same]
      omega
    have long : ¬ (lead ++ plaintext ++ tail).length < 2 + 32 := by
      have two : 2 ≤ lead.length := by
        cases written with
        | short => exact Nat.le_refl 2
        | extended => exact Nat.le_of_ble_eq_true rfl
      omega
    rw [unpadInPlace, if_neg long, decoded]
    dsimp only
    rw [if_neg (Nat.ne_of_gt written.pos), if_neg (not_not.mpr whole), List.append_assoc, List.drop_left,
      List.take_left]

theorem unpad_eq (bytes : Bytes) : unpad bytes = some (unpadInPlace bytes) := by
  unfold unpad unpadInPlace
  split
  case isTrue => rfl
  case isFalse =>
    cases decodePrefix bytes with
    | error e => rfl
    | ok lengths =>
      obtain ⟨len, prefixLen⟩ := lengths
      dsimp only
      split
      case isTrue => rfl
      case isFalse =>
        split
        case isTrue => rfl
        case isFalse sized =>
          have covered := le_calcPadding len
          have within : prefixLen ≤ prefixLen + len ∧ prefixLen + len ≤ bytes.length := by omega
          rw [range, if_pos within, Option.map_some, List.drop_take, Nat.add_sub_cancel_left]

/-- Both readers accept the padded forms and nothing else, and read the same text out of them. -/
theorem unpad_exact :
    (∀ plaintext bytes : Bytes, unpad bytes = some (.ok plaintext) ↔ IsPadded plaintext bytes) ∧
      ∀ bytes : Bytes, unpad bytes = some (unpadInPlace bytes) := by
  refine ⟨fun plaintext bytes => ?_, unpad_eq⟩
  rw [unpad_eq, Option.some.injEq]
  exact unpadInPlace_ok_iff plaintext bytes

theorem unpad_pad {plaintext : Bytes} (nonempty : plaintext ≠ []) (bounded : plaintext.length < 2 ^ 32) :
    pad plaintext = .ok (Crypto.pad plaintext) ∧ unpad (Crypto.pad plaintext) = some (.ok plaintext) := by
  rw [unpad_eq, unpadInPlace_pad nonempty bounded]
  exact ⟨if_neg nonempty, rfl⟩

-- The last length of the short prefix and the first of the extended one.
example : (encodePrefix 65535, encodePrefix 65536) = ([255, 255], [0, 0, 0, 1, 0, 0]) := by decide

end Padding

section RoundTrip

variable {Key Seed : Type}

/-- What is sealed under any nonce has the shape of version 2, is read as such, and opens to the text it was made of. -/
theorem sealed_opens (nip44 : Nip44 Key Seed) {plaintext nonce : Bytes} {seed : Seed} (key : Key)
    (nonempty : plaintext ≠ []) (bounded : plaintext.length < 2 ^ 32) (filled : nip44.fill seed = some nonce) :
    (∃ ciphertext decoded, nip44.encrypt plaintext key seed = .ok ciphertext ∧
      base64Decode ciphertext = some decoded ∧ (decoded.drop 1).take saltLen = nonce ∧
      decoded.head? = some versionPadded ∧ Nip44.isSpecShape decoded = true ∧
      nip44.decrypt ciphertext key = nip44.decryptSpec decoded key ∧ nip44.decrypt ciphertext key = .ok plaintext) ∧
    ∃ padded, Padding.pad plaintext = .ok padded ∧ Padding.unpad padded = some (.ok plaintext) := by
  have nonceSize := nip44.fill_length filled
  have encrypted := Nip44.encrypt_eq nonempty filled key
  have read := Encoding.base64Decode_base64Encode (nip44.layout plaintext key nonce)
  obtain ⟨head, shape⟩ := Nip44.routed_layout nip44 plaintext nonceSize key
  refine ⟨⟨_, _, encrypted, read, ?_, head, shape, Nip44.decrypt_routed head shape read key,
    Nip44.decrypt_encrypt bounded encrypted⟩, _, Padding.unpad_pad nonempty bounded⟩
  exact (Nip44.cuts_of_layout rfl nonceSize (nip44.hmac_length _ _)).1

/-- A keystream of one byte, and a checksum of one byte in the place of the authenticator. -/
def xorNip44 : Nip44 Bytes UInt8 where
  keyBytes key := key
  fill seed := some (List.replicate saltLen seed)
  hmacSha256 key message := List.replicate macLen ((key ++ message).foldl (· ^^^ ·) 0)
  chacha20 key _ text := text.map (· ^^^ key.headD 0)
  decryptLegacy _ _ := .error "decrypt failed"
  fill_length := @length_of_filled
  hmac_length _ _ := List.length_replicate
  chacha20_length _ _ _ := List.length_map _
  chacha20_twice key _ text := by
    rw [List.map_map]
    conv_rhs => rw [← List.map_id text]
    apply List.map_congr_left
    intro b _
    rw [Function.comp_apply, UInt8.xor_assoc, UInt8.xor_self, UInt8.xor_zero, id]

theorem hello_opens :
    (∃ ciphertext decoded, xorNip44.encrypt [0x68, 0x69] [7] 3 = .ok ciphertext ∧
      base64Decode ciphertext = some decoded ∧ (decoded.drop 1).take saltLen = List.replicate saltLen 3 ∧
      decoded.head? = some versionPadded ∧ Nip44.isSpecShape decoded = true ∧
      xorNip44.decrypt ciphertext [7] = xorNip44.decryptSpec decoded [7] ∧
      xorNip44.decrypt ciphertext [7] = .ok [0x68, 0x69]) ∧
    ∃ padded, Padding.pad [0x68, 0x69] = .ok padded ∧ Padding.unpad padded = some (.ok [0x68, 0x69]) :=
  sealed_opens xorNip44 [7] (by decide) (by decide) rfl

end RoundTrip

end Soshal.Crypto
