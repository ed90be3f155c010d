import Soshal.Crypto.Nip44
import Soshal.Mesh.Link

/-! Whether what a party seals is small enough for the other end to open.

A link frame carries the ratchet header as JSON and the ciphertext as base64. The
limits of `encrypt` are on the payload; those of `decrypt` are on the frame, its
header and the base64 text, after compression, padding and encoding. The limit of
the base64 text is the one that can be exceeded.
-/

set_option autoImplicit false

namespace Soshal.Mesh

open Library Crypto
open Library.Text (byteLen utf8 fromUtf8)
open Library.Fallible (guard_eq_ok)

namespace PqcLinkCrypto

def declaredLen : Bytes → Nat
  | _ :: high :: low :: _ => high.toNat * 256 + low.toNat
  | _ => 0

/-- The size checks that `decrypt` and the ratchet below it make on a frame. -/
structure WithinCaps (bytes : Bytes) : Prop where
  frame : bytes.length ≤ maxLinkFrame
  header : declaredLen bytes ≤ maxLinkHeaderJson
  cut : 3 + declaredLen bytes + 1 ≤ bytes.length
  ciphertext : bytes.length - (3 + declaredLen bytes) ≤ maxRatchetCiphertext

def RefusedForSize (json : HeaderJson) (bytes : Bytes) : Prop :=
  parseFrame json bytes = .error "ratchet frame too large" ∨
    parseFrame json bytes = .error "bad ratchet header length" ∨
    ∃ header ciphertext, parseFrame json bytes = .ok (header, ciphertext) ∧ maxRatchetCiphertext < byteLen ciphertext

variable {Key Sk Secret Seed : Type} {p : Primitives Key Sk Secret Seed} {nip44 : Nip44 Key Seed} {json : HeaderJson}

theorem declaredLen_frame {text ciphertext : String} (small : byteLen text ≤ maxLinkHeaderJson) :
    declaredLen (frame text ciphertext) = byteLen text := headerLen_frame small

/-- A frame that `encrypt` writes keeps every limit as soon as its ciphertext keeps the limit of the ratchet. -/
theorem withinCaps_frame {text ciphertext : String} (small : byteLen text ≤ maxLinkHeaderJson)
    (nonempty : 0 < byteLen ciphertext) :
    WithinCaps (frame text ciphertext) ↔ byteLen ciphertext ≤ maxRatchetCiphertext := by
  have length := length_frame text ciphertext
  have declared := @declaredLen_frame text ciphertext small
  have rest : (frame text ciphertext).length - (3 + declaredLen (frame text ciphertext)) = byteLen ciphertext := by
    omega
  constructor
  · intro within
    exact rest ▸ within.ciphertext
  · intro fits
    simp only [maxLinkHeaderJson, maxRatchetCiphertext] at small fits
    refine ⟨?_, declared.symm ▸ small, by omega, rest.symm ▸ fits⟩
    simp only [maxLinkFrame]
    omega

theorem byteLen_of_parseFrame {bytes : Bytes} {header : HeaderOutput} {ciphertext : String}
    (parsed : parseFrame json bytes = .ok (header, ciphertext)) :
    byteLen ciphertext = bytes.length - (3 + declaredLen bytes) := by
  unfold parseFrame at parsed
  split at parsed
  case h_1 tag high low rest =>
    obtain ⟨_, parsed⟩ := guard_eq_ok.mp parsed
    obtain ⟨_, parsed⟩ := guard_eq_ok.mp parsed
    obtain ⟨_, parsed⟩ := guard_eq_ok.mp parsed
    split at parsed
    · cases parsed
    · split at parsed
      · cases parsed
      · split at parsed
        · cases parsed
        case h_2 read =>
          cases parsed
          rw [Text.byteLen_of_fromUtf8 read, List.length_drop, List.length_cons, List.length_cons, List.length_cons,
            declaredLen]
          omega
  case h_2 => cases parsed

theorem parseFrame_error {bytes : Bytes} {e : String} (failed : parseFrame json bytes = .error e) :
    (e = "ratchet frame too large" ∧ maxLinkFrame < bytes.length) ∨
      (e = "bad ratchet header length" ∧
        (maxLinkHeaderJson < declaredLen bytes ∨ bytes.length < 3 + declaredLen bytes + 1)) ∨
      e ∈ ["bad ratchet frame", "header not utf8", "bad ratchet header json", "ciphertext not utf8"] := by
  unfold parseFrame at failed
  split at failed
  case h_1 tag high low rest =>
    split at failed
    · cases failed
      simp
    · split at failed
      case isTrue large =>
        cases failed
        exact .inl ⟨rfl, large⟩
      case isFalse =>
        dsimp only at failed
        split at failed
        case isTrue cut =>
          cases failed
          exact .inr (.inl ⟨rfl, cut⟩)
        case isFalse =>
          right
          right
          split at failed
          · cases failed
            simp
          · split at failed
            · cases failed
              simp
            · split at failed <;> cases failed
              simp
  case h_2 =>
    cases failed
    simp

theorem WithinCaps.not_refused {bytes : Bytes} (within : WithinCaps bytes) (json : HeaderJson) :
    ¬ RefusedForSize json bytes := by
  rintro (failed | failed | ⟨header, ciphertext, parsed, exceeds⟩)
  · rcases parseFrame_error failed with ⟨_, large⟩ | ⟨other, _⟩ | other
    · exact absurd within.frame (Nat.not_le.mpr large)
    · simp at other
    · simp at other
  · rcases parseFrame_error failed with ⟨other, _⟩ | ⟨_, large | short⟩ | other
    · simp at other
    · exact absurd within.header (Nat.not_le.mpr large)
    · exact absurd within.cut (Nat.not_le.mpr short)
    · simp at other
  · have size := byteLen_of_parseFrame parsed
    have limit := within.ciphertext
    omega

/-- A frame is within the limits of the other end exactly when its payload deflates to less than 40 KiB. -/
theorem encrypt_within_iff {crypto after : PqcLinkCrypto Key Sk} {peer : String} {payload bytes : Bytes} {now : Nat}
    {draws : Draws Seed}
    (encrypted : crypto.encrypt (p.withNip44 nip44) json peer payload now draws = (after, .ok bytes)) :
    WithinCaps bytes ↔ DeflatesBelow p payload := by
  obtain ⟨state, newState, header, ciphertext, _, ratcheted, small, rfl⟩ := encrypt_ok encrypted
  obtain ⟨deflated, _, size⟩ := byteLen_encryptRatchet ratcheted
  have nonempty : 0 < byteLen ciphertext := by
    rw [size, sealedLen, saltLen]
    omega
  rw [withinCaps_frame small nonempty]
  exact encryptRatchet_fits_iff ratcheted

theorem sealed_sizes_accepted_iff (p : Primitives Key Sk Secret Seed) (nip44 : Nip44 Key Seed) (json : HeaderJson) :
    (∀ (state after : RatchetState Key Sk) (plaintext : Bytes) (draws : Draws Seed) (header : HeaderOutput)
        (ciphertext : String),
      encryptRatchet (p.withNip44 nip44) state plaintext draws = .ok (after, header, ciphertext) →
      (byteLen ciphertext ≤ maxRatchetCiphertext ↔ DeflatesBelow p plaintext) ∧
      (DeflatesBelow p plaintext → ∀ (receiver : RatchetState Key Sk) (received : HeaderOutput),
        checkHeader receiver received ciphertext ≠ .error "ciphertext too large")) ∧
    (∀ (crypto after : PqcLinkCrypto Key Sk) (peer : String) (payload bytes : Bytes) (now : Nat) (draws : Draws Seed),
      crypto.encrypt (p.withNip44 nip44) json peer payload now draws = (after, .ok bytes) →
      (WithinCaps bytes ↔ DeflatesBelow p payload) ∧
      (DeflatesBelow p payload → ∀ reader : HeaderJson, ¬ RefusedForSize reader bytes)) := by
  constructor
  · intro state after plaintext draws header ciphertext encrypted
    have fits := encryptRatchet_fits_iff encrypted
    exact ⟨fits, fun deflates => checkHeader_ne_too_large (fits.mpr deflates)⟩
  · intro crypto after peer payload bytes now draws encrypted
    have within := encrypt_within_iff encrypted
    exact ⟨within, fun deflates => (within.mpr deflates).not_refused⟩

section Transcribed

open Crypto.Transcript

/-- A cipher that hides nothing, with the lengths of the real one. -/
def clearNip44 : Nip44 Bytes UInt8 where
  keyBytes key := key
  fill seed := some (List.replicate saltLen seed)
  hmacSha256 _ _ := List.replicate macLen 0
  chacha20 _ _ text := text
  decryptLegacy _ _ := .error "decrypt failed"
  fill_length := @length_of_filled
  hmac_length _ _ := List.length_replicate
  chacha20_length _ _ _ := rfl
  chacha20_twice _ _ _ := rfl

def deflatingOne (text stream : Bytes) : Primitives Bytes UInt8 Bytes UInt8 :=
  { primitives with deflate := fun bytes => if bytes = text then some stream else none }

theorem deflate_deflatingOne (text stream : Bytes) : (deflatingOne text stream).deflate text = some stream := if_pos rfl

def caller : RatchetState Bytes UInt8 := { initState "" "i2p:caller" 1 (pkOf 1) with peerPk := pkOf 2 }

def callee : RatchetState Bytes UInt8 := initState (pkOf 1) "i2p:caller" 2 (pkOf 2)

def firstHeader : HeaderOutput := (opening caller 2 ⟨3, 4, 5⟩).header primitives

theorem firstHeader_lengths :
    byteLen firstHeader.pk = hybridPkLen * 2 ∧ byteLen firstHeader.ct = hybridCtLen * 2 :=
  ⟨ideal.pkLength (keygen_eq 4), ideal.ctLength (encapsulate_pkOf 2 3)⟩

theorem byteLen_firstHeader : byteLen (headerText firstHeader) = 4811 := byteLen_opening_header rfl 2 ⟨3, 4, 5⟩

theorem firstHeader_small : byteLen (headerText firstHeader) ≤ maxLinkHeaderJson := by
  rw [byteLen_firstHeader]
  decide

theorem sendingEpoch_deflatingOne (text stream : Bytes) (state : RatchetState Bytes UInt8) (draws : Draws UInt8) :
    sendingEpoch ((deflatingOne text stream).withNip44 clearNip44) state draws = sendingEpoch primitives state draws := rfl

theorem caller_knows : caller.peerPk ≠ "" := by
  rw [show caller.peerPk = pkOf 2 from rfl]
  exact pkOf_ne_empty 2

theorem caller_sends {text stream : Bytes} (fits : text.length ≤ maxLinkPayload) :
    ∃ after ciphertext,
      encryptRatchet ((deflatingOne text stream).withNip44 clearNip44) caller text ⟨3, 4, 5⟩ =
        .ok (after, firstHeader, ciphertext) ∧
      (PqcLinkCrypto.new.put "callee" caller 0).encrypt ((deflatingOne text stream).withNip44 clearNip44)
          (oneHeader firstHeader) "callee" text 1 ⟨3, 4, 5⟩ =
        ((PqcLinkCrypto.new.put "callee" caller 0).put "callee" after 1, .ok (frame (headerText firstHeader) ciphertext)) := by
  have input : ¬ text.length > maxInputLen := by
    simp only [maxLinkPayload, maxInputLen] at fits ⊢
    omega
  have compressed : compressBytes ((deflatingOne text stream).withNip44 clearNip44) text =
      .ok (rawPlaintextTag :: stream) := by
    have deflated : ((deflatingOne text stream).withNip44 clearNip44).deflate text = some stream :=
      deflate_deflatingOne text stream
    rw [compressBytes, if_neg input, deflated]
  have chosen : sendingEpoch ((deflatingOne text stream).withNip44 clearNip44) caller ⟨3, 4, 5⟩ =
      .ok (opening caller 2 ⟨3, 4, 5⟩) := by
    rw [sendingEpoch_deflatingOne]
    exact sendingEpoch_opening ⟨3, 4, 5⟩ rfl rfl
  have ratcheted := encryptRatchet_of rfl caller_knows chosen compressed rfl
  exact ⟨_, _, ratcheted, encrypt_of_ratchet fits (get_put _ _ _ _) caller_knows ratcheted firstHeader_small 1⟩

theorem short_payload_accepted :
    ∃ after bytes, (PqcLinkCrypto.new.put "callee" caller 0).encrypt
        ((deflatingOne [0x68, 0x69] [0xcb, 0xc8, 0x04, 0x00]).withNip44 clearNip44) (oneHeader firstHeader) "callee"
        [0x68, 0x69] 1 ⟨3, 4, 5⟩ = (after, .ok bytes) ∧ WithinCaps bytes := by
  obtain ⟨_, _, _, encrypted⟩ := @caller_sends [0x68, 0x69] [0xcb, 0xc8, 0x04, 0x00] (by decide)
  have sizes := (sealed_sizes_accepted_iff (deflatingOne [0x68, 0x69] [0xcb, 0xc8, 0x04, 0x00]) clearNip44
    (oneHeader firstHeader)).2 _ _ _ _ _ _ _ encrypted
  exact ⟨_, _, encrypted, sizes.1.mpr ⟨_, deflate_deflatingOne _ _, by decide⟩⟩

/-- The other end of the session reads the frame of a ciphertext that is too long, and refuses it. -/
theorem long_ciphertext_refused (p : Primitives Bytes UInt8 Bytes UInt8) {receiver : RatchetState Bytes UInt8}
    {header : HeaderOutput} {ciphertext : String} (version : receiver.version = ratchetVersion)
    (headerVersion : header.version = ratchetVersion) (pkLength : byteLen header.pk = hybridPkLen * 2)
    (ctLength : byteLen header.ct = hybridCtLen * 2) (small : byteLen (headerText header) ≤ maxLinkHeaderJson)
    (large : maxRatchetCiphertext < byteLen ciphertext)
    (fits : 3 + byteLen (headerText header) + byteLen ciphertext ≤ maxLinkFrame) :
    ¬ WithinCaps (frame (headerText header) ciphertext) ∧
      ((PqcLinkCrypto.new.put "caller" receiver 0).decrypt p (oneHeader header) "caller"
        (frame (headerText header) ciphertext) 2 6).2 = .error "ciphertext too large" := by
  have nonempty := Nat.zero_lt_of_lt large
  have parsed := parseFrame_of_read small (read_oneHeader header) nonempty fits
  have refused :=
    @decryptRatchet_too_large _ _ _ _ p receiver header ciphertext 6 version headerVersion pkLength ctLength large
  constructor
  · rw [withinCaps_frame small nonempty]
    exact Nat.not_le.mpr large
  · simp only [decrypt, parsed, get_put, refused]

/-- Bytes in which the compressor finds nothing to refer back to. -/
def noise : Bytes :=
  (List.range 45000).map fun i => UInt8.ofNat (((i + 1) ^ 3 * 40503 + (i + 1) ^ 2 * 25717 + (i + 1) * 12345) / 256)

def photo : Bytes := noise ++ List.replicate 4000 0

/-- The noise as one stored block, the run of zeros as a block of back references. -/
def photoStream : Bytes :=
  [0x00, 0xc8, 0xaf, 0x37, 0x50] ++ noise ++
    [0x63, 0x60, 0x18, 0x05, 0xa3, 0x60, 0x14, 0x8c, 0x82, 0x51, 0x30, 0x0a, 0x46, 0xc1, 0x28,
      0x18, 0x05, 0xa3, 0x60, 0x14, 0x8c, 0x82, 0x51, 0x30, 0x0a, 0x46, 0xc1, 0x40, 0x03, 0x00]

theorem length_noise : noise.length = 45000 := by rw [noise, List.length_map, List.length_range]

theorem length_photo : photo.length = 49000 := by
  rw [photo, List.length_append, length_noise, List.length_replicate]

theorem length_photoStream : photoStream.length = 45035 := by
  rw [photoStream, List.length_append, List.length_append, length_noise]
  rfl

theorem sealedLen_photoStream : (sealedLen (photoStream.length + 1) + 2) / 3 * 4 = 65628 := by
  rw [length_photoStream, sealedLen, length_encodePrefix, calcPadding_upper (by decide) (by decide)]
  decide

/-- A payload within the limit of a link, in a form smaller than itself, that the other end of the session refuses. -/
theorem photo_refused_for_size :
    (∀ bytes stream, (deflatingOne photo photoStream).deflate bytes = some stream → stream.length ≤ bytes.length) ∧
    photo.length ≤ maxLinkPayload ∧
    ∃ after bytes,
      (PqcLinkCrypto.new.put "callee" caller 0).encrypt ((deflatingOne photo photoStream).withNip44 clearNip44)
        (oneHeader firstHeader) "callee" photo 1 ⟨3, 4, 5⟩ = (after, .ok bytes) ∧
      ¬ WithinCaps bytes ∧
      ((PqcLinkCrypto.new.put "caller" callee 0).decrypt ((deflatingOne photo photoStream).withNip44 clearNip44)
        (oneHeader firstHeader) "caller" bytes 2 6).2 = .error "ciphertext too large" := by
  have fits : photo.length ≤ maxLinkPayload := by
    rw [length_photo]
    decide
  have shorter : photoStream.length ≤ photo.length := by
    rw [length_photo, length_photoStream]
    decide
  have size := sealedLen_photoStream
  generalize photo = text at fits shorter ⊢
  generalize photoStream = stored at shorter size ⊢
  refine ⟨?_, fits, ?_⟩
  · intro bytes stream deflated
    by_cases same : bytes = text
    · subst same
      cases deflated.symm.trans (deflate_deflatingOne bytes stored)
      exact shorter
    · simp [deflatingOne, same] at deflated
  · obtain ⟨after, ciphertext, ratcheted, encrypted⟩ := @caller_sends text stored fits
    obtain ⟨deflated, deflates, length⟩ := byteLen_encryptRatchet ratcheted
    cases deflates.symm.trans (deflate_deflatingOne text stored)
    rw [size] at length
    have large : maxRatchetCiphertext < byteLen ciphertext := by
      rw [length]
      decide
    have framed : 3 + byteLen (headerText firstHeader) + byteLen ciphertext ≤ maxLinkFrame := by
      rw [length, byteLen_firstHeader]
      decide
    exact ⟨_, _, encrypted, long_ciphertext_refused _ rfl rfl firstHeader_lengths.1 firstHeader_lengths.2
      firstHeader_small large framed⟩

end Transcribed

end PqcLinkCrypto

end Soshal.Mesh
