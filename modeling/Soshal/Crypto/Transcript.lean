import Soshal.Crypto.Ideal
import Mathlib.Data.UInt

/-! Primitives that keep everything they are given.

A key is the transcript of its derivation, a ciphertext carries the transcript of
the key that sealed it, and a shared secret names the draw and the key pair it
came from. Nothing is hidden, but nothing is confused either, which is what the
ideal primitives ask for.
-/

set_option autoImplicit false

namespace Soshal.Crypto.Transcript

open Library
open Library.Text (byteLen utf8 hexEncode)
open Library.Encoding (hexDecode)
open Library.Fallible (guard_eq_ok)

def framed (bytes : Bytes) : Bytes := List.replicate bytes.length 1 ++ 0 :: bytes

theorem framed_append_inj {first second rest rest' : Bytes} (same : framed first ++ rest = framed second ++ rest') :
    first = second ∧ rest = rest' := by
  have counts : ∀ (n m : Nat) (x y : Bytes), List.replicate n (1 : UInt8) ++ 0 :: x = List.replicate m 1 ++ 0 :: y →
      n = m ∧ x = y := by
    intro n
    induction n with
    | zero =>
      intro m x y same
      cases m with
      | zero => exact ⟨rfl, (List.cons.inj same).2⟩
      | succ m => exact absurd (List.cons.inj same).1 (by decide)
    | succ n ih =>
      intro m x y same
      cases m with
      | zero => exact absurd (List.cons.inj same).1 (by decide)
      | succ m =>
        obtain ⟨index, tail⟩ := ih m x y (List.cons.inj same).2
        exact ⟨congrArg Nat.succ index, tail⟩
  simp only [framed, List.append_assoc, List.cons_append] at same
  obtain ⟨length, tail⟩ := counts _ _ _ _ same
  exact List.append_inj tail length

/-- The transcript of one derivation: its label, then each input. -/
def record (label : UInt8) (inputs : List Bytes) (context : String) : Bytes :=
  label :: (inputs.flatMap framed ++ utf8 context)

theorem record_inj {label label' : UInt8} {inputs inputs' : List Bytes} {context context' : String}
    (same : record label inputs context = record label' inputs' context') (arity : inputs.length = inputs'.length) :
    label = label' ∧ inputs = inputs' ∧ context = context' := by
  obtain ⟨labels, rest⟩ := List.cons.inj same
  refine ⟨labels, ?_⟩
  clear same labels
  induction inputs generalizing inputs' with
  | nil =>
    cases inputs' with
    | nil => exact ⟨rfl, Text.utf8_inj rest⟩
    | cons _ _ => cases arity
  | cons input inputs ih =>
    cases inputs' with
    | nil => cases arity
    | cons input' inputs' =>
      simp only [List.flatMap_cons, List.append_assoc] at rest
      obtain ⟨rfl, later⟩ := framed_append_inj rest
      obtain ⟨rfl, rfl⟩ := ih (Nat.succ.inj arity) later
      exact ⟨rfl, rfl⟩

theorem length_framed (bytes : Bytes) : (framed bytes).length = 2 * bytes.length + 1 := by
  simp only [framed, List.length_append, List.length_replicate, List.length_cons]
  omega

theorem length_record (label : UInt8) (input : Bytes) (context : String) :
    (record label [input] context).length = 2 * input.length + 2 + byteLen context := by
  simp only [record, List.flatMap_cons, List.flatMap_nil, List.append_nil, List.length_cons, List.length_append,
    length_framed, Text.length_utf8]
  omega

def sealUnder (plaintext key : Bytes) (nonce : UInt8) : Except String String :=
  if plaintext = [] then .error "empty plaintext" else .ok (hexEncode (framed key ++ nonce :: plaintext))

def openUnder (ciphertext : String) (key : Bytes) : Except String Bytes :=
  match hexDecode ciphertext with
  | none => .error "invalid base64"
  | some bytes =>
    if framed key <+: bytes then .ok (bytes.drop ((framed key).length + 1)) else .error "invalid mac"

theorem openUnder_sealUnder {plaintext key : Bytes} {nonce : UInt8} {ciphertext : String}
    (sealed : sealUnder plaintext key nonce = .ok ciphertext) : openUnder ciphertext key = .ok plaintext := by
  obtain ⟨_, same⟩ := guard_eq_ok.mp sealed
  cases same
  simp [openUnder]

theorem key_of_openUnder {plaintext key other text : Bytes} {nonce : UInt8} {ciphertext : String}
    (sealed : sealUnder plaintext key nonce = .ok ciphertext) (opened : openUnder ciphertext other = .ok text) :
    other = key := by
  obtain ⟨_, same⟩ := guard_eq_ok.mp sealed
  cases same
  simp only [openUnder, Encoding.hexDecode_hexEncode] at opened
  split at opened
  case isTrue starts =>
    obtain ⟨rest, same⟩ := starts
    exact (framed_append_inj same).1
  case isFalse => cases opened

def pkOf (seed : UInt8) : String := hexEncode (List.replicate hybridPkLen seed)

def ctOf (draw : UInt8) : String := hexEncode (List.replicate hybridCtLen draw)

def primitives : Primitives Bytes UInt8 Bytes UInt8 where
  hybridKeygen seed := some (pkOf seed, seed)
  hybridEncapsulate pk draw :=
    match hexDecode pk with
    | some (holder :: _) => some (ctOf draw, [draw, holder])
    | _ => none
  hybridDecapsulate ct sk :=
    match hexDecode ct with
    | some (draw :: _) => some [draw, sk]
    | _ => none
  initRoot secret context := record 0 [secret] context
  deriveRootStep secret root context := (record 1 [secret, root] context, record 2 [secret, root] context)
  deriveChain root context := record 3 [root] context
  deriveMsgKey chain context := (record 4 [chain] context, record 5 [chain] context)
  headerMac root pk ct seq chainCounter :=
    List.replicate 32 ((root.getD [] ++ utf8 pk ++ utf8 ct ++ utf8 (toString seq) ++ utf8 (toString chainCounter)).sum)
  deflate bytes := some bytes
  inflateLimited bytes := if bytes.length ≤ 4 * 1024 * 1024 then some bytes else none
  jsonPlaintext _ := none
  nip44Encrypt := sealUnder
  nip44Decrypt := openUnder

theorem ideal : Ideal primitives where
  generates seed := ⟨_, _, rfl⟩
  pkLength generated := by
    cases generated
    rw [pkOf, Text.byteLen_hexEncode, List.length_replicate]
  ctLength encapsulated := by
    simp only [primitives] at encapsulated
    split at encapsulated
    · cases encapsulated
      rw [ctOf, Text.byteLen_hexEncode, List.length_replicate]
    · cases encapsulated
  decapsulates generated encapsulated := by
    cases generated
    simp only [primitives, pkOf, Encoding.hexDecode_hexEncode] at encapsulated ⊢
    cases encapsulated
    simp only [ctOf, Encoding.hexDecode_hexEncode]
    rfl
  separates {x y} same := by
    cases x <;> cases y <;> simp only [Primitives.derive, primitives] at same <;>
      first
      | exact absurd (List.cons.inj same).1 (by decide)
      | (obtain ⟨_, inputs, rfl⟩ := record_inj same rfl; cases inputs; rfl)
  opens sealed := openUnder_sealUnder sealed
  refuses sealed opened := key_of_openUnder sealed opened
  inflates small deflated := by
    cases deflated
    have : _ ≤ 4 * 1024 * 1024 := Nat.le_trans small (by decide)
    simp only [primitives, if_pos this]

theorem keygen_eq (seed : UInt8) : primitives.hybridKeygen seed = some (pkOf seed, seed) := rfl

theorem encapsulate_pkOf (holder draw : UInt8) :
    primitives.hybridEncapsulate (pkOf holder) draw = some (ctOf draw, [draw, holder]) := by
  simp only [primitives, pkOf, Encoding.hexDecode_hexEncode]
  rfl

theorem pkOf_ne_empty (seed : UInt8) : pkOf seed ≠ "" := by
  intro empty
  have length := ideal.pkLength (keygen_eq seed)
  rw [empty] at length
  exact absurd length (by decide)

/-- The epoch a party opens towards the holder of a key pair. -/
def opening (state : RatchetState Bytes UInt8) (holder : UInt8) (draws : Draws UInt8) : SendingEpoch Bytes UInt8 :=
  let advanced := advanceRoot primitives state.rootKey [draws.encapsulation, holder] state.context
  { rootKey := some advanced.1, chainKey := advanced.2, chainCounter := state.chainCounter + 1, seq := 0,
    peerPk := pkOf holder, ct := ctOf draws.encapsulation, sk := draws.keypair, pk := pkOf draws.keypair }

/-- What a party puts on the wire that seals with the next key of an epoch. -/
def sealedText (state : RatchetState Bytes UInt8) (epoch : SendingEpoch Bytes UInt8) (plaintext : Bytes) (nonce : UInt8) :
    String :=
  hexEncode (framed (chainStep primitives state.context epoch.chainKey).1 ++ nonce :: rawPlaintextTag :: plaintext)

def openingText (state : RatchetState Bytes UInt8) (holder : UInt8) (draws : Draws UInt8) (plaintext : Bytes) : String :=
  sealedText state (opening state holder draws) plaintext draws.nonce

theorem compressBytes_raw {plaintext : Bytes} (small : plaintext.length ≤ maxInputLen) :
    compressBytes primitives plaintext = .ok (rawPlaintextTag :: plaintext) := by
  rw [compressBytes, if_neg (Nat.not_lt.mpr small)]
  rfl

theorem encryptRatchet_chosen {state : RatchetState Bytes UInt8} {epoch : SendingEpoch Bytes UInt8}
    {draws : Draws UInt8} {plaintext : Bytes} (version : state.version = ratchetVersion) (addressed : state.peerPk ≠ "")
    (small : plaintext.length ≤ maxInputLen) (chosen : sendingEpoch primitives state draws = .ok epoch) :
    encryptRatchet primitives state plaintext draws =
      .ok (epoch.after primitives state, epoch.header primitives, sealedText state epoch plaintext draws.nonce) :=
  encryptRatchet_of version addressed chosen (compressBytes_raw small) rfl

theorem sendingEpoch_opening {state : RatchetState Bytes UInt8} {holder : UInt8} (draws : Draws UInt8)
    (peer : state.peerPk = pkOf holder) (first : state.sendingChainKey = none) :
    sendingEpoch primitives state draws = .ok (opening state holder draws) := by
  simp only [sendingEpoch, first, openSendingEpoch, peer, encapsulate_pkOf, keygen_eq]
  rfl

theorem encryptRatchet_opening {state : RatchetState Bytes UInt8} {holder : UInt8} (draws : Draws UInt8)
    {plaintext : Bytes} (version : state.version = ratchetVersion) (peer : state.peerPk = pkOf holder)
    (first : state.sendingChainKey = none) (small : plaintext.length ≤ maxInputLen) :
    encryptRatchet primitives state plaintext draws =
      .ok ((opening state holder draws).after primitives state, (opening state holder draws).header primitives,
        openingText state holder draws plaintext) :=
  encryptRatchet_chosen version (peer ▸ pkOf_ne_empty holder) small (sendingEpoch_opening draws peer first)

theorem byteLen_openingText {state : RatchetState Bytes UInt8} (fresh : state.rootKey = none) (holder : UInt8)
    (draws : Draws UInt8) (plaintext : Bytes) :
    byteLen (openingText state holder draws plaintext) = 2 * plaintext.length + 28 * byteLen state.context + 126 := by
  rw [openingText, sealedText, Text.byteLen_hexEncode]
  simp only [chainStep, primitives, opening, advanceRoot, fresh, List.length_append, List.length_cons,
    List.length_nil, length_framed, length_record]
  omega

end Soshal.Crypto.Transcript
