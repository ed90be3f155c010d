import Soshal.Crypto.Receiving
import Soshal.Library.Checked

/-! The ratchet as a release build runs it: counters are 64-bit integers, and an
overflow ends the process.

The calls are those of the unbounded model with every sum and difference checked
where the sources write one. Keys derived for messages that have not arrived are
counted, so that a header cannot ask for more work than the window allows.
-/

set_option autoImplicit false

namespace Soshal.Crypto.Release

open Library
open Library.Checked
open Library.Text (byteLen)
open Library.KeyChain (push chainAt keyAt)

variable {Key Sk Secret Seed : Type} (p : Primitives Key Sk Secret Seed)

def HeaderInRange (header : HeaderOutput) : Prop := InI64 header.seq ∧ InI64 header.chainCounter

variable (state : RatchetState Key Sk) (header : HeaderOutput) (ciphertext : String)

def sendingEpoch (draws : Draws Seed) : Call (SendingEpoch Key Sk) :=
  if state.sendingChainKey = none ∨ state.peerPk ≠ state.sendingEpochPeerPk then do
    let epoch ← Call.ofExcept (openSendingEpoch p state draws)
    let chainCounter ← Call.arith (state.chainCounter + 1)
    return { epoch with chainCounter := chainCounter }
  else Call.ofExcept (Crypto.sendingEpoch p state draws)

def encryptRatchet (plaintext : Bytes) (draws : Draws Seed) : Call (RatchetState Key Sk × HeaderOutput × String) := do
  Call.failIf (state.version ≠ ratchetVersion) "ratchet v3 required"
  Call.failIf (state.peerPk = "") "no peer public key"
  let epoch ← sendingEpoch p state draws
  let compressed ← Call.ofExcept (compressBytes p plaintext)
  let ciphertext ← Call.ofExcept (p.nip44Encrypt compressed (p.deriveMsgKey epoch.chainKey state.context).1 draws.nonce)
  let counter ← Call.arith (epoch.seq + 1)
  return ({ epoch.after p state with sendingChainCounter := counter }, epoch.header p, ciphertext)

def checkHeader : Call Unit := do
  Call.failIf (state.version ≠ ratchetVersion) "ratchet v3 required"
  Call.failIf (header.version ≠ ratchetVersion) "unsupported ratchet header version"
  Call.failIf (byteLen header.pk ≠ hybridPkLen * 2) "bad pk size"
  Call.failIf (byteLen header.ct ≠ hybridCtLen * 2) "bad ct size"
  Call.failIf (byteLen ciphertext > maxRatchetCiphertext) "ciphertext too large"
  let following ← Call.arith (header.chainCounter + 1)
  Call.failIf (following < state.chainCounter) "replay"
  let next ← Call.arith (state.chainCounter + 1)
  Call.failIf (header.chainCounter > next)
    "message too far ahead of ratchet (lost messages; re-sync required)"

def receivingEpoch (keypair : Seed) : Call (Receiving Key Sk) := do
  let _ ← Call.arith (state.chainCounter + 1)
  Call.ofExcept (Crypto.receivingEpoch p state header keypair)

/-- Derives the keys of positions `i` up to `i + gap` of the chain that starts at `prevCounter`. -/
def skipKeys (context : String) (prevCounter : Int) : Nat → Int → Key → List (SkippedKey Key) →
    Call (Key × List (SkippedKey Key))
  | 0, _, chain, skipped => pure (chain, skipped)
  | gap + 1, i, chain, skipped => do
    let derived ← Call.counted 1 (p.deriveMsgKey chain context)
    let seq ← Call.arith (prevCounter + i)
    skipKeys context prevCounter gap (i + 1) derived.2 (push maxRatchetWindow skipped ⟨seq, derived.1⟩)

def messageKey (receiving : Receiving Key Sk) : Call (MessageKey Key Sk) := do
  let following ← Call.arith (header.chainCounter + 1)
  if following = state.chainCounter then
    let (key, rest) ← Call.ofExcept (takeSkipped receiving.out.prevEpochSkipped header.seq)
    return { out := { receiving.out with prevEpochSkipped := rest }, key := key, macOk := false }
  else if header.seq < receiving.prevCounter then
    let (key, rest) ← Call.ofExcept (takeSkipped receiving.out.skipped header.seq)
    return { out := { receiving.out with skipped := rest }, key := key, macOk := true }
  else
    let gap ← Call.arith (header.seq - receiving.prevCounter)
    Call.failIf (gap > maxRatchetWindow)
      "message too far ahead of ratchet (lost messages; re-sync required)"
    let (chain, skipped) ← skipKeys p state.context receiving.prevCounter gap.toNat 0 receiving.chain receiving.out.skipped
    let derived := p.deriveMsgKey chain state.context
    let counter ← Call.arith (header.seq + 1)
    pure
      { out := { receiving.out with
          skipped := skipped
          receivingChainKey := some derived.2
          receivingChainCounter := counter }
        key := derived.1
        macOk := true }

def decryptRatchet (keypair : Seed) : Call (RatchetState Key Sk × Bytes) := do
  checkHeader state header ciphertext
  let receiving ← receivingEpoch p state header keypair
  let taken ← messageKey p state header receiving
  let compressed ← Call.ofExcept (p.nip44Decrypt ciphertext taken.key)
  let plaintext ← Call.ofExcept (decompressBytes p compressed)
  let out ← Call.ofExcept (adoptPeerKey p header taken)
  return (out, plaintext)

variable {p}

/-- What is checked of a call before any arithmetic. -/
structure Sized (state : RatchetState Key Sk) (header : HeaderOutput) (ciphertext : String) : Prop where
  version : state.version = ratchetVersion
  headerVersion : header.version = ratchetVersion
  pkLength : byteLen header.pk = hybridPkLen * 2
  ctLength : byteLen header.ct = hybridCtLen * 2
  short : byteLen ciphertext ≤ maxRatchetCiphertext

/-- The counters of a header that the arithmetic of a call runs out on: the header's own counter is the last there is,
or the session's is, or the position is the last one of a chain that has come near it. -/
structure Overflows (state : RatchetState Key Sk) (header : HeaderOutput) (ciphertext : String) : Prop where
  sized : Sized state header ciphertext
  last : header.chainCounter = maxI64 ∨ (state.chainCounter = maxI64 ∧ maxI64 ≤ header.chainCounter + 1) ∨
    (header.chainCounter = state.chainCounter ∧ state.receivingChainKey ≠ none ∧ header.seq = maxI64 ∧
      maxI64 ≤ state.receivingChainCounter + maxRatchetWindow)

theorem checkHeader_outcome {state : RatchetState Key Sk} {header : HeaderOutput} {ciphertext : String}
    (fits : Sized state header ciphertext → InI64 (header.chainCounter + 1))
    (next : Sized state header ciphertext → state.chainCounter ≤ header.chainCounter + 1 →
      InI64 (state.chainCounter + 1)) :
    (checkHeader state header ciphertext).outcome = lift (Crypto.checkHeader state header ciphertext) := by
  simp only [checkHeader, Call.failIf_bind]
  conv_rhs => simp only [Crypto.checkHeader, bind, Except.bind, throw, throwThe, MonadExceptOf.throw]
  refine refuse_alike fun version => refuse_alike fun headerVersion => refuse_alike fun pkLength =>
    refuse_alike fun ctLength => refuse_alike fun short => ?_
  have sized : Sized state header ciphertext :=
    ⟨not_not.mp version, not_not.mp headerVersion, not_not.mp pkLength, not_not.mp ctLength, Nat.not_lt.mp short⟩
  rw [Call.arith_of (fits sized), Call.pure_bind]
  refine refuse_alike fun recent => ?_
  rw [Call.arith_of (next sized (Int.not_lt.mp recent)), Call.pure_bind]
  exact refuse_alike fun _ => rfl

theorem checkHeader_overflows {state : RatchetState Key Sk} {header : HeaderOutput} {ciphertext : String}
    (sized : Sized state header ciphertext)
    (beyond : ¬ InI64 (header.chainCounter + 1) ∨
      state.chainCounter ≤ header.chainCounter + 1 ∧ ¬ InI64 (state.chainCounter + 1)) :
    (checkHeader state header ciphertext).outcome = .error .overflow := by
  simp only [checkHeader, Call.failIf_bind]
  rw [if_neg (not_not.mpr sized.version), if_neg (not_not.mpr sized.headerVersion), if_neg (not_not.mpr sized.pkLength),
    if_neg (not_not.mpr sized.ctLength), if_neg (Nat.not_lt.mpr sized.short)]
  by_cases fits : InI64 (header.chainCounter + 1)
  · obtain ⟨recent, next⟩ := beyond.resolve_left (not_not.mpr fits)
    rw [Call.arith_of fits, Call.pure_bind, if_neg (Int.not_lt.mpr recent)]
    exact Call.arith_overflow next _
  · exact Call.arith_overflow fits _

theorem receivingEpoch_outcome {state : RatchetState Key Sk} (next : InI64 (state.chainCounter + 1))
    (header : HeaderOutput) (keypair : Seed) :
    (receivingEpoch p state header keypair).outcome = lift (Crypto.receivingEpoch p state header keypair) := by
  rw [receivingEpoch, Call.arith_of next, Call.pure_bind, Call.ofExcept_outcome]

theorem skipKeys_outcome {context : String} {prevCounter : Int} (started : 0 ≤ prevCounter) (gap : Nat) {i : Int}
    (index : 0 ≤ i) (fits : prevCounter + i + gap ≤ maxI64) (chain : Key) (skipped : List (SkippedKey Key)) :
    (skipKeys p context prevCounter gap i chain skipped).outcome =
      .ok (Crypto.skipKeys p context gap (prevCounter + i) chain skipped) := by
  induction gap generalizing i chain skipped with
  | zero => rfl
  | succ gap ih =>
    have position : InI64 (prevCounter + i) := by
      rw [Nat.cast_succ] at fits
      simp only [InI64, minI64, maxI64] at fits ⊢
      omega
    rw [skipKeys, Crypto.skipKeys, Call.bind_outcome, Call.counted_outcome, Fallible.ok_bind, Call.arith_of position,
      Call.pure_bind, ih (by omega) (by rw [Nat.cast_succ] at fits; omega), ← Int.add_assoc]

theorem skipKeys_work {context : String} {prevCounter : Int} (gap : Nat) (i : Int) (chain : Key)
    (skipped : List (SkippedKey Key)) : (skipKeys p context prevCounter gap i chain skipped).work ≤ gap := by
  induction gap generalizing i chain skipped with
  | zero => exact Nat.le_refl 0
  | succ gap ih =>
    rw [skipKeys, Nat.add_comm]
    refine Call.bind_work_le (Nat.le_refl 1) fun derived _ => ?_
    exact Call.bind_work_free (Call.arith_work _) fun seq => ih _ _ _

section MessageKey

variable {state : RatchetState Key Sk} {header : HeaderOutput} {receiving : Receiving Key Sk}

theorem messageKey_reaches (fits : InI64 (header.chainCounter + 1))
    (current : header.chainCounter + 1 ≠ state.chainCounter)
    (started : 0 ≤ receiving.prevCounter) (reached : receiving.prevCounter ≤ header.seq) (range : InI64 header.seq)
    (near : header.seq - receiving.prevCounter ≤ maxRatchetWindow) :
    messageKey p state header receiving = (do
      let (chain, skipped) ← skipKeys p state.context receiving.prevCounter (header.seq - receiving.prevCounter).toNat 0
        receiving.chain receiving.out.skipped
      let derived := p.deriveMsgKey chain state.context
      let counter ← Call.arith (header.seq + 1)
      pure
        { out := { receiving.out with
            skipped := skipped
            receivingChainKey := some derived.2
            receivingChainCounter := counter }
          key := derived.1
          macOk := true }) := by
  have distance : InI64 (header.seq - receiving.prevCounter) := by
    simp only [InI64, minI64, maxI64] at range ⊢
    omega
  rw [messageKey, Call.arith_of fits, Call.pure_bind, if_neg current, if_neg (Int.not_lt.mpr reached),
    Call.arith_of distance, Call.pure_bind, Call.failIf_bind, if_neg (Int.not_lt.mpr near)]

theorem messageKey_outcome (fits : InI64 (header.chainCounter + 1)) (started : 0 ≤ receiving.prevCounter)
    (range : InI64 header.seq)
    (last : header.chainCounter + 1 ≠ state.chainCounter → header.seq - receiving.prevCounter ≤ maxRatchetWindow →
      header.seq ≠ maxI64) :
    (messageKey p state header receiving).outcome = lift (Crypto.messageKey p state header receiving) := by
  by_cases current : header.chainCounter + 1 = state.chainCounter
  · rw [messageKey, Crypto.messageKey, Call.arith_of fits, Call.pure_bind, if_pos current, if_pos current]
    exact bind_alike rfl fun _ _ => rfl
  · rcases lt_or_ge header.seq receiving.prevCounter with before | reached
    · rw [messageKey, Crypto.messageKey, Call.arith_of fits, Call.pure_bind, if_neg current, if_neg current,
        if_pos before, if_pos before]
      exact bind_alike rfl fun _ _ => rfl
    · rcases lt_or_ge (maxRatchetWindow : Int) (header.seq - receiving.prevCounter) with far | near
      · have distance : InI64 (header.seq - receiving.prevCounter) := by
          simp only [InI64, minI64, maxI64] at range ⊢
          omega
        rw [messageKey, Crypto.messageKey, Call.arith_of fits, Call.pure_bind, if_neg current, if_neg current,
          if_neg (Int.not_lt.mpr reached), if_neg (Int.not_lt.mpr reached), Call.arith_of distance, Call.pure_bind,
          Call.failIf_bind, if_pos far]
        dsimp only
        rw [if_pos far]
        rfl
      · have following : InI64 (header.seq + 1) := by
          have below := last current near
          simp only [InI64, minI64, maxI64] at range below ⊢
          omega
        have bound : receiving.prevCounter + 0 + (header.seq - receiving.prevCounter).toNat ≤ maxI64 := by
          rw [Int.toNat_of_nonneg (by omega)]
          have := range.2
          omega
        rw [messageKey_reaches fits current started reached range near, Call.bind_outcome,
          skipKeys_outcome started _ (Int.le_refl 0) bound, Fallible.ok_bind, Int.add_zero, Call.arith_of following,
          Crypto.messageKey, if_neg current, if_neg (Int.not_lt.mpr reached)]
        dsimp only
        rw [if_neg (Int.not_lt.mpr near)]
        rfl

theorem messageKey_overflows (fits : InI64 (header.chainCounter + 1))
    (current : header.chainCounter + 1 ≠ state.chainCounter)
    (started : 0 ≤ receiving.prevCounter) (reached : receiving.prevCounter ≤ maxI64) (last : header.seq = maxI64)
    (near : maxI64 ≤ receiving.prevCounter + maxRatchetWindow) :
    (messageKey p state header receiving).outcome = .error .overflow := by
  have range : InI64 header.seq := by
    rw [last]
    decide
  have beyond : ¬ InI64 (header.seq + 1) := by
    rw [last]
    decide
  have bound : receiving.prevCounter + 0 + (header.seq - receiving.prevCounter).toNat ≤ maxI64 := by
    rw [Int.toNat_of_nonneg (by omega)]
    omega
  rw [messageKey_reaches fits current started (by omega) range (by omega), Call.bind_outcome,
    skipKeys_outcome started _ (Int.le_refl 0) bound, Fallible.ok_bind]
  exact Call.arith_overflow beyond _

theorem messageKey_work : (messageKey p state header receiving).work ≤ maxRatchetWindow := by
  rw [messageKey]
  refine Call.bind_work_free (Call.arith_work _) fun following => ?_
  split
  case isTrue => exact Call.bind_work_free rfl fun _ => Nat.zero_le _
  case isFalse =>
    split
    case isTrue => exact Call.bind_work_free rfl fun _ => Nat.zero_le _
    case isFalse =>
      refine Call.bind_work_free (Call.arith_work _) fun gap => ?_
      rw [Call.failIf_bind]
      split
      case isTrue => exact Nat.zero_le _
      case isFalse near =>
        have within : gap.toNat ≤ maxRatchetWindow := by omega
        change _ ≤ maxRatchetWindow + 0
        refine Call.bind_work_le ((skipKeys_work gap.toNat 0 _ _).trans within) fun advanced _ => ?_
        exact Call.bind_work_free (Call.arith_work _) fun counter => Nat.le_refl 0

end MessageKey

structure Counters (state : RatchetState Key Sk) : Prop where
  chain : 0 ≤ state.chainCounter ∧ state.chainCounter ≤ maxI64
  receiving : 0 ≤ state.receivingChainCounter ∧ state.receivingChainCounter ≤ maxI64

section Decryption

variable {state : RatchetState Key Sk} {header : HeaderOutput} {ciphertext : String} {keypair : Seed}

theorem decryptRatchet_overflows (counters : Counters state) (range : HeaderInRange header)
    (beyond : Overflows state header ciphertext) :
    (decryptRatchet p state header ciphertext keypair).outcome = .error .overflow := by
  obtain ⟨sized, last⟩ := beyond
  have chain := counters.chain
  have counter := range.2
  by_cases early : ¬ InI64 (header.chainCounter + 1) ∨
      state.chainCounter ≤ header.chainCounter + 1 ∧ ¬ InI64 (state.chainCounter + 1)
  · rw [decryptRatchet, Call.bind_outcome, checkHeader_overflows sized early]
    rfl
  · obtain ⟨fits, next⟩ := not_or.mp early
    simp only [InI64, minI64, maxI64] at fits next last counter chain
    obtain ⟨same, chained, position, near⟩ : header.chainCounter = state.chainCounter ∧ state.receivingChainKey ≠ none ∧
        header.seq = maxI64 ∧ maxI64 ≤ state.receivingChainCounter + maxRatchetWindow := by
      rcases last with own | ⟨session, close⟩ | far
      · omega
      · omega
      · exact far
    have fits : InI64 (header.chainCounter + 1) := not_not.mp fits
    have next : InI64 (state.chainCounter + 1) := same ▸ fits
    have admitted : Admitted state header ciphertext :=
      ⟨sized.version, sized.headerVersion, sized.pkLength, sized.ctLength, sized.short, by omega, by omega⟩
    obtain ⟨chainKey, chained⟩ := Option.ne_none_iff_exists'.mp chained
    rw [decryptRatchet, Call.bind_outcome, checkHeader_outcome (fun _ => fits) (fun _ _ => next),
      checkHeader_ok.mpr admitted, lift, Fallible.ok_bind, Call.bind_outcome, receivingEpoch_outcome next,
      receivingEpoch_stays (by omega) chained, lift, Fallible.ok_bind, Call.bind_outcome,
      messageKey_overflows fits (by omega) counters.receiving.1 counters.receiving.2 position near]
    rfl

theorem decryptRatchet_outcome (counters : Counters state) (range : HeaderInRange header)
    (fine : ¬ Overflows state header ciphertext) :
    (decryptRatchet p state header ciphertext keypair).outcome =
      lift (Crypto.decryptRatchet p state header ciphertext keypair) := by
  have chain := counters.chain
  have counter := range.2
  simp only [InI64, minI64, maxI64] at counter chain
  have fits : Sized state header ciphertext → InI64 (header.chainCounter + 1) := by
    intro sized
    have own : header.chainCounter ≠ maxI64 := fun own => fine ⟨sized, .inl own⟩
    simp only [InI64, minI64, maxI64] at own ⊢
    omega
  have next : Sized state header ciphertext → state.chainCounter ≤ header.chainCounter + 1 →
    InI64 (state.chainCounter + 1) := by
    intro sized recent
    have session : ¬ (state.chainCounter = maxI64 ∧ maxI64 ≤ header.chainCounter + 1) :=
      fun session => fine ⟨sized, .inr (.inl session)⟩
    simp only [InI64, minI64, maxI64] at session ⊢
    omega
  refine bind_alike (checkHeader_outcome fits next) fun _ passed => ?_
  have admitted := checkHeader_ok.mp passed
  have sized : Sized state header ciphertext :=
    ⟨admitted.version, admitted.headerVersion, admitted.pkLength, admitted.ctLength, admitted.short⟩
  refine bind_alike (receivingEpoch_outcome (next sized admitted.recent) header keypair) fun receiving opened => ?_
  have started : 0 ≤ receiving.prevCounter := by
    obtain ⟨_, _, _, _, _, _, rfl⟩ | ⟨_, _, _, rfl⟩ := receivingEpoch_ok opened
    · exact Int.le_refl 0
    · exact counters.receiving.1
  have last : header.chainCounter + 1 ≠ state.chainCounter →
      header.seq - receiving.prevCounter ≤ maxRatchetWindow → header.seq ≠ maxI64 := by
    intro current near position
    obtain ⟨_, _, _, _, _, _, rfl⟩ | ⟨other, _, chained, rfl⟩ := receivingEpoch_ok opened
    · simp only [maxI64, maxRatchetWindow] at position near
      omega
    · have recent := admitted.recent
      have close := admitted.near
      refine fine ⟨sized, .inr (.inr ⟨by omega, by simp [chained], position, ?_⟩)⟩
      simp only at near
      omega
  refine bind_alike (messageKey_outcome (fits sized) started range.1 last) fun taken _ => ?_
  refine bind_alike rfl fun compressed _ => ?_
  refine bind_alike rfl fun plaintext _ => ?_
  exact bind_alike rfl fun out _ => rfl

theorem decryptRatchet_work : (decryptRatchet p state header ciphertext keypair).work ≤ maxRatchetWindow := by
  have checks : (checkHeader state header ciphertext).work = 0 := by
    refine Nat.le_zero.mp ?_
    rw [checkHeader]
    iterate 5 refine Call.bind_work_free (Call.failIf_work _) fun _ => ?_
    refine Call.bind_work_free (Call.arith_work _) fun following => ?_
    refine Call.bind_work_free (Call.failIf_work _) fun _ => ?_
    refine Call.bind_work_free (Call.arith_work _) fun next => ?_
    exact Nat.le_of_eq (Call.failIf_work _)
  have epoch : (receivingEpoch p state header keypair).work = 0 :=
    Nat.le_zero.mp (Call.bind_work_free (Call.arith_work _) fun _ => Nat.le_refl 0)
  rw [decryptRatchet]
  refine Call.bind_work_free checks fun _ => ?_
  refine Call.bind_work_free epoch fun receiving => ?_
  change _ ≤ maxRatchetWindow + 0
  refine Call.bind_work_le messageKey_work fun taken _ => ?_
  refine Call.bind_work_free rfl fun compressed => ?_
  refine Call.bind_work_free rfl fun plaintext => ?_
  exact Call.bind_work_free rfl fun out => Nat.le_refl 0

end Decryption

end Soshal.Crypto.Release
