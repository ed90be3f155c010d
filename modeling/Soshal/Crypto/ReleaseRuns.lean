import Soshal.Crypto.Release
import Soshal.Crypto.Transcript

/-! Runs of a session in a release build.

A turn is one call of either side of the API; a call that is refused leaves the
caller with the state it had. Headers come from the tags of an event that anyone
can publish, so their counters are any 64-bit integers at all.
-/

set_option autoImplicit false

namespace Soshal.Crypto.Release

open Library
open Library.Checked
open Library.Text (byteLen hexEncode)
open Library.KeyChain (push shiftIn chainAt keyAt)

variable {Key Sk Secret Seed : Type} (p : Primitives Key Sk Secret Seed)

def tagOf (tags : List (List String)) (name : String) : Option String :=
  (tags.find? fun tag => tag.head? == some name).bind fun tag => tag[1]?

def ratchetHeaderFromTags (tags : List (List String)) : Option HeaderOutput := do
  let pk ← tagOf tags "ratchet_pk"
  let ct ← tagOf tags "ratchet_ct"
  let seq ← tagOf tags "ratchet_seq"
  let chainCounter ← tagOf tags "ratchet_cc"
  let version ← tagOf tags "ratchet_version"
  let seq ← parseI64 seq
  let chainCounter ← parseI64 chainCounter
  let version ← Fields.parseUnsigned (2 ^ 8) version
  if version ≠ ratchetVersion then none
  else
    some { version := version, pk := pk, ct := ct, seq := seq, chainCounter := chainCounter,
           headerMac := (tagOf tags "ratchet_header_mac").getD "" }

theorem headerInRange_of_tags {tags : List (List String)} {header : HeaderOutput}
    (read : ratchetHeaderFromTags tags = some header) : HeaderInRange header := by
  simp only [ratchetHeaderFromTags, Option.bind_eq_bind, Option.bind_eq_some_iff] at read
  obtain ⟨_, _, _, _, _, _, _, _, _, _, seq, position, chainCounter, counter, _, _, read⟩ := read
  split at read
  · cases read
  · cases read
    exact ⟨inI64_of_parseI64 position, inI64_of_parseI64 counter⟩

/-- The receiving chain that a message of the next epoch opens. -/
def openedChain (state : RatchetState Key Sk) (header : HeaderOutput) : Option Key :=
  if header.chainCounter = state.chainCounter + 1 then
    (p.hybridDecapsulate header.ct state.currentSk).map fun secret => (advanceRoot p state.rootKey secret state.context).2
  else none

/-- What a caller goes on with: only a success replaces the state. -/
def kept (state : RatchetState Key Sk) : Except Fault (RatchetState Key Sk × Bytes) → RatchetState Key Sk
  | .ok (after, _) => after
  | .error _ => state

inductive Turn : RatchetState Key Sk → Option Key → RatchetState Key Sk → Prop where
  | sent {state after : RatchetState Key Sk} {plaintext : Bytes} {draws : Draws Seed} {header : HeaderOutput}
      {ciphertext : String} : (encryptRatchet p state plaintext draws).outcome = .ok (after, header, ciphertext) →
      Turn state none after
  | received {state after : RatchetState Key Sk} {header : HeaderOutput} {ciphertext : String} {keypair : Seed}
      {plaintext : Bytes} : HeaderInRange header →
      (decryptRatchet p state header ciphertext keypair).outcome = .ok (after, plaintext) →
      Turn state (openedChain p state header) after
  | refused {state : RatchetState Key Sk} {header : HeaderOutput} {ciphertext message : String} {keypair : Seed} :
      HeaderInRange header → (decryptRatchet p state header ciphertext keypair).outcome = .error (.refused message) →
      Turn state none (kept state (decryptRatchet p state header ciphertext keypair).outcome)

/-- A session and the receiving chains it has opened, newest first. -/
inductive Run : List Key → RatchetState Key Sk → Prop where
  | start (peerPk context : String) (currentSk : Sk) (currentPk : String) :
      Run [] (initState peerPk context currentSk currentPk)
  | turn {bases : List Key} {state after : RatchetState Key Sk} {opened : Option Key} :
      Run bases state → Turn p state opened after → Run (opened.toList ++ bases) after

variable {p}

theorem sendingEpoch_ok {state : RatchetState Key Sk} {draws : Draws Seed} {epoch : SendingEpoch Key Sk}
    (chosen : (sendingEpoch p state draws).outcome = .ok epoch) :
    Crypto.sendingEpoch p state draws = .ok epoch ∧
      (epoch.chainCounter = state.chainCounter ∨
        epoch.chainCounter = state.chainCounter + 1 ∧ InI64 (state.chainCounter + 1)) := by
  unfold sendingEpoch at chosen
  split at chosen
  case isTrue needed =>
    obtain ⟨fresh, opened, rest⟩ := Call.bind_ok.mp chosen
    obtain ⟨counter, added, same⟩ := Call.bind_ok.mp rest
    obtain ⟨fits, rfl⟩ := Call.arith_ok.mp added
    cases same
    have opened := Call.ofExcept_ok.mp opened
    have first : Crypto.sendingEpoch p state draws = openSendingEpoch p state draws := by
      rw [Crypto.sendingEpoch]
      rcases needed with none | other
      · rw [none]
      · cases state.sendingChainKey with
        | none => rfl
        | some chainKey => exact if_pos other
    obtain ⟨_, _, _, _, _, _, rfl⟩ := openSendingEpoch_ok opened
    exact ⟨first.trans opened, .inr ⟨rfl, fits⟩⟩
  case isFalse continued =>
    have chosen := Call.ofExcept_ok.mp chosen
    refine ⟨chosen, .inl ?_⟩
    obtain ⟨chained, same⟩ := not_or.mp continued
    unfold Crypto.sendingEpoch at chosen
    cases present : state.sendingChainKey with
    | none => exact absurd present chained
    | some chainKey =>
      simp only [present, if_neg same, Except.ok.injEq] at chosen
      rw [← chosen]

theorem encryptRatchet_ok {state after : RatchetState Key Sk} {plaintext : Bytes} {draws : Draws Seed}
    {header : HeaderOutput} {ciphertext : String}
    (encrypted : (encryptRatchet p state plaintext draws).outcome = .ok (after, header, ciphertext)) :
    ∃ epoch : SendingEpoch Key Sk, after = epoch.after p state ∧
      (epoch.chainCounter = state.chainCounter ∨
        epoch.chainCounter = state.chainCounter + 1 ∧ InI64 (state.chainCounter + 1)) := by
  obtain ⟨_, _, rest⟩ := Call.bind_ok.mp encrypted
  obtain ⟨_, _, rest⟩ := Call.bind_ok.mp rest
  obtain ⟨epoch, chosen, rest⟩ := Call.bind_ok.mp rest
  obtain ⟨_, _, rest⟩ := Call.bind_ok.mp rest
  obtain ⟨_, _, rest⟩ := Call.bind_ok.mp rest
  obtain ⟨counter, added, same⟩ := Call.bind_ok.mp rest
  obtain ⟨_, rfl⟩ := Call.arith_ok.mp added
  cases same
  exact ⟨epoch, rfl, (sendingEpoch_ok chosen).2⟩

/-- What a message that was opened did to the receiving side. -/
inductive Receipt (p : Primitives Key Sk Secret Seed) (state : RatchetState Key Sk) :
    Option Key → RatchetState Key Sk → Prop where
  | joined {after : RatchetState Key Sk} (base : Key) (gap : Nat) : gap ≤ maxRatchetWindow →
      after.receivingChainKey = some (chainAt (chainStep p state.context) base (gap + 1)) →
      after.receivingChainCounter = gap + 1 →
      after.skipped = (gapKeys p state.context base 0 gap).foldl (push maxRatchetWindow) [] →
      after.prevEpochSkipped = state.skipped.foldl (shiftIn maxRatchetWindow) [] → Receipt p state (some base) after
  | advanced {after : RatchetState Key Sk} (chain : Key) (gap : Nat) : state.receivingChainKey = some chain →
      after.receivingChainKey = some (chainAt (chainStep p state.context) chain (gap + 1)) →
      after.receivingChainCounter = state.receivingChainCounter + gap + 1 → InI64 after.receivingChainCounter →
      after.skipped = (gapKeys p state.context chain state.receivingChainCounter gap).foldl (push maxRatchetWindow)
        state.skipped →
      after.prevEpochSkipped = state.prevEpochSkipped → Receipt p state none after
  | taken {after : RatchetState Key Sk} (seq : Int) : after.receivingChainKey = state.receivingChainKey →
      after.receivingChainCounter = state.receivingChainCounter →
      (after.skipped = state.skipped.eraseP (·.seq == seq) ∧ after.prevEpochSkipped = state.prevEpochSkipped ∨
        after.skipped = state.skipped ∧ after.prevEpochSkipped = state.prevEpochSkipped.eraseP (·.seq == seq)) →
      Receipt p state none after

theorem adoptPeerKey_receives {header : HeaderOutput} {taken : MessageKey Key Sk} {after : RatchetState Key Sk}
    (adopted : adoptPeerKey p header taken = .ok after) :
    after.chainCounter = taken.out.chainCounter ∧ after.context = taken.out.context ∧
      after.receivingChainKey = taken.out.receivingChainKey ∧
      after.receivingChainCounter = taken.out.receivingChainCounter ∧ after.skipped = taken.out.skipped ∧
      after.prevEpochSkipped = taken.out.prevEpochSkipped := by
  obtain ⟨_, rfl⟩ | ⟨_, rfl⟩ := adoptPeerKey_ok adopted
  · exact ⟨rfl, rfl, rfl, rfl, rfl, rfl⟩
  · exact ⟨rfl, rfl, rfl, rfl, rfl, rfl⟩

theorem decryptRatchet_receives {state after : RatchetState Key Sk} {header : HeaderOutput} {ciphertext : String}
    {keypair : Seed} {plaintext : Bytes} (counters : Counters state) (range : HeaderInRange header)
    (decrypted : (decryptRatchet p state header ciphertext keypair).outcome = .ok (after, plaintext)) :
    after.context = state.context ∧ InI64 after.chainCounter ∧
      (after.chainCounter = state.chainCounter ∨ after.chainCounter = state.chainCounter + 1) ∧
      Receipt p state (openedChain p state header) after := by
  have fine : ¬ Overflows state header ciphertext := by
    intro beyond
    rw [decryptRatchet_overflows counters range beyond] at decrypted
    cases decrypted
  rw [decryptRatchet_outcome counters range fine, lift_eq_ok] at decrypted
  obtain ⟨admitted, receiving, taken, _, opened, found, _, _, adopted⟩ := decryptRatchet_ok decrypted
  obtain ⟨chainCounter, context, chain, counter, skipped, late⟩ := adoptPeerKey_receives adopted
  have positive := counters.chain
  obtain ⟨next, secret, pk, sk, decapsulated, _, rfl⟩ | ⟨other, chainKey, chained, rfl⟩ := receivingEpoch_ok opened
  · have opens : openedChain p state header = some (advanceRoot p state.rootKey secret state.context).2 := by
      rw [openedChain, if_pos next, decapsulated, Option.map_some]
    rw [opens]
    cases messageKey_ok found with
    | late previous _ => omega
    | kept _ _ missing => exact absurd (takeSkipped_ok missing).1 List.not_mem_nil
    | advanced gap _ position near =>
      refine ⟨context, by rw [chainCounter]; exact range.2, .inr (chainCounter.trans next),
        .joined _ gap near chain ?_ skipped late⟩
      rw [counter, position, Int.zero_add]
  · have opens : openedChain p state header = none := if_neg other
    rw [opens]
    have inside : InI64 after.chainCounter := by
      rw [chainCounter]
      cases messageKey_ok found <;> (simp only [InI64, minI64]; omega)
    cases messageKey_ok found with
    | late _ taken =>
      obtain ⟨_, rfl⟩ := takeSkipped_ok taken
      exact ⟨context, inside, .inl chainCounter, .taken header.seq chain counter (.inr ⟨skipped, late⟩)⟩
    | kept _ _ taken =>
      obtain ⟨_, rfl⟩ := takeSkipped_ok taken
      exact ⟨context, inside, .inl chainCounter, .taken header.seq chain counter (.inl ⟨skipped, late⟩)⟩
    | advanced gap current position near =>
      refine ⟨context, inside, .inl chainCounter, .advanced chainKey gap chained chain ?_ ?_ skipped late⟩
      · rw [counter, position]
      · -- The last position there is would have overflowed.
        have below : header.seq ≠ maxI64 := by
          intro last
          have recent := admitted.recent
          have close := admitted.near
          simp only at position
          exact fine ⟨⟨admitted.version, admitted.headerVersion, admitted.pkLength, admitted.ctLength, admitted.short⟩,
            .inr (.inr ⟨by omega, by simp [chained], last, by omega⟩)⟩
        have bound := range.1
        rw [counter]
        simp only [InI64, minI64, maxI64] at bound below ⊢
        omega

theorem turn_receives {state after : RatchetState Key Sk} {opened : Option Key} (counters : Counters state)
    (turn : Turn p state opened after) :
    after.context = state.context ∧ InI64 after.chainCounter ∧
      (after.chainCounter = state.chainCounter ∨ after.chainCounter = state.chainCounter + 1) ∧
      (Receipt p state opened after ∨ opened = none ∧ after.receivingChainKey = state.receivingChainKey ∧
        after.receivingChainCounter = state.receivingChainCounter ∧ after.skipped = state.skipped ∧
        after.prevEpochSkipped = state.prevEpochSkipped) := by
  have inside : InI64 state.chainCounter := by
    have positive := counters.chain
    simp only [InI64, minI64]
    omega
  cases turn with
  | sent encrypted =>
    obtain ⟨epoch, rfl, counter⟩ := encryptRatchet_ok encrypted
    have chainCounter : (epoch.after p state).chainCounter = epoch.chainCounter := rfl
    rw [chainCounter]
    refine ⟨rfl, ?_, counter.imp_right And.left, .inr ⟨rfl, rfl, rfl, rfl, rfl⟩⟩
    obtain same | ⟨next, fits⟩ := counter
    · rw [same]
      exact inside
    · rw [next]
      exact fits
  | received range decrypted =>
    obtain ⟨context, counter, next, receipt⟩ := decryptRatchet_receives counters range decrypted
    exact ⟨context, counter, next, .inl receipt⟩
  | refused _ failed =>
    rw [failed]
    exact ⟨rfl, inside, .inl rfl, .inr ⟨rfl, rfl, rfl, rfl, rfl⟩⟩

theorem Counters.turn {state after : RatchetState Key Sk} {opened : Option Key} (counters : Counters state)
    (turn : Turn p state opened after) : Counters after := by
  have positive := counters.chain
  obtain ⟨_, fits, next, receives⟩ := turn_receives counters turn
  refine ⟨⟨by omega, fits.2⟩, ?_⟩
  obtain receipt | ⟨_, _, counter, _⟩ := receives
  · cases receipt with
    | joined base gap near _ counter =>
      rw [counter]
      simp only [maxRatchetWindow] at near
      simp only [maxI64]
      omega
    | advanced chain gap _ _ counter inside =>
      have started := counters.receiving.1
      exact ⟨by omega, inside.2⟩
    | taken _ _ counter =>
      rw [counter]
      exact counters.receiving
  · rw [counter]
    exact counters.receiving

theorem Run.counters {bases : List Key} {state : RatchetState Key Sk} (run : Run p bases state) : Counters state := by
  induction run with
  | start =>
    have small : (0 : Int) ≤ maxI64 := by decide
    exact ⟨⟨Int.le_refl 0, small⟩, ⟨Int.le_refl 0, small⟩⟩
  | turn _ turn ih => exact ih.turn turn

/-- On any session that a run reaches, a header neither ends the process, nor makes it derive more keys than the window
allows, nor leaves a trace when it is refused, unless its counters are the last ones there are. -/
theorem decryptRatchet_safe_iff {bases : List Key} {state : RatchetState Key Sk} (run : Run p bases state)
    {header : HeaderOutput} (range : HeaderInRange header) (ciphertext : String) (keypair : Seed) :
    ((decryptRatchet p state header ciphertext keypair).outcome ≠ .error .overflow ∧
      (decryptRatchet p state header ciphertext keypair).work ≤ maxRatchetWindow ∧
      ∀ fault, (decryptRatchet p state header ciphertext keypair).outcome = .error fault →
        kept state (decryptRatchet p state header ciphertext keypair).outcome = state) ↔
    ¬ Overflows state header ciphertext := by
  constructor
  · rintro ⟨safe, _⟩ beyond
    exact safe (decryptRatchet_overflows run.counters range beyond)
  · intro fine
    refine ⟨?_, decryptRatchet_work, ?_⟩
    · rw [decryptRatchet_outcome run.counters range fine]
      exact lift_ne_overflow _
    · intro fault failed
      rw [failed]
      rfl

/-- The entry is the message key of its position on the chain that starts at `base`. -/
def KeyOf (p : Primitives Key Sk Secret Seed) (context : String) (base : Key) (entry : SkippedKey Key) : Prop :=
  ∃ position : Nat, entry.seq = position ∧ entry.key = keyAt (chainStep p context) base position

/-- The chain goes on from its newest base, and every key that is kept is one of that chain or of the one before. -/
structure Stores (p : Primitives Key Sk Secret Seed) (bases : List Key) (state : RatchetState Key Sk) : Prop where
  chain : ∀ key, state.receivingChainKey = some key → ∃ base, bases.head? = some base ∧
    ∃ n : Nat, state.receivingChainCounter = n ∧ key = chainAt (chainStep p state.context) base n
  skipped : ∀ entry ∈ state.skipped, entry.seq < state.receivingChainCounter ∧
    ∃ base, bases.head? = some base ∧ KeyOf p state.context base entry
  skippedFew : state.skipped.length ≤ maxRatchetWindow
  skippedOnce : (state.skipped.map (·.seq)).Nodup
  late : ∀ entry ∈ state.prevEpochSkipped, ∃ base, bases[1]? = some base ∧ KeyOf p state.context base entry
  lateFew : state.prevEpochSkipped.length ≤ maxRatchetWindow
  lateOnce : (state.prevEpochSkipped.map (·.seq)).Nodup

theorem length_foldl_push (entries : List (SkippedKey Key)) {buffer : List (SkippedKey Key)}
    (few : buffer.length ≤ maxRatchetWindow) :
    (entries.foldl (push maxRatchetWindow) buffer).length ≤ maxRatchetWindow :=
  KeyChain.foldl_length_le (fun _ entry => KeyChain.length_push_le entry) entries few

namespace Stores

variable {bases : List Key} {state after : RatchetState Key Sk}

theorem joined (stores : Stores p bases state) {base : Key} {gap : Nat} (context : after.context = state.context)
    (chain : after.receivingChainKey = some (chainAt (chainStep p state.context) base (gap + 1)))
    (counter : after.receivingChainCounter = gap + 1)
    (skipped : after.skipped = (gapKeys p state.context base 0 gap).foldl (push maxRatchetWindow) [])
    (late : after.prevEpochSkipped = state.skipped.foldl (shiftIn maxRatchetWindow) []) :
    Stores p (base :: bases) after := by
  obtain ⟨entries, once⟩ := @kept_of_gap _ _ _ _ p state.context base 0 gap [] (by simp) (by simp)
  -- What was skipped in the epoch that ends is all that is retained.
  have moved : (state.skipped.foldl (shiftIn maxRatchetWindow) []).Sublist state.skipped := by
    have sub := KeyChain.foldl_sublist (KeyChain.shiftIn_sublist maxRatchetWindow) state.skipped []
    rwa [List.nil_append] at sub
  refine ⟨?_, ?_, ?_, ?_, ?_, ?_, ?_⟩
  · intro key held
    rw [chain, Option.some.injEq] at held
    rw [context]
    exact ⟨base, rfl, gap + 1, counter, held.symm⟩
  · intro entry member
    rw [skipped] at member
    rw [context, counter]
    obtain old | ⟨j, _, small, rfl⟩ := entries entry member
    · cases old
    · exact ⟨by simp only; omega, base, rfl, j, rfl, rfl⟩
  · rw [skipped]
    exact length_foldl_push _ (Nat.zero_le _)
  · rw [skipped]
    exact once
  · intro entry member
    rw [late] at member
    obtain ⟨_, previous, newest, key⟩ := stores.skipped entry (moved.subset member)
    rw [context]
    refine ⟨previous, ?_, key⟩
    rw [List.getElem?_cons_succ, ← List.head?_eq_getElem?]
    exact newest
  · rw [late]
    exact KeyChain.foldl_length_le (fun _ entry => KeyChain.length_shiftIn_le entry (by decide)) _ (Nat.zero_le _)
  · rw [late]
    exact (moved.map _).nodup stores.skippedOnce

theorem advanced (stores : Stores p bases state) {key : Key} {gap : Nat} (context : after.context = state.context)
    (chained : state.receivingChainKey = some key)
    (chain : after.receivingChainKey = some (chainAt (chainStep p state.context) key (gap + 1)))
    (counter : after.receivingChainCounter = state.receivingChainCounter + gap + 1)
    (skipped : after.skipped = (gapKeys p state.context key state.receivingChainCounter gap).foldl
      (push maxRatchetWindow) state.skipped)
    (late : after.prevEpochSkipped = state.prevEpochSkipped) : Stores p bases after := by
  obtain ⟨base, newest, i, position, rfl⟩ := stores.chain key chained
  rw [position] at counter skipped
  have known : ∀ entry ∈ state.skipped, ∃ j : Nat, j < i ∧ entry = ⟨j, keyAt (chainStep p state.context) base j⟩ := by
    intro entry member
    obtain ⟨below, other, same, j, seq, key⟩ := stores.skipped entry member
    rw [newest, Option.some.injEq] at same
    subst same
    refine ⟨j, by omega, ?_⟩
    rw [← seq, ← key]
  obtain ⟨entries, once⟩ := @kept_of_gap _ _ _ _ p state.context base i gap state.skipped known stores.skippedOnce
  refine ⟨?_, ?_, ?_, ?_, ?_, ?_, ?_⟩
  · intro key held
    rw [chain, Option.some.injEq, KeyChain.chainAt_add] at held
    rw [context]
    exact ⟨base, newest, i + (gap + 1), by rw [counter]; push_cast; omega, held.symm⟩
  · intro entry member
    rw [skipped] at member
    rw [context, counter]
    obtain old | ⟨j, _, small, rfl⟩ := entries entry member
    · obtain ⟨below, key⟩ := stores.skipped entry old
      exact ⟨by omega, key⟩
    · exact ⟨by simp only; omega, base, newest, j, rfl, rfl⟩
  · rw [skipped]
    exact length_foldl_push _ stores.skippedFew
  · rw [skipped]
    exact once
  · rw [late, context]
    exact stores.late
  · rw [late]
    exact stores.lateFew
  · rw [late]
    exact stores.lateOnce

theorem shrinks (stores : Stores p bases state) (context : after.context = state.context)
    (chain : after.receivingChainKey = state.receivingChainKey)
    (counter : after.receivingChainCounter = state.receivingChainCounter)
    (skipped : after.skipped.Sublist state.skipped) (late : after.prevEpochSkipped.Sublist state.prevEpochSkipped) :
    Stores p bases after := by
  refine ⟨?_, ?_, skipped.length_le.trans stores.skippedFew, (skipped.map _).nodup stores.skippedOnce, ?_,
    late.length_le.trans stores.lateFew, (late.map _).nodup stores.lateOnce⟩
  · rw [chain, context, counter]
    exact stores.chain
  · rw [context, counter]
    exact fun entry member => stores.skipped entry (skipped.subset member)
  · rw [context]
    exact fun entry member => stores.late entry (late.subset member)

theorem turn {opened : Option Key} (stores : Stores p bases state) (counters : Counters state)
    (turn : Turn p state opened after) : Stores p (opened.toList ++ bases) after := by
  obtain ⟨context, _, _, receipt | ⟨rfl, chain, counter, skipped, late⟩⟩ := turn_receives counters turn
  · cases receipt with
    | joined base gap _ chain counter skipped late => exact stores.joined context chain counter skipped late
    | advanced key gap chained chain counter _ skipped late =>
      exact stores.advanced context chained chain counter skipped late
    | taken seq chain counter fewer =>
      obtain ⟨skipped, late⟩ | ⟨skipped, late⟩ := fewer
      · exact stores.shrinks context chain counter (skipped ▸ List.eraseP_sublist) (late ▸ List.Sublist.refl _)
      · exact stores.shrinks context chain counter (skipped ▸ List.Sublist.refl _) (late ▸ List.eraseP_sublist)
  · exact stores.shrinks context chain counter (skipped ▸ List.Sublist.refl _) (late ▸ List.Sublist.refl _)

end Stores

theorem Run.stores {bases : List Key} {state : RatchetState Key Sk} (run : Run p bases state) :
    Stores p bases state := by
  induction run with
  | start =>
    refine ⟨fun key held => ?_, fun entry member => ?_, Nat.zero_le _, List.nodup_nil, fun entry member => ?_,
      Nat.zero_le _, List.nodup_nil⟩
    · cases held
    · cases member
    · cases member
  | turn before turn ih => exact ih.turn before.counters turn

/-- In every state that a run reaches both stores are small, hold each position once, and hold the keys of their chains
there; and no turn of a run takes the counter of epochs back. -/
theorem run_stores {bases : List Key} {state : RatchetState Key Sk} (run : Run p bases state) :
    state.skipped.length ≤ maxRatchetWindow ∧ state.prevEpochSkipped.length ≤ maxRatchetWindow ∧
      (state.skipped.map (·.seq)).Nodup ∧ (state.prevEpochSkipped.map (·.seq)).Nodup ∧
      (∀ entry ∈ state.skipped, entry.seq < state.receivingChainCounter ∧
        ∃ base, bases.head? = some base ∧ KeyOf p state.context base entry) ∧
      (∀ entry ∈ state.prevEpochSkipped, ∃ base, bases[1]? = some base ∧ KeyOf p state.context base entry) ∧
      ∀ opened after, Turn p state opened after → state.chainCounter ≤ after.chainCounter := by
  have stores := run.stores
  refine ⟨stores.skippedFew, stores.lateFew, stores.skippedOnce, stores.lateOnce, stores.skipped, stores.late, ?_⟩
  intro opened after turn
  obtain ⟨_, _, next, _⟩ := turn_receives run.counters turn
  omega

section Transcribed

open Crypto.Transcript

def callee : RatchetState Bytes UInt8 := initState (pkOf 1) "dm:caller" 2 (pkOf 2)

def secondOf : SendingEpoch Bytes UInt8 :=
  { opening (initState (pkOf 2) "dm:caller" 1 (pkOf 1)) 2 ⟨3, 4, 5⟩ with seq := 1 }

def secondHeader : HeaderOutput := secondOf.header primitives

def secondKey : Bytes := keyAt (chainStep primitives "dm:caller") secondOf.chainKey 1

def secondText : String := hexEncode (framed secondKey ++ [5, rawPlaintextTag, 0x68])

theorem secondText_sealed : primitives.nip44Encrypt [rawPlaintextTag, 0x68] secondKey 5 = .ok secondText := by
  have encrypts : primitives.nip44Encrypt = sealUnder := rfl
  rw [encrypts, sealUnder, if_neg (List.cons_ne_nil _ _), secondText]

theorem byteLen_secondText : byteLen secondText ≤ maxRatchetCiphertext := by
  have context : byteLen "dm:caller" = 9 := by decide
  rw [secondText, Text.byteLen_hexEncode]
  simp only [secondKey, keyAt, chainAt, chainStep, primitives, secondOf, opening, advanceRoot, initState,
    List.length_append, List.length_cons, List.length_nil, length_framed, length_record, context]
  decide

theorem second_opens :
    ∃ after, Crypto.decryptRatchet primitives callee secondHeader secondText 6 = .ok (after, [0x68]) := by
  have counter : secondHeader.chainCounter = 1 := rfl
  have zero : callee.chainCounter = 0 := rfl
  have next : secondHeader.chainCounter = callee.chainCounter + 1 := by omega
  have current : secondHeader.chainCounter + 1 ≠ callee.chainCounter := by omega
  have admitted : Admitted callee secondHeader secondText :=
    ⟨rfl, rfl, ideal.pkLength (keygen_eq 4), ideal.ctLength (encapsulate_pkOf 2 3), byteLen_secondText,
      by omega, by omega⟩
  have joins : Crypto.receivingEpoch primitives callee secondHeader 6 = .ok _ :=
    receivingEpoch_joins next (ideal.decapsulates (keygen_eq 2) (encapsulate_pkOf 2 3)) (keygen_eq 6)
  have base : (advanceRoot primitives callee.rootKey [3, 2] callee.context).2 = secondOf.chainKey := by
    simp only [secondOf, opening, callee, initState]
  rw [base] at joins
  have position : secondHeader.seq = (0 : Int) + (1 : Nat) := rfl
  have inflated : decompressBytes primitives [rawPlaintextTag, 0x68] = .ok [0x68] := rfl
  have near : 1 ≤ maxRatchetWindow := by decide
  have found := fun out => @messageKey_advances _ _ _ _ primitives callee secondHeader ⟨out, secondOf.chainKey, 0⟩ 1
    current position near
  have opened : primitives.nip44Decrypt secondText
      (keyAt (chainStep primitives callee.context) secondOf.chainKey 1) = .ok [rawPlaintextTag, 0x68] :=
    ideal.opens secondText_sealed
  have root : some (advanceRoot primitives callee.rootKey [3, 2] callee.context).1 = secondOf.rootKey := by
    simp only [secondOf, opening, callee, initState]
  have verified : verifyHeaderMac primitives (some (advanceRoot primitives callee.rootKey [3, 2] callee.context).1)
      secondHeader = true := by
    rw [root]
    exact verifyHeaderMac_header secondOf
  exact ⟨_, decryptRatchet_of admitted joins (found _) opened inflated rfl verified⟩

theorem calleeRun : Run primitives [] callee := Run.start (pkOf 1) "dm:caller" 2 (pkOf 2)

theorem second_inRange : HeaderInRange secondHeader := by
  have position : secondHeader.seq = 1 := rfl
  have counter : secondHeader.chainCounter = 1 := rfl
  rw [HeaderInRange, position, counter]
  decide

theorem second_fine : ¬ Overflows callee secondHeader secondText := by
  rintro ⟨_, last⟩
  have counter : secondHeader.chainCounter = 1 := rfl
  have zero : callee.chainCounter = 0 := rfl
  rw [counter, zero] at last
  simp only [maxI64] at last
  omega

theorem second_received : ∃ after, Turn primitives callee (openedChain primitives callee secondHeader) after := by
  obtain ⟨after, opened⟩ := second_opens
  have outcome := @decryptRatchet_outcome _ _ _ _ primitives callee secondHeader secondText 6 calleeRun.counters
    second_inRange second_fine
  rw [opened] at outcome
  exact ⟨after, .received second_inRange outcome⟩

/-- The stores after it. -/
theorem second_stores : ∃ bases, ∃ state : RatchetState Bytes UInt8, Run primitives bases state ∧
    state.skipped.length ≤ maxRatchetWindow ∧ state.prevEpochSkipped.length ≤ maxRatchetWindow ∧
      (state.skipped.map (·.seq)).Nodup ∧ (state.prevEpochSkipped.map (·.seq)).Nodup ∧
      (∀ entry ∈ state.skipped, entry.seq < state.receivingChainCounter ∧
        ∃ base, bases.head? = some base ∧ KeyOf primitives state.context base entry) ∧
      (∀ entry ∈ state.prevEpochSkipped, ∃ base, bases[1]? = some base ∧ KeyOf primitives state.context base entry) ∧
      ∀ opened after, Turn primitives state opened after → state.chainCounter ≤ after.chainCounter := by
  obtain ⟨after, received⟩ := second_received
  exact ⟨_, after, .turn calleeRun received, run_stores (.turn calleeRun received)⟩

theorem second_safe :
    (decryptRatchet primitives callee secondHeader secondText 6).outcome ≠ .error .overflow ∧
      (decryptRatchet primitives callee secondHeader secondText 6).work ≤ maxRatchetWindow ∧
      ∀ fault, (decryptRatchet primitives callee secondHeader secondText 6).outcome = .error fault →
        kept callee (decryptRatchet primitives callee secondHeader secondText 6).outcome = callee :=
  (decryptRatchet_safe_iff calleeRun second_inRange secondText 6).mpr second_fine

def lastTags : List (List String) :=
  [["p", "caller"], ["ratchet_pk", pkOf 1], ["ratchet_ct", ctOf 1], ["ratchet_seq", "0"],
    ["ratchet_cc", "9223372036854775807"], ["ratchet_version", "3"]]

def lastHeader : HeaderOutput :=
  { version := 3, pk := pkOf 1, ct := ctOf 1, seq := 0, chainCounter := maxI64, headerMac := "" }

theorem lastTags_read : ratchetHeaderFromTags lastTags = some lastHeader := by
  have zero : parseI64 "0" = some 0 := by decide
  have last : parseI64 "9223372036854775807" = some maxI64 := by decide
  have version : Fields.parseUnsigned 256 "3" = some 3 := by decide
  simp [ratchetHeaderFromTags, tagOf, lastTags, zero, last, version, ratchetVersion, lastHeader]

/-- Anyone can publish an event with these tags; no key is needed for it to end the process that reads it. -/
theorem last_counter_overflows :
    Run primitives [] callee ∧ ratchetHeaderFromTags lastTags = some lastHeader ∧
      (decryptRatchet primitives callee lastHeader "" 6).outcome = .error .overflow := by
  have sized : Sized callee lastHeader "" :=
    ⟨rfl, rfl, ideal.pkLength (keygen_eq 1), ideal.ctLength (encapsulate_pkOf 2 1), by decide⟩
  exact ⟨calleeRun, lastTags_read,
    decryptRatchet_overflows calleeRun.counters (headerInRange_of_tags lastTags_read) ⟨sized, .inl rfl⟩⟩

end Transcribed

end Soshal.Crypto.Release
