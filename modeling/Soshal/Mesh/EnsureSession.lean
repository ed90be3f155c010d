import Soshal.Crypto.Delivery
import Soshal.Mesh.Link

/-! The session bootstrap that callers make before every encryption.

It pins a key of the peer, the one that was handed over out of band. The ratchet
itself moves that key with every epoch of the peer, so a call after the session
has accepted a message turns the session back to a key pair the peer has given up.
-/

set_option autoImplicit false

namespace Soshal.Mesh

open Crypto
open Library.Text (byteLen)

variable {Key Sk Secret Seed : Type} {p : Primitives Key Sk Secret Seed} {json : HeaderJson}

namespace PqcLinkCrypto

def ensureSession (p : Primitives Key Sk Secret Seed) (crypto : PqcLinkCrypto Key Sk) (peer context peerPk : String)
    (now : Nat) (seed : Seed) : PqcLinkCrypto Key Sk × Except String Unit :=
  if crypto.hasSession peer then crypto.completeHandshake peer peerPk now
  else
    match crypto.beginHandshake p peer context now seed with
    | (begun, .error e) => (begun, .error e)
    | (begun, .ok _) => begun.completeHandshake peer peerPk now

theorem hasSession_of_get {crypto : PqcLinkCrypto Key Sk} {peer : String} {state : RatchetState Key Sk}
    (held : crypto.get peer = .ok state) : crypto.hasSession peer = true := by
  unfold get at held
  unfold hasSession
  cases found : crypto.states.find? peer with
  | none => simp [found] at held
  | some session => rfl

theorem ensureSession_held {crypto after : PqcLinkCrypto Key Sk} {peer context peerPk : String} {now : Nat}
    {seed : Seed} {state : RatchetState Key Sk} (held : crypto.get peer = .ok state)
    (ensured : crypto.ensureSession p peer context peerPk now seed = (after, .ok ())) :
    after.get peer = .ok { state with peerPk := peerPk } := by
  rw [ensureSession, if_pos (hasSession_of_get held)] at ensured
  obtain ⟨before, same, pinned⟩ := completeHandshake_ok ensured
  rw [held] at same
  cases same
  exact pinned

theorem ensureSession_of_get {crypto : PqcLinkCrypto Key Sk} {peer peerPk : String} {state : RatchetState Key Sk}
    (held : crypto.get peer = .ok state) (shown : Library.Text.trim peerPk ≠ "") (context : String) (now : Nat)
    (seed : Seed) :
    crypto.ensureSession p peer context peerPk now seed =
      (crypto.put peer { state with peerPk := peerPk } now, .ok ()) := by
  rw [ensureSession, if_pos (hasSession_of_get held), completeHandshake, if_neg shown, held]

theorem decrypt_iff {crypto : PqcLinkCrypto Key Sk} {peer : String} {state : RatchetState Key Sk} {bytes text : Bytes}
    {header : HeaderOutput} {ciphertext : String} (held : crypto.get peer = .ok state)
    (parsed : parseFrame json bytes = .ok (header, ciphertext)) (now : Nat) (keypair : Seed) :
    (crypto.decrypt p json peer bytes now keypair).2 = .ok text ↔
      ∃ after, decryptRatchet p state header ciphertext keypair = .ok (after, text) := by
  simp only [decrypt, parsed, held]
  cases decryptRatchet p state header ciphertext keypair with
  | error e => simp
  | ok out => simp [Prod.ext_iff]

end PqcLinkCrypto

open PqcLinkCrypto

section Run

variable (setup : Setup p)

/-- A step of the two parties, or a call of one of them with the key its handshake pinned. `admits` is what is asked of
the state before a call. -/
inductive EnsuredStep (admits : Net Key Sk → Party → Prop) : Net Key Sk → Net Key Sk → Prop where
  | exchange {net after : Net Key Sk} : Exchange setup net after → EnsuredStep admits net after
  | ensure (party : Party) {net : Net Key Sk} {crypto after : PqcLinkCrypto Key Sk} {peer context : String} {now : Nat}
      {seed : Seed} {state : RatchetState Key Sk} : admits net party →
      crypto.get peer = .ok (net.world.state party) →
      crypto.ensureSession p peer context (setup.pk party.other) now seed = (after, .ok ()) →
      after.get peer = .ok state →
      EnsuredStep admits net { net with
        world := { net.world with state := Function.update net.world.state party state } }

def Ensured (admits : Net Key Sk → Party → Prop) (net : Net Key Sk) : Prop :=
  Relation.ReflTransGen (EnsuredStep setup admits) ⟨setup.start, []⟩ net

/-- The key of the handshake is still the session's: no message of the peer has moved it. -/
def StillPinned (net : Net Key Sk) (party : Party) : Prop := (net.world.state party).peerPk = setup.pk party.other

variable {setup}

theorem ensureSession_idle_iff {net : Net Key Sk} {party : Party} {crypto after : PqcLinkCrypto Key Sk}
    {peer context : String} {now : Nat} {seed : Seed} (held : crypto.get peer = .ok (net.world.state party))
    (ensured : crypto.ensureSession p peer context (setup.pk party.other) now seed = (after, .ok ())) :
    after.get peer = crypto.get peer ↔ StillPinned setup net party := by
  rw [ensureSession_held held ensured, held, Except.ok.injEq, StillPinned]
  constructor
  · intro same
    exact (congrArg RatchetState.peerPk same).symm
  · intro pinned
    rw [← pinned]

theorem exchanged_of_ensured {net : Net Key Sk} (run : Ensured setup (StillPinned setup) net) :
    Exchanged setup net := by
  induction run with
  | refl => exact .refl
  | tail _ step ih =>
    cases step with
    | exchange step => exact .tail ih step
    | ensure party pinned held ensured stored =>
      -- The call writes the key that is there already.
      have same := (ensureSession_idle_iff held ensured).mpr pinned
      rw [stored, held, Except.ok.injEq] at same
      rw [same, Function.update_eq_self]
      exact ih

/-- In every run whose calls come while their key is still the session's, a call changes nothing, and a message that
reaches its receiver decrypts exactly when the receiver has sent nothing in its epoch or a later one, and it is not
too long. -/
theorem ensured_session_delivers (ideal : Ideal p) {net : Net Key Sk} (run : Ensured setup (StillPinned setup) net) :
    (∀ (party : Party) (crypto after : PqcLinkCrypto Key Sk) (peer context : String) (now : Nat) (seed : Seed),
      crypto.get peer = .ok (net.world.state party) →
      crypto.ensureSession p peer context (setup.pk party.other) now seed = (after, .ok ()) →
      (after.get peer = crypto.get peer ↔ StillPinned setup net party)) ∧
    ∀ (party : Party) (m : Sent Key), m ∈ net.world.sentBy party.other → m ∉ net.delivered →
      InWindow (net.world.state party) m.header →
      ∀ (crypto : PqcLinkCrypto Key Sk) (peer : String) (bytes : Bytes) (now : Nat) (keypair : Seed),
        crypto.get peer = .ok (net.world.state party) → parseFrame json bytes = .ok (m.header, m.ciphertext) →
        ((crypto.decrypt p json peer bytes now keypair).2 = .ok m.plaintext ↔
          (∀ own ∈ net.world.sentBy party, own.header.chainCounter < m.header.chainCounter) ∧
            byteLen m.ciphertext ≤ maxRatchetCiphertext) := by
  constructor
  · intro party crypto after peer context now seed held ensured
    exact ensureSession_idle_iff held ensured
  · intro party m member pending window crypto peer bytes now keypair held parsed
    rw [decrypt_iff held parsed]
    exact delivered_opens_iff ideal (exchanged_of_ensured run) member pending window keypair

end Run

theorem secret_of_chain (ideal : Ideal p) {root root' : Option Key} {secret secret' : Secret}
    {context context' : String} (same : (advanceRoot p root secret context).2 = (advanceRoot p root' secret' context').2) : secret = secret' := by
  cases root with
  | none =>
    cases root' with
    | none =>
      have roots := ideal.separates (x := .chain (p.initRoot secret context) context)
        (y := .chain (p.initRoot secret' context') context') same
      have inputs := ideal.separates (x := .initRoot secret context) (y := .initRoot secret' context')
        (Derivation.chain.inj roots).1
      exact (Derivation.initRoot.inj inputs).1
    | some root' =>
      cases ideal.separates (x := .chain (p.initRoot secret context) context)
        (y := .stepChain secret' root' context') same
  | some root =>
    cases root' with
    | none =>
      cases ideal.separates (x := .stepChain secret root context)
        (y := .chain (p.initRoot secret' context') context') same
    | some root' =>
      have inputs := ideal.separates (x := .stepChain secret root context)
        (y := .stepChain secret' root' context') same
      exact (Derivation.stepChain.inj inputs).1

/-- The first message of an epoch is refused by a receiver that decapsulates another secret than it was opened with. -/
theorem misdirected_refused (ideal : Ideal p) {sender receiver after opened : RatchetState Key Sk} {draws : Draws Seed}
    {plaintext text : Bytes} {header : HeaderOutput} {ciphertext ct : String} {secret : Secret} {keypair : Seed}
    (opens : sender.sendingChainKey = none ∨ sender.peerPk ≠ sender.sendingEpochPeerPk)
    (encapsulated : p.hybridEncapsulate sender.peerPk draws.encapsulation = some (ct, secret))
    (elsewhere : p.hybridDecapsulate ct receiver.currentSk ≠ some secret)
    (level : sender.chainCounter = receiver.chainCounter)
    (encrypted : encryptRatchet p sender plaintext draws = .ok (after, header, ciphertext)) :
    decryptRatchet p receiver header ciphertext keypair ≠ .ok (opened, text) := by
  intro decrypted
  obtain ⟨_, _, epoch, compressed, chosen, _, sealed, _, rfl⟩ := encryptRatchet_ok encrypted
  obtain ⟨_, receiving, taken, bytes, joins, found, unsealed, _, _⟩ := decryptRatchet_ok decrypted
  -- The sender opens an epoch, and the receiver enters one of the same level.
  obtain ⟨ct', secret', pk, sk, encapsulated', _, rfl⟩ | ⟨chain, chained, same, _⟩ := sendingEpoch_ok chosen
  case inr => simp [chained, same] at opens
  rw [encapsulated, Option.some.injEq, Prod.mk.injEq] at encapsulated'
  obtain ⟨rfl, rfl⟩ := encapsulated'
  obtain ⟨_, other, _, _, decapsulated, _, rfl⟩ | ⟨later, _⟩ := receivingEpoch_ok joins
  case inr => exact later (congrArg (· + 1) level)
  have differ : secret ≠ other := by
    rintro rfl
    exact elsewhere decapsulated
  -- The message is the first of its epoch, so its key is the first that each side derives there.
  cases messageKey_ok found with
  | late previous _ =>
    have next : sender.chainCounter + 1 + 1 = receiver.chainCounter := previous
    omega
  | kept _ before _ => exact absurd before (by decide : ¬ (0 : Int) < 0)
  | advanced gap _ position _ =>
    have first : (0 : Int) = 0 + gap := position
    obtain rfl : gap = 0 := by omega
    have keys := ideal.refuses sealed unsealed
    exact differ (secret_of_chain ideal (ideal.key_context keys).1).symm

section Transcribed

open Crypto.Transcript

/-- Alice has written to bob, and bob makes the bootstrap before he reads. -/
def ensuredBeforeReading : Net Bytes UInt8 :=
  ⟨{ greeted with state := Function.update greeted.state .bob { greeted.state .bob with peerPk := pkOf 1 } }, []⟩

theorem ensured_beforeReading : Ensured acquainted (StillPinned acquainted) ensuredBeforeReading := by
  have start : Ensured acquainted (StillPinned acquainted) ⟨greeted, []⟩ :=
    Relation.ReflTransGen.mono (fun _ _ step => .exchange step) _ _ exchanged_greeted
  have held := get_put PqcLinkCrypto.new "alice" (greeted.state .bob) 0
  have ensured := @ensureSession_of_get _ _ _ _ primitives _ _ (acquainted.pk .alice) _ held (trim_pkOf 1) "dm" 0 0
  have pinned : StillPinned acquainted ⟨greeted, []⟩ .bob := rfl
  exact .tail start (.ensure .bob pinned held ensured (get_put _ _ _ _))

/-- Bob reads alice's first message after the bootstrap. -/
theorem ensured_bob_reads :
    (((PqcLinkCrypto.new.put "alice" (ensuredBeforeReading.world.state .bob) 0).decrypt primitives
        (oneHeader hello.header) "alice" (frame (headerText hello.header) hello.ciphertext) 0 10).2 =
          .ok hello.plaintext ↔
      (∀ own ∈ ensuredBeforeReading.world.sentBy .bob, own.header.chainCounter < hello.header.chainCounter) ∧
        byteLen hello.ciphertext ≤ maxRatchetCiphertext) := by
  have member : hello ∈ ensuredBeforeReading.world.sentBy Party.bob.other := List.mem_cons_self
  have repinned : { greeted.state .bob with peerPk := pkOf 1 } = greeted.state .bob := rfl
  have same : ensuredBeforeReading.world.state .bob = greeted.state .bob := by
    simp only [ensuredBeforeReading, repinned, Function.update_eq_self]
  have window : InWindow (ensuredBeforeReading.world.state .bob) hello.header := same ▸ hello_in_window
  have size : byteLen (headerText hello.header) = 4811 := byteLen_opening_header rfl 2 ⟨3, 4, 5⟩
  have length : byteLen hello.ciphertext = 186 := by
    have counted := @byteLen_openingText (acquainted.start.state .alice) rfl 2 ⟨3, 4, 5⟩ [0x68, 0x69]
    exact counted.trans (by decide)
  have parsed : parseFrame (oneHeader hello.header) (frame (headerText hello.header) hello.ciphertext) =
      .ok (hello.header, hello.ciphertext) :=
    parseFrame_of_read (by rw [size]; decide) (read_oneHeader _) (by rw [length]; decide)
      (by rw [size, length]; decide)
  exact (ensured_session_delivers Transcript.ideal ensured_beforeReading).2 .bob hello member List.not_mem_nil window
    _ _ _ 0 10 (get_put _ _ _ _) parsed

theorem decapsulate_ctOf (draw sk : UInt8) : primitives.hybridDecapsulate (ctOf draw) sk = some [draw, sk] := by
  simp only [primitives, ctOf, Library.Encoding.hexDecode_hexEncode]
  rfl

theorem misdirected_opening {sender receiver after opened : RatchetState Bytes UInt8} {holder keypair : UInt8}
    {draws : Draws UInt8} {plaintext text : Bytes} {header : HeaderOutput} {ciphertext : String}
    (first : sender.sendingChainKey = none) (peer : sender.peerPk = pkOf holder) (moved : receiver.currentSk ≠ holder)
    (level : sender.chainCounter = receiver.chainCounter)
    (encrypted : encryptRatchet primitives sender plaintext draws = .ok (after, header, ciphertext)) :
    decryptRatchet primitives receiver header ciphertext keypair ≠ .ok (opened, text) := by
  have sealed : primitives.hybridEncapsulate sender.peerPk draws.encapsulation =
      some (ctOf draws.encapsulation, [draws.encapsulation, holder]) := by
    rw [peer]
    exact encapsulate_pkOf holder draws.encapsulation
  refine misdirected_refused Transcript.ideal (.inl first) sealed ?_ level encrypted
  rw [decapsulate_ctOf]
  simpa using moved

theorem byteLen_openingText_rooted {state : RatchetState Bytes UInt8} {root : Bytes}
    (rooted : state.rootKey = some root) (holder : UInt8) (draws : Draws UInt8) (plaintext : Bytes) :
    byteLen (openingText state holder draws plaintext) =
      2 * plaintext.length + 16 * root.length + 12 * byteLen state.context + 70 := by
  rw [openingText, sealedText, Library.Text.byteLen_hexEncode]
  simp only [chainStep, primitives, opening, advanceRoot, rooted, record, List.flatMap_cons, List.flatMap_nil,
    List.append_nil, List.length_append, List.length_cons, List.length_nil, length_framed, Library.Text.length_utf8]
  omega

/-- Alice has written to bob, bob has read it, and the bootstrap turns bob's session back to alice's first key: alice
refuses bob's reply, which she reads when the bootstrap is left out. -/
theorem reply_after_ensure_lost :
    ∃ net : Net Bytes UInt8, Exchanged acquainted net ∧ ∃ alice bob ensured : PqcLinkCrypto Bytes UInt8,
      alice.get "bob" = .ok (net.world.state .alice) ∧ bob.get "alice" = .ok (net.world.state .bob) ∧
      bob.ensureSession primitives "alice" "dm" (acquainted.pk .alice) 0 0 = (ensured, .ok ()) ∧
      (∃ state after header ciphertext, ensured.get "alice" = .ok state ∧
        encryptRatchet primitives state [0x6b] ⟨11, 12, 13⟩ = .ok (after, header, ciphertext) ∧
        ∀ json bytes now keypair text, parseFrame json bytes = .ok (header, ciphertext) →
          (alice.decrypt primitives json "bob" bytes now keypair).2 ≠ .ok text) ∧
      ∃ after header ciphertext,
        encryptRatchet primitives (net.world.state .bob) [0x6b] ⟨11, 12, 13⟩ = .ok (after, header, ciphertext) ∧
        ∀ json bytes now keypair, parseFrame json bytes = .ok (header, ciphertext) →
          (alice.decrypt primitives json "bob" bytes now keypair).2 = .ok [0x6b] := by
  obtain ⟨opened, decrypted, version, peer, silent, counter, context, rooted⟩ := bob_reads_hello
  have published : hello ∈ greeted.sentBy Party.bob.other := List.mem_cons_self
  have run : Exchanged acquainted ⟨greeted.accept ⟨.bob, hello.header, hello.plaintext⟩ opened, [hello]⟩ :=
    .tail exchanged_greeted (.accept .bob 10 published List.not_mem_nil hello_in_window decrypted)
  generalize world : greeted.accept ⟨.bob, hello.header, hello.plaintext⟩ opened = w at run
  have bobs : w.state .bob = opened := by rw [← world]; exact World.state_accept_self _ _ _ rfl
  have alices : w.state .alice = greeting.after primitives (acquainted.start.state .alice) := by
    rw [← world]
    rfl
  refine ⟨_, run, PqcLinkCrypto.new.put "bob" (w.state .alice) 0, PqcLinkCrypto.new.put "alice" (w.state .bob) 0, _,
    get_put _ _ _ _, get_put _ _ _ _, ensureSession_of_get (get_put _ _ _ _) (trim_pkOf 1) "dm" 0 0, ?_, ?_⟩
  · -- With the bootstrap bob answers to the key that alice held at the start.
    generalize repinned : { w.state .bob with peerPk := pkOf 1 } = sender
    have peer' : sender.peerPk = pkOf 1 := by rw [← repinned]
    have silent' : sender.sendingChainKey = none := by
      rw [← repinned, bobs]
      exact silent
    have version' : sender.version = ratchetVersion := by
      rw [← repinned, bobs]
      exact version
    have level : sender.chainCounter = (w.state .alice).chainCounter := by
      rw [← repinned, bobs, alices]
      exact counter
    have replied := @encryptRatchet_opening sender 1 ⟨11, 12, 13⟩ [0x6b] version' peer' silent' (by decide)
    refine ⟨_, _, _, _, get_put _ _ _ _, replied, ?_⟩
    intro json bytes now keypair text parsed read
    obtain ⟨after, decrypted⟩ := (decrypt_iff (get_put _ _ _ _) parsed now keypair).mp read
    have moved : (w.state .alice).currentSk ≠ 1 := by
      have drawn : (w.state .alice).currentSk = 4 := by rw [alices]; rfl
      rw [drawn]
      decide
    exact misdirected_opening silent' peer' moved level replied decrypted
  · -- Without it he answers to the key of her message, and the exchange goes on.
    have addressed : (w.state .bob).peerPk ≠ "" := by
      rw [bobs, peer]
      exact pkOf_ne_empty 4
    have chosen := @sendingEpoch_opening (w.state .bob) 4 ⟨11, 12, 13⟩ (by rw [bobs]; exact peer)
      (by rw [bobs]; exact silent)
    have quiet : w.sentBy .bob = [] := by rw [← world]; rfl
    have greetings : w.sentBy .alice = [hello] := by rw [← world]; rfl
    have replies := @exchange_writes ⟨w, [hello]⟩ .bob (opening (w.state .bob) 4 ⟨11, 12, 13⟩) ⟨11, 12, 13⟩ [0x6b]
      (by rw [bobs]; exact version) addressed (by decide) chosen
      ⟨fun same => absurd (pkOf_inj same) (by decide), by simp [quiet]⟩
    have replied := @encryptRatchet_chosen (w.state .bob) _ ⟨11, 12, 13⟩ [0x6b] (by rw [bobs]; exact version) addressed
      (by decide) chosen
    refine ⟨_, _, _, replied, ?_⟩
    intro json bytes now keypair parsed
    rw [decrypt_iff (get_put _ _ _ _) parsed now keypair]
    have short : byteLen (openingText (w.state .bob) 4 ⟨11, 12, 13⟩ [0x6b]) ≤ maxRatchetCiphertext := by
      rw [bobs, byteLen_openingText_rooted rooted, context]
      decide
    have next : ((opening (w.state .bob) 4 ⟨11, 12, 13⟩).header primitives).chainCounter = 2 := by
      rw [bobs]
      exact congrArg (· + 1) counter
    generalize answer : written .bob (w.state .bob) (opening (w.state .bob) 4 ⟨11, 12, 13⟩) [0x6b] 13 = reply at replies
    generalize (opening (w.state .bob) 4 ⟨11, 12, 13⟩).after primitives (w.state .bob) = after at replies
    have author : reply.author = .bob := by rw [← answer]; rfl
    have state : (w.send reply after).state .alice = w.state .alice := World.state_send_other _ _ _ author
    have member : reply ∈ (w.send reply after).sentBy Party.alice.other :=
      World.mem_sentBy.mpr ⟨List.mem_cons_self, author⟩
    have pending : reply ∉ [hello] := by
      intro delivered
      rw [List.mem_singleton.mp delivered] at author
      exact absurd author (by decide)
    have later : reply.header.chainCounter = 2 := by rw [← answer]; exact next
    have level : (w.state .alice).chainCounter = 1 := by rw [alices]; rfl
    have window : InWindow ((w.send reply after).state .alice) reply.header := by
      rw [state]
      refine ⟨fun _ => ?_, fun same => ?_⟩
      · rw [← answer]
        exact (by decide : (0 : Int) ≤ maxRatchetWindow)
      · rw [later, level] at same
        exact absurd same (by decide)
    have law := delivered_opens_iff Transcript.ideal (run.tail replies) member pending window keypair
    have opens := law.mpr ⟨?_, by rw [← answer]; exact short⟩
    · rw [state, ← answer] at opens
      exact opens
    · intro own sent
      rw [World.sentBy_send, if_neg (by rw [author]; decide), greetings] at sent
      rw [List.mem_singleton.mp sent, later]
      decide

end Transcribed

end Soshal.Mesh
