import Soshal.Crypto.Transcript
import Soshal.Mesh.PqcLink

/-! Reticulum links: request, proof, and the sessions behind them.

Each side keys its session, and names the context its keys are derived in, by the
address of the other side.
-/

set_option autoImplicit false

namespace Soshal.Mesh

open Library Crypto
open Library.Text (byteLen utf8 fromUtf8 hexEncode trim utf8_ne_nil)

def maxPendingLinks : Nat := 50
def linkTimeoutSecs : Nat := 300
def linkRequestPqc : UInt8 := 0x01
def linkRequestPqcSender : UInt8 := 0x02
def proofPqcSender : UInt8 := 0x02

structure ReticulumAddress where
  bytes : Bytes
  size : bytes.length = 16
  deriving DecidableEq

def ReticulumAddress.toHex (address : ReticulumAddress) : String := hexEncode address.bytes

def linkPeerId (dest : ReticulumAddress) : String := "reticulum:" ++ dest.toHex

def linkContext (dest : ReticulumAddress) : String := "reticulum-link:" ++ dest.toHex

inductive ReticulumPacketType where
  | data
  | announce
  | linkRequest
  | proof
  deriving DecidableEq

structure ReticulumPacket where
  flags : UInt8
  hops : UInt8
  destination : ReticulumAddress
  packetType : ReticulumPacketType
  payload : Bytes

def ReticulumPacket.new (destination : ReticulumAddress) (packetType : ReticulumPacketType) (payload : Bytes) :
    ReticulumPacket :=
  { flags := 0x00, hops := 0, destination := destination, packetType := packetType, payload := payload }

inductive LinkState where
  | pending
  | established
  | closed
  deriving DecidableEq

structure LinkInfo where
  remoteDestination : ReticulumAddress
  state : LinkState
  createdAt : Nat
  lastActivity : Nat
  txPackets : Nat
  rxPackets : Nat

structure LinkManager (Key Sk : Type) where
  links : Table ReticulumAddress LinkInfo
  crypto : PqcLinkCrypto Key Sk

variable {Key Sk Secret Seed : Type} (p : Primitives Key Sk Secret Seed) (json : HeaderJson)

def newLink (dest : ReticulumAddress) (state : LinkState) (now : Nat) : LinkInfo :=
  { remoteDestination := dest, state := state, createdAt := now, lastActivity := now, txPackets := 0, rxPackets := 0 }

/-- A payload that starts with a one-byte marker and an address, and has something after them. -/
def splitSender (payload : Bytes) : Option (ReticulumAddress × Bytes) :=
  if long : 17 < payload.length then
    some (⟨(payload.drop 1).take 16, by simp; omega⟩, payload.drop 17)
  else none

def parseLinkRequest (fromDest : ReticulumAddress) (payload : Bytes) : Except String (ReticulumAddress × String) :=
  match payload with
  | [] => .error "empty link request payload"
  | tag :: rest =>
    if tag = linkRequestPqcSender then
      match splitSender payload with
      | none => .error "unsupported link request payload"
      | some (address, pk) => (fromUtf8 pk).elim (.error "link request pk not ascii") fun pk => .ok (address, pk)
    else if tag = linkRequestPqc then
      (fromUtf8 rest).elim (.error "link request pk not ascii") fun pk => .ok (fromDest, pk)
    else .error "unsupported link request payload"

namespace LinkManager

def new : LinkManager Key Sk := ⟨.empty, .new⟩

variable (manager : LinkManager Key Sk) (dest : ReticulumAddress)

def setLink (link : LinkInfo) : LinkManager Key Sk :=
  { manager with links := manager.links.upsert dest link fun _ => link }

def requestLinkFrom (senderDest : Option ReticulumAddress)
    (remoteDest : ReticulumAddress) (now : Nat) (seed : Seed) : LinkManager Key Sk × Except String ReticulumPacket :=
  if maxPendingLinks ≤ manager.links.rows.length then (manager, .error "Maximum pending links reached")
  else
    -- The session is named after the other side's address, here and in the answer alike.
    match manager.crypto.beginHandshake p (linkPeerId remoteDest) (linkContext remoteDest) now seed with
    | (crypto, .error e) => ({ manager with crypto := crypto }, .error e)
    | (crypto, .ok ownPk) =>
      let marked :=
        match senderDest with
        | some sender => linkRequestPqcSender :: sender.bytes
        | none => [linkRequestPqc]
      ({ manager with crypto := crypto }.setLink remoteDest (newLink remoteDest .pending now),
        .ok (.new remoteDest .linkRequest (marked ++ utf8 ownPk)))

def handleLinkRequestWithOwnDest (ownDest : Option ReticulumAddress)
    (fromDest : ReticulumAddress) (payload : Bytes) (now : Nat) (seed : Seed) :
    LinkManager Key Sk × Except String ReticulumPacket :=
  match parseLinkRequest fromDest payload with
  | .error e => (manager, .error e)
  | .ok (actualFrom, initiatorPk) =>
    if maxPendingLinks ≤ manager.links.rows.length then (manager, .error "Maximum pending links reached")
    else
      match manager.crypto.acceptHandshakePk p (linkPeerId actualFrom) (linkContext actualFrom) initiatorPk now seed with
      | (crypto, .error e) => ({ manager with crypto := crypto }, .error e)
      | (crypto, .ok ownPk) =>
        let marked :=
          match ownDest with
          | some own => proofPqcSender :: own.bytes
          | none => []
        ({ manager with crypto := crypto }.setLink actualFrom (newLink actualFrom .established now),
          .ok (.new actualFrom .proof (marked ++ utf8 ownPk)))

/-- The link and key a proof speaks for: named in it, or else the sender's own link, or any pending one. -/
def parseLinkProof (fromDest : ReticulumAddress) (proofData : Bytes) : Except String (ReticulumAddress × String) :=
  match if proofData.head? = some proofPqcSender then splitSender proofData else none with
  | some (address, pk) => (fromUtf8 pk).elim (.error "link proof pk not ascii") fun pk => .ok (address, pk)
  | none =>
    (fromUtf8 proofData).elim (.error "link proof pk not ascii") fun pk =>
      let dest :=
        if (manager.links.find? fromDest).isSome then fromDest
        else ((manager.links.rows.find? fun row => row.2.state == .pending).map Prod.fst).getD fromDest
      .ok (dest, pk)

def handleLinkProof (fromDest : ReticulumAddress) (proofData : Bytes) (now : Nat) :
    LinkManager Key Sk × Except String Unit :=
  match manager.parseLinkProof fromDest proofData with
  | .error e => (manager, .error e)
  | .ok (targetDest, responderPk) =>
    match manager.links.find? targetDest with
    | none => (manager, .error "Unknown link")
    | some link =>
      if link.state = .pending then
        match manager.crypto.completeHandshake (linkPeerId targetDest) responderPk now with
        | (crypto, .error e) => ({ manager with crypto := crypto }, .error e)
        | (crypto, .ok ()) =>
          ({ manager with crypto := crypto }.setLink targetDest
            { link with state := .established, lastActivity := now }, .ok ())
      else (manager, .error "Link not in pending state")

def encryptForLink (data : Bytes) (now : Nat) (draws : Draws Seed) : LinkManager Key Sk × Except String Bytes :=
  let (crypto, result) := manager.crypto.encrypt p json (linkPeerId dest) data now draws
  ({ manager with crypto := crypto }, result)

def decryptFromLink (data : Bytes) (now : Nat) (keypair : Seed) : LinkManager Key Sk × Except String Bytes :=
  let (crypto, result) := manager.crypto.decrypt p json (linkPeerId dest) data now keypair
  ({ manager with crypto := crypto }, result)

def closeLink : LinkManager Key Sk where
  links := manager.links.delete fun key _ => key == dest
  crypto := manager.crypto.remove (linkPeerId dest)

/-- Drops the links with no activity for five minutes, with their sessions. -/
def pruneStaleLinks (now : Nat) : LinkManager Key Sk × Nat :=
  let stale := manager.links.rows.filter fun row => linkTimeoutSecs < now - row.2.lastActivity
  (stale.foldl (fun kept row => kept.closeLink row.1) manager, stale.length)

def getLinkInfo : Option LinkInfo := manager.links.find? dest

def isActive : Bool :=
  (manager.getLinkInfo dest).any (·.state == .established)

variable {p} {json}

@[simp] theorem find?_setLink (link : LinkInfo) : (manager.setLink dest link).links.find? dest = some link :=
  Table.find?_upsert_replace _ _ _

theorem splitSender_marked (tag : UInt8) (address : ReticulumAddress) {rest : Bytes} (more : rest ≠ []) :
    splitSender (tag :: address.bytes ++ rest) = some (address, rest) := by
  have positive := List.length_pos_iff.mpr more
  have size := address.size
  have long : 17 < (tag :: address.bytes ++ rest).length := by
    simp only [List.cons_append, List.length_cons, List.length_append]
    omega
  have head : ((tag :: address.bytes ++ rest).drop 1).take 16 = address.bytes := List.take_left' size
  have tail : (tag :: address.bytes ++ rest).drop 17 = rest := List.drop_left' (by simp [size])
  rw [splitSender, dif_pos long]
  simp only [head, tail]

theorem parseLinkRequest_marked (fromDest sender : ReticulumAddress) {pk : String} (named : pk ≠ "") :
    parseLinkRequest fromDest (linkRequestPqcSender :: sender.bytes ++ utf8 pk) = .ok (sender, pk) := by
  rw [List.cons_append, parseLinkRequest, if_pos rfl, ← List.cons_append, splitSender_marked _ _ (utf8_ne_nil named)]
  simp

theorem parseLinkProof_marked (fromDest target : ReticulumAddress) {pk : String} (named : pk ≠ "") :
    manager.parseLinkProof fromDest (proofPqcSender :: target.bytes ++ utf8 pk) = .ok (target, pk) := by
  have marked : (proofPqcSender :: target.bytes ++ utf8 pk).head? = some proofPqcSender := rfl
  rw [parseLinkProof, if_pos marked, splitSender_marked _ _ (utf8_ne_nil named)]
  simp

theorem requestLinkFrom_ok {manager after : LinkManager Key Sk} {sender dest : ReticulumAddress} {now : Nat}
    {seed : Seed}
    {packet : ReticulumPacket} (requested : manager.requestLinkFrom p (some sender) dest now seed = (after, .ok packet)) :
    ∃ pk sk, p.hybridKeygen seed = some (pk, sk) ∧ packet.payload = linkRequestPqcSender :: sender.bytes ++ utf8 pk ∧
      after.links.find? dest = some (newLink dest .pending now) ∧
      after.crypto.get (linkPeerId dest) = .ok (initState "" (linkContext dest) sk pk) := by
  unfold requestLinkFrom at requested
  split at requested
  · cases requested
  · cases begun : manager.crypto.beginHandshake p (linkPeerId dest) (linkContext dest) now seed with
    | mk crypto result =>
      cases result with
      | error e => simp [begun] at requested
      | ok pk =>
        obtain ⟨sk, generated, held⟩ := PqcLinkCrypto.beginHandshake_ok begun
        simp only [begun, Prod.mk.injEq, Except.ok.injEq] at requested
        obtain ⟨rfl, rfl⟩ := requested
        exact ⟨pk, sk, generated, rfl, find?_setLink _ _ _, held⟩

theorem handleLinkRequest_ok {manager after : LinkManager Key Sk} {own fromDest sender : ReticulumAddress} {now : Nat}
    {seed : Seed} {packet : ReticulumPacket} {initiatorPk : String} (named : initiatorPk ≠ "")
    (answered : manager.handleLinkRequestWithOwnDest p (some own) fromDest
      (linkRequestPqcSender :: sender.bytes ++ utf8 initiatorPk) now seed = (after, .ok packet)) :
    ∃ pk sk, p.hybridKeygen seed = some (pk, sk) ∧ packet.payload = proofPqcSender :: own.bytes ++ utf8 pk ∧
      after.links.find? sender = some (newLink sender .established now) ∧
      after.crypto.get (linkPeerId sender) = .ok (initState initiatorPk (linkContext sender) sk pk) := by
  unfold handleLinkRequestWithOwnDest at answered
  simp only [parseLinkRequest_marked fromDest sender named] at answered
  split at answered
  · cases answered
  · cases accepted : manager.crypto.acceptHandshakePk p (linkPeerId sender) (linkContext sender) initiatorPk now seed with
    | mk crypto result =>
      cases result with
      | error e => simp [accepted] at answered
      | ok pk =>
        obtain ⟨sk, generated, held⟩ := PqcLinkCrypto.acceptHandshakePk_ok accepted
        simp only [accepted, Prod.mk.injEq, Except.ok.injEq] at answered
        obtain ⟨rfl, rfl⟩ := answered
        exact ⟨pk, sk, generated, rfl, find?_setLink _ _ _, held⟩

theorem handleLinkProof_ok {manager after : LinkManager Key Sk} {fromDest target : ReticulumAddress} {now : Nat}
    {responderPk : String} (named : responderPk ≠ "")
    (proved : manager.handleLinkProof fromDest (proofPqcSender :: target.bytes ++ utf8 responderPk) now =
      (after, .ok ())) :
    ∃ state, manager.crypto.get (linkPeerId target) = .ok state ∧ after.isActive target ∧
      after.crypto.get (linkPeerId target) = .ok { state with peerPk := responderPk } := by
  unfold handleLinkProof at proved
  simp only [parseLinkProof_marked manager fromDest target named] at proved
  cases found : manager.links.find? target with
  | none => simp [found] at proved
  | some link =>
    simp only [found] at proved
    split at proved
    · cases completed : manager.crypto.completeHandshake (linkPeerId target) responderPk now with
      | mk crypto result =>
        cases result with
        | error e => simp [completed] at proved
        | ok done =>
          obtain ⟨state, held, kept⟩ := PqcLinkCrypto.completeHandshake_ok completed
          simp only [completed, Prod.mk.injEq, and_true] at proved
          subst proved
          exact ⟨state, held, by simp [isActive, getLinkInfo], kept⟩
    · cases proved

end LinkManager

variable {p} {json}

theorem ReticulumAddress.eq_of_toHex {head : String} {first second : ReticulumAddress}
    (same : head ++ first.toHex = head ++ second.toHex) : first = second := by
  have texts := congrArg String.toList same
  rw [String.toList_append, String.toList_append, List.append_cancel_left_eq] at texts
  have bytes := Text.hexEncode_inj (String.toList_inj.mp texts)
  cases first
  cases second
  cases bytes
  rfl

theorem linkContext_inj {first second : ReticulumAddress} (same : linkContext first = linkContext second) :
    first = second := ReticulumAddress.eq_of_toHex same

theorem refused_of_contexts (ideal : Ideal p) {sender receiver sealed opened : LinkManager Key Sk}
    {dest source : ReticulumAddress} {first second : RatchetState Key Sk}
    (held : sender.crypto.get (linkPeerId dest) = .ok first)
    (other : receiver.crypto.get (linkPeerId source) = .ok second)
    (foreign : first.context ≠ second.context) (unused : second.receivingChainKey = none)
    {payload bytes text : Bytes} {now later : Nat} {draws : Draws Seed} {keypair : Seed}
    (encrypted : sender.encryptForLink p json dest payload now draws = (sealed, .ok bytes)) :
    receiver.decryptFromLink p json source bytes later keypair ≠ (opened, .ok text) := by
  intro decrypted
  simp only [LinkManager.encryptForLink, LinkManager.decryptFromLink, Prod.mk.injEq] at encrypted decrypted
  obtain ⟨state, _, header, ciphertext, found, ratcheted, small, rfl⟩ :=
    PqcLinkCrypto.encrypt_ok (Prod.ext rfl encrypted.2)
  obtain ⟨read, cut, state', _, parsed, found', opens⟩ := PqcLinkCrypto.decrypt_ok (Prod.ext rfl decrypted.2)
  rw [held] at found
  rw [other] at found'
  cases found
  cases found'
  cases PqcLinkCrypto.parseFrame_frame small parsed
  exact foreign_context_refused ideal foreign unused ratcheted opens

/-- What one manager encrypts for its link comes out of the other as it went in. -/
def Carries (p : Primitives Key Sk Secret Seed) (json : HeaderJson) (sender : LinkManager Key Sk)
    (dest : ReticulumAddress) (receiver : LinkManager Key Sk) (source : ReticulumAddress) (payload : Bytes) : Prop :=
  ∃ now later draws keypair sealed bytes opened,
    sender.encryptForLink p json dest payload now draws = (sealed, .ok bytes) ∧
    receiver.decryptFromLink p json source bytes later keypair = (opened, .ok payload)

/-- Both ends of a completed handshake hold an active link, and no payload gets across in either direction: the
initiator's context names the responder, the responder's names the initiator. -/
theorem established_links_carry_nothing (ideal : Ideal p) {A B fromDest proofFrom : ReticulumAddress}
    (distinct : A ≠ B) {initiator pending established responder answering : LinkManager Key Sk}
    {request proof : ReticulumPacket} {asked answered proved : Nat} {first second : Seed}
    (requests : initiator.requestLinkFrom p (some A) B asked first = (pending, .ok request))
    (answers : responder.handleLinkRequestWithOwnDest p (some B) fromDest request.payload answered second =
      (answering, .ok proof))
    (proves : pending.handleLinkProof proofFrom proof.payload proved = (established, .ok ())) :
    established.isActive B ∧ answering.isActive A ∧
      ∀ json payload,
        ¬ Carries p json established B answering A payload ∧ ¬ Carries p json answering A established B payload := by
  have named : ∀ {seed pk sk}, p.hybridKeygen seed = some (pk, sk) → pk ≠ "" := by
    rintro seed pk sk generated rfl
    exact absurd (ideal.pkLength generated) (by decide)
  have foreign : linkContext B ≠ linkContext A := fun same => distinct (linkContext_inj same).symm
  obtain ⟨pk, sk, generated, payload, _, held⟩ := LinkManager.requestLinkFrom_ok requests
  rw [payload] at answers
  obtain ⟨pk', sk', generated', payload', linked, other⟩ := LinkManager.handleLinkRequest_ok (named generated) answers
  rw [payload'] at proves
  obtain ⟨state, found, active, complete⟩ := LinkManager.handleLinkProof_ok (named generated') proves
  rw [held] at found
  cases found
  refine ⟨active, by simp [LinkManager.isActive, LinkManager.getLinkInfo, linked, newLink], fun json payload => ⟨?_, ?_⟩⟩
  · rintro ⟨now, later, draws, keypair, sealed, bytes, opened, encrypts, decrypts⟩
    exact refused_of_contexts ideal complete other foreign rfl encrypts decrypts
  · rintro ⟨now, later, draws, keypair, sealed, bytes, opened, encrypts, decrypts⟩
    exact refused_of_contexts ideal other complete foreign.symm rfl encrypts decrypts

section Fresh

theorem startSession_new {seed : Seed} {pk : String} {sk : Sk} (generated : p.hybridKeygen seed = some (pk, sk))
    (peer context peerPk : String) (now : Nat) :
    ∃ after, PqcLinkCrypto.new.startSession p peer context peerPk now seed = (after, .ok pk) := by
  simp [PqcLinkCrypto.startSession, PqcLinkCrypto.new, PqcLinkCrypto.pruneStaleSessions, PqcLinkCrypto.keygenBudget,
    Table.empty, Table.delete, Table.find?, generated, maxSessions, keygenWindowSecs, maxKeygenPerSource]

theorem requests_of_new {seed : Seed} {pk : String} {sk : Sk} (generated : p.hybridKeygen seed = some (pk, sk))
    (A B : ReticulumAddress) (now : Nat) :
    ∃ after packet, LinkManager.new.requestLinkFrom p (some A) B now seed = (after, .ok packet) := by
  obtain ⟨after, started⟩ := startSession_new generated (linkPeerId B) (linkContext B) "" now
  have begun : PqcLinkCrypto.new.beginHandshake p (linkPeerId B) (linkContext B) now seed = (after, .ok pk) := started
  simp [LinkManager.requestLinkFrom, LinkManager.new, begun, Table.empty, maxPendingLinks]

theorem answers_of_new {seed : Seed} {pk initiatorPk : String} {sk : Sk}
    (generated : p.hybridKeygen seed = some (pk, sk)) (named : initiatorPk ≠ "") (shown : trim initiatorPk ≠ "")
    (A B fromDest : ReticulumAddress) (now : Nat) :
    ∃ after packet, LinkManager.new.handleLinkRequestWithOwnDest p (some B) fromDest
      (linkRequestPqcSender :: A.bytes ++ utf8 initiatorPk) now seed = (after, .ok packet) := by
  obtain ⟨after, started⟩ := startSession_new generated (linkPeerId A) (linkContext A) initiatorPk now
  have accepted : PqcLinkCrypto.new.acceptHandshakePk p (linkPeerId A) (linkContext A) initiatorPk now seed =
      (after, .ok pk) := by
    rw [PqcLinkCrypto.acceptHandshakePk, if_neg shown]
    exact started
  rw [LinkManager.handleLinkRequestWithOwnDest, LinkManager.parseLinkRequest_marked fromDest A named]
  simp [LinkManager.new, accepted, Table.empty, maxPendingLinks]

theorem proves_of_pending {manager : LinkManager Key Sk} {target : ReticulumAddress} {link : LinkInfo}
    {state : RatchetState Key Sk} {responderPk : String} (named : responderPk ≠ "") (shown : trim responderPk ≠ "")
    (found : manager.links.find? target = some link) (pending : link.state = .pending)
    (held : manager.crypto.get (linkPeerId target) = .ok state) (fromDest : ReticulumAddress) (now : Nat) :
    ∃ after, manager.handleLinkProof fromDest (proofPqcSender :: target.bytes ++ utf8 responderPk) now =
      (after, .ok ()) := by
  rw [LinkManager.handleLinkProof, LinkManager.parseLinkProof_marked manager fromDest target named]
  simp [found, pending, PqcLinkCrypto.completeHandshake, shown, held]

end Fresh

section Transcribed

open Crypto.Transcript

def north : ReticulumAddress := ⟨List.replicate 16 0x4e, rfl⟩
def south : ReticulumAddress := ⟨List.replicate 16 0x53, rfl⟩

def headerText (header : HeaderOutput) : String :=
  "\x7b\"version\":3,\"pk\":\"" ++ header.pk ++ "\",\"ct\":\"" ++ header.ct ++ "\",\"seq\":" ++ toString header.seq ++
    ",\"chain_counter\":" ++ toString header.chainCounter ++ ",\"header_mac\":\"" ++ header.headerMac ++ "\"\x7d"

def oneHeader (header : HeaderOutput) : HeaderJson where
  write := headerText
  read text := if text = headerText header then some header else none

theorem read_oneHeader (header : HeaderOutput) : (oneHeader header).read (headerText header) = some header := by
  dsimp only [oneHeader]
  rw [if_pos rfl]

theorem trim_pkOf (seed : UInt8) : trim (pkOf seed) ≠ "" := by
  rw [pkOf, Text.trim_hexEncode]
  exact pkOf_ne_empty seed

theorem handshake_completes (A B fromDest proofFrom : ReticulumAddress) (first second : UInt8) :
    ∃ (pending established answering : LinkManager Bytes UInt8) (request proof : ReticulumPacket),
      LinkManager.new.requestLinkFrom primitives (some A) B 0 first = (pending, .ok request) ∧
      LinkManager.new.handleLinkRequestWithOwnDest primitives (some B) fromDest request.payload 0 second =
        (answering, .ok proof) ∧
      pending.handleLinkProof proofFrom proof.payload 0 = (established, .ok ()) ∧
      established.crypto.get (linkPeerId B) =
        .ok { initState "" (linkContext B) first (pkOf first) with peerPk := pkOf second } ∧
      answering.crypto.get (linkPeerId A) = .ok (initState (pkOf first) (linkContext A) second (pkOf second)) := by
  obtain ⟨pending, request, requests⟩ := requests_of_new (keygen_eq first) A B 0
  obtain ⟨pk, sk, generated, payload, found, held⟩ := LinkManager.requestLinkFrom_ok requests
  cases generated
  obtain ⟨answering, proof, answers⟩ :=
    answers_of_new (keygen_eq second) (pkOf_ne_empty first) (trim_pkOf first) A B fromDest 0
  obtain ⟨pk', sk', generated', payload', _, other⟩ := LinkManager.handleLinkRequest_ok (pkOf_ne_empty first) answers
  cases generated'
  obtain ⟨established, proves⟩ :=
    proves_of_pending (pkOf_ne_empty second) (trim_pkOf second) found rfl held proofFrom 0
  obtain ⟨state, same, _, complete⟩ := LinkManager.handleLinkProof_ok (pkOf_ne_empty second) proves
  rw [held] at same
  cases same
  exact ⟨pending, established, answering, request, proof, requests, payload ▸ answers, payload' ▸ proves, complete,
    other⟩

theorem byteLen_headerText (header : HeaderOutput) :
    byteLen (headerText header) = byteLen header.pk + byteLen header.ct + byteLen header.headerMac +
      byteLen (toString header.seq) + byteLen (toString header.chainCounter) + 69 := by
  have parts : ∀ a b c d e f g h i j k : String, byteLen (a ++ b ++ c ++ d ++ e ++ f ++ g ++ h ++ i ++ j ++ k) =
      byteLen b + byteLen d + byteLen j + byteLen f + byteLen h +
        (byteLen a + byteLen c + byteLen e + byteLen g + byteLen i + byteLen k) := by
    intro a b c d e f g h i j k
    simp only [byteLen, String.utf8ByteSize_append]
    omega
  have names : byteLen "\x7b\"version\":3,\"pk\":\"" + byteLen "\",\"ct\":\"" + byteLen "\",\"seq\":" +
      byteLen ",\"chain_counter\":" + byteLen ",\"header_mac\":\"" + byteLen "\"\x7d" = 69 := by decide
  refine (parts _ _ _ _ _ _ _ _ _ _ _).trans ?_
  rw [names]

theorem byteLen_linkContext (dest : ReticulumAddress) : byteLen (linkContext dest) = 47 := by
  have mark : byteLen "reticulum-link:" = 15 := by decide
  have digits : byteLen dest.toHex = 32 := by rw [ReticulumAddress.toHex, Text.byteLen_hexEncode, dest.size]
  rw [linkContext, byteLen, String.utf8ByteSize_append]
  exact (congrArg₂ (· + ·) mark digits)

theorem byteLen_opening_header {state : RatchetState Bytes UInt8} (fresh : state.chainCounter = 0) (holder : UInt8)
    (draws : Draws UInt8) : byteLen (headerText ((opening state holder draws).header primitives)) = 4811 := by
  have pk := ideal.pkLength (keygen_eq draws.keypair)
  have ct := ideal.ctLength (encapsulate_pkOf holder draws.encapsulation)
  have zero : byteLen (toString (0 : Int)) = 1 := by decide
  have one : byteLen (toString (1 : Int)) = 1 := by decide
  rw [byteLen_headerText]
  simp only [SendingEpoch.header, opening, computeHeaderMac, Text.byteLen_hexEncode, primitives, List.length_replicate,
    pk, ct, fresh, zero, Int.zero_add, one, hybridPkLen, hybridCtLen]

theorem link_handshake_carries_nothing :
    ∃ (pending established answering : LinkManager Bytes UInt8) (request proof : ReticulumPacket),
      LinkManager.new.requestLinkFrom primitives (some north) south 0 1 = (pending, .ok request) ∧
      LinkManager.new.handleLinkRequestWithOwnDest primitives (some south) north request.payload 0 2 =
        (answering, .ok proof) ∧
      pending.handleLinkProof north proof.payload 0 = (established, .ok ()) ∧
      established.isActive south ∧ answering.isActive north ∧
      ∀ json payload, ¬ Carries primitives json established south answering north payload ∧
        ¬ Carries primitives json answering north established south payload := by
  obtain ⟨pending, established, answering, request, proof, requests, answers, proves, _, _⟩ :=
    handshake_completes north south north north 1 2
  exact ⟨pending, established, answering, request, proof, requests, answers, proves,
    established_links_carry_nothing Transcript.ideal (by decide) requests answers proves⟩

/-- Two letters, well within a frame, that the other end cannot open although it reads the frame. -/
theorem link_payload_lost :
    ∃ (pending established answering after refused : LinkManager Bytes UInt8) (request proof : ReticulumPacket)
      (header : HeaderOutput) (bytes : Bytes) (ciphertext error : String),
      LinkManager.new.requestLinkFrom primitives (some north) south 0 1 = (pending, .ok request) ∧
      LinkManager.new.handleLinkRequestWithOwnDest primitives (some south) north request.payload 0 2 =
        (answering, .ok proof) ∧
      pending.handleLinkProof north proof.payload 0 = (established, .ok ()) ∧
      established.encryptForLink primitives (oneHeader header) south [0x68, 0x69] 1 ⟨3, 4, 5⟩ = (after, .ok bytes) ∧
      PqcLinkCrypto.parseFrame (oneHeader header) bytes = .ok (header, ciphertext) ∧
      answering.decryptFromLink primitives (oneHeader header) north bytes 2 6 = (refused, .error error) := by
  obtain ⟨pending, established, answering, request, proof, requests, answers, proves, held, other⟩ :=
    handshake_completes north south north north 1 2
  have ratcheted := @encryptRatchet_opening { initState "" (linkContext south) 1 (pkOf 1) with peerPk := pkOf 2 } 2
    ⟨3, 4, 5⟩ [0x68, 0x69] rfl rfl rfl (by decide)
  generalize sent : (opening _ 2 ⟨3, 4, 5⟩).header primitives = header at ratcheted
  generalize text : openingText _ 2 ⟨3, 4, 5⟩ [0x68, 0x69] = ciphertext at ratcheted
  have headerSize : byteLen (headerText header) = 4811 := by rw [← sent, byteLen_opening_header rfl]
  have ciphertextSize : byteLen ciphertext = 1446 := by
    rw [← text, byteLen_openingText rfl]
    simp only [initState, byteLen_linkContext, List.length_cons, List.length_nil]
  have small : byteLen ((oneHeader header).write header) ≤ maxLinkHeaderJson := by
    simp only [oneHeader, headerSize, maxLinkHeaderJson]
    decide
  have encrypts := PqcLinkCrypto.encrypt_of_ratchet (by decide) held (pkOf_ne_empty 2) ratcheted small 1
  have parsed : PqcLinkCrypto.parseFrame (oneHeader header) (PqcLinkCrypto.frame (headerText header) ciphertext) =
      .ok (header, ciphertext) :=
    PqcLinkCrypto.parseFrame_of_read small (read_oneHeader header) (by omega)
      (by simp only [headerSize, ciphertextSize, maxLinkFrame]; decide)
  obtain ⟨after, sends⟩ : ∃ after, established.encryptForLink primitives (oneHeader header) south [0x68, 0x69] 1
      ⟨3, 4, 5⟩ = (after, .ok (PqcLinkCrypto.frame (headerText header) ciphertext)) := by
    rw [LinkManager.encryptForLink, encrypts]
    exact ⟨_, rfl⟩
  have foreign : linkContext south ≠ linkContext north := fun same => absurd (linkContext_inj same) (by decide)
  cases result : answering.decryptFromLink primitives (oneHeader header) north _ 2 6 with
  | mk refused outcome =>
    cases outcome with
    | ok plaintext => exact absurd result (refused_of_contexts ideal held other foreign rfl sends)
    | error error => exact ⟨pending, established, answering, after, refused, request, proof, header, _, ciphertext, error,
        requests, answers, proves, sends, parsed, result⟩

end Transcribed

end Soshal.Mesh
