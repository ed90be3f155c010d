import Soshal.Crypto.Ratchet
import Soshal.Library.Table

/-! Ratchet sessions of the network transports, one for each peer, and their frames.

A call that fails may still have pruned sessions or used up key-generation
budget, so every operation returns the sessions beside its result. A call reads
the clock as one instant.
-/

set_option autoImplicit false

namespace Soshal.Mesh

open Library Crypto
open Library.Text (byteLen utf8 fromUtf8 trim)
open Library.Fallible (guard_eq_ok)

def frameTagRatchet : UInt8 := 0x01
def maxLinkHeaderJson : Nat := 8 * 1024
def maxLinkFrame : Nat := 96 * 1024
def maxLinkPayload : Nat := 48 * 1024
def maxSessions : Nat := 256
def maxKeygenPerSource : Nat := 4
def keygenWindowSecs : Nat := 60

structure Session (Key Sk : Type) where
  state : RatchetState Key Sk
  createdAt : Nat
  lastAct : Nat

structure PqcLinkCrypto (Key Sk : Type) where
  states : Table String (Session Key Sk)
  keygens : Table String (Nat × Nat)

/-- The JSON form of a ratchet header, as serde writes and reads it. -/
structure HeaderJson where
  write : HeaderOutput → String
  read : String → Option HeaderOutput

variable {Key Sk Secret Seed : Type} (p : Primitives Key Sk Secret Seed) (json : HeaderJson)

namespace PqcLinkCrypto

def new : PqcLinkCrypto Key Sk := ⟨.empty, .empty⟩

variable (crypto : PqcLinkCrypto Key Sk) (peer : String)

/-- Handshakes open for a minute and sessions idle for a day are dropped. -/
def pruneStaleSessions (now : Nat) : PqcLinkCrypto Key Sk :=
  { crypto with
    states := crypto.states.delete fun _ session =>
      (session.state.peerPk == "" && decide (60 < now - session.createdAt)) ||
        decide (86400 < now - session.lastAct) }

def keygenBudget (now : Nat) : PqcLinkCrypto Key Sk × Bool :=
  -- Expired windows are swept only once the table has grown large.
  let keygens :=
    if 4096 < crypto.keygens.rows.length then
      crypto.keygens.delete fun _ entry => decide (keygenWindowSecs ≤ now - entry.2)
    else crypto.keygens
  let held := (keygens.find? peer).getD (0, now)
  let entry := if keygenWindowSecs ≤ now - held.2 then (0, now) else held
  if maxKeygenPerSource ≤ entry.1 then
    ({ crypto with keygens := keygens.upsert peer entry fun _ => entry }, false)
  else
    let counted := (entry.1 + 1, entry.2)
    ({ crypto with keygens := keygens.upsert peer counted fun _ => counted }, true)

def hasSession : Bool := (crypto.states.find? peer).isSome

def get : Except String (RatchetState Key Sk) :=
  match crypto.states.find? peer with
  | none => .error "no ratchet session for peer"
  | some session => .ok session.state

def put (state : RatchetState Key Sk) (now : Nat) : PqcLinkCrypto Key Sk :=
  let session := { state := state, createdAt := ((crypto.states.find? peer).map (·.createdAt)).getD now, lastAct := now }
  { crypto with states := crypto.states.upsert peer session fun _ => session }

def remove : PqcLinkCrypto Key Sk where
  states := crypto.states.delete fun key _ => key == peer
  keygens := crypto.keygens.delete fun key _ => key == peer

/-- The end of every handshake: within the session and key-generation limits, a key pair and a new session. -/
def startSession (peer context peerPk : String) (now : Nat) (seed : Seed) :
    PqcLinkCrypto Key Sk × Except String String :=
  let pruned := crypto.pruneStaleSessions now
  if maxSessions ≤ pruned.states.rows.length then (pruned, .error "ratchet session limit reached")
  else
    let (counted, granted) := pruned.keygenBudget peer now
    if granted then
      match p.hybridKeygen seed with
      | none => (counted, .error "hybrid keygen failed")
      | some (pk, sk) => (counted.put peer (initState peerPk context sk pk) now, .ok pk)
    else (counted, .error "handshake keygen rate limited")

def beginHandshake (peer context : String) (now : Nat) (seed : Seed) : PqcLinkCrypto Key Sk × Except String String :=
  match crypto.states.find? peer with
  | none => crypto.startSession p peer context "" now seed
  | some session =>
    -- A handshake that was never answered may be begun again after a minute.
    if session.state.peerPk = "" ∧ 60 < now - session.createdAt then
      { crypto with states := crypto.states.delete fun key _ => key == peer }.startSession p peer context "" now seed
    else (crypto, .error "ratchet session already exists for peer")

def completeHandshake (peer peerPk : String) (now : Nat) : PqcLinkCrypto Key Sk × Except String Unit :=
  if trim peerPk = "" then (crypto, .error "empty peer public key")
  else
    match crypto.get peer with
    | .error e => (crypto, .error e)
    | .ok state => (crypto.put peer { state with peerPk := peerPk } now, .ok ())

def acceptHandshakePk (peer context peerPk : String) (now : Nat) (seed : Seed) :
    PqcLinkCrypto Key Sk × Except String String :=
  if trim peerPk = "" then (crypto, .error "empty peer public key")
  else if crypto.hasSession peer then (crypto, .error "ratchet session already exists for peer")
  else crypto.startSession p peer context peerPk now seed

def u16BeBytes (n : Nat) : Bytes := [UInt8.ofNat (n / 256), UInt8.ofNat (n % 256)]

def frame (headerJson ciphertext : String) : Bytes :=
  frameTagRatchet :: (u16BeBytes (byteLen headerJson) ++ utf8 headerJson ++ utf8 ciphertext)

/-- The ratchet has advanced even when the header turns out too large for a frame. -/
def encrypt (payload : Bytes) (now : Nat) (draws : Draws Seed) : PqcLinkCrypto Key Sk × Except String Bytes :=
  if maxLinkPayload < payload.length then (crypto, .error "payload too large for ratchet link frame")
  else
    match crypto.get peer with
    | .error e => (crypto, .error e)
    | .ok state =>
      if state.peerPk = "" then (crypto, .error "ratchet handshake incomplete: no peer public key")
      else
        match encryptRatchet p state payload draws with
        | .error e => (crypto, .error e)
        | .ok (newState, header, ciphertext) =>
          let stepped := crypto.put peer newState now
          if maxLinkHeaderJson < byteLen (json.write header) then (stepped, .error "ratchet header too large")
          else (stepped, .ok (frame (json.write header) ciphertext))

def parseFrame (bytes : Bytes) : Except String (HeaderOutput × String) :=
  match bytes with
  | tag :: high :: low :: rest =>
    if tag ≠ frameTagRatchet then .error "bad ratchet frame"
    else if maxLinkFrame < bytes.length then .error "ratchet frame too large"
    else
      let headerLen := high.toNat * 256 + low.toNat
      if maxLinkHeaderJson < headerLen ∨ bytes.length < 3 + headerLen + 1 then .error "bad ratchet header length"
      else
        match fromUtf8 (rest.take headerLen) with
        | none => .error "header not utf8"
        | some text =>
          match json.read text with
          | none => .error "bad ratchet header json"
          | some header =>
            match fromUtf8 (rest.drop headerLen) with
            | none => .error "ciphertext not utf8"
            | some ciphertext => .ok (header, ciphertext)
  | _ => .error "bad ratchet frame"

def decrypt (bytes : Bytes) (now : Nat) (keypair : Seed) : PqcLinkCrypto Key Sk × Except String Bytes :=
  match parseFrame json bytes with
  | .error e => (crypto, .error e)
  | .ok (header, ciphertext) =>
    match crypto.get peer with
    | .error e => (crypto, .error e)
    | .ok state =>
      match decryptRatchet p state header ciphertext keypair with
      | .error e => (crypto, .error e)
      | .ok (newState, plaintext) => (crypto.put peer newState now, .ok plaintext)

variable {p} {json}

@[simp] theorem get_put (state : RatchetState Key Sk) (now : Nat) :
    (crypto.put peer state now).get peer = .ok state := by
  simp only [get, put, Table.find?_upsert_replace]

section

variable {crypto after : PqcLinkCrypto Key Sk} {now : Nat}

theorem startSession_ok {peer context peerPk pk : String} {seed : Seed}
    (started : crypto.startSession p peer context peerPk now seed = (after, .ok pk)) :
    ∃ sk, p.hybridKeygen seed = some (pk, sk) ∧ after.get peer = .ok (initState peerPk context sk pk) := by
  simp only [startSession] at started
  split at started
  · cases started
  · split at started
    · cases generated : p.hybridKeygen seed with
      | none => simp [generated] at started
      | some pair =>
        simp only [generated, Prod.mk.injEq, Except.ok.injEq] at started
        obtain ⟨rfl, rfl⟩ := started
        exact ⟨pair.2, rfl, get_put _ _ _ _⟩
    · cases started

theorem beginHandshake_ok {peer context pk : String} {seed : Seed}
    (begun : crypto.beginHandshake p peer context now seed = (after, .ok pk)) :
    ∃ sk, p.hybridKeygen seed = some (pk, sk) ∧ after.get peer = .ok (initState "" context sk pk) := by
  unfold beginHandshake at begun
  split at begun
  · exact startSession_ok begun
  · split at begun
    · exact startSession_ok begun
    · cases begun

theorem acceptHandshakePk_ok {peer context peerPk pk : String} {seed : Seed}
    (accepted : crypto.acceptHandshakePk p peer context peerPk now seed = (after, .ok pk)) :
    ∃ sk, p.hybridKeygen seed = some (pk, sk) ∧ after.get peer = .ok (initState peerPk context sk pk) := by
  unfold acceptHandshakePk at accepted
  split at accepted
  · cases accepted
  · split at accepted
    · cases accepted
    · exact startSession_ok accepted

theorem completeHandshake_ok {peer peerPk : String}
    (completed : crypto.completeHandshake peer peerPk now = (after, .ok ())) :
    ∃ state, crypto.get peer = .ok state ∧ after.get peer = .ok { state with peerPk := peerPk } := by
  unfold completeHandshake at completed
  split at completed
  · cases completed
  · cases held : crypto.get peer with
    | error e => simp [held] at completed
    | ok state =>
      simp only [held, Prod.mk.injEq, and_true] at completed
      exact ⟨state, rfl, completed ▸ get_put _ _ _ _⟩

theorem encrypt_ok {peer : String} {payload bytes : Bytes} {draws : Draws Seed}
    (encrypted : crypto.encrypt p json peer payload now draws = (after, .ok bytes)) :
    ∃ state newState header ciphertext, crypto.get peer = .ok state ∧
      encryptRatchet p state payload draws = .ok (newState, header, ciphertext) ∧
      byteLen (json.write header) ≤ maxLinkHeaderJson ∧ bytes = frame (json.write header) ciphertext := by
  unfold encrypt at encrypted
  split at encrypted
  · cases encrypted
  · cases held : crypto.get peer with
    | error e => simp [held] at encrypted
    | ok state =>
      simp only [held] at encrypted
      split at encrypted
      · cases encrypted
      · cases ratcheted : encryptRatchet p state payload draws with
        | error e => simp [ratcheted] at encrypted
        | ok out =>
          simp only [ratcheted] at encrypted
          split at encrypted
          case isTrue => cases encrypted
          case isFalse small =>
            cases encrypted
            exact ⟨state, out.1, out.2.1, out.2.2, rfl, ratcheted, Nat.not_lt.mp small, rfl⟩

theorem decrypt_ok {peer : String} {bytes plaintext : Bytes} {keypair : Seed}
    (decrypted : crypto.decrypt p json peer bytes now keypair = (after, .ok plaintext)) :
    ∃ header ciphertext state newState, parseFrame json bytes = .ok (header, ciphertext) ∧
      crypto.get peer = .ok state ∧ decryptRatchet p state header ciphertext keypair = .ok (newState, plaintext) := by
  unfold decrypt at decrypted
  cases parsed : parseFrame json bytes with
  | error e => simp [parsed] at decrypted
  | ok message =>
    cases held : crypto.get peer with
    | error e => simp [parsed, held] at decrypted
    | ok state =>
      cases opened : decryptRatchet p state message.1 message.2 keypair with
      | error e => simp [parsed, held, opened] at decrypted
      | ok out =>
        simp only [parsed, held, opened, Prod.mk.injEq, Except.ok.injEq] at decrypted
        obtain ⟨_, rfl⟩ := decrypted
        exact ⟨message.1, message.2, state, out.1, rfl, rfl, opened⟩

end

theorem headerLen_frame {n : Nat} (small : n ≤ maxLinkHeaderJson) :
    (UInt8.ofNat (n / 256)).toNat * 256 + (UInt8.ofNat (n % 256)).toNat = n := by
  simp only [maxLinkHeaderJson] at small
  rw [UInt8.toNat_ofNat', UInt8.toNat_ofNat', Nat.mod_eq_of_lt (by omega), Nat.mod_eq_of_lt (by omega)]
  omega

theorem length_frame (text ciphertext : String) :
    (frame text ciphertext).length = 3 + byteLen text + byteLen ciphertext := by
  simp only [frame, u16BeBytes, List.cons_append, List.nil_append, List.length_cons, List.length_append,
    Text.length_utf8]
  omega

theorem parseFrame_frame {text ciphertext : String} (small : byteLen text ≤ maxLinkHeaderJson) {header : HeaderOutput}
    {cut : String} (parsed : parseFrame json (frame text ciphertext) = .ok (header, cut)) : cut = ciphertext := by
  simp only [frame, u16BeBytes, List.cons_append, List.nil_append, parseFrame, headerLen_frame small] at parsed
  obtain ⟨_, parsed⟩ := guard_eq_ok.mp parsed
  obtain ⟨_, parsed⟩ := guard_eq_ok.mp parsed
  obtain ⟨_, parsed⟩ := guard_eq_ok.mp parsed
  have tail : (utf8 text ++ utf8 ciphertext).drop (byteLen text) = utf8 ciphertext := List.drop_left' (by simp)
  rw [tail, Text.fromUtf8_utf8] at parsed
  split at parsed
  · cases parsed
  · split at parsed
    · cases parsed
    · cases parsed
      rfl

theorem parseFrame_of_read {text ciphertext : String} {header : HeaderOutput} (small : byteLen text ≤ maxLinkHeaderJson)
    (read : json.read text = some header) (nonempty : 0 < byteLen ciphertext)
    (fits : 3 + byteLen text + byteLen ciphertext ≤ maxLinkFrame) :
    parseFrame json (frame text ciphertext) = .ok (header, ciphertext) := by
  have length := length_frame text ciphertext
  have head : (utf8 text ++ utf8 ciphertext).take (byteLen text) = utf8 text := List.take_left' (by simp)
  have tail : (utf8 text ++ utf8 ciphertext).drop (byteLen text) = utf8 ciphertext := List.drop_left' (by simp)
  simp only [frame, u16BeBytes, List.cons_append, List.nil_append] at length ⊢
  simp only [parseFrame, headerLen_frame small, length]
  rw [if_neg (by simp), if_neg (by omega), if_neg (by omega), head, tail]
  simp only [Text.fromUtf8_utf8, read]

theorem encrypt_of_ratchet {crypto : PqcLinkCrypto Key Sk} {peer : String} {payload : Bytes} {draws : Draws Seed}
    {state newState : RatchetState Key Sk} {header : HeaderOutput} {ciphertext : String}
    (fits : payload.length ≤ maxLinkPayload) (held : crypto.get peer = .ok state) (known : state.peerPk ≠ "")
    (encrypted : encryptRatchet p state payload draws = .ok (newState, header, ciphertext))
    (small : byteLen (json.write header) ≤ maxLinkHeaderJson) (now : Nat) :
    crypto.encrypt p json peer payload now draws =
      (crypto.put peer newState now, .ok (frame (json.write header) ciphertext)) := by
  rw [encrypt, if_neg (Nat.not_lt.mpr fits)]
  simp only [held, if_neg known, encrypted, if_neg (Nat.not_lt.mpr small)]

end PqcLinkCrypto

end Soshal.Mesh
