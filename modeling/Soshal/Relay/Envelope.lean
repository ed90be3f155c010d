import Soshal.Library.LittleEndian
import Soshal.Library.Text

/-! The envelope of the flood relay: a fixed header, two short strings and the signed event as payload.

Reading puts the two strings into their stored spelling and accepts no hop count
above the ceiling. What is written for such an envelope is read back as it is, so a
relayed envelope reaches the next node with one hop more and otherwise unchanged.
-/

set_option autoImplicit false

namespace Soshal.Relay

open Library.LittleEndian
open Library.Text (byteLen utf8 fromUtf8 normKey length_utf8 fromUtf8_utf8 byteLen_of_fromUtf8 utf8_of_fromUtf8 normKey_normKey)

def magic : Bytes := [0x73, 0x6f, 0x73, 0x31]
def envelopeVersion : UInt8 := 1
def maxHopCount : UInt8 := 6
def maxPayloadBytes : Nat := 256 * 1024
def maxEnvelopeBytes : Nat := maxPayloadBytes + 512

structure MeshEnvelope where
  version : UInt8
  hopCount : UInt8
  eventId : String
  kind : UInt16
  author : String
  createdAt : UInt64
  payload : Bytes
  deriving DecidableEq

def pushStr (s : String) : Except String Bytes :=
  if byteLen s > 128 then .error "envelope string exceeds 128-byte cap" else .ok (leBytes 2 (byteLen s) ++ utf8 s)

def takeStr (data : Bytes) : Option (String × Bytes) := do
  let (len, data) ← takeLe 2 data
  if len > 128 ∨ data.length < len then none
  else
    let s ← fromUtf8 (data.take len)
    some (s, data.drop len)

namespace MeshEnvelope

def new (eventId : String) (kind : UInt16) (author : String) (createdAt : UInt64) (payload : Bytes) : MeshEnvelope :=
  ⟨envelopeVersion, 0, normKey eventId, kind, normKey author, createdAt, payload⟩

def atHopLimit (env : MeshEnvelope) : Bool := decide (env.hopCount ≥ maxHopCount)

def intoIncrementedHop (env : MeshEnvelope) : Option MeshEnvelope :=
  if env.atHopLimit then none else some { env with hopCount := env.hopCount + 1 }

def toBytes (env : MeshEnvelope) : Except String Bytes :=
  if env.eventId.isEmpty ∨ env.author.isEmpty then .error "envelope event_id and author cannot be empty"
  else do
    let eventId ← pushStr env.eventId
    let author ← pushStr env.author
    if env.payload.length ≥ 2 ^ 32 then .error "payload too large: out of range integral type conversion attempted"
    else
      .ok (magic ++ env.version :: env.hopCount :: (eventId ++ (leBytes 2 env.kind.toNat ++ (author ++
        (leBytes 8 env.createdAt.toNat ++ (leBytes 4 env.payload.length ++ env.payload))))))

def readFields (version hopCount : UInt8) (data : Bytes) : Option MeshEnvelope := do
  let (eventId, data) ← takeStr data
  if (normKey eventId).isEmpty then none
  else
    let (kind, data) ← takeLe 2 data
    let (author, data) ← takeStr data
    if (normKey author).isEmpty then none
    else
      let (createdAt, data) ← takeLe 8 data
      let (payloadLen, data) ← takeLe 4 data
      if payloadLen > maxPayloadBytes ∨ data.length ≠ payloadLen then none
      else
        some ⟨version, hopCount, normKey eventId, UInt16.ofNat kind, normKey author, UInt64.ofNat createdAt, data⟩

def fromBytes (data : Bytes) : Option MeshEnvelope :=
  if data.length < 22 ∨ data.length > maxEnvelopeBytes ∨ data.take 4 ≠ magic then none
  else
    match data.drop 4 with
    | version :: hopCount :: data =>
      if version ≠ envelopeVersion ∨ hopCount > maxHopCount then none else readFields version hopCount data
    | _ => none

/-- What every envelope has that was read from the wire or made by this node. -/
structure WellFormed (env : MeshEnvelope) : Prop where
  version : env.version = envelopeVersion
  hops : env.hopCount ≤ maxHopCount
  eventId : normKey env.eventId = env.eventId
  author : normKey env.author = env.author
  payload : env.payload.length ≤ maxPayloadBytes

end MeshEnvelope

theorem takeStr_pushStr {s : String} {bytes : Bytes} (pushed : pushStr s = .ok bytes) (rest : Bytes) :
    takeStr (bytes ++ rest) = some (s, rest) := by
  unfold pushStr at pushed
  split at pushed
  · cases pushed
  · rename_i short
    cases pushed
    have small : byteLen s < 256 ^ 2 := by omega
    have long : ¬ (byteLen s > 128 ∨ (utf8 s ++ rest).length < byteLen s) := by
      rw [List.length_append, length_utf8]
      omega
    unfold takeStr
    rw [List.append_assoc, takeLe_leBytes small]
    simp only [Option.bind_eq_bind, Option.bind_some]
    rw [if_neg long, List.take_left' (length_utf8 s), List.drop_left' (length_utf8 s), fromUtf8_utf8]
    rfl

theorem length_pushStr {s : String} {bytes : Bytes} (pushed : pushStr s = .ok bytes) :
    2 ≤ bytes.length ∧ bytes.length ≤ 130 := by
  unfold pushStr at pushed
  split at pushed
  · cases pushed
  · rename_i short
    cases pushed
    rw [List.length_append, length_leBytes, length_utf8]
    omega

namespace MeshEnvelope

variable {env : MeshEnvelope} {data bytes : Bytes}

def fieldBytes (env : MeshEnvelope) (eventId author : Bytes) : Bytes :=
  eventId ++ (leBytes 2 env.kind.toNat ++ (author ++ (leBytes 8 env.createdAt.toNat ++
    (leBytes 4 env.payload.length ++ env.payload))))

theorem toBytes_eq_ok (written : env.toBytes = .ok bytes) :
    env.eventId.isEmpty = false ∧ env.author.isEmpty = false ∧ ∃ eventId author, pushStr env.eventId = .ok eventId ∧
      pushStr env.author = .ok author ∧
      bytes = magic ++ env.version :: env.hopCount :: env.fieldBytes eventId author := by
  unfold toBytes at written
  split at written
  · cases written
  · rename_i named
    simp only [not_or, Bool.not_eq_true] at named
    refine ⟨named.1, named.2, ?_⟩
    cases first : pushStr env.eventId with
    | error e => simp [first, bind, Except.bind] at written
    | ok eventId =>
      cases second : pushStr env.author with
      | error e => simp [first, second, bind, Except.bind] at written
      | ok author =>
        simp only [first, second, bind, Except.bind] at written
        split at written
        · cases written
        · cases written
          exact ⟨eventId, author, rfl, rfl, rfl⟩

theorem toBytes_ok (eventNamed : env.eventId.isEmpty = false) (authorNamed : env.author.isEmpty = false)
    (eventShort : byteLen env.eventId ≤ 128) (authorShort : byteLen env.author ≤ 128)
    (capped : env.payload.length ≤ maxPayloadBytes) : ∃ bytes, env.toBytes = .ok bytes := by
  have named : ¬ (env.eventId.isEmpty = true ∨ env.author.isEmpty = true) := by simp [eventNamed, authorNamed]
  have small : ¬ env.payload.length ≥ 2 ^ 32 := by
    unfold maxPayloadBytes at capped
    omega
  unfold toBytes pushStr
  rw [if_neg named, if_neg (by omega : ¬ byteLen env.eventId > 128), if_neg (by omega : ¬ byteLen env.author > 128)]
  simp only [bind, Except.bind, if_neg small]
  exact ⟨_, rfl⟩

theorem readFields_fieldBytes (formed : env.WellFormed) (eventNamed : env.eventId.isEmpty = false)
    (authorNamed : env.author.isEmpty = false) {eventId author : Bytes} (first : pushStr env.eventId = .ok eventId)
    (second : pushStr env.author = .ok author) :
    readFields env.version env.hopCount (env.fieldBytes eventId author) = some env := by
  have kind : env.kind.toNat < 256 ^ 2 := env.kind.toNat_lt
  have createdAt : env.createdAt.toNat < 256 ^ 8 := env.createdAt.toNat_lt
  have payload : env.payload.length < 256 ^ 4 := by
    have capped := formed.payload
    unfold maxPayloadBytes at capped
    omega
  have fits : ¬ (env.payload.length > maxPayloadBytes ∨ env.payload.length ≠ env.payload.length) := by
    have capped := formed.payload
    omega
  unfold readFields fieldBytes
  rw [takeStr_pushStr first]
  simp only [Option.bind_eq_bind, Option.bind_some, formed.eventId, eventNamed, Bool.false_eq_true, if_false]
  rw [takeLe_leBytes kind]
  simp only [Option.bind_some]
  rw [takeStr_pushStr second]
  simp only [Option.bind_some, formed.author, authorNamed, Bool.false_eq_true, if_false]
  rw [takeLe_leBytes createdAt]
  simp only [Option.bind_some]
  rw [takeLe_leBytes payload]
  simp only [Option.bind_some, if_neg fits, UInt16.ofNat_toNat, UInt64.ofNat_toNat]

theorem length_fieldBytes {eventId author : Bytes} (first : pushStr env.eventId = .ok eventId)
    (second : pushStr env.author = .ok author) :
    18 + env.payload.length ≤ (env.fieldBytes eventId author).length ∧
      (env.fieldBytes eventId author).length ≤ 274 + env.payload.length := by
  have one := length_pushStr first
  have two := length_pushStr second
  simp only [fieldBytes, List.length_append, length_leBytes]
  omega

theorem fromBytes_toBytes (formed : env.WellFormed) (written : env.toBytes = .ok bytes) :
    fromBytes bytes = some env := by
  obtain ⟨eventNamed, authorNamed, eventId, author, first, second, rfl⟩ := toBytes_eq_ok written
  have length := length_fieldBytes first second
  have capped := formed.payload
  have hops : ¬ env.hopCount > maxHopCount := UInt8.not_lt.mpr formed.hops
  have prefixed : magic.length = 4 := rfl
  have cap : maxEnvelopeBytes = maxPayloadBytes + 512 := rfl
  have whole : (magic ++ env.version :: env.hopCount :: env.fieldBytes eventId author).length =
      6 + (env.fieldBytes eventId author).length := by
    rw [List.length_append, prefixed, List.length_cons, List.length_cons]
    omega
  have sized : ¬ ((magic ++ env.version :: env.hopCount :: env.fieldBytes eventId author).length < 22 ∨
      (magic ++ env.version :: env.hopCount :: env.fieldBytes eventId author).length > maxEnvelopeBytes ∨
      (magic ++ env.version :: env.hopCount :: env.fieldBytes eventId author).take 4 ≠ magic) := by
    rw [List.take_left' prefixed, whole, cap]
    generalize maxPayloadBytes = most at capped
    simp only [ne_eq, not_true_eq_false, or_false]
    omega
  unfold fromBytes
  rw [if_neg sized, List.drop_left' prefixed]
  dsimp only
  rw [if_neg (not_or.mpr ⟨not_not.mpr formed.version, hops⟩)]
  exact readFields_fieldBytes formed eventNamed authorNamed first second

section New

variable {eventId author : String} {kind : UInt16} {createdAt : UInt64} {payload : Bytes}

section

variable (capped : ¬ payload.length > maxPayloadBytes)
  (named : ¬ ((normKey eventId).isEmpty = true ∨ (normKey author).isEmpty = true))
  (short : ¬ (byteLen (normKey eventId) > 128 ∨ byteLen (normKey author) > 128))
include capped named short

theorem toBytes_new :
    ∃ bytes, (new eventId kind author createdAt payload).toBytes = .ok bytes ∧
      fromBytes bytes = some (new eventId kind author createdAt payload) := by
  simp only [not_or, Bool.not_eq_true] at named short
  have formed : (new eventId kind author createdAt payload).WellFormed :=
    ⟨rfl, UInt8.le_iff_toNat_le.mpr (Nat.zero_le _), normKey_normKey _, normKey_normKey _, Nat.not_lt.mp capped⟩
  obtain ⟨bytes, written⟩ : ∃ bytes, (new eventId kind author createdAt payload).toBytes = .ok bytes :=
    toBytes_ok named.1 named.2 (Nat.not_lt.mp short.1) (Nat.not_lt.mp short.2) (Nat.not_lt.mp capped)
  exact ⟨bytes, written, fromBytes_toBytes formed written⟩

theorem fromBytes_new :
    fromBytes ((new eventId kind author createdAt payload).toBytes.toOption.getD []) =
      some (new eventId kind author createdAt payload) := by
  obtain ⟨bytes, written, read⟩ := @toBytes_new _ _ kind createdAt _ capped named short
  rw [written]
  exact read

end

end New

theorem wellFormed_intoIncrementedHop {next : MeshEnvelope} (formed : env.WellFormed)
    (incremented : env.intoIncrementedHop = some next) : next.WellFormed := by
  unfold intoIncrementedHop at incremented
  split at incremented
  · cases incremented
  · rename_i below
    cases incremented
    refine ⟨formed.version, ?_, formed.eventId, formed.author, formed.payload⟩
    simp only [atHopLimit, ge_iff_le, decide_eq_true_eq, UInt8.not_le] at below
    rw [UInt8.lt_iff_toNat_lt] at below
    rw [UInt8.le_iff_toNat_le]
    have limit : maxHopCount.toNat = 6 := rfl
    have one : (1 : UInt8).toNat = 1 := rfl
    dsimp only
    rw [UInt8.toNat_add]
    omega

/-- The two strings as they are in the data, before they are put into their stored spelling. -/
def carriedStrings (data : Bytes) : Option (String × String) := do
  let (eventId, data) ← takeStr (data.drop 6)
  let (_, data) ← takeLe 2 data
  let (author, _) ← takeStr data
  some (eventId, author)

def CarriesNormal (data : Bytes) : Prop :=
  ∀ eventId author, carriedStrings data = some (eventId, author) → normKey eventId = eventId ∧ normKey author = author

end MeshEnvelope

theorem of_takeStr {s : String} {data rest : Bytes} (taken : takeStr data = some (s, rest)) :
    ∃ bytes, pushStr s = .ok bytes ∧ data = bytes ++ rest := by
  unfold takeStr at taken
  simp only [Option.bind_eq_bind] at taken
  obtain ⟨⟨len, tail⟩, counted, taken⟩ := Option.bind_eq_some_iff.mp taken
  dsimp only at taken
  split at taken
  · cases taken
  · rename_i fits
    obtain ⟨text, read, built⟩ := Option.bind_eq_some_iff.mp taken
    cases built
    obtain ⟨-, rfl⟩ := of_takeLe counted
    have length : byteLen s = len := by
      rw [byteLen_of_fromUtf8 read, List.length_take_of_le (by omega)]
    refine ⟨_, if_neg (by omega), ?_⟩
    rw [length, utf8_of_fromUtf8 read, List.append_assoc, List.take_append_drop]

namespace MeshEnvelope

variable {env : MeshEnvelope} {data : Bytes}

theorem of_readFields {version hopCount : UInt8} (read : readFields version hopCount data = some env) :
    (env.version = version ∧ env.hopCount = hopCount ∧ env.payload.length ≤ maxPayloadBytes) ∧
      ∃ eventId author eventBytes authorBytes, normKey eventId = env.eventId ∧ normKey author = env.author ∧
        env.eventId.isEmpty = false ∧ env.author.isEmpty = false ∧ pushStr eventId = .ok eventBytes ∧
        pushStr author = .ok authorBytes ∧ data = env.fieldBytes eventBytes authorBytes := by
  unfold readFields at read
  simp only [Option.bind_eq_bind] at read
  obtain ⟨⟨eventId, data₁⟩, first, read⟩ := Option.bind_eq_some_iff.mp read
  dsimp only at read
  split at read
  · cases read
  rename_i eventNamed
  obtain ⟨⟨kind, data₂⟩, second, read⟩ := Option.bind_eq_some_iff.mp read
  obtain ⟨⟨author, data₃⟩, third, read⟩ := Option.bind_eq_some_iff.mp read
  dsimp only at read
  split at read
  · cases read
  rename_i authorNamed
  obtain ⟨⟨createdAt, data₄⟩, fourth, read⟩ := Option.bind_eq_some_iff.mp read
  obtain ⟨⟨payloadLen, data₅⟩, fifth, read⟩ := Option.bind_eq_some_iff.mp read
  dsimp only at read
  split at read
  · cases read
  · rename_i sized
    cases read
    obtain ⟨eventBytes, pushedEvent, rfl⟩ := of_takeStr first
    obtain ⟨kindSmall, rfl⟩ := of_takeLe second
    obtain ⟨authorBytes, pushedAuthor, rfl⟩ := of_takeStr third
    obtain ⟨createdSmall, rfl⟩ := of_takeLe fourth
    obtain ⟨-, rfl⟩ := of_takeLe fifth
    have kindSame : (UInt16.ofNat kind).toNat = kind := by
      rw [UInt16.toNat_ofNat']
      exact Nat.mod_eq_of_lt kindSmall
    have createdSame : (UInt64.ofNat createdAt).toNat = createdAt := by
      rw [UInt64.toNat_ofNat']
      exact Nat.mod_eq_of_lt createdSmall
    refine ⟨⟨rfl, rfl, by dsimp only; omega⟩, eventId, author, eventBytes, authorBytes, rfl, rfl,
      by simpa using eventNamed, by simpa using authorNamed, pushedEvent, pushedAuthor, ?_⟩
    rw [fieldBytes, kindSame, createdSame, show data₅.length = payloadLen by omega]

theorem wellFormed_fromBytes (read : fromBytes data = some env) : env.WellFormed := by
  unfold fromBytes at read
  split at read
  · cases read
  · split at read
    · rename_i version hopCount rest _
      split at read
      · cases read
      · rename_i accepted
        rw [not_or, not_not] at accepted
        obtain ⟨⟨version, hops, payload⟩, _, _, _, _, eventId, author, -⟩ := of_readFields read
        exact ⟨by rw [version, accepted.1], by rw [hops]; exact UInt8.not_lt.mp accepted.2,
          eventId ▸ normKey_normKey _, author ▸ normKey_normKey _, payload⟩
    · cases read

theorem of_fromBytes (read : fromBytes data = some env) :
    ∃ eventId author eventBytes authorBytes, normKey eventId = env.eventId ∧ normKey author = env.author ∧
      env.eventId.isEmpty = false ∧ env.author.isEmpty = false ∧ pushStr eventId = .ok eventBytes ∧
      pushStr author = .ok authorBytes ∧ data.length ≤ maxEnvelopeBytes ∧
      data = magic ++ env.version :: env.hopCount :: env.fieldBytes eventBytes authorBytes := by
  unfold fromBytes at read
  split at read
  · cases read
  rename_i framed
  rw [not_or, not_or, not_not] at framed
  obtain ⟨-, short, prefixed⟩ := framed
  split at read
  · rename_i version hopCount rest split
    split at read
    · cases read
    · obtain ⟨⟨sameVersion, sameHops, -⟩, eventId, author, eventBytes, authorBytes, eventNormal, authorNormal, eventNamed,
        authorNamed, pushedEvent, pushedAuthor, rfl⟩ := of_readFields read
      refine ⟨eventId, author, eventBytes, authorBytes, eventNormal, authorNormal, eventNamed, authorNamed, pushedEvent,
        pushedAuthor, Nat.not_lt.mp short, ?_⟩
      rw [← List.take_append_drop 4 data, prefixed, split, sameVersion, sameHops]
  · cases read

theorem carriedStrings_eq {version hopCount : UInt8} {eventId author : String} {eventBytes authorBytes : Bytes}
    (first : pushStr eventId = .ok eventBytes) (second : pushStr author = .ok authorBytes) :
    carriedStrings (magic ++ version :: hopCount :: env.fieldBytes eventBytes authorBytes) = some (eventId, author) := by
  have kind : env.kind.toNat < 256 ^ 2 := env.kind.toNat_lt
  have header : (magic ++ version :: hopCount :: env.fieldBytes eventBytes authorBytes).drop 6 =
      env.fieldBytes eventBytes authorBytes := rfl
  rw [carriedStrings, header, fieldBytes, takeStr_pushStr first]
  simp only [Option.bind_eq_bind, Option.bind_some]
  rw [takeLe_leBytes kind]
  simp only [Option.bind_some]
  rw [takeStr_pushStr second]
  rfl

/-- Data that is read is what is written for the envelope exactly when its strings are in their stored spelling. -/
theorem toBytes_fromBytes_iff (read : fromBytes data = some env) : env.toBytes = .ok data ↔ CarriesNormal data := by
  have formed := wellFormed_fromBytes read
  obtain ⟨eventId, author, eventBytes, authorBytes, eventNormal, authorNormal, eventNamed, authorNamed, pushedEvent,
    pushedAuthor, -, rfl⟩ := of_fromBytes read
  constructor
  · intro written
    obtain ⟨-, -, eventBytes', authorBytes', first, second, same⟩ := toBytes_eq_ok written
    intro eventId' author' carried
    rw [same, carriedStrings_eq first second] at carried
    cases carried
    exact ⟨formed.eventId, formed.author⟩
  · intro normal
    obtain ⟨eventSame, authorSame⟩ := normal eventId author (carriedStrings_eq pushedEvent pushedAuthor)
    rw [← eventNormal.symm.trans eventSame] at pushedEvent
    rw [← authorNormal.symm.trans authorSame] at pushedAuthor
    have named : ¬ (env.eventId.isEmpty = true ∨ env.author.isEmpty = true) := by simp [eventNamed, authorNamed]
    have small : ¬ env.payload.length ≥ 2 ^ 32 := by
      have capped := formed.payload
      unfold maxPayloadBytes at capped
      omega
    rw [toBytes, if_neg named, pushedEvent, pushedAuthor]
    simp only [bind, Except.bind, if_neg small]
    rfl

end MeshEnvelope

end Soshal.Relay
