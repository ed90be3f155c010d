import Soshal.Library.Table
import Soshal.Library.Encoding
import Mathlib.Data.List.Sort

/-! The outbox queue: how a payload is stored and how it is read back.

A payload is compressed when it is long, sealed by the caller and stored under a
form that is announced by a prefix of the text itself. Reading undoes the forms it
recognises, each under its own size limit. What reading gives back is therefore a
question about the payload's own text and length.
-/

set_option autoImplicit false

namespace Soshal.Sync

open Library Library.Text Library.Encoding

/-- The `zstd` crate: `encode_all` at level 3, and the first `limit` bytes of a decoded stream. -/
structure Zstd where
  encodeAll : List UInt8 → Option (List UInt8)
  read : List UInt8 → Nat → Option (List UInt8)

/-- Decompression inverts compression, and a compressed stream is never empty. -/
structure Zstd.Lawful (zstd : Zstd) : Prop where
  read_encodeAll : ∀ {bytes frame}, zstd.encodeAll bytes = some frame → ∀ limit,
    zstd.read frame limit = some (bytes.take limit)
  frame_ne_nil : ∀ {bytes frame}, zstd.encodeAll bytes = some frame → frame ≠ []

inductive OutboxStatus where
  | pending
  | completed
  | failed
  deriving DecidableEq

structure OutboxRow where
  actionType : String
  payloadJson : String
  mediaPath : Option String
  status : OutboxStatus
  retryCount : Int
  nextRetryAt : Int
  createdAt : Int
  deriving DecidableEq

structure OutboxItem extends OutboxRow where
  id : String
  deriving DecidableEq

/-- The `outbox_queue` table. -/
abbrev OutboxQueue := Table String OutboxRow

/-- The bytes `Zstd`. -/
def zstdMagic : List UInt8 := [90, 115, 116, 100]

def sealMark : String := "__seal_b64__:"

def zstdBase64Mark : String := "__zstd_b64__:"

def zstdHexMark : String := "__zstd__:"

def maxDecompressed : Nat := 1024 * 1024

variable (zstd : Zstd)

def compressPayload (payload : String) : String :=
  if 256 < byteLen payload then
    match zstd.encodeAll (utf8 payload) with
    | some compressed => zstdBase64Mark ++ base64Encode (zstdMagic ++ compressed)
    | none => payload
  else payload

/-- The closure `cap` of `decompress_payload`. -/
def cap (bytes : List UInt8) : Option String := do
  -- One byte more than allowed tells a stream that is too long.
  let out ← zstd.read bytes (maxDecompressed + 1)
  if maxDecompressed < out.length then none else fromUtf8 out

def readFrame (bytes : List UInt8) : Option String :=
  if 4 < bytes.length ∧ bytes.take 4 = zstdMagic then cap zstd (bytes.drop 4) else none

def decompressPayload (raw : String) : String :=
  if !startsWith raw "__zstd" then raw
  else match stripPrefix raw zstdBase64Mark with
    -- Whatever goes wrong, the stored text is returned as it is.
    | some data => ((base64Decode data).bind (readFrame zstd)).getD raw
    | none =>
      match stripPrefix raw zstdHexMark with
      | some data => ((hexDecode data).bind (readFrame zstd)).getD raw
      | none => raw

variable (unsealing : String → Except String String)

def unsealPayload (payload : String) : String :=
  match stripPrefix payload sealMark with
  | some inner =>
    match unsealing inner with
    | .ok plain => decompressPayload zstd plain
    | .error _ => payload
  | none => payload

def enqueueOutboxItemWithSeal (sealing : String → Except String String) (db : OutboxQueue)
    (id actionType payloadJson : String) (mediaPath : Option String) (nowSecs : Int) :
    Except String OutboxQueue :=
  if trim id = "" ∨ 128 < byteLen id then .error "id must be between 1 and 128 chars"
  else if trim actionType = "" ∨ 64 < byteLen actionType then
    .error "action_type must be between 1 and 64 chars"
  else if 16 * 1024 * 1024 < byteLen payloadJson then .error "payload_json exceeds 16MB cap"
  else if mediaPath.any fun path => 1024 < byteLen path then .error "media_path exceeds 1024 chars"
  else
    match sealing (compressPayload zstd payloadJson) with
    | .error e => .error ("Failed to seal outbox payload: " ++ e)
    | .ok stored =>
      -- INSERT OR REPLACE: an id that is queued already starts over.
      let row : OutboxRow := ⟨actionType, stored, mediaPath, .pending, 0, 0, nowSecs⟩
      .ok (db.upsert id row fun _ => row)

def enqueueOutboxItem (db : OutboxQueue) (id actionType payloadJson : String) (mediaPath : Option String)
    (nowSecs : Int) : Except String OutboxQueue :=
  enqueueOutboxItemWithSeal zstd .ok db id actionType payloadJson mediaPath nowSecs

/-- The `WHERE` clause of the two `SELECT` statements. -/
def due (nowSecs : Int) (includeMedia : Bool) (row : OutboxRow) : Bool :=
  row.status == .pending && (includeMedia || row.mediaPath.isNone) && decide (row.nextRetryAt ≤ nowSecs)

/-- `LIMIT` on a bound cast to `i64`: a negative bound is no bound. -/
def sqlLimit {α : Type} (limit : UInt64) (rows : List α) : List α :=
  if limit.toInt64 < 0 then rows else rows.take limit.toNat

def readItem (id : String) (row : OutboxRow) : OutboxItem :=
  { row with id, payloadJson := unsealPayload zstd unsealing (decompressPayload zstd row.payloadJson) }

def fetchPendingOutboxItemsWithUnseal (db : OutboxQueue) (nowSecs : Int) (limit : UInt64) (includeMedia : Bool) :
    List OutboxItem :=
  if limit = 0 then []
  else
    let rows := (db.rows.filter fun row => due nowSecs includeMedia row.2).mergeSort
      fun first second => decide (first.2.createdAt ≤ second.2.createdAt)
    (sqlLimit limit rows).map fun row => readItem zstd unsealing row.1 row.2

def fetchPendingOutboxItems (db : OutboxQueue) (nowSecs : Int) (limit : UInt64) : List OutboxItem :=
  fetchPendingOutboxItemsWithUnseal zstd .ok db nowSecs limit false

/-- The text that `raw` carries in a compressed form. -/
def zstdContent (raw : String) : Option String :=
  match stripPrefix raw zstdBase64Mark with
  | some data => (base64Decode data).bind (readFrame zstd)
  | none => (stripPrefix raw zstdHexMark).bind fun data => (hexDecode data).bind (readFrame zstd)

/-- The text that `raw` carries in a sealed envelope, after its own compressed form. -/
def sealContent (raw : String) : Option String :=
  (stripPrefix raw sealMark).bind fun inner =>
    (unsealing inner).toOption.map fun plain => (zstdContent zstd plain).getD plain

theorem startsWith_zstd {raw mark rest : String} (stripped : stripPrefix raw mark = some rest)
    (marked : "__zstd".toList <+: mark.toList) : startsWith raw "__zstd" = true := by
  rw [startsWith, List.isPrefixOf_iff_prefix, stripPrefix_eq_some.mp stripped, String.toList_append]
  exact marked.trans (List.prefix_append _ _)

theorem decompressPayload_eq (raw : String) : decompressPayload zstd raw = (zstdContent zstd raw).getD raw := by
  unfold decompressPayload zstdContent
  cases base64 : stripPrefix raw zstdBase64Mark with
  | some data => simp [startsWith_zstd base64 (by decide)]
  | none =>
    cases hex : stripPrefix raw zstdHexMark with
    | some data => simp [startsWith_zstd hex (by decide)]
    | none => simp

theorem unsealPayload_eq (raw : String) :
    unsealPayload zstd unsealing raw = (sealContent zstd unsealing raw).getD raw := by
  unfold unsealPayload sealContent
  cases stripPrefix raw sealMark with
  | none => rfl
  | some inner => cases opened : unsealing inner <;> simp [opened, decompressPayload_eq, Except.toOption]

theorem zstdContent_sealMark (inner : String) : zstdContent zstd (sealMark ++ inner) = none := by
  have base64 : startsWith (sealMark ++ inner) zstdBase64Mark = false :=
    startsWith_append_of_ne inner (by decide) (by decide)
  have hex : startsWith (sealMark ++ inner) zstdHexMark = false :=
    startsWith_append_of_ne inner (by decide) (by decide)
  simp [zstdContent, stripPrefix_eq_none base64, stripPrefix_eq_none hex]

theorem sealContent_of_zstdContent {raw text : String} (content : zstdContent zstd raw = some text) :
    sealContent zstd unsealing raw = none := by
  cases stripped : stripPrefix raw sealMark with
  | none => simp [sealContent, stripped]
  | some inner =>
    rw [stripPrefix_eq_some.mp stripped, zstdContent_sealMark] at content
    cases content

theorem sealContent_base64Mark (data : String) : sealContent zstd unsealing (zstdBase64Mark ++ data) = none := by
  have missing : startsWith (zstdBase64Mark ++ data) sealMark = false :=
    startsWith_append_of_ne data (by decide) (by decide)
  simp [sealContent, stripPrefix_eq_none missing]

/-- The payload is long and the encoder accepts it, so that it is stored compressed. -/
def StoredCompressed (payload : String) (frame : List UInt8) : Prop :=
  256 < byteLen payload ∧ zstd.encodeAll (utf8 payload) = some frame

theorem compressPayload_compressed {payload : String} {frame : List UInt8}
    (stored : StoredCompressed zstd payload frame) :
    compressPayload zstd payload = zstdBase64Mark ++ base64Encode (zstdMagic ++ frame) := by
  simp [compressPayload, stored.1, stored.2]

theorem compressPayload_raw {payload : String} (raw : ¬ ∃ frame, StoredCompressed zstd payload frame) :
    compressPayload zstd payload = payload := by
  unfold compressPayload
  split
  · rename_i long
    cases encoded : zstd.encodeAll (utf8 payload) with
    | some frame => exact absurd ⟨frame, long, encoded⟩ raw
    | none => rfl
  · rfl

theorem zstdContent_compressed (lawful : zstd.Lawful) {payload : String} {frame : List UInt8}
    (stored : StoredCompressed zstd payload frame) :
    zstdContent zstd (compressPayload zstd payload) =
      if byteLen payload ≤ maxDecompressed then some payload else none := by
  have nonempty := List.length_pos_iff.mpr (lawful.frame_ne_nil stored.2)
  have framed : 4 < (zstdMagic ++ frame).length ∧ (zstdMagic ++ frame).take 4 = zstdMagic := by
    simp only [zstdMagic, List.length_append, List.length_cons, List.length_nil]
    exact ⟨by omega, rfl⟩
  have body : (zstdMagic ++ frame).drop 4 = frame := rfl
  rw [compressPayload_compressed zstd stored, zstdContent, stripPrefix_append]
  simp only [base64Decode_base64Encode, Option.bind_some, readFrame, if_pos framed, body, cap,
    lawful.read_encodeAll stored.2, Option.bind_eq_bind, List.length_take, length_utf8]
  by_cases small : byteLen payload ≤ maxDecompressed
  · rw [if_neg (by omega), if_pos small, List.take_of_length_le (by rw [length_utf8]; omega), fromUtf8_utf8]
  · rw [if_pos (by omega), if_neg small]

theorem enqueue_ok {sealing : String → Except String String} {db db' : OutboxQueue}
    {id actionType payloadJson : String} {mediaPath : Option String} {nowSecs : Int}
    (accepted : enqueueOutboxItemWithSeal zstd sealing db id actionType payloadJson mediaPath nowSecs = .ok db') :
    ∃ stored, sealing (compressPayload zstd payloadJson) = .ok stored ∧
      db' = db.upsert id ⟨actionType, stored, mediaPath, .pending, 0, 0, nowSecs⟩
        fun _ => ⟨actionType, stored, mediaPath, .pending, 0, 0, nowSecs⟩ := by
  unfold enqueueOutboxItemWithSeal at accepted
  split_ifs at accepted
  cases sealed : sealing (compressPayload zstd payloadJson) with
  | error e => simp [sealed] at accepted
  | ok stored =>
    simp only [sealed, Except.ok.injEq] at accepted
    exact ⟨stored, rfl, accepted.symm⟩

theorem mem_of_sqlLimit {α : Type} {limit : UInt64} {rows : List α} {row : α} (member : row ∈ sqlLimit limit rows) :
    row ∈ rows := by
  unfold sqlLimit at member
  split at member
  · exact member
  · exact List.mem_of_mem_take member

theorem sqlLimit_of_length_le {α : Type} {limit : UInt64} {rows : List α} (fits : rows.length ≤ limit.toNat) :
    sqlLimit limit rows = rows := by
  unfold sqlLimit
  split
  · rfl
  · exact List.take_of_length_le fits

theorem fetch_sound {db : OutboxQueue} {id : String} {row : OutboxRow} (found : db.find? id = some row)
    {nowSecs : Int} {limit : UInt64} {includeMedia : Bool} {item : OutboxItem}
    (fetched : item ∈ fetchPendingOutboxItemsWithUnseal zstd unsealing db nowSecs limit includeMedia)
    (same : item.id = id) : item = readItem zstd unsealing id row := by
  unfold fetchPendingOutboxItemsWithUnseal at fetched
  split at fetched
  · simp at fetched
  · obtain ⟨⟨id', row'⟩, member, rfl⟩ := List.mem_map.mp fetched
    obtain rfl : id' = id := same
    have stored := List.mem_filter.mp (List.mem_mergeSort.mp (mem_of_sqlLimit member))
    rw [Table.find?_eq_some.mpr stored.1, Option.some.injEq] at found
    rw [found]

theorem fetch_complete {db : OutboxQueue} {id : String} {row : OutboxRow} (found : db.find? id = some row)
    (nowSecs : Int) (limit : UInt64) (includeMedia : Bool) (isDue : due nowSecs includeMedia row = true)
    (room : limit.toInt64 < 0 ∨ db.rows.length ≤ limit.toNat) :
    readItem zstd unsealing id row ∈
      fetchPendingOutboxItemsWithUnseal zstd unsealing db nowSecs limit includeMedia := by
  have member : (id, row) ∈ db.rows.filter fun row => due nowSecs includeMedia row.2 :=
    List.mem_filter.mpr ⟨Table.find?_eq_some.mp found, isDue⟩
  have positive : limit ≠ 0 := by
    rintro rfl
    rcases room with negative | empty
    · exact absurd negative (by decide)
    · rw [List.length_eq_zero_iff.mp (Nat.le_zero.mp empty)] at member
      simp at member
  rw [fetchPendingOutboxItemsWithUnseal, if_neg positive]
  refine List.mem_map.mpr ⟨(id, row), ?_, rfl⟩
  rcases room with negative | fits
  · simpa [sqlLimit, negative] using member
  · rw [sqlLimit_of_length_le]
    · simpa using member
    · rw [List.length_mergeSort]
      exact (List.length_filter_le _ _).trans fits

/-- Every fetch gives the item of this id with this payload, and a fetch that admits
its media and has room for the queue does give it. -/
def FetchReturns (db : OutboxQueue) (id payload : String) (mediaPath : Option String) : Prop :=
  ∀ (nowSecs : Int) (limit : UInt64) (includeMedia : Bool),
    (∀ item ∈ fetchPendingOutboxItemsWithUnseal zstd unsealing db nowSecs limit includeMedia,
      item.id = id → item.payloadJson = payload) ∧
    (0 ≤ nowSecs → (includeMedia = true ∨ mediaPath = none) → db.rows.length ≤ limit.toNat →
      ∃ item ∈ fetchPendingOutboxItemsWithUnseal zstd unsealing db nowSecs limit includeMedia, item.id = id)

theorem fetchReturns_iff {db : OutboxQueue} {id actionType stored payload : String} {mediaPath : Option String}
    {nowSecs : Int} (found : db.find? id = some ⟨actionType, stored, mediaPath, .pending, 0, 0, nowSecs⟩) :
    FetchReturns zstd unsealing db id payload mediaPath ↔
      unsealPayload zstd unsealing (decompressPayload zstd stored) = payload := by
  constructor
  · intro returns
    -- as an `i64` this limit is -1
    have fetched := fetch_complete zstd unsealing found 0 0xFFFFFFFFFFFFFFFF true rfl (.inl (by decide))
    exact (returns 0 0xFFFFFFFFFFFFFFFF true).1 _ fetched rfl
  · intro reads now limit includeMedia
    refine ⟨fun item fetched same => ?_, fun current admitted room => ?_⟩
    · rw [fetch_sound zstd unsealing found fetched same]
      exact reads
    · refine ⟨_, fetch_complete zstd unsealing found now limit includeMedia ?_ (.inr room), rfl⟩
      rcases admitted with rfl | rfl <;> simp [due, current]

/-- The caller's closures: sealing keeps the text or wraps it in an envelope that unsealing opens. -/
def SealInverse (sealing : String → Except String String) : Prop :=
  ∀ text stored, sealing text = .ok stored →
    stored = text ∨ ∃ inner, stored = sealMark ++ inner ∧ unsealing inner = .ok text

/-- The payloads that survive their own stored form. A payload stored compressed fits the
limit of the reader (or is its own compressed form); one stored as it is does not carry
another text in a compressed form; and where the caller does not seal, the payload does
not carry another text in an envelope. -/
structure ReadsBack (sealing : String → Except String String) (payload : String) : Prop where
  fits : ∀ frame, StoredCompressed zstd payload frame →
    byteLen payload ≤ maxDecompressed ∨ compressPayload zstd payload = payload
  bare : (¬ ∃ frame, StoredCompressed zstd payload frame) → ∀ text, zstdContent zstd payload = some text →
    text = payload ∨
      (sealing (compressPayload zstd payload) = .ok (compressPayload zstd payload) ∧
        sealContent zstd unsealing text = some payload)
  unsealed : sealing (compressPayload zstd payload) = .ok (compressPayload zstd payload) →
    ∀ text, sealContent zstd unsealing payload = some text → text = payload

theorem getD_eq_iff {α : Type} {content : Option α} {value : α} :
    content.getD value = value ↔ ∀ text, content = some text → text = value := by
  cases content <;> simp

theorem read_envelope {inner text : String} (opened : unsealing inner = .ok text) :
    unsealPayload zstd unsealing (decompressPayload zstd (sealMark ++ inner)) = decompressPayload zstd text := by
  rw [decompressPayload_eq, zstdContent_sealMark, Option.getD_none, unsealPayload, stripPrefix_append]
  simp only [opened]

theorem decompress_compressed (lawful : zstd.Lawful) {payload : String} {frame : List UInt8}
    (stored : StoredCompressed zstd payload frame) :
    decompressPayload zstd (compressPayload zstd payload) =
      if byteLen payload ≤ maxDecompressed then payload else compressPayload zstd payload := by
  rw [decompressPayload_eq, zstdContent_compressed zstd lawful stored]
  split <;> rfl

theorem readsBack_of_envelope (lawful : zstd.Lawful) {sealing : String → Except String String} {payload : String}
    (wrapped : sealing (compressPayload zstd payload) ≠ .ok (compressPayload zstd payload)) :
    decompressPayload zstd (compressPayload zstd payload) = payload ↔
      ReadsBack zstd unsealing sealing payload := by
  by_cases compressed : ∃ frame, StoredCompressed zstd payload frame
  · obtain ⟨frame, stored⟩ := compressed
    rw [decompress_compressed zstd lawful stored, ite_eq_left_iff]
    constructor
    · intro reads
      exact ⟨fun _ _ => or_iff_not_imp_left.mpr reads, fun bare => absurd ⟨frame, stored⟩ bare,
        fun plain => absurd plain wrapped⟩
    · intro back
      exact or_iff_not_imp_left.mp (back.fits frame stored)
  · rw [compressPayload_raw zstd compressed, decompressPayload_eq, getD_eq_iff]
    constructor
    · intro reads
      exact ⟨fun frame stored => absurd ⟨frame, stored⟩ compressed, fun _ text content => .inl (reads text content),
        fun plain => absurd plain wrapped⟩
    · intro back text content
      rcases back.bare compressed text content with same | ⟨plain, -⟩
      · exact same
      · exact absurd plain wrapped

theorem readsBack_of_plain (lawful : zstd.Lawful) {sealing : String → Except String String} {payload : String}
    (plain : sealing (compressPayload zstd payload) = .ok (compressPayload zstd payload)) :
    unsealPayload zstd unsealing (decompressPayload zstd (compressPayload zstd payload)) = payload ↔
      ReadsBack zstd unsealing sealing payload := by
  by_cases compressed : ∃ frame, StoredCompressed zstd payload frame
  · obtain ⟨frame, stored⟩ := compressed
    rw [decompress_compressed zstd lawful stored]
    by_cases small : byteLen payload ≤ maxDecompressed
    · rw [if_pos small, unsealPayload_eq, getD_eq_iff]
      exact ⟨fun unsealed => ⟨fun _ _ => .inl small, fun bare => absurd ⟨frame, stored⟩ bare, fun _ => unsealed⟩,
        fun back => back.unsealed plain⟩
    · -- a compressed form is never taken for an envelope
      have form := compressPayload_compressed zstd stored
      rw [if_neg small, unsealPayload_eq, form, sealContent_base64Mark, Option.getD_none, ← form]
      constructor
      · intro same
        refine ⟨fun _ _ => .inr same, fun bare => absurd ⟨frame, stored⟩ bare, fun _ text opened => ?_⟩
        rw [← same, form, sealContent_base64Mark] at opened
        cases opened
      · intro back
        exact (back.fits frame stored).resolve_left small
  · rw [compressPayload_raw zstd compressed, decompressPayload_eq, unsealPayload_eq]
    cases content : zstdContent zstd payload with
    | none =>
      rw [Option.getD_none, getD_eq_iff]
      exact ⟨fun unsealed => ⟨fun frame stored => absurd ⟨frame, stored⟩ compressed,
        fun _ text found => by simp [content] at found, fun _ => unsealed⟩, fun back => back.unsealed plain⟩
    | some text =>
      have noEnvelope := sealContent_of_zstdContent zstd unsealing content
      rw [Option.getD_some]
      constructor
      · intro reads
        refine ⟨fun frame stored => absurd ⟨frame, stored⟩ compressed, fun _ other found => ?_,
          fun _ other opened => by simp [noEnvelope] at opened⟩
        rw [content, Option.some.injEq] at found
        subst found
        cases opened : sealContent zstd unsealing text with
        | none =>
          rw [opened, Option.getD_none] at reads
          exact .inl reads
        | some inner =>
          rw [opened, Option.getD_some] at reads
          exact .inr ⟨plain, by rw [reads]⟩
      · intro back
        rcases back.bare compressed text content with rfl | ⟨-, opened⟩
        · rw [noEnvelope, Option.getD_none]
        · rw [opened, Option.getD_some]

/-- An accepted payload is fetched back byte for byte exactly when it survives its stored form. -/
theorem fetch_returns_payload_iff (lawful : zstd.Lawful) {sealing : String → Except String String}
    (inverse : SealInverse unsealing sealing) {db db' : OutboxQueue} {id actionType payload : String}
    {mediaPath : Option String} {nowSecs : Int}
    (accepted : enqueueOutboxItemWithSeal zstd sealing db id actionType payload mediaPath nowSecs = .ok db') :
    FetchReturns zstd unsealing db' id payload mediaPath ↔ ReadsBack zstd unsealing sealing payload := by
  obtain ⟨stored, sealed, rfl⟩ := enqueue_ok zstd accepted
  rw [fetchReturns_iff zstd unsealing (Table.find?_upsert_replace _ _ _)]
  by_cases plain : stored = compressPayload zstd payload
  · subst plain
    exact readsBack_of_plain zstd unsealing lawful sealed
  · obtain ⟨inner, rfl, opened⟩ := (inverse _ _ sealed).resolve_left plain
    rw [read_envelope zstd unsealing opened]
    exact readsBack_of_envelope zstd unsealing lawful (by simpa [sealed] using plain)

section Quoted

/-- The JSON string of `n` letters. -/
def quoted (n : Nat) : String := String.ofList ('"' :: (List.replicate n 'a' ++ ['"']))

theorem byteLen_quoted (n : Nat) : byteLen (quoted n) = n + 2 := by
  have letters : (String.ofList (List.replicate n 'a')).utf8ByteSize = n := by
    induction n with
    | zero => rfl
    | succ n ih =>
      rw [List.replicate_succ, String.ofList_cons, String.utf8ByteSize_append, ih]
      exact Nat.add_comm 1 n
  have split : quoted n = "\"" ++ String.ofList (List.replicate n 'a') ++ "\"" := by
    rw [← String.toList_inj]
    simp [quoted]
  rw [split, byteLen, String.utf8ByteSize_append, String.utf8ByteSize_append, letters]
  exact (by omega : 1 + n + 1 = n + 2)

theorem sealContent_quoted (n : Nat) : sealContent zstd unsealing (quoted n) = none := by
  have unmarked : startsWith (quoted n) sealMark = false := by
    rw [startsWith, quoted, String.toList_ofList]
    rfl
  simp [sealContent, stripPrefix_eq_none unmarked]

theorem base64Mark_ne_quoted (data : String) (n : Nat) : zstdBase64Mark ++ data ≠ quoted n := by
  intro same
  have firstChar := congrArg (fun text => text.toList.head?) same
  simp [quoted, zstdBase64Mark] at firstChar

theorem enqueue_quoted {n : Nat} (small : n + 2 ≤ 16 * 1024 * 1024) :
    ∃ db', enqueueOutboxItem zstd Table.empty "o1" "post" (quoted n) none 100 = .ok db' := by
  have length := byteLen_quoted n
  rw [enqueueOutboxItem, enqueueOutboxItemWithSeal, if_neg (by decide), if_neg (by decide), if_neg (by omega),
    if_neg (by simp)]
  exact ⟨_, rfl⟩

/-- Level 3 `zstd` on the one text `payload`, whose compressed stream is `frame`. -/
def zstdOn (payload : String) (frame : List UInt8) : Zstd where
  encodeAll bytes := if bytes = utf8 payload then some frame else none
  read bytes limit := if bytes = frame then some ((utf8 payload).take limit) else none

theorem zstdOn_lawful (payload : String) {frame : List UInt8} (nonempty : frame ≠ []) :
    (zstdOn payload frame).Lawful where
  read_encodeAll := by
    intro bytes frame' encoded limit
    simp only [zstdOn, Option.ite_none_right_eq_some, Option.some.injEq] at encoded ⊢
    obtain ⟨rfl, rfl⟩ := encoded
    exact ⟨rfl, rfl⟩
  frame_ne_nil := by
    intro bytes frame' encoded
    simp only [zstdOn, Option.ite_none_right_eq_some, Option.some.injEq] at encoded
    exact encoded.2 ▸ nonempty

theorem storedCompressed_zstdOn {payload : String} (frame : List UInt8) (long : 256 < byteLen payload) :
    StoredCompressed (zstdOn payload frame) payload frame :=
  ⟨long, by simp [zstdOn]⟩

/-- The stream of `quoted (2 ^ 20)`. -/
def longFrame : List UInt8 :=
  [0x28, 0xb5, 0x2f, 0xfd, 0x00, 0x58, 0x54, 0x00, 0x00, 0x10, 0x22, 0x61, 0x01, 0x00, 0xfb, 0xff, 0x39,
   0xc0, 0x02, 0x02, 0x00, 0x10, 0x61, 0x02, 0x00, 0x10, 0x61, 0x02, 0x00, 0x10, 0x61, 0x02, 0x00, 0x10,
   0x61, 0x02, 0x00, 0x10, 0x61, 0x02, 0x00, 0x10, 0x61, 0x02, 0x00, 0x10, 0x61, 0x11, 0x00, 0x00, 0x61,
   0x22]

/-- The stream of `quoted 300`. -/
def shortFrame : List UInt8 :=
  [0x28, 0xb5, 0x2f, 0xfd, 0x00, 0x58, 0x55, 0x00, 0x00, 0x18, 0x22, 0x61, 0x22, 0x01, 0x00, 0x28, 0x2a,
   0xc0, 0x02]

/-- A JSON string of a mebibyte and two quotes comes back as its own compressed form. -/
theorem fetch_returns_encoded_text :
    ∃ db', enqueueOutboxItem (zstdOn (quoted (2 ^ 20)) longFrame) Table.empty "o1" "post" (quoted (2 ^ 20)) none 100 =
        .ok db' ∧
      ¬ FetchReturns (zstdOn (quoted (2 ^ 20)) longFrame) .ok db' "o1" (quoted (2 ^ 20)) none := by
  have long : byteLen (quoted (2 ^ 20)) = 1048578 := byteLen_quoted _
  have stored : StoredCompressed (zstdOn (quoted (2 ^ 20)) longFrame) (quoted (2 ^ 20)) longFrame :=
    storedCompressed_zstdOn _ (by omega)
  obtain ⟨db', accepted⟩ := enqueue_quoted (zstdOn (quoted (2 ^ 20)) longFrame) (n := 2 ^ 20) (by decide)
  refine ⟨db', accepted, fun returns => ?_⟩
  obtain ⟨_, sealed, rfl⟩ := enqueue_ok _ accepted
  have reads := (fetchReturns_iff _ _ (Table.find?_upsert_replace _ _ _)).mp returns
  have form := compressPayload_compressed _ stored
  rw [← Except.ok.inj sealed, decompress_compressed _ (zstdOn_lawful _ (by decide)) stored, long,
    if_neg (by decide), unsealPayload_eq, form, sealContent_base64Mark, Option.getD_none] at reads
  exact base64Mark_ne_quoted _ _ reads

theorem fetch_returns_short_text :
    ∃ db', enqueueOutboxItem (zstdOn (quoted 300) shortFrame) Table.empty "o1" "post" (quoted 300) none 100 =
        .ok db' ∧
      FetchReturns (zstdOn (quoted 300) shortFrame) .ok db' "o1" (quoted 300) none := by
  have long : byteLen (quoted 300) = 302 := byteLen_quoted _
  have stored : StoredCompressed (zstdOn (quoted 300) shortFrame) (quoted 300) shortFrame :=
    storedCompressed_zstdOn _ (by omega)
  obtain ⟨db', accepted⟩ := enqueue_quoted (zstdOn (quoted 300) shortFrame) (n := 300) (by decide)
  refine ⟨db', accepted, (fetch_returns_payload_iff _ _ (zstdOn_lawful _ (by decide)) ?_ accepted).mpr ?_⟩
  · intro text stored same
    exact .inl (Except.ok.inj same).symm
  · refine ⟨fun _ _ => .inl (by rw [long]; decide), fun bare => absurd ⟨_, stored⟩ bare, fun _ text opened => ?_⟩
    simp [sealContent_quoted] at opened

end Quoted

end Soshal.Sync
