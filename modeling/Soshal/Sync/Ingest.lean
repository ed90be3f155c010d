import Soshal.Nostr.Event
import Soshal.Db.Store

/-! Verified-event ingest: how one event, and a batch of events, changes the store.

The functions that ingest only passes text through (JSON of tags, bech32, URL and
invoice checks, hashtag extraction) are fields of `Env`. They are arbitrary: what is
proved about ingest does not depend on what they answer.
-/

set_option autoImplicit false

namespace Soshal.Sync

open Nostr Library Library.Text Db

structure Env where
  prims : Primitives
  myPubkey : String
  /-- `npub` of a public key in hexadecimal. -/
  toBech32 : String → String
  /-- The string fields of a metadata object, when the content is JSON. -/
  parseMetadata : String → Option (String → Option String)
  isValidMediaUrl : String → Bool
  isValidEventRelayUrl : String → Bool
  tagsToJson : List (List String) → String
  tagsFromJson : String → Option (List (List String))
  textToJson : String → String
  listingCategory : String → Option String
  parseMsatsFromBolt11 : String → Option Nat
  bolt11ChecksumValid : String → Bool
  bolt11DescriptionHash : String → Option Bytes
  extractHashtags : String → List String
  sanitizeNotifContent : String → Nat → String

/-- Tags as JSON, with nothing recognised as metadata, URL or invoice. -/
def Env.plain (prims : Primitives) (myPubkey : String) : Env where
  prims
  myPubkey
  toBech32 _ := ""
  parseMetadata _ := none
  isValidMediaUrl _ := false
  isValidEventRelayUrl _ := false
  tagsToJson tags := "[" ++ ",".intercalate (tags.map JsonStrings.toJson) ++ "]"
  tagsFromJson _ := none
  textToJson text := String.ofList (JsonStrings.quote text)
  listingCategory _ := none
  parseMsatsFromBolt11 _ := none
  bolt11ChecksumValid _ := false
  bolt11DescriptionHash _ := none
  extractHashtags _ := []
  sanitizeNotifContent text _ := text

/-- An event as it is handed to ingest: with the clock at that moment, and whether the update
channel has room for a direct message. -/
structure Delivery where
  event : Event
  now : Nat
  hasRoom : Bool

inductive Kind where
  | metadata
  | textNote
  | contactList
  | encryptedDirectMessage
  | eventDeletion
  | repost
  | reaction
  | zapRequest
  | zapReceipt
  | relayList
  | bookmarks
  | other
  deriving DecidableEq

def kindOf (e : Event) : Kind :=
  match e.kind.toNat with
  | 0 => .metadata
  | 1 => .textNote
  | 3 => .contactList
  | 4 => .encryptedDirectMessage
  | 5 => .eventDeletion
  | 6 => .repost
  | 7 => .reaction
  | 9734 => .zapRequest
  | 9735 => .zapReceipt
  | 10002 => .relayList
  | 10003 => .bookmarks
  | _ => .other

def postKindAllowlist : List Nat :=
  [1, 6, 7, 1059, 30080, 30081, 30078, 30082, 30085, 30311, 30402, 30403, 31020, 31923, 31924, 38383, 39003, 9734]

def maxTags : Nat := 2000

def maxCachedContent : Nat := 64 * 1024

def tsGraceSecs : Nat := 300

variable (env : Env) (db : Db) (d : Delivery)

def idHex (e : Event) : String := hexEncode e.id.toList

def pubkeyHex (e : Event) : String := hexEncode e.pubkey.toList

def sanitizeTs (now : Nat) (secs : UInt64) : Int := Int.ofNat (min secs.toNat (now + tsGraceSecs))

def Delivery.stamp (d : Delivery) : Int := sanitizeTs d.now d.event.createdAt

def tagContents (name : String) (e : Event) : List String :=
  (e.tags.filter fun tag => tag.head? = some name).filterMap fun tag => tag[1]?

def eTags (e : Event) : List String := tagContents "e" e

def pTags (e : Event) : List String := tagContents "p" e

def rTags (e : Event) : List String := tagContents "r" e

/-- The first `e` tag, with its content if it has one. -/
def firstETag (e : Event) : Option String :=
  (e.tags.find? fun tag => tag.head? = some "e").bind fun tag => tag[1]?

def hasPTag (e : Event) (pubkey : String) : Bool :=
  pubkey ≠ "" && (pTags e).any fun content => eqIgnoreAsciiCase content pubkey

def authoredByMe (e : Event) : Bool := eqIgnoreAsciiCase (pubkeyHex e) env.myPubkey

/-- A stored list of keys: a JSON array, or the legacy form separated by commas. -/
def splitPubkeyList (s : String) : List String :=
  let trimmed := trim s
  let separated := ((splitOn trimmed ',').map trim).filter fun p => p ≠ ""
  if trimmed = "" ∨ trimmed = "[]" then []
  else if startsWith trimmed "[" then (JsonStrings.fromJson trimmed).getD separated
  else separated

structure TagScan where
  markedRoot : Option String := none
  markedReply : Option String := none
  firstE : Option String := none
  lastE : Option String := none
  ps : List String := []
  ts : List String := []
  freenetKey : Option String := none

def TagScan.add (scan : TagScan) (tag : List String) : TagScan :=
  match tag with
  | "e" :: c :: rest =>
    -- The marker stands behind the relay; only tags without one are read by position.
    let marker := rest[1]?
    if marker = some "root" then { scan with markedRoot := some c }
    else if marker = some "reply" then { scan with markedReply := some c }
    else if marker ≠ some "mention" then { scan with firstE := scan.firstE.or (some c), lastE := some c }
    else scan
  | "p" :: c :: _ => { scan with ps := scan.ps ++ [c] }
  | "t" :: c :: _ => { scan with ts := scan.ts ++ [c] }
  | "freenet" :: rest => if scan.freenetKey = none then { scan with freenetKey := rest.head? } else scan
  | _ => scan

def postRow (d : Delivery) : Option PostRow :=
  let e := d.event
  if maxCachedContent < byteLen e.content then none
  else
    let tags := e.tags.take maxTags
    let scan : TagScan := tags.foldl TagScan.add {}
    let threaded := kindOf e = .textNote ∨ kindOf e = .zapRequest
    some {
      id := idHex e
      pubkey := pubkeyHex e
      content := e.content
      kind := e.kind.toNat
      createdAt := d.stamp
      tagsJson := env.tagsToJson tags
      sig := some (hexEncode e.sig.toList)
      replyTo := if threaded then (scan.markedReply.or scan.lastE).or scan.markedRoot else none
      rootId := if threaded then scan.markedRoot.or scan.firstE else none
      mentionedPubkeys := ",".intercalate scan.ps
      mentionedHashtags := ",".intercalate scan.ts
      subject := none
      syncStatus := "synced"
      isDeleted := false
      scheduledAt := none
      freenetKey := scan.freenetKey
      isFreenetNative := scan.freenetKey.isSome
      rsvpEventId := if e.kind.toNat = 31924 then scan.firstE else none }

/-- The profile that a metadata event carries, as a row without contacts. -/
def userRow (d : Delivery) : Option UserRow :=
  (env.parseMetadata d.event.content).map fun field => {
    npub := env.toBech32 (pubkeyHex d.event)
    name := field "name"
    displayName := field "display_name"
    about := field "about"
    picture := (field "picture").filter env.isValidMediaUrl
    banner := (field "banner").filter env.isValidMediaUrl
    nip05 := field "nip05"
    lud16 := field "lud16"
    createdAt := d.stamp
    updatedAt := d.stamp
    metadataJson := some d.event.content
    contactPubkeys := ""
    relayList := ""
    followerCount := 0 }

/-- The row that a contact list starts from when its author has none. -/
def contactListRow (d : Delivery) : UserRow :=
  { UserRow.defaults with
    npub := env.toBech32 (pubkeyHex d.event)
    createdAt := d.stamp
    updatedAt := d.stamp
    contactPubkeys := ""
    relayList := "" }

/-- The row that an author without one gets from any other event. -/
def authorRow (d : Delivery) : UserRow :=
  { UserRow.defaults with createdAt := d.stamp, updatedAt := d.stamp, contactPubkeys := "" }

def ensureAuthorUser : Db :=
  { db with users := db.users.insertIgnore (pubkeyHex d.event) (authorRow d) }

def notifId (type : NotifType) (eventId fromPubkey : String) : String :=
  type.text ++ ":" ++ normKey eventId ++ ":" ++ normKey fromPubkey

/-- The text of a notification that quotes `content`, with its wording for an empty one. -/
def quotedContent (plain content : String) : String :=
  if trim content = "" then plain
  else
    let safe := env.sanitizeNotifContent (trim content) 140
    if safe = "" then plain else safe

def formatNotificationContent (type : NotifType) (content : String) : String :=
  match type with
  | .reaction =>
    let plain := "Liked your post"
    if trim content = "+" then plain
    else
      let safe := quotedContent env plain content
      if safe = "+" then plain else safe
  | .zap => quotedContent env "Sent you a zap" content
  | .reply => quotedContent env "Replied to your post" content
  | .follow => "Started following you"
  | .repost => "Reposted your post"
  | .mention => "Mentioned you in a post"
  | .friendRequest => "Sent you a friend request"

def notifyMe (type : NotifType) (eventId content : String) : Db :=
  if authoredByMe env d.event then db
  else db.upsertNotification {
    id := notifId type eventId (pubkeyHex d.event)
    pubkey := env.myPubkey
    type
    eventId := some eventId
    fromPubkey := some (pubkeyHex d.event)
    content := some (formatNotificationContent env type content)
    createdAt := d.stamp
    isRead := false }

/-- Whether the post under this id is a visible post of the local user. -/
def targetsMe (db : Db) (eventId : String) : Bool :=
  (db.postAuthorId eventId).any fun author => eqIgnoreAsciiCase author env.myPubkey

def isFriendRequest (e : Event) : Bool :=
  (tagContents "t" e).any fun content => eqIgnoreAsciiCase content "friend-request"

def replyTarget (row : PostRow) : Option String := row.replyTo.or row.rootId

def maybeNotifyTextNote (row : PostRow) : Db :=
  -- At most one notification: the first of the three that applies.
  if authoredByMe env d.event then db
  else if isFriendRequest d.event && hasPTag d.event env.myPubkey then
    notifyMe env db d .friendRequest row.id row.content
  else if (replyTarget row).any (targetsMe env db) then
    notifyMe env db d .reply ((replyTarget row).getD row.id) row.content
  else if hasPTag d.event env.myPubkey then
    notifyMe env db d .mention ((firstETag d.event).getD (idHex d.event)) row.content
  else db

def handleMetadata : Db :=
  match userRow env d with
  | none => db
  | some row =>
    match db.getByPubkey (pubkeyHex d.event) with
    | none => db.upsertUser (pubkeyHex d.event) row
    | some stored =>
      -- The stored stamp is of whatever opened the row, not only of an earlier profile.
      if stored.updatedAt < row.updatedAt then
        db.upsertUser (pubkeyHex d.event)
          { row with contactPubkeys := stored.contactPubkeys, relayList := stored.relayList }
      else db

/-- The follower-count changes of replacing the list `before` of `pubkey` by `after`.
`before` stands for a hash set of the source, so it counts once for each of its entries. -/
def followerDeltas (pubkey : String) (before after : List String) : List (String × Int) :=
  (after.filter fun added => added ≠ pubkey ∧ added ∉ before).map (·, 1) ++
    (before.dedup.filter fun removed => removed ∉ after ∧ removed ≠ pubkey).map (·, -1)

def handleContactList : Db :=
  let pubkey := pubkeyHex d.event
  let existing := db.getByPubkey pubkey
  let storedList := (existing.map UserRow.contactPubkeys).getD ""
  -- Two lists are not compared by their stamps: the one that arrives last is stored.
  let row := { existing.getD (contactListRow env d) with
    contactPubkeys := JsonStrings.toJson (pTags d.event), relayList := JsonStrings.toJson (rTags d.event) }
  let db := db.upsertUser pubkey row
  let before := splitPubkeyList storedList
  let db := db.bumpFollowerCounts (followerDeltas pubkey before (splitPubkeyList row.contactPubkeys))
  if !authoredByMe env d.event && hasPTag d.event env.myPubkey &&
      !before.any (fun p => eqIgnoreAsciiCase p env.myPubkey) then
    notifyMe env db d .follow (idHex d.event) ""
  else db

/-- Store a post under its author; over the size caps the statement fails after the author's row. -/
def storePost (row : PostRow) : Except DbError Db :=
  (ensureAuthorUser db d).upsertPost env.listingCategory row

/-- What a receipt must carry before any request is looked up. -/
structure ZapClaim where
  amountMsats : Nat
  descHash : Bytes
  note : String

def bolt11FromEvent (e : Event) : Option String :=
  ((e.tags.find? fun tag => tag.head? = some "bolt11").bind fun tag => (tag[1]?).filter (· ≠ "")).or
    (if startsWith (trim e.content) "lnbc" || startsWith (trim e.content) "LNBC" then some (trim e.content) else none)

def zapClaim (e : Event) : Option ZapClaim := do
  -- What can be refused without a query is refused first.
  guard (hasPTag e env.myPubkey)
  let bolt11 ← bolt11FromEvent e
  let amountMsats ← env.parseMsatsFromBolt11 bolt11
  guard (amountMsats ≠ 0)
  guard (env.bolt11ChecksumValid bolt11)
  let descHash ← env.bolt11DescriptionHash bolt11
  let note ← firstETag e
  return { amountMsats, descHash, note }

def zapRequestCanonicalJson (req : PostRow) : String :=
  let rawTags := trim req.tagsJson
  let tags := if rawTags = "" || !startsWith rawTags "[" then "[]" else rawTags
  "\x7b\"id\":" ++ env.textToJson req.id ++ ",\"pubkey\":" ++ env.textToJson req.pubkey ++
    ",\"created_at\":" ++ toString req.createdAt ++ ",\"kind\":" ++ toString req.kind ++ ",\"tags\":" ++ tags ++
    ",\"content\":" ++ env.textToJson req.content ++ ",\"sig\":" ++ env.textToJson (req.sig.getD "") ++ "\x7d"

def zapRequestDigest (req : PostRow) : Bytes :=
  (env.prims.sha256 (utf8 (zapRequestCanonicalJson env req))).toList

/-- `str::parse::<u64>`. -/
def parseU64 (s : String) : Option Nat :=
  let digits := (stripPrefix s "+").getD s
  if digits ≠ "" ∧ digits.toList.all Char.isDigit then
    (digits.toList.foldl (fun n c => n * 10 + (c.toNat - 48)) 0 : Nat) |> fun n => if n < 2 ^ 64 then some n else none
  else none

def bindsClaim (claim : ZapClaim) (req : PostRow) : Bool :=
  zapRequestDigest env req == claim.descHash &&
    let tags := (env.tagsFromJson req.tagsJson).getD []
    (tags.any fun tag => tag.head? = some "p" && (tag[1]?).any fun v => eqIgnoreAsciiCase v env.myPubkey) &&
      tags.any fun tag => tag.head? = some "amount" && ((tag[1]?).bind parseU64) = some claim.amountMsats

def zapRow (d : Delivery) (claim : ZapClaim) : ZapRow where
  id := idHex d.event
  pubkey := pubkeyHex d.event
  recipientPubkey := env.myPubkey
  eventId := some claim.note
  amount := Int.ofNat (min ((claim.amountMsats + 999) / 1000) (2 ^ 63 - 1))
  amountMsat := Int.ofNat (min claim.amountMsats (2 ^ 63 - 1))
  content := some d.event.content
  createdAt := d.stamp
  zapType := "public"

def handleZapReceipt : Db :=
  match zapClaim env d.event with
  | none => db
  | some claim =>
    if (db.getZapRequestsForNote claim.note).any (bindsClaim env claim) then
      notifyMe env (db.upsertZap (zapRow env d claim)) d .zap claim.note ""
    else db

def relayRow (e : Event) (tag : List String) : Option RelayRow :=
  match tag with
  | "r" :: url :: rest =>
    if env.isValidEventRelayUrl url then
      some {
        url
        pubkey := some (pubkeyHex e)
        name := none
        -- Without a marker the relay is used both ways.
        readEnabled := rest.head? ≠ some "write"
        writeEnabled := rest.head? ≠ some "read"
        priority := 0
        lastConnectedAt := none }
    else none
  | _ => none

def handleRelayList : Db :=
  (d.event.tags.filterMap (relayRow env d.event)).foldl Db.upsertRelay db

def bookmarkRows (d : Delivery) : List BookmarkRow :=
  (eTags d.event).zipIdx.map fun (eventId, index) => {
    id := if index = 0 then idHex d.event else idHex d.event ++ ":" ++ eventId
    pubkey := pubkeyHex d.event
    eventId
    createdAt := d.stamp }

def handleBookmarks : Db :=
  if eTags d.event = [] then db
  else ((ensureAuthorUser db d).upsertBookmarks (bookmarkRows d)).deleteForDeletedTargets (pubkeyHex d.event)

def handleReaction : Db :=
  match firstETag d.event with
  | none => db
  | some target =>
    let db := (ensureAuthorUser db d).upsertReaction {
      id := idHex d.event
      pubkey := pubkeyHex d.event
      eventId := target
      kind := 7
      content := some d.event.content
      createdAt := d.stamp }
    if targetsMe env db target then notifyMe env db d .reaction target d.event.content else db

def handleRepost : Db :=
  match firstETag d.event with
  | none => db
  | some target =>
    let db := (ensureAuthorUser db d).upsertRepost
      { id := idHex d.event, pubkey := pubkeyHex d.event, eventId := target, createdAt := d.stamp }
    if targetsMe env db target then notifyMe env db d .repost target "" else db

def firstSpellings (seen : List String) : List String → List String
  | [] => []
  | tag :: rest =>
    if toAsciiLowercase tag ∈ seen then firstSpellings seen rest
    else tag :: firstSpellings (toAsciiLowercase tag :: seen) rest

def hashtagRows (d : Delivery) : List HashtagRow :=
  ((firstSpellings [] (env.extractHashtags d.event.content)).take maxTags).map fun tag =>
    { tag, pubkey := pubkeyHex d.event, lastUsedAt := d.stamp, count := 1 }

def handleDeletion : Db :=
  (eTags d.event).foldl (fun db id => db.markDeleted id (pubkeyHex d.event)) db

/-- The result of a transaction body and the store as it leaves it. -/
structure Outcome where
  result : Except DbError Unit
  db : Db

def Outcome.ok (db : Db) : Outcome := ⟨.ok (), db⟩

/-- A failed store leaves the author's row behind, inside the transaction. -/
def storePostOutcome (row : PostRow) (next : Db → Db) : Outcome :=
  match storePost env db d row with
  | .ok stored => .ok (next stored)
  | .error e => ⟨.error e, ensureAuthorUser db d⟩

def handlePost (next : Db → PostRow → Db) : Outcome :=
  match postRow env d with
  | none => .ok db
  | some row => storePostOutcome env db d row (next · row)

def handleImpl (alreadyVerified : Bool) : Outcome :=
  if !alreadyVerified && !d.event.verify env.prims then ⟨.error (.migration "event verification failed"), db⟩
  else match kindOf d.event with
    -- The event counts as handled only once the update channel has taken it.
    | .encryptedDirectMessage =>
      if (hasPTag d.event env.myPubkey || authoredByMe env d.event) && !d.hasRoom then
        ⟨.error (.migration "DM notification channel full; not advancing watermark"), db⟩
      else .ok db
    | .metadata => .ok (handleMetadata env db d)
    | .contactList => .ok (handleContactList env db d)
    | .zapRequest => handlePost env db d fun db _ => db
    | .zapReceipt => .ok (handleZapReceipt env db d)
    | .relayList => .ok (handleRelayList env db d)
    | .bookmarks => .ok (handleBookmarks db d)
    | .reaction => .ok (handleReaction env db d)
    | .repost => .ok (handleRepost env db d)
    | .textNote => handlePost env db d fun db row =>
      maybeNotifyTextNote env (db.upsertHashtags (hashtagRows env d)) d row
    | .eventDeletion => .ok (handleDeletion db d)
    | .other =>
      if d.event.kind.toNat ∈ postKindAllowlist then handlePost env db d fun db _ => db else .ok db

def Outcome.commit (before : Db) (outcome : Outcome) : Outcome :=
  match outcome.result with
  | .ok _ => outcome
  | .error _ => { outcome with db := before }

def handle : Outcome := (handleImpl env db d false).commit db

/-- One event after the other, through the single-event path. -/
def ingestAll (db : Db) (run : List Delivery) : Db := run.foldl (fun db d => (handle env db d).db) db

structure BatchState where
  db : Db
  rows : List PostRow := []
  okPos : List Nat := []
  notifyQueue : List (Delivery × PostRow) := []
  seenAuthors : List String := []

/-- The kinds that a batch hands to `handle_impl` at once; the rest is deferred. -/
def isDirect (e : Event) : Bool :=
  match kindOf e with
  | .encryptedDirectMessage | .metadata | .contactList | .zapReceipt | .relayList | .bookmarks | .reaction | .repost
  | .eventDeletion => true
  | .textNote | .zapRequest | .other => false

def batchStep (state : BatchState) (pos : Nat) (d : Delivery) : BatchState :=
  if !d.event.verify env.prims then state
  else if isDirect d.event then
    let outcome := handleImpl env state.db d true
    -- One transaction for the batch: what a failed body wrote before it failed stays.
    match outcome.result with
    | .ok _ => { state with db := outcome.db, okPos := state.okPos ++ [pos] }
    | .error _ => { state with db := outcome.db }
  else if d.event.kind.toNat ∈ postKindAllowlist then
    match postRow env d with
    | none => state
    | some row =>
      let db := if pubkeyHex d.event ∈ state.seenAuthors then state.db else ensureAuthorUser state.db d
      -- The row itself waits for the end of the batch; hashtags and the author's row do not.
      let noted := kindOf d.event = .textNote
      { db := if noted then db.upsertHashtags (hashtagRows env d) else db
        rows := state.rows ++ [row]
        okPos := state.okPos ++ [pos]
        notifyQueue := if noted then state.notifyQueue ++ [(d, row)] else state.notifyQueue
        seenAuthors := pubkeyHex d.event :: state.seenAuthors }
  else state

def batchLoop (db : Db) (events : List Delivery) : BatchState :=
  events.zipIdx.foldl (fun state (d, pos) => batchStep env state pos d) { db }

/-- The deferred rows and the text-note notifications, after the loop. -/
def batchFinish (state : BatchState) : Db :=
  state.notifyQueue.foldl (fun db (d, row) => maybeNotifyTextNote env db d row)
    (state.db.upsertPosts env.listingCategory state.rows)

/-- `handle_batch`: the positions whose writes succeeded, and the committed store. -/
def handleBatch (db : Db) (events : List Delivery) : List Nat × Db :=
  let state := batchLoop env db events
  (state.okPos, batchFinish env state)

end Soshal.Sync
