import Soshal.Library.Table
import Soshal.Library.JsonStrings
import Mathlib.Data.List.Sort

/-! The tables that ingest writes and the statements of their repositories.

Every statement is a function on the whole store. Keys are stored in the spelling
of `normKey`. A statement that runs inside a transaction never fails here: the
storage engine is taken to accept what the statement says.
-/

set_option autoImplicit false

namespace Soshal.Db

open Library Library.Text

/-- The columns of `users` next to the primary key `pubkey`. -/
structure UserRow where
  npub : String
  name : Option String
  displayName : Option String
  about : Option String
  picture : Option String
  banner : Option String
  nip05 : Option String
  lud16 : Option String
  createdAt : Int
  updatedAt : Int
  metadataJson : Option String
  contactPubkeys : String
  relayList : String
  followerCount : Int
  deriving DecidableEq

/-- The row of `INSERT OR IGNORE INTO users (pubkey, npub) VALUES (?1, '')`. -/
def UserRow.defaults : UserRow where
  npub := ""
  name := none
  displayName := none
  about := none
  picture := none
  banner := none
  nip05 := none
  lud16 := none
  createdAt := 0
  updatedAt := 0
  metadataJson := none
  contactPubkeys := "[]"
  relayList := "[]"
  followerCount := 0

structure PostRow where
  id : String
  pubkey : String
  content : String
  kind : Int
  createdAt : Int
  tagsJson : String
  sig : Option String
  replyTo : Option String
  rootId : Option String
  mentionedPubkeys : String
  mentionedHashtags : String
  subject : Option String
  syncStatus : String
  isDeleted : Bool
  scheduledAt : Option Int
  freenetKey : Option String
  isFreenetNative : Bool
  rsvpEventId : Option String
  deriving DecidableEq

/-- A row of `posts`: the columns that `PostRow` carries and the two that the database derives. -/
structure StoredPost extends PostRow where
  category : Option String
  repostsCount : Int
  deriving DecidableEq

inductive NotifType where
  | reaction
  | zap
  | reply
  | follow
  | repost
  | mention
  | friendRequest
  deriving DecidableEq

def NotifType.text : NotifType → String
  | .reaction => "reaction"
  | .zap => "zap"
  | .reply => "reply"
  | .follow => "follow"
  | .repost => "repost"
  | .mention => "mention"
  | .friendRequest => "friend_request"

structure NotificationRow where
  id : String
  pubkey : String
  type : NotifType
  eventId : Option String
  fromPubkey : Option String
  content : Option String
  createdAt : Int
  isRead : Bool
  deriving DecidableEq

structure ZapRow where
  id : String
  pubkey : String
  recipientPubkey : String
  eventId : Option String
  amount : Int
  amountMsat : Int
  content : Option String
  createdAt : Int
  zapType : String
  deriving DecidableEq

structure ReactionRow where
  id : String
  pubkey : String
  eventId : String
  kind : Int
  content : Option String
  createdAt : Int
  deriving DecidableEq

structure RepostRow where
  id : String
  pubkey : String
  eventId : String
  createdAt : Int
  deriving DecidableEq

structure BookmarkRow where
  id : String
  pubkey : String
  eventId : String
  createdAt : Int
  deriving DecidableEq

structure HashtagRow where
  tag : String
  pubkey : String
  lastUsedAt : Int
  count : Int
  deriving DecidableEq

structure RelayRow where
  url : String
  pubkey : Option String
  name : Option String
  readEnabled : Bool
  writeEnabled : Bool
  priority : Int
  lastConnectedAt : Option Int
  deriving DecidableEq

end Soshal.Db

namespace Soshal

open Library Db

structure Db where
  users : Table String UserRow
  posts : Table String StoredPost
  zaps : Table String ZapRow
  notifications : Table String NotificationRow
  reactions : Table String ReactionRow
  reposts : Table String RepostRow
  bookmarks : Table String BookmarkRow
  hashtags : Table (String × String) HashtagRow
  relays : Table String RelayRow

end Soshal

namespace Soshal.Db

open Library Library.Text

def empty : Db :=
  ⟨.empty, .empty, .empty, .empty, .empty, .empty, .empty, .empty, .empty⟩

inductive DbError where
  | oversized (message : String)
  | migration (message : String)
  deriving DecidableEq

/-- `INSERT OR IGNORE INTO users (pubkey, npub) VALUES (?1, '')`. -/
def ensureUser (db : Db) (pubkey : String) : Db :=
  { db with users := db.users.insertIgnore pubkey .defaults }

def getByPubkey (db : Db) (pubkey : String) : Option UserRow := db.users.find? (normKey pubkey)

/-- The conflict clause of `USER_UPSERT_SQL`. -/
def UserRow.merge (new old : UserRow) : UserRow :=
  { new with npub := old.npub, createdAt := old.createdAt, followerCount := old.followerCount }

def upsertUser (db : Db) (pubkey : String) (row : UserRow) : Db :=
  { db with users := db.users.upsert (normKey pubkey) row row.merge }

def sumDeltas (deltas : List (String × Int)) (pubkey : String) : Int :=
  ((deltas.filter fun delta => normKey delta.1 = pubkey).map Prod.snd).sum

/-- `bump_follower_counts_in`. The source groups the keys by their summed change; a key is in
one group only, so that the groups are one rewrite of the table. -/
def bumpFollowerCounts (db : Db) (deltas : List (String × Int)) : Db :=
  { db with users := db.users.modify fun pubkey row =>
      if sumDeltas deltas pubkey = 0 then row
      else { row with followerCount := max 0 (row.followerCount + sumDeltas deltas pubkey) } }

/-- How `recompute_all_follower_counts` reads a stored contact list. -/
def contactEntries (list : String) : List String :=
  if startsWith (trim list) "[" then (JsonStrings.fromJson list).getD []
  else ((splitOn list ',').map trim).filter fun entry => entry ≠ ""

/-- The keys that `recompute_all_follower_counts` counts, once for each time they are listed. -/
def followEntries (users : Table String UserRow) : List String :=
  users.rows.flatMap fun (author, row) =>
    ((contactEntries row.contactPubkeys).map normKey).filter fun entry => entry ≠ "" ∧ entry ≠ normKey author

def recomputeAllFollowerCounts (db : Db) : Db :=
  let cleared := db.users.modify fun _ row => { row with followerCount := 0 }
  let counted := followEntries cleared
  -- A followed key gets a row here even if nothing was ever received from it.
  let present := counted.foldl (fun users entry => users.insertIgnore entry .defaults) cleared
  { db with users := present.modify fun pubkey row =>
      if pubkey ∈ counted then { row with followerCount := counted.count pubkey } else row }

def maxContentBytes : Nat := 64 * 1024

def maxBatchBytes : Nat := 2 * 1024 * 1024

def rowTooBig (content tagsJson : String) : Bool :=
  maxContentBytes < byteLen content || maxBatchBytes < byteLen content + byteLen tagsJson

/-- `PostKeys::from`. -/
def PostRow.withKeys (post : PostRow) : PostRow :=
  { post with
    id := normKey post.id
    pubkey := normKey post.pubkey
    replyTo := post.replyTo.map normKey
    rootId := post.rootId.map normKey }

/-- The conflict clause of `POST_UPSERT_SQL`: a tombstone keeps every column. -/
def StoredPost.merge (new old : StoredPost) : StoredPost :=
  if old.isDeleted then old
  else { old with
    content := new.content
    tagsJson := new.tagsJson
    sig := new.sig
    mentionedPubkeys := new.mentionedPubkeys
    mentionedHashtags := new.mentionedHashtags
    subject := new.subject
    syncStatus := new.syncStatus
    isDeleted := new.isDeleted
    scheduledAt := new.scheduledAt
    freenetKey := new.freenetKey
    isFreenetNative := new.isFreenetNative
    rsvpEventId := new.rsvpEventId
    category := new.category }

variable (listingCategory : String → Option String) (db : Db) (post : PostRow)

/-- The inserted row. `listingCategory` is the first `t` tag that the statement extracts from the tags. -/
def PostRow.toStored (post : PostRow) : StoredPost :=
  { post.withKeys with
    category := if post.kind = 30402 then listingCategory post.tagsJson else none
    repostsCount := 0 }

def writePost : Db :=
  let row := post.toStored listingCategory
  let db := db.ensureUser row.pubkey
  { db with posts := db.posts.upsert row.id row row.merge }

def upsertPost : Except DbError Db :=
  if rowTooBig post.content post.tagsJson then
    .error (.oversized ("post " ++ post.id ++
      " exceeds relay size caps (content > 65536 or total > 2097152 bytes)"))
  else .ok (db.writePost listingCategory post)

/-- One row of `upsert_batch_in`: a row over the size caps is skipped. -/
def upsertPostOrSkip : Db :=
  if rowTooBig post.content post.tagsJson then db else db.writePost listingCategory post

def upsertPosts (posts : List PostRow) : Db :=
  posts.foldl (upsertPostOrSkip listingCategory) db

def markDeleted (db : Db) (id author : String) : Db :=
  { db with posts := db.posts.modify fun postId post =>
      -- A post that is not stored yet leaves no trace of its deletion.
      if postId = normKey id ∧ post.pubkey = normKey author then { post with isDeleted := true } else post }

/-- `post_author_id`: the target is compared without trimming. -/
def postAuthorId (db : Db) (eventId : String) : Option String :=
  (db.posts.rows.find? fun (id, post) =>
    toAsciiLowercase id = toAsciiLowercase eventId ∧ post.isDeleted = false).map fun (_, post) => post.pubkey

def getZapRequestsForNote (db : Db) (noteId : String) : List PostRow :=
  let requests := (db.posts.rows.filter fun (_, post) => post.kind = 9734 ∧ post.replyTo = some noteId).map
    fun (_, post) => post.toPostRow
  -- ORDER BY created_at DESC LIMIT 8
  (requests.mergeSort fun first second => decide (second.createdAt ≤ first.createdAt)).take 8

def maxNotificationBytes : Nat := 4 * 1024

/-- The conflict clause of the notification upsert: read stays read, newer content wins. -/
def NotificationRow.merge (new old : NotificationRow) : NotificationRow :=
  if new.createdAt > old.createdAt then
    { old with
      isRead := old.isRead || new.isRead
      content := new.content
      createdAt := new.createdAt
      eventId := new.eventId }
  else { old with isRead := old.isRead || new.isRead }

def NotificationRow.withKeys (n : NotificationRow) : NotificationRow :=
  { n with
    id := normKey n.id
    pubkey := normKey n.pubkey
    eventId := n.eventId.map normKey
    fromPubkey := n.fromPubkey.map normKey }

/-- `upsert_batch_in` on one row: an oversized notification is skipped. -/
def upsertNotification (db : Db) (n : NotificationRow) : Db :=
  if maxNotificationBytes < byteLen (n.content.getD "") then db
  else
    let row := n.withKeys
    let db := db.ensureUser row.pubkey
    { db with notifications := db.notifications.upsert row.id row row.merge }

def upsertZap (db : Db) (zap : ZapRow) : Db :=
  let row : ZapRow := { zap with
    id := normKey zap.id
    pubkey := normKey zap.pubkey
    recipientPubkey := normKey zap.recipientPubkey
    eventId := zap.eventId.map normKey }
  let db := db.ensureUser row.pubkey
  { db with zaps := db.zaps.upsert row.id row fun old =>
      { old with amount := row.amount, amountMsat := row.amountMsat, recipientPubkey := row.recipientPubkey } }

def upsertReaction (db : Db) (reaction : ReactionRow) : Db :=
  let row : ReactionRow := { reaction with
    id := normKey reaction.id, pubkey := normKey reaction.pubkey, eventId := normKey reaction.eventId }
  let existing := (db.reactions.rows.find? fun (_, old) => old.eventId = row.eventId ∧ old.pubkey = row.pubkey).map
    fun (_, old) => old.createdAt
  -- One reaction for each author and post: an older one than the stored is dropped, any other replaces it.
  if existing.any fun stamp => row.createdAt < stamp then db
  else
    let db := { db with reactions := db.reactions.delete fun _ old =>
      old.eventId = row.eventId ∧ old.pubkey = row.pubkey }
    -- A minus takes the reaction back.
    if row.content = some "-" then db
    else
      let db := db.ensureUser row.pubkey
      { db with reactions := db.reactions.upsert row.id row fun old => { old with content := row.content } }

/-- The insert and its trigger `reposts_ai`, which counts only a row that was really inserted. -/
def upsertRepost (db : Db) (repost : RepostRow) : Db :=
  let row : RepostRow := { repost with
    id := normKey repost.id, pubkey := normKey repost.pubkey, eventId := normKey repost.eventId }
  let db := db.ensureUser row.pubkey
  if row.id ∈ db.reposts.keys then db
  else { db with
    reposts := db.reposts.insertIgnore row.id row
    posts := db.posts.modify fun id post =>
      if id = row.eventId then { post with repostsCount := post.repostsCount + 1 } else post }

def upsertBookmark (db : Db) (bookmark : BookmarkRow) : Db :=
  let row : BookmarkRow := { bookmark with
    id := normKey bookmark.id, pubkey := normKey bookmark.pubkey, eventId := normKey bookmark.eventId }
  let db := db.ensureUser row.pubkey
  { db with bookmarks := db.bookmarks.upsert row.id row fun _ => row }

def upsertBookmarks (db : Db) (rows : List BookmarkRow) : Db := rows.foldl upsertBookmark db

def deleteForDeletedTargets (db : Db) (pubkey : String) : Db :=
  { db with bookmarks := db.bookmarks.delete fun _ bookmark =>
      bookmark.pubkey = normKey pubkey ∧
        db.posts.rows.any fun (id, post) => id = bookmark.eventId && post.isDeleted }

def upsertHashtag (db : Db) (row : HashtagRow) : Db :=
  { db with hashtags := db.hashtags.upsert (row.tag, row.pubkey) row fun old =>
      if old.lastUsedAt < row.lastUsedAt then
        { old with lastUsedAt := max old.lastUsedAt row.lastUsedAt, count := old.count + row.count }
      else old }

def upsertHashtags (db : Db) (rows : List HashtagRow) : Db := rows.foldl upsertHashtag db

def upsertRelay (db : Db) (row : RelayRow) : Db :=
  { db with relays := db.relays.upsert row.url row fun old => { row with url := old.url, pubkey := old.pubkey } }

end Soshal.Db
