import Soshal.Sync.Ingest

/-! What each handler of ingest writes to `posts` and to `users`.

Later modules reason about runs of whole events. They use the equations of this
module and do not open the handlers again.
-/

set_option autoImplicit false

namespace Soshal.Sync

open Nostr Library Library.Text Db

variable (env : Env) (db : Db) (d : Delivery)

theorem foldl_frame {α β γ : Type} (table : α → γ) (f : α → β → α) (keeps : ∀ a b, table (f a b) = table a)
    (items : List β) (start : α) : table (items.foldl f start) = table start := by
  induction items generalizing start with
  | nil => rfl
  | cons item rest ih => rw [List.foldl_cons, ih, keeps]

@[simp] theorem upsertNotification_posts (db : Db) (n : NotificationRow) :
    (db.upsertNotification n).posts = db.posts := by
  unfold Db.upsertNotification
  split <;> rfl

@[simp] theorem notifyMe_posts (type : NotifType) (eventId content : String) :
    (notifyMe env db d type eventId content).posts = db.posts := by
  unfold notifyMe
  split <;> simp

@[simp] theorem maybeNotifyTextNote_posts (row : PostRow) :
    (maybeNotifyTextNote env db d row).posts = db.posts := by
  unfold maybeNotifyTextNote
  split_ifs <;> simp

@[simp] theorem upsertReaction_posts (db : Db) (row : ReactionRow) : (db.upsertReaction row).posts = db.posts := by
  unfold Db.upsertReaction
  dsimp only
  split_ifs <;> rfl

@[simp] theorem handleMetadata_posts : (handleMetadata env db d).posts = db.posts := by
  unfold handleMetadata
  split
  · rfl
  · split
    · rfl
    · split <;> rfl

@[simp] theorem handleContactList_posts : (handleContactList env db d).posts = db.posts := by
  unfold handleContactList
  dsimp only
  split_ifs <;> simp [Db.bumpFollowerCounts, Db.upsertUser]

@[simp] theorem handleZapReceipt_posts : (handleZapReceipt env db d).posts = db.posts := by
  unfold handleZapReceipt
  split
  · rfl
  · split_ifs <;> simp [Db.upsertZap, Db.ensureUser]

@[simp] theorem handleRelayList_posts : (handleRelayList env db d).posts = db.posts :=
  foldl_frame Db.posts Db.upsertRelay (fun _ _ => rfl) _ _

@[simp] theorem handleBookmarks_posts : (handleBookmarks db d).posts = db.posts := by
  unfold handleBookmarks
  split
  · rfl
  · exact foldl_frame Db.posts Db.upsertBookmark (fun _ _ => rfl) _ _

@[simp] theorem handleReaction_posts : (handleReaction env db d).posts = db.posts := by
  unfold handleReaction
  split
  · rfl
  · dsimp only
    split_ifs <;> simp [ensureAuthorUser]

@[simp] theorem upsertHashtags_posts (db : Db) (rows : List HashtagRow) : (db.upsertHashtags rows).posts = db.posts :=
  foldl_frame Db.posts Db.upsertHashtag (fun _ _ => rfl) _ _

/-- The rewrite of one deletion event: the rows it names, where its author wrote them. -/
def tombstone (ids : List String) (author : String) (id : String) (post : StoredPost) : StoredPost :=
  if id ∈ ids.map normKey ∧ post.pubkey = normKey author then { post with isDeleted := true } else post

theorem tombstone_hit {ids : List String} {author id : String} {post : StoredPost} (named : id ∈ ids.map normKey)
    (mine : post.pubkey = normKey author) : tombstone ids author id post = { post with isDeleted := true } :=
  if_pos ⟨named, mine⟩

theorem tombstone_miss {ids : List String} {author id : String} {post : StoredPost}
    (missed : id ∈ ids.map normKey → post.pubkey ≠ normKey author) : tombstone ids author id post = post :=
  if_neg fun h => missed h.1 h.2

theorem markDeleted_tombstone (ids : List String) (author id : String) (post : StoredPost) (next : String) :
    (if id = normKey next ∧ (tombstone ids author id post).pubkey = normKey author then
      { tombstone ids author id post with isDeleted := true } else tombstone ids author id post) =
      tombstone (ids ++ [next]) author id post := by
  by_cases mine : post.pubkey = normKey author
  · by_cases named : id ∈ ids.map normKey
    · have later : id ∈ (ids ++ [next]).map normKey := by
        rw [List.map_append]
        exact List.mem_append_left _ named
      rw [tombstone_hit named mine, tombstone_hit later mine]
      split <;> rfl
    · rw [tombstone_miss fun h => absurd h named]
      by_cases same : id = normKey next
      · rw [if_pos ⟨same, mine⟩, tombstone_hit (by simp [same]) mine]
      · rw [if_neg fun h => same h.1, tombstone_miss]
        intro member
        rw [List.map_append, List.mem_append, List.map_singleton, List.mem_singleton] at member
        exact (member.elim named same).elim
  · rw [tombstone_miss fun _ => mine, if_neg fun h => mine h.2, tombstone_miss fun _ => mine]

theorem handleDeletion_posts :
    (handleDeletion db d).posts = db.posts.modify (tombstone (eTags d.event) (pubkeyHex d.event)) := by
  unfold handleDeletion
  induction eTags d.event using List.reverseRecOn with
  | nil =>
    refine (Table.modify_eq_self fun row _ => ?_).symm
    simp [tombstone]
  | append_singleton ids next ih =>
    rw [List.foldl_append, List.foldl_cons, List.foldl_nil, Db.markDeleted]
    dsimp only
    rw [ih, Table.modify_modify]
    exact Table.modify_congr fun id post => markDeleted_tombstone ids (pubkeyHex d.event) id post next

theorem upsertRepost_posts (db : Db) (row : RepostRow) :
    (db.upsertRepost row).posts =
      if normKey row.id ∈ db.reposts.keys then db.posts
      else db.posts.modify fun id post =>
        if id = normKey row.eventId then { post with repostsCount := post.repostsCount + 1 } else post := by
  unfold Db.upsertRepost
  dsimp only [Db.ensureUser]
  split_ifs <;> rfl

def Recounts (before after : Table String StoredPost) : Prop :=
  ∃ count : String → StoredPost → Int,
    after = before.modify fun id post => { post with repostsCount := count id post }

theorem Recounts.refl (posts : Table String StoredPost) : Recounts posts posts :=
  ⟨fun _ post => post.repostsCount, (Table.modify_eq_self fun _ _ => rfl).symm⟩

theorem recounts_upsertRepost (db : Db) (row : RepostRow) : Recounts db.posts (db.upsertRepost row).posts := by
  rw [upsertRepost_posts]
  split_ifs
  · exact .refl db.posts
  · refine ⟨fun id post => if id = normKey row.eventId then post.repostsCount + 1 else post.repostsCount,
      Table.modify_congr fun id post => ?_⟩
    dsimp only
    by_cases same : id = normKey row.eventId
    · rw [if_pos same, if_pos same]
    · rw [if_neg same, if_neg same]

theorem handleRepost_posts : Recounts db.posts (handleRepost env db d).posts := by
  unfold handleRepost
  split
  · exact .refl db.posts
  · dsimp only
    split
    · rw [notifyMe_posts]
      exact recounts_upsertRepost (ensureAuthorUser db d) _
    · exact recounts_upsertRepost (ensureAuthorUser db d) _

/-- The users after a notification of the local user, which puts that user's row in place. -/
def withMe (asked : Bool) (users : Table String UserRow) : Table String UserRow :=
  if asked then users.insertIgnore (normKey env.myPubkey) .defaults else users

@[simp] theorem withMe_false (users : Table String UserRow) : withMe env false users = users := rfl

theorem find?_withMe {users : Table String UserRow} {u : String} {row : UserRow} (asked : Bool)
    (found : users.find? u = some row) : (withMe env asked users).find? u = some row := by
  unfold withMe
  split
  · rw [Table.find?_insertIgnore]
    split
    · rename_i same
      rw [← same, found]
      rfl
    · exact found
  · exact found

/-- Whether `notify_me` writes: never about an own event, and within the size cap. -/
def notices (d : Delivery) (type : NotifType) (content : String) : Bool :=
  !authoredByMe env d.event && byteLen (formatNotificationContent env type content) ≤ maxNotificationBytes

theorem upsertNotification_users (db : Db) (n : NotificationRow) :
    (db.upsertNotification n).users =
      if maxNotificationBytes < byteLen (n.content.getD "") then db.users
      else db.users.insertIgnore (normKey n.pubkey) .defaults := by
  unfold Db.upsertNotification
  split <;> rfl

theorem notifyMe_users (type : NotifType) (eventId content : String) :
    (notifyMe env db d type eventId content).users = withMe env (notices env d type content) db.users := by
  unfold notifyMe notices
  generalize shown : formatNotificationContent env type content = text
  cases own : authoredByMe env d.event with
  | true => rfl
  | false =>
    rw [if_neg Bool.false_ne_true, upsertNotification_users]
    dsimp only [Option.getD_some]
    by_cases big : maxNotificationBytes < byteLen text
    · rw [if_pos big, decide_eq_false (Nat.not_le.mpr big)]
      rfl
    · rw [if_neg big, decide_eq_true (Nat.not_lt.mp big)]
      rfl

theorem notifyIf_users (db : Db) (asked : Bool) (d : Delivery) (type : NotifType) (eventId content : String) :
    (if asked then notifyMe env db d type eventId content else db).users =
      withMe env (asked && notices env d type content) db.users := by
  cases asked with
  | false => rw [Bool.false_and, withMe_false, if_neg Bool.false_ne_true]
  | true => rw [Bool.true_and, if_pos rfl, notifyMe_users]

def noteNotice (row : PostRow) : Option NotifType :=
  if authoredByMe env d.event then none
  else if isFriendRequest d.event && hasPTag d.event env.myPubkey then some .friendRequest
  else if (replyTarget row).any (targetsMe env db) then some .reply
  else if hasPTag d.event env.myPubkey then some .mention
  else none

theorem maybeNotifyTextNote_users (row : PostRow) :
    (maybeNotifyTextNote env db d row).users =
      withMe env ((noteNotice env db d row).any (notices env d · row.content)) db.users := by
  unfold maybeNotifyTextNote noteNotice
  split_ifs
  · rw [Option.any_none, withMe_false]
  · rw [Option.any_some, notifyMe_users]
  · rw [Option.any_some, notifyMe_users]
  · rw [Option.any_some, notifyMe_users]
  · rw [Option.any_none, withMe_false]

theorem targetsMe_congr {first second : Db} (same : first.posts = second.posts) :
    targetsMe env first = targetsMe env second := by
  funext eventId
  unfold targetsMe Db.postAuthorId
  rw [same]

theorem targetsMe_recounts {first second : Db} (recounts : Recounts first.posts second.posts) :
    targetsMe env second = targetsMe env first := by
  obtain ⟨count, same⟩ := recounts
  funext eventId
  unfold targetsMe Db.postAuthorId
  rw [same]
  simp [Table.modify, List.find?_map, Function.comp_def]

@[simp] theorem normKey_pubkeyHex (e : Event) : normKey (pubkeyHex e) = pubkeyHex e := normKey_hexEncode _

@[simp] theorem normKey_idHex (e : Event) : normKey (idHex e) = idHex e := normKey_hexEncode _

theorem mem_keys_ensureAuthorUser : pubkeyHex d.event ∈ (ensureAuthorUser db d).users.keys :=
  Table.mem_keys_insertIgnore.mpr (.inl rfl)

theorem ensureUser_of_mem {db : Db} {pubkey : String} (present : pubkey ∈ db.users.keys) :
    db.ensureUser pubkey = db := by
  rw [Db.ensureUser, Table.insertIgnore_of_mem _ present]

@[simp] theorem upsertHashtags_users (db : Db) (rows : List HashtagRow) : (db.upsertHashtags rows).users = db.users :=
  foldl_frame Db.users Db.upsertHashtag (fun _ _ => rfl) _ _

theorem upsertReaction_users {db : Db} {row : ReactionRow} (present : normKey row.pubkey ∈ db.users.keys) :
    (db.upsertReaction row).users = db.users := by
  unfold Db.upsertReaction
  dsimp only
  split_ifs
  · rfl
  · rfl
  · exact Table.insertIgnore_of_mem _ present

theorem upsertRepost_users {db : Db} {row : RepostRow} (present : normKey row.pubkey ∈ db.users.keys) :
    (db.upsertRepost row).users = db.users := by
  unfold Db.upsertRepost
  dsimp only
  rw [ensureUser_of_mem present]
  split_ifs <;> rfl

theorem upsertBookmarks_users {db : Db} {rows : List BookmarkRow}
    (present : ∀ row ∈ rows, normKey row.pubkey ∈ db.users.keys) : (db.upsertBookmarks rows).users = db.users := by
  unfold Db.upsertBookmarks
  induction rows generalizing db with
  | nil => rfl
  | cons row rest ih =>
    have first : (db.upsertBookmark row).users = db.users :=
      Table.insertIgnore_of_mem _ (present row (List.mem_cons_self ..))
    rw [List.foldl_cons, ih fun row' member => by
      rw [first]
      exact present row' (List.mem_cons_of_mem _ member), first]

/-- The post that the single-event path stores, when it is within the size caps. -/
def storableRow (d : Delivery) : Option PostRow :=
  (postRow env d).filter fun row => !rowTooBig row.content row.tagsJson

def receiptBound (db : Db) (e : Event) : Bool :=
  (zapClaim env e).any fun claim => (db.getZapRequestsForNote claim.note).any (bindsClaim env claim)

/-- The row that an event of any other kind than metadata and contact lists opens for its author. -/
def openingRow : Option UserRow :=
  match kindOf d.event with
  | .textNote | .zapRequest => (storableRow env d).map fun _ => authorRow d
  | .other => if d.event.kind.toNat ∈ postKindAllowlist then (storableRow env d).map fun _ => authorRow d else none
  | .reaction | .repost => (firstETag d.event).map fun _ => authorRow d
  | .bookmarks => if eTags d.event = [] then none else some (authorRow d)
  | .zapReceipt => if receiptBound env db d.event then some .defaults else none
  | .metadata | .contactList | .encryptedDirectMessage | .eventDeletion | .relayList => none

theorem openingRow_eq {db : Db} {d : Delivery} {row : UserRow} (found : openingRow env db d = some row) :
    row = if kindOf d.event = .zapReceipt then .defaults else authorRow d := by
  have mapped : ∀ {α : Type} {content : Option α}, (content.map fun _ => authorRow d) = some row → row =
      authorRow d := by
    intro α content same
    obtain ⟨_, _, rfl⟩ := Option.map_eq_some_iff.mp same
    rfl
  unfold openingRow at found
  cases kind : kindOf d.event <;> rw [kind] at found <;> dsimp only at found
  case textNote => exact mapped found
  case zapRequest => exact mapped found
  case reaction => exact mapped found
  case repost => exact mapped found
  case other =>
    split_ifs at found
    exact mapped found
  case bookmarks =>
    split_ifs at found
    exact (Option.some.inj found).symm
  case zapReceipt =>
    split_ifs at found
    exact (Option.some.inj found).symm
  all_goals cases found

def opened (users : Table String UserRow) (d : Delivery) (opening : Option UserRow) : Table String UserRow :=
  opening.elim users (users.insertIgnore (pubkeyHex d.event))

def written (row : PostRow) : Db :=
  (ensureAuthorUser db d).writePost env.listingCategory row

def storedPost (next : Db → PostRow → Db) : Db :=
  match storableRow env d with
  | none => db
  | some row => next (written env db d row) row

theorem handlePost_commit (next : Db → PostRow → Db) :
    ((handlePost env db d next).commit db).db = storedPost env db d next := by
  unfold handlePost storedPost storableRow
  cases postRow env d with
  | none => rfl
  | some row =>
    by_cases big : rowTooBig row.content row.tagsJson <;>
      simp [storePostOutcome, storePost, written, Db.upsertPost, big, Outcome.commit, Outcome.ok, Option.filter_some]

def applied : Db :=
  match kindOf d.event with
  | .encryptedDirectMessage => db
  | .metadata => handleMetadata env db d
  | .contactList => handleContactList env db d
  | .zapRequest => storedPost env db d fun db _ => db
  | .zapReceipt => handleZapReceipt env db d
  | .relayList => handleRelayList env db d
  | .bookmarks => handleBookmarks db d
  | .reaction => handleReaction env db d
  | .repost => handleRepost env db d
  | .textNote => storedPost env db d fun db row =>
    maybeNotifyTextNote env (db.upsertHashtags (hashtagRows env d)) d row
  | .eventDeletion => handleDeletion db d
  | .other => if d.event.kind.toNat ∈ postKindAllowlist then storedPost env db d fun db _ => db else db

theorem handle_verified (db : Db) {d : Delivery} (verified : d.event.verify env.prims = true) :
    (handle env db d).db = applied env db d := by
  unfold handle handleImpl applied
  simp only [verified, Bool.not_true, Bool.and_false, Bool.false_eq_true, if_false]
  cases kindOf d.event with
  | encryptedDirectMessage =>
    dsimp only
    split_ifs <;> rfl
  | textNote => exact handlePost_commit env db d _
  | zapRequest => exact handlePost_commit env db d _
  | other =>
    dsimp only
    split_ifs
    · exact handlePost_commit env db d _
    · rfl
  | _ => rfl

theorem handle_unverified (db : Db) {d : Delivery} (rejected : d.event.verify env.prims = false) :
    (handle env db d).db = db := by
  simp [handle, handleImpl, rejected, Outcome.commit]

theorem writePost_users {db : Db} {row : PostRow} (present : normKey row.pubkey ∈ db.users.keys) :
    (db.writePost env.listingCategory row).users = db.users := by
  unfold Db.writePost
  dsimp only [PostRow.toStored, PostRow.withKeys]
  rw [ensureUser_of_mem present]

theorem postRow_keys {d : Delivery} {row : PostRow} (found : postRow env d = some row) :
    row.id = idHex d.event ∧ row.pubkey = pubkeyHex d.event := by
  unfold postRow at found
  dsimp only at found
  split at found
  · cases found
  · rw [← Option.some.inj found]
    exact ⟨rfl, rfl⟩

theorem storableRow_keys {d : Delivery} {row : PostRow} (found : storableRow env d = some row) :
    row.id = idHex d.event ∧ row.pubkey = pubkeyHex d.event :=
  postRow_keys env (Option.filter_eq_some_iff.mp found).1

theorem storedPost_posts {next : Db → PostRow → Db}
    (keeps : ∀ db row, (next db row).posts = db.posts) :
    (storedPost env db d next).posts =
      match storableRow env d with
      | none => db.posts
      | some row => db.posts.upsert (idHex d.event) (row.toStored env.listingCategory)
          (row.toStored env.listingCategory).merge := by
  unfold storedPost
  cases found : storableRow env d with
  | none => rfl
  | some row =>
    have id : (row.toStored env.listingCategory).id = idHex d.event := by
      simp [PostRow.toStored, PostRow.withKeys, (storableRow_keys env found).1]
    dsimp only
    rw [keeps, ← id]
    rfl

theorem storedPost_users (next : Db → PostRow → Db) (asked : Db → PostRow → Bool)
    (adds : ∀ db row, (next db row).users = withMe env (asked db row) db.users) :
    (storedPost env db d next).users =
      withMe env ((storableRow env d).any fun row => asked (written env db d row) row)
        (opened db.users d ((storableRow env d).map fun _ => authorRow d)) := by
  unfold storedPost
  cases found : storableRow env d with
  | none => rfl
  | some row =>
    have present : normKey row.pubkey ∈ (ensureAuthorUser db d).users.keys := by
      rw [(storableRow_keys env found).2, normKey_pubkeyHex]
      exact mem_keys_ensureAuthorUser db d
    dsimp only
    rw [adds, written, writePost_users env present]
    rfl

theorem handleZapReceipt_users : (handleZapReceipt env db d).users =
      withMe env (receiptBound env db d.event && notices env d .zap "")
        (opened db.users d (if receiptBound env db d.event then some .defaults else none)) := by
  unfold handleZapReceipt
  cases found : zapClaim env d.event with
  | none =>
    have unbound : receiptBound env db d.event = false := by simp [receiptBound, found]
    rw [unbound]
    rfl
  | some claim =>
    have same : receiptBound env db d.event =
        (db.getZapRequestsForNote claim.note).any (bindsClaim env claim) := by simp [receiptBound, found]
    rw [same]
    dsimp only
    split_ifs with bound
    · rw [notifyMe_users, bound]
      simp [Db.upsertZap, zapRow, Db.ensureUser, opened]
    · rw [Bool.not_eq_true] at bound
      rw [bound]
      rfl

theorem splitPubkeyList_toJson (strings : List String) : splitPubkeyList (JsonStrings.toJson strings) = strings := by
  have bracket : JsonStrings.toJson strings ≠ "" := by
    intro blank
    have starts := JsonStrings.startsWith_toJson strings
    rw [blank] at starts
    exact absurd starts (by decide)
  unfold splitPubkeyList
  simp only [JsonStrings.trim_toJson, bracket, false_or]
  split_ifs with none starts
  · exact (JsonStrings.toJson_inj (none.trans (by decide : "[]" = JsonStrings.toJson []))).symm
  · rw [JsonStrings.fromJson_toJson, Option.getD_some]
  · exact absurd (JsonStrings.startsWith_toJson strings) starts

def listRow : UserRow :=
  { (db.getByPubkey (pubkeyHex d.event)).getD (contactListRow env d) with
    contactPubkeys := JsonStrings.toJson (pTags d.event), relayList := JsonStrings.toJson (rTags d.event) }

def storedFollows (db : Db) (pubkey : String) : List String :=
  splitPubkeyList (((db.getByPubkey pubkey).map UserRow.contactPubkeys).getD "")

/-- The store after the row and the counts of a contact list are written. -/
def listed : Db :=
  (db.upsertUser (pubkeyHex d.event) (listRow env db d)).bumpFollowerCounts
    (followerDeltas (pubkeyHex d.event) (storedFollows db (pubkeyHex d.event)) (pTags d.event))

/-- Whether the list names the local user and the stored one did not. -/
def newlyFollowsMe (db : Db) (e : Event) : Bool :=
  hasPTag e env.myPubkey && !(storedFollows db (pubkeyHex e)).any fun p => eqIgnoreAsciiCase p env.myPubkey

theorem handleContactList_users : (handleContactList env db d).users =
      withMe env (newlyFollowsMe env db d.event && notices env d .follow "") (listed env db d).users := by
  unfold handleContactList
  dsimp only
  rw [notifyIf_users, splitPubkeyList_toJson]
  have asked : ((!authoredByMe env d.event && hasPTag d.event env.myPubkey &&
      !(storedFollows db (pubkeyHex d.event)).any fun p => eqIgnoreAsciiCase p env.myPubkey) && notices env d .follow "") =
      (newlyFollowsMe env db d.event && notices env d .follow "") := by
    unfold notices newlyFollowsMe
    cases authoredByMe env d.event <;> simp
  rw [← asked]
  rfl

/-- Whether the event leaves a notification for the local user. -/
def noticed : Bool :=
  match kindOf d.event with
  | .textNote => (storableRow env d).any fun row =>
    (noteNotice env (written env db d row) d row).any (notices env d · row.content)
  | .contactList => newlyFollowsMe env db d.event && notices env d .follow ""
  | .zapReceipt => receiptBound env db d.event && notices env d .zap ""
  | .reaction => (firstETag d.event).any fun target =>
    targetsMe env db target && notices env d .reaction d.event.content
  | .repost => (firstETag d.event).any fun target => targetsMe env db target && notices env d .repost ""
  | .metadata | .zapRequest | .other | .encryptedDirectMessage | .eventDeletion | .relayList | .bookmarks => false

theorem noticed_of_not_opening {db : Db} {d : Delivery} (contactList : kindOf d.event ≠ .contactList)
    (none : openingRow env db d = none) : noticed env db d = false := by
  unfold openingRow at none
  unfold noticed
  cases kind : kindOf d.event <;> rw [kind] at none <;> dsimp only at none ⊢
  case contactList => exact absurd kind contactList
  case textNote => rw [Option.map_eq_none_iff.mp none, Option.any_none]
  case reaction => rw [Option.map_eq_none_iff.mp none, Option.any_none]
  case repost => rw [Option.map_eq_none_iff.mp none, Option.any_none]
  case zapReceipt =>
    split_ifs at none with bound
    rw [Bool.eq_false_iff.mpr bound, Bool.false_and]

/-- Other kinds than metadata and contact lists only add rows: the author's and the local user's. -/
theorem applied_users (metadata : kindOf d.event ≠ .metadata)
    (contactList : kindOf d.event ≠ .contactList) :
    (applied env db d).users = withMe env (noticed env db d) (opened db.users d (openingRow env db d)) := by
  unfold applied openingRow noticed
  cases kind : kindOf d.event with
  | metadata => exact absurd kind metadata
  | contactList => exact absurd kind contactList
  | encryptedDirectMessage => rfl
  | zapRequest => simpa using storedPost_users env db d (fun db _ => db) (fun _ _ => false) fun _ _ => rfl
  | other =>
    dsimp only
    split_ifs
    · simpa using storedPost_users env db d (fun db _ => db) (fun _ _ => false) fun _ _ => rfl
    · rfl
  | textNote =>
    refine storedPost_users env db d _ (fun db row => (noteNotice env db d row).any (notices env d · row.content))
      fun db row => ?_
    rw [maybeNotifyTextNote_users, upsertHashtags_users]
    -- the hashtags are written before the reply target is read, and leave the posts alone
    unfold noteNotice
    rw [targetsMe_congr env (upsertHashtags_posts db (hashtagRows env d))]
  | eventDeletion =>
    exact foldl_frame Db.users (fun db id => db.markDeleted id (pubkeyHex d.event)) (fun _ _ => rfl) _ _
  | relayList => exact foldl_frame Db.users Db.upsertRelay (fun _ _ => rfl) _ _
  | bookmarks =>
    dsimp only [handleBookmarks]
    split_ifs
    · rfl
    · refine upsertBookmarks_users ?_
      intro row member
      simp only [bookmarkRows, List.mem_map] at member
      obtain ⟨_, _, rfl⟩ := member
      rw [normKey_pubkeyHex]
      exact mem_keys_ensureAuthorUser db d
  | reaction =>
    dsimp only [handleReaction]
    cases firstETag d.event with
    | none => rfl
    | some target =>
      dsimp only
      rw [notifyIf_users, targetsMe_congr env (upsertReaction_posts _ _), upsertReaction_users]
      · rfl
      · rw [normKey_pubkeyHex]
        exact mem_keys_ensureAuthorUser db d
  | repost =>
    dsimp only [handleRepost]
    cases firstETag d.event with
    | none => rfl
    | some target =>
      dsimp only
      rw [notifyIf_users, targetsMe_recounts env (recounts_upsertRepost _ _), upsertRepost_users]
      · rfl
      · rw [normKey_pubkeyHex]
        exact mem_keys_ensureAuthorUser db d
  | zapReceipt => exact handleZapReceipt_users env db d

theorem kindOf_allowed {e : Event} (kind : kindOf e = .textNote ∨ kindOf e = .zapRequest) :
    e.kind.toNat ∈ postKindAllowlist := by
  unfold kindOf at kind
  split at kind <;> simp at kind
  all_goals
    rename_i number
    rw [number]
    decide

/-- The event is of a kind that lands in `posts`. -/
def IsPost (e : Event) : Prop := isDirect e = false ∧ e.kind.toNat ∈ postKindAllowlist

/-- Everything an event can do to `posts`: mark rows, write its own row, or recount reposts. -/
inductive PostsStep (after : Table String StoredPost) : Prop where
  | marks (kind : kindOf d.event = .eventDeletion)
      (same : after = db.posts.modify (tombstone (eTags d.event) (pubkeyHex d.event)))
  | writes (row : PostRow) (isPost : IsPost d.event) (found : storableRow env d = some row)
      (same : after = db.posts.upsert (idHex d.event) (row.toStored env.listingCategory)
        (row.toStored env.listingCategory).merge)
  | recounts (kind : kindOf d.event ≠ .eventDeletion) (missing : IsPost d.event → storableRow env d = none)
      (same : Recounts db.posts after)

theorem postsStep_storedPost {next : Db → PostRow → Db}
    (keeps : ∀ db row, (next db row).posts = db.posts) (isPost : IsPost d.event)
    (kind : kindOf d.event ≠ .eventDeletion) : PostsStep env db d (storedPost env db d next).posts := by
  have posts := storedPost_posts env db d keeps
  cases found : storableRow env d with
  | none =>
    rw [found] at posts
    exact .recounts kind (fun _ => found) (posts ▸ .refl _)
  | some row =>
    rw [found] at posts
    exact .writes row isPost found posts

theorem applied_posts : PostsStep env db d (applied env db d).posts := by
  have direct : isDirect d.event = true → kindOf d.event ≠ .eventDeletion → ∀ after, Recounts db.posts after →
      PostsStep env db d after := fun direct kind _ same =>
    .recounts kind (fun isPost => by simp [isPost.1] at direct) same
  have unchanged : isDirect d.event = true → kindOf d.event ≠ .eventDeletion → ∀ after, after = db.posts →
      PostsStep env db d after := fun isDirect kind _ same => direct isDirect kind _ (same ▸ .refl _)
  unfold applied
  cases kind : kindOf d.event with
  | encryptedDirectMessage => exact unchanged (by simp [isDirect, kind]) (by simp [kind]) _ rfl
  | metadata | contactList | zapReceipt | relayList | bookmarks | reaction =>
    exact unchanged (by simp [isDirect, kind]) (by simp [kind]) _ (by simp)
  | repost => exact direct (by simp [isDirect, kind]) (by simp [kind]) _ (handleRepost_posts env db d)
  | eventDeletion => exact .marks kind (handleDeletion_posts db d)
  | textNote =>
    exact postsStep_storedPost env db d (by simp) ⟨by simp [isDirect, kind],
      kindOf_allowed (.inl kind)⟩ (by simp [kind])
  | zapRequest =>
    exact postsStep_storedPost env db d (by simp) ⟨by simp [isDirect, kind],
      kindOf_allowed (.inr kind)⟩ (by simp [kind])
  | other =>
    dsimp only
    split_ifs with allowed
    · exact postsStep_storedPost env db d (by simp) ⟨by simp [isDirect, kind], allowed⟩ (by simp [kind])
    · exact .recounts (by simp [kind]) (fun isPost => absurd isPost.2 allowed) (.refl _)

@[simp] theorem ingestAll_snoc (db : Db) (run : List Delivery) (d : Delivery) :
    ingestAll env db (run ++ [d]) = (handle env (ingestAll env db run) d).db := by
  simp [ingestAll]

/-- The run is made of verified events of one key. -/
structure OfAuthor (author : Vector UInt8 32) (run : List Delivery) : Prop where
  verified : ∀ d ∈ run, d.event.verify env.prims = true
  signed : ∀ d ∈ run, d.event.pubkey = author

def keyOf (author : Vector UInt8 32) : String := hexEncode author.toList

theorem OfAuthor.initial {author : Vector UInt8 32} {first second : List Delivery}
    (own : OfAuthor env author (first ++ second)) : OfAuthor env author first where
  verified d member := own.verified d (List.mem_append_left _ member)
  signed d member := own.signed d (List.mem_append_left _ member)

theorem OfAuthor.last {author : Vector UInt8 32} {run : List Delivery} {d : Delivery}
    (own : OfAuthor env author (run ++ [d])) (db : Db) :
    ingestAll env db (run ++ [d]) = applied env (ingestAll env db run) d ∧ keyOf author = pubkeyHex d.event := by
  refine ⟨?_, by rw [pubkeyHex, own.signed d (by simp)]; rfl⟩
  rw [← handle_verified env _ (own.verified d (by simp))]
  exact ingestAll_snoc env db run d

end Soshal.Sync
