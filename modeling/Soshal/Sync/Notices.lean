import Soshal.Sync.Effects

/-! What each handler of ingest writes to `notifications`, `zaps` and `reposts`, and what a batch
does with an event that it does not defer.
-/

set_option autoImplicit false

namespace Soshal.Sync

open Nostr Library Library.Text Db

variable (env : Env) (db : Db) (d : Delivery)

/-- The row that `notify_me` writes, when it writes one. -/
def noticeOf (d : Delivery) (type : NotifType) (eventId content : String) : Option NotificationRow :=
  if notices env d type content then
    some {
      id := normKey (notifId type eventId (pubkeyHex d.event))
      pubkey := normKey env.myPubkey
      type
      eventId := some (normKey eventId)
      fromPubkey := some (normKey (pubkeyHex d.event))
      content := some (formatNotificationContent env type content)
      createdAt := d.stamp
      isRead := false }
  else none

theorem isSome_noticeOf (d : Delivery) (type : NotifType) (eventId content : String) :
    (noticeOf env d type eventId content).isSome = notices env d type content := by
  unfold noticeOf
  cases notices env d type content <;> rfl

def put (notifications : Table String NotificationRow) (row : Option NotificationRow) : Table String NotificationRow :=
  row.elim notifications fun row => notifications.upsert row.id row row.merge

theorem notifyMe_notifications (type : NotifType) (eventId content : String) :
    (notifyMe env db d type eventId content).notifications =
      put db.notifications (noticeOf env d type eventId content) := by
  unfold notifyMe noticeOf notices
  generalize shown : formatNotificationContent env type content = text
  cases own : authoredByMe env d.event with
  | true => rfl
  | false =>
    rw [if_neg Bool.false_ne_true]
    unfold Db.upsertNotification
    dsimp only [Option.getD_some]
    by_cases big : maxNotificationBytes < byteLen text
    · rw [if_pos big, decide_eq_false (Nat.not_le.mpr big)]
      rfl
    · rw [if_neg big, decide_eq_true (Nat.not_lt.mp big)]
      rfl

theorem notifId_type (type : NotifType) (eventId fromPubkey : String) :
    ∃ rest, (normKey (notifId type eventId fromPubkey)).toList = type.text.toList ++ ':' :: rest := by
  have label : type.text.toList ++ [':'] ≠ [] := by simp
  have head : ∀ c ∈ (type.text.toList ++ [':']).head?, isWhitespace c = false := by
    intro c first
    cases type <;> cases first <;> decide
  obtain ⟨rest, trimmed⟩ := trimList_append (normKey eventId ++ ":" ++ normKey fromPubkey).toList label head (by
    rw [List.getLast_append_singleton]
    decide)
  refine ⟨rest.map Char.toLower, ?_⟩
  have whole : (notifId type eventId fromPubkey).toList =
      (type.text.toList ++ [':']) ++ (normKey eventId ++ ":" ++ normKey fromPubkey).toList := by
    simp [notifId]
  have lower : (type.text.toList ++ [':']).map Char.toLower = type.text.toList ++ [':'] := by
    cases type <;> decide
  rw [toList_normKey, whole, trimmed, List.map_append, lower, List.append_assoc, List.singleton_append]

theorem type_of_notifId {type type' : NotifType} {eventId eventId' fromPubkey fromPubkey' : String}
    (same : normKey (notifId type eventId fromPubkey) = normKey (notifId type' eventId' fromPubkey')) :
    type = type' := by
  obtain ⟨rest, first⟩ := notifId_type type eventId fromPubkey
  obtain ⟨rest', second⟩ := notifId_type type' eventId' fromPubkey'
  have text : ∀ (type : NotifType) (rest : List Char),
      (type.text.toList ++ ':' :: rest).takeWhile (· ≠ ':') = type.text.toList := by
    intro type rest
    rw [List.takeWhile_append_of_pos (by cases type <;> simp [NotifType.text])]
    simp
  have texts := congrArg (List.takeWhile (· ≠ ':')) (first.symm.trans ((congrArg String.toList same).trans second))
  rw [text, text] at texts
  revert texts
  cases type <;> cases type' <;> decide

def noteSubject (d : Delivery) (row : PostRow) : NotifType → String
  | .friendRequest => row.id
  | .reply => (replyTarget row).getD row.id
  | _ => (firstETag d.event).getD (idHex d.event)

def noteRow (row : PostRow) : Option NotificationRow :=
  (noteNotice env db d row).bind fun type => noticeOf env d type (noteSubject d row type) row.content

theorem maybeNotifyTextNote_notifications (row : PostRow) :
    (maybeNotifyTextNote env db d row).notifications = put db.notifications (noteRow env db d row) := by
  unfold maybeNotifyTextNote noteRow noteNotice
  split_ifs
  · rfl
  · rw [Option.bind_some, notifyMe_notifications]
    rfl
  · rw [Option.bind_some, notifyMe_notifications]
    rfl
  · rw [Option.bind_some, notifyMe_notifications]
    rfl
  · rfl

theorem isSome_noteRow (row : PostRow) :
    (noteRow env db d row).isSome = (noteNotice env db d row).any (notices env d · row.content) := by
  unfold noteRow
  cases noteNotice env db d row with
  | none => rfl
  | some type => rw [Option.bind_some, isSome_noticeOf, Option.any_some]

/-- The post whose author a text note's notification depends on. -/
def parentOf (d : Delivery) (row : PostRow) : Option String :=
  if authoredByMe env d.event || (isFriendRequest d.event && hasPTag d.event env.myPubkey) then none else replyTarget row

theorem noteRow_congr {first second : Db} {d : Delivery} {row : PostRow}
    (same : ∀ target, parentOf env d row = some target → targetsMe env first target = targetsMe env second target) :
    noteRow env first d row = noteRow env second d row := by
  unfold noteRow noteNotice
  unfold parentOf at same
  cases own : authoredByMe env d.event with
  | true => rfl
  | false =>
    cases request : isFriendRequest d.event && hasPTag d.event env.myPubkey with
    | true => rfl
    | false =>
      simp only [own, request, Bool.or_false, Bool.false_eq_true, if_false] at same ⊢
      have reply : (replyTarget row).any (targetsMe env first) = (replyTarget row).any (targetsMe env second) := by
        cases target : replyTarget row with
        | none => rfl
        | some t => rw [Option.any_some, Option.any_some, same t target]
      rw [reply]

/-- The notification that an event of a kind which is not deferred leaves. -/
def directNotice : Option NotificationRow :=
  match kindOf d.event with
  | .contactList => if newlyFollowsMe env db d.event then noticeOf env d .follow (idHex d.event) "" else none
  | .zapReceipt => (zapClaim env d.event).bind fun claim =>
    if receiptBound env db d.event then noticeOf env d .zap claim.note "" else none
  | .reaction => (firstETag d.event).bind fun target =>
    if targetsMe env db target then noticeOf env d .reaction target d.event.content else none
  | .repost => (firstETag d.event).bind fun target =>
    if targetsMe env db target then noticeOf env d .repost target "" else none
  | _ => none

theorem notifyIf_notifications (db : Db) (asked : Bool) (d : Delivery) (type : NotifType) (eventId content : String) :
    (if asked then notifyMe env db d type eventId content else db).notifications =
      put db.notifications (if asked then noticeOf env d type eventId content else none) := by
  cases asked with
  | false => rw [if_neg Bool.false_ne_true, if_neg Bool.false_ne_true]; rfl
  | true => rw [if_pos rfl, if_pos rfl, notifyMe_notifications]

theorem upsertReaction_notifications (db : Db) (row : ReactionRow) :
    (db.upsertReaction row).notifications = db.notifications := by
  unfold Db.upsertReaction
  dsimp only
  split_ifs <;> rfl

theorem upsertRepost_notifications (db : Db) (row : RepostRow) :
    (db.upsertRepost row).notifications = db.notifications := by
  unfold Db.upsertRepost
  dsimp only
  split_ifs <;> rfl

theorem handleContactList_notifications : (handleContactList env db d).notifications =
      put db.notifications (if newlyFollowsMe env db d.event then noticeOf env d .follow (idHex d.event) "" else none) := by
  unfold handleContactList
  dsimp only
  rw [notifyIf_notifications, splitPubkeyList_toJson]
  have asked : (if (!authoredByMe env d.event && hasPTag d.event env.myPubkey &&
      !(storedFollows db (pubkeyHex d.event)).any fun p => eqIgnoreAsciiCase p env.myPubkey) = true
      then noticeOf env d .follow (idHex d.event) "" else none) =
      if newlyFollowsMe env db d.event then noticeOf env d .follow (idHex d.event) "" else none := by
    unfold noticeOf notices newlyFollowsMe
    cases authoredByMe env d.event <;> simp
  rw [← asked]
  rfl

theorem handleZapReceipt_notifications : (handleZapReceipt env db d).notifications =
      put db.notifications ((zapClaim env d.event).bind fun claim =>
        if receiptBound env db d.event then noticeOf env d .zap claim.note "" else none) := by
  unfold handleZapReceipt
  cases found : zapClaim env d.event with
  | none => rfl
  | some claim =>
    have same : receiptBound env db d.event =
        (db.getZapRequestsForNote claim.note).any (bindsClaim env claim) := by simp [receiptBound, found]
    rw [same]
    dsimp only [Option.bind_some]
    split_ifs
    · rw [notifyMe_notifications]
      rfl
    · rfl

theorem applied_notifications (direct : isDirect d.event = true) :
    (applied env db d).notifications = put db.notifications (directNotice env db d) := by
  unfold applied directNotice
  unfold isDirect at direct
  cases kind : kindOf d.event with
  | textNote | zapRequest | other => simp [kind] at direct
  | encryptedDirectMessage => rfl
  | metadata =>
    dsimp only [handleMetadata]
    split
    · rfl
    · split
      · rfl
      · split <;> rfl
  | contactList => exact handleContactList_notifications env db d
  | zapReceipt => exact handleZapReceipt_notifications env db d
  | relayList => exact foldl_frame Db.notifications Db.upsertRelay (fun _ _ => rfl) _ _
  | eventDeletion =>
    exact foldl_frame Db.notifications (fun db id => db.markDeleted id (pubkeyHex d.event)) (fun _ _ => rfl) _ _
  | bookmarks =>
    dsimp only [handleBookmarks]
    split
    · rfl
    · exact foldl_frame Db.notifications Db.upsertBookmark (fun _ _ => rfl) _ _
  | reaction =>
    dsimp only [handleReaction]
    cases firstETag d.event with
    | none => rfl
    | some target =>
      dsimp only [Option.bind_some]
      rw [notifyIf_notifications, targetsMe_congr env (upsertReaction_posts _ _), upsertReaction_notifications]
      rfl
  | repost =>
    dsimp only [handleRepost]
    cases firstETag d.event with
    | none => rfl
    | some target =>
      dsimp only [Option.bind_some]
      rw [notifyIf_notifications, targetsMe_recounts env (recounts_upsertRepost _ _), upsertRepost_notifications]
      rfl

theorem noticed_direct (direct : isDirect d.event = true) :
    noticed env db d = (directNotice env db d).isSome := by
  have conditional : ∀ (asked : Bool) (type : NotifType) (eventId content : String),
      (asked && notices env d type content) = (if asked then noticeOf env d type eventId content else none).isSome := by
    intro asked type eventId content
    cases asked with
    | false => rfl
    | true => rw [if_pos rfl, isSome_noticeOf, Bool.true_and]
  unfold noticed directNotice
  unfold isDirect at direct
  cases kind : kindOf d.event with
  | textNote | zapRequest | other => simp [kind] at direct
  | contactList => exact conditional _ .follow (idHex d.event) ""
  | zapReceipt =>
    dsimp only
    cases claimed : zapClaim env d.event with
    | none =>
      rw [receiptBound, claimed, Option.any_none]
      rfl
    | some claim => exact conditional _ .zap claim.note ""
  | reaction =>
    dsimp only
    cases firstETag d.event with
    | none => rfl
    | some target => exact conditional _ .reaction target d.event.content
  | repost =>
    dsimp only
    cases firstETag d.event with
    | none => rfl
    | some target => exact conditional _ .repost target ""
  | _ => rfl

@[simp] theorem upsertHashtags_notifications (db : Db) (rows : List HashtagRow) :
    (db.upsertHashtags rows).notifications = db.notifications :=
  foldl_frame Db.notifications Db.upsertHashtag (fun _ _ => rfl) _ _

def ledgers (db : Db) : Table String ZapRow × Table String RepostRow := (db.zaps, db.reposts)

@[simp] theorem notifyMe_ledgers (type : NotifType) (eventId content : String) :
    ledgers (notifyMe env db d type eventId content) = ledgers db := by
  unfold notifyMe Db.upsertNotification
  split
  · rfl
  · split <;> rfl

@[simp] theorem maybeNotifyTextNote_ledgers (row : PostRow) :
    ledgers (maybeNotifyTextNote env db d row) = ledgers db := by
  unfold maybeNotifyTextNote
  split_ifs <;> simp

theorem upsertHashtags_ledgers (db : Db) (rows : List HashtagRow) : ledgers (db.upsertHashtags rows) = ledgers db :=
  foldl_frame ledgers Db.upsertHashtag (fun _ _ => rfl) _ _

theorem upsertReaction_ledgers (db : Db) (row : ReactionRow) : ledgers (db.upsertReaction row) = ledgers db := by
  unfold Db.upsertReaction
  dsimp only
  split_ifs <;> rfl

theorem storedPost_ledgers {next : Db → PostRow → Db}
    (keeps : ∀ db row, ledgers (next db row) = ledgers db) : ledgers (storedPost env db d next) = ledgers db := by
  unfold storedPost
  cases storableRow env d with
  | none => rfl
  | some row =>
    dsimp only
    rw [keeps]
    rfl

theorem applied_ledgers (receipt : kindOf d.event ≠ .zapReceipt)
    (repost : kindOf d.event ≠ .repost) : ledgers (applied env db d) = ledgers db := by
  unfold applied
  cases kind : kindOf d.event with
  | zapReceipt => exact absurd kind receipt
  | repost => exact absurd kind repost
  | encryptedDirectMessage => rfl
  | metadata =>
    dsimp only [handleMetadata]
    split
    · rfl
    · split
      · rfl
      · split <;> rfl
  | contactList =>
    dsimp only [handleContactList]
    split
    · rw [notifyMe_ledgers]
      rfl
    · rfl
  | relayList => exact foldl_frame ledgers Db.upsertRelay (fun _ _ => rfl) _ _
  | eventDeletion =>
    exact foldl_frame ledgers (fun db id => db.markDeleted id (pubkeyHex d.event)) (fun _ _ => rfl) _ _
  | bookmarks =>
    dsimp only [handleBookmarks]
    split
    · rfl
    · exact foldl_frame ledgers Db.upsertBookmark (fun _ _ => rfl) _ _
  | reaction =>
    dsimp only [handleReaction]
    cases firstETag d.event with
    | none => rfl
    | some target =>
      dsimp only
      split
      · rw [notifyMe_ledgers, upsertReaction_ledgers]
        rfl
      · rw [upsertReaction_ledgers]
        rfl
  | zapRequest => exact storedPost_ledgers env db d fun _ _ => rfl
  | textNote =>
    refine storedPost_ledgers env db d fun db row => ?_
    rw [maybeNotifyTextNote_ledgers, upsertHashtags_ledgers]
  | other =>
    dsimp only
    split
    · exact storedPost_ledgers env db d fun _ _ => rfl
    · rfl

theorem upsertZap_ledgers {first second : Db} (same : ledgers first = ledgers second) (zap : ZapRow) :
    ledgers (first.upsertZap zap) = ledgers (second.upsertZap zap) := by
  obtain ⟨zaps, reposts⟩ := Prod.mk.inj same
  dsimp only [ledgers, Db.upsertZap, Db.ensureUser]
  rw [zaps, reposts]

theorem upsertRepost_reposts (db : Db) (row : RepostRow) :
    ledgers (db.upsertRepost row) =
      if normKey row.id ∈ db.reposts.keys then ledgers db
      else (db.zaps, db.reposts.insertIgnore (normKey row.id) { row with
        id := normKey row.id, pubkey := normKey row.pubkey, eventId := normKey row.eventId }) := by
  unfold Db.upsertRepost
  dsimp only [Db.ensureUser]
  split_ifs <;> rfl

theorem upsertRepost_ledgers {first second : Db} (same : ledgers first = ledgers second) (row : RepostRow) :
    ledgers (first.upsertRepost row) = ledgers (second.upsertRepost row) := by
  obtain ⟨zaps, reposts⟩ := Prod.mk.inj same
  rw [upsertRepost_reposts, upsertRepost_reposts, zaps, reposts, same]

theorem notifyIf_ledgers (db : Db) (asked : Bool) (d : Delivery) (type : NotifType) (eventId content : String) :
    ledgers (if asked then notifyMe env db d type eventId content else db) = ledgers db := by
  split
  · exact notifyMe_ledgers env db d type eventId content
  · rfl

/-- The zaps and reposts after an event depend on the ones before it and on whether a receipt is bound. -/
theorem applied_ledgers_congr {first second : Db} {d : Delivery} (same : ledgers first = ledgers second)
    (bound : kindOf d.event = .zapReceipt → receiptBound env first d.event = receiptBound env second d.event) :
    ledgers (applied env first d) = ledgers (applied env second d) := by
  by_cases receipt : kindOf d.event = .zapReceipt
  · have sameBound := bound receipt
    unfold applied
    simp only [receipt, handleZapReceipt]
    cases found : zapClaim env d.event with
    | none => exact same
    | some claim =>
      simp only [receiptBound, found, Option.any_some] at sameBound
      dsimp only
      rw [sameBound]
      split
      · rw [notifyMe_ledgers, notifyMe_ledgers]
        exact upsertZap_ledgers same (zapRow env d claim)
      · exact same
  · by_cases repost : kindOf d.event = .repost
    · unfold applied
      simp only [repost, handleRepost]
      cases firstETag d.event with
      | none => exact same
      | some target =>
        rw [notifyIf_ledgers, notifyIf_ledgers]
        exact upsertRepost_ledgers (by exact same) _
    · rw [applied_ledgers env first d receipt repost, applied_ledgers env second d receipt repost, same]

def counted (target id : String) (post : StoredPost) : StoredPost :=
  if id = target then { post with repostsCount := post.repostsCount + 1 } else post

/-- What an event that is not deferred does to `posts`. -/
def directPosts (reposts : Table String RepostRow) (d : Delivery) (posts : Table String StoredPost) :
    Table String StoredPost :=
  match kindOf d.event with
  | .eventDeletion => posts.modify (tombstone (eTags d.event) (pubkeyHex d.event))
  | .repost => (firstETag d.event).elim posts fun target =>
    if idHex d.event ∈ reposts.keys then posts else posts.modify (counted (normKey target))
  | _ => posts

theorem applied_directPosts (direct : isDirect d.event = true) :
    (applied env db d).posts = directPosts db.reposts d db.posts := by
  unfold applied directPosts
  unfold isDirect at direct
  cases kind : kindOf d.event with
  | textNote | zapRequest | other => simp [kind] at direct
  | encryptedDirectMessage => rfl
  | metadata => exact handleMetadata_posts env db d
  | contactList => exact handleContactList_posts env db d
  | zapReceipt => exact handleZapReceipt_posts env db d
  | relayList => exact handleRelayList_posts env db d
  | bookmarks => exact handleBookmarks_posts db d
  | reaction => exact handleReaction_posts env db d
  | eventDeletion => exact handleDeletion_posts db d
  | repost =>
    dsimp only [handleRepost]
    cases firstETag d.event with
    | none => rfl
    | some target =>
      dsimp only
      have reposted := upsertRepost_posts (ensureAuthorUser db d)
        { id := idHex d.event, pubkey := pubkeyHex d.event, eventId := target, createdAt := d.stamp }
      rw [normKey_idHex] at reposted
      split
      · rw [notifyMe_posts]
        exact reposted
      · exact reposted

theorem handleImpl_direct (direct : isDirect d.event = true) :
    (handleImpl env db d true).db = applied env db d := by
  unfold handleImpl applied
  unfold isDirect at direct
  simp only [Bool.not_true, Bool.false_and, Bool.false_eq_true, if_false]
  cases kind : kindOf d.event with
  | textNote | zapRequest | other => simp [kind] at direct
  | encryptedDirectMessage =>
    dsimp only
    split <;> rfl
  | _ => rfl

end Soshal.Sync
