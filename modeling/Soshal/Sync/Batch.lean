import Soshal.Sync.DeferredRows
import Soshal.Sync.FollowerCounts
import Soshal.Sync.Deletion

/-! Batches against single events: when both paths leave the same rows.

A batch handles some kinds at once and holds the posts back to the end, together with the
notifications of its text notes. The single-event path writes each post in its place. The
two agree unless an event of the batch reads or changes what is held back before it.
-/

set_option autoImplicit false

namespace Soshal.Sync

open Nostr Library Library.Text Db

variable (env : Env)

/-! ## The local user's row, put in place late -/

def LeavesMe (d : Delivery) : Prop :=
  pubkeyHex d.event ≠ normKey env.myPubkey ∧
    (kindOf d.event = .contactList → normKey env.myPubkey ∉ (pTags d.event).map normKey)

theorem withMe_of_mem {users : Table String UserRow} (present : normKey env.myPubkey ∈ users.keys) (asked : Bool) :
    withMe env asked users = users := by
  cases asked with
  | false => rfl
  | true => exact Table.insertIgnore_of_mem _ present

theorem withMe_or (first second : Bool) (users : Table String UserRow) :
    withMe env (first || second) users = withMe env second (withMe env first users) := by
  cases first with
  | false => rfl
  | true =>
    rw [Bool.true_or]
    refine (withMe_of_mem env ?_ second).symm
    exact Table.mem_keys_insertIgnore.mpr (.inl rfl)

theorem Alike.withMe {first second : Table String UserRow} (alike : Table.Alike first second) (asked : Bool) :
    Table.Alike (withMe env asked first) (withMe env asked second) := by
  cases asked with
  | false => exact alike
  | true => exact alike.insertIgnore _ _

theorem mem_keys_withMe {users : Table String UserRow} {u : String} (asked : Bool) (present : u ∈ users.keys) :
    u ∈ (withMe env asked users).keys := by
  obtain ⟨row, found⟩ := Table.mem_keys_iff.mp present
  exact Table.mem_keys_iff.mpr ⟨row, find?_withMe env asked found⟩

theorem find?_withMe_of_ne {users : Table String UserRow} {u : String} (asked : Bool) (ne : u ≠ normKey env.myPubkey) :
    (withMe env asked users).find? u = users.find? u := by
  cases asked with
  | false => rfl
  | true => exact Table.find?_upsert_of_ne _ _ _ ne

/-- Where the author's row is looked up, it does not matter that the local user's is still missing. -/
theorem upsert_withMe {users : Table String UserRow} {u : String} {asked : Bool}
    (apart : asked = true → normKey env.myPubkey ∈ users.keys ∨ u ≠ normKey env.myPubkey) (row : UserRow)
    (merge : UserRow → UserRow) :
    Table.Alike ((withMe env asked users).upsert u row merge) (withMe env asked (users.upsert u row merge)) := by
  cases asked with
  | false => exact .refl _
  | true =>
    rcases apart rfl with present | ne
    · rw [withMe_of_mem env present, withMe_of_mem env (Table.mem_keys_upsert.mpr (.inr present))]
      exact .refl _
    · exact Table.alike_upsert_comm users ne.symm _ _ _ _

theorem find?_withMe_apart {users : Table String UserRow} {u : String} {asked : Bool}
    (apart : asked = true → normKey env.myPubkey ∈ users.keys ∨ u ≠ normKey env.myPubkey) :
    (withMe env asked users).find? u = users.find? u := by
  cases asked with
  | false => rfl
  | true =>
    rcases apart rfl with present | ne
    · rw [withMe_of_mem env present]
    · exact find?_withMe_of_ne env true ne

theorem opened_alike {first second : Table String UserRow} {d : Delivery} {asked : Bool}
    (users : Table.Alike first (withMe env asked second))
    (apart : asked = true → normKey env.myPubkey ∈ second.keys ∨ pubkeyHex d.event ≠ normKey env.myPubkey)
    (opening : Option UserRow) :
    Table.Alike (opened first d opening) (withMe env asked (opened second d opening)) := by
  cases opening with
  | none => exact users
  | some row => exact (users.insertIgnore _ row).trans (upsert_withMe env apart row id)

def profiled (users : Table String UserRow) (d : Delivery) : Table String UserRow :=
  match userRow env d, users.find? (pubkeyHex d.event) with
  | none, _ => users
  | some row, none => users.upsert (pubkeyHex d.event) row row.merge
  | some row, some stored =>
    if stored.updatedAt < row.updatedAt then
      users.upsert (pubkeyHex d.event)
        { row with contactPubkeys := stored.contactPubkeys, relayList := stored.relayList }
        { row with contactPubkeys := stored.contactPubkeys, relayList := stored.relayList }.merge
    else users

theorem handleMetadata_users (db : Db) (d : Delivery) : (handleMetadata env db d).users = profiled env db.users d := by
  unfold handleMetadata profiled Db.getByPubkey
  rw [normKey_pubkeyHex]
  cases userRow env d with
  | none => rfl
  | some row =>
    cases db.users.find? (pubkeyHex d.event) with
    | none =>
      dsimp only [Db.upsertUser]
      rw [normKey_pubkeyHex]
    | some stored =>
      dsimp only [Db.upsertUser]
      rw [normKey_pubkeyHex]
      split <;> rfl

theorem profiled_alike {first second : Table String UserRow} {d : Delivery} {asked : Bool}
    (users : Table.Alike first (withMe env asked second))
    (apart : asked = true → normKey env.myPubkey ∈ second.keys ∨ pubkeyHex d.event ≠ normKey env.myPubkey) :
    Table.Alike (profiled env first d) (withMe env asked (profiled env second d)) := by
  unfold profiled
  rw [users, find?_withMe_apart env apart]
  cases userRow env d with
  | none => exact users
  | some row =>
    cases second.find? (pubkeyHex d.event) with
    | none => exact (users.upsert _ row _).trans (upsert_withMe env apart row _)
    | some stored =>
      dsimp only
      split
      · exact (users.upsert _ _ _).trans (upsert_withMe env apart _ _)
      · exact users

def bumped (db : Db) (d : Delivery) (u : String) (row : UserRow) : UserRow :=
  if sumDeltas (followerDeltas (pubkeyHex d.event) (storedFollows db (pubkeyHex d.event)) (pTags d.event)) u = 0 then row
  else { row with followerCount := max 0 (row.followerCount +
    sumDeltas (followerDeltas (pubkeyHex d.event) (storedFollows db (pubkeyHex d.event)) (pTags d.event)) u) }

theorem find?_listed_users (db : Db) (d : Delivery) (u : String) :
    (listed env db d).users.find? u =
      (if u = pubkeyHex d.event then
        some ((db.users.find? (pubkeyHex d.event)).elim (listRow env db d) (listRow env db d).merge)
      else db.users.find? u).map (bumped db d u) := by
  unfold listed Db.bumpFollowerCounts Db.upsertUser
  rw [normKey_pubkeyHex, Table.find?_modify, Table.find?_upsert]
  rfl

theorem bumped_defaults {db : Db} {d : Delivery} {u : String} (other : u ≠ pubkeyHex d.event)
    (unlisted : u ∉ (pTags d.event).map normKey) : bumped db d u .defaults = .defaults := by
  have none : added u (storedFollows db (pubkeyHex d.event)) (pTags d.event) = 0 := by
    refine List.countP_eq_zero.mpr fun entry member same => ?_
    simp only [decide_eq_true_eq] at same
    exact unlisted (List.mem_map.mpr ⟨entry, member, same.1⟩)
  unfold bumped
  rw [sumDeltas_followerDeltas (normKey_pubkeyHex d.event) other, none]
  split
  · rfl
  · -- nothing is taken from a count of zero
    have zero : max 0 (UserRow.defaults.followerCount +
        (((0 : Nat) : Int) - dropped u (storedFollows db (pubkeyHex d.event)) (pTags d.event))) = 0 := by
      rw [show UserRow.defaults.followerCount = 0 from rfl]
      omega
    rw [zero]
    rfl

theorem listed_alike {first second : Db} {d : Delivery} {asked : Bool}
    (users : Table.Alike first.users (withMe env asked second.users))
    (apart : asked = true → normKey env.myPubkey ∈ second.users.keys ∨
      (pubkeyHex d.event ≠ normKey env.myPubkey ∧ normKey env.myPubkey ∉ (pTags d.event).map normKey)) :
    Table.Alike (listed env first d).users (withMe env asked (listed env second d).users) ∧
      storedFollows first (pubkeyHex d.event) = storedFollows second (pubkeyHex d.event) := by
  have author : first.users.find? (pubkeyHex d.event) = second.users.find? (pubkeyHex d.event) := by
    rw [users, find?_withMe_apart env fun h => (apart h).imp_right And.left]
  have follows : storedFollows first (pubkeyHex d.event) = storedFollows second (pubkeyHex d.event) := by
    rw [storedFollows, storedFollows, Db.getByPubkey, Db.getByPubkey, normKey_pubkeyHex, author]
  have row : listRow env first d = listRow env second d := by
    rw [listRow, listRow, Db.getByPubkey, Db.getByPubkey, normKey_pubkeyHex, author]
  have bumps : bumped first d = bumped second d := by
    funext u row
    rw [bumped, bumped, follows]
  refine ⟨fun u => ?_, follows⟩
  rw [find?_listed_users, author, row, bumps]
  by_cases own : u = pubkeyHex d.event
  · -- the author's row is there after the list
    have found := find?_listed_users env second d u
    rw [if_pos own, Option.map_some] at found ⊢
    rw [find?_withMe env asked found]
  · rw [if_neg own, users]
    have found := find?_listed_users env second d u
    rw [if_neg own] at found
    cases asked with
    | false => exact found.symm
    | true =>
      rcases apart rfl with present | ⟨other, unlisted⟩
      · have later : normKey env.myPubkey ∈ (listed env second d).users.keys := by
          obtain ⟨n, stored⟩ := mem_keys_iff_countOf.mp present
          refine mem_keys_iff_countOf.mpr ?_
          rw [countOf_listed, stored]
          exact ⟨_, rfl⟩
        rw [withMe_of_mem env present, withMe_of_mem env later, found]
      · by_cases me : u = normKey env.myPubkey
        · subst me
          simp only [withMe, if_true, Table.find?_insertIgnore]
          rw [found]
          cases second.users.find? (normKey env.myPubkey) with
          | none => simp [bumped_defaults own unlisted]
          | some stored => rfl
        · rw [find?_withMe_of_ne env true me, find?_withMe_of_ne env true me, found]

/-- An event that is not deferred changes the users alike, with the local user's row put in place or not. -/
theorem applied_users_alike {first second : Db} {d : Delivery} {asked : Bool} (direct : isDirect d.event = true)
    (users : Table.Alike first.users (withMe env asked second.users))
    (apart : asked = true → normKey env.myPubkey ∈ second.users.keys ∨ LeavesMe env d)
    (notice : directNotice env first d = directNotice env second d)
    (opening : openingRow env first d = openingRow env second d) :
    Table.Alike (applied env first d).users (withMe env asked (applied env second d).users) := by
  have noticed : noticed env first d = noticed env second d := by
    rw [noticed_direct env first d direct, noticed_direct env second d direct, notice]
  have swap : ∀ (p q : Bool) (t : Table String UserRow), withMe env p (withMe env q t) =
      withMe env q (withMe env p t) := by
    intro p q t
    rw [← withMe_or, ← withMe_or, Bool.or_comm]
  by_cases contactList : kindOf d.event = .contactList
  · have same : ∀ db, applied env db d = handleContactList env db d := fun db => by simp only [applied, contactList]
    have lists := listed_alike env users fun h => (apart h).imp_right fun leaves => ⟨leaves.1, leaves.2 contactList⟩
    have follows : newlyFollowsMe env first d.event = newlyFollowsMe env second d.event := by
      rw [newlyFollowsMe, newlyFollowsMe, lists.2]
    rw [same, same, handleContactList_users, handleContactList_users, follows, swap]
    exact Alike.withMe env lists.1 _
  · have author : asked = true → normKey env.myPubkey ∈ second.users.keys ∨
        pubkeyHex d.event ≠ normKey env.myPubkey := fun h => (apart h).imp_right And.left
    by_cases metadata : kindOf d.event = .metadata
    · have same : ∀ db, applied env db d = handleMetadata env db d := fun db => by simp only [applied, metadata]
      rw [same, same, handleMetadata_users, handleMetadata_users]
      exact profiled_alike env users author
    · rw [applied_users env first d metadata contactList, applied_users env second d metadata contactList, noticed,
        opening, swap]
      exact Alike.withMe env (opened_alike env users author _) _

/-! ## Notifications, written late -/

theorem put_alike {first second : Table String NotificationRow} (alike : Table.Alike first second)
    (row : Option NotificationRow) : Table.Alike (put first row) (put second row) := by
  cases row with
  | none => exact alike
  | some row => exact alike.upsert _ _ _

theorem put_comm (notifications : Table String NotificationRow) {first second : Option NotificationRow}
    (apart : ∀ a b, first = some a → second = some b → a.id ≠ b.id) :
    Table.Alike (put (put notifications first) second) (put (put notifications second) first) := by
  cases first with
  | none => exact .refl _
  | some a =>
    cases second with
    | none => exact .refl _
    | some b => exact Table.alike_upsert_comm notifications (apart a b rfl rfl) _ _ _ _

theorem noticeOf_id {d : Delivery} {type : NotifType} {eventId content : String} {row : NotificationRow}
    (found : noticeOf env d type eventId content = some row) :
    row.id = normKey (notifId type eventId (pubkeyHex d.event)) := by
  unfold noticeOf at found
  split at found
  · rw [← Option.some.inj found]
  · cases found

def TypedAs (types : List NotifType) (id : String) : Prop :=
  ∃ type ∈ types, ∃ eventId fromPubkey, id = normKey (notifId type eventId fromPubkey)

theorem noteRow_typed {db : Db} {d : Delivery} {row : PostRow} {n : NotificationRow}
    (found : noteRow env db d row = some n) : TypedAs [.friendRequest, .reply, .mention] n.id := by
  obtain ⟨type, asked, written⟩ := Option.bind_eq_some_iff.mp found
  refine ⟨type, ?_, noteSubject d row type, pubkeyHex d.event, noticeOf_id env written⟩
  unfold noteNotice at asked
  split_ifs at asked <;> simp [← Option.some.inj asked]

theorem directNotice_typed {db : Db} {d : Delivery} {n : NotificationRow} (found : directNotice env db d = some n) :
    TypedAs [.follow, .zap, .reaction, .repost] n.id := by
  have conditional : ∀ (asked : Bool) (type : NotifType) (eventId content : String),
      type ∈ [NotifType.follow, .zap, .reaction, .repost] →
      (if asked then noticeOf env d type eventId content else none) = some n →
      TypedAs [.follow, .zap, .reaction, .repost] n.id := by
    intro asked type eventId content member written
    split at written
    · exact ⟨type, member, _, _, noticeOf_id env written⟩
    · cases written
  unfold directNotice at found
  split at found
  · exact conditional _ _ _ _ (by simp) found
  · obtain ⟨claim, -, written⟩ := Option.bind_eq_some_iff.mp found
    exact conditional _ _ _ _ (by simp) written
  · obtain ⟨target, -, written⟩ := Option.bind_eq_some_iff.mp found
    exact conditional _ _ _ _ (by simp) written
  · obtain ⟨target, -, written⟩ := Option.bind_eq_some_iff.mp found
    exact conditional _ _ _ _ (by simp) written
  · cases found

theorem TypedAs.ne {types others : List NotifType} {id id' : String} (first : TypedAs types id)
    (second : TypedAs others id') (disjoint : ∀ type ∈ types, type ∉ others) : id ≠ id' := by
  obtain ⟨type, member, _, _, rfl⟩ := first
  obtain ⟨other, member', _, _, rfl⟩ := second
  intro same
  exact disjoint type member (type_of_notifId same ▸ member')

/-- The notifications of the text notes, decided on one state. -/
def putAll (db : Db) (notifications : Table String NotificationRow) (notes : List (Delivery × PostRow)) :
    Table String NotificationRow :=
  notes.foldl (fun n note => put n (noteRow env db note.1 note.2)) notifications

theorem putAll_cons (db : Db) (notifications : Table String NotificationRow) (note : Delivery × PostRow)
    (rest : List (Delivery × PostRow)) :
    putAll env db notifications (note :: rest) = putAll env db (put notifications (noteRow env db note.1 note.2)) rest := by
  rw [putAll, List.foldl_cons, putAll]

theorem putAll_append (db : Db) (notifications : Table String NotificationRow)
    (notes more : List (Delivery × PostRow)) :
    putAll env db notifications (notes ++ more) = putAll env db (putAll env db notifications notes) more :=
  List.foldl_append

theorem putAll_alike {first second : Table String NotificationRow} (alike : Table.Alike first second) (db : Db)
    (notes : List (Delivery × PostRow)) : Table.Alike (putAll env db first notes) (putAll env db second notes) := by
  induction notes generalizing first second with
  | nil => exact alike
  | cons note rest ih =>
    rw [putAll_cons, putAll_cons]
    exact ih (put_alike alike _)

theorem putAll_congr {first second : Db} {notes : List (Delivery × PostRow)}
    (same : ∀ note ∈ notes, noteRow env first note.1 note.2 = noteRow env second note.1 note.2)
    (notifications : Table String NotificationRow) :
    putAll env first notifications notes = putAll env second notifications notes := by
  induction notes generalizing notifications with
  | nil => simp only [putAll, List.foldl_nil]
  | cons note rest ih =>
    rw [putAll_cons, putAll_cons, same note (List.mem_cons_self ..)]
    exact ih (fun next member => same next (List.mem_cons_of_mem _ member)) _

theorem putAll_put (db db' : Db) (d : Delivery) (notifications : Table String NotificationRow)
    (notes : List (Delivery × PostRow)) :
    Table.Alike (putAll env db (put notifications (directNotice env db' d)) notes)
      (put (putAll env db notifications notes) (directNotice env db' d)) := by
  induction notes generalizing notifications with
  | nil => exact .refl _
  | cons note rest ih =>
    rw [putAll_cons, putAll_cons]
    refine (putAll_alike env (put_comm notifications ?_) db rest).trans (ih _)
    intro a b first second
    refine (directNotice_typed env first).ne (noteRow_typed env second) ?_
    decide

/-! ## What a batch holds back -/

def deferredRow (d : Delivery) : Option PostRow :=
  if isDirect d.event = false ∧ d.event.kind.toNat ∈ postKindAllowlist then postRow env d else none

def heldRows (events : List Delivery) : List PostRow := events.filterMap (deferredRow env)

def held (events : List Delivery) : List StoredPost := (heldRows env events).map (PostRow.toStored env.listingCategory)

def heldNotes (events : List Delivery) : List (Delivery × PostRow) :=
  events.filterMap fun d => if kindOf d.event = .textNote then (deferredRow env d).map (d, ·) else none

/-- A post of the local user under this name, stored at the start or held back. -/
def OwnPost (start : Db) (before : List Delivery) (target : String) : Prop :=
  (∃ row ∈ start.posts.rows, spells target row.1 ∧ mine env row.2 = true) ∨
    ∃ new ∈ held env before, spells target new.id ∧ mine env new = true

def Addresses (start : Db) (before : List Delivery) (note : Delivery × PostRow) : Prop :=
  authoredByMe env note.1.event = false ∧
    (hasPTag note.1.event env.myPubkey = true ∨
      ∃ target, parentOf env note.1 note.2 = some target ∧ OwnPost env start before target)

/-- The local user has a row at the start, or from an own event of the batch. -/
def HasMe (start : Db) (before : List Delivery) : Prop :=
  normKey env.myPubkey ∈ start.users.keys ∨
    ∃ d ∈ before, pubkeyHex d.event = normKey env.myPubkey ∧ opensAuthor env Db.empty d = true

/-- The next event of a batch does not meet what is held back before it. -/
structure StepSafe (start : Db) (before : List Delivery) (d : Delivery) : Prop where
  sized : ∀ row, deferredRow env d = some row → rowTooBig row.content row.tagsJson = false
  deletion : kindOf d.event = .eventDeletion → Clear (marks d.event) start.posts (held env before)
  receipt : kindOf d.event = .zapReceipt → ∀ claim, zapClaim env d.event = some claim →
    Clear (requests claim.note) start.posts (held env before)
  target : kindOf d.event = .reaction ∨ kindOf d.event = .repost → ∀ target, firstETag d.event = some target →
    ∀ new ∈ held env before, spells target new.id → new.id ∈ start.posts.keys ∨ mine env new = false
  repost : kindOf d.event = .repost → ∀ target, firstETag d.event = some target →
    ∀ new ∈ held env before, new.id = normKey target → normKey target ∈ start.posts.keys
  parent : ∀ note ∈ heldNotes env before, ∀ target, parentOf env note.1 note.2 = some target →
    ∀ row, deferredRow env d = some row → spells target (normKey row.id) →
      normKey row.id ∈ start.posts.keys ∨ (∃ new ∈ held env before, normKey row.id = new.id) ∨
        mine env (row.toStored env.listingCategory) = false
  parentDeletion : kindOf d.event = .eventDeletion →
    ∀ note ∈ heldNotes env before, ∀ target, parentOf env note.1 note.2 = some target →
      ∀ id ∈ eTags d.event, spells target (normKey id) →
        authoredByMe env d.event = false ∧ ∀ key ∈ start.posts.keys, spells target key → normKey key = key
  me : (∃ note ∈ heldNotes env before, Addresses env start before note) → HasMe env start before ∨ LeavesMe env d

def BatchSafe (start : Db) (events : List Delivery) : Prop :=
  ∀ before d after, events = before ++ d :: after → StepSafe env start before d

/-- Whether a notification of the text notes is still to be written. -/
def pending (db : Db) (notes : List (Delivery × PostRow)) : Bool :=
  notes.any fun note => (noteRow env db note.1 note.2).isSome

theorem pending_congr {first second : Db} {notes : List (Delivery × PostRow)}
    (same : ∀ note ∈ notes, noteRow env first note.1 note.2 = noteRow env second note.1 note.2) :
    pending env first notes = pending env second notes := by
  induction notes with
  | nil => simp only [pending, List.any_nil]
  | cons note rest ih =>
    simp only [pending, List.any_cons] at ih ⊢
    rw [same note (List.mem_cons_self ..), ih fun next member => same next (List.mem_cons_of_mem _ member)]

/-- What a batch has held back after some of its events, and what it has not lost. -/
structure Held (start : Db) (before : List Delivery) (state : BatchState) : Prop where
  rows : state.rows = heldRows env before
  notes : state.notifyQueue = heldNotes env before
  flagged : Flagged start.posts state.db.posts
  kept : ∀ u ∈ start.users.keys, u ∈ state.db.users.keys
  authors : ∀ d ∈ before, opensAuthor env Db.empty d = true → pubkeyHex d.event ∈ state.db.users.keys
  seen : ∀ author ∈ state.seenAuthors, author ∈ state.db.users.keys

/-- The single-event path and the batch after the same events. -/
structure Sim (start : Db) (before : List Delivery) (db : Db) (state : BatchState) : Prop
    extends Held env start before state where
  posts : db.posts = writes state.db.posts (held env before)
  ledgers : ledgers db = ledgers state.db
  users : Table.Alike db.users (withMe env (pending env db (heldNotes env before)) state.db.users)
  notifications : Table.Alike db.notifications (putAll env db state.db.notifications (heldNotes env before))

theorem held_visible (events : List Delivery) : ∀ new ∈ held env events, new.isDeleted = false := by
  intro new member
  obtain ⟨row, found, rfl⟩ := List.mem_map.mp member
  obtain ⟨d, -, deferred⟩ := List.mem_filterMap.mp found
  unfold deferredRow at deferred
  split at deferred
  · unfold postRow at deferred
    dsimp only at deferred
    split at deferred
    · cases deferred
    · rw [← Option.some.inj deferred]
      rfl
  · cases deferred

theorem batchLoop_snoc (db : Db) (events : List Delivery) (d : Delivery) :
    batchLoop env db (events ++ [d]) = batchStep env (batchLoop env db events) events.length d := by
  simp [batchLoop, List.zipIdx_append]

/-- The store that a batch goes on with after it held a row back. -/
def heldBack (state : BatchState) (d : Delivery) : Db :=
  let db := if pubkeyHex d.event ∈ state.seenAuthors then state.db else ensureAuthorUser state.db d
  if kindOf d.event = .textNote then db.upsertHashtags (hashtagRows env d) else db

theorem heldBack_frame (state : BatchState) (d : Delivery) :
    (heldBack env state d).posts = state.db.posts ∧ ledgers (heldBack env state d) = ledgers state.db ∧
      (heldBack env state d).notifications = state.db.notifications := by
  unfold heldBack
  dsimp only
  split_ifs
  · exact ⟨upsertHashtags_posts _ _, upsertHashtags_ledgers _ _, upsertHashtags_notifications _ _⟩
  · exact ⟨upsertHashtags_posts _ _, upsertHashtags_ledgers _ _, upsertHashtags_notifications _ _⟩
  · exact ⟨rfl, rfl, rfl⟩
  · exact ⟨rfl, rfl, rfl⟩

theorem heldBack_users {state : BatchState} {d : Delivery}
    (seen : ∀ author ∈ state.seenAuthors, author ∈ state.db.users.keys) :
    (heldBack env state d).users = opened state.db.users d (some (authorRow d)) := by
  have author : (if pubkeyHex d.event ∈ state.seenAuthors then state.db else ensureAuthorUser state.db d).users =
      opened state.db.users d (some (authorRow d)) := by
    split
    · rename_i known
      exact (Table.insertIgnore_of_mem _ (seen _ known)).symm
    · rfl
  unfold heldBack
  dsimp only
  split
  · rw [upsertHashtags_users, author]
  · exact author

/-! ## One event -/

section Step

variable {env} {start db : Db} {before : List Delivery} {d : Delivery} {state : BatchState}

theorem Sim.keys (sim : Sim env start before db state) {id : String} :
    id ∈ db.posts.keys ↔ (∃ new ∈ held env before, id = new.id) ∨ id ∈ start.posts.keys := by
  rw [sim.posts, mem_keys_writes, sim.flagged.keys]

theorem Sim.ownPost (sim : Sim env start before db state) {target : String} {row : String × StoredPost}
    (member : row ∈ db.posts.rows) (spelled : spells target row.1) (own : mine env row.2 = true) :
    OwnPost env start before target := by
  have found : db.posts.find? row.1 = some row.2 := Table.find?_eq_some.mpr member
  rw [sim.posts] at found
  rcases author_writes found with ⟨old, stored, author⟩ | ⟨new, held, key, author⟩
  · obtain ⟨f, same, flags⟩ := sim.flagged
    rw [same, Table.find?_modify] at stored
    obtain ⟨first, began, rfl⟩ := Option.map_eq_some_iff.mp stored
    refine .inl ⟨(row.1, first), Table.find?_eq_some.mp began, spelled, ?_⟩
    rw [mine, author, (flags row.1 first).sameRecord.1] at own
    exact own
  · refine .inr ⟨new, held, key ▸ spelled, ?_⟩
    rw [mine, author] at own
    exact own

theorem Sim.addresses (sim : Sim env start before db state) {note : Delivery × PostRow}
    (noticed : (noteRow env db note.1 note.2).isSome = true) : Addresses env start before note := by
  rw [isSome_noteRow] at noticed
  obtain ⟨type, asked, -⟩ := (Option.any_eq_true _ _).mp noticed
  unfold Addresses parentOf
  unfold noteNotice at asked
  cases own : authoredByMe env note.1.event with
  | true => simp [own] at asked
  | false =>
    refine ⟨rfl, ?_⟩
    cases tagged : hasPTag note.1.event env.myPubkey with
    | true => exact .inl rfl
    | false =>
      simp only [own, tagged, Bool.and_false, Bool.false_eq_true, if_false, Bool.or_false] at asked ⊢
      split at asked
      · rename_i replies
        obtain ⟨target, found, targets⟩ := (Option.any_eq_true _ _).mp replies
        refine .inr ⟨target, found, ?_⟩
        rw [targetsMe_eq] at targets
        obtain ⟨row, selected, mineRow⟩ := (Option.any_eq_true _ _).mp targets
        have visible := List.find?_some selected
        simp only [visibleAs, decide_eq_true_eq] at visible
        exact sim.ownPost (List.mem_of_find?_eq_some selected) visible.1 mineRow
      · cases asked

theorem Sim.apart (sim : Sim env start before db state) (safe : StepSafe env start before d)
    (waits : pending env db (heldNotes env before) = true) :
    normKey env.myPubkey ∈ state.db.users.keys ∨ LeavesMe env d := by
  obtain ⟨note, member, noticed⟩ := List.any_eq_true.mp waits
  rcases safe.me ⟨note, member, sim.addresses noticed⟩ with (stored | ⟨own, member, key, opens⟩) | leaves
  · exact .inl (sim.kept _ stored)
  · exact .inl (key ▸ sim.authors own member opens)
  · exact .inr leaves

theorem held_spelled {events : List Delivery} : ∀ new ∈ held env events, normKey new.id = new.id := by
  intro new member
  obtain ⟨row, -, rfl⟩ := List.mem_map.mp member
  exact normKey_normKey row.id

theorem spells_unique {target one two : String} (first : normKey one = one) (second : normKey two = two)
    (spelled : spells target one) (spelled' : spells target two) : one = two := by
  have lower : ∀ key, normKey key = key → toAsciiLowercase key = key := fun key normal => by
    rw [← normal, toAsciiLowercase_normKey]
  rw [← lower one first, ← lower two second, show toAsciiLowercase one = _ from spelled,
    show toAsciiLowercase two = _ from spelled']

section

variable (sim : Sim env start before db state) (safe : StepSafe env start before d)
include sim safe

theorem Sim.notes_direct (direct : isDirect d.event = true) : ∀ note ∈ heldNotes env before,
      noteRow env (applied env db d) note.1 note.2 = noteRow env db note.1 note.2 := by
  intro note member
  refine noteRow_congr env fun target parent => ?_
  have posts := applied_directPosts env db d direct
  unfold directPosts at posts
  split at posts
  · rename_i kind
    refine targetsMe_tombstone env posts fun id named spelled => ?_
    obtain ⟨foreign, normal⟩ := safe.parentDeletion kind note member target parent id named spelled
    have spelling : ∀ key ∈ db.posts.keys, spells target key → normKey key = key := by
      intro key stored named
      rcases sim.keys.mp stored with ⟨new, found, rfl⟩ | began
      · exact held_spelled new found
      · exact normal key began named
    rw [normKey_pubkeyHex]
    exact ⟨foreign, fun one first two second spelledOne spelledTwo =>
      spells_unique (spelling one first spelledOne) (spelling two second spelledTwo) spelledOne spelledTwo⟩
  · cases tag : firstETag d.event with
    | none =>
      rw [tag] at posts
      exact congrFun (targetsMe_congr env posts) target
    | some reposted =>
      rw [tag, Option.elim_some] at posts
      split at posts
      · exact congrFun (targetsMe_congr env posts) target
      · refine targetsMe_modify env posts (fun id post => ?_) fun id post _ => ?_
        · exact (flagsOf_counted (normKey reposted) id post).sameRecord.1
        · unfold counted
          split <;> rfl
  · exact congrFun (targetsMe_congr env posts) target

theorem Sim.targets {target : String} (aims : kindOf d.event = .reaction ∨ kindOf d.event = .repost)
    (tag : firstETag d.event = some target) :
    targetsMe env db target = targetsMe env state.db target := by
  refine targetsMe_writes env state.db sim.posts (held_visible env before) fun new member spelled => ?_
  rw [sim.flagged.keys]
  exact safe.target aims target tag new member spelled

theorem Sim.bound (kind : kindOf d.event = .zapReceipt)
    : receiptBound env db d.event = receiptBound env state.db d.event := by
  refine receiptBound_writes env sim.posts fun claim claimed => ?_
  exact (safe.receipt kind claim claimed).flagged (onRecord_requests claim.note) sim.flagged

theorem Sim.directNotice_eq : directNotice env db d = directNotice env state.db d := by
  unfold directNotice
  cases kind : kindOf d.event with
  | contactList =>
    have follows : storedFollows db (pubkeyHex d.event) = storedFollows state.db (pubkeyHex d.event) :=
      (listed_alike env sim.users fun waits =>
        (sim.apart safe waits).imp_right fun leaves => ⟨leaves.1, leaves.2 kind⟩).2
    dsimp only
    rw [newlyFollowsMe, newlyFollowsMe, follows]
  | zapReceipt =>
    dsimp only
    rw [sim.bound safe kind]
  | reaction =>
    dsimp only
    cases tag : firstETag d.event with
    | none => rfl
    | some target => rw [Option.bind_some, Option.bind_some, sim.targets safe (.inl kind) tag]
  | repost =>
    dsimp only
    cases tag : firstETag d.event with
    | none => rfl
    | some target => rw [Option.bind_some, Option.bind_some, sim.targets safe (.inr kind) tag]
  | _ => rfl

theorem Sim.openingRow_eq : openingRow env db d = openingRow env state.db d := by
  unfold openingRow
  cases kind : kindOf d.event with
  | zapReceipt =>
    dsimp only
    rw [sim.bound safe kind]
  | _ => rfl

theorem Sim.posts_direct (direct : isDirect d.event = true) :
    (applied env db d).posts = writes (applied env state.db d).posts (held env before) := by
  have reposts : db.reposts = state.db.reposts := (Prod.mk.inj sim.ledgers).2
  rw [applied_directPosts env db d direct, applied_directPosts env state.db d direct, sim.posts, reposts]
  unfold directPosts
  cases kind : kindOf d.event with
  | eventDeletion =>
    exact (writes_tombstone ((safe.deletion kind).flagged (onRecord_marks d.event) sim.flagged)).symm
  | repost =>
    dsimp only
    cases tag : firstETag d.event with
    | none => rfl
    | some target =>
      dsimp only [Option.elim_some]
      split
      · rfl
      · refine (writes_counted fun new member same => ?_).symm
        rw [sim.flagged.keys]
        exact safe.repost kind target tag new member same
  | _ => rfl

end

theorem mem_keys_applied {u : String}
    (present : u ∈ db.users.keys ∨ (u = pubkeyHex d.event ∧ opensAuthor env db d = true)) :
    u ∈ (applied env db d).users.keys := by
  have grown : ∀ {after : Table String UserRow}, Grows db.users after (ensured env db d) → u ∈ after.keys := by
    intro after grows
    rw [mem_keys_iff_countOf, grows.counts]
    rcases present with stored | ⟨rfl, opens⟩
    · obtain ⟨n, found⟩ := mem_keys_iff_countOf.mp stored
      exact ⟨n, by rw [found, Option.some_or]⟩
    · have member : pubkeyHex d.event ∈ ensured env db d := by simp [ensured, opens]
      rw [if_pos member]
      cases countOf db.users (pubkeyHex d.event) with
      | none => exact ⟨0, rfl⟩
      | some n => exact ⟨n, rfl⟩
  by_cases contactList : kindOf d.event = .contactList
  · have same : applied env db d = handleContactList env db d := by simp only [applied, contactList]
    rw [same, handleContactList_users]
    apply mem_keys_withMe
    rw [mem_keys_iff_countOf, countOf_listed]
    rcases present with stored | ⟨rfl, -⟩
    · obtain ⟨n, found⟩ := mem_keys_iff_countOf.mp stored
      rw [found, Option.some_or]
      exact ⟨_, rfl⟩
    · rw [if_pos rfl]
      cases countOf db.users (pubkeyHex d.event) with
      | none => exact ⟨_, rfl⟩
      | some n => exact ⟨_, rfl⟩
  · by_cases metadata : kindOf d.event = .metadata
    · have same : applied env db d = handleMetadata env db d := by simp only [applied, metadata]
      rw [same]
      exact grown (grows_metadata env db d metadata)
    · exact grown (grows_other env db d metadata contactList)

theorem opensAuthor_of_empty (opens : opensAuthor env Db.empty d = true) : opensAuthor env db d = true := by
  have same : kindOf d.event ≠ .zapReceipt → opensAuthor env Db.empty d = opensAuthor env db d := by
    intro receipt
    unfold opensAuthor openingRow
    cases kind : kindOf d.event with
    | zapReceipt => exact absurd kind receipt
    | _ => rfl
  by_cases receipt : kindOf d.event = .zapReceipt
  · -- no request is stored in the empty store
    have unbound : receiptBound env Db.empty d.event = false := by
      simp [receiptBound, Db.getZapRequestsForNote, Db.empty, Table.empty]
    simp [opensAuthor, openingRow, receipt, unbound] at opens
  · rwa [← same receipt]

theorem heldNotes_snoc (events : List Delivery) (d : Delivery) :
    heldNotes env (events ++ [d]) = heldNotes env events ++
      (if kindOf d.event = .textNote then (deferredRow env d).map (d, ·) else none).toList := by
  simp only [heldNotes, List.filterMap_append]
  cases found : if kindOf d.event = .textNote then (deferredRow env d).map (d, ·) else none <;> simp [found]

theorem heldRows_snoc (events : List Delivery) (d : Delivery) :
    heldRows env (events ++ [d]) = heldRows env events ++ (deferredRow env d).toList := by
  simp only [heldRows, List.filterMap_append]
  cases found : deferredRow env d <;> simp [found]

theorem deferredRow_direct (direct : isDirect d.event = true) : deferredRow env d = none :=
  if_neg fun h => by simp [direct] at h

theorem held_skip (before : List Delivery) (none : deferredRow env d = none) :
    heldRows env (before ++ [d]) = heldRows env before ∧ heldNotes env (before ++ [d]) = heldNotes env before := by
  constructor
  · rw [heldRows_snoc, none, Option.toList_none, List.append_nil]
  · rw [heldNotes_snoc, none, Option.map_none, ite_self, Option.toList_none, List.append_nil]

theorem Held.direct (facts : Held env start before state) (direct : isDirect d.event = true) (okPos : List Nat) :
    Held env start (before ++ [d]) { state with db := applied env state.db d, okPos } where
  rows := facts.rows.trans (held_skip before (deferredRow_direct direct)).1.symm
  notes := facts.notes.trans (held_skip before (deferredRow_direct direct)).2.symm
  flagged := by
    rw [applied_directPosts env state.db d direct]
    exact facts.flagged.trans (flagged_directPosts _ d _)
  kept u stored := mem_keys_applied (.inl (facts.kept u stored))
  authors d' member opens := by
    rcases List.mem_append.mp member with earlier | last
    · exact mem_keys_applied (.inl (facts.authors d' earlier opens))
    · rw [List.mem_singleton.mp last] at opens ⊢
      exact mem_keys_applied (.inr ⟨rfl, opensAuthor_of_empty opens⟩)
  seen author known := mem_keys_applied (.inl (facts.seen author known))

theorem Sim.direct (sim : Sim env start before db state) (safe : StepSafe env start before d)
    (direct : isDirect d.event = true) (okPos : List Nat) :
    Sim env start (before ++ [d]) (applied env db d) { state with db := applied env state.db d, okPos } := by
  have none : deferredRow env d = none := deferredRow_direct direct
  obtain ⟨rows, notes⟩ := held_skip before none
  have decided := sim.notes_direct safe direct
  refine ⟨sim.toHeld.direct direct okPos, ?_, ?_, ?_, ?_⟩
  · rw [held, rows]
    exact sim.posts_direct safe direct
  · exact applied_ledgers_congr env sim.ledgers (sim.bound safe)
  · rw [notes, pending_congr env decided]
    exact applied_users_alike env direct sim.users (sim.apart safe) (sim.directNotice_eq safe) (sim.openingRow_eq safe)
  · rw [notes, putAll_congr env decided, applied_notifications env db d direct,
      applied_notifications env state.db d direct, ← sim.directNotice_eq safe]
    exact (put_alike sim.notifications _).trans (putAll_put env db db d _ _).symm

/-- The text note that an event with this row is, if it is one. -/
def noteOf (d : Delivery) (row : PostRow) : List (Delivery × PostRow) :=
  if kindOf d.event = .textNote then [(d, row)] else []

theorem kinds_deferred (deferred : isDirect d.event = false) :
    kindOf d.event = .textNote ∨ kindOf d.event = .zapRequest ∨ kindOf d.event = .other := by
  unfold isDirect at deferred
  cases kind : kindOf d.event <;> simp [kind] at deferred ⊢

theorem applied_of_none (deferred : isDirect d.event = false) (none : deferredRow env d = none) :
    applied env db d = db := by
  have rowless : d.event.kind.toNat ∈ postKindAllowlist → storableRow env d = Option.none := by
    intro allowed
    unfold storableRow
    rw [deferredRow, if_pos ⟨deferred, allowed⟩] at none
    rw [none, Option.filter_none]
  unfold applied storedPost
  rcases kinds_deferred deferred with kind | kind | kind
  · simp only [kind, rowless (kindOf_allowed (.inl kind))]
  · simp only [kind, rowless (kindOf_allowed (.inr kind))]
  · simp only [kind]
    split
    · rename_i allowed
      rw [rowless allowed]
    · rfl

theorem storableRow_of_deferred {row : PostRow} (found : deferredRow env d = some row)
    (sized : rowTooBig row.content row.tagsJson = false) : storableRow env d = some row ∧ IsPost d.event := by
  unfold deferredRow at found
  split at found
  · rename_i isPost
    rw [storableRow, found, Option.filter_some, sized]
    exact ⟨rfl, isPost⟩
  · cases found

theorem applied_deferred (db : Db) {row : PostRow} (isPost : IsPost d.event) (found : storableRow env d = some row) :
    (applied env db d).posts = write db.posts (row.toStored env.listingCategory) ∧
      (applied env db d).notifications = putAll env (applied env db d) db.notifications (noteOf d row) ∧
      (applied env db d).users =
        withMe env (pending env (applied env db d) (noteOf d row)) (opened db.users d (some (authorRow d))) := by
  have id : (row.toStored env.listingCategory).id = idHex d.event := by
    simp [PostRow.toStored, PostRow.withKeys, (storableRow_keys env found).1]
  have metadata : kindOf d.event ≠ .metadata := fun kind => by simp [IsPost, isDirect, kind] at isPost
  have contactList : kindOf d.event ≠ .contactList := fun kind => by simp [IsPost, isDirect, kind] at isPost
  have posts : (applied env db d).posts = write db.posts (row.toStored env.listingCategory) := by
    cases applied_posts env db d with
    | marks kind => simp [IsPost, isDirect, kind] at isPost
    | recounts kind missing => simp [missing isPost] at found
    | writes row' isPost' found' same =>
      obtain rfl : row = row' := Option.some.inj (found.symm.trans found')
      rw [same, write, id]
  have opening : openingRow env db d = some (authorRow d) := by
    unfold openingRow
    rcases kinds_deferred isPost.1 with kind | kind | kind
    · simp only [kind, found, Option.map_some]
    · simp only [kind, found, Option.map_some]
    · simp only [kind, found, Option.map_some, isPost.2, if_true]
  have users := applied_users env db d metadata contactList
  rw [opening] at users
  refine ⟨posts, ?_⟩
  by_cases note : kindOf d.event = .textNote
  · -- the note is decided on the posts that hold it
    have same : applied env db d = maybeNotifyTextNote env
        ((written env db d row).upsertHashtags (hashtagRows env d)) d row := by
      simp only [applied, note, storedPost, found]
    have decided : noteRow env ((written env db d row).upsertHashtags (hashtagRows env d)) d row =
        noteRow env (applied env db d) d row := by
      refine noteRow_congr env fun target _ => congrFun (targetsMe_congr env ?_) target
      rw [same, maybeNotifyTextNote_posts]
    have stored : noteRow env (written env db d row) d row = noteRow env (applied env db d) d row := by
      rw [← decided]
      refine noteRow_congr env fun target _ => congrFun (targetsMe_congr env ?_) target
      rw [upsertHashtags_posts]
    have asked : noticed env db d = (noteRow env (applied env db d) d row).isSome := by
      rw [← stored, isSome_noteRow]
      simp only [noticed, note, found, Option.any_some]
    rw [noteOf, if_pos note]
    constructor
    · have shown := maybeNotifyTextNote_notifications env ((written env db d row).upsertHashtags (hashtagRows env d)) d row
      rw [← same, decided, upsertHashtags_notifications] at shown
      rw [putAll_cons, shown]
      rfl
    · rw [users, asked, pending, List.any_cons, List.any_nil, Bool.or_false]
  · have same : applied env db d = written env db d row := by
      rcases kinds_deferred isPost.1 with kind | kind | kind
      · exact absurd kind note
      · simp only [applied, kind, storedPost, found]
      · simp only [applied, kind, storedPost, found, isPost.2, if_true]
    have silent : noticed env db d = false := by
      unfold noticed
      rcases kinds_deferred isPost.1 with kind | kind | kind
      · exact absurd kind note
      · rw [kind]
      · rw [kind]
    rw [noteOf, if_neg note]
    constructor
    · rw [same]
      rfl
    · rw [users, silent]
      rfl

theorem Sim.notes_deferred (sim : Sim env start before db state) (safe : StepSafe env start before d) {row : PostRow}
    (found : deferredRow env d = some row)
    (posts : (applied env db d).posts = write db.posts (row.toStored env.listingCategory)) :
    ∀ note ∈ heldNotes env before, noteRow env (applied env db d) note.1 note.2 = noteRow env db note.1 note.2 := by
  intro note member
  refine noteRow_congr env fun target parent => targetsMe_write env posts ?_ fun spelled => ?_
  · refine held_visible env [d] _ ?_
    simp [held, heldRows, found]
  · rcases safe.parent note member target parent row found spelled with stored | ⟨new, earlier, same⟩ | other
    · exact .inl (sim.keys.mpr (.inr stored))
    · exact .inl (sim.keys.mpr (.inl ⟨new, earlier, same⟩))
    · exact .inr other

theorem held_deferred (before : List Delivery) {row : PostRow} (found : deferredRow env d = some row) :
    heldRows env (before ++ [d]) = heldRows env before ++ [row] ∧
      heldNotes env (before ++ [d]) = heldNotes env before ++ noteOf d row := by
  constructor
  · rw [heldRows_snoc, found]
    rfl
  · rw [heldNotes_snoc, found, noteOf]
    split <;> rfl

theorem Held.deferred (facts : Held env start before state) {row : PostRow} (found : deferredRow env d = some row)
    (okPos : List Nat) :
    Held env start (before ++ [d]) {
      db := heldBack env state d
      rows := state.rows ++ [row]
      okPos
      notifyQueue := state.notifyQueue ++ noteOf d row
      seenAuthors := pubkeyHex d.event :: state.seenAuthors } := by
  have users : (heldBack env state d).users = opened state.db.users d (some (authorRow d)) :=
    heldBack_users env facts.seen
  have grows : ∀ u ∈ state.db.users.keys, u ∈ (heldBack env state d).users.keys := fun u stored => by
    rw [users]
    exact Table.mem_keys_insertIgnore.mpr (.inr stored)
  have author : pubkeyHex d.event ∈ (heldBack env state d).users.keys := by
    rw [users]
    exact Table.mem_keys_insertIgnore.mpr (.inl rfl)
  constructor
  · rw [(held_deferred before found).1, facts.rows]
  · rw [(held_deferred before found).2, facts.notes]
  · rw [(heldBack_frame env state d).1]
    exact facts.flagged
  · exact fun u stored => grows u (facts.kept u stored)
  · intro d' member opens
    rcases List.mem_append.mp member with earlier | last
    · exact grows _ (facts.authors d' earlier opens)
    · rw [List.mem_singleton.mp last]
      exact author
  · intro known member
    rcases List.mem_cons.mp member with rfl | earlier
    · exact author
    · exact grows known (facts.seen known earlier)

theorem Sim.deferred (sim : Sim env start before db state) (safe : StepSafe env start before d) {row : PostRow}
    (found : deferredRow env d = some row) (okPos : List Nat) :
    Sim env start (before ++ [d]) (applied env db d) {
      db := heldBack env state d
      rows := state.rows ++ [row]
      okPos
      notifyQueue := state.notifyQueue ++ noteOf d row
      seenAuthors := pubkeyHex d.event :: state.seenAuthors } := by
  obtain ⟨storable, isPost⟩ := storableRow_of_deferred found (safe.sized row found)
  obtain ⟨posts, notifications, users⟩ := applied_deferred db isPost storable
  obtain ⟨batchPosts, batchLedgers, batchNotifications⟩ := heldBack_frame env state d
  obtain ⟨rows, notes⟩ := held_deferred before found
  have decided := sim.notes_deferred safe found posts
  have receipt : kindOf d.event ≠ .zapReceipt := fun kind => by simp [IsPost, isDirect, kind] at isPost
  have repost : kindOf d.event ≠ .repost := fun kind => by simp [IsPost, isDirect, kind] at isPost
  refine ⟨sim.toHeld.deferred found okPos, ?_, ?_, ?_, ?_⟩
  · rw [posts, held, rows, List.map_append, List.map_singleton, writes_snoc, batchPosts, sim.posts, held]
  · rw [applied_ledgers env db d receipt repost, batchLedgers, sim.ledgers]
  · have waits : pending env (applied env db d) (heldNotes env before ++ noteOf d row) =
        (pending env db (heldNotes env before) || pending env (applied env db d) (noteOf d row)) := by
      rw [← pending_congr env decided, pending, List.any_append, pending, pending]
    rw [users, notes, waits, withMe_or, heldBack_users env sim.seen]
    exact Alike.withMe env
      (opened_alike env sim.users (fun waits => (sim.apart safe waits).imp_right And.left) _) _
  · rw [notes, notifications, batchNotifications, putAll_append, putAll_congr env decided]
    exact putAll_alike env sim.notifications (applied env db d) (noteOf d row)

theorem opensAuthor_deferred (deferred : isDirect d.event = false) :
    opensAuthor env db d = (if d.event.kind.toNat ∈ postKindAllowlist then storableRow env d else none).isSome := by
  unfold opensAuthor openingRow
  rcases kinds_deferred deferred with kind | kind | kind
  · simp only [kind, Option.isSome_map, kindOf_allowed (.inl kind), if_true]
  · simp only [kind, Option.isSome_map, kindOf_allowed (.inr kind), if_true]
  · simp only [kind]
    split <;> simp

theorem Held.skip (facts : Held env start before state) (deferred : isDirect d.event = false)
    (none : deferredRow env d = none) : Held env start (before ++ [d]) state := by
  obtain ⟨rows, notes⟩ := held_skip before none
  have closed : opensAuthor env Db.empty d = false := by
    rw [opensAuthor_deferred deferred]
    split
    · rename_i allowed
      rw [deferredRow, if_pos ⟨deferred, allowed⟩] at none
      rw [storableRow, none]
      rfl
    · rfl
  refine ⟨facts.rows.trans rows.symm, facts.notes.trans notes.symm, facts.flagged, facts.kept, ?_, facts.seen⟩
  intro d' member opens
  rcases List.mem_append.mp member with earlier | last
  · exact facts.authors d' earlier opens
  · rw [List.mem_singleton.mp last, closed] at opens
    cases opens

theorem Sim.skip (sim : Sim env start before db state) (deferred : isDirect d.event = false)
    (none : deferredRow env d = none) : Sim env start (before ++ [d]) db state := by
  obtain ⟨rows, notes⟩ := held_skip before none
  refine ⟨sim.toHeld.skip deferred none, ?_, sim.ledgers, ?_, ?_⟩
  · rw [held, rows]
    exact sim.posts
  · rw [notes]
    exact sim.users
  · rw [notes]
    exact sim.notifications

end Step

/-! ## Whole batches -/

theorem held_start (start : Db) : Held env start [] { db := start } where
  rows := rfl
  notes := rfl
  flagged := .refl start.posts
  kept _ stored := stored
  authors _ member := absurd member List.not_mem_nil
  seen _ member := absurd member List.not_mem_nil

theorem batchStep_verified (state : BatchState) (pos : Nat) {d : Delivery}
    (verified : d.event.verify env.prims = true) :
    ∃ okPos, batchStep env state pos d =
      if isDirect d.event then { state with db := applied env state.db d, okPos }
      else match deferredRow env d with
        | none => state
        | some row => {
            db := heldBack env state d
            rows := state.rows ++ [row]
            okPos
            notifyQueue := state.notifyQueue ++ noteOf d row
            seenAuthors := pubkeyHex d.event :: state.seenAuthors } := by
  unfold batchStep
  rw [verified]
  cases direct : isDirect d.event with
  | true =>
    simp only [Bool.not_true, Bool.false_eq_true, if_false, if_true, handleImpl_direct env state.db d direct]
    split
    · exact ⟨_, rfl⟩
    · exact ⟨_, rfl⟩
  | false =>
    simp only [Bool.not_true, Bool.false_eq_true, if_false, deferredRow, direct, true_and]
    by_cases allowed : d.event.kind.toNat ∈ postKindAllowlist
    · simp only [allowed, if_true]
      cases postRow env d with
      | none => exact ⟨[], rfl⟩
      | some row =>
        refine ⟨state.okPos ++ [pos], ?_⟩
        dsimp only [heldBack]
        rw [noteOf]
        split <;> simp
    · simp only [allowed, if_false]
      exact ⟨[], trivial⟩

theorem Sim.step {start db : Db} {before : List Delivery} {d : Delivery} {state : BatchState}
    (sim : Sim env start before db state) (safe : StepSafe env start before d)
    (verified : d.event.verify env.prims = true) (pos : Nat) :
    Sim env start (before ++ [d]) (applied env db d) (batchStep env state pos d) := by
  obtain ⟨okPos, step⟩ := batchStep_verified env state pos verified
  rw [step]
  cases direct : isDirect d.event with
  | true => exact sim.direct safe direct okPos
  | false =>
    cases found : deferredRow env d with
    | some row => exact sim.deferred safe found okPos
    | none =>
      -- the event has no row: both paths leave everything as it is
      rw [applied_of_none direct found]
      exact sim.skip direct found

theorem Held.step {start : Db} {before : List Delivery} {d : Delivery} {state : BatchState}
    (facts : Held env start before state) (verified : d.event.verify env.prims = true) (pos : Nat) :
    Held env start (before ++ [d]) (batchStep env state pos d) := by
  obtain ⟨okPos, step⟩ := batchStep_verified env state pos verified
  rw [step]
  cases direct : isDirect d.event with
  | true => exact facts.direct direct okPos
  | false =>
    cases found : deferredRow env d with
    | some row => exact facts.deferred found okPos
    | none => exact facts.skip direct found

theorem held_run {start : Db} {events : List Delivery} (verified : ∀ d ∈ events, d.event.verify env.prims = true) :
    Held env start events (batchLoop env start events) := by
  induction events using List.reverseRecOn with
  | nil => exact held_start env start
  | append_singleton before d ih =>
    rw [batchLoop_snoc]
    exact (ih fun d' member => verified d' (List.mem_append_left _ member)).step env (verified d (by simp)) _

theorem sim_run {start : Db} {events : List Delivery} (verified : ∀ d ∈ events, d.event.verify env.prims = true)
    (safe : BatchSafe env start events) :
    Sim env start events (ingestAll env start events) (batchLoop env start events) := by
  -- Induction from the end: both paths have handled the same events, and the next one keeps them in step.
  induction events using List.reverseRecOn with
  | nil => exact ⟨held_start env start, rfl, rfl, .refl start.users, .refl start.notifications⟩
  | append_singleton before d ih =>
    have past : BatchSafe env start before := by
      rintro first d' rest rfl
      exact safe first d' (rest ++ [d]) (by simp)
    have sim := ih (fun d' member => verified d' (List.mem_append_left _ member)) past
    have last := verified d (by simp)
    rw [ingestAll_snoc, handle_verified env _ last, batchLoop_snoc]
    exact sim.step env (safe before d [] rfl) last _

/-- The same rows of the tables that both paths write: posts with their flags, zaps, notifications, and users
with their contacts. -/
structure SameRows (first second : Db) : Prop where
  posts : Table.Alike first.posts second.posts
  zaps : Table.Alike first.zaps second.zaps
  notifications : Table.Alike first.notifications second.notifications
  users : Table.Alike first.users second.users

theorem upsertPosts_frame {db : Db} {rows : List PostRow}
    (sized : ∀ row ∈ rows, rowTooBig row.content row.tagsJson = false)
    (authors : ∀ row ∈ rows, normKey row.pubkey ∈ db.users.keys) :
    (db.upsertPosts env.listingCategory rows).posts = writes db.posts (rows.map (PostRow.toStored env.listingCategory)) ∧
      (db.upsertPosts env.listingCategory rows).users = db.users ∧
      ledgers (db.upsertPosts env.listingCategory rows) = ledgers db ∧
      (db.upsertPosts env.listingCategory rows).notifications = db.notifications := by
  induction rows generalizing db with
  | nil => exact ⟨rfl, rfl, rfl, rfl⟩
  | cons row rest ih =>
    have users := writePost_users env (authors row (List.mem_cons_self ..))
    have first : db.upsertPostOrSkip env.listingCategory row = db.writePost env.listingCategory row := by
      rw [Db.upsertPostOrSkip, sized row (List.mem_cons_self ..), if_neg Bool.false_ne_true]
    have tail := ih (fun next member => sized next (List.mem_cons_of_mem _ member)) fun next member => by
      rw [users]
      exact authors next (List.mem_cons_of_mem _ member)
    simp only [Db.upsertPosts, List.foldl_cons, first] at tail ⊢
    obtain ⟨posts', users', ledgers', notifications'⟩ := tail
    exact ⟨posts', users'.trans users, ledgers', notifications'⟩

theorem finishNotes_frame {db shown : Db} (posts : db.posts = shown.posts) (notes : List (Delivery × PostRow)) :
    (notes.foldl (fun db note => maybeNotifyTextNote env db note.1 note.2) db).posts = db.posts ∧
      (notes.foldl (fun db note => maybeNotifyTextNote env db note.1 note.2) db).users =
        withMe env (pending env shown notes) db.users ∧
      ledgers (notes.foldl (fun db note => maybeNotifyTextNote env db note.1 note.2) db) = ledgers db ∧
      (notes.foldl (fun db note => maybeNotifyTextNote env db note.1 note.2) db).notifications =
        putAll env shown db.notifications notes := by
  induction notes generalizing db with
  | nil => exact ⟨rfl, rfl, rfl, rfl⟩
  | cons note rest ih =>
    -- A notification writes no post, so the later notes are decided on the same posts.
    have decided : noteRow env db note.1 note.2 = noteRow env shown note.1 note.2 :=
      noteRow_congr env fun target _ => congrFun (targetsMe_congr env posts) target
    have asked : (noteNotice env db note.1 note.2).any (notices env note.1 · note.2.content) =
        (noteRow env shown note.1 note.2).isSome := by rw [← decided, isSome_noteRow]
    obtain ⟨posts', users', ledgers', notifications'⟩ :=
      @ih (maybeNotifyTextNote env db note.1 note.2) (by rw [maybeNotifyTextNote_posts, posts])
    simp only [List.foldl_cons]
    refine ⟨posts'.trans (maybeNotifyTextNote_posts env db _ _), ?_, ?_, ?_⟩
    · rw [users', maybeNotifyTextNote_users, asked, ← withMe_or, pending, pending, List.any_cons]
    · rw [ledgers', maybeNotifyTextNote_ledgers]
    · rw [notifications', maybeNotifyTextNote_notifications, decided, putAll_cons]

theorem heldRows_sized {start : Db} {events : List Delivery} (safe : BatchSafe env start events) :
    ∀ row ∈ heldRows env events, rowTooBig row.content row.tagsJson = false := by
  intro row member
  obtain ⟨d, found, deferred⟩ := List.mem_filterMap.mp member
  obtain ⟨before, after, rfl⟩ := List.append_of_mem found
  exact (safe before d after rfl).sized row deferred

theorem Held.rowAuthors {start : Db} {events : List Delivery} {state : BatchState} (facts : Held env start events state)
    (sized : ∀ row ∈ heldRows env events, rowTooBig row.content row.tagsJson = false) :
    ∀ row ∈ heldRows env events, normKey row.pubkey ∈ state.db.users.keys := by
  intro row member
  obtain ⟨d, found, deferred⟩ := List.mem_filterMap.mp member
  obtain ⟨storable, isPost⟩ := storableRow_of_deferred deferred (sized row member)
  rw [(storableRow_keys env storable).2, normKey_pubkeyHex]
  apply facts.authors d found
  rw [opensAuthor_deferred isPost.1, if_pos isPost.2, storable]
  rfl

theorem handleBatch_db (start : Db) (events : List Delivery) :
    (handleBatch env start events).2 = (batchLoop env start events).notifyQueue.foldl
      (fun db note => maybeNotifyTextNote env db note.1 note.2)
      ((batchLoop env start events).db.upsertPosts env.listingCategory (batchLoop env start events).rows) := by
  rw [handleBatch, batchFinish]

theorem handleBatch_posts (start : Db) {events : List Delivery}
    (verified : ∀ d ∈ events, d.event.verify env.prims = true)
    (sized : ∀ row ∈ heldRows env events, rowTooBig row.content row.tagsJson = false) :
    ∃ left, Flagged start.posts left ∧ (handleBatch env start events).2.posts = writes left (held env events) := by
  have facts : Held env start events (batchLoop env start events) := held_run env verified
  have authors := facts.rowAuthors env sized
  refine ⟨_, facts.flagged, ?_⟩
  rw [held, handleBatch_db]
  rw [← facts.rows] at sized authors ⊢
  obtain ⟨posts, -⟩ := upsertPosts_frame env sized authors
  obtain ⟨posts', -⟩ := finishNotes_frame env rfl (batchLoop env start events).notifyQueue
  exact posts'.trans posts

/-- A batch in which no event meets what is held back leaves the rows of the single-event path. -/
theorem batch_same_rows {start : Db} {events : List Delivery} (verified : ∀ d ∈ events, d.event.verify env.prims = true)
    (safe : BatchSafe env start events) :
    SameRows (handleBatch env start events).2 (ingestAll env start events) := by
  have sim := sim_run env verified safe
  have sized := heldRows_sized env safe
  have authors := sim.toHeld.rowAuthors env sized
  rw [← sim.rows] at sized authors
  obtain ⟨posts, users, ledger, notifications⟩ := upsertPosts_frame env sized authors
  have shown : ((batchLoop env start events).db.upsertPosts env.listingCategory (batchLoop env start events).rows).posts =
      (ingestAll env start events).posts := by
    rw [posts, sim.posts, sim.rows]
    rfl
  obtain ⟨posts', users', ledger', notifications'⟩ := finishNotes_frame env shown (batchLoop env start events).notifyQueue
  have singleNotifications := sim.notifications
  have singleUsers := sim.users
  rw [← sim.notes] at singleNotifications singleUsers
  have zaps := (Prod.mk.inj ((ledger'.trans ledger).trans sim.ledgers.symm)).1
  rw [handleBatch_db]
  constructor
  · intro id
    rw [posts', shown]
  · intro id
    rw [zaps]
  · intro id
    rw [notifications', notifications, singleNotifications]
  · intro u
    rw [users', users, singleUsers]

/-! ## A note and its deletion in one batch -/

section OneBatch

theorem verified_notes : ∀ d ∈ [deliver note, deliver noteDeletion], d.event.verify noteEnv.prims = true :=
  (genuine_notes (by simp [deliver])).verified

theorem batch_shows_note :
    ((handleBatch noteEnv Db.empty [deliver note, deliver noteDeletion]).2.posts.find? (idHex note)).any
      (fun row => row.isDeleted) = false := by
  obtain ⟨row, storable⟩ := Option.isSome_iff_exists.mp stores_note.2.2
  have fits : rowTooBig row.content row.tagsJson = false := by
    simpa using (Option.filter_eq_some_iff.mp storable).2
  have found : deferredRow noteEnv (deliver note) = some row := by
    rw [deferredRow]
    exact (if_pos stores_note.2.1).trans (Option.filter_eq_some_iff.mp storable).1
  have skipped : deferredRow noteEnv (deliver noteDeletion) = none := deferredRow_direct (by decide)
  have rows : heldRows noteEnv [deliver note, deliver noteDeletion] = [row] := by simp [heldRows, found, skipped]
  obtain ⟨left, flagged, posts⟩ := handleBatch_posts noteEnv Db.empty verified_notes
    (by rw [rows]; simpa using fits)
  have missing : left.find? (idHex note) = none := by
    rw [Table.find?_eq_none, flagged.keys]
    exact List.not_mem_nil
  have id : (row.toStored noteEnv.listingCategory).id = idHex note := by
    rw [← normKey_idHex note]
    exact congrArg normKey (storableRow_keys noteEnv storable).1
  have visible := held_visible noteEnv [deliver note, deliver noteDeletion]
  rw [posts]
  rw [held, rows] at visible ⊢
  rw [List.map_singleton, writes, List.foldl_cons, List.foldl_nil, write, id, Table.find?_upsert_self, missing]
  exact visible _ (by simp)

/-- The deletion is handled while the note is held back, and finds nothing to mark. -/
theorem deletion_misses_held_note :
    (∀ d ∈ [deliver note, deliver noteDeletion], d.event.verify noteEnv.prims = true) ∧
      ¬ SameRows (handleBatch noteEnv Db.empty [deliver note, deliver noteDeletion]).2
        (ingestAll noteEnv Db.empty [deliver note, deliver noteDeletion]) := by
  refine ⟨verified_notes, fun same => ?_⟩
  have genuine : GenuineRun noteEnv note [deliver note, deliver noteDeletion] := genuine_notes (by simp [deliver])
  have marked : Deleted (ingestAll noteEnv Db.empty [deliver note, deliver noteDeletion]) note :=
    (rowRun_ingestAll noteEnv genuine (owned_empty note)).deleted.mpr (.inr
      ⟨[deliver note], deliver noteDeletion, [], rfl, deletes_note, .inr ⟨deliver note, by simp, stores_note⟩⟩)
  rw [Deleted, rowOf, ← same.posts, batch_shows_note] at marked
  cases marked

/-- Bob's note is held back while the list that follows bob is handled. -/
theorem list_beside_held_note :
    SameRows (handleBatch bobEnv Db.empty [heardBob, heardOlder]).2
      (ingestAll bobEnv Db.empty [heardBob, heardOlder]) := by
  have verified : ∀ d ∈ [heardBob, heardOlder], d.event.verify bobEnv.prims = true := by
    simpa using ⟨verified_bob (.inr rfl), verified_bob (.inl rfl)⟩
  have fits : ∀ row ∈ deferredRow bobEnv heardBob,
      rowTooBig row.content row.tagsJson = false ∧ replyTarget row = none := by decide
  have unaddressed : ∀ note ∈ heldNotes bobEnv [heardBob], ¬ Addresses bobEnv Db.empty [heardBob] note := by
    intro note member addresses
    obtain ⟨d, listed, found⟩ := List.mem_filterMap.mp member
    rw [List.mem_singleton.mp listed, if_pos (by decide)] at found
    obtain ⟨row, deferred, rfl⟩ := Option.map_eq_some_iff.mp found
    rcases addresses.2 with tagged | ⟨target, parent, -⟩
    · exact absurd tagged (show ¬ hasPTag bobNote "" = true by decide)
    · rw [parentOf] at parent
      split at parent
      · cases parent
      · rw [(fits row deferred).2] at parent
        cases parent
  have safe : BatchSafe bobEnv Db.empty [heardBob, heardOlder] := by
    intro before d after split
    match before, split with
    | [], split =>
      obtain ⟨rfl, -⟩ := List.cons.inj split
      refine ⟨fun row found => (fits row found).1, fun kind => absurd kind (by decide),
        fun kind => absurd kind (by decide), fun kind => absurd kind (by decide), fun kind => absurd kind (by decide),
        fun _ member => absurd member List.not_mem_nil, fun kind => absurd kind (by decide), ?_⟩
      rintro ⟨_, member, -⟩
      exact absurd member List.not_mem_nil
    | [_], split =>
      obtain ⟨rfl, rest⟩ := List.cons.inj split
      obtain ⟨rfl, -⟩ := List.cons.inj rest
      have direct : deferredRow bobEnv heardOlder = none := deferredRow_direct (by decide)
      refine ⟨fun row found => ?_, fun kind => absurd kind (by decide),
        fun kind => absurd kind (by decide), fun kind => absurd kind (by decide), fun kind => absurd kind (by decide),
        fun _ _ _ _ row found => ?_, fun kind => absurd kind (by decide), ?_⟩
      · rw [direct] at found
        cases found
      · rw [direct] at found
        cases found
      · rintro ⟨note, member, addresses⟩
        exact absurd addresses (unaddressed note member)
    | _ :: _ :: rest, split => simp at split
  exact batch_same_rows bobEnv verified safe

end OneBatch

end Soshal.Sync
