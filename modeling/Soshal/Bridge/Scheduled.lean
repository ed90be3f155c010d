import Soshal.Bridge.Escrow
import Soshal.Db.Store
import Soshal.Library.Processes
import Soshal.Nostr.Event

/-! Scheduled drafts: the runs that sign, publish and promote what is due.

A run reads its batch once. Between this read and the two statements that promote a
draft it waits for the network, and other runs read, publish and promote meanwhile.
Whatever can fail fails when the input of the step says so.
-/

set_option autoImplicit false

namespace Soshal.Bridge.Scheduled

open Library
open Library.Processes (System Move)
open Library.Runs (run)
open Library.Text (byteLen hexEncode normKey startsWith toAsciiLowercase trim)
open Db (PostRow StoredPost)
open Bridge.Escrow (Key requireIdentity)
open Nostr (Event UnsignedEvent)

def scheduleBlockedRetrySecs : Int := 900

/-- The event, regex, moderation and JSON functions that a run calls. -/
structure Externals where
  /-- The verdict of `check_with_custom_words`. -/
  passes : String → List String → Bool
  /-- `hashtag::extract`. -/
  extract : String → List String
  readTags : String → Option (List (List String))
  writeTags : List (List String) → String
  /-- `Tag::parse`. -/
  parseTag : List String → Option (List String)
  eventId : UnsignedEvent → Vector UInt8 32
  /-- The first `t` tag, as the upsert extracts it for listings. -/
  listingCategory : String → Option String
  /-- What `serde_json` says of an escaped string where it can only lend one. -/
  escapedText : String → String

/-- What a step meets outside: the clock, the settings, the signer, and how each part of it goes. -/
structure Input where
  now : Int
  fault : Option String
  filters : List String
  signer : Option Key
  signing : Except String (Vector UInt8 64)
  meshOk : Bool
  network : Except String Unit
  queued : Except String Unit

/-! ## The repository of posts -/

/-- The row is a draft that waits for its time. -/
structure Waiting (row : PostRow) : Prop where
  scheduled : row.syncStatus = "scheduled"
  undeleted : row.isDeleted = false
  timed : row.scheduledAt.isSome

structure Due (row : PostRow) (pubkey : String) (now : Int) : Prop extends Waiting row where
  owned : row.pubkey = normKey pubkey
  reached : ∀ stamp ∈ row.scheduledAt, stamp ≤ now

instance (row : PostRow) (pubkey : String) (now : Int) : Decidable (Due row pubkey now) :=
  decidable_of_iff ((row.syncStatus = "scheduled" ∧ row.isDeleted = false ∧ row.scheduledAt.isSome) ∧
      row.pubkey = normKey pubkey ∧ ∀ stamp ∈ row.scheduledAt, stamp ≤ now)
    ⟨fun ⟨⟨scheduled, undeleted, timed⟩, owned, reached⟩ => ⟨⟨scheduled, undeleted, timed⟩, owned, reached⟩,
      fun due => ⟨⟨due.scheduled, due.undeleted, due.timed⟩, due.owned, due.reached⟩⟩

/-- The clamp of the call and then the one of the repository. -/
def clampLimit (limit : Int) : Nat := (max 1 (min (max 1 (min limit 100)) 2000)).toNat

/-- The drafts as the query returns them: the soonest first, and no more than the limit. -/
def getDueScheduled (db : Db) (pubkey : String) (now limit : Int) : List PostRow :=
  let rows := db.posts.rows.map fun (id, row) => { row.toPostRow with id := id }
  let due := rows.filter fun row => decide (Due row pubkey now)
  (due.mergeSort fun first second => decide (first.scheduledAt.getD 0 ≤ second.scheduledAt.getD 0)).take
    (clampLimit limit)

/-- `PostRepo::delete`: the row stays as a tombstone. -/
def deletePost (db : Db) (id : String) : Db :=
  { db with posts := db.posts.modify fun key row => if key = normKey id then { row with isDeleted := true } else row }

def dbMessage : Db.DbError → String
  | .oversized message => "db: oversized: " ++ message
  | .migration message => "db: migration: " ++ message

/-! ## One draft -/

def validateNoteContent (content : String) : Except String Unit :=
  if content = "" ∨ 65536 < byteLen content ∨ 64000 < content.toList.length then
    .error "content must be 1-64000 chars and ≤65536 bytes"
  else .ok ()

/-- The stored tags, and each hashtag of the content that they do not list yet. -/
def draftTags (ext : Externals) (draft : PostRow) (content : String) : List (List String) :=
  let tags := (ext.readTags draft.tagsJson).getD []
  let listed := ((tags.filter fun tag => tag.head? = some "t").filterMap fun tag => tag[1]?).map toAsciiLowercase
  let add := fun (seen : List String × List (List String)) (tag : String) =>
    if toAsciiLowercase tag ∈ seen.1 then seen
    else (toAsciiLowercase tag :: seen.1, seen.2 ++ [["t", tag]])
  ((ext.extract content).foldl add (listed, tags)).2

def signBuilder (ext : Externals) (input : Input) (content : String) (tags : List (List String)) :
    Except String Event :=
  match input.signing with
  | .error message => .error message
  | .ok sig =>
    match input.signer with
    | none => .error "signer locked"
    | some key =>
      let body : UnsignedEvent := ⟨key, .ofNat input.now.toNat, 1, tags.filterMap ext.parseTag, content⟩
      .ok { body with id := ext.eventId body, sig := sig }

/-- The event is read back with a borrowed content, which an escape in its JSON rules out. -/
def readSigned (ext : Externals) (signed : Event) : Except String Event :=
  if signed.content.toList.all fun c => decide (JsonStrings.escape c = [c]) then .ok signed
  else .error ("signer returned malformed event: " ++ ext.escapedText signed.content)

def publishOrEnqueue (input : Input) : Except String Unit :=
  if input.meshOk then .ok ()
  else
    match input.network, input.queued with
    | .ok (), _ => .ok ()
    | .error _, .ok () => .ok ()
    | .error refused, .error e => .error ("publish failed and queue failed: " ++ refused ++ "; " ++ e)

def promotedRow (ext : Externals) (draft : PostRow) (signed : Event) : PostRow where
  id := hexEncode signed.id.toList
  pubkey := hexEncode signed.pubkey.toList
  content := signed.content
  kind := 1
  createdAt := signed.createdAt.toNat
  tagsJson := ext.writeTags (draftTags ext draft signed.content)
  sig := some (hexEncode signed.sig.toList)
  replyTo := none
  rootId := none
  mentionedPubkeys := ""
  mentionedHashtags := ",".intercalate (ext.extract signed.content)
  subject := none
  syncStatus := "synced"
  isDeleted := false
  scheduledAt := none
  freenetKey := none
  isFreenetNative := false
  rsvpEventId := none

/-! ## The runs, from one wait to the next -/

/-- What became of a draft that a run is done with. -/
inductive Fate where
  | empty
  | blocked (filters : List String)
  | published (signed : Event)

/-- How far a run got with the draft it stopped at. -/
inductive Attempt where
  | unsigned
  | handed (signed : Event)
  | accepted (signed : Event)

/-- The locals of a run, with the drafts that it is done with. -/
structure Work where
  now : Int
  published : Nat
  passed : List (PostRow × Fate)
  left : List PostRow

inductive Proc where
  | reading (pubkey : String) (limit : Int)
  | drafting (work : Work)
  | publishing (work : Work) (draft : PostRow) (signed : Event)
  | promoting (work : Work) (draft : PostRow) (signed : Event)
  | removing (work : Work) (draft : PostRow) (signed : Event)
  | done (work : Work)
  | failed (message : String)
  | stopped (message : String) (work : Work) (draft : PostRow) (attempt : Attempt)

/-- `scheduled_publish_due` with the signer that is unlocked when it is called. -/
structure Call where
  signer : Option Key
  pubkey : String
  limit : Int

def enter (call : Call) : Proc :=
  match requireIdentity call.signer call.pubkey with
  | .error message => .failed message
  | .ok () => .reading call.pubkey call.limit

def Work.pass (work : Work) (draft : PostRow) (fate : Fate) (left : List PostRow) : Work :=
  { work with passed := work.passed ++ [(draft, fate)], left := left }

/-- A blocked draft is put off; nothing comes of it when the statement fails. -/
def putOff (ext : Externals) (db : Db) (fault : Option String)
    (draft : PostRow) (now : Int) : Db :=
  match fault with
  | some _ => db
  | none =>
    match db.upsertPost ext.listingCategory { draft with scheduledAt := some (now + scheduleBlockedRetrySecs) } with
    | .ok db => db
    | .error _ => db

def take (ext : Externals) (db : Db) (input : Input) (work : Work) (draft : PostRow) (left : List PostRow) : Db × Proc :=
  let content := trim draft.content
  if content = "" then (db, .drafting (work.pass draft .empty left))
  else
    match validateNoteContent content with
    | .error message => (db, .stopped message { work with left := left } draft .unsigned)
    | .ok () =>
      if ext.passes content input.filters = false then
        (putOff ext db input.fault draft work.now, .drafting (work.pass draft (.blocked input.filters) left))
      else
        match signBuilder ext input content (draftTags ext draft content) >>= readSigned ext with
        | .error message => (db, .stopped message { work with left := left } draft .unsigned)
        | .ok signed => (db, .publishing { work with left := left } draft signed)

def advance (ext : Externals) (db : Db) (p : Proc) (input : Input) : Db × Proc :=
  match p with
  | .reading pubkey limit =>
    match input.fault with
    | some message => (db, .failed message)
    | none => (db, .drafting ⟨input.now, 0, [], getDueScheduled db pubkey input.now limit⟩)
  | .drafting work =>
    match work.left with
    | [] => (db, .done work)
    | draft :: left => take ext db input work draft left
  | .publishing work draft signed =>
    match publishOrEnqueue input with
    | .error message => (db, .stopped message work draft (.handed signed))
    | .ok () => (db, .promoting work draft signed)
  | .promoting work draft signed =>
    match input.fault, db.upsertPost ext.listingCategory (promotedRow ext draft signed) with
    | some message, _ => (db, .stopped message work draft (.accepted signed))
    | none, .error error => (db, .stopped (dbMessage error) work draft (.accepted signed))
    | none, .ok db => (db, .removing work draft signed)
  | .removing work draft signed =>
    match input.fault with
    | some message => (db, .stopped message work draft (.accepted signed))
    | none => (deletePost db draft.id,
        .drafting { work.pass draft (.published signed) work.left with published := work.published + 1 })
  | .done _ | .failed _ | .stopped .. => (db, p)

abbrev State := System Db Proc

def step (ext : Externals) : State → Move Call Input → State := Processes.step enter (advance ext)

/-! ## What a run has done -/

def Fate.event? : Fate → Option Event
  | .published signed => some signed
  | .empty | .blocked _ => none

def Attempt.event? : Attempt → Option Event
  | .handed signed | .accepted signed => some signed
  | .unsigned => none

def Attempt.accepted? : Attempt → Option Event
  | .accepted signed => some signed
  | .handed _ | .unsigned => none

def Proc.work? : Proc → Option Work
  | .drafting work | .done work | .publishing work _ _ | .promoting work _ _ | .removing work _ _
  | .stopped _ work _ _ => some work
  | .reading .. | .failed _ => none

def Proc.at? : Proc → Option (PostRow × Attempt)
  | .publishing _ draft signed => some (draft, .handed signed)
  | .promoting _ draft signed | .removing _ draft signed => some (draft, .accepted signed)
  | .stopped _ _ draft attempt => some (draft, attempt)
  | .reading .. | .failed _ | .drafting _ | .done _ => none

/-- The whole batch: the drafts behind, the one at hand and those ahead. -/
def Proc.batch (p : Proc) : List PostRow :=
  p.work?.elim [] fun work => work.passed.map Prod.fst ++ (p.at?.map Prod.fst).toList ++ work.left

/-- The drafts of a run with an event that its dealings with them so far give. -/
def Proc.events (p : Proc) (pick : Attempt → Option Event) : List (PostRow × Event) :=
  (p.work?.elim [] fun work => work.passed.filterMap fun (draft, fate) => fate.event?.map (draft, ·)) ++
    (p.at?.bind fun (draft, attempt) => (pick attempt).map (draft, ·)).toList

/-- The drafts that a run handed to `publish_or_enqueue`, each in the event it signed. -/
def Proc.handed (p : Proc) : List (PostRow × Event) := p.events Attempt.event?

def Proc.accepted (p : Proc) : List (PostRow × Event) := p.events Attempt.accepted?

/-- The drafts whose publication was accepted and whose promotion went through. -/
def Proc.promoted (p : Proc) : List PostRow :=
  p.work?.elim [] fun work => work.passed.filterMap fun (draft, fate) => fate.event?.map fun _ => draft

/-! ## The batch -/

section Batch

variable {db : Db} {pubkey : String} {now limit : Int} {draft : PostRow}

theorem mem_getDueScheduled (member : draft ∈ getDueScheduled db pubkey now limit) :
    Due draft pubkey now ∧
      ∃ row, db.posts.find? draft.id = some row ∧ draft = { row.toPostRow with id := draft.id } := by
  have due := List.mem_mergeSort.mp (List.mem_of_mem_take member)
  rw [List.mem_filter, decide_eq_true_eq] at due
  refine ⟨due.2, ?_⟩
  obtain ⟨⟨id, row⟩, stored, rfl⟩ := List.mem_map.mp due.1
  exact ⟨row, Table.find?_eq_some.mpr stored, rfl⟩

theorem nodup_getDueScheduled (db : Db) (pubkey : String) (now limit : Int) :
    ((getDueScheduled db pubkey now limit).map fun draft => draft.id).Nodup := by
  have keys : ((db.posts.rows.map fun (id, row) => { row.toPostRow with id := id }).map fun draft => draft.id).Nodup := by
    rw [List.map_map]
    exact db.posts.nodup
  refine List.Nodup.sublist ((List.take_sublist _ _).map _) ?_
  rw [((List.mergeSort_perm _ _).map _).nodup_iff]
  exact keys.sublist (List.filter_sublist.map _)

end Batch

/-! ## How a run takes up a draft -/

/-- A draft that a run is done with was empty, blocked or published. -/
def Dealt (ext : Externals) (draft : PostRow) : Fate → Prop
  | .empty => trim draft.content = ""
  | .blocked filters => ext.passes (trim draft.content) filters = false
  | .published _ => True

/-- A run stops at no draft that is empty, and at none that moderation blocked. -/
def Stops (ext : Externals) (draft : PostRow) : Prop :=
  trim draft.content ≠ "" ∧
    (validateNoteContent (trim draft.content) ≠ .ok () ∨ ∃ filters, ext.passes (trim draft.content) filters = true)

def Proc.Ended : Proc → Prop
  | .done _ | .failed _ | .stopped .. => True
  | .reading .. | .drafting _ | .publishing .. | .promoting .. | .removing .. => False

/-- How many steps a run may still take; a batch has no more than a hundred drafts. -/
def Proc.remaining : Proc → Nat
  | .reading .. => 402
  | .drafting work => 4 * work.left.length + 1
  | .publishing work _ _ => 4 * work.left.length + 4
  | .promoting work _ _ => 4 * work.left.length + 3
  | .removing work _ _ => 4 * work.left.length + 2
  | .done _ | .failed _ | .stopped .. => 0

/-- What a step of a run does: where it goes on from there, and what it writes. -/
inductive Advances (ext : Externals) (db : Db) (input : Input) : Proc → Db × Proc → Prop where
  | stays {p : Proc} (ended : p.Ended) : Advances ext db input p (db, p)
  | fails (pubkey : String) (limit : Int) (message : String) :
      Advances ext db input (.reading pubkey limit) (db, .failed message)
  | reads (pubkey : String) (limit : Int) : Advances ext db input (.reading pubkey limit)
      (db, .drafting ⟨input.now, 0, [], getDueScheduled db pubkey input.now limit⟩)
  | finishes {work : Work} (nothing : work.left = []) : Advances ext db input (.drafting work) (db, .done work)
  | passes {work : Work} {draft : PostRow} {left : List PostRow} (ahead : work.left = draft :: left) {fate : Fate}
      (dealt : Dealt ext draft fate) (unsent : fate.event? = none) {db' : Db}
      (wrote : db' = db ∨
        ∃ later, db' = db.writePost ext.listingCategory { draft with scheduledAt := some later }) :
      Advances ext db input (.drafting work) (db', .drafting (work.pass draft fate left))
  | rejects {work : Work} {draft : PostRow} {left : List PostRow} (ahead : work.left = draft :: left)
      (stops : Stops ext draft) (message : String) :
      Advances ext db input (.drafting work) (db, .stopped message { work with left := left } draft .unsigned)
  | hands {work : Work} {draft : PostRow} {left : List PostRow} (ahead : work.left = draft :: left)
      (stops : Stops ext draft) (signed : Event) :
      Advances ext db input (.drafting work) (db, .publishing { work with left := left } draft signed)
  | stops {p : Proc} {work : Work} {draft : PostRow} {attempt : Attempt} (known : p.work? = some work)
      (present : p.at? = some (draft, attempt)) (going : 0 < p.remaining) (message : String) :
      Advances ext db input p (db, .stopped message work draft attempt)
  | accepts (work : Work) (draft : PostRow) (signed : Event) :
      Advances ext db input (.publishing work draft signed) (db, .promoting work draft signed)
  | promotes (work : Work) (draft : PostRow) (signed : Event) :
      Advances ext db input (.promoting work draft signed)
        (db.writePost ext.listingCategory (promotedRow ext draft signed), .removing work draft signed)
  | removes (work : Work) (draft : PostRow) (signed : Event) :
      Advances ext db input (.removing work draft signed) (deletePost db draft.id,
        .drafting { work.pass draft (.published signed) work.left with published := work.published + 1 })

theorem upsertPost_ok {listingCategory : String → Option String} {db db' : Db} {post : PostRow}
    (ok : db.upsertPost listingCategory post = .ok db') : db' = db.writePost listingCategory post := by
  unfold Db.upsertPost at ok
  split at ok
  · exact nomatch ok
  · exact (Except.ok.inj ok).symm

theorem putOff_cases (ext : Externals) (db : Db) (fault : Option String) (draft : PostRow) (now : Int) :
    putOff ext db fault draft now = db ∨ ∃ later, putOff ext db fault draft now =
      db.writePost ext.listingCategory { draft with scheduledAt := some later } := by
  unfold putOff
  cases fault with
  | some message => exact .inl rfl
  | none =>
    cases written : db.upsertPost ext.listingCategory
        { draft with scheduledAt := some (now + scheduleBlockedRetrySecs) } with
    | error error => exact .inl rfl
    | ok db' => exact .inr ⟨_, upsertPost_ok written⟩

theorem advances_take (ext : Externals) (db : Db) (input : Input) {work : Work} {draft : PostRow} {left : List PostRow}
    (ahead : work.left = draft :: left) :
    Advances ext db input (.drafting work) (take ext db input work draft left) := by
  unfold take
  by_cases empty : trim draft.content = ""
  · rw [if_pos empty]
    have dealt : Dealt ext draft .empty := empty
    exact .passes ahead dealt rfl (.inl rfl)
  · rw [if_neg empty]
    cases valid : validateNoteContent (trim draft.content) with
    | error message => exact .rejects ahead ⟨empty, .inl (by simp [valid])⟩ message
    | ok _ =>
      by_cases blocked : ext.passes (trim draft.content) input.filters = false
      · simp only [if_pos blocked]
        have dealt : Dealt ext draft (.blocked input.filters) := blocked
        exact .passes ahead dealt rfl (putOff_cases ext db input.fault draft work.now)
      · simp only [if_neg blocked]
        have passed : Stops ext draft := ⟨empty, .inr ⟨input.filters, by simpa using blocked⟩⟩
        cases signBuilder ext input (trim draft.content) (draftTags ext draft (trim draft.content)) >>=
            readSigned ext with
        | error message => exact .rejects ahead passed message
        | ok signed => exact .hands ahead passed signed

theorem advances (ext : Externals) (db : Db) (p : Proc) (input : Input) :
    Advances ext db input p (advance ext db p input) := by
  cases p with
  | reading pubkey limit =>
    simp only [advance]
    cases input.fault with
    | some message => exact .fails pubkey limit message
    | none => exact .reads pubkey limit
  | drafting work =>
    simp only [advance]
    cases ahead : work.left with
    | nil => exact .finishes ahead
    | cons draft left => exact advances_take ext db input ahead
  | publishing work draft signed =>
    simp only [advance]
    cases publishOrEnqueue input with
    | error message => exact .stops rfl rfl (by simp [Proc.remaining]) message
    | ok _ => exact .accepts work draft signed
  | promoting work draft signed =>
    simp only [advance]
    cases input.fault with
    | some message => exact .stops rfl rfl (by simp [Proc.remaining]) message
    | none =>
      cases written : db.upsertPost ext.listingCategory (promotedRow ext draft signed) with
      | error error => exact .stops rfl rfl (by simp [Proc.remaining]) (dbMessage error)
      | ok db' => exact upsertPost_ok written ▸ .promotes work draft signed
  | removing work draft signed =>
    simp only [advance]
    cases input.fault with
    | some message => exact .stops rfl rfl (by simp [Proc.remaining]) message
    | none => exact .removes work draft signed
  | done work => exact .stays trivial
  | failed message => exact .stays trivial
  | stopped message work draft attempt => exact .stays trivial

/-! ## What one step does to the posts -/

section Posts

variable {ext : Externals} {db : Db} {id : String} {row : StoredPost} {post : PostRow}

theorem find?_writePost (listingCategory : String → Option String) (db : Db) (post : PostRow) (id : String) :
    (db.writePost listingCategory post).posts.find? id =
      if id = normKey post.id then
        some ((db.posts.find? (normKey post.id)).elim (post.toStored listingCategory)
          (post.toStored listingCategory).merge)
      else db.posts.find? id :=
  Table.find?_upsert db.posts (normKey post.id) (post.toStored listingCategory)
    (post.toStored listingCategory).merge id

theorem buried_writePost {listingCategory : String → Option String} (stored : db.posts.find? id = some row)
    (deleted : row.isDeleted = true) : (db.writePost listingCategory post).posts.find? id = some row := by
  rw [find?_writePost]
  split_ifs with same
  · -- A tombstone keeps every column.
    rw [← same, stored]
    simp [StoredPost.merge, deleted]
  · exact stored

theorem waiting_merge {new old : StoredPost} (waiting : Waiting new.toPostRow) (undeleted : old.isDeleted = false) :
    Waiting (new.merge old).toPostRow := by
  rw [StoredPost.merge, undeleted, if_neg Bool.false_ne_true]
  exact ⟨waiting.scheduled, waiting.undeleted, waiting.timed⟩

theorem waiting_writePost {listingCategory : String → Option String} (stored : db.posts.find? id = some row)
    (waiting : Waiting row.toPostRow) (fresh : id = normKey post.id → Waiting post) :
    ∃ after, (db.writePost listingCategory post).posts.find? id = some after ∧ Waiting after.toPostRow := by
  rw [find?_writePost]
  split_ifs with same
  · obtain ⟨scheduled, undeleted, timed⟩ := fresh same
    have new : Waiting (post.toStored listingCategory).toPostRow :=
      { scheduled := by simp only [PostRow.toStored, PostRow.withKeys, scheduled]
        undeleted := by simp only [PostRow.toStored, PostRow.withKeys, undeleted]
        timed := by simpa only [PostRow.toStored, PostRow.withKeys] using timed }
    rw [← same, stored]
    exact ⟨_, congrArg some (Option.elim_some ..), waiting_merge new waiting.undeleted⟩
  · exact ⟨row, stored, waiting⟩

theorem find?_deletePost (db : Db) (target id : String) :
    (deletePost db target).posts.find? id =
      if id = normKey target then (db.posts.find? id).map fun row => { row with isDeleted := true }
      else db.posts.find? id := by
  rw [deletePost, Table.find?_modify]
  split_ifs
  · rfl
  · exact Option.map_id'

/-- What the step of a process does to the posts. -/
inductive Effect (ext : Externals) (db db' : Db) (p : Proc) : Prop where
  | keeps (same : db' = db)
  | putsOff (draft : PostRow) (later : Int) (member : draft ∈ p.batch)
      (written : db' = db.writePost ext.listingCategory { draft with scheduledAt := some later })
  | promotes (draft : PostRow) (signed : Event)
      (written : db' = db.writePost ext.listingCategory (promotedRow ext draft signed))
  | removes (draft : PostRow) (signed : Event) (member : draft ∈ p.batch) (accepted : (draft, signed) ∈ p.accepted)
      (deleted : db' = deletePost db draft.id)

theorem Advances.effect {p : Proc} {input : Input} {out : Db × Proc} (advances : Advances ext db input p out) :
    Effect ext db out.1 p := by
  cases advances with
  | passes ahead dealt unsent wrote =>
    obtain same | ⟨later, written⟩ := wrote
    · exact .keeps same
    · exact .putsOff _ later (by simp [Proc.batch, Proc.work?, ahead]) written
  | promotes work draft signed => exact .promotes draft signed rfl
  | removes work draft signed =>
    exact .removes draft signed (by simp [Proc.batch, Proc.work?, Proc.at?])
      (by simp [Proc.accepted, Proc.events, Proc.work?, Proc.at?, Attempt.accepted?]) rfl
  | _ => exact .keeps rfl

end Posts

/-! ## What one step does to its run -/

section Step

variable {ext : Externals} {db : Db} {input : Input} {p : Proc} {out : Db × Proc}

/-- What a run knows of the drafts behind it and of the one at which it is. -/
structure Deals (ext : Externals) (p : Proc) : Prop where
  dealt : ∀ work ∈ p.work?, ∀ entry ∈ work.passed, Dealt ext entry.1 entry.2
  counted : ∀ work ∈ p.work?, work.published = (work.passed.filterMap fun entry => entry.2.event?).length
  stops : ∀ present ∈ p.at?, Stops ext present.1
  ended : ∀ work, p = .done work → work.left = []

/-- The run deals with the drafts of its batch one after the other. -/
structure Orderly (ext : Externals) (p : Proc) : Prop extends Deals ext p where
  distinct : (p.batch.map fun draft => draft.id).Nodup
  spelled : ∀ draft ∈ p.batch, normKey draft.id = draft.id ∧ Waiting draft

theorem Advances.batch (advances : Advances ext db input p out) :
    out.2.batch = p.batch ∨ ∃ pubkey limit, p = .reading pubkey limit ∧
      out.2.batch = getDueScheduled db pubkey input.now limit := by
  cases advances with
  | reads pubkey limit => exact .inr ⟨pubkey, limit, rfl, rfl⟩
  | passes ahead dealt unsent wrote => exact .inl (by simp [Proc.batch, Proc.work?, Proc.at?, Work.pass, ahead])
  | rejects ahead stops message => exact .inl (by simp [Proc.batch, Proc.work?, Proc.at?, ahead])
  | hands ahead stops signed => exact .inl (by simp [Proc.batch, Proc.work?, Proc.at?, ahead])
  | stops known present going message =>
    refine .inl ?_
    rw [Proc.batch, Proc.batch, known, present]
    rfl
  | removes work draft signed => exact .inl (by simp [Proc.batch, Proc.work?, Proc.at?, Work.pass])
  | _ => exact .inl rfl

theorem Deals.of_empty (nothing : p.work? = none) (nowhere : p.at? = none) : Deals ext p where
  dealt _ known := nomatch nothing.symm.trans known
  counted _ known := nomatch nothing.symm.trans known
  stops _ known := nomatch nowhere.symm.trans known
  ended _ same := nomatch nothing.symm.trans (congrArg Proc.work? same)

theorem Deals.of_fresh (now : Int) (batch : List PostRow) : Deals ext (.drafting ⟨now, 0, [], batch⟩) where
  dealt work known := by
    obtain rfl := Option.some.inj known
    intro entry member
    cases member
  counted work known := by
    obtain rfl := Option.some.inj known
    rfl
  stops := by rintro _ ⟨⟩
  ended := nofun

/-- A run that is not done knows of a draft at hand what it knew, and the drafts behind it are the same. -/
theorem Deals.congr {p next : Proc} {work work' : Work} (deals : Deals ext p) (before : p.work? = some work)
    (after : next.work? = some work') (passed : work'.passed = work.passed) (published : work'.published = work.published)
    (stops : ∀ present ∈ next.at?, Stops ext present.1) (ended : ∀ work, next = .done work → work.left = []) :
    Deals ext next where
  dealt known isKnown := by
    obtain rfl := Option.some.inj (after.symm.trans isKnown)
    rw [passed]
    exact deals.dealt work before
  counted known isKnown := by
    obtain rfl := Option.some.inj (after.symm.trans isKnown)
    rw [passed, published]
    exact deals.counted work before
  stops := stops
  ended := ended

theorem Deals.pass {work : Work} (deals : Deals ext p) (before : p.work? = some work) {draft : PostRow}
    {fate : Fate} (dealt : Dealt ext draft fate) (left : List PostRow) {count : Nat}
    (counts : count = work.published + fate.event?.toList.length) :
    Deals ext (.drafting { work.pass draft fate left with published := count }) where
  dealt known isKnown := by
    obtain rfl := Option.some.inj isKnown
    intro entry member
    obtain earlier | last := List.mem_append.mp member
    · exact deals.dealt work before entry earlier
    · obtain rfl := List.mem_singleton.mp last
      exact dealt
  counted known isKnown := by
    obtain rfl := Option.some.inj isKnown
    simp only [Work.pass, List.filterMap_append, List.length_append, ← deals.counted work before, counts]
    cases found : fate.event? <;> simp [found]
  stops := by rintro _ ⟨⟩
  ended := nofun

theorem Advances.deals (advances : Advances ext db input p out) (deals : Deals ext p) : Deals ext out.2 := by
  cases advances with
  | stays ended => exact deals
  | fails pubkey limit message => exact .of_empty rfl rfl
  | reads pubkey limit => exact .of_fresh input.now _
  | finishes nothing => exact deals.congr rfl rfl rfl rfl (by rintro _ ⟨⟩) (by rintro _ ⟨⟩; exact nothing)
  | passes ahead dealt unsent wrote => exact deals.pass rfl dealt _ (by simp [unsent])
  | rejects ahead stops message => exact deals.congr rfl rfl rfl rfl (by rintro _ ⟨⟩; exact stops) nofun
  | hands ahead stops signed => exact deals.congr rfl rfl rfl rfl (by rintro _ ⟨⟩; exact stops) nofun
  | stops known present going message =>
    have stops := deals.stops _ present
    exact deals.congr known rfl rfl rfl (by rintro _ ⟨⟩; exact stops) nofun
  | accepts work draft signed =>
    have stops := deals.stops _ rfl
    exact deals.congr rfl rfl rfl rfl (by rintro _ ⟨⟩; exact stops) nofun
  | promotes work draft signed =>
    have stops := deals.stops _ rfl
    exact deals.congr rfl rfl rfl rfl (by rintro _ ⟨⟩; exact stops) nofun
  | removes work draft signed =>
    have dealt : Dealt ext draft (.published signed) := trivial
    exact deals.pass rfl dealt work.left rfl

/-- Every key is stored in the spelling of `normKey`. -/
def Spelled (db : Db) : Prop := ∀ id ∈ db.posts.keys, normKey id = id

instance (db : Db) : Decidable (Spelled db) := inferInstanceAs (Decidable (∀ id ∈ db.posts.keys, normKey id = id))

theorem orderly_advance (spelled : Spelled db) (orderly : Orderly ext p) (input : Input) :
    Orderly ext (advance ext db p input).2 := by
  refine ⟨(advances ext db p input).deals orderly.toDeals, ?_, ?_⟩
  · obtain same | ⟨pubkey, limit, -, read⟩ := (advances ext db p input).batch
    · exact same ▸ orderly.distinct
    · exact read ▸ nodup_getDueScheduled db pubkey input.now limit
  · obtain same | ⟨pubkey, limit, -, read⟩ := (advances ext db p input).batch
    · exact same ▸ orderly.spelled
    · rw [read]
      intro draft member
      obtain ⟨due, row, stored, -⟩ := mem_getDueScheduled member
      exact ⟨spelled draft.id (Table.mem_keys_iff.mpr ⟨row, stored⟩), due.toWaiting⟩

theorem orderly_enter (call : Call) : Orderly ext (enter call) := by
  unfold enter
  cases requireIdentity call.signer call.pubkey with
  | error message => exact ⟨.of_empty rfl rfl, List.nodup_nil, by rintro _ ⟨⟩⟩
  | ok _ => exact ⟨.of_empty rfl rfl, List.nodup_nil, by rintro _ ⟨⟩⟩

theorem Advances.accepted (advances : Advances ext db input p out) : p.accepted ⊆ out.2.accepted := by
  cases advances with
  | reads pubkey limit => exact List.nil_subset _
  | fails pubkey limit message => exact List.nil_subset _
  | passes ahead dealt unsent wrote => simp [Proc.accepted, Proc.events, Proc.work?, Proc.at?, Work.pass, unsent]
  | rejects ahead stops message => simp [Proc.accepted, Proc.events, Proc.work?, Proc.at?, Attempt.accepted?]
  | hands ahead stops signed => simp [Proc.accepted, Proc.events, Proc.work?, Proc.at?, Attempt.accepted?]
  | stops known present going message =>
    rw [Proc.accepted, Proc.accepted, Proc.events, Proc.events, known, present]
    exact List.Subset.refl _
  | accepts work draft signed => simp [Proc.accepted, Proc.events, Proc.work?, Proc.at?, Attempt.accepted?]
  | removes work draft signed =>
    simp [Proc.accepted, Proc.events, Proc.work?, Proc.at?, Attempt.accepted?, Work.pass, Fate.event?]
  | _ => exact List.Subset.refl _

theorem Advances.promoted (advances : Advances ext db input p out) {draft : PostRow} (member : draft ∈ out.2.promoted) :
    draft ∈ p.promoted ∨ draft ∈ p.batch ∧ out.1 = deletePost db draft.id := by
  cases advances with
  | fails pubkey limit message => cases member
  | reads pubkey limit => cases member
  | passes ahead dealt unsent wrote =>
    simp only [Proc.promoted, Proc.work?, Option.elim_some, Work.pass, List.filterMap_append, List.filterMap_cons, unsent,
      Option.map_none, List.filterMap_nil, List.append_nil] at member
    exact .inl member
  | stops known present going message =>
    rw [Proc.promoted, known]
    exact .inl member
  | removes work other signed =>
    simp only [Proc.promoted, Proc.work?, Option.elim_some, Work.pass, List.filterMap_append, List.filterMap_cons,
      Fate.event?, Option.map_some, List.filterMap_nil] at member
    obtain earlier | now := List.mem_append.mp member
    · exact .inl earlier
    · rw [List.mem_singleton.mp now]
      exact .inr ⟨by simp [Proc.batch, Proc.work?, Proc.at?], rfl⟩
  | _ => exact .inl member

theorem passed_sublist (passed : List (PostRow × Fate)) :
    ((passed.filterMap fun (draft, fate) => fate.event?.map (draft, ·)).map Prod.fst).Sublist
      (passed.map Prod.fst) := by
  induction passed with
  | nil => exact List.Sublist.slnil
  | cons entry rest ih =>
    obtain ⟨draft, fate⟩ := entry
    cases sent : fate.event? with
    | none => simpa [sent] using ih.cons draft
    | some signed => simpa [sent] using ih

theorem at?_of_work? (nothing : p.work? = none) : p.at? = none := by
  cases p with
  | reading pubkey limit => rfl
  | failed message => rfl
  | _ => cases nothing

theorem events_sublist (p : Proc) (pick : Attempt → Option Event) : ((p.events pick).map Prod.fst).Sublist p.batch := by
  unfold Proc.events Proc.batch
  cases known : p.work? with
  | none => simp [at?_of_work? known]
  | some work =>
    rw [List.map_append]
    refine ((passed_sublist work.passed).append ?_).trans (List.sublist_append_left _ work.left)
    cases p.at? with
    | none => exact List.Sublist.slnil
    | some present => cases picked : pick present.2 <;> simp [picked]

theorem Orderly.once (orderly : Orderly ext p) : (p.handed.map fun entry => entry.1.id).Nodup := by
  have sublist := (events_sublist p Attempt.event?).map fun draft => draft.id
  rw [List.map_map] at sublist
  exact orderly.distinct.sublist sublist

theorem length_getDueScheduled (db : Db) (pubkey : String) (now limit : Int) :
    (getDueScheduled db pubkey now limit).length ≤ 100 := by
  refine (List.length_take_le _ _).trans ?_
  unfold clampLimit
  omega

theorem Advances.ended_or_remaining (advances : Advances ext db input p out) :
    p.Ended ∧ out.2 = p ∨ out.2.remaining < p.remaining := by
  cases advances with
  | stays ended => exact .inl ⟨ended, rfl⟩
  | fails pubkey limit message => exact .inr (Nat.succ_pos _)
  | reads pubkey limit =>
    have small := length_getDueScheduled db pubkey input.now limit
    simp only [Proc.remaining]
    omega
  | finishes nothing => exact .inr (Nat.succ_pos _)
  | passes ahead dealt unsent wrote => simp [Proc.remaining, Work.pass, ahead]
  | rejects ahead stops message => exact .inr (Nat.succ_pos _)
  | hands ahead stops signed =>
    simp only [Proc.remaining, ahead, List.length_cons]
    omega
  | stops known present going message => exact .inr going
  | accepts work draft signed => exact .inr (Nat.lt_succ_self _)
  | promotes work draft signed => exact .inr (Nat.lt_succ_self _)
  | removes work draft signed => exact .inr (Nat.lt_succ_self _)

/-- The run alone, over whatever the others have made of the database when it moves. -/
def alone (ext : Externals) (p : Proc) (worlds : List (Db × Input)) : Proc :=
  worlds.foldl (fun p world => (advance ext world.1 p world.2).2) p

theorem alone_of_ended (ended : p.Ended) (worlds : List (Db × Input)) : alone ext p worlds = p := by
  induction worlds with
  | nil => rfl
  | cons world rest ih =>
    have stays : (advance ext world.1 p world.2).2 = p := by
      cases p with
      | done work => rfl
      | failed message => rfl
      | stopped message work draft attempt => rfl
      | _ => cases ended
    change alone ext (advance ext world.1 p world.2).2 rest = p
    rw [stays, ih]

theorem alone_ends (worlds : List (Db × Input)) (enough : p.remaining < worlds.length) :
    (alone ext p worlds).Ended := by
  induction worlds generalizing p with
  | nil => exact absurd enough (Nat.not_lt_zero _)
  | cons world rest ih =>
    obtain ⟨ended, -⟩ | fewer := (advances ext world.1 p world.2).ended_or_remaining
    · rw [alone_of_ended ended]
      exact ended
    · rw [List.length_cons] at enough
      exact ih (lt_of_lt_of_le fewer (Nat.le_of_lt_succ enough))

end Step

/-! ## Whole runs -/

section Run

variable {ext : Externals}

/-- The process `i` read this batch at some earlier step, of rows that were drafts of the caller and due. -/
def ReadAt (ext : Externals) (start : Db) (moves : List (Move Call Input)) (i : Nat) (batch : List PostRow) : Prop :=
  ∃ earlier input later pubkey limit, moves = earlier ++ .advance i input :: later ∧
    (run (step ext) ⟨start, []⟩ earlier).procs[i]? = some (.reading pubkey limit) ∧
    batch = getDueScheduled (run (step ext) ⟨start, []⟩ earlier).shared pubkey input.now limit ∧
    ∀ draft ∈ batch, Due draft pubkey input.now ∧
      ∃ row, (run (step ext) ⟨start, []⟩ earlier).shared.posts.find? draft.id = some row ∧
        draft = { row.toPostRow with id := draft.id }

theorem ReadAt.concat {start : Db} {moves : List (Move Call Input)} {i : Nat} {batch : List PostRow}
    (read : ReadAt ext start moves i batch) (move : Move Call Input) : ReadAt ext start (moves ++ [move]) i batch := by
  obtain ⟨earlier, input, later, pubkey, limit, rfl, rest⟩ := read
  exact ⟨earlier, input, later ++ [move], pubkey, limit, by simp, rest⟩

theorem batch_enter (call : Call) : (enter call).batch = [] := by
  unfold enter
  cases requireIdentity call.signer call.pubkey <;> rfl

theorem readAt (start : Db) (moves : List (Move Call Input)) {i : Nat} {p : Proc}
    (here : (run (step ext) ⟨start, []⟩ moves).procs[i]? = some p) (nonempty : p.batch ≠ []) :
    ReadAt ext start moves i p.batch := by
  induction moves using List.reverseRecOn generalizing p with
  | nil => exact nomatch here
  | append_singleton done move ih =>
    rw [Runs.run_append] at here
    obtain ⟨call, rfl, rfl⟩ | still | ⟨input, q, rfl, before, rfl⟩ := Processes.procs_step here
    · exact absurd (batch_enter call) nonempty
    · exact (ih still nonempty).concat move
    · obtain same | ⟨pubkey, limit, rfl, read⟩ :=
        (advances ext (run (step ext) ⟨start, []⟩ done).shared q input).batch
      · rw [same] at nonempty ⊢
        exact (ih before nonempty).concat _
      · -- The batch is what this step reads.
        refine ⟨done, input, [], pubkey, limit, rfl, before, read, fun draft member => ?_⟩
        exact mem_getDueScheduled (read ▸ member)

theorem spelled_writePost {listingCategory : String → Option String} {db : Db} {post : PostRow} (spelled : Spelled db) :
    Spelled (db.writePost listingCategory post) := by
  intro id member
  obtain rfl | stored := Table.mem_keys_upsert.mp member
  · exact Text.normKey_normKey post.id
  · exact spelled id stored

theorem spelled_advance {db : Db} {p : Proc} (spelled : Spelled db) (input : Input) :
    Spelled (advance ext db p input).1 := by
  cases (advances ext db p input).effect with
  | keeps same =>
    rw [same]
    exact spelled
  | putsOff draft later member written => exact written ▸ spelled_writePost spelled
  | promotes draft signed written => exact written ▸ spelled_writePost spelled
  | removes draft signed member accepted deleted =>
    rw [deleted, Spelled, deletePost, Table.keys_modify]
    exact spelled

def Buried (id : String) (db : Db) : Prop := ∃ row, db.posts.find? id = some row ∧ row.isDeleted = true

theorem buried_advance {db : Db} {id : String} (buried : Buried id db) (p : Proc) (input : Input) :
    Buried id (advance ext db p input).1 := by
  obtain ⟨row, stored, deleted⟩ := buried
  cases (advances ext db p input).effect with
  | keeps same =>
    rw [same]
    exact ⟨row, stored, deleted⟩
  | putsOff draft later member written => exact written ▸ ⟨row, buried_writePost stored deleted, deleted⟩
  | promotes draft signed written => exact written ▸ ⟨row, buried_writePost stored deleted, deleted⟩
  | removes draft signed member accepted gone =>
    rw [gone, Buried, find?_deletePost]
    split_ifs
    · exact ⟨_, congrArg _ stored, rfl⟩
    · exact ⟨row, stored, deleted⟩

theorem not_due_of_buried {db : Db} {id : String} (buried : Buried id db) (pubkey : String) (now limit : Int)
    {draft : PostRow} (member : draft ∈ getDueScheduled db pubkey now limit) : draft.id ≠ id := by
  rintro rfl
  obtain ⟨due, row, stored, same⟩ := mem_getDueScheduled member
  obtain ⟨other, stored', deleted⟩ := buried
  cases stored.symm.trans stored'
  have undeleted := due.undeleted
  rw [same] at undeleted
  exact absurd (deleted.symm.trans undeleted) (by decide)

/-- The drafts of a run are stored, and those it has promoted are deleted. -/
structure Settled (db : Db) (p : Proc) : Prop where
  stored : ∀ draft ∈ p.batch, draft.id ∈ db.posts.keys
  buried : ∀ draft ∈ p.promoted, Buried draft.id db

theorem keys_advance {db : Db} {id : String} (stored : id ∈ db.posts.keys) (p : Proc) (input : Input) :
    id ∈ (advance ext db p input).1.posts.keys := by
  cases (advances ext db p input).effect with
  | keeps same => rwa [same]
  | putsOff draft later member written => exact written ▸ Table.mem_keys_upsert.mpr (.inr stored)
  | promotes draft signed written => exact written ▸ Table.mem_keys_upsert.mpr (.inr stored)
  | removes draft signed member accepted deleted => rwa [deleted, deletePost, Table.keys_modify]

theorem Settled.beside (ext : Externals) {db : Db} {q : Proc} (settled : Settled db q) (p : Proc) (input : Input) :
    Settled (advance ext db p input).1 q where
  stored draft member := keys_advance (settled.stored draft member) p input
  buried draft member := buried_advance (settled.buried draft member) p input

theorem Settled.moved {db : Db} {p : Proc} (settled : Settled db p) (orderly : Orderly ext p) (input : Input) :
    Settled (advance ext db p input).1 (advance ext db p input).2 where
  stored draft member := by
    obtain same | ⟨pubkey, limit, -, read⟩ := (advances ext db p input).batch
    · exact keys_advance (settled.stored draft (same ▸ member)) p input
    · obtain ⟨-, row, found, -⟩ := mem_getDueScheduled (read ▸ member)
      exact keys_advance (Table.mem_keys_iff.mpr ⟨row, found⟩) p input
  buried draft member := by
    obtain earlier | ⟨inside, deleted⟩ := (advances ext db p input).promoted member
    · exact buried_advance (settled.buried draft earlier) p input
    · obtain ⟨row, found⟩ := Table.mem_keys_iff.mp (settled.stored draft inside)
      rw [deleted, Buried, find?_deletePost, if_pos (orderly.spelled draft inside).1.symm, found]
      exact ⟨_, rfl, rfl⟩

theorem settled_enter {db : Db} (call : Call) : Settled db (enter call) := by
  have fresh (p : Proc) (nothing : p.batch = []) (none : p.promoted = []) : Settled db p :=
    ⟨fun draft member => by simp [nothing] at member, fun draft member => by simp [none] at member⟩
  unfold enter
  cases requireIdentity call.signer call.pubkey with
  | error message => exact fresh _ rfl rfl
  | ok _ => exact fresh _ rfl rfl

/-- What every run keeps, whatever the others do to the database. -/
structure Sound (ext : Externals) (db : Db) (p : Proc) : Prop where
  orderly : Orderly ext p
  settled : Settled db p

theorem guarantee (ext : Externals) :
    Processes.Guarantee enter (advance ext) (fun _ _ _ => True) (fun _ _ _ _ => True) Spelled (Sound ext) where
  entered _ call _ := ⟨orderly_enter call, settled_enter call⟩
  moves _ _ input spelled sound _ :=
    ⟨spelled_advance spelled input, orderly_advance spelled sound.orderly input, sound.settled.moved sound.orderly input⟩
  others _ p input _ _ _ sound _ _ := ⟨sound.orderly, sound.settled.beside ext p input⟩

def Stays (id : String) (db : Db) : Prop := ∃ row, db.posts.find? id = some row ∧ Waiting row.toPostRow

def Proc.HasAccepted (id : String) (p : Proc) : Prop := ∃ entry ∈ p.accepted, entry.1.id = id

theorem hexDigit_ne_colon {n : Nat} (small : n < 16) : ':' ≠ Text.hexDigit n := by
  interval_cases n <;> decide

theorem ne_of_hex {id : String} (named : startsWith id "sched:" = true) (bytes : List UInt8) :
    id ≠ normKey (hexEncode bytes) := by
  rintro rfl
  obtain ⟨rest, split⟩ := Text.startsWith_iff.mp named
  rw [Text.normKey_hexEncode] at split
  have colon : ':' ∈ (hexEncode bytes).toList := by
    rw [split]
    simp
  simp only [hexEncode, String.toList_ofList, List.mem_flatMap, List.mem_cons, List.not_mem_nil, or_false] at colon
  obtain ⟨b, -, high | low⟩ := colon
  · exact hexDigit_ne_colon (by have := b.toNat_lt; omega) high
  · exact hexDigit_ne_colon (by omega) low

theorem stays_advance {db : Db} {id : String} (named : startsWith id "sched:" = true) (stays : Stays id db) {p : Proc}
    (orderly : Orderly ext p) (input : Input) :
    Stays id (advance ext db p input).1 ∨ p.HasAccepted id := by
  obtain ⟨row, stored, waiting⟩ := stays
  cases (advances ext db p input).effect with
  | keeps same =>
    rw [same]
    exact .inl ⟨row, stored, waiting⟩
  | putsOff draft later member written =>
    have draftWaits := (orderly.spelled draft member).2
    rw [written]
    exact .inl (waiting_writePost stored waiting fun _ => ⟨draftWaits.scheduled, draftWaits.undeleted, rfl⟩)
  | promotes draft signed written =>
    rw [written]
    -- The id of an event is written in hex digits, and a draft is never named so.
    exact .inl (waiting_writePost stored waiting fun same => absurd same (ne_of_hex named signed.id.toList))
  | removes draft signed member accepted deleted =>
    by_cases same : id = normKey draft.id
    · exact .inr ⟨(draft, signed), accepted, (same.trans (orderly.spelled draft member).1).symm⟩
    · refine .inl ⟨row, ?_, waiting⟩
      rw [deleted, find?_deletePost, if_neg same]
      exact stored

theorem hasAccepted_step {id : String} {s : State} (has : ∃ p ∈ s.procs, p.HasAccepted id) (move : Move Call Input) :
    ∃ p ∈ (step ext s move).procs, p.HasAccepted id := by
  cases move with
  | call call =>
    obtain ⟨p, member, accepted⟩ := has
    exact ⟨p, List.mem_append_left _ member, accepted⟩
  | advance i input =>
    cases here : s.procs[i]? with
    | none => simpa only [step, Processes.step, here] using has
    | some p =>
      rw [step, Processes.step_of_getElem? here]
      refine Processes.exists_mem_set here ?_ has
      rintro ⟨entry, accepted, same⟩
      exact ⟨entry, (advances ext s.shared p input).accepted accepted, same⟩

/-- The draft is still scheduled, or some run has had a publication of it accepted. -/
def Kept (id : String) (s : State) : Prop := Stays id s.shared ∨ ∃ p ∈ s.procs, p.HasAccepted id

theorem kept_step {id : String} (named : startsWith id "sched:" = true) {s : State}
    (holds : Processes.Holds Spelled (Sound ext) s) (kept : Kept id s) (move : Move Call Input) :
    Kept id (step ext s move) := by
  obtain stays | accepted := kept
  · cases move with
    | call call => exact .inl stays
    | advance i input =>
      cases here : s.procs[i]? with
      | none => exact .inl (by simpa only [step, Processes.step, here] using stays)
      | some p =>
        have member := List.mem_of_getElem? here
        obtain still | accepted := stays_advance named stays (holds.2 p member).orderly input
        · rw [step, Processes.step_of_getElem? here]
          exact .inl still
        · exact .inr (hasAccepted_step ⟨p, member, accepted⟩ _)
  · exact .inr (hasAccepted_step accepted move)

theorem kept_run {id : String} (named : startsWith id "sched:" = true) {s : State}
    (holds : Processes.Holds Spelled (Sound ext) s) (kept : Kept id s) (moves : List (Move Call Input)) :
    Kept id (run (step ext) s moves) := by
  induction moves generalizing s with
  | nil => exact kept
  | cons move rest ih =>
    exact ih ((guarantee ext).step holds (Processes.meets_true s move)) (kept_step named holds kept move)

theorem buried_run {id : String} {s : State} (buried : Buried id s.shared) (moves : List (Move Call Input)) :
    Buried id (run (step ext) s moves).shared := by
  induction moves generalizing s with
  | nil => exact buried
  | cons move rest ih =>
    exact ih (Processes.shared_step (fun p _ input => buried_advance buried p input) buried move)

/-- What holds after any moves of any number of runs. -/
structure Published (ext : Externals) (start : Db) (moves : List (Move Call Input)) : Prop where
  orderly : ∀ p ∈ (run (step ext) ⟨start, []⟩ moves).procs, Orderly ext p
  once : ∀ p ∈ (run (step ext) ⟨start, []⟩ moves).procs, (p.handed.map fun entry => entry.1.id).Nodup ∧
    (p.handed.map Prod.fst).Sublist p.batch
  read : ∀ i p, (run (step ext) ⟨start, []⟩ moves).procs[i]? = some p → p.batch ≠ [] → ReadAt ext start moves i p.batch
  stays : ∀ id, startsWith id "sched:" = true → Stays id start → Kept id (run (step ext) ⟨start, []⟩ moves)
  ends : ∀ p ∈ (run (step ext) ⟨start, []⟩ moves).procs, ∃ enough, ∀ worlds : List (Db × Input),
    enough ≤ worlds.length → (alone ext p worlds).Ended
  promoted : ∀ p ∈ (run (step ext) ⟨start, []⟩ moves).procs, ∀ draft ∈ p.promoted,
    Buried draft.id (run (step ext) ⟨start, []⟩ moves).shared
  buried : ∀ earlier later, moves = earlier ++ later → ∀ id,
    Buried id (run (step ext) ⟨start, []⟩ earlier).shared → Buried id (run (step ext) ⟨start, []⟩ moves).shared
  unread : ∀ id, Buried id (run (step ext) ⟨start, []⟩ moves).shared → ∀ pubkey now limit,
    ∀ draft ∈ getDueScheduled (run (step ext) ⟨start, []⟩ moves).shared pubkey now limit, draft.id ≠ id

end Run

/-! ## Two drafts of one author -/

def author : Key := Vector.replicate 32 0x11

def authorHex : String := Escrow.toHex author

/-- A draft as `scheduled_create` writes it, due at the given time. -/
def note (content : String) (due : Int) : StoredPost where
  id := ""
  pubkey := authorHex
  content := content
  kind := 1
  createdAt := 0
  tagsJson := "[]"
  sig := none
  replyTo := none
  rootId := none
  mentionedPubkeys := "[]"
  mentionedHashtags := "[]"
  subject := none
  syncStatus := "scheduled"
  isDeleted := false
  scheduledAt := some due
  freenetKey := none
  isFreenetNative := false
  rsvpEventId := none
  category := none
  repostsCount := 0

def notes : Db :=
  { Db.empty with posts := ((Table.empty.upsert "sched:1" (note "one" 5) id).upsert "sched:2" (note "two" 6) id) }

def plain : Externals where
  passes _ _ := true
  extract _ := []
  readTags _ := some []
  writeTags _ := "[]"
  parseTag := some
  eventId body := Nostr.beBytes 32 body.createdAt.toNat
  listingCategory _ := none
  escapedText _ := ""

def fine (now : Int) : Input where
  now := now
  fault := none
  filters := []
  signer := some author
  signing := .ok (Nostr.beBytes 64 7)
  meshOk := false
  network := .ok ()
  queued := .ok ()

def refused (now : Int) : Input := { fine now with network := .error "offline", queued := .error "disk full" }

/-- The first publication is refused; the next run signs the draft anew. -/
def retried : List (Move Call Input) :=
  [.call ⟨some author, authorHex, 10⟩, .advance 0 (fine 10), .advance 0 (fine 10), .advance 0 (refused 11),
    .call ⟨some author, authorHex, 10⟩, .advance 1 (fine 20), .advance 1 (fine 20)]

def draftOne : PostRow := { (note "one" 5).toPostRow with id := "sched:1" }

def draftTwo : PostRow := { (note "two" 6).toPostRow with id := "sched:2" }

theorem getDueScheduled_notes (now : Int) (due : 6 ≤ now) :
    getDueScheduled notes authorHex now 10 = [draftOne, draftTwo] := by
  have rows : (notes.posts.rows.map fun (id, row) => { row.toPostRow with id := id }) = [draftOne, draftTwo] := by
    decide
  have owned : authorHex = normKey authorHex := by decide
  have one : Due draftOne authorHex now := ⟨⟨rfl, rfl, rfl⟩, owned, by rintro _ ⟨⟩; omega⟩
  have two : Due draftTwo authorHex now := ⟨⟨rfl, rfl, rfl⟩, owned, by rintro _ ⟨⟩; exact due⟩
  simp only [getDueScheduled, rows, List.filter_cons, one, two, decide_true, if_true, List.filter_nil]
  rw [List.mergeSort_of_pairwise (by decide)]
  rfl

def signedAt (stamp : UInt64) : Event := ⟨⟨author, stamp, 1, [], "one"⟩, Nostr.beBytes 32 stamp.toNat, Nostr.beBytes 64 7⟩

def stoppedRun : Proc :=
  .stopped "publish failed and queue failed: offline; disk full" ⟨10, 0, [], [draftTwo]⟩ draftOne (.handed (signedAt 10))

theorem run_refused : run (step plain) ⟨notes, []⟩ (retried.take 4) = ⟨notes, [stoppedRun]⟩ := by
  have begun : run (step plain) ⟨notes, []⟩ (retried.take 2) =
      ⟨notes, [.drafting ⟨10, 0, [], getDueScheduled notes authorHex 10 10⟩]⟩ := rfl
  rw [getDueScheduled_notes 10 (by decide)] at begun
  have split : retried.take 4 = retried.take 2 ++ [.advance 0 (fine 10), .advance 0 (refused 11)] := rfl
  rw [split, Runs.run_append, begun]
  rfl

theorem run_retried :
    run (step plain) ⟨notes, []⟩ retried =
      ⟨notes, [stoppedRun, .publishing ⟨20, 0, [], [draftTwo]⟩ draftOne (signedAt 20)]⟩ := by
  have begun : run (step plain) ⟨notes, [stoppedRun]⟩ [.call ⟨some author, authorHex, 10⟩, .advance 1 (fine 20)] =
      ⟨notes, [stoppedRun, .drafting ⟨20, 0, [], getDueScheduled notes authorHex 20 10⟩]⟩ := rfl
  rw [getDueScheduled_notes 20 (by decide)] at begun
  have split : retried = retried.take 4 ++ ([.call ⟨some author, authorHex, 10⟩, .advance 1 (fine 20)] ++
      [.advance 1 (fine 20)]) := rfl
  rw [split, Runs.run_append, run_refused, Runs.run_append, begun]
  rfl

/-- The second run then promotes both drafts, one after the other. -/
def finished : List (Move Call Input) := retried ++ List.replicate 9 (.advance 1 (fine 21))

theorem promoted_finished :
    ((run (step plain) ⟨notes, []⟩ finished).procs.map Proc.promoted) = [[], [draftOne, draftTwo]] := by
  rw [finished, Runs.run_append, run_retried]
  rfl

end Soshal.Bridge.Scheduled
