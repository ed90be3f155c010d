import Soshal.Db.Store
import Soshal.Library.Runs

/-! The repost counter of a post, which triggers on another table keep. -/

set_option autoImplicit false

namespace Soshal.Db

open Library Library.Text
open Library.Runs (Always Throughout always_iff_of_invariant)

/-- The rows of `reposts` with this `event_id`. -/
def repostRows (db : Db) (eventId : String) : Nat :=
  (db.reposts.rows.filter fun row => decide (row.2.eventId = eventId)).length

def countByEvent (db : Db) (eventId : String) : Nat := repostRows db (normKey eventId)

/-- `MAX(reposts_count - 1, 0)`. -/
def decrement (count : Int) : Int := max (count - 1) 0

/-- A delete on `reposts`; its trigger `reposts_ad` runs for each row that goes. -/
def deleteReposts (db : Db) (p : RepostRow → Bool) : Db :=
  { db with
    reposts := db.reposts.delete fun _ row => p row
    posts := db.posts.modify fun id post =>
      let gone := (db.reposts.rows.filter fun row => decide (row.2.eventId = id) && p row.2).length
      { post with repostsCount := decrement^[gone] post.repostsCount } }

inductive RepostCall where
  | upsertRepost (repost : RepostRow)
  | deleteReposts (p : RepostRow → Bool)
  | upsertPost (post : PostRow)

variable (listingCategory : String → Option String)

/-- A post over the size caps is refused, alone or in a batch. -/
def repostStep (db : Db) : RepostCall → Db
  | .upsertRepost repost => db.upsertRepost repost
  | .deleteReposts p => deleteReposts db p
  | .upsertPost post => upsertPostOrSkip listingCategory db post

/-- Every stored post has the counter that counting its reposts gives. -/
def CountsAgree (db : Db) : Prop :=
  ∀ id post, db.posts.find? id = some post →
    post.repostsCount = repostRows db id ∧ post.repostsCount = countByEvent db id

/-- A post that is stored for the first time has no repost waiting for it. -/
def StoredBeforeReposts (db : Db) : RepostCall → Prop
  | .upsertPost post =>
    rowTooBig post.content post.tagsJson = true ∨ normKey post.id ∈ db.posts.keys ∨
      repostRows db (normKey post.id) = 0
  | _ => True

/-- The counters, over a table whose keys are in the spelling of `normKey`. -/
structure Counted (db : Db) : Prop where
  normal : ∀ id ∈ db.posts.keys, normKey id = id
  counts : ∀ id post, db.posts.find? id = some post → post.repostsCount = repostRows db id

theorem Counted.agree {db : Db} (counted : Counted db) : CountsAgree db := by
  intro id post found
  have stored : id ∈ db.posts.keys := Table.mem_keys_iff.mpr ⟨post, found⟩
  rw [countByEvent, counted.normal id stored]
  exact ⟨counted.counts id post found, counted.counts id post found⟩

theorem decrement_iterate (n rest : Nat) : decrement^[n] ((n + rest : Nat) : Int) = rest := by
  induction n with
  | zero => simp
  | succ n ih =>
    have one : decrement ((n + 1 + rest : Nat) : Int) = ((n + rest : Nat) : Int) := by
      unfold decrement
      omega
    rw [Function.iterate_succ_apply, one, ih]

theorem Counted.deleteReposts {db : Db} (counted : Counted db) (p : RepostRow → Bool) :
    Counted (deleteReposts db p) where
  normal id stored := by
    rw [Db.deleteReposts, Table.keys_modify] at stored
    exact counted.normal id stored
  counts id post found := by
    rw [Db.deleteReposts, Table.find?_modify, Option.map_eq_some_iff] at found
    obtain ⟨before, stored, rfl⟩ := found
    -- the reposts of this post, those that go and those that stay
    have split : repostRows db id =
        (db.reposts.rows.filter fun row => decide (row.2.eventId = id) && p row.2).length +
          repostRows (Db.deleteReposts db p) id := by
      have parts := List.length_eq_length_filter_add (l := db.reposts.rows.filter fun row => decide (row.2.eventId = id))
        fun row => p row.2
      rw [List.filter_filter, List.filter_filter] at parts
      rw [repostRows, parts, repostRows, Db.deleteReposts, Table.delete, List.filter_filter]
      simp only [Bool.and_comm]
    show decrement^[_] before.repostsCount = _
    rw [counted.counts id before stored, split, decrement_iterate]

theorem Counted.upsertRepost {db : Db} (counted : Counted db) (repost : RepostRow) :
    Counted (db.upsertRepost repost) := by
  unfold Db.upsertRepost
  dsimp only
  split
  · exact ⟨counted.normal, counted.counts⟩
  · rename_i fresh
    have absent : normKey repost.id ∉ db.reposts.keys := fresh
    refine ⟨fun id stored => counted.normal id ?_, fun id post found => ?_⟩
    · rwa [Table.keys_modify] at stored
    · rw [Table.find?_modify, Option.map_eq_some_iff] at found
      obtain ⟨before, stored, rfl⟩ := found
      have old := counted.counts id before stored
      rw [repostRows] at old
      by_cases same : id = normKey repost.eventId <;>
        simp [repostRows, Table.insertIgnore, Table.upsert, Db.ensureUser, absent, List.filter_append, same, old,
          eq_comm]

theorem repostsCount_writePost {db : Db} {post : PostRow} {id : String} {after : StoredPost}
    (found : (db.writePost listingCategory post).posts.find? id = some after) :
    (∃ before, db.posts.find? id = some before ∧ after.repostsCount = before.repostsCount) ∨
      id = normKey post.id ∧ normKey post.id ∉ db.posts.keys ∧ after.repostsCount = 0 := by
  unfold Db.writePost at found
  simp only [Db.ensureUser] at found
  rw [Table.find?_upsert] at found
  split at found
  · rename_i same
    have key : id = normKey post.id := same
    subst key
    cases stored : db.posts.find? (normKey post.id) with
    | none =>
      have missing : db.posts.find? (post.toStored listingCategory).id = none := stored
      rw [missing] at found
      obtain rfl := Option.some.inj found
      exact .inr ⟨rfl, Table.find?_eq_none.mp stored, rfl⟩
    | some before =>
      have present : db.posts.find? (post.toStored listingCategory).id = some before := stored
      rw [present] at found
      obtain rfl := Option.some.inj found
      refine .inl ⟨before, rfl, ?_⟩
      show (StoredPost.merge _ before).repostsCount = _
      unfold StoredPost.merge
      split <;> rfl
  · exact .inl ⟨after, found, rfl⟩

theorem repostRows_writePost (db : Db) (post : PostRow) (id : String) :
    repostRows (db.writePost listingCategory post) id = repostRows db id := rfl

theorem mem_keys_writePost {db : Db} {post : PostRow} {id : String} :
    id ∈ (db.writePost listingCategory post).posts.keys ↔ id = normKey post.id ∨ id ∈ db.posts.keys :=
  Table.mem_keys_upsert

theorem counted_step {db : Db} (counted : Counted db) (call : RepostCall) (first : StoredBeforeReposts db call) :
    Counted (repostStep listingCategory db call) := by
  cases call with
  | upsertRepost repost => exact counted.upsertRepost repost
  | deleteReposts p => exact counted.deleteReposts p
  | upsertPost post =>
    show Counted (upsertPostOrSkip listingCategory db post)
    unfold upsertPostOrSkip
    split
    · exact counted
    · rename_i fits
      refine ⟨fun id stored => ?_, fun id after found => ?_⟩
      · rcases (mem_keys_writePost listingCategory).mp stored with rfl | old
        · exact normKey_normKey post.id
        · exact counted.normal id old
      · rw [repostRows_writePost]
        rcases repostsCount_writePost listingCategory found with ⟨before, stored, same⟩ | ⟨rfl, new, zero⟩
        · rw [same, counted.counts id before stored]
        · rcases first with big | old | none
          · exact absurd big fits
          · exact absurd old new
          · rw [zero, none]
            rfl

theorem storedBeforeReposts_of_agree {db : Db} (call : RepostCall)
    (agree : CountsAgree (repostStep listingCategory db call)) : StoredBeforeReposts db call := by
  cases call with
  | upsertRepost | deleteReposts => trivial
  | upsertPost post =>
    by_cases big : rowTooBig post.content post.tagsJson = true
    · exact .inl big
    by_cases old : normKey post.id ∈ db.posts.keys
    · exact .inr (.inl old)
    · simp only [repostStep, upsertPostOrSkip, if_neg big] at agree
      have stored := (@mem_keys_writePost listingCategory db post _).mpr (.inl rfl)
      obtain ⟨after, found⟩ := Table.mem_keys_iff.mp stored
      have counts := (agree _ after found).1
      rw [repostRows_writePost] at counts
      rcases repostsCount_writePost listingCategory found with ⟨before, earlier, -⟩ | ⟨-, -, zero⟩
      · exact absurd (Table.mem_keys_iff.mpr ⟨before, earlier⟩) old
      · exact .inr (.inr (by omega))

theorem counted_empty : Counted Db.empty where
  normal id stored := by cases stored
  counts id post found := by cases found

/-- From an empty store the counters agree after every call exactly when every post is stored
before the first of its reposts. -/
theorem repostsCount_agrees_iff (calls : List RepostCall) :
    Always (repostStep listingCategory) CountsAgree Db.empty calls ↔
      Throughout (repostStep listingCategory) StoredBeforeReposts Db.empty calls :=
  @always_iff_of_invariant _ _ (repostStep listingCategory) _ _ CountsAgree Counted StoredBeforeReposts
    (fun _ counted => counted.agree)
    (fun _ call _ agree => storedBeforeReposts_of_agree listingCategory call agree)
    (fun _ call counted first => counted_step listingCategory counted call first) counted_empty

def earlyRepost : RepostRow := ⟨"r1", "bob", "p1", 5⟩

def latePost : PostRow where
  id := "p1"
  pubkey := "alice"
  content := "hi"
  kind := 1
  createdAt := 4
  tagsJson := "[]"
  sig := none
  replyTo := none
  rootId := none
  mentionedPubkeys := "[]"
  mentionedHashtags := "[]"
  subject := none
  syncStatus := "synced"
  isDeleted := false
  scheduledAt := none
  freenetKey := none
  isFreenetNative := false
  rsvpEventId := none

theorem earlyRepost_uncounted :
    ¬ CountsAgree (Library.Runs.run (repostStep fun _ => none) Db.empty
      [.upsertRepost earlyRepost, .upsertPost latePost]) := by
  intro agree
  have counts := agree "p1" (latePost.toStored fun _ => none) (by decide)
  exact absurd counts.1 (by decide)

end Soshal.Db
