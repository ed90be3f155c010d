import Soshal.Sync.Notices

/-! Posts that a batch writes late.

A batch keeps the rows of its posts until every other event is handled. This module says
when a deletion, a repost count or a lookup gives the same with these rows written before
or after it.
-/

set_option autoImplicit false

namespace Soshal.Sync

open Nostr Library Library.Text Db

def write (posts : Table String StoredPost) (new : StoredPost) : Table String StoredPost :=
  posts.upsert new.id new new.merge

def writes (posts : Table String StoredPost) (news : List StoredPost) : Table String StoredPost :=
  news.foldl write posts

theorem writes_snoc (posts : Table String StoredPost) (news : List StoredPost) (new : StoredPost) :
    writes posts (news ++ [new]) = write (writes posts news) new := by simp [writes]

variable {posts : Table String StoredPost} {new : StoredPost} {news : List StoredPost}

theorem mem_keys_write {id : String} :
    id ∈ (write posts new).keys ↔ id = new.id ∨ id ∈ posts.keys := Table.mem_keys_upsert

theorem mem_keys_writes {id : String} :
    id ∈ (writes posts news).keys ↔ (∃ new ∈ news, id = new.id) ∨ id ∈ posts.keys := by
  induction news using List.reverseRecOn with
  | nil => simp [writes]
  | append_singleton news new ih =>
    rw [writes_snoc, mem_keys_write, ih]
    simp only [List.mem_append, List.mem_singleton]
    constructor
    · rintro (same | ⟨other, member, same⟩ | stored)
      · exact .inl ⟨new, .inr rfl, same⟩
      · exact .inl ⟨other, .inl member, same⟩
      · exact .inr stored
    · rintro (⟨other, member | rfl, same⟩ | stored)
      · exact .inr (.inl ⟨other, member, same⟩)
      · exact .inl same
      · exact .inr (.inr stored)

def SameRecord (first second : StoredPost) : Prop :=
  first.pubkey = second.pubkey ∧ first.kind = second.kind ∧ first.replyTo = second.replyTo

theorem sameRecord_merge (new old : StoredPost) : SameRecord (new.merge old) old := by
  unfold StoredPost.merge
  split <;> exact ⟨rfl, rfl, rfl⟩

theorem author_writes {id : String} {post : StoredPost} (found : (writes posts news).find? id = some post) :
    (∃ old, posts.find? id = some old ∧ post.pubkey = old.pubkey) ∨
      ∃ new ∈ news, id = new.id ∧ post.pubkey = new.pubkey := by
  induction news using List.reverseRecOn generalizing post with
  | nil => exact .inl ⟨post, found, rfl⟩
  | append_singleton news new ih =>
    rw [writes_snoc, write, Table.find?_upsert] at found
    have carry : ∀ old, (writes posts news).find? id = some old → post.pubkey = old.pubkey →
        (∃ old, posts.find? id = some old ∧ post.pubkey = old.pubkey) ∨
          ∃ new' ∈ news ++ [new], id = new'.id ∧ post.pubkey = new'.pubkey := by
      intro old stored same
      rcases ih stored with ⟨first, start, author⟩ | ⟨first, member, key, author⟩
      · exact .inl ⟨first, start, same.trans author⟩
      · exact .inr ⟨first, List.mem_append_left _ member, key, same.trans author⟩
    split at found
    · rename_i key
      cases stored : (writes posts news).find? new.id with
      | none =>
        rw [stored] at found
        obtain rfl := Option.some.inj found
        exact .inr ⟨new, by simp, key, rfl⟩
      | some old =>
        rw [stored] at found
        obtain rfl := Option.some.inj found
        exact carry old (key ▸ stored) (sameRecord_merge new old).1
    · exact carry post found rfl

theorem merge_isDeleted (visible : new.isDeleted = false) (old : StoredPost) :
    (new.merge old).isDeleted = old.isDeleted := by
  unfold StoredPost.merge
  cases deleted : old.isDeleted with
  | true => rw [if_pos rfl, deleted]
  | false => rw [if_neg Bool.false_ne_true, visible]

/-- The post is a stored one with nothing but its deletion flag and its repost count changed. -/
def FlagsOf (before after : StoredPost) : Prop :=
  ∃ deleted count, after = { before with isDeleted := deleted, repostsCount := count } ∧
    (before.isDeleted = true → deleted = true)

theorem FlagsOf.refl (post : StoredPost) : FlagsOf post post := ⟨post.isDeleted, post.repostsCount, rfl, id⟩

theorem FlagsOf.trans {first second third : StoredPost} (one : FlagsOf first second) (two : FlagsOf second third) :
    FlagsOf first third := by
  obtain ⟨_, _, rfl, kept⟩ := one
  obtain ⟨deleted, count, rfl, kept'⟩ := two
  exact ⟨deleted, count, rfl, fun h => kept' (kept h)⟩

theorem FlagsOf.sameRecord {before after : StoredPost} (flags : FlagsOf before after) : SameRecord after before := by
  obtain ⟨_, _, rfl, -⟩ := flags
  exact ⟨rfl, rfl, rfl⟩

theorem flagsOf_tombstone (ids : List String) (author id : String) (post : StoredPost) :
    FlagsOf post (tombstone ids author id post) := by
  unfold tombstone
  split
  · exact ⟨true, post.repostsCount, rfl, fun _ => rfl⟩
  · exact .refl post

theorem flagsOf_counted (target id : String) (post : StoredPost) : FlagsOf post (counted target id post) := by
  unfold counted
  split
  · exact ⟨post.isDeleted, post.repostsCount + 1, rfl, fun h => h⟩
  · exact .refl post

theorem merge_flags {new before after : StoredPost} (settles : new.merge before = before)
    (flags : FlagsOf before after) : new.merge after = after := by
  obtain ⟨deleted, count, rfl, kept⟩ := flags
  unfold StoredPost.merge at settles ⊢
  dsimp only
  cases deleted with
  | true => rfl
  | false =>
    have visible : before.isDeleted = false := Bool.eq_false_iff.mpr fun h => Bool.false_ne_true (kept h)
    rw [visible, if_neg Bool.false_ne_true] at settles
    rw [if_neg Bool.false_ne_true]
    have flag : new.isDeleted = false := (congrArg (fun post => post.isDeleted) settles).trans visible
    -- the merge did nothing to the columns it rewrites, and the two flags are not among them
    have same := congrArg (fun post : StoredPost => { post with isDeleted := false, repostsCount := count }) settles
    rw [flag]
    exact same

def Flagged (before after : Table String StoredPost) : Prop :=
  ∃ f, after = before.modify f ∧ ∀ id post, FlagsOf post (f id post)

theorem Flagged.refl (posts : Table String StoredPost) : Flagged posts posts :=
  ⟨fun _ post => post, (Table.modify_eq_self fun _ _ => rfl).symm, fun _ post => .refl post⟩

theorem Flagged.trans {first second third : Table String StoredPost} (one : Flagged first second)
    (two : Flagged second third) : Flagged first third := by
  obtain ⟨f, rfl, flags⟩ := one
  obtain ⟨g, rfl, flags'⟩ := two
  exact ⟨fun id post => g id (f id post), Table.modify_modify first f g,
    fun id post => (flags id post).trans (flags' id (f id post))⟩

theorem Flagged.keys {before after : Table String StoredPost} (flagged : Flagged before after) :
    after.keys = before.keys := by
  obtain ⟨f, rfl, -⟩ := flagged
  exact Table.keys_modify before f

theorem flagged_directPosts (reposts : Table String RepostRow) (d : Delivery) (posts : Table String StoredPost) :
    Flagged posts (directPosts reposts d posts) := by
  unfold directPosts
  split
  · exact ⟨_, rfl, flagsOf_tombstone (eTags d.event) (pubkeyHex d.event)⟩
  · cases firstETag d.event with
    | none => exact .refl posts
    | some target =>
      dsimp only [Option.elim_some]
      split
      · exact .refl posts
      · exact ⟨_, rfl, flagsOf_counted (normKey target)⟩
  · exact .refl posts

/-- Writing the rows changes none of the posts that `touches` selects: a row that is new is
not selected, and one that is selected is stored as it is. -/
def Clear (touches : String → StoredPost → Prop) (posts : Table String StoredPost) (news : List StoredPost) : Prop :=
  ∀ new ∈ news, (posts.find? new.id).elim (¬ touches new.id new)
    fun stored => touches new.id stored → new.merge stored = stored

def OnRecord (touches : String → StoredPost → Prop) : Prop :=
  ∀ id first second, SameRecord first second → (touches id first ↔ touches id second)

section Clear

variable {touches : String → StoredPost → Prop} (onRecord : OnRecord touches)
include onRecord

theorem Clear.flagged {before after : Table String StoredPost}
    (clear : Clear touches before news) (flagged : Flagged before after) : Clear touches after news := by
  obtain ⟨f, rfl, flags⟩ := flagged
  intro new member
  have start := clear new member
  rw [Table.find?_modify]
  cases found : before.find? new.id with
  | none =>
    rw [found] at start
    exact start
  | some stored =>
    rw [found] at start
    intro touched
    exact merge_flags (start ((onRecord _ _ _ (flags _ stored).sameRecord).mp touched)) (flags _ stored)

theorem Clear.write {rest : List StoredPost}
    (clear : Clear touches posts (new :: rest)) : Clear touches (write posts new) rest := by
  intro next member
  have first := clear new (List.mem_cons_self ..)
  have start := clear next (List.mem_cons_of_mem _ member)
  unfold Soshal.Sync.write
  rw [Table.find?_upsert]
  by_cases same : next.id = new.id
  · rw [if_pos same, Option.elim_some]
    rw [same] at start ⊢
    cases found : posts.find? new.id with
    | none =>
      rw [found] at first
      exact fun touched => absurd touched first
    | some stored =>
      rw [found] at first start
      intro touched
      have touchedBefore := (onRecord _ _ _ (sameRecord_merge new stored)).mp touched
      rw [Option.elim_some, first touchedBefore]
      exact start touchedBefore
  · rw [if_neg same]
    exact start

end Clear

def marks (e : Event) (id : String) (post : StoredPost) : Prop :=
  id ∈ (eTags e).map normKey ∧ post.pubkey = normKey (pubkeyHex e)

theorem onRecord_marks (e : Event) : OnRecord (marks e) := by
  intro id first second same
  unfold marks
  rw [same.1]

theorem write_tombstone {e : Event} (clear : (posts.find? new.id).elim (¬ marks e new.id new) fun stored =>
      marks e new.id stored → new.merge stored = stored) :
    write (posts.modify (tombstone (eTags e) (pubkeyHex e))) new =
      (write posts new).modify (tombstone (eTags e) (pubkeyHex e)) := by
  apply Table.upsert_modify_comm
  · intro missing
    rw [missing] at clear
    exact if_neg clear
  · intro stored found
    rw [found] at clear
    by_cases marked : marks e new.id stored
    · rw [clear marked, tombstone_hit marked.1 marked.2]
      -- a tombstone keeps every column
      rw [StoredPost.merge, if_pos rfl]
    · have later : ¬ marks e new.id (new.merge stored) :=
        fun h => marked ((onRecord_marks e _ _ _ (sameRecord_merge new stored)).mp h)
      rw [show tombstone (eTags e) (pubkeyHex e) new.id stored = stored from if_neg marked,
        show tombstone (eTags e) (pubkeyHex e) new.id (new.merge stored) = new.merge stored from if_neg later]

theorem writes_tombstone {e : Event} (clear : Clear (marks e) posts news) :
    writes (posts.modify (tombstone (eTags e) (pubkeyHex e))) news =
      (writes posts news).modify (tombstone (eTags e) (pubkeyHex e)) := by
  induction news generalizing posts with
  | nil => rfl
  | cons new rest ih =>
    simp only [writes, List.foldl_cons]
    rw [write_tombstone (clear new (List.mem_cons_self ..))]
    exact ih (clear.write (onRecord_marks e))

theorem merge_counted (new stored : StoredPost) (target id : String) :
    new.merge (counted target id stored) = counted target id (new.merge stored) := by
  unfold counted StoredPost.merge
  split
  · dsimp only
    split <;> rfl
  · rfl

theorem writes_counted {target : String} (stored : ∀ new ∈ news, new.id = target → target ∈ posts.keys) :
    writes (posts.modify (counted target)) news = (writes posts news).modify (counted target) := by
  induction news generalizing posts with
  | nil => rfl
  | cons new rest ih =>
    simp only [writes, List.foldl_cons]
    have swap : write (posts.modify (counted target)) new = (write posts new).modify (counted target) := by
      apply Table.upsert_modify_comm
      · intro missing
        refine if_neg fun same => ?_
        exact Table.find?_eq_none.mp missing (same ▸ stored new (List.mem_cons_self ..) same)
      · intro old _
        exact merge_counted new old target new.id
    rw [swap]
    refine ih fun next member same => mem_keys_write.mpr (.inr ?_)
    exact stored next (List.mem_cons_of_mem _ member) same

/-- The posts that a zap receipt for this note looks through. -/
def requests (note : String) (_ : String) (post : StoredPost) : Prop := post.kind = 9734 ∧ post.replyTo = some note

theorem onRecord_requests (note : String) : OnRecord (requests note) := by
  intro id first second same
  unfold requests
  rw [same.2.1, same.2.2]

theorem filter_requests_write {note : String}
    (clear : (posts.find? new.id).elim (¬ requests note new.id new) fun stored =>
      requests note new.id stored → new.merge stored = stored) :
    (write posts new).rows.filter (fun row => row.2.kind = 9734 ∧ row.2.replyTo = some note) =
      posts.rows.filter fun row => row.2.kind = 9734 ∧ row.2.replyTo = some note := by
  by_cases settled : ∃ stored, posts.find? new.id = some stored ∧ new.merge stored = stored
  · obtain ⟨stored, found, same⟩ := settled
    rw [write, Table.upsert_eq_self found same]
  · apply Table.filter_upsert_of_not
    · intro missing
      rw [missing] at clear
      exact decide_eq_false clear
    · intro stored found
      rw [found] at clear
      have unrelated : ¬ requests note new.id stored := fun request => settled ⟨stored, found, clear request⟩
      have later : ¬ requests note new.id (new.merge stored) :=
        fun request => unrelated ((onRecord_requests note _ _ _ (sameRecord_merge new stored)).mp request)
      exact ⟨decide_eq_false unrelated, decide_eq_false later⟩

theorem filter_requests_writes {note : String} (clear : Clear (requests note) posts news) :
    (writes posts news).rows.filter (fun row => row.2.kind = 9734 ∧ row.2.replyTo = some note) =
      posts.rows.filter fun row => row.2.kind = 9734 ∧ row.2.replyTo = some note := by
  induction news generalizing posts with
  | nil => rfl
  | cons new rest ih =>
    rw [← filter_requests_write (clear new (List.mem_cons_self ..))]
    exact ih (clear.write (onRecord_requests note))

variable (env : Env)

theorem receiptBound_writes {first second : Db} {e : Event} (posts : first.posts = writes second.posts news)
    (clear : ∀ claim, zapClaim env e = some claim → Clear (requests claim.note) second.posts news) :
    receiptBound env first e = receiptBound env second e := by
  unfold receiptBound
  cases claimed : zapClaim env e with
  | none => rfl
  | some claim =>
    have same : first.getZapRequestsForNote claim.note = second.getZapRequestsForNote claim.note := by
      have found := filter_requests_writes (clear claim claimed)
      rw [← posts] at found
      unfold Db.getZapRequestsForNote
      dsimp only
      rw [found]
    rw [Option.any_some, Option.any_some, same]

def spells (target id : String) : Prop := toAsciiLowercase id = toAsciiLowercase target

def mine (post : StoredPost) : Bool := eqIgnoreAsciiCase post.pubkey env.myPubkey

/-- The rows that `post_author_id` reads for a target. -/
def visibleAs (target : String) (row : String × StoredPost) : Bool :=
  toAsciiLowercase row.1 = toAsciiLowercase target ∧ row.2.isDeleted = false

theorem targetsMe_eq (db : Db) (target : String) :
    targetsMe env db target = (db.posts.rows.find? (visibleAs target)).any fun row => mine env row.2 := by
  have same : db.postAuthorId target = (db.posts.rows.find? (visibleAs target)).map fun row => row.2.pubkey := rfl
  rw [targetsMe, same, Option.any_map]
  rfl

theorem targetsMe_modify {first second : Db} {f : String → StoredPost → StoredPost} {target : String}
    (posts : first.posts = second.posts.modify f) (author : ∀ id post, (f id post).pubkey = post.pubkey)
    (visible : ∀ id post, spells target id → (f id post).isDeleted = post.isDeleted) :
    targetsMe env first target = targetsMe env second target := by
  have selects : (visibleAs target ∘ fun row => (row.1, f row.1 row.2)) = visibleAs target := by
    funext row
    simp only [Function.comp_apply, visibleAs]
    by_cases spelled : toAsciiLowercase row.1 = toAsciiLowercase target
    · rw [visible row.1 row.2 spelled]
    · simp [spelled]
  have authors : ∀ row : String × StoredPost, mine env (f row.1 row.2) = mine env row.2 := fun row => by
    simp only [mine, author]
  rw [targetsMe_eq, targetsMe_eq, posts]
  simp only [Table.modify, List.find?_map, selects, Option.any_map, authors]

theorem targetsMe_write {first second : Db} {target : String}
    (posts : first.posts = write second.posts new) (visible : new.isDeleted = false)
    (unseen : spells target new.id → new.id ∈ second.posts.keys ∨ mine env new = false) :
    targetsMe env first target = targetsMe env second target := by
  by_cases present : new.id ∈ second.posts.keys
  · rw [write, Table.upsert, dif_pos present] at posts
    refine targetsMe_modify env posts (fun id post => ?_) fun id post _ => ?_
    · split
      · exact (sameRecord_merge new post).1
      · rfl
    · split
      · exact merge_isDeleted visible post
      · rfl
  · -- a new row is behind every stored one
    have rows : first.posts.rows = second.posts.rows ++ [(new.id, new)] := by
      rw [posts, write, Table.upsert, dif_neg present]
    rw [targetsMe_eq, targetsMe_eq, rows, List.find?_append]
    cases found : second.posts.rows.find? (visibleAs target) with
    | some row => rfl
    | none =>
      rw [Option.none_or, Option.any_none]
      cases selected : visibleAs target (new.id, new) with
      | false => simp [selected]
      | true =>
        simp only [visibleAs, decide_eq_true_eq] at selected
        simpa [visibleAs, selected.1, visible] using (unseen selected.1).resolve_left present

theorem targetsMe_writes {first : Db} (second : Db) {target : String}
    (posts : first.posts = writes second.posts news) (visible : ∀ new ∈ news, new.isDeleted = false)
    (unseen : ∀ new ∈ news, spells target new.id → new.id ∈ second.posts.keys ∨ mine env new = false) :
    targetsMe env first target = targetsMe env second target := by
  -- Rows written before count as stored for those after, so the store varies along the list.
  induction news generalizing second with
  | nil => exact congrFun (targetsMe_congr env posts) target
  | cons new rest ih =>
    have later := ih { second with posts := write second.posts new } posts
      (fun next member => visible next (List.mem_cons_of_mem _ member)) fun next member spelled =>
        (unseen next (List.mem_cons_of_mem _ member) spelled).imp_left fun stored => mem_keys_write.mpr (.inr stored)
    rw [later]
    exact targetsMe_write env rfl (visible new (List.mem_cons_self ..)) (unseen new (List.mem_cons_self ..))

def OneSpelling (target : String) (keys : List String) : Prop :=
  ∀ one ∈ keys, ∀ two ∈ keys, spells target one → spells target two → one = two

theorem targetsMe_iff_of_oneSpelling {db : Db} {target : String} (unique : OneSpelling target db.posts.keys) :
    targetsMe env db target = true ↔ ∃ row ∈ db.posts.rows, visibleAs target row = true ∧ mine env row.2 = true := by
  rw [targetsMe_eq, Option.any_eq_true_iff_get]
  constructor
  · rintro ⟨found, own⟩
    exact ⟨_, List.mem_of_find?_eq_some (Option.some_get found).symm, List.find?_some (Option.some_get found).symm, own⟩
  · rintro ⟨row, member, selected, own⟩
    have found : (db.posts.rows.find? (visibleAs target)).isSome = true :=
      List.find?_isSome.mpr ⟨row, member, selected⟩
    refine ⟨found, ?_⟩
    generalize first : (db.posts.rows.find? (visibleAs target)).get found = row'
    have stored : db.posts.rows.find? (visibleAs target) = some row' := by rw [← first, Option.some_get]
    have selected' := List.find?_some stored
    have member' := List.mem_of_find?_eq_some stored
    -- both rows spell the target, so they are one row
    simp only [visibleAs, decide_eq_true_eq] at selected selected'
    have key : row'.1 = row.1 := unique _ (List.mem_map_of_mem member') _ (List.mem_map_of_mem member)
      selected'.1 selected.1
    have same : some row'.2 = some row.2 := by
      rw [← Table.find?_eq_some.mpr member', ← Table.find?_eq_some.mpr member, key]
    rw [Option.some.inj same]
    exact own

/-- A deletion by another author hides no post of the local user, where one key at most spells the target. -/
theorem targetsMe_tombstone {first second : Db} {ids : List String} {author target : String}
    (posts : first.posts = second.posts.modify (tombstone ids author))
    (foreign : ∀ id ∈ ids, spells target (normKey id) → eqIgnoreAsciiCase (normKey author) env.myPubkey = false ∧
      OneSpelling target second.posts.keys) :
    targetsMe env first target = targetsMe env second target := by
  have sameAuthor : ∀ id post, (tombstone ids author id post).pubkey = post.pubkey := fun id post =>
    (flagsOf_tombstone ids author id post).sameRecord.1
  by_cases named : ∃ id ∈ ids, spells target (normKey id)
  · obtain ⟨id, member, spelled⟩ := named
    obtain ⟨other, unique⟩ := foreign id member spelled
    have unique' : OneSpelling target first.posts.keys := by
      rw [posts, Table.keys_modify]
      exact unique
    -- the rows that are marked are not the local user's
    have untouched : ∀ id post, mine env post = true → tombstone ids author id post = post := by
      intro id post own
      refine tombstone_miss fun _ same => ?_
      rw [mine, same, other] at own
      cases own
    rw [Bool.eq_iff_iff, targetsMe_iff_of_oneSpelling env unique', targetsMe_iff_of_oneSpelling env unique, posts]
    simp only [Table.modify, List.mem_map]
    constructor
    · rintro ⟨_, ⟨row, member, rfl⟩, selected, own⟩
      have own' : mine env row.2 = true := by
        rw [mine, sameAuthor] at own
        exact own
      rw [untouched _ _ own'] at selected
      exact ⟨row, member, selected, own'⟩
    · rintro ⟨row, member, selected, own⟩
      refine ⟨_, ⟨row, member, rfl⟩, ?_⟩
      rw [untouched _ _ own]
      exact ⟨selected, own⟩
  · refine targetsMe_modify env posts sameAuthor fun id post spelled => ?_
    rw [tombstone_miss]
    intro member
    obtain ⟨id', member', rfl⟩ := List.mem_map.mp member
    exact absurd ⟨id', member', spelled⟩ named

end Soshal.Sync
