import Soshal.Nostr.VerifiedCache
import Soshal.Sync.Effects

/-! Deletion events against the posts they name.

A deletion marks the stored rows it names and leaves no trace of the ids it does not
find. A post therefore ends deleted when a deletion of its author arrives after the
post itself; every other order leaves it visible. Deletions of other keys never mark it,
and a marked row is never shown again.
-/

set_option autoImplicit false

namespace Soshal.Sync

open Nostr Library Library.Text Db

variable (env : Env)

/-- The row stored under the id of `p`. -/
def rowOf (db : Db) (p : Event) : Option StoredPost := db.posts.find? (idHex p)

def Stored (db : Db) (p : Event) : Prop := (rowOf db p).isSome = true

def Deleted (db : Db) (p : Event) : Prop := (rowOf db p).any (fun row => row.isDeleted) = true

def Visible (db : Db) (p : Event) : Prop := (rowOf db p).any (fun row => !row.isDeleted) = true

/-- A row under the id of `p` belongs to the author of `p`. -/
def Owned (db : Db) (p : Event) : Prop := ∀ row, rowOf db p = some row → row.pubkey = pubkeyHex p

/-- The delivery writes a row under the id of `p`. -/
def Stores (p : Event) (d : Delivery) : Prop :=
  idHex d.event = idHex p ∧ IsPost d.event ∧ (storableRow env d).isSome = true

/-- The delivery is a deletion that names `p`, signed by `author`. -/
def DeletesBy (author : Vector UInt8 32) (p : Event) (d : Delivery) : Prop :=
  kindOf d.event = .eventDeletion ∧ d.event.pubkey = author ∧ idHex p ∈ (eTags d.event).map normKey

theorem pubkeyHex_inj {e p : Event} : pubkeyHex e = pubkeyHex p ↔ e.pubkey = p.pubkey :=
  ⟨fun same => Vector.toList_inj.mp (hexEncode_inj same), fun same => by rw [pubkeyHex, pubkeyHex, same]⟩

theorem idHex_inj {e p : Event} : idHex e = idHex p ↔ e.id = p.id :=
  ⟨fun same => Vector.toList_inj.mp (hexEncode_inj same), fun same => by rw [idHex, idHex, same]⟩

theorem not_deletion_of_isPost {e : Event} (isPost : IsPost e) : kindOf e ≠ .eventDeletion := by
  intro kind
  have direct : isDirect e = true := by simp [isDirect, kind]
  simp [isPost.1] at direct

theorem merge_keeps (new old : StoredPost) (fresh : new.isDeleted = false) :
    (new.merge old).pubkey = old.pubkey ∧ (new.merge old).isDeleted = old.isDeleted := by
  unfold StoredPost.merge
  split
  · exact ⟨rfl, rfl⟩
  · rename_i live
    exact ⟨rfl, by simp [fresh, live]⟩

theorem toStored_fresh {d : Delivery} {row : PostRow} (found : storableRow env d = some row) :
    (row.toStored env.listingCategory).pubkey = pubkeyHex d.event ∧
      (row.toStored env.listingCategory).isDeleted = false := by
  have posted := (Option.filter_eq_some_iff.mp found).1
  refine ⟨by simp [PostRow.toStored, PostRow.withKeys, (storableRow_keys env found).2], ?_⟩
  unfold postRow at posted
  dsimp only at posted
  split at posted
  · cases posted
  · rw [← Option.some.inj posted]
    rfl

/-- What one verified event does to the row of `p`. -/
structure RowStep (db after : Db) (p : Event) (d : Delivery) : Prop where
  stored : Stored after p ↔ Stored db p ∨ Stores env p d
  deleted : Deleted after p ↔ Deleted db p ∨ (Stored db p ∧ DeletesBy p.pubkey p d)
  owned : Owned after p

/-- A delivery that stores no row of `p` and rewrites the one there is under the same author. -/
theorem rowStep_of_map {db after : Db} {p : Event} {d : Delivery} (owned : Owned db p) (noStore : ¬ Stores env p d)
    (change : StoredPost → StoredPost) (row : rowOf after p = (rowOf db p).map change)
    (kept : ∀ old, (change old).pubkey = old.pubkey)
    (flag : ∀ old, rowOf db p = some old → ((change old).isDeleted = true ↔
      old.isDeleted = true ∨ DeletesBy p.pubkey p d)) : RowStep env db after p d := by
  refine ⟨by simp [Stored, row, noStore], ?_, ?_⟩
  · cases before : rowOf db p with
    | none => simp [Deleted, Stored, row, before]
    | some old =>
      have := flag old before
      simp only [Deleted, Stored, row, before, Option.map_some, Option.any_some, Option.isSome_some, true_and]
      exact this
  · intro new found
    rw [row] at found
    obtain ⟨old, before, rfl⟩ := Option.map_eq_some_iff.mp found
    rw [kept]
    exact owned old before

theorem tombstone_pubkey (ids : List String) (requester id : String) (post : StoredPost) :
    (tombstone ids requester id post).pubkey = post.pubkey := by
  unfold tombstone
  split <;> rfl

theorem tombstone_marks {db : Db} {p : Event} {d : Delivery} (owned : Owned db p)
    (kind : kindOf d.event = .eventDeletion) (old : StoredPost) (before : rowOf db p = some old) :
    (tombstone (eTags d.event) (pubkeyHex d.event) (idHex p) old).isDeleted = true ↔
      old.isDeleted = true ∨ DeletesBy p.pubkey p d := by
  have mine : old.pubkey = normKey (pubkeyHex d.event) ↔ d.event.pubkey = p.pubkey := by
    rw [owned old before, normKey_pubkeyHex, eq_comm, pubkeyHex_inj]
  by_cases hit : idHex p ∈ (eTags d.event).map normKey ∧ d.event.pubkey = p.pubkey
  · rw [tombstone_hit hit.1 (mine.mpr hit.2)]
    exact iff_of_true rfl (.inr ⟨kind, hit.2, hit.1⟩)
  · have missed : idHex p ∈ (eTags d.event).map normKey → old.pubkey ≠ normKey (pubkeyHex d.event) :=
      fun named same => hit ⟨named, mine.mp same⟩
    rw [tombstone_miss missed]
    have noMark : ¬ DeletesBy p.pubkey p d := fun deletes => hit ⟨deletes.2.2, deletes.2.1⟩
    simp [noMark]

theorem rowStep_applied {db : Db} {p : Event} {d : Delivery} (owned : Owned db p)
    (author : idHex d.event = idHex p → d.event.pubkey = p.pubkey) : RowStep env db (applied env db d) p d := by
  cases applied_posts env db d with
  | marks kind same =>
    -- A deletion stores no post.
    have row : rowOf (applied env db d) p =
        (rowOf db p).map (tombstone (eTags d.event) (pubkeyHex d.event) (idHex p)) := by
      rw [rowOf, same, Table.find?_modify]
      rfl
    have noStore : ¬ Stores env p d := fun stores => not_deletion_of_isPost stores.2.1 kind
    exact rowStep_of_map env owned noStore _ row (tombstone_pubkey _ _ _) (tombstone_marks owned kind)
  | writes row isPost found same =>
    -- A post deletes nothing, and is stored as a new row or over its old one.
    obtain ⟨pubkey, live⟩ := toStored_fresh env found
    have noMark : ¬ DeletesBy p.pubkey p d := fun deletes => not_deletion_of_isPost isPost deletes.1
    by_cases other : idHex d.event = idHex p
    · have stores : Stores env p d := ⟨other, isPost, by simp [found]⟩
      have after : rowOf (applied env db d) p = some ((rowOf db p).elim (row.toStored env.listingCategory)
          (row.toStored env.listingCategory).merge) := by
        rw [rowOf, same, other, Table.find?_upsert_self]
        rfl
      cases before : rowOf db p with
      | none =>
        rw [before, Option.elim_none] at after
        refine ⟨by simp [Stored, after, stores], by simp [Deleted, Stored, after, before, live], ?_⟩
        intro new found
        rw [after, Option.some.injEq] at found
        rw [← found, pubkey, pubkeyHex_inj]
        exact author other
      | some old =>
        obtain ⟨kept, flag⟩ := merge_keeps (row.toStored env.listingCategory) old live
        rw [before, Option.elim_some] at after
        refine ⟨by simp [Stored, after, stores], by simp [Deleted, after, before, flag, noMark], ?_⟩
        intro new found
        rw [after, Option.some.injEq] at found
        rw [← found, kept]
        exact owned old before
    · have after : rowOf (applied env db d) p = (rowOf db p).map id := by
        rw [rowOf, same, Table.find?_upsert_of_ne _ _ _ (Ne.symm other), Option.map_id]
        rfl
      have noStore : ¬ Stores env p d := fun stores => other stores.1
      exact rowStep_of_map env owned noStore id after (fun _ => rfl) fun old _ => by simp [noMark]
  | recounts kind missing same =>
    -- Counts change nothing that the law is about.
    obtain ⟨count, same⟩ := same
    have after : rowOf (applied env db d) p =
        (rowOf db p).map fun post => { post with repostsCount := count (idHex p) post } := by
      rw [rowOf, same, Table.find?_modify]
      rfl
    have noStore : ¬ Stores env p d := by
      rintro ⟨-, isPost, found⟩
      rw [missing isPost] at found
      cases found
    have noMark : ¬ DeletesBy p.pubkey p d := fun deletes => kind deletes.1
    exact rowStep_of_map env owned noStore _ after (fun _ => rfl) fun old _ => by simp [noMark]

/-- Every event of the run verifies, and no two of them, nor `p`, share an id. -/
structure GenuineRun (p : Event) (run : List Delivery) : Prop where
  verified : ∀ d ∈ run, d.event.verify env.prims = true
  post : p.verify env.prims = true
  free : Set.InjOn env.prims.eventId {body | body = p.toUnsignedEvent ∨ ∃ d ∈ run, body = d.event.toUnsignedEvent}

theorem GenuineRun.author {p : Event} {run : List Delivery} (genuine : GenuineRun env p run) {d : Delivery}
    (member : d ∈ run) (same : idHex d.event = idHex p) : d.event.pubkey = p.pubkey := by
  have hash := ((d.event.verify_iff env.prims).mp (genuine.verified d member)).1
  have hash' := ((p.verify_iff env.prims).mp genuine.post).1
  have bodies : d.event.toUnsignedEvent = p.toUnsignedEvent :=
    genuine.free (.inr ⟨d, member, rfl⟩) (.inl rfl) (by rw [← hash, ← hash', idHex_inj.mp same])
  rw [bodies]

theorem GenuineRun.initial {p : Event} {first second : List Delivery}
    (genuine : GenuineRun env p (first ++ second)) : GenuineRun env p first where
  verified d member := genuine.verified d (List.mem_append_left _ member)
  post := genuine.post
  free := genuine.free.mono fun _ found =>
    found.imp id fun ⟨d, member, same⟩ => ⟨d, List.mem_append_left _ member, same⟩

/-- The post was there at the start, or an earlier event stored it, when its author's deletion came. -/
def DeletedAfterStored (db : Db) (p : Event) (run : List Delivery) : Prop :=
  Deleted db p ∨ ∃ before d rest, run = before ++ d :: rest ∧ DeletesBy p.pubkey p d ∧
    (Stored db p ∨ ∃ earlier ∈ before, Stores env p earlier)

theorem deletedAfterStored_snoc (db : Db) (p : Event) (run : List Delivery) (d : Delivery) :
    DeletedAfterStored env db p (run ++ [d]) ↔
      DeletedAfterStored env db p run ∨
        (DeletesBy p.pubkey p d ∧ (Stored db p ∨ ∃ earlier ∈ run, Stores env p earlier)) := by
  constructor
  · rintro (deleted | ⟨before, marker, rest, split, deletes, present⟩)
    · exact .inl (.inl deleted)
    · rcases List.eq_nil_or_concat rest with rfl | ⟨front, last, rfl⟩
      · obtain ⟨rfl, same⟩ := List.append_inj' split rfl
        obtain rfl : d = marker := by simpa using same
        exact .inr ⟨deletes, present⟩
      · rw [List.concat_eq_append, ← List.cons_append, ← List.append_assoc] at split
        obtain ⟨rfl, -⟩ := List.append_inj' split rfl
        exact .inl (.inr ⟨before, marker, front, rfl, deletes, present⟩)
  · rintro ((deleted | ⟨before, marker, rest, rfl, deletes, present⟩) | ⟨deletes, present⟩)
    · exact .inl deleted
    · exact .inr ⟨before, marker, rest ++ [d], by simp, deletes, present⟩
    · exact .inr ⟨run, d, [], rfl, deletes, present⟩

/-- What a whole run leaves of the row of `p`. -/
structure RowRun (db : Db) (p : Event) (run : List Delivery) : Prop where
  stored : Stored (ingestAll env db run) p ↔ Stored db p ∨ ∃ d ∈ run, Stores env p d
  deleted : Deleted (ingestAll env db run) p ↔ DeletedAfterStored env db p run
  owned : Owned (ingestAll env db run) p

theorem rowRun_ingestAll {db : Db} {p : Event} {run : List Delivery} (genuine : GenuineRun env p run)
    (owned : Owned db p) : RowRun env db p run := by
  -- A deletion marks what is stored when it comes, so the run is taken apart at its last event.
  induction run using List.reverseRecOn with
  | nil => exact ⟨by simp [ingestAll], by simp [ingestAll, DeletedAfterStored], owned⟩
  | append_singleton run d ih =>
    have past := ih (genuine.initial env)
    have step : RowStep env (ingestAll env db run) (ingestAll env db (run ++ [d])) p d := by
      rw [ingestAll_snoc, handle_verified env _ (genuine.verified d (by simp))]
      exact rowStep_applied env past.owned (genuine.author env (by simp))
    refine ⟨?_, ?_, step.owned⟩
    · rw [step.stored, past.stored]
      simp [or_assoc, or_and_right, exists_or]
    · rw [step.deleted, past.deleted, past.stored, deletedAfterStored_snoc, and_comm]

/-- The law of deletions on one run: the post ends deleted, no foreign deletion marks it, and
a deleted post is not shown again. -/
structure DeletionLaw (db : Db) (p : Event) (run : List Delivery) : Prop where
  ends : Deleted (ingestAll env db run) p
  foreign : ∀ before d rest, run = before ++ d :: rest → kindOf d.event = .eventDeletion →
    d.event.pubkey ≠ p.pubkey → Deleted (ingestAll env db (before ++ [d])) p → Deleted (ingestAll env db before) p
  forever : ∀ before between rest, run = before ++ between ++ rest → Deleted (ingestAll env db before) p →
    ¬ Visible (ingestAll env db (before ++ between)) p

theorem not_visible_of_deleted {db : Db} {p : Event} (deleted : Deleted db p) : ¬ Visible db p := by
  unfold Deleted at deleted
  unfold Visible
  cases found : rowOf db p with
  | none => simp
  | some row => simpa [found] using deleted

theorem DeletedAfterStored.extend {db : Db} {p : Event} {run : List Delivery} (more : List Delivery)
    (past : DeletedAfterStored env db p run) : DeletedAfterStored env db p (run ++ more) := by
  rcases past with deleted | ⟨before, d, rest, rfl, deletes, present⟩
  · exact .inl deleted
  · exact .inr ⟨before, d, rest ++ more, by simp, deletes, present⟩

/-- The law holds on exactly the runs in which a deletion by the author follows the post. -/
theorem deletionLaw_iff {db : Db} {p : Event} {run : List Delivery} (genuine : GenuineRun env p run)
    (owned : Owned db p) : DeletionLaw env db p run ↔ DeletedAfterStored env db p run := by
  have facts := rowRun_ingestAll env genuine owned
  refine ⟨fun law => facts.deleted.mp law.ends, fun after => ⟨facts.deleted.mpr after, ?_, ?_⟩⟩
  · rintro before d rest rfl kind foreign marked
    have genuineStep : GenuineRun env p (before ++ [d]) := by
      rw [List.append_cons] at genuine
      exact genuine.initial env
    have past := rowRun_ingestAll env (genuineStep.initial env) owned
    have step := rowRun_ingestAll env genuineStep owned
    rcases (deletedAfterStored_snoc env db p before d).mp (step.deleted.mp marked) with earlier | ⟨deletes, -⟩
    · exact past.deleted.mpr earlier
    · exact absurd deletes.2.1 foreign
  · rintro before between rest rfl marked
    have past := rowRun_ingestAll env ((genuine.initial env).initial env) owned
    have later := rowRun_ingestAll env (genuine.initial env) owned
    exact not_visible_of_deleted (later.deleted.mpr ((past.deleted.mp marked).extend env between))

section Note

/-- The deletion of `note` by its author. -/
def noteDeletion : Event where
  pubkey := notePubkey
  createdAt := 1700000100
  kind := 5
  tags := [["e", idHex note]]
  content := ""
  id := beBytes 32 0x04ee4cabad2b1dd917d44014d18e2f767ee6643b67d43065ee61d78c143eb807
  sig := beBytes 64 0xeda4cb169906910133ed6bbb1a3726160d606dac1e788d6a32ec8342601d93086ed0d069755883cbc50b6336201e05d9c1ed9d1bbca970c6a36c0b6918708949

def noteEnv : Env := .plain (.ofSigned [note, noteDeletion]) ""

def deliver (e : Event) : Delivery := ⟨e, 1700000200, true⟩

theorem genuine_notes {run : List Delivery} (notes : ∀ d ∈ run, d.event = note ∨ d.event = noteDeletion) :
    GenuineRun noteEnv note run := by
  have distinct : ([note, noteDeletion].map Event.toUnsignedEvent).Nodup := by decide
  have member : ∀ d ∈ run, d.event ∈ [note, noteDeletion] := fun d found => by simpa using notes d found
  refine ⟨fun d found => Primitives.verify_ofSigned distinct (member d found),
    Primitives.verify_ofSigned distinct (by simp), ?_⟩
  refine (Primitives.injOn_ofSigned distinct (by decide)).mono ?_
  rintro _ (rfl | ⟨d, found, rfl⟩)
  · exact ⟨note, by simp, rfl⟩
  · exact ⟨d.event, member d found, rfl⟩

theorem stores_note : Stores noteEnv note (deliver note) := by
  exact ⟨rfl, ⟨by decide, by decide⟩, by decide⟩

theorem deletes_note : DeletesBy notePubkey note (deliver noteDeletion) := by
  refine ⟨by decide, rfl, ?_⟩
  simp [eTags, tagContents, deliver, noteDeletion]

theorem owned_empty (p : Event) : Owned Db.empty p := by simp [Owned, rowOf, Db.empty]

/-- The deletion arrives first and leaves no trace: the note is stored visible. -/
theorem deletion_before_note_is_lost :
    GenuineRun noteEnv note [deliver noteDeletion, deliver note] ∧
      ¬ DeletionLaw noteEnv Db.empty note [deliver noteDeletion, deliver note] := by
  have genuine : GenuineRun noteEnv note [deliver noteDeletion, deliver note] := genuine_notes (by simp [deliver])
  refine ⟨genuine, fun law => ?_⟩
  have facts := rowRun_ingestAll noteEnv genuine (owned_empty note)
  rcases facts.deleted.mp law.ends with deleted | ⟨before, d, rest, split, deletes, present⟩
  · simp [Deleted, rowOf, Db.empty] at deleted
  · have unstored : ¬ Stored Db.empty note := by simp [Stored, rowOf, Db.empty]
    rcases before with _ | ⟨first, before⟩
    · simp [unstored] at present
    · -- the only event after the deletion is the note itself
      obtain ⟨-, tail⟩ := List.cons.inj split
      have last : d = deliver note := by
        rcases before with _ | ⟨second, before⟩
        · exact (List.cons.inj tail).1.symm
        · simp at tail
      rw [last] at deletes
      exact absurd deletes.1 (by decide)

theorem deletion_after_note_holds :
    GenuineRun noteEnv note [deliver note, deliver noteDeletion] ∧
      DeletionLaw noteEnv Db.empty note [deliver note, deliver noteDeletion] := by
  have genuine : GenuineRun noteEnv note [deliver note, deliver noteDeletion] := genuine_notes (by simp [deliver])
  refine ⟨genuine, (deletionLaw_iff noteEnv genuine (owned_empty note)).mpr (.inr ?_)⟩
  exact ⟨[deliver note], deliver noteDeletion, [], rfl, deletes_note, .inr ⟨deliver note, by simp, stores_note⟩⟩

end Note

end Soshal.Sync
