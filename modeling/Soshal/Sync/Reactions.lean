import Soshal.Library.LastWriter
import Soshal.Sync.Contacts

/-! Reactions of one author to one event, under reordering.

The store keeps one reaction for each author and event. To the reactions that
come in it is a register of the newest one: a retraction empties it, and what is
older than the retraction but comes after it is stored again.
-/

set_option autoImplicit false

namespace Soshal.Sync

open Nostr Library Library.Text Db
open Library.LastWriter (Write Settles ends_iff_settles)

variable (env : Env)

def isPair (pubkey target : String) (row : ReactionRow) : Bool :=
  decide (row.eventId = target ∧ row.pubkey = pubkey)

/-- The stored reaction of a key to an event: its stamp and its content. -/
def heldReaction (db : Db) (pubkey target : String) : Option (Int × Option String) :=
  (db.reactions.rows.find? fun entry => isPair pubkey target entry.2).map fun entry =>
    (entry.2.createdAt, entry.2.content)

def storedReaction (db : Db) (pubkey target : String) : Option (Option String) :=
  (heldReaction db pubkey target).map Prod.snd

def reactionValue (content : String) : Option (Option String) := if content = "-" then none else some (some content)

def writeOf (d : Delivery) : Write Int (Option String) := ⟨d.stamp, reactionValue d.event.content⟩

/-- No stored reaction to another event, or of another key, has this id. -/
def IdApart (db : Db) (id pubkey target : String) : Prop :=
  ∀ entry ∈ db.reactions.rows, entry.1 = id → isPair pubkey target entry.2 = true

section Upsert

variable {db : Db} {row : ReactionRow} {pubkey target content : String}

theorem rows_upsert_of_not_mem {t : Table String ReactionRow} {k : String} {merge : ReactionRow → ReactionRow}
    (absent : k ∉ t.keys) : (t.upsert k row merge).rows = t.rows ++ [(k, row)] := by
  rw [Table.upsert, dif_neg absent]

section

variable (author : normKey row.pubkey = pubkey) (event : normKey row.eventId = target)
  (text : row.content = some content)
include author event text

theorem rows_upsertReaction (apart : IdApart db (normKey row.id) pubkey target) :
    (db.upsertReaction row).reactions.rows =
      if (heldReaction db pubkey target).any fun h => row.createdAt < h.1 then db.reactions.rows
      else (db.reactions.rows.filter fun entry => !isPair pubkey target entry.2) ++
        if content = "-" then []
        else [(normKey row.id, { row with id := normKey row.id, pubkey := pubkey, eventId := target })] := by
  have known :
      (db.reactions.rows.find? fun entry => isPair pubkey target entry.2).map (fun entry => entry.2.createdAt) =
      (heldReaction db pubkey target).map Prod.fst := by
    rw [heldReaction, Option.map_map]
    rfl
  have fresh : normKey row.id ∉ (db.reactions.delete fun _ old => isPair pubkey target old).keys := by
    intro member
    obtain ⟨entry, stored, same⟩ := List.mem_map.mp member
    obtain ⟨member, other⟩ := List.mem_filter.mp stored
    simp [apart entry member same] at other
  unfold Db.upsertReaction
  dsimp only
  rw [author, event, text]
  change Table.rows (Db.reactions (if ((db.reactions.rows.find? fun entry => isPair pubkey target entry.2).map
    fun entry => entry.2.createdAt).any _ then db else _)) = _
  rw [known, Option.any_map]
  refine (apply_ite (fun db : Db => db.reactions.rows) _ _ _).trans (if_congr Iff.rfl rfl ?_)
  by_cases retracts : content = "-"
  · rw [if_pos (by rw [retracts]), if_pos retracts, List.append_nil]
    rfl
  · rw [if_neg (by simpa using retracts), if_neg retracts]
    exact rows_upsert_of_not_mem fresh

theorem heldReaction_upsert (apart : IdApart db (normKey row.id) pubkey target) :
    heldReaction (db.upsertReaction row) pubkey target =
      LastWriter.apply (heldReaction db pubkey target) ⟨row.createdAt, reactionValue content⟩ := by
  rw [heldReaction, rows_upsertReaction author event text apart, LastWriter.apply]
  split
  · rfl
  · have cleared : (db.reactions.rows.filter fun entry => !isPair pubkey target entry.2).find?
        (fun entry => isPair pubkey target entry.2) = none := by simp
    rw [List.find?_append, cleared, Option.none_or, reactionValue]
    split
    · rfl
    · simp [isPair, text]

theorem idApart_upsert {id : String} (own : IdApart db (normKey row.id) pubkey target)
    (apart : IdApart db id pubkey target) : IdApart (db.upsertReaction row) id pubkey target := by
  intro entry member same
  rw [rows_upsertReaction author event text own] at member
  split at member
  · exact apart entry member same
  · rcases List.mem_append.mp member with old | new
    · exact apart entry (List.mem_filter.mp old).1 same
    · split at new
      · cases new
      · rw [List.mem_singleton.mp new]
        simp [isPair]

end

end Upsert

/-- The run is of one author's reactions to one event. -/
structure ReactionsTo (author : Vector UInt8 32) (target : String) (run : List Delivery) : Prop where
  own : OfAuthor env author run
  reacts : ∀ d ∈ run, kindOf d.event = .reaction
  named : ∀ d ∈ run, ∃ tag, firstETag d.event = some tag ∧ normKey tag = target

/-- The store has no reaction of the author to the event, and none under the ids of the run. -/
structure Unreacted (db : Db) (author : Vector UInt8 32) (target : String) (run : List Delivery) : Prop where
  none : heldReaction db (keyOf author) target = none
  fresh : ∀ d ∈ run, idHex d.event ∉ db.reactions.keys

theorem notifyMe_reactions (db : Db) (d : Delivery) (type : NotifType) (eventId content : String) :
    (notifyMe env db d type eventId content).reactions = db.reactions := by
  unfold notifyMe Db.upsertNotification
  split
  · rfl
  · split <;> rfl

def reactionRow (d : Delivery) (tag : String) : ReactionRow :=
  ⟨idHex d.event, pubkeyHex d.event, tag, 7, some d.event.content, d.stamp⟩

theorem applied_reactions (db : Db) {d : Delivery} {tag : String} (reacts : kindOf d.event = .reaction)
    (named : firstETag d.event = some tag) :
    (applied env db d).reactions = ((ensureAuthorUser db d).upsertReaction (reactionRow d tag)).reactions := by
  have same : applied env db d = handleReaction env db d := by simp only [applied, reacts]
  rw [same, handleReaction, named]
  dsimp only
  split
  · rw [notifyMe_reactions]
    rfl
  · rfl

section Step

variable {db : Db} {d : Delivery} {pubkey target tag : String} (reacts : kindOf d.event = .reaction)
  (named : firstETag d.event = some tag) (author : pubkeyHex d.event = pubkey) (event : normKey tag = target)
  (own : IdApart db (idHex d.event) pubkey target)
include reacts named author event own

theorem heldReaction_applied :
    heldReaction (applied env db d) pubkey target = LastWriter.apply (heldReaction db pubkey target) (writeOf d) := by
  have mine : normKey (reactionRow d tag).pubkey = pubkey := (normKey_pubkeyHex d.event).trans author
  have apart : IdApart (ensureAuthorUser db d) (normKey (reactionRow d tag).id) pubkey target := by
    rw [reactionRow, normKey_idHex]
    exact own
  rw [heldReaction, applied_reactions env db reacts named]
  exact heldReaction_upsert mine event rfl apart

theorem idApart_applied {id : String} (apart : IdApart db id pubkey target) :
    IdApart (applied env db d) id pubkey target := by
  have mine : normKey (reactionRow d tag).pubkey = pubkey := (normKey_pubkeyHex d.event).trans author
  have fresh : IdApart (ensureAuthorUser db d) (normKey (reactionRow d tag).id) pubkey target := by
    rw [reactionRow, normKey_idHex]
    exact own
  rw [IdApart, applied_reactions env db reacts named]
  exact idApart_upsert mine event rfl fresh apart

end Step

theorem heldReaction_ingestAll {db : Db} {author : Vector UInt8 32} {target : String} {run ids : List Delivery}
    (heard : ReactionsTo env author target run) (unset : heldReaction db (keyOf author) target = none)
    (apart : ∀ d ∈ ids, IdApart db (idHex d.event) (keyOf author) target) (known : ∀ d ∈ run, d ∈ ids) :
    heldReaction (ingestAll env db run) (keyOf author) target = (run.map writeOf).foldl LastWriter.apply none ∧
      ∀ d ∈ ids, IdApart (ingestAll env db run) (idHex d.event) (keyOf author) target := by
  induction run using List.reverseRecOn with
  | nil => exact ⟨unset, apart⟩
  | append_singleton run d ih =>
    obtain ⟨held, apart⟩ := ih
      ⟨heard.own.initial, fun d member => heard.reacts d (List.mem_append_left _ member),
        fun d member => heard.named d (List.mem_append_left _ member)⟩
      fun d member => known d (List.mem_append_left _ member)
    have last : d ∈ run ++ [d] := by simp
    obtain ⟨tag, named, spelled⟩ := heard.named d last
    obtain ⟨step, key⟩ := heard.own.last env db
    have own := apart d (known d last)
    rw [step]
    refine ⟨?_, fun other member => ?_⟩
    · rw [heldReaction_applied env (heard.reacts d last) named key.symm spelled own, held, List.map_append,
        List.foldl_append]
      rfl
    · exact idApart_applied env (heard.reacts d last) named key.symm spelled own (apart other member)

/-- The stored reaction ends as the newest of the run leaves it. -/
def EndsWithNewest (db : Db) (author : Vector UInt8 32) (target : String) (run : List Delivery) : Prop :=
  ∀ newest, IsNewest run newest →
    storedReaction (ingestAll env db run) (keyOf author) target = reactionValue newest.event.content

/-- When the newest is a retraction, each reaction is followed by a retraction with no smaller stamp. Otherwise its
content comes once with only smaller stamps after it, and each reaction before with a greater stamp is followed,
before it, by a retraction with no smaller stamp. -/
def NewestSettles (run : List Delivery) : Prop :=
  ∀ newest, IsNewest run newest → Settles (run.map writeOf) (reactionValue newest.event.content)

theorem storedReaction_ingestAll {db : Db} {author : Vector UInt8 32} {target : String} {run : List Delivery}
    (heard : ReactionsTo env author target run) (unreacted : Unreacted db author target run) :
    storedReaction (ingestAll env db run) (keyOf author) target =
      ((run.map writeOf).foldl LastWriter.apply none).map Prod.snd := by
  have apart : ∀ d ∈ run, IdApart db (idHex d.event) (keyOf author) target := by
    intro d member entry stored same
    exact absurd (List.mem_map.mpr ⟨entry, stored, same⟩) (unreacted.fresh d member)
  rw [storedReaction, (heldReaction_ingestAll env heard unreacted.none apart fun _ => id).1]

theorem reaction_newest_iff {db : Db} {author : Vector UInt8 32} {target : String} {run : List Delivery}
    (heard : ReactionsTo env author target run) (unreacted : Unreacted db author target run) :
    EndsWithNewest env db author target run ↔ NewestSettles run := by
  refine forall_congr' fun newest => imp_congr_right fun _ => ?_
  rw [storedReaction_ingestAll env heard unreacted]
  exact ends_iff_settles

section Early

/-- The like that the author of `note` gives it. -/
def like : Event where
  pubkey := notePubkey
  createdAt := 1700000300
  kind := 7
  tags := [["e", idHex note]]
  content := "+"
  id := beBytes 32 0xa7b55cb2a6f1c8255f278a9036f2c2b7d4c3abbaf602537fe989d868a0a7b359
  sig := beBytes 64 0x403b09bb240c6d57acf76c2368414602438f9430457106bf3c2a0f0b0e009f3633de80ae88deb8371cdac48945aaac601f78c0f028b072a13b79a97f1fede5ee

def unlike : Event where
  pubkey := notePubkey
  createdAt := 1700000400
  kind := 7
  tags := [["e", idHex note]]
  content := "-"
  id := beBytes 32 0x6f13cd394834f205a2597f5daae50f672fbce4a25a141492eec0d93a7cadbb06
  sig := beBytes 64 0x4c142a8168ea817771b78ed02bd4f917900c7b592ac224ea8c98bc66c9fbdb0fcd3b824c2fddf805b2fe2006217b5148ee53a8cb21e3b6aafa58ca31f0c194f9

def likesEnv : Env := Env.plain (.ofSigned [like, unlike]) ""

def heardLike : Delivery := ⟨like, 1700000500, true⟩

def heardUnlike : Delivery := ⟨unlike, 1700000500, true⟩

theorem reactionsTo_likes {run : List Delivery} (likes : ∀ d ∈ run, d = heardLike ∨ d = heardUnlike) :
    ReactionsTo likesEnv notePubkey (idHex note) run := by
  have distinct : ([like, unlike].map Event.toUnsignedEvent).Nodup := by decide
  refine ⟨⟨fun d member => ?_, fun d member => ?_⟩, fun d member => ?_, fun d member => ?_⟩
  · rcases likes d member with rfl | rfl
    · exact Primitives.verify_ofSigned distinct (by simp [heardLike])
    · exact Primitives.verify_ofSigned distinct (by simp [heardUnlike])
  · rcases likes d member with rfl | rfl <;> rfl
  · rcases likes d member with rfl | rfl <;> rfl
  · rcases likes d member with rfl | rfl <;> exact ⟨idHex note, rfl, normKey_idHex note⟩

theorem unreacted_empty (author : Vector UInt8 32) (target : String) (run : List Delivery) :
    Unreacted Db.empty author target run :=
  ⟨rfl, fun _ _ => List.not_mem_nil⟩

theorem newest_unlike {run : List Delivery} (likes : ∀ d ∈ run, d = heardLike ∨ d = heardUnlike)
    (member : heardUnlike ∈ run) : IsNewest run heardUnlike := by
  refine ⟨member, fun d found => ?_⟩
  rcases likes d found with rfl | rfl <;> decide

/-- The like comes after its retraction and is stored. -/
theorem like_outlives_retraction :
    ReactionsTo likesEnv notePubkey (idHex note) [heardUnlike, heardLike] ∧
      ¬ EndsWithNewest likesEnv Db.empty notePubkey (idHex note) [heardUnlike, heardLike] := by
  have heard : ReactionsTo likesEnv notePubkey (idHex note) [heardUnlike, heardLike] := reactionsTo_likes (by simp)
  refine ⟨heard, fun ends => ?_⟩
  have retracted := ends heardUnlike (newest_unlike (by simp) (by simp))
  rw [storedReaction_ingestAll likesEnv heard (unreacted_empty _ _ _)] at retracted
  exact absurd retracted (by decide)

theorem retraction_after_like_holds :
    ReactionsTo likesEnv notePubkey (idHex note) [heardLike, heardUnlike] ∧
      EndsWithNewest likesEnv Db.empty notePubkey (idHex note) [heardLike, heardUnlike] := by
  have heard : ReactionsTo likesEnv notePubkey (idHex note) [heardLike, heardUnlike] := reactionsTo_likes (by simp)
  refine ⟨heard, (reaction_newest_iff likesEnv heard (unreacted_empty _ _ _)).mpr ?_⟩
  intro newest isNewest
  -- the like is not the newest
  obtain rfl | rfl : newest = heardLike ∨ newest = heardUnlike := by simpa using isNewest.1
  · exact absurd (isNewest.2 heardUnlike (by simp)) (by decide)
  · exact ends_iff_settles.mp (by decide)

end Early

end Soshal.Sync
