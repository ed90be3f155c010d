import Soshal.Bridge.GroupRuns

/-! Threads of a group, their replies and the reactions to them.

Calls on threads and calls on groups come in any order. A thread or a reply is written for
the key that is unlocked, and only into a group in which that key then stands well;
deleting a thread takes along what belongs to it.
-/

set_option autoImplicit false

namespace Soshal.Bridge.Groups

open Library
open Library.Fallible (bind_eq_ok guard_eq_ok elim_eq_ok)
open Library.Runs (Always run)
open Library.Text (byteLen eqIgnoreAsciiCase normKey trim)
open Escrow (Key toHex)
open GroupPasswords (Failure)

structure GroupThreadRow where
  groupId : String
  title : String
  body : String
  author : String
  createdAt : Int
  isPinned : Bool
  deriving DecidableEq

structure GroupThreadReplyRow where
  threadId : String
  parentId : String
  author : String
  content : String
  createdAt : Int
  deriving DecidableEq

/-- Reactions are keyed by thread, reply, key and emoji. -/
structure ThreadDb where
  threads : Table String GroupThreadRow
  replies : Table String GroupThreadReplyRow
  reactions : Table (String × String × String × String) Int

namespace ThreadDb

variable (db : ThreadDb)

def get (threadId : String) : Except Failure GroupThreadRow := (db.threads.find? threadId).elim (.error .notFound) .ok

def delete (threadId : String) : ThreadDb where
  threads := db.threads.delete fun id _ => id = threadId
  replies := db.replies.delete fun _ reply => reply.threadId = threadId
  reactions := db.reactions.delete fun key _ => key.1 = threadId

def setPinned (threadId : String) (pinned : Bool) : ThreadDb :=
  { db with threads := db.threads.modify fun id thread => if id = threadId then { thread with isPinned := pinned } else thread }

def toggleReaction (threadId replyId pubkey emoji : String) (now : Int) : ThreadDb :=
  let key := (threadId, replyId, normKey pubkey, emoji)
  if key ∈ db.reactions.keys then { db with reactions := db.reactions.delete fun name _ => name = key }
  else { db with reactions := db.reactions.insertIgnore key now }

end ThreadDb

section Calls

variable (signer : Option Key) (now : Int) (groups : GroupDb) (db : ThreadDb)

/-- `id` is the id that is drawn for the thread. -/
def groupsThreadsCreate (id groupId title body author : String) : Outcome ThreadDb Unit :=
  let groupId := trim groupId
  let title := trim title
  let author := normKey author
  guarded db (
    if groupId = "" ∨ byteLen groupId > 128 then .error (.message "invalid group_id")
    else if title = "" ∨ byteLen title > 500 then .error (.message "title must be between 1 and 500 characters")
    else if byteLen body > 65536 then .error (.message "body exceeds 65536 bytes")
    else do
      callerIs signer author
      requireMember "not a member of this group" groups groupId author) fun _ =>
    let thread : GroupThreadRow := ⟨groupId, title, body, author, now, false⟩
    (.ok (), { db with threads := db.threads.upsert id thread fun _ => thread })

/-- What the owner alone does to a thread. -/
def ownedThread (threadId actor : String) (change : ThreadDb) : Outcome ThreadDb Unit :=
  guarded db (do
    let thread ← db.get threadId
    requireOwner signer groups thread.groupId actor) fun _ => (.ok (), change)

def groupsThreadsDelete (threadId actor : String) : Outcome ThreadDb Unit :=
  ownedThread signer groups db threadId actor (db.delete threadId)

def groupsThreadsPin (threadId : String) (pinned : Bool) (actor : String) : Outcome ThreadDb Unit :=
  ownedThread signer groups db threadId actor (db.setPinned threadId pinned)

def groupsThreadsReply (id threadId parentId content author : String) : Outcome ThreadDb Unit :=
  let threadId := trim threadId
  let parentId := trim parentId
  let content := trim content
  let author := normKey author
  guarded db (
    if threadId = "" ∨ byteLen threadId > 128 then .error (.message "invalid thread_id")
    else if byteLen parentId > 128 then .error (.message "invalid parent_id")
    else if content = "" ∨ byteLen content > 65536 then .error (.message "content must be between 1 and 65536 bytes")
    else do
      callerIs signer author
      let thread ← db.get threadId
      requireMember "not a member of this group" groups thread.groupId author) fun _ =>
    let reply : GroupThreadReplyRow := ⟨threadId, parentId, author, content, now⟩
    (.ok (), { db with replies := db.replies.upsert id reply fun _ => reply })

def groupsThreadsReact (threadId replyId pubkey emoji : String) : Outcome ThreadDb Unit :=
  guarded db (do
    callerIs signer pubkey
    if emoji = "" ∨ emoji.toList.length > 16 then .error (.message "invalid reaction emoji")
    else do
      let thread ← db.get threadId
      requireMember "not a member of this group" groups thread.groupId pubkey) fun _ =>
    (.ok (), db.toggleReaction threadId replyId pubkey emoji now)

end Calls

inductive ThreadCall where
  | create (id groupId title body author : String)
  | delete (threadId actor : String)
  | pin (threadId : String) (pinned : Bool) (actor : String)
  | reply (id threadId parentId content author : String)
  | react (threadId replyId pubkey emoji : String)

/-- A call on threads or on groups. -/
inductive Event where
  | thread (signer : Option Key) (now : Int) (call : ThreadCall)
  | group (act : Act)

structure World where
  groups : GroupDb
  threads : ThreadDb

def threadStep (signer : Option Key) (now : Int) (groups : GroupDb) (db : ThreadDb) : ThreadCall → ThreadDb
  | .create id groupId title body author => (groupsThreadsCreate signer now groups db id groupId title body author).2
  | .delete threadId actor => (groupsThreadsDelete signer groups db threadId actor).2
  | .pin threadId pinned actor => (groupsThreadsPin signer groups db threadId pinned actor).2
  | .reply id threadId parentId content author =>
    (groupsThreadsReply signer now groups db id threadId parentId content author).2
  | .react threadId replyId pubkey emoji => (groupsThreadsReact signer now groups db threadId replyId pubkey emoji).2

def World.next (kdf : List UInt8 → List UInt8 → Vector UInt8 32) (parse : String → Option Common.Url) (w : World) :
    Event → World
  | .thread signer now call => { w with threads := threadStep signer now w.groups w.threads call }
  | .group act => { w with groups := step kdf parse w.groups act }

variable {kdf : List UInt8 → List UInt8 → Vector UInt8 32} {parse : String → Option Common.Url}

/-- No reply and no reaction is left without its thread. -/
structure Whole (db : ThreadDb) : Prop where
  replies : ∀ id reply, db.replies.find? id = some reply → reply.threadId ∈ db.threads.keys
  reactions : ∀ key ∈ db.reactions.keys, key.1 ∈ db.threads.keys

variable {db : ThreadDb}

theorem get_ok {threadId : String} {thread : GroupThreadRow} (read : db.get threadId = .ok thread) :
    db.threads.find? threadId = some thread := elim_eq_ok.mp read

theorem Whole.delete (whole : Whole db) (threadId : String) : Whole (db.delete threadId) where
  replies := by
    intro id reply found
    simp only [ThreadDb.delete, Table.find?_delete, Option.filter_eq_some_iff] at found
    simp only [ThreadDb.delete, Table.keys_delete_key, List.mem_filter]
    exact ⟨whole.replies id reply found.1, found.2⟩
  reactions := by
    intro key member
    simp only [ThreadDb.delete, Table.mem_keys_iff, Table.find?_delete, Option.filter_eq_some_iff] at member
    obtain ⟨v, found, other⟩ := member
    simp only [ThreadDb.delete, Table.keys_delete_key, List.mem_filter]
    exact ⟨whole.reactions key (Table.mem_keys_iff.mpr ⟨v, found⟩), other⟩

theorem Whole.toggle (whole : Whole db) {threadId : String} (known : threadId ∈ db.threads.keys)
    (replyId pubkey emoji : String) (now : Int) : Whole (db.toggleReaction threadId replyId pubkey emoji now) := by
  unfold ThreadDb.toggleReaction
  simp only
  split
  · refine ⟨whole.replies, fun key member => whole.reactions key ?_⟩
    exact (List.filter_sublist.map Prod.fst).subset member
  · refine ⟨whole.replies, fun key member => ?_⟩
    obtain rfl | member := Table.mem_keys_insertIgnore.mp member
    · exact known
    · exact whole.reactions key member

theorem Whole.step (whole : Whole db) (signer : Option Key) (now : Int) (groups : GroupDb) (call : ThreadCall) :
    Whole (threadStep signer now groups db call) := by
  cases call with
  | create id groupId title body author =>
    exact guarded_keeps whole fun _ _ =>
      ⟨fun id reply found => Table.mem_keys_upsert.mpr (.inr (whole.replies id reply found)),
        fun key member => Table.mem_keys_upsert.mpr (.inr (whole.reactions key member))⟩
  | delete threadId actor => exact guarded_keeps whole fun _ _ => whole.delete threadId
  | pin threadId pinned actor =>
    refine guarded_keeps whole fun _ _ => ⟨?_, ?_⟩
    · simpa [ThreadDb.setPinned] using whole.replies
    · simpa [ThreadDb.setPinned] using whole.reactions
  | reply id threadId parentId content author =>
    refine guarded_keeps whole fun _ checked => ⟨fun other reply found => ?_, whole.reactions⟩
    iterate 3 obtain ⟨-, checked⟩ := guard_eq_ok.mp checked
    obtain ⟨_, -, checked⟩ := bind_eq_ok.mp checked
    obtain ⟨thread, read, -⟩ := bind_eq_ok.mp checked
    rw [Table.find?_upsert] at found
    split at found
    · cases before : db.replies.find? id <;> rw [before] at found <;> cases found <;>
        exact Table.mem_keys_iff.mpr ⟨thread, get_ok read⟩
    · exact whole.replies other reply found
  | react threadId replyId pubkey emoji =>
    refine guarded_keeps whole fun _ checked => ?_
    obtain ⟨_, -, checked⟩ := bind_eq_ok.mp checked
    obtain ⟨-, checked⟩ := guard_eq_ok.mp checked
    obtain ⟨thread, read, -⟩ := bind_eq_ok.mp checked
    exact whole.toggle (Table.mem_keys_iff.mpr ⟨thread, get_ok read⟩) replyId pubkey emoji now

/-- In every order of calls no reply and no reaction outlives its thread. -/
theorem threads_stay_whole {start : World} (whole : Whole start.threads) (events : List Event) :
    Always (World.next kdf parse) (fun w => Whole w.threads) start events := by
  refine Runs.always_of_invariant (fun w event whole => ?_) whole
  cases event with
  | thread signer now call => exact whole.step signer now w.groups call
  | group act => exact whole

def board : World := ⟨village, Table.empty.insertIgnore "t" ⟨"g", "openings", "", toHex anna, 5, false⟩, Table.empty, Table.empty⟩

theorem threads_stay_whole_board :
    Always (World.next noKey noUrl) (fun w => Whole w.threads) board
      [.thread (some anna) 6 (.react "t" "" (toHex anna) "!"), .thread (some anna) 7 (.delete "t" (toHex anna))] := by
  refine threads_stay_whole ⟨fun id reply found => ?_, fun key member => ?_⟩ _
  · cases found
  · cases member

/-- The key is the owner's or a member's, and it is not banned. -/
def Standing (groups : GroupDb) (groupId pubkey : String) : Prop :=
  ((∃ group, groups.groups.find? groupId = some group ∧ normKey group.pubkey = normKey pubkey) ∨
      (groupId, normKey pubkey) ∈ groups.members.keys) ∧ (groupId, normKey pubkey) ∉ groups.banned

theorem standing_of_requireMember {refusal groupId pubkey : String} {groups : GroupDb} {u : Unit}
    (checked : requireMember refusal groups groupId pubkey = .ok u) : Standing groups groupId pubkey := by
  obtain ⟨belongs, checked⟩ := guard_eq_ok.mp checked
  obtain ⟨welcome, -⟩ := guard_eq_ok.mp checked
  refine ⟨?_, by simpa [GroupDb.isBanned] using welcome⟩
  cases found : groups.groups.find? groupId with
  | none => exact .inr (by simpa [found, GroupDb.isMember] using belongs)
  | some group =>
    by_cases owner : eqIgnoreAsciiCase group.pubkey pubkey = true
    · exact .inl ⟨group, rfl, Text.normKey_of_eqIgnoreAsciiCase owner⟩
    · exact .inr (by simpa [found, owner, GroupDb.isMember] using belongs)

/-- Every reply of a later state was there, or is its author's own and was written in good standing. -/
def RepliesStand (signer : Option Key) (groups : GroupDb) (db after : ThreadDb) : Prop :=
  ∀ id reply, after.replies.find? id = some reply → db.replies.find? id = some reply ∨ (Holds signer reply.author ∧
    ∃ thread, db.threads.find? reply.threadId = some thread ∧ Standing groups thread.groupId reply.author)

theorem replies_step (signer : Option Key) (now : Int) (groups : GroupDb) (db : ThreadDb) (call : ThreadCall) :
    RepliesStand signer groups db (threadStep signer now groups db call) := by
  have idle : RepliesStand signer groups db db := fun _ _ => .inl
  cases call with
  | create id groupId title body author => exact guarded_keeps idle fun _ _ => idle
  | delete threadId actor => exact guarded_keeps idle fun _ _ _ _ found => .inl (Table.find?_of_delete found)
  | pin threadId pinned actor => exact guarded_keeps idle fun _ _ => idle
  | react threadId replyId pubkey emoji =>
    refine guarded_keeps idle fun _ _ => ?_
    simp only [ThreadDb.toggleReaction]
    split <;> exact idle
  | reply name threadId parentId content author =>
    refine guarded_keeps idle fun _ checked id reply found => ?_
    iterate 3 obtain ⟨-, checked⟩ := guard_eq_ok.mp checked
    obtain ⟨_, own, checked⟩ := bind_eq_ok.mp checked
    obtain ⟨thread, read, checked⟩ := bind_eq_ok.mp checked
    rw [Table.find?_upsert] at found
    split at found
    · have same : reply = ⟨trim threadId, trim parentId, normKey author, trim content, now⟩ := by
        cases before : db.replies.find? name <;> rw [before] at found <;> cases found <;> rfl
      rw [same]
      exact .inr ⟨callerIs_ok.mp own, thread, get_ok read, standing_of_requireMember checked⟩
    · exact .inl found

/-- A reply that a run has written is its author's own, who at that time stood well in the group of the thread. -/
theorem reply_was_admitted {start : World} {events : List Event} {id : String} {reply : GroupThreadReplyRow}
    (absent : start.threads.replies.find? id ≠ some reply)
    (stored : (run (World.next kdf parse) start events).threads.replies.find? id = some reply) :
    ∃ done signer now call rest, events = done ++ .thread signer now call :: rest ∧ Holds signer reply.author ∧
      ∃ thread, (run (World.next kdf parse) start done).threads.threads.find? reply.threadId = some thread ∧
        Standing (run (World.next kdf parse) start done).groups thread.groupId reply.author := by
  obtain ⟨done, event, rest, split, before, after⟩ :=
    Runs.exists_step_of_run (P := fun w : World => w.threads.replies.find? id = some reply) absent stored
  cases event with
  | group act => exact absurd after before
  | thread signer now call => exact ⟨done, signer, now, call, rest, split, (replies_step _ _ _ _ call id reply after).resolve_left before⟩

theorem reply_was_admitted_board :
    ∃ done signer now call rest, [Event.thread (some anna) 7 (.reply "r" "t" "" "e4" (toHex anna))] =
        done ++ .thread signer now call :: rest ∧ Holds signer (toHex anna) ∧
      ∃ thread, (run (World.next noKey noUrl) board done).threads.threads.find? "t" = some thread ∧
        Standing (run (World.next noKey noUrl) board done).groups thread.groupId (toHex anna) :=
  @reply_was_admitted noKey noUrl board _ "r" ⟨"t", "", toHex anna, "e4", 7⟩ (by decide +kernel) (by decide +kernel)

end Soshal.Bridge.Groups
