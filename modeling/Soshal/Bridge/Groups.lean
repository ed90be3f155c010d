import Soshal.Bridge.Escrow
import Soshal.Bridge.GroupPasswords
import Soshal.Common.UrlPolicy

/-! Groups: who belongs to one, and who may change it.

An entry point reads and checks first, and then writes one statement at a time: a
statement that fails leaves what an earlier one of its call wrote. An owner's call is
bound to the unlocked signer. The creation of a group is not, and it overwrites
a group of the same id, whose owner alone stays.
-/

set_option autoImplicit false

namespace Soshal.Bridge.Groups

open Library
open Library.Fallible (bind_eq_ok guard_eq_ok)
open Library.Runs (Always run)
open Library.Text (byteLen eqIgnoreAsciiCase normKey trim)
open Escrow (Key requireIdentity toHex)
open GroupPasswords (Failure hashCommunityPassword isCommunityPrivate verifyCommunityPassword)

structure GroupRow where
  name : String
  about : Option String
  picture : Option String
  pubkey : String
  createdAt : Int
  updatedAt : Int
  accessType : String
  relay : Option String
  syncStatus : String
  passwordHash : Option String
  deriving DecidableEq

structure GroupMemberRow where
  role : String
  joinedAt : Int
  deriving DecidableEq

/-- The tables by which a caller is judged; members and bans are keyed by group and key. -/
structure GroupDb where
  users : List String
  groups : Table String GroupRow
  members : Table (String × String) GroupMemberRow
  banned : List (String × String)

/-- What a call answers, and what it leaves. -/
abbrev Outcome (State α : Type) := Except Failure α × State

def guarded {State α β : Type} (db : State) (checks : Except Failure α) (act : α → Outcome State β) : Outcome State β :=
  match checks with
  | .error failure => (.error failure, db)
  | .ok a => act a

theorem guarded_keeps {State α β : Type} {P : State → Prop} {db : State} {checks : Except Failure α}
    {act : α → Outcome State β} (idle : P db) (each : ∀ a, checks = .ok a → P (act a).2) :
    P (guarded db checks act).2 := by
  cases checks with
  | error => exact idle
  | ok a => exact each a rfl

namespace GroupDb

variable (db : GroupDb)

def getById (groupId : String) : Except Failure GroupRow := (db.groups.find? groupId).elim (.error .notFound) .ok

/-- A stored group keeps its owner and the time of its creation. -/
def upsert (groupId : String) (group : GroupRow) : GroupDb :=
  { db with groups := db.groups.upsert groupId { group with pubkey := normKey group.pubkey } fun old =>
      { group with pubkey := old.pubkey, createdAt := old.createdAt } }

def removeMember (groupId pubkey : String) : GroupDb :=
  { db with members := db.members.delete fun key _ => key = (groupId, normKey pubkey) }

/-- Two statements; the second one needs the group and the user to be there. -/
def addMember (groupId pubkey role : String) (joinedAt : Int) : Outcome GroupDb Unit :=
  let db := db.removeMember groupId pubkey
  if groupId ∈ db.groups.keys ∧ normKey pubkey ∈ db.users then
    (.ok (), { db with members := db.members.upsert (groupId, normKey pubkey) ⟨role, joinedAt⟩ fun _ => ⟨role, joinedAt⟩ })
  else (.error .foreignKey, db)

def isMember (groupId pubkey : String) : Bool := db.members.keys.contains (groupId, normKey pubkey)

def getMembers (groupId : String) : List (String × GroupMemberRow) :=
  ((Sorting.sortByKey (fun row => row.2.joinedAt) (db.members.rows.filter fun row => row.1.1 = groupId)).take 10000).map
    fun row => (row.1.2, row.2)

def isBanned (groupId pubkey : String) : Bool := db.banned.contains (groupId, normKey pubkey)

end GroupDb

def callerIs (signer : Option Key) (pubkey : String) : Except Failure Unit :=
  (requireIdentity signer pubkey).mapError .message

def requireOwner (signer : Option Key) (db : GroupDb) (groupId actor : String) : Except Failure Unit := do
  let group ← db.getById groupId
  if !eqIgnoreAsciiCase group.pubkey actor then .error (.message "only the group owner can do that")
  else callerIs signer actor

/-- The check of everyone who writes into a group. -/
def requireMember (refusal : String) (db : GroupDb) (groupId pubkey : String) : Except Failure Unit :=
  let isOwner := (db.groups.find? groupId).elim false fun group => eqIgnoreAsciiCase group.pubkey pubkey
  if !isOwner && !db.isMember groupId pubkey then .error (.oversized refusal)
  else if db.isBanned groupId pubkey then .error (.oversized "banned from this group")
  else .ok ()

section Calls

-- the derivation of passwords, and what the URL library makes of a text
variable (kdf : List UInt8 → List UInt8 → Vector UInt8 32) (parse : String → Option Common.Url)

def letIn (group : GroupRow) (password : Option String) : Except Failure Unit :=
  if !isCommunityPrivate group.accessType group.passwordHash.isSome then .ok ()
  else
    let storedHash := group.passwordHash.getD ""
    let candidate := trim (password.getD "")
    if storedHash = "" then
      .error (.oversized "private community has no password on record; cannot verify access")
    else if candidate = "" then .error (.oversized "password required for private community")
    else if !verifyCommunityPassword kdf candidate storedHash then .error (.oversized "incorrect community password")
    else .ok ()

/-- The access type and the password column that go with a new password. -/
def accessOf (drawn : Option (Vector UInt8 16)) (password : String) : Except Failure (String × Option String) :=
  ((hashCommunityPassword kdf drawn password).mapError .message).map fun hash => ("private", some hash)

def groupsJoin (signer : Option Key) (now : Int) (db : GroupDb) (groupId userPubkey : String)
    (password : Option String) : Outcome GroupDb Unit :=
  guarded db (do
    callerIs signer userPubkey
    let group ← db.getById groupId
    if db.isBanned groupId userPubkey then .error (.oversized "banned from this group")
    else do
      letIn kdf group password
      return group) fun group =>
    if (db.getMembers groupId).any fun m => eqIgnoreAsciiCase (trim m.1) (trim userPubkey) then (.ok (), db)
    else
      let role := if eqIgnoreAsciiCase (trim group.pubkey) (trim userPubkey) then "owner" else "member"
      db.addMember groupId userPubkey role now

def groupsLeave (signer : Option Key) (db : GroupDb) (groupId userPubkey : String) : Outcome GroupDb Unit :=
  guarded db (do
    callerIs signer userPubkey
    match db.groups.find? groupId with
    | some group =>
      if eqIgnoreAsciiCase (trim group.pubkey) (trim userPubkey) then
        .error (.oversized "group owner cannot leave the group")
      else .ok ()
    | none => .ok ()) fun _ => (.ok (), db.removeMember groupId userPubkey)

def groupsSetMemberRole (signer : Option Key) (now : Int) (db : GroupDb)
    (groupId memberPubkey role adminPubkey : String) : Outcome GroupDb Unit :=
  guarded db (requireOwner signer db groupId adminPubkey) fun _ => db.addMember groupId memberPubkey role now

def groupsRemoveMember (signer : Option Key) (db : GroupDb) (groupId memberPubkey adminPubkey : String) :
    Outcome GroupDb Unit :=
  guarded db (do
    requireOwner signer db groupId adminPubkey
    if eqIgnoreAsciiCase (trim memberPubkey) (trim adminPubkey) then .error (.message "cannot remove group owner")
    else .ok ()) fun _ => (.ok (), db.removeMember groupId memberPubkey)

/-- The id and the row of a group to create. -/
def newGroup (drawn : Option (Vector UInt8 16)) (now : Int)
    (groupId name description pictureUrl creatorPubkey : String) (isPrivate : Bool) (password : Option String) :
    Except Failure (String × GroupRow) :=
  let groupId := trim groupId
  if groupId = "" ∨ byteLen groupId > 128 then .error (.message "invalid group_id")
  else if trim name = "" ∨ byteLen (trim name) > 200 then .error (.message "invalid group name")
  else if byteLen description > 5000 then .error (.message "group description too long")
  else if pictureUrl ≠ "" ∧ !Common.isValidMediaUrl parse pictureUrl then
    .error (.message "invalid picture url")
  else if trim creatorPubkey = "" ∨ byteLen creatorPubkey > 128 then .error (.message "invalid creator pubkey")
  else
    let pwd := trim (password.getD "")
    let access :=
      if !isPrivate then .ok ("open", none)
      else if pwd = "" then .error (.message "password required for private community")
      else accessOf kdf drawn pwd
    access.map fun access => (groupId, {
      name := name
      about := if description = "" then none else some description
      picture := if pictureUrl = "" then none else some pictureUrl
      pubkey := creatorPubkey
      createdAt := now
      updatedAt := now
      accessType := access.1
      relay := none
      syncStatus := "local"
      passwordHash := access.2 })

/-- No signer is asked for. -/
def groupsCreate (now : Int) (db : GroupDb) (drawn : Option (Vector UInt8 16))
    (groupId name description pictureUrl creatorPubkey : String) (isPrivate : Bool) (password : Option String) :
    Outcome GroupDb Unit :=
  guarded db (newGroup kdf parse drawn now groupId name description pictureUrl creatorPubkey isPrivate password)
    fun new => (db.upsert new.1 new.2).addMember new.1 creatorPubkey "owner" now

def groupsSetPassword (signer : Option Key) (now : Int) (db : GroupDb) (drawn : Option (Vector UInt8 16))
    (groupId : String) (newPassword : Option String) (actorPubkey : String) : Outcome GroupDb Unit :=
  guarded db (do
    requireOwner signer db groupId actorPubkey
    let pwd := trim (newPassword.getD "")
    let access ← (if pwd = "" then .ok ("open", none) else accessOf kdf drawn pwd)
    let group ← db.getById groupId
    return { group with
      accessType := access.1
      passwordHash := access.2
      updatedAt := now }) fun group => (.ok (), db.upsert groupId group)

inductive Call where
  | create (drawn : Option (Vector UInt8 16)) (groupId name description pictureUrl creatorPubkey : String)
      (isPrivate : Bool) (password : Option String)
  | join (groupId userPubkey : String) (password : Option String)
  | leave (groupId userPubkey : String)
  | setMemberRole (groupId memberPubkey role adminPubkey : String)
  | removeMember (groupId memberPubkey adminPubkey : String)
  | setPassword (drawn : Option (Vector UInt8 16)) (groupId : String) (newPassword : Option String) (actorPubkey : String)
  -- rows that other parts of the program write
  | user (pubkey : String)
  | ban (groupId pubkey : String)
  | unban (groupId pubkey : String)

/-- A call, with the key that is unlocked and the time it is made at. -/
structure Act where
  signer : Option Key
  now : Int
  call : Call

def step (db : GroupDb) (act : Act) : GroupDb :=
  match act.call with
  | .create drawn groupId name description pictureUrl creatorPubkey isPrivate password =>
    (groupsCreate kdf parse act.now db drawn groupId name description pictureUrl creatorPubkey isPrivate password).2
  | .join groupId userPubkey password => (groupsJoin kdf act.signer act.now db groupId userPubkey password).2
  | .leave groupId userPubkey => (groupsLeave act.signer db groupId userPubkey).2
  | .setMemberRole groupId memberPubkey role adminPubkey =>
    (groupsSetMemberRole act.signer act.now db groupId memberPubkey role adminPubkey).2
  | .removeMember groupId memberPubkey adminPubkey =>
    (groupsRemoveMember act.signer db groupId memberPubkey adminPubkey).2
  | .setPassword drawn groupId newPassword actorPubkey =>
    (groupsSetPassword kdf act.signer act.now db drawn groupId newPassword actorPubkey).2
  | .user pubkey => { db with users := pubkey :: db.users }
  | .ban groupId pubkey => { db with banned := (groupId, normKey pubkey) :: db.banned }
  | .unban groupId pubkey => { db with banned := db.banned.filter fun row => row ≠ (groupId, normKey pubkey) }

end Calls

end Soshal.Bridge.Groups
