import Soshal.Db.Store
import Soshal.Library.Updates

/-! What undoes one optimistic action.

A revert is one statement on the local tables, or none. It can be repeated, and two
reverts commute unless both restore one column of a stored profile to different texts.
-/

set_option autoImplicit false

namespace Soshal.Sync.Revert

open Library Library.Updates

inductive DbError where
  | sqlite (message : String)
  | migration (message : String)
  deriving DecidableEq, Repr

def DbError.text : DbError → String
  | .sqlite e => "sqlite: " ++ e
  | .migration s => "migration: " ++ s

/-- A parsed payload. What a revert never reads of a value is left out. -/
inductive Json where
  | string (text : String)
  | object (fields : List (String × Json))
  | other

def Json.get : Json → String → Option Json
  | .object fields, key => fields.lookup key
  | _, _ => none

def Json.asStr : Json → Option String
  | .string text => some text
  | _ => none

def kindPost : String := "post"

def kindLike : String := "like"

def kindProfile : String := "profile"

inductive ProfileColumn where
  | name
  | displayName
  | about
  | picture
  deriving DecidableEq, Repr

def ProfileColumn.text : ProfileColumn → String
  | .name => "name"
  | .displayName => "display_name"
  | .about => "about"
  | .picture => "picture"

def profileColumns : List ProfileColumn := [.name, .displayName, .about, .picture]

inductive Statement where
  | tombstone (id : String)
  | unlike (id : String)
  | restore (pubkey : String) (prior : ProfileColumn → Option String)

/-- The statement that `revert_tx` prepares. An unknown kind and a payload without its fields have none. -/
def statementOf (kind : String) (payload : Json) : Option Statement :=
  if kind = kindPost then ((payload.get "id").bind Json.asStr).map .tombstone
  else if kind = kindLike then ((payload.get "id").bind Json.asStr).map .unlike
  else if kind = kindProfile then
    (payload.get "pubkey").bind Json.asStr |>.bind fun pubkey =>
      (payload.get "prior").bind fun prior =>
        let vals := fun column : ProfileColumn => (prior.get column.text).bind Json.asStr
        if profileColumns.all fun column => (vals column).isNone then none else some (.restore pubkey vals)
  else none

/-- `UPDATE users SET …` of the columns that have a prior text. -/
def restoreColumns (prior : ProfileColumn → Option String) (row : Db.UserRow) : Db.UserRow :=
  { row with
    name := (prior .name).or row.name
    displayName := (prior .displayName).or row.displayName
    about := (prior .about).or row.about
    picture := (prior .picture).or row.picture }

def column (row : Db.UserRow) : ProfileColumn → Option String
  | .name => row.name
  | .displayName => row.displayName
  | .about => row.about
  | .picture => row.picture

namespace Statement

def run : Statement → Db → Db
  | .tombstone id, db =>
    { db with posts := db.posts.modify fun postId post => if postId = id then { post with isDeleted := true } else post }
  | .unlike id, db => { db with reactions := db.reactions.delete fun reactionId _ => reactionId = id }
  | .restore pubkey prior, db =>
    { db with users := db.users.modify fun key row => if key = pubkey then restoreColumns prior row else row }

@[simp]
theorem users_keys (statement : Statement) (db : Db) : (statement.run db).users.keys = db.users.keys := by
  cases statement <;> simp [run]

theorem repeats (statement : Statement) (db : Db) : statement.run (statement.run db) = statement.run db := by
  cases statement with
  | tombstone id =>
    simp only [run, Table.modify_modify]
    congr 2
    funext postId post
    split <;> rfl
  | unlike id =>
    simp only [run]
    congr 1
    exact Table.ext_rows (by simp [Table.delete])
  | restore pubkey prior =>
    simp only [run, Table.modify_modify]
    congr 2
    funext key row
    split
    · simp [restoreColumns, ← Option.or_assoc]
    · rfl

/-- Two statements restore no column of a stored profile to different texts. -/
def Agrees (db : Db) : Statement → Statement → Prop
  | .restore pubkey prior, .restore other second =>
    pubkey = other → pubkey ∈ db.users.keys →
      ∀ column text other, prior column = some text → second column = some other → text = other
  | _, _ => True

theorem Agrees.of_keys {db other : Db} (keys : other.users.keys = db.users.keys) {first second : Statement}
    (agrees : Agrees db first second) : Agrees other first second := by
  cases first <;> cases second <;> simp only [Agrees, keys] at agrees ⊢
  exact agrees

theorem or_or_comm {first second : Option String}
    (agree : ∀ text other, first = some text → second = some other → text = other)
    (old : Option String) : first.or (second.or old) = second.or (first.or old) := by
  cases first with
  | none => simp
  | some text =>
    cases second with
    | none => simp
    | some other => simp [agree text other rfl rfl]

theorem commute {db : Db} {first second : Statement} (agrees : Agrees db first second) :
    first.run (second.run db) = second.run (first.run db) := by
  cases first with
  | tombstone id =>
    cases second with
    | tombstone other =>
      simp only [run, Table.modify_modify]
      congr 2
      funext postId post
      split <;> split <;> rfl
    | unlike other => rfl
    | restore pubkey prior => rfl
  | unlike id =>
    cases second with
    | tombstone other => rfl
    | unlike other =>
      simp only [run]
      congr 1
      exact Table.ext_rows (List.filter_comm _ _ _)
    | restore pubkey prior => rfl
  | restore pubkey prior =>
    cases second with
    | tombstone id => rfl
    | unlike id => rfl
    | restore other second =>
      simp only [run]
      congr 1
      refine Table.ext_rows ?_
      simp only [Table.modify, List.map_map]
      refine List.map_congr_left fun row member => ?_
      simp only [Function.comp_apply, Prod.mk.injEq, true_and]
      by_cases here : row.1 = pubkey
      · by_cases there : row.1 = other
        · have agree := agrees (here.symm.trans there) (here ▸ List.mem_map_of_mem member)
          rw [if_pos here, if_pos there, if_pos here, if_pos there]
          simp only [restoreColumns]
          rw [or_or_comm (agree .name), or_or_comm (agree .displayName), or_or_comm (agree .about),
            or_or_comm (agree .picture)]
        · simp [there]
      · simp [here]

end Statement

/-- The engine may refuse the statement, and then changes nothing. -/
def revertTx (parse : String → Except String Json) (refused : Option String) (db : Db) (kind payloadJson : String) :
    Except DbError Db :=
  match parse payloadJson with
  | .error e => .error (.migration ("revert payload: " ++ e))
  | .ok payload =>
    match statementOf kind payload with
    | none => .ok db
    | some statement =>
      match refused with
      | some e => .error (.sqlite e)
      | none => .ok (statement.run db)

end Soshal.Sync.Revert
