import Soshal.Sync.Revert
import Soshal.Sync.TxGraph

/-! The rollback of a failed transaction and of all its dependents.

One database transaction undoes every member of the closure. A revert that fails is
skipped and reported; a statement on the transaction tables that fails drops the
whole rollback.
-/

set_option autoImplicit false

namespace Soshal.Sync

open Library Library.Updates Sync.Revert

/-- A row of `tx_nodes` next to its id. -/
structure TxNode where
  kind : String
  payload_json : String
  status : String
  created_at : Int
  deriving DecidableEq

def statusPending : String := "pending"

def statusApplied : String := "applied"

def statusFailed : String := "failed"

def statusRolledBack : String := "rolled_back"

structure TxStore where
  db : Db
  nodes : Table String TxNode
  edges : List TxEdge

def txBegin (s : TxStore) (id kind payloadJson : String) (nowSecs : Int) : TxStore :=
  let row : TxNode := ⟨kind, payloadJson, statusPending, nowSecs⟩
  { s with nodes := s.nodes.upsert id row fun _ => row }

def txLink (s : TxStore) (parentId childId : String) : TxStore :=
  if ⟨parentId, childId⟩ ∈ s.edges then s else { s with edges := s.edges ++ [⟨parentId, childId⟩] }

def setStatus (nodes : Table String TxNode) (id status : String) : Table String TxNode :=
  nodes.modify fun nodeId row => if nodeId = id then { row with status := status } else row

def txMarkApplied (s : TxStore) (id : String) : TxStore := { s with nodes := setStatus s.nodes id statusApplied }

def txClosure (s : TxStore) (id : String) : Finset String := dependentClosure (loadEdges s.edges) id

def txOrder (s : TxStore) (id : String) (listing : List String) : List String :=
  rollbackOrder (loadEdges s.edges) id listing

/-- What the rollback carries from one transaction to the next. -/
structure Rollback where
  db : Db
  nodes : Table String TxNode
  revertErrors : List String
  rolledBack : List String

section Rollback

variable (parse : String → Except String Json)

/-- The kind and the payload of a transaction; an id without a row has neither. -/
def readNode (nodes : Table String TxNode) (nodeId : String) : String × String :=
  ((nodes.find? nodeId).map fun row => (row.kind, row.payload_json)).getD ("", "")

def rollbackNode (refused : String → Option String) (nodes : Table String TxNode) (st : Rollback) (nodeId : String) :
    Rollback :=
  match revertTx parse (refused nodeId) st.db (readNode nodes nodeId).1 (readNode nodes nodeId).2 with
  | .error e => { st with revertErrors := st.revertErrors ++ [nodeId ++ ": " ++ e.text] }
  | .ok db =>
    { st with
      db := db
      nodes := setStatus st.nodes nodeId statusRolledBack
      rolledBack := st.rolledBack ++ [nodeId] }

/-- `listing` is the order in which the closure's hash set is walked, `refused` what the engine answers to the
statement of each revert, `broken` a failure of a statement on the transaction tables. -/
def txFail (listing : List String) (refused : String → Option String) (broken : Option DbError) (s : TxStore)
    (id : String) : Except String (List String) × TxStore :=
  let order := txOrder s id listing
  if order.isEmpty then (.ok [], s)
  else
    match broken with
    | some e => (.error ("tx_fail: " ++ e.text), s)
    | none =>
      let st := order.foldl (rollbackNode parse refused s.nodes) ⟨s.db, s.nodes, [], []⟩
      let after := { s with db := st.db, nodes := setStatus st.nodes id statusFailed }
      if st.revertErrors.isEmpty then (.ok st.rolledBack, after)
      else
        (.error ("tx_fail: " ++ (DbError.migration (toString st.revertErrors.length ++
          " node revert(s) failed after chain rollback: " ++ "; ".intercalate st.revertErrors)).text), after)

end Rollback

section Outcomes

variable (parse : String → Except String Json) (refused : String → Option String) (nodes : Table String TxNode)

/-- The statement that undoes a transaction, where its payload can be read and asks for one. -/
def statementFor (nodeId : String) : Option Statement :=
  match parse (readNode nodes nodeId).2 with
  | .error _ => none
  | .ok payload => statementOf (readNode nodes nodeId).1 payload

def Readable (nodeId : String) : Prop := ∃ payload, parse (readNode nodes nodeId).2 = .ok payload

/-- A revert succeeds when its payload can be read and the engine takes its statement. -/
def Reverts (nodeId : String) : Prop :=
  Readable parse nodes nodeId ∧ (refused nodeId = none ∨ statementFor parse nodes nodeId = none)

instance (nodeId : String) : Decidable (Readable parse nodes nodeId) :=
  match read : parse (readNode nodes nodeId).2 with
  | .ok payload => .isTrue ⟨payload, read⟩
  | .error e => .isFalse fun ⟨payload, other⟩ => by simp [read] at other

instance (nodeId : String) : Decidable (statementFor parse nodes nodeId = none) :=
  decidable_of_iff ((statementFor parse nodes nodeId).isNone = true) Option.isNone_iff_eq_none

instance (nodeId : String) : Decidable (Reverts parse refused nodes nodeId) :=
  inferInstanceAs (Decidable (_ ∧ _))

def ran (order : List String) : List Statement :=
  order.filterMap fun nodeId => if refused nodeId = none then statementFor parse nodes nodeId else none

theorem revertTx_reverts {nodeId : String} (reverts : Reverts parse refused nodes nodeId) (db : Db) :
    revertTx parse (refused nodeId) db (readNode nodes nodeId).1 (readNode nodes nodeId).2 =
      .ok (runAll Statement.run (ran parse refused nodes [nodeId]) db) := by
  obtain ⟨⟨payload, read⟩, taken⟩ := reverts
  simp only [statementFor, read] at taken
  simp only [revertTx, read, ran, statementFor, List.filterMap_cons, List.filterMap_nil]
  cases asked : statementOf (readNode nodes nodeId).1 payload with
  | none => simp [runAll]
  | some statement =>
    have free : refused nodeId = none := taken.resolve_right (by simp [asked])
    simp [free, runAll]

theorem revertTx_fails {nodeId : String} (fails : ¬ Reverts parse refused nodes nodeId) (db : Db) :
    ran parse refused nodes [nodeId] = [] ∧
      ∃ e, revertTx parse (refused nodeId) db (readNode nodes nodeId).1 (readNode nodes nodeId).2 = .error e := by
  simp only [Reverts, Readable, statementFor] at fails
  simp only [revertTx, ran, statementFor, List.filterMap_cons, List.filterMap_nil]
  cases read : parse (readNode nodes nodeId).2 with
  | error e => simp
  | ok payload =>
    simp only [read, Except.ok.injEq, exists_eq', true_and, not_or] at fails
    obtain ⟨taken, asked⟩ := fails
    obtain ⟨statement, asked⟩ := Option.ne_none_iff_exists'.mp asked
    obtain ⟨e, taken⟩ := Option.ne_none_iff_exists'.mp taken
    simp [asked, taken]

theorem ran_cons (nodeId : String) (order : List String) :
    ran parse refused nodes (nodeId :: order) = ran parse refused nodes [nodeId] ++ ran parse refused nodes order := by
  rw [ran, ran, ran, ← List.filterMap_append, List.singleton_append]

theorem mem_ran {order : List String} {statement : Statement} :
    statement ∈ ran parse refused nodes order ↔
      ∃ nodeId ∈ order, refused nodeId = none ∧ statementFor parse nodes nodeId = some statement := by
  simp [ran]

theorem rollbackNode_reverts {nodeId : String} (reverts : Reverts parse refused nodes nodeId) (st : Rollback) :
    rollbackNode parse refused nodes st nodeId =
      { st with
        db := runAll Statement.run (ran parse refused nodes [nodeId]) st.db
        nodes := setStatus st.nodes nodeId statusRolledBack
        rolledBack := st.rolledBack ++ [nodeId] } := by
  rw [rollbackNode, revertTx_reverts parse refused nodes reverts]

theorem rollbackNode_fails {nodeId : String} (fails : ¬ Reverts parse refused nodes nodeId) (st : Rollback) :
    ∃ message, rollbackNode parse refused nodes st nodeId =
      { st with revertErrors := st.revertErrors ++ [message] } := by
  obtain ⟨_, e, failed⟩ := revertTx_fails parse refused nodes fails st.db
  exact ⟨_, by rw [rollbackNode, failed]⟩

section Lists

variable (order : List String) (st : Rollback)

theorem foldl_db : (order.foldl (rollbackNode parse refused nodes) st).db =
    runAll Statement.run (ran parse refused nodes order) st.db := by
  induction order generalizing st with
  | nil => rfl
  | cons nodeId order ih =>
    rw [List.foldl_cons, ih, ran_cons, runAll, runAll, List.foldl_append]
    by_cases reverts : Reverts parse refused nodes nodeId
    · rw [rollbackNode_reverts parse refused nodes reverts]
      rfl
    · obtain ⟨message, failed⟩ := rollbackNode_fails parse refused nodes reverts st
      rw [failed, (revertTx_fails parse refused nodes reverts st.db).1, List.foldl_nil]

theorem foldl_nodes : (order.foldl (rollbackNode parse refused nodes) st).nodes =
    st.nodes.modify fun nodeId row =>
      if nodeId ∈ order ∧ Reverts parse refused nodes nodeId then { row with status := statusRolledBack } else row := by
  induction order generalizing st with
  | nil => exact (Table.modify_eq_self (by simp)).symm
  | cons nodeId order ih =>
    rw [List.foldl_cons, ih]
    by_cases reverts : Reverts parse refused nodes nodeId
    · rw [rollbackNode_reverts parse refused nodes reverts, setStatus, Table.modify_modify]
      refine Table.modify_congr fun other row => ?_
      by_cases same : other = nodeId
      · subst same
        simp [reverts]
      · simp [same]
    · obtain ⟨message, failed⟩ := rollbackNode_fails parse refused nodes reverts st
      rw [failed]
      refine Table.modify_congr fun other row => ?_
      by_cases same : other = nodeId
      · subst same
        simp [reverts]
      · simp [same]

theorem foldl_revertErrors : (order.foldl (rollbackNode parse refused nodes) st).revertErrors = [] ↔
    st.revertErrors = [] ∧ ∀ nodeId ∈ order, Reverts parse refused nodes nodeId := by
  induction order generalizing st with
  | nil => simp
  | cons nodeId order ih =>
    rw [List.foldl_cons, ih]
    by_cases reverts : Reverts parse refused nodes nodeId
    · rw [rollbackNode_reverts parse refused nodes reverts]
      simp [reverts]
    · obtain ⟨message, failed⟩ := rollbackNode_fails parse refused nodes reverts st
      rw [failed]
      simp [reverts]

end Lists

end Outcomes

section Whole

variable (parse : String → Except String Json)

/-- The status that a rollback of `id` gives a transaction. -/
def statusAfter (refused : String → Option String) (s : TxStore) (id nodeId : String) (row : TxNode) : TxNode :=
  if nodeId = id then { row with status := statusFailed }
  else if nodeId ∈ txClosure s id ∧ Reverts parse refused s.nodes nodeId then { row with status := statusRolledBack }
  else row

variable {parse} {listing : List String} {s : TxStore} {id : String}

theorem mem_txOrder (iterates : Iterates listing (txClosure s id)) (nodeId : String) :
    nodeId ∈ txOrder s id listing ↔ nodeId ∈ txClosure s id :=
  (reverseTopological_members iterates).2 nodeId

theorem txOrder_nonempty (iterates : Iterates listing (txClosure s id)) : (txOrder s id listing).isEmpty = false := by
  rw [List.isEmpty_eq_false_iff]
  have member : id ∈ txOrder s id listing :=
    (mem_txOrder iterates id).mpr ((mem_dependentClosure _ _ _).mpr .refl)
  exact List.ne_nil_of_mem member

theorem txFail_store (iterates : Iterates listing (txClosure s id)) (refused : String → Option String) :
    (txFail parse listing refused none s id).2 =
      { s with
        db := runAll Statement.run (ran parse refused s.nodes (txOrder s id listing)) s.db
        nodes := s.nodes.modify (statusAfter parse refused s id) } := by
  have nodes :
      setStatus ((txOrder s id listing).foldl (rollbackNode parse refused s.nodes) ⟨s.db, s.nodes, [], []⟩).nodes
      id statusFailed = s.nodes.modify (statusAfter parse refused s id) := by
    rw [foldl_nodes, setStatus, Table.modify_modify]
    refine Table.modify_congr fun nodeId row => ?_
    simp only [mem_txOrder iterates, statusAfter]
    split <;> split <;> rfl
  simp only [txFail, txOrder_nonempty iterates, nodes, foldl_db, Bool.false_eq_true, if_false]
  split <;> rfl

theorem txFail_broken (listing : List String) (refused : String → Option String) (e : DbError) (s : TxStore)
    (id : String) : (txFail parse listing refused (some e) s id).2 = s := by
  rw [txFail]
  split <;> rfl

theorem txFail_ok (iterates : Iterates listing (txClosure s id)) (refused : String → Option String)
    (broken : Option DbError) :
    (∃ rolled, (txFail parse listing refused broken s id).1 = .ok rolled) ↔
      broken = none ∧ ∀ nodeId ∈ txClosure s id, Reverts parse refused s.nodes nodeId := by
  have errors := foldl_revertErrors parse refused s.nodes (txOrder s id listing) ⟨s.db, s.nodes, [], []⟩
  simp only [mem_txOrder iterates, true_and] at errors
  cases broken with
  | some e => simp [txFail, txOrder_nonempty iterates]
  | none =>
    simp only [txFail, txOrder_nonempty iterates, Bool.false_eq_true, if_false, true_and]
    rw [← errors]
    split
    · rename_i none_
      simp only [Except.ok.injEq, exists_eq', true_iff]
      exact List.isEmpty_iff.mp none_
    · rename_i some_
      simp only [reduceCtorEq, exists_false, false_iff]
      exact fun none_ => some_ (List.isEmpty_iff.mpr none_)

@[simp]
theorem readNode_statusAfter (refused : String → Option String) (nodeId : String) :
    readNode (s.nodes.modify (statusAfter parse refused s id)) nodeId = readNode s.nodes nodeId := by
  rw [readNode, readNode, Table.find?_modify, Option.map_map]
  congr 2
  funext row
  simp only [Function.comp_apply, statusAfter]
  split
  · rfl
  · split <;> rfl

variable (parse s id)

/-- A rollback changes only the members of the closure, each according to its own revert. -/
def ChangesClosure : Prop :=
  ∀ listing refused, Iterates listing (txClosure s id) →
    let after := (txFail parse listing refused none s id).2
    after.edges = s.edges ∧
      (∀ nodeId, nodeId ∉ txClosure s id → after.nodes.find? nodeId = s.nodes.find? nodeId) ∧
      (∀ row, s.nodes.find? id = some row → after.nodes.find? id = some { row with status := statusFailed }) ∧
      ∀ nodeId ∈ txClosure s id, nodeId ≠ id → ∀ row, s.nodes.find? nodeId = some row →
        after.nodes.find? nodeId =
          some (if Reverts parse refused s.nodes nodeId then { row with status := statusRolledBack } else row)

/-- After a rollback in which every revert succeeded, another one changes nothing. -/
def RepeatsQuietly : Prop :=
  ∀ listing refused broken, Iterates listing (txClosure s id) →
    (∃ rolled, (txFail parse listing refused broken s id).1 = .ok rolled) →
    ∀ again refusedAgain brokenAgain, Iterates again (txClosure s id) →
      (txFail parse again refusedAgain brokenAgain (txFail parse listing refused broken s id).2 id).2 =
        (txFail parse listing refused broken s id).2

/-- The transactions of the closure restore no column of a stored profile to different texts. -/
def RestoresAgree : Prop :=
  ∀ first ∈ txClosure s id, ∀ second ∈ txClosure s id,
    ∀ undo, statementFor parse s.nodes first = some undo → ∀ other, statementFor parse s.nodes second = some other →
      Statement.Agrees s.db undo other

variable {parse s id}

theorem changesClosure : ChangesClosure parse s id := by
  intro listing refused iterates
  have held : id ∈ txClosure s id := (mem_dependentClosure _ _ _).mpr .refl
  simp only [txFail_store iterates, Table.find?_modify, true_and]
  refine ⟨fun nodeId outside => ?_, fun row found => ?_, fun nodeId member other row found => ?_⟩
  · have other : nodeId ≠ id := fun same => outside (same ▸ held)
    cases s.nodes.find? nodeId <;> simp [statusAfter, other, outside]
  · simp [found, statusAfter]
  · simp only [found, Option.map_some, statusAfter, if_neg other, member, true_and]

theorem Statement.column_of_settled {db : Db} {pubkey : String} {prior : ProfileColumn → Option String}
    {row : Db.UserRow}
    (settled : Settled Statement.run db (.restore pubkey prior)) (found : db.users.find? pubkey = some row)
    {at_ : ProfileColumn} {text : String} (restored : prior at_ = some text) : column row at_ = some text := by
  have kept := congrArg (fun db => db.users.find? pubkey) settled
  simp only [Statement.run, Table.find?_modify, found, Option.map_some, if_true, Option.some.injEq] at kept
  rw [← kept]
  cases at_ <;> simp [column, restoreColumns, restored]

theorem runAll_users_keys (statements : List Statement) (db : Db) :
    (runAll Statement.run statements db).users.keys = db.users.keys := by
  induction statements generalizing db with
  | nil => rfl
  | cons undo rest ih => rw [runAll, List.foldl_cons, ← runAll, ih, Statement.users_keys]

theorem ran_statusAfter (refused refusedAgain : String → Option String) (order : List String) :
    ran parse refusedAgain (s.nodes.modify (statusAfter parse refused s id)) order =
      ran parse refusedAgain s.nodes order := by
  simp only [ran, statementFor, readNode_statusAfter]

theorem statusAfter_settled {refused refusedAgain : String → Option String}
    (all : ∀ nodeId ∈ txClosure s id, Reverts parse refused s.nodes nodeId) {after : TxStore}
    (edges : after.edges = s.edges) (nodeId : String) (row : TxNode) :
    statusAfter parse refusedAgain after id nodeId (statusAfter parse refused s id nodeId row) =
      statusAfter parse refused s id nodeId row := by
  have closure : txClosure after id = txClosure s id := by rw [txClosure, txClosure, edges]
  simp only [statusAfter, closure]
  by_cases root : nodeId = id
  · simp only [if_pos root]
  · simp only [if_neg root]
    by_cases member : nodeId ∈ txClosure s id
    · simp only [member, all nodeId member, true_and, if_true]
      split <;> rfl
    · simp only [member, false_and, if_false]

theorem quiet_of_agree (agree : RestoresAgree parse s id) : RepeatsQuietly parse s id := by
  intro listing refused broken iterates ok again refusedAgain brokenAgain iteratesAgain
  obtain ⟨rfl, all⟩ := (txFail_ok iterates refused broken).mp ok
  cases brokenAgain with
  | some e => exact txFail_broken again refusedAgain e _ id
  | none =>
    have settled : ∀ undo ∈ ran parse refused s.nodes (txOrder s id listing),
        Settled Statement.run (runAll Statement.run (ran parse refused s.nodes (txOrder s id listing)) s.db) undo := by
      refine runAll_settles (g := fun db : Db => db.users.keys = s.db.users.keys) (fun undo db keys => by simp [keys])
        Statement.repeats (fun first one second two db keys => ?_) rfl
      obtain ⟨firstId, firstListed, _, firstAsked⟩ := (mem_ran _ _ _).mp one
      obtain ⟨secondId, secondListed, _, secondAsked⟩ := (mem_ran _ _ _).mp two
      refine Statement.commute (Statement.Agrees.of_keys keys ?_)
      exact agree firstId ((mem_txOrder iterates firstId).mp firstListed) secondId
        ((mem_txOrder iterates secondId).mp secondListed) first firstAsked second secondAsked
    have store := @txFail_store parse listing s id iterates refused
    generalize (txFail parse listing refused none s id).2 = after at store
    have closure : txClosure after id = txClosure s id := by rw [store]; rfl
    have iteratesAfter : Iterates again (txClosure after id) := closure ▸ iteratesAgain
    rw [txFail_store iteratesAfter]
    subst store
    have undone : ∀ undo ∈ ran parse refusedAgain s.nodes (txOrder s id again),
        undo ∈ ran parse refused s.nodes (txOrder s id listing) := by
      intro undo member
      obtain ⟨nodeId, listed, _, asked⟩ := (mem_ran _ _ _).mp member
      have held := (mem_txOrder iteratesAgain nodeId).mp listed
      refine (mem_ran _ _ _).mpr ⟨nodeId, (mem_txOrder iterates nodeId).mpr held, ?_, asked⟩
      exact (all nodeId held).2.resolve_right (by simp [asked])
    simp only [ran_statusAfter, Table.modify_modify]
    congr 1
    · exact runAll_of_settled fun undo member => settled undo (undone undo member)
    · exact Table.modify_congr (statusAfter_settled all rfl)

/-- The state of a second rollback in which the engine takes the statement of one transaction only. -/
theorem settled_of_quiet (quiet : RepeatsQuietly parse s id) (iterates : Iterates listing (txClosure s id))
    (readable : ∀ nodeId ∈ txClosure s id, Readable parse s.nodes nodeId) {nodeId : String}
    (member : nodeId ∈ txClosure s id) {undo : Statement} (asked : statementFor parse s.nodes nodeId = some undo) :
    Settled Statement.run (runAll Statement.run (ran parse (fun _ => none) s.nodes (txOrder s id listing)) s.db) undo := by
  have ok : ∃ rolled, (txFail parse listing (fun _ => none) none s id).1 = .ok rolled :=
    (txFail_ok iterates _ _).mpr ⟨rfl, fun nodeId member => ⟨readable nodeId member, .inl rfl⟩⟩
  have same := quiet listing (fun _ => none) none iterates ok listing
    (fun other => if other = nodeId then none else some "") none iterates
  have store := @txFail_store parse listing s id iterates fun _ => none
  generalize (txFail parse listing (fun _ => none) none s id).2 = after at store same
  have iteratesAfter : Iterates listing (txClosure after id) := by
    have closure : txClosure after id = txClosure s id := by rw [store]; rfl
    exact closure ▸ iterates
  rw [txFail_store iteratesAfter] at same
  have dbs := congrArg TxStore.db same
  subst store
  simp only [ran_statusAfter] at dbs
  rw [runAll_same (Statement.repeats undo)] at dbs
  · exact dbs
  · intro other ran_
    obtain ⟨otherId, _, taken, found⟩ := (mem_ran _ _ _).mp ran_
    have here : otherId = nodeId := by
      by_contra different
      simp [different] at taken
    rw [here, asked] at found
    exact (Option.some.inj found).symm
  · refine List.ne_nil_of_mem (a := undo) ((mem_ran _ _ _).mpr ⟨nodeId, ?_, by simp, asked⟩)
    exact (mem_txOrder iterates nodeId).mpr member

theorem agree_of_quiet (quiet : RepeatsQuietly parse s id)
    (readable : ∀ nodeId ∈ txClosure s id, Readable parse s.nodes nodeId) : RestoresAgree parse s id := by
  have iterates : Iterates (txClosure s id).toList (txClosure s id) :=
    ⟨Finset.nodup_toList _, fun n => Finset.mem_toList⟩
  intro first one second two undo asked other askedOther
  have settled := settled_of_quiet quiet iterates readable one asked
  have settledOther := settled_of_quiet quiet iterates readable two askedOther
  cases undo with
  | tombstone postId => trivial
  | unlike reactionId => trivial
  | restore pubkey prior =>
    cases other with
    | tombstone postId => trivial
    | unlike reactionId => trivial
    | restore pubkeyOther priorOther =>
      rintro rfl stored at_ text textOther restored restoredOther
      have keys := runAll_users_keys (ran parse (fun _ => none) s.nodes (txOrder s id (txClosure s id).toList)) s.db
      obtain ⟨row, found⟩ := Table.mem_keys_iff.mp (keys ▸ stored)
      have here := Statement.column_of_settled settled found restored
      have there := Statement.column_of_settled settledOther found restoredOther
      exact Option.some.inj (here.symm.trans there)

/-- A second rollback changes nothing exactly when the restorations agree; the rest holds of every rollback. -/
theorem txFail_exact (parse : String → Except String Json) (s : TxStore) (id : String) :
    ChangesClosure parse s id ∧
      (RepeatsQuietly parse s id ↔
        ((∀ nodeId ∈ txClosure s id, Readable parse s.nodes nodeId) → RestoresAgree parse s id)) := by
  refine ⟨changesClosure, agree_of_quiet, fun agree => ?_⟩
  intro listing refused broken iterates ok
  have all := ((txFail_ok iterates refused broken).mp ok).2
  exact quiet_of_agree (agree fun nodeId member => (all nodeId member).1) listing refused broken iterates ok

end Whole

section Forked

def postText : String := "\x7b\"id\":\"root\"\x7d"

def editText (name : String) : String :=
  "\x7b\"pubkey\":\"pk\",\"prior\":\x7b\"name\":\"" ++ name ++ "\"\x7d\x7d"

def editJson (name : String) : Json :=
  .object [("pubkey", .string "pk"), ("prior", .object [("name", .string name)])]

def parseForked (text : String) : Except String Json :=
  if text = postText then .ok (.object [("id", .string "root")])
  else if text = editText "first" then .ok (editJson "first")
  else if text = editText "second" then .ok (editJson "second")
  else .error "expected value at line 1 column 1"

/-- Two edits of one profile depend on one post, and not on each other. -/
def forked : TxStore :=
  let stored : TxStore :=
    { db := { Db.empty with users := Table.empty.insertIgnore "pk" { Db.UserRow.defaults with name := some "third" } }
      nodes := .empty
      edges := [] }
  let begun := txBegin (txBegin (txBegin stored "root" kindPost postText 1) "edit" kindProfile (editText "first") 2)
    "again" kindProfile (editText "second") 3
  txLink (txLink begun "root" "edit") "root" "again"

def profileName (s : TxStore) : Option String := (s.db.users.find? "pk").bind (·.name)

theorem forked_edges : forked.edges = [⟨"root", "edit"⟩, ⟨"root", "again"⟩] := by decide

theorem forked_closure : txClosure forked "root" = {"edit", "again", "root"} := by
  rw [txClosure, forked_edges]
  simp [dependentClosure, closureLoop, pushChildren, loadEdges]

theorem forked_order : txOrder forked "root" ["root", "edit", "again"] = ["again", "edit", "root"] := by
  rw [txOrder, rollbackOrder, ← txClosure, forked_closure, forked_edges]
  simp [reverseTopological, orderLoop, pushPending, loadEdges]

theorem forked_order_again : txOrder forked "root" ["root", "again", "edit"] = ["edit", "again", "root"] := by
  rw [txOrder, rollbackOrder, ← txClosure, forked_closure, forked_edges]
  simp [reverseTopological, orderLoop, pushPending, loadEdges]

theorem forked_iterates : Iterates ["root", "edit", "again"] (txClosure forked "root") ∧
    Iterates ["root", "again", "edit"] (txClosure forked "root") := by
  rw [forked_closure]
  refine ⟨⟨by decide, fun n => ?_⟩, ⟨by decide, fun n => ?_⟩⟩ <;> simp <;> tauto

def forkedOnce : TxStore := (txFail parseForked ["root", "edit", "again"] (fun _ => none) none forked "root").2

theorem forked_once : (txFail parseForked ["root", "edit", "again"] (fun _ => none) none forked "root").1 =
    .ok ["again", "edit", "root"] ∧ profileName forkedOnce = some "first" ∧ forkedOnce.edges = forked.edges := by
  simp only [forkedOnce, txFail, forked_order]
  decide

theorem forked_twice :
    profileName (txFail parseForked ["root", "again", "edit"] (fun _ => none) none forkedOnce "root").2 =
      some "second" := by
  have order : txOrder forkedOnce "root" ["root", "again", "edit"] = ["edit", "again", "root"] := by
    rw [← forked_order_again, txOrder, txOrder, forked_once.2.2]
  simp only [txFail, order]
  simp only [forkedOnce, txFail, forked_order]
  decide

/-- Two rollbacks without any failure, which list the closure differently, leave the profile with different names. -/
theorem second_rollback_renames :
    (txFail parseForked ["root", "edit", "again"] (fun _ => none) none forked "root").1 =
        .ok ["again", "edit", "root"] ∧
      profileName forkedOnce = some "first" ∧
      profileName (txFail parseForked ["root", "again", "edit"] (fun _ => none) none forkedOnce "root").2 =
        some "second" ∧
      ¬ RepeatsQuietly parseForked forked "root" := by
  refine ⟨forked_once.1, forked_once.2.1, forked_twice, fun quiet => ?_⟩
  have same := quiet _ _ none forked_iterates.1 ⟨_, forked_once.1⟩ _ (fun _ => none) none forked_iterates.2
  have name := forked_twice
  rw [forkedOnce, same, ← forkedOnce, forked_once.2.1] at name
  simp at name

end Forked

end Soshal.Sync
