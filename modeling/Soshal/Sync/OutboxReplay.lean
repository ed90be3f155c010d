import Soshal.Library.LittleEndian
import Soshal.Library.Runs
import Soshal.Sync.Outbox

/-! Replay passes over the outbox, interleaved with new enqueues.

A pass fetches what is due, hands each payload to the sender and remembers the ids
that went through; only at its end are these marked, by id. An enqueue under the
same id replaces the row at any moment in between.
-/

set_option autoImplicit false

namespace Soshal.Sync

open Library Library.Text
open Library.LittleEndian (beBytes)

def markOutboxItemFailed (db : OutboxQueue) (id : String) (retryCount nextRetryAt : Int) : OutboxQueue :=
  db.modify fun other row =>
    if other = id then
      { row with
        status := if retryCount ≥ 10 then .failed else .pending
        retryCount := retryCount
        nextRetryAt := nextRetryAt }
    else row

def markOutboxItemsCompleted (db : OutboxQueue) (ids : List String) : OutboxQueue :=
  db.modify fun other row => if other ∈ ids then { row with status := .completed } else row

def OutboxRow.settled (row : OutboxRow) : Bool := row.status != .pending

/-- Drops the settled rows but for the newest `keepLatest`. -/
def pruneOutboxSettled (db : OutboxQueue) (keepLatest : Nat) : OutboxQueue :=
  let settled := (db.rows.filter fun row => row.2.settled).mergeSort
    fun first second => decide (first.2.createdAt ≥ second.2.createdAt)
  let kept := (settled.take keepLatest).map Prod.fst
  db.delete fun id row => row.settled && decide (id ∉ kept)

/-- Exponential delay in seconds, capped at 256. -/
def retryAt (nowSecs retryCount : Int) : Int := nowSecs + 2 ^ (max 0 (min retryCount 8)).toNat

/-- A running pass: the items still to be handled, the one being sent, and the ids that were sent. -/
structure ReplayPass where
  now : Int
  items : List OutboxItem
  sending : Option OutboxItem
  completed : List String
  marked : Bool

/-- The queue with its settled flag and the running pass; `accepted` keeps the payload that enqueue last
accepted under each id, and `handed` the payloads given to the sender. -/
structure Replay where
  db : OutboxQueue
  settledDirty : Bool
  pass : Option ReplayPass
  accepted : Table String String
  handed : List String

inductive ReplayCall where
  | enqueue (id actionType payloadJson : String) (mediaPath : Option String) (nowSecs : Int)
  | fetch (now : Int)
  | send
  | sent (ok : Bool)
  | mark
  | prune
  | restart

section Steps

variable {Event : Type} (zstd : Zstd) (sealing unsealing : String → Except String String)
  (fromStr : String → Option Event)

def Replay.fail (s : Replay) (pass : ReplayPass) (item : OutboxItem) : Replay :=
  { s with
    db := markOutboxItemFailed s.db item.id (item.retryCount + 1) (retryAt pass.now (item.retryCount + 1))
    settledDirty := s.settledDirty || decide (item.retryCount + 1 ≥ 10) }

/-- The next item of the pass: media is left to the uploader, a payload that is no event has failed. -/
def Replay.sendNext (s : Replay) (pass : ReplayPass) : Replay :=
  match pass.items with
  | [] => s
  | item :: rest =>
    let advanced := { pass with items := rest }
    if item.mediaPath.isSome then { s with pass := some advanced }
    else
      match fromStr item.payloadJson with
      | none => { s.fail pass item with pass := some advanced }
      | some _ =>
        { s with
          pass := some { advanced with sending := some item }
          handed := item.payloadJson :: s.handed }

def Replay.settle (s : Replay) (pass : ReplayPass) (item : OutboxItem) (ok : Bool) : Replay :=
  let idle := { pass with sending := none }
  -- Only the id is remembered, not which payload it stood for.
  if ok then { s with pass := some { idle with completed := pass.completed ++ [item.id] } }
  else { s.fail pass item with pass := some idle }

def Replay.step (s : Replay) : ReplayCall → Replay
  | .enqueue id actionType payloadJson mediaPath nowSecs =>
    match enqueueOutboxItemWithSeal zstd sealing s.db id actionType payloadJson mediaPath nowSecs with
    | .error _ => s
    | .ok db => { s with db := db, accepted := s.accepted.upsert id payloadJson fun _ => payloadJson }
  | .fetch now =>
    match s.pass with
    | some _ => s
    | none =>
      { s with
        pass := some ⟨now, fetchPendingOutboxItemsWithUnseal zstd unsealing s.db now 32 false, none, [], false⟩ }
  | .send =>
    match s.pass with
    | some pass => if pass.sending.isNone then s.sendNext fromStr pass else s
    | none => s
  | .sent ok =>
    match s.pass with
    | some pass =>
      match pass.sending with
      | some item => s.settle pass item ok
      | none => s
    | none => s
  | .mark =>
    match s.pass with
    | some pass =>
      if pass.items.isEmpty ∧ pass.sending.isNone ∧ pass.marked = false then
        { s with
          db := if pass.completed.isEmpty then s.db else markOutboxItemsCompleted s.db pass.completed
          settledDirty := s.settledDirty || !pass.completed.isEmpty
          pass := some { pass with marked := true } }
      else s
    | none => s
  | .prune =>
    match s.pass with
    | some pass =>
      if pass.marked then
        { s with
          db := if s.settledDirty then pruneOutboxSettled s.db 500 else s.db
          settledDirty := false
          pass := none }
      else s
    | none => s
  -- The queue outlives the process, the pass and the flag do not.
  | .restart => { s with pass := none, settledDirty := false }

end Steps

def Replay.initial : Replay := ⟨.empty, false, none, .empty, []⟩

section Invariant

variable {Event : Type} {zstd : Zstd} {sealing unsealing : String → Except String String}
  {fromStr : String → Option Event}

/-- No accepted payload stands in a completed row without having been handed to the sender. -/
def Replay.NoneSkipped (s : Replay) : Prop :=
  ∀ id row payload, s.db.find? id = some row → row.status = .completed → s.accepted.find? id = some payload →
    payload ∈ s.handed

/-- The ids that the pass will still mark, or whose outcome it does not know yet. -/
def ReplayPass.held (pass : ReplayPass) : List String :=
  pass.items.map OutboxItem.id ++ pass.sending.toList.map OutboxItem.id ++ pass.completed

/-- The text that was read is the payload, unless it is no event and so is never sent. -/
def Returns (fromStr : String → Option Event) (payload text : String) : Prop := text = payload ∨ fromStr text = none

variable (zstd unsealing) in
def readBack (stored : String) : String := unsealPayload zstd unsealing (decompressPayload zstd stored)

variable (zstd sealing unsealing fromStr) in
/-- An accepted enqueue brings no new payload for an id that an unmarked pass holds, and its payload survives
its stored form. -/
def Undisturbed (s : Replay) : ReplayCall → Prop
  | .enqueue id actionType payloadJson mediaPath nowSecs =>
    (∃ db, enqueueOutboxItemWithSeal zstd sealing s.db id actionType payloadJson mediaPath nowSecs = .ok db) →
      (∀ pass, s.pass = some pass → pass.marked = false → id ∈ pass.held →
        s.accepted.find? id = some payloadJson) ∧
      ∀ stored, sealing (compressPayload zstd payloadJson) = .ok stored →
        Returns fromStr payloadJson (readBack zstd unsealing stored)
  | _ => True

/-- What the pass holds is what was accepted. -/
structure PassKeeps (fromStr : String → Option Event) (accepted : Table String String) (handed : List String)
    (pass : ReplayPass) : Prop where
  items : ∀ item ∈ pass.items, ∀ payload, accepted.find? item.id = some payload →
    Returns fromStr payload item.payloadJson
  sending : ∀ item, pass.sending = some item → ∀ payload, accepted.find? item.id = some payload → payload ∈ handed
  completed : ∀ id ∈ pass.completed, ∀ payload, accepted.find? id = some payload → payload ∈ handed

variable (zstd unsealing fromStr) in
structure Keeps (s : Replay) : Prop where
  rows : ∀ id row payload, s.db.find? id = some row → s.accepted.find? id = some payload →
    Returns fromStr payload (readBack zstd unsealing row.payloadJson)
  settled : s.NoneSkipped
  pass : ∀ pass, s.pass = some pass → pass.marked = false → PassKeeps fromStr s.accepted s.handed pass

theorem fetched_row {db : OutboxQueue} {nowSecs : Int} {limit : UInt64} {includeMedia : Bool} {item : OutboxItem}
    (fetched : item ∈ fetchPendingOutboxItemsWithUnseal zstd unsealing db nowSecs limit includeMedia) :
    ∃ row, db.find? item.id = some row ∧ item.payloadJson = readBack zstd unsealing row.payloadJson := by
  unfold fetchPendingOutboxItemsWithUnseal at fetched
  split at fetched
  · simp at fetched
  · obtain ⟨⟨id, row⟩, member, rfl⟩ := List.mem_map.mp fetched
    have stored := List.mem_filter.mp (List.mem_mergeSort.mp (mem_of_sqlLimit member))
    exact ⟨row, Table.find?_eq_some.mpr stored.1, rfl⟩

theorem Keeps.fail {s : Replay} (keeps : Keeps zstd unsealing fromStr s) (pass : ReplayPass) (item : OutboxItem) :
    Keeps zstd unsealing fromStr (s.fail pass item) := by
  have rows : ∀ id row, (s.fail pass item).db.find? id = some row →
      ∃ old, s.db.find? id = some old ∧ row.payloadJson = old.payloadJson ∧
        (row.status = .completed → old.status = .completed) := by
    intro id row found
    simp only [Replay.fail, markOutboxItemFailed, Table.find?_modify, Option.map_eq_some_iff] at found
    obtain ⟨old, found, rfl⟩ := found
    refine ⟨old, found, ?_⟩
    split
    · refine ⟨rfl, ?_⟩
      simp only
      split <;> simp
    · exact ⟨rfl, fun was => was⟩
  refine ⟨?_, ?_, keeps.pass⟩
  · intro id row payload found accepted
    obtain ⟨old, before, same, -⟩ := rows id row found
    rw [same]
    exact keeps.rows id old payload before accepted
  · intro id row payload found completed accepted
    obtain ⟨old, before, -, was⟩ := rows id row found
    exact keeps.settled id old payload before (was completed) accepted

theorem Keeps.enqueue {s : Replay} {id actionType payloadJson : String} {mediaPath : Option String} {nowSecs : Int}
    {db : OutboxQueue} (keeps : Keeps zstd unsealing fromStr s)
    (ok : enqueueOutboxItemWithSeal zstd sealing s.db id actionType payloadJson mediaPath nowSecs = .ok db)
    (undisturbed : Undisturbed zstd sealing unsealing fromStr s
      (.enqueue id actionType payloadJson mediaPath nowSecs)) :
    Keeps zstd unsealing fromStr
      { s with db := db, accepted := s.accepted.upsert id payloadJson fun _ => payloadJson } := by
  obtain ⟨same, returns⟩ := undisturbed ⟨db, ok⟩
  obtain ⟨stored, sealed, rfl⟩ := enqueue_ok zstd ok
  have found := Table.find?_upsert_replace s.db id ⟨actionType, stored, mediaPath, .pending, 0, 0, nowSecs⟩
  have accepted_self := Table.find?_upsert_replace s.accepted id payloadJson
  constructor
  · intro other row payload here accepted
    by_cases this_id : other = id
    · subst this_id
      cases found.symm.trans here
      cases accepted_self.symm.trans accepted
      exact returns stored sealed
    · rw [Table.find?_upsert_of_ne _ _ _ this_id] at here accepted
      exact keeps.rows other row payload here accepted
  · intro other row payload here completed accepted
    by_cases this_id : other = id
    · subst this_id
      cases found.symm.trans here
      cases completed
    · rw [Table.find?_upsert_of_ne _ _ _ this_id] at here accepted
      exact keeps.settled other row payload here completed accepted
  · intro pass running unmarked
    have kept := keeps.pass pass running unmarked
    -- For an id in the pass the accepted payload has not changed.
    have before : ∀ other ∈ pass.held, ∀ payload,
        (s.accepted.upsert id payloadJson fun _ => payloadJson).find? other = some payload →
          s.accepted.find? other = some payload := by
      intro other held payload accepted
      by_cases this_id : other = id
      · subst this_id
        cases accepted_self.symm.trans accepted
        exact same pass running unmarked held
      · rwa [Table.find?_upsert_of_ne _ _ _ this_id] at accepted
    refine ⟨?_, ?_, ?_⟩
    · intro item member payload accepted
      refine kept.items item member payload (before item.id ?_ payload accepted)
      simp only [ReplayPass.held, List.mem_append]
      exact .inl (.inl (List.mem_map_of_mem member))
    · intro item inflight payload accepted
      refine kept.sending item inflight payload (before item.id ?_ payload accepted)
      simp [ReplayPass.held, inflight]
    · intro other member payload accepted
      refine kept.completed other member payload (before other ?_ payload accepted)
      simp [ReplayPass.held, member]

theorem Keeps.sendNext {s : Replay} {pass : ReplayPass} (keeps : Keeps zstd unsealing fromStr s)
    (running : s.pass = some pass) : Keeps zstd unsealing fromStr (s.sendNext fromStr pass) := by
  unfold Replay.sendNext
  cases rest : pass.items with
  | nil => exact keeps
  | cons item later =>
    have tail : pass.marked = false →
        PassKeeps fromStr s.accepted s.handed { pass with items := later } := by
      intro unmarked
      have kept := keeps.pass pass running unmarked
      refine ⟨?_, kept.sending, kept.completed⟩
      intro other member
      exact kept.items other (by rw [rest]; exact List.mem_cons_of_mem _ member)
    simp only
    split
    · refine ⟨keeps.rows, keeps.settled, ?_⟩
      rintro _ ⟨⟩ unmarked
      exact tail unmarked
    · split
      · have failed := keeps.fail pass item
        refine ⟨failed.rows, failed.settled, ?_⟩
        rintro _ ⟨⟩ unmarked
        exact tail unmarked
      · rename_i event parsed
        refine ⟨keeps.rows, ?_, ?_⟩
        · intro id row payload found completed accepted
          exact List.mem_cons_of_mem _ (keeps.settled id row payload found completed accepted)
        · rintro _ ⟨⟩ unmarked
          have kept := keeps.pass pass running unmarked
          refine ⟨(tail unmarked).items, ?_, ?_⟩
          · rintro _ ⟨⟩ payload accepted
            obtain same | unparsed := kept.items item (by rw [rest]; exact List.mem_cons_self ..) payload accepted
            · rw [same]
              exact List.mem_cons_self ..
            · rw [parsed] at unparsed
              cases unparsed
          · intro id member payload accepted
            exact List.mem_cons_of_mem _ (kept.completed id member payload accepted)

theorem Keeps.settle {s : Replay} {pass : ReplayPass} {item : OutboxItem} (ok : Bool)
    (keeps : Keeps zstd unsealing fromStr s) (running : s.pass = some pass) (inflight : pass.sending = some item) :
    Keeps zstd unsealing fromStr (s.settle pass item ok) := by
  unfold Replay.settle
  simp only
  split
  · refine ⟨keeps.rows, keeps.settled, ?_⟩
    rintro _ ⟨⟩ unmarked
    have kept := keeps.pass pass running unmarked
    refine ⟨kept.items, by simp, ?_⟩
    intro id member payload accepted
    obtain old | new := List.mem_append.mp member
    · exact kept.completed id old payload accepted
    · cases List.mem_singleton.mp new
      exact kept.sending item inflight payload accepted
  · have failed := keeps.fail pass item
    refine ⟨failed.rows, failed.settled, ?_⟩
    rintro _ ⟨⟩ unmarked
    have kept := keeps.pass pass running unmarked
    exact ⟨kept.items, by simp, kept.completed⟩

theorem Keeps.mark {s : Replay} {pass : ReplayPass} (keeps : Keeps zstd unsealing fromStr s)
    (running : s.pass = some pass) (unmarked : pass.marked = false) (dirty : Bool) :
    Keeps zstd unsealing fromStr
      { s with
        db := if pass.completed.isEmpty then s.db else markOutboxItemsCompleted s.db pass.completed
        settledDirty := dirty
        pass := some { pass with marked := true } } := by
  have rows :
      ∀ id row, (if pass.completed.isEmpty then s.db else markOutboxItemsCompleted s.db pass.completed).find? id =
      some row → ∃ old, s.db.find? id = some old ∧ row.payloadJson = old.payloadJson ∧
        (row.status = .completed → id ∈ pass.completed ∨ old.status = .completed) := by
    intro id row found
    split at found
    · exact ⟨row, found, rfl, .inr⟩
    · simp only [markOutboxItemsCompleted, Table.find?_modify, Option.map_eq_some_iff] at found
      obtain ⟨old, found, rfl⟩ := found
      refine ⟨old, found, ?_⟩
      split
      · rename_i member
        exact ⟨rfl, fun _ => .inl member⟩
      · exact ⟨rfl, .inr⟩
  refine ⟨?_, ?_, ?_⟩
  · intro id row payload found accepted
    obtain ⟨old, before, same, -⟩ := rows id row found
    rw [same]
    exact keeps.rows id old payload before accepted
  · intro id row payload found completed accepted
    obtain ⟨old, before, -, was⟩ := rows id row found
    obtain sent | already := was completed
    · exact (keeps.pass pass running unmarked).completed id sent payload accepted
    · exact keeps.settled id old payload before already accepted
  · rintro _ ⟨⟩ again
    cases again

theorem Keeps.without {s : Replay} {db : OutboxQueue} (dirty : Bool) (keeps : Keeps zstd unsealing fromStr s)
    (fewer : ∀ id row, db.find? id = some row → s.db.find? id = some row) :
    Keeps zstd unsealing fromStr { s with db := db, settledDirty := dirty, pass := none } where
  rows id row payload found := keeps.rows id row payload (fewer id row found)
  settled id row payload found := keeps.settled id row payload (fewer id row found)
  pass := by simp

theorem Keeps.step {s : Replay} {call : ReplayCall} (keeps : Keeps zstd unsealing fromStr s)
    (undisturbed : Undisturbed zstd sealing unsealing fromStr s call) :
    Keeps zstd unsealing fromStr (s.step zstd sealing unsealing fromStr call) := by
  cases call with
  | enqueue id actionType payloadJson mediaPath nowSecs =>
    simp only [Replay.step]
    split
    · exact keeps
    · rename_i db ok
      exact keeps.enqueue ok undisturbed
  | fetch now =>
    simp only [Replay.step]
    split
    · exact keeps
    · refine ⟨keeps.rows, keeps.settled, ?_⟩
      rintro _ ⟨⟩ -
      refine ⟨?_, by simp, by simp⟩
      -- What the pass holds was read from rows that keep their payload.
      intro item member payload accepted
      have fetched : item ∈ fetchPendingOutboxItemsWithUnseal zstd unsealing s.db now 32 false := member
      obtain ⟨row, found, same⟩ := fetched_row fetched
      rw [same]
      exact keeps.rows item.id row payload found accepted
  | send =>
    simp only [Replay.step]
    split
    · rename_i pass running
      split
      · exact keeps.sendNext running
      · exact keeps
    · exact keeps
  | sent ok =>
    simp only [Replay.step]
    split
    · rename_i pass running
      split
      · rename_i item inflight
        exact keeps.settle ok running inflight
      · exact keeps
    · exact keeps
  | mark =>
    simp only [Replay.step]
    split
    · rename_i pass running
      split
      · rename_i ready
        exact keeps.mark running ready.2.2 _
      · exact keeps
    · exact keeps
  | prune =>
    simp only [Replay.step]
    split
    · split
      · apply keeps.without
        intro id row found
        split at found
        · exact Table.find?_of_delete found
        · exact found
      · exact keeps
    · exact keeps
  | restart => exact keeps.without false fun _ _ found => found

theorem keeps_initial : Keeps zstd unsealing fromStr Replay.initial := by
  refine ⟨?_, ?_, ?_⟩ <;> intros <;> simp_all [Replay.initial, Replay.NoneSkipped]

/-- In every run whose enqueues keep clear of the ids a pass holds, no accepted payload is marked completed
without having been handed to the sender. -/
theorem completed_payload_was_handed (calls : List ReplayCall)
    (undisturbed : Runs.Throughout (Replay.step zstd sealing unsealing fromStr)
      (Undisturbed zstd sealing unsealing fromStr) Replay.initial calls) :
    Runs.Always (Replay.step zstd sealing unsealing fromStr) Replay.NoneSkipped Replay.initial calls := by
  have always := Runs.always_of_throughout (P := Keeps zstd unsealing fromStr)
    (fun s call keeps meets => keeps.step meets) keeps_initial undisturbed
  exact always.imp fun s keeps => keeps.settled

end Invariant

section Notes

def noteJson (digit : Char) (content : String) : String :=
  "\x7b\"id\":\"" ++ (String.ofList (List.replicate 64 digit) ++
    ("\",\"pubkey\":\"79be667ef9dcbbac55a06295ce870b07029bfcdb2dce28d959f2815b16f81798\"" ++
      (",\"created_at\":1700000000,\"kind\":1,\"tags\":[],\"content\":\"" ++ (content ++
        ("\",\"sig\":\"" ++ (String.ofList (List.replicate 128 '0') ++ "\"\x7d"))))))

def noteOne : String := noteJson '1' "one"

def noteTwo : String := noteJson '2' "two"

/-- The stream of `noteOne`. -/
def frameOne : List UInt8 :=
  beBytes 50 0x28b52ffd005805040042c91c1c80257103f1a068c715d7ffffb6bb098a104da05dd29dfd8183591901052fcf0fc471f276c6 ++
    beBytes 50 0xf3cff573c69e1006f96360efc4e4d911c5495126ff5881fbb10ed8932f5466b5641499751a22e4757af9286f533c45152d6a ++
    beBytes 37 0xf5223ca9308496a92e636b95522baae707ba500180939be7993841031000e4a9786ea4c405

/-- The stream of `noteTwo`. -/
def frameTwo : List UInt8 :=
  beBytes 50 0x28b52ffd00580d040042091d1c60b57103c3180c1aaffb3f3dad6c129a5b14b522e4495356300802bb0337cf1345f27204e0 ++
    beBytes 50 0x3dff8e7e07b22f03413e21da7b39793e0ae3c5ac937f8dc0fd5a1bf6e50cd7614e1d4d8721870999a15e46caeb14915946cd ++
    beBytes 38 0x62bd0991322da56daacbe87a29d58aebf98036f45078397a9e8b0b04031000e4a9786ea4c405

/-- Level 3 `zstd` on the two notes. -/
def zstdOnNotes : Zstd where
  encodeAll bytes := if bytes = utf8 noteOne then some frameOne else if bytes = utf8 noteTwo then some frameTwo else none
  read bytes limit :=
    if bytes = frameOne then some ((utf8 noteOne).take limit)
    else if bytes = frameTwo then some ((utf8 noteTwo).take limit)
    else none

def noteFromStr (text : String) : Option String := if text = noteOne ∨ text = noteTwo then some text else none

def noteStep : Replay → ReplayCall → Replay := Replay.step zstdOnNotes .ok .ok noteFromStr

def queuedNote : OutboxQueue :=
  ⟨[("o1", ⟨"post", compressPayload zstdOnNotes noteOne, none, .pending, 0, 0, 100⟩)], by simp⟩

/-- A pass that has read the note as `text`. -/
def fetchedNote (text : String) : Replay where
  db := queuedNote
  settledDirty := false
  pass := some ⟨100, [⟨⟨"post", text, none, .pending, 0, 0, 100⟩, "o1"⟩], none, [], false⟩
  accepted := ⟨[("o1", noteOne)], by simp⟩
  handed := []

theorem zstdOnNotes_lawful : zstdOnNotes.Lawful where
  read_encodeAll := by
    intro bytes frame encoded limit
    simp only [zstdOnNotes] at encoded ⊢
    split at encoded
    · rename_i same
      cases encoded
      rw [if_pos rfl, same]
    · split at encoded
      · rename_i same
        cases encoded
        rw [if_neg (by decide), if_pos rfl, same]
      · cases encoded
  frame_ne_nil := by
    intro bytes frame encoded
    simp only [zstdOnNotes] at encoded
    split at encoded
    · cases encoded
      exact List.cons_ne_nil _ _
    · split at encoded
      · cases encoded
        exact List.cons_ne_nil _ _
      · cases encoded

theorem readBack_noteOne : readBack zstdOnNotes .ok (compressPayload zstdOnNotes noteOne) = noteOne := by
  have stored : StoredCompressed zstdOnNotes noteOne frameOne := ⟨by decide +kernel, by simp [zstdOnNotes]⟩
  have bare : sealContent zstdOnNotes .ok noteOne = none := by
    have missing : startsWith noteOne sealMark = false :=
      startsWith_append_of_ne _ (by decide) (by decide)
    simp [sealContent, stripPrefix_eq_none missing]
  rw [readBack, decompress_compressed zstdOnNotes zstdOnNotes_lawful stored, if_pos (by decide +kernel),
    unsealPayload_eq, bare, Option.getD_none]

theorem run_fetchedNote (calls : List ReplayCall) :
    Runs.run noteStep Replay.initial (.enqueue "o1" "post" noteOne none 100 :: .fetch 100 :: calls) =
      Runs.run noteStep (fetchedNote noteOne) calls := by
  have queued : enqueueOutboxItemWithSeal zstdOnNotes .ok .empty "o1" "post" noteOne none 100 = .ok queuedNote := by
    rw [enqueueOutboxItemWithSeal, if_neg (by decide), if_neg (by decide), if_neg (by decide +kernel), if_neg (by simp)]
    rfl
  have fetched : fetchPendingOutboxItemsWithUnseal zstdOnNotes .ok queuedNote 100 32 false =
      [⟨⟨"post", readBack zstdOnNotes .ok (compressPayload zstdOnNotes noteOne), none, .pending, 0, 0, 100⟩, "o1"⟩] := by
    simp [fetchPendingOutboxItemsWithUnseal, queuedNote, due, sqlLimit, readItem, readBack]
  have first : noteStep Replay.initial (.enqueue "o1" "post" noteOne none 100) =
      ⟨queuedNote, false, none, ⟨[("o1", noteOne)], by simp⟩, []⟩ := by
    simp only [noteStep, Replay.step, Replay.initial, queued]
    rfl
  have second : noteStep ⟨queuedNote, false, none, ⟨[("o1", noteOne)], by simp⟩, []⟩ (.fetch 100) =
      fetchedNote noteOne := by
    simp only [noteStep, Replay.step, fetched, readBack_noteOne]
    rfl
  simp only [Runs.run, List.foldl_cons, first, second]

/-- The note is sent; its replacement, enqueued before the pass ends, is marked completed unsent. -/
theorem replacement_is_completed_unsent :
    ¬ Runs.Always noteStep Replay.NoneSkipped Replay.initial
      [.enqueue "o1" "post" noteOne none 100, .fetch 100, .send, .sent true,
       .enqueue "o1" "post" noteTwo none 101, .mark] := by
  intro always
  have last := always.last
  rw [run_fetchedNote] at last
  have skipped : ∃ row, (Runs.run noteStep (fetchedNote noteOne)
      [.send, .sent true, .enqueue "o1" "post" noteTwo none 101, .mark]).db.find? "o1" = some row ∧
      row.status = .completed :=
    Option.map_eq_some_iff.mp (by decide +kernel :
      ((Runs.run noteStep (fetchedNote noteOne)
        [.send, .sent true, .enqueue "o1" "post" noteTwo none 101, .mark]).db.find? "o1").map OutboxRow.status =
        some .completed)
  obtain ⟨row, found, completed⟩ := skipped
  have handed := last "o1" row noteTwo found completed (by decide +kernel)
  exact absurd handed (by decide +kernel)

theorem note_is_handed_over :
    Runs.Always noteStep Replay.NoneSkipped Replay.initial
      [.enqueue "o1" "post" noteOne none 100, .fetch 100, .send, .sent true, .mark] := by
  apply @completed_payload_was_handed String zstdOnNotes .ok .ok noteFromStr
  simp only [Runs.Throughout, Undisturbed, and_true]
  intro _
  refine ⟨by simp [Replay.initial], ?_⟩
  intro stored sealed
  rw [← Except.ok.inj sealed]
  exact .inl readBack_noteOne

end Notes

end Soshal.Sync
