import Soshal.Sync.Rollup

/-! Rollups applied to the stored rows by calls that overlap.

A call reads the row of its thread, checks the rollup against what it read, and
then writes; no transaction spans the two statements. A step here is one of these
statements, so a run is any interleaving of any number of calls. A call between
its statements keeps the rollup and the row it read.
-/

set_option autoImplicit false

namespace Soshal.Sync

open Library
open Library.Text (byteLen utf8 trim eqIgnoreAsciiCase hexEncode)
open Library.Runs (run Throughout)

def i64Max : Nat := 2 ^ 63 - 1

structure RollupRow where
  genesisRoot : String
  finalStateRoot : String
  operationCount : Nat
  verifiedAt : Nat
  deriving DecidableEq

/-- The checks of a rollup against the row that its thread already has. -/
def checkAnchor (existing : Option RollupRow) (rollup : CommitmentRollup) : Except String Unit :=
  match existing with
  | none => .ok ()
  | some row =>
    if ¬ eqIgnoreAsciiCase (trim row.genesisRoot) (trim rollup.genesisRoot) then
      .error ("rollup genesis mismatch for " ++ trim rollup.threadId ++ ": stored " ++ row.genesisRoot ++
        " vs proposed " ++ rollup.genesisRoot)
    else if rollup.operationCount.toNat < row.operationCount then
      .error ("rollup operation count regression for " ++ trim rollup.threadId ++ ": stored " ++
        toString row.operationCount ++ " vs proposed " ++ toString rollup.operationCount.toNat)
    else if rollup.operationCount.toNat = row.operationCount ∧
        ¬ eqIgnoreAsciiCase (trim rollup.finalStateRoot) (trim row.finalStateRoot) then
      .error ("rollup final state root mismatch for " ++ trim rollup.threadId ++ " at " ++
        toString row.operationCount ++ " ops: stored " ++ row.finalStateRoot ++ " vs proposed " ++ rollup.finalStateRoot)
    else .ok ()

section Statements

variable (prims : RollupPrimitives) (rows : Table String RollupRow) (rollup : CommitmentRollup)

/-- A call up to its write: the row it read, if every check passed. -/
def readAndCheck : Except String (Option RollupRow) :=
  let verification := verifyRollup prims rollup
  if ¬ verification.verified then .error (verification.errorMsg.getD "Verification failed")
  else if i64Max < rollup.operationCount.toNat then .error "operation count exceeds i64 range"
  else if trim rollup.threadId = "" ∨ 128 < byteLen (trim rollup.threadId) then
    .error "thread_id must be between 1 and 128 characters"
  else
    match checkAnchor (rows.find? (trim rollup.threadId)) rollup with
    | .error e => .error e
    | .ok () => .ok (rows.find? (trim rollup.threadId))

def upsertRow (now : Nat) : Table String RollupRow :=
  rows.upsert (trim rollup.threadId)
    { genesisRoot := trim rollup.genesisRoot, finalStateRoot := trim rollup.finalStateRoot,
      operationCount := rollup.operationCount.toNat, verifiedAt := now }
    fun row =>
      { row with
        finalStateRoot := trim rollup.finalStateRoot
        operationCount := rollup.operationCount.toNat
        verifiedAt := now }

def applyRollupToDb (now : Nat) : Table String RollupRow × Except String Bool :=
  match readAndCheck prims rows rollup with
  | .error e => (rows, .error e)
  | .ok _ => (upsertRow rows rollup now, .ok true)

end Statements

/-- What a call holds between its two statements. -/
structure HeldRollup where
  rollup : CommitmentRollup
  existing : Option RollupRow

structure RollupDb where
  rows : Table String RollupRow
  calls : Table Nat HeldRollup

inductive RollupStep where
  | read (call : Nat) (rollup : CommitmentRollup)
  | write (call now : Nat)
  | writeFails (call : Nat) (error : String)

namespace RollupDb

variable (prims : RollupPrimitives)

def opened (rows : Table String RollupRow) : RollupDb := ⟨rows, .empty⟩

def finish (db : RollupDb) (call : Nat) : Table Nat HeldRollup := db.calls.delete fun other _ => other == call

def step (db : RollupDb) : RollupStep → RollupDb
  | .read call rollup =>
    if (db.calls.find? call).isSome then db
    else
      match readAndCheck prims db.rows rollup with
      | .error _ => db
      | .ok existing => { db with calls := db.calls.upsert call ⟨rollup, existing⟩ id }
  | .write call now =>
    match db.calls.find? call with
    | none => db
    | some held => { rows := upsertRow db.rows held.rollup now, calls := db.finish call }
  | .writeFails call _ => { db with calls := db.finish call }

def returned (db : RollupDb) : RollupStep → Option (Except String Bool)
  | .read call rollup =>
    if (db.calls.find? call).isSome then none
    else
      match readAndCheck prims db.rows rollup with
      | .error e => some (.error e)
      | .ok _ => none
  | .write call _ => (db.calls.find? call).map fun _ => .ok true
  | .writeFails call error => (db.calls.find? call).map fun _ => .error error

/-- A call that nothing comes between is `applyRollupToDb`. -/
theorem rows_of_whole_call (rows : Table String RollupRow) (rollup : CommitmentRollup) (call now : Nat) :
    (run (step prims) (opened rows) [.read call rollup, .write call now]).rows =
      (applyRollupToDb prims rows rollup now).1 := by
  cases checked : readAndCheck prims rows rollup with
  | error e => simp [run, step, opened, applyRollupToDb, checked]
  | ok existing => simp [run, step, opened, applyRollupToDb, checked]

/-- What holds between the rows at one moment and at a later one. -/
def Follows (before after : Table String RollupRow) : Prop :=
  ∀ thread row, before.find? thread = some row → ∃ row', after.find? thread = some row' ∧
    row.operationCount ≤ row'.operationCount ∧ row'.genesisRoot = row.genesisRoot ∧
    (row'.operationCount = row.operationCount → row'.finalStateRoot = row.finalStateRoot)

theorem Follows.refl (rows : Table String RollupRow) : Follows rows rows :=
  fun _ row found => ⟨row, found, Nat.le_refl _, rfl, fun _ => rfl⟩

theorem Follows.trans {first second third : Table String RollupRow} (one : Follows first second)
    (two : Follows second third) : Follows first third := by
  intro thread row found
  obtain ⟨row', found', count, genesis, root⟩ := one thread row found
  obtain ⟨row'', found'', count', genesis', root'⟩ := two thread row' found'
  refine ⟨row'', found'', Nat.le_trans count count', genesis'.trans genesis, ?_⟩
  -- Equal counts at both ends leave no room in between.
  intro same
  exact (root' (by omega)).trans (root (by omega))

/-- At a write, the row of the thread is of an earlier count, or of the same count with the same root. -/
def KeepsOrder (db : RollupDb) : RollupStep → Prop
  | .write call _ => ∀ held row, db.calls.find? call = some held →
      db.rows.find? (trim held.rollup.threadId) = some row → row.operationCount ≤ held.rollup.operationCount.toNat ∧
        (row.operationCount = held.rollup.operationCount.toNat → row.finalStateRoot = trim held.rollup.finalStateRoot)
  | _ => True

/-- At a write, the row is the one the call has read, and a root that is repeated is spelt as it was. -/
def Undisturbed (db : RollupDb) : RollupStep → Prop
  | .write call _ => ∀ held, db.calls.find? call = some held →
      db.rows.find? (trim held.rollup.threadId) = held.existing ∧
        ∀ row, held.existing = some row → row.operationCount = held.rollup.operationCount.toNat →
          row.finalStateRoot = trim held.rollup.finalStateRoot
  | _ => True

variable {prims}

theorem follows_upsertRow_iff {rows : Table String RollupRow} {rollup : CommitmentRollup} {now : Nat} :
    Follows rows (upsertRow rows rollup now) ↔ ∀ row, rows.find? (trim rollup.threadId) = some row →
      row.operationCount ≤ rollup.operationCount.toNat ∧
        (row.operationCount = rollup.operationCount.toNat → row.finalStateRoot = trim rollup.finalStateRoot) := by
  constructor
  · intro follows row found
    obtain ⟨row', found', count, _, root⟩ := follows _ row found
    rw [upsertRow, Table.find?_upsert_self, found] at found'
    cases found'
    exact ⟨count, fun same => (root same.symm).symm⟩
  · intro ordered thread row found
    by_cases same : thread = trim rollup.threadId
    · subst same
      obtain ⟨count, root⟩ := ordered row found
      rw [upsertRow, Table.find?_upsert_self, found]
      exact ⟨_, rfl, count, rfl, fun equal => (root equal.symm).symm⟩
    · rw [upsertRow, Table.find?_upsert_of_ne _ _ _ same]
      exact ⟨row, found, Nat.le_refl _, rfl, fun _ => rfl⟩

theorem rows_step_read (db : RollupDb) (call : Nat) (rollup : CommitmentRollup) :
    (db.step prims (.read call rollup)).rows = db.rows := by
  simp only [step]
  split
  · rfl
  · split <;> rfl

theorem rows_step_of_not_written {db : RollupDb} {s : RollupStep} (unwritten : returned prims db s ≠ some (.ok true)) :
    (db.step prims s).rows = db.rows := by
  cases s with
  | read call rollup => exact rows_step_read db call rollup
  | write call now =>
    cases found : db.calls.find? call with
    | none => simp only [step, found]
    | some held => exact absurd (by simp [returned, found]) unwritten
  | writeFails call error => rfl

theorem step_follows_iff {db : RollupDb} {s : RollupStep} :
    Follows db.rows (db.step prims s).rows ↔ db.KeepsOrder s := by
  cases s with
  | read call rollup =>
    rw [rows_step_read]
    exact iff_of_true (Follows.refl _) trivial
  | write call now =>
    cases found : db.calls.find? call with
    | none =>
      simp only [step, KeepsOrder, found]
      exact iff_of_true (Follows.refl _) (fun _ _ absent => by cases absent)
    | some held =>
      simp only [step, KeepsOrder, found, Option.some.injEq]
      rw [follows_upsertRow_iff]
      constructor
      · rintro ordered _ row rfl present
        exact ordered row present
      · intro ordered row present
        exact ordered held row rfl present
  | writeFails call error => exact iff_of_true (Follows.refl _) trivial

variable (prims) in
/-- The law of the rows over a run: they only move forward, and nothing but a successful call changes them. -/
structure Lawful (start : RollupDb) (steps : List RollupStep) : Prop where
  forward : ∀ done later rest, steps = done ++ later ++ rest →
    Follows (run (step prims) start done).rows (run (step prims) start (done ++ later)).rows
  unwritten : ∀ done s rest, steps = done ++ s :: rest →
    returned prims (run (step prims) start done) s ≠ some (.ok true) →
    (run (step prims) start (done ++ [s])).rows = (run (step prims) start done).rows

theorem follows_run {start : RollupDb} {steps : List RollupStep}
    (keeps : Throughout (step prims) KeepsOrder start steps) :
    Follows start.rows (run (step prims) start steps).rows := by
  induction steps generalizing start with
  | nil => exact Follows.refl _
  | cons s rest ih => exact (step_follows_iff.mpr keeps.1).trans (ih keeps.2)

theorem lawful_iff {start : RollupDb} {steps : List RollupStep} :
    Lawful prims start steps ↔ Throughout (step prims) KeepsOrder start steps := by
  constructor
  · intro lawful
    rw [Runs.throughout_iff]
    rintro done s rest rfl
    have forward := lawful.forward done [s] rest (by simp)
    rw [Runs.run_append] at forward
    exact step_follows_iff.mp forward
  · intro keeps
    constructor
    · rintro done later rest rfl
      rw [List.append_assoc, Runs.throughout_append, Runs.throughout_append] at keeps
      rw [Runs.run_append]
      exact follows_run keeps.2.1
    · rintro done s rest rfl unwritten
      rw [Runs.run_append]
      exact rows_step_of_not_written unwritten

/-- Every call in flight passed the checks against the row it holds. -/
def Checked (db : RollupDb) : Prop :=
  ∀ call held, db.calls.find? call = some held → checkAnchor held.existing held.rollup = .ok ()

theorem checkAnchor_of_readAndCheck {rows : Table String RollupRow} {rollup : CommitmentRollup}
    {existing : Option RollupRow} (passed : readAndCheck prims rows rollup = .ok existing) :
    checkAnchor existing rollup = .ok () := by
  simp only [readAndCheck] at passed
  split at passed
  · cases passed
  · split at passed
    · cases passed
    · split at passed
      · cases passed
      · split at passed
        · cases passed
        case h_2 anchored =>
          cases passed
          exact anchored

theorem count_of_checkAnchor {row : RollupRow} {rollup : CommitmentRollup}
    (passed : checkAnchor (some row) rollup = .ok ()) : row.operationCount ≤ rollup.operationCount.toNat := by
  simp only [checkAnchor] at passed
  split at passed
  · cases passed
  · split at passed
    · cases passed
    case isFalse forward => exact Nat.not_lt.mp forward

theorem checked_finish {db : RollupDb} (checked : db.Checked) (rows : Table String RollupRow) (call : Nat) :
    Checked ⟨rows, db.finish call⟩ :=
  fun other held found => checked other held (Table.find?_of_delete found)

theorem checked_step {db : RollupDb} (s : RollupStep) (checked : db.Checked) : (db.step prims s).Checked := by
  cases s with
  | read call rollup =>
    simp only [step]
    split
    case isTrue => exact checked
    case isFalse free =>
      cases passed : readAndCheck prims db.rows rollup with
      | error e => exact checked
      | ok existing =>
        intro other held found
        dsimp only at found
        rw [Table.find?_upsert, Option.not_isSome_iff_eq_none.mp free] at found
        split at found
        case isTrue =>
          cases found
          exact checkAnchor_of_readAndCheck passed
        case isFalse => exact checked other held found
  | write call now =>
    simp only [step]
    split
    · exact checked
    · exact checked_finish checked _ call
  | writeFails call error => exact checked_finish checked _ call

theorem keepsOrder_of_undisturbed {db : RollupDb} {s : RollupStep} (checked : db.Checked)
    (undisturbed : db.Undisturbed s) :
    db.KeepsOrder s := by
  cases s with
  | read call rollup => trivial
  | write call now =>
    intro held row holds found
    obtain ⟨current, spelt⟩ := undisturbed held holds
    have read := current.symm.trans found
    exact ⟨count_of_checkAnchor (read ▸ checked call held holds), spelt row read⟩
  | writeFails call error => trivial

theorem rollup_rows_lawful_iff (prims : RollupPrimitives) (rows : Table String RollupRow) (steps : List RollupStep) :
    (Lawful prims (opened rows) steps ↔ Throughout (step prims) KeepsOrder (opened rows) steps) ∧
      (Throughout (step prims) Undisturbed (opened rows) steps → Lawful prims (opened rows) steps) := by
  refine ⟨lawful_iff, ?_⟩
  intro undisturbed
  have idle : (opened rows).Checked := fun call held found => by cases found
  exact lawful_iff.mpr (undisturbed.strengthen (fun db s => checked_step s) (fun db s => keepsOrder_of_undisturbed) idle)

def digestAt (count : UInt64) : Vector UInt8 32 :=
  if count = 5 then Nostr.beBytes 32 0x0d38af2f1bf231cd6c196ee73df50703853b69782f4bbf6bb77c286edffe4ec2 else Nostr.beBytes 32 0x83ace63c82cf8a8d4bbf3f1a0d327c85105877175e359734c89c5401f5baf292

def rollupAt (count : UInt64) : CommitmentRollup :=
  ⟨"t", "00", if count = 5 then "aa" else "bb", count, hexEncode (digestAt count).toList⟩

/-- SHA-256 at the bytes of the two rollups. -/
def twoRollups : RollupPrimitives where
  sha256 text := if text = (rollupAt 5).preimage then digestAt 5 else digestAt 9
  hexError _ := ""

theorem readAndCheck_first {rollup : CommitmentRollup} (verified : (verifyRollup prims rollup).verified = true)
    (small : rollup.operationCount.toNat ≤ i64Max)
    (thread : trim rollup.threadId ≠ "" ∧ byteLen (trim rollup.threadId) ≤ 128) :
    readAndCheck prims .empty rollup = .ok none := by
  simp only [readAndCheck, verified, not_true_eq_false, if_false]
  rw [if_neg (Nat.not_lt.mpr small), if_neg (not_or.mpr ⟨thread.1, Nat.not_lt.mpr thread.2⟩), Table.find?_empty]
  rfl

theorem sha256_rollupAt {count : UInt64} (listed : count = 5 ∨ count = 9) :
    twoRollups.sha256 (rollupAt count).preimage = digestAt count := by
  dsimp only [twoRollups]
  rcases listed with rfl | rfl
  · rw [if_pos rfl]
  · rw [if_neg (by decide)]

theorem readAndCheck_rollupAt {count : UInt64} (listed : count = 5 ∨ count = 9) :
    readAndCheck twoRollups .empty (rollupAt count) = .ok none := by
  have committed : (rollupAt count).commitmentHex = hexEncode (twoRollups.sha256 (rollupAt count).preimage).toList := by
    rw [sha256_rollupAt listed]
    rfl
  rcases listed with rfl | rfl
  · exact readAndCheck_first (verified_of_commitment (by decide) (by decide) (by decide) committed) (by decide) (by decide)
  · exact readAndCheck_first (verified_of_commitment (by decide) (by decide) (by decide) committed) (by decide) (by decide)

/-- Two calls read before either writes; the newer rollup is written first, and the older one over it. -/
def overlapping : List RollupStep := [.read 0 (rollupAt 5), .read 1 (rollupAt 9), .write 1 100, .write 0 101]

theorem run_overlapping :
    run (step twoRollups) (opened .empty) (overlapping.take 3) =
        ⟨upsertRow .empty (rollupAt 9) 100, Table.empty.upsert 0 ⟨rollupAt 5, none⟩ id⟩ ∧
      run (step twoRollups) (opened .empty) overlapping =
        ⟨upsertRow (upsertRow .empty (rollupAt 9) 100) (rollupAt 5) 101, .empty⟩ := by
  have five := @readAndCheck_rollupAt 5 (.inl rfl)
  have nine := @readAndCheck_rollupAt 9 (.inr rfl)
  have first : step twoRollups (opened .empty) (.read 0 (rollupAt 5)) =
      ⟨.empty, Table.empty.upsert 0 ⟨rollupAt 5, none⟩ id⟩ := by
    simp only [step, opened, five]
    rfl
  have second : step twoRollups ⟨.empty, Table.empty.upsert 0 ⟨rollupAt 5, none⟩ id⟩ (.read 1 (rollupAt 9)) =
      ⟨.empty, (Table.empty.upsert 0 ⟨rollupAt 5, none⟩ id).upsert 1 ⟨rollupAt 9, none⟩ id⟩ := by
    simp only [step, nine]
    rfl
  simp only [overlapping, List.take, run, List.foldl, first, second]
  exact ⟨rfl, rfl⟩

theorem older_rollup_overwrites :
    ((run (step twoRollups) (opened .empty) (overlapping.take 3)).rows.find? "t").map (·.operationCount) = some 9 ∧
      ((run (step twoRollups) (opened .empty) overlapping).rows.find? "t").map (·.operationCount) = some 5 ∧
      ¬ Lawful twoRollups (opened .empty) overlapping := by
  obtain ⟨three, four⟩ := run_overlapping
  have newer : ((run (step twoRollups) (opened .empty) (overlapping.take 3)).rows.find? "t").map (·.operationCount) =
      some 9 := by
    rw [three]
    decide
  have older : ((run (step twoRollups) (opened .empty) overlapping).rows.find? "t").map (·.operationCount) = some 5 := by
    rw [four]
    decide
  refine ⟨newer, older, ?_⟩
  intro lawful
  obtain ⟨row, found, count⟩ := Option.map_eq_some_iff.mp newer
  obtain ⟨row', found', forward, _⟩ := lawful.forward (overlapping.take 3) (overlapping.drop 3) [] (by simp) "t" row found
  rw [List.take_append_drop] at found'
  rw [found', Option.map_some, Option.some.injEq] at older
  omega

end RollupDb

end Soshal.Sync
