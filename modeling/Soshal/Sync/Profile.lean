import Soshal.Nostr.VerifiedCache
import Soshal.Sync.Effects

/-! Profiles under reordering: which metadata event the stored profile ends with.

A metadata event replaces the stored profile when it is newer than the row's
`updated_at`. Other events of the author open the row with their own timestamp in that
column, and so shut out every metadata event that is not newer than they are.
-/

set_option autoImplicit false

namespace Soshal.Sync

open Nostr Library Library.Text Db

variable (env : Env)

structure Profile where
  name : Option String
  displayName : Option String
  about : Option String
  picture : Option String
  banner : Option String
  nip05 : Option String
  lud16 : Option String
  metadataJson : Option String
  deriving DecidableEq

def profileOf (row : UserRow) : Profile :=
  ⟨row.name, row.displayName, row.about, row.picture, row.banner, row.nip05, row.lud16, row.metadataJson⟩

def Profile.blank : Profile := ⟨none, none, none, none, none, none, none, none⟩

/-- What the metadata branch compares and replaces: `updated_at` and the profile. -/
def summary (row : UserRow) : Int × Profile := (row.updatedAt, profileOf row)

/-- The row that any other event than metadata opens for an author without one. -/
def firstRow (db : Db) (d : Delivery) : Option UserRow :=
  if kindOf d.event = .contactList then some (contactListRow env d) else openingRow env db d

def stored (db : Db) (pubkey : String) : Option (Int × Profile) := (db.users.find? pubkey).map summary

theorem stored_metadata (db : Db) (d : Delivery) (kind : kindOf d.event = .metadata) :
    stored (applied env db d) (pubkeyHex d.event) =
      match userRow env d with
      | none => stored db (pubkeyHex d.event)
      | some row =>
        match stored db (pubkeyHex d.event) with
        | none => some (summary row)
        | some old => if old.1 < row.updatedAt then some (summary row) else some old := by
  have same : applied env db d = handleMetadata env db d := by simp only [applied, kind]
  rw [same, handleMetadata, Db.getByPubkey, normKey_pubkeyHex]
  cases userRow env d with
  | none => rfl
  | some row =>
    cases found : db.users.find? (pubkeyHex d.event) with
    | none => simp [stored, Db.upsertUser, found]
    | some old =>
      simp only [stored, found, Option.map_some]
      by_cases newer : old.updatedAt < row.updatedAt
      · rw [if_pos newer, if_pos (show (summary old).1 < row.updatedAt from newer)]
        simp [Db.upsertUser, found]
        rfl
      · rw [if_neg newer, if_neg (show ¬ (summary old).1 < row.updatedAt from newer), found]
        rfl

theorem stored_contactList (db : Db) (d : Delivery) (kind : kindOf d.event = .contactList) :
    stored (applied env db d) (pubkeyHex d.event) =
      (stored db (pubkeyHex d.event)).or (some (summary (contactListRow env d))) := by
  have same : applied env db d = handleContactList env db d := by simp only [applied, kind]
  rw [same, stored, handleContactList_users]
  obtain ⟨row, after, sums⟩ : ∃ row, (listed env db d).users.find? (pubkeyHex d.event) = some row ∧
      summary row = (stored db (pubkeyHex d.event)).getD (summary (contactListRow env d)) := by
    simp only [listed, Db.bumpFollowerCounts, Db.upsertUser, normKey_pubkeyHex, Table.find?_modify,
      Table.find?_upsert_self, listRow, Db.getByPubkey, stored]
    refine ⟨_, rfl, ?_⟩
    cases db.users.find? (pubkeyHex d.event) <;> dsimp only [Option.getD, Option.elim, Option.map] <;> split_ifs <;> rfl
  rw [find?_withMe env _ after, Option.map_some, sums]
  cases stored db (pubkeyHex d.event) <;> rfl

theorem stored_other (db : Db) (d : Delivery) (metadata : kindOf d.event ≠ .metadata)
    (contactList : kindOf d.event ≠ .contactList) :
    stored (applied env db d) (pubkeyHex d.event) =
      (stored db (pubkeyHex d.event)).or ((openingRow env db d).map summary) := by
  rw [stored, applied_users env db d metadata contactList]
  cases opening : openingRow env db d with
  | none =>
    rw [noticed_of_not_opening env contactList opening, withMe_false, Option.map_none, Option.or_none]
    rfl
  | some row =>
    have found : (opened db.users d (some row)).find? (pubkeyHex d.event) =
        some ((db.users.find? (pubkeyHex d.event)).getD row) := by simp [opened, Table.find?_insertIgnore]
    rw [find?_withMe env _ found, stored]
    cases db.users.find? (pubkeyHex d.event) <;> rfl

theorem stored_opening (db : Db) (d : Delivery) (metadata : kindOf d.event ≠ .metadata) :
    stored (applied env db d) (pubkeyHex d.event) =
      (stored db (pubkeyHex d.event)).or ((firstRow env db d).map summary) := by
  unfold firstRow
  by_cases contactList : kindOf d.event = .contactList
  · rw [if_pos contactList]
    exact stored_contactList env db d contactList
  · rw [if_neg contactList]
    exact stored_other env db d metadata contactList

/-- The stamp of the row that an event opens: its own, or none for a bound zap receipt. -/
def openingStamp (d : Delivery) : Nat := if kindOf d.event = .zapReceipt then 0 else d.event.createdAt.toNat

def InSkew (d : Delivery) : Prop := d.event.createdAt.toNat ≤ d.now + tsGraceSecs

theorem stamp_of_inSkew {d : Delivery} (skew : InSkew d) : d.stamp = d.event.createdAt.toNat := by
  rw [Delivery.stamp, sanitizeTs, Nat.min_eq_left skew]
  rfl

theorem summary_firstRow {db : Db} {d : Delivery} {row : UserRow} (found : firstRow env db d = some row)
    (skew : InSkew d) : summary row = (↑(openingStamp d), .blank) := by
  have stamp := stamp_of_inSkew skew
  unfold firstRow at found
  split_ifs at found with list
  · rw [← Option.some.inj found, openingStamp, if_neg (by simp [list]), ← stamp]
    rfl
  · rw [openingRow_eq env found, openingStamp]
    split_ifs
    · rfl
    · rw [← stamp]
      rfl

theorem firstRow_not_metadata {db : Db} {d : Delivery} {row : UserRow} (found : firstRow env db d = some row) :
    kindOf d.event ≠ .metadata := by
  intro kind
  simp [firstRow, openingRow, kind] at found

/-- A metadata event whose content parses, with the row it carries. -/
def IsMetadata (m : Delivery) (row : UserRow) : Prop := kindOf m.event = .metadata ∧ userRow env m = some row

theorem summary_metadata {m : Delivery} {row : UserRow} (metadata : IsMetadata env m row) (skew : InSkew m) :
    row.updatedAt = m.event.createdAt.toNat ∧ profileOf row ≠ .blank := by
  obtain ⟨field, -, rfl⟩ := Option.map_eq_some_iff.mp metadata.2
  refine ⟨stamp_of_inSkew skew, fun blank => ?_⟩
  have content := congrArg Profile.metadataJson blank
  cases content

/-- No metadata event of the run is newer than `stamp`. -/
def NoneNewer (run : List Delivery) (stamp : Int) : Prop :=
  ∀ m row, m ∈ run → IsMetadata env m row → row.updatedAt ≤ stamp

/-- Where the stored stamp and profile of the author come from. -/
inductive Origin (db : Db) (pubkey : String) (run : List Delivery) : Option (Int × Profile) → Prop where
  | absent (silent : ∀ m row, m ∈ run → ¬ IsMetadata env m row) : Origin db pubkey run none
  | metadata (m : Delivery) (row : UserRow) (member : m ∈ run) (metadata : IsMetadata env m row)
      (newest : NoneNewer env run row.updatedAt) : Origin db pubkey run (some (summary row))
  | opened (before : List Delivery) (d : Delivery) (rest : List Delivery) (row : UserRow)
      (split : run = before ++ d :: rest) (unset : stored (ingestAll env db before) pubkey = none)
      (found : firstRow env (ingestAll env db before) d = some row)
      (older : NoneNewer env run row.updatedAt) : Origin db pubkey run (some (summary row))

theorem noneNewer_snoc {run : List Delivery} {stamp : Int} {d : Delivery} (past : NoneNewer env run stamp)
    (last : ∀ row, IsMetadata env d row → row.updatedAt ≤ stamp) : NoneNewer env (run ++ [d]) stamp := by
  intro m row member metadata
  rcases List.mem_append.mp member with earlier | same
  · exact past m row earlier metadata
  · obtain rfl : m = d := by simpa using same
    exact last row metadata

theorem Origin.silent {db : Db} {pubkey : String} {run : List Delivery} (past : Origin env db pubkey run none) :
    ∀ m row, m ∈ run → ¬ IsMetadata env m row := by
  cases past with
  | absent silent => exact silent

theorem Origin.extendAbsent {db : Db} {pubkey : String} {run : List Delivery} {d : Delivery}
    (past : Origin env db pubkey run none) (last : ∀ row, ¬ IsMetadata env d row) :
    Origin env db pubkey (run ++ [d]) none := by
  refine .absent fun m row member => ?_
  rcases List.mem_append.mp member with earlier | same
  · exact past.silent env m row earlier
  · obtain rfl : m = d := by simpa using same
    exact last row

theorem Origin.noneNewer {db : Db} {pubkey : String} {run : List Delivery} {old : Int × Profile}
    (past : Origin env db pubkey run (some old)) : NoneNewer env run old.1 := by
  cases past with
  | metadata m row member metadata newest => exact newest
  | opened before d rest row split unset found older => exact older

theorem Origin.extend {db : Db} {pubkey : String} {run : List Delivery} {old : Int × Profile} {d : Delivery}
    (past : Origin env db pubkey run (some old)) (last : ∀ row, IsMetadata env d row → row.updatedAt ≤ old.1) :
    Origin env db pubkey (run ++ [d]) (some old) := by
  cases past with
  | metadata m row member metadata newest =>
    exact .metadata m row (List.mem_append_left _ member) metadata (noneNewer_snoc env newest last)
  | opened before first rest row split unset found older =>
    exact .opened before first (rest ++ [d]) row (by simp [split]) unset found (noneNewer_snoc env older last)

theorem origin_ingestAll {db : Db} {author : Vector UInt8 32} {run : List Delivery} (own : OfAuthor env author run)
    (unset : stored db (keyOf author) = none) :
    Origin env db (keyOf author) run (stored (ingestAll env db run) (keyOf author)) := by
  -- What the row stems from is kept along the run: nothing, a profile, or the event that opened it.
  induction run using List.reverseRecOn with
  | nil =>
    rw [ingestAll, List.foldl_nil, unset]
    exact .absent (by simp)
  | append_singleton run d ih =>
    have past := ih own.initial
    obtain ⟨last, key⟩ := own.last env db
    rw [last]
    rw [key] at past ⊢
    by_cases kind : kindOf d.event = .metadata
    · rw [stored_metadata env _ d kind]
      cases parsed : userRow env d with
      | none =>
        have silentLast : ∀ row, ¬ IsMetadata env d row := fun row metadata => by simp [metadata.2] at parsed
        cases before : stored (ingestAll env db run) (pubkeyHex d.event) with
        | none =>
          rw [before] at past
          exact past.extendAbsent env silentLast
        | some old =>
          rw [before] at past
          exact past.extend env fun row metadata => absurd metadata (silentLast row)
      | some row =>
        have metadata : IsMetadata env d row := ⟨kind, parsed⟩
        have only : ∀ row', IsMetadata env d row' → row' = row := fun row' other => by
          rw [other.2, Option.some.injEq] at parsed
          exact parsed
        cases before : stored (ingestAll env db run) (pubkeyHex d.event) with
        | none =>
          rw [before] at past
          refine .metadata d row (by simp) metadata (noneNewer_snoc env ?_ fun row' other => by rw [only row' other])
          exact fun m row' member other => absurd other (past.silent env m row' member)
        | some old =>
          rw [before] at past
          dsimp only
          split_ifs with newer
          · refine .metadata d row (by simp) metadata
              (noneNewer_snoc env (fun m row' member other => ?_) fun row' other => by rw [only row' other])
            exact (past.noneNewer env m row' member other).trans newer.le
          · exact past.extend env fun row' other => by
              rw [only row' other]
              exact not_lt.mp newer
    · have silentLast : ∀ row, ¬ IsMetadata env d row := fun row metadata => kind metadata.1
      rw [stored_opening env _ d kind]
      cases before : stored (ingestAll env db run) (pubkeyHex d.event) with
      | none =>
        rw [before] at past
        have extended := past.extendAbsent env silentLast
        cases found : firstRow env (ingestAll env db run) d with
        | none => exact extended
        | some row =>
          exact .opened run d [] row rfl before found fun m row' member other =>
            absurd other (extended.silent env m row' member)
      | some old =>
        rw [before] at past
        exact past.extend env fun row metadata => absurd metadata (silentLast row)

theorem stored_after_opening {db : Db} {author : Vector UInt8 32} {before rest : List Delivery} {d : Delivery}
    {row : UserRow} (own : OfAuthor env author (before ++ d :: rest))
    (unset : stored (ingestAll env db before) (keyOf author) = none)
    (found : firstRow env (ingestAll env db before) d = some row)
    (older : NoneNewer env (before ++ d :: rest) row.updatedAt) :
    stored (ingestAll env db (before ++ d :: rest)) (keyOf author) = some (summary row) := by
  induction rest using List.reverseRecOn with
  | nil =>
    obtain ⟨last, key⟩ := own.last env db
    rw [last, key, stored_opening env _ d (firstRow_not_metadata env found), ← key, unset, found]
    rfl
  | append_singleton rest next ih =>
    rw [← List.cons_append, ← List.append_assoc] at own older ⊢
    obtain ⟨last, key⟩ := own.last env db
    have past := ih own.initial fun m row' member => older m row' (List.mem_append_left _ member)
    rw [last]
    rw [key] at past ⊢
    by_cases kind : kindOf next.event = .metadata
    · rw [stored_metadata env _ next kind, past]
      cases parsed : userRow env next with
      | none => rfl
      | some row' =>
        have bound := older next row' (by simp) ⟨kind, parsed⟩
        dsimp only
        rw [if_neg (show ¬ (summary row).1 < row'.updatedAt from not_lt.mpr bound)]
    · rw [stored_opening env _ next kind, past]
      rfl

/-- The author's stored profile ends with the fields of a newest metadata event of the run. -/
def EndsNewest (db : Db) (author : Vector UInt8 32) (run : List Delivery) : Prop :=
  ∃ m row, m ∈ run ∧ IsMetadata env m row ∧
    (∀ m' row', m' ∈ run → IsMetadata env m' row' → m'.event.createdAt ≤ m.event.createdAt) ∧
    ((ingestAll env db run).users.find? (keyOf author)).map profileOf = some (profileOf row)

/-- The event that opens the author's row, unless it is a metadata event, is older than some
metadata event of the run. -/
def OpensBelow (db : Db) (author : Vector UInt8 32) (run : List Delivery) : Prop :=
  ∀ before d rest, run = before ++ d :: rest →
    (ingestAll env db before).users.find? (keyOf author) = none →
    (firstRow env (ingestAll env db before) d).isSome = true →
      ∃ m row, m ∈ run ∧ IsMetadata env m row ∧ openingStamp d < m.event.createdAt.toNat

theorem profileOf_stored {db : Db} {pubkey : String} {old : Int × Profile} (found : stored db pubkey = some old) :
    (db.users.find? pubkey).map profileOf = some old.2 := by
  obtain ⟨row, present, rfl⟩ := Option.map_eq_some_iff.mp found
  rw [present]
  rfl

/-- The newest metadata wins on exactly the runs that no newer event opens. -/
theorem profile_newest_iff {db : Db} {author : Vector UInt8 32} {run : List Delivery} (own : OfAuthor env author run)
    (skew : ∀ d ∈ run, InSkew d) (unset : db.users.find? (keyOf author) = none)
    (heard : ∃ m row, m ∈ run ∧ IsMetadata env m row) :
    EndsNewest env db author run ↔ OpensBelow env db author run := by
  have absent : ∀ {db : Db}, db.users.find? (keyOf author) = none ↔ stored db (keyOf author) = none := by
    simp [stored]
  constructor
  · rintro ⟨newest, row, member, metadata, -, ends⟩ before d rest split unopened first
    obtain ⟨opened, found⟩ := Option.isSome_iff_exists.mp first
    subst split
    by_contra outdone
    have sums := summary_firstRow env found (skew d (by simp))
    -- nothing newer than the opening event, so its blank profile stays
    have older : NoneNewer env (before ++ d :: rest) opened.updatedAt := by
      intro m row' member' metadata'
      have stamp := (summary_metadata env metadata' (skew m member')).1
      have bound : ¬ openingStamp d < m.event.createdAt.toNat := fun newer => outdone ⟨m, row', member', metadata', newer⟩
      have opening : opened.updatedAt = openingStamp d := congrArg Prod.fst sums
      omega
    have final := stored_after_opening env own (absent.mp unopened) found older
    rw [profileOf_stored final, sums, Option.some.injEq] at ends
    exact (summary_metadata env metadata (skew newest member)).2 ends.symm
  · intro below
    have origin := origin_ingestAll env own (absent.mp unset)
    cases final : stored (ingestAll env db run) (keyOf author) with
    | none =>
      rw [final] at origin
      obtain ⟨m, row, member, metadata⟩ := heard
      exact absurd metadata (origin.silent env m row member)
    | some old =>
      rw [final] at origin
      cases origin with
      | metadata m row member metadata newest =>
        refine ⟨m, row, member, metadata, fun m' row' member' metadata' => ?_, profileOf_stored final⟩
        have bound := newest m' row' member' metadata'
        rw [(summary_metadata env metadata (skew m member)).1,
          (summary_metadata env metadata' (skew m' member')).1] at bound
        exact UInt64.le_iff_toNat_le.mpr (by omega)
      | opened before d rest row split unset found older =>
        obtain ⟨m, mrow, member, metadata, newer⟩ := below before d rest split (absent.mpr unset) (by simp [found])
        have bound := older m mrow member metadata
        have opening : row.updatedAt = openingStamp d :=
          congrArg Prod.fst (summary_firstRow env found (skew d (by simp [split])))
        rw [(summary_metadata env metadata (skew m member)).1, opening] at bound
        omega

section Note

/-- The profile of the author of `note`, older than the note. -/
def noteMetadata : Event where
  pubkey := notePubkey
  createdAt := 1699999000
  kind := 0
  tags := []
  content := "\x7b\"name\":\"alice\"\x7d"
  id := beBytes 32 0xc4f6b314adf17e99237027dcf36044a33105541351428137b3503f9648e9f270
  sig := beBytes 64 0xdc46c6363b432fbf45868e30bff00bb74d6769f91ec650d78cb495edcae3c2768a2237beafc50d59ada6c53a3ad458204222a879cae7479d50fde0ae3f541c47

def aliceEnv : Env :=
  { Env.plain (.ofSigned [note, noteMetadata]) "" with
    toBech32 := fun _ => "npub1lycg5qvjtrp3qjf5f7zl382j9x6nrjz9sdhenvyxq8c3808qxmus6gq266"
    parseMetadata := fun content =>
      if content = noteMetadata.content then some fun field => if field = "name" then some "alice" else none
      else none }

def heardNote : Delivery := ⟨note, 1700000200, true⟩

def heardMetadata : Delivery := ⟨noteMetadata, 1700000200, true⟩

theorem ofAuthor_notes {run : List Delivery} (notes : ∀ d ∈ run, d = heardNote ∨ d = heardMetadata) :
    OfAuthor aliceEnv notePubkey run ∧ ∀ d ∈ run, InSkew d := by
  have distinct : ([note, noteMetadata].map Event.toUnsignedEvent).Nodup := by decide
  refine ⟨⟨fun d member => ?_, fun d member => ?_⟩, fun d member => ?_⟩
  · rcases notes d member with rfl | rfl
    · exact Primitives.verify_ofSigned distinct (by simp [heardNote])
    · exact Primitives.verify_ofSigned distinct (by simp [heardMetadata])
  · rcases notes d member with rfl | rfl <;> rfl
  · rcases notes d member with rfl | rfl <;> exact Nat.le_of_ble_eq_true rfl

theorem isMetadata_alice : ∃ row, IsMetadata aliceEnv heardMetadata row := by
  have parsed : aliceEnv.parseMetadata heardMetadata.event.content =
      some fun field => if field = "name" then some "alice" else none := by
    simp [aliceEnv, heardMetadata]
  exact ⟨_, by decide, by rw [userRow, parsed, Option.map_some]⟩

/-- The note opens the author's row first, and the older profile never enters it. -/
theorem note_shuts_out_profile :
    OfAuthor aliceEnv notePubkey [heardNote, heardMetadata] ∧
      ¬ EndsNewest aliceEnv Db.empty notePubkey [heardNote, heardMetadata] := by
  obtain ⟨own, skew⟩ : OfAuthor aliceEnv notePubkey [heardNote, heardMetadata] ∧
      ∀ d ∈ [heardNote, heardMetadata], InSkew d := ofAuthor_notes (by simp)
  refine ⟨own, ?_⟩
  rintro ⟨m, row, member, metadata, -, ends⟩
  have opens : (firstRow aliceEnv Db.empty heardNote).isSome = true := by decide
  obtain ⟨opened, found⟩ := Option.isSome_iff_exists.mp opens
  have sums := summary_firstRow aliceEnv found (skew heardNote (by simp))
  have older : NoneNewer aliceEnv ([] ++ heardNote :: [heardMetadata]) opened.updatedAt := by
    intro m' row' member' metadata'
    have stamp := (summary_metadata aliceEnv metadata' (skew m' member')).1
    have opening : opened.updatedAt = (openingStamp heardNote : Nat) := congrArg Prod.fst sums
    have bound : m'.event.createdAt.toNat ≤ openingStamp heardNote := by
      obtain rfl | rfl : m' = heardNote ∨ m' = heardMetadata := by simpa using member'
      · exact Nat.le_of_ble_eq_true rfl
      · exact Nat.le_of_ble_eq_true rfl
    omega
  have unset : stored (ingestAll aliceEnv Db.empty []) (keyOf notePubkey) = none := rfl
  have final := profileOf_stored (stored_after_opening aliceEnv own unset found older)
  rw [List.nil_append, ends, sums, Option.some.injEq] at final
  exact (summary_metadata aliceEnv metadata (skew m member)).2 final

theorem profile_before_note_holds :
    OfAuthor aliceEnv notePubkey [heardMetadata, heardNote] ∧
      EndsNewest aliceEnv Db.empty notePubkey [heardMetadata, heardNote] := by
  obtain ⟨own, skew⟩ : OfAuthor aliceEnv notePubkey [heardMetadata, heardNote] ∧
      ∀ d ∈ [heardMetadata, heardNote], InSkew d := ofAuthor_notes (by simp)
  obtain ⟨row, metadata⟩ := isMetadata_alice
  refine ⟨own, (profile_newest_iff aliceEnv own skew rfl ⟨heardMetadata, row, by simp, metadata⟩).mpr ?_⟩
  rintro (_ | ⟨first, before⟩) d rest split unopened opens
  · obtain rfl : heardMetadata = d := (List.cons.inj split).1
    exact absurd opens (by decide)
  · -- after the profile the row is there
    obtain ⟨rfl, tail⟩ := List.cons.inj split
    obtain rfl : before = [] := by
      rcases before with _ | ⟨second, before⟩
      · rfl
      · simp at tail
    have verified := own.verified heardMetadata (by simp)
    have present : stored (ingestAll aliceEnv Db.empty [heardMetadata]) (keyOf notePubkey) = some (summary row) := by
      rw [ingestAll, List.foldl_cons, List.foldl_nil, handle_verified aliceEnv _ verified]
      have opened := stored_metadata aliceEnv Db.empty heardMetadata metadata.1
      rw [metadata.2] at opened
      exact opened
    rw [stored, unopened] at present
    cases present

end Note

end Soshal.Sync
