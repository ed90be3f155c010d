import Soshal.Bridge.Groups

/-! Runs of calls on groups: what becomes of the owner, of the members and of the password.

What a call does to the table of groups and to the row of one member is said once for
all calls; the results about runs only look at that.
-/

set_option autoImplicit false

namespace Soshal.Bridge.Groups

open Library
open Library.Fallible (bind_eq_ok guard_eq_ok elim_eq_ok mapError_eq_ok)
open Library.Runs (Always run)
open Library.Text (byteLen eqIgnoreAsciiCase normKey trim)
open Escrow (Key requireIdentity toHex)

variable {kdf : List UInt8 → List UInt8 → Vector UInt8 32} {parse : String → Option Common.Url}

def Holds (signer : Option Key) (pubkey : String) : Prop := ∃ key, signer = some key ∧ normKey pubkey = toHex key

def Owns (signer : Option Key) (db : GroupDb) (groupId : String) : Prop :=
  ∃ group, db.groups.find? groupId = some group ∧ Holds signer group.pubkey

theorem callerIs_ok {signer : Option Key} {pubkey : String} {u : Unit} :
    callerIs signer pubkey = .ok u ↔ Holds signer pubkey := by
  rw [callerIs, mapError_eq_ok, Holds]
  cases signer with
  | none => simp [requireIdentity]
  | some key =>
    have spelled : normKey (toHex key) = toHex key := Text.normKey_hexEncode _
    simp [requireIdentity, spelled, eq_comm]

theorem requireOwner_ok {signer : Option Key} {db : GroupDb} {groupId actor : String} {u : Unit}
    (checked : requireOwner signer db groupId actor = .ok u) :
    ∃ group, db.groups.find? groupId = some group ∧ normKey group.pubkey = normKey actor ∧ Holds signer actor := by
  obtain ⟨group, found, checked⟩ := bind_eq_ok.mp checked
  obtain ⟨same, own⟩ := guard_eq_ok.mp checked
  refine ⟨group, elim_eq_ok.mp found, Text.normKey_of_eqIgnoreAsciiCase (by simpa using same), callerIs_ok.mp own⟩

theorem owns_of_requireOwner {signer : Option Key} {db : GroupDb} {groupId actor : String} {u : Unit}
    (checked : requireOwner signer db groupId actor = .ok u) : Owns signer db groupId := by
  obtain ⟨group, found, same, key, unlocked, spelled⟩ := requireOwner_ok checked
  exact ⟨group, found, key, unlocked, same.trans spelled⟩

/-- The act lets a key into a group. -/
inductive Admits (kdf : List UInt8 → List UInt8 → Vector UInt8 32) (db : GroupDb) (act : Act) (groupId pubkey : String) :
    Prop where
  | joined {userPubkey : String} {password : Option String} {group : GroupRow} :
      act.call = .join groupId userPubkey password → normKey userPubkey = pubkey → Holds act.signer userPubkey →
      db.groups.find? groupId = some group → (groupId, pubkey) ∉ db.banned → letIn kdf group password = .ok () →
      Admits kdf db act groupId pubkey
  | appointed {memberPubkey role adminPubkey : String} :
      act.call = .setMemberRole groupId memberPubkey role adminPubkey → normKey memberPubkey = pubkey →
      Owns act.signer db groupId → Admits kdf db act groupId pubkey
  | founded {drawn : Option (Vector UInt8 16)} {id name description pictureUrl creatorPubkey : String}
      {isPrivate : Bool} {password : Option String} :
      act.call = .create drawn id name description pictureUrl creatorPubkey isPrivate password → trim id = groupId →
      normKey creatorPubkey = pubkey → Admits kdf db act groupId pubkey

/-- The act takes a key out of a group: it leaves by itself, or the owner removes it. -/
def Expels (db : GroupDb) (act : Act) (groupId pubkey : String) : Prop :=
  (Holds act.signer pubkey ∨ Owns act.signer db groupId) ∧
    ∀ group, db.groups.find? groupId = some group → normKey group.pubkey ≠ pubkey

/-- The act writes the row of a group. -/
def Rewrites (db : GroupDb) (act : Act) (groupId : String) : Prop :=
  Owns act.signer db groupId ∨ ∃ drawn id name description pictureUrl creatorPubkey isPrivate password,
    act.call = .create drawn id name description pictureUrl creatorPubkey isPrivate password ∧ trim id = groupId

theorem addMember_keeps (db : GroupDb) (groupId pubkey role : String) (now : Int) :
    (db.addMember groupId pubkey role now).2.groups = db.groups ∧
      (db.addMember groupId pubkey role now).2.users = db.users := by
  unfold GroupDb.addMember
  simp only
  split
  · exact ⟨rfl, rfl⟩
  · exact ⟨rfl, rfl⟩

theorem removeMember_members (db : GroupDb) (groupId pubkey : String) (key : String × String) :
    (db.removeMember groupId pubkey).members.find? key =
      if key = (groupId, normKey pubkey) then none else db.members.find? key :=
  Table.find?_delete_key db.members _ key

theorem addMember_members (db : GroupDb) (groupId pubkey role : String) (now : Int) (key : String × String) :
    (db.addMember groupId pubkey role now).2.members.find? key =
      if key = (groupId, normKey pubkey) then
        if groupId ∈ db.groups.keys ∧ normKey pubkey ∈ db.users then some ⟨role, now⟩ else none
      else db.members.find? key := by
  have removed := removeMember_members db groupId pubkey
  unfold GroupDb.addMember
  by_cases referenced : groupId ∈ db.groups.keys ∧ normKey pubkey ∈ db.users
  · have still : groupId ∈ (db.removeMember groupId pubkey).groups.keys ∧
        normKey pubkey ∈ (db.removeMember groupId pubkey).users := referenced
    simp only [if_pos still, if_pos referenced, Table.find?_upsert, removed]
    by_cases same : key = (groupId, normKey pubkey)
    · simp [same]
    · simp [same]
  · have still : ¬ (groupId ∈ (db.removeMember groupId pubkey).groups.keys ∧
        normKey pubkey ∈ (db.removeMember groupId pubkey).users) := referenced
    simp only [if_neg still, if_neg referenced, removed]

theorem newGroup_id {drawn : Option (Vector UInt8 16)} {now : Int}
    {groupId name description pictureUrl creatorPubkey : String} {isPrivate : Bool} {password : Option String}
    {new : String × GroupRow}
    (built : newGroup kdf parse drawn now groupId name description pictureUrl creatorPubkey isPrivate password = .ok new) :
    new.1 = trim groupId := by
  iterate 5 obtain ⟨-, built⟩ := guard_eq_ok.mp built
  obtain ⟨access, -, rfl⟩ := Fallible.map_eq_ok.mp built
  rfl

/-- All that a call may do. -/
structure Does (kdf : List UInt8 → List UInt8 → Vector UInt8 32) (db : GroupDb) (act : Act) (after : GroupDb) : Prop where
  users : db.users ⊆ after.users
  groups : after.groups = db.groups ∨ ∃ id row, Rewrites db act id ∧ after.groups = (db.upsert id row).groups
  members : ∀ groupId pubkey,
    after.members.find? (groupId, pubkey) = db.members.find? (groupId, pubkey) ∨
      (Admits kdf db act groupId pubkey ∧
        (groupId ∈ db.groups.keys → pubkey ∈ db.users → (groupId, pubkey) ∈ after.members.keys)) ∨
      (Expels db act groupId pubkey ∧ after.members.find? (groupId, pubkey) = none)

variable {db : GroupDb} {act : Act}

theorem Does.idle : Does kdf db act db := ⟨List.Subset.refl _, .inl rfl, fun _ _ => .inl rfl⟩

theorem Does.removed {groupId pubkey : String} (expels : Expels db act groupId (normKey pubkey)) :
    Does kdf db act (db.removeMember groupId pubkey) where
  users := List.Subset.refl _
  groups := .inl rfl
  members := by
    intro id other
    rw [removeMember_members]
    by_cases same : (id, other) = (groupId, normKey pubkey)
    · obtain ⟨rfl, rfl⟩ := Prod.mk.inj same
      exact .inr (.inr ⟨expels, if_pos rfl⟩)
    · exact .inl (if_neg same)

theorem Does.added {before : GroupDb} {groupId pubkey role : String} {now : Int} (users : before.users = db.users)
    (members : before.members = db.members) (keys : db.groups.keys ⊆ before.groups.keys)
    (groups : before.groups = db.groups ∨ ∃ id row, Rewrites db act id ∧ before.groups = (db.upsert id row).groups)
    (admits : Admits kdf db act groupId (normKey pubkey)) :
    Does kdf db act (before.addMember groupId pubkey role now).2 where
  users := by
    rw [(addMember_keeps ..).2, users]
    exact List.Subset.refl _
  groups := by
    rw [(addMember_keeps ..).1]
    exact groups
  members := by
    intro id other
    rw [addMember_members, members]
    by_cases same : (id, other) = (groupId, normKey pubkey)
    · obtain ⟨rfl, rfl⟩ := Prod.mk.inj same
      refine .inr (.inl ⟨admits, fun known registered => ?_⟩)
      have referenced : id ∈ before.groups.keys ∧ normKey pubkey ∈ before.users := ⟨keys known, users ▸ registered⟩
      rw [Table.mem_keys_iff, addMember_members, if_pos rfl, if_pos referenced]
      exact ⟨_, rfl⟩
    · exact .inl (if_neg same)

theorem not_eqIgnoreAsciiCase_trim {first second : String}
    (other : ¬ eqIgnoreAsciiCase (trim first) (trim second) = true) : normKey first ≠ normKey second :=
  fun same => other (beq_iff_eq.mpr same)

variable (kdf parse) in
/-- Every call does nothing, or what it is checked for. -/
theorem does_step (db : GroupDb) (act : Act) : Does kdf db act (step kdf parse db act) := by
  obtain ⟨signer, now, call⟩ := act
  cases call with
  | create drawn id name description pictureUrl creatorPubkey isPrivate password =>
    refine guarded_keeps Does.idle fun new built => ?_
    have named := newGroup_id built
    refine Does.added rfl rfl (fun _ member => Table.mem_keys_upsert.mpr (.inr member)) ?_ ?_
    · exact .inr ⟨new.1, new.2, .inr ⟨_, _, _, _, _, _, _, _, rfl, named.symm⟩, rfl⟩
    · exact .founded rfl named.symm rfl
  | join groupId userPubkey password =>
    refine guarded_keeps Does.idle fun group checked => ?_
    obtain ⟨u, own, checked⟩ := bind_eq_ok.mp checked
    obtain ⟨_, found, checked⟩ := bind_eq_ok.mp checked
    obtain ⟨welcome, checked⟩ := guard_eq_ok.mp checked
    obtain ⟨_, passed, same⟩ := bind_eq_ok.mp checked
    cases same
    split
    · exact Does.idle
    · refine Does.added rfl rfl (List.Subset.refl _) (.inl rfl) (.joined rfl rfl (callerIs_ok.mp own) (elim_eq_ok.mp found) ?_ passed)
      simpa [GroupDb.isBanned] using welcome
  | leave groupId userPubkey =>
    refine guarded_keeps Does.idle fun _ checked => ?_
    obtain ⟨_, own, checked⟩ := bind_eq_ok.mp checked
    obtain ⟨key, unlocked, spelled⟩ := callerIs_ok.mp own
    refine Does.removed ⟨.inl ⟨key, unlocked, (Text.normKey_normKey _).trans spelled⟩, fun group found => ?_⟩
    simp only [found] at checked
    exact not_eqIgnoreAsciiCase_trim (guard_eq_ok.mp checked).1
  | setMemberRole groupId memberPubkey role adminPubkey =>
    refine guarded_keeps Does.idle fun _ checked => ?_
    exact Does.added rfl rfl (List.Subset.refl _) (.inl rfl) (.appointed rfl rfl (owns_of_requireOwner checked))
  | removeMember groupId memberPubkey adminPubkey =>
    refine guarded_keeps Does.idle fun _ checked => ?_
    obtain ⟨_, owned, checked⟩ := bind_eq_ok.mp checked
    refine Does.removed ⟨.inr (owns_of_requireOwner owned), fun group found same => ?_⟩
    obtain ⟨_, found', owner, -⟩ := requireOwner_ok owned
    cases found.symm.trans found'
    exact not_eqIgnoreAsciiCase_trim (guard_eq_ok.mp checked).1 (same.symm.trans owner)
  | setPassword drawn groupId newPassword actorPubkey =>
    refine guarded_keeps Does.idle fun group checked => ?_
    obtain ⟨_, owned, -⟩ := bind_eq_ok.mp checked
    exact ⟨List.Subset.refl _, .inr ⟨groupId, group, .inl (owns_of_requireOwner owned), rfl⟩, fun _ _ => .inl rfl⟩
  | user pubkey => exact ⟨List.subset_cons_self _ _, .inl rfl, fun _ _ => .inl rfl⟩
  | ban | unban => exact ⟨List.Subset.refl _, .inl rfl, fun _ _ => .inl rfl⟩

/-- The group keeps its owner and its age, and its owner is a member if it once was. -/
structure Founded (start : GroupDb) (groupId : String) (group : GroupRow) (db : GroupDb) : Prop where
  row : ∃ now, db.groups.find? groupId = some now ∧ now.pubkey = group.pubkey ∧ now.createdAt = group.createdAt
  users : start.users ⊆ db.users
  member : (groupId, normKey group.pubkey) ∈ start.members.keys → normKey group.pubkey ∈ start.users →
    (groupId, normKey group.pubkey) ∈ db.members.keys

theorem Founded.does {start after : GroupDb} {groupId : String} {group : GroupRow}
    (founded : Founded start groupId group db) (does : Does kdf db act after) : Founded start groupId group after := by
  obtain ⟨row, found, owner, created⟩ := founded.row
  refine ⟨?_, List.Subset.trans founded.users does.users, fun joined registered => ?_⟩
  · obtain same | ⟨id, new, -, upserted⟩ := does.groups
    · exact ⟨row, same ▸ found, owner, created⟩
    · rw [upserted, GroupDb.upsert, Table.find?_upsert]
      split
      · rename_i same
        rw [← same, found]
        exact ⟨_, rfl, owner, created⟩
      · exact ⟨row, found, owner, created⟩
  · have member := founded.member joined registered
    obtain same | ⟨-, stays⟩ | ⟨⟨-, spared⟩, -⟩ := does.members groupId (normKey group.pubkey)
    · rw [Table.mem_keys_iff] at member ⊢
      rwa [same]
    · exact stays (Table.mem_keys_iff.mpr ⟨row, found⟩) (founded.users registered)
    · exact absurd (by rw [owner]) (spared row found)

/-- Whatever is called, by whomever: a group stays, with its owner and its age, and the owner stays a member. -/
theorem owner_stays {start : GroupDb} {groupId : String} {group : GroupRow}
    (found : start.groups.find? groupId = some group) (acts : List Act) :
    Always (step kdf parse) (Founded start groupId group) start acts :=
  Runs.always_of_invariant (fun db act founded => founded.does (does_step kdf parse db act))
    ⟨⟨group, found, rfl, rfl⟩, List.Subset.refl _, fun joined _ => joined⟩

abbrev anna : Key := .replicate 32 1

def chess : GroupRow := ⟨"chess", none, none, toHex anna, 5, 5, "open", none, "local", none⟩

def village : GroupDb :=
  ⟨[toHex anna, "bo"], Table.empty.insertIgnore "g" chess, Table.empty.insertIgnore ("g", toHex anna) ⟨"owner", 5⟩, []⟩

theorem found_chess : village.groups.find? "g" = some chess := by decide +kernel

abbrev noKey : List UInt8 → List UInt8 → Vector UInt8 32 := fun _ _ => .replicate 32 0
abbrev noUrl : String → Option Common.Url := fun _ => none

theorem owner_stays_village :
    Always (step noKey noUrl) (Founded village "g" chess) village
      [⟨none, 6, .create none "g" "mine" "" "" "bo" false none⟩, ⟨some anna, 7, .leave "g" (toHex anna)⟩] :=
  owner_stays found_chess _

/-- Whoever is a member and was none has been let in: by itself with the password, by the owner, or by a creation of the
group under its name. -/
theorem member_was_admitted {start : GroupDb} {acts : List Act} {groupId pubkey : String}
    (outside : (groupId, pubkey) ∉ start.members.keys)
    (inside : (groupId, pubkey) ∈ (run (step kdf parse) start acts).members.keys) :
    ∃ done act rest, acts = done ++ act :: rest ∧ Admits kdf (run (step kdf parse) start done) act groupId pubkey := by
  obtain ⟨done, act, rest, split, before, after⟩ :=
    Runs.exists_step_of_run (P := fun db : GroupDb => (groupId, pubkey) ∈ db.members.keys) outside inside
  refine ⟨done, act, rest, split, ?_⟩
  obtain same | ⟨admits, -⟩ | ⟨-, gone⟩ := (does_step kdf parse _ act).members groupId pubkey
  · rw [Table.mem_keys_iff] at before after
    exact absurd (same ▸ after) before
  · exact admits
  · exact absurd after (Table.find?_eq_none.mp gone)

theorem member_was_admitted_village :
    ∃ done act rest, [Act.mk (some anna) 7 (.setMemberRole "g" "bo" "member" (toHex anna))] = done ++ act :: rest ∧
      Admits noKey (run (step noKey noUrl) village done) act "g" "bo" :=
  @member_was_admitted noKey noUrl village _ "g" "bo" (by decide +kernel) (by decide +kernel)

/-- The act is not signed by the owner, and does not create the group again. -/
def Foreign (groupId owner : String) (act : Act) : Prop :=
  ¬ Holds act.signer owner ∧ ∀ drawn id name description pictureUrl creatorPubkey isPrivate password,
    act.call = .create drawn id name description pictureUrl creatorPubkey isPrivate password → trim id ≠ groupId

/-- Without the owner's key and a creation of the group nobody changes its row, and no member goes that does not act. -/
theorem settings_stay {start : GroupDb} {groupId : String} {group : GroupRow}
    (found : start.groups.find? groupId = some group) {acts : List Act}
    (foreign : ∀ act ∈ acts, Foreign groupId group.pubkey act) :
    (run (step kdf parse) start acts).groups.find? groupId = some group ∧
      ∀ pubkey, (groupId, pubkey) ∈ start.members.keys → (∀ act ∈ acts, ¬ Holds act.signer pubkey) →
        (groupId, pubkey) ∈ (run (step kdf parse) start acts).members.keys := by
  induction acts generalizing start with
  | nil => exact ⟨found, fun _ member _ => member⟩
  | cons act rest ih =>
    obtain ⟨⟨unsigned, uncreated⟩, later⟩ := List.forall_mem_cons.mp foreign
    have does := does_step kdf parse start act
    have owned : ¬ Owns act.signer start groupId := by
      rintro ⟨row, found', own⟩
      cases found.symm.trans found'
      exact unsigned own
    have kept : (step kdf parse start act).groups.find? groupId = some group := by
      obtain same | ⟨id, row, rewrites, upserted⟩ := does.groups
      · exact same ▸ found
      · have other : groupId ≠ id := by
          rintro rfl
          obtain own | ⟨_, _, _, _, _, _, _, _, called, named⟩ := rewrites
          · exact owned own
          · exact uncreated _ _ _ _ _ _ _ _ called named
        rw [upserted, GroupDb.upsert, Table.find?_upsert_of_ne _ _ _ other, found]
    obtain ⟨row, members⟩ := ih kept later
    refine ⟨row, fun pubkey member silent => ?_⟩
    obtain ⟨still, quiet⟩ := List.forall_mem_cons.mp silent
    refine members pubkey ?_ quiet
    obtain same | ⟨admits, -⟩ | ⟨⟨signed, -⟩, -⟩ := does.members groupId pubkey
    · rw [Table.mem_keys_iff] at member ⊢
      rwa [same]
    · cases admits with
      | joined _ named own => exact absurd own (by rw [← named] at still; simpa [Holds] using still)
      | appointed _ _ own => exact absurd own owned
      | founded called named => exact absurd named (uncreated _ _ _ _ _ _ _ _ called)
    · exact absurd signed (not_or.mpr ⟨still, owned⟩)

theorem settings_stay_village :
    (run (step noKey noUrl) village [⟨none, 7, .removeMember "g" "bo" (toHex anna)⟩]).groups.find? "g" = some chess ∧
      ∀ pubkey, ("g", pubkey) ∈ village.members.keys →
        (∀ act ∈ [Act.mk none 7 (.removeMember "g" "bo" (toHex anna))], ¬ Holds act.signer pubkey) →
        ("g", pubkey) ∈ (run (step noKey noUrl) village [⟨none, 7, .removeMember "g" "bo" (toHex anna)⟩]).members.keys := by
  refine settings_stay found_chess fun act member => ?_
  cases List.mem_singleton.mp member
  constructor
  · rintro ⟨key, locked, -⟩
    cases locked
  · intros
    contradiction

/-- Whoever is unlocked, a creation under the id of a group opens it to everybody and gives any registered key a place
as its owner. -/
theorem create_overrides {groupId name description pictureUrl pubkey : String} {group : GroupRow}
    (found : db.groups.find? groupId = some group)
    (usable : trim groupId = groupId ∧ groupId ≠ "" ∧ byteLen groupId ≤ 128)
    (titled : trim name ≠ "" ∧ byteLen (trim name) ≤ 200) (described : byteLen description ≤ 5000)
    (pictured : pictureUrl = "" ∨ Common.isValidMediaUrl parse pictureUrl = true)
    (named : trim pubkey ≠ "" ∧ byteLen pubkey ≤ 128) (registered : normKey pubkey ∈ db.users) (signer : Option Key)
    (now : Int) (drawn : Option (Vector UInt8 16)) (password : Option String) :
    let after := step kdf parse db
      ⟨signer, now, .create drawn groupId name description pictureUrl pubkey false password⟩
    (∃ row, after.groups.find? groupId = some row ∧ ∀ password, letIn kdf row password = .ok ()) ∧
      after.members.find? (groupId, normKey pubkey) = some ⟨"owner", now⟩ := by
  have shown : ¬ (pictureUrl ≠ "" ∧ (!Common.isValidMediaUrl parse pictureUrl) = true) := by
    rintro ⟨given, invalid⟩
    rw [pictured.resolve_left given] at invalid
    cases invalid
  obtain ⟨row, built, opened, free⟩ : ∃ row : GroupRow, newGroup kdf parse drawn now groupId name description pictureUrl
      pubkey false password = .ok (groupId, row) ∧ row.accessType = "open" ∧ row.passwordHash = none := by
    simp only [newGroup, usable.1, usable.2.1, Nat.not_lt.mpr usable.2.2, titled.1, Nat.not_lt.mpr titled.2, named.1,
      Nat.not_lt.mpr named.2, Nat.not_lt.mpr described, shown, or_self, if_false, Bool.not_false, if_true]
    exact ⟨_, rfl, rfl, rfl⟩
  have made : step kdf parse db ⟨signer, now, .create drawn groupId name description pictureUrl pubkey false password⟩ =
      ((db.upsert groupId row).addMember groupId pubkey "owner" now).2 := by
    simp only [step, groupsCreate, built, guarded]
  simp only [made, (addMember_keeps ..).1, addMember_members]
  constructor
  · refine ⟨{ row with pubkey := group.pubkey, createdAt := group.createdAt }, ?_, fun password => ?_⟩
    · rw [GroupDb.upsert, Table.find?_upsert_self, found]
      rfl
    · have anybody : GroupPasswords.isCommunityPrivate "open" false = false := by decide
      simp [letIn, opened, free, anybody]
  · rw [if_pos trivial, if_pos ⟨Table.mem_keys_upsert.mpr (.inl rfl), registered⟩]

theorem create_overrides_village :
    let after := step noKey noUrl village ⟨none, 9, .create none "g" "mine" "for me" "" "bo" false none⟩
    (∃ row, after.groups.find? "g" = some row ∧ ∀ password, letIn noKey row password = .ok ()) ∧
      after.members.find? ("g", Text.normKey "bo") = some ⟨"owner", 9⟩ :=
  create_overrides found_chess (by decide) (by decide) (by decide) (.inl rfl) (by decide) (by decide +kernel) none 9 none
    none

end Soshal.Bridge.Groups
