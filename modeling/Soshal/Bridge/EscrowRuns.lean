import Soshal.Bridge.Escrow
import Soshal.Library.Fallible

/-! Escrows under any calls of any signers.

The calls that succeed are kept in a journal. What is asked of a status is asked
of each call against the journal before it; the two slips of the entry points, a
dispute or a release of a finished escrow and a resolution by a party, are what a
careful call leaves out.
-/

set_option autoImplicit false

namespace Soshal.Bridge.Escrow

open Library
open Library.Fallible
open Library.Runs (Throughout)
open Library.Text (normKey eqIgnoreAsciiCase hexEncode toAsciiLowercase normKey_hexEncode normKey_of_eqIgnoreAsciiCase
  hexEncode_inj)

inductive Call where
  | create (order : Option OrderInfo) (buyerPubkey sellerPubkey : String) (amount : UInt64) (escrowId : String)
  | confirmBuyer (escrowId caller : String)
  | confirmSeller (escrowId caller : String)
  | release (escrowId sellerPubkey : String)
  | dispute (escrowId disputerPubkey reason : String)
  | resolve (escrowId mediatorPubkey winnerPubkey : String)
  deriving DecidableEq

/-- A call, with the signer that is unlocked and the clock at the time. -/
structure Act where
  signer : Option Key
  now : Int
  call : Call
  deriving DecidableEq

def perform (db : Escrows) (act : Act) : Except Failure Escrows :=
  match act.call with
  | .create order buyer seller amount id => (createEscrow db act.signer act.now order buyer seller amount id).map Prod.snd
  | .confirmBuyer id caller => (confirmBuyer db act.signer act.now id caller).map Prod.snd
  | .confirmSeller id caller => (confirmSeller db act.signer act.now id caller).map Prod.snd
  | .release id seller => (releaseEscrow db act.signer act.now id seller).map Prod.snd
  | .dispute id disputer reason => (disputeEscrow db act.signer act.now id disputer reason).map Prod.snd
  | .resolve id mediator winner => (resolveEscrow db act.signer act.now id mediator winner).map Prod.snd

/-- The table, and the calls that succeeded so far. -/
structure Market where
  escrows : Escrows
  journal : List Act

def Market.start : Market := ⟨.empty, []⟩

def step (m : Market) (act : Act) : Market :=
  match perform m.escrows act with
  | .ok escrows => ⟨escrows, m.journal ++ [act]⟩
  | .error _ => m

/-! ## What is asked of the status -/

def statusOf (m : Market) (id : String) : Option Status := (m.escrows.find? id).map EscrowRow.status

def Finished (status : Status) : Prop := status = .completed ∨ status = .refunded

def Is (signer : Option Key) (pubkey : String) : Prop := ∃ key, signer = some key ∧ normKey pubkey = toHex key

def Call.concerns : Call → String → Prop
  | .create .., _ => False
  | .confirmBuyer escrowId _, id => escrowId = id
  | .confirmSeller escrowId _, id => escrowId = id
  | .release escrowId _, id => escrowId = id
  | .dispute escrowId _ _, id => escrowId = id
  | .resolve escrowId _ _, id => escrowId = id

def BuyerConfirmed (journal : List Act) (id : String) (row : EscrowRow) : Prop :=
  ∃ act ∈ journal, (∃ caller, act.call = .confirmBuyer id caller) ∧ Is act.signer row.buyerPubkey

def SellerConfirmed (journal : List Act) (id : String) (row : EscrowRow) : Prop :=
  ∃ act ∈ journal, (∃ caller, act.call = .confirmSeller id caller) ∧ Is act.signer row.sellerPubkey

/-- A dispute that someone who is neither buyer nor seller resolves. -/
def ResolvedByOther (act : Act) (id : String) (row : EscrowRow) : Prop :=
  (∃ mediator winner, act.call = .resolve id mediator winner) ∧ row.status = .disputed ∧
    ¬ Is act.signer row.buyerPubkey ∧ ¬ Is act.signer row.sellerPubkey

/-- All calls on the escrow since its creation are of one key. -/
def Alone (journal : List Act) (id : String) (key : Key) : Prop :=
  ∀ act ∈ journal, act.call.concerns id → act.signer = some key

structure Safe (m : Market) (act : Act) : Prop where
  final : ∀ id status, statusOf m id = some status → Finished status → statusOf (step m act) id = some status
  agreed : ∀ id, statusOf m id ≠ some .completed → statusOf (step m act) id = some .completed →
    ∃ row, m.escrows.find? id = some row ∧
      (BuyerConfirmed m.journal id row ∧ SellerConfirmed m.journal id row ∨ ResolvedByOther act id row)
  together : ∀ id status, (∀ before, statusOf m id = some before → ¬ Finished before) →
    statusOf (step m act) id = some status → Finished status → ∀ key, ¬ Alone (step m act).journal id key

/-! ## What a call does -/

def Identity (signer : Option Key) (expected : String) : Prop :=
  ∃ key, signer = some key ∧ normKey (toHex key) = normKey expected

/-- The checks that a call makes against the row it is about. -/
def Admitted (row : EscrowRow) (act : Act) : Prop :=
  match act.call with
  | .create .. => False
  | .confirmBuyer _ caller => eqIgnoreAsciiCase row.buyerPubkey caller = true ∧ Identity act.signer caller
  | .confirmSeller _ caller => eqIgnoreAsciiCase row.sellerPubkey caller = true ∧ Identity act.signer caller
  | .release _ seller => ∃ key, act.signer = some key ∧ eqIgnoreAsciiCase (toHex key) seller = true ∧
      eqIgnoreAsciiCase row.sellerPubkey (toHex key) = true ∧
        row.status ≠ .disputed ∧ row.buyerConfirmed = true ∧ row.sellerConfirmed = true
  | .dispute _ disputer _ => (eqIgnoreAsciiCase row.buyerPubkey disputer = true ∨
      eqIgnoreAsciiCase row.sellerPubkey disputer = true) ∧ Identity act.signer disputer
  | .resolve _ _ winner => ∃ key, act.signer = some key ∧ (eqIgnoreAsciiCase (toHex key) row.buyerPubkey = true ∨
      eqIgnoreAsciiCase (toHex key) row.sellerPubkey = true) ∧ (eqIgnoreAsciiCase winner row.buyerPubkey = true ∨
        eqIgnoreAsciiCase winner row.sellerPubkey = true) ∧
          (row.status = .disputed ∨ row.buyerConfirmed = true ∧ row.sellerConfirmed = true)

def resolution (row : EscrowRow) (winner : String) : Status :=
  if row.status = .disputed then if eqIgnoreAsciiCase winner row.sellerPubkey then .completed else .refunded
  else .completed

def changed (act : Act) (row : EscrowRow) : EscrowRow :=
  match act.call with
  | .create .. => row
  | .confirmBuyer .. => { row with buyerConfirmed := true, updatedAt := act.now }
  | .confirmSeller .. => { row with sellerConfirmed := true, updatedAt := act.now }
  | .release .. => { row with status := .completed, updatedAt := act.now }
  | .dispute _ _ reason =>
    { row with status := .disputed, escrowNote := some (truncate reason 512), updatedAt := act.now }
  | .resolve _ _ winner =>
    { row with status := resolution row winner, escrowNote := some "resolved by mediator", updatedAt := act.now }

def rewrite (db : Escrows) (id : String) (change : EscrowRow → EscrowRow) : Escrows :=
  db.modify fun key row => if key = id then change row else row

theorem update_found {db : Escrows} {id : String} {row : EscrowRow} (found : db.find? id = some row) (now : Int)
    (change : EscrowRow → EscrowRow) :
    update db id now change = .ok (rewrite db id fun row => { change row with updatedAt := now }) :=
  if_pos (Table.mem_keys_iff.mpr ⟨row, found⟩)

theorem find?_rewrite (db : Escrows) (id : String) (change : EscrowRow → EscrowRow) (other : String) :
    (rewrite db id change).find? other = (db.find? other).map fun row => if other = id then change row else row := by
  rw [rewrite, Table.find?_modify]

theorem rewrite_rewrite (db : Escrows) (id : String) (first second : EscrowRow → EscrowRow) :
    rewrite (rewrite db id first) id second = rewrite db id fun row => second (first row) := by
  unfold rewrite
  rw [Table.modify_modify]
  refine Table.modify_congr fun key row => ?_
  by_cases same : key = id
  · simp [same]
  · simp [same]

theorem identity_ok {signer : Option Key} {expected : String} {u : Unit} :
    ((requireIdentity signer expected).mapError fun text => Failure.db (.migration text)) = .ok u ↔
      Identity signer expected := by
  unfold requireIdentity Identity
  cases signer with
  | none => simp [Except.mapError]
  | some key =>
    by_cases same : normKey (toHex key) = normKey expected
    · simp [Except.mapError, same]
    · simp [Except.mapError, same]

theorem get_ok {db : Escrows} {id : String} {row : EscrowRow} :
    get db id = .ok row ↔ db.find? id = some row := elim_eq_ok

theorem getConfirms_found {db : Escrows} {id : String} {row : EscrowRow} (found : db.find? id = some row) :
    getConfirms db id = .ok (row.buyerConfirmed, row.sellerConfirmed) := by
  rw [getConfirms, get_ok.mpr found]
  rfl

theorem signerPubkey_ok {signer : Option Key} {caller : String} :
    signerPubkey signer = .ok caller ↔ ∃ key, signer = some key ∧ toHex key = caller := by
  cases signer with
  | none => simp [signerPubkey]
  | some key => simp [signerPubkey]

section Calls

variable {db after : Escrows} {signer : Option Key} {now : Int} {id : String} {row : EscrowRow}

section

variable (found : db.find? id = some row)
include found

theorem confirm_iff {party : EscrowRow → String} {refusal caller : String}
    {set : Escrows → String → Bool → Int → Except Failure Escrows} {change : EscrowRow → EscrowRow}
    (sets : set db id true now = .ok (rewrite db id change)) :
    (confirm party refusal set db signer now id caller).map Prod.snd = .ok after ↔
      (eqIgnoreAsciiCase (party row) caller = true ∧ Identity signer caller) ∧ after = rewrite db id change := by
  unfold confirm
  rw [map_eq_ok]
  simp only [bind_eq_ok, get_ok, found, Option.some.injEq, exists_eq_left', guard_eq_ok, identity_ok, sets,
    exists_const, Except.ok.injEq, pure_eq_ok, Bool.not_eq_true', Bool.not_eq_false]
  constructor
  · rintro ⟨_, ⟨same, own, rfl⟩, rfl⟩
    exact ⟨⟨same, own⟩, rfl⟩
  · rintro ⟨⟨same, own⟩, rfl⟩
    exact ⟨_, ⟨same, own, rfl⟩, rfl⟩

theorem releaseEscrow_iff {seller : String} :
    (releaseEscrow db signer now id seller).map Prod.snd = .ok after ↔
      Admitted row ⟨signer, now, .release id seller⟩ ∧
        after = rewrite db id (changed ⟨signer, now, .release id seller⟩) := by
  have allowed : canRelease row.buyerConfirmed row.sellerConfirmed false (row.status == .disputed) = true ↔
      row.status ≠ .disputed ∧ row.buyerConfirmed = true ∧ row.sellerConfirmed = true := by
    by_cases disputed : row.status = .disputed
    · simp [canRelease, disputed]
    · simp [canRelease, disputed]
  unfold releaseEscrow
  rw [map_eq_ok]
  simp only [bind_eq_ok, signerPubkey_ok, get_ok, found, Option.some.injEq, exists_eq_left', guard_eq_ok,
    getConfirms_found found, updateStatus, update_found found, Except.ok.injEq, pure_eq_ok, Bool.not_eq_true',
    Bool.not_eq_false, allowed]
  constructor
  · rintro ⟨_, ⟨_, ⟨key, unlocked, rfl⟩, asked, own, passes, rfl⟩, rfl⟩
    exact ⟨⟨key, unlocked, asked, own, passes⟩, rfl⟩
  · rintro ⟨⟨key, unlocked, asked, own, passes⟩, rfl⟩
    exact ⟨_, ⟨_, ⟨key, unlocked, rfl⟩, asked, own, passes, rfl⟩, rfl⟩

theorem noted_found {status : Status} {note : String} :
    (updateStatus db id status now >>= fun db => setNote db id note now) =
      .ok (rewrite db id fun row => { row with status, escrowNote := some note, updatedAt := now }) := by
  rw [updateStatus, update_found found]
  show setNote (rewrite db id _) id note now = _
  rw [setNote, update_found (by rw [find?_rewrite, found, Option.map_some]), rewrite_rewrite]

theorem noted_eq {status : Status} {note : String} {middle : Escrows}
    (first : updateStatus db id status now = .ok middle) (second : setNote middle id note now = .ok after) :
    after = rewrite db id fun row => { row with status, escrowNote := some note, updatedAt := now } := by
  have both : (updateStatus db id status now >>= fun db => setNote db id note now) = .ok after :=
    bind_eq_ok.mpr ⟨middle, first, second⟩
  rw [noted_found found] at both
  exact (Except.ok.inj both).symm

theorem disputeEscrow_iff {disputer reason : String} :
    (disputeEscrow db signer now id disputer reason).map Prod.snd = .ok after ↔
      Admitted row ⟨signer, now, .dispute id disputer reason⟩ ∧
        after = rewrite db id (changed ⟨signer, now, .dispute id disputer reason⟩) := by
  unfold disputeEscrow
  rw [map_eq_ok]
  simp only [bind_eq_ok, get_ok, found, Option.some.injEq, exists_eq_left', guard_eq_ok, identity_ok, pure_eq_ok]
  constructor
  · rintro ⟨_, ⟨parties, _, own, middle, first, last, second, rfl⟩, rfl⟩
    refine ⟨⟨by simpa [or_iff_not_imp_left] using parties, own⟩, ?_⟩
    exact noted_eq found first second
  · rintro ⟨⟨parties, own⟩, rfl⟩
    obtain ⟨middle, first, second⟩ := bind_eq_ok.mp (noted_found found)
    exact ⟨_, ⟨by simpa [or_iff_not_imp_left] using parties, (), own, middle, first, _, second, rfl⟩, rfl⟩

theorem resolvedStatus_ok {status : Status} {winner : String} :
    resolvedStatus db id winner row = .ok status ↔
      (row.status = .disputed ∨ row.buyerConfirmed = true ∧ row.sellerConfirmed = true) ∧
        resolution row winner = status := by
  unfold resolvedStatus resolution
  by_cases disputed : row.status = .disputed
  · simp [disputed]
  · simp only [disputed, if_false, false_or, bind_eq_ok, getConfirms_found found, Except.ok.injEq, exists_eq_left',
      guard_eq_ok, pure_eq_ok]
    cases row.buyerConfirmed <;> cases row.sellerConfirmed <;> simp

theorem rewrite_congr {first second : EscrowRow → EscrowRow} (same : first row = second row) :
    rewrite db id first = rewrite db id second := by
  unfold rewrite
  refine Table.ext_rows (List.map_congr_left fun entry member => ?_)
  by_cases mine : entry.1 = id
  · have here : db.find? id = some entry.2 := Table.find?_eq_some.mpr (by rw [← mine]; exact member)
    obtain rfl : row = entry.2 := Option.some.inj (found.symm.trans here)
    simp only [mine, if_true, same]
  · simp only [mine, if_false]

theorem resolveEscrow_iff {mediator winner : String} :
    (resolveEscrow db signer now id mediator winner).map Prod.snd = .ok after ↔
      Admitted row ⟨signer, now, .resolve id mediator winner⟩ ∧
        after = rewrite db id (changed ⟨signer, now, .resolve id mediator winner⟩) := by
  have same : rewrite db id (changed ⟨signer, now, .resolve id mediator winner⟩) = rewrite db id fun old =>
      { old with
        status := resolution row winner, escrowNote := some "resolved by mediator", updatedAt := now } :=
    rewrite_congr found rfl
  unfold resolveEscrow
  rw [map_eq_ok, same]
  simp only [bind_eq_ok, signerPubkey_ok, get_ok, found, Option.some.injEq, exists_eq_left', guard_eq_ok,
    resolvedStatus_ok found, pure_eq_ok]
  constructor
  · rintro ⟨_, ⟨_, ⟨key, unlocked, rfl⟩, party, wins, _, ⟨ready, rfl⟩, middle, first, last, second, rfl⟩, rfl⟩
    refine ⟨⟨key, unlocked, ?_, ?_, ready⟩, noted_eq found first second⟩
    · simpa [or_iff_not_imp_left] using party
    · simpa [or_iff_not_imp_left] using wins
  · rintro ⟨⟨key, unlocked, party, wins, ready⟩, rfl⟩
    obtain ⟨middle, first, second⟩ := bind_eq_ok.mp (noted_found found)
    refine ⟨_, ⟨_, ⟨key, unlocked, rfl⟩, ?_, ?_, _, ⟨ready, rfl⟩, middle, first, _, second, rfl⟩, rfl⟩
    · simpa [or_iff_not_imp_left] using party
    · simpa [or_iff_not_imp_left] using wins

end

end Calls

theorem perform_found {db after : Escrows} {act : Act} {id : String} {row : EscrowRow} (about : act.call.concerns id)
    (found : db.find? id = some row) :
    perform db act = .ok after ↔ Admitted row act ∧ after = rewrite db id (changed act) := by
  obtain ⟨signer, now, call⟩ := act
  cases call with
  | create => exact about.elim
  | confirmBuyer escrowId caller =>
    cases about
    exact confirm_iff found (update_found found now _)
  | confirmSeller escrowId caller =>
    cases about
    exact confirm_iff found (update_found found now _)
  | release escrowId seller =>
    cases about
    exact releaseEscrow_iff found
  | dispute escrowId disputer reason =>
    cases about
    exact disputeEscrow_iff found
  | resolve escrowId mediator winner =>
    cases about
    exact resolveEscrow_iff found

theorem perform_missing {db after : Escrows} {act : Act} {id : String} (about : act.call.concerns id)
    (missing : db.find? id = none) : perform db act ≠ .ok after := by
  intro done
  obtain ⟨signer, now, call⟩ := act
  cases call with
  | create => exact about
  | confirmBuyer escrowId caller =>
    cases about
    simp [perform, confirmBuyer, confirm, map_eq_ok, bind_eq_ok, get_ok, missing] at done
  | confirmSeller escrowId caller =>
    cases about
    simp [perform, confirmSeller, confirm, map_eq_ok, bind_eq_ok, get_ok, missing] at done
  | release escrowId seller =>
    cases about
    simp [perform, releaseEscrow, map_eq_ok, bind_eq_ok, guard_eq_ok, get_ok, missing] at done
  | dispute escrowId disputer reason =>
    cases about
    simp [perform, disputeEscrow, map_eq_ok, bind_eq_ok, get_ok, missing] at done
  | resolve escrowId mediator winner =>
    cases about
    simp [perform, resolveEscrow, map_eq_ok, bind_eq_ok, get_ok, missing] at done

theorem perform_create {db after : Escrows} {signer : Option Key} {now : Int} {order : Option OrderInfo}
    {buyer seller id : String} {amount : UInt64}
    (done : perform db ⟨signer, now, .create order buyer seller amount id⟩ = .ok after) :
    db.find? id = none ∧ ∃ row : EscrowRow, (row.status = .created ∧ row.buyerConfirmed = false ∧
      row.sellerConfirmed = false) ∧ after = db.upsert id row fun _ => row := by
  unfold perform createEscrow at done
  cases order with
  | none => simp [map_eq_ok] at done
  | some order =>
    simp only [map_eq_ok, guard_eq_ok, bind_eq_ok, pure_eq_ok, create] at done
    obtain ⟨_, ⟨-, -, -, -, _, ⟨fresh, written⟩, rfl⟩, rfl⟩ := done
    refine ⟨Table.find?_eq_none.mpr fresh, _, ⟨rfl, rfl, rfl⟩, (Except.ok.inj written).symm⟩

/-- What a call may do: nothing, open a row, or change the row it is about. -/
inductive Outcome (m : Market) (act : Act) : Market → Prop
  | refused (idle : ∀ id row, act.call.concerns id → m.escrows.find? id = some row → ¬ Admitted row act) :
      Outcome m act m
  | opened (id : String) (row : EscrowRow) (fresh : m.escrows.find? id = none)
      (blank : row.status = .created ∧ row.buyerConfirmed = false ∧ row.sellerConfirmed = false)
      (first : ∀ id, ¬ act.call.concerns id) : Outcome m act ⟨m.escrows.upsert id row fun _ => row, m.journal ++ [act]⟩
  | moved (id : String) (row : EscrowRow) (about : act.call.concerns id) (found : m.escrows.find? id = some row)
      (admitted : Admitted row act) : Outcome m act ⟨rewrite m.escrows id (changed act), m.journal ++ [act]⟩

variable {m : Market} {act : Act} {id : String} {row : EscrowRow}

theorem step_moved (about : act.call.concerns id)
    (found : m.escrows.find? id = some row) (admitted : Admitted row act) :
    step m act = ⟨rewrite m.escrows id (changed act), m.journal ++ [act]⟩ := by
  simp only [step, (perform_found about found).mpr ⟨admitted, rfl⟩]

theorem concerns_or_create (call : Call) :
    (∃ id, call.concerns id) ∨ ∃ order buyer seller amount id, call = .create order buyer seller amount id := by
  cases call with
  | create order buyer seller amount id => exact .inr ⟨order, buyer, seller, amount, id, rfl⟩
  | confirmBuyer id caller => exact .inl ⟨id, rfl⟩
  | confirmSeller id caller => exact .inl ⟨id, rfl⟩
  | release id seller => exact .inl ⟨id, rfl⟩
  | dispute id disputer reason => exact .inl ⟨id, rfl⟩
  | resolve id mediator winner => exact .inl ⟨id, rfl⟩

theorem concerns_unique {call : Call} {id other : String} (one : call.concerns id) (two : call.concerns other) :
    id = other := by
  cases call with
  | create => exact one.elim
  | confirmBuyer => exact one.symm.trans two
  | confirmSeller => exact one.symm.trans two
  | release => exact one.symm.trans two
  | dispute => exact one.symm.trans two
  | resolve => exact one.symm.trans two

theorem outcome (m : Market) (act : Act) : Outcome m act (step m act) := by
  unfold step
  cases done : perform m.escrows act with
  | error failure =>
    refine .refused fun id row about found admitted => ?_
    cases done.symm.trans ((perform_found about found).mpr ⟨admitted, rfl⟩)
  | ok escrows =>
    rcases concerns_or_create act.call with ⟨id, about⟩ | ⟨order, buyer, seller, amount, id, call⟩
    · cases found : m.escrows.find? id with
      | none => exact absurd done (perform_missing about found)
      | some row =>
        obtain ⟨admitted, rfl⟩ := (perform_found about found).mp done
        exact .moved id row about found admitted
    · obtain ⟨signer, now, _⟩ := act
      cases call
      obtain ⟨fresh, row, blank, rfl⟩ := perform_create done
      exact .opened id row fresh blank fun _ about => about

/-! ## Who acts on an escrow -/

theorem toHex_inj {first second : Key} (same : toHex first = toHex second) : first = second :=
  Vector.toList_inj.mp (hexEncode_inj same)

theorem normKey_toHex (key : Key) : normKey (toHex key) = toHex key := normKey_hexEncode _

theorem Is.eq {signer : Option Key} {pubkey : String} {key : Key} (named : Is signer pubkey)
    (spelled : normKey pubkey = toHex key) : signer = some key := by
  obtain ⟨own, rfl, same⟩ := named
  rw [toHex_inj (same.symm.trans spelled)]

theorem Identity.is {signer : Option Key} {pubkey caller : String} (own : Identity signer caller)
    (same : eqIgnoreAsciiCase pubkey caller = true) : Is signer pubkey := by
  obtain ⟨key, unlocked, spelled⟩ := own
  refine ⟨key, unlocked, ?_⟩
  rw [normKey_of_eqIgnoreAsciiCase same, ← spelled, normKey_toHex]

theorem is_of_toHex {pubkey : String} {key : Key} (same : eqIgnoreAsciiCase pubkey (toHex key) = true) :
    Is (some key) pubkey :=
  Identity.is ⟨key, rfl, rfl⟩ same

theorem eqIgnoreAsciiCase_comm (first second : String) :
    eqIgnoreAsciiCase first second = eqIgnoreAsciiCase second first := BEq.comm

theorem admitted_party (admitted : Admitted row act) :
    Is act.signer row.buyerPubkey ∨ Is act.signer row.sellerPubkey := by
  obtain ⟨signer, now, call⟩ := act
  cases call with
  | create => exact admitted.elim
  | confirmBuyer => exact .inl (admitted.2.is admitted.1)
  | confirmSeller => exact .inr (admitted.2.is admitted.1)
  | release =>
    obtain ⟨key, rfl, -, own, -⟩ := admitted
    exact .inr (is_of_toHex own)
  | dispute => exact admitted.1.imp admitted.2.is admitted.2.is
  | resolve =>
    obtain ⟨key, rfl, party, -⟩ := admitted
    rw [eqIgnoreAsciiCase_comm, eqIgnoreAsciiCase_comm (toHex key)] at party
    exact party.imp is_of_toHex is_of_toHex

@[simp] theorem changed_buyerPubkey (act : Act) (row : EscrowRow) :
    (changed act row).buyerPubkey = row.buyerPubkey := by
  unfold changed
  cases act.call <;> rfl

@[simp] theorem changed_sellerPubkey (act : Act) (row : EscrowRow) :
    (changed act row).sellerPubkey = row.sellerPubkey := by
  unfold changed
  cases act.call <;> rfl

/-- The journal and the flags of a row tell the same. -/
structure Recorded (m : Market) (id : String) (row : EscrowRow) : Prop where
  buyer : row.buyerConfirmed = true ↔ BuyerConfirmed m.journal id row
  seller : row.sellerConfirmed = true ↔ SellerConfirmed m.journal id row
  parties : ∀ act ∈ m.journal, act.call.concerns id → Is act.signer row.buyerPubkey ∨ Is act.signer row.sellerPubkey

structure Inv (m : Market) : Prop where
  recorded : ∀ id row, m.escrows.find? id = some row → Recorded m id row
  known : ∀ act ∈ m.journal, ∀ id, act.call.concerns id → m.escrows.find? id ≠ none

section

variable {act : Act} {id : String}

theorem buyerConfirmed_snoc {journal : List Act} :
    BuyerConfirmed (journal ++ [act]) id row ↔
      BuyerConfirmed journal id row ∨ (∃ caller, act.call = .confirmBuyer id caller) ∧ Is act.signer row.buyerPubkey := by
  simp only [BuyerConfirmed, List.mem_append, List.mem_singleton, or_and_right, exists_or, exists_eq_left]

theorem sellerConfirmed_snoc {journal : List Act} :
    SellerConfirmed (journal ++ [act]) id row ↔
      SellerConfirmed journal id row ∨ (∃ caller, act.call = .confirmSeller id caller) ∧ Is act.signer row.sellerPubkey := by
  simp only [SellerConfirmed, List.mem_append, List.mem_singleton, or_and_right, exists_or, exists_eq_left]

theorem concerns_confirmBuyer (named : ∃ caller, act.call = .confirmBuyer id caller) : act.call.concerns id := by
  obtain ⟨caller, call⟩ := named
  rw [call]
  rfl

theorem concerns_confirmSeller (named : ∃ caller, act.call = .confirmSeller id caller) : act.call.concerns id := by
  obtain ⟨caller, call⟩ := named
  rw [call]
  rfl

theorem Recorded.other {escrows : Escrows} (recorded : Recorded m id row)
    (elsewhere : ¬ act.call.concerns id) :
    Recorded ⟨escrows, m.journal ++ [act]⟩ id row where
  buyer := by
    rw [buyerConfirmed_snoc, recorded.buyer]
    exact ⟨.inl, fun told => told.resolve_right fun new => elsewhere (concerns_confirmBuyer new.1)⟩
  seller := by
    rw [sellerConfirmed_snoc, recorded.seller]
    exact ⟨.inl, fun told => told.resolve_right fun new => elsewhere (concerns_confirmSeller new.1)⟩
  parties := by
    intro earlier member about
    rcases List.mem_append.mp member with old | new
    · exact recorded.parties earlier old about
    · rw [List.mem_singleton.mp new] at about
      exact absurd about elsewhere

theorem changed_buyerConfirmed (about : act.call.concerns id) (admitted : Admitted row act) :
    (changed act row).buyerConfirmed = true ↔
      row.buyerConfirmed = true ∨ (∃ caller, act.call = .confirmBuyer id caller) ∧ Is act.signer row.buyerPubkey := by
  obtain ⟨signer, now, call⟩ := act
  cases call with
  | confirmBuyer escrowId caller =>
    cases about
    exact ⟨fun _ => .inr ⟨⟨caller, rfl⟩, admitted.2.is admitted.1⟩, fun _ => rfl⟩
  | _ => simp [changed]

theorem changed_sellerConfirmed (about : act.call.concerns id) (admitted : Admitted row act) :
    (changed act row).sellerConfirmed = true ↔
      row.sellerConfirmed = true ∨ (∃ caller, act.call = .confirmSeller id caller) ∧ Is act.signer row.sellerPubkey := by
  obtain ⟨signer, now, call⟩ := act
  cases call with
  | confirmSeller escrowId caller =>
    cases about
    exact ⟨fun _ => .inr ⟨⟨caller, rfl⟩, admitted.2.is admitted.1⟩, fun _ => rfl⟩
  | _ => simp [changed]

theorem Recorded.moved {escrows : Escrows} (recorded : Recorded m id row)
    (about : act.call.concerns id) (admitted : Admitted row act) :
    Recorded ⟨escrows, m.journal ++ [act]⟩ id (changed act row) where
  buyer := by
    rw [buyerConfirmed_snoc, changed_buyerConfirmed about admitted, recorded.buyer]
    simp only [BuyerConfirmed, changed_buyerPubkey]
  seller := by
    rw [sellerConfirmed_snoc, changed_sellerConfirmed about admitted, recorded.seller]
    simp only [SellerConfirmed, changed_sellerPubkey]
  parties := by
    intro earlier member concerned
    rw [changed_buyerPubkey, changed_sellerPubkey]
    rcases List.mem_append.mp member with old | new
    · exact recorded.parties earlier old concerned
    · rw [List.mem_singleton.mp new]
      exact admitted_party admitted

end

theorem find?_opened (db : Escrows) (id : String) (row : EscrowRow) (fresh : db.find? id = none) (other : String) :
    (db.upsert id row fun _ => row).find? other = if other = id then some row else db.find? other := by
  rw [Table.find?_upsert, fresh, Option.elim_none]

theorem inv_step (act : Act) (inv : Inv m) : Inv (step m act) := by
  have happens := outcome m act
  generalize step m act = after at happens ⊢
  cases happens with
  | refused => exact inv
  | opened id row fresh blank first =>
    constructor
    · intro other found stored
      dsimp only at stored
      rw [find?_opened _ _ _ fresh] at stored
      split at stored
      · rename_i same
        cases stored
        subst same
        -- No call has concerned an escrow that was not there.
        have unheard : ∀ act ∈ m.journal, ¬ act.call.concerns other :=
          fun act member about => inv.known act member other about fresh
        have blankRecord : Recorded m other row := by
          refine ⟨?_, ?_, fun act member about => absurd about (unheard act member)⟩
          · rw [blank.2.1]
            refine ⟨fun confirmed => absurd confirmed Bool.false_ne_true, ?_⟩
            rintro ⟨act, member, named, -⟩
            exact absurd (concerns_confirmBuyer named) (unheard act member)
          · rw [blank.2.2]
            refine ⟨fun confirmed => absurd confirmed Bool.false_ne_true, ?_⟩
            rintro ⟨act, member, named, -⟩
            exact absurd (concerns_confirmSeller named) (unheard act member)
        exact blankRecord.other (first other)
      · exact (inv.recorded other found stored).other (first other)
    · intro earlier member other about
      dsimp only
      rw [find?_opened _ _ _ fresh]
      split
      · exact Option.some_ne_none row
      · rcases List.mem_append.mp member with old | new
        · exact inv.known earlier old other about
        · rw [List.mem_singleton.mp new] at about
          exact absurd about (first other)
  | moved id row about found admitted =>
    constructor
    · intro other stored isStored
      dsimp only at isStored
      rw [find?_rewrite] at isStored
      by_cases same : other = id
      · subst same
        rw [found, Option.map_some, if_pos rfl] at isStored
        cases isStored
        exact (inv.recorded other row found).moved about admitted
      · simp only [same, if_false, Option.map_id'] at isStored
        exact (inv.recorded other stored isStored).other fun also => same (concerns_unique also about)
    · intro earlier member other concerned
      dsimp only
      rw [find?_rewrite, Ne, Option.map_eq_none_iff]
      rcases List.mem_append.mp member with old | new
      · exact inv.known earlier old other concerned
      · rw [List.mem_singleton.mp new] at concerned
        rw [concerns_unique concerned about, found]
        exact Option.some_ne_none row

/-! ## Careful calls -/

/-- A completion changes nothing, or ends an escrow between two that was not refunded. -/
def MayComplete (row : EscrowRow) : Prop :=
  row.status = .completed ∨ row.status ≠ .refunded ∧ normKey row.buyerPubkey ≠ normKey row.sellerPubkey

/-- A call that passes the checks does not dispute or complete what is finished, and resolves a dispute
for the seller only after both have confirmed, and for the buyer only after someone else has acted. -/
def Careful (m : Market) (act : Act) : Prop :=
  ∀ id row, act.call.concerns id → m.escrows.find? id = some row → Admitted row act →
    match act.call with
    | .create .. => True
    | .confirmBuyer .. => True
    | .confirmSeller .. => True
    | .release .. => MayComplete row
    | .dispute .. => ¬ Finished row.status
    | .resolve _ _ winner =>
      if row.status = .disputed then
        if eqIgnoreAsciiCase winner row.sellerPubkey then
          row.buyerConfirmed = true ∧ row.sellerConfirmed = true ∧ MayComplete row
        else ∃ earlier ∈ m.journal, earlier.call.concerns id ∧ earlier.signer ≠ act.signer
      else MayComplete row

/-- What is asked of the status that a call gives to the row it is about. -/
structure Sound (m : Market) (act : Act) (id : String) (row : EscrowRow) (status : Status) : Prop where
  final : Finished row.status → status = row.status
  agreed : row.status ≠ .completed → status = .completed →
    BuyerConfirmed m.journal id row ∧ SellerConfirmed m.journal id row ∨ ResolvedByOther act id row
  together : ¬ Finished row.status → Finished status → ∀ key, ¬ Alone (m.journal ++ [act]) id key

theorem statusOf_moved (found : m.escrows.find? id = some row) (act : Act)
    (journal : List Act) (other : String) :
    statusOf ⟨rewrite m.escrows id (changed act), journal⟩ other =
      if other = id then some (changed act row).status else statusOf m other := by
  unfold statusOf
  rw [find?_rewrite]
  by_cases same : other = id
  · simp [same, found]
  · simp [same]

theorem safe_moved (about : act.call.concerns id)
    (found : m.escrows.find? id = some row)
    (moves : step m act = ⟨rewrite m.escrows id (changed act), m.journal ++ [act]⟩) :
    Safe m act ↔ Sound m act id row (changed act row).status := by
  have before : statusOf m id = some row.status := by rw [statusOf, found, Option.map_some]
  have after := statusOf_moved found act (m.journal ++ [act])
  constructor
  · intro safe
    have final := safe.final id row.status before
    have agreed := safe.agreed id
    have together := safe.together id (changed act row).status
    rw [moves, after, if_pos rfl] at final agreed together
    refine ⟨fun finished => Option.some.inj (final finished), fun open_ completes => ?_, fun running ends key => ?_⟩
    · obtain ⟨stored, isStored, told⟩ := agreed (by simpa [before] using open_) (by rw [completes])
      obtain rfl : row = stored := Option.some.inj (found.symm.trans isStored)
      exact told
    · exact together (fun status same => by
        rw [before] at same
        exact Option.some.inj same ▸ running) rfl ends key
  · intro sound
    constructor
    · intro other status stored finished
      rw [moves, after]
      split
      · rename_i same
        rw [same, before] at stored
        cases stored
        rw [sound.final finished]
      · exact stored
    · intro other open_ completes
      rw [moves, after] at completes
      split at completes
      · rename_i same
        subst same
        exact ⟨row, found, sound.agreed (fun same => open_ (by rw [before, same])) (Option.some.inj completes)⟩
      · exact absurd completes open_
    · intro other status running ends finished key
      rw [moves, after] at ends
      rw [moves]
      split at ends
      · rename_i same
        subst same
        cases ends
        exact sound.together (running row.status before) finished key
      · exact absurd finished (running status ends)

theorem safe_of_statusOf_eq (same : ∀ id, statusOf (step m act) id = statusOf m id ∨
      statusOf m id = none ∧ statusOf (step m act) id = some .created) :
    Safe m act := by
  constructor
  · intro id status stored finished
    rcases same id with kept | ⟨missing, -⟩
    · rw [kept, stored]
    · rw [missing] at stored
      cases stored
  · intro id open_ completes
    rcases same id with kept | ⟨-, new⟩
    · exact absurd (kept ▸ completes) open_
    · rw [new] at completes
      cases completes
  · intro id status running ends finished
    rcases same id with kept | ⟨-, new⟩
    · exact absurd finished (running status (kept ▸ ends))
    · rw [new] at ends
      cases ends
      rcases finished with wrong | wrong <;> cases wrong

theorem not_alone_of_both {journal more : List Act}
    (buyer : BuyerConfirmed journal id row) (seller : SellerConfirmed journal id row)
    (two : normKey row.buyerPubkey ≠ normKey row.sellerPubkey) (key : Key) : ¬ Alone (journal ++ more) id key := by
  intro alone
  obtain ⟨first, member, named, key₁, own, spelled⟩ := buyer
  obtain ⟨second, member', named', key₂, own', spelled'⟩ := seller
  have one := alone first (List.mem_append_left _ member) (concerns_confirmBuyer named)
  have same := alone second (List.mem_append_left _ member') (concerns_confirmSeller named')
  rw [own] at one
  rw [own'] at same
  exact two (by rw [spelled, spelled', Option.some.inj one, Option.some.inj same])

theorem alone_of_same (recorded : Recorded m id row)
    (admitted : Admitted row act) (one : normKey row.buyerPubkey = normKey row.sellerPubkey) :
    ∃ key, Alone (m.journal ++ [act]) id key := by
  obtain ⟨key, spelled⟩ : ∃ key, normKey row.buyerPubkey = toHex key := by
    rcases admitted_party admitted with ⟨key, -, spelled⟩ | ⟨key, -, spelled⟩
    · exact ⟨key, spelled⟩
    · exact ⟨key, one.trans spelled⟩
  have party : ∀ signer, Is signer row.buyerPubkey ∨ Is signer row.sellerPubkey → signer = some key := by
    rintro signer (buyer | seller)
    · exact buyer.eq spelled
    · exact seller.eq (one.symm.trans spelled)
  refine ⟨key, fun earlier member about => party earlier.signer ?_⟩
  rcases List.mem_append.mp member with old | new
  · exact recorded.parties earlier old about
  · rw [List.mem_singleton.mp new]
    exact admitted_party admitted

theorem not_resolvedByOther (admitted : Admitted row act) :
    ¬ ResolvedByOther act id row := by
  rintro ⟨-, -, notBuyer, notSeller⟩
  exact (admitted_party admitted).elim notBuyer notSeller

theorem sound_unchanged : Sound m act id row row.status where
  final _ := rfl
  agreed open_ completes := absurd completes open_
  together running ends := absurd ends running

theorem sound_completed_iff (recorded : Recorded m id row) (admitted : Admitted row act) :
    Sound m act id row .completed ↔
      row.status = .completed ∨ row.buyerConfirmed = true ∧ row.sellerConfirmed = true ∧ MayComplete row := by
  by_cases done : row.status = .completed
  · rw [← done]
    exact ⟨fun _ => .inl rfl, fun _ => sound_unchanged⟩
  · constructor
    · intro sound
      right
      obtain ⟨buyer, seller⟩ := (sound.agreed done rfl).resolve_right (not_resolvedByOther admitted)
      have kept : row.status ≠ .refunded := fun refunded => by
        have same := sound.final (.inr refunded)
        exact done same.symm
      refine ⟨recorded.buyer.mpr buyer, recorded.seller.mpr seller, .inr ⟨kept, fun one => ?_⟩⟩
      obtain ⟨key, alone⟩ := alone_of_same recorded admitted one
      exact sound.together (fun finished => finished.elim done kept) (.inl rfl) key alone
    · intro told
      obtain ⟨buyer, seller, ready⟩ := told.resolve_left done
      obtain ⟨kept, two⟩ := ready.resolve_left done
      have both := And.intro (recorded.buyer.mp buyer) (recorded.seller.mp seller)
      exact ⟨fun finished => (finished.elim done kept).elim, fun _ _ => .inl both,
        fun _ _ key => not_alone_of_both both.1 both.2 two key⟩

theorem finished_disputed (disputed : row.status = .disputed) : ¬ Finished row.status := by
  rw [disputed]
  rintro (wrong | wrong) <;> cases wrong

theorem sound_refunded_iff (about : act.call.concerns id)
    (admitted : Admitted row act) (disputed : row.status = .disputed) :
    Sound m act id row .refunded ↔ ∃ earlier ∈ m.journal, earlier.call.concerns id ∧ earlier.signer ≠ act.signer := by
  obtain ⟨key, unlocked⟩ : ∃ key, act.signer = some key := by
    rcases admitted_party admitted with ⟨key, unlocked, -⟩ | ⟨key, unlocked, -⟩ <;> exact ⟨key, unlocked⟩
  constructor
  · intro sound
    by_contra none
    refine sound.together (finished_disputed disputed) (.inr rfl) key fun earlier member concerned => ?_
    rcases List.mem_append.mp member with old | new
    · by_contra other
      exact none ⟨earlier, old, concerned, unlocked ▸ other⟩
    · rw [List.mem_singleton.mp new, unlocked]
  · rintro ⟨earlier, member, concerned, other⟩
    refine ⟨fun finished => absurd finished (finished_disputed disputed), fun _ wrong => (nomatch wrong), ?_⟩
    intro _ _ one alone
    have mine := alone act (List.mem_append_right _ (List.mem_singleton_self act)) about
    exact other ((alone earlier (List.mem_append_left _ member) concerned).trans mine.symm)

theorem sound_disputed_iff : Sound m act id row .disputed ↔ ¬ Finished row.status := by
  have open_ : ¬ Finished .disputed := by rintro (wrong | wrong) <;> cases wrong
  constructor
  · intro sound finished
    exact open_ (sound.final finished ▸ finished)
  · intro running
    exact ⟨fun finished => absurd finished running, fun _ wrong => (nomatch wrong), fun _ ends => absurd ends open_⟩

theorem sound_iff_careful (recorded : Recorded m id row)
    (about : act.call.concerns id) (found : m.escrows.find? id = some row) (admitted : Admitted row act) :
    Sound m act id row (changed act row).status ↔ Careful m act := by
  have careful : Careful m act ↔ _ :=
    ⟨fun all => all id row about found admitted, fun here other stored also isStored _ => by
    obtain rfl := concerns_unique about also
    obtain rfl : row = stored := Option.some.inj (found.symm.trans isStored)
    exact here⟩
  rw [careful]
  obtain ⟨signer, now, call⟩ := act
  cases call with
  | create => exact about.elim
  | confirmBuyer => exact ⟨fun _ => trivial, fun _ => sound_unchanged⟩
  | confirmSeller => exact ⟨fun _ => trivial, fun _ => sound_unchanged⟩
  | dispute => exact sound_disputed_iff
  | release =>
    refine (sound_completed_iff recorded admitted).trans ?_
    obtain ⟨-, -, -, -, -, buyer, seller⟩ := admitted
    exact ⟨fun told => told.elim .inl fun both => both.2.2, fun ready => .inr ⟨buyer, seller, ready⟩⟩
  | resolve escrowId mediator winner =>
    dsimp only [changed, resolution]
    by_cases disputed : row.status = .disputed
    · rw [if_pos disputed, if_pos disputed]
      by_cases sellers : eqIgnoreAsciiCase winner row.sellerPubkey = true
      · rw [if_pos sellers, if_pos sellers]
        refine (sound_completed_iff recorded admitted).trans ⟨fun told => told.resolve_left ?_, .inr⟩
        rw [disputed]
        exact nofun
      · rw [if_neg sellers, if_neg sellers]
        exact sound_refunded_iff about admitted disputed
    · rw [if_neg disputed, if_neg disputed]
      refine (sound_completed_iff recorded admitted).trans ?_
      obtain ⟨-, -, -, -, ready⟩ := admitted
      obtain ⟨buyer, seller⟩ := ready.resolve_left disputed
      exact ⟨fun told => told.elim .inl fun both => both.2.2, fun ready => .inr ⟨buyer, seller, ready⟩⟩

theorem safe_iff_careful (act : Act) (inv : Inv m) : Safe m act ↔ Careful m act := by
  have happens := outcome m act
  generalize moves : step m act = after at happens
  cases happens with
  | refused idle =>
    refine ⟨fun _ id row about found admitted => absurd admitted (idle id row about found), fun _ => ?_⟩
    exact safe_of_statusOf_eq fun id => .inl (by rw [moves])
  | opened id row fresh blank first =>
    refine ⟨fun _ other stored about => absurd about (first other), fun _ => safe_of_statusOf_eq fun other => ?_⟩
    rw [moves, statusOf, statusOf, find?_opened _ _ _ fresh]
    by_cases same : other = id
    · simp [same, fresh, blank.1]
    · simp [same]
  | moved id row about found admitted =>
    rw [safe_moved about found moves]
    exact sound_iff_careful (inv.recorded id row found) about found admitted

theorem inv_start : Inv .start := ⟨fun _ _ found => (nomatch found), fun _ member => (nomatch member)⟩

/-- In every run each call is safe exactly when each call is careful. -/
theorem escrow_safe_iff (acts : List Act) : Throughout step Safe .start acts ↔ Throughout step Careful .start acts := by
  constructor
  · exact Runs.Throughout.strengthen (fun _ act inv => inv_step act inv) (fun _ act inv => (safe_iff_careful act inv).mp)
      inv_start
  · exact Runs.Throughout.strengthen (fun _ act inv => inv_step act inv) (fun _ act inv => (safe_iff_careful act inv).mpr)
      inv_start

section OwnFavour

def buyerKey : Key := Vector.replicate 32 2

def sellerKey : Key := Vector.replicate 32 3

def opening : Act :=
  ⟨some buyerKey, 1700000000, .create (some ⟨"listing", toHex buyerKey, toHex sellerKey⟩) (toHex buyerKey) (toHex sellerKey)
    5000 "escrow"⟩

def sellerDisputes : Act := ⟨some sellerKey, 1700000100, .dispute "escrow" (toHex sellerKey) "late"⟩

def sellerResolves : Act := ⟨some sellerKey, 1700000200, .resolve "escrow" "mediator" (toHex sellerKey)⟩

def openedRow : EscrowRow where
  listingId := "listing"
  buyerPubkey := toHex buyerKey
  sellerPubkey := toHex sellerKey
  amountMsats := 5000
  currency := "sats"
  status := .created
  escrowNote := none
  buyerConfirmed := false
  sellerConfirmed := false
  createdAt := 1700000000
  updatedAt := 1700000000

theorem eqIgnoreAsciiCase_self (s : String) : eqIgnoreAsciiCase s s = true := beq_self_eq_true _

theorem step_opening : step .start opening = ⟨Table.empty.upsert "escrow" openedRow fun _ => openedRow, [opening]⟩ := by
  have done : perform .empty opening = .ok (Table.empty.upsert "escrow" openedRow fun _ => openedRow) := by
    simp [perform, opening, createEscrow, eqIgnoreAsciiCase_self, requireIdentity, Except.isOk, Except.toBool, create,
      normKey_toHex, Table.keys, Table.empty, bind, Except.bind, pure, Except.pure, Except.map, openedRow]
  simp only [step, Market.start, done, List.nil_append]

theorem admitted_dispute : Admitted openedRow sellerDisputes :=
  ⟨.inr (eqIgnoreAsciiCase_self _), sellerKey, rfl, rfl⟩

theorem admitted_resolve : Admitted (changed sellerDisputes openedRow) sellerResolves :=
  ⟨sellerKey, rfl, .inr (eqIgnoreAsciiCase_self _), .inr (eqIgnoreAsciiCase_self _), .inl rfl⟩

/-- The seller disputes the escrow and resolves the dispute in their own favour. -/
theorem seller_alone_completes : ¬ Throughout step Safe .start [opening, sellerDisputes, sellerResolves] := by
  rintro ⟨-, -, safe, -⟩
  have stored : (step .start opening).escrows.find? "escrow" = some openedRow := by
    rw [step_opening]
    exact Table.find?_upsert_self _ _ _ _
  have aboutDispute : sellerDisputes.call.concerns "escrow" := rfl
  have aboutResolve : sellerResolves.call.concerns "escrow" := rfl
  have disputes := step_moved aboutDispute stored admitted_dispute
  have disputed : (step (step .start opening) sellerDisputes).escrows.find? "escrow" =
      some (changed sellerDisputes openedRow) := by
    rw [disputes, find?_rewrite, stored, Option.map_some, if_pos rfl]
  have sound := (safe_moved aboutResolve disputed (step_moved aboutResolve disputed admitted_resolve)).mp safe
  have completes : (changed sellerResolves (changed sellerDisputes openedRow)).status = .completed := by
    have wins : eqIgnoreAsciiCase (toHex sellerKey) (changed sellerDisputes openedRow).sellerPubkey = true :=
      eqIgnoreAsciiCase_self _
    show resolution (changed sellerDisputes openedRow) (toHex sellerKey) = .completed
    rw [resolution, if_pos (show (changed sellerDisputes openedRow).status = .disputed from rfl), if_pos wins]
  rw [completes] at sound
  refine sound.together (finished_disputed rfl) (.inl rfl) sellerKey fun act member about => ?_
  rw [disputes, step_opening] at member
  simp only [List.mem_append, List.mem_singleton] at member
  rcases member with (rfl | rfl) | rfl
  · exact about.elim
  · rfl
  · rfl

end OwnFavour

end Soshal.Bridge.Escrow
