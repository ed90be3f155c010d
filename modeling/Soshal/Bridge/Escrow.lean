import Soshal.Library.Runs
import Soshal.Library.Table
import Soshal.Library.Text

/-! Marketplace escrows: one row for each, five entry points that write its status.

Every entry point binds its caller to the unlocked signer in its own way, and then
decides by the row alone. The rows are written one at a time; a call that fails
writes nothing.
-/

set_option autoImplicit false

namespace Soshal.Bridge.Escrow

open Library
open Library.Text (normKey eqIgnoreAsciiCase hexEncode toAsciiLowercase)

inductive Status where
  | created
  | disputed
  | completed
  | refunded
  deriving DecidableEq

structure EscrowRow where
  listingId : String
  buyerPubkey : String
  sellerPubkey : String
  amountMsats : Nat
  currency : String
  status : Status
  escrowNote : Option String
  buyerConfirmed : Bool
  sellerConfirmed : Bool
  createdAt : Int
  updatedAt : Int
  deriving DecidableEq

/-- The rows of the `escrows` table by their `id`. -/
abbrev Escrows := Table String EscrowRow

inductive DbError where
  | notFound
  | oversized (message : String)
  | migration (message : String)
  | uniqueViolation
  deriving DecidableEq

inductive Failure where
  | message (text : String)
  | db (error : DbError)
  deriving DecidableEq

variable (db : Escrows) (id : String) (confirmed : Bool) (now : Int)

def create (e : EscrowRow) : Except Failure Escrows :=
  if id ∈ db.keys then .error (.db .uniqueViolation)
  else
    let row := { e with
      buyerPubkey := normKey e.buyerPubkey
      sellerPubkey := normKey e.sellerPubkey
      buyerConfirmed := false
      sellerConfirmed := false }
    .ok (db.upsert id row fun _ => row)

def get : Except Failure EscrowRow :=
  (db.find? id).elim (.error (.db .notFound)) .ok

def update (now : Int) (change : EscrowRow → EscrowRow) : Except Failure Escrows :=
  if id ∈ db.keys then
    .ok (db.modify fun key row => if key = id then { change row with updatedAt := now } else row)
  else .error (.db .notFound)

def updateStatus (status : Status) (now : Int) : Except Failure Escrows :=
  update db id now fun row => { row with status }

def setNote (note : String) (now : Int) : Except Failure Escrows :=
  update db id now fun row => { row with escrowNote := some note }

def getConfirms : Except Failure (Bool × Bool) :=
  (get db id).map fun row => (row.buyerConfirmed, row.sellerConfirmed)

def setBuyerConfirmed : Except Failure Escrows :=
  update db id now fun row => { row with buyerConfirmed := confirmed }

def setSellerConfirmed : Except Failure Escrows :=
  update db id now fun row => { row with sellerConfirmed := confirmed }

abbrev Key := Vector UInt8 32

def toHex (key : Key) : String := hexEncode key.toList

def signerPubkey (signer : Option Key) : Except Failure String :=
  signer.elim (.error (.message "signer locked")) fun key => .ok (toHex key)

def requireIdentity (signer : Option Key) (expected : String) : Except String Unit :=
  match signer with
  | none => .error "signer locked"
  | some key =>
    if normKey (toHex key) ≠ normKey expected then .error "identity mismatch: caller is not the claimed pubkey"
    else .ok ()

def canRelease (buyerConfirmed sellerConfirmed arbitratorApproved disputeActive : Bool) : Bool :=
  if disputeActive then arbitratorApproved else buyerConfirmed && sellerConfirmed

/-- At most `maxLen` characters, the last of them an ellipsis when some were left out. -/
def truncate (s : String) (maxLen : Nat) : String :=
  if maxLen = 0 then ""
  else if s.toList.length ≤ maxLen then s
  else String.ofList (s.toList.take (maxLen - 1) ++ ['…'])

structure OrderInfo where
  listingId : String
  buyerPubkey : String
  sellerPubkey : String
  deriving DecidableEq

/-- `order` is the order that the posts hold under the given id, and `escrowId` the random id that is drawn. -/
def createEscrow (signer : Option Key) (now : Int) (order : Option OrderInfo)
    (buyerPubkey sellerPubkey : String) (amount : UInt64) (escrowId : String) : Except Failure (String × Escrows) :=
  match order with
  | none => .error (.message "Order not found")
  | some order =>
    if !eqIgnoreAsciiCase order.buyerPubkey buyerPubkey || !eqIgnoreAsciiCase order.sellerPubkey sellerPubkey then
      .error (.message "order parties do not match escrow parties")
    else if !(requireIdentity signer buyerPubkey).isOk && !(requireIdentity signer sellerPubkey).isOk then
      .error (.message "identity mismatch: caller is not buyer or seller")
    else if amount = 0 then .error (.message "escrow amount must be positive")
    else if amount.toNat ≥ 2 ^ 63 then .error (.message "amount too large")
    else do
      let db ← create db escrowId {
        listingId := order.listingId
        buyerPubkey := normKey buyerPubkey
        sellerPubkey := normKey sellerPubkey
        amountMsats := amount.toNat
        currency := "sats"
        status := .created
        escrowNote := none
        buyerConfirmed := false
        sellerConfirmed := false
        createdAt := now
        updatedAt := now }
      return (escrowId, db)

def releaseEscrow (signer : Option Key) (now : Int) (escrowId sellerPubkey : String) :
    Except Failure (Bool × Escrows) := do
  let caller ← signerPubkey signer
  if !eqIgnoreAsciiCase caller sellerPubkey then
    .error (.message "release must be initiated by the seller identity")
  else
    let escrow ← get db escrowId
    if !eqIgnoreAsciiCase escrow.sellerPubkey caller then .error (.db .notFound)
    else
      let (buyerConfirmed, sellerConfirmed) ← getConfirms db escrowId
      let disputed := escrow.status == .disputed
      let arbitratorApproved := false
      if !canRelease buyerConfirmed sellerConfirmed arbitratorApproved disputed then
        .error (.db (.oversized
          "release requires both-party confirmation; disputed escrows need arbitrator resolution"))
      else
        let db ← updateStatus db escrowId .completed now
        return (true, db)

/-- The two confirmations: which party must call, what is said otherwise, and which flag is set. -/
def confirm (party : EscrowRow → String) (refusal : String)
    (set : Escrows → String → Bool → Int → Except Failure Escrows) (db : Escrows) (signer : Option Key) (now : Int)
    (escrowId caller : String) : Except Failure (Bool × Escrows) := do
  let escrow ← get db escrowId
  if !eqIgnoreAsciiCase (party escrow) caller then .error (.db (.oversized refusal))
  else
    let _ ← (requireIdentity signer caller).mapError fun text => Failure.db (.migration text)
    let db ← set db escrowId true now
    return (true, db)

def confirmBuyer : Escrows → Option Key → Int → String → String → Except Failure (Bool × Escrows) :=
  confirm EscrowRow.buyerPubkey "confirmation must be initiated by the buyer identity" setBuyerConfirmed

def confirmSeller : Escrows → Option Key → Int → String → String → Except Failure (Bool × Escrows) :=
  confirm EscrowRow.sellerPubkey "confirmation must be initiated by the seller identity" setSellerConfirmed

def disputeEscrow (signer : Option Key) (now : Int) (escrowId disputerPubkey reason : String) :
    Except Failure (Bool × Escrows) := do
  let reason := truncate reason 512
  let escrow ← get db escrowId
  if !eqIgnoreAsciiCase escrow.buyerPubkey disputerPubkey && !eqIgnoreAsciiCase escrow.sellerPubkey disputerPubkey then
    .error (.db .notFound)
  else
    let _ ← (requireIdentity signer disputerPubkey).mapError fun text => Failure.db (.migration text)
    -- whatever the status was
    let db ← updateStatus db escrowId .disputed now
    let db ← setNote db escrowId reason now
    return (true, db)

/-- The status that a resolution writes: the winner's in a dispute, and the release of both otherwise. -/
def resolvedStatus (escrowId winnerPubkey : String) (escrow : EscrowRow) : Except Failure Status :=
  if escrow.status = .disputed then
    .ok (if eqIgnoreAsciiCase winnerPubkey escrow.sellerPubkey then .completed else .refunded)
  else do
    let (buyerOk, sellerOk) ← getConfirms db escrowId
    if !buyerOk || !sellerOk then .error (.db (.oversized "resolve requires both-party confirmation"))
    else return .completed

/-- The key of the mediator is dropped; the caller is a party. -/
def resolveEscrow (signer : Option Key) (now : Int) (escrowId _mediatorPubkey winnerPubkey : String) :
    Except Failure (Bool × Escrows) := do
  let caller ← signerPubkey signer
  let escrow ← get db escrowId
  if !eqIgnoreAsciiCase caller escrow.buyerPubkey && !eqIgnoreAsciiCase caller escrow.sellerPubkey then
    .error (.db .notFound)
  else if !eqIgnoreAsciiCase winnerPubkey escrow.buyerPubkey && !eqIgnoreAsciiCase winnerPubkey escrow.sellerPubkey then
    .error (.db (.oversized "winner must be an escrow party"))
  else
    let status ← resolvedStatus db escrowId winnerPubkey escrow
    let db ← updateStatus db escrowId status now
    let db ← setNote db escrowId "resolved by mediator" now
    return (true, db)

end Soshal.Bridge.Escrow
