import Soshal.Library.Processes
import Soshal.Library.Text

/-! Zaps over Nostr Wallet Connect: one pending invoice, one wallet connection, any number of calls.

An invoice is fetched and paid by two calls that each wait once for the wallet. The
invoice that may be paid next stands in a global cell; it is read before a payment
waits and cleared after, and a fetch fills it after its own wait, whatever the
connection is by then.
-/

set_option autoImplicit false

namespace Soshal.Bridge.Zap

open Library
open Library.Processes (System Move Meets Holds)
open Library.Runs (Always Throughout run)
open Library.Text (byteLen startsWith stripPrefix trim toAsciiLowercase isAsciiHexdigit)

/-! ## Invoices, addresses and wallet URIs -/

def multM : Nat := 100000000
def multU : Nat := 100000
def multN : Nat := 100
def multDefault : Nat := 100000000000
def maxParseBolt11Msats : Nat := 1000000000000
def nwcMaxPaySats : Nat := 1000000
def maxZapMsat : Nat := 100000000000

structure Url where
  scheme : String
  host : Option String
  queryPairs : List (String × String)

/-- Code outside the repository: bech32, and the URL parser with the two URL checks that rest on it. -/
structure Outside where
  bech32Decodes : String → Bool
  parseUrl : String → Except String Url
  isValidMediaUrl : String → Bool
  isValidRelayUrl : String → Bool

def leadingAmount : Nat → Nat → List Char → Except String (Nat × Nat)
  | amount, digitLen, [] => .ok (amount, digitLen)
  | amount, digitLen, b :: rest =>
    if b.isDigit then
      let amount := amount * 10 + (b.toNat - 48)
      if amount ≥ 2 ^ 128 then .error "BOLT-11 amount overflow"
      else if digitLen + 1 > 18 then .error "BOLT-11 amount exceeds range"
      else leadingAmount amount (digitLen + 1) rest
    else .ok (amount, digitLen)

def scaledMsats (amount : Nat) : Option Char → Except String Nat
  | some 'p' => if amount % 10 ≠ 0 then .error "BOLT-11 pico amount below msat resolution" else .ok (amount / 10)
  | some 'n' => .ok (amount * multN)
  | some 'u' => .ok (amount * multU)
  | some 'm' => .ok (amount * multM)
  | some '1' => .ok (amount * multDefault)
  | none => .ok (amount * multDefault)
  | some _ => .error "invalid BOLT-11 multiplier"

def parseMsatsFromBolt11 (bolt11 : String) : Except String UInt64 :=
  if byteLen bolt11 > 4096 ∨ bolt11.isEmpty then .ok 0
  else
    let lower := toAsciiLowercase bolt11
    match (stripPrefix lower "lnbcrt").or ((stripPrefix lower "lnbc").or ((stripPrefix lower "lntb").or
      (stripPrefix lower "lnsb"))) with
    | none => .ok 0
    | some rest => do
      let (amount, digitLen) ← leadingAmount 0 0 rest.toList
      if digitLen = 0 then .ok 0
      else
        let msats ← scaledMsats amount rest.toList[digitLen]?
        if msats ≥ 2 ^ 64 then .error "BOLT-11 amount exceeds u64 msat range"
        else if msats > maxParseBolt11Msats then
          .error ("BOLT-11 amount exceeds zap cap (" ++ toString maxParseBolt11Msats ++ " msat)")
        else .ok (UInt64.ofNat msats)

def validatePayInvoice (invoice : String) : Except String Unit :=
  if invoice.isEmpty ∨ byteLen invoice > 4096 then .error "invalid bolt11 invoice"
  else
    match parseMsatsFromBolt11 invoice with
    | .error _ => .error "invalid bolt11 invoice"
    | .ok msats =>
      if msats = 0 then .error "invalid bolt11 invoice: missing or zero amount"
      else if msats.toNat > nwcMaxPaySats * 1000 then
        .error ("payment exceeds " ++ toString nwcMaxPaySats ++ "-sat NWC cap")
      else .ok ()

def makeInvoiceRequest (amountSats : Nat) (description : String) : Except String Unit :=
  if amountSats = 0 ∨ amountSats > 21000000000 then .error "amount out of range"
  else if byteLen description > 2048 then .error "description too long (max 2048 chars)"
  else .ok ()

def rsplitOnce (s : String) (separator : Char) : Option (String × String) :=
  match s.toList.reverse.span (· ≠ separator) with
  | (_, []) => none
  | (after, _ :: before) => some (String.ofList before.reverse, String.ofList after.reverse)

def dotted (s : String) : Bool :=
  s.toList.head? == some '.' || s.toList.getLast? == some '.' || (s.toList.zip s.toList.tail).contains ('.', '.')

def validateLud16Parts (lud16 : String) : Except String (String × String) :=
  match rsplitOnce lud16 '@' with
  | none => .error "invalid lud16"
  | some (user, domain) =>
    if user.isEmpty ∨ domain.isEmpty then .error "invalid lud16"
    else if !user.toList.all fun b => b.isAlphanum || b == '-' || b == '_' || b == '.' then
      .error "invalid lud16: user part contains disallowed characters"
    else if byteLen user > 64 then .error "invalid lud16: user part too long"
    else if dotted user then
      .error "invalid lud16: user part cannot start or end with '.' or contain consecutive dots"
    else if !domain.toList.all fun b => b.isAlphanum || b == '-' || b == '.' || b == ':' then
      .error "invalid lud16: domain contains disallowed characters"
    else if byteLen domain > 255 ∨ dotted domain then .error "invalid lud16: domain invalid"
    else .ok (user, domain)

section Parse

variable (outside : Outside)

def bolt11ChecksumValid (bolt11 : String) : Bool :=
  !(bolt11.isEmpty || decide (byteLen bolt11 > 4096)) && outside.bech32Decodes (toAsciiLowercase bolt11)

def parseLud16UrlSecure (lud16 : String) : Except String (String × String × String) := do
  let (user, domain) ← validateLud16Parts lud16
  let url := "https://" ++ domain ++ "/.well-known/lnurlp/" ++ user
  if !outside.isValidMediaUrl url then .error "invalid lud16: unsafe destination domain or URL"
  else .ok (user, domain, url)

structure NwcConnectionInfo where
  walletPubkey : String
  relayUrl : String
  lud16 : Option String

/-- What the query of a wallet URI has said so far: the relay, the secret and the address. -/
def readNwcParam (read : String × String × Option String) (pair : String × String) :
    Except String (String × String × Option String) :=
  let (relayUrl, secretHex, lud16) := read
  if pair.1 = "relay" then
    if byteLen pair.2 > 512 then .error "NWC relay too long"
    else if !startsWith pair.2 "wss://" then .error "NWC relay must be wss://"
    else if !outside.isValidRelayUrl pair.2 then .error "invalid NWC relay"
    else .ok (pair.2, secretHex, lud16)
  else if pair.1 = "secret" then .ok (relayUrl, pair.2, lud16)
  else if pair.1 = "lud16" ∧ ¬ pair.2.isEmpty then do
    let _ ← validateLud16Parts pair.2
    .ok (relayUrl, secretHex, some pair.2)
  else .ok read

def parseNwcUri (uri : String) : Except String NwcConnectionInfo :=
  if uri.isEmpty ∨ byteLen uri > 4096 then .error "NWC URI too long"
  else do
    let parsed ← (outside.parseUrl uri).mapError fun e => "invalid URI: " ++ e
    if parsed.scheme ≠ "nostr+walletconnect" then .error "invalid scheme"
    else
      match parsed.host with
      | none => .error "missing pubkey"
      | some walletPubkey =>
        if byteLen walletPubkey ≠ 64 ∨ !walletPubkey.toList.all isAsciiHexdigit then
          .error "invalid pubkey in NWC URI"
        else do
          let (relayUrl, secretHex, lud16) ← parsed.queryPairs.foldlM (readNwcParam outside) ("", "", none)
          if relayUrl.isEmpty then .error "missing relay in NWC URI"
          else if byteLen secretHex < 32 ∨ byteLen secretHex > 128 ∨ !secretHex.toList.all isAsciiHexdigit then
            .error "invalid secret in NWC URI"
          else .ok ⟨walletPubkey, relayUrl, lud16⟩

end Parse

/-! ## The calls -/

/-- A fetch that succeeded: what it bound, and the connection over which its request went out. -/
structure Issue where
  invoice : String
  amountMsat : UInt64
  uri : String
  epoch : Nat

/-- The global cells, how often the connection has changed, and the fetches that have succeeded. -/
structure Globals where
  nwc : Option NwcConnectionInfo
  nwcUri : Option String
  pendingPayment : Option (String × UInt64)
  epoch : Nat
  issued : List Issue

/-- A call of `pay_invoice`: for the invoice of which fetch it is, and what it is called with. -/
structure Payment where
  issue : Nat
  invoice : String
  msats : UInt64
  uri : String
  epoch : Nat

inductive Call where
  | fetchInvoice (lnurl : String) (amountMsat : UInt64) (comment nostrEvent : String)
  | sendPayment (bolt11 : String)
  | connectNwc (nwcUri : String)
  | disconnectNwc

inductive Reply where
  | flag (b : Bool)
  | text (s : String)

/-- Where a call stands. A call waits at most once. -/
inductive Task where
  | calling (call : Call)
  | awaitingInvoice (amountMsat : UInt64) (uri : String) (epoch : Nat)
  | paying (payment : Payment)
  | unpaid (payment : Payment) (e : String)
  | paid (payment : Payment) (response : String) (cleared : Option Nat)
  | returned (result : Except String Reply)

/-- A response of the wallet as text, and the invoice in its result if there is one. -/
structure Response where
  text : String
  invoice : Option String

/-- What the rest of the system answers: the signer, the wallet to an invoice request, and the wallet to a payment. -/
structure Answer where
  signer : Except String Unit
  response : Except String Response
  payment : Except String String

namespace Globals

def clearPendingPayment (g : Globals) : Globals := { g with pendingPayment := none }

/-- The fetch whose invoice is pending is the last one that succeeded. -/
def lastIssue (g : Globals) : Nat := g.issued.length - 1

variable (outside : Outside) (g : Globals)

def zapConnectNwc (nwcUri : String) : Globals × Task :=
  if byteLen nwcUri > 4096 then (g, .returned (.error "NWC URI too long"))
  else
    match parseNwcUri outside nwcUri with
    | .error e => (g, .returned (.error ("invalid NWC URI: " ++ e)))
    | .ok info =>
      ({ g with pendingPayment := none, nwc := some info, nwcUri := some nwcUri, epoch := g.epoch + 1 },
        .returned (.ok (.flag true)))

def zapDisconnectNwc : Globals × Task :=
  ({ g with nwc := none, nwcUri := none, pendingPayment := none, epoch := g.epoch + 1 }, .returned (.ok (.flag true)))

def zapFetchInvoice (lnurl : String) (amountMsat : UInt64) (comment nostrEvent : String) (signer : Except String Unit) :
    Globals × Task :=
  let refused (e : String) : Globals × Task := (g, .returned (.error e))
  if lnurl.isEmpty ∨ byteLen lnurl > 2048 then refused "invalid lnurl length: max 2048 chars"
  else if byteLen comment > 1000 then refused "comment exceeds 1000 chars"
  else if byteLen nostrEvent > 64 * 1024 then refused "nostr_event exceeds 64KB"
  else
    match parseLud16UrlSecure outside lnurl with
    | .error e => refused ("LNURL parse failed: " ++ e)
    | .ok _ =>
      if amountMsat = 0 then refused "amount must be positive"
      else if amountMsat.toNat < 1000 ∨ amountMsat.toNat % 1000 ≠ 0 then
        refused "amount_msat must be a positive integer multiple of 1000 (whole satoshis)"
      else if amountMsat.toNat > maxZapMsat then
        refused ("amount_msat " ++ toString amountMsat.toNat ++ " exceeds maximum (" ++ toString maxZapMsat ++
          " msat = 1 BTC)")
      else
        match g.nwcUri, signer with
        | none, _ => refused "NWC not connected"
        | some _, .error e => refused e
        | some uri, .ok () =>
          match makeInvoiceRequest (amountMsat.toNat / 1000) (if (trim comment).isEmpty then "zap" else comment) with
          | .error e => refused ("invoice request: " ++ e)
          | .ok () => (g, .awaitingInvoice amountMsat uri g.epoch)

def bindable (response : Except String Response) : Except String (String × String) :=
  match response with
  | .error e => .error e
  | .ok resp =>
    match resp.invoice with
    | none => .error "NWC response missing valid bolt11 invoice"
    | some invoice =>
      if (parseMsatsFromBolt11 invoice).isOk && bolt11ChecksumValid outside invoice then .ok (invoice, resp.text)
      else .error "NWC response missing valid bolt11 invoice"

def bindInvoice (amountMsat : UInt64) (uri : String) (epoch : Nat) (response : Except String Response) :
    Globals × Task :=
  match bindable outside response with
  | .error e => (g, .returned (.error e))
  | .ok (invoice, text) =>
    ({ g with
      pendingPayment := some (invoice, amountMsat)
      issued := g.issued ++ [⟨invoice, amountMsat, uri, epoch⟩] }, .returned (.ok (.text text)))

def zapSendPayment (bolt11 : String) (signer : Except String Unit) : Globals × Task :=
  match g.pendingPayment, signer with
  | none, _ => (g, .returned (.error "no invoice pending: fetch one via zap_fetch_invoice first"))
  | some _, .error e => (g, .returned (.error e))
  | some expected, .ok () =>
    if expected.1 ≠ bolt11 then
      (g.clearPendingPayment, .returned (.error "invoice mismatch: bolt11 does not match the fetched invoice"))
    else
      match parseMsatsFromBolt11 bolt11 with
      | .error e => (g, .returned (.error ("invalid bolt11 invoice: " ++ e)))
      | .ok msats =>
        if msats ≠ expected.2 then (g.clearPendingPayment, .returned (.error "invoice amount mismatch"))
        else
          match g.nwcUri with
          | none => (g, .returned (.error "NWC not connected"))
          | some uri =>
            let payment : Payment := ⟨g.lastIssue, bolt11, msats, uri, g.epoch⟩
            match validatePayInvoice bolt11 with
            | .error e => (g, .unpaid payment e)
            | .ok () => (g, .paying payment)

/-- From the answer to the payment on; an error leaves the invoice pending. -/
def finishPayment (payment : Payment) : Except String String → Globals × Task
  | .error e => (g, .unpaid payment e)
  | .ok response => (g.clearPendingPayment, .paid payment response (g.pendingPayment.map fun _ => g.lastIssue))

def advance (task : Task) (answer : Answer) : Globals × Task :=
  match task with
  | .calling (.fetchInvoice lnurl amountMsat comment nostrEvent) =>
    g.zapFetchInvoice outside lnurl amountMsat comment nostrEvent answer.signer
  | .calling (.sendPayment bolt11) => g.zapSendPayment bolt11 answer.signer
  | .calling (.connectNwc nwcUri) => g.zapConnectNwc outside nwcUri
  | .calling .disconnectNwc => g.zapDisconnectNwc
  | .awaitingInvoice amountMsat uri epoch => g.bindInvoice outside amountMsat uri epoch answer.response
  | .paying payment => g.finishPayment payment answer.payment
  | .unpaid payment e => (g, .unpaid payment e)
  | .paid payment response cleared => (g, .paid payment response cleared)
  | .returned result => (g, .returned result)

end Globals

/-- Calls begin at any time and go on, each from one await to the next, in any order. -/
def step (outside : Outside) : System Globals Task → Move Call Answer → System Globals Task :=
  Processes.step Task.calling (Globals.advance outside)

def start : System Globals Task := ⟨⟨none, none, none, 0, []⟩, []⟩

/-! ## What one step can do -/

namespace Task

def payment : Task → Option Payment
  | .paying payment => some payment
  | .unpaid payment _ => some payment
  | .paid payment _ _ => some payment
  | _ => none

/-- The fetch whose invoice the call has asked the wallet to pay. -/
def issue (task : Task) : Option Nat := task.payment.map Payment.issue

/-- The call has asked for a payment, and the invoice has not been cleared for it. -/
def Open (task : Task) (issue : Nat) : Prop :=
  match task with
  | .paying payment => payment.issue = issue
  | .unpaid payment _ => payment.issue = issue
  | _ => False

end Task

inductive Advanced (outside : Outside) (answer : Answer) (g : Globals) : Task → Globals × Task → Prop where
  | ended {task : Task} : Advanced outside answer g task (g, task)
  | refused {task : Task} {e : String} : task.payment = none → Advanced outside answer g task (g, .returned (.error e))
  | connects {task : Task} {g' : Globals} : g'.pendingPayment = none → g'.epoch = g.epoch + 1 → g'.issued = g.issued →
      Advanced outside answer g task (g', .returned (.ok (.flag true)))
  | asks {lnurl comment nostrEvent uri : String} {amountMsat : UInt64} : g.nwcUri = some uri →
      Advanced outside answer g (.calling (.fetchInvoice lnurl amountMsat comment nostrEvent))
        (g, .awaitingInvoice amountMsat uri g.epoch)
  | binds {amountMsat : UInt64} {uri invoice text : String} {epoch : Nat} :
      Globals.bindable outside answer.response = .ok (invoice, text) →
      Advanced outside answer g (.awaitingInvoice amountMsat uri epoch)
        ({ g with
          pendingPayment := some (invoice, amountMsat)
          issued := g.issued ++ [⟨invoice, amountMsat, uri, epoch⟩] }, .returned (.ok (.text text)))
  | mismatched {bolt11 e : String} :
      Advanced outside answer g (.calling (.sendPayment bolt11)) (g.clearPendingPayment, .returned (.error e))
  | pays {bolt11 uri : String} {msats : UInt64} : g.pendingPayment = some (bolt11, msats) → g.nwcUri = some uri →
      Advanced outside answer g (.calling (.sendPayment bolt11))
        (g, .paying ⟨g.lastIssue, bolt11, msats, uri, g.epoch⟩)
  | rejected {bolt11 uri e : String} {msats : UInt64} : g.pendingPayment = some (bolt11, msats) →
      g.nwcUri = some uri →
      Advanced outside answer g (.calling (.sendPayment bolt11))
        (g, .unpaid ⟨g.lastIssue, bolt11, msats, uri, g.epoch⟩ e)
  | fails {payment : Payment} {e : String} : Advanced outside answer g (.paying payment) (g, .unpaid payment e)
  | finishes {payment : Payment} {response : String} :
      Advanced outside answer g (.paying payment)
        (g.clearPendingPayment, .paid payment response (g.pendingPayment.map fun _ => g.lastIssue))

section Steps

variable {outside : Outside} {answer : Answer} {g : Globals}

theorem advanced_connect (nwcUri : String) :
    Advanced outside answer g (.calling (.connectNwc nwcUri)) (g.zapConnectNwc outside nwcUri) := by
  unfold Globals.zapConnectNwc
  split
  · exact .refused rfl
  · split
    · exact .refused rfl
    · exact .connects rfl rfl rfl

theorem advanced_fetch (lnurl : String) (amountMsat : UInt64) (comment nostrEvent : String) :
    Advanced outside answer g (.calling (.fetchInvoice lnurl amountMsat comment nostrEvent))
      (g.zapFetchInvoice outside lnurl amountMsat comment nostrEvent answer.signer) := by
  unfold Globals.zapFetchInvoice
  dsimp only
  split
  · exact .refused rfl
  split
  · exact .refused rfl
  split
  · exact .refused rfl
  split
  · exact .refused rfl
  split
  · exact .refused rfl
  split
  · exact .refused rfl
  split
  · exact .refused rfl
  split
  · exact .refused rfl
  · exact .refused rfl
  · rename_i connected _
    split
    · exact .refused rfl
    · exact .asks connected

theorem advanced_send (bolt11 : String) :
    Advanced outside answer g (.calling (.sendPayment bolt11)) (g.zapSendPayment bolt11 answer.signer) := by
  unfold Globals.zapSendPayment
  split
  · exact .refused rfl
  · exact .refused rfl
  · rename_i expected pending _
    split
    · exact .mismatched
    · rename_i same
      split
      · exact .refused rfl
      · rename_i msats _
        split
        · exact .mismatched
        · rename_i amount
          rw [ne_eq, not_not] at same amount
          split
          · exact .refused rfl
          · rename_i uri connected
            have bound : g.pendingPayment = some (bolt11, msats) := by rw [pending, ← same, amount]
            dsimp only
            split
            · exact .rejected bound connected
            · exact .pays bound connected

theorem advanced_advance (task : Task) : Advanced outside answer g task (g.advance outside task answer) := by
  cases task with
  | calling call =>
    cases call with
    | fetchInvoice lnurl amountMsat comment nostrEvent => exact advanced_fetch lnurl amountMsat comment nostrEvent
    | sendPayment bolt11 => exact advanced_send bolt11
    | connectNwc nwcUri => exact advanced_connect nwcUri
    | disconnectNwc => exact .connects rfl rfl rfl
  | awaitingInvoice amountMsat uri epoch =>
    simp only [Globals.advance, Globals.bindInvoice]
    split
    · exact .refused rfl
    · rename_i bound
      exact .binds bound
  | paying payment =>
    simp only [Globals.advance]
    cases answer.payment with
    | error e => exact .fails
    | ok response => exact .finishes
  | unpaid payment e => exact .ended
  | paid payment response cleared => exact .ended
  | returned result => exact .ended

end Steps

/-! ## Every interleaving -/

/-- The call of `pay_invoice` is for what a fetch bound, over the connection that the fetch used. -/
def Payment.Right (g : Globals) (payment : Payment) : Prop :=
  ∃ issue, g.issued[payment.issue]? = some issue ∧ payment.invoice = issue.invoice ∧
    payment.msats = issue.amountMsat ∧ payment.uri = issue.uri ∧ payment.epoch = issue.epoch

/-- No fetch is paid twice, every payment is for what its fetch bound, and none clears what was bound later. -/
structure Guarded (s : System Globals Task) : Prop where
  once : (s.procs.filterMap Task.issue).Nodup
  right : ∀ task ∈ s.procs, ∀ payment, task.payment = some payment → payment.Right s.shared
  spared : ∀ payment response cleared, .paid payment response (some cleared) ∈ s.procs → cleared ≤ payment.issue

/-- An invoice is bound only over the connection that its request went out over. -/
def SameConnection (outside : Outside) (g : Globals) (task : Task) (answer : Answer) : Prop :=
  match task with
  | .awaitingInvoice _ _ epoch => (Globals.bindable outside answer.response).isOk → epoch = g.epoch
  | _ => True

/-- An invoice is bound only while no payment waits, and its payment is asked for only if none waits or has failed. -/
def NoOtherPayment (outside : Outside) (g : Globals) (task : Task) (answer : Answer) (other : Task) : Prop :=
  match task with
  | .awaitingInvoice _ _ _ => (Globals.bindable outside answer.response).isOk → ∀ payment, other ≠ .paying payment
  | .calling (.sendPayment bolt11) => g.pendingPayment.map Prod.fst = some bolt11 → ¬ other.Open g.lastIssue
  | _ => True

/-- The pending invoice is that of the last fetch, over the connection that still stands. -/
def Globals.Inv (g : Globals) : Prop :=
  ∀ bound, g.pendingPayment = some bound → ∃ issue, g.issued[g.lastIssue]? = some issue ∧ issue.invoice = bound.1 ∧
    issue.amountMsat = bound.2 ∧ issue.epoch = g.epoch ∧ g.nwcUri = some issue.uri

def Task.Inv (g : Globals) : Task → Prop
  | .awaitingInvoice _ uri epoch => epoch ≤ g.epoch ∧ (epoch = g.epoch → g.nwcUri = some uri)
  | .paying payment => payment.Right g ∧ (g.pendingPayment ≠ none → g.lastIssue = payment.issue)
  | .unpaid payment _ => payment.Right g
  | .paid payment _ cleared =>
    payment.Right g ∧ (g.pendingPayment ≠ none → g.lastIssue ≠ payment.issue) ∧ ∀ c ∈ cleared, c ≤ payment.issue
  | _ => True

def Apart (first second : Task) : Prop :=
  ∀ one, first.issue = some one → ∀ two, second.issue = some two → one ≠ two

section Interleaving

variable {outside : Outside} {answer : Answer} {g : Globals} {task other : Task}

theorem Payment.Right.append {payment : Payment} (right : payment.Right g) {g' : Globals} {later : List Issue}
    (grown : g'.issued = g.issued ++ later) : payment.Right g' := by
  obtain ⟨issue, found, same⟩ := right
  refine ⟨issue, ?_, same⟩
  rw [grown, List.getElem?_append_left (List.getElem?_eq_some_iff.mp found).1]
  exact found

theorem Payment.Right.congr {payment : Payment} (right : payment.Right g) {g' : Globals} (same : g'.issued = g.issued) :
    payment.Right g' := right.append (by rw [same, List.append_nil])

theorem Task.Inv.without_pending (inv : task.Inv g) {g' : Globals} (none : g'.pendingPayment = none)
    (issued : g'.issued = g.issued)
    (connection : g'.epoch = g.epoch + 1 ∨ g'.epoch = g.epoch ∧ g'.nwcUri = g.nwcUri) : task.Inv g' := by
  cases task with
  | awaitingInvoice amountMsat uri epoch =>
    obtain ⟨bound, same⟩ := inv
    obtain later | ⟨still, uriSame⟩ := connection
    · exact ⟨by omega, fun now => absurd now (by omega)⟩
    · exact ⟨by omega, fun now => by rw [uriSame]; exact same (by omega)⟩
  | paying payment => exact ⟨inv.1.congr issued, fun some => absurd none some⟩
  | unpaid payment e => exact Payment.Right.congr inv issued
  | paid payment response cleared => exact ⟨inv.1.congr issued, fun some => absurd none some, inv.2.2⟩
  | calling call => trivial
  | returned result => trivial

theorem Task.Inv.with_pending (inv : task.Inv g) (idle : ∀ payment, task ≠ .paying payment) {issue : Issue}
    {bound : String × UInt64} : task.Inv { g with pendingPayment := some bound, issued := g.issued ++ [issue] } := by
  cases task with
  | awaitingInvoice amountMsat uri epoch => exact inv
  | paying payment => exact absurd rfl (idle payment)
  | unpaid payment e => exact Payment.Right.append inv rfl
  | paid payment response cleared =>
    refine ⟨inv.1.append rfl, fun _ same => ?_, inv.2.2⟩
    obtain ⟨issue, found, -⟩ := inv.1
    have small := (List.getElem?_eq_some_iff.mp found).1
    simp only [Globals.lastIssue, List.length_append, List.length_singleton] at same
    omega
  | calling call => trivial
  | returned result => trivial

theorem right_of_pending (inv : g.Inv) {bolt11 uri : String} {msats : UInt64}
    (pending : g.pendingPayment = some (bolt11, msats)) (connected : g.nwcUri = some uri) :
    Payment.Right g ⟨g.lastIssue, bolt11, msats, uri, g.epoch⟩ := by
  obtain ⟨issue, last, invoice, amount, epoch, same⟩ := inv _ pending
  rw [connected, Option.some.injEq] at same
  exact ⟨issue, last, invoice.symm, amount.symm, same, epoch.symm⟩

theorem inv_of_none (none : g.pendingPayment = none) : g.Inv := by
  intro bound pending
  rw [none] at pending
  cases pending

theorem inv_advance (inv : g.Inv) (taskInv : task.Inv g) (connection : SameConnection outside g task answer) :
    (g.advance outside task answer).1.Inv ∧
      (g.advance outside task answer).2.Inv (g.advance outside task answer).1 := by
  generalize after : g.advance outside task answer = next
  have advanced : Advanced outside answer g task next := after ▸ advanced_advance task
  cases advanced with
  | ended => exact ⟨inv, taskInv⟩
  | refused _ => exact ⟨inv, trivial⟩
  | connects none _ _ => exact ⟨inv_of_none none, trivial⟩
  | asks connected => exact ⟨inv, le_rfl, fun _ => connected⟩
  | @binds amountMsat uri invoice text epoch bound =>
    have now : epoch = g.epoch := connection (by rw [bound]; rfl)
    refine ⟨fun pair pending => ?_, trivial⟩
    cases pending
    refine ⟨⟨invoice, amountMsat, uri, epoch⟩, ?_, rfl, rfl, now, taskInv.2 now⟩
    simp [Globals.lastIssue]
  | mismatched => exact ⟨inv_of_none rfl, trivial⟩
  | pays pending connected => exact ⟨inv, right_of_pending inv pending connected, fun _ => rfl⟩
  | rejected pending connected => exact ⟨inv, right_of_pending inv pending connected⟩
  | fails => exact ⟨inv, taskInv.1⟩
  | @finishes payment response =>
    refine ⟨inv_of_none rfl, taskInv.1.congr rfl, fun some => absurd rfl some, fun c member => ?_⟩
    obtain ⟨bound, pending, rfl⟩ := Option.map_eq_some_iff.mp member
    exact le_of_eq (taskInv.2 (by rw [pending]; exact Option.some_ne_none bound))

theorem inv_beside (otherInv : other.Inv g) (free : NoOtherPayment outside g task answer other) :
    other.Inv (g.advance outside task answer).1 := by
  generalize after : g.advance outside task answer = next
  have advanced : Advanced outside answer g task next := after ▸ advanced_advance task
  cases advanced with
  | ended => exact otherInv
  | refused _ => exact otherInv
  | connects none epoch issued => exact otherInv.without_pending none issued (.inl epoch)
  | asks _ => exact otherInv
  | binds bound => exact otherInv.with_pending (free (by rw [bound]; rfl))
  | mismatched => exact otherInv.without_pending rfl rfl (.inr ⟨rfl, rfl⟩)
  | pays _ _ => exact otherInv
  | rejected _ _ => exact otherInv
  | fails => exact otherInv
  | finishes => exact otherInv.without_pending rfl rfl (.inr ⟨rfl, rfl⟩)

/-- A call that asks for the pending payment does so for a fetch that no other call has asked for. -/
theorem unasked_of_pending (otherInv : other.Inv g) {bound : String × UInt64} (pending : g.pendingPayment = some bound)
    (closed : ¬ other.Open g.lastIssue) : other.issue ≠ some g.lastIssue := by
  intro same
  cases other with
  | paying payment => exact closed (Option.some.inj same)
  | unpaid payment e => exact closed (Option.some.inj same)
  | paid payment response cleared =>
    exact otherInv.2.1 (by rw [pending]; exact Option.some_ne_none bound) (Option.some.inj same).symm
  | calling call => cases same
  | awaitingInvoice amountMsat uri epoch => cases same
  | returned result => cases same

theorem apart_advance (otherInv : other.Inv g) (apart : Apart task other)
    (free : NoOtherPayment outside g task answer other) : Apart (g.advance outside task answer).2 other := by
  generalize after : g.advance outside task answer = next
  have advanced : Advanced outside answer g task next := after ▸ advanced_advance task
  have idle : ∀ result, Apart (.returned result) other := fun _ _ same => nomatch same
  cases advanced with
  | ended => exact apart
  | refused _ => exact idle _
  | connects _ _ _ => exact idle _
  | asks _ => exact fun _ same => nomatch same
  | binds _ => exact idle _
  | mismatched => exact idle _
  | pays pending _ =>
    have unasked := unasked_of_pending otherInv pending (free (by rw [pending]; rfl))
    rintro one ⟨⟩ two same rfl
    exact unasked same
  | rejected pending _ =>
    have unasked := unasked_of_pending otherInv pending (free (by rw [pending]; rfl))
    rintro one ⟨⟩ two same rfl
    exact unasked same
  | fails => exact apart
  | finishes => exact apart

theorem guarded_of_inv {s : System Globals Task} (holds : Holds Globals.Inv Task.Inv s)
    (apart : s.procs.Pairwise Apart) : Guarded s where
  once := List.pairwise_filterMap.mpr apart
  right := by
    intro task member payment asked
    have inv := holds.2 task member
    cases task with
    | paying paying => cases asked; exact inv.1
    | unpaid unpaid e => cases asked; exact inv
    | paid paid response cleared => cases asked; exact inv.1
    | calling call => cases asked
    | awaitingInvoice amountMsat uri epoch => cases asked
    | returned result => cases asked
  spared := fun payment response cleared member => (holds.2 _ member).2.2 cleared rfl

end Interleaving

/-- In every interleaving in which an invoice is bound over the connection that was asked for it and while no payment
waits, and is paid only if no payment for it waits or has failed, every payment is guarded. -/
theorem payments_guarded (outside : Outside) (moves : List (Move Call Answer))
    (meets : Throughout (step outside) (Meets (SameConnection outside) (NoOtherPayment outside)) start moves) :
    Always (step outside) Guarded start moves := by
  have guarantee : Processes.Guarantee Task.calling (Globals.advance outside) (SameConnection outside)
      (NoOtherPayment outside) Globals.Inv Task.Inv :=
    { entered := fun _ _ _ => trivial
      moves := fun _ _ _ inv taskInv connection => inv_advance inv taskInv connection
      others := fun _ _ _ _ _ _ otherInv _ free => inv_beside otherInv free }
  have initial : Holds Globals.Inv Task.Inv start :=
    ⟨inv_of_none rfl, fun _ member => absurd member List.not_mem_nil⟩
  have always := guarantee.always_apart (R := Apart) (fun _ _ apart one same two other equal =>
      apart two other one same equal.symm) (fun _ _ _ same => nomatch same)
    (fun _ _ _ _ _ _ otherInv apart _ free => apart_advance otherInv apart free) initial List.Pairwise.nil meets
  exact always.imp fun s both => guarded_of_inv both.1 both.2

instance (outside : Outside) (g : Globals) (task : Task) (answer : Answer) :
    Decidable (SameConnection outside g task answer) :=
  match task with
  | .awaitingInvoice _ _ epoch =>
    inferInstanceAs (Decidable ((Globals.bindable outside answer.response).isOk → epoch = g.epoch))
  | .calling _ | .paying _ | .unpaid _ _ | .paid _ _ _ | .returned _ => .isTrue trivial

instance (task : Task) (issue : Nat) : Decidable (task.Open issue) :=
  match task with
  | .paying payment => inferInstanceAs (Decidable (payment.issue = issue))
  | .unpaid payment _ => inferInstanceAs (Decidable (payment.issue = issue))
  | .calling _ | .awaitingInvoice _ _ _ | .paid _ _ _ | .returned _ => .isFalse id

instance (task : Task) : Decidable (∀ payment, task ≠ .paying payment) :=
  match task with
  | .paying payment => .isFalse fun idle => idle payment rfl
  | .calling _ | .awaitingInvoice _ _ _ | .unpaid _ _ | .paid _ _ _ | .returned _ => .isTrue fun _ same => nomatch same

instance (outside : Outside) (g : Globals) (task : Task) (answer : Answer) (other : Task) :
    Decidable (NoOtherPayment outside g task answer other) :=
  match task with
  | .awaitingInvoice _ _ _ =>
    inferInstanceAs (Decidable ((Globals.bindable outside answer.response).isOk → ∀ payment, other ≠ .paying payment))
  | .calling (.sendPayment bolt11) =>
    inferInstanceAs (Decidable (g.pendingPayment.map Prod.fst = some bolt11 → ¬ other.Open g.lastIssue))
  | .calling (.fetchInvoice _ _ _ _) | .calling (.connectNwc _) | .calling .disconnectNwc | .paying _ | .unpaid _ _
  | .paid _ _ _ | .returned _ => .isTrue trivial

def sampleKeys : List String :=
  ["abcdef0123456789abcdef0123456789abcdef0123456789abcdef0123456789",
    "0123456789abcdef0123456789abcdef0123456789abcdef0123456789abcdef"]

def sampleSecret : String := "f0f0f0f0f0f0f0f0f0f0f0f0f0f0f0f0f0f0f0f0f0f0f0f0f0f0f0f0f0f0f0f0"

def sampleUri (key : String) : String :=
  "nostr+walletconnect://" ++ key ++ "?relay=wss://relay.damus.io&secret=" ++ sampleSecret

/-- Two invoices, over 100 and over 200 satoshis. -/
def sampleInvoices : List String := ["lnbc1u1qqqqqqqqgyj59a", "lnbc2u1qqqqqqqq7gx8zd"]

/-- The outside code on the invoices, the addresses and the URIs of the concrete runs. -/
def sampleOutside : Outside where
  bech32Decodes := fun invoice => sampleInvoices.contains invoice
  parseUrl := fun uri =>
    match sampleKeys.find? fun key => sampleUri key == uri with
    | some key => .ok ⟨"nostr+walletconnect", some key, [("relay", "wss://relay.damus.io"), ("secret", sampleSecret)]⟩
    | none => .error "relative URL without a base"
  isValidMediaUrl := fun url => url == "https://example.com/.well-known/lnurlp/alice"
  isValidRelayUrl := fun url => url == "wss://relay.damus.io"

def invoiceOf (n : Nat) : String := sampleInvoices.getD n ""

/-- The signer is unlocked and the wallet answers both requests. -/
def answering (n : Nat) : Answer :=
  ⟨.ok (), .ok ⟨"\x7b\"result\":\x7b\"invoice\":\"" ++ invoiceOf n ++ "\"\x7d\x7d", some (invoiceOf n)⟩,
    .ok "\x7b\"result\":\x7b\x7d\x7d"⟩

def connecting (n : Nat) : Move Call Answer := .call (.connectNwc (sampleUri (sampleKeys.getD n "")))

def fetching (n : Nat) : Move Call Answer := .call (.fetchInvoice "alice@example.com" (UInt64.ofNat (100000 * (n + 1))) "" "")

def sending (n : Nat) : Move Call Answer := .call (.sendPayment (invoiceOf n))

/-- A wallet is connected, and one invoice after the other is fetched and paid. -/
def oneAfterTheOther : List (Move Call Answer) :=
  [connecting 0, .advance 0 (answering 0), fetching 0, .advance 1 (answering 0), .advance 1 (answering 0),
    sending 0, .advance 2 (answering 0), .advance 2 (answering 0), fetching 1, .advance 3 (answering 1),
    .advance 3 (answering 1), sending 1, .advance 4 (answering 1), .advance 4 (answering 1)]

theorem oneAfterTheOther_guarded :
    Throughout (step sampleOutside) (Meets (SameConnection sampleOutside) (NoOtherPayment sampleOutside)) start
        oneAfterTheOther ∧
      Always (step sampleOutside) Guarded start oneAfterTheOther :=
  ⟨by decide +kernel, payments_guarded sampleOutside oneAfterTheOther (by decide +kernel)⟩

def paidTwice : List (Move Call Answer) :=
  [connecting 0, .advance 0 (answering 0), fetching 0, .advance 1 (answering 0), .advance 1 (answering 0),
    sending 0, sending 0, .advance 2 (answering 0), .advance 3 (answering 0)]

/-- The connection changes while the first wallet makes out its invoice, which the second wallet is then asked to pay. -/
def paidElsewhere : List (Move Call Answer) :=
  [connecting 0, .advance 0 (answering 0), fetching 0, .advance 1 (answering 0), connecting 1, .advance 2 (answering 0),
    .advance 1 (answering 0), sending 0, .advance 3 (answering 0)]

/-- A second invoice is fetched while the first is being paid. -/
def clearedByAnother : List (Move Call Answer) :=
  [connecting 0, .advance 0 (answering 0), fetching 0, .advance 1 (answering 0), .advance 1 (answering 0),
    sending 0, .advance 2 (answering 0), fetching 1, .advance 3 (answering 1), .advance 3 (answering 1),
    .advance 2 (answering 0)]

/-- A payment that is over cleared no later issue than its own. -/
def clearsItsOwn : Task → Bool
  | .paid payment _ (some cleared) => decide (cleared ≤ payment.issue)
  | _ => true

theorem payments_not_guarded :
    ¬ Always (step sampleOutside) Guarded start paidTwice ∧
      ¬ Always (step sampleOutside) Guarded start paidElsewhere ∧
      ¬ Always (step sampleOutside) Guarded start clearedByAnother := by
  refine ⟨fun always => ?_, fun always => ?_, fun always => ?_⟩
  · have once := always.last.once
    revert once
    decide +kernel
  · have uris : ∀ task ∈ (run (step sampleOutside) start paidElsewhere).procs, ∀ payment ∈ task.payment,
        ((run (step sampleOutside) start paidElsewhere).shared.issued[payment.issue]?).map Issue.uri =
          some payment.uri := by
      intro task member payment asked
      obtain ⟨issue, found, -, -, same, -⟩ := always.last.right task member payment asked
      rw [found, same]
      rfl
    revert uris
    decide +kernel
  · have spared : ∀ task ∈ (run (step sampleOutside) start clearedByAnother).procs, clearsItsOwn task = true := by
      intro task member
      unfold clearsItsOwn
      split
      · exact decide_eq_true (always.last.spared _ _ _ member)
      · rfl
    revert spared
    decide +kernel

end Soshal.Bridge.Zap
