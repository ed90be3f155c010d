import Mathlib.Data.Finset.Basic
import Soshal.Network.BeaconSeq

/-! Who may speak over the QUIC channels.

A node forwards the micro-events that arrive from an address in its `authed` set, and
an address enters the set when a beacon that the node accepts arrives from it. The
set is shared by all connections and swept now and then; a stream opens with a beacon
of its own. Around the nodes stands an attacker without the key: it holds addresses,
opens and accepts connections, and sends what it likes.
-/

set_option autoImplicit false

namespace Soshal.Network.QuicAuth

open Library
open Library.Text
open Library.Encoding (hexDecode)
open Beacon

structure MicroEvent where
  kind : String
  payload : String
  deriving DecidableEq

def registrationKind : String := "__peer_key__"

def maxDatagramConns : Nat := 64

def maxAuthLine : Nat := 512

/-- What a node keeps: its connections by remote address, the addresses that it trusts, its replay guard. -/
structure Node (α : Type) where
  conns : Table α Nat
  authed : Finset α
  beaconSeq : BeaconSeq

section Node

variable (hmacSha256 : List UInt8 → List UInt8 → List UInt8) (key : List UInt8) {α : Type} [DecidableEq α]

inductive Verdict where
  | ignored
  | authenticated
  | forwarded
  deriving DecidableEq

/-- One datagram in the loop of `spawn_conn_task`. -/
def readDatagram (node : Node α) (remote : α) (now : UInt64) (pick : Nat) (ev : MicroEvent) : Node α × Verdict :=
  if remote ∈ node.authed then
    if ev.kind ≠ registrationKind then (node, .forwarded) else (node, .ignored)
  else if ev.kind = registrationKind then
    match receive hmacSha256 key lanMagic 0 node.beaconSeq ⟨trim ev.payload, now, pick⟩ with
    | (seq, true) => ({ node with authed := insert remote node.authed, beaconSeq := seq }, .authenticated)
    | (seq, false) => ({ node with beaconSeq := seq }, .ignored)
  else (node, .ignored)

def trimEnd (s : String) : String := String.ofList (s.toList.rdropWhile isWhitespace)

/-- The beacon line that opens a stream, and how many bytes it took; decoding them can lengthen it. -/
def authStream (node : Node α) (now : UInt64) (pick : Nat) (size : Nat) (line : String) : Node α × Bool :=
  if maxAuthLine < size then (node, false)
  else
    match receive hmacSha256 key lanMagic 0 node.beaconSeq ⟨trimEnd line, now, pick⟩ with
    | (seq, accepted) => ({ node with beaconSeq := seq }, accepted)

def beaconLine (pubkey : String) (ts : UInt64) (nonce : Nonce) : String :=
  let body := beaconBody lanMagic pubkey 0 ts (hexEncode nonce.val)
  body ++ ":" ++ beaconMac hmacSha256 key body

end Node

inductive Party (ν : Type) where
  | honest (n : ν)
  | attacker
  deriving DecidableEq

/-- One end of a connection, at an honest node. The mate is the other end, where that is at an honest node too. -/
structure End (ν α : Type) where
  node : ν
  remote : α
  mate : Option Nat
  live : Bool
  presented : Bool

/-- A stream on its way to the node that it is opened to. -/
structure Opening (ν ρ : Type) where
  node : ν
  opener : Party ν
  size : Nat
  line : String
  request : ρ

structure World (ν α ρ : Type) where
  ends : List (End ν α)
  nodes : ν → Node α
  transit : List (Nat × MicroEvent)
  openings : List (Opening ν ρ)
  /-- The texts that the attacker has received. -/
  known : List String
  composed : List MicroEvent
  asked : List ρ
  forwarded : List (Nat × MicroEvent)
  served : List (ν × ρ)

inductive Move (ν α ρ : Type) where
  | connect (opener acceptor : ν) (openerAddr acceptorAddr : α)
  | accept (node : ν) (attackerAddr : α)
  | reach (node : ν) (attackerAddr : α)
  | close (k : Nat)
  | sweep (node : ν)
  | sendFailed (node : ν) (addr : α)
  | register (k : Nat) (ts : UInt64) (nonce : Nonce)
  | send (k : Nat) (ev : MicroEvent)
  | craft (k : Nat) (ev : MicroEvent)
  | deliver (i : Nat) (now : UInt64) (pick : Nat)
  | lose (i : Nat)
  | openStream (node : ν) (target : Party ν) (ts : UInt64) (nonce : Nonce) (request : ρ)
  | craftStream (node : ν) (size : Nat) (line : String) (request : ρ)
  | serve (i : Nat) (now : UInt64) (pick : Nat)

section World

variable (hmacSha256 : List UInt8 → List UInt8 → List UInt8) (key : List UInt8)
variable {ν α ρ : Type} [DecidableEq ν] [DecidableEq α]
variable (pubkeyOf : ν → String) (owner : α → Party ν) (isPrivate : α → Bool)

/-- The cap on connections holds for those that are accepted. -/
def Node.accepts (node : Node α) (remote : α) : Bool :=
  isPrivate remote && decide (node.conns.keys.length < maxDatagramConns)

def Node.insertConn (node : Node α) (remote : α) (k : Nat) : Node α :=
  { node with conns := node.conns.upsert remote k fun _ => k }

def World.setNode (w : World ν α ρ) (n : ν) (node : Node α) : World ν α ρ :=
  { w with nodes := Function.update w.nodes n node }

def World.attach (w : World ν α ρ) (n : ν) (remote : α) (mate : Option Nat) : World ν α ρ :=
  { w.setNode n ((w.nodes n).insertConn remote w.ends.length) with ends := w.ends ++ [⟨n, remote, mate, true, false⟩] }

def World.isLive (w : World ν α ρ) (k : Nat) : Bool := (w.ends[k]?).any fun e => e.live

/-- The sweep: dead connections go, and with them the addresses that have no connection. -/
def sweepNode (live : Nat → Bool) (node : Node α) : Node α :=
  let conns := node.conns.delete fun _ k => !live k
  { node with conns := conns, authed := node.authed.filter fun addr => addr ∈ conns.keys }

/-- Something goes out over an end: to its mate, or to the attacker's ears. -/
def World.emit (w : World ν α ρ) (k : Nat) (ev : MicroEvent) : World ν α ρ :=
  match (w.ends[k]?).bind (·.mate) with
  | some mate => { w with transit := w.transit ++ [(mate, ev)] }
  | none => { w with known := w.known ++ [trim ev.payload] }

def step (w : World ν α ρ) : Move ν α ρ → World ν α ρ
  | .connect opener acceptor openerAddr acceptorAddr =>
    if owner openerAddr = .honest opener ∧ owner acceptorAddr = .honest acceptor ∧ isPrivate acceptorAddr = true ∧
        (w.nodes acceptor).accepts isPrivate openerAddr = true then
      let k := w.ends.length
      let opened := w.attach opener acceptorAddr (some (k + 1))
      opened.attach acceptor openerAddr (some k)
    else w
  | .accept n remote =>
    if owner remote = .attacker ∧ (w.nodes n).accepts isPrivate remote = true then w.attach n remote none else w
  | .reach n remote => if owner remote = .attacker ∧ isPrivate remote = true then w.attach n remote none else w
  | .close k => { w with ends := w.ends.modify k fun e => { e with live := false } }
  | .sweep n => w.setNode n (sweepNode w.isLive (w.nodes n))
  | .sendFailed n addr =>
    w.setNode n { w.nodes n with conns := (w.nodes n).conns.delete fun remote _ => remote = addr }
  | .register k ts nonce =>
    match w.ends[k]? with
    | some e => w.emit k ⟨registrationKind, beaconLine hmacSha256 key (pubkeyOf e.node) ts nonce⟩
    | none => w
  | .send k ev =>
    match w.ends[k]? with
    | some _ => { w.emit k ev with composed := w.composed ++ [ev] }
    | none => w
  | .craft k ev =>
    match w.ends[k]? with
    | some e => if owner e.remote = .attacker then { w with transit := w.transit ++ [(k, ev)] } else w
    | none => w
  | .deliver i now pick =>
    match w.transit[i]? with
    | some (k, ev) =>
      let rest := { w with transit := w.transit.eraseIdx i }
      match w.ends[k]? with
      | some e =>
        -- The task of a closed connection has ended.
        if e.live then
          match readDatagram hmacSha256 key (w.nodes e.node) e.remote now pick ev with
          | (node, .ignored) => rest.setNode e.node node
          | (node, .authenticated) =>
            { rest.setNode e.node node with ends := w.ends.modify k fun e => { e with presented := true } }
          | (node, .forwarded) => { rest.setNode e.node node with forwarded := w.forwarded ++ [(k, ev)] }
        else rest
      | none => rest
    | none => w
  | .lose i => { w with transit := w.transit.eraseIdx i }
  | .openStream n target ts nonce request =>
    let line := beaconLine hmacSha256 key (pubkeyOf n) ts nonce
    let w := { w with asked := w.asked ++ [request] }
    match target with
    | .honest m => { w with openings := w.openings ++ [⟨m, .honest n, byteLen line, line, request⟩] }
    | .attacker => { w with known := w.known ++ [line] }
  | .craftStream n size line request => { w with openings := w.openings ++ [⟨n, .attacker, size, line, request⟩] }
  | .serve i now pick =>
    match w.openings[i]? with
    | some o =>
      let rest := { w with openings := w.openings.eraseIdx i }
      match authStream hmacSha256 key (w.nodes o.node) now pick o.size o.line with
      | (node, true) => { rest.setNode o.node node with served := w.served ++ [(o.node, o.request)] }
      | (node, false) => rest.setNode o.node node
    | none => w

end World

section Conditions

variable (hmacSha256 : List UInt8 → List UInt8 → List UInt8) (key : List UInt8)
variable {ν α ρ : Type} [DecidableEq ν] [DecidableEq α] (owner : α → Party ν)

/-- A text has the body of a line that the attacker received. -/
def Repeats (known : List String) (text : String) : Prop :=
  ∃ f, splitFields text = some f ∧ ∃ heard ∈ known, ∃ g, splitFields heard = some g ∧ g.body = f.body

/-- The MAC is ideal: a text whose MAC verifies repeats what was received. -/
def Unforged (known : List String) (text : String) : Prop :=
  ∀ f, splitFields text = some f → hexDecode f.mac = some (hmacSha256 key (utf8 f.body)) → Repeats known text

def Craftable (w : World ν α ρ) : Move ν α ρ → Prop
  | .craft _ ev => ev.kind = registrationKind → Unforged hmacSha256 key w.known (trim ev.payload)
  | .craftStream _ _ line _ => Unforged hmacSha256 key w.known (trimEnd line)
  | _ => True

/-- No live connection of the node has this address, and the node does not trust it. -/
def Unused (w : World ν α ρ) (n : ν) (addr : α) : Prop :=
  addr ∉ (w.nodes n).authed ∧ ∀ e ∈ w.ends, e.live = true → e.node = n → e.remote ≠ addr

/-- A beacon that is no longer fresh, or whose nonce is remembered. -/
def Stale (node : Node α) (now : UInt64) (pick : Nat) (text : String) : Prop :=
  ∀ pk port nonce, parseBeacon hmacSha256 key lanMagic text 0 now = some (pk, port, nonce) →
    nonce ∈ (node.beaconSeq.makeRoom pick pk).evicted ∨ nonce ∈ (node.beaconSeq.makeRoom pick pk).queueOf pk

/-- Different nodes connect, from addresses that are unused at the other node, and a beacon that the attacker repeats
is stale where it arrives. -/
def Careful (w : World ν α ρ) : Move ν α ρ → Prop
  | .connect opener acceptor openerAddr acceptorAddr =>
    opener ≠ acceptor ∧ Unused w opener acceptorAddr ∧ Unused w acceptor openerAddr
  | .deliver i now pick => ∀ k ev e, w.transit[i]? = some (k, ev) → w.ends[k]? = some e →
      owner e.remote = .attacker → ev.kind = registrationKind → Repeats w.known (trim ev.payload) →
      Stale hmacSha256 key (w.nodes e.node) now pick (trim ev.payload)
  | .serve i now pick => ∀ o, w.openings[i]? = some o → o.opener = .attacker → o.size ≤ maxAuthLine →
      Repeats w.known (trimEnd o.line) → Stale hmacSha256 key (w.nodes o.node) now pick (trimEnd o.line)
  | _ => True

structure Fresh (w : World ν α ρ) : Prop where
  ends : w.ends = []
  nodes : ∀ n, (w.nodes n).authed = ∅
  transit : w.transit = []
  openings : w.openings = []
  forwarded : w.forwarded = []
  served : w.served = []

/-- Every forwarded event came over a connection that presented a beacon, and nothing of the attacker's was forwarded
or served. -/
structure Guarded (w : World ν α ρ) : Prop where
  presented : ∀ sent ∈ w.forwarded, ∃ e, w.ends[sent.1]? = some e ∧ e.presented = true
  composed : ∀ sent ∈ w.forwarded, sent.2 ∈ w.composed
  asked : ∀ answer ∈ w.served, answer.2 ∈ w.asked

end Conditions

end Soshal.Network.QuicAuth
