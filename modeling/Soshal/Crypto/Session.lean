import Soshal.Crypto.Depth
import Mathlib.Logic.Function.Basic
import Mathlib.Logic.Relation

/-! Two parties, a network that may do anything, and what holds of each party.

The network is not part of the state: any header with any ciphertext may be
delivered at any time, any number of times. What an attacker cannot do is stated
where a message is delivered: under a key that grew from a secret only the two
parties hold, a ciphertext opens only if one of them sealed it with that key and
that header.
-/

set_option autoImplicit false

namespace Soshal.Crypto

open Library
open Library.KeyChain (push shiftIn chainAt keyAt)

inductive Party where
  | alice
  | bob
  deriving DecidableEq

def Party.other : Party → Party
  | .alice => .bob
  | .bob => .alice

@[simp] theorem Party.other_other (party : Party) : party.other.other = party := by cases party <;> rfl

theorem Party.eq_or_other (one party : Party) : one = party ∨ one = party.other := by
  cases one <;> cases party <;> simp [Party.other]

theorem Party.other_ne (party : Party) : party.other ≠ party := by cases party <;> simp [Party.other]

variable {Key Sk Secret Seed : Type}

/-- What an encryption put on the wire, and what it kept to itself. -/
structure Sent (Key : Type) where
  author : Party
  key : Key
  header : HeaderOutput
  plaintext : Bytes
  compressed : Bytes
  ciphertext : String

structure Accepted where
  party : Party
  header : HeaderOutput
  plaintext : Bytes

structure World (Key Sk : Type) where
  state : Party → RatchetState Key Sk
  sent : List (Sent Key)
  accepted : List Accepted

def World.sentBy (w : World Key Sk) (party : Party) : List (Sent Key) := w.sent.filter (·.author = party)

def World.seenBy (w : World Key Sk) (party : Party) : List (Int × Int) :=
  (w.accepted.filter (·.party = party)).map fun a => (a.header.chainCounter, a.header.seq)

/-- A message is sent, and its author goes on in a new state. -/
def World.send (w : World Key Sk) (m : Sent Key) (after : RatchetState Key Sk) : World Key Sk :=
  { w with state := Function.update w.state m.author after, sent := m :: w.sent }

/-- A delivery is accepted, and the party goes on in a new state. -/
def World.accept (w : World Key Sk) (a : Accepted) (after : RatchetState Key Sk) : World Key Sk :=
  { w with state := Function.update w.state a.party after, accepted := a :: w.accepted }

theorem World.mem_sentBy {w : World Key Sk} {party : Party} {m : Sent Key} :
    m ∈ w.sentBy party ↔ m ∈ w.sent ∧ m.author = party := by
  simp [World.sentBy]

namespace World

variable (w : World Key Sk) (m : Sent Key) (a : Accepted) (after : RatchetState Key Sk) {party : Party}

theorem sentBy_send (party : Party) :
    (w.send m after).sentBy party = if m.author = party then m :: w.sentBy party else w.sentBy party := by
  simp only [sentBy, send, List.filter_cons, decide_eq_true_eq]

@[simp] theorem sentBy_accept (party : Party) : (w.accept a after).sentBy party = w.sentBy party := rfl

theorem seenBy_accept (party : Party) :
    (w.accept a after).seenBy party =
      if a.party = party then (a.header.chainCounter, a.header.seq) :: w.seenBy party else w.seenBy party := by
  simp only [seenBy, accept, List.filter_cons, decide_eq_true_eq]
  split <;> rfl

theorem state_send_self (author : m.author = party) : (w.send m after).state party = after := by
  rw [← author]
  exact Function.update_self _ _ _

theorem state_send_other (author : m.author = party) : (w.send m after).state party.other = w.state party.other := by
  rw [← author]
  exact Function.update_of_ne (Party.other_ne m.author) _ _

theorem state_accept_self (taker : a.party = party) : (w.accept a after).state party = after := by
  rw [← taker]
  exact Function.update_self _ _ _

theorem state_accept_other (taker : a.party = party) :
    (w.accept a after).state party.other = w.state party.other := by
  rw [← taker]
  exact Function.update_of_ne (Party.other_ne a.party) _ _

end World

/-- How a session starts: each party has published a static key, and knows the other's or not. -/
structure Setup (p : Primitives Key Sk Secret Seed) where
  context : String
  seed : Party → Seed
  pk : Party → String
  sk : Party → Sk
  generated : ∀ party, p.hybridKeygen (seed party) = some (pk party, sk party)
  knows : Party → Bool

variable {p : Primitives Key Sk Secret Seed}

def Setup.start (setup : Setup p) : World Key Sk where
  state party := initState (if setup.knows party then setup.pk party.other else "") setup.context (setup.sk party)
    (setup.pk party)
  sent := []
  accepted := []

section Steps

variable (setup : Setup p) (held : Secret → Prop)

/-- Under a key of the session the ciphertext opens only if a party sealed it, with this header. -/
def Unforged (w : World Key Sk) (header : HeaderOutput) (ciphertext : String) : Prop :=
  ∀ n i key compressed, KeyAt p held setup.context n i key → p.nip44Decrypt ciphertext key = .ok compressed →
    ∃ m ∈ w.sent, m.key = key ∧ m.header = header ∧ m.compressed = compressed ∧ m.ciphertext = ciphertext

/-- Key pairs do not repeat, and only the two parties learn the secret a session is opened with. -/
structure FreshDraws (w : World Key Sk) (party : Party) (draws : Draws Seed) : Prop where
  unused : ∀ pk sk, p.hybridKeygen draws.keypair = some (pk, sk) →
    pk ≠ setup.pk party ∧ ∀ m ∈ w.sentBy party, m.header.pk ≠ pk
  kept : ∀ ct secret, (w.state party).rootKey = none →
    p.hybridEncapsulate (w.state party).peerPk draws.encapsulation = some (ct, secret) → held secret

/-- One call that succeeds; a call that fails changes nothing. `admits` is what is asked of a header before it is
handed to a party. -/
inductive Step (admits : World Key Sk → Party → HeaderOutput → Prop) : World Key Sk → World Key Sk → Prop where
  | encrypt {w : World Key Sk} (draws : Draws Seed) {m : Sent Key} {epoch : SendingEpoch Key Sk}
      {after : RatchetState Key Sk} : FreshDraws setup held w m.author draws →
      encryptRatchet p (w.state m.author) m.plaintext draws = .ok (after, m.header, m.ciphertext) →
      sendingEpoch p (w.state m.author) draws = .ok epoch → compressBytes p m.plaintext = .ok m.compressed →
      m.key = (chainStep p (w.state m.author).context epoch.chainKey).1 → Step admits w (w.send m after)
  | deliver {w : World Key Sk} (keypair : Seed) {a : Accepted} {ciphertext : String} {after : RatchetState Key Sk} :
      Unforged setup held w a.header ciphertext → admits w a.party a.header →
      decryptRatchet p (w.state a.party) a.header ciphertext keypair = .ok (after, a.plaintext) →
      Step admits w (w.accept a after)

def Reachable (admits : World Key Sk → Party → HeaderOutput → Prop) (w : World Key Sk) : Prop :=
  Relation.ReflTransGen (Step setup held admits) setup.start w

def anyone (_ : World Key Sk) (_ : Party) (_ : HeaderOutput) : Prop := True

/-- A party without a root is handed headers of its peer only. -/
def peerOpenings (w : World Key Sk) (party : Party) (header : HeaderOutput) : Prop :=
  (w.state party).rootKey = none → ∃ m ∈ w.sentBy party.other, m.header = header

end Steps

end Soshal.Crypto
