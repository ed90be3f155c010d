import Soshal.Crypto.Receiving
import Soshal.Crypto.Session
import Soshal.Crypto.Transcript

/-! What a party accepts was encrypted by its peer, for that position, and is accepted once.

The invariant of a party follows three epochs: the one it last sent in, the one
it receives in, and an earlier one of which it still keeps keys. Sending and
receiving epochs never coincide, so a message that opens is not one of the
party's own.
-/

set_option autoImplicit false

namespace Soshal.Crypto

open Library
open Library.KeyChain (push shiftIn chainAt keyAt)
open Library.Text (byteLen)

variable {Key Sk Secret Seed : Type} {p : Primitives Key Sk Secret Seed} {held : Secret → Prop}

/-! ## The sending side -/

section Party

variable (setup : Setup p) (held)

/-- What a party has sent, up to its last epoch `d`: each message under the key of its position, no position twice,
a key pair of its own for each epoch, and an opening for the peer's static key. -/
structure Wrote (own : List (Sent Key)) (party : Party) (d : Nat) : Prop where
  genuine : ∀ m ∈ own, ∃ n j : Nat, n ≤ d ∧ m.header.chainCounter = n ∧ m.header.seq = j ∧
    KeyAt p held setup.context n j m.key ∧ compressBytes p m.plaintext = .ok m.compressed
  once : ∀ m ∈ own, ∀ m' ∈ own, m.header.chainCounter = m'.header.chainCounter → m.header.seq = m'.header.seq → m = m'
  pkEpoch : ∀ m ∈ own, ∀ m' ∈ own, m.header.pk = m'.header.pk → m.header.chainCounter = m'.header.chainCounter
  pkFresh : ∀ m ∈ own, m.header.pk ≠ setup.pk party
  openingCt : ∀ m ∈ own, m.header.chainCounter = 1 → ∃ draw secret,
    p.hybridEncapsulate (setup.pk party.other) draw = some (m.header.ct, secret) ∧ held secret

/-- The sending chain has grown from a base of epoch `d` to position `i`. -/
structure SendingAt (s : RatchetState Key Sk) (own : List (Sent Key)) (d : Nat) (base : Key) (i : Nat) : Prop where
  depth : BaseAt p held setup.context d base
  chain : s.sendingChainKey = some (chainAt (chainStep p setup.context) base i)
  counter : s.sendingChainCounter = i
  below : ∀ m ∈ own, m.header.chainCounter = d → m.header.seq < i
  begun : ∃ m ∈ own, m.header.chainCounter = d

/-- The key a party published for an epoch: its static key before the first. -/
def PkAt (own : List (Sent Key)) (party : Party) (e : Nat) (pk : String) : Prop :=
  (e = 0 ∧ pk = setup.pk party) ∨ ∃ m ∈ own, m.header.chainCounter = e ∧ pk = m.header.pk

variable {setup} {held}

theorem PkAt.mono {own more : List (Sent Key)} {party : Party} {e : Nat} {pk : String} (subset : own ⊆ more)
    (published : PkAt setup own party e pk) : PkAt setup more party e pk := by
  obtain static | ⟨m, member, same⟩ := published
  · exact .inl static
  · exact .inr ⟨m, subset member, same⟩

theorem Wrote.pkAt_unique {own : List (Sent Key)} {party : Party} {d e e' : Nat} {pk : String}
    (wrote : Wrote held setup own party d) (published : PkAt setup own party e pk)
    (again : PkAt setup own party e' pk) : e = e' := by
  obtain ⟨rfl, rfl⟩ | ⟨m, member, epoch, rfl⟩ := published
  · obtain ⟨rfl, _⟩ | ⟨m, member, _, same⟩ := again
    · rfl
    · exact absurd same.symm (wrote.pkFresh m member)
  · obtain ⟨_, same⟩ | ⟨m', member', epoch', same⟩ := again
    · exact absurd same (wrote.pkFresh m member)
    · have := wrote.pkEpoch m member m' member' same
      omega

variable (setup) (held)

/-- What holds of a party whose last sending epoch is `d` and whose receiving epochs are `r` and, for the keys it
retains, `q`. -/
structure PartyInv (w : World Key Sk) (party : Party) (d r q : Nat) : Prop where
  context : (w.state party).context = setup.context
  counter : (w.state party).chainCounter = (max d r : Nat)
  root : (d = 0 ∧ r = 0 ∧ (w.state party).rootKey = none) ∨
    ∃ root, (w.state party).rootKey = some root ∧ RootAt p held setup.context (max d r) root
  wrote : Wrote held setup (w.sentBy party) party d
  apart : ∀ m ∈ w.sentBy party, m.header.chainCounter ≠ r ∧ m.header.chainCounter ≠ q
  sending : (d = 0 ∧ (w.state party).sendingChainKey = none ∧ w.sentBy party = []) ∨
    ∃ base i, SendingAt held setup (w.state party) (w.sentBy party) d base i
  receiving : Receives p held setup.context (w.state party) (w.seenBy party) r q
  peer : (w.state party).peerPk = "" ∨ PkAt setup (w.sentBy party.other) party.other r (w.state party).peerPk
  epochPeer : 0 < d → ∃ e, e < d ∧ PkAt setup (w.sentBy party.other) party.other e (w.state party).sendingEpochPeerPk
  current : r < d → ∀ m ∈ w.sentBy party, m.header.chainCounter = d →
    m.header.pk = (w.state party).currentPk ∧ m.header.ct = (w.state party).sendingCt
  untouched : d = 0 → r = 0 → (w.state party).currentSk = setup.sk party

/-- Every party is in order, and everything accepted was sent by the peer. -/
structure Inv (w : World Key Sk) : Prop where
  parties : ∀ party, ∃ d r q, PartyInv held setup w party d r q
  faithful : ∀ a ∈ w.accepted, ∃ m ∈ w.sentBy a.party.other, m.header = a.header ∧ m.plaintext = a.plaintext

variable {setup} {held}

theorem inv_start : Inv held setup setup.start := by
  refine ⟨fun party => ⟨0, 0, 0, ?_⟩, by simp [Setup.start]⟩
  have nothing : setup.start.sentBy party = [] := rfl
  refine ⟨rfl, rfl, .inl ⟨rfl, rfl, rfl⟩, ⟨?_, ?_, ?_, ?_, ?_⟩, ?_, .inl ⟨rfl, rfl, rfl⟩,
    .inl ⟨rfl, rfl, ⟨rfl, rfl, rfl, rfl⟩⟩, ?_, ?_, ?_, fun _ _ => rfl⟩
  · simp [nothing]
  · simp [nothing]
  · simp [nothing]
  · simp [nothing]
  · simp [nothing]
  · simp [nothing]
  · simp only [Setup.start, initState]
    split
    · exact .inr (.inl ⟨rfl, rfl⟩)
    · exact .inl rfl
  · intro positive
    exact absurd positive (lt_irrefl 0)
  · intro positive
    exact absurd positive (lt_irrefl 0)

/-- A party's invariant reads its own state, what it sent and accepted, and the keys its peer published. -/
theorem PartyInv.congr {w w' : World Key Sk} {party : Party} {d r q : Nat} (inv : PartyInv held setup w party d r q)
    (state : w'.state party = w.state party) (own : w'.sentBy party = w.sentBy party)
    (peer : w.sentBy party.other ⊆ w'.sentBy party.other) (seen : w'.seenBy party = w.seenBy party) :
    PartyInv held setup w' party d r q := by
  constructor
  · rw [state]; exact inv.context
  · rw [state]; exact inv.counter
  · rw [state]; exact inv.root
  · rw [own]; exact inv.wrote
  · rw [own]; exact inv.apart
  · rw [state, own]; exact inv.sending
  · rw [state, seen]; exact inv.receiving
  · rw [state]
    exact inv.peer.imp_right (PkAt.mono peer)
  · intro positive
    obtain ⟨e, below, published⟩ := inv.epochPeer positive
    rw [state]
    exact ⟨e, below, published.mono peer⟩
  · rw [state, own]; exact inv.current
  · rw [state]; exact inv.untouched

theorem Receives.older {s : RatchetState Key Sk} {seen : List (Int × Int)} {r q : Nat}
    (receives : Receives p held setup.context s seen r q) : q ≤ r := by
  obtain ⟨rfl, rfl, _⟩ | ⟨base, i, receiving⟩ := receives
  · exact le_rfl
  · exact receiving.older.le

theorem Wrote.positive {own : List (Sent Key)} {party : Party} {d : Nat} (wrote : Wrote held setup own party d)
    {m : Sent Key} (member : m ∈ own) : 0 < m.header.chainCounter ∧ m.header.chainCounter ≤ d := by
  obtain ⟨n, j, below, epoch, _, key, _⟩ := wrote.genuine m member
  have := key.positive
  omega

theorem PartyInv.advance {w : World Key Sk} {party : Party} {d r q : Nat} (inv : PartyInv held setup w party d r q)
    {secret : Secret} (kept : (w.state party).rootKey = none → held secret) :
    RootAt p held setup.context (max d r + 1) (advanceRoot p (w.state party).rootKey secret setup.context).1 ∧
      BaseAt p held setup.context (max d r + 1) (advanceRoot p (w.state party).rootKey secret setup.context).2 := by
  obtain ⟨rfl, rfl, empty⟩ | ⟨root, some, depth⟩ := inv.root
  · rw [empty]
    exact advanceRoot_opening (kept empty)
  · rw [some]
    exact advanceRoot_step depth secret

theorem Wrote.cons {own : List (Sent Key)} {party : Party} {d d' n j : Nat} (wrote : Wrote held setup own party d)
    (grown : d ≤ d') {m : Sent Key} (within : n ≤ d') (counter : m.header.chainCounter = n) (seq : m.header.seq = j)
    (key : KeyAt p held setup.context n j m.key) (deflated : compressBytes p m.plaintext = .ok m.compressed)
    (position : ∀ m' ∈ own, m'.header.chainCounter = m.header.chainCounter → m'.header.seq ≠ m.header.seq)
    (pk : ∀ m' ∈ own, m'.header.pk = m.header.pk → m'.header.chainCounter = m.header.chainCounter)
    (unstatic : m.header.pk ≠ setup.pk party)
    (opening : m.header.chainCounter = 1 → ∃ draw secret,
      p.hybridEncapsulate (setup.pk party.other) draw = some (m.header.ct, secret) ∧ held secret) :
    Wrote held setup (m :: own) party d' := by
  constructor
  · rintro m' (_ | ⟨_, member⟩)
    · exact ⟨n, j, within, counter, seq, key, deflated⟩
    · obtain ⟨n', j', below, rest⟩ := wrote.genuine m' member
      exact ⟨n', j', below.trans grown, rest⟩
  · rintro m' (_ | ⟨_, member⟩) m'' (_ | ⟨_, member'⟩) epoch same
    · rfl
    · exact absurd same.symm (position m'' member' epoch.symm)
    · exact absurd same (position m' member epoch)
    · exact wrote.once m' member m'' member' epoch same
  · rintro m' (_ | ⟨_, member⟩) m'' (_ | ⟨_, member'⟩) same
    · rfl
    · exact (pk m'' member' same.symm).symm
    · exact pk m' member same
    · exact wrote.pkEpoch m' member m'' member' same
  · rintro m' (_ | ⟨_, member⟩)
    · exact unstatic
    · exact wrote.pkFresh m' member
  · rintro m' (_ | ⟨_, member⟩) one
    · exact opening one
    · exact wrote.openingCt m' member one

theorem SendingAt.sent {s : RatchetState Key Sk} {own : List (Sent Key)} {epoch : SendingEpoch Key Sk} {d i : Nat}
    {base : Key} {m : Sent Key} (context : s.context = setup.context) (depth : BaseAt p held setup.context d base)
    (chainKey : epoch.chainKey = chainAt (chainStep p setup.context) base i) (position : epoch.seq = i)
    (counter : m.header.chainCounter = (d : Int)) (seq : m.header.seq = i)
    (below : ∀ m' ∈ own, m'.header.chainCounter = (d : Int) → m'.header.seq < i) :
    SendingAt held setup (epoch.after p s) (m :: own) d base (i + 1) := by
  refine ⟨depth, ?_, ?_, ?_, m, List.mem_cons_self, counter⟩
  · rw [SendingEpoch.after, context, chainKey]
    rfl
  · rw [SendingEpoch.after, position]
    push_cast
    rfl
  · rintro m' (_ | ⟨_, member⟩) same
    · rw [seq]
      push_cast
      omega
    · have := below m' member same
      push_cast
      omega

theorem SendingEpoch.current_cons {own : List (Sent Key)} {epoch : SendingEpoch Key Sk} {d : Nat} {m : Sent Key}
    (header : m.header = epoch.header p)
    (older : ∀ m' ∈ own, m'.header.chainCounter = (d : Int) → m'.header.pk = epoch.pk ∧ m'.header.ct = epoch.ct) :
    ∀ m' ∈ m :: own, m'.header.chainCounter = (d : Int) → m'.header.pk = epoch.pk ∧ m'.header.ct = epoch.ct := by
  rintro m' (_ | ⟨_, member⟩) same
  · rw [header]
    exact ⟨rfl, rfl⟩
  · exact older m' member same

theorem PartyInv.opens {w w' : World Key Sk} {party : Party} {d r q d' : Nat} (inv : PartyInv held setup w party d r q)
    (peerWrote : Wrote held setup (w.sentBy party.other) party.other d') {draws : Draws Seed}
    (fresh : FreshDraws setup held w party draws) (addressed : (w.state party).peerPk ≠ "")
    {ct : String} {secret : Secret} {pk : String} {sk : Sk}
    (encapsulated : p.hybridEncapsulate (w.state party).peerPk draws.encapsulation = some (ct, secret))
    (generated : p.hybridKeygen draws.keypair = some (pk, sk)) {epoch : SendingEpoch Key Sk}
    (opened : epoch =
      { rootKey := some (advanceRoot p (w.state party).rootKey secret (w.state party).context).1
        chainKey := (advanceRoot p (w.state party).rootKey secret (w.state party).context).2
        chainCounter := (w.state party).chainCounter + 1, seq := 0, peerPk := (w.state party).peerPk, ct := ct,
        sk := sk, pk := pk })
    {m : Sent Key} (header : m.header = epoch.header p)
    (key : m.key = (chainStep p (w.state party).context epoch.chainKey).1)
    (deflated : compressBytes p m.plaintext = .ok m.compressed)
    (state : w'.state party = epoch.after p (w.state party)) (own : w'.sentBy party = m :: w.sentBy party)
    (peer : w'.sentBy party.other = w.sentBy party.other) (seen : w'.seenBy party = w.seenBy party) :
    PartyInv held setup w' party (max d r + 1) r q := by
  obtain ⟨rooted, based⟩ := inv.advance (fun empty => fresh.kept _ _ empty encapsulated)
  rw [inv.context] at opened key
  obtain ⟨unstatic, unused⟩ := fresh.unused pk sk generated
  have counter : m.header.chainCounter = ((max d r + 1 : Nat) : Int) := by
    rw [header, opened, SendingEpoch.header, inv.counter]
    push_cast
    rfl
  have seq : m.header.seq = 0 := by rw [header, opened, SendingEpoch.header]
  have pkOf : m.header.pk = pk := by rw [header, opened, SendingEpoch.header]
  have ctOf : m.header.ct = ct := by rw [header, opened, SendingEpoch.header]
  have chainKey : epoch.chainKey = (advanceRoot p (w.state party).rootKey secret setup.context).2 := by rw [opened]
  rw [← chainKey] at based
  have published : PkAt setup (w.sentBy party.other) party.other r (w.state party).peerPk :=
    inv.peer.resolve_left addressed
  have old : ∀ m' ∈ w.sentBy party, m'.header.chainCounter ≠ ((max d r + 1 : Nat) : Int) := by
    intro m' member same
    have := (inv.wrote.positive member).2
    omega
  constructor
  · rw [state]; exact inv.context
  · rw [state, SendingEpoch.after, opened]
    simp only [inv.counter]
    push_cast
    omega
  · refine .inr ⟨(advanceRoot p (w.state party).rootKey secret setup.context).1, ?_, ?_⟩
    · rw [state, SendingEpoch.after, opened]
    · rw [Nat.max_eq_left (by omega)]
      exact rooted
  · rw [own]
    refine inv.wrote.cons (by omega) le_rfl counter seq ⟨_, based, key⟩ deflated ?_ ?_ (pkOf ▸ unstatic) ?_
    · intro m' member same
      exact absurd (same.trans counter) (old m' member)
    · intro m' member same
      exact absurd (same.trans pkOf) (unused m' member)
    -- Only a session's first epoch is opened without a root, and then towards the peer's static key.
    · intro one
      have zero : d = 0 ∧ r = 0 := by omega
      obtain ⟨rfl, rfl⟩ := zero
      have static : (w.state party).peerPk = setup.pk party.other := by
        obtain ⟨_, same⟩ | ⟨m', member, epoch, _⟩ := published
        · exact same
        · have := (peerWrote.positive member).1
          omega
      have empty : (w.state party).rootKey = none := by
        obtain ⟨_, _, empty⟩ | ⟨root, _, depth⟩ := inv.root
        · exact empty
        · exact absurd depth.positive (lt_irrefl 0)
      exact ⟨draws.encapsulation, secret, by rw [← static, encapsulated, ctOf], fresh.kept _ _ empty encapsulated⟩
  · rw [own]
    have older := inv.receiving.older
    rintro m' (_ | ⟨_, member⟩)
    · rw [counter]
      constructor <;> omega
    · exact inv.apart m' member
  · rw [state, own]
    exact .inr ⟨epoch.chainKey, 1, .sent inv.context based rfl (by rw [opened]; rfl) counter seq
      (fun m' member same => absurd same (old m' member))⟩
  · rw [seen, state]
    exact inv.receiving.congr rfl rfl rfl rfl
  · rw [peer, state]
    exact inv.peer
  · intro _
    rw [peer, state, SendingEpoch.after, opened]
    exact ⟨r, by omega, published⟩
  · intro _
    rw [own, state]
    exact SendingEpoch.current_cons header (fun m' member same => absurd same (old m' member))
  · intro zero
    omega

/-- As long as the peer's key is the one the sending epoch was opened for, nothing of a later epoch was received. -/
theorem PartyInv.same_epoch {w : World Key Sk} {party : Party} {d r q d' : Nat}
    (inv : PartyInv held setup w party d r q) (peerWrote : Wrote held setup (w.sentBy party.other) party.other d')
    (addressed : (w.state party).peerPk ≠ "") (positive : 0 < d)
    (same : (w.state party).peerPk = (w.state party).sendingEpochPeerPk) : r < d := by
  obtain ⟨e, below, published⟩ := inv.epochPeer positive
  have current := inv.peer.resolve_left addressed
  rw [same] at current
  have := peerWrote.pkAt_unique current published
  omega

theorem PartyInv.continues {w w' : World Key Sk} {party : Party} {d r q d' : Nat}
    (inv : PartyInv held setup w party d r q) (peerWrote : Wrote held setup (w.sentBy party.other) party.other d')
    (addressed : (w.state party).peerPk ≠ "") {chain : Key} (chained : (w.state party).sendingChainKey = some chain)
    (same : (w.state party).peerPk = (w.state party).sendingEpochPeerPk) {epoch : SendingEpoch Key Sk}
    (chosen : epoch =
      { rootKey := (w.state party).rootKey, chainKey := chain, chainCounter := (w.state party).chainCounter
        seq := (w.state party).sendingChainCounter, peerPk := (w.state party).sendingEpochPeerPk
        ct := (w.state party).sendingCt, sk := (w.state party).currentSk, pk := (w.state party).currentPk })
    {m : Sent Key} (header : m.header = epoch.header p)
    (key : m.key = (chainStep p (w.state party).context epoch.chainKey).1)
    (deflated : compressBytes p m.plaintext = .ok m.compressed)
    (state : w'.state party = epoch.after p (w.state party)) (own : w'.sentBy party = m :: w.sentBy party)
    (peer : w'.sentBy party.other = w.sentBy party.other) (seen : w'.seenBy party = w.seenBy party) :
    PartyInv held setup w' party d r q := by
  obtain ⟨_, empty, _⟩ | ⟨base, i, sending⟩ := inv.sending
  · rw [chained] at empty
    cases empty
  have positive := sending.depth.positive
  have behind := inv.same_epoch peerWrote addressed positive same
  have counter : m.header.chainCounter = (d : Int) := by
    rw [header, chosen, SendingEpoch.header, inv.counter, Nat.max_eq_left behind.le]
  have seq : m.header.seq = i := by rw [header, chosen, SendingEpoch.header, sending.counter]
  -- An earlier message of the epoch: the new one repeats its key and its ciphertext.
  obtain ⟨m₀, member₀, epoch₀⟩ := sending.begun
  obtain ⟨pk₀, ct₀⟩ := inv.current behind m₀ member₀ epoch₀
  have pkOf : m.header.pk = m₀.header.pk := by rw [pk₀, header, chosen, SendingEpoch.header]
  have ctOf : m.header.ct = m₀.header.ct := by rw [ct₀, header, chosen, SendingEpoch.header]
  have chainKey : epoch.chainKey = chainAt (chainStep p setup.context) base i := by
    rw [sending.chain] at chained
    cases chained
    rw [chosen]
  rw [inv.context] at key
  have late : ∀ m' ∈ w.sentBy party, m'.header.chainCounter = (d : Int) → m'.header.seq ≠ (i : Int) := by
    intro m' member epoch position
    have := sending.below m' member epoch
    omega
  constructor
  · rw [state]; exact inv.context
  · rw [state, SendingEpoch.after, chosen]
    exact inv.counter
  · rw [state, SendingEpoch.after, chosen]
    exact inv.root
  · rw [own]
    refine inv.wrote.cons le_rfl le_rfl counter seq ⟨base, sending.depth, by rw [key, chainKey]; rfl⟩ deflated ?_ ?_
      (pkOf ▸ inv.wrote.pkFresh m₀ member₀) ?_
    · intro m' member epoch
      rw [seq]
      exact late m' member (epoch.trans counter)
    · intro m' member same
      rw [counter, ← epoch₀]
      exact inv.wrote.pkEpoch m' member m₀ member₀ (same.trans pkOf)
    · intro one
      rw [ctOf]
      exact inv.wrote.openingCt m₀ member₀ (by rw [epoch₀, ← counter, one])
  · rw [own]
    rintro m' (_ | ⟨_, member⟩)
    · rw [counter, ← epoch₀]
      exact inv.apart m₀ member₀
    · exact inv.apart m' member
  · rw [state, own]
    exact .inr ⟨base, i + 1, .sent inv.context sending.depth chainKey (by rw [chosen, sending.counter]) counter seq
      sending.below⟩
  · rw [seen, state]
    exact inv.receiving.congr rfl rfl rfl rfl
  · rw [peer, state]
    exact inv.peer
  · intro _
    rw [peer, state, SendingEpoch.after, chosen]
    exact inv.epochPeer positive
  · intro _
    rw [own, state]
    refine SendingEpoch.current_cons header ?_
    rw [chosen]
    exact inv.current behind
  · intro zero
    omega

/-! ## Accepting a message -/

/-- A ciphertext that opens under a key of an epoch the party did not send in is the peer's, with its own header. -/
theorem PartyInv.sealed (ideal : Ideal p) {w : World Key Sk} {party : Party} {d r q d' n j : Nat}
    (inv : PartyInv held setup w party d r q) (peerWrote : Wrote held setup (w.sentBy party.other) party.other d')
    {header : HeaderOutput} {ciphertext : String} (unforged : Unforged setup held w header ciphertext) {key : Key}
    (depth : KeyAt p held setup.context n j key) (foreign : ∀ m ∈ w.sentBy party, m.header.chainCounter ≠ n)
    {compressed plaintext : Bytes} (opened : p.nip44Decrypt ciphertext key = .ok compressed)
    (inflated : decompressBytes p compressed = .ok plaintext) :
    header.chainCounter = n ∧ header.seq = j ∧
      ∃ m ∈ w.sentBy party.other, m.header = header ∧ m.plaintext = plaintext := by
  obtain ⟨m, member, rfl, rfl, rfl, _⟩ := unforged n j key compressed depth opened
  obtain author | author := Party.eq_or_other m.author party
  -- The party's own messages are of other epochs, and a key belongs to one epoch only.
  · have mine := World.mem_sentBy.mpr ⟨member, author⟩
    obtain ⟨n', j', _, epoch, _, depth', _⟩ := inv.wrote.genuine m mine
    obtain ⟨rfl, _⟩ := depth.unique ideal depth'
    exact absurd epoch (foreign m mine)
  · have theirs := World.mem_sentBy.mpr ⟨member, author⟩
    obtain ⟨n', j', _, epoch, position, depth', deflated⟩ := peerWrote.genuine m theirs
    obtain ⟨rfl, rfl⟩ := depth.unique ideal depth'
    rw [ideal.decompress deflated] at inflated
    cases inflated
    exact ⟨epoch, position, m, theirs, rfl, rfl⟩

theorem PartyInv.received {w w' : World Key Sk} {party : Party} {d r q : Nat} (inv : PartyInv held setup w party d r q)
    {t : RatchetState Key Sk} (state : w'.state party = t)
    (rest : t =
      { w.state party with
        peerPk := t.peerPk, receivingChainKey := t.receivingChainKey, receivingChainCounter := t.receivingChainCounter
        skipped := t.skipped, prevEpochSkipped := t.prevEpochSkipped })
    (own : w'.sentBy party = w.sentBy party) (peer : w'.sentBy party.other = w.sentBy party.other)
    (receiving : Receives p held setup.context t (w'.seenBy party) r q)
    (adopted : t.peerPk = (w.state party).peerPk ∨ PkAt setup (w.sentBy party.other) party.other r t.peerPk) :
    PartyInv held setup w' party d r q := by
  constructor
  · rw [state, rest]; exact inv.context
  · rw [state, rest]; exact inv.counter
  · rw [state, rest]; exact inv.root
  · rw [own]; exact inv.wrote
  · rw [own]; exact inv.apart
  · rw [state, rest, own]
    refine inv.sending.imp id ?_
    rintro ⟨base, i, sending⟩
    exact ⟨base, i, sending.depth, sending.chain, sending.counter, sending.below, sending.begun⟩
  · rw [state]; exact receiving
  · rw [state, peer]
    obtain same | published := adopted
    · rw [same]
      exact inv.peer
    · exact .inr published
  · rw [state, rest, peer]; exact inv.epochPeer
  · rw [state, rest, own]; exact inv.current
  · rw [state, rest]; exact inv.untouched

theorem PartyInv.joinsEpoch {w w' : World Key Sk} {party : Party} {d r q gap : Nat}
    (inv : PartyInv held setup w party d r q) {header : HeaderOutput}
    (next : header.chainCounter = ((max d r + 1 : Nat) : Int)) {root base : Key} {pk : String} {sk : Sk}
    (rooted : RootAt p held setup.context (max d r + 1) root) (based : BaseAt p held setup.context (max d r + 1) base)
    (state : w'.state party =
      { joined (w.state party) header root pk sk with
        peerPk := header.pk
        skipped := (gapKeys p setup.context base 0 gap).foldl (push maxRatchetWindow) []
        receivingChainKey := some (chainAt (chainStep p setup.context) base (gap + 1))
        receivingChainCounter := gap + 1 })
    (own : w'.sentBy party = w.sentBy party) (peer : w'.sentBy party.other = w.sentBy party.other)
    (seen : w'.seenBy party = (((max d r + 1 : Nat) : Int), (gap : Int)) :: w.seenBy party)
    (published : PkAt setup (w.sentBy party.other) party.other (max d r + 1) header.pk) :
    PartyInv held setup w' party d (max d r + 1) r := by
  have ahead : max d (max d r + 1) = max d r + 1 := by omega
  constructor
  · rw [state]; exact inv.context
  · rw [state, ahead]; exact next
  · rw [state, ahead]
    exact .inr ⟨root, rfl, rooted⟩
  · rw [own]; exact inv.wrote
  · rw [own]
    intro m member
    have := inv.wrote.positive member
    exact ⟨by omega, (inv.apart m member).1⟩
  · rw [state, own]
    refine inv.sending.imp id ?_
    rintro ⟨base, i, sending⟩
    exact ⟨base, i, sending.depth, sending.chain, sending.counter, sending.below, sending.begun⟩
  · rw [state, seen]
    exact inv.receiving.joins (by omega) based rfl rfl rfl rfl
  · rw [state, peer]
    exact .inr published
  · rw [state, peer]; exact inv.epochPeer
  · intro behind
    omega
  · intro _ zero
    omega

theorem PartyInv.root_none {w : World Key Sk} {party : Party} {d r q : Nat} (inv : PartyInv held setup w party d r q)
    (empty : (w.state party).rootKey = none) : d = 0 ∧ r = 0 := by
  obtain ⟨rfl, rfl, _⟩ | ⟨root, some, _⟩ := inv.root
  · exact ⟨rfl, rfl⟩
  · rw [empty] at some
    cases some

theorem PartyInv.opening_held (ideal : Ideal p) {w : World Key Sk} {party : Party} {d r q d' : Nat}
    (inv : PartyInv held setup w party d r q) (peerWrote : Wrote held setup (w.sentBy party.other) party.other d')
    {header : HeaderOutput} (admitted : peerOpenings w party header)
    (next : header.chainCounter = (w.state party).chainCounter + 1) {secret : Secret}
    (decapsulated : p.hybridDecapsulate header.ct (w.state party).currentSk = some secret)
    (empty : (w.state party).rootKey = none) : held secret := by
  obtain ⟨rfl, rfl⟩ := inv.root_none empty
  obtain ⟨m, member, rfl⟩ := admitted empty
  obtain ⟨draw, shared, encapsulated, kept⟩ := peerWrote.openingCt m member (by rw [next, inv.counter]; rfl)
  rw [Party.other_other] at encapsulated
  have same := ideal.decapsulates (setup.generated party) encapsulated
  rw [inv.untouched rfl rfl, same] at decapsulated
  cases decapsulated
  exact kept

/-- Where the receiving epoch is the current one, the party has sent in earlier epochs only. -/
theorem PartyInv.ahead {w : World Key Sk} {party : Party} {d r q : Nat} (inv : PartyInv held setup w party d r q)
    {header : HeaderOutput} {ciphertext : String} (near : Admitted (w.state party) header ciphertext)
    (current : header.chainCounter + 1 ≠ (w.state party).chainCounter) (epoch : header.chainCounter = r) :
    ∀ m ∈ w.sentBy party, m.header.chainCounter < header.chainCounter := by
  intro m member
  have recent := near.recent
  have close := near.near
  have positive := inv.wrote.positive member
  have apart := inv.apart m member
  rw [inv.counter] at current recent close
  omega

/-- A message that decrypts leaves the party in order, was sent by the peer, and is of an epoch after every one the
party has sent in. -/
theorem PartyInv.accepts (ideal : Ideal p) {w v : World Key Sk} {party : Party} {d r q d' : Nat}
    (inv : PartyInv held setup w party d r q) (peerWrote : Wrote held setup (w.sentBy party.other) party.other d')
    {header : HeaderOutput} {ciphertext : String} {keypair : Seed} {plaintext : Bytes}
    (unforged : Unforged setup held w header ciphertext) (admitted : peerOpenings w party header)
    (decrypted : decryptRatchet p (w.state party) header ciphertext keypair = .ok (v.state party, plaintext))
    (own : v.sentBy party = w.sentBy party) (peer : v.sentBy party.other = w.sentBy party.other)
    (seen : v.seenBy party = (header.chainCounter, header.seq) :: w.seenBy party) :
    (∃ r' q', PartyInv held setup v party d r' q') ∧
      (∃ m ∈ w.sentBy party.other, m.header = header ∧ m.plaintext = plaintext) ∧
      ∀ m ∈ w.sentBy party, m.header.chainCounter < header.chainCounter := by
  obtain ⟨near, receiving, taken, compressed, joins, found, opened, inflated, adopted⟩ := decryptRatchet_ok decrypted
  obtain ⟨next, secret, pk, sk, decapsulated, _, rfl⟩ | ⟨other, chain, chained, rfl⟩ := receivingEpoch_ok joins
  · obtain ⟨rooted, based⟩ := inv.advance (inv.opening_held ideal peerWrote admitted next decapsulated)
    rw [inv.counter] at next
    rw [← inv.context] at rooted based
    -- After a root step the buffer is empty and the chain at its base, so the key is a new one.
    cases messageKey_ok found with
    | late previous _ => rw [inv.counter] at previous; omega
    | kept _ _ taken => cases taken
    | advanced gap _ position _ =>
      rw [inv.context] at rooted based opened adopted
      have foreign : ∀ m ∈ w.sentBy party, m.header.chainCounter ≠ ((max d r + 1 : Nat) : Int) := by
        intro m member
        have := inv.wrote.positive member
        omega
      obtain ⟨epoch, sequence, m, member, rfl, text⟩ :=
        inv.sealed ideal peerWrote unforged ⟨_, based, rfl⟩ foreign opened inflated
      obtain ⟨_, state⟩ | ⟨mac, _⟩ := adoptPeerKey_ok adopted
      · rw [sequence] at state
        rw [epoch, sequence] at seen
        have published : PkAt setup (w.sentBy party.other) party.other (max d r + 1) m.header.pk :=
          .inr ⟨m, member, epoch, rfl⟩
        refine ⟨⟨_, _, inv.joinsEpoch epoch rooted based state own peer seen published⟩, ⟨m, member, rfl, text⟩, ?_⟩
        intro m' mine
        have := inv.wrote.positive mine
        omega
      · cases mac
  · obtain ⟨_, _, unheard⟩ | ⟨base, i, received⟩ := inv.receiving
    · rw [unheard.chain] at chained
      cases chained
    · rw [received.chain] at chained
      cases chained
      cases messageKey_ok found with
      | @late key rest previous taken =>
        obtain ⟨member, rfl⟩ := takeSkipped_ok taken
        obtain ⟨j, position, depth, unseen⟩ := received.late _ member
        obtain ⟨epoch, sequence, m, sent, same, text⟩ :=
          inv.sealed ideal peerWrote unforged depth (fun m member => (inv.apart m member).2) opened inflated
        obtain ⟨mac, _⟩ | ⟨_, state⟩ := adoptPeerKey_ok adopted
        · cases mac
        -- The header of a late message is not verified, and its key is not adopted.
        · refine ⟨⟨r, q, inv.received state rfl own peer (.inr ⟨base, i, ?_⟩) (.inl rfl)⟩, ⟨m, sent, same, text⟩, ?_⟩
          · rw [seen, epoch, sequence]
            exact received.takesLate unseen rfl rfl rfl rfl
          · intro m' mine
            have := inv.wrote.positive mine
            have := inv.apart m' mine
            have := received.older
            rw [inv.counter] at previous
            omega
      | @kept key rest current before taken =>
        obtain ⟨member, rfl⟩ := takeSkipped_ok taken
        obtain ⟨j, small, entry, unseen⟩ := received.kept _ member
        obtain ⟨sequence, rfl⟩ := SkippedKey.mk.inj entry
        obtain ⟨epoch, _, m, sent, same, text⟩ := inv.sealed ideal peerWrote unforged ⟨base, received.depth, rfl⟩
          (fun m member => (inv.apart m member).1) opened inflated
        obtain ⟨_, state⟩ | ⟨mac, _⟩ := adoptPeerKey_ok adopted
        · refine ⟨⟨r, q, inv.received state rfl own peer (.inr ⟨base, i, ?_⟩)
            (.inr (.inr ⟨m, sent, same ▸ epoch, same ▸ rfl⟩))⟩, ⟨m, sent, same, text⟩,
            inv.ahead near current epoch⟩
          rw [seen, epoch, sequence]
          exact received.takes small unseen rfl rfl rfl rfl
        · cases mac
      | advanced gap current position _ =>
        rw [received.counter] at position
        rw [inv.context, KeyChain.keyAt_add] at opened
        rw [inv.context, received.counter, KeyChain.chainAt_add] at adopted
        obtain ⟨epoch, sequence, m, sent, same, text⟩ := inv.sealed ideal peerWrote unforged
          ⟨base, received.depth, rfl⟩ (fun m member => (inv.apart m member).1) opened inflated
        obtain ⟨_, state⟩ | ⟨mac, _⟩ := adoptPeerKey_ok adopted
        · refine ⟨⟨r, q, inv.received state rfl own peer (.inr ⟨base, i + gap + 1, ?_⟩)
            (.inr (.inr ⟨m, sent, same ▸ epoch, same ▸ rfl⟩))⟩, ⟨m, sent, same, text⟩,
            inv.ahead near current epoch⟩
          rw [seen, epoch, sequence]
          exact received.advances (by rw [Nat.add_assoc]) rfl rfl rfl
        · cases mac

/-! ## Runs -/

theorem Inv.encrypts {w : World Key Sk} (inv : Inv held setup w) {draws : Draws Seed} {m : Sent Key}
    {epoch : SendingEpoch Key Sk} {after : RatchetState Key Sk} (fresh : FreshDraws setup held w m.author draws)
    (encrypted : encryptRatchet p (w.state m.author) m.plaintext draws = .ok (after, m.header, m.ciphertext))
    (chosen : sendingEpoch p (w.state m.author) draws = .ok epoch)
    (deflated : compressBytes p m.plaintext = .ok m.compressed)
    (key : m.key = (chainStep p (w.state m.author).context epoch.chainKey).1) : Inv held setup (w.send m after) := by
  obtain ⟨_, addressed, epoch', _, chosen', _, _, rfl, header⟩ := encryptRatchet_ok encrypted
  rw [chosen] at chosen'
  cases chosen'
  obtain ⟨d, r, q, mine⟩ := inv.parties m.author
  obtain ⟨d', r', q', theirs⟩ := inv.parties m.author.other
  have own := w.sentBy_send m (epoch.after p (w.state m.author)) m.author
  have peer := w.sentBy_send m (epoch.after p (w.state m.author)) m.author.other
  rw [if_pos rfl] at own
  rw [if_neg (Party.other_ne m.author).symm] at peer
  constructor
  · intro one
    obtain rfl | rfl := Party.eq_or_other one m.author
    · have state := w.state_send_self m (epoch.after p (w.state m.author)) rfl
      obtain ⟨ct, secret, pk, sk, encapsulated, generated, opened⟩ | ⟨chain, chained, same, continued⟩ :=
        sendingEpoch_ok chosen
      · exact ⟨_, _, _, mine.opens theirs.wrote fresh addressed encapsulated generated opened header key deflated state
          own peer rfl⟩
      · exact ⟨_, _, _, mine.continues theirs.wrote addressed chained same continued header key deflated state own
          peer rfl⟩
    · refine ⟨d', r', q', theirs.congr (w.state_send_other m _ rfl) peer ?_ rfl⟩
      rw [Party.other_other, own]
      exact List.subset_cons_self _ _
  · intro a member
    obtain ⟨m', sent, same⟩ := inv.faithful a member
    refine ⟨m', ?_, same⟩
    rw [World.sentBy_send]
    split
    · exact List.mem_cons_of_mem _ sent
    · exact sent

theorem Inv.delivers (ideal : Ideal p) {w : World Key Sk} (inv : Inv held setup w) {keypair : Seed} {a : Accepted}
    {ciphertext : String} {after : RatchetState Key Sk} (unforged : Unforged setup held w a.header ciphertext)
    (admitted : peerOpenings w a.party a.header)
    (decrypted : decryptRatchet p (w.state a.party) a.header ciphertext keypair = .ok (after, a.plaintext)) :
    Inv held setup (w.accept a after) ∧
      ∀ m ∈ w.sentBy a.party, m.header.chainCounter < a.header.chainCounter := by
  obtain ⟨d, r, q, mine⟩ := inv.parties a.party
  obtain ⟨d', r', q', theirs⟩ := inv.parties a.party.other
  have seen := w.seenBy_accept a after a.party
  rw [if_pos rfl] at seen
  rw [← w.state_accept_self a after rfl] at decrypted
  obtain ⟨received, sent, ahead⟩ := mine.accepts ideal theirs.wrote unforged admitted decrypted rfl rfl seen
  refine ⟨⟨?_, ?_⟩, ahead⟩
  · intro one
    obtain rfl | rfl := Party.eq_or_other one a.party
    · exact ⟨d, received⟩
    · refine ⟨d', r', q', theirs.congr (w.state_accept_other a after rfl) rfl (List.Subset.refl _) ?_⟩
      rw [World.seenBy_accept, if_neg (Party.other_ne a.party).symm]
  · rintro other (_ | ⟨_, member⟩)
    · exact sent
    · exact inv.faithful other member

theorem inv_of_reachable (ideal : Ideal p) {w : World Key Sk} (run : Reachable setup held peerOpenings w) :
    Inv held setup w := by
  induction run with
  | refl => exact inv_start
  | tail _ step ih =>
    cases step with
    | encrypt draws fresh encrypted chosen deflated key => exact ih.encrypts fresh encrypted chosen deflated key
    | deliver keypair unforged admitted decrypted => exact (ih.delivers ideal unforged admitted decrypted).1

/-- With openings taken from the peer only, whatever a party accepts at a position is what its peer encrypted there,
and no position is accepted twice. -/
theorem accepted_from_peer (ideal : Ideal p) {w : World Key Sk} (run : Reachable setup held peerOpenings w) :
    (∀ a ∈ w.accepted,
      (∃ m ∈ w.sentBy a.party.other, m.header.chainCounter = a.header.chainCounter ∧ m.header.seq = a.header.seq) ∧
      ∀ m ∈ w.sentBy a.party.other, m.header.chainCounter = a.header.chainCounter → m.header.seq = a.header.seq →
        m.plaintext = a.plaintext) ∧
    ∀ party, (w.seenBy party).Nodup := by
  have inv := inv_of_reachable ideal run
  constructor
  · intro a member
    obtain ⟨m, sent, same, text⟩ := inv.faithful a member
    obtain ⟨d, r, q, peer⟩ := inv.parties a.party.other
    refine ⟨⟨m, sent, by rw [same], by rw [same]⟩, ?_⟩
    intro m' sent' epoch position
    rw [← same] at epoch position
    rw [peer.wrote.once m' sent' m sent epoch position, text]
  · intro party
    obtain ⟨d, r, q, inv⟩ := inv.parties party
    exact inv.receiving.nodup

end Party

/-! ## Runs over the transcript primitives -/

section Transcribed

open Transcript

def seedOf : Party → UInt8
  | .alice => 1
  | .bob => 2

def acquainted : Setup primitives where
  context := "dm"
  seed := seedOf
  pk party := pkOf (seedOf party)
  sk := seedOf
  generated _ := rfl
  knows _ := true

def partyDraw (secret : Bytes) : Prop := secret.head? ≠ some 7

theorem pkOf_inj {first second : UInt8} (same : pkOf first = pkOf second) : first = second := by
  have lists := Text.hexEncode_inj same
  simp only [hybridPkLen] at lists
  exact List.eq_of_mem_replicate (n := 1217) (lists ▸ List.mem_replicate.mpr ⟨by decide, rfl⟩)

theorem stranger_key {context : String} {secret : Bytes} (strange : ¬ partyDraw secret) {n i : Nat} :
    ¬ KeyAt primitives partyDraw context n i
      (keyAt (chainStep primitives context) (primitives.deriveChain (primitives.initRoot secret context) context) 0) := by
  rintro ⟨base, depth, same⟩
  have own : BaseAt primitives (fun _ => True) context 1
      (primitives.deriveChain (primitives.initRoot secret context) context) := .opening trivial
  obtain ⟨rfl, _⟩ := KeyChain.keyAt_inj (next_inj ideal) (fun _ _ keys => (ideal.key_context keys).1)
    (own.fresh ideal) (depth.fresh ideal) same
  generalize twin : primitives.deriveChain (primitives.initRoot secret context) context = base at depth
  cases depth with
  | opening kept =>
    have roots := (Derivation.chain.inj (ideal.separates (x := .chain _ _) (y := .chain _ _) twin)).1
    have secrets := (Derivation.initRoot.inj (ideal.separates (x := .initRoot _ _) (y := .initRoot _ _) roots)).1
    exact strange (secrets ▸ kept)
  | step => cases ideal.separates (x := .chain _ _) (y := .stepChain _ _ _) twin

def stranger : RatchetState Bytes UInt8 := initState (pkOf 2) "dm" 9 (pkOf 9)

theorem context_start (party : Party) : (acquainted.start.state party).context = "dm" := rfl

theorem short_openingText (state : RatchetState Bytes UInt8) (fresh : state.rootKey = none)
    (context : state.context = "dm") (draws : Draws UInt8) :
    byteLen (openingText state 2 draws [0x68, 0x69]) ≤ maxRatchetCiphertext := by
  rw [byteLen_openingText fresh, context]
  decide

/-- A first message sealed by somebody who drew the secret himself: bob accepts it, and alice has sent nothing. -/
theorem forged_opening_accepted :
    ∃ w : World Bytes UInt8, Reachable acquainted partyDraw anyone w ∧
      ∃ a ∈ w.accepted, a.party = .bob ∧ a.plaintext = [0x68, 0x69] ∧ w.sentBy .alice = [] := by
  have encrypted := @encryptRatchet_opening stranger 2 ⟨7, 8, 5⟩ [0x68, 0x69] rfl rfl rfl (by decide)
  have short := short_openingText stranger rfl rfl ⟨7, 8, 5⟩
  obtain ⟨opened, decrypted, _⟩ := @Ideal.first_message_opens _ _ _ _ primitives ideal stranger _
    (acquainted.start.state .bob) 2 (keygen_eq 2) rfl (context_start .bob) ⟨rfl, rfl⟩ ⟨rfl, rfl⟩ rfl _ _ _ _ encrypted
    short 10
  have unforged : Unforged acquainted partyDraw acquainted.start ((opening stranger 2 ⟨7, 8, 5⟩).header primitives)
      (openingText stranger 2 ⟨7, 8, 5⟩ [0x68, 0x69]) := by
    intro n i key text depth opens
    have sealed : primitives.nip44Encrypt (rawPlaintextTag :: [0x68, 0x69])
        (chainStep primitives stranger.context (opening stranger 2 ⟨7, 8, 5⟩).chainKey).1 5 =
          .ok (openingText stranger 2 ⟨7, 8, 5⟩ [0x68, 0x69]) := rfl
    rw [ideal.refuses sealed opens] at depth
    exact absurd depth (stranger_key (by simp [partyDraw]))
  let a : Accepted := ⟨.bob, (opening stranger 2 ⟨7, 8, 5⟩).header primitives, [0x68, 0x69]⟩
  exact ⟨acquainted.start.accept a opened, .tail .refl (.deliver 10 unforged trivial decrypted), a, List.mem_cons_self,
    rfl, rfl, rfl⟩

theorem first_draws_fresh : FreshDraws acquainted partyDraw acquainted.start .alice ⟨3, 4, 5⟩ := by
  constructor
  · intro pk sk generated
    have drawn := (keygen_eq 4).symm.trans generated
    simp only [Option.some.injEq, Prod.mk.injEq] at drawn
    obtain ⟨rfl, rfl⟩ := drawn
    exact ⟨fun same => absurd (pkOf_inj same) (by decide), fun m member => by cases member⟩
  · intro ct secret _ encapsulated
    have peer : (acquainted.start.state .alice).peerPk = pkOf 2 := rfl
    rw [peer, encapsulate_pkOf] at encapsulated
    simp only [Option.some.injEq, Prod.mk.injEq] at encapsulated
    rw [← encapsulated.2]
    simp [partyDraw]

/-- Alice writes to bob, and bob accepts what she wrote. -/
theorem accepted_from_peer_run :
    ∃ w : World Bytes UInt8, Reachable acquainted partyDraw peerOpenings w ∧ w.accepted ≠ [] ∧
      (∀ a ∈ w.accepted,
        (∃ m ∈ w.sentBy a.party.other, m.header.chainCounter = a.header.chainCounter ∧ m.header.seq = a.header.seq) ∧
        ∀ m ∈ w.sentBy a.party.other, m.header.chainCounter = a.header.chainCounter → m.header.seq = a.header.seq →
          m.plaintext = a.plaintext) ∧
      ∀ party, (w.seenBy party).Nodup := by
  have encrypted := @encryptRatchet_opening (acquainted.start.state .alice) 2 ⟨3, 4, 5⟩ [0x68, 0x69] rfl rfl rfl
    (by decide)
  have short := short_openingText (acquainted.start.state .alice) rfl rfl ⟨3, 4, 5⟩
  obtain ⟨opened, decrypted, _⟩ := @Ideal.first_message_opens _ _ _ _ primitives ideal (acquainted.start.state .alice) _
    (acquainted.start.state .bob) 2 (keygen_eq 2) rfl (context_start .bob) ⟨rfl, rfl⟩ ⟨rfl, rfl⟩ rfl _ _ _ _ encrypted
    short 10
  generalize (opening (acquainted.start.state .alice) 2 ⟨3, 4, 5⟩).header primitives = header at encrypted decrypted
  generalize openingText (acquainted.start.state .alice) 2 ⟨3, 4, 5⟩ [0x68, 0x69] = ciphertext at encrypted decrypted
  generalize SendingEpoch.after primitives _ _ = after at encrypted
  obtain ⟨_, _, epoch, compressed, chosen, deflated, sealed, _, _⟩ := encryptRatchet_ok encrypted
  let m : Sent Bytes :=
    { author := .alice, key := (chainStep primitives (acquainted.start.state .alice).context epoch.chainKey).1
      header := header, plaintext := [0x68, 0x69], compressed := compressed, ciphertext := ciphertext }
  have sends : Step acquainted partyDraw peerOpenings acquainted.start (acquainted.start.send m after) :=
    .encrypt ⟨3, 4, 5⟩ first_draws_fresh encrypted chosen deflated rfl
  have unforged : Unforged acquainted partyDraw (acquainted.start.send m after) header ciphertext := by
    intro n i used bytes _ opens
    have right := ideal.refuses sealed opens
    have plain := ideal.opens sealed
    rw [← right, opens] at plain
    cases plain
    exact ⟨m, List.mem_cons_self, right.symm, rfl, rfl, rfl⟩
  have admitted : peerOpenings (acquainted.start.send m after) .bob header := fun _ =>
    ⟨m, World.mem_sentBy.mpr ⟨List.mem_cons_self, rfl⟩, rfl⟩
  let a : Accepted := ⟨.bob, header, [0x68, 0x69]⟩
  have run : Reachable acquainted partyDraw peerOpenings ((acquainted.start.send m after).accept a opened) :=
    .tail (.tail .refl sends) (.deliver 10 unforged admitted decrypted)
  exact ⟨_, run, List.cons_ne_nil _ _, accepted_from_peer ideal run⟩

end Transcribed
end Soshal.Crypto
