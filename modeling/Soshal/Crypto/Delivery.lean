import Soshal.Crypto.Authenticity

/-! Which messages of an honest peer open.

Without an attacker the two parties are always in one of three positions: neither
has sent; both have opened the session, and nothing opens any more; or one of them
leads, having opened the last epoch, and the other is about to join that epoch or
has joined it. A message opens exactly when its receiver has sent nothing in its
epoch or a later one.
-/

set_option autoImplicit false

namespace Soshal.Crypto

open Library
open Library.KeyChain (push shiftIn chainAt keyAt)
open Library.Text (byteLen)

variable {Key Sk Secret Seed : Type} {p : Primitives Key Sk Secret Seed}

structure Net (Key Sk : Type) where
  world : World Key Sk
  delivered : List (Sent Key)

/-- The keys a chain keeps and those the message makes it skip fit the window. -/
def InWindow (s : RatchetState Key Sk) (header : HeaderOutput) : Prop :=
  -- A new epoch starts with an empty buffer; a header of any other epoch makes the chain skip nothing.
  (header.chainCounter = s.chainCounter + 1 → header.seq ≤ maxRatchetWindow) ∧
  (header.chainCounter = s.chainCounter → s.skipped.length + (header.seq - s.receivingChainCounter) ≤ maxRatchetWindow)

section Run

variable (setup : Setup p)

/-- Every message is delivered to the peer of its author at most once, in any order, within the window. -/
inductive Exchange : Net Key Sk → Net Key Sk → Prop where
  | encrypt {net : Net Key Sk} (draws : Draws Seed) {m : Sent Key} {epoch : SendingEpoch Key Sk}
      {after : RatchetState Key Sk} : FreshDraws setup (fun _ => True) net.world m.author draws →
      encryptRatchet p (net.world.state m.author) m.plaintext draws = .ok (after, m.header, m.ciphertext) →
      sendingEpoch p (net.world.state m.author) draws = .ok epoch → compressBytes p m.plaintext = .ok m.compressed →
      m.key = (chainStep p (net.world.state m.author).context epoch.chainKey).1 →
      Exchange net { net with world := net.world.send m after }
  | accept {net : Net Key Sk} (party : Party) (keypair : Seed) {m : Sent Key} {after : RatchetState Key Sk}
      {text : Bytes} : m ∈ net.world.sentBy party.other → m ∉ net.delivered →
      InWindow (net.world.state party) m.header →
      decryptRatchet p (net.world.state party) m.header m.ciphertext keypair = .ok (after, text) →
      Exchange net ⟨net.world.accept ⟨party, m.header, text⟩ after, m :: net.delivered⟩
  | refuse {net : Net Key Sk} (party : Party) (keypair : Seed) {m : Sent Key} {error : String} :
      m ∈ net.world.sentBy party.other → m ∉ net.delivered → InWindow (net.world.state party) m.header →
      decryptRatchet p (net.world.state party) m.header m.ciphertext keypair = .error error →
      Exchange net { net with delivered := m :: net.delivered }

def Exchanged (net : Net Key Sk) : Prop := Relation.ReflTransGen (Exchange setup) ⟨setup.start, []⟩ net

/-! ## Where the two parties stand -/

/-- A message of the epoch that a root and a base belong to. -/
structure OfEpoch (s : RatchetState Key Sk) (root base : Key) (m : Sent Key) : Prop where
  key : ∃ j : Nat, m.header.seq = j ∧ m.key = keyAt (chainStep p setup.context) base j
  pk : m.header.pk = s.currentPk
  ct : m.header.ct = s.sendingCt
  mac : verifyHeaderMac p (some root) m.header = true

/-- A party whose last root step opened its own sending epoch `n`. -/
structure Holds (s : RatchetState Key Sk) (own : List (Sent Key)) (n : Nat) (root base : Key) : Prop where
  version : s.version = ratchetVersion
  context : s.context = setup.context
  counter : s.chainCounter = n
  rooted : s.rootKey = some root
  chain : ∃ i : Nat, s.sendingChainKey = some (chainAt (chainStep p setup.context) base i) ∧ s.sendingChainCounter = i
  peer : s.peerPk = s.sendingEpochPeerPk
  pair : ∃ seed, p.hybridKeygen seed = some (s.currentPk, s.currentSk)
  ctLength : byteLen s.sendingCt = hybridCtLen * 2
  sent : ∀ m ∈ own, m.header.chainCounter ≤ n
  current : ∀ m ∈ own, m.header.chainCounter = n → OfEpoch setup s root base m
  begun : ∃ m ∈ own, m.header.chainCounter = n

/-- A party that has not joined the epoch `n` its peer has opened. -/
structure Waits (s : RatchetState Key Sk) (own : List (Sent Key)) (n : Nat) (root base : Key) (ct : String) : Prop where
  version : s.version = ratchetVersion
  context : s.context = setup.context
  counter : s.chainCounter + 1 = n
  shared : ∃ secret, p.hybridDecapsulate ct s.currentSk = some secret ∧
    advanceRoot p s.rootKey secret setup.context = (root, base)
  own : (n = 1 ∧ own = [] ∧ s.sendingChainKey = none) ∨ ∃ k root' base', n = k + 1 ∧ Holds setup s own k root' base'

/-- A party that has joined epoch `n`, and keeps the key of every message of it that it has not accepted. -/
structure Follows (s : RatchetState Key Sk) (own : List (Sent Key)) (seen : List (Int × Int)) (n : Nat)
    (root base : Key) (pk : String) : Prop where
  version : s.version = ratchetVersion
  context : s.context = setup.context
  counter : s.chainCounter = n
  rooted : s.rootKey = some root
  chain : ∃ i : Nat, s.receivingChainKey = some (chainAt (chainStep p setup.context) base i) ∧
    s.receivingChainCounter = i ∧
    ∀ j : Nat, j < i → ((n : Int), (j : Int)) ∈ seen ∨ ⟨j, keyAt (chainStep p setup.context) base j⟩ ∈ s.skipped
  peer : s.peerPk = pk
  sent : ∀ m ∈ own, m.header.chainCounter < n
  begun : n = 1 ∨ ∃ m ∈ own, m.header.chainCounter + 1 = n

inductive Phase (w : World Key Sk) : Prop where
  | fresh : (∀ party, w.state party = setup.start.state party) → w.sent = [] → Phase w
  | crossed : (∀ party, ∃ root base, Holds setup (w.state party) (w.sentBy party) 1 root base) → Phase w
  | led (leader : Party) {n : Nat} {root base : Key} :
      Holds setup (w.state leader) (w.sentBy leader) n root base →
      (Waits setup (w.state leader.other) (w.sentBy leader.other) n root base (w.state leader).sendingCt ∨
        Follows setup (w.state leader.other) (w.sentBy leader.other) (w.seenBy leader.other) n root base
          (w.state leader).currentPk) → Phase w

/-- What every message is, whatever became of it. -/
structure Genuine (m : Sent Key) : Prop where
  sealed : ∃ nonce, p.nip44Encrypt m.compressed m.key nonce = .ok m.ciphertext
  deflated : compressBytes p m.plaintext = .ok m.compressed
  version : m.header.version = ratchetVersion
  pkLength : byteLen m.header.pk = hybridPkLen * 2
  ctLength : byteLen m.header.ct = hybridCtLen * 2

structure NetInv (net : Net Key Sk) : Prop where
  reached : Reachable setup (fun _ => True) peerOpenings net.world
  genuine : ∀ m ∈ net.world.sent, Genuine (p := p) m
  phase : Phase setup net.world
  seen : ∀ party, ∀ x ∈ net.world.seenBy party,
    ∃ m ∈ net.delivered, m ∈ net.world.sentBy party.other ∧ x = (m.header.chainCounter, m.header.seq)

variable {setup}

/-! ## Sending -/

section

variable {s : RatchetState Key Sk} {own : List (Sent Key)} {n : Nat} {root base : Key} {m : Sent Key}

theorem Holds.genuine (ideal : Ideal p) (holds : Holds setup s own n root base) (member : m ∈ own)
    (current : m.header.chainCounter = n) :
    byteLen m.header.pk = hybridPkLen * 2 ∧ byteLen m.header.ct = hybridCtLen * 2 := by
  have epoch := holds.current m member current
  obtain ⟨seed, generated⟩ := holds.pair
  rw [epoch.pk, epoch.ct]
  exact ⟨ideal.pkLength generated, holds.ctLength⟩

theorem Holds.continues (holds : Holds setup s own n root base) {draws : Draws Seed} {epoch : SendingEpoch Key Sk}
    (chosen : sendingEpoch p s draws = .ok epoch) (header : m.header = epoch.header p)
    (key : m.key = (chainStep p s.context epoch.chainKey).1) :
    Holds setup (epoch.after p s) (m :: own) n root base ∧ m.header.chainCounter = n ∧
      (epoch.after p s).currentPk = s.currentPk ∧ (epoch.after p s).currentSk = s.currentSk ∧
      (epoch.after p s).sendingCt = s.sendingCt ∧ (epoch.after p s).rootKey = s.rootKey ∧
      (epoch.after p s).chainCounter = s.chainCounter := by
  obtain ⟨i, chained, position⟩ := holds.chain
  rw [sendingEpoch_continues chained holds.peer] at chosen
  cases chosen
  have counter : m.header.chainCounter = n := by rw [header, ← holds.counter]; rfl
  refine ⟨⟨rfl, holds.context, holds.counter, holds.rooted, ⟨i + 1, ?_, ?_⟩, holds.peer, holds.pair, holds.ctLength,
    ?_, ?_, ⟨m, List.mem_cons_self, counter⟩⟩, counter, rfl, rfl, rfl, rfl, rfl⟩
  · simp only [SendingEpoch.after, holds.context]
    rfl
  · simp only [SendingEpoch.after, position, Nat.cast_add, Nat.cast_one]
  · rintro m' (_ | ⟨_, member⟩)
    · exact counter.le
    · exact holds.sent m' member
  · rintro m' (_ | ⟨_, member⟩) same
    · refine ⟨⟨i, ?_, ?_⟩, ?_, ?_, ?_⟩
      · rw [header, ← position]
        rfl
      · rw [key, holds.context]
        rfl
      · rw [header]
        rfl
      · rw [header]
        rfl
      · rw [header, ← holds.rooted]
        exact verifyHeaderMac_header _
    · obtain ⟨keyed, pk, ct, mac⟩ := holds.current m' member same
      exact ⟨keyed, pk, ct, mac⟩

theorem Holds.opened (ideal : Ideal p) (context : s.context = setup.context) (counter : s.chainCounter = n)
    (older : ∀ m ∈ own, m.header.chainCounter ≤ n) {draws : Draws Seed} {ct : String} {secret : Secret} {pk : String}
    {sk : Sk} (advanced : advanceRoot p s.rootKey secret setup.context = (root, base))
    (encapsulated : p.hybridEncapsulate s.peerPk draws.encapsulation = some (ct, secret))
    (generated : p.hybridKeygen draws.keypair = some (pk, sk)) {epoch : SendingEpoch Key Sk} (opened : epoch =
      { rootKey := some (advanceRoot p s.rootKey secret s.context).1
        chainKey := (advanceRoot p s.rootKey secret s.context).2
        chainCounter := s.chainCounter + 1, seq := 0, peerPk := s.peerPk, ct := ct, sk := sk, pk := pk })
    (header : m.header = epoch.header p) (key : m.key = (chainStep p s.context epoch.chainKey).1) :
    Holds setup (epoch.after p s) (m :: own) (n + 1) root base ∧ m.header.chainCounter = (n + 1 : Nat) ∧
      (epoch.after p s).sendingCt = ct := by
  rw [context, advanced] at opened
  subst opened
  have next : m.header.chainCounter = (n + 1 : Nat) := by
    rw [header, Nat.cast_add, ← counter]
    rfl
  refine ⟨⟨rfl, context, ?_, rfl, ⟨1, ?_, rfl⟩, rfl, ⟨draws.keypair, generated⟩, ideal.ctLength encapsulated, ?_, ?_,
    ⟨m, List.mem_cons_self, next⟩⟩, next, rfl⟩
  · simp only [SendingEpoch.after, counter]
    push_cast
    rfl
  · simp only [SendingEpoch.after, context]
    rfl
  · rintro m' (_ | ⟨_, member⟩)
    · exact next.le
    · have := older m' member
      push_cast
      omega
  · rintro m' (_ | ⟨_, member⟩) same
    · refine ⟨⟨0, ?_, ?_⟩, ?_, ?_, ?_⟩
      · rw [header]
        rfl
      · rw [key, context]
        rfl
      · rw [header]
        rfl
      · rw [header]
        rfl
      · rw [header]
        exact verifyHeaderMac_header _
    · have := older m' member
      omega

end

theorem PartyInv.root_positive {held : Secret → Prop} {w : World Key Sk} {party : Party} {d r q : Nat}
    (inv : PartyInv held setup w party d r q) {root : Key} (some : (w.state party).rootKey = some root) :
    0 < max d r := by
  obtain ⟨_, _, none⟩ | ⟨_, _, depth⟩ := inv.root
  · rw [some] at none
    cases none
  · exact depth.positive

theorem Setup.start_peerPk (party : Party) (addressed : (setup.start.state party).peerPk ≠ "") :
    (setup.start.state party).peerPk = setup.pk party.other := by
  simp only [Setup.start, initState] at addressed ⊢
  split
  · rfl
  · rename_i unknown
    rw [if_neg unknown] at addressed
    exact absurd rfl addressed

/-- A party that has joined its peer's epoch has accepted a newer epoch than it has opened. -/
theorem Follows.ahead {w : World Key Sk} {party : Party} {d r q n : Nat} {root base : Key} {pk : String}
    {seen : List (Int × Int)} (follows : Follows setup (w.state party) (w.sentBy party) seen n root base pk)
    (mine : PartyInv (fun _ => True) setup w party d r q) : d < r := by
  have counter := mine.counter
  rw [follows.counter] at counter
  obtain ⟨rfl, _⟩ | ⟨base, i, sending⟩ := mine.sending
  · have := mine.root_positive follows.rooted
    omega
  · obtain ⟨m, member, last⟩ := sending.begun
    have := follows.sent m member
    omega

section Send

variable {w : World Key Sk} {party : Party} {m : Sent Key} {s : RatchetState Key Sk}

theorem World.sentBy_send_self (author : m.author = party) : (w.send m s).sentBy party = m :: w.sentBy party := by
  rw [World.sentBy_send, if_pos author]

theorem World.sentBy_send_other (author : m.author = party) :
    (w.send m s).sentBy party.other = w.sentBy party.other := by
  rw [World.sentBy_send, if_neg (by rw [author]; exact (Party.other_ne party).symm)]

theorem Phase.crossed_send (author : m.author = party) {root base root' base' : Key}
    (holds : Holds setup s (m :: w.sentBy party) 1 root base)
    (peer : Holds setup (w.state party.other) (w.sentBy party.other) 1 root' base') : Phase setup (w.send m s) := by
  refine .crossed fun one => ?_
  obtain rfl | rfl := Party.eq_or_other one party
  · rw [w.state_send_self m s author, World.sentBy_send_self author]
    exact ⟨root, base, holds⟩
  · rw [w.state_send_other m s author, World.sentBy_send_other author]
    exact ⟨root', base', peer⟩

theorem Phase.led_send (author : m.author = party) {n : Nat} {root base : Key}
    (holds : Holds setup s (m :: w.sentBy party) n root base)
    (stands : Waits setup (w.state party.other) (w.sentBy party.other) n root base s.sendingCt ∨
      Follows setup (w.state party.other) (w.sentBy party.other) (w.seenBy party.other) n root base s.currentPk) :
    Phase setup (w.send m s) := by
  have state := w.state_send_self m s author
  refine .led party (by rw [state, World.sentBy_send_self author]; exact holds) ?_
  rw [state, w.state_send_other m s author, World.sentBy_send_other author]
  exact stands

variable {draws : Draws Seed} {epoch : SendingEpoch Key Sk}

/-- The message leaves the two in one of the positions, and its author holds the epoch that it belongs to. -/
def Carries (setup : Setup p) (w : World Key Sk) (party : Party) (m : Sent Key) (after : RatchetState Key Sk) : Prop :=
  Phase setup (w.send m after) ∧ ∃ n root base,
    Holds setup after (m :: w.sentBy party) n root base ∧ m.header.chainCounter = n

section Encrypts

variable (ideal : Ideal p) (chosen : sendingEpoch p (w.state party) draws = .ok epoch) (author : m.author = party)
  (header : m.header = epoch.header p) (key : m.key = (chainStep p (w.state party).context epoch.chainKey).1)
include ideal chosen author header key

theorem Phase.encrypts_fresh (states : ∀ party, w.state party = setup.start.state party) (nothing : w.sent = [])
    (addressed : (w.state party).peerPk ≠ "") : Carries setup w party m (epoch.after p (w.state party)) := by
  have start := states party
  obtain ⟨ct, secret, pk, sk, encapsulated, generated, opened⟩ | ⟨chain, chained, _⟩ := sendingEpoch_ok chosen
  · have empty (one : Party) : w.sentBy one = [] := by simp [World.sentBy, nothing]
    have known : (w.state party).peerPk = setup.pk party.other := by
      rw [start] at addressed ⊢
      exact setup.start_peerPk party addressed
    have context : (w.state party).context = setup.context := by rw [start]; rfl
    have counter : (w.state party).chainCounter = (0 : Nat) := by rw [start]; rfl
    have older : ∀ m ∈ w.sentBy party, m.header.chainCounter ≤ (0 : Nat) := by simp [empty]
    obtain ⟨holds, next, sendingCt⟩ :=
      Holds.opened ideal context counter older rfl encapsulated generated opened header key
    rw [known] at encapsulated
    have decapsulated := ideal.decapsulates (setup.generated party.other) encapsulated
    refine ⟨.led_send author holds (.inl ?_), _, _, _, holds, next⟩
    rw [empty, sendingCt, states party.other]
    refine ⟨rfl, rfl, rfl, ⟨secret, decapsulated, ?_⟩, .inl ⟨rfl, rfl, rfl⟩⟩
    rw [start]
    rfl
  · rw [start] at chained
    cases chained

theorem Phase.encrypts_waiting {n : Nat} {root base : Key}
    (leads : Holds setup (w.state party.other) (w.sentBy party.other) n root base)
    (waits : Waits setup (w.state party) (w.sentBy party) n root base (w.state party.other).sendingCt) :
    Carries setup w party m (epoch.after p (w.state party)) := by
  obtain ⟨rfl, quiet, silent⟩ | ⟨k, root', base', rfl, held⟩ := waits.own
  -- Both have opened the session: the two roots have nothing in common.
  · obtain ⟨ct, secret, pk, sk, encapsulated, generated, opened⟩ | ⟨chain, chained, _⟩ := sendingEpoch_ok chosen
    · have counter : (w.state party).chainCounter = (0 : Nat) := by have := waits.counter; omega
      have older : ∀ m ∈ w.sentBy party, m.header.chainCounter ≤ (0 : Nat) := by simp [quiet]
      obtain ⟨after, next, _⟩ :=
        Holds.opened ideal waits.context counter older rfl encapsulated generated opened header key
      exact ⟨.crossed_send author after leads, _, _, _, after, next⟩
    · rw [silent] at chained
      cases chained
  · obtain ⟨after, next, _, sk, _, rooted, counter⟩ := held.continues chosen header key
    have other := w.state_send_other m (epoch.after p (w.state party)) author
    refine ⟨.led party.other (by rw [other, World.sentBy_send_other author]; exact leads) (.inl ?_), _, _, _,
      after, next⟩
    rw [Party.other_other, w.state_send_self m _ author, other, World.sentBy_send_self author]
    exact ⟨after.version, after.context, counter ▸ waits.counter, by rw [sk, rooted]; exact waits.shared,
      .inr ⟨k, root', base', rfl, after⟩⟩

/-- The peer's key has changed since the party last sent: it opens the next epoch and leads. -/
theorem Phase.encrypts_following {n d r q d' : Nat} {root base : Key}
    (leads : Holds setup (w.state party.other) (w.sentBy party.other) n root base)
    (follows : Follows setup (w.state party) (w.sentBy party) (w.seenBy party) n root base
      (w.state party.other).currentPk)
    (mine : PartyInv (fun _ => True) setup w party d r q)
    (theirs : Wrote (fun _ => True) setup (w.sentBy party.other) party.other d')
    (addressed : (w.state party).peerPk ≠ "") : Carries setup w party m (epoch.after p (w.state party)) := by
  have ahead := follows.ahead mine
  obtain ⟨ct, secret, pk, sk, encapsulated, generated, opened⟩ | ⟨chain, chained, same, _⟩ := sendingEpoch_ok chosen
  · obtain ⟨after, next, sendingCt⟩ := Holds.opened ideal follows.context follows.counter
      (fun m' member => (follows.sent m' member).le) rfl encapsulated generated opened header key
    obtain ⟨seed, pair⟩ := leads.pair
    rw [follows.peer] at encapsulated
    have decapsulated := ideal.decapsulates pair encapsulated
    refine ⟨.led_send author after (.inl ?_), _, _, _, after, next⟩
    rw [sendingCt]
    refine ⟨leads.version, leads.context, ?_, ⟨secret, decapsulated, ?_⟩, .inr ⟨n, root, base, rfl, leads⟩⟩
    · rw [leads.counter]
      push_cast
      rfl
    · rw [leads.rooted, follows.rooted]
      rfl
  · obtain ⟨rfl, empty, _⟩ | ⟨base, i, sending⟩ := mine.sending
    · rw [chained] at empty
      cases empty
    · have := mine.same_epoch theirs addressed sending.depth.positive same
      omega

/-- After an encryption the author holds the epoch of its message, and the two still stand in one of the positions. -/
theorem Phase.encrypts (phase : Phase setup w) {d r q d' : Nat}
    (mine : PartyInv (fun _ => True) setup w party d r q)
    (theirs : Wrote (fun _ => True) setup (w.sentBy party.other) party.other d')
    (addressed : (w.state party).peerPk ≠ "") : Carries setup w party m (epoch.after p (w.state party)) := by
  cases phase with
  | fresh states nothing => exact Phase.encrypts_fresh ideal chosen author header key states nothing addressed
  | crossed holds =>
    -- Neither hears from the other any more, so each goes on in the epoch it opened.
    obtain ⟨root, base, held⟩ := holds party
    obtain ⟨root', base', peer⟩ := holds party.other
    obtain ⟨after, next, _⟩ := held.continues chosen header key
    exact ⟨.crossed_send author after peer, _, _, _, after, next⟩
  | @led leader n root base leads stands =>
    obtain rfl | rfl := Party.eq_or_other leader party
    · obtain ⟨after, next, pk, _, ct, _⟩ := leads.continues chosen header key
      refine ⟨.led_send author after ?_, _, _, _, after, next⟩
      rw [pk, ct]
      exact stands
    · rw [Party.other_other] at stands
      obtain waits | follows := stands
      · exact Phase.encrypts_waiting ideal chosen author header key leads waits
      · exact Phase.encrypts_following ideal chosen author header key leads follows mine theirs addressed

end Encrypts

end Send

/-! ## Receiving -/

theorem length_gapKeys (context : String) (chain : Key) (seq : Int) (gap : Nat) :
    (gapKeys p context chain seq gap).length = gap := by
  simp [gapKeys]

theorem Waits.older {s : RatchetState Key Sk} {own : List (Sent Key)} {n : Nat} {root base : Key} {ct : String}
    (waits : Waits setup s own n root base ct) :
    (∀ m ∈ own, m.header.chainCounter < n) ∧ (n = 1 ∨ ∃ m ∈ own, m.header.chainCounter + 1 = n) := by
  obtain ⟨rfl, rfl, _⟩ | ⟨k, root', base', rfl, held⟩ := waits.own
  · simp
  · constructor
    · intro m member
      have := held.sent m member
      push_cast
      omega
    · obtain ⟨m, member, last⟩ := held.begun
      exact .inr ⟨m, member, by rw [last]; push_cast; rfl⟩

theorem Waits.opens (ideal : Ideal p) {s l : RatchetState Key Sk} {own : List (Sent Key)} {n : Nat} {root base : Key}
    (waits : Waits setup s own n root base l.sendingCt) {m : Sent Key} (genuine : Genuine (p := p) m)
    (short : byteLen m.ciphertext ≤ maxRatchetCiphertext) (epoch : OfEpoch setup l root base m)
    (current : m.header.chainCounter = n) (window : InWindow s m.header) (seen : List (Int × Int)) (keypair : Seed) :
    ∃ after, decryptRatchet p s m.header m.ciphertext keypair = .ok (after, m.plaintext) ∧
      Follows setup after own ((m.header.chainCounter, m.header.seq) :: seen) n root base l.currentPk := by
  obtain ⟨j, position, key⟩ := epoch.key
  obtain ⟨secret, decapsulated, advanced⟩ := waits.shared
  obtain ⟨nonce, sealed⟩ := genuine.sealed
  have next : m.header.chainCounter = s.chainCounter + 1 := by rw [current, waits.counter]
  have near : j ≤ maxRatchetWindow := by
    have := window.1 next
    omega
  rw [← waits.context] at advanced
  have unsealed := ideal.opens sealed
  rw [key, ← waits.context] at unsealed
  have formed : WellFormed m.header m.ciphertext := ⟨genuine.version, genuine.pkLength, genuine.ctLength, short⟩
  obtain ⟨pk, sk, _, opens⟩ :=
    ideal.joins waits.version formed next (by rw [epoch.ct]; exact decapsulated) position near
    (by rw [advanced]; exact unsealed) genuine.deflated (by rw [advanced]; exact epoch.mac) keypair
  rw [advanced, waits.context] at opens
  refine ⟨_, opens, ?_⟩
  obtain ⟨older, begun⟩ := waits.older
  refine ⟨waits.version, waits.context, current, rfl, ⟨j + 1, rfl, ?_, ?_⟩, epoch.pk, older, begun⟩
  · push_cast
    rfl
  · intro i small
    rw [current, position]
    obtain rfl | below := Nat.eq_or_lt_of_le (Nat.le_of_lt_succ small)
    · exact .inl List.mem_cons_self
    · right
      rw [KeyChain.foldl_push_of_room _ (by rw [length_gapKeys]; simpa using near), List.nil_append]
      exact mem_gapKeys.mpr ⟨i, below, by rw [Int.zero_add]⟩

theorem Follows.opens (ideal : Ideal p) {s l : RatchetState Key Sk} {own : List (Sent Key)} {seen : List (Int × Int)}
    {n : Nat} {root base : Key} (follows : Follows setup s own seen n root base l.currentPk)
    (once : (s.skipped.map (·.seq)).Nodup) {m : Sent Key} (genuine : Genuine (p := p) m)
    (short : byteLen m.ciphertext ≤ maxRatchetCiphertext) (epoch : OfEpoch setup l root base m)
    (current : m.header.chainCounter = n) (window : InWindow s m.header)
    (unseen : (m.header.chainCounter, m.header.seq) ∉ seen) (keypair : Seed) :
    ∃ after, decryptRatchet p s m.header m.ciphertext keypair = .ok (after, m.plaintext) ∧
      Follows setup after own ((m.header.chainCounter, m.header.seq) :: seen) n root base l.currentPk := by
  obtain ⟨j, position, key⟩ := epoch.key
  obtain ⟨i, chained, counter, complete⟩ := follows.chain
  obtain ⟨nonce, sealed⟩ := genuine.sealed
  have same : m.header.chainCounter = s.chainCounter := by rw [current, follows.counter]
  have unsealed := ideal.opens sealed
  have admitted : Admitted s m.header m.ciphertext :=
    ⟨follows.version, genuine.version, genuine.pkLength, genuine.ctLength, short, by omega, by omega⟩
  have stays := @receivingEpoch_stays _ _ _ _ p s m.header keypair _ (by omega) chained
  have verified : verifyHeaderMac p s.rootKey m.header = true := by
    rw [follows.rooted]
    exact epoch.mac
  rw [current, position] at unseen
  -- Before the end of the chain the key was skipped and is still kept; from there on the chain yields it.
  by_cases before : j < i
  · have member := (complete j before).resolve_left unseen
    rw [← position, ← key] at member
    have found := @messageKey_keeps _ _ _ _ p s m.header
      ⟨s, chainAt (chainStep p setup.context) base i, s.receivingChainCounter⟩ m.key (by omega)
      (by simp only [counter, position]; omega) member once
    refine ⟨_, decryptRatchet_of admitted stays found unsealed (ideal.decompress genuine.deflated) rfl verified, ?_⟩
    refine ⟨follows.version, follows.context, follows.counter, follows.rooted, ⟨i, chained, counter, ?_⟩, epoch.pk,
      follows.sent, follows.begun⟩
    intro k small
    rw [current, position]
    by_cases taken : k = j
    · left
      rw [taken]
      exact List.mem_cons_self
    · obtain accepted | kept := complete k small
      · exact .inl (List.mem_cons_of_mem _ accepted)
      · right
        refine (List.mem_eraseP_of_neg ?_).mpr kept
        simp only [beq_iff_eq, Nat.cast_inj]
        exact taken
  · obtain ⟨gap, rfl⟩ := Nat.exists_eq_add_of_le (Nat.le_of_not_lt before)
    have room := window.2 same
    rw [counter, position] at room
    have found := @messageKey_advances _ _ _ _ p s m.header ⟨s, chainAt (chainStep p setup.context) base i,
      s.receivingChainCounter⟩ gap (by omega) (by simp only [counter, position]; omega) (by omega)
    rw [follows.context] at found
    rw [key, ← KeyChain.keyAt_add] at unsealed
    refine ⟨_, decryptRatchet_of admitted stays found unsealed (ideal.decompress genuine.deflated) rfl verified, ?_⟩
    have kept := @KeyChain.foldl_push_of_room _ maxRatchetWindow
      (gapKeys p setup.context (chainAt (chainStep p setup.context) base i) s.receivingChainCounter gap) s.skipped
      (by rw [length_gapKeys]; omega)
    refine ⟨follows.version, follows.context, follows.counter, follows.rooted, ⟨i + gap + 1, ?_, ?_, ?_⟩, epoch.pk,
      follows.sent, follows.begun⟩
    · simp only [KeyChain.chainAt_add, Nat.add_assoc]
    · simp only [position]
      push_cast
      rfl
    · intro k small
      rw [current, position]
      simp only [kept]
      rcases Nat.lt_or_ge k i with old | new
      · obtain accepted | kept := complete k old
        · exact .inl (List.mem_cons_of_mem _ accepted)
        · exact .inr (List.mem_append_left _ kept)
      · obtain ⟨past, rfl⟩ := Nat.exists_eq_add_of_le new
        obtain rfl | below := Nat.eq_or_lt_of_le (show past ≤ gap by omega)
        · exact .inl List.mem_cons_self
        · right
          refine List.mem_append_right _ (mem_gapKeys.mpr ⟨past, below, ?_⟩)
          rw [KeyChain.keyAt_add, counter, Nat.cast_add]

/-- A message of an epoch later than all the receiver has sent in opens, and the two still stand in one of the
positions. -/
theorem Phase.receives (ideal : Ideal p) {w : World Key Sk} (phase : Phase setup w) {party : Party} {m : Sent Key}
    (once : ((w.state party).skipped.map (·.seq)).Nodup) (member : m ∈ w.sentBy party.other)
    (positive : 0 < m.header.chainCounter)
    (ahead : ∀ own ∈ w.sentBy party, own.header.chainCounter < m.header.chainCounter)
    (genuine : Genuine (p := p) m) (short : byteLen m.ciphertext ≤ maxRatchetCiphertext)
    (window : InWindow (w.state party) m.header) (unseen : (m.header.chainCounter, m.header.seq) ∉ w.seenBy party)
    (keypair : Seed) :
    ∃ after, decryptRatchet p (w.state party) m.header m.ciphertext keypair = .ok (after, m.plaintext) ∧
      Phase setup (w.accept ⟨party, m.header, m.plaintext⟩ after) := by
  cases phase with
  | fresh _ nothing => simp [World.sentBy, nothing] at member
  | crossed holds =>
    obtain ⟨_, _, mine⟩ := holds party
    obtain ⟨_, _, theirs⟩ := holds party.other
    obtain ⟨own, sent, first⟩ := mine.begun
    have := ahead own sent
    have := theirs.sent m member
    omega
  | @led leader n root base leads stands =>
    obtain rfl | rfl := Party.eq_or_other leader party
    -- The leader's own messages are of the last epoch, and its peer's are older.
    · obtain ⟨own, sent, last⟩ := leads.begun
      have := ahead own sent
      obtain waits | follows := stands
      · have := waits.older.1 m member
        omega
      · have := follows.sent m member
        omega
    · rw [Party.other_other] at stands
      have within := leads.sent m member
      have begun : n = 1 ∨ ∃ own ∈ w.sentBy party, own.header.chainCounter + 1 = n :=
        stands.elim (fun waits => waits.older.2) (fun follows => follows.begun)
      have current : m.header.chainCounter = n := by
        obtain rfl | ⟨own, sent, last⟩ := begun
        · omega
        · have := ahead own sent
          omega
      have epoch := leads.current m member current
      obtain ⟨after, opens, follows⟩ : ∃ after,
          decryptRatchet p (w.state party) m.header m.ciphertext keypair = .ok (after, m.plaintext) ∧
            Follows setup after (w.sentBy party) ((m.header.chainCounter, m.header.seq) :: w.seenBy party) n root base
              (w.state party.other).currentPk := by
        obtain waits | follows := stands
        · exact waits.opens ideal genuine short epoch current window _ keypair
        · exact follows.opens ideal once genuine short epoch current window unseen keypair
      refine ⟨after, opens, @Phase.led _ _ _ _ _ setup _ party.other n root base ?_ (.inr ?_)⟩
      · rw [World.state_accept_other _ _ _ rfl, World.sentBy_accept]
        exact leads
      · rw [Party.other_other, World.state_accept_other _ _ _ rfl, World.state_accept_self _ _ _ rfl,
          World.sentBy_accept, World.seenBy_accept, if_pos rfl]
        exact follows

/-! ## Runs -/

theorem NetInv.unforged (ideal : Ideal p) {net : Net Key Sk} (inv : NetInv setup net) {m : Sent Key}
    (member : m ∈ net.world.sent) : Unforged setup (fun _ => True) net.world m.header m.ciphertext := by
  intro n i key compressed _ opens
  obtain ⟨nonce, sealed⟩ := (inv.genuine m member).sealed
  have right := ideal.refuses sealed opens
  rw [right, ideal.opens sealed] at opens
  cases opens
  exact ⟨m, member, right.symm, rfl, rfl, rfl⟩

theorem NetInv.opens_iff (ideal : Ideal p) {net : Net Key Sk} (inv : NetInv setup net) {party : Party} {m : Sent Key}
    (member : m ∈ net.world.sentBy party.other) (pending : m ∉ net.delivered)
    (window : InWindow (net.world.state party) m.header) (keypair : Seed) :
    (∀ after text, decryptRatchet p (net.world.state party) m.header m.ciphertext keypair = .ok (after, text) →
      (∀ own ∈ net.world.sentBy party, own.header.chainCounter < m.header.chainCounter) ∧
        byteLen m.ciphertext ≤ maxRatchetCiphertext) ∧
    ((∀ own ∈ net.world.sentBy party, own.header.chainCounter < m.header.chainCounter) →
      byteLen m.ciphertext ≤ maxRatchetCiphertext →
      ∃ after, decryptRatchet p (net.world.state party) m.header m.ciphertext keypair = .ok (after, m.plaintext) ∧
        Phase setup (net.world.accept ⟨party, m.header, m.plaintext⟩ after)) := by
  have parties := inv_of_reachable ideal inv.reached
  have sent := (World.mem_sentBy.mp member).1
  obtain ⟨_, _, _, mine⟩ := parties.parties party
  obtain ⟨_, _, _, theirs⟩ := parties.parties party.other
  constructor
  · intro after text decrypted
    obtain ⟨_, ahead⟩ := @Inv.delivers _ _ _ _ _ _ setup ideal _ parties keypair ⟨party, m.header, text⟩ _ _
      (inv.unforged ideal sent) (fun _ => ⟨m, member, rfl⟩) decrypted
    exact ⟨ahead, (decryptRatchet_ok decrypted).1.short⟩
  · intro ahead short
    refine inv.phase.receives ideal mine.receiving.skipped.2 member (theirs.wrote.positive member).1 ahead
      (inv.genuine m sent) short window ?_ keypair
    -- Its position was accepted only with the message itself, and that was not delivered.
    intro seen
    obtain ⟨m', delivered, member', same⟩ := inv.seen party _ seen
    simp only [Prod.mk.injEq] at same
    rw [theirs.wrote.once m member m' member' same.1 same.2] at pending
    exact pending delivered

theorem netInv_start : NetInv setup ⟨setup.start, []⟩ := by
  refine ⟨.refl, ?_, .fresh (fun _ => rfl) rfl, ?_⟩
  · intro m member
    cases member
  · intro party x member
    cases member

theorem NetInv.encrypts (ideal : Ideal p) {net : Net Key Sk} (inv : NetInv setup net) {draws : Draws Seed}
    {m : Sent Key} {epoch : SendingEpoch Key Sk} {after : RatchetState Key Sk}
    (fresh : FreshDraws setup (fun _ => True) net.world m.author draws)
    (encrypted : encryptRatchet p (net.world.state m.author) m.plaintext draws = .ok (after, m.header, m.ciphertext))
    (chosen : sendingEpoch p (net.world.state m.author) draws = .ok epoch)
    (deflated : compressBytes p m.plaintext = .ok m.compressed)
    (key : m.key = (chainStep p (net.world.state m.author).context epoch.chainKey).1) :
    NetInv setup { net with world := net.world.send m after } := by
  obtain ⟨_, addressed, epoch', compressed, chosen', deflated', sealed, rfl, header⟩ := encryptRatchet_ok encrypted
  rw [chosen] at chosen'
  cases chosen'
  rw [deflated] at deflated'
  cases deflated'
  have parties := inv_of_reachable ideal inv.reached
  obtain ⟨_, _, _, mine⟩ := parties.parties m.author
  obtain ⟨_, _, _, theirs⟩ := parties.parties m.author.other
  obtain ⟨phase, n, root, base, holds, current⟩ :=
    inv.phase.encrypts ideal chosen rfl header key mine theirs.wrote addressed
  obtain ⟨pkLength, ctLength⟩ := holds.genuine ideal List.mem_cons_self current
  refine ⟨.tail inv.reached (.encrypt draws fresh encrypted chosen deflated key), ?_, phase, ?_⟩
  · rintro m' (_ | ⟨_, member⟩)
    · exact ⟨⟨draws.nonce, key ▸ sealed⟩, deflated, by rw [header]; rfl, pkLength, ctLength⟩
    · exact inv.genuine m' member
  · intro party x member
    obtain ⟨m', delivered, sent, same⟩ := inv.seen party x member
    refine ⟨m', delivered, ?_, same⟩
    rw [World.sentBy_send]
    split
    · exact List.mem_cons_of_mem _ sent
    · exact sent

theorem NetInv.accepts (ideal : Ideal p) {net : Net Key Sk} (inv : NetInv setup net) {party : Party} {keypair : Seed}
    {m : Sent Key} {after : RatchetState Key Sk} {text : Bytes} (member : m ∈ net.world.sentBy party.other)
    (pending : m ∉ net.delivered) (window : InWindow (net.world.state party) m.header)
    (decrypted : decryptRatchet p (net.world.state party) m.header m.ciphertext keypair = .ok (after, text)) :
    NetInv setup ⟨net.world.accept ⟨party, m.header, text⟩ after, m :: net.delivered⟩ := by
  -- The call has one outcome, and the delivery of a message that may be opened is known in full.
  obtain ⟨needs, enough⟩ := inv.opens_iff ideal member pending window keypair
  obtain ⟨ahead, short⟩ := needs after text decrypted
  obtain ⟨after', opens, phase⟩ := enough ahead short
  rw [decrypted] at opens
  cases opens
  have sent := (World.mem_sentBy.mp member).1
  have delivers : Step setup (fun _ => True) peerOpenings net.world
      (net.world.accept ⟨party, m.header, m.plaintext⟩ after) :=
    .deliver keypair (inv.unforged ideal sent) (fun _ => ⟨m, member, rfl⟩) decrypted
  refine ⟨.tail inv.reached delivers, inv.genuine, phase, ?_⟩
  intro one x seen
  rw [World.seenBy_accept] at seen
  split at seen
  case isTrue taker =>
    obtain rfl : party = one := taker
    obtain rfl | earlier := List.mem_cons.mp seen
    · exact ⟨m, List.mem_cons_self, member, rfl⟩
    · obtain ⟨m', delivered, rest⟩ := inv.seen party x earlier
      exact ⟨m', List.mem_cons_of_mem _ delivered, rest⟩
  case isFalse =>
    obtain ⟨m', delivered, rest⟩ := inv.seen one x seen
    exact ⟨m', List.mem_cons_of_mem _ delivered, rest⟩

theorem netInv_of_exchanged (ideal : Ideal p) {net : Net Key Sk} (run : Exchanged setup net) : NetInv setup net := by
  induction run with
  | refl => exact netInv_start
  | tail _ step ih =>
    cases step with
    | encrypt draws fresh encrypted chosen deflated key => exact ih.encrypts ideal fresh encrypted chosen deflated key
    | accept party keypair member pending window decrypted => exact ih.accepts ideal member pending window decrypted
    | refuse party keypair member pending window failed =>
      refine ⟨ih.reached, ih.genuine, ih.phase, ?_⟩
      intro one x seen
      obtain ⟨m', delivered, rest⟩ := ih.seen one x seen
      exact ⟨m', List.mem_cons_of_mem _ delivered, rest⟩

/-- A message decrypts to its plaintext exactly when the receiver has sent nothing in its epoch or a later one, and it
is not too long. -/
theorem delivered_opens_iff (ideal : Ideal p) {net : Net Key Sk} (run : Exchanged setup net) {party : Party}
    {m : Sent Key} (member : m ∈ net.world.sentBy party.other) (pending : m ∉ net.delivered)
    (window : InWindow (net.world.state party) m.header) (keypair : Seed) :
    (∃ after, decryptRatchet p (net.world.state party) m.header m.ciphertext keypair = .ok (after, m.plaintext)) ↔
      (∀ own ∈ net.world.sentBy party, own.header.chainCounter < m.header.chainCounter) ∧
        byteLen m.ciphertext ≤ maxRatchetCiphertext := by
  obtain ⟨needs, enough⟩ := (netInv_of_exchanged ideal run).opens_iff ideal member pending window keypair
  constructor
  · rintro ⟨after, decrypted⟩
    exact needs after _ decrypted
  · rintro ⟨ahead, short⟩
    obtain ⟨after, decrypted, _⟩ := enough ahead short
    exact ⟨after, decrypted⟩

end Run

/-! ## Runs over the transcript primitives -/

section Transcribed

open Transcript

/-- What a party writes that seals with the next key of an epoch. -/
def written (author : Party) (state : RatchetState Bytes UInt8) (epoch : SendingEpoch Bytes UInt8) (plaintext : Bytes)
    (nonce : UInt8) : Sent Bytes where
  author := author
  key := (chainStep primitives state.context epoch.chainKey).1
  header := epoch.header primitives
  plaintext := plaintext
  compressed := rawPlaintextTag :: plaintext
  ciphertext := sealedText state epoch plaintext nonce

theorem exchange_writes {net : Net Bytes UInt8} {party : Party} {epoch : SendingEpoch Bytes UInt8} {draws : Draws UInt8}
    {plaintext : Bytes} (version : (net.world.state party).version = ratchetVersion)
    (addressed : (net.world.state party).peerPk ≠ "") (small : plaintext.length ≤ maxInputLen)
    (chosen : sendingEpoch primitives (net.world.state party) draws = .ok epoch)
    (unused : pkOf draws.keypair ≠ pkOf (seedOf party) ∧
      ∀ m ∈ net.world.sentBy party, m.header.pk ≠ pkOf draws.keypair) :
    Exchange acquainted net { net with
      world := net.world.send (written party (net.world.state party) epoch plaintext draws.nonce)
        (epoch.after primitives (net.world.state party)) } := by
  have fresh : FreshDraws acquainted (fun _ => True) net.world party draws := by
    refine ⟨?_, fun _ _ _ _ => trivial⟩
    intro pk sk generated
    have drawn := (keygen_eq draws.keypair).symm.trans generated
    simp only [Option.some.injEq, Prod.mk.injEq] at drawn
    obtain ⟨rfl, rfl⟩ := drawn
    exact unused
  exact Exchange.encrypt (m := written party (net.world.state party) epoch plaintext draws.nonce) draws fresh
    (encryptRatchet_chosen version addressed small chosen) chosen (compressBytes_raw small) rfl

/-- Alice's first epoch, with the two messages she writes in it. -/
def greeting : SendingEpoch Bytes UInt8 := opening (acquainted.start.state .alice) 2 ⟨3, 4, 5⟩

def hello : Sent Bytes := written .alice (acquainted.start.state .alice) greeting [0x68, 0x69] 5

def greeted : World Bytes UInt8 :=
  acquainted.start.send hello (greeting.after primitives (acquainted.start.state .alice))

theorem exchanged_greeted : Exchanged acquainted ⟨greeted, []⟩ := by
  have chosen := @sendingEpoch_opening (acquainted.start.state .alice) 2 ⟨3, 4, 5⟩ rfl rfl
  refine .tail .refl (@exchange_writes ⟨acquainted.start, []⟩ .alice greeting ⟨3, 4, 5⟩ [0x68, 0x69] rfl
    (pkOf_ne_empty 2) (by decide) chosen ⟨?_, ?_⟩)
  · intro same
    exact absurd (pkOf_inj same) (by decide)
  · intro m member
    cases member

theorem short_hello : byteLen hello.ciphertext ≤ maxRatchetCiphertext :=
  short_openingText (acquainted.start.state .alice) rfl rfl ⟨3, 4, 5⟩

theorem hello_in_window : InWindow (greeted.state .bob) hello.header :=
  ⟨fun _ => (by decide : (0 : Int) ≤ maxRatchetWindow), fun same => absurd same (by decide)⟩

theorem bob_reads_hello :
    ∃ opened, decryptRatchet primitives (greeted.state .bob) hello.header hello.ciphertext 10 =
        .ok (opened, hello.plaintext) ∧ opened.version = ratchetVersion ∧ opened.peerPk = pkOf 4 ∧
      opened.sendingChainKey = none ∧ opened.chainCounter = 1 ∧ opened.context = "dm" ∧
      opened.rootKey = greeting.rootKey := by
  have encrypted := @encryptRatchet_opening (acquainted.start.state .alice) 2 ⟨3, 4, 5⟩ [0x68, 0x69] rfl rfl rfl
    (by decide)
  exact @Ideal.first_message_opens _ _ _ _ primitives ideal (acquainted.start.state .alice) _
    (acquainted.start.state .bob) 2 (keygen_eq 2) rfl (context_start .bob) ⟨rfl, rfl⟩ ⟨rfl, rfl⟩ rfl _ _ _ _ encrypted
    short_hello 10

/-- Bob has sent nothing yet, and alice's first message opens. -/
theorem delivered_opens_first :
    ((∃ after, decryptRatchet primitives (greeted.state .bob) hello.header hello.ciphertext 10 =
        .ok (after, hello.plaintext)) ↔
      (∀ own ∈ greeted.sentBy .bob, own.header.chainCounter < hello.header.chainCounter) ∧
        byteLen hello.ciphertext ≤ maxRatchetCiphertext) ∧
    greeted.sentBy .bob = [] ∧ byteLen hello.ciphertext ≤ maxRatchetCiphertext := by
  have member : hello ∈ greeted.sentBy Party.bob.other := List.mem_cons_self
  exact ⟨delivered_opens_iff ideal exchanged_greeted member List.not_mem_nil hello_in_window 10, rfl, short_hello⟩

def continued : SendingEpoch Bytes UInt8 :=
  { greeting with chainKey := (chainStep primitives "dm" greeting.chainKey).2, seq := 1 }

def again : Sent Bytes := written .alice (greeted.state .alice) continued [0x79, 0x6f] 7

def greetedTwice : World Bytes UInt8 := greeted.send again (continued.after primitives (greeted.state .alice))

theorem exchanged_greetedTwice : Exchanged acquainted ⟨greetedTwice, []⟩ := by
  have chosen : sendingEpoch primitives (greeted.state .alice) ⟨0, 6, 7⟩ = .ok continued :=
    sendingEpoch_continues rfl rfl _
  refine .tail exchanged_greeted (@exchange_writes ⟨greeted, []⟩ .alice continued ⟨0, 6, 7⟩ [0x79, 0x6f] rfl
    (pkOf_ne_empty 2) (by decide) chosen ⟨?_, ?_⟩)
  · intro same
    exact absurd (pkOf_inj same) (by decide)
  · rintro m member same
    obtain rfl := List.mem_singleton.mp member
    exact absurd (pkOf_inj same) (by decide)

theorem short_again : byteLen again.ciphertext ≤ maxRatchetCiphertext := by
  have context : (greeted.state .alice).context = "dm" := rfl
  simp only [again, written, sealedText, Text.byteLen_hexEncode, continued, greeting, opening, advanceRoot, context,
    Setup.start, initState, chainStep, primitives, List.length_append, List.length_cons, List.length_nil,
    length_framed, length_record]
  decide

/-- Alice writes two messages, bob accepts the first and replies: the second, of the epoch bob still receives in, is
lost. -/
theorem current_epoch_message_lost :
    ∃ net : Net Bytes UInt8, Exchanged acquainted net ∧ ∃ m ∈ net.world.sentBy .alice, m ∉ net.delivered ∧
      InWindow (net.world.state .bob) m.header ∧ byteLen m.ciphertext ≤ maxRatchetCiphertext ∧
      (∀ m' ∈ net.world.sentBy .alice, m'.header.chainCounter = m.header.chainCounter) ∧
      (∃ a ∈ net.world.accepted, a.party = .bob ∧ a.header.chainCounter = m.header.chainCounter) ∧
      ∀ keypair after text,
        decryptRatchet primitives (net.world.state .bob) m.header m.ciphertext keypair ≠ .ok (after, text) := by
  obtain ⟨opened, decrypted, version, peer, silent, counter, _⟩ := bob_reads_hello
  have published : hello ∈ greetedTwice.sentBy Party.bob.other := List.mem_cons_of_mem _ List.mem_cons_self
  have accepted : Exchanged acquainted ⟨greetedTwice.accept ⟨.bob, hello.header, hello.plaintext⟩ opened, [hello]⟩ :=
    .tail exchanged_greetedTwice (.accept .bob 10 published List.not_mem_nil hello_in_window decrypted)
  generalize world : greetedTwice.accept ⟨.bob, hello.header, hello.plaintext⟩ opened = w at accepted
  have state : w.state .bob = opened := by rw [← world]; exact World.state_accept_self _ _ _ rfl
  have quiet : w.sentBy .bob = [] := by rw [← world]; rfl
  have alices : w.sentBy .alice = [again, hello] := by rw [← world]; rfl
  -- Bob has read the first message and replies, which opens an epoch of his own.
  have chosen := @sendingEpoch_opening opened 4 ⟨11, 12, 13⟩ peer silent
  have replies := @exchange_writes ⟨w, [hello]⟩ .bob (opening opened 4 ⟨11, 12, 13⟩) ⟨11, 12, 13⟩ [0x6b]
    (by rw [state]; exact version) (by rw [state, peer]; exact pkOf_ne_empty 4) (by decide) (by rw [state]; exact chosen)
    ⟨fun same => absurd (pkOf_inj same) (by decide), by simp [quiet]⟩
  have run := accepted.tail replies
  generalize answer : written .bob (w.state .bob) (opening opened 4 ⟨11, 12, 13⟩) [0x6b] 13 = reply at run
  generalize afterwards : (opening opened 4 ⟨11, 12, 13⟩).after primitives (w.state .bob) = after at run
  have author : reply.author = .bob := by rw [← answer]; rfl
  have later : reply.header.chainCounter = 2 := by
    rw [← answer]
    exact congrArg (· + 1) counter
  have ahead : ((w.send reply after).state .bob).chainCounter = 2 := by
    rw [World.state_send_self _ _ _ author, ← afterwards]
    exact congrArg (· + 1) counter
  have own : reply ∈ (w.send reply after).sentBy .bob := World.mem_sentBy.mpr ⟨List.mem_cons_self, author⟩
  have sent : (w.send reply after).sentBy .alice = [again, hello] := by
    rw [World.sentBy_send, if_neg (by rw [author]; decide), alices]
  have member : again ∈ (w.send reply after).sentBy .alice := by simp [sent]
  have pending : again ∉ [hello] := by
    intro delivered
    have positions := congrArg (·.header.seq) (List.mem_singleton.mp delivered)
    exact absurd positions (by decide)
  have window : InWindow ((w.send reply after).state .bob) again.header := by
    refine ⟨fun next => ?_, fun current => ?_⟩
    · rw [ahead] at next
      exact absurd next (by decide)
    · rw [ahead] at current
      exact absurd current (by decide)
  refine ⟨_, run, again, member, pending, window, short_again, ?_, ⟨⟨.bob, hello.header, hello.plaintext⟩, ?_, rfl, rfl⟩,
    ?_⟩
  · intro m' one
    rw [sent] at one
    obtain rfl | rfl : m' = again ∨ m' = hello := by simpa using one
    · rfl
    · rfl
  · rw [← world]
    exact List.mem_cons_self
  · -- The second message is of the epoch before his own.
    intro keypair out text decrypted
    have published : again ∈ (w.send reply after).sentBy Party.bob.other := member
    have needs := ((netInv_of_exchanged ideal run).opens_iff ideal published pending window keypair).1
    have before := (needs out text decrypted).1 reply own
    rw [later] at before
    exact absurd before (by decide)

end Transcribed

end Soshal.Crypto
