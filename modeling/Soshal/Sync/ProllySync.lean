import Mathlib.Data.List.Dedup
import Soshal.Library.Runs
import Soshal.Sync.ProllyTree

/-! Reconciliation of two Prolly trees by messages.

A party announces its root; the other answers that it is its own root, or asks for
the branch below it, and compares the keys it is sent with its own. Messages in
flight are delivered in any order. Event payloads are the caller's affair: no
session looks at them.
-/

set_option autoImplicit false

namespace Soshal.Sync.Prolly

open Library Library.Text

inductive ProllySyncMessage where
  | rootExchange (rootHash : String)
  | matched
  | requestBranch (level : Nat) (nodeHash : String)
  | responseBranch (nodeHash : String) (keys childHashes : List String)
  | requestDeltas (missingIds : List String)
  | responseDeltas (payloadJson : String)
  | responsePatch (baseId newId patchB64 : String) (fullB64 : Option String)
  deriving DecidableEq

def maxKeysPerBranch : Nat := 10000

def maxMissingKeysTotal : Nat := 100000

structure ProllySyncSession where
  localTree : ProllyTree
  peerRootHash : Option String
  missingKeys : List String

namespace ProllySyncSession

def new (localTree : ProllyTree) : ProllySyncSession := ⟨localTree, none, []⟩

/-- The node under a hash; of several nodes with one hash the index keeps the last. -/
def node? (s : ProllySyncSession) (nodeHash : String) : Option ProllyNode :=
  s.localTree.nodes.reverse.find? (·.nodeHash = nodeHash)

def localKeySet (s : ProllySyncSession) : List String := s.localTree.nodes.flatMap ProllyNode.keys

def missingOf (s : ProllySyncSession) (keys : List String) : List String :=
  (keys.filter fun k => decide (k ≠ "" ∧ byteLen k ≤ 128)).filter
    fun k => decide (k ∉ s.localKeySet ∧ k ∉ s.missingKeys)

def handleMessage (s : ProllySyncSession) : ProllySyncMessage → ProllySyncSession × Option ProllySyncMessage
  | .rootExchange rootHash =>
    let heard := { s with peerRootHash := some rootHash }
    -- Every root is asked for at level 0, whatever its own level is.
    if rootHash = s.localTree.rootHash then (heard, some .matched) else (heard, some (.requestBranch 0 rootHash))
  | .matched => (s, none)
  | .requestBranch _ nodeHash =>
    (s, (s.node? nodeHash).map fun n => .responseBranch nodeHash n.keys n.valuesOrChildHashes)
  -- The child hashes are not followed: what lies below the node is never asked for.
  | .responseBranch _ keys _ =>
    if keys.length > maxKeysPerBranch then (s, none)
    else
      let missing := s.missingOf keys
      if missing.isEmpty then (s, some .matched)
      else if s.missingKeys.length + missing.length > maxMissingKeysTotal then (s, none)
      else ({ s with missingKeys := s.missingKeys ++ missing }, some (.requestDeltas missing))
  | .requestDeltas _ => (s, none)
  | .responseDeltas _ => (s, none)
  | .responsePatch _ _ _ _ => (s, none)

end ProllySyncSession

/-- The requester, its peer, and the messages on their way to each. -/
structure Exchange where
  requester : ProllySyncSession
  peer : ProllySyncSession
  toRequester : List ProllySyncMessage
  toPeer : List ProllySyncMessage

inductive ExchangeStep where
  | requesterAnnounces
  | peerAnnounces
  | requesterReceives (index : Nat)
  | peerReceives (index : Nat)

namespace Exchange

def start (tree tree' : ProllyTree) : Exchange := ⟨.new tree, .new tree', [], []⟩

def step (x : Exchange) : ExchangeStep → Exchange
  | .requesterAnnounces => { x with toPeer := x.toPeer ++ [.rootExchange x.requester.localTree.rootHash] }
  | .peerAnnounces => { x with toRequester := x.toRequester ++ [.rootExchange x.peer.localTree.rootHash] }
  | .requesterReceives index =>
    match x.toRequester[index]? with
    | none => x
    | some msg =>
      let (requester, answer) := x.requester.handleMessage msg
      { x with
        requester := requester
        toRequester := x.toRequester.eraseIdx index
        toPeer := x.toPeer ++ answer.toList }
  | .peerReceives index =>
    match x.toPeer[index]? with
    | none => x
    | some msg =>
      let (peer, answer) := x.peer.handleMessage msg
      { x with
        peer := peer
        toPeer := x.toPeer.eraseIdx index
        toRequester := x.toRequester ++ answer.toList }

/-- No message is outstanding, and the peer's root has been heard. -/
def Settled (x : Exchange) : Prop :=
  x.toRequester = [] ∧ x.toPeer = [] ∧ x.requester.peerRootHash ≠ none

instance (x : Exchange) : Decidable x.Settled := inferInstanceAs (Decidable (_ ∧ _ ∧ _))

end Exchange

def Sized (key : String) : Prop := key ≠ "" ∧ byteLen key ≤ 128

instance (key : String) : Decidable (Sized key) := inferInstanceAs (Decidable (_ ∧ _))

/-- What the requester finds missing in the root node of its peer. -/
def wanted (tree tree' : ProllyTree) : List String :=
  if tree'.rootHash = tree.rootHash then []
  else (ProllySyncSession.new tree).missingOf tree'.rootKeys

theorem mem_wanted {tree tree' : ProllyTree} {key : String} :
    key ∈ wanted tree tree' ↔ tree'.rootHash ≠ tree.rootHash ∧ key ∈ tree'.rootKeys ∧ Sized key ∧
      key ∉ tree.nodes.flatMap ProllyNode.keys := by
  unfold wanted
  split
  · rename_i same
    simp [same]
  · rename_i differ
    simp only [ProllySyncSession.missingOf, ProllySyncSession.localKeySet, ProllySyncSession.new, List.mem_filter,
      decide_eq_true_eq, List.not_mem_nil, not_false_eq_true, and_true, Sized, ne_eq, differ, true_and, and_assoc]

/-- The peer answers for its root with the keys of its root node. -/
structure Answers (tree' : ProllyTree) : Prop where
  short : tree'.rootKeys.length ≤ 100
  root : ∀ s : ProllySyncSession, s.localTree = tree' →
    ∃ n, s.node? tree'.rootHash = some n ∧ n.keys = tree'.rootKeys

theorem answers_of_build {sha256 : List UInt8 → Vector UInt8 32} {pairs : List Entry} {tree : ProllyTree}
    (built : build sha256 pairs = some tree) : Answers tree := by
  obtain ⟨lower, root, nodes, named, short⟩ := root_last built
  have keys : tree.rootKeys = root.keys := by simp [ProllyTree.rootKeys, nodes]
  refine ⟨by rwa [keys], ?_⟩
  rintro s rfl
  exact ⟨root, by simp [ProllySyncSession.node?, nodes, named], keys.symm⟩

namespace Exchange

/-- The invariant of an exchange: what is under way stems from the peer's root, and until the requester has the
keys it wants, a question or an answer about them is under way. -/
structure Consistent (tree tree' : ProllyTree) (x : Exchange) : Prop where
  requester_tree : x.requester.localTree = tree
  peer_tree : x.peer.localTree = tree'
  roots : ∀ rootHash, .rootExchange rootHash ∈ x.toRequester → rootHash = tree'.rootHash
  branches : ∀ nodeHash keys children, .responseBranch nodeHash keys children ∈ x.toRequester →
    keys = tree'.rootKeys ∧ tree'.rootHash ≠ tree.rootHash
  requests : ∀ level nodeHash, .requestBranch level nodeHash ∈ x.toPeer →
    nodeHash = tree'.rootHash ∧ tree'.rootHash ≠ tree.rootHash
  missing : x.requester.missingKeys = [] ∨ x.requester.missingKeys = wanted tree tree'
  progress : x.requester.peerRootHash ≠ none → x.requester.missingKeys = wanted tree tree' ∨
    (∃ level, .requestBranch level tree'.rootHash ∈ x.toPeer) ∨
    ∃ nodeHash children, .responseBranch nodeHash tree'.rootKeys children ∈ x.toRequester

theorem consistent_start (tree tree' : ProllyTree) : Consistent tree tree' (start tree tree') where
  requester_tree := rfl
  peer_tree := rfl
  roots := by simp [start]
  branches := by simp [start]
  requests := by simp [start]
  missing := .inl rfl
  progress heard := absurd rfl heard

theorem mem_iff_eraseIdx {α : Type} {messages : List α} {index : Nat} {msg other : α}
    (at_index : messages[index]? = some msg) : other ∈ messages ↔ other = msg ∨ other ∈ messages.eraseIdx index := by
  obtain ⟨inside, rfl⟩ := List.getElem?_eq_some_iff.mp at_index
  have permuted := List.getElem_cons_eraseIdx_perm inside
  rw [← permuted.mem_iff, List.mem_cons]

section

variable {tree tree' : ProllyTree} (answers : Answers tree') {s : ProllySyncSession} (own : s.localTree = tree)
  (missing : s.missingKeys = [] ∨ s.missingKeys = wanted tree tree')
include answers own missing

theorem requester_takes_branch (differ : tree'.rootHash ≠ tree.rootHash) (nodeHash : String) (children : List String)
    :
    (s.handleMessage (.responseBranch nodeHash tree'.rootKeys children)).1.localTree = tree ∧
      (s.handleMessage (.responseBranch nodeHash tree'.rootKeys children)).1.missingKeys = wanted tree tree' ∧
      ∀ level hash, (s.handleMessage (.responseBranch nodeHash tree'.rootKeys children)).2 ≠
        some (.requestBranch level hash) := by
  have short := answers.short
  have length_wanted : (wanted tree tree').length ≤ 100 := by
    unfold wanted
    split
    · simp
    · exact ((List.length_filter_le _ _).trans (List.length_filter_le _ _)).trans short
  have fits : ¬ tree'.rootKeys.length > maxKeysPerBranch := by
    unfold maxKeysPerBranch
    omega
  simp only [ProllySyncSession.handleMessage, if_neg fits]
  obtain empty | full := missing
  · have news : s.missingOf tree'.rootKeys = wanted tree tree' := by
      simp [wanted, differ, ProllySyncSession.missingOf, ProllySyncSession.localKeySet, ProllySyncSession.new, own,
        empty]
    have room : ¬ s.missingKeys.length + (wanted tree tree').length > maxMissingKeysTotal := by
      rw [empty]
      simp only [maxMissingKeysTotal, List.length_nil]
      omega
    rw [news, if_neg room]
    by_cases none_wanted : wanted tree tree' = []
    · simp [none_wanted, own, empty]
    · rw [if_neg (by simpa using none_wanted)]
      simp [own, empty]
  · have nothing : s.missingOf tree'.rootKeys = [] := by
      rw [ProllySyncSession.missingOf, List.filter_eq_nil_iff]
      intro key member
      obtain ⟨inside, sized⟩ := List.mem_filter.mp member
      simp only [decide_eq_true_eq, not_and, not_not] at sized ⊢
      intro absent
      rw [full, mem_wanted]
      refine ⟨differ, inside, sized, ?_⟩
      rwa [← own]
    simp [nothing, own, full]

theorem requester_handles {msg : ProllySyncMessage}
    (root : ∀ rootHash, msg = .rootExchange rootHash → rootHash = tree'.rootHash)
    (branch : ∀ nodeHash keys children, msg = .responseBranch nodeHash keys children →
      keys = tree'.rootKeys ∧ tree'.rootHash ≠ tree.rootHash) :
    (s.handleMessage msg).1.localTree = tree ∧
      ((s.handleMessage msg).1.missingKeys = [] ∨ (s.handleMessage msg).1.missingKeys = wanted tree tree') ∧
      (∀ level hash, (s.handleMessage msg).2 = some (.requestBranch level hash) →
        hash = tree'.rootHash ∧ tree'.rootHash ≠ tree.rootHash) ∧
      ((s.handleMessage msg).1.missingKeys = wanted tree tree' ∨
        (s.handleMessage msg).2 = some (.requestBranch 0 tree'.rootHash) ∨
        (s.handleMessage msg).1.peerRootHash = s.peerRootHash ∧ (s.handleMessage msg).1.missingKeys = s.missingKeys ∧
          ∀ nodeHash keys children, msg ≠ .responseBranch nodeHash keys children) := by
  cases msg with
  | rootExchange rootHash =>
    obtain rfl := root rootHash rfl
    simp only [ProllySyncSession.handleMessage, own]
    split
    · rename_i same
      have none_wanted : wanted tree tree' = [] := if_pos same
      have none_missing : s.missingKeys = [] := by
        obtain empty | full := missing
        · exact empty
        · rw [full, none_wanted]
      exact ⟨rfl, missing, by simp, .inl (by rw [none_wanted]; exact none_missing)⟩
    · rename_i differ
      refine ⟨rfl, missing, ?_, .inr (.inl rfl)⟩
      rintro level hash ⟨⟩
      exact ⟨rfl, differ⟩
  | requestBranch level nodeHash =>
    refine ⟨own, missing, ?_, .inr (.inr ⟨rfl, rfl, by simp⟩)⟩
    simp [ProllySyncSession.handleMessage]
  | responseBranch nodeHash keys children =>
    obtain ⟨rfl, differ⟩ := branch nodeHash keys children rfl
    obtain ⟨kept, full, quiet⟩ := requester_takes_branch answers own missing differ nodeHash children
    exact ⟨kept, .inr full, fun level hash asked => absurd asked (quiet level hash), .inl full⟩
  | matched => exact ⟨own, missing, by simp [ProllySyncSession.handleMessage], .inr (.inr ⟨rfl, rfl, by simp⟩)⟩
  | requestDeltas => exact ⟨own, missing, by simp [ProllySyncSession.handleMessage], .inr (.inr ⟨rfl, rfl, by simp⟩)⟩
  | responseDeltas => exact ⟨own, missing, by simp [ProllySyncSession.handleMessage], .inr (.inr ⟨rfl, rfl, by simp⟩)⟩
  | responsePatch => exact ⟨own, missing, by simp [ProllySyncSession.handleMessage], .inr (.inr ⟨rfl, rfl, by simp⟩)⟩

end

theorem peer_handles {tree' : ProllyTree} (answers : Answers tree') {s : ProllySyncSession} (own : s.localTree = tree')
    {msg : ProllySyncMessage}
    (request : ∀ level nodeHash, msg = .requestBranch level nodeHash → nodeHash = tree'.rootHash) :
    (s.handleMessage msg).1.localTree = tree' ∧
      (∀ rootHash, (s.handleMessage msg).2 ≠ some (.rootExchange rootHash)) ∧
      (∀ nodeHash keys children, (s.handleMessage msg).2 = some (.responseBranch nodeHash keys children) →
        keys = tree'.rootKeys ∧ ∃ level, msg = .requestBranch level tree'.rootHash) ∧
      ∀ level, msg = .requestBranch level tree'.rootHash → ∃ nodeHash children,
        (s.handleMessage msg).2 = some (.responseBranch nodeHash tree'.rootKeys children) := by
  cases msg with
  | rootExchange rootHash =>
    simp only [ProllySyncSession.handleMessage]
    split <;> simp [own]
  | requestBranch level nodeHash =>
    obtain rfl := request level nodeHash rfl
    obtain ⟨n, found, keys⟩ := answers.root s own
    simp only [ProllySyncSession.handleMessage, found, Option.map_some]
    refine ⟨own, by simp, ?_, ?_⟩
    · rintro hash keys' children ⟨⟩
      exact ⟨keys, level, rfl⟩
    · intro _ _
      exact ⟨_, _, by rw [keys]⟩
  | responseBranch nodeHash keys children =>
    simp only [ProllySyncSession.handleMessage]
    split
    · simp [own]
    · split
      · simp [own]
      · split <;> simp [own]
  | matched => simp [ProllySyncSession.handleMessage, own]
  | requestDeltas => simp [ProllySyncSession.handleMessage, own]
  | responseDeltas => simp [ProllySyncSession.handleMessage, own]
  | responsePatch => simp [ProllySyncSession.handleMessage, own]

section

variable {tree tree' : ProllyTree} (answers : Answers tree') {x : Exchange} (consistent : Consistent tree tree' x)
include answers consistent

theorem Consistent.requesterReceives {index : Nat} {msg : ProllySyncMessage}
    (at_index : x.toRequester[index]? = some msg) :
    Consistent tree tree'
      { x with
        requester := (x.requester.handleMessage msg).1
        toRequester := x.toRequester.eraseIdx index
        toPeer := x.toPeer ++ (x.requester.handleMessage msg).2.toList } := by
  have arrived := List.mem_of_getElem? at_index
  obtain ⟨own, missing, asked, went⟩ := requester_handles answers consistent.requester_tree consistent.missing
    (fun rootHash same => consistent.roots rootHash (same ▸ arrived))
    (fun nodeHash keys children same => consistent.branches nodeHash keys children (same ▸ arrived))
  refine ⟨own, consistent.peer_tree, ?_, ?_, ?_, missing, ?_⟩
  · intro rootHash member
    exact consistent.roots rootHash (List.mem_of_mem_eraseIdx member)
  · intro nodeHash keys children member
    exact consistent.branches nodeHash keys children (List.mem_of_mem_eraseIdx member)
  · intro level nodeHash member
    obtain old | new := List.mem_append.mp member
    · exact consistent.requests level nodeHash old
    · exact asked level nodeHash (Option.mem_toList.mp new)
  · intro heard
    obtain full | request | ⟨same, kept, other⟩ := went
    · exact .inl full
    · exact .inr (.inl ⟨0, List.mem_append_right _ (Option.mem_toList.mpr request)⟩)
    · -- The message changed nothing, so what was under way still is.
      rw [same] at heard
      obtain full | ⟨level, asking⟩ | ⟨nodeHash, children, answer⟩ := consistent.progress heard
      · exact .inl (kept.trans full)
      · exact .inr (.inl ⟨level, List.mem_append_left _ asking⟩)
      · refine .inr (.inr ⟨nodeHash, children, ?_⟩)
        exact ((mem_iff_eraseIdx at_index).mp answer).resolve_left fun here => other _ _ _ here.symm

theorem Consistent.peerReceives {index : Nat} {msg : ProllySyncMessage} (at_index : x.toPeer[index]? = some msg) :
    Consistent tree tree'
      { x with
        peer := (x.peer.handleMessage msg).1
        toPeer := x.toPeer.eraseIdx index
        toRequester := x.toRequester ++ (x.peer.handleMessage msg).2.toList } := by
  have arrived := List.mem_of_getElem? at_index
  obtain ⟨own, unannounced, branch, answered⟩ := peer_handles answers consistent.peer_tree
    (fun level nodeHash same => (consistent.requests level nodeHash (same ▸ arrived)).1)
  refine ⟨consistent.requester_tree, own, ?_, ?_, ?_, consistent.missing, ?_⟩
  · intro rootHash member
    obtain old | new := List.mem_append.mp member
    · exact consistent.roots rootHash old
    · exact absurd (Option.mem_toList.mp new) (unannounced rootHash)
  · intro nodeHash keys children member
    obtain old | new := List.mem_append.mp member
    · exact consistent.branches nodeHash keys children old
    · obtain ⟨shown, level, same⟩ := branch nodeHash keys children (Option.mem_toList.mp new)
      exact ⟨shown, (consistent.requests level _ (same ▸ arrived)).2⟩
  · intro level nodeHash member
    exact consistent.requests level nodeHash (List.mem_of_mem_eraseIdx member)
  · intro heard
    obtain full | ⟨level, asking⟩ | ⟨nodeHash, children, answer⟩ := consistent.progress heard
    · exact .inl full
    · obtain here | later := (mem_iff_eraseIdx at_index).mp asking
      · obtain ⟨nodeHash, children, reply⟩ := answered level here.symm
        exact .inr (.inr ⟨nodeHash, children, List.mem_append_right _ (Option.mem_toList.mpr reply)⟩)
      · exact .inr (.inl ⟨level, later⟩)
    · exact .inr (.inr ⟨nodeHash, children, List.mem_append_left _ answer⟩)

theorem Consistent.step (call : ExchangeStep) : Consistent tree tree' (x.step call) := by
  cases call with
  | requesterAnnounces =>
    refine { consistent with requests := ?_, progress := ?_ }
    · intro level nodeHash member
      simp only [Exchange.step, List.mem_append, List.mem_singleton, reduceCtorEq, or_false] at member
      exact consistent.requests level nodeHash member
    · intro heard
      obtain full | ⟨level, asking⟩ | answer := consistent.progress heard
      · exact .inl full
      · exact .inr (.inl ⟨level, List.mem_append_left _ asking⟩)
      · exact .inr (.inr answer)
  | peerAnnounces =>
    refine { consistent with roots := ?_, branches := ?_, progress := ?_ }
    · intro rootHash member
      obtain old | new := List.mem_append.mp member
      · exact consistent.roots rootHash old
      · cases List.mem_singleton.mp new
        rw [consistent.peer_tree]
    · intro nodeHash keys children member
      simp only [Exchange.step, List.mem_append, List.mem_singleton, reduceCtorEq, or_false] at member
      exact consistent.branches nodeHash keys children member
    · intro heard
      obtain full | asking | ⟨nodeHash, children, answer⟩ := consistent.progress heard
      · exact .inl full
      · exact .inr (.inl asking)
      · exact .inr (.inr ⟨nodeHash, children, List.mem_append_left _ answer⟩)
  | requesterReceives index =>
    simp only [Exchange.step]
    split
    · exact consistent
    · rename_i msg at_index
      exact consistent.requesterReceives answers at_index
  | peerReceives index =>
    simp only [Exchange.step]
    split
    · exact consistent
    · rename_i msg at_index
      exact consistent.peerReceives answers at_index

end

/-- Once nothing is under way, the requester has found exactly the wanted keys of the peer's root node. -/
theorem Consistent.settled {tree tree' : ProllyTree} {x : Exchange} (consistent : Consistent tree tree' x)
    (settled : x.Settled) : x.requester.missingKeys = wanted tree tree' := by
  obtain ⟨empty, empty', heard⟩ := settled
  obtain full | ⟨level, asking⟩ | ⟨nodeHash, children, answer⟩ := consistent.progress heard
  · exact full
  · simp [empty'] at asking
  · simp [empty] at answer

end Exchange

/-- A settled exchange has found only keys that the peer has and the requester lacks, and all of them of usable
size exactly when the roots differ and the peer's root node shows them all. -/
theorem settled_exchange_finds {sha256 : List UInt8 → Vector UInt8 32} {mine theirs : List Entry}
    {tree tree' : ProllyTree} (built : build sha256 mine = some tree) (built' : build sha256 theirs = some tree')
    (steps : List ExchangeStep) (settled : (Runs.run Exchange.step (.start tree tree') steps).Settled) :
    (∀ key ∈ (Runs.run Exchange.step (.start tree tree') steps).requester.missingKeys,
      key ∈ theirs.map Prod.fst ∧ key ∉ mine.map Prod.fst ∧ Sized key) ∧
    ((∀ key, key ∈ (Runs.run Exchange.step (.start tree tree') steps).requester.missingKeys ↔
        key ∈ theirs.map Prod.fst ∧ key ∉ mine.map Prod.fst ∧ Sized key) ↔
      ∀ key ∈ theirs.map Prod.fst, key ∉ mine.map Prod.fst → Sized key →
        tree'.rootHash ≠ tree.rootHash ∧ key ∈ tree'.rootKeys) := by
  have always : Runs.Always Exchange.step (Exchange.Consistent tree tree') (.start tree tree') steps :=
    Runs.always_of_invariant (fun x call consistent => consistent.step (answers_of_build built') call)
      (Exchange.consistent_start tree tree')
  have found : ∀ key, key ∈ (Runs.run Exchange.step (.start tree tree') steps).requester.missingKeys ↔
      tree'.rootHash ≠ tree.rootHash ∧ key ∈ tree'.rootKeys ∧ Sized key ∧ key ∉ mine.map Prod.fst := by
    intro key
    rw [always.last.settled settled, mem_wanted, mem_keys_buildLevels built]
  have shown : ∀ key ∈ tree'.rootKeys, key ∈ theirs.map Prod.fst := by
    intro key member
    obtain ⟨lower, root, nodes, -, -⟩ := root_last built'
    rw [← mem_keys_buildLevels built', nodes]
    simp only [ProllyTree.rootKeys, nodes, List.getLast?_append, List.getLast?_singleton] at member
    simp_all
  constructor
  · intro key member
    obtain ⟨-, inside, sized, absent⟩ := (found key).mp member
    exact ⟨shown key inside, absent, sized⟩
  · constructor
    · intro complete key theirs_key absent sized
      obtain ⟨differ, inside, -, -⟩ := (found key).mp ((complete key).mpr ⟨theirs_key, absent, sized⟩)
      exact ⟨differ, inside⟩
    · intro suffices_root key
      rw [found]
      constructor
      · rintro ⟨-, inside, sized, absent⟩
        exact ⟨shown key inside, absent, sized⟩
      · rintro ⟨theirs_key, absent, sized⟩
        obtain ⟨differ, inside⟩ := suffices_root key theirs_key absent sized
        exact ⟨differ, inside, sized, absent⟩

/-- SHA-256 of the node texts of the lists below. -/
def sampleDigest (text : List UInt8) : Vector UInt8 32 :=
  if text = toBeBytes 0 then
    Nostr.beBytes 32 0xdf3f619804a92fdb4057192dc43dd748ea778adc52bc498ce80524c014b81119
  else if text = toBeBytes 0 ++ utf8 "v" then
    Nostr.beBytes 32 0x5f9fdf43b18d4cd73c4d2d4305d1f51ad841f455a76e0a21a7beeeb3d1249993
  else if text = toBeBytes 0 ++ utf8 "abxbcbcdvl" then
    Nostr.beBytes 32 0x9de666a326c7144c43c82dd3ca6f8a25ed03fd44c62f17babc7a8bc70dfe530a
  else if text = toBeBytes 0 ++ utf8 "cz" then
    Nostr.beBytes 32 0xc87c84c79619c124ff882ffa5a8e5ff0d3179fe34e56227d46cc42779a8147c4
  else Nostr.beBytes 32 0x491dd7d8c1b9080b10424d6e8880e9f028c578ef7df143e4930a1ead378acfc0

/-- Three pairs in two leaves, the second pair ending the first leaf. -/
def threePairs : List Entry := [("a", "x"), ("b", "bcbcdvl"), ("c", "z")]

/-- The peer announces its root and all that follows is delivered. -/
def announced : List ExchangeStep :=
  [.peerAnnounces, .requesterReceives 0, .peerReceives 0, .requesterReceives 0, .peerReceives 0]

/-- Of the peer's keys "a", "b" and "c" the requester without any finds "a" and "c": the branch below the root is
never asked for. An empty key is left out on purpose. -/
theorem key_below_root_is_missed :
    (∃ tree tree', build sampleDigest [] = some tree ∧ build sampleDigest threePairs = some tree' ∧
      (Runs.run Exchange.step (.start tree tree') announced).Settled ∧
      (Runs.run Exchange.step (.start tree tree') announced).requester.missingKeys = ["a", "c"]) ∧
    ∃ tree tree', build sampleDigest [] = some tree ∧ build sampleDigest [("", "v")] = some tree' ∧
      (Runs.run Exchange.step (.start tree tree') announced).Settled ∧
      (Runs.run Exchange.step (.start tree tree') announced).requester.missingKeys = [] := by
  obtain ⟨tree, built⟩ := Option.isSome_iff_exists.mp (show (build sampleDigest []).isSome by decide)
  obtain ⟨tree₁, built₁⟩ := Option.isSome_iff_exists.mp (show (build sampleDigest threePairs).isSome by decide +kernel)
  obtain ⟨tree₂, built₂⟩ :=
    Option.isSome_iff_exists.mp (show (build sampleDigest [("", "v")]).isSome by decide)
  have deep : ∀ tree ∈ build sampleDigest [], ∀ tree' ∈ build sampleDigest threePairs,
      (Runs.run Exchange.step (.start tree tree') announced).Settled ∧
      (Runs.run Exchange.step (.start tree tree') announced).requester.missingKeys = ["a", "c"] := by decide +kernel
  have unsized : ∀ tree ∈ build sampleDigest [], ∀ tree' ∈ build sampleDigest [("", "v")],
      (Runs.run Exchange.step (.start tree tree') announced).Settled ∧
      (Runs.run Exchange.step (.start tree tree') announced).requester.missingKeys = [] := by decide
  exact ⟨⟨tree, tree₁, built, built₁, deep tree built tree₁ built₁⟩,
    tree, tree₂, built, built₂, unsized tree built tree₂ built₂⟩

theorem exchange_finds_shown_keys :
    ∃ tree tree', build sampleDigest [] = some tree ∧ build sampleDigest threePairs = some tree' ∧
      ∀ key ∈ (Runs.run Exchange.step (.start tree tree') announced).requester.missingKeys,
        key ∈ threePairs.map Prod.fst ∧ key ∉ ([] : List Entry).map Prod.fst ∧ Sized key := by
  obtain ⟨tree, built⟩ := Option.isSome_iff_exists.mp (show (build sampleDigest []).isSome by decide)
  obtain ⟨tree', built'⟩ := Option.isSome_iff_exists.mp (show (build sampleDigest threePairs).isSome by decide +kernel)
  have settled : ∀ tree ∈ build sampleDigest [], ∀ tree' ∈ build sampleDigest threePairs,
      (Runs.run Exchange.step (.start tree tree') announced).Settled := by decide +kernel
  exact ⟨tree, tree', built, built',
    (settled_exchange_finds built built' announced (settled tree built tree' built')).1⟩

end Soshal.Sync.Prolly
