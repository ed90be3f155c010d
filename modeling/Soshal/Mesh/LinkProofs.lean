import Soshal.Mesh.Link

/-! Which pending link a proof completes.

A proof that names its responder is taken for the link to that address. One that names
nobody is taken for the link of the address it came under, or else for whichever pending
link the table lists first. Nothing in a proof refers to the request, so which request a
proof answers is known to its maker alone; here it is a parameter.
-/

set_option autoImplicit false

namespace Soshal.Mesh

open Library Crypto
open Library.Text (utf8 fromUtf8 trim)

variable {Key Sk Secret Seed : Type}

theorem linkPeerId_inj {first second : ReticulumAddress} (same : linkPeerId first = linkPeerId second) :
    first = second := ReticulumAddress.eq_of_toHex same

namespace LinkManager

def Untouched (before after : LinkManager Key Sk) (dest : ReticulumAddress) : Prop :=
  after.links.find? dest = before.links.find? dest ∧
    after.crypto.states.find? (linkPeerId dest) = before.crypto.states.find? (linkPeerId dest)

variable (manager : LinkManager Key Sk) {dest : ReticulumAddress} {key : Bytes} {pk : String}

/-- A proof with this key does nothing to the link: it is not pending, the key is blank or no text, or the link
has no session. -/
def Idle (dest : ReticulumAddress) (key : Bytes) : Prop :=
  (∀ link, manager.links.find? dest = some link → link.state ≠ .pending) ∨
    (∀ pk, fromUtf8 key = some pk → trim pk = "") ∨ manager.crypto.states.find? (linkPeerId dest) = none

/-- The proof is taken for the link whose request it answers, or for one that it does nothing to. -/
def TakenRightly (fromDest : ReticulumAddress) (proof : Bytes) (answered : Option ReticulumAddress) : Prop :=
  match if proof.head? = some proofPqcSender then splitSender proof else none with
  | some (responder, key) => some responder = answered ∨ manager.Idle responder key
  | none =>
    if (manager.links.find? fromDest).isSome then some fromDest = answered ∨ manager.Idle fromDest proof
    else ∀ row, manager.links.rows.find? (fun row => row.2.state == .pending) = some row →
      some row.1 = answered ∨ manager.Idle row.1 proof

def complete (dest : ReticulumAddress) (pk : String) (now : Nat) : LinkManager Key Sk :=
  match manager.links.find? dest, manager.crypto.states.find? (linkPeerId dest) with
  | some link, some session =>
    if link.state = .pending ∧ trim pk ≠ "" then
      { manager with crypto := manager.crypto.put (linkPeerId dest) { session.state with peerPk := pk } now }.setLink
        dest { link with state := .established, lastActivity := now }
    else manager
  | _, _ => manager

theorem handleLinkProof_parsed {manager : LinkManager Key Sk} {fromDest dest : ReticulumAddress} {proof : Bytes}
    {pk : String} (parsed : manager.parseLinkProof fromDest proof = .ok (dest, pk)) (now : Nat) :
    (manager.handleLinkProof fromDest proof now).1 = manager.complete dest pk now := by
  unfold handleLinkProof complete
  rw [parsed]
  dsimp only
  cases found : manager.links.find? dest with
  | none => rfl
  | some link =>
    dsimp only
    by_cases pending : link.state = .pending
    · rw [if_pos pending]
      by_cases blank : trim pk = ""
      · cases session : manager.crypto.states.find? (linkPeerId dest) with
        | none => simp [PqcLinkCrypto.completeHandshake, blank]
        | some session => simp [PqcLinkCrypto.completeHandshake, blank]
      · cases session : manager.crypto.states.find? (linkPeerId dest) with
        | none => simp [PqcLinkCrypto.completeHandshake, blank, PqcLinkCrypto.get, session]
        | some session =>
          simp [PqcLinkCrypto.completeHandshake, blank, PqcLinkCrypto.get, session, pending]
    · rw [if_neg pending]
      cases manager.crypto.states.find? (linkPeerId dest) with
      | none => rfl
      | some session => simp [pending]

theorem complete_other {dest other : ReticulumAddress} (apart : other ≠ dest)
    (pk : String) (now : Nat) : manager.Untouched (manager.complete dest pk now) other := by
  have peers : linkPeerId other ≠ linkPeerId dest := fun same => apart (linkPeerId_inj same)
  unfold complete
  split
  · split
    · constructor
      · simp only [setLink, Table.find?_upsert_of_ne _ _ _ apart]
      · simp only [setLink, PqcLinkCrypto.put, Table.find?_upsert_of_ne _ _ _ peers]
    · exact ⟨rfl, rfl⟩
  · exact ⟨rfl, rfl⟩

/-- A proof leaves the link it is taken for alone exactly when there is nothing to complete. -/
theorem complete_self_iff (text : fromUtf8 key = some pk) (now : Nat) :
    manager.Untouched (manager.complete dest pk now) dest ↔ manager.Idle dest key := by
  unfold complete Idle
  cases found : manager.links.find? dest with
  | none => simp [Untouched, found]
  | some link =>
    cases session : manager.crypto.states.find? (linkPeerId dest) with
    | none => simp [Untouched, found, session]
    | some session =>
      dsimp only
      by_cases completes : link.state = .pending ∧ trim pk ≠ ""
      · rw [if_pos completes]
        constructor
        · rintro ⟨same, -⟩
          rw [find?_setLink, found] at same
          have states := congrArg LinkInfo.state (Option.some.inj same)
          rw [completes.1] at states
          cases states
        · rintro (settled | blank | gone)
          · exact absurd completes.1 (settled link rfl)
          · exact absurd (blank pk text) completes.2
          · cases gone
      · rw [if_neg completes]
        refine iff_of_true ⟨rfl, rfl⟩ ?_
        by_cases pending : link.state = .pending
        · refine .inr (.inl ?_)
          intro other same
          rw [text] at same
          cases same
          by_contra shown
          exact completes ⟨pending, shown⟩
        · refine .inl ?_
          rintro other ⟨⟩
          exact pending

theorem complete_others_iff (text : fromUtf8 key = some pk) (now : Nat) (answered : Option ReticulumAddress) :
    (∀ other, some other ≠ answered → manager.Untouched (manager.complete dest pk now) other) ↔
      some dest = answered ∨ manager.Idle dest key := by
  constructor
  · intro spared
    by_cases same : some dest = answered
    · exact .inl same
    · exact .inr ((manager.complete_self_iff text now).mp (spared dest same))
  · rintro (same | idle) other foreign
    · refine manager.complete_other ?_ pk now
      rintro rfl
      exact foreign same
    · by_cases same : other = dest
      · rw [same]
        exact (manager.complete_self_iff text now).mpr idle
      · exact manager.complete_other same pk now

theorem untouched_of_error {manager : LinkManager Key Sk} {fromDest : ReticulumAddress} {proof : Bytes} {e : String}
    (refused : manager.parseLinkProof fromDest proof = .error e) (now : Nat) (other : ReticulumAddress) :
    manager.Untouched (manager.handleLinkProof fromDest proof now).1 other := by
  rw [handleLinkProof, refused]
  exact ⟨rfl, rfl⟩

theorem idle_of_no_text (dest : ReticulumAddress)
    (none : fromUtf8 key = none) : manager.Idle dest key := by
  refine .inr (.inl ?_)
  intro pk text
  rw [none] at text
  cases text

/-- A proof leaves every link and session alone but those of the request it answers, exactly when it is taken for
that request's link or for one that it does nothing to. -/
theorem proof_spares_other_links_iff (manager : LinkManager Key Sk) (fromDest : ReticulumAddress) (proof : Bytes)
    (now : Nat) (answered : Option ReticulumAddress) :
    (∀ other, some other ≠ answered → manager.Untouched (manager.handleLinkProof fromDest proof now).1 other) ↔
      manager.TakenRightly fromDest proof answered := by
  unfold TakenRightly
  split
  · -- The proof names its responder.
    rename_i responder key named
    cases text : fromUtf8 key with
    | none =>
      have refused : manager.parseLinkProof fromDest proof = .error "link proof pk not ascii" := by
        rw [parseLinkProof, named]
        simp [text]
      exact iff_of_true (fun other _ => untouched_of_error refused now other)
        (.inr (manager.idle_of_no_text responder text))
    | some pk =>
      have parsed : manager.parseLinkProof fromDest proof = .ok (responder, pk) := by
        rw [parseLinkProof, named]
        simp [text]
      rw [handleLinkProof_parsed parsed]
      exact manager.complete_others_iff text now answered
  · -- It is taken for the link to its sender, or else for the first pending one.
    rename_i unnamed
    cases text : fromUtf8 proof with
    | none =>
      have refused : manager.parseLinkProof fromDest proof = .error "link proof pk not ascii" := by
        rw [parseLinkProof, unnamed]
        simp [text]
      refine iff_of_true (fun other _ => untouched_of_error refused now other) ?_
      split
      · exact .inr (manager.idle_of_no_text fromDest text)
      · exact fun row _ => .inr (manager.idle_of_no_text row.1 text)
    | some pk =>
      split
      · rename_i linked
        have parsed : manager.parseLinkProof fromDest proof = .ok (fromDest, pk) := by
          rw [parseLinkProof, unnamed]
          simp [text, linked]
        rw [handleLinkProof_parsed parsed]
        exact manager.complete_others_iff text now answered
      · rename_i unlinked
        cases first : manager.links.rows.find? (fun row => row.2.state == .pending) with
        | none =>
          have parsed : manager.parseLinkProof fromDest proof = .ok (fromDest, pk) := by
            rw [parseLinkProof, unnamed]
            simp [text, unlinked, first]
          have missing : manager.links.find? fromDest = none := by simpa using unlinked
          have idle : manager.Idle fromDest proof := .inl fun link found => by
            rw [missing] at found
            cases found
          rw [handleLinkProof_parsed parsed, manager.complete_others_iff text now answered]
          exact iff_of_true (.inr idle) (by simp)
        | some row =>
          have parsed : manager.parseLinkProof fromDest proof = .ok (row.1, pk) := by
            rw [parseLinkProof, unnamed]
            simp [text, unlinked, first]
          rw [handleLinkProof_parsed parsed, manager.complete_others_iff text now answered]
          simp

section TwoPending

open Crypto.Transcript

/-- What two requests leave: a pending link and a session for each. -/
def twoPending : LinkManager Bytes UInt8 :=
  let crypto := (PqcLinkCrypto.new.put (linkPeerId north) (initState "" (linkContext north) 1 (pkOf 1)) 0).put
    (linkPeerId south) (initState "" (linkContext south) 2 (pkOf 2)) 0
  ((⟨.empty, crypto⟩ : LinkManager Bytes UInt8).setLink north (newLink north .pending 0)).setLink south
    (newLink south .pending 0)

/-- The initiator's own address, under which a proof for it arrives. -/
def east : ReticulumAddress := ⟨List.replicate 16 0x45, rfl⟩

theorem pkOf_untagged : (utf8 (pkOf 3)).head? ≠ some proofPqcSender := by
  have text : pkOf 3 = "03" ++ Text.hexEncode (List.replicate 1216 3) := by
    rw [pkOf, ← String.toList_inj]
    simp only [Text.hexEncode, String.toList_ofList, String.toList_append]
    rfl
  have head : (utf8 "03").head? = some 48 := by decide
  have nonempty : utf8 "03" ≠ [] := by decide
  rw [text, Text.utf8_append, List.head?_append_of_ne_nil _ nonempty, head]
  decide

/-- The answer of the southern node, sent without a name, completes the northern link with the southern key. -/
theorem unnamed_proof_completes_other_link :
    ¬ ∀ other, some other ≠ some south →
      twoPending.Untouched (twoPending.handleLinkProof east (utf8 (pkOf 3)) 1).1 other := by
  intro spared
  have unlinked : (twoPending.links.find? east).isSome = false := by decide
  have first : (twoPending.links.rows.find? fun row => row.2.state == .pending) =
      some (north, newLink north .pending 0) := rfl
  have parsed : twoPending.parseLinkProof east (utf8 (pkOf 3)) = .ok (north, pkOf 3) := by
    rw [parseLinkProof, if_neg pkOf_untagged]
    simp [unlinked, first]
  have north' : twoPending.Idle north (utf8 (pkOf 3)) := by
    rw [← twoPending.complete_self_iff (Text.fromUtf8_utf8 (pkOf 3)) 1, ← handleLinkProof_parsed parsed]
    exact spared north (by decide)
  rcases north' with settled | blank | gone
  · exact settled (newLink north .pending 0) rfl rfl
  · exact trim_pkOf 3 (blank (pkOf 3) (Text.fromUtf8_utf8 (pkOf 3)))
  · have apart : linkPeerId north ≠ linkPeerId south := fun same => absurd (linkPeerId_inj same) (by decide)
    simp only [twoPending, setLink, PqcLinkCrypto.put, Table.find?_upsert_of_ne _ _ _ apart,
      Table.find?_upsert_self] at gone
    cases gone

end TwoPending

end LinkManager

end Soshal.Mesh
