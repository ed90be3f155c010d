import Soshal.Crypto.Depth

/-! The receiving side of a party: its chain, the keys it keeps for messages that
have not arrived, and the positions it has accepted.

Whatever the order of arrival, a key that is kept opens a position that was not
accepted yet, and no position is accepted twice.
-/

set_option autoImplicit false

namespace Soshal.Crypto

open Library
open Library.KeyChain (push shiftIn chainAt keyAt)

variable {Key Sk Secret Seed : Type} (p : Primitives Key Sk Secret Seed) (held : Secret → Prop) (context : String)

/-- A party that has accepted messages: its chain has grown from a base of epoch `r` to position `i`, it keeps keys
of that epoch and of an earlier one `q`, and none of them opens a position it has seen. -/
structure ReceivingAt (s : RatchetState Key Sk) (seen : List (Int × Int)) (r q : Nat) (base : Key) (i : Nat) :
    Prop where
  depth : BaseAt p held context r base
  older : q < r
  chain : s.receivingChainKey = some (chainAt (chainStep p context) base i)
  counter : s.receivingChainCounter = i
  kept : ∀ e ∈ s.skipped, ∃ j : Nat, j < i ∧ e = ⟨j, keyAt (chainStep p context) base j⟩ ∧ ((r : Int), (j : Int)) ∉ seen
  keptOnce : (s.skipped.map (·.seq)).Nodup
  late : ∀ e ∈ s.prevEpochSkipped, ∃ j : Nat, e.seq = j ∧ KeyAt p held context q j e.key ∧ ((q : Int), (j : Int)) ∉ seen
  lateOnce : (s.prevEpochSkipped.map (·.seq)).Nodup
  bounded : ∀ x ∈ seen, ∃ n j : Nat, x = ((n : Int), (j : Int)) ∧ n ≤ r ∧ (n = r → j < i)
  seenOnce : seen.Nodup

structure Unheard (s : RatchetState Key Sk) (seen : List (Int × Int)) : Prop where
  chain : s.receivingChainKey = none
  kept : s.skipped = []
  late : s.prevEpochSkipped = []
  seen : seen = []

def Receives (s : RatchetState Key Sk) (seen : List (Int × Int)) (r q : Nat) : Prop :=
  (r = 0 ∧ q = 0 ∧ Unheard s seen) ∨ ∃ base i, ReceivingAt p held context s seen r q base i

variable {p} {held} {context}

section

variable {s : RatchetState Key Sk} {seen : List (Int × Int)} {r q : Nat}
  (receives : Receives p held context s seen r q)
include receives

theorem Receives.nodup : seen.Nodup := by
  obtain ⟨_, _, unheard⟩ | ⟨base, i, receiving⟩ := receives
  · rw [unheard.seen]
    exact List.nodup_nil
  · exact receiving.seenOnce

theorem Receives.bounded : ∀ x ∈ seen, ∃ n j : Nat, x = ((n : Int), (j : Int)) ∧ n ≤ r := by
  intro x member
  obtain ⟨_, _, unheard⟩ | ⟨base, i, receiving⟩ := receives
  · rw [unheard.seen] at member
    cases member
  · obtain ⟨n, j, same, below, _⟩ := receiving.bounded x member
    exact ⟨n, j, same, below⟩

theorem Receives.skipped :
    (∀ e ∈ s.skipped, ∃ j : Nat, e.seq = j ∧ KeyAt p held context r j e.key ∧ ((r : Int), (j : Int)) ∉ seen) ∧
      (s.skipped.map (·.seq)).Nodup := by
  obtain ⟨_, _, unheard⟩ | ⟨base, i, receiving⟩ := receives
  · simp [unheard.kept]
  · refine ⟨fun e member => ?_, receiving.keptOnce⟩
    obtain ⟨j, _, rfl, unseen⟩ := receiving.kept e member
    exact ⟨j, rfl, ⟨base, receiving.depth, rfl⟩, unseen⟩

end

theorem Receives.congr {s t : RatchetState Key Sk} {seen : List (Int × Int)} {r q : Nat}
    (receives : Receives p held context s seen r q) (chain : t.receivingChainKey = s.receivingChainKey)
    (counter : t.receivingChainCounter = s.receivingChainCounter) (skipped : t.skipped = s.skipped)
    (late : t.prevEpochSkipped = s.prevEpochSkipped) : Receives p held context t seen r q := by
  obtain ⟨zero, none, unheard⟩ | ⟨base, i, receiving⟩ := receives
  · exact .inl ⟨zero, none, chain.trans unheard.chain, skipped.trans unheard.kept, late.trans unheard.late,
      unheard.seen⟩
  · refine .inr ⟨base, i, receiving.depth, receiving.older, chain.trans receiving.chain,
      counter.trans receiving.counter, ?_, ?_, ?_, ?_, receiving.bounded, receiving.seenOnce⟩
    · rw [skipped]
      exact receiving.kept
    · rw [skipped]
      exact receiving.keptOnce
    · rw [late]
      exact receiving.late
    · rw [late]
      exact receiving.lateOnce

theorem mem_gapKeys {chain : Key} {seq : Int} {gap : Nat} {e : SkippedKey Key} :
    e ∈ gapKeys p context chain seq gap ↔
      ∃ j : Nat, j < gap ∧ e = ⟨seq + j, keyAt (chainStep p context) chain j⟩ := by
  simp only [gapKeys, List.mem_map, List.mem_range]
  constructor
  · rintro ⟨j, small, rfl⟩
    exact ⟨j, small, rfl⟩
  · rintro ⟨j, small, rfl⟩
    exact ⟨j, small, rfl⟩

theorem nodup_gapKeys (chain : Key) (seq : Int) (gap : Nat) :
    ((gapKeys p context chain seq gap).map (·.seq)).Nodup := by
  simp only [gapKeys, List.map_map]
  refine List.nodup_range.map_on ?_
  intro i _ j _ same
  simp only [Function.comp] at same
  omega

/-- Keys added for a gap at the end of the chain: each opens its own position, and no position twice. -/
theorem kept_of_gap {base : Key} {i gap : Nat} {skipped : List (SkippedKey Key)}
    (kept : ∀ e ∈ skipped, ∃ j : Nat, j < i ∧ e = ⟨j, keyAt (chainStep p context) base j⟩)
    (once : (skipped.map (·.seq)).Nodup) :
    let grown := (gapKeys p context (chainAt (chainStep p context) base i) i gap).foldl (push maxRatchetWindow) skipped
    (∀ e ∈ grown, e ∈ skipped ∨ ∃ j : Nat, i ≤ j ∧ j < i + gap ∧ e = ⟨j, keyAt (chainStep p context) base j⟩) ∧
      (grown.map (·.seq)).Nodup := by
  intro grown
  have sub : grown.Sublist (skipped ++ gapKeys p context (chainAt (chainStep p context) base i) i gap) :=
    KeyChain.foldl_sublist (KeyChain.push_sublist maxRatchetWindow) _ _
  have added : ∀ e ∈ gapKeys p context (chainAt (chainStep p context) base i) i gap,
      ∃ j : Nat, i ≤ j ∧ j < i + gap ∧ e = ⟨j, keyAt (chainStep p context) base j⟩ := by
    intro e member
    obtain ⟨j, small, rfl⟩ := mem_gapKeys.mp member
    refine ⟨i + j, Nat.le_add_right i j, by omega, ?_⟩
    rw [KeyChain.keyAt_add, Nat.cast_add]
  refine ⟨fun e member => ?_, ?_⟩
  · obtain old | new := List.mem_append.mp (sub.subset member)
    · exact .inl old
    · exact .inr (added e new)
  · refine (sub.map _).nodup ?_
    rw [List.map_append]
    refine once.append (nodup_gapKeys _ _ _) ?_
    intro seq old new
    obtain ⟨e, member, rfl⟩ := List.mem_map.mp old
    obtain ⟨e', member', same⟩ := List.mem_map.mp new
    obtain ⟨j, small, rfl⟩ := kept e member
    obtain ⟨j', large, _, rfl⟩ := added e' member'
    simp only at same
    omega

theorem not_mem_seen_cons {seen : List (Int × Int)} {n k m j : Int} (unseen : (n, k) ∉ seen) (apart : n ≠ m ∨ k ≠ j) :
    (n, k) ∉ (m, j) :: seen := by
  rintro (_ | ⟨_, member⟩)
  · obtain other | other := apart
    · exact other rfl
    · exact other rfl
  · exact unseen member

theorem Receives.joins {s t : RatchetState Key Sk} {seen : List (Int × Int)} {r q n gap : Nat} {base : Key}
    (receives : Receives p held context s seen r q) (newer : r < n) (depth : BaseAt p held context n base)
    (chain : t.receivingChainKey = some (chainAt (chainStep p context) base (gap + 1)))
    (counter : t.receivingChainCounter = gap + 1)
    (skipped : t.skipped = (gapKeys p context base 0 gap).foldl (push maxRatchetWindow) [])
    (late : t.prevEpochSkipped = s.skipped.foldl (shiftIn maxRatchetWindow) []) :
    Receives p held context t (((n : Int), (gap : Int)) :: seen) n r := by
  -- Nothing of the new epoch was seen, and what was kept becomes what is retained.
  have older : ∀ j : Int, ((n : Int), j) ∉ seen := by
    intro j member
    obtain ⟨m, k, same, below⟩ := receives.bounded _ member
    cases same
    omega
  obtain ⟨entries, once⟩ := @kept_of_gap _ _ _ _ p context base 0 gap [] (by simp) (by simp)
  have moved : (s.skipped.foldl (shiftIn maxRatchetWindow) []).Sublist s.skipped := by
    have sub := KeyChain.foldl_sublist (KeyChain.shiftIn_sublist maxRatchetWindow) s.skipped []
    rwa [List.nil_append] at sub
  obtain ⟨previous, previousOnce⟩ := receives.skipped
  refine .inr ⟨base, gap + 1, depth, newer, chain, counter, ?_, ?_, ?_, ?_, ?_, ?_⟩
  · intro e member
    rw [skipped] at member
    obtain old | ⟨j, _, small, rfl⟩ := entries e member
    · cases old
    · exact ⟨j, by omega, rfl, not_mem_seen_cons (older _) (.inr (by omega))⟩
  · rw [skipped]
    exact once
  · intro e member
    rw [late] at member
    obtain ⟨j, position, key, unseen⟩ := previous e (moved.subset member)
    exact ⟨j, position, key, not_mem_seen_cons unseen (.inl (by omega))⟩
  · rw [late]
    exact (moved.map _).nodup previousOnce
  · rintro x (_ | ⟨_, member⟩)
    · exact ⟨n, gap, rfl, le_rfl, fun _ => Nat.lt_succ_self gap⟩
    · obtain ⟨m, j, same, below⟩ := receives.bounded x member
      exact ⟨m, j, same, by omega, by omega⟩
  · exact List.nodup_cons.mpr ⟨older _, receives.nodup⟩

namespace ReceivingAt

variable {s t : RatchetState Key Sk} {seen : List (Int × Int)} {r q i : Nat} {base : Key}

theorem retains (receiving : ReceivingAt p held context s seen r q base i)
    (late : t.prevEpochSkipped = s.prevEpochSkipped) (j : Int) :
    ∀ e ∈ t.prevEpochSkipped, ∃ k : Nat, e.seq = k ∧ KeyAt p held context q k e.key ∧
      ((q : Int), (k : Int)) ∉ ((r : Int), j) :: seen := by
  intro e member
  rw [late] at member
  obtain ⟨k, position, key, fresh⟩ := receiving.late e member
  have older := receiving.older
  exact ⟨k, position, key, not_mem_seen_cons fresh (.inl (by omega))⟩

theorem advances (receiving : ReceivingAt p held context s seen r q base i) {gap : Nat}
    (chain : t.receivingChainKey = some (chainAt (chainStep p context) base (i + gap + 1)))
    (counter : t.receivingChainCounter = (i + gap : Nat) + 1)
    (skipped : t.skipped = (gapKeys p context (chainAt (chainStep p context) base i) i gap).foldl
      (push maxRatchetWindow) s.skipped)
    (late : t.prevEpochSkipped = s.prevEpochSkipped) :
    ReceivingAt p held context t (((r : Int), ((i + gap : Nat) : Int)) :: seen) r q base (i + gap + 1) := by
  have unseen : ∀ j : Nat, i ≤ j → ((r : Int), (j : Int)) ∉ seen := by
    intro j large member
    obtain ⟨m, k, same, below, early⟩ := receiving.bounded _ member
    simp only [Prod.mk.injEq, Nat.cast_inj] at same
    have := early same.1.symm
    omega
  have known : ∀ e ∈ s.skipped, ∃ j : Nat, j < i ∧ e = ⟨j, keyAt (chainStep p context) base j⟩ := by
    intro e member
    obtain ⟨j, small, same, _⟩ := receiving.kept e member
    exact ⟨j, small, same⟩
  obtain ⟨entries, once⟩ := @kept_of_gap _ _ _ _ p context base i gap s.skipped known receiving.keptOnce
  refine ⟨receiving.depth, receiving.older, chain, counter, ?_, ?_, ?_, ?_, ?_, ?_⟩
  · intro e member
    rw [skipped] at member
    obtain old | ⟨j, large, small, rfl⟩ := entries e member
    · obtain ⟨j, small, rfl, fresh⟩ := receiving.kept e old
      exact ⟨j, by omega, rfl, not_mem_seen_cons fresh (.inr (by omega))⟩
    · exact ⟨j, by omega, rfl, not_mem_seen_cons (unseen j large) (.inr (by omega))⟩
  · rw [skipped]
    exact once
  · exact receiving.retains late _
  · rw [late]
    exact receiving.lateOnce
  · rintro x (_ | ⟨_, member⟩)
    · exact ⟨r, i + gap, rfl, le_rfl, fun _ => Nat.lt_succ_self _⟩
    · obtain ⟨m, j, same, below, early⟩ := receiving.bounded x member
      exact ⟨m, j, same, below, fun current => by have := early current; omega⟩
  · exact List.nodup_cons.mpr ⟨unseen _ (Nat.le_add_right i gap), receiving.seenOnce⟩

theorem mem_eraseP_seq {entries : List (SkippedKey Key)} {seq : Int} {e : SkippedKey Key}
    (once : (entries.map (·.seq)).Nodup) (member : e ∈ entries.eraseP (·.seq == seq)) : e ∈ entries ∧ e.seq ≠ seq := by
  refine ⟨List.mem_of_mem_eraseP member, ?_⟩
  induction entries with
  | nil => cases member
  | cons first rest ih =>
    rw [List.map_cons, List.nodup_cons] at once
    by_cases same : first.seq = seq
    · rw [List.eraseP_cons_of_pos (by simp [same])] at member
      rintro rfl
      exact once.1 (List.mem_map.mpr ⟨e, member, same.symm ▸ rfl⟩)
    · rw [List.eraseP_cons_of_neg (by simp [same])] at member
      obtain rfl | later := List.mem_cons.mp member
      · exact same
      · exact ih once.2 later

theorem takes (receiving : ReceivingAt p held context s seen r q base i) {j : Nat} (small : j < i)
    (unseen : ((r : Int), (j : Int)) ∉ seen) (chain : t.receivingChainKey = s.receivingChainKey)
    (counter : t.receivingChainCounter = s.receivingChainCounter)
    (skipped : t.skipped = s.skipped.eraseP (·.seq == (j : Int))) (late : t.prevEpochSkipped = s.prevEpochSkipped) :
    ReceivingAt p held context t (((r : Int), (j : Int)) :: seen) r q base i := by
  have older := receiving.older
  refine ⟨receiving.depth, receiving.older, chain.trans receiving.chain, counter.trans receiving.counter,
    ?_, ?_, ?_, ?_, ?_, ?_⟩
  · intro e member
    rw [skipped] at member
    obtain ⟨old, other⟩ := mem_eraseP_seq receiving.keptOnce member
    obtain ⟨k, below, rfl, fresh⟩ := receiving.kept e old
    exact ⟨k, below, rfl, not_mem_seen_cons fresh (.inr other)⟩
  · rw [skipped]
    exact (List.eraseP_sublist.map _).nodup receiving.keptOnce
  · exact receiving.retains late _
  · rw [late]
    exact receiving.lateOnce
  · rintro x (_ | ⟨_, member⟩)
    · exact ⟨r, j, rfl, le_rfl, fun _ => small⟩
    · exact receiving.bounded x member
  · exact List.nodup_cons.mpr ⟨unseen, receiving.seenOnce⟩

theorem takesLate (receiving : ReceivingAt p held context s seen r q base i) {j : Nat}
    (unseen : ((q : Int), (j : Int)) ∉ seen) (chain : t.receivingChainKey = s.receivingChainKey)
    (counter : t.receivingChainCounter = s.receivingChainCounter) (skipped : t.skipped = s.skipped)
    (late : t.prevEpochSkipped = s.prevEpochSkipped.eraseP (·.seq == (j : Int))) :
    ReceivingAt p held context t (((q : Int), (j : Int)) :: seen) r q base i := by
  have older := receiving.older
  refine ⟨receiving.depth, receiving.older, chain.trans receiving.chain, counter.trans receiving.counter,
    ?_, ?_, ?_, ?_, ?_, ?_⟩
  · intro e member
    rw [skipped] at member
    obtain ⟨k, below, rfl, fresh⟩ := receiving.kept e member
    exact ⟨k, below, rfl, not_mem_seen_cons fresh (.inl (by omega))⟩
  · rw [skipped]
    exact receiving.keptOnce
  · intro e member
    rw [late] at member
    obtain ⟨old, other⟩ := mem_eraseP_seq receiving.lateOnce member
    obtain ⟨k, position, key, fresh⟩ := receiving.late e old
    rw [position] at other
    exact ⟨k, position, key, not_mem_seen_cons fresh (.inr other)⟩
  · rw [late]
    exact (List.eraseP_sublist.map _).nodup receiving.lateOnce
  · rintro x (_ | ⟨_, member⟩)
    · exact ⟨q, j, rfl, older.le, by omega⟩
    · exact receiving.bounded x member
  · exact List.nodup_cons.mpr ⟨unseen, receiving.seenOnce⟩

end ReceivingAt

end Soshal.Crypto
