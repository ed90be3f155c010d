import Soshal.Library.Runs
import Soshal.Telemetry.SharedRing

/-! The drain of the shared ring, step by step.

From its position the drain strides to the next one: over an entry, to the boundary, or
by four bytes. It ends at the head exactly when the strides from where it starts meet
the head, with every word that is read inside the ring.
-/

set_option autoImplicit false

namespace Soshal.Telemetry

open Library.Memory
open Library.Fallible (ok_bind bind_eq_ok)
open Library.LittleEndian (Bytes leBytes leValue leValue_leBytes leValue_lt length_leBytes)

namespace SharedRing

variable (ring : SharedRing)

def word (tail : Nat) : Nat :=
  leValue (slice ring.map (ringHeaderLen + tail % ring.capacity) (ringHeaderLen + tail % ring.capacity + 4))

/-- The word at a position is the length of an entry that ends before the boundary. -/
def Plausible (tail : Nat) : Prop :=
  ringEntryHeader ≤ ring.word tail ∧ ring.word tail ≤ ringEntryMaxTotal ∧ tail % ring.capacity + ring.word tail ≤ ring.capacity

instance instDecidablePlausible (tail : Nat) : Decidable (ring.Plausible tail) := by
  unfold Plausible
  infer_instance

def stride (tail : Nat) : Nat :=
  if ring.word tail = 0 then ring.capacity - tail % ring.capacity else if ring.Plausible tail then ring.word tail else 4

/-- What is taken for the payload of the entry at a position. -/
def payloadAt (tail : Nat) : Bytes :=
  let start := ringHeaderLen + tail % ring.capacity + ringEntryHeader
  let payloadLen := leValue (slice ring.map (ringHeaderLen + tail % ring.capacity + 13) (ringHeaderLen + tail % ring.capacity + 17))
  if payloadLen ≤ ringEntryMaxPayload ∧ payloadLen ≤ ring.word tail - ringEntryHeader ∧ start + payloadLen ≤ ring.map.length then
    slice ring.map start (start + payloadLen)
  else []

/-- The entry that is passed to the callback at a position, if any. -/
def entryAt (tail : Nat) : List DrainedEntry :=
  if ring.Plausible tail then
    (ring.map[ringHeaderLen + tail % ring.capacity + 4]?).toList.map fun kind => ⟨kind, ring.payloadAt tail⟩
  else []

theorem positive : 0 < ring.capacity := lt_of_lt_of_le (by decide) ring.least

theorem idx_lt (tail : Nat) : tail % ring.capacity < ring.capacity := Nat.mod_lt _ ring.positive

theorem stride_pos (tail : Nat) : 0 < ring.stride tail := by
  have inside := ring.idx_lt tail
  have header : 0 < ringEntryHeader := by decide
  unfold stride
  split
  · omega
  · split
    · rename_i likely
      exact lt_of_lt_of_le header likely.1
    · decide

theorem readU32_ok {off : Nat} (inside : off + 4 ≤ ring.map.length) :
    readU32 ring.map off = .ok (leValue (slice ring.map off (off + 4))) := by
  rw [readU32, load_ok (Nat.le_add_right _ _) inside]
  rfl

theorem readU64_ok {off : Nat} (inside : off + 8 ≤ ring.map.length) :
    readU64 ring.map off = .ok (leValue (slice ring.map off (off + 8))) := by
  rw [readU64, load_ok (Nat.le_add_right _ _) inside]
  rfl

theorem drainFrom_done {tail head : Nat} (done : head ≤ tail) : ring.drainFrom tail head = .ok ([], tail) := by
  rw [drainFrom, dif_neg (not_lt.mpr done)]
  rfl

theorem drainFrom_outside {tail head : Nat} (more : tail < head)
    (outside : ¬ tail % ring.capacity + 4 ≤ ring.capacity) :
    ring.drainFrom tail head = .error .outOfBounds := by
  have size := ring.sized
  have missing : readU32 ring.map (ringHeaderLen + tail % ring.capacity) = .error .outOfBounds := by
    rw [readU32, load, if_neg (by omega)]
    rfl
  rw [drainFrom, dif_pos more]
  dsimp only
  rw [missing]
  rfl

theorem drainFrom_turn {tail head : Nat} (more : tail < head) (inside : tail % ring.capacity + 4 ≤ ring.capacity) :
    ring.drainFrom tail head =
      add tail (ring.stride tail) >>= fun _ => ring.drainFrom (tail + ring.stride tail) head >>= fun rest =>
        .ok (ring.entryAt tail ++ rest.1, rest.2) := by
  have size := ring.sized
  have same (x : Except Fault (List DrainedEntry × Nat)) : x = x >>= fun rest => .ok ([] ++ rest.1, rest.2) := by
    cases x with
    | error fault => rfl
    | ok rest => rfl
  rw [drainFrom, dif_pos more]
  dsimp only
  rw [readU32_ok ring (by omega), ok_bind, ← word, stride]
  by_cases mark : ring.word tail = 0
  · have plain : ¬ ring.Plausible tail := by
      rintro ⟨least, -⟩
      rw [mark] at least
      exact absurd least (by decide)
    rw [if_pos mark, if_pos mark, entryAt, if_neg plain, ← same]
  · rw [if_neg mark, if_neg mark]
    by_cases likely : ring.Plausible tail
    · have header : ringEntryHeader = 17 := rfl
      obtain ⟨least, greatest, fits⟩ := id likely
      obtain ⟨kind, found⟩ : ∃ kind, ring.map[ringHeaderLen + tail % ring.capacity + 4]? = some kind :=
        ⟨ring.map[ringHeaderLen + tail % ring.capacity + 4], List.getElem?_eq_getElem (by omega)⟩
      have taken : takePayload ring.map (ringHeaderLen + tail % ring.capacity + ringEntryHeader) (ring.word tail)
          (leValue (slice ring.map (ringHeaderLen + tail % ring.capacity + 13)
            (ringHeaderLen + tail % ring.capacity + 13 + 4))) = .ok (ring.payloadAt tail) := by
        unfold takePayload payloadAt
        split
        · rename_i bounds
          rw [load_ok (Nat.le_add_right _ _) bounds.2.2, if_pos bounds]
        · rename_i bounds
          rw [if_neg bounds]
      rw [dif_neg (by omega), if_pos likely, loadAt_ok found, ok_bind, readU32_ok ring (by omega), ok_bind, taken,
        ok_bind, entryAt, if_pos likely, found]
      rfl
    · have odd : ¬ (ringEntryHeader ≤ ring.word tail ∧ ring.word tail ≤ ringEntryMaxTotal) ∨
          tail % ring.capacity + ring.word tail > ring.capacity := by
        unfold Plausible at likely
        omega
      rw [dif_pos odd, if_neg likely, entryAt, if_neg likely, ← same]

theorem drainFrom_next {tail head : Nat} (more : tail < head) (inside : tail % ring.capacity + 4 ≤ ring.capacity)
    (small : tail + ring.stride tail < 2 ^ 64) {entries : List DrainedEntry} {last : Nat}
    (rest : ring.drainFrom (tail + ring.stride tail) head = .ok (entries, last)) :
    ring.drainFrom tail head = .ok (ring.entryAt tail ++ entries, last) := by
  rw [drainFrom_turn ring more inside, add_ok small, ok_bind, rest]
  rfl

/-- From a position the words lead to the head, each with its own stride, and none of them crosses the boundary. -/
inductive Spans : Nat → Nat → Prop where
  | done (head : Nat) : Spans head head
  | turn {tail head : Nat} (inside : tail % ring.capacity + 4 ≤ ring.capacity) (within : tail + ring.stride tail ≤ head)
      (rest : Spans (tail + ring.stride tail) head) : Spans tail head

variable {ring}

theorem Spans.drainFrom {tail head : Nat} (spans : ring.Spans tail head) (large : head < 2 ^ 64) :
    ∃ entries, ring.drainFrom tail head = .ok (entries, head) := by
  induction spans with
  | done head => exact ⟨[], ring.drainFrom_done (le_refl head)⟩
  | @turn tail head inside within _ ih =>
    have forward := ring.stride_pos tail
    obtain ⟨entries, rest⟩ := ih large
    exact ⟨_, ring.drainFrom_next (by omega) inside (by omega) rest⟩

theorem drainFrom_inv {tail head last : Nat} {entries : List DrainedEntry}
    (drained : ring.drainFrom tail head = .ok (entries, last)) (more : tail < head) :
    tail % ring.capacity + 4 ≤ ring.capacity ∧ tail + ring.stride tail < 2 ^ 64 ∧
      ∃ rest, ring.drainFrom (tail + ring.stride tail) head = .ok (rest, last) := by
  by_cases inside : tail % ring.capacity + 4 ≤ ring.capacity
  · rw [drainFrom_turn ring more inside] at drained
    obtain ⟨next, small, later⟩ := bind_eq_ok.mp drained
    obtain ⟨⟨rest, reached⟩, done, same⟩ := bind_eq_ok.mp later
    cases same
    refine ⟨inside, ?_, rest, done⟩
    by_contra large
    rw [add, if_neg large] at small
    cases small
  · rw [drainFrom_outside ring more inside] at drained
    cases drained

theorem drainFrom_spans {tail head last : Nat} {entries : List DrainedEntry}
    (drained : ring.drainFrom tail head = .ok (entries, last)) (ordered : tail ≤ head) (small : tail < 2 ^ 64) :
    head ≤ last ∧ last < 2 ^ 64 ∧ (last = head → ring.Spans tail head) := by
  induction left : head - tail using Nat.strong_induction_on generalizing tail entries with
  | h left ih =>
    by_cases more : tail < head
    · have forward := ring.stride_pos tail
      obtain ⟨inside, fits, rest, later⟩ := drainFrom_inv drained more
      by_cases within : tail + ring.stride tail ≤ head
      · obtain ⟨far, bounded, spans⟩ := ih (head - (tail + ring.stride tail)) (by omega) later within fits rfl
        exact ⟨far, bounded, fun reached => .turn inside within (spans reached)⟩
      · rw [drainFrom_done ring (by omega)] at later
        cases later
        exact ⟨by omega, fits, fun reached => absurd reached (by omega)⟩
    · obtain rfl : tail = head := by omega
      rw [drainFrom_done ring (le_refl _)] at drained
      cases drained
      exact ⟨le_refl _, small, fun _ => .done _⟩

variable (ring)

def headOf : Nat := leValue (slice ring.map 0 8)

def tailOf : Nat := leValue (slice ring.map 8 16)

theorem head_ok : ring.head = .ok ring.headOf := by
  have size := ring.sized
  have header : ringHeaderLen = 4096 := rfl
  exact ring.readU64_ok (by omega)

theorem tail_ok : readU64 ring.map 8 = .ok ring.tailOf := by
  have size := ring.sized
  have header : ringHeaderLen = 4096 := rfl
  exact ring.readU64_ok (by omega)

theorem headOf_lt : ring.headOf < 2 ^ 64 := by
  have size := ring.sized
  have header : ringHeaderLen = 4096 := rfl
  have bounded := leValue_lt (slice ring.map 0 8)
  rwa [length_slice (by omega)] at bounded

theorem clamped_le (tail head : Nat) : ring.clamped tail head ≤ head := by
  unfold clamped
  split
  · exact le_refl _
  · split <;> omega

theorem copy_ok {pos : Nat} {data : Bytes} (inside : pos + data.length ≤ ring.map.length) :
    ∃ after, ring.copy pos data = .ok after ∧ after.map = put ring.map pos data ∧ after.capacity = ring.capacity := by
  rw [copy, dif_pos inside]
  exact ⟨_, rfl, rfl, rfl⟩

theorem drain_ok {entries : List DrainedEntry} {last : Nat} (small : last < 2 ^ 64)
    (drained : ring.drainFrom (ring.clamped ring.tailOf ring.headOf) ring.headOf = .ok (entries, last)) :
    ∃ after, ring.drain = .ok (entries, after) ∧ after.map = put ring.map 8 (leBytes 8 last) ∧
      after.capacity = ring.capacity ∧ after.tailOf = last ∧ after.headOf = ring.headOf := by
  have size := ring.sized
  have header : ringHeaderLen = 4096 := rfl
  have inside : 8 + (leBytes 8 last).length ≤ ring.map.length := by
    rw [length_leBytes]
    omega
  obtain ⟨after, copied, map, capacity⟩ := ring.copy_ok inside
  have tail : slice after.map 8 16 = leBytes 8 last := by
    have written := slice_put_self inside
    rwa [← map, length_leBytes] at written
  refine ⟨after, ?_, map, capacity, ?_, ?_⟩
  · rw [drain, tail_ok, ok_bind, head_ok, ok_bind, drained, ok_bind]
    dsimp only
    rw [copied]
    rfl
  · rw [tailOf, tail, leValue_leBytes (by omega)]
  · rw [headOf, headOf, map, slice_put_before inside (le_refl 8)]

/-- The drain is in bounds, does not overflow and leaves the tail at the head exactly when the words lead there. -/
theorem drain_safe_iff :
    (∃ entries after, ring.drain = .ok (entries, after) ∧ after.tailOf = after.headOf) ↔
      ring.Spans (ring.clamped ring.tailOf ring.headOf) ring.headOf := by
  have bounded := ring.headOf_lt
  have ordered := ring.clamped_le ring.tailOf ring.headOf
  constructor
  · rintro ⟨entries, after, done, same⟩
    have parts := done
    rw [drain, tail_ok, ok_bind, head_ok, ok_bind] at parts
    obtain ⟨⟨drained, last⟩, reached, -⟩ := bind_eq_ok.mp parts
    obtain ⟨-, small, spans⟩ := drainFrom_spans reached ordered (by omega)
    obtain ⟨final, again, -, -, tail, head⟩ := ring.drain_ok small reached
    rw [done] at again
    cases again
    exact spans (by rw [← tail, same, head])
  · intro spans
    obtain ⟨entries, reached⟩ := spans.drainFrom bounded
    obtain ⟨after, done, -, -, tail, head⟩ := ring.drain_ok bounded reached
    exact ⟨entries, after, done, by rw [tail, head]⟩

/-- The writer's own access to the data, which is no call: bytes at a position in the ring. -/
def poke (idx : Nat) (bytes : Bytes) : SharedRing := (ring.copy (ringHeaderLen + idx) bytes).toOption.getD ring

end SharedRing

inductive RingCall where
  | poke (idx : Nat) (bytes : Bytes)
  | advanceHead (newHead : UInt64)
  | drain

namespace SharedRing

def step (ring : SharedRing) : RingCall → SharedRing
  | .poke idx bytes => ring.poke idx bytes
  | .advanceHead newHead =>
    match ring.advanceHead newHead with
    | .ok (.ok after) => after
    | _ => ring
  | .drain =>
    match ring.drain with
    | .ok (_, after) => after
    | .error _ => ring

/-- A drain ends without a fault and leaves the tail at the head. -/
def DrainSafe (ring : SharedRing) : RingCall → Prop
  | .drain => ∃ entries after, ring.drain = .ok (entries, after) ∧ after.tailOf = after.headOf
  | _ => True

def DrainSpans (ring : SharedRing) : RingCall → Prop
  | .drain => ring.Spans (ring.clamped ring.tailOf ring.headOf) ring.headOf
  | _ => True

theorem drainSafe_iff (ring : SharedRing) (call : RingCall) : ring.DrainSafe call ↔ ring.DrainSpans call := by
  cases call with
  | drain => exact ring.drain_safe_iff
  | _ => exact Iff.rfl

end SharedRing

end Soshal.Telemetry
