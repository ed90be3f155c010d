import Mathlib.Data.List.Flatten
import Soshal.Telemetry.RingItems

/-! The protocol of the ring's writer, and what the drains deliver.

The writer lays down an entry at its cursor, or a zero word when the entry would cross
the boundary, and then publishes it by advancing the head; drains come in between. A
drain that starts where an item starts, with nothing behind overwritten, delivers the
entries from there on.
-/

set_option autoImplicit false

namespace Soshal.Telemetry

open Library.Memory
open Library.Fallible (bind_eq_ok)
open Library.Runs (Always Throughout)
open Library.LittleEndian (Bytes leBytes length_leBytes)

/-- The ring, what the writer has laid down and not published, and what it has published since the last drain with
the positions; and the entries published and received so far. -/
structure Session where
  ring : SharedRing
  started : Option Item
  fresh : List (Nat × Item)
  written : List DrainedEntry
  received : List DrainedEntry

inductive Act where
  | place (item : Item)
  | publish
  | drain

namespace Session

/-- A cursor past 64 bits cannot be passed on, and is never reached. -/
def place (s : Session) (item : Item) : Session :=
  if s.started.isNone ∧ item.Fits s.ring.capacity s.ring.headOf ∧
      s.ring.headOf + item.size s.ring.capacity s.ring.headOf < 2 ^ 64 then
    { s with ring := s.ring.poke (s.ring.headOf % s.ring.capacity) item.bytes, started := some item }
  else s

def publish (s : Session) : Session :=
  match s.started with
  | none => s
  | some item =>
    match s.ring.advanceHead (UInt64.ofNat (s.ring.headOf + item.size s.ring.capacity s.ring.headOf)) with
    | .ok (.ok ring) =>
      { s with
        ring := ring, started := none, fresh := s.fresh ++ [(s.ring.headOf, item)], written := s.written ++ item.entries }
    | _ => s

def drain (s : Session) : Session :=
  match s.ring.drain with
  | .ok (entries, ring) => { s with ring := ring, fresh := [], received := s.received ++ entries }
  | .error _ => s

def step (s : Session) : Act → Session
  | .place item => s.place item
  | .publish => s.publish
  | .drain => s.drain

/-- The end of what the writer has written, published or not. -/
def reach (s : Session) : Nat := s.ring.headOf + s.started.elim 0 fun item => item.bytes.length

/-- The items since the last drain that the writer has not gone over. -/
def intact (s : Session) : List (Nat × Item) := s.fresh.filter fun placed => s.reach ≤ placed.1 + s.ring.capacity

/-- A drain reaches the head, and passes on entries published since the last drain, in order and each at most once, and
among them all that the writer has not gone over. -/
def Delivers (s : Session) : Act → Prop
  | .drain => ∃ entries after, s.ring.drain = .ok (entries, after) ∧ after.tailOf = after.headOf ∧
      entries.Sublist (entriesOf s.fresh) ∧ (entriesOf s.intact).Sublist entries
  | _ => True

/-- A drain starts where an item starts, or at the head, and the writer has not gone over what lies behind. -/
def OnBoundary (s : Session) : Act → Prop
  | .drain =>
    let start := s.ring.clamped s.ring.tailOf s.ring.headOf
    (start = s.ring.headOf ∨ start ∈ s.fresh.map Prod.fst) ∧ s.reach ≤ start + s.ring.capacity
  | _ => True

end Session

/-- The items since the last drain are chained from the tail to the head and lie in the ring as far as the writer has not
gone over them; what is laid down lies at the head; and what was received was written before the last drain. -/
structure Held (s : Session) : Prop where
  aligned : s.ring.tailOf % 4 = 0
  chained : Chained s.ring.capacity s.ring.tailOf s.fresh s.ring.headOf
  kept : ∀ placed ∈ s.fresh, s.reach ≤ placed.1 + s.ring.capacity → Lies s.ring placed.1 placed.2
  begun : ∀ item, s.started = some item → item.Fits s.ring.capacity s.ring.headOf ∧
    s.ring.headOf + item.size s.ring.capacity s.ring.headOf < 2 ^ 64 ∧ Lies s.ring s.ring.headOf item
  order : ∃ old, s.written = old ++ entriesOf s.fresh ∧ s.received.Sublist old

section Held

variable {s : Session} (held : Held s)
include held

theorem Held.place (item : Item) : Held (s.place item) := by
  unfold Session.place
  split
  · rename_i conditions
    obtain ⟨idle, fits, small⟩ := conditions
    have idle : s.started = none := Option.isNone_iff_eq_none.mp idle
    have head := (held.chained.aligned held.aligned).1
    have bytes := bytes_le_size s.ring item head
    have ends := fits.ends
    have room : s.ring.headOf % s.ring.capacity + item.bytes.length ≤ s.ring.capacity := by omega
    obtain ⟨map, capacity, sameHead, sameTail⟩ := poke_ok s.ring room
    refine ⟨?_, ?_, ?_, ?_, held.order⟩
    · exact sameTail ▸ held.aligned
    · dsimp only
      rw [capacity, sameHead, sameTail]
      exact held.chained
    · intro placed member untouched
      simp only [Session.reach, capacity, sameHead, Option.elim_some] at untouched
      have aligned := (held.chained.aligned held.aligned).2 placed member
      obtain ⟨-, before, -⟩ := held.chained.bounds.2 placed member
      have own := bytes_le_size s.ring placed.2 aligned
      have lies := held.kept placed member (by rw [Session.reach, idle, Option.elim_none]; omega)
      exact lies.poke room (by omega) untouched
    · rintro other ⟨rfl⟩
      dsimp only
      rw [capacity, sameHead]
      exact ⟨fits, small, lies_poked s.ring s.ring.headOf item room⟩
  · exact held

theorem Held.publish : Held s.publish := by
  unfold Session.publish
  cases started : s.started with
  | none => exact held
  | some item =>
    obtain ⟨fits, small, lies⟩ := held.begun item started
    have head := (held.chained.aligned held.aligned).1
    have bytes := bytes_le_size s.ring item head
    have ends := fits.ends
    have header : ringHeaderLen = 4096 := rfl
    obtain ⟨after, advanced, map, capacity, newHead, sameTail⟩ := advanceHead_ok s.ring (by omega) small
    have early :
        0 + (leBytes 8 (s.ring.headOf + item.size s.ring.capacity s.ring.headOf)).length ≤ ringHeaderLen := by
      rw [length_leBytes]
      omega
    dsimp only
    rw [advanced]
    refine ⟨?_, ?_, ?_, ?_, ?_⟩
    · exact sameTail ▸ held.aligned
    · dsimp only
      rw [capacity, newHead, sameTail]
      exact held.chained.snoc fits
    · intro placed member untouched
      simp only [Session.reach, capacity, newHead, Option.elim_none] at untouched
      dsimp only
      rcases List.mem_append.mp member with old | new
      · have stays := held.kept placed old (by rw [Session.reach, started, Option.elim_some]; omega)
        exact stays.header_write map capacity early
      · rw [List.mem_singleton.mp new]
        exact lies.header_write map capacity early
    · intro other laid
      cases laid
    · obtain ⟨old, split, inOrder⟩ := held.order
      refine ⟨old, ?_, inOrder⟩
      simp only [split, entriesOf, List.flatMap_append, List.flatMap_cons, List.flatMap_nil, List.append_nil,
        List.append_assoc]

theorem Held.drain_ok (boundary : s.OnBoundary .drain) :
    ∃ before last after, s.fresh = before ++ last ∧ s.ring.drain = .ok (entriesOf last, after) ∧
      after.map = put s.ring.map 8 (leBytes 8 s.ring.headOf) ∧ after.capacity = s.ring.capacity ∧
        after.tailOf = s.ring.headOf ∧ after.headOf = s.ring.headOf ∧
          ∀ placed ∈ before, placed.1 + s.ring.capacity < s.reach := by
  obtain ⟨starts, clear⟩ := boundary
  generalize begins : s.ring.clamped s.ring.tailOf s.ring.headOf = start at starts clear
  obtain ⟨before, last, split, chain, earlier⟩ := held.chained.cut starts
  obtain ⟨headAligned, aligned⟩ := held.chained.aligned held.aligned
  have startAligned : start % 4 = 0 := by
    rcases starts with rfl | member
    · exact headAligned
    · obtain ⟨placed, listed, rfl⟩ := List.mem_map.mp member
      exact aligned placed listed
  have lies : ∀ placed ∈ last, Lies s.ring placed.1 placed.2 := by
    intro placed member
    have ahead := (chain.bounds.2 placed member).1
    exact held.kept placed (by rw [split]; exact List.mem_append_right _ member) (by omega)
  have drained := chain.drains startAligned s.ring.headOf_lt lies
  rw [← begins] at drained
  obtain ⟨after, done, map, capacity, tail, head⟩ := s.ring.drain_ok s.ring.headOf_lt drained
  refine ⟨before, last, after, split, done, map, capacity, tail, head, fun placed member => ?_⟩
  have first := (held.chained.bounds.2 placed (by rw [split]; exact List.mem_append_left _ member)).1
  have small := earlier placed member
  have ordered := held.chained.bounds.1
  have reached : s.ring.headOf ≤ s.reach := Nat.le_add_right _ _
  unfold SharedRing.clamped at begins
  split at begins
  · omega
  · split at begins <;> omega

theorem Held.delivers (act : Act) (boundary : s.OnBoundary act) : s.Delivers act := by
  cases act with
  | place item => trivial
  | publish => trivial
  | drain =>
    obtain ⟨before, last, after, split, done, -, -, tail, head, gone⟩ := held.drain_ok boundary
    refine ⟨entriesOf last, after, done, by rw [tail, head], ?_, ?_⟩
    · rw [split, entriesOf, entriesOf, List.flatMap_append]
      exact List.sublist_append_right _ _
    · have none : before.filter (fun placed => s.reach ≤ placed.1 + s.ring.capacity) = [] := by
        rw [List.filter_eq_nil_iff]
        intro placed member
        have passed := gone placed member
        simp only [decide_eq_true_eq]
        omega
      rw [Session.intact, split, List.filter_append, none, List.nil_append]
      exact List.filter_sublist.flatMap _

theorem Held.drain (boundary : s.OnBoundary .drain) : Held s.drain := by
  obtain ⟨before, last, after, split, done, map, capacity, tail, head, -⟩ := held.drain_ok boundary
  have header : ringHeaderLen = 4096 := rfl
  unfold Session.drain
  rw [done]
  refine ⟨?_, ?_, fun placed member => absurd member List.not_mem_nil, ?_, ?_⟩
  · rw [tail]
    exact (held.chained.aligned held.aligned).1
  · dsimp only
    rw [tail, head]
    rfl
  · intro item laid
    obtain ⟨fits, small, lies⟩ := held.begun item laid
    dsimp only
    rw [capacity, head]
    exact ⟨fits, small, lies.header_write map capacity (by rw [length_leBytes]; omega)⟩
  · obtain ⟨old, whole, inOrder⟩ := held.order
    refine ⟨s.written, (List.append_nil _).symm, ?_⟩
    rw [whole, split, entriesOf, entriesOf, List.flatMap_append]
    exact inOrder.append (List.sublist_append_right _ _)

theorem Held.step (act : Act) (boundary : s.OnBoundary act) : Held (s.step act) := by
  cases act with
  | place item => exact held.place item
  | publish => exact held.publish
  | drain => exact held.drain boundary

theorem Held.received : s.received.Sublist s.written := by
  obtain ⟨old, whole, inOrder⟩ := held.order
  rw [whole]
  exact inOrder.trans (List.sublist_append_left _ _)

/-- A drain starts at the tail while the writer is within a round of it. -/
theorem Held.boundary_of_room (room : s.reach ≤ s.ring.tailOf + s.ring.capacity) : s.OnBoundary .drain := by
  have forward := held.chained.bounds.1
  have reached : s.ring.headOf ≤ s.reach := Nat.le_add_right _ _
  have start : s.ring.clamped s.ring.tailOf s.ring.headOf = s.ring.tailOf := by
    rw [SharedRing.clamped, if_neg (by omega), if_neg (by omega)]
  refine ⟨?_, by rw [start]; exact room⟩
  rw [start]
  have chained := held.chained
  cases fresh : s.fresh with
  | nil => exact .inl (by rwa [fresh] at chained)
  | cons first rest =>
    rw [fresh] at chained
    exact .inr (List.mem_map.mpr ⟨first, List.mem_cons_self, chained.1⟩)

end Held

def Session.start (ring : SharedRing) : Session := ⟨ring, none, [], [], []⟩

theorem held_start {ring : SharedRing} (head : ring.headOf = 0) (tail : ring.tailOf = 0) :
    Held (Session.start ring) := by
  refine ⟨by rw [Session.start, tail], ?_, fun placed member => absurd member List.not_mem_nil, ?_, [], rfl,
    List.Sublist.slnil⟩
  · rw [Session.start, tail, head]
    rfl
  · intro item laid
    cases laid

/-- For any ring and any writer, each drain reaches the head in bounds exactly when the words lead there from where it
starts; and with a writer that keeps the protocol on a new ring, when each drain starts on a boundary, each delivers what
was published since the last one as far as the writer has not gone over it, and all that is received was written, in
order. -/
theorem ring_drains (ring : SharedRing) (calls : List RingCall) :
    (Throughout SharedRing.step SharedRing.DrainSafe ring calls ↔
      Throughout SharedRing.step SharedRing.DrainSpans ring calls) ∧
    ∀ (capacityBytes : Nat) (os : SharedRing.RingOpening),
      SharedRing.init [] capacityBytes os = .ok (.ok ring) → ∀ acts : List Act,
        Throughout Session.step Session.OnBoundary (.start ring) acts →
          Throughout Session.step Session.Delivers (.start ring) acts ∧
            Always Session.step (fun s => s.received.Sublist s.written) (.start ring) acts := by
  refine ⟨Library.Runs.throughout_congr SharedRing.drainSafe_iff, ?_⟩
  intro capacityBytes os opened acts boundaries
  obtain ⟨head, tail⟩ := ring_init_new opened
  have held : Always Session.step Held (.start ring) acts :=
    Library.Runs.always_of_throughout (fun _ act held boundary => held.step act boundary) (held_start head tail) boundaries
  exact ⟨held.throughout (fun _ act held boundary => held.delivers act boundary) boundaries,
    held.imp fun _ held => held.received⟩

def allGood : SharedRing.RingOpening := ⟨.ok (), .ok (), .ok (), .ok ()⟩

theorem ring_opened {capacityBytes : Nat} (small : ¬ capacityBytes > maxRingCapacity) :
    ∃ ring, SharedRing.init [] capacityBytes allGood = .ok (.ok ring) ∧ ring.headOf = 0 ∧ ring.tailOf = 0 ∧
    ring.word 0 = 0 := by
  obtain ⟨ring, titled, -, head, tail, word⟩ := titled_new small
  have opens : SharedRing.openFile [] (SharedRing.rounded capacityBytes) allGood = .ok () := by
    have none : ¬ ([] : Bytes).length ≥ ringHeaderLen + 4 := by
      rw [List.length_nil]
      omega
    simp only [SharedRing.openFile, allGood, if_neg none, Except.mapError]
    simp [bind, Except.bind]
  refine ⟨ring, ?_, head, tail, word⟩
  rw [SharedRing.init, dif_neg small, opens]
  dsimp only
  rw [titled]
  rfl

/-- A head that is advanced by four bytes over a zero word: the drain goes on to the end of the ring. -/
theorem short_advance_overshoots : ∃ ring, SharedRing.init [] 0 allGood = .ok (.ok ring) ∧
    ¬ Throughout SharedRing.step SharedRing.DrainSafe ring [.advanceHead 4, .drain] := by
  obtain ⟨ring, opened, head, tail, word⟩ := @ring_opened 0 (Nat.not_lt_zero _)
  refine ⟨ring, opened, fun safe => ?_⟩
  have room := ring.least
  have header : ringHeaderLen = 4096 := rfl
  have size := ring.sized
  obtain ⟨after, advanced, map, capacity, newHead, sameTail⟩ := @advanceHead_ok ring 4 (by omega) (by omega)
  rw [head, Nat.zero_add] at advanced map newHead
  have stepped : ring.step (.advanceHead 4) = after := by
    simp only [SharedRing.step]
    rw [show (4 : UInt64) = UInt64.ofNat 4 from rfl, advanced]
  have spans := (SharedRing.drainSafe_iff _ _).mp safe.2.1
  have early : 0 + (leBytes 8 4).length ≤ ring.map.length := by
    rw [length_leBytes]
    omega
  have zero : after.word 0 = 0 := by
    rw [SharedRing.word, map, capacity, slice_put_behind early (by rw [length_leBytes]; omega)]
    exact word
  rw [stepped] at spans
  simp only [SharedRing.DrainSpans, newHead, sameTail, tail, SharedRing.clamped, Nat.not_lt_zero, gt_iff_lt, if_false] at spans
  rw [if_neg (by omega)] at spans
  cases spans with
  | turn inside within rest =>
    rw [SharedRing.stride, if_pos zero, Nat.zero_mod] at within
    omega

theorem appends {s : Session} {item : Item} (idle : s.started = none) (fits : item.Fits s.ring.capacity s.ring.headOf)
    (aligned : s.ring.headOf % 4 = 0) (small : s.ring.headOf + item.size s.ring.capacity s.ring.headOf < 2 ^ 64) :
    ∃ ring, (s.step (.place item)).step .publish =
        ⟨ring, none, s.fresh ++ [(s.ring.headOf, item)], s.written ++ item.entries, s.received⟩ ∧
      ring.capacity = s.ring.capacity ∧ ring.headOf = s.ring.headOf + item.size s.ring.capacity s.ring.headOf ∧
        ring.tailOf = s.ring.tailOf := by
  have bytes := bytes_le_size s.ring item aligned
  have ends := fits.ends
  obtain ⟨-, capacity, sameHead, sameTail⟩ :=
    @poke_ok s.ring (s.ring.headOf % s.ring.capacity) item.bytes (by omega)
  have placed : s.step (.place item) =
      { s with ring := s.ring.poke (s.ring.headOf % s.ring.capacity) item.bytes, started := some item } :=
    if_pos ⟨Option.isNone_iff_eq_none.mpr idle, fits, small⟩
  generalize s.ring.poke (s.ring.headOf % s.ring.capacity) item.bytes = poked at capacity sameHead sameTail placed
  obtain ⟨after, advanced, -, same, newHead, newTail⟩ :=
    @advanceHead_ok poked (item.size s.ring.capacity s.ring.headOf) (by omega) (by omega)
  rw [sameHead] at advanced newHead
  refine ⟨after, ?_, same.trans capacity, newHead, newTail.trans sameTail⟩
  rw [placed]
  simp only [Session.step, Session.publish, capacity, sameHead, advanced]

def hello : Item := .entry ⟨5, 7, [0x68, 0x65, 0x6c, 0x6c, 0x6f], by decide⟩

def again : Item := .entry ⟨5, 9, [0x61, 0x67, 0x61, 0x69, 0x6e], by decide⟩

theorem hello_delivered : ∃ ring, SharedRing.init [] 0 allGood = .ok (.ok ring) ∧
    Throughout Session.step Session.Delivers (.start ring)
      [.place hello, .publish, .place again, .publish, .drain] := by
  obtain ⟨ring, opened, head, tail, -⟩ := @ring_opened 0 (Nat.not_lt_zero _)
  refine ⟨ring, opened, ((ring_drains ring []).2 0 allGood opened
    [.place hello, .publish, .place again, .publish, .drain] ⟨trivial, trivial, trivial, trivial, ?_, trivial⟩).1⟩
  have room := ring.least
  have held := (((held_start head tail).step (.place hello) trivial).step .publish trivial).step (.place again) trivial
  have sizes (capacity pos : Nat) : hello.size capacity pos = 24 ∧ again.size capacity pos = 24 := ⟨rfl, rfl⟩
  have fits : hello.Fits ring.capacity ring.headOf := by
    rw [head]
    show 0 % ring.capacity + 24 ≤ ring.capacity
    rw [Nat.zero_mod]
    omega
  obtain ⟨first, wrote, capacity, newHead, newTail⟩ :=
    @appends (.start ring) hello rfl fits (by rw [Session.start, head]) (by rw [Session.start, head, (sizes _ _).1]; decide)
  rw [wrote] at held ⊢
  simp only [Session.start, head, (sizes _ _).1, tail] at capacity newHead newTail
  have fits' : again.Fits first.capacity first.headOf := by
    rw [newHead]
    show 24 % first.capacity + 24 ≤ first.capacity
    rw [Nat.mod_eq_of_lt (by omega)]
    omega
  obtain ⟨second, more, capacity', head', tail'⟩ := @appends ⟨first, none, _, _, _⟩ again rfl fits'
    (by rw [newHead]) (by rw [newHead, (sizes _ _).2]; decide)
  have last := held.step .publish trivial
  rw [more] at last ⊢
  refine last.boundary_of_room ?_
  simp only [Session.reach, Option.elim_none, head', capacity', tail', newHead, newTail, (sizes _ _).2]
  omega

end Soshal.Telemetry
