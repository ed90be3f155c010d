import Mathlib.Algebra.Order.BigOperators.Group.List
import Soshal.Media.Slices

/-! Manifests near the end of the 64-bit range.

The validation adds offsets and lengths with saturation, the readers add them and
abort on overflow. The two differ only for a blob of the greatest size there is, whose
chunks may then reach past it: a manifest tiles its blob, and can be read without an
overflow, exactly when its chunk lengths add up within 64 bits.
-/

set_option autoImplicit false

namespace Soshal.Media

open ChunkStore

/-- Each position of the blob lies in one chunk, and no chunk goes beyond the blob. -/
def ChunkManifest.Tiles (m : ChunkManifest) : Prop :=
  ∀ x : Nat, m.chunks.countP (fun c => decide (c.Holds x)) = if x < m.totalSize.toNat then 1 else 0

def ChunkManifest.Accepts (m : ChunkManifest) (offset len : Nat) : Prop := 0 < len ∧ offset + len ≤ m.totalSize.toNat

/-- The ends that the copying path adds up: of each chunk that starts before the range ends, and once more of each
chunk that is then resolved. -/
def sliceSums (offset stop : Nat) (chunks : List ChunkRef) : List Nat :=
  let ends := (chunks.takeWhile fun c => decide (c.start < stop)).map fun c => c.start + c.size
  ends ++ ends.filter fun cEnd => decide (cEnd > offset)

/-- The ends that the mapped path adds up on its way to the chunk that holds the range. -/
def mappedSums (offset stop : Nat) : List ChunkRef → List Nat
  | [] => []
  | c :: rest =>
    if offset ≥ c.start then
      (c.start + c.size) :: if stop ≤ c.start + c.size then [] else mappedSums offset stop rest
    else mappedSums offset stop rest

/-- No sum overflows when a range of the blob is read, neither of the manifest's numbers nor, with mapped chunks as
long as declared at most, of the windows into them. -/
structure ChunkManifest.ReadsInBounds (m : ChunkManifest) : Prop where
  slice : ∀ offset len, m.Accepts offset len → ∀ sum ∈ sliceSums offset (offset + len) m.chunks, sum ≤ maxU64
  mapped : ∀ offset len, m.Accepts offset len → ∀ sum ∈ mappedSums offset (offset + len) m.chunks, sum ≤ maxU64
  windows : ∀ offset len, m.Accepts offset len → ∀ covered reads windows,
    overlapping offset (offset + len) m.chunks = some covered →
      List.Forall₂ (fun c read => ∀ mapped ∈ read, mapped.length ≤ c.size) covered reads →
        resolveAll offset (offset + len) covered reads = some windows →
          (windows.map fun w => w.hi - w.lo).sum ≤ maxU64

theorem mem_sliceSums {offset stop : Nat} {chunks : List ChunkRef} {sum : Nat} :
    sum ∈ sliceSums offset stop chunks ↔
      sum ∈ (chunks.takeWhile fun c => decide (c.start < stop)).map fun c => c.start + c.size := by
  rw [sliceSums, List.mem_append]
  exact or_iff_left_of_imp fun resolved => (List.mem_filter.mp resolved).1

/-- The copying path finds the chunks of the range, unless one of its sums overflows. -/
theorem overlapping_eq (offset stop : Nat) (chunks : List ChunkRef) :
    overlapping offset stop chunks =
      if ∃ sum ∈ sliceSums offset stop chunks, maxU64 < sum then none
      else some ((chunks.takeWhile fun c => decide (c.start < stop)).filter fun c => decide (c.start + c.size > offset)) := by
  simp only [mem_sliceSums]
  induction chunks with
  | nil => simp [overlapping]
  | cons c rest ih =>
    by_cases starts : c.start < stop
    · have head : ((c :: rest).takeWhile fun c => decide (c.start < stop)) =
          c :: rest.takeWhile fun c => decide (c.start < stop) := List.takeWhile_cons_of_pos (decide_eq_true starts)
      rw [overlapping, if_pos starts, ih, checkedAdd, head, List.map_cons]
      simp only [List.exists_mem_cons_iff]
      by_cases fits : c.start + c.size ≤ maxU64
      · rw [if_pos fits, Option.bind_eq_bind, Option.bind_some]
        simp only [Nat.not_lt.mpr fits, false_or]
        by_cases above : ∃ sum ∈ (rest.takeWhile fun c => decide (c.start < stop)).map fun c => c.start + c.size, maxU64 < sum
        · simp only [if_pos above]
          rfl
        · simp only [if_neg above, List.filter_cons, decide_eq_true_eq]
          rfl
      · simp only [if_neg fits, Nat.lt_of_not_le fits, true_or, if_true]
        rfl
    · have empty : ((c :: rest).takeWhile fun c => decide (c.start < stop)) = [] :=
        List.takeWhile_cons_of_neg (by simp [starts])
      rw [overlapping, if_neg starts, empty]
      simp

/-- The mapped path finds the first chunk that holds the range, unless one of its sums overflows. -/
theorem mappedChunk_eq (offset stop : Nat) (chunks : List ChunkRef) :
    mappedChunk offset stop chunks =
      if ∃ sum ∈ mappedSums offset stop chunks, maxU64 < sum then none
      else chunks.find? fun c => decide (c.start ≤ offset ∧ stop ≤ c.start + c.size) := by
  induction chunks with
  | nil => simp [mappedChunk]
  | cons c rest ih =>
    by_cases starts : offset ≥ c.start
    · rw [mappedChunk, if_pos starts, mappedSums, if_pos starts, checkedAdd]
      simp only [List.exists_mem_cons_iff]
      by_cases fits : c.start + c.size ≤ maxU64
      · rw [if_pos fits, Option.bind_eq_bind, Option.bind_some]
        simp only [Nat.not_lt.mpr fits, false_or]
        by_cases reaches : stop ≤ c.start + c.size
        · simp [starts, reaches]
        · rw [if_neg reaches, if_neg reaches, ih, List.find?_cons_of_neg (by simp [reaches])]
      · simp only [if_neg fits, Nat.lt_of_not_le fits, true_or, if_true]
        rfl
    · rw [mappedChunk, if_neg starts, mappedSums, if_neg starts, ih, List.find?_cons_of_neg (by simp [starts])]

/-- Chunks that are accepted and add up within 64 bits tile the positions from the first on up to the total. -/
theorem tiles_of_validFrom {total next : Nat} {chunks : List ChunkRef} (valid : validFrom total next chunks = true)
    (fits : next + (chunks.map ChunkRef.size).sum ≤ maxU64) :
    next + (chunks.map ChunkRef.size).sum = total ∧
      ∀ x : Nat, chunks.countP (fun c => decide (c.Holds x)) = if next ≤ x ∧ x < total then 1 else 0 := by
  induction chunks generalizing next with
  | nil =>
    have done : next = total := by simpa [validFrom] using valid
    refine ⟨done, fun x => ?_⟩
    rw [if_neg (by omega), List.countP_nil]
  | cons c rest ih =>
    obtain ⟨rfl, nonempty, -, tail⟩ := validFrom_cons valid
    rw [List.map_cons, List.sum_cons] at fits ⊢
    rw [saturatingAdd_of_le (by omega)] at tail
    obtain ⟨sum, later⟩ := ih tail (by omega)
    refine ⟨by omega, fun x => ?_⟩
    rw [List.countP_cons, later x]
    by_cases held : c.Holds x
    · -- The later chunks begin behind this one.
      obtain ⟨low, high⟩ := held
      rw [if_neg (by omega), if_pos (decide_eq_true ⟨low, high⟩), if_pos (by omega)]
    · have beside : x < c.start ∨ c.start + c.size ≤ x := by
        unfold ChunkRef.Holds at held
        omega
      rw [decide_eq_false held, if_neg Bool.false_ne_true, Nat.add_zero]
      by_cases inside : c.start + c.size ≤ x ∧ x < total
      · rw [if_pos inside, if_pos (by omega)]
      · rw [if_neg inside, if_neg (by omega)]

theorem ChunkManifest.Tiles.ends {m : ChunkManifest} (tiles : m.Tiles) {c : ChunkRef} (member : c ∈ m.chunks)
    (nonempty : 0 < c.size) : c.start + c.size ≤ m.totalSize.toNat := by
  by_contra reaches
  -- The last position of the chunk would be past the blob, where nothing is held.
  have none_beyond := tiles (c.start + c.size - 1)
  rw [if_neg (by omega), List.countP_eq_zero] at none_beyond
  have held : c.Holds (c.start + c.size - 1) := ⟨by omega, by omega⟩
  exact none_beyond c member (decide_eq_true held)

theorem size_pos_of_validFrom {total next : Nat} {chunks : List ChunkRef} (valid : validFrom total next chunks = true) :
    ∀ c ∈ chunks, 0 < c.size := by
  induction chunks generalizing next with
  | nil => simp
  | cons c rest ih =>
    obtain ⟨-, nonempty, -, tail⟩ := validFrom_cons valid
    rw [List.forall_mem_cons]
    exact ⟨nonempty, ih tail⟩

theorem mem_mappedSums {offset stop : Nat} {chunks : List ChunkRef} {sum : Nat}
    (member : sum ∈ mappedSums offset stop chunks) : ∃ c ∈ chunks, sum = c.start + c.size := by
  induction chunks with
  | nil => simp [mappedSums] at member
  | cons c rest ih =>
    unfold mappedSums at member
    have later : sum ∈ mappedSums offset stop rest → ∃ d ∈ c :: rest, sum = d.start + d.size := by
      intro inside
      obtain ⟨d, found, rfl⟩ := ih inside
      exact ⟨d, List.mem_cons_of_mem _ found, rfl⟩
    split at member
    · obtain rfl | inside := List.mem_cons.mp member
      · exact ⟨c, List.mem_cons_self .., rfl⟩
      · split at inside
        · simp at inside
        · exact later inside
    · exact later member

theorem sum_windows_le {offset stop : Nat} {covered : List ChunkRef} {reads : List (Option Bytes)}
    {windows : List SourceWindow}
    (short : List.Forall₂ (fun c read => ∀ mapped ∈ read, mapped.length ≤ c.size) covered reads)
    (resolved : resolveAll offset stop covered reads = some windows) :
    (windows.map fun w => w.hi - w.lo).sum ≤ (covered.map ChunkRef.size).sum := by
  induction short generalizing windows with
  | nil =>
    cases resolved
    exact Nat.le_refl _
  | @cons c read covered reads first rest ih =>
    simp only [resolveAll, Option.bind_eq_bind, Option.bind_eq_some_iff] at resolved
    obtain ⟨mapped, present, window, cut, later, tail, joined⟩ := resolved
    cases joined
    have small : window.hi - window.lo ≤ mapped.length := by
      unfold resolve at cut
      split at cut
      · cases cut
        exact Nat.zero_le _
      · simp only at cut
        split at cut
        · cases cut
        · cases cut
          exact (Nat.sub_le _ _).trans (Nat.min_le_right _ _)
    rw [List.map_cons, List.map_cons, List.sum_cons, List.sum_cons]
    exact Nat.add_le_add (small.trans (first mapped present)) (ih tail)

theorem reads_of_total {m : ChunkManifest} (fits : (m.chunks.map ChunkRef.size).sum ≤ maxU64)
    (ends : ∀ c ∈ m.chunks, c.start + c.size ≤ maxU64) : m.ReadsInBounds where
  slice := by
    intro offset len _ sum member
    obtain ⟨c, inside, rfl⟩ := List.mem_map.mp (mem_sliceSums.mp member)
    exact ends c ((List.takeWhile_prefix _).subset inside)
  mapped := by
    intro offset len _ sum member
    obtain ⟨c, inside, rfl⟩ := mem_mappedSums member
    exact ends c inside
  windows := by
    intro offset len _ covered reads windows found short resolved
    have part := ((sublist_overlapping found).map ChunkRef.size).sum_le_sum (fun _ _ => Nat.zero_le _)
    exact ((sum_windows_le short resolved).trans part).trans fits

/-- An accepted manifest tiles its blob, and all sums of its readers stay within 64 bits, exactly when the lengths of
its chunks add up within 64 bits. -/
theorem accepted_tiles_iff {m : ChunkManifest} (valid : m.isValid = true) :
    m.Tiles ∧ m.ReadsInBounds ↔ (m.chunks.map ChunkRef.size).sum < 2 ^ 64 := by
  have tiled := ChunkManifest.validFrom_zero valid
  have total := m.totalSize.toNat_lt
  constructor
  · -- Chunks that tile the blob end in it, so that they add up to it.
    rintro ⟨tiles, -⟩
    have ends : ∀ c ∈ m.chunks, c.start + c.size ≤ m.totalSize.toNat :=
      fun c member => tiles.ends member (size_pos_of_validFrom tiled c member)
    have sum := (total_iff_ends m.totalSize_le tiled).mpr ends
    omega
  · intro small
    have fits : 0 + (m.chunks.map ChunkRef.size).sum ≤ maxU64 := by
      unfold maxU64
      omega
    have tiles : m.Tiles := by
      intro x
      rw [(tiles_of_validFrom tiled fits).2 x]
      simp only [Nat.zero_le, true_and]
    have ends : ∀ c ∈ m.chunks, c.start + c.size ≤ maxU64 :=
      fun c member => (tiles.ends member (size_pos_of_validFrom tiled c member)).trans m.totalSize_le
    exact ⟨tiles, reads_of_total (by omega) ends⟩

def plainChunk (offset len : UInt64) : ChunkRef :=
  ⟨"af1349b9f5f9a1a6a0404dea36dcc9499bcb25c9adc112b7cc9a93cae41f3262", offset, len⟩

theorem two_chunks_tile :
    (ChunkManifest.mk "" 3 [plainChunk 0 1, plainChunk 1 2]).Tiles ∧
      (ChunkManifest.mk "" 3 [plainChunk 0 1, plainChunk 1 2]).ReadsInBounds :=
  (accepted_tiles_iff (by rfl)).mpr (by decide)

def saturated : ChunkManifest :=
  ⟨"", 0xFFFFFFFFFFFFFFFF, [plainChunk 0 0x8000000000000000, plainChunk 0x8000000000000000 0x8000000000000000]⟩

/-- Two chunks of 2^63 bytes are accepted for a blob of 2^64 - 1: the last reaches past it, and to read the last byte
its end is added up and overflows, on both paths. -/
theorem saturated_manifest_is_accepted :
    saturated.isValid = true ∧ ¬ saturated.Tiles ∧ saturated.Accepts 0xFFFFFFFFFFFFFFFE 1 ∧
      (∃ sum ∈ sliceSums 0xFFFFFFFFFFFFFFFE 0xFFFFFFFFFFFFFFFF saturated.chunks, maxU64 < sum) ∧
      ∃ sum ∈ mappedSums 0xFFFFFFFFFFFFFFFE 0xFFFFFFFFFFFFFFFF saturated.chunks, maxU64 < sum := by
  refine ⟨by rfl, ?_, ⟨by decide, by decide⟩, ⟨2 ^ 64, by decide +kernel, by decide⟩,
    2 ^ 64, by decide +kernel, by decide⟩
  intro tiles
  exact absurd (tiles 0xFFFFFFFFFFFFFFFF) (by decide +kernel)

end Soshal.Media
