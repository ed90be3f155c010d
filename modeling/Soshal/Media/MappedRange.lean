import Soshal.Media.Slices

/-! The mapped path against the copying path.

A range that one chunk holds is served as a view of the mapped chunk. Both paths
cut the view at the end of the stored chunk, but only the copying path then
compares its length with the length that was asked for.
-/

set_option autoImplicit false

namespace Soshal.Media.ChunkStore

variable {p : Primitives} {store : ChunkStore}

/-- The manifest places the whole range `[offset, stop)` inside the chunk. -/
structure Encloses (offset stop : Nat) (c : ChunkRef) : Prop where
  low : c.start ≤ offset
  high : stop ≤ c.start + c.size
  fits : c.start + c.size ≤ maxU64

theorem encloses_of_mappedChunk {offset stop : Nat} {chunks : List ChunkRef} {c : ChunkRef}
    (found : mappedChunk offset stop chunks = some c) : c ∈ chunks ∧ Encloses offset stop c := by
  induction chunks with
  | nil => simp [mappedChunk] at found
  | cons first rest ih =>
    unfold mappedChunk at found
    split at found
    · rename_i starts
      cases added : checkedAdd first.start first.size with
      | none => simp [added] at found
      | some stop' =>
        obtain ⟨rfl, fits⟩ := checkedAdd_some added
        simp only [added, Option.bind_eq_bind, Option.bind_some] at found
        split at found
        · rename_i ends
          cases found
          exact ⟨List.mem_cons_self .., starts, ends, fits⟩
        · obtain ⟨member, encloses⟩ := ih found
          exact ⟨List.mem_cons_of_mem _ member, encloses⟩
    · obtain ⟨member, encloses⟩ := ih found
      exact ⟨List.mem_cons_of_mem _ member, encloses⟩

-- A chunk that comes later in the tiling starts after this one ends, without saturating.
theorem ends_before {total next offset stop : Nat} {first c : ChunkRef} {rest : List ChunkRef}
    (valid : validFrom total next (first :: rest) = true) (later : c ∈ rest) (nonempty : offset < stop)
    (encloses : Encloses offset stop c) : first.start + first.size ≤ offset ∧ first.start + first.size ≤ maxU64 := by
  obtain ⟨rfl, -, -, tail⟩ := validFrom_cons valid
  have after := validFrom_start_le (Nat.min_le_right _ _) tail c later
  obtain ⟨low, high, fits⟩ := encloses
  omega

section

variable {total next offset stop : Nat} {chunks : List ChunkRef} {c : ChunkRef}
  (valid : validFrom total next chunks = true) (nonempty : offset < stop) (member : c ∈ chunks)
  (encloses : Encloses offset stop c)
include valid nonempty member encloses

theorem mappedChunk_of_encloses : mappedChunk offset stop chunks = some c := by
  induction chunks generalizing next with
  | nil => simp at member
  | cons first rest ih =>
    unfold mappedChunk
    cases member with
    | head => simp [encloses.low, checkedAdd, encloses.fits, encloses.high]
    | tail _ later =>
      obtain ⟨before, fits⟩ := ends_before valid later nonempty encloses
      obtain ⟨-, -, -, tail⟩ := validFrom_cons valid
      rw [if_pos (show offset ≥ first.start by omega), checkedAdd, if_pos fits]
      simp only [Option.bind_eq_bind, Option.bind_some]
      rw [if_neg (by omega)]
      exact ih tail later

theorem inRange_of_encloses : inRange offset stop chunks = [c] := by
  induction chunks generalizing next with
  | nil => simp at member
  | cons first rest ih =>
    cases member with
    | head =>
      obtain ⟨rfl, -, -, tail⟩ := validFrom_cons valid
      obtain ⟨low, high, fits⟩ := encloses
      rw [saturatingAdd_of_le fits] at tail
      have late : ∀ other ∈ rest, stop ≤ other.start := by
        intro other inside
        exact high.trans (validFrom_start_le fits tail other inside)
      have head : inRange offset stop (c :: rest) = c :: inRange offset stop rest :=
        List.filter_cons_of_pos (by simp only [decide_eq_true_eq]; omega)
      rw [head, inRange_of_late late]
    | tail _ later =>
      obtain ⟨before, -⟩ := ends_before valid later nonempty encloses
      obtain ⟨-, -, -, tail⟩ := validFrom_cons valid
      have head : inRange offset stop (first :: rest) = inRange offset stop rest :=
        List.filter_cons_of_neg (by simp only [decide_eq_true_eq]; omega)
      rw [head, ih tail later]

end

theorem blobRangeMapped_eq_some {m : ChunkManifest} {offset len : Nat} {view : Bytes} :
    (store.blobRangeMapped p m offset len).2 = some view ↔
      m.isValid = true ∧ 0 < len ∧ offset + len ≤ m.totalSize.toNat ∧
        ∃ c ∈ m.chunks, Encloses offset (offset + len) c ∧ ∃ d, store.content p c.blake3 = some d ∧
          offset - c.start ≤ d.length ∧ view = (windowOf offset (offset + len) (c, d)).bytes := by
  refine (read_range_iff _).trans ?_
  refine and_congr_right fun valid => and_congr_right fun positive => and_congr_right fun within => ?_
  have tiles := ChunkManifest.validFrom_zero valid
  constructor
  · intro served
    cases found : mappedChunk offset (offset + len) m.chunks with
    | none => simp [found] at served
    | some c =>
      obtain ⟨member, encloses⟩ := encloses_of_mappedChunk found
      rw [found] at served
      cases read : store.getMmapCached p c.blake3 with
      | mk after mapped =>
        cases mapped with
        | none => simp [read] at served
        | some d =>
          simp only [read] at served
          split at served
          · simp at served
          · rename_i enters
            refine ⟨c, member, encloses, d, congrArg Prod.snd read, by omega, ?_⟩
            exact (Option.some.inj served).symm
  · rintro ⟨c, member, encloses, d, read, enters, rfl⟩
    -- The search finds this chunk and no other, since the manifest tiles the blob.
    have low := encloses.low
    rw [mappedChunk_of_encloses tiles (by omega) member encloses]
    cases cached : store.getMmapCached p c.blake3 with
    | mk after mapped =>
      have same : mapped = some d := by
        rw [← read, content, cached]
      subst same
      simp only [cached]
      rw [if_neg (by omega)]
      rfl

theorem blobSlice_of_encloses {m : ChunkManifest} {offset len : Nat} {c : ChunkRef} {d bytes : Bytes}
    (valid : m.isValid = true) (positive : 0 < len) (within : offset + len ≤ m.totalSize.toNat) (member : c ∈ m.chunks)
    (encloses : Encloses offset (offset + len) c) (read : store.content p c.blake3 = some d) :
    (store.blobSlice p m offset len).2 = some bytes ↔
      offset + len - c.start ≤ d.length ∧ bytes = (windowOf offset (offset + len) (c, d)).bytes := by
  have tiles := ChunkManifest.validFrom_zero valid
  have total := m.totalSize.toNat_lt
  have bound : offset ≤ maxU64 := by unfold maxU64; omega
  obtain ⟨low, high, fits⟩ := encloses
  have only := inRange_of_encloses tiles (show offset < offset + len by omega) member ⟨low, high, fits⟩
  have covered : overlapping offset (offset + len) m.chunks = some [c] := by
    rw [overlapping_eq_some (Nat.zero_le _) tiles bound, only]
    simpa using fits
  have reads : (store.readAll p [c]).2 = [d].map some := by
    simp only [readAll, List.map_cons, List.map_nil]
    exact congrArg (· :: []) read
  have inside : ∀ other ∈ [c], other.start < offset + len ∧ offset < other.start + other.size := by
    intro other single
    obtain rfl := List.mem_singleton.mp single
    omega
  rw [blobSlice_eq_some]
  constructor
  · rintro ⟨-, -, -, chunks, windows, same, -, resolved, filled, rfl⟩
    cases covered.symm.trans same
    rw [reads] at resolved
    obtain ⟨-, rfl⟩ := (resolveAll_eq_some (by omega) inside rfl).mp resolved
    refine ⟨?_, by simp⟩
    simp only [List.zip_cons_cons, List.zip_nil_right, List.map_cons, List.map_nil, List.sum_cons, List.sum_nil,
      SourceWindow.size, windowOf] at filled
    omega
  · rintro ⟨reaches, rfl⟩
    refine ⟨valid, positive, within, [c], [windowOf offset (offset + len) (c, d)], covered, by simp, ?_, ?_, by simp⟩
    · rw [reads, resolveAll_eq_some (by omega) inside rfl]
      refine ⟨?_, rfl⟩
      intro placed single
      obtain rfl := List.mem_singleton.mp single
      simp only
      omega
    · simp only [List.map_cons, List.map_nil, List.sum_cons, List.sum_nil, SourceWindow.size, windowOf]
      omega

variable (p) in
/-- A stored chunk that reaches into a range it is declared to hold reaches the end of that range. -/
def ReachesEnd (store : ChunkStore) (m : ChunkManifest) (offset len : Nat) : Prop :=
  m.isValid = true → 0 < len → offset + len ≤ m.totalSize.toNat →
    ∀ c ∈ m.chunks, Encloses offset (offset + len) c → ∀ d, store.content p c.blake3 = some d →
      offset - c.start ≤ d.length → offset + len - c.start ≤ d.length

/-- The copying path returns every view of the mapped path, exactly when the stored chunk is as long as the
range needs. -/
theorem blobRangeMapped_refines_iff (store : ChunkStore) (m : ChunkManifest) (offset len : Nat) :
    (∀ view, (store.blobRangeMapped p m offset len).2 = some view →
        (store.blobSlice p m offset len).2 = some view) ↔ store.ReachesEnd p m offset len := by
  constructor
  · intro refines valid positive within c member encloses d read enters
    have served := refines _ (blobRangeMapped_eq_some.mpr
      ⟨valid, positive, within, c, member, encloses, d, read, enters, rfl⟩)
    exact ((blobSlice_of_encloses valid positive within member encloses read).mp served).1
  · intro reaches view served
    obtain ⟨valid, positive, within, c, member, encloses, d, read, enters, rfl⟩ := blobRangeMapped_eq_some.mp served
    rw [blobSlice_of_encloses valid positive within member encloses read]
    exact ⟨reaches valid positive within c member encloses d read enters, rfl⟩

/-- "a" declared two bytes long: the view has one byte, the copying path refuses. -/
theorem short_view_is_served :
    let m : ChunkManifest := ⟨shortDigest [0x61, 0x62], 2, [⟨shortDigest [0x61], 0, 2⟩]⟩
    (twoChunks.blobRangeMapped shortPrimitives m 0 2).2 = some [0x61] ∧
      (twoChunks.blobSlice shortPrimitives m 0 2).2 = none := by
  decide

end Soshal.Media.ChunkStore
