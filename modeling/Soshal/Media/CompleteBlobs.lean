import Soshal.Media.MappedRange
import Soshal.Media.StoreRuns

/-! Stores that hold complete blobs.

A blob is complete when each of its chunks is stored, verifies and has the length
that the manifest declares. A range of a complete blob reads as the blob's own
bytes, and a manifest found in any way is one of the stored ones.
-/

set_option autoImplicit false

namespace Soshal.Media.ChunkStore

open Library
open Library.Text (byteLen)

variable {p : Primitives} {store : ChunkStore} {m : ChunkManifest}

variable (p) in
/-- Every chunk of the manifest is stored with the declared hash and length, and together they are the whole blob. -/
structure CompleteBlob (store : ChunkStore) (m : ChunkManifest) : Prop where
  valid : m.isValid = true
  chunks : ∀ c ∈ m.chunks, ∃ d, store.getMmap p c.blake3 = some d ∧ d.length = c.size
  total : (m.chunks.map ChunkRef.size).sum = m.totalSize.toNat

theorem byteLen_of_getMmap {hash : String} {d : Bytes} (mapped : store.getMmap p hash = some d) :
    byteLen hash = 64 := by
  unfold getMmap at mapped
  split at mapped
  · cases mapped
  · rename_i valid
    simp only [isValidHash, Bool.not_eq_true, Bool.not_eq_false', Bool.and_eq_true, beq_iff_eq] at valid
    exact valid.1

theorem content_of_getMmap (verified : store.Verified p) {hash : String} {d : Bytes}
    (mapped : store.getMmap p hash = some d) : store.content p hash = some d :=
  content_of_serves verified (byteLen_of_getMmap mapped) (.inr mapped)

theorem getMmap_after_read (hash other : String) :
    (store.getMmapCached p hash).1.getMmap p other = store.getMmap p other := by
  obtain ⟨cache, same, -⟩ := store.getMmapCached_cases p hash
  rw [same]
  rfl

theorem readAll_of_getMmap (verified : store.Verified p) {chunks : List ChunkRef} {ds : List Bytes}
    (mapped : List.Forall₂ (fun c d => store.getMmap p c.blake3 = some d) chunks ds) :
    (store.readAll p chunks).2 = ds.map some := by
  induction chunks generalizing store ds with
  | nil =>
    cases mapped
    rfl
  | cons c chunks ih =>
    cases mapped with
    | @cons _ d _ ds first rest =>
      simp only [readAll, List.map_cons, List.cons.injEq]
      refine ⟨content_of_getMmap verified first, ih (verified.after_read c.blake3) ?_⟩
      refine rest.imp fun later other found => ?_
      rw [getMmap_after_read]
      exact found

theorem exists_forall₂ {α β : Type} {R : α → β → Prop} {xs : List α} (each : ∀ x ∈ xs, ∃ y, R x y) :
    ∃ ys, List.Forall₂ R xs ys := by
  induction xs with
  | nil => exact ⟨[], .nil⟩
  | cons x xs ih =>
    rw [List.forall_mem_cons] at each
    obtain ⟨y, first⟩ := each.1
    obtain ⟨ys, rest⟩ := ih each.2
    exact ⟨y :: ys, .cons first rest⟩

theorem CompleteBlob.ends (complete : store.CompleteBlob p m) : ∀ c ∈ m.chunks, c.start + c.size ≤ m.totalSize.toNat :=
  (total_iff_ends m.totalSize_le (ChunkManifest.validFrom_zero complete.valid)).mp
    (by rw [Nat.zero_add, complete.total])

theorem CompleteBlob.content (verified : store.Verified p) (complete : store.CompleteBlob p m) {c : ChunkRef}
    (member : c ∈ m.chunks) : ∃ d, store.content p c.blake3 = some d ∧ d.length = c.size := by
  obtain ⟨d, mapped, long⟩ := complete.chunks c member
  exact ⟨d, content_of_getMmap verified mapped, long⟩

theorem lt_of_byteAt (complete : store.CompleteBlob p m) {x : Nat} {b : UInt8}
    (byte : byteAt (store.content p) m.chunks x = some b) : x < m.totalSize.toNat := by
  obtain ⟨c, found, -⟩ := Option.bind_eq_some_iff.mp byte
  have inside : c.Holds x := by simpa using List.find?_some found
  have ends := complete.ends c (List.mem_of_find?_eq_some found)
  exact Nat.lt_of_lt_of_le inside.2 ends

theorem CompleteBlob.fills (verified : store.Verified p) (complete : store.CompleteBlob p m) (offset len : Nat) :
    store.FillsAsDeclared p m offset len := by
  intro positive within ds read ends filled placed member
  have read_as := readAll_content verified read
  have pair : store.content p placed.1.blake3 = some placed.2 := (List.forall₂_iff_zip.mp read_as).2 member
  have inside := (List.mem_filter.mp (List.of_mem_zip member).1).1
  obtain ⟨d, found, long⟩ := complete.content verified inside
  rw [found, Option.some.injEq] at pair
  rw [← pair, long]

theorem occupies_unique {content : String → Option Bytes} {offset : Nat} {first second : Bytes}
    (same : first.length = second.length) (one : Occupies content m offset first)
    (two : Occupies content m offset second) : first = second := by
  apply List.ext_getElem?
  intro i
  by_cases inside : i < first.length
  · rw [← one i inside, ← two i (same ▸ inside)]
  · rw [List.getElem?_eq_none (by omega), List.getElem?_eq_none (by omega)]

theorem sum_sizes {windows : List SourceWindow} (inside : ∀ w ∈ windows, w.hi ≤ w.mapped.length) :
    (windows.map SourceWindow.size).sum = (windows.map SourceWindow.bytes).flatten.length := by
  induction windows with
  | nil => rfl
  | cons w rest ih =>
    rw [List.forall_mem_cons] at inside
    simp only [List.map_cons, List.sum_cons, List.flatten_cons, List.length_append]
    rw [ih inside.2, length_bytes inside.1]

theorem CompleteBlob.slice (verified : store.Verified p) (complete : store.CompleteBlob p m) {offset len : Nat}
    (positive : 0 < len) (within : offset + len ≤ m.totalSize.toNat) :
    ∃ bytes, (store.blobSlice p m offset len).2 = some bytes := by
  have tiles := ChunkManifest.validFrom_zero complete.valid
  have total := m.totalSize.toNat_lt
  have bound : offset ≤ maxU64 := by unfold maxU64; omega
  have covered : overlapping offset (offset + len) m.chunks = some (inRange offset (offset + len) m.chunks) := by
    rw [overlapping_eq_some (Nat.zero_le _) tiles bound]
    refine ⟨rfl, fun c member => ?_⟩
    have ends := complete.ends c (List.mem_filter.mp member).1
    unfold maxU64
    omega
  have inside : ∀ c ∈ inRange offset (offset + len) m.chunks, c.start < offset + len ∧ offset < c.start + c.size := by
    intro c member
    simpa using (List.mem_filter.mp member).2
  have stored_each : ∀ c ∈ inRange offset (offset + len) m.chunks,
      ∃ d, store.getMmap p c.blake3 = some d ∧ d.length = c.size := fun c member =>
    complete.chunks c (List.mem_filter.mp member).1
  obtain ⟨ds, stored⟩ := exists_forall₂ stored_each
  have read := readAll_of_getMmap verified (stored.imp fun _ _ => And.left)
  have paired : ds.length = (inRange offset (offset + len) m.chunks).length := stored.length_eq.symm
  have enters : ∀ placed ∈ (inRange offset (offset + len) m.chunks).zip ds,
      offset - placed.1.start ≤ placed.2.length := by
    intro placed member
    have long := ((List.forall₂_iff_zip.mp stored).2 member).2
    have reach := (inside placed.1 (List.of_mem_zip member).1).2
    omega
  have resolved := (resolveAll_eq_some (by omega) inside paired).mpr ⟨enters, rfl⟩
  -- Each chunk is as long as declared, so the windows fill the range.
  have agrees : List.Forall₂ (Agrees (offset + len)) (inRange offset (offset + len) m.chunks) ds :=
    stored.imp fun c d same => by rw [Agrees, same.2]
  obtain ⟨_, c, rest, _, _, first, _, low, high, spans, _⟩ :=
    overlapping_split (Nat.zero_le _) tiles within (by omega) (Nat.zero_le _) covered
  have reaches : ∀ other, (inRange offset (offset + len) m.chunks).head? = some other →
      offset < c.start + other.size := by
    intro other head
    rw [first] at head
    cases head
    exact high
  have length := (windows_of_agrees spans (by omega) reaches agrees resolved).1
  refine ⟨_, blobSlice_eq_some.mpr
    ⟨complete.valid, positive, within, _, _, covered, ?_, by rw [read]; exact resolved, ?_, rfl⟩⟩
  · rw [first]
    exact List.cons_ne_nil _ _
  · rw [sum_sizes, length]
    · omega
    · intro w member
      obtain ⟨placed, -, rfl⟩ := List.mem_map.mp member
      exact Nat.min_le_right _ _

theorem CompleteBlob.slice_iff (verified : store.Verified p) (complete : store.CompleteBlob p m) {offset len : Nat}
    (positive : 0 < len) {bytes : Bytes} (long : bytes.length = len) :
    (store.blobSlice p m offset len).2 = some bytes ↔ Occupies (store.content p) m offset bytes := by
  have right := (slice_occupies_iff verified complete.valid offset len).mpr (complete.fills verified offset len)
  constructor
  · intro read
    exact (right bytes read).1
  · intro occupies
    have last : ∃ b, byteAt (store.content p) m.chunks (offset + (len - 1)) = some b :=
      ⟨bytes.get ⟨len - 1, by omega⟩, by
        rw [occupies (len - 1) (by omega), List.getElem?_eq_getElem (by omega)]
        rfl⟩
    obtain ⟨b, byte⟩ := last
    have within := lt_of_byteAt complete byte
    obtain ⟨read, success⟩ := complete.slice verified positive (show offset + len ≤ m.totalSize.toNat by omega)
    obtain ⟨placed, length⟩ := right read success
    rw [success, occupies_unique (length.trans long.symm) placed occupies]

variable (p) in
/-- The store holds the manifests of complete blobs, and its caches hold nothing else. -/
structure Holding (store : ChunkStore) : Prop where
  verified : store.Verified p
  blobs : ∀ name file, store.manifests.find? name = some file → store.CompleteBlob p file.content
  cached : ∀ entry ∈ store.manifestCache.entries, ∃ file,
    store.manifests.find? entry.1 = some file ∧ file.content = entry.2

def SameFiles (before after : ChunkStore) : Prop :=
  ∃ cache index, after = { before with manifestCache := cache, index := index }

theorem SameFiles.trans {first second third : ChunkStore} (one : SameFiles first second)
    (two : SameFiles second third) : SameFiles first third := by
  obtain ⟨_, _, rfl⟩ := one
  obtain ⟨cache, index, rfl⟩ := two
  exact ⟨cache, index, rfl⟩

theorem SameFiles.content {before after : ChunkStore} (same : SameFiles before after) (hash : String) :
    after.content p hash = before.content p hash := by
  obtain ⟨cache, index, rfl⟩ := same
  unfold ChunkStore.content getMmapCached
  split
  · rfl
  · cases before.mmapCache.get hash with
    | mk _ hit =>
      cases hit with
      | some mapped => rfl
      | none =>
        simp only
        have mapping : ∀ rest : FifoCache Bytes,
            ({ before with manifestCache := cache, index := index, mmapCache := rest } : ChunkStore).getMmap p hash =
              ({ before with mmapCache := rest } : ChunkStore).getMmap p hash := fun _ => rfl
        rw [mapping]
        split <;> rfl

theorem SameFiles.verified {before after : ChunkStore} (same : SameFiles before after)
    (verified : before.Verified p) : after.Verified p := by
  obtain ⟨_, _, rfl⟩ := same
  exact ⟨verified.named, verified.distinct⟩

theorem SameFiles.complete {before after : ChunkStore} (same : SameFiles before after)
    (complete : before.CompleteBlob p m) : after.CompleteBlob p m := by
  obtain ⟨_, _, rfl⟩ := same
  exact ⟨complete.valid, complete.chunks, complete.total⟩

/-- What looking for a manifest does: it leaves the files alone, and finds the manifest of a complete blob if any. -/
structure Finds (p : Primitives) (store : ChunkStore) (found : ChunkStore × Option ChunkManifest) : Prop where
  files : SameFiles store found.1
  holding : found.1.Holding p
  complete : ∀ m, found.2 = some m → store.CompleteBlob p m

theorem Holding.loadManifest (holding : store.Holding p) (name : String) : Finds p store (store.loadManifest name) := by
  obtain ⟨cache, same, entries, loaded⟩ := store.loadManifest_cases name
  have files : SameFiles store (store.loadManifest name).1 := ⟨cache, store.index, same⟩
  refine ⟨files, ?_, fun m found => ?_⟩
  · refine ⟨files.verified holding.verified, ?_, ?_⟩
    · intro other file found
      rw [same] at found
      exact files.complete (holding.blobs other file found)
    · intro entry member
      rw [same] at member ⊢
      obtain old | ⟨file, rfl, found, -⟩ := entries entry member
      · exact holding.cached entry old
      · exact ⟨file, found, rfl⟩
  · obtain old | ⟨file, stored, rfl, -⟩ := loaded m found
    · obtain ⟨file, stored, rfl⟩ := holding.cached _ old
      exact holding.blobs name file stored
    · exact holding.blobs name file stored

theorem Finds.after {between : ChunkStore} {found : ChunkStore × Option ChunkManifest} (files : SameFiles store between)
    (finds : Finds p between found) : Finds p store found := by
  refine ⟨files.trans finds.files, finds.holding, fun m same => ?_⟩
  obtain ⟨_, _, rfl⟩ := files
  have complete := finds.complete m same
  exact ⟨complete.valid, complete.chunks, complete.total⟩

theorem Holding.loadFirst (holding : store.Holding p) (candidates : List String) :
    Finds p store (store.loadFirst candidates) := by
  induction candidates generalizing store with
  | nil => exact ⟨⟨store.manifestCache, store.index, rfl⟩, holding, fun m found => nomatch found⟩
  | cons name rest ih =>
    have first := holding.loadManifest name
    unfold ChunkStore.loadFirst
    split
    · rename_i after m found
      rw [found] at first
      exact first
    · rename_i after found
      rw [found] at first
      exact (ih first.holding).after first.files

theorem Holding.findManifest (holding : store.Holding p) (hash : String) :
    Finds p store (store.findManifestContainingChunk hash) := by
  unfold findManifestContainingChunk
  split
  · exact ⟨⟨store.manifestCache, store.index, rfl⟩, holding, fun m found => nomatch found⟩
  · have indexed : ∀ index : Option ChunkIndex, ({ store with index := index } : ChunkStore).Holding p := fun index =>
      have files : SameFiles store { store with index := index } := ⟨store.manifestCache, index, rfl⟩
      ⟨files.verified holding.verified, fun name file found => files.complete (holding.blobs name file found),
        holding.cached⟩
    exact ((indexed _).loadFirst _).after ⟨store.manifestCache, _, rfl⟩

end Soshal.Media.ChunkStore
