import Soshal.Media.ChunkStore

/-! Runs of the chunk store: what a read can still return after a clear.

A ledger records beside the store what was ever stored under each name and which
names were stored since the last clear. The invariant says that every file and
every cache entry is backed by the ledger; each read then is as well.
-/

set_option autoImplicit false

namespace Soshal.Media

open Library
open Library.Text (byteLen toAsciiLowercase)

structure Ledger where
  stored : List (String × Bytes)
  live : List String
  liveManifests : List String

structure StoreSession where
  store : ChunkStore
  ledger : Ledger

inductive StoreCall where
  | put (now : Nat) (data : Bytes)
  | putTrusted (now : Nat) (hash : String) (data : Bytes)
  | putVerified (now : Nat) (expected : String) (data : Bytes)
  | storeReader (now : Nat) (stream : Bytes)
  | saveManifest (now : Nat) (m : ChunkManifest)
  | get (hash : String)
  | getMmapCached (hash : String)
  | writeChunkTo (c : ChunkRef)
  | blobSlice (m : ChunkManifest) (offset len : Nat)
  | blobRangeMapped (m : ChunkManifest) (offset len : Nat)
  | manifestBytes (m : ChunkManifest)
  | loadManifest (blobHash : String)
  | findManifestContainingChunk (chunkHash : String)
  | enforceCacheQuota (maxBytes : Nat)
  | refreshIndex
  | clear

variable (p : Primitives)

namespace ChunkStore

def call (store : ChunkStore) : StoreCall → ChunkStore
  | .put now data => (store.put p now data).1
  | .putTrusted now hash data => (store.putTrusted now hash data).1
  | .putVerified now expected data => (store.putVerified p now expected data).1
  | .storeReader now stream => (store.storeReader p now stream).1
  | .saveManifest now m => (store.saveManifest now m).toOption.getD store
  | .get _ => store
  | .getMmapCached hash => (store.getMmapCached p hash).1
  | .writeChunkTo c => (store.writeChunkTo p c).1
  | .blobSlice m offset len => (store.blobSlice p m offset len).1
  | .blobRangeMapped m offset len => (store.blobRangeMapped p m offset len).1
  | .manifestBytes m => (store.manifestBytes p m).1
  | .loadManifest blobHash => (store.loadManifest blobHash).1
  | .findManifestContainingChunk chunkHash => (store.findManifestContainingChunk chunkHash).1
  | .enforceCacheQuota maxBytes => (store.enforceCacheQuota p maxBytes).1
  | .refreshIndex => store.refreshIndex
  | .clear => store.clear

end ChunkStore

/-- The chunks a call is asked to store, under the names of their files. -/
def StoreCall.stores : StoreCall → List (String × Bytes)
  | .put _ data => [(toAsciiLowercase (p.blake3 data), data)]
  | .putTrusted _ hash data => [(toAsciiLowercase hash, data)]
  | .putVerified _ expected data => [(toAsciiLowercase expected, data)]
  | .storeReader _ stream => (p.cut stream).map fun piece => (toAsciiLowercase (p.blake3 piece), piece)
  | _ => []

def StoreCall.storesManifests : StoreCall → List String
  | .saveManifest _ m => [m.blobHash]
  | _ => []

def Ledger.after (ledger : Ledger) : StoreCall → Ledger
  | .clear => { ledger with live := [], liveManifests := [] }
  | call =>
    { stored := ledger.stored ++ call.stores p
      live := ledger.live ++ (call.stores p).map Prod.fst
      liveManifests := ledger.liveManifests ++ call.storesManifests }

namespace StoreSession

/-- A store opened on a directory whose files count as stored. -/
def opened (chunks : Table String (File Bytes)) (manifests : Table String (File ChunkManifest)) : StoreSession where
  store := .new chunks manifests
  ledger :=
    { stored := chunks.rows.map fun row => (row.1, row.2.content)
      live := chunks.keys
      liveManifests := manifests.keys }

def step (s : StoreSession) (call : StoreCall) : StoreSession := ⟨s.store.call p call, s.ledger.after p call⟩

def Reads (s : StoreSession) (hash : String) (data : Bytes) : Prop :=
  s.store.get p hash = some data ∨ s.store.getMmap p hash = some data ∨
    (s.store.getMmapCached p hash).2 = some data

def ReadsManifest (s : StoreSession) (m : ChunkManifest) : Prop :=
  (∃ blobHash, (s.store.loadManifest blobHash).2 = some m) ∨
    ∃ chunkHash, (s.store.findManifestContainingChunk chunkHash).2 = some m

/-- Only what was stored since the last clear is read, and only as it was stored. -/
structure ReadsStored (s : StoreSession) : Prop where
  chunks : ∀ hash data, s.Reads p hash data →
    toAsciiLowercase hash ∈ s.ledger.live ∧ (toAsciiLowercase hash, data) ∈ s.ledger.stored
  manifests : ∀ m, s.ReadsManifest m → m.blobHash ∈ s.ledger.liveManifests

end StoreSession

/-- Every file and every cache entry stands in the ledger. -/
structure Backed (store : ChunkStore) (ledger : Ledger) : Prop where
  files : ∀ name file, store.chunks.find? name = some file →
    name ∈ ledger.live ∧ (name, file.content) ∈ ledger.stored
  maps : ∀ hash data, (hash, data) ∈ store.mmapCache.entries →
    byteLen hash = 64 ∧ toAsciiLowercase hash ∈ ledger.live ∧ (toAsciiLowercase hash, data) ∈ ledger.stored
  manifests : ∀ blobHash file, store.manifests.find? blobHash = some file → blobHash ∈ ledger.liveManifests
  cached : ∀ blobHash m, (blobHash, m) ∈ store.manifestCache.entries →
    blobHash ∈ ledger.liveManifests ∧ m.blobHash = blobHash

namespace Backed

variable {p} {store : ChunkStore} {ledger : Ledger}

theorem mono (backed : Backed store ledger) {more : Ledger} (stored : ledger.stored ⊆ more.stored)
    (live : ledger.live ⊆ more.live) (manifests : ledger.liveManifests ⊆ more.liveManifests) :
    Backed store more where
  files name file found := ⟨live (backed.files name file found).1, stored (backed.files name file found).2⟩
  maps hash data member :=
    have ⟨named, isLive, isStored⟩ := backed.maps hash data member
    ⟨named, live isLive, stored isStored⟩
  manifests blobHash file found := manifests (backed.manifests blobHash file found)
  cached blobHash m member :=
    ⟨manifests (backed.cached blobHash m member).1, (backed.cached blobHash m member).2⟩

theorem chunkFile (backed : Backed store ledger) {hash : String} {data : Bytes}
    (found : store.chunkFile hash = some data) :
    toAsciiLowercase hash ∈ ledger.live ∧ (toAsciiLowercase hash, data) ∈ ledger.stored := by
  obtain ⟨file, inTable, rfl⟩ := Option.map_eq_some_iff.mp found
  exact backed.files _ file inTable

end Backed

namespace ChunkStore

variable {p} {store : ChunkStore} {ledger : Ledger}

theorem chunkFile_of_getMmap {hash : String} {data : Bytes} (mapped : store.getMmap p hash = some data) :
    store.chunkFile hash = some data := by
  unfold getMmap at mapped
  split at mapped
  · simp at mapped
  · split at mapped
    · simp at mapped
    · rename_i bytes found
      split at mapped
      · simp at mapped
      · split at mapped
        · rw [found, ← mapped]
        · simp at mapped

theorem chunkFile_of_get {hash : String} {data : Bytes} (read : store.get p hash = some data) :
    store.chunkFile hash = some data := by
  unfold get at read
  split at read
  · simp at read
  · split at read
    · simp at read
    · rename_i bytes found
      split at read
      · rename_i empty
        split at read
        · rw [found, List.eq_nil_of_length_eq_zero empty, ← read]
        · simp at read
      · exact chunkFile_of_getMmap read

theorem backed_getMmapCached (backed : Backed store ledger) (hash : String) :
    Backed (store.getMmapCached p hash).1 ledger := by
  obtain ⟨cache, same, entries, -⟩ := store.getMmapCached_cases p hash
  rw [same]
  refine ⟨backed.files, ?_, backed.manifests, backed.cached⟩
  intro other data member
  obtain old | ⟨found, same, named, mapped⟩ := entries _ member
  · exact backed.maps other data old
  · cases same
    exact ⟨named, backed.chunkFile (chunkFile_of_getMmap mapped)⟩

theorem backed_readAll (backed : Backed store ledger) (chunks : List ChunkRef) :
    Backed (store.readAll p chunks).1 ledger := by
  induction chunks generalizing store with
  | nil => exact backed
  | cons c rest ih => exact ih (backed_getMmapCached backed c.blake3)

theorem backed_putTrusted (backed : Backed store ledger) {now : Nat} {hash : String} {data : Bytes}
    (live : toAsciiLowercase hash ∈ ledger.live) (stored : (toAsciiLowercase hash, data) ∈ ledger.stored) :
    Backed (store.putTrusted now hash data).1 ledger := by
  unfold putTrusted
  split
  · exact backed
  · split
    · exact backed
    · refine ⟨?_, backed.maps, backed.manifests, backed.cached⟩
      intro name file found
      by_cases named : name = toAsciiLowercase hash
      · subst named
        rw [Table.find?_upsert_self] at found
        cases old : store.chunks.find? (toAsciiLowercase hash) with
        | none =>
          simp only [old, Option.some.injEq] at found
          rw [← found]
          exact ⟨live, stored⟩
        | some before =>
          simp only [old, Option.some.injEq] at found
          rw [← found]
          exact ⟨live, stored⟩
      · rw [Table.find?_upsert_of_ne _ _ _ named] at found
        exact backed.files name file found

theorem loadManifest_cases (store : ChunkStore) (blobHash : String) :
    ∃ cache, (store.loadManifest blobHash).1 = { store with manifestCache := cache } ∧
      (∀ entry ∈ cache.entries, entry ∈ store.manifestCache.entries ∨
        ∃ file, entry = (blobHash, file.content) ∧ store.manifests.find? blobHash = some file ∧
          file.content.blobHash = blobHash) ∧
      ∀ m, (store.loadManifest blobHash).2 = some m → (blobHash, m) ∈ store.manifestCache.entries ∨
        ∃ file, store.manifests.find? blobHash = some file ∧ m = file.content ∧ m.blobHash = blobHash := by
  unfold loadManifest
  split
  · exact ⟨store.manifestCache, rfl, fun entry member => .inl member, by simp⟩
  · cases looked : store.manifestCache.get blobHash with
    | mk cache hit =>
      cases hit with
      | some m =>
        refine ⟨cache, rfl, fun entry member => .inl (FifoCache.mem_of_get looked member), ?_⟩
        intro other same
        left
        apply FifoCache.get_some
        rw [looked]
        exact same
      | none =>
        simp only
        cases found : store.manifests.find? blobHash with
        | none => exact ⟨cache, rfl, fun entry member => .inl (FifoCache.mem_of_get looked member), by simp⟩
        | some file =>
          simp only
          split
          · rename_i good
            refine ⟨cache.put blobHash file.content, rfl, ?_, ?_⟩
            · intro entry member
              obtain old | rfl := FifoCache.mem_put member
              · exact .inl (FifoCache.mem_of_get looked old)
              · exact .inr ⟨file, rfl, rfl, good.1⟩
            · intro m same
              cases same
              exact .inr ⟨file, rfl, rfl, good.1⟩
          · exact ⟨cache, rfl, fun entry member => .inl (FifoCache.mem_of_get looked member), by simp⟩

theorem backed_loadManifest (backed : Backed store ledger) (blobHash : String) :
    Backed (store.loadManifest blobHash).1 ledger ∧
      ∀ m, (store.loadManifest blobHash).2 = some m → m.blobHash ∈ ledger.liveManifests := by
  obtain ⟨cache, same, entries, loaded⟩ := store.loadManifest_cases blobHash
  rw [same]
  refine ⟨⟨backed.files, backed.maps, backed.manifests, ?_⟩, ?_⟩
  · intro other m member
    obtain old | ⟨file, same, found, named⟩ := entries _ member
    · exact backed.cached other m old
    · cases same
      exact ⟨backed.manifests _ file found, named⟩
  · intro m some
    obtain old | ⟨file, found, -, named⟩ := loaded m some
    · obtain ⟨live, named⟩ := backed.cached _ m old
      rw [named]
      exact live
    · rw [named]
      exact backed.manifests _ file found

theorem backed_loadFirst (backed : Backed store ledger) (candidates : List String) :
    Backed (store.loadFirst candidates).1 ledger ∧
      ∀ m, (store.loadFirst candidates).2 = some m → m.blobHash ∈ ledger.liveManifests := by
  induction candidates generalizing store with
  | nil => exact ⟨backed, by simp [loadFirst]⟩
  | cons blobHash rest ih =>
    obtain ⟨after, loaded⟩ := backed_loadManifest backed blobHash
    unfold loadFirst
    split
    · rename_i next m found
      rw [found] at after loaded
      exact ⟨after, loaded⟩
    · rename_i next found
      rw [found] at after
      exact ih after

theorem backed_index (backed : Backed store ledger) (index : Option ChunkIndex) :
    Backed { store with index := index } ledger :=
  ⟨backed.files, backed.maps, backed.manifests, backed.cached⟩

theorem backed_findManifest (backed : Backed store ledger) (chunkHash : String) :
    Backed (store.findManifestContainingChunk chunkHash).1 ledger ∧
      ∀ m, (store.findManifestContainingChunk chunkHash).2 = some m → m.blobHash ∈ ledger.liveManifests := by
  unfold findManifestContainingChunk
  split
  · exact ⟨backed, by simp⟩
  · exact backed_loadFirst (backed_index backed _) _

theorem backed_saveManifest (backed : Backed store ledger) {now : Nat} {m : ChunkManifest} {after : ChunkStore}
    (saved : store.saveManifest now m = .ok after) (live : m.blobHash ∈ ledger.liveManifests) :
    Backed after ledger := by
  unfold saveManifest at saved
  split at saved
  · simp at saved
  · simp only [Except.ok.injEq] at saved
    subst saved
    refine ⟨backed.files, backed.maps, ?_, ?_⟩
    · intro blobHash file found
      by_cases named : blobHash = m.blobHash
      · rw [named]
        exact live
      · rw [Table.find?_upsert_of_ne _ _ _ named] at found
        exact backed.manifests blobHash file found
    · intro blobHash other member
      exact backed.cached blobHash other (FifoCache.mem_invalidate member)

theorem backed_enforceCacheQuota (backed : Backed store ledger) (maxBytes : Nat) :
    Backed (store.enforceCacheQuota p maxBytes).1 ledger := by
  unfold enforceCacheQuota
  simp only
  split
  · exact backed
  · split
    · refine ⟨?_, backed.maps, ?_, backed.cached⟩
      · intro name file found
        exact backed.files name file (Table.find?_of_delete found)
      · intro blobHash file found
        exact backed.manifests blobHash file (Table.find?_of_delete found)
    · refine ⟨?_, backed.maps, ?_, backed.cached⟩
      · intro name file found
        exact backed.files name file (Table.find?_of_delete found)
      · intro blobHash file found
        exact backed.manifests blobHash file (Table.find?_of_delete found)

theorem backed_storePieces {now : Nat} (pieces : List Bytes) (backed : Backed store ledger)
    (live : ∀ piece ∈ pieces, toAsciiLowercase (p.blake3 piece) ∈ ledger.live)
    (stored : ∀ piece ∈ pieces, (toAsciiLowercase (p.blake3 piece), piece) ∈ ledger.stored) :
    Backed (pieces.foldl (fun store piece => (store.putTrusted now (p.blake3 piece) piece).1) store) ledger := by
  induction pieces generalizing store with
  | nil => exact backed
  | cons piece rest ih =>
    apply ih
    · exact backed_putTrusted backed (live piece (List.mem_cons_self ..)) (stored piece (List.mem_cons_self ..))
    · exact fun later member => live later (List.mem_cons_of_mem _ member)
    · exact fun later member => stored later (List.mem_cons_of_mem _ member)

theorem backed_blobSlice (backed : Backed store ledger) (m : ChunkManifest) (offset len : Nat) :
    Backed (store.blobSlice p m offset len).1 ledger := by
  unfold blobSlice
  split
  · exact backed
  · split
    · exact backed
    · split
      · exact backed
      · split
        · exact backed
        · split
          · exact backed
          · exact backed_readAll backed _

theorem backed_blobRangeMapped (backed : Backed store ledger) (m : ChunkManifest) (offset len : Nat) :
    Backed (store.blobRangeMapped p m offset len).1 ledger := by
  unfold blobRangeMapped
  split
  · exact backed
  · split
    · exact backed
    · split
      · exact backed
      · split
        · exact backed
        · rename_i c _
          have after := backed_getMmapCached (p := p) backed c.blake3
          split
          · rename_i read
            rw [read] at after
            exact after
          · rename_i read
            rw [read] at after
            simp only
            split <;> exact after

theorem backed_call (backed : Backed store ledger) (call : StoreCall) (kept : call ≠ .clear)
    (live : ∀ name ∈ (call.stores p).map Prod.fst, name ∈ ledger.live)
    (stored : ∀ entry ∈ call.stores p, entry ∈ ledger.stored)
    (manifests : ∀ blobHash ∈ call.storesManifests, blobHash ∈ ledger.liveManifests) :
    Backed (store.call p call) ledger := by
  cases call with
  | put now data =>
    exact backed_putTrusted backed (live _ (by simp [StoreCall.stores])) (stored _ (by simp [StoreCall.stores]))
  | putTrusted now hash data =>
    exact backed_putTrusted backed (live _ (by simp [StoreCall.stores])) (stored _ (by simp [StoreCall.stores]))
  | putVerified now expected data =>
    simp only [ChunkStore.call, putVerified]
    split
    · exact backed
    · exact backed_putTrusted backed (live _ (by simp [StoreCall.stores])) (stored _ (by simp [StoreCall.stores]))
  | storeReader now stream =>
    apply backed_storePieces _ backed
    · intro piece member
      apply live
      simp only [StoreCall.stores, List.map_map, List.mem_map]
      exact ⟨piece, member, rfl⟩
    · intro piece member
      apply stored
      simp only [StoreCall.stores, List.mem_map]
      exact ⟨piece, member, rfl⟩
  | saveManifest now m =>
    simp only [ChunkStore.call]
    cases saved : store.saveManifest now m with
    | error _ => exact backed
    | ok after => exact backed_saveManifest backed saved (manifests _ (by simp [StoreCall.storesManifests]))
  | get hash => exact backed
  | getMmapCached hash => exact backed_getMmapCached backed hash
  | writeChunkTo c =>
    have after := backed_getMmapCached (p := p) backed c.blake3
    simp only [ChunkStore.call, writeChunkTo]
    split
    · rename_i read
      rw [read] at after
      exact after
    · rename_i read
      rw [read] at after
      exact after
  | blobSlice m offset len => exact backed_blobSlice backed m offset len
  | blobRangeMapped m offset len => exact backed_blobRangeMapped backed m offset len
  | manifestBytes m => exact backed_readAll backed m.chunks
  | loadManifest blobHash => exact (backed_loadManifest backed blobHash).1
  | findManifestContainingChunk chunkHash => exact (backed_findManifest backed chunkHash).1
  | enforceCacheQuota maxBytes => exact backed_enforceCacheQuota backed maxBytes
  | refreshIndex => exact backed_index backed _
  | clear => exact absurd rfl kept

end ChunkStore

namespace StoreSession

variable {p}

theorem backed_opened (chunks : Table String (File Bytes)) (manifests : Table String (File ChunkManifest)) :
    Backed (opened chunks manifests).store (opened chunks manifests).ledger where
  files name file found := by
    refine ⟨Table.mem_keys_iff.mpr ⟨file, found⟩, ?_⟩
    exact List.mem_map.mpr ⟨(name, file), Table.find?_eq_some.mp found, rfl⟩
  maps hash data member := by simp [opened, ChunkStore.new] at member
  manifests blobHash file found := Table.mem_keys_iff.mpr ⟨file, found⟩
  cached blobHash m member := by simp [opened, ChunkStore.new] at member

theorem readsStored_of_backed {s : StoreSession} (backed : Backed s.store s.ledger) : s.ReadsStored p where
  chunks hash data read := by
    obtain plain | mapped | cached := read
    · exact backed.chunkFile (ChunkStore.chunkFile_of_get plain)
    · exact backed.chunkFile (ChunkStore.chunkFile_of_getMmap mapped)
    · obtain ⟨-, -, -, result⟩ := s.store.getMmapCached_cases p hash
      obtain held | mapped := result data cached
      · exact (backed.maps hash data held).2
      · exact backed.chunkFile (ChunkStore.chunkFile_of_getMmap mapped)
  manifests m read := by
    obtain ⟨blobHash, loaded⟩ | ⟨chunkHash, found⟩ := read
    · exact (ChunkStore.backed_loadManifest backed blobHash).2 m loaded
    · exact (ChunkStore.backed_findManifest backed chunkHash).2 m found

def ClearsUnmapped (s : StoreSession) (call : StoreCall) : Prop := call = .clear → s.store.mmapCache.entries = []

theorem backed_step {s : StoreSession} {call : StoreCall} (backed : Backed s.store s.ledger)
    (unmapped : s.ClearsUnmapped call) : Backed (s.step p call).store (s.step p call).ledger := by
  by_cases cleared : call = .clear
  · subst cleared
    refine ⟨?_, ?_, ?_, ?_⟩
    · intro name file found
      simp [step, ChunkStore.call, ChunkStore.clear] at found
    · intro hash data member
      simp [step, ChunkStore.call, ChunkStore.clear, unmapped rfl] at member
    · intro blobHash file found
      simp [step, ChunkStore.call, ChunkStore.clear] at found
    · intro blobHash m member
      simp [step, ChunkStore.call, ChunkStore.clear, FifoCache.clear] at member
  · have ledger : s.ledger.after p call =
        { stored := s.ledger.stored ++ call.stores p
          live := s.ledger.live ++ (call.stores p).map Prod.fst
          liveManifests := s.ledger.liveManifests ++ call.storesManifests } := by
      cases call <;> first | rfl | exact absurd rfl cleared
    simp only [step, ledger]
    apply ChunkStore.backed_call _ call cleared
    · exact fun name member => List.mem_append_right _ member
    · exact fun entry member => List.mem_append_right _ member
    · exact fun blobHash member => List.mem_append_right _ member
    · exact backed.mono (List.subset_append_left ..) (List.subset_append_left ..) (List.subset_append_left ..)

theorem clearsUnmapped_of_readsStored {s : StoreSession} {call : StoreCall} (backed : Backed s.store s.ledger)
    (after : (s.step p call).ReadsStored p) : s.ClearsUnmapped call := by
  rintro rfl
  rw [List.eq_nil_iff_forall_not_mem]
  rintro ⟨hash, data⟩ held
  obtain ⟨named, -, -⟩ := backed.maps hash data held
  obtain ⟨kept, served⟩ := FifoCache.get_of_mem held
  have read : (s.step p .clear).Reads p hash kept := by
    refine .inr (.inr ?_)
    have same : (s.step p .clear).store.mmapCache = s.store.mmapCache := rfl
    rw [ChunkStore.getMmapCached, if_neg (not_not.mpr named), same]
    cases looked : s.store.mmapCache.get hash with
    | mk cache hit =>
      rw [looked] at served
      simp only at served
      rw [served]
  have live := (after.chunks hash kept read).1
  simp [step, Ledger.after] at live

/-- Reads return only what was stored since the last clear, as it was stored, exactly in the runs whose
clears all come while no chunk mapping is cached. -/
theorem reads_stored_iff (chunks : Table String (File Bytes)) (manifests : Table String (File ChunkManifest))
    (calls : List StoreCall) :
    Runs.Always (step p) (ReadsStored p) (opened chunks manifests) calls ↔
      Runs.Throughout (step p) ClearsUnmapped (opened chunks manifests) calls :=
  @Runs.always_iff_of_invariant _ _ (step p) _ _ (ReadsStored p) (fun s => Backed s.store s.ledger) _
    (fun _ backed => readsStored_of_backed backed) (fun _ _ backed after => clearsUnmapped_of_readsStored backed after)
    (fun _ _ backed unmapped => backed_step backed unmapped) (backed_opened chunks manifests)

/-- A chunk that was read before the store was cleared is read again afterwards. -/
theorem cleared_chunk_is_still_served :
    let p : Primitives := ⟨shortDigest, fun stream => [stream], fun _ => 2⟩
    ¬ Runs.Always (step p) (ReadsStored p) (opened .empty .empty)
      [.put 0 [0x61], .getMmapCached (shortDigest [0x61]), .clear] := by
  intro p always
  have last := always.last.chunks (shortDigest [0x61]) [0x61] (.inr (.inr (by decide +kernel)))
  exact absurd last.1 (by decide)

end StoreSession

end Soshal.Media
