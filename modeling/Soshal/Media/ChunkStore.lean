import Soshal.Library.Runs
import Soshal.Library.Table
import Soshal.Media.Chunking

/-! The content-addressed chunk store: chunk and manifest files, and the caches that shadow them.

A chunk file is named by the lower-case spelling of its hash and never
overwritten. Reads re-hash what they map, except that a mapping already in the
cache is handed out as it is. The clock that stamps files is passed in.
-/

set_option autoImplicit false

namespace Soshal.Media

open Library
open Library.Text (byteLen toAsciiLowercase eqIgnoreAsciiCase)

/-- A cache that evicts its least recently used entry; entries stand in the order of their last use. -/
structure FifoCache (α : Type) where
  cap : Nat
  entries : List (String × α)

namespace FifoCache

variable {α : Type}

def get (cache : FifoCache α) (key : String) : FifoCache α × Option α :=
  match cache.entries.find? (·.1 = key) with
  | none => (cache, none)
  | some entry => ({ cache with entries := cache.entries.filter (·.1 ≠ key) ++ [entry] }, some entry.2)

def put (cache : FifoCache α) (key : String) (value : α) : FifoCache α :=
  if cache.entries.any (·.1 = key) then
    { cache with entries := cache.entries.filter (·.1 ≠ key) ++ [(key, value)] }
  else if 0 < cache.cap ∧ cache.cap ≤ cache.entries.length then
    { cache with entries := cache.entries.tail ++ [(key, value)] }
  else { cache with entries := cache.entries ++ [(key, value)] }

def invalidate (cache : FifoCache α) (key : String) : FifoCache α :=
  { cache with entries := cache.entries.filter (·.1 ≠ key) }

def clear (cache : FifoCache α) : FifoCache α := { cache with entries := [] }

theorem get_some {cache : FifoCache α} {key : String} {value : α} (found : (cache.get key).2 = some value) :
    (key, value) ∈ cache.entries := by
  unfold get at found
  cases lookup : cache.entries.find? (·.1 = key) with
  | none => simp [lookup] at found
  | some entry =>
    have member := List.mem_of_find?_eq_some lookup
    have named : entry.1 = key := by simpa using List.find?_some lookup
    simp only [lookup, Option.some.injEq] at found
    rw [← named, ← found]
    exact member

theorem get_of_mem {cache : FifoCache α} {key : String} {value : α} (member : (key, value) ∈ cache.entries) :
    ∃ kept, (cache.get key).2 = some kept := by
  unfold get
  cases lookup : cache.entries.find? (·.1 = key) with
  | none => simpa using List.find?_eq_none.mp lookup _ member
  | some entry => exact ⟨entry.2, rfl⟩

theorem mem_get {cache : FifoCache α} {key : String} {entry : String × α}
    (member : entry ∈ (cache.get key).1.entries) : entry ∈ cache.entries := by
  unfold get at member
  cases lookup : cache.entries.find? (·.1 = key) with
  | none => simpa [lookup] using member
  | some found =>
    simp only [lookup, List.mem_append, List.mem_filter, List.mem_singleton] at member
    obtain ⟨inside, -⟩ | rfl := member
    · exact inside
    · exact List.mem_of_find?_eq_some lookup

theorem mem_of_get {cache after : FifoCache α} {key : String} {hit : Option α} (looked : cache.get key = (after, hit))
    {entry : String × α} (member : entry ∈ after.entries) : entry ∈ cache.entries :=
  mem_get (by rwa [looked])

theorem mem_put {cache : FifoCache α} {key : String} {value : α} {entry : String × α}
    (member : entry ∈ (cache.put key value).entries) : entry ∈ cache.entries ∨ entry = (key, value) := by
  unfold put at member
  split at member
  · simp only [List.mem_append, List.mem_filter, List.mem_singleton] at member
    exact member.imp_left And.left
  · split at member
    · simp only [List.mem_append, List.mem_singleton] at member
      exact member.imp_left List.mem_of_mem_tail
    · simpa using member

theorem mem_invalidate {cache : FifoCache α} {key : String} {entry : String × α}
    (member : entry ∈ (cache.invalidate key).entries) : entry ∈ cache.entries :=
  List.mem_of_mem_filter member

end FifoCache

/-- BLAKE3 as hexadecimal text, the cut points FastCDC finds in a stream, and the length of a manifest as JSON. -/
structure Primitives where
  blake3 : Bytes → String
  cut : Bytes → List Bytes
  manifestLen : ChunkManifest → Nat

/-- BLAKE3 of the short strings that concrete runs use. -/
def shortDigest : Bytes → String
  | [0x61] => "17762fddd969a453925d65717ac3eea21320b66b54342fde15128d6caf21215f"
  | [0x62] => "10e5cf3d3c8a4f9f3468c8cc58eea84892a22fdadbc1acb22410190044c1d553"
  | [0x61, 0x62] => "2dc99999a6aaef3f20349d2ed4057a2b54419545dabb809e6381de1bad8337e2"
  | _ => "af1349b9f5f9a1a6a0404dea36dcc9499bcb25c9adc112b7cc9a93cae41f3262"

/-- What is named by a chunk hash: the blobs that contain the chunk, and where. -/
structure ChunkIndex where
  byChunk : List (String × String × UInt64)

def ChunkIndex.ingest (idx : ChunkIndex) (m : ChunkManifest) : ChunkIndex :=
  ⟨idx.byChunk ++ m.chunks.map fun c => (c.blake3, m.blobHash, c.offset)⟩

/-- A file's content and its modification time. -/
structure File (α : Type) where
  content : α
  modified : Nat

structure ChunkStore where
  chunks : Table String (File Bytes)
  manifests : Table String (File ChunkManifest)
  index : Option ChunkIndex
  manifestCache : FifoCache ChunkManifest
  mmapCache : FifoCache Bytes

namespace ChunkStore

def new (chunks : Table String (File Bytes)) (manifests : Table String (File ChunkManifest)) : ChunkStore where
  chunks := chunks
  manifests := manifests
  index := none
  manifestCache := ⟨64, []⟩
  mmapCache := ⟨64, []⟩

variable (p : Primitives)

def chunkFile (store : ChunkStore) (hash : String) : Option Bytes :=
  (store.chunks.find? (toAsciiLowercase hash)).map File.content

def contains (store : ChunkStore) (hash : String) : Bool := isValidHash hash && (store.chunkFile hash).isSome

def getMmap (store : ChunkStore) (hash : String) : Option Bytes :=
  if !isValidHash hash then none
  else
    match store.chunkFile hash with
    | none => none
    | some bytes =>
      -- An empty file cannot be mapped.
      if bytes.length = 0 then none
      else if eqIgnoreAsciiCase (p.blake3 bytes) hash then some bytes else none

def get (store : ChunkStore) (hash : String) : Option Bytes :=
  if !isValidHash hash then none
  else
    match store.chunkFile hash with
    | none => none
    | some bytes =>
      if bytes.length = 0 then if p.blake3 [] = hash then some [] else none
      else store.getMmap p hash

def getMmapCached (store : ChunkStore) (hash : String) : ChunkStore × Option Bytes :=
  if byteLen hash ≠ 64 then (store, none)
  else
    match store.mmapCache.get hash with
    | (cache, some mapped) => ({ store with mmapCache := cache }, some mapped)
    | (cache, none) =>
      let store := { store with mmapCache := cache }
      match store.getMmap p hash with
      | none => (store, none)
      | some mapped => ({ store with mmapCache := store.mmapCache.put hash mapped }, some mapped)

def putTrusted (store : ChunkStore) (now : Nat) (hash : String) (data : Bytes) : ChunkStore × Bool :=
  if !isValidHash hash then (store, false)
  -- Whatever the file under this name holds, it is not written again.
  else if (store.chunkFile hash).isSome then (store, false)
  else
    ({ store with chunks := store.chunks.upsert (toAsciiLowercase hash) ⟨data, now⟩ fun _ => ⟨data, now⟩ }, true)

def put (store : ChunkStore) (now : Nat) (data : Bytes) : ChunkStore × Bool :=
  store.putTrusted now (p.blake3 data) data

def putVerified (store : ChunkStore) (now : Nat) (expected : String) (data : Bytes) : ChunkStore × Bool :=
  if byteLen expected ≠ 64 ∨ !eqIgnoreAsciiCase expected (p.blake3 data) then (store, false)
  else store.putTrusted now expected data

/-- References to consecutive pieces of a stream from position `offset` on. -/
def chunkRefs : Nat → List Bytes → List ChunkRef
  | _, [] => []
  | offset, piece :: rest =>
    ⟨p.blake3 piece, UInt64.ofNat offset, UInt64.ofNat piece.length⟩ :: chunkRefs (offset + piece.length) rest

def manifestOf (stream : Bytes) : ChunkManifest :=
  let chunks := chunkRefs p 0 (p.cut stream)
  { blobHash := p.blake3 (p.cut stream).flatten
    totalSize := (chunks.getLast?.map fun c => c.offset + c.len).getD 0
    chunks := chunks }

def storeReader (store : ChunkStore) (now : Nat) (stream : Bytes) : ChunkStore × ChunkManifest :=
  ((p.cut stream).foldl (fun store piece => (store.putTrusted now (p.blake3 piece) piece).1) store,
    manifestOf p stream)

def buildIndex (store : ChunkStore) : ChunkIndex :=
  store.manifests.rows.foldl
    (fun idx row => if row.2.content.isValid then idx.ingest row.2.content else idx) ⟨[]⟩

def refreshIndex (store : ChunkStore) : ChunkStore := { store with index := some store.buildIndex }

def saveManifest (store : ChunkStore) (now : Nat) (m : ChunkManifest) : Except String ChunkStore :=
  if !isValidHash m.blobHash || !m.isValid then .error "invalid manifest or blob_hash"
  else
    -- The cached manifest goes; a mapping of one of its chunks stays.
    let store := { store with
      manifestCache := store.manifestCache.invalidate m.blobHash
      manifests := store.manifests.upsert m.blobHash ⟨m, now⟩ fun _ => ⟨m, now⟩ }
    .ok { store with index := some ((store.index.getD store.buildIndex).ingest m) }

def loadManifest (store : ChunkStore) (blobHash : String) : ChunkStore × Option ChunkManifest :=
  if !isValidHash blobHash then (store, none)
  else
    match store.manifestCache.get blobHash with
    | (cache, some m) => ({ store with manifestCache := cache }, some m)
    | (cache, none) =>
      let store := { store with manifestCache := cache }
      match store.manifests.find? blobHash with
      | none => (store, none)
      | some file =>
        if file.content.blobHash = blobHash ∧ file.content.isValid then
          ({ store with manifestCache := store.manifestCache.put blobHash file.content }, some file.content)
        else (store, none)

def loadFirst : ChunkStore → List String → ChunkStore × Option ChunkManifest
  | store, [] => (store, none)
  | store, blobHash :: rest =>
    match store.loadManifest blobHash with
    | (store, some m) => (store, some m)
    | (store, none) => loadFirst store rest

def findManifestContainingChunk (store : ChunkStore) (chunkHash : String) : ChunkStore × Option ChunkManifest :=
  if byteLen chunkHash ≠ 64 then (store, none)
  else
    let idx := store.index.getD store.buildIndex
    let store := { store with index := some idx }
    store.loadFirst ((idx.byChunk.filter (·.1 = chunkHash)).map (·.2.1))

/-- Maps the chunks one after another; none is skipped when an earlier one is missing. -/
def readAll (store : ChunkStore) : List ChunkRef → ChunkStore × List (Option Bytes)
  | [] => (store, [])
  | c :: rest =>
    let read := store.getMmapCached p c.blake3
    let later := readAll read.1 rest
    (later.1, read.2 :: later.2)

def writeChunkTo (store : ChunkStore) (c : ChunkRef) : ChunkStore × Except String Bytes :=
  match store.getMmapCached p c.blake3 with
  | (store, some mapped) => (store, .ok mapped)
  | (store, none) => (store, .error ("chunk " ++ c.blake3 ++ " missing"))

def manifestBytes (store : ChunkStore) (m : ChunkManifest) : ChunkStore × Bytes :=
  let reads := store.readAll p m.chunks
  (reads.1, (reads.2.filterMap id).flatten)

/-- The chunks that overlap `[offset, stop)`; `none` when the end of one overflows. -/
def overlapping (offset stop : Nat) : List ChunkRef → Option (List ChunkRef)
  | [] => some []
  | c :: rest =>
    if c.start < stop then do
      let cEnd ← checkedAdd c.start c.size
      let later ← overlapping offset stop rest
      some (if cEnd > offset then c :: later else later)
    else some []

/-- The part of a mapped chunk that a range takes. -/
structure SourceWindow where
  mapped : Bytes
  lo : Nat
  hi : Nat

def SourceWindow.bytes (w : SourceWindow) : Bytes := (w.mapped.take w.hi).drop w.lo

def resolve (offset stop : Nat) (c : ChunkRef) (mapped : Bytes) : Option SourceWindow :=
  if c.start + c.size ≤ offset ∨ c.start ≥ stop then some ⟨mapped, 0, 0⟩
  else
    let lo := offset - c.start
    -- Bounded by what is mapped, not by the size the manifest declares.
    let hi := min (stop - c.start) mapped.length
    if lo > hi then none else some ⟨mapped, lo, hi⟩

/-- The windows of the chunks that were read; `none` when one is missing or ends before it begins. -/
def resolveAll (offset stop : Nat) : List ChunkRef → List (Option Bytes) → Option (List SourceWindow)
  | c :: chunks, read :: reads => do
    let mapped ← read
    let window ← resolve offset stop c mapped
    let later ← resolveAll offset stop chunks reads
    some (window :: later)
  | _, _ => some []

def assemble (len : Nat) (windows : List SourceWindow) : Option Bytes :=
  if (windows.map fun w => w.hi - w.lo).sum ≠ len then none else some (windows.map SourceWindow.bytes).flatten

def blobSlice (store : ChunkStore) (m : ChunkManifest) (offset len : Nat) : ChunkStore × Option Bytes :=
  if !m.isValid || len == 0 then (store, none)
  else
    match checkedAdd offset len with
    | none => (store, none)
    | some stop =>
      if stop > m.totalSize.toNat then (store, none)
      else
        match overlapping offset stop m.chunks with
        | none => (store, none)
        | some chunks =>
          if chunks.isEmpty then (store, none)
          else
            let reads := store.readAll p chunks
            (reads.1, (resolveAll offset stop chunks reads.2).bind (assemble len))

/-- The chunk that holds the whole range, if one does; `none` also when the end of a candidate overflows. -/
def mappedChunk (offset stop : Nat) : List ChunkRef → Option ChunkRef
  | [] => none
  | c :: rest =>
    -- The search goes on past a chunk that starts later, although none after it can hold the range.
    if offset ≥ c.start then do
      let cEnd ← checkedAdd c.start c.size
      if stop ≤ cEnd then some c else mappedChunk offset stop rest
    else mappedChunk offset stop rest

/-- The view of a mapped chunk that serves the range, as the bytes it shows. -/
def blobRangeMapped (store : ChunkStore) (m : ChunkManifest) (offset len : Nat) : ChunkStore × Option Bytes :=
  if !m.isValid || len == 0 then (store, none)
  else
    match checkedAdd offset len with
    | none => (store, none)
    | some stop =>
      if stop > m.totalSize.toNat then (store, none)
      else
        match mappedChunk offset stop m.chunks with
        | none => (store, none)
        | some c =>
          match store.getMmapCached p c.blake3 with
          | (store, none) => (store, none)
          | (store, some mapped) =>
            let hi := min (stop - c.start) mapped.length
            let lo := offset - c.start
            if lo > hi then (store, none) else (store, some (SourceWindow.bytes ⟨mapped, lo, hi⟩))

inductive StoreFile where
  | chunk (name : String)
  | manifest (blobHash : String)
  deriving DecidableEq

def walkStore (store : ChunkStore) : List (StoreFile × Nat × Nat) :=
  store.chunks.rows.map (fun row => (.chunk row.1, row.2.content.length, row.2.modified)) ++
    store.manifests.rows.map (fun row => (.manifest row.1, p.manifestLen row.2.content, row.2.modified))

/-- The files to remove, oldest first, until what remains fits the quota. -/
def evictions (maxBytes : Nat) : Nat → List (StoreFile × Nat × Nat) → List (StoreFile × Nat)
  | _, [] => []
  | remaining, (file, size, _) :: rest =>
    if remaining ≤ maxBytes then [] else (file, size) :: evictions maxBytes (remaining - size) rest

def enforceCacheQuota (store : ChunkStore) (maxBytes : Nat) : ChunkStore × Nat :=
  let files := store.walkStore p
  let current := (files.map (·.2.1)).sum
  if current ≤ maxBytes then (store, 0)
  else
    let removed := evictions maxBytes current (files.mergeSort fun a b => a.2.2 ≤ b.2.2)
    let reclaimed := (removed.map Prod.snd).sum
    let gone := removed.map Prod.fst
    let left := { store with
      chunks := store.chunks.delete fun name _ => decide (.chunk name ∈ gone)
      manifests := store.manifests.delete fun blobHash _ => decide (.manifest blobHash ∈ gone) }
    -- Neither cache is told which files are gone.
    (if reclaimed > 0 then left.refreshIndex else left, reclaimed)

/-- Removes every file and drops the index and the cached manifests. -/
def clear (store : ChunkStore) : ChunkStore :=
  { store with
    chunks := .empty
    manifests := .empty
    index := none
    manifestCache := store.manifestCache.clear }

theorem getMmapCached_cases (store : ChunkStore) (hash : String) :
    ∃ cache, (store.getMmapCached p hash).1 = { store with mmapCache := cache } ∧
      (∀ entry ∈ cache.entries, entry ∈ store.mmapCache.entries ∨
        ∃ data, entry = (hash, data) ∧ byteLen hash = 64 ∧ store.getMmap p hash = some data) ∧
      ∀ data, (store.getMmapCached p hash).2 = some data →
        (hash, data) ∈ store.mmapCache.entries ∨ store.getMmap p hash = some data := by
  unfold getMmapCached
  split
  · exact ⟨store.mmapCache, rfl, fun entry member => .inl member, by simp⟩
  · rename_i named
    rw [not_not] at named
    cases looked : store.mmapCache.get hash with
    | mk cache hit =>
      cases hit with
      | some mapped =>
        refine ⟨cache, rfl, fun entry member => .inl (FifoCache.mem_of_get looked member), ?_⟩
        intro data same
        left
        apply FifoCache.get_some
        rw [looked]
        exact same
      | none =>
        have mapping : ({ store with mmapCache := cache } : ChunkStore).getMmap p hash = store.getMmap p hash := rfl
        simp only [mapping]
        cases mapped : store.getMmap p hash with
        | none => exact ⟨cache, rfl, fun entry member => .inl (FifoCache.mem_of_get looked member), by simp⟩
        | some data =>
          refine ⟨cache.put hash data, rfl, ?_, ?_⟩
          · intro entry member
            obtain old | rfl := FifoCache.mem_put member
            · exact .inl (FifoCache.mem_of_get looked old)
            · exact .inr ⟨data, rfl, named, rfl⟩
          · intro other same
            exact .inr same

end ChunkStore

end Soshal.Media
