import Soshal.Media.CompleteBlobs
import Soshal.Network.Swarm

/-! Serving a chunk to a LAN client.

The client names a chunk by its hash and gives the position that the chunk has in
the blob it fetches. The server looks for some blob with that chunk and reads the
position there, so the answer depends on which blob it finds.
-/

set_option autoImplicit false

namespace Soshal.Network.ChunkServing

open Library.Text (byteLen)
open Media
open Media.ChunkStore
open Swarm (LanChunkRequest maxFrameBytes)

inductive ResponseKind where
  | ok
  | notFound
  | denied
  | badRequest
  deriving DecidableEq

/-- What goes over the wire: the kind, the length that the header declares, and the bytes that follow. -/
structure Response where
  kind : ResponseKind
  length : Nat
  body : Bytes
  deriving DecidableEq

def refuse (kind : ResponseKind) : Response := ⟨kind, 0, []⟩

variable (p : Primitives)

/-- The blob of that hash, or else one that contains a chunk of that hash. -/
def resolveManifest (store : ChunkStore) (hash : String) : ChunkStore × Option ChunkManifest :=
  match store.loadManifest hash with
  | (store, some m) => (store, some m)
  | (store, none) => store.findManifestContainingChunk hash

/-- `sendfile` from the file of the chunk that holds the whole range; `none` where the copying path takes over. -/
def serveRangeZeroCopy (linux : Bool) (store : ChunkStore) (m : ChunkManifest) (req : LanChunkRequest) : Option Response :=
  if !linux then none
  else do
    let stop ← checkedAdd req.offset req.length
    let c ← mappedChunk req.offset stop m.chunks
    let _ ← store.getMmap p c.blake3
    let file ← store.chunkFile c.blake3
    some ⟨.ok, req.length, (file.drop (req.offset - c.start)).take req.length⟩

/-- The zero-copy path first, the copying path where that one gives up. -/
def serveRange (linux : Bool) (store : ChunkStore) (m : ChunkManifest) (req : LanChunkRequest) : ChunkStore × Response :=
  match serveRangeZeroCopy p linux store m req with
  | some response => (store, response)
  | none =>
    match store.blobSlice p m req.offset req.length with
    | (store, some bytes) => (store, ⟨.ok, bytes.length, bytes⟩)
    | (store, none) => (store, refuse .notFound)

def serveChunkRequest (linux paused : Bool) (store : ChunkStore) (req : LanChunkRequest) : ChunkStore × Response :=
  if byteLen req.hash ≠ 64 ∨ req.length = 0 ∨ req.length > maxFrameBytes then (store, refuse .badRequest)
  else if paused then (store, refuse .denied)
  else
    match resolveManifest store req.hash with
    | (store, none) => (store, refuse .notFound)
    | (store, some m) => serveRange p linux store m req

/-- What a client asks for when it fetches a chunk of a blob. -/
def requestFor (c : ChunkRef) : LanChunkRequest := ⟨c.blake3, c.start, c.size, false⟩

variable {p} {linux : Bool} {store : ChunkStore} {m : ChunkManifest} {req : LanChunkRequest}

theorem zeroCopy_eq (verified : store.Verified p) (complete : store.CompleteBlob p m) (positive : 0 < req.length)
    {response : Response} (sent : serveRangeZeroCopy p linux store m req = some response) :
    ∃ bytes, response = ⟨.ok, req.length, bytes⟩ ∧
      (store.blobSlice p m req.offset req.length).2 = some bytes := by
  unfold serveRangeZeroCopy at sent
  split at sent
  · cases sent
  · obtain ⟨stop, added, found⟩ := Option.bind_eq_some_iff.mp sent
    obtain ⟨rfl, -⟩ := checkedAdd_some added
    obtain ⟨c, held, found⟩ := Option.bind_eq_some_iff.mp found
    obtain ⟨d, mapped, found⟩ := Option.bind_eq_some_iff.mp found
    obtain ⟨file, opened, found⟩ := Option.bind_eq_some_iff.mp found
    obtain ⟨member, encloses⟩ := encloses_of_mappedChunk held
    have same : file = d := Option.some.inj (opened.symm.trans (chunkFile_of_getMmap mapped))
    subst same
    have long : file.length = c.size := by
      obtain ⟨stored, again, long⟩ := complete.chunks c member
      rw [mapped, Option.some.injEq] at again
      rw [again, long]
    have ends := complete.ends c member
    have low := encloses.low
    have high := encloses.high
    cases found
    refine ⟨_, rfl, (blobSlice_of_encloses complete.valid positive (by omega) member encloses
      (content_of_getMmap verified mapped)).mpr ⟨by omega, ?_⟩⟩
    simp only [SourceWindow.bytes, windowOf]
    rw [List.take_drop, Nat.min_eq_left (by omega)]
    congr 2
    omega

/-- On either path a range of a complete blob is answered with the bytes that the blob has there. -/
theorem serveRange_iff (verified : store.Verified p) (complete : store.CompleteBlob p m) (positive : 0 < req.length)
    {bytes : Bytes} (long : bytes.length = req.length) :
    (serveRange p linux store m req).2 = ⟨.ok, req.length, bytes⟩ ↔ Occupies (store.content p) m req.offset bytes := by
  rw [← complete.slice_iff verified positive long, serveRange]
  cases sent : serveRangeZeroCopy p linux store m req with
  | some response =>
    obtain ⟨served, rfl, slice⟩ := zeroCopy_eq verified complete positive sent
    rw [slice]
    simp
  | none =>
    cases slice : store.blobSlice p m req.offset req.length with
    | mk after result =>
      cases result with
      | none => simp [refuse]
      | some served =>
        simp only [Response.mk.injEq, true_and, Option.some.injEq]
        constructor
        · exact And.right
        · rintro rfl
          exact ⟨long, rfl⟩

theorem finds_resolveManifest (holding : store.Holding p) (hash : String) :
    Finds p store (resolveManifest store hash) := by
  have first := holding.loadManifest hash
  unfold resolveManifest
  split
  · rename_i after m found
    rw [found] at first
    exact first
  · rename_i after found
    rw [found] at first
    exact (first.holding.findManifest hash).after first.files

/-- A chunk of a held blob is served to a client exactly when the blob that the server finds has the same bytes at the
same position. -/
theorem serve_chunk_request_iff (p : Primitives) (linux : Bool) (store : ChunkStore) (holding : store.Holding p)
    (name : String) (file : File ChunkManifest) (held : store.manifests.find? name = some file) (c : ChunkRef)
    (member : c ∈ file.content.chunks) (data : Bytes) (stored : store.getMmap p c.blake3 = some data)
    (sends : Swarm.badRequest (requestFor c) = false) :
    (serveChunkRequest p linux false store (requestFor c)).2 = ⟨.ok, c.size, data⟩ ↔
      ∃ m, (resolveManifest store c.blake3).2 = some m ∧ Occupies (store.content p) m c.start data := by
  have long : data.length = c.size := by
    obtain ⟨d, mapped, long⟩ := (holding.blobs name file held).chunks c member
    rw [stored, Option.some.injEq] at mapped
    rw [mapped, long]
  have accepted : ¬ (byteLen (requestFor c).hash ≠ 64 ∨ (requestFor c).length = 0 ∨
      (requestFor c).length > maxFrameBytes) := by
    simpa [Swarm.badRequest, not_or, and_assoc] using sends
  have positive : 0 < c.size := Nat.pos_of_ne_zero fun zero => accepted (.inr (.inl zero))
  have finds := finds_resolveManifest holding c.blake3
  unfold serveChunkRequest
  rw [if_neg accepted]
  simp only [Bool.false_eq_true, if_false]
  rw [show (requestFor c).hash = c.blake3 from rfl]
  cases found : resolveManifest store c.blake3 with
  | mk after result =>
    rw [found] at finds
    cases result with
    | none => simp [refuse]
    | some m =>
      have complete := finds.files.complete (finds.complete m rfl)
      have same : after.content p = store.content p := funext fun hash => finds.files.content hash
      simp only [Option.some.injEq, exists_eq_left']
      rw [← same]
      exact serveRange_iff (finds.files.verified holding.verified) complete positive long

def lettersOnDisk : Library.Table String (File Bytes) :=
  ⟨[(shortDigest [0x61], ⟨[0x61], 0⟩), (shortDigest [0x62], ⟨[0x62], 0⟩)], by decide⟩

def abManifest : ChunkManifest :=
  ⟨shortDigest [0x61, 0x62], 2, [⟨shortDigest [0x61], 0, 1⟩, ⟨shortDigest [0x62], 1, 1⟩]⟩

def bManifest : ChunkManifest := ⟨shortDigest [0x62], 1, [⟨shortDigest [0x62], 0, 1⟩]⟩

def abStore : ChunkStore :=
  new lettersOnDisk ⟨[(shortDigest [0x61, 0x62], ⟨abManifest, 0⟩)], by decide⟩

def sharingStore : ChunkStore :=
  new lettersOnDisk
    ⟨[(shortDigest [0x61, 0x62], ⟨abManifest, 0⟩), (shortDigest [0x62], ⟨bManifest, 0⟩)], by decide +kernel⟩

theorem letters_verified (manifests : Library.Table String (File ChunkManifest)) :
    (new lettersOnDisk manifests).Verified shortPrimitives := verified_new (by decide +kernel)

theorem letter_a_stored (manifests : Library.Table String (File ChunkManifest)) :
    (new lettersOnDisk manifests).getMmap shortPrimitives (shortDigest [0x61]) = some [0x61] := by
  simp only [getMmap, chunkFile, new]
  decide

theorem letter_b_stored (manifests : Library.Table String (File ChunkManifest)) :
    (new lettersOnDisk manifests).getMmap shortPrimitives (shortDigest [0x62]) = some [0x62] := by
  simp only [getMmap, chunkFile, new]
  decide

theorem letters_complete (manifests : Library.Table String (File ChunkManifest)) (m : ChunkManifest)
    (known : m = abManifest ∨ m = bManifest) : (new lettersOnDisk manifests).CompleteBlob shortPrimitives m := by
  obtain rfl | rfl := known
  · refine ⟨by rfl, ?_, by decide⟩
    intro c member
    obtain rfl | rfl : c = ⟨shortDigest [0x61], 0, 1⟩ ∨ c = ⟨shortDigest [0x62], 1, 1⟩ := by
      simpa [abManifest] using member
    · exact ⟨[0x61], letter_a_stored manifests, rfl⟩
    · exact ⟨[0x62], letter_b_stored manifests, rfl⟩
  · refine ⟨by decide, ?_, by decide⟩
    intro c member
    obtain rfl : c = ⟨shortDigest [0x62], 0, 1⟩ := by simpa [bManifest] using member
    exact ⟨[0x62], letter_b_stored manifests, rfl⟩

theorem letters_holding {manifests : Library.Table String (File ChunkManifest)}
    (known : ∀ row ∈ manifests.rows, row.2.content = abManifest ∨ row.2.content = bManifest) :
    (new lettersOnDisk manifests).Holding shortPrimitives where
  verified := letters_verified manifests
  blobs _ file found := letters_complete manifests file.content (known _ (Library.Table.find?_eq_some.mp found))
  cached _ member := nomatch member

theorem abStore_holding : abStore.Holding shortPrimitives := by
  refine letters_holding fun row member => .inl ?_
  rw [List.mem_singleton.mp member]

theorem ab_chunk_served :
    abStore.Holding shortPrimitives ∧
      (serveChunkRequest shortPrimitives true false abStore (requestFor ⟨shortDigest [0x62], 1, 1⟩)).2 =
        ⟨.ok, 1, [0x62]⟩ := by
  refine ⟨abStore_holding, (serve_chunk_request_iff shortPrimitives true abStore abStore_holding
    (shortDigest [0x61, 0x62]) ⟨abManifest, 0⟩ (Library.Table.find?_eq_some.mpr (List.mem_cons_self ..))
    ⟨shortDigest [0x62], 1, 1⟩ (by decide) [0x62] (letter_b_stored _) (by rfl)).mpr
    ⟨abManifest, by rfl, ?_⟩⟩
  intro i small
  obtain rfl : i = 0 := Nat.lt_one_iff.mp small
  decide

/-- With the blob "b" also stored, the second chunk of "ab" is looked for in "b", which ends before it. -/
theorem shared_chunk_not_found :
    sharingStore.Holding shortPrimitives ∧
      sharingStore.manifests.find? (shortDigest [0x61, 0x62]) = some ⟨abManifest, 0⟩ ∧
      sharingStore.getMmap shortPrimitives (shortDigest [0x62]) = some [0x62] ∧
      (serveChunkRequest shortPrimitives true false sharingStore (requestFor ⟨shortDigest [0x62], 1, 1⟩)).2 ≠
        ⟨.ok, 1, [0x62]⟩ := by
  refine ⟨letters_holding fun row member => ?_, Library.Table.find?_eq_some.mpr (List.mem_cons_self ..),
    letter_b_stored _, by decide +kernel⟩
  obtain rfl | single := List.mem_cons.mp member
  · exact .inl rfl
  · rw [List.mem_singleton.mp single]
    exact .inr rfl

end Soshal.Network.ChunkServing
