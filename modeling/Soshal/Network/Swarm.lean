import Mathlib.Data.List.Perm.Subperm
import Soshal.Media.ChunkStore

/-! Parallel swarm downloads into a mapped file.

Workers take chunk indices from a shared counter, ask a peer for the chunk, check
length and hash, and copy it to its declared offset. Every shared access is a step
of its own, so a run is any interleaving of the workers with a cancellation. Peers
answer whatever they like; the file keeps what it held before the download.
-/

set_option autoImplicit false

namespace Soshal.Network.Swarm

open Library
open Library.Text (byteLen toAsciiLowercase isAsciiHexdigit)
open Media

def maxBlobFetchBytes : Nat := 512 * 1024 * 1024

def maxFrameBytes : Nat := 16 * 1024 * 1024

structure LanChunkRequest where
  hash : String
  offset : Nat
  length : Nat
  wantManifest : Bool

/-- What an exchange with a peer comes to: a response frame, or an error before there is one. -/
inductive Reply where
  | frame (kind : UInt8) (data : Bytes)
  | failed (reason : String)

def readFrame : Reply → Except String (UInt8 × Bytes)
  | .failed reason => .error reason
  | .frame kind data => if data.length > maxFrameBytes then .error "oversized response" else .ok (kind, data)

def decodeKind (accepted : Bool) : UInt8 × Bytes → Except String Bytes
  | (0, data) => if accepted then .ok data else .error "short chunk response"
  | (1, _) => .error "chunk not found on peer"
  | (2, _) => .error "peer seeding denied (power state)"
  | _ => .error "bad response kind"

def badRequest (req : LanChunkRequest) : Bool :=
  byteLen req.hash != 64 || req.length == 0 || decide (req.length > maxFrameBytes)

def fetchChunkRange (req : LanChunkRequest) (reply : Reply) : Except String Bytes :=
  if req.wantManifest then .error "use fetch_manifest for manifest requests"
  else if badRequest req then .error "bad chunk request"
  else do
    let (kind, data) ← readFrame reply
    decodeKind (data.length == req.length) (kind, data)

def exchangeChunk (req : LanChunkRequest) (reply : Reply) : Except String Bytes := do
  let (kind, data) ← readFrame reply
  decodeKind (req.wantManifest || data.length == req.length) (kind, data)

def fetchQuicChunk (req : LanChunkRequest) (reply : Reply) : Except String Bytes :=
  if badRequest req then .error "bad chunk request" else exchangeChunk req reply

structure SwarmConfig where
  manifest : ChunkManifest
  peers : List String
  quicPorts : List (Option UInt16)
  maxParallel : Nat

/-- QUIC where the peer advertises a port, through the pool if there is one, and TCP otherwise. -/
def fetch (cfg : SwarmConfig) (pooled : Bool) (peerIdx : Nat) (req : LanChunkRequest) (reply : Reply) :
    Except String Bytes :=
  match cfg.quicPorts[peerIdx]?.join with
  -- The pool skips the check of the request that the other two make.
  | some _ => if pooled then exchangeChunk req reply else fetchQuicChunk req reply
  | none => fetchChunkRange req reply

/-- A hash from its hexadecimal spelling, in the spelling that hashing itself gives. -/
def fromHex (text : String) : Option String :=
  if byteLen text = 64 ∧ text.toList.all isAsciiHexdigit then some (toAsciiLowercase text) else none

inductive Worker where
  | checking
  | claiming
  | trying (idx attempt : Nat)
  | awaiting (idx attempt : Nat)
  | holding (idx : Nat) (data : Bytes)
  | written (idx : Nat)
  | stopped
  deriving DecidableEq

structure SwarmReport where
  verifiedChunks : Nat
  bytesDownloaded : Nat
  failures : Nat
  failedHashes : List String
  cancelled : Bool
  deriving DecidableEq

/-- The target file, the state the workers share, and the report once the download has returned. -/
structure Download where
  file : Option Bytes
  next : Nat
  done : List Nat
  abort : Bool
  workers : List Worker
  report : Option SwarmReport

def failed (chunks : List ChunkRef) : SwarmReport where
  verifiedChunks := 0
  bytesDownloaded := 0
  failures := chunks.length
  failedHashes := chunks.map ChunkRef.blake3
  cancelled := false

def setLen (bytes : Bytes) (len : Nat) : Bytes := bytes.take len ++ List.replicate (len - bytes.length) 0

/-- How the filesystem setup ends: with a mapping, or with an error that leaves some file behind. -/
inductive Preparation where
  | mapped
  | refused (left : Option Bytes)

def workerCount (cfg : SwarmConfig) : Nat := max 1 (min cfg.maxParallel (cfg.peers.length * 2))

def start (cfg : SwarmConfig) (existing : Option Bytes) (preparation : Preparation) : Download :=
  let stays : Option Bytes → Download := fun file => ⟨file, 0, [], false, [], some (failed cfg.manifest.chunks)⟩
  -- The manifest is taken as it came: whether its chunks tile the blob is not asked.
  if cfg.manifest.totalSize.toNat > maxBlobFetchBytes then stays existing
  else if cfg.manifest.chunks.isEmpty || cfg.peers.isEmpty then stays existing
  else
    match preparation with
    | .refused left => stays left
    | .mapped =>
      { file := some (setLen (existing.getD []) cfg.manifest.totalSize.toNat)
        next := 0
        done := []
        abort := false
        workers := List.replicate (workerCount cfg) .checking
        report := none }

def copyInto (bytes : Bytes) (offset : Nat) (data : Bytes) : Bytes :=
  bytes.take offset ++ data ++ bytes.drop (offset + data.length)

def Download.become (s : Download) (w : Nat) (worker : Worker) : Download :=
  { s with workers := s.workers.set w worker }

section Steps

variable (blake3 : Bytes → String) (cfg : SwarmConfig) (pooled : Bool)

def verifies (c : ChunkRef) (data : Bytes) : Bool := fromHex c.blake3 == some (blake3 data)

/-- The copy of a fetched chunk; a range outside the blob or the mapping is skipped. -/
def writeChunk (s : Download) (w idx : Nat) (data : Bytes) : Download :=
  match cfg.manifest.chunks[idx]?, s.file with
  | some c, some bytes =>
    match checkedAdd c.start data.length with
    | none => s.become w .checking
    | some stop =>
      if stop > cfg.manifest.totalSize.toNat ∨ stop > bytes.length then s.become w .checking
      else { s.become w (.written idx) with file := some (copyInto bytes c.start data) }
  | _, _ => s.become w .checking

def workerStep (s : Download) (w : Nat) (reply : Reply) : Worker → Download
  | .checking => s.become w (if s.abort then .stopped else .claiming)
  | .claiming =>
    { s.become w (if s.next ≥ cfg.manifest.chunks.length then .stopped else .trying s.next 0) with
      next := s.next + 1 }
  -- Two attempts at most; an abort between them ends the chunk.
  | .trying idx attempt => s.become w (if attempt ≥ 2 ∨ s.abort then .checking else .awaiting idx attempt)
  | .awaiting idx attempt =>
    match cfg.manifest.chunks[idx]? with
    | none => s.become w .checking
    | some c =>
      -- Another attempt asks another peer, where there is one.
      match fetch cfg pooled ((w + idx + attempt) % cfg.peers.length) ⟨c.blake3, c.start, c.size, false⟩ reply with
      | .ok data => s.become w (if verifies blake3 c data then .holding idx data else .trying idx (attempt + 1))
      | .error _ => s.become w (.trying idx (attempt + 1))
  | .holding idx data => writeChunk cfg s w idx data
  | .written idx => { s.become w .checking with done := if idx ∈ s.done then s.done else idx :: s.done }
  | .stopped => s

def reportOf (s : Download) : SwarmReport where
  verifiedChunks := s.done.length
  bytesDownloaded := (s.done.map fun idx => ((cfg.manifest.chunks[idx]?).map ChunkRef.size).getD 0).sum
  failures := cfg.manifest.chunks.length - s.done.length
  failedHashes := (cfg.manifest.chunks.zipIdx.filter fun entry => decide (entry.2 ∉ s.done)).map (·.1.blake3)
  cancelled := s.abort

/-- The end of the download, once every worker has been joined. -/
def finish (s : Download) : Download :=
  let report := reportOf cfg s
  { s with
    report := some report
    -- The chunks were checked one by one; the assembled file is not hashed again.
    file := if report.failures > 0 ∨ report.cancelled then none else s.file }

inductive Event where
  | cancel
  | work (w : Nat) (reply : Reply)
  | finish

def step (s : Download) : Event → Download
  | .cancel => { s with abort := true }
  | .work w reply =>
    match s.report, s.workers[w]? with
    | none, some worker => workerStep blake3 cfg pooled s w reply worker
    | _, _ => s
  | .finish => if s.report.isNone ∧ ∀ worker ∈ s.workers, worker = .stopped then finish cfg s else s

end Steps

/-- The bytes have the length and the hash that the manifest gives the chunk. -/
structure Named (blake3 : Bytes → String) (c : ChunkRef) (data : Bytes) : Prop where
  length : data.length = c.size
  hash : fromHex c.blake3 = some (blake3 data)

theorem decodeKind_ok {accepted : Bool} {kind : UInt8} {sent data : Bytes}
    (fetched : decodeKind accepted (kind, sent) = .ok data) : accepted = true ∧ data = sent := by
  unfold decodeKind at fetched
  split at fetched
  · rename_i body same
    cases same
    cases accepted with
    | true => exact ⟨rfl, by simpa using fetched.symm⟩
    | false => simp at fetched
  all_goals simp at fetched

theorem exchangeChunk_length {req : LanChunkRequest} {reply : Reply} {data : Bytes} (chunk : req.wantManifest = false)
    (fetched : exchangeChunk req reply = .ok data) : data.length = req.length := by
  unfold exchangeChunk at fetched
  cases read : readFrame reply with
  | error reason => simp [read, bind, Except.bind] at fetched
  | ok frame =>
    rw [read] at fetched
    obtain ⟨accepted, rfl⟩ := decodeKind_ok fetched
    simpa [chunk] using accepted

theorem fetchChunkRange_length {req : LanChunkRequest} {reply : Reply} {data : Bytes}
    (fetched : fetchChunkRange req reply = .ok data) : data.length = req.length := by
  unfold fetchChunkRange at fetched
  split at fetched
  · simp at fetched
  · split at fetched
    · simp at fetched
    · cases read : readFrame reply with
      | error reason => simp [read, bind, Except.bind] at fetched
      | ok frame =>
        rw [read] at fetched
        obtain ⟨accepted, rfl⟩ := decodeKind_ok fetched
        simpa using accepted

theorem fetch_length {cfg : SwarmConfig} {pooled : Bool} {peerIdx : Nat} {req : LanChunkRequest} {reply : Reply}
    {data : Bytes} (chunk : req.wantManifest = false) (fetched : fetch cfg pooled peerIdx req reply = .ok data) :
    data.length = req.length := by
  unfold fetch at fetched
  split at fetched
  · split at fetched
    · exact exchangeChunk_length chunk fetched
    · unfold fetchQuicChunk at fetched
      split at fetched
      · simp at fetched
      · exact exchangeChunk_length chunk fetched
  · exact fetchChunkRange_length fetched

/-- The bytes of the file where the manifest places the chunk. -/
def segment (bytes : Bytes) (c : ChunkRef) : Bytes := (bytes.drop c.start).take c.size

theorem length_setLen (bytes : Bytes) (len : Nat) : (setLen bytes len).length = len := by
  simp only [setLen, List.length_append, List.length_take, List.length_replicate]
  omega

theorem length_copyInto {bytes data : Bytes} {offset : Nat} (inside : offset + data.length ≤ bytes.length) :
    (copyInto bytes offset data).length = bytes.length := by
  simp only [copyInto, List.length_append, List.length_take, List.length_drop]
  omega

theorem segment_copyInto_self {bytes data : Bytes} {c : ChunkRef} (inside : c.start + data.length ≤ bytes.length)
    (size : data.length = c.size) : segment (copyInto bytes c.start data) c = data := by
  have head : (bytes.take c.start).length = c.start := by
    rw [List.length_take]
    omega
  rw [segment, copyInto, List.append_assoc, List.drop_left' head, List.take_left' size]

theorem segment_copyInto_of_disjoint {bytes data : Bytes} {offset : Nat} {c : ChunkRef}
    (inside : offset + data.length ≤ bytes.length)
    (disjoint : c.start + c.size ≤ offset ∨ offset + data.length ≤ c.start) :
    segment (copyInto bytes offset data) c = segment bytes c := by
  apply List.ext_getElem?
  intro i
  simp only [segment, List.getElem?_take, List.getElem?_drop]
  by_cases within : i < c.size
  · rw [if_pos within, if_pos within, copyInto]
    obtain before | after := disjoint
    · rw [List.append_assoc, List.getElem?_append_left (by simp only [List.length_take]; omega),
        List.getElem?_take_of_lt (by omega)]
    · rw [List.getElem?_append_right (by simp only [List.length_append, List.length_take]; omega), List.getElem?_drop]
      congr 1
      simp only [List.length_append, List.length_take]
      omega
  · rw [if_neg within, if_neg within]

theorem validFrom_ends {total next : Nat} {c : ChunkRef} {rest : List ChunkRef} (small : total < maxU64)
    (valid : validFrom total next (c :: rest) = true) :
    c.start = next ∧ next + c.size ≤ total ∧ validFrom total (next + c.size) rest = true := by
  obtain ⟨starts, -, ends, tail⟩ := validFrom_cons valid
  have exact_sum : next + c.size ≤ maxU64 := by
    unfold saturatingAdd at ends
    omega
  have same : saturatingAdd next c.size = next + c.size := Nat.min_eq_left exact_sum
  rw [same] at ends tail
  exact ⟨starts, ends, tail⟩

theorem disjoint_of_validFrom {total next : Nat} {chunks : List ChunkRef} (small : total < maxU64)
    (valid : validFrom total next chunks = true) :
    chunks.Pairwise fun before after => before.start + before.size ≤ after.start := by
  induction chunks generalizing next with
  | nil => exact .nil
  | cons c rest ih =>
    obtain ⟨rfl, ends, tail⟩ := validFrom_ends small valid
    refine .cons ?_ (ih tail)
    intro later member
    exact validFrom_start_le (by omega) tail later member

theorem flatten_segments {total next : Nat} {chunks : List ChunkRef} {bytes : Bytes} (small : total < maxU64)
    (valid : validFrom total next chunks = true) (length : bytes.length = total) :
    (chunks.map (segment bytes)).flatten = bytes.drop next := by
  induction chunks generalizing next with
  | nil =>
    have done : next = total := by simpa [validFrom] using valid
    rw [List.drop_of_length_le (by omega)]
    rfl
  | cons c rest ih =>
    obtain ⟨rfl, ends, tail⟩ := validFrom_ends small valid
    rw [List.map_cons, List.flatten_cons, ih tail, segment, ← List.drop_drop]
    exact List.take_append_drop _ _

theorem report_workerStep {blake3 : Bytes → String} {cfg : SwarmConfig} {pooled : Bool} {s : Download} {w : Nat}
    {reply : Reply} {worker : Worker} : (workerStep blake3 cfg pooled s w reply worker).report = s.report := by
  cases worker with
  | awaiting idx attempt =>
    simp only [workerStep]
    split
    · rfl
    · split <;> rfl
  | holding idx data =>
    simp only [workerStep, writeChunk]
    split
    · split
      · rfl
      · split <;> rfl
    · rfl
  | _ => rfl

section Runs

variable {blake3 : Bytes → String} {cfg : SwarmConfig} {pooled : Bool}

/-- The chunk at an index of the manifest is in the file, as the manifest names it. -/
def Landed (blake3 : Bytes → String) (cfg : SwarmConfig) (bytes : Bytes) (idx : Nat) : Prop :=
  ∃ c, cfg.manifest.chunks[idx]? = some c ∧ Named blake3 c (segment bytes c)

/-- What holds while the workers run: chunks that were written stay in place, and chunks about to be written
are the right ones. -/
structure Running (blake3 : Bytes → String) (cfg : SwarmConfig) (s : Download) (bytes : Bytes) : Prop where
  capped : cfg.manifest.totalSize.toNat ≤ maxBlobFetchBytes
  file : s.file = some bytes
  length : bytes.length = cfg.manifest.totalSize.toNat
  recorded : ∀ idx ∈ s.done, Landed blake3 cfg bytes idx
  nodup : s.done.Nodup
  written : ∀ idx, .written idx ∈ s.workers → Landed blake3 cfg bytes idx
  held : ∀ idx data, .holding idx data ∈ s.workers → ∃ c, cfg.manifest.chunks[idx]? = some c ∧ Named blake3 c data

theorem Running.small {s : Download} {bytes : Bytes} (running : Running blake3 cfg s bytes) :
    cfg.manifest.totalSize.toNat < maxU64 :=
  Nat.lt_of_le_of_lt running.capped (by decide)

theorem Running.become {s : Download} {bytes : Bytes} (running : Running blake3 cfg s bytes) (w : Nat) {worker : Worker}
    (unwritten : ∀ idx, worker ≠ .written idx)
    (held : ∀ idx data, worker = .holding idx data → ∃ c, cfg.manifest.chunks[idx]? = some c ∧ Named blake3 c data) :
    Running blake3 cfg (s.become w worker) bytes where
  capped := running.capped
  file := running.file
  length := running.length
  recorded := running.recorded
  nodup := running.nodup
  written idx member := by
    obtain old | rfl := List.mem_or_eq_of_mem_set member
    · exact running.written idx old
    · exact absurd rfl (unwritten idx)
  held idx data member := by
    obtain old | same := List.mem_or_eq_of_mem_set member
    · exact running.held idx data old
    · exact held idx data same.symm

/-- The worker has no chunk of its own in hand or in the file. -/
def Worker.emptyHanded : Worker → Bool
  | .holding _ _ | .written _ => false
  | _ => true

theorem Running.move {s : Download} {bytes : Bytes} (running : Running blake3 cfg s bytes) (w : Nat) (worker : Worker)
    (empty : worker.emptyHanded = true) : Running blake3 cfg (s.become w worker) bytes := by
  apply running.become w
  · rintro idx rfl
    cases empty
  · rintro idx data rfl
    cases empty

theorem Landed.copyInto {bytes data : Bytes} {idx other : Nat} {c : ChunkRef}
    (small : cfg.manifest.totalSize.toNat < maxU64)
    (valid : cfg.manifest.isValid = true) (at_idx : cfg.manifest.chunks[idx]? = some c) (named : Named blake3 c data)
    (inside : c.start + data.length ≤ bytes.length) (landed : Landed blake3 cfg bytes other) :
    Landed blake3 cfg (copyInto bytes c.start data) other := by
  obtain ⟨c', at_other, named'⟩ := landed
  refine ⟨c', at_other, ?_⟩
  by_cases same : idx = other
  · subst same
    cases at_idx.symm.trans at_other
    rwa [segment_copyInto_self inside named.length]
  · have apart := disjoint_of_validFrom small (ChunkManifest.validFrom_zero valid)
    rw [segment_copyInto_of_disjoint inside]
    · exact named'
    · rw [List.pairwise_iff_getElem] at apart
      obtain ⟨idx_lt, rfl⟩ := List.getElem?_eq_some_iff.mp at_idx
      obtain ⟨other_lt, rfl⟩ := List.getElem?_eq_some_iff.mp at_other
      rw [named.length]
      obtain before | after := Nat.lt_or_gt_of_ne same
      · exact .inr (apart idx other idx_lt other_lt before)
      · exact .inl (apart other idx other_lt idx_lt after)

theorem Running.writeChunk {s : Download} {bytes data : Bytes} {w idx : Nat} (valid : cfg.manifest.isValid = true)
    (running : Running blake3 cfg s bytes) (held : .holding idx data ∈ s.workers) :
    ∃ after, Running blake3 cfg (writeChunk cfg s w idx data) after := by
  have idle := running.move w .checking rfl
  obtain ⟨c, at_idx, named⟩ := running.held idx data held
  unfold Swarm.writeChunk
  rw [at_idx, running.file]
  simp only
  cases added : checkedAdd c.start data.length with
  | none => exact ⟨bytes, idle⟩
  | some stop =>
    simp only
    split
    · exact ⟨bytes, idle⟩
    · rename_i fits
      have sum : stop = c.start + data.length := by
        unfold checkedAdd at added
        split at added
        · exact (Option.some.inj added).symm
        · simp at added
      have inside : c.start + data.length ≤ bytes.length := by omega
      refine ⟨copyInto bytes c.start data, running.capped, rfl, (length_copyInto inside).trans running.length,
        ?_, running.nodup, ?_, ?_⟩
      · intro other recorded
        exact (running.recorded other recorded).copyInto running.small valid at_idx named inside
      · intro other member
        obtain old | same := List.mem_or_eq_of_mem_set member
        · exact (running.written other old).copyInto running.small valid at_idx named inside
        · cases same
          exact ⟨c, at_idx, by rwa [segment_copyInto_self inside named.length]⟩
      · intro other kept member
        obtain old | same := List.mem_or_eq_of_mem_set member
        · exact running.held other kept old
        · cases same

theorem Running.workerStep {s : Download} {bytes : Bytes} {w : Nat} {reply : Reply} {worker : Worker}
    (valid : cfg.manifest.isValid = true) (running : Running blake3 cfg s bytes) (member : worker ∈ s.workers) :
    ∃ after, Running blake3 cfg (workerStep blake3 cfg pooled s w reply worker) after := by
  cases worker with
  | checking => exact ⟨bytes, running.move w _ (by split <;> rfl)⟩
  | claiming =>
    have moved := running.move w
      (if s.next ≥ cfg.manifest.chunks.length then .stopped else .trying s.next 0) (by split <;> rfl)
    exact ⟨bytes, { moved with }⟩
  | trying idx attempt => exact ⟨bytes, running.move w _ (by split <;> rfl)⟩
  | awaiting idx attempt =>
    unfold Swarm.workerStep
    simp only
    split
    · exact ⟨bytes, running.move w _ rfl⟩
    · rename_i c at_idx
      split
      · rename_i data fetched
        have length := fetch_length rfl fetched
        refine ⟨bytes, running.become w (by intros; split <;> simp) ?_⟩
        intro other kept same
        split at same
        · rename_i verified
          cases same
          exact ⟨c, at_idx, length, by simpa [verifies] using verified⟩
        · cases same
      · exact ⟨bytes, running.move w _ rfl⟩
  | holding idx data => exact running.writeChunk valid member
  | written idx =>
    have landed := running.written idx member
    have moved := running.move w .checking rfl
    simp only [Swarm.workerStep]
    refine ⟨bytes, { moved with recorded := ?_, nodup := ?_ }⟩
    · intro other recorded
      split at recorded
      · exact running.recorded other recorded
      · obtain rfl | old := List.mem_cons.mp recorded
        · exact landed
        · exact running.recorded other old
    · split
      · exact running.nodup
      · rename_i fresh
        exact List.nodup_cons.mpr ⟨fresh, running.nodup⟩
  | stopped => exact ⟨bytes, running⟩

def Assembled (blake3 : Bytes → String) (cfg : SwarmConfig) (file : Option Bytes) : Prop :=
  ∃ bytes bodies, file = some bytes ∧ bytes.length = cfg.manifest.totalSize.toNat ∧
    List.Forall₂ (Named blake3) cfg.manifest.chunks bodies ∧ bytes = bodies.flatten

theorem landed_of_full {s : Download} {bytes : Bytes} (running : Running blake3 cfg s bytes)
    (full : cfg.manifest.chunks.length ≤ s.done.length) :
    ∀ idx < cfg.manifest.chunks.length, Landed blake3 cfg bytes idx := by
  have within : s.done ⊆ List.range cfg.manifest.chunks.length := by
    intro idx recorded
    obtain ⟨c, at_idx, -⟩ := running.recorded idx recorded
    exact List.mem_range.mpr (List.getElem?_eq_some_iff.mp at_idx).1
  have all := (running.nodup.subperm within).perm_of_length_le (by simpa using full)
  intro idx inside
  exact running.recorded idx (all.mem_iff.mpr (List.mem_range.mpr inside))

theorem assembled_of_landed {bytes : Bytes} (small : cfg.manifest.totalSize.toNat < maxU64)
    (valid : cfg.manifest.isValid = true) (length : bytes.length = cfg.manifest.totalSize.toNat)
    (landed : ∀ idx < cfg.manifest.chunks.length, Landed blake3 cfg bytes idx) :
    Assembled blake3 cfg (some bytes) := by
  refine ⟨bytes, cfg.manifest.chunks.map (segment bytes), rfl, length, ?_, ?_⟩
  · rw [List.forall₂_map_right_iff, List.forall₂_same]
    intro c member
    obtain ⟨idx, inside, rfl⟩ := List.getElem_of_mem member
    obtain ⟨c, at_idx, named⟩ := landed idx inside
    rw [List.getElem?_eq_getElem inside] at at_idx
    cases at_idx
    exact named
  · rw [flatten_segments small (ChunkManifest.validFrom_zero valid) length, List.drop_zero]

/-- A report without failures is given only when the whole file is in place. -/
def Sound (blake3 : Bytes → String) (cfg : SwarmConfig) (s : Download) : Prop :=
  match s.report with
  | none => ∃ bytes, Running blake3 cfg s bytes
  | some report => report.failures = 0 → report.cancelled = false → Assembled blake3 cfg s.file

theorem sound_step {s : Download} (valid : cfg.manifest.isValid = true) (sound : Sound blake3 cfg s)
    (event : Event) : Sound blake3 cfg (step blake3 cfg pooled s event) := by
  cases event with
  | cancel =>
    unfold Sound at *
    simp only [step]
    cases returned : s.report with
    | none =>
      rw [returned] at sound
      obtain ⟨bytes, running⟩ := sound
      exact ⟨bytes, { running with }⟩
    | some report => rwa [returned] at sound
  | work w reply =>
    unfold step
    simp only
    split
    · rename_i returned at_w
      simp only [Sound, returned] at sound
      obtain ⟨bytes, running⟩ := sound
      have kept : (workerStep blake3 cfg pooled s w reply ‹Worker›).report = none := by
        rw [report_workerStep, returned]
      simp only [Sound, kept]
      exact running.workerStep valid (List.mem_of_getElem? at_w)
    · exact sound
  | finish =>
    unfold step
    simp only
    split
    · rename_i joined
      have returned : s.report = none := by simpa using joined.1
      simp only [Sound, returned] at sound
      obtain ⟨bytes, running⟩ := sound
      intro complete uncancelled
      have kept : (finish cfg s).file = some bytes := by
        simp only [finish] at complete uncancelled ⊢
        rw [if_neg (by simp [complete, uncancelled]), running.file]
      rw [kept]
      apply assembled_of_landed running.small valid running.length
      apply landed_of_full running
      simp only [reportOf] at complete
      omega
    · exact sound

theorem sound_start (existing : Option Bytes) (preparation : Preparation) (nonempty : cfg.manifest.chunks ≠ []) :
    Sound blake3 cfg (start cfg existing preparation) := by
  have refused : ∀ file, Sound blake3 cfg ⟨file, 0, [], false, [], some (failed cfg.manifest.chunks)⟩ := by
    intro file none_failed
    exact absurd (List.eq_nil_of_length_eq_zero none_failed) nonempty
  unfold start
  simp only
  split
  · exact refused existing
  · rename_i capped
    split
    · exact refused existing
    · cases preparation with
      | refused left => exact refused left
      | mapped =>
        refine ⟨_, Nat.le_of_not_lt capped, rfl, length_setLen .., by simp, List.nodup_nil, ?_, ?_⟩
        · intro idx member
          cases List.eq_of_mem_replicate member
        · intro idx data member
          cases List.eq_of_mem_replicate member

/-- The manifest's own hash is that of the bytes its chunks name. -/
def Describes (blake3 : Bytes → String) (m : ChunkManifest) : Prop :=
  ∀ bodies, List.Forall₂ (Named blake3) m.chunks bodies → fromHex m.blobHash = some (blake3 bodies.flatten)

/-- However the workers interleave and whatever the peers answer, a download that reports neither a failure nor
a cancellation leaves the manifest's chunks in order, and so the blob the manifest describes. -/
theorem download_assembles (valid : cfg.manifest.isValid = true) (nonempty : cfg.manifest.chunks ≠ [])
    (existing : Option Bytes) (preparation : Preparation) (events : List Event) (report : SwarmReport)
    (returned : (Runs.run (step blake3 cfg pooled) (start cfg existing preparation) events).report = some report)
    (complete : report.failures = 0) (uncancelled : report.cancelled = false) :
    ∃ bytes bodies, (Runs.run (step blake3 cfg pooled) (start cfg existing preparation) events).file = some bytes ∧
      bytes.length = cfg.manifest.totalSize.toNat ∧ List.Forall₂ (Named blake3) cfg.manifest.chunks bodies ∧
      bytes = bodies.flatten ∧
      (Describes blake3 cfg.manifest → fromHex cfg.manifest.blobHash = some (blake3 bytes)) := by
  have always : Runs.Always (step blake3 cfg pooled) (Sound blake3 cfg) (start cfg existing preparation) events :=
    Runs.always_of_invariant (fun s event sound => sound_step valid sound event)
      (sound_start existing preparation nonempty)
  have sound := always.last
  rw [Sound, returned] at sound
  obtain ⟨bytes, bodies, file, length, named, rfl⟩ := sound complete uncancelled
  exact ⟨_, bodies, file, length, named, rfl, fun describes => describes bodies named⟩

end Runs

/-- The chunk "a" from one peer over TCP, as a blob with the given hash. -/
def singleChunk (blobHash : String) : SwarmConfig where
  manifest := ⟨blobHash, 1, [⟨shortDigest [0x61], 0, 1⟩]⟩
  peers := ["192.168.0.2:7777"]
  quicPorts := [none]
  maxParallel := 1

def fetchOnce : List Event :=
  List.replicate 3 (.work 0 (.failed "")) ++ [.work 0 (.frame 0 [0x61])] ++
    List.replicate 4 (.work 0 (.failed "")) ++ [.finish]

/-- The blob "ab" in two chunks from two peers, with a worker for each. -/
def twoChunks : SwarmConfig where
  manifest := ⟨shortDigest [0x61, 0x62], 2, [⟨shortDigest [0x61], 0, 1⟩, ⟨shortDigest [0x62], 1, 1⟩]⟩
  peers := ["192.168.0.2:7777", "192.168.0.3:7777"]
  quicPorts := [none, some 7778]
  maxParallel := 2

/-- The second chunk comes wrong from the first peer that is asked for it, and is in place before the first chunk. -/
def fetchBoth : List Event :=
  (List.replicate 3 [.work 0 (.failed ""), .work 1 (.failed "")]).flatten ++
    [.work 1 (.frame 0 [0x61]), .work 1 (.failed ""), .work 1 (.frame 0 [0x62]), .work 0 (.frame 0 [0x61])] ++
      (List.replicate 4 [.work 1 (.failed ""), .work 0 (.failed "")]).flatten ++ [.finish]

theorem download_of_two_chunks :
    twoChunks.manifest.isValid = true ∧
      ∃ bytes bodies, (Runs.run (step shortDigest twoChunks false) (start twoChunks none .mapped) fetchBoth).file =
          some bytes ∧
        bytes.length = 2 ∧ List.Forall₂ (Named shortDigest) twoChunks.manifest.chunks bodies ∧
        bytes = bodies.flatten ∧
        (Describes shortDigest twoChunks.manifest → fromHex (shortDigest [0x61, 0x62]) = some (shortDigest bytes)) := by
  refine ⟨by rfl, ?_⟩
  exact download_assembles (by rfl) (by decide) none .mapped fetchBoth ⟨2, 2, 0, [], false⟩ (by decide) rfl rfl

/-- A manifest without chunks is reported as complete although no file is made, and the hash of a blob is never
compared with the file. -/
theorem complete_download_of_another_blob :
    let empty : SwarmConfig := ⟨⟨shortDigest [], 0, []⟩, ["192.168.0.2:7777"], [none], 1⟩
    let misnamed := singleChunk (shortDigest [0x62])
    let ended := Runs.run (step shortDigest misnamed false) (start misnamed none .mapped) fetchOnce
    (empty.manifest.isValid = true ∧ (start empty none .mapped).report = some ⟨0, 0, 0, [], false⟩ ∧
      (start empty none .mapped).file = none) ∧
    misnamed.manifest.isValid = true ∧ ended.report = some ⟨1, 1, 0, [], false⟩ ∧ ended.file = some [0x61] ∧
      fromHex misnamed.manifest.blobHash ≠ some (shortDigest [0x61]) := by
  decide

end Soshal.Network.Swarm
