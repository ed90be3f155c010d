import Soshal.Network.Swarm

/-! Fetching a blob from one peer: parallel chunk fetches, one in-order consumer.

Workers take chunk indices from a shared cursor and send what they fetched through
a channel with one slot; the consumer reorders, checks and stores the bodies and
writes the file. The scope returns once the consumer has left it and every worker
has stopped. The receiver belongs to the code around the scope, so it is still
alive while the scope waits, and a worker that finds the slot full waits with it.
-/

set_option autoImplicit false

namespace Soshal.Network.BlobFetch

open Library
open Library.Text (byteLen eqIgnoreAsciiCase toAsciiLowercase)
open Media
open Swarm (LanChunkRequest Reply exchangeChunk fetchChunkRange maxBlobFetchBytes)

def quicMaxChunk : Nat := 16 * 1024 * 1024
def concurrentChunks : Nat := 8

section Chunk

variable (blake3 : Bytes → String)

def fetchVerifiedChunk (hash : String) (offset length : Nat) (reply : Reply) : Except String Bytes :=
  if byteLen hash ≠ 64 then .error "invalid chunk hash"
  else
    match fetchChunkRange ⟨hash, offset, length, false⟩ reply with
    | .error e => .error e
    | .ok data =>
      if eqIgnoreAsciiCase (blake3 data) hash then .ok data else .error "chunk hash mismatch after transfer"

def fetchQuic (c : ChunkRef) (reply : Reply) : Except String Bytes :=
  if c.size = 0 ∨ c.size > quicMaxChunk then .error "bad chunk request"
  else
    match exchangeChunk ⟨c.blake3, c.start, c.size, false⟩ reply with
    | .error e => .error e
    -- Over QUIC the spelling of the hash counts, over TCP it does not.
    | .ok data => if blake3 data = c.blake3 then .ok data else .error "chunk hash mismatch after transfer"

/-- QUIC first where the peer advertises it, TCP otherwise or when QUIC failed. -/
def fetchChunkBytes (quicPort : Option UInt16) (c : ChunkRef) (quic tcp : Reply) : Except String Bytes :=
  match quicPort with
  | some _ =>
    match fetchQuic blake3 c quic with
    | .ok data => .ok data
    | .error e =>
      (fetchVerifiedChunk blake3 c.blake3 c.start c.size tcp).mapError fun te => "quic: " ++ e ++ "; tcp: " ++ te
  | none => (fetchVerifiedChunk blake3 c.blake3 c.start c.size tcp).mapError fun te => "tcp: " ++ te

/-- The bytes have the length and the hash that the manifest declares. -/
structure Declared (c : ChunkRef) (data : Bytes) : Prop where
  length : data.length = c.size
  hash : eqIgnoreAsciiCase (blake3 data) c.blake3 = true

variable {blake3}

theorem fetchVerifiedChunk_declared {c : ChunkRef} {reply : Reply} {data : Bytes}
    (fetched : fetchVerifiedChunk blake3 c.blake3 c.start c.size reply = .ok data) : Declared blake3 c data := by
  unfold fetchVerifiedChunk at fetched
  split at fetched
  · cases fetched
  · split at fetched
    · cases fetched
    · rename_i body exchanged
      split at fetched
      · rename_i same
        cases fetched
        exact ⟨Swarm.fetchChunkRange_length exchanged, same⟩
      · cases fetched

theorem fetchChunkBytes_declared {quicPort : Option UInt16} {c : ChunkRef} {quic tcp : Reply} {data : Bytes}
    (fetched : fetchChunkBytes blake3 quicPort c quic tcp = .ok data) : Declared blake3 c data := by
  have overTcp : ∀ rename : String → String,
      (fetchVerifiedChunk blake3 c.blake3 c.start c.size tcp).mapError rename = .ok data → Declared blake3 c data := by
    intro rename mapped
    cases result : fetchVerifiedChunk blake3 c.blake3 c.start c.size tcp with
    | error e => simp [result, Except.mapError] at mapped
    | ok body =>
      simp only [result, Except.mapError, Except.ok.injEq] at mapped
      exact fetchVerifiedChunk_declared (mapped ▸ result)
  unfold fetchChunkBytes at fetched
  split at fetched
  · split at fetched
    · rename_i body quicOk
      cases fetched
      unfold fetchQuic at quicOk
      split at quicOk
      · cases quicOk
      · split at quicOk
        · cases quicOk
        · rename_i exchanged
          split at quicOk
          · rename_i same
            cases quicOk
            refine ⟨Swarm.exchangeChunk_length rfl exchanged, ?_⟩
            simp [eqIgnoreAsciiCase, same]
          · cases quicOk
    · exact overTcp _ fetched
  · exact overTcp _ fetched

end Chunk

structure Io where
  creates : Except String Unit
  stores : Nat → Bool
  writes : Nat → Except String Unit
  renames : Except String Unit
  persists : Except String Unit

/-- Everything a fetch is given: its arguments, what the peer sent, and how the file operations end. -/
structure Job where
  blobHash : String
  outPath : String
  tmpPath : String
  privatePeer : Bool
  pathChecked : Except String Unit
  crawled : Except String Unit
  manifest : ChunkManifest
  results : Nat → Except String Bytes
  io : Io
  now : Nat
  blake3 : Bytes → String

namespace Job

variable (job : Job)

def total : Nat := job.manifest.chunks.length

def admitted : Except String Unit :=
  if byteLen job.blobHash ≠ 64 then .error "invalid blob hash"
  else if !job.privatePeer then .error "refusing non-private LAN peer"
  else do
    job.pathChecked
    job.crawled
    if job.manifest.blobHash ≠ job.blobHash then .error "manifest hash mismatch"
    else if job.manifest.totalSize.toNat > maxBlobFetchBytes then
      .error ("blob too large (" ++ toString job.manifest.totalSize.toNat ++ " bytes)")
    else if !job.manifest.isValid then .error "hostile manifest structure"
    else job.io.creates.mapError fun e => "write " ++ job.tmpPath ++ ": " ++ e

/-- The store, the chunks this fetch put there, and what it has written to the temporary file. -/
structure Assembly where
  store : ChunkStore
  newlyAbsorbed : List String
  file : Bytes

/-- Storing the body of chunk `bi`, and whether this fetch is the one that wrote it. -/
def put (bi : Nat) (c : ChunkRef) (bytes : Bytes) (store : ChunkStore) : ChunkStore × Bool :=
  if job.io.stores bi then store.putTrusted job.now c.blake3 bytes else (store, false)

/-- What the consumer does with the body of chunk `bi`. -/
def absorb (bi : Nat) (c : ChunkRef) (result : Except String Bytes) (assembly : Assembly) :
    Assembly × Except String Unit :=
  match result with
  | .error e => (assembly, .error e)
  | .ok bytes =>
    if bytes.length ≠ c.size then
      (assembly, .error ("chunk " ++ c.blake3 ++ " short (" ++ toString bytes.length ++ " != " ++
        toString c.size ++ ")"))
    else
      let (store, stored) := job.put bi c bytes assembly.store
      let assembly := { assembly with
        store := store
        newlyAbsorbed := if stored then assembly.newlyAbsorbed ++ [c.blake3] else assembly.newlyAbsorbed }
      if !stored && !store.contains c.blake3 then
        (assembly, .error ("chunk " ++ c.blake3 ++ " store failed"))
      else
        match job.io.writes bi with
        | .error e => (assembly, .error ("write " ++ job.tmpPath ++ ": " ++ e))
        | .ok () => ({ assembly with file := assembly.file ++ bytes }, .ok ())

def cleanUp (assembly : Assembly) : ChunkStore :=
  assembly.newlyAbsorbed.foldl
    (fun store hash => { store with chunks := store.chunks.delete fun name _ => name = toAsciiLowercase hash })
    assembly.store

/-- What the fetch leaves: the file under the target path, the store, and what it returns. -/
structure Outcome where
  out : Option Bytes
  store : ChunkStore
  result : Except String Nat

def conclude (out : Option Bytes) (assembly : Assembly) (scope : Except String Unit) : Outcome :=
  let failed (out : Option Bytes) (e : String) : Outcome := ⟨out, cleanUp assembly, .error e⟩
  match scope with
  | .error e => failed out e
  | .ok () =>
    if job.blake3 assembly.file ≠ job.blobHash then failed out "blob hash mismatch after transfer"
    else
      match job.io.renames with
      | .error e => failed out ("atomic rename " ++ job.tmpPath ++ " -> " ++ job.outPath ++ ": " ++ e)
      | .ok () =>
        -- From here on the target exists, also when the manifest cannot be saved.
        match job.io.persists, assembly.store.saveManifest job.now job.manifest with
        | .ok (), .ok store => ⟨some assembly.file, store, .ok assembly.file.length⟩
        | .error e, _ => failed (some assembly.file) ("manifest persist: " ++ e)
        | .ok (), .error e => failed (some assembly.file) ("manifest persist: " ++ e)

end Job

inductive Worker where
  | claiming
  | fetching (idx : Nat)
  | sending (idx : Nat) (result : Except String Bytes)
  | stopped

inductive Consumer where
  | taking (next : Nat)
  | left (scope : Except String Unit)
  | returned (outcome : Job.Outcome)

/-- The shared state of the scope, and the indices for which a chunk was asked. -/
structure Fetch where
  cursor : Nat
  workers : List Worker
  slot : Option (Nat × Except String Bytes)
  pending : Table Nat (Except String Bytes)
  consumer : Consumer
  assembly : Job.Assembly
  requested : List Nat

/-- A worker takes an index, finishes a fetch or sends; the consumer takes a buffered body, receives, finds every
sender gone, or is through; the scope joins. -/
inductive Move where
  | claim (w : Nat)
  | fetched (w : Nat)
  | send (w : Nat)
  | take
  | receive
  | disconnect
  | finish
  | join
  deriving DecidableEq

namespace Fetch

def become (s : Fetch) (w : Nat) (worker : Worker) : Fetch := { s with workers := s.workers.set w worker }

variable (job : Job) (out : Option Bytes)

def absorbed (s : Fetch) (next : Nat) (result : Except String Bytes) : Fetch :=
  match job.manifest.chunks[next]? with
  | none => s
  | some c =>
    match job.absorb next c result s.assembly with
    | (assembly, .ok ()) => { s with assembly := assembly, consumer := .taking (next + 1) }
    | (assembly, .error e) => { s with assembly := assembly, consumer := .left (.error e) }

def allStopped (s : Fetch) : Bool := s.workers.all fun worker => match worker with | .stopped => true | _ => false

def step (s : Fetch) : Move → Option Fetch
  | .claim w =>
    match s.workers[w]? with
    | some .claiming =>
      if s.cursor ≥ job.total then some { s.become w .stopped with cursor := s.cursor + 1 }
      else some { s.become w (.fetching s.cursor) with
        cursor := s.cursor + 1
        requested := s.requested ++ [s.cursor] }
    | _ => none
  | .fetched w =>
    match s.workers[w]? with
    | some (.fetching idx) => some (s.become w (.sending idx (job.results idx)))
    | _ => none
  | .send w =>
    -- The receiver lives until the scope has returned: a send waits for the slot, it does not fail.
    match s.workers[w]?, s.slot with
    | some (.sending idx result), none => some { s.become w .claiming with slot := some (idx, result) }
    | _, _ => none
  | .take =>
    match s.consumer with
    | .taking next =>
      if next ≥ job.total then none
      else
        match s.pending.find? next with
        | some result =>
          some (({ s with pending := s.pending.delete fun idx _ => idx = next } : Fetch).absorbed job next result)
        | none => none
    | _ => none
  | .receive =>
    match s.consumer, s.slot with
    | .taking next, some (idx, result) =>
      if next ≥ job.total ∨ (s.pending.find? next).isSome then none
      else if idx = next then some (({ s with slot := none } : Fetch).absorbed job next result)
      else some { s with slot := none, pending := s.pending.upsert idx result fun _ => result }
    | _, _ => none
  | .disconnect =>
    match s.consumer, s.slot with
    | .taking next, none =>
      if next ≥ job.total ∨ (s.pending.find? next).isSome ∨ !s.allStopped then none
      else some { s with consumer := .left (.error "chunk thread panic") }
    | _, _ => none
  | .finish =>
    match s.consumer with
    | .taking next => if next ≥ job.total then some { s with consumer := .left (.ok ()) } else none
    | _ => none
  | .join =>
    match s.consumer with
    | .left scope =>
      if s.allStopped then some { s with consumer := .returned (job.conclude out s.assembly scope) } else none
    | _ => none

/-- The state when the workers have been started, or the error that comes before. -/
def start (store : ChunkStore) : Fetch :=
  let idle : Fetch := ⟨0, [], none, .empty, .taking 0, ⟨store, [], []⟩, []⟩
  match job.admitted with
  | .ok () => { idle with workers := List.replicate (min concurrentChunks (max job.total 1)) .claiming }
  | .error e => { idle with consumer := .returned ⟨out, store, .error e⟩ }

end Fetch

namespace Fetch

inductive Stepped (job : Job) (out : Option Bytes) (s : Fetch) : Fetch → Prop where
  | stops {w : Nat} : s.workers[w]? = some .claiming → s.cursor ≥ job.total →
      Stepped job out s { s.become w .stopped with cursor := s.cursor + 1 }
  | claims {w : Nat} : s.workers[w]? = some .claiming → ¬ s.cursor ≥ job.total →
      Stepped job out s { s.become w (.fetching s.cursor) with
        cursor := s.cursor + 1
        requested := s.requested ++ [s.cursor] }
  | fetches {w idx : Nat} : s.workers[w]? = some (.fetching idx) →
      Stepped job out s (s.become w (.sending idx (job.results idx)))
  | sends {w idx : Nat} {result : Except String Bytes} : s.workers[w]? = some (.sending idx result) → s.slot = none →
      Stepped job out s { s.become w .claiming with slot := some (idx, result) }
  | takes {next : Nat} {result : Except String Bytes} : s.consumer = .taking next → next < job.total →
      s.pending.find? next = some result →
      Stepped job out s
        (({ s with pending := s.pending.delete fun idx _ => idx = next } : Fetch).absorbed job next result)
  | receives {next : Nat} {result : Except String Bytes} : s.consumer = .taking next → next < job.total →
      s.slot = some (next, result) → Stepped job out s (({ s with slot := none } : Fetch).absorbed job next result)
  | buffers {next idx : Nat} {result : Except String Bytes} : s.consumer = .taking next →
      s.slot = some (idx, result) →
      Stepped job out s { s with slot := none, pending := s.pending.upsert idx result fun _ => result }
  | disconnects {next : Nat} : s.consumer = .taking next → next < job.total → s.slot = none →
      s.pending.find? next = none → s.allStopped = true →
      Stepped job out s { s with consumer := .left (.error "chunk thread panic") }
  | finishes {next : Nat} : s.consumer = .taking next → next ≥ job.total →
      Stepped job out s { s with consumer := .left (.ok ()) }
  | joins {scope : Except String Unit} : s.consumer = .left scope → s.allStopped = true →
      Stepped job out s { s with consumer := .returned (job.conclude out s.assembly scope) }

theorem stepped_of_step {job : Job} {out : Option Bytes} {s s' : Fetch} {move : Move}
    (moved : s.step job out move = some s') : Stepped job out s s' := by
  cases move with
  | claim w =>
    simp only [step] at moved
    split at moved
    · rename_i here
      split at moved
      · rename_i spent
        cases moved
        exact .stops here spent
      · rename_i left
        cases moved
        exact .claims here left
    · cases moved
  | fetched w =>
    simp only [step] at moved
    split at moved
    · rename_i idx here
      cases moved
      exact .fetches here
    · cases moved
  | send w =>
    simp only [step] at moved
    split at moved
    · rename_i idx result here free
      cases moved
      exact .sends here free
    · cases moved
  | take =>
    simp only [step] at moved
    split at moved
    · rename_i next consumer
      split at moved
      · cases moved
      · rename_i left
        split at moved
        · rename_i result found
          cases moved
          exact .takes consumer (Nat.lt_of_not_le left) found
        · cases moved
    · cases moved
  | receive =>
    simp only [step] at moved
    split at moved
    · rename_i next idx result consumer full
      split at moved
      · cases moved
      · rename_i wanted
        rw [not_or] at wanted
        -- A result that is next in order goes in, any other one waits.
        split at moved
        · rename_i same
          subst same
          cases moved
          exact .receives consumer (Nat.lt_of_not_le wanted.1) full
        · cases moved
          exact .buffers consumer full
    · cases moved
  | disconnect =>
    simp only [step] at moved
    split at moved
    · rename_i next consumer free
      split at moved
      · cases moved
      · rename_i gone
        simp only [not_or, Bool.not_eq_true, Option.isSome_eq_false_iff, Option.isNone_iff_eq_none,
          Bool.not_eq_false'] at gone
        cases moved
        exact .disconnects consumer (Nat.lt_of_not_le gone.1) free gone.2.1 gone.2.2
    · cases moved
  | finish =>
    simp only [step] at moved
    split at moved
    · rename_i next consumer
      split at moved
      · rename_i done
        cases moved
        exact .finishes consumer done
      · cases moved
    · cases moved
  | join =>
    simp only [step] at moved
    split at moved
    · rename_i scope consumer
      split at moved
      · rename_i all
        cases moved
        exact .joins consumer all
      · cases moved
    · cases moved

end Fetch

/-- What the consumer makes of the first chunks, taken one after the other up to the first that fails. -/
def Job.absorbUpTo (job : Job) (store : ChunkStore) : Nat → Job.Assembly × Except String Unit
  | 0 => (⟨store, [], []⟩, .ok ())
  | k + 1 =>
    match job.absorbUpTo store k with
    | (assembly, .error e) => (assembly, .error e)
    | (assembly, .ok ()) =>
      match job.manifest.chunks[k]? with
      | none => (assembly, .ok ())
      | some c => job.absorb k c (job.results k) assembly

def Job.expected (job : Job) (out : Option Bytes) (store : ChunkStore) : Job.Outcome :=
  match job.admitted with
  | .error e => ⟨out, store, .error e⟩
  | .ok () => job.conclude out (job.absorbUpTo store job.total).1 (job.absorbUpTo store job.total).2

/-- Taking chunk `j` puts a file under the name of `hash`. -/
def Job.puts (job : Job) (hash : String) (j : Nat) : Bool :=
  match job.manifest.chunks[j]? with
  | none => false
  | some c => job.io.stores j && isValidHash c.blake3 && toAsciiLowercase c.blake3 == toAsciiLowercase hash

/-- The store has a file under the name of `hash` once the first `n` chunks have been taken. -/
def Job.holds (job : Job) (store : ChunkStore) (hash : String) (n : Nat) : Bool :=
  (store.chunkFile hash).isSome || (List.range n).any (job.puts hash)

/-- Why chunk `k` fails, if it does: its fetch, its length, storing it or writing it. -/
def Job.failure (job : Job) (store : ChunkStore) (k : Nat) : Option String :=
  match job.manifest.chunks[k]?, job.results k with
  | none, _ => none
  | some _, .error e => some e
  | some c, .ok bytes =>
    if bytes.length ≠ c.size then
      some ("chunk " ++ c.blake3 ++ " short (" ++ toString bytes.length ++ " != " ++ toString c.size ++ ")")
    else if !(isValidHash c.blake3 && job.holds store c.blake3 (k + 1)) then
      some ("chunk " ++ c.blake3 ++ " store failed")
    else
      match job.io.writes k with
      | .error e => some ("write " ++ job.tmpPath ++ ": " ++ e)
      | .ok () => none

section Order

variable {job : Job} {store : ChunkStore}

theorem absorbUpTo_succ {k : Nat} {assembly : Job.Assembly} {c : ChunkRef}
    (before : job.absorbUpTo store k = (assembly, .ok ())) (chunk : job.manifest.chunks[k]? = some c) :
    job.absorbUpTo store (k + 1) = job.absorb k c (job.results k) assembly := by
  simp only [Job.absorbUpTo, before, chunk]

theorem absorbUpTo_of_error {k : Nat} {assembly : Job.Assembly} {e : String}
    (failed : job.absorbUpTo store k = (assembly, .error e)) {n : Nat} (later : k ≤ n) :
    job.absorbUpTo store n = (assembly, .error e) := by
  induction n, later using Nat.le_induction with
  | base => exact failed
  | succ n _ ih => simp only [Job.absorbUpTo, ih]

theorem chunk_of_lt {k : Nat} (small : k < job.total) : ∃ c, job.manifest.chunks[k]? = some c :=
  ⟨_, List.getElem?_eq_getElem small⟩

theorem chunkFile_putTrusted (current : ChunkStore) (now : Nat) (name hash : String) (data : Bytes) :
    ((current.putTrusted now name data).1.chunkFile hash).isSome =
      ((current.chunkFile hash).isSome || isValidHash name && toAsciiLowercase name == toAsciiLowercase hash) := by
  unfold ChunkStore.putTrusted
  cases valid : isValidHash name with
  | false => simp
  | true =>
    simp only [Bool.not_true, Bool.false_eq_true, if_false, Bool.true_and]
    by_cases same : toAsciiLowercase name = toAsciiLowercase hash
    · split
      · rename_i present
        simp only [ChunkStore.chunkFile, same] at present ⊢
        simp [present]
      · simp [ChunkStore.chunkFile, same]
    · split
      · simp [same]
      · simp [ChunkStore.chunkFile, same, Ne.symm same, Table.find?_upsert]

theorem contains_of_putTrusted {current : ChunkStore} {now : Nat} {name : String} {data : Bytes}
    (written : (current.putTrusted now name data).2 = true) :
    (current.putTrusted now name data).1.contains name = true := by
  have valid : isValidHash name = true := by
    cases named : isValidHash name with
    | true => rfl
    | false => simp [ChunkStore.putTrusted, named] at written
  rw [ChunkStore.contains, chunkFile_putTrusted, valid]
  simp

section

variable {k : Nat} {c : ChunkRef} (chunk : job.manifest.chunks[k]? = some c)
include chunk

theorem holds_succ (hash : String) :
    job.holds store hash (k + 1) = (job.holds store hash k || job.io.stores k &&
      (isValidHash c.blake3 && toAsciiLowercase c.blake3 == toAsciiLowercase hash)) := by
  simp only [Job.holds, List.range_succ, List.any_append, List.any_cons, List.any_nil, Job.puts, chunk, Bool.or_false,
    Bool.or_assoc, Bool.and_assoc]

theorem chunkFile_put {current : ChunkStore} (held : ∀ hash, (current.chunkFile hash).isSome = job.holds store hash k)
    (bytes : Bytes) (hash : String) :
    ((job.put k c bytes current).1.chunkFile hash).isSome = job.holds store hash (k + 1) := by
  rw [holds_succ chunk, ← held, Job.put]
  cases job.io.stores k with
  | true => simp only [if_true, chunkFile_putTrusted, Bool.true_and]
  | false => simp

theorem refused_put {current : ChunkStore} (held : ∀ hash, (current.chunkFile hash).isSome = job.holds store hash k)
    (bytes : Bytes) :
    (!(job.put k c bytes current).2 && !(job.put k c bytes current).1.contains c.blake3) =
      !(isValidHash c.blake3 && job.holds store c.blake3 (k + 1)) := by
  have present : (job.put k c bytes current).1.contains c.blake3 =
      (isValidHash c.blake3 && job.holds store c.blake3 (k + 1)) := by
    rw [ChunkStore.contains, chunkFile_put chunk held]
  have written : (job.put k c bytes current).2 = true → (job.put k c bytes current).1.contains c.blake3 = true := by
    unfold Job.put
    cases job.io.stores k with
    | true => exact contains_of_putTrusted
    | false => exact fun never => nomatch never
  rw [← present]
  cases own : (job.put k c bytes current).2 with
  | true => simp [written own]
  | false => rfl

def scopeOf : Option String → Except String Unit
  | none => .ok ()
  | some e => .error e

/-- The consumer goes on after a chunk that does not fail, and leaves with the reason after one that does. -/
theorem absorb_scope {assembly : Job.Assembly}
    (held : ∀ hash, (assembly.store.chunkFile hash).isSome = job.holds store hash k) :
    (job.absorb k c (job.results k) assembly).2 = scopeOf (job.failure store k) := by
  cases result : job.results k with
  | error e => simp [Job.absorb, Job.failure, chunk, result, scopeOf]
  | ok bytes =>
    have refused := refused_put chunk held bytes
    simp only [Job.absorb, Job.failure, chunk, result, ← refused]
    by_cases short : bytes.length = c.size
    · simp only [short, ne_eq, not_true_eq_false, if_false]
      split
      · rfl
      · cases job.io.writes k <;> rfl
    · simp only [short, ne_eq, not_false_eq_true, if_true, scopeOf]

theorem store_absorb {assembly : Job.Assembly}
    (held : ∀ hash, (assembly.store.chunkFile hash).isSome = job.holds store hash k)
    (accepted : (job.absorb k c (job.results k) assembly).2 = .ok ()) (hash : String) :
    ((job.absorb k c (job.results k) assembly).1.store.chunkFile hash).isSome = job.holds store hash (k + 1) := by
  cases result : job.results k with
  | error e => simp [Job.absorb, result] at accepted
  | ok bytes =>
    rw [← chunkFile_put chunk held bytes hash]
    simp only [Job.absorb, result] at accepted ⊢
    split
    · rename_i short
      simp [short] at accepted
    · split
      · rfl
      · split <;> rfl

end

theorem file_absorb {k : Nat} {c : ChunkRef} {assembly : Job.Assembly}
    (accepted : (job.absorb k c (job.results k) assembly).2 = .ok ()) :
    ∃ bytes, job.results k = .ok bytes ∧
      (job.absorb k c (job.results k) assembly).1.file = assembly.file ++ bytes := by
  cases result : job.results k with
  | error e => simp [Job.absorb, result] at accepted
  | ok bytes =>
    refine ⟨bytes, rfl, ?_⟩
    simp only [Job.absorb, result] at accepted ⊢
    split at accepted
    · cases accepted
    · split at accepted
      · cases accepted
      · split at accepted
        · cases accepted
        · rename_i long kept _ done
          rw [if_neg long, if_neg kept]

theorem absorbUpTo_sound {n : Nat} (bound : n ≤ job.total) (sound : ∀ k < n, job.failure store k = none) :
    ∃ assembly, job.absorbUpTo store n = (assembly, .ok ()) ∧
      ∀ hash, (assembly.store.chunkFile hash).isSome = job.holds store hash n := by
  induction n with
  | zero => exact ⟨_, rfl, fun hash => by simp [Job.holds]⟩
  | succ k ih =>
    obtain ⟨c, chunk⟩ := chunk_of_lt bound
    obtain ⟨assembly, before, held⟩ := ih (Nat.le_of_succ_le bound) fun j small => sound j (Nat.lt_succ_of_lt small)
    have accepted : (job.absorb k c (job.results k) assembly).2 = .ok () := by
      rw [absorb_scope chunk held, sound k (Nat.lt_succ_self k), scopeOf]
    refine ⟨(job.absorb k c (job.results k) assembly).1, ?_, store_absorb chunk held accepted⟩
    rw [absorbUpTo_succ before chunk, ← accepted]

theorem absorbUpTo_first {k : Nat} {e : String} (small : k < job.total) (first : ∀ j < k, job.failure store j = none)
    (fails : job.failure store k = some e) :
    ∃ before after c, job.absorbUpTo store k = (before, .ok ()) ∧ job.manifest.chunks[k]? = some c ∧
      job.absorb k c (job.results k) before = (after, .error e) := by
  obtain ⟨c, chunk⟩ := chunk_of_lt small
  obtain ⟨before, done, held⟩ := absorbUpTo_sound (Nat.le_of_lt small) first
  refine ⟨before, (job.absorb k c (job.results k) before).1, c, done, chunk, ?_⟩
  have scope := absorb_scope chunk held
  rw [fails, scopeOf] at scope
  rw [← scope]

theorem exists_first {k : Nat} (fails : job.failure store k ≠ none) :
    ∃ j ≤ k, (∀ i < j, job.failure store i = none) ∧ ∃ e, job.failure store j = some e := by
  classical
  have some : ∃ j, job.failure store j ≠ none := ⟨k, fails⟩
  refine ⟨Nat.find some, Nat.find_min' some fails, fun i small => ?_,
    Option.ne_none_iff_exists'.mp (Nat.find_spec some)⟩
  exact not_not.mp (Nat.find_min some small)

theorem failure_of_absorbUpTo {n : Nat} (bound : n ≤ job.total) (done : (job.absorbUpTo store n).2 = .ok ()) :
    ∀ k < n, job.failure store k = none := by
  intro k small
  by_contra fails
  obtain ⟨j, early, first, e, reason⟩ := exists_first fails
  obtain ⟨before, after, c, until_j, chunk, refused⟩ := absorbUpTo_first (by omega) first reason
  have stopped := absorbUpTo_of_error ((absorbUpTo_succ until_j chunk).trans refused) (n := n) (by omega)
  rw [stopped] at done
  cases done

theorem absorbUpTo_file {n : Nat} {assembly : Job.Assembly} (bound : n ≤ job.total)
    (done : job.absorbUpTo store n = (assembly, .ok ())) :
    ∃ bodies : List Bytes, bodies.length = n ∧ assembly.file = bodies.flatten ∧
      ∀ k (small : k < bodies.length), job.results k = .ok bodies[k] := by
  induction n generalizing assembly with
  | zero =>
    cases done
    exact ⟨[], rfl, rfl, fun k small => absurd small (Nat.not_lt_zero k)⟩
  | succ n ih =>
    obtain ⟨c, chunk⟩ := chunk_of_lt bound
    have earlier := absorbUpTo_sound (Nat.le_of_succ_le bound) fun k small =>
      failure_of_absorbUpTo bound (by rw [done]) k (Nat.lt_succ_of_lt small)
    obtain ⟨before, until_n, -⟩ := earlier
    obtain ⟨bodies, length, file, taken⟩ := ih (Nat.le_of_succ_le bound) until_n
    have accepted := (absorbUpTo_succ until_n chunk).symm.trans done
    obtain ⟨bytes, result, grown⟩ := file_absorb (by rw [accepted])
    refine ⟨bodies ++ [bytes], by simp [length], ?_, fun k small => ?_⟩
    · rw [accepted, file] at grown
      simpa using grown
    · rcases Nat.lt_or_ge k bodies.length with inside | last
      · rw [List.getElem_append_left inside]
        exact taken k inside
      · obtain rfl : k = bodies.length := by simp only [List.length_append, List.length_singleton] at small; omega
        rw [List.getElem_concat_length rfl, length]
        exact result

end Order

end Soshal.Network.BlobFetch
