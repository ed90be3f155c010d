import Soshal.Library.Processes
import Soshal.Library.Schedules
import Soshal.Network.BlobFetch

/-! Several blob fetches over one chunk store.

Every fetch opens the same directory. Whether a chunk is there is asked before it is
written, and a fetch that fails removes the chunks it wrote; other fetches may take
steps in between. A chunk that one fetch wrote and another one found there goes with
the first, also when the second has saved its manifest.
-/

set_option autoImplicit false

namespace Soshal.Network.BlobRuns

open Library
open Library.Runs (Always Throughout run)
open Library.Processes (System Move Meets Holds)
open Library.Text (toAsciiLowercase)
open Media
open BlobFetch (Job)

/-- The files that the fetches share, and the manifests that were saved. -/
structure Shelf where
  store : ChunkStore
  saved : List ChunkManifest

/-- Where a fetch stands, as far as the store can tell. -/
inductive Phase where
  | absorbing (bi : Nat)
  | storing (bi : Nat) (c : ChunkRef) (bytes : Bytes)
  | refused (bi : Nat) (c : ChunkRef) (bytes : Bytes)
  | writing (bi : Nat) (c : ChunkRef) (bytes : Bytes)
  | saving
  | cleaning (e : String) (left : List String)
  | returned (result : Except String Nat)

structure Run where
  job : Job
  newlyAbsorbed : List String
  file : Bytes
  phase : Phase

namespace Run

def start (job : Job) : Run :=
  match job.admitted with
  | .ok () => ⟨job, [], [], .absorbing 0⟩
  | .error e => ⟨job, [], [], .returned (.error e)⟩

def fails (run : Run) (e : String) : Run := { run with phase := .cleaning e run.newlyAbsorbed }

def removeFile (store : ChunkStore) (hash : String) : ChunkStore :=
  { store with chunks := store.chunks.delete fun name _ => name = toAsciiLowercase hash }

def writeFile (store : ChunkStore) (now : Nat) (hash : String) (bytes : Bytes) : ChunkStore :=
  { store with chunks := store.chunks.upsert (toAsciiLowercase hash) ⟨bytes, now⟩ fun _ => ⟨bytes, now⟩ }

def verified (run : Run) : Run :=
  if run.job.blake3 run.file ≠ run.job.blobHash then run.fails "blob hash mismatch after transfer"
  else
    match run.job.io.renames with
    | .error e => run.fails ("atomic rename " ++ run.job.tmpPath ++ " -> " ++ run.job.outPath ++ ": " ++ e)
    | .ok () => { run with phase := .saving }

/-- A body has arrived; the first thing asked of the store is whether it has the chunk. -/
def received (run : Run) (store : ChunkStore) (bi : Nat) (c : ChunkRef) : Run :=
  match run.job.results bi with
  | .error e => run.fails e
  | .ok bytes =>
    if bytes.length ≠ c.size then
      run.fails ("chunk " ++ c.blake3 ++ " short (" ++ toString bytes.length ++ " != " ++ toString c.size ++ ")")
    else if isValidHash c.blake3 ∧ (store.chunkFile c.blake3).isNone then
      { run with phase := .storing bi c bytes }
    else { run with phase := .refused bi c bytes }

/-- The next step of a fetch: each of them looks at the store or changes it at most once. -/
def advance (shelf : Shelf) (run : Run) (_ : Unit) : Shelf × Run :=
  match run.phase with
  | .absorbing bi =>
    match run.job.manifest.chunks[bi]? with
    | none => (shelf, run.verified)
    | some c => (shelf, run.received shelf.store bi c)
  | .storing bi c bytes =>
    -- The file is renamed into place whatever has been stored there since.
    if run.job.io.stores bi then
      ({ shelf with store := writeFile shelf.store run.job.now c.blake3 bytes },
        { run with newlyAbsorbed := run.newlyAbsorbed ++ [c.blake3], phase := .writing bi c bytes })
    else (shelf, { run with phase := .refused bi c bytes })
  | .refused bi c bytes =>
    if shelf.store.contains c.blake3 then (shelf, { run with phase := .writing bi c bytes })
    else (shelf, run.fails ("chunk " ++ c.blake3 ++ " store failed"))
  | .writing bi _ bytes =>
    match run.job.io.writes bi with
    | .error e => (shelf, run.fails ("write " ++ run.job.tmpPath ++ ": " ++ e))
    | .ok () => (shelf, { run with file := run.file ++ bytes, phase := .absorbing (bi + 1) })
  | .saving =>
    match run.job.io.persists, shelf.store.saveManifest run.job.now run.job.manifest with
    | .ok (), .ok store =>
      (⟨store, shelf.saved ++ [run.job.manifest]⟩, { run with phase := .returned (.ok run.file.length) })
    | .error e, _ => (shelf, run.fails ("manifest persist: " ++ e))
    | .ok (), .error e => (shelf, run.fails ("manifest persist: " ++ e))
  | .cleaning e (hash :: left) =>
    ({ shelf with store := removeFile shelf.store hash }, { run with phase := .cleaning e left })
  | .cleaning e [] => (shelf, { run with phase := .returned (.error e) })
  | .returned _ => (shelf, run)

end Run

/-- Fetches begin at any time and take their steps in any order. -/
def step : System Shelf Run → Move Job Unit → System Shelf Run := Processes.step Run.start Run.advance

def start (store : ChunkStore) : System Shelf Run := ⟨⟨store, []⟩, []⟩

/-! ## A fetch that nothing interrupts -/

section Alone

def Alone : Shelf × Run → Shelf × Run → Prop := Schedules.Reaches fun s (_ : Unit) => some (s.2.advance s.1 ())

theorem Alone.next {before : Shelf × Run} {after : Shelf × Run} (rest : Alone (before.2.advance before.1 ()) after) :
    Alone before after := Relation.ReflTransGen.head ⟨(), rfl⟩ rest

theorem Alone.of_eq {before after : Shelf × Run} (same : before.2.advance before.1 () = after) : Alone before after :=
  .next (same ▸ .refl _)

variable {job : Job}

/-- The fetch when the consumer has taken some chunks, and the files. -/
def assembled (job : Job) (saved : List ChunkManifest) (assembly : Job.Assembly) (phase : Phase) : Shelf × Run :=
  (⟨assembly.store, saved⟩, ⟨job, assembly.newlyAbsorbed, assembly.file, phase⟩)

def settled (job : Job) (saved : List ChunkManifest) (next : Nat) (taken : Job.Assembly × Except String Unit) :
    Shelf × Run :=
  assembled job saved taken.1
    (match taken.2 with
    | .ok () => .absorbing next
    | .error e => .cleaning e taken.1.newlyAbsorbed)

def written (job : Job) (bi : Nat) (bytes : Bytes) (assembly : Job.Assembly) : Job.Assembly × Except String Unit :=
  match job.io.writes bi with
  | .error e => (assembly, .error ("write " ++ job.tmpPath ++ ": " ++ e))
  | .ok () => ({ assembly with file := assembly.file ++ bytes }, .ok ())

theorem put_of_absent {bi : Nat} {c : ChunkRef} {bytes : Bytes} {store : ChunkStore}
    (absent : isValidHash c.blake3 = true ∧ (store.chunkFile c.blake3).isNone = true)
    (stores : job.io.stores bi = true) :
    job.put bi c bytes store = (Run.writeFile store job.now c.blake3 bytes, true) := by
  simp [Job.put, stores, ChunkStore.putTrusted, absent.1, Option.isNone_iff_eq_none.mp absent.2, Run.writeFile]

theorem put_of_refused {bi : Nat} {c : ChunkRef} {bytes : Bytes} {store : ChunkStore}
    (refused : (isValidHash c.blake3 = true ∧ (store.chunkFile c.blake3).isNone = true) → job.io.stores bi = false) :
    job.put bi c bytes store = (store, false) := by
  unfold Job.put
  split
  · rename_i stores
    unfold ChunkStore.putTrusted
    split
    · rfl
    · split
      · rfl
      · rename_i valid absent
        have both : isValidHash c.blake3 = true ∧ (store.chunkFile c.blake3).isNone = true := by simp_all
        rw [refused both] at stores
        cases stores
  · rfl

section Body

variable {saved : List ChunkManifest} (assembly : Job.Assembly) {bi : Nat} {c : ChunkRef} {bytes : Bytes}

theorem write_alone : Alone (assembled job saved assembly (.writing bi c bytes))
    (settled job saved (bi + 1) (written job bi bytes assembly)) := by
  refine .of_eq ?_
  simp only [assembled, Run.advance, settled, written]
  cases job.io.writes bi <;> rfl

theorem found_alone (contained : assembly.store.contains c.blake3 = true) :
    Alone (assembled job saved assembly (.refused bi c bytes)) (assembled job saved assembly (.writing bi c bytes)) :=
  .of_eq (if_pos contained)

theorem missing_alone (missing : ¬ assembly.store.contains c.blake3 = true) :
    Alone (assembled job saved assembly (.refused bi c bytes))
      (settled job saved (bi + 1) (assembly, .error ("chunk " ++ c.blake3 ++ " store failed"))) :=
  .of_eq (if_neg missing)

theorem stored_alone (stores : job.io.stores bi = true) :
    Alone (assembled job saved assembly (.storing bi c bytes))
      (assembled job saved { assembly with
        store := Run.writeFile assembly.store job.now c.blake3 bytes
        newlyAbsorbed := assembly.newlyAbsorbed ++ [c.blake3] } (.writing bi c bytes)) :=
  .of_eq (if_pos stores)

theorem unstored_alone (stores : ¬ job.io.stores bi = true) :
    Alone (assembled job saved assembly (.storing bi c bytes)) (assembled job saved assembly (.refused bi c bytes)) :=
  .of_eq (if_neg stores)

end Body

theorem advance_absorbing {shelf : Shelf} {run : Run} {bi : Nat} {c : ChunkRef} (at_bi : run.phase = .absorbing bi)
    (place : run.job.manifest.chunks[bi]? = some c) :
    run.advance shelf () = (shelf, run.received shelf.store bi c) := by
  simp only [Run.advance, at_bi, place]

theorem received_of_ok {run : Run} {store : ChunkStore} {bi : Nat} {c : ChunkRef} {bytes : Bytes}
    (result : run.job.results bi = .ok bytes) (long : ¬ bytes.length ≠ c.size) :
    run.received store bi c = { run with
      phase := if isValidHash c.blake3 ∧ (store.chunkFile c.blake3).isNone then .storing bi c bytes
        else .refused bi c bytes } := by
  unfold Run.received
  rw [result]
  dsimp only
  rw [if_neg long]
  by_cases absent : isValidHash c.blake3 ∧ (store.chunkFile c.blake3).isNone
  · rw [if_pos absent, if_pos absent]
  · rw [if_neg absent, if_neg absent]

theorem absorb_alone {saved : List ChunkManifest} {assembly : Job.Assembly} {bi : Nat} {c : ChunkRef}
    (place : job.manifest.chunks[bi]? = some c) :
    Alone (assembled job saved assembly (.absorbing bi))
      (settled job saved (bi + 1) (job.absorb bi c (job.results bi) assembly)) := by
  cases result : job.results bi with
  | error e =>
    refine .of_eq ((advance_absorbing rfl place).trans ?_)
    simp only [assembled, Run.received, result]
    rfl
  | ok bytes =>
    by_cases short : bytes.length ≠ c.size
    · refine .of_eq ((advance_absorbing rfl place).trans ?_)
      simp only [assembled, Run.received, result, Job.absorb, if_pos short]
      rfl
    · have asked : Alone (assembled job saved assembly (.absorbing bi))
          (assembled job saved assembly
            (if isValidHash c.blake3 ∧ (assembly.store.chunkFile c.blake3).isNone then .storing bi c bytes
            else .refused bi c bytes)) :=
        .of_eq ((advance_absorbing rfl place).trans (congrArg (Prod.mk _) (received_of_ok result short)))
      refine asked.trans ?_
      by_cases wrote : (isValidHash c.blake3 ∧ (assembly.store.chunkFile c.blake3).isNone) ∧ job.io.stores bi
      · rw [if_pos wrote.1]
        refine (stored_alone assembly wrote.2).trans ?_
        simp only [Job.absorb, if_neg short, put_of_absent wrote.1 wrote.2]
        exact write_alone _
      · have put : job.put bi c bytes assembly.store = (assembly.store, false) :=
          put_of_refused fun absent => by simpa using fun stores => wrote ⟨absent, stores⟩
        have refusal : Alone (assembled job saved assembly
            (if isValidHash c.blake3 ∧ (assembly.store.chunkFile c.blake3).isNone then .storing bi c bytes
            else .refused bi c bytes)) (assembled job saved assembly (.refused bi c bytes)) := by
          split
          · rename_i absent
            exact unstored_alone assembly fun stores => wrote ⟨absent, stores⟩
          · exact .refl _
        refine refusal.trans ?_
        by_cases contained : assembly.store.contains c.blake3 = true
        · simp only [Job.absorb, if_neg short, put, contained]
          exact (found_alone assembly contained).trans (write_alone assembly)
        · simp only [Job.absorb, if_neg short, put, contained]
          exact missing_alone assembly contained

theorem absorbUpTo_alone (saved : List ChunkManifest) (store : ChunkStore) {n : Nat} (bound : n ≤ job.total) :
    Alone (assembled job saved ⟨store, [], []⟩ (.absorbing 0))
      (settled job saved n (job.absorbUpTo store n)) := by
  induction n with
  | zero => exact .refl _
  | succ k ih =>
    obtain ⟨c, place⟩ := BlobFetch.chunk_of_lt bound
    have before := ih (Nat.le_of_succ_le bound)
    cases reached : job.absorbUpTo store k with
    | mk assembly scope =>
      rw [reached] at before
      cases scope with
      | error e =>
        rw [BlobFetch.absorbUpTo_of_error reached (Nat.le_succ k)]
        exact before
      | ok u =>
        rw [BlobFetch.absorbUpTo_succ reached place]
        exact before.trans (absorb_alone place)

theorem cleanUp_alone (saved : List ChunkManifest) (run : Run) (e : String) (left : List String) (store : ChunkStore) :
    Alone (⟨store, saved⟩, { run with phase := .cleaning e left })
      (⟨left.foldl Run.removeFile store, saved⟩, { run with phase := .returned (.error e) }) := by
  induction left generalizing store with
  | nil => exact .of_eq rfl
  | cons hash left ih => exact .next (ih (Run.removeFile store hash))

theorem fails_alone {saved : List ChunkManifest} (assembly : Job.Assembly) (e : String) :
    Alone (assembled job saved assembly (.cleaning e assembly.newlyAbsorbed))
      (⟨Job.cleanUp assembly, saved⟩, ⟨job, assembly.newlyAbsorbed, assembly.file, .returned (.error e)⟩) :=
  cleanUp_alone saved ⟨job, assembly.newlyAbsorbed, assembly.file, .saving⟩ e assembly.newlyAbsorbed assembly.store

section Ending

variable {saved : List ChunkManifest} (assembly : Job.Assembly)

theorem verified_alone {run : Run} (same : (assembled job saved assembly (.absorbing job.total)).2.verified = run) :
    Alone (assembled job saved assembly (.absorbing job.total)) (⟨assembly.store, saved⟩, run) := by
  have through : job.manifest.chunks[job.total]? = none := List.getElem?_eq_none le_rfl
  refine .of_eq ?_
  rw [← same]
  simp only [assembled, Run.advance, through]

theorem mismatch_alone (wrong : job.blake3 assembly.file ≠ job.blobHash) :
    Alone (assembled job saved assembly (.absorbing job.total))
      (assembled job saved assembly (.cleaning "blob hash mismatch after transfer" assembly.newlyAbsorbed)) :=
  verified_alone assembly (if_pos wrong)

theorem unrenamed_alone (right : ¬ job.blake3 assembly.file ≠ job.blobHash) {e : String}
    (renames : job.io.renames = .error e) :
    Alone (assembled job saved assembly (.absorbing job.total))
      (assembled job saved assembly (.cleaning ("atomic rename " ++ job.tmpPath ++ " -> " ++ job.outPath ++ ": " ++ e)
        assembly.newlyAbsorbed)) :=
  verified_alone assembly ((if_neg right).trans (by simp only [assembled, renames]; rfl))

theorem renamed_alone (right : ¬ job.blake3 assembly.file ≠ job.blobHash) (renames : job.io.renames = .ok ()) :
    Alone (assembled job saved assembly (.absorbing job.total)) (assembled job saved assembly .saving) :=
  verified_alone assembly ((if_neg right).trans (by simp only [assembled, renames]))

end Ending

theorem conclude_alone (out : Option Bytes) (saved : List ChunkManifest) (taken : Job.Assembly × Except String Unit) :
    ∃ shelf run, Alone (settled job saved job.total taken) (shelf, run) ∧
      shelf.store = (job.conclude out taken.1 taken.2).store ∧
      run.phase = .returned (job.conclude out taken.1 taken.2).result := by
  obtain ⟨assembly, scope⟩ := taken
  have failed : ∀ {before : Shelf × Run} {e : String},
      Alone before (assembled job saved assembly (.cleaning e assembly.newlyAbsorbed)) →
      ∃ shelf run, Alone before (shelf, run) ∧ shelf.store = Job.cleanUp assembly ∧ run.phase = .returned (.error e) :=
    fun first => ⟨_, _, first.trans (fails_alone assembly _), rfl, rfl⟩
  cases scope with
  | error e => exact failed (.refl _)
  | ok u =>
    dsimp only [Job.conclude]
    split
    · rename_i wrong
      exact failed (mismatch_alone assembly wrong)
    · rename_i right
      split
      · rename_i renames
        exact failed (unrenamed_alone assembly right renames)
      · rename_i renames
        have last :
            Alone (assembled job saved assembly (.absorbing job.total)) (assembled job saved assembly .saving) :=
          renamed_alone assembly right renames
        split
        · rename_i store persists persisted
          have saving : Alone (assembled job saved assembly .saving) (⟨store, saved ++ [job.manifest]⟩,
              ⟨job, assembly.newlyAbsorbed, assembly.file, .returned (.ok assembly.file.length)⟩) :=
            .of_eq (by simp only [assembled, Run.advance, persists, persisted])
          exact ⟨_, _, last.trans saving, rfl, rfl⟩
        · rename_i e persists
          have saving : Alone (assembled job saved assembly .saving)
              (assembled job saved assembly (.cleaning ("manifest persist: " ++ e) assembly.newlyAbsorbed)) :=
            .of_eq (by simp only [assembled, Run.advance, persists]; rfl)
          exact failed (last.trans saving)
        · rename_i e persists persisted
          have saving : Alone (assembled job saved assembly .saving)
              (assembled job saved assembly (.cleaning ("manifest persist: " ++ e) assembly.newlyAbsorbed)) :=
            .of_eq (by simp only [assembled, Run.advance, persists, persisted]; rfl)
          exact failed (last.trans saving)

theorem expected_alone (out : Option Bytes) (saved : List ChunkManifest) (store : ChunkStore) :
    ∃ shelf run, Alone (⟨store, saved⟩, Run.start job) (shelf, run) ∧
      shelf.store = (job.expected out store).store ∧ run.phase = .returned (job.expected out store).result := by
  unfold Run.start Job.expected
  cases job.admitted with
  | error e => exact ⟨_, _, .refl _, rfl, rfl⟩
  | ok u =>
    obtain ⟨shelf, run, ended, same⟩ := conclude_alone out saved (job.absorbUpTo store job.total)
    exact ⟨shelf, run, (absorbUpTo_alone saved store le_rfl).trans ended, same⟩

end Alone

/-! ## What one step can do -/

def Has (store : ChunkStore) (hash : String) : Prop := (store.chunkFile hash).isSome = true

theorem has_congr {store : ChunkStore} {hash other : String} (same : toAsciiLowercase hash = toAsciiLowercase other) :
    Has store hash ↔ Has store other := by
  unfold Has ChunkStore.chunkFile
  rw [same]

theorem has_writeFile {store : ChunkStore} {now : Nat} {hash : String} {bytes : Bytes} {other : String} :
    Has (Run.writeFile store now hash bytes) other ↔
      toAsciiLowercase other = toAsciiLowercase hash ∨ Has store other := by
  unfold Has Run.writeFile ChunkStore.chunkFile
  rw [Option.isSome_map, Option.isSome_map, Table.find?_upsert]
  by_cases same : toAsciiLowercase other = toAsciiLowercase hash
  · simp only [same, if_true, true_or, iff_true]
    cases store.chunks.find? (toAsciiLowercase hash) <;> rfl
  · simp only [same, if_false, false_or]

theorem has_removeFile {store : ChunkStore} {hash other : String} :
    Has (Run.removeFile store hash) other ↔ toAsciiLowercase other ≠ toAsciiLowercase hash ∧ Has store other := by
  unfold Has Run.removeFile ChunkStore.chunkFile
  rw [Option.isSome_map, Option.isSome_map, Table.find?_delete_key]
  by_cases same : toAsciiLowercase other = toAsciiLowercase hash
  · simp [same]
  · simp [same]

namespace Run

/-- The chunks that a fetch which may still complete has found or put in the store. -/
def relies (run : Run) : List ChunkRef :=
  match run.phase with
  | .absorbing bi => run.job.manifest.chunks.take bi
  | .storing bi _ _ => run.job.manifest.chunks.take bi
  | .refused bi _ _ => run.job.manifest.chunks.take bi
  | .writing bi _ _ => run.job.manifest.chunks.take (bi + 1)
  | .saving => run.job.manifest.chunks
  | .cleaning _ _ => []
  | .returned _ => []

/-- The chunks that the fetch takes for its own, to be removed when it fails. -/
def owned (run : Run) : List String :=
  match run.phase with
  | .storing _ c _ => c.blake3 :: run.newlyAbsorbed
  | .cleaning _ left => left
  | .returned _ => []
  | _ => run.newlyAbsorbed

def removes (run : Run) : Option String :=
  match run.phase with
  | .cleaning _ (hash :: _) => some hash
  | _ => none

/-- The chunk at hand is the one that the manifest has at this place. -/
def Placed (run : Run) : Prop :=
  match run.phase with
  | .storing bi c _ => run.job.manifest.chunks[bi]? = some c
  | .refused bi c _ => run.job.manifest.chunks[bi]? = some c
  | .writing bi c _ => run.job.manifest.chunks[bi]? = some c
  | _ => True

/-- What a step of one fetch can do to the files and to what the fetch relies on. -/
structure Moved (shelf : Shelf) (run : Run) (shelf' : Shelf) (run' : Run) : Prop where
  placed : run'.Placed
  relied : ∀ c ∈ run'.relies, c ∈ run.relies ∨ Has shelf'.store c.blake3
  owned : ∀ hash ∈ run'.owned, hash ∈ run.owned ∨ ¬ Has shelf.store hash
  files : ∀ hash, Has shelf.store hash → Has shelf'.store hash ∨
    ∃ own ∈ run.removes, own ∈ run.owned ∧ toAsciiLowercase hash = toAsciiLowercase own
  saved : ∀ m ∈ shelf'.saved, m ∈ shelf.saved ∨ m.chunks = run.relies ∧ shelf'.store.chunks = shelf.store.chunks
  grows : shelf.saved ⊆ shelf'.saved
  manifests : ∀ name file, shelf'.store.manifests.find? name = some file →
    shelf.store.manifests.find? name = some file ∨ file.content ∈ shelf'.saved

variable {shelf : Shelf} {run run' : Run}

theorem relies_of_removes {hash : String} (removed : hash ∈ run.removes) : run.relies = [] := by
  unfold removes at removed
  unfold relies
  split at removed
  · rename_i phase
    rw [phase]
  · cases removed

theorem Moved.quiet (placed : run'.Placed)
    (relied : ∀ c ∈ run'.relies, c ∈ run.relies ∨ Has shelf.store c.blake3)
    (owned : ∀ hash ∈ run'.owned, hash ∈ run.owned ∨ ¬ Has shelf.store hash) : Moved shelf run shelf run' where
  placed := placed
  relied := relied
  owned := owned
  files := fun _ has => .inl has
  saved := fun _ member => .inl member
  grows := fun _ member => member
  manifests := fun _ _ found => .inl found

theorem Moved.gives_up (own : run.newlyAbsorbed ⊆ run.owned) (e : String) : Moved shelf run shelf (run.fails e) :=
  .quiet trivial (fun _ member => absurd member List.not_mem_nil) fun _ member => .inl (own member)

theorem take_succ_cases {chunks : List ChunkRef} {bi : Nat} {c x : ChunkRef} (place : chunks[bi]? = some c)
    (member : x ∈ chunks.take (bi + 1)) : x ∈ chunks.take bi ∨ x = c := by
  rw [List.take_add_one, place] at member
  simpa using member

theorem moved_verified (own : run.newlyAbsorbed ⊆ run.owned) (relied : run.relies = run.job.manifest.chunks) :
    Moved shelf run shelf run.verified := by
  unfold verified
  split
  · exact .gives_up own _
  · split
    · exact .gives_up own _
    · exact .quiet trivial (fun c member => .inl (by rw [relied]; exact member)) fun hash member => .inl (own member)

theorem moved_received {bi : Nat} {c : ChunkRef} (at_bi : run.phase = .absorbing bi)
    (place : run.job.manifest.chunks[bi]? = some c) : Moved shelf run shelf (run.received shelf.store bi c) := by
  have own : run.owned = run.newlyAbsorbed := by rw [Run.owned, at_bi]
  have relied : run.relies = run.job.manifest.chunks.take bi := by rw [relies, at_bi]
  unfold received
  split
  · exact .gives_up (by rw [own]; exact fun _ member => member) _
  · split
    · exact .gives_up (by rw [own]; exact fun _ member => member) _
    · split
      · rename_i bytes _ _ absent
        refine .quiet place (fun x member => .inl (by rw [relied]; exact member)) fun hash member => ?_
        obtain rfl | old := List.mem_cons.mp member
        · exact .inr (by rw [Has, Option.isNone_iff_eq_none.mp absent.2]; exact Bool.false_ne_true)
        · exact .inl (by rw [own]; exact old)
      · exact .quiet place (fun x member => .inl (by rw [relied]; exact member))
          fun hash member => .inl (by rw [own]; exact member)

theorem relied_of_has {bi : Nat} {c : ChunkRef} (place : run.job.manifest.chunks[bi]? = some c)
    (before : run.relies = run.job.manifest.chunks.take bi)
    (after : run'.relies = run.job.manifest.chunks.take (bi + 1))
    {store : ChunkStore} (has : Has store c.blake3) : ∀ x ∈ run'.relies, x ∈ run.relies ∨ Has store x.blake3 := by
  intro x member
  rw [after] at member
  rw [before]
  obtain old | rfl := take_succ_cases place member
  · exact .inl old
  · exact .inr has

theorem moved_storing {bi : Nat} {c : ChunkRef} {bytes : Bytes} (at_bi : run.phase = .storing bi c bytes)
    (placed : run.Placed) : Moved shelf run { shelf with store := writeFile shelf.store run.job.now c.blake3 bytes }
      { run with newlyAbsorbed := run.newlyAbsorbed ++ [c.blake3], phase := .writing bi c bytes } := by
  have own : run.owned = c.blake3 :: run.newlyAbsorbed := by rw [Run.owned, at_bi]
  rw [Placed, at_bi] at placed
  refine ⟨placed, relied_of_has placed (by rw [relies, at_bi]) rfl (has_writeFile.mpr (.inl rfl)),
    fun hash member => ?_, fun hash has => .inl (has_writeFile.mpr (.inr has)), fun _ member => .inl member,
    fun _ member => member, fun _ _ found => .inl found⟩
  refine .inl ?_
  rw [own]
  exact (List.perm_append_singleton _ _).mem_iff.mp member

theorem moved_saving (at_end : run.phase = .saving) {store : ChunkStore}
    (persisted : shelf.store.saveManifest run.job.now run.job.manifest = .ok store) (result : Except String Nat) :
    Moved shelf run ⟨store, shelf.saved ++ [run.job.manifest]⟩ { run with phase := .returned result } := by
  unfold ChunkStore.saveManifest at persisted
  split at persisted
  · cases persisted
  · cases persisted
    refine ⟨trivial, fun _ member => absurd member List.not_mem_nil, fun _ member => absurd member List.not_mem_nil,
      fun hash has => .inl has, fun m member => ?_, List.subset_append_left _ _, fun name file found => ?_⟩
    · refine (List.mem_append.mp member).imp_right fun new => ⟨?_, rfl⟩
      rw [List.mem_singleton.mp new, relies, at_end]
    · dsimp only at found
      rw [Table.find?_upsert] at found
      split at found
      · refine .inr (List.mem_append.mpr (.inr (List.mem_singleton.mpr ?_)))
        cases held : shelf.store.manifests.find? run.job.manifest.blobHash with
        | none => simp [held] at found; rw [← found]
        | some old => simp [held] at found; rw [← found]
      · exact .inl found

theorem moved_cleaning {e hash : String} {left : List String} (at_hash : run.phase = .cleaning e (hash :: left)) :
    Moved shelf run { shelf with store := removeFile shelf.store hash } { run with phase := .cleaning e left } := by
  have own : run.owned = hash :: left := by rw [Run.owned, at_hash]
  refine ⟨trivial, fun _ member => absurd member List.not_mem_nil, fun other member => .inl ?_, fun other has => ?_,
    fun _ member => .inl member,
    fun _ member => member, fun _ _ found => .inl found⟩
  · rw [own]
    exact List.mem_cons_of_mem _ member
  · by_cases same : toAsciiLowercase other = toAsciiLowercase hash
    · refine .inr ⟨hash, by rw [removes, at_hash]; rfl, ?_, same⟩
      rw [own]
      exact List.mem_cons_self
    · exact .inl (has_removeFile.mpr ⟨same, has⟩)

theorem moved_advance (placed : run.Placed) :
    Moved shelf run (run.advance shelf ()).1 (run.advance shelf ()).2 := by
  unfold advance
  cases phase : run.phase with
  | absorbing bi =>
    dsimp only
    cases place : run.job.manifest.chunks[bi]? with
    | none =>
      refine moved_verified ?_ ?_
      · rw [Run.owned, phase]
        exact fun _ member => member
      · rw [relies, phase]
        exact List.take_of_length_le (List.getElem?_eq_none_iff.mp place)
    | some c => exact moved_received phase place
  | storing bi c bytes =>
    dsimp only
    split
    · exact moved_storing phase placed
    · refine .quiet (by rw [Placed, phase] at placed; exact placed) (fun x member => .inl ?_) fun hash member => .inl ?_
      · rw [relies, phase]
        exact member
      · rw [Run.owned, phase]
        exact List.mem_cons_of_mem _ member
  | refused bi c bytes =>
    have own : run.owned = run.newlyAbsorbed := by rw [Run.owned, phase]
    rw [Placed, phase] at placed
    dsimp only
    split
    · -- Somebody else has stored the chunk in the meantime.
      rename_i contained
      rw [ChunkStore.contains, Bool.and_eq_true] at contained
      exact .quiet placed (relied_of_has placed (by rw [relies, phase]) rfl contained.2)
        fun hash member => .inl (by rw [own]; exact member)
    · exact .gives_up (by rw [own]; exact fun _ member => member) _
  | writing bi c bytes =>
    have own : run.owned = run.newlyAbsorbed := by rw [Run.owned, phase]
    dsimp only
    split
    · exact .gives_up (by rw [own]; exact fun _ member => member) _
    · exact .quiet trivial (fun x member => .inl (by rw [relies, phase]; exact member))
        fun hash member => .inl (by rw [own]; exact member)
  | saving =>
    have own : run.newlyAbsorbed ⊆ run.owned := by
      rw [Run.owned, phase]
      exact fun _ member => member
    dsimp only
    split
    · rename_i persisted
      exact moved_saving phase persisted _
    · exact .gives_up own _
    · exact .gives_up own _
  | cleaning e left =>
    cases left with
    | cons hash left => exact moved_cleaning phase
    | nil =>
      exact .quiet trivial (fun _ member => absurd member List.not_mem_nil)
        fun _ member => absurd member List.not_mem_nil
  | returned result =>
    exact .quiet placed (fun x member => .inl member) fun hash member => .inl member

end Run

/-! ## Every interleaving -/

/-- What the files have in common with the first store and with the saved manifests. -/
structure Kept (init : ChunkStore) (shelf : Shelf) : Prop where
  older : ∀ hash, Has init hash → Has shelf.store hash
  saved : ∀ m ∈ shelf.saved, ∀ c ∈ m.chunks, Has shelf.store c.blake3
  manifests : ∀ name file, shelf.store.manifests.find? name = some file →
    init.manifests.find? name = some file ∨ file.content ∈ shelf.saved

/-- A fetch relies on stored chunks only, and never takes a chunk of the first store for its own. -/
structure Sound (init : ChunkStore) (shelf : Shelf) (run : Run) : Prop where
  placed : run.Placed
  held : ∀ c ∈ run.relies, Has shelf.store c.blake3
  fresh : ∀ own ∈ run.owned, ¬ Has init own

def SparesSaved (shelf : Shelf) (run : Run) (_ : Unit) : Prop :=
  ∀ hash ∈ run.removes, ∀ m ∈ shelf.saved, ∀ c ∈ m.chunks, toAsciiLowercase c.blake3 ≠ toAsciiLowercase hash

/-- The chunk that is removed is one that the other fetch has not taken. -/
def SparesOther (_ : Shelf) (run : Run) (_ : Unit) (other : Run) : Prop :=
  ∀ hash ∈ run.removes, ∀ c ∈ other.relies, toAsciiLowercase c.blake3 ≠ toAsciiLowercase hash

section Interleaving

variable {init : ChunkStore} {shelf : Shelf} {run other : Run}

theorem sound_start (job : Job) : Sound init shelf (Run.start job) := by
  unfold Run.start
  split
  · exact ⟨trivial, fun _ member => absurd member List.not_mem_nil, fun _ member => absurd member List.not_mem_nil⟩
  · exact ⟨trivial, fun _ member => absurd member List.not_mem_nil, fun _ member => absurd member List.not_mem_nil⟩

theorem has_after (sound : Sound init shelf run) {hash : String} (has : Has shelf.store hash)
    (spared : ∀ own ∈ run.removes, toAsciiLowercase hash ≠ toAsciiLowercase own) :
    Has (run.advance shelf ()).1.store hash := by
  obtain still | ⟨own, removed, -, same⟩ := (run.moved_advance sound.placed).files hash has
  · exact still
  · exact absurd same (spared own removed)

theorem kept_advance (kept : Kept init shelf) (sound : Sound init shelf run) (spares : SparesSaved shelf run ()) :
    Kept init (run.advance shelf ()).1 := by
  have moved : Run.Moved shelf run _ _ := run.moved_advance sound.placed
  refine ⟨fun hash old => ?_, fun m member c chunk => ?_, fun name file found => ?_⟩
  · obtain still | ⟨own, -, mine, same⟩ := moved.files hash (kept.older hash old)
    · exact still
    · exact absurd ((has_congr same).mp old) (sound.fresh own mine)
  · obtain before | ⟨relied, same⟩ := moved.saved m member
    · exact has_after sound (kept.saved m before c chunk) fun own removed => spares own removed m before c chunk
    · have has := sound.held c (relied ▸ chunk)
      unfold Has ChunkStore.chunkFile at has ⊢
      rw [same]
      exact has
  · obtain before | new := moved.manifests name file found
    · exact (kept.manifests name file before).imp_right fun member => moved.grows member
    · exact .inr new

theorem sound_advance (kept : Kept init shelf) (sound : Sound init shelf run) :
    Sound init (run.advance shelf ()).1 (run.advance shelf ()).2 := by
  have moved : Run.Moved shelf run _ _ := run.moved_advance sound.placed
  refine ⟨moved.placed, fun c member => ?_, fun own member old => ?_⟩
  · obtain before | now := moved.relied c member
    · refine has_after sound (sound.held c before) fun own removed => ?_
      rw [Run.relies_of_removes removed] at before
      exact absurd before List.not_mem_nil
    · exact now
  · obtain before | absent := moved.owned own member
    · exact sound.fresh own before old
    · exact absent (kept.older own old)

theorem sound_beside (soundRun : Sound init shelf run) (soundOther : Sound init shelf other)
    (spares : SparesOther shelf run () other) : Sound init (run.advance shelf ()).1 other :=
  ⟨soundOther.placed, fun c member => has_after soundRun (soundOther.held c member) fun own removed =>
    spares own removed c member, soundOther.fresh⟩

end Interleaving

/-- In every interleaving in which no fetch removes a chunk that a saved manifest names or that another fetch, still
under way, has taken, the chunks of every saved manifest stay. -/
theorem saved_chunks_stay (init : ChunkStore) (moves : List (Move Job Unit))
    (spares : Throughout step (Meets SparesSaved SparesOther) (start init) moves) :
    Always step (fun s => Kept init s.shared) (start init) moves := by
  have initial : Holds (Kept init) (Sound init) (start init) :=
    ⟨⟨fun _ old => old, fun _ member => absurd member List.not_mem_nil, fun _ _ found => .inl found⟩,
      fun _ member => absurd member List.not_mem_nil⟩
  have guarantee : Processes.Guarantee Run.start Run.advance SparesSaved SparesOther (Kept init) (Sound init) :=
    { entered := fun _ job _ => sound_start job
      moves := fun _ _ _ kept sound meets => ⟨kept_advance kept sound meets, sound_advance kept sound⟩
      others := fun _ _ _ _ _ sound other _ beside => sound_beside sound other beside }
  have always := guarantee.always initial spares
  exact always.imp fun s holds => holds.1

instance (shelf : Shelf) (run : Run) (input : Unit) : Decidable (SparesSaved shelf run input) :=
  inferInstanceAs (Decidable (∀ hash ∈ run.removes, ∀ m ∈ shelf.saved, ∀ c ∈ m.chunks,
    toAsciiLowercase c.blake3 ≠ toAsciiLowercase hash))

instance (shelf : Shelf) (run : Run) (input : Unit) (other : Run) : Decidable (SparesOther shelf run input other) :=
  inferInstanceAs (Decidable (∀ hash ∈ run.removes, ∀ c ∈ other.relies,
    toAsciiLowercase c.blake3 ≠ toAsciiLowercase hash))

def oneByte (b : UInt8) : Job where
  blobHash := shortDigest [b]
  outPath := "/tmp/one"
  tmpPath := "/tmp/one.tmp.1"
  privatePeer := true
  pathChecked := .ok ()
  crawled := .ok ()
  manifest := ⟨shortDigest [b], 1, [⟨shortDigest [b], 0, 1⟩]⟩
  results := fun _ => .ok [b]
  io := ⟨.ok (), fun _ => true, fun _ => .ok (), .ok (), .ok ()⟩
  now := 0
  blake3 := shortDigest

def cutShort : Job :=
  { oneByte 0x61 with
    blobHash := shortDigest [0x61, 0x62]
    manifest := ⟨shortDigest [0x61, 0x62], 2, [⟨shortDigest [0x61], 0, 1⟩, ⟨shortDigest [0x62], 1, 1⟩]⟩
    results := fun bi => if bi = 0 then .ok [0x61] else .error "tcp: connection refused" }

/-- The first fetch stores its first chunk, the second runs to its end, and then the first fails. -/
def overtaken (second : Job) : List (Move Job Unit) :=
  [.call cutShort, .advance 0 (), .advance 0 (), .advance 0 (), .call second] ++ List.replicate 6 (.advance 1 ()) ++
    List.replicate 3 (.advance 0 ())

theorem other_blob_stays :
    Throughout step (Meets SparesSaved SparesOther) (start (.new .empty .empty)) (overtaken (oneByte 0x62)) ∧
      Always step (fun s => Kept (.new .empty .empty) s.shared) (start (.new .empty .empty))
        (overtaken (oneByte 0x62)) :=
  ⟨by decide +kernel, saved_chunks_stay _ _ (by decide +kernel)⟩

theorem shared_chunk_removed :
    ¬ Always step (fun s => Kept (.new .empty .empty) s.shared) (start (.new .empty .empty))
      (overtaken (oneByte 0x61)) := by
  intro always
  have stays : ∀ m ∈ (run step (start (.new .empty .empty)) (overtaken (oneByte 0x61))).shared.saved, ∀ c ∈ m.chunks,
      ((run step (start (.new .empty .empty)) (overtaken (oneByte 0x61))).shared.store.chunkFile c.blake3).isSome = true :=
    always.last.saved
  revert stays
  decide

end Soshal.Network.BlobRuns
