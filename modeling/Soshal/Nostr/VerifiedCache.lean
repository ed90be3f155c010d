import Soshal.Nostr.Event

/-! The verified-event cache in front of `Event::verify`.

A hit in either generation answers `true` without looking at the event again,
and the cache key hashes the id and the signature only. What a held key proves
about an event is therefore the invariant of this module: some event with the
same id and signature was verified, not this one.
-/

set_option autoImplicit false

namespace Soshal.Nostr

/-- Two generations of keys; `previous` is the generation that is about to be dropped. -/
structure VerifiedCache where
  current : Finset (Vector UInt8 32)
  previous : Finset (Vector UInt8 32)
  deriving DecidableEq

/-- `VerifiedCache::with_capacity`: both sets start empty, the capacity is only reserved. -/
def VerifiedCache.withCapacity (_cap : Nat) : VerifiedCache := ⟨∅, ∅⟩

def held : Option VerifiedCache → Finset (Vector UInt8 32)
  | none => ∅
  | some cache => cache.current ∪ cache.previous

variable (prims : Primitives) (maxCap : Nat)

def computeVerifyCacheKey (e : Event) : Vector UInt8 32 :=
  prims.sha256 (e.id.toList ++ e.sig.toList)

def halfCap : Nat := max (maxCap / 2) 512

variable (guard : Option VerifiedCache) (e : Event)

/-- The insertion after a successful verification, with the generation turnover. -/
def remember (key : Vector UInt8 32) : VerifiedCache :=
  let cache := guard.getD (VerifiedCache.withCapacity maxCap)
  let cache : VerifiedCache :=
    if halfCap maxCap ≤ cache.current.card then ⟨∅, cache.current⟩ else cache
  { cache with current := insert key cache.current }

/-- `verify_event`: the answer and the cache afterwards. `maxCap` is `max_cache_capacity`,
which depends on the target platform. -/
def verifyEvent : Bool × Option VerifiedCache :=
  let key := computeVerifyCacheKey prims e
  match guard with
  | some cache =>
    if key ∈ cache.current then (true, guard)
    else if key ∈ cache.previous then (true, some { cache with current := insert key cache.current })
    else if e.verify prims then (true, some (remember maxCap guard key))
    else (false, guard)
  | none =>
    if e.verify prims then (true, some (remember maxCap none key)) else (false, none)

def clearVerifiedCache (_guard : Option VerifiedCache) : Option VerifiedCache := none

inductive CacheOp where
  | verify (e : Event)
  | clear
  deriving DecidableEq

def cacheStep : CacheOp → Option VerifiedCache
  | .verify e => (verifyEvent prims maxCap guard e).2
  | .clear => clearVerifiedCache guard

def cacheAfter (ops : List CacheOp) : Option VerifiedCache := ops.foldl (cacheStep prims maxCap) none

theorem verifyEvent_answer : (verifyEvent prims maxCap guard e).1 = true ↔
      computeVerifyCacheKey prims e ∈ held guard ∨ e.verify prims = true := by
  cases guard with
  | none => by_cases valid : e.verify prims <;> simp [verifyEvent, held, valid]
  | some cache =>
    by_cases current : computeVerifyCacheKey prims e ∈ cache.current
    · simp [verifyEvent, held, current]
    · by_cases previous : computeVerifyCacheKey prims e ∈ cache.previous
      · simp [verifyEvent, held, current, previous]
      · by_cases valid : e.verify prims <;> simp [verifyEvent, held, current, previous, valid]

theorem held_remember (key : Vector UInt8 32) :
    held (some (remember maxCap guard key)) ⊆ insert key (held guard) := by
  intro other member
  -- A full generation is shifted out before the insertion, so nothing else comes in.
  cases guard with
  | none => simpa [remember, held, halfCap, VerifiedCache.withCapacity] using member
  | some cache =>
    simp only [remember, Option.getD_some] at member
    split at member <;> simp only [held, Finset.mem_union, Finset.mem_insert] at member ⊢ <;> tauto

theorem held_verifyEvent {key : Vector UInt8 32} (member : key ∈ held (verifyEvent prims maxCap guard e).2) :
    key ∈ held guard ∨ (key = computeVerifyCacheKey prims e ∧ e.verify prims = true) := by
  have inserted : ∀ guard', key ∈ held (some (remember maxCap guard' (computeVerifyCacheKey prims e))) →
      key = computeVerifyCacheKey prims e ∨ key ∈ held guard' := fun guard' h =>
    Finset.mem_insert.mp (held_remember maxCap guard' _ h)
  cases guard with
  | none =>
    simp only [verifyEvent] at member
    split at member
    · rename_i valid
      exact (inserted none member).elim (fun same => .inr ⟨same, valid⟩) .inl
    · exact .inl member
  | some cache =>
    simp only [verifyEvent] at member
    split at member
    · exact .inl member
    · split at member
      · rename_i previous
        simp only [held, Finset.mem_union, Finset.mem_insert] at member ⊢
        rcases member with (same | current) | old
        · exact .inl (.inr (same ▸ previous))
        · exact .inl (.inl current)
        · exact .inl (.inr old)
      · split at member
        · rename_i valid
          exact (inserted _ member).elim (fun same => .inr ⟨same, valid⟩) .inl
        · exact .inl member

@[simp] theorem cacheAfter_snoc (ops : List CacheOp) (op : CacheOp) :
    cacheAfter prims maxCap (ops ++ [op]) = cacheStep prims maxCap (cacheAfter prims maxCap ops) op := by
  simp [cacheAfter]

theorem held_cacheAfter (ops : List CacheOp) {key : Vector UInt8 32}
    (member : key ∈ held (cacheAfter prims maxCap ops)) :
    ∃ e, .verify e ∈ ops ∧ e.verify prims = true ∧ computeVerifyCacheKey prims e = key := by
  induction ops using List.reverseRecOn with
  | nil => simp [cacheAfter, held] at member
  | append_singleton ops op ih =>
    rw [cacheAfter_snoc] at member
    cases op with
    | clear => simp [cacheStep, clearVerifiedCache, held] at member
    | verify e =>
      rcases held_verifyEvent prims maxCap _ e member with old | ⟨same, valid⟩
      · obtain ⟨earlier, found, verified, key⟩ := ih old
        exact ⟨earlier, by simp [found], verified, key⟩
      · exact ⟨e, by simp, valid, same.symm⟩

/-- The bytes that the calls of `ops` hash into cache keys. -/
def keyPreimages (ops : List CacheOp) : Set Bytes :=
  {bytes | ∃ e, .verify e ∈ ops ∧ bytes = e.id.toList ++ e.sig.toList}

/-- The authored fields that the calls of `ops` hash into event ids. -/
def signedBodies (ops : List CacheOp) : Set UnsignedEvent :=
  {body | ∃ e, .verify e ∈ ops ∧ body = e.toUnsignedEvent}

/-- Neither hash collides on the inputs of the run. -/
structure CollisionFree (ops : List CacheOp) : Prop where
  keys : Set.InjOn prims.sha256 (keyPreimages ops)
  ids : Set.InjOn prims.eventId (signedBodies ops)

/-- Every answer in the run is the answer of `Event::verify`. -/
def AnswersMatch (ops : List CacheOp) : Prop :=
  ∀ before e rest, ops = before ++ .verify e :: rest →
    ((verifyEvent prims maxCap (cacheAfter prims maxCap before) e).1 = true ↔ e.verify prims = true)

/-- No call passes an event that shares id and signature with a different event
which an earlier call verified, while the cache still holds their common key. -/
def NoHeldTwin (ops : List CacheOp) : Prop :=
  ∀ before e rest, ops = before ++ .verify e :: rest →
    ∀ twin, .verify twin ∈ before → twin.verify prims = true → twin.id = e.id → twin.sig = e.sig →
      computeVerifyCacheKey prims e ∈ held (cacheAfter prims maxCap before) → twin = e

theorem append_toList_inj {n m : Nat} {a c : Vector UInt8 n} {b d : Vector UInt8 m}
    (same : a.toList ++ b.toList = c.toList ++ d.toList) : a = c ∧ b = d := by
  obtain ⟨left, right⟩ := List.append_inj same (by simp)
  exact ⟨Vector.toList_inj.mp left, Vector.toList_inj.mp right⟩

theorem CollisionFree.parts_of_key {ops : List CacheOp} (free : CollisionFree prims ops) {first second : Event}
    (firstMem : .verify first ∈ ops) (secondMem : .verify second ∈ ops)
    (same : computeVerifyCacheKey prims first = computeVerifyCacheKey prims second) :
    first.id = second.id ∧ first.sig = second.sig :=
  append_toList_inj (free.keys ⟨first, firstMem, rfl⟩ ⟨second, secondMem, rfl⟩ same)

theorem CollisionFree.eq_of_verified {ops : List CacheOp} (free : CollisionFree prims ops) {first second : Event}
    (firstMem : .verify first ∈ ops) (secondMem : .verify second ∈ ops)
    (firstValid : first.verify prims = true) (secondValid : second.verify prims = true)
    (id : first.id = second.id) (sig : first.sig = second.sig) : first = second := by
  have firstHash := ((first.verify_iff prims).mp firstValid).1
  have secondHash := ((second.verify_iff prims).mp secondValid).1
  have bodies : prims.eventId first.toUnsignedEvent = prims.eventId second.toUnsignedEvent := by
    rw [← firstHash, ← secondHash, id]
  exact Event.eq_of_parts id sig (free.ids ⟨first, firstMem, rfl⟩ ⟨second, secondMem, rfl⟩ bodies)

/-- The cache is transparent on exactly the runs without a held twin. -/
theorem verifyEvent_transparent_iff (ops : List CacheOp) (free : CollisionFree prims ops) :
    AnswersMatch prims maxCap ops ↔ NoHeldTwin prims maxCap ops := by
  constructor
  · intro faithful before e rest split twin earlier valid id sig hit
    have accepted := (verifyEvent_answer prims maxCap _ e).mpr (.inl hit)
    have verified := (faithful before e rest split).mp accepted
    exact free.eq_of_verified prims (by simp [split, earlier]) (by simp [split]) valid verified id sig
  · intro noTwin before e rest split
    rw [verifyEvent_answer]
    refine ⟨fun answer => ?_, .inr⟩
    rcases answer with hit | verified
    · -- the key proves that some event of the run with this id and signature verified
      obtain ⟨twin, earlier, valid, key⟩ := held_cacheAfter prims maxCap before hit
      obtain ⟨id, sig⟩ := free.parts_of_key prims (by simp [split, earlier]) (by simp [split]) key
      exact noTwin before e rest split twin earlier valid id sig hit ▸ valid
    · exact verified

section Note

def notePubkey : Vector UInt8 32 :=
  beBytes 32 0xf9308a019258c31049344f85f89d5229b531c845836f99b08601f113bce036f9

def noteId : Vector UInt8 32 :=
  beBytes 32 0xa9d53fee641fe563de947fa330a3b4902e52e249894660aaa521cd039e896128

def noteSig : Vector UInt8 64 :=
  beBytes 64 0x3ed440e88bd49699e7827e60db9eaee0af7468afdb3b2c253301aa592d00c7e08c5e0f64811944b6151f8959d21c1b0b484f0f6d396bce6285e2445496e75e28

def noteBody : UnsignedEvent := ⟨notePubkey, 1700000000, 1, [], "hello"⟩

/-- The text note `hello` of the key with secret scalar 3. -/
def note : Event := ⟨noteBody, noteId, noteSig⟩

def forgedNote : Event := ⟨{ noteBody with content := "forged" }, noteId, noteSig⟩

/-- SHA-256 and BIP-340 on the inputs of the two notes. -/
def notePrims : Primitives where
  eventId body :=
    if body = noteBody then noteId
    else beBytes 32 0x458bd9853b8ee79336a10a34a48e025d79c09f8e83114859060d4f2b4ddf205c
  sha256 _ := beBytes 32 0x2479a5b99af8e6b308ed905183db37f1c280076a95f33245e2ad40791ef8fff3
  schnorrVerify pubkey id sig := decide (pubkey = notePubkey ∧ id = noteId ∧ sig = noteSig)

theorem note_verify : note.verify notePrims = true := by decide

theorem forgedNote_verify : forgedNote.verify notePrims = false := by decide

theorem collisionFree_notes {ops : List CacheOp}
    (notes : ∀ e, .verify e ∈ ops → e = note ∨ e = forgedNote) : CollisionFree notePrims ops where
  keys := by
    have bytes : ∀ e, .verify e ∈ ops → e.id.toList ++ e.sig.toList = noteId.toList ++ noteSig.toList := by
      intro e member
      rcases notes e member with rfl | rfl <;> rfl
    rintro _ ⟨first, firstMem, rfl⟩ _ ⟨second, secondMem, rfl⟩ _
    rw [bytes first firstMem, bytes second secondMem]
  ids := by
    have different : notePrims.eventId note.toUnsignedEvent ≠ notePrims.eventId forgedNote.toUnsignedEvent := by
      decide
    rintro _ ⟨first, firstMem, rfl⟩ _ ⟨second, secondMem, rfl⟩ same
    rcases notes first firstMem with rfl | rfl <;> rcases notes second secondMem with rfl | rfl
    · rfl
    · exact absurd same different
    · exact absurd same.symm different
    · rfl

/-- After the genuine note was verified, the forgery is answered from the cache. -/
theorem verifyEvent_accepts_forgery :
    CollisionFree notePrims [.verify note, .verify forgedNote] ∧
      ¬ AnswersMatch notePrims 50000 [.verify note, .verify forgedNote] := by
  refine ⟨collisionFree_notes (by simp), fun faithful => ?_⟩
  have sameKey : computeVerifyCacheKey notePrims forgedNote = computeVerifyCacheKey notePrims note := rfl
  have hit : computeVerifyCacheKey notePrims forgedNote ∈ held (cacheAfter notePrims 50000 [.verify note]) := by
    rw [sameKey]
    simp [cacheAfter, cacheStep, verifyEvent, note_verify, remember, held, VerifiedCache.withCapacity, halfCap]
  have answer := (faithful [.verify note] forgedNote [] rfl).mp ((verifyEvent_answer _ _ _ _).mpr (.inl hit))
  simp [forgedNote_verify] at answer

theorem verifyEvent_transparent_repeat :
    CollisionFree notePrims [.verify note, .verify note, .clear, .verify note] ∧
      AnswersMatch notePrims 50000 [.verify note, .verify note, .clear, .verify note] := by
  have free : CollisionFree notePrims [.verify note, .verify note, .clear, .verify note] :=
    collisionFree_notes (by simp)
  refine ⟨free, (verifyEvent_transparent_iff notePrims 50000 _ free).mpr ?_⟩
  intro before e rest split twin earlier _ _ _ _
  have all : ∀ event, .verify event ∈ before ++ .verify e :: rest → event = note := by
    rw [← split]
    simp
  rw [all e (by simp), all twin (by simp [earlier])]

end Note

end Soshal.Nostr
