import Soshal.Library.Processes
import Soshal.Library.Table

/-! The normalized store: entities behind read-write locks, and subscribers that are told of every change.

A change takes the list of subscribers out of its lock, calls them one after the
other and puts the list back in front of whoever subscribed meanwhile. Calls run
side by side, one lock acquisition or one callback at a time. No subscriber is ever
lost that way, but a change that finds the list taken out tells nobody on it.
-/

set_option autoImplicit false

namespace Soshal.Common.NormalizedStore

open Library
open Library.Processes (System Move Meets)
open Library.Runs (Always Throughout)

structure UserEntity where
  pubkey : String
  name : Option String
  avatarUrl : Option String
  nip05 : Option String
  updatedAt : UInt64
  deriving DecidableEq

structure PostEntity where
  id : String
  authorPubkey : String
  content : String
  createdAt : UInt64
  likeCount : UInt32
  repostCount : UInt32
  zapAmountSats : UInt64
  userLiked : Bool
  bookmarked : Bool
  deriving DecidableEq

inductive EntityDelta where
  | userUpdated (pubkey : String) (name avatarUrl nip05 : Option String)
  | postReactionAdded (postId : String) (likeCount repostCount : UInt32) (zapAmountSats : UInt64) (userLiked : Bool)
  | storeCleared
  deriving DecidableEq

/-- The entities, the two store locks where they are held between steps, and the list of subscribers, each by the
number of its registration. -/
structure Store where
  users : Table String UserEntity
  posts : Table String PostEntity
  usersHeld : Bool
  postsHeld : Bool
  listeners : List Nat
  registered : Nat

inductive Call where
  | subscribe
  | upsertUser (user : UserEntity)
  | updatePostReaction (postId : String) (userLiked : Bool) (likeCountDelta : Int32)
  | clear

/-- How far a call has come. From its beginning on it knows how many had registered before it. -/
inductive Proc where
  | called (call : Call)
  | locking (call : Call) (since : Nat)
  | clearing (since : Nat)
  | notifying (delta : EntityDelta) (holdsPosts : Bool) (since : Nat)
  | calling (delta : EntityDelta) (holdsPosts : Bool) (since : Nat) (taken remaining told : List Nat)
  | done (delta : Option EntityDelta) (since : Nat) (told : List Nat)

def saturatingAdd (count : UInt32) (n : Nat) : UInt32 := .ofNat (min (count.toNat + n) (2 ^ 32 - 1))

def saturatingSub (count : UInt32) (n : Nat) : UInt32 := .ofNat (count.toNat - n)

def PostEntity.react (post : PostEntity) (userLiked : Bool) (likeCountDelta : Int32) : PostEntity :=
  { post with
    userLiked := userLiked
    likeCount :=
      if likeCountDelta > 0 then saturatingAdd post.likeCount likeCountDelta.toInt.toNat
      else if likeCountDelta < 0 then saturatingSub post.likeCount likeCountDelta.toInt.natAbs
      else post.likeCount }

def PostEntity.reactionDelta (post : PostEntity) (postId : String) : EntityDelta :=
  .postReactionAdded postId post.likeCount post.repostCount post.zapAmountSats post.userLiked

/-- What a call does once it has its first lock; it waits while another call holds it. -/
def begin (store : Store) (call : Call) (since : Nat) : Store × Proc :=
  match call with
  | .subscribe =>
    ({ store with listeners := store.listeners ++ [store.registered], registered := store.registered + 1 },
      .done none since [])
  | .upsertUser user =>
    if store.usersHeld then (store, .locking call since)
    else
      ({ store with users := store.users.upsert user.pubkey user fun _ => user },
        .notifying (.userUpdated user.pubkey user.name user.avatarUrl user.nip05) false since)
  | .updatePostReaction postId userLiked likeCountDelta =>
    if store.postsHeld then (store, .locking call since)
    else
      match store.posts.find? postId with
      | none => (store, .done none since [])
      | some post =>
        let post := post.react userLiked likeCountDelta
        -- the lock on the posts is kept while the subscribers are told
        ({ store with posts := store.posts.upsert postId post fun _ => post, postsHeld := true },
          .notifying (post.reactionDelta postId) true since)
  | .clear =>
    if store.usersHeld then (store, .locking call since) else ({ store with usersHeld := true }, .clearing since)

def advance (store : Store) (proc : Proc) (_ : Unit) : Store × Proc :=
  match proc with
  | .called call => (store, .locking call store.registered)
  | .locking call since => begin store call since
  | .clearing since =>
    if store.postsHeld then (store, proc)
    else
      let nonEmpty := !store.users.rows.isEmpty || !store.posts.rows.isEmpty
      ({ store with users := .empty, posts := .empty, usersHeld := false },
        if nonEmpty then .notifying .storeCleared false since else .done none since [])
  | .notifying delta holdsPosts since =>
    ({ store with listeners := [] }, .calling delta holdsPosts since store.listeners store.listeners [])
  | .calling delta holdsPosts since taken (listener :: remaining) told =>
    (store, .calling delta holdsPosts since taken remaining (told ++ [listener]))
  | .calling delta holdsPosts since taken [] told =>
    -- put back in front of those who subscribed meanwhile
    ({ store with listeners := taken ++ store.listeners, postsHeld := store.postsHeld && !holdsPosts },
      .done (some delta) since told)
  | .done delta since told => (store, .done delta since told)

abbrev step : System Store Proc → Move Call Unit → System Store Proc := Processes.step Proc.called advance

def start (users : Table String UserEntity) (posts : Table String PostEntity) : System Store Proc :=
  ⟨⟨users, posts, false, false, [], 0⟩, []⟩

def Proc.taken : Proc → List Nat
  | .calling _ _ _ taken _ _ => taken
  | _ => []

/-- Whom a call with a delta has told or is about to tell, and how many had registered before it. -/
def Proc.audience : Proc → Option (Nat × List Nat)
  | .calling _ _ since _ remaining told => some (since, told ++ remaining)
  | .done (some _) since told => some (since, told)
  | _ => none

/-- Every registration is in the list or taken out of it by one call, once. -/
def Kept (s : System Store Proc) : Prop :=
  (s.shared.listeners ++ s.procs.flatMap Proc.taken).Perm (List.range s.shared.registered)

/-- Every call tells each subscriber that was registered before it, once. -/
def Delivers (s : System Store Proc) : Prop :=
  ∀ p ∈ s.procs, ∀ since audience, p.audience = some (since, audience) → ∀ subscriber < since,
    audience.count subscriber = 1

/-- When a call takes out the list, no other call has taken a subscriber that was registered before it. -/
def ListPresent (_ : Store) (p : Proc) (_ : Unit) (q : Proc) : Prop :=
  match p with
  | .notifying _ _ since => ∀ subscriber ∈ q.taken, since ≤ subscriber
  | _ => True

def Proc.since : Proc → Nat
  | .called _ => 0
  | .locking _ since => since
  | .clearing since => since
  | .notifying _ _ since => since
  | .calling _ _ since _ _ _ => since
  | .done _ since _ => since

/-- A step that leaves the subscribers alone. -/
structure Quiet (store : Store) (p : Proc) (after : Store × Proc) : Prop where
  listeners : after.1.listeners = store.listeners
  registered : after.1.registered = store.registered
  taken : after.2.taken = p.taken
  audience : after.2.audience = p.audience
  since : after.2.since = p.since ∨ after.2.since = store.registered

theorem advance_cases (store : Store) (p : Proc) :
    Quiet store p (advance store p ()) ∨
      (∃ since, p = .locking .subscribe since) ∨
      (∃ delta holdsPosts since, p = .notifying delta holdsPosts since) ∨
      ∃ delta holdsPosts since taken told, p = .calling delta holdsPosts since taken [] told := by
  have same : Quiet store p (store, p) := ⟨rfl, rfl, rfl, rfl, .inl rfl⟩
  cases p with
  | called call => exact .inl ⟨rfl, rfl, rfl, rfl, .inr rfl⟩
  | locking call since =>
    cases call with
    | subscribe => exact .inr (.inl ⟨since, rfl⟩)
    | upsertUser user =>
      left
      simp only [advance, begin]
      split
      · exact same
      · exact ⟨rfl, rfl, rfl, rfl, .inl rfl⟩
    | updatePostReaction postId userLiked likeCountDelta =>
      left
      simp only [advance, begin]
      split
      · exact same
      · split
        · exact ⟨rfl, rfl, rfl, rfl, .inl rfl⟩
        · exact ⟨rfl, rfl, rfl, rfl, .inl rfl⟩
    | clear =>
      left
      simp only [advance, begin]
      split
      · exact same
      · exact ⟨rfl, rfl, rfl, rfl, .inl rfl⟩
  | clearing since =>
    left
    simp only [advance]
    split
    · exact same
    · split
      · exact ⟨rfl, rfl, rfl, rfl, .inl rfl⟩
      · exact ⟨rfl, rfl, rfl, rfl, .inl rfl⟩
  | notifying delta holdsPosts since => exact .inr (.inr (.inl ⟨delta, holdsPosts, since, rfl⟩))
  | calling delta holdsPosts since taken remaining told =>
    cases remaining with
    | nil => exact .inr (.inr (.inr ⟨delta, holdsPosts, since, taken, told, rfl⟩))
    | cons listener remaining =>
      refine .inl ⟨rfl, rfl, rfl, ?_, .inl rfl⟩
      simp [advance, Proc.audience]
  | done delta since told => exact .inl same

theorem advance_listeners (store : Store) (p : Proc) :
    ∃ fresh, ((advance store p ()).1.listeners ++ (advance store p ()).2.taken).Perm (store.listeners ++ p.taken ++ fresh) ∧
      List.range (advance store p ()).1.registered = List.range store.registered ++ fresh := by
  obtain quiet | ⟨since, rfl⟩ | ⟨delta, holdsPosts, since, rfl⟩ | ⟨delta, holdsPosts, since, taken, told, rfl⟩ :=
    advance_cases store p
  · refine ⟨[], ?_, ?_⟩
    · rw [quiet.listeners, quiet.taken, List.append_nil]
    · rw [quiet.registered, List.append_nil]
  · refine ⟨[store.registered], ?_, List.range_succ⟩
    simp [advance, begin, Proc.taken]
  · refine ⟨[], ?_, (List.append_nil _).symm⟩
    simp [advance, Proc.taken]
  · refine ⟨[], ?_, (List.append_nil _).symm⟩
    simpa [advance, Proc.taken] using List.perm_append_comm

theorem advance_audience (store : Store) (p : Proc) :
    (advance store p ()).2.audience = p.audience ∨
      ∃ delta holdsPosts since, p = .notifying delta holdsPosts since ∧
        (advance store p ()).2.audience = some (since, store.listeners) := by
  obtain quiet | ⟨since, rfl⟩ | ⟨delta, holdsPosts, since, rfl⟩ | ⟨delta, holdsPosts, since, taken, told, rfl⟩ :=
    advance_cases store p
  · exact .inl quiet.audience
  · exact .inl rfl
  · exact .inr ⟨delta, holdsPosts, since, rfl, rfl⟩
  · left
    simp [advance, Proc.audience]

theorem advance_registered (store : Store) (p : Proc) : store.registered ≤ (advance store p ()).1.registered := by
  obtain ⟨fresh, -, range⟩ := advance_listeners store p
  have length := congrArg List.length range
  simp only [List.length_range, List.length_append] at length
  omega

theorem advance_since (store : Store) {p : Proc} (known : p.since ≤ store.registered) :
    (advance store p ()).2.since ≤ (advance store p ()).1.registered := by
  refine Nat.le_trans ?_ (advance_registered store p)
  obtain quiet | ⟨since, rfl⟩ | ⟨delta, holdsPosts, since, rfl⟩ | ⟨delta, holdsPosts, since, taken, told, rfl⟩ :=
    advance_cases store p
  · cases quiet.since with
    | inl same => exact same ▸ known
    | inr now => exact Nat.le_of_eq now
  · exact known
  · exact known
  · exact known

theorem flatMap_set_perm {α β : Type} (f : α → List β) {xs : List α} {i : Nat} {x : α} (here : xs[i]? = some x)
    (y : α) :
    ((xs.set i y).flatMap f).Perm (f y ++ (xs.eraseIdx i).flatMap f) := by
  obtain ⟨small, rfl⟩ := List.getElem?_eq_some_iff.mp here
  exact (List.set_perm_cons_eraseIdx small y).flatMap_right f

theorem flatMap_perm {α β : Type} (f : α → List β) {xs : List α} {i : Nat} {x : α} (here : xs[i]? = some x) :
    (xs.flatMap f).Perm (f x ++ (xs.eraseIdx i).flatMap f) := by
  obtain ⟨small, rfl⟩ := List.getElem?_eq_some_iff.mp here
  exact (List.getElem_cons_eraseIdx_perm small).symm.flatMap_right f

variable {s : System Store Proc}

theorem Kept.step (kept : Kept s) (move : Move Call Unit) : Kept (step s move) := by
  cases move with
  | call c => simpa [Kept, NormalizedStore.step, Processes.step, Proc.taken] using kept
  | advance i input =>
    cases here : s.procs[i]? with
    | none => simpa only [NormalizedStore.step, Processes.step, here] using kept
    | some p =>
      simp only [NormalizedStore.step, Processes.step, here, Kept]
      obtain ⟨fresh, moved, range⟩ := advance_listeners s.shared p
      generalize others : (s.procs.eraseIdx i).flatMap Proc.taken = rest
      have before : (s.shared.listeners ++ (p.taken ++ rest)).Perm (List.range s.shared.registered) := by
        rw [← others]
        exact ((flatMap_perm Proc.taken here).symm.append_left _).trans kept
      rw [range]
      calc ((advance s.shared p ()).1.listeners ++ (s.procs.set i (advance s.shared p ()).2).flatMap Proc.taken).Perm
            ((advance s.shared p ()).1.listeners ++ ((advance s.shared p ()).2.taken ++ rest)) := by
            rw [← others]
            exact (flatMap_set_perm Proc.taken here _).append_left _
        _ = (advance s.shared p ()).1.listeners ++ (advance s.shared p ()).2.taken ++ rest := by rw [List.append_assoc]
        _ |>.Perm (s.shared.listeners ++ p.taken ++ fresh ++ rest) := moved.append_right rest
        _ |>.Perm (s.shared.listeners ++ (p.taken ++ rest) ++ fresh) := by
            simp only [List.append_assoc]
            exact (List.perm_append_comm.append_left p.taken).append_left s.shared.listeners
        _ |>.Perm (List.range s.shared.registered ++ fresh) := before.append_right fresh

theorem count_listeners (kept : Kept s) {i : Nat} {p : Proc} (here : s.procs[i]? = some p) (nothing : p.taken = [])
    {subscriber : Nat} (known : subscriber < s.shared.registered) :
    s.shared.listeners.count subscriber = 1 ↔ ∀ q ∈ s.procs.eraseIdx i, subscriber ∉ q.taken := by
  have total := ((flatMap_perm Proc.taken here).symm.append_left s.shared.listeners).trans kept |>.count_eq subscriber
  rw [nothing, List.nil_append, List.count_append, List.count_eq_one_of_mem List.nodup_range (List.mem_range.mpr known)]
    at total
  have absent : ((s.procs.eraseIdx i).flatMap Proc.taken).count subscriber = 0 ↔
      ∀ q ∈ s.procs.eraseIdx i, subscriber ∉ q.taken := by
    rw [List.count_eq_zero, List.mem_flatMap]
    push Not
    rfl
  rw [← absent]
  omega

structure Knows (s : System Store Proc) : Prop where
  kept : Kept s
  known : ∀ p ∈ s.procs, p.since ≤ s.shared.registered
  delivers : Delivers s

theorem known_step (known : ∀ p ∈ s.procs, p.since ≤ s.shared.registered) (move : Move Call Unit) :
    ∀ p ∈ (step s move).procs, p.since ≤ (step s move).shared.registered := by
  cases move with
  | call c =>
    intro p member
    cases List.mem_append.mp member with
    | inl old => exact known p old
    | inr new =>
      rw [List.mem_singleton.mp new]
      exact Nat.zero_le _
  | advance i input =>
    cases here : s.procs[i]? with
    | none => simpa only [step, Processes.step, here] using known
    | some p =>
      simp only [step, Processes.step, here]
      intro q member
      obtain rfl | other := Processes.mem_set_or_others here member
      · exact advance_since s.shared (known p (List.mem_of_getElem? here))
      · exact Nat.le_trans (known q (List.mem_of_mem_eraseIdx other)) (advance_registered s.shared p)

/-- A call that takes out the list reaches whom it should, exactly when no other call has taken one of them. -/
theorem takes_iff (knows : Knows s) {i : Nat} {delta : EntityDelta} {holdsPosts : Bool} {since : Nat}
    (here : s.procs[i]? = some (.notifying delta holdsPosts since)) :
    (∀ subscriber < since, s.shared.listeners.count subscriber = 1) ↔
      ∀ q ∈ s.procs.eraseIdx i, ListPresent s.shared (.notifying delta holdsPosts since) () q := by
  have known : since ≤ s.shared.registered := knows.known _ (List.mem_of_getElem? here)
  constructor
  · intro reaches q other subscriber taken
    by_contra before
    have early : subscriber < since := by omega
    exact (count_listeners knows.kept here rfl (by omega)).mp (reaches subscriber early) q other taken
  · intro present subscriber before
    refine (count_listeners knows.kept here rfl (by omega)).mpr fun q other taken => ?_
    have late := present q other subscriber taken
    omega

theorem forced (knows : Knows s) (move : Move Call Unit) (delivers : Delivers (step s move)) :
    Meets (fun _ _ _ => True) ListPresent s move := by
  cases move with
  | call c => trivial
  | advance i input =>
    cases here : s.procs[i]? with
    | none => simp only [Meets, here]
    | some p =>
      simp only [Meets, here, true_and]
      cases p with
      | notifying delta holdsPosts since =>
        refine (takes_iff knows here).mp fun subscriber before => ?_
        simp only [step, Processes.step, here] at delivers
        refine delivers (advance s.shared (.notifying delta holdsPosts since) ()).2 ?_ since _ rfl subscriber before
        exact List.mem_set (List.getElem?_eq_some_iff.mp here).1 _
      | _ => exact fun _ _ => trivial

theorem Delivers.step (knows : Knows s) (move : Move Call Unit)
    (meets : Meets (fun _ _ _ => True) ListPresent s move) : Delivers (step s move) := by
  cases move with
  | call c =>
    intro p member since audience has
    cases List.mem_append.mp member with
    | inl old => exact knows.delivers p old since audience has
    | inr new =>
      rw [List.mem_singleton.mp new] at has
      cases has
  | advance i input =>
    cases here : s.procs[i]? with
    | none => simpa only [NormalizedStore.step, Processes.step, here] using knows.delivers
    | some p =>
      simp only [Meets, here, true_and] at meets
      simp only [NormalizedStore.step, Processes.step, here]
      intro q member since audience has
      obtain rfl | other := Processes.mem_set_or_others here member
      · obtain same | ⟨delta, holdsPosts, since', rfl, settled⟩ := advance_audience s.shared p
        · rw [same] at has
          exact knows.delivers p (List.mem_of_getElem? here) since audience has
        · rw [settled] at has
          cases has
          exact (takes_iff knows here).mpr meets
      · exact knows.delivers q (List.mem_of_mem_eraseIdx other) since audience has

variable (users : Table String UserEntity) (posts : Table String PostEntity)

theorem kept_start : Kept (start users posts) := .refl _

def alice : UserEntity := ⟨"pk1", some "alice", none, none, 1000⟩
def bob : UserEntity := ⟨"pk2", some "bob", none, none, 1000⟩

/-- One subscriber; the second change comes while the first one tells it. -/
def overlapping : List (Move Call Unit) :=
  [.call .subscribe, .advance 0 (), .advance 0 (), .call (.upsertUser alice), .advance 1 (), .advance 1 (), .advance 1 (),
    .call (.upsertUser bob), .advance 2 (), .advance 2 (), .advance 2 (), .advance 2 (), .advance 1 (), .advance 1 ()]

end Soshal.Common.NormalizedStore
