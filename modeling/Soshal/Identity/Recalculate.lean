import Soshal.Identity.WotPeers
import Soshal.Library.Fallible
import Soshal.Library.Text

/-! Distances and trust in the web of trust, calculated anew for all users.

This search and the one for the peers at a distance are two copies of one walk, which
takes at most as many keys from its queue as there are users. Under the limits on
contacts both find the same: the keys that the own row names are at distance one, and
those in the rows of the first so many of these keys at distance two.
-/

set_option autoImplicit false

namespace Soshal.Identity

open Library
open Library.Text (toAsciiLowercase)

namespace Recalculate

def maxContacts : Nat := 5000
def maxEdges : Nat := 500000
def maxIntroducers : Nat := 64

def contactMap : List WotUser → Nat → Table String (List String) → Table String (List String) :=
  limitedMap maxContacts maxEdges

structure Walk where
  distances : Table String Nat
  introducedBy : Table String (List String)
  queue : List (String × Nat)

variable (selfPubkey : String) (selfContacts : List String)

/-- The introducers of a contact once more, with the key that is walked from. -/
def introduce (current contact : String) (introducers : List String) : List String :=
  if introducers.length < maxIntroducers ∧ (current ≠ selfPubkey ∨ contact ∈ selfContacts) ∧ current ∉ introducers then
    introducers ++ [current]
  else introducers

def visit (current : String) (newDist : Nat) (w : Walk) (contact : String) : Walk :=
  let introduced := introduce selfPubkey selfContacts current contact
  match w.distances.find? contact with
  | some existing =>
    if newDist > existing then w
    else { w with introducedBy := w.introducedBy.upsert contact (introduced []) introduced }
  | none =>
    { distances := w.distances.upsert contact newDist fun _ => newDist
      introducedBy := w.introducedBy.upsert contact (introduced []) introduced
      queue := if newDist < 2 then w.queue ++ [(contact, newDist)] else w.queue }

/-- The walk, for as many keys as may still be taken from the queue. -/
def walk (contacts : Table String (List String)) : Nat → Walk → Walk
  | 0, w => w
  | left + 1, w =>
    match w.queue with
    | [] => w
    | (current, currentDist) :: queue =>
      match contacts.find? current with
      | none => walk contacts left { w with queue := queue }
      | some list =>
        walk contacts left
          (list.foldl (visit selfPubkey selfContacts current (min (currentDist + 1) 3)) { w with queue := queue })

end Recalculate

def calculateTrustScore (distance mutualCount introducerCount : Nat) : Float :=
  if distance = 0 then 1.0
  else
    let score : Float :=
      match distance with
      | 1 => 0.6 + min (mutualCount.toFloat * 0.05) 0.3 + min (introducerCount.toFloat * 0.05) 0.1
      | 2 => 0.3 + min (mutualCount.toFloat * 0.03) 0.2
      | _ => 0.1
    max 0.0 (min score 1.0)

structure WotUpdate where
  pubkey : String
  distance : Nat
  trustScore : Float
  introducedBy : Option (List String)

/-- What the score of a user is calculated from. -/
@[ext]
structure Standing where
  distance : Nat
  mutualCount : Nat
  introducerCount : Nat
  deriving DecidableEq

def Standing.score (standing : Standing) : Float :=
  calculateTrustScore standing.distance standing.mutualCount standing.introducerCount

section Users

variable (selfPubkey : String) (users : List WotUser)

def selfContacts : List String := ((Recalculate.contactMap users 0 .empty).find? selfPubkey).getD []

def recalculateWalk : Recalculate.Walk :=
  Recalculate.walk selfPubkey (selfContacts selfPubkey users) (Recalculate.contactMap users 0 .empty) (min users.length 10000)
    ⟨Table.empty.upsert selfPubkey 0 id, Table.empty.upsert selfPubkey [] id, [(selfPubkey, 0)]⟩

def standing (user : WotUser) : Standing where
  distance := ((recalculateWalk selfPubkey users).distances.find? user.pubkey).getD 3
  mutualCount := (user.contacts.filter fun c => decide (c ∈ selfContacts selfPubkey users)).length
  introducerCount := (((recalculateWalk selfPubkey users).introducedBy.find? user.pubkey).map List.length).getD 0

def recalculateWot : List WotUpdate :=
  users.map fun user =>
    { pubkey := user.pubkey
      distance := (standing selfPubkey users user).distance
      trustScore := (standing selfPubkey users user).score
      introducedBy := ((recalculateWalk selfPubkey users).introducedBy.find? user.pubkey).filter fun s => !s.isEmpty }

end Users

def countMutual (contactsA contactsB : List String) : Nat :=
  if contactsA.isEmpty ∨ contactsB.isEmpty then 0
  else
    let setA := contactsA.map toAsciiLowercase
    (contactsB.foldl (fun (seenB, count) b =>
      let bLower := toAsciiLowercase b
      if bLower ∈ seenB then (seenB, count)
      else (bLower :: seenB, if bLower ∈ setA then count + 1 else count)) (([] : List String), 0)).2

/-- No contact list and no number of all contacts is above these limits. -/
def Within (contacts edges : Nat) (users : List WotUser) : Prop :=
  (∀ user ∈ users, user.contacts.length ≤ contacts) ∧ (users.map fun user => user.contacts.length).sum < edges

instance (contacts edges : Nat) (users : List WotUser) : Decidable (Within contacts edges users) :=
  inferInstanceAs (Decidable (_ ∧ _))

def rowOf (users : List WotUser) (key : String) : Option (List String) :=
  (users.reverse.find? fun user => user.pubkey = key).map WotUser.contacts

theorem rowOf_cons (user : WotUser) (rest : List WotUser) (key : String) :
    rowOf (user :: rest) key = (rowOf rest key).or (if user.pubkey = key then some user.contacts else none) := by
  rw [rowOf, List.reverse_cons, List.find?_append, rowOf]
  cases rest.reverse.find? fun user => decide (user.pubkey = key) with
  | some later => rfl
  | none => by_cases mine : user.pubkey = key <;> simp [mine]

theorem find?_limitedMap {maxContacts maxEdges total : Nat} {users : List WotUser} {map : Table String (List String)}
    (short : ∀ user ∈ users, user.contacts.length ≤ maxContacts)
    (few : total + (users.map fun user => user.contacts.length).sum < maxEdges) (key : String) :
    (limitedMap maxContacts maxEdges users total map).find? key = (rowOf users key).or (map.find? key) := by
  induction users generalizing total map with
  | nil => rfl
  | cons user rest ih =>
    rw [List.map_cons, List.sum_cons] at few
    have whole : user.contacts.take maxContacts = user.contacts :=
      List.take_of_length_le (short user List.mem_cons_self)
    rw [limitedMap, if_neg (by omega)]
    dsimp only
    rw [whole, ih (fun other member => short other (List.mem_cons_of_mem _ member)) (by omega), rowOf_cons]
    cases rowOf rest key with
    | some later => rfl
    | none =>
      rw [Option.none_or, Option.none_or]
      by_cases mine : user.pubkey = key
      · rw [if_pos mine, ← mine, Table.find?_upsert_replace, Option.some_or]
      · rw [if_neg mine, Table.find?_upsert_of_ne _ _ _ (Ne.symm mine), Option.none_or]

/-- The keys that a key names in its row, other than itself, each once. -/
def directs (selfPubkey : String) (users : List WotUser) : List String :=
  (((rowOf users selfPubkey).getD []).filter fun c => decide (c ≠ selfPubkey)).eraseDups

def walkedFrom (selfPubkey : String) (users : List WotUser) : List String :=
  (directs selfPubkey users).take (min users.length 10000 - 1)

def contactsOf (contacts : Table String (List String)) (key : String) : List String := (contacts.find? key).getD []

theorem find?_visit (newDist : Nat) (state : Table String Nat × List (String × Nat)) (contact v : String) :
    (visit newDist state contact).1.find? v = (state.1.find? v).or (if v = contact then some newDist else none) := by
  unfold visit
  cases known : state.1.find? contact with
  | some n =>
    by_cases same : v = contact
    · rw [same, known, Option.some_or]
    · rw [if_neg same, Option.or_none]
  | none =>
    by_cases same : v = contact
    · rw [if_pos same, same, known, Table.find?_upsert_replace, Option.none_or]
    · rw [if_neg same, Option.or_none, Table.find?_upsert_of_ne _ _ _ same]

theorem find?_visit_foldl (newDist : Nat) (list : List String) (state : Table String Nat × List (String × Nat))
    (v : String) :
    (list.foldl (visit newDist) state).1.find? v = (state.1.find? v).or (if v ∈ list then some newDist else none) := by
  induction list generalizing state with
  | nil => simp
  | cons contact rest ih =>
    rw [List.foldl_cons, ih, find?_visit, Option.or_assoc]
    by_cases first : v = contact
    · simp [first]
    · simp [first]

theorem queue_visit_foldl {newDist : Nat} (far : 2 ≤ newDist) (list : List String)
    (state : Table String Nat × List (String × Nat)) : (list.foldl (visit newDist) state).2 = state.2 := by
  refine Fallible.foldl_keeps (P := fun s : Table String Nat × List (String × Nat) => s.2 = state.2)
    (fun contact _ s same => ?_) rfl
  unfold visit
  split
  · exact same
  · rw [if_neg (Nat.not_lt.mpr far)]
    exact same

theorem queue_visit_foldl_one (list : List String) (state : Table String Nat × List (String × Nat)) :
    (list.foldl (visit 1) state).2 =
      state.2 ++ ((list.filter fun c => (state.1.find? c).isNone).eraseDups.map fun c => (c, 1)) := by
  induction list generalizing state with
  | nil => simp
  | cons contact rest ih =>
    rw [List.foldl_cons, ih, List.filter_cons]
    cases known : state.1.find? contact with
    | some n =>
      have same : visit 1 state contact = state := by simp [visit, known]
      rw [same]
      rfl
    | none =>
      have queued : (visit 1 state contact).2 = state.2 ++ [(contact, 1)] := by simp [visit, known]
      have later : (rest.filter fun c => ((visit 1 state contact).1.find? c).isNone) =
          (rest.filter fun c => (state.1.find? c).isNone).filter fun c => !c == contact := by
        rw [List.filter_filter]
        refine List.filter_congr fun c _ => ?_
        rw [find?_visit]
        by_cases mine : c = contact
        · simp [mine, known]
        · simp [mine]
      rw [queued, later]
      simp [List.eraseDups_cons]

theorem find?_walk_directs (contacts : Table String (List String)) (left : Nat) (distances : Table String Nat)
    (list : List String) (v : String) : (walk contacts left distances (list.map fun c => (c, 1))).find? v =
      (distances.find? v).or (if ∃ c ∈ list.take left, v ∈ contactsOf contacts c then some 2 else none) := by
  induction list generalizing left distances with
  | nil => cases left <;> simp [walk]
  | cons c rest ih =>
    cases left with
    | zero => simp [walk]
    | succ left =>
      rw [List.map_cons, walk, List.take_succ_cons]
      cases found : contacts.find? c with
      | none =>
        have unlisted : contactsOf contacts c = [] := by rw [contactsOf, found, Option.getD_none]
        dsimp only
        rw [ih]
        simp [unlisted]
      | some row =>
        have kept := @queue_visit_foldl 2 (Nat.le_refl 2) row (distances, rest.map fun c => (c, 1))
        have met := find?_visit_foldl 2 row (distances, rest.map fun c => (c, 1)) v
        dsimp only at kept met ⊢
        rw [show min (1 + 1) 3 = 2 from rfl, kept, ih, met, Option.or_assoc]
        have own : contactsOf contacts c = row := by rw [contactsOf, found, Option.getD_some]
        by_cases here : v ∈ row
        · simp [own, here]
        · simp [own, here]

def walkedDistance (selfPubkey : String) (users : List WotUser) (v : String) : Nat :=
  if v = selfPubkey then 0
  else if v ∈ directs selfPubkey users then 1
  else if ∃ c ∈ walkedFrom selfPubkey users, v ∈ (rowOf users c).getD [] then 2
  else 3

theorem find?_start (selfPubkey c : String) :
    (Table.empty.upsert selfPubkey 0 id).find? c = if c = selfPubkey then some 0 else none := by
  rw [Table.find?_upsert, Table.find?_empty]
  rfl

theorem mem_directs_of_row {selfPubkey : String} {users : List WotUser} {row : List String}
    (own : rowOf users selfPubkey = some row) {v : String} :
    v ∈ directs selfPubkey users ↔ v ∈ row ∧ v ≠ selfPubkey := by
  rw [directs, own, Option.getD_some, List.mem_eraseDups, List.mem_filter, decide_eq_true_iff]

theorem queue_of_row {selfPubkey : String} {users : List WotUser} {row : List String}
    (own : rowOf users selfPubkey = some row) :
    (row.foldl (visit 1) (Table.empty.upsert selfPubkey 0 id, [])).2 = (directs selfPubkey users).map fun c => (c, 1) := by
  rw [queue_visit_foldl_one, List.nil_append, directs, own, Option.getD_some]
  congr 2
  refine List.filter_congr fun c _ => ?_
  rw [find?_start]
  by_cases same : c = selfPubkey <;> simp [same]

theorem walk_distance {contacts : Table String (List String)} {users : List WotUser}
    (rows : ∀ key, contacts.find? key = rowOf users key) (someone : users ≠ []) (selfPubkey v : String) :
    ((walk contacts (min users.length 10000) (Table.empty.upsert selfPubkey 0 id) [(selfPubkey, 0)]).find? v).getD 3 =
      walkedDistance selfPubkey users v := by
  obtain ⟨left, budget⟩ : ∃ left, min users.length 10000 = left + 1 :=
    Nat.exists_eq_add_one.mpr (by have := List.length_pos_iff.mpr someone; omega)
  have nobody : ∀ c, contactsOf contacts c = (rowOf users c).getD [] := fun c => by rw [contactsOf, rows]
  rw [walkedDistance, walkedFrom, budget, Nat.add_sub_cancel, walk, rows]
  cases own : rowOf users selfPubkey with
  | none =>
    have ends : walk contacts left (Table.empty.upsert selfPubkey 0 id) [] = Table.empty.upsert selfPubkey 0 id := by
      cases left <;> rfl
    dsimp only
    rw [ends, find?_start]
    by_cases same : v = selfPubkey
    · simp [same]
    · simp [same, directs, own]
  | some row =>
    have met := find?_visit_foldl 1 row (Table.empty.upsert selfPubkey 0 id, []) v
    dsimp only at met ⊢
    rw [show min (0 + 1) 3 = 1 from rfl, queue_of_row own, find?_walk_directs, met, find?_start]
    simp only [nobody, mem_directs_of_row own]
    by_cases same : v = selfPubkey
    · simp [same]
    · by_cases direct : v ∈ row
      · simp [same, direct]
      · simp only [same, direct, if_false, Option.none_or, false_and]
        split <;> rfl

namespace Recalculate

theorem visit_distances (selfPubkey : String) (sc : List String) (current : String) (newDist : Nat) (w : Walk)
    (contact : String) :
    ((visit selfPubkey sc current newDist w contact).distances, (visit selfPubkey sc current newDist w contact).queue) =
      Identity.visit newDist (w.distances, w.queue) contact := by
  unfold visit Identity.visit
  cases w.distances.find? contact with
  | none => rfl
  | some existing =>
    dsimp only
    split <;> rfl

theorem visit_foldl_distances (selfPubkey : String) (sc : List String) (current : String) (newDist : Nat)
    (list : List String) (w : Walk) : ((list.foldl (visit selfPubkey sc current newDist) w).distances,
      (list.foldl (visit selfPubkey sc current newDist) w).queue) =
        list.foldl (Identity.visit newDist) (w.distances, w.queue) := by
  induction list generalizing w with
  | nil => rfl
  | cons contact rest ih => rw [List.foldl_cons, List.foldl_cons, ih, visit_distances]

theorem walk_distances (selfPubkey : String) (sc : List String) (contacts : Table String (List String)) (left : Nat)
    (w : Walk) :
    (walk selfPubkey sc contacts left w).distances = Identity.walk contacts left w.distances w.queue := by
  induction left generalizing w with
  | zero => rfl
  | succ left ih =>
    obtain ⟨distances, introducedBy, queue⟩ := w
    cases queue with
    | nil => rfl
    | cons head queue =>
      obtain ⟨current, currentDist⟩ := head
      unfold walk Identity.walk
      dsimp only
      cases contacts.find? current with
      | none => exact ih _
      | some list =>
        have projected := visit_foldl_distances selfPubkey sc current (min (currentDist + 1) 3) list
          ⟨distances, introducedBy, queue⟩
        dsimp only at projected ⊢
        rw [ih, ← projected]

end Recalculate

end Soshal.Identity
