import Soshal.Identity.WotDistances

/-! What the trust score of a user is calculated from.

A repeated contact changes nothing in the walk, as long as it changes nothing in the
order of the keys that are walked from. The count of mutual contacts does count it
again, unlike the function that the module has for this count.
-/

set_option autoImplicit false

namespace Soshal.Identity

open Library
open Library.Text (toAsciiLowercase)

theorem nodup_eraseDups (xs : List String) : xs.eraseDups.Nodup := by
  induction h : xs.length using Nat.strong_induction_on generalizing xs with
  | _ n ih =>
    cases xs with
    | nil => simp
    | cons x rest =>
      subst h
      rw [List.eraseDups_cons, List.nodup_cons]
      refine ⟨by simp [List.mem_eraseDups], ih _ ?_ _ rfl⟩
      exact Nat.lt_succ_of_le (List.length_filter_le _ rest)

theorem nodup_directs (selfPubkey : String) (users : List WotUser) : (directs selfPubkey users).Nodup :=
  nodup_eraseDups _

/-- The keys that are walked from and name a key in their row. -/
def introducers (selfPubkey : String) (users : List WotUser) (v : String) : List String :=
  (walkedFrom selfPubkey users).filter fun c => decide (v ∈ (rowOf users c).getD [])

namespace Recalculate

variable {selfPubkey current : String} {sc : List String} {newDist : Nat}

def Walk.introducers (w : Walk) (v : String) : List String := (w.introducedBy.find? v).getD []

def Walk.Open (w : Walk) (newDist : Nat) (v : String) : Prop :=
  ∀ existing, w.distances.find? v = some existing → newDist ≤ existing

theorem introduce_introduce (v : String) (list : List String) :
    introduce selfPubkey sc current v (introduce selfPubkey sc current v list) = introduce selfPubkey sc current v list := by
  by_cases joins : list.length < maxIntroducers ∧ (current ≠ selfPubkey ∨ v ∈ sc) ∧ current ∉ list
  · have joined : introduce selfPubkey sc current v list = list ++ [current] := if_pos joins
    rw [joined, introduce, if_neg]
    exact fun again => again.2.2 (by simp)
  · have stays : introduce selfPubkey sc current v list = list := if_neg joins
    rw [stays, stays]

theorem find?_distances_visit (w : Walk) (contact v : String) :
    (visit selfPubkey sc current newDist w contact).distances.find? v =
      (w.distances.find? v).or (if v = contact then some newDist else none) := by
  have projected := congrArg Prod.fst (visit_distances selfPubkey sc current newDist w contact)
  dsimp only at projected
  rw [projected, find?_visit]

theorem open_visit {w : Walk} {contact v : String} :
    (visit selfPubkey sc current newDist w contact).Open newDist v ↔ w.Open newDist v := by
  unfold Walk.Open
  rw [find?_distances_visit]
  cases w.distances.find? v with
  | some existing => simp
  | none => by_cases same : v = contact <;> simp [same]

open Classical in
theorem introducers_visit (w : Walk) (contact v : String) :
    (visit selfPubkey sc current newDist w contact).introducers v =
      if v = contact ∧ w.Open newDist v then introduce selfPubkey sc current v (w.introducers v) else w.introducers v := by
  have upserted : ((w.introducedBy.upsert contact (introduce selfPubkey sc current contact [])
      (introduce selfPubkey sc current contact)).find? v).getD [] =
        if v = contact then introduce selfPubkey sc current v (w.introducers v) else w.introducers v := by
    by_cases same : v = contact
    · rw [if_pos same, same, Table.find?_upsert_self, Option.getD_some, Walk.introducers]
      cases w.introducedBy.find? contact <;> rfl
    · rw [if_neg same, Table.find?_upsert_of_ne _ _ _ same, Walk.introducers]
  unfold visit
  cases known : w.distances.find? contact with
  | none =>
    dsimp only
    rw [Walk.introducers, upserted]
    by_cases same : v = contact
    · have opened : w.Open newDist v := fun existing found => by rw [same, known] at found; cases found
      rw [if_pos same, if_pos ⟨same, opened⟩]
    · rw [if_neg same, if_neg fun both => same both.1]
  | some existing =>
    dsimp only
    split
    · rename_i nearer
      rw [if_neg]
      rintro ⟨rfl, opened⟩
      exact absurd (opened existing known) (Nat.not_le.mpr nearer)
    · rename_i far
      rw [Walk.introducers, upserted]
      by_cases same : v = contact
      · have opened : w.Open newDist v := fun e found => by
          rw [same, known] at found
          cases found
          exact Nat.not_lt.mp far
        rw [if_pos same, if_pos ⟨same, opened⟩]
      · rw [if_neg same, if_neg fun both => same both.1]

open Classical in
theorem introducers_foldl (list : List String) (w : Walk) (v : String) :
    (list.foldl (visit selfPubkey sc current newDist) w).introducers v =
      if v ∈ list ∧ w.Open newDist v then introduce selfPubkey sc current v (w.introducers v) else w.introducers v := by
  induction list generalizing w with
  | nil => simp
  | cons contact rest ih =>
    rw [List.foldl_cons, ih, introducers_visit, open_visit]
    by_cases opened : w.Open newDist v
    · by_cases first : v = contact
      · subst first
        by_cases again : v ∈ rest <;> simp [opened, again, introduce_introduce]
      · simp [opened, first]
    · simp [opened]

theorem queue_foldl {w : Walk} (far : 2 ≤ newDist) (list : List String) :
    (list.foldl (visit selfPubkey sc current newDist) w).queue = w.queue := by
  have projected := congrArg Prod.snd (visit_foldl_distances selfPubkey sc current newDist list w)
  rw [queue_visit_foldl far] at projected
  exact projected

theorem find?_distances_foldl (list : List String) (w : Walk) (v : String) :
    (list.foldl (visit selfPubkey sc current newDist) w).distances.find? v =
      (w.distances.find? v).or (if v ∈ list then some newDist else none) := by
  have projected := congrArg Prod.fst (visit_foldl_distances selfPubkey sc current newDist list w)
  dsimp only at projected
  rw [projected, find?_visit_foldl]

theorem open_foldl {list : List String} {w : Walk} {v : String} :
    (list.foldl (visit selfPubkey sc current newDist) w).Open newDist v ↔ w.Open newDist v := by
  unfold Walk.Open
  rw [find?_distances_foldl]
  cases w.distances.find? v with
  | some existing => simp
  | none => by_cases named : v ∈ list <;> simp [named]

section Walked

variable {contacts : Table String (List String)} {w : Walk} {queue : List (String × Nat)} {dist : Nat} {v : String}

theorem walk_none (left : Nat) (taken : w.queue = (current, dist) :: queue) (found : contacts.find? current = none) :
    walk selfPubkey sc contacts (left + 1) w = walk selfPubkey sc contacts left { w with queue := queue } := by
  rw [walk, taken]
  dsimp only
  rw [found]

theorem walk_some (left : Nat) (taken : w.queue = (current, dist) :: queue) {row : List String}
    (found : contacts.find? current = some row) : walk selfPubkey sc contacts (left + 1) w =
      walk selfPubkey sc contacts left
        (row.foldl (visit selfPubkey sc current (min (dist + 1) 3)) { w with queue := queue }) := by
  rw [walk, taken]
  dsimp only
  rw [found]

theorem walk_nil (left : Nat) (ended : w.queue = []) : walk selfPubkey sc contacts left w = w := by
  cases left with
  | zero => rfl
  | succ left => rw [walk, ended]

theorem introducers_walk_of_near (list : List String) (left : Nat) (queued : w.queue = list.map fun c => (c, 1))
    (near : ¬ w.Open 2 v) : (walk selfPubkey sc contacts left w).introducers v = w.introducers v := by
  induction left generalizing list w with
  | zero => rfl
  | succ left ih =>
    cases list with
    | nil => rw [walk_nil _ queued]
    | cons c rest =>
      cases found : contacts.find? c with
      | none =>
        rw [walk_none left queued found]
        exact @ih { w with queue := rest.map fun c => (c, 1) } rest rfl near
      | some row =>
        have kept :=
          @queue_foldl selfPubkey c sc 2 { w with queue := rest.map fun c => (c, 1) } (Nat.le_refl 2) row
        have still := @open_foldl selfPubkey c sc 2 row { w with queue := rest.map fun c => (c, 1) } v
        rw [walk_some left queued found, show min (1 + 1) 3 = 2 from rfl,
          ih rest kept (fun opened => near (still.mp opened)), introducers_foldl, if_neg fun both => near both.2]
        rfl

/-- Each key that is walked from and names a key introduces it, until there are as many as are kept. -/
theorem introducers_walk (list : List String) (left : Nat) (queued : w.queue = list.map fun c => (c, 1))
    (distinct : list.Nodup) (others : selfPubkey ∉ list) (opened : w.Open 2 v) (fresh : ∀ c ∈ list, c ∉ w.introducers v)
    (most : (w.introducers v).length ≤ maxIntroducers) :
    (walk selfPubkey sc contacts left w).introducers v =
      (w.introducers v ++ (list.take left).filter fun c => decide (v ∈ contactsOf contacts c)).take maxIntroducers := by
  induction left generalizing list w with
  | zero => simp [walk, List.take_of_length_le most]
  | succ left ih =>
    cases list with
    | nil => rw [walk_nil _ queued, List.take_nil, List.filter_nil, List.append_nil, List.take_of_length_le most]
    | cons c rest =>
      obtain ⟨notAgain, distinct⟩ := List.nodup_cons.mp distinct
      have others' : selfPubkey ∉ rest := fun member => others (List.mem_cons_of_mem _ member)
      have fresh' : ∀ c ∈ rest, c ∉ w.introducers v := fun c member => fresh c (List.mem_cons_of_mem _ member)
      rw [List.take_succ_cons]
      cases found : contacts.find? c with
      | none =>
        have unlisted : v ∉ contactsOf contacts c := by simp [contactsOf, found]
        rw [walk_none left queued found, List.filter_cons_of_neg (by simpa using unlisted)]
        exact @ih { w with queue := rest.map fun c => (c, 1) } rest rfl distinct others' opened fresh' most
      | some row =>
        have own : contactsOf contacts c = row := by rw [contactsOf, found, Option.getD_some]
        have kept :=
          @queue_foldl selfPubkey c sc 2 { w with queue := rest.map fun c => (c, 1) } (Nat.le_refl 2) row
        have before := @introducers_foldl selfPubkey c sc 2 row { w with queue := rest.map fun c => (c, 1) } v
        rw [walk_some left queued found, show min (1 + 1) 3 = 2 from rfl]
        by_cases names : v ∈ row ∧ (w.introducers v).length < maxIntroducers
        · have now : (row.foldl (visit selfPubkey sc c 2) { w with queue := rest.map fun c => (c, 1) }).introducers v =
              w.introducers v ++ [c] := by
            refine (before.trans (if_pos ⟨names.1, opened⟩)).trans (if_pos ⟨names.2, ?_, fresh c List.mem_cons_self⟩)
            exact .inl fun self => others (self ▸ List.mem_cons_self)
          rw [ih rest kept distinct others' (open_foldl.mpr opened), now,
            List.filter_cons_of_pos (by simpa [own] using names.1), List.append_assoc, List.singleton_append]
          · intro c' member
            rw [now, List.mem_append, List.mem_singleton, not_or]
            exact ⟨fresh' c' member, fun same => notAgain (same ▸ member)⟩
          · rw [now, List.length_append, List.length_singleton]
            exact names.2
        · have now : (row.foldl (visit selfPubkey sc c 2) { w with queue := rest.map fun c => (c, 1) }).introducers v =
              w.introducers v := by
            rw [before]
            split
            · rename_i both
              exact if_neg fun joins => names ⟨both.1, joins.1⟩
            · rfl
          rw [ih rest kept distinct others' (open_foldl.mpr opened)
            (by rwa [now]) (by rwa [now]), now]
          by_cases listedHere : v ∈ row
          · -- The list is full, and what comes after makes no difference.
            have full : (w.introducers v).length = maxIntroducers :=
              Nat.le_antisymm most (Nat.not_lt.mp fun less => names ⟨listedHere, less⟩)
            rw [List.take_left' full, List.take_left' full]
          · rw [List.filter_cons_of_neg (by simpa [own] using listedHere)]

end Walked

end Recalculate

variable {selfPubkey : String} {users : List WotUser}

theorem selfContacts_eq (within : Within Recalculate.maxContacts Recalculate.maxEdges users) :
    selfContacts selfPubkey users = (rowOf users selfPubkey).getD [] := by
  rw [selfContacts, find?_recalculate within]

section OwnRow

open Recalculate

def Recalculate.Walk.start (selfPubkey : String) : Walk :=
  ⟨Table.empty.upsert selfPubkey 0 id, Table.empty.upsert selfPubkey [] id, []⟩

theorem introducers_start (v : String) : (Walk.start selfPubkey).introducers v = [] := by
  rw [Walk.introducers, Walk.start]
  dsimp only
  rw [Table.find?_upsert, Table.find?_empty]
  split <;> rfl

theorem open_start {v : String} : (Walk.start selfPubkey).Open 1 v ↔ v ≠ selfPubkey := by
  rw [Walk.Open, Walk.start]
  dsimp only
  rw [find?_start]
  by_cases same : v = selfPubkey <;> simp [same]

variable {row : List String}

def ownWalk (selfPubkey : String) (row : List String) : Walk :=
  row.foldl (Recalculate.visit selfPubkey row selfPubkey 1) (Walk.start selfPubkey)

theorem queue_ownWalk (own : rowOf users selfPubkey = some row) :
    (ownWalk selfPubkey row).queue = (directs selfPubkey users).map fun c => (c, 1) :=
  (congrArg Prod.snd (visit_foldl_distances selfPubkey row selfPubkey 1 row (Walk.start selfPubkey))).trans (queue_of_row own)

theorem find?_ownWalk (v : String) : (ownWalk selfPubkey row).distances.find? v =
    (if v = selfPubkey then some 0 else none).or (if v ∈ row then some 1 else none) := by
  rw [ownWalk, find?_distances_foldl, Walk.start, find?_start]

theorem introducers_ownWalk (v : String) : (ownWalk selfPubkey row).introducers v =
    if v ∈ row ∧ v ≠ selfPubkey then [selfPubkey] else [] := by
  rw [ownWalk, introducers_foldl, introducers_start, open_start]
  split
  · rename_i named
    exact if_pos ⟨by decide, .inr named.1, List.not_mem_nil⟩
  · rfl

theorem introducers_recalculateWalk (within : Within Recalculate.maxContacts Recalculate.maxEdges users)
    (someone : users ≠ []) (v : String) : (recalculateWalk selfPubkey users).introducers v =
      if v = selfPubkey then [] else if v ∈ directs selfPubkey users then [selfPubkey]
      else (Identity.introducers selfPubkey users v).take maxIntroducers := by
  have rows := find?_recalculate within
  obtain ⟨left, budget⟩ : ∃ left, min users.length 10000 = left + 1 :=
    Nat.exists_eq_add_one.mpr (by have := List.length_pos_iff.mpr someone; omega)
  rw [recalculateWalk, budget, selfContacts_eq within, Identity.introducers, walkedFrom, budget, Nat.add_sub_cancel]
  cases own : rowOf users selfPubkey with
  | none =>
    rw [walk_none left rfl (by rw [rows, own]), walk_nil left rfl]
    have nobody := @introducers_start selfPubkey v
    rw [Walk.start] at nobody
    simp [nobody, directs, own]
  | some row =>
    rw [walk_some left rfl (by rw [rows, own]), show min (0 + 1) 3 = 1 from rfl, Option.getD_some]
    change (Recalculate.walk selfPubkey row _ left (ownWalk selfPubkey row)).introducers v = _
    have queued := queue_ownWalk own
    have met := @find?_ownWalk selfPubkey row v
    have introduced := @introducers_ownWalk selfPubkey row v
    by_cases same : v = selfPubkey
    · have near : ¬ (ownWalk selfPubkey row).Open 2 v :=
        fun opened => absurd (opened 0 (by rw [met, if_pos same]; rfl)) (by decide)
      rw [introducers_walk_of_near _ left queued near, introduced, if_neg fun both => both.2 same, if_pos same]
    · rw [if_neg same]
      by_cases direct : v ∈ directs selfPubkey users
      · have named := (mem_directs_of_row own).mp direct
        have near : ¬ (ownWalk selfPubkey row).Open 2 v := fun opened =>
          absurd (opened 1 (by rw [met, if_neg same, if_pos named.1]; rfl)) (by decide)
        rw [introducers_walk_of_near _ left queued near, introduced, if_pos named, if_pos direct]
      · -- The key is new to the rows that are walked from, and each of them that names it introduces it.
        have unnamed : v ∉ row := fun member => direct ((mem_directs_of_row own).mpr ⟨member, same⟩)
        rw [if_neg fun both => unnamed both.1] at introduced
        have opened : (ownWalk selfPubkey row).Open 2 v := fun e found => by
          rw [met, if_neg same, if_neg unnamed] at found
          cases found
        have others : selfPubkey ∉ directs selfPubkey users :=
          fun member => ((mem_directs_of_row own).mp member).2 rfl
        rw [introducers_walk _ left queued (nodup_directs selfPubkey users) others opened (by simp [introduced])
          (by simp [introduced]), introduced, if_neg direct, List.nil_append]
        simp only [contactsOf, rows]

end OwnRow

open Recalculate in
/-- The introducers that are counted: the own key for a key that it names itself, and else those that were walked from. -/
theorem standing_introducers (within : Within Recalculate.maxContacts Recalculate.maxEdges users) {user : WotUser}
    (member : user ∈ users) : (standing selfPubkey users user).introducerCount =
      if user.pubkey = selfPubkey then 0 else if user.pubkey ∈ directs selfPubkey users then 1
      else min maxIntroducers (Identity.introducers selfPubkey users user.pubkey).length := by
  have counted : (standing selfPubkey users user).introducerCount =
      ((recalculateWalk selfPubkey users).introducers user.pubkey).length := by
    rw [standing, Walk.introducers]
    cases (recalculateWalk selfPubkey users).introducedBy.find? user.pubkey <;> rfl
  rw [counted, introducers_recalculateWalk within (List.ne_nil_of_mem member)]
  split
  · rfl
  · split
    · rfl
    · exact List.length_take

/-- The keys that two lists share, in lower case and each once. -/
def shared (followed contacts : List String) : List String :=
  (contacts.map toAsciiLowercase).eraseDups.filter fun v => decide (v ∈ followed.map toAsciiLowercase)

/-- How often a list holds a key, in a spelling that is followed. -/
def copies (followed contacts : List String) (v : String) : Nat :=
  (contacts.filter fun c => decide (c ∈ followed ∧ toAsciiLowercase c = v)).length

/-- As many shared keys stand in the list too often as are followed only in another spelling. -/
def Balanced (followed contacts : List String) : Prop :=
  ((shared followed contacts).map (copies followed contacts)).sum = (shared followed contacts).length

instance (followed contacts : List String) : Decidable (Balanced followed contacts) := inferInstanceAs (Decidable (_ = _))

theorem length_eq_sum_filter {values list : List String} {f : String → String} (distinct : values.Nodup)
    (covers : ∀ c ∈ list, f c ∈ values) :
    list.length = (values.map fun v => (list.filter fun c => decide (f c = v)).length).sum := by
  induction list with
  | nil => simp
  | cons c rest ih =>
    have one : ∀ v, (List.filter (fun c => decide (f c = v)) (c :: rest)).length =
        (if f c = v then 1 else 0) + (rest.filter fun c => decide (f c = v)).length := by
      intro v
      rw [List.filter_cons]
      by_cases same : f c = v <;> simp [same, Nat.add_comm]
    simp only [one]
    rw [List.sum_map_add, ← ih fun c member => covers c (List.mem_cons_of_mem _ member), List.length_cons]
    rw [List.sum_map_eq_nsmul_single (f c) _ fun v other _ => if_neg (Ne.symm other), if_pos rfl,
      List.count_eq_one_of_mem distinct (covers c List.mem_cons_self), one_nsmul, Nat.add_comm]

theorem mem_shared {followed contacts : List String} {v : String} :
    v ∈ shared followed contacts ↔ v ∈ contacts.map toAsciiLowercase ∧ v ∈ followed.map toAsciiLowercase := by
  rw [shared, List.mem_filter, List.mem_eraseDups, decide_eq_true_iff]

theorem nodup_shared (followed contacts : List String) :
    (shared followed contacts).Nodup := (nodup_eraseDups _).filter _

theorem countMutual_foldl (setA contactsB seen : List String) (count : Nat) :
    (contactsB.foldl (fun (seenB, count) b =>
      let bLower := toAsciiLowercase b
      if bLower ∈ seenB then (seenB, count)
      else (bLower :: seenB, if bLower ∈ setA then count + 1 else count)) (seen, count)).2 =
      count + (((contactsB.map toAsciiLowercase).filter fun v => decide (v ∉ seen)).eraseDups.filter
        fun v => decide (v ∈ setA)).length := by
  induction contactsB generalizing seen count with
  | nil => simp
  | cons b rest ih =>
    rw [List.foldl_cons, List.map_cons]
    by_cases known : toAsciiLowercase b ∈ seen
    · dsimp only
      rw [if_pos known, ih, List.filter_cons_of_neg (by simpa using known)]
    · dsimp only
      have later : ((rest.map toAsciiLowercase).filter fun v => decide (v ∉ toAsciiLowercase b :: seen)) =
          ((rest.map toAsciiLowercase).filter fun v => decide (v ∉ seen)).filter fun v => !v == toAsciiLowercase b := by
        rw [List.filter_filter]
        refine List.filter_congr fun v _ => ?_
        by_cases same : v = toAsciiLowercase b <;> simp [same]
      rw [if_neg known, ih, later, List.filter_cons_of_pos (by simpa using known), List.eraseDups_cons,
        List.filter_cons]
      by_cases both : toAsciiLowercase b ∈ setA
      · rw [if_pos both, if_pos (decide_eq_true both), List.length_cons]
        omega
      · rw [if_neg both, if_neg (by simpa using both)]

theorem countMutual_eq (followed contacts : List String) :
    countMutual followed contacts = (shared followed contacts).length := by
  unfold countMutual
  split
  · rename_i empty
    have nothing : shared followed contacts = [] := by
      refine List.eq_nil_iff_forall_not_mem.mpr fun v member => ?_
      obtain ⟨here, there⟩ := mem_shared.mp member
      rw [List.isEmpty_iff, List.isEmpty_iff] at empty
      obtain rfl | rfl := empty
      · cases there
      · cases here
    rw [nothing, List.length_nil]
  · dsimp only
    rw [countMutual_foldl, shared, Nat.zero_add]
    simp

theorem mutual_eq_sum (followed contacts : List String) :
    (contacts.filter fun c => decide (c ∈ followed)).length =
      ((shared followed contacts).map (copies followed contacts)).sum := by
  have covers :
      ∀ c ∈ contacts.filter fun c => decide (c ∈ followed), toAsciiLowercase c ∈ shared followed contacts := by
    intro c member
    obtain ⟨here, there⟩ := List.mem_filter.mp member
    exact mem_shared.mpr ⟨List.mem_map_of_mem here, List.mem_map_of_mem (of_decide_eq_true there)⟩
  have apart : copies followed contacts = fun v =>
      ((contacts.filter fun c => decide (c ∈ followed)).filter fun c => decide (toAsciiLowercase c = v)).length := by
    funext v
    rw [copies, List.filter_filter]
    congr 2
    funext c
    by_cases here : c ∈ followed <;> simp [here]
  rw [apart]
  exact length_eq_sum_filter (nodup_shared followed contacts) covers

theorem mutualCount_eq_iff (followed contacts : List String) :
    (contacts.filter fun c => decide (c ∈ followed)).length = countMutual followed contacts ↔
      Balanced followed contacts := by
  rw [mutual_eq_sum, countMutual_eq]
  rfl

theorem countMutual_congr {followed followed' contacts contacts' : List String}
    (first : ∀ c, c ∈ followed ↔ c ∈ followed') (second : ∀ c, c ∈ contacts ↔ c ∈ contacts') :
    countMutual followed contacts = countMutual followed' contacts' := by
  rw [countMutual_eq, countMutual_eq]
  refine ((List.perm_ext_iff_of_nodup (nodup_shared _ _) (nodup_shared _ _)).mpr fun v => ?_).length_eq
  simp only [mem_shared, List.mem_map, first, second]

/-- The same users, each with the same contacts, however often and in whatever order. -/
def SameContacts (users users' : List WotUser) : Prop :=
  List.Forall₂ (fun user user' => user.pubkey = user'.pubkey ∧ ∀ c, c ∈ user.contacts ↔ c ∈ user'.contacts) users users'

def MutualRight (selfPubkey : String) (users : List WotUser) : Prop :=
  ∀ user ∈ users,
    (standing selfPubkey users user).mutualCount = countMutual (selfContacts selfPubkey users) user.contacts

/-- All scores are calculated from the same values, and the mutual contacts among these are those of the other function. -/
def RepeatsIgnored (selfPubkey : String) (users users' : List WotUser) : Prop :=
  List.Forall₂ (fun user user' => standing selfPubkey users user = standing selfPubkey users' user') users users' ∧
    (recalculateWot selfPubkey users).map WotUpdate.trustScore = (recalculateWot selfPubkey users').map WotUpdate.trustScore ∧
    MutualRight selfPubkey users ∧ MutualRight selfPubkey users'

/-- No repeated contact of a user is counted, unless as many others are followed only in another spelling. -/
def AllBalanced (selfPubkey : String) (users : List WotUser) : Prop :=
  ∀ user ∈ users, Balanced ((rowOf users selfPubkey).getD []) user.contacts

instance (selfPubkey : String) (users : List WotUser) : Decidable (AllBalanced selfPubkey users) :=
  inferInstanceAs (Decidable (∀ _ ∈ _, _))

variable {users' : List WotUser}

theorem mutualRight_iff (within : Within Recalculate.maxContacts Recalculate.maxEdges users) :
    MutualRight selfPubkey users ↔ AllBalanced selfPubkey users := by
  rw [AllBalanced, ← selfContacts_eq within]
  exact forall₂_congr fun user _ => mutualCount_eq_iff _ user.contacts

namespace SameContacts

theorem rows (same : SameContacts users users') (key : String) :
    Option.Rel (fun row row' => ∀ c, c ∈ row ↔ c ∈ row') (rowOf users key) (rowOf users' key) := by
  induction same with
  | nil => exact .none
  | @cons user user' rest rest' both _ ih =>
    rw [rowOf_cons, rowOf_cons, ← both.1]
    generalize rowOf rest key = row at ih
    generalize rowOf rest' key = row' at ih
    cases ih with
    | some later => exact .some later
    | none =>
      rw [Option.none_or, Option.none_or]
      split
      · exact .some both.2
      · exact .none

theorem mem_row (same : SameContacts users users') (key c : String) :
    c ∈ (rowOf users key).getD [] ↔ c ∈ (rowOf users' key).getD [] := by
  have both := same.rows key
  generalize rowOf users key = row at both
  generalize rowOf users' key = row' at both
  cases both with
  | some both => exact both c
  | none => rfl

theorem mem_directs (same : SameContacts users users') (v : String) :
    v ∈ directs selfPubkey users ↔ v ∈ directs selfPubkey users' := by
  simp only [directs, List.mem_eraseDups, List.mem_filter, same.mem_row]

theorem members (same : SameContacts users users') :
    List.Forall₂ (fun user user' => (user ∈ users ∧ user' ∈ users') ∧
      user.pubkey = user'.pubkey ∧ ∀ c, c ∈ user.contacts ↔ c ∈ user'.contacts) users users' := by
  obtain ⟨length, both⟩ := List.forall₂_iff_zip.mp same
  exact List.forall₂_iff_zip.mpr ⟨length, fun member => ⟨List.of_mem_zip member, both member⟩⟩

end SameContacts

/-- A user is walked to from as many keys in the one list as in the other, as far as they are counted. -/
def SameIntroducers (selfPubkey : String) (users users' : List WotUser) (v : String) : Prop :=
  v ≠ selfPubkey → v ∉ directs selfPubkey users →
    min Recalculate.maxIntroducers (introducers selfPubkey users v).length =
      min Recalculate.maxIntroducers (introducers selfPubkey users' v).length

instance (selfPubkey : String) (users users' : List WotUser) (v : String) :
    Decidable (SameIntroducers selfPubkey users users' v) := inferInstanceAs (Decidable (_ → _))

theorem introducers_ne_nil (v : String) : (∃ c ∈ walkedFrom selfPubkey users, v ∈ (rowOf users c).getD []) ↔
    0 < min Recalculate.maxIntroducers (introducers selfPubkey users v).length := by
  rw [Nat.lt_min, List.length_pos_iff_exists_mem]
  simp only [introducers, List.mem_filter, decide_eq_true_iff]
  exact (and_iff_right (by decide)).symm

theorem standing_eq_iff (within : Within Recalculate.maxContacts Recalculate.maxEdges users)
    (within' : Within Recalculate.maxContacts Recalculate.maxEdges users') (same : SameContacts users users')
    {user user' : WotUser} (member : user ∈ users) (member' : user' ∈ users') (key : user.pubkey = user'.pubkey)
    (mutuals : (standing selfPubkey users user).mutualCount = (standing selfPubkey users' user').mutualCount) :
    standing selfPubkey users user = standing selfPubkey users' user' ↔
      SameIntroducers selfPubkey users users' user.pubkey := by
  have parts : standing selfPubkey users user = standing selfPubkey users' user' ↔
      (standing selfPubkey users user).distance = (standing selfPubkey users' user').distance ∧
      (standing selfPubkey users user).introducerCount = (standing selfPubkey users' user').introducerCount := by
    constructor
    · intro equal
      exact ⟨congrArg Standing.distance equal, congrArg Standing.introducerCount equal⟩
    · rintro ⟨distance, introduced⟩
      exact Standing.ext distance mutuals introduced
  rw [parts, standing_distance within member, standing_distance within' member', standing_introducers within member,
    standing_introducers within' member', walkedDistance, walkedDistance, ← key, SameIntroducers]
  by_cases self : user.pubkey = selfPubkey
  · simp [self]
  · by_cases direct : user.pubkey ∈ directs selfPubkey users
    · have direct' := (same.mem_directs _).mp direct
      simp [self, direct, direct']
    · have direct' := fun here => direct ((same.mem_directs _).mpr here)
      have reached := @introducers_ne_nil selfPubkey users user.pubkey
      have reached' := @introducers_ne_nil selfPubkey users' user.pubkey
      simp only [if_neg self, if_neg direct, if_neg direct']
      refine ⟨fun equal _ _ => equal.2, fun counts => ⟨?_, counts self direct⟩⟩
      rw [← counts self direct] at reached'
      by_cases near : ∃ c ∈ walkedFrom selfPubkey users, user.pubkey ∈ (rowOf users c).getD []
      · rw [if_pos near, if_pos (reached'.mpr (reached.mp near))]
      · rw [if_neg near, if_neg fun near' => near (reached.mpr (reached'.mp near'))]

/-- A repeated contact changes what no score is calculated from, exactly when the mutual contacts of every user are
balanced in both lists and the walk introduces every user as often. -/
theorem repeats_ignored_iff (within : Within Recalculate.maxContacts Recalculate.maxEdges users)
    (within' : Within Recalculate.maxContacts Recalculate.maxEdges users') (same : SameContacts users users') :
    RepeatsIgnored selfPubkey users users' ↔
      AllBalanced selfPubkey users ∧ AllBalanced selfPubkey users' ∧
        ∀ user ∈ users, SameIntroducers selfPubkey users users' user.pubkey := by
  rw [← mutualRight_iff within, ← mutualRight_iff within']
  constructor
  · rintro ⟨equal, -, right, right'⟩
    refine ⟨right, right', ?_⟩
    have introduced :
        List.Forall₂ (fun user _ => SameIntroducers selfPubkey users users' user.pubkey ∧ True) users users' := by
      refine List.Forall₂.mp (fun user user' both equal => ⟨?_, trivial⟩) same.members equal
      exact (standing_eq_iff within within' same both.1.1 both.1.2 both.2.1 (congrArg Standing.mutualCount equal)).mp equal
    exact (List.forall₂_and_left _ _ |>.mp introduced).1
  · rintro ⟨right, right', introduced⟩
    have equal : List.Forall₂ (fun user user' => standing selfPubkey users user = standing selfPubkey users' user')
        users users' := by
      refine same.members.imp fun user user' both => ?_
      refine (standing_eq_iff within within' same both.1.1 both.1.2 both.2.1 ?_).mpr (introduced user both.1.1)
      rw [right user both.1.1, right' user' both.1.2, selfContacts_eq within, selfContacts_eq within']
      exact countMutual_congr (same.mem_row selfPubkey) both.2.2
    refine ⟨equal, ?_, right, right'⟩
    rw [recalculateWot, recalculateWot, List.map_map, List.map_map, ← List.forall₂_eq_eq_eq, List.forall₂_map_left_iff,
      List.forall₂_map_right_iff]
    exact equal.imp fun user user' equal => congrArg Standing.score equal

section Repeats

/-- The own key follows one key, and a stranger has these contacts. -/
def stranger (contacts : List String) : List WotUser := [⟨"me", ["a"]⟩, ⟨"u", contacts⟩]

/-- A contact that the own key does not follow may be repeated. -/
theorem unfollowed_repeated : RepeatsIgnored "me" (stranger ["b"]) (stranger ["b", "b"]) :=
  (repeats_ignored_iff (by decide) (by decide) (by simp [SameContacts, stranger])).mpr ⟨by decide, by decide, by decide⟩

/-- A followed one counts twice. -/
theorem followed_counted_twice : Within Recalculate.maxContacts Recalculate.maxEdges (stranger ["a"]) ∧
    Within Recalculate.maxContacts Recalculate.maxEdges (stranger ["a", "a"]) ∧
    SameContacts (stranger ["a"]) (stranger ["a", "a"]) ∧
    (standing "me" (stranger ["a"]) ⟨"u", ["a"]⟩).mutualCount = 1 ∧
    (standing "me" (stranger ["a", "a"]) ⟨"u", ["a", "a"]⟩).mutualCount = 2 ∧
    ¬ RepeatsIgnored "me" (stranger ["a"]) (stranger ["a", "a"]) := by
  have once : (standing "me" (stranger ["a"]) ⟨"u", ["a"]⟩).mutualCount = 1 := by decide
  have twice : (standing "me" (stranger ["a", "a"]) ⟨"u", ["a", "a"]⟩).mutualCount = 2 := by decide
  refine ⟨by decide, by decide, by simp [SameContacts, stranger], once, twice, fun ignored => ?_⟩
  obtain ⟨-, ⟨second, -⟩⟩ := List.forall₂_cons.mp ignored.1 |>.imp_right List.forall₂_cons.mp
  have same := congrArg Standing.mutualCount second
  rw [once, twice] at same
  exact absurd same (by decide)

end Repeats

end Soshal.Identity
