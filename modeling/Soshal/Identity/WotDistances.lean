import Soshal.Identity.Recalculate
import Soshal.Library.HopDistance
import Mathlib.Data.ENat.Lattice

/-! The distances of users in the follow graph.

Below the limits on contacts the calculation for all users and the partition of the
peers agree. Both are right as long as the walk gets to the keys that matter: it may
take as many keys from its queue as users are listed, and keys without a row count.
-/

set_option autoImplicit false

namespace Soshal.Identity

open Library

def Follows (users : List WotUser) (a b : String) : Prop := ∃ user ∈ users, user.pubkey = a ∧ b ∈ user.contacts

def bucket (peers : Peers) (distance : Nat) : List String := (peers.find? distance).getD []

/-- Every listed user has its distance in the follow graph, cut off at three, and is in the bucket of that distance. -/
def DistancesRight (selfPubkey : String) (users : List WotUser) : Prop :=
  (recalculateWot selfPubkey users).map WotUpdate.pubkey = users.map WotUser.pubkey ∧
    ∀ update ∈ recalculateWot selfPubkey users,
      (update.distance : ℕ∞) = min 3 (hops (Follows users) selfPubkey update.pubkey) ∧
        ∀ maxDistance, 0 < update.distance → update.distance ≤ maxDistance → ∀ distance,
          update.pubkey ∈ bucket (partitionWotPeers selfPubkey users maxDistance) distance ↔ distance = update.distance

/-- Every listed user that a followed key follows is followed by one of the keys that are walked from. -/
def WalkReaches (selfPubkey : String) (users : List WotUser) : Prop :=
  ∀ user ∈ users, user.pubkey ≠ selfPubkey → user.pubkey ∉ directs selfPubkey users →
    (∃ c ∈ directs selfPubkey users, Follows users c user.pubkey) →
      ∃ c ∈ walkedFrom selfPubkey users, Follows users c user.pubkey

variable {selfPubkey : String} {users : List WotUser}

theorem rowOf_eq_some {key : String} {row : List String} (distinct : (users.map WotUser.pubkey).Nodup) :
    rowOf users key = some row ↔ ∃ user ∈ users, user.pubkey = key ∧ user.contacts = row := by
  induction users with
  | nil => simp [rowOf]
  | cons user rest ih =>
    rw [List.map_cons, List.nodup_cons] at distinct
    rw [rowOf_cons, Option.or_eq_some_iff, ih distinct.2]
    simp only [List.mem_cons, exists_eq_or_imp]
    by_cases mine : user.pubkey = key
    · have absent : ¬ ∃ other ∈ rest, other.pubkey = key ∧ other.contacts = row := by
        rintro ⟨other, member, same, -⟩
        exact distinct.1 (mine.trans same.symm ▸ List.mem_map_of_mem member)
      have missing : rowOf rest key = none := by
        rw [rowOf, Option.map_eq_none_iff, List.find?_eq_none]
        intro other member
        rw [List.mem_reverse] at member
        rw [decide_eq_true_iff]
        exact fun same => distinct.1 (mine.trans same.symm ▸ List.mem_map_of_mem member)
      simp [mine, absent, missing]
    · simp [mine]

theorem follows_iff (distinct : (users.map WotUser.pubkey).Nodup) {a b : String} :
    Follows users a b ↔ b ∈ (rowOf users a).getD [] := by
  constructor
  · rintro ⟨user, member, rfl, follows⟩
    rw [(rowOf_eq_some distinct).mpr ⟨user, member, rfl, rfl⟩]
    exact follows
  · intro follows
    cases found : rowOf users a with
    | none => simp [found] at follows
    | some row =>
      obtain ⟨user, member, same, rfl⟩ := (rowOf_eq_some distinct).mp found
      rw [found] at follows
      exact ⟨user, member, same, follows⟩

theorem mem_directs {v : String} (distinct : (users.map WotUser.pubkey).Nodup) :
    v ∈ directs selfPubkey users ↔ Follows users selfPubkey v ∧ v ≠ selfPubkey := by
  rw [directs, List.mem_eraseDups, List.mem_filter, decide_eq_true_iff, follows_iff distinct]

open Classical in
theorem min_hops (distinct : (users.map WotUser.pubkey).Nodup) (v : String) :
    min 3 (hops (Follows users) selfPubkey v) =
      (if v = selfPubkey then 0 else if v ∈ directs selfPubkey users then 1
        else if ∃ c ∈ directs selfPubkey users, Follows users c v then 2 else 3 : Nat) := by
  have direct : ∀ c ∈ directs selfPubkey users, hops (Follows users) selfPubkey c = (1 : Nat) := by
    intro c member
    obtain ⟨follows, other⟩ := (mem_directs distinct).mp member
    refine hops_eq_coe_iff.mpr ⟨.further (.here selfPubkey) follows, fun m less path => ?_⟩
    obtain rfl := Nat.lt_one_iff.mp less
    cases path
    exact other rfl
  by_cases same : v = selfPubkey
  · simp [same]
  · by_cases first : v ∈ directs selfPubkey users
    · rw [if_neg same, if_pos first, direct v first]
      rfl
    · have notOne : hops (Follows users) selfPubkey v ≠ (1 : Nat) := by
        intro one
        obtain ⟨b, zero, follows⟩ := exists_nearer one
        rw [← hops_eq_zero_iff.mp zero] at follows
        exact first ((mem_directs distinct).mpr ⟨follows, same⟩)
      have notZero : hops (Follows users) selfPubkey v ≠ (0 : Nat) := fun zero => same (hops_eq_zero_iff.mp zero).symm
      rw [if_neg same, if_neg first]
      split
      · rename_i second
        obtain ⟨c, member, follows⟩ := second
        have near := hops_le_succ (direct c member).le follows
        obtain ⟨n, exact⟩ := ENat.ne_top_iff_exists.mp (ne_top_of_le_ne_top (ENat.natCast_ne_top 2) near)
        rw [← exact] at near notOne notZero ⊢
        have atTwo : n = 2 := by
          have most : n ≤ 2 := by exact_mod_cast near
          have notOne : n ≠ 1 := by exact_mod_cast notOne
          have notZero : n ≠ 0 := by exact_mod_cast notZero
          omega
        rw [atTwo]
        rfl
      · rename_i noSecond
        have notTwo : hops (Follows users) selfPubkey v ≠ (2 : Nat) := by
          intro two
          obtain ⟨c, one, follows⟩ := exists_nearer two
          obtain ⟨b, zero, direct⟩ := exists_nearer one
          have other : c ≠ selfPubkey := by
            rintro rfl
            rw [hops_self] at one
            cases one
          rw [← hops_eq_zero_iff.mp zero] at direct
          exact noSecond ⟨c, (mem_directs distinct).mpr ⟨direct, other⟩, follows⟩
        refine min_eq_left ?_
        cases far : hops (Follows users) selfPubkey v with
        | top => exact le_top
        | coe n =>
          rw [far] at notTwo notOne notZero
          have notTwo : n ≠ 2 := by exact_mod_cast notTwo
          have notOne : n ≠ 1 := by exact_mod_cast notOne
          have notZero : n ≠ 0 := by exact_mod_cast notZero
          have least : 3 ≤ n := by omega
          exact_mod_cast least

theorem Within.mono {contacts contacts' edges edges' : Nat} (within : Within contacts edges users)
    (more : contacts ≤ contacts') (most : edges ≤ edges') : Within contacts' edges' users :=
  ⟨fun user member => (within.1 user member).trans more, within.2.trans_le most⟩

theorem find?_recalculate (within : Within Recalculate.maxContacts Recalculate.maxEdges users) (key : String) :
    (Recalculate.contactMap users 0 .empty).find? key = rowOf users key := by
  rw [Recalculate.contactMap, find?_limitedMap within.1 (by rw [Nat.zero_add]; exact within.2), Table.find?_empty,
    Option.or_none]

theorem find?_partition (within : Within maxContacts maxEdges users) (key : String) :
    (contactMap users 0 .empty).find? key = rowOf users key := by
  rw [contactMap, find?_limitedMap within.1 (by rw [Nat.zero_add]; exact within.2), Table.find?_empty,
    Option.or_none]

theorem standing_distance (within : Within Recalculate.maxContacts Recalculate.maxEdges users) {user : WotUser}
    (member : user ∈ users) :
    (standing selfPubkey users user).distance = walkedDistance selfPubkey users user.pubkey := by
  rw [standing, recalculateWalk, Recalculate.walk_distances]
  exact walk_distance (find?_recalculate within) (List.ne_nil_of_mem member) selfPubkey user.pubkey

theorem mem_bucket_foldl {maxDistance : Nat} (distanceOf : String → Nat) (result : Peers) (key : String)
    (distance : Nat) :
    key ∈ bucket (users.foldl (fun result user =>
        if distanceOf user.pubkey > 0 ∧ distanceOf user.pubkey ≤ maxDistance then
          result.upsert (distanceOf user.pubkey) [user.pubkey] (· ++ [user.pubkey])
        else result) result) distance ↔
      key ∈ bucket result distance ∨
        ∃ user ∈ users, user.pubkey = key ∧ distanceOf key = distance ∧ 0 < distance ∧ distance ≤ maxDistance := by
  induction users generalizing result with
  | nil => simp
  | cons user rest ih =>
    rw [List.foldl_cons, ih]
    simp only [List.mem_cons, exists_eq_or_imp]
    rw [← or_assoc]
    refine or_congr_left ?_
    split
    · rename_i inside
      rw [bucket, bucket, Table.find?_upsert]
      by_cases here : distance = distanceOf user.pubkey
      · subst here
        rw [if_pos rfl]
        cases result.find? (distanceOf user.pubkey) with
        | none =>
          simp only [Option.elim_none, Option.getD_some, List.mem_singleton, Option.getD_none,
            List.not_mem_nil, false_or]
          constructor
          · rintro rfl
            exact ⟨rfl, rfl, inside⟩
          · exact fun entry => entry.1.symm
        | some keys =>
          simp only [Option.elim_some, Option.getD_some, List.mem_append, List.mem_singleton]
          refine or_congr_right ?_
          constructor
          · rintro rfl
            exact ⟨rfl, rfl, inside⟩
          · exact fun entry => entry.1.symm
      · rw [if_neg here]
        refine (or_iff_left ?_).symm
        rintro ⟨rfl, same, -⟩
        exact here same.symm
    · rename_i outside
      refine (or_iff_left ?_).symm
      rintro ⟨rfl, rfl, inside⟩
      exact outside inside

theorem mem_bucket_partition (within : Within maxContacts maxEdges users) {maxDistance distance : Nat} {user : WotUser}
    (member : user ∈ users) (allowed : 0 < maxDistance) :
    user.pubkey ∈ bucket (partitionWotPeers selfPubkey users maxDistance) distance ↔
      walkedDistance selfPubkey users user.pubkey = distance ∧ 0 < distance ∧ distance ≤ maxDistance := by
  have someone := List.ne_nil_of_mem member
  rw [partitionWotPeers, if_neg (not_or.mpr ⟨Nat.ne_of_gt allowed, someone⟩)]
  dsimp only
  rw [← walk_distance (find?_partition within) someone selfPubkey user.pubkey]
  generalize walk (contactMap users 0 .empty) (min users.length 10000) (Table.empty.upsert selfPubkey 0 id)
    [(selfPubkey, 0)] = distances
  rw [mem_bucket_foldl fun key => (distances.find? key).getD 3]
  simp only [bucket, Table.find?_empty, Option.getD_none, List.not_mem_nil, false_or]
  constructor
  · rintro ⟨_, _, _, entry⟩
    exact entry
  · exact fun entry => ⟨user, member, rfl, entry⟩

theorem distancesRight_iff (within : Within maxContacts maxEdges users) :
    DistancesRight selfPubkey users ↔ ∀ user ∈ users,
      (walkedDistance selfPubkey users user.pubkey : ℕ∞) = min 3 (hops (Follows users) selfPubkey user.pubkey) := by
  have wider : Within Recalculate.maxContacts Recalculate.maxEdges users := within.mono (by decide) (by decide)
  have named : (recalculateWot selfPubkey users).map WotUpdate.pubkey = users.map WotUser.pubkey := by
    rw [recalculateWot, List.map_map]
    rfl
  rw [DistancesRight, and_iff_right named]
  simp only [recalculateWot, List.forall_mem_map]
  refine forall₂_congr fun user member => ?_
  rw [standing_distance wider member]
  refine and_iff_left fun maxDistance positive near distance => ?_
  rw [mem_bucket_partition within member (positive.trans_le near)]
  constructor
  · exact fun entry => entry.1.symm
  · rintro rfl
    exact ⟨rfl, positive, near⟩

theorem walkedFrom_sub {c : String} (member : c ∈ walkedFrom selfPubkey users) : c ∈ directs selfPubkey users :=
  List.mem_of_mem_take member

open Classical in
theorem walkReaches_iff (distinct : (users.map WotUser.pubkey).Nodup) :
    WalkReaches selfPubkey users ↔ ∀ user ∈ users,
      (walkedDistance selfPubkey users user.pubkey : ℕ∞) = min 3 (hops (Follows users) selfPubkey user.pubkey) := by
  refine forall₂_congr fun user member => ?_
  rw [min_hops distinct, Nat.cast_inj, walkedDistance]
  simp only [← follows_iff distinct]
  by_cases same : user.pubkey = selfPubkey
  · simp [same]
  · by_cases first : user.pubkey ∈ directs selfPubkey users
    · simp [same, first]
    · simp only [ne_eq, same, first, not_false_eq_true, if_false, forall_const]
      by_cases walked : ∃ c ∈ walkedFrom selfPubkey users, Follows users c user.pubkey
      · obtain ⟨c, from_walk, follows⟩ := walked
        rw [if_pos ⟨c, from_walk, follows⟩, if_pos ⟨c, walkedFrom_sub from_walk, follows⟩]
        exact iff_of_true (fun _ => ⟨c, from_walk, follows⟩) rfl
      · rw [if_neg walked]
        by_cases second : ∃ c ∈ directs selfPubkey users, Follows users c user.pubkey
        · simp [second, walked]
        · simp [second]

/-- Below the limits, all distances are right exactly when the walk gets to a follower of every user at distance two. -/
theorem wot_distances_iff (selfPubkey : String) (users : List WotUser) (distinct : (users.map WotUser.pubkey).Nodup)
    (within : Within maxContacts maxEdges users) :
    DistancesRight selfPubkey users ↔ WalkReaches selfPubkey users := by
  rw [distancesRight_iff within, walkReaches_iff distinct]

section Crowd

/-- The friend of a friend comes second, after one key without a row. -/
def smallCrowd : List WotUser := [⟨"me", ["x", "a"]⟩, ⟨"a", ["b"]⟩, ⟨"b", []⟩]

theorem small_crowd_right : DistancesRight "me" smallCrowd := by
  refine (wot_distances_iff "me" smallCrowd (by decide) (by decide)).mpr ?_
  intro user member other indirect _
  simp only [smallCrowd, List.mem_cons, List.not_mem_nil, or_false] at member
  obtain rfl | rfl | rfl := member
  · exact absurd rfl other
  · exact absurd (by decide) indirect
  · exact ⟨"a", by decide, ⟨"a", ["b"]⟩, by decide, rfl, by decide⟩

/-- With two such keys before it, the friend is not walked from. -/
def crowdedList : List WotUser := [⟨"me", ["x", "y", "a"]⟩, ⟨"a", ["b"]⟩, ⟨"b", []⟩]

theorem friend_of_friend_missed : (crowdedList.map WotUser.pubkey).Nodup ∧ Within maxContacts maxEdges crowdedList ∧
    hops (Follows crowdedList) "me" "b" = 2 ∧ ¬ DistancesRight "me" crowdedList := by
  have distinct : (crowdedList.map WotUser.pubkey).Nodup := by decide
  have within : Within maxContacts maxEdges crowdedList := by decide
  have second : min 3 (hops (Follows crowdedList) "me" "b") = 2 := by
    have friend : Follows crowdedList "a" "b" := ⟨⟨"a", ["b"]⟩, by decide, rfl, by decide⟩
    rw [min_hops distinct, if_neg (by decide), if_neg (by decide), if_pos ⟨"a", by decide, friend⟩]
    rfl
  have farther : walkedDistance "me" crowdedList "b" = 3 := by decide
  refine ⟨distinct, within, ?_, fun right => ?_⟩
  · obtain three | exact := min_choice 3 (hops (Follows crowdedList) "me" "b")
    · rw [three] at second
      cases second
    · rw [← exact, second]
  · have same := (distancesRight_iff within).mp right ⟨"b", []⟩ (by decide)
    rw [farther, second] at same
    cases same

end Crowd

end Soshal.Identity
