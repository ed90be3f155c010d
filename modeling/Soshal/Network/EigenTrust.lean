import Mathlib.Data.Rat.Cast.Order
import Mathlib.Tactic.FieldSimp
import Mathlib.Tactic.NormNum
import Soshal.Library.Runs
import Soshal.Library.SparseRows
import Soshal.Library.Table

/-! Global reputation from local audits, by power iteration.

Scores are exact rationals here where the source has floating point. A peer that is
listed twice has the index of its last place; its earlier places are rated by nobody.
A peer that rates nobody hands its trust to the pre-trusted peers, and what becomes
of it there decides whether the scores still sum to one.
-/

set_option autoImplicit false

namespace Soshal.Network

open Library
open Library.SparseRows (push weight weightIn scale)

def eigentrustAlpha : ℚ := 15 / 100
def maxEigentrustIterations : Nat := 50
def convergenceEpsilon : ℚ := 1 / 100000
def maxLocalAudits : Nat := 10000

/-- The distance from 1 to the next larger double. -/
def f64Epsilon : ℚ := 1 / 2 ^ 52

structure PeerAuditScore where
  validChunks : UInt64
  invalidChunks : UInt64
  totalLatencyMs : UInt64
  successfulTransfers : UInt64
  failedTransfers : UInt64

def PeerAuditScore.default : PeerAuditScore := ⟨0, 0, 0, 0, 0⟩

def PeerAuditScore.subjectiveTrust (score : PeerAuditScore) : ℚ :=
  let satisfactory := score.validChunks + score.successfulTransfers
  let unsatisfactory := score.invalidChunks * 5 + score.failedTransfers
  if satisfactory > unsatisfactory then ((satisfactory - unsatisfactory).toNat : ℚ) else 0

structure EigenTrustEngine where
  localMatrix : Table (String × String) PeerAuditScore
  preTrustedPeers : List String
  auditOrder : List (String × String)

namespace EigenTrustEngine

def new (preTrustedPeers : List String) : EigenTrustEngine := ⟨.empty, preTrustedPeers, []⟩

variable (engine : EigenTrustEngine)

def extendPreTrusted (anchors : List String) : EigenTrustEngine :=
  { engine with
    preTrustedPeers := anchors.foldl (fun known a => if a ∈ known then known else known ++ [a]) engine.preTrustedPeers }

def makeRoom (key : String × String) : EigenTrustEngine :=
  if key ∈ engine.localMatrix.keys then engine
  else if engine.localMatrix.rows.length ≥ maxLocalAudits then
    match engine.auditOrder with
    | [] => { engine with auditOrder := [key] }
    | oldest :: order =>
      { engine with
        localMatrix := engine.localMatrix.delete fun k _ => k = oldest
        auditOrder := order ++ [key] }
  else { engine with auditOrder := engine.auditOrder ++ [key] }

def recordAudit (src dst : String) (valid : Bool) (latencyMs : UInt64) : EigenTrustEngine :=
  let key := (src, dst)
  let engine := engine.makeRoom key
  let count (score : PeerAuditScore) : PeerAuditScore :=
    let score :=
      if valid then
        { score with
          validChunks := score.validChunks + 1
          successfulTransfers := score.successfulTransfers + 1 }
      else
        { score with
          invalidChunks := score.invalidChunks + 1
          failedTransfers := score.failedTransfers + 1 }
    { score with totalLatencyMs := score.totalLatencyMs + latencyMs }
  { engine with localMatrix := engine.localMatrix.upsert key (count .default) count }

/-- The index of each peer; a name that is listed twice has its last place. -/
def peerToIdx (peers : List String) : Table String Nat := .collect peers.zipIdx

section Compute

variable (engine : EigenTrustEngine) (peers : List String)

-- Different pairs of names have different pairs of indices, so collecting these overwrites nothing.
def localIdx : List ((Nat × Nat) × ℚ) :=
  engine.localMatrix.rows.filterMap fun row => do
    let si ← (peerToIdx peers).find? row.1.1
    let di ← (peerToIdx peers).find? row.1.2
    some ((si, di), row.2.subjectiveTrust)

def ratings (i : Nat) : List (Nat × ℚ) :=
  (engine.localIdx peers).filterMap fun entry =>
    if entry.1.1 = i ∧ 0 < entry.2 then some (entry.1.2, entry.2) else none

/-- The row of a peer without ratings: an entry for every place of a pre-trusted peer. -/
def fallback : List (Nat × ℚ) :=
  peers.zipIdx.filterMap fun place =>
    if place.1 ∈ engine.preTrustedPeers then some (place.2, 1 / max (engine.preTrustedPeers.length : ℚ) 1) else none

def trustRow (i : Nat) : List (Nat × ℚ) :=
  let row := engine.ratings peers i
  if 0 < weight row then scale (weight row) row
  else
    let row := row ++ engine.fallback peers
    if 0 < weight row ∧ |weight row - 1| > f64Epsilon then scale (weight row) row else row

/-- The pre-trusted peers that are listed, as often as they are pre-trusted. -/
def listed : List String := engine.preTrustedPeers.filter fun pt => ((peerToIdx peers).find? pt).isSome

def preTrust : Nat → ℚ :=
  let numPreTrusted := (engine.listed peers).length
  if 0 < numPreTrusted then
    engine.preTrustedPeers.foldl
      (fun p pt =>
        match (peerToIdx peers).find? pt with
        -- Assigned, not added: a name that is pre-trusted twice gets its share once.
        | some idx => Function.update p idx (1 / (numPreTrusted : ℚ))
        | none => p)
      fun _ => 0
  else fun _ => 1 / (peers.length : ℚ)

def powerStep (t : Nat → ℚ) : Nat → ℚ :=
  let next := push peers.length (engine.trustRow peers) t
  fun j => (1 - eigentrustAlpha) * next j + eigentrustAlpha * engine.preTrust peers j

def iterate (epsilon : ℚ) : Nat → (Nat → ℚ) → Nat → ℚ
  | 0, t => t
  | iterations + 1, t =>
    let next := engine.powerStep peers t
    if ∑ j ∈ Finset.range peers.length, |t j - next j| < epsilon then next else iterate epsilon iterations next

def computeGlobalTrust (epsilon : ℚ) (iterations : Nat) : Table String ℚ :=
  if peers.length = 0 then .empty
  else
    let t := engine.iterate peers epsilon iterations (engine.preTrust peers)
    .collect (peers.zipIdx.map fun place => (place.1, t place.2))

end Compute

/-- Scores for exactly the listed peers, none negative, with sum one. -/
structure Distribution (peers : List String) (scores : Table String ℚ) : Prop where
  keys : ∀ name, name ∈ scores.keys ↔ name ∈ peers
  nonneg : ∀ row ∈ scores.rows, 0 ≤ row.2
  sum : (scores.rows.map Prod.snd).sum = 1

def Trusts (peers : List String) (src dst : String) : Prop :=
  src ∈ peers ∧ dst ∈ peers ∧ ∃ score, engine.localMatrix.find? (src, dst) = some score ∧ 0 < score.subjectiveTrust

/-- What a listed pre-trusted peer can hand trust to, through any number of ratings. -/
inductive Reached (engine : EigenTrustEngine) (peers : List String) : String → Prop where
  | anchor {name : String} : name ∈ engine.preTrustedPeers → name ∈ peers → Reached engine peers name
  | rated {src dst : String} : Reached engine peers src → Trusts engine peers src dst → Reached engine peers dst

/-- The fallback row has weight one, all of it on the places that count. -/
structure FallbackWhole (engine : EigenTrustEngine) (peers : List String) : Prop where
  once : ∀ name ∈ engine.listed peers, peers.count name = 1
  /-- Either no pre-trusted peer is missing from the list, or enough are for the row to be normalised. -/
  normalised : engine.preTrustedPeers.length = (engine.listed peers).length ∨
    engine.preTrustedPeers.length < 2 ^ 52 * (engine.preTrustedPeers.length - (engine.listed peers).length)

def Conserves (peers : List String) : Prop :=
  if engine.listed peers = [] then peers.Nodup ∧ ∀ src ∈ peers, ∃ dst, Trusts engine peers src dst
  else (engine.listed peers).Nodup ∧
    (FallbackWhole engine peers ∨ ∀ src, Reached engine peers src → ∃ dst, Trusts engine peers src dst)

/-! ## Recording -/

/-- The order lists every recorded pair once, and there are no more of them than the cap allows. -/
structure Tracked (engine : EigenTrustEngine) : Prop where
  order : engine.auditOrder.Perm engine.localMatrix.keys
  capped : engine.localMatrix.keys.length ≤ maxLocalAudits

theorem keys_upsert {engine : EigenTrustEngine} {key : String × String} (score : PeerAuditScore)
    (merge : PeerAuditScore → PeerAuditScore) :
    (engine.localMatrix.upsert key score merge).keys =
      if key ∈ engine.localMatrix.keys then engine.localMatrix.keys else engine.localMatrix.keys ++ [key] := by
  unfold Table.upsert
  split
  · rw [Table.keys_modify]
  · simp [Table.keys]

theorem makeRoom_tracked {engine : EigenTrustEngine} (tracked : Tracked engine) (key : String × String) :
    (engine.makeRoom key).auditOrder.Perm
        (if key ∈ (engine.makeRoom key).localMatrix.keys then (engine.makeRoom key).localMatrix.keys
          else (engine.makeRoom key).localMatrix.keys ++ [key]) ∧
      (key ∉ (engine.makeRoom key).localMatrix.keys → (engine.makeRoom key).localMatrix.keys.length < maxLocalAudits) ∧
      (engine.makeRoom key).localMatrix.keys.length ≤ maxLocalAudits := by
  have length : engine.localMatrix.keys.length = engine.localMatrix.rows.length := List.length_map _
  have capped := tracked.capped
  unfold makeRoom
  split
  · rename_i known
    exact ⟨tracked.order, fun fresh => absurd known fresh, by omega⟩
  · rename_i fresh
    split
    · rename_i full
      split
      · rename_i none
        have empty := tracked.order
        rw [none] at empty
        have := empty.length_eq
        simp only [List.length_nil, length, maxLocalAudits] at this full
        omega
      · -- The oldest entry goes from the matrix as from the order.
        rename_i oldest order same
        have listed := tracked.order
        rw [same] at listed
        have nodup := listed.nodup_iff.mpr engine.localMatrix.nodup
        have left : (engine.localMatrix.delete fun k _ => decide (k = oldest)).keys =
            engine.localMatrix.keys.filter fun k => decide (k ≠ oldest) := by
          simp [Table.keys, Table.delete, List.filter_map, Function.comp_def]
        have rest : order.Perm (engine.localMatrix.keys.filter fun k => decide (k ≠ oldest)) := by
          refine List.Perm.trans ?_ (listed.filter _)
          rw [List.filter_cons_of_neg (by simp), List.filter_eq_self.mpr]
          intro k member
          rw [List.nodup_cons] at nodup
          exact decide_eq_true fun same => nodup.1 (same ▸ member)
        have shorter := rest.length_eq
        have total := listed.length_eq
        rw [List.length_cons] at total
        have gone : key ∉ (engine.localMatrix.delete fun k _ => decide (k = oldest)).keys := by
          rw [left]
          exact fun member => fresh (List.mem_of_mem_filter member)
        rw [if_neg gone]
        simp only [left]
        exact ⟨rest.append_right [key], fun _ => by omega, by omega⟩
    · rename_i room
      have short : engine.localMatrix.keys.length < maxLocalAudits := by omega
      exact ⟨tracked.order.append_right [key], fun _ => short, capped⟩

theorem recordAudit_tracked {engine : EigenTrustEngine} (tracked : Tracked engine) (src dst : String) (valid : Bool)
    (latencyMs : UInt64) : Tracked (engine.recordAudit src dst valid latencyMs) := by
  obtain ⟨order, room, capped⟩ := makeRoom_tracked tracked (src, dst)
  refine ⟨?_, ?_⟩
  · simp only [recordAudit, keys_upsert]
    exact order
  · simp only [recordAudit, keys_upsert]
    split
    · exact capped
    · rename_i fresh
      rw [List.length_append]
      exact room fresh

inductive AuditCall where
  | extendPreTrusted (anchors : List String)
  | recordAudit (src dst : String) (valid : Bool) (latencyMs : UInt64)

def call : AuditCall → EigenTrustEngine
  | .extendPreTrusted anchors => engine.extendPreTrusted anchors
  | .recordAudit src dst valid latencyMs => engine.recordAudit src dst valid latencyMs

/-- However long a stream of audits is, the matrix stays within its cap. -/
theorem matrix_stays_capped (preTrustedPeers : List String) (calls : List AuditCall) :
    Runs.Always call Tracked (new preTrustedPeers) calls := by
  refine Runs.always_of_invariant ?_ ⟨.nil, Nat.zero_le _⟩
  intro engine call tracked
  cases call with
  | extendPreTrusted anchors => exact ⟨tracked.order, tracked.capped⟩
  | recordAudit src dst valid latencyMs => exact recordAudit_tracked tracked src dst valid latencyMs

/-! ## Places -/

theorem peerToIdx_row {peers : List String} {name : String} {i : Nat} (row : (peerToIdx peers).find? name = some i) :
    peers[i]? = some name :=
  List.mem_zipIdx_iff_getElem?.mp (Table.mem_collect (Table.find?_eq_some.mp row))

theorem mem_peerToIdx {peers : List String} {name : String} : name ∈ (peerToIdx peers).keys ↔ name ∈ peers := by
  rw [peerToIdx, Table.mem_keys_collect, List.zipIdx_map_fst]

theorem exists_idx {peers : List String} {name : String} (member : name ∈ peers) :
    ∃ i, (peerToIdx peers).find? name = some i :=
  Table.mem_keys_iff.mp (mem_peerToIdx.mpr member)

theorem lt_of_idx {peers : List String} {name : String} {i : Nat} (row : (peerToIdx peers).find? name = some i) :
    i < peers.length :=
  (List.getElem?_eq_some_iff.mp (peerToIdx_row row)).1

theorem idx_inj {peers : List String} {first second : String} {i : Nat}
    (one : (peerToIdx peers).find? first = some i) (two : (peerToIdx peers).find? second = some i) :
    first = second :=
  Option.some.inj ((peerToIdx_row one).symm.trans (peerToIdx_row two))

def places (peers : List String) : Finset Nat := ((peerToIdx peers).rows.map Prod.snd).toFinset

theorem mem_places {peers : List String} {i : Nat} :
    i ∈ places peers ↔ ∃ name, (peerToIdx peers).find? name = some i := by
  simp only [places, List.mem_toFinset, List.mem_map]
  constructor
  · rintro ⟨row, member, rfl⟩
    exact ⟨row.1, Table.find?_eq_some.mpr member⟩
  · rintro ⟨name, row⟩
    exact ⟨(name, i), Table.find?_eq_some.mp row, rfl⟩

theorem places_subset (peers : List String) : places peers ⊆ Finset.range peers.length := by
  intro i member
  obtain ⟨name, row⟩ := mem_places.mp member
  exact Finset.mem_range.mpr (lt_of_idx row)

theorem nodup_places (peers : List String) : ((peerToIdx peers).rows.map Prod.snd).Nodup := by
  have rows := List.Nodup.of_map _ (peerToIdx peers).nodup
  refine rows.map_on ?_
  intro first member second other same
  refine Prod.ext (idx_inj (i := first.2) (Table.find?_eq_some.mpr member) ?_) same
  rw [same]
  exact Table.find?_eq_some.mpr other

theorem card_places (peers : List String) : (places peers).card = peers.toFinset.card := by
  have keys : (peerToIdx peers).keys.toFinset = peers.toFinset := by
    ext name
    simp [mem_peerToIdx]
  rw [← keys, Table.keys, places, List.toFinset_card_of_nodup (nodup_places peers),
    List.toFinset_card_of_nodup (peerToIdx peers).nodup, List.length_map, List.length_map]

theorem card_places_eq_iff {peers : List String} : (places peers).card = peers.length ↔ peers.Nodup := by
  rw [card_places]
  exact Multiset.toFinset_card_eq_card_iff_nodup.trans Multiset.coe_nodup

def scoresOf (peers : List String) (t : Nat → ℚ) : Table String ℚ :=
  .collect (peers.zipIdx.map fun place => (place.1, t place.2))

theorem distribution_iff {peers : List String} {t : Nat → ℚ} (nonneg : ∀ i, 0 ≤ t i) :
    Distribution peers (scoresOf peers t) ↔ ∑ i ∈ places peers, t i = 1 := by
  have scores : scoresOf peers t = (peerToIdx peers).mapValues t := Table.collect_map t peers.zipIdx
  have sum : ((scoresOf peers t).rows.map Prod.snd).sum = ∑ i ∈ places peers, t i := by
    rw [scores, places, List.sum_toFinset t (nodup_places peers)]
    simp [Table.mapValues, Function.comp_def]
  rw [← sum]
  refine ⟨Distribution.sum, fun total => ⟨?_, ?_, total⟩⟩
  · intro name
    rw [scores, Table.keys_mapValues, mem_peerToIdx]
  · intro row member
    rw [scores] at member
    obtain ⟨before, -, rfl⟩ := List.mem_map.mp member
    exact nonneg before.2

/-! ## Rows -/

section Rows

variable {engine : EigenTrustEngine} {peers : List String}

theorem mem_ratings {i : Nat} {entry : Nat × ℚ} :
    entry ∈ engine.ratings peers i ↔ ∃ src dst score, engine.localMatrix.find? (src, dst) = some score ∧
      (peerToIdx peers).find? src = some i ∧ (peerToIdx peers).find? dst = some entry.1 ∧
      entry.2 = score.subjectiveTrust ∧ 0 < entry.2 := by
  simp only [ratings, localIdx, List.mem_filterMap]
  constructor
  · rintro ⟨⟨⟨si, di⟩, trust⟩, ⟨⟨⟨src, dst⟩, score⟩, member, looked⟩, kept⟩
    simp only [Option.bind_eq_bind, Option.bind_eq_some_iff, Option.some.injEq, Prod.mk.injEq] at looked
    obtain ⟨si', first, di', second, ⟨rfl, rfl⟩, rfl⟩ := looked
    split at kept
    · rename_i counts
      obtain ⟨rfl, positive⟩ := counts
      cases kept
      exact ⟨src, dst, score, Table.find?_eq_some.mpr member, first, second, rfl, positive⟩
    · cases kept
  · rintro ⟨src, dst, score, found, first, second, value, positive⟩
    refine ⟨((i, entry.1), entry.2), ⟨((src, dst), score), Table.find?_eq_some.mp found, ?_⟩, ?_⟩
    · simp [first, second, value]
    · simp [positive]

theorem ratings_pos {i : Nat} : ∀ entry ∈ engine.ratings peers i, 0 < entry.2 := by
  intro entry member
  obtain ⟨_, _, _, _, _, _, _, positive⟩ := mem_ratings.mp member
  exact positive

theorem weight_ratings_pos {i : Nat} (rated : engine.ratings peers i ≠ []) : 0 < weight (engine.ratings peers i) := by
  refine List.sum_pos _ ?_ (by simpa using rated)
  intro x member
  obtain ⟨entry, inside, rfl⟩ := List.mem_map.mp member
  exact ratings_pos entry inside

theorem rated_iff {i : Nat} {src : String} (place : (peerToIdx peers).find? src = some i) :
    engine.ratings peers i ≠ [] ↔ ∃ dst, Trusts engine peers src dst := by
  constructor
  · intro rated
    obtain ⟨entry, member⟩ := List.exists_mem_of_ne_nil _ rated
    obtain ⟨src', dst, score, found, first, second, value, positive⟩ := mem_ratings.mp member
    obtain rfl := idx_inj place first
    exact ⟨dst, mem_peerToIdx.mp (Table.mem_keys_iff.mpr ⟨_, first⟩),
      mem_peerToIdx.mp (Table.mem_keys_iff.mpr ⟨_, second⟩), score, found, value ▸ positive⟩
  · rintro ⟨dst, -, member, score, found, positive⟩
    obtain ⟨j, second⟩ := exists_idx member
    exact List.ne_nil_of_mem (mem_ratings.mpr ⟨src, dst, score, found, place, second, rfl, positive⟩ :
      (j, score.subjectiveTrust) ∈ _)

theorem ratings_outside {i : Nat} (outside : i ∉ places peers) : engine.ratings peers i = [] := by
  by_contra rated
  obtain ⟨entry, member⟩ := List.exists_mem_of_ne_nil _ rated
  obtain ⟨src, _, _, _, first, _⟩ := mem_ratings.mp member
  exact outside (mem_places.mpr ⟨src, first⟩)

def fallbackRow (peers : List String) : List (Nat × ℚ) :=
  if 0 < weight (engine.fallback peers) ∧ |weight (engine.fallback peers) - 1| > f64Epsilon then
    scale (weight (engine.fallback peers)) (engine.fallback peers)
  else engine.fallback peers

theorem trustRow_rated {i : Nat} (rated : engine.ratings peers i ≠ []) :
    engine.trustRow peers i = scale (weight (engine.ratings peers i)) (engine.ratings peers i) :=
  if_pos (weight_ratings_pos rated)

theorem trustRow_unrated {i : Nat} (unrated : engine.ratings peers i = []) :
    engine.trustRow peers i = engine.fallbackRow peers := by
  simp [trustRow, unrated, fallbackRow, weight]

theorem fallback_nonneg : ∀ entry ∈ engine.fallback peers, 0 ≤ entry.2 := by
  intro entry member
  obtain ⟨place, -, kept⟩ := List.mem_filterMap.mp member
  split at kept
  · cases kept
    positivity
  · cases kept

theorem scale_nonneg {x : ℚ} (positive : 0 < x) {row : List (Nat × ℚ)} (nonneg : ∀ entry ∈ row, 0 ≤ entry.2) :
    ∀ entry ∈ scale x row, 0 ≤ entry.2 := by
  intro entry member
  obtain ⟨before, inside, rfl⟩ := List.mem_map.mp member
  exact div_nonneg (nonneg before inside) positive.le

theorem fallbackRow_nonneg : ∀ entry ∈ engine.fallbackRow peers, 0 ≤ entry.2 := by
  unfold fallbackRow
  split
  · rename_i normalised
    exact scale_nonneg normalised.1 fallback_nonneg
  · exact fallback_nonneg

theorem trustRow_nonneg (i : Nat) : ∀ entry ∈ engine.trustRow peers i, 0 ≤ entry.2 := by
  by_cases rated : engine.ratings peers i = []
  · rw [trustRow_unrated rated]
    exact fallbackRow_nonneg
  · rw [trustRow_rated rated]
    exact scale_nonneg (weight_ratings_pos rated) fun entry member => (ratings_pos entry member).le

theorem mem_trustRow_rated {i : Nat} {src : String} (place : (peerToIdx peers).find? src = some i)
    (rated : engine.ratings peers i ≠ []) {entry : Nat × ℚ} (member : entry ∈ engine.trustRow peers i) :
    ∃ dst, Trusts engine peers src dst ∧ (peerToIdx peers).find? dst = some entry.1 := by
  rw [trustRow_rated rated] at member
  obtain ⟨before, inside, rfl⟩ := List.mem_map.mp member
  obtain ⟨src', dst, score, found, first, second, value, positive⟩ := mem_ratings.mp inside
  obtain rfl := idx_inj place first
  exact ⟨dst, ⟨mem_peerToIdx.mp (Table.mem_keys_iff.mpr ⟨_, first⟩),
    mem_peerToIdx.mp (Table.mem_keys_iff.mpr ⟨_, second⟩), score, found, value ▸ positive⟩, second⟩

theorem trustRow_of_trusts {src dst : String} {i j : Nat} (trusts : Trusts engine peers src dst)
    (first : (peerToIdx peers).find? src = some i) (second : (peerToIdx peers).find? dst = some j) :
    ∃ v, 0 < v ∧ (j, v) ∈ engine.trustRow peers i := by
  have rated := (rated_iff first).mpr ⟨dst, trusts⟩
  obtain ⟨-, -, score, found, positive⟩ := trusts
  have member : (j, score.subjectiveTrust) ∈ engine.ratings peers i :=
    mem_ratings.mpr ⟨src, dst, score, found, first, second, rfl, positive⟩
  rw [trustRow_rated rated]
  exact ⟨_, div_pos positive (weight_ratings_pos rated), List.mem_map_of_mem member⟩

theorem mem_places_of_rated {i : Nat} (rated : engine.ratings peers i ≠ []) {entry : Nat × ℚ}
    (member : entry ∈ engine.trustRow peers i) : entry.1 ∈ places peers := by
  have inside : i ∈ places peers := by
    by_contra outside
    exact rated (ratings_outside outside)
  obtain ⟨src, place⟩ := mem_places.mp inside
  obtain ⟨dst, -, found⟩ := mem_trustRow_rated place rated member
  exact mem_places.mpr ⟨dst, found⟩

theorem weightIn_rated {i : Nat} (rated : engine.ratings peers i ≠ []) :
    weightIn (places peers) (engine.trustRow peers i) = 1 := by
  rw [SparseRows.weightIn_of_subset fun entry member => mem_places_of_rated rated member, trustRow_rated rated,
    SparseRows.weight_scale]
  exact div_self (weight_ratings_pos rated).ne'

theorem weightIn_rated_outside {i : Nat} (rated : engine.ratings peers i ≠ []) :
    weightIn (Finset.range peers.length \ places peers) (engine.trustRow peers i) = 0 := by
  refine SparseRows.weightIn_of_disjoint fun entry member inside => ?_
  exact (Finset.mem_sdiff.mp inside).2 (mem_places_of_rated rated member)

end Rows

/-! ## The pre-trusted vector -/

section PreTrust

variable {engine : EigenTrustEngine} {peers : List String}

theorem mem_listed {name : String} :
    name ∈ engine.listed peers ↔ name ∈ engine.preTrustedPeers ∧ name ∈ peers := by
  rw [listed, List.mem_filter, Option.isSome_iff_exists, ← Table.mem_keys_iff, mem_peerToIdx]

def anchors (peers : List String) : Finset Nat :=
  (engine.listed peers).toFinset.image fun name => ((peerToIdx peers).find? name).getD 0

theorem mem_anchors {i : Nat} :
    i ∈ engine.anchors peers ↔ ∃ name ∈ engine.preTrustedPeers, (peerToIdx peers).find? name = some i := by
  simp only [anchors, Finset.mem_image, List.mem_toFinset, mem_listed]
  constructor
  · rintro ⟨name, ⟨trusted, member⟩, rfl⟩
    obtain ⟨j, place⟩ := exists_idx member
    exact ⟨name, trusted, by rw [place]; rfl⟩
  · rintro ⟨name, trusted, place⟩
    exact ⟨name, ⟨trusted, mem_peerToIdx.mp (Table.mem_keys_iff.mpr ⟨i, place⟩)⟩, by rw [place]; rfl⟩

theorem anchors_subset : engine.anchors peers ⊆ places peers := by
  intro i member
  obtain ⟨name, -, place⟩ := mem_anchors.mp member
  exact mem_places.mpr ⟨name, place⟩

theorem card_anchors : (engine.anchors peers).card = (engine.listed peers).toFinset.card := by
  refine Finset.card_image_of_injOn fun first one second two same => ?_
  obtain ⟨i, place⟩ := exists_idx (mem_listed.mp (List.mem_toFinset.mp one)).2
  obtain ⟨j, other⟩ := exists_idx (mem_listed.mp (List.mem_toFinset.mp two)).2
  rw [place, other, Option.getD_some, Option.getD_some] at same
  exact idx_inj place (same ▸ other)

theorem card_anchors_of_nodup (nodup : (engine.listed peers).Nodup) :
    (engine.anchors peers).card = (engine.listed peers).length := by
  rw [card_anchors, List.toFinset_card_of_nodup nodup]

theorem foldl_assign (idx : String → Option Nat) (share : ℚ) (names : List String) (p : Nat → ℚ) (i : Nat) :
    names.foldl (fun p pt => match idx pt with | some j => Function.update p j share | none => p) p i =
      if ∃ name ∈ names, idx name = some i then share else p i := by
  induction names using List.reverseRecOn with
  | nil => simp
  | append_singleton names last ih =>
    rw [List.foldl_append, List.foldl_cons, List.foldl_nil]
    simp only [List.mem_append, List.mem_singleton, or_and_right, exists_or, exists_eq_left]
    cases found : idx last with
    | none => simpa using ih
    | some j =>
      by_cases same : i = j
      · simp [same]
      · simp only [Function.update_of_ne same, Option.some.injEq, Ne.symm same, or_false]
        exact ih

theorem preTrust_of_listed (present : engine.listed peers ≠ []) (i : Nat) :
    engine.preTrust peers i =
      if i ∈ engine.anchors peers then 1 / ((engine.listed peers).length : ℚ) else 0 := by
  simp only [preTrust, List.length_pos_iff.mpr present, if_true, mem_anchors]
  exact foldl_assign _ _ _ _ i

theorem preTrust_of_unlisted (none : engine.listed peers = []) (i : Nat) :
    engine.preTrust peers i = 1 / (peers.length : ℚ) := by
  simp [preTrust, none]

theorem preTrust_nonneg (i : Nat) : 0 ≤ engine.preTrust peers i := by
  by_cases none : engine.listed peers = []
  · rw [preTrust_of_unlisted none]
    positivity
  · rw [preTrust_of_listed none]
    split <;> positivity

theorem sum_preTrust (present : engine.listed peers ≠ []) :
    ∑ i ∈ places peers, engine.preTrust peers i = 1 ↔ (engine.listed peers).Nodup := by
  have positive : (0 : ℚ) < (engine.listed peers).length := by
    exact_mod_cast List.length_pos_iff.mpr present
  have total : ∑ i ∈ places peers, engine.preTrust peers i =
      (engine.listed peers).toFinset.card / ((engine.listed peers).length : ℚ) := by
    rw [Finset.sum_congr rfl fun i _ => preTrust_of_listed present i, Finset.sum_ite_mem,
      Finset.inter_eq_right.mpr anchors_subset, Finset.sum_const, card_anchors, nsmul_eq_mul, mul_one_div]
  rw [total, div_eq_one_iff_eq positive.ne', Nat.cast_inj]
  exact Multiset.toFinset_card_eq_card_iff_nodup.trans Multiset.coe_nodup

theorem sum_preTrust_outside (present : engine.listed peers ≠ []) :
    ∑ i ∈ Finset.range peers.length \ places peers, engine.preTrust peers i = 0 := by
  refine Finset.sum_eq_zero fun i member => ?_
  rw [preTrust_of_listed present, if_neg fun anchor => (Finset.mem_sdiff.mp member).2 (anchors_subset anchor)]

theorem sum_preTrust_unlisted (none : engine.listed peers = []) (nonempty : peers ≠ []) :
    ∑ i ∈ places peers, engine.preTrust peers i = 1 ↔ peers.Nodup := by
  have positive : (0 : ℚ) < peers.length := by exact_mod_cast List.length_pos_iff.mpr nonempty
  rw [Finset.sum_congr rfl fun i _ => preTrust_of_unlisted none i, Finset.sum_const, nsmul_eq_mul, mul_one_div,
    div_eq_one_iff_eq positive.ne', Nat.cast_inj, card_places_eq_iff]

end PreTrust

/-! ## The fallback row -/

section Fallback

variable {engine : EigenTrustEngine} {peers : List String}

theorem weightIn_const {row : List (Nat × ℚ)} {value : ℚ} (nodup : (row.map Prod.fst).Nodup)
    (same : ∀ entry ∈ row, entry.2 = value) (columns : Finset Nat) :
    weightIn columns row = (columns ∩ (row.map Prod.fst).toFinset).card * value := by
  induction row with
  | nil => simp [weightIn]
  | cons entry rest ih =>
    rw [List.map_cons, List.nodup_cons] at nodup
    have later := ih nodup.2 fun e member => same e (List.mem_cons_of_mem _ member)
    have first := same entry List.mem_cons_self
    have split : weightIn columns (entry :: rest) =
        (if entry.1 ∈ columns then entry.2 else 0) + weightIn columns rest := by
      simp [weightIn]
    have fresh : entry.1 ∉ columns ∩ (rest.map Prod.fst).toFinset := by
      simp only [Finset.mem_inter, List.mem_toFinset, not_and]
      exact fun _ => nodup.1
    rw [split, later, List.map_cons, List.toFinset_cons]
    by_cases inside : entry.1 ∈ columns
    · rw [if_pos inside, Finset.inter_insert_of_mem inside, Finset.card_insert_of_notMem fresh, first]
      push_cast
      ring
    · rw [if_neg inside, Finset.inter_insert_of_notMem inside, zero_add]

def trustedPlaces (peers : List String) : Finset Nat :=
  ((engine.fallback peers).map Prod.fst).toFinset

theorem mem_trustedPlaces {i : Nat} :
    i ∈ engine.trustedPlaces peers ↔ ∃ name ∈ engine.preTrustedPeers, peers[i]? = some name := by
  simp only [trustedPlaces, fallback, List.mem_toFinset, List.mem_map, List.mem_filterMap]
  constructor
  · rintro ⟨entry, ⟨place, member, kept⟩, rfl⟩
    split at kept
    · rename_i trusted
      cases kept
      exact ⟨place.1, trusted, List.mem_zipIdx_iff_getElem?.mp member⟩
    · cases kept
  · rintro ⟨name, trusted, found⟩
    exact ⟨_, ⟨(name, i), List.mem_zipIdx_iff_getElem?.mpr found, if_pos trusted⟩, rfl⟩

theorem anchors_eq_inter : engine.anchors peers = places peers ∩ engine.trustedPlaces peers := by
  ext i
  rw [Finset.mem_inter, mem_anchors, mem_trustedPlaces, mem_places]
  constructor
  · rintro ⟨name, trusted, place⟩
    exact ⟨⟨name, place⟩, name, trusted, peerToIdx_row place⟩
  · rintro ⟨⟨name, place⟩, other, trusted, found⟩
    obtain rfl : name = other := Option.some.inj ((peerToIdx_row place).symm.trans found)
    exact ⟨name, trusted, place⟩

theorem trustedPlaces_subset : engine.trustedPlaces peers ⊆ Finset.range peers.length := by
  intro i member
  obtain ⟨name, -, found⟩ := mem_trustedPlaces.mp member
  exact Finset.mem_range.mpr (List.getElem?_eq_some_iff.mp found).1

theorem nodup_fallback : ((engine.fallback peers).map Prod.fst).Nodup := by
  have columns : (engine.fallback peers).map Prod.fst =
      (peers.zipIdx.filter fun place => decide (place.1 ∈ engine.preTrustedPeers)).map Prod.snd := by
    unfold fallback
    generalize 1 / max (engine.preTrustedPeers.length : ℚ) 1 = share
    generalize peers.zipIdx = entries
    induction entries with
    | nil => rfl
    | cons entry rest ih =>
      by_cases trusted : entry.1 ∈ engine.preTrustedPeers
      · simp [trusted, ih]
      · simp [trusted, ih]
  rw [columns]
  refine List.Nodup.sublist (List.filter_sublist.map Prod.snd) ?_
  rw [List.zipIdx_map_snd]
  exact List.nodup_range'

theorem weightIn_fallback (columns : Finset Nat) :
    weightIn columns (engine.fallback peers) =
      (columns ∩ engine.trustedPlaces peers).card * (1 / max (engine.preTrustedPeers.length : ℚ) 1) := by
  refine weightIn_const nodup_fallback ?_ columns
  intro entry member
  obtain ⟨place, -, kept⟩ := List.mem_filterMap.mp member
  split at kept
  · cases kept
    rfl
  · cases kept

theorem trustedPlaces_subset_iff :
    engine.trustedPlaces peers ⊆ places peers ↔ ∀ name ∈ engine.listed peers, peers.count name = 1 := by
  constructor
  · intro inside name member
    obtain ⟨trusted, isPeer⟩ := mem_listed.mp member
    obtain ⟨i, place⟩ := exists_idx isPeer
    have only : ∀ j, peers[j]? = some name → j = i := by
      intro j found
      obtain ⟨other, here⟩ := mem_places.mp (inside (mem_trustedPlaces.mpr ⟨name, trusted, found⟩))
      obtain rfl : other = name := Option.some.inj ((peerToIdx_row here).symm.trans found)
      exact Option.some.inj (here.symm.trans place)
    by_contra more
    have twice : 2 ≤ peers.count name := by
      have := List.count_pos_iff.mpr isPeer
      omega
    obtain ⟨first, second, before, one, two⟩ :=
      List.duplicate_iff_exists_distinct_get.mp (List.duplicate_iff_two_le_count.mpr twice)
    have same := (only first (by rw [one]; exact List.getElem?_eq_getElem first.2)).trans
      (only second (by rw [two]; exact List.getElem?_eq_getElem second.2)).symm
    exact absurd before (by rw [Fin.lt_def]; omega)
  · intro once i member
    obtain ⟨name, trusted, found⟩ := mem_trustedPlaces.mp member
    have isPeer : name ∈ peers := List.mem_of_getElem? found
    obtain ⟨j, place⟩ := exists_idx isPeer
    by_cases same : i = j
    · exact mem_places.mpr ⟨name, same ▸ place⟩
    · have twice : peers.Duplicate name := by
        rw [List.duplicate_iff_exists_distinct_get]
        obtain ⟨short, here⟩ := List.getElem?_eq_some_iff.mp found
        obtain ⟨small, there⟩ := List.getElem?_eq_some_iff.mp (peerToIdx_row place)
        obtain before | after := Nat.lt_or_gt_of_ne same
        · exact ⟨⟨i, short⟩, ⟨j, small⟩, before, here.symm, there.symm⟩
        · exact ⟨⟨j, small⟩, ⟨i, short⟩, after, there.symm, here.symm⟩
      have := List.duplicate_iff_two_le_count.mp twice
      have := once name (mem_listed.mpr ⟨trusted, isPeer⟩)
      omega

theorem weightIn_scale (columns : Finset Nat) (x : ℚ) (row : List (Nat × ℚ)) :
    weightIn columns (scale x row) = weightIn columns row / x := by
  simp only [weightIn, scale, List.map_map, Function.comp_def]
  rw [div_eq_mul_inv, ← List.sum_map_mul_right]
  congr 1
  refine List.map_congr_left fun entry _ => ?_
  split <;> simp [div_eq_mul_inv]

theorem far_from_one {part whole : Nat} (positive : 0 < whole) (below : part ≤ whole) :
    |(part : ℚ) / whole - 1| > f64Epsilon ↔ whole < 2 ^ 52 * (whole - part) := by
  have cast : (0 : ℚ) < whole := by exact_mod_cast positive
  have distance : |(part : ℚ) / whole - 1| = ((whole - part : Nat) : ℚ) / whole := by
    rw [Nat.cast_sub below, abs_sub_comm, abs_of_nonneg]
    · field_simp
    · rw [sub_nonneg, div_le_one cast]
      exact_mod_cast below
  rw [distance, gt_iff_lt, f64Epsilon, div_lt_div_iff₀ (by norm_num) cast, one_mul, mul_comm]
  exact_mod_cast Iff.rfl

theorem card_trusted_inside (nodup : (engine.listed peers).Nodup) :
    (places peers ∩ engine.trustedPlaces peers).card = (engine.listed peers).length := by
  rw [← anchors_eq_inter, card_anchors_of_nodup nodup]

theorem card_trusted_outside (nodup : (engine.listed peers).Nodup) :
    ((Finset.range peers.length \ places peers) ∩ engine.trustedPlaces peers).card + (engine.listed peers).length =
      (engine.trustedPlaces peers).card := by
  rw [← card_trusted_inside nodup, ← Finset.card_union_of_disjoint, ← Finset.union_inter_distrib_right]
  · rw [Finset.sdiff_union_of_subset (places_subset peers), Finset.inter_eq_right.mpr trustedPlaces_subset]
  · exact Finset.disjoint_of_subset_left Finset.inter_subset_left
      (Finset.disjoint_of_subset_right Finset.inter_subset_left Finset.sdiff_disjoint)

theorem once_iff (nodup : (engine.listed peers).Nodup) : (∀ name ∈ engine.listed peers, peers.count name = 1) ↔
    ((Finset.range peers.length \ places peers) ∩ engine.trustedPlaces peers).card = 0 := by
  have inside := card_trusted_inside nodup
  have outside := card_trusted_outside nodup
  rw [← trustedPlaces_subset_iff, ← Finset.inter_eq_right]
  constructor
  · intro same
    rw [same] at inside
    omega
  · intro none
    exact Finset.eq_of_subset_of_card_le Finset.inter_subset_right (by omega)

theorem weight_fallback : weight (engine.fallback peers) =
    (engine.trustedPlaces peers).card * (1 / max (engine.preTrustedPeers.length : ℚ) 1) := by
  rw [← @SparseRows.weightIn_of_subset _ _ (engine.trustedPlaces peers), weightIn_fallback, Finset.inter_self]
  exact fun entry member => List.mem_toFinset.mpr (List.mem_map_of_mem member)

theorem fallbackWhole_iff (present : engine.listed peers ≠ []) (nodup : (engine.listed peers).Nodup) :
    weightIn (places peers) (engine.fallbackRow peers) = 1 ∧
        weightIn (Finset.range peers.length \ places peers) (engine.fallbackRow peers) = 0 ↔
      FallbackWhole engine peers := by
  have found : 0 < (engine.listed peers).length := List.length_pos_iff.mpr present
  have fewer : (engine.listed peers).length ≤ engine.preTrustedPeers.length := List.length_filter_le _ _
  have share : max (engine.preTrustedPeers.length : ℚ) 1 = engine.preTrustedPeers.length :=
    max_eq_left (by exact_mod_cast (by omega : 1 ≤ engine.preTrustedPeers.length))
  have shared : (0 : ℚ) < engine.preTrustedPeers.length := by exact_mod_cast (by omega)
  have anchored := card_trusted_inside nodup
  have rest := card_trusted_outside nodup
  have once := once_iff nodup
  have total : weight (engine.fallback peers) =
      (engine.trustedPlaces peers).card / (engine.preTrustedPeers.length : ℚ) := by
    rw [weight_fallback, share, mul_one_div]
  have moreThanNone : (0 : ℚ) < (engine.trustedPlaces peers).card := by exact_mod_cast (by omega)
  have zero_iff : (((Finset.range peers.length \ places peers) ∩ engine.trustedPlaces peers).card : ℚ) *
      (1 / engine.preTrustedPeers.length) = 0 ↔ ∀ name ∈ engine.listed peers, peers.count name = 1 := by
    rw [once, mul_eq_zero, Nat.cast_eq_zero, or_iff_left (one_div_pos.mpr shared).ne']
  unfold fallbackRow
  rw [total]
  split
  · -- The row is scaled to one, so that only its spread counts.
    rename_i normalised
    rw [weightIn_scale, weightIn_scale, weightIn_fallback, weightIn_fallback, share, anchored, div_eq_zero_iff,
      or_iff_left (div_pos moreThanNone shared).ne', zero_iff]
    have one_iff : (engine.listed peers).length * (1 / (engine.preTrustedPeers.length : ℚ)) /
        ((engine.trustedPlaces peers).card / engine.preTrustedPeers.length) = 1 ↔
        (engine.listed peers).length = (engine.trustedPlaces peers).card := by
      rw [mul_one_div, div_div_div_cancel_right₀ shared.ne', div_eq_one_iff_eq moreThanNone.ne', Nat.cast_inj]
    rw [one_iff]
    constructor
    · rintro ⟨same, counted⟩
      refine ⟨counted, .inr ((far_from_one (by omega) fewer).mp ?_)⟩
      rw [same]
      exact normalised.2
    · rintro ⟨counted, -⟩
      exact ⟨by have := once.mp counted; omega, counted⟩
  · -- The row is near one already and stays as it is.
    rename_i close
    rw [not_and] at close
    have near := close (div_pos moreThanNone shared)
    rw [weightIn_fallback, weightIn_fallback, share, anchored, zero_iff, mul_one_div,
      div_eq_one_iff_eq shared.ne', Nat.cast_inj]
    constructor
    · rintro ⟨same, counted⟩
      exact ⟨counted, .inl same.symm⟩
    · rintro ⟨counted, same | far⟩
      · exact ⟨same.symm, counted⟩
      · have all : (engine.trustedPlaces peers).card = (engine.listed peers).length := by
          have := once.mp counted
          omega
        rw [all] at near
        exact absurd ((far_from_one (by omega) fewer).mpr far) near

end Fallback

/-! ## The iteration -/

section Iteration

variable {engine : EigenTrustEngine} {peers : List String}

def trustAfter (peers : List String) (k : Nat) : Nat → ℚ :=
  (engine.powerStep peers)^[k] (engine.preTrust peers)

theorem trustAfter_succ (k : Nat) :
    engine.trustAfter peers (k + 1) = engine.powerStep peers (engine.trustAfter peers k) :=
  Function.iterate_succ_apply' _ _ _

theorem iterate_eq_trustAfter (peers : List String) (epsilon : ℚ) (iterations done : Nat) :
    ∃ k, engine.iterate peers epsilon iterations (engine.trustAfter peers done) = engine.trustAfter peers k := by
  induction iterations generalizing done with
  | zero => exact ⟨done, rfl⟩
  | succ iterations ih =>
    simp only [iterate]
    rw [← trustAfter_succ]
    split
    · exact ⟨done + 1, rfl⟩
    · exact ih (done + 1)

theorem iterate_zero (iterations done : Nat) :
    engine.iterate peers 0 iterations (engine.trustAfter peers done) = engine.trustAfter peers (done + iterations) := by
  induction iterations generalizing done with
  | zero => rfl
  | succ iterations ih =>
    simp only [iterate]
    rw [← trustAfter_succ, if_neg, ih]
    · congr 1
      omega
    · exact not_lt.mpr (Finset.sum_nonneg fun j _ => abs_nonneg _)

theorem distribution_always_iff (nonempty : peers ≠ []) :
    (∀ epsilon iterations, Distribution peers (engine.computeGlobalTrust peers epsilon iterations)) ↔
      ∀ k, Distribution peers (scoresOf peers (engine.trustAfter peers k)) := by
  have computed (epsilon : ℚ) (iterations : Nat) : engine.computeGlobalTrust peers epsilon iterations =
      scoresOf peers (engine.iterate peers epsilon iterations (engine.trustAfter peers 0)) :=
    if_neg (List.length_pos_iff.mpr nonempty).ne'
  constructor
  · intro all k
    have last := all 0 k
    rw [computed, iterate_zero, Nat.zero_add] at last
    exact last
  · intro all epsilon iterations
    obtain ⟨k, same⟩ := engine.iterate_eq_trustAfter peers epsilon iterations 0
    rw [computed, same]
    exact all k

theorem powerStep_nonneg {t : Nat → ℚ} (nonneg : ∀ i, 0 ≤ t i) (j : Nat) : 0 ≤ engine.powerStep peers t j := by
  have pushed : 0 ≤ push peers.length (engine.trustRow peers) t j := SparseRows.push_nonneg trustRow_nonneg nonneg j
  have trusted : 0 ≤ engine.preTrust peers j := preTrust_nonneg j
  simp only [powerStep, eigentrustAlpha]
  linarith

theorem trustAfter_nonneg (k i : Nat) : 0 ≤ engine.trustAfter peers k i := by
  induction k generalizing i with
  | zero => exact preTrust_nonneg i
  | succ k ih =>
    rw [trustAfter_succ]
    exact powerStep_nonneg ih i

def idle (peers : List String) (t : Nat → ℚ) : ℚ :=
  ∑ i ∈ (Finset.range peers.length).filter (fun i => engine.ratings peers i = []), t i

theorem sum_powerStep (columns : Finset Nat) (t : Nat → ℚ) :
    ∑ j ∈ columns, engine.powerStep peers t j =
      (1 - eigentrustAlpha) * ∑ i ∈ Finset.range peers.length, weightIn columns (engine.trustRow peers i) * t i +
        eigentrustAlpha * ∑ j ∈ columns, engine.preTrust peers j := by
  simp only [powerStep, Finset.sum_add_distrib, ← Finset.mul_sum, SparseRows.sum_push]

theorem sum_rows (columns : Finset Nat) (t : Nat → ℚ) {given : ℚ}
    (rated : ∀ i, engine.ratings peers i ≠ [] → weightIn columns (engine.trustRow peers i) = given) :
    ∑ i ∈ Finset.range peers.length, weightIn columns (engine.trustRow peers i) * t i =
      given * (∑ i ∈ Finset.range peers.length, t i - engine.idle peers t) +
        weightIn columns (engine.fallbackRow peers) * engine.idle peers t := by
  have split (g : Nat → ℚ) := Finset.sum_filter_add_sum_filter_not (Finset.range peers.length)
    (fun i => engine.ratings peers i = []) g
  have unratedRows : ∑ i ∈ (Finset.range peers.length).filter (fun i => engine.ratings peers i = []),
      weightIn columns (engine.trustRow peers i) * t i =
        weightIn columns (engine.fallbackRow peers) * engine.idle peers t := by
    rw [idle, Finset.mul_sum]
    refine Finset.sum_congr rfl fun i member => ?_
    rw [trustRow_unrated (Finset.mem_filter.mp member).2]
  have ratedRows : ∑ i ∈ (Finset.range peers.length).filter (fun i => ¬ engine.ratings peers i = []),
      weightIn columns (engine.trustRow peers i) * t i =
        given * ∑ i ∈ (Finset.range peers.length).filter (fun i => ¬ engine.ratings peers i = []), t i := by
    rw [Finset.mul_sum]
    refine Finset.sum_congr rfl fun i member => ?_
    rw [rated i (Finset.mem_filter.mp member).2]
  rw [← split, ← split t, unratedRows, ratedRows, idle]
  ring

theorem sum_places (t : Nat → ℚ) :
    ∑ i ∈ Finset.range peers.length \ places peers, t i + ∑ i ∈ places peers, t i =
      ∑ i ∈ Finset.range peers.length, t i := Finset.sum_sdiff (places_subset peers)

theorem inside_powerStep (t : Nat → ℚ) :
    ∑ j ∈ places peers, engine.powerStep peers t j =
      (1 - eigentrustAlpha) * (∑ j ∈ places peers, t j + ∑ j ∈ Finset.range peers.length \ places peers, t j -
        engine.idle peers t + weightIn (places peers) (engine.fallbackRow peers) * engine.idle peers t) +
        eigentrustAlpha * ∑ j ∈ places peers, engine.preTrust peers j := by
  rw [sum_powerStep, sum_rows _ t fun i rated => weightIn_rated rated, ← sum_places]
  ring

theorem outside_powerStep (t : Nat → ℚ) :
    ∑ j ∈ Finset.range peers.length \ places peers, engine.powerStep peers t j =
      (1 - eigentrustAlpha) *
        (weightIn (Finset.range peers.length \ places peers) (engine.fallbackRow peers) * engine.idle peers t) +
        eigentrustAlpha * ∑ j ∈ Finset.range peers.length \ places peers, engine.preTrust peers j := by
  rw [sum_powerStep, sum_rows _ t fun i rated => weightIn_rated_outside rated]
  ring

end Iteration

/-! ## Conservation -/

section Conservation

variable {engine : EigenTrustEngine} {peers : List String}

theorem reached_of_trust (present : engine.listed peers ≠ [])
    (rated : ∀ src, Reached engine peers src → ∃ dst, Trusts engine peers src dst) (k : Nat) {i : Nat}
    (inRange : i < peers.length) (holds : engine.trustAfter peers k i ≠ 0) :
    ∃ name, Reached engine peers name ∧ (peerToIdx peers).find? name = some i := by
  have anchored : ∀ j, engine.preTrust peers j ≠ 0 →
      ∃ name, Reached engine peers name ∧ (peerToIdx peers).find? name = some j := by
    intro j trusted
    rw [preTrust_of_listed present] at trusted
    obtain ⟨name, preTrusted, place⟩ := mem_anchors.mp (by by_contra other; exact trusted (if_neg other))
    exact ⟨name, .anchor preTrusted (mem_peerToIdx.mp (Table.mem_keys_iff.mpr ⟨j, place⟩)), place⟩
  induction k generalizing i with
  | zero => exact anchored i holds
  | succ k ih =>
    rw [trustAfter_succ] at holds
    by_cases trusted : engine.preTrust peers i = 0
    · have moved : push peers.length (engine.trustRow peers) (engine.trustAfter peers k) i ≠ 0 := by
        intro none
        exact holds (by simp [powerStep, none, trusted])
      obtain ⟨src, small, before, entry, member, rfl⟩ := SparseRows.push_support moved
      obtain ⟨name, reached, place⟩ := ih small before
      obtain ⟨dst, trusts, there⟩ :=
        mem_trustRow_rated place ((rated_iff place).mpr (rated name reached)) member
      exact ⟨dst, .rated reached trusts, there⟩
    · exact anchored i trusted

theorem trust_of_reached (present : engine.listed peers ≠ []) {name : String} (reached : Reached engine peers name) :
    ∃ i k, (peerToIdx peers).find? name = some i ∧ 0 < engine.trustAfter peers k i := by
  induction reached with
  | @anchor name preTrusted member =>
    obtain ⟨i, place⟩ := exists_idx member
    refine ⟨i, 0, place, ?_⟩
    show 0 < engine.preTrust peers i
    rw [preTrust_of_listed present, if_pos (mem_anchors.mpr ⟨name, preTrusted, place⟩), one_div_pos]
    exact_mod_cast List.length_pos_iff.mpr present
  | @rated src dst _ trusts ih =>
    obtain ⟨i, k, place, positive⟩ := ih
    obtain ⟨j, there⟩ := exists_idx trusts.2.1
    obtain ⟨v, counts, member⟩ := trustRow_of_trusts trusts place there
    have moved : 0 < push peers.length (engine.trustRow peers) (engine.trustAfter peers k) j :=
      SparseRows.push_pos trustRow_nonneg (trustAfter_nonneg k) (lt_of_idx place) positive member counts
    have trusted : 0 ≤ engine.preTrust peers j := preTrust_nonneg j
    refine ⟨j, k + 1, there, ?_⟩
    rw [trustAfter_succ]
    simp only [powerStep, eigentrustAlpha]
    linarith

theorem outside_le_idle (k : Nat) :
    ∑ j ∈ Finset.range peers.length \ places peers, engine.trustAfter peers k j ≤
      engine.idle peers (engine.trustAfter peers k) := by
  refine Finset.sum_le_sum_of_subset_of_nonneg ?_ fun i _ _ => trustAfter_nonneg k i
  intro i member
  obtain ⟨inRange, outside⟩ := Finset.mem_sdiff.mp member
  exact Finset.mem_filter.mpr ⟨inRange, ratings_outside outside⟩

theorem outside_nonneg (k : Nat) :
    0 ≤ ∑ j ∈ Finset.range peers.length \ places peers, engine.trustAfter peers k j :=
  Finset.sum_nonneg fun j _ => trustAfter_nonneg k j

theorem inside_of_idle (total : ∑ j ∈ places peers, engine.preTrust peers j = 1)
    (none : ∀ k, engine.idle peers (engine.trustAfter peers k) = 0) (k : Nat) :
    ∑ j ∈ places peers, engine.trustAfter peers k j = 1 := by
  induction k with
  | zero => exact total
  | succ k ih =>
    have outside : ∑ j ∈ Finset.range peers.length \ places peers, engine.trustAfter peers k j = 0 :=
      le_antisymm (none k ▸ outside_le_idle k) (outside_nonneg k)
    rw [trustAfter_succ, inside_powerStep, ih, outside, none k, total]
    ring

theorem inside_of_whole (present : engine.listed peers ≠ []) (nodup : (engine.listed peers).Nodup)
    (whole : FallbackWhole engine peers) (k : Nat) :
    ∑ j ∈ places peers, engine.trustAfter peers k j = 1 ∧
      ∑ j ∈ Finset.range peers.length \ places peers, engine.trustAfter peers k j = 0 := by
  obtain ⟨one, zero⟩ := (fallbackWhole_iff present nodup).mpr whole
  induction k with
  | zero => exact ⟨(sum_preTrust present).mpr nodup, sum_preTrust_outside present⟩
  | succ k ih =>
    obtain ⟨inside, outside⟩ := ih
    rw [trustAfter_succ, inside_powerStep, outside_powerStep, inside, outside, one, zero,
      (sum_preTrust present).mpr nodup, sum_preTrust_outside present]
    constructor <;> ring

/-- A sum that stays one forces the fallback row to be whole, if a peer without ratings ever holds trust. -/
theorem whole_of_conserved (present : engine.listed peers ≠ []) (nodup : (engine.listed peers).Nodup)
    (conserved : ∀ k, ∑ j ∈ places peers, engine.trustAfter peers k j = 1) {k : Nat}
    (held : engine.idle peers (engine.trustAfter peers k) ≠ 0) : FallbackWhole engine peers := by
  have balance : ∀ k, ∑ j ∈ Finset.range peers.length \ places peers, engine.trustAfter peers k j =
      (1 - weightIn (places peers) (engine.fallbackRow peers)) * engine.idle peers (engine.trustAfter peers k) := by
    intro k
    have next := conserved (k + 1)
    rw [trustAfter_succ, inside_powerStep, conserved k, (sum_preTrust present).mpr nodup, eigentrustAlpha] at next
    linarith
  have spilled : ∀ k, ∑ j ∈ Finset.range peers.length \ places peers, engine.trustAfter peers (k + 1) j =
      (1 - eigentrustAlpha) * (weightIn (Finset.range peers.length \ places peers) (engine.fallbackRow peers) *
        engine.idle peers (engine.trustAfter peers k)) := by
    intro k
    rw [trustAfter_succ, outside_powerStep, sum_preTrust_outside present, mul_zero, add_zero]
  have one : weightIn (places peers) (engine.fallbackRow peers) = 1 := by
    by_contra less
    refine held ?_
    -- From the start on nothing is idle, since nothing is outside.
    have idle_of_outside : ∀ k,
        ∑ j ∈ Finset.range peers.length \ places peers, engine.trustAfter peers k j = 0 →
          engine.idle peers (engine.trustAfter peers k) = 0 := by
      intro k outside
      have product := balance k
      rw [outside, zero_eq_mul] at product
      exact product.resolve_left (sub_ne_zero.mpr (Ne.symm less))
    clear held
    induction k with
    | zero => exact idle_of_outside 0 (sum_preTrust_outside present)
    | succ k ih => exact idle_of_outside (k + 1) (by rw [spilled, ih, mul_zero, mul_zero])
  refine (fallbackWhole_iff present nodup).mp ⟨one, ?_⟩
  have outside := balance (k + 1)
  rw [one, sub_self, zero_mul, spilled, mul_eq_zero, mul_eq_zero] at outside
  have damped : (1 : ℚ) - eigentrustAlpha ≠ 0 := by norm_num [eigentrustAlpha]
  exact (outside.resolve_left damped).resolve_right held

theorem places_of_nodup (nodup : peers.Nodup) : places peers = Finset.range peers.length :=
  Finset.eq_of_subset_of_card_le (places_subset peers)
    (by rw [Finset.card_range, card_places_eq_iff.mpr nodup])

theorem fallbackRow_of_unlisted (none : engine.listed peers = []) : engine.fallbackRow peers = [] := by
  have empty : engine.fallback peers = [] := by
    refine List.filterMap_eq_nil_iff.mpr fun place member => if_neg fun trusted => ?_
    have isPeer : place.1 ∈ peers := List.mem_of_getElem? (List.mem_zipIdx_iff_getElem?.mp member)
    have := mem_listed.mpr ⟨trusted, isPeer⟩
    rw [none] at this
    cases this
  simp [fallbackRow, empty, weight]

theorem rated_of_conserved (none : engine.listed peers = []) (nodup : peers.Nodup)
    (conserved : ∀ k, ∑ j ∈ places peers, engine.trustAfter peers k j = 1) {i : Nat} (inRange : i < peers.length) :
    engine.ratings peers i ≠ [] := by
  intro unrated
  have next : ∑ j ∈ places peers, engine.powerStep peers (engine.preTrust peers) j = 1 := conserved 1
  have total : ∑ j ∈ places peers, engine.preTrust peers j = 1 := conserved 0
  rw [inside_powerStep, total, places_of_nodup nodup, Finset.sdiff_self, Finset.sum_empty,
    fallbackRow_of_unlisted none, eigentrustAlpha] at next
  have positive : 0 < engine.idle peers (engine.preTrust peers) := by
    refine Finset.sum_pos' (fun j _ => preTrust_nonneg j)
      ⟨i, Finset.mem_filter.mpr ⟨Finset.mem_range.mpr inRange, unrated⟩, ?_⟩
    rw [preTrust_of_unlisted none, one_div_pos]
    exact_mod_cast Nat.lt_of_le_of_lt (Nat.zero_le i) inRange
  simp only [weightIn, List.map_nil, List.sum_nil, zero_mul] at next
  linarith

/-- The scores are a distribution after every number of iterations exactly when no trust is lost on the way. -/
theorem global_trust_distribution_iff (engine : EigenTrustEngine) (peers : List String) :
    (peers ≠ [] → ∀ epsilon iterations,
      Distribution peers (engine.computeGlobalTrust peers epsilon iterations)) ↔ Conserves engine peers := by
  by_cases nonempty : peers = []
  · subst nonempty
    have unlisted : engine.listed [] = [] := List.filter_eq_nil_iff.mpr fun name _ => by simp [peerToIdx, Table.collect]
    simp [Conserves, unlisted]
  rw [imp_iff_right nonempty, distribution_always_iff nonempty, Conserves]
  simp only [distribution_iff (trustAfter_nonneg _)]
  split
  · rename_i none
    constructor
    · intro conserved
      have nodup := (sum_preTrust_unlisted none nonempty).mp (conserved 0)
      refine ⟨nodup, fun src member => ?_⟩
      obtain ⟨i, place⟩ := exists_idx member
      exact (rated_iff place).mp (rated_of_conserved none nodup conserved (lt_of_idx place))
    · rintro ⟨nodup, rated⟩ k
      refine inside_of_idle ((sum_preTrust_unlisted none nonempty).mpr nodup)
        (fun k => Finset.sum_eq_zero fun i member => ?_) k
      obtain ⟨inRange, unrated⟩ := Finset.mem_filter.mp member
      rw [← places_of_nodup nodup] at inRange
      obtain ⟨name, place⟩ := mem_places.mp inRange
      exact absurd unrated ((rated_iff place).mpr
        (rated name (mem_peerToIdx.mp (Table.mem_keys_iff.mpr ⟨i, place⟩))))
  · rename_i present
    constructor
    · intro conserved
      have nodup := (sum_preTrust present).mp (conserved 0)
      -- A peer that is reached and has rated nobody passes its trust on to the fallback row.
      refine ⟨nodup, or_iff_not_imp_right.mpr fun unrated => ?_⟩
      push Not at unrated
      obtain ⟨src, reached, nobody⟩ := unrated
      obtain ⟨i, k, place, positive⟩ := trust_of_reached present reached
      refine whole_of_conserved present nodup conserved (k := k) (ne_of_gt ?_)
      refine Finset.sum_pos' (fun j _ => trustAfter_nonneg k j) ⟨i, Finset.mem_filter.mpr ⟨?_, ?_⟩, positive⟩
      · exact Finset.mem_range.mpr (lt_of_idx place)
      · by_contra rated
        obtain ⟨dst, trusts⟩ := (rated_iff place).mp rated
        exact nobody dst trusts
    · rintro ⟨nodup, whole | rated⟩ k
      · exact (inside_of_whole present nodup whole k).1
      · refine inside_of_idle ((sum_preTrust present).mpr nodup) (fun k => Finset.sum_eq_zero fun i member => ?_) k
        obtain ⟨inRange, unrated⟩ := Finset.mem_filter.mp member
        by_contra holds
        obtain ⟨name, reached, place⟩ := reached_of_trust present rated k (Finset.mem_range.mp inRange) holds
        exact (rated_iff place).mpr (rated name reached) unrated

/-- A single peer that nobody pre-trusts and that has rated nobody keeps only the damping share of its trust. -/
theorem lone_peer_loses_trust :
    ¬ Distribution ["a"] ((new []).computeGlobalTrust ["a"] convergenceEpsilon maxEigentrustIterations) := by
  intro distribution
  have sum := distribution.sum
  revert sum
  decide +kernel

end Conservation

end EigenTrustEngine

end Soshal.Network
