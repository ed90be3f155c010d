import Soshal.Library.CharBoundaries
import Soshal.Library.Fallible
import Soshal.Library.Fields
import Soshal.Library.OrderedMap
import Soshal.Library.Windows
import Mathlib.Data.List.Perm.Basic

/-! Payloads cut into lines for a radio link.

The sender counts characters and the receiver bytes, and the receiver takes no more
than 4096 lines however small the sender cuts them.
-/

set_option autoImplicit false

namespace Soshal.Mesh.Ble

open Library
open Library.Text (byteLen utf8 fromUtf8 fromUtf8_utf8 length_utf8)
open Library.Encoding (base64Encode base64Decode base64Decode_base64Encode byteLen_base64Encode)
open Library.Fields (splitOnce parseUnsigned splitOnce_eq_some)
open Library.Windows (divCeil windows)
open Library.CharBoundaries (byteSize byteLen_ofList byteSize_toList length_le_byteSize)

def defaultMtu : Nat := 23
def maxMtu : Nat := 512
def maxPayloadBytes : Nat := 64 * 1024
def maxChunks : Nat := 4096

def chunkSize (mtu : Nat) : Nat := max (max defaultMtu (min mtu maxMtu) - 3) 20

def chunkLine (count i : Nat) (piece : String) : String :=
  base64Encode (utf8 (toString i ++ ":" ++ toString count ++ ":" ++ piece))

def pieces (data : String) (mtu : Nat) : List String := (windows (chunkSize mtu) data.toList).map String.ofList

def splitChunks (data : String) (mtu : Nat) : List String :=
  (pieces data mtu).mapIdx (chunkLine (divCeil data.toList.length (chunkSize mtu)))

def readLine (line : String) : Option (Nat × Nat × String) := do
  let decoded ← base64Decode line
  let text ← fromUtf8 decoded
  let (idx, rest) ← splitOnce text ':'
  let idx ← parseUnsigned (2 ^ 64) idx
  let (count, data) ← splitOnce rest ':'
  let count ← parseUnsigned (2 ^ 64) count
  return (idx, count, data)

structure Collected where
  map : OrderedMap Nat String
  declared : Option Nat
  totalLen : Nat

def Collected.empty : Collected := ⟨.empty, none, 0⟩

def Collected.add (r : Collected) (line : String) : Option Collected :=
  if byteLen line > maxMtu * 4 then none
  else
    (readLine line).bind fun (idx, count, data) =>
      if count = 0 ∨ count > maxChunks then none
      else if byteLen data > maxMtu then none
      else if r.declared.any (· ≠ count) then none
      else if r.totalLen + byteLen data > maxPayloadBytes * 2 then none
      else if (r.map.get? idx).isSome then none
      else some ⟨r.map.insert idx data, some count, r.totalLen + byteLen data⟩

def Collected.finish (r : Collected) : Option String :=
  r.declared.bind fun count =>
    if count = 0 ∨ r.map.entries.length ≠ count then none
    else ((List.range count).mapM r.map.get?).map String.join

def reassembleChunks (lines : List String) : Option String :=
  (lines.foldlM Collected.add Collected.empty).bind Collected.finish

def totalLen (entries : List (Nat × String)) : Nat := (entries.map fun entry => byteLen entry.2).sum

theorem totalLen_cons (entry : Nat × String) (rest : List (Nat × String)) :
    totalLen (entry :: rest) = byteLen entry.2 + totalLen rest := List.sum_cons

/-- A line that passes the checks made on a line by itself. -/
structure Accepts (count : Nat) (line : String) (entry : Nat × String) : Prop where
  short : byteLen line ≤ maxMtu * 4
  read : readLine line = some (entry.1, count, entry.2)
  positive : 0 < count
  few : count ≤ maxChunks
  fits : byteLen entry.2 ≤ maxMtu

theorem add_eq_some {r r' : Collected} {line : String} :
    r.add line = some r' ↔ ∃ count entry, Accepts count line entry ∧ (∀ c, r.declared = some c → c = count) ∧
      r.totalLen + byteLen entry.2 ≤ maxPayloadBytes * 2 ∧ (∀ e ∈ r.map, e.1 ≠ entry.1) ∧
      r' = ⟨r.map.insert entry.1 entry.2, some count, r.totalLen + byteLen entry.2⟩ := by
  have absent (idx : Nat) : (r.map.get? idx).isSome = true ↔ ¬ ∀ e ∈ r.map, e.1 ≠ idx := by
    simp only [Option.isSome_iff_exists, OrderedMap.get?_eq_some, not_forall, not_not]
    constructor
    · rintro ⟨data, member⟩
      exact ⟨(idx, data), member, rfl⟩
    · rintro ⟨e, member, rfl⟩
      exact ⟨e.2, member⟩
  have other (count : Nat) : r.declared.any (· ≠ count) = true ↔ ¬ ∀ c, r.declared = some c → c = count := by
    cases r.declared <;> simp
  unfold Collected.add
  constructor
  · intro added
    split at added
    · cases added
    · rename_i short
      obtain ⟨⟨idx, count, data⟩, read, added⟩ := Option.bind_eq_some_iff.mp added
      dsimp only at added
      repeat' split at added
      case isFalse counted fits agree room fresh =>
        cases added
        rw [other, not_not] at agree
        rw [absent, not_not] at fresh
        exact ⟨count, (idx, data), ⟨Nat.not_lt.mp short, read, by omega, by omega, Nat.not_lt.mp fits⟩, agree,
          Nat.not_lt.mp room, fresh, rfl⟩
      all_goals cases added
  · rintro ⟨count, ⟨idx, data⟩, ⟨short, read, positive, few, fits⟩, agree, room, fresh, rfl⟩
    rw [if_neg (Nat.not_lt.mpr short), read, Option.bind_some]
    dsimp only at fits room fresh ⊢
    rw [if_neg (by omega), if_neg (Nat.not_lt.mpr fits), if_neg (by rw [other, not_not]; exact agree),
      if_neg (Nat.not_lt.mpr room), if_neg (by rw [absent, not_not]; exact fresh)]

theorem collected {lines : List String} {r r' : Collected} {count : Nat} (declared : r.declared = some count)
    (run : lines.foldlM Collected.add r = some r') :
    ∃ entries, List.Forall₂ (Accepts count) lines entries ∧ r'.declared = some count ∧
      r'.map.entries.Perm (entries ++ r.map.entries) := by
  induction lines generalizing r with
  | nil =>
    cases run
    exact ⟨[], .nil, declared, .refl _⟩
  | cons line rest ih =>
    rw [List.foldlM_cons] at run
    obtain ⟨r₁, added, run⟩ := Option.bind_eq_some_iff.mp run
    obtain ⟨count', entry, accepted, agree, -, fresh, rfl⟩ := add_eq_some.mp added
    obtain rfl := agree count declared
    obtain ⟨entries, accepts, declared', held⟩ := ih rfl run
    refine ⟨entry :: entries, .cons accepted accepts, declared', held.trans ?_⟩
    exact (List.Perm.append_left entries (OrderedMap.insert_perm fresh entry.2)).trans List.perm_middle

theorem collects {lines : List String} {entries : List (Nat × String)} {r : Collected} {count : Nat}
    (accepts : List.Forall₂ (Accepts count) lines entries) (declared : ∀ c, r.declared = some c → c = count)
    (distinct : (entries.map Prod.fst).Nodup) (fresh : ∀ entry ∈ entries, ∀ e ∈ r.map, e.1 ≠ entry.1)
    (room : r.totalLen + totalLen entries ≤ maxPayloadBytes * 2) :
    ∃ r', lines.foldlM Collected.add r = some r' ∧ r'.map.entries.Perm (entries ++ r.map.entries) ∧
      (lines ≠ [] → r'.declared = some count) := by
  induction accepts generalizing r with
  | nil => exact ⟨r, rfl, .refl _, fun none_read => absurd rfl none_read⟩
  | @cons line entry rest later accepted accepts ih =>
    rw [totalLen_cons] at room
    have first_room : r.totalLen + byteLen entry.2 ≤ maxPayloadBytes * 2 := by omega
    have first_fresh := fresh entry List.mem_cons_self
    have added := add_eq_some.mpr ⟨count, entry, accepted, declared, first_room, first_fresh, rfl⟩
    obtain ⟨apart, distinct'⟩ := List.nodup_cons.mp (List.map_cons ▸ distinct)
    have later_fresh : ∀ e ∈ later, ∀ held ∈ r.map.insert entry.1 entry.2, held.1 ≠ e.1 := by
      intro e member held holds
      obtain rfl | ⟨older, -⟩ := OrderedMap.mem_insert.mp holds
      · exact fun same => apart (List.mem_map.mpr ⟨e, member, same.symm⟩)
      · exact fresh e (List.mem_cons_of_mem _ member) held older
    obtain ⟨r', run, held, declared'⟩ :=
      ih (r := ⟨r.map.insert entry.1 entry.2, some count, r.totalLen + byteLen entry.2⟩)
        (fun c same => (Option.some.inj same).symm) distinct' later_fresh (by dsimp only; omega)
    refine ⟨r', ?_, ?_, fun _ => ?_⟩
    · rw [List.foldlM_cons, added]
      exact run
    · refine held.trans ?_
      exact (List.Perm.append_left later (OrderedMap.insert_perm first_fresh entry.2)).trans List.perm_middle
    · cases rest with
      | nil =>
        cases accepts
        cases run
        rfl
      | cons => exact declared' (List.cons_ne_nil _ _)

def indexed (pieces : List String) : List (Nat × String) := pieces.mapIdx Prod.mk

theorem mem_indexed {pieces : List String} {entry : Nat × String} :
    entry ∈ indexed pieces ↔ pieces[entry.1]? = some entry.2 := by
  rw [indexed, List.mem_mapIdx]
  constructor
  · rintro ⟨i, inside, rfl⟩
    exact List.getElem?_eq_getElem inside
  · intro found
    obtain ⟨inside, same⟩ := List.getElem?_eq_some_iff.mp found
    exact ⟨entry.1, inside, Prod.ext rfl same⟩

theorem keys_indexed (pieces : List String) : (indexed pieces).map Prod.fst = List.range pieces.length := by
  apply List.ext_getElem?
  intro i
  rw [List.getElem?_map, indexed, List.getElem?_mapIdx]
  obtain inside | outside := Nat.lt_or_ge i pieces.length
  · rw [List.getElem?_eq_getElem inside, List.getElem?_range inside]
    rfl
  · rw [List.getElem?_eq_none outside, List.getElem?_eq_none (by rwa [List.length_range])]
    rfl

theorem nodup_indexed (pieces : List String) : (indexed pieces).Nodup := by
  refine List.Nodup.of_map Prod.fst ?_
  rw [keys_indexed]
  exact List.nodup_range

theorem finish_eq_some {r : Collected} {count : Nat} {s : String} (declared : r.declared = some count)
    (positive : 0 < count) :
    r.finish = some s ↔ ∃ pieces, pieces.length = count ∧ r.map.entries.Perm (indexed pieces) ∧
      s = String.join pieces := by
  unfold Collected.finish
  rw [declared, Option.bind_some]
  constructor
  · intro finished
    split at finished
    · cases finished
    · rename_i complete
      obtain ⟨pieces, read, rfl⟩ := Option.map_eq_some_iff.mp finished
      have each := Fallible.mapM_eq_some.mp read
      have length : pieces.length = count := by
        have lengths := congrArg List.length each
        rw [List.length_map, List.length_map, List.length_range] at lengths
        exact lengths.symm
      have held : indexed pieces ⊆ r.map.entries := by
        intro entry member
        have found := mem_indexed.mp member
        obtain ⟨inside, same⟩ := List.getElem?_eq_some_iff.mp found
        have at_index := congrArg (·[entry.1]?) each
        simp only [List.getElem?_map] at at_index
        rw [found, List.getElem?_range (by omega)] at at_index
        exact OrderedMap.get?_eq_some.mp (Option.some.inj at_index)
      have short : r.map.entries.length ≤ (indexed pieces).length := by
        rw [indexed, List.length_mapIdx]
        omega
      exact ⟨pieces, length, (((nodup_indexed pieces).subperm held).perm_of_length_le short).symm, rfl⟩
  · rintro ⟨pieces, rfl, held, rfl⟩
    have complete : r.map.entries.length = pieces.length := by rw [held.length_eq, indexed, List.length_mapIdx]
    rw [if_neg (by omega)]
    refine congrArg (Option.map String.join) (Fallible.mapM_eq_some.mpr (List.ext_getElem? fun i => ?_))
    rw [List.getElem?_map, List.getElem?_map]
    obtain inside | outside := Nat.lt_or_ge i pieces.length
    · have member : (i, pieces[i]) ∈ r.map :=
        held.mem_iff.mpr (mem_indexed.mpr (List.getElem?_eq_getElem inside))
      rw [List.getElem?_range inside, List.getElem?_eq_getElem inside, Option.map_some, Option.map_some,
        OrderedMap.get?_eq_some.mpr member]
    · rw [List.getElem?_eq_none outside, List.getElem?_eq_none (by rwa [List.length_range])]
      rfl

/-- The lines are one for each index below the count that all of them declare, and the text is made of their
contents in the order of the indices. -/
def Exact (lines : List String) (s : String) : Prop :=
  ∃ pieces : List String, pieces ≠ [] ∧ s = String.join pieces ∧
    (lines.map readLine).Perm ((indexed pieces).map fun entry => some (entry.1, pieces.length, entry.2))

theorem map_readLine {lines : List String} {entries : List (Nat × String)} {count : Nat}
    (accepts : List.Forall₂ (Accepts count) lines entries) :
    lines.map readLine = entries.map fun entry => some (entry.1, count, entry.2) := by
  induction accepts with
  | nil => rfl
  | cons accepted _ ih => rw [List.map_cons, List.map_cons, accepted.read, ih]

theorem accepts_of_reassembled {lines : List String} {s : String} (done : reassembleChunks lines = some s) :
    ∃ pieces entries, pieces ≠ [] ∧ List.Forall₂ (Accepts pieces.length) lines entries ∧
      entries.Perm (indexed pieces) ∧ s = String.join pieces := by
  obtain ⟨r, run, finished⟩ := Option.bind_eq_some_iff.mp done
  cases lines with
  | nil =>
    cases run
    cases finished
  | cons line rest =>
    rw [List.foldlM_cons] at run
    obtain ⟨r₁, added, run⟩ := Option.bind_eq_some_iff.mp run
    obtain ⟨count, entry, accepted, -, -, -, rfl⟩ := add_eq_some.mp added
    obtain ⟨entries, accepts, declared, held⟩ := collected rfl run
    obtain ⟨pieces, rfl, perm, rfl⟩ := (finish_eq_some declared accepted.positive).mp finished
    refine ⟨pieces, entry :: entries, List.ne_nil_of_length_pos accepted.positive, .cons accepted accepts, ?_, rfl⟩
    exact (List.perm_append_singleton entry entries).symm.trans (held.symm.trans perm)

theorem exact_of_reassembled {lines : List String} {s : String} (done : reassembleChunks lines = some s) :
    Exact lines s := by
  obtain ⟨pieces, entries, nonempty, accepts, perm, rfl⟩ := accepts_of_reassembled done
  refine ⟨pieces, nonempty, rfl, ?_⟩
  rw [map_readLine accepts]
  exact perm.map _

theorem chunkSize_pos (mtu : Nat) : 0 < chunkSize mtu := Nat.lt_of_lt_of_le (by decide) (Nat.le_max_right _ 20)

@[simp] theorem length_pieces (data : String) (mtu : Nat) :
    (pieces data mtu).length = divCeil data.toList.length (chunkSize mtu) := by
  rw [pieces, List.length_map, Windows.length_windows]

theorem join_pieces (data : String) (mtu : Nat) : String.join (pieces data mtu) = data := by
  rw [← String.toList_inj, String.toList_join, pieces, List.flatMap_map]
  simp only [String.toList_ofList]
  rw [List.flatMap_id', Windows.flatten_windows (chunkSize_pos mtu)]

theorem contents_indexed (ps : List String) : (indexed ps).map Prod.snd = ps := by
  apply List.ext_getElem?
  intro i
  rw [List.getElem?_map, indexed, List.getElem?_mapIdx, Option.map_map]
  exact Option.map_id_apply

theorem byteLen_join (ps : List String) : byteLen (String.join ps) = (ps.map byteLen).sum := by
  induction ps with
  | nil => rfl
  | cons p ps ih =>
    have both : byteLen (p ++ String.join ps) = byteLen p + byteLen (String.join ps) := String.utf8ByteSize_append
    rw [String.join_cons, both, ih, List.map_cons, List.sum_cons]

theorem totalLen_indexed (ps : List String) : totalLen (indexed ps) = byteLen (String.join ps) := by
  have contents : (indexed ps).map (fun entry => byteLen entry.2) = ((indexed ps).map Prod.snd).map byteLen := by
    rw [List.map_map]
    rfl
  rw [totalLen, contents, contents_indexed, byteLen_join]

theorem readLine_chunkLine {count i : Nat} (piece : String) (few : count < 2 ^ 64) (inside : i < 2 ^ 64) :
    readLine (chunkLine count i piece) = some (i, count, piece) := by
  have plain (n : Nat) : ':' ∉ (toString n).toList := by
    intro member
    cases Fields.isDigit_of_mem_toString member
  have first : splitOnce (toString i ++ ":" ++ toString count ++ ":" ++ piece) ':' =
      some (toString i, toString count ++ ":" ++ piece) := by
    refine splitOnce_eq_some.mpr ⟨?_, plain i⟩
    simp only [String.append_assoc]
    rfl
  have second : splitOnce (toString count ++ ":" ++ piece) ':' = some (toString count, piece) :=
    splitOnce_eq_some.mpr ⟨rfl, plain count⟩
  simp only [readLine, chunkLine, base64Decode_base64Encode, fromUtf8_utf8, Option.bind_eq_bind, Option.bind_some, first,
    second, Fields.parseUnsigned_toString few, Fields.parseUnsigned_toString inside, Option.pure_def]

theorem byteLen_chunkLine_le {count i : Nat} {piece : String} (few : count ≤ maxChunks) (inside : i < count)
    (fits : byteLen piece ≤ maxMtu) : byteLen (chunkLine count i piece) ≤ maxMtu * 4 := by
  have four : maxChunks < 10 ^ 4 := by decide
  have index := Fields.byteLen_toString_le (n := i) (k := 4) (by decide) (by omega)
  have total := Fields.byteLen_toString_le (n := count) (k := 4) (by decide) (by omega)
  rw [chunkLine, byteLen_base64Encode, length_utf8]
  simp only [byteLen, String.utf8ByteSize_append] at *
  have colon : ":".utf8ByteSize = 1 := by decide
  have cap : maxMtu = 512 := rfl
  omega

/-- The receiver can take what the sender makes of the payload: no more lines than it takes, and no piece with more
bytes than it takes. -/
def Fits (data : String) (mtu : Nat) : Prop :=
  data.toList.length ≤ maxChunks * chunkSize mtu ∧ ∀ piece ∈ pieces data mtu, byteLen piece ≤ maxMtu

instance (data : String) (mtu : Nat) : Decidable (Fits data mtu) := inferInstanceAs (Decidable (_ ∧ _))

section RoundTrip

variable {data : String} {mtu : Nat}

theorem count_small (small : byteLen data ≤ maxPayloadBytes * 2) :
    divCeil data.toList.length (chunkSize mtu) < 2 ^ 64 := by
  have characters : data.toList.length ≤ byteLen data := by
    rw [← byteSize_toList]
    exact length_le_byteSize _
  have atMost : divCeil data.toList.length (chunkSize mtu) ≤ data.toList.length :=
    (Windows.divCeil_le_iff (chunkSize_pos mtu)).mpr (Nat.le_mul_of_pos_right _ (chunkSize_pos mtu))
  have cap : maxPayloadBytes * 2 = 131072 := rfl
  omega

theorem count_pos (nonempty : data ≠ "") : 0 < divCeil data.toList.length (chunkSize mtu) := by
  rw [Windows.lt_divCeil_iff (chunkSize_pos mtu), Nat.zero_mul, List.length_pos_iff]
  simpa using nonempty

theorem splitChunks_eq (data : String) (mtu : Nat) :
    splitChunks data mtu = (indexed (pieces data mtu)).map fun entry =>
      chunkLine (divCeil data.toList.length (chunkSize mtu)) entry.1 entry.2 := by
  apply List.ext_getElem?
  intro i
  rw [splitChunks, indexed, List.getElem?_map, List.getElem?_mapIdx, List.getElem?_mapIdx, Option.map_map]
  rfl

theorem index_lt {entry : Nat × String} (member : entry ∈ indexed (pieces data mtu)) :
    entry.1 < divCeil data.toList.length (chunkSize mtu) ∧ entry.2 ∈ pieces data mtu := by
  obtain ⟨inside, same⟩ := List.getElem?_eq_some_iff.mp (mem_indexed.mp member)
  exact ⟨by rwa [length_pieces] at inside, same ▸ List.getElem_mem inside⟩

theorem splitChunks_accepts (nonempty : data ≠ "") (small : byteLen data ≤ maxPayloadBytes * 2)
    (fits : Fits data mtu) :
    List.Forall₂ (Accepts (divCeil data.toList.length (chunkSize mtu))) (splitChunks data mtu)
      (indexed (pieces data mtu)) := by
  have few : divCeil data.toList.length (chunkSize mtu) ≤ maxChunks :=
    (Windows.divCeil_le_iff (chunkSize_pos mtu)).mpr fits.1
  rw [splitChunks_eq, List.forall₂_map_left_iff, List.forall₂_same]
  intro entry member
  obtain ⟨inside, piece⟩ := index_lt member
  have counted := @count_small data mtu small
  exact ⟨byteLen_chunkLine_le few inside (fits.2 _ piece), readLine_chunkLine _ counted (inside.trans counted),
    count_pos nonempty, few, fits.2 _ piece⟩

theorem sent_fits (small : byteLen data ≤ maxPayloadBytes * 2) {lines : List String}
    (order : lines.Perm (splitChunks data mtu)) {count : Nat} {entries : List (Nat × String)}
    (accepts : List.Forall₂ (Accepts count) lines entries) {entry : Nat × String}
    (member : entry ∈ indexed (pieces data mtu)) :
    divCeil data.toList.length (chunkSize mtu) ≤ maxChunks ∧ byteLen entry.2 ≤ maxMtu := by
  have sent : chunkLine (divCeil data.toList.length (chunkSize mtu)) entry.1 entry.2 ∈ lines := by
    rw [order.mem_iff, splitChunks_eq]
    exact List.mem_map_of_mem member
  obtain ⟨taken, -, accepted⟩ := Fallible.forall₂_mem accepts sent
  have counted := @count_small data mtu small
  have same := accepted.read.symm.trans (readLine_chunkLine _ counted ((index_lt member).1.trans counted))
  simp only [Option.some.injEq, Prod.mk.injEq] at same
  obtain ⟨-, count, content⟩ := same
  exact ⟨count ▸ accepted.few, content ▸ accepted.fits⟩

section

variable (nonempty : data ≠ "") (small : byteLen data ≤ maxPayloadBytes * 2) {lines : List String}
  (order : lines.Perm (splitChunks data mtu))
include nonempty small order

theorem fits_of_reassembled (done : reassembleChunks lines = some data) : Fits data mtu := by
  obtain ⟨read, entries, -, accepts, -, -⟩ := accepts_of_reassembled done
  have some_piece : indexed (pieces data mtu) ≠ [] := by
    intro none_sent
    have empty : pieces data mtu = [] := by rw [← contents_indexed (pieces data mtu), none_sent, List.map_nil]
    apply nonempty
    rw [← join_pieces data mtu, empty]
    rfl
  obtain ⟨entry, member⟩ := List.exists_mem_of_ne_nil _ some_piece
  refine ⟨(Windows.divCeil_le_iff (chunkSize_pos mtu)).mp (sent_fits small order accepts member).1,
    fun piece member => ?_⟩
  rw [← contents_indexed (pieces data mtu)] at member
  obtain ⟨entry, inside, rfl⟩ := List.mem_map.mp member
  exact (sent_fits small order accepts inside).2

theorem reassembled_of_fits (fits : Fits data mtu) : reassembleChunks lines = some data := by
  obtain ⟨entries, accepts, perm⟩ := List.perm_comp_forall₂ order (splitChunks_accepts nonempty small fits)
  have distinct : (entries.map Prod.fst).Nodup := by
    rw [(perm.map Prod.fst).nodup_iff, keys_indexed]
    exact List.nodup_range
  -- The lines carry as many bytes as the payload has.
  have room : Collected.empty.totalLen + totalLen entries ≤ maxPayloadBytes * 2 := by
    have same : totalLen entries = totalLen (indexed (pieces data mtu)) := (perm.map _).sum_nat
    rw [same, totalLen_indexed, join_pieces]
    exact (Nat.zero_add _).trans_le small
  obtain ⟨r, run, held, declared⟩ := collects (r := Collected.empty) accepts (fun c same => by cases same) distinct
    (fun _ _ e member => absurd member (OrderedMap.not_mem_empty e)) room
  have some_line : lines ≠ [] := by
    intro none_sent
    have length := order.length_eq
    rw [none_sent, splitChunks, List.length_mapIdx, length_pieces] at length
    exact absurd length.symm (Nat.ne_of_gt (count_pos nonempty))
  have all : r.map.entries.Perm (entries ++ []) := held
  rw [List.append_nil] at all
  refine Option.bind_eq_some_iff.mpr ⟨r, run, (finish_eq_some (declared some_line) (count_pos nonempty)).mpr ?_⟩
  exact ⟨pieces data mtu, length_pieces data mtu, all.trans perm, (join_pieces data mtu).symm⟩

theorem reassemble_splitChunks_iff : reassembleChunks lines = some data ↔ Fits data mtu :=
  ⟨fits_of_reassembled nonempty small order, reassembled_of_fits nonempty small order⟩

end

end RoundTrip

/-- The round trip holds, in any order of the lines, exactly for the payloads the receiver can take, and whatever is
put together came as exactly one line for each index. -/
theorem ble_chunks_iff (data : String) (mtu : Nat) (nonempty : data ≠ "") (small : byteLen data ≤ maxPayloadBytes * 2) :
    (∀ lines : List String, lines.Perm (splitChunks data mtu) → (reassembleChunks lines = some data ↔ Fits data mtu)) ∧
    ∀ lines s, reassembleChunks lines = some s → Exact lines s :=
  ⟨fun _ order => reassemble_splitChunks_iff nonempty small order, fun _ _ done => exact_of_reassembled done⟩

/-- Two lines with an accent and colons, in the wrong order. -/
theorem ble_chunks_swapped :
    splitChunks "à:b:c and twenty more" 23 = ["MDoyOsOgOmI6YyBhbmQgdHdlbnR5IG1vcg==", "MToyOmU="] ∧
      reassembleChunks ["MToyOmU=", "MDoyOsOgOmI6YyBhbmQgdHdlbnR5IG1vcg=="] = some "à:b:c and twenty more" := by
  have lines : splitChunks "à:b:c and twenty more" 23 = ["MDoyOsOgOmI6YyBhbmQgdHdlbnR5IG1vcg==", "MToyOmU="] := by
    rfl
  refine ⟨lines, ((ble_chunks_iff "à:b:c and twenty more" 23 (by decide) (by decide)).1 _ ?_).mpr (by decide)⟩
  rw [lines]
  exact List.Perm.swap _ _ []

/-- 509 accented letters in one piece take 1018 bytes. -/
theorem wide_piece_lost :
    let data := String.ofList (List.replicate 509 'é')
    data ≠ "" ∧ byteLen data ≤ maxPayloadBytes * 2 ∧ reassembleChunks (splitChunks data 512) ≠ some data := by
  intro data
  have size : byteLen data = 1018 := by
    rw [byteLen_ofList, byteSize, List.map_replicate, List.sum_replicate_nat]
    decide
  have nonempty : data ≠ "" := by
    intro empty
    rw [empty] at size
    cases size
  have small : byteLen data ≤ maxPayloadBytes * 2 := by
    rw [size]
    decide
  refine ⟨nonempty, small, fun done => ?_⟩
  have whole : data ∈ pieces data 512 := by
    refine List.mem_map.mpr ⟨data.toList, List.mem_map.mpr ⟨0, ?_, ?_⟩, String.ofList_toList⟩
    · rw [String.toList_ofList, List.length_replicate]
      decide
    · rw [Windows.window, Nat.zero_mul, List.drop_zero, String.toList_ofList]
      exact List.take_of_length_le (by rw [List.length_replicate]; decide)
  have fits := ((reassemble_splitChunks_iff nonempty small (.refl _)).mp done).2 data whole
  rw [size] at fits
  exact absurd fits (by decide)

end Soshal.Mesh.Ble
