import Mathlib.Algebra.Order.BigOperators.Group.List
import Soshal.Library.CharBoundaries
import Soshal.Library.JsonStrings
import Soshal.Library.Numerals
import Soshal.Library.Sorting

/-! P2P frames: a payload cut into numbered chunks with checksums, and put together again.

The encoder goes through the payload by byte positions and moves each cut back to
where a character begins. The decoder asks for one chunk of each number and takes
them in any order. Both exchange JSON texts of limited length.
-/

set_option autoImplicit false

namespace Soshal.Mesh.P2pFrame

open Library.Text Library.CharBoundaries Library.Sorting
open Library.JsonStrings (quote escape)
open Library.Numerals (numeral)

def maxChunks : Nat := 256
def maxTotalBytes : Nat := 1024 * 1024
def maxChunkSize : Nat := 64 * 1024

structure FramePacketInput where
  payload : String
  chunkSize : Nat
  deriving DecidableEq

structure ChunkOutput where
  index : Nat
  total : Nat
  data : String
  checksum : UInt32
  deriving DecidableEq

structure FramePacketResult where
  chunks : List ChunkOutput
  crc32 : UInt32
  deriving DecidableEq

/-- A chunk as the decoder takes it: the fields are those of the encoder's chunks. -/
abbrev ChunkInput := ChunkOutput

structure DecodeFrameInput where
  chunks : List ChunkInput
  expectedCrc32 : Option UInt32
  deriving DecidableEq

structure DecodeFrameResult where
  payload : String
  valid : Bool
  crc32 : UInt32
  deriving DecidableEq

def literal (s : String) : List Char := s.toList

def commaSeparated : List (List Char) → List Char
  | [] => []
  | [item] => item
  | item :: next :: rest => item ++ ',' :: commaSeparated (next :: rest)

def ChunkOutput.json (c : ChunkOutput) : List Char :=
  literal "\x7b\"index\":" ++ numeral 10 c.index ++ literal ",\"total\":" ++ numeral 10 c.total ++
    literal ",\"data\":" ++ quote c.data ++ literal ",\"checksum\":" ++ numeral 10 c.checksum.toNat ++ literal "\x7d"

def FramePacketResult.json (result : FramePacketResult) : String :=
  String.ofList (literal "\x7b\"chunks\":[" ++ commaSeparated (result.chunks.map ChunkOutput.json) ++
    literal "],\"crc32\":" ++ numeral 10 result.crc32.toNat ++ literal "\x7d")

def DecodeFrameInput.json (input : DecodeFrameInput) : String :=
  String.ofList (literal "\x7b\"chunks\":[" ++ commaSeparated (input.chunks.map ChunkOutput.json) ++
    literal "],\"expected_crc32\":" ++ (input.expectedCrc32.elim (literal "null") fun crc => numeral 10 crc.toNat) ++
    literal "\x7d")

def DecodeFrameResult.json (result : DecodeFrameResult) : String :=
  String.ofList (literal "\x7b\"payload\":" ++ quote result.payload ++ literal ",\"valid\":" ++
    (if result.valid then literal "true" else literal "false") ++ literal ",\"crc32\":" ++
    numeral 10 result.crc32.toNat ++ literal "\x7d")

def encodeRejected : String := "\x7b\"chunks\":[],\"crc32\":0\x7d"

def decodeRejected : String := "\x7b\"payload\":\"\",\"valid\":false,\"crc32\":0\x7d"

example : FramePacketResult.json ⟨[], 0⟩ = encodeRejected ∧ DecodeFrameResult.json ⟨"", false, 0⟩ = decodeRejected := by
  decide

def effectiveSize (chunkSize : Nat) : Nat := if chunkSize = 0 then 512 else min chunkSize maxChunkSize

/-- Where the next slice ends, counted in bytes from where it starts. -/
def sliceEnd (size : Nat) (rest : List Char) : Nat :=
  let stop := walkBack rest (min size (byteSize rest))
  -- A character that is wider than the size makes a slice by itself.
  if stop = 0 then
    match rest with
    | c :: _ :: _ => c.utf8Size
    | _ => byteSize rest
  else stop

/-- The slices of what is left of the payload; `fuel` bounds their number. A cut inside of a character would abort. -/
def slicesFrom (size : Nat) : Nat → List Char → Option (List String)
  | _, [] => some []
  | 0, _ :: _ => none
  | fuel + 1, c :: cs => do
    let (slice, rest) ← splitAtByte (c :: cs) (sliceEnd size (c :: cs))
    let later ← slicesFrom size fuel rest
    some (String.ofList slice :: later)

def slices (size : Nat) (payload : String) : Option (List String) :=
  slicesFrom size payload.toList.length payload.toList

section Frames

variable (crc32 : List UInt8 → UInt32) (fromUtf8Lossy : List UInt8 → String)

def computeCrc32 (s : String) : UInt32 := crc32 (utf8 s)

def numberFrom (total : Nat) : Nat → List String → List ChunkOutput
  | _, [] => []
  | index, slice :: rest => ⟨index, total, slice, computeCrc32 crc32 slice⟩ :: numberFrom total (index + 1) rest

/-- `none` when the slicing aborts, `some none` when the input is rejected. -/
def encodeChunks (input : FramePacketInput) : Option (Option FramePacketResult) :=
  if byteLen input.payload > maxTotalBytes then some none
  else
    (slices (effectiveSize input.chunkSize) input.payload).map fun slices =>
      if slices.length > maxChunks then none
      else some ⟨numberFrom crc32 slices.length 0 slices, computeCrc32 crc32 input.payload⟩

def encodeP2pFrame (fromStr : String → Option FramePacketInput) (jsonInput : String) : Option String :=
  if byteLen jsonInput > maxTotalBytes * 2 then some encodeRejected
  else
    match fromStr jsonInput with
    | none => some encodeRejected
    | some input => (encodeChunks crc32 input).map fun built => (built.map FramePacketResult.json).getD encodeRejected

def admissible (chunks : List ChunkInput) : Bool :=
  match chunks with
  | [] => false
  | first :: _ =>
    let expectedTotal := first.total
    decide (chunks.length ≤ maxChunks) &&
    decide (expectedTotal ≠ 0 ∧ expectedTotal ≤ maxChunks ∧ chunks.length = expectedTotal) &&
    chunks.all (fun c => decide (c.total = expectedTotal ∧ c.index < expectedTotal)) &&
    decide (chunks.map ChunkOutput.index).Nodup &&
    decide ((chunks.map fun c => byteLen c.data).sum ≤ maxTotalBytes)

def assemble (input : DecodeFrameInput) : DecodeFrameResult :=
  let sortedChunks := sortByKey ChunkOutput.index input.chunks
  let payloadBytes := sortedChunks.flatMap fun c => utf8 c.data
  let totalCrc := crc32 payloadBytes
  let valid := sortedChunks.all (fun c => decide (c.checksum = 0 ∨ computeCrc32 crc32 c.data = c.checksum)) &&
    input.expectedCrc32.all (fun expected => decide (expected = totalCrc))
  match fromUtf8 payloadBytes with
  | some payload => ⟨payload, valid, totalCrc⟩
  | none => ⟨fromUtf8Lossy payloadBytes, false, totalCrc⟩

def decodeP2pFrame (fromStr : String → Option DecodeFrameInput) (jsonInput : String) : String :=
  if byteLen jsonInput > maxTotalBytes * 4 then decodeRejected
  else
    match fromStr jsonInput with
    | none => decodeRejected
    | some input => if admissible input.chunks then (assemble crc32 fromUtf8Lossy input).json else decodeRejected

end Frames

/-- Each slice of a payload begins and ends between characters, holds at least one and is no larger than the size
allows, unless it is a single character. -/
theorem sliceEnd_cuts {size : Nat} (positive : 0 < size) {c : Char} {cs : List Char} :
    ∃ slice rest, splitAtByte (c :: cs) (sliceEnd size (c :: cs)) = some (slice, rest) ∧ slice ≠ [] ∧
      byteSize slice ≤ max size 4 := by
  have boundary := isCharBoundary_walkBack (c :: cs) (min size (byteSize (c :: cs)))
  have low := walkBack_le (c :: cs) (min size (byteSize (c :: cs)))
  by_cases stays : walkBack (c :: cs) (min size (byteSize (c :: cs))) = 0
  · have first : sliceEnd size (c :: cs) = c.utf8Size := by
      unfold sliceEnd
      rw [if_pos stays]
      cases cs with
      | nil => simp
      | cons => rfl
    refine ⟨[c], cs, ?_, List.cons_ne_nil _ _, ?_⟩
    · rw [splitAtByte_eq_some, first]
      exact ⟨rfl, by simp⟩
    · have wide := c.utf8Size_le_four
      simp only [byteSize_cons, byteSize_nil]
      omega
  · have stop : sliceEnd size (c :: cs) = walkBack (c :: cs) (min size (byteSize (c :: cs))) := if_neg stays
    obtain ⟨slice, rest, joined, long⟩ := isCharBoundary_iff.mp boundary
    refine ⟨slice, rest, ?_, ?_, ?_⟩
    · rw [splitAtByte_eq_some, stop]
      exact ⟨joined, long⟩
    · rintro rfl
      exact stays long.symm
    · omega

theorem slicesFrom_cuts {size : Nat} (positive : 0 < size) {fuel : Nat} {cs : List Char} (enough : cs.length ≤ fuel) :
    ∃ slices, slicesFrom size fuel cs = some slices ∧ slices.flatMap String.toList = cs ∧
      ∀ slice ∈ slices, slice ≠ "" ∧ byteLen slice ≤ max size 4 := by
  induction fuel generalizing cs with
  | zero =>
    obtain rfl := List.eq_nil_of_length_eq_zero (Nat.le_zero.mp enough)
    exact ⟨[], rfl, rfl, by simp⟩
  | succ fuel ih =>
    cases cs with
    | nil => exact ⟨[], rfl, rfl, by simp⟩
    | cons c cs =>
      obtain ⟨slice, rest, cut, nonempty, small⟩ := @sliceEnd_cuts size positive c cs
      have joined := (splitAtByte_eq_some.mp cut).1
      -- Every slice takes a character, so there are no more slices than characters.
      have shorter : rest.length ≤ fuel := by
        have lengths := congrArg List.length joined
        have taken := List.length_pos_iff.mpr nonempty
        simp only [List.length_append, List.length_cons] at lengths enough
        omega
      obtain ⟨later, found, joined_later, each⟩ := ih shorter
      refine ⟨String.ofList slice :: later, ?_, ?_, ?_⟩
      · simp only [slicesFrom, cut, found, Option.bind_eq_bind, Option.bind_some]
      · rw [List.flatMap_cons, String.toList_ofList, joined_later, joined]
      · rw [List.forall_mem_cons]
        refine ⟨⟨?_, by rwa [byteLen_ofList]⟩, each⟩
        intro empty
        have none_left := congrArg String.toList empty
        rw [String.toList_ofList] at none_left
        exact nonempty none_left

theorem effectiveSize_pos (chunkSize : Nat) : 0 < effectiveSize chunkSize := by
  unfold effectiveSize maxChunkSize
  split <;> omega

theorem flatMap_utf8 (slices : List String) :
    slices.flatMap utf8 = utf8 (String.ofList (slices.flatMap String.toList)) := by
  induction slices with
  | nil => rfl
  | cons slice rest ih =>
    rw [List.flatMap_cons, List.flatMap_cons, ih, String.ofList_append, utf8_append, String.ofList_toList]

theorem sum_byteLen (slices : List String) :
    (slices.map byteLen).sum = byteLen (String.ofList (slices.flatMap String.toList)) := by
  induction slices with
  | nil => rfl
  | cons slice rest ih =>
    rw [List.map_cons, List.sum_cons, ih, List.flatMap_cons, byteLen_ofList, byteLen_ofList, byteSize_append,
      byteSize_toList]

variable {crc32 : List UInt8 → UInt32} {fromUtf8Lossy : List UInt8 → String}

theorem numberFrom_fields (total index : Nat) (slices : List String) :
    (numberFrom crc32 total index slices).map ChunkOutput.data = slices ∧
      (numberFrom crc32 total index slices).map ChunkOutput.index = List.range' index slices.length ∧
      ∀ c ∈ numberFrom crc32 total index slices,
        c.total = total ∧ c.checksum = computeCrc32 crc32 c.data := by
  induction slices generalizing index with
  | nil => simp [numberFrom]
  | cons slice rest ih =>
    obtain ⟨data, indices, fields⟩ := ih (index + 1)
    refine ⟨?_, ?_, ?_⟩
    · rw [numberFrom, List.map_cons, data]
    · rw [numberFrom, List.map_cons, indices, List.length_cons, List.range'_succ]
    · rw [numberFrom, List.forall_mem_cons]
      exact ⟨⟨rfl, rfl⟩, fields⟩

section Permuted

variable {slices : List String} {chunks : List ChunkInput}
  (perm : chunks.Perm (numberFrom crc32 slices.length 0 slices))

include perm in
theorem permuted_fields : ∀ c ∈ chunks, c.total = slices.length ∧ c.index < slices.length ∧
    c.checksum = computeCrc32 crc32 c.data ∧ c.data ∈ slices := by
  intro c member
  have numbered := perm.subset member
  obtain ⟨data, indices, fields⟩ := @numberFrom_fields crc32 slices.length 0 slices
  obtain ⟨total, checksum⟩ := fields c numbered
  have index : c.index ∈ List.range' 0 slices.length := indices ▸ List.mem_map_of_mem numbered
  have slice : c.data ∈ slices := by
    have listed := List.mem_map_of_mem (f := ChunkOutput.data) numbered
    rwa [data] at listed
  rw [List.mem_range'_1] at index
  exact ⟨total, by omega, checksum, slice⟩

include perm in
theorem length_permuted : chunks.length = slices.length := by
  rw [perm.length_eq, ← List.length_map (f := ChunkOutput.data), (numberFrom_fields _ _ _).1]

include perm in
theorem admissible_permuted (nonempty : slices ≠ []) (few : slices.length ≤ maxChunks)
    (small : (slices.map byteLen).sum ≤ maxTotalBytes) : admissible chunks = true := by
  obtain ⟨data, indices, -⟩ := @numberFrom_fields crc32 slices.length 0 slices
  have length := length_permuted perm
  have distinct : (chunks.map ChunkOutput.index).Nodup := by
    rw [(perm.map _).nodup_iff, indices]
    exact List.nodup_range'
  have sum : (chunks.map fun c => byteLen c.data).sum = (slices.map byteLen).sum := by
    rw [(perm.map _).sum_nat, ← congrArg (List.map byteLen) data, List.map_map]
    rfl
  cases chunks with
  | nil => exact absurd (List.eq_nil_of_length_eq_zero length.symm) nonempty
  | cons first rest =>
    have fields := permuted_fields perm
    have total := (fields first (List.mem_cons_self ..)).1
    have positive := List.length_pos_iff.mpr nonempty
    have all : (first :: rest).all (fun c => decide (c.total = first.total ∧ c.index < first.total)) = true := by
      rw [List.all_eq_true]
      intro c member
      obtain ⟨same, inside, -⟩ := fields c member
      rw [decide_eq_true_eq, total]
      exact ⟨same, inside⟩
    unfold admissible
    dsimp only
    rw [all, decide_eq_true distinct, sum, decide_eq_true small, length, total, decide_eq_true few,
      decide_eq_true ⟨Nat.ne_of_gt positive, few, rfl⟩]
    rfl

include perm in
theorem assemble_permuted {payload : String} (joined : slices.flatMap String.toList = payload.toList)
    {expected : Option UInt32} (expects : ∀ crc ∈ expected, crc = computeCrc32 crc32 payload) :
    assemble crc32 fromUtf8Lossy ⟨chunks, expected⟩ = ⟨payload, true, computeCrc32 crc32 payload⟩ := by
  obtain ⟨data, indices, fields⟩ := @numberFrom_fields crc32 slices.length 0 slices
  -- The indices are distinct, so sorting by them undoes the permutation.
  have sorted : sortByKey ChunkOutput.index chunks = numberFrom crc32 slices.length 0 slices := by
    apply sortByKey_eq _ perm
    · rw [← List.pairwise_map (f := ChunkOutput.index) (R := (· ≤ ·)), indices]
      exact List.pairwise_le_range'
    · rw [indices]
      exact List.nodup_range'
  have bytes : (numberFrom crc32 slices.length 0 slices).flatMap (fun c => utf8 c.data) = utf8 payload := by
    rw [← String.ofList_toList (s := payload), ← joined, ← flatMap_utf8]
    conv_rhs => rw [← data, List.flatMap_map]
  have checked : (numberFrom crc32 slices.length 0 slices).all
      (fun c => decide (c.checksum = 0 ∨ computeCrc32 crc32 c.data = c.checksum)) = true := by
    rw [List.all_eq_true]
    intro c member
    exact decide_eq_true (.inr (fields c member).2.symm)
  have awaited : expected.all (fun crc => decide (crc = crc32 (utf8 payload))) = true := by
    cases expected with
    | none => rfl
    | some crc => simpa [computeCrc32] using expects crc rfl
  simp only [assemble, sorted, bytes, fromUtf8_utf8, checked, awaited, Bool.and_true]
  rfl

end Permuted

theorem byteSize_map_hexDigit {ds : List Nat} (digits : ∀ d ∈ ds, d < 10) : byteSize (ds.map hexDigit) = ds.length := by
  induction ds with
  | nil => rfl
  | cons d ds ih =>
    rw [List.forall_mem_cons] at digits
    rw [List.map_cons, byteSize_cons, utf8Size_hexDigit (by omega), ih digits.2, List.length_cons, Nat.add_comm]

theorem byteSize_numeral {n : Nat} (small : n < 10 ^ 10) : byteSize (numeral 10 n) ≤ 10 := by
  obtain ⟨digits, written, below, -, -, short, -⟩ := @Library.Numerals.digits_numeral 10 (by omega) n
  rw [written, byteSize_map_hexDigit below]
  exact short 10 (by omega) small

theorem crc_lt (crc : UInt32) : crc.toNat < 10 ^ 10 := crc.toNat_lt.trans (by norm_num)

theorem byteSize_quote (s : String) : byteSize (quote s) = byteSize (s.toList.flatMap escape) + 2 := by
  have mark : '"'.utf8Size = 1 := by decide
  rw [quote, byteSize_cons, byteSize_append, byteSize_cons, byteSize_nil, mark]
  omega

theorem byteSize_json {c : ChunkOutput} (index : c.index < 10 ^ 10) (total : c.total < 10 ^ 10) :
    byteSize c.json ≤ byteSize (quote c.data) + 69 := by
  have first := byteSize_numeral index
  have second := byteSize_numeral total
  have third := byteSize_numeral (crc_lt c.checksum)
  have head : byteSize (literal "\x7b\"index\":") = 9 := by decide
  have middle : byteSize (literal ",\"total\":") = 9 := by decide
  have data : byteSize (literal ",\"data\":") = 8 := by decide
  have checksum : byteSize (literal ",\"checksum\":") = 12 := by decide
  have last : byteSize (literal "\x7d") = 1 := by decide
  simp only [ChunkOutput.json, byteSize_append, head, middle, data, checksum, last]
  generalize byteSize (numeral 10 c.index) = a, byteSize (numeral 10 c.total) = b,
    byteSize (numeral 10 c.checksum.toNat) = d, byteSize (quote c.data) = e at first second third ⊢
  omega

theorem byteSize_commaSeparated (items : List (List Char)) :
    byteSize (commaSeparated items) ≤ (items.map fun item => byteSize item + 1).sum := by
  have comma : ','.utf8Size = 1 := by decide
  induction items with
  | nil => exact Nat.le_refl _
  | cons item rest ih =>
    cases rest with
    | nil => simp [commaSeparated]
    | cons next rest =>
      rw [commaSeparated, byteSize_append, byteSize_cons, comma, List.map_cons, List.sum_cons]
      omega

theorem sum_escaped (slices : List String) (room : Nat) :
    (slices.map fun slice => byteSize (slice.toList.flatMap escape) + room).sum =
      byteSize ((slices.flatMap String.toList).flatMap escape) + room * slices.length := by
  induction slices with
  | nil => rfl
  | cons slice rest ih =>
    rw [List.map_cons, List.sum_cons, ih, List.flatMap_cons, List.flatMap_append, byteSize_append, List.length_cons,
      Nat.mul_add]
    omega

/-- The text of any chunks that carry the slices is not much longer than the quoted payload. -/
theorem byteLen_decodeJson {slices : List String} {chunks : List ChunkInput} {payload : String}
    (perm : chunks.Perm (numberFrom crc32 slices.length 0 slices)) (few : slices.length ≤ maxChunks)
    (joined : slices.flatMap String.toList = payload.toList) (expected : Option UInt32) :
    byteLen (DecodeFrameInput.json ⟨chunks, expected⟩) ≤ byteSize (quote payload) + 20000 := by
  have each : ∀ c ∈ chunks, byteSize c.json + 1 ≤ byteSize (c.data.toList.flatMap escape) + 72 := by
    intro c member
    obtain ⟨total, index, -⟩ := permuted_fields perm c member
    unfold maxChunks at few
    have size := byteSize_json (c := c) (by omega) (by omega)
    rw [byteSize_quote] at size
    omega
  have items : ((chunks.map ChunkOutput.json).map fun item => byteSize item + 1).sum ≤
      (slices.map fun slice => byteSize (slice.toList.flatMap escape) + 72).sum := by
    -- The sum over the slices is one over the chunks, in whatever order they come.
    have same : (slices.map fun slice => byteSize (slice.toList.flatMap escape) + 72).sum =
        (chunks.map fun c => byteSize (c.data.toList.flatMap escape) + 72).sum := by
      rw [(perm.map _).sum_nat]
      conv_lhs => rw [← (@numberFrom_fields crc32 slices.length 0 slices).1, List.map_map]
      rfl
    rw [List.map_map, same]
    exact List.sum_le_sum each
  have listed := byteSize_commaSeparated (chunks.map ChunkOutput.json)
  have head : byteSize (literal "\x7b\"chunks\":[") = 11 := by decide
  have middle : byteSize (literal "],\"expected_crc32\":") = 19 := by rfl
  have last : byteSize (literal "\x7d") = 1 := by decide
  have crc : byteSize (expected.elim (literal "null") fun crc => numeral 10 crc.toNat) ≤ 10 := by
    cases expected with
    | none => decide
    | some crc => exact byteSize_numeral (crc_lt crc)
  rw [sum_escaped, joined] at items
  rw [byteSize_quote, DecodeFrameInput.json, byteLen_ofList]
  simp only [byteSize_append, head, middle, last]
  unfold maxChunks at few
  generalize byteSize (commaSeparated (chunks.map ChunkOutput.json)) = text at listed ⊢
  generalize byteSize (payload.toList.flatMap escape) = body at items ⊢
  generalize byteSize (expected.elim (literal "null") fun crc => numeral 10 crc.toNat) = number at crc ⊢
  omega

/-- What the encoder makes of a payload that it accepts. -/
structure Frames (crc32 : List UInt8 → UInt32) (input : FramePacketInput) (result : FramePacketResult) : Prop where
  joined : (result.chunks.flatMap fun c => c.data.toList) = input.payload.toList
  boundaries : ∀ first later, result.chunks = first ++ later →
    isCharBoundary input.payload.toList (first.map fun c => byteLen c.data).sum = true
  sizes : ∀ c ∈ result.chunks, c.data ≠ "" ∧ byteLen c.data ≤ max (effectiveSize input.chunkSize) 4
  few : result.chunks.length ≤ maxChunks
  crc : result.crc32 = computeCrc32 crc32 input.payload

theorem encodeChunks_total (input : FramePacketInput) : ∃ built, encodeChunks crc32 input = some built := by
  obtain ⟨slices, cut, -⟩ :=
    slicesFrom_cuts (effectiveSize_pos input.chunkSize) (Nat.le_refl input.payload.toList.length)
  have whole : P2pFrame.slices (effectiveSize input.chunkSize) input.payload = some slices := cut
  unfold encodeChunks
  split
  · exact ⟨_, rfl⟩
  · rw [whole]
    exact ⟨_, rfl⟩

theorem encodeChunks_frames {input : FramePacketInput} {result : FramePacketResult}
    (accepted : encodeChunks crc32 input = some (some result)) :
    Frames crc32 input result ∧ byteLen input.payload ≤ maxTotalBytes ∧
      ∃ slices : List String, result.chunks = numberFrom crc32 slices.length 0 slices ∧
        slices.length ≤ maxChunks ∧ slices.flatMap String.toList = input.payload.toList := by
  obtain ⟨slices, cut, joined, each⟩ :=
    slicesFrom_cuts (effectiveSize_pos input.chunkSize) (Nat.le_refl input.payload.toList.length)
  have whole : P2pFrame.slices (effectiveSize input.chunkSize) input.payload = some slices := cut
  unfold encodeChunks at accepted
  split at accepted
  · cases accepted
  · rename_i small
    rw [whole, Option.map_some, Option.some.injEq] at accepted
    split at accepted
    · cases accepted
    · rename_i few
      cases accepted
      obtain ⟨data, -, -⟩ := @numberFrom_fields crc32 slices.length 0 slices
      have chunks_joined : ((numberFrom crc32 slices.length 0 slices).flatMap fun c => c.data.toList) =
          input.payload.toList := by
        rw [← joined]
        conv_rhs => rw [← data, List.flatMap_map]
      refine ⟨⟨chunks_joined, ?_, ?_, ?_, rfl⟩, Nat.not_lt.mp small, slices, rfl, Nat.not_lt.mp few, joined⟩
      · -- The bytes of the first chunks end where the next one begins.
        intro first later split
        rw [isCharBoundary_iff]
        refine ⟨first.flatMap fun c => c.data.toList, later.flatMap fun c => c.data.toList, ?_, ?_⟩
        · rw [← List.flatMap_append, ← split]
          exact chunks_joined
        · clear split
          induction first with
          | nil => rfl
          | cons c first ih =>
            rw [List.flatMap_cons, byteSize_append, ih, byteSize_toList, List.map_cons, List.sum_cons]
      · intro c member
        have slice := List.mem_map_of_mem (f := ChunkOutput.data) member
        rw [data] at slice
        exact each c.data slice
      · have length := congrArg List.length data
        rw [List.length_map] at length
        show (numberFrom crc32 slices.length 0 slices).length ≤ maxChunks
        rw [length]
        exact Nat.not_lt.mp few

/-- Every non-empty payload that the encoder accepts comes back from its chunks in any order, with or without the
checksum of the whole, from any text that reads as these; the plain text of them is never too long for the decoder. -/
theorem frame_round_trip {readFrame : String → Option FramePacketInput} {readChunks : String → Option DecodeFrameInput}
    {jsonInput : String} {input : FramePacketInput} {result : FramePacketResult}
    (fits : byteLen jsonInput ≤ maxTotalBytes * 2) (read : readFrame jsonInput = some input)
    (escaped : byteSize (quote input.payload) ≤ byteLen jsonInput) (nonempty : input.payload ≠ "")
    (accepted : encodeChunks crc32 input = some (some result)) :
    encodeP2pFrame crc32 readFrame jsonInput = some result.json ∧ Frames crc32 input result ∧
    ∀ chunks : List ChunkInput, chunks.Perm result.chunks →
      ∀ expected : Option UInt32, (∀ crc ∈ expected, crc = result.crc32) →
        byteLen (DecodeFrameInput.json ⟨chunks, expected⟩) ≤ maxTotalBytes * 4 ∧
        ∀ text : String, byteLen text ≤ maxTotalBytes * 4 → readChunks text = some ⟨chunks, expected⟩ →
          decodeP2pFrame crc32 fromUtf8Lossy readChunks text =
            DecodeFrameResult.json ⟨input.payload, true, result.crc32⟩ := by
  obtain ⟨frames, small, slices, chunked, few, joined⟩ := encodeChunks_frames accepted
  refine ⟨?_, frames, ?_⟩
  · rw [encodeP2pFrame, if_neg (Nat.not_lt.mpr fits)]
    simp only [read, accepted, Option.map_some, Option.getD_some]
  · intro chunks perm expected expects
    rw [chunked] at perm
    rw [frames.crc] at expects ⊢
    refine ⟨?_, ?_⟩
    · -- The decoder takes twice as much as the encoder, and the fields of all chunks fit into the difference.
      have length := byteLen_decodeJson perm few joined expected
      unfold maxTotalBytes at fits ⊢
      omega
    · intro text short read_chunks
      have some_slice : slices ≠ [] := by
        rintro rfl
        exact nonempty (String.toList_eq_nil_iff.mp joined.symm)
      have sum : (slices.map byteLen).sum ≤ maxTotalBytes := by
        rw [sum_byteLen, joined, String.ofList_toList]
        exact small
      rw [decodeP2pFrame, if_neg (Nat.not_lt.mpr short)]
      simp only [read_chunks, admissible_permuted perm some_slice few sum, if_true,
        assemble_permuted perm joined expects]

def byteSum (bytes : List UInt8) : UInt32 := bytes.foldl (fun sum b => sum + b.toUInt32) 0

def helloInput : FramePacketInput := ⟨"hé", 2⟩

def helloText : String := "\x7b\"payload\":\"hé\",\"chunk_size\":2\x7d"

def helloChunks : List ChunkOutput := [⟨0, 2, "h", 104⟩, ⟨1, 2, "é", 364⟩]

/-- "hé" is cut before the second character although three bytes are one more than the size, and comes back from the
chunks in reverse. -/
theorem hello_comes_back : decodeP2pFrame byteSum (fun _ => "")
    (fun text => if text = DecodeFrameInput.json ⟨helloChunks.reverse, some 468⟩ then
      some ⟨helloChunks.reverse, some 468⟩ else none)
    (DecodeFrameInput.json ⟨helloChunks.reverse, some 468⟩) = DecodeFrameResult.json ⟨"hé", true, 468⟩ := by
  have run := @frame_round_trip byteSum (fun _ => "") (fun text => if text = helloText then some helloInput else none)
    (fun text => if text = DecodeFrameInput.json ⟨helloChunks.reverse, some 468⟩ then
      some ⟨helloChunks.reverse, some 468⟩ else none)
    helloText helloInput ⟨helloChunks, 468⟩ (by decide +kernel) (if_pos rfl) (by decide) (by decide)
    (by decide)
  obtain ⟨small, decodes⟩ := run.2.2 helloChunks.reverse (List.reverse_perm _) (some 468) (by simp)
  exact decodes _ small (if_pos rfl)

/-- A size of zero stands for 512: five bytes make one chunk. -/
theorem size_zero_is_default :
    encodeChunks byteSum ⟨"hello", 0⟩ = some (some ⟨[⟨0, 1, "hello", 532⟩], 532⟩) ∧ ¬ byteLen "hello" ≤ max 0 4 := by
  decide +kernel

end Soshal.Mesh.P2pFrame
