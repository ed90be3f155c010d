import Soshal.Library.CharBoundaries
import Soshal.Library.Encoding
import Soshal.Library.Fallible
import Soshal.Library.LittleEndian
import Soshal.Library.Windows

/-! Compressed payloads, plain and with a dictionary.

More is taken for compression than is handed back by decompression, and a failure of
either is the empty string. The two formats are told apart by their first bytes,
which no deflate stream of a text starts with.
-/

set_option autoImplicit false

namespace Soshal.Content

open Library
open Library.Text (byteLen utf8 fromUtf8 fromUtf8_utf8 length_utf8)
open Library.Encoding (base64Encode base64Decode base64Decode_base64Encode byteLen_base64Encode)
open Library.LittleEndian (Bytes leBytes beBytes leValue leValue_leBytes length_leBytes)

def zstdDictMagic : Bytes := [0x5A, 0x48, 0x01, 0x00, 0x00, 0x00]
def zstdDictId : Nat := 1
def maxCompressBytes : Nat := 16 * 1024 * 1024
def maxDecompressBytes : Nat := 4 * 1024 * 1024

/-- What writing a chunk to an inflating writer comes to. -/
inductive Written where
  | all
  /-- The stream ended before the chunk did. -/
  | zero
  | failed (message : String)

/-- A deflate codec whose decoder is written to, and a zstd codec with the bundled dictionary whose decoder is read. -/
structure Codecs where
  deflate : Bytes → Except String Bytes
  Inflater : Type
  new : Inflater
  write : Inflater → Bytes → Inflater × Written
  totalOut : Inflater → Nat
  finish : Inflater → Except String Bytes
  zstdEncode : Bytes → Except String Bytes
  /-- The first bytes of what a frame stands for, as many as asked for. -/
  zstdRead : Bytes → Nat → Except String Bytes

section Functions

variable (c : Codecs)

def compress (data : Bytes) : Except String Bytes :=
  if data.length > maxCompressBytes then .error ("payload exceeds " ++ toString maxCompressBytes ++ " bytes")
  else (c.deflate data).mapError ("compress: " ++ ·)

def oversized (maxBytes : Nat) : String := "decompressed payload exceeds " ++ toString maxBytes ++ " bytes"

def inflateChunks (maxBytes : Nat) : c.Inflater → List Bytes → Except String c.Inflater
  | decoder, [] => .ok decoder
  | decoder, chunk :: rest =>
    match c.write decoder chunk with
    | (decoder, .zero) => .ok decoder
    | (_, .failed e) => .error ("decompress: " ++ e)
    | (decoder, .all) =>
      if c.totalOut decoder > maxBytes then .error (oversized maxBytes) else inflateChunks maxBytes decoder rest

def decompressLimited (data : Bytes) (maxBytes : Nat) : Except String Bytes := do
  let decoder ← inflateChunks c maxBytes c.new (Windows.windows (64 * 1024) data)
  let out ← (c.finish decoder).mapError ("decompress finish: " ++ ·)
  if out.length > maxBytes then .error (oversized maxBytes) else .ok out

def decompress (data : Bytes) : Except String Bytes := decompressLimited c data maxDecompressBytes

def compressJson (data : String) : String :=
  match compress c (utf8 data) with
  | .ok compressed => base64Encode compressed
  | .error _ => ""

/-- The text that was decompressed, if it was and if it is one. -/
def textOf (decompressed : Except String Bytes) : String :=
  match decompressed with
  | .ok bytes => (fromUtf8 bytes).getD ""
  | .error _ => ""

def decompressJson (encoded : String) : String :=
  if byteLen encoded > maxDecompressBytes * 2 then ""
  else
    match base64Decode encoded with
    | some bytes => textOf (decompress c bytes)
    | none => ""

def isDictFrame (data : Bytes) : Bool :=
  decide (data.length > zstdDictMagic.length) && decide (data.take zstdDictMagic.length = zstdDictMagic)

def compressDict (data : Bytes) : Except String Bytes :=
  if data.length > maxCompressBytes then .error ("payload exceeds " ++ toString maxCompressBytes ++ " bytes")
  else do
    let frame ← (c.zstdEncode data).mapError ("compress_dict: " ++ ·)
    .ok (zstdDictMagic ++ leBytes 4 zstdDictId ++ frame)

def decompressDictLimited (data : Bytes) (maxBytes : Nat) : Except String Bytes :=
  if ¬ isDictFrame data then .error "not a zstd-dict frame"
  else if data.length < zstdDictMagic.length + 4 then .error "truncated dict id"
  else if leValue ((data.drop zstdDictMagic.length).take 4) ≠ zstdDictId then
    .error ("dict id mismatch: expected " ++ toString zstdDictId)
  else do
    let out ← (c.zstdRead (data.drop (zstdDictMagic.length + 4)) (maxBytes + 1)).mapError ("decompress_dict: " ++ ·)
    if out.length > maxBytes then .error (oversized maxBytes) else .ok out

def decompressDict (data : Bytes) : Except String Bytes := decompressDictLimited c data maxDecompressBytes

def compressJsonDict (data : String) : String :=
  match compressDict c (utf8 data) with
  | .ok compressed => base64Encode compressed
  | .error _ => ""

def decompressJsonDict (encoded : String) : String :=
  if byteLen encoded > maxDecompressBytes * 2 then ""
  else
    match base64Decode encoded with
    | none => ""
    | some bytes => if isDictFrame bytes then textOf (decompressDict c bytes) else decompressJson c encoded

end Functions

/-- The bits of a stream, in the order in which deflate packs them. -/
def bitsOf (bytes : Bytes) : List Bool := bytes.flatMap fun byte => (List.range 8).map byte.toNat.testBit

/-- The bits of a nine-bit Huffman code, which is packed from its most significant bit on. -/
def codeBits (code : Nat) : List Bool := (List.range 9).map fun i => code.testBit (8 - i)

namespace Codecs

def feed (c : Codecs) : c.Inflater → List Bytes → Option c.Inflater
  | decoder, [] => some decoder
  | decoder, chunk :: rest =>
    match c.write decoder chunk with
    | (decoder, .all) => feed c decoder rest
    | _ => none

/-- Inverse pairs, with the bounds of their outputs. A deflate stream can be written in any chunks. When a block with
fixed codes begins with a nine-bit code, the first byte is the literal of that code. -/
structure Inverse (c : Codecs) : Prop where
  inflates : ∀ data z, c.deflate data = .ok z → ∀ chunks rest, chunks.flatten ++ rest = z →
    ∃ decoder, c.feed c.new chunks = some decoder ∧ c.totalOut decoder ≤ data.length ∧
      (rest = [] → c.finish decoder = .ok data)
  deflateBound : ∀ data z, c.deflate data = .ok z →
    z.length ≤ max (128 + data.length * 110 / 100) (128 + data.length + (data.length / (31 * 1024) + 1) * 5)
  fixedLiteral : ∀ data z, c.deflate data = .ok z → ∀ final code, 400 ≤ code → code < 512 →
    [final, true, false] ++ codeBits code <+: bitsOf z → data.head? = some (UInt8.ofNat (144 + (code - 400)))
  zstdReads : ∀ data frame, c.zstdEncode data = .ok frame → ∀ most, c.zstdRead frame most = .ok (data.take most)
  zstdBound : ∀ data frame, c.zstdEncode data = .ok frame → frame.length ≤ data.length + data.length / 256 + 64

end Codecs

section Roundtrips

variable {c : Codecs}

theorem compress_eq_ok {data z : Bytes} :
    compress c data = .ok z ↔ data.length ≤ maxCompressBytes ∧ c.deflate data = .ok z := by
  rw [compress, Fallible.guard_eq_ok, Fallible.mapError_eq_ok, not_lt]

theorem inflateChunks_of_feed {chunks : List Bytes} {decoder last : c.Inflater} (maxBytes : Nat)
    (fed : c.feed decoder chunks = some last) :
    inflateChunks c maxBytes decoder chunks = .ok last ∨
      inflateChunks c maxBytes decoder chunks = .error (oversized maxBytes) := by
  induction chunks generalizing decoder with
  | nil =>
    cases fed
    exact .inl rfl
  | cons chunk rest ih =>
    unfold Codecs.feed at fed
    unfold inflateChunks
    split at fed
    · rename_i next written
      rw [written]
      dsimp only
      split
      · exact .inr rfl
      · exact ih fed
    · cases fed

theorem inflateChunks_fits {maxBytes : Nat} {chunks : List Bytes} {decoder : c.Inflater}
    (fits : ∀ front back, front ++ back = chunks →
      ∃ next, c.feed decoder front = some next ∧ c.totalOut next ≤ maxBytes) :
    ∃ last, c.feed decoder chunks = some last ∧ inflateChunks c maxBytes decoder chunks = .ok last := by
  induction chunks generalizing decoder with
  | nil => exact ⟨decoder, rfl, rfl⟩
  | cons chunk rest ih =>
    obtain ⟨next, fed, small⟩ := fits [chunk] rest rfl
    simp only [Codecs.feed] at fed
    split at fed
    · rename_i first written
      cases fed
      have later : ∀ front back, front ++ back = rest →
          ∃ next_, c.feed next front = some next_ ∧ c.totalOut next_ ≤ maxBytes := by
        intro front back joined
        obtain ⟨next_, fed, small⟩ := fits (chunk :: front) back (by rw [List.cons_append, joined])
        rw [Codecs.feed, written] at fed
        exact ⟨next_, fed, small⟩
      obtain ⟨last, fed, inflated⟩ := ih later
      refine ⟨last, ?_, ?_⟩
      · rw [Codecs.feed, written]
        exact fed
      · rw [inflateChunks, written]
        dsimp only
        rw [if_neg (Nat.not_lt.mpr small)]
        exact inflated
    · cases fed

theorem decompressLimited_deflated (inverse : c.Inverse) {data z : Bytes} (deflated : c.deflate data = .ok z)
    (maxBytes : Nat) :
    decompressLimited c z maxBytes = if data.length ≤ maxBytes then .ok data else .error (oversized maxBytes) := by
  have whole : (Windows.windows (64 * 1024) z).flatten = z := Windows.flatten_windows (by decide) z
  obtain ⟨last, fed, -, finished⟩ := inverse.inflates data z deflated _ [] (by rw [whole, List.append_nil])
  unfold decompressLimited
  by_cases small : data.length ≤ maxBytes
  · -- The total is checked after every chunk, so it has to stay within the cap all along.
    have fits : ∀ front back, front ++ back = Windows.windows (64 * 1024) z →
        ∃ next, c.feed c.new front = some next ∧ c.totalOut next ≤ maxBytes := by
      intro front back joined
      obtain ⟨next, fed, out, -⟩ := inverse.inflates data z deflated front back.flatten
        (by rw [← List.flatten_append, joined, whole])
      exact ⟨next, fed, out.trans small⟩
    obtain ⟨same, fed_, inflated⟩ := inflateChunks_fits fits
    rw [fed] at fed_
    cases fed_
    rw [inflated, Fallible.ok_bind, finished rfl, if_pos small]
    exact if_neg (Nat.not_lt.mpr small)
  · rw [if_neg small]
    obtain inflated | stopped := inflateChunks_of_feed maxBytes fed
    · rw [inflated, Fallible.ok_bind, finished rfl]
      exact if_pos (Nat.not_le.mp small)
    · rw [stopped]
      rfl

theorem compressDict_eq_ok {data frame : Bytes} :
    compressDict c data = .ok frame ↔ data.length ≤ maxCompressBytes ∧
      ∃ z, c.zstdEncode data = .ok z ∧ zstdDictMagic ++ leBytes 4 zstdDictId ++ z = frame := by
  rw [compressDict, Fallible.guard_eq_ok, Fallible.bind_eq_ok, not_lt]
  simp only [Fallible.mapError_eq_ok, Except.ok.injEq]

theorem isDictFrame_header (z : Bytes) : isDictFrame (zstdDictMagic ++ leBytes 4 zstdDictId ++ z) = true := by
  have long : zstdDictMagic.length < (zstdDictMagic ++ leBytes 4 zstdDictId ++ z).length := by
    rw [List.length_append, List.length_append, length_leBytes]
    omega
  rw [isDictFrame, decide_eq_true long, List.append_assoc, List.take_left' rfl, decide_eq_true rfl, Bool.and_self]

theorem decompressDictLimited_header (inverse : c.Inverse) {data z : Bytes} (encoded : c.zstdEncode data = .ok z)
    (maxBytes : Nat) :
    decompressDictLimited c (zstdDictMagic ++ leBytes 4 zstdDictId ++ z) maxBytes =
      if data.length ≤ maxBytes then .ok data else .error (oversized maxBytes) := by
  have header : (zstdDictMagic ++ leBytes 4 zstdDictId).length = zstdDictMagic.length + 4 := rfl
  unfold decompressDictLimited
  rw [if_neg (not_not_intro (isDictFrame_header z)), if_neg (by rw [List.length_append, header]; omega),
    List.drop_left' header, inverse.zstdReads data z encoded]
  have version :
      leValue (((zstdDictMagic ++ leBytes 4 zstdDictId ++ z).drop zstdDictMagic.length).take 4) = zstdDictId := by
    rw [List.append_assoc, List.drop_left' rfl, List.take_left' (length_leBytes 4 zstdDictId)]
    exact leValue_leBytes (by decide)
  rw [if_neg (not_not_intro version)]
  by_cases small : data.length ≤ maxBytes
  · rw [List.take_of_length_le (by omega), if_pos small]
    exact if_neg (Nat.not_lt.mpr small)
  · rw [if_neg small]
    -- One byte more than allowed is asked for, which is there.
    have cut : (data.take (maxBytes + 1)).length > maxBytes := by
      rw [List.length_take]
      omega
    exact if_pos cut

def returned (s : String) : String := if byteLen s ≤ maxDecompressBytes then s else ""

theorem textOf_limited (s : String) :
    textOf (if (utf8 s).length ≤ maxDecompressBytes then .ok (utf8 s) else .error (oversized maxDecompressBytes)) =
      returned s := by
  rw [length_utf8, returned]
  split
  · rw [textOf, fromUtf8_utf8, Option.getD_some]
  · rfl

theorem returned_of_long {s : String} (long : ¬ byteLen s ≤ maxDecompressBytes) : returned s = "" := if_neg long

theorem encoded_short {bytes : Bytes} (short : bytes.length ≤ 6 * 1024 * 1024) :
    ¬ byteLen (base64Encode bytes) > maxDecompressBytes * 2 := by
  rw [byteLen_base64Encode, maxDecompressBytes]
  omega

theorem decompressJson_deflated (inverse : c.Inverse) {s : String} {z : Bytes} (deflated : c.deflate (utf8 s) = .ok z) :
    decompressJson c (base64Encode z) = returned s := by
  unfold decompressJson
  split
  · rename_i refused
    -- A text within the cap does not grow beyond the cap on encoded payloads.
    refine (returned_of_long fun small => encoded_short ?_ refused).symm
    have bound := inverse.deflateBound _ z deflated
    rw [length_utf8] at bound
    unfold maxDecompressBytes at small
    omega
  · rw [base64Decode_base64Encode]
    dsimp only
    rw [decompress, decompressLimited_deflated inverse deflated]
    exact textOf_limited s

theorem decompressJsonDict_header (inverse : c.Inverse) {s : String} {z : Bytes}
    (encoded : c.zstdEncode (utf8 s) = .ok z) :
    decompressJsonDict c (base64Encode (zstdDictMagic ++ leBytes 4 zstdDictId ++ z)) = returned s := by
  unfold decompressJsonDict
  split
  · rename_i refused
    refine (returned_of_long fun small => encoded_short ?_ refused).symm
    have bound := inverse.zstdBound _ z encoded
    have header : (zstdDictMagic ++ leBytes 4 zstdDictId).length = 10 := rfl
    rw [length_utf8] at bound
    rw [List.length_append, header]
    unfold maxDecompressBytes at small
    omega
  · rw [base64Decode_base64Encode]
    dsimp only
    rw [if_pos (isDictFrame_header z), decompressDict, decompressDictLimited_header inverse encoded]
    exact textOf_limited s

/-- Read as a deflate stream, the magic is a block with fixed codes whose first literal only stands inside of a
character. -/
theorem magic_bits : [false, true, false] ++ codeBits 417 <+: bitsOf zstdDictMagic := by decide

theorem bitsOf_append (front back : Bytes) : bitsOf (front ++ back) = bitsOf front ++ bitsOf back := by
  rw [bitsOf, List.flatMap_append, bitsOf, bitsOf]

theorem isDictFrame_deflated (inverse : c.Inverse) {s : String} {z : Bytes} (deflated : c.deflate (utf8 s) = .ok z) :
    isDictFrame z = false := by
  rw [← Bool.not_eq_true]
  intro framed
  have magic : z.take zstdDictMagic.length = zstdDictMagic := of_decide_eq_true (Bool.and_elim_right framed)
  have starts : [false, true, false] ++ codeBits 417 <+: bitsOf z := by
    rw [← List.take_append_drop zstdDictMagic.length z, magic, bitsOf_append]
    exact magic_bits.trans (List.prefix_append _ _)
  have first := inverse.fixedLiteral _ z deflated false 417 (by decide) (by decide) starts
  exact absurd (CharBoundaries.isUTF8FirstByte_head first) (by decide)

/-- Up to the smaller of the caps a text comes back, above it nothing does, and the first bytes tell what made them. -/
theorem compress_json_roundtrip {c : Codecs} (inverse : c.Inverse) (s : String) :
    (compressJson c s ≠ "" → decompressJson c (compressJson c s) = returned s) ∧
      (compressJsonDict c s ≠ "" → decompressJsonDict c (compressJsonDict c s) = returned s) ∧
      (∀ z, compress c (utf8 s) = .ok z → isDictFrame z = false) ∧
      (∀ frame, compressDict c (utf8 s) = .ok frame → isDictFrame frame = true) ∧
      decompressJsonDict c (compressJson c s) = decompressJson c (compressJson c s) := by
  have told : ∀ z, compress c (utf8 s) = .ok z → isDictFrame z = false := fun z compressed =>
    isDictFrame_deflated inverse (compress_eq_ok.mp compressed).2
  refine ⟨?_, ?_, told, ?_, ?_⟩
  · intro produced
    unfold compressJson at produced ⊢
    split at produced
    · rename_i z compressed
      exact decompressJson_deflated inverse (compress_eq_ok.mp compressed).2
    · exact absurd rfl produced
  · intro produced
    unfold compressJsonDict at produced ⊢
    split at produced
    · rename_i frame compressed
      obtain ⟨-, z, encoded, rfl⟩ := compressDict_eq_ok.mp compressed
      exact decompressJsonDict_header inverse encoded
    · exact absurd rfl produced
  · intro frame compressed
    obtain ⟨-, z, -, rfl⟩ := compressDict_eq_ok.mp compressed
    exact isDictFrame_header z
  · unfold compressJson
    split
    · rename_i z compressed
      have plain : ∀ encoded, base64Decode encoded = some z →
          decompressJsonDict c encoded = decompressJson c encoded := by
        intro encoded decoded
        unfold decompressJsonDict
        split
        · rename_i refused
          exact (if_pos refused).symm
        · rw [decoded]
          dsimp only
          rw [if_neg (by rw [told z compressed]; decide)]
      exact plain _ (base64Decode_base64Encode z)
    · rfl

end Roundtrips

section Buffering

variable {deflate inflate zstdEncode zstdDecode : Bytes → Except String Bytes}

def buffering (deflate inflate zstdEncode zstdDecode : Bytes → Except String Bytes) : Codecs where
  deflate := deflate
  Inflater := Bytes
  new := []
  write stream chunk := (stream ++ chunk, .all)
  totalOut stream :=
    match inflate stream with
    | .ok data => data.length
    | .error _ => 0
  finish := inflate
  zstdEncode := zstdEncode
  zstdRead frame most := (zstdDecode frame).map (List.take most)

theorem feed_buffering (stream : Bytes) (chunks : List Bytes) :
    (buffering deflate inflate zstdEncode zstdDecode).feed stream chunks = some (stream ++ chunks.flatten) := by
  induction chunks generalizing stream with
  | nil => exact congrArg some (List.append_nil stream).symm
  | cons chunk rest ih =>
    rw [List.flatten_cons, ← List.append_assoc, ← ih (stream ++ chunk)]
    rfl

theorem inflates_buffering {data z : Bytes} (whole : inflate z = .ok data)
    (cut : ∀ front rest out, front ++ rest = z → inflate front = .ok out → out.length ≤ data.length)
    (chunks : List Bytes) (rest : Bytes) (joined : chunks.flatten ++ rest = z) :
    ∃ decoder, (buffering deflate inflate zstdEncode zstdDecode).feed [] chunks = some decoder ∧
      (buffering deflate inflate zstdEncode zstdDecode).totalOut decoder ≤ data.length ∧
      (rest = [] → inflate decoder = .ok data) := by
  refine ⟨chunks.flatten, feed_buffering [] chunks, ?_, ?_⟩
  · dsimp only [buffering]
    split
    · rename_i out inflated
      exact cut _ rest out joined inflated
    · exact Nat.zero_le _
  · rintro rfl
    rw [← whole, ← joined, List.append_nil]

end Buffering

/-- What a stream stands for that begins with the byte put in front of it. -/
def unstored (z : Bytes) : Except String Bytes :=
  if z.head? = some 1 then .ok z.tail else .error "corrupt deflate stream"

/-- Everything is stored: as a deflate stream behind one byte, as a frame the way it is. -/
def stored : Codecs := buffering (fun data => .ok (1 :: data)) unstored .ok .ok

theorem stored_inverse : stored.Inverse where
  inflates := by
    rintro data z ⟨⟩ chunks rest joined
    have whole : unstored (1 :: data) = .ok data := rfl
    refine inflates_buffering whole ?_ chunks rest joined
    intro front rest out split inflated
    have length := congrArg List.length split
    unfold unstored at inflated
    split at inflated
    · cases inflated
      rw [List.length_tail]
      simp only [List.length_append, List.length_cons] at length
      omega
    · cases inflated
  deflateBound := by
    rintro data z ⟨⟩
    rw [List.length_cons]
    omega
  fixedLiteral := by
    rintro data z ⟨⟩ final code - - starts
    -- The second bit is not the one of a block with fixed codes.
    have second : true = (1 : UInt8).toNat.testBit 1 := starts.getElem (i := 1) (by simp)
    cases second
  zstdReads := by
    rintro data frame ⟨⟩ most
    rfl
  zstdBound := by
    rintro data frame ⟨⟩
    omega

def letters (n : Nat) : String := String.ofList (List.replicate n 'a')

theorem byteLen_letters (n : Nat) : byteLen (letters n) = n := by
  rw [letters, CharBoundaries.byteLen_ofList, CharBoundaries.byteSize, List.map_replicate, List.sum_replicate_nat]
  exact Nat.mul_one n

theorem base64Encode_ne_empty {bytes : Bytes} (nonempty : bytes ≠ []) : base64Encode bytes ≠ "" := by
  intro empty
  have length := byteLen_base64Encode bytes
  have positive := List.length_pos_of_ne_nil nonempty
  rw [empty] at length
  have none : byteLen "" = 0 := rfl
  omega

/-- One byte above the smaller of the caps is compressed, and lost. -/
theorem long_text_lost :
    stored.Inverse ∧ compressJson stored (letters (maxDecompressBytes + 1)) ≠ "" ∧
      decompressJson stored (compressJson stored (letters (maxDecompressBytes + 1))) ≠
        letters (maxDecompressBytes + 1) ∧
      compressJsonDict stored (letters (maxDecompressBytes + 1)) ≠ "" ∧
      decompressJsonDict stored (compressJsonDict stored (letters (maxDecompressBytes + 1))) ≠
        letters (maxDecompressBytes + 1) := by
  have length := byteLen_letters (maxDecompressBytes + 1)
  generalize letters (maxDecompressBytes + 1) = s at length ⊢
  have allowed : (utf8 s).length ≤ maxCompressBytes := by
    rw [length_utf8, length]
    decide
  have lost : returned s ≠ s := by
    rw [returned_of_long (by omega)]
    rintro rfl
    cases length
  have plain : compress stored (utf8 s) = .ok (1 :: utf8 s) := compress_eq_ok.mpr ⟨allowed, rfl⟩
  have framed : compressDict stored (utf8 s) = .ok (zstdDictMagic ++ leBytes 4 zstdDictId ++ utf8 s) :=
    compressDict_eq_ok.mpr ⟨allowed, utf8 s, rfl, rfl⟩
  rw [compressJson, plain, compressJsonDict, framed]
  refine ⟨stored_inverse, base64Encode_ne_empty (List.cons_ne_nil _ _), ?_, base64Encode_ne_empty ?_, ?_⟩
  · rwa [decompressJson_deflated stored_inverse rfl]
  · exact List.cons_ne_nil _ _
  · rwa [decompressJsonDict_header stored_inverse rfl]

def like : String := "\x7b\"kind\":1,\"tags\":[[\"e\",\"0a\"]]\x7d"

/-- What a deflate encoder and a zstd encoder with the dictionary make of one text. -/
def recorded : Codecs :=
  let deflated := beBytes 32 0xab56cacecc4b51b232d4512a494c2f56b28a8e564a55d2513248548a8dad0500
  let frame := beBytes 31 0x28b52ffd03584836550e950000587b65222c223061225d5d7d0100ecc40801
  buffering (fun data => if data = utf8 like then .ok deflated else .error "not recorded")
    (fun z => if z = deflated then .ok (utf8 like) else .error "deflate decompression error")
    (fun data => if data = utf8 like then .ok frame else .error "not recorded")
    (fun z => if z = frame then .ok (utf8 like) else .error "Unknown frame descriptor")

theorem only_eq_ok {data z only made : Bytes} {e : String}
    (succeeded : (if data = only then .ok made else .error e : Except String Bytes) = .ok z) :
    data = only ∧ made = z := by
  split at succeeded
  · rename_i same
    exact ⟨same, Except.ok.inj succeeded⟩
  · cases succeeded

theorem recorded_inverse : recorded.Inverse where
  inflates := by
    intro data z deflated chunks rest joined
    obtain ⟨rfl, rfl⟩ := only_eq_ok deflated
    refine inflates_buffering (if_pos rfl) ?_ chunks rest joined
    intro front rest out split inflated
    obtain ⟨-, rfl⟩ := only_eq_ok inflated
    exact Nat.le_refl _
  deflateBound := by
    intro data z deflated
    obtain ⟨rfl, rfl⟩ := only_eq_ok deflated
    decide
  fixedLiteral := by
    intro data z deflated final code low high starts
    obtain ⟨rfl, rfl⟩ := only_eq_ok deflated
    -- The first code has eight bits, and its second is not that of a longer one.
    have second : code.testBit 7 = (0xAB : UInt8).toNat.testBit 4 := starts.getElem (i := 4) (by simp [codeBits])
    rw [Nat.testBit_eq_decide_div_mod_eq, decide_eq_true (by omega)] at second
    cases second
  zstdReads := by
    intro data frame encoded most
    obtain ⟨rfl, rfl⟩ := only_eq_ok encoded
    rfl
  zstdBound := by
    intro data frame encoded
    obtain ⟨rfl, rfl⟩ := only_eq_ok encoded
    decide

theorem compress_json_roundtrip_like :
    recorded.Inverse ∧ compressJson recorded like ≠ "" ∧ decompressJson recorded (compressJson recorded like) = like ∧
      compressJsonDict recorded like ≠ "" ∧ decompressJsonDict recorded (compressJsonDict recorded like) = like := by
  have plain : compressJson recorded like ≠ "" := by decide +kernel
  have framed : compressJsonDict recorded like ≠ "" := by decide +kernel
  obtain ⟨first, second, -⟩ := compress_json_roundtrip recorded_inverse like
  exact ⟨recorded_inverse, plain, first plain, framed, second framed⟩

end Soshal.Content
