import Mathlib.Data.List.Basic
import Mathlib.Data.List.DropRight
import Mathlib.Data.List.Infix
import Mathlib.Tactic.IntervalCases

/-! Text as the sources handle it: UTF-8 lengths, prefixes, trimming, ASCII case
and hexadecimal.

`normKey` is the spelling that every stored key and every comparison of keys is
reduced to; it is idempotent and leaves lower-case hexadecimal alone.
-/

set_option autoImplicit false

namespace Soshal.Library.Text

abbrev byteLen (s : String) : Nat := s.utf8ByteSize

def utf8 (s : String) : List UInt8 := s.toByteArray.data.toList

def fromUtf8 (bytes : List UInt8) : Option String := String.fromUTF8? ⟨bytes.toArray⟩

@[simp] theorem length_utf8 (s : String) : (utf8 s).length = byteLen s := by
  rw [utf8, Array.length_toList]
  rfl

@[simp] theorem fromUtf8_utf8 (s : String) : fromUtf8 (utf8 s) = some s := by
  have bytes : (⟨(utf8 s).toArray⟩ : ByteArray) = s.toByteArray := by simp [utf8]
  rw [fromUtf8, bytes, String.fromUTF8?, dif_pos s.isValidUTF8]
  rfl

theorem byteLen_of_fromUtf8 {bytes : List UInt8} {s : String} (read : fromUtf8 bytes = some s) :
    byteLen s = bytes.length := by
  rw [fromUtf8, String.fromUTF8?] at read
  split at read
  · cases read
    rfl
  · cases read

theorem utf8_of_fromUtf8 {bytes : List UInt8} {s : String} (read : fromUtf8 bytes = some s) : utf8 s = bytes := by
  rw [fromUtf8, String.fromUTF8?] at read
  split at read
  · cases read
    rfl
  · cases read

theorem utf8_inj {first second : String} (same : utf8 first = utf8 second) : first = second := by
  have read := congrArg fromUtf8 same
  simpa using read

theorem utf8_append (first second : String) : utf8 (first ++ second) = utf8 first ++ utf8 second := by
  simp [utf8]

theorem byteLen_ofList_cons (c : Char) (cs : List Char) :
    byteLen (String.ofList (c :: cs)) = c.utf8Size + byteLen (String.ofList cs) := by
  rw [byteLen, String.ofList_cons, String.utf8ByteSize_append, String.utf8ByteSize_singleton]

theorem utf8_ne_nil {s : String} (named : s ≠ "") : utf8 s ≠ [] := by
  intro empty
  have length := length_utf8 s
  rw [empty] at length
  exact named (String.utf8ByteSize_eq_zero_iff.mp length.symm)

def startsWith (s pre : String) : Bool := pre.toList.isPrefixOf s.toList

def stripPrefix (s pre : String) : Option String :=
  if startsWith s pre then some (String.ofList (s.toList.drop pre.toList.length)) else none

theorem startsWith_iff {s pre : String} : startsWith s pre = true ↔ ∃ rest, s = pre ++ rest := by
  rw [startsWith, List.isPrefixOf_iff_prefix]
  constructor
  · rintro ⟨rest, same⟩
    exact ⟨String.ofList rest, by rw [← String.toList_inj]; simp [same]⟩
  · rintro ⟨rest, rfl⟩
    exact ⟨rest.toList, by simp⟩

@[simp] theorem startsWith_append (pre rest : String) : startsWith (pre ++ rest) pre = true :=
  startsWith_iff.mpr ⟨rest, rfl⟩

@[simp] theorem stripPrefix_append (pre rest : String) : stripPrefix (pre ++ rest) pre = some rest := by
  simp [stripPrefix]

theorem stripPrefix_eq_some {s pre rest : String} : stripPrefix s pre = some rest ↔ s = pre ++ rest := by
  constructor
  · intro stripped
    obtain ⟨other, same⟩ : ∃ other, s = pre ++ other := by
      rw [← startsWith_iff]
      by_contra missing
      simp [stripPrefix, missing] at stripped
    rw [same, stripPrefix_append, Option.some.injEq] at stripped
    rw [same, stripped]
  · rintro rfl
    exact stripPrefix_append pre rest

theorem startsWith_append_of_ne {head pre : String} (rest : String)
    (apart : ¬ head.toList <+: pre.toList) (apart' : ¬ pre.toList <+: head.toList) :
    startsWith (head ++ rest) pre = false := by
  rw [Bool.eq_false_iff, Ne, startsWith, List.isPrefixOf_iff_prefix, String.toList_append]
  intro found
  rcases List.prefix_or_prefix_of_prefix found (List.prefix_append head.toList rest.toList) with h | h
  · exact apart' h
  · exact apart h

theorem stripPrefix_eq_none {s pre : String} (missing : startsWith s pre = false) : stripPrefix s pre = none := by
  simp [stripPrefix, missing]

/-- The `White_Space` property of Unicode. -/
def isWhitespace (c : Char) : Bool :=
  let n := c.toNat
  (9 ≤ n && n ≤ 13) || n == 0x20 || n == 0x85 || n == 0xA0 || n == 0x1680 || (0x2000 ≤ n && n ≤ 0x200A) ||
    n == 0x2028 || n == 0x2029 || n == 0x202F || n == 0x205F || n == 0x3000

def trimList (cs : List Char) : List Char := (cs.dropWhile isWhitespace).rdropWhile isWhitespace

def trim (s : String) : String := String.ofList (trimList s.toList)

def toAsciiLowercase (s : String) : String := String.ofList (s.toList.map Char.toLower)

def eqIgnoreAsciiCase (first second : String) : Bool := toAsciiLowercase first == toAsciiLowercase second

def splitOn (s : String) (separator : Char) : List String := (s.toList.splitOn separator).map String.ofList

/-- Trimmed and in lower case. -/
def normKey (s : String) : String := toAsciiLowercase (trim s)

theorem toList_normKey (s : String) : (normKey s).toList = (trimList s.toList).map Char.toLower := by
  simp [normKey, toAsciiLowercase, trim]

theorem toNat_shift {n : UInt32} (high : n.toNat ≤ 90) : (n + (97 - 65)).toNat = n.toNat + 32 := by
  have shift : (97 - 65 : UInt32).toNat = 32 := rfl
  rw [UInt32.toNat_add]
  omega

theorem isWhitespace_toLower (c : Char) : isWhitespace c.toLower = isWhitespace c := by
  delta Char.toLower
  split
  · rename_i upper
    have low : 65 ≤ c.val.toNat := upper.1
    have high : c.val.toNat ≤ 90 := upper.2
    have shifted := toNat_shift high
    simp only [isWhitespace, Char.toNat]
    grind
  · rfl

/-- A text without the blanks around it, for any notion of a blank. -/
def strip (blank : Char → Bool) (cs : List Char) : List Char := (cs.dropWhile blank).rdropWhile blank

section Strip

variable {blank : Char → Bool} {cs : List Char}

theorem dropWhile_map_of_blank {f : Char → Char} (stable : ∀ c, blank (f c) = blank c) (cs : List Char) :
    (cs.map f).dropWhile blank = (cs.dropWhile blank).map f := by
  rw [List.dropWhile_map]
  congr 2
  funext c
  exact stable c

theorem strip_map {f : Char → Char} (stable : ∀ c, blank (f c) = blank c) (cs : List Char) :
    strip blank (cs.map f) = (strip blank cs).map f := by
  rw [strip, strip, dropWhile_map_of_blank stable, List.rdropWhile, List.rdropWhile, ← List.map_reverse,
    dropWhile_map_of_blank stable, List.map_reverse]

theorem strip_of_ends (first : ∀ c ∈ cs.head?, blank c = false) (last : ∀ c ∈ cs.getLast?, blank c = false) :
    strip blank cs = cs := by
  have left : cs.dropWhile blank = cs := by
    cases cs with
    | nil => rfl
    | cons c rest => simp [first c (by simp)]
  rw [strip, left]
  rw [List.rdropWhile_eq_self_iff]
  intro nonempty
  simp [last _ (List.getLast?_eq_some_getLast nonempty)]

theorem head_strip : ∀ c ∈ (strip blank cs).head?, blank c = false := by
  intro c found
  have inside : (strip blank cs).head? = (cs.dropWhile blank).head? := by
    obtain ⟨dropped, whole⟩ : strip blank cs <+: cs.dropWhile blank := List.rdropWhile_prefix blank _
    rw [← whole]
    cases trimmed : strip blank cs with
    | nil => simp [trimmed] at found
    | cons => rfl
  have first := List.head?_dropWhile_not blank cs
  rw [inside, Option.mem_def] at found
  rw [found] at first
  exact first

theorem strip_strip (blank : Char → Bool) (cs : List Char) : strip blank (strip blank cs) = strip blank cs := by
  refine strip_of_ends head_strip fun c found => ?_
  obtain ⟨nonempty, rfl⟩ := List.mem_getLast?_eq_getLast found
  exact Bool.eq_false_iff.mpr (List.rdropWhile_last_not blank _ nonempty)

end Strip

theorem trimList_map_toLower (cs : List Char) : trimList (cs.map Char.toLower) = (trimList cs).map Char.toLower :=
  strip_map isWhitespace_toLower cs

theorem trimList_of_ends {cs : List Char} (first : ∀ c ∈ cs.head?, isWhitespace c = false)
    (last : ∀ c ∈ cs.getLast?, isWhitespace c = false) : trimList cs = cs := strip_of_ends first last

/-- Trimming reaches no further into a text than its last visible character. -/
theorem trimList_append {first : List Char} (second : List Char) (nonempty : first ≠ [])
    (head : ∀ c ∈ first.head?, isWhitespace c = false) (last : isWhitespace (first.getLast nonempty) = false) :
    ∃ rest, trimList (first ++ second) = first ++ rest := by
  have left : (first ++ second).dropWhile isWhitespace = first ++ second := by
    cases first with
    | nil => exact absurd rfl nonempty
    | cons c rest => simp [head c (by simp)]
  rw [trimList, left]
  induction second using List.reverseRecOn with
  | nil =>
    refine ⟨[], ?_⟩
    rw [List.append_nil, List.rdropWhile_eq_self_iff]
    intro _
    simp [last]
  | append_singleton second c ih =>
    rw [← List.append_assoc]
    cases blank : isWhitespace c with
    | true =>
      rw [List.rdropWhile_concat_pos _ _ _ blank]
      refine ih ?_
      cases first with
      | nil => exact absurd rfl nonempty
      | cons c' rest => simp [head c' (by simp)]
    | false =>
      rw [List.rdropWhile_concat_neg _ _ _ (by simp [blank])]
      exact ⟨second ++ [c], by simp⟩

theorem trimList_trimList (cs : List Char) : trimList (trimList cs) = trimList cs := strip_strip isWhitespace cs

theorem toLower_toLower (c : Char) : c.toLower.toLower = c.toLower := by
  by_cases upper : c.val ≥ 'A'.val ∧ c.val ≤ 'Z'.val
  · have lowered : c.toLower.val = c.val + (97 - 65) := congrArg Char.val (dif_pos upper)
    have low : 65 ≤ c.val.toNat := upper.1
    have shifted := toNat_shift upper.2
    refine dif_neg ?_
    rintro ⟨-, small⟩
    rw [lowered] at small
    have bound : (c.val + (97 - 65)).toNat ≤ 90 := small
    omega
  · have same : c.toLower = c := dif_neg upper
    rw [same, same]

theorem toAsciiLowercase_normKey (s : String) : toAsciiLowercase (normKey s) = normKey s := by
  rw [normKey, toAsciiLowercase, toAsciiLowercase, String.toList_ofList, List.map_map]
  exact congrArg String.ofList (List.map_congr_left fun c _ => toLower_toLower c)

theorem normKey_of_eqIgnoreAsciiCase {first second : String} (same : eqIgnoreAsciiCase first second = true) :
    normKey first = normKey second := by
  have lower : first.toList.map Char.toLower = second.toList.map Char.toLower :=
    String.ofList_injective (eq_of_beq same)
  apply String.toList_injective
  rw [toList_normKey, toList_normKey, ← trimList_map_toLower, ← trimList_map_toLower, lower]

@[simp] theorem normKey_normKey (s : String) : normKey (normKey s) = normKey s := by
  simp only [normKey, toAsciiLowercase, trim, String.toList_ofList, trimList_map_toLower, trimList_trimList,
    List.map_map]
  congr 2
  funext c
  exact toLower_toLower c

def isAsciiHexdigit (c : Char) : Bool := c.isDigit || ('a' ≤ c && c ≤ 'f') || ('A' ≤ c && c ≤ 'F')

def hexDigit (n : Nat) : Char := Char.ofNat (if n < 10 then 48 + n else 87 + n)

def hexEncode (bytes : List UInt8) : String :=
  String.ofList (bytes.flatMap fun b => [hexDigit (b.toNat / 16), hexDigit (b.toNat % 16)])

theorem hexDigit_plain {n : Nat} (small : n < 16) :
    (hexDigit n).toLower = hexDigit n ∧ isWhitespace (hexDigit n) = false := by
  interval_cases n <;> decide

theorem hexEncode_plain {bytes : List UInt8} {c : Char} (member : c ∈ (hexEncode bytes).toList) :
    c.toLower = c ∧ isWhitespace c = false := by
  simp only [hexEncode, String.toList_ofList, List.mem_flatMap, List.mem_cons, List.not_mem_nil, or_false] at member
  obtain ⟨b, -, rfl | rfl⟩ := member
  · exact hexDigit_plain (by have := b.toNat_lt; omega)
  · exact hexDigit_plain (by omega)

theorem trim_hexEncode (bytes : List UInt8) : trim (hexEncode bytes) = hexEncode bytes := by
  have trimmed : trimList (hexEncode bytes).toList = (hexEncode bytes).toList :=
    trimList_of_ends (fun c found => (hexEncode_plain (List.mem_of_mem_head? found)).2)
      (fun c found => (hexEncode_plain (List.mem_of_mem_getLast? found)).2)
  rw [trim, trimmed, String.ofList_toList]

@[simp] theorem normKey_hexEncode (bytes : List UInt8) : normKey (hexEncode bytes) = hexEncode bytes := by
  have lowered : (hexEncode bytes).toList.map Char.toLower = (hexEncode bytes).toList := by
    conv_rhs => rw [← List.map_id (hexEncode bytes).toList]
    exact List.map_congr_left fun c member => (hexEncode_plain member).1
  simp [normKey, toAsciiLowercase, trim_hexEncode, lowered]

theorem utf8Size_hexDigit {n : Nat} (small : n < 16) : (hexDigit n).utf8Size = 1 := by
  interval_cases n <;> rfl

theorem byteLen_hexEncode (bytes : List UInt8) : byteLen (hexEncode bytes) = bytes.length * 2 := by
  induction bytes with
  | nil => rfl
  | cons b rest ih =>
    have digits : hexEncode (b :: rest) =
        String.singleton (hexDigit (b.toNat / 16)) ++ (String.singleton (hexDigit (b.toNat % 16)) ++ hexEncode rest) := by
      rw [← String.toList_inj]
      simp [hexEncode]
    have small := b.toNat_lt
    simp only [byteLen] at ih ⊢
    rw [digits, String.utf8ByteSize_append, String.utf8ByteSize_append, String.utf8ByteSize_singleton,
      String.utf8ByteSize_singleton, ih, utf8Size_hexDigit (by omega), utf8Size_hexDigit (by omega), List.length_cons]
    omega

theorem hexDigit_inj {n m : Nat} (left : n < 16) (right : m < 16) (same : hexDigit n = hexDigit m) : n = m := by
  interval_cases n <;> interval_cases m <;> first | rfl | exact absurd same (by decide)

theorem hexEncode_inj {first second : List UInt8} (same : hexEncode first = hexEncode second) : first = second := by
  have chars := congrArg String.toList same
  simp only [hexEncode, String.toList_ofList] at chars
  clear same
  induction first generalizing second with
  | nil => cases second with
    | nil => rfl
    | cons => simp at chars
  | cons b rest ih => cases second with
    | nil => simp at chars
    | cons b' rest' =>
      simp only [List.flatMap_cons, List.cons_append, List.nil_append, List.cons.injEq] at chars
      obtain ⟨high, low, tail⟩ := chars
      have bound := b.toNat_lt
      have bound' := b'.toNat_lt
      have high := hexDigit_inj (by omega) (by omega) high
      have low := hexDigit_inj (by omega) (by omega) low
      rw [ih tail, UInt8.toNat_inj.mp (by omega : b.toNat = b'.toNat)]

end Soshal.Library.Text
