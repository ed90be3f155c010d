import Soshal.Library.Fields

/-! Range headers, as the video server reads them and as they are specified.

The server looks for an equals sign and a minus sign and takes whatever number stands
on either side, spaces and signs allowed. The specification has one unit and digits.
-/

set_option autoImplicit false

namespace Soshal.Streaming.Video

open Library
open Library.Fields (cut cut_eq_some parseUnsigned splitOnce splitOnce_eq_some)
open Library.Text (isWhitespace strip trim trimList)

inductive Reading where
  | whole
  | invalid
  | span (first last : Nat)
  deriving DecidableEq

def parseU64 (s : String) : Option Nat := parseUnsigned (2 ^ 64) s

def readSides (totalSize : Nat) (startStr endStr : String) : Reading :=
  if startStr ≠ "" then
    match parseU64 startStr with
    | none => .invalid
    | some start =>
      if endStr ≠ "" then
        match parseU64 endStr with
        | none => .invalid
        | some last => .span start (min last (totalSize - 1))
      else .span start (totalSize - 1)
  else if endStr ≠ "" then
    match parseU64 endStr with
    | none => .invalid
    | some n => if n = 0 then .invalid else .span (totalSize - n) (totalSize - 1)
  else .invalid

def readRange (totalSize : Nat) (rangeHeader : Option String) : Reading :=
  match rangeHeader.bind fun hdr => splitOnce hdr '=' with
  | none => .whole
  | some (_, spec) =>
    if ',' ∈ (trim spec).toList then .whole
    else
      match splitOnce (trim spec) '-' with
      | none => .invalid
      | some (startStr, endStr) => readSides totalSize (trim startStr) (trim endStr)

inductive ByteRange where
  | fromTo (first last : Nat)
  | onward (first : Nat)
  | suffix (length : Nat)

/-- The first and the last byte of a range in a file of some size, when it has any. -/
def ByteRange.clip (size : Nat) : ByteRange → Option (Nat × Nat)
  | .fromTo first last => if first < size then some (first, min last (size - 1)) else none
  | .onward first => if first < size then some (first, size - 1) else none
  | .suffix length => if 0 < length ∧ 0 < size then some (size - length, size - 1) else none

def decimal (cs : List Char) : Option Nat :=
  if cs ≠ [] ∧ cs.all Char.isDigit then some (Nat.ofDigitChars 10 cs 0) else none

def byteRangeSpec (cs : List Char) : Option ByteRange := do
  let (first, last) ← cut '-' cs
  if first = [] then (decimal last).map .suffix
  else
    let first ← decimal first
    if last = [] then some (.onward first)
    else
      let last ← decimal last
      if first ≤ last then some (.fromTo first last) else none

def isOws (c : Char) : Bool := c == ' ' || c == '\t'

/-- The single range of a header line behind the field name: a unit of bytes and two numbers of digits, with optional
spaces only around all of it. -/
def strictRange (line : String) : Option ByteRange := do
  let (unit, spec) ← cut '=' (strip isOws (line.toList.drop 6))
  if unit.map Char.toLower = "bytes".toList then byteRangeSpec spec else none

def StartsRange (line : String) : Prop := (line.toList.take 6).map Char.toLower = "range:".toList

instance (line : String) : Decidable (StartsRange line) := inferInstanceAs (Decidable (_ = _))

/-- Two numbers that denote the bytes from one place to another in a file of some size, as they are read. -/
def Denotes (size : Nat) (startStr endStr : String) (first last : Nat) : Prop :=
  (startStr ≠ "" ∧ parseU64 startStr = some first ∧ first < size ∧
      (endStr = "" ∧ last = size - 1 ∨
        endStr ≠ "" ∧ ∃ n, parseU64 endStr = some n ∧ first ≤ n ∧ last = min n (size - 1))) ∨
    startStr = "" ∧ endStr ≠ "" ∧
      ∃ n, parseU64 endStr = some n ∧ 0 < n ∧ 0 < size ∧ first = size - n ∧ last = size - 1

/-- A line that is taken for a range: any unit, and two numbers that denote bytes of the file, spaces or not. -/
def Taken (size : Nat) (line : String) (first last : Nat) : Prop :=
  ∃ unit spec startStr endStr, splitOnce line '=' = some (unit, spec) ∧ ',' ∉ (trim spec).toList ∧
    splitOnce (trim spec) '-' = some (startStr, endStr) ∧ Denotes size (trim startStr) (trim endStr) first last

theorem readSides_eq_span {size first last : Nat} {startStr endStr : String} :
    (readSides size startStr endStr = .span first last ∧ 0 < size ∧ first ≤ last) ↔
      Denotes size startStr endStr first last := by
  unfold readSides Denotes
  by_cases left : startStr = ""
  · by_cases right : endStr = ""
    · simp [left, right]
    · cases suffix : parseU64 endStr with
      | none => simp [left, right]
      | some n =>
        by_cases zero : n = 0
        · simp [left, right, zero]
        · simp only [left, right, zero, ne_eq, not_true_eq_false, not_false_eq_true, if_true, if_false, false_and,
            false_or, true_and, Reading.span.injEq, Option.some.injEq, exists_eq_left']
          omega
  · cases start : parseU64 startStr with
    | none => simp [left]
    | some from_ =>
      by_cases right : endStr = ""
      · simp only [left, right, ne_eq, not_true_eq_false, not_false_eq_true, if_true, if_false, false_and, or_false,
          true_and, Reading.span.injEq, Option.some.injEq]
        omega
      · cases parseU64 endStr with
        | none => simp [left, right]
        | some final =>
          simp only [left, right, ne_eq, not_false_eq_true, if_true, false_and, false_or, or_false, true_and,
            Reading.span.injEq, Option.some.injEq, exists_eq_left']
          omega

theorem readRange_eq_span {size first last : Nat} {line : String} :
    (readRange size (some line) = .span first last ∧ 0 < size ∧ first ≤ last) ↔ Taken size line first last := by
  unfold readRange Taken
  rw [Option.bind_some]
  cases cutAt : splitOnce line '=' with
  | none => simp
  | some parts =>
    obtain ⟨unit, spec⟩ := parts
    by_cases several : ',' ∈ (trim spec).toList
    · simp [several]
    · cases sides : splitOnce (trim spec) '-' with
      | none => simp [several, sides]
      | some both =>
        obtain ⟨startStr, endStr⟩ := both
        simp [several, sides, readSides_eq_span]

theorem Taken.inside {size first last : Nat} {line : String} (taken : Taken size line first last) : last < size := by
  obtain ⟨-, -, -, -, -, -, -, ⟨-, -, begins, ⟨-, rfl⟩ | ⟨-, n, -, -, rfl⟩⟩ | ⟨-, -, n, -, -, nonempty, -, rfl⟩⟩ :=
    taken
  all_goals omega

theorem mem_digits {c : Char} {cs : List Char} {n : Nat} (digits : decimal cs = some n) (inside : c ∈ cs) :
    c.isDigit = true := by
  unfold decimal at digits
  split at digits
  · rename_i all
    exact List.all_eq_true.mp all.2 c inside
  · cases digits

theorem isWhitespace_of_isDigit {c : Char} (digit : c.isDigit = true) : isWhitespace c = false := by
  simp only [Char.isDigit, Bool.and_eq_true, decide_eq_true_eq] at digit
  have low : 48 ≤ c.toNat := digit.1
  have high : c.toNat ≤ 57 := digit.2
  unfold isWhitespace
  dsimp only
  grind

theorem parseU64_digits {cs : List Char} {n : Nat} (digits : decimal cs = some n) :
    parseU64 (String.ofList cs) = if n < 2 ^ 64 then some n else none := by
  have unsigned : Text.stripPrefix (String.ofList cs) "+" = none := by
    refine Text.stripPrefix_eq_none (Bool.eq_false_iff.mpr fun signed => ?_)
    obtain ⟨rest, whole⟩ := Text.startsWith_iff.mp signed
    have sign : '+' ∈ cs := by
      rw [← String.toList_ofList (l := cs), whole]
      simp
    cases mem_digits digits sign
  unfold decimal at digits
  split at digits
  · rename_i all
    cases digits
    have nonempty : String.ofList cs ≠ "" := by
      rw [Ne, ← String.toList_inj, String.toList_ofList]
      exact all.1
    unfold parseU64 parseUnsigned
    simp only [unsigned, Option.getD_none, String.toList_ofList]
    rw [if_pos ⟨nonempty, all.2⟩]
  · cases digits

theorem read_of_decimal {s : String} {n m : Nat} (digits : decimal s.toList = some n)
    (read : parseU64 s = some m) : m = n := by
  have value := parseU64_digits digits
  rw [String.ofList_toList, read] at value
  exact (Option.ite_none_right_eq_some.mp value.symm).2 |> Option.some.inj |> Eq.symm

theorem trim_of_digits {cs : List Char} (digits : ∀ c ∈ cs, c.isDigit = true) :
    trim (String.ofList cs) = String.ofList cs := by
  rw [trim, String.toList_ofList, Text.trimList_of_ends]
  · exact fun c first => isWhitespace_of_isDigit (digits c (List.mem_of_mem_head? first))
  · exact fun c last => isWhitespace_of_isDigit (digits c (List.mem_of_mem_getLast? last))

/-- The two sides of the minus sign of a specified range. -/
inductive Sides : List Char → List Char → ByteRange → Prop where
  | suffix {last : List Char} {n : Nat} (digits : decimal last = some n) : Sides [] last (.suffix n)
  | onward {first : List Char} {n : Nat} (digits : decimal first = some n) : Sides first [] (.onward n)
  | fromTo {first last : List Char} {n m : Nat} (digits : decimal first = some n) (digits' : decimal last = some m)
      (order : n ≤ m) : Sides first last (.fromTo n m)

theorem Sides.digits {first last : List Char} {range : ByteRange} (sides : Sides first last range) :
    ∀ c ∈ first ++ last, c.isDigit = true := by
  intro c inside
  cases sides with
  | suffix digits => exact mem_digits digits inside
  | onward digits => exact mem_digits digits (by rwa [List.append_nil] at inside)
  | fromTo digits digits' =>
    obtain left | right := List.mem_append.mp inside
    · exact mem_digits digits left
    · exact mem_digits digits' right

theorem byteRangeSpec_shape {cs : List Char} {range : ByteRange} (specified : byteRangeSpec cs = some range) :
    ∃ first last, cs = first ++ '-' :: last ∧ Sides first last range := by
  obtain ⟨⟨first, last⟩, cutAt, sides⟩ := Option.bind_eq_some_iff.mp specified
  obtain ⟨joined, -⟩ := cut_eq_some.mp cutAt
  refine ⟨first, last, joined, ?_⟩
  dsimp only at sides
  split at sides
  · rename_i empty
    obtain ⟨n, digits, rfl⟩ := Option.map_eq_some_iff.mp sides
    exact empty ▸ .suffix digits
  · obtain ⟨n, digits, sides⟩ := Option.bind_eq_some_iff.mp sides
    split at sides
    · rename_i empty
      cases sides
      exact empty ▸ .onward digits
    · obtain ⟨m, digits', sides⟩ := Option.bind_eq_some_iff.mp sides
      obtain ⟨order, same⟩ := Option.ite_none_right_eq_some.mp sides
      cases same
      exact .fromTo digits digits' order

theorem Sides.clip {size first last : Nat} {startStr endStr : String} {range : ByteRange}
    (sides : Sides startStr.toList endStr.toList range) (denotes : Denotes size startStr endStr first last) :
    range.clip size = some (first, last) := by
  generalize left : startStr.toList = a at sides
  generalize right : endStr.toList = b at sides
  cases sides with
  | suffix digits =>
    obtain rfl : startStr = "" := String.toList_eq_nil_iff.mp left
    obtain ⟨named, -⟩ | ⟨-, -, n, read, positive, nonempty, rfl, rfl⟩ := denotes
    · exact absurd rfl named
    · obtain rfl := read_of_decimal (right ▸ digits) read
      exact if_pos ⟨positive, nonempty⟩
  | onward digits =>
    obtain rfl : endStr = "" := String.toList_eq_nil_iff.mp right
    obtain ⟨-, read, inside, ⟨-, rfl⟩ | ⟨named, -⟩⟩ | ⟨-, named, -⟩ := denotes
    · obtain rfl := read_of_decimal (left ▸ digits) read
      exact if_pos inside
    · exact absurd rfl named
    · exact absurd rfl named
  | fromTo digits digits' =>
    obtain ⟨-, read, inside, ⟨rfl, -⟩ | ⟨-, m, read', -, rfl⟩⟩ | ⟨rfl, -⟩ := denotes
    · subst right
      cases digits'
    · obtain rfl := read_of_decimal (left ▸ digits) read
      obtain rfl := read_of_decimal (right ▸ digits') read'
      exact if_pos inside
    · subst left
      cases digits

theorem strip_around (blank : Char → Bool) (cs : List Char) :
    ∃ front back, cs = front ++ (strip blank cs ++ back) ∧ (∀ c ∈ front, blank c = true) ∧
      ∀ c ∈ back, blank c = true := by
  refine ⟨cs.takeWhile blank, ((cs.dropWhile blank).reverse.takeWhile blank).reverse, ?_, ?_, ?_⟩
  · calc cs = cs.takeWhile blank ++ cs.dropWhile blank := List.takeWhile_append_dropWhile.symm
      _ = cs.takeWhile blank ++ ((cs.dropWhile blank).reverse.takeWhile blank ++
            (cs.dropWhile blank).reverse.dropWhile blank).reverse := by
          rw [List.takeWhile_append_dropWhile (l := (cs.dropWhile blank).reverse), List.reverse_reverse]
      _ = cs.takeWhile blank ++
            (strip blank cs ++ ((cs.dropWhile blank).reverse.takeWhile blank).reverse) := by
          rw [List.reverse_append]
          rfl
  · exact fun c inside => List.mem_takeWhile_imp inside
  · exact fun c inside => List.mem_takeWhile_imp (List.mem_reverse.mp inside)

theorem trimList_append_blank {cs back : List Char} (nonempty : cs ≠ []) (visible : ∀ c ∈ cs, isWhitespace c = false)
    (blank : ∀ c ∈ back, isWhitespace c = true) : trimList (cs ++ back) = cs := by
  obtain ⟨c, rest, rfl⟩ := List.exists_cons_of_ne_nil nonempty
  have left : (c :: rest ++ back).dropWhile isWhitespace = c :: rest ++ back :=
    List.dropWhile_cons_of_neg (by rw [visible c List.mem_cons_self]; decide)
  have right : (c :: rest).rdropWhile isWhitespace = c :: rest := by
    rw [List.rdropWhile_eq_self_iff]
    intro ne
    rw [visible _ (List.getLast_mem ne)]
    decide
  rw [trimList, left]
  induction back using List.reverseRecOn with
  | nil => rw [List.append_nil, right]
  | append_singleton back d ih =>
    rw [← List.append_assoc, List.rdropWhile_concat_pos _ _ _ (blank d (by simp))]
    have stops : ¬ isWhitespace c = true := by
      rw [visible c List.mem_cons_self]
      decide
    exact ih (fun e inside => blank e (by simp [inside])) (List.dropWhile_cons_of_neg stops)

theorem isWhitespace_of_isOws {c : Char} (blank : isOws c = true) : isWhitespace c = true := by
  obtain same | same := Bool.or_eq_true_iff.mp blank
  · rw [eq_of_beq same]
    rfl
  · rw [eq_of_beq same]
    rfl

theorem toList_splitOnce {s front back : String} {sep : Char} (found : splitOnce s sep = some (front, back)) :
    s.toList = front.toList ++ sep :: back.toList ∧ sep ∉ front.toList := by
  obtain ⟨joined, plain⟩ := splitOnce_eq_some.mp found
  rw [joined]
  exact ⟨by simp, plain⟩

theorem trim_of_specified {line unit spec : String} {range : ByteRange} (field : StartsRange line)
    (specified : strictRange line = some range) (equals : splitOnce line '=' = some (unit, spec)) :
    ∃ first last, trim spec = String.ofList (first ++ '-' :: last) ∧ Sides first last range := by
  obtain ⟨⟨unit', value⟩, cutAt, specified⟩ := Option.bind_eq_some_iff.mp specified
  obtain ⟨stripped, plainUnit⟩ := cut_eq_some.mp cutAt
  obtain ⟨-, specified⟩ := Option.ite_none_right_eq_some.mp specified
  obtain ⟨first, last, rfl, sides⟩ := byteRangeSpec_shape specified
  obtain ⟨front, back, around, blankFront, blankBack⟩ := strip_around isOws (line.toList.drop 6)
  have whole : line.toList = (line.toList.take 6 ++ (front ++ unit')) ++ '=' :: (first ++ '-' :: last ++ back) := by
    conv_lhs => rw [← List.take_append_drop 6 line.toList, around, stripped]
    simp
  have plain : '=' ∉ line.toList.take 6 ++ (front ++ unit') := by
    simp only [List.mem_append, not_or]
    refine ⟨fun inside => ?_, fun inside => ?_, plainUnit⟩
    · have lower : '=' ∈ "range:".toList := field ▸ List.mem_map.mpr ⟨'=', inside, rfl⟩
      exact absurd lower (by decide)
    · cases blankFront _ inside
  -- The server cuts at the same equals sign, the first one.
  obtain ⟨parts, plain'⟩ := toList_splitOnce equals
  obtain ⟨-, behind⟩ := Fields.first_cut_unique plain plain' (whole.symm.trans parts)
  refine ⟨first, last, ?_, sides⟩
  rw [trim, ← behind, trimList_append_blank (by simp)]
  · intro c inside
    obtain left | rfl | right : c ∈ first ∨ c = '-' ∨ c ∈ last := by simpa using inside
    · exact isWhitespace_of_isDigit (sides.digits c (List.mem_append_left _ left))
    · rfl
    · exact isWhitespace_of_isDigit (sides.digits c (List.mem_append_right _ right))
  · exact fun c inside => isWhitespace_of_isOws (blankBack c inside)

theorem clip_of_taken {size first last : Nat} {line : String} {range : ByteRange} (field : StartsRange line)
    (specified : strictRange line = some range) (taken : Taken size line first last) :
    range.clip size = some (first, last) := by
  obtain ⟨unit, spec, startStr, endStr, equals, -, minus, denotes⟩ := taken
  obtain ⟨a, b, trimmed, sides⟩ := trim_of_specified field specified equals
  rw [trimmed] at minus
  obtain ⟨parts, plain⟩ := toList_splitOnce minus
  rw [String.toList_ofList] at parts
  have signless : '-' ∉ a := fun inside => by cases sides.digits '-' (List.mem_append_left _ inside)
  obtain ⟨rfl, rfl⟩ := Fields.first_cut_unique signless plain parts
  have left := trim_of_digits fun c inside => sides.digits c (List.mem_append_left _ inside)
  have right := trim_of_digits fun c inside => sides.digits c (List.mem_append_right _ inside)
  rw [String.ofList_toList] at left right
  rw [left, right] at denotes
  exact sides.clip denotes

end Soshal.Streaming.Video
