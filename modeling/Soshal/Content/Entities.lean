import Soshal.Library.CharBoundaries
import Soshal.Library.Fields
import Soshal.Library.Numerals
import Soshal.Library.Scanner

/-! Named and numeric character references, decoded in one pass.

An ampersand looks for the semicolon in a window of bytes. What lies between is copied
when it is no entity, and an ampersand in it with the rest.
-/

set_option autoImplicit false

namespace Soshal.Content.Entities

open Library
open Library.CharBoundaries (byteSize)
open Library.Numerals (fromStrRadix fromStrRadix_eq_some isDigitIn not_mem_digits numeralValue withoutSign_of_not_mem)
open Library.Scanner (Edited scan scan_append_of_copies scan_cons)

def entityNames : List (String × Char) :=
  [("amp", '&'), ("lt", '<'), ("gt", '>'), ("quot", '"'), ("apos", '\''), ("nbsp", '\u00a0'), ("ndash", '\u2013'),
    ("mdash", '\u2014'), ("lsquo", '\u2018'), ("rsquo", '\u2019'), ("ldquo", '\u201c'), ("rdquo", '\u201d'),
    ("bull", '\u2022'), ("hellip", '\u2026'), ("copy", '\u00a9'), ("reg", '\u00ae'), ("trade", '\u2122'),
    ("euro", '\u20ac'), ("pound", '\u00a3'), ("yen", '\u00a5'), ("cent", '\u00a2'), ("sect", '\u00a7'),
    ("deg", '\u00b0'), ("plusmn", '\u00b1'), ("sup2", '\u00b2'), ("sup3", '\u00b3'), ("frac14", '\u00bc'),
    ("frac12", '\u00bd'), ("frac34", '\u00be'), ("times", '\u00d7'), ("divide", '\u00f7')]

/-- `char::from_u32`. -/
def charFromU32 (n : Nat) : Option Char := if n.isValidChar then some (Char.ofNat n) else none

def entityChar (number : Nat → List Char → Option Char) (entity : List Char) : Option Char :=
  match entityNames.find? fun named => named.1.toList = entity with
  | some named => some named.2
  | none =>
    match entity with
    | '#' :: 'x' :: num => number 16 num
    | '#' :: 'X' :: num => number 16 num
    | '#' :: num => number 10 num
    | _ => none

def parsedNumber (radix : Nat) (num : List Char) : Option Char := (fromStrRadix radix (2 ^ 32) num).bind charFromU32

def decodeOne : List Char → Option Char := entityChar parsedNumber

def maxEntityLen : Nat := 24

/-- What lies in front of the next semicolon, when that is in the window. -/
def entityAhead (rest : List Char) : Option (List Char) :=
  let entity := rest.takeWhile (· ≠ ';')
  if ';' ∈ rest ∧ byteSize entity < maxEntityLen then some entity else none

def decodeStep (c : Char) (rest : List Char) : List Char × Nat :=
  if c = '&' then
    match entityAhead rest with
    | none => (['&'], 0)
    | some entity =>
      match decodeOne entity with
      | some decoded => ([decoded], entity.length + 1)
      | none => ('&' :: entity ++ [';'], entity.length + 1)
  else ([c], 0)

def decodeHtmlEntities (s : String) : String :=
  if '&' ∈ s.toList then String.ofList (scan decodeStep s.toList) else s

def plainNumber (radix : Nat) (num : List Char) : Option Char :=
  if num ≠ [] ∧ num.all (isDigitIn radix) then charFromU32 (numeralValue radix num) else none

def knownEntity : List Char → Option Char := entityChar plainNumber

section Reference

variable (most : Nat)

def knownWithin (entity : List Char) : Option Char := if byteSize entity < most then knownEntity entity else none

/-- An ampersand is replaced together with the entity that it starts, or stands for itself. -/
def referenceStep (c : Char) (rest : List Char) : List Char × Nat :=
  let entity := rest.takeWhile (· ≠ ';')
  if c = '&' ∧ ';' ∈ rest then
    match knownWithin most entity with
    | some decoded => ([decoded], entity.length + 1)
    | none => (['&'], 0)
  else ([c], 0)

/-- Decoding from left to right. With a bound above the length of the text every entity is replaced. -/
def referenceDecode (s : String) : String := String.ofList (scan (referenceStep most) s.toList)

end Reference

/-- The ampersand in front of the entity is the first to have the semicolon in its window. -/
def Seen (before entity : List Char) : Prop :=
  byteSize entity < maxEntityLen ∧
    ∀ front gap, before = front ++ '&' :: gap → ';' ∉ gap → maxEntityLen ≤ byteSize gap + 1 + byteSize entity

/-- What can be decoded, within the bound, is in sight of its ampersand and of no other, unless it is a number with a
sign. -/
def Apart (most : Nat) (cs : List Char) : Prop :=
  ∀ before entity after, cs = before ++ '&' :: (entity ++ ';' :: after) → '&' ∉ entity → ';' ∉ entity →
    byteSize entity < most → (decodeOne entity).isSome → (Seen before entity ↔ '+' ∉ entity)

theorem names_plain : ∀ named ∈ entityNames,
    '&' ∉ named.1.toList ∧ '+' ∉ named.1.toList ∧ (named.2 = '&' → 3 ≤ named.1.toList.length) := by decide

theorem entityChar_cases {number : Nat → List Char → Option Char} {entity : List Char} {c : Char}
    (found : entityChar number entity = some c) :
    (∃ named ∈ entityNames, named.1.toList = entity ∧ named.2 = c) ∨
      ∃ intro radix num, entity = '#' :: intro ++ num ∧ (intro, radix) ∈ [([], 10), (['x'], 16), (['X'], 16)] ∧
        number radix num = some c := by
  unfold entityChar at found
  split at found
  · rename_i named listed
    have inside := List.mem_of_find?_eq_some listed
    have name := List.find?_some listed
    exact .inl ⟨named, inside, of_decide_eq_true name, Option.some.inj found⟩
  · right
    split at found
    · exact ⟨['x'], 16, _, rfl, by simp, found⟩
    · exact ⟨['X'], 16, _, rfl, by simp, found⟩
    · exact ⟨[], 10, _, rfl, by simp, found⟩
    · cases found

theorem toNat_ofNat {n : Nat} (valid : n.isValidChar) : (Char.ofNat n).toNat = n := by
  rw [Char.ofNat, dif_pos valid]
  rfl

theorem charFromU32_eq_some {n : Nat} {c : Char} : charFromU32 n = some c ↔ n.isValidChar ∧ c = Char.ofNat n := by
  rw [charFromU32, Option.ite_none_right_eq_some, Option.some.injEq, eq_comm]

theorem plainNumber_eq_some {radix : Nat} {num : List Char} {c : Char} (found : plainNumber radix num = some c) :
    num ≠ [] ∧ num.all (isDigitIn radix) = true ∧ c.toNat = numeralValue radix num := by
  unfold plainNumber at found
  split at found
  · rename_i digits
    obtain ⟨valid, rfl⟩ := charFromU32_eq_some.mp found
    exact ⟨digits.1, digits.2, toNat_ofNat valid⟩
  · cases found

theorem parsedNumber_of_unsigned {radix : Nat} {num : List Char} (unsigned : '+' ∉ num) :
    parsedNumber radix num = plainNumber radix num := by
  unfold parsedNumber fromStrRadix plainNumber
  dsimp only
  rw [withoutSign_of_not_mem unsigned]
  by_cases digits : num ≠ [] ∧ num.all (isDigitIn radix) = true
  · rw [if_pos digits]
    by_cases small : numeralValue radix num < 2 ^ 32
    · rw [if_pos ⟨digits.1, digits.2, small⟩, Option.bind_some]
    · -- No character has a number that large.
      rw [if_neg fun all => small all.2.2, Option.bind_none, charFromU32, if_neg]
      rintro (low | ⟨-, high⟩) <;> omega
  · rw [if_neg digits, if_neg fun all => digits ⟨all.1, all.2.1⟩, Option.bind_none]

theorem decodeOne_of_unsigned {entity : List Char} (unsigned : '+' ∉ entity) :
    decodeOne entity = knownEntity entity := by
  unfold decodeOne knownEntity entityChar
  split
  · rfl
  · split
    · exact parsedNumber_of_unsigned fun inside => unsigned (by simp [inside])
    · exact parsedNumber_of_unsigned fun inside => unsigned (by simp [inside])
    · exact parsedNumber_of_unsigned fun inside => unsigned (by simp [inside])
    · rfl

theorem decodeOne_shape {entity : List Char} {c : Char} (found : decodeOne entity = some c) :
    '&' ∉ entity ∧ ('+' ∈ entity → '+' ∈ entity.take 3) := by
  obtain ⟨named, inside, rfl, -⟩ | ⟨intro_, radix, num, rfl, kind, parsed⟩ := entityChar_cases found
  · obtain ⟨ampersand, plus, -⟩ := names_plain named inside
    exact ⟨ampersand, fun sign => absurd sign plus⟩
  · obtain ⟨n, read, -⟩ := Option.bind_eq_some_iff.mp parsed
    obtain ⟨-, digits, -, -⟩ := fromStrRadix_eq_some.mp read
    have ampersand : '&' ∉ Numerals.withoutSign num := not_mem_digits rfl digits
    have plus : '+' ∉ Numerals.withoutSign num := not_mem_digits rfl digits
    obtain same | signed := Numerals.withoutSign_cases num
    · rw [← same] at ampersand plus
      simp only [List.mem_cons, Prod.mk.injEq, List.not_mem_nil, or_false] at kind
      obtain ⟨rfl, -⟩ | ⟨rfl, -⟩ | ⟨rfl, -⟩ := kind <;> simp [ampersand, plus]
    · rw [signed]
      simp only [List.mem_cons, Prod.mk.injEq, List.not_mem_nil, or_false] at kind
      obtain ⟨rfl, -⟩ | ⟨rfl, -⟩ | ⟨rfl, -⟩ := kind <;> simp [ampersand]

theorem knownEntity_shape {entity : List Char} {c : Char} (found : knownEntity entity = some c) :
    '+' ∉ entity ∧ (c = '&' → 3 ≤ entity.length) := by
  obtain ⟨named, inside, rfl, rfl⟩ | ⟨intro_, radix, num, rfl, kind, plain⟩ := entityChar_cases found
  · exact (names_plain named inside).2
  · obtain ⟨nonempty, digits, value⟩ := plainNumber_eq_some plain
    have plus : '+' ∉ num := not_mem_digits rfl digits
    simp only [List.mem_cons, Prod.mk.injEq, List.not_mem_nil, or_false] at kind
    have positive := List.length_pos_of_ne_nil nonempty
    obtain ⟨rfl, rfl⟩ | ⟨rfl, rfl⟩ | ⟨rfl, rfl⟩ := kind
    · refine ⟨by simp [plus], ?_⟩
      rintro rfl
      -- One decimal digit is not enough for an ampersand.
      have small := Numerals.numeralValue_lt (show 0 < 10 by decide) num
      have wide : num.length ≠ 1 := by
        intro one
        rw [one, ← value] at small
        exact absurd small (by decide)
      simp only [List.nil_append, List.cons_append, List.length_cons]
      omega
    · refine ⟨by simp [plus], fun _ => ?_⟩
      simp
      omega
    · refine ⟨by simp [plus], fun _ => ?_⟩
      simp
      omega

section Segments

variable {most : Nat} {entity rest : List Char}

theorem takeWhile_entity (plain : ';' ∉ entity) : (entity ++ ';' :: rest).takeWhile (· ≠ ';') = entity := by
  refine Numerals.takeWhile_append_of_stop ?_ ?_
  · intro c inside
    exact decide_eq_true fun same => plain (same ▸ inside)
  · rintro c ⟨⟩
    rfl

theorem entityAhead_eq (plain : ';' ∉ entity) :
    entityAhead (entity ++ ';' :: rest) = if byteSize entity < maxEntityLen then some entity else none := by
  unfold entityAhead
  dsimp only
  rw [takeWhile_entity plain]
  simp

theorem drop_entity : (entity ++ ';' :: rest).drop (entity.length + 1) = rest := by
  rw [← List.drop_drop, List.drop_left, List.drop_one, List.tail_cons]

theorem decode_near (plain : ';' ∉ entity) (near : byteSize entity < maxEntityLen) :
    scan decodeStep ('&' :: (entity ++ ';' :: rest)) =
      (decodeOne entity).elim ('&' :: (entity ++ [';'])) (fun c => [c]) ++ scan decodeStep rest := by
  rw [scan_cons, decodeStep, if_pos rfl, entityAhead_eq plain, if_pos near]
  dsimp only
  cases decodeOne entity with
  | none => exact congrArg _ (congrArg _ drop_entity)
  | some c => exact congrArg _ (congrArg _ drop_entity)

theorem decode_far (plain : ';' ∉ entity) (far : maxEntityLen ≤ byteSize entity) :
    scan decodeStep ('&' :: (entity ++ ';' :: rest)) = '&' :: scan decodeStep (entity ++ ';' :: rest) := by
  rw [scan_cons, decodeStep, if_pos rfl, entityAhead_eq plain, if_neg (Nat.not_lt.mpr far)]
  rfl

theorem decodeStep_plain {c : Char} (plain : c ≠ '&') (rest : List Char) : decodeStep c rest = ([c], 0) := if_neg plain

theorem referenceStep_plain {c : Char} (plain : c ≠ '&') (rest : List Char) : referenceStep most c rest = ([c], 0) :=
  if_neg fun both => plain both.1

theorem reference_segment (plain : ';' ∉ entity) :
    scan (referenceStep most) ('&' :: (entity ++ ';' :: rest)) =
      (knownWithin most entity).elim ('&' :: scan (referenceStep most) (entity ++ ';' :: rest)) fun c =>
        c :: scan (referenceStep most) rest := by
  rw [scan_cons, referenceStep, if_pos ⟨rfl, by simp⟩, takeWhile_entity plain]
  cases knownWithin most entity with
  | none => rfl
  | some c => exact congrArg _ (congrArg _ drop_entity)

theorem seen_cons {c : Char} {before : List Char} (other : c ≠ '&') :
    Seen (c :: before) entity ↔ Seen before entity := by
  refine and_congr_right fun _ => ⟨?_, ?_⟩
  · rintro all front gap rfl
    exact all (c :: front) gap rfl
  · intro all front gap joined
    obtain _ | ⟨d, front⟩ := front
    · exact absurd (List.cons.inj joined).1 other
    · exact all front gap (List.cons.inj joined).2

theorem seen_ampersand {before : List Char} (plain : ';' ∉ before) :
    Seen ('&' :: before) entity ↔ Seen before entity ∧ maxEntityLen ≤ byteSize before + 1 + byteSize entity := by
  unfold Seen
  constructor
  · rintro ⟨near, all⟩
    refine ⟨⟨near, ?_⟩, all [] before rfl plain⟩
    rintro front gap rfl
    exact all ('&' :: front) gap rfl
  · rintro ⟨⟨near, all⟩, far⟩
    refine ⟨near, ?_⟩
    intro front gap joined
    obtain _ | ⟨d, front⟩ := front
    · obtain ⟨-, rfl⟩ := List.cons.inj joined
      exact fun _ => far
    · exact all front gap (List.cons.inj joined).2

/-- The text as it stands, from somewhere in front of the ampersand to the semicolon. -/
def copied (before entity : List Char) : List Char := before ++ '&' :: (entity ++ [';'])

theorem append_segment (before : List Char) :
    before ++ '&' :: (entity ++ ';' :: rest) = (before ++ '&' :: entity) ++ ';' :: rest := by
  rw [List.append_assoc, List.cons_append]

theorem segment_plain {before : List Char} (apart : ';' ∉ before) (plain : ';' ∉ entity) :
    ';' ∉ before ++ '&' :: entity := by
  simp [apart, plain]

theorem byteSize_segment (before : List Char) :
    byteSize (before ++ '&' :: entity) = byteSize before + 1 + byteSize entity := by
  rw [CharBoundaries.byteSize_append, CharBoundaries.byteSize_cons, ← Nat.add_assoc]
  rfl

theorem decodeOne_of_ampersand {before : List Char} : decodeOne (before ++ '&' :: entity) = none := by
  rw [Option.eq_none_iff_forall_not_mem]
  intro c found
  exact (decodeOne_shape found).1 (by simp)

theorem decodeOne_of_knownEntity {c : Char} (known : knownEntity entity = some c) : decodeOne entity = some c := by
  rw [decodeOne_of_unsigned (knownEntity_shape known).1, known]

theorem knownWithin_eq_some {c : Char} :
    knownWithin most entity = some c ↔ byteSize entity < most ∧ knownEntity entity = some c :=
  Option.ite_none_right_eq_some

theorem knownWithin_of_ampersand {before : List Char} : knownWithin most (before ++ '&' :: entity) = none := by
  rw [Option.eq_none_iff_forall_not_mem]
  intro c known
  have found := decodeOne_of_knownEntity (knownWithin_eq_some.mp known).2
  rw [decodeOne_of_ampersand] at found
  cases found

theorem scan_entity {step : Char → List Char → List Char × Nat} (copies : ∀ c, c ≠ '&' → ∀ rest, step c rest = ([c], 0))
    (inner : '&' ∉ entity) : scan step (entity ++ ';' :: rest) = entity ++ ';' :: scan step rest := by
  rw [scan_append_of_copies, scan_cons, copies ';' (by decide)]
  · rfl
  · exact fun c inside => copies c fun same => inner (same ▸ inside)

theorem scan_decode {before : List Char} (apart : ';' ∉ before) (inner : '&' ∉ entity) (plain : ';' ∉ entity) :
    ∃ written, scan decodeStep (before ++ '&' :: (entity ++ ';' :: rest)) = written ++ scan decodeStep rest ∧
      (Seen before entity → written = (decodeOne entity).elim (copied before entity) fun c => before ++ [c]) ∧
      (¬ Seen before entity → written = copied before entity) := by
  induction before with
  | nil =>
    have seen : Seen [] entity ↔ byteSize entity < maxEntityLen := by
      refine and_iff_left fun front gap joined => ?_
      simp at joined
    rw [List.nil_append, seen]
    by_cases near : byteSize entity < maxEntityLen
    · exact ⟨_, decode_near plain near, fun _ => rfl, fun far => absurd near far⟩
    · rw [decode_far plain (Nat.not_lt.mp near), scan_entity (fun c other => decodeStep_plain other) inner]
      exact ⟨copied [] entity, by simp [copied], fun seen => absurd seen near, fun _ => rfl⟩
  | cons c before ih =>
    obtain ⟨-, apart_⟩ := List.ne_and_not_mem_of_not_mem_cons apart
    obtain ⟨written, scanned, replaced, kept⟩ := ih apart_
    by_cases ampersand : c = '&'
    · -- The earlier ampersand takes the later one for a part of its entity, when it sees the semicolon.
      subst ampersand
      have closed := segment_plain apart_ plain
      rw [seen_ampersand apart_, List.cons_append, ← byteSize_segment]
      by_cases near : byteSize (before ++ '&' :: entity) < maxEntityLen
      · rw [append_segment, decode_near closed near, decodeOne_of_ampersand, Option.elim_none]
        refine ⟨copied ('&' :: before) entity, ?_, ?_, fun _ => rfl⟩
        · simp [copied]
        · rintro ⟨-, far⟩
          exact absurd near (Nat.not_lt.mpr far)
      · rw [append_segment, decode_far closed (Nat.not_lt.mp near), ← append_segment, scanned]
        refine ⟨'&' :: written, rfl, ?_, ?_⟩
        · rintro ⟨seen, -⟩
          rw [replaced seen]
          cases decodeOne entity <;> rfl
        · intro unseen
          rw [kept fun seen => unseen ⟨seen, Nat.not_lt.mp near⟩]
          rfl
    · rw [List.cons_append, scan_cons, decodeStep_plain ampersand, List.drop_zero, scanned, seen_cons ampersand]
      refine ⟨c :: written, rfl, ?_, ?_⟩
      · intro seen
        rw [replaced seen]
        cases decodeOne entity <;> rfl
      · intro unseen
        rw [kept unseen]
        rfl

theorem scan_reference {before : List Char} (apart : ';' ∉ before) (inner : '&' ∉ entity) (plain : ';' ∉ entity) :
    scan (referenceStep most) (before ++ '&' :: (entity ++ ';' :: rest)) =
      (knownWithin most entity).elim (copied before entity) (fun c => before ++ [c]) ++
        scan (referenceStep most) rest := by
  induction before with
  | nil =>
    rw [List.nil_append, reference_segment plain, scan_entity (fun c other => referenceStep_plain other) inner]
    cases knownWithin most entity <;> simp [copied]
  | cons c before ih =>
    obtain ⟨-, apart_⟩ := List.ne_and_not_mem_of_not_mem_cons apart
    have later := ih apart_
    have cons : (knownWithin most entity).elim (copied (c :: before) entity) (fun d => c :: before ++ [d]) =
        c :: (knownWithin most entity).elim (copied before entity) fun d => before ++ [d] := by
      cases knownWithin most entity <;> rfl
    rw [cons, List.cons_append, List.cons_append, ← later]
    by_cases ampersand : c = '&'
    · subst ampersand
      rw [append_segment, reference_segment (segment_plain apart_ plain), knownWithin_of_ampersand, Option.elim_none]
    · rw [scan_cons, referenceStep_plain ampersand]
      rfl

theorem replaced_ne_copied (before : List Char) (c : Char) : before ++ [c] ≠ copied before entity := by
  intro same
  have length := congrArg List.length same
  simp [copied] at length

/-- What the code and the reference write up to a semicolon, and whether it is the same. -/
def Settled (most : Nat) (before entity rest : List Char) : Prop :=
  ∃ kept written, Edited '&' '+' kept written ∧
    scan (referenceStep most) (before ++ '&' :: (entity ++ ';' :: rest)) = kept ++ scan (referenceStep most) rest ∧
    scan decodeStep (before ++ '&' :: (entity ++ ';' :: rest)) = written ++ scan decodeStep rest ∧
    (kept = written ↔ (byteSize entity < most → (decodeOne entity).isSome → (Seen before entity ↔ '+' ∉ entity)))

theorem settled_known {before : List Char} {c : Char} (apart : ';' ∉ before) (inner : '&' ∉ entity)
    (plain : ';' ∉ entity) (known : knownWithin most entity = some c) : Settled most before entity rest := by
  obtain ⟨written, scanned, replaced, kept⟩ := @scan_decode entity rest before apart inner plain
  have reference := @scan_reference most entity rest before apart inner plain
  obtain ⟨within, known_⟩ := knownWithin_eq_some.mp known
  obtain ⟨unsigned, long⟩ := knownEntity_shape known_
  have found := decodeOne_of_knownEntity known_
  rw [known, Option.elim_some] at reference
  rw [found, Option.elim_some] at replaced
  by_cases seen : Seen before entity
  · refine ⟨_, _, .same (before ++ [c]), reference, by rw [scanned, replaced seen], ?_⟩
    simp [seen, unsigned]
  · refine ⟨_, _, .missed before c (entity ++ [';']) ?_ ?_, reference, by rw [scanned, kept seen, copied], ?_⟩
    · simp [unsigned]
    · intro ampersand
      have enough := long ampersand
      rw [List.length_append, List.length_singleton]
      omega
    · rw [← copied]
      simp [replaced_ne_copied, found, seen, unsigned, within]

theorem settled_unknown {before : List Char} (wide : maxEntityLen ≤ most) (apart : ';' ∉ before) (inner : '&' ∉ entity)
    (plain : ';' ∉ entity) (unknown : knownWithin most entity = none) : Settled most before entity rest := by
  obtain ⟨written, scanned, replaced, kept⟩ := @scan_decode entity rest before apart inner plain
  have reference := @scan_reference most entity rest before apart inner plain
  rw [unknown, Option.elim_none] at reference
  by_cases within : byteSize entity < most
  · cases found : decodeOne entity with
    | none =>
      have copy : written = copied before entity := by
        by_cases seen : Seen before entity
        · rw [replaced seen, found, Option.elim_none]
        · exact kept seen
      exact ⟨_, _, .same (copied before entity), reference, by rw [scanned, copy], by simp [found]⟩
    | some c =>
      -- Only a sign makes a number that the reference does not know.
      have signed : '+' ∈ entity := by
        by_contra unsigned
        rw [decodeOne_of_unsigned unsigned] at found
        rw [knownWithin, if_pos within, found] at unknown
        cases unknown
      rw [found, Option.elim_some] at replaced
      by_cases seen : Seen before entity
      · refine ⟨_, _, .invented before c (entity ++ [';']) ?_, reference, by rw [scanned, replaced seen], ?_⟩
        · exact ((List.prefix_append entity [';']).take 3).subset ((decodeOne_shape found).2 signed)
        · rw [← copied]
          simp [(replaced_ne_copied before c).symm, found, seen, signed, within]
      · refine ⟨_, _, .same (copied before entity), reference, by rw [scanned, kept seen], ?_⟩
        simp [seen, signed]
  · -- What is too long for the reference is too long to be seen.
    have unseen : ¬ Seen before entity := fun seen => within (seen.1.trans_le wide)
    refine ⟨_, _, .same (copied before entity), reference, by rw [scanned, kept unseen], ?_⟩
    simp [within]

/-- Up to the semicolon, the code writes what the reference does or one of them replaces what the other copies. -/
theorem settled {before : List Char} (wide : maxEntityLen ≤ most) (apart : ';' ∉ before) (inner : '&' ∉ entity)
    (plain : ';' ∉ entity) : Settled most before entity rest := by
  cases known : knownWithin most entity with
  | some c => exact settled_known apart inner plain known
  | none => exact settled_unknown wide apart inner plain known

end Segments

theorem decodeStep_open (c : Char) {rest : List Char} (absent : ';' ∉ rest) : decodeStep c rest = ([c], 0) := by
  unfold decodeStep
  split
  · rename_i ampersand
    rw [entityAhead, if_neg fun both => absent both.1, ampersand]
  · rfl

theorem referenceStep_open (most : Nat) (c : Char) {rest : List Char} (absent : ';' ∉ rest) :
    referenceStep most c rest = ([c], 0) :=
  if_neg fun both => absent both.2

theorem scan_open {step : Char → List Char → List Char × Nat}
    (still : ∀ (c : Char) {rest : List Char}, ';' ∉ rest → step c rest = ([c], 0)) {cs : List Char}
    (absent : ';' ∉ cs) :
    scan step cs = cs := by
  induction cs with
  | nil => rfl
  | cons c rest ih =>
    obtain ⟨-, absent_⟩ := List.ne_and_not_mem_of_not_mem_cons absent
    rw [scan_cons, still c absent_, List.drop_zero, ih absent_]
    rfl

theorem seen_after_semicolon {front before entity : List Char} :
    Seen (front ++ ';' :: before) entity ↔ Seen before entity := by
  refine and_congr_right fun _ => ⟨?_, ?_⟩
  · rintro all start gap rfl
    exact all (front ++ ';' :: start) gap (by simp)
  · intro all start gap joined plain
    obtain ⟨middle, -, later⟩ | ⟨middle, -, later⟩ := List.append_eq_append_iff.mp joined
    · obtain _ | ⟨c, middle⟩ := middle
      · cases later
      · obtain ⟨-, whole⟩ := List.cons.inj later
        exact all middle gap whole plain
    · obtain _ | ⟨c, middle⟩ := middle
      · cases later
      · obtain ⟨-, whole⟩ := List.cons.inj later
        exact absurd (by rw [whole]; simp) plain

theorem apart_cut {most : Nat} {front rest : List Char} (plain : ';' ∉ front) :
    Apart most (front ++ ';' :: rest) ↔
      (∀ before entity, front = before ++ '&' :: entity → '&' ∉ entity → byteSize entity < most →
        (decodeOne entity).isSome → (Seen before entity ↔ '+' ∉ entity)) ∧ Apart most rest := by
  constructor
  · intro all
    refine ⟨?_, ?_⟩
    · rintro before entity rfl inner within found
      exact all before entity rest (by simp) inner (fun inside => plain (by simp [inside])) within found
    · rintro before entity after rfl inner closed within found
      rw [← all (front ++ ';' :: before) entity after (by simp) inner closed within found]
      exact seen_after_semicolon.symm
  · rintro ⟨first, later⟩ before entity after joined inner closed within found
    obtain ⟨middle, rfl, whole⟩ | ⟨middle, rfl, whole⟩ := List.append_eq_append_iff.mp joined
    · obtain _ | ⟨c, middle⟩ := middle
      · cases whole
      · obtain ⟨rfl, tail⟩ := List.cons.inj whole
        rw [seen_after_semicolon]
        exact later middle entity after tail inner closed within found
    · obtain _ | ⟨c, middle⟩ := middle
      · cases whole
      · obtain ⟨rfl, tail⟩ := List.cons.inj whole
        have clear : ';' ∉ middle := fun inside => plain (by simp [inside])
        obtain ⟨rfl, -⟩ := Fields.first_cut_unique closed clear tail
        exact first before entity rfl inner within found

theorem exists_pieces {most : Nat} (wide : maxEntityLen ≤ most) (cs : List Char) :
    ∃ pieces : List (List Char × List Char), (∀ p ∈ pieces, Edited '&' '+' p.1 p.2) ∧
      scan (referenceStep most) cs = pieces.flatMap Prod.fst ∧
      scan decodeStep cs = pieces.flatMap Prod.snd ∧ ((∀ p ∈ pieces, p.1 = p.2) ↔ Apart most cs) := by
  induction size : cs.length using Nat.strong_induction_on generalizing cs with
  | _ n ih =>
    by_cases semicolon : ';' ∈ cs
    · obtain ⟨front, rest, rfl, plain⟩ := List.eq_append_cons_of_mem semicolon
      obtain ⟨pieces, edited, reference, code, same⟩ := ih rest.length (by rw [← size]; simp; omega) rest rfl
      rw [apart_cut plain]
      by_cases ampersand : '&' ∈ front
      · obtain ⟨before, entity, rfl, inner⟩ := Fields.exists_last_cut ampersand
        obtain ⟨kept, written, edit, first, second, equal⟩ := @settled most entity rest before wide
          (fun inside => plain (by simp [inside])) inner (fun inside => plain (by simp [inside]))
        refine ⟨(kept, written) :: pieces, ?_, ?_, ?_, ?_⟩
        · exact List.forall_mem_cons.mpr ⟨edit, edited⟩
        · rw [List.flatMap_cons, ← reference, ← first, List.append_assoc, List.cons_append]
        · rw [List.flatMap_cons, ← code, ← second, List.append_assoc, List.cons_append]
        · rw [List.forall_mem_cons, same, equal]
          refine and_congr_left fun _ => ⟨?_, fun all => all before entity rfl inner⟩
          intro only before' entity' joined inner'
          obtain ⟨rfl, rfl⟩ := Fields.last_cut_unique inner inner' joined
          exact only
      · refine ⟨(front ++ [';'], front ++ [';']) :: pieces, ?_, ?_, ?_, ?_⟩
        · exact List.forall_mem_cons.mpr ⟨.same _, edited⟩
        · rw [List.flatMap_cons, ← reference, scan_entity (fun c other => referenceStep_plain other) ampersand]
          simp
        · rw [List.flatMap_cons, ← code, scan_entity (fun c other => decodeStep_plain other) ampersand]
          simp
        · rw [List.forall_mem_cons, same]
          refine and_congr_left fun _ => ⟨?_, fun _ => rfl⟩
          rintro - before entity rfl
          exact absurd (by simp) ampersand
    · refine ⟨[(cs, cs)], ?_, ?_, ?_, ?_⟩
      · exact List.forall_mem_singleton.mpr (.same _)
      · rw [scan_open (referenceStep_open most) semicolon, List.flatMap_singleton]
      · rw [scan_open decodeStep_open semicolon, List.flatMap_singleton]
      · refine iff_of_true (List.forall_mem_singleton.mpr rfl) ?_
        rintro before entity after rfl
        exact absurd (by simp) semicolon

theorem decode_html_iff {most : Nat} (wide : maxEntityLen ≤ most) (s : String) :
    decodeHtmlEntities s = referenceDecode most s ↔ Apart most s.toList := by
  obtain ⟨pieces, edited, reference, code, same⟩ := exists_pieces wide s.toList
  have scanned : decodeHtmlEntities s = String.ofList (scan decodeStep s.toList) := by
    unfold decodeHtmlEntities
    split
    · rfl
    · rename_i absent
      have copies := scan_append_of_copies [] fun c inside => decodeStep_plain fun same => absent (same ▸ inside)
      rw [List.append_nil] at copies
      rw [copies]
      simp
  rw [scanned, referenceDecode, String.ofList_inj, reference, code, ← same]
  constructor
  · intro equal
    exact Scanner.pieces_same (by decide) edited equal.symm
  · intro equal
    rw [List.flatMap_congr equal]

end Soshal.Content.Entities
