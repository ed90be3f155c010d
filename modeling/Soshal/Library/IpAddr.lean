import Soshal.Library.Numerals

/-! Internet addresses as text: how an address is written as the host of a URL, and how the standard library reads it.

An IPv4 address is four decimal numbers. An IPv6 address is eight hexadecimal
groups, of which the first longest run of two or more zeros is left out; the reader
also takes an IPv4 address in place of the last two groups.
-/

set_option autoImplicit false

namespace Soshal.Library

open Numerals

structure Ipv4Addr where
  a : UInt8
  b : UInt8
  c : UInt8
  d : UInt8
  deriving DecidableEq

structure Ipv6Addr where
  segments : List UInt16
  eight : segments.length = 8
  deriving DecidableEq

inductive IpAddr where
  | v4 (addr : Ipv4Addr)
  | v6 (addr : Ipv6Addr)
  deriving DecidableEq

def Ipv4Addr.text (addr : Ipv4Addr) : List Char :=
  numeral 10 addr.a.toNat ++ '.' :: (numeral 10 addr.b.toNat ++ '.' :: (numeral 10 addr.c.toNat ++
    '.' :: numeral 10 addr.d.toNat))

def laterGroups (groups : List UInt16) : List Char := groups.flatMap fun group => ':' :: numeral 16 group.toNat

def groupsText : List UInt16 → List Char
  | [] => []
  | group :: rest => numeral 16 group.toNat ++ laterGroups rest

def zerosAt (segments : List UInt16) (start : Nat) : Nat := ((segments.drop start).takeWhile (· == 0)).length

/-- Where the first longest run of zeros starts and how long it is; a single zero is no run. -/
def longestZeroSequence (segments : List UInt16) : Nat × Nat :=
  (List.range 8).foldl (fun best start =>
    if zerosAt segments start > max best.2 1 then (start, zerosAt segments start) else best) (0, 0)

def Ipv6Addr.text (addr : Ipv6Addr) : List Char :=
  let (start, length) := longestZeroSequence addr.segments
  if length = 0 then groupsText addr.segments
  else groupsText (addr.segments.take start) ++ ':' :: ':' :: groupsText (addr.segments.drop (start + length))

/-- What stands behind a separator, which the first of several parts does not have. -/
def readSeparator {α : Type} (separator : Char) (first : Bool) (inner : List Char → Option α) (cs : List Char) : Option α :=
  if first then inner cs
  else
    match cs with
    | c :: rest => if c = separator then inner rest else none
    | [] => none

def readOctet : List Char → Option (Nat × List Char) := readNumber 10 3 false 255

def readIpv4Addr (cs : List Char) : Option (Ipv4Addr × List Char) := do
  let (a, cs) ← readSeparator '.' true readOctet cs
  let (b, cs) ← readSeparator '.' false readOctet cs
  let (c, cs) ← readSeparator '.' false readOctet cs
  let (d, cs) ← readSeparator '.' false readOctet cs
  some (⟨.ofNat a, .ofNat b, .ofNat c, .ofNat d⟩, cs)

/-- At most so many groups, whether an IPv4 address ended them, and what follows. -/
def readGroups : Nat → Bool → List Char → List UInt16 × Bool × List Char
  | 0, _, cs => ([], false, cs)
  | left + 1, first, cs =>
    match if left = 0 then none else readSeparator ':' first readIpv4Addr cs with
    | some (v4, rest) =>
      ([.ofNat (v4.a.toNat * 256 + v4.b.toNat), .ofNat (v4.c.toNat * 256 + v4.d.toNat)], true, rest)
    | none =>
      match readSeparator ':' first (readNumber 16 4 true 65535) cs with
      | some (group, rest) =>
        let (groups, v4, rest) := readGroups left false rest
        (.ofNat group :: groups, v4, rest)
      | none => ([], false, cs)

def Ipv6Addr.ofSegments (segments : List UInt16) : Option Ipv6Addr :=
  if eight : segments.length = 8 then some ⟨segments, eight⟩ else none

def readIpv6Addr (cs : List Char) : Option (Ipv6Addr × List Char) :=
  let (head, v4, rest) := readGroups 8 true cs
  if head.length = 8 then (Ipv6Addr.ofSegments head).map (·, rest)
  else if v4 then none
  else
    match rest with
    | ':' :: ':' :: rest =>
      let (tail, _, rest) := readGroups (8 - (head.length + 1)) true rest
      (Ipv6Addr.ofSegments (head ++ List.replicate (8 - tail.length - head.length) 0 ++ tail)).map (·, rest)
    | _ => none

/-- A whole text, with nothing left over. -/
def parseWith {α : Type} (read : List Char → Option (α × List Char)) (cs : List Char) : Option α :=
  match read cs with
  | some (value, []) => some value
  | _ => none

def readIpAddr (cs : List Char) : Option (IpAddr × List Char) :=
  match readIpv4Addr cs with
  | some (v4, rest) => some (.v4 v4, rest)
  | none => (readIpv6Addr cs).map fun (v6, rest) => (.v6 v6, rest)

theorem isDigitIn_dot (radix : Nat) : isDigitIn radix '.' = false := by
  simp [isDigitIn, toDigit, Char.isDigit]

theorem isDigitIn_colon (radix : Nat) : isDigitIn radix ':' = false := by
  simp [isDigitIn, toDigit, Char.isDigit]

theorem readOctet_numeral (octet : UInt8) {rest : List Char} (stop : ∀ c, rest.head? = some c → c = '.') :
    readOctet (numeral 10 octet.toNat ++ rest) = some (octet.toNat, rest) := by
  have small := octet.toNat_lt
  refine readNumber_numeral (by omega) (by omega) (by omega) (by omega) (by omega) ?_
  intro c next
  rw [stop c next]
  exact isDigitIn_dot 10

theorem readIpv4Addr_text (addr : Ipv4Addr) : readIpv4Addr addr.text = some (addr, []) := by
  have dot : ∀ (rest : List Char) (c : Char), ('.' :: rest).head? = some c → c = '.' :=
    fun _ _ next => (Option.some.inj next).symm
  have last : readOctet (numeral 10 addr.d.toNat) = some (addr.d.toNat, []) := by
    have read : readOctet (numeral 10 addr.d.toNat ++ []) = some (addr.d.toNat, []) :=
      readOctet_numeral addr.d fun _ next => nomatch next
    rwa [List.append_nil] at read
  unfold readIpv4Addr Ipv4Addr.text
  simp only [readSeparator, if_true, Bool.false_eq_true, if_false, readOctet_numeral _ (dot _), last,
    Option.bind_eq_bind, Option.bind_some, UInt8.ofNat_toNat]

theorem dot_not_mem_numeral (n : Nat) : '.' ∉ numeral 16 n := by
  obtain ⟨ds, same, digits, -⟩ := digits_numeral (by decide : 1 < 16) n
  rw [same]
  intro member
  obtain ⟨d, inside, dot⟩ := List.mem_map.mp member
  have small := digits d inside
  interval_cases d <;> exact absurd dot (by decide)

theorem dot_not_mem_laterGroups (groups : List UInt16) : '.' ∉ laterGroups groups := by
  intro member
  obtain ⟨group, -, inside⟩ := List.mem_flatMap.mp member
  cases List.mem_cons.mp inside with
  | inl colon => exact absurd colon (by decide)
  | inr digit => exact dot_not_mem_numeral _ digit

theorem dot_not_mem_groupsText (groups : List UInt16) : '.' ∉ groupsText groups := by
  cases groups with
  | nil => exact List.not_mem_nil
  | cons group rest =>
    intro member
    cases List.mem_append.mp member with
    | inl first => exact dot_not_mem_numeral _ first
    | inr later => exact dot_not_mem_laterGroups _ later

theorem readIpv4Addr_eq_none {cs : List Char} (dotless : '.' ∉ cs) : readIpv4Addr cs = none := by
  unfold readIpv4Addr
  simp only [readSeparator, if_true, Option.bind_eq_bind]
  cases read : readOctet cs with
  | none => rfl
  | some found =>
    obtain ⟨a, rest⟩ := found
    have shorter : ∀ c ∈ rest, c ∈ cs := by
      unfold readOctet readNumber at read
      dsimp only at read
      split at read
      · cases read
      · split at read
        · cases read
        · cases read
          exact fun c => List.mem_of_mem_drop
    simp only [Option.bind_some, Bool.false_eq_true, if_false]
    cases rest with
    | nil => rfl
    | cons c rest =>
      have other : c ≠ '.' := by
        rintro rfl
        exact dotless (shorter '.' List.mem_cons_self)
      simp [other]

/-- Where a list of groups may end: at the end of the text, or before two colons. -/
def GroupsEnd (rest : List Char) : Prop := rest = [] ∨ ∃ more, rest = ':' :: ':' :: more

theorem readHex_numeral (group : UInt16) {rest : List Char} (stop : ∀ c, rest.head? = some c → c = ':') :
    readNumber 16 4 true 65535 (numeral 16 group.toNat ++ rest) = some (group.toNat, rest) := by
  have small := group.toNat_lt
  refine readNumber_numeral (by omega) (by omega) (by omega) (by omega) (by omega) ?_
  intro c next
  rw [stop c next]
  exact isDigitIn_colon 16

theorem readHex_end {rest : List Char} (stop : ∀ c, rest.head? = some c → c = ':') :
    readNumber 16 4 true 65535 rest = none := by
  unfold readNumber
  cases rest with
  | nil => rfl
  | cons c rest =>
    rw [stop c rfl]
    simp [isDigitIn_colon]

theorem GroupsEnd.colon {rest : List Char} (ends : GroupsEnd rest) : ∀ c, rest.head? = some c → c = ':' := by
  intro c next
  obtain rfl | ⟨more, rfl⟩ := ends
  · cases next
  · exact (Option.some.inj next).symm

theorem laterGroups_colon (groups : List UInt16) {rest : List Char} (ends : GroupsEnd rest) :
    ∀ c, (laterGroups groups ++ rest).head? = some c → c = ':' := by
  cases groups with
  | nil => exact ends.colon
  | cons group later => exact fun c next => (Option.some.inj next).symm

theorem readGroups_end (left : Nat) (first : Bool) {rest : List Char} (ends : GroupsEnd rest) (dotless : '.' ∉ rest) :
    readGroups left first rest = ([], false, rest) := by
  cases left with
  | zero => rfl
  | succ left =>
    have noV4 : readSeparator ':' first readIpv4Addr rest = none := by
      unfold readSeparator
      split
      · exact readIpv4Addr_eq_none dotless
      · obtain rfl | ⟨more, rfl⟩ := ends
        · rfl
        · exact readIpv4Addr_eq_none fun member => dotless (List.mem_cons_of_mem _ member)
    have noGroup : readSeparator ':' first (readNumber 16 4 true 65535) rest = none := by
      unfold readSeparator
      split
      · exact readHex_end ends.colon
      · obtain rfl | ⟨more, rfl⟩ := ends
        · rfl
        · have colon : ∀ c, (':' :: more).head? = some c → c = ':' := fun c next => (Option.some.inj next).symm
          exact readHex_end colon
    unfold readGroups
    simp only [noV4, noGroup, ite_self]

theorem readGroups_laterGroups {left : Nat} {groups : List UInt16} {rest : List Char} (fits : groups.length ≤ left)
    (ends : GroupsEnd rest) (dotless : '.' ∉ rest) :
    readGroups left false (laterGroups groups ++ rest) = (groups, false, rest) := by
  induction groups generalizing left with
  | nil => exact readGroups_end left false ends dotless
  | cons group later ih =>
    cases left with
    | zero => simp at fits
    | succ left =>
      have text : laterGroups (group :: later) ++ rest =
          ':' :: (numeral 16 group.toNat ++ (laterGroups later ++ rest)) := by simp [laterGroups]
      have plain : '.' ∉ numeral 16 group.toNat ++ (laterGroups later ++ rest) := by
        simp only [List.mem_append, not_or]
        exact ⟨dot_not_mem_numeral _, dot_not_mem_laterGroups _, dotless⟩
      have noV4 : readSeparator ':' false readIpv4Addr (laterGroups (group :: later) ++ rest) = none := by
        rw [text]
        exact readIpv4Addr_eq_none plain
      have read : readSeparator ':' false (readNumber 16 4 true 65535) (laterGroups (group :: later) ++ rest) =
          some (group.toNat, laterGroups later ++ rest) := by
        rw [text]
        exact readHex_numeral group (laterGroups_colon later ends)
      unfold readGroups
      simp only [noV4, read, ite_self, ih (Nat.le_of_succ_le_succ fits), UInt16.ofNat_toNat]

theorem readGroups_groupsText {left : Nat} {groups : List UInt16} {rest : List Char} (fits : groups.length ≤ left)
    (ends : GroupsEnd rest) (dotless : '.' ∉ rest) :
    readGroups left true (groupsText groups ++ rest) = (groups, false, rest) := by
  cases groups with
  | nil => exact readGroups_end left true ends dotless
  | cons group later =>
    cases left with
    | zero => simp at fits
    | succ left =>
      have plain : '.' ∉ groupsText (group :: later) ++ rest := by
        rw [List.mem_append, not_or]
        exact ⟨dot_not_mem_groupsText _, dotless⟩
      have noV4 : readSeparator ':' true readIpv4Addr (groupsText (group :: later) ++ rest) = none :=
        readIpv4Addr_eq_none plain
      have read : readSeparator ':' true (readNumber 16 4 true 65535) (groupsText (group :: later) ++ rest) =
          some (group.toNat, laterGroups later ++ rest) := by
        rw [groupsText, List.append_assoc]
        exact readHex_numeral group (laterGroups_colon later ends)
      unfold readGroups
      simp only [noV4, read, ite_self, readGroups_laterGroups (Nat.le_of_succ_le_succ fits) ends dotless,
        UInt16.ofNat_toNat]

theorem longestZeroSequence_spec (segments : List UInt16) :
    (longestZeroSequence segments).2 = 0 ∨
      0 < (longestZeroSequence segments).2 ∧
        zerosAt segments (longestZeroSequence segments).1 = (longestZeroSequence segments).2 := by
  unfold longestZeroSequence
  generalize List.range 8 = starts
  have kept : ∀ best : Nat × Nat, (best.2 = 0 ∨ 0 < best.2 ∧ zerosAt segments best.1 = best.2) →
      let last := starts.foldl (fun best start =>
        if zerosAt segments start > max best.2 1 then (start, zerosAt segments start) else best) best
      last.2 = 0 ∨ 0 < last.2 ∧ zerosAt segments last.1 = last.2 := by
    induction starts with
    | nil => exact fun _ holds => holds
    | cons start rest ih =>
      intro best holds
      simp only [List.foldl_cons]
      apply ih
      split
      · rename_i longer
        exact .inr ⟨by omega, rfl⟩
      · exact holds
  exact kept (0, 0) (.inl rfl)

theorem drop_zerosAt (segments : List UInt16) (start : Nat) :
    segments.drop start = List.replicate (zerosAt segments start) 0 ++ segments.drop (start + zerosAt segments start) := by
  have zeros : (segments.drop start).takeWhile (· == 0) = List.replicate (zerosAt segments start) 0 := by
    refine List.eq_replicate_iff.mpr ⟨rfl, fun group member => ?_⟩
    simpa using List.mem_takeWhile_imp member
  have rest : (segments.drop start).dropWhile (· == 0) = segments.drop (start + zerosAt segments start) := by
    rw [← List.drop_drop, zerosAt]
    have split : (((segments.drop start).takeWhile (· == 0)) ++ (segments.drop start).dropWhile (· == 0)).drop
        ((segments.drop start).takeWhile (· == 0)).length = (segments.drop start).dropWhile (· == 0) := List.drop_left
    rw [List.takeWhile_append_dropWhile] at split
    exact split.symm
  rw [← zeros, ← rest, List.takeWhile_append_dropWhile]

theorem ofSegments_segments (addr : Ipv6Addr) : Ipv6Addr.ofSegments addr.segments = some addr := by
  rw [Ipv6Addr.ofSegments, dif_pos addr.eight]

theorem readIpv6Addr_text (addr : Ipv6Addr) : readIpv6Addr addr.text = some (addr, []) := by
  have eight := addr.eight
  unfold Ipv6Addr.text
  dsimp only
  split
  · have read := readGroups_groupsText (Nat.le_of_eq eight) (.inl rfl) List.not_mem_nil
    rw [List.append_nil] at read
    unfold readIpv6Addr
    rw [read]
    dsimp only
    rw [if_pos eight, ofSegments_segments]
    rfl
  · rename_i compressed
    obtain none | ⟨positive, zeros⟩ := longestZeroSequence_spec addr.segments
    · exact absurd none compressed
    generalize longestZeroSequence addr.segments = found at *
    obtain ⟨start, length⟩ := found
    dsimp only at *
    have parts := drop_zerosAt addr.segments start
    rw [zeros] at parts
    have count := congrArg List.length parts
    simp only [List.length_drop, List.length_append, List.length_replicate] at count
    have short : (addr.segments.take start).length = start := by
      rw [List.length_take]
      omega
    have left : (addr.segments.drop (start + length)).length = 8 - (start + length) := by
      rw [List.length_drop, eight]
    have dotless : '.' ∉ ':' :: ':' :: groupsText (addr.segments.drop (start + length)) := by
      simp [dot_not_mem_groupsText]
    have fitsHead : (addr.segments.take start).length ≤ 8 := by omega
    have fitsTail : (addr.segments.drop (start + length)).length ≤ 8 - (start + 1) := by omega
    have head := readGroups_groupsText fitsHead (.inr ⟨groupsText (addr.segments.drop (start + length)), rfl⟩) dotless
    have tail := readGroups_groupsText fitsTail (.inl rfl) List.not_mem_nil
    rw [List.append_nil] at tail
    have whole : addr.segments.take start ++ List.replicate (8 - (8 - (start + length)) - start) 0 ++
        addr.segments.drop (start + length) = addr.segments := by
      have gap : 8 - (8 - (start + length)) - start = length := by omega
      rw [gap, List.append_assoc, ← parts, List.take_append_drop]
    unfold readIpv6Addr
    rw [head]
    dsimp only
    rw [short, if_neg (by omega), if_neg Bool.false_ne_true]
    simp only [tail, left, whole, ofSegments_segments, Option.map_some]

end Soshal.Library
