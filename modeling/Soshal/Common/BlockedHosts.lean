import Soshal.Common.UrlPolicy

/-! The hosts that neither validator may let through, and the spellings of them that get through.

An address is blocked by the ranges it lies in, whatever form an IPv6 address
carries an IPv4 address in; a domain is blocked by its name and by the names above
it, without regard to case or to the dot of the root. The patterns look at the end
of the host as it is written, so they miss a name that ends in the root's dot.
-/

set_option autoImplicit false

namespace Soshal.Common

open Library
open Library.Numerals (readNumber)
open Library.Text (byteLen trimList)

def Ipv4Addr.value (addr : Ipv4Addr) : Nat :=
  ((addr.a.toNat * 256 + addr.b.toNat) * 256 + addr.c.toNat) * 256 + addr.d.toNat

/-- The addresses that agree with `base` in the first `width` bits. -/
structure Range where
  base : Ipv4Addr
  width : Nat

def Range.Contains (range : Range) (addr : Ipv4Addr) : Prop :=
  Ipv4Addr.value addr / 2 ^ (32 - range.width) = Ipv4Addr.value range.base / 2 ^ (32 - range.width)

/-- This network, private networks, loopback, link-local, carrier-grade NAT, benchmarking, multicast and reserved. -/
def blockedRanges : List Range :=
  [⟨⟨0, 0, 0, 0⟩, 8⟩, ⟨⟨10, 0, 0, 0⟩, 8⟩, ⟨⟨127, 0, 0, 0⟩, 8⟩, ⟨⟨169, 254, 0, 0⟩, 16⟩, ⟨⟨172, 16, 0, 0⟩, 12⟩,
    ⟨⟨192, 168, 0, 0⟩, 16⟩, ⟨⟨100, 64, 0, 0⟩, 10⟩, ⟨⟨198, 18, 0, 0⟩, 15⟩, ⟨⟨240, 0, 0, 0⟩, 4⟩, ⟨⟨224, 0, 0, 0⟩, 4⟩]

def BlockedV4 (addr : Ipv4Addr) : Prop := ∃ range ∈ blockedRanges, range.Contains addr

/-- The IPv6 addresses that carry an IPv4 address. -/
inductive Embeds : List UInt16 → Ipv4Addr → Prop where
  | mapped (high low : UInt16) : Embeds [0, 0, 0, 0, 0, 0xffff, high, low] (v4Of high low)
  | compatible (high low : UInt16) : Embeds [0, 0, 0, 0, 0, 0, high, low] (v4Of high low)
  | translated (high low : UInt16) : Embeds [0, 0, 0, 0, 0xffff, 0, high, low] (v4Of high low)
  | nat64 (high low : UInt16) : Embeds [0x64, 0xff9b, 0, 0, 0, 0, high, low] (v4Of high low)
  | nat64Local (high low : UInt16) : Embeds [0x64, 0xff9b, 1, 0, 0, 0, high, low] (v4Of high low)
  | sixToFour (high low s3 s4 s5 s6 s7 : UInt16) : Embeds [0x2002, high, low, s3, s4, s5, s6, s7] (v4Of high low)
  | isatap (s0 s1 s2 s3 universal high low : UInt16) (bit : universal = 0 ∨ universal = 0x200) :
      Embeds [s0, s1, s2, s3, universal, 0x5efe, high, low] (v4Of high low)

/-- The groups of addresses that are blocked whatever they carry. -/
inductive BlockedGroup : List UInt16 → Prop where
  | unspecified : BlockedGroup [0, 0, 0, 0, 0, 0, 0, 0]
  | loopback : BlockedGroup [0, 0, 0, 0, 0, 0, 0, 1]
  | multicast (s0 : UInt16) (rest : List UInt16) (eight : s0.toNat / 256 = 0xff) : BlockedGroup (s0 :: rest)
  | linkLocal (s0 : UInt16) (rest : List UInt16) (ten : s0.toNat / 64 = 0xfe80 / 64) : BlockedGroup (s0 :: rest)
  | uniqueLocal (s0 : UInt16) (rest : List UInt16) (seven : s0.toNat / 512 = 0xfc00 / 512) : BlockedGroup (s0 :: rest)
  | teredo (rest : List UInt16) : BlockedGroup (0x2001 :: 0 :: rest)

def BlockedV6 (addr : Ipv6Addr) : Prop :=
  BlockedGroup addr.segments ∨ ∃ v4, Embeds addr.segments v4 ∧ BlockedV4 v4

/-- Domains under which a name resolves to the address it spells. -/
def rebindingDomains : List String :=
  ["nip.io", "xip.io", "sslip.io", "localtest.me", "loca.lt", "customer.your-server.de", "dns.to", "traefik.me"]

def rootless (text : List Char) : List Char := if text.getLast? = some '.' then text.dropLast else text

def Within (domain : String) (text : List Char) : Prop := text = domain.toList ∨ '.' :: domain.toList <:+ text

def BlockedDomain (text : List Char) : Prop :=
  ∃ domain ∈ "localhost" :: rebindingDomains, Within domain (rootless (text.map Char.toLower))

def Blocked : Host → Prop
  | .domain text _ => BlockedDomain text
  | .ipv4 addr => BlockedV4 addr
  | .ipv6 addr => BlockedV6 addr

/-- The rebinding domains of which only the names below are listed. -/
def unlistedDomains : List String := ["customer.your-server.de", "dns.to", "traefik.me"]

/-- A rebinding domain spelled with the dot of the root, one that is not listed itself, or a blocked address carried
in the interface identifier of another one. -/
def Slips : Host → Prop
  | .domain text _ =>
    (text.getLast? = some '.' ∧ ∃ domain ∈ rebindingDomains, Within domain (text.map Char.toLower).dropLast) ∨
      ∃ domain ∈ unlistedDomains, text.map Char.toLower = domain.toList
  | .ipv4 _ => False
  | .ipv6 addr => ∃ s0 s1 s2 s3 universal high low, (universal = 0 ∨ universal = 0x200) ∧
      addr.segments = [s0, s1, s2, s3, universal, 0x5efe, high, low] ∧ BlockedV4 (v4Of high low)

/-- A media URL is refused whatever the patterns on rebinding domains say. -/
def MediaRefusedOtherwise (url : String) (parsed : Url) (hostname : List Char) : Prop :=
  byteLen url > maxUrlLength ∨ url.isEmpty ∨ (parsed.scheme ≠ "http" ∧ parsed.scheme ≠ "https") ∨ hasCredentials parsed ∨
    isPrivateIpStr hostname ∨ isPrivateIpv6Str hostname ∨ setMatches addressPatterns hostname ∨ reDigits5.isMatch hostname ∨
    reDigitsOnly.isMatch hostname ∨ reHexHost.isMatch hostname

def RelayRefusedOtherwise (url : String) (parsed : Url) (hostname : List Char) : Prop :=
  url.isEmpty ∨ byteLen url > maxUrlLength ∨ (parsed.scheme ≠ "ws" ∧ parsed.scheme ≠ "wss") ∨ hasCredentials parsed ∨
    hostname.isEmpty ∨ hostname.contains '.' = false ∨ reIpv4Host.isMatch hostname ∨ hostname.contains ':' ∨
    reHexHost.isMatch hostname ∨ reDigitsOnly.isMatch hostname ∨ setMatches addressPatterns hostname

theorem value_div {addr : Ipv4Addr} {width : Nat} (few : width ≤ 16) :
    Ipv4Addr.value addr / 2 ^ (32 - width) = (addr.a.toNat * 256 + addr.b.toNat) / 2 ^ (16 - width) := by
  have c := addr.c.toNat_lt
  have d := addr.d.toNat_lt
  have split : 2 ^ (32 - width) = 2 ^ 16 * 2 ^ (16 - width) := by
    rw [← pow_add]
    congr 1
    omega
  have high : Ipv4Addr.value addr / 2 ^ 16 = addr.a.toNat * 256 + addr.b.toNat := by
    unfold Ipv4Addr.value
    omega
  rw [split, ← Nat.div_div_eq_div_mul, high]

theorem isPrivateIpv4_iff (addr : Ipv4Addr) : isPrivateIpv4 addr = true ↔ BlockedV4 addr := by
  have a := addr.a.toNat_lt
  have b := addr.b.toNat_lt
  simp (disch := decide) only [BlockedV4, blockedRanges, List.mem_cons, List.not_mem_nil, or_false, exists_eq_or_imp,
    exists_eq_left, Range.Contains, value_div, isPrivateIpv4, Ipv4Addr.isMulticast, Bool.or_eq_true, Bool.and_eq_true,
    beq_iff_eq, decide_eq_true_eq, ← UInt8.toNat_inj, UInt8.le_iff_toNat_le, ge_iff_le, UInt8.reduceToNat, or_assoc]
  generalize addr.a.toNat = x at *
  generalize addr.b.toNat = y at *
  -- the checks stand in the order of the ranges
  refine or_congr ?_ (or_congr ?_ (or_congr ?_ (or_congr ?_ (or_congr ?_ (or_congr ?_ (or_congr ?_ (or_congr ?_
    (or_congr ?_ ?_))))))))
  all_goals
    norm_num
    omega

theorem and_high_mask {n k j : Nat} : n &&& ((2 ^ j - 1) <<< k) = (n / 2 ^ k % 2 ^ j) <<< k := by
  apply Nat.eq_of_testBit_eq
  intro i
  rw [Nat.testBit_and, Nat.testBit_shiftLeft, Nat.testBit_shiftLeft, ← Nat.and_two_pow_sub_one_eq_mod, Nat.testBit_and,
    ← Nat.shiftRight_eq_div_pow, Nat.testBit_shiftRight]
  by_cases high : k ≤ i
  · rw [Nat.add_sub_cancel' high]
    simp [high]
  · simp [high]

theorem segment_masked {s0 mask base : UInt16} {k j : Nat} (bits : mask.toNat = (2 ^ j - 1) <<< k) (width : k + j = 16)
    (aligned : (base.toNat / 2 ^ k) <<< k = base.toNat) (same : s0.toNat / 2 ^ k = base.toNat / 2 ^ k) :
    s0 &&& mask = base := by
  have small : s0.toNat / 2 ^ k < 2 ^ j := by
    rw [Nat.div_lt_iff_lt_mul (Nat.two_pow_pos k), ← pow_add, Nat.add_comm j k, width]
    exact s0.toNat_lt
  rw [← UInt16.toNat_inj, UInt16.toNat_and, bits, and_high_mask, Nat.mod_eq_of_lt small, same, aligned]

section Segments

variable {s0 s1 s2 s3 s4 s5 s6 s7 : UInt16} {eight : [s0, s1, s2, s3, s4, s5, s6, s7].length = 8}

theorem toIpv4Mapped_eq_none (other : s0 ≠ 0 ∨ s5 ≠ 0xffff) :
    toIpv4Mapped ⟨[s0, s1, s2, s3, s4, s5, s6, s7], eight⟩ = none := by
  unfold toIpv4Mapped
  split
  · rename_i same
    simp only [List.cons.injEq] at same
    obtain ⟨rfl, -, -, -, -, rfl, -⟩ := same
    simp at other
  · rfl

theorem isPrivateIp_of_first (other : s0 ≠ 0)
    (blocked : s0 &&& 0xff00 = 0xff00 ∨ s0 &&& 0xffc0 = 0xfe80 ∨ s0 &&& 0xfe00 = 0xfc00 ∨ s0 = 0x2001 ∧ s1 = 0) :
    isPrivateIp (.v6 ⟨[s0, s1, s2, s3, s4, s5, s6, s7], eight⟩) = true := by
  have unmapped : toIpv4Mapped ⟨[s0, s1, s2, s3, s4, s5, s6, s7], eight⟩ = none := toIpv4Mapped_eq_none (.inl other)
  simp only [isPrivateIp, unmapped, isPrivateIpv6]
  obtain multicast | linkLocal | uniqueLocal | ⟨rfl, rfl⟩ := blocked
  · simp [multicast]
  · simp [linkLocal]
  · simp [uniqueLocal]
  · simp

end Segments

theorem isPrivateIp_of_group {addr : Ipv6Addr} (group : BlockedGroup addr.segments) :
    isPrivateIp (.v6 addr) = true := by
  obtain ⟨segments, eight⟩ := addr
  match segments, eight with
  | [s0, s1, s2, s3, s4, s5, s6, s7], eight =>
    cases group with
    | unspecified => rfl
    | loopback => rfl
    | multicast _ _ first =>
      refine isPrivateIp_of_first ?_ (.inl (segment_masked (k := 8) (j := 8) rfl rfl rfl first))
      rintro rfl
      exact absurd first (by decide)
    | linkLocal _ _ first =>
      refine isPrivateIp_of_first ?_ (.inr (.inl (segment_masked (k := 6) (j := 10) rfl rfl rfl first)))
      rintro rfl
      exact absurd first (by decide)
    | uniqueLocal _ _ first =>
      refine isPrivateIp_of_first ?_ (.inr (.inr (.inl (segment_masked (k := 9) (j := 7) rfl rfl rfl first))))
      rintro rfl
      exact absurd first (by decide)
    | teredo => exact isPrivateIp_of_first (by decide) (.inr (.inr (.inr ⟨rfl, rfl⟩)))

theorem isPrivateIp_of_embeds {addr : Ipv6Addr} {v4 : Ipv4Addr} (embeds : Embeds addr.segments v4)
    (blocked : BlockedV4 v4) (prefixed : ∀ s0 s1 s2 s3 universal high low, (universal = 0 ∨ universal = 0x200) →
      addr.segments = [s0, s1, s2, s3, universal, 0x5efe, high, low] → ¬ BlockedV4 (v4Of high low)) :
    isPrivateIp (.v6 addr) = true := by
  have isPrivate := (isPrivateIpv4_iff v4).mpr blocked
  obtain ⟨segments, eight⟩ := addr
  dsimp only at embeds prefixed
  cases embeds with
  | mapped high low => exact isPrivate
  | compatible high low =>
    have unmapped : toIpv4Mapped ⟨[0, 0, 0, 0, 0, 0, high, low], eight⟩ = none :=
      toIpv4Mapped_eq_none (.inr (by decide))
    simp only [isPrivateIp, unmapped, isPrivateIpv6]
    split
    · rfl
    · simp [isPrivate]
  | translated high low => exact isPrivate
  | nat64 high low => exact isPrivate
  | nat64Local high low => exact isPrivate
  | sixToFour high low s3 s4 s5 s6 s7 =>
    have unmapped : toIpv4Mapped ⟨[0x2002, high, low, s3, s4, s5, s6, s7], eight⟩ = none :=
      toIpv4Mapped_eq_none (.inl (by decide))
    simp [isPrivateIp, unmapped, isPrivateIpv6, isPrivate]
  | isatap s0 s1 s2 s3 universal high low bit =>
    exact absurd blocked (prefixed s0 s1 s2 s3 universal high low bit rfl)

def Plain (cs : List Char) : Prop := ∀ c ∈ cs, Text.isWhitespace c = false ∧ c ≠ '[' ∧ c ≠ ']'

theorem dropWhile_of_plain {p : Char → Bool} {cs : List Char} (none : ∀ c ∈ cs, p c = false) : cs.dropWhile p = cs := by
  cases cs with
  | nil => rfl
  | cons c rest => simp [none c List.mem_cons_self]

theorem rdropWhile_of_plain {p : Char → Bool} {cs : List Char} (none : ∀ c ∈ cs, p c = false) :
    cs.rdropWhile p = cs := by
  rw [List.rdropWhile, dropWhile_of_plain fun c member => none c (List.mem_reverse.mp member), List.reverse_reverse]

theorem withoutBrackets_plain {cs : List Char} (plain : Plain cs) : withoutBrackets cs = cs := by
  unfold withoutBrackets trimList
  rw [dropWhile_of_plain fun c member => (plain c member).1, rdropWhile_of_plain fun c member => (plain c member).1,
    dropWhile_of_plain fun c member => beq_eq_false_iff_ne.mpr (plain c member).2.1,
    rdropWhile_of_plain fun c member => beq_eq_false_iff_ne.mpr (plain c member).2.2]

theorem withoutBrackets_bracketed {cs : List Char} (plain : Plain cs) :
    withoutBrackets ('[' :: (cs ++ [']'])) = cs := by
  have blank : ∀ c ∈ '[' :: (cs ++ [']']), Text.isWhitespace c = false := by
    intro c member
    simp only [List.mem_cons, List.mem_append, List.not_mem_nil, or_false] at member
    obtain rfl | inside | rfl := member
    · decide
    · exact (plain c inside).1
    · decide
  have opened : ∀ c ∈ cs ++ [']'], (c == '[') = false := by
    intro c member
    cases List.mem_append.mp member with
    | inl inside => exact beq_eq_false_iff_ne.mpr (plain c inside).2.1
    | inr last =>
      rw [List.mem_singleton.mp last]
      decide
  unfold withoutBrackets trimList
  rw [dropWhile_of_plain blank, rdropWhile_of_plain blank, List.dropWhile_cons_of_pos (by decide),
    dropWhile_of_plain opened, List.rdropWhile_concat_pos _ _ _ (by decide),
    rdropWhile_of_plain fun c member => beq_eq_false_iff_ne.mpr (plain c member).2.2]

theorem plain_numeral {radix n : Nat} (binary : 1 < radix) (small : radix ≤ 16) : Plain (Numerals.numeral radix n) := by
  obtain ⟨ds, same, digits, -⟩ := Numerals.digits_numeral binary n
  rw [same]
  intro c member
  obtain ⟨d, inside, rfl⟩ := List.mem_map.mp member
  have bound : d < 16 := Nat.lt_of_lt_of_le (digits d inside) small
  interval_cases d <;> decide

theorem plain_append {first second : List Char} (left : Plain first) (right : Plain second) : Plain (first ++ second) :=
  fun c member => (List.mem_append.mp member).elim (left c) (right c)

theorem plain_cons {c : Char} {rest : List Char} (first : Text.isWhitespace c = false ∧ c ≠ '[' ∧ c ≠ ']')
    (later : Plain rest) : Plain (c :: rest) := by
  intro d member
  cases List.mem_cons.mp member with
  | inl same => exact same ▸ first
  | inr inside => exact later d inside

theorem plain_v4 (addr : Ipv4Addr) : Plain addr.text := by
  have octet : ∀ n, Plain (Numerals.numeral 10 n) := fun n => plain_numeral (by decide) (by decide)
  have dot : Text.isWhitespace '.' = false ∧ '.' ≠ '[' ∧ '.' ≠ ']' := by decide
  exact plain_append (octet _) (plain_cons dot (plain_append (octet _) (plain_cons dot (plain_append (octet _)
    (plain_cons dot (octet _))))))

theorem plain_groups (groups : List UInt16) : Plain (laterGroups groups) ∧ Plain (groupsText groups) := by
  have group : ∀ n, Plain (Numerals.numeral 16 n) := fun n => plain_numeral (by decide) (by decide)
  have later : ∀ groups, Plain (laterGroups groups) := by
    intro groups c member
    obtain ⟨g, -, inside⟩ := List.mem_flatMap.mp member
    exact plain_cons (by decide) (group _) c inside
  refine ⟨later groups, ?_⟩
  cases groups with
  | nil => exact fun _ member => nomatch member
  | cons first rest => exact plain_append (group _) (later rest)

theorem plain_v6 (addr : Ipv6Addr) : Plain addr.text := by
  unfold Ipv6Addr.text
  dsimp only
  split
  · exact (plain_groups _).2
  · exact plain_append (plain_groups _).2 (plain_cons (by decide) (plain_cons (by decide) (plain_groups _).2))

theorem dot_not_mem_v6 (addr : Ipv6Addr) : '.' ∉ addr.text := by
  unfold Ipv6Addr.text
  dsimp only
  split
  · exact dot_not_mem_groupsText _
  · simp [dot_not_mem_groupsText]

theorem isPrivateIpStr_v4 (addr : Ipv4Addr) : isPrivateIpStr (Host.ipv4 addr).hostStr = isPrivateIp (.v4 addr) := by
  unfold isPrivateIpStr Host.hostStr
  dsimp only
  rw [withoutBrackets_plain (plain_v4 addr), parseWith, readIpAddr, readIpv4Addr_text]

theorem isPrivateIpStr_v6 (addr : Ipv6Addr) : isPrivateIpStr (Host.ipv6 addr).hostStr = isPrivateIp (.v6 addr) := by
  unfold isPrivateIpStr Host.hostStr
  dsimp only
  rw [withoutBrackets_bracketed (plain_v6 addr), parseWith, readIpAddr, readIpv4Addr_eq_none (dot_not_mem_v6 addr),
    readIpv6Addr_text]
  rfl

/-- `IpAddr::to_string`, which spells a mapped address with its dots. -/
def ipText : IpAddr → List Char
  | .v4 addr => addr.text
  | .v6 addr =>
    match toIpv4Mapped addr with
    | some mapped => "::ffff:".toList ++ mapped.text
    | none => addr.text

theorem v4Of_joined (a b c d : UInt8) :
    v4Of (.ofNat (a.toNat * 256 + b.toNat)) (.ofNat (c.toNat * 256 + d.toNat)) = ⟨a, b, c, d⟩ := by
  have high (x y : UInt8) : (UInt16.ofNat (x.toNat * 256 + y.toNat) >>> 8).toUInt8 = x := by
    have := x.toNat_lt
    have := y.toNat_lt
    rw [← UInt8.toNat_inj]
    simp [Nat.shiftRight_eq_div_pow]
    omega
  have low (x y : UInt8) : (UInt16.ofNat (x.toNat * 256 + y.toNat)).toUInt8 = y := by
    have := x.toNat_lt
    have := y.toNat_lt
    rw [← UInt8.toNat_inj]
    simp
  rw [v4Of, high, low, high, low]

theorem readIpv6Addr_mapped (v4 : Ipv4Addr) :
    ∃ addr, readIpv6Addr ("::ffff:".toList ++ v4.text) = some (addr, []) ∧ toIpv4Mapped addr = some v4 := by
  have spelled : "::ffff:".toList ++ v4.text = ':' :: ':' :: 'f' :: 'f' :: 'f' :: 'f' :: ':' :: v4.text := rfl
  have notFour (c : Char) (rest : List Char) (other : Numerals.isDigitIn 10 c = false) :
      readIpv4Addr (c :: rest) = none := by
    simp [readIpv4Addr, readSeparator, readOctet, readNumber, other]
  have opening : readGroups 8 true (':' :: ':' :: 'f' :: 'f' :: 'f' :: 'f' :: ':' :: v4.text) =
      ([], false, ':' :: ':' :: 'f' :: 'f' :: 'f' :: 'f' :: ':' :: v4.text) := by
    simp [readGroups, readSeparator, notFour, isDigitIn_colon, readNumber]
  have group : readNumber 16 4 true 65535 ('f' :: 'f' :: 'f' :: 'f' :: ':' :: v4.text) = some (65535, ':' :: v4.text) := by
    have digit : Numerals.isDigitIn 16 'f' = true := by decide
    simp [readNumber, isDigitIn_colon, digit, Numerals.numeralValue, show Numerals.toDigit 16 'f' = some 15 by decide]
  have closing : readGroups 7 true ('f' :: 'f' :: 'f' :: 'f' :: ':' :: v4.text) =
      ([65535, .ofNat (v4.a.toNat * 256 + v4.b.toNat), .ofNat (v4.c.toNat * 256 + v4.d.toNat)], true, []) := by
    have noFour := notFour 'f' ('f' :: 'f' :: 'f' :: ':' :: v4.text) (by decide)
    simp [readGroups, readSeparator, noFour, group, readIpv4Addr_text]
  rw [spelled]
  refine ⟨⟨[0, 0, 0, 0, 0, 65535, .ofNat (v4.a.toNat * 256 + v4.b.toNat), .ofNat (v4.c.toNat * 256 + v4.d.toNat)], rfl⟩,
    ?_, ?_⟩
  · simp [readIpv6Addr, opening, closing, Ipv6Addr.ofSegments, List.replicate]
  · simp only [toIpv4Mapped]
    exact congrArg some (v4Of_joined v4.a v4.b v4.c v4.d)

theorem readIpv4Addr_colon (rest : List Char) : readIpv4Addr ("::ffff:".toList ++ rest) = none := by
  have spelled : "::ffff:".toList ++ rest = ':' :: ':' :: 'f' :: 'f' :: 'f' :: 'f' :: ':' :: rest := rfl
  rw [spelled]
  simp [readIpv4Addr, readSeparator, readOctet, readNumber, isDigitIn_colon]

theorem plain_mapped (v4 : Ipv4Addr) : Plain ("::ffff:".toList ++ v4.text) := by
  have plain : ("::ffff:".toList.all fun c => decide (Text.isWhitespace c = false ∧ c ≠ '[' ∧ c ≠ ']')) = true := by
    decide
  exact plain_append (fun c member => of_decide_eq_true (List.all_eq_true.mp plain c member)) (plain_v4 v4)

/-- An IPv6 address is read back as one that is private if it is, although perhaps not as itself. -/
theorem readIpv6Addr_ipText (addr : Ipv6Addr) :
    ∃ again, readIpv4Addr (withoutBrackets (ipText (.v6 addr))) = none ∧
      readIpv6Addr (withoutBrackets (ipText (.v6 addr))) = some (again, []) ∧
        isPrivateIp (.v6 again) = isPrivateIp (.v6 addr) := by
  unfold ipText
  dsimp only
  cases mapped : toIpv4Mapped addr with
  | none =>
    dsimp only
    rw [withoutBrackets_plain (plain_v6 addr)]
    exact ⟨addr, readIpv4Addr_eq_none (dot_not_mem_v6 addr), readIpv6Addr_text addr, rfl⟩
  | some v4 =>
    obtain ⟨again, reads, embeds⟩ := readIpv6Addr_mapped v4
    dsimp only
    rw [withoutBrackets_plain (plain_mapped v4)]
    exact ⟨again, readIpv4Addr_colon _, reads, by simp only [isPrivateIp, embeds, mapped]⟩

theorem isPrivateIpStr_ipText (addr : IpAddr) : isPrivateIpStr (ipText addr) = isPrivateIp addr := by
  cases addr with
  | v4 addr => exact isPrivateIpStr_v4 addr
  | v6 addr =>
    obtain ⟨again, four, six, same⟩ := readIpv6Addr_ipText addr
    rw [isPrivateIpStr, parseWith, readIpAddr, four, six]
    exact same

theorem colon_mem_v6 (addr : Ipv6Addr) : (Host.ipv6 addr).hostStr.contains ':' = true := by
  have inside : ':' ∈ addr.text := by
    unfold Ipv6Addr.text
    dsimp only
    split
    · have eight := addr.eight
      match addr.segments, eight with
      | s0 :: s1 :: rest, _ => simp [groupsText, laterGroups]
    · simp
  simp [Host.hostStr, inside]

theorem reIpv4Host_v4 (addr : Ipv4Addr) : reIpv4Host.isMatch (Host.ipv4 addr).hostStr = true := by
  have octet : ∀ (n : UInt8) (rest : List Char), rest ∈ octetRegex.rests (Numerals.numeral 10 n.toNat ++ rest) := by
    intro n rest
    obtain ⟨ds, same, digits, nonempty, -, short, -⟩ := Numerals.digits_numeral (by decide : 1 < 10) n.toNat
    rw [same]
    refine Regex.mem_rests_many ?_ ?_ ?_
    · intro c member
      obtain ⟨d, inside, rfl⟩ := List.mem_map.mp member
      have bound := digits d inside
      interval_cases d <;> rfl
    · rw [List.length_map]
      exact List.length_pos_iff.mpr nonempty
    · intro most bound
      cases bound
      rw [List.length_map]
      exact short 3 (by decide) (Nat.lt_trans n.toNat_lt (by decide))
  have dotted : ∀ (n : UInt8) (rest : List Char), rest ∈ (dotThen octetRegex).rests ('.' :: (Numerals.numeral 10 n.toNat ++ rest)) := by
    intro n rest
    refine Regex.mem_rests_seq.mpr ⟨_, Regex.mem_rests_literal.mpr ⟨['.'], rfl, rfl⟩, octet n rest⟩
  have last : [] ∈ (dotThen octetRegex).rests ('.' :: Numerals.numeral 10 addr.d.toNat) := by
    have read := dotted addr.d []
    rwa [List.append_nil] at read
  simp only [Pattern.isMatch, reIpv4Host, if_true, List.any_cons, List.any_nil, Bool.or_false, List.any_eq_true]
  refine ⟨[], ?_, rfl⟩
  exact Regex.mem_rests_seq.mpr ⟨_, octet addr.a _, Regex.mem_rests_seq.mpr ⟨_, dotted addr.b _,
    Regex.mem_rests_seq.mpr ⟨_, dotted addr.c _, last⟩⟩⟩

def listedDomains : List String := ["nip.io", "xip.io", "sslip.io", "localtest.me", "loca.lt"]

theorem setMatches_rebinding {text : List Char} : setMatches rebindingPatterns text = true ↔
    (∃ domain ∈ rebindingDomains, '.' :: domain.toList <:+ text.map Char.toLower) ∨
      ∃ domain ∈ listedDomains, text.map Char.toLower = domain.toList := by
  simp only [setMatches, rebindingPatterns, List.any_append, List.any_map, Bool.or_eq_true, List.any_eq_true,
    Function.comp_apply, Pattern.isMatch_atEnd, Pattern.isMatch_whole]
  simp only [List.mem_cons, List.not_mem_nil, or_false, exists_eq_or_imp, exists_eq_left, rebindingDomains,
    listedDomains]
  exact Iff.rfl

theorem getLast?_of_suffix {front whole : List Char} {c : Char} (nonempty : front ≠ []) (suffix : front <:+ whole)
    (last : whole.getLast? = some c) : front.getLast? = some c := by
  obtain ⟨before, rfl⟩ := suffix
  rwa [List.getLast?_append_of_ne_nil _ nonempty] at last

theorem rebinding_ends : ∀ domain ∈ rebindingDomains,
    domain.toList ≠ [] ∧ domain.toList.getLast? ≠ some '.' ∧ domain.toList.getLast? ≠ some ']' := by
  decide

theorem rebindingDomains_eq : rebindingDomains = listedDomains ++ unlistedDomains := rfl

theorem listed_subset {domain : String} (listed : domain ∈ listedDomains) : domain ∈ rebindingDomains :=
  List.mem_append_left unlistedDomains listed

/-- A host that ends in the root's dot or in a bracket matches no pattern on rebinding domains. -/
theorem rebinding_missed {text : List Char} {c : Char} (last : (text.map Char.toLower).getLast? = some c)
    (ends : c = '.' ∨ c = ']') : setMatches rebindingPatterns text = false := by
  rw [Bool.eq_false_iff]
  intro found
  have none : ∀ domain ∈ rebindingDomains, domain.toList.getLast? ≠ some c := by
    intro domain member
    have never := rebinding_ends domain member
    obtain rfl | rfl := ends
    · exact never.2.1
    · exact never.2.2
  obtain ⟨domain, member, suffix⟩ | ⟨domain, listed, same⟩ := setMatches_rebinding.mp found
  · have nonempty := (rebinding_ends domain member).1
    have dotted := getLast?_of_suffix (List.cons_ne_nil _ _) suffix last
    rw [List.getLast?_cons_of_ne_nil nonempty] at dotted
    exact none domain member dotted
  · rw [same] at last
    exact none domain (listed_subset listed) last

theorem unlisted_missed : ∀ domain ∈ unlistedDomains,
    (∀ other ∈ rebindingDomains, ¬ '.' :: other.toList <:+ domain.toList) ∧
      ∀ other ∈ listedDomains, domain.toList ≠ other.toList := by
  decide

theorem slips_missed {host : Host} (slips : Slips host) : setMatches rebindingPatterns host.hostStr = false := by
  cases host with
  | domain text ascii =>
    obtain ⟨root, -⟩ | ⟨domain, unlisted, same⟩ := slips
    · refine rebinding_missed (c := '.') ?_ (.inl rfl)
      rw [List.getLast?_map, Host.hostStr, root]
      rfl
    · rw [Bool.eq_false_iff]
      intro found
      obtain ⟨other, member, suffix⟩ | ⟨other, listed, equal⟩ := setMatches_rebinding.mp found
      · rw [Host.hostStr, same] at suffix
        exact (unlisted_missed domain unlisted).1 other member suffix
      · rw [Host.hostStr, same] at equal
        exact (unlisted_missed domain unlisted).2 other listed equal
  | ipv4 addr => exact slips.elim
  | ipv6 addr =>
    refine rebinding_missed (c := ']') ?_ (.inr rfl)
    rw [List.getLast?_map, Host.hostStr, ← List.cons_append, List.getLast?_concat]
    rfl

theorem toLower_eq_dot {c : Char} (lower : c.toLower = '.') : c = '.' := by
  unfold Char.toLower at lower
  split at lower
  · rename_i upper
    have high : c.val.toNat ≤ 90 := upper.2
    have value := congrArg (fun d : Char => d.val.toNat) lower
    have shifted : c.val.toNat + 32 = 46 := (Text.toNat_shift high).symm.trans value
    have low : 65 ≤ c.val.toNat := upper.1
    omega
  · exact lower

theorem rebinding_listed {domain : String} (member : domain ∈ rebindingDomains) :
    domain ∈ listedDomains ∨ domain ∈ unlistedDomains :=
  List.mem_append.mp (rebindingDomains_eq ▸ member)

theorem unlisted_subset {domain : String} (unlisted : domain ∈ unlistedDomains) : domain ∈ rebindingDomains :=
  List.mem_append_right listedDomains unlisted

theorem slips_blocked {host : Host} (slips : Slips host) : Blocked host := by
  cases host with
  | domain text ascii =>
    obtain ⟨root, domain, member, within⟩ | ⟨domain, unlisted, same⟩ := slips
    · refine ⟨domain, List.mem_cons_of_mem _ member, ?_⟩
      have last : (text.map Char.toLower).getLast? = some '.' := by
        rw [List.getLast?_map, root]
        rfl
      rwa [rootless, if_pos last]
    · have member := unlisted_subset unlisted
      refine ⟨domain, List.mem_cons_of_mem _ member, .inl ?_⟩
      rw [same, rootless, if_neg (rebinding_ends domain member).2.1]
  | ipv4 addr => exact slips.elim
  | ipv6 addr =>
    obtain ⟨s0, s1, s2, s3, universal, high, low, bit, same, blocked⟩ := slips
    refine .inr ⟨v4Of high low, ?_, blocked⟩
    rw [same]
    exact .isatap s0 s1 s2 s3 universal high low bit

theorem blockedDomain_matched {text : List Char} {ascii : ∀ c ∈ text, c.toNat < 128} (blocked : BlockedDomain text)
    (caught : ¬ Slips (.domain text ascii)) :
    setMatches addressPatterns text = true ∨ setMatches rebindingPatterns text = true := by
  obtain ⟨domain, member, within⟩ := blocked
  have unrooted : rootless (text.map Char.toLower) <+: text.map Char.toLower := by
    unfold rootless
    split
    · exact List.dropLast_prefix _
    · exact List.prefix_rfl
  cases List.mem_cons.mp member with
  | inl localhost =>
    left
    subst localhost
    have infixed : "localhost".toList <:+: rootless (text.map Char.toLower) := by
      obtain same | below := within
      · exact same ▸ List.infix_rfl
      · exact (List.suffix_cons '.' _).isInfix.trans below.isInfix
    have found : (Pattern.literal Char.toLower false "localhost" false).isMatch text = true :=
      Pattern.isMatch_anywhere.mpr (infixed.trans unrooted.isInfix)
    exact List.any_eq_true.mpr ⟨_, List.mem_cons_self, found⟩
  | inr rebinding =>
    right
    rw [setMatches_rebinding]
    have flat : ¬ (text.map Char.toLower).getLast? = some '.' := by
      intro root
      have dotted : text.getLast? = some '.' := by
        rw [List.getLast?_map] at root
        obtain ⟨c, last, lower⟩ := Option.map_eq_some_iff.mp root
        rw [last, toLower_eq_dot lower]
      refine caught (.inl ⟨dotted, domain, rebinding, ?_⟩)
      rwa [rootless, if_pos root] at within
    rw [rootless, if_neg flat] at within
    obtain same | below := within
    · cases rebinding_listed rebinding with
      | inl listed => exact .inr ⟨domain, listed, same⟩
      | inr unlisted => exact absurd (.inr ⟨domain, unlisted, same⟩) caught
    · exact .inl ⟨domain, rebinding, below⟩

section Validators

variable {parse : String → Option Url} {url : String} {parsed : Url} {host : Host}

theorem setMatches_security (text : List Char) :
    setMatches hostSecurityRegexSet text = (setMatches addressPatterns text || setMatches rebindingPatterns text) :=
  List.any_append

theorem refused_iff {c : Prop} [Decidable c] {rest : Bool} :
    (if c then false else rest) = false ↔ c ∨ rest = false := by
  by_cases check : c <;> simp [check]

theorem refused_pair_iff {c : Prop} [Decidable c] {rest : Bool × Bool} :
    (if c then (false, false) else rest).1 = false ↔ c ∨ rest.1 = false := by
  by_cases check : c <;> simp [check]

theorem isValidMediaUrl_eq_false_iff (read : parse url = some parsed) (has : parsed.host = some host) :
    isValidMediaUrl parse url = false ↔
      MediaRefusedOtherwise url parsed host.hostStr ∨ setMatches rebindingPatterns host.hostStr = true := by
  unfold isValidMediaUrl MediaRefusedOtherwise
  simp only [read, has, Option.map_some, Option.getD_some, refused_iff, setMatches_security, Bool.or_eq_true,
    Bool.true_eq_false, or_false, or_assoc]
  apply iff_of_eq
  ac_rfl

theorem isValidRelayUrl_eq_false_iff (read : parse url = some parsed) (has : parsed.host = some host) :
    (isValidRelayUrl parse url).1 = false ↔
      RelayRefusedOtherwise url parsed host.hostStr ∨ setMatches rebindingPatterns host.hostStr = true := by
  unfold isValidRelayUrl RelayRefusedOtherwise
  simp only [read, has, Option.map_some, refused_pair_iff, setMatches_security, Bool.or_eq_true, Bool.not_eq_true',
    Bool.true_eq_false, or_false, or_assoc]

theorem media_refused_of_blocked (blocked : Blocked host) (caught : ¬ Slips host) :
    MediaRefusedOtherwise url parsed host.hostStr ∨ setMatches rebindingPatterns host.hostStr = true := by
  have isPrivate : isPrivateIpStr host.hostStr = true → MediaRefusedOtherwise url parsed host.hostStr :=
    fun found => .inr (.inr (.inr (.inr (.inl found))))
  cases host with
  | domain text ascii =>
    refine (blockedDomain_matched blocked caught).imp_left fun found => ?_
    exact .inr (.inr (.inr (.inr (.inr (.inr (.inl found))))))
  | ipv4 addr =>
    left
    apply isPrivate
    rw [isPrivateIpStr_v4]
    exact (isPrivateIpv4_iff addr).mpr blocked
  | ipv6 addr =>
    left
    apply isPrivate
    rw [isPrivateIpStr_v6]
    obtain group | ⟨v4, embeds, inside⟩ := blocked
    · exact isPrivateIp_of_group group
    · refine isPrivateIp_of_embeds embeds inside ?_
      intro s0 s1 s2 s3 universal high low bit same blockedV4
      exact caught ⟨s0, s1, s2, s3, universal, high, low, bit, same, blockedV4⟩

theorem relay_refused_of_blocked (blocked : Blocked host) (caught : ¬ Slips host) :
    RelayRefusedOtherwise url parsed host.hostStr ∨ setMatches rebindingPatterns host.hostStr = true := by
  cases host with
  | domain text ascii =>
    refine (blockedDomain_matched blocked caught).imp_left fun found => ?_
    exact .inr (.inr (.inr (.inr (.inr (.inr (.inr (.inr (.inr (.inr found)))))))))
  | ipv4 addr => exact .inl (.inr (.inr (.inr (.inr (.inr (.inr (.inl (reIpv4Host_v4 addr))))))))
  | ipv6 addr => exact .inl (.inr (.inr (.inr (.inr (.inr (.inr (.inr (.inl (colon_mem_v6 addr)))))))))

/-- A URL with a blocked host is refused by both validators, exactly when its host is not spelled in one of the ways
the patterns miss or both refuse it for another reason. -/
theorem blocked_hosts_refused_iff (parse : String → Option Url) (url : String) :
    (∀ parsed host, parse url = some parsed → parsed.host = some host → Blocked host →
        isValidMediaUrl parse url = false ∧ (isValidRelayUrl parse url).1 = false) ↔
      ∀ parsed host, parse url = some parsed → parsed.host = some host → Slips host →
        MediaRefusedOtherwise url parsed host.hostStr ∧ RelayRefusedOtherwise url parsed host.hostStr := by
  constructor
  · intro refused parsed host read has slips
    have missed := Bool.eq_false_iff.mp (slips_missed slips)
    obtain ⟨media, relay⟩ := refused parsed host read has (slips_blocked slips)
    exact ⟨((isValidMediaUrl_eq_false_iff read has).mp media).resolve_right missed,
      ((isValidRelayUrl_eq_false_iff read has).mp relay).resolve_right missed⟩
  · intro otherwise parsed host read has blocked
    rw [isValidMediaUrl_eq_false_iff read has, isValidRelayUrl_eq_false_iff read has]
    by_cases slips : Slips host
    · obtain ⟨media, relay⟩ := otherwise parsed host read has slips
      exact ⟨.inl media, .inl relay⟩
    · exact ⟨media_refused_of_blocked blocked slips, relay_refused_of_blocked blocked slips⟩

end Validators

theorem ascii_of_all {text : List Char} (all : (text.all fun c => decide (c.toNat < 128)) = true) :
    ∀ c ∈ text, c.toNat < 128 :=
  fun c member => of_decide_eq_true (List.all_eq_true.mp all c member)

def sampleParse : String → Option Url
  | "http://foo.nip.io./" => some ⟨"http", "", none, some (.domain "foo.nip.io.".toList (ascii_of_all (by decide)))⟩
  | "wss://foo.nip.io./" => some ⟨"wss", "", none, some (.domain "foo.nip.io.".toList (ascii_of_all (by decide)))⟩
  | "http://[2606:4700::5efe:7f00:1]/" =>
    some ⟨"http", "", none, some (.ipv6 ⟨[0x2606, 0x4700, 0, 0, 0, 0x5efe, 0x7f00, 1], rfl⟩)⟩
  | _ => none

theorem rooted_slips : Slips (.domain "foo.nip.io.".toList (ascii_of_all (by decide))) :=
  .inl ⟨by decide, "nip.io", by decide, .inr (by decide)⟩

theorem rooted_accepted : isValidMediaUrl sampleParse "http://foo.nip.io./" = true ∧
    (isValidRelayUrl sampleParse "wss://foo.nip.io./").1 = true ∧
    isValidMediaUrl sampleParse "http://[2606:4700::5efe:7f00:1]/" = true := by
  decide

/-- A name under a rebinding domain passes both validators when it is spelled with the dot of the root. -/
theorem blocked_hosts_accepted :
    (¬ ∀ parsed host, sampleParse "http://foo.nip.io./" = some parsed → parsed.host = some host → Blocked host →
        isValidMediaUrl sampleParse "http://foo.nip.io./" = false ∧
          (isValidRelayUrl sampleParse "http://foo.nip.io./").1 = false) ∧
      ¬ ∀ parsed host, sampleParse "wss://foo.nip.io./" = some parsed → parsed.host = some host → Blocked host →
        isValidMediaUrl sampleParse "wss://foo.nip.io./" = false ∧
          (isValidRelayUrl sampleParse "wss://foo.nip.io./").1 = false := by
  constructor
  · intro refused
    have media := (refused _ _ rfl rfl (slips_blocked rooted_slips)).1
    rw [rooted_accepted.1] at media
    cases media
  · intro refused
    have relay := (refused _ _ rfl rfl (slips_blocked rooted_slips)).2
    rw [rooted_accepted.2.1] at relay
    cases relay

end Soshal.Common
