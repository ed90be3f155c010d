import Soshal.Common.BlockedHosts
import Soshal.Library.Fields
import Soshal.Library.Lookahead
import Soshal.Library.TextRuns

/-! Addresses in call signalling: which runs of a text are looked at for a private one, and what is put in their place.

A text is cut into runs of the characters an address is written with. What is looked
at is the start of a run, as a whole and at a few places in it; a label before a colon
is one of the things that may hide an address from it.
-/

set_option autoImplicit false

namespace Soshal.Webrtc

open Library Library.TextRuns
open Library.Numerals (readNumber)
open Library.Text (byteLen isAsciiHexdigit)
open Common (ipText isPrivateIp isPrivateIpStr isPrivateIpv6Str toIpv4Mapped)

def readPort : List Char → Option (Nat × List Char)
  | ':' :: rest => readNumber 10 rest.length true 65535 rest
  | _ => none

def withoutScopeId : List Char → List Char
  | '%' :: rest => ((readNumber 10 rest.length true (2 ^ 32 - 1) rest).map Prod.snd).getD ('%' :: rest)
  | cs => cs

def readSocketAddrV4 (cs : List Char) : Option (IpAddr × List Char) := do
  let (ip, cs) ← readIpv4Addr cs
  let (_, cs) ← readPort cs
  some (.v4 ip, cs)

def readSocketAddrV6 : List Char → Option (IpAddr × List Char)
  | '[' :: cs => do
    let (ip, cs) ← readIpv6Addr cs
    match withoutScopeId cs with
    | ']' :: cs => do
      let (_, cs) ← readPort cs
      some (.v6 ip, cs)
    | _ => none
  | _ => none

def readSocketAddr (cs : List Char) : Option (IpAddr × List Char) := (readSocketAddrV4 cs).or (readSocketAddrV6 cs)

def isPrivateText (cs : List Char) : Bool := isPrivateIpStr cs || isPrivateIpv6Str cs

def isSquare (c : Char) : Bool := c = '[' || c = ']'

/-- `trim_matches` with both brackets. -/
def trimSquares (cs : List Char) : List Char := (cs.dropWhile isSquare).rdropWhile isSquare

/-- The text between the first bracket that opens and the next that closes. -/
def bracketed? (word : List Char) : Option (List Char) := do
  let (_, rest) ← Fields.cut '[' word
  let (host, _) ← Fields.cut ']' rest
  some host

def checkWordPrivateIp (word : List Char) : Bool :=
  if word = [] then false
  else if (parseWith readSocketAddr word).any fun ip => isPrivateText (ipText ip) then true
  else if (bracketed? word).any isPrivateIpv6Str then true
  else
    let clean := trimSquares word
    if clean = [] then false
    else if isPrivateText clean then true
    else (Fields.cut ':' clean).any fun (host, _) => isPrivateText host

def maxCandidateLen : Nat := 2048

def maxRedactLen : Nat := 1024 * 1024

/-- How much of a run is kept, in bytes; each of its characters is one. -/
def maxWordLen : Nat := 128

def isAddressChar (c : Char) : Bool := isAsciiHexdigit c || c = '.' || c = ':' || c = '[' || c = ']'

def pushChar (word : List Char) (c : Char) : List Char := if word.length < maxWordLen then word ++ [c] else word

def hasPrivateFrom (word : List Char) : List Char → Bool
  | [] => word ≠ [] && checkWordPrivateIp word
  | c :: rest =>
    if isAddressChar c then hasPrivateFrom (pushChar word c) rest
    else if word ≠ [] && checkWordPrivateIp word then true
    else hasPrivateFrom [] rest

def hasPrivateIp (cs : List Char) : Bool := hasPrivateFrom [] cs

/-- `str::contains`. -/
def containsText (cs : List Char) (part : String) : Bool := decide (part.toList <:+: cs)

def isSafeCandidate (candidate : List Char) (forceRelay : Bool) : Bool :=
  if candidate = [] ∨ maxCandidateLen < byteLen (String.ofList candidate) then false
  else if containsText candidate "typ host" then false
  else if forceRelay && (containsText candidate "typ srflx" || containsText candidate "typ prflx") then false
  else !hasPrivateIp candidate

def placeholder : List Char := "0.0.0.0".toList

def redactedWord (word : List Char) : List Char :=
  if word = [] then [] else if checkWordPrivateIp word then placeholder else word

def redactFrom (word : List Char) : List Char → List Char
  | [] => redactedWord word
  | c :: rest =>
    if isAddressChar c then redactFrom (pushChar word c) rest
    else redactedWord word ++ c :: redactFrom [] rest

def redactPrivateIps (s : String) : String :=
  if maxRedactLen < byteLen s then "" else String.ofList (redactFrom [] s.toList)

def isPrivateLiteral (lit : List Char) : Bool :=
  ((parseWith readIpv4Addr lit).any fun addr => isPrivateIp (.v4 addr)) ||
    (parseWith readIpv6Addr lit).any fun addr => isPrivateIp (.v6 addr)

/-- What may stand next to an address without being part of it. -/
def Delimits (c : Char) : Prop := isAddressChar c = false ∨ c = ':' ∨ c = '[' ∨ c = ']'

/-- A private address stands in the text between delimiters, and is none of those that are allowed. -/
def NamesBut (allowed : List (List Char)) (cs : List Char) : Prop :=
  ∃ front lit back, cs = front ++ lit ++ back ∧ isPrivateLiteral lit = true ∧ lit ∉ allowed ∧
    (∀ c ∈ front.getLast?, Delimits c) ∧ ∀ c ∈ back.head?, Delimits c

abbrev ContainsPrivate (word : List Char) : Prop := NamesBut [] word

instance (c : Char) : Decidable (Delimits c) :=
  inferInstanceAs (Decidable (isAddressChar c = false ∨ c = ':' ∨ c = '[' ∨ c = ']'))

theorem all_delimits {c? : Option Char} : (c?.all fun c => decide (Delimits c)) = true ↔ ∀ c ∈ c?, Delimits c := by
  cases c? <;> simp

instance (allowed : List (List Char)) (cs : List Char) : Decidable (NamesBut allowed cs) :=
  decidable_of_iff
    (∃ rest ∈ cs.tails, ∃ lit ∈ rest.inits, isPrivateLiteral lit = true ∧ lit ∉ allowed ∧
      ((cs.take (cs.length - rest.length)).getLast?.all fun c => decide (Delimits c)) = true ∧
        ((rest.drop lit.length).head?.all fun c => decide (Delimits c)) = true) <| by
    simp only [all_delimits]
    constructor
    · rintro ⟨rest, isTail, lit, isInit, isPrivate, other, before, after⟩
      obtain ⟨front, rfl⟩ := (List.mem_tails _ _).mp isTail
      obtain ⟨back, rfl⟩ := (List.mem_inits _ _).mp isInit
      refine ⟨front, lit, back, by simp, isPrivate, other, ?_, ?_⟩
      · simpa using before
      · simpa using after
    · rintro ⟨front, lit, back, rfl, isPrivate, other, before, after⟩
      refine ⟨lit ++ back, (List.mem_tails _ _).mpr ⟨front, by simp⟩, lit, (List.mem_inits _ _).mpr ⟨back, rfl⟩,
        isPrivate, other, ?_, ?_⟩
      · simpa using before
      · simpa using after

def kept (word : List Char) : List Char := word.take maxWordLen

theorem pushChar_kept (word : List Char) (c : Char) : pushChar (kept word) c = kept (word ++ [c]) := by
  unfold pushChar kept
  rw [List.length_take]
  split_ifs with room
  · have short : word.length < maxWordLen := by omega
    rw [List.take_of_length_le short.le, List.take_of_length_le (by simpa using short)]
  · rw [List.take_append_of_le_length (by omega)]

theorem kept_eq_nil {word : List Char} : kept word = [] ↔ word = [] := by
  simp [kept, maxWordLen]

theorem text_redacted_flush (word : List Char) :
    text ((flush word).map (Piece.mapRun fun run => redactedWord (kept run))) = redactedWord (kept word) := by
  cases word with
  | nil => rfl
  | cons c rest => simp [flush, Piece.mapRun, Piece.text]

theorem redactFrom_eq (word cs : List Char) :
    redactFrom (kept word) cs =
      text ((piecesFrom isAddressChar word cs).map (Piece.mapRun fun run => redactedWord (kept run))) := by
  induction cs generalizing word with
  | nil => exact (text_redacted_flush word).symm
  | cons c rest ih =>
    rw [redactFrom, piecesFrom]
    split_ifs
    · rw [pushChar_kept, ih]
    · have later := ih []
      rw [List.map_append, text_append, text_redacted_flush, List.map_cons, text_cons, ← later]
      rfl

theorem hasPrivateFrom_eq (word cs : List Char) :
    hasPrivateFrom (kept word) cs = ((piecesFrom isAddressChar word cs).filterMap Piece.run?).any fun run =>
      checkWordPrivateIp (kept run) := by
  have flushed (word : List Char) : (decide (kept word ≠ []) && checkWordPrivateIp (kept word)) =
      ((flush word).filterMap Piece.run?).any fun run => checkWordPrivateIp (kept run) := by
    cases word with
    | nil => rfl
    | cons c rest => simp [flush, Piece.run?, kept_eq_nil]
  induction cs generalizing word with
  | nil => exact flushed word
  | cons c rest ih =>
    rw [hasPrivateFrom, piecesFrom]
    split_ifs with inside found
    · rw [pushChar_kept, ih]
    · rw [List.filterMap_append, List.any_append, ← flushed, found, Bool.true_or]
    · have later := ih []
      rw [List.filterMap_append, List.any_append, ← flushed, Bool.eq_false_iff.mpr found, Bool.false_or]
      exact later

theorem hasPrivateIp_iff {cs : List Char} :
    hasPrivateIp cs = true ↔ ∃ word ∈ runs isAddressChar cs, checkWordPrivateIp (kept word) = true := by
  rw [hasPrivateIp, show hasPrivateFrom [] cs = _ from hasPrivateFrom_eq [] cs, List.any_eq_true]
  rfl

section Sound

theorem delimits_of_square {c : Char} (square : isSquare c = true) : Delimits c := by
  simp only [isSquare, Bool.or_eq_true, decide_eq_true_eq] at square
  exact .inr (.inr square)

theorem toNat_of_addressChar {c : Char} (address : isAddressChar c = true) :
    (48 ≤ c.toNat ∧ c.toNat ≤ 57) ∨ (97 ≤ c.toNat ∧ c.toNat ≤ 102) ∨ (65 ≤ c.toNat ∧ c.toNat ≤ 70) ∨ c.toNat = 46 ∨
      c.toNat = 58 ∨ c.toNat = 91 ∨ c.toNat = 93 := by
  simp only [isAddressChar, isAsciiHexdigit, Char.isDigit, Bool.or_eq_true, Bool.and_eq_true, decide_eq_true_eq] at address
  obtain (((((digit | lower) | upper) | rfl) | rfl) | rfl) | rfl := address
  · exact .inl ⟨UInt32.le_iff_toNat_le.mp digit.1, UInt32.le_iff_toNat_le.mp digit.2⟩
  · exact .inr (.inl ⟨UInt32.le_iff_toNat_le.mp lower.1, UInt32.le_iff_toNat_le.mp lower.2⟩)
  · exact .inr (.inr (.inl ⟨UInt32.le_iff_toNat_le.mp upper.1, UInt32.le_iff_toNat_le.mp upper.2⟩))
  · decide
  · decide
  · decide
  · decide

theorem delimits_of_blank {c : Char} (blank : Text.isWhitespace c = true) : Delimits c := by
  refine .inl (Bool.eq_false_iff.mpr fun address => ?_)
  have range := toNat_of_addressChar address
  simp only [Text.isWhitespace, Bool.or_eq_true, Bool.and_eq_true, decide_eq_true_eq, beq_iff_eq] at blank
  omega

/-- All of these characters delimit an address, so that what they stand around does too. -/
def Around (cs lit : List Char) : Prop :=
  ∃ front back, cs = front ++ lit ++ back ∧ (∀ c ∈ front, Delimits c) ∧ ∀ c ∈ back, Delimits c

theorem around_strip {p q : Char → Bool} (before : ∀ c, p c = true → Delimits c) (after : ∀ c, q c = true → Delimits c)
    (cs : List Char) : Around cs ((cs.dropWhile p).rdropWhile q) := by
  refine ⟨cs.takeWhile p, (cs.dropWhile p).rtakeWhile q, ?_, fun c member => ?_, fun c member => ?_⟩
  · rw [List.append_assoc, List.rdropWhile_append_rtakeWhile, List.takeWhile_append_dropWhile]
  · exact before c (List.mem_takeWhile_imp member)
  · exact after c (List.mem_rtakeWhile_imp member)

theorem Around.trans {cs mid lit : List Char} (outer : Around cs mid) (inner : Around mid lit) : Around cs lit := by
  obtain ⟨front, back, rfl, before, after⟩ := outer
  obtain ⟨front', back', rfl, before', after'⟩ := inner
  refine ⟨front ++ front', back' ++ back, by simp, fun c member => ?_, fun c member => ?_⟩
  · exact (List.mem_append.mp member).elim (before c) (before' c)
  · exact (List.mem_append.mp member).elim (after' c) (after c)

theorem Around.names {cs lit front back : List Char} (around : Around cs lit) (isPrivate : isPrivateLiteral lit = true)
    (before : ∀ c ∈ front.getLast?, Delimits c) (after : ∀ c ∈ back.head?, Delimits c) :
    ContainsPrivate (front ++ cs ++ back) := by
  obtain ⟨inner, outer, rfl, inside, outside⟩ := around
  refine ⟨front ++ inner, lit, outer ++ back, by simp, isPrivate, List.not_mem_nil, fun c last => ?_, fun c first => ?_⟩
  · rw [Option.mem_def, List.getLast?_append, Option.or_eq_some_iff] at last
    obtain last | ⟨-, last⟩ := last
    · exact inside c (List.mem_of_getLast? last)
    · exact before c last
  · rw [Option.mem_def, List.head?_append, Option.or_eq_some_iff] at first
    obtain first | ⟨-, first⟩ := first
    · exact outside c (List.mem_of_head? first)
    · exact after c first

theorem isPrivateIp_of_v6 {addr : Ipv6Addr} (isPrivate : Common.isPrivateIpv6 addr = true) :
    isPrivateIp (.v6 addr) = true := by
  cases mapped : toIpv4Mapped addr with
  | none => simpa only [isPrivateIp, mapped] using isPrivate
  | some v4 =>
    obtain ⟨segments, eight⟩ := addr
    unfold toIpv4Mapped at mapped
    dsimp only at mapped
    split at mapped
    · rename_i s6 s7
      simpa [isPrivateIp, toIpv4Mapped, Common.isPrivateIpv6] using isPrivate
    · cases mapped

theorem parseWith_eq_some {α : Type} {read : List Char → Option (α × List Char)} {cs : List Char} {a : α} :
    parseWith read cs = some a ↔ read cs = some (a, []) := by
  unfold parseWith
  split
  · rename_i value found
    rw [found, Option.some.injEq, Option.some.injEq, Prod.mk.injEq]
    exact (and_iff_left rfl).symm
  · rename_i other
    exact iff_of_false nofun (other a)

theorem isPrivateLiteral_v4 {lit : List Char} {addr : Ipv4Addr} (read : readIpv4Addr lit = some (addr, []))
    (isPrivate : isPrivateIp (.v4 addr) = true) : isPrivateLiteral lit = true := by
  rw [isPrivateLiteral, parseWith_eq_some.mpr read, Option.any_some, isPrivate, Bool.true_or]

theorem isPrivateLiteral_v6 {lit : List Char} {addr : Ipv6Addr} (read : readIpv6Addr lit = some (addr, []))
    (isPrivate : isPrivateIp (.v6 addr) = true) : isPrivateLiteral lit = true := by
  rw [isPrivateLiteral, parseWith_eq_some.mpr read, Option.any_some, isPrivate, Bool.or_true]

theorem isPrivateText_iff {host : List Char} : isPrivateText host = true ↔
    (∃ ip, readIpAddr (Common.withoutBrackets host) = some (ip, []) ∧ isPrivateIp ip = true) ∨
      ∃ addr, readIpv6Addr (Common.withoutBrackets host) = some (addr, []) ∧ Common.isPrivateIpv6 addr = true := by
  have both (ip : IpAddr) : parseWith readIpAddr (Common.withoutBrackets host) = some ip ↔
      readIpAddr (Common.withoutBrackets host) = some (ip, []) := parseWith_eq_some
  have six (addr : Ipv6Addr) : parseWith readIpv6Addr (Common.withoutBrackets host) = some addr ↔
      readIpv6Addr (Common.withoutBrackets host) = some (addr, []) := parseWith_eq_some
  simp only [isPrivateText, isPrivateIpStr, isPrivateIpv6Str, Bool.or_eq_true, ← both, ← six]
  refine or_congr ?_ ?_
  · cases parseWith readIpAddr (Common.withoutBrackets host) <;> simp
  · cases parseWith readIpv6Addr (Common.withoutBrackets host) <;> simp

theorem isPrivateLiteral_of_text {host : List Char} (isPrivate : isPrivateText host = true) :
    isPrivateLiteral (Common.withoutBrackets host) = true := by
  obtain ⟨ip, read, holds⟩ | ⟨addr, read, holds⟩ := isPrivateText_iff.mp isPrivate
  · unfold readIpAddr at read
    cases four : readIpv4Addr (Common.withoutBrackets host) with
    | some found =>
      obtain ⟨v4, rest⟩ := found
      rw [four] at read
      cases read
      exact isPrivateLiteral_v4 four holds
    | none =>
      rw [four] at read
      obtain ⟨⟨addr, rest⟩, six, same⟩ := Option.map_eq_some_iff.mp read
      cases same
      exact isPrivateLiteral_v6 six holds
  · exact isPrivateLiteral_v6 read (isPrivateIp_of_v6 holds)

theorem around_withoutBrackets (host : List Char) : Around host (Common.withoutBrackets host) := by
  have blanks := around_strip (fun _ => delimits_of_blank) (fun _ => delimits_of_blank) host
  refine blanks.trans (around_strip (fun c opens => ?_) (fun c closes => ?_) _)
  · rw [beq_iff_eq.mp opens]
    exact .inr (.inr (.inl rfl))
  · rw [beq_iff_eq.mp closes]
    exact .inr (.inr (.inr rfl))

theorem readIpv6Addr_v4 (v4 : Ipv4Addr) : readIpv6Addr v4.text = none := by
  simp [readIpv6Addr, readGroups, readSeparator, readIpv4Addr_text]

theorem isPrivateIp_of_text {ip : IpAddr} (isPrivate : isPrivateText (ipText ip) = true) : isPrivateIp ip = true := by
  cases ip with
  | v4 addr =>
    obtain ⟨ip, read, holds⟩ | ⟨addr, read, -⟩ := isPrivateText_iff.mp isPrivate
    · rw [ipText, Common.withoutBrackets_plain (Common.plain_v4 addr), readIpAddr, readIpv4Addr_text] at read
      cases read
      exact holds
    · rw [ipText, Common.withoutBrackets_plain (Common.plain_v4 _), readIpv6Addr_v4] at read
      cases read
  | v6 addr =>
    obtain ⟨again, four, six, same⟩ := Common.readIpv6Addr_ipText addr
    obtain ⟨ip, read, holds⟩ | ⟨other, read, holds⟩ := isPrivateText_iff.mp isPrivate
    · rw [readIpAddr, four, six] at read
      cases read
      exact same ▸ holds
    · rw [six] at read
      cases read
      exact same ▸ isPrivateIp_of_v6 holds

theorem foreign_colon : Lookahead.Foreign ':' := ⟨by decide, by decide, by decide⟩

theorem colon_of_readPort {cs rest : List Char} {port : Nat} (read : readPort cs = some (port, rest)) :
    ∃ more, cs = ':' :: more := by
  unfold readPort at read
  split at read
  · exact ⟨_, rfl⟩
  · cases read

/-- What follows the address between the brackets of a socket address. -/
inductive Closes : List Char → Prop where
  | bracket (more : List Char) : Closes (']' :: more)
  | scope (more : List Char) : Closes ('%' :: more)

theorem closes_of_withoutScopeId {cs more : List Char} (closed : withoutScopeId cs = ']' :: more) : Closes cs := by
  unfold withoutScopeId at closed
  split at closed
  · exact .scope _
  · exact closed ▸ .bracket more

theorem readSocketAddrV6_closes {word : List Char} {ip : IpAddr} (read : readSocketAddrV6 word = some (ip, [])) :
    ∃ addr cs rest, word = '[' :: cs ∧ ip = .v6 addr ∧ readIpv6Addr cs = some (addr, rest) ∧ Closes rest := by
  unfold readSocketAddrV6 at read
  split at read
  · rename_i cs
    obtain ⟨⟨addr, rest⟩, address, later⟩ := Option.bind_eq_some_iff.mp read
    dsimp only at later
    split at later
    · rename_i closed
      obtain ⟨⟨port, tail⟩, -, same⟩ := Option.bind_eq_some_iff.mp later
      cases same
      exact ⟨addr, cs, rest, rfl, rfl, address, closes_of_withoutScopeId closed⟩
    · cases later
  · cases read

theorem names_of_closes {cs rest : List Char} {addr : Ipv6Addr} (address : readIpv6Addr cs = some (addr, rest))
    (closes : Closes rest) (isPrivate : isPrivateIp (.v6 addr) = true) : ContainsPrivate ('[' :: cs) := by
  cases closes with
  | bracket more =>
    obtain ⟨used, rfl, whole⟩ := (Lookahead.blind_readIpv6Addr (d := ']') ⟨by decide, by decide, by decide⟩
      (by decide)).stops Lookahead.consumes_readIpv6Addr address
    exact ⟨['['], used, ']' :: more, by simp, isPrivateLiteral_v6 whole isPrivate, List.not_mem_nil,
      by simp [Delimits], by simp [Delimits]⟩
  | scope more =>
    obtain ⟨used, rfl, whole⟩ := (Lookahead.blind_readIpv6Addr (d := '%') ⟨by decide, by decide, by decide⟩
      (by decide)).stops Lookahead.consumes_readIpv6Addr address
    exact ⟨['['], used, '%' :: more, by simp, isPrivateLiteral_v6 whole isPrivate, List.not_mem_nil,
      by simp [Delimits], by simp [Delimits, isAddressChar, isAsciiHexdigit]⟩

/-- The part of a socket address before its port is an address, and stands between delimiters. -/
theorem names_of_socket {word : List Char} {ip : IpAddr} (read : readSocketAddr word = some (ip, []))
    (isPrivate : isPrivateIp ip = true) : ContainsPrivate word := by
  obtain four | ⟨-, six⟩ := Option.or_eq_some_iff.mp read
  · obtain ⟨⟨v4, rest⟩, address, later⟩ := Option.bind_eq_some_iff.mp four
    obtain ⟨⟨port, tail⟩, hasPort, same⟩ := Option.bind_eq_some_iff.mp later
    cases same
    obtain ⟨more, rfl⟩ := colon_of_readPort hasPort
    obtain ⟨used, rfl, whole⟩ :=
      (Lookahead.blind_readIpv4Addr foreign_colon).stops Lookahead.consumes_readIpv4Addr address
    exact ⟨[], used, ':' :: more, by simp, isPrivateLiteral_v4 whole isPrivate, List.not_mem_nil, by simp,
      by simp [Delimits]⟩
  · obtain ⟨addr, cs, rest, rfl, rfl, address, closes⟩ := readSocketAddrV6_closes six
    exact names_of_closes address closes isPrivate

theorem names_of_bracketed {word host : List Char} (between : bracketed? word = some host)
    (isPrivate : isPrivateText host = true) : ContainsPrivate word := by
  obtain ⟨⟨front, rest⟩, opened, later⟩ := Option.bind_eq_some_iff.mp between
  obtain ⟨⟨inner, back⟩, closed, same⟩ := Option.bind_eq_some_iff.mp later
  obtain rfl := Option.some.inj same
  obtain ⟨rfl, -⟩ := Fields.cut_eq_some.mp opened
  obtain ⟨rfl, -⟩ := Fields.cut_eq_some.mp closed
  have names : ContainsPrivate ((front ++ ['[']) ++ inner ++ (']' :: back)) :=
    (around_withoutBrackets inner).names (isPrivateLiteral_of_text isPrivate) (by simp [Delimits]) (by simp [Delimits])
  simpa using names

theorem names_of_head {word host rest : List Char} (head : Fields.cut ':' (trimSquares word) = some (host, rest))
    (isPrivate : isPrivateText host = true) : ContainsPrivate word := by
  obtain ⟨front, back, split, before, -⟩ := around_strip (fun _ => delimits_of_square) (fun _ => delimits_of_square) word
  change word = front ++ trimSquares word ++ back at split
  rw [(Fields.cut_eq_some.mp head).1] at split
  have names : ContainsPrivate (front ++ host ++ (':' :: (rest ++ back))) :=
    (around_withoutBrackets host).names (isPrivateLiteral_of_text isPrivate)
      (fun c last => before c (List.mem_of_getLast? last)) (by simp [Delimits])
  rw [split]
  simpa using names

theorem containsPrivate_of_check {word : List Char} (found : checkWordPrivateIp word = true) : ContainsPrivate word := by
  unfold checkWordPrivateIp at found
  dsimp only at found
  split_ifs at found with empty socket bracketed blank whole
  · obtain ⟨ip, read, isPrivate⟩ := (Option.any_eq_true _ _).mp socket
    exact names_of_socket (parseWith_eq_some.mp read) (isPrivateIp_of_text isPrivate)
  · obtain ⟨host, between, isPrivate⟩ := (Option.any_eq_true _ _).mp bracketed
    exact names_of_bracketed between (Bool.or_eq_true _ _ ▸ .inr isPrivate)
  · -- The whole run, without the brackets around it.
    have lit := (around_strip (fun _ => delimits_of_square) (fun _ => delimits_of_square) word).trans
      (around_withoutBrackets (trimSquares word))
    have names : ContainsPrivate ([] ++ word ++ []) := lit.names (isPrivateLiteral_of_text whole) nofun nofun
    simpa using names
  · obtain ⟨⟨host, rest⟩, head, isPrivate⟩ := (Option.any_eq_true _ _).mp found
    exact names_of_head head isPrivate

end Sound

section Redaction

variable {word : List Char}

/-- A piece of the text and what has become of it: no run names a private address, and one that did not is as it was. -/
inductive Redacts : Piece Char → Piece Char → Prop where
  | other (c : Char) : Redacts (.other c) (.other c)
  | run {word after : List Char} (clean : after = placeholder ∨ ¬ ContainsPrivate after)
      (copied : ¬ ContainsPrivate word → after = word) : Redacts (.run word) (.run after)

/-- Where a run names a private address, its start is found to be one or no longer names it; another run is short. -/
structure FineRun (word : List Char) : Prop where
  found : ContainsPrivate word → checkWordPrivateIp (kept word) = true ∨ ¬ ContainsPrivate (kept word)
  short : ¬ ContainsPrivate word → word.length ≤ maxWordLen

theorem check_placeholder : checkWordPrivateIp placeholder = true := by decide

theorem kept_of_short (short : word.length ≤ maxWordLen) : kept word = word := List.take_of_length_le short

theorem redactedWord_found (found : checkWordPrivateIp word = true) : redactedWord word = placeholder := by
  have nonempty : word ≠ [] := by
    rintro rfl
    cases found
  rw [redactedWord, if_neg nonempty, if_pos found]

theorem redactedWord_passed (passed : ¬ checkWordPrivateIp word = true) : redactedWord word = word := by
  unfold redactedWord
  split_ifs with empty
  · exact empty.symm
  · rfl

theorem redacts_iff : Redacts (.run word) (.run (redactedWord (kept word))) ↔ FineRun word := by
  by_cases found : checkWordPrivateIp (kept word) = true
  · rw [redactedWord_found found]
    constructor
    · rintro (_ | ⟨-, copied⟩)
      refine ⟨fun _ => .inl found, fun none => ?_⟩
      exact absurd (containsPrivate_of_check check_placeholder) (copied none ▸ none)
    · intro fine
      refine .run (.inl rfl) fun none => ?_
      rw [kept_of_short (fine.short none)] at found
      exact absurd (containsPrivate_of_check found) none
  · rw [redactedWord_passed found]
    constructor
    · rintro (_ | ⟨clean, copied⟩)
      refine ⟨fun _ => .inr ?_, fun none => (List.take_eq_self_iff word).mp (copied none)⟩
      obtain same | clean := clean
      · exact absurd (same ▸ check_placeholder) found
      · exact clean
    · intro fine
      refine .run (.inr fun names => ?_) fun none => kept_of_short (fine.short none)
      by_cases whole : ContainsPrivate word
      · exact (fine.found whole).elim found fun clean => clean names
      · rw [kept_of_short (fine.short whole)] at names
        exact whole names

theorem redactedWord_proper (nonempty : word ≠ []) (inside : ∀ c ∈ word, isAddressChar c = true) :
    redactedWord (kept word) ≠ [] ∧ ∀ c ∈ redactedWord (kept word), isAddressChar c = true := by
  by_cases found : checkWordPrivateIp (kept word) = true
  · rw [redactedWord_found found]
    exact ⟨by decide, List.all_eq_true.mp (by decide)⟩
  · rw [redactedWord_passed found]
    exact ⟨fun empty => nonempty (kept_eq_nil.mp empty), fun c member => inside c (List.mem_of_mem_take member)⟩

theorem pieces_redacted (s : String) (size : byteLen s ≤ maxRedactLen) :
    pieces isAddressChar (redactPrivateIps s).toList =
      (pieces isAddressChar s.toList).map (Piece.mapRun fun run => redactedWord (kept run)) := by
  rw [redactPrivateIps, if_neg (Nat.not_lt.mpr size), String.toList_ofList,
    show redactFrom [] s.toList = _ from redactFrom_eq [] s.toList]
  exact pieces_mapRuns (fun _ => redactedWord_proper) s.toList

/-- Between the runs the text is as it was, and each run has been redacted where it had to be and only there. -/
def RedactionHolds (s : String) : Prop :=
  List.Forall₂ Redacts (pieces isAddressChar s.toList) (pieces isAddressChar (redactPrivateIps s).toList)

theorem redactionHolds_iff (s : String) (size : byteLen s ≤ maxRedactLen) :
    RedactionHolds s ↔ ∀ word ∈ runs isAddressChar s.toList, FineRun word := by
  rw [RedactionHolds, pieces_redacted s size, List.forall₂_map_right_iff, List.forall₂_same]
  constructor
  · intro redacts word member
    exact redacts_iff.mp (redacts (.run word) (mem_runs.mp member))
  · intro fine piece member
    cases piece with
    | run word => exact redacts_iff.mpr (fine word (mem_runs.mpr member))
    | other c => exact .other c

end Redaction

end Soshal.Webrtc
