import Soshal.Library.Substrings
import Soshal.Webrtc.Ice

/-! Session descriptions: which lines leave, and which address a line keeps.

Every line is trimmed and then dropped, rewritten or kept on its own. A candidate is
dropped by parts of its text, a connection or origin line rewritten behind the first
place that says which kind of address follows.
-/

set_option autoImplicit false

namespace Soshal.Webrtc

open Library Library.TextRuns
open Library.Substrings (cutText join lines replace)
open Library.Text (byteLen isWhitespace trimList)
open Common (isPrivateIpStr isPrivateIpv6Str)

def maxFfiLen : Nat := 1024 * 1024

def maxLines : Nat := 4000

/-- A connection line without the blank behind `IN` gets one. -/
def normalizedLine (line : List Char) : List Char :=
  if "c=INIP4".toList <+: line then "c=IN IP4".toList ++ line.drop 7
  else if "c=INIP6".toList <+: line then "c=IN IP6".toList ++ line.drop 7
  else line

/-- The address behind the first place that names its kind, up to a slash. -/
def connectionAddress (kind : String) (line : List Char) : Option (List Char) :=
  (cutText kind.toList line).map fun (_, part) => trimList ((trimList part).takeWhile (· ≠ '/'))

def rewriteConnection (line : List Char) : Option (List Char) :=
  if "c=IN".toList <+: line then
    if (connectionAddress "IP4" line).any fun addr => addr ≠ [] && isPrivateIpStr addr then
      some "c=IN IP4 127.0.0.1".toList
    else if (connectionAddress "IP6" line).any fun addr => addr ≠ [] && isPrivateIpv6Str addr then
      some "c=IN IP6 ::1".toList
    else none
  else none

/-- An origin line with another address, and what stands before its kind. -/
def rewriteOriginAs (kind : String) (address : List Char) (line : List Char) : Option (List Char × List Char) :=
  match cutText kind.toList line with
  | none => none
  | some (before, tail) =>
    if trimList tail = [] then none
    else some (before, before ++ kind.toList ++ replace (trimList tail) address tail)

def rewriteOrigin (line : List Char) : Option (List Char × List Char) :=
  if "o=".toList <+: line then
    (rewriteOriginAs "IN IP4" "0.0.0.0".toList line).or (rewriteOriginAs "IN IP6" "::".toList line)
  else none

def sanitizeLine (forceRelay : Bool) (line : List Char) : Option (List Char) :=
  if "a=candidate:".toList <+: line ∧ isSafeCandidate (line.drop 2) forceRelay = false then none
  else some (((rewriteConnection line).or ((rewriteOrigin line).map Prod.snd)).getD line)

def sdpLines (sdp : List Char) : List (List Char) :=
  ((lines sdp).take maxLines).map fun line => normalizedLine (trimList line)

def sanitizeSdp (sdp : String) (forceRelay : Bool) : String :=
  if maxFfiLen < byteLen sdp then ""
  else String.ofList (join ((sdpLines sdp.toList).filterMap (sanitizeLine forceRelay)))

def fields (line : List Char) : List (List Char) := (line.splitOn ' ').filter (· ≠ [])

/-- One of the fields is `typ`, and the next is `host`. -/
def HostCandidate (line : List Char) : Prop := ["typ".toList, "host".toList] <:+: fields line

/-- A run of the line names a private address that is not allowed there. -/
def Names (allowed : List (List Char)) (line : List Char) : Prop :=
  ∃ word ∈ runs isAddressChar line, NamesBut allowed word

def connectionPlaceholders : List (List Char) := ["127.0.0.1".toList, "::1".toList]

def originPlaceholders : List (List Char) := ["0.0.0.0".toList, "::".toList]

structure Harmless (line : List Char) : Prop where
  candidate : "a=candidate:".toList <+: line → ¬ HostCandidate line ∧ ¬ Names [] line
  connection : "c=".toList <+: line → ¬ Names connectionPlaceholders line
  origin : "o=".toList <+: line → ¬ Names originPlaceholders line

inductive Conspicuous (forceRelay : Bool) (candidate : List Char) : Prop where
  | long (size : maxCandidateLen < byteLen (String.ofList candidate))
  | host (typ : "typ host".toList <:+: candidate)
  | direct (relay : forceRelay = true) (typ : "typ srflx".toList <:+: candidate ∨ "typ prflx".toList <:+: candidate)
  | address {word : List Char} (member : word ∈ runs isAddressChar candidate)
      (found : checkWordPrivateIp (kept word) = true)

/-- The first address that follows a kind of address is a private one of that kind. -/
def Recognised (line : List Char) : Prop :=
  "c=IN".toList <+: line ∧ ((connectionAddress "IP4" line).any isPrivateIpStr = true ∨
    (connectionAddress "IP6" line).any isPrivateIpv6Str = true)

/-- What stands before a kind of address that an address follows. -/
def beforeKind (kind : String) (line : List Char) : Option (List Char) :=
  (cutText kind.toList line).bind fun (before, tail) => if trimList tail = [] then none else some before

/-- The part of an origin line that stays as it was: all of it, if it has no address. -/
def originKept (line : List Char) : List Char :=
  ((beforeKind "IN IP4" line).or (beforeKind "IN IP6" line)).getD line

structure FineLine (forceRelay : Bool) (line : List Char) : Prop where
  candidate : "a=candidate:".toList <+: line → HostCandidate line ∨ Names [] line → Conspicuous forceRelay (line.drop 2)
  connection : "c=".toList <+: line → Names connectionPlaceholders line → Recognised line
  origin : "o=".toList <+: line → ¬ Names originPlaceholders (originKept line)

theorem isSafeCandidate_iff {forceRelay : Bool} {candidate : List Char} (nonempty : candidate ≠ []) :
    isSafeCandidate candidate forceRelay = false ↔ Conspicuous forceRelay candidate := by
  unfold isSafeCandidate containsText
  split_ifs with long host direct
  · exact iff_of_true rfl (.long (long.resolve_left nonempty))
  · exact iff_of_true rfl (.host (of_decide_eq_true host))
  · simp only [Bool.and_eq_true, Bool.or_eq_true, decide_eq_true_eq] at direct
    exact iff_of_true rfl (.direct direct.1 direct.2)
  · rw [Bool.not_eq_false', hasPrivateIp_iff]
    constructor
    · rintro ⟨word, member, found⟩
      exact .address member found
    · simp only [Bool.and_eq_true, Bool.or_eq_true, decide_eq_true_eq] at direct host
      rintro (size | typ | ⟨relay, typ⟩ | ⟨member, found⟩)
      · exact absurd (.inr size) long
      · exact absurd typ host
      · exact absurd ⟨relay, typ⟩ direct
      · exact ⟨_, member, found⟩

theorem any_nonempty {p : List Char → Bool} (none : p [] = false) (addr : Option (List Char)) :
    (addr.any fun addr => addr ≠ [] && p addr) = addr.any p := by
  cases addr with
  | none => rfl
  | some addr => cases addr <;> simp [none]

theorem recognised_iff {line : List Char} : (rewriteConnection line).isSome ↔ Recognised line := by
  rw [rewriteConnection, any_nonempty (by decide), any_nonempty (by decide), Recognised]
  split_ifs with connection four six
  · exact iff_of_true rfl ⟨connection, .inl four⟩
  · exact iff_of_true rfl ⟨connection, .inr six⟩
  · exact iff_of_false Bool.false_ne_true fun both => both.2.elim four six
  · exact iff_of_false Bool.false_ne_true fun both => connection both.1

theorem beforeKind_eq (kind : String) (address line : List Char) :
    beforeKind kind line = (rewriteOriginAs kind address line).map Prod.fst := by
  rw [beforeKind, rewriteOriginAs]
  cases cutText kind.toList line with
  | none => rfl
  | some parts =>
    dsimp only [Option.bind_some]
    split_ifs
    · rfl
    · rfl

theorem originKept_eq {line : List Char} (origin : "o=".toList <+: line) :
    originKept line = ((rewriteOrigin line).map Prod.fst).getD line := by
  rw [originKept, beforeKind_eq _ "0.0.0.0".toList, beforeKind_eq _ "::".toList, rewriteOrigin, if_pos origin,
    Option.map_or]

section Cut

variable {allowed : List (List Char)}

theorem names_append_other {c : Char} (outside : isAddressChar c = false) (front rest : List Char) :
    Names allowed (front ++ c :: rest) ↔ Names allowed front ∨ Names allowed rest := by
  simp only [Names, runs_append_other outside, List.mem_append, or_and_right, exists_or]

theorem names_cons_other {c : Char} (outside : isAddressChar c = false) (rest : List Char) :
    Names allowed (c :: rest) ↔ Names allowed rest := by
  simp only [Names, runs_cons_other outside]

theorem names_of_all {word : List Char} (nonempty : word ≠ []) (inside : ∀ c ∈ word, isAddressChar c = true) :
    Names allowed word ↔ NamesBut allowed word := by
  simp [Names, runs_of_all nonempty inside]

theorem not_addressChar_of_blank {c : Char} (blank : isWhitespace c = true) : isAddressChar c = false := by
  obtain outside | rfl | rfl | rfl := delimits_of_blank blank
  · exact outside
  · cases blank
  · cases blank
  · cases blank

theorem names_blank_append {blanks : List Char} (blank : ∀ c ∈ blanks, isWhitespace c = true) (rest : List Char) :
    Names allowed (blanks ++ rest) ↔ Names allowed rest := by
  induction blanks with
  | nil => rfl
  | cons c blanks ih =>
    rw [List.cons_append, names_cons_other (not_addressChar_of_blank (blank c List.mem_cons_self)),
      ih fun d member => blank d (List.mem_cons_of_mem _ member)]

theorem names_word_blank {word blanks address : List Char} (nonempty : word ≠ [])
    (all : (word ++ address).all isAddressChar = true) (more : address ≠ [])
    (blank : ∀ c ∈ blanks, isWhitespace c = true) (joined : ¬ NamesBut allowed (word ++ address))
    (first : ¬ NamesBut allowed word) (second : ¬ NamesBut allowed address) :
    ¬ Names allowed (word ++ (blanks ++ address)) := by
  have inside := List.all_eq_true.mp all
  have inWord : ∀ c ∈ word, isAddressChar c = true := fun c member => inside c (List.mem_append_left _ member)
  have inAddress : ∀ c ∈ address, isAddressChar c = true := fun c member => inside c (List.mem_append_right _ member)
  cases blanks with
  | nil => rwa [List.nil_append, names_of_all (by simp [nonempty]) inside]
  | cons c blanks =>
    rw [List.cons_append, names_append_other (not_addressChar_of_blank (blank c List.mem_cons_self)),
      names_blank_append fun d member => blank d (List.mem_cons_of_mem _ member), names_of_all nonempty inWord,
      names_of_all more inAddress]
    exact fun either => either.elim first second

end Cut

section Rewritten

theorem names_connectionPlaceholder : ¬ Names connectionPlaceholders "c=IN IP4 127.0.0.1".toList ∧
    ¬ Names connectionPlaceholders "c=IN IP6 ::1".toList := by
  unfold Names
  decide

/-- An origin line that was rewritten names no private address behind the kind of its address. -/
theorem names_originPlaceholder {blanks : List Char} (blank : ∀ c ∈ blanks, isWhitespace c = true) :
    ¬ Names originPlaceholders ("N IP4".toList ++ (blanks ++ "0.0.0.0".toList)) ∧
      ¬ Names originPlaceholders ("N IP6".toList ++ (blanks ++ "::".toList)) := by
  have cut (digit : Char) (rest : List Char) :
      Names originPlaceholders ('N' :: ' ' :: 'I' :: 'P' :: digit :: rest) ↔
        Names originPlaceholders ([digit] ++ rest) := by
    rw [names_cons_other (by decide), names_cons_other (by decide), names_cons_other (by decide),
      names_cons_other (by decide), List.singleton_append]
  have four : ¬ Names originPlaceholders (['4'] ++ (blanks ++ "0.0.0.0".toList)) := by
    refine names_word_blank ?_ ?_ ?_ blank ?_ ?_ ?_ <;> decide
  have six : ¬ Names originPlaceholders (['6'] ++ (blanks ++ "::".toList)) := by
    refine names_word_blank ?_ ?_ ?_ blank ?_ ?_ ?_ <;> decide
  exact ⟨mt (cut '4' _).mp four, mt (cut '6' _).mp six⟩

theorem rewriteConnection_eq {line after : List Char} (rewritten : rewriteConnection line = some after) :
    "c=IN".toList <+: line ∧ (after = "c=IN IP4 127.0.0.1".toList ∨ after = "c=IN IP6 ::1".toList) := by
  unfold rewriteConnection at rewritten
  split_ifs at rewritten with connection
  · exact ⟨connection, .inl (Option.some.inj rewritten).symm⟩
  · exact ⟨connection, .inr (Option.some.inj rewritten).symm⟩

theorem rewriteOriginAs_eq {kind : String} {address line before after : List Char}
    (trimmed : ∀ c ∈ line.getLast?, isWhitespace c = false)
    (rewritten : rewriteOriginAs kind address line = some (before, after)) :
    ∃ blanks rest, (∀ c ∈ blanks, isWhitespace c = true) ∧ after = before ++ kind.toList ++ (blanks ++ address) ∧
      line = before ++ kind.toList ++ (blanks ++ rest) := by
  unfold rewriteOriginAs at rewritten
  split at rewritten
  · cases rewritten
  · rename_i front tail cut
    split_ifs at rewritten with blank
    cases rewritten
    have split := Substrings.cutText_eq_some cut
    have whole : tail.takeWhile isWhitespace ++ tail.dropWhile isWhitespace = tail := List.takeWhile_append_dropWhile
    have nonempty : tail.dropWhile isWhitespace ≠ [] := by
      intro empty
      exact blank (by rw [trimList, empty]; rfl)
    -- Nothing blank stands at the end, as the line is trimmed.
    have ends : ∀ c ∈ (tail.dropWhile isWhitespace).getLast?, isWhitespace c = false := by
      intro c last
      refine trimmed c ?_
      rw [split, ← whole, ← List.append_assoc, Option.mem_def, List.getLast?_append, Option.mem_def.mp last]
      rfl
    have addressed : trimList tail = tail.dropWhile isWhitespace := by
      refine List.rdropWhile_eq_self_iff.mpr fun some_ => Bool.eq_false_iff.mp (ends _ ?_)
      exact List.getLast?_eq_some_getLast some_
    have blanks : ∀ c ∈ tail.takeWhile isWhitespace, isWhitespace c = true := fun c member => List.mem_takeWhile_imp member
    have other : ∀ c ∈ tail.takeWhile isWhitespace, (tail.dropWhile isWhitespace).head? ≠ some c := by
      intro c member first
      have outside := List.head?_dropWhile_not isWhitespace tail
      rw [first] at outside
      exact Bool.false_ne_true (Eq.trans (Eq.symm outside) (blanks c member))
    refine ⟨tail.takeWhile isWhitespace, tail.dropWhile isWhitespace, blanks, ?_, by rw [whole]; exact split⟩
    have replaced := Substrings.replace_end other nonempty address
    rw [whole] at replaced
    rw [addressed, replaced]

/-- What names the kind of an address cannot stand in the first two characters of an origin line. -/
theorem origin_prefix {before rest tail : List Char} (origin : "o=".toList <+: before ++ 'I' :: tail) :
    "o=".toList <+: before ++ rest := by
  match before with
  | [] => exact absurd (List.cons_prefix_cons.mp origin).1 (by decide)
  | [c] => exact absurd (List.cons_prefix_cons.mp (List.cons_prefix_cons.mp origin).2).1 (by decide)
  | c :: d :: before =>
    obtain ⟨first, rest⟩ := List.cons_prefix_cons.mp origin
    exact List.cons_prefix_cons.mpr ⟨first, List.cons_prefix_cons.mpr
      ⟨(List.cons_prefix_cons.mp rest).1, List.nil_prefix⟩⟩

theorem rewriteOrigin_eq {line before after : List Char} (trimmed : ∀ c ∈ line.getLast?, isWhitespace c = false)
    (rewritten : rewriteOrigin line = some (before, after)) :
    "o=".toList <+: after ∧ (Names originPlaceholders after ↔ Names originPlaceholders before) := by
  unfold rewriteOrigin at rewritten
  split_ifs at rewritten with origin
  have cut (digit : Char) (rest : List Char) : before ++ ['I', 'N', ' ', 'I', 'P', digit] ++ rest =
      before ++ 'I' :: (['N', ' ', 'I', 'P', digit] ++ rest) := by simp
  obtain four | ⟨-, six⟩ := Option.or_eq_some_iff.mp rewritten
  · obtain ⟨blanks, rest, blank, rfl, rfl⟩ := rewriteOriginAs_eq trimmed four
    refine ⟨?_, ?_⟩
    · rw [List.append_assoc]
      exact origin_prefix (cut '4' (blanks ++ rest) ▸ origin)
    · refine (cut '4' _ ▸ names_append_other (by decide) before _).trans ?_
      exact or_iff_left (names_originPlaceholder blank).1
  · obtain ⟨blanks, rest, blank, rfl, rfl⟩ := rewriteOriginAs_eq trimmed six
    refine ⟨?_, ?_⟩
    · rw [List.append_assoc]
      exact origin_prefix (cut '6' (blanks ++ rest) ▸ origin)
    · refine (cut '6' _ ▸ names_append_other (by decide) before _).trans ?_
      exact or_iff_left (names_originPlaceholder blank).2

end Rewritten

section Line

variable {forceRelay : Bool} {line : List Char}

theorem head_of_begins {c : Char} {rest : List Char} (starts : c :: rest <+: line) : line.head? = some c := by
  obtain ⟨more, rfl⟩ := starts
  rfl

theorem not_begins {c d : Char} {first second : List Char} (other : c ≠ d) (starts : c :: first <+: line) :
    ¬ d :: second <+: line := fun also =>
  other (Option.some.inj ((head_of_begins starts).symm.trans (head_of_begins also)))

theorem rewriteConnection_eq_none (other : ¬ "c=".toList <+: line) : rewriteConnection line = none := by
  have noConnection : ¬ "c=IN".toList <+: line := fun connection =>
    other ((List.prefix_append "c=".toList "IN".toList).trans connection)
  rw [rewriteConnection, if_neg noConnection]

theorem rewriteOrigin_eq_none (other : ¬ "o=".toList <+: line) : rewriteOrigin line = none := by
  rw [rewriteOrigin, if_neg other]

theorem harmless_of_candidate (candidate : "a=candidate:".toList <+: line) :
    (∀ after ∈ sanitizeLine forceRelay line, Harmless after) ↔ FineLine forceRelay line := by
  have connection : ¬ "c=".toList <+: line := not_begins (by decide) candidate
  have origin : ¬ "o=".toList <+: line := not_begins (by decide) candidate
  have nonempty : line.drop 2 ≠ [] := by
    obtain ⟨rest, rfl⟩ := candidate
    exact List.cons_ne_nil _ _
  rw [sanitizeLine, rewriteConnection_eq_none connection, rewriteOrigin_eq_none origin]
  by_cases dropped : isSafeCandidate (line.drop 2) forceRelay = false
  · -- Nothing is sent, and the candidate gave itself away.
    rw [if_pos ⟨candidate, dropped⟩]
    refine iff_of_true nofun ⟨fun _ _ => (isSafeCandidate_iff nonempty).mp dropped, fun starts => absurd starts connection,
      fun starts => absurd starts origin⟩
  · rw [if_neg fun both => dropped both.2]
    have passed : ¬ Conspicuous forceRelay (line.drop 2) := mt (isSafeCandidate_iff nonempty).mpr dropped
    constructor
    · intro harmless
      refine ⟨fun _ bad => ?_, fun starts => absurd starts connection, fun starts => absurd starts origin⟩
      have clean := (harmless line rfl).candidate candidate
      exact absurd bad (not_or.mpr clean)
    · rintro fine _ ⟨⟩
      refine ⟨fun _ => ?_, fun starts => absurd starts connection, fun starts => absurd starts origin⟩
      exact not_or.mp fun bad => passed (fine.candidate candidate bad)

theorem sanitizeLine_of_other (other : ¬ "a=candidate:".toList <+: line) : sanitizeLine forceRelay line =
    some (((rewriteConnection line).or ((rewriteOrigin line).map Prod.snd)).getD line) := by
  rw [sanitizeLine, if_neg fun both => other both.1]

theorem harmless_of_connection (connection : "c=".toList <+: line) :
    (∀ after ∈ sanitizeLine forceRelay line, Harmless after) ↔ FineLine forceRelay line := by
  have candidate : ¬ "a=candidate:".toList <+: line := not_begins (by decide) connection
  have origin : ¬ "o=".toList <+: line := not_begins (by decide) connection
  rw [sanitizeLine_of_other candidate, rewriteOrigin_eq_none origin]
  cases rewritten : rewriteConnection line with
  | some after =>
    -- A rewritten line is one of the two placeholders, whatever it named before.
    have recognised : Recognised line := recognised_iff.mp (by rw [rewritten]; rfl)
    refine iff_of_true ?_ ⟨fun starts => absurd starts candidate, fun _ _ => recognised,
      fun starts => absurd starts origin⟩
    rintro _ ⟨⟩
    have clean := names_connectionPlaceholder
    obtain ⟨-, rfl | rfl⟩ := rewriteConnection_eq rewritten
    · show Harmless "c=IN IP4 127.0.0.1".toList
      exact ⟨fun starts => absurd starts (by decide), fun _ => clean.1, fun starts => absurd starts (by decide)⟩
    · show Harmless "c=IN IP6 ::1".toList
      exact ⟨fun starts => absurd starts (by decide), fun _ => clean.2, fun starts => absurd starts (by decide)⟩
  | none =>
    constructor
    · intro harmless
      refine ⟨fun starts => absurd starts candidate, fun _ names => ?_, fun starts => absurd starts origin⟩
      exact absurd names ((harmless line rfl).connection connection)
    · rintro fine _ ⟨⟩
      refine ⟨fun starts => absurd starts candidate, fun _ names => ?_, fun starts => absurd starts origin⟩
      have found := recognised_iff.mpr (fine.connection connection names)
      rw [rewritten] at found
      cases found

theorem harmless_of_origin (origin : "o=".toList <+: line) (trimmed : ∀ c ∈ line.getLast?, isWhitespace c = false) :
    (∀ after ∈ sanitizeLine forceRelay line, Harmless after) ↔ FineLine forceRelay line := by
  have candidate : ¬ "a=candidate:".toList <+: line := not_begins (by decide) origin
  have connection : ¬ "c=".toList <+: line := not_begins (by decide) origin
  rw [sanitizeLine_of_other candidate, rewriteConnection_eq_none connection]
  cases rewritten : rewriteOrigin line with
  | some result =>
    -- What is put in names nothing, so the line names what stands before it.
    obtain ⟨before, after⟩ := result
    obtain ⟨starts, same⟩ := rewriteOrigin_eq trimmed rewritten
    have keeps : originKept line = before := by rw [originKept_eq origin, rewritten]; rfl
    constructor
    · intro harmless
      refine ⟨fun starts => absurd starts candidate, fun starts => absurd starts connection, fun _ names => ?_⟩
      rw [keeps] at names
      exact (harmless after rfl).origin starts (same.mpr names)
    · rintro fine _ ⟨⟩
      have clean := fine.origin origin
      rw [keeps] at clean
      exact ⟨fun other => absurd other (not_begins (by decide) starts),
        fun other => absurd other (not_begins (by decide) starts), fun _ names => clean (same.mp names)⟩
  | none =>
    have keeps : originKept line = line := by rw [originKept_eq origin, rewritten]; rfl
    constructor
    · intro harmless
      refine ⟨fun starts => absurd starts candidate, fun starts => absurd starts connection, fun _ => ?_⟩
      rw [keeps]
      exact (harmless line rfl).origin origin
    · rintro fine _ ⟨⟩
      refine ⟨fun starts => absurd starts candidate, fun starts => absurd starts connection, fun _ => ?_⟩
      have clean := fine.origin origin
      rwa [keeps] at clean

theorem harmless_iff (trimmed : "o=".toList <+: line → ∀ c ∈ line.getLast?, isWhitespace c = false) :
    (∀ after ∈ sanitizeLine forceRelay line, Harmless after) ↔ FineLine forceRelay line := by
  by_cases candidate : "a=candidate:".toList <+: line
  · exact harmless_of_candidate candidate
  · by_cases connection : "c=".toList <+: line
    · exact harmless_of_connection connection
    · by_cases origin : "o=".toList <+: line
      · exact harmless_of_origin origin (trimmed origin)
      · rw [sanitizeLine_of_other candidate, rewriteConnection_eq_none connection, rewriteOrigin_eq_none origin]
        refine iff_of_true ?_ ⟨fun starts => absurd starts candidate, fun starts => absurd starts connection,
          fun starts => absurd starts origin⟩
        rintro _ ⟨⟩
        exact ⟨fun starts => absurd starts candidate, fun starts => absurd starts connection,
          fun starts => absurd starts origin⟩

end Line

section Description

variable {forceRelay : Bool} {line : List Char}

theorem mem_of_mem_trimList {c : Char} (member : c ∈ trimList line) : c ∈ line :=
  (List.dropWhile_sublist _).mem ((List.rdropWhile_prefix _ _).mem member)

theorem normalizedLine_of_origin (origin : "o=".toList <+: normalizedLine line) : normalizedLine line = line := by
  unfold normalizedLine at origin ⊢
  split_ifs at origin ⊢
  · exact absurd origin (not_begins (by decide) (List.prefix_append "c=IN IP4".toList _))
  · exact absurd origin (not_begins (by decide) (List.prefix_append "c=IN IP6".toList _))
  · rfl

/-- A line that is looked at is part of one line, and an origin line does not end with a blank. -/
theorem sound_of_mem_sdpLines {sdp : List Char} (member : line ∈ sdpLines sdp) :
    '\n' ∉ line ∧ ("o=".toList <+: line → ∀ c ∈ line.getLast?, isWhitespace c = false) := by
  obtain ⟨raw, taken, rfl⟩ := List.mem_map.mp member
  have plain : '\n' ∉ trimList raw := fun broken =>
    Substrings.plain_of_mem_lines (List.mem_of_mem_take taken) (mem_of_mem_trimList broken)
  constructor
  · unfold normalizedLine
    split_ifs
    · exact fun broken => (List.mem_append.mp broken).elim (by decide) fun rest => plain (List.mem_of_mem_drop rest)
    · exact fun broken => (List.mem_append.mp broken).elim (by decide) fun rest => plain (List.mem_of_mem_drop rest)
    · exact plain
  · intro origin c last
    rw [normalizedLine_of_origin origin] at last
    obtain ⟨nonempty, rfl⟩ := List.mem_getLast?_eq_getLast last
    exact Bool.eq_false_iff.mpr (List.rdropWhile_last_not _ _ nonempty)

theorem plain_of_rewriteOrigin {before after : List Char} (trimmed : ∀ c ∈ line.getLast?, isWhitespace c = false)
    (plain : '\n' ∉ line) (rewritten : rewriteOrigin line = some (before, after)) : '\n' ∉ after := by
  unfold rewriteOrigin at rewritten
  split_ifs at rewritten
  obtain four | ⟨-, six⟩ := Option.or_eq_some_iff.mp rewritten
  · obtain ⟨blanks, rest, -, rfl, rfl⟩ := rewriteOriginAs_eq trimmed four
    simp only [List.mem_append, not_or] at plain ⊢
    exact ⟨plain.1, plain.2.1, by decide⟩
  · obtain ⟨blanks, rest, -, rfl, rfl⟩ := rewriteOriginAs_eq trimmed six
    simp only [List.mem_append, not_or] at plain ⊢
    exact ⟨plain.1, plain.2.1, by decide⟩

theorem plain_of_sanitizeLine {after : List Char}
    (trimmed : "o=".toList <+: line → ∀ c ∈ line.getLast?, isWhitespace c = false) (plain : '\n' ∉ line)
    (kept : sanitizeLine forceRelay line = some after) : '\n' ∉ after := by
  unfold sanitizeLine at kept
  split_ifs at kept
  obtain rfl := Option.some.inj kept
  cases connection : rewriteConnection line with
  | some after =>
    obtain ⟨-, rfl | rfl⟩ := rewriteConnection_eq connection
    · show '\n' ∉ "c=IN IP4 127.0.0.1".toList
      decide
    · show '\n' ∉ "c=IN IP6 ::1".toList
      decide
  | none =>
    cases origin : rewriteOrigin line with
    | none => exact plain
    | some result =>
      have starts : "o=".toList <+: line := by
        by_contra other
        rw [rewriteOrigin_eq_none other] at origin
        cases origin
      exact plain_of_rewriteOrigin (trimmed starts) plain origin

def SanitizedHolds (sdp : String) (forceRelay : Bool) : Prop :=
  ∀ line ∈ lines (sanitizeSdp sdp forceRelay).toList, Harmless line

theorem harmless_nil : Harmless [] :=
  ⟨fun starts => absurd starts (by decide), fun starts => absurd starts (by decide),
    fun starts => absurd starts (by decide)⟩

theorem sanitizedHolds_iff (sdp : String) (forceRelay : Bool) (size : byteLen sdp ≤ maxFfiLen) :
    SanitizedHolds sdp forceRelay ↔ ∀ line ∈ sdpLines sdp.toList, FineLine forceRelay line := by
  have emitted : ∀ after ∈ (sdpLines sdp.toList).filterMap (sanitizeLine forceRelay), '\n' ∉ after := by
    intro after member
    obtain ⟨line, looked, kept⟩ := List.mem_filterMap.mp member
    obtain ⟨plain, trimmed⟩ := sound_of_mem_sdpLines looked
    exact plain_of_sanitizeLine trimmed plain kept
  rw [SanitizedHolds, sanitizeSdp, if_neg (Nat.not_lt.mpr size), String.toList_ofList]
  constructor
  · -- A line that is emitted empty is not read back, but there is nothing in it.
    intro harmless line looked
    refine (harmless_iff (sound_of_mem_sdpLines looked).2).mp fun after kept => ?_
    by_cases empty : after = []
    · exact empty ▸ harmless_nil
    · exact harmless after ((Substrings.mem_lines_join emitted empty).mpr (List.mem_filterMap.mpr ⟨line, looked, kept⟩))
  · intro fine after member
    by_cases empty : after = []
    · exact empty ▸ harmless_nil
    · obtain ⟨line, looked, kept⟩ := List.mem_filterMap.mp ((Substrings.mem_lines_join emitted empty).mp member)
      exact (harmless_iff (sound_of_mem_sdpLines looked).2).mpr (fine line looked) after kept

theorem sanitizedHolds_of_long (sdp : String) (forceRelay : Bool) (size : maxFfiLen < byteLen sdp) :
    SanitizedHolds sdp forceRelay := by
  have nothing : lines "".toList = [] := by decide
  rw [SanitizedHolds, sanitizeSdp, if_pos size, nothing]
  exact nofun

/-- Redaction does what it says when every run is fine, sanitizing when every line is. -/
theorem redactPrivateIps_sanitizeSdp (s sdp : String) (forceRelay : Bool) :
    ((byteLen s ≤ maxRedactLen → RedactionHolds s) ↔
        (byteLen s ≤ maxRedactLen → ∀ word ∈ runs isAddressChar s.toList, FineRun word)) ∧
      (SanitizedHolds sdp forceRelay ↔
        (byteLen sdp ≤ maxFfiLen → ∀ line ∈ sdpLines sdp.toList, FineLine forceRelay line)) := by
  constructor
  · exact imp_congr_right (redactionHolds_iff s)
  · by_cases size : byteLen sdp ≤ maxFfiLen
    · exact (sanitizedHolds_iff sdp forceRelay size).trans ⟨fun fine _ => fine, fun fine => fine size⟩
    · exact iff_of_true (sanitizedHolds_of_long sdp forceRelay (Nat.lt_of_not_le size)) fun small => absurd small size

/-- The end of a label hides an address behind it, and a second blank hides the type of a candidate. -/
theorem redactPrivateIps_node : ¬ RedactionHolds "node:192.168.1.1" ∧
    ¬ SanitizedHolds "a=candidate:1 1 udp 1 1.2.3.4 9 typ  host" false := by
  constructor
  · intro holds
    have fine := (redactionHolds_iff "node:192.168.1.1" (by decide)).mp holds "de:192.168.1.1".toList (by decide)
    exact (fine.found (by decide)).elim (by decide) (by decide)
  · intro holds
    have fine := (sanitizedHolds_iff _ false (by decide)).mp holds
      "a=candidate:1 1 udp 1 1.2.3.4 9 typ  host".toList (by decide)
    have conspicuous := fine.candidate (by decide) (.inl (by unfold HostCandidate; decide))
    exact absurd ((isSafeCandidate_iff (by decide)).mpr conspicuous) (by decide)

end Description

end Soshal.Webrtc
