import Soshal.Library.Fallible
import Soshal.Library.Fields
import Soshal.Library.Runs
import Soshal.Library.Sorting
import Soshal.Library.Table

/-! Passwords of private communities: how they are kept, and how often one may be guessed.

Guesses are counted per group in a map that is locked for one section at a time. A
call is up to three such sections, and the sections of several calls come in any
order; each call reads the clock once, so a late section may carry an old time.
-/

set_option autoImplicit false

namespace Soshal.Bridge.GroupPasswords

open Library
open Library.Runs (run)
open Library.Text (byteLen hexEncode utf8 trim toAsciiLowercase)

inductive Failure where
  | message (text : String)
  | notFound
  | oversized (text : String)
  | foreignKey
  deriving DecidableEq

section Hashes

-- PBKDF2-HMAC-SHA256 with the fixed number of iterations, of a password and a salt
variable (kdf : List UInt8 → List UInt8 → Vector UInt8 32)

/-- `drawn` is the salt, unless the system gives none. -/
def hashCommunityPassword (drawn : Option (Vector UInt8 16)) (password : String) : Except String String :=
  if byteLen password < 8 then .error "Password must be at least 8 characters"
  else if byteLen password > 128 then .error "Password must not exceed 128 characters"
  else match drawn with
    | none => .error "failed to draw password salt from OS RNG"
    | some salt => .ok (hexEncode salt.toList ++ ":" ++ hexEncode (kdf (utf8 password) salt.toList).toList)

def verifyCommunityPassword (password storedHash : String) : Bool :=
  if password = "" ∨ byteLen password > 128 ∨ storedHash = "" ∨ byteLen storedHash > 256 then false
  else match Fields.splitOnce storedHash ':' with
    | none => false
    | some (saltHex, expected) => match Encoding.hexDecode saltHex with
      | none => false
      | some salt =>
        decide (16 ≤ salt.length) && hexEncode (kdf (utf8 password) salt).toList == toAsciiLowercase expected

def isCommunityPrivate (accessType : String) (hasPasswordHash : Bool) : Bool :=
  Text.eqIgnoreAsciiCase (trim accessType) "private" || hasPasswordHash

theorem toAsciiLowercase_hexEncode (bytes : List UInt8) : toAsciiLowercase (hexEncode bytes) = hexEncode bytes := by
  have normal := Text.normKey_hexEncode bytes
  rwa [Text.normKey, Text.trim_hexEncode] at normal

theorem hexDigit_ne_colon : ∀ n < 16, ':' ≠ Text.hexDigit n := by decide

theorem splitOnce_hexEncode (bytes : List UInt8) (rest : String) :
    Fields.splitOnce (hexEncode bytes ++ ":" ++ rest) ':' = some (hexEncode bytes, rest) := by
  refine Fields.splitOnce_eq_some.mpr ⟨rfl, fun inside => ?_⟩
  simp only [hexEncode, String.toList_ofList, List.mem_flatMap, List.mem_cons, List.not_mem_nil, or_false] at inside
  obtain ⟨b, -, high | low⟩ := inside
  · exact hexDigit_ne_colon _ (by have := b.toNat_lt; omega) high
  · exact hexDigit_ne_colon _ (by omega) low

variable {kdf}

/-- A kept password lets in the candidates of a usable length from which the same key is derived. -/
theorem verify_hash_iff {drawn : Option (Vector UInt8 16)} {password kept : String}
    (hashed : hashCommunityPassword kdf drawn password = .ok kept) (candidate : String) :
    verifyCommunityPassword kdf candidate kept = true ↔
      candidate ≠ "" ∧ byteLen candidate ≤ 128 ∧
        ∀ salt ∈ drawn, kdf (utf8 candidate) salt.toList = kdf (utf8 password) salt.toList := by
  obtain ⟨-, hashed⟩ := Fallible.guard_eq_ok.mp hashed
  obtain ⟨-, hashed⟩ := Fallible.guard_eq_ok.mp hashed
  cases drawn with
  | none => cases hashed
  | some salt =>
    cases hashed
    have length : byteLen (hexEncode salt.toList ++ ":" ++ hexEncode (kdf (utf8 password) salt.toList).toList) = 97 := by
      simp only [byteLen, String.utf8ByteSize_append]
      have first := Text.byteLen_hexEncode salt.toList
      have second := Text.byteLen_hexEncode (kdf (utf8 password) salt.toList).toList
      simp only [byteLen, Vector.length_toList] at first second
      rw [first, second]
      rfl
    have named : hexEncode salt.toList ++ ":" ++ hexEncode (kdf (utf8 password) salt.toList).toList ≠ "" := by
      intro empty
      rw [empty] at length
      cases length
    have sameKey : hexEncode (kdf (utf8 candidate) salt.toList).toList = hexEncode (kdf (utf8 password) salt.toList).toList ↔
        kdf (utf8 candidate) salt.toList = kdf (utf8 password) salt.toList :=
      ⟨fun same => Vector.toList_inj.mp (Text.hexEncode_inj same), fun same => by rw [same]⟩
    simp [verifyCommunityPassword, length, named, splitOnce_hexEncode, toAsciiLowercase_hexEncode, sameKey, and_assoc]

theorem verify_hash_iff_sesame :
    verifyCommunityPassword (fun _ _ => .replicate 32 7) "open barley"
        (hexEncode (List.replicate 16 9) ++ ":" ++ hexEncode (List.replicate 32 7)) = true ↔
      "open barley" ≠ "" ∧ byteLen "open barley" ≤ 128 ∧ ∀ salt ∈ some (Vector.replicate 16 (9 : UInt8)),
        (fun _ _ => Vector.replicate 32 7 : List UInt8 → List UInt8 → Vector UInt8 32) (utf8 "open barley") salt.toList =
          Vector.replicate 32 7 :=
  @verify_hash_iff (fun _ _ => .replicate 32 7) (some (.replicate 16 9)) "open sesame" _ (by decide +kernel) "open barley"

end Hashes

/-- For each group how often it was tried, and since when. -/
abbrev Attempts := Table String (Nat × Int)

def maxAttempts : Nat := 5
def windowSecs : Int := 30
def maxAttemptsMap : Nat := 1000

section Counting

-- the order in which the hash map lists its entries
variable (iter : Attempts → List (String × Int))

variable (now : Int) (group : String) (attempts : Attempts)

def sweepAttempts (attempts : Attempts) : Attempts :=
  let kept := attempts.delete fun _ entry => !decide (now - entry.2 < windowSecs)
  if kept.keys.length > maxAttemptsMap then
    ((Sorting.sortByKey Prod.snd (iter kept)).take (kept.keys.length - maxAttemptsMap)).foldl
      (fun attempts entry => attempts.delete fun group _ => group = entry.1) kept
  else kept

/-- The entry of a group after a sweep, made when it is missing or over. -/
def entered (found : Option (Nat × Int)) : Nat × Int :=
  let entry := found.getD (0, now)
  if entry.2 + windowSecs ≤ now then (0, now) else entry

def enter : (Nat × Int) × Attempts :=
  let swept := sweepAttempts iter now attempts
  let entry := entered now (swept.find? group)
  (entry, swept.upsert group entry fun _ => entry)

def tooMany (entry : Nat × Int) : Failure :=
  .message s!"too many password attempts for this group; retry in {entry.2 + windowSecs - now}s"

def check : Except Failure Unit × Attempts :=
  let (entry, attempts) := enter iter now group attempts
  (if entry.1 ≥ maxAttempts then .error (tooMany now entry) else .ok (), attempts)

def count : Except Failure Unit × Attempts :=
  let (entry, attempts) := enter iter now group attempts
  if entry.1 ≥ maxAttempts then (.error (tooMany now entry), attempts)
  else (.ok (), attempts.modify fun name old => if name = group then (old.1 + 1, old.2) else old)

def reset : Attempts :=
  (sweepAttempts iter now attempts).modify fun name entry => if name = group then (0, entry.2) else entry

/-- The hash to compare with; `group` is the password column of the group's row. -/
def storedHash (group : Option (Option String)) : Except Failure String :=
  match group with
  | none => .error .notFound
  | some none | some (some "") => .error (.oversized "group has no password set; cannot verify access")
  | some (some hash) => .ok hash

/-- The call when no other comes between its sections. -/
def groupsVerifyPassword (kdf : List UInt8 → List UInt8 → Vector UInt8 32) (now : Int) (row : Option (Option String))
    (group password : String) (attempts : Attempts) : Except Failure Bool × Attempts :=
  match check iter now group attempts with
  | (.error failure, attempts) => (.error failure, attempts)
  | (.ok _, attempts) => match storedHash row with
    | .error failure => (.error failure, attempts)
    | .ok stored => match count iter now group attempts with
      | (.error failure, attempts) => (.error failure, attempts)
      | (.ok _, attempts) =>
        let ok := verifyCommunityPassword kdf (trim password) stored
        (.ok ok, if ok then reset iter now group attempts else attempts)

inductive Phase where
  | check
  | count
  | reset
  deriving DecidableEq

structure Section where
  phase : Phase
  now : Int
  group : String
  deriving DecidableEq

/-- What a section leaves, and whether a guess was admitted in it. -/
def perform (s : Section) (attempts : Attempts) : Bool × Attempts :=
  match s.phase with
  | .check => (false, (check iter s.now s.group attempts).2)
  | .count => ((count iter s.now s.group attempts).1.isOk, (count iter s.now s.group attempts).2)
  | .reset => (false, reset iter s.now s.group attempts)

def advance (attempts : Attempts) (s : Section) : Attempts := (perform iter s attempts).2

/-- The guesses at the password of a group that a sequence of sections admits. -/
def guesses (group : String) : Attempts → List Section → Nat
  | _, [] => 0
  | attempts, s :: rest =>
    (if s.group = group ∧ (perform iter s attempts).1 = true then 1 else 0) + guesses group (advance iter attempts s) rest

variable {iter : Attempts → List (String × Int)}

/-- What is left of an entry at a time. -/
def alive (entry : Nat × Int) : Bool := decide (now - entry.2 < windowSecs)

theorem keys_sweep_subset (attempts : Attempts) : (sweepAttempts iter now attempts).keys ⊆ attempts.keys := by
  have shrinks : ∀ (p : String → Nat × Int → Bool) (t : Attempts), (t.delete p).keys ⊆ t.keys :=
    fun p t => (List.filter_sublist.map Prod.fst).subset
  unfold sweepAttempts
  simp only
  split
  · exact Fallible.foldl_keeps (P := fun t => t.keys ⊆ attempts.keys) (fun entry _ t inside => List.Subset.trans (shrinks _ t) inside)
      (shrinks _ attempts)
  · exact shrinks _ attempts

variable (iter) in
theorem keys_perform_subset {names : List String} {s : Section} {attempts : Attempts} (named : s.group ∈ names)
    (inside : attempts.keys ⊆ names) : (advance iter attempts s).keys ⊆ names := by
  have swept : (sweepAttempts iter s.now attempts).keys ⊆ names := List.Subset.trans (keys_sweep_subset s.now attempts) inside
  have entered : (enter iter s.now s.group attempts).2.keys ⊆ names := by
    intro name member
    obtain rfl | member := Table.mem_keys_upsert.mp member
    · exact named
    · exact swept member
  unfold advance perform
  cases s.phase with
  | check => exact entered
  | count =>
    simp only [count]
    split
    · exact entered
    · rwa [Table.keys_modify]
  | reset =>
    simp only [reset]
    rwa [Table.keys_modify]

/-- A map of few groups is only rid of what is over. -/
theorem find?_sweep {names : List String} (few : names.length ≤ maxAttemptsMap) {attempts : Attempts}
    (inside : attempts.keys ⊆ names) (now : Int) (group : String) :
    (sweepAttempts iter now attempts).find? group = (attempts.find? group).filter (alive now) := by
  have room : ¬ (attempts.delete fun _ entry => !alive now entry).keys.length > maxAttemptsMap := by
    have kept : (attempts.delete fun _ entry => !alive now entry).keys ⊆ names :=
      List.Subset.trans (List.filter_sublist.map Prod.fst).subset inside
    have bound := (List.Nodup.subperm (attempts.delete fun _ entry => !alive now entry).nodup kept).length_le
    exact Nat.not_lt.mpr (bound.trans few)
  unfold sweepAttempts
  simp only [alive] at room
  simp only [room, if_false, Table.find?_delete, Bool.not_not]
  rfl

/-- How many guesses an entry still admits before `horizon + windowSecs`. -/
def allowance (horizon : Int) (found : Option (Nat × Int)) : Nat :=
  match found with
  | none => maxAttempts
  | some (tried, since) => if horizon ≤ since then maxAttempts - tried else maxAttempts - tried + maxAttempts

theorem allowance_filter {horizon now : Int} (soon : now < horizon + windowSecs) (found : Option (Nat × Int)) :
    allowance horizon (found.filter (alive now)) ≤ allowance horizon found := by
  cases found with
  | none => exact le_rfl
  | some entry =>
    cases lives : alive now entry with
    | true => simp [Option.filter, lives]
    | false =>
      -- it was begun before the horizon, so that a new one was counted in
      have old : ¬ horizon ≤ entry.2 := by
        have ended : ¬ now - entry.2 < windowSecs := of_decide_eq_false lives
        omega
      simp [Option.filter, lives, allowance, old]

theorem allowance_entered {horizon now : Int} (late : horizon ≤ now) (found : Option (Nat × Int)) :
    allowance horizon (some (entered now (found.filter (alive now)))) ≤ allowance horizon (found.filter (alive now)) := by
  cases kept : found.filter (alive now) with
  | none => simp [entered, allowance, late, windowSecs]
  | some entry =>
    have lives := (Option.filter_eq_some_iff.mp kept).2
    simp only [alive, decide_eq_true_eq] at lives
    have running : ¬ entry.2 + windowSecs ≤ now := by omega
    simp [entered, running]

section Step

variable {names : List String} {attempts : Attempts} {horizon : Int} {s : Section}

theorem find?_enter (few : names.length ≤ maxAttemptsMap) (inside : attempts.keys ⊆ names) (now : Int)
    (group other : String) :
    (enter iter now group attempts).2.find? other =
      if other = group then some (entered now ((attempts.find? group).filter (alive now)))
      else (attempts.find? other).filter (alive now) := by
  simp only [enter, Table.find?_upsert, find?_sweep few inside]
  split
  · cases (attempts.find? group).filter (alive now) <;> rfl
  · rfl

theorem enter_fst (few : names.length ≤ maxAttemptsMap) (inside : attempts.keys ⊆ names) (now : Int) (group : String) :
    (enter iter now group attempts).1 = entered now ((attempts.find? group).filter (alive now)) := by
  rw [enter, find?_sweep few inside]

variable (iter) in
theorem allowance_advance (few : names.length ≤ maxAttemptsMap) (inside : attempts.keys ⊆ names) {group : String}
    (late : horizon ≤ s.now) (soon : s.now < horizon + windowSecs) (kept : ¬ (s.phase = .reset ∧ s.group = group)) :
    (if s.group = group ∧ (perform iter s attempts).1 = true then 1 else 0) +
        allowance horizon ((advance iter attempts s).find? group) ≤ allowance horizon (attempts.find? group) := by
  have filtered := allowance_filter soon (attempts.find? group)
  have renewed := (allowance_entered late (attempts.find? group)).trans filtered
  obtain ⟨phase, now, name⟩ := s
  unfold advance perform
  cases phase with
  | check =>
    simp only [check, find?_enter few inside, Bool.false_eq_true, and_false, if_false, Nat.zero_add]
    by_cases same : group = name
    · subst same
      simpa using renewed
    · simpa [same] using filtered
  | count =>
    simp only [count, enter_fst few inside]
    by_cases same : group = name
    · subst same
      split
      · simpa [find?_enter few inside, Except.isOk, Except.toBool] using renewed
      · rename_i admitted
        simp only [Table.find?_modify, find?_enter few inside, if_true, Option.map_some, Except.isOk, Except.toBool,
          and_self]
        simp only [allowance] at renewed ⊢
        split at renewed <;> split <;> omega
    · have other : ¬ name = group := fun eq => same eq.symm
      split
      · simpa [find?_enter few inside, same, other] using filtered
      · simpa [find?_enter few inside, same, other, Table.find?_modify] using filtered
  | reset =>
    have other : ¬ group = name := fun eq => kept ⟨rfl, eq.symm⟩
    simpa [reset, other, find?_sweep few inside, Table.find?_modify] using filtered

end Step

/-- Within one window at most ten guesses at a password are admitted while none of them was right, in whatever order the
sections come; and five if the group was not tried before. -/
theorem guesses_le {names : List String} (few : names.length ≤ maxAttemptsMap) {group : String} {horizon : Int}
    {attempts : Attempts} {sections : List Section} (inside : attempts.keys ⊆ names)
    (each : ∀ s ∈ sections, s.group ∈ names ∧ horizon ≤ s.now ∧ s.now < horizon + windowSecs ∧
      ¬ (s.phase = .reset ∧ s.group = group)) :
    guesses iter group attempts sections ≤ 10 ∧
      (attempts.find? group = none → guesses iter group attempts sections ≤ 5) := by
  have bounded : guesses iter group attempts sections ≤ allowance horizon (attempts.find? group) := by
    induction sections generalizing attempts with
    | nil => exact Nat.zero_le _
    | cons s rest ih =>
      obtain ⟨⟨named, late, soon, kept⟩, later⟩ := List.forall_mem_cons.mp each
      have now := allowance_advance iter few inside late soon kept
      have after := ih (keys_perform_subset iter named inside) later
      exact (Nat.add_le_add_left after _).trans now
  constructor
  · refine bounded.trans ?_
    cases attempts.find? group with
    | none => exact (by decide : maxAttempts ≤ 10)
    | some entry =>
      simp only [allowance, maxAttempts]
      split <;> omega
  · intro fresh
    rw [fresh] at bounded
    exact bounded

theorem guesses_le_chess :
    guesses (fun t => t.rows.map fun row => (row.1, row.2.2)) "chess" Table.empty
        [⟨.check, 100, "chess"⟩, ⟨.count, 100, "chess"⟩, ⟨.count, 99, "chess"⟩] ≤ 10 ∧
      ((Table.empty : Attempts).find? "chess" = none →
        guesses (fun t => t.rows.map fun row => (row.1, row.2.2)) "chess" Table.empty
          [⟨.check, 100, "chess"⟩, ⟨.count, 100, "chess"⟩, ⟨.count, 99, "chess"⟩] ≤ 5) :=
  @guesses_le _ ["chess"] (by decide) "chess" 90 _ _ (List.nil_subset _) (by decide)

end Counting

end Soshal.Bridge.GroupPasswords
