import Soshal.Library.Encoding

/-! JSON arrays of strings, as `serde_json` writes and reads `Vec<String>`. -/

set_option autoImplicit false

namespace Soshal.Library.JsonStrings

open Library.Text Library.Encoding

def escape (c : Char) : List Char :=
  if c = '"' then ['\\', '"']
  else if c = '\\' then ['\\', '\\']
  else if c.toNat = 8 then ['\\', 'b']
  else if c.toNat = 9 then ['\\', 't']
  else if c.toNat = 10 then ['\\', 'n']
  else if c.toNat = 12 then ['\\', 'f']
  else if c.toNat = 13 then ['\\', 'r']
  else if c.toNat < 32 then ['\\', 'u', '0', '0', hexDigit (c.toNat / 16), hexDigit (c.toNat % 16)]
  else [c]

def quote (s : String) : List Char := '"' :: (s.toList.flatMap escape ++ ['"'])

/-- The elements after the first, and the closing bracket. -/
def writeTail : List String → List Char
  | [] => [']']
  | s :: rest => ',' :: (quote s ++ writeTail rest)

def writeElements : List String → List Char
  | [] => [']']
  | s :: rest => quote s ++ writeTail rest

def toJson (strings : List String) : String := String.ofList ('[' :: writeElements strings)

def hex4 (a b c d : Char) : Option Nat := do
  let a ← hexValue a
  let b ← hexValue b
  let c ← hexValue c
  let d ← hexValue d
  some (((a * 16 + b) * 16 + c) * 16 + d)

/-- The characters up to the closing quote and what follows it. -/
def readBody : List Char → Option (List Char × List Char)
  | [] => none
  | '"' :: rest => some ([], rest)
  | '\\' :: 'u' :: a :: b :: c :: d :: rest =>
    match hex4 a b c d with
    | none => none
    | some high =>
      if 0xDC00 ≤ high ∧ high < 0xE000 then none
      else if 0xD800 ≤ high ∧ high < 0xDC00 then
        match rest with
        | '\\' :: 'u' :: a' :: b' :: c' :: d' :: rest' =>
          match hex4 a' b' c' d' with
          | none => none
          | some low =>
            if 0xDC00 ≤ low ∧ low < 0xE000 then
              (readBody rest').map fun (cs, tail) =>
                (Char.ofNat (0x10000 + (high - 0xD800) * 0x400 + (low - 0xDC00)) :: cs, tail)
            else none
        | _ => none
      else (readBody rest).map fun (cs, tail) => (Char.ofNat high :: cs, tail)
  | '\\' :: e :: rest =>
    match e with
    | '"' => (readBody rest).map fun (cs, tail) => ('"' :: cs, tail)
    | '\\' => (readBody rest).map fun (cs, tail) => ('\\' :: cs, tail)
    | '/' => (readBody rest).map fun (cs, tail) => ('/' :: cs, tail)
    | 'b' => (readBody rest).map fun (cs, tail) => (Char.ofNat 8 :: cs, tail)
    | 't' => (readBody rest).map fun (cs, tail) => (Char.ofNat 9 :: cs, tail)
    | 'n' => (readBody rest).map fun (cs, tail) => (Char.ofNat 10 :: cs, tail)
    | 'f' => (readBody rest).map fun (cs, tail) => (Char.ofNat 12 :: cs, tail)
    | 'r' => (readBody rest).map fun (cs, tail) => (Char.ofNat 13 :: cs, tail)
    | _ => none
  | c :: rest =>
    if c.toNat < 32 ∨ c = '\\' then none else (readBody rest).map fun (cs, tail) => (c :: cs, tail)

def skipSpace (cs : List Char) : List Char :=
  cs.dropWhile fun c => c == ' ' || c == '\t' || c == '\n' || c == '\r'

/-- The elements from the first on; `fuel` bounds their number. -/
def readElements : Nat → List Char → Option (List String)
  | 0, _ => none
  | fuel + 1, cs =>
    match skipSpace cs with
    | '"' :: rest =>
      match readBody rest with
      | none => none
      | some (s, rest) =>
        match skipSpace rest with
        | ',' :: rest => (readElements fuel rest).map (String.ofList s :: ·)
        | ']' :: rest => if skipSpace rest = [] then some [String.ofList s] else none
        | _ => none
    | _ => none

def fromJson (s : String) : Option (List String) :=
  match skipSpace s.toList with
  | '[' :: rest =>
    match skipSpace rest with
    | ']' :: tail => if skipSpace tail = [] then some [] else none
    | _ => readElements rest.length rest
  | _ => none

theorem char_eq_ofNat (c : Char) {n : Nat} (same : c.toNat = n) : c = Char.ofNat n := by
  rw [← same, Char.ofNat_toNat]

theorem readBody_control {n : Nat} (small : n < 32) (rest : List Char) :
    readBody ('\\' :: 'u' :: '0' :: '0' :: hexDigit (n / 16) :: hexDigit (n % 16) :: rest) =
      (readBody rest).map fun (cs, tail) => (Char.ofNat n :: cs, tail) := by
  have value : hex4 '0' '0' (hexDigit (n / 16)) (hexDigit (n % 16)) = some n := by
    interval_cases n <;> rfl
  rw [readBody, value]
  dsimp only
  rw [if_neg (by omega), if_neg (by omega)]

theorem readBody_plain {c : Char} (quote : c ≠ '"') (backslash : c ≠ '\\') (printable : ¬ c.toNat < 32)
    (rest : List Char) : readBody (c :: rest) = (readBody rest).map fun (cs, tail) => (c :: cs, tail) := by
  rw [readBody]
  · rw [if_neg (by simp [printable, backslash])]
  · exact quote
  · exact fun _ _ _ _ _ same => absurd same backslash
  · exact fun _ _ same => absurd same backslash

theorem readBody_escape (c : Char) (rest : List Char) :
    readBody (escape c ++ rest) = (readBody rest).map fun (cs, tail) => (c :: cs, tail) := by
  unfold escape
  split_ifs with quote backslash b t n f r control
  · rw [quote]; rfl
  · rw [backslash]; rfl
  · rw [char_eq_ofNat c b]; rfl
  · rw [char_eq_ofNat c t]; rfl
  · rw [char_eq_ofNat c n]; rfl
  · rw [char_eq_ofNat c f]; rfl
  · rw [char_eq_ofNat c r]; rfl
  · have read := readBody_control control rest
    rw [Char.ofNat_toNat] at read
    exact read
  · exact readBody_plain quote backslash control rest

theorem readBody_flatMap (cs rest : List Char) :
    readBody (cs.flatMap escape ++ '"' :: rest) = some (cs, rest) := by
  induction cs with
  | nil => rfl
  | cons c cs ih => rw [List.flatMap_cons, List.append_assoc, readBody_escape, ih]; rfl

theorem quote_append (s : String) (rest : List Char) :
    quote s ++ rest = '"' :: (s.toList.flatMap escape ++ '"' :: rest) := by
  simp [quote]

theorem readElements_quote (fuel : Nat) (s : String) (rest : List Char) :
    readElements (fuel + 1) (quote s ++ rest) =
      match skipSpace rest with
      | ',' :: rest => (readElements fuel rest).map (s :: ·)
      | ']' :: rest => if skipSpace rest = [] then some [s] else none
      | _ => none := by
  have start : skipSpace (quote s ++ rest) = '"' :: (s.toList.flatMap escape ++ '"' :: rest) := by
    rw [quote_append]
    rfl
  rw [readElements, start]
  simp only [readBody_flatMap, String.ofList_toList]

theorem readElements_writeTail (strings : List String) (s : String) {fuel : Nat} (enough : strings.length < fuel) :
    readElements fuel (quote s ++ writeTail strings) = some (s :: strings) := by
  induction strings generalizing s fuel with
  | nil =>
    obtain ⟨fuel, rfl⟩ := Nat.exists_eq_succ_of_ne_zero (Nat.ne_of_gt (Nat.zero_lt_of_lt enough))
    rw [readElements_quote]
    rfl
  | cons next rest ih =>
    obtain ⟨fuel, rfl⟩ := Nat.exists_eq_succ_of_ne_zero (Nat.ne_of_gt (Nat.zero_lt_of_lt enough))
    have comma : skipSpace (writeTail (next :: rest)) = ',' :: (quote next ++ writeTail rest) := rfl
    simp only [Nat.succ_eq_add_one, readElements_quote, comma]
    rw [ih next (by simpa using enough)]
    rfl

theorem length_writeTail (strings : List String) : strings.length < (writeTail strings).length := by
  induction strings with
  | nil => simp [writeTail]
  | cons s rest ih => simp [writeTail]; omega

@[simp] theorem fromJson_toJson (strings : List String) : fromJson (toJson strings) = some strings := by
  cases strings with
  | nil => rfl
  | cons s rest =>
    have start : skipSpace (toJson (s :: rest)).toList = '[' :: (quote s ++ writeTail rest) := by
      rw [toJson, String.toList_ofList]
      rfl
    have first : skipSpace (quote s ++ writeTail rest) =
        '"' :: (s.toList.flatMap escape ++ '"' :: writeTail rest) := by
      rw [quote_append]
      rfl
    have enough : rest.length < (quote s ++ writeTail rest).length := by
      have := length_writeTail rest
      simp only [List.length_append]
      omega
    simp only [fromJson, start, first]
    exact readElements_writeTail rest s enough

theorem toJson_inj {first second : List String} (same : toJson first = toJson second) : first = second := by
  have read := fromJson_toJson first
  rw [same, fromJson_toJson, Option.some.injEq] at read
  exact read.symm

theorem writeElements_last (strings : List String) : (writeElements strings).getLast? = some ']' := by
  have tail : ∀ strings, (writeTail strings).getLast? = some ']' := by
    intro strings
    induction strings with
    | nil => rfl
    | cons s rest ih => rw [writeTail, List.getLast?_cons, List.getLast?_append, ih]; rfl
  cases strings with
  | nil => rfl
  | cons s rest => rw [writeElements, List.getLast?_append, tail]; rfl

theorem trim_toJson (strings : List String) : trim (toJson strings) = toJson strings := by
  have ends : trimList ('[' :: writeElements strings) = '[' :: writeElements strings := by
    refine trimList_of_ends ?_ ?_
    · intro c found
      obtain rfl : '[' = c := by simpa using found
      rfl
    · intro c found
      rw [List.getLast?_cons, writeElements_last] at found
      obtain rfl : ']' = c := by simpa using found
      rfl
  rw [trim, toJson, String.toList_ofList, ends]

theorem startsWith_toJson (strings : List String) : startsWith (toJson strings) "[" = true := by
  simp [startsWith, toJson]

end Soshal.Library.JsonStrings
