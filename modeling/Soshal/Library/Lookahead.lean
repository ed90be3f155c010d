import Soshal.Library.IpAddr

/-! Readers of a text that do not look past a separator.

A reader that is blind behind a character reads the text before it as if the text
ended there. A reader that takes something from the front of a text and stops at such
a character has so read all that stands before the character.
-/

set_option autoImplicit false

namespace Soshal.Library.Lookahead

open Numerals

variable {α β : Type}

/-- What stands behind the character does not show in what is read before it. -/
def Blind (d : Char) (read : List Char → Option (α × List Char)) : Prop :=
  ∀ cs more, read (cs ++ d :: more) = (read cs).map fun (a, rest) => (a, rest ++ d :: more)

/-- What is left over is the end of the text. -/
def Consumes (read : List Char → Option (α × List Char)) : Prop := ∀ cs a rest, read cs = some (a, rest) → rest <:+ cs

theorem Blind.stops {d : Char} {read : List Char → Option (α × List Char)} (blind : Blind d read)
    (consumes : Consumes read) {cs more : List Char} {a : α} (found : read cs = some (a, d :: more)) :
    ∃ used, cs = used ++ d :: more ∧ read used = some (a, []) := by
  obtain ⟨used, split⟩ := consumes cs a _ found
  refine ⟨used, split.symm, ?_⟩
  rw [← split, blind used more] at found
  cases before : read used with
  | none => simp [before] at found
  | some result =>
    obtain ⟨b, rest⟩ := result
    simp only [before, Option.map_some, Option.some.injEq, Prod.mk.injEq] at found
    obtain ⟨rfl, same⟩ := found
    rw [List.append_left_eq_self.mp same]

theorem takeWhile_append_stop {p : Char → Bool} {d : Char} (stop : p d = false) (cs more : List Char) :
    (cs ++ d :: more).takeWhile p = cs.takeWhile p := by
  induction cs with
  | nil => simp [stop]
  | cons c rest ih =>
    by_cases inside : p c = true
    · simp [inside, ih]
    · simp [inside]

theorem blind_readNumber {d : Char} {radix : Nat} (stop : isDigitIn radix d = false) (maxDigits : Nat)
    (allowZeroPrefix : Bool) (most : Nat) : Blind d (readNumber radix maxDigits allowZeroPrefix most) := by
  intro cs more
  have short : (cs.takeWhile (isDigitIn radix)).length ≤ cs.length := (List.takeWhile_prefix _).length_le
  unfold readNumber
  rw [takeWhile_append_stop stop]
  dsimp only
  split_ifs
  · rfl
  · rfl
  · rw [List.drop_append_of_le_length short]
    rfl

theorem consumes_readNumber (radix maxDigits : Nat) (allowZeroPrefix : Bool) (most : Nat) :
    Consumes (readNumber radix maxDigits allowZeroPrefix most) := by
  intro cs a rest found
  unfold readNumber at found
  dsimp only at found
  split_ifs at found
  obtain ⟨-, rfl⟩ := Prod.mk.inj (Option.some.inj found)
  exact List.drop_suffix _ cs

theorem blind_readSeparator {d separator : Char} (other : d ≠ separator) (first : Bool)
    {inner : List Char → Option (α × List Char)} (blind : Blind d inner) :
    Blind d (readSeparator separator first inner) := by
  intro cs more
  cases first with
  | true => exact blind cs more
  | false =>
    cases cs with
    | nil => simp [readSeparator, other]
    | cons c rest =>
      simp only [readSeparator, List.cons_append, Bool.false_eq_true, if_false]
      split_ifs
      · exact blind rest more
      · rfl

theorem consumes_readSeparator (separator : Char) (first : Bool) {inner : List Char → Option (α × List Char)}
    (consumes : Consumes inner) : Consumes (readSeparator separator first inner) := by
  intro cs a rest found
  cases first with
  | true => exact consumes cs a rest found
  | false =>
    cases cs with
    | nil => cases found
    | cons c more =>
      simp only [readSeparator, Bool.false_eq_true, if_false] at found
      split_ifs at found
      exact (consumes more a rest found).trans (List.suffix_cons c more)

theorem blind_bind {d : Char} {read : List Char → Option (α × List Char)}
    {next : α → List Char → Option (β × List Char)} (blind : Blind d read) (later : ∀ a, Blind d (next a)) :
    Blind d fun cs => read cs >>= fun (a, rest) => next a rest := by
  intro cs more
  simp only [blind cs more, Option.bind_eq_bind, Option.bind_map, Option.map_bind]
  refine Option.bind_congr fun result _ => ?_
  exact later result.1 result.2 more

theorem consumes_bind {read : List Char → Option (α × List Char)} {next : α → List Char → Option (β × List Char)}
    (consumes : Consumes read) (later : ∀ a, Consumes (next a)) :
    Consumes fun cs => read cs >>= fun (a, rest) => next a rest := by
  intro cs b rest found
  obtain ⟨⟨a, between⟩, first, second⟩ := Option.bind_eq_some_iff.mp found
  exact (later a between b rest second).trans (consumes cs a between first)

theorem blind_pure (d : Char) (a : α) : Blind d fun cs => some (a, cs) := fun _ _ => rfl

theorem consumes_pure (a : α) : Consumes fun cs => some (a, cs) := by
  intro cs b rest found
  obtain ⟨rfl, rfl⟩ := Prod.mk.inj (Option.some.inj found)
  exact List.suffix_refl cs

/-- No part of an address, and no separator in one. -/
structure Foreign (d : Char) : Prop where
  hex : isDigitIn 16 d = false
  decimal : isDigitIn 10 d = false
  dot : d ≠ '.'

theorem blind_readIpv4Addr {d : Char} (foreign : Foreign d) : Blind d readIpv4Addr := by
  have octet (first : Bool) : Blind d (readSeparator '.' first readOctet) :=
    blind_readSeparator foreign.dot first (blind_readNumber foreign.decimal 3 false 255)
  unfold readIpv4Addr
  exact blind_bind (octet true) fun a => blind_bind (octet false) fun b => blind_bind (octet false) fun c =>
    blind_bind (octet false) fun last => blind_pure d (⟨.ofNat a, .ofNat b, .ofNat c, .ofNat last⟩ : Ipv4Addr)

theorem consumes_readIpv4Addr : Consumes readIpv4Addr := by
  have octet (first : Bool) : Consumes (readSeparator '.' first readOctet) :=
    consumes_readSeparator '.' first (consumes_readNumber 10 3 false 255)
  unfold readIpv4Addr
  exact consumes_bind (octet true) fun a => consumes_bind (octet false) fun b => consumes_bind (octet false) fun c =>
    consumes_bind (octet false) fun d => consumes_pure (⟨.ofNat a, .ofNat b, .ofNat c, .ofNat d⟩ : Ipv4Addr)

theorem readGroups_append {d : Char} (foreign : Foreign d) (colon : d ≠ ':') (left : Nat) (first : Bool)
    (cs more : List Char) :
    readGroups left first (cs ++ d :: more) =
      ((readGroups left first cs).1, (readGroups left first cs).2.1, (readGroups left first cs).2.2 ++ d :: more) := by
  induction left generalizing first cs with
  | zero => rfl
  | succ left ih =>
    have v4 := blind_readSeparator colon first (blind_readIpv4Addr foreign) cs more
    have group := blind_readSeparator colon first (blind_readNumber foreign.hex 4 true 65535) cs more
    have embedded : (if left = 0 then none else readSeparator ':' first readIpv4Addr (cs ++ d :: more)) =
        (if left = 0 then none else readSeparator ':' first readIpv4Addr cs).map fun (a, rest) =>
          (a, rest ++ d :: more) := by
      split_ifs
      · rfl
      · exact v4
    simp only [readGroups, embedded, group]
    cases if left = 0 then none else readSeparator ':' first readIpv4Addr cs with
    | some result => rfl
    | none =>
      cases readSeparator ':' first (readNumber 16 4 true 65535) cs with
      | none => rfl
      | some result => simp only [Option.map_none, Option.map_some, ih]

theorem suffix_readGroups (left : Nat) (first : Bool) (cs : List Char) : (readGroups left first cs).2.2 <:+ cs := by
  induction left generalizing first cs with
  | zero => exact List.suffix_refl cs
  | succ left ih =>
    unfold readGroups
    cases embedded : if left = 0 then none else readSeparator ':' first readIpv4Addr cs with
    | some result =>
      split_ifs at embedded
      exact consumes_readSeparator ':' first consumes_readIpv4Addr cs result.1 result.2 embedded
    | none =>
      cases group : readSeparator ':' first (readNumber 16 4 true 65535) cs with
      | none => exact List.suffix_refl cs
      | some result =>
        have consumed :=
          consumes_readSeparator ':' first (consumes_readNumber 16 4 true 65535) cs result.1 result.2 group
        exact (ih false result.2).trans consumed

theorem blind_readIpv6Addr {d : Char} (foreign : Foreign d) (colon : d ≠ ':') : Blind d readIpv6Addr := by
  intro cs more
  simp only [readIpv6Addr, readGroups_append foreign colon]
  obtain ⟨head, v4, rest⟩ := readGroups 8 true cs
  dsimp only
  split_ifs
  · rw [Option.map_map]
    rfl
  · rfl
  · -- Only two colons lead on, and the separator is none of them.
    match rest with
    | [] =>
      split
      · rename_i same
        exact absurd (List.cons.inj same).1 colon
      · rfl
    | [c] =>
      split
      · rename_i same
        exact absurd (List.cons.inj (List.cons.inj same).2).1 colon
      · split
        · rename_i same
          exact nomatch (List.cons.inj same).2
        · rfl
    | first :: second :: rest =>
      by_cases both : first = ':' ∧ second = ':'
      · obtain ⟨rfl, rfl⟩ := both
        simp only [List.cons_append, readGroups_append foreign colon, Option.map_map]
        rfl
      · split
        · rename_i same
          obtain ⟨rfl, tail⟩ := List.cons.inj same
          exact absurd ⟨rfl, (List.cons.inj tail).1⟩ both
        · split
          · rename_i same
            obtain ⟨rfl, tail⟩ := List.cons.inj same
            exact absurd ⟨rfl, (List.cons.inj tail).1⟩ both
          · rfl

theorem consumes_readIpv6Addr : Consumes readIpv6Addr := by
  intro cs a rest found
  have suffix := suffix_readGroups 8 true cs
  unfold readIpv6Addr at found
  dsimp only at found
  split_ifs at found
  · obtain ⟨_, _, same⟩ := Option.map_eq_some_iff.mp found
    obtain ⟨-, rfl⟩ := Prod.mk.inj same
    exact suffix
  · split at found
    · rename_i tail between
      obtain ⟨_, _, same⟩ := Option.map_eq_some_iff.mp found
      obtain ⟨-, rfl⟩ := Prod.mk.inj same
      have inner := suffix_readGroups (8 - ((readGroups 8 true cs).1.length + 1)) true tail
      rw [between] at suffix
      exact inner.trans (((List.suffix_cons ':' tail).trans (List.suffix_cons ':' _)).trans suffix)
    · cases found

end Soshal.Library.Lookahead
