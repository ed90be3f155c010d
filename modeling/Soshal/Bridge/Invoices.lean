import Soshal.Bridge.Zap
import Soshal.Library.Fallible
import Soshal.Library.Numerals

/-! The amounts of BOLT-11 invoices.

An invoice names its network, may name an amount, and after a separator carries data
that the amount has nothing to do with. The multiplier letter of an amount ends its
digits. The separator is a digit itself: where there is no multiplier, the separator
and the digits that the data begins with are read into the amount.
-/

set_option autoImplicit false

namespace Soshal.Bridge.Zap

open Library
open Library.Numerals (numeral digits_numeral)
open Library.Text (byteLen hexDigit startsWith stripPrefix toAsciiLowercase)

inductive Network where
  | lnbc
  | lntb
  | lnbcrt
  | lnsb
  deriving DecidableEq

def Network.prefixText : Network → String
  | .lnbc => "lnbc"
  | .lntb => "lntb"
  | .lnbcrt => "lnbcrt"
  | .lnsb => "lnsb"

inductive Multiplier where
  | milli
  | micro
  | nano
  | pico
  deriving DecidableEq

def Multiplier.letter : Multiplier → Char
  | .milli => 'm'
  | .micro => 'u'
  | .nano => 'n'
  | .pico => 'p'

/-- In millionths of a millionth of a bitcoin, ten of which are a millisatoshi. -/
def Multiplier.picoBtc : Multiplier → Nat
  | .milli => 10 ^ 9
  | .micro => 10 ^ 6
  | .nano => 10 ^ 3
  | .pico => 1

abbrev Amount := Nat × Option Multiplier

def Amount.text (amount : Amount) : List Char := numeral 10 amount.1 ++ (amount.2.map Multiplier.letter).toList

def Amount.picoBtc (amount : Amount) : Nat := amount.1 * amount.2.elim (10 ^ 12) Multiplier.picoBtc

def bech32Alphabet : List Char := "qpzry9x8gf2tvdw0s3jn54khce6mua7l".toList

def isBech32 (data : List Char) : Bool := data.all fun c => bech32Alphabet.contains c

variable (network : Network) (amount : Option Amount) (data : List Char)

def invoice : String :=
  network.prefixText ++ String.ofList ((amount.map Amount.text).getD [] ++ '1' :: data)

/-- The amount is read exactly, and refused only where it is no whole number of millisatoshis or above the cap. -/
def ReadsAmount (bolt11 : String) (picoBtc : Nat) : Prop :=
  match parseMsatsFromBolt11 bolt11 with
  | .ok msats => msats.toNat * 10 = picoBtc
  | .error _ => ¬ 10 ∣ picoBtc ∨ maxParseBolt11Msats * 10 < picoBtc

def checkMsats (msats : Nat) : Except String UInt64 :=
  if msats ≥ 2 ^ 64 then .error "BOLT-11 amount exceeds u64 msat range"
  else if msats > maxParseBolt11Msats then
    .error ("BOLT-11 amount exceeds zap cap (" ++ toString maxParseBolt11Msats ++ " msat)")
  else .ok (UInt64.ofNat msats)

def readAmount (rest : List Char) : Except String UInt64 := do
  let (amount, digitLen) ← leadingAmount 0 0 rest
  if digitLen = 0 then .ok 0
  else
    let msats ← scaledMsats amount rest[digitLen]?
    checkMsats msats

theorem stripNetwork {rest : List Char} (plain : rest.head? ≠ some 'r') :
    (stripPrefix (network.prefixText ++ String.ofList rest) "lnbcrt").or
        ((stripPrefix (network.prefixText ++ String.ofList rest) "lnbc").or
          ((stripPrefix (network.prefixText ++ String.ofList rest) "lntb").or
            (stripPrefix (network.prefixText ++ String.ofList rest) "lnsb"))) = some (String.ofList rest) := by
  cases network with
  | lnbcrt =>
    rw [Network.prefixText, Text.stripPrefix_append, Option.some_or]
  | lnbc =>
    have other : startsWith ("lnbc" ++ String.ofList rest) "lnbcrt" = false := by
      simp only [startsWith, String.toList_append, String.toList_ofList]
      cases rest with
      | nil => decide
      | cons c rest =>
        have differs : ('r' == c) = false := beq_false_of_ne fun same => plain (by rw [same]; rfl)
        change List.isPrefixOf ['l', 'n', 'b', 'c', 'r', 't'] ('l' :: 'n' :: 'b' :: 'c' :: c :: rest) = false
        simp [List.isPrefixOf, differs]
    rw [Network.prefixText, Text.stripPrefix_eq_none other, Option.none_or, Text.stripPrefix_append, Option.some_or]
  | lntb =>
    have other := @Text.startsWith_append_of_ne "lntb" "lnbcrt" (String.ofList rest) (by decide) (by decide)
    have another := @Text.startsWith_append_of_ne "lntb" "lnbc" (String.ofList rest) (by decide) (by decide)
    rw [Network.prefixText, Text.stripPrefix_eq_none other, Text.stripPrefix_eq_none another, Option.none_or,
      Option.none_or, Text.stripPrefix_append, Option.some_or]
  | lnsb =>
    have other := @Text.startsWith_append_of_ne "lnsb" "lnbcrt" (String.ofList rest) (by decide) (by decide)
    have another := @Text.startsWith_append_of_ne "lnsb" "lnbc" (String.ofList rest) (by decide) (by decide)
    have third := @Text.startsWith_append_of_ne "lnsb" "lntb" (String.ofList rest) (by decide) (by decide)
    rw [Network.prefixText, Text.stripPrefix_eq_none other, Text.stripPrefix_eq_none another,
      Text.stripPrefix_eq_none third, Option.none_or, Option.none_or, Option.none_or, Text.stripPrefix_append]

theorem toLower_network (rest : List Char) : toAsciiLowercase (network.prefixText ++ String.ofList rest) =
      network.prefixText ++ String.ofList (rest.map Char.toLower) := by
  have plain : network.prefixText.toList.map Char.toLower = network.prefixText.toList := by
    cases network <;> decide
  apply String.toList_injective
  rw [toAsciiLowercase, String.toList_ofList, String.toList_append, List.map_append, plain, String.toList_append,
    String.toList_ofList, String.toList_ofList]

theorem prefixText_ne_empty (rest : String) : (network.prefixText ++ rest).isEmpty = false := by
  have chars : (network.prefixText ++ rest).toList ≠ [] := by
    rw [String.toList_append]
    cases network <;> exact List.cons_ne_nil _ _
  rw [Bool.eq_false_iff, Ne, String.isEmpty_iff]
  rintro empty
  rw [empty] at chars
  exact chars rfl

theorem parse_network {rest : List Char}
    (short : byteLen (network.prefixText ++ String.ofList rest) ≤ 4096)
    (plain : (rest.map Char.toLower).head? ≠ some 'r') :
    parseMsatsFromBolt11 (network.prefixText ++ String.ofList rest) = readAmount (rest.map Char.toLower) := by
  have readable : ¬ (byteLen (network.prefixText ++ String.ofList rest) > 4096 ∨
      (network.prefixText ++ String.ofList rest).isEmpty = true) := by
    rw [prefixText_ne_empty]
    simpa using short
  rw [parseMsatsFromBolt11, if_neg readable]
  simp only [toLower_network, stripNetwork network plain, String.toList_ofList]
  rfl

def digitsValue (ds : List Nat) : Nat := ds.foldl (fun amount d => amount * 10 + d) 0

theorem foldl_digits_lt {ds : List Nat} (digits : ∀ d ∈ ds, d < 10) {amount width : Nat} (below : amount < 10 ^ width) :
    ds.foldl (fun amount d => amount * 10 + d) amount < 10 ^ (width + ds.length) := by
  induction ds generalizing amount width with
  | nil => exact below
  | cons d ds ih =>
    have digit := digits d List.mem_cons_self
    have next : amount * 10 + d < 10 ^ (width + 1) := by
      rw [Nat.pow_succ]
      omega
    have rest := ih (fun d member => digits d (List.mem_cons_of_mem _ member)) next
    rw [List.length_cons, Nat.add_comm ds.length, ← Nat.add_assoc]
    exact rest

theorem hexDigit_decimal {d : Nat} (digit : d < 10) :
    (hexDigit d).isDigit = true ∧ (hexDigit d).toNat - 48 = d ∧ (hexDigit d).toLower = hexDigit d := by
  interval_cases d <;> decide

theorem leadingAmount_digits {ds : List Nat} (digits : ∀ d ∈ ds, d < 10) {tail : List Char}
    (stop : ∀ c, tail.head? = some c → c.isDigit = false) {amount digitLen : Nat} (below : amount < 10 ^ digitLen)
    (room : digitLen ≤ 18) :
    leadingAmount amount digitLen (ds.map hexDigit ++ tail) =
      if digitLen + ds.length ≤ 18 then .ok (ds.foldl (fun amount d => amount * 10 + d) amount, digitLen + ds.length)
      else .error "BOLT-11 amount exceeds range" := by
  induction ds generalizing amount digitLen with
  | nil =>
    rw [List.map_nil, List.nil_append, List.length_nil, Nat.add_zero, if_pos room, List.foldl_nil]
    cases tail with
    | nil => rfl
    | cons c tail => rw [leadingAmount, if_neg (by rw [stop c rfl]; exact Bool.false_ne_true)]
  | cons d ds ih =>
    have digit := digits d List.mem_cons_self
    obtain ⟨recognised, read, -⟩ := hexDigit_decimal digit
    have next : amount * 10 + d < 10 ^ (digitLen + 1) := by
      rw [Nat.pow_succ]
      omega
    have small : amount * 10 + d < 2 ^ 128 := by
      have most : 10 ^ (digitLen + 1) ≤ 10 ^ 19 := Nat.pow_le_pow_right (by omega) (by omega)
      omega
    rw [List.map_cons, List.cons_append, leadingAmount, if_pos recognised]
    dsimp only
    rw [read, if_neg (Nat.not_le.mpr small), List.length_cons, List.foldl_cons]
    -- The nineteenth digit ends the reading, before the sum can overflow.
    by_cases last : digitLen + 1 > 18
    · rw [if_pos last, if_neg (by omega)]
    · rw [if_neg last, ih (fun d member => digits d (List.mem_cons_of_mem _ member)) next (by omega)]
      simp only [Nat.add_assoc, Nat.add_comm 1]

theorem readAmount_digits {ds : List Nat} (digits : ∀ d ∈ ds, d < 10) (nonempty : ds ≠ []) {tail : List Char}
    (stop : ∀ c, tail.head? = some c → c.isDigit = false) :
    readAmount (ds.map hexDigit ++ tail) =
      if ds.length ≤ 18 then scaledMsats (digitsValue ds) tail.head? >>= checkMsats
      else .error "BOLT-11 amount exceeds range" := by
  have read := @leadingAmount_digits ds digits tail stop 0 0 (by decide) (by decide)
  rw [Nat.zero_add] at read
  unfold readAmount
  rw [read]
  have some_digits : ds.length ≠ 0 := fun none => nonempty (List.eq_nil_of_length_eq_zero none)
  split
  · have unit : (ds.map hexDigit ++ tail)[ds.length]? = tail.head? := by
      rw [List.getElem?_append_right (by simp), List.length_map, Nat.sub_self, List.head?_eq_getElem?]
    simp only [bind, Except.bind, if_neg some_digits, unit, digitsValue]
  · rfl

theorem scaledMsats_letter (n : Nat) (multiplier : Multiplier) :
    scaledMsats n (some multiplier.letter) =
      if 10 ∣ n * multiplier.picoBtc then .ok (n * multiplier.picoBtc / 10)
      else .error "BOLT-11 pico amount below msat resolution" := by
  cases multiplier with
  | pico =>
    simp only [Multiplier.letter, Multiplier.picoBtc, scaledMsats, Nat.mul_one, Nat.dvd_iff_mod_eq_zero, ite_not]
  | milli | micro | nano =>
    rw [if_pos (Dvd.dvd.mul_left (by decide) n), Multiplier.letter, Multiplier.picoBtc, scaledMsats]
    simp only [multM, multU, multN]
    congr 1
    omega

theorem checkMsats_eq (msats : Nat) :
    (msats ≤ maxParseBolt11Msats ∧ ∃ read, checkMsats msats = .ok read ∧ read.toNat = msats) ∨
      (maxParseBolt11Msats < msats ∧ ∃ e, checkMsats msats = .error e) := by
  unfold checkMsats
  by_cases huge : msats ≥ 2 ^ 64
  · rw [if_pos huge]
    exact .inr ⟨lt_of_lt_of_le (by decide) huge, _, rfl⟩
  · rw [if_neg huge]
    by_cases above : msats > maxParseBolt11Msats
    · rw [if_pos above]
      exact .inr ⟨above, _, rfl⟩
    · rw [if_neg above]
      exact .inl ⟨Nat.not_lt.mp above, _, rfl, UInt64.toNat_ofNat_of_lt (Nat.not_le.mp huge)⟩

/-- A scaled amount is read to the millisatoshi, or refused as it is none or above the cap. -/
theorem readAmount_scaled (n : Nat) (multiplier : Multiplier) {tail : List Char} :
    readAmount (numeral 10 n ++ multiplier.letter :: tail) = readAmount (Amount.text (n, some multiplier)) ∧
      ((10 ∣ n * multiplier.picoBtc ∧ n * multiplier.picoBtc ≤ maxParseBolt11Msats * 10 ∧
          ∃ msats, readAmount (Amount.text (n, some multiplier)) = .ok msats ∧
            msats.toNat * 10 = n * multiplier.picoBtc) ∨
        ((¬ 10 ∣ n * multiplier.picoBtc ∨ maxParseBolt11Msats * 10 < n * multiplier.picoBtc) ∧
          ∃ e, readAmount (Amount.text (n, some multiplier)) = .error e)) := by
  obtain ⟨ds, written, digits, nonempty, value, width, -⟩ := @digits_numeral 10 (by omega) n
  have stop : ∀ tail : List Char, ∀ c, (multiplier.letter :: tail).head? = some c → c.isDigit = false := by
    rintro tail c same
    cases same
    cases multiplier <;> decide
  have reading (tail : List Char) : readAmount (numeral 10 n ++ multiplier.letter :: tail) =
      if ds.length ≤ 18 then scaledMsats n (some multiplier.letter) >>= checkMsats
      else .error "BOLT-11 amount exceeds range" := by
    rw [written, readAmount_digits digits nonempty (stop tail), digitsValue, value]
    rfl
  have alone : readAmount (Amount.text (n, some multiplier)) =
      if ds.length ≤ 18 then scaledMsats n (some multiplier.letter) >>= checkMsats
      else .error "BOLT-11 amount exceeds range" := reading []
  refine ⟨(reading tail).trans alone.symm, ?_⟩
  rw [alone, scaledMsats_letter]
  have unit : 1 ≤ multiplier.picoBtc := by cases multiplier <;> decide
  by_cases fits : ds.length ≤ 18
  · rw [if_pos fits]
    by_cases whole : 10 ∣ n * multiplier.picoBtc
    · rw [if_pos whole]
      have exact_part := Nat.div_mul_cancel whole
      obtain ⟨within, msats, checked, same⟩ | ⟨above, e, checked⟩ := checkMsats_eq (n * multiplier.picoBtc / 10)
      · exact .inl ⟨whole, by omega, msats, checked, by rw [same, exact_part]⟩
      · exact .inr ⟨.inr (by omega), e, checked⟩
    · rw [if_neg whole]
      exact .inr ⟨.inl whole, _, rfl⟩
  · -- More than eighteen digits are more than the cap in any unit.
    rw [if_neg fits]
    have large : 10 ^ 18 ≤ n := by
      by_contra small
      exact fits (width 18 (by omega) (Nat.not_le.mp small))
    have scaled : n * 1 ≤ n * multiplier.picoBtc := Nat.mul_le_mul_left n unit
    have cap : maxParseBolt11Msats * 10 < 10 ^ 18 := by decide
    exact .inr ⟨.inr (by omega), _, rfl⟩

theorem lower_numeral (n : Nat) : (numeral 10 n).map Char.toLower = numeral 10 n := by
  obtain ⟨ds, written, digits, -⟩ := @digits_numeral 10 (by omega) n
  rw [written, List.map_map]
  exact List.map_congr_left fun d member => (hexDigit_decimal (digits d member)).2.2

theorem head_digits {ds : List Nat} (digits : ∀ d ∈ ds, d < 10) (nonempty : ds ≠ []) (tail : List Char) :
    (ds.map hexDigit ++ tail).head? ≠ some 'r' := by
  cases ds with
  | nil => exact absurd rfl nonempty
  | cons d ds =>
    intro same
    have letter : hexDigit d = 'r' := Option.some.inj same
    have digit := (hexDigit_decimal (digits d List.mem_cons_self)).1
    rw [letter] at digit
    exact absurd digit (by decide)

theorem parse_scaled {network : Network} {n : Nat} {multiplier : Multiplier} {data : List Char}
    (short : byteLen (invoice network (some (n, some multiplier)) data) ≤ 4096) :
    parseMsatsFromBolt11 (invoice network (some (n, some multiplier)) data) =
      readAmount (Amount.text (n, some multiplier)) := by
  have lower : (Amount.text (n, some multiplier) ++ '1' :: data).map Char.toLower =
      numeral 10 n ++ multiplier.letter :: ('1' :: data).map Char.toLower := by
    have letter : multiplier.letter.toLower = multiplier.letter := by cases multiplier <;> decide
    rw [List.map_append, Amount.text, List.map_append, lower_numeral, List.append_assoc]
    simp only [Option.map_some, Option.toList_some, List.map_cons, List.map_nil, letter, List.singleton_append]
  have plain : ((Amount.text (n, some multiplier) ++ '1' :: data).map Char.toLower).head? ≠ some 'r' := by
    obtain ⟨ds, written, digits, nonempty, -⟩ := @digits_numeral 10 (by omega) n
    rw [lower, written]
    exact head_digits digits nonempty _
  have read := parse_network network short plain
  simp only [Option.map_some, Option.getD_some] at read
  rw [lower, (readAmount_scaled n multiplier).1] at read
  exact read

theorem invoice_not_empty : (invoice network amount data).isEmpty = false := prefixText_ne_empty network _

theorem parse_overlong {bolt11 : String} (long : 4096 < byteLen bolt11) :
    parseMsatsFromBolt11 bolt11 = .ok 0 ∧ validatePayInvoice bolt11 = .error "invalid bolt11 invoice" := by
  constructor
  · rw [parseMsatsFromBolt11, if_pos (.inl long)]
  · rw [validatePayInvoice, if_pos (.inr long)]

theorem validatePayInvoice_scaled {network : Network} {n : Nat} {multiplier : Multiplier} {data : List Char}
    (short : byteLen (invoice network (some (n, some multiplier)) data) ≤ 4096) :
    validatePayInvoice (invoice network (some (n, some multiplier)) data) = .ok () ↔
      0 < n ∧ 10 ∣ n * multiplier.picoBtc ∧ n * multiplier.picoBtc ≤ nwcMaxPaySats * 1000 * 10 := by
  have readable : ¬ ((invoice network (some (n, some multiplier)) data).isEmpty = true ∨
      byteLen (invoice network (some (n, some multiplier)) data) > 4096) := by
    rw [invoice_not_empty]
    simpa using short
  rw [validatePayInvoice, if_neg readable, parse_scaled short]
  have unit : 0 < multiplier.picoBtc := by cases multiplier <;> decide
  obtain ⟨whole, -, msats, same, amount⟩ | ⟨refused, e, same⟩ := (@readAmount_scaled n multiplier []).2
  · rw [same]
    dsimp only
    by_cases nothing : msats = 0
    · have zero : n * multiplier.picoBtc = 0 := by
        rw [← amount, nothing]
        rfl
      have none : n = 0 := (Nat.mul_eq_zero.mp zero).resolve_right (Nat.ne_of_gt unit)
      rw [if_pos nothing]
      simp [none]
    · have positive : 0 < n := by
        by_contra none
        have zero : n = 0 := by omega
        rw [zero, Nat.zero_mul] at amount
        exact nothing (UInt64.toNat_inj.mp (by simpa using amount))
      rw [if_neg nothing]
      by_cases above : msats.toNat > nwcMaxPaySats * 1000
      · rw [if_pos above]
        refine iff_of_false nofun fun allowed => ?_
        have bound := allowed.2.2
        omega
      · rw [if_neg above]
        exact iff_of_true rfl ⟨positive, whole, by omega⟩
  · rw [same]
    refine iff_of_false nofun fun allowed => ?_
    have cap : nwcMaxPaySats * 1000 ≤ maxParseBolt11Msats := by decide
    obtain split | large := refused
    · exact split allowed.2.1
    · have bound := allowed.2.2
      omega

/-- What an invoice with a multiplier is read as and paid up to does not depend on its data: the amount is exact, and
the cap of a payment holds for it. An invoice that is too long reads as no amount and is not paid. -/
theorem scaled_invoice_amount (network : Network) (data : List Char) :
    (∀ n multiplier, byteLen (invoice network (some (n, some multiplier)) data) ≤ 4096 →
      ReadsAmount (invoice network (some (n, some multiplier)) data) (Amount.picoBtc (n, some multiplier)) ∧
      (∀ other, byteLen (invoice network (some (n, some multiplier)) other) ≤ 4096 →
        parseMsatsFromBolt11 (invoice network (some (n, some multiplier)) other) =
          parseMsatsFromBolt11 (invoice network (some (n, some multiplier)) data)) ∧
      (validatePayInvoice (invoice network (some (n, some multiplier)) data) = .ok () ↔
        0 < n ∧ 10 ∣ Amount.picoBtc (n, some multiplier) ∧
          Amount.picoBtc (n, some multiplier) ≤ nwcMaxPaySats * 1000 * 10)) ∧
    (∀ amount, 4096 < byteLen (invoice network amount data) →
      parseMsatsFromBolt11 (invoice network amount data) = .ok 0 ∧
        validatePayInvoice (invoice network amount data) = .error "invalid bolt11 invoice") := by
  refine ⟨?_, fun amount long => parse_overlong long⟩
  intro n multiplier short
  have read := parse_scaled short
  refine ⟨?_, ?_, validatePayInvoice_scaled short⟩
  · rw [ReadsAmount, read]
    obtain ⟨-, -, msats, same, amount⟩ | ⟨refused, e, same⟩ := (@readAmount_scaled n multiplier []).2
    · rw [same]
      exact amount
    · rw [same]
      exact refused
  · intro other short'
    rw [parse_scaled short', read]

theorem length_le_byteLen (cs : List Char) : cs.length ≤ byteLen (String.ofList cs) := by
  induction cs with
  | nil => exact Nat.zero_le _
  | cons c cs ih =>
    have size := c.utf8Size_pos
    rw [Text.byteLen_ofList_cons, List.length_cons]
    omega

/-- A milli-bitcoin with too much data reads as nothing. Behind no amount the separator reads as one pico-bitcoin, which
is refused. A bitcoin, of a hundred times the cap of a payment, is paid when its data begins like the rest of a smaller
amount. -/
theorem misread_invoices :
    ¬ ReadsAmount (invoice .lnbc (some (1, some .milli)) (List.replicate 4096 'q')) (Amount.picoBtc (1, some .milli)) ∧
      ¬ ReadsAmount (invoice .lnbc none "pvjluez".toList) 0 ∧
      ¬ ReadsAmount (invoice .lnbc (some (1, none)) "0pqqqq".toList) (Amount.picoBtc (1, none)) ∧
      validatePayInvoice (invoice .lnbc (some (1, none)) "0pqqqq".toList) = .ok () ∧
      Amount.picoBtc (1, none) = nwcMaxPaySats * 1000 * 10 * 100 ∧
      isBech32 (List.replicate 4096 'q') = true ∧ isBech32 "pvjluez".toList = true ∧
      isBech32 "0pqqqq".toList = true := by
  refine ⟨?_, ?_, ?_, by decide, by decide, ?_, by decide, by decide⟩
  · have long : 4096 < byteLen (invoice .lnbc (some (1, some .milli)) (List.replicate 4096 'q')) := by
      have data := length_le_byteLen (Amount.text (1, some .milli) ++ '1' :: List.replicate 4096 'q')
      rw [List.length_append, List.length_cons, List.length_replicate] at data
      rw [invoice, byteLen, String.utf8ByteSize_append]
      exact lt_of_lt_of_le (by omega) (Nat.le_add_left _ _ |>.trans' data)
    rw [ReadsAmount, (parse_overlong long).1]
    decide
  · have read : parseMsatsFromBolt11 (invoice .lnbc none "pvjluez".toList) =
        .error "BOLT-11 pico amount below msat resolution" := by decide
    rw [ReadsAmount, read]
    decide
  · have read : parseMsatsFromBolt11 (invoice .lnbc (some (1, none)) "0pqqqq".toList) = .ok 11 := by decide
    rw [ReadsAmount, read]
    decide
  · rw [isBech32, List.all_replicate]
    decide

theorem continued_ne {n value k m : Nat} (low : (n * 10 + 1) * 10 ^ k ≤ value)
    (high : value < (n * 10 + 2) * 10 ^ k) : value ≠ n * 10 ^ m := by
  rintro rfl
  obtain rfl | positive := Nat.eq_zero_or_pos n
  · simp at low
  -- With up to one zero more than the number has digits behind it is too small, with more it is too large.
  obtain near | far := Nat.lt_or_ge m (k + 2)
  · have bound : n * 10 ^ m ≤ n * 10 ^ (k + 1) := Nat.mul_le_mul_left _ (Nat.pow_le_pow_right (by omega) (by omega))
    have unit : 0 < 10 ^ k := Nat.pow_pos (by omega)
    rw [Nat.pow_succ, ← Nat.mul_assoc, Nat.mul_right_comm] at bound
    rw [Nat.add_mul] at low
    omega
  · have bound : n * 10 ^ (k + 2) ≤ n * 10 ^ m := Nat.mul_le_mul_left _ (Nat.pow_le_pow_right (by omega) far)
    have more : (n * 10 + 2) * 10 ^ k ≤ n * 100 * 10 ^ k := Nat.mul_le_mul_right _ (by omega)
    have same : n * 10 ^ (k + 2) = n * 100 * 10 ^ k := by ring
    omega

/-- What is read of the digits of an amount without a multiplier, which the separator and the data continue. -/
theorem readAmount_scale {ds : List Nat} (digits : ∀ d ∈ ds, d < 10) (nonempty : ds ≠ []) {tail : List Char}
    (stop : ∀ c, tail.head? = some c → c.isDigit = false) {msats : UInt64}
    (read : readAmount (ds.map hexDigit ++ tail) = .ok msats) :
    ∃ scale ≤ 12, msats.toNat * 10 = digitsValue ds * 10 ^ scale := by
  rw [readAmount_digits digits nonempty stop] at read
  split at read
  case isFalse => cases read
  case isTrue =>
    obtain ⟨amount, scaled, checked⟩ := Fallible.bind_eq_ok.mp read
    have same : msats.toNat = amount := by
      obtain ⟨-, found, outcome, value⟩ | ⟨-, e, refused⟩ := checkMsats_eq amount
      · rw [outcome] at checked
        cases checked
        exact value
      · rw [refused] at checked
        cases checked
    rw [same]
    unfold scaledMsats at scaled
    split at scaled
    · split at scaled
      · cases scaled
      · rename_i whole
        cases scaled
        exact ⟨0, by omega, by omega⟩
    · cases scaled
      exact ⟨3, by omega, by rw [multN]; omega⟩
    · cases scaled
      exact ⟨6, by omega, by rw [multU]; omega⟩
    · cases scaled
      exact ⟨9, by omega, by rw [multM]; omega⟩
    · cases scaled
      exact ⟨12, by omega, by rw [multDefault]; omega⟩
    · cases scaled
      exact ⟨12, by omega, by rw [multDefault]; omega⟩
    · cases scaled

theorem decimal_digits {cs : List Char} (decimal : ∀ c ∈ cs, c.isDigit = true) :
    ∃ es : List Nat, cs = es.map hexDigit ∧ ∀ e ∈ es, e < 10 := by
  have digit : ∀ c ∈ cs, hexDigit (c.toNat - 48) = c ∧ c.toNat - 48 < 10 := by
    intro c member
    have bounds := decimal c member
    simp only [Char.isDigit, Bool.and_eq_true, decide_eq_true_eq, UInt32.le_iff_toNat_le] at bounds
    change 48 ≤ c.toNat ∧ c.toNat ≤ 57 at bounds
    refine ⟨?_, by omega⟩
    rw [hexDigit, if_pos (by omega), show 48 + (c.toNat - 48) = c.toNat by omega, Char.ofNat_toNat]
  refine ⟨cs.map fun c => c.toNat - 48, ?_, ?_⟩
  · rw [List.map_map]
    have same : cs.map (hexDigit ∘ fun c => c.toNat - 48) = cs.map id :=
      List.map_congr_left fun c member => (digit c member).1
    rw [same, List.map_id]
  · intro e member
    obtain ⟨c, inside, rfl⟩ := List.mem_map.mp member
    exact (digit c inside).2

theorem foldl_digits (amount : Nat) (es : List Nat) :
    es.foldl (fun amount d => amount * 10 + d) amount = amount * 10 ^ es.length + digitsValue es := by
  induction es generalizing amount with
  | nil => simp [digitsValue]
  | cons e es ih =>
    rw [List.foldl_cons, digitsValue, List.foldl_cons, ih, ih (0 * 10 + e), List.length_cons]
    ring

/-- The digits `ds`, the separator and the digits the data begins with, as one number. -/
theorem digitsValue_continued {ds es : List Nat} (digits : ∀ e ∈ es, e < 10) :
    (digitsValue ds * 10 + 1) * 10 ^ es.length ≤ digitsValue (ds ++ 1 :: es) ∧
      digitsValue (ds ++ 1 :: es) < (digitsValue ds * 10 + 2) * 10 ^ es.length := by
  have below := @foldl_digits_lt es digits 0 0 (by decide)
  rw [Nat.zero_add] at below
  have spelled : digitsValue (ds ++ 1 :: es) = (digitsValue ds * 10 + 1) * 10 ^ es.length + digitsValue es := by
    rw [digitsValue, List.foldl_append, List.foldl_cons, foldl_digits]
    rfl
  have next : (digitsValue ds * 10 + 2) * 10 ^ es.length =
      (digitsValue ds * 10 + 1) * 10 ^ es.length + 10 ^ es.length := by
    ring
  rw [spelled, next]
  exact ⟨Nat.le_add_right _ _, Nat.add_lt_add_left below _⟩

/-- An invoice without a multiplier is never read as what it asks for, unless it is too long to be read. -/
theorem unscaled_misread {network : Network} {amount : Option Nat} {data : List Char} {msats : UInt64}
    (short : byteLen (invoice network (amount.map fun n => (n, none)) data) ≤ 4096)
    (read : parseMsatsFromBolt11 (invoice network (amount.map fun n => (n, none)) data) = .ok msats) :
    msats.toNat * 10 ≠ (amount.map fun n => Amount.picoBtc (n, none)).getD 0 := by
  obtain ⟨ds, written, digits, value⟩ : ∃ ds : List Nat,
      (((amount.map fun n => (n, none)).map Amount.text).getD []).map Char.toLower = ds.map hexDigit ∧
        (∀ d ∈ ds, d < 10) ∧ digitsValue ds = amount.getD 0 := by
    cases amount with
    | none => exact ⟨[], rfl, nofun, rfl⟩
    | some n =>
      obtain ⟨ds, written, digits, -, value, -⟩ := @digits_numeral 10 (by omega) n
      refine ⟨ds, ?_, digits, value⟩
      simp only [Option.map_some, Option.getD_some, Amount.text, Option.map_none, Option.toList_none, List.append_nil]
      rw [lower_numeral, written]
  have recognised : ∀ c ∈ (data.map Char.toLower).takeWhile Char.isDigit, c.isDigit = true :=
    fun _ member => List.mem_takeWhile_imp member
  obtain ⟨es, taken, more⟩ := decimal_digits recognised
  have spelled : ((((amount.map fun n => (n, none)).map Amount.text).getD []) ++ '1' :: data).map Char.toLower =
      (ds ++ 1 :: es).map hexDigit ++ (data.map Char.toLower).dropWhile Char.isDigit := by
    rw [List.map_append, written, List.map_cons, List.map_append, List.map_cons, ← taken, List.append_assoc,
      List.cons_append, List.takeWhile_append_dropWhile]
    rfl
  have all : ∀ d ∈ ds ++ 1 :: es, d < 10 := by
    intro d member
    obtain first | rest := List.mem_append.mp member
    · exact digits d first
    · obtain rfl | last := List.mem_cons.mp rest
      · omega
      · exact more d last
  have nonempty : ds ++ 1 :: es ≠ [] := List.append_ne_nil_of_right_ne_nil _ (List.cons_ne_nil _ _)
  have plain := head_digits all nonempty ((data.map Char.toLower).dropWhile Char.isDigit)
  rw [← spelled] at plain
  rw [invoice, parse_network network short plain, spelled] at read
  have stop : ∀ c, ((data.map Char.toLower).dropWhile Char.isDigit).head? = some c → c.isDigit = false := by
    intro c first
    have other := List.head?_dropWhile_not Char.isDigit (data.map Char.toLower)
    rw [first] at other
    exact other
  obtain ⟨scale, most, same⟩ := readAmount_scale all nonempty stop read
  obtain ⟨low, high⟩ := @digitsValue_continued ds es more
  rw [value] at low high
  have unit : 0 < 10 ^ scale := Nat.pow_pos (by omega)
  have asked : (amount.map fun n => Amount.picoBtc (n, none)).getD 0 = amount.getD 0 * 10 ^ (12 - scale) * 10 ^ scale := by
    rw [Nat.mul_assoc, ← Nat.pow_add, Nat.sub_add_cancel most]
    cases amount with
    | none => rfl
    | some n => rfl
  -- To be the amount the number would have to be the digits with zeros behind them, and it has the separator there.
  rw [same, asked]
  exact fun read_right => continued_ne low high (Nat.eq_of_mul_eq_mul_right unit read_right)

theorem unscaled_misread_one :
    (1100000 : UInt64).toNat * 10 ≠ ((some 1).map fun n => Amount.picoBtc (n, none)).getD 0 :=
  @unscaled_misread .lnbc (some 1) ['u', 'q'] 1100000 (by decide +kernel) (by decide +kernel)

end Soshal.Bridge.Zap
