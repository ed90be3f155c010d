import Soshal.Library.Octets
import Soshal.Library.Text

/-! The description hash of a BOLT-11 invoice.

The data of an invoice are words of five bits: seven of them tell the time, tagged
fields follow, and the last 104 are the signature. The bech32 decoder hands the data
out as bytes, and the search for the hash takes each byte for a word. What it reads
as the types and lengths of fields is put together from the bits of several words.
-/

set_option autoImplicit false

namespace Soshal.Bridge.DescriptionHash

open Library
open Library.Text (byteLen isWhitespace normKey toAsciiLowercase trim trimList_of_ends)

abbrev Bytes := List UInt8
abbrev Word := Fin 32

def wordBits (w : Word) : List Bool := [w.val.testBit 4, w.val.testBit 3, w.val.testBit 2, w.val.testBit 1, w.val.testBit 0]

def ofBits (bits : List Bool) : UInt8 := UInt8.ofNat (bits.foldl (fun n bit => 2 * n + bit.toNat) 0)

def bytesOf : List Bool → Bytes
  | b₇ :: b₆ :: b₅ :: b₄ :: b₃ :: b₂ :: b₁ :: b₀ :: rest => ofBits [b₇, b₆, b₅, b₄, b₃, b₂, b₁, b₀] :: bytesOf rest
  | _ => []

def regroup (words : List Word) : Bytes := bytesOf (words.flatMap wordBits)

/-- A bech32 decoder: the prefix and the data, in bytes, of a text whose checksum is right. -/
structure Bech32 where
  decode : String → Option (String × Bytes)
  separated : ∀ s, (decode s).isSome → s.toList.contains '1'

/-- One word more. Fewer than eight bits were left over from those before, so at most one byte is complete. -/
def packWord : UInt32 × Nat × Bytes → UInt8 → UInt32 × Nat × Bytes
  | (bits, bitLen, out), w =>
    let bits := bits <<< 5 ||| w.toUInt32
    let bitLen := bitLen + 5
    if bitLen ≥ 8 ∧ out.length < 32 then
      (bits, bitLen - 8, out ++ [(bits >>> UInt32.ofNat (bitLen - 8)).toUInt8])
    else (bits, bitLen, out)

def packHash (words : Bytes) : Option Bytes :=
  let out := (words.foldl packWord (0, 0, [])).2.2
  if out.length ≥ 32 then some out else none

/-- Field after field. Each takes three bytes or more, so the length of the data is fuel enough. -/
def hashField : Nat → Bytes → Option Bytes
  | fuel + 1, fieldType :: high :: low :: rest =>
    let fieldLen := high.toNat * 32 + low.toNat
    if fieldLen > rest.length then none
    else if fieldType = 23 then packHash (rest.take fieldLen)
    else hashField fuel (rest.drop fieldLen)
  | _, _ => none

def bolt11DescriptionHash (bech32 : Bech32) (bolt11 : String) : Option Bytes :=
  let normalized := normKey bolt11
  if normalized.isEmpty ∨ byteLen normalized > 4096 ∨ ¬ normalized.toList.contains '1' then none
  else (bech32.decode normalized).bind fun (_, data) => hashField data.length (data.drop (1 + 7))

structure Field where
  kind : Word
  body : List Word
  short : body.length < 32 * 32

def Field.words (field : Field) : List Word :=
  field.kind :: ⟨field.body.length / 32, (Nat.div_lt_iff_lt_mul (by decide)).mpr field.short⟩ ::
    ⟨field.body.length % 32, Nat.mod_lt _ (by decide)⟩ :: field.body

structure Invoice where
  timestamp : Vector Word 7
  fields : List Field
  signature : Vector Word 104

namespace Invoice

def words (invoice : Invoice) : List Word :=
  invoice.timestamp.toList ++ invoice.fields.flatMap Field.words ++ invoice.signature.toList

/-- The first field of type 23 and 52 words. -/
def hashField (invoice : Invoice) : Option Field :=
  invoice.fields.find? fun field => decide (field.kind = 23 ∧ field.body.length = 52)

def descriptionHash (invoice : Invoice) : Option Bytes := invoice.hashField.map fun field => regroup field.body

/-- What the search goes through: all but the first eight bytes. -/
def searched (invoice : Invoice) : Bytes := (regroup invoice.words).drop (1 + 7)

end Invoice

/-- The number that digits to the base 32 spell. -/
def base32 (digit : Nat → Nat) : Nat → Nat
  | 0 => 0
  | k + 1 => base32 digit k * 32 + digit k

theorem base32_inj {first second : Nat → Nat} {n : Nat} (small : ∀ k, first k < 32) (small' : ∀ k, second k < 32) :
    base32 first n = base32 second n ↔ ∀ k < n, first k = second k := by
  induction n with
  | zero => simp [base32]
  | succ n ih =>
    have one := small n
    have two := small' n
    rw [Nat.forall_lt_succ_right, ← ih, base32, base32]
    omega

def byteAt (bytes : Bytes) (k : Nat) : Nat := (bytes.getD k 0).toNat

/-- The word that the search puts together in a place: five bits of a byte, and over them those upper bits of the next one
that come before the byte they fall into is out. -/
def laidWord (bytes : Bytes) (k : Nat) : Nat := byteAt bytes k % 32 ||| byteAt bytes (k + 1) / 32 % 2 ^ (5 * (k + 1) % 8)

/-- The bits that so many bytes give. -/
def packed (bytes : Bytes) : Nat → Nat
  | 0 => 0
  | k + 1 => base32 (laidWord bytes) k * 32 + byteAt bytes k % 32

theorem byteAt_lt (bytes : Bytes) (k : Nat) : byteAt bytes k < 256 := UInt8.toNat_lt _

theorem upper_lt (bytes : Bytes) (j k : Nat) : byteAt bytes k / 32 % 2 ^ j < 2 ^ 5 := by
  have small := byteAt_lt bytes k
  have mod := Nat.mod_le (byteAt bytes k / 32) (2 ^ j)
  omega

theorem laidWord_lt (bytes : Bytes) (k : Nat) : laidWord bytes k < 32 :=
  Nat.or_lt_two_pow (Nat.mod_lt _ (by decide)) (upper_lt bytes _ _)

/-- The next byte lays its upper bits over what is packed. -/
theorem packed_or (bytes : Bytes) (k : Nat) :
    packed bytes k ||| byteAt bytes k / 32 % 2 ^ (5 * k % 8) = base32 (laidWord bytes) k := by
  cases k with
  | zero => simp [packed, base32, Nat.mod_one]
  | succ k =>
    rw [packed, base32, laidWord]
    exact Octets.mul_two_pow_add_or (Nat.mod_lt _ (by decide)) (upper_lt bytes _ _)

structure Packed (bytes : Bytes) (count : Nat) (state : UInt32 × Nat × Bytes) : Prop where
  going : state.2.2.length * 8 + state.2.1 = 5 * count
  short : state.2.1 < 8
  spells : Octets.value state.2.2 * 2 ^ state.2.1 + state.1.toNat % 2 ^ state.2.1 = packed bytes count

theorem shifted_mod {bits : UInt32} {w : UInt8} {n : Nat} (short : n < 8) :
    (bits <<< 5 ||| w.toUInt32).toNat % 2 ^ (n + 5) =
      (bits.toNat % 2 ^ n ||| w.toNat / 32 % 2 ^ n) * 2 ^ 5 + w.toNat % 32 := by
  have wide : 2 ^ (n + 5) ∣ 2 ^ 32 := Nat.pow_dvd_pow 2 (by omega)
  have moved : (bits.toNat <<< 5 % 2 ^ 32) % 2 ^ (n + 5) = bits.toNat % 2 ^ n * 2 ^ 5 := by
    rw [Nat.mod_mod_of_dvd _ wide, Nat.shiftLeft_eq, Nat.pow_add, Nat.mul_mod_mul_right]
  have split : w.toNat % 2 ^ (n + 5) = (w.toNat / 32 % 2 ^ n) * 2 ^ 5 + w.toNat % 32 := by
    rw [Nat.add_comm n 5, Nat.pow_add, Nat.mod_mul, Nat.add_comm, Nat.mul_comm (2 ^ 5)]
  have high : ∀ a b : Nat, a * 2 ^ 5 ||| b * 2 ^ 5 = (a ||| b) * 2 ^ 5 := by
    intro a b
    simp only [← Nat.shiftLeft_eq, Nat.shiftLeft_or_distrib]
  have low : w.toNat % 32 < 2 ^ 5 := Nat.mod_lt _ (by decide)
  have join : ∀ a : Nat, a * 2 ^ 5 ||| w.toNat % 32 = a * 2 ^ 5 + w.toNat % 32 := fun a => by
    rw [← Nat.shiftLeft_eq, Nat.shiftLeft_add_eq_or_of_lt low]
  rw [UInt32.toNat_or, Nat.or_mod_two_pow, UInt32.toNat_shiftLeft, UInt8.toNat_toUInt32]
  show (bits.toNat <<< 5 % 2 ^ 32) % 2 ^ (n + 5) ||| w.toNat % 2 ^ (n + 5) = _
  rw [moved, split, ← join, ← Nat.or_assoc, high, join]

theorem Packed.step {bytes : Bytes} {count : Nat} {state : UInt32 × Nat × Bytes} (before : Packed bytes count state)
    (few : count < 52) {w : UInt8} (here : w.toNat = byteAt bytes count) :
    Packed bytes (count + 1) (packWord state w) := by
  obtain ⟨bits, bitLen, out⟩ := state
  obtain ⟨going, short, spells⟩ := before
  simp only at going short spells
  have left : 5 * count % 8 = bitLen := by omega
  have total : Octets.value out * 2 ^ (bitLen + 5) + (bits <<< 5 ||| w.toUInt32).toNat % 2 ^ (bitLen + 5) =
      packed bytes (count + 1) := by
    rw [shifted_mod short, here, packed, ← packed_or, left, ← spells, Octets.mul_two_pow_add_or (Nat.mod_lt _ (Nat.two_pow_pos _))
      (Nat.mod_lt _ (Nat.two_pow_pos _))]
    ring
  unfold packWord
  dsimp only
  split
  · rename_i complete
    obtain ⟨r, rfl⟩ : ∃ r, bitLen = r + 3 := Nat.exists_eq_add_of_le' (by omega)
    refine ⟨by rw [List.length_append, List.length_singleton]; dsimp only; omega, by dsimp only; omega, ?_⟩
    have short' : r < 5 := by omega
    have emitted : ((bits <<< 5 ||| w.toUInt32) >>> UInt32.ofNat r).toUInt8.toNat =
        (bits <<< 5 ||| w.toUInt32).toNat / 2 ^ r % 256 := by
      have exact : (UInt32.ofNat r).toNat % 32 = r := by
        rw [UInt32.toNat_ofNat_of_lt' (lt_trans short' (by decide)), Nat.mod_eq_of_lt (by omega)]
      rw [UInt32.toNat_toUInt8, UInt32.toNat_shiftRight, exact, Nat.shiftRight_eq_div_pow]
    have cut : (bits <<< 5 ||| w.toUInt32).toNat % 2 ^ (r + 3 + 5) = (bits <<< 5 ||| w.toUInt32).toNat % 2 ^ r +
        2 ^ r * ((bits <<< 5 ||| w.toUInt32).toNat / 2 ^ r % 256) := by
      rw [Nat.add_assoc, Nat.pow_add, Nat.mod_mul]
    rw [← total, cut]
    simp only [Nat.add_sub_cancel, Nat.add_assoc, Nat.reduceAdd, Octets.value_snoc, emitted]
    ring
  · exact ⟨by dsimp only; omega, by dsimp only; omega, total⟩

theorem Packed.foldl {bytes words rest : Bytes} (split : bytes = words ++ rest) (few : words.length ≤ 52) :
    Packed bytes words.length (words.foldl packWord (0, 0, [])) := by
  induction words using List.reverseRecOn generalizing rest with
  | nil => constructor <;> simp [packed, Octets.value]
  | append_singleton words w ih =>
    rw [List.length_append, List.length_singleton] at few ⊢
    rw [List.append_assoc] at split
    rw [List.foldl_append]
    refine (ih split (by omega)).step (by omega) ?_
    simp [byteAt, split]

theorem out_foldl_full {state : UInt32 × Nat × Bytes} (full : state.2.2.length = 32) (rest : Bytes) :
    (rest.foldl packWord state).2.2 = state.2.2 := by
  induction rest generalizing state with
  | nil => rfl
  | cons w rest ih =>
    have same : (packWord state w).2.2 = state.2.2 := by
      obtain ⟨bits, bitLen, out⟩ := state
      simp only at full
      simp [packWord, full]
    rw [List.foldl_cons, ih (same ▸ full), same]

theorem packHash_eq {words : Bytes} : (words.length < 52 ∧ packHash words = none) ∨
    ∃ out, 52 ≤ words.length ∧ packHash words = some out ∧ out.length = 32 ∧
      Octets.value out = base32 (laidWord words) 51 * 2 + byteAt words 51 / 16 % 2 := by
  by_cases long : 52 ≤ words.length
  · obtain ⟨going, short, spells⟩ := @Packed.foldl words (words.take 52) (words.drop 52) (by simp) (by simp)
    have split : words.foldl packWord (0, 0, []) = (words.drop 52).foldl packWord ((words.take 52).foldl packWord (0, 0, [])) := by
      rw [← List.foldl_append, List.take_append_drop]
    rw [List.length_take, Nat.min_eq_left long] at going spells
    have full : ((words.take 52).foldl packWord (0, 0, [])).2.2.length = 32 := by omega
    refine .inr ⟨_, long, ?_, full, ?_⟩
    · rw [packHash, split, out_foldl_full full]
      simp [full]
    · have four : ((words.take 52).foldl packWord (0, 0, [])).2.1 = 4 := by omega
      have low := Nat.mod_lt ((words.take 52).foldl packWord (0, 0, [])).1.toNat (by decide : 0 < 2 ^ 4)
      rw [four, packed] at spells
      omega
  · obtain ⟨going, short, -⟩ := @Packed.foldl words words [] (by simp) (by omega)
    refine .inl ⟨by omega, ?_⟩
    rw [packHash]
    exact if_neg (by omega)

theorem packHash_eq_none_iff {bytes : Bytes} : packHash bytes = none ↔ bytes.length < 52 := by
  obtain ⟨short, none⟩ | ⟨out, long, found, -⟩ := @packHash_eq bytes
  · exact iff_of_true none short
  · rw [found]
    exact iff_of_false (by simp) (by omega)

def bitValue (bits : List Bool) : Nat := bits.foldl (fun n bit => 2 * n + bit.toNat) 0

theorem bitValue_append (first second : List Bool) :
    bitValue (first ++ second) = bitValue first * 2 ^ second.length + bitValue second := by
  induction second using List.reverseRecOn with
  | nil => simp [bitValue]
  | append_singleton second bit ih =>
    rw [← List.append_assoc, bitValue, List.foldl_append, ← bitValue, ih, bitValue, bitValue, bitValue, List.foldl_append,
      List.length_append]
    simp only [List.foldl_cons, List.foldl_nil, List.length_singleton]
    ring

theorem bitValue_lt (bits : List Bool) : bitValue bits < 2 ^ bits.length := by
  induction bits using List.reverseRecOn with
  | nil => decide
  | append_singleton bits bit ih =>
    have one := Bool.toNat_le bit
    rw [bitValue_append, List.length_append, Nat.pow_add]
    simp only [bitValue, List.foldl_cons, List.foldl_nil, List.length_singleton] at *
    omega

theorem bytesOf_spells (bits : List Bool) :
    (bytesOf bits).length = bits.length / 8 ∧ Octets.value (bytesOf bits) = bitValue bits / 2 ^ (bits.length % 8) := by
  induction bits using bytesOf.induct with
  | case1 b₇ b₆ b₅ b₄ b₃ b₂ b₁ b₀ rest ih =>
    obtain ⟨length, value⟩ := ih
    have byte : (ofBits [b₇, b₆, b₅, b₄, b₃, b₂, b₁, b₀]).toNat = bitValue [b₇, b₆, b₅, b₄, b₃, b₂, b₁, b₀] := by
      revert b₇ b₆ b₅ b₄ b₃ b₂ b₁ b₀
      decide
    have joined := bitValue_append [b₇, b₆, b₅, b₄, b₃, b₂, b₁, b₀] rest
    have whole : 2 ^ rest.length = 2 ^ (rest.length % 8) * 256 ^ (rest.length / 8) := by
      rw [← Octets.two_pow_mul, ← Nat.pow_add, Nat.mod_add_div]
    rw [bytesOf, Octets.value_cons, byte, length, value]
    simp only [List.cons_append, List.nil_append] at joined
    simp only [List.length_cons, Nat.add_assoc, Nat.reduceAdd, Nat.add_mod_right]
    rw [joined, whole, Nat.mul_left_comm, Nat.mul_add_div (Nat.two_pow_pos _), length]
    exact ⟨by omega, rfl⟩
  | case2 bits short =>
    have small := bitValue_lt bits
    have few : bits.length < 8 := by
      match bits with
      | b₇ :: b₆ :: b₅ :: b₄ :: b₃ :: b₂ :: b₁ :: b₀ :: rest => exact absurd rfl (short b₇ b₆ b₅ b₄ b₃ b₂ b₁ b₀ rest)
      | [] | [_] | [_, _] | [_, _, _] | [_, _, _, _] | [_, _, _, _, _] | [_, _, _, _, _, _] | [_, _, _, _, _, _, _] => simp
    rw [bytesOf, Nat.mod_eq_of_lt few, Nat.div_eq_of_lt small, Nat.div_eq_of_lt few]
    · exact ⟨rfl, rfl⟩
    · exact short

theorem bitValue_words {words all rest : List Word} (split : all = words ++ rest) :
    bitValue (words.flatMap wordBits) = base32 (fun k => (all.getD k 0).val) words.length := by
  induction words using List.reverseRecOn generalizing rest with
  | nil => rfl
  | append_singleton words w ih =>
    have five : ∀ w : Word, bitValue (wordBits w) = w.val := by decide
    rw [List.append_assoc] at split
    rw [List.flatMap_append, bitValue_append, ih split, List.flatMap_singleton, five, List.length_append, List.length_singleton, base32]
    simp [split, wordBits]

theorem regroup_spells {words : List Word} (all : words.length = 52) : (regroup words).length = 32 ∧
    Octets.value (regroup words) = base32 (fun k => (words.getD k 0).val) 51 * 2 + (words.getD 51 0).val / 16 := by
  have bits : (words.flatMap wordBits).length = 260 := by
    simp [List.length_flatMap, wordBits, all]
  obtain ⟨length, value⟩ := bytesOf_spells (words.flatMap wordBits)
  rw [bits] at length value
  rw [bitValue_words (List.append_nil words).symm, all, base32] at value
  refine ⟨length, value.trans ?_⟩
  rw [show 2 ^ (260 % 8) = 16 from rfl]
  omega

/-- The first 256 bits of 52 words are what the search packs the bytes to. -/
def Spells (bytes : Bytes) (words : List Word) : Prop :=
  52 ≤ bytes.length ∧ (∀ k < 51, laidWord bytes k = (words.getD k 0).val) ∧
    byteAt bytes 51 / 16 % 2 = (words.getD 51 0).val / 16

theorem packHash_eq_some {bytes : Bytes} {words : List Word} (all : words.length = 52) :
    packHash bytes = some (regroup words) ↔ Spells bytes words := by
  obtain ⟨length, value⟩ := regroup_spells all
  have digits := @base32_inj (laidWord bytes) (fun k => (words.getD k 0).val) 51 (laidWord_lt bytes) fun _ => Fin.isLt _
  obtain ⟨short, none⟩ | ⟨out, long, found, full, spells⟩ := @packHash_eq bytes
  · rw [none]
    exact iff_of_false (by simp) fun seen => by have := seen.1; omega
  · have same : out = regroup words ↔ Octets.value out = Octets.value (regroup words) :=
      ⟨congrArg _, Octets.value_inj (full.trans length.symm)⟩
    rw [found, Option.some.injEq, same, spells, value, Spells, ← digits]
    omega

/-- A field as the search reads it, in bytes. -/
structure ByteField where
  fieldType : UInt8
  high : UInt8
  low : UInt8
  body : Bytes
  sized : body.length = high.toNat * 32 + low.toNat

def ByteField.bytes (field : ByteField) : Bytes := field.fieldType :: field.high :: field.low :: field.body

/-- Whole fields of other types come first, and then one of type 23. -/
def Begins (data : Bytes) (field : ByteField) : Prop :=
  field.fieldType = 23 ∧ ∃ before : List ByteField, (∀ other ∈ before, other.fieldType ≠ 23) ∧
    ∃ rest, data = before.flatMap ByteField.bytes ++ (field.bytes ++ rest)

theorem of_bytes_append {field : ByteField} {fieldType high low : UInt8} {rest more : Bytes}
    (same : fieldType :: high :: low :: rest = field.bytes ++ more) :
    field.fieldType = fieldType ∧ field.body.length = high.toNat * 32 + low.toNat ∧ rest = field.body ++ more := by
  simp only [ByteField.bytes, List.cons_append, List.cons.injEq] at same
  obtain ⟨rfl, rfl, rfl, rfl⟩ := same
  exact ⟨rfl, field.sized, rfl⟩

theorem three_le_of_begins {data : Bytes} {field : ByteField} (begins : Begins data field) : 3 ≤ data.length := by
  obtain ⟨-, before, -, rest, rfl⟩ := begins
  simp only [ByteField.bytes, List.length_append, List.length_cons]
  omega

theorem begins_of_hash {high low : UInt8} {body rest : Bytes} (sized : body.length = high.toNat * 32 + low.toNat) :
    Begins (23 :: high :: low :: (body ++ rest)) ⟨23, high, low, body, sized⟩ :=
  ⟨rfl, [], by simp, rest, rfl⟩

theorem begins_of_other {other field : ByteField} {rest : Bytes} (differs : other.fieldType ≠ 23) :
    Begins (other.bytes ++ rest) field ↔ Begins rest field := by
  constructor
  · rintro ⟨hash, before, others, after, same⟩
    cases before with
    | nil =>
      rw [List.flatMap_nil, List.nil_append] at same
      exact absurd ((of_bytes_append same).1 ▸ hash) differs
    | cons first before =>
      rw [List.flatMap_cons, List.append_assoc] at same
      obtain ⟨-, length, joined⟩ := of_bytes_append same
      refine ⟨hash, before, fun g member => others g (List.mem_cons_of_mem _ member), after, ?_⟩
      exact (List.append_inj joined (other.sized.trans length.symm)).2
  · rintro ⟨hash, before, others, after, rfl⟩
    refine ⟨hash, other :: before, ?_, after, ?_⟩
    · intro g member
      cases member with
      | head => exact differs
      | tail _ member => exact others g member
    · rw [List.flatMap_cons, List.append_assoc]

theorem hashField_eq_some {fuel : Nat} {data out : Bytes} (enough : data.length ≤ fuel) :
    hashField fuel data = some out ↔ ∃ field, Begins data field ∧ packHash field.body = some out := by
  induction fuel generalizing data with
  | zero =>
    simp only [hashField, reduceCtorEq, false_iff]
    rintro ⟨field, begins, -⟩
    have longer := three_le_of_begins begins
    omega
  | succ fuel ih =>
    match data with
    | [] | [_] | [_, _] =>
      simp only [hashField, reduceCtorEq, false_iff]
      rintro ⟨field, begins, -⟩
      have longer := three_le_of_begins begins
      simp at longer
    | fieldType :: high :: low :: rest =>
      simp only [hashField]
      by_cases long : high.toNat * 32 + low.toNat > rest.length
      · rw [if_pos long]
        simp only [reduceCtorEq, false_iff]
        rintro ⟨field, ⟨-, before, -, after, same⟩, -⟩
        -- Whichever field comes first, it has the length that does not fit.
        have first : ∃ (g : ByteField) (more : Bytes), fieldType :: high :: low :: rest = g.bytes ++ more := by
          cases before with
          | nil => exact ⟨field, after, same⟩
          | cons g before => exact ⟨g, _, by rw [same, List.flatMap_cons, List.append_assoc]⟩
        obtain ⟨g, more, same⟩ := first
        obtain ⟨-, length, joined⟩ := of_bytes_append same
        rw [joined, List.length_append] at long
        omega
      · rw [if_neg long]
        have sized : (rest.take (high.toNat * 32 + low.toNat)).length = high.toNat * 32 + low.toNat := by
          rw [List.length_take]
          omega
        have joined := List.take_append_drop (high.toNat * 32 + low.toNat) rest
        by_cases hash : fieldType = 23
        · rw [if_pos hash]
          subst hash
          constructor
          · intro packed
            have begins := @begins_of_hash high low _ (rest.drop (high.toNat * 32 + low.toNat)) sized
            rw [joined] at begins
            exact ⟨_, begins, packed⟩
          · rintro ⟨field, ⟨-, before, others, after, same⟩, packed⟩
            cases before with
            | nil =>
              obtain ⟨-, length, split⟩ := of_bytes_append same
              rw [split, ← length, List.take_left]
              exact packed
            | cons first before =>
              rw [List.flatMap_cons, List.append_assoc] at same
              exact absurd (of_bytes_append same).1 (others first List.mem_cons_self)
        · rw [if_neg hash, ih (by rw [List.length_drop]; simp at enough; omega)]
          have passed := fun field => @begins_of_other ⟨fieldType, high, low, _, sized⟩ field
            (rest.drop (high.toNat * 32 + low.toNat)) hash
          simp only [ByteField.bytes, List.cons_append, joined] at passed
          simp only [passed]

/-- Read as fields, the bytes of an invoice have no hash if its words have none, and else one of the same 256 bits. -/
def SeenAlike (normalized : String) (invoice : Invoice) : Prop :=
  match invoice.hashField with
  | none => byteLen normalized ≤ 4096 → ∀ seen, Begins invoice.searched seen → seen.body.length < 52
  | some field => byteLen normalized ≤ 4096 ∧ ∃ seen, Begins invoice.searched seen ∧ Spells seen.body field.body

theorem bolt11DescriptionHash_eq_some {bech32 : Bech32} {bolt11 : String} {invoice : Invoice} {hrp : String}
    {out : Bytes} (decoded : bech32.decode (normKey bolt11) = some (hrp, regroup invoice.words)) :
    bolt11DescriptionHash bech32 bolt11 = some out ↔
      byteLen (normKey bolt11) ≤ 4096 ∧ ∃ field, Begins invoice.searched field ∧ packHash field.body = some out := by
  have separated : (normKey bolt11).toList.contains '1' = true := bech32.separated _ (by rw [decoded]; rfl)
  have filled : (normKey bolt11).isEmpty = false := by
    rw [← Bool.not_eq_true, String.isEmpty_iff]
    intro empty
    rw [empty] at separated
    cases separated
  have enough : invoice.searched.length ≤ (regroup invoice.words).length := by
    rw [Invoice.searched, List.length_drop]
    omega
  rw [← hashField_eq_some enough]
  simp only [bolt11DescriptionHash, separated, filled, decoded, Invoice.searched, Option.bind_some]
  by_cases long : byteLen (normKey bolt11) > 4096
  · simp [long]
  · simp [long, Nat.not_lt.mp long]

theorem Invoice.length_hashField {invoice : Invoice} {field : Field} (found : invoice.hashField = some field) :
    field.body.length = 52 := by
  have picked := List.find?_some found
  exact (of_decide_eq_true picked).2

/-- The hash of an invoice comes out, or none where it has none, exactly when its bytes happen to tell the same. -/
theorem description_hash_iff (bech32 : Bech32) (bolt11 : String) (invoice : Invoice) (hrp : String)
    (decoded : bech32.decode (normKey bolt11) = some (hrp, regroup invoice.words)) :
    bolt11DescriptionHash bech32 bolt11 = invoice.descriptionHash ↔ SeenAlike (normKey bolt11) invoice := by
  unfold SeenAlike Invoice.descriptionHash
  cases stated : invoice.hashField with
  | some field =>
    simp only [← packHash_eq_some (Invoice.length_hashField stated)]
    exact bolt11DescriptionHash_eq_some decoded
  | none =>
    simp only [Option.map_none, Option.eq_none_iff_forall_ne_some, ne_eq, bolt11DescriptionHash_eq_some decoded, not_and,
      not_exists]
    constructor
    · intro missed fits field begins
      exact packHash_eq_none_iff.mp (Option.eq_none_iff_forall_ne_some.mpr fun out => missed out fits field begins)
    · intro short out fits field begins packed
      rw [packHash_eq_none_iff.mpr (short fits field begins)] at packed
      cases packed

section Invoices

def knowing (text : List Char) (named : text.contains '1' = true) (data : Bytes) : Bech32 where
  decode s := if s = String.ofList text then some ("lnbc1u", data) else none
  separated := by
    intro s read
    by_cases same : s = String.ofList text
    · rwa [same, String.toList_ofList]
    · rw [if_neg same] at read
      cases read

theorem normKey_ofList {text : List Char} (normal : (text.all fun c => !isWhitespace c && c.toLower == c) = true) :
    normKey (String.ofList text) = String.ofList text := by
  have each : ∀ c ∈ text, isWhitespace c = false ∧ c.toLower = c := by simpa using normal
  rw [normKey, trim, String.toList_ofList, trimList_of_ends (fun c head => (each c (List.mem_of_mem_head? head)).1)
    (fun c last => (each c (List.mem_of_getLast? last)).1), toAsciiLowercase, String.toList_ofList,
    List.map_congr_left fun c member => (each c member).2, List.map_id']

theorem knowing_decode {text : List Char} (named : text.contains '1' = true) (data : Bytes)
    (normal : (text.all fun c => !isWhitespace c && c.toLower == c) = true) :
    (knowing text named data).decode (normKey (String.ofList text)) = some ("lnbc1u", data) := by
  rw [normKey_ofList normal]
  exact if_pos rfl

theorem missed_of_knowing {text : List Char} (named : text.contains '1' = true) {invoice : Invoice}
    (normal : (text.all fun c => !isWhitespace c && c.toLower == c) = true)
    (missed : hashField (regroup invoice.words).length invoice.searched = none) :
    bolt11DescriptionHash (knowing text named (regroup invoice.words)) (String.ofList text) = none := by
  simp only [bolt11DescriptionHash, knowing_decode named _ normal, Option.bind_some]
  split
  · rfl
  · exact missed

def letter (w : Word) : Char := "qpzry9x8gf2tvdw0s3jn54khce6mua7l".toList.getD w.val 'q'

def spelled (invoice : Invoice) (checksum : List Char) : List Char :=
  ['l', 'n', 'b', 'c', '1', 'u', '1'] ++ invoice.words.map letter ++ checksum

def ones : Field := ⟨23, (List.replicate 12 [2, 4, 8, 17]).flatten ++ [2, 4, 8, 16], by decide⟩

/-- With 32 bytes 0x11 as its hash. -/
def hashed : Invoice := ⟨Vector.replicate 7 0, [ones], Vector.replicate 104 0⟩

def hashedText : List Char := spelled hashed ['h', 'p', 'y', '9', 'l', 'z']

/-- Here the search comes upon the hash in the field in front of it. -/
def hidden : Invoice :=
  let period := [1, 0, 8, 2, 0, 17, 0, 8, 2, 0, 16, 4, 8, 2, 0, 16, 4, 1, 2, 0, 16, 4, 1, 0, 8, 16, 4, 1, 0, 8, 2, 4]
  let filler := [0, 0, 0, 5, 24, 1, 2, 16] ++ (period ++ period ++ period).take 82 ++ [0]
  { hashed with fields := [⟨13, filler, by decide⟩, ones] }

def hiddenText : List Char := spelled hidden ['p', 'g', 'd', '4', 'p', '6']

theorem hidden_hash_found :
    bolt11DescriptionHash (knowing hiddenText (by decide +kernel) (regroup hidden.words)) (String.ofList hiddenText) =
      some (List.replicate 32 0x11) := by
  have hash : hidden.descriptionHash = some (List.replicate 32 0x11) := by decide +kernel
  have normal : (hiddenText.all fun c => !isWhitespace c && c.toLower == c) = true := by decide +kernel
  rw [← hash]
  refine (description_hash_iff _ _ hidden "lnbc1u" (knowing_decode (by decide +kernel) _ normal)).mpr ?_
  have first : hidden.hashField = some ones := rfl
  rw [SeenAlike, first, normKey_ofList normal]
  exact ⟨by decide +kernel, ⟨23, 1, 20, (hidden.searched.drop 3).take 52, by decide +kernel⟩,
    ⟨rfl, [], by simp, hidden.searched.drop 55, by decide +kernel⟩, by decide +kernel, by decide +kernel, by decide +kernel⟩

/-- The bytes of this invoice begin with a field that is longer than the rest. -/
theorem hash_of_invoice_missed :
    let bech32 := knowing hashedText (by decide) (regroup hashed.words)
    bech32.decode (normKey (String.ofList hashedText)) = some ("lnbc1u", regroup hashed.words) ∧
      hashed.descriptionHash = some (List.replicate 32 0x11) ∧
      bolt11DescriptionHash bech32 (String.ofList hashedText) = none :=
  ⟨knowing_decode (by decide) _ (by decide), by decide,
    missed_of_knowing (by decide) (by decide) (by decide)⟩

end Invoices

end Soshal.Bridge.DescriptionHash
