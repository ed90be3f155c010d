import Soshal.Library.Fields

/-! LAN beacons: building a line, and reading it back.

A line is `magic:pubkey:port:timestamp:nonce:mac`. The reader cuts it at its first
five colons, but compares only a prefix of the line with the magic it expects, and
takes more spellings of a number or a byte string than the sender produces.
-/

set_option autoImplicit false

namespace Soshal.Network.Beacon

open Library.Encoding (hexDecode hexDecode_hexEncode hexBytes hexValue)
open Library.Fields
open Library.Text

abbrev Nonce := { bytes : List UInt8 // bytes.length = 16 }

def lanMagic : String := "soshal-lan"
def beaconMaxSkewSecs : Nat := 30

def beaconBody (magic pubkey : String) (port : UInt16) (tsSecs : UInt64) (nonceHex : String) : String :=
  magic ++ ":" ++ pubkey ++ ":" ++ toString port.toNat ++ ":" ++ toString tsSecs.toNat ++ ":" ++ nonceHex

section Model

variable (hmacSha256 : List UInt8 → List UInt8 → List UInt8)

def beaconMac (key : List UInt8) (body : String) : String := hexEncode (hmacSha256 key (utf8 body))

structure BeaconFields where
  magic : String
  pubkey : String
  port : String
  ts : String
  nonce : String
  mac : String

def splitFields (text : String) : Option BeaconFields := do
  let (magic, rest) ← splitOnce text ':'
  let (pubkey, rest) ← splitOnce rest ':'
  let (port, rest) ← splitOnce rest ':'
  let (ts, rest) ← splitOnce rest ':'
  let (nonce, rest) ← splitOnce rest ':'
  some ⟨magic, pubkey, port, ts, nonce, rest⟩

def isPubkey (pk : String) : Bool := byteLen pk == 64 && pk.toList.all isAsciiHexdigit

def absDiff (a b : Nat) : Nat := (a - b) + (b - a)

def parseBeacon (key : List UInt8) (magic text : String) (defaultPort : UInt16) (nowSecs : UInt64) :
    Option (String × UInt16 × Nonce) :=
  if !startsWith text magic then none
  else do
    let fields ← splitFields text
    -- Everything before the colon in front of the MAC.
    let body := String.ofList (text.toList.take (text.toList.length - (fields.mac.toList.length + 1)))
    let expected ← hexDecode (beaconMac hmacSha256 key body)
    let got ← hexDecode fields.mac
    if got ≠ expected then none
    else if !isPubkey fields.pubkey then none
    else
      let ts ← parseUnsigned (2 ^ 64) fields.ts
      if absDiff nowSecs.toNat ts > beaconMaxSkewSecs then none
      else
        let nonce ← hexDecode fields.nonce
        if long : nonce.length = 16 then
          some (fields.pubkey, ((parseUnsigned (2 ^ 16) fields.port).map UInt16.ofNat).getD defaultPort, ⟨nonce, long⟩)
        else none

end Model

namespace BeaconFields

def body (f : BeaconFields) : String :=
  f.magic ++ ":" ++ f.pubkey ++ ":" ++ f.port ++ ":" ++ f.ts ++ ":" ++ f.nonce

def line (f : BeaconFields) : String := f.body ++ ":" ++ f.mac

structure Plain (f : BeaconFields) : Prop where
  pubkey : ':' ∉ f.pubkey.toList
  port : ':' ∉ f.port.toList
  ts : ':' ∉ f.ts.toList
  nonce : ':' ∉ f.nonce.toList
  mac : ':' ∉ f.mac.toList

end BeaconFields

theorem append_colon_inj {a a' b b' : String} (plain : ':' ∉ b.toList) (plain' : ':' ∉ b'.toList)
    (same : a ++ ":" ++ b = a' ++ ":" ++ b') : a = a' ∧ b = b' := by
  have lists : a.toList ++ ':' :: b.toList = a'.toList ++ ':' :: b'.toList := by
    have := congrArg String.toList same
    simpa using this
  obtain ⟨left, right⟩ := last_cut_unique plain plain' lists
  exact ⟨String.toList_inj.mp left, String.toList_inj.mp right⟩

theorem line_inj {f g : BeaconFields} (plain : f.Plain) (plain' : g.Plain) (same : f.line = g.line) : f = g := by
  obtain ⟨body, mac⟩ := append_colon_inj plain.mac plain'.mac same
  obtain ⟨rest, nonce⟩ := append_colon_inj plain.nonce plain'.nonce body
  obtain ⟨rest, ts⟩ := append_colon_inj plain.ts plain'.ts rest
  obtain ⟨rest, port⟩ := append_colon_inj plain.port plain'.port rest
  obtain ⟨magic, pubkey⟩ := append_colon_inj plain.pubkey plain'.pubkey rest
  cases f
  cases g
  simp_all

theorem splitOnce_colon {s head tail : String} :
    splitOnce s ':' = some (head, tail) ↔ s = head ++ ":" ++ tail ∧ ':' ∉ head.toList := splitOnce_eq_some

theorem splitOnce_field {head : String} (plain : ':' ∉ head.toList) (tail : String) :
    splitOnce (head ++ (":" ++ tail)) ':' = some (head, tail) :=
  splitOnce_colon.mpr ⟨by rw [String.append_assoc], plain⟩

theorem splitFields_eq_some {text : String} {f : BeaconFields} :
    splitFields text = some f ↔ text = f.line ∧ ':' ∉ f.magic.toList ∧ ':' ∉ f.pubkey.toList ∧
      ':' ∉ f.port.toList ∧ ':' ∉ f.ts.toList ∧ ':' ∉ f.nonce.toList := by
  constructor
  · intro split
    obtain ⟨⟨magic, rest⟩, first, split⟩ := Option.bind_eq_some_iff.mp split
    obtain ⟨⟨pubkey, rest'⟩, second, split⟩ := Option.bind_eq_some_iff.mp split
    obtain ⟨⟨port, rest''⟩, third, split⟩ := Option.bind_eq_some_iff.mp split
    obtain ⟨⟨ts, rest'''⟩, fourth, split⟩ := Option.bind_eq_some_iff.mp split
    obtain ⟨⟨nonce, mac⟩, fifth, split⟩ := Option.bind_eq_some_iff.mp split
    cases split
    obtain ⟨rfl, m⟩ := splitOnce_colon.mp first
    obtain ⟨rfl, p⟩ := splitOnce_colon.mp second
    obtain ⟨rfl, q⟩ := splitOnce_colon.mp third
    obtain ⟨rfl, t⟩ := splitOnce_colon.mp fourth
    obtain ⟨rfl, n⟩ := splitOnce_colon.mp fifth
    exact ⟨by simp [BeaconFields.line, BeaconFields.body, String.append_assoc], m, p, q, t, n⟩
  · rintro ⟨rfl, m, p, q, t, n⟩
    simp only [splitFields, BeaconFields.line, BeaconFields.body, String.append_assoc, splitOnce_field m,
      splitOnce_field p, splitOnce_field q, splitOnce_field t, splitOnce_field n, Option.bind_eq_bind,
      Option.bind_some]

theorem take_body (f : BeaconFields) :
    String.ofList (f.line.toList.take (f.line.toList.length - (f.mac.toList.length + 1))) = f.body := by
  have long : f.line.toList.length - (f.mac.toList.length + 1) = f.body.toList.length := by
    simp only [BeaconFields.line, String.toList_append, List.length_append]
    have colon : ":".toList.length = 1 := rfl
    omega
  have whole : f.line.toList = f.body.toList ++ (':' :: f.mac.toList) := by simp [BeaconFields.line]
  rw [long, whole, List.take_left, String.ofList_toList]

theorem colon_not_digit {c : Char} {v : Nat} (read : hexValue c = some v) : c ≠ ':' := by
  rintro rfl
  cases read

theorem plain_of_hexBytes {cs : List Char} {bytes : List UInt8} (read : hexBytes cs = some bytes) : ':' ∉ cs := by
  fun_induction hexBytes cs generalizing bytes with
  | case1 => exact List.not_mem_nil
  | case2 high low rest ih =>
    obtain ⟨h, high_read, read⟩ := Option.bind_eq_some_iff.mp read
    obtain ⟨l, low_read, read⟩ := Option.bind_eq_some_iff.mp read
    obtain ⟨tail, tail_read, read⟩ := Option.bind_eq_some_iff.mp read
    simp only [List.mem_cons, not_or]
    exact ⟨(colon_not_digit high_read).symm, (colon_not_digit low_read).symm, ih tail_read⟩
  | case3 => cases read

theorem plain_of_hexDecode {s : String} {bytes : List UInt8} (read : hexDecode s = some bytes) : ':' ∉ s.toList :=
  plain_of_hexBytes read

theorem plain_hexEncode (bytes : List UInt8) : ':' ∉ (hexEncode bytes).toList :=
  plain_of_hexDecode (hexDecode_hexEncode bytes)

theorem plain_toString (n : Nat) : ':' ∉ (toString n).toList := by
  intro inside
  cases isDigit_of_mem_toString inside

theorem plain_of_isPubkey {pk : String} (valid : isPubkey pk = true) : ':' ∉ pk.toList := by
  intro inside
  have hex := (Bool.and_eq_true_iff.mp valid).2
  cases List.all_eq_true.mp hex ':' inside

variable {hmacSha256 : List UInt8 → List UInt8 → List UInt8} {key : List UInt8} {magic line : String}
  {defaultPort : UInt16} {nowSecs : UInt64}

/-- The checks of the reader on the fields of a line that starts with the magic. -/
structure Passes (hmacSha256 : List UInt8 → List UInt8 → List UInt8) (key : List UInt8) (nowSecs : UInt64)
    (f : BeaconFields) (nonce : Nonce) : Prop where
  mac : hexDecode f.mac = some (hmacSha256 key (utf8 f.body))
  pubkey : isPubkey f.pubkey = true
  fresh : ∃ ts, parseUnsigned (2 ^ 64) f.ts = some ts ∧ absDiff nowSecs.toNat ts ≤ beaconMaxSkewSecs
  nonce : hexDecode f.nonce = some nonce.val

def portOf (defaultPort : UInt16) (field : String) : UInt16 :=
  ((parseUnsigned (2 ^ 16) field).map UInt16.ofNat).getD defaultPort

theorem parseBeacon_eq_some {pk : String} {port : UInt16} {nonce : Nonce} :
    parseBeacon hmacSha256 key magic line defaultPort nowSecs = some (pk, port, nonce) ↔
      startsWith line magic = true ∧ ∃ f, splitFields line = some f ∧ Passes hmacSha256 key nowSecs f nonce ∧
        pk = f.pubkey ∧ port = portOf defaultPort f.port := by
  unfold parseBeacon
  cases starts : startsWith line magic with
  | false => simp
  | true =>
    cases split : splitFields line with
    | none => simp
    | some f =>
      obtain ⟨rfl, -⟩ := splitFields_eq_some.mp split
      simp only [Bool.not_true, Bool.false_eq_true, if_false, Option.bind_eq_bind, Option.bind_some, take_body,
        beaconMac, hexDecode_hexEncode, true_and, Option.some.injEq, exists_eq_left']
      constructor
      · intro accepted
        obtain ⟨got, mac, accepted⟩ := Option.bind_eq_some_iff.mp accepted
        split at accepted
        · cases accepted
        · rename_i genuine
          split at accepted
          · cases accepted
          · rename_i pubkey
            obtain ⟨ts, stamp, accepted⟩ := Option.bind_eq_some_iff.mp accepted
            split at accepted
            · cases accepted
            · rename_i fresh
              obtain ⟨bytes, read, accepted⟩ := Option.bind_eq_some_iff.mp accepted
              split at accepted
              · cases accepted
                rw [not_not.mp genuine] at mac
                exact ⟨⟨mac, by simpa using pubkey, ⟨ts, stamp, Nat.le_of_not_lt fresh⟩, read⟩, rfl, rfl⟩
              · cases accepted
      · rintro ⟨passes, rfl, rfl⟩
        obtain ⟨ts, stamp, fresh⟩ := passes.fresh
        simp only [passes.mac, passes.pubkey, stamp, passes.nonce, Option.bind_some, ne_eq, not_true_eq_false,
          if_false, Bool.not_true, Bool.false_eq_true, if_neg (Nat.not_lt.mpr fresh), dif_pos nonce.2, portOf]

/-- The line that was made for a magic, a public key, a port, a fresh timestamp and a nonce, and ends in its MAC. -/
def Genuine (hmacSha256 : List UInt8 → List UInt8 → List UInt8) (key : List UInt8) (magic : String) (nowSecs : UInt64)
    (line pk : String) (port : UInt16) (nonce : Nonce) : Prop :=
  isPubkey pk = true ∧ ∃ (ts : UInt64) (mac : String), absDiff nowSecs.toNat ts.toNat ≤ beaconMaxSkewSecs ∧
    hexDecode mac = some (hmacSha256 key (utf8 (beaconBody magic pk port ts (hexEncode nonce.val)))) ∧
    line = beaconBody magic pk port ts (hexEncode nonce.val) ++ ":" ++ mac

/-- With an ideal MAC a line ends in the MAC of its body only if somebody with the key made that body, and they make
it with `beacon_body`. -/
def IdealMac (hmacSha256 : List UInt8 → List UInt8 → List UInt8) (key : List UInt8) (line : String) : Prop :=
  ∀ f, splitFields line = some f → hexDecode f.mac = some (hmacSha256 key (utf8 f.body)) →
    ∃ (magic pk : String) (port : UInt16) (ts : UInt64) (nonce : Nonce),
      isPubkey pk = true ∧ f.body = beaconBody magic pk port ts (hexEncode nonce.val)

def sentFields (magic pk : String) (port : UInt16) (ts : UInt64) (nonce : Nonce) (mac : String) : BeaconFields where
  magic := magic
  pubkey := pk
  port := toString port.toNat
  ts := toString ts.toNat
  nonce := hexEncode nonce.val
  mac := mac

theorem sentFields_plain {pk : String} (valid : isPubkey pk = true) (port : UInt16) (ts : UInt64) (nonce : Nonce)
    {mac : String} {tag : List UInt8} (read : hexDecode mac = some tag) :
    (sentFields magic pk port ts nonce mac).Plain :=
  ⟨plain_of_isPubkey valid, plain_toString _, plain_toString _, plain_hexEncode _, plain_of_hexDecode read⟩

theorem genuine_iff {pk : String} {port : UInt16} {nonce : Nonce} :
    Genuine hmacSha256 key magic nowSecs line pk port nonce ↔
      isPubkey pk = true ∧ ∃ (ts : UInt64) (mac : String), absDiff nowSecs.toNat ts.toNat ≤ beaconMaxSkewSecs ∧
        hexDecode mac = some (hmacSha256 key (utf8 (sentFields magic pk port ts nonce mac).body)) ∧
        line = (sentFields magic pk port ts nonce mac).line := Iff.rfl

theorem magic_of_genuine {other pk pk' : String} {port port' : UInt16} {nonce nonce' : Nonce}
    (first : Genuine hmacSha256 key magic nowSecs line pk port nonce)
    (second : Genuine hmacSha256 key other nowSecs line pk' port' nonce') : other = magic := by
  obtain ⟨valid, ts, mac, -, read, made⟩ := genuine_iff.mp first
  obtain ⟨valid', ts', mac', -, read', made'⟩ := genuine_iff.mp second
  have same := line_inj (sentFields_plain valid' port' ts' nonce' read') (sentFields_plain valid port ts nonce read)
    (made'.symm.trans made)
  exact congrArg BeaconFields.magic same

theorem portOf_toString (defaultPort port : UInt16) : portOf defaultPort (toString port.toNat) = port := by
  rw [portOf, parseUnsigned_toString port.toNat_lt]
  simp

theorem line_startsWith {f : BeaconFields} {pre : String} (starts : startsWith f.magic pre = true) :
    startsWith f.line pre = true := by
  obtain ⟨rest, whole⟩ := startsWith_iff.mp starts
  refine startsWith_iff.mpr
    ⟨rest ++ ":" ++ f.pubkey ++ ":" ++ f.port ++ ":" ++ f.ts ++ ":" ++ f.nonce ++ ":" ++ f.mac, ?_⟩
  simp only [BeaconFields.line, BeaconFields.body, whole, String.append_assoc]

theorem startsWith_self (s : String) : startsWith s s = true := startsWith_iff.mpr ⟨"", by simp⟩

theorem split_sentFields {pk : String} (bare : ':' ∉ magic.toList) (valid : isPubkey pk = true) (port : UInt16)
    (ts : UInt64) (nonce : Nonce) (mac : String) :
    splitFields (sentFields magic pk port ts nonce mac).line = some (sentFields magic pk port ts nonce mac) :=
  splitFields_eq_some.mpr
    ⟨rfl, bare, plain_of_isPubkey valid, plain_toString _, plain_toString _, plain_hexEncode _⟩

theorem parseBeacon_of_genuine {sent pk : String} {port : UInt16} {nonce : Nonce} (bare : ':' ∉ sent.toList)
    (genuine : Genuine hmacSha256 key sent nowSecs line pk port nonce) (expected : startsWith line magic = true) :
    parseBeacon hmacSha256 key magic line defaultPort nowSecs = some (pk, port, nonce) := by
  obtain ⟨valid, ts, mac, fresh, read, rfl⟩ := genuine_iff.mp genuine
  refine parseBeacon_eq_some.mpr
    ⟨expected, sentFields sent pk port ts nonce mac, split_sentFields bare valid port ts nonce mac, ?_, rfl, ?_⟩
  · exact ⟨read, valid, ⟨ts.toNat, parseUnsigned_toString ts.toNat_lt, fresh⟩, hexDecode_hexEncode _⟩
  · exact (portOf_toString defaultPort port).symm

theorem genuine_of_passes {f : BeaconFields} {nonce : Nonce} (ideal : IdealMac hmacSha256 key line)
    (split : splitFields line = some f) (passes : Passes hmacSha256 key nowSecs f nonce) :
    Genuine hmacSha256 key f.magic nowSecs line f.pubkey (portOf defaultPort f.port) nonce := by
  obtain ⟨whole, -, pubkey, port, ts, nonceField⟩ := splitFields_eq_some.mp split
  obtain ⟨magic, pk, n, stamp, sent, valid, made⟩ := ideal f split passes.mac
  have plain : f.Plain := ⟨pubkey, port, ts, nonceField, plain_of_hexDecode passes.mac⟩
  have same : f = sentFields magic pk n stamp sent f.mac := by
    refine line_inj plain (sentFields_plain valid n stamp sent passes.mac) ?_
    rw [BeaconFields.line, made]
    rfl
  have read : sent = nonce := by
    have decoded := passes.nonce
    rw [same] at decoded
    simp only [sentFields, hexDecode_hexEncode, Option.some.injEq] at decoded
    exact Subtype.ext decoded
  have fresh : absDiff nowSecs.toNat stamp.toNat ≤ beaconMaxSkewSecs := by
    obtain ⟨t, parsed, close⟩ := passes.fresh
    rw [same] at parsed
    simp only [sentFields, parseUnsigned_toString stamp.toNat_lt, Option.some.injEq] at parsed
    exact parsed ▸ close
  have mac := passes.mac
  rw [whole]
  rw [same] at mac ⊢
  simp only [sentFields, portOf_toString, read] at mac ⊢
  exact genuine_iff.mpr ⟨valid, stamp, f.mac, fresh, mac, rfl⟩

/-- With an ideal MAC the reader accepts what was sent for a magic without a colon, if the line starts with the magic
it expects. -/
theorem accepted_iff (ideal : IdealMac hmacSha256 key line) {pk : String} {port : UInt16} {nonce : Nonce} :
    parseBeacon hmacSha256 key magic line defaultPort nowSecs = some (pk, port, nonce) ↔
      startsWith line magic = true ∧
        ∃ sent, ':' ∉ sent.toList ∧ Genuine hmacSha256 key sent nowSecs line pk port nonce := by
  constructor
  · intro accepted
    obtain ⟨starts, f, split, passes, rfl, rfl⟩ := parseBeacon_eq_some.mp accepted
    exact ⟨starts, f.magic, (splitFields_eq_some.mp split).2.1, genuine_of_passes ideal split passes⟩
  · rintro ⟨starts, sent, bare, genuine⟩
    exact parseBeacon_of_genuine bare genuine starts

/-- The reader accepts exactly the genuine lines for its magic, and none that is genuine for another, exactly when a
line that is genuine for its magic has no colon there, and one that is genuine for another magic without a colon does
not start with the expected one. -/
theorem parse_beacon_exact_iff (hmacSha256 : List UInt8 → List UInt8 → List UInt8) (key : List UInt8)
    (magic line : String) (defaultPort : UInt16) (nowSecs : UInt64) (ideal : IdealMac hmacSha256 key line) :
    ((∀ pk port nonce, parseBeacon hmacSha256 key magic line defaultPort nowSecs = some (pk, port, nonce) ↔
        Genuine hmacSha256 key magic nowSecs line pk port nonce) ∧
      ∀ other pk port nonce, other ≠ magic → Genuine hmacSha256 key other nowSecs line pk port nonce →
        parseBeacon hmacSha256 key magic line defaultPort nowSecs = none) ↔
      ∀ sent pk port nonce, Genuine hmacSha256 key sent nowSecs line pk port nonce →
        (sent = magic → ':' ∉ magic.toList) ∧
        (sent ≠ magic → ':' ∉ sent.toList → startsWith line magic = false) := by
  constructor
  · rintro ⟨exactly, others⟩ sent pk port nonce genuine
    constructor
    · rintro rfl
      have accepted := (exactly pk port nonce).mpr genuine
      obtain ⟨-, own, bare, made⟩ := (accepted_iff ideal).mp accepted
      rwa [magic_of_genuine genuine made] at bare
    · intro different bare
      by_contra starts
      rw [Bool.not_eq_false] at starts
      have refused := others sent pk port nonce different genuine
      rw [(accepted_iff ideal).mpr ⟨starts, sent, bare, genuine⟩] at refused
      cases refused
  · intro apart
    have own : ∀ pk port nonce, parseBeacon hmacSha256 key magic line defaultPort nowSecs = some (pk, port, nonce) →
        Genuine hmacSha256 key magic nowSecs line pk port nonce := by
      intro pk port nonce accepted
      obtain ⟨starts, sent, bare, genuine⟩ := (accepted_iff ideal).mp accepted
      by_cases same : sent = magic
      · exact same ▸ genuine
      · have other := (apart sent pk port nonce genuine).2 same bare
        rw [starts] at other
        cases other
    refine ⟨fun pk port nonce => ⟨own pk port nonce, fun genuine => ?_⟩, ?_⟩
    · have bare := (apart magic pk port nonce genuine).1 rfl
      obtain ⟨-, ts, mac, -, -, made⟩ := genuine_iff.mp genuine
      have starts : startsWith line magic = true := by
        rw [made]
        exact line_startsWith (startsWith_self magic)
      exact (accepted_iff ideal).mpr ⟨starts, magic, bare, genuine⟩
    · intro other pk port nonce different genuine
      cases accepted : parseBeacon hmacSha256 key magic line defaultPort nowSecs with
      | none => rfl
      | some result =>
        obtain ⟨pk', port', nonce'⟩ := result
        exact absurd (magic_of_genuine (own pk' port' nonce' accepted) genuine) different

def zeroPubkey : String := hexEncode (List.replicate 32 0)
def zeroNonce : Nonce := ⟨List.replicate 16 0, rfl⟩

/-- A beacon of the zero public key at time 100. -/
def zeroLine (hmacSha256 : List UInt8 → List UInt8 → List UInt8) (key : List UInt8) (magic : String) (nonce : Nonce) :
    String :=
  beaconBody magic zeroPubkey 7777 100 (hexEncode nonce.val) ++ ":" ++
    beaconMac hmacSha256 key (beaconBody magic zeroPubkey 7777 100 (hexEncode nonce.val))

theorem zeroPubkey_valid : isPubkey zeroPubkey = true := by decide

theorem zeroLine_genuine (nonce : Nonce) :
    Genuine hmacSha256 key magic 100 (zeroLine hmacSha256 key magic nonce) zeroPubkey 7777 nonce :=
  ⟨zeroPubkey_valid, 100, _, by decide, hexDecode_hexEncode _, rfl⟩

theorem zeroLine_eq (nonce : Nonce) : zeroLine hmacSha256 key magic nonce =
    (sentFields magic zeroPubkey 7777 100 nonce
      (beaconMac hmacSha256 key (beaconBody magic zeroPubkey 7777 100 (hexEncode nonce.val)))).line := rfl

theorem zeroLine_ideal (bare : ':' ∉ magic.toList) (nonce : Nonce) :
    IdealMac hmacSha256 key (zeroLine hmacSha256 key magic nonce) := by
  intro f split _
  rw [zeroLine_eq, split_sentFields bare zeroPubkey_valid] at split
  cases split
  exact ⟨magic, zeroPubkey, 7777, 100, nonce, zeroPubkey_valid, rfl⟩

/-- A zero beacon is accepted where the magic it was sent for is expected, or a prefix of that. -/
theorem parseBeacon_zeroLine {sent : String} (bare : ':' ∉ sent.toList) (starts : startsWith sent magic = true)
    (nonce : Nonce) :
    parseBeacon hmacSha256 key magic (zeroLine hmacSha256 key sent nonce) defaultPort 100 =
      some (zeroPubkey, 7777, nonce) := by
  refine parseBeacon_of_genuine bare (zeroLine_genuine nonce) ?_
  rw [zeroLine_eq]
  exact line_startsWith starts

/-- HMAC-SHA256 of the zero beacon's body under the zero key. -/
def zeroHmac (_ body : List UInt8) : List UInt8 :=
  if body = utf8 (beaconBody lanMagic zeroPubkey 7777 100 (hexEncode zeroNonce.val)) then
    [0xdd, 0x24, 0xa0, 0x9b, 0x6f, 0x66, 0xb3, 0xc6, 0x0c, 0x8d, 0xef, 0x6c, 0x37, 0x29, 0x0c, 0x16,
      0x68, 0x1a, 0x99, 0x2c, 0x61, 0x17, 0x6b, 0x7e, 0x62, 0xa6, 0xf0, 0x96, 0xeb, 0x66, 0xf3, 0x27]
  else []

theorem zero_beacon_exact :
    IdealMac zeroHmac (List.replicate 32 0) (zeroLine zeroHmac (List.replicate 32 0) lanMagic zeroNonce) ∧
      parseBeacon zeroHmac (List.replicate 32 0) lanMagic
          (zeroLine zeroHmac (List.replicate 32 0) lanMagic zeroNonce) 0 100 =
        some (zeroPubkey, 7777, zeroNonce) := by
  have ideal : IdealMac zeroHmac (List.replicate 32 0)
      (zeroLine zeroHmac (List.replicate 32 0) lanMagic zeroNonce) := zeroLine_ideal (by decide) zeroNonce
  have exactly := (parse_beacon_exact_iff zeroHmac (List.replicate 32 0) lanMagic _ 0 100 ideal).mpr ?_
  · exact ⟨ideal, (exactly.1 zeroPubkey 7777 zeroNonce).mpr (zeroLine_genuine zeroNonce)⟩
  · intro sent pk port nonce genuine
    obtain rfl := magic_of_genuine (zeroLine_genuine zeroNonce) genuine
    exact ⟨fun _ => by decide, fun different => absurd rfl different⟩

/-- Whatever the MAC is, a beacon sent for `soshal-lan2` is accepted where `soshal-lan` is expected. -/
theorem longer_magic_accepted :
    ¬ ∃ hmacSha256 : List UInt8 → List UInt8 → List UInt8, ∀ key magic line defaultPort nowSecs,
      IdealMac hmacSha256 key line →
      (∀ pk port nonce, parseBeacon hmacSha256 key magic line defaultPort nowSecs = some (pk, port, nonce) ↔
        Genuine hmacSha256 key magic nowSecs line pk port nonce) ∧
      ∀ other pk port nonce, other ≠ magic → Genuine hmacSha256 key other nowSecs line pk port nonce →
        parseBeacon hmacSha256 key magic line defaultPort nowSecs = none := by
  rintro ⟨hmacSha256, exactly⟩
  have accepted : parseBeacon hmacSha256 [] lanMagic (zeroLine hmacSha256 [] "soshal-lan2" zeroNonce) 0 100 =
      some (zeroPubkey, 7777, zeroNonce) :=
    parseBeacon_zeroLine (by decide) (startsWith_iff.mpr ⟨"2", rfl⟩) zeroNonce
  have refused := (exactly [] lanMagic _ 0 100 (zeroLine_ideal (by decide) zeroNonce)).2 "soshal-lan2" zeroPubkey 7777
    zeroNonce (by decide) (zeroLine_genuine zeroNonce)
  rw [accepted] at refused
  cases refused

end Soshal.Network.Beacon
