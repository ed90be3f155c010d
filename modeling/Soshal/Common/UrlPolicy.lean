import Soshal.Library.IpAddr
import Soshal.Library.Patterns

/-! Which hosts a media URL and a relay URL may have.

Parsing a URL is left to a library: it says which scheme, credentials and host a
text has, and writes an address as a host in one spelling only. What is decided
here is the host policy: two predicates on addresses and a set of patterns on the
host as text.
-/

set_option autoImplicit false

namespace Soshal.Common

open Library
open Library.Text (byteLen trimList)

def maxUrlLength : Nat := 2048

/-- A host as the parser returns it: a domain in ASCII, or an address. -/
inductive Host where
  | domain (text : List Char) (ascii : ∀ c ∈ text, c.toNat < 128)
  | ipv4 (addr : Ipv4Addr)
  | ipv6 (addr : Ipv6Addr)

def Host.hostStr : Host → List Char
  | .domain text _ => text
  | .ipv4 addr => addr.text
  | .ipv6 addr => '[' :: (addr.text ++ [']'])

structure Url where
  scheme : String
  username : String
  password : Option String
  host : Option Host

def Ipv4Addr.isMulticast (addr : Ipv4Addr) : Bool := decide (224 ≤ addr.a ∧ addr.a ≤ 239)

def isPrivateIpv4 (addr : Ipv4Addr) : Bool :=
  addr.a == 0 || addr.a == 10 || addr.a == 127 || (addr.a == 169 && addr.b == 254) ||
    (addr.a == 172 && decide (16 ≤ addr.b ∧ addr.b ≤ 31)) || (addr.a == 192 && addr.b == 168) ||
    (addr.a == 100 && decide (64 ≤ addr.b ∧ addr.b ≤ 127)) || (addr.a == 198 && (addr.b == 18 || addr.b == 19)) ||
    decide (addr.a ≥ 240) || Ipv4Addr.isMulticast addr

/-- The IPv4 address in two segments. -/
def v4Of (high low : UInt16) : Ipv4Addr := ⟨(high >>> 8).toUInt8, high.toUInt8, (low >>> 8).toUInt8, low.toUInt8⟩

def toIpv4Mapped (addr : Ipv6Addr) : Option Ipv4Addr :=
  match addr.segments with
  | [0, 0, 0, 0, 0, 0xffff, s6, s7] => some (v4Of s6 s7)
  | _ => none

def isPrivateIpv6 (addr : Ipv6Addr) : Bool :=
  match addr.segments with
  | [s0, s1, s2, s3, s4, s5, s6, s7] =>
    -- unspecified, loopback or multicast
    if addr.segments = [0, 0, 0, 0, 0, 0, 0, 0] ∨ addr.segments = [0, 0, 0, 0, 0, 0, 0, 1] ∨ s0 &&& 0xff00 = 0xff00 then
      true
    else if s0 &&& 0xffc0 = 0xfe80 then true
    else if s0 &&& 0xfe00 = 0xfc00 then true
    else
      match toIpv4Mapped addr with
      | some mapped => isPrivateIpv4 mapped
      | none =>
        if s0 = 0 ∧ s1 = 0 ∧ s2 = 0 ∧ s3 = 0 ∧ s4 = 0xffff ∧ s5 = 0 then isPrivateIpv4 (v4Of s6 s7)
        else if s0 = 0x64 ∧ s1 = 0xff9b ∧ (s2 = 0 ∨ s2 = 1) ∧ s3 = 0 ∧ s4 = 0 ∧ s5 = 0 then isPrivateIpv4 (v4Of s6 s7)
        else if s0 = 0x2001 ∧ s1 = 0 then true
        else if s0 = 0x2002 then isPrivateIpv4 (v4Of s1 s2)
        else if s0 = 0 ∧ s1 = 0 ∧ s2 = 0 ∧ s3 = 0 ∧ s4 = 0 ∧ s5 = 0 then isPrivateIpv4 (v4Of s6 s7)
        else false
  | _ => false

def isPrivateIp : IpAddr → Bool
  | .v4 addr => isPrivateIpv4 addr
  | .v6 addr =>
    match toIpv4Mapped addr with
    | some mapped => isPrivateIpv4 mapped
    | none => isPrivateIpv6 addr

def withoutBrackets (host : List Char) : List Char :=
  ((trimList host).dropWhile (· == '[')).rdropWhile (· == ']')

def isPrivateIpv6Str (host : List Char) : Bool :=
  match parseWith readIpv6Addr (withoutBrackets host) with
  | some addr => isPrivateIpv6 addr
  | none => false

def isPrivateIpStr (host : List Char) : Bool :=
  match parseWith readIpAddr (withoutBrackets host) with
  | some addr => isPrivateIp addr
  | none => false

def isHexLower (c : Char) : Bool := c.isDigit || ('a' ≤ c && c ≤ 'f')

def dotThen (body : Regex) : Regex := .seq (.literal id ['.']) body

def octetRegex : Regex := .many Char.isDigit 1 (some 3)

def reDigits5 : Pattern := ⟨true, .many Char.isDigit 5 none, false⟩
def reHexHost : Pattern :=
  ⟨true, .seq (.literal Char.toLower "0x".toList) (.many (fun c => isHexLower c.toLower) 1 none), true⟩
def reIpv4Host : Pattern :=
  ⟨true, .seq octetRegex (.seq (dotThen octetRegex) (.seq (dotThen octetRegex) (dotThen octetRegex))), true⟩
def reDigitsOnly : Pattern := ⟨true, .many Char.isDigit 1 none, true⟩

def addressPatterns : List Pattern :=
  [.literal Char.toLower false "localhost" false,
    .literal id false "127.0.0.1" false,
    .literal id true "127." false,
    .literal Char.toLower false "0x7f" false,
    .literal id true "169.254." false,
    .literal id true "192.168." false,
    .literal id true "10." false,
    ⟨true, .seq (.literal id "172.".toList) (.seq
      (.alt (.seq (.literal id ['1']) (.one fun c => decide ('6' ≤ c ∧ c ≤ '9')))
        (.alt (.seq (.literal id ['2']) (.one Char.isDigit))
          (.seq (.literal id ['3']) (.one fun c => decide ('0' ≤ c ∧ c ≤ '1'))))) (.literal id ['.'])), false⟩,
    .literal id false "::1" false,
    .literal Char.toLower false "fc00:" false,
    .literal Char.toLower false "fe80:" false,
    .literal id true "0.0.0.0" true,
    .literal id true "0" true,
    ⟨true, .seq (.literal id ['0']) (.seq (.many (fun c => decide ('0' ≤ c ∧ c ≤ '7')) 1 none) (.literal id ['.'])), false⟩,
    ⟨true, .seq (.literal Char.toLower "0x".toList) (.seq (.many (fun c => isHexLower c.toLower) 1 none)
      (.literal id ['.'])), false⟩,
    ⟨true, .many Char.isDigit 5 none, false⟩]

/-- The patterns on domains that resolve to whatever address their name spells. -/
def rebindingPatterns : List Pattern :=
  [".nip.io", ".xip.io", ".sslip.io", ".localtest.me", ".loca.lt", ".customer.your-server.de", ".dns.to",
      ".traefik.me"].map (Pattern.literal Char.toLower false · true) ++
    ["nip.io", "xip.io", "sslip.io", "localtest.me", "loca.lt"].map (Pattern.literal Char.toLower true · true)

def hostSecurityRegexSet : List Pattern := addressPatterns ++ rebindingPatterns

def setMatches (set : List Pattern) (text : List Char) : Bool := set.any (·.isMatch text)

section Validators

-- what the URL library makes of a text
variable (parse : String → Option Url)

def hasCredentials (parsed : Url) : Bool := !parsed.username.isEmpty || parsed.password.isSome

def isValidMediaUrl (url : String) : Bool :=
  if byteLen url > maxUrlLength ∨ url.isEmpty then false
  else
    match parse url with
    | none => false
    | some parsed =>
      if parsed.scheme ≠ "http" ∧ parsed.scheme ≠ "https" then false
      else
        let hostname := (parsed.host.map Host.hostStr).getD []
        if hasCredentials parsed then false
        else if isPrivateIpStr hostname || isPrivateIpv6Str hostname then false
        else if setMatches hostSecurityRegexSet hostname then false
        else if reDigits5.isMatch hostname then false
        else if reDigitsOnly.isMatch hostname then false
        else if reHexHost.isMatch hostname then false
        else true

/-- Whether the URL is accepted, and whether its host is in Punycode. -/
def isValidRelayUrl (url : String) : Bool × Bool :=
  if url.isEmpty ∨ byteLen url > maxUrlLength then (false, false)
  else
    match parse url with
    | none => (false, false)
    | some parsed =>
      if parsed.scheme ≠ "ws" ∧ parsed.scheme ≠ "wss" then (false, false)
      else if hasCredentials parsed then (false, false)
      else
        match parsed.host.map Host.hostStr with
        | none => (false, false)
        | some hostname =>
          if hostname.isEmpty then (false, false)
          else if !hostname.contains '.' then (false, false)
          else if reIpv4Host.isMatch hostname || hostname.contains ':' || reHexHost.isMatch hostname ||
              reDigitsOnly.isMatch hostname then (false, false)
          else if setMatches hostSecurityRegexSet hostname then (false, false)
          else
            (true, "xn--".toList.isPrefixOf hostname || (Pattern.literal id false ".xn--" false).isMatch hostname)

end Validators

end Soshal.Common
