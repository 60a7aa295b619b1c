import Cccp.Lib.Regex
import Mathlib.Data.List.SplitOn

/-!
# Locations

`IoSpec::from_str` reads `[user@][host:{port:}]file` with one regular expression, and
`Display` writes it for the remote side to read again.  The expression is not anchored and
every part but the file is optional, so that text it does not understand becomes the file.

-/

namespace Cccp

/-! ## Addresses -/

structure Ipv4 where
  a : UInt8
  b : UInt8
  c : UInt8
  d : UInt8
  deriving DecidableEq

structure Ipv6 where
  segments : List UInt16
  eight : segments.length = 8
  deriving DecidableEq

inductive SocketAddr where
  | v4 (ip : Ipv4) (port : UInt16)
  | v6 (ip : Ipv6) (port : UInt16) (flowinfo scopeId : UInt32)
  deriving DecidableEq

def decimal (n : Nat) : List Char := Nat.toDigits 10 n

def Ipv4.display (ip : Ipv4) : List Char :=
  ['.'].intercalate
    [decimal ip.a.toNat, decimal ip.b.toNat, decimal ip.c.toNat, decimal ip.d.toNat]

/-- A run of zero segments. -/
structure Span where
  start : Nat
  len : Nat

/-- The first of the longest runs of zeros. -/
def zeroes (segments : List UInt16) : Span :=
  (segments.zipIdx.foldl (fun (longest, current) (segment, i) =>
    if segment = 0 then
      let current := if current.len = 0 then ⟨i, 1⟩ else ⟨current.start, current.len + 1⟩
      (if current.len > longest.len then current else longest, current)
    else (longest, ⟨0, 0⟩)) (⟨0, 0⟩, ⟨0, 0⟩) : Span × Span).1

def displaySegments (segments : List UInt16) : List Char :=
  [':'].intercalate (segments.map fun segment => Nat.toDigits 16 segment.toNat)

/-- `Display` of an `Ipv6Addr`: a mapped IPv4 address is written as such, and the longest
run of two or more zeros is left out. -/
def Ipv6.display (ip : Ipv6) : List Char :=
  match ip.segments with
  | [0, 0, 0, 0, 0, 0xffff, g, h] =>
      [':', ':', 'f', 'f', 'f', 'f', ':'] ++
        Ipv4.display ⟨(g >>> 8).toUInt8, g.toUInt8, (h >>> 8).toUInt8, h.toUInt8⟩
  | segments =>
      let span := zeroes segments
      if span.len > 1 then
        displaySegments (segments.take span.start) ++ ':' :: ':' ::
          displaySegments (segments.drop (span.start + span.len))
      else displaySegments segments

def SocketAddr.display : SocketAddr → List Char
  | .v4 ip port => ip.display ++ ':' :: decimal port.toNat
  | .v6 ip port _ scopeId =>
      '[' :: ip.display ++ (if scopeId = 0 then [] else '%' :: decimal scopeId.toNat) ++
        ']' :: ':' :: decimal port.toNat

/-- `host.ip().is_loopback()` -/
def SocketAddr.isLoopback : SocketAddr → Bool
  | .v4 ip _ => decide (ip.a = 127)
  | .v6 ip _ _ _ => decide (ip.segments = [0, 0, 0, 0, 0, 0, 0, 1])

/-! ## Parsing addresses -/

def parseOctet (text : List Char) : Option UInt8 :=
  if text ≠ [] ∧ text.length ≤ 3 ∧ text.all Char.isDigit ∧ (text.head? = some '0' → text = ['0']) ∧
      Nat.ofDigitChars 10 text 0 < 256 then
    some (UInt8.ofNat (Nat.ofDigitChars 10 text 0))
  else none

/-- `IpAddr::from_str` on a text without colons, which no IPv6 address is. -/
def parseIp (text : List Char) : Option Ipv4 :=
  match text.splitOn '.' with
  | [a, b, c, d] => do
      return ⟨← parseOctet a, ← parseOctet b, ← parseOctet c, ← parseOctet d⟩
  | _ => none

/-- `u16::from_str` on a text without a sign. -/
def parsePort (text : List Char) : Option UInt16 :=
  if text ≠ [] ∧ text.all Char.isDigit ∧ Nat.ofDigitChars 10 text 0 < 65536 then
    some (UInt16.ofNat (Nat.ofDigitChars 10 text 0))
  else none

/-! ## The pattern -/

/-- The classes `\w` and `\d`, which are Unicode classes. -/
structure CharClasses where
  word : Char → Bool
  digit : Char → Bool
  word_ascii : ∀ c : Char, c.toNat < 128 → word c = (c.isAlphanum || decide (c = '_'))
  digit_ascii : ∀ c : Char, c.toNat < 128 → digit c = c.isDigit

namespace CharClasses

variable (classes : CharClasses)

/-- `[\w-]` -/
def user (c : Char) : Bool := classes.word c || decide (c = '-')

/-- `[\w.-]` -/
def host (c : Char) : Bool := classes.word c || decide (c = '.') || decide (c = '-')

end CharClasses

/-- `.` -/
def line (c : Char) : Bool := decide (c ≠ '\n')

def literal (expected : Char) : Regex Char := .chars fun c => decide (c = expected)

/-- `(?::(\d+))?:` -/
def portPattern (classes : CharClasses) : Regex Char :=
  .seq (.optional (.seq (literal ':') (.group 3 (.many classes.digit)))) (literal ':')

/-- `([\w.-]+)(?::(\d+))?:` -/
def hostPattern (classes : CharClasses) : Regex Char :=
  .seq (.group 2 (.many classes.host)) (portPattern classes)

/-- `([\w-]+)@` -/
def userPattern (classes : CharClasses) : Regex Char :=
  .seq (.group 1 (.many classes.user)) (literal '@')

/-- `(.+)` -/
def filePattern : Regex Char := .group 4 (.many line)

/-- `(?:(?:([\w-]+)@)?([\w.-]+)(?::(\d+))?:)?(.+)` -/
def pattern (classes : CharClasses) : Regex Char :=
  .seq (.optional (.seq (.optional (userPattern classes)) (hostPattern classes))) filePattern

/-! ## Locations -/

structure IoSpec where
  filePath : List Char
  host : Option SocketAddr
  username : List Char
  deriving DecidableEq

/-- What a host knows besides: its current user, and the addresses of a name with a port;
`none` is an error of the resolver. -/
structure Environment where
  whoami : List Char
  toSocketAddrs : List Char → UInt16 → Option (List SocketAddr)

inductive IoSpecError where
  | invalidIoSpec
  | invalidPort
  | noSuchHost
  | io
  deriving DecidableEq

namespace IoSpec

def resolveHost (env : Environment) (host : List Char) (port : UInt16) :
    Except IoSpecError SocketAddr :=
  match parseIp host with
  | some ip => .ok (.v4 ip port)
  | none =>
      -- not an ip address, resolve it as a domain and use the first address
      match env.toSocketAddrs host port with
      | none => .error .io
      | some [] => .error .noSuchHost
      | some (first :: _) => .ok first

def portOf (captures : Regex.Captures Char) : Except IoSpecError UInt16 :=
  match captures 3 with
  | none => .ok 22
  | some digits =>
      match parsePort digits with
      | some port => .ok port
      | none => .error .invalidPort

def hostOf (env : Environment) (captures : Regex.Captures Char) (port : UInt16) :
    Except IoSpecError (Option SocketAddr) :=
  match captures 2 with
  | none => .ok none
  | some host => some <$> resolveHost env host port

/-- The location that was captured. -/
def ofCaptures (env : Environment) (captures : Regex.Captures Char) : Except IoSpecError IoSpec := do
  let username := (captures 1).getD env.whoami
  let port ← portOf captures
  let host ← hostOf env captures port
  return { filePath := (captures 4).getD [], host := host, username := username }

def fromStr (classes : CharClasses) (env : Environment) (text : List Char) :
    Except IoSpecError IoSpec :=
  match (pattern classes).find text with
  | none => .error .invalidIoSpec
  | some captures => ofCaptures env captures

def localhost : List Char := ['l', 'o', 'c', 'a', 'l', 'h', 'o', 's', 't']

/-- What stands between the user and the file. -/
def displayHost (host : Option SocketAddr) : List Char :=
  match host with
  | none => localhost
  | some host => host.display

def display (x : IoSpec) : List Char :=
  x.username ++ '@' :: (displayHost x.host ++ ':' :: x.filePath)

end IoSpec

end Cccp
