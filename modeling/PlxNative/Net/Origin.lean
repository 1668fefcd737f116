import PlxNative.Lib.Text
import PlxNative.Lib.Words

/-! Where a server is, as one value read out of a URL: scheme, host and port. -/
namespace PlxNative.Net
open Text

inductive Scheme
  | https
  | http
deriving DecidableEq

def Scheme.asStr : Scheme → Text
  | .http => "http".toList
  | .https => "https".toList

def Scheme.isTls : Scheme → Bool
  | .https => true
  | .http => false

def defaultPort : Int := 32400

def dialPort (p : Int) : Option Int := if 1 ≤ p ∧ p ≤ 65535 then some p else none

def unbracket (host : Text) : Text :=
  ((stripPrefix ['['] host).bind (stripSuffix [']'])).getD host

structure Origin where
  scheme : Scheme
  host : Text
  port : Int
deriving DecidableEq

namespace Origin

def new (scheme : Scheme) (host : Text) (port : Int) : Origin := ⟨scheme, unbracket host, port⟩

def isTls (o : Origin) : Bool := o.scheme.isTls

end Origin

/-- The raw reading of a URL, before any policy is applied to it. -/
structure Parts where
  scheme : Scheme
  schemeKnown : Bool
  host : Text
  port : Option Int
  portBad : Bool
  path : Text

namespace Parts

/-- The scheme, whether it is one of ours, and the rest. -/
def schemeOf (url : Text) : Scheme × Bool × Text :=
  match splitOnText "://".toList url with
  | some (scheme, rest) =>
    if scheme = "http".toList then (.http, true, rest)
    else if scheme = "https".toList then (.https, true, rest)
    else (.http, false, rest)
  | none => (.http, true, url)

/-- The host, and the text of the port where a colon was written. A bracketed literal carries
its own colons. -/
def hostOf (auth : Text) : Text × Option Text :=
  match (stripPrefix ['['] auth).bind (splitOnce ']') with
  | some (host, after) => (host, stripPrefix [':'] after)
  | none => match splitOnce ':' auth with
    | some (host, port) => (host, some port)
    | none => (auth, none)

def of (url : Text) : Parts :=
  let (scheme, schemeKnown, rest) := schemeOf url
  let auth := rest.takeWhile (· ≠ '/')
  let path := rest.dropWhile (· ≠ '/')
  let (host, portText) := hostOf auth
  let port := (portText.bind Usize.parseI64).bind dialPort
  ⟨scheme, schemeKnown, host, port, portText.isSome && port.isNone, path⟩

end Parts

def Origin.parse (url : Text) : Option Origin :=
  let p := Parts.of url
  if p.schemeKnown && !p.host.isEmpty && !p.portBad then some (.new p.scheme p.host (p.port.getD defaultPort)) else none

/-- The origin of a URL and the rest of it. Total, unlike `Origin.parse`. -/
def split (url : Text) : Origin × Text :=
  let p := Parts.of url
  (.new p.scheme p.host (p.port.getD defaultPort), p.path)

example : Origin.parse "http://[::1]:80/a".toList = some ⟨.http, "::1".toList, 80⟩ := by decide

end PlxNative.Net
