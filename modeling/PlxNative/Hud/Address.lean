import PlxNative.Lib.Text
import PlxNative.Lib.Words

/-! The address a viewer types to install a package from: a GitHub release, an `https` URL,
or the `http` URL of a machine on the home network. -/
namespace PlxNative.Hud
open Text

structure Address where
  url : String
  host : String
  devSource : Bool
deriving DecidableEq

namespace Address

def addressLenLimit : Nat := 2048

def ownerLenLimit : Nat := 39

def repoLenLimit : Nat := 100

def tagLenLimit : Nat := 128

inductive AddressError where
  | empty
  | tooLong
  | form
  | githubShape
  | githubOwner
  | githubRepo
  | githubTag
  | malformed
  | noHost
  | userinfo
  | badPort
  | httpNotPrivate

section

def isHexdigit (c : Char) : Bool := isAsciiHexdigit c

/-- The digits at the front, no more than `most` of them. -/
def readDigits (digit : Char → Bool) (most : Nat) (s : Text) : Option (Text × Text) :=
  let digits := s.takeWhile digit
  if 1 ≤ digits.length ∧ digits.length ≤ most then some (digits, s.drop digits.length) else none

def readOctet (s : Text) : Option (Nat × Text) := do
  let (digits, rest) ← readDigits Char.isDigit 3 s
  if digits.head? = some '0' ∧ 1 < digits.length then none
  let value ← Usize.parseDigits digits 0
  if value ≤ 255 then some (value, rest) else none

def readGivenChar (c : Char) : Text → Option Text
  | [] => none
  | x :: rest => if x = c then some rest else none

def readIpv4Addr (s : Text) : Option (List Nat × Text) := do
  let (a, s) ← readOctet s
  let s ← readGivenChar '.' s
  let (b, s) ← readOctet s
  let s ← readGivenChar '.' s
  let (c, s) ← readOctet s
  let s ← readGivenChar '.' s
  let (d, s) ← readOctet s
  return ([a, b, c, d], s)

/-- A dotted address and nothing behind it. -/
def parseIpv4 (s : Text) : Option (List Nat) :=
  match readIpv4Addr s with
  | some (octets, []) => some octets
  | _ => none

def isPrivate : List Nat → Bool
  | 10 :: _ => true
  | 172 :: b :: _ => 16 ≤ b && b ≤ 31
  | 192 :: 168 :: _ => true
  | _ => false

/-- Before every group but the first stands a colon. -/
def readSeparator (index : Nat) (s : Text) : Option Text := if index = 0 then some s else readGivenChar ':' s

/-- The groups at the front of an IPv6 text: how many, whether a dotted address ended them,
and what is left. -/
def readGroups (limit : Nat) : Nat → Text → Nat × Bool × Text
  | 0, s => (limit, false, s)
  | left + 1, s =>
    let index := limit - (left + 1)
    match if left = 0 then none else (readSeparator index s).bind readIpv4Addr with
    | some (_, rest) => (index + 2, true, rest)
    | none => match (readSeparator index s).bind (readDigits isHexdigit 4) with
      | some (_, rest) => readGroups limit left rest
      | none => (index, false, s)

def isIpv6 (s : Text) : Bool :=
  match readGroups 8 8 s with
  | (8, _, rest) => rest.isEmpty
  | (_, true, _) => false
  | (head, false, ':' :: ':' :: rest) => (readGroups (7 - head) (7 - head) rest).2.2.isEmpty
  | _ => false

end

def stripScheme (text scheme : Text) : Option Text :=
  if eqIgnoreAsciiCase (text.take scheme.length) scheme then some (text.drop scheme.length) else none

def isAsciiAlphanumeric (c : Char) : Bool := c.isAlphanum

def startsWith (c : Char) (s : Text) : Bool := s.head? == some c

def endsWith (c : Char) (s : Text) : Bool := s.getLast? == some c

/-- Letters, digits and hyphens, with no hyphen at either end. -/
def hyphenated (limit : Nat) (s : Text) : Bool :=
  1 ≤ s.length && s.length ≤ limit && s.all (fun c => isAsciiAlphanumeric c || c == '-') &&
    !startsWith '-' s && !endsWith '-' s

def githubOwner (owner : Text) : Bool := hyphenated ownerLenLimit owner

def githubRepo (repo : Text) : Bool :=
  1 ≤ repo.length && repo.length ≤ repoLenLimit &&
    repo.all (fun c => isAsciiAlphanumeric c || c == '-' || c == '_' || c == '.') && repo != ['.'] && repo != ['.', '.']

def githubTag (tag : Text) : Bool :=
  1 ≤ tag.length && tag.length ≤ tagLenLimit &&
    tag.all (fun c => isAsciiAlphanumeric c || c == '-' || c == '_' || c == '.' || c == '+') &&
    !startsWith '.' tag && (splitOnText ['.', '.'] tag).isNone

def githubAddress (owner repo : Text) (release : String) : Address :=
  { url := "https://github.com/" ++ String.ofList owner ++ "/" ++ String.ofList repo ++ "/releases/" ++ release ++
      "/hud.plxhud"
    host := "github.com", devSource := false }

def github (rest : Text) : Except AddressError Address :=
  let (path, tag) := match splitOnce '@' rest with
    | some (path, tag) => (path, some tag)
    | none => (rest, none)
  match path.splitOn '/' with
  | [owner, repo] =>
    if !githubOwner owner then .error .githubOwner
    else if !githubRepo repo then .error .githubRepo
    else match tag with
      | none => .ok (githubAddress owner repo "latest/download")
      | some tag =>
        if githubTag tag then .ok (githubAddress owner repo ("download/" ++ String.ofList tag)) else .error .githubTag
  | _ => .error .githubShape

def urlByte (c : Char) : Bool := isAsciiAlphanumeric c || "-._~:/?#[]@!$&'()*+,;=%".toList.contains c

/-- Every percent sign is followed by two hexadecimal digits. -/
def percentEscapesWhole : Text → Bool
  | [] => true
  | '%' :: a :: b :: rest => isHexdigit a && isHexdigit b && percentEscapesWhole (a :: b :: rest)
  | c :: rest => c != '%' && percentEscapesWhole rest

def rsplitOnce (c : Char) (s : Text) : Option (Text × Text) :=
  (splitOnce c s.reverse).map (fun cut => (cut.2.reverse, cut.1.reverse))

/-- The host of an authority and the digits of its port; a bracketed literal keeps its
brackets. -/
def splitPort (authority : Text) : Except AddressError (Text × Option Text) :=
  if startsWith '[' authority then
    match splitOnce ']' authority with
    | none => .error .malformed
    | some (inner, []) => .ok (inner ++ [']'], none)
    | some (inner, ':' :: port) => .ok (inner ++ [']'], some port)
    | some _ => .error .malformed
  else match rsplitOnce ':' authority with
    | some (host, port) => .ok (host, some port)
    | none => .ok (authority, none)

def portInRange (digits : Text) : Bool :=
  !digits.isEmpty && digits.length ≤ 5 && digits.all Char.isDigit &&
    ((Usize.parseDigits digits 0).map (fun port => decide (1 ≤ port ∧ port ≤ 65535))).getD false

def hostName (host : Text) : Bool := host.length ≤ 253 && (host.splitOn '.').all (hyphenated 63)

def bracketed (host : Text) : Option Text := (stripPrefix ['['] host).bind (stripSuffix [']'])

def ipv6Literal (host : Text) : Bool := ((bracketed host).map isIpv6).getD false

def bare (host : Text) : Text := (bracketed host).getD host

/-- The part before the path, the query and the fragment. -/
def authorityOf (rest : Text) : Text := rest.takeWhile (fun c => c != '/' && c != '?' && c != '#')

def web (rest : Text) (secure : Bool) : Except AddressError Address :=
  if !rest.all urlByte || !percentEscapesWhole rest then .error .malformed
  else if (authorityOf rest).contains '@' then .error .userinfo
  else match splitPort (authorityOf rest) with
    | .error why => .error why
    | .ok (host, port) =>
      if host.isEmpty then .error .noHost
      else if !(port.map portInRange).getD true then .error .badPort
      else if secure then
        if !hostName host && !ipv6Literal host then .error .malformed
        else .ok { url := "https://" ++ String.ofList rest, host := String.ofList (bare host), devSource := false }
      else if ((parseIpv4 host).map isPrivate).getD false then
        .ok { url := "http://" ++ String.ofList rest, host := String.ofList host, devSource := true }
      else .error .httpNotPrivate

def parse (text : String) : Except AddressError Address :=
  let text := trim text.toList
  if text.isEmpty then .error .empty
  else if addressLenLimit < byteLen text then .error .tooLong
  else match stripScheme text "gh:".toList, stripScheme text "https://".toList, stripScheme text "http://".toList with
    | some rest, _, _ => github rest
    | none, some rest, _ => web rest true
    | none, none, some rest => web rest false
    | none, none, none => .error .form

end Address
end PlxNative.Hud
