import PlxNative.Lib.Text

/-! The literals that the standard library reads as an IP address. Each reader takes what it needs
off the front of the text and leaves the rest. -/
namespace PlxNative.Net

structure Ipv4Addr where
  a : Nat
  b : Nat
  c : Nat
  d : Nat
deriving Repr, DecidableEq

/-- The eight segments of a v6 address are a list of that length. -/
inductive IpAddr where
  | v4 (address : Ipv4Addr)
  | v6 (segments : List Nat)
deriving Repr, DecidableEq

namespace Ipv4Addr

def isLoopback (o : Ipv4Addr) : Bool := o.a = 127

def isPrivate (o : Ipv4Addr) : Bool := o.a = 10 || o.a = 172 && 16 ≤ o.b && o.b ≤ 31 || o.a = 192 && o.b = 168

def isLinkLocal (o : Ipv4Addr) : Bool := o.a = 169 && o.b = 254

end Ipv4Addr

namespace IpAddr

/-- The v4 host that `::ffff:a.b.c.d` spells for a v6 socket. -/
def toIpv4Mapped : List Nat → Option Ipv4Addr
  | [0, 0, 0, 0, 0, 0xffff, ab, cd] => some ⟨ab / 256, ab % 256, cd / 256, cd % 256⟩
  | _ => none

def isLoopbackV6 (segments : List Nat) : Bool := segments = [0, 0, 0, 0, 0, 0, 0, 1]

def toDigit (radix : Nat) (c : Char) : Option Nat :=
  let value :=
    if c.isDigit then some (c.toNat - '0'.toNat)
    else if 'a' ≤ c && c ≤ 'z' then some (c.toNat - 'a'.toNat + 10)
    else if 'A' ≤ c && c ≤ 'Z' then some (c.toNat - 'A'.toNat + 10)
    else none
  value.filter (· < radix)

/-- A number of so many digits at most, below a bound. -/
def readNumber (radix maxDigits bound : Nat) (allowZeroPrefix : Bool) (s : Text) : Option (Nat × Text) :=
  let digits := s.takeWhile (fun c => (toDigit radix c).isSome)
  let value := (digits.filterMap (toDigit radix)).foldl (fun n digit => n * radix + digit) 0
  if maxDigits < digits.length || digits.isEmpty then none
  else if !allowZeroPrefix && digits.head? = some '0' && 1 < digits.length then none
  else if bound ≤ value then none
  else some (value, s.drop digits.length)

/-- The separator stands before every part but the first. -/
def readSeparator {α : Type} (sep : Char) (index : Nat) (inner : Text → Option (α × Text)) (s : Text) : Option (α × Text) :=
  if index = 0 then inner s
  else match s with
    | c :: rest => if c = sep then inner rest else none
    | [] => none

def readOctet (index : Nat) : Text → Option (Nat × Text) := readSeparator '.' index (readNumber 10 3 256 false)

def readIpv4Addr (s : Text) : Option (Ipv4Addr × Text) := do
  let (a, s) ← readOctet 0 s
  let (b, s) ← readOctet 1 s
  let (c, s) ← readOctet 2 s
  let (d, s) ← readOctet 3 s
  some (⟨a, b, c, d⟩, s)

/-- Groups until there are no more, and whether a v4 address was the last two. -/
def readGroups : Nat → List Nat → Text → List Nat × Bool × Text
  | 0, groups, s => (groups, false, s)
  | left + 1, groups, s =>
    match if left = 0 then none else readSeparator ':' groups.length readIpv4Addr s with
    | some (o, rest) => (groups ++ [o.a * 256 + o.b, o.c * 256 + o.d], true, rest)
    | none => match readSeparator ':' groups.length (readNumber 16 4 65536 true) s with
      | some (group, rest) => readGroups left (groups ++ [group]) rest
      | none => (groups, false, s)

/-- The whole address, or the two parts of it around a `::`. -/
def readIpv6Addr (s : Text) : Option (List Nat × Text) :=
  let (head, headIpv4, rest) := readGroups 8 [] s
  if head.length = 8 then some (head, rest)
  else if headIpv4 then none
  else match rest with
    | ':' :: ':' :: rest =>
      let (tail, _, rest) := readGroups (7 - head.length) [] rest
      some (head ++ List.replicate (8 - head.length - tail.length) 0 ++ tail, rest)
    | _ => none

def parse (s : Text) : Option IpAddr :=
  match readIpv4Addr s with
  | some (address, rest) => if rest.isEmpty then some (.v4 address) else none
  | none => match readIpv6Addr s with
    | some (segments, rest) => if rest.isEmpty then some (.v6 segments) else none
    | none => none

example : parse "192.168.0.10".toList = some (.v4 ⟨192, 168, 0, 10⟩) ∧ parse "192.168.00.10".toList = none ∧
    parse "::ffff:10.0.0.1".toList = some (.v6 [0, 0, 0, 0, 0, 0xffff, 0x0a00, 1]) ∧
    parse "fd12::1".toList = some (.v6 [0xfd12, 0, 0, 0, 0, 0, 0, 1]) := by decide +kernel

end IpAddr
end PlxNative.Net
