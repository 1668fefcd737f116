import Mathlib.Data.List.Lex
import Mathlib.Data.Prod.Lex
import Mathlib.Order.WithBot
import PlxNative.Lib.Digits
import PlxNative.Lib.Maps

/-! Packages of the player HUD: their identity, their versions, and what is answered about
them. -/
namespace PlxNative.Hud

abbrev Bytes : Type := List UInt8

/-- A path as its components, the way paths are compared. -/
abbrev PathBuf : Type := List String

def builtinClassic : String := "builtin:classic"

def maxPackageIdBytes : Nat := 256

def startsLower (label : Text) : Bool := (label.head?.map (fun c => decide ('a' ≤ c ∧ c ≤ 'z'))).getD false

/-- A reverse-DNS package identity, or that of the built-in. -/
def validPackageId (text : String) : Bool :=
  if text = builtinClassic then true
  else
    text.utf8ByteSize ≤ maxPackageIdBytes && text.toList.contains '.' &&
      text.toList.all (fun c => ('a' ≤ c && c ≤ 'z') || c.isDigit || c == '.' || c == '-') &&
      (text.toList.splitOn '.').all startsLower

/-- A package's identity: the SHA-256 of its bytes. -/
structure Sha where
  bytes : Bytes
  length_eq : bytes.length = 32
deriving DecidableEq

namespace Sha

def hex (sha : Sha) : String := String.ofList (Hex.ofBytes sha.bytes)

/-- The inverse of `hex`; anything but 64 lower-case digits is none. -/
def parse (text : String) : Option Sha :=
  match Hex.bytes? text.toList with
  | some bytes => if length : bytes.length = 32 then some ⟨bytes, length⟩ else none
  | none => none

@[simp] theorem parse_hex (sha : Sha) : parse sha.hex = some sha := by
  simp [parse, hex, sha.length_eq]

theorem hex_injective : Function.Injective hex := by
  intro a b eq
  have read := congrArg parse eq
  rw [parse_hex, parse_hex] at read
  exact Option.some.inj read

def key (sha : Sha) : List Nat := sha.bytes.map UInt8.toNat

theorem key_injective : Function.Injective key := by
  intro a b eq
  have bytes : a.bytes = b.bytes := List.map_injective_iff.mpr (fun _ _ => UInt8.toNat_inj.mp) eq
  cases a
  cases b
  cases bytes
  rfl

instance : LinearOrder Sha := LinearOrder.lift' key key_injective

end Sha

structure Semver where
  major : Nat
  minor : Nat
  patch : Nat

namespace Semver

def key (v : Semver) : Nat ×ₗ Nat ×ₗ Nat := toLex (v.major, toLex (v.minor, v.patch))

theorem key_injective : Function.Injective key := by
  rintro ⟨a, b, c⟩ ⟨d, e, f⟩ eq
  cases eq
  rfl

instance : LinearOrder Semver := LinearOrder.lift' key key_injective

/-- Plain decimal: no sign and no leading zero. -/
def number (part : Text) : Option Nat :=
  if !part.isEmpty && part.all Char.isDigit && (part == ['0'] || part.head? != some '0') then Usize.parseDigits part 0
  else none

def parse (text : String) : Option Semver :=
  match text.toList.splitOn '.' with
  | [major, minor, patch] => do
      let major ← number major
      let minor ← number minor
      let patch ← number patch
      return ⟨major, minor, patch⟩
  | _ => none

/-- The release an app build targets, its suffixes aside. -/
def appRelease (text : String) : Option Semver :=
  parse (String.ofList (text.toList.takeWhile (fun c => c != '-' && c != '+')))

end Semver

inductive Source where
  | drop
  | address
  | registry
deriving DecidableEq

inductive Trust where
  | builtIn
  | registry
  | unreviewed
deriving DecidableEq

def Source.asStr : Source → String
  | .drop => "drop"
  | .address => "address"
  | .registry => "registry"

def Source.trust : Source → Trust
  | .drop | .address => .unreviewed
  | .registry => .registry

/-- What the validator read out of a package that parsed. -/
structure Meta where
  id : String
  name : String
  version : String
  packageFormat : String
  hudFormat : String
deriving DecidableEq

/-- Versions in the order the store compares them in: one that does not parse is below all. -/
def Meta.release (metadata : Meta) : WithBot Semver := Semver.parse metadata.version

inductive Unloadable where
  | newerFormat
  | olderFormat
  | appRange
  | revoked
deriving DecidableEq

inductive Verdict where
  | loadable (metadata : Meta)
  | unloadable (metadata : Meta) (why : Unloadable)
  | invalid

inductive Refusal where
  | builtinId
  | invalid
  | unloadable (why : Unloadable)
  | alreadyInstalled
  | notNewer
  | tooLarge
  | changed
deriving DecidableEq

inductive ReadError where
  | tooLarge
  | missing
  | failed
deriving DecidableEq

inductive FetchError where
  | notFound
  | tooLarge
  | unreachable
  | certificate
deriving DecidableEq

inductive WriteOutcome where
  | done
  | refused
deriving DecidableEq

/-- One place the store may keep files, best first; a restart clears a volatile one. -/
structure Candidate where
  dir : PathBuf
  volatile : Bool
deriving DecidableEq

structure Setup where
  candidates : List Candidate
  maxPackBytes : Nat
deriving DecidableEq

structure Loc where
  root : PathBuf
  rel : String
deriving DecidableEq

inductive Handled where
  | yes
  | no

def indexFile : String := "installed.json"

def dropDir : String := "drop"

def packSuffix : String := ".plxhud"

def packRel (sha : Sha) : String := "packs/" ++ sha.hex ++ packSuffix

theorem packRel_injective : Function.Injective packRel := by
  intro a b eq
  have tails := congrArg String.toList eq
  simp only [packRel, String.toList_append, List.append_cancel_left_eq, List.append_cancel_right_eq] at tails
  exact Sha.hex_injective (String.toList_injective tails)

theorem packRel_ne_indexFile (sha : Sha) : packRel sha ≠ indexFile := by
  intro eq
  have first := congrArg (fun s => s.toList.head?) eq
  simp [packRel, indexFile] at first

end PlxNative.Hud
