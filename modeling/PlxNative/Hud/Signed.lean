import Mathlib.Data.List.Chain
import PlxNative.Hud.Catalog
import PlxNative.Lib.Checks

/-! The signed index: its framing, its signature and the contract its entries are held to. A
reply and a cache file are read by the same function. -/
namespace PlxNative.Hud.Catalog
open Checks (Leaves check)
open Text (trim splitOnce)

def origin : String := "https://huds.plxnative.com"

def indexByteLimit : Nat := 4 * 1024 * 1024

def headerByteLimit : Nat := 256

def signedByteLimit : Nat := headerByteLimit + 1 + indexByteLimit

def cacheByteLimit : Nat := signedByteLimit * 6 + 4096

structure Header where
  format : Nat
  key : String
  sig : String

structure CacheFile where
  protocol : Nat
  checkedAt : Option Nat
  attemptedAt : Option Nat
  etag : Option String
  body : String

/-- A package as it is written, before its check. -/
structure WrittenPackage where
  id : String
  version : String
  packageFormat : String
  hudFormat : String
  name : String
  author : String
  license : String
  app : AppRange
  sha256 : String
  bytes : Nat
  url : String
  previews : List Preview
  unfit : List FitChange

structure WrittenIndex where
  format : Nat
  serial : Option Nat
  entries : List WrittenPackage
  revoked : List Revocation

/-- The third parties: the JSON reader at each type, and the signature check by public key. -/
class Registry where
  headerOf : Bytes → Option Header
  cacheOf : Bytes → Option CacheFile
  indexOf : Bytes → Option WrittenIndex
  verifies : Bytes → Bytes → Bytes → Bool

/-- A public key the app accepts, and the digest prefix that names it. -/
structure AcceptedKey where
  id : Bytes
  key : Bytes

def utf8 (bytes : Bytes) : Option String := String.fromUTF8? ⟨bytes.toArray⟩

def asBytes (text : String) : Bytes := text.toList.flatMap String.utf8EncodeChar

/-- Exactly `n` bytes of lower-case digits. -/
def unhex (n : Nat) (text : String) : Option Bytes := (Hex.bytes? text.toList).filter (fun bytes => bytes.length = n)

section

def word (value : String) (limit : Nat) : Bool :=
  !(trim value.toList).isEmpty && value.utf8ByteSize ≤ limit && !value.toList.any isControl

def plainNumber (part : Text) : Bool :=
  !part.isEmpty && part.all Char.isDigit && (part.length == 1 || part.head? != some '0')

def formatVersion (text : String) : Bool :=
  match splitOnce '.' text.toList with
  | some (major, minor) => plainNumber major && plainNumber minor
  | none => false

def language (text : String) : Bool :=
  text != "" && text.utf8ByteSize ≤ 32 && text.toList.all (fun c => c.isAlphanum || c == '-')

def Revocation.wellFormed (r : Revocation) : Bool := (Sha.parse r.sha256).isSome && word r.reason 1024

/-- Bounds that read, the lower not above the upper. -/
def AppRange.wellFormed (app : AppRange) : Bool :=
  app.min.all (fun text => (Semver.parse text).isSome) && app.max.all (fun text => (Semver.parse text).isSome) &&
    match app.min.bind Semver.parse, app.max.bind Semver.parse with
    | some low, some high => low ≤ high
    | _, _ => true

/-- Changes in rising order of the releases they are made at. -/
def unfitWellFormed (changes : List FitChange) : Bool :=
  match changes.mapM (fun change => Semver.parse change.from_) with
  | some releases => decide (releases.IsChain (· < ·)) && changes.all (fun change => change.langs.all language)
  | none => false

def Preview.wellFormed (sha256 : String) (art : Preview) : Bool :=
  (Sha.parse art.sha256).isSome && art.file == art.sha256 ++ ".png" &&
    art.url == origin ++ "/previews/" ++ sha256 ++ "/" ++ art.file && word art.state 64 && language art.lang

def WrittenPackage.wellFormed (p : WrittenPackage) : Bool :=
  validPackageId p.id && (Semver.parse p.version).isSome && word p.name 256 && word p.author 256 && word p.license 256 &&
    formatVersion p.packageFormat && formatVersion p.hudFormat && p.bytes != 0 &&
    p.url == origin ++ "/p/" ++ p.sha256 ++ ".plxhud" && !p.previews.isEmpty && p.app.wellFormed && unfitWellFormed p.unfit &&
    p.previews.all (Preview.wellFormed p.sha256)

def WrittenPackage.checked (p : WrittenPackage) : Option Package :=
  if hash_checked : (Sha.parse p.sha256).isSome = true then
    if p.wellFormed then
      some { id := p.id, version := p.version, packageFormat := p.packageFormat, hudFormat := p.hudFormat, name := p.name
             author := p.author, license := p.license, app := p.app, sha256 := p.sha256, bytes := p.bytes, url := p.url
             previews := p.previews, unfit := p.unfit, hash_checked := hash_checked }
    else none
  else none

variable [Registry]

def parse (bytes : Bytes) : Option Index :=
  if indexByteLimit < bytes.length then none
  else do
    let index ← Registry.indexOf bytes
    let entries ← index.entries.mapM WrittenPackage.checked
    if index.format = 1 ∧ index.revoked.all Revocation.wellFormed = true ∧ (index.revoked.map Revocation.sha256).Nodup ∧
        (index.entries.map WrittenPackage.id).Nodup then
      return { format := index.format, serial := index.serial, entries := entries, revoked := index.revoked }
    else none

end

section
variable [Registry]

def refusing {α : Type} (cause : Refusal) : Option α → Except Refusal α
  | some a => .ok a
  | none => .error cause

/-- Accepts a signed index, or says why not, in the order of the contract's steps. -/
def verify (signed : Bytes) (keys : List AcceptedKey) : Except Refusal Verified := do
  let newline ← refusing .malformed ((signed.take (headerByteLimit + 1)).findIdx? (· == 10))
  let line := signed.take newline
  let index := signed.drop (newline + 1)
  check (index.length ≤ indexByteLimit ∧ line.head? = some 0x7b ∧ line.getLast? = some 0x7d) .malformed
  let header ← refusing .malformed (Registry.headerOf line)
  let id ← refusing .malformed (unhex 8 header.key)
  let signature ← refusing .malformed (unhex 64 header.sig)
  check (header.format = 1) .malformed
  let key ← refusing .unknownKey (keys.find? (fun k => k.id == id))
  check (Registry.verifies key.key signature index = true) .badSignature
  let parsed ← refusing .index (parse index)
  let serial ← refusing .noSerial parsed.serial
  let body ← refusing .malformed (utf8 signed)
  return { index := parsed, serial := serial, body := body }

/-- A record that only remembers an attempt has nothing to verify. -/
def CacheRecord.decode (bytes : Bytes) (keys : List AcceptedKey) : Except Refusal CacheRecord := do
  check (bytes.length ≤ cacheByteLimit) .malformed
  let cache ← refusing .malformed (Registry.cacheOf bytes)
  check (cache.protocol = 1) .malformed
  if cache.body = "" ∧ cache.checkedAt = none then
    return { checkedAt := cache.checkedAt, attemptedAt := cache.attemptedAt, etag := usableEtag cache.etag, body := cache.body
             index := none }
  else
    let verified ← verify (asBytes cache.body) keys
    return { checkedAt := cache.checkedAt, attemptedAt := cache.attemptedAt, etag := usableEtag cache.etag
             body := verified.body, index := some verified.index }

def Reply.http (status : Nat) (validator : Option String) (body : Bytes) (keys : List AcceptedKey) : Reply :=
  ⟨status, usableEtag validator, if status = 200 then some (verify body keys) else none⟩

omit [Registry] in
theorem refusing_leaves {α : Type} (cause : Refusal) (found : Option α) : Leaves (fun a => found = some a) (refusing cause found) := by
  cases found with
  | none => exact .error
  | some a => exact .pure rfl

theorem verify_serial (signed : Bytes) (keys : List AcceptedKey) :
    Leaves (fun v => v.index.serial = some v.serial) (verify signed keys) :=
  .seq fun _ => .seq fun _ => .seq fun _ => .seq fun _ => .seq fun _ => .seq fun _ => .seq fun _ => .seq fun _ => .seq fun _ =>
    .after (refusing_leaves .noSerial _) fun _ held => .seq fun _ => .pure held

theorem decode_serial (bytes : Bytes) (keys : List AcceptedKey) :
    Leaves (fun cache => ∀ index, cache.index = some index → index.serial.isSome = true) (CacheRecord.decode bytes keys) := by
  refine .seq fun _ => .seq fun cache => .seq fun _ => ?_
  split
  · exact .pure nofun
  · refine .after (verify_serial _ _) fun v held => .pure fun index eq => ?_
    cases eq
    rw [held]
    rfl

end
end PlxNative.Hud.Catalog
