import PlxNative.Hud.Package

/-! The registry gallery's machine: the cached index, its revocations, and the one request a
settings visit may make. Signatures are checked before a record or a reply reaches it. -/
namespace PlxNative.Hud.Catalog

structure Preview where
  state : String
  lang : String
  file : String
  sha256 : String
  url : String
deriving DecidableEq

structure FitChange where
  from_ : String
  langs : List String
deriving DecidableEq

structure AppRange where
  min : Option String
  max : Option String
deriving DecidableEq

/-- A package the checked parser accepted, so its digest reads. -/
structure Package where
  id : String
  version : String
  packageFormat : String
  hudFormat : String
  name : String
  author : String
  license : String
  app : AppRange
  sha256 : String
  bytes : Nat
  url : String
  previews : List Preview
  unfit : List FitChange
  hash_checked : (Sha.parse sha256).isSome = true
deriving DecidableEq

namespace Package

def sha (p : Package) : Sha := (Sha.parse p.sha256).get p.hash_checked

/-- The latest change at or before this app decides. -/
def fits (p : Package) (app language : String) : Bool :=
  match Semver.appRelease app with
  | none => false
  | some app =>
    match p.unfit.reverse.find? (fun change => ((Semver.parse change.from_).map (fun at_ => decide (at_ ≤ app))).getD false) with
    | none => true
    | some change => !change.langs.any (· == language)

def bound (text : Option String) : Option Semver := text.bind Semver.parse

def compatible (p : Package) (app language : String) (packLimit : Nat) : Bool :=
  match Semver.appRelease app with
  | none => false
  | some version =>
    p.packageFormat == "1.0" && p.hudFormat == "1.0" && p.bytes ≤ packLimit &&
      ((bound p.app.min).map (fun v => decide (v ≤ version))).getD true &&
      ((bound p.app.max).map (fun v => decide (version ≤ v))).getD true && p.fits app language

end Package

structure Revocation where
  sha256 : String
  reason : String
deriving DecidableEq

structure Index where
  format : Nat
  serial : Option Nat
  entries : List Package
  revoked : List Revocation
deriving DecidableEq

inductive Refusal where
  | malformed
  | unknownKey
  | badSignature
  | index
  | noSerial
  | rollback
deriving DecidableEq

/-- A signed index that passed every step but the rollback comparison. -/
structure Verified where
  index : Index
  serial : Nat
  body : String

def isControl (c : Char) : Bool := c.toNat < 32 || (127 ≤ c.toNat && c.toNat < 160)

def usableEtag (value : Option String) : Option String :=
  value.filter (fun v => v != "" && v.utf8ByteSize ≤ 1024 && !v.toList.any isControl)

structure Snapshot where
  index : Option Index
  previous : Option Index
  checkedAt : Option Nat
  fetching : Bool
  refreshFailed : Bool

namespace Snapshot

def empty : Snapshot := ⟨none, none, none, false, false⟩

def revoked (s : Snapshot) (sha : Sha) : Option String :=
  s.index.bind (fun index => (index.revoked.find? (fun r => r.sha256 == sha.hex)).map Revocation.reason)

end Snapshot

/-- A cache file that was decoded and verified. -/
structure CacheRecord where
  checkedAt : Option Nat
  attemptedAt : Option Nat
  etag : Option String
  body : String
  index : Option Index
deriving DecidableEq

/-- A reply, its body verified when it is a 200. -/
structure Reply where
  status : Nat
  etag : Option String
  signed : Option (Except Refusal Verified)

inductive Event where
  | load (candidates : List Candidate)
  | open_ (candidates : List Candidate) (now : Nat)
  | read (tag : Nat) (result : Except ReadError CacheRecord)
  | reply (tag : Nat) (result : Except Unit Reply)
  | written (tag : Nat) (outcome : WriteOutcome)

inductive CatalogEffect where
  | read (tag : Nat) (at_ : Loc)
  | get (tag : Nat) (etag : Option String)
  | write (tag : Nat) (at_ : Loc) (record : CacheRecord)
  | refused (cause : Refusal)
deriving DecidableEq

inductive Phase where
  | idle
  | reading (at_ : Nat)
  | fetching
  | writing (at_ : Nat) (fetch : Bool)
deriving DecidableEq

end Catalog

structure Catalog where
  snapshot : Catalog.Snapshot
  candidates : List Candidate
  phase : Catalog.Phase
  generation : Nat
  now : Nat
  attemptedAt : Option Nat
  etag : Option String
  body : String
  allowFetch : Bool

namespace Catalog

def refreshSeconds : Nat := 24 * 60 * 60

def cacheFile : String := "index-cache.json"

def new : Catalog :=
  { snapshot := .empty, candidates := [], phase := .idle, generation := 0, now := 0, attemptedAt := none
    etag := none, body := "", allowFetch := false }

def cacheAt (c : Candidate) : Loc := ⟨c.dir, cacheFile⟩

def nextGeneration (c : Catalog) : Nat := (c.generation + 1) % 2 ^ 64

def record (c : Catalog) : CacheRecord :=
  { checkedAt := c.snapshot.checkedAt, attemptedAt := c.attemptedAt, etag := c.etag, body := c.body
    index := c.snapshot.index }

def afterWrite (c : Catalog) (fetch : Bool) : Catalog × List CatalogEffect :=
  if fetch then ({ c with phase := .fetching }, [.get c.generation c.etag]) else ({ c with phase := .idle }, [])

/-- Writes to the first candidate from here on; with none left the write is given up. -/
def write (c : Catalog) (at_ : Nat) (fetch : Bool) : Catalog × List CatalogEffect :=
  match c.candidates[at_]? with
  | some candidate => ({ c with phase := .writing at_ fetch }, [.write c.generation (cacheAt candidate) c.record])
  | none => c.afterWrite fetch

/-- Whether the last attempt is a day old, or in the future. -/
def due (c : Catalog) : Bool :=
  match c.attemptedAt with
  | none => true
  | some at_ => c.now < at_ || refreshSeconds ≤ c.now - at_

def read (c : Catalog) (at_ : Nat) : Catalog × List CatalogEffect :=
  match c.candidates[at_]? with
  | some candidate => ({ c with phase := .reading at_ }, [.read c.generation (cacheAt candidate)])
  | none =>
    if c.allowFetch && c.due then
      { c with attemptedAt := some c.now, snapshot := { c.snapshot with fetching := true } }.write 0 true
    else ({ c with phase := .idle }, [])

/-- A time that may be missing, which is before all others. -/
def stamp (at_ : Option Nat) : WithBot Nat := at_

/-- Takes over a cache that remembers an attempt no older than the one held. -/
def adopt (c : Catalog) (cache : CacheRecord) : Catalog :=
  if stamp c.attemptedAt ≤ stamp cache.attemptedAt then
    { c with
      snapshot := { c.snapshot with
        index := cache.index
        checkedAt := cache.checkedAt
        refreshFailed := decide (stamp cache.checkedAt < stamp cache.attemptedAt) || cache.checkedAt.isNone }
      attemptedAt := cache.attemptedAt
      etag := cache.etag
      body := cache.body }
  else c

def heldSerial (c : Catalog) : Option Nat := c.snapshot.index.bind Index.serial

/-- What a reply changes before the result is written. -/
def answered (c : Catalog) (reply : Reply) : Catalog × List CatalogEffect :=
  if reply.status = 304 ∧ c.snapshot.index.isSome = true ∧ c.etag.isSome = true then
    ({ c with
        snapshot := { c.snapshot with checkedAt := some c.now, refreshFailed := false }
        etag := (usableEtag reply.etag).or c.etag }, [])
  else match reply.signed with
    | none => (c, [])
    | some (.error cause) => (c, [.refused cause])
    | some (.ok v) =>
      if (c.heldSerial.map (fun held => decide (held ≤ v.serial))).getD true then
        ({ c with
            snapshot := { c.snapshot with
              index := some v.index, previous := c.snapshot.index, checkedAt := some c.now, refreshFailed := false }
            etag := usableEtag reply.etag
            body := v.body }, [])
      else (c, [.refused .rollback])

def failedRefresh (c : Catalog) : Catalog :=
  { c with snapshot := { c.snapshot with fetching := false, refreshFailed := true } }

def taken (moved : Catalog × List CatalogEffect) : Catalog × Bool × List CatalogEffect := (moved.1, true, moved.2)

def step (c : Catalog) : Event → Catalog × Bool × List CatalogEffect
  | .load candidates =>
    if c.phase = .idle then
      taken ({ c with generation := c.nextGeneration, candidates := candidates, allowFetch := false }.read 0)
    else (c, false, [])
  | .open_ candidates now =>
    match c.phase with
    | .fetching | .writing _ _ => (c, false, [])
    | .reading _ => ({ c with allowFetch := true, now := now }, false, [])
    | .idle => taken ({ c with
        allowFetch := true, now := now, generation := c.nextGeneration, candidates := candidates }.read 0)
  | .read tag result =>
    match c.phase with
    | .reading at_ =>
      if tag = c.generation then
        match result with
        | .ok cache => taken ((c.adopt cache).read (at_ + 1))
        | .error _ => taken (c.read (at_ + 1))
      else (c, false, [])
    | _ => (c, false, [])
  | .reply tag result =>
    if tag = c.generation ∧ c.phase = .fetching then
      let after := match result with
        | .ok reply => c.failedRefresh.answered reply
        | .error _ => (c.failedRefresh, [])
      let wrote := after.1.write 0 false
      (wrote.1, true, after.2 ++ wrote.2)
    else (c, false, [])
  | .written tag outcome =>
    match c.phase with
    | .writing at_ fetch =>
      if tag = c.generation then
        match outcome with
        | .done => taken (c.afterWrite fetch)
        | .refused => taken (c.write (at_ + 1) fetch)
      else (c, false, [])
    | _ => (c, false, [])

end Catalog
end PlxNative.Hud
