import PlxNative.Hud.Catalog
import PlxNative.Hud.Installed

/-! The state of the package store, what it is told and what it asks for, with the readers
over it. -/
namespace PlxNative.Hud

/-- The address of one request: the effect carries it and the answer returns it. -/
structure Tag where
  value : Nat
deriving DecidableEq

inductive Notice where
  | installed (id version : String) (sha : Sha) (untilRestart : Bool)
  | refused (sha : Sha) (reason : Refusal)
  | notWritten (sha : Option Sha)
  | fetchFailed (reason : FetchError)
  | removed (id : String)
  | removeIncomplete (id : String)
deriving DecidableEq

inductive HudEvent where
  | catalog (event : Catalog.Event)
  | fetchRegistry (sha : Sha) (app language : String)
  | cancelRegistry (sha : Sha)
  | refresh (setup : Setup) (selected : String)
  | scanned (tag : Tag) (result : Except ReadError (List String))
  | read (tag : Tag) (result : Except ReadError Bytes)
  | validated (tag : Tag) (sha : Sha) (verdict : Verdict)
  | written (tag : Tag) (outcome : WriteOutcome)
  | install (bytes : Bytes) (source : Source) (now : Nat)
  | fetch (address : Address)
  | fetched (tag : Tag) (result : Except FetchError Bytes)
  | installOffer (sha : Sha) (now : Nat)
  | declineOffer (sha : Sha)
  | installDrop (sha : Sha) (now : Nat)
  | selected (id : String)
  | removed (id : String)

inductive HudEffect where
  | catalog (effect : Catalog.CatalogEffect)
  | fetchRegistry (tag : Tag) (package : Catalog.Package) (maxBytes : Nat)
  | scanDir (tag : Tag) (at_ : Loc)
  | readFile (tag : Tag) (at_ : Loc) (maxBytes : Nat)
  | writeFile (tag : Tag) (at_ : Loc) (bytes : Bytes)
  | delete (at_ : Loc)
  | fetch (tag : Tag) (address : Address) (maxBytes : Nat)
  | validate (tag : Tag) (sha : Sha) (bytes : Bytes)
  | selection (id : String)
  | notice (notice : Notice)
deriving DecidableEq

/-- A package whose bytes were read and validated. -/
structure Loaded where
  metadata : Meta
  loadable : Except Unloadable Unit
  volatile : Bool

inductive Found where
  | tooLarge
  | parsed (sha : Sha) (verdict : Verdict)

structure Dropped where
  dir : Nat
  name : String
  found : Found

/-- A listing step. A pack is tried in its first candidate and, where that holds no good
copy, in the others after it. -/
inductive Job where
  | index (dir : Nat)
  | plan
  | pack (sha : Sha) (dir : Nat) (others : List Nat)
  | scan (dir : Nat)
  | drop (dir : Nat) (name : String)
deriving DecidableEq

inductive Stage where
  | io
  | validation (sha : Sha)
deriving DecidableEq

structure Flight where
  tag : Tag
  job : Job
  stage : Stage
deriving DecidableEq

structure Listing where
  todo : List Job
  flight : Option Flight
  stray : List (PathBuf × Sha)
deriving DecidableEq

/-- Bytes on their way to the disk; no time until the viewer has confirmed. -/
structure Offer where
  sha : Sha
  source : Source
  now : Option Nat
  from_ : Option Address
  bytes : Bytes
  expected : Option Catalog.Package
deriving DecidableEq

inductive Write where
  | pack
  | index (index : Index) (replaced : Option Sha)
deriving DecidableEq

inductive Step where
  | reading (sha : Sha) (now : Nat)
  | fetching (address : Address) (expected : Option Catalog.Package)
  | validating (offer : Offer)
  | offered (offer : Offer) (metadata : Meta)
  | writing (offer : Offer) (metadata : Meta) (dir : Nat) (what : Write)
deriving DecidableEq

structure Installing where
  tag : Tag
  step : Step
deriving DecidableEq

/-- An index write of a removal: what the candidate holds once it lands, and the packs the
removed records named. -/
structure Rewrite where
  tag : Tag
  dir : Nat
  index : Index
  gone : List Sha
deriving DecidableEq

structure Removing where
  id : String
  dirs : List Nat
  incomplete : Bool
  flight : Option Rewrite
deriving DecidableEq

inductive Op where
  | idle
  | listing (listing : Listing)
  | installing (installing : Installing)
  | removing (removing : Removing)
deriving DecidableEq

/-- `tags` counts the tags ever drawn; the code's counter is its remainder by 2^32. -/
structure HudStore where
  setup : Setup
  dirs : List Dir
  packs : SortedMap Sha Loaded
  drops : List Dropped
  selected : String
  op : Op
  tags : Nat
  catalog : Catalog

structure Winner where
  record : Record
  loaded : Loaded

def Winner.release (w : Winner) : WithBot Semver := w.loaded.metadata.release

structure Entry where
  id : String
  metadata : Option Meta
  sha : Option Sha
  source : Option Source
  trust : Trust
  loadable : Except Unloadable Unit
  untilRestart : Bool
  selected : Bool
  devSource : Option Address
deriving DecidableEq

structure OfferView where
  sha : Sha
  metadata : Meta
  source : Source
  from_ : Option Address

namespace HudStore

def new : HudStore :=
  { setup := ⟨[], 0⟩, dirs := [], packs := SortedMap.empty, drops := [], selected := builtinClassic, op := .idle
    tags := 0, catalog := .new }

def busy (s : HudStore) : Bool := s.op != .idle

def revoked (s : HudStore) (sha : Sha) : Bool := (s.catalog.snapshot.revoked sha).isSome

def dir (s : HudStore) (d : Nat) : Dir := s.dirs.getD d Dir.empty

section

/-- The package a record names, where it was read and is what the record says. -/
def installed (packs : SortedMap Sha Loaded) (id : String) (record : Record) : Option Winner :=
  (packs.lookup record.sha).bind (fun loaded =>
    if loaded.metadata.id = id ∧ loaded.metadata.packageFormat = record.packageFormat ∧
        loaded.metadata.hudFormat = record.hudFormat then some ⟨record, loaded⟩
    else none)

def better (best : Option Winner) (win : Winner) : Bool :=
  match best with
  | none => true
  | some old => decide (old.release < win.release)

def enter (packs : SortedMap Sha Loaded) (best : SortedMap String Winner) (entry : String × Record) :
    SortedMap String Winner :=
  match installed packs entry.1 entry.2 with
  | none => best
  | some win => if better (best.lookup entry.1) win then best.insert entry.1 win else best

/-- The installed package of each id: the higher version wins, and on a tie the earlier
candidate. -/
def winners (s : HudStore) : SortedMap String Winner :=
  s.dirs.foldl (fun best dir => dir.index.entries.foldl (enter s.packs) best) SortedMap.empty

end

def playable (s : HudStore) (w : Winner) : Bool :=
  decide (w.loaded.loadable = .ok ()) && !s.revoked w.record.sha

def resolved (s : HudStore) : String :=
  if s.selected ≠ builtinClassic ∧ ((s.winners.lookup s.selected).map s.playable).getD false = true then s.selected
  else builtinClassic

def builtinEntry (s : HudStore) : Entry :=
  { id := builtinClassic, metadata := none, sha := none, source := none, trust := .builtIn, loadable := .ok ()
    untilRestart := false, selected := decide (s.selected = builtinClassic), devSource := none }

def winnerEntry (s : HudStore) (id : String) (w : Winner) : Entry :=
  { id := id, metadata := some w.loaded.metadata, sha := some w.record.sha, source := some w.record.source
    trust := w.record.source.trust
    loadable := if s.revoked w.record.sha then .error .revoked else w.loaded.loadable
    untilRestart := w.loaded.volatile, selected := decide (s.selected = id), devSource := w.record.from_ }

/-- The package list: the built-in first, then one row for each installed id. -/
def entries (s : HudStore) : List Entry :=
  s.builtinEntry :: s.winners.entries.map (fun e => s.winnerEntry e.1 e.2)

/-- The validated fetch that waits for the viewer. -/
def offer (s : HudStore) : Option OfferView :=
  match s.op with
  | .installing ⟨_, .offered offer metadata⟩ => some ⟨offer.sha, metadata, offer.source, offer.from_⟩
  | _ => none

end HudStore
end PlxNative.Hud
