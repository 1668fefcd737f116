import PlxNative.Hud.Store

/-! The one writer of the package store: each event it takes, with the effects it leaves. -/
namespace PlxNative.Hud

abbrev Stepped : Type := HudStore × List HudEffect

structure Turn where
  store : HudStore
  handled : Handled
  fx : List HudEffect

namespace HudStore

section

def drawn (s : HudStore) : HudStore := { s with tags := s.tags + 1 }

def lastTag (s : HudStore) : Tag := ⟨s.tags % 2 ^ 32⟩

def rootOf (s : HudStore) (d : Nat) : PathBuf := (s.setup.candidates[d]?.map Candidate.dir).getD []

def loc (s : HudStore) (d : Nat) (rel : String) : Loc := ⟨s.rootOf d, rel⟩

def volatile (s : HudStore) (d : Nat) : Bool := (s.setup.candidates[d]?.map Candidate.volatile).getD false

/-- Asks for a file under the tag drawn last. -/
def readFile (s : HudStore) (d : Nat) (rel : String) : HudEffect :=
  .readFile s.lastTag (s.loc d rel) s.setup.maxPackBytes

def writeFile (s : HudStore) (d : Nat) (rel : String) (bytes : Bytes) : HudEffect :=
  .writeFile s.lastTag (s.loc d rel) bytes

def referenced (s : HudStore) (d : Nat) (sha : Sha) : Bool := (s.dir d).index.names sha

/-- Takes a pack away where no record of the candidate's index names it. -/
def discard (s : HudStore) (d : Nat) (sha : Sha) : List HudEffect :=
  if s.referenced d sha then [] else [.delete (s.loc d (packRel sha))]

def withDir (s : HudStore) (d : Nat) (dir : Dir) : HudStore := { s with dirs := s.dirs.set d dir }

def withIndex (s : HudStore) (d : Nat) (index : Index) : HudStore := s.withDir d { s.dir d with index := index }

def ended (s : HudStore) (notice : Notice) : Stepped := ({ s with op := .idle }, [.notice notice])

def select (s : HudStore) (id : String) : Turn :=
  if id = builtinClassic ∨ ((s.winners.lookup id).map s.playable).getD false = true then
    ⟨{ s with selected := id }, .yes, [.selection id]⟩
  else ⟨s, .no, []⟩

/-- The package a verdict describes, where nothing else stands against it. -/
def described : Verdict → Except Refusal Meta
  | .invalid => .error .invalid
  | .loadable metadata => if metadata.id = builtinClassic then .error .builtinId else .ok metadata
  | .unloadable metadata why =>
    if metadata.id = builtinClassic then .error .builtinId else .error (.unloadable why)

/-- Whether a package may take the place of the installed one. -/
def succeeds (have_ : Option Winner) (sha : Sha) (new : Semver) : Except Refusal Unit :=
  match have_ with
  | none => .ok ()
  | some win =>
    if win.record.sha = sha then .error .alreadyInstalled
    else match Semver.parse win.loaded.metadata.version with
      | some old => if new ≤ old then .error .notNewer else .ok ()
      | none => .ok ()

/-- Whether the package may be installed now, and what it is. -/
def judge (s : HudStore) (sha : Sha) (verdict : Verdict) : Except Refusal Meta :=
  if s.revoked sha then .error (.unloadable .revoked)
  else do
    let metadata ← described verdict
    match Semver.parse metadata.version with
    | none => .error .invalid
    | some new =>
      let _ ← succeeds (s.winners.lookup metadata.id) sha new
      return metadata

end

section

def validate (s : HudStore) (offer : Offer) : Stepped :=
  ({ s.drawn with op := .installing ⟨s.drawn.lastTag, .validating offer⟩ },
    [.validate s.drawn.lastTag offer.sha offer.bytes])

/-- The first candidate from `d` on whose index may be rewritten. -/
def writableFrom (s : HudStore) (d : Nat) : Option Nat :=
  (List.range s.dirs.length).find? (fun e => decide (d ≤ e) && decide ((s.dir e).access = .writable))

/-- Writes the pack to a candidate; with none left, nothing was installed. -/
def writePack (s : HudStore) (offer : Offer) (metadata : Meta) (d : Nat) : Stepped :=
  match s.writableFrom d with
  | none => s.ended (.notWritten (some offer.sha))
  | some d =>
    ({ s.drawn with op := .installing ⟨s.drawn.lastTag, .writing offer metadata d .pack⟩ },
      [s.drawn.writeFile d (packRel offer.sha) offer.bytes])

def newRecord (offer : Offer) (metadata : Meta) : Record :=
  (Record.new offer.sha offer.source (offer.now.getD 0) metadata.packageFormat metadata.hudFormat).fromDevSource offer.from_

variable [World]

/-- The pack is down: the candidate's index is switched to it. -/
def writeIndex (s : HudStore) (offer : Offer) (metadata : Meta) (d : Nat) : Stepped :=
  let index := (s.dir d).index.insert metadata.id (newRecord offer metadata)
  let replaced := ((s.dir d).index.lookup metadata.id).map Record.sha
  ({ s.drawn with op := .installing ⟨s.drawn.lastTag, .writing offer metadata d (.index index replaced)⟩ },
    [s.drawn.writeFile d indexFile (indexBytes index)])

omit [World] in
/-- What an index that landed makes of the store. -/
def landed (s : HudStore) (offer : Offer) (metadata : Meta) (d : Nat) (index : Index) : HudStore :=
  { s.withIndex d index with packs := s.packs.insert offer.sha ⟨metadata, .ok (), s.volatile d⟩, op := .idle }

omit [World] in
/-- The pack the new record took the place of. -/
def discardReplaced (s : HudStore) (d : Nat) (sha : Sha) : Option Sha → List HudEffect
  | some old => if old = sha then [] else s.discard d old
  | none => []

omit [World] in
def indexWritten (s : HudStore) (offer : Offer) (metadata : Meta) (d : Nat) (index : Index) (replaced : Option Sha) :
    Stepped :=
  let after := s.landed offer metadata d index
  (after, after.discardReplaced d offer.sha replaced ++
    [.notice (.installed metadata.id metadata.version offer.sha (s.volatile d))])

omit [World] in
/-- The index was refused: the pack is taken back and the next candidate tried. -/
def indexRefused (s : HudStore) (offer : Offer) (metadata : Meta) (d : Nat) : Stepped :=
  let next := s.writePack offer metadata (d + 1)
  (next.1, s.discard d offer.sha ++ next.2)

def reread (s : HudStore) (sha : Sha) (now : Nat) : Except ReadError Bytes → Stepped
  | .ok bytes =>
    if Sha.of bytes = sha then
      s.validate { sha := sha, source := .drop, now := some now, from_ := none, bytes := bytes, expected := none }
    else s.ended (.refused sha .changed)
  | .error _ => s.ended (.refused sha .changed)

/-- Whether a body is not the one the catalog lists. -/
def otherBody (expected : Option Catalog.Package) (sha : Sha) (bytes : Bytes) : Bool :=
  match expected with
  | some p => decide (p.sha ≠ sha ∨ p.bytes ≠ bytes.length)
  | none => false

def fetchedOffer (address : Address) (expected : Option Catalog.Package) (bytes : Bytes) : Offer :=
  { sha := Sha.of bytes, source := if expected.isSome then .registry else .address, now := none
    from_ := some address, bytes := bytes, expected := expected }

def fetchAnswered (s : HudStore) (address : Address) (expected : Option Catalog.Package) :
    Except FetchError Bytes → Stepped
  | .error reason => s.ended (.fetchFailed reason)
  | .ok bytes =>
    if otherBody expected (Sha.of bytes) bytes then s.ended (.refused (Sha.of bytes) .changed)
    else if s.setup.maxPackBytes < bytes.length then s.ended (.refused (Sha.of bytes) .tooLarge)
    else s.validate (fetchedOffer address expected bytes)

omit [World] in
/-- Whether a package is not the one the catalog lists. -/
def otherPackage (expected : Option Catalog.Package) (metadata : Meta) : Bool :=
  match expected with
  | some p => decide (p.id ≠ metadata.id ∨ p.name ≠ metadata.name ∨ p.version ≠ metadata.version ∨
      p.packageFormat ≠ metadata.packageFormat ∨ p.hudFormat ≠ metadata.hudFormat)
  | none => false

omit [World] in
def checked (s : HudStore) (offer : Offer) (verdict : Verdict) : Except Refusal Meta :=
  match s.judge offer.sha verdict with
  | .error reason => .error reason
  | .ok metadata => if otherPackage offer.expected metadata then .error .changed else .ok metadata

omit [World] in
/-- A verdict on the bytes in hand: they are written when the viewer has confirmed, and held
for the viewer otherwise. -/
def verdictGiven (s : HudStore) (tag : Tag) (offer : Offer) (verdict : Verdict) : Stepped :=
  match s.checked offer verdict with
  | .error reason => s.ended (.refused offer.sha reason)
  | .ok metadata =>
    if offer.now.isSome then s.writePack offer metadata 0
    else ({ s with op := .installing ⟨tag, .offered offer metadata⟩ }, [])

def installingAnswer (s : HudStore) (tag : Tag) : Step → HudEvent → Option Stepped
  | .reading sha now, .read _ result => some (s.reread sha now result)
  | .fetching address expected, .fetched _ result => some (s.fetchAnswered address expected result)
  | .validating offer, .validated _ sha verdict => if sha = offer.sha then some (s.verdictGiven tag offer verdict) else none
  | .writing offer metadata d .pack, .written _ .done => some (s.writeIndex offer metadata d)
  | .writing offer metadata d .pack, .written _ .refused => some (s.writePack offer metadata (d + 1))
  | .writing offer metadata d (.index index replaced), .written _ .done =>
    some (s.indexWritten offer metadata d index replaced)
  | .writing offer metadata d (.index _ _), .written _ .refused => some (s.indexRefused offer metadata d)
  | _, _ => none

end

section
variable [World]

omit [World] in
def discardStray (s : HudStore) (stray : PathBuf × Sha) : List HudEffect :=
  match s.setup.candidates.findIdx? (fun c => c.dir = stray.1) with
  | some d => if (s.dir d).access = .writable then s.discard d stray.2 else []
  | none => []

omit [World] in
/-- Deletes what displaced work may have left and no index names, now that every index has
been read again. -/
def reclaim (s : HudStore) (stray : List (PathBuf × Sha)) : List HudEffect := stray.flatMap s.discardStray

omit [World] in
/-- A candidate that holds a package, after those before it. -/
def noteCopy (d : Nat) (found : SortedMap Sha (Nat × List Nat)) (record : Record) : SortedMap Sha (Nat × List Nat) :=
  match found.lookup record.sha with
  | none => found.insert record.sha (d, [])
  | some (first, others) =>
    if (first :: others).getLast? = some d then found else found.insert record.sha (first, others ++ [d])

omit [World] in
/-- Every distinct package the indexes name, with the candidates to try in order. -/
def planPacks (s : HudStore) : List (Sha × Nat × List Nat) :=
  (s.dirs.zipIdx.foldl (fun found e => e.1.index.values.foldl (noteCopy e.2) found) SortedMap.empty).entries

omit [World] in
def packJob (planned : Sha × Nat × List Nat) : Job := .pack planned.1 planned.2.1 planned.2.2

omit [World] in
/-- What a job asks for, under the tag drawn last; the plan asks for nothing. -/
def request (s : HudStore) : Job → List HudEffect
  | .index d => [s.readFile d indexFile]
  | .plan => []
  | .pack sha d _ => [s.readFile d (packRel sha)]
  | .scan d => [.scanDir s.lastTag (s.loc d dropDir)]
  | .drop d name => [s.readFile d (dropDir ++ "/" ++ name)]

omit [World] in
/-- Issues a job, with those after it still to do. -/
def issue (s : HudStore) (stray : List (PathBuf × Sha)) (job : Job) (rest : List Job) : Stepped :=
  ({ s.drawn with op := .listing ⟨rest, some ⟨s.drawn.lastTag, job, .io⟩, stray⟩ }, s.drawn.request job)

omit [World] in
/-- Issues the next listing request, or finishes. The plan takes a tag it does not use. -/
def advance (s : HudStore) (stray : List (PathBuf × Sha)) : List Job → Stepped
  | [] => ({ s with op := .idle }, [])
  | .plan :: rest =>
    match s.planPacks with
    | [] =>
      let next := s.drawn.advance [] rest
      (next.1, s.reclaim stray ++ next.2)
    | first :: more =>
      let next := s.drawn.issue [] (packJob first) (more.map packJob ++ rest)
      (next.1, s.reclaim stray ++ next.2)
  | job :: rest => s.issue stray job rest

/-- The candidate an index file makes, by what reading it came to. -/
def indexRead : Except ReadError Bytes → Dir
  | .ok bytes => parseIndex bytes
  | .error .missing => Dir.empty
  | .error .tooLarge | .error .failed => Dir.readOnly

omit [World] in
def dropNameOk (name : String) : Bool :=
  packSuffix.utf8ByteSize < name.utf8ByteSize && packSuffix.toList.isSuffixOf name.toList &&
    !name.toList.head? == some '.' && !name.toList.any (fun c => c == '/' || c == '\\' || c == '\x00')

/-- Asks for a verdict on bytes a listing read. -/
def inspect (s : HudStore) (listing : Listing) (job : Job) (sha : Sha) (bytes : Bytes) : Stepped :=
  ({ s.drawn with op := .listing { listing with flight := some ⟨s.drawn.lastTag, job, .validation sha⟩ } },
    [.validate s.drawn.lastTag sha bytes])

/-- A copy that is no good: the next one is tried. -/
def nextCopy (sha : Sha) : List Nat → List Job
  | [] => []
  | d :: others => [.pack sha d others]

def packRead (s : HudStore) (listing : Listing) (sha : Sha) (d : Nat) (others : List Nat) :
    Except ReadError Bytes → Stepped
  | .ok bytes =>
    if Sha.of bytes = sha then s.inspect listing (.pack sha d others) sha bytes
    else s.advance listing.stray (nextCopy sha others ++ listing.todo)
  | .error _ => s.advance listing.stray (nextCopy sha others ++ listing.todo)

omit [World] in
def admitted (s : HudStore) (sha : Sha) (d : Nat) : Verdict → HudStore
  | .loadable metadata => { s with packs := s.packs.insert sha ⟨metadata, .ok (), s.volatile d⟩ }
  | .unloadable metadata why => { s with packs := s.packs.insert sha ⟨metadata, .error why, s.volatile d⟩ }
  | .invalid => s

omit [World] in
def dropped (s : HudStore) (file : Dropped) : HudStore := { s with drops := s.drops ++ [file] }

def dropRead (s : HudStore) (listing : Listing) (d : Nat) (name : String) : Except ReadError Bytes → Stepped
  | .ok bytes => s.inspect listing (.drop d name) (Sha.of bytes) bytes
  | .error .tooLarge => (s.dropped ⟨d, name, .tooLarge⟩).advance listing.stray listing.todo
  | .error .missing | .error .failed => s.advance listing.stray listing.todo

omit [World] in
def scanned (s : HudStore) (listing : Listing) (d : Nat) (result : Except ReadError (List String)) : Stepped :=
  s.advance listing.stray ((((result.toOption.getD []).filter dropNameOk).map (Job.drop d)) ++ listing.todo)

def listingAnswer (s : HudStore) (listing : Listing) : Job → Stage → HudEvent → Option Stepped
  | .index d, .io, .read _ result =>
    some ((s.withDir d (indexRead result)).advance listing.stray listing.todo)
  | .scan d, .io, .scanned _ result => some (s.scanned listing d result)
  | .pack sha d others, .io, .read _ result => some (s.packRead listing sha d others result)
  | .pack sha d _, .validation asked, .validated _ got verdict =>
    if asked = got then some ((s.admitted sha d verdict).advance listing.stray listing.todo) else none
  | .drop d name, .io, .read _ result => some (s.dropRead listing d name result)
  | .drop d name, .validation asked, .validated _ got verdict =>
    if asked = got then
      some ((s.dropped ⟨d, name, .parsed got verdict⟩).advance listing.stray listing.todo)
    else none
  | _, _, _ => none

end

section

/-- The packs an install or a removal may leave behind, by candidate directory, and the
notice it ends with. -/
def strayOf (s : HudStore) (d : Nat) (sha : Sha) : List (PathBuf × Sha) :=
  match s.setup.candidates[d]? with
  | some c => [(c.dir, sha)]
  | none => []

def strayReplaced (s : HudStore) (d : Nat) (sha : Sha) : Write → List (PathBuf × Sha)
  | .index _ (some old) => if old = sha then [] else s.strayOf d old
  | _ => []

def displacedStep (s : HudStore) : Step → List (PathBuf × Sha) × Option Sha
  | .reading sha _ => ([], some sha)
  | .fetching _ _ => ([], none)
  | .validating offer | .offered offer _ => ([], some offer.sha)
  | .writing offer _ d what => (s.strayOf d offer.sha ++ s.strayReplaced d offer.sha what, some offer.sha)

def strayRemoval (s : HudStore) : Option Rewrite → List (PathBuf × Sha)
  | some r => r.gone.flatMap (s.strayOf r.dir)
  | none => []

def displaced (s : HudStore) : List (PathBuf × Sha) × List HudEffect :=
  match s.op with
  | .idle | .listing _ => ([], [])
  | .installing installing =>
    ((s.displacedStep installing.step).1, [.notice (.notWritten (s.displacedStep installing.step).2)])
  | .removing removing => (s.strayRemoval removing.flight, [.notice (.removeIncomplete removing.id)])

/-- The store with everything it had listed forgotten. -/
def forgotten (s : HudStore) (setup : Setup) (selected : String) : HudStore :=
  { s with
    setup := setup
    dirs := List.replicate setup.candidates.length Dir.empty
    packs := SortedMap.empty
    drops := []
    selected := if selected = "" then builtinClassic else selected
    op := .idle }

def listingJobs (n : Nat) : List Job := (List.range n).map .index ++ .plan :: (List.range n).map .scan

def beginListing (s : HudStore) (setup : Setup) (selected : String) : Stepped :=
  let next := (s.forgotten setup selected).advance s.displaced.1 (listingJobs setup.candidates.length)
  (next.1, s.displaced.2 ++ next.2)

end

section
variable [World]

omit [World] in
/-- Whatever no candidate lists any more is forgotten. -/
def pruned (s : HudStore) : HudStore :=
  { s with packs := s.packs.retain (fun sha _ => s.dirs.any (fun d => d.index.names sha)), op := .idle }

omit [World] in
/-- The end of a removal; the selection follows the package. -/
def finishRemoval (s : HudStore) (id : String) (incomplete : Bool) : Stepped :=
  let after := s.pruned
  let listed := (after.winners.lookup id).isSome
  let notice := HudEffect.notice (if incomplete || listed then .removeIncomplete id else .removed id)
  if !listed ∧ after.selected = id then ({ after with selected := builtinClassic }, [.selection builtinClassic, notice])
  else (after, [notice])

def advanceRemoval (s : HudStore) (id : String) (incomplete : Bool) : List Nat → Stepped
  | [] => s.finishRemoval id incomplete
  | d :: rest =>
    if (s.dir d).access = .readOnly then s.advanceRemoval id true rest
    else match (s.dir d).index.lookup id with
      | none => s.advanceRemoval id incomplete rest
      | some record =>
        let index := (s.dir d).index.erase id
        ({ s.drawn with op := .removing ⟨id, rest, incomplete, some ⟨s.drawn.lastTag, d, index, [record.sha]⟩⟩ },
          [s.drawn.writeFile d indexFile (indexBytes index)])

omit [World] in
def holders (s : HudStore) (id : String) : List Nat :=
  (List.range s.dirs.length).filter (fun d =>
    decide ((s.dir d).access = .readOnly) || ((s.dir d).index.lookup id).isSome)

def handled (stepped : Stepped) : Turn := ⟨stepped.1, .yes, stepped.2⟩

def beginRemoval (s : HudStore) (id : String) : Turn :=
  if s.busy ∨ id = builtinClassic then ⟨s, .no, []⟩
  else if s.dirs.any (fun d => (d.index.lookup id).isSome) then handled (s.advanceRemoval id false (s.holders id))
  else ⟨s, .no, []⟩

def rewritten (s : HudStore) (removing : Removing) (r : Rewrite) : WriteOutcome → Stepped
  | .done =>
    let next := (s.withIndex r.dir r.index).advanceRemoval removing.id removing.incomplete removing.dirs
    (next.1, r.gone.flatMap ((s.withIndex r.dir r.index).discard r.dir) ++ next.2)
  | .refused => s.advanceRemoval removing.id true removing.dirs

end

section
variable [World]

def answerTag : HudEvent → Option Tag
  | .scanned tag _ | .read tag _ | .validated tag _ _ | .written tag _ | .fetched tag _ => some tag
  | _ => none

def listingTag : HudEvent → Option Tag
  | .fetched _ _ => none
  | ev => answerTag ev

def listingResult (s : HudStore) (listing : Listing) (ev : HudEvent) : Turn :=
  match listing.flight with
  | none => ⟨{ s with op := .listing listing }, .no, []⟩
  | some flight =>
    let put := { listing with flight := none }
    let back := Turn.mk { s with op := .listing { put with flight := some flight } } .no []
    if listingTag ev = some flight.tag then
      match s.listingAnswer put flight.job flight.stage ev with
      | some stepped => handled stepped
      | none => back
    else back

def installingResult (s : HudStore) (installing : Installing) (ev : HudEvent) : Turn :=
  let back := Turn.mk { s with op := .installing ⟨installing.tag, installing.step⟩ } .no []
  if answerTag ev = some installing.tag then
    match s.installingAnswer installing.tag installing.step ev with
    | some stepped => handled stepped
    | none => back
  else back

def removingResult (s : HudStore) (removing : Removing) (ev : HudEvent) : Turn :=
  match ev with
  | .written tag outcome =>
    match removing.flight with
    | some r =>
      if r.tag = tag then handled (s.rewritten { removing with flight := none } r outcome)
      else ⟨{ s with op := .removing { removing with flight := some r } }, .no, []⟩
    | none => ⟨{ s with op := .removing { removing with flight := none } }, .no, []⟩
  | _ => ⟨{ s with op := .removing removing }, .no, []⟩

/-- An answer goes to the work in hand, which is out of the store meanwhile. -/
def result (s : HudStore) (ev : HudEvent) : Turn :=
  let free := { s with op := .idle }
  match s.op with
  | .idle => ⟨free, .no, []⟩
  | .listing listing => free.listingResult listing ev
  | .installing installing => free.installingResult installing ev
  | .removing removing => free.removingResult removing ev

end

section
variable [World]

omit [World] in
/-- The checked index's package of a digest, where this app may install it. -/
def listedPackage (s : HudStore) (sha : Sha) (app language : String) : Option (Catalog.Package × Address) := do
  let index ← s.catalog.snapshot.index
  let package ← index.entries.find? (fun p => p.sha = sha)
  if package.compatible app language s.setup.maxPackBytes then
    let address ← (Address.parse package.url).toOption
    return (package, address)
  else none

omit [World] in
def fetchRegistry (s : HudStore) (sha : Sha) (app language : String) : Turn :=
  if s.busy ∨ s.revoked sha then ⟨s, .no, []⟩
  else match s.listedPackage sha app language with
    | none => ⟨s, .no, []⟩
    | some (package, address) =>
      ⟨{ s.drawn with op := .installing ⟨s.drawn.lastTag, .fetching address (some package)⟩ }, .yes,
        [.fetchRegistry s.drawn.lastTag package s.setup.maxPackBytes]⟩

omit [World] in
/-- Whether the work in hand is the unconfirmed registry fetch of a package. -/
def cancels (s : HudStore) (sha : Sha) : Bool :=
  match s.op with
  | .installing ⟨_, .fetching _ (some p)⟩ => decide (p.sha = sha)
  | .installing ⟨_, .validating offer⟩ | .installing ⟨_, .offered offer _⟩ =>
    decide (offer.source = .registry ∧ offer.sha = sha ∧ offer.now = none)
  | _ => false

def install (s : HudStore) (bytes : Bytes) (source : Source) (now : Nat) : Turn :=
  if s.busy then ⟨s, .no, []⟩
  else if s.setup.maxPackBytes < bytes.length then ⟨s, .yes, [.notice (.refused (Sha.of bytes) .tooLarge)]⟩
  else handled (s.validate
    { sha := Sha.of bytes, source := source, now := some now, from_ := none, bytes := bytes, expected := none })

omit [World] in
def fetch (s : HudStore) (address : Address) : Turn :=
  if s.busy then ⟨s, .no, []⟩
  else ⟨{ s.drawn with op := .installing ⟨s.drawn.lastTag, .fetching address none⟩ }, .yes,
    [.fetch s.drawn.lastTag address s.setup.maxPackBytes]⟩

omit [World] in
def installOffer (s : HudStore) (sha : Sha) (now : Nat) : Turn :=
  match s.op with
  | .installing ⟨_, .offered offer metadata⟩ =>
    if offer.sha = sha then
      if s.revoked sha then handled (s.ended (.refused sha (.unloadable .revoked)))
      else handled (({ s with op := .idle }).writePack { offer with now := some now } metadata 0)
    else ⟨s, .no, []⟩
  | _ => ⟨s, .no, []⟩

omit [World] in
def declineOffer (s : HudStore) (sha : Sha) : Turn :=
  match s.op with
  | .installing ⟨_, .offered offer _⟩ => if offer.sha = sha then ⟨{ s with op := .idle }, .yes, []⟩ else ⟨s, .no, []⟩
  | _ => ⟨s, .no, []⟩

omit [World] in
def dropOf (sha : Sha) (dropped : Dropped) : Option (Nat × String) :=
  match dropped.found with
  | .parsed found _ => if found = sha then some (dropped.dir, dropped.name) else none
  | .tooLarge => none

omit [World] in
def installDrop (s : HudStore) (sha : Sha) (now : Nat) : Turn :=
  if s.busy then ⟨s, .no, []⟩
  else match s.drops.findSome? (dropOf sha) with
    | none => ⟨s, .no, []⟩
    | some (d, name) =>
      ⟨{ s.drawn with op := .installing ⟨s.drawn.lastTag, .reading sha now⟩ }, .yes,
        [s.drawn.readFile d (dropDir ++ "/" ++ name)]⟩

omit [World] in
def catalogTold (s : HudStore) (event : Catalog.Event) : Turn :=
  let moved := s.catalog.step event
  ⟨{ s with catalog := moved.1 }, if moved.2.1 then .yes else .no, moved.2.2.map .catalog⟩

def reduce (s : HudStore) : HudEvent → Turn
  | .catalog event => s.catalogTold event
  | .cancelRegistry sha => if s.cancels sha then ⟨{ s with op := .idle }, .yes, []⟩ else ⟨s, .no, []⟩
  | .fetchRegistry sha app language => s.fetchRegistry sha app language
  | .refresh setup selected => handled (s.beginListing setup selected)
  | .selected id => s.select id
  | .install bytes source now => s.install bytes source now
  | .fetch address => s.fetch address
  | .installOffer sha now => s.installOffer sha now
  | .declineOffer sha => s.declineOffer sha
  | .installDrop sha now => s.installDrop sha now
  | .removed id => s.beginRemoval id
  | .scanned tag result => s.result (.scanned tag result)
  | .read tag result => s.result (.read tag result)
  | .validated tag sha verdict => s.result (.validated tag sha verdict)
  | .written tag outcome => s.result (.written tag outcome)
  | .fetched tag result => s.result (.fetched tag result)

omit [World] in
/-- Whether the selected package is one the catalog revokes. -/
def selectionRevoked (s : HudStore) : Bool :=
  ((s.winners.lookup s.selected).map (fun w => s.revoked w.record.sha)).getD false

omit [World] in
/-- The rule after every event: a revoked selection falls back to the built-in. -/
def settle (turn : Turn) : Turn :=
  if turn.store.selectionRevoked then
    ⟨{ turn.store with selected := builtinClassic }, turn.handled, turn.fx ++ [.selection builtinClassic]⟩
  else turn

def step (s : HudStore) (ev : HudEvent) : Turn := settle (s.reduce ev)

/-- The store's transition, with what it answers. -/
def turn (s : HudStore) (ev : HudEvent) : HudStore × Handled × List HudEffect :=
  ((s.step ev).store, (s.step ev).handled, (s.step ev).fx)

end

end HudStore
end PlxNative.Hud
