import PlxNative.Watchlist.Ledger

/-! The watchlist store, its mailbox and its two workers, within one epoch. The main
thread runs pump passes; a list worker posts its landings one at a time and then clears
its busy flag, so that its steps fall anywhere between the main thread's. -/
namespace PlxNative.Watchlist

/-- A worker's landing, less what only tiles read. -/
inductive What where
  | page (start : Nat) (rows : List CatalogId) (etag : Option String)
  | notModified
  | pageFailed (start : Nat)
  | released
  | listDone
  | written (write : PendingWrite) (outcome : WriteOutcome)

structure LandedWhat where
  req : Nat
  what : What

def retryFrames : Nat := 120

/-- Main-thread state; rows are kept by their ids. -/
structure WatchlistState where
  req : Nat
  rows : List CatalogId
  incoming : Option (List CatalogId)
  truncated : Bool
  ledger : IntentLedger
  rowsStamp : Nat
  readStamp : Nat
  listWanted : Bool
  listRetry : Nat
  writeRetry : Nat
  listEtag : Option String
  readEtag : Option String
  writesSeen : Nat
  readWrites : Option Nat

/-- The rows of a later page that the list does not have yet. -/
def appendNew (into rows : List CatalogId) : List CatalogId :=
  into ++ rows.filter (fun hex => hex ∉ into)

namespace WatchlistState

def new : WatchlistState :=
  ⟨0, [], none, false, .new, 0, 0, false, 0, 0, none, none, 0, none⟩

def apply (s : WatchlistState) : What → WatchlistState
  | .page start rows etag =>
    let s := if start = 0 then { s with readEtag := etag, truncated := false } else s
    if start = 0 then
      if s.rows.isEmpty then { s with rows, rowsStamp := s.readStamp }
      else { s with incoming := some rows }
    else match s.incoming with
      | some incoming => { s with incoming := some (appendNew incoming rows) }
      | none => { s with rows := appendNew s.rows rows }
  | .notModified =>
    { s with truncated := false, rowsStamp := s.readStamp, readEtag := s.listEtag }
  | .pageFailed start =>
    let hadRows := s.incoming.isSome
    let s := { s with readWrites := none, incoming := none }
    if start = 0 ∧ s.rows.isEmpty then s else { s with truncated := decide (0 < start) && !hadRows }
  | .released => s
  | .listDone =>
    let s := { s with
      listEtag := if s.readWrites = some s.writesSeen then s.readEtag else s.listEtag
      readEtag := none
      readWrites := none }
    let s := match s.incoming with
      | some rows => { s with rows, incoming := none, rowsStamp := s.readStamp }
      | none => s
    { s with ledger := s.ledger.forgetOlder s.rowsStamp }
  | .written write outcome => { s with ledger := (s.ledger.finished write outcome).1 }

/-- The validator the next read sends: only for a complete list with no write in the air. -/
def sentEtag (s : WatchlistState) : Option String :=
  s.listEtag.filter (fun _ => !s.ledger.busy && !s.rows.isEmpty && !s.truncated)

def spawnWrite (s : WatchlistState) (write : PendingWrite) (spawned : Bool) : WatchlistState :=
  let s := { s with req := s.req + 1, writesSeen := (s.writesSeen + 1) % 2 ^ 32, listEtag := none }
  if spawned then s else { s with ledger := s.ledger.requeue write, writeRetry := retryFrames }

def spawnList (s : WatchlistState) (spawned : Bool) : WatchlistState :=
  let s := { s with
    req := s.req + 1
    readStamp := s.ledger.stamp
    readEtag := none
    readWrites := if s.ledger.busy then none else some s.writesSeen }
  if spawned then { s with listWanted := false } else { s with listRetry := retryFrames }

end WatchlistState

/-- A list read as it was spawned: its stamp, the writes spawned before it, and all the
landings its worker will post. -/
structure ListRead where
  req : Nat
  stamp : Nat
  writes : Nat
  posts : List What

def listOf (posts : List What) : List CatalogId :=
  posts.foldl (fun list what => match what with
    | .page start rows _ => if start = 0 then rows else appendNew list rows
    | _ => list) []

def etagOf (posts : List What) : Option String :=
  posts.foldl (fun etag what => match what with
    | .page start _ given => if start = 0 then given else etag
    | _ => etag) none

/-- Where the data came from; no decision reads it. -/
structure Origin where
  reads : List ListRead
  writes : Nat
  rowsFrom : List Nat
  incomingFrom : List Nat
  readEtagFrom : Option Nat
  listEtagFrom : Option Nat

/-- The origins move with the data `apply` moves. A 304 vouches for the held rows. -/
def Origin.apply (o : Origin) (s : WatchlistState) (landed : LandedWhat) : Origin :=
  match landed.what with
  | .page start _ _ =>
    let o := if start = 0 then { o with readEtagFrom := some landed.req } else o
    if start = 0 then
      if s.rows.isEmpty then { o with rowsFrom := [landed.req] }
      else { o with incomingFrom := [landed.req] }
    else match s.incoming with
      | some _ => { o with incomingFrom := o.incomingFrom ++ [landed.req] }
      | none => { o with rowsFrom := o.rowsFrom ++ [landed.req] }
  | .notModified => { o with rowsFrom := [landed.req], readEtagFrom := o.listEtagFrom }
  | .listDone =>
    let o := if s.readWrites = some s.writesSeen then { o with listEtagFrom := o.readEtagFrom } else o
    match s.incoming with
    | some _ => { o with rowsFrom := o.incomingFrom }
    | none => o
  | _ => o

/-- The list worker: what it still has to post. -/
structure ListWorker where
  req : Nat
  posts : List What

structure Store where
  state : WatchlistState
  origin : Origin
  mail : List LandedWhat
  listBusy : Bool
  worker : Option ListWorker
  writeBusy : Bool
  writer : Option LandedWhat
  /-- Between a pump's drain and its spawns. -/
  pumping : Bool

/-- The steps of the three threads. The service's answers, the verdict of a write and
whether a thread could be spawned are the environment's. -/
inductive Tick where
  | press (hex : CatalogId) (intent : Intent)
  | reread
  | drain
  | maybeSpawn (writeSpawned : Bool) (outcome : WriteOutcome) (listSpawned : Bool) (posts : List What)
  | workerPost
  | workerDone
  | writerPost
  | writerDone

namespace Store

def new : Store :=
  ⟨.new, ⟨[], 0, [], [], none, none⟩, [], false, none, false, none, false⟩

def land (s : Store) (landed : LandedWhat) : Store :=
  { s with state := s.state.apply landed.what, origin := s.origin.apply s.state landed }

/-- The first half of a pump: every landing in the mailbox, in post order. -/
def drain (s : Store) : Store :=
  let s := { s with
    pumping := true
    state := { s.state with listRetry := s.state.listRetry - 1, writeRetry := s.state.writeRetry - 1 } }
  s.mail.foldl land { s with mail := [] }

def spawnWrite (s : Store) (write : PendingWrite) (spawned : Bool) (outcome : WriteOutcome) : Store :=
  let state := s.state.spawnWrite write spawned
  { s with
    state
    origin := { s.origin with writes := s.origin.writes + 1 }
    writeBusy := spawned
    writer := if spawned then some ⟨state.req, .written write outcome⟩ else none }

def spawnList (s : Store) (spawned : Bool) (posts : List What) : Store :=
  let state := s.state.spawnList spawned
  if spawned then
    { s with
      state
      origin := { s.origin with
        reads := s.origin.reads ++ [⟨state.req, s.state.ledger.stamp, s.origin.writes, posts⟩] }
      listBusy := true
      worker := some ⟨state.req, posts⟩ }
  else { s with state }

/-- The write worker's turn: one write at a time, in press order. -/
def maybeWrite (s : Store) (spawned : Bool) (outcome : WriteOutcome) : Store :=
  if s.writeBusy = false ∧ s.state.writeRetry = 0 then
    match s.state.ledger.nextWrite with
    | (ledger, some write) =>
      { s with state := { s.state with ledger } }.spawnWrite write spawned outcome
    | (_, none) => s
  else s

/-- The flag is tested here, after the drain. -/
def listDue (s : Store) : Bool :=
  !s.listBusy && decide (s.state.listRetry = 0) && s.state.listWanted

def maybeSpawn (s : Store) (writeSpawned : Bool) (outcome : WriteOutcome) (listSpawned : Bool)
    (posts : List What) : Store :=
  let s := s.maybeWrite writeSpawned outcome
  let s := { s with pumping := false }
  if s.listDue then s.spawnList listSpawned posts else s

def workerPost (s : Store) : Store :=
  match s.worker with
  | some ⟨req, what :: posts⟩ =>
    { s with mail := s.mail ++ [⟨req, what⟩], worker := some ⟨req, posts⟩ }
  | _ => s

def workerDone (s : Store) : Store :=
  match s.worker with
  | some ⟨_, []⟩ => { s with worker := none, listBusy := false }
  | _ => s

def writerPost (s : Store) : Store :=
  match s.writer with
  | some landed => { s with mail := s.mail ++ [landed], writer := none }
  | none => s

def step (s : Store) : Tick → Store × Unit
  | .press hex intent => ({ s with state := { s.state with ledger := (s.state.ledger.press hex intent).1 } }, ())
  | .reread => ({ s with state := { s.state with listWanted := true } }, ())
  | .drain => (s.drain, ())
  | .maybeSpawn writeSpawned outcome listSpawned posts =>
    (s.maybeSpawn writeSpawned outcome listSpawned posts, ())
  | .workerPost => (s.workerPost, ())
  | .workerDone => (s.workerDone, ())
  | .writerPost => (s.writerPost, ())
  | .writerDone => (if s.writer = none then { s with writeBusy := false } else s, ())

end Store
end PlxNative.Watchlist
