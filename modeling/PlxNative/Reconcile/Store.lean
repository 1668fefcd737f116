import PlxNative.ViewState.Writes

/-! The read-back of a view-state write: items are owed a read, one read is out per server, and an
item that is asked for while its read is out is read once more. -/
namespace PlxNative.Reconcile
open ViewState (ServerId Scope WatchSortFacts ViewEdit PmsMovie Table ClientKey ClientKeys sameItem)

abbrev Key : Type := ServerId × String

def retryFrames : Nat := 120

def batchKeys : Nat := 50

/-- A read that is out. The tail of its keys is asked only because a leaf's answer named it. -/
structure Flight where
  id : Nat
  sid : ServerId
  keys : List String
  parents : List String
  stamp : Nat
  deriving DecidableEq

def Flight.asks (f : Flight) (key : Key) : Bool := f.keys.any (fun k => sameItem (f.sid, k) key)

def Flight.isParent (f : Flight) (key : Key) : Bool := f.parents.any (fun p => sameItem (f.sid, p) key)

/-- An answered row, with the keys that it names above itself. -/
structure ReadRow where
  movie : PmsMovie
  parent : String
  grandparent : String

def ReadRow.key (row : ReadRow) : Key := (row.movie.sid, row.movie.rk)

inductive Outcome where
  | read (rows : Option (List ReadRow))
  | notStarted

structure Landing where
  id : Nat
  outcome : Outcome

/-- The one read that a job carries; `port` is the adapter that its answer goes to. -/
structure Job where
  id : Nat
  sid : ServerId
  key : ClientKey
  keys : List String
  port : Nat

inductive ViewFact where
  | watched (on : Bool)
  | leftDeck
  | facts (watched unwatched : Bool) (resumeMs : Int) (sort : Option WatchSortFacts)
  | offset (ms durMs : Int)

structure ViewChange where
  sid : ServerId
  rk : String
  scope : Scope
  fact : ViewFact

/-- What a pump did, where the source does it. -/
inductive Note where
  | published (change : ViewChange)
  /-- A stopped item was found watched. -/
  | ended (key : Key) (flight : Flight) (row : ReadRow)
  | sent (flight : Flight)
  | dropped (sid : ServerId) (keys : List String)

structure ViewReconcileStore where
  ledger : Table
  adapter : Nat
  pending : List Key
  pendingParents : List Key
  flights : List Flight
  dirty : List Key
  candidates : List (Key × Nat)
  watchedEnds : List Key
  landed : List Key
  quiet : List Key
  retryCd : Nat
  nextId : Nat
  jobs : List Job
  noticeGen : UInt32
  noticeDirty : Bool

namespace ViewReconcileStore

def new : ViewReconcileStore := ⟨Table.new, 0, [], [], [], [], [], [], [], [], 0, 1, [], 0, false⟩

variable (s : ViewReconcileStore)

def bump : ViewReconcileStore := { s with noticeDirty := true, noticeGen := s.noticeGen + 1 }

def takeNotice : ViewReconcileStore × Option UInt32 :=
  ({ s with noticeDirty := false }, if s.noticeDirty then some s.noticeGen else none)

def isBusy : Bool := !s.pending.isEmpty || !s.pendingParents.isEmpty || !s.flights.isEmpty

def isOut (key : Key) : Bool := s.flights.any (·.asks key)

def queued (list : List Key) (key : Key) : Bool := list.any (sameItem · key)

def push (list : List Key) (key : Key) : List Key := if queued list key then list else list ++ [key]

def enqueueOne (key : Key) : ViewReconcileStore :=
  let s := { s with quiet := s.quiet.filter (fun k => !sameItem k key) }
  if s.isOut key then { s with dirty := push s.dirty key } else { s with pending := push s.pending key }

def enqueue (keys : List Key) : ViewReconcileStore := keys.foldl enqueueOne s

/-- A quiet ask of an item, unless it is queued or out already. -/
def enqueueRereadOne (key : Key) : ViewReconcileStore :=
  let fresh := !(queued (s.pending ++ s.pendingParents ++ s.dirty) key || s.isOut key)
  let s := s.enqueue [key]
  if fresh then { s with quiet := s.quiet ++ [key] } else s

def enqueueReread (keys : List Key) : ViewReconcileStore := keys.foldl enqueueRereadOne s

/-- The newest stop is the one that a read must follow. -/
def stampCandidate (key : Key) (born : Nat) : List (Key × Nat) → List (Key × Nat)
  | [] => [(key, born)]
  | candidate :: rest =>
    if sameItem candidate.1 key then (candidate.1, born) :: rest else candidate :: stampCandidate key born rest

def enqueueStop (key : Key) (wasWatched : Bool) : ViewReconcileStore :=
  let s := if wasWatched then s else { s with candidates := stampCandidate key s.nextId s.candidates }
  s.enqueue [key]

def takeWatchedEnds : ViewReconcileStore × List Key := ({ s with watchedEnds := [] }, s.watchedEnds)

def owePage (key : Key) : ViewReconcileStore := { s with landed := push s.landed key }

def takeLanded : ViewReconcileStore × List Key := ({ s with landed := [] }, s.landed)

/-- The jobs that nobody has taken stay on the outbox, and answer into the adapter of before. -/
def reset : ViewReconcileStore :=
  { s with
    adapter := s.adapter + 1
    pending := []
    pendingParents := []
    flights := []
    dirty := []
    candidates := []
    watchedEnds := []
    landed := []
    quiet := []
    retryCd := 0 }.bump

/-- The servers that have an item queued and no read out. -/
def kickServers : List ServerId :=
  (s.pending ++ s.pendingParents).foldl
    (fun servers key => if servers.contains key.1 || s.flights.any (·.sid = key.1) then servers else servers ++ [key.1]) []

/-- The items of a server that a batch takes, after those it has, and the items that stay. -/
def takeLeaves (sid : ServerId) : List Key → List String → List String × List Key
  | [], keys => (keys, [])
  | key :: rest, keys =>
    if key.1 = sid ∧ keys.length < batchKeys then takeLeaves sid rest (keys ++ [key.2])
    else ((takeLeaves sid rest keys).1, key :: (takeLeaves sid rest keys).2)

/-- The seasons and shows that ride in a batch: its keys, those of them that are parents, and the
parents that stay. -/
def takeParents (sid : ServerId) : List Key → List String → List String → List String × List String × List Key
  | [], keys, parents => (keys, parents, [])
  | key :: rest, keys, parents =>
    if key.1 ≠ sid ∨ batchKeys ≤ keys.length then
      ((takeParents sid rest keys parents).1, (takeParents sid rest keys parents).2.1, key :: (takeParents sid rest keys parents).2.2)
    else if keys.any (fun k => sameItem (sid, k) (sid, key.2)) then takeParents sid rest keys parents
    else takeParents sid rest (keys ++ [key.2]) (parents ++ [key.2])

def kickServer (clients : ClientKeys) (sid : ServerId) : ViewReconcileStore × Note :=
  let leaves := takeLeaves sid s.pending []
  let batch := takeParents sid s.pendingParents leaves.1 []
  let s := { s with pending := leaves.2, pendingParents := batch.2.2 }
  match clients.key sid with
  | none => (s, .dropped sid batch.1)
  | some key =>
    let flight : Flight := ⟨s.nextId, sid, batch.1, batch.2.1, s.ledger.stamp⟩
    ({ s with
      nextId := s.nextId + 1
      jobs := s.jobs ++ [⟨s.nextId, sid, key, batch.1, s.adapter⟩]
      flights := s.flights ++ [flight] }, .sent flight)

def kickEach (clients : ClientKeys) : ViewReconcileStore → List ServerId → ViewReconcileStore × List Note
  | s, [] => (s, [])
  | s, sid :: rest =>
    let kicked := s.kickServer clients sid
    ((kickEach clients kicked.1 rest).1, kicked.2 :: (kickEach clients kicked.1 rest).2)

/-- A read for each server that has an item queued and none out. -/
def kick (clients : ClientKeys) : ViewReconcileStore × List Note :=
  if 0 < s.retryCd then ({ s with retryCd := s.retryCd - 1 }, []) else kickEach clients s s.kickServers

/-- The items that were asked for again while a read was out. -/
def askedAgain (f : Flight) : List Key := s.dirty.filter f.asks

def takeAskedAgain (f : Flight) : ViewReconcileStore := { s with dirty := s.dirty.filter (fun key => !f.asks key) }

def requeueLeaf (sid : ServerId) (rk : String) : ViewReconcileStore := { s with pending := push s.pending (sid, rk) }

/-- A parent that was also asked for goes back as a leaf. -/
def requeueParent (sid : ServerId) (again : List Key) (rk : String) : ViewReconcileStore :=
  if queued s.pending (sid, rk) || queued s.pendingParents (sid, rk) then s
  else if queued again (sid, rk) then { s with pending := s.pending ++ [(sid, rk)] }
  else { s with pendingParents := s.pendingParents ++ [(sid, rk)] }

def requeueUnstarted (f : Flight) : ViewReconcileStore :=
  let again := s.askedAgain f
  let leaves := f.keys.length - f.parents.length
  let s := s.takeAskedAgain f
  let s := (f.keys.take leaves).foldl (fun s rk => s.requeueLeaf f.sid rk) s
  let s := (f.keys.drop leaves).foldl (fun s rk => s.requeueParent f.sid again rk) s
  { s with retryCd := retryFrames }

/-- The season or the show of a leaf is read too, unless this very read already did. -/
def followUp (f : Flight) (isQuiet : Bool) (up : String) : ViewReconcileStore :=
  if up.isEmpty || f.asks (f.sid, up) then s
  else if queued s.pending (f.sid, up) || queued s.pendingParents (f.sid, up) then s
  else
    { s with
      quiet := if isQuiet then s.quiet ++ [(f.sid, up)] else s.quiet
      pendingParents := s.pendingParents ++ [(f.sid, up)] }

def settles (f : Flight) (key : Key) (candidate : Key × Nat) : Bool := candidate.2 ≤ f.id && sameItem candidate.1 key

/-- A row settles the candidate that its flight was sent after. -/
def settle (f : Flight) (row : ReadRow) : ViewReconcileStore × List Note :=
  match s.candidates.find? (settles f row.key) with
  | none => (s, [])
  | some candidate =>
    let s := { s with candidates := s.candidates.eraseP (settles f row.key) }
    if row.movie.watched then ({ s with watchedEnds := s.watchedEnds ++ [candidate.1] }, [.ended candidate.1 f row]) else (s, [])

def changeOf (m : PmsMovie) : ViewChange :=
  ⟨m.sid, m.rk, .leaf, .facts m.watched m.unwatched m.resumeMs (m.sortInfo.map (fun facts => ⟨facts.viewCount, facts.lastViewedAt⟩))⟩

/-- A row that was not asked for, or that a press has overtaken, is let go. -/
def surviving (f : Flight) (overtaking : List ViewState.ViewAt) (row : ReadRow) : Bool :=
  f.asks row.key && !overtaking.any (·.covers row.movie)

def landRow (f : Flight) (quiet : List Key) (overtaking : List ViewState.ViewAt) (row : ReadRow) : ViewReconcileStore × List Note :=
  if surviving f overtaking row then
    let isQuiet := queued quiet row.key
    let s := if f.isParent row.key then s else (s.followUp f isQuiet row.parent).followUp f isQuiet row.grandparent
    let settled := s.settle f row
    let s := if isQuiet then settled.1 else settled.1.owePage row.key
    (s, settled.2 ++ [.published (changeOf row.movie)])
  else (s, [])

def landRows (f : Flight) (quiet : List Key) (overtaking : List ViewState.ViewAt) :
    ViewReconcileStore → List ReadRow → ViewReconcileStore × List Note
  | s, [] => (s, [])
  | s, row :: rest =>
    let landed := s.landRow f quiet overtaking row
    ((landRows f quiet overtaking landed.1 rest).1, landed.2 ++ (landRows f quiet overtaking landed.1 rest).2)

/-- The presses that a read does not know of. -/
def overtaking (f : Flight) : List ViewState.ViewAt :=
  ((s.ledger.since f.stamp).filter (fun press => press.2.pressed.isSome)).map (·.1)

/-- A candidate that a read of its item did not settle is dropped. -/
def dropUnsettled (f : Flight) : ViewReconcileStore :=
  { s with candidates := s.candidates.filter (fun candidate => f.id < candidate.2 || !(candidate.1.1 = f.sid && f.asks candidate.1)) }

def landRead (f : Flight) (rows : Option (List ReadRow)) : ViewReconcileStore × List Note :=
  let quiet := (f.keys.map (fun k => (f.sid, k))).filter (queued s.quiet)
  let s := { s with quiet := s.quiet.filter (fun key => !quiet.contains key) }
  let landed := match rows with
    | none => (s, [])
    | some rows => s.landRows f quiet (s.overtaking f) rows
  let s := landed.1.dropUnsettled f
  let again := s.askedAgain f
  let s := s.takeAskedAgain f
  ({ s with pending := s.pending ++ again }, landed.2)

/-- One landing; the second component says whether a screen may be drawing what it changed. -/
def land (landing : Landing) : ViewReconcileStore × Bool × List Note :=
  match s.flights.find? (·.id = landing.id) with
  | none => (s, false, [])
  | some f =>
    let s := { s with flights := s.flights.eraseP (·.id = landing.id) }
    match landing.outcome with
    | .notStarted => (s.requeueUnstarted f, false, [])
    | .read rows => ((s.landRead f rows).1, true, (s.landRead f rows).2)

def landAll : ViewReconcileStore → List Landing → ViewReconcileStore × Bool × List Note
  | s, [] => (s, false, [])
  | s, landing :: rest =>
    let one := s.land landing
    let later := landAll one.1 rest
    (later.1, one.2.1 || later.2.1, one.2.2 ++ later.2.2)

/-- What arrived is landed, and the next reads are sent. -/
def pump (landings : List Landing) (maySend : Bool) (clients : ClientKeys) : ViewReconcileStore × Bool × List Note :=
  let landed := s.landAll landings
  let kicked := if maySend then landed.1.kick clients else (landed.1, [])
  (if landed.2.1 then kicked.1.bump else kicked.1, landed.2.1, landed.2.2 ++ kicked.2)

end ViewReconcileStore

/-- The store, the answers in the mailboxes and the jobs that a runner holds. -/
structure World where
  store : ViewReconcileStore
  mail : List (Nat × Landing)
  sent : List Job

inductive Move where
  | enqueue (keys : List Key)
  | enqueueReread (keys : List Key)
  | enqueueStop (key : Key) (wasWatched : Bool)
  | owePage (key : Key)
  | takeWatchedEnds
  | takeLanded
  | takeNotice
  | takeJobs
  | reset
  /-- The ledger is shared with the writes and the other stores. -/
  | edit (op : ViewState.Op)
  /-- A job is answered, in any way. -/
  | answer (id : Nat) (outcome : Outcome)
  | pump (maySend : Bool) (clients : ClientKeys)

namespace World

def new : World := ⟨.new, [], []⟩

/-- A job's answer reaches the mailbox of the adapter that it was made with. -/
def answer (w : World) (id : Nat) (outcome : Outcome) : World :=
  match w.sent.find? (·.id = id) with
  | none => w
  | some job => { w with sent := w.sent.eraseP (·.id = id), mail := w.mail ++ [(job.port, ⟨id, outcome⟩)] }

def arrived (w : World) : List Landing := (w.mail.filter (·.1 = w.store.adapter)).map (·.2)

def step (w : World) : Move → World × List Note
  | .enqueue keys => ({ w with store := w.store.enqueue keys }, [])
  | .enqueueReread keys => ({ w with store := w.store.enqueueReread keys }, [])
  | .enqueueStop key wasWatched => ({ w with store := w.store.enqueueStop key wasWatched }, [])
  | .owePage key => ({ w with store := w.store.owePage key }, [])
  | .takeWatchedEnds => ({ w with store := w.store.takeWatchedEnds.1 }, [])
  | .takeLanded => ({ w with store := w.store.takeLanded.1 }, [])
  | .takeNotice => ({ w with store := w.store.takeNotice.1 }, [])
  | .takeJobs => ({ w with store := { w.store with jobs := [] }, sent := w.sent ++ w.store.jobs }, [])
  | .reset => ({ w with store := w.store.reset }, [])
  | .edit op => ({ w with store := { w.store with ledger := (w.store.ledger.step op).1 } }, [])
  | .answer id outcome => (w.answer id outcome, [])
  | .pump maySend clients =>
    let pumped := w.store.pump w.arrived maySend clients
    (⟨pumped.1, w.mail.filter (·.1 ≠ w.store.adapter), w.sent⟩, pumped.2.2)

end World
end PlxNative.Reconcile
