import PlxNative.ViewState.PressLog

/-! The queue of view-state writes and its one worker. A write leaves the queue to the
runner, and the runner's answer comes back with the write's id. Request ids are the
source's `u32`, whose counter stops the program rather than wrap. -/
namespace PlxNative.ViewState

inductive Write where
  | watched
  | unwatched
  | removeFromDeck
  deriving DecidableEq

namespace Write

def family : Write → Nat
  | .watched | .unwatched => 0
  | .removeFromDeck => 1

def propagates : Write → Bool
  | .watched | .unwatched => true
  | .removeFromDeck => false

def edit : Write → ViewEdit
  | .watched => .watched true
  | .unwatched => .watched false
  | .removeFromDeck => .leftDeck

end Write

structure ClientKey where
  instance_ : UInt32
  token : UInt32
  grant : UInt32
  deriving DecidableEq

/-- The client each server slot held when a step was made. -/
structure ClientKeys where
  slots : List (ServerId × ClientKey)
  deriving DecidableEq

def ClientKeys.key (keys : ClientKeys) (sid : ServerId) : Option ClientKey :=
  (keys.slots.find? (fun slot => slot.1 = sid)).map Prod.snd

structure Req where
  id : Nat
  seq : Nat
  sid : ServerId
  key : ClientKey
  profile : UInt32
  rk : String
  w : Write
  scope : Scope
  guid : String
  originDone : Bool
  deriving DecidableEq

namespace Req

def place (r : Req) : ViewAt := ⟨r.sid, r.rk, r.scope⟩

/-- The item and the toggle a write is about. -/
def about (sid : ServerId) (rk : String) (w : Write) (r : Req) : Bool :=
  sameItem (r.sid, r.rk) (sid, rk) && decide (r.w.family = w.family)

end Req

/-- What the worker answers: whether the origin took the write, and the other copies
that were taken. -/
structure Done where
  ok : Bool
  also : List (ServerId × String)
  deriving DecidableEq

inductive Outcome where
  | written (done : Done)
  | notStarted

structure Completion where
  id : Nat
  outcome : Outcome

/-- A write on its way to the runner, under its request id. -/
structure ViewWriteReq where
  id : Nat
  sid : ServerId
  key : ClientKey
  rk : String
  w : Write
  guid : String
  originDone : Bool
  keys : ClientKeys

def Req.job (r : Req) (keys : ClientKeys) : ViewWriteReq :=
  ⟨r.id, r.sid, r.key, r.rk, r.w, r.guid, r.originDone, keys⟩

/-- What happened to a write, where the source does it. A `queued` one says which queued
writes it replaced. -/
inductive Note where
  | queued (req : Req) (replaced : List Req)
  | dropped (req : Req)
  | handed (req : Req) (keys : ClientKeys)
  | refused (req : Req)
  | written (req : Req) (done : Done)
  | copied (req : Req) (seq : Nat) (place : ViewAt)
  | reset (sent : Option Req) (queue : List Req)
  deriving DecidableEq

structure ViewStateState where
  ledger : Table
  queue : List Req
  sent : Option Req
  retryCd : Nat
  wantHubs : Bool
  wantReread : List (ServerId × String)
  nextRequestId : Nat
  jobs : List ViewWriteReq
  holdRefresh : Bool

def retryFrames : Nat := 120

namespace ViewStateState

def default : ViewStateState := ⟨Table.new, [], none, 0, false, [], 1, [], false⟩

def isBusy (s : ViewStateState) : Bool := !s.queue.isEmpty || s.sent.isSome

def mintRequestId (s : ViewStateState) : ViewStateState × Nat :=
  ({ s with nextRequestId := s.nextRequestId + 1 }, s.nextRequestId)

def coalesce (s : ViewStateState) (sid : ServerId) (rk : String) (w : Write) : ViewStateState :=
  { s with queue := s.queue.filter (fun r => !r.about sid rk w) }

/-- May a write still go out? The profile and the client it was made with must stand. -/
def admits (keys : ClientKeys) (profile : UInt32) (r : Req) : Bool :=
  if r.profile ≠ profile then false
  else match keys.key r.sid with
    | none => false
    | some key => decide (key = r.key)

def dropQueued (s : ViewStateState) (r : Req) : ViewStateState × List Note :=
  ({ s with ledger := s.ledger.retire r.seq }, [.dropped r])

/-- The loop of a kick: the first queued write that may go out is sent. -/
def sendNext (s : ViewStateState) (keys : ClientKeys) (profile : UInt32) :
    List Req → ViewStateState × List Note
  | [] => ({ s with queue := [] }, [])
  | r :: rest =>
    if admits keys profile r then
      ({ s with queue := rest, sent := some r, jobs := s.jobs ++ [r.job keys] }, [.handed r keys])
    else
      let (s, dropped) := s.dropQueued r
      let (s, later) := sendNext s keys profile rest
      (s, dropped ++ later)

def kick (s : ViewStateState) (keys : ClientKeys) (profile : UInt32) : ViewStateState × List Note :=
  if s.sent.isSome ∨ 0 < s.retryCd then (s, []) else s.sendNext keys profile s.queue

def request (s : ViewStateState) (sid : ServerId) (rk : String) (w : Write) (scope : Scope) (guid : String)
    (keys : ClientKeys) (profile : UInt32) : ViewStateState × List Note :=
  match keys.key sid with
  | none => (s, [])
  | some key =>
    let (ledger, seq) := s.ledger.record ⟨sid, rk, scope⟩ w.edit
    let replaced := s.queue.filter (Req.about sid rk w)
    let (s, id) := ({ s with ledger }.coalesce sid rk w).mintRequestId
    let req : Req := ⟨id, seq, sid, key, profile, rk, w, scope, guid, false⟩
    let (s, sent) := { s with queue := s.queue ++ [req] }.kick keys profile
    (s, .queued req replaced :: sent)

/-- `several` says that the registry holds a second server. -/
def fanOutOriginWatched (s : ViewStateState) (sid : ServerId) (rk : String) (several : Bool)
    (keys : ClientKeys) (profile : UInt32) : ViewStateState × List Note :=
  match keys.key sid with
  | none => (s, [])
  | some key =>
    if !several || (s.queue ++ s.sent.toList).any (fun r => sameItem (r.sid, r.rk) (sid, rk)) then (s, [])
    else
      let (s, id) := s.mintRequestId
      let req : Req := ⟨id, 0, sid, key, profile, rk, .watched, .leaf, "", true⟩
      let (s, sent) := { s with queue := s.queue ++ [req] }.kick keys profile
      (s, .queued req [] :: sent)

def retryTick (s : ViewStateState) : ViewStateState × Bool :=
  ({ s with retryCd := s.retryCd - 1 }, decide (s.retryCd ≤ 1))

def restartRefused (s : ViewStateState) (r : Req) (keys : ClientKeys) (profile : UInt32) :
    ViewStateState × List Note :=
  if admits keys profile r then
    ({ s with queue := r :: s.queue, retryCd := retryFrames }, [.refused r])
  else
    let (s, dropped) := s.dropQueued r
    (s, .refused r :: dropped)

/-- How far the other copies of a title carry the scope of a press. -/
def copyScope : Scope → Scope
  | .show_ => .show_
  | .leaf => .leaf
  | .season _ _ | .unknown => .unknown

/-- The other copies a write reached, recorded one after another. -/
def recordCopies (r : Req) (ledger : Table) : List (ServerId × String) → Table × List Note
  | [] => (ledger, [])
  | (sid, rk) :: rest =>
    let place : ViewAt := ⟨sid, rk, copyScope r.scope⟩
    let (ledger, seq) := ledger.record place r.w.edit
    let (ledger, later) := recordCopies r ledger rest
    (ledger, .copied r seq place :: later)

def pushMissing (owed : List (ServerId × String)) (key : ServerId × String) : List (ServerId × String) :=
  if key ∈ owed then owed else owed ++ [key]

def landWritten (s : ViewStateState) (r : Req) (done : Done) : ViewStateState × List Note :=
  let ledger := if done.ok then s.ledger.landed r.seq else s.ledger.retire r.seq
  let (ledger, copies) := recordCopies r ledger done.also
  let wantHubs := s.wantHubs || !(r.originDone && done.also.isEmpty)
  let origin := if r.originDone then [] else [(r.sid, r.rk)]
  let wantReread :=
    if r.w.propagates then (origin ++ done.also).foldl pushMissing s.wantReread else s.wantReread
  ({ s with ledger, wantHubs, wantReread }, .written r done :: copies)

/-- The completion a pass takes from the mailbox, if it answers the write in flight. -/
def takeLanding (s : ViewStateState) (mail : Option Completion) : Option (Req × Outcome) :=
  match s.sent, mail with
  | some r, some completion => if r.id = completion.id then some (r, completion.outcome) else none
  | _, _ => none

def land (s : ViewStateState) (mail : Option Completion) (keys : ClientKeys) (profile : UInt32) :
    ViewStateState × List Note :=
  match s.takeLanding mail with
  | none => (s, [])
  | some (r, .notStarted) => { s with sent := none }.restartRefused r keys profile
  | some (r, .written done) => { s with sent := none }.landWritten r done

/-- The end of a pass: an idle owner that may refresh pays the hubs it owes. -/
def settleRefresh (s : ViewStateState) : ViewStateState :=
  if s.isBusy || s.holdRefresh then s else { s with wantHubs := false }

def pump (s : ViewStateState) (mail : Option Completion) (keys : ClientKeys) (profile : UInt32) :
    ViewStateState × List Note :=
  let (s, due) := s.retryTick
  let (s, landed) := s.land mail keys profile
  let (s, sent) := if due then s.kick keys profile else (s, [])
  (s.settleRefresh, landed ++ sent)

def takeJobs (s : ViewStateState) : ViewStateState × List ViewWriteReq := ({ s with jobs := [] }, s.jobs)

def reset (s : ViewStateState) : ViewStateState × List Note :=
  ({ s with queue := [], sent := none, retryCd := 0, wantHubs := false, wantReread := [],
            ledger := s.ledger.reset }, [.reset s.sent s.queue])

end ViewStateState

namespace Writes

inductive Op where
  | request (sid : ServerId) (rk : String) (w : Write) (scope : Scope) (guid : String)
      (keys : ClientKeys) (profile : UInt32)
  | fanOutOriginWatched (sid : ServerId) (rk : String) (several : Bool) (keys : ClientKeys) (profile : UInt32)
  | pump (mail : Option Completion) (keys : ClientKeys) (profile : UInt32)
  | takeJobs
  | reset

structure Answer where
  notes : List Note
  jobs : List ViewWriteReq

def step (s : ViewStateState) : Op → ViewStateState × Answer
  | .request sid rk w scope guid keys profile =>
    let (s, notes) := s.request sid rk w scope guid keys profile
    (s, ⟨notes, []⟩)
  | .fanOutOriginWatched sid rk several keys profile =>
    let (s, notes) := s.fanOutOriginWatched sid rk several keys profile
    (s, ⟨notes, []⟩)
  | .pump mail keys profile =>
    let (s, notes) := s.pump mail keys profile
    (s, ⟨notes, []⟩)
  | .takeJobs =>
    let (s, jobs) := s.takeJobs
    (s, ⟨[], jobs⟩)
  | .reset =>
    let (s, notes) := s.reset
    (s, ⟨notes, []⟩)

end Writes
end PlxNative.ViewState
