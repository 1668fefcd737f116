import PlxNative.Lib.Chain
import PlxNative.Lib.Transducer

/-! The access-unit queue between the demuxer and the feed: one producer, one consumer and a
byte cap. Each section that a thread runs under the mutex is one step, and a push that lets the
mutex go in its wait loop is several. Byte counts are far from the ends of a long: they are what
live allocations hold, under caps of a few megabytes. -/
namespace PlxNative.Feed
open Chain

structure Au where
  data : List UInt8
  len : Int
  pts : Int
  key : Int
  es : Int
deriving DecidableEq

structure AuQueue where
  head : Option Nat
  tail : Option Nat
  queuedBytes : Int
  maxBytes : Int
  baseBytes : Int
  releasing : Bool
  pops : Nat
  eof : Bool
  abort : Bool

structure PushGate where
  starvedBelowNs : Int
  headroom : Int
  failAtCeiling : Bool
deriving DecidableEq

/-- A push on its way: its node, and what it does when the queue is full. -/
structure Push where
  node : Nat
  au : Au
  drain : Bool
  gate : Option PushGate

/-- Where a push stands while it does not hold the mutex. -/
inductive Outside
  | entering
  | draining
  | waiting (timed : Bool)

/-- The queue with the memory its nodes live in, the push in progress and the nodes that the
consumer has popped and not freed. -/
structure Lane where
  memory : Heap Nat Au
  queue : AuQueue
  producer : Option (Push × Outside)
  popped : List Nat

inductive Wake
  | none
  | signal
  | broadcast

inductive Answer
  | none
  | pushed (code : Int) (au : Au)
  | popped (au : Option Au) (eofOut : Bool)
  | ran (did : Bool)

/-- What a step answers, and whom it wakes. -/
structure Outcome where
  answer : Answer := .none
  notFull : Wake := .none
  notEmpty : Wake := .none

def pushCeiling : Int := -2

namespace AuQueue

def new (cap : Int) : AuQueue :=
  { head := none, tail := none, queuedBytes := 0, maxBytes := cap, baseBytes := cap, releasing := false, pops := 0,
    eof := false, abort := false }

/-- `aq_would_park`, the predicate a push waits on. -/
def wouldPark (q : AuQueue) : Bool := q.maxBytes < q.queuedBytes && !q.abort

/-- The cap follows the occupancy down, never under the base. -/
def settleReleasedCap (q : AuQueue) : AuQueue :=
  let maxBytes := max (min q.maxBytes q.queuedBytes) q.baseBytes
  { q with maxBytes, releasing := q.releasing && !(maxBytes ≤ q.baseBytes) }

def setHeadroom (q : AuQueue) (extra : Int) : AuQueue :=
  { q with maxBytes := q.baseBytes + max extra 0, releasing := false }

def releaseHeadroom (q : AuQueue) : AuQueue := { q with releasing := true }.settleReleasedCap

def unlinked (q : AuQueue) (node : Node Nat Au) : AuQueue :=
  { q with
    head := node.next
    tail := if node.next.isNone then none else q.tail
    queuedBytes := q.queuedBytes - node.value.len
    pops := q.pops + 1 }

end AuQueue

/-- How full a lane may be for a gate to admit over the soft cap. -/
def PushGate.ceiling (g : PushGate) (q : AuQueue) : Int := q.baseBytes + max g.headroom 0

namespace Lane

def new (cap : Int) : Lane := { memory := fun _ => none, queue := .new cap, producer := none, popped := [] }

/-- A push that ends without its node in the queue. -/
def giveUp (s : Lane) (p : Push) (code : Int) : Lane × Outcome :=
  ({ s with memory := Function.update s.memory p.node none, producer := none }, { answer := .pushed code p.au })

def append (s : Lane) (p : Push) : Lane × Outcome :=
  let linked : Lane := match s.queue.tail with
    | some tail => { s with memory := link s.memory tail p.node }
    | none => { s with queue := { s.queue with head := some p.node } }
  ({ linked with
      queue := { linked.queue with tail := some p.node, queuedBytes := linked.queue.queuedBytes + p.au.len }
      producer := none },
    { answer := .pushed 0 p.au, notEmpty := .signal })

/-- The head of the wait loop, under the mutex. -/
def waitLoop (s : Lane) (p : Push) (admitted : Bool) : Lane × Outcome :=
  if !admitted && s.queue.wouldPark then
    if p.gate.isSome || p.drain then ({ s with producer := some (p, .draining) }, {})
    else ({ s with producer := some (p, .waiting false) }, {})
  else if s.queue.abort then s.giveUp p (-1)
  else s.append p

/-- The mutex taken again behind a drain; `span` is what the other lane was seen to hold. -/
def drained (s : Lane) (p : Push) (span : Int) (keepPolling : Bool) : Lane × Outcome :=
  match p.gate with
  | some g =>
    if s.queue.wouldPark then
      if span < g.starvedBelowNs ∧ s.queue.queuedBytes ≤ g.ceiling s.queue then s.waitLoop p true
      else if span < g.starvedBelowNs ∧ g.failAtCeiling then s.giveUp p pushCeiling
      else ({ s with producer := some (p, .waiting true) }, {})
    else s.waitLoop p false
  | none =>
    if s.queue.wouldPark then ({ s with producer := some (p, .waiting keepPolling) }, {})
    else s.waitLoop p false

/-- `aq_push_park` up to its first lock. One push is made at a time. -/
def push (s : Lane) (au : Au) (drain : Bool) (gate : Option PushGate) (node : Option Nat) : Lane × Outcome :=
  if s.producer.isSome then (s, {})
  else if au.len < 0 then (s, { answer := .pushed (-1) au })
  else match node with
    | none => (s, { answer := .pushed (-1) au })
    | some node =>
      -- An allocator hands out no memory that is still held.
      if (s.memory node).isSome then (s, {})
      else
        ({ s with
            memory := Function.update s.memory node (some ⟨none, au⟩)
            producer := some (⟨node, au, drain, gate⟩, .entering) }, {})

def proceed (s : Lane) (span : Int) (keepPolling : Bool) : Lane × Outcome :=
  match s.producer with
  | none => (s, {})
  | some (p, .draining) => s.drained p span keepPolling
  | some (p, .entering) => s.waitLoop p false
  | some (p, .waiting _) => s.waitLoop p false

def pop (s : Lane) : Lane × Outcome :=
  match s.queue.head with
  | none => (s, { answer := .popped none s.queue.eof })
  | some n => match s.memory n with
    | none => (s, {})
    | some node =>
      let q := s.queue.unlinked node
      let q := if q.releasing then q.settleReleasedCap else q
      ({ s with queue := q, popped := n :: s.popped },
        { answer := .popped (some node.value) (q.head.isNone && q.eof), notFull := .signal })

def setHeadroom (s : Lane) (extra : Int) : Lane × Outcome :=
  let q := s.queue.setHeadroom extra
  ({ s with queue := q }, { notFull := if s.queue.maxBytes < q.maxBytes then .broadcast else .none })

def free (s : Lane) (node : Nat) : Lane × Outcome :=
  if node ∈ s.popped then
    ({ s with memory := Function.update s.memory node none, popped := s.popped.erase node }, {})
  else (s, {})

end Lane

/-- One section under the mutex, or what a thread does of its own between two. -/
inductive Act
  | push (au : Au) (drain : Bool) (gate : Option PushGate) (node : Option Nat)
  | proceed (span : Int) (keepPolling : Bool)
  | pop
  | free (node : Nat)
  | setEof
  | abort
  | ifNotAborted
  | setHeadroom (extra : Int)
  | releaseHeadroom
deriving DecidableEq

def Lane.step (s : Lane) : Act → Lane × Outcome
  | .push au drain gate node => s.push au drain gate node
  | .proceed span keepPolling => s.proceed span keepPolling
  | .pop => s.pop
  | .free node => s.free node
  | .setEof => ({ s with queue := { s.queue with eof := true } }, { notEmpty := .signal })
  | .abort => ({ s with queue := { s.queue with abort := true } }, { notFull := .broadcast, notEmpty := .broadcast })
  | .ifNotAborted => (s, { answer := .ran (!s.queue.abort) })
  | .setHeadroom extra => s.setHeadroom extra
  | .releaseHeadroom => ({ s with queue := s.queue.releaseHeadroom }, {})

end PlxNative.Feed
