import PlxNative.Lib.KeyOrder
import PlxNative.Lib.Maps
import PlxNative.Lib.Transducer

/-! The bounded mailbox of addressed results. Every public call takes the mutex
once for its whole body, so a call is one transition of `Inner` and an
interleaving of threads is a list of calls. -/
namespace PlxNative.Machine

structure RequestId where
  val : UInt32
  deriving DecidableEq

structure InstanceId where
  val : UInt32
  deriving DecidableEq

structure StoreOrd where
  val : UInt32
  deriving DecidableEq

inductive MachineId where
  | session
  | consent
  | input
  | present
  | nav
  | player
  | store (ord : StoreOrd)
  | inst (id : InstanceId)
  | cache
  | huds
  deriving DecidableEq

structure Addr where
  target : MachineId
  req : RequestId
  deriving DecidableEq

inductive AdmissionError where
  | duplicate
  | capacity

inductive PublishError where
  | full
  | unknown
  | alreadyTerminal
  | notStream
  | cancelled
  deriving DecidableEq

inductive Reservation where
  | running (cancelled stream : Bool)
  | terminal (cancelled : Bool)
  deriving DecidableEq

inductive Lane (K V : Type*) where
  | data (key : K) (value : V)
  | dropped (req : RequestId)
  | refused (req : RequestId)
  deriving DecidableEq

/-- A queued record; `terminal` is false only for stream progress. -/
structure Landed (K V : Type*) where
  seq : Nat
  addr : Addr
  lane : Lane K V
  terminal : Bool
  deriving DecidableEq

/-- The exact address as the reservation map keys it. -/
abbrev Key := MachineId × UInt32

def Addr.key (addr : Addr) : Key := (addr.target, addr.req.val)

/-- Both maps are keyed tables whose iteration order no caller observes here. -/
structure Inner (K V : Type*) where
  data : List (Landed K V)
  control : List (Landed K V)
  seq : Nat
  dropped : UInt32
  inflight : AList (fun _ : Key => Reservation)
  droppedFor : AList (fun _ : MachineId => UInt32)

structure Landing (K V : Type*) where
  inner : Inner K V
  cap : Nat
  inflightCap : UInt32
  totalCap : UInt32

variable {K V : Type*}

def Lane.isData : Lane K V → Bool
  | .data _ _ => true
  | .dropped _ | .refused _ => false

def Lane.wanted (want : K → Bool) : Lane K V → Bool
  | .data k _ => want k
  | .dropped _ | .refused _ => true

def Reservation.isCancelled : Reservation → Bool
  | .running cancelled _ => cancelled
  | .terminal cancelled => cancelled

namespace Inner

def countDrop (g : Inner K V) (target : MachineId) : Inner K V :=
  { g with
    dropped := g.dropped + 1
    droppedFor := g.droppedFor.insert target ((g.droppedFor.lookup target).getD 0 + 1) }

def inflightOf (g : Inner K V) (target : MachineId) : Nat :=
  (g.inflight.keys.filter (fun key => key.1 = target)).length

def completeLocked (cap : Nat) (g : Inner K V) (addr : Addr) (lane : Lane K V) :
    Inner K V × Except PublishError Unit :=
  match g.inflight.lookup addr.key with
  | none => (g, .error .unknown)
  | some (.terminal _) => (g, .error .alreadyTerminal)
  | some (.running cancelled stream) =>
    let full := !cancelled && !stream && lane.isData && decide (cap ≤ g.data.length)
    let g := if full then g.countDrop addr.target else g
    -- a cancelled completion keeps its slot and its place in the sequence, not its payload
    let lane := if full || cancelled then .dropped addr.req else lane
    let record : Landed K V := ⟨g.seq + 1, addr, lane, true⟩
    let g := { g with inflight := g.inflight.insert addr.key (.terminal cancelled), seq := g.seq + 1 }
    let g := if !stream && lane.isData then { g with data := g.data ++ [record] }
      else { g with control := g.control ++ [record] }
    (g, if full then .error .full else .ok ())

def progress (cap : Nat) (g : Inner K V) (addr : Addr) (key : K) (value : V) :
    Inner K V × Except PublishError Unit :=
  match g.inflight.lookup addr.key with
  | none => (g, .error .unknown)
  | some (.terminal _) => (g, .error .alreadyTerminal)
  | some (.running _ false) => (g, .error .notStream)
  | some (.running true true) => (g, .error .cancelled)
  | some (.running false true) =>
    if cap ≤ g.data.length then
      match completeLocked cap (g.countDrop addr.target) addr (.dropped addr.req) with
      | (g, .error e) => (g, .error e)
      | (g, .ok _) => (g, .error .full)
    else
      ({ g with
          seq := g.seq + 1
          data := g.data ++ [⟨g.seq + 1, addr, .data key value, false⟩] }, .ok ())

def cancelLocked (g : Inner K V) (addr : Addr) : Inner K V × Bool :=
  match g.inflight.lookup addr.key with
  | none => (g, false)
  | some state =>
    let discarded := g.data.countP (fun rec => rec.addr = addr) +
      g.control.countP (fun rec => rec.addr = addr)
    let g := { g with
      data := g.data.filter (fun rec => rec.addr ≠ addr)
      control := g.control.filter (fun rec => rec.addr ≠ addr) }
    let g := (fun g => countDrop g addr.target)^[discarded] g
    match state with
    | .terminal _ => ({ g with inflight := g.inflight.erase addr.key }, true)
    | .running _ stream =>
      ({ g with inflight := g.inflight.insert addr.key (.running true stream) }, true)

def clear (g : Inner K V) : Inner K V :=
  (g.inflight.keys.map (fun key => (⟨key.1, ⟨key.2⟩⟩ : Addr))).foldl
    (fun g addr => (cancelLocked g addr).1) g

/-- One turn of the drain loop: the record leaves, or is counted as dropped. -/
def takeRecord (isDeliverable : Addr → Bool) (want : K → Bool) (g : Inner K V)
    (rec : Landed K V) : Inner K V × Option (Landed K V) :=
  let cancelled := ((g.inflight.lookup rec.addr.key).map Reservation.isCancelled).getD false
  let g := if rec.terminal then { g with inflight := g.inflight.erase rec.addr.key } else g
  if cancelled || !isDeliverable rec.addr then (g.countDrop rec.addr.target, none)
  else if rec.lane.wanted want then (g, some rec)
  else (g.countDrop rec.addr.target, none)

def drain (isDeliverable : Addr → Bool) (want : K → Bool) :
    List (Landed K V) → Inner K V → Inner K V × List (Landed K V)
  | [], g => (g, [])
  | rec :: rest, g =>
    let (g, taken) := takeRecord isDeliverable want g rec
    let (g, out) := drain isDeliverable want rest g
    (g, taken.toList ++ out)

/-- Both lanes in the order of arrival; the sort by sequence is stable. -/
def merged (g : Inner K V) : List (Landed K V) :=
  KeyOrder.sortByKey Landed.seq (g.data ++ g.control)

def takeFor (isDeliverable : Addr → Bool) (want : K → Bool) (g : Inner K V) :
    Inner K V × List (Landed K V) :=
  drain isDeliverable want g.merged { g with data := [], control := [] }

end Inner

namespace Landing

def withLimits (cap : Nat) (inflightCap totalCap : UInt32) : Landing K V :=
  ⟨⟨[], [], 0, 0, ∅, ∅⟩, cap, inflightCap, totalCap⟩

def withInflight (cap : Nat) (inflightCap : UInt32) : Landing K V :=
  withLimits cap inflightCap inflightCap

def inflightCapDefault : UInt32 := 4

def new (cap : Nat) : Landing K V := withInflight cap inflightCapDefault

def admitMode (l : Landing K V) (addr : Addr) (stream : Bool) :
    Landing K V × Except AdmissionError Unit :=
  if addr.key ∈ l.inner.inflight then (l, .error .duplicate)
  else if l.totalCap.toNat ≤ l.inner.inflight.keys.length ∨
      l.inflightCap.toNat ≤ l.inner.inflightOf addr.target then (l, .error .capacity)
  else ({ l with inner := { l.inner with
            inflight := l.inner.inflight.insert addr.key (.running false stream) } }, .ok ())

def admitOneShot (l : Landing K V) (addr : Addr) : Landing K V × Except AdmissionError Unit :=
  l.admitMode addr false

def admitStream (l : Landing K V) (addr : Addr) : Landing K V × Except AdmissionError Unit :=
  l.admitMode addr true

def complete (l : Landing K V) (addr : Addr) (lane : Lane K V) :
    Landing K V × Except PublishError Unit :=
  let (g, result) := l.inner.completeLocked l.cap addr lane
  ({ l with inner := g }, result)

def put (l : Landing K V) (addr : Addr) (key : K) (value : V) :
    Landing K V × Except PublishError Unit :=
  l.complete addr (.data key value)

def progress (l : Landing K V) (addr : Addr) (key : K) (value : V) :
    Landing K V × Except PublishError Unit :=
  let (g, result) := l.inner.progress l.cap addr key value
  ({ l with inner := g }, result)

def dropped (l : Landing K V) (addr : Addr) : Landing K V × Except PublishError Unit :=
  l.complete addr (.dropped addr.req)

def refused (l : Landing K V) (addr : Addr) : Landing K V × Except PublishError Unit :=
  l.complete addr (.refused addr.req)

/-- A guard may be built only for an operation that still runs; it holds the address. -/
def completionGuard (l : Landing K V) (addr : Addr) : Except PublishError Addr :=
  match l.inner.inflight.lookup addr.key with
  | none => .error .unknown
  | some (.terminal _) => .error .alreadyTerminal
  | some (.running _ _) => .ok addr

/-- Dropping a guard publishes `Dropped` and discards the answer. -/
def guardDrop (l : Landing K V) (addr : Addr) : Landing K V := (l.dropped addr).1

def cancel (l : Landing K V) (addr : Addr) : Landing K V × Bool :=
  let (g, found) := l.inner.cancelLocked addr
  ({ l with inner := g }, found)

def clear (l : Landing K V) : Landing K V := { l with inner := l.inner.clear }

def takeFor (l : Landing K V) (isDeliverable : Addr → Bool) (want : K → Bool) :
    Landing K V × List (Landed K V) :=
  let (g, out) := l.inner.takeFor isDeliverable want
  ({ l with inner := g }, out)

def inflight (l : Landing K V) (target : MachineId) : Nat := l.inner.inflightOf target

def droppedFor (l : Landing K V) (target : MachineId) : UInt32 := (l.inner.droppedFor.lookup target).getD 0

def droppedCount (l : Landing K V) : UInt32 := l.inner.dropped

def len (l : Landing K V) : Nat := l.inner.data.length + l.inner.control.length

def isEmpty (l : Landing K V) : Bool := l.len == 0

end Landing

/-- The calls of the workers and of the main thread. -/
inductive Call (K V : Type*) where
  | admitOneShot (addr : Addr)
  | admitStream (addr : Addr)
  | put (addr : Addr) (key : K) (value : V)
  | progress (addr : Addr) (key : K) (value : V)
  | dropped (addr : Addr)
  | refused (addr : Addr)
  | guardDrop (addr : Addr)
  | cancel (addr : Addr)
  | clear
  | takeFor (isDeliverable : Addr → Bool) (want : K → Bool)

inductive Answer (K V : Type*) where
  | admission (result : Except AdmissionError Unit)
  | published (result : Except PublishError Unit)
  | released
  | cancelled (found : Bool)
  | cleared
  | taken (out : List (Landed K V))

namespace Landing

/-- One call, made with the mutex held from its first line to its last. -/
def step (l : Landing K V) : Call K V → Landing K V × Answer K V
  | .admitOneShot addr => ((l.admitOneShot addr).1, .admission (l.admitOneShot addr).2)
  | .admitStream addr => ((l.admitStream addr).1, .admission (l.admitStream addr).2)
  | .put addr k v => ((l.put addr k v).1, .published (l.put addr k v).2)
  | .progress addr k v => ((l.progress addr k v).1, .published (l.progress addr k v).2)
  | .dropped addr => ((l.dropped addr).1, .published (l.dropped addr).2)
  | .refused addr => ((l.refused addr).1, .published (l.refused addr).2)
  | .guardDrop addr => (l.guardDrop addr, .released)
  | .cancel addr => ((l.cancel addr).1, .cancelled (l.cancel addr).2)
  | .clear => (l.clear, .cleared)
  | .takeFor isDeliverable want =>
    ((l.takeFor isDeliverable want).1, .taken (l.takeFor isDeliverable want).2)

end Landing

/-- The stream scenario of the source's own tests: overflow closes the stream once. -/
example :
    let a : Addr := ⟨.session, ⟨1⟩⟩
    let l : Landing Nat Nat := Transducer.run Landing.step (Landing.new 1)
      [.admitStream a, .progress a 0 10, .progress a 0 11]
    (l.put a 0 13).2 = .error .alreadyTerminal ∧
      (l.takeFor (fun _ => true) (fun _ => true)).2.map (fun rec => (rec.seq, rec.terminal)) =
        [(1, false), (2, true)] := by
  decide

end PlxNative.Machine
