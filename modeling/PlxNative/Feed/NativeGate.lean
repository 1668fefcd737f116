import Mathlib.Algebra.Ring.Nat
import PlxNative.Lib.Transducer

/-! The gate between the native player and the feed: which session's callbacks run, and what is
known of a session that was handed to a release. Each operation holds the one mutex throughout,
the closure it runs included, so it is one step. -/
namespace PlxNative.Feed

/-- Whether the session's `Load` has returned: when it did, and the audio lead it resolved. -/
inductive LoadCall where
  | inFlight
  | returned (at_ : Nat) (pcmLeadNs : Option Int)
deriving DecidableEq

/-- `pendingArm` keeps the newest position that came while a feed was outstanding. -/
inductive NativePresentationGate where
  | armed
  | disarmed
  | pendingArm (latched : Option Int)
deriving DecidableEq

structure NativeSession where
  epoch : Nat
  presentationGate : NativePresentationGate
  loadCall : LoadCall
  loadIssuedAt : Nat
deriving DecidableEq

inductive NativeSessionPhase where
  | idle
  | active (session : NativeSession)
  | unloaded (epoch : Nat)
  | abandoned (epoch : Nat)
  | releasing (epoch : Nat) (unloadCompleted : Bool)
deriving DecidableEq

inductive NativeEventClass where
  | presentation
  | unloadCompleted
  | other
deriving DecidableEq

inductive EventScope where
  | live
  | release

structure NativeGate where
  nextEpoch : Nat
  phase : NativeSessionPhase

namespace NativeGate

def new : NativeGate := ⟨0, .idle⟩

/-- The session that an epoch names, while it is the active one. -/
def owned (g : NativeGate) (epoch : Nat) : Option NativeSession :=
  match g.phase with
  | .active session => if epoch ≠ 0 ∧ session.epoch = epoch then some session else none
  | _ => none

def withSession (g : NativeGate) (session : NativeSession) : NativeGate := { g with phase := .active session }

/-- Abandoned and releasing objects outlive a reset. -/
def resetSession (g : NativeGate) : NativeGate :=
  match g.phase with
  | .abandoned _ | .releasing _ _ => g
  | _ => { g with phase := .idle }

/-- The next epoch of 32 bits, where there is one. -/
def next (g : NativeGate) : Option Nat := if g.nextEpoch + 1 < 2 ^ 32 then some (g.nextEpoch + 1) else none

def beginNativeSession (g : NativeGate) (now : Nat) : NativeGate × Option Nat :=
  if g.phase ≠ .idle then (g, none)
  else match g.next with
    | none => (g, none)
    | some epoch => (⟨epoch, .active ⟨epoch, .armed, .inFlight, now⟩⟩, some epoch)

def markNativeLoadReturned (g : NativeGate) (epoch now : Nat) (pcmLeadNs : Option Int) : NativeGate × Option Nat :=
  match g.owned epoch with
  | some session => (g.withSession { session with loadCall := .returned now pcmLeadNs }, some (now - session.loadIssuedAt))
  | none => (g, none)

def nativeLoadReturned (g : NativeGate) (epoch : Nat) : Bool :=
  match (g.owned epoch).map NativeSession.loadCall with
  | some (.returned _ _) => true
  | _ => false

def nativeLoadPcmLead (g : NativeGate) (epoch : Nat) : Option Int :=
  match (g.owned epoch).map NativeSession.loadCall with
  | some (.returned _ lead) => lead
  | _ => none

def nativeLoadReturnedElapsed (g : NativeGate) (epoch now : Nat) : Option Nat :=
  match (g.owned epoch).map NativeSession.loadCall with
  | some (.returned at_ _) => some (now - at_)
  | _ => none

def nativeLoadElapsed (g : NativeGate) (epoch now : Nat) : Option Nat :=
  (g.owned epoch).map (fun session => now - session.loadIssuedAt)

def owner : NativeSessionPhase → Option Nat
  | .idle => none
  | .active session => some session.epoch
  | .unloaded epoch | .abandoned epoch | .releasing epoch _ => some epoch

def retireNativeSession (g : NativeGate) (epoch : Nat) : NativeGate × Bool :=
  if epoch ≠ 0 ∧ owner g.phase = some epoch then ({ g with phase := .idle }, true) else (g, false)

def leaveActive (g : NativeGate) (epoch : Nat) (next : NativeSessionPhase) : NativeGate × Bool :=
  if (g.owned epoch).isSome then ({ g with phase := next }, true) else (g, false)

def beginNativeRelease (g : NativeGate) (epoch : Nat) : NativeGate × Bool := g.leaveActive epoch (.releasing epoch false)

def abandonNativeSession (g : NativeGate) (epoch : Nat) : NativeGate × Bool := g.leaveActive epoch (.abandoned epoch)

def nativeReleasing (g : NativeGate) : Bool :=
  match g.phase with
  | .releasing _ _ => true
  | _ => false

def nativeLoadAbandoned (g : NativeGate) : Bool :=
  match g.phase with
  | .abandoned _ => true
  | _ => false

def nativeUnloadCompleted (g : NativeGate) (epoch : Nat) : Bool :=
  match g.phase with
  | .unloaded e | .releasing e true => e == epoch
  | _ => false

def setGate (g : NativeGate) (epoch : Nat) (gate : NativePresentationGate) : NativeGate × Bool :=
  match g.owned epoch with
  | some session => (g.withSession { session with presentationGate := gate }, true)
  | none => (g, false)

def beginNativeMediaDiscontinuity (g : NativeGate) (epoch : Nat) : NativeGate × Bool := g.setGate epoch .disarmed

def armNativePresentations (g : NativeGate) (epoch : Nat) : NativeGate × Bool := g.setGate epoch .armed

def beginNativePresentationProbe (g : NativeGate) (epoch : Nat) : NativeGate × Bool := g.setGate epoch (.pendingArm none)

/-- Whether the feed was outstanding, and the position that is replayed. -/
def commitNativePresentationProbe (g : NativeGate) (epoch : Nat) : NativeGate × Bool × Option Int :=
  match g.owned epoch with
  | some session => match session.presentationGate with
    | .pendingArm latched => (g.withSession { session with presentationGate := .armed }, true, latched)
    | _ => (g, false, none)
  | none => (g, false, none)

def rejectNativePresentationProbe (g : NativeGate) (epoch : Nat) : NativeGate × Bool :=
  match g.owned epoch with
  | some session => match session.presentationGate with
    | .pendingArm _ => (g.withSession { session with presentationGate := .disarmed }, true)
    | _ => (g, false)
  | none => (g, false)

def liveEvent (g : NativeGate) (session : NativeSession) (cls : NativeEventClass) (num : Int) : NativeGate × Option EventScope :=
  match cls, session.presentationGate with
  | .presentation, .armed => (g, some .live)
  | .presentation, .disarmed => (g, none)
  | .presentation, .pendingArm _ => (g.withSession { session with presentationGate := .pendingArm (some num) }, none)
  | .unloadCompleted, _ => ({ g with phase := .unloaded session.epoch }, some .live)
  | .other, _ => (g, some .live)

/-- The scope that the event closure of a callback is run with, if it is run. -/
def withNativeSessionScoped (g : NativeGate) (epoch : Nat) (cls : NativeEventClass) (num : Int) :
    NativeGate × Option EventScope :=
  match g.phase with
  | .abandoned held =>
    if epoch = 0 ∨ held ≠ epoch ∨ cls ≠ .unloadCompleted then (g, none)
    else ({ g with phase := .unloaded epoch }, some .release)
  | .releasing held _ =>
    if epoch = 0 ∨ held ≠ epoch ∨ cls ≠ .unloadCompleted then (g, none)
    else ({ g with phase := .releasing held true }, some .release)
  | .active session => if epoch = 0 ∨ session.epoch ≠ epoch then (g, none) else g.liveEvent session cls num
  | .idle | .unloaded _ => (g, none)

end NativeGate

inductive NativeOp where
  | resetSession
  | begin_ (now : Nat)
  | markLoadReturned (epoch now : Nat) (pcmLeadNs : Option Int)
  | withActiveEpoch (epoch : Nat)
  | loadReturned (epoch : Nat)
  | loadPcmLead (epoch : Nat)
  | loadReturnedElapsed (epoch now : Nat)
  | loadElapsed (epoch now : Nat)
  | retire (epoch : Nat)
  | beginRelease (epoch : Nat)
  | abandon (epoch : Nat)
  | releasing
  | loadAbandoned
  | unloadCompleted (epoch : Nat)
  | beginDiscontinuity (epoch : Nat)
  | armPresentations (epoch : Nat)
  | beginProbe (epoch : Nat)
  | commitProbe (epoch : Nat)
  | rejectProbe (epoch : Nat)
  | event (epoch : Nat) (cls : NativeEventClass) (num : Int)

/-- What an operation comes to. `ran` is the scope a closure was run with, and `replayed` the
position that a commit ran one for. -/
inductive NativeAnswer where
  | unit
  | flag (yes : Bool)
  | epoch (begun : Option Nat)
  | elapsed (ns : Option Nat)
  | lead (ns : Option Int)
  | ran (scope : Option EventScope)
  | replayed (committed : Bool) (position : Option Int)

namespace NativeGate

def flagged (moved : NativeGate × Bool) : NativeGate × NativeAnswer := (moved.1, .flag moved.2)

def step (g : NativeGate) : NativeOp → NativeGate × NativeAnswer
  | .resetSession => (g.resetSession, .unit)
  | .begin_ now => ((g.beginNativeSession now).1, .epoch (g.beginNativeSession now).2)
  | .markLoadReturned epoch now lead =>
    ((g.markNativeLoadReturned epoch now lead).1, .elapsed (g.markNativeLoadReturned epoch now lead).2)
  | .withActiveEpoch epoch => (g, .flag (g.owned epoch).isSome)
  | .loadReturned epoch => (g, .flag (g.nativeLoadReturned epoch))
  | .loadPcmLead epoch => (g, .lead (g.nativeLoadPcmLead epoch))
  | .loadReturnedElapsed epoch now => (g, .elapsed (g.nativeLoadReturnedElapsed epoch now))
  | .loadElapsed epoch now => (g, .elapsed (g.nativeLoadElapsed epoch now))
  | .retire epoch => flagged (g.retireNativeSession epoch)
  | .beginRelease epoch => flagged (g.beginNativeRelease epoch)
  | .abandon epoch => flagged (g.abandonNativeSession epoch)
  | .releasing => (g, .flag g.nativeReleasing)
  | .loadAbandoned => (g, .flag g.nativeLoadAbandoned)
  | .unloadCompleted epoch => (g, .flag (g.nativeUnloadCompleted epoch))
  | .beginDiscontinuity epoch => flagged (g.beginNativeMediaDiscontinuity epoch)
  | .armPresentations epoch => flagged (g.armNativePresentations epoch)
  | .beginProbe epoch => flagged (g.beginNativePresentationProbe epoch)
  | .commitProbe epoch =>
    ((g.commitNativePresentationProbe epoch).1,
      .replayed (g.commitNativePresentationProbe epoch).2.1 (g.commitNativePresentationProbe epoch).2.2)
  | .rejectProbe epoch => flagged (g.rejectNativePresentationProbe epoch)
  | .event epoch cls num =>
    ((g.withNativeSessionScoped epoch cls num).1, .ran (g.withNativeSessionScoped epoch cls num).2)

end NativeGate
end PlxNative.Feed
