import PlxNative.Lib.Words
import PlxNative.Lib.Transducer

/-! The clock of the native player under HLS: who holds it, and which Pause or Play is on its way.
Each operation holds the one mutex throughout and is one step, and the native call stands between
the step that prepares it and the one that completes it. -/
namespace PlxNative.Feed

/-- What has been acquired since a rebuffering hold began, in microseconds. -/
structure HlsRecoveryEpoch where
  active : Bool
  completed : Nat
  debtUs : Int
  runwayUs : Int
deriving DecidableEq

namespace HlsRecoveryEpoch

def idle : HlsRecoveryEpoch := ⟨false, 0, 0, 0⟩

def begin_ : HlsRecoveryEpoch := { idle with active := true }

def observe (r : HlsRecoveryEpoch) (acquisitionUs mediaUs : Nat) : HlsRecoveryEpoch :=
  if !r.active then r
  else
    let acquisition := min (acquisitionUs : Int) I64.largest
    let media := min (mediaUs : Int) I64.largest
    { r with
      runwayUs := max r.runwayUs (I64.saturated (r.debtUs + acquisition))
      debtUs := I64.saturated (I64.saturated (r.debtUs + acquisition) - media)
      completed := min (r.completed + 1) (2 ^ 64 - 1) }

end HlsRecoveryEpoch

inductive ClockHold where
  | initial
  | seek
  | rebuffer
  | user
  | resumePrime
deriving DecidableEq

inductive HlsPrimeKind where
  | fresh
  | rebuffer
  | resume
deriving DecidableEq

def ClockHold.primeKind : ClockHold → Option HlsPrimeKind
  | .initial | .seek => some .fresh
  | .rebuffer => some .rebuffer
  | .resumePrime => some .resume
  | .user => none

inductive HlsClockPhase where
  | running
  | pauseIssuing (token : Nat) (hold : ClockHold)
  | held (hold : ClockHold)
  | playIssuing (token : Nat) (hold : ClockHold) (resumeAcb : Bool)
  | stopping
deriving DecidableEq

inductive HlsAutomaticTransition where
  | qualityUp
  | qualityDown
  | original
deriving DecidableEq

inductive HlsAutomaticPhase where
  | working
  | commitAuthorized
deriving DecidableEq

structure HlsAutomaticOwner where
  token : Nat
  kind : HlsAutomaticTransition
  phase : HlsAutomaticPhase
  userSequence : Nat
deriving DecidableEq

inductive HlsClockFenceError where
  | stopping
  | overlap
  | exhausted
  | superseded

inductive HlsPauseCompletion where
  | accepted
  | refused
  | stale

inductive HlsPlayCompletion where
  | accepted (resumeAcb : Bool)
  | refused
  | stale

inductive HlsHoldPause where
  | issue (token : Nat)
  | alreadyHeld

inductive HlsUserResume where
  | issue (token : Nat)
  | deferred
  | prime

/-- The state under the mutex, and the atomics that its operations read and write. A trial
reserve below zero is none, and tokens and the viewer's sequence have not run out. -/
structure HlsClock where
  phase : HlsClockPhase
  nextToken : Nat
  recovery : HlsRecoveryEpoch
  userHeld : Bool
  userSequence : Nat
  resumeAcbPending : Bool
  automatic : Option HlsAutomaticOwner
  trialReserveMs : Int
  candidateGeneration : Nat
  rebuffering : Bool
  internalHoldEpoch : Nat
  rebufferRequested : Bool

inductive ClockOp where
  | armInitialClockHold (userHeld seekPreroll : Bool)
  | prepareRebufferPause
  | completeRebufferPause (token : Nat) (accepted : Bool)
  | prepareUserPause
  | completeUserPause (token : Nat) (accepted : Bool)
  | prepareSeekPause
  | handHoldToSeekPrime
  | completeSeekPause (token : Nat) (accepted : Bool)
  | prepareUserResume (queuedStream : Bool)
  | reservePrimePlay (kind : HlsPrimeKind) (candidate : Nat) (recovery : HlsRecoveryEpoch)
  | completePrimePlay (token : Nat) (accepted : Bool)
  | beginCandidate (automatic : Option Nat)
  | settleCandidate (generation : Nat)
  | armTrialAt (runwayMs : Int) (userSequence : Nat)
  | finishTrial (token : Nat)
  | beginAutomaticAt (kind : HlsAutomaticTransition) (userSequence : Nat)
  | authorizeCommit (token : Nat)
  | finishAutomatic (token : Nat)
  | observeRecovery (acquisitionUs mediaUs : Nat)
  | requestRebuffer (requested : Bool)
  | stop
  | reset

/-- What an operation answers. A candidate transition waits while a Play is on its way. -/
inductive ClockAnswer where
  | unit
  | waits
  | flag (yes : Bool)
  | rebufferPause (token : Option Nat)
  | holdPause (pause : Option HlsHoldPause)
  | userResume (resume : Option HlsUserResume)
  | reserved (play : Option (Nat × HlsRecoveryEpoch))
  | pauseCompleted (completion : HlsPauseCompletion)
  | playCompleted (completion : HlsPlayCompletion)
  | candidate (generation : Except HlsClockFenceError Nat)
  | lease (token : Option Nat)

namespace HlsClock

def lastGeneration : Nat := 2 ^ 64 - 1

def new : HlsClock := ⟨.running, 0, .idle, false, 0, false, none, -1, 0, false, 0, false⟩

def token (c : HlsClock) : HlsClock := { c with nextToken := c.nextToken + 1 }

def advanceUserSequence (c : HlsClock) : HlsClock := { c with userSequence := c.userSequence + 1 }

def untried (c : HlsClock) : Bool := c.trialReserveMs < 0

def stable (c : HlsClock) : Bool := c.candidateGeneration % 2 = 0

def armInitialClockHold (c : HlsClock) (userHeld seekPreroll : Bool) : HlsClock × ClockAnswer :=
  if c.phase ≠ .running || !c.untried || !c.stable then (c, .flag false)
  else
    ({ c with
      phase := .held .initial
      userHeld := userHeld && !seekPreroll
      resumeAcbPending := userHeld && seekPreroll }, .flag true)

def prepareRebufferPause (c : HlsClock) : HlsClock × ClockAnswer :=
  if c.phase ≠ .running || !c.untried then (c, .rebufferPause none)
  else
    ({ c.token with recovery := .begin_, phase := .pauseIssuing c.token.nextToken .rebuffer },
      .rebufferPause (some c.token.nextToken))

def completed (accepted : Bool) : ClockAnswer := .pauseCompleted (if accepted then .accepted else .refused)

def completeRebufferPause (c : HlsClock) (token : Nat) (accepted : Bool) : HlsClock × ClockAnswer :=
  if c.phase ≠ .pauseIssuing token .rebuffer then (c, .pauseCompleted .stale)
  else if accepted then
    ({ c with
      phase := .held .rebuffer
      rebuffering := true
      internalHoldEpoch := (c.internalHoldEpoch + 1) % 2 ^ 64 }, completed accepted)
  else ({ c with phase := .running, recovery := .idle }, completed accepted)

def prepareUserPause (c : HlsClock) : HlsClock × ClockAnswer :=
  if c.phase = .stopping then (c, .holdPause none)
  else if c.userHeld then (c, .holdPause (some .alreadyHeld))
  else match c.phase with
    | .held _ => ({ c with userHeld := true, resumeAcbPending := false }.advanceUserSequence, .holdPause (some .alreadyHeld))
    | .running =>
      ({ c.token with phase := .pauseIssuing c.token.nextToken .user }, .holdPause (some (.issue c.token.nextToken)))
    | _ => (c, .holdPause none)

def completeUserPause (c : HlsClock) (token : Nat) (accepted : Bool) : HlsClock × ClockAnswer :=
  if c.phase ≠ .pauseIssuing token .user then (c, .pauseCompleted .stale)
  else if accepted then
    ({ c with phase := .held .user, userHeld := true, resumeAcbPending := false }.advanceUserSequence, completed accepted)
  else ({ c with phase := .running }, completed accepted)

def handed (c : HlsClock) : Option HlsClock :=
  match c.phase with
  | .held .user | .held .initial | .held .seek | .held .resumePrime =>
    some { c with
      phase := .held .seek
      userHeld := false
      resumeAcbPending := c.resumeAcbPending || c.userHeld }
  | _ => none

def prepareSeekPause (c : HlsClock) : HlsClock × ClockAnswer :=
  match c.phase with
  | .running => ({ c.token with phase := .pauseIssuing c.token.nextToken .seek }, .holdPause (some (.issue c.token.nextToken)))
  | _ => match c.handed with
    | some t => (t, .holdPause (some .alreadyHeld))
    | none => (c, .holdPause none)

def handHoldToSeekPrime (c : HlsClock) : HlsClock × ClockAnswer :=
  match c.handed with
  | some t => (t, .flag true)
  | none => (c, .flag false)

def completeSeekPause (c : HlsClock) (token : Nat) (accepted : Bool) : HlsClock × ClockAnswer :=
  if c.phase ≠ .pauseIssuing token .seek then (c, .pauseCompleted .stale)
  else ({ c with phase := if accepted then .held .seek else .running }, completed accepted)

def prepareUserResume (c : HlsClock) (queuedStream : Bool) : HlsClock × ClockAnswer :=
  if c.phase = .stopping || !c.userHeld then (c, .userResume none)
  else match c.phase with
    | .held hold =>
      let deferred := { c with userHeld := false, resumeAcbPending := true }.advanceUserSequence
      if hold ≠ .user then (deferred, .userResume (some .deferred))
      else if queuedStream then ({ deferred with phase := .held .resumePrime }, .userResume (some .prime))
      else
        ({ c.token with phase := .playIssuing c.token.nextToken hold true }, .userResume (some (.issue c.token.nextToken)))
    | _ => (c, .userResume none)

def reservePrimePlay (c : HlsClock) (kind : HlsPrimeKind) (candidate : Nat) (recovery : HlsRecoveryEpoch) :
    HlsClock × ClockAnswer :=
  if !c.untried || c.automatic.isSome || c.candidateGeneration ≠ candidate || candidate % 2 ≠ 0 ||
      (kind = .rebuffer && c.recovery ≠ recovery) || c.userHeld then
    (c, .reserved none)
  else match c.phase with
    | .held hold =>
      if hold.primeKind ≠ some kind then (c, .reserved none)
      else
        ({ c.token with phase := .playIssuing c.token.nextToken hold c.resumeAcbPending },
          .reserved (some (c.token.nextToken, c.recovery)))
    | _ => (c, .reserved none)

/-- A Play that the native player has taken. -/
def played (c : HlsClock) (hold : ClockHold) : HlsClock :=
  let settled := { c with
    phase := .running
    recovery := .idle
    userHeld := false
    resumeAcbPending := false
    rebuffering := if hold = .rebuffer then false else c.rebuffering }
  if hold = .user then settled.advanceUserSequence else settled

def completePrimePlay (c : HlsClock) (token : Nat) (accepted : Bool) : HlsClock × ClockAnswer :=
  match c.phase with
  | .playIssuing active hold resumeAcb =>
    if active ≠ token then (c, .playCompleted .stale)
    else if accepted then (c.played hold, .playCompleted (.accepted resumeAcb))
    else ({ c with phase := .held hold, userHeld := if hold = .user then true else c.userHeld }, .playCompleted .refused)
  | _ => (c, .playCompleted .stale)

/-- The phases in which a transition of a kind may stand. -/
def phaseOk (c : HlsClock) : HlsAutomaticTransition → Bool
  | .qualityUp | .original => c.phase = .running && !c.rebufferRequested
  | .qualityDown => match c.phase with
    | .running | .pauseIssuing _ .rebuffer | .held .rebuffer => true
    | _ => false

/-- The owner that may be authorized to commit under a token. -/
def committing (c : HlsClock) (owner : HlsAutomaticOwner) (token : Nat) : Bool :=
  owner.token = token && owner.phase = .working && owner.userSequence = c.userSequence && !c.userHeld

def authorized (c : HlsClock) : HlsClock :=
  { c with automatic := c.automatic.map (fun owner => { owner with phase := .commitAuthorized }) }

/-- A generation before the last, made odd. -/
def publish (c : HlsClock) : HlsClock × ClockAnswer :=
  if !c.stable then (c, .candidate (.error .overlap))
  else if c.candidateGeneration = lastGeneration then (c, .candidate (.error .exhausted))
  else ({ c with candidateGeneration := c.candidateGeneration + 1 }, .candidate (.ok (c.candidateGeneration + 1)))

def beginCandidate (c : HlsClock) (automatic : Option Nat) : HlsClock × ClockAnswer :=
  match c.phase with
  | .playIssuing _ _ _ => (c, .waits)
  | .stopping => (c, .candidate (.error .stopping))
  | _ => match automatic with
    | none => c.publish
    | some token => match c.automatic with
      | none => (c, .candidate (.error .superseded))
      | some owner =>
        if c.committing owner token && c.phaseOk owner.kind then c.authorized.publish
        else (c, .candidate (.error .superseded))

/-- The recovery that a publication starts again. -/
def rebased (c : HlsClock) : HlsClock :=
  match c.phase with
  | .pauseIssuing _ .rebuffer | .held .rebuffer => { c with recovery := .begin_ }
  | _ => c

def settleCandidate (c : HlsClock) (generation : Nat) : HlsClock × ClockAnswer :=
  if lastGeneration ≤ generation || c.candidateGeneration ≠ generation then (c.rebased, .flag false)
  else ({ c.rebased with candidateGeneration := generation + 1 }, .flag true)

def leased (c : HlsClock) (kind : HlsAutomaticTransition) : HlsClock :=
  { c.token with automatic := some ⟨c.token.nextToken, kind, .working, c.userSequence⟩ }

def armTrialAt (c : HlsClock) (runwayMs : Int) (userSequence : Nat) : HlsClock × ClockAnswer :=
  if c.phase ≠ .running || c.userHeld || c.userSequence ≠ userSequence || c.automatic.isSome || c.rebufferRequested ||
      !c.stable then
    (c, .lease none)
  else ({ c.leased .qualityUp with trialReserveMs := max runwayMs 0 }, .lease (some c.token.nextToken))

def finishTrial (c : HlsClock) (token : Nat) : HlsClock × ClockAnswer :=
  if c.automatic.any (fun owner => owner.token = token && owner.kind = .qualityUp) then
    ({ c with automatic := none, trialReserveMs := -1 }, .flag true)
  else (c, .flag false)

def beginAutomaticAt (c : HlsClock) (kind : HlsAutomaticTransition) (userSequence : Nat) : HlsClock × ClockAnswer :=
  if c.automatic.isSome || c.userHeld || c.userSequence ≠ userSequence || !c.stable || !c.untried || !c.phaseOk kind then
    (c, .lease none)
  else (c.leased kind, .lease (some c.token.nextToken))

def authorizeCommit (c : HlsClock) (token : Nat) : HlsClock × ClockAnswer :=
  if c.phase = .running && c.automatic.any (fun owner => c.committing owner token) then (c.authorized, .flag true)
  else (c, .flag false)

def finishAutomatic (c : HlsClock) (token : Nat) : HlsClock × ClockAnswer :=
  if c.automatic.any (fun owner => owner.token = token) then ({ c with automatic := none }, .flag true) else (c, .flag false)

def stop (c : HlsClock) : HlsClock :=
  { c with
    phase := .stopping
    recovery := .idle
    userHeld := false
    resumeAcbPending := false
    automatic := none
    rebuffering := false }

/-- The even generation that follows, or the last one. -/
def nextGeneration (generation : Nat) : Nat := min (generation + if generation % 2 = 0 then 2 else 1) lastGeneration

/-- Tokens and the viewer's sequence go on over a reset. -/
def reset (c : HlsClock) : HlsClock :=
  { new with
    nextToken := c.nextToken
    userSequence := c.userSequence
    candidateGeneration := nextGeneration c.candidateGeneration
    internalHoldEpoch := (c.internalHoldEpoch + 1) % 2 ^ 64
    rebufferRequested := c.rebufferRequested }

def step (c : HlsClock) : ClockOp → HlsClock × ClockAnswer
  | .armInitialClockHold userHeld seekPreroll => c.armInitialClockHold userHeld seekPreroll
  | .prepareRebufferPause => c.prepareRebufferPause
  | .completeRebufferPause token accepted => c.completeRebufferPause token accepted
  | .prepareUserPause => c.prepareUserPause
  | .completeUserPause token accepted => c.completeUserPause token accepted
  | .prepareSeekPause => c.prepareSeekPause
  | .handHoldToSeekPrime => c.handHoldToSeekPrime
  | .completeSeekPause token accepted => c.completeSeekPause token accepted
  | .prepareUserResume queuedStream => c.prepareUserResume queuedStream
  | .reservePrimePlay kind candidate recovery => c.reservePrimePlay kind candidate recovery
  | .completePrimePlay token accepted => c.completePrimePlay token accepted
  | .beginCandidate automatic => c.beginCandidate automatic
  | .settleCandidate generation => c.settleCandidate generation
  | .armTrialAt runwayMs userSequence => c.armTrialAt runwayMs userSequence
  | .finishTrial token => c.finishTrial token
  | .beginAutomaticAt kind userSequence => c.beginAutomaticAt kind userSequence
  | .authorizeCommit token => c.authorizeCommit token
  | .finishAutomatic token => c.finishAutomatic token
  | .observeRecovery acquisitionUs mediaUs => ({ c with recovery := c.recovery.observe acquisitionUs mediaUs }, .unit)
  | .requestRebuffer requested => ({ c with rebufferRequested := requested }, .unit)
  | .stop => (c.stop, .unit)
  | .reset => (c.reset, .unit)

end HlsClock
end PlxNative.Feed
