import PlxNative.Abr.Ladder

/-! What a playback believes of its link, its server and its reserve, and the observations these
are updated from. -/
namespace PlxNative.Abr
open I64

def kbpsFrom (bytes us : Nat) : Nat := min (bytes * 8000) u64Max / max us 1

def weightedMean (old new weight denominator : Nat) : Nat :=
  if old = 0 then new
  else
    let newWeight := min weight denominator
    min ((old * (denominator - newWeight) + new * newWeight) / denominator) u32Max

def maxUncertaintyPm : Nat := 500

inductive ObservationQuality where
  | weak | normal | strong
deriving DecidableEq

structure CapacityEstimate where
  fastKbps : Nat
  slowKbps : Nat
  uncertaintyPm : Nat
  samples : Nat

structure CapacityObservation where
  kbps : Nat
  bytes : Nat
  activeUs : Nat
  completed : Bool

namespace CapacityObservation

variable (observation : CapacityObservation)

def quality : ObservationQuality :=
  if !observation.completed || observation.activeUs < 250000 then .weak
  else if 1048576 ≤ observation.bytes then .strong
  else if 262144 ≤ observation.bytes then .normal
  else .weak

def weight : Nat :=
  match observation.quality with
  | .weak => 1
  | .normal => 2
  | .strong => 3

def isCollapse (prior : CapacityEstimate) : Bool :=
  observation.completed && 0 < prior.fastKbps && min (observation.kbps * 4) u32Max < prior.fastKbps

/-- A transfer too short to measure may claim a small multiple of its rung, and no more. -/
def clampedToEvidence (wireKbps : Nat) : CapacityObservation :=
  if observation.quality ≠ .weak || wireKbps = 0 then observation
  else { observation with kbps := min observation.kbps (min (wireKbps * 8) u32Max) }

def isRegimeChange (prior : CapacityEstimate) : Bool :=
  if !observation.completed || prior.slowKbps = 0 || observation.kbps = 0 then false
  else min (observation.kbps * 4) u32Max < prior.slowKbps || min (prior.slowKbps * 4) u32Max < observation.kbps

end CapacityObservation

namespace CapacityEstimate

def default : CapacityEstimate := ⟨0, 0, 0, 0⟩

def fromPrior (kbps : Nat) : CapacityEstimate := ⟨kbps, kbps, maxUncertaintyPm, 1⟩

/-- The uncertainty after a sample that agrees or disagrees with the slow estimate. -/
def spreadPm (slowKbps kbps samples : Nat) : Nat :=
  let spread := max kbps slowKbps - min kbps slowKbps
  let relative := if slowKbps = 0 then 1000 else min (spread * 1000 / slowKbps) 1000
  let uncertainty := max relative (if samples = 1 then 300 else 200)
  if kbps < slowKbps then
    max uncertainty (min (min ((slowKbps - kbps) * 2000) u32Max / max slowKbps 1) 800)
  else uncertainty

def update (estimate : CapacityEstimate) (observation : CapacityObservation) : CapacityEstimate :=
  if !observation.completed then estimate
  else if 0 < estimate.samples && observation.isRegimeChange estimate then
    { fromPrior observation.kbps with samples := 1 }
  else
    let samples := min (estimate.samples + 1) u32Max
    if estimate.samples = 0 then ⟨observation.kbps, observation.kbps, maxUncertaintyPm, samples⟩
    else
      let slowKbps := weightedMean estimate.slowKbps observation.kbps observation.weight 8
      { fastKbps := weightedMean estimate.fastKbps observation.kbps (min observation.weight 2) 4
        slowKbps
        uncertaintyPm := spreadPm slowKbps observation.kbps estimate.samples
        samples }

def conservativeKbps (estimate : CapacityEstimate) : Nat :=
  min (estimate.slowKbps * (1000 - min estimate.uncertaintyPm 500) / 1000) u32Max

def collapse (estimate : CapacityEstimate) (measuredKbps : Nat) : CapacityEstimate :=
  let dropped :=
    if 0 < estimate.fastKbps && min (measuredKbps * 4) u32Max < estimate.fastKbps then
      { estimate with slowKbps := max measuredKbps (estimate.slowKbps / 4), uncertaintyPm := 400 }
    else estimate
  { dropped with fastKbps := measuredKbps }

def demoteToPrior (estimate : CapacityEstimate) : CapacityEstimate :=
  if estimate.samples = 0 then estimate
  else
    { estimate with
      samples := 1
      fastKbps := estimate.slowKbps
      uncertaintyPm := max estimate.uncertaintyPm maxUncertaintyPm }

def ageMs (estimate : CapacityEstimate) (elapsedMs : Nat) (policy : AbrPolicy) : CapacityEstimate :=
  let halfLife := max policy.staleHalfLifeMs 1
  if estimate.samples = 0 || elapsedMs < halfLife then estimate
  else if min (halfLife * 4) u64Max ≤ elapsedMs then estimate.demoteToPrior
  else
    let halvings := min (min (elapsedMs / halfLife) u32Max) 16
    { estimate with
      uncertaintyPm := max estimate.uncertaintyPm (maxUncertaintyPm - maxUncertaintyPm / 2 ^ halvings) }

end CapacityEstimate

/-- Tail timestamps of the two lanes, in milliseconds. -/
structure BufferSnapshot where
  playback : Int
  videoTail : Int
  audioTail : Option Int
  audioExpected : Bool

namespace BufferSnapshot

def saturatingSince (later earlier : Int) : Int := max (saturated (later - earlier)) 0

/-- The playable reserve, or nothing while an expected audio lane has not spoken. -/
def bufferedMs (snapshot : BufferSnapshot) : Option Int :=
  match snapshot.audioExpected, snapshot.audioTail with
  | true, none => none
  | _, some audio => some (saturatingSince (min audio snapshot.videoTail) snapshot.playback)
  | false, none => some (saturatingSince snapshot.videoTail snapshot.playback)

end BufferSnapshot

/-- One segment acquisition, as its two constructors admit it. -/
structure SegmentSample where
  bytes : Nat
  activeFetchUs : Nat
  totalFetchUs : Nat
  mediaDurationMs : Nat
  mediaObligationMs : Nat
  buffer : BufferSnapshot
  completed : Bool
  ordered : activeFetchUs ≤ totalFetchUs
  plays : 0 < mediaDurationMs
  obliged : mediaDurationMs ≤ mediaObligationMs
  carried : completed = true → 0 < bytes ∧ 0 < activeFetchUs

namespace SegmentSample

def newWithObligation (bytes activeFetchUs totalFetchUs mediaDurationMs mediaObligationMs : Nat)
    (buffer : BufferSnapshot) : Option SegmentSample :=
  if valid : 0 < bytes ∧ 0 < activeFetchUs ∧ activeFetchUs ≤ totalFetchUs ∧ 0 < mediaDurationMs ∧
      mediaDurationMs ≤ mediaObligationMs then
    some
      { bytes, activeFetchUs, totalFetchUs, mediaDurationMs, mediaObligationMs, buffer
        completed := true
        ordered := valid.2.2.1
        plays := valid.2.2.2.1
        obliged := valid.2.2.2.2
        carried := fun _ => ⟨valid.1, valid.2.1⟩ }
  else none

def abandonedAcquisition (bytes activeFetchUs totalFetchUs mediaDurationMs mediaObligationMs : Nat)
    (buffer : BufferSnapshot) : Option SegmentSample :=
  if valid : activeFetchUs ≤ totalFetchUs ∧ 0 < mediaDurationMs ∧ mediaDurationMs ≤ mediaObligationMs then
    some
      { bytes, activeFetchUs, totalFetchUs, mediaDurationMs, mediaObligationMs, buffer
        completed := false
        ordered := valid.1
        plays := valid.2.1
        obliged := valid.2.2
        carried := fun completed => nomatch completed }
  else none

def withBuffer (sample : SegmentSample) (buffer : BufferSnapshot) : SegmentSample := { sample with buffer }

def networkKbps (sample : SegmentSample) : Nat := min (kbpsFrom sample.bytes sample.activeFetchUs) u32Max

def productionRatioPm (sample : SegmentSample) : Nat :=
  min (min (sample.totalFetchUs * 1000) u64Max / (sample.mediaDurationMs * 1000)) u32Max

end SegmentSample

structure ProductionEstimate where
  ratioPm : Nat
  uncertaintyPm : Nat
  samples : Nat
  serverPm : Nat

namespace ProductionEstimate

def default : ProductionEstimate := ⟨0, 0, 0, 0⟩

def observe (estimate : ProductionEstimate) (ratioPm loadPm : Nat) (coldStart : Bool) : ProductionEstimate :=
  let weight := if coldStart then 1 else 3
  let normalized := min (min (ratioPm * 1000) u64Max / max loadPm 1) u32Max
  let ratio := if estimate.samples = 0 then ratioPm else weightedMean estimate.ratioPm ratioPm weight 8
  let server := if estimate.samples = 0 then normalized else weightedMean estimate.serverPm normalized weight 8
  let samples := min (estimate.samples + 1) u32Max
  { ratioPm := ratio
    serverPm := server
    samples
    uncertaintyPm := if samples < 3 then 250 else if 200 < max ratioPm ratio - min ratioPm ratio then 500 else 250 }

end ProductionEstimate

structure BufferEstimate where
  bufferedMs : Int
  slopeMsPerS : Int
  lastDeltaMs : Int
  samples : Nat
  drainingSamples : Nat

namespace BufferEstimate

def default : BufferEstimate := ⟨0, 0, 0, 0, 0⟩

/-- The arithmetic is that of the shipped profile, which wraps. -/
def update (estimate : BufferEstimate) (bufferedMs? : Option Int) (wallElapsedMs : Int) : BufferEstimate :=
  match bufferedMs? with
  | none => estimate
  | some bufferedMs =>
    let delta := wrapped (bufferedMs - estimate.bufferedMs)
    let first := estimate.samples = 0
    if ¬first ∧ wallElapsedMs ≤ 0 then { estimate with lastDeltaMs := 0, bufferedMs }
    else
      let sampleSlope := if first then 0 else wrapped (Int.tdiv (wrapped (delta * 1000)) wallElapsedMs)
      let slopeMsPerS :=
        if estimate.samples = 0 then estimate.slopeMsPerS
        else if estimate.samples = 1 then sampleSlope
        else Int.tdiv (wrapped (wrapped (estimate.slopeMsPerS * 3) + sampleSlope)) 4
      { bufferedMs
        slopeMsPerS
        lastDeltaMs := if first then 0 else delta
        samples := min (estimate.samples + 1) u32Max
        drainingSamples := if slopeMsPerS < -50 then min (estimate.drainingSamples + 1) u32Max else 0 }

def rebase (estimate : BufferEstimate) : BufferEstimate :=
  { estimate with slopeMsPerS := 0, lastDeltaMs := 0, drainingSamples := 0, samples := 0 }

end BufferEstimate

structure TransitionHistory where
  visibleSwitches : Nat
  sinceLastMs : Option Nat

def TransitionHistory.penalty (history : TransitionHistory) (policy : AbrPolicy) : Int :=
  if history.visibleSwitches = 0 then 0
  else
    let base := saturated (policy.visibleSwitchPenalty * history.visibleSwitches)
    match history.sinceLastMs with
    | none => base
    | some since => base / 2 ^ min (since / max policy.visibleSwitchDecayMs 1) 16

/-- The upper edge of each quality band, and its score. -/
def qualityAnchors : List (Int × Int) :=
  [(500, 0), (1000, 10), (2500, 25), (5000, 40), (7000, 50), (9000, 58), (13000, 66), (17000, 72), (21000, 76)]

def qualityFrom (kbps : Int) (below : Int × Int) : List (Int × Int) → Int
  | [] => below.2 * 1000
  | (edge, score) :: rest =>
    if kbps ≤ edge then below.2 * 1000 + (kbps - below.1) * (score - below.2) * 1000 / max (edge - below.1) 1
    else qualityFrom kbps (edge, score) rest

def qualityScorePmAtKbps (wireKbps : Nat) : Int := qualityFrom wireKbps (0, 0) qualityAnchors

end PlxNative.Abr
