import PlxNative.Abr.Window
import PlxNative.Abr.Estimate

/-! The rung controller: completed segments decide what to propose, and a proposal is committed,
rejected or dropped by its own transaction. A panic of the source is `none` here. -/
namespace PlxNative.Abr
open I64

inductive Direction where
  | down | up
deriving DecidableEq

inductive HlsReason where
  | safeBudgetIncrease | unsafeCurrentState | bufferConstraint | ladderFloor | rejectBackoff | evidenceWindow
  | deadlineRollback | reserveUnknown | atBestRung | switchCost | responseLimited

inductive RejectCause where
  | censored | candidate | completedUnsustainable | structural | responseUnchanged | structuralAtOrBelow
  | circumstance
deriving DecidableEq

inductive ReservePolicy where
  | preserve | terminalFloor
deriving DecidableEq

inductive CandidateVerdict where
  | ready | incomplete | reserveUnknown | unsustainable | unfunded
deriving DecidableEq

structure Proposal where
  rung : Rung
  direction : Direction
deriving DecidableEq

inductive Decision where
  | stay
  | prime (proposal : Proposal)
deriving DecidableEq

structure FailureCertificate where
  deadlineBudgetMs : Option Int
  serviceEndpoint : Bool
  completedUnsustainableHlsFastKbps : Option Nat
  structural : Bool

namespace FailureCertificate

def default : FailureCertificate := ⟨none, false, none, false⟩

variable (failure : FailureCertificate)

def completedUnsustainableBlocks (delivery : CapacityEstimate) : Bool :=
  failure.completedUnsustainableHlsFastKbps.any (delivery.conservativeKbps ≤ ·)

def blocks (explorationBudgetMs : Option Int) (delivery : CapacityEstimate) : Bool :=
  failure.structural || failure.completedUnsustainableBlocks delivery ||
    failure.deadlineBudgetMs.any fun failed => explorationBudgetMs.all (· ≤ failed)

def serviceBlocks (delivery : CapacityEstimate) : Bool :=
  failure.completedUnsustainableBlocks delivery || failure.serviceEndpoint

end FailureCertificate

structure AdmissionReadout where
  have_ : Nat
  want : Nat
  admission : Option Admission
  resets : Nat

def AcquisitionWindow.observedReadout (window : AcquisitionWindow) (reserveMs : Int) : AdmissionReadout where
  have_ := window.summary.n
  want := window.summary.n
  admission := window.observedAdmission reserveMs
  resets := window.resets

structure Controller where
  current : Rung
  pending : Option Proposal
  pendingReservePolicy : Option ReservePolicy
  delivery : CapacityEstimate
  production : ProductionEstimate
  buffer : BufferEstimate
  catalog : HlsActuatorCatalog
  policy : AbrPolicy
  samplesOnRung : Nat
  nowMs : Nat
  lastBufferObservationMs : Option Nat
  rollbackMediaMs : Option Nat
  failures : Rung → FailureCertificate
  commonBudgetFrontierMs : Option Int
  pendingExplorationBudgetMs : Int
  rollbackRung : Option Rung
  recoveryTarget : Option Rung
  lastReason : Option HlsReason
  lastSafeBudgetKbps : Nat
  lastEmergencyHorizon : Option Nat
  pin : Option Rung
  acquisitions : AcquisitionWindow
  lastWindow : AdmissionReadout
  activeVariant : Option ObservedHlsVariant
  activeVariantEvidenceKbps : Option Nat
  visibleSwitches : Nat
  lastSwitchMs : Option Nat

namespace Controller

def startingAt (current : Rung) (prior : Option CapacityEstimate) (catalog : HlsActuatorCatalog) : Controller where
  current
  pending := none
  pendingReservePolicy := none
  delivery := prior.getD CapacityEstimate.default
  production := ProductionEstimate.default
  buffer := BufferEstimate.default
  catalog
  policy := AbrPolicy.measured
  samplesOnRung := 0
  nowMs := 0
  lastBufferObservationMs := none
  rollbackMediaMs := none
  failures := fun _ => FailureCertificate.default
  commonBudgetFrontierMs := none
  pendingExplorationBudgetMs := 0
  rollbackRung := none
  recoveryTarget := none
  lastReason := none
  lastSafeBudgetKbps := 0
  lastEmergencyHorizon := none
  pin := none
  acquisitions := AcquisitionWindow.default
  lastWindow := ⟨0, 0, none, 0⟩
  activeVariant := none
  activeVariantEvidenceKbps := none
  visibleSwitches := 0
  lastSwitchMs := none

def pinnedTo (controller : Controller) (pin : Option Rung) : Controller := { controller with pin }

variable (controller : Controller)

def observeActiveVariant (variant : ObservedHlsVariant) (evidenceKbps : Nat) : Controller :=
  if controller.activeVariant = some variant then controller
  else { controller with activeVariant := some variant, activeVariantEvidenceKbps := some evidenceKbps }

def activeVariantNeedsRefresh : Bool :=
  controller.activeVariant.any fun variant => variant.definitivelyUnderfills controller.current controller.catalog.source

def activeVariantRefreshReleased : Bool :=
  controller.activeVariantEvidenceKbps.any (· < controller.delivery.conservativeKbps)

/-- The feasible rungs below the current one, in the ladder's order. -/
def lower : List HlsCandidate := controller.catalog.feasible.filter (·.rung < controller.current)

/-- The feasible rungs above the current one, in the ladder's order. -/
def higher : List HlsCandidate := controller.catalog.feasible.filter (controller.current < ·.rung)

def recoveryFloor : Rung := ((controller.lower.map (·.rung)).min?).getD controller.current

/-- The lower points the delivery and refill models support. -/
def supported (safeBudgetKbps : Nat) (bufferedMs : Int) : List HlsCandidate :=
  controller.lower.filter fun candidate =>
    controller.catalog.modeledSustainable candidate safeBudgetKbps controller.policy bufferedMs

def completedRecoveryTarget (safeBudgetKbps : Nat) (bufferedMs : Int) : Rung :=
  ((maxByKey (·.expectedWireKbps) (controller.supported safeBudgetKbps bufferedMs)).map (·.rung)).getD
    controller.recoveryFloor

def ceilMs (us : Int) : Int := us / 1000 + if us % 1000 ≠ 0 then 1 else 0

def explorationBudgetMs (reserveMs : Int) : Option Int := do
  let observed ← controller.acquisitions.observedAdmission reserveMs
  guard observed.sustainable
  let rollbackMediaMs ← controller.rollbackMediaMs.filter (0 < ·)
  let rollbackReserveMs := max (ceilMs observed.runwayUs) rollbackMediaMs
  let budget := saturated (reserveMs - rollbackReserveMs)
  if 0 < budget then some budget else none

def commonBudgetBlocks (explorationBudgetMs : Option Int) : Bool :=
  controller.commonBudgetFrontierMs.any fun failed => explorationBudgetMs.all (· ≤ failed)

def setExecutedExplorationBudget (proposal : Proposal) (budgetMs : Int) : Controller × Bool :=
  if controller.pending ≠ some proposal ∨ proposal.direction ≠ .up ∨ budgetMs ≤ 0 then (controller, false)
  else if controller.commonBudgetBlocks (some budgetMs) ||
      (controller.failures proposal.rung).blocks (some budgetMs) controller.delivery then
    ({ controller with
        pending := none
        pendingReservePolicy := none
        pendingExplorationBudgetMs := 0
        lastReason := some .rejectBackoff }, false)
  else ({ controller with pendingExplorationBudgetMs := budgetMs }, true)

def onResume (pausedMs : Nat) : Controller :=
  { controller with
    delivery := controller.delivery.ageMs pausedMs controller.policy
    buffer := BufferEstimate.default
    lastBufferObservationMs := none
    samplesOnRung := 0 }

section

variable (sample : SegmentSample)

def observation : CapacityObservation :=
  CapacityObservation.clampedToEvidence
    ⟨sample.networkKbps, sample.bytes, sample.activeFetchUs, sample.completed⟩
    (controller.catalog.candidate controller.current).expectedWireKbps

def regimeChanged : Bool := sample.completed && (controller.observation sample).isCollapse controller.delivery

def deliveryAfter : CapacityEstimate :=
  if sample.completed then
    let before :=
      if controller.regimeChanged sample then controller.delivery.collapse (controller.observation sample).kbps
      else controller.delivery
    before.update (controller.observation sample)
  else controller.delivery

def productionAfter : ProductionEstimate :=
  if sample.completed then
    controller.production.observe sample.productionRatioPm
      (controller.catalog.candidate controller.current).productionLoadPm (controller.samplesOnRung = 0)
  else controller.production

def bufferAfter (nowMs : Nat) : BufferEstimate :=
  let elapsed := (controller.lastBufferObservationMs.map (nowMs - ·)).bind fun elapsed => checked (elapsed : Int)
  if sample.buffer.bufferedMs.isSome then controller.buffer.update sample.buffer.bufferedMs (elapsed.getD 0)
  else controller.buffer

def call : AcquisitionWindow.Observation where
  bytes := sample.bytes
  acquisitionUs := sample.totalFetchUs
  activeUs := sample.activeFetchUs
  mediaDurationMs := sample.mediaDurationMs

variable [Target]

/-- Only a completed segment that is not a session's first enters the window, and a collapse
starts the window anew with it. -/
def acquisitionsAfter (sessionBoundary : Bool) : AcquisitionWindow :=
  if sample.completed && !sessionBoundary then
    let window := if controller.regimeChanged sample then controller.acquisitions.reset else controller.acquisitions
    window.observe (call sample)
  else controller.acquisitions

/-- Everything a segment teaches, whatever is then decided. -/
def estimated (rollbackMediaMs : Option Nat) (nowMs : Nat) (sessionBoundary : Bool) : Controller :=
  { controller with
    nowMs
    rollbackMediaMs := rollbackMediaMs.filter (0 < ·)
    lastReason := none
    delivery := controller.deliveryAfter sample
    production := controller.productionAfter sample
    samplesOnRung := if sample.completed then min (controller.samplesOnRung + 1) 255 else controller.samplesOnRung
    rollbackRung := if sample.completed then none else controller.rollbackRung
    recoveryTarget := if sample.completed then none else controller.recoveryTarget
    buffer := controller.bufferAfter sample nowMs
    lastBufferObservationMs := if sample.buffer.bufferedMs.isSome then some nowMs else controller.lastBufferObservationMs
    lastSafeBudgetKbps := (controller.deliveryAfter sample).conservativeKbps
    acquisitions := controller.acquisitionsAfter sample sessionBoundary
    lastWindow :=
      (controller.acquisitionsAfter sample sessionBoundary).observedReadout (controller.bufferAfter sample nowMs).bufferedMs }

end

section

def staying (reason : HlsReason) : Controller × Decision := ({ controller with lastReason := some reason }, .stay)

def priming (proposal : Proposal) (reservePolicy : ReservePolicy) (reason : Option HlsReason) : Controller × Decision :=
  ({ controller with
      pending := some proposal
      pendingReservePolicy := some reservePolicy
      lastReason := reason }, .prime proposal)

/-- A fetch was cut off: back to the rung displaced last, or else to the smallest response. -/
def abandonedTarget : Rung := (controller.recoveryTarget.or controller.rollbackRung).getD controller.recoveryFloor

def abandonedDecision : Controller × Decision :=
  if controller.abandonedTarget < controller.current then
    controller.priming ⟨controller.abandonedTarget, .down⟩ .preserve (some .deadlineRollback)
  else controller.staying .ladderFloor

def pinnedDecision (pin : Rung) (segmentMs bufferedMs : Int) : Controller × Decision :=
  if controller.current = pin then (controller, .stay)
  else
    let direction := if controller.current.kbps < pin.kbps then Direction.up else .down
    let required := match direction with
      | .up => 6
      | .down => 2
    if bufferedMs < saturated (segmentMs * required) then (controller, .stay)
    else controller.priming ⟨pin, direction⟩ .preserve controller.lastReason

def visibleSwitchHistory : TransitionHistory :=
  ⟨controller.visibleSwitches, controller.lastSwitchMs.map (controller.nowMs - ·)⟩

def upshiftEarnsItsVisibleSwitch (target : Rung) : Bool :=
  if target = controller.current then true
  else
    let price := saturated (controller.visibleSwitchHistory.penalty controller.policy * 1000)
    if price ≤ 0 then true
    else if controller.current.raster.1 < target.raster.1 || controller.current.raster.2 < target.raster.2 then true
    else
      let score (rung : Rung) := qualityScorePmAtKbps (controller.catalog.candidate rung).expectedWireKbps
      price ≤ score target - score controller.current

def serviceCeiling : Option Rung :=
  ((controller.higher.filter fun candidate =>
    (controller.failures candidate.rung).serviceBlocks controller.delivery).map (·.rung)).min?

variable (budgetMs bufferedMs : Int)

def eligible : List Rung :=
  (controller.higher.filter fun candidate =>
    !(controller.failures candidate.rung).blocks (some budgetMs) controller.delivery).map (·.rung)

def eligibleBelowCeiling : List Rung := (controller.eligible budgetMs).filter fun rung => controller.serviceCeiling.all (rung < ·)

def modeledTarget : Option Rung :=
  controller.serviceCeiling.bind fun _ =>
    ((controller.eligible budgetMs).filter fun rung =>
      controller.catalog.modeledSustainable (controller.catalog.candidate rung) controller.lastSafeBudgetKbps
        controller.policy bufferedMs).max?

def ordinalTarget : Option (Option Rung) :=
  if controller.serviceCeiling.isNone || (controller.eligibleBelowCeiling budgetMs).length = 0 then some none
  else
    -- the counted ordinal midpoint exists
    ((controller.eligibleBelowCeiling budgetMs)[((controller.eligibleBelowCeiling budgetMs).length - 1) / 2]?).map some

/-- The greater of two rungs that may be absent. -/
def laterOf : Option Rung → Option Rung → Option Rung
  | none, other => other
  | some rung, none => some rung
  | some rung, some other => some (max rung other)

def explorationTarget : Option (Option Rung) := do
  let ordinal ← controller.ordinalTarget budgetMs
  some (if controller.serviceCeiling.isSome then laterOf (controller.modeledTarget budgetMs bufferedMs) ordinal
    else (controller.eligible budgetMs).max?)

/-- No rung is above: the same request may be asked for again. -/
def refreshDecision : Controller × Decision :=
  if controller.activeVariantNeedsRefresh then
    if controller.activeVariantRefreshReleased &&
        !(controller.failures controller.current).blocks (some budgetMs) controller.delivery then
      { controller with pendingExplorationBudgetMs := budgetMs }.priming ⟨controller.current, .up⟩ .preserve
        (some .responseLimited)
    else controller.staying .responseLimited
  else controller.staying .atBestRung

def explorationDecision : Option (Controller × Decision) :=
  if controller.commonBudgetBlocks (some budgetMs) then some (controller.staying .rejectBackoff)
  else if controller.higher.isEmpty then some (controller.refreshDecision budgetMs)
  else do
    match ← controller.explorationTarget budgetMs bufferedMs with
    | none => some (controller.staying .rejectBackoff)
    | some target =>
      if !controller.upshiftEarnsItsVisibleSwitch target then some (controller.staying .switchCost)
      else
        some ({ controller with pendingExplorationBudgetMs := budgetMs }.priming ⟨target, .up⟩ .preserve
          (some .safeBudgetIncrease))

def refuge (survivable : Bool) : Rung :=
  if survivable then controller.completedRecoveryTarget controller.lastSafeBudgetKbps bufferedMs
  else controller.recoveryFloor

def recoveryDecision (survivable : Bool) : Controller × Decision :=
  if controller.refuge bufferedMs survivable = controller.current then controller.staying .ladderFloor
  else
    controller.priming ⟨controller.refuge bufferedMs survivable, .down⟩ (if survivable then .preserve else .terminalFloor)
      (some (if survivable then .unsafeCurrentState else .bufferConstraint))

/-- The current point is judged by the media already observed, and only a surplus explores. -/
def judgedDecision : Option (Controller × Decision) := do
  let physics ← controller.acquisitions.observedOrderedAdmission bufferedMs
  if !physics.sustainable || !physics.survivable then some (controller.recoveryDecision bufferedMs physics.survivable)
  else match controller.explorationBudgetMs bufferedMs with
    | none => some (controller.staying .evidenceWindow)
    | some budgetMs => controller.explorationDecision budgetMs bufferedMs

def physicsDecision : Option (Controller × Decision) :=
  judgedDecision { controller with lastEmergencyHorizon := none } bufferedMs

end

section

variable (sample : SegmentSample)

def decision (sessionBoundary : Bool) : Option (Controller × Decision) :=
  if sessionBoundary && sample.completed then some (controller.staying .evidenceWindow)
  else if controller.pending.isSome then some (controller, .stay)
  else match sample.buffer.bufferedMs with
    | none => some (controller.staying .reserveUnknown)
    | some bufferedMs =>
      if !sample.completed then some controller.abandonedDecision
      else match controller.pin with
        | some pin => some (controller.pinnedDecision pin sample.mediaDurationMs bufferedMs)
        | none => controller.physicsDecision bufferedMs

def observeInner [Target] (rollbackMediaMs : Option Nat) (nowMs : Nat) (sessionBoundary : Bool) :
    Option (Controller × Decision) :=
  (controller.estimated sample rollbackMediaMs nowMs sessionBoundary).decision sample sessionBoundary

def observeWithRollback [Target] (rollbackMediaMs : Option Nat) (nowMs : Nat) : Option (Controller × Decision) :=
  controller.observeInner sample rollbackMediaMs nowMs false

def observeSessionBoundary [Target] (rollbackMediaMs : Option Nat) (nowMs : Nat) : Option (Controller × Decision) :=
  controller.observeInner sample rollbackMediaMs nowMs true

def candidateVerdict (proposal : Proposal) (_declaredBps : Nat) : CandidateVerdict :=
  if controller.pending ≠ some proposal || !sample.completed then .incomplete
  else if proposal.direction = .down && proposal.rung = controller.recoveryFloor &&
      controller.pendingReservePolicy = some .terminalFloor then .ready
  else match sample.buffer.bufferedMs with
    | none => .reserveUnknown
    | some bufferedMs =>
      let acquisitionUs := min (sample.totalFetchUs : Int) largest
      let durationUs := saturated (sample.mediaDurationMs * 1000)
      match proposal.direction with
      | .down =>
        if durationUs < acquisitionUs && proposal.rung ≠ controller.recoveryFloor then .unsustainable
        else if (sample.mediaObligationMs : Int) ≤ bufferedMs then .ready
        else .unfunded
      | .up =>
        if durationUs < acquisitionUs then .unsustainable
        else if saturated (bufferedMs * 1000) < acquisitionUs then .unfunded
        else .ready

def committed (proposal : Proposal) (nowMs : Nat) : Controller :=
  let moved := proposal.rung ≠ controller.current
  { controller with
    current := proposal.rung
    activeVariant := if moved then none else controller.activeVariant
    activeVariantEvidenceKbps := if moved then none else controller.activeVariantEvidenceKbps
    visibleSwitches := if moved then min (controller.visibleSwitches + 1) u32Max else controller.visibleSwitches
    lastSwitchMs := if moved then some nowMs else controller.lastSwitchMs
    pending := none
    pendingReservePolicy := none
    pendingExplorationBudgetMs := 0
    commonBudgetFrontierMs := none
    samplesOnRung := 0
    acquisitions := controller.acquisitions.reset
    lastWindow := controller.acquisitions.reset.observedReadout 0
    buffer := controller.buffer.rebase
    lastBufferObservationMs := none
    rollbackRung :=
      if proposal.direction = .up && controller.current < proposal.rung then some controller.current else none
    recoveryTarget := none
    nowMs := max controller.nowMs nowMs
    failures := Function.update controller.failures proposal.rung FailureCertificate.default }

def commit (proposal : Proposal) (nowMs : Nat) : Controller × Bool :=
  if controller.pending ≠ some proposal then (controller, false) else (controller.committed proposal nowMs, true)

def commitCandidateEvidence [Target] : Controller :=
  if !sample.completed then controller
  else
    { controller with
      acquisitions := controller.acquisitions.observe (call sample)
      lastWindow := (controller.acquisitions.observe (call sample)).observedReadout (sample.buffer.bufferedMs.getD 0) }

def commitCandidate [Target] (proposal : Proposal) (variant : ObservedHlsVariant) (nowMs : Nat) : Controller × Bool :=
  let responseImproves := proposal.direction ≠ .up || controller.activeVariant.any variant.strictlyDominates
  if !responseImproves || controller.candidateVerdict sample proposal variant.declaredBps ≠ .ready then
    (controller, false)
  else match controller.commit proposal nowMs with
    | (_, false) => (controller, false)
    | (committed, true) =>
      ((committed.commitCandidateEvidence sample).observeActiveVariant variant sample.networkKbps, true)

/-- The failed budget becomes the frontier, or leaves the one that is larger. -/
def raised (frontier : Option Int) (budgetMs : Int) : Option Int := some (max (frontier.getD 0) budgetMs)

def failureAfter (failure : FailureCertificate) (budgetMs : Int) (fastKbps : Nat) : RejectCause → FailureCertificate
  | .censored | .candidate =>
    { failure with deadlineBudgetMs := raised failure.deadlineBudgetMs budgetMs, serviceEndpoint := true }
  | .responseUnchanged => { failure with deadlineBudgetMs := raised failure.deadlineBudgetMs budgetMs }
  | .completedUnsustainable =>
    { failure with
      completedUnsustainableHlsFastKbps := some (max (failure.completedUnsustainableHlsFastKbps.getD 0) fastKbps) }
  | .structural | .structuralAtOrBelow => { failure with structural := true }
  | .circumstance => failure

/-- The rungs a cause says something about. -/
def failed (proposed : Rung) (cause : RejectCause) (rung : Rung) : Bool :=
  if cause = .structuralAtOrBelow then rung ≤ proposed else rung = proposed

/-- The proposal is gone, whatever it leaves behind. -/
def dropped (nowMs : Nat) : Controller :=
  { controller with
    pending := none
    pendingReservePolicy := none
    pendingExplorationBudgetMs := 0
    nowMs := max controller.nowMs nowMs }

/-- A recovery that failed tries the smallest response next. -/
def recovered : Option Rung :=
  if controller.recoveryFloor < controller.current then some controller.recoveryFloor else none

def rejected (proposal : Proposal) (cause : RejectCause) (nowMs : Nat) : Controller :=
  if cause = .circumstance then controller.dropped nowMs
  else match proposal.direction with
    | .down =>
      -- every smaller box is at least as restrictive, so descending repairs nothing
      if cause = .structuralAtOrBelow then controller.dropped nowMs
      else { controller.dropped nowMs with recoveryTarget := controller.recovered }
    | .up =>
      { controller.dropped nowMs with
        commonBudgetFrontierMs :=
          if cause = .censored || cause = .responseUnchanged then
            raised controller.commonBudgetFrontierMs controller.pendingExplorationBudgetMs
          else controller.commonBudgetFrontierMs
        failures := fun rung =>
          if failed proposal.rung cause rung then
            failureAfter (controller.failures rung) controller.pendingExplorationBudgetMs controller.delivery.fastKbps cause
          else controller.failures rung }

def reject (proposal : Proposal) (cause : RejectCause) (nowMs : Nat) : Controller × Bool :=
  if controller.pending ≠ some proposal then (controller, false)
  else (controller.rejected proposal cause nowMs, true)

end

end Controller

end PlxNative.Abr
