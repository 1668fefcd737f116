import PlxNative.Abr.Decides
import PlxNative.Lib.Transducer

/-! The calls made of a controller, and what each of them does to it. -/
namespace PlxNative.Abr

open Transducer (run history)

/-- The calls, in the order of their methods; a first segment of a session is observed as one. -/
inductive Call where
  | observe (sample : SegmentSample) (rollbackMediaMs : Option Nat) (nowMs : Nat) (sessionBoundary : Bool)
  | setExecutedExplorationBudget (proposal : Proposal) (budgetMs : Int)
  | onResume (pausedMs : Nat)
  | candidateVerdict (proposal : Proposal) (sample : SegmentSample) (declaredBps : Nat)
  | commitCandidate (proposal : Proposal) (sample : SegmentSample) (variant : ObservedHlsVariant) (nowMs : Nat)
  | commit (proposal : Proposal) (nowMs : Nat)
  | reject (proposal : Proposal) (cause : RejectCause) (nowMs : Nat)
  | observeActiveVariant (variant : ObservedHlsVariant) (evidenceKbps : Nat)

namespace Call

/-- All but the report of what the server attached. -/
def Transactional : Call → Prop
  | observeActiveVariant _ _ => False
  | _ => True

def proposal : Call → Option Proposal
  | setExecutedExplorationBudget proposal _ | commitCandidate proposal _ _ _ | commit proposal _ | reject proposal _ _ =>
    some proposal
  | _ => none

def commits : Call → Option Proposal
  | commitCandidate proposal _ _ _ | commit proposal _ => some proposal
  | _ => none

end Call

inductive Reply where
  | decided (decision : Decision)
  | accepted (accepted : Bool)
  | graded (verdict : CandidateVerdict)
  | done
  | panicked
deriving DecidableEq

namespace Controller

variable [Target]

def step (controller : Controller) : Call → Controller × Reply
  | .observe sample rollbackMediaMs nowMs sessionBoundary =>
    let observed := match sessionBoundary with
      | false => controller.observeWithRollback sample rollbackMediaMs nowMs
      | true => controller.observeSessionBoundary sample rollbackMediaMs nowMs
    match observed with
    | some (after, decision) => (after, .decided decision)
    | none => (controller, .panicked)
  | .setExecutedExplorationBudget proposal budgetMs =>
    ((controller.setExecutedExplorationBudget proposal budgetMs).1,
      .accepted (controller.setExecutedExplorationBudget proposal budgetMs).2)
  | .onResume pausedMs => (controller.onResume pausedMs, .done)
  | .candidateVerdict proposal sample declaredBps =>
    (controller, .graded (controller.candidateVerdict sample proposal declaredBps))
  | .commitCandidate proposal sample variant nowMs =>
    ((controller.commitCandidate sample proposal variant nowMs).1,
      .accepted (controller.commitCandidate sample proposal variant nowMs).2)
  | .commit proposal nowMs => ((controller.commit proposal nowMs).1, .accepted (controller.commit proposal nowMs).2)
  | .reject proposal cause nowMs =>
    ((controller.reject proposal cause nowMs).1, .accepted (controller.reject proposal cause nowMs).2)
  | .observeActiveVariant variant evidenceKbps => (controller.observeActiveVariant variant evidenceKbps, .done)

/-- A proposal committed through the candidate's own completed segment. -/
def committedCandidate (controller : Controller) (proposal : Proposal) (sample : SegmentSample)
    (variant : ObservedHlsVariant) (nowMs : Nat) : Controller :=
  ((controller.committed proposal nowMs).commitCandidateEvidence sample).observeActiveVariant variant sample.networkKbps

/-- Every way a call can leave an unpinned controller. -/
inductive Effect (before : Controller) : Call → Controller → Reply → Prop
  | observed (sample : SegmentSample) (rollbackMediaMs : Option Nat) (nowMs : Nat) (sessionBoundary : Bool)
      {after : Controller} {decision : Decision}
      (decides : Decides (before.estimated sample rollbackMediaMs nowMs sessionBoundary) after decision) :
      Effect before (.observe sample rollbackMediaMs nowMs sessionBoundary) after (.decided decision)
  | refused (call : Call) : Effect before call before (.accepted false)
  | blocked (proposal : Proposal) (budgetMs : Int) (pending : before.pending = some proposal) :
      Effect before (.setExecutedExplorationBudget proposal budgetMs)
        { before with
          pending := none
          pendingReservePolicy := none
          pendingExplorationBudgetMs := 0
          lastReason := some .rejectBackoff } (.accepted false)
  | armed (proposal : Proposal) (budgetMs : Int) (pending : before.pending = some proposal)
      (up : proposal.direction = .up) (positive : 0 < budgetMs)
      (common : before.commonBudgetBlocks (some budgetMs) = false)
      (open_ : (before.failures proposal.rung).blocks (some budgetMs) before.delivery = false) :
      Effect before (.setExecutedExplorationBudget proposal budgetMs)
        { before with pendingExplorationBudgetMs := budgetMs } (.accepted true)
  | resumed (pausedMs : Nat) : Effect before (.onResume pausedMs) (before.onResume pausedMs) .done
  | graded (proposal : Proposal) (sample : SegmentSample) (declaredBps : Nat) (verdict : CandidateVerdict) :
      Effect before (.candidateVerdict proposal sample declaredBps) before (.graded verdict)
  | committedCandidate (proposal : Proposal) (sample : SegmentSample) (variant : ObservedHlsVariant) (nowMs : Nat)
      (pending : before.pending = some proposal) (completed : sample.completed = true) :
      Effect before (.commitCandidate proposal sample variant nowMs)
        (before.committedCandidate proposal sample variant nowMs) (.accepted true)
  | committed (proposal : Proposal) (nowMs : Nat) (pending : before.pending = some proposal) :
      Effect before (.commit proposal nowMs) (before.committed proposal nowMs) (.accepted true)
  | rejected (proposal : Proposal) (cause : RejectCause) (nowMs : Nat) (pending : before.pending = some proposal) :
      Effect before (.reject proposal cause nowMs) (before.rejected proposal cause nowMs) (.accepted true)
  | attached (variant : ObservedHlsVariant) (evidenceKbps : Nat) :
      Effect before (.observeActiveVariant variant evidenceKbps)
        (before.observeActiveVariant variant evidenceKbps) .done

variable {ctl : Controller}

variable {sample : SegmentSample}

omit [Target] in
theorem call_formed (completed : sample.completed = true) :
    (Controller.call sample).malformed = false := by
  obtain ⟨bytes, active⟩ := sample.carried completed
  have ordered := sample.ordered
  have plays := sample.plays
  have took : 0 < sample.totalFetchUs := active.trans_le ordered
  simp [AcquisitionWindow.Observation.malformed, Controller.call, bytes.ne', took.ne', plays.ne']

theorem estimated_held (ctl : Controller) (rollbackMediaMs : Option Nat) (nowMs : Nat)
    {sessionBoundary : Bool} (completed : sample.completed = true) (ordinary : sessionBoundary = false) :
    (ctl.estimated sample rollbackMediaMs nowMs sessionBoundary).acquisitions.summary.n ≠ 0 := by
  simp only [estimated, acquisitionsAfter, completed, ordinary]
  exact AcquisitionWindow.observe_held _ (call_formed completed)

theorem observeInner_reaches (unpinned : ctl.pin = none) (sample : SegmentSample) (rollbackMediaMs : Option Nat)
    (nowMs : Nat) (sessionBoundary : Bool) :
    Reaches (ctl.observeInner sample rollbackMediaMs nowMs sessionBoundary)
      (ctl.estimated sample rollbackMediaMs nowMs sessionBoundary) :=
  @decision_reaches (ctl.estimated sample rollbackMediaMs nowMs sessionBoundary) unpinned sample sessionBoundary
    fun completed ordinary => ctl.estimated_held rollbackMediaMs nowMs completed ordinary

omit [Target] in
theorem candidateVerdict_ready {proposal : Proposal} {declaredBps : Nat}
    (ready : ctl.candidateVerdict sample proposal declaredBps = .ready) :
    ctl.pending = some proposal ∧ sample.completed = true := by
  unfold candidateVerdict at ready
  split at ready
  · cases ready
  · next graded => simpa using graded

omit [Target] in
theorem observeActiveVariant_eq (ctl : Controller) (variant : ObservedHlsVariant) (evidenceKbps : Nat) :
    ∃ shown evidence, ctl.observeActiveVariant variant evidenceKbps =
      { ctl with activeVariant := shown, activeVariantEvidenceKbps := evidence } := by
  unfold observeActiveVariant
  split
  · exact ⟨ctl.activeVariant, ctl.activeVariantEvidenceKbps, rfl⟩
  · exact ⟨_, _, rfl⟩

omit [Target] in
theorem rejected_eq (ctl : Controller) (proposal : Proposal) (cause : RejectCause) (nowMs : Nat) :
    ∃ frontier failures recovery, ctl.rejected proposal cause nowMs =
      { ctl.dropped nowMs with
        commonBudgetFrontierMs := frontier
        failures := failures
        recoveryTarget := recovery } := by
  unfold rejected
  split
  · exact ⟨_, _, _, rfl⟩
  · split
    · split <;> exact ⟨_, _, _, rfl⟩
    · exact ⟨_, _, _, rfl⟩

theorem committedCandidate_eq (ctl : Controller) (proposal : Proposal)
    (variant : ObservedHlsVariant) (nowMs : Nat) (completed : sample.completed = true) :
    ∃ shown evidence window, ctl.committedCandidate proposal sample variant nowMs =
      { ctl.committed proposal nowMs with
        acquisitions := ctl.acquisitions.reset.observe (Controller.call sample)
        lastWindow := window
        activeVariant := shown
        activeVariantEvidenceKbps := evidence } := by
  obtain ⟨shown, evidence, attached⟩ := observeActiveVariant_eq
    ((ctl.committed proposal nowMs).commitCandidateEvidence sample) variant sample.networkKbps
  have seeded : (ctl.committed proposal nowMs).commitCandidateEvidence sample = _ := if_neg (by simp [completed])
  rw [seeded] at attached
  exact ⟨shown, evidence, _, (by rw [committedCandidate, seeded]; exact attached)⟩

theorem step_effect (unpinned : ctl.pin = none) (call : Call) :
    Effect ctl call (ctl.step call).1 (ctl.step call).2 := by
  cases call with
  | observe sample rollbackMediaMs nowMs sessionBoundary =>
    obtain ⟨after, decision, observed, decides⟩ :=
      observeInner_reaches unpinned sample rollbackMediaMs nowMs sessionBoundary
    have effect := @Effect.observed _ ctl sample rollbackMediaMs nowMs sessionBoundary _ _ decides
    cases sessionBoundary <;>
      simpa only [step, observeWithRollback, observeSessionBoundary, observed] using effect
  | setExecutedExplorationBudget proposal budgetMs =>
    simp only [step, setExecutedExplorationBudget]
    split
    · exact .refused _
    · next executed =>
        simp only [not_or, not_not, not_le] at executed
        split
        · exact .blocked proposal budgetMs executed.1
        · next free =>
            simp only [Bool.or_eq_true, not_or, Bool.not_eq_true] at free
            exact .armed proposal budgetMs executed.1 executed.2.1 executed.2.2 free.1 free.2
  | onResume pausedMs => exact .resumed pausedMs
  | candidateVerdict proposal sample declaredBps => exact .graded proposal sample declaredBps _
  | commitCandidate proposal sample variant nowMs =>
    simp only [step, commitCandidate, commit]
    split
    · exact .refused _
    · next ready =>
        simp only [Bool.or_eq_true, decide_eq_true_eq, not_or, not_not] at ready
        obtain ⟨pending, completed⟩ := candidateVerdict_ready ready.2
        simpa [pending, Controller.committedCandidate] using
          @Effect.committedCandidate _ ctl proposal sample variant nowMs pending completed
  | commit proposal nowMs =>
    simp only [step, commit]
    split
    · exact .refused _
    · next pending => exact .committed proposal nowMs (not_not.mp pending)
  | reject proposal cause nowMs =>
    simp only [step, reject]
    split
    · exact .refused _
    · next pending => exact .rejected proposal cause nowMs (not_not.mp pending)
  | observeActiveVariant variant evidenceKbps => exact .attached variant evidenceKbps

end Controller

end PlxNative.Abr
