import PlxNative.Abr.Transaction

/-! What a failed upshift leaves behind: certificates and one common frontier that only grow until
a commit, and that every later upshift has passed. -/
namespace PlxNative.Abr
open HlsActuatorCatalog

open Transducer (run history Event)

/-- A bound that is there stays, and never goes down. -/
def Raises {α : Type} [LE α] (before after : Option α) : Prop := ∀ bound, before = some bound → ∃ later, after = some later ∧ bound ≤ later

theorem Raises.refl {α : Type} [Preorder α] (bound : Option α) : Raises bound bound := fun held at_bound => ⟨held, at_bound, le_rfl⟩

theorem Raises.trans {α : Type} [Preorder α] {first second third : Option α} (left : Raises first second)
    (right : Raises second third) : Raises first third := by
  intro bound held
  obtain ⟨middle, held, le⟩ := left bound held
  obtain ⟨last, held, le'⟩ := right middle held
  exact ⟨last, held, le.trans le'⟩

namespace FailureCertificate

structure Grows (before after : FailureCertificate) : Prop where
  deadline : Raises before.deadlineBudgetMs after.deadlineBudgetMs
  unsustainable : Raises before.completedUnsustainableHlsFastKbps after.completedUnsustainableHlsFastKbps
  structural : before.structural → after.structural

theorem Grows.refl (failure : FailureCertificate) : Grows failure failure := ⟨.refl _, .refl _, id⟩

theorem Grows.trans {first second third : FailureCertificate} (left : Grows first second) (right : Grows second third) :
    Grows first third :=
  ⟨left.deadline.trans right.deadline, left.unsustainable.trans right.unsustainable, right.structural ∘ left.structural⟩

end FailureCertificate

namespace Controller

open FailureCertificate (Grows)

theorem raised_raises (frontier : Option Int) (budgetMs : Int) : Raises frontier (raised frontier budgetMs) := by
  rintro bound rfl
  exact ⟨_, rfl, le_max_left _ _⟩

theorem raised_budget (frontier : Option Int) (budgetMs : Int) : ∃ later, raised frontier budgetMs = some later ∧ budgetMs ≤ later :=
  ⟨_, rfl, le_max_right _ _⟩

theorem failureAfter_grows (failure : FailureCertificate) (budgetMs : Int) (fastKbps : Nat) (cause : RejectCause) :
    Grows failure (failureAfter failure budgetMs fastKbps cause) := by
  cases cause with
  | censored | candidate | responseUnchanged => exact ⟨raised_raises _ _, .refl _, id⟩
  | completedUnsustainable =>
    refine ⟨.refl _, ?_, id⟩
    rintro bound held
    exact ⟨_, rfl, by rw [held]; exact le_max_left _ _⟩
  | structural | structuralAtOrBelow => exact ⟨.refl _, .refl _, fun _ => rfl⟩
  | circumstance => exact .refl failure

variable {ctl : Controller}

theorem rejected_grows (ctl : Controller) (proposal : Proposal) (cause : RejectCause) (nowMs : Nat) (rung : Rung) :
    Grows (ctl.failures rung) ((ctl.rejected proposal cause nowMs).failures rung) := by
  unfold Controller.rejected
  split
  · exact .refl _
  · split
    · split <;> exact .refl _
    · dsimp only
      split
      · exact failureAfter_grows _ _ _ _
      · exact .refl _

theorem rejected_frontier (ctl : Controller) (proposal : Proposal) (cause : RejectCause) (nowMs : Nat) :
    Raises ctl.commonBudgetFrontierMs (ctl.rejected proposal cause nowMs).commonBudgetFrontierMs := by
  unfold Controller.rejected
  split
  · exact .refl _
  · split
    · split <;> exact .refl _
    · split
      · exact raised_raises _ _
      · exact .refl _

/-- The call answered that it committed a proposal for this rung. -/
def Commits (rung : Rung) (call : Call) (reply : Reply) : Prop :=
  reply = .accepted true ∧ ∃ proposal, call.commits = some proposal ∧ proposal.rung = rung

variable {after : Controller} {decision : Decision}

theorem Decides.failures (decides : Decides ctl after decision) : after.failures = ctl.failures := by
  cases decides <;> rfl

theorem Decides.frontier (decides : Decides ctl after decision) :
    after.commonBudgetFrontierMs = ctl.commonBudgetFrontierMs := by
  cases decides <;> rfl

section

variable [Target] {call : Call} {after : Controller} {reply : Reply}

section
variable (effect : Effect ctl call after reply)
include effect

variable {rung : Rung}

theorem Effect.grows (kept : ¬Commits rung call reply) : Grows (ctl.failures rung) (after.failures rung) := by
  cases effect with
  | observed sample rollbackMediaMs nowMs sessionBoundary decides =>
    rw [decides.failures]
    exact .refl _
  | committedCandidate proposal sample variant nowMs pending completed =>
    have other : rung ≠ proposal.rung := fun eq => kept ⟨rfl, proposal, rfl, eq.symm⟩
    obtain ⟨shown, evidence, window, whole⟩ := committedCandidate_eq ctl proposal variant nowMs completed
    rw [whole]
    simp only [Controller.committed, Function.update_of_ne other]
    exact .refl _
  | committed proposal nowMs =>
    have other : rung ≠ proposal.rung := fun eq => kept ⟨rfl, proposal, rfl, eq.symm⟩
    simp only [Controller.committed, Function.update_of_ne other]
    exact .refl _
  | rejected proposal cause nowMs => exact rejected_grows ctl proposal cause nowMs rung
  | attached variant evidenceKbps =>
    obtain ⟨shown, evidence, attached⟩ := observeActiveVariant_eq ctl variant evidenceKbps
    rw [attached]
    exact .refl _
  | _ => exact .refl _

theorem Effect.frontier (kept : ∀ rung, ¬Commits rung call reply) :
    Raises ctl.commonBudgetFrontierMs after.commonBudgetFrontierMs := by
  cases effect with
  | observed sample rollbackMediaMs nowMs sessionBoundary decides =>
    rw [decides.frontier]
    exact .refl _
  | committedCandidate proposal => exact absurd ⟨rfl, proposal, rfl, rfl⟩ (kept proposal.rung)
  | committed proposal => exact absurd ⟨rfl, proposal, rfl, rfl⟩ (kept proposal.rung)
  | rejected proposal cause nowMs => exact rejected_frontier ctl proposal cause nowMs
  | attached variant evidenceKbps =>
    obtain ⟨shown, evidence, attached⟩ := observeActiveVariant_eq ctl variant evidenceKbps
    rw [attached]
    exact .refl _
  | _ => exact .refl _

/-- An upshift for a rung is proposed at a budget, or one is accepted as what the worker armed. -/
def Ventures (call : Call) (after : Controller) (reply : Reply) (rung : Rung) (budgetMs : Int) : Prop :=
  reply = .decided (.prime ⟨rung, .up⟩) ∧ after.pendingExplorationBudgetMs = budgetMs ∨
    call = .setExecutedExplorationBudget ⟨rung, .up⟩ budgetMs ∧ reply = .accepted true

theorem Effect.passed {budgetMs : Int} (ventures : Ventures call after reply rung budgetMs) :
    ctl.commonBudgetBlocks (some budgetMs) = false ∧
      (ctl.failures rung).blocks (some budgetMs) after.delivery = false := by
  rcases ventures with ⟨primed, budget⟩ | ⟨rfl, accepted⟩
  · cases effect with
    | observed sample rollbackMediaMs nowMs sessionBoundary decides =>
      cases decides with
      | stay => cases primed
      | down => cases primed
      | up bufferedMs reason horizon idle known funded common open_ =>
        cases primed
        cases budget
        exact ⟨common, open_⟩
    | _ => cases primed
  · cases effect with
    | armed _ _ pending up positive common open_ => exact ⟨common, open_⟩
    | _ => cases accepted

theorem Effect.pin : after.pin = ctl.pin := by
  cases effect with
  | observed sample rollbackMediaMs nowMs sessionBoundary decides => cases decides <;> rfl
  | committedCandidate proposal sample variant nowMs pending completed =>
    obtain ⟨shown, evidence, window, whole⟩ := committedCandidate_eq ctl proposal variant nowMs completed
    rw [whole]
    rfl
  | rejected proposal cause nowMs =>
    obtain ⟨frontier, failures, recovery, whole⟩ := rejected_eq ctl proposal cause nowMs
    rw [whole]
    rfl
  | attached variant evidenceKbps =>
    obtain ⟨shown, evidence, attached⟩ := observeActiveVariant_eq ctl variant evidenceKbps
    rw [attached]
  | _ => rfl

end

end

section

variable [Target]

abbrev Past := List (Event Controller Call Reply)

/-- No commit of this rung in what happened. -/
def Past.Without (past : Past) (rung : Rung) : Prop := ∀ event ∈ past, ¬Commits rung event.input event.answer

theorem run_unpinned (unpinned : ctl.pin = none) (calls : List Call) :
    (run step ctl calls).pin = none :=
  Transducer.run_invariant step (P := fun ctl => ctl.pin = none)
    (fun _ call unpinned => (step_effect unpinned call).pin.trans unpinned) unpinned calls

variable {calls : List Call}

theorem run_grows (unpinned : ctl.pin = none) {rung : Rung}
    (kept : Past.Without (history step ctl calls) rung) :
    Grows (ctl.failures rung) ((run step ctl calls).failures rung) := by
  induction calls generalizing ctl with
  | nil => exact .refl _
  | cons call rest ih =>
    have effect := step_effect unpinned call
    exact (effect.grows (kept _ (.head _))).trans
      (ih (effect.pin.trans unpinned) fun event inside => kept event (.tail _ inside))

theorem run_frontier (unpinned : ctl.pin = none) (kept : ∀ rung, Past.Without (history step ctl calls) rung) :
    Raises ctl.commonBudgetFrontierMs (run step ctl calls).commonBudgetFrontierMs := by
  induction calls generalizing ctl with
  | nil => exact .refl _
  | cons call rest ih =>
    have effect := step_effect unpinned call
    exact (effect.frontier fun rung => kept rung _ (.head _)).trans
      (ih (effect.pin.trans unpinned) fun rung event inside => kept rung event (.tail _ inside))

omit [Target] in
theorem below_of_free {frontier : Option Int} {budgetMs failedMs : Int}
    (held : ∃ bound, frontier = some bound ∧ failedMs ≤ bound)
    (free : frontier.any (fun failed => (some budgetMs).all (· ≤ failed)) = false) : failedMs < budgetMs := by
  obtain ⟨bound, rfl, le⟩ := held
  simp only [Option.any_some, Option.all_some, decide_eq_false_iff_not, not_le] at free
  exact le.trans_lt free

omit [Target] in
theorem blocks_free {failure : FailureCertificate} {budgetMs : Int} {delivery : CapacityEstimate}
    (free : failure.blocks (some budgetMs) delivery = false) :
    failure.structural = false ∧ failure.completedUnsustainableBlocks delivery = false ∧
      failure.deadlineBudgetMs.any (fun failed => (some budgetMs).all (· ≤ failed)) = false := by
  simpa [FailureCertificate.blocks, and_assoc] using free

omit [Target] in
theorem rejected_up (ctl : Controller) (rung : Rung) {cause : RejectCause} (nowMs : Nat)
    (certifies : cause ≠ .circumstance) :
    ctl.rejected ⟨rung, .up⟩ cause nowMs =
      { ctl.dropped nowMs with
        commonBudgetFrontierMs :=
          if cause = .censored || cause = .responseUnchanged then
            raised ctl.commonBudgetFrontierMs ctl.pendingExplorationBudgetMs
          else ctl.commonBudgetFrontierMs
        failures := fun each =>
          if failed rung cause each then
            failureAfter (ctl.failures each) ctl.pendingExplorationBudgetMs ctl.delivery.fastKbps cause
          else ctl.failures each } := if_neg certifies

/-- A failed upshift is not repeated without new evidence: each cause blocks what it says it
blocks, until the commit that clears it. -/
theorem failures_not_repeated (current : Rung) (prior : Option CapacityEstimate) (catalog : HlsActuatorCatalog)
    (calls : List Call) (rung : Rung) (cause : RejectCause) (nowMs : Nat) (later : List Call) (call : Call)
    (pending : (run step (startingAt current prior catalog) calls).pending = some ⟨rung, .up⟩) :
    let failing := run step (startingAt current prior catalog) calls
    let rejected := (failing.step (.reject ⟨rung, .up⟩ cause nowMs)).1
    let past : Past := history step rejected later
    let before := run step rejected later
    let after := (before.step call).1
    let reply := (before.step call).2
    (cause = .censored ∨ cause = .responseUnchanged → (∀ each, past.Without each) →
      ∀ each budgetMs, Ventures call after reply each budgetMs → failing.pendingExplorationBudgetMs < budgetMs) ∧
    (cause = .candidate → past.Without rung →
      ∀ budgetMs, Ventures call after reply rung budgetMs → failing.pendingExplorationBudgetMs < budgetMs) ∧
    (cause = .completedUnsustainable → past.Without rung →
      ∀ budgetMs, Ventures call after reply rung budgetMs → failing.delivery.fastKbps < after.delivery.conservativeKbps) ∧
    (cause = .structural → past.Without rung → ∀ budgetMs, ¬Ventures call after reply rung budgetMs) ∧
    (cause = .structuralAtOrBelow → ∀ lower ≤ rung, past.Without lower →
      ∀ budgetMs, ¬Ventures call after reply lower budgetMs) ∧
    (cause = .circumstance →
      rejected.failures = failing.failures ∧ rejected.commonBudgetFrontierMs = failing.commonBudgetFrontierMs) ∧
    ((∀ each, ¬Commits each call reply) → Raises before.commonBudgetFrontierMs after.commonBudgetFrontierMs) ∧
    (∀ each, ¬Commits each call reply →
      Raises (before.failures each).deadlineBudgetMs (after.failures each).deadlineBudgetMs) := by
  intro failing rejected past before after reply
  have whole : rejected = failing.rejected ⟨rung, .up⟩ cause nowMs := by
    simp only [rejected, step, reject]
    rw [if_neg (not_not.mpr pending)]
  have unpinned : failing.pin = none := run_unpinned rfl calls
  have rejected_unpinned : rejected.pin = none :=
    (step_effect unpinned (.reject ⟨rung, .up⟩ cause nowMs)).pin.trans unpinned
  have effect : Effect before call after reply := step_effect (run_unpinned rejected_unpinned later) call
  have grown {each : Rung} (kept : past.Without each) : Grows (rejected.failures each) (before.failures each) :=
    run_grows rejected_unpinned kept
  refine ⟨?_, ?_, ?_, ?_, ?_, ?_, effect.frontier, fun each kept => (effect.grows kept).deadline⟩
  · intro unordered kept each budgetMs ventures
    have certifies : cause ≠ .circumstance := by rcases unordered with rfl | rfl <;> decide
    have armed : ∃ bound, rejected.commonBudgetFrontierMs = some bound ∧ failing.pendingExplorationBudgetMs ≤ bound := by
      rw [whole]
      rcases unordered with rfl | rfl <;> exact raised_budget _ _
    obtain ⟨bound, held, le⟩ := armed
    obtain ⟨last, held, le'⟩ := run_frontier rejected_unpinned kept bound held
    exact below_of_free ⟨last, held, le.trans le'⟩ (effect.passed ventures).1
  · rintro rfl kept budgetMs ventures
    rw [rejected_up failing rung nowMs (by decide)] at whole
    have armed : ∃ bound, (rejected.failures rung).deadlineBudgetMs = some bound ∧
        failing.pendingExplorationBudgetMs ≤ bound := by
      rw [whole]
      simpa [failed, failureAfter] using raised_budget _ _
    obtain ⟨bound, held, le⟩ := armed
    obtain ⟨last, held, le'⟩ := (grown kept).deadline bound held
    exact below_of_free ⟨last, held, le.trans le'⟩ (blocks_free (effect.passed ventures).2).2.2
  · rintro rfl kept budgetMs ventures
    rw [rejected_up failing rung nowMs (by decide)] at whole
    have armed : ∃ bound, (rejected.failures rung).completedUnsustainableHlsFastKbps = some bound ∧
        failing.delivery.fastKbps ≤ bound := by
      rw [whole]
      simp [failed, failureAfter]
    obtain ⟨bound, held, le⟩ := armed
    obtain ⟨last, held, le'⟩ := (grown kept).unsustainable bound held
    have free := (blocks_free (effect.passed ventures).2).2.1
    simp only [FailureCertificate.completedUnsustainableBlocks, held, Option.any_some, decide_eq_false_iff_not,
      not_le] at free
    exact (le.trans le').trans_lt free
  · rintro rfl kept budgetMs ventures
    rw [rejected_up failing rung nowMs (by decide)] at whole
    have refused : (rejected.failures rung).structural = true := by
      rw [whole]
      simp [failed, failureAfter]
    have still := (grown kept).structural refused
    rw [(blocks_free (effect.passed ventures).2).1] at still
    cases still
  · rintro rfl lower below kept budgetMs ventures
    rw [rejected_up failing rung nowMs (by decide)] at whole
    have refused : (rejected.failures lower).structural = true := by
      rw [whole]
      simp [failed, failureAfter, below]
    have still := (grown kept).structural refused
    rw [(blocks_free (effect.passed ventures).2).1] at still
    cases still
  · rintro rfl
    rw [whole]
    exact ⟨rfl, rfl⟩

omit [Target] in
theorem failures_not_repeated_censored : letI := armv7
    let failing := run step (startingAt .p480 none measured) [smooth 10000]
    let rejected := (failing.step (.reject ⟨.uhd, .up⟩ .censored 0)).1
    let before := run step rejected []
    ∀ each budgetMs, Ventures (smooth 20000) (before.step (smooth 20000)).1 (before.step (smooth 20000)).2 each budgetMs →
      failing.pendingExplorationBudgetMs < budgetMs := by
  have holds := @failures_not_repeated armv7 .p480 none measured [smooth 10000] .uhd .censored 0 []
    (smooth 20000) (by decide +kernel)
  exact holds.1 (.inl rfl) fun each event inside => (List.not_mem_nil inside).elim

def lines720 : HlsActuatorCatalog :=
  (measured.limitedTo (1280, 720) (0, 0)).withPlantGeometry
    (some ⟨10485760, 1048576, 1000, 1000, by decide, by decide⟩)

omit [Target] in
/-- A commit of the failed rung clears its certificate, and the same upshift comes again at a
conservative rate that never passed the one it failed at. -/
theorem completed_failure_cleared_by_commit : letI := armv7
    ¬∀ (catalog : HlsActuatorCatalog) (calls : List Call) (rung : Rung) (later : List Call) (call : Call) (budgetMs : Int),
      let failing := run step (startingAt .p480 none catalog) calls
      let before := run step (failing.step (.reject ⟨rung, .up⟩ .completedUnsustainable 0)).1 later
      failing.pending = some ⟨rung, .up⟩ →
      Ventures call (before.step call).1 (before.step call).2 rung budgetMs →
      failing.delivery.fastKbps < (before.step call).1.delivery.conservativeKbps := by
  intro all
  let slow : Call := .observe (segment 3000000 10000 true (by decide)) (some 2000) 0 false
  let cut : Call := .observe (segment 500000 10000 false (by decide)) (some 2000) 0 false
  have exceeds := all lines720 [smooth 10000, .reject ⟨.p720, .up⟩ .candidate 0, smooth 10000] .p720Low
    [smooth 20000, .commit ⟨.p720, .up⟩ 0, slow, .commit ⟨.p720Low, .down⟩ 0, cut, .commit ⟨.p240, .down⟩ 0,
      smooth 10000, .reject ⟨.p720, .up⟩ .structural 0] (smooth 10000) 8000 (by decide +kernel)
    (.inl ⟨by decide +kernel, by decide +kernel⟩)
  exact absurd exceeds (by decide +kernel)

end

end Controller

end PlxNative.Abr
