import PlxNative.Abr.ControllerRun

/-! One proposal at a time: it and its reserve policy come and go together, it leads where its
direction says, and a call about any other proposal changes nothing. -/
namespace PlxNative.Abr

open Transducer (run history)

namespace Controller

/-- What the pending proposal says of the rungs. -/
structure Transaction (controller : Controller) : Prop where
  together : controller.pending.isSome = controller.pendingReservePolicy.isSome
  down : ∀ rung, controller.pending = some ⟨rung, .down⟩ → rung < controller.current
  up : ∀ rung, controller.pending = some ⟨rung, .up⟩ →
    controller.catalog.Feasible rung ∧ controller.current ≤ rung
  terminal : controller.pendingReservePolicy = some .terminalFloor →
    ∃ rung, controller.pending = some ⟨rung, .down⟩ ∧ Lowest controller.catalog rung

/-- A rung that is feasible, or below one that is. -/
def Covered (catalog : HlsActuatorCatalog) (rung : Rung) : Prop := ∃ feasible, catalog.Feasible feasible ∧ rung ≤ feasible

theorem Covered.of_feasible {catalog : HlsActuatorCatalog} {rung : Rung} (feasible : catalog.Feasible rung) :
    Covered catalog rung := ⟨rung, feasible, le_rfl⟩

/-- The transaction, and what the state remembers of rungs it may go back to. -/
structure Held (controller : Controller) : Prop extends Transaction controller where
  unpinned : controller.pin = none
  leads : ∀ proposal, controller.pending = some proposal → Covered controller.catalog proposal.rung
  rollback : ∀ rung, controller.rollbackRung = some rung → Covered controller.catalog rung
  recovery : ∀ rung, controller.recoveryTarget = some rung → Covered controller.catalog rung
  shown : controller.activeVariant.isSome → Covered controller.catalog controller.current

theorem startingAt_held (current : Rung) (prior : Option CapacityEstimate) (catalog : HlsActuatorCatalog) :
    Held (startingAt current prior catalog) where
  together := rfl
  down := nofun
  up := nofun
  terminal := nofun
  unpinned := rfl
  leads := nofun
  rollback := nofun
  recovery := nofun
  shown := nofun

theorem Held.idle {ctl : Controller} (pending : ctl.pending = none)
    (policy : ctl.pendingReservePolicy = none) (unpinned : ctl.pin = none)
    (rollback : ∀ rung, ctl.rollbackRung = some rung → Covered ctl.catalog rung)
    (recovery : ∀ rung, ctl.recoveryTarget = some rung → Covered ctl.catalog rung)
    (shown : ctl.activeVariant.isSome → Covered ctl.catalog ctl.current) : Held ctl where
  together := by rw [pending, policy]; rfl
  down := by simp [pending]
  up := by simp [pending]
  terminal := by simp [policy]
  unpinned
  leads := by simp [pending]
  rollback
  recovery
  shown

variable [Target] {ctl : Controller}

theorem Held.estimated (held : Held ctl) (sample : SegmentSample) (rollbackMediaMs : Option Nat) (nowMs : Nat)
    (sessionBoundary : Bool) : Held (ctl.estimated sample rollbackMediaMs nowMs sessionBoundary) where
  together := held.together
  down := held.down
  up := held.up
  terminal := held.terminal
  unpinned := held.unpinned
  leads := held.leads
  rollback := by
    intro rung kept
    simp only [Controller.estimated] at kept
    split at kept
    · cases kept
    · exact held.rollback rung kept
  recovery := by
    intro rung kept
    simp only [Controller.estimated] at kept
    split at kept
    · cases kept
    · exact held.recovery rung kept
  shown := held.shown

omit [Target] in
theorem Covered.top (covered : Covered ctl.catalog ctl.current) (top : ctl.higher = []) :
    ctl.catalog.Feasible ctl.current := by
  obtain ⟨rung, feasible, below⟩ := covered
  rcases below.lt_or_eq with lower | eq
  · obtain ⟨candidate, inside, rfl⟩ := feasible
    have above : candidate ∈ ctl.higher := mem_higher.mpr ⟨inside, lower⟩
    rw [top] at above
    cases above
  · exact eq ▸ feasible

variable {after : Controller}

omit [Target] in
theorem Held.decides (held : Held ctl) {decision : Decision}
    (decides : Decides ctl after decision) : Held after := by
  cases decides with
  | stay reason horizon => exact { held with }
  | down reason horizon idle below known terminal =>
    rename_i target reservePolicy
    have covered : Covered ctl.catalog target := by
      rcases known with feasible | rollback | recovery
      · exact .of_feasible feasible
      · exact held.rollback target rollback
      · exact held.recovery target recovery
    exact
      { held with
        together := rfl
        down := fun rung pending => by cases pending; exact below
        up := nofun
        terminal := fun policy => ⟨target, rfl, terminal (Option.some.inj policy)⟩
        leads := fun proposal pending => by cases pending; exact covered }
  | up bufferedMs reason horizon idle known funded common open_ =>
    rename_i target budgetMs
    have leads : ctl.catalog.Feasible target ∧ ctl.current ≤ target := by
      rcases known with ⟨feasible, above⟩ | ⟨rfl, top, shown⟩
      · exact ⟨feasible, above.le⟩
      · exact ⟨(held.shown shown).top top, le_rfl⟩
    exact
      { held with
        together := rfl
        down := nofun
        up := fun rung pending => by cases pending; exact leads
        terminal := nofun
        leads := fun proposal pending => by cases pending; exact .of_feasible leads.1 }

variable {proposal : Proposal}

omit [Target] in
theorem Held.committed (held : Held ctl) (pending : ctl.pending = some proposal)
    (nowMs : Nat) : Held (ctl.committed proposal nowMs) := by
  refine .idle rfl rfl held.unpinned ?_ nofun fun _ => held.leads proposal pending
  intro rung displaced
  simp only [Controller.committed] at displaced
  split at displaced
  · next raised =>
      cases displaced
      simp only [Bool.and_eq_true, decide_eq_true_eq] at raised
      obtain ⟨feasible, covers, below⟩ := held.leads proposal pending
      exact ⟨feasible, covers, raised.2.le.trans below⟩
  · cases displaced

omit [Target] in
theorem Held.rejected (held : Held ctl) (proposal : Proposal) (cause : RejectCause) (nowMs : Nat) :
    Held (ctl.rejected proposal cause nowMs) := by
  have dropped : Held (ctl.dropped nowMs) :=
    .idle rfl rfl held.unpinned held.rollback held.recovery held.shown
  unfold Controller.rejected
  split
  · exact dropped
  · split
    · split
      · exact dropped
      · refine { dropped with recovery := fun rung recovered => ?_ }
        simp only [Controller.recovered] at recovered
        split at recovered
        · next below =>
            cases recovered
            rcases ctl.recoveryFloor_spec with eq | ⟨lowest, _⟩
            · exact absurd eq below.ne
            · exact .of_feasible lowest.1
        · cases recovered
    · exact { dropped with }


variable {call : Call} {reply : Reply}

theorem Held.effect (held : Held ctl) (transactional : call.Transactional)
    (effect : Effect ctl call after reply) : Held after := by
  cases effect with
  | observed sample rollbackMediaMs nowMs sessionBoundary decides =>
    exact (held.estimated sample rollbackMediaMs nowMs sessionBoundary).decides decides
  | refused => exact held
  | blocked => exact .idle rfl rfl held.unpinned held.rollback held.recovery held.shown
  | armed => exact { held with }
  | resumed => exact { held with }
  | graded => exact held
  | committedCandidate proposal sample variant nowMs pending completed =>
    obtain ⟨shown, evidence, window, whole⟩ :=
      committedCandidate_eq ctl proposal variant nowMs completed
    rw [whole]
    exact { held.committed pending nowMs with shown := fun _ => held.leads proposal pending }
  | committed proposal nowMs pending => exact held.committed pending nowMs
  | rejected proposal cause nowMs => exact held.rejected proposal cause nowMs
  | attached => exact transactional.elim

theorem held_of_run (current : Rung) (prior : Option CapacityEstimate) (catalog : HlsActuatorCatalog) {calls : List Call}
    (transactional : ∀ call ∈ calls, call.Transactional) :
    Held (run Controller.step (startingAt current prior catalog) calls) := by
  induction calls using List.reverseRecOn with
  | nil => exact startingAt_held current prior catalog
  | append_singleton calls call ih =>
    rw [Transducer.run_snoc]
    have before := ih fun each inside => transactional each (List.mem_append_left _ inside)
    exact before.effect (transactional call (List.mem_append_right _ (.head _))) (step_effect before.unpinned call)

theorem step_other (about : call.proposal = some proposal)
    (other : ctl.pending ≠ some proposal) : ctl.step call = (ctl, .accepted false) := by
  cases call <;> cases about <;> simp [Controller.step, Controller.setExecutedExplorationBudget,
    Controller.commitCandidate, Controller.candidateVerdict, Controller.commit, Controller.reject, other]

theorem step_candidate {sample : SegmentSample} {variant : ObservedHlsVariant} (nowMs : Nat)
    (refused : ctl.candidateVerdict sample proposal variant.declaredBps ≠ .ready ∨
      proposal.direction = .up ∧ ctl.activeVariant.any variant.strictlyDominates = false) :
    ctl.step (.commitCandidate proposal sample variant nowMs) = (ctl, .accepted false) := by
  rcases refused with unready | ⟨up, dominated⟩
  · simp [Controller.step, Controller.commitCandidate, unready]
  · simp [Controller.step, Controller.commitCandidate, up, dominated]

/-- What one call may answer, and which one moves the actuator. -/
structure Answers (controller : Controller) (call : Call) : Prop where
  settles : (controller.step call).2 ≠ .panicked
  one : controller.pending.isSome → ∀ proposal, (controller.step call).2 ≠ .decided (.prime proposal)
  other : ∀ proposal, call.proposal = some proposal → controller.pending ≠ some proposal →
    controller.step call = (controller, .accepted false)
  moves : (controller.step call).1.current ≠ controller.current →
    ∃ proposal, call.commits = some proposal ∧ controller.pending = some proposal ∧
      (controller.step call).2 = .accepted true ∧ (controller.step call).1.current = proposal.rung

omit [Target] in
theorem Decides.current {decision : Decision} (decides : Decides ctl after decision) :
    after.current = ctl.current := by
  cases decides <;> rfl

section
variable (effect : Effect ctl call after reply)
include effect

theorem Effect.moves
    (moved : after.current ≠ ctl.current) :
    ∃ proposal, call.commits = some proposal ∧ ctl.pending = some proposal ∧ reply = .accepted true ∧
      after.current = proposal.rung := by
  cases effect with
  | observed sample rollbackMediaMs nowMs sessionBoundary decides => exact absurd decides.current moved
  | refused => exact absurd rfl moved
  | blocked => exact absurd rfl moved
  | armed => exact absurd rfl moved
  | resumed => exact absurd rfl moved
  | graded => exact absurd rfl moved
  | committedCandidate proposal sample variant nowMs pending completed =>
    obtain ⟨shown, evidence, window, whole⟩ := committedCandidate_eq ctl proposal variant nowMs completed
    exact ⟨proposal, rfl, pending, rfl, by rw [whole]; rfl⟩
  | committed proposal nowMs pending => exact ⟨proposal, rfl, pending, rfl, rfl⟩
  | rejected proposal cause nowMs =>
    obtain ⟨frontier, failures, recovery, whole⟩ := rejected_eq ctl proposal cause nowMs
    exact absurd (by rw [whole]; rfl) moved
  | attached variant evidenceKbps =>
    obtain ⟨shown, evidence, attached⟩ := observeActiveVariant_eq ctl variant evidenceKbps
    exact absurd (by rw [attached]) moved

theorem Effect.one
    (pending : ctl.pending.isSome) (proposal : Proposal) : reply ≠ .decided (.prime proposal) := by
  cases effect with
  | observed sample rollbackMediaMs nowMs sessionBoundary decides =>
    have idle {α : Prop} (idle : ctl.pending = none) : α := by simp [idle] at pending
    cases decides with
    | stay => nofun
    | down reason horizon none => exact idle none
    | up bufferedMs reason horizon none => exact idle none
  | _ => nofun

theorem Effect.settles :
    reply ≠ .panicked := by
  cases effect <;> nofun

end

theorem answers (unpinned : ctl.pin = none) (call : Call) : Answers ctl call where
  settles := (step_effect unpinned call).settles
  one pending proposal := (step_effect unpinned call).one pending proposal
  other _ about other := step_other about other
  moves moved := (step_effect unpinned call).moves moved

/-- The invariant of the controller's transactions, over every run of its calls. -/
theorem transactions_hold (current : Rung) (prior : Option CapacityEstimate) (catalog : HlsActuatorCatalog)
    (calls : List Call) (transactional : ∀ call ∈ calls, call.Transactional) :
    let controller := run Controller.step (startingAt current prior catalog) calls
    Transaction controller ∧
    (∀ call : Call, Answers controller call) ∧
    (∀ proposal sample variant nowMs,
      (controller.candidateVerdict sample proposal variant.declaredBps ≠ .ready ∨
        proposal.direction = .up ∧ controller.activeVariant.any variant.strictlyDominates = false) →
      controller.step (.commitCandidate proposal sample variant nowMs) = (controller, .accepted false)) := by
  have held := held_of_run current prior catalog transactional
  exact ⟨held.toTransaction, answers held.unpinned, fun _ _ _ nowMs => step_candidate nowMs⟩

section

/-- Two seconds of media at ten megabits a second. -/
def segment (totalFetchUs : Nat) (bufferedMs : Int) (completed : Bool) (ordered : 400000 ≤ totalFetchUs) : SegmentSample where
  bytes := 500000
  activeFetchUs := 400000
  totalFetchUs
  mediaDurationMs := 2000
  mediaObligationMs := 2000
  buffer := ⟨0, bufferedMs, none, false⟩
  completed
  ordered
  plays := by decide
  obliged := by decide
  carried := fun _ => by decide

/-- A completed segment that took half a second. -/
def smooth (bufferedMs : Int) : Call := .observe (segment 500000 bufferedMs true (by decide)) (some 2000) 0 false

omit [Target] in
theorem transactions_hold_proposed : letI := armv7
    let controller := run Controller.step (startingAt .p480 none HlsActuatorCatalog.measured)
      [smooth 10000]
    controller.pending = some ⟨.uhd, .up⟩ ∧ Transaction controller :=
  letI := armv7
  ⟨by decide, (transactions_hold .p480 none HlsActuatorCatalog.measured [smooth 10000]
    (by simp [smooth, Call.Transactional])).1⟩

end

end Controller

end PlxNative.Abr
