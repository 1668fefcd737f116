import PlxNative.Abr.Controller
import PlxNative.Abr.Episode

/-! What one observation may decide: to stay, to go down, or to go up, with every guard the
decision passed. -/
namespace PlxNative.Abr
open Option

namespace Controller

variable {ctl : Controller}

theorem mem_lower {candidate : HlsCandidate} :
    candidate ∈ ctl.lower ↔ candidate ∈ ctl.catalog.feasible ∧ candidate.rung < ctl.current := by
  simp [lower]

theorem mem_higher {candidate : HlsCandidate} :
    candidate ∈ ctl.higher ↔ candidate ∈ ctl.catalog.feasible ∧ ctl.current < candidate.rung := by
  simp [higher]

/-- The lowest rung a playback may move to. -/
def Lowest (catalog : HlsActuatorCatalog) (rung : Rung) : Prop :=
  catalog.Feasible rung ∧ ∀ other, catalog.Feasible other → rung ≤ other

theorem recoveryFloor_spec (ctl : Controller) :
    ctl.recoveryFloor = ctl.current ∨
      Lowest ctl.catalog ctl.recoveryFloor ∧ ctl.recoveryFloor < ctl.current := by
  unfold recoveryFloor
  cases floor : (ctl.lower.map (·.rung)).min? with
  | none => exact .inl rfl
  | some rung =>
    right
    obtain ⟨inside, least⟩ := List.min?_eq_some_iff.mp floor
    obtain ⟨candidate, low, rfl⟩ := List.mem_map.mp inside
    obtain ⟨feasible, below⟩ := mem_lower.mp low
    refine ⟨⟨⟨candidate, feasible, rfl⟩, ?_⟩, below⟩
    rintro _ ⟨other, other_feasible, rfl⟩
    rcases lt_or_ge other.rung ctl.current with under | over_
    · exact least other.rung (List.mem_map_of_mem (mem_lower.mpr ⟨other_feasible, under⟩))
    · exact (below.trans_le over_).le

theorem completedRecoveryTarget_spec (ctl : Controller) (safeBudgetKbps : Nat) (bufferedMs : Int)
    (moved : ctl.completedRecoveryTarget safeBudgetKbps bufferedMs ≠ ctl.current) :
    ctl.catalog.Feasible (ctl.completedRecoveryTarget safeBudgetKbps bufferedMs) ∧
      ctl.completedRecoveryTarget safeBudgetKbps bufferedMs < ctl.current := by
  unfold completedRecoveryTarget at *
  cases best : maxByKey (fun candidate : HlsCandidate => candidate.expectedWireKbps)
      (ctl.supported safeBudgetKbps bufferedMs) with
  | none =>
    simp only [best] at moved ⊢
    rcases ctl.recoveryFloor_spec with eq | ⟨lowest, below⟩
    · exact absurd eq moved
    · exact ⟨lowest.1, below⟩
  | some candidate =>
    obtain ⟨feasible, below⟩ := mem_lower.mp (List.mem_of_mem_filter (maxByKey_mem best))
    exact ⟨⟨candidate, feasible, rfl⟩, below⟩

section

variable {budgetMs bufferedMs : Int} {target : Rung}

theorem mem_eligible (inside : target ∈ ctl.eligible budgetMs) :
    ctl.catalog.Feasible target ∧ ctl.current < target ∧
      (ctl.failures target).blocks (some budgetMs) ctl.delivery = false := by
  obtain ⟨candidate, kept, rfl⟩ := List.mem_map.mp inside
  obtain ⟨high, open_⟩ := List.mem_filter.mp kept
  obtain ⟨feasible, above⟩ := mem_higher.mp high
  exact ⟨⟨candidate, feasible, rfl⟩, above, by simpa using open_⟩

theorem modeledTarget_mem (found : ctl.modeledTarget budgetMs bufferedMs = some target) :
    target ∈ ctl.eligible budgetMs := by
  obtain ⟨_, _, best⟩ := Option.bind_eq_some_iff.mp found
  exact List.mem_of_mem_filter (List.max?_eq_some_iff.mp best).1

theorem ordinalTarget_mem (found : ctl.ordinalTarget budgetMs = some (some target)) :
    target ∈ ctl.eligible budgetMs := by
  unfold ordinalTarget at found
  split at found
  · cases found
  · simp only [map_eq_some_iff, Option.some.injEq, exists_eq_right] at found
    exact List.mem_of_mem_filter (List.mem_of_getElem? found)

theorem ordinalTarget_isSome (ctl : Controller) (budgetMs : Int) : (ctl.ordinalTarget budgetMs).isSome := by
  unfold ordinalTarget
  split
  · rfl
  · next counted =>
      simp only [Bool.or_eq_true, decide_eq_true_eq] at counted
      simp only [isSome_map, isSome_getElem?]
      omega

theorem laterOf_mem {rungs : List Rung} {first second : Option Rung} (found : laterOf first second = some target)
    (first_mem : ∀ rung, first = some rung → rung ∈ rungs) (second_mem : ∀ rung, second = some rung → rung ∈ rungs) :
    target ∈ rungs := by
  cases first with
  | none => exact second_mem target found
  | some rung => cases second with
    | none => exact first_mem target found
    | some other =>
      have greater : max rung other = target := Option.some.inj found
      rcases max_choice rung other with left | right
      · exact greater ▸ left.symm ▸ first_mem rung rfl
      · exact greater ▸ right.symm ▸ second_mem other rfl

theorem explorationTarget_spec (ctl : Controller) (budgetMs bufferedMs : Int) :
    ∃ target, ctl.explorationTarget budgetMs bufferedMs = some target ∧
      ∀ rung, target = some rung → rung ∈ ctl.eligible budgetMs := by
  obtain ⟨ordinal, found⟩ := Option.isSome_iff_exists.mp (ctl.ordinalTarget_isSome budgetMs)
  simp only [explorationTarget, found]
  refine ⟨_, rfl, fun rung chosen => ?_⟩
  split at chosen
  · exact laterOf_mem chosen (fun _ => modeledTarget_mem) fun other eq => ordinalTarget_mem (eq ▸ found)
  · exact (List.max?_eq_some_iff.mp chosen).1

end

/-- A decision, and the state it leaves of what was estimated. -/
inductive Decides (estimated : Controller) : Controller → Decision → Prop
  | stay (reason : Option HlsReason) (horizon : Option Nat) :
      Decides estimated { estimated with lastReason := reason, lastEmergencyHorizon := horizon } .stay
  | down {target : Rung} {reservePolicy : ReservePolicy} (reason : Option HlsReason) (horizon : Option Nat)
      (idle : estimated.pending = none) (below : target < estimated.current)
      (known : estimated.catalog.Feasible target ∨ estimated.rollbackRung = some target ∨
        estimated.recoveryTarget = some target)
      (terminal : reservePolicy = .terminalFloor → Lowest estimated.catalog target) :
      Decides estimated
        { estimated with
          pending := some ⟨target, .down⟩
          pendingReservePolicy := some reservePolicy
          lastReason := reason
          lastEmergencyHorizon := horizon } (.prime ⟨target, .down⟩)
  | up {target : Rung} {budgetMs : Int} (bufferedMs : Int) (reason : Option HlsReason) (horizon : Option Nat)
      (idle : estimated.pending = none)
      (known : estimated.catalog.Feasible target ∧ estimated.current < target ∨
        target = estimated.current ∧ estimated.higher = [] ∧ estimated.activeVariant.isSome)
      (funded : estimated.explorationBudgetMs bufferedMs = some budgetMs)
      (common : estimated.commonBudgetBlocks (some budgetMs) = false)
      (open_ : (estimated.failures target).blocks (some budgetMs) estimated.delivery = false) :
      Decides estimated
        { estimated with
          pending := some ⟨target, .up⟩
          pendingReservePolicy := some .preserve
          pendingExplorationBudgetMs := budgetMs
          lastReason := reason
          lastEmergencyHorizon := horizon } (.prime ⟨target, .up⟩)

/-- A result that is no panic and decides one of these. -/
def Reaches (result : Option (Controller × Decision)) (estimated : Controller) : Prop :=
  ∃ after decision, result = some (after, decision) ∧ Decides estimated after decision

theorem Reaches.of_cleared {result : Option (Controller × Decision)} {horizon : Option Nat}
    (reaches : Reaches result { ctl with lastEmergencyHorizon := horizon }) : Reaches result ctl := by
  obtain ⟨after, decision, result, decides⟩ := reaches
  refine ⟨after, decision, result, ?_⟩
  cases decides with
  | stay reason horizon => exact .stay reason horizon
  | down reason horizon idle below known terminal => exact .down reason horizon idle below known terminal
  | up bufferedMs reason horizon idle known funded common open_ =>
    exact .up bufferedMs reason horizon idle known funded common open_

theorem staying_reaches (ctl : Controller) (reason : HlsReason) :
    Reaches (some (ctl.staying reason)) ctl :=
  ⟨_, _, rfl, .stay (some reason) ctl.lastEmergencyHorizon⟩

theorem abandonedDecision_reaches (idle : ctl.pending = none) :
    Reaches (some ctl.abandonedDecision) ctl := by
  unfold abandonedDecision
  split
  · next below =>
      refine ⟨_, _, rfl, .down _ ctl.lastEmergencyHorizon idle below ?_ nofun⟩
      unfold abandonedTarget at *
      cases recovery : ctl.recoveryTarget with
      | some target => exact .inr (.inr rfl)
      | none => cases rollback : ctl.rollbackRung with
        | some target => exact .inr (.inl rfl)
        | none =>
          rw [recovery, rollback] at below
          rcases ctl.recoveryFloor_spec with eq | ⟨lowest, _⟩
          · exact absurd eq below.ne
          · exact .inl lowest.1
  · exact ctl.staying_reaches .ladderFloor

theorem recoveryDecision_reaches (idle : ctl.pending = none) (bufferedMs : Int) (survivable : Bool) :
    Reaches (some (ctl.recoveryDecision bufferedMs survivable)) ctl := by
  unfold recoveryDecision
  split
  · exact ctl.staying_reaches .ladderFloor
  · next moved =>
      cases survivable with
      | true =>
        obtain ⟨feasible, below⟩ := ctl.completedRecoveryTarget_spec _ _ moved
        exact ⟨_, _, rfl, .down _ ctl.lastEmergencyHorizon idle below (.inl feasible) nofun⟩
      | false =>
        rcases ctl.recoveryFloor_spec with eq | ⟨lowest, below⟩
        · exact absurd eq moved
        · exact ⟨_, _, rfl, .down _ ctl.lastEmergencyHorizon idle below (.inl lowest.1) fun _ => lowest⟩

section

variable {budgetMs bufferedMs : Int} (idle : ctl.pending = none)
  (funded : ctl.explorationBudgetMs bufferedMs = some budgetMs)
  (common : ctl.commonBudgetBlocks (some budgetMs) = false)

include idle funded common

theorem refreshDecision_reaches (top : ctl.higher = []) :
    Reaches (some (ctl.refreshDecision budgetMs)) ctl := by
  unfold refreshDecision
  split
  · next limited =>
      split
      · next released =>
          simp only [Bool.and_eq_true, Bool.not_eq_true'] at released
          have known : ctl.activeVariant.isSome := by
            unfold activeVariantNeedsRefresh at limited
            cases active : ctl.activeVariant with
            | none => simp [active] at limited
            | some variant => rfl
          exact ⟨_, _, rfl, .up bufferedMs _ ctl.lastEmergencyHorizon idle (.inr ⟨rfl, top, known⟩) funded common
            released.2⟩
      · exact ctl.staying_reaches .responseLimited
  · exact ctl.staying_reaches .atBestRung

omit common in
theorem explorationDecision_reaches : Reaches (ctl.explorationDecision budgetMs bufferedMs) ctl := by
  unfold explorationDecision
  split
  · exact ctl.staying_reaches .rejectBackoff
  · next common =>
      have common : ctl.commonBudgetBlocks (some budgetMs) = false := by simpa using common
      split
      · next top => exact refreshDecision_reaches idle funded common (List.isEmpty_iff.mp top)
      · obtain ⟨target, found, eligible⟩ := ctl.explorationTarget_spec budgetMs bufferedMs
        simp only [found, bind_eq_bind, bind_some]
        cases target with
        | none => exact ctl.staying_reaches .rejectBackoff
        | some target =>
          obtain ⟨feasible, above, open_⟩ := mem_eligible (eligible target rfl)
          dsimp only
          split
          · exact ctl.staying_reaches .switchCost
          · exact ⟨_, _, rfl, .up bufferedMs _ ctl.lastEmergencyHorizon idle (.inl ⟨feasible, above⟩) funded
              common open_⟩

end

theorem admission_isSome {summary : AdmissionSummary} (held : summary.n ≠ 0) (reserveMs : Int) (ordered : Bool) :
    (summary.admission reserveMs ordered).isSome := by
  unfold AdmissionSummary.admission
  rw [if_neg held]
  split
  · rfl
  · split
    · rfl
    · split <;> rfl

theorem judgedDecision_reaches (idle : ctl.pending = none) (held : ctl.acquisitions.summary.n ≠ 0)
    (bufferedMs : Int) : Reaches (ctl.judgedDecision bufferedMs) ctl := by
  obtain ⟨physics, judged⟩ := Option.isSome_iff_exists.mp (admission_isSome held bufferedMs true)
  unfold judgedDecision
  rw [show ctl.acquisitions.observedOrderedAdmission bufferedMs = some physics from judged]
  simp only [bind_eq_bind, bind_some]
  split
  · exact recoveryDecision_reaches idle bufferedMs _
  · split
    · exact ctl.staying_reaches .evidenceWindow
    · next budgetMs funded => exact explorationDecision_reaches idle funded

theorem decision_reaches (unpinned : ctl.pin = none) {sample : SegmentSample} {sessionBoundary : Bool}
    (held : sample.completed = true → sessionBoundary = false → ctl.acquisitions.summary.n ≠ 0) :
    Reaches (ctl.decision sample sessionBoundary) ctl := by
  unfold decision
  split
  · exact ctl.staying_reaches .evidenceWindow
  · next judged =>
      split
      · exact ⟨_, _, rfl, .stay ctl.lastReason ctl.lastEmergencyHorizon⟩
      · next quiet =>
          have idle : ctl.pending = none := by simpa using quiet
          split
          · exact ctl.staying_reaches .reserveUnknown
          · next bufferedMs known =>
              split
              · exact abandonedDecision_reaches idle
              · next completed =>
                  have completed : sample.completed = true := by simpa using completed
                  have ordinary : sessionBoundary = false := by simpa [completed] using judged
                  rw [unpinned]
                  have judged := @judgedDecision_reaches { ctl with lastEmergencyHorizon := none } idle
                    (held completed ordinary) bufferedMs
                  exact judged.of_cleared

end Controller

end PlxNative.Abr
