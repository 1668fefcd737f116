import PlxNative.Abr.Evidence
import PlxNative.Abr.Replay

/-! What an exploration may spend: the reserve above the worst replay of the window and the next
object's duration, so that the picture that plays outlives the experiment. -/
namespace PlxNative.Abr
open AcquisitionWindow

open Transducer (run history)
open Runway (Draw Survives)

namespace Controller

variable [Target] {ctl : Controller} {episode : Samples}

omit [Target] in
theorem ceilMs_covers (us : Int) : us ≤ 1000 * ceilMs us := by
  unfold ceilMs
  split <;> omega

/-- What is left of the reserve, against everything it may still have to pay for. -/
structure Funds (controller : Controller) (episode : Samples) (reserveMs budgetMs : Int) : Prop where
  positive : 0 < budgetMs
  replays : ∀ order : List (Draw Int), order.Perm episode.draws → Survives (1000 * (reserveMs - budgetMs)) order
  next : ∃ nextMs : Nat, controller.rollbackMediaMs = some nextMs ∧ (nextMs : Int) ≤ reserveMs - budgetMs
  sustainable : episode.demandUs ≤ episode.supplyUs

omit [Target] in
theorem explorationBudgetMs_some {reserveMs budgetMs : Int} :
    ctl.explorationBudgetMs reserveMs = some budgetMs ↔
      ∃ admission nextMs, ctl.acquisitions.observedAdmission reserveMs = some admission ∧
        admission.sustainable = true ∧ (ctl.rollbackMediaMs = some nextMs ∧ 0 < nextMs) ∧
        I64.saturated (reserveMs - max (ceilMs admission.runwayUs) nextMs) = budgetMs ∧ 0 < budgetMs := by
  simp only [explorationBudgetMs, Option.bind_eq_bind, Option.bind_eq_some_iff, guard,
    Option.filter_eq_some_iff, decide_eq_true_eq]
  constructor
  · rintro ⟨admission, observed, ⟨⟩, sustainable, nextMs, next, granted⟩
    split at sustainable
    · next sustained =>
        split at granted
        · next positive =>
            cases granted
            exact ⟨admission, nextMs, observed, sustained, next, rfl, positive⟩
        · cases granted
    · cases sustainable
  · rintro ⟨admission, nextMs, observed, sustainable, next, rfl, positive⟩
    exact ⟨admission, observed, (), by simp [sustainable], nextMs, next, if_pos positive⟩

section

variable (summary : ctl.acquisitions.summary = episode.summary) (valid : episode.AllValid)

include summary valid

theorem observedAdmission_sustainable {reserveMs : Int} {admission : Admission}
    (observed : ctl.acquisitions.observedAdmission reserveMs = some admission)
    (sustainable : admission.sustainable = true) :
    admission.runwayUs = Runway.stress episode.draws ∧ episode.demandUs ≤ episode.supplyUs := by
  rw [observedAdmission, summary, Samples.summary_eq valid] at observed
  by_cases fits : episode.Fits
  · rw [Samples.episode_of_fits fits, AdmissionSummary.admission_exact reserveMs valid fits] at observed
    split at observed
    · cases observed
    · cases observed
      exact ⟨rfl, of_decide_eq_true sustainable⟩
  · rw [(refused_episode fits reserveMs false admission observed).1] at sustainable
    cases sustainable

theorem explorationBudgetMs_funds {reserveMs budgetMs : Int}
    (granted : ctl.explorationBudgetMs reserveMs = some budgetMs) :
    Funds ctl episode reserveMs budgetMs := by
  obtain ⟨admission, nextMs, observed, sustained, ⟨next, playable⟩, rfl, positive⟩ := explorationBudgetMs_some.mp granted
  obtain ⟨runway, sustainable⟩ := observedAdmission_sustainable summary valid observed sustained
  have spent := I64.saturated_le_self positive
  have covered := ceilMs_covers admission.runwayUs
  have kept : max (ceilMs admission.runwayUs) nextMs ≤ reserveMs - I64.saturated (reserveMs - max (ceilMs admission.runwayUs) nextMs) := by
    omega
  refine ⟨positive, fun order eq => ?_, ⟨nextMs, next, (le_max_right _ _).trans kept⟩, sustainable⟩
  have sound : ∀ draw ∈ order, draw.Sound := fun draw inside => valid.sound draw (eq.subset inside)
  have worst : Runway.runway order ≤ Runway.stress episode.draws :=
    (Runway.runway_le_stress order).trans_eq (Runway.stress_perm eq)
  exact (Runway.survives_iff sound (by omega)).mpr (by omega)

end

omit [Target] in
theorem admission_reserve {summary : AdmissionSummary} {reserveMs : Int} {ordered : Bool} {admission : Admission}
    (reported : summary.admission reserveMs ordered = some admission) (otherMs : Int) :
    ∃ other, summary.admission otherMs ordered = some other ∧ other.sustainable = admission.sustainable ∧
      other.runwayUs = admission.runwayUs := by
  unfold AdmissionSummary.admission at *
  split at reported
  · cases reported
  · next some_sample =>
      rw [if_neg some_sample]
      split at reported
      · next overflowed =>
          cases reported
          exact ⟨_, if_pos overflowed, rfl, rfl⟩
      · next exact_ =>
          rw [if_neg exact_]
          split at reported
          · next ordered_ =>
              cases reported
              exact ⟨_, if_pos ordered_, rfl, rfl⟩
          · next stressed =>
              rw [if_neg stressed]
              split at reported <;> cases reported <;> exact ⟨_, rfl, rfl, rfl⟩

omit [Target] in
theorem explorationBudgetMs_mono {reserveMs moreMs budgetMs : Int} (more : reserveMs ≤ moreMs)
    (granted : ctl.explorationBudgetMs reserveMs = some budgetMs) :
    ∃ laterMs, ctl.explorationBudgetMs moreMs = some laterMs ∧ budgetMs ≤ laterMs := by
  obtain ⟨admission, nextMs, observed, sustained, next, rfl, positive⟩ := explorationBudgetMs_some.mp granted
  obtain ⟨later, reported, sustainable, runway⟩ := admission_reserve observed moreMs
  have grown : I64.saturated (reserveMs - max (ceilMs admission.runwayUs) nextMs) ≤
      I64.saturated (moreMs - max (ceilMs later.runwayUs) nextMs) := by
    rw [runway]
    exact I64.saturated_mono (Int.sub_le_sub_right more _)
  exact ⟨_, explorationBudgetMs_some.mpr
    ⟨later, nextMs, reported, sustainable.trans sustained, next, rfl, positive.trans_le grown⟩, grown⟩

omit [Target] in
theorem explorationBudgetMs_none (reserveMs : Int)
    (unknown : ctl.acquisitions.summary.overflowed = true ∨ ctl.rollbackMediaMs = none) :
    ctl.explorationBudgetMs reserveMs = none := by
  rw [Option.eq_none_iff_forall_ne_some]
  intro budgetMs granted
  obtain ⟨admission, nextMs, observed, sustained, next, _⟩ := explorationBudgetMs_some.mp granted
  rcases unknown with overflowed | none
  · simp only [observedAdmission, AdmissionSummary.admission] at observed
    split at observed <;> cases observed
    cases sustained
  · rw [none] at next
    cases next.1

/-- An exploration can always be rolled back: in every reachable state, what a budget leaves of
the reserve outlives any order of the point's acquisitions, and the next object. -/
theorem exploration_can_be_rolled_back (current : Rung) (prior : Option CapacityEstimate) (catalog : HlsActuatorCatalog)
    (calls : List Call) :
    let controller := run Controller.step (startingAt current prior catalog) calls
    let past : Past := history Controller.step (startingAt current prior catalog) calls
    controller.acquisitions.summary = past.marks.evidence.summary ∧
    (∀ reserveMs budgetMs, controller.explorationBudgetMs reserveMs = some budgetMs →
      Funds controller past.marks.evidence reserveMs budgetMs) ∧
    (controller.acquisitions.summary.overflowed = true ∨ controller.rollbackMediaMs = none →
      ∀ reserveMs, controller.explorationBudgetMs reserveMs = none) ∧
    (∀ reserveMs moreMs budgetMs, reserveMs ≤ moreMs → controller.explorationBudgetMs reserveMs = some budgetMs →
      ∃ laterMs, controller.explorationBudgetMs moreMs = some laterMs ∧ budgetMs ≤ laterMs) := by
  have evident := run_evident current prior catalog calls
  exact ⟨evident.summary, fun _ _ granted => explorationBudgetMs_funds evident.summary evident.valid granted,
    fun unknown reserveMs => explorationBudgetMs_none reserveMs unknown, fun _ _ _ more => explorationBudgetMs_mono more⟩

end Controller

end PlxNative.Abr
