import PlxNative.Abr.Episode

/-! The window's verdicts are the replay of every acquisition since the last reset, whatever the
ring has dropped. -/
namespace PlxNative.Abr
open AdmissionSummary Runway Samples

open Runway (Draw Survives)

theorem AdmissionSummary.admission_exact {samples : Samples} (reserveMs : Int) (valid : samples.AllValid)
    [Target] (fits : samples.Fits) (ordered : Bool) :
    samples.exact.admission reserveMs ordered =
      if samples = [] then none
      else if ordered then
        some (samples.exact.verdict reserveMs (max (excess samples.draws) 0) (Runway.runway samples.draws))
      else some (samples.exact.verdict reserveMs (Runway.slack samples.draws) (Runway.stress samples.draws)) := by
  have stress := valid.stress_le
  have below : I64.least ≤ 0 := by decide
  have slack := slack_nonneg samples.draws
  have capped := capped_nonneg samples.draws
  have checked : samples.exact.stressRunwayUs = some (Runway.stress samples.draws) :=
    I64.checked_eq (below.trans (add_nonneg slack capped)) (stress.trans fits.2.1)
  have counted : samples.exact.n = 0 ↔ samples = [] := List.length_eq_zero_iff
  unfold AdmissionSummary.admission
  simp only [counted, checked]
  rfl

namespace AcquisitionWindow

/-- The samples a list of calls leaves in the episode. -/
def accepted (calls : List Observation) : Samples :=
  (calls.filter fun call => !call.malformed).map Observation.sample

theorem accepted_valid (calls : List Observation) : (accepted calls).AllValid := by
  intro sample inside
  obtain ⟨call, kept, rfl⟩ := List.mem_map.mp inside
  have formed := (List.mem_filter.mp kept).2
  simp only [Observation.malformed, Bool.not_eq_true', Bool.or_eq_false_iff, decide_eq_false_iff_not] at formed
  exact ⟨Nat.pos_of_ne_zero formed.1.2, not_le.mp formed.2⟩

theorem accepted_append (calls later : List Observation) :
    accepted (calls ++ later) = accepted calls ++ accepted later := by simp [accepted]

section

variable [Target]

theorem observe_all_summary (calls : List Observation) (window : AcquisitionWindow) :
    (calls.foldl observe window).summary =
      (accepted calls).foldl (fun summary sample => summary.combine (fromSample sample)) window.summary := by
  induction calls generalizing window with
  | nil => rfl
  | cons call rest ih =>
    rw [List.foldl_cons, ih]
    by_cases malformed : call.malformed = true
    · simp [observe, accepted, malformed]
    · simp [observe, accepted, malformed]

theorem observed_summary (window : AcquisitionWindow) (calls : List Observation) :
    (calls.foldl observe window.reset).summary = (accepted calls).episode := by
  rw [observe_all_summary, ← summary_eq (accepted_valid calls)]
  rfl

end

/-- What one verdict says of an episode, its runway apart. -/
structure Verdict (episode : Samples) (reserveMs : Int) (admission : Admission) : Prop where
  survivable : admission.survivable ↔ admission.runwayUs ≤ 1000 * reserveMs ∧ 1000 * reserveMs ≤ I64.largest
  sustainable : admission.sustainable ↔ episode.demandUs ≤ episode.supplyUs
  samples : admission.samples = episode.length

def Refused (verdict : Option Admission) : Prop :=
  ∀ admission, verdict = some admission → admission.sustainable = false ∧ admission.survivable = false

variable {episode : Samples}

theorem verdict_exact {runwayUs : Int} (reserveMs excessUs : Int) (runway : 0 ≤ runwayUs) :
    Verdict episode reserveMs (episode.exact.verdict reserveMs excessUs runwayUs) where
  survivable := by
    have below : I64.least ≤ 0 := by decide
    simp only [AdmissionSummary.verdict, I64.checked]
    split
    · simp only [Option.any_some, decide_eq_true_eq]
      omega
    · simp only [Option.any_none, Bool.false_eq_true, false_iff]
      omega
  sustainable := decide_eq_true_iff
  samples := rfl

theorem refused_episode [Target] (too_large : ¬episode.Fits) (reserveMs : Int) (ordered : Bool) :
    Refused (episode.episode.admission reserveMs ordered) := by
  intro admission reported
  have overflowed := (episode_overflowed episode).mpr too_large
  simp only [AdmissionSummary.admission] at reported
  split at reported
  · cases reported
  · cases reported
    exact ⟨rfl, rfl⟩

theorem stress_worst (valid : episode.AllValid) (some_sample : episode ≠ []) :
    IsGreatest { boundary | ∃ order : List (Draw Int),
      order.Perm episode.draws ∧ IsLeast { reserve | Survives reserve order } boundary } (Runway.stress episode.draws) := by
  have some_draw : episode.draws ≠ [] := by simpa [draws] using some_sample
  have least {order : List (Draw Int)} (eq : order.Perm episode.draws) :
      IsLeast { reserve | Survives reserve order } (Runway.runway order) :=
    runway_isLeast (fun none => some_draw (List.nil_perm.mp (none ▸ eq)))
      fun draw inside => valid.sound draw (eq.subset inside)
  obtain ⟨⟨worst, eq, reached⟩, bound⟩ := stress_isGreatest valid.sound
  refine ⟨⟨worst, eq, reached ▸ least eq⟩, ?_⟩
  rintro boundary ⟨order, reordered, least_boundary⟩
  exact bound ⟨order, reordered, (least reordered).unique least_boundary⟩

/-- The verdicts are the exact replay of the whole episode, or a refusal until the next reset. -/
theorem admission_is_replay [Target] (window : AcquisitionWindow) (calls : List Observation) (reserveMs : Int) :
    let episode := accepted calls
    let observed := calls.foldl observe window.reset
    (∀ ordered : Bool, (observed.summary.admission reserveMs ordered).isSome ↔ episode ≠ []) ∧
    (episode.Fits →
      (∀ admission, observed.observedOrderedAdmission reserveMs = some admission →
        IsLeast { reserve | Survives reserve episode.draws } admission.runwayUs ∧
        Verdict episode reserveMs admission) ∧
      (∀ admission, observed.observedAdmission reserveMs = some admission →
        IsGreatest { boundary | ∃ order : List (Draw Int),
          order.Perm episode.draws ∧ IsLeast { reserve | Survives reserve order } boundary } admission.runwayUs ∧
        admission.runwayUs = Runway.slack episode.draws + Runway.capped episode.draws ∧
        Verdict episode reserveMs admission)) ∧
    (¬episode.Fits → ∀ later : List Observation,
      Refused ((later.foldl observe observed).observedOrderedAdmission reserveMs) ∧
      Refused ((later.foldl observe observed).observedAdmission reserveMs)) := by
  intro episode observed
  have valid := accepted_valid calls
  have summary : observed.summary = episode.episode := observed_summary window calls
  refine ⟨fun ordered => ?_, fun fits => ?_, fun too_large later => ?_⟩
  · have counted : observed.summary.n = 0 ↔ episode = [] := by
      have wide : 0 < Target.usizeMax := (by decide : 0 < 4294967295).trans_le Target.wide
      rw [summary, episode_n, ← List.length_eq_zero_iff]
      omega
    simp only [AdmissionSummary.admission, counted]
    split
    · next none => simp [none]
    · next some_sample =>
        simp only [ne_eq, some_sample, not_false_eq_true, iff_true]
        repeat' split
        all_goals rfl
  · rw [episode_of_fits fits] at summary
    constructor
    · intro admission reported
      rw [observedOrderedAdmission, summary, admission_exact reserveMs valid fits] at reported
      split at reported
      · cases reported
      · next some_sample =>
          have some_draw : episode.draws ≠ [] := by simpa [draws] using some_sample
          cases reported
          exact ⟨runway_isLeast some_draw valid.sound, verdict_exact _ _ valid.runway_nonneg⟩
    · intro admission reported
      rw [observedAdmission, summary, admission_exact reserveMs valid fits] at reported
      split at reported
      · cases reported
      · next some_sample =>
          cases reported
          exact ⟨stress_worst valid some_sample, rfl, verdict_exact _ _ (stress_nonneg _)⟩
  · have both : accepted (calls ++ later) = episode ++ accepted later := accepted_append calls later
    have still : ¬(accepted (calls ++ later)).Fits := by
      rw [both]
      exact fun fits => too_large (fits.parts valid (accepted_valid later)).1
    have summary_later : (later.foldl observe observed).summary = (accepted (calls ++ later)).episode := by
      rw [← observed_summary window, List.foldl_append]
    rw [observedOrderedAdmission, observedAdmission, summary_later]
    exact ⟨refused_episode still reserveMs true, refused_episode still reserveMs false⟩

/-- A reserve whose microseconds are not representable survives nothing. -/
theorem reserve_beyond_microseconds : letI := armv7
    ¬∀ (calls : List Observation) (reserveMs : Int), I64.least ≤ reserveMs → reserveMs ≤ I64.largest →
      (accepted calls).Fits → ∀ admission,
        (calls.foldl observe default).observedOrderedAdmission reserveMs = some admission →
        (admission.survivable ↔ admission.runwayUs ≤ 1000 * reserveMs) := by
  intro all
  have survives := @all [⟨1, 1000, 1000, 1⟩] I64.largest (by decide) (by decide) (by decide) _ rfl
  exact absurd (survives.mpr (by decide)) (by decide)

end AcquisitionWindow

end PlxNative.Abr
