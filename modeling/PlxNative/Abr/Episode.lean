import PlxNative.Abr.Window
import PlxNative.Lib.Runway
import Mathlib.Algebra.Order.BigOperators.Group.List
import Mathlib.Data.List.Induction

/-! What the summary of an episode is: the sums and the two runways of its samples when they are
representable, and the absorbing refusal when they are not. -/
namespace PlxNative.Abr
open List AdmissionSummary Target I64

open Runway (Draw)

namespace Acquisition

structure Valid (sample : Acquisition) : Prop where
  took : 0 < sample.acquisitionUs
  plays : 0 < sample.mediaDurationMs

/-- In microseconds: the reserve an acquisition takes, and the media it credits. -/
def draw (sample : Acquisition) : Draw Int := ⟨sample.acquisitionUs, sample.mediaDurationMs * 1000⟩

theorem Valid.sound {sample : Acquisition} (valid : sample.Valid) : sample.draw.Sound where
  cost := Int.natCast_nonneg _
  credit := Int.mul_nonneg valid.plays.le (by decide)

end Acquisition

abbrev Samples := List Acquisition

namespace Samples

def draws (samples : Samples) : List (Draw Int) := samples.map Acquisition.draw

def demandUs (samples : Samples) : Int := (samples.draws.map Draw.cost).sum

def supplyUs (samples : Samples) : Int := (samples.draws.map Draw.credit).sum

def overheadUs (samples : Samples) : Nat := (samples.map Acquisition.overheadUs).foldr max 0

def AllValid (samples : Samples) : Prop := ∀ sample ∈ samples, sample.Valid

/-- Every quantity of the episode is representable. -/
def Fits [Target] (samples : Samples) : Prop :=
  samples.length ≤ usizeMax ∧ samples.demandUs ≤ I64.largest ∧ samples.supplyUs ≤ I64.largest

instance [Target] (samples : Samples) : Decidable samples.Fits := inferInstanceAs (Decidable (_ ∧ _ ∧ _))

def exact (samples : Samples) : AdmissionSummary where
  n := samples.length
  sumAcquisitionUs := samples.demandUs
  sumDurationUs := samples.supplyUs
  deltaUs := Runway.excess samples.draws
  maxPrefixRunwayUs := Runway.runway samples.draws
  positiveSlackSumUs := Runway.slack samples.draws
  maxCappedDeliveryUs := Runway.capped samples.draws
  sampleOverheadMaxUs := samples.overheadUs
  overflowed := false

def episode [Target] (samples : Samples) : AdmissionSummary :=
  if samples.Fits then samples.exact
  else poisoned (min samples.length usizeMax) samples.overheadUs

/-- One sample at a time, as the window folds them. -/
def summary [Target] (samples : Samples) : AdmissionSummary :=
  samples.foldl (fun summary sample => summary.combine (fromSample sample)) AdmissionSummary.default

section

theorem draws_append (first rest : Samples) : draws (first ++ rest) = first.draws ++ rest.draws := map_append

theorem demandUs_append (first rest : Samples) :
    demandUs (first ++ rest) = first.demandUs + rest.demandUs := by simp [demandUs, draws_append]

theorem supplyUs_append (first rest : Samples) :
    supplyUs (first ++ rest) = first.supplyUs + rest.supplyUs := by simp [supplyUs, draws_append]

theorem demandUs_single (sample : Acquisition) : demandUs [sample] = sample.acquisitionUs := add_zero _

theorem supplyUs_single (sample : Acquisition) : supplyUs [sample] = sample.mediaDurationMs * 1000 := add_zero _

theorem overheadUs_append (first rest : Samples) :
    overheadUs (first ++ rest) = max first.overheadUs rest.overheadUs := by
  induction first with
  | nil => simp [overheadUs]
  | cons sample samples ih =>
    change max sample.overheadUs (overheadUs (samples ++ rest)) = max (max sample.overheadUs _) _
    rw [ih, max_assoc]
    rfl

theorem AllValid.append {first rest : Samples} (left : first.AllValid) (right : rest.AllValid) :
    AllValid (first ++ rest) := by
  intro sample inside
  rcases mem_append.mp inside with first_one | rest_one
  · exact left sample first_one
  · exact right sample rest_one

variable {samples : Samples} (valid : samples.AllValid)

include valid

theorem AllValid.sound : ∀ draw ∈ samples.draws, draw.Sound := by
  intro draw inside
  obtain ⟨sample, at_samples, rfl⟩ := mem_map.mp inside
  exact (valid sample at_samples).sound

theorem AllValid.demandUs_nonneg : 0 ≤ samples.demandUs := by
  refine sum_nonneg fun cost inside => ?_
  obtain ⟨draw, at_draws, rfl⟩ := mem_map.mp inside
  exact (valid.sound draw at_draws).cost

theorem AllValid.supplyUs_nonneg : 0 ≤ samples.supplyUs := by
  refine sum_nonneg fun credit inside => ?_
  obtain ⟨draw, at_draws, rfl⟩ := mem_map.mp inside
  exact (valid.sound draw at_draws).credit

theorem AllValid.stress_le : Runway.stress samples.draws ≤ samples.demandUs := Runway.stress_le_cost valid.sound

theorem AllValid.runway_le : Runway.runway samples.draws ≤ samples.demandUs :=
  (Runway.runway_le_stress _).trans valid.stress_le

omit valid in
theorem stress_nonneg (samples : Samples) : 0 ≤ Runway.stress samples.draws :=
  add_nonneg (Runway.slack_nonneg _) (Runway.capped_nonneg _)

theorem AllValid.runway_nonneg : 0 ≤ Runway.runway samples.draws := Runway.runway_nonneg valid.sound

end

theorem excess_eq (samples : Samples) : Runway.excess samples.draws = samples.demandUs - samples.supplyUs :=
  Runway.excess_eq _

section

variable {first rest : Samples} (first_valid : first.AllValid) (rest_valid : rest.AllValid)

include first_valid rest_valid in
theorem concatenated_exact (demand_fits : demandUs (first ++ rest) ≤ I64.largest)
    (supply_fits : supplyUs (first ++ rest) ≤ I64.largest) (n overhead : Nat) :
    AdmissionSummary.concatenated first.exact rest.exact n overhead =
      some { exact (first ++ rest) with n, sampleOverheadMaxUs := overhead } := by
  have valid := first_valid.append rest_valid
  have demand := demandUs_append first rest
  have supply := supplyUs_append first rest
  have demand_nonneg := valid.demandUs_nonneg
  have supply_nonneg := valid.supplyUs_nonneg
  have first_demand := first_valid.demandUs_nonneg
  have rest_demand := rest_valid.demandUs_nonneg
  have first_supply := first_valid.supplyUs_nonneg
  have rest_supply := rest_valid.supplyUs_nonneg
  have rest_runway := rest_valid.runway_nonneg
  have first_runway := first_valid.runway_nonneg
  have sound : ∀ draw ∈ first.draws ++ rest.draws, draw.Sound := by
    rw [← draws_append]
    exact valid.sound
  have runway := Runway.runway_append sound
  have slack := Runway.slack_append first.draws rest.draws
  have capped := Runway.capped_append first.draws rest.draws
  rw [← draws_append] at runway slack capped
  have stress : Runway.slack (draws (first ++ rest)) + Runway.capped (draws (first ++ rest)) ≤ _ := valid.stress_le
  have whole_runway := valid.runway_le
  have slack_nonneg := Runway.slack_nonneg (draws (first ++ rest))
  have capped_nonneg := Runway.capped_nonneg (draws (first ++ rest))
  have first_delta := excess_eq first
  have whole_delta := excess_eq (first ++ rest)
  have below : least = -I64.largest - 1 := by decide
  have shifted : Runway.excess first.draws + Runway.runway rest.draws ≤ Runway.runway (draws (first ++ rest)) := by
    rw [runway]
    exact le_max_right _ _
  have concatenated := @AdmissionSummary.concatenated_checked first.exact rest.exact rfl _ _ _ _ _ _
    (checked_eq (n := first.demandUs + rest.demandUs) (by omega) (by omega))
    (checked_eq (n := first.supplyUs + rest.supplyUs) (by omega) (by omega))
    (checked_eq (by omega) (by omega))
    (checked_eq (n := Runway.excess first.draws + Runway.runway rest.draws) (by omega) (by omega))
    (checked_eq (n := Runway.slack first.draws + Runway.slack rest.draws) (by omega) (by omega))
    (checked_eq (n := Runway.slack first.draws + Runway.slack rest.draws +
      max (Runway.capped first.draws) (Runway.capped rest.draws)) (by omega) (by omega)) n overhead
  rw [concatenated]
  have largest : max (Runway.runway first.draws) (max (Runway.excess first.draws + Runway.runway rest.draws) 0) =
      Runway.runway (draws (first ++ rest)) := by omega
  simp only [exact, Option.some.injEq, AdmissionSummary.mk.injEq, true_and, and_true]
  exact ⟨demand.symm, supply.symm, by omega, largest, slack.symm, capped.symm⟩

include first_valid rest_valid in
theorem concatenated_none (too_large : ¬(demandUs (first ++ rest) ≤ I64.largest ∧ supplyUs (first ++ rest) ≤ I64.largest))
    (n overhead : Nat) : AdmissionSummary.concatenated first.exact rest.exact n overhead = none := by
  have demand_nonneg := (first_valid.append rest_valid).demandUs_nonneg
  have below : least ≤ 0 := by decide
  rw [demandUs_append, supplyUs_append] at too_large
  rw [demandUs_append] at demand_nonneg
  by_cases demand_fits : first.demandUs + rest.demandUs ≤ I64.largest
  · have supply_large : I64.largest < first.supplyUs + rest.supplyUs := by omega
    simp [AdmissionSummary.concatenated, exact, guard, checked_eq (below.trans demand_nonneg) demand_fits,
      checked_eq_none supply_large]
  · simp [AdmissionSummary.concatenated, exact, guard, checked_eq_none (not_le.mp demand_fits)]

variable [Target]

include first_valid rest_valid in
theorem Fits.parts (fits : Fits (first ++ rest)) : first.Fits ∧ rest.Fits := by
  have taken := first_valid.demandUs_nonneg
  have credited := first_valid.supplyUs_nonneg
  have taken' := rest_valid.demandUs_nonneg
  have credited' := rest_valid.supplyUs_nonneg
  unfold Fits at *
  rw [length_append, demandUs_append, supplyUs_append] at fits
  omega

theorem episode_of_fits {samples : Samples} (fits : samples.Fits) : samples.episode = samples.exact := if_pos fits

theorem episode_n (samples : Samples) : samples.episode.n = min samples.length usizeMax := by
  unfold episode
  split
  · next fits => exact (min_eq_left fits.1).symm
  · rfl

theorem episode_overheadUs (samples : Samples) : samples.episode.sampleOverheadMaxUs = samples.overheadUs := by
  unfold episode
  split <;> rfl

theorem episode_overflowed (samples : Samples) : samples.episode.overflowed = true ↔ ¬samples.Fits := by
  unfold episode
  split
  · next fits => simp [exact, fits]
  · next too_large => simp [poisoned, too_large]

include first_valid rest_valid in
theorem combine_episode : first.episode.combine rest.episode = episode (first ++ rest) := by
  have overhead := overheadUs_append first rest
  by_cases fits : Fits (first ++ rest)
  · obtain ⟨first_fits, rest_fits⟩ := fits.parts first_valid rest_valid
    have counted : first.exact.n + rest.exact.n ≤ usizeMax := by simpa [exact] using fits.1
    rw [episode_of_fits fits, episode_of_fits first_fits, episode_of_fits rest_fits,
      combine_counted counted, concatenated_exact first_valid rest_valid fits.2.1 fits.2.2]
    simp [exact, overhead]
  · have whole : episode (first ++ rest) = _ := if_neg fits
    have total : min (first ++ rest).length usizeMax =
        min (min first.length usizeMax + min rest.length usizeMax) usizeMax := by
      rw [length_append]
      omega
    rw [whole, total, overhead, ← episode_n, ← episode_n, ← episode_overheadUs, ← episode_overheadUs]
    by_cases counted : first.episode.n + rest.episode.n ≤ usizeMax
    · rw [combine_counted counted, min_eq_left counted]
      have nothing (n overhead : Nat) : AdmissionSummary.concatenated first.episode rest.episode n overhead = none := by
        by_cases parts : first.Fits ∧ rest.Fits
        · rw [episode_n, episode_n, min_eq_left parts.1.1, min_eq_left parts.2.1, ← length_append] at counted
          rw [episode_of_fits parts.1, episode_of_fits parts.2]
          exact concatenated_none first_valid rest_valid (fun sums => fits ⟨counted, sums⟩) n overhead
        · refine concatenated_overflowed ?_ n overhead
          rw [Bool.or_eq_true, episode_overflowed, episode_overflowed]
          exact not_and_or.mp parts
      rw [nothing]
      rfl
    · rw [combine_uncounted counted, min_eq_right (not_le.mp counted).le]

theorem default_eq : AdmissionSummary.default = episode [] :=
  have nothing : Fits [] := ⟨Nat.zero_le _, (by decide : (0 : Int) ≤ _), (by decide : (0 : Int) ≤ _)⟩
  (episode_of_fits nothing).symm

theorem fromSample_eq {sample : Acquisition} (valid : sample.Valid) :
    fromSample sample = episode [sample] := by
  have counted : 1 ≤ usizeMax := (by decide : 1 ≤ 4294967295).trans wide
  have plays := valid.plays
  have below : least = -I64.largest - 1 := by decide
  have fits_iff : Fits [sample] ↔
      (sample.acquisitionUs : Int) ≤ I64.largest ∧ sample.mediaDurationMs * 1000 ≤ I64.largest := by
    rw [Fits, demandUs_single, supplyUs_single]
    exact and_iff_right counted
  have overhead : overheadUs [sample] = sample.overheadUs := max_eq_left (Nat.zero_le _)
  unfold fromSample exactSample episode
  simp only [fits_iff, overhead, length_singleton, min_eq_left counted]
  by_cases acquisition : (sample.acquisitionUs : Int) ≤ I64.largest
  · have acquired := checked_eq (n := (sample.acquisitionUs : Int)) (by omega) acquisition
    by_cases duration : sample.mediaDurationMs * 1000 ≤ I64.largest
    · have played := checked_eq (n := sample.mediaDurationMs * 1000) (by omega) duration
      have delta := checked_eq (n := (sample.acquisitionUs : Int) - sample.mediaDurationMs * 1000)
        (by omega) (by omega)
      -- one sample's stress runway is its acquisition
      have stress := checked_eq (n := max ((sample.acquisitionUs : Int) - sample.mediaDurationMs * 1000) 0 +
        min (sample.acquisitionUs : Int) (sample.mediaDurationMs * 1000)) (by omega) (by omega)
      have runway : (sample.acquisitionUs : Int) = Runway.runway (draws [sample]) := by
        change _ = max (sample.acquisitionUs : Int) (sample.acquisitionUs - sample.mediaDurationMs * 1000 + 0)
        omega
      have capped : min (sample.acquisitionUs : Int) (sample.mediaDurationMs * 1000) =
          Runway.capped (draws [sample]) := by
        change _ = max (min (sample.acquisitionUs : Int) (sample.mediaDurationMs * 1000)) 0
        omega
      have slack : max ((sample.acquisitionUs : Int) - sample.mediaDurationMs * 1000) 0 =
          Runway.slack (draws [sample]) := (add_zero _).symm
      have excess : (sample.acquisitionUs : Int) - sample.mediaDurationMs * 1000 =
          Runway.excess (draws [sample]) := (add_zero _).symm
      rw [if_pos ⟨acquisition, duration⟩]
      simp [acquired, played, delta, stressRunwayUs, stress, exact, demandUs_single, supplyUs_single,
        overhead, ← runway, ← capped, ← slack, ← excess]
    · simp [checked_eq_none (not_le.mp duration), duration]
  · simp [checked_eq_none (not_le.mp acquisition), acquisition]

theorem summary_eq {samples : Samples} (valid : samples.AllValid) : samples.summary = samples.episode := by
  induction samples using List.reverseRecOn with
  | nil => exact default_eq
  | append_singleton samples sample ih =>
    have before : AllValid samples := fun each inside => valid each (mem_append_left _ inside)
    have last : sample.Valid := valid sample (mem_append_right _ (.head _))
    have alone : AllValid [sample] := fun each inside => mem_singleton.mp inside ▸ last
    rw [summary, foldl_append, foldl_cons, foldl_nil, ← summary, ih before, fromSample_eq last,
      combine_episode before alone]

theorem summary_append (left : first.AllValid) (right : rest.AllValid) :
    first.summary.combine rest.summary = summary (first ++ rest) := by
  rw [summary_eq left, summary_eq right, summary_eq (left.append right), combine_episode left right]

end

/-- Chunks of an episode merged in some order of grouping. -/
inductive Grouped where
  | chunk (samples : Samples)
  | merged (left right : Grouped)

namespace Grouped

def samples : Grouped → Samples
  | chunk samples => samples
  | merged left right => left.samples ++ right.samples

def summary [Target] : Grouped → AdmissionSummary
  | chunk samples => samples.summary
  | merged left right => left.summary.combine right.summary

theorem summary_eq [Target] (grouped : Grouped) (valid : AllValid grouped.samples) :
    grouped.summary = Samples.summary grouped.samples := by
  induction grouped with
  | chunk samples => rfl
  | merged left right ihl ihr =>
    have left_valid : AllValid left.samples := fun sample inside => valid sample (mem_append_left _ inside)
    have right_valid : AllValid right.samples := fun sample inside => valid sample (mem_append_right _ inside)
    rw [Grouped.summary, ihl left_valid, ihr right_valid, summary_append left_valid right_valid]
    rfl

end Grouped

/-- Summaries of episodes are a monoid under concatenation, overflow included. -/
theorem summaries_compose [Target] (x y z : Samples) (x_valid : x.AllValid) (y_valid : y.AllValid) (z_valid : z.AllValid) :
    (x.summary.combine y.summary).combine z.summary = x.summary.combine (y.summary.combine z.summary) ∧
    AdmissionSummary.default.combine x.summary = x.summary ∧
    x.summary.combine AdmissionSummary.default = x.summary ∧
    (x.summary.overflowed ∨ y.summary.overflowed → (x.summary.combine y.summary).overflowed) ∧
    x.summary.combine y.summary = summary (x ++ y) ∧
    (∀ first second : Grouped, first.samples = x ++ y ++ z → second.samples = x ++ y ++ z →
      first.summary.overflowed = second.summary.overflowed ∧
      first.summary = second.summary ∧
      ∀ reserveMs ordered, first.summary.admission reserveMs ordered = (summary (x ++ y ++ z)).admission reserveMs ordered) := by
  have merged := summary_append x_valid y_valid
  have empty : AllValid [] := fun _ inside => nomatch inside
  refine ⟨?_, ?_, ?_, ?_, merged, ?_⟩
  · rw [merged, summary_append (x_valid.append y_valid) z_valid, summary_append y_valid z_valid,
      summary_append x_valid (y_valid.append z_valid), append_assoc]
  · exact summary_append empty x_valid
  · have right := summary_append x_valid empty
    rw [append_nil] at right
    exact right
  · intro either
    rw [merged, summary_eq (x_valid.append y_valid), episode_overflowed]
    rw [summary_eq x_valid, summary_eq y_valid, episode_overflowed, episode_overflowed] at either
    intro fits
    have parts := fits.parts x_valid y_valid
    exact either.elim (fun left => left parts.1) fun right => right parts.2
  · intro first second first_same second_same
    have valid : AllValid (x ++ y ++ z) := (x_valid.append y_valid).append z_valid
    have first_whole := first.summary_eq (first_same ▸ valid)
    have second_whole := second.summary_eq (second_same ▸ valid)
    rw [first_same] at first_whole
    rw [second_same] at second_whole
    rw [first_whole, second_whole]
    exact ⟨rfl, rfl, fun _ _ => rfl⟩

theorem summaries_compose_overflowed : letI := armv7
    let long : Acquisition := ⟨1, 6000000000000000000, 1, 0⟩
    ((summary [long]).combine (summary [long])).combine (summary [⟨1, 1, 5, 1⟩]) =
      (summary [long]).combine ((summary [long]).combine (summary [⟨1, 1, 5, 1⟩])) :=
  letI := armv7
  have valid : AllValid [⟨1, 6000000000000000000, 1, 0⟩] := fun sample inside => by
    cases mem_singleton.mp inside
    exact ⟨by decide, by decide⟩
  have short : AllValid [⟨1, 1, 5, 1⟩] := fun sample inside => by
    cases mem_singleton.mp inside
    exact ⟨by decide, by decide⟩
  (summaries_compose _ _ _ valid valid short).1

end Samples

end PlxNative.Abr
