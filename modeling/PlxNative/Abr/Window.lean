import PlxNative.Lib.Words

/-! The acquisitions of one operating point: a constant-size summary of the whole episode, and
the bounded ring of diagnostics beside it. -/
namespace PlxNative.Abr
open I64

/-- The machine the code is compiled for, as far as it shows here. -/
class Target where
  usizeMax : Nat
  wide : 4294967295 ≤ usizeMax

abbrev armv7 : Target := ⟨4294967295, Nat.le_refl _⟩

structure Acquisition where
  bytes : Nat
  acquisitionUs : Nat
  mediaDurationMs : Int
  overheadUs : Nat

def Acquisition.default : Acquisition := ⟨0, 0, 0, 0⟩

structure Admission where
  sustainable : Bool
  survivable : Bool
  demandUs : Int
  supplyUs : Int
  excessUs : Int
  runwayUs : Int
  samples : Nat

structure AdmissionSummary where
  n : Nat
  sumAcquisitionUs : Int
  sumDurationUs : Int
  deltaUs : Int
  maxPrefixRunwayUs : Int
  positiveSlackSumUs : Int
  maxCappedDeliveryUs : Int
  sampleOverheadMaxUs : Nat
  overflowed : Bool

namespace AdmissionSummary

def default : AdmissionSummary := ⟨0, 0, 0, 0, 0, 0, 0, 0, false⟩

def poisoned (n : Nat) (sampleOverheadMaxUs : Nat) : AdmissionSummary where
  n
  sumAcquisitionUs := largest
  sumDurationUs := largest
  deltaUs := 0
  maxPrefixRunwayUs := largest
  positiveSlackSumUs := largest
  maxCappedDeliveryUs := largest
  sampleOverheadMaxUs
  overflowed := true

def stressRunwayUs (summary : AdmissionSummary) : Option Int :=
  checked (summary.positiveSlackSumUs + summary.maxCappedDeliveryUs)

/-- The summary of one sample, when all of it is representable. -/
def exactSample (sample : Acquisition) : Option AdmissionSummary := do
  let acquisitionUs ← checked sample.acquisitionUs
  let durationUs ← checked (sample.mediaDurationMs * 1000)
  let deltaUs ← checked (acquisitionUs - durationUs)
  let summary : AdmissionSummary :=
    { n := 1
      sumAcquisitionUs := acquisitionUs
      sumDurationUs := durationUs
      deltaUs
      maxPrefixRunwayUs := acquisitionUs
      positiveSlackSumUs := max deltaUs 0
      maxCappedDeliveryUs := min acquisitionUs durationUs
      sampleOverheadMaxUs := sample.overheadUs
      overflowed := false }
  let _ ← summary.stressRunwayUs
  some summary

def fromSample (sample : Acquisition) : AdmissionSummary :=
  (exactSample sample).getD (poisoned 1 sample.overheadUs)

/-- Every sum of two adjacent episodes, unless one of them is not representable. -/
def concatenated (first rhs : AdmissionSummary) (n sampleOverheadMaxUs : Nat) : Option AdmissionSummary := do
  guard (!(first.overflowed || rhs.overflowed))
  let sumAcquisitionUs ← checked (first.sumAcquisitionUs + rhs.sumAcquisitionUs)
  let sumDurationUs ← checked (first.sumDurationUs + rhs.sumDurationUs)
  let deltaUs ← checked (sumAcquisitionUs - sumDurationUs)
  let shiftedRhsRunway ← checked (first.deltaUs + rhs.maxPrefixRunwayUs)
  let positiveSlackSumUs ← checked (first.positiveSlackSumUs + rhs.positiveSlackSumUs)
  let summary : AdmissionSummary :=
    { n
      sumAcquisitionUs
      sumDurationUs
      deltaUs
      maxPrefixRunwayUs := max first.maxPrefixRunwayUs (max shiftedRhsRunway 0)
      positiveSlackSumUs
      maxCappedDeliveryUs := max first.maxCappedDeliveryUs rhs.maxCappedDeliveryUs
      sampleOverheadMaxUs
      overflowed := false }
  let _ ← summary.stressRunwayUs
  some summary

variable {first rhs : AdmissionSummary}

theorem concatenated_overflowed (overflowed : first.overflowed || rhs.overflowed)
    (n sampleOverheadMaxUs : Nat) : concatenated first rhs n sampleOverheadMaxUs = none := by
  simp [concatenated, overflowed]

theorem concatenated_checked (exact : (first.overflowed || rhs.overflowed) = false)
    {acquisitionUs durationUs deltaUs runwayUs slackUs stressUs : Int}
    (acquisition : checked (first.sumAcquisitionUs + rhs.sumAcquisitionUs) = some acquisitionUs)
    (duration : checked (first.sumDurationUs + rhs.sumDurationUs) = some durationUs)
    (delta : checked (acquisitionUs - durationUs) = some deltaUs)
    (runway : checked (first.deltaUs + rhs.maxPrefixRunwayUs) = some runwayUs)
    (slack : checked (first.positiveSlackSumUs + rhs.positiveSlackSumUs) = some slackUs)
    (stress : checked (slackUs + max first.maxCappedDeliveryUs rhs.maxCappedDeliveryUs) = some stressUs)
    (n sampleOverheadMaxUs : Nat) :
    concatenated first rhs n sampleOverheadMaxUs = some
      { n
        sumAcquisitionUs := acquisitionUs
        sumDurationUs := durationUs
        deltaUs
        maxPrefixRunwayUs := max first.maxPrefixRunwayUs (max runwayUs 0)
        positiveSlackSumUs := slackUs
        maxCappedDeliveryUs := max first.maxCappedDeliveryUs rhs.maxCappedDeliveryUs
        sampleOverheadMaxUs
        overflowed := false } := by
  simp [concatenated, exact, acquisition, duration, delta, runway, slack, stressRunwayUs, stress]

def combine [Target] (first rhs : AdmissionSummary) : AdmissionSummary :=
  let sampleOverheadMaxUs := max first.sampleOverheadMaxUs rhs.sampleOverheadMaxUs
  let n := first.n + rhs.n
  if n ≤ Target.usizeMax then
    (concatenated first rhs n sampleOverheadMaxUs).getD (poisoned n sampleOverheadMaxUs)
  else poisoned Target.usizeMax sampleOverheadMaxUs

theorem combine_counted [Target] (counted : first.n + rhs.n ≤ Target.usizeMax) :
    first.combine rhs =
      (concatenated first rhs (first.n + rhs.n) (max first.sampleOverheadMaxUs rhs.sampleOverheadMaxUs)).getD
        (poisoned (first.n + rhs.n) (max first.sampleOverheadMaxUs rhs.sampleOverheadMaxUs)) := if_pos counted

theorem combine_uncounted [Target] (uncounted : ¬first.n + rhs.n ≤ Target.usizeMax) :
    first.combine rhs = poisoned Target.usizeMax (max first.sampleOverheadMaxUs rhs.sampleOverheadMaxUs) :=
  if_neg uncounted

theorem concatenated_n {first rhs summary : AdmissionSummary} {n overhead : Nat}
    (exact : concatenated first rhs n overhead = some summary) : summary.n = n := by
  simp only [concatenated, Option.bind_eq_bind, Option.bind_eq_some_iff, Option.some.injEq] at exact
  obtain ⟨_, _, _, _, _, _, _, _, _, _, _, _, _, _, rfl⟩ := exact
  rfl

theorem combine_n [Target] (first rhs : AdmissionSummary) :
    (first.combine rhs).n = min (first.n + rhs.n) Target.usizeMax := by
  by_cases counted : first.n + rhs.n ≤ Target.usizeMax
  · rw [combine_counted counted, min_eq_left counted]
    cases exact : concatenated first rhs (first.n + rhs.n) (max first.sampleOverheadMaxUs rhs.sampleOverheadMaxUs) with
    | none => rfl
    | some summary => exact concatenated_n exact
  · rw [combine_uncounted counted, min_eq_right (not_le.mp counted).le]
    rfl

theorem fromSample_n (sample : Acquisition) : (fromSample sample).n = 1 := by
  unfold fromSample
  cases exact : exactSample sample with
  | none => rfl
  | some summary =>
    simp only [exactSample, Option.bind_eq_bind, Option.bind_eq_some_iff, Option.some.injEq] at exact
    obtain ⟨_, _, _, _, _, _, _, _, rfl⟩ := exact
    rfl

def conservativeRefusal (summary : AdmissionSummary) : Admission where
  sustainable := false
  survivable := false
  demandUs := largest
  supplyUs := 0
  excessUs := largest
  runwayUs := largest
  samples := summary.n

def verdict (summary : AdmissionSummary) (reserveMs excessUs runwayUs : Int) : Admission where
  sustainable := summary.sumAcquisitionUs ≤ summary.sumDurationUs
  -- a reserve outside the microsecond representation is not permission
  survivable := (checked (reserveMs * 1000)).any (runwayUs ≤ ·)
  demandUs := summary.sumAcquisitionUs
  supplyUs := summary.sumDurationUs
  excessUs
  runwayUs
  samples := summary.n

def admission (summary : AdmissionSummary) (reserveMs : Int) (ordered : Bool) : Option Admission :=
  if summary.n = 0 then none
  else if summary.overflowed then some summary.conservativeRefusal
  else if ordered then some (summary.verdict reserveMs (max summary.deltaUs 0) summary.maxPrefixRunwayUs)
  else match summary.stressRunwayUs with
    | none => some summary.conservativeRefusal
    | some runwayUs => some (summary.verdict reserveMs summary.positiveSlackSumUs runwayUs)

end AdmissionSummary

def windowCapacity : Nat := 64

structure AcquisitionWindow where
  ring : List Acquisition
  len : Nat
  next : Nat
  summary : AdmissionSummary
  resets : Nat

namespace AcquisitionWindow

def default : AcquisitionWindow where
  ring := List.replicate windowCapacity Acquisition.default
  len := 0
  next := 0
  summary := AdmissionSummary.default
  resets := 0

structure Observation where
  bytes : Nat
  acquisitionUs : Nat
  activeUs : Nat
  mediaDurationMs : Int

namespace Observation

def malformed (observation : Observation) : Bool :=
  observation.bytes = 0 || observation.acquisitionUs = 0 || observation.mediaDurationMs ≤ 0

def sample (observation : Observation) : Acquisition where
  bytes := observation.bytes
  acquisitionUs := observation.acquisitionUs
  mediaDurationMs := observation.mediaDurationMs
  overheadUs := observation.acquisitionUs - min observation.activeUs observation.acquisitionUs

end Observation

def observe [Target] (window : AcquisitionWindow) (observation : Observation) : AcquisitionWindow :=
  if observation.malformed then window
  else
    { window with
      summary := window.summary.combine (AdmissionSummary.fromSample observation.sample)
      ring := window.ring.set window.next observation.sample
      next := (window.next + 1) % windowCapacity
      len := min (window.len + 1) windowCapacity }

/-- The counter of resets outlives the reset. -/
def reset (window : AcquisitionWindow) : AcquisitionWindow :=
  { default with resets := min (window.resets + 1) 4294967295 }

theorem observe_held [Target] (window : AcquisitionWindow) {observation : Observation}
    (formed : observation.malformed = false) : (window.observe observation).summary.n ≠ 0 := by
  have wide : 4294967295 ≤ Target.usizeMax := Target.wide
  simp only [observe, formed, Bool.false_eq_true, if_false, AdmissionSummary.combine_n, AdmissionSummary.fromSample_n]
  omega

def worstOverheadUs (window : AcquisitionWindow) : Nat := window.summary.sampleOverheadMaxUs

def observedAdmission (window : AcquisitionWindow) (reserveMs : Int) : Option Admission :=
  window.summary.admission reserveMs false

def observedOrderedAdmission (window : AcquisitionWindow) (reserveMs : Int) : Option Admission :=
  window.summary.admission reserveMs true

def observedRunwayUs (window : AcquisitionWindow) : Option Int :=
  (window.observedAdmission 0).map Admission.runwayUs

end AcquisitionWindow

end PlxNative.Abr
