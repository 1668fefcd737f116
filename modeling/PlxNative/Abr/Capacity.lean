import PlxNative.Abr.Estimate

/-! Whatever is measured, demoted and aged, the capacity estimate lies within what was measured,
and none of its arithmetic leaves the machine's integers. -/
namespace PlxNative.Abr
open List Usize
open Usize (add? mul? sub? div?)

def weightedMean? (old new weight denominator : Nat) : Option Nat :=
  if old = 0 then some new
  else do
    let newWeight := min weight denominator
    let kept ← sub? denominator newWeight
    let past ← mul? old kept
    let present ← mul? new newWeight
    let sum ← add? past present
    let mean ← div? sum denominator
    return min mean u32Max

namespace CapacityEstimate

def relativePm? (slowKbps spread : Nat) : Option Nat :=
  if slowKbps = 0 then some 1000
  else do
    let scaled ← mul? spread 1000
    let share ← div? scaled slowKbps
    return min share 1000

def spreadPm? (slowKbps kbps samples : Nat) : Option Nat := do
  let relative ← relativePm? slowKbps (max kbps slowKbps - min kbps slowKbps)
  let uncertainty := max relative (if samples = 1 then 300 else 200)
  if kbps < slowKbps then
    let downside ← sub? slowKbps kbps
    let share ← div? (min (downside * 2000) u32Max) (max slowKbps 1)
    return max uncertainty (min share 800)
  else return uncertainty

/-- The same update, unless a number of it leaves its type. -/
def update? (estimate : CapacityEstimate) (observation : CapacityObservation) : Option CapacityEstimate :=
  if !observation.completed then some estimate
  else if 0 < estimate.samples && observation.isRegimeChange estimate then
    some { fromPrior observation.kbps with samples := 1 }
  else do
    let slowKbps ← weightedMean? estimate.slowKbps observation.kbps observation.weight 8
    let fastKbps ← weightedMean? estimate.fastKbps observation.kbps (min observation.weight 2) 4
    let samples := min (estimate.samples + 1) u32Max
    if estimate.samples = 0 then return ⟨observation.kbps, observation.kbps, maxUncertaintyPm, samples⟩
    else
      let uncertaintyPm ← spreadPm? slowKbps observation.kbps estimate.samples
      return ⟨fastKbps, slowKbps, uncertaintyPm, samples⟩

def conservativeKbps? (estimate : CapacityEstimate) : Option Nat := do
  let scaled ← mul? estimate.slowKbps (1000 - min estimate.uncertaintyPm 500)
  let share ← div? scaled 1000
  return min share u32Max

def collapse? (estimate : CapacityEstimate) (measuredKbps : Nat) : Option CapacityEstimate := do
  let quarter ← div? estimate.slowKbps 4
  let dropped :=
    if 0 < estimate.fastKbps && min (measuredKbps * 4) u32Max < estimate.fastKbps then
      { estimate with slowKbps := max measuredKbps quarter, uncertaintyPm := 400 }
    else estimate
  return { dropped with fastKbps := measuredKbps }

def ageMs? (estimate : CapacityEstimate) (elapsedMs : Nat) (policy : AbrPolicy) : Option CapacityEstimate :=
  let halfLife := max policy.staleHalfLifeMs 1
  if estimate.samples = 0 || elapsedMs < halfLife then some estimate
  else if min (halfLife * 4) u64Max ≤ elapsedMs then some estimate.demoteToPrior
  else do
    let lives ← div? elapsedMs halfLife
    let halvings := min (min lives u32Max) 16
    let narrowed ← if halvings < 32 then some (maxUncertaintyPm / 2 ^ halvings) else none
    let widened ← sub? maxUncertaintyPm narrowed
    return { estimate with uncertaintyPm := max estimate.uncertaintyPm widened }

end CapacityEstimate
open CapacityEstimate

/-- What is done to an estimate; a collapse is followed by the update of the observation it is of. -/
inductive Measure where
  | update (kbps : UInt32) (bytes activeUs : UInt64) (completed : Bool)
  | collapse (kbps : UInt32) (bytes activeUs : UInt64)
  | demoteToPrior
  | age (elapsedMs : UInt64) (policy : AbrPolicy)

namespace Measure

def observed (kbps : UInt32) (bytes activeUs : UInt64) (completed : Bool) : CapacityObservation :=
  ⟨kbps.toNat, bytes.toNat, activeUs.toNat, completed⟩

def step (estimate : CapacityEstimate) : Measure → CapacityEstimate
  | update kbps bytes activeUs completed => estimate.update (observed kbps bytes activeUs completed)
  | collapse kbps bytes activeUs => (estimate.collapse kbps.toNat).update (observed kbps bytes activeUs true)
  | demoteToPrior => estimate.demoteToPrior
  | age elapsedMs policy => estimate.ageMs elapsedMs.toNat policy

def step? (estimate : CapacityEstimate) : Measure → Option CapacityEstimate
  | update kbps bytes activeUs completed => estimate.update? (observed kbps bytes activeUs completed)
  | collapse kbps bytes activeUs => (estimate.collapse? kbps.toNat).bind (·.update? (observed kbps bytes activeUs true))
  | demoteToPrior => some estimate.demoteToPrior
  | age elapsedMs policy => estimate.ageMs? elapsedMs.toNat policy

def rate? : Measure → Option Nat
  | update kbps _ _ completed => if completed then some kbps.toNat else none
  | collapse kbps _ _ => some kbps.toNat
  | demoteToPrior => none
  | age _ _ => none

def rates (measures : List Measure) : List Nat := measures.filterMap rate?

def run (measures : List Measure) : CapacityEstimate := measures.foldl step CapacityEstimate.default

def run? (measures : List Measure) : Option CapacityEstimate := measures.foldlM step? CapacityEstimate.default

end Measure

section
variable {old new denominator : Nat}

theorem weightedMean_between (weight : Nat) {a b : Nat} (positive : 0 < denominator) (first : a ≤ old ∧ old ≤ b) (second : a ≤ new ∧ new ≤ b)
    (small : old ≤ u32Max) : a ≤ weightedMean old new weight denominator ∧ weightedMean old new weight denominator ≤ b := by
  unfold weightedMean
  by_cases none_ : old = 0
  · rw [if_pos none_]
    exact second
  · rw [if_neg none_]
    have part_ : min weight denominator ≤ denominator := Nat.min_le_right ..
    generalize min weight denominator = share at part_
    obtain ⟨kept, whole⟩ := Nat.exists_eq_add_of_le part_
    have low : a * denominator ≤ old * (denominator - share) + new * share := by
      have one := Nat.mul_le_mul_right kept first.1
      have two := Nat.mul_le_mul_right share second.1
      have rest : denominator - share = kept := by omega
      rw [rest, whole, Nat.mul_add]
      omega
    have high : old * (denominator - share) + new * share ≤ b * denominator := by
      have one := Nat.mul_le_mul_right kept first.2
      have two := Nat.mul_le_mul_right share second.2
      have rest : denominator - share = kept := by omega
      rw [rest, whole, Nat.mul_add]
      omega
    have above : a ≤ (old * (denominator - share) + new * share) / denominator := (Nat.le_div_iff_mul_le positive).mpr low
    have below : (old * (denominator - share) + new * share) / denominator ≤ b := Nat.div_le_of_le_mul (by rw [Nat.mul_comm denominator b]; exact high)
    exact ⟨le_min above (first.1.trans small), (min_le_left _ _).trans below⟩

theorem weightedMean?_eq (weight : Nat) (positive : 0 < denominator) (few : denominator ≤ 8) (first : old ≤ u32Max) (second : new ≤ u32Max) :
    weightedMean? old new weight denominator = some (weightedMean old new weight denominator) := by
  unfold weightedMean? weightedMean
  by_cases none_ : old = 0
  · rw [if_pos none_, if_pos none_]
  · rw [if_neg none_, if_neg none_]
    have part_ : min weight denominator ≤ denominator := Nat.min_le_right ..
    generalize min weight denominator = share at part_
    have sizeIs : size = 18446744073709551616 := rfl
    have mostIs : u32Max = 4294967295 := rfl
    have past : old * (denominator - share) ≤ u32Max * 8 := Nat.mul_le_mul first (by omega)
    have present : new * share ≤ u32Max * 8 := Nat.mul_le_mul second (by omega)
    simp only [Usize.sub?_eq part_, Usize.mul?_eq (show old * (denominator - share) < size by omega),
      Usize.mul?_eq (show new * share < size by omega),
      Usize.add?_eq (show old * (denominator - share) + new * share < size by omega), Usize.div?_eq positive,
      Option.bind_eq_bind, Option.bind_some, Option.pure_def]

end
open Measure (observed rates run run?)

section
variable {estimate : CapacityEstimate} {rates : List Nat}

/-- The estimate lies within every bound of the rates measured. -/
structure Measured (rates : List Nat) (estimate : CapacityEstimate) : Prop where
  some_ : 0 < estimate.samples → rates ≠ []
  slow : 0 < estimate.samples → ∀ a b, (∀ r ∈ rates, a ≤ r ∧ r ≤ b) → a ≤ estimate.slowKbps ∧ estimate.slowKbps ≤ b
  fast : 0 < estimate.samples → ∀ a b, (∀ r ∈ rates, a ≤ r ∧ r ≤ b) → a ≤ estimate.fastKbps ∧ estimate.fastKbps ≤ b
  slowFits : estimate.slowKbps ≤ u32Max
  fastFits : estimate.fastKbps ≤ u32Max

theorem Measured.default : Measured [] CapacityEstimate.default :=
  ⟨fun none_ => absurd none_ (Nat.lt_irrefl 0), fun none_ => absurd none_ (Nat.lt_irrefl 0), fun none_ => absurd none_ (Nat.lt_irrefl 0),
    Nat.zero_le _, Nat.zero_le _⟩

section
variable (measured : Measured rates estimate)
include measured

theorem Measured.update (observation : CapacityObservation) (completed : observation.completed = true)
    (fits : observation.kbps ≤ u32Max) : Measured (rates ++ [observation.kbps]) (estimate.update observation) := by
  have last : observation.kbps ∈ rates ++ [observation.kbps] := mem_append_right _ (mem_singleton_self _)
  have some_ : rates ++ [observation.kbps] ≠ [] := append_ne_nil_of_right_ne_nil _ (cons_ne_nil _ _)
  have alone : ∀ e : CapacityEstimate, e.slowKbps = observation.kbps → e.fastKbps = observation.kbps →
      Measured (rates ++ [observation.kbps]) e := by
    intro e slow fast
    refine ⟨fun _ => some_, ?_, ?_, by rw [slow]; exact fits, by rw [fast]; exact fits⟩
    · intro _ a b bounds
      rw [slow]
      exact bounds _ last
    · intro _ a b bounds
      rw [fast]
      exact bounds _ last
  unfold CapacityEstimate.update
  rw [completed]
  simp only [Bool.not_true, Bool.false_eq_true, if_false]
  split
  · exact alone _ rfl rfl
  · split
    · exact alone _ rfl rfl
    · rename_i started
      have positive : 0 < estimate.samples := Nat.pos_of_ne_zero started
      have before : ∀ a b, (∀ r ∈ rates ++ [observation.kbps], a ≤ r ∧ r ≤ b) → ∀ r ∈ rates, a ≤ r ∧ r ≤ b :=
        fun a b bounds r mem => bounds r (mem_append_left _ mem)
      have slow : ∀ a b, (a ≤ estimate.slowKbps ∧ estimate.slowKbps ≤ b) → a ≤ observation.kbps ∧ observation.kbps ≤ b →
          a ≤ weightedMean estimate.slowKbps observation.kbps observation.weight 8 ∧
            weightedMean estimate.slowKbps observation.kbps observation.weight 8 ≤ b :=
        fun a b first second => weightedMean_between _ (by decide) first second measured.slowFits
      have fast : ∀ a b, (a ≤ estimate.fastKbps ∧ estimate.fastKbps ≤ b) → a ≤ observation.kbps ∧ observation.kbps ≤ b →
          a ≤ weightedMean estimate.fastKbps observation.kbps (min observation.weight 2) 4 ∧
            weightedMean estimate.fastKbps observation.kbps (min observation.weight 2) 4 ≤ b :=
        fun a b first second => weightedMean_between _ (by decide) first second measured.fastFits
      refine ⟨fun _ => some_, ?_, ?_, ?_, ?_⟩
      · exact fun _ a b bounds => slow a b (measured.slow positive a b (before a b bounds)) (bounds _ last)
      · exact fun _ a b bounds => fast a b (measured.fast positive a b (before a b bounds)) (bounds _ last)
      · exact (slow 0 u32Max ⟨Nat.zero_le _, measured.slowFits⟩ ⟨Nat.zero_le _, fits⟩).2
      · exact (fast 0 u32Max ⟨Nat.zero_le _, measured.fastFits⟩ ⟨Nat.zero_le _, fits⟩).2

theorem Measured.congr {other : List Nat} (eq : ∀ r, r ∈ rates ↔ r ∈ other) :
    Measured other estimate := by
  have bounds : ∀ {a b : Nat}, (∀ r ∈ other, a ≤ r ∧ r ≤ b) → ∀ r ∈ rates, a ≤ r ∧ r ≤ b :=
    fun all r mem => all r ((eq r).mp mem)
  refine ⟨?_, fun positive a b all => measured.slow positive a b (bounds all),
    fun positive a b all => measured.fast positive a b (bounds all), measured.slowFits, measured.fastFits⟩
  intro positive empty
  obtain ⟨r, mem⟩ := exists_mem_of_ne_nil rates (measured.some_ positive)
  have inside := (eq r).mp mem
  rw [empty] at inside
  cases inside

theorem Measured.collapse {kbps : Nat} (fits : kbps ≤ u32Max) :
    Measured (rates ++ [kbps]) (estimate.collapse kbps) := by
  have last : kbps ∈ rates ++ [kbps] := mem_append_right _ (mem_singleton_self _)
  have before : ∀ a b, (∀ r ∈ rates ++ [kbps], a ≤ r ∧ r ≤ b) → ∀ r ∈ rates, a ≤ r ∧ r ≤ b :=
    fun a b bounds r mem => bounds r (mem_append_left _ mem)
  have quarter : estimate.slowKbps / 4 ≤ estimate.slowKbps := Nat.div_le_self ..
  have some_ : rates ++ [kbps] ≠ [] := append_ne_nil_of_right_ne_nil _ (cons_ne_nil _ _)
  have slowFits := measured.slowFits
  unfold CapacityEstimate.collapse
  split
  · refine ⟨fun _ => some_, ?_, fun _ a b bounds => bounds _ last, max_le fits (quarter.trans slowFits), fits⟩
    intro positive a b bounds
    have within := measured.slow positive a b (before a b bounds)
    have now := bounds _ last
    exact ⟨now.1.trans (le_max_left ..), max_le now.2 (quarter.trans within.2)⟩
  · refine ⟨fun _ => some_, ?_, fun _ a b bounds => bounds _ last, slowFits, fits⟩
    exact fun positive a b bounds => measured.slow positive a b (before a b bounds)

theorem Measured.demoteToPrior : Measured rates estimate.demoteToPrior := by
  unfold CapacityEstimate.demoteToPrior
  split
  · exact measured
  · rename_i started
    have positive : 0 < estimate.samples := Nat.pos_of_ne_zero started
    exact ⟨fun _ => measured.some_ positive, fun _ => measured.slow positive, fun _ => measured.slow positive,
      measured.slowFits, measured.slowFits⟩

theorem Measured.ageMs (elapsedMs : Nat) (policy : AbrPolicy) :
    Measured rates (estimate.ageMs elapsedMs policy) := by
  unfold CapacityEstimate.ageMs
  simp only
  split
  · exact measured
  · split
    · exact measured.demoteToPrior
    · exact ⟨measured.some_, measured.slow, measured.fast, measured.slowFits, measured.fastFits⟩

end

theorem u32_fits (n : UInt32) : n.toNat ≤ u32Max := Nat.le_of_lt_succ n.toNat_lt

theorem Measured.step (measured : Measured rates estimate) (measure : Measure) :
    Measured (rates ++ measure.rate?.toList) (measure.step estimate) := by
  cases measure with
  | update kbps bytes activeUs completed =>
    cases completed with
    | true => exact measured.update (observed kbps bytes activeUs true) rfl (u32_fits kbps)
    | false =>
      change Measured (rates ++ []) estimate
      rw [append_nil]
      exact measured
  | collapse kbps bytes activeUs =>
    have updated := (measured.collapse (u32_fits kbps)).update (observed kbps bytes activeUs true) rfl (u32_fits kbps)
    apply updated.congr
    intro r
    change r ∈ rates ++ [kbps.toNat] ++ [kbps.toNat] ↔ r ∈ rates ++ [kbps.toNat]
    simp
  | demoteToPrior =>
    change Measured (rates ++ []) _
    rw [append_nil]
    exact measured.demoteToPrior
  | age elapsedMs policy =>
    change Measured (rates ++ []) _
    rw [append_nil]
    exact measured.ageMs elapsedMs.toNat policy

end
section
variable {estimate : CapacityEstimate}

theorem spreadPm?_eq {slowKbps kbps samples : Nat} (first : slowKbps ≤ u32Max) (second : kbps ≤ u32Max) :
    spreadPm? slowKbps kbps samples = some (spreadPm slowKbps kbps samples) := by
  have sizeIs : size = 18446744073709551616 := rfl
  have mostIs : u32Max = 4294967295 := rfl
  have scaled := Usize.mul?_eq (show (max kbps slowKbps - min kbps slowKbps) * 1000 < size by omega)
  have downside : ∀ uncertainty, (if kbps < slowKbps then do
      let downside ← sub? slowKbps kbps
      let share ← div? (min (downside * 2000) u32Max) (max slowKbps 1)
      return max uncertainty (min share 800)
    else some uncertainty) = some (if kbps < slowKbps then
      max uncertainty (min (min ((slowKbps - kbps) * 2000) u32Max / max slowKbps 1) 800) else uncertainty) := by
    intro uncertainty
    by_cases below : kbps < slowKbps
    · rw [if_pos below, if_pos below, Usize.sub?_eq below.le, Option.bind_eq_bind, Option.bind_some,
        Usize.div?_eq (lt_of_lt_of_le Nat.zero_lt_one (le_max_right ..))]
      rfl
    · rw [if_neg below, if_neg below]
  have relative : relativePm? slowKbps (max kbps slowKbps - min kbps slowKbps) =
      some (if slowKbps = 0 then 1000 else min ((max kbps slowKbps - min kbps slowKbps) * 1000 / slowKbps) 1000) := by
    unfold relativePm?
    by_cases started : slowKbps = 0
    · rw [if_pos started, if_pos started]
    · rw [if_neg started, if_neg started, scaled, Option.bind_eq_bind, Option.bind_some, Usize.div?_eq (Nat.pos_of_ne_zero started)]
      rfl
  unfold spreadPm? spreadPm
  rw [relative, Option.bind_eq_bind, Option.bind_some]
  exact downside _

theorem update?_eq {observation : CapacityObservation} (slow : estimate.slowKbps ≤ u32Max) (fast : estimate.fastKbps ≤ u32Max)
    (fits : observation.kbps ≤ u32Max) : estimate.update? observation = some (estimate.update observation) := by
  have mean := weightedMean?_eq observation.weight (show 0 < 8 by decide) (Nat.le_refl 8) slow fits
  have swift := weightedMean?_eq (min observation.weight 2) (show 0 < 4 by decide) (by decide) fast fits
  have small := (weightedMean_between observation.weight (show 0 < 8 by decide) ⟨Nat.zero_le _, slow⟩
    ⟨Nat.zero_le _, fits⟩ slow).2
  unfold update? update
  split
  · rfl
  · split
    · rfl
    · rw [mean, swift]
      simp only [Option.bind_eq_bind, Option.bind_some]
      split
      · rfl
      · rw [spreadPm?_eq small fits]
        rfl

theorem conservativeKbps?_eq (slow : estimate.slowKbps ≤ u32Max) :
    estimate.conservativeKbps? = some estimate.conservativeKbps := by
  have sizeIs : size = 18446744073709551616 := rfl
  have mostIs : u32Max = 4294967295 := rfl
  have product : estimate.slowKbps * (1000 - min estimate.uncertaintyPm 500) ≤ u32Max * 1000 := Nat.mul_le_mul slow (Nat.sub_le ..)
  unfold conservativeKbps?
  rw [Usize.mul?_eq (by omega)]
  rfl

theorem collapse?_eq (kbps : Nat) : estimate.collapse? kbps = some (estimate.collapse kbps) := by
  unfold collapse?
  rfl

theorem ageMs?_eq (elapsedMs : Nat) (policy : AbrPolicy) : estimate.ageMs? elapsedMs policy = some (estimate.ageMs elapsedMs policy) := by
  have positive : 0 < max policy.staleHalfLifeMs 1 := lt_of_lt_of_le Nat.zero_lt_one (le_max_right ..)
  unfold ageMs? ageMs
  simp only
  split
  · rfl
  · split
    · rfl
    · have halvings : min (min (elapsedMs / max policy.staleHalfLifeMs 1) u32Max) 16 < 32 :=
        lt_of_le_of_lt (min_le_right ..) (by decide)
      rw [Usize.div?_eq positive]
      simp only [Option.bind_eq_bind, Option.bind_some, if_pos halvings]
      rw [Usize.sub?_eq (Nat.div_le_self ..)]
      rfl

theorem step?_eq {rates : List Nat} (measured : Measured rates estimate) (measure : Measure) :
    measure.step? estimate = some (measure.step estimate) := by
  cases measure with
  | update kbps bytes activeUs completed => exact update?_eq measured.slowFits measured.fastFits (u32_fits kbps)
  | collapse kbps bytes activeUs =>
    have collapsed := measured.collapse (u32_fits kbps)
    rw [Measure.step?, collapse?_eq, Option.bind_some]
    exact update?_eq collapsed.slowFits collapsed.fastFits (u32_fits kbps)
  | demoteToPrior => rfl
  | age elapsedMs policy => exact ageMs?_eq elapsedMs.toNat policy

end
section
variable {estimate other : CapacityEstimate}

theorem conservative_between (slow : estimate.slowKbps ≤ u32Max) :
    estimate.slowKbps / 2 ≤ estimate.conservativeKbps ∧ estimate.conservativeKbps ≤ estimate.slowKbps := by
  have half : 1000 - 500 ≤ 1000 - min estimate.uncertaintyPm 500 := Nat.sub_le_sub_left (min_le_right ..) 1000
  have whole : 1000 - min estimate.uncertaintyPm 500 ≤ 1000 := Nat.sub_le ..
  have low := Nat.mul_le_mul_left estimate.slowKbps half
  have high := Nat.mul_le_mul_left estimate.slowKbps whole
  have twice := Nat.div_mul_le_self estimate.slowKbps 2
  have above : estimate.slowKbps / 2 ≤ estimate.slowKbps * (1000 - min estimate.uncertaintyPm 500) / 1000 := by
    apply (Nat.le_div_iff_mul_le (Nat.zero_lt_succ 999)).mpr
    calc estimate.slowKbps / 2 * 1000 = estimate.slowKbps / 2 * 2 * 500 := by rw [Nat.mul_assoc]
      _ ≤ estimate.slowKbps * 500 := Nat.mul_le_mul_right 500 twice
      _ ≤ estimate.slowKbps * (1000 - min estimate.uncertaintyPm 500) := low
  have below : estimate.slowKbps * (1000 - min estimate.uncertaintyPm 500) / 1000 ≤ estimate.slowKbps := by
    apply Nat.div_le_of_le_mul
    rw [Nat.mul_comm 1000]
    exact high
  exact ⟨le_min above ((Nat.div_le_self ..).trans slow), (min_le_left ..).trans below⟩

theorem conservative_antitone (slow : other.slowKbps = estimate.slowKbps) (more : estimate.uncertaintyPm ≤ other.uncertaintyPm) :
    other.conservativeKbps ≤ estimate.conservativeKbps := by
  unfold conservativeKbps
  rw [slow]
  apply min_le_min_right
  apply Nat.div_le_div_right
  apply Nat.mul_le_mul_left
  omega

theorem demoteToPrior_conservative (estimate : CapacityEstimate) : estimate.demoteToPrior.conservativeKbps ≤ estimate.conservativeKbps := by
  unfold demoteToPrior
  split
  · exact le_rfl
  · exact conservative_antitone rfl (le_max_left ..)

theorem ageMs_conservative (estimate : CapacityEstimate) (elapsedMs : Nat) (policy : AbrPolicy) :
    (estimate.ageMs elapsedMs policy).conservativeKbps ≤ estimate.conservativeKbps := by
  unfold ageMs
  simp only
  split
  · exact le_rfl
  · split
    · exact demoteToPrior_conservative estimate
    · exact conservative_antitone rfl (le_max_left ..)

end
section

theorem run_measured (measures : List Measure) :
    Measured (rates measures) (run measures) ∧ run? measures = some (run measures) := by
  induction measures using List.reverseRecOn with
  | nil => exact ⟨.default, rfl⟩
  | append_singleton measures measure ih =>
    obtain ⟨measured, exact_⟩ := ih
    have next : run (measures ++ [measure]) = measure.step (run measures) := foldl_append ..
    have more : rates (measures ++ [measure]) = rates measures ++ measure.rate?.toList := by
      unfold rates
      cases shape : measure.rate? <;> simp [shape]
    have last : run? (measures ++ [measure]) = (run? measures).bind measure.step? := by
      unfold run?
      rw [foldlM_append]
      congr 1
      funext estimate
      exact foldlM_cons .. |>.trans (bind_pure _)
    rw [next, more, last, exact_]
    exact ⟨measured.step measure, step?_eq measured measure⟩

/-- The rates of an estimate with samples are between the extremes of the rates measured, and its
budget between half the slow one and all of it. -/
structure WithinRates (rates : List Nat) (estimate : CapacityEstimate) : Prop where
  between : 0 < estimate.samples → ∃ low high, rates.min? = some low ∧ rates.max? = some high ∧
    (low ≤ estimate.slowKbps ∧ estimate.slowKbps ≤ high) ∧ low ≤ estimate.fastKbps ∧ estimate.fastKbps ≤ high
  budget : estimate.slowKbps / 2 ≤ estimate.conservativeKbps ∧ estimate.conservativeKbps ≤ estimate.slowKbps
  exact_ : estimate.conservativeKbps? = some estimate.conservativeKbps

theorem Measured.within {rates : List Nat} {estimate : CapacityEstimate} (measured : Measured rates estimate) :
    WithinRates rates estimate := by
  refine ⟨?_, conservative_between measured.slowFits, conservativeKbps?_eq measured.slowFits⟩
  intro positive
  have some_ := measured.some_ positive
  obtain ⟨low, least⟩ := Option.isSome_iff_exists.mp (List.isSome_min?_of_ne_nil some_)
  obtain ⟨high, greatest⟩ := Option.isSome_iff_exists.mp (List.isSome_max?_of_ne_nil some_)
  have bounds : ∀ r ∈ rates, low ≤ r ∧ r ≤ high := fun r mem =>
    ⟨(List.min?_eq_some_iff.mp least).2 r mem, (List.max?_eq_some_iff.mp greatest).2 r mem⟩
  exact ⟨low, high, least, greatest, measured.slow positive low high bounds, measured.fast positive low high bounds⟩

/-- Whatever is measured, the estimate stays within the rates of the completed observations, also
between a collapse and its update; no number leaves its type; an observation that did not complete
changes nothing; a demotion and an age raise no budget. -/
theorem capacity_stays_measured (measures : List Measure) :
    run? measures = some (run measures) ∧ WithinRates (rates measures) (run measures) ∧
      (∀ kbps : UInt32, (run measures).collapse? kbps.toNat = some ((run measures).collapse kbps.toNat) ∧
        WithinRates (rates measures ++ [kbps.toNat]) ((run measures).collapse kbps.toNat)) ∧
      (∀ kbps bytes activeUs, run (measures ++ [.update kbps bytes activeUs false]) = run measures) ∧
      (run (measures ++ [.demoteToPrior])).conservativeKbps ≤ (run measures).conservativeKbps ∧
      ∀ elapsedMs policy, (run (measures ++ [.age elapsedMs policy])).conservativeKbps ≤ (run measures).conservativeKbps := by
  obtain ⟨measured, exact_⟩ := run_measured measures
  have next : ∀ measure, run (measures ++ [measure]) = measure.step (run measures) := fun measure => foldl_append ..
  refine ⟨exact_, measured.within, ?_, ?_, ?_, ?_⟩
  · intro kbps
    exact ⟨collapse?_eq _, (measured.collapse (u32_fits kbps)).within⟩
  · intro kbps bytes activeUs
    rw [next]
    rfl
  · rw [next]
    exact demoteToPrior_conservative _
  · intro elapsedMs policy
    rw [next]
    exact ageMs_conservative _ elapsedMs.toNat policy

end
end PlxNative.Abr
