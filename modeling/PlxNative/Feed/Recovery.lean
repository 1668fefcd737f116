import PlxNative.Feed.HlsClock
import PlxNative.Lib.Runway

/-! What a rebuffering hold learns while it lasts: the debt and the runway of the segments acquired
in it, and that a reserve it finds ready plays the same segments any number of times. -/
namespace PlxNative.Feed
open List Runway I64 HlsClock
open Transducer (run)

def HlsRecoveryEpoch.ready (r : HlsRecoveryEpoch) (playableNs : Int) : Bool :=
  r.active && 0 < r.completed && r.debtUs ≤ 0 && r.runwayUs ≤ max playableNs 0 / 1000

/-- A segment acquired while the clock is held. -/
structure Segment where
  acquisitionUs : Nat
  mediaNs : Nat

namespace Segment

def mediaUs (s : Segment) : Nat := s.mediaNs / 1000

def inUs (s : Segment) : Draw Int := ⟨s.acquisitionUs, s.mediaUs⟩

def inNs (s : Segment) : Draw Int := ⟨1000 * s.acquisitionUs, s.mediaNs⟩

def observed (s : Segment) : ClockOp := .observeRecovery s.acquisitionUs s.mediaUs

theorem inUs_sound (s : Segment) : s.inUs.Sound := ⟨Int.natCast_nonneg _, Int.natCast_nonneg _⟩

end Segment

/-- Every sum on the way is a signed word. -/
def InWord (draws : List (Draw Int)) : Prop :=
  ∀ before draw after, draws = before ++ draw :: after → draw.cost ≤ largest ∧ draw.credit ≤ largest ∧
    excess before + draw.cost ≤ largest ∧ least ≤ excess before + draw.delta

theorem InWord.take {first second : List (Draw Int)} (fits : InWord (first ++ second)) : InWord first :=
  fun before draw after whole => fits before draw (after ++ second) (by rw [whole, append_assoc, cons_append])

/-- An epoch holds the debt and the runway of what was drawn in it. -/
structure Certifies (r : HlsRecoveryEpoch) (past : List (Draw Int)) : Prop where
  active : r.active = true
  debt : r.debtUs = excess past
  runway : r.runwayUs = runway past

variable {r : HlsRecoveryEpoch} {past : List (Draw Int)} {segments : List Segment}

theorem Certifies.observe (certifies : Certifies r past) (sound : ∀ draw ∈ past, draw.Sound) (s : Segment)
    (fits : InWord (past ++ [s.inUs])) : Certifies (r.observe s.acquisitionUs s.mediaUs) (past ++ [s.inUs]) := by
  obtain ⟨cost, credit, above, below⟩ := fits past s.inUs [] rfl
  obtain ⟨paid, gained⟩ := s.inUs_sound
  have all : ∀ draw ∈ past ++ [s.inUs], draw.Sound := by
    exact forall_mem_append.mpr ⟨sound, forall_mem_singleton.mpr s.inUs_sound⟩
  unfold Draw.delta at below
  have drained : saturated (excess past + s.inUs.cost) = excess past + s.inUs.cost := by
    unfold saturated
    omega
  have filled : saturated (excess past + s.inUs.cost - s.inUs.credit) = excess past + s.inUs.cost - s.inUs.credit := by
    unfold saturated
    omega
  have last : Runway.runway [s.inUs] = s.inUs.cost := max_eq_left (by
    simp only [Draw.delta, Runway.runway]
    omega)
  have shown : r.observe s.acquisitionUs s.mediaUs = { r with
      runwayUs := max r.runwayUs (saturated (r.debtUs + s.inUs.cost))
      debtUs := saturated (saturated (r.debtUs + s.inUs.cost) - s.inUs.credit)
      completed := min (r.completed + 1) (2 ^ 64 - 1) } := by
    have first : min (s.acquisitionUs : Int) largest = s.inUs.cost := min_eq_left cost
    have second : min (s.mediaUs : Int) largest = s.inUs.credit := min_eq_left credit
    simp only [HlsRecoveryEpoch.observe, certifies.active, Bool.not_true, Bool.false_eq_true, if_false, first, second]
  rw [shown]
  refine ⟨certifies.active, ?_, ?_⟩
  · simp only [certifies.debt, drained, excess_append, excess_cons, excess_nil, Draw.delta]
    omega
  · simp only [certifies.debt, certifies.runway, drained, runway_append all, last]

theorem Certifies.observing (c : HlsClock) (certifies : Certifies c.recovery past) (sound : ∀ draw ∈ past, draw.Sound)
    (fits : InWord (past ++ segments.map Segment.inUs)) :
    Certifies (run step c (segments.map Segment.observed)).recovery (past ++ segments.map Segment.inUs) := by
  induction segments generalizing c past with
  | nil =>
    rw [map_nil, map_nil, append_nil]
    exact certifies
  | cons s rest ih =>
    rw [map_cons, append_cons] at fits
    rw [map_cons, map_cons, append_cons]
    refine ih (c.step s.observed).1 (certifies.observe sound s fits.take) (fun draw mem => ?_) fits
    rcases mem_append.mp mem with old | new
    · exact sound draw old
    · rw [mem_singleton.mp new]
      exact s.inUs_sound

/-- A reserve in nanoseconds plays what its whole microseconds play. -/
theorem survives_inNs {us ns : Int} (covers : 1000 * us ≤ ns) (played : Survives us (segments.map Segment.inUs)) :
    Survives ns (segments.map Segment.inNs) := by
  induction segments generalizing us ns with
  | nil => trivial
  | cons s rest ih =>
    obtain ⟨paid, later⟩ := played
    refine ⟨?_, ih ?_ later⟩
    · simp only [Segment.inUs, Segment.inNs] at *
      omega
    · simp only [Segment.inUs, Segment.inNs, Segment.mediaUs] at *
      omega

theorem idle_observes (c : HlsClock) (idle : c.recovery.active = false) : run step c (segments.map Segment.observed) = c := by
  induction segments with
  | nil => rfl
  | cons s rest ih =>
    have eq : (c.step s.observed).1 = c := by simp [Segment.observed, step, HlsRecoveryEpoch.observe, idle]
    exact (congrArg (fun c => run step c (rest.map Segment.observed)) eq).trans ih

/-- The certificate of a hold is the debt and the runway of its segments, and a reserve that is ready by it plays the segments
again however often. Outside a hold nothing is observed. -/
theorem certificate_exact_and_sufficient :
    (∀ (c : HlsClock) (segments : List Segment), c.recovery = .begin_ → InWord (segments.map Segment.inUs) →
      let r := (run step c (segments.map Segment.observed)).recovery
      r.debtUs = (segments.map fun s => (s.acquisitionUs : Int) - s.mediaUs).sum ∧
      IsGreatest { x | x = 0 ∨ ∃ before s after, segments = before ++ s :: after ∧
        x = (before.map fun s => (s.acquisitionUs : Int) - s.mediaUs).sum + (s.acquisitionUs : Int) } r.runwayUs ∧
      ∀ playableNs, r.ready playableNs = true → ∀ k,
        Survives (max playableNs 0) ((replicate k segments).flatten.map Segment.inNs)) ∧
    (∀ (c : HlsClock) (segments : List Segment), c.recovery.active = false → run step c (segments.map Segment.observed) = c) ∧
    HlsClock.new.recovery.active = false ∧ ∀ c : HlsClock, c.reset.recovery.active = false ∧ c.stop.recovery.active = false := by
  have total (segments : List Segment) :
      excess (segments.map Segment.inUs) = (segments.map fun s => (s.acquisitionUs : Int) - s.mediaUs).sum := by
    rw [excess, map_map]
    rfl
  refine ⟨fun c segments begun fits => ?_, fun c segments => idle_observes c, rfl, fun c => ⟨rfl, rfl⟩⟩
  have sound : ∀ draw ∈ segments.map Segment.inUs, draw.Sound := by
    intro draw member
    obtain ⟨s, -, rfl⟩ := mem_map.mp member
    exact s.inUs_sound
  obtain ⟨-, debt, length⟩ := Certifies.observing c (show Certifies c.recovery [] by rw [begun]; exact ⟨rfl, rfl, rfl⟩) (fun _ mem => by cases mem) fits
  rw [nil_append] at debt length
  refine ⟨debt.trans (total segments), ?_, fun playableNs ready k => ?_⟩
  · rw [length]
    obtain ⟨among, bounds⟩ := runway_isGreatest sound
    refine ⟨among.imp_right ?_, fun x listed => bounds (listed.imp_right ?_)⟩
    · rintro ⟨before, draw, after, whole, here⟩
      obtain ⟨before, others, rfl, rfl, same⟩ := map_eq_append_iff.mp whole
      obtain ⟨s, after, rfl, rfl, rfl⟩ := map_eq_cons_iff.mp same
      exact ⟨before, s, after, rfl, by rw [here, total]; rfl⟩
    · rintro ⟨before, s, after, rfl, rfl⟩
      exact ⟨before.map Segment.inUs, s.inUs, after.map Segment.inUs, by simp, by rw [total]; rfl⟩
  · simp only [HlsRecoveryEpoch.ready, Bool.and_eq_true, decide_eq_true_eq, debt, length] at ready
    obtain ⟨⟨-, closed⟩, reserve⟩ := ready
    have held : 0 ≤ max playableNs 0 / 1000 := Int.ediv_nonneg (le_max_right _ _) (by decide)
    have played := Survives.again sound closed held ((survives_iff sound held).mpr reserve) k
    rw [← map_replicate, ← map_flatten] at played
    exact survives_inNs (Int.mul_ediv_self_le (by decide)) played

theorem certificate_exact_and_sufficient_once :
    ∀ k, Survives 3999 ((replicate k [(⟨3, 5500⟩ : Segment)]).flatten.map Segment.inNs) := by
  refine (certificate_exact_and_sufficient.1 { HlsClock.new with recovery := .begin_ } [⟨3, 5500⟩] rfl ?_).2.2 3999 (by decide)
  intro before draw after whole
  obtain ⟨rfl, rfl, -⟩ : before = [] ∧ draw = Segment.inUs ⟨3, 5500⟩ ∧ after = [] := by cases before <;> simp_all
  decide

end PlxNative.Feed
