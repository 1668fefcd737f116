import PlxNative.Feed.ClockTurns

/-! What a refusal leaves of the clock. Two operations act before their last check: a candidate
transition spends the commit authorization of its owner, and a settlement starts the recovery again. -/
namespace PlxNative.Feed
open List Bool
open Transducer (history)

structure ClockFence where
  phase : HlsClockPhase
  recovery : HlsRecoveryEpoch
  userHeld : Bool
  automatic : Option HlsAutomaticOwner
  candidateGeneration : Nat
  trialReserveMs : Int
deriving DecidableEq

def ClockAnswer.refuses : ClockAnswer → Bool
  | .flag false | .candidate (.error _) | .lease none | .rebufferPause none | .holdPause none | .userResume none
  | .reserved none => true
  | _ => false

def HlsClockPhase.reopens : HlsClockPhase → Bool
  | .pauseIssuing _ .rebuffer | .held .rebuffer => true
  | _ => false

namespace HlsClock

def fence (c : HlsClock) : ClockFence := ⟨c.phase, c.recovery, c.userHeld, c.automatic, c.candidateGeneration, c.trialReserveMs⟩

/-- No owner that could commit meets an open candidate, and no settlement of another generation meets a recovery under way. -/
def Clean (c : HlsClock) : ClockOp → Prop
  | .beginCandidate (some token) =>
    c.stable = true ∨ ∀ owner ∈ c.automatic, ¬ (c.committing owner token = true ∧ c.phaseOk owner.kind = true)
  | .settleCandidate generation =>
    (c.candidateGeneration = generation ∧ generation < lastGeneration) ∨ c.phase.reopens = false ∨ c.recovery = .begin_
  | _ => True

variable (c : HlsClock)

theorem publish_stable (even : c.stable = true) : c.publish.2.refuses = false := by
  have room : c.candidateGeneration ≠ lastGeneration := by
    intro last
    rw [stable, last] at even
    exact absurd even (by decide)
  rw [publish, even, Bool.not_true, if_neg Bool.false_ne_true, if_neg room]
  rfl

theorem phaseOk_moving {kind : HlsAutomaticTransition} (ok : c.phaseOk kind = true) :
    (∀ token hold resumeAcb, c.phase ≠ .playIssuing token hold resumeAcb) ∧ c.phase ≠ .stopping := by
  constructor <;> intros <;> intro phase <;> cases kind <;> simp [phaseOk, phase] at ok

theorem beginCandidate_clean (token : Nat) :
    ((c.beginCandidate (some token)).2.refuses = true → (c.beginCandidate (some token)).1.fence = c.fence) ↔
      c.Clean (.beginCandidate (some token)) := by
  unfold beginCandidate
  split
  case h_1 playing => exact iff_of_true nofun (.inr fun owner _ both => (c.phaseOk_moving both.2).1 _ _ _ playing)
  case h_2 stopping => exact iff_of_true (fun _ => rfl) (.inr fun owner _ both => (c.phaseOk_moving both.2).2 stopping)
  case h_3 =>
    unfold Clean
    cases own : c.automatic with
    | none => exact iff_of_true (fun _ => rfl) (.inr nofun)
    | some owner =>
      simp only
      split
      case isFalse unready =>
        refine iff_of_true (fun _ => rfl) (.inr ?_)
        simpa using unready
      case isTrue ready =>
        have both := Bool.and_eq_true_iff.mp ready
        cases even : c.stable with
        | true => exact iff_of_true (fun refuses => Bool.noConfusion (refuses.symm.trans (c.authorized.publish_stable even))) (.inl rfl)
        | false =>
          -- the authorization is spent, and then the open candidate refuses
          refine iff_of_false (fun kept => ?_) (fun clean => clean.elim Bool.noConfusion (fun none_ => none_ owner rfl both))
          have overlap : c.authorized.publish = (c.authorized, .candidate (.error .overlap)) := by
            rw [publish, show c.authorized.stable = false from even]
            rfl
          rw [overlap] at kept
          have spent := congrArg ClockFence.automatic (kept rfl)
          simp only [fence, authorized, own, Option.map_some, Option.some.injEq] at spent
          have working := both.1
          simp only [committing, and_eq_true, decide_eq_true_eq] at working
          exact HlsAutomaticPhase.noConfusion ((congrArg HlsAutomaticOwner.phase spent).trans working.1.1.2)

theorem rebased_eq : c.rebased = if c.phase.reopens then { c with recovery := .begin_ } else c := by
  obtain ⟨phase⟩ := c
  cases phase with
  | pauseIssuing token hold => cases hold <;> rfl
  | held hold => cases hold <;> rfl
  | _ => rfl

theorem settleCandidate_clean (generation : Nat) :
    ((c.settleCandidate generation).2.refuses = true → (c.settleCandidate generation).1.fence = c.fence) ↔
      c.Clean (.settleCandidate generation) := by
  unfold settleCandidate
  split
  case isFalse settles =>
    simp only [or_eq_true, decide_eq_true_eq, not_eq_true', decide_eq_false_iff_not] at settles
    exact iff_of_true nofun (.inl (by omega))
  case isTrue refused =>
    simp only [or_eq_true, decide_eq_true_eq, not_eq_true', decide_eq_false_iff_not] at refused
    have other : ¬ (c.candidateGeneration = generation ∧ generation < lastGeneration) := by omega
    rw [Clean, or_iff_right other]
    cases opens : c.phase.reopens with
    | false =>
      rw [rebased_eq, opens]
      exact iff_of_true (fun _ => rfl) (.inl rfl)
    | true =>
      rw [rebased_eq, opens, or_iff_right Bool.noConfusion]
      refine ⟨fun kept => (congrArg ClockFence.recovery (kept rfl)).symm, fun eq _ => ?_⟩
      exact congrArg (fun recovery => ClockFence.mk c.phase recovery c.userHeld c.automatic c.candidateGeneration c.trialReserveMs) eq.symm

theorem step_clean (op : ClockOp) : ((c.step op).2.refuses = true → (c.step op).1.fence = c.fence) ↔ c.Clean op := by
  cases op with
  | beginCandidate automatic =>
    cases automatic with
    | none =>
      refine iff_of_true ?_ trivial
      simp only [step, beginCandidate, publish]
      repeat' split
      all_goals first | exact fun _ => rfl | exact fun refused => nomatch refused
    | some token => exact c.beginCandidate_clean token
  | settleCandidate generation => exact c.settleCandidate_clean generation
  | _ =>
    refine iff_of_true ?_ trivial
    simp only [step, armInitialClockHold, prepareRebufferPause, completeRebufferPause, prepareUserPause, completeUserPause,
      prepareSeekPause, handHoldToSeekPrime, completeSeekPause, prepareUserResume, reservePrimePlay, completePrimePlay,
      armTrialAt, finishTrial, beginAutomaticAt, authorizeCommit, finishAutomatic]
    repeat' split
    all_goals first | exact fun _ => rfl | exact fun refused => nomatch refused

/-- In a run every refusal leaves the clock as it was exactly when every call is a clean one. -/
theorem refusals_change_nothing_iff (ops : List ClockOp) :
    (∀ e ∈ history step new ops, e.answer.refuses = true → e.after.fence = e.before.fence) ↔
      ∀ e ∈ history step new ops, e.before.Clean e.input := by
  refine forall₂_congr fun e member => ?_
  rw [Transducer.mem_history step member]
  exact e.before.step_clean e.input

/-- A fence that meets an open candidate spends the commit it was refused for, and a late settlement from a session that was
reset restarts a recovery that has observed a segment. -/
theorem refusal_spends_the_commit :
    (∃ e ∈ history step new [.armTrialAt 0 0, .beginCandidate none, .beginCandidate (some 1)],
      e.input = .beginCandidate (some 1) ∧ e.answer = .candidate (.error .overlap) ∧ e.after.fence ≠ e.before.fence) ∧
    ∃ e ∈ history step new [.beginCandidate none, .reset, .prepareRebufferPause, .observeRecovery 7 3, .settleCandidate 1],
      e.input = .settleCandidate 1 ∧ e.answer = .flag false ∧ e.after.recovery ≠ e.before.recovery := by
  refine ⟨⟨_, mem_cons_of_mem _ (mem_cons_of_mem _ mem_cons_self), rfl, rfl, by decide⟩,
    ⟨_, mem_cons_of_mem _ (mem_cons_of_mem _ (mem_cons_of_mem _ (mem_cons_of_mem _ mem_cons_self))), rfl, rfl, by decide⟩⟩

end HlsClock
end PlxNative.Feed
