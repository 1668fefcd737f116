import PlxNative.Feed.ClockTurns

/-! The clock has one owner: one native call on its way at most, which its own token completes and
nothing else does, along every run. -/
namespace PlxNative.Feed
open List
open Transducer (Event event history history_invariant run snoc_split)

section

def actOf (x : ClockStep) : ClockAct := clockAct x.before x.input x.answer

namespace ClockAct

/-- The token of a native call that is prepared. -/
def issues : ClockAct → Option Nat
  | .prepares token _ | .resumes token | .reserves token => some token
  | _ => none

/-- The token of a native call that is completed. -/
def ends : ClockAct → Option Nat
  | .pauses token _ | .unpauses token | .plays token _ _ | .unplays token => some token
  | _ => none

/-- The session's native calls are given up. -/
def clears : ClockAct → Bool
  | .stops | .resets => true
  | _ => false

/-- Every token that is taken, for a native call or for a lease. -/
def takes : ClockAct → Option Nat
  | .leases token => some token
  | act => act.issues

end ClockAct

namespace HlsClockPhase

/-- The token of the native call on its way. -/
def native : HlsClockPhase → Option Nat
  | .pauseIssuing token _ | .playIssuing token _ _ => some token
  | _ => none

/-- What completes the native call on its way. -/
def completion (phase : HlsClockPhase) (accepted : Bool) : Option ClockOp :=
  match phase with
  | .pauseIssuing token .rebuffer => some (.completeRebufferPause token accepted)
  | .pauseIssuing token .user => some (.completeUserPause token accepted)
  | .pauseIssuing token .seek => some (.completeSeekPause token accepted)
  | .playIssuing token _ _ => some (.completePrimePlay token accepted)
  | _ => none

/-- The clock is held, or about to play, for the rebuffering. -/
def rebuffers : HlsClockPhase → Bool
  | .held .rebuffer | .playIssuing _ .rebuffer _ => true
  | _ => false

def runs : HlsClockPhase → Bool
  | .running | .pauseIssuing _ _ => true
  | _ => false

end HlsClockPhase

/-- The token of a completion, and its answer where it comes too late. -/
def ClockOp.completes : ClockOp → Option (Nat × ClockAnswer)
  | .completeRebufferPause token _ | .completeUserPause token _ | .completeSeekPause token _ =>
    some (token, .pauseCompleted .stale)
  | .completePrimePlay token _ => some (token, .playCompleted .stale)
  | _ => none

/-- A native call was prepared, and nothing has completed it or given it up. -/
def Outstanding (past : List ClockStep) (token : Nat) : Prop :=
  ∃ before h after, past = before ++ h :: after ∧ (actOf h).issues = some token ∧
    ∀ x ∈ after, (actOf x).ends ≠ some token ∧ (actOf x).clears = false

variable {past : List ClockStep} {x : ClockStep} {token : Nat}

theorem outstanding_snoc : Outstanding (past ++ [x]) token ↔
    (actOf x).issues = some token ∨ Outstanding past token ∧ (actOf x).ends ≠ some token ∧ (actOf x).clears = false := by
  constructor
  · rintro ⟨before, h, after, split, issued, kept⟩
    rcases snoc_split split with ⟨rfl, rfl, rfl⟩ | ⟨rest, rfl, rfl⟩
    · exact .inl issued
    · exact .inr ⟨⟨before, h, rest, rfl, issued, fun y mem => kept y (mem_append_left _ mem)⟩,
        kept x (mem_append_right _ mem_cons_self)⟩
  · rintro (issued | ⟨⟨before, h, after, rfl, issued, kept⟩, now⟩)
    · exact ⟨past, x, [], rfl, issued, fun _ mem => absurd mem not_mem_nil⟩
    · refine ⟨before, h, after ++ [x], by simp, issued, fun y mem => ?_⟩
      rcases mem_append.mp mem with old | new
      · exact kept y old
      · rw [mem_singleton.mp new]
        exact now

end

section
variable {v w : ClockView} {act : ClockAct}

section
variable (turn : ClockTurn v act w)
include turn

theorem ClockTurn.native (token : Nat) :
    w.phase.native = some token ↔ act.issues = some token ∨ v.phase.native = some token ∧ act.ends ≠ some token ∧ act.clears = false := by
  cases turn with
  | arms running => simp [HlsClockPhase.native, ClockAct.issues, running]
  | prepares running => simp [HlsClockPhase.native, ClockAct.issues, running]
  | pauses issuing =>
    simp [HlsClockPhase.native, ClockAct.issues, ClockAct.ends, issuing]
    exact fun eq other => absurd eq other
  | pausesUser issuing =>
    simp [HlsClockPhase.native, ClockAct.issues, ClockAct.ends, issuing]
    exact fun eq other => absurd eq other
  | unpauses issuing =>
    simp [HlsClockPhase.native, ClockAct.issues, ClockAct.ends, issuing]
    exact fun eq other => absurd eq other
  | hands held => simp [HlsClockPhase.native, ClockAct.issues, held]
  | defers held => simp [HlsClockPhase.native, ClockAct.issues, held]
  | resumes held => simp [HlsClockPhase.native, ClockAct.issues, held]
  | reserves held => simp [HlsClockPhase.native, ClockAct.issues, held]
  | plays issuing =>
    simp [HlsClockPhase.native, ClockAct.issues, ClockAct.ends, issuing]
    exact fun eq other => absurd eq other
  | unplays issuing =>
    simp [HlsClockPhase.native, ClockAct.issues, ClockAct.ends, issuing]
    exact fun eq other => absurd eq other
  | stops => simp [HlsClockPhase.native, ClockAct.issues, ClockAct.clears]
  | resets => simp [HlsClockPhase.native, ClockAct.issues, ClockAct.clears]
  | _ => simp [ClockAct.issues, ClockAct.ends, ClockAct.clears]

theorem ClockTurn.takes :
    v.nextToken ≤ w.nextToken ∧ ∀ token, act.takes = some token → v.nextToken < token ∧ token = w.nextToken := by
  cases turn with
  | prepares | resumes | reserves | leases =>
    exact ⟨Nat.le_succ _, fun token taken => Option.some.inj taken ▸ ⟨Nat.lt_succ_self _, rfl⟩⟩
  | _ => exact ⟨Nat.le_refl _, nofun⟩

theorem ClockTurn.calm (calm : v.phase.runs = true → v.userHeld = false ∧ v.resumeAcbPending = false)
    (runs : w.phase.runs = true) : w.userHeld = false ∧ w.resumeAcbPending = false := by
  cases turn with
  | prepares running => exact calm (by rw [running]; rfl)
  | unpauses issuing => exact calm (by rw [issuing]; rfl)
  | plays => exact ⟨rfl, rfl⟩
  | resets => exact ⟨rfl, rfl⟩
  | arms | pauses | pausesUser | hands | defers | resumes | reserves | unplays | stops => cases runs
  | holds held =>
    rw [held] at runs
    cases runs
  | aside | leases | authorizes | publishes => exact calm runs

theorem ClockTurn.mirror (mirror : v.rebuffering = v.phase.rebuffers) :
    w.rebuffering = w.phase.rebuffers := by
  cases turn with
  | arms running => exact mirror.trans (by rw [running]; rfl)
  | prepares running => exact mirror.trans (by rw [running]; rfl)
  | @pauses token hold issuing other =>
    rw [issuing] at mirror
    simp only [mirror]
    cases hold <;> rfl
  | pausesUser issuing => exact mirror.trans (by rw [issuing]; rfl)
  | unpauses issuing => exact mirror.trans (by rw [issuing]; rfl)
  | @hands hold held other =>
    rw [mirror, held]
    cases hold <;> first | rfl | exact absurd rfl other
  | @defers hold next held user moved =>
    rw [mirror, held]
    rcases moved with rfl | ⟨rfl, rfl⟩ <;> rfl
  | resumes held => exact mirror.trans (by rw [held]; rfl)
  | @reserves hold held other free =>
    rw [mirror, held]
    cases hold <;> rfl
  | @plays token hold resumeAcb issuing =>
    rw [issuing] at mirror
    simp only [mirror]
    cases hold <;> rfl
  | @unplays token hold resumeAcb issuing =>
    rw [mirror, issuing]
    cases hold <;> rfl
  | stops => rfl
  | resets => rfl
  | holds | aside | leases | authorizes | publishes => exact mirror

theorem ClockTurn.kinds (kinds : ∀ accepted, v.phase.native.isSome → (v.phase.completion accepted).isSome)
    (accepted : Bool) (some_ : w.phase.native.isSome) : (w.phase.completion accepted).isSome := by
  cases turn with
  | prepares running kind => rcases kind with rfl | rfl | rfl <;> rfl
  | resumes | reserves => rfl
  | arms | pauses | pausesUser | unpauses | hands | defers | plays | unplays | stops | resets => cases some_
  | holds | aside | leases | authorizes | publishes => exact kinds accepted some_

end

end
namespace HlsClock

section
variable {past : List ClockStep} {c : HlsClock}

structure Owned (past : List ClockStep) (c : HlsClock) : Prop where
  outstanding : ∀ token, Outstanding past token ↔ c.phase.native = some token
  tokens : ∀ x ∈ past, ∀ token, (actOf x).takes = some token → token ≤ c.nextToken
  rising : past.Pairwise (fun x y => ∀ m n, (actOf x).takes = some m → (actOf y).takes = some n → m < n)
  calm : c.phase.runs = true → c.userHeld = false ∧ c.resumeAcbPending = false
  mirror : c.rebuffering = c.phase.rebuffers
  kinds : ∀ accepted, c.phase.native.isSome → (c.phase.completion accepted).isSome
  fits : c.candidateGeneration ≤ lastGeneration

theorem new_owned : Owned [] new where
  outstanding := fun token => by
    refine ⟨?_, nofun⟩
    rintro ⟨before, h, after, split, -⟩
    exact absurd split (append_ne_nil_of_right_ne_nil _ (cons_ne_nil _ _)).symm
  tokens := fun _ mem => absurd mem not_mem_nil
  rising := .nil
  calm := fun _ => ⟨rfl, rfl⟩
  mirror := rfl
  kinds := fun _ => nofun
  fits := by decide

theorem Owned.step (owned : Owned past c) (op : ClockOp) : Owned (past ++ [event HlsClock.step c op]) (c.step op).1 := by
  have turn : ClockTurn c.view (actOf (event HlsClock.step c op)) (c.step op).1.view := step_turns owned.fits op
  obtain ⟨grows, taken⟩ := turn.takes
  refine ⟨fun token => ?_, fun x mem token takes => ?_, ?_, turn.calm owned.calm, turn.mirror owned.mirror,
    turn.kinds owned.kinds, (turn.grows owned.fits).2⟩
  · rw [outstanding_snoc, owned.outstanding token]
    exact (turn.native token).symm
  · rcases mem_append.mp mem with old | now
    · exact Nat.le_trans (owned.tokens x old token takes) grows
    · rw [mem_singleton.mp now] at takes
      exact Nat.le_of_eq (taken token takes).2
  · refine pairwise_append.mpr ⟨owned.rising, pairwise_singleton _ _, fun x old y now m n first second => ?_⟩
    rw [mem_singleton.mp now] at second
    exact Nat.lt_of_le_of_lt (owned.tokens x old m first) (taken n second).1

theorem run_owned (ops : List ClockOp) : Owned (history HlsClock.step new ops) (run HlsClock.step new ops) :=
  history_invariant HlsClock.step (fun _ _ op owned => owned.step op) new_owned ops

end

section
variable {c : HlsClock}

/-- The phase that a completed Pause waits for. -/
def awaits : ClockOp → Option HlsClockPhase
  | .completeRebufferPause token _ => some (.pauseIssuing token .rebuffer)
  | .completeUserPause token _ => some (.pauseIssuing token .user)
  | .completeSeekPause token _ => some (.pauseIssuing token .seek)
  | _ => none

variable {waited : HlsClockPhase} {op : ClockOp}

theorem awaits_completion {phase : HlsClockPhase} {accepted : Bool} (awaited : awaits op = some waited)
    (eq : phase.completion accepted = some op) : phase = waited := by
  unfold HlsClockPhase.completion at eq
  split at eq <;> cases eq <;> cases awaited <;> rfl

variable {stale : ClockAnswer}

theorem pause_completes {result : HlsClock × ClockAnswer} (accepted : Bool)
    (awaited : awaits op = some waited) (own : waited.completion accepted = some op)
    (after : c.step op = if c.phase ≠ waited then (c, stale) else result) (answered : result.2 ≠ stale) :
    (∃ accepted, c.phase.completion accepted = some op) ∧ (c.step op).2 ≠ stale ∨
      (∀ accepted, c.phase.completion accepted ≠ some op) ∧ c.step op = (c, stale) := by
  by_cases eq : c.phase = waited
  · refine .inl ⟨⟨accepted, eq ▸ own⟩, ?_⟩
    rwa [after, if_neg (not_not.mpr eq)]
  · refine .inr ⟨fun a other => eq (awaits_completion awaited other), ?_⟩
    rw [after, if_pos eq]

theorem step_completes (c : HlsClock) {token : Nat} (completes : op.completes = some (token, stale)) :
    (∃ accepted, c.phase.completion accepted = some op) ∧ (c.step op).2 ≠ stale ∨
      (∀ accepted, c.phase.completion accepted ≠ some op) ∧ c.step op = (c, stale) := by
  cases op with
  | completeRebufferPause t accepted =>
    cases completes
    exact pause_completes accepted rfl rfl rfl (by cases accepted <;> exact fun eq => by cases eq)
  | completeUserPause t accepted =>
    cases completes
    exact pause_completes accepted rfl rfl rfl (by cases accepted <;> exact fun eq => by cases eq)
  | completeSeekPause t accepted =>
    cases completes
    exact pause_completes accepted rfl rfl rfl (by cases accepted <;> exact fun eq => by cases eq)
  | completePrimePlay t accepted =>
    cases completes
    simp only [step, completePrimePlay]
    split
    · rename_i active hold resumeAcb phase
      split
      · rename_i other
        refine .inr ⟨fun a eq => other ?_, rfl⟩
        rw [phase] at eq
        cases eq
        rfl
      · rename_i own
        refine .inl ⟨⟨accepted, by rw [phase, not_not.mp own]; rfl⟩, ?_⟩
        cases accepted <;> exact fun eq => by cases eq
    · rename_i other
      refine .inr ⟨fun a eq => ?_, rfl⟩
      unfold HlsClockPhase.completion at eq
      split at eq <;> cases eq
      exact other _ _ _ ‹_›
  | _ => cases completes

end

section
variable {c : HlsClock}

theorem reserved_guards {kind : HlsPrimeKind} {candidate : Nat} {recovery : HlsRecoveryEpoch} {play : Nat × HlsRecoveryEpoch}
    (reserved : (c.reservePrimePlay kind candidate recovery).2 = .reserved (some play)) :
    c.userHeld = false ∧ c.trialReserveMs < 0 ∧ c.automatic = none ∧ candidate % 2 = 0 ∧ c.candidateGeneration = candidate := by
  unfold reservePrimePlay at reserved
  split at reserved
  · cases reserved
  · rename_i ready
    simp only [Bool.or_eq_true, not_or, Bool.not_eq_true, Bool.not_eq_false', untried, decide_eq_true_eq, not_not,
      Option.isSome_eq_false_iff, Option.isNone_iff_eq_none] at ready
    obtain ⟨⟨⟨⟨⟨untried_, free⟩, eq⟩, even⟩, -⟩, unheld⟩ := ready
    exact ⟨unheld, untried_, free, even, eq⟩

theorem begun_grows {automatic : Option Nat} {generation : Nat}
    (begun : (c.beginCandidate automatic).2 = .candidate (.ok generation)) :
    c.candidateGeneration < (c.beginCandidate automatic).1.candidateGeneration := by
  have published : ∀ t : HlsClock, t.publish.2 = .candidate (.ok generation) → t.candidateGeneration < t.publish.1.candidateGeneration := by
    intro t answered
    rcases t.publish_answer with (eq | eq) | ⟨-, eq⟩
    · rw [eq] at answered
      cases answered
    · rw [eq] at answered
      cases answered
    · rw [eq]
      exact Nat.lt_succ_self _
  unfold beginCandidate at begun ⊢
  split at begun
  · cases begun
  · cases begun
  · cases automatic with
    | none => exact published c begun
    | some token =>
      cases own : c.automatic with
      | none =>
        rw [own] at begun
        cases begun
      | some owner =>
        simp only [own] at begun ⊢
        split at begun
        · rename_i ready
          rw [if_pos ready]
          exact published c.authorized begun
        · cases begun

theorem run_generations {s : HlsClock} (fits : s.candidateGeneration ≤ lastGeneration) (ops : List ClockOp) :
    (∀ x ∈ history HlsClock.step s ops, s.candidateGeneration ≤ x.before.candidateGeneration ∧
      x.after.candidateGeneration ≤ (run HlsClock.step s ops).candidateGeneration) ∧
    s.candidateGeneration ≤ (run HlsClock.step s ops).candidateGeneration := by
  induction ops generalizing s with
  | nil => exact ⟨fun _ mem => absurd mem not_mem_nil, Nat.le_refl _⟩
  | cons op rest ih =>
    obtain ⟨grows, fits'⟩ := (step_turns fits op).grows fits
    obtain ⟨inside, whole⟩ := ih fits'
    refine ⟨fun x mem => ?_, Nat.le_trans grows whole⟩
    rcases mem_cons.mp mem with rfl | later
    · exact ⟨Nat.le_refl _, whole⟩
    · exact ⟨Nat.le_trans grows (inside x later).1, (inside x later).2⟩

theorem none_begun {s : HlsClock} (fits : s.candidateGeneration ≤ lastGeneration) {ops : List ClockOp}
    (eq : (run HlsClock.step s ops).candidateGeneration = s.candidateGeneration) :
    ∀ x ∈ history HlsClock.step s ops, ∀ automatic generation, x.input = .beginCandidate automatic →
      x.answer ≠ .candidate (.ok generation) := by
  intro x mem automatic generation input begun
  obtain ⟨above, below⟩ := (run_generations fits ops).1 x mem
  have stepped := Transducer.mem_history HlsClock.step mem
  rw [stepped, input] at begun below
  have grows := begun_grows begun
  have below' : (x.before.beginCandidate automatic).1.candidateGeneration ≤ (run HlsClock.step s ops).candidateGeneration := below
  omega

end

/-- After every run: the native calls on their way are one at most, tokens are taken in rising
order, and the call on its way has its own completion; any other completion comes too late and
changes nothing; a clock that runs has no viewer's hold and no ACB resume to come; a prime Play is
reserved with no viewer's hold, no trial, no lease and no publication, on the generation of the
caller's snapshot, since which no candidate transition began; and the mirror of the rebuffering
follows the phase. -/
theorem clock_has_one_owner (ops : List ClockOp) :
    ((∀ token, Outstanding (history HlsClock.step new ops) token ↔ (run HlsClock.step new ops).phase.native = some token) ∧
      (history HlsClock.step new ops).Pairwise
        (fun x y => ∀ m n, (actOf x).takes = some m → (actOf y).takes = some n → m < n)) ∧
    ((∀ accepted, (run HlsClock.step new ops).phase.native.isSome → ((run HlsClock.step new ops).phase.completion accepted).isSome) ∧
      ∀ op token stale, op.completes = some (token, stale) →
        (∃ accepted, (run HlsClock.step new ops).phase.completion accepted = some op) ∧ ((run HlsClock.step new ops).step op).2 ≠ stale ∨
          (∀ accepted, (run HlsClock.step new ops).phase.completion accepted ≠ some op) ∧
            (run HlsClock.step new ops).step op = (run HlsClock.step new ops, stale)) ∧
    ((run HlsClock.step new ops).phase = .running →
      (run HlsClock.step new ops).userHeld = false ∧ (run HlsClock.step new ops).resumeAcbPending = false) ∧
    (∀ kind candidate recovery play,
      ((run HlsClock.step new ops).reservePrimePlay kind candidate recovery).2 = .reserved (some play) →
        ((run HlsClock.step new ops).userHeld = false ∧ (run HlsClock.step new ops).trialReserveMs < 0 ∧
          (run HlsClock.step new ops).automatic = none ∧ candidate % 2 = 0 ∧
          (run HlsClock.step new ops).candidateGeneration = candidate) ∧
        ∀ before after, ops = before ++ after → (run HlsClock.step new before).candidateGeneration = candidate →
          ∀ x ∈ history HlsClock.step (run HlsClock.step new before) after, ∀ automatic generation,
            x.input = .beginCandidate automatic → x.answer ≠ .candidate (.ok generation)) ∧
    ((run HlsClock.step new ops).rebuffering = true ↔ (run HlsClock.step new ops).phase = .held .rebuffer ∨
      ∃ token resumeAcb, (run HlsClock.step new ops).phase = .playIssuing token .rebuffer resumeAcb) := by
  have owned := run_owned ops
  refine ⟨⟨owned.outstanding, owned.rising⟩, ⟨owned.kinds, fun op token stale => step_completes _⟩, fun running => ?_,
    fun kind candidate recovery play reserved => ⟨reserved_guards reserved, ?_⟩, ?_⟩
  · exact owned.calm (by rw [running]; rfl)
  · rintro before after rfl snapshot
    have current := (reserved_guards reserved).2.2.2.2
    rw [Transducer.run_append] at current
    exact none_begun (run_owned before).fits (current.trans snapshot.symm)
  · rw [owned.mirror]
    generalize (run HlsClock.step new ops).phase = phase
    rcases phase with _ | _ | hold | ⟨token, hold, resumeAcb⟩ | _
    · simp [HlsClockPhase.rebuffers]
    · simp [HlsClockPhase.rebuffers]
    · cases hold <;> simp [HlsClockPhase.rebuffers]
    · cases hold <;> simp [HlsClockPhase.rebuffers]
    · simp [HlsClockPhase.rebuffers]

end HlsClock
end PlxNative.Feed
