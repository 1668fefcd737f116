import PlxNative.Feed.HlsClock

/-! What the operations of the clock come to. An act says what one operation did, and a turn says
what that act makes of the part of the state that ownership is about. -/
namespace PlxNative.Feed
open Option
open Transducer (Event event)

abbrev ClockStep : Type := Event HlsClock ClockOp ClockAnswer

/-- Phase, tokens, the viewer's hold, the lease, the generation and the mirror. -/
structure ClockView where
  phase : HlsClockPhase
  nextToken : Nat
  userHeld : Bool
  userSequence : Nat
  resumeAcbPending : Bool
  automatic : Option HlsAutomaticOwner
  candidateGeneration : Nat
  rebuffering : Bool

def HlsClock.view (c : HlsClock) : ClockView :=
  ⟨c.phase, c.nextToken, c.userHeld, c.userSequence, c.resumeAcbPending, c.automatic, c.candidateGeneration, c.rebuffering⟩

inductive ClockAct where
  /-- Nothing that ownership is about. -/
  | aside
  | arms (userHeld seekPreroll : Bool)
  /-- A native Pause is prepared, taken or refused. -/
  | prepares (token : Nat) (hold : ClockHold)
  | pauses (token : Nat) (hold : ClockHold)
  | unpauses (token : Nat)
  /-- A viewer's Pause on a clock that is held already. -/
  | holds
  /-- The hold is handed to a seek. -/
  | hands
  /-- A viewer's Resume that leaves the Play to a prime. -/
  | defers
  /-- A native Play is prepared, for the viewer or for a prime, and is taken or refused. -/
  | resumes (token : Nat)
  | reserves (token : Nat)
  | plays (token : Nat) (hold : ClockHold) (resumeAcb : Bool)
  | unplays (token : Nat)
  | leases (token : Nat)
  | authorizes (token : Nat)
  | publishes
  | stops
  | resets

/-- The hold of the Play that is on its way. -/
def HlsClockPhase.playHold : HlsClockPhase → ClockHold
  | .playIssuing _ hold _ => hold
  | _ => .initial

/-- The act of an operation, by what it met and what it answered. -/
def clockAct (c : HlsClock) : ClockOp → ClockAnswer → ClockAct
  | .armInitialClockHold userHeld seekPreroll, .flag true => .arms userHeld seekPreroll
  | .prepareRebufferPause, .rebufferPause (some token) => .prepares token .rebuffer
  | .prepareUserPause, .holdPause (some (.issue token)) => .prepares token .user
  | .prepareUserPause, .holdPause (some .alreadyHeld) => if c.userHeld then .aside else .holds
  | .prepareSeekPause, .holdPause (some (.issue token)) => .prepares token .seek
  | .prepareSeekPause, .holdPause (some .alreadyHeld) => .hands
  | .handHoldToSeekPrime, .flag true => .hands
  | .completeRebufferPause token _, .pauseCompleted .accepted => .pauses token .rebuffer
  | .completeUserPause token _, .pauseCompleted .accepted => .pauses token .user
  | .completeSeekPause token _, .pauseCompleted .accepted => .pauses token .seek
  | .completeRebufferPause token _, .pauseCompleted .refused => .unpauses token
  | .completeUserPause token _, .pauseCompleted .refused => .unpauses token
  | .completeSeekPause token _, .pauseCompleted .refused => .unpauses token
  | .prepareUserResume _, .userResume (some (.issue token)) => .resumes token
  | .prepareUserResume _, .userResume (some _) => .defers
  | .reservePrimePlay _ _ _, .reserved (some (token, _)) => .reserves token
  | .completePrimePlay token _, .playCompleted (.accepted resumeAcb) => .plays token c.phase.playHold resumeAcb
  | .completePrimePlay token _, .playCompleted .refused => .unplays token
  | .armTrialAt _ _, .lease (some token) => .leases token
  | .beginAutomaticAt _ _, .lease (some token) => .leases token
  | .authorizeCommit token, .flag true => .authorizes token
  | .beginCandidate (some _), .candidate (.error .superseded) => .aside
  | .beginCandidate (some _), .candidate (.error .stopping) => .aside
  | .beginCandidate (some token), .candidate _ => .authorizes token
  | .beginCandidate none, .candidate (.ok _) => .publishes
  | .stop, _ => .stops
  | .reset, _ => .resets
  | _, _ => .aside

/-- A generation that fits 64 bits grows, and still fits. -/
def GenerationGrows (before after : Nat) : Prop :=
  before ≤ HlsClock.lastGeneration → before ≤ after ∧ after ≤ HlsClock.lastGeneration

theorem GenerationGrows.refl (generation : Nat) : GenerationGrows generation generation := fun fits => ⟨Nat.le_refl _, fits⟩

inductive ClockTurn (v : ClockView) : ClockAct → ClockView → Prop where
  | aside {automatic : Option HlsAutomaticOwner} {generation : Nat} (owner : automatic = v.automatic ∨ automatic = none)
      (grows : GenerationGrows v.candidateGeneration generation) :
      ClockTurn v .aside { v with automatic := automatic, candidateGeneration := generation }
  | arms {userHeld seekPreroll : Bool} (running : v.phase = .running) :
      ClockTurn v (.arms userHeld seekPreroll)
        { v with phase := .held .initial, userHeld := userHeld && !seekPreroll, resumeAcbPending := userHeld && seekPreroll }
  | prepares {hold : ClockHold} (running : v.phase = .running) (kind : hold = .rebuffer ∨ hold = .user ∨ hold = .seek) :
      ClockTurn v (.prepares (v.nextToken + 1) hold)
        { v with nextToken := v.nextToken + 1, phase := .pauseIssuing (v.nextToken + 1) hold }
  | pauses {token : Nat} {hold : ClockHold} (issuing : v.phase = .pauseIssuing token hold) (other : hold ≠ .user) :
      ClockTurn v (.pauses token hold)
        { v with phase := .held hold, rebuffering := v.rebuffering || hold = .rebuffer }
  | pausesUser {token : Nat} (issuing : v.phase = .pauseIssuing token .user) :
      ClockTurn v (.pauses token .user)
        { v with phase := .held .user, userHeld := true, resumeAcbPending := false, userSequence := v.userSequence + 1 }
  | unpauses {token : Nat} {hold : ClockHold} (issuing : v.phase = .pauseIssuing token hold) :
      ClockTurn v (.unpauses token) { v with phase := .running }
  | holds {hold : ClockHold} (held : v.phase = .held hold) :
      ClockTurn v .holds { v with userHeld := true, resumeAcbPending := false, userSequence := v.userSequence + 1 }
  | hands {hold : ClockHold} (held : v.phase = .held hold) (other : hold ≠ .rebuffer) :
      ClockTurn v .hands
        { v with phase := .held .seek, userHeld := false, resumeAcbPending := v.resumeAcbPending || v.userHeld }
  | defers {hold next : ClockHold} (held : v.phase = .held hold) (user : v.userHeld = true)
      (moved : next = hold ∨ hold = .user ∧ next = .resumePrime) :
      ClockTurn v .defers
        { v with phase := .held next, userHeld := false, resumeAcbPending := true, userSequence := v.userSequence + 1 }
  | resumes (held : v.phase = .held .user) (user : v.userHeld = true) :
      ClockTurn v (.resumes (v.nextToken + 1))
        { v with nextToken := v.nextToken + 1, phase := .playIssuing (v.nextToken + 1) .user true }
  | reserves {hold : ClockHold} (held : v.phase = .held hold) (other : hold ≠ .user) (free : v.userHeld = false) :
      ClockTurn v (.reserves (v.nextToken + 1))
        { v with nextToken := v.nextToken + 1, phase := .playIssuing (v.nextToken + 1) hold v.resumeAcbPending }
  | plays {token : Nat} {hold : ClockHold} {resumeAcb : Bool} (issuing : v.phase = .playIssuing token hold resumeAcb) :
      ClockTurn v (.plays token hold resumeAcb)
        { v with
          phase := .running
          userHeld := false
          resumeAcbPending := false
          userSequence := if hold = .user then v.userSequence + 1 else v.userSequence
          rebuffering := v.rebuffering && hold ≠ .rebuffer }
  | unplays {token : Nat} {hold : ClockHold} {resumeAcb : Bool} (issuing : v.phase = .playIssuing token hold resumeAcb) :
      ClockTurn v (.unplays token) { v with phase := .held hold, userHeld := v.userHeld || hold = .user }
  | leases {kind : HlsAutomaticTransition} (free : v.automatic = none) (unheld : v.userHeld = false) :
      ClockTurn v (.leases (v.nextToken + 1))
        { v with nextToken := v.nextToken + 1, automatic := some ⟨v.nextToken + 1, kind, .working, v.userSequence⟩ }
  | authorizes {owner : HlsAutomaticOwner} {generation : Nat} (own : v.automatic = some owner)
      (current : owner.userSequence = v.userSequence) (grows : GenerationGrows v.candidateGeneration generation) :
      ClockTurn v (.authorizes owner.token)
        { v with automatic := some { owner with phase := .commitAuthorized }, candidateGeneration := generation }
  | publishes (fits : v.candidateGeneration < HlsClock.lastGeneration) :
      ClockTurn v .publishes { v with candidateGeneration := v.candidateGeneration + 1 }
  | stops :
      ClockTurn v .stops
        { v with phase := .stopping, userHeld := false, resumeAcbPending := false, automatic := none, rebuffering := false }
  | resets {generation : Nat} (grows : GenerationGrows v.candidateGeneration generation) :
      ClockTurn v .resets
        { v with
          phase := .running
          userHeld := false
          resumeAcbPending := false
          automatic := none
          candidateGeneration := generation
          rebuffering := false }

namespace ClockTurn

theorem same (v : ClockView) : ClockTurn v .aside v := .aside (.inl rfl) (.refl _)

end ClockTurn

namespace HlsClock
variable {c : HlsClock}

def Turns (c : HlsClock) (op : ClockOp) (result : HlsClock × ClockAnswer) : Prop :=
  ClockTurn c.view (clockAct c op result.2) result.1.view

theorem armInitialClockHold_turns (userHeld seekPreroll : Bool) :
    Turns c (.armInitialClockHold userHeld seekPreroll) (c.armInitialClockHold userHeld seekPreroll) := by
  unfold armInitialClockHold
  split
  · exact .same c.view
  · rename_i ready
    simp only [Bool.or_eq_true, decide_eq_true_eq, not_or, not_not] at ready
    exact .arms ready.1.1

theorem prepareRebufferPause_turns : Turns c .prepareRebufferPause c.prepareRebufferPause := by
  unfold prepareRebufferPause
  split
  · exact .same c.view
  · rename_i ready
    simp only [Bool.or_eq_true, decide_eq_true_eq, not_or, not_not] at ready
    exact .prepares ready.1 (.inl rfl)

theorem completeRebufferPause_turns (token : Nat) (accepted : Bool) :
    Turns c (.completeRebufferPause token accepted) (c.completeRebufferPause token accepted) := by
  unfold completeRebufferPause
  split
  · exact .same c.view
  · rename_i own
    have issuing : c.view.phase = .pauseIssuing token .rebuffer := not_not.mp own
    cases accepted with
    | true =>
      have turn := ClockTurn.pauses issuing (by decide)
      rwa [show (c.view.rebuffering || decide (ClockHold.rebuffer = .rebuffer)) = true from Bool.or_true _] at turn
    | false => exact .unpauses issuing

theorem prepareUserPause_turns : Turns c .prepareUserPause c.prepareUserPause := by
  unfold prepareUserPause Turns
  split
  · exact .same c.view
  · split
    · rename_i user
      simp only [clockAct, if_pos user]
      exact .same c.view
    · rename_i user
      split
      · rename_i hold held
        simp only [clockAct, if_neg user]
        exact .holds held
      · rename_i running
        exact .prepares running (.inr (.inl rfl))
      · exact .same c.view

theorem completeUserPause_turns (token : Nat) (accepted : Bool) :
    Turns c (.completeUserPause token accepted) (c.completeUserPause token accepted) := by
  unfold completeUserPause
  split
  · exact .same c.view
  · rename_i own
    have issuing : c.view.phase = .pauseIssuing token .user := not_not.mp own
    cases accepted with
    | true => exact .pausesUser issuing
    | false => exact .unpauses issuing

theorem completeSeekPause_turns (token : Nat) (accepted : Bool) :
    Turns c (.completeSeekPause token accepted) (c.completeSeekPause token accepted) := by
  unfold completeSeekPause
  split
  · exact .same c.view
  · rename_i own
    have issuing : c.view.phase = .pauseIssuing token .seek := not_not.mp own
    cases accepted with
    | true =>
      have turn := ClockTurn.pauses issuing (by decide)
      rwa [show (c.view.rebuffering || decide (ClockHold.seek = .rebuffer)) = c.view.rebuffering from Bool.or_false _] at turn
    | false => exact .unpauses issuing

theorem handed_turn {t : HlsClock} (found : c.handed = some t) : ClockTurn c.view .hands t.view := by
  unfold handed at found
  split at found <;> cases found <;> exact .hands ‹_› (by decide)

theorem prepareSeekPause_turns : Turns c .prepareSeekPause c.prepareSeekPause := by
  unfold prepareSeekPause
  split
  · rename_i running
    exact .prepares running (.inr (.inr rfl))
  · split
    · rename_i t found
      exact handed_turn found
    · exact .same c.view

theorem handHoldToSeekPrime_turns : Turns c .handHoldToSeekPrime c.handHoldToSeekPrime := by
  unfold handHoldToSeekPrime
  split
  · rename_i t found
    exact handed_turn found
  · exact .same c.view

theorem prepareUserResume_turns (queuedStream : Bool) :
    Turns c (.prepareUserResume queuedStream) (c.prepareUserResume queuedStream) := by
  unfold prepareUserResume
  split
  · exact .same c.view
  · rename_i ready
    simp only [Bool.or_eq_true, decide_eq_true_eq, Bool.not_eq_true', not_or, Bool.not_eq_false] at ready
    have user : c.view.userHeld = true := ready.2
    split
    · rename_i hold phase
      have held : c.view.phase = .held hold := phase
      split
      · have turn := ClockTurn.defers held user (.inl rfl)
        rwa [← held] at turn
      · rename_i own
        obtain rfl : hold = .user := not_not.mp own
        split
        · exact .defers held user (.inr ⟨rfl, rfl⟩)
        · exact .resumes held user
    · exact .same c.view

theorem reservePrimePlay_turns (kind : HlsPrimeKind) (candidate : Nat) (recovery : HlsRecoveryEpoch) :
    Turns c (.reservePrimePlay kind candidate recovery) (c.reservePrimePlay kind candidate recovery) := by
  unfold reservePrimePlay
  split
  · exact .same c.view
  · rename_i ready
    simp only [Bool.or_eq_true, not_or, Bool.not_eq_true] at ready
    split
    · rename_i hold held
      split
      · exact .same c.view
      · rename_i prime
        refine .reserves held ?_ ready.2
        rintro rfl
        exact prime nofun
    · exact .same c.view

theorem completePrimePlay_turns (token : Nat) (accepted : Bool) :
    Turns c (.completePrimePlay token accepted) (c.completePrimePlay token accepted) := by
  unfold completePrimePlay Turns
  split
  · rename_i active hold resumeAcb phase
    have issuing : c.view.phase = .playIssuing active hold resumeAcb := phase
    split
    · exact .same c.view
    · rename_i own
      obtain rfl : active = token := not_not.mp own
      cases accepted with
      | true =>
        have turn := ClockTurn.plays issuing
        simp only [if_true, clockAct, phase, HlsClockPhase.playHold]
        convert turn using 1
        unfold played view
        cases hold <;> simp [advanceUserSequence]
      | false =>
        have turn := ClockTurn.unplays issuing
        simp only [Bool.false_eq_true, if_false, clockAct]
        convert turn using 1
        unfold view
        cases hold <;> simp
  · exact .same c.view

theorem publish_answer (c : HlsClock) : (c.publish = (c, .candidate (.error .overlap)) ∨ c.publish = (c, .candidate (.error .exhausted))) ∨
    c.candidateGeneration ≠ lastGeneration ∧
      c.publish = ({ c with candidateGeneration := c.candidateGeneration + 1 }, .candidate (.ok (c.candidateGeneration + 1))) := by
  unfold publish
  split
  · exact .inl (.inl rfl)
  · split
    · exact .inl (.inr rfl)
    · rename_i room
      exact .inr ⟨room, rfl⟩

theorem grows_succ {generation : Nat} (room : generation ≠ lastGeneration) : GenerationGrows generation (generation + 1) :=
  fun fits => ⟨Nat.le_succ _, Nat.lt_of_le_of_ne fits room⟩

theorem authorized_turn {owner : HlsAutomaticOwner} {token generation : Nat} (own : c.automatic = some owner)
    (ready : c.committing owner token = true) (grows : GenerationGrows c.candidateGeneration generation) :
    ClockTurn c.view (.authorizes token) { c.authorized.view with candidateGeneration := generation } := by
  simp only [committing, Bool.and_eq_true, decide_eq_true_eq] at ready
  obtain ⟨⟨⟨rfl, working⟩, current⟩, unheld⟩ := ready
  have found : c.view.automatic = some owner := own
  have eq : c.authorized.view = { c.view with automatic := some { owner with phase := .commitAuthorized } } := by
    simp only [view, authorized, own]
    rfl
  rw [eq]
  exact .authorizes found current grows

theorem beginCandidate_turns (bounded : c.candidateGeneration ≤ lastGeneration) (automatic : Option Nat) :
    Turns c (.beginCandidate automatic) (c.beginCandidate automatic) := by
  unfold beginCandidate Turns
  split
  · cases automatic <;> exact .same c.view
  · cases automatic <;> exact .same c.view
  · cases automatic with
    | none =>
      rcases c.publish_answer with (eq | eq) | ⟨room, eq⟩ <;> simp only [eq]
      · exact .same c.view
      · exact .same c.view
      · exact .publishes (Nat.lt_of_le_of_ne bounded room)
    | some token =>
      cases own : c.automatic with
      | none => exact .same c.view
      | some owner =>
        simp only
        split
        · rename_i ready
          obtain ⟨commits, -⟩ := Bool.and_eq_true_iff.mp ready
          rcases c.authorized.publish_answer with (answer | answer) | ⟨room, answer⟩ <;> simp only [answer, clockAct]
          · exact authorized_turn own commits (.refl _)
          · exact authorized_turn own commits (.refl _)
          · exact authorized_turn own commits (grows_succ room)
        · exact .same c.view

theorem rebased_view (c : HlsClock) : c.rebased.view = c.view := by
  unfold rebased
  split <;> rfl

theorem settleCandidate_turns (generation : Nat) : Turns c (.settleCandidate generation) (c.settleCandidate generation) := by
  unfold settleCandidate Turns
  split
  · rw [show (c.rebased, ClockAnswer.flag false).1.view = c.view from c.rebased_view]
    exact .same c.view
  · rename_i own
    simp only [Bool.or_eq_true, decide_eq_true_eq, not_or, Nat.not_le, not_not] at own
    obtain ⟨room, rfl⟩ := own
    have turn : ClockTurn c.view .aside { c.view with candidateGeneration := c.candidateGeneration + 1 } :=
      .aside (.inl rfl) (grows_succ (Nat.ne_of_lt room))
    rw [← c.rebased_view] at turn
    rw [← c.rebased_view]
    exact turn

theorem leased_turn {token : Nat} (kind : HlsAutomaticTransition) (free : c.automatic = none) (unheld : c.userHeld = false)
    (next : token = c.nextToken + 1) : ClockTurn c.view (.leases token) (c.leased kind).view := by
  subst next
  exact .leases free unheld

theorem armTrialAt_turns (runwayMs : Int) (userSequence : Nat) :
    Turns c (.armTrialAt runwayMs userSequence) (c.armTrialAt runwayMs userSequence) := by
  unfold armTrialAt
  split
  · exact .same c.view
  · rename_i ready
    simp only [Bool.or_eq_true, not_or, Bool.not_eq_true, isSome_eq_false_iff, isNone_iff_eq_none] at ready
    exact leased_turn .qualityUp ready.1.1.2 ready.1.1.1.1.2 rfl

theorem beginAutomaticAt_turns (kind : HlsAutomaticTransition) (userSequence : Nat) :
    Turns c (.beginAutomaticAt kind userSequence) (c.beginAutomaticAt kind userSequence) := by
  unfold beginAutomaticAt
  split
  · exact .same c.view
  · rename_i ready
    simp only [Bool.or_eq_true, not_or, Bool.not_eq_true, isSome_eq_false_iff, isNone_iff_eq_none] at ready
    exact leased_turn kind ready.1.1.1.1.1 ready.1.1.1.1.2 rfl

theorem finishTrial_turns (token : Nat) : Turns c (.finishTrial token) (c.finishTrial token) := by
  unfold finishTrial
  split
  · exact .aside (.inr rfl) (.refl _)
  · exact .same c.view

theorem finishAutomatic_turns (token : Nat) : Turns c (.finishAutomatic token) (c.finishAutomatic token) := by
  unfold finishAutomatic
  split
  · exact .aside (.inr rfl) (.refl _)
  · exact .same c.view

theorem authorizeCommit_turns (token : Nat) : Turns c (.authorizeCommit token) (c.authorizeCommit token) := by
  unfold authorizeCommit
  split
  · rename_i ready
    simp only [Bool.and_eq_true, any_eq_true_iff_get] at ready
    obtain ⟨-, some_, own⟩ := ready
    obtain ⟨owner, found⟩ := isSome_iff_exists.mp some_
    rw [get_of_eq_some some_ found] at own
    exact authorized_turn found own (.refl _)
  · exact .same c.view

theorem step_turns (bounded : c.candidateGeneration ≤ lastGeneration) (op : ClockOp) : Turns c op (c.step op) := by
  cases op with
  | armInitialClockHold userHeld seekPreroll => exact armInitialClockHold_turns userHeld seekPreroll
  | prepareRebufferPause => exact prepareRebufferPause_turns
  | completeRebufferPause token accepted => exact completeRebufferPause_turns token accepted
  | prepareUserPause => exact prepareUserPause_turns
  | completeUserPause token accepted => exact completeUserPause_turns token accepted
  | prepareSeekPause => exact prepareSeekPause_turns
  | handHoldToSeekPrime => exact handHoldToSeekPrime_turns
  | completeSeekPause token accepted => exact completeSeekPause_turns token accepted
  | prepareUserResume queuedStream => exact prepareUserResume_turns queuedStream
  | reservePrimePlay kind candidate recovery => exact reservePrimePlay_turns kind candidate recovery
  | completePrimePlay token accepted => exact completePrimePlay_turns token accepted
  | beginCandidate automatic => exact beginCandidate_turns bounded automatic
  | settleCandidate generation => exact settleCandidate_turns generation
  | armTrialAt runwayMs userSequence => exact armTrialAt_turns runwayMs userSequence
  | finishTrial token => exact finishTrial_turns token
  | beginAutomaticAt kind userSequence => exact beginAutomaticAt_turns kind userSequence
  | authorizeCommit token => exact authorizeCommit_turns token
  | finishAutomatic token => exact finishAutomatic_turns token
  | observeRecovery acquisitionUs mediaUs => exact .same c.view
  | requestRebuffer requested => exact .same c.view
  | stop => exact .stops
  | reset =>
    refine .resets (fun fits => ?_)
    show c.candidateGeneration ≤ nextGeneration c.candidateGeneration ∧ nextGeneration c.candidateGeneration ≤ lastGeneration
    have fits' : c.candidateGeneration ≤ lastGeneration := fits
    unfold nextGeneration
    omega

end HlsClock

theorem ClockTurn.grows {v w : ClockView} {act : ClockAct} (turn : ClockTurn v act w) :
    GenerationGrows v.candidateGeneration w.candidateGeneration := by
  cases turn with
  | aside owner grows => exact grows
  | authorizes own current grows => exact grows
  | resets grows => exact grows
  | publishes fits => exact fun _ => ⟨Nat.le_succ _, fits⟩
  | _ => exact .refl _

end PlxNative.Feed
