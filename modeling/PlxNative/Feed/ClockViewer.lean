import PlxNative.Feed.ClockOwner

/-! What the viewer asked of the clock, along every run: a Pause stands until the viewer, a seek or
a new session ends it, its ACB half is resumed with the Play that ends the hold, and each Pause and
Resume that is taken outdates the leases before it. -/
namespace PlxNative.Feed
open Nat
open Transducer (Event event history history_invariant history_split run run_append)

section

namespace ClockAct

def pausesViewer : ClockAct → Bool
  | .pauses _ .user | .holds => true
  | _ => false

def resumesViewer : ClockAct → Bool
  | .defers | .plays _ .user _ => true
  | _ => false

/-- The clock is put under the viewer's hold. -/
def keepsHeld : ClockAct → Bool
  | .arms true false => true
  | act => act.pausesViewer

/-- What ends the viewer's hold: a Resume, a seek that takes it over, a new session. -/
def freesHeld : ClockAct → Bool
  | .hands | .resets => true
  | act => act.resumesViewer

/-- Whether ACB is paused after an act, by whether it was before. -/
def acb (paused : Bool) : ClockAct → Bool
  | .pauses _ .user | .holds | .arms true _ => true
  | .plays _ _ true | .resets => false
  | _ => paused

end ClockAct

/-- ACB was paused for the viewer, and no Play since has owed its resume. -/
def acbPaused (past : List ClockStep) : Bool := past.foldl (fun paused x => (actOf x).acb paused) false

theorem acbPaused_snoc (past : List ClockStep) (x : ClockStep) : acbPaused (past ++ [x]) = (actOf x).acb (acbPaused past) := by
  simp [acbPaused]

end

section
variable {v w : ClockView} {act : ClockAct}

/-- The ACB half of a viewer's Pause, wherever the hold has gone. -/
structure OwesAcb (v : ClockView) : Prop where
  held : v.phase ≠ .stopping → v.userHeld = true ∨ v.resumeAcbPending = true
  playing : ∀ token hold resumeAcb, v.phase = .playIssuing token hold resumeAcb → resumeAcb = true

theorem OwesAcb.idle (owes : OwesAcb v) (calm : v.phase.runs = true → v.userHeld = false ∧ v.resumeAcbPending = false)
    (running : v.phase.runs = true) : False := by
  obtain ⟨unheld, unpending⟩ := calm running
  have other : v.phase ≠ .stopping := fun eq => by
    rw [eq] at running
    cases running
  rcases owes.held other with held | pending
  · rw [unheld] at held
    cases held
  · rw [unpending] at pending
    cases pending

theorem ClockTurn.owes (turn : ClockTurn v act w) {paused : Bool} (owes : paused = true → OwesAcb v)
    (calm : v.phase.runs = true → v.userHeld = false ∧ v.resumeAcbPending = false) (now : act.acb paused = true) :
    OwesAcb w := by
  cases turn with
  | @arms userHeld seekPreroll running =>
    cases userHeld with
    | true => exact ⟨fun _ => by cases seekPreroll <;> simp, nofun⟩
    | false => exact ((owes now).idle calm (by rw [running]; rfl)).elim
  | prepares running => exact ((owes now).idle calm (by rw [running]; rfl)).elim
  | @pauses token hold issuing other =>
    have before : paused = true := by cases hold <;> first | exact now | exact absurd rfl other
    exact ((owes before).idle calm (by rw [issuing]; rfl)).elim
  | pausesUser => exact ⟨fun _ => .inl rfl, nofun⟩
  | unpauses issuing => exact ((owes now).idle calm (by rw [issuing]; rfl)).elim
  | holds held => exact ⟨fun _ => .inl rfl, fun token hold resumeAcb issuing => by rw [held] at issuing; cases issuing⟩
  | hands held =>
    have either := (owes now).held (by rw [held]; nofun)
    exact ⟨fun _ => .inr (by simpa [or_comm] using either), nofun⟩
  | defers => exact ⟨fun _ => .inr rfl, nofun⟩
  | resumes held user => exact ⟨fun _ => .inl user, fun _ _ _ eq => by cases eq; rfl⟩
  | reserves held other free =>
    have either := (owes now).held (by rw [held]; nofun)
    have pending : v.resumeAcbPending = true := either.resolve_left (by rw [free]; exact Bool.false_ne_true)
    exact ⟨fun _ => .inr pending, fun _ _ _ eq => by cases eq; exact pending⟩
  | @plays token hold resumeAcb issuing =>
    cases resumeAcb with
    | true => cases hold <;> cases now
    | false =>
      have before : paused = true := by cases hold <;> exact now
      exact absurd ((owes before).playing _ _ _ issuing) Bool.false_ne_true
  | unplays issuing =>
    have either := (owes now).held (by rw [issuing]; nofun)
    exact ⟨fun _ => either.imp_left fun user => by simp [user], nofun⟩
  | stops => exact ⟨fun other => absurd rfl other, nofun⟩
  | resets => cases now
  | aside | leases | authorizes | publishes => exact ⟨(owes now).held, (owes now).playing⟩

/-- The viewer holds the clock, and only the viewer's own Play may be on its way. -/
structure HeldByViewer (v : ClockView) : Prop where
  held : v.userHeld = true ∨ v.phase = .stopping
  own : ∀ token hold resumeAcb, v.phase = .playIssuing token hold resumeAcb → hold = .user

theorem HeldByViewer.idle (held : HeldByViewer v) (calm : v.phase.runs = true → v.userHeld = false ∧ v.resumeAcbPending = false)
    (running : v.phase.runs = true) : False := by
  rcases held.held with user | stopping
  · rw [(calm running).1] at user
    cases user
  · rw [stopping] at running
    cases running

theorem HeldByViewer.user (held : HeldByViewer v) (going : v.phase ≠ .stopping) : v.userHeld = true :=
  held.held.resolve_right going

section
variable (turn : ClockTurn v act w)
include turn

theorem ClockTurn.stays (held : HeldByViewer v)
    (calm : v.phase.runs = true → v.userHeld = false ∧ v.resumeAcbPending = false) (kept : act.freesHeld = false) :
    HeldByViewer w := by
  cases turn with
  | arms running => exact (held.idle calm (by rw [running]; rfl)).elim
  | prepares running => exact (held.idle calm (by rw [running]; rfl)).elim
  | pauses issuing => exact (held.idle calm (by rw [issuing]; rfl)).elim
  | unpauses issuing => exact (held.idle calm (by rw [issuing]; rfl)).elim
  | pausesUser => exact ⟨.inl rfl, nofun⟩
  | holds phase => exact ⟨.inl rfl, held.own⟩
  | resumes _ user => exact ⟨.inl user, fun _ _ _ eq => by cases eq; rfl⟩
  | reserves phase other free =>
    have user := held.user (by rw [phase]; nofun)
    rw [free] at user
    cases user
  | plays issuing =>
    obtain rfl := held.own _ _ _ issuing
    cases kept
  | unplays issuing =>
    have user := held.user (by rw [issuing]; nofun)
    exact ⟨.inl (by simp [user]), nofun⟩
  | stops => exact ⟨.inr rfl, nofun⟩
  | hands | defers | resets => cases kept
  | aside | leases | authorizes | publishes => exact ⟨held.held, held.own⟩

theorem ClockTurn.begins (keeps : act.keepsHeld = true) : HeldByViewer w := by
  cases turn with
  | @arms userHeld seekPreroll running =>
    cases userHeld <;> cases seekPreroll <;> first | exact ⟨.inl rfl, nofun⟩ | cases keeps
  | @pauses token hold issuing other => cases hold <;> first | exact absurd rfl other | cases keeps
  | pausesUser => exact ⟨.inl rfl, nofun⟩
  | holds phase => exact ⟨.inl rfl, fun _ _ _ issuing => by rw [phase] at issuing; cases issuing⟩
  | _ => cases keeps

theorem ClockTurn.sequence :
    w.userSequence = v.userSequence + if act.pausesViewer || act.resumesViewer then 1 else 0 := by
  cases turn with
  | @pauses token hold issuing other => cases hold <;> first | rfl | exact absurd rfl other
  | @plays token hold resumeAcb issuing => cases hold <;> rfl
  | _ => rfl

/-- A lease that was taken at a viewer's sequence keeps that sequence as its own. -/
structure LeasedAt (token sequence : Nat) (v : ClockView) : Prop where
  taken : token ≤ v.nextToken
  since : sequence ≤ v.userSequence
  own : ∀ owner, v.automatic = some owner → owner.token = token → owner.userSequence = sequence

theorem ClockTurn.leased {token sequence : Nat} (leased : LeasedAt token sequence v) :
    LeasedAt token sequence w := by
  have later : sequence ≤ w.userSequence := by
    rw [turn.sequence]
    exact le_add_right_of_le leased.since
  refine ⟨Nat.le_trans leased.taken turn.takes.1, later, ?_⟩
  cases turn with
  | aside owner =>
    rcases owner with eq | none
    · exact eq ▸ leased.own
    · exact none ▸ nofun
  | leases =>
    rintro owner eq rfl
    cases eq
    exact absurd leased.taken (not_succ_le_self _)
  | @authorizes owner generation own =>
    rintro next eq rfl
    cases eq
    exact leased.own owner own rfl
  | stops | resets => exact nofun
  | _ => exact leased.own

end

theorem ClockTurn.takes_lease {token : Nat} (turn : ClockTurn v (.leases token) w) : LeasedAt token v.userSequence w := by
  cases turn with
  | leases => exact ⟨Nat.le_refl _, Nat.le_refl _, fun owner eq _ => by cases eq; rfl⟩

end
namespace HlsClock

section
variable {past : List ClockStep} {c : HlsClock}

theorem Owned.turn (owned : Owned past c) (op : ClockOp) :
    ClockTurn c.view (actOf (event HlsClock.step c op)) (c.step op).1.view := step_turns owned.fits op

theorem run_owes (ops : List ClockOp) (paused : acbPaused (history HlsClock.step new ops) = true) :
    OwesAcb (run HlsClock.step new ops).view := by
  have kept : Owned (history HlsClock.step new ops) (run HlsClock.step new ops) ∧
      (acbPaused (history HlsClock.step new ops) = true → OwesAcb (run HlsClock.step new ops).view) := by
    refine history_invariant (R := fun past c => Owned past c ∧ (acbPaused past = true → OwesAcb c.view)) HlsClock.step
      ?_ ⟨new_owned, nofun⟩ ops
    rintro past c op ⟨owned, owes⟩
    refine ⟨owned.step op, fun now => ?_⟩
    rw [acbPaused_snoc] at now
    exact (owned.turn op).owes owes owned.calm now
  exact kept.2 paused

theorem run_split {ops : List ClockOp} {before after : List ClockStep} {x : ClockStep}
    (split : history HlsClock.step new ops = before ++ x :: after) :
    ∃ rest, after = history HlsClock.step x.after rest ∧ run HlsClock.step new ops = run HlsClock.step x.after rest ∧
      Owned (before ++ [x]) x.after ∧ ClockTurn x.before.view (actOf x) x.after.view := by
  obtain ⟨first, op, rest, rfl, rfl, rfl, rfl⟩ := history_split HlsClock.step split
  have owned := run_owned first
  exact ⟨rest, rfl, by rw [run_append]; rfl, owned.step op, owned.turn op⟩

theorem run_keeps {P : ClockView → Prop} {G : ClockAct → Prop}
    (keep : ∀ {v w act}, ClockTurn v act w → (v.phase.runs = true → v.userHeld = false ∧ v.resumeAcbPending = false) →
      G act → P v → P w)
    (owned : Owned past c) (start : P c.view) {ops : List ClockOp} (guarded : ∀ x ∈ history HlsClock.step c ops, G (actOf x)) :
    P (run HlsClock.step c ops).view := by
  induction ops generalizing past c with
  | nil => exact start
  | cons op rest ih =>
    have next : P (c.step op).1.view := keep (owned.turn op) owned.calm (guarded _ List.mem_cons_self) start
    exact ih (owned.step op) next (fun x mem => guarded x (List.mem_cons_of_mem _ mem))

theorem run_counts (owned : Owned past c) {ops : List ClockOp} {y : ClockStep} (mem : y ∈ history HlsClock.step c ops)
    (counts : (actOf y).pausesViewer = true ∨ (actOf y).resumesViewer = true) :
    c.userSequence < (run HlsClock.step c ops).userSequence := by
  induction ops generalizing past c with
  | nil => cases mem
  | cons op rest ih =>
    have counted : (c.step op).1.userSequence = c.userSequence + _ := (owned.turn op).sequence
    rcases List.mem_cons.mp mem with rfl | later
    · have moved : c.userSequence < (c.step op).1.userSequence := by
        rw [counted, if_pos (by simpa using counts)]
        exact lt_succ_self _
      exact Nat.lt_of_lt_of_le moved (run_keeps (P := fun v => (c.step op).1.userSequence ≤ v.userSequence) (G := fun _ => True)
        (fun turn _ _ above => by rw [turn.sequence]; exact le_add_right_of_le above) (owned.step op) (Nat.le_refl _)
        (fun _ _ => trivial))
    · exact Nat.lt_of_le_of_lt (counted ▸ Nat.le_add_right _ _) (ih (owned.step op) later)

theorem held_unreserved (held : HeldByViewer c.view) (kind : HlsPrimeKind) (candidate : Nat) (recovery : HlsRecoveryEpoch) :
    (c.reservePrimePlay kind candidate recovery).2 = .reserved none := by
  unfold reservePrimePlay
  split
  · rfl
  · rename_i free
    split
    · rename_i hold phase
      have user : c.userHeld = true := held.user (fun stopping => by
        have eq : c.phase = .stopping := stopping
        rw [phase] at eq
        cases eq)
      simp [user] at free
    · rfl

theorem leased_unauthorized {token sequence : Nat} (leased : LeasedAt token sequence c.view) (moved : sequence < c.userSequence) :
    (c.authorizeCommit token).2 = .flag false ∧ ∀ generation, (c.beginCandidate (some token)).2 ≠ .candidate (.ok generation) := by
  have outdated : ∀ owner, c.automatic = some owner → c.committing owner token = false := by
    intro owner own
    by_contra commits
    simp only [committing, Bool.not_eq_false, Bool.and_eq_true, decide_eq_true_eq] at commits
    obtain ⟨⟨⟨eq, -⟩, current⟩, -⟩ := commits
    have since := leased.own owner own eq
    omega
  constructor
  · unfold authorizeCommit
    cases own : c.automatic with
    | none => simp
    | some owner => simp [outdated owner own]
  · intro generation begun
    unfold beginCandidate at begun
    split at begun
    · cases begun
    · cases begun
    · cases own : c.automatic with
      | none =>
        rw [own] at begun
        cases begun
      | some owner =>
        simp only [own, outdated owner own] at begun
        cases begun

end

/-- What is read as a viewer's Pause outlives neither a start under the hold for a seek, which its
prime may play at once and which the viewer's sequence does not count, nor a new session, whose
first Play owes no resume. -/
theorem arming_and_resetting_end_a_pause :
    acbPaused (history HlsClock.step new [.armInitialClockHold true true]) = true ∧
    (run HlsClock.step new [.armInitialClockHold true true]).userSequence = new.userSequence ∧
    ((run HlsClock.step new [.armInitialClockHold true true]).reservePrimePlay .fresh 0 .idle).2 = .reserved (some (1, .idle)) ∧
    ((run HlsClock.step new [.prepareUserPause, .completeUserPause 1 true, .reset, .armInitialClockHold false false,
      .reservePrimePlay .fresh 2 .idle]).completePrimePlay 2 true).2 = .playCompleted (.accepted false) := by
  refine ⟨by decide, rfl, rfl, rfl⟩

/-- After every run: while ACB is paused for the viewer, a Play that is taken owes its resume; from
a viewer's Pause, or a start under the hold, until a Resume is taken, a seek takes the hold over or
a session begins, no prime Play is reserved; the viewer's sequence counts the Pauses and the Resumes
that are taken; and no lease is authorized once one of them has come after it. -/
theorem viewer_pause_is_kept (ops : List ClockOp) :
    (acbPaused (history HlsClock.step new ops) = true → ∀ token resumeAcb,
      ((run HlsClock.step new ops).completePrimePlay token true).2 = .playCompleted (.accepted resumeAcb) → resumeAcb = true) ∧
    (∀ before x after, history HlsClock.step new ops = before ++ x :: after → (actOf x).keepsHeld = true →
      (∀ y ∈ after, (actOf y).freesHeld = false) → ∀ kind candidate recovery,
        ((run HlsClock.step new ops).reservePrimePlay kind candidate recovery).2 = .reserved none) ∧
    (∀ x ∈ history HlsClock.step new ops, x.before.userSequence ≤ x.after.userSequence ∧
      ((actOf x).pausesViewer = true ∨ (actOf x).resumesViewer = true → x.before.userSequence < x.after.userSequence)) ∧
    ∀ before x after token, history HlsClock.step new ops = before ++ x :: after → actOf x = .leases token →
      (∃ y ∈ after, (actOf y).pausesViewer = true ∨ (actOf y).resumesViewer = true) →
        ((run HlsClock.step new ops).authorizeCommit token).2 = .flag false ∧
          ∀ generation, ((run HlsClock.step new ops).beginCandidate (some token)).2 ≠ .candidate (.ok generation) := by
  refine ⟨fun paused token resumeAcb taken => ?_, fun before x after split keeps kept kind candidate recovery => ?_,
    fun x member => ?_, fun before x after token split leases ⟨y, member, counts⟩ => ?_⟩
  · have owes := run_owes ops paused
    unfold completePrimePlay at taken
    split at taken
    · rename_i active hold resume phase
      split at taken <;> cases taken
      exact owes.playing _ _ _ phase
    · cases taken
  · obtain ⟨rest, rfl, same, owned, turn⟩ := run_split split
    rw [same]
    exact held_unreserved (run_keeps (fun turn calm kept held => turn.stays held calm kept) owned (turn.begins keeps) kept) kind
      candidate recovery
  · obtain ⟨before, after, split⟩ := List.append_of_mem member
    obtain ⟨-, -, -, -, turn⟩ := run_split split
    have counted : x.after.userSequence = x.before.userSequence + _ := turn.sequence
    rw [counted]
    refine ⟨Nat.le_add_right _ _, fun counts => ?_⟩
    rw [if_pos (by simpa using counts)]
    exact lt_succ_self _
  · obtain ⟨rest, rfl, same, owned, turn⟩ := run_split split
    rw [same]
    rw [leases] at turn
    have leased := turn.takes_lease
    have kept : LeasedAt token x.before.view.userSequence (run HlsClock.step x.after rest).view :=
      run_keeps (G := fun _ => True) (fun turn _ _ leased => turn.leased leased) owned leased (fun _ _ => trivial)
    exact leased_unauthorized kept (Nat.lt_of_le_of_lt leased.since (run_counts owned member counts))

/-- A lease, then a Pause of the viewer that is taken, then a Resume for the prime. -/
theorem viewer_pause_is_kept_once :
    (∃ resumeAcb, ((run HlsClock.step new [.prepareUserPause, .completeUserPause 1 true, .prepareUserResume true,
      .reservePrimePlay .resume 0 .idle]).completePrimePlay 2 true).2 = .playCompleted (.accepted resumeAcb) ∧ resumeAcb = true) ∧
    ((run HlsClock.step new [.prepareUserPause, .completeUserPause 1 true]).reservePrimePlay .resume 0 .idle).2 = .reserved none ∧
    ((run HlsClock.step new [.beginAutomaticAt .original 0, .prepareUserPause, .completeUserPause 2 true]).authorizeCommit 1).2 =
      .flag false := by
  have taken : ((run HlsClock.step new [.prepareUserPause, .completeUserPause 1 true, .prepareUserResume true,
      .reservePrimePlay .resume 0 .idle]).completePrimePlay 2 true).2 = .playCompleted (.accepted true) := rfl
  refine ⟨⟨true, taken, (viewer_pause_is_kept _).1 (by decide) 2 true taken⟩, ?_, ?_⟩
  · exact (viewer_pause_is_kept [.prepareUserPause, .completeUserPause 1 true]).2.1 (history HlsClock.step new [.prepareUserPause])
      (event HlsClock.step (run HlsClock.step new [.prepareUserPause]) (.completeUserPause 1 true)) [] rfl (by decide)
      (fun _ member => absurd member List.not_mem_nil) .resume 0 .idle
  · refine ((viewer_pause_is_kept [.beginAutomaticAt .original 0, .prepareUserPause, .completeUserPause 2 true]).2.2.2 []
      (event HlsClock.step new (.beginAutomaticAt .original 0))
      (history HlsClock.step (run HlsClock.step new [.beginAutomaticAt .original 0]) [.prepareUserPause, .completeUserPause 2 true]) 1
      rfl rfl ⟨_, List.mem_cons_of_mem _ List.mem_cons_self, .inl ?_⟩).1
    decide

end HlsClock
end PlxNative.Feed
