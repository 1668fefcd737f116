import PlxNative.Feed.NativeGate

/-! What the gate keeps along every run: epochs rise, a closure runs for the session it belongs
to, and a session that was handed to a release keeps the gate shut until it is retired. -/
namespace PlxNative.Feed
open List
open Transducer (Event Guarded event guarded_invariant history run snoc_split)

abbrev NativeStep : Type := Event NativeGate NativeOp NativeAnswer

namespace NativeGate

section

def HandsOver (e : Nat) (op : NativeOp) (answer : NativeAnswer) : Prop :=
  (op = .abandon e ∨ op = .beginRelease e) ∧ answer = .flag true

def Retires (e : Nat) (op : NativeOp) (answer : NativeAnswer) : Prop := op = .retire e ∧ answer = .flag true

/-- The session's UNLOADCOMPLETED was admitted. -/
def Evidences (e : Nat) (op : NativeOp) (answer : NativeAnswer) : Prop :=
  ∃ num scope, op = .event e .unloadCompleted num ∧ answer = .ran (some scope)

def Begins (n : Nat) (answer : NativeAnswer) : Prop := answer = .epoch (some n)

/-- The session was handed to a release, and has not been retired since. -/
def InRelease (past : List NativeStep) (e : Nat) : Prop :=
  ∃ before h after, past = before ++ h :: after ∧ HandsOver e h.input h.answer ∧ ∀ x ∈ after, ¬ Retires e x.input x.answer

/-- Its UNLOADCOMPLETED was admitted meanwhile. -/
def Evidenced (past : List NativeStep) (e : Nat) : Prop :=
  ∃ before h after, past = before ++ h :: after ∧ HandsOver e h.input h.answer ∧ (∀ x ∈ after, ¬ Retires e x.input x.answer) ∧
    ∃ x ∈ after, Evidences e x.input x.answer

variable {past : List NativeStep} {x : NativeStep} {e : Nat}

theorem InRelease.snoc (h : InRelease (past ++ [x]) e) :
    HandsOver e x.input x.answer ∨ InRelease past e ∧ ¬ Retires e x.input x.answer := by
  obtain ⟨before, h, after, split, hands, kept⟩ := h
  rcases snoc_split split with ⟨rfl, rfl, rfl⟩ | ⟨rest, rfl, rfl⟩
  · exact .inl hands
  · exact .inr ⟨⟨before, h, rest, rfl, hands, fun y mem => kept y (mem_append_left _ mem)⟩,
      kept x (mem_append_right _ mem_cons_self)⟩

theorem InRelease.handed (hands : HandsOver e x.input x.answer) : InRelease (past ++ [x]) e :=
  ⟨past, x, [], rfl, hands, fun _ mem => absurd mem not_mem_nil⟩

theorem InRelease.later (h : InRelease past e) (kept : ¬ Retires e x.input x.answer) : InRelease (past ++ [x]) e := by
  obtain ⟨before, h, after, rfl, hands, still⟩ := h
  refine ⟨before, h, after ++ [x], by simp, hands, fun y mem => ?_⟩
  rcases mem_append.mp mem with old | now
  · exact still y old
  · rw [mem_singleton.mp now]
    exact kept

theorem Evidenced.snoc (h : Evidenced (past ++ [x]) e) :
    ¬ Retires e x.input x.answer ∧ (Evidenced past e ∨ InRelease past e ∧ Evidences e x.input x.answer) := by
  obtain ⟨before, h, after, split, hands, kept, y, mem, told⟩ := h
  rcases snoc_split split with ⟨rfl, rfl, rfl⟩ | ⟨rest, rfl, rfl⟩
  · cases mem
  · have earlier : ∀ w ∈ rest, ¬ Retires e w.input w.answer := fun w inside => kept w (mem_append_left _ inside)
    refine ⟨kept x (mem_append_right _ mem_cons_self), ?_⟩
    rcases mem_append.mp mem with old | now
    · exact .inl ⟨before, h, rest, rfl, hands, earlier, y, old, told⟩
    · rw [mem_singleton.mp now] at told
      exact .inr ⟨⟨before, h, rest, rfl, hands, earlier⟩, told⟩

end

section
variable {g : NativeGate}

/-- An operation that begins, hands over, retires and admits nothing. -/
structure Quiet (op : NativeOp) (answer : NativeAnswer) : Prop where
  begins : ∀ n, ¬ Begins n answer
  hands : ∀ e, ¬ HandsOver e op answer
  retires : ∀ e, ¬ Retires e op answer
  evidences : ∀ e, ¬ Evidences e op answer

inductive Turn (g : NativeGate) : NativeOp → NativeGate × NativeAnswer → Prop where
  | same {op : NativeOp} {answer : NativeAnswer} (quiet : Quiet op answer) : Turn g op (g, answer)
  | session {op : NativeOp} {answer : NativeAnswer} {old new : NativeSession} (held : g.phase = .active old)
      (epoch : new.epoch = old.epoch) (quiet : Quiet op answer) : Turn g op (g.withSession new, answer)
  | reset (abandoned : ∀ e, g.phase ≠ .abandoned e) (releasing : ∀ e b, g.phase ≠ .releasing e b) :
      Turn g .resetSession ({ g with phase := .idle }, .unit)
  | begins {now : Nat} (idle : g.phase = .idle) (below : g.nextEpoch + 1 < 2 ^ 32) :
      Turn g (.begin_ now)
        (⟨g.nextEpoch + 1, .active ⟨g.nextEpoch + 1, .armed, .inFlight, now⟩⟩, .epoch (some (g.nextEpoch + 1)))
  | retires {e : Nat} (held : owner g.phase = some e) : Turn g (.retire e) ({ g with phase := .idle }, .flag true)
  | released {e : Nat} {old : NativeSession} (held : g.phase = .active old) :
      Turn g (.beginRelease e) ({ g with phase := .releasing e false }, .flag true)
  | abandoned {e : Nat} {old : NativeSession} (held : g.phase = .active old) :
      Turn g (.abandon e) ({ g with phase := .abandoned e }, .flag true)
  | unloads {e : Nat} {num : Int} {old : NativeSession} (held : g.phase = .active old) :
      Turn g (.event e .unloadCompleted num) ({ g with phase := .unloaded e }, .ran (some .live))
  | unloadsAbandoned {e : Nat} {num : Int} (held : g.phase = .abandoned e) :
      Turn g (.event e .unloadCompleted num) ({ g with phase := .unloaded e }, .ran (some .release))
  | unloadsReleasing {e : Nat} {num : Int} {before : Bool} (held : g.phase = .releasing e before) :
      Turn g (.event e .unloadCompleted num) ({ g with phase := .releasing e true }, .ran (some .release))

theorem owned_eq_some {epoch : Nat} {session : NativeSession} :
    g.owned epoch = some session ↔ g.phase = .active session ∧ epoch ≠ 0 ∧ session.epoch = epoch := by
  unfold owned
  cases held : g.phase with
  | active s =>
    by_cases own : epoch ≠ 0 ∧ s.epoch = epoch
    · simp only [if_pos own, Option.some.injEq, NativeSessionPhase.active.injEq]
      constructor
      · rintro rfl
        exact ⟨rfl, own⟩
      · exact And.left
    · simp only [if_neg own, NativeSessionPhase.active.injEq, reduceCtorEq, false_iff]
      rintro ⟨rfl, own'⟩
      exact own own'
  | _ => simp

theorem quiet_answer {op : NativeOp} {answer : NativeAnswer} (begins : ∀ n, answer ≠ .epoch (some n))
    (flag : answer ≠ .flag true) (ran : ∀ scope, answer ≠ .ran (some scope)) : Quiet op answer where
  begins := begins
  hands := fun _ hands => flag hands.2
  retires := fun _ retires => flag retires.2
  evidences := fun _ ⟨_, scope, _, eq⟩ => ran scope eq

theorem quiet_flag {op : NativeOp} {yes : Bool} (abandon : ∀ e, op ≠ .abandon e) (release : ∀ e, op ≠ .beginRelease e)
    (retire : ∀ e, op ≠ .retire e) : Quiet op (.flag yes) where
  begins := nofun
  hands := fun e hands => hands.1.elim (abandon e) (release e)
  retires := fun e retires => retire e retires.1
  evidences := fun _ ⟨_, _, _, eq⟩ => nomatch eq

theorem setGate_turn {op : NativeOp} (abandon : ∀ e, op ≠ .abandon e) (release : ∀ e, op ≠ .beginRelease e)
    (retire : ∀ e, op ≠ .retire e) (epoch : Nat) (gate : NativePresentationGate) : Turn g op (flagged (g.setGate epoch gate)) := by
  unfold setGate
  cases held : g.owned epoch with
  | none => exact .same (quiet_flag abandon release retire)
  | some session => exact .session (owned_eq_some.mp held).1 rfl (quiet_flag abandon release retire)

theorem event_turn (epoch : Nat) (cls : NativeEventClass) (num : Int) :
    Turn g (.event epoch cls num) (g.step (.event epoch cls num)) := by
  have shut : Quiet (.event epoch cls num) (.ran none) := quiet_answer nofun nofun nofun
  have open_ : ∀ scope, cls ≠ .unloadCompleted → Quiet (.event epoch cls num) (.ran (some scope)) := by
    intro scope other
    refine ⟨fun _ => nofun, fun e hands => (nomatch hands.2), fun e retires => (nomatch retires.2), ?_⟩
    rintro e ⟨num', scope', eq, -⟩
    cases eq
    exact other rfl
  simp only [step, withNativeSessionScoped]
  cases held : g.phase with
  | idle => exact .same shut
  | unloaded e => exact .same shut
  | abandoned e =>
    by_cases other : epoch = 0 ∨ e ≠ epoch ∨ cls ≠ .unloadCompleted
    · simp only [if_pos other]
      exact .same shut
    · simp only [if_neg other]
      push Not at other
      obtain ⟨-, rfl, rfl⟩ := other
      exact .unloadsAbandoned held
  | releasing e before =>
    by_cases other : epoch = 0 ∨ e ≠ epoch ∨ cls ≠ .unloadCompleted
    · simp only [if_pos other]
      exact .same shut
    · simp only [if_neg other]
      push Not at other
      obtain ⟨-, rfl, rfl⟩ := other
      exact .unloadsReleasing held
  | active session =>
    by_cases other : epoch = 0 ∨ session.epoch ≠ epoch
    · simp only [if_pos other]
      exact .same shut
    · simp only [if_neg other]
      push Not at other
      obtain ⟨-, rfl⟩ := other
      cases cls with
      | other => exact .same (open_ .live nofun)
      | unloadCompleted => exact .unloads held
      | presentation =>
        simp only [liveEvent]
        cases gate : session.presentationGate with
        | armed => exact .same (open_ .live nofun)
        | disarmed => exact .same shut
        | pendingArm latched => exact .session held rfl shut

theorem step_turn (g : NativeGate) (op : NativeOp) : Turn g op (g.step op) := by
  cases op with
  | resetSession =>
    simp only [step, resetSession]
    cases held : g.phase with
    | abandoned e => exact .same (quiet_answer nofun nofun nofun)
    | releasing e b => exact .same (quiet_answer nofun nofun nofun)
    | _ => exact .reset (fun e eq => nomatch held.symm.trans eq) (fun e b eq => nomatch held.symm.trans eq)
  | begin_ now =>
    simp only [step, beginNativeSession]
    by_cases busy : g.phase ≠ .idle
    · simp only [if_pos busy]
      exact .same (quiet_answer nofun nofun nofun)
    · simp only [if_neg busy]
      by_cases below : g.nextEpoch + 1 < 2 ^ 32
      · simp only [next, if_pos below]
        exact .begins (not_not.mp busy) below
      · simp only [next, if_neg below]
        exact .same (quiet_answer nofun nofun nofun)
  | markLoadReturned epoch now lead =>
    simp only [step, markNativeLoadReturned]
    cases held : g.owned epoch with
    | none => exact .same (quiet_answer nofun nofun nofun)
    | some session => exact .session (owned_eq_some.mp held).1 rfl (quiet_answer nofun nofun nofun)
  | retire epoch =>
    simp only [step, retireNativeSession]
    split
    · rename_i own
      exact .retires own.2
    · exact .same (quiet_answer nofun nofun nofun)
  | beginRelease epoch =>
    simp only [step, beginNativeRelease, leaveActive]
    cases held : g.owned epoch with
    | none => exact .same (quiet_answer nofun nofun nofun)
    | some session => exact .released (owned_eq_some.mp held).1
  | abandon epoch =>
    simp only [step, abandonNativeSession, leaveActive]
    cases held : g.owned epoch with
    | none => exact .same (quiet_answer nofun nofun nofun)
    | some session => exact .abandoned (owned_eq_some.mp held).1
  | beginDiscontinuity epoch =>
    refine setGate_turn ?_ ?_ ?_ epoch .disarmed <;> nofun
  | armPresentations epoch =>
    refine setGate_turn ?_ ?_ ?_ epoch .armed <;> nofun
  | beginProbe epoch =>
    refine setGate_turn ?_ ?_ ?_ epoch (.pendingArm none) <;> nofun
  | commitProbe epoch =>
    simp only [step, commitNativePresentationProbe]
    cases held : g.owned epoch with
    | none => exact .same (quiet_answer nofun nofun nofun)
    | some session =>
      cases gate : session.presentationGate with
      | pendingArm latched =>
        simp only [gate]
        exact .session (owned_eq_some.mp held).1 rfl (quiet_answer nofun nofun nofun)
      | _ =>
        simp only [gate]
        exact .same (quiet_answer nofun nofun nofun)
  | rejectProbe epoch =>
    simp only [step, rejectNativePresentationProbe]
    cases held : g.owned epoch with
    | none => exact .same (quiet_flag nofun nofun nofun)
    | some session =>
      cases gate : session.presentationGate with
      | pendingArm latched =>
        simp only [gate]
        exact .session (owned_eq_some.mp held).1 rfl (quiet_flag nofun nofun nofun)
      | _ =>
        simp only [gate]
        exact .same (quiet_flag nofun nofun nofun)
  | event epoch cls num => exact event_turn epoch cls num
  | withActiveEpoch epoch => exact .same (quiet_flag nofun nofun nofun)
  | loadReturned epoch => exact .same (quiet_flag nofun nofun nofun)
  | loadPcmLead epoch => exact .same (quiet_answer nofun nofun nofun)
  | loadReturnedElapsed epoch now => exact .same (quiet_answer nofun nofun nofun)
  | loadElapsed epoch now => exact .same (quiet_answer nofun nofun nofun)
  | releasing => exact .same (quiet_flag nofun nofun nofun)
  | loadAbandoned => exact .same (quiet_flag nofun nofun nofun)
  | unloadCompleted epoch => exact .same (quiet_flag nofun nofun nofun)

end

section
variable {past : List NativeStep} {g : NativeGate} {op : NativeOp} {e : Nat}

/-- No reset comes while an abandoned session whose UNLOADCOMPLETED was admitted is not yet
retired. -/
def Calm (past : List NativeStep) (g : NativeGate) (op : NativeOp) : Prop :=
  op = .resetSession → ∀ e, InRelease past e → g.phase ≠ .unloaded e

def Shut (g : NativeGate) (e : Nat) : Prop :=
  g.phase = .abandoned e ∨ (∃ b, g.phase = .releasing e b) ∨ g.phase = .unloaded e

structure Kept (past : List NativeStep) (g : NativeGate) : Prop where
  bounded : g.nextEpoch < 2 ^ 32
  epochs : ∀ x ∈ past, ∀ n, Begins n x.answer → n ≤ g.nextEpoch
  rising : past.Pairwise (fun x y => ∀ m n, Begins m x.answer → Begins n y.answer → m < n)
  custody : ∀ e, InRelease past e → g.Shut e
  evidence : ∀ e, Evidenced past e → g.nativeUnloadCompleted e = true
  origin : ∀ e, (g.phase = .abandoned e ∨ ∃ b, g.phase = .releasing e b) → InRelease past e

theorem new_kept : Kept [] new where
  bounded := by decide
  epochs := fun _ mem => absurd mem not_mem_nil
  rising := .nil
  custody := by
    rintro e ⟨before, h, after, split, -⟩
    exact absurd split (append_ne_nil_of_right_ne_nil _ (cons_ne_nil _ _)).symm
  evidence := by
    rintro e ⟨before, h, after, split, -⟩
    exact absurd split (append_ne_nil_of_right_ne_nil _ (cons_ne_nil _ _)).symm
  origin := by
    rintro e (eq | ⟨b, eq⟩) <;> cases eq

theorem Shut.owner (shut : g.Shut e) : owner g.phase = some e := by
  rcases shut with held | ⟨b, held⟩ | held <;> rw [held] <;> rfl

theorem Shut.unique {d : Nat} (shut : g.Shut e) (other : g.Shut d) : e = d :=
  Option.some.inj (shut.owner.symm.trans other.owner)

theorem Shut.not_active (shut : g.Shut e) {session : NativeSession} : g.phase ≠ .active session := by
  rcases shut with held | ⟨b, held⟩ | held <;> rw [held] <;> nofun

theorem Evidenced.inRelease (told : Evidenced past e) : InRelease past e := by
  obtain ⟨before, h, after, split, hands, kept, -⟩ := told
  exact ⟨before, h, after, split, hands, kept⟩

variable {t : NativeGate} {answer : NativeAnswer}

section
variable (turn : Turn g op (t, answer))
include turn

theorem Turn.epochs (bounded : g.nextEpoch < 2 ^ 32) :
    g.nextEpoch ≤ t.nextEpoch ∧ t.nextEpoch < 2 ^ 32 ∧ ∀ n, Begins n answer → g.nextEpoch < n ∧ n = t.nextEpoch := by
  cases turn with
  | same quiet => exact ⟨Nat.le_refl _, bounded, fun n begins => absurd begins (quiet.begins n)⟩
  | session held epoch quiet => exact ⟨Nat.le_refl _, bounded, fun n begins => absurd begins (quiet.begins n)⟩
  | begins idle below =>
    refine ⟨Nat.le_succ _, below, fun n begins => ?_⟩
    cases begins
    exact ⟨Nat.lt_succ_self _, rfl⟩
  | _ => exact ⟨Nat.le_refl _, bounded, fun n begins => nomatch (begins : _ = NativeAnswer.epoch (some n))⟩

theorem Turn.custody (kept : Kept past g) (calm : Calm past g op)
    (held : HandsOver e op answer ∨ InRelease past e ∧ ¬ Retires e op answer) : t.Shut e := by
  cases turn with
  | same quiet =>
    rcases held with hands | ⟨old, -⟩
    · exact absurd hands (quiet.hands e)
    · exact kept.custody e old
  | session active epoch quiet =>
    rcases held with hands | ⟨old, -⟩
    · exact absurd hands (quiet.hands e)
    · exact absurd active (kept.custody e old).not_active
  | reset abandoned releasing =>
    rcases held with hands | ⟨old, -⟩
    · exact nomatch hands.2
    · rcases kept.custody e old with phase | ⟨b, phase⟩ | phase
      · exact absurd phase (abandoned e)
      · exact absurd phase (releasing e b)
      · exact absurd phase (calm rfl e old)
  | begins idle below =>
    rcases held with hands | ⟨old, -⟩
    · exact nomatch hands.2
    · have shut := (kept.custody e old).owner
      rw [idle] at shut
      cases shut
  | @retires d own =>
    rcases held with hands | ⟨old, still⟩
    · rcases hands.1 with eq | eq <;> cases eq
    · cases (kept.custody e old).owner.symm.trans own
      exact absurd ⟨rfl, rfl⟩ still
  | @released d session active =>
    rcases held with hands | ⟨old, -⟩
    · rcases hands.1 with eq | eq <;> cases eq
      exact .inr (.inl ⟨false, rfl⟩)
    · exact absurd active (kept.custody e old).not_active
  | @abandoned d session active =>
    rcases held with hands | ⟨old, -⟩
    · rcases hands.1 with eq | eq <;> cases eq
      exact .inl rfl
    · exact absurd active (kept.custody e old).not_active
  | unloads active =>
    rcases held with hands | ⟨old, -⟩
    · exact nomatch hands.2
    · exact absurd active (kept.custody e old).not_active
  | @unloadsAbandoned d num phase =>
    rcases held with hands | ⟨old, -⟩
    · exact nomatch hands.2
    · cases (kept.custody e old).unique (.inl phase)
      exact .inr (.inr rfl)
  | @unloadsReleasing d num before phase =>
    rcases held with hands | ⟨old, -⟩
    · exact nomatch hands.2
    · cases (kept.custody e old).unique (.inr (.inl ⟨before, phase⟩))
      exact .inr (.inl ⟨true, rfl⟩)

theorem Turn.evidence (kept : Kept past g) (calm : Calm past g op) (still : ¬ Retires e op answer)
    (told : Evidenced past e ∨ InRelease past e ∧ Evidences e op answer) : t.nativeUnloadCompleted e = true := by
  have old : InRelease past e := told.elim Evidenced.inRelease And.left
  have shut := kept.custody e old
  cases turn with
  | same quiet => exact told.elim (kept.evidence e) (fun now => absurd now.2 (quiet.evidences e))
  | session active epoch quiet => exact absurd active shut.not_active
  | reset abandoned releasing =>
    rcases shut with phase | ⟨b, phase⟩ | phase
    · exact absurd phase (abandoned e)
    · exact absurd phase (releasing e b)
    · exact absurd phase (calm rfl e old)
  | begins idle below =>
    have owner := shut.owner
    rw [idle] at owner
    cases owner
  | @retires d own =>
    cases shut.owner.symm.trans own
    exact absurd ⟨rfl, rfl⟩ still
  | released active => exact absurd active shut.not_active
  | abandoned active => exact absurd active shut.not_active
  | unloads active => exact absurd active shut.not_active
  | @unloadsAbandoned d num phase =>
    cases shut.unique (.inl phase)
    exact beq_self_eq_true e
  | @unloadsReleasing d num before phase =>
    cases shut.unique (.inr (.inl ⟨before, phase⟩))
    exact beq_self_eq_true e

theorem Turn.origin (kept : Kept past g)
    (out : t.phase = .abandoned e ∨ ∃ b, t.phase = .releasing e b) :
    HandsOver e op answer ∨ InRelease past e ∧ ¬ Retires e op answer := by
  cases turn with
  | same quiet => exact .inr ⟨kept.origin e out, quiet.retires e⟩
  | released active =>
    rcases out with eq | ⟨b, eq⟩ <;> cases eq
    exact .inl ⟨.inr rfl, rfl⟩
  | abandoned active =>
    rcases out with eq | ⟨b, eq⟩ <;> cases eq
    exact .inl ⟨.inl rfl, rfl⟩
  | @unloadsReleasing d num before phase =>
    rcases out with eq | ⟨b, eq⟩ <;> cases eq
    exact .inr ⟨kept.origin e (.inr ⟨before, phase⟩), fun retires => nomatch retires.1⟩
  | _ => rcases out with eq | ⟨b, eq⟩ <;> cases eq

end

theorem Kept.step (kept : Kept past g) (calm : Calm past g op) : Kept (past ++ [event NativeGate.step g op]) (g.step op).1 := by
  have turn : Turn g op ((g.step op).1, (g.step op).2) := step_turn g op
  obtain ⟨grows, bounded, begun⟩ := turn.epochs kept.bounded
  refine ⟨bounded, fun x mem n begins => ?_, ?_, fun e held => ?_, fun e told => ?_, fun e out => ?_⟩
  · rcases mem_append.mp mem with old | now
    · exact Nat.le_trans (kept.epochs x old n begins) grows
    · rw [mem_singleton.mp now] at begins
      exact Nat.le_of_eq (begun n begins).2
  · refine pairwise_append.mpr ⟨kept.rising, pairwise_singleton _ _, fun x old y now m n before begins => ?_⟩
    rw [mem_singleton.mp now] at begins
    exact Nat.lt_of_le_of_lt (kept.epochs x old m before) (begun n begins).1
  · exact turn.custody kept calm held.snoc
  · obtain ⟨still, told⟩ := told.snoc
    exact turn.evidence kept calm still told
  · rcases turn.origin kept out with hands | ⟨old, still⟩
    · exact .handed hands
    · exact old.later still

end

section
variable {past : List NativeStep} {g : NativeGate}

theorem event_scope (g : NativeGate) (epoch : Nat) (cls : NativeEventClass) (num : Int) {scope : EventScope}
    (ran : (g.withNativeSessionScoped epoch cls num).2 = some scope) :
    scope = .live ∧ (∃ session, g.phase = .active session ∧ session.epoch = epoch) ∨
      scope = .release ∧ cls = .unloadCompleted ∧ (g.phase = .abandoned epoch ∨ ∃ b, g.phase = .releasing epoch b) := by
  unfold withNativeSessionScoped at ran
  cases held : g.phase with
  | idle =>
    rw [held] at ran
    cases ran
  | unloaded e =>
    rw [held] at ran
    cases ran
  | abandoned e =>
    simp only [held] at ran
    split at ran
    · cases ran
    · rename_i own
      push Not at own
      obtain ⟨-, rfl, rfl⟩ := own
      cases ran
      exact .inr ⟨rfl, rfl, .inl rfl⟩
  | releasing e b =>
    simp only [held] at ran
    split at ran
    · cases ran
    · rename_i own
      push Not at own
      obtain ⟨-, rfl, rfl⟩ := own
      cases ran
      exact .inr ⟨rfl, rfl, .inr ⟨b, rfl⟩⟩
  | active session =>
    simp only [held] at ran
    split at ran
    · cases ran
    · rename_i own
      push Not at own
      refine .inl ⟨?_, session, rfl, own.2⟩
      unfold liveEvent at ran
      split at ran <;> cases ran <;> rfl

theorem replayed_active (g : NativeGate) (epoch : Nat) {position : Int}
    (replayed : (g.commitNativePresentationProbe epoch).2.2 = some position) :
    ∃ session, g.phase = .active session ∧ session.epoch = epoch := by
  unfold commitNativePresentationProbe at replayed
  cases held : g.owned epoch with
  | none =>
    rw [held] at replayed
    cases replayed
  | some session =>
    obtain ⟨phase, -, own⟩ := owned_eq_some.mp held
    exact ⟨session, phase, own⟩

theorem run_kept (ops : List NativeOp) (calm : Guarded NativeGate.step Calm [] new ops) :
    Kept (history NativeGate.step new ops) (run NativeGate.step new ops) := by
  have kept := guarded_invariant NativeGate.step (R := Kept) (fun past g op calm kept => kept.step calm) new_kept calm
  rwa [nil_append] at kept

/-- After every run in which no reset comes while an abandoned session that has unloaded is still
to be retired: the epochs begun rise and fit 32 bits; a closure runs as live for the active
session alone, and as a release for the UNLOADCOMPLETED of a session that was handed over; and
until such a session is retired no other begins, and its UNLOADCOMPLETED, once admitted, is
known. -/
theorem native_callbacks_stay_in_session (ops : List NativeOp) (calm : Guarded NativeGate.step Calm [] new ops) :
    ((history NativeGate.step new ops).Pairwise (fun x y => ∀ m n, Begins m x.answer → Begins n y.answer → m < n) ∧
      ∀ x ∈ history NativeGate.step new ops, ∀ n, Begins n x.answer → n < 2 ^ 32) ∧
    (∀ epoch cls num, ((run NativeGate.step new ops).withNativeSessionScoped epoch cls num).2 = some .live →
      ∃ session, (run NativeGate.step new ops).phase = .active session ∧ session.epoch = epoch) ∧
    (∀ epoch position, ((run NativeGate.step new ops).commitNativePresentationProbe epoch).2.2 = some position →
      ∃ session, (run NativeGate.step new ops).phase = .active session ∧ session.epoch = epoch) ∧
    (∀ epoch cls num, ((run NativeGate.step new ops).withNativeSessionScoped epoch cls num).2 = some .release →
      cls = .unloadCompleted ∧ InRelease (history NativeGate.step new ops) epoch) ∧
    ∀ e, InRelease (history NativeGate.step new ops) e →
      (∀ now, ((run NativeGate.step new ops).beginNativeSession now).2 = none) ∧
        (Evidenced (history NativeGate.step new ops) e → (run NativeGate.step new ops).nativeUnloadCompleted e = true) := by
  have kept := run_kept ops calm
  refine ⟨⟨kept.rising, fun x member n begins => Nat.lt_of_le_of_lt (kept.epochs x member n begins) kept.bounded⟩,
    fun epoch cls num ran => ?_, fun epoch position => replayed_active _ epoch, fun epoch cls num ran => ?_, fun e held => ?_⟩
  · rcases event_scope _ epoch cls num ran with ⟨-, active⟩ | ⟨other, -⟩
    · exact active
    · cases other
  · rcases event_scope _ epoch cls num ran with ⟨other, -⟩ | ⟨-, unloads, out⟩
    · cases other
    · exact ⟨unloads, kept.origin epoch out⟩
  · refine ⟨fun now => ?_, kept.evidence e⟩
    have busy : (run NativeGate.step new ops).phase ≠ .idle := by
      intro idle
      have owner := (kept.custody e held).owner
      rw [idle] at owner
      cases owner
    unfold beginNativeSession
    rw [if_pos busy]

end

section

/-- A session is abandoned with its load in flight, and its object unloads. -/
def abandonedOnce : List NativeOp := [.begin_ 0, .abandon 1, .event 1 .unloadCompleted 0]

theorem abandonedOnce_released : InRelease (history NativeGate.step new abandonedOnce) 1 := by
  refine ⟨[event NativeGate.step new (.begin_ 0)], _, _, rfl, ⟨.inl rfl, rfl⟩, fun x mem retires => ?_⟩
  cases mem_singleton.mp mem
  cases retires.1

theorem abandonedOnce_evidenced : Evidenced (history NativeGate.step new abandonedOnce) 1 := by
  refine ⟨[event NativeGate.step new (.begin_ 0)], _, _, rfl, ⟨.inl rfl, rfl⟩, fun x mem retires => ?_,
    _, mem_cons_self, 0, .release, rfl, rfl⟩
  cases mem_singleton.mp mem
  cases retires.1

theorem native_callbacks_stay_in_session_once : ((run NativeGate.step new abandonedOnce).beginNativeSession 0).2 = none ∧
    (run NativeGate.step new abandonedOnce).nativeUnloadCompleted 1 = true := by
  have calm : Guarded NativeGate.step Calm [] new abandonedOnce := ⟨nofun, nofun, nofun, trivial⟩
  obtain ⟨begins, told⟩ := (native_callbacks_stay_in_session abandonedOnce calm).2.2.2.2 1 abandonedOnce_released
  exact ⟨begins 0, told abandonedOnce_evidenced⟩

/-- A reset after an abandoned session has unloaded lets another begin, and its evidence is
gone. -/
theorem reset_forgets_abandoned : InRelease (history NativeGate.step new (abandonedOnce ++ [.resetSession])) 1 ∧
    Evidenced (history NativeGate.step new (abandonedOnce ++ [.resetSession])) 1 ∧
    ((run NativeGate.step new (abandonedOnce ++ [.resetSession])).beginNativeSession 0).2 = some 2 ∧
    (run NativeGate.step new (abandonedOnce ++ [.resetSession])).nativeUnloadCompleted 1 = false := by
  have split := Transducer.history_snoc NativeGate.step new abandonedOnce .resetSession
  refine ⟨?_, ?_, rfl, rfl⟩
  · exact abandonedOnce_released.later nofun
  · obtain ⟨before, h, after, old, hands, still, told, inside, admits⟩ := abandonedOnce_evidenced
    refine ⟨before, h, after ++ [event NativeGate.step (run NativeGate.step new abandonedOnce) .resetSession], ?_, hands, ?_,
      told, mem_append_left _ inside, admits⟩
    · rw [split, old, append_assoc, cons_append]
    · exact forall_mem_append.mpr ⟨still, forall_mem_singleton.mpr (fun retires => nomatch retires.1)⟩

end
end NativeGate
end PlxNative.Feed
