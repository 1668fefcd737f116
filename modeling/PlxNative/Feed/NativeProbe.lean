import PlxNative.Feed.NativeCustody

/-! The presentations of a session across a seek: after a discontinuity none is reported until a
probe of the new timeline is committed, and a commit replays the newest one of its own probe. -/
namespace PlxNative.Feed.NativeGate
open List
open Transducer (event history history_snoc latest latest_snoc run snoc_split)

def Fences (e : Nat) (op : NativeOp) (answer : NativeAnswer) : Prop := op = .beginDiscontinuity e ∧ answer = .flag true

def Probes (e : Nat) (op : NativeOp) (answer : NativeAnswer) : Prop := op = .beginProbe e ∧ answer = .flag true

def Rejects (e : Nat) (op : NativeOp) (answer : NativeAnswer) : Prop := op = .rejectProbe e ∧ answer = .flag true

def Commits (e : Nat) (op : NativeOp) (answer : NativeAnswer) : Prop :=
  op = .commitProbe e ∧ ∃ position, answer = .replayed true position

/-- What ends a probe, a new one included. -/
def Turns (e : Nat) (op : NativeOp) (answer : NativeAnswer) : Prop :=
  Fences e op answer ∨ Probes e op answer ∨ Rejects e op answer ∨ Commits e op answer

/-- A position that a callback of the session delivers. -/
def position (e : Nat) : NativeOp → Option Int
  | .event epoch .presentation num => if epoch = e then some num else none
  | _ => none

/-- What can come while one session is the active one. Presentations are armed from outside in tests only. -/
def Racing : NativeOp → Prop
  | .begin_ _ | .armPresentations _ => False
  | _ => True

inductive GateMove (e : Nat) : NativePresentationGate → NativeOp → NativeAnswer → NativePresentationGate → Prop where
  | fences {gate : NativePresentationGate} : GateMove e gate (.beginDiscontinuity e) (.flag true) .disarmed
  | probes {gate : NativePresentationGate} : GateMove e gate (.beginProbe e) (.flag true) (.pendingArm none)
  | rejects {latched : Option Int} : GateMove e (.pendingArm latched) (.rejectProbe e) (.flag true) .disarmed
  | commits {latched : Option Int} : GateMove e (.pendingArm latched) (.commitProbe e) (.replayed true latched) .armed
  | latches {latched : Option Int} {num : Int} :
      GateMove e (.pendingArm latched) (.event e .presentation num) (.ran none) (.pendingArm (some num))
  | keeps {gate : NativePresentationGate} {op : NativeOp} {answer : NativeAnswer} (still : ¬ Turns e op answer)
      (unlatched : ∀ latched, gate = .pendingArm latched → position e op = none) : GateMove e gate op answer gate

variable {g : NativeGate} {e : Nat} {op : NativeOp} {t : NativeSession}

section

/-- A session was there before a step, and its gate has moved. -/
def Moves (g : NativeGate) (e : Nat) (op : NativeOp) (answer : NativeAnswer) (t : NativeSession) : Prop :=
  ∃ s, g.owned e = some s ∧ GateMove e s.presentationGate op answer t.presentationGate

theorem Moves.same (held : g.owned e = some t) {answer : NativeAnswer} (still : ¬ Turns e op answer)
    (silent : position e op = none) : Moves g e op answer t :=
  ⟨t, held, .keeps still fun _ _ => silent⟩

variable {epoch : Nat}

theorem withSession_owned {s next : NativeSession} (held : g.owned epoch = some s)
    (after : (g.withSession next).owned e = some t) (eq : next.epoch = s.epoch) : epoch = e ∧ next = t := by
  obtain ⟨-, -, first⟩ := owned_eq_some.mp held
  obtain ⟨phase, -, second⟩ := owned_eq_some.mp after
  obtain rfl : next = t := NativeSessionPhase.active.inj phase
  exact ⟨first.symm.trans (eq.symm.trans second), rfl⟩

theorem event_move {cls : NativeEventClass} {num : Int}
    (after : (g.step (.event epoch cls num)).1.owned e = some t) :
    Moves g e (.event epoch cls num) (g.step (.event epoch cls num)).2 t := by
  have still : ∀ answer, ¬ Turns e (.event epoch cls num) answer := by simp [Turns, Fences, Probes, Rejects, Commits]
  simp only [step, withNativeSessionScoped] at after ⊢
  cases phase : g.phase with
  | active s =>
    simp only [phase] at after ⊢
    by_cases other : epoch = 0 ∨ s.epoch ≠ epoch
    · rw [if_pos other] at after ⊢
      refine .same after (still _) ?_
      obtain ⟨held, live, own⟩ := owned_eq_some.mp after
      cases phase.symm.trans held
      unfold position
      split
      case h_1 eq =>
        cases eq
        exact if_neg fun here => other.elim (fun zero => live (here.symm.trans zero)) fun apart => apart (own.trans here.symm)
      case h_2 => rfl
    · rw [if_neg other] at after ⊢
      obtain ⟨live, rfl⟩ := not_or.mp other |>.imp_right not_not.mp
      have held : g.owned s.epoch = some s := owned_eq_some.mpr ⟨phase, live, rfl⟩
      cases cls with
      | other => exact .same after (still _) rfl
      | unloadCompleted => simp [liveEvent, owned] at after
      | presentation =>
        simp only [liveEvent] at after ⊢
        cases gate : s.presentationGate with
        | pendingArm latched =>
          simp only [gate] at after ⊢
          obtain ⟨rfl, rfl⟩ := withSession_owned held after rfl
          exact ⟨s, held, gate ▸ .latches⟩
        | _ =>
          simp only [gate] at after ⊢
          refine ⟨t, after, .keeps (still _) fun latched pending => ?_⟩
          cases phase.symm.trans (owned_eq_some.mp after).1
          cases gate.symm.trans pending
  | _ =>
    simp only [phase] at after ⊢
    first
    | cases phase.symm.trans (owned_eq_some.mp after).1
    | (split at after <;> exact absurd ((owned_eq_some.mp after).1) (by simp [phase]))

theorem setGate_move {gate : NativePresentationGate} (after : (g.setGate epoch gate).1.owned e = some t)
    (moves : ∀ {old : NativePresentationGate}, epoch = e → GateMove e old op (.flag true) gate)
    (still : ¬ Turns e op (.flag false)) (silent : position e op = none) :
    Moves g e op (flagged (g.setGate epoch gate)).2 t := by
  unfold setGate at after ⊢
  cases held : g.owned epoch with
  | none =>
    simp only [held] at after ⊢
    exact .same after still silent
  | some s =>
    simp only [held] at after ⊢
    obtain ⟨rfl, rfl⟩ := withSession_owned held after rfl
    exact ⟨s, held, moves rfl⟩

theorem leaveActive_owned {next : NativeSessionPhase} (leaves : ∀ s, next ≠ .active s)
    (after : (g.leaveActive epoch next).1.owned e = some t) : g.owned e = some t := by
  unfold leaveActive at after
  split at after
  · exact absurd (owned_eq_some.mp after).1 (leaves t)
  · exact after

theorem gate_move (racing : Racing op) (after : (g.step op).1.owned e = some t) :
    Moves g e op (g.step op).2 t := by
  cases op with
  | begin_ now => exact racing.elim
  | armPresentations epoch => exact racing.elim
  | event epoch cls num => exact event_move after
  | beginDiscontinuity epoch => exact setGate_move after (fun eq => eq ▸ .fences) (by simp [Turns, Fences, Probes, Rejects, Commits]) rfl
  | beginProbe epoch => exact setGate_move after (fun eq => eq ▸ .probes) (by simp [Turns, Fences, Probes, Rejects, Commits]) rfl
  | rejectProbe epoch =>
    simp only [step, rejectNativePresentationProbe] at after ⊢
    cases held : g.owned epoch with
    | none =>
      simp only [held] at after ⊢
      exact .same after (by simp [flagged, Turns, Fences, Probes, Rejects, Commits]) rfl
    | some s =>
      cases gate : s.presentationGate with
      | pendingArm latched =>
        simp only [held, gate] at after ⊢
        obtain ⟨rfl, rfl⟩ := withSession_owned held after rfl
        exact ⟨s, held, gate ▸ .rejects⟩
      | _ =>
        simp only [held, gate] at after ⊢
        exact .same after (by simp [flagged, Turns, Fences, Probes, Rejects, Commits]) rfl
  | commitProbe epoch =>
    simp only [step, commitNativePresentationProbe] at after ⊢
    cases held : g.owned epoch with
    | none =>
      simp only [held] at after ⊢
      exact .same after (by simp [Turns, Fences, Probes, Rejects, Commits]) rfl
    | some s =>
      cases gate : s.presentationGate with
      | pendingArm latched =>
        simp only [held, gate] at after ⊢
        obtain ⟨rfl, rfl⟩ := withSession_owned held after rfl
        exact ⟨s, held, gate ▸ .commits⟩
      | _ =>
        simp only [held, gate] at after ⊢
        exact .same after (by simp [Turns, Fences, Probes, Rejects, Commits]) rfl
  | markLoadReturned epoch now lead =>
    simp only [step, markNativeLoadReturned] at after ⊢
    cases held : g.owned epoch with
    | none =>
      simp only [held] at after ⊢
      exact .same after (by simp [Turns, Fences, Probes, Rejects, Commits]) rfl
    | some s =>
      simp only [held] at after ⊢
      obtain ⟨rfl, rfl⟩ := withSession_owned held after rfl
      exact ⟨s, held, .keeps (by simp [Turns, Fences, Probes, Rejects, Commits]) fun _ _ => rfl⟩
  | resetSession =>
    simp only [step, resetSession] at after ⊢
    refine .same ?_ (by simp [Turns, Fences, Probes, Rejects, Commits]) rfl
    split at after
    · exact after
    · exact after
    · cases (owned_eq_some.mp after).1
  | retire epoch =>
    simp only [step, retireNativeSession] at after ⊢
    refine .same ?_ (by simp [Turns, Fences, Probes, Rejects, Commits]) rfl
    split at after
    · cases (owned_eq_some.mp after).1
    · exact after
  | beginRelease epoch => exact .same (leaveActive_owned (fun _ => NativeSessionPhase.noConfusion) after) (by simp [Turns, Fences, Probes, Rejects, Commits]) rfl
  | abandon epoch => exact .same (leaveActive_owned (fun _ => NativeSessionPhase.noConfusion) after) (by simp [Turns, Fences, Probes, Rejects, Commits]) rfl
  | _ => exact .same after (by simp [Turns, Fences, Probes, Rejects, Commits]) rfl

end

/-- What the gate of a session tells of its past. -/
def Told (past : List NativeStep) (e : Nat) : NativePresentationGate → Prop
  | .armed => ∀ before d after, past = before ++ d :: after → Fences e d.input d.answer → ∃ y ∈ after, Commits e y.input y.answer
  | .disarmed => True
  | .pendingArm latched => ∃ before b mid, past = before ++ b :: mid ∧ Probes e b.input b.answer ∧
      (∀ y ∈ mid, ¬ Turns e y.input y.answer) ∧ latched = latest (fun y => position e y.input) mid

theorem Told.moved {past : List NativeStep} {gate next : NativePresentationGate} {x : NativeStep} (told : Told past e gate)
    (move : GateMove e gate x.input x.answer next) : Told (past ++ [x]) e next := by
  obtain ⟨from_, input, answer, to_⟩ := x
  cases move with
  | fences => trivial
  | rejects => trivial
  | probes => exact ⟨past, _, [], rfl, ⟨rfl, rfl⟩, fun _ => nofun, rfl⟩
  | commits =>
    intro before d after split fences
    rcases snoc_split split with ⟨rfl, rfl, rfl⟩ | ⟨rest, rfl, rfl⟩
    · cases fences.1
    · exact ⟨_, mem_append_right _ mem_cons_self, rfl, _, rfl⟩
  | latches =>
    obtain ⟨before, b, mid, rfl, probes, still, -⟩ := told
    refine ⟨before, b, mid ++ [_], by simp; rfl, probes, fun y mem => ?_, ?_⟩
    · rcases mem_append.mp mem with old | new
      · exact still y old
      · rw [mem_singleton.mp new]
        simp [Turns, Fences, Probes, Rejects, Commits]
    · simp [latest_snoc, position]
  | keeps quiet silent =>
    cases gate with
    | disarmed => trivial
    | armed =>
      intro before d after split fences
      rcases snoc_split split with ⟨rfl, rfl, rfl⟩ | ⟨rest, rfl, rfl⟩
      · exact absurd (.inl fences) quiet
      · obtain ⟨y, mem, commits⟩ := told before d rest rfl fences
        exact ⟨y, mem_append_left _ mem, commits⟩
    | pendingArm latched =>
      obtain ⟨before, b, mid, rfl, probes, still, newest⟩ := told
      refine ⟨before, b, mid ++ [_], by simp; rfl, probes, fun y mem => ?_, ?_⟩
      · rcases mem_append.mp mem with old | new
        · exact still y old
        · rw [mem_singleton.mp new]
          exact quiet
      · rw [latest_snoc, silent latched rfl, newest]
        rfl

theorem run_told {h : NativeGate} (begun : ∀ s, h.owned e = some s → s.presentationGate = .armed) {ops : List NativeOp}
    (racing : ∀ op ∈ ops, Racing op) {s : NativeSession} (held : (run step h ops).owned e = some s) :
    Told (history step h ops) e s.presentationGate := by
  induction ops using List.reverseRecOn generalizing s with
  | nil =>
    rw [begun s held]
    intro before d after split
    simp at split
  | append_singleton ops op ih =>
    rw [Transducer.run_snoc] at held
    rw [Transducer.history_snoc]
    obtain ⟨old, was, move⟩ := gate_move (racing op (by simp)) held
    exact (ih (fun op mem => racing op (mem_append_left _ mem)) was).moved move

theorem armed_of_ran {num : Int} {scope : EventScope} (ran : (g.step (.event e .presentation num)).2 = .ran (some scope)) :
    ∃ s, g.owned e = some s ∧ s.presentationGate = .armed := by
  simp only [step, withNativeSessionScoped] at ran
  cases phase : g.phase with
  | active s =>
    simp only [phase] at ran
    split at ran
    case isTrue => cases ran
    case isFalse own =>
      obtain ⟨live, eq⟩ := not_or.mp own
      refine ⟨s, owned_eq_some.mpr ⟨phase, live, not_not.mp eq⟩, ?_⟩
      cases gate : s.presentationGate with
      | armed => rfl
      | _ => simp [liveEvent, gate] at ran
  | _ => simp [phase] at ran

/-- From when a session has begun, and while no other one does: after a discontinuity no presentation is run until a commit is
answered true, a commit replays the newest position that came since its own probe began, and every other callback is run. -/
theorem no_picture_from_before_a_seek {now : Nat} {h : NativeGate} (begun : g.beginNativeSession now = (h, some e))
    (ops : List NativeOp) (racing : ∀ op ∈ ops, Racing op) :
    ∀ past x rest, history step h ops = past ++ x :: rest →
      (∀ num scope, x.input = .event e .presentation num → x.answer = .ran (some scope) →
        ∀ before d after, past = before ++ d :: after → Fences e d.input d.answer → ∃ y ∈ after, Commits e y.input y.answer) ∧
      (∀ committed replayed, x.input = .commitProbe e → x.answer = .replayed committed replayed →
        committed = false ∧ replayed = none ∨
          ∃ before b mid, past = before ++ b :: mid ∧ Probes e b.input b.answer ∧ (∀ y ∈ mid, ¬ Turns e y.input y.answer) ∧
            replayed = (mid.filterMap fun y => position e y.input).getLast?) ∧
      ∀ cls num, x.input = .event e cls num → cls ≠ .presentation → (x.before.owned e).isSome → x.answer = .ran (some .live) := by
  intro past x rest whole
  obtain ⟨js, op, ks, rfl, rfl, rfl, -⟩ := Transducer.history_split step whole
  have armed : ∀ s, h.owned e = some s → s.presentationGate = .armed := by
    unfold beginNativeSession at begun
    split at begun
    · cases begun
    · split at begun <;> cases begun
      intro s held
      cases (owned_eq_some.mp held).1
      rfl
  have told : ∀ s, (run step h js).owned e = some s → Told (history step h js) e s.presentationGate := fun s held =>
    run_told armed (fun op member => racing op (mem_append_left _ member)) held
  refine ⟨fun num scope asked ran => ?_, fun committed replayed asked answer => ?_, fun cls num asked other active => ?_⟩
  · cases asked
    obtain ⟨s, held, gate⟩ := armed_of_ran ran
    have tells := told s held
    rw [gate] at tells
    exact tells
  · cases asked
    simp only [event, step, commitNativePresentationProbe, NativeAnswer.replayed.injEq] at answer
    cases held : (run step h js).owned e with
    | none =>
      simp only [held] at answer
      exact .inl ⟨answer.1.symm, answer.2.symm⟩
    | some s =>
      have tells := told s held
      cases gate : s.presentationGate with
      | pendingArm latched =>
        rw [gate] at tells
        simp only [held, gate] at answer
        exact .inr (answer.2 ▸ tells)
      | _ =>
        simp only [held, gate] at answer
        exact .inl ⟨answer.1.symm, answer.2.symm⟩
  · cases asked
    obtain ⟨s, held⟩ := Option.isSome_iff_exists.mp active
    obtain ⟨phase, live, own⟩ := owned_eq_some.mp held
    have gone : ¬ (e = 0 ∨ s.epoch ≠ e) := not_or.mpr ⟨live, not_not.mpr own⟩
    have here : (run step h js).phase = .active s := phase
    cases cls with
    | presentation => exact absurd rfl other
    | _ => simp only [event, step, withNativeSessionScoped, here, if_neg gone, liveEvent]

/-- A probe that was rejected, one that was restarted, and the one that is committed. -/
theorem no_picture_from_before_a_seek_retried :
    ∃ past x rest, history step ⟨1, .active ⟨1, .armed, .inFlight, 0⟩⟩
        [.beginDiscontinuity 1, .beginProbe 1, .event 1 .presentation 7, .rejectProbe 1, .beginProbe 1, .event 1 .presentation 8,
          .commitProbe 1] = past ++ x :: rest ∧ x.answer = .replayed true (some 8) ∧
      ∃ before b mid, past = before ++ b :: mid ∧ Probes 1 b.input b.answer ∧ (∀ y ∈ mid, ¬ Turns 1 y.input y.answer) ∧
        some 8 = (mid.filterMap fun y => position 1 y.input).getLast? := by
  refine ⟨history step _ _, _, [], history_snoc step _ [.beginDiscontinuity 1, .beginProbe 1, .event 1 .presentation 7,
    .rejectProbe 1, .beginProbe 1, .event 1 .presentation 8] (.commitProbe 1), rfl, ?_⟩
  have replays := (no_picture_from_before_a_seek (show new.beginNativeSession 0 = (_, some 1) from rfl) _ ?_ _ _ [] (history_snoc step _
    [.beginDiscontinuity 1, .beginProbe 1, .event 1 .presentation 7, .rejectProbe 1, .beginProbe 1, .event 1 .presentation 8]
    (.commitProbe 1))).2.1 true (some 8) rfl rfl
  · exact replays.resolve_left (fun both => nomatch both.1)
  · simp [Racing]

end PlxNative.Feed.NativeGate
