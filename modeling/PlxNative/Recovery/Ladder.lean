import PlxNative.Lib.Transducer
import PlxNative.Recovery.OpenRecovery

/-! What the ladder of a failed open keeps along every run: the rungs it starts are bounded, and
its attempt is what it started with less what is excluded. -/
namespace PlxNative.Recovery
open List Option SortedMap
open Transducer (Event event history history_invariant run)

abbrev RecoveryStep : Type := Event OpenRecovery RecoveryEvent Answer

section

namespace RecoveryEffect

/-- A conversion that counts among the request's flights. -/
def isFlight : RecoveryEffect → Bool
  | .convertFacet _ _ | .startAutoHls | .convertBoth _ => true
  | _ => false

def isConvertFacet : RecoveryEffect → Bool
  | .convertFacet _ _ => true
  | _ => false

def isDecodeInApp : RecoveryEffect → Bool
  | .decodeInApp _ _ => true
  | _ => false

def isRollback : RecoveryEffect → Bool
  | .rollback => true
  | _ => false

def isShowError : RecoveryEffect → Bool
  | .showError _ => true
  | _ => false

/-- A rung of the ladder, the read-out apart. -/
def isRung (fx : RecoveryEffect) : Bool := fx.isRollback || fx.isFlight || fx.isDecodeInApp

end RecoveryEffect

def State.flying : State → Bool
  | .flight _ _ _ => true
  | _ => false

namespace RecoveryEvent

def isFailure : RecoveryEvent → Bool
  | .refused _ _ | .flightRefused => true
  | _ => false

/-- The facts of a failure, which a flight that comes back refused has kept. -/
def facts (ev : RecoveryEvent) (state : State) : Option OpenFacts :=
  match ev, state with
  | .refused _ facts, _ => some facts
  | .flightRefused, .flight _ _ facts => some facts
  | _, _ => none

/-- The native audio that a refusal names is audio. -/
def NamesAudio : RecoveryEvent → Prop
  | .refused _ facts => ∀ facet ∈ facts.nativeAudio, facet.IsAudio
  | _ => True

/-- No trial of the original is pending at a refusal. -/
def Settled : RecoveryEvent → Prop
  | .refused _ facts => facts.pendingOriginal = false
  | _ => True

end RecoveryEvent

def effects (past : List RecoveryStep) : List RecoveryEffect := past.flatMap (fun x => x.answer.effects)

/-- A failure that was handled and did not end in the read-out. -/
def stays (x : RecoveryStep) : Bool := x.input.isFailure && x.answer.handled && x.after.state ≠ .failed

open RecoveryEffect in
theorem countP_rung (l : List RecoveryEffect) :
    l.countP isRung = l.countP isRollback + l.countP isFlight + l.countP isDecodeInApp := by
  induction l with
  | nil => rfl
  | cons fx rest ih =>
    simp only [countP_cons, ih]
    cases fx <;> simp [isRung, isRollback, isFlight, isDecodeInApp] <;> omega

@[simp] theorem effects_nil : effects [] = [] := rfl

@[simp] theorem effects_snoc (past : List RecoveryStep) (x : RecoveryStep) :
    effects (past ++ [x]) = effects past ++ x.answer.effects := by
  simp [effects]

end

namespace OpenRecovery

/-- The attempt is what the machine started with, less what is excluded, and the codec in force. -/
def Honest (m : OpenRecovery) : Prop := m.attempt = attemptFor m.start m.excluded m.inApp

structure Carries (m t : OpenRecovery) : Prop where
  start : t.start = m.start
  honest : m.Honest → t.Honest

theorem Carries.refl (m : OpenRecovery) : Carries m m := ⟨rfl, id⟩

variable {m : OpenRecovery} {refusal : LoadRefusal} {facts : OpenFacts}

/-- An audio facet stands where audio is excluded, but for what a refusal itself names. -/
def Slotted (m t : OpenRecovery) (facts : OpenFacts) : Prop :=
  (∀ facet ∈ t.excluded.audio, facet ∈ m.excluded.audio ∨ facet.IsAudio ∨ facet ∈ facts.nativeAudio) ∧
    ∀ facet ∈ t.excluded.video, facet ∈ m.excluded.video ∨ facet.IsVideo

theorem take_slots (e : Excluded) (facet : Facet) :
    (∀ f ∈ (e.take facet).audio, f ∈ e.audio ∨ f.IsAudio) ∧ ∀ f ∈ (e.take facet).video, f ∈ e.video ∨ f.IsVideo := by
  cases facet with
  | audio codec channels => exact ⟨fun f mem => .inr (mem_some_iff.mp mem ▸ trivial), fun f => .inl⟩
  | video codec width height => exact ⟨fun f => .inl, fun f mem => .inr (mem_some_iff.mp mem ▸ trivial)⟩

theorem takeAll_slots (facets : List Facet) (e : Excluded) :
    (∀ f ∈ (facets.foldl Excluded.take e).audio, f ∈ e.audio ∨ f.IsAudio) ∧
      ∀ f ∈ (facets.foldl Excluded.take e).video, f ∈ e.video ∨ f.IsVideo := by
  induction facets generalizing e with
  | nil => exact ⟨fun f => .inl, fun f => .inl⟩
  | cons facet rest ih =>
    obtain ⟨audio, video⟩ := ih (e.take facet)
    obtain ⟨first, second⟩ := take_slots e facet
    exact ⟨fun f mem => (audio f mem).elim (first f) .inr, fun f mem => (video f mem).elim (second f) .inr⟩

/-- What a ruling on a failure can be: one rung, or the read-out. -/
inductive Ruling (m : OpenRecovery) (refusal : LoadRefusal) (facts : OpenFacts) : OpenRecovery × List RecoveryEffect → Prop where
  | rollback {t : OpenRecovery} (pending : facts.pendingOriginal = true) (carries : Carries m t) (slotted : Slotted m t facts)
      (flights : t.flights = m.flights) (inApp : t.inApp = m.inApp) (state : t.state = .flight .rollback refusal facts) :
      Ruling m refusal facts (t, [.rollback])
  | flight {t : OpenRecovery} {fx : RecoveryEffect} {rung : Rung} (unforced : facts.forced = false) (carries : Carries m t)
      (slotted : Slotted m t facts) (flies : fx.isFlight = true) (first : fx.isConvertFacet = true → m.flights = 0)
      (room : m.flights < maxRecoveryFlights) (flights : t.flights = m.flights + 1) (inApp : t.inApp = m.inApp)
      (state : t.state = .flight rung refusal facts) : Ruling m refusal facts (t, [fx])
  | decodes {t : OpenRecovery} {audio : Facet} (carries : Carries m t) (slotted : Slotted m t facts)
      (flights : t.flights = m.flights) (unspent : m.inApp = none) (spent : t.inApp.isSome = true) (state : t.state = .opening) :
      Ruling m refusal facts (t, [.decodeInApp audio refusal])
  | readsOut {t : OpenRecovery} (named : Option String) (carries : Carries m t) (slotted : Slotted m t facts)
      (flights : t.flights = m.flights) (inApp : t.inApp = m.inApp) (state : t.state = .failed) :
      Ruling m refusal facts (t, (named.map .nameRefusedAudio).toList ++ [.showError refusal])

variable {r : OpenRecovery × List RecoveryEffect}

theorem readOut_ruling (named : Option String) :
    Ruling m refusal facts (m.readOut, (named.map .nameRefusedAudio).toList ++ [.showError refusal]) :=
  .readsOut named ⟨rfl, id⟩ ⟨fun _ => .inl, fun _ => .inl⟩ rfl rfl rfl

theorem appDecodeFor_spec {audio : Facet} (found : m.appDecodeFor refusal facts = some audio) :
    m.inApp = none ∧ ∃ codec channels, audio = .audio codec channels := by
  obtain ⟨fed, -, gate⟩ := bind_eq_some_iff.mp found
  obtain ⟨unspent, eq⟩ := ite_none_right_eq_some.mp gate
  simp only [Bool.and_eq_true, isNone_iff_eq_none] at unspent
  exact ⟨unspent.1.1.1.1.1, _, _, (Option.some.inj eq).symm⟩

theorem tryAppDecode_ruling (tried : m.tryAppDecode refusal facts = some r) : Ruling m refusal facts r := by
  obtain ⟨audio, found, rfl⟩ := map_eq_some_iff.mp tried
  obtain ⟨unspent, codec, channels, rfl⟩ := appDecodeFor_spec found
  exact .decodes ⟨rfl, fun _ => rfl⟩ ⟨fun _ => .inl, fun f mem => absurd mem (not_mem_none f)⟩ rfl unspent rfl rfl

section
variable (unforced : facts.forced = false)
include unforced

theorem fly_ruling {t : OpenRecovery} {facets : List Facet} {rung : Rung} {fx : RecoveryEffect}
    (start : t.start = m.start) (excluded : t.excluded = m.excluded) (count : t.flights = m.flights) (inApp : t.inApp = m.inApp)
    (flies : fx.isFlight = true) (first : fx.isConvertFacet = true → m.flights = 0) (room : m.flights < maxRecoveryFlights) :
    Ruling m refusal facts ((t.excludeAll facets).narrow.countFlight.fly rung refusal facts, [fx]) := by
  obtain ⟨audio, video⟩ := takeAll_slots facets t.excluded
  rw [excluded] at audio video
  refine .flight unforced ⟨start, fun _ => rfl⟩ ⟨fun f mem => ?_, fun f mem => ?_⟩ flies first room ?_ inApp rfl
  · exact (audio f (excluded ▸ mem)).imp_right .inl
  · exact video f (excluded ▸ mem)
  · exact congrArg (· + 1) count

theorem tryConvertBoth_ruling (tried : m.tryConvertBoth refusal facts = some r) :
    Ruling m refusal facts r := by
  obtain ⟨gate, earned⟩ := ite_none_left_eq_some.mp tried
  obtain ⟨-, eq⟩ := ite_none_left_eq_some.mp earned
  cases eq
  have room : m.flights < maxRecoveryFlights := by
    simp only [Bool.or_eq_true, decide_eq_true_eq, not_or, Nat.not_le] at gate
    exact gate.2
  exact fly_ruling unforced rfl rfl rfl rfl rfl nofun room

theorem tryFacet_ruling (tried : m.tryFacet refusal facts = some r) :
    Ruling m refusal facts r := by
  obtain ⟨gate, found⟩ := ite_none_right_eq_some.mp tried
  obtain ⟨facet, -, rfl⟩ := map_eq_some_iff.mp found
  have unspent : m.flights = 0 := by
    simp only [Bool.and_eq_true, decide_eq_true_eq] at gate
    exact gate.2
  exact fly_ruling unforced rfl rfl rfl rfl rfl (fun _ => unspent) (unspent ▸ Nat.zero_lt_two)

theorem tryAutoHls_ruling (tried : m.tryAutoHls refusal facts = some r) :
    Ruling m refusal facts r := by
  obtain ⟨gate, eq⟩ := ite_none_right_eq_some.mp tried
  cases eq
  have room : m.flights < maxRecoveryFlights := by
    simp only [Bool.and_eq_true, decide_eq_true_eq] at gate
    exact gate.2
  exact fly_ruling unforced rfl rfl rfl rfl rfl nofun room

theorem tryRungs_ruling (tried : m.tryRungs refusal facts = some r) :
    Ruling m refusal facts r := by
  simp only [tryRungs, or_eq_some_iff] at tried
  rcases tried with facet | ⟨-, hls | ⟨-, stereo | ⟨-, both | ⟨-, last⟩⟩⟩⟩
  · exact tryFacet_ruling unforced facet
  · exact tryAutoHls_ruling unforced hls
  · exact tryAppDecode_ruling (ite_none_left_eq_some.mp stereo).2
  · exact tryConvertBoth_ruling unforced both
  · exact tryAppDecode_ruling (ite_none_right_eq_some.mp last).2

end

theorem rollback_ruling (pending : facts.pendingOriginal = true) : Ruling m refusal facts (m.rollback refusal facts) := by
  unfold rollback
  cases named : facts.nativeAudio.filter m.narrowsStart with
  | none => exact .rollback pending ⟨rfl, id⟩ ⟨fun _ => .inl, fun _ => .inl⟩ rfl rfl rfl
  | some facet =>
    have native : facet ∈ facts.nativeAudio := (filter_eq_some_iff.mp named).1
    refine .rollback pending ⟨rfl, fun _ => rfl⟩ ⟨fun f mem => ?_, fun _ => .inl⟩ rfl rfl rfl
    cases mem_some_iff.mp mem
    exact .inr (.inr native)

theorem ruling_getD {tried : Option (OpenRecovery × List RecoveryEffect)} {otherwise : OpenRecovery × List RecoveryEffect}
    (some_ : ∀ r, tried = some r → Ruling m refusal facts r) (none_ : Ruling m refusal facts otherwise) :
    Ruling m refusal facts (tried.getD otherwise) := by
  cases tried with
  | none => exact none_
  | some r => exact some_ r rfl

theorem Ruling.noted (ruling : Ruling (m.noteRefusal refusal facts) refusal facts r) : Ruling m refusal facts r := by
  unfold noteRefusal at ruling
  split at ruling
  · exact ruling
  · cases ruling with
    | rollback pending carries slotted flights inApp state =>
      exact .rollback pending ⟨carries.start, carries.honest⟩ slotted flights inApp state
    | flight unforced carries slotted flies first room flights inApp state =>
      exact .flight unforced ⟨carries.start, carries.honest⟩ slotted flies first room flights inApp state
    | decodes carries slotted flights unspent spent state =>
      exact .decodes ⟨carries.start, carries.honest⟩ slotted flights unspent spent state
    | readsOut named carries slotted flights inApp state =>
      exact .readsOut named ⟨carries.start, carries.honest⟩ slotted flights inApp state

theorem decide_ruling (m : OpenRecovery) (refusal : LoadRefusal) (facts : OpenFacts) :
    Ruling m refusal facts (m.decide refusal facts) := by
  refine Ruling.noted ?_
  unfold decide
  cases pending : facts.pendingOriginal with
  | true => exact rollback_ruling pending
  | false =>
    cases forced : facts.forced with
    | true => exact ruling_getD (fun r => tryAppDecode_ruling) (readOut_ruling _)
    | false => exact ruling_getD (fun r => tryRungs_ruling forced) (readOut_ruling none)

theorem appDecodeOrError_ruling (m : OpenRecovery) (refusal : LoadRefusal) (facts : OpenFacts) :
    Ruling m refusal facts (m.appDecodeOrError refusal facts) :=
  ruling_getD (fun _ => tryAppDecode_ruling) (readOut_ruling none)

inductive Turn (m : OpenRecovery) : RecoveryEvent → OpenRecovery × Answer → Prop where
  | ignored {ev : RecoveryEvent} : Turn m ev m.ignored
  | refused {refusal : LoadRefusal} {facts : OpenFacts} {r : OpenRecovery × List RecoveryEffect} (ruling : Ruling m refusal facts r) :
      Turn m (.refused refusal facts)
        (yes (r.1, (facts.nativeAudio.map (RecoveryEffect.confirmRefusal · .named)).toList ++ r.2))
  | flightRefused {rung : Rung} {cause : LoadRefusal} {facts : OpenFacts} {r : OpenRecovery × List RecoveryEffect}
      (held : m.state = .flight rung cause facts) (ruling : Ruling m cause facts r) : Turn m .flightRefused (yes r)
  | quiet {ev : RecoveryEvent} {r : OpenRecovery × List RecoveryEffect} (other : ev.isFailure = false)
      (carries : Carries m r.1) (excluded : r.1.excluded = m.excluded) (flights : r.1.flights = m.flights)
      (inApp : r.1.inApp = m.inApp) (grounded : r.1.state.flying = false)
      (silent : ∀ e ∈ r.2, e.isRung = false ∧ e.isConvertFacet = false) : Turn m ev (yes r)

theorem picture_spec (m : OpenRecovery) : (Carries m m.picture.1 ∧ m.picture.1.excluded = m.excluded ∧
    m.picture.1.flights = m.flights ∧ m.picture.1.inApp = m.inApp ∧ m.picture.1.state = .playing) ∧
    ∀ e ∈ m.picture.2, e.isRung = false ∧ e.isConvertFacet = false := by
  unfold picture reportRescue
  split
  · exact ⟨⟨⟨rfl, id⟩, rfl, rfl, rfl, rfl⟩, fun e mem => absurd mem not_mem_nil⟩
  · split
    · refine ⟨⟨⟨rfl, id⟩, rfl, rfl, rfl, rfl⟩, fun e mem => ?_⟩
      rw [mem_singleton.mp mem]
      exact ⟨rfl, rfl⟩
    · exact ⟨⟨⟨rfl, id⟩, rfl, rfl, rfl, rfl⟩, fun e mem => absurd mem not_mem_nil⟩

theorem landed_grounded (m : OpenRecovery) (rung : Rung) (lanes : Option Lanes) : (m.landed rung lanes).flying = false := by
  unfold landed
  split
  · split <;> rfl
  · rfl

theorem quiet_turn {ev : RecoveryEvent} {state : State} {rescue : Option Rung} (other : ev.isFailure = false)
    (grounded : state.flying = false) :
    Turn m ev (yes ({ m with state := state, rescue := rescue }, [])) :=
  .quiet other ⟨rfl, id⟩ rfl rfl rfl grounded (fun _ mem => absurd mem not_mem_nil)

theorem flightRefused_turn (m : OpenRecovery) : Turn m .flightRefused (m.step .flightRefused) := by
  simp only [step]
  split
  · rename_i cause facts held
    exact Turn.flightRefused held (decide_ruling m cause facts)
  · rename_i cause facts held
    exact Turn.flightRefused held (appDecodeOrError_ruling m cause facts)
  · rename_i cause facts held
    exact Turn.flightRefused held (appDecodeOrError_ruling m cause facts)
  · rename_i cause facts held
    exact Turn.flightRefused held (readOut_ruling none)
  · exact Turn.ignored

theorem firstPicture_turn (m : OpenRecovery) : Turn m .firstPicture (m.step .firstPicture) := by
  obtain ⟨⟨carries, excluded, flights, inApp, state⟩, silent⟩ := picture_spec m
  have grounded : m.picture.1.state.flying = false := congrArg State.flying state
  simp only [step]
  split
  · exact Turn.quiet rfl carries excluded flights inApp grounded silent
  · refine Turn.quiet rfl carries excluded flights inApp grounded (fun e mem => ?_)
    rcases mem_cons.mp mem with rfl | reported
    · exact ⟨rfl, rfl⟩
    · exact silent e reported
  · exact Turn.ignored

theorem loadStarted_turn (m : OpenRecovery) : Turn m .loadStarted (m.step .loadStarted) := by
  simp only [step]
  cases m.state with
  | opening => exact Turn.ignored
  | playing => exact Turn.ignored
  | proving facet loaded =>
    cases loaded with
    | false => exact quiet_turn rfl rfl
    | true => exact quiet_turn rfl rfl
  | flight rung cause facts => exact quiet_turn rfl rfl
  | failed => exact quiet_turn rfl rfl

theorem step_turn (m : OpenRecovery) (ev : RecoveryEvent) : Turn m ev (m.step ev) := by
  cases ev with
  | refused refusal facts =>
    simp only [step]
    split
    · exact Turn.refused (decide_ruling m refusal facts)
    · exact Turn.ignored
  | flightLanded lanes =>
    simp only [step]
    cases m.state with
    | flight rung cause facts => exact quiet_turn rfl (landed_grounded m rung lanes)
    | _ => exact Turn.ignored
  | flightRefused => exact flightRefused_turn m
  | firstPicture => exact firstPicture_turn m
  | loadStarted => exact loadStarted_turn m

section
open RecoveryEffect
variable {past : List RecoveryStep} {start : Caps}

structure Kept (start : Caps) (past : List RecoveryStep) (m : OpenRecovery) : Prop where
  start : m.start = start
  honest : m.Honest
  flights : (effects past).countP isFlight = m.flights
  room : m.flights ≤ maxRecoveryFlights
  converts : (effects past).countP isConvertFacet ≤ min 1 m.flights
  decodes : (effects past).countP isDecodeInApp = if m.inApp.isSome then 1 else 0
  video : ∀ f ∈ m.excluded.video, f.IsVideo
  audio : (∀ x ∈ past, x.input.NamesAudio) → ∀ f ∈ m.excluded.audio, f.IsAudio
  flying : ∀ rung cause facts, m.state = .flight rung cause facts → ∃ x ∈ past, x.input = .refused cause facts
  settled : (∀ x ∈ past, x.input.Settled) → (effects past).countP isRollback = 0
  rungs : past.countP stays = (effects past).countP isRung

theorem new_kept (start : Caps) : Kept start [] (new start) where
  start := rfl
  honest := rfl
  flights := rfl
  room := Nat.zero_le _
  converts := Nat.zero_le _
  decodes := rfl
  video := nofun
  audio := fun _ => nofun
  flying := fun _ _ _ eq => nomatch eq
  settled := fun _ => rfl
  rungs := rfl

structure Emits (m : OpenRecovery) (r : OpenRecovery × List RecoveryEffect) : Prop where
  flights : m.flights + r.2.countP isFlight = r.1.flights
  room : m.flights ≤ maxRecoveryFlights → r.1.flights ≤ maxRecoveryFlights
  converts : ∀ n, n ≤ min 1 m.flights → n + r.2.countP isConvertFacet ≤ min 1 r.1.flights
  decodes : (if m.inApp.isSome then 1 else 0) + r.2.countP isDecodeInApp = if r.1.inApp.isSome then 1 else 0
  one : r.2.countP isRung = 1 ∧ r.2.countP isShowError = 0 ∧ r.1.state ≠ .failed ∨
    r.2.countP isRung = 0 ∧ r.2.countP isShowError = 1 ∧ r.1.state = .failed

variable {fx : List RecoveryEffect}

variable {t : OpenRecovery}

theorem emits_unflown (flights : t.flights = m.flights)
    (none_ : fx.countP isFlight = 0) (plain : fx.countP isConvertFacet = 0)
    (decodes : (if m.inApp.isSome then 1 else 0) + fx.countP isDecodeInApp = if t.inApp.isSome then 1 else 0)
    (one : fx.countP isRung = 1 ∧ fx.countP isShowError = 0 ∧ t.state ≠ .failed ∨
      fx.countP isRung = 0 ∧ fx.countP isShowError = 1 ∧ t.state = .failed) : Emits m (t, fx) where
  flights := by rw [none_, flights, Nat.add_zero]
  room := fun room => flights ▸ room
  converts := fun n below => by rwa [plain, flights, Nat.add_zero]
  decodes := decodes
  one := one

theorem Ruling.emits (ruling : Ruling m refusal facts r) : Emits m r := by
  cases ruling with
  | rollback pending carries slotted flights inApp state =>
    refine emits_unflown flights rfl rfl (by rw [inApp]; rfl) (.inl ⟨rfl, rfl, ?_⟩)
    rw [state]
    exact fun eq => nomatch eq
  | @flight t fx rung unforced carries slotted flies first room flights inApp state =>
    have undecoded : fx.isDecodeInApp = false := by
      cases fx <;> first | rfl | cases flies
    have shown : fx.isShowError = false := by
      cases fx <;> first | rfl | cases flies
    refine ⟨?_, fun _ => flights ▸ room, fun n below => ?_, ?_, .inl ⟨?_, ?_, ?_⟩⟩
    · rw [flights, countP_singleton, flies]
      rfl
    · rw [flights, countP_singleton]
      cases conversion : fx.isConvertFacet with
      | true =>
        rw [first conversion] at below
        exact Nat.le_trans (Nat.succ_le_succ below) (Nat.le_min.mpr ⟨Nat.le_refl 1, Nat.le_add_left 1 _⟩)
      | false =>
        have grows : min 1 m.flights ≤ min 1 (m.flights + 1) := by omega
        exact Nat.le_trans below grows
    · rw [inApp, countP_singleton, undecoded]
      rfl
    · rw [countP_singleton, isRung, flies, Bool.or_true, Bool.true_or]
      rfl
    · rw [countP_singleton, shown]
      rfl
    · rw [state]
      exact fun eq => nomatch eq
  | decodes carries slotted flights unspent spent state =>
    refine emits_unflown flights rfl rfl (by rw [unspent, spent]; rfl) (.inl ⟨rfl, rfl, ?_⟩)
    rw [state]
    exact fun eq => nomatch eq
  | readsOut named carries slotted flights inApp state =>
    cases named with
    | none => exact emits_unflown flights rfl rfl (by rw [inApp]; rfl) (.inr ⟨rfl, rfl, state⟩)
    | some codec => exact emits_unflown flights rfl rfl (by rw [inApp]; rfl) (.inr ⟨rfl, rfl, state⟩)

def Silent (fx : List RecoveryEffect) : Prop := ∀ e ∈ fx, e.isRung = false ∧ e.isConvertFacet = false

theorem Silent.rungs (silent : Silent fx) : fx.countP isRung = 0 :=
  countP_eq_zero.mpr (fun e mem => by simp [(silent e mem).1])

theorem Silent.counts (silent : Silent fx) :
    fx.countP isRollback = 0 ∧ fx.countP isFlight = 0 ∧ fx.countP isDecodeInApp = 0 := by
  have none_ := silent.rungs
  rw [countP_rung] at none_
  omega

theorem Silent.converts (silent : Silent fx) : fx.countP isConvertFacet = 0 :=
  countP_eq_zero.mpr (fun e mem => by simp [(silent e mem).2])

theorem Slotted.typed (slotted : Slotted m t facts) :
    ((∀ f ∈ m.excluded.video, f.IsVideo) → ∀ f ∈ t.excluded.video, f.IsVideo) ∧
      ((∀ f ∈ m.excluded.audio, f.IsAudio) → (∀ f ∈ facts.nativeAudio, f.IsAudio) → ∀ f ∈ t.excluded.audio, f.IsAudio) :=
  ⟨fun old f mem => (slotted.2 f mem).elim (old f) id,
    fun old native f mem => (slotted.1 f mem).elim (old f) (fun new => new.elim id (native f))⟩

theorem Ruling.carries (ruling : Ruling m refusal facts r) : Carries m r.1 ∧ Slotted m r.1 facts := by
  cases ruling with
  | rollback pending carries slotted => exact ⟨carries, slotted⟩
  | flight unforced carries slotted => exact ⟨carries, slotted⟩
  | decodes carries slotted => exact ⟨carries, slotted⟩
  | readsOut named carries slotted => exact ⟨carries, slotted⟩

theorem Ruling.flying (ruling : Ruling m refusal facts r) {rung : Rung} {cause : LoadRefusal} {kept : OpenFacts}
    (flies : r.1.state = .flight rung cause kept) : cause = refusal ∧ kept = facts := by
  cases ruling with
  | rollback pending carries slotted flights inApp state =>
    cases state.symm.trans flies
    exact ⟨rfl, rfl⟩
  | flight unforced carries slotted flies' first room flights inApp state =>
    cases state.symm.trans flies
    exact ⟨rfl, rfl⟩
  | decodes carries slotted flights unspent spent state => exact nomatch state.symm.trans flies
  | readsOut named carries slotted flights inApp state => exact nomatch state.symm.trans flies

theorem Ruling.settled (ruling : Ruling m refusal facts r) (settled : facts.pendingOriginal = false) :
    r.2.countP isRollback = 0 := by
  cases ruling with
  | rollback pending => exact absurd pending (settled ▸ Bool.false_ne_true)
  | @flight t fx rung unforced carries slotted flies =>
    cases fx <;> first | rfl | cases flies
  | decodes => rfl
  | readsOut named => cases named <;> rfl

variable {x : RecoveryStep}

theorem Kept.rules (kept : Kept start past m) {front : List RecoveryEffect} {y : RecoveryStep}
    (ruling : Ruling m refusal facts r) (after : x.after = r.1) (answer : x.answer = ⟨true, front ++ r.2⟩)
    (failure : x.input.isFailure = true) (silent : Silent front) (source : y ∈ past ++ [x]) (cause : y.input = .refused refusal facts) :
    Kept start (past ++ [x]) r.1 := by
  have emits := ruling.emits
  obtain ⟨carries, slotted⟩ := ruling.carries
  obtain ⟨rollbacks, flights, decodes⟩ := silent.counts
  have older {P : RecoveryStep → Prop} (all : ∀ z ∈ past ++ [x], P z) : ∀ z ∈ past, P z :=
    fun z mem => all z (mem_append_left _ mem)
  have all (p : RecoveryEffect → Bool) :
      (effects (past ++ [x])).countP p = (effects past).countP p + (front.countP p + r.2.countP p) := by
    rw [effects_snoc, answer, countP_append, countP_append]
  constructor
  case start => exact carries.start.trans kept.start
  case honest => exact carries.honest kept.honest
  case flights => rw [all, flights, kept.flights, Nat.zero_add, emits.flights]
  case room => exact emits.room kept.room
  case converts =>
    rw [all, silent.converts, Nat.zero_add]
    exact emits.converts _ kept.converts
  case decodes => rw [all, decodes, kept.decodes, Nat.zero_add, emits.decodes]
  case video => exact slotted.typed.1 kept.video
  case audio =>
    intro named
    refine slotted.typed.2 (kept.audio (older named)) ?_
    have says_ := named y source
    rwa [cause] at says_
  case flying =>
    intro rung cause' kept' flies
    obtain ⟨rfl, rfl⟩ := ruling.flying flies
    exact ⟨y, source, cause⟩
  case settled =>
    intro settled
    have says_ := settled y source
    rw [cause] at says_
    rw [all, rollbacks, kept.settled (older settled), ruling.settled says_]
  case rungs =>
    rw [all, silent.rungs, countP_append, kept.rungs, countP_singleton, Nat.zero_add]
    simp only [stays, failure, answer, after]
    rcases emits.one with ⟨one, -, state⟩ | ⟨none_, -, state⟩
    · simp [one, state]
    · simp [none_, state]

theorem Kept.rests (kept : Kept start past m) (carries : Carries m t)
    (excluded : t.excluded = m.excluded) (flights : t.flights = m.flights) (inApp : t.inApp = m.inApp)
    (grounded : t.state.flying = false ∨ t.state = m.state) (silent : Silent x.answer.effects) (moves : stays x = false) :
    Kept start (past ++ [x]) t := by
  obtain ⟨rollbacks, flown, decoded⟩ := silent.counts
  have older {P : RecoveryStep → Prop} (all : ∀ z ∈ past ++ [x], P z) : ∀ z ∈ past, P z :=
    fun z mem => all z (mem_append_left _ mem)
  have all (p : RecoveryEffect → Bool) :
      (effects (past ++ [x])).countP p = (effects past).countP p + x.answer.effects.countP p := by
    rw [effects_snoc, countP_append]
  constructor
  case start => exact carries.start.trans kept.start
  case honest => exact carries.honest kept.honest
  case flights => rw [all, flown, kept.flights, flights, Nat.add_zero]
  case room => exact flights ▸ kept.room
  case converts =>
    rw [all, silent.converts, flights, Nat.add_zero]
    exact kept.converts
  case decodes => rw [all, decoded, kept.decodes, inApp, Nat.add_zero]
  case video => exact excluded ▸ kept.video
  case audio => exact fun named => excluded ▸ kept.audio (older named)
  case flying =>
    intro rung cause facts flies
    rcases grounded with ground | eq
    · rw [flies] at ground
      exact nomatch ground
    · obtain ⟨y, mem, source⟩ := kept.flying rung cause facts (eq ▸ flies)
      exact ⟨y, mem_append_left _ mem, source⟩
  case settled =>
    intro settled
    rw [all, rollbacks, kept.settled (older settled)]
  case rungs =>
    rw [all, silent.rungs, countP_append, kept.rungs, countP_singleton, moves]
    rfl

theorem stays_of_other (other : x.input.isFailure = false) : stays x = false := by
  rw [stays, other]
  rfl

theorem confirmed_silent (facts : OpenFacts) :
    Silent (facts.nativeAudio.map (RecoveryEffect.confirmRefusal · .named)).toList := by
  intro e mem
  cases named : facts.nativeAudio with
  | none =>
    rw [named] at mem
    cases mem
  | some facet =>
    rw [named] at mem
    cases mem_singleton.mp mem
    exact ⟨rfl, rfl⟩

theorem Kept.step (kept : Kept start past m) (ev : RecoveryEvent) :
    Kept start (past ++ [event OpenRecovery.step m ev]) (m.step ev).1 := by
  have turn := step_turn m ev
  generalize taken : m.step ev = result at turn
  have x : event OpenRecovery.step m ev = ⟨m, ev, result.2, result.1⟩ := by rw [← taken]; rfl
  rw [x]
  cases turn with
  | ignored =>
    refine kept.rests (Carries.refl m) rfl rfl rfl (.inr rfl) (fun e mem => absurd mem not_mem_nil) ?_
    exact Bool.and_eq_false_imp.mpr fun both => by simp [ignored] at both
  | @refused refusal facts r ruling =>
    exact kept.rules ruling rfl rfl rfl (confirmed_silent facts) (mem_append_right _ mem_cons_self) rfl
  | @flightRefused rung cause facts r held ruling =>
    obtain ⟨y, mem, source⟩ := kept.flying rung cause facts held
    have nothing : Silent [] := fun e mem => absurd mem not_mem_nil
    exact kept.rules ruling rfl rfl rfl nothing (mem_append_left _ mem) source
  | quiet other carries excluded flights inApp grounded silent =>
    exact kept.rests carries excluded flights inApp (.inl grounded) silent (stays_of_other other)

theorem run_kept (start : Caps) (events : List RecoveryEvent) :
    Kept start (history OpenRecovery.step (new start) events) (run OpenRecovery.step (new start) events) :=
  history_invariant OpenRecovery.step (fun _ _ ev kept => kept.step ev) (new_kept start) events

end

section
open RecoveryEffect

structure Owes (x : RecoveryStep) : Prop where
  unforced : ∀ fx ∈ x.answer.effects, fx.isFlight = true →
    ∃ facts, x.input.facts x.before.state = some facts ∧ facts.forced = false
  one : x.input.isFailure = true → x.answer.handled = true →
    x.answer.effects.countP isRung = 1 ∧ x.answer.effects.countP isShowError = 0 ∨
      x.answer.effects.countP isRung = 0 ∧ x.answer.effects.countP isShowError = 1 ∧ x.after.state = .failed
  unhandled : x.answer.handled = false → x.after = x.before ∧ x.answer.effects = []

theorem Ruling.unforced (ruling : Ruling m refusal facts r) {fx : RecoveryEffect} (mem : fx ∈ r.2)
    (flies : fx.isFlight = true) : facts.forced = false := by
  cases ruling with
  | rollback => cases mem_singleton.mp mem; cases flies
  | flight unforced => exact unforced
  | decodes => cases mem_singleton.mp mem; cases flies
  | readsOut named =>
    rcases mem_append.mp mem with named_ | shown
    · obtain ⟨codec, -, rfl⟩ := map_eq_some_iff.mp (mem_toList.mp named_)
      cases flies
    · cases mem_singleton.mp shown
      cases flies

theorem confirmed_shows_nothing (facts : OpenFacts) :
    (facts.nativeAudio.map (RecoveryEffect.confirmRefusal · .named)).toList.countP isShowError = 0 := by
  cases facts.nativeAudio <;> rfl

theorem Silent.unflown {fx : List RecoveryEffect} (silent : Silent fx) {e : RecoveryEffect} (mem : e ∈ fx) :
    e.isFlight = false := by
  have rung := (silent e mem).1
  simp only [isRung, Bool.or_eq_false_iff] at rung
  exact rung.1.2

theorem step_owes (m : OpenRecovery) (ev : RecoveryEvent) : Owes (event OpenRecovery.step m ev) := by
  have turn := step_turn m ev
  generalize taken : m.step ev = result at turn
  have x : event OpenRecovery.step m ev = ⟨m, ev, result.2, result.1⟩ := by rw [← taken]; rfl
  rw [x]
  cases turn with
  | ignored => exact ⟨fun fx mem => absurd mem not_mem_nil, fun _ => nofun, fun _ => ⟨rfl, rfl⟩⟩
  | @refused refusal facts r ruling =>
    refine ⟨fun fx mem flies => ⟨facts, rfl, ?_⟩, fun _ _ => ?_, nofun⟩
    · rcases mem_append.mp mem with told | ruled
      · exact absurd flies ((confirmed_silent facts).unflown told ▸ Bool.false_ne_true)
      · exact ruling.unforced ruled flies
    · simp only [yes, countP_append, (confirmed_silent facts).rungs, confirmed_shows_nothing, Nat.zero_add]
      exact ruling.emits.one.imp_left (fun one => ⟨one.1, one.2.1⟩)
  | @flightRefused rung cause facts r held ruling =>
    refine ⟨fun fx mem flies => ⟨facts, ?_, ruling.unforced mem flies⟩, fun _ _ => ?_, nofun⟩
    · rw [held]
      rfl
    · exact ruling.emits.one.imp_left (fun one => ⟨one.1, one.2.1⟩)
  | quiet other carries excluded flights inApp grounded silent =>
    refine ⟨fun fx mem flies => ?_, fun failure => ?_, nofun⟩
    · exact absurd flies (Silent.unflown silent mem ▸ Bool.false_ne_true)
    · rw [other] at failure
      cases failure

theorem attemptFor_order (start : Caps) {excluded : Excluded} (audio : ∀ f ∈ excluded.audio, f.IsAudio)
    (video : ∀ f ∈ excluded.video, f.IsVideo) :
    excluded.iter.foldl Caps.without start = (excluded.video.toList ++ excluded.audio.toList).foldl Caps.without start := by
  obtain ⟨_ | a, _ | v⟩ := excluded
  · rfl
  · rfl
  · rfl
  · exact Caps.without_comm (audio a rfl) (video v rfl) start

/-- After every run from every start: two flights at most, one of a facet and one app decode; the
attempt is the start without the excluded facets, one of audio and one of video, and with the codec
in force; no flight leaves on forced facts; a failure that is handled starts one rung or shows one
error and has failed; what is not handled changes nothing. Where no trial of the original is ever
pending, three failures at most do not end in the read-out. -/
theorem ladder_bounded_and_honest (start : Caps) (events : List RecoveryEvent) :
    ((effects (history OpenRecovery.step (new start) events)).countP isFlight ≤ maxRecoveryFlights ∧
      (effects (history OpenRecovery.step (new start) events)).countP isConvertFacet ≤ 1 ∧
      (effects (history OpenRecovery.step (new start) events)).countP isDecodeInApp ≤ 1) ∧
    ((run OpenRecovery.step (new start) events).attempt =
        attemptFor start (run OpenRecovery.step (new start) events).excluded (run OpenRecovery.step (new start) events).inApp ∧
      (∀ f ∈ (run OpenRecovery.step (new start) events).excluded.video, f.IsVideo) ∧
      ((∀ ev ∈ events, ev.NamesAudio) → (∀ f ∈ (run OpenRecovery.step (new start) events).excluded.audio, f.IsAudio) ∧
        (run OpenRecovery.step (new start) events).excluded.iter.foldl Caps.without start =
          ((run OpenRecovery.step (new start) events).excluded.video.toList ++
            (run OpenRecovery.step (new start) events).excluded.audio.toList).foldl Caps.without start)) ∧
    (∀ x ∈ history OpenRecovery.step (new start) events, Owes x) ∧
    ((∀ ev ∈ events, ev.Settled) →
      (effects (history OpenRecovery.step (new start) events)).countP isRung ≤ maxRecoveryFlights + 1 ∧
        (history OpenRecovery.step (new start) events).countP stays ≤ maxRecoveryFlights + 1) := by
  have kept := run_kept start events
  have each {P : RecoveryEvent → Prop} (all : ∀ ev ∈ events, P ev) :
      ∀ x ∈ history OpenRecovery.step (new start) events, P x.input :=
    fun x member => all x.input (Transducer.input_mem_of_history _ member)
  have decodes : (effects (history OpenRecovery.step (new start) events)).countP isDecodeInApp ≤ 1 := by
    rw [kept.decodes]
    split <;> decide
  refine ⟨⟨kept.flights ▸ kept.room, Nat.le_trans kept.converts (Nat.min_le_left _ _), decodes⟩,
    ⟨?_, kept.video, fun named => ?_⟩, fun x member => ?_, fun settled => ?_⟩
  · have honest := kept.honest
    rwa [Honest, kept.start] at honest
  · have audio := kept.audio (each named)
    exact ⟨audio, attemptFor_order start audio kept.video⟩
  · rw [Transducer.mem_history _ member]
    exact step_owes x.before x.input
  · have rungs : (effects (history OpenRecovery.step (new start) events)).countP isRung ≤ maxRecoveryFlights + 1 := by
      rw [countP_rung, kept.settled (each settled), kept.flights, Nat.zero_add]
      exact Nat.add_le_add kept.room decodes
    exact ⟨rungs, kept.rungs ▸ rungs⟩

end

section
open RecoveryEffect

/-- A set with a decoder for six channels of DTS. -/
def surroundStart : Caps where
  hevcMax := (3840, 2176)
  vp9Row := (0, 0, 0)
  av1Row := (0, 0, 0)
  audio := ["aac", "dts"]
  audioChannels := empty.insert "dts" 6
  nativeCeiling := empty
  videoCeiling := empty
  appLossy := .measured
  appLossyInForce := empty

/-- A direct play of DTS beside a video above the floor, with no picture yet. -/
def surroundFacts : OpenFacts :=
  ⟨false, false, true, some (.audio "dts" 6), false, true, some ⟨"dca", 6, false⟩, some ⟨"hevc", 3840, 2160⟩⟩

def surroundEvents : List RecoveryEvent :=
  [.refused (.refused 601) surroundFacts, .flightRefused, .flightRefused, .refused (.refused 601) surroundFacts]

theorem surroundEvents_named : ∀ ev ∈ surroundEvents, ev.NamesAudio ∧ ev.Settled := by
  have audio : ∀ facet ∈ surroundFacts.nativeAudio, facet.IsAudio := fun facet mem => mem_some_iff.mp mem ▸ trivial
  intro ev mem
  rcases mem_cons.mp mem with rfl | mem
  · exact ⟨audio, rfl⟩
  rcases mem_cons.mp mem with rfl | mem
  · exact ⟨trivial, trivial⟩
  rcases mem_cons.mp mem with rfl | mem
  · exact ⟨trivial, trivial⟩
  cases mem_singleton.mp mem
  exact ⟨audio, rfl⟩

/-- The audio converted, an encode, the app decode, and the read-out. -/
theorem ladder_bounded_and_honest_once :
    (history OpenRecovery.step (new surroundStart) surroundEvents).countP stays ≤ 3 ∧
      (∀ f ∈ (run OpenRecovery.step (new surroundStart) surroundEvents).excluded.audio, f.IsAudio) ∧
      (effects (history OpenRecovery.step (new surroundStart) surroundEvents)).countP isRung = 3 ∧
      (run OpenRecovery.step (new surroundStart) surroundEvents).state = .failed := by
  obtain ⟨-, ⟨-, -, audio⟩, -, settled⟩ := ladder_bounded_and_honest surroundStart surroundEvents
  exact ⟨(settled fun ev member => (surroundEvents_named ev member).2).2,
    (audio fun ev member => (surroundEvents_named ev member).1).1, by decide +kernel, by decide +kernel⟩

end
end OpenRecovery
end PlxNative.Recovery
