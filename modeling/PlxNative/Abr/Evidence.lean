import PlxNative.Abr.Frontier

/-! Which samples the window holds after any run: those of the operating point it is at, and of no
other. -/
namespace PlxNative.Abr
open Option AdmissionSummary

open Transducer (run history Event)

inductive Mark where
  | committed (candidate : Option SegmentSample)
  | sampled (sample : SegmentSample) (collapsed : Bool)
  | nothing

namespace Controller

def acquisition (sample : SegmentSample) : Acquisition := (Controller.call sample).sample

def mark (event : Event Controller Call Reply) : Mark :=
  match event.input, event.answer with
  | .commitCandidate _ sample _ _, .accepted true => .committed (some sample)
  | .commit _ _, .accepted true => .committed none
  | .observe sample _ _ false, .decided _ =>
    if sample.completed then .sampled sample (event.before.regimeChanged sample) else .nothing
  | _, _ => .nothing

end Controller

abbrev Marks := List Mark

namespace Marks

/-- The samples since the later of the last commit and the last collapse, which counts itself. -/
def since : Marks → Samples
  | [] | .committed _ :: _ => []
  | .sampled sample true :: _ => [Controller.acquisition sample]
  | .sampled sample false :: older => since older ++ [Controller.acquisition sample]
  | .nothing :: older => since older

/-- The candidate of the last commit, when it came through one. -/
def seed : Marks → Samples
  | [] => []
  | .committed candidate :: _ => (candidate.map Controller.acquisition).toList
  | _ :: older => seed older

/-- A collapse has come since the last commit. -/
def collapsed : Marks → Bool
  | [] | .committed _ :: _ => false
  | .sampled _ true :: _ => true
  | _ :: older => collapsed older

def evidence (marks : Marks) : Samples := (if marks.collapsed then [] else marks.seed) ++ marks.since

@[simp] theorem evidence_committed (candidate : Option SegmentSample) (older : Marks) :
    evidence (.committed candidate :: older) = (candidate.map Controller.acquisition).toList := by
  simp [evidence, since, seed, collapsed]

@[simp] theorem evidence_collapsed (sample : SegmentSample) (older : Marks) :
    evidence (.sampled sample true :: older) = [Controller.acquisition sample] := by
  simp [evidence, since, collapsed]

@[simp] theorem evidence_sampled (sample : SegmentSample) (older : Marks) :
    evidence (.sampled sample false :: older) = evidence older ++ [Controller.acquisition sample] := by
  cases collapse : collapsed older <;> simp [evidence, since, seed, collapsed, collapse]

@[simp] theorem evidence_nothing (older : Marks) : evidence (.nothing :: older) = evidence older := by
  cases collapse : collapsed older <;> simp [evidence, since, seed, collapsed, collapse]

end Marks

namespace Controller

variable [Target] {ctl : Controller}

abbrev Past.marks (past : Past) : Marks := (past.map mark).reverse

omit [Target] in
theorem marks_snoc (past : Past) (event : Event Controller Call Reply) :
    Past.marks (past ++ [event]) = mark event :: past.marks := by simp

variable {sample : SegmentSample}

omit [Target] in
theorem acquisition_valid (completed : sample.completed = true) : (acquisition sample).Valid where
  took := (sample.carried completed).2.trans_le sample.ordered
  plays := Int.natCast_pos.mpr sample.plays

theorem observe_summary (window : AcquisitionWindow) (completed : sample.completed = true) :
    (window.observe (Controller.call sample)).summary =
      window.summary.combine (fromSample (acquisition sample)) := by
  simp only [AcquisitionWindow.observe, call_formed completed]
  rfl

theorem summary_snoc (samples : Samples) (sample : Acquisition) :
    Samples.summary (samples ++ [sample]) = samples.summary.combine (fromSample sample) := by
  simp [Samples.summary]

variable {after : Controller}

omit [Target] in
theorem Decides.acquisitions {decision : Decision} (decides : Decides ctl after decision) :
    after.acquisitions = ctl.acquisitions := by
  cases decides <;> rfl

theorem acquisitionsAfter_ordinary (ctl : Controller) (completed : sample.completed = true) :
    (ctl.acquisitionsAfter sample false).summary =
      if ctl.regimeChanged sample then Samples.summary [acquisition sample]
      else ctl.acquisitions.summary.combine (fromSample (acquisition sample)) := by
  simp only [acquisitionsAfter, completed, Bool.not_false, Bool.and_self, if_true, observe_summary _ completed]
  split <;> rfl

variable {sessionBoundary : Bool}

theorem acquisitionsAfter_spared (ctl : Controller)
    (spared : sample.completed = false ∨ sessionBoundary = true) :
    ctl.acquisitionsAfter sample sessionBoundary = ctl.acquisitions := by
  rcases spared with abandoned | boundary
  · simp [acquisitionsAfter, abandoned]
  · simp [acquisitionsAfter, boundary]

variable {call : Call} {reply : Reply} {marks : Marks}

theorem Effect.evidence (effect : Effect ctl call after reply)
    (summary : ctl.acquisitions.summary = marks.evidence.summary) :
    after.acquisitions.summary = (Marks.evidence (mark ⟨ctl, call, reply, after⟩ :: marks)).summary := by
  cases effect with
  | observed sample rollbackMediaMs nowMs sessionBoundary decides =>
    rw [decides.acquisitions]
    cases sessionBoundary with
    | true =>
      have spared : (ctl.estimated sample rollbackMediaMs nowMs true).acquisitions = ctl.acquisitions :=
        ctl.acquisitionsAfter_spared (.inr rfl)
      simpa [mark, spared] using summary
    | false =>
      by_cases completed : sample.completed = true
      · have window := ctl.acquisitionsAfter_ordinary completed
        change (ctl.acquisitionsAfter sample false).summary = _
        rw [window]
        simp only [mark, completed]
        cases ctl.regimeChanged sample with
        | true => simp
        | false => simp [summary, summary_snoc]
      · have abandoned : sample.completed = false := by simpa using completed
        have spared : (ctl.estimated sample rollbackMediaMs nowMs false).acquisitions = ctl.acquisitions :=
          ctl.acquisitionsAfter_spared (.inl abandoned)
        simpa [mark, abandoned, spared] using summary
  | refused call => cases call <;> simpa [mark] using summary
  | committedCandidate proposal sample variant nowMs pending completed =>
    obtain ⟨shown, evidence, window, whole⟩ := committedCandidate_eq ctl proposal variant nowMs completed
    rw [whole]
    simp only [mark, observe_summary _ completed]
    rfl
  | committed => simp [mark]; rfl
  | rejected proposal cause nowMs =>
    obtain ⟨frontier, failures, recovery, whole⟩ := rejected_eq ctl proposal cause nowMs
    rw [whole]
    change ctl.acquisitions.summary = (Marks.evidence (.nothing :: marks)).summary
    exact summary
  | attached variant evidenceKbps =>
    obtain ⟨shown, evidence, attached⟩ := observeActiveVariant_eq ctl variant evidenceKbps
    rw [attached]
    simpa [mark] using summary
  | _ =>
    change ctl.acquisitions.summary = (Marks.evidence (.nothing :: marks)).summary
    exact summary

theorem Effect.valid (effect : Effect ctl call after reply) (valid : marks.evidence.AllValid) :
    (Marks.evidence (mark ⟨ctl, call, reply, after⟩ :: marks)).AllValid := by
  have alone {sample : SegmentSample} (completed : sample.completed = true) : Samples.AllValid [acquisition sample] :=
    fun each inside => List.mem_singleton.mp inside ▸ acquisition_valid completed
  cases effect with
  | observed sample rollbackMediaMs nowMs sessionBoundary decides =>
    cases sessionBoundary with
    | true => simpa [mark] using valid
    | false =>
      by_cases completed : sample.completed = true
      · simp only [mark, completed, if_true]
        cases ctl.regimeChanged sample with
        | true =>
          exact alone completed
        | false =>
          rw [Marks.evidence_sampled]
          exact valid.append (alone completed)
      · simpa [mark, completed] using valid
  | refused call => cases call <;> simpa [mark] using valid
  | committedCandidate proposal sample variant nowMs pending completed =>
    exact alone completed
  | committed =>
    exact nofun
  | _ =>
    change (Marks.evidence (.nothing :: marks)).AllValid
    exact valid

theorem Effect.spared (effect : Effect ctl call after reply)
    (unmarked : mark ⟨ctl, call, reply, after⟩ = .nothing) : after.acquisitions = ctl.acquisitions := by
  cases effect with
  | observed sample rollbackMediaMs nowMs sessionBoundary decides =>
    rw [decides.acquisitions]
    refine ctl.acquisitionsAfter_spared ?_
    cases sessionBoundary with
    | true => exact .inr rfl
    | false =>
      cases completed : sample.completed with
      | false => exact .inl rfl
      | true => simp [mark, completed] at unmarked
  | committedCandidate => cases unmarked
  | committed => cases unmarked
  | rejected proposal cause nowMs =>
    obtain ⟨frontier, failures, recovery, whole⟩ := rejected_eq ctl proposal cause nowMs
    rw [whole]
    rfl
  | attached variant evidenceKbps =>
    obtain ⟨shown, evidence, attached⟩ := observeActiveVariant_eq ctl variant evidenceKbps
    rw [attached]
  | _ => rfl

/-- What an abandoned fetch leaves untouched. -/
structure Untouched (before after : Controller) : Prop where
  delivery : after.delivery = before.delivery
  production : after.production = before.production
  acquisitions : after.acquisitions = before.acquisitions
  samplesOnRung : after.samplesOnRung = before.samplesOnRung

theorem Effect.abandoned {rollbackMediaMs : Option Nat} {nowMs : Nat}
    (effect : Effect ctl (.observe sample rollbackMediaMs nowMs sessionBoundary) after reply)
    (abandoned : sample.completed = false) : Untouched ctl after := by
  cases effect with
  | observed _ _ _ _ decides =>
    have estimated : Untouched ctl (ctl.estimated sample rollbackMediaMs nowMs sessionBoundary) := by
      constructor <;> simp [Controller.estimated, deliveryAfter, productionAfter, acquisitionsAfter, abandoned]
    cases decides <;> exact ⟨estimated.1, estimated.2, estimated.3, estimated.4⟩
  | refused => exact ⟨rfl, rfl, rfl, rfl⟩

/-- After any run the window's summary is the fold of the evidence, all of it valid samples. -/
structure Evident (past : Past) (controller : Controller) : Prop where
  unpinned : controller.pin = none
  summary : controller.acquisitions.summary = past.marks.evidence.summary
  valid : past.marks.evidence.AllValid

theorem run_evident (current : Rung) (prior : Option CapacityEstimate) (catalog : HlsActuatorCatalog) (calls : List Call) :
    Evident (history Controller.step (startingAt current prior catalog) calls)
      (run Controller.step (startingAt current prior catalog) calls) := by
  refine Transducer.history_invariant Controller.step (fun past ctl call evident => ?_) ⟨rfl, rfl, nofun⟩ calls
  have effect := step_effect evident.unpinned call
  constructor
  · exact effect.pin.trans evident.unpinned
  · rw [marks_snoc]
    exact effect.evidence evident.summary
  · rw [marks_snoc]
    exact effect.valid evident.valid

/-- The window holds the evidence of the current operating point, and an abandoned fetch is none. -/
theorem evidence_of_run (current : Rung) (prior : Option CapacityEstimate) (catalog : HlsActuatorCatalog)
    (calls : List Call) :
    let controller := run Controller.step (startingAt current prior catalog) calls
    let past : Past := history Controller.step (startingAt current prior catalog) calls
    controller.acquisitions.summary = past.marks.evidence.summary ∧
    (∀ call, mark (Transducer.event Controller.step controller call) = .nothing →
      (controller.step call).1.acquisitions = controller.acquisitions) ∧
    (∀ sample rollbackMediaMs nowMs sessionBoundary, sample.completed = false →
      Untouched controller (controller.step (.observe sample rollbackMediaMs nowMs sessionBoundary)).1) := by
  have evident := run_evident current prior catalog calls
  exact ⟨evident.summary, fun call unmarked => (step_effect evident.unpinned call).spared unmarked,
    fun sample rollbackMediaMs nowMs sessionBoundary abandoned => (step_effect evident.unpinned _).abandoned abandoned⟩

omit [Target] in
/-- A collapse drops the committed candidate's segment too. -/
theorem candidate_dropped_by_collapse : letI := armv7
    ¬∀ (catalog : HlsActuatorCatalog) (calls : List Call),
      let past : Past := history Controller.step (startingAt .p480 none catalog) calls
      (run Controller.step (startingAt .p480 none catalog) calls).acquisitions.summary =
        Samples.summary (past.marks.seed ++ past.marks.since) := by
  intro all
  let slow : Call := .observe (segment 3000000 10000 true (by decide)) (some 2000) 0 false
  let candidate : Call := .commitCandidate ⟨.p240, .down⟩ (segment 500000 10000 true (by decide)) ⟨300000, 426, 240⟩ 0
  let collapsing : Call :=
    .observe { segment 500000 10000 true (by decide) with bytes := 50000, carried := fun _ => by decide } (some 2000) 0 false
  have counts := congrArg n (all HlsActuatorCatalog.measured [slow, candidate, collapsing])
  exact absurd counts (by decide +kernel)

end Controller

end PlxNative.Abr
