import PlxNative.Hud.Requests

/-! The selection: what the store holds of it, and what was last written to the profile or
read from it. -/
namespace PlxNative.Hud
open Transducer (Event event history latest run)

/-- The selection an event brings from the profile. -/
def HudEvent.selects : HudEvent → Option String
  | .refresh _ id => some (if id = "" then builtinClassic else id)
  | _ => none

def HudEffect.selects : HudEffect → Option String
  | .selection id => some id
  | _ => none

namespace HudStore
variable {s : HudStore} {fx gx : List HudEffect}

/-- The selection that effects leave in the profile. -/
def chosen (fx : List HudEffect) : Option String := (fx.filterMap HudEffect.selects).getLast?

theorem chosen_append (fx gx : List HudEffect) : chosen (fx ++ gx) = (chosen gx).or (chosen fx) := by
  unfold chosen
  rw [List.filterMap_append, List.getLast?_append]

def Silent (fx : List HudEffect) : Prop := ∀ e ∈ fx, e.selects = none

theorem silent_nil : Silent [] := nofun

theorem silent_single {e : HudEffect} (none_ : e.selects = none) : Silent [e] :=
  fun _ mem => List.mem_singleton.mp mem ▸ none_

theorem Silent.append (h : Silent fx) (h' : Silent gx) : Silent (fx ++ gx) :=
  fun e mem => (List.mem_append.mp mem).elim (h e) (h' e)

theorem Silent.chosen (h : Silent fx) : chosen fx = none := by
  unfold HudStore.chosen
  rw [List.filterMap_eq_nil_iff.mpr h]
  rfl

/-- The store holds what its effects left in the profile, and what it held where they left
that alone. -/
def Follows (before : String) (stepped : Stepped) : Prop := stepped.1.selected = (chosen stepped.2).getD before

structure Unmoved (before : String) (stepped : Stepped) : Prop where
  selected : stepped.1.selected = before
  silent : Silent stepped.2

variable {before : String}

theorem Unmoved.follows {stepped : Stepped} (h : Unmoved before stepped) : Follows before stepped := by
  unfold Follows
  rw [h.silent.chosen]
  exact h.selected

variable {t : HudStore}

theorem Unmoved.after (h : Unmoved before (t, gx)) (silent : Silent fx) : Unmoved before (t, fx ++ gx) :=
  ⟨h.selected, silent.append h.silent⟩

theorem Follows.after (h : Follows before (t, gx)) (silent : Silent fx) : Follows before (t, fx ++ gx) := by
  unfold Follows at h ⊢
  rw [chosen_append, silent.chosen, Option.or_none]
  exact h

section

theorem discard_silent (s : HudStore) (d : Nat) (sha : Sha) : Silent (s.discard d sha) := by
  unfold discard
  split
  · exact silent_nil
  · exact silent_single rfl

theorem discardReplaced_silent (s : HudStore) (d : Nat) (sha : Sha) (replaced : Option Sha) :
    Silent (s.discardReplaced d sha replaced) := by
  unfold discardReplaced
  split
  · split
    · exact silent_nil
    · exact discard_silent s d _
  · exact silent_nil

theorem reclaim_silent (s : HudStore) (stray : List (PathBuf × Sha)) : Silent (s.reclaim stray) := by
  intro e mem
  obtain ⟨p, -, own⟩ := List.mem_flatMap.mp mem
  unfold discardStray at own
  split at own
  · split at own
    · exact discard_silent s _ _ e own
    · cases own
  · cases own

theorem displaced_silent (s : HudStore) : Silent s.displaced.2 := by
  unfold displaced
  split
  · exact silent_nil
  · exact silent_nil
  · exact silent_single rfl
  · exact silent_single rfl

theorem request_silent (s : HudStore) (job : Job) : Silent (s.request job) := by
  cases job with
  | plan => exact silent_nil
  | _ => exact silent_single rfl

theorem issue_unmoved (s : HudStore) (stray : List (PathBuf × Sha)) (job : Job) (rest : List Job) :
    Unmoved s.selected (s.issue stray job rest) :=
  ⟨rfl, request_silent _ job⟩

theorem advance_unmoved (s : HudStore) (stray : List (PathBuf × Sha)) (jobs : List Job) :
    Unmoved s.selected (s.advance stray jobs) := by
  induction jobs generalizing s stray with
  | nil => exact ⟨rfl, silent_nil⟩
  | cons job rest ih =>
    cases job with
    | plan =>
      simp only [advance]
      split
      · exact (ih s.drawn []).after (reclaim_silent s stray)
      · exact (issue_unmoved s.drawn _ _ _).after (reclaim_silent s stray)
    | _ => exact issue_unmoved s stray _ rest

theorem writePack_unmoved (s : HudStore) (offer : Offer) (metadata : Meta) (d : Nat) :
    Unmoved s.selected (s.writePack offer metadata d) := by
  unfold writePack
  split <;> exact ⟨rfl, silent_single rfl⟩

theorem beginListing_unmoved (s : HudStore) (setup : Setup) (selected : String) :
    Unmoved (if selected = "" then builtinClassic else selected) (s.beginListing setup selected) :=
  (advance_unmoved (s.forgotten setup selected) s.displaced.1 _).after (displaced_silent s)

end

section
variable [World]
variable {ev : HudEvent} {stepped : Stepped}

theorem Proceeds.unmoved {step : Step} {tag : Tag} (proceeds : s.Proceeds tag step ev stepped) :
    Unmoved s.selected stepped := by
  cases proceeds with
  | offered given ok unconfirmed => exact ⟨rfl, silent_nil⟩
  | begun given ok confirmed => exact writePack_unmoved s _ _ _
  | packRefused given => exact writePack_unmoved s _ _ _
  | indexDone given => exact ⟨rfl, (discardReplaced_silent _ _ _ _).append (silent_single rfl)⟩
  | indexRefused given => exact (writePack_unmoved s _ _ _).after (discard_silent s _ _)
  | _ => exact ⟨rfl, silent_single rfl⟩

theorem Known.selected {t : HudStore} (known : s.Known t) : t.selected = s.selected := by
  cases known with
  | admitted sha d verdict => cases verdict <;> rfl
  | _ => rfl

theorem listingAnswer_unmoved {listing : Listing} {job : Job} {stage : Stage}
    (answered : s.listingAnswer listing job stage ev = some stepped) : Unmoved s.selected stepped :=
  listingAnswer_rule (fun known todo => known.selected ▸ advance_unmoved _ _ todo)
    (fun _ _ _ => ⟨rfl, silent_single rfl⟩) answered

omit [World] in
theorem finishRemoval_follows (s : HudStore) (id : String) (incomplete : Bool) :
    Follows s.selected (s.finishRemoval id incomplete) := by
  unfold finishRemoval
  simp only
  split
  · rfl
  · exact (Unmoved.mk rfl (silent_single rfl)).follows

theorem advanceRemoval_follows (s : HudStore) (id : String) (incomplete : Bool) (dirs : List Nat) :
    Follows s.selected (s.advanceRemoval id incomplete dirs) :=
  advanceRemoval_rule incomplete (finishRemoval_follows s id)
    (fun _ _ _ _ => (Unmoved.mk rfl (silent_single rfl)).follows)

theorem rewritten_follows (s : HudStore) (removing : Removing) (r : Rewrite) (outcome : WriteOutcome) :
    Follows s.selected (s.rewritten removing r outcome) := by
  cases outcome with
  | refused => exact advanceRemoval_follows s _ _ _
  | done =>
    refine (advanceRemoval_follows (s.withIndex r.dir r.index) _ _ _).after (fun e mem => ?_)
    obtain ⟨sha, -, own⟩ := List.mem_flatMap.mp mem
    exact discard_silent _ _ sha e own

end

section
variable [World]

theorem Reduces.follows {ev : HudEvent} {turn : Turn} (reduces : s.Reduces ev turn) (other : ev.selects = none) :
    Follows s.selected (turn.store, turn.fx) := by
  cases reduces with
  | catalog event =>
    refine (Unmoved.mk rfl (fun e mem => ?_)).follows
    obtain ⟨inner, -, rfl⟩ := List.mem_map.mp mem
    rfl
  | refreshed setup selected => cases other
  | selected id => rfl
  | tooLarge idle bytes source now => exact (Unmoved.mk rfl (silent_single rfl)).follows
  | begun idle begins => cases begins <;> exact (Unmoved.mk rfl (silent_single rfl)).follows
  | revoked held now => exact (Unmoved.mk rfl (silent_single rfl)).follows
  | confirmed held now => exact (writePack_unmoved { s with op := .idle } _ _ _).follows
  | removed idle id => exact advanceRemoval_follows s id false _
  | listed held flying tagged answered => exact (listingAnswer_unmoved answered).follows
  | installed held tagged proceeds => exact proceeds.unmoved.follows
  | rewrote held outcome => exact rewritten_follows { s with op := .idle } _ _ outcome
  | _ => exact (Unmoved.mk rfl silent_nil).follows

theorem reduce_follows (s : HudStore) (ev : HudEvent) :
    Follows (ev.selects.getD s.selected) ((s.reduce ev).store, (s.reduce ev).fx) := by
  cases ev with
  | refresh setup selected => exact (beginListing_unmoved s setup selected).follows
  | _ => exact (reduce_reduces s _).follows rfl

omit [World] in
theorem settle_follows {before : String} {turn : Turn} (h : Follows before (turn.store, turn.fx)) :
    Follows before ((settle turn).store, (settle turn).fx) := by
  unfold settle
  split
  · unfold Follows
    rw [chosen_append]
    rfl
  · exact h

/-- What an event leaves in the profile: what it brought from there, and what was written after
it. -/
def inProfile (e : Event HudStore HudEvent (Handled × List HudEffect)) : Option String :=
  (chosen e.answer.2).or e.input.selects

theorem turn_follows (s : HudStore) (ev : HudEvent) : (s.turn ev).1.selected = (inProfile (event turn s ev)).getD s.selected := by
  have follows := settle_follows (reduce_follows s ev)
  refine follows.trans ?_
  show _ = ((chosen (settle (s.reduce ev)).fx).or ev.selects).getD s.selected
  cases chosen (settle (s.reduce ev)).fx <;> rfl

omit [World] in
theorem resolved_playable (s : HudStore) : s.resolved = builtinClassic ∨
    ∃ w, s.winners.lookup s.resolved = some w ∧ w.loaded.loadable = .ok () ∧ s.revoked w.record.sha = false := by
  unfold resolved
  split
  · rename_i fit
    refine .inr ?_
    cases won : s.winners.lookup s.selected with
    | none =>
      rw [won] at fit
      exact absurd fit.2 Bool.false_ne_true
    | some w =>
      rw [won] at fit
      have plays : s.playable w = true := fit.2
      simp only [playable, Bool.and_eq_true, decide_eq_true_eq, Bool.not_eq_true'] at plays
      exact ⟨w, rfl, plays⟩
  · exact .inl rfl

/-- After every event of every run: what a playback starts with is the built-in or a package
that loads and is not revoked, the selection is no revoked package's, and it is what the
profile was last written or last brought. -/
theorem selection_safe_and_in_step (events : List HudEvent) :
    ((run turn new events).resolved = builtinClassic ∨
      ∃ w, (run turn new events).winners.lookup (run turn new events).resolved = some w ∧ w.loaded.loadable = .ok () ∧
        (run turn new events).revoked w.record.sha = false) ∧
    (∀ w, (run turn new events).winners.lookup (run turn new events).selected = some w →
      (run turn new events).revoked w.record.sha = false) ∧
    (run turn new events).selected = (latest inProfile (history turn new events)).getD builtinClassic := by
  refine ⟨resolved_playable _, fun w won => ?_, ?_⟩
  · have settled := (run_settled events).settled
    unfold selectionRevoked at settled
    rw [won] at settled
    exact settled
  · induction events using List.reverseRecOn with
    | nil => rfl
    | append_singleton events ev ih =>
      rw [Transducer.run_snoc, Transducer.history_snoc, Transducer.latest_snoc, turn_follows, ih]
      cases inProfile (event turn (run turn new events) ev) <;> rfl

end
end HudStore
end PlxNative.Hud
