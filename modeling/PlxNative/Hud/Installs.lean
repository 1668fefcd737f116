import PlxNative.Hud.Effects

/-! What is installed is what the viewer confirmed, and it is an upgrade. -/
namespace PlxNative.Hud
open Option
open Transducer (Event event history run history_invariant)

namespace HudStore
variable [World]

/-- How an install comes to a step: what it was at before, and what was told. -/
inductive Leads (s : HudStore) : HudEvent → Step → Prop
  | kept {ev : HudEvent} {step : Step} (held : s.op.step? = some step) : Leads s ev step
  | install (free : s.op = .idle) (bytes : Bytes) (source : Source) (now : Nat) :
      Leads s (.install bytes source now) (.validating
        { sha := Sha.of bytes, source := source, now := some now, from_ := none, bytes := bytes, expected := none })
  | fetch (free : s.op = .idle) (address : Address) : Leads s (.fetch address) (.fetching address none)
  | fetchRegistry (free : s.op = .idle) (sha : Sha) (app language : String) (address : Address) (p : Catalog.Package) :
      Leads s (.fetchRegistry sha app language) (.fetching address (some p))
  | installDrop (free : s.op = .idle) (sha : Sha) (now : Nat) : Leads s (.installDrop sha now) (.reading sha now)
  | reread (tag : Tag) {sha : Sha} {now : Nat} (held : s.op.step? = some (.reading sha now)) (bytes : Bytes)
      (same : Sha.of bytes = sha) : Leads s (.read tag (.ok bytes)) (.validating
        { sha := sha, source := .drop, now := some now, from_ := none, bytes := bytes, expected := none })
  | fetched (tag : Tag) {address : Address} {expected : Option Catalog.Package}
      (held : s.op.step? = some (.fetching address expected)) (bytes : Bytes) :
      Leads s (.fetched tag (.ok bytes)) (.validating (fetchedOffer address expected bytes))
  | offered (tag : Tag) {offer : Offer} (held : s.op.step? = some (.validating offer)) {metadata : Meta}
      (unconfirmed : offer.now = none) (judged : s.judge offer.sha (.loadable metadata) = .ok metadata) :
      Leads s (.validated tag offer.sha (.loadable metadata)) (.offered offer metadata)
  | write (tag : Tag) {offer : Offer} (held : s.op.step? = some (.validating offer)) {metadata : Meta}
      (confirmed : offer.now.isSome = true) (judged : s.judge offer.sha (.loadable metadata) = .ok metadata) (d : Nat) :
      Leads s (.validated tag offer.sha (.loadable metadata)) (.writing offer metadata d .pack)
  | confirm {offer : Offer} {metadata : Meta} (held : s.op.step? = some (.offered offer metadata)) (now d : Nat) :
      Leads s (.installOffer offer.sha now) (.writing { offer with now := some now } metadata d .pack)
  | onward {ev : HudEvent} {offer : Offer} {metadata : Meta} {d : Nat} {what : Write}
      (held : s.op.step? = some (.writing offer metadata d what)) (e : Nat) (what' : Write) :
      Leads s ev (.writing offer metadata e what')

section
variable {s : HudStore}

variable {step : Step}

variable {metadata : Meta}

omit [World] in
theorem writePack_step {offer : Offer} {d : Nat}
    (reached : (s.writePack offer metadata d).1.op.step? = some step) : ∃ e, step = .writing offer metadata e .pack := by
  unfold writePack at reached
  split at reached
  · cases reached
  · rename_i e _
    cases reached
    exact ⟨e, rfl⟩

omit [World] in
theorem advance_step (s : HudStore) (stray : List (PathBuf × Sha)) (todo : List Job) :
    (s.advance stray todo).1.op.step? = none := by
  induction todo generalizing s stray with
  | nil => rfl
  | cons job rest ih =>
    cases job with
    | plan =>
      simp only [advance]
      split
      · exact ih s.drawn []
      · rfl
    | _ => rfl

variable {ev : HudEvent}
variable {stepped : Stepped}

theorem listingAnswer_step {listing : Listing} {job : Job} {stage : Stage}
    (answered : s.listingAnswer listing job stage ev = some stepped) : stepped.1.op.step? = none :=
  listingAnswer_rule (P := fun stepped => stepped.1.op.step? = none) (fun _ todo => advance_step _ _ todo) (fun _ _ _ => rfl) answered

theorem advanceRemoval_step (s : HudStore) (id : String) (incomplete : Bool) (dirs : List Nat) :
    (s.advanceRemoval id incomplete dirs).1.op.step? = none := by
  refine advanceRemoval_rule (P := fun stepped => stepped.1.op.step? = none) incomplete (fun _ => ?_) (fun _ _ _ _ => rfl)
  simp only [finishRemoval]
  split <;> rfl

theorem rewritten_step (s : HudStore) (removing : Removing) (r : Rewrite) (outcome : WriteOutcome) :
    (s.rewritten removing r outcome).1.op.step? = none := by
  cases outcome <;> exact advanceRemoval_step _ _ _ _

omit [World] in
theorem checked_judged {offer : Offer} {verdict : Verdict} (ok : s.checked offer verdict = .ok metadata) :
    verdict = .loadable metadata ∧ s.judge offer.sha (.loadable metadata) = .ok metadata := by
  have judged := checked_eq_ok ok
  obtain ⟨rfl, -⟩ := judge_eq_ok judged
  exact ⟨rfl, judged⟩

theorem Proceeds.leads {t : HudStore} {tag : Tag} {next : Step}
    (proceeds : s.Proceeds tag step ev stepped) (held : t.op.step? = some step) (judges : t.judge = s.judge)
    (reached : stepped.1.op.step? = some next) : Leads t ev next := by
  cases proceeds with
  | refused free sha reason => cases reached
  | failed free reason => cases reached
  | reread given bytes =>
    cases reached
    exact .reread given held bytes rfl
  | fetched given bytes =>
    cases reached
    exact .fetched given held bytes
  | offered given ok unconfirmed =>
    obtain ⟨rfl, judged⟩ := checked_judged ok
    cases reached
    exact .offered given held (Option.not_isSome_iff_eq_none.mp unconfirmed) (judges ▸ judged)
  | begun given ok confirmed =>
    obtain ⟨rfl, judged⟩ := checked_judged ok
    obtain ⟨d, rfl⟩ := writePack_step reached
    exact .write given held confirmed (judges ▸ judged) d
  | packDone given =>
    cases reached
    exact .onward held _ _
  | packRefused given =>
    obtain ⟨e, rfl⟩ := writePack_step reached
    exact .onward held e _
  | indexDone given => cases reached
  | indexRefused given =>
    obtain ⟨e, rfl⟩ := writePack_step reached
    exact .onward held e _

theorem Reduces.leads {turn : Turn} (reduces : s.Reduces ev turn)
    (reached : turn.store.op.step? = some step) : Leads s ev step := by
  have stepless {o : Op} (none_ : o.step? = none) (some_ : o.step? = some step) : Leads s ev step :=
    absurd (some_.symm.trans none_) (some_ne_none step)
  cases reduces with
  | refreshed setup selected => exact stepless (advance_step (s.forgotten setup selected) s.displaced.1 _) reached
  | begun idle begins =>
    cases begins with
    | registry sha app language p address =>
      cases reached
      exact .fetchRegistry idle sha app language address p
    | fetch address =>
      cases reached
      exact .fetch idle address
    | drop sha now d name =>
      cases reached
      exact .installDrop idle sha now
    | install bytes source now =>
      cases reached
      exact .install idle bytes source now
  | abandoned held inert => cases reached
  | revoked held now => cases reached
  | confirmed held now =>
    obtain ⟨d, rfl⟩ := writePack_step reached
    exact .confirm (by rw [held]; rfl) now d
  | removed idle id => exact stepless (advanceRemoval_step s id false _) reached
  | listed held flying tagged answered => exact stepless (listingAnswer_step answered) reached
  | installed held tagged proceeds => exact proceeds.leads (by rw [held]; rfl) rfl reached
  | rewrote held outcome => exact stepless (rewritten_step { s with op := .idle } _ _ _) reached
  | _ => exact .kept reached

theorem reduce_leads (reached : (s.reduce ev).store.op.step? = some step) :
    Leads s ev step := (reduce_reduces s ev).leads reached

theorem turn_leads (reached : (s.turn ev).1.op.step? = some step) : Leads s ev step := by
  have eq : (s.turn ev).1.op = (s.reduce ev).store.op := (settle_op _).1
  rw [eq] at reached
  exact reduce_leads reached

end

section
variable {s : HudStore}

omit [World] in
/-- What an install leaves alone while it is in hand. -/
structure Framed (s t : HudStore) : Prop where
  selected : t.selected = s.selected
  catalog : t.catalog = s.catalog
  held : t.op.step?.isSome = true → t.dirs = s.dirs ∧ t.packs = s.packs

omit [World] in
theorem Framed.refl (s : HudStore) : s.Framed s := ⟨rfl, rfl, fun _ => ⟨rfl, rfl⟩⟩

omit [World] in
theorem writePack_framed (s : HudStore) (offer : Offer) (metadata : Meta) (d : Nat) :
    s.Framed (s.writePack offer metadata d).1 := by
  unfold writePack
  split <;> exact ⟨rfl, rfl, fun _ => ⟨rfl, rfl⟩⟩

theorem Proceeds.framed {tag : Tag} {step : Step} {ev : HudEvent} {stepped : Stepped} (proceeds : s.Proceeds tag step ev stepped) :
    s.Framed stepped.1 := by
  cases proceeds with
  | begun given ok confirmed => exact writePack_framed s _ _ _
  | packRefused given => exact writePack_framed s _ _ _
  | indexDone given => exact ⟨rfl, rfl, nofun⟩
  | indexRefused given => exact writePack_framed s _ _ _
  | _ => exact ⟨rfl, rfl, fun _ => ⟨rfl, rfl⟩⟩

end
end HudStore

def HudEvent.begins : HudEvent → Bool
  | .install _ _ _ | .installDrop _ _ | .fetch _ | .fetchRegistry _ _ _ => true
  | _ => false

/-- The events that change what the list shows of packages that stay as they are. -/
def HudEvent.showsAnew : HudEvent → Bool
  | .selected _ | .catalog _ => true
  | _ => false

def HudEvent.isRefresh : HudEvent → Bool
  | .refresh _ _ => true
  | _ => false

namespace HudStore
variable [World] {s : HudStore}
variable {ev : HudEvent}

theorem Reduces.framed {turn : Turn} (reduces : s.Reduces ev turn) (held : s.op.step?.isSome = true ∨ ev.begins = true)
    (eq : ev.showsAnew = false) (kept : ev.isRefresh = false) : s.Framed turn.store := by
  have stepless {o : Op} (own : s.op = o) (none_ : o.step? = none) : s.op.step?.isSome = true → s.Framed turn.store := by
    intro some_
    rw [own, none_] at some_
    cases some_
  cases reduces with
  | kept => exact Framed.refl s
  | catalog event => cases eq
  | refreshed setup selected => cases kept
  | selected id => cases eq
  | tooLarge idle bytes source now => exact Framed.refl s
  | begun idle begins => exact ⟨rfl, rfl, fun _ => ⟨rfl, rfl⟩⟩
  | abandoned held inert => exact ⟨rfl, rfl, by rintro ⟨⟩⟩
  | revoked held now => exact ⟨rfl, rfl, by rintro ⟨⟩⟩
  | @confirmed tag offer metadata held now =>
    have framed := writePack_framed { s with op := .idle } { offer with now := some now } metadata 0
    exact ⟨framed.selected, framed.catalog, framed.held⟩
  | removed idle id => exact held.elim (stepless idle rfl) (by rintro ⟨⟩)
  | listed own flying tagged answered =>
    have late : ev.begins = false := by cases ev <;> first | rfl | cases tagged
    exact held.elim (stepless own rfl) (fun begins => by cases late.symm.trans begins)
  | installed own tagged proceeds =>
    have framed := proceeds.framed
    exact ⟨framed.selected, framed.catalog, framed.held⟩
  | rewrote own outcome => exact held.elim (stepless own rfl) (by rintro ⟨⟩)

/-- An event while an install is in hand, or one that begins it, changes the selection and the
catalog only by being about them. -/
theorem reduce_framed (held : s.op.step?.isSome = true ∨ ev.begins = true)
    (eq : ev.showsAnew = false) (kept : ev.isRefresh = false) : s.Framed (s.reduce ev).store :=
  (reduce_reduces s ev).framed held eq kept

/-- While the directories and the packages stay, so does the selection, and the rule after the
event has nothing to do. -/
theorem turn_framed (h : s.Settled) (held : s.op.step?.isSome = true ∨ ev.begins = true)
    (eq : ev.showsAnew = false) (kept : ev.isRefresh = false) (dirs : (s.turn ev).1.dirs = s.dirs)
    (packs : (s.turn ev).1.packs = s.packs) :
    (s.turn ev).1.selected = s.selected ∧ (s.turn ev).1.catalog = s.catalog := by
  have framed := reduce_framed held eq kept
  obtain ⟨dirs', packs', -⟩ := settle_same (s.reduce ev)
  have still : (s.reduce ev).store.selectionRevoked = false := by
    rw [← h.settled]
    unfold selectionRevoked revoked
    rw [winners_congr (dirs'.symm.trans dirs) (packs'.symm.trans packs), framed.selected, framed.catalog]
  have whole : s.turn ev = ((s.reduce ev).store, (s.reduce ev).handled, (s.reduce ev).fx) := by
    unfold turn step settle
    rw [if_neg (by rw [still]; exact Bool.false_ne_true)]
  rw [whole]
  exact ⟨framed.selected, framed.catalog⟩

omit [World] in
theorem entries_congr {t : HudStore} (dirs : t.dirs = s.dirs) (packs : t.packs = s.packs)
    (selected : t.selected = s.selected) (catalog : t.catalog = s.catalog) : t.entries = s.entries := by
  unfold entries builtinEntry winnerEntry revoked
  rw [winners_congr dirs packs, selected, catalog]

end HudStore
end PlxNative.Hud
