import PlxNative.Hud.Winners

/-! Everything an event can do to the package store, case by case. -/
namespace PlxNative.Hud

def Step.writes : Step → Bool
  | .writing _ _ _ _ => true
  | _ => false

/-- The jobs whose bytes are inspected. -/
def Job.file : Job → Bool
  | .pack _ _ _ | .drop _ _ => true
  | _ => false

namespace HudStore
variable [World]

/-- The stores a listing goes on over. -/
inductive Known (s : HudStore) : HudStore → Prop
  | same : Known s s
  | read (d : Nat) (result : Except ReadError Bytes) : Known s (s.withDir d (indexRead result))
  | admitted (sha : Sha) (d : Nat) (verdict : Verdict) : Known s (s.admitted sha d verdict)
  | dropped (file : Dropped) : Known s (s.dropped file)

/-- What an answer makes of an install, by the step it was at. -/
inductive Proceeds (s : HudStore) (tag : Tag) : Step → HudEvent → Stepped → Prop
  | refused {step : Step} {ev : HudEvent} (free : step.writes = false) (sha : Sha) (reason : Refusal) :
      Proceeds s tag step ev (s.ended (.refused sha reason))
  | failed {step : Step} {ev : HudEvent} (free : step.writes = false) (reason : FetchError) :
      Proceeds s tag step ev (s.ended (.fetchFailed reason))
  | reread {now : Nat} (given : Tag) (bytes : Bytes) : Proceeds s tag (.reading (Sha.of bytes) now) (.read given (.ok bytes))
      (s.validate { sha := Sha.of bytes, source := .drop, now := some now, from_ := none, bytes := bytes, expected := none })
  | fetched {address : Address} {expected : Option Catalog.Package} (given : Tag) (bytes : Bytes) :
      Proceeds s tag (.fetching address expected) (.fetched given (.ok bytes))
        (s.validate (fetchedOffer address expected bytes))
  | offered {offer : Offer} {verdict : Verdict} {metadata : Meta} (given : Tag) (ok : s.checked offer verdict = .ok metadata)
      (unconfirmed : ¬ offer.now.isSome = true) : Proceeds s tag (.validating offer) (.validated given offer.sha verdict)
        ({ s with op := .installing ⟨tag, .offered offer metadata⟩ }, [])
  | begun {offer : Offer} {verdict : Verdict} {metadata : Meta} (given : Tag) (ok : s.checked offer verdict = .ok metadata)
      (confirmed : offer.now.isSome = true) : Proceeds s tag (.validating offer) (.validated given offer.sha verdict)
        (s.writePack offer metadata 0)
  | packDone {offer : Offer} {metadata : Meta} {d : Nat} (given : Tag) :
      Proceeds s tag (.writing offer metadata d .pack) (.written given .done) (s.writeIndex offer metadata d)
  | packRefused {offer : Offer} {metadata : Meta} {d : Nat} (given : Tag) :
      Proceeds s tag (.writing offer metadata d .pack) (.written given .refused) (s.writePack offer metadata (d + 1))
  | indexDone {offer : Offer} {metadata : Meta} {d : Nat} {index : Index} {replaced : Option Sha} (given : Tag) :
      Proceeds s tag (.writing offer metadata d (.index index replaced)) (.written given .done)
        (s.indexWritten offer metadata d index replaced)
  | indexRefused {offer : Offer} {metadata : Meta} {d : Nat} {index : Index} {replaced : Option Sha} (given : Tag) :
      Proceeds s tag (.writing offer metadata d (.index index replaced)) (.written given .refused)
        (s.indexRefused offer metadata d)

/-- The events that begin an install, with the step it begins at and what that asks for. -/
inductive Begins (s : HudStore) : HudEvent → Step → HudEffect → Prop
  | registry (sha : Sha) (app language : String) (p : Catalog.Package) (address : Address) :
      Begins s (.fetchRegistry sha app language) (.fetching address (some p))
        (.fetchRegistry s.drawn.lastTag p s.setup.maxPackBytes)
  | fetch (address : Address) :
      Begins s (.fetch address) (.fetching address none) (.fetch s.drawn.lastTag address s.setup.maxPackBytes)
  | drop (sha : Sha) (now d : Nat) (name : String) :
      Begins s (.installDrop sha now) (.reading sha now) (s.drawn.readFile d (dropDir ++ "/" ++ name))
  | install (bytes : Bytes) (source : Source) (now : Nat) : Begins s (.install bytes source now) (.validating
        { sha := Sha.of bytes, source := source, now := some now, from_ := none, bytes := bytes, expected := none })
      (.validate s.drawn.lastTag (Sha.of bytes) bytes)

/-- What an event can do, before the rule that follows every event. -/
inductive Reduces (s : HudStore) : HudEvent → Turn → Prop
  | kept {ev : HudEvent} : Reduces s ev ⟨s, .no, []⟩
  | catalog (event : Catalog.Event) : Reduces s (.catalog event) (s.catalogTold event)
  | refreshed (setup : Setup) (selected : String) :
      Reduces s (.refresh setup selected) (handled (s.beginListing setup selected))
  | selected (id : String) : Reduces s (.selected id) ⟨{ s with selected := id }, .yes, [.selection id]⟩
  | tooLarge (idle : s.op = .idle) (bytes : Bytes) (source : Source) (now : Nat) :
      Reduces s (.install bytes source now) ⟨s, .yes, [.notice (.refused (Sha.of bytes) .tooLarge)]⟩
  | begun {ev : HudEvent} {step : Step} {effect : HudEffect} (idle : s.op = .idle) (begins : s.Begins ev step effect) :
      Reduces s ev ⟨{ s.drawn with op := .installing ⟨s.drawn.lastTag, step⟩ }, .yes, [effect]⟩
  | abandoned {ev : HudEvent} {i : Installing} (held : s.op = .installing i) (free : i.step.writes = false) :
      Reduces s ev ⟨{ s with op := .idle }, .yes, []⟩
  | revoked {tag : Tag} {offer : Offer} {metadata : Meta} (held : s.op = .installing ⟨tag, .offered offer metadata⟩) (now : Nat) :
      Reduces s (.installOffer offer.sha now) (handled (s.ended (.refused offer.sha (.unloadable .revoked))))
  | confirmed {tag : Tag} {offer : Offer} {metadata : Meta} (held : s.op = .installing ⟨tag, .offered offer metadata⟩) (now : Nat) :
      Reduces s (.installOffer offer.sha now)
        (handled (HudStore.writePack { s with op := .idle } { offer with now := some now } metadata 0))
  | removed (idle : s.op = .idle) (id : String) :
      Reduces s (.removed id) (handled (s.advanceRemoval id false (s.holders id)))
  | listed {ev : HudEvent} {l : Listing} {f : Flight} {stepped : Stepped} (held : s.op = .listing l) (flying : l.flight = some f)
      (tagged : listingTag ev = some f.tag)
      (answered : HudStore.listingAnswer { s with op := .idle } { l with flight := none } f.job f.stage ev = some stepped) :
      Reduces s ev (handled stepped)
  | installed {ev : HudEvent} {tag : Tag} {step : Step} {stepped : Stepped} (held : s.op = .installing ⟨tag, step⟩)
      (tagged : answerTag ev = some tag) (proceeds : Proceeds { s with op := .idle } tag step ev stepped) :
      Reduces s ev (handled stepped)
  | rewrote {id : String} {dirs : List Nat} {incomplete : Bool} {r : Rewrite}
      (held : s.op = .removing ⟨id, dirs, incomplete, some r⟩) (outcome : WriteOutcome) :
      Reduces s (.written r.tag outcome)
        (handled (HudStore.rewritten { s with op := .idle } ⟨id, dirs, incomplete, none⟩ r outcome))

variable {s : HudStore}

/-- The rule for a removal that goes on: it ends, or it asks for the index of a candidate that
lists the package to be written. -/
theorem advanceRemoval_rule {P : Stepped → Prop} {id : String} {dirs : List Nat} (incomplete : Bool)
    (ends : ∀ incomplete, P (s.finishRemoval id incomplete))
    (asks : ∀ (d : Nat) (rest : List Nat) (incomplete : Bool) (record : Record),
      P ({ s.drawn with op := .removing ⟨id, rest, incomplete,
          some ⟨s.drawn.lastTag, d, (s.dir d).index.erase id, [record.sha]⟩⟩ },
        [s.drawn.writeFile d indexFile (indexBytes ((s.dir d).index.erase id))])) :
    P (s.advanceRemoval id incomplete dirs) := by
  induction dirs generalizing incomplete with
  | nil => exact ends incomplete
  | cons d rest ih =>
    simp only [advanceRemoval]
    split
    · exact ih true
    · split
      · exact ih incomplete
      · exact asks d rest incomplete _

omit [World] in
theorem idle_of_not_busy (free : ¬ s.busy = true) : s.op = .idle := by
  unfold busy at free
  simpa using free

variable {ev : HudEvent} {stepped : Stepped}

/-- The rule for an answer to a listing: bytes are inspected, or the listing goes on. -/
theorem listingAnswer_rule {P : Stepped → Prop} {l : Listing} {job : Job} {stage : Stage}
    (goes : ∀ {t : HudStore}, s.Known t → ∀ todo, P (t.advance l.stray todo)) (inspects : job.file = true → ∀ sha bytes, P (s.inspect l job sha bytes))
    (answered : s.listingAnswer l job stage ev = some stepped) : P stepped := by
  unfold listingAnswer at answered
  split at answered
  · cases answered
    exact goes (.read _ _) _
  · cases answered
    exact goes .same _
  · cases answered
    unfold packRead
    split
    · split
      · exact inspects rfl _ _
      · exact goes .same _
    · exact goes .same _
  · split at answered
    · cases answered
      exact goes (.admitted _ _ _) _
    · cases answered
  · cases answered
    unfold dropRead
    split
    · exact inspects rfl _ _
    · exact goes (.dropped _) _
    all_goals exact goes .same _
  · split at answered
    · cases answered
      exact goes (.dropped _) _
    · cases answered
  · cases answered

theorem installingAnswer_proceeds {tag : Tag} {step : Step}
    (answered : s.installingAnswer tag step ev = some stepped) : s.Proceeds tag step ev stepped := by
  unfold installingAnswer at answered
  split at answered
  · cases answered
    unfold reread
    split
    · split
      · rename_i eq
        subst eq
        exact .reread _ _
      · exact .refused rfl _ _
    · exact .refused rfl _ _
  · cases answered
    unfold fetchAnswered
    split
    · exact .failed rfl _
    · split
      · exact .refused rfl _ _
      · split
        · exact .refused rfl _ _
        · exact .fetched _ _
  · split at answered
    · rename_i eq
      subst eq
      cases answered
      unfold verdictGiven
      split
      · exact .refused rfl _ _
      · rename_i ok
        split
        · rename_i confirmed
          exact .begun _ ok confirmed
        · rename_i unconfirmed
          exact .offered _ ok unconfirmed
    · cases answered
  · cases answered
    exact .packDone _
  · cases answered
    exact .packRefused _
  · cases answered
    exact .indexDone _
  · cases answered
    exact .indexRefused _
  · cases answered

theorem result_reduces (s : HudStore) (ev : HudEvent) : s.Reduces ev (s.result ev) := by
  obtain ⟨setup, dirs, packs, drops, selected, op, tags, catalog⟩ := s
  cases op with
  | idle => exact .kept
  | listing l =>
    obtain ⟨todo, flight, stray⟩ := l
    cases flight with
    | none => exact .kept
    | some f =>
      simp only [result, listingResult]
      split
      · rename_i tagged
        split
        · rename_i answered
          exact .listed rfl rfl tagged answered
        · exact .kept
      · exact .kept
  | installing i =>
    simp only [result, installingResult]
    split
    · rename_i tagged
      split
      · rename_i answered
        exact .installed rfl tagged (installingAnswer_proceeds answered)
      · exact .kept
    · exact .kept
  | removing r =>
    obtain ⟨id, ds, incomplete, flight⟩ := r
    cases ev with
    | written tag outcome =>
      cases flight with
      | none => exact .kept
      | some r =>
        simp only [result, removingResult]
        split
        · rename_i eq
          subst eq
          exact .rewrote rfl outcome
        · exact .kept
    | _ => exact .kept

/-- The one analysis of what an event can do. -/
theorem reduce_reduces (s : HudStore) (ev : HudEvent) : s.Reduces ev (s.reduce ev) := by
  cases ev with
  | catalog event => exact .catalog event
  | refresh setup selected => exact .refreshed setup selected
  | cancelRegistry sha =>
    simp only [reduce]
    split
    · rename_i cancels
      unfold HudStore.cancels at cancels
      split at cancels
      all_goals first | cases cancels | rename_i held; exact .abandoned held rfl
    · exact .kept
  | fetchRegistry sha app language =>
    simp only [reduce, fetchRegistry]
    split
    · exact .kept
    · rename_i free
      split
      · exact .kept
      · exact .begun (idle_of_not_busy (fun busy => free (.inl busy))) (.registry _ _ _ _ _)
  | selected id =>
    simp only [reduce, select]
    split
    · exact .selected id
    · exact .kept
  | install bytes source now =>
    simp only [reduce, install]
    split
    · exact .kept
    · rename_i free
      split
      · exact .tooLarge (idle_of_not_busy free) bytes source now
      · exact .begun (idle_of_not_busy free) (.install bytes source now)
  | fetch address =>
    simp only [reduce, fetch]
    split
    · exact .kept
    · rename_i free
      exact .begun (idle_of_not_busy free) (.fetch address)
  | installOffer sha now =>
    simp only [reduce, installOffer]
    split
    · rename_i held
      split
      · rename_i eq
        subst eq
        split
        · exact .revoked held now
        · exact .confirmed held now
      · exact .kept
    · exact .kept
  | declineOffer sha =>
    simp only [reduce, declineOffer]
    split
    · rename_i held
      split
      · exact .abandoned held rfl
      · exact .kept
    · exact .kept
  | installDrop sha now =>
    simp only [reduce, installDrop]
    split
    · exact .kept
    · rename_i free
      split
      · exact .kept
      · exact .begun (idle_of_not_busy free) (.drop _ _ _ _)
  | removed id =>
    simp only [reduce, beginRemoval]
    split
    · exact .kept
    · rename_i free
      split
      · exact .removed (idle_of_not_busy (fun busy => free (.inl busy))) id
      · exact .kept
  | _ => exact result_reduces s _

end HudStore
end PlxNative.Hud
