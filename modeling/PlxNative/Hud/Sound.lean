import PlxNative.Hud.Moves
import PlxNative.Lib.Transducer

/-! What holds of the store whatever it is told: no index names the built-in, and the work in
hand is what the store's own indexes make of it. -/
namespace PlxNative.Hud.HudStore
open List
open Transducer (run run_invariant)

/-- The package would take the place of the installed one, if there is one. -/
structure Supersedes (s : HudStore) (sha : Sha) (metadata : Meta) : Prop where
  reads : (Semver.parse metadata.version).isSome = true
  above : ∀ w, s.winners.lookup metadata.id = some w → w.record.sha ≠ sha ∧ w.release < metadata.release

section

variable {verdict : Verdict} {metadata : Meta}

theorem described_eq_ok (ok : described verdict = .ok metadata) :
    verdict = .loadable metadata ∧ metadata.id ≠ builtinClassic := by
  cases verdict with
  | loadable m =>
    simp only [described] at ok
    split at ok
    · cases ok
    · rename_i other
      cases ok
      exact ⟨rfl, other⟩
  | unloadable m why =>
    simp only [described] at ok
    split at ok <;> cases ok
  | invalid => cases ok

theorem succeeds_eq_ok {have_ : Option Winner} {sha : Sha} {new : Semver} (ok : succeeds have_ sha new = .ok ()) :
    ∀ w, have_ = some w → w.record.sha ≠ sha ∧ w.release < (new : WithBot Semver) := by
  rintro w rfl
  simp only [succeeds] at ok
  split at ok
  · cases ok
  · rename_i other
    refine ⟨other, ?_⟩
    unfold Winner.release Meta.release
    split at ok
    · rename_i old parsed
      split at ok
      · cases ok
      · rename_i above
        rw [parsed]
        exact WithBot.coe_lt_coe.mpr (not_le.mp above)
    · rename_i unparsed
      rw [unparsed]
      exact WithBot.bot_lt_coe new

/-- A verdict that passes describes a loadable package that is not the built-in and is above
the installed one. -/
theorem judge_eq_ok {s : HudStore} {sha : Sha} (ok : s.judge sha verdict = .ok metadata) :
    verdict = .loadable metadata ∧ metadata.id ≠ builtinClassic ∧ s.Supersedes sha metadata := by
  unfold judge at ok
  split at ok
  · cases ok
  · cases told : described verdict with
    | error reason =>
      rw [told] at ok
      cases ok
    | ok m =>
      rw [told] at ok
      obtain ⟨rfl, other⟩ := described_eq_ok told
      simp only [bind, Except.bind] at ok
      cases parsed : Semver.parse m.version with
      | none =>
        simp only [parsed] at ok
        cases ok
      | some new =>
        simp only [parsed] at ok
        cases passed : succeeds (s.winners.lookup m.id) sha new with
        | error reason =>
          simp only [passed] at ok
          cases ok
        | ok u =>
          simp only [passed] at ok
          cases ok
          refine ⟨rfl, other, by rw [parsed]; rfl, fun w won => ?_⟩
          have above := succeeds_eq_ok passed w won
          unfold Meta.release
          rw [parsed]
          exact above

theorem checked_eq_ok {s : HudStore} {offer : Offer}
    (ok : s.checked offer verdict = .ok metadata) : s.judge offer.sha verdict = .ok metadata := by
  unfold checked at ok
  split at ok
  · cases ok
  · rename_i m judged
    split at ok
    · cases ok
    · cases ok
      exact judged

end

variable [World]

/-- The index a candidate gets, and what it replaces. -/
def WriteSound (s : HudStore) (offer : Offer) (metadata : Meta) (d : Nat) : Write → Prop
  | .pack => True
  | .index index replaced =>
    index = (s.dir d).index.insert metadata.id (newRecord offer metadata) ∧
      replaced = ((s.dir d).index.lookup metadata.id).map Record.sha

/-- Bytes that hash to what they are offered as, of a package that may be installed. -/
structure Installable (s : HudStore) (offer : Offer) (metadata : Meta) : Prop where
  hashed : Sha.of offer.bytes = offer.sha
  other : metadata.id ≠ builtinClassic
  supersedes : s.Supersedes offer.sha metadata

def InHand (s : HudStore) (d : Nat) : Prop := d < s.dirs.length ∧ (s.dir d).access = .writable

def StepSound (s : HudStore) : Step → Prop
  | .reading _ _ | .fetching _ _ => True
  | .validating offer => Sha.of offer.bytes = offer.sha
  | .offered offer metadata => s.Installable offer metadata
  | .writing offer metadata d what => s.Installable offer metadata ∧ s.InHand d ∧ s.WriteSound offer metadata d what

def RewriteSound (s : HudStore) (id : String) (r : Rewrite) : Prop :=
  s.InHand r.dir ∧ r.index = (s.dir r.dir).index.erase id ∧
    ∃ record, (s.dir r.dir).index.lookup id = some record ∧ r.gone = [record.sha]

def OpSound (s : HudStore) : Op → Prop
  | .idle | .listing _ => True
  | .installing installing => s.StepSound installing.step
  | .removing removing =>
    (∀ d ∈ removing.dirs, d < s.dirs.length) ∧ ∀ r, removing.flight = some r → s.RewriteSound removing.id r

/-- One directory for each candidate, none of which names the built-in. -/
structure DirsSound (s : HudStore) : Prop where
  matched : s.dirs.length = s.setup.candidates.length
  spared : ∀ dir ∈ s.dirs, dir.index.lookup builtinClassic = none

structure Sound (s : HudStore) : Prop where
  dirs : s.DirsSound
  op : s.OpSound s.op

section
variable {s t : HudStore} {offer : Offer} {metadata : Meta}

omit [World] in
theorem dir_same (dirs : t.dirs = s.dirs) (d : Nat) : t.dir d = s.dir d := by
  unfold dir
  rw [dirs]

theorem Installable.same (ready : s.Installable offer metadata) (dirs : t.dirs = s.dirs)
    (packs : t.packs = s.packs) : t.Installable offer metadata := by
  obtain ⟨hashed, other, reads, above⟩ := ready
  refine ⟨hashed, other, reads, ?_⟩
  rw [winners_congr dirs packs]
  exact above

omit [World] in
theorem WriteSound.same {d : Nat} {what : Write} (sound : s.WriteSound offer metadata d what) (dirs : t.dirs = s.dirs) :
    t.WriteSound offer metadata d what := by
  cases what with
  | pack => trivial
  | index index replaced =>
    simp only [WriteSound, dir_same dirs]
    exact sound

omit [World] in
theorem InHand.same {d : Nat} (inHand : s.InHand d) (dirs : t.dirs = s.dirs) : t.InHand d := by
  unfold InHand
  rw [dir_same dirs, dirs]
  exact inHand

theorem OpSound.same {o : Op} (sound : s.OpSound o) (dirs : t.dirs = s.dirs) (packs : t.packs = s.packs) :
    t.OpSound o := by
  cases o with
  | idle => trivial
  | listing listing => trivial
  | installing installing =>
    obtain ⟨tag, step⟩ := installing
    cases step with
    | reading sha now => trivial
    | fetching address expected => trivial
    | validating offer => exact sound
    | offered offer metadata => exact Installable.same sound dirs packs
    | writing offer metadata d what => exact ⟨sound.1.same dirs packs, sound.2.1.same dirs, sound.2.2.same dirs⟩
  | removing removing =>
    refine ⟨by rw [dirs]; exact sound.1, fun r flying => ?_⟩
    obtain ⟨inHand, index, gone⟩ := sound.2 r flying
    refine ⟨inHand.same dirs, ?_⟩
    rw [dir_same dirs]
    exact ⟨index, gone⟩

theorem Sound.same (sound : s.Sound) (dirs : t.dirs = s.dirs) (packs : t.packs = s.packs) (setup : t.setup = s.setup)
    (op : t.op = s.op) : t.Sound := by
  refine ⟨⟨?_, ?_⟩, ?_⟩
  · rw [dirs, setup]
    exact sound.dirs.matched
  · rw [dirs]
    exact sound.dirs.spared
  · rw [op]
    exact sound.op.same dirs packs

end

section
variable {s : HudStore} {offer : Offer} {metadata : Meta}

omit [World] in
theorem DirsSound.dir_spared (h : s.DirsSound) (d : Nat) : (s.dir d).index.lookup builtinClassic = none := by
  unfold dir
  rw [List.getD_eq_getElem?_getD]
  cases held : s.dirs[d]? with
  | none => rfl
  | some dir => exact h.spared dir (List.mem_of_getElem? held)

omit [World] in
theorem DirsSound.withDir (h : s.DirsSound) (d : Nat) {dir : Dir} (spared : dir.index.lookup builtinClassic = none) :
    (s.withDir d dir).DirsSound := by
  constructor
  · exact length_set.trans h.matched
  · intro other mem
    rcases mem_or_eq_of_mem_set mem with old | new
    · exact h.spared other old
    · rw [new]
      exact spared

omit [World] in
theorem DirsSound.withIndex (h : s.DirsSound) (d : Nat) {index : Index} (spared : index.lookup builtinClassic = none) :
    (s.withIndex d index).DirsSound := h.withDir d spared

omit [World] in
theorem dir_withDir (s : HudStore) (d : Nat) (dir : Dir) (e : Nat) :
    (s.withDir d dir).dir e = if d = e ∧ d < s.dirs.length then dir else s.dir e := by
  unfold HudStore.dir HudStore.withDir
  by_cases eq : d = e
  · subst eq
    by_cases inside : d < s.dirs.length
    · simp [inside]
    · simp [inside]
  · simp [eq]

omit [World] in
theorem writableFrom_inHand {d e : Nat} (found : s.writableFrom d = some e) : s.InHand e ∧ d ≤ e := by
  have mem := mem_range.mp (List.mem_of_find?_eq_some found)
  have passes := List.find?_some found
  simp only [Bool.and_eq_true, decide_eq_true_eq] at passes
  exact ⟨⟨mem, passes.2⟩, passes.1⟩

omit [World] in
theorem DirsSound.ended (h : s.DirsSound) (notice : Notice) : (s.ended notice).1.DirsSound := ⟨h.matched, h.spared⟩

end

section
variable {s : HudStore} {offer : Offer} {metadata : Meta}

section
variable (h : s.DirsSound)
include h

theorem ended_sound (notice : Notice) : (s.ended notice).1.Sound := ⟨h.ended notice, trivial⟩

theorem validate_sound (hashed : Sha.of offer.bytes = offer.sha) : (s.validate offer).1.Sound :=
  ⟨⟨h.matched, h.spared⟩, hashed⟩

theorem writePack_sound (ready : s.Installable offer metadata) (d : Nat) :
    (s.writePack offer metadata d).1.Sound := by
  unfold writePack
  split
  · exact ended_sound h _
  · rename_i e found
    exact ⟨⟨h.matched, h.spared⟩, ready.same rfl rfl, (writableFrom_inHand found).1, trivial⟩

theorem writeIndex_sound (ready : s.Installable offer metadata) {d : Nat} (inHand : s.InHand d) :
    (s.writeIndex offer metadata d).1.Sound :=
  ⟨⟨h.matched, h.spared⟩, ready.same rfl rfl, inHand, rfl, rfl⟩

omit [World] in
theorem insert_spared (other : metadata.id ≠ builtinClassic) (d : Nat) (record : Record) :
    ((s.dir d).index.insert metadata.id record).lookup builtinClassic = none := by
  rw [SortedMap.lookup_insert, if_neg (Ne.symm other)]
  exact h.dir_spared d

theorem landed_sound (ready : s.Installable offer metadata) {d : Nat} {index : Index}
    {replaced : Option Sha} (sound : s.WriteSound offer metadata d (.index index replaced)) :
    (s.landed offer metadata d index).DirsSound := by
  have spared : index.lookup builtinClassic = none := by
    rw [sound.1]
    exact insert_spared h ready.other d _
  have moved := h.withIndex d spared
  exact ⟨moved.matched, moved.spared⟩

end

theorem checked_installable {verdict : Verdict} (hashed : Sha.of offer.bytes = offer.sha)
    (ok : s.checked offer verdict = .ok metadata) : s.Installable offer metadata := by
  obtain ⟨-, other, supersedes⟩ := judge_eq_ok (checked_eq_ok ok)
  exact ⟨hashed, other, supersedes⟩

theorem Proceeds.sound {step : Step} {tag : Tag} {ev : HudEvent} {stepped : Stepped} (proceeds : s.Proceeds tag step ev stepped)
    (h : s.DirsSound) (sound : s.StepSound step) : stepped.1.Sound := by
  cases proceeds with
  | refused free sha reason => exact ended_sound h _
  | failed free reason => exact ended_sound h _
  | reread given bytes => exact validate_sound h rfl
  | fetched given bytes => exact validate_sound h rfl
  | offered given ok unconfirmed => exact ⟨⟨h.matched, h.spared⟩, (checked_installable sound ok).same rfl rfl⟩
  | begun given ok confirmed => exact writePack_sound h (checked_installable sound ok) 0
  | packDone given => exact writeIndex_sound h sound.1 sound.2.1
  | packRefused given => exact writePack_sound h sound.1 _
  | indexDone given => exact ⟨landed_sound h sound.1 sound.2.2, trivial⟩
  | indexRefused given => exact writePack_sound h sound.1 _

end

section
variable {s : HudStore}

theorem issue_sound (h : s.DirsSound) (stray : List (PathBuf × Sha)) (job : Job) (rest : List Job) :
    (s.issue stray job rest).1.Sound := ⟨⟨h.matched, h.spared⟩, trivial⟩

theorem advance_sound (h : s.DirsSound) (stray : List (PathBuf × Sha)) (todo : List Job) :
    (s.advance stray todo).1.Sound := by
  induction todo generalizing s stray with
  | nil => exact ⟨⟨h.matched, h.spared⟩, trivial⟩
  | cons job rest ih =>
    cases job with
    | plan =>
      simp only [advance]
      split
      · exact ih (s := s.drawn) ⟨h.matched, h.spared⟩ []
      · exact issue_sound (s := s.drawn) ⟨h.matched, h.spared⟩ _ _ _
    | index d => exact issue_sound h _ _ _
    | pack sha d others => exact issue_sound h _ _ _
    | scan d => exact issue_sound h _ _ _
    | drop d name => exact issue_sound h _ _ _

theorem indexRead_spared (result : Except ReadError Bytes) : (indexRead result).index.lookup builtinClassic = none := by
  unfold indexRead
  split
  · exact parseIndex_builtin _
  all_goals rfl

theorem Known.sound {t : HudStore} (known : s.Known t) (h : s.DirsSound) : t.DirsSound := by
  cases known with
  | same => exact h
  | read d result => exact h.withDir _ (indexRead_spared _)
  | admitted sha d verdict => cases verdict <;> exact ⟨h.matched, h.spared⟩
  | dropped file => exact ⟨h.matched, h.spared⟩

theorem listingAnswer_sound (h : s.DirsSound) {listing : Listing} {job : Job} {stage : Stage} {ev : HudEvent}
    {stepped : Stepped} (answered : s.listingAnswer listing job stage ev = some stepped) : stepped.1.Sound :=
  listingAnswer_rule (P := fun stepped => stepped.1.Sound) (fun known todo => advance_sound (known.sound h) _ todo)
    (fun _ _ _ => ⟨⟨h.matched, h.spared⟩, trivial⟩) answered

omit [World] in
theorem forgotten_sound (s : HudStore) (setup : Setup) (selected : String) : (s.forgotten setup selected).DirsSound := by
  constructor
  · exact length_replicate
  · intro dir mem
    rw [eq_of_mem_replicate mem]
    rfl

theorem beginListing_sound (s : HudStore) (setup : Setup) (selected : String) : (s.beginListing setup selected).1.Sound :=
  advance_sound (forgotten_sound s setup selected) _ _

end

section
variable {s : HudStore}

theorem finishRemoval_sound (h : s.DirsSound) (id : String) (incomplete : Bool) :
    (s.finishRemoval id incomplete).1.Sound := by
  unfold finishRemoval
  simp only
  split <;> exact ⟨⟨h.matched, h.spared⟩, trivial⟩

theorem advanceRemoval_sound (h : s.DirsSound) (id : String) (incomplete : Bool) {dirs : List Nat}
    (inside : ∀ d ∈ dirs, d < s.dirs.length) : (s.advanceRemoval id incomplete dirs).1.Sound := by
  induction dirs generalizing incomplete with
  | nil => exact finishRemoval_sound h id incomplete
  | cons d rest ih =>
    have later : ∀ e ∈ rest, e < s.dirs.length := fun e mem => inside e (mem_cons_of_mem _ mem)
    simp only [advanceRemoval]
    split
    · exact ih true later
    · rename_i writable
      split
      · exact ih incomplete later
      · rename_i record held
        refine ⟨⟨h.matched, h.spared⟩, later, ?_⟩
        rintro r ⟨⟩
        have access : (s.dir d).access = .writable := by
          cases known : (s.dir d).access with
          | writable => rfl
          | readOnly => exact absurd known writable
        exact ⟨⟨inside d mem_cons_self, access⟩, rfl, record, held, rfl⟩

omit [World] in
theorem erase_spared (h : s.DirsSound) (id : String) (d : Nat) :
    ((s.dir d).index.erase id).lookup builtinClassic = none := by
  rw [SortedMap.lookup_erase, h.dir_spared d]
  split <;> rfl

theorem rewritten_sound (h : s.DirsSound) {removing : Removing} {r : Rewrite}
    (inside : ∀ d ∈ removing.dirs, d < s.dirs.length) (sound : s.RewriteSound removing.id r) (outcome : WriteOutcome) :
    (s.rewritten removing r outcome).1.Sound := by
  cases outcome with
  | refused => exact advanceRemoval_sound h _ _ inside
  | done =>
    have spared : r.index.lookup builtinClassic = none := by
      rw [sound.2.1]
      exact erase_spared h _ _
    refine advanceRemoval_sound (h.withIndex r.dir spared) _ _ ?_
    intro d mem
    exact (inside d mem).trans_eq length_set.symm

omit [World] in
theorem holders_inside (id : String) : ∀ d ∈ s.holders id, d < s.dirs.length :=
  fun _ mem => mem_range.mp (mem_filter.mp mem).1

end

section
variable {s : HudStore}

theorem Reduces.sound {ev : HudEvent} {turn : Turn} (reduces : s.Reduces ev turn) (h : s.Sound) : turn.store.Sound := by
  have free : DirsSound { s with op := .idle } := ⟨h.dirs.matched, h.dirs.spared⟩
  have own : OpSound { s with op := .idle } s.op := h.op.same rfl rfl
  cases reduces with
  | kept => exact h
  | catalog event => exact h.same rfl rfl rfl rfl
  | refreshed setup selected => exact beginListing_sound s setup selected
  | selected id => exact h.same rfl rfl rfl rfl
  | tooLarge idle bytes source now => exact h
  | begun idle begins =>
    cases begins with
    | install bytes source now => exact ⟨⟨h.dirs.matched, h.dirs.spared⟩, rfl⟩
    | _ => exact ⟨⟨h.dirs.matched, h.dirs.spared⟩, trivial⟩
  | abandoned held inert => exact ⟨free, trivial⟩
  | @revoked tag offer metadata held now => exact ended_sound h.dirs (.refused offer.sha (.unloadable .revoked))
  | @confirmed tag offer metadata held now =>
    rw [held] at own
    have ready : Installable { s with op := .idle } offer metadata := own
    have confirmed : Installable { s with op := .idle } { offer with now := some now } metadata :=
      ⟨ready.hashed, ready.other, ready.supersedes⟩
    exact writePack_sound free confirmed 0
  | removed idle id => exact advanceRemoval_sound h.dirs id false (holders_inside id)
  | listed held flying tagged answered => exact listingAnswer_sound free answered
  | installed held tagged proceeds =>
    rw [held] at own
    exact proceeds.sound free own
  | rewrote held outcome =>
    rw [held] at own
    exact rewritten_sound free own.1 (own.2 _ rfl) outcome

theorem reduce_sound (h : s.Sound) (ev : HudEvent) : (s.reduce ev).store.Sound := (reduce_reduces s ev).sound h

theorem settle_sound {turn : Turn} (h : turn.store.Sound) : (settle turn).store.Sound := by
  unfold settle
  split
  · exact h.same rfl rfl rfl rfl
  · exact h

theorem step_sound (h : s.Sound) (ev : HudEvent) : (s.step ev).store.Sound := settle_sound (reduce_sound h ev)

theorem new_sound : new.Sound := ⟨⟨rfl, nofun⟩, trivial⟩

theorem run_sound (events : List HudEvent) : (run turn new events).Sound :=
  run_invariant turn (P := Sound) (fun _ ev h => step_sound h ev) new_sound events

omit [World] in
theorem settle_settled {turn : Turn} (h : turn.store.DirsSound) : (settle turn).store.selectionRevoked = false := by
  unfold settle
  split
  · have none_ : (winners { turn.store with selected := builtinClassic }).lookup builtinClassic = none :=
      unlisted h.spared
    unfold selectionRevoked
    rw [none_]
    rfl
  · rename_i kept
    exact Bool.eq_false_iff.mpr kept

end

end PlxNative.Hud.HudStore
