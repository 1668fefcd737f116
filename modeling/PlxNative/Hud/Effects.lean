import PlxNative.Hud.Requests

/-! The effects of one event, in order: what is taken away or told first, and at most one
request behind it, which the work in hand then awaits. -/
namespace PlxNative.Hud
open List

/-- The step of an install, where one is in hand. -/
def Op.step? : Op → Option Step
  | .installing work => some work.step
  | _ => none

namespace HudStore
variable [World]

/-- The file the work in hand has asked to be written. -/
def pendingWrite (s : HudStore) : Option (Loc × Bytes) :=
  match s.op with
  | .installing ⟨_, .writing offer _ d .pack⟩ => some (s.loc d (packRel offer.sha), offer.bytes)
  | .installing ⟨_, .writing _ _ d (.index index _)⟩ => some (s.loc d indexFile, indexBytes index)
  | .removing ⟨_, _, _, some r⟩ => some (s.loc r.dir indexFile, indexBytes r.index)
  | _ => none

omit [World] in
/-- The candidate whose index a listing waits for. -/
def readingIndex (s : HudStore) : Option Nat :=
  match s.op with
  | .listing ⟨_, some ⟨_, .index d, .io⟩, _⟩ => some d
  | _ => none

omit [World] in
/-- What comes before a request: a pack goes only from a candidate whose index may be
rewritten and names it nowhere, and a notice is one that may be given. -/
def Takes (notices : Notice → Prop) (t : HudStore) : HudEffect → Prop
  | .delete at_ => ∃ d sha, at_ = t.loc d (packRel sha) ∧ t.InHand d ∧ ¬ Index.Names (t.dir d).index sha
  | .notice n => notices n
  | .selection _ | .catalog _ => True
  | _ => False

def Tail (t : HudStore) : List HudEffect → Prop
  | [] => True
  | [.writeFile _ at_ bytes] => t.pendingWrite = some (at_, bytes)
  | [.readFile _ at_ _] => ∀ d, t.readingIndex = some d → at_ = t.loc d indexFile
  | [.scanDir _ _] | [.validate _ _ _] | [.fetch _ _ _] | [.fetchRegistry _ _ _] => t.readingIndex = none
  | _ => False

def Acts (notices : HudStore → Notice → Prop) (stepped : Stepped) : Prop :=
  ∃ takes tail, stepped.2 = takes ++ tail ∧ (∀ e ∈ takes, Takes (notices stepped.1) stepped.1 e) ∧ Tail stepped.1 tail

section
variable {s : HudStore} {notices more : HudStore → Notice → Prop}

variable {t : HudStore}

omit [World] in
theorem Takes.weaken {fewer wider : Notice → Prop} {e : HudEffect} (takes : Takes fewer t e)
    (le : ∀ n, fewer n → wider n) : Takes wider t e := by
  cases e with
  | notice n => exact le n takes
  | _ => exact takes

variable {stepped : Stepped}

theorem Acts.weaken (acts : Acts notices stepped) (le : ∀ n, notices stepped.1 n → more stepped.1 n) :
    Acts more stepped := by
  obtain ⟨takes, tail, whole, all, asked⟩ := acts
  exact ⟨takes, tail, whole, fun e mem => (all e mem).weaken le, asked⟩

variable {fx : List HudEffect}

theorem acts_tail (tail : Tail t fx) : Acts notices (t, fx) :=
  ⟨[], fx, rfl, nofun, tail⟩

theorem acts_quiet (takes : ∀ e ∈ fx, Takes (notices t) t e) : Acts notices (t, fx) :=
  ⟨fx, [], (append_nil fx).symm, takes, trivial⟩

theorem Acts.after (acts : Acts notices stepped) {before : List HudEffect}
    (takes : ∀ e ∈ before, Takes (notices stepped.1) stepped.1 e) : Acts notices (stepped.1, before ++ stepped.2) := by
  obtain ⟨later, tail, whole, all, asked⟩ := acts
  refine ⟨before ++ later, tail, by rw [whole, append_assoc], ?_, asked⟩
  intro e mem
  rcases mem_append.mp mem with old | new_
  · exact takes e old
  · exact all e new_

variable {told : Notice → Prop}

omit [World] in
theorem Takes.same {t u : HudStore} {e : HudEffect} (takes : Takes told t e)
    (dirs : u.dirs = t.dirs) (setup : u.setup = t.setup) : Takes told u e := by
  cases e with
  | delete at_ =>
    obtain ⟨d, sha, place, inHand, unnamed⟩ := takes
    refine ⟨d, sha, ?_, inHand.same dirs, ?_⟩
    · rw [place]
      unfold loc rootOf
      rw [setup]
    · rw [dir_same dirs]
      exact unnamed
  | _ => exact takes

omit [World] in
theorem discard_takes {d : Nat} (inHand : t.InHand d) (sha : Sha) :
    ∀ e ∈ t.discard d sha, Takes told t e := by
  intro e mem
  unfold discard at mem
  split at mem
  · cases mem
  · rename_i free
    rw [mem_singleton.mp mem]
    exact ⟨d, sha, rfl, inHand, fun named => free (Index.names_iff.mpr named)⟩

omit [World] in
theorem one_notice (t : HudStore) {n : Notice} (may : told n) :
    ∀ e ∈ [HudEffect.notice n], Takes told t e := by
  intro e mem
  rw [mem_singleton.mp mem]
  exact may

theorem ended_acts {notice : Notice} (may : notices (s.ended notice).1 notice) : Acts notices (s.ended notice) :=
  acts_quiet (one_notice _ may)

theorem validate_acts (s : HudStore) (offer : Offer) : Acts notices (s.validate offer) := acts_tail rfl

theorem writeIndex_acts (s : HudStore) (offer : Offer) (metadata : Meta) (d : Nat) :
    Acts notices (s.writeIndex offer metadata d) := acts_tail rfl

end

section
variable {s : HudStore}

omit [World] in
/-- The package stands for its id now, and is above the one that stood for it before. -/
def Upgraded (s t : HudStore) (id version : String) (sha : Sha) : Prop :=
  ∃ w, t.winners.lookup id = some w ∧ w.record.sha = sha ∧ w.loaded.metadata.version = version ∧
    (Semver.parse version).isSome = true ∧ ∀ old, s.winners.lookup id = some old → old.release < w.release

omit [World] in
/-- What an install may say as it moves on. -/
def InstallSays (s t : HudStore) : Notice → Prop
  | .installed id version sha _ => s.Upgraded t id version sha
  | .refused _ _ | .notWritten _ => t.dirs = s.dirs ∧ t.packs = s.packs
  | .fetchFailed _ => True
  | .removed _ | .removeIncomplete _ => False

omit [World] in
theorem writePack_same (s : HudStore) (offer : Offer) (metadata : Meta) (d : Nat) :
    (s.writePack offer metadata d).1.dirs = s.dirs ∧ (s.writePack offer metadata d).1.packs = s.packs ∧
      (s.writePack offer metadata d).1.setup = s.setup := by
  unfold writePack
  split <;> exact ⟨rfl, rfl, rfl⟩

theorem refused_acts (s : HudStore) (sha : Sha) (reason : Refusal) :
    Acts (InstallSays s) (s.ended (.refused sha reason)) := ended_acts ⟨rfl, rfl⟩

theorem writePack_acts (s : HudStore) (offer : Offer) (metadata : Meta) (d : Nat) :
    Acts (InstallSays s) (s.writePack offer metadata d) := by
  unfold writePack
  split
  · exact ended_acts ⟨rfl, rfl⟩
  · exact acts_tail rfl

variable {d : Nat}

omit [World] in
theorem withIndex_inHand (inHand : s.InHand d) (index : Index) : (s.withIndex d index).InHand d := by
  refine ⟨inHand.1.trans_eq length_set.symm, ?_⟩
  unfold withIndex
  rw [dir_withDir, if_pos ⟨rfl, inHand.1⟩]
  exact inHand.2

variable {offer : Offer} {metadata : Meta} {index : Index} {replaced : Option Sha}

theorem landed_upgraded (ready : s.Installable offer metadata) (inHand : s.InHand d)
    (sound : s.WriteSound offer metadata d (.index index replaced)) :
    s.Upgraded (s.landed offer metadata d index) metadata.id metadata.version offer.sha := by
  have packs : ∀ sha, (s.landed offer metadata d index).packs.lookup sha =
      if sha = offer.sha then some ⟨metadata, .ok (), s.volatile d⟩ else s.packs.lookup sha :=
    fun sha => (SortedMap.lookup_insert _ _ _ _).trans (by congr)
  have record : index.lookup metadata.id = some (newRecord offer metadata) := by
    rw [sound.1, SortedMap.lookup_insert_self]
  have own : Winner.mk (newRecord offer metadata) ⟨metadata, .ok (), s.volatile d⟩ ∈
      (s.landed offer metadata d index).contenders metadata.id := by
    refine mem_contenders.mpr ⟨{ s.dir d with index := index }, mem_set inHand.1 _, record, ?_⟩
    exact installed_eq_some.mpr ⟨rfl, by rw [packs]; exact if_pos rfl, rfl, rfl, rfl⟩
  cases won : (s.landed offer metadata d index).winners.lookup metadata.id with
  | none =>
    rw [no_winner won] at own
    exact absurd own not_mem_nil
  | some w =>
    have above : metadata.release ≤ w.release := winner_greatest won own
    obtain ⟨dir, mem, held, loaded⟩ := mem_contenders.mp (winner_contends won)
    have stands : w.record.sha = offer.sha := by
      by_contra other
      -- a record of another package was in the running before, and lost to the new version
      have before : w ∈ s.contenders metadata.id := by
        rcases mem_or_eq_of_mem_set mem with old | new_
        · obtain ⟨-, known, rest⟩ := installed_eq_some.mp loaded
          rw [packs, if_neg other] at known
          exact mem_contenders.mpr ⟨dir, old, held, installed_eq_some.mpr ⟨rfl, known, rest⟩⟩
        · rw [new_] at held
          exact absurd (congrArg Record.sha (Option.some.inj (record.symm.trans held))).symm other
      cases stood : s.winners.lookup metadata.id with
      | none =>
        rw [no_winner stood] at before
        exact absurd before not_mem_nil
      | some old =>
        have lower := winner_greatest stood before
        exact absurd (above.trans lower) (not_le.mpr (ready.supersedes.above old stood).2)
    obtain ⟨-, known, -⟩ := installed_eq_some.mp loaded
    rw [packs, if_pos stands] at known
    have told : w.loaded.metadata = metadata := congrArg Loaded.metadata (Option.some.inj known).symm
    refine ⟨w, won, stands, by rw [told], ready.supersedes.reads, fun old stood => ?_⟩
    exact (ready.supersedes.above old stood).2.trans_le above

theorem indexWritten_acts (ready : s.Installable offer metadata) (inHand : s.InHand d)
    (sound : s.WriteSound offer metadata d (.index index replaced)) :
    Acts (InstallSays s) (s.indexWritten offer metadata d index replaced) := by
  have landed : (s.landed offer metadata d index).InHand d := (withIndex_inHand inHand index).same rfl
  refine acts_quiet (fun e mem => ?_)
  rcases mem_append.mp mem with taken | told
  · unfold discardReplaced at taken
    split at taken
    · split at taken
      · cases taken
      · exact discard_takes landed _ e taken
    · cases taken
  · exact one_notice _ (landed_upgraded ready inHand sound) e told

theorem indexRefused_acts (inHand : s.InHand d) (offer : Offer) (metadata : Meta) :
    Acts (InstallSays s) (s.indexRefused offer metadata d) := by
  obtain ⟨dirs, -, setup⟩ := writePack_same s offer metadata (d + 1)
  exact (writePack_acts s offer metadata (d + 1)).after
    (fun e mem => (discard_takes inHand offer.sha e mem).same dirs setup)

theorem Proceeds.acts {step : Step} {tag : Tag} {ev : HudEvent} {stepped : Stepped} (proceeds : s.Proceeds tag step ev stepped)
    (sound : s.StepSound step) : Acts (InstallSays s) stepped := by
  cases proceeds with
  | refused free sha reason => exact refused_acts s _ _
  | failed free reason => exact ended_acts trivial
  | reread given bytes => exact validate_acts s _
  | fetched given bytes => exact validate_acts s _
  | offered given ok unconfirmed => exact acts_tail trivial
  | begun given ok confirmed => exact writePack_acts s _ _ _
  | packDone given => exact writeIndex_acts s _ _ _
  | packRefused given => exact writePack_acts s _ _ _
  | indexDone given => exact indexWritten_acts sound.1 sound.2.1 sound.2.2
  | indexRefused given => exact indexRefused_acts sound.2.1 _ _

end

section
variable {s : HudStore} {notices : HudStore → Notice → Prop}

theorem issue_acts (s : HudStore) (stray : List (PathBuf × Sha)) (job : Job) (rest : List Job) :
    Acts notices (s.issue stray job rest) := by
  refine acts_tail ?_
  cases job with
  | plan => trivial
  | index d =>
    intro e reads
    cases reads
    rfl
  | pack sha d others => exact nofun
  | scan d => rfl
  | drop d name => exact nofun

omit [World] in
theorem reclaim_takes (h : s.DirsSound) (told : Notice → Prop) (stray : List (PathBuf × Sha)) :
    ∀ e ∈ s.reclaim stray, Takes told s e := by
  intro e mem
  obtain ⟨left, -, taken⟩ := mem_flatMap.mp mem
  unfold discardStray at taken
  split at taken
  · rename_i d found
    split at taken
    · rename_i access
      have inside : d < s.setup.candidates.length := (List.findIdx?_eq_some_iff_findIdx_eq.mp found).1
      exact discard_takes ⟨inside.trans_eq h.matched.symm, access⟩ _ e taken
    · cases taken
  · cases taken

omit [World] in
theorem advance_same (s : HudStore) (stray : List (PathBuf × Sha)) (todo : List Job) :
    (s.advance stray todo).1.dirs = s.dirs ∧ (s.advance stray todo).1.packs = s.packs ∧
      (s.advance stray todo).1.setup = s.setup := by
  induction todo generalizing s stray with
  | nil => exact ⟨rfl, rfl, rfl⟩
  | cons job rest ih =>
    cases job with
    | plan =>
      simp only [advance]
      split
      · exact ih s.drawn []
      · exact ⟨rfl, rfl, rfl⟩
    | _ => exact ⟨rfl, rfl, rfl⟩

theorem advance_acts (h : s.DirsSound) (stray : List (PathBuf × Sha)) (todo : List Job) : Acts notices (s.advance stray todo) := by
  induction todo generalizing s stray with
  | nil => exact acts_tail trivial
  | cons job rest ih =>
    cases job with
    | plan =>
      simp only [advance]
      split
      · obtain ⟨dirs, -, setup⟩ := advance_same s.drawn [] rest
        exact (ih (s := s.drawn) ⟨h.matched, h.spared⟩ []).after
          (fun e mem => (reclaim_takes h _ stray e mem).same dirs setup)
      · exact (issue_acts s.drawn [] _ _).after (fun e mem => (reclaim_takes h _ stray e mem).same rfl rfl)
    | _ => exact issue_acts s _ _ _

theorem listingAnswer_acts (h : s.DirsSound) {listing : Listing} {job : Job} {stage : Stage} {ev : HudEvent}
    {stepped : Stepped} (answered : s.listingAnswer listing job stage ev = some stepped) : Acts notices stepped :=
  listingAnswer_rule (fun known todo => advance_acts (known.sound h) _ todo)
    (fun _ sha bytes => acts_tail (show readingIndex (s.inspect listing job sha bytes).1 = none by cases job <;> rfl)) answered

omit [World] in
/-- What a refresh says of the work it displaces. -/
def RefreshSays (_ : HudStore) : Notice → Prop
  | .notWritten _ | .removeIncomplete _ => True
  | _ => False

theorem beginListing_acts (s : HudStore) (setup : Setup) (selected : String) :
    Acts RefreshSays (s.beginListing setup selected) := by
  refine (advance_acts (forgotten_sound s setup selected) _ _).after (fun e mem => ?_)
  unfold displaced at mem
  split at mem
  · cases mem
  · cases mem
  · exact one_notice _ trivial e mem
  · exact one_notice _ trivial e mem

end

section
variable {s : HudStore}

omit [World] in
def RemovalSays (_ : HudStore) : Notice → Prop
  | .removed _ | .removeIncomplete _ => True
  | _ => False

theorem finishRemoval_acts (s : HudStore) (id : String) (incomplete : Bool) :
    Acts RemovalSays (s.finishRemoval id incomplete) := by
  have may : ∀ (t : HudStore) (listed : Bool),
      RemovalSays t (if incomplete || listed then .removeIncomplete id else .removed id) := by
    intro t listed
    split <;> trivial
  unfold finishRemoval
  simp only
  split
  · refine acts_quiet (fun e mem => ?_)
    rcases mem_cons.mp mem with rfl | told
    · trivial
    · exact one_notice _ (may _ _) e told
  · exact acts_quiet (one_notice _ (may _ _))

theorem advanceRemoval_acts (s : HudStore) (id : String) (incomplete : Bool) (dirs : List Nat) :
    Acts RemovalSays (s.advanceRemoval id incomplete dirs) :=
  advanceRemoval_rule incomplete (finishRemoval_acts s id) (fun _ _ _ _ => acts_tail rfl)

theorem advanceRemoval_same (s : HudStore) (id : String) (incomplete : Bool) (dirs : List Nat) :
    (s.advanceRemoval id incomplete dirs).1.dirs = s.dirs ∧ (s.advanceRemoval id incomplete dirs).1.setup = s.setup := by
  refine advanceRemoval_rule (P := fun stepped => stepped.1.dirs = s.dirs ∧ stepped.1.setup = s.setup) incomplete
    (fun _ => ?_) (fun _ _ _ _ => ⟨rfl, rfl⟩)
  simp only [finishRemoval]
  split <;> exact ⟨rfl, rfl⟩

theorem rewritten_acts (removing : Removing) {r : Rewrite} (inHand : s.InHand r.dir) (outcome : WriteOutcome) :
    Acts RemovalSays (s.rewritten removing r outcome) := by
  cases outcome with
  | refused => exact advanceRemoval_acts s _ _ _
  | done =>
    obtain ⟨dirs, setup⟩ := advanceRemoval_same (s.withIndex r.dir r.index) removing.id removing.incomplete removing.dirs
    refine (advanceRemoval_acts (s.withIndex r.dir r.index) _ _ _).after (fun e mem => ?_)
    obtain ⟨sha, -, taken⟩ := mem_flatMap.mp mem
    exact (discard_takes (withIndex_inHand inHand r.index) sha e taken).same dirs setup

end

section
variable {s : HudStore}

omit [World] in
def Says (s : HudStore) (ev : HudEvent) (t : HudStore) : Notice → Prop
  | .installed id version sha _ => s.Upgraded t id version sha
  | .refused _ _ | .notWritten _ =>
    (∃ setup selected, ev = .refresh setup selected) ∨
      (t.dirs = s.dirs ∧ t.packs = s.packs ∧
        (s.op.step?.isSome = true ∨ s.op = .idle ∧ ∃ bytes source now, ev = .install bytes source now))
  | .fetchFailed _ | .removed _ | .removeIncomplete _ => True

variable {ev : HudEvent}

variable {t : HudStore}

omit [World] in
theorem says_install (held : s.op.step?.isSome = true) (n : Notice)
    (may : InstallSays { s with op := .idle } t n) : s.Says ev t n := by
  cases n with
  | installed id version sha restart => exact may
  | refused sha reason => exact .inr ⟨may.1, may.2, .inl held⟩
  | notWritten sha => exact .inr ⟨may.1, may.2, .inl held⟩
  | _ => trivial

omit [World] in
theorem says_removal (n : Notice) (may : RemovalSays t n) : s.Says ev t n := by
  cases n <;> trivial

variable {n : Notice}

omit [World] in
theorem Says.same {u : HudStore} (may : s.Says ev t n) (dirs : u.dirs = t.dirs)
    (packs : u.packs = t.packs) : s.Says ev u n := by
  have kept : u.dirs = s.dirs ↔ t.dirs = s.dirs := by rw [dirs]
  have held : u.packs = s.packs ↔ t.packs = s.packs := by rw [packs]
  cases n with
  | installed id version sha restart =>
    show s.Upgraded u id version sha
    unfold Upgraded
    rw [winners_congr dirs packs]
    exact may
  | refused sha reason =>
    simp only [Says, kept, held]
    exact may
  | notWritten sha =>
    simp only [Says, kept, held]
    exact may
  | _ => trivial

theorem Reduces.acts {turn : Turn} (reduces : s.Reduces ev turn) (h : s.Sound) :
    Acts (s.Says ev) (turn.store, turn.fx) := by
  have free : DirsSound { s with op := .idle } := ⟨h.dirs.matched, h.dirs.spared⟩
  have own : OpSound { s with op := .idle } s.op := h.op.same rfl rfl
  cases reduces with
  | kept => exact acts_tail trivial
  | catalog event =>
    refine acts_quiet (fun e mem => ?_)
    obtain ⟨inner, -, rfl⟩ := mem_map.mp mem
    trivial
  | refreshed setup selected =>
    refine (beginListing_acts s setup selected).weaken (fun n may => ?_)
    cases n with
    | notWritten sha => exact .inl ⟨setup, selected, rfl⟩
    | removeIncomplete id => trivial
    | _ => exact absurd may not_false
  | selected id =>
    refine acts_quiet (fun e mem => ?_)
    rw [mem_singleton.mp mem]
    trivial
  | tooLarge idle bytes source now =>
    exact acts_quiet (one_notice _ (.inr ⟨rfl, rfl, .inr ⟨idle, bytes, source, now, rfl⟩⟩))
  | begun idle begins =>
    cases begins with
    | drop sha now d name => exact acts_tail nofun
    | _ => exact acts_tail rfl
  | abandoned held inert => exact acts_tail trivial
  | revoked held now => exact (refused_acts s _ (.unloadable .revoked)).weaken (says_install (by rw [held]; rfl))
  | confirmed held now => exact (writePack_acts _ _ _ _).weaken (says_install (by rw [held]; rfl))
  | removed idle id => exact (advanceRemoval_acts s _ _ _).weaken says_removal
  | listed held flying tagged answered => exact listingAnswer_acts free answered
  | installed held tagged proceeds =>
    rw [held] at own
    exact (proceeds.acts own).weaken (says_install (by rw [held]; rfl))
  | rewrote held outcome =>
    rw [held] at own
    exact (rewritten_acts _ (own.2 _ rfl).1 outcome).weaken says_removal

theorem reduce_acts (h : s.Sound) (ev : HudEvent) : Acts (s.Says ev) ((s.reduce ev).store, (s.reduce ev).fx) :=
  (reduce_reduces s ev).acts h

omit [World] in
theorem settle_same (turn : Turn) : (settle turn).store.dirs = turn.store.dirs ∧
    (settle turn).store.packs = turn.store.packs ∧ (settle turn).store.setup = turn.store.setup := by
  unfold settle
  split <;> exact ⟨rfl, rfl, rfl⟩

omit [World] in
theorem settle_fx (turn : Turn) : ∃ rule, (settle turn).fx = turn.fx ++ rule ∧
    ∀ e ∈ rule, e = HudEffect.selection builtinClassic := by
  unfold settle
  split
  · exact ⟨_, rfl, fun e mem => mem_singleton.mp mem⟩
  · exact ⟨[], (append_nil _).symm, nofun⟩

/-- The step lemma: what an event takes away, then at most one request, then what the rule
after every event says. -/
theorem turn_acts (h : s.Sound) (ev : HudEvent) : ∃ takes tail rule, (s.turn ev).2.2 = takes ++ tail ++ rule ∧
    (∀ e ∈ takes, Takes (s.Says ev (s.turn ev).1) (s.turn ev).1 e) ∧ Tail (s.turn ev).1 tail ∧
    ∀ e ∈ rule, e = HudEffect.selection builtinClassic := by
  obtain ⟨takes, tail, whole, all, asked⟩ := reduce_acts h ev
  obtain ⟨rule, more, told⟩ := settle_fx (s.reduce ev)
  obtain ⟨dirs, packs, setup⟩ := settle_same (s.reduce ev)
  have op := (settle_op (s.reduce ev)).1
  refine ⟨takes, tail, rule, ?_, fun e mem => ?_, ?_, told⟩
  · exact more.trans (by rw [show (s.reduce ev).fx = takes ++ tail from whole])
  · exact ((all e mem).weaken (fun n may => Says.same (u := (s.turn ev).1) may dirs packs)).same dirs setup
  · have loc : ∀ d rel, (s.turn ev).1.loc d rel = (s.reduce ev).store.loc d rel := by
      intro d rel
      show Loc.mk _ _ = Loc.mk _ _
      unfold rootOf
      rw [show (s.turn ev).1.setup = _ from setup]
    have pending : (s.turn ev).1.pendingWrite = (s.reduce ev).store.pendingWrite := by
      unfold pendingWrite
      simp only [show (s.turn ev).1.op = _ from op, loc]
    have reading : (s.turn ev).1.readingIndex = (s.reduce ev).store.readingIndex := by
      unfold readingIndex
      rw [show (s.turn ev).1.op = _ from op]
    unfold Tail at asked ⊢
    simp only [pending, reading, loc]
    exact asked

theorem Tail.write {fx : List HudEffect} (asked : Tail t fx) {tag : Tag} {at_ : Loc} {bytes : Bytes}
    (mem : .writeFile tag at_ bytes ∈ fx) : t.pendingWrite = some (at_, bytes) := by
  unfold Tail at asked
  split at asked
  · cases mem
  · cases mem_singleton.mp mem
    exact asked
  all_goals first | exact absurd asked not_false | exact absurd (mem_singleton.mp mem) nofun

theorem turn_writes (h : s.Sound) {tag : Tag} {at_ : Loc} {bytes : Bytes}
    (mem : .writeFile tag at_ bytes ∈ (s.turn ev).2.2) : (s.turn ev).1.pendingWrite = some (at_, bytes) := by
  obtain ⟨takes, tail, rule, whole, all, asked, said⟩ := turn_acts h ev
  rw [whole] at mem
  rcases mem_append.mp mem with front | last
  · rcases mem_append.mp front with taken | written
    · exact absurd (all _ taken) not_false
    · exact asked.write written
  · exact absurd (said _ last) nofun

theorem turn_says (h : s.Sound) (mem : .notice n ∈ (s.turn ev).2.2) : s.Says ev (s.turn ev).1 n := by
  obtain ⟨takes, tail, rule, whole, all, asked, said⟩ := turn_acts h ev
  rw [whole] at mem
  rcases mem_append.mp mem with front | last
  · rcases mem_append.mp front with taken | written
    · exact all _ taken
    · unfold Tail at asked
      split at asked
      · cases written
      all_goals first | exact absurd asked not_false | exact absurd (mem_singleton.mp written) nofun
  · exact absurd (said _ last) nofun

end
end HudStore
end PlxNative.Hud
