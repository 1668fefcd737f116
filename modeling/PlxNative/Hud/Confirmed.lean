import PlxNative.Hud.Installs

/-! The story of every install: what began it, what was said of its bytes, who confirmed them,
and what had changed when it ended. -/
namespace PlxNative.Hud.HudStore
open List Transducer
open Transducer (Event event history run history_invariant history_split)
variable [World]

abbrev Told : Type := Event HudStore HudEvent (Handled × List HudEffect)

section

/-- The viewer asked for these bytes, or for the drop file of this digest. -/
def Confirms (begun : Told) (bytes : Bytes) (sha : Sha) : Prop :=
  (∃ source now, begun.input = .install bytes source now) ∨ ∃ now, begun.input = .installDrop sha now

def Fetches (begun : Told) : Prop :=
  (∃ address, begun.input = .fetch address) ∨ ∃ sha app language, begun.input = .fetchRegistry sha app language

/-- The bytes of the digest were found loadable and passed judgement. -/
def Judges (e : Told) (sha : Sha) (metadata : Meta) : Prop :=
  (∃ tag, e.input = .validated tag sha (.loadable metadata)) ∧ e.before.judge sha (.loadable metadata) = .ok metadata

/-- The viewer confirmed the offer that was shown. -/
def Accepts (e : Told) (sha : Sha) (metadata : Meta) : Prop :=
  (∃ now, e.input = .installOffer sha now) ∧
    ∃ view, e.before.offer = some view ∧ view.sha = sha ∧ view.metadata = metadata

/-- Why bytes may be written: they were asked for and judged, or fetched, judged, shown and
confirmed. -/
def Warranted (bytes : Bytes) (sha : Sha) (metadata : Meta) (begun : Told) (after : List Told) : Prop :=
  (Confirms begun bytes sha ∧ ∃ e ∈ after, Judges e sha metadata) ∨
    Fetches begun ∧ ∃ mid e rest, after = mid ++ e :: rest ∧ (∃ v ∈ mid, Judges v sha metadata) ∧ Accepts e sha metadata

def StepStory (begun : Told) (after : List Told) : Step → Prop
  | .reading sha now => begun.input = .installDrop sha now
  | .fetching _ _ => Fetches begun
  | .validating offer => (offer.now.isSome = true → Confirms begun offer.bytes offer.sha) ∧ (offer.now = none → Fetches begun)
  | .offered offer metadata => Fetches begun ∧ ∃ e ∈ after, Judges e offer.sha metadata
  | .writing offer metadata _ _ => Warranted offer.bytes offer.sha metadata begun after

omit [World] in
theorem Warranted.later {bytes : Bytes} {sha : Sha} {metadata : Meta} {begun : Told} {after : List Told}
    (warranted : Warranted bytes sha metadata begun after) (e : Told) : Warranted bytes sha metadata begun (after ++ [e]) := by
  rcases warranted with ⟨confirmed, v, mem, judged⟩ | ⟨fetched, mid, c, rest, rfl, judged, accepted⟩
  · exact .inl ⟨confirmed, v, mem_append_left _ mem, judged⟩
  · exact .inr ⟨fetched, mid, c, rest ++ [e], by simp, judged, accepted⟩

omit [World] in
theorem StepStory.later {begun : Told} {after : List Told} {step : Step} (story : StepStory begun after step) (e : Told) :
    StepStory begun (after ++ [e]) step := by
  cases step with
  | offered offer metadata =>
    obtain ⟨fetched, v, mem, judged⟩ := story
    exact ⟨fetched, v, mem_append_left _ mem, judged⟩
  | writing offer metadata d what => exact Warranted.later story e
  | _ => exact story

/-- The install in hand since the event that began it. -/
structure Since (s : HudStore) (begun : Told) (after : List Told) : Prop where
  begins : begun.input.begins = true
  free : begun.before.op = .idle
  settled : begun.before.Settled
  held : ∀ e ∈ begun :: after, e.after.op.step?.isSome = true
  dirs : s.dirs = begun.before.dirs
  packs : s.packs = begun.before.packs
  shown : (∀ e ∈ begun :: after, e.input.showsAnew = false) →
    s.selected = begun.before.selected ∧ s.catalog = begun.before.catalog

def Story (past : Past) (s : HudStore) : Prop :=
  ∀ step, s.op.step? = some step →
    ∃ before begun after, past = before ++ begun :: after ∧ s.Since begun after ∧ StepStory begun after step

end

section
variable {s : HudStore}

variable {ev : HudEvent}

variable {step : Step}

theorem Leads.origin (leads : Leads s ev step) :
    s.op.step?.isSome = true ∨ ev.begins = true ∧ s.op = .idle := by
  cases leads with
  | install free => exact .inr ⟨rfl, free⟩
  | fetch free => exact .inr ⟨rfl, free⟩
  | fetchRegistry free => exact .inr ⟨rfl, free⟩
  | installDrop free => exact .inr ⟨rfl, free⟩
  | kept held => exact .inl (by rw [held]; rfl)
  | reread _ held => exact .inl (by rw [held]; rfl)
  | fetched _ held => exact .inl (by rw [held]; rfl)
  | offered _ held => exact .inl (by rw [held]; rfl)
  | write _ held => exact .inl (by rw [held]; rfl)
  | confirm held => exact .inl (by rw [held]; rfl)
  | onward held => exact .inl (by rw [held]; rfl)

theorem refresh_drops (reached : (s.turn ev).1.op.step? = some step) :
    ev.isRefresh = false := by
  cases ev with
  | refresh setup selected =>
    have op : (s.turn (.refresh setup selected)).1.op = (s.beginListing setup selected).1.op := (settle_op _).1
    have none_ := advance_step (s.forgotten setup selected) s.displaced.1 (listingJobs setup.candidates.length)
    rw [op] at reached
    exact absurd (reached.symm.trans none_) (Option.some_ne_none step)
  | _ => rfl

theorem turn_kept (reached : (s.turn ev).1.op.step? = some step) :
    (s.turn ev).1.dirs = s.dirs ∧ (s.turn ev).1.packs = s.packs := by
  obtain ⟨dirs, packs, -⟩ := settle_same (s.reduce ev)
  have op : (s.turn ev).1.op = (s.reduce ev).store.op := (settle_op _).1
  have held : (s.reduce ev).store.op.step?.isSome = true := by rw [← op, reached]; rfl
  have kept : (s.reduce ev).store.dirs = s.dirs ∧ (s.reduce ev).store.packs = s.packs := by
    by_cases eq : ev.showsAnew = true
    · cases ev with
      | catalog event => exact ⟨rfl, rfl⟩
      | selected id =>
        simp only [reduce, select]
        split <;> exact ⟨rfl, rfl⟩
      | _ => cases eq
    · have origin := (turn_leads reached).origin
      exact (reduce_framed (origin.imp_right And.left) (Bool.eq_false_iff.mpr eq) (refresh_drops reached)).held held
  exact ⟨dirs.trans kept.1, packs.trans kept.2⟩

theorem Since.first (h : s.Settled) (free : s.op = .idle) (begins : ev.begins = true)
    (reached : (s.turn ev).1.op.step? = some step) : (s.turn ev).1.Since (event turn s ev) [] := by
  obtain ⟨dirs, packs⟩ := turn_kept reached
  refine ⟨begins, free, h, ?_, dirs, packs, fun still => ?_⟩
  · intro e mem
    rw [mem_singleton.mp mem]
    exact (congrArg Option.isSome reached).trans rfl
  · exact turn_framed h (.inr begins) (still _ mem_cons_self) (refresh_drops reached) dirs packs

variable {begun : Told} {after : List Told}

theorem Since.next (h : s.Settled) (since : s.Since begun after)
    (held : s.op.step?.isSome = true) (kept : ev.isRefresh = false)
    (dirs : (s.turn ev).1.dirs = s.dirs) (packs : (s.turn ev).1.packs = s.packs) :
    (s.turn ev).1.dirs = begun.before.dirs ∧ (s.turn ev).1.packs = begun.before.packs ∧
      ((∀ e ∈ begun :: (after ++ [event turn s ev]), e.input.showsAnew = false) →
        (s.turn ev).1.selected = begun.before.selected ∧ (s.turn ev).1.catalog = begun.before.catalog) := by
  refine ⟨dirs.trans since.dirs, packs.trans since.packs, fun still => ?_⟩
  have earlier : ∀ e ∈ begun :: after, e.input.showsAnew = false := fun e mem =>
    still e (by rw [← cons_append]; exact mem_append_left _ mem)
  have now : ev.showsAnew = false := still (event turn s ev) (by simp)
  obtain ⟨selected, catalog⟩ := turn_framed h (.inl held) now kept dirs packs
  obtain ⟨first, begunCatalog⟩ := since.shown earlier
  exact ⟨selected.trans first, catalog.trans begunCatalog⟩

theorem Since.onward (h : s.Settled) (since : s.Since begun after)
    (held : s.op.step?.isSome = true) (reached : (s.turn ev).1.op.step? = some step) :
    (s.turn ev).1.Since begun (after ++ [event turn s ev]) := by
  obtain ⟨dirs, packs⟩ := turn_kept reached
  obtain ⟨dirs', packs', shown⟩ := since.next h held (refresh_drops reached) dirs packs
  refine ⟨since.begins, since.free, since.settled, ?_, dirs', packs', shown⟩
  intro e mem
  rw [← cons_append] at mem
  rcases mem_append.mp mem with old | new_
  · exact since.held e old
  · rw [mem_singleton.mp new_]
    exact (congrArg Option.isSome reached).trans rfl

theorem story_step {past : Past} (h : s.Settled) (story : Story past s) (ev : HudEvent) :
    Story (past ++ [event turn s ev]) (s.turn ev).1 := by
  intro step reached
  have begin_ : ev.begins = true → s.op = .idle → StepStory (event turn s ev) [] step →
      ∃ before begun after, past ++ [event turn s ev] = before ++ begun :: after ∧ (s.turn ev).1.Since begun after ∧
        StepStory begun after step := fun begins free told =>
    ⟨past, event turn s ev, [], rfl, Since.first h free begins reached, told⟩
  have goOn : ∀ old, s.op.step? = some old →
      (∀ begun after, StepStory begun after old → StepStory begun (after ++ [event turn s ev]) step) →
      ∃ before begun after, past ++ [event turn s ev] = before ++ begun :: after ∧ (s.turn ev).1.Since begun after ∧
        StepStory begun after step := fun old held more => by
    obtain ⟨before, begun, after, rfl, since, told⟩ := story old held
    exact ⟨before, begun, after ++ [event turn s ev], by simp,
      since.onward h (by rw [held]; rfl) reached, more begun after told⟩
  cases turn_leads reached with
  | kept held => exact goOn _ held (fun begun after told => told.later _)
  | install free bytes source now => exact begin_ rfl free ⟨fun _ => .inl ⟨source, now, rfl⟩, nofun⟩
  | fetch free address => exact begin_ rfl free (.inl ⟨address, rfl⟩)
  | fetchRegistry free sha app language address p => exact begin_ rfl free (.inr ⟨sha, app, language, rfl⟩)
  | installDrop free sha now => exact begin_ rfl free rfl
  | reread tag held bytes eq => exact goOn _ held (fun begun after told => ⟨fun _ => .inr ⟨_, told⟩, nofun⟩)
  | fetched tag held bytes => exact goOn _ held (fun begun after told => ⟨nofun, fun _ => told⟩)
  | offered tag held unconfirmed judged =>
    refine goOn _ held (fun begun after told => ⟨told.2 unconfirmed, event turn s _,
      mem_append_right _ (mem_singleton_self _), ?_⟩)
    exact ⟨⟨tag, rfl⟩, judged⟩
  | write tag held confirmed judged d =>
    refine goOn _ held (fun begun after told => .inl ⟨told.1 confirmed, event turn s _,
      mem_append_right _ (mem_singleton_self _), ?_⟩)
    exact ⟨⟨tag, rfl⟩, judged⟩
  | @confirm waiting metadata held now d =>
    refine goOn _ held (fun begun after told => .inr ⟨told.1, after, event turn s _, [], rfl, told.2, ⟨now, rfl⟩,
      ⟨waiting.sha, metadata, waiting.source, waiting.from_⟩, ?_, rfl, rfl⟩)
    show s.offer = _
    unfold Op.step? at held
    split at held
    · rename_i work inHand
      obtain ⟨tag, step⟩ := work
      cases held
      unfold HudStore.offer
      rw [inHand]
    · cases held
  | onward held e what => exact goOn _ held (fun begun after told => Warranted.later told _)

theorem new_story : Story [] new := by
  intro step held
  cases held

theorem run_story (events : List HudEvent) : Story (history turn new events) (run turn new events) ∧
    (run turn new events).Settled := by
  refine history_invariant turn (R := fun past s => Story past s ∧ s.Settled) ?_ ⟨new_story, new_settled⟩ events
  rintro past s ev ⟨story, settled⟩
  exact ⟨story_step settled story ev, settled.turn ev⟩

end

section

def refusing : Notice → Bool
  | .refused _ _ | .notWritten _ => true
  | _ => false

variable {events : List HudEvent} {past later : List Told}
variable {e : Told}

theorem history_at (whole : history turn new events = past ++ e :: later) :
    ∃ js ev, past = history turn new js ∧ past ++ [e] = history turn new (js ++ [ev]) ∧ e = event turn (run turn new js) ev ∧
      e.after = run turn new (js ++ [ev]) := by
  obtain ⟨js, ev, ks, -, rfl, rfl, -⟩ := history_split turn whole
  exact ⟨js, ev, rfl, (history_snoc turn new js ev).symm, rfl, (run_snoc turn new js ev).symm⟩

theorem pack_pending (s : HudStore) {at_ : Loc} {bytes : Bytes} (pending : s.pendingWrite = some (at_, bytes))
    (pack : at_.rel ≠ indexFile) : ∃ offer metadata d, s.op.step? = some (.writing offer metadata d .pack) ∧
      at_.rel = packRel offer.sha ∧ bytes = offer.bytes := by
  unfold pendingWrite at pending
  split at pending
  · rename_i tag offer metadata d inHand
    cases pending
    exact ⟨offer, metadata, d, by rw [inHand]; rfl, rfl, rfl⟩
  · cases pending
    exact absurd rfl pack
  · cases pending
    exact absurd rfl pack
  · cases pending

theorem index_pending {s : HudStore} (h : s.Sound) {at_ : Loc} {bytes : Bytes} (pending : s.pendingWrite = some (at_, bytes))
    (isIndex : at_.rel = indexFile) : ∃ index : Index, bytes = indexBytes index ∧ index.lookup builtinClassic = none := by
  have held := h.op
  unfold pendingWrite at pending
  split at pending
  · cases pending
    exact absurd isIndex (packRel_ne_indexFile _)
  · rename_i tag offer metadata d index replaced inHand
    cases pending
    rw [inHand] at held
    obtain ⟨ready, -, sound, -⟩ := held
    exact ⟨index, rfl, by rw [sound]; exact insert_spared h.dirs ready.other d _⟩
  · rename_i id dirs incomplete r inHand
    cases pending
    rw [inHand] at held
    obtain ⟨-, sound, -⟩ := held.2 r rfl
    exact ⟨r.index, rfl, by rw [sound]; exact erase_spared h.dirs id r.dir⟩
  · cases pending

theorem Sound.step {s : HudStore} (h : s.Sound) {step : Step} (held : s.op.step? = some step) : s.StepSound step := by
  have sound := h.op
  unfold Op.step? at held
  split at held
  · rename_i inHand
    rw [inHand] at sound
    cases held
    exact sound
  · cases held

theorem written_warranted
    (whole : history turn new events = past ++ e :: later) {tag : Tag} {at_ : Loc} {bytes : Bytes}
    (mem : .writeFile tag at_ bytes ∈ e.answer.2) (pack : at_.rel ≠ indexFile) :
    at_.rel = packRel (Sha.of bytes) ∧ ∃ metadata before begun after, past ++ [e] = before ++ begun :: after ∧
      (∀ x ∈ begun :: after, x.after.op.step?.isSome = true) ∧ Warranted bytes (Sha.of bytes) metadata begun after := by
  obtain ⟨js, ev, -, through, rfl, reached⟩ := history_at whole
  have pending := turn_writes (run_sound js) mem
  obtain ⟨offer, metadata, d, held, named, rfl⟩ := pack_pending _ pending pack
  have story := (run_story (js ++ [ev])).1
  rw [← through, ← reached] at story
  obtain ⟨before, begun, after, split_, since, told⟩ := story _ held
  have sound : (event turn (run turn new js) ev).after.Sound := by
    rw [reached]
    exact run_sound _
  have hashed : Sha.of offer.bytes = offer.sha := (sound.step held).1.hashed
  rw [hashed]
  exact ⟨named, metadata, before, begun, after, split_, since.held, told⟩

/-- An install that is refused, or written nowhere, leaves every candidate and every package
as they were when it began. -/
theorem refusal_leaves
    (whole : history turn new events = past ++ e :: later) {n : Notice} (mem : .notice n ∈ e.answer.2)
    (refuses : refusing n = true) (kept : e.input.isRefresh = false) :
    ∃ before begun after, past ++ [e] = before ++ begun :: after ∧ begun.input.begins = true ∧ begun.before.op = .idle ∧
      e.after.dirs = begun.before.dirs ∧ e.after.packs = begun.before.packs ∧
      ((∀ x ∈ begun :: after, x.input.showsAnew = false) → e.after.entries = begun.before.entries) := by
  obtain ⟨js, ev, rfl, -, rfl, -⟩ := history_at whole
  obtain ⟨story, settled⟩ := run_story js
  have says_ : (∃ setup selected, ev = .refresh setup selected) ∨
      (((run turn new js).turn ev).1.dirs = (run turn new js).dirs ∧
        ((run turn new js).turn ev).1.packs = (run turn new js).packs ∧
        ((run turn new js).op.step?.isSome = true ∨
          (run turn new js).op = .idle ∧ ∃ bytes source now, ev = .install bytes source now)) := by
    have told := turn_says settled.sound mem
    cases n <;> first | exact told | cases refuses
  rcases says_ with ⟨setup, selected, rfl⟩ | ⟨dirs, packs, held | ⟨free, bytes, source, now, rfl⟩⟩
  · cases kept
  · obtain ⟨step, at_⟩ := Option.isSome_iff_exists.mp held
    obtain ⟨before, begun, after, split_, since, -⟩ := story step at_
    obtain ⟨dirs', packs', shown⟩ := since.next settled held kept dirs packs
    refine ⟨before, begun, after ++ [event turn (run turn new js) ev], by rw [split_]; simp, since.begins, since.free,
      dirs', packs', fun still => ?_⟩
    obtain ⟨selected, catalog⟩ := shown still
    exact entries_congr dirs' packs' selected catalog
  · refine ⟨_, _, [], rfl, rfl, free, dirs, packs, fun _ => ?_⟩
    obtain ⟨selected, catalog⟩ := turn_framed settled (.inr rfl) rfl rfl dirs packs
    exact entries_congr dirs packs selected catalog

/-- At every event of every run: a pack is written only of bytes that hash to its name, were
found loadable and judged, and were confirmed; a package said to be installed stands for its
id and is above the one that stood for it before; no index, in the store or written, names
the built-in; and an install that ends with nothing installed leaves the candidates and the
packages as they were when it began, and the list too unless a selection or the catalog
changed meanwhile. -/
theorem installs_are_confirmed_upgrades (events : List HudEvent) (past later : List Told) (e : Told)
    (whole : history turn new events = past ++ e :: later) :
    (∀ tag at_ bytes, .writeFile tag at_ bytes ∈ e.answer.2 → at_.rel ≠ indexFile →
      at_.rel = packRel (Sha.of bytes) ∧ ∃ metadata before begun after, past ++ [e] = before ++ begun :: after ∧
        (∀ x ∈ begun :: after, x.after.op.step?.isSome = true) ∧ Warranted bytes (Sha.of bytes) metadata begun after) ∧
    (∀ id version sha restart, .notice (.installed id version sha restart) ∈ e.answer.2 →
      e.before.Upgraded e.after id version sha) ∧
    ((∀ dir ∈ e.after.dirs, dir.index.lookup builtinClassic = none) ∧
      ∀ tag at_ bytes, .writeFile tag at_ bytes ∈ e.answer.2 → at_.rel = indexFile →
        ∃ index : Index, bytes = indexBytes index ∧ index.lookup builtinClassic = none) ∧
    (∀ n, .notice n ∈ e.answer.2 → refusing n = true → e.input.isRefresh = false →
      ∃ before begun after, past ++ [e] = before ++ begun :: after ∧ begun.input.begins = true ∧ begun.before.op = .idle ∧
        e.after.dirs = begun.before.dirs ∧ e.after.packs = begun.before.packs ∧
        ((∀ x ∈ begun :: after, x.input.showsAnew = false) → e.after.entries = begun.before.entries)) := by
  have written := @written_warranted _ events past later e whole
  have ended := @refusal_leaves _ events past later e whole
  refine ⟨fun tag at_ bytes member => written member, ?_, ?_, fun n member => ended member⟩
  · intro id version sha restart member
    obtain ⟨js, ev, -, -, rfl, -⟩ := history_at whole
    exact turn_says (run_sound js) member
  · obtain ⟨js, ev, -, -, rfl, reached⟩ := history_at whole
    have sound : (event turn (run turn new js) ev).after.Sound := by
      rw [reached]
      exact run_sound _
    exact ⟨sound.dirs.spared, fun tag at_ bytes member => index_pending sound (turn_writes (run_sound js) member)⟩

end

section

def oneDir : Setup := ⟨[⟨["media"], false⟩], 1⟩

def sampleMeta : Meta := ⟨"x.y", "HUD", "1.0.0", "1.0", "1.0"⟩

/-- One directory with nothing in it, and the empty package installed in it, up to the answer
to the last write. -/
def almostInstalled : List HudEvent :=
  [.refresh oneDir "", .read ⟨1⟩ (.error .missing), .scanned ⟨3⟩ (.ok []), .install [] .drop 0,
    .validated ⟨4⟩ emptySha (.loadable sampleMeta), .written ⟨5⟩ .done]

def sampleRecord : Record := Record.new emptySha .drop 0 "1.0" "1.0"

def sampleIndex : Index := SortedMap.empty.insert "x.y" sampleRecord

def sampleText : String :=
  "\x7b\"packs\":\x7b\"x.y\":\x7b\"at\":0,\"hud_format\":\"1.0\",\"package_format\":\"1.0\",\"sha\":\"" ++ emptySha.hex ++
    "\",\"source\":\"drop\"\x7d\x7d,\"v\":1\x7d"

/-- A world that writes and reads the index of one installed package. -/
@[reducible] def sampleHome : World := sampleWorld (indexValue sampleIndex) (sampleText.toList.flatMap String.utf8EncodeChar)

omit [World] in
theorem installs_are_confirmed_upgrades_once : letI := sampleHome
    (run turn new almostInstalled).Upgraded (run turn new (almostInstalled ++ [.written ⟨6⟩ .done])) "x.y" "1.0.0" emptySha := by
  let := sampleHome
  have whole := history_snoc turn new almostInstalled (.written ⟨6⟩ .done)
  have announced : HudEffect.notice (.installed "x.y" "1.0.0" emptySha false) ∈
      (event turn (run turn new almostInstalled) (.written ⟨6⟩ .done)).answer.2 := by
    decide +kernel
  have upgraded := (installs_are_confirmed_upgrades _ _ [] _ whole).2.1 _ _ _ _ announced
  simpa only [run_snoc, event] using upgraded

/-- An install that is refused after the viewer picked another package: the list is not the
one from before. -/
def refusedMeanwhile : List HudEvent := [.install [] .drop 0, .selected builtinClassic]

omit [World] in
theorem refused_with_other_entries : letI := nullWorld
    let before := run turn new [.refresh ⟨[], 1⟩ "x.y"]
    let waiting := run turn before refusedMeanwhile
    .notice (.refused emptySha .invalid) ∈ (waiting.turn (.validated ⟨2⟩ emptySha .invalid)).2.2 ∧
      (waiting.turn (.validated ⟨2⟩ emptySha .invalid)).1.entries ≠ before.entries := by
  decide +kernel

end
end PlxNative.Hud.HudStore
