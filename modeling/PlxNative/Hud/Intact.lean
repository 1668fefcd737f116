import PlxNative.Hud.Confirmed
import PlxNative.Hud.Matches

/-! An installed index is never broken: what a runner that tells the truth brings about keeps
every index on packs that are there. -/
namespace PlxNative.Hud
open List Transducer Option
open Transducer (Event event history history_holds run)

namespace HudStore
variable [World] {s : HudStore}

theorem awaits_of_pending {written : Loc × Bytes} (pending : s.pendingWrite = some written) :
    ∃ tag, s.op.awaits = some ⟨tag, .write⟩ := by
  unfold pendingWrite at pending
  split at pending
  · rename_i held
    rw [held]
    exact ⟨_, rfl⟩
  · rename_i held
    rw [held]
    exact ⟨_, rfl⟩
  · rename_i held
    rw [held]
    exact ⟨_, rfl⟩
  · cases pending

omit [World] in
theorem awaits_of_reading {d : Nat} (reading : s.readingIndex = some d) : ∃ tag, s.op.awaits = some ⟨tag, .read⟩ := by
  unfold readingIndex at reading
  split at reading
  · rename_i held
    rw [held]
    exact ⟨_, rfl⟩
  · cases reading

theorem asks_turn {ev : HudEvent} (asks : s.Asks ((s.reduce ev).store, (s.reduce ev).fx)) :
    s.Asks ((s.turn ev).1, (s.turn ev).2.2) := by
  obtain ⟨op, tags, asked⟩ := settle_op (s.reduce ev)
  have last : (settle (s.reduce ev)).store.lastTag = (s.reduce ev).store.lastTag := congrArg (fun n => Tag.mk (n % 2 ^ 32)) tags
  unfold Asks at asks ⊢
  simp only [turn, step, op, tags, asked, last]
  exact asks

theorem turn_asks_or_keeps (s : HudStore) (ev : HudEvent) :
    (requests (s.turn ev).2.2 = [] ∧ (s.turn ev).1.op = s.op ∧ (s.turn ev).1.tags = s.tags) ∨
      s.Asks ((s.turn ev).1, (s.turn ev).2.2) := by
  obtain ⟨op, tags, asked⟩ := settle_op (s.reduce ev)
  rcases reduce_asks (s := s) ev with ⟨quiet, eq, still⟩ | asks
  · exact .inl ⟨asked.trans quiet, op.trans eq, tags.trans still⟩
  · exact .inr (asks_turn asks)

theorem turn_answered {ev : HudEvent} {q : Request} (answer : ev.answers = some q) (awaited : s.op.awaits = some q) :
    s.Asks ((s.turn ev).1, (s.turn ev).2.2) := by
  rcases result_cases answer with ⟨other, -⟩ | ⟨-, stepped, taken, asks⟩
  · exact absurd awaited other
  · refine asks_turn ?_
    rw [reduce_answer s answer, taken]
    exact asks

/-- What a turn that moves the work in hand asks for, and what is awaited then. -/
def Moves (s t : HudStore) (fx : List HudEffect) : Prop :=
  requests fx = [] ∧ t.pendingWrite = none ∧ t.readingIndex = none ∧ (∀ r, t.op.awaits = some r → r.tag = t.lastTag) ∧
      s.tags ≤ t.tags ∨
    ∃ r, requests fx = [r] ∧ t.op.awaits = some r ∧ r.tag = t.lastTag ∧ s.tags < t.tags

variable {t : HudStore}

theorem pendingWrite_same (op : t.op = s.op) (setup : t.setup = s.setup) : t.pendingWrite = s.pendingWrite := by
  unfold pendingWrite HudStore.loc HudStore.rootOf
  rw [op, setup]

omit [World] in
theorem readingIndex_same (op : t.op = s.op) : t.readingIndex = s.readingIndex := by
  unfold readingIndex
  rw [op]

theorem pending_of_writing {offer : Offer} {metadata : Meta} {d : Nat} {what : Write}
    (held : s.op.step? = some (.writing offer metadata d what)) : s.pendingWrite ≠ none := by
  obtain ⟨setup, dirs, packs, drops, selected, op, tags, catalog⟩ := s
  cases op with
  | installing i =>
    obtain ⟨tag, step⟩ := i
    cases held
    cases what <;> exact nofun
  | _ => cases held

theorem Asks.moves {fx : List HudEffect} (asks : s.Asks (t, fx)) : Moves s t fx := by
  rcases asks with ⟨quiet, free, later⟩ | ⟨r, one, awaited, last, later⟩
  · refine .inl ⟨quiet, ?_, ?_, ?_, later⟩
    · cases pending : t.pendingWrite with
      | none => rfl
      | some written =>
        obtain ⟨tag, awaited⟩ := awaits_of_pending pending
        exact absurd (awaited.symm.trans free) (some_ne_none _)
    · cases reading : t.readingIndex with
      | none => rfl
      | some d =>
        obtain ⟨tag, awaited⟩ := awaits_of_reading reading
        exact absurd (awaited.symm.trans free) (some_ne_none _)
    · intro r awaited
      exact absurd (awaited.symm.trans free) (some_ne_none _)
  · exact .inr ⟨r, one, awaited, last, later⟩

end HudStore

namespace Home
open HudStore
variable [World] {whole : Prop} {h : Home} {m : Move}

/-- What holds of a home whatever a truthful runner brings about; `whole` says that the disk
was intact when it began. -/
structure Kept (whole : Prop) (h : Home) : Prop where
  sound : h.store.Sound
  phased : h.store.op.Phased
  apart : (h.store.setup.candidates.map Candidate.dir).Nodup
  within : ∀ d, h.store.op.Unread d → d < h.store.dirs.length
  intact : whole → Intact h.disk
  found : ∀ d, d < h.store.dirs.length → ¬ h.store.op.Unread d → h.found (h.store.rootOf d) = some (h.store.dir d).access
  numbered : ∀ a ∈ h.asked, a.number ≤ h.store.tags ∧ a.tag = ⟨a.number % 2 ^ 32⟩
  last : ∀ r, h.store.op.awaits = some r → r.tag = h.store.lastTag
  rest : h.store.pendingWrite = none → h.store.Matches whole h.disk
  flying : h.store.pendingWrite ≠ none → ∀ a ∈ h.asked, a.number = h.store.tags →
    ∃ outcome, a.due = .written outcome ∧ h.store.Landed whole h.disk outcome
  reading : ∀ d, h.store.readingIndex = some d → ∀ a ∈ h.asked, a.number = h.store.tags →
    a.due = .read (h.store.loc d indexFile) (h.disk (h.store.loc d indexFile))

theorem start_kept {disk : Disk} (intact : whole → Intact disk) : (start disk).Kept whole where
  sound := new_sound
  phased := trivial
  apart := nodup_nil
  within := fun _ unread => absurd unread not_false
  intact := intact
  found := nofun
  numbered := nofun
  last := nofun
  rest := fun _ => nofun
  flying := fun pending => absurd rfl pending
  reading := nofun

theorem Kept.answered (kept : h.Kept whole) {tag : Tag} {kind : Kind} {tells : Due → Prop} (owes : h.Owes m tag tells)
    (recent : h.store.tags < m.number + 2 ^ 32) (awaited : h.store.op.awaits = some ⟨tag, kind⟩) :
    ∃ a ∈ h.asked, a.number = h.store.tags ∧ tells a.due := by
  obtain ⟨a, mem, number, eq, told⟩ := owes
  obtain ⟨below, tagged⟩ := kept.numbered a mem
  have last : a.tag = ⟨h.store.tags % 2 ^ 32⟩ := eq.trans (kept.last _ awaited)
  have equal : a.number % 2 ^ 32 = h.store.tags % 2 ^ 32 := congrArg Tag.value (tagged.symm.trans last)
  exact ⟨a, mem, by omega, told⟩

section
variable {ev : HudEvent} {t : HudStore} {fx : List HudEffect}

omit [World] in
theorem indexRead_access {disk : Disk} {root : PathBuf} [World] (intact : whole → Intact disk) {result : Except ReadError Bytes}
    (fits : Fits (disk ⟨root, indexFile⟩) result) (access : (indexRead result).access = .writable) :
    (∀ sha, Lists disk root sha ↔ Index.Names (indexRead result).index sha) ∧
      (whole → ∀ sha, Index.Names (indexRead result).index sha → Stored disk root sha) := by
  cases result with
  | ok bytes =>
    have there : disk ⟨root, indexFile⟩ = some bytes := fits
    refine ⟨fun sha => ?_, fun was sha named => intact was root bytes there sha named⟩
    show Lists disk root sha ↔ Index.Names (parseIndex bytes).index sha
    rw [← parseIndex_listed access]
    constructor
    · rintro ⟨bytes', held, listed⟩
      cases there.symm.trans held
      exact listed
    · exact fun listed => ⟨bytes, there, listed⟩
  | error why =>
    cases why with
    | missing =>
      have there : disk ⟨root, indexFile⟩ = none := fits
      refine ⟨fun sha => ⟨?_, fun named => absurd named (empty_names sha)⟩, fun _ sha named => absurd named (empty_names sha)⟩
      rintro ⟨bytes, held, -⟩
      cases there.symm.trans held
    | _ => cases access

/-- What is so once the store has been told, before any effect is run. -/
structure Learned (whole : Prop) (h : Home) (t : HudStore) (fx : List HudEffect) : Prop where
  holds : t.Matches whole h.disk
  laid : ∀ offer metadata d index replaced, t.op.step? = some (.writing offer metadata d (.index index replaced)) →
    (whole → Stored h.disk (t.rootOf d) offer.sha) ∧ Undeleted fx
  known : Undeleted fx ∨ t.op.Surveyed
  moves : Moves h.store t fx

theorem Kept.read (kept : h.Kept whole) {d : Nat} {result : Except ReadError Bytes}
    (fits : Fits (h.disk (h.store.loc d indexFile)) result) (free : h.store.pendingWrite = none)
    (dirs : t.dirs = (h.store.withDir d (indexRead result)).dirs) (setup : t.setup = h.store.setup)
    (fewer : ∀ e, h.store.op.Unread e → e = d ∨ t.op.Unread e) : t.Matches whole h.disk := by
  intro e inside known access
  have own : t.dir e = if d = e ∧ d < h.store.dirs.length then indexRead result else h.store.dir e :=
    (dir_same dirs e).trans (dir_withDir h.store d (indexRead result) e)
  have length : t.dirs.length = h.store.dirs.length := by
    rw [dirs]
    exact length_set
  rw [rootOf_same setup]
  rw [own] at access ⊢
  by_cases eq : d = e ∧ d < h.store.dirs.length
  · rw [if_pos eq] at access ⊢
    obtain ⟨rfl, -⟩ := eq
    exact indexRead_access kept.intact fits access
  · rw [if_neg eq] at access ⊢
    have inside' : e < h.store.dirs.length := inside.trans_eq length
    refine kept.rest free e inside' (fun unread => ?_) access
    rcases fewer e unread with rfl | held
    · exact eq ⟨rfl, inside'⟩
    · exact known held

theorem Kept.learned (kept : h.Kept whole) (hears : h.Hears m) (prompt : h.Prompt m) {handled : Handled}
    (told : h.store.turn m.event = (t, handled, fx)) (learns : Learns h.store m.event (t, fx)) (sound : t.DirsSound) :
    (t.op = h.store.op ∧ t.tags = h.store.tags ∧ t.dirs = h.store.dirs ∧ t.setup = h.store.setup ∧
        ∀ e ∈ fx, e.still = true) ∨ h.Learned whole t fx := by
  obtain ⟨ev, number, lands⟩ := m
  have after : (h.store.turn ev).1 = t := congrArg Prod.fst told
  have emitted : (h.store.turn ev).2.2 = fx := congrArg (fun u => u.2.2) told
  have unwritten : t.pendingWrite = none → ∀ offer metadata d index replaced,
      t.op.step? = some (.writing offer metadata d (.index index replaced)) →
        (whole → Stored h.disk (t.rootOf d) offer.sha) ∧ Undeleted fx :=
    fun resting _ _ _ _ _ reached => absurd resting (pending_of_writing reached)
  cases learns with
  | kept op tags dirs setup still => exact .inl ⟨op, tags, dirs, setup, still⟩
  | moved free before surveyed dirs setup undeleted =>
    refine .inr ⟨(kept.rest free).same dirs setup (fun d unread => absurd unread (before d)), ?_, .inl undeleted, ?_⟩
    · intro offer metadata d index replaced reached
      rw [← after] at reached
      cases turn_leads reached with
      | kept held => exact absurd free (pending_of_writing held)
      | onward held => exact absurd free (pending_of_writing held)
    · have asked := turn_asks_or_keeps h.store ev
      rw [after, emitted] at asked
      rcases asked with ⟨quiet, op, tags⟩ | asks
      · refine .inl ⟨quiet, (pendingWrite_same op setup).trans free, ?_, ?_, tags.ge⟩
        · rw [readingIndex_same op]
          cases reading : h.store.readingIndex with
          | none => rfl
          | some d => exact absurd (unread_of_reading reading) (before d)
        · intro r awaited
          rw [op] at awaited
          unfold lastTag
          rw [tags]
          exact kept.last r awaited
      · exact asks.moves
  | @refreshed setup selected _ _ here unread carried resting undeleted =>
    refine .inr ⟨fun d inside known => absurd ((unread d).mpr ?_) known, unwritten resting, .inl undeleted, ?_⟩
    · rw [← here]
      exact inside.trans_eq sound.matched
    · have asks := @asks_turn _ h.store (.refresh setup selected) (beginListing_asks h.store setup selected)
      rw [after, emitted] at asks
      exact asks.moves
  | @read tag result _ _ d reading awaited dirs setup fewer resting on =>
    obtain ⟨a, mem, number_, answered⟩ := kept.answered hears (prompt rfl) awaited
    rw [kept.reading d reading a mem number_] at answered
    refine .inr ⟨kept.read (answered rfl) (resting_of_unread (unread_of_reading reading)) dirs setup fewer,
      unwritten resting, on.imp And.left And.left, ?_⟩
    have asks := @turn_answered _ h.store (.read tag result) _ rfl awaited
    rw [after, emitted] at asks
    exact asks.moves
  | @wrote tag outcome _ _ pending awaited surveyed dirs setup laid settles =>
    have owes : h.Owes ⟨.written tag outcome, number, lands⟩ tag (· = .written outcome) := hears
    obtain ⟨a, mem, number_, answered⟩ := kept.answered owes (prompt rfl) awaited
    obtain ⟨outcome', due, landed, there⟩ := kept.flying pending a mem number_
    cases (due.symm.trans answered : Due.written outcome' = .written outcome)
    obtain ⟨op, here, -⟩ := caughtUp_kept h.store outcome
    refine .inr ⟨landed.same dirs (setup.trans here.symm) (fun d unread => ?_), ?_, .inr surveyed, ?_⟩
    · rw [op] at unread
      exact absurd unread (read_of_pending pending d)
    · intro offer metadata d index replaced reached
      obtain ⟨rfl, held, undeleted⟩ := laid offer metadata d index replaced reached
      have written := kept.sound.op
      obtain ⟨tag', op'⟩ : ∃ tag', h.store.op = .installing ⟨tag', .writing offer metadata d .pack⟩ := by
        cases inHand : h.store.op with
        | installing i =>
          rw [inHand] at held
          exact ⟨i.tag, by rw [show i = ⟨i.tag, i.step⟩ from rfl, Option.some.inj held]⟩
        | _ =>
          rw [inHand] at held
          cases held
      rw [op'] at written
      rw [rootOf_same setup]
      refine ⟨fun _ => ⟨offer.bytes, there rfl (h.store.loc d (packRel offer.sha)) offer.bytes ?_, written.1.hashed⟩, undeleted⟩
      unfold pendingWrite
      rw [op']
    · have asks := @turn_answered _ h.store (.written tag outcome) _ rfl awaited
      rw [after, emitted] at asks
      exact asks.moves

end

section
variable {t : HudStore} {disk : Disk} {lands : Bool} {n : Nat}

omit [World] in
theorem askedOf_append (before after : List HudEffect) : askedOf n lands disk (before ++ after) =
    askedOf n lands disk before ++ askedOf n lands (executed lands disk before) after := by
  induction before generalizing disk with
  | nil => rfl
  | cons e rest ih =>
    simp only [cons_append, askedOf, ih, append_assoc]
    rfl

variable {fx : List HudEffect}

omit [World] in
theorem askedOf_quiet (quiet : requests fx = []) : askedOf n lands disk fx = [] := by
  induction fx generalizing disk with
  | nil => rfl
  | cons e rest ih =>
    have none_ : e.request? = none ∧ requests rest = [] := by
      unfold requests at quiet ⊢
      cases first : e.request? with
      | none =>
        rw [filterMap_cons_none first] at quiet
        exact ⟨rfl, quiet⟩
      | some r =>
        rw [filterMap_cons_some first] at quiet
        cases quiet
    have no : due lands disk e = none := by
      cases e <;> first | rfl | cases none_.1
    simp only [askedOf, no, ih none_.2]
    rfl

omit [World] in
theorem requests_takes {told : Notice → Prop} (takes : ∀ e ∈ fx, Takes told t e) : requests fx = [] := by
  refine filterMap_eq_nil_iff.mpr (fun e mem => ?_)
  have own := takes e mem
  cases e <;> first | rfl | exact absurd own not_false

omit [World] in
theorem requests_still (still : ∀ e ∈ fx, e.still = true) : requests fx = [] := by
  refine filterMap_eq_nil_iff.mpr (fun e mem => ?_)
  have own := still e mem
  cases e <;> first | rfl | cases own

/-- What the one request of a turn comes to. -/
structure Ran (whole : Prop) (t : HudStore) (lands : Bool) (n : Nat) (disk : Disk) (tail : List HudEffect) : Prop where
  safe : whole → Safe lands disk tail
  rest : t.pendingWrite = none → t.Matches whole (executed lands disk tail)
  asked : ∀ a ∈ askedOf n lands disk tail, a.number = n ∧ ∃ r, requests tail = [r] ∧ a.tag = r.tag ∧
    (r.kind = .write → ∃ outcome, a.due = .written outcome ∧ t.Landed whole (executed lands disk tail) outcome) ∧
    (r.kind = .read → ∀ d, t.readingIndex = some d →
      a.due = .read (t.loc d indexFile) (executed lands disk tail (t.loc d indexFile)))

theorem tail_ran (apart : (t.setup.candidates.map Candidate.dir).Nodup) (sound : t.Sound) (holds : t.Matches whole disk)
    (intact : whole → Intact disk) (legible : ∀ index, t.pendingIndex = some index → ReadsBack index)
    (laid : ∀ offer metadata d index replaced, t.op.step? = some (.writing offer metadata d (.index index replaced)) →
      whole → Stored disk (t.rootOf d) offer.sha) {tail : List HudEffect} (asked : Tail t tail) :
    Ran whole t lands n disk tail := by
  have quiet : ∀ e : HudEffect, execute lands disk e = disk → whole → Safe lands disk [e] := by
    intro e eq was
    refine safe_cons (intact was) ?_
    rw [eq]
    exact safe_nil (intact was)
  unfold Tail at asked
  split at asked
  · exact ⟨fun was => safe_nil (intact was), fun _ => holds, nofun⟩
  · rename_i tag at_ bytes
    obtain ⟨landed, after⟩ := write_keeps apart sound holds intact asked legible laid tag
    refine ⟨fun was => safe_cons (intact was) (safe_nil (after was)), fun free => ?_, fun a mem => ?_⟩
    · rw [free] at asked
      cases asked
    · cases mem_singleton.mp mem
      exact ⟨rfl, _, rfl, rfl, fun _ => ⟨_, rfl, landed⟩, nofun⟩
  · refine ⟨quiet _ rfl, fun _ => holds, fun a mem => ?_⟩
    cases mem_singleton.mp mem
    refine ⟨rfl, _, rfl, rfl, nofun, fun _ d reading => ?_⟩
    rw [asked d reading]
    rfl
  all_goals first
    | exact absurd asked not_false
    | refine ⟨quiet _ rfl, fun _ => holds, fun a mem => ?_⟩
      cases mem_singleton.mp mem
      exact ⟨rfl, _, rfl, rfl, nofun, nofun⟩

end

section
variable {ev : HudEvent} {t : HudStore} {fx : List HudEffect}

theorem Kept.within_step (kept : h.Kept whole) (learns : Learns h.store ev (t, fx)) (sound : t.DirsSound) :
    ∀ d, t.op.Unread d → d < t.dirs.length := by
  intro d unread
  cases learns with
  | kept op tags dirs setup still =>
    rw [op] at unread
    rw [dirs]
    exact kept.within d unread
  | moved free before after dirs setup undeleted => exact absurd unread (after d)
  | refreshed here open_ carried resting undeleted =>
    rw [← here] at open_
    exact ((open_ d).mp unread).trans_eq sound.matched.symm
  | read e reading awaited dirs setup fewer resting on =>
    rcases on with ⟨-, -, old⟩ | ⟨surveyed, -⟩
    · rw [dirs]
      exact (kept.within d (old d unread)).trans_eq length_set.symm
    · exact absurd unread (surveyed d)
  | wrote pending awaited after dirs setup laid settles => exact absurd unread (after d)

theorem foundNow_other (h : Home) (ev : HudEvent) {root : PathBuf}
    (other : ∀ d, h.store.readingIndex = some d → h.store.rootOf d ≠ root) : h.foundNow ev root = h.found root := by
  cases ev with
  | read tag result =>
    cases reading : h.store.readingIndex with
    | none => simp only [foundNow, reading]
    | some d =>
      simp only [foundNow, reading]
      split
      · exact Function.update_of_ne (Ne.symm (other d reading)) _ _
      · rfl
  | _ => rfl

theorem Kept.found_step (kept : h.Kept whole) (learns : Learns h.store ev (t, fx)) (sound : t.DirsSound) :
    ∀ d, d < t.dirs.length → ¬ t.op.Unread d → h.foundNow ev (t.rootOf d) = some (t.dir d).access := by
  have apart : ∀ d e, h.store.readingIndex = some d → e < h.store.dirs.length → h.store.rootOf d = h.store.rootOf e → d = e :=
    fun d e reading inside eq => rootOf_injective kept.apart
      ((kept.within d (unread_of_reading reading)).trans_eq kept.sound.dirs.matched)
      (inside.trans_eq kept.sound.dirs.matched) eq
  intro e inside known
  cases learns with
  | kept op tags dirs setup still =>
    rw [dirs] at inside
    rw [op] at known
    rw [rootOf_same setup, dir_same dirs, foundNow_other]
    · exact kept.found e inside known
    · rintro d reading eq
      cases apart d e reading inside eq
      exact known (unread_of_reading reading)
  | moved free before after dirs setup undeleted =>
    rw [dirs] at inside
    rw [rootOf_same setup, dir_same dirs, foundNow_other]
    · exact kept.found e inside (before e)
    · exact fun d reading => absurd (unread_of_reading reading) (before d)
  | refreshed here open_ carried resting undeleted =>
    rw [← here] at open_
    exact absurd ((open_ e).mpr (inside.trans_eq sound.matched)) known
  | @read tag result _ _ d reading awaited dirs setup fewer resting on =>
    have inside' : e < h.store.dirs.length := by
      rw [dirs] at inside
      exact inside.trans_eq length_set
    rw [rootOf_same setup, dir_same dirs, dir_withDir]
    by_cases eq : d = e ∧ d < h.store.dirs.length
    · rw [if_pos eq]
      obtain ⟨rfl, -⟩ := eq
      unfold foundNow
      simp only [reading, awaited]
      exact Function.update_self _ _ _
    · rw [if_neg eq, foundNow_other]
      · refine kept.found e inside' (fun unread => ?_)
        rcases fewer e unread with rfl | held
        · exact eq ⟨rfl, inside'⟩
        · exact known held
      · rintro d' reading' roots
        cases reading.symm.trans reading'
        exact eq ⟨apart d e reading inside' roots, kept.within d (unread_of_reading reading)⟩
  | wrote pending awaited after dirs setup laid settles =>
    rw [dirs] at inside
    rw [rootOf_same setup, dir_same dirs, caughtUp_access]
    refine (foundNow_other h _ (fun d reading => ?_)).trans (kept.found e ?_ ?_)
    · exact absurd (unread_of_reading reading) (read_of_pending pending d)
    · exact inside.trans_eq (caughtUp_kept _ _).2.2
    · exact read_of_pending pending e

theorem Learned.ran (learned : h.Learned whole t fx) (intact : whole → Intact h.disk)
    (apart : (t.setup.candidates.map Candidate.dir).Nodup) (sound : t.Sound)
    (legible : ∀ index, t.pendingIndex = some index → ReadsBack index) {told : Notice → Prop}
    {takes tail rule : List HudEffect} (split : fx = takes ++ tail ++ rule) (taken : ∀ e ∈ takes, Takes told t e)
    (asked : Tail t tail) (ruled : ∀ e ∈ rule, e = HudEffect.selection builtinClassic) (lands : Bool) (n : Nat) :
    executed lands h.disk fx = executed lands (executed lands h.disk takes) tail ∧ requests fx = requests tail ∧
      askedOf n lands h.disk fx = askedOf n lands (executed lands h.disk takes) tail ∧
      Ran whole t lands n (executed lands h.disk takes) tail ∧ t.Matches whole (executed lands h.disk takes) ∧
      (whole → Safe lands h.disk fx) := by
  have still : ∀ e ∈ rule, e.still = true := by
    intro e mem
    rw [ruled e mem]
    rfl
  have known : Undeleted takes ∨ t.op.Surveyed := learned.known.imp (fun undeleted at_ mem => undeleted at_ (by
    rw [split]
    exact mem_append_left _ (mem_append_left _ mem))) id
  have kept : t.Matches whole (executed lands h.disk takes) ∧ (whole → Safe lands h.disk takes) :=
    takes_keep apart sound.dirs taken known learned.holds intact
  obtain ⟨holds, safe⟩ := kept
  have laid : ∀ offer metadata d index replaced, t.op.step? = some (.writing offer metadata d (.index index replaced)) →
      whole → Stored (executed lands h.disk takes) (t.rootOf d) offer.sha := by
    intro offer metadata d index replaced reached was
    obtain ⟨stored, undeleted⟩ := learned.laid offer metadata d index replaced reached
    rw [executed_still]
    · exact stored was
    · intro e mem
      have own := taken e mem
      have inside : e ∈ fx := by
        rw [split]
        exact mem_append_left _ (mem_append_left _ mem)
      cases e with
      | delete at_ => exact absurd inside (undeleted at_)
      | catalog inner => rfl
      | selection id => rfl
      | notice told => rfl
      | _ => exact absurd own not_false
  have ran : Ran whole t lands n (executed lands h.disk takes) tail :=
    tail_ran apart sound holds (fun was => (safe was).all) legible laid asked
  refine ⟨?_, ?_, ?_, ran, holds, ?_⟩
  · rw [split, executed_append, executed_append, executed_still still]
  · rw [split, requests_append, requests_append, requests_takes taken, requests_still still, nil_append, append_nil]
  · rw [split, askedOf_append, askedOf_append, askedOf_quiet (requests_takes taken), askedOf_quiet (requests_still still),
      nil_append, append_nil]
  · intro was
    rw [split]
    refine ((safe was).append (ran.safe was)).append (safe_still ?_ still)
    rw [executed_append]
    exact (ran.safe was).all

theorem Kept.apart_step (kept : h.Kept whole) (hears : h.Hears m) (learns : Learns h.store m.event (t, fx)) :
    (t.setup.candidates.map Candidate.dir).Nodup := by
  obtain ⟨ev, number, lands⟩ := m
  cases learns with
  | refreshed here => rw [here]; exact hears
  | kept op tags dirs setup => rw [setup]; exact kept.apart
  | moved free before after dirs setup => rw [setup]; exact kept.apart
  | read d reading awaited dirs setup => rw [setup]; exact kept.apart
  | wrote pending awaited after dirs setup => rw [setup]; exact kept.apart

theorem Kept.quiet_step (kept : h.Kept whole) (learns : Learns h.store m.event (t, fx)) (phased : t.op.Phased) (sound : t.Sound)
    (hears : h.Hears m) (eq : t.op = h.store.op ∧ t.tags = h.store.tags ∧ t.dirs = h.store.dirs ∧
      t.setup = h.store.setup ∧ ∀ e ∈ fx, e.still = true) (wrote : List Loc) :
    Kept whole ⟨t, executed m.lands h.disk fx, h.asked ++ askedOf t.tags m.lands h.disk fx, h.foundNow m.event, wrote⟩ ∧
      (whole → Safe m.lands h.disk fx) := by
  obtain ⟨op, tags, dirs, setup, still⟩ := eq
  rw [executed_still still, askedOf_quiet (requests_still still), append_nil]
  have pending : t.pendingWrite = h.store.pendingWrite := pendingWrite_same op setup
  have loc : ∀ d rel, t.loc d rel = h.store.loc d rel := by
    intro d rel
    unfold HudStore.loc
    rw [rootOf_same setup]
  refine ⟨⟨sound, phased, kept.apart_step hears learns, kept.within_step learns sound.dirs, kept.intact,
    kept.found_step learns sound.dirs, ?_, ?_, ?_, ?_, ?_⟩, fun was => safe_still (kept.intact was) still⟩
  · rw [tags]
    exact kept.numbered
  · intro r awaited
    show r.tag = Tag.mk (t.tags % 2 ^ 32)
    rw [op] at awaited
    rw [tags]
    exact kept.last r awaited
  · intro free
    refine (kept.rest (pending.symm.trans free)).same dirs setup (fun d unread => ?_)
    rw [op]
    exact unread
  · intro held a mem number
    rw [tags] at number
    obtain ⟨outcome, due, landed, there⟩ := kept.flying (fun free => held (pending.trans free)) a mem number
    refine ⟨outcome, due, ?_, ?_⟩
    · obtain ⟨op', setup', -⟩ := caughtUp_kept t outcome
      obtain ⟨op'', setup'', -⟩ := caughtUp_kept h.store outcome
      refine landed.same ?_ (setup'.trans (setup.trans setup''.symm)) (fun d unread => ?_)
      · unfold caughtUp
        rw [op]
        split
        · unfold withIndex withDir HudStore.dir
          rw [dirs]
        · unfold withIndex withDir HudStore.dir
          rw [dirs]
        · exact dirs
      · rw [op', op]
        rw [op''] at unread
        exact unread
    · intro done at_ bytes pending'
      exact there done at_ bytes (pending.symm.trans pending')
  · intro d reading a mem number
    rw [tags] at number
    rw [loc]
    exact kept.reading d ((readingIndex_same op).symm.trans reading) a mem number

theorem Kept.moved_step (kept : h.Kept whole) (learns : Learns h.store m.event (t, fx)) (phased : t.op.Phased) (sound : t.Sound)
    (hears : h.Hears m) (learned : h.Learned whole t fx) {disk : Disk} {tail : List HudEffect}
    (left : executed m.lands h.disk fx = executed m.lands disk tail) (requested : requests fx = requests tail)
    (due : askedOf t.tags m.lands h.disk fx = askedOf t.tags m.lands disk tail) (ran : Ran whole t m.lands t.tags disk tail)
    (safe : whole → Safe m.lands h.disk fx) (wrote : List Loc) :
    Kept whole ⟨t, executed m.lands h.disk fx, h.asked ++ askedOf t.tags m.lands h.disk fx, h.foundNow m.event, wrote⟩ := by
  have later : h.store.tags ≤ t.tags := by
    rcases learned.moves with ⟨-, -, -, -, drawn⟩ | ⟨-, -, -, -, drawn⟩
    · exact drawn
    · exact drawn.le
  -- what is asked for now is told apart from everything before by its place in the count
  have newest : ∀ a ∈ h.asked ++ askedOf t.tags m.lands h.disk fx, a.number = t.tags → ∀ r, requests fx = [r] →
      a ∈ askedOf t.tags m.lands disk tail := by
    intro a mem number r one
    rcases mem_append.mp mem with old | new_
    · rcases learned.moves with ⟨none_, -⟩ | ⟨-, -, -, -, drawn⟩
      · rw [none_] at one
        cases one
      · exact absurd ((kept.numbered a old).1.trans_lt drawn) (number ▸ lt_irrefl _)
    · rw [due] at new_
      exact new_
  refine ⟨sound, phased, kept.apart_step hears learns, kept.within_step learns sound.dirs, fun was => (safe was).all,
    kept.found_step learns sound.dirs, ?_, ?_, ?_, ?_, ?_⟩
  · intro a mem
    rcases mem_append.mp mem with old | new_
    · exact ⟨(kept.numbered a old).1.trans later, (kept.numbered a old).2⟩
    · rw [due] at new_
      obtain ⟨number, r, one, tagged, -⟩ := ran.asked a new_
      rcases learned.moves with ⟨none_, -⟩ | ⟨r', one', -, last, -⟩
      · rw [requested, one] at none_
        cases none_
      · rw [requested, one] at one'
        cases one'
        exact ⟨number.le, by rw [number, tagged, last]; rfl⟩
  · intro r awaited
    rcases learned.moves with ⟨-, -, -, last, -⟩ | ⟨r', -, awaited', last, -⟩
    · exact last r awaited
    · cases awaited'.symm.trans awaited
      exact last
  · intro free
    rw [left]
    exact ran.rest free
  · intro held a mem number
    rcases learned.moves with ⟨-, free, -⟩ | ⟨r, one, awaited, -, -⟩
    · exact absurd free held
    · obtain ⟨written, pending⟩ := ne_none_iff_exists'.mp held
      obtain ⟨tag, write⟩ := awaits_of_pending pending
      cases awaited.symm.trans write
      obtain ⟨-, r, one', -, outcome, -⟩ := ran.asked a (newest a mem number _ one)
      rw [requested, one'] at one
      cases one
      rw [left]
      exact outcome rfl
  · intro d reading a mem number
    rcases learned.moves with ⟨-, -, none_, -⟩ | ⟨r, one, awaited, -, -⟩
    · exact absurd (none_.symm.trans reading) nofun
    · obtain ⟨tag, read⟩ := awaits_of_reading reading
      cases awaited.symm.trans read
      obtain ⟨-, r, one', -, -, told⟩ := ran.asked a (newest a mem number _ one)
      rw [requested, one'] at one
      cases one
      rw [left]
      exact told rfl d reading

/-- The step lemma: an event the runner may bring about keeps all of it, and the disk is whole
after each of its effects. -/
theorem Kept.step (kept : h.Kept whole) (fair : Fair (event Home.step h m)) (prompt : h.Prompt m) :
    (h.step m).1.Kept whole ∧ (whole → Safe m.lands h.disk (h.step m).2) := by
  have hears : h.Hears m := fair.hears
  have legible : ∀ index, (h.store.turn m.event).1.pendingIndex = some index → ReadsBack index := fair.legible
  obtain ⟨learns, phased⟩ := turn_learns kept.sound kept.phased m.event
  have sound : (h.store.turn m.event).1.Sound := step_sound kept.sound m.event
  obtain ⟨takes, tail, rule, split, taken, asked, ruled⟩ := turn_acts kept.sound m.event
  have told : h.store.turn m.event = ((h.store.turn m.event).1, (h.store.turn m.event).2.1, (h.store.turn m.event).2.2) := rfl
  rcases kept.learned hears prompt told learns sound.dirs with eq | learned
  · exact kept.quiet_step learns phased sound hears eq _
  · obtain ⟨left, requested, due, ran, -, safe⟩ := learned.ran kept.intact (kept.apart_step hears learns) sound legible
      split taken asked ruled m.lands (h.store.turn m.event).1.tags
    exact ⟨kept.moved_step learns phased sound hears learned left requested due ran safe _, safe⟩

end

section

theorem known_of_learns {s t : HudStore} {ev : HudEvent} {fx : List HudEffect} (learns : Learns s ev (t, fx)) :
    Undeleted fx ∨ t.op.Surveyed := by
  cases learns with
  | kept op tags dirs setup still => exact .inl (fun at_ mem => nomatch still _ mem)
  | moved free before after dirs setup undeleted => exact .inl undeleted
  | refreshed here unread carried resting undeleted => exact .inl undeleted
  | read d reading awaited dirs setup fewer resting on => exact on.imp And.left And.left
  | wrote pending awaited after dirs setup laid settles => exact .inr after

theorem pending_inHand {t : HudStore} (sound : t.Sound) {at_ : Loc} {bytes : Bytes} (pending : t.pendingWrite = some (at_, bytes)) :
    ∃ d, at_.root = t.rootOf d ∧ t.InHand d := by
  have op := sound.op
  unfold pendingWrite at pending
  split at pending
  · rename_i held
    cases pending
    rw [held] at op
    exact ⟨_, rfl, op.2.1⟩
  · rename_i held
    cases pending
    rw [held] at op
    exact ⟨_, rfl, op.2.1⟩
  · rename_i r held
    cases pending
    rw [held] at op
    exact ⟨_, rfl, (op.2 r rfl).1⟩
  · cases pending

theorem Kept.touches (kept : h.Kept whole) (after : (h.step m).1.Kept whole) {e : HudEffect} (mem : e ∈ (h.step m).2) {at_ : Loc}
    (touched : e.touched = some at_) : (h.step m).1.found at_.root = some .writable := by
  obtain ⟨learns, -⟩ := turn_learns kept.sound kept.phased m.event
  obtain ⟨takes, tail, rule, split, taken, asked, ruled⟩ := turn_acts kept.sound m.event
  have inHand : ∃ d, at_.root = (h.store.turn m.event).1.rootOf d ∧ (h.store.turn m.event).1.InHand d ∧
      ¬ (h.store.turn m.event).1.op.Unread d := by
    cases e with
    | writeFile tag at' bytes =>
      cases touched
      have pending := turn_writes kept.sound mem
      obtain ⟨d, root, inHand⟩ := pending_inHand (step_sound kept.sound m.event) pending
      exact ⟨d, root, inHand, read_of_pending (ne_none_iff_exists'.mpr ⟨_, pending⟩) d⟩
    | delete at' =>
      cases touched
      have surveyed : (h.store.turn m.event).1.op.Surveyed := by
        rcases known_of_learns learns with undeleted | surveyed
        · exact absurd mem (undeleted _)
        · exact surveyed
      have inside : HudEffect.delete at_ ∈ takes := by
        rw [show (h.step m).2 = _ from split] at mem
        rcases mem_append.mp mem with front | last
        · rcases mem_append.mp front with own | request
          · exact own
          · unfold Tail at asked
            split at asked
            · cases request
            all_goals first | exact absurd asked not_false | exact nomatch mem_singleton.mp request
        · exact nomatch ruled _ last
      obtain ⟨d, sha, rfl, inHand, -⟩ := taken _ inside
      exact ⟨d, rfl, inHand, surveyed d⟩
    | _ => cases touched
  obtain ⟨d, root, inHand, known⟩ := inHand
  rw [root]
  exact (after.found d inHand.1 known).trans (congrArg some inHand.2)

/-- The disk is whole after every effect, and only directories that may be rewritten are ever
touched, however the runner fares: events may come in any order, writes may fail, and answers
may be late, doubled or lost, as long as none is so late that its tag is in use again. -/
theorem installed_index_intact (disk : Disk) (intact : Intact disk) (moves : List Move)
    (fair : ∀ e ∈ history Home.step (start disk) moves, Fair e)
    (prompt : ∀ e ∈ history Home.step (start disk) moves, e.before.Prompt e.input) :
    ∀ e ∈ history Home.step (start disk) moves,
      (∀ k, Intact (executed e.input.lands e.before.disk (e.answer.take k))) ∧
        ∀ fx ∈ e.answer, ∀ at_, fx.touched = some at_ → e.after.found at_.root = some .writable := by
  have kept := @history_holds _ _ _ Home.step _ moves
    (fun e => Fair e ∧ e.before.Prompt e.input) (Kept True)
    (fun h m fits kept => (kept.step fits.1 fits.2).1) (start_kept (fun _ => intact))
    (fun e member => ⟨fair e member, prompt e member⟩)
  intro e member
  obtain ⟨before, after⟩ := kept e member
  have own := fair e member
  have recent := prompt e member
  rw [mem_history Home.step member] at own recent after ⊢
  exact ⟨(before.step own recent).2 trivial, fun fx inside at_ touched => before.touches after inside touched⟩

end

end Home

namespace Home
section
open HudStore
attribute [local instance] sampleHome

def nowhere : Disk := fun _ => none

theorem nowhere_intact : Intact nowhere := fun _ _ held => nomatch held

/-- An empty directory, and the empty package installed in it. -/
def installing : List Move :=
  [⟨.refresh oneDir "", 0, true⟩, ⟨.read ⟨1⟩ (.error .missing), 1, true⟩, ⟨.scanned ⟨3⟩ (.ok []), 3, true⟩,
    ⟨.install [] .drop 0, 0, true⟩, ⟨.validated ⟨4⟩ emptySha (.loadable sampleMeta), 4, true⟩,
    ⟨.written ⟨5⟩ .done, 5, true⟩]

theorem installed_index_intact_once : (history Home.step (start nowhere) installing).Forall fun e =>
    Intact (executed e.input.lands e.before.disk (e.answer.take 1)) := by
  have fair : ∀ e ∈ history Home.step (start nowhere) installing, Fair e := by decide +kernel
  have prompt : ∀ e ∈ history Home.step (start nowhere) installing, e.before.Prompt e.input := by decide +kernel
  exact forall_iff_forall_mem.mpr fun e mem => (installed_index_intact nowhere nowhere_intact installing fair prompt e mem).1 1

/-- A refresh with no directory draws one tag and asks for nothing. -/
def idleRefresh : Move := ⟨.refresh ⟨[], 1⟩ "", 0, true⟩

/-- A home whose store has only drawn tags. -/
def drawing (h : Home) (tags : Nat) : Home :=
  ⟨{ HudStore.new with setup := ⟨[], 1⟩, tags := tags, catalog := h.store.catalog }, h.disk, h.asked, h.found, h.wrote⟩

theorem turn_idleRefresh (s : HudStore) : s.turn idleRefresh.event =
    ({ HudStore.new with setup := ⟨[], 1⟩, tags := s.tags + 1, catalog := s.catalog }, .yes, s.displaced.2) := by
  have listed : s.beginListing ⟨[], 1⟩ "" =
      ({ HudStore.new with setup := ⟨[], 1⟩, tags := s.tags + 1, catalog := s.catalog }, s.displaced.2) := by
    have none_ : (s.forgotten ⟨[], 1⟩ "").reclaim s.displaced.1 = [] := reclaim_nowhere _ rfl
    show (_, s.displaced.2 ++ ((s.forgotten ⟨[], 1⟩ "").reclaim s.displaced.1 ++ [])) = _
    rw [none_, nil_append, append_nil]
    rfl
  unfold turn HudStore.step reduce
  simp only [idleRefresh, listed]
  rfl

theorem displaced_still (s : HudStore) : ∀ e ∈ s.displaced.2, e.still = true := by
  intro e mem
  unfold displaced at mem
  split at mem
  · cases mem
  · cases mem
  all_goals
    rw [mem_singleton.mp mem]
    rfl

theorem idleRefresh_step (h : Home) : (h.step idleRefresh).1 = h.drawing (h.store.tags + 1) := by
  have still := displaced_still h.store
  have unwritten : h.store.displaced.2.filterMap (packWritten true) = [] :=
    filterMap_eq_nil_iff.mpr (fun e mem => by
      have own := still e mem
      cases e <;> first | rfl | cases own)
  unfold Home.step
  simp only [turn_idleRefresh]
  rw [executed_still still, askedOf_quiet (requests_still still), show idleRefresh.lands = true from rfl, unwritten,
    append_nil, append_nil]
  rfl

theorem idleRefresh_run (h : Home) (n : Nat) :
    run Home.step h (List.replicate (n + 1) idleRefresh) = h.drawing (h.store.tags + (n + 1)) ∧
      ∀ e ∈ history Home.step h (List.replicate (n + 1) idleRefresh), Fair e := by
  induction n generalizing h with
  | zero =>
    refine ⟨idleRefresh_step h, fun e mem => ?_⟩
    cases mem_singleton.mp mem
    refine ⟨nodup_nil, ?_⟩
    show Legible (h.step idleRefresh).1
    rw [idleRefresh_step]
    exact nofun
  | succ n ih =>
    obtain ⟨last, fair⟩ := ih (h.step idleRefresh).1
    constructor
    · refine last.trans ?_
      rw [idleRefresh_step]
      show h.drawing (h.store.tags + 1 + (n + 1)) = _
      rw [Nat.add_assoc, Nat.add_comm 1]
    · intro e mem
      rcases mem_cons.mp mem with rfl | later
      · refine ⟨nodup_nil, ?_⟩
        show Legible (h.step idleRefresh).1
        rw [idleRefresh_step]
        exact nofun
      · exact fair e later

/-- The pack write of an install that a refresh displaces is refused, and not answered. -/
def opening : List Move :=
  [⟨.refresh oneDir "", 0, true⟩, ⟨.read ⟨1⟩ (.error .missing), 1, true⟩, ⟨.scanned ⟨3⟩ (.ok []), 3, true⟩,
    ⟨.install [] .drop 0, 0, true⟩, ⟨.validated ⟨4⟩ emptySha (.loadable sampleMeta), 4, false⟩]

/-- The same install again, when every tag has been drawn; the answer of back then is taken for
that of the index. -/
def closing : List Move :=
  [⟨.refresh oneDir "", 0, true⟩, ⟨.read ⟨0⟩ (.error .missing), 2 ^ 32, true⟩, ⟨.scanned ⟨2⟩ (.ok []), 2 ^ 32 + 2, true⟩,
    ⟨.install [] .drop 0, 0, true⟩, ⟨.validated ⟨3⟩ emptySha (.loadable sampleMeta), 2 ^ 32 + 3, true⟩,
    ⟨.written ⟨4⟩ .done, 2 ^ 32 + 4, true⟩, ⟨.written ⟨5⟩ .refused, 5, true⟩]

def wrapped : List Move := opening ++ List.replicate (2 ^ 32 - 7 + 1) idleRefresh ++ closing

def halfway : Home := (run Home.step (start nowhere) opening).drawing (2 ^ 32 - 1)

theorem opening_fair : ∀ e ∈ history Home.step (start nowhere) opening, Fair e := by decide +kernel

theorem closing_fair : ∀ e ∈ history Home.step halfway closing, Fair e := by decide +kernel

/-- An answer so late that its tag is in use again breaks an index. -/
theorem late_answer_breaks_index : Intact nowhere ∧ (∀ e ∈ history Home.step (start nowhere) wrapped, Fair e) ∧
    ¬ Intact (run Home.step (start nowhere) wrapped).disk := by
  obtain ⟨middle, fair⟩ := idleRefresh_run (run Home.step (start nowhere) opening) (2 ^ 32 - 7)
  have tags : (run Home.step (start nowhere) opening).store.tags + (2 ^ 32 - 7 + 1) = 2 ^ 32 - 1 := by decide +kernel
  rw [tags] at middle
  have there : run Home.step (start nowhere) (opening ++ List.replicate (2 ^ 32 - 7 + 1) idleRefresh) = halfway := by
    rw [run_append, middle]
    rfl
  refine ⟨nowhere_intact, ?_, ?_⟩
  · intro e member
    unfold wrapped at member
    rw [history_append, history_append, there] at member
    rcases mem_append.mp member with front | last
    · rcases mem_append.mp front with first | second
      · exact opening_fair e first
      · exact fair e second
    · exact closing_fair e last
  · unfold wrapped
    rw [run_append, there]
    intro intact
    have index : (run Home.step halfway closing).disk ⟨["media"], indexFile⟩ = some (indexBytes sampleIndex) := by
      decide +kernel
    have pack : (run Home.step halfway closing).disk ⟨["media"], packRel emptySha⟩ = none := by decide +kernel
    have named : Index.names (parseIndex (indexBytes sampleIndex)).index emptySha = true := by decide +kernel
    obtain ⟨bytes, held, -⟩ := intact _ _ index emptySha (Index.names_iff.mp named)
    exact absurd (pack.symm.trans held) nofun

end
end Home
end PlxNative.Hud
