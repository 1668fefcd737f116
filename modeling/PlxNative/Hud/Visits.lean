import PlxNative.Hud.Catalog
import PlxNative.Lib.Transducer

/-! Only a settings visit dials the registry, once a day, and the attempt is recorded first. -/
namespace PlxNative.Hud.Catalog
open List Transducer
open Transducer (history run latest)

section
variable {c t : Catalog} {fx : List CatalogEffect}

/-- What reading the caches from some candidate on comes to. -/
inductive Reads (c : Catalog) : Catalog → List CatalogEffect → Prop
  | goes (at_ : Nat) (from_ : Loc) : Reads c { c with phase := .reading at_ } [.read c.generation from_]
  | rests : Reads c { c with phase := .idle } []
  | writes (allowed : c.allowFetch = true) (due : c.due = true) {candidate : Candidate} (first : c.candidates[0]? = some candidate)
      (snapshot : Snapshot) {record : CacheRecord} (attempted : record.attemptedAt = some c.now) :
      Reads c { c with attemptedAt := some c.now, snapshot, phase := .writing 0 true } [.write c.generation (cacheAt candidate) record]
  | dials (allowed : c.allowFetch = true) (due : c.due = true) (none_ : c.candidates[0]? = none) (snapshot : Snapshot) :
      Reads c { c with attemptedAt := some c.now, snapshot, phase := .fetching } [.get c.generation c.etag]

theorem read_reads (c : Catalog) (at_ : Nat) : Reads c (c.read at_).1 (c.read at_).2 := by
  unfold Catalog.read
  split
  case h_1 candidate _ => exact .goes at_ (cacheAt candidate)
  case h_2 =>
    split
    case isFalse => exact .rests
    case isTrue both =>
      obtain ⟨allowed, due⟩ := Bool.and_eq_true_iff.mp both
      unfold Catalog.write
      split
      case h_1 candidate first => exact .writes allowed due first _ rfl
      case h_2 none_ => exact .dials allowed due none_ _

/-- One event, and what it does to the visit. -/
inductive Turn (c : Catalog) : Event → Catalog → Bool → List CatalogEffect → Prop
  | ignored {ev : Event} (busy : ∀ candidates now, ev = .open_ candidates now → c.phase ≠ .idle ∧ ∀ at_, c.phase ≠ .reading at_) : Turn c ev c false []
  | loads (candidates : List Candidate) (idle : c.phase = .idle) (generation : Nat) (phase : Phase) (apart : ∀ at_ fetch, phase ≠ .writing at_ fetch)
      {t : Catalog} {fx : List CatalogEffect} (same : t = { c with generation, candidates, allowFetch := false, phase })
      (quiet : ∀ effect ∈ fx, ∃ tag from_, effect = .read tag from_) : Turn c (.load candidates) t true fx
  | joins (candidates : List Candidate) (now at_ : Nat) (reading : c.phase = .reading at_) :
      Turn c (.open_ candidates now) { c with allowFetch := true, now } false []
  | opens (candidates : List Candidate) (now : Nat) (idle : c.phase = .idle) (generation : Nat) {t : Catalog} {fx : List CatalogEffect}
      (reads : Reads { c with allowFetch := true, now, generation, candidates } t fx) : Turn c (.open_ candidates now) t true fx
  | reads (tag at_ : Nat) (result : Except ReadError CacheRecord) (reading : c.phase = .reading at_) {mid t : Catalog} {fx : List CatalogEffect}
      (adopted : mid = c ∨ ∃ cache, result = .ok cache ∧ mid = c.adopt cache) (reads : Reads mid t fx) : Turn c (.read tag result) t true fx
  | replied (result : Except Unit Reply) (fetching : c.phase = .fetching) (snapshot : Snapshot) (etag : Option String) (body : String) (phase : Phase)
      (apart : ∀ at_, phase ≠ .writing at_ true) (left : phase ≠ .fetching) (reading : ∀ at_, phase ≠ .reading at_) {t : Catalog}
      {fx : List CatalogEffect} (same : t = { c with snapshot, etag, body, phase }) (quiet : ∀ tag etag, .get tag etag ∉ fx) :
      Turn c (.reply c.generation result) t true fx
  | finished (tag at_ : Nat) (outcome : WriteOutcome) (writing : c.phase = .writing at_ false) (phase : Phase) (apart : ∀ at_, phase ≠ .writing at_ true)
      (left : phase ≠ .fetching) (reading : ∀ at_, phase ≠ .reading at_) {fx : List CatalogEffect} (quiet : ∀ tag etag, .get tag etag ∉ fx) :
      Turn c (.written tag outcome) { c with phase } true fx
  | done (at_ : Nat) (writing : c.phase = .writing at_ true) :
      Turn c (.written c.generation .done) { c with phase := .fetching } true [.get c.generation c.etag]
  | moves (at_ : Nat) (writing : c.phase = .writing at_ true) {candidate : Candidate} (next : c.candidates[at_ + 1]? = some candidate) :
      Turn c (.written c.generation .refused) { c with phase := .writing (at_ + 1) true } true [.write c.generation (cacheAt candidate) c.record]
  | exhausts (at_ : Nat) (writing : c.phase = .writing at_ true) (none_ : c.candidates[at_ + 1]? = none) :
      Turn c (.written c.generation .refused) { c with phase := .fetching } true [.get c.generation c.etag]

theorem answered_keeps (c : Catalog) (reply : Reply) :
    (∃ snapshot etag body, (c.answered reply).1 = { c with snapshot, etag, body }) ∧ ∀ tag etag, .get tag etag ∉ (c.answered reply).2 := by
  unfold Catalog.answered
  split
  · exact ⟨⟨_, _, _, rfl⟩, fun _ _ => not_mem_nil⟩
  · split
    · exact ⟨⟨_, _, _, rfl⟩, fun _ _ => not_mem_nil⟩
    · exact ⟨⟨_, _, _, rfl⟩, fun _ _ mem => nomatch mem_singleton.mp mem⟩
    · split
      · exact ⟨⟨_, _, _, rfl⟩, fun _ _ => not_mem_nil⟩
      · exact ⟨⟨_, _, _, rfl⟩, fun _ _ mem => nomatch mem_singleton.mp mem⟩

theorem write_quiet (c : Catalog) (at_ : Nat) : (∃ phase, (c.write at_ false).1 = { c with phase } ∧ (∀ at_, phase ≠ .writing at_ true) ∧
    phase ≠ .fetching ∧ ∀ at_, phase ≠ .reading at_) ∧ ∀ tag etag, .get tag etag ∉ (c.write at_ false).2 := by
  unfold Catalog.write
  split
  · exact ⟨⟨_, rfl, nofun, nofun, nofun⟩, fun _ _ mem => nomatch mem_singleton.mp mem⟩
  · exact ⟨⟨_, rfl, nofun, nofun, nofun⟩, fun _ _ => not_mem_nil⟩

theorem read_unallowed {c : Catalog} (unallowed : c.allowFetch = false) (at_ : Nat) :
    (∃ phase, (c.read at_).1 = { c with phase } ∧ ∀ at_ fetch, phase ≠ .writing at_ fetch) ∧
      ∀ effect ∈ (c.read at_).2, ∃ tag from_, effect = .read tag from_ := by
  unfold Catalog.read
  split
  · exact ⟨⟨_, rfl, nofun⟩, fun effect mem => ⟨_, _, mem_singleton.mp mem⟩⟩
  · rw [unallowed, Bool.false_and, if_neg Bool.false_ne_true]
    exact ⟨⟨_, rfl, nofun⟩, fun _ mem => nomatch mem⟩

theorem step_turn (c : Catalog) (ev : Event) : Turn c ev (c.step ev).1 (c.step ev).2.1 (c.step ev).2.2 := by
  cases ev with
  | load candidates =>
    unfold Catalog.step
    simp only
    split
    case isTrue idle =>
      obtain ⟨⟨phase, eq, apart⟩, quiet⟩ := read_unallowed
        (c := { c with generation := c.nextGeneration, candidates := candidates, allowFetch := false }) rfl 0
      exact .loads candidates idle _ phase apart eq quiet
    case isFalse => exact .ignored nofun
  | open_ candidates now =>
    unfold Catalog.step
    cases phase : c.phase with
    | idle => exact .opens candidates now phase c.nextGeneration (read_reads _ 0)
    | reading at_ =>
      have joined := Turn.joins (c := c) candidates now at_ phase
      rw [phase] at joined
      exact joined
    | fetching => exact .ignored fun _ _ _ => by rw [phase]; exact ⟨nofun, nofun⟩
    | writing at_ fetch => exact .ignored fun _ _ _ => by rw [phase]; exact ⟨nofun, nofun⟩
  | read tag result =>
    unfold Catalog.step
    simp only
    split
    case h_1 at_ reading =>
      split
      case isTrue =>
        cases result with
        | ok cache => exact .reads tag at_ _ reading (.inr ⟨cache, rfl, rfl⟩) (read_reads _ _)
        | error why => exact .reads tag at_ _ reading (.inl rfl) (read_reads _ _)
      case isFalse => exact .ignored nofun
    case h_2 => exact .ignored nofun
  | reply tag result =>
    unfold Catalog.step
    simp only
    split
    case isTrue both =>
      obtain ⟨rfl, fetching⟩ := both
      cases result with
      | ok reply =>
        obtain ⟨⟨snapshot, etag, body, eq⟩, quiet⟩ := answered_keeps c.failedRefresh reply
        obtain ⟨⟨phase, wrote, apart, left, reading⟩, silent⟩ := write_quiet (c.failedRefresh.answered reply).1 0
        refine .replied _ fetching snapshot etag body phase apart left reading ?_ (fun tag etag mem => ?_)
        · rw [wrote, eq]
          rfl
        · exact (mem_append.mp mem).elim (quiet tag etag) (silent tag etag)
      | error why =>
        obtain ⟨⟨phase, wrote, apart, left, reading⟩, silent⟩ := write_quiet c.failedRefresh 0
        refine .replied _ fetching c.failedRefresh.snapshot c.etag c.body phase apart left reading ?_ silent
        rw [wrote]
        rfl
    case isFalse => exact .ignored nofun
  | written tag outcome =>
    unfold Catalog.step
    simp only
    split
    case h_1 at_ fetch writing =>
      split
      case isTrue eq =>
        subst eq
        cases fetch with
        | false =>
          cases outcome with
          | done => exact .finished _ at_ _ writing .idle nofun nofun nofun (fun _ _ => not_mem_nil)
          | refused =>
            obtain ⟨⟨phase, wrote, apart, left, reading⟩, silent⟩ := write_quiet c (at_ + 1)
            have finished := Turn.finished c.generation at_ .refused writing phase apart left reading silent
            rw [← wrote] at finished
            exact finished
        | true =>
          cases outcome with
          | done => exact .done at_ writing
          | refused =>
            simp only [Catalog.write]
            split
            case h_1 candidate next => exact .moves at_ writing next
            case h_2 none_ => exact .exhausts at_ writing none_
      case isFalse => exact .ignored nofun
    case h_2 => exact .ignored nofun

end

/-- One event of a run, with the effects it had. -/
abbrev Happened : Type := Transducer.Event Catalog Event (Bool × List CatalogEffect)

def Opened (e : Happened) (now : Nat) : Prop := ∃ candidates, e.input = .open_ candidates now

def Loaded (e : Happened) : Prop := ∃ candidates, e.input = .load candidates ∧ e.answer.1 = true

def Gets (e : Happened) (tag : Nat) : Prop := ∃ etag, .get tag etag ∈ e.answer.2

/-- The attempt was written to a candidate. -/
def Wrote (events : List Happened) (c : Catalog) (at_ : Nat) : Prop :=
  ∃ candidate, c.candidates[at_]? = some candidate ∧
    ∃ g ∈ events, ∃ record, .write c.generation (cacheAt candidate) record ∈ g.answer.2 ∧ record.attemptedAt = some c.now

/-- The candidate refused the attempt that was written to it. -/
def RefusedBy (events : List Happened) (c : Catalog) (at_ : Nat) : Prop :=
  ∃ before h after, events = before ++ h :: after ∧ Wrote before c at_ ∧ h.before.phase = .writing at_ true ∧
    h.input = .written c.generation .refused

/-- The events from the opening that this visit's time is from; no load is accepted among them. -/
def Since (past : List Happened) (now : Nat) (later : List Happened) : Prop :=
  ∃ before o rest, past = before ++ later ∧ later = o :: rest ∧ Opened o now ∧ ∀ g ∈ later, ¬ Loaded g

section
variable {past later : List Happened} {c t mid : Catalog} {now at_ : Nat} {e : Happened} {fx : List CatalogEffect}

theorem Since.snoc (since : Since past now later) (unloaded : ¬ Loaded e) : Since (past ++ [e]) now (later ++ [e]) := by
  obtain ⟨before, o, rest, rfl, rfl, opened, none_⟩ := since
  refine ⟨before, o, rest ++ [e], append_assoc _ _ _, rfl, opened, fun g mem => ?_⟩
  rcases mem_append.mp mem with old | new
  · exact none_ g old
  · rw [mem_singleton.mp new]
    exact unloaded

theorem since_opened (past : List Happened) (opened : Opened e now) : Since (past ++ [e]) now [e] := by
  refine ⟨past, e, [], rfl, rfl, opened, fun g mem => ?_⟩
  rw [mem_singleton.mp mem]
  rintro ⟨candidates, eq, -⟩
  obtain ⟨others, here⟩ := opened
  rw [eq] at here
  cases here

theorem Wrote.snoc (wrote : Wrote later c at_) (e : Happened) : Wrote (later ++ [e]) c at_ := by
  obtain ⟨candidate, held, g, mem, told⟩ := wrote
  exact ⟨candidate, held, g, mem_append_left _ mem, told⟩

theorem RefusedBy.snoc (refused : RefusedBy later c at_) (e : Happened) : RefusedBy (later ++ [e]) c at_ := by
  obtain ⟨before, h, after, rfl, told⟩ := refused
  exact ⟨before, h, after ++ [e], by rw [append_assoc, cons_append], told⟩

/-- What is recorded of a visit: while it may fetch, the opening its time is from; while it writes
the attempt that a request follows, the writes so far. -/
structure Recorded (past : List Happened) (c : Catalog) : Prop where
  allowed : c.allowFetch = true → ∃ later, Since past c.now later
  writing : ∀ at_, c.phase = .writing at_ true → c.attemptedAt = some c.now ∧
    ∃ later, Since past c.now later ∧ Wrote later c at_ ∧ ∀ i < at_, RefusedBy later c i

/-- The attempt was recorded before the request: one candidate has it, or all of them refused it. -/
def Attempted (past : List Happened) (f : Happened) : Prop :=
  ∃ later, Since (past ++ [f]) f.after.now later ∧
    ((∃ at_, Wrote later f.after at_ ∧ f.before.phase = .writing at_ true ∧ f.input = .written f.after.generation .done) ∨
      ∀ i < f.after.candidates.length, RefusedBy later f.after i)

theorem not_loaded (other : ∀ candidates, e.input ≠ .load candidates) : ¬ Loaded e := fun ⟨candidates, eq, _⟩ => other candidates eq

theorem Reads.recorded (reads : Reads mid t fx) (effects : e.answer.2 = fx) (after : e.after = t)
    (since : mid.allowFetch = true → ∃ later, Since (past ++ [e]) mid.now later ∧ e ∈ later) :
    Recorded (past ++ [e]) t ∧ ∀ tag, Gets e tag → Attempted past e := by
  have allowed (allow : mid.allowFetch = true) : ∃ later, Since (past ++ [e]) mid.now later := (since allow).imp fun _ both => both.1
  cases reads with
  | goes at_ from_ =>
    refine ⟨⟨allowed, nofun⟩, fun tag ⟨etag, got⟩ => ?_⟩
    rw [effects] at got
    cases mem_singleton.mp got
  | rests =>
    refine ⟨⟨allowed, nofun⟩, fun tag ⟨etag, got⟩ => ?_⟩
    rw [effects] at got
    cases got
  | writes allow due first snapshot attempted =>
    obtain ⟨later, behind, here⟩ := since allow
    refine ⟨⟨allowed, fun at_ eq => ?_⟩, fun tag ⟨etag, got⟩ => ?_⟩
    · cases eq
      refine ⟨rfl, later, behind, ⟨_, first, e, here, _, ?_, attempted⟩, fun i negative => absurd negative (Nat.not_lt_zero i)⟩
      rw [effects]
      exact mem_singleton_self _
    · rw [effects] at got
      cases mem_singleton.mp got
  | dials allow due none_ snapshot =>
    obtain ⟨later, behind, here⟩ := since allow
    refine ⟨⟨allowed, nofun⟩, fun tag _ => ?_⟩
    unfold Attempted
    rw [after]
    refine ⟨later, behind, .inr fun i small => ?_⟩
    exact absurd small (Nat.not_lt.mpr ((List.getElem?_eq_none_iff.mp none_).trans (Nat.zero_le i)))

theorem Recorded.allowed_snoc (recorded : Recorded past c) (unloaded : ¬ Loaded e) (allow : c.allowFetch = true) :
    ∃ later, Since (past ++ [e]) c.now later ∧ e ∈ later := by
  obtain ⟨later, since⟩ := recorded.allowed allow
  exact ⟨later ++ [e], since.snoc unloaded, mem_append_right _ (mem_singleton_self e)⟩

theorem adopt_frame (c : Catalog) (cache : CacheRecord) : (c.adopt cache).allowFetch = c.allowFetch ∧ (c.adopt cache).now = c.now ∧
    (c.adopt cache).phase = c.phase ∧ (c.adopt cache).candidates = c.candidates := by
  unfold adopt
  split <;> exact ⟨rfl, rfl, rfl, rfl⟩

theorem none_got (effects : e.answer.2 = []) (tag : Nat) : ¬ Gets e tag := by
  rintro ⟨etag, got⟩
  rw [effects] at got
  cases got

theorem Turn.recorded {ev : Event} {taken : Bool} (turn : Turn c ev t taken fx) (recorded : Recorded past c) (input : e.input = ev)
    (before : e.before = c) (answer : e.answer = (taken, fx)) (after : e.after = t) :
    Recorded (past ++ [e]) t ∧ ∀ tag, Gets e tag → Attempted past e := by
  have effects : e.answer.2 = fx := congrArg Prod.snd answer
  have other {ev' : Event} (eq : e.input = ev') (apart : ∀ candidates, ev' ≠ .load candidates) : ¬ Loaded e :=
    not_loaded fun candidates here => apart candidates (eq.symm.trans here)
  have kept (unloaded : ¬ Loaded e) : Recorded (past ++ [e]) c := by
    refine ⟨fun allow => (recorded.allowed_snoc unloaded allow).imp fun _ both => both.1, fun at_ writing => ?_⟩
    obtain ⟨attempted, later, since, wrote, refused⟩ := recorded.writing at_ writing
    exact ⟨attempted, later ++ [e], since.snoc unloaded, wrote.snoc e, fun i small => (refused i small).snoc e⟩
  cases turn with
  | ignored busy =>
    refine ⟨kept ?_, fun tag got => absurd got (none_got effects tag)⟩
    rintro ⟨candidates, -, taken⟩
    rw [answer] at taken
    cases taken
  | loads candidates idle generation phase apart eq quiet =>
    subst eq
    refine ⟨⟨nofun, fun at_ writing => absurd writing (apart at_ true)⟩, fun tag ⟨etag, got⟩ => ?_⟩
    rw [effects] at got
    obtain ⟨_, _, eq⟩ := quiet _ got
    cases eq
  | joins candidates now at_ reading =>
    refine ⟨⟨fun _ => ⟨[e], since_opened past ⟨candidates, input⟩⟩, fun at_ writing => ?_⟩, fun tag got => absurd got (none_got effects tag)⟩
    rw [reading] at writing
    cases writing
  | opens candidates now idle generation reads =>
    exact reads.recorded effects after fun _ => ⟨[e], since_opened past ⟨candidates, input⟩, mem_singleton_self e⟩
  | reads tag at_ result reading adopted reads =>
    refine reads.recorded effects after fun allow => ?_
    rcases adopted with rfl | ⟨cache, -, rfl⟩
    · exact recorded.allowed_snoc (other input nofun) allow
    · obtain ⟨allowed, now, -, -⟩ := adopt_frame c cache
      rw [now]
      exact recorded.allowed_snoc (other input nofun) (by rw [← allowed]; exact allow)
  | replied result fetching snapshot etag body phase apart left reading eq quiet =>
    subst eq
    refine ⟨⟨(kept (other input nofun)).allowed, fun at_ writing => absurd writing (apart at_)⟩, fun tag ⟨etag, got⟩ => ?_⟩
    rw [effects] at got
    exact absurd got (quiet tag etag)
  | finished tag at_ outcome writing phase apart left reading quiet =>
    refine ⟨⟨(kept (other input nofun)).allowed, fun at_ writing => absurd writing (apart at_)⟩, fun tag ⟨etag, got⟩ => ?_⟩
    rw [effects] at got
    exact absurd got (quiet tag etag)
  | done at_ writing =>
    have kept := kept (other input nofun)
    obtain ⟨-, later, since, wrote, -⟩ := kept.writing at_ writing
    refine ⟨⟨kept.allowed, nofun⟩, fun tag _ => ?_⟩
    unfold Attempted
    rw [after, before]
    exact ⟨later, since, .inl ⟨at_, wrote, writing, input⟩⟩
  | moves at_ writing next =>
    obtain ⟨attempted, later, since, wrote, refused⟩ := recorded.writing at_ writing
    have unloaded := other input nofun
    refine ⟨⟨(kept unloaded).allowed, fun at_' eq => ?_⟩, fun tag ⟨etag, got⟩ => ?_⟩
    · cases eq
      refine ⟨attempted, later ++ [e], since.snoc unloaded, ⟨_, next, e, mem_append_right _ (mem_singleton_self e), c.record, ?_, attempted⟩, ?_⟩
      · rw [effects]
        exact mem_singleton_self _
      · intro i small
        rcases Nat.lt_succ_iff_lt_or_eq.mp small with earlier | rfl
        · exact (refused i earlier).snoc e
        · exact ⟨later, e, [], rfl, wrote, by rw [before]; exact writing, input⟩
    · rw [effects] at got
      cases mem_singleton.mp got
  | exhausts at_ writing none_ =>
    obtain ⟨attempted, later, since, wrote, refused⟩ := recorded.writing at_ writing
    have unloaded := other input nofun
    refine ⟨⟨(kept unloaded).allowed, nofun⟩, fun tag _ => ?_⟩
    unfold Attempted
    rw [after, before]
    refine ⟨later ++ [e], since.snoc unloaded, .inr fun i small => ?_⟩
    have last : c.candidates.length ≤ at_ + 1 := List.getElem?_eq_none_iff.mp none_
    rcases Nat.lt_succ_iff_lt_or_eq.mp (Nat.lt_of_lt_of_le small last) with earlier | rfl
    · exact (refused i earlier).snoc e
    · exact ⟨later, e, [], rfl, wrote, by rw [before]; exact writing, input⟩

theorem recorded_start : Recorded [] Catalog.new := ⟨nofun, nofun⟩

theorem history_recorded (inputs : List Event) : Recorded (history Catalog.step Catalog.new inputs) (run Catalog.step Catalog.new inputs) ∧
    ∀ before f rest, history Catalog.step Catalog.new inputs = before ++ f :: rest → ∀ tag, Gets f tag → Attempted before f := by
  refine history_invariant Catalog.step (R := fun past c => Recorded past c ∧
    ∀ before f rest, past = before ++ f :: rest → ∀ tag, Gets f tag → Attempted before f) (fun past c ev both => ?_) ⟨recorded_start, ?_⟩ inputs
  · obtain ⟨recorded, before⟩ := both
    obtain ⟨next, asks⟩ := (step_turn c ev).recorded recorded (e := Transducer.event Catalog.step c ev) rfl rfl rfl rfl
    refine ⟨next, fun front f rest split => ?_⟩
    rcases snoc_split split with ⟨rfl, rfl, rfl⟩ | ⟨middle, rfl, eq⟩
    · exact asks
    · exact before front f middle eq
  · intro before f rest split
    cases before <;> cases split

end
section
variable {c t : Catalog} {ev : Event} {taken : Bool} {fx : List CatalogEffect} {e : Happened}

def isGet : CatalogEffect → Bool
  | .get .. => true
  | _ => false

theorem Turn.gets (turn : Turn c ev t taken fx) {tag : Nat} {etag : Option String} (got : .get tag etag ∈ fx) :
    c.phase ≠ .fetching ∧ t.phase = .fetching ∧ tag = t.generation ∧ fx.countP isGet ≤ 1 := by
  have read {mid : Catalog} (reads : Reads mid t fx) : t.phase = .fetching ∧ tag = t.generation ∧ fx.countP isGet ≤ 1 := by
    cases reads with
    | goes at_ from_ => cases mem_singleton.mp got
    | rests => cases got
    | writes allow due first snapshot attempted => cases mem_singleton.mp got
    | dials allow due none_ snapshot =>
      cases mem_singleton.mp got
      exact ⟨rfl, rfl, Nat.le_refl 1⟩
  cases turn with
  | ignored busy => cases got
  | loads candidates idle generation phase apart eq quiet =>
    obtain ⟨_, _, eq⟩ := quiet _ got
    cases eq
  | joins candidates now at_ reading => cases got
  | opens candidates now idle generation reads => exact ⟨by rw [idle]; nofun, read reads⟩
  | reads tag at_ result reading adopted reads => exact ⟨by rw [reading]; nofun, read reads⟩
  | replied result fetching snapshot etag body phase apart left reading eq quiet => exact absurd got (quiet _ _)
  | finished tag at_ outcome writing phase apart left reading quiet => exact absurd got (quiet _ _)
  | done at_ writing =>
    cases mem_singleton.mp got
    exact ⟨by rw [writing]; nofun, rfl, rfl, Nat.le_refl 1⟩
  | moves at_ writing next => cases mem_singleton.mp got
  | exhausts at_ writing none_ =>
    cases mem_singleton.mp got
    exact ⟨by rw [writing]; nofun, rfl, rfl, Nat.le_refl 1⟩

theorem Turn.waits (turn : Turn c ev t taken fx) (fetching : c.phase = .fetching) :
    t = c ∨ ∃ result, ev = .reply c.generation result ∧ taken = true := by
  cases turn with
  | ignored busy => exact .inl rfl
  | replied result _ snapshot etag body phase apart left reading eq quiet => exact .inr ⟨result, rfl, rfl⟩
  | loads candidates idle => exact absurd (idle.symm.trans fetching) nofun
  | opens candidates now idle => exact absurd (idle.symm.trans fetching) nofun
  | joins candidates now at_ reading => exact absurd (reading.symm.trans fetching) nofun
  | reads tag at_ result reading => exact absurd (reading.symm.trans fetching) nofun
  | finished tag at_ outcome writing => exact absurd (writing.symm.trans fetching) nofun
  | done at_ writing => exact absurd (writing.symm.trans fetching) nofun
  | moves at_ writing => exact absurd (writing.symm.trans fetching) nofun
  | exhausts at_ writing => exact absurd (writing.symm.trans fetching) nofun

/-- The answer to a request that the machine took. -/
def Answered (e : Happened) (tag : Nat) : Prop := ∃ result, e.input = .reply tag result ∧ e.answer.1 = true

theorem waits_run (inputs : List Event) (fetching : c.phase = .fetching) :
    (∃ g ∈ history Catalog.step c inputs, Answered g c.generation) ∨ run Catalog.step c inputs = c := by
  induction inputs with
  | nil => exact .inr rfl
  | cons ev rest ih =>
    rcases (step_turn c ev).waits fetching with eq | ⟨result, eq, taken⟩
    · rw [history, run, eq]
      exact ih.imp_left (Exists.imp fun g => And.imp_left (mem_cons_of_mem _))
    · exact .inl ⟨_, mem_cons_self, result, eq, taken⟩

theorem one_outstanding {inputs : List Event} {before mid later : List Happened} {f : Happened}
    (whole : history Catalog.step Catalog.new inputs = before ++ e :: (mid ++ f :: later)) {tag tag' : Nat} (first : Gets e tag)
    (second : Gets f tag') : ∃ g ∈ mid, Answered g tag := by
  obtain ⟨js, ev, ks, -, -, rfl, rest⟩ := history_split Catalog.step whole
  obtain ⟨js', ev', ks', -, rfl, rfl, -⟩ := history_split Catalog.step rest.symm
  obtain ⟨etag, got⟩ := first
  obtain ⟨etag', got'⟩ := second
  obtain ⟨-, fetching, rfl, -⟩ := (step_turn _ ev).gets got
  rcases waits_run js' fetching with answered | eq
  · exact answered
  · have idle := ((step_turn _ ev').gets got').1
    rw [eq] at idle
    exact absurd fetching idle

theorem one_request {inputs : List Event} (mem : e ∈ history Catalog.step Catalog.new inputs) : e.answer.2.countP isGet ≤ 1 := by
  rw [mem_history Catalog.step mem]
  by_cases some_ : ∃ tag etag, .get tag etag ∈ (e.before.step e.input).2.2
  · obtain ⟨tag, etag, got⟩ := some_
    exact ((step_turn e.before e.input).gets got).2.2.2
  · refine (countP_eq_zero.mpr fun effect listed got => ?_).trans_le (Nat.zero_le 1)
    cases effect with
    | get tag etag => exact some_ ⟨tag, etag, listed⟩
    | read tag at_ => cases got
    | write tag at_ record => cases got
    | refused cause => cases got

end
section
variable {past : List Happened} {c t mid : Catalog} {ev : Event} {taken : Bool} {fx : List CatalogEffect} {e : Happened}

def openedAt (e : Happened) : Option Nat :=
  match e.input with
  | .open_ _ now => some now
  | _ => none

/-- Time does not go back, and no cache remembers an attempt that is still to come. -/
def Timely (past : List Happened) (_c : Catalog) : Event → Prop
  | .open_ _ now => ∀ before, latest openedAt past = some before → before ≤ now
  | .read _ (.ok cache) => ∀ now at_, latest openedAt past = some now → cache.attemptedAt = some at_ → at_ ≤ now
  | _ => True

/-- The last attempt is no older than any request so far, and no younger than the time. -/
def Holds (past : List Happened) (now : Option Nat) (attemptedAt : Option Nat) : Prop :=
  ∀ g ∈ past, ∀ tag, Gets g tag → ∃ at_ latest, attemptedAt = some at_ ∧ now = some latest ∧ g.after.now ≤ at_ ∧ at_ ≤ latest

def Rested (past : List Happened) (now : Nat) : Prop := ∀ g ∈ past, ∀ tag, Gets g tag → g.after.now + refreshSeconds ≤ now

structure Dialed (past : List Happened) (c : Catalog) : Prop where
  seated : ∀ at_, c.phase = .reading at_ → c.allowFetch = true → latest openedAt past = some c.now
  writing : ∀ at_, c.phase = .writing at_ true →
    c.attemptedAt = some c.now ∧ (∃ latest_, latest openedAt past = some latest_ ∧ c.now ≤ latest_) ∧ Rested past c.now
  held : Holds past (latest openedAt past) c.attemptedAt
  apart : past.Pairwise fun e f => ∀ tag tag', Gets e tag → Gets f tag' → e.after.now + refreshSeconds ≤ f.after.now

theorem rested_of_due (held : Holds past (some c.now) c.attemptedAt) (due : c.due = true) : Rested past c.now := by
  intro g mem tag got
  obtain ⟨at_, now, attempted, eq, after, before⟩ := held g mem tag got
  cases eq
  unfold Catalog.due at due
  rw [attempted] at due
  simp only [Bool.or_eq_true, decide_eq_true_eq] at due
  omega

theorem Holds.snoc {now attemptedAt : Option Nat} (held : Holds past now attemptedAt)
    (self : ∀ tag, Gets e tag → ∃ at_ latest, attemptedAt = some at_ ∧ now = some latest ∧ e.after.now ≤ at_ ∧ at_ ≤ latest) :
    Holds (past ++ [e]) now attemptedAt := by
  exact forall_mem_append.mpr ⟨held, forall_mem_singleton.mpr self⟩

theorem Rested.snoc {now : Nat} (rested : Rested past now) (silent : ∀ tag, ¬ Gets e tag) : Rested (past ++ [e]) now := by
  intro g mem tag got
  rcases mem_append.mp mem with old | new
  · exact rested g old tag got
  · rw [mem_singleton.mp new] at got
    exact absurd got (silent tag)

theorem apart_snoc (apart : past.Pairwise fun e f => ∀ tag tag', Gets e tag → Gets f tag' → e.after.now + refreshSeconds ≤ f.after.now)
    (rested : ∀ tag, Gets e tag → Rested past e.after.now) :
    (past ++ [e]).Pairwise fun e f => ∀ tag tag', Gets e tag → Gets f tag' → e.after.now + refreshSeconds ≤ f.after.now := by
  refine pairwise_append.mpr ⟨apart, pairwise_singleton _ _, fun g mem f last tag tag' first second => ?_⟩
  rw [mem_singleton.mp last] at second ⊢
  exact rested tag' second g mem tag first

theorem latest_grows (timely : Timely past c ev) (input : e.input = ev) {now : Nat} (before : latest openedAt past = some now) :
    ∃ latest_, latest openedAt (past ++ [e]) = some latest_ ∧ now ≤ latest_ := by
  rw [latest_snoc]
  unfold openedAt
  rw [input]
  cases ev with
  | open_ candidates later => exact ⟨later, rfl, timely now before⟩
  | load candidates => exact ⟨now, before, Nat.le_refl now⟩
  | read tag result => exact ⟨now, before, Nat.le_refl now⟩
  | reply tag result => exact ⟨now, before, Nat.le_refl now⟩
  | written tag outcome => exact ⟨now, before, Nat.le_refl now⟩

theorem latest_same (input : e.input = ev) (other : ∀ candidates now, ev ≠ .open_ candidates now) :
    latest openedAt (past ++ [e]) = latest openedAt past := by
  rw [latest_snoc]
  unfold openedAt
  rw [input]
  cases ev with
  | open_ candidates later => exact absurd rfl (other candidates later)
  | load candidates => rfl
  | read tag result => rfl
  | reply tag result => rfl
  | written tag outcome => rfl

theorem Holds.later (held : Holds past (latest openedAt past) c.attemptedAt) (timely : Timely past c ev) (input : e.input = ev) :
    Holds past (latest openedAt (past ++ [e])) c.attemptedAt := by
  intro g mem tag got
  obtain ⟨at_, now, attempted, before, after, within⟩ := held g mem tag got
  obtain ⟨later, eq, grown⟩ := latest_grows timely input before
  exact ⟨at_, later, attempted, eq, after, within.trans grown⟩

theorem Reads.dialed (reads : Reads mid t fx) (effects : e.answer.2 = fx) (after : e.after = t)
    (seated : mid.allowFetch = true → latest openedAt (past ++ [e]) = some mid.now)
    (held : Holds past (latest openedAt (past ++ [e])) mid.attemptedAt)
    (apart : past.Pairwise fun e f => ∀ tag tag', Gets e tag → Gets f tag' → e.after.now + refreshSeconds ≤ f.after.now) :
    Dialed (past ++ [e]) t := by
  have silent (none_ : ∀ tag etag, .get tag etag ∉ fx) (tag : Nat) : ¬ Gets e tag := by
    rintro ⟨etag, got⟩
    rw [effects] at got
    exact none_ tag etag got
  cases reads with
  | goes at_ from_ =>
    have quiet := silent fun _ _ got => nomatch mem_singleton.mp got
    exact ⟨fun _ _ => seated, nofun, held.snoc fun tag got => absurd got (quiet tag), apart_snoc apart fun tag got => absurd got (quiet tag)⟩
  | rests =>
    have quiet := silent fun _ _ => not_mem_nil
    exact ⟨nofun, nofun, held.snoc fun tag got => absurd got (quiet tag), apart_snoc apart fun tag got => absurd got (quiet tag)⟩
  | writes allow due first snapshot attempted =>
    have quiet := silent fun _ _ got => nomatch mem_singleton.mp got
    have now := seated allow
    rw [now] at held
    have rested := rested_of_due held due
    refine ⟨nofun, fun _ _ => ⟨rfl, ⟨mid.now, now, Nat.le_refl _⟩, rested.snoc quiet⟩, ?_, apart_snoc apart fun tag got => absurd got (quiet tag)⟩
    rw [now]
    exact Holds.snoc (fun g mem tag got => ⟨mid.now, mid.now, rfl, rfl, (Nat.le_add_right _ _).trans (rested g mem tag got), Nat.le_refl _⟩)
      fun tag got => absurd got (quiet tag)
  | dials allow due none_ snapshot =>
    have now := seated allow
    rw [now] at held
    have rested := rested_of_due held due
    refine ⟨nofun, nofun, ?_, apart_snoc apart fun tag _ => by rw [after]; exact rested⟩
    rw [now]
    exact Holds.snoc (fun g mem tag got => ⟨mid.now, mid.now, rfl, rfl, (Nat.le_add_right _ _).trans (rested g mem tag got), Nat.le_refl _⟩)
      fun tag _ => ⟨mid.now, mid.now, rfl, rfl, by rw [after], Nat.le_refl _⟩

theorem Holds.adopt {now : Option Nat} (held : Holds past now c.attemptedAt) {cache : CacheRecord}
    (known : ∀ latest_ at_, now = some latest_ → cache.attemptedAt = some at_ → at_ ≤ latest_) : Holds past now (c.adopt cache).attemptedAt := by
  unfold Catalog.adopt
  split
  case isFalse => exact held
  case isTrue newer =>
    intro g mem tag got
    obtain ⟨at_, latest_, attempted, eq, after, within⟩ := held g mem tag got
    rw [attempted] at newer
    cases cached : cache.attemptedAt with
    | none =>
      rw [cached] at newer
      exact absurd newer (WithBot.not_coe_le_bot at_)
    | some other =>
      rw [cached] at newer
      have above : at_ ≤ other := WithBot.coe_le_coe.mp newer
      exact ⟨other, latest_, rfl, eq, after.trans above, known latest_ other eq cached⟩

theorem Turn.dialed (turn : Turn c ev t taken fx) (dialed : Dialed past c) (timely : Timely past c ev) (input : e.input = ev)
    (answer : e.answer = (taken, fx)) (after : e.after = t) : Dialed (past ++ [e]) t := by
  have effects : e.answer.2 = fx := congrArg Prod.snd answer
  have silent (none_ : ∀ tag etag, .get tag etag ∉ fx) (tag : Nat) : ¬ Gets e tag := by
    rintro ⟨etag, got⟩
    rw [effects] at got
    exact none_ tag etag got
  have held := dialed.held.later timely input
  have quiet_held (quiet : ∀ tag, ¬ Gets e tag) : Holds (past ++ [e]) (latest openedAt (past ++ [e])) c.attemptedAt :=
    held.snoc fun tag got => absurd got (quiet tag)
  have quiet_apart (quiet : ∀ tag, ¬ Gets e tag) := apart_snoc dialed.apart fun tag got => absurd got (quiet tag)
  have kept (quiet : ∀ tag, ¬ Gets e tag) (at_ : Nat) (writing : c.phase = .writing at_ true) :
      c.attemptedAt = some c.now ∧ (∃ latest_, latest openedAt (past ++ [e]) = some latest_ ∧ c.now ≤ latest_) ∧ Rested (past ++ [e]) c.now := by
    obtain ⟨attempted, ⟨now, before, within⟩, rested⟩ := dialed.writing at_ writing
    obtain ⟨later, eq, grown⟩ := latest_grows timely input before
    exact ⟨attempted, ⟨later, eq, within.trans grown⟩, rested.snoc quiet⟩
  -- A request made where the attempt was recorded as it stands.
  have dials (at_ : Nat) (writing : c.phase = .writing at_ true) (eq : t = { c with phase := .fetching }) : Dialed (past ++ [e]) t := by
    obtain ⟨attempted, ⟨now, before, within⟩, rested⟩ := dialed.writing at_ writing
    obtain ⟨later, latestIs, grown⟩ := latest_grows timely input before
    subst eq
    refine ⟨nofun, nofun, held.snoc fun tag _ => ⟨c.now, later, attempted, latestIs, by rw [after], within.trans grown⟩,
      apart_snoc dialed.apart fun tag _ => by rw [after]; exact rested⟩
  cases turn with
  | ignored busy =>
    have quiet := silent fun _ _ => not_mem_nil
    refine ⟨fun at_ reading allow => ?_, kept quiet, quiet_held quiet, quiet_apart quiet⟩
    rw [latest_same input fun candidates now eq => (busy candidates now eq).2 at_ reading]
    exact dialed.seated at_ reading allow
  | loads candidates idle generation phase apart eq none_ =>
    subst eq
    have quiet := silent fun tag etag got => by
      obtain ⟨_, _, eq⟩ := none_ _ got
      cases eq
    exact ⟨nofun, fun at_ writing => absurd writing (apart at_ true), quiet_held quiet, quiet_apart quiet⟩
  | joins candidates now at_ reading =>
    have quiet := silent fun _ _ => not_mem_nil
    refine ⟨fun _ _ _ => ?_, fun at_ writing => absurd (reading.symm.trans writing) nofun, quiet_held quiet, quiet_apart quiet⟩
    rw [latest_snoc, openedAt, input]
    rfl
  | opens candidates now idle generation reads =>
    refine reads.dialed effects after (fun _ => ?_) held dialed.apart
    rw [latest_snoc, openedAt, input]
    rfl
  | reads tag at_ result reading adopted reads =>
    have eq : latest openedAt (past ++ [e]) = latest openedAt past := latest_same input nofun
    rcases adopted with rfl | ⟨cache, rfl, rfl⟩
    · exact reads.dialed effects after (fun allow => eq.trans (dialed.seated at_ reading allow)) held dialed.apart
    · obtain ⟨allowed, now, -, -⟩ := adopt_frame c cache
      refine reads.dialed effects after (fun allow => ?_) (held.adopt ?_) dialed.apart
      · rw [eq, now]
        exact dialed.seated at_ reading (allowed ▸ allow)
      · rw [eq]
        exact timely
  | replied result fetching snapshot etag body phase apart left reading eq none_ =>
    subst eq
    have quiet := silent none_
    exact ⟨fun at_ phaseIs => absurd phaseIs (reading at_), fun at_ writing => absurd writing (apart at_), quiet_held quiet, quiet_apart quiet⟩
  | finished tag at_ outcome writing phase apart left reading none_ =>
    have quiet := silent none_
    exact ⟨fun at_ phaseIs => absurd phaseIs (reading at_), fun at_ writing => absurd writing (apart at_), quiet_held quiet, quiet_apart quiet⟩
  | done at_ writing => exact dials at_ writing rfl
  | moves at_ writing next =>
    have quiet := silent fun _ _ got => nomatch mem_singleton.mp got
    exact ⟨nofun, fun _ _ => kept quiet at_ writing, quiet_held quiet, quiet_apart quiet⟩
  | exhausts at_ writing none_ => exact dials at_ writing rfl

theorem dialed_start : Dialed [] Catalog.new := ⟨nofun, nofun, fun _ mem => (nomatch mem), .nil⟩

theorem history_dialed {inputs : List Event} (timely : Transducer.Guarded Catalog.step Timely [] Catalog.new inputs) :
    Dialed (history Catalog.step Catalog.new inputs) (run Catalog.step Catalog.new inputs) :=
  guarded_invariant Catalog.step (R := Dialed)
    (fun _ c ev timely dialed => (step_turn c ev).dialed dialed timely (e := Transducer.event Catalog.step c ev) rfl rfl rfl) dialed_start timely

end
section

/-- A request follows an opening that no load was accepted behind, and a recorded attempt of that
opening's time; one is out at a time, and while time does not go back they are a day apart. -/
theorem visits_dial_once_a_day (inputs : List Event) :
    (∀ before f later, history Catalog.step Catalog.new inputs = before ++ f :: later → ∀ tag, Gets f tag → Attempted before f) ∧
      (∀ e ∈ history Catalog.step Catalog.new inputs, e.answer.2.countP isGet ≤ 1) ∧
      (∀ before e mid f later, history Catalog.step Catalog.new inputs = before ++ e :: (mid ++ f :: later) →
        ∀ tag tag', Gets e tag → Gets f tag' → ∃ g ∈ mid, Answered g tag) ∧
      (Transducer.Guarded Catalog.step Timely [] Catalog.new inputs →
        ∀ before e mid f later, history Catalog.step Catalog.new inputs = before ++ e :: (mid ++ f :: later) →
          ∀ tag tag', Gets e tag → Gets f tag' → e.after.now + refreshSeconds ≤ f.after.now) := by
  refine ⟨(history_recorded inputs).2, fun e member => one_request member, fun before e mid f later whole tag tag' first second =>
    one_outstanding whole first second, fun timely before e mid f later whole tag tag' first second => ?_⟩
  have apart := (history_dialed timely).apart
  rw [whole] at apart
  have behind := (pairwise_append.mp apart).2.1
  exact rel_of_pairwise_cons behind (mem_append_right _ mem_cons_self) tag tag' first second

/-- Two visits a day apart, with nowhere to remember an attempt. -/
def twoVisits : List Event := [.open_ [] 100, .reply 1 (.error ()), .open_ [] (100 + refreshSeconds)]

theorem visits_dial_once_a_day_twice :
    (history Catalog.step Catalog.new twoVisits).countP (fun e => e.answer.2.any isGet) = 2 ∧
      ∀ before e mid f later, history Catalog.step Catalog.new twoVisits = before ++ e :: (mid ++ f :: later) →
        ∀ tag tag', Gets e tag → Gets f tag' → e.after.now + refreshSeconds ≤ f.after.now := by
  have timely : Transducer.Guarded Catalog.step Timely [] Catalog.new twoVisits := by
    refine ⟨fun before none_ => (nomatch none_), trivial, fun before same => ?_, trivial⟩
    have first : 100 = before := Option.some.inj same
    omega
  exact ⟨by decide +kernel, (visits_dial_once_a_day twoVisits).2.2.2 timely⟩

end
end PlxNative.Hud.Catalog
