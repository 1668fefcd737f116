import PlxNative.Hud.Sound

/-! Every answer is matched to the one request that awaits it: at most one is awaited, and an
answer to anything else changes nothing. -/
namespace PlxNative.Hud
open List Nat
open Transducer (Event event history run history_invariant)

inductive Kind where
  | scan
  | read
  | validate (sha : Sha)
  | write
  | fetch
deriving DecidableEq

structure Request where
  tag : Tag
  kind : Kind
deriving DecidableEq

def HudEffect.request? : HudEffect → Option Request
  | .scanDir tag _ => some ⟨tag, .scan⟩
  | .readFile tag _ _ => some ⟨tag, .read⟩
  | .validate tag sha _ => some ⟨tag, .validate sha⟩
  | .writeFile tag _ _ => some ⟨tag, .write⟩
  | .fetch tag _ _ | .fetchRegistry tag _ _ => some ⟨tag, .fetch⟩
  | .catalog _ | .delete _ | .selection _ | .notice _ => none

def requests (fx : List HudEffect) : List Request := fx.filterMap HudEffect.request?

def HudEvent.answers : HudEvent → Option Request
  | .scanned tag _ => some ⟨tag, .scan⟩
  | .read tag _ => some ⟨tag, .read⟩
  | .validated tag sha _ => some ⟨tag, .validate sha⟩
  | .written tag _ => some ⟨tag, .write⟩
  | .fetched tag _ => some ⟨tag, .fetch⟩
  | _ => none

def Flight.awaits (f : Flight) : Option Request :=
  match f.job, f.stage with
  | .index _, .io | .pack _ _ _, .io | .drop _ _, .io => some ⟨f.tag, .read⟩
  | .scan _, .io => some ⟨f.tag, .scan⟩
  | .pack _ _ _, .validation sha | .drop _ _, .validation sha => some ⟨f.tag, .validate sha⟩
  | _, _ => none

def Installing.awaits (i : Installing) : Option Request :=
  match i.step with
  | .reading _ _ => some ⟨i.tag, .read⟩
  | .fetching _ _ => some ⟨i.tag, .fetch⟩
  | .validating offer => some ⟨i.tag, .validate offer.sha⟩
  | .offered _ _ => none
  | .writing _ _ _ _ => some ⟨i.tag, .write⟩

def Op.awaits : Op → Option Request
  | .idle => none
  | .listing work => work.flight.bind Flight.awaits
  | .installing work => work.awaits
  | .removing work => work.flight.map (fun r => ⟨r.tag, .write⟩)

@[simp] theorem requests_nil : requests [] = [] := rfl

@[simp] theorem requests_append (a b : List HudEffect) : requests (a ++ b) = requests a ++ requests b :=
  filterMap_append

@[simp] theorem requests_cons (effect : HudEffect) (rest : List HudEffect) :
    requests (effect :: rest) = effect.request?.toList ++ requests rest := by
  cases asked : effect.request? <;> simp [requests, asked]

namespace HudStore

section
variable [World]

/-- What work that moved on has asked for: nothing, and nothing is awaited, or one thing under
the tag drawn last, which is awaited. -/
def Asks (s : HudStore) (stepped : Stepped) : Prop :=
  requests stepped.2 = [] ∧ stepped.1.op.awaits = none ∧ s.tags ≤ stepped.1.tags ∨
    ∃ r, requests stepped.2 = [r] ∧ stepped.1.op.awaits = some r ∧ r.tag = stepped.1.lastTag ∧ s.tags < stepped.1.tags

variable {s t : HudStore}

variable {stepped : Stepped}

omit [World] in
theorem Asks.later (asks : t.Asks stepped) (later : s.tags ≤ t.tags) : s.Asks stepped := by
  rcases asks with ⟨none_, free, drawn⟩ | ⟨r, one, awaited, last, drawn⟩
  · exact .inl ⟨none_, free, later.trans drawn⟩
  · exact .inr ⟨r, one, awaited, last, later.trans_lt drawn⟩

omit [World] in
theorem Asks.after (asks : s.Asks stepped) {before : List HudEffect} (quiet : requests before = []) :
    s.Asks (stepped.1, before ++ stepped.2) := by
  unfold Asks
  rw [requests_append, quiet, nil_append]
  exact asks

omit [World] in
theorem requests_discard (s : HudStore) (d : Nat) (sha : Sha) : requests (s.discard d sha) = [] := by
  unfold discard
  split <;> rfl

omit [World] in
theorem requests_flatMap {α : Type} {f : α → List HudEffect} (quiet : ∀ a, requests (f a) = []) (l : List α) :
    requests (l.flatMap f) = [] := by
  induction l with
  | nil => rfl
  | cons a rest ih => rw [flatMap_cons, requests_append, quiet a, ih, nil_append]

omit [World] in
theorem requests_discardReplaced (s : HudStore) (d : Nat) (sha : Sha) (replaced : Option Sha) :
    requests (s.discardReplaced d sha replaced) = [] := by
  unfold discardReplaced
  split
  · split
    · rfl
    · exact requests_discard s d _
  · rfl

omit [World] in
theorem requests_reclaim (s : HudStore) (stray : List (PathBuf × Sha)) : requests (s.reclaim stray) = [] :=
  requests_flatMap (fun a => by
    unfold discardStray
    split
    · split
      · exact requests_discard s _ _
      · rfl
    · rfl) stray

omit [World] in
theorem requests_displaced (s : HudStore) : requests s.displaced.2 = [] := by
  unfold displaced
  split <;> rfl

omit [World] in
theorem ended_asks (s : HudStore) (notice : Notice) : s.Asks (s.ended notice) := .inl ⟨rfl, rfl, Nat.le_refl _⟩

omit [World] in
theorem validate_asks (s : HudStore) (offer : Offer) : s.Asks (s.validate offer) :=
  .inr ⟨_, rfl, rfl, rfl, lt_succ_self _⟩

omit [World] in
theorem writePack_asks (s : HudStore) (offer : Offer) (metadata : Meta) (d : Nat) :
    s.Asks (s.writePack offer metadata d) := by
  unfold writePack
  split
  · exact ended_asks s _
  · exact .inr ⟨_, rfl, rfl, rfl, lt_succ_self _⟩

theorem writeIndex_asks (s : HudStore) (offer : Offer) (metadata : Meta) (d : Nat) :
    s.Asks (s.writeIndex offer metadata d) := .inr ⟨_, rfl, rfl, rfl, lt_succ_self _⟩

omit [World] in
theorem indexWritten_asks (s : HudStore) (offer : Offer) (metadata : Meta) (d : Nat) (index : Index)
    (replaced : Option Sha) : s.Asks (s.indexWritten offer metadata d index replaced) := by
  refine .inl ⟨?_, rfl, Nat.le_refl _⟩
  exact (requests_append _ _).trans (by rw [requests_discardReplaced]; rfl)

omit [World] in
theorem indexRefused_asks (s : HudStore) (offer : Offer) (metadata : Meta) (d : Nat) :
    s.Asks (s.indexRefused offer metadata d) :=
  (writePack_asks s offer metadata (d + 1)).after (requests_discard s d _)

theorem Proceeds.asks {step : Step} {tag : Tag} {ev : HudEvent} (proceeds : s.Proceeds tag step ev stepped) :
    s.Asks stepped := by
  cases proceeds with
  | refused free sha reason => exact ended_asks s _
  | failed free reason => exact ended_asks s _
  | reread given bytes => exact validate_asks s _
  | fetched given bytes => exact validate_asks s _
  | offered given ok unconfirmed => exact .inl ⟨rfl, rfl, Nat.le_refl _⟩
  | begun given ok confirmed => exact writePack_asks s _ _ _
  | packDone given => exact writeIndex_asks s _ _ _
  | packRefused given => exact writePack_asks s _ _ _
  | indexDone given => exact indexWritten_asks s _ _ _ _ _
  | indexRefused given => exact indexRefused_asks s _ _ _

omit [World] in
theorem issue_asks (s : HudStore) (stray : List (PathBuf × Sha)) {job : Job} (rest : List Job) (asks : job ≠ .plan) :
    s.Asks (s.issue stray job rest) := by
  cases job with
  | plan => exact absurd rfl asks
  | index d => exact .inr ⟨_, rfl, rfl, rfl, lt_succ_self _⟩
  | pack sha d others => exact .inr ⟨_, rfl, rfl, rfl, lt_succ_self _⟩
  | scan d => exact .inr ⟨_, rfl, rfl, rfl, lt_succ_self _⟩
  | drop d name => exact .inr ⟨_, rfl, rfl, rfl, lt_succ_self _⟩

omit [World] in
theorem packJob_ne_plan (planned : Sha × Nat × List Nat) : packJob planned ≠ .plan := nofun

omit [World] in
theorem advance_asks (s : HudStore) (stray : List (PathBuf × Sha)) (todo : List Job) : s.Asks (s.advance stray todo) := by
  induction todo generalizing s stray with
  | nil => exact .inl ⟨rfl, rfl, Nat.le_refl _⟩
  | cons job rest ih =>
    cases job with
    | plan =>
      simp only [advance]
      split
      · exact ((ih s.drawn []).later (le_succ _)).after (requests_reclaim s stray)
      · rename_i first more _
        have one := issue_asks s.drawn [] (more.map packJob ++ rest) (packJob_ne_plan first)
        exact (one.later (le_succ _)).after (requests_reclaim s stray)
    | index d => exact issue_asks s stray rest (by rintro ⟨⟩)
    | pack sha d others => exact issue_asks s stray rest (by rintro ⟨⟩)
    | scan d => exact issue_asks s stray rest (by rintro ⟨⟩)
    | drop d name => exact issue_asks s stray rest (by rintro ⟨⟩)

theorem Known.tags {t : HudStore} (known : s.Known t) : t.tags = s.tags := by
  cases known with
  | admitted sha d verdict => cases verdict <;> rfl
  | _ => rfl

theorem listingAnswer_asks {listing : Listing} {job : Job} {stage : Stage} {ev : HudEvent}
    (answered : s.listingAnswer listing job stage ev = some stepped) : s.Asks stepped :=
  listingAnswer_rule (P := s.Asks) (fun known todo => (advance_asks _ _ todo).later known.tags.ge)
    (fun file sha _ => .inr ⟨⟨_, .validate sha⟩, rfl, (by cases job <;> first | rfl | cases file), rfl,
      lt_succ_self _⟩) answered

omit [World] in
theorem beginListing_asks (s : HudStore) (setup : Setup) (selected : String) :
    s.Asks (s.beginListing setup selected) :=
  ((advance_asks (s.forgotten setup selected) _ _).later (Nat.le_refl _)).after (requests_displaced s)

omit [World] in
theorem finishRemoval_asks (s : HudStore) (id : String) (incomplete : Bool) : s.Asks (s.finishRemoval id incomplete) := by
  unfold finishRemoval
  simp only
  split <;> exact .inl ⟨rfl, rfl, Nat.le_refl _⟩

theorem advanceRemoval_asks (s : HudStore) (id : String) (incomplete : Bool) (dirs : List Nat) :
    s.Asks (s.advanceRemoval id incomplete dirs) :=
  advanceRemoval_rule incomplete (finishRemoval_asks s id) (fun _ _ _ _ => .inr ⟨_, rfl, rfl, rfl, lt_succ_self _⟩)

theorem rewritten_asks (s : HudStore) (removing : Removing) (r : Rewrite) (outcome : WriteOutcome) :
    s.Asks (s.rewritten removing r outcome) := by
  cases outcome with
  | refused => exact advanceRemoval_asks s _ _ _
  | done =>
    exact ((advanceRemoval_asks (s.withIndex r.dir r.index) _ _ _).later (Nat.le_refl _)).after
      (requests_flatMap (fun sha => requests_discard _ _ sha) _)

end

section
variable [World] {s : HudStore}

theorem listingAnswer_matched (listing : Listing) (flight : Flight) (ev : HudEvent) :
    listingTag ev = some flight.tag ∧ (s.listingAnswer listing flight.job flight.stage ev).isSome = true ↔
      ∃ r, flight.awaits = some r ∧ ev.answers = some r := by
  obtain ⟨tag, job, stage⟩ := flight
  cases ev <;> simp only [listingTag, answerTag, HudEvent.answers]
  all_goals cases job <;> cases stage <;> grind [listingAnswer, Flight.awaits]

theorem written_taken (tag t : Tag) (offer : Offer) (metadata : Meta) (d : Nat) (what : Write) (outcome : WriteOutcome) :
    (s.installingAnswer tag (.writing offer metadata d what) (.written t outcome)).isSome = true := by
  cases what <;> cases outcome <;> rfl

theorem installingAnswer_matched (installing : Installing) (ev : HudEvent) :
    answerTag ev = some installing.tag ∧ (s.installingAnswer installing.tag installing.step ev).isSome = true ↔
      ∃ r, installing.awaits = some r ∧ ev.answers = some r := by
  obtain ⟨tag, step⟩ := installing
  cases ev <;> simp only [answerTag, HudEvent.answers]
  all_goals cases step <;> grind [installingAnswer, Installing.awaits, written_taken]

theorem result_cases {ev : HudEvent} {q : Request} (answer : ev.answers = some q) :
    s.op.awaits ≠ some q ∧ s.result ev = ⟨s, .no, []⟩ ∨
      s.op.awaits = some q ∧ ∃ stepped, s.result ev = handled stepped ∧ s.Asks stepped := by
  obtain ⟨setup, dirs, packs, drops, selected, op, tags, catalog⟩ := s
  cases op with
  | idle => exact .inl ⟨by rintro ⟨⟩, rfl⟩
  | listing listing =>
    obtain ⟨todo, flight, stray⟩ := listing
    cases flight with
    | none => exact .inl ⟨by rintro ⟨⟩, rfl⟩
    | some flight =>
      have matched := listingAnswer_matched (s := ⟨setup, dirs, packs, drops, selected, .idle, tags, catalog⟩)
        ⟨todo, none, stray⟩ flight ev
      simp only [result, listingResult]
      by_cases awaited : flight.awaits = some q
      · obtain ⟨tagged, taken⟩ := matched.mpr ⟨q, awaited, answer⟩
        obtain ⟨stepped, answered⟩ := Option.isSome_iff_exists.mp taken
        rw [if_pos tagged, answered]
        exact .inr ⟨awaited, stepped, rfl, (listingAnswer_asks answered).later (Nat.le_refl tags)⟩
      · refine .inl ⟨awaited, ?_⟩
        split
        · rename_i tagged
          cases answered : listingAnswer _ _ flight.job flight.stage ev with
          | none => rfl
          | some stepped =>
            obtain ⟨r, awaits, answers⟩ := matched.mp ⟨tagged, by rw [answered]; rfl⟩
            rw [answer] at answers
            cases answers
            exact absurd awaits awaited
        · rfl
  | installing installing =>
    have matched := installingAnswer_matched (s := ⟨setup, dirs, packs, drops, selected, .idle, tags, catalog⟩)
      installing ev
    simp only [result, installingResult]
    by_cases awaited : installing.awaits = some q
    · obtain ⟨tagged, taken⟩ := matched.mpr ⟨q, awaited, answer⟩
      obtain ⟨stepped, answered⟩ := Option.isSome_iff_exists.mp taken
      rw [if_pos tagged, answered]
      exact .inr ⟨awaited, stepped, rfl, (installingAnswer_proceeds answered).asks.later (Nat.le_refl tags)⟩
    · refine .inl ⟨awaited, ?_⟩
      split
      · rename_i tagged
        cases answered : installingAnswer _ installing.tag installing.step ev with
        | none => rfl
        | some stepped =>
          obtain ⟨r, awaits, answers⟩ := matched.mp ⟨tagged, by rw [answered]; rfl⟩
          rw [answer] at answers
          cases answers
          exact absurd awaits awaited
      · rfl
  | removing removing =>
    obtain ⟨id, dirs, incomplete, flight⟩ := removing
    cases ev with
    | written tag outcome =>
      cases answer
      cases flight with
      | none => exact .inl ⟨by rintro ⟨⟩, rfl⟩
      | some r =>
        simp only [result, removingResult]
        by_cases eq : r.tag = tag
        · rw [if_pos eq]
          exact .inr ⟨by rw [← eq]; rfl, _, rfl, (rewritten_asks _ _ _ _).later (Nat.le_refl tags)⟩
        · rw [if_neg eq]
          refine .inl ⟨fun awaited => eq ?_, rfl⟩
          exact congrArg Request.tag (Option.some.inj awaited)
    | _ =>
      cases answer <;> cases flight <;> exact .inl ⟨by rintro ⟨⟩, rfl⟩

theorem Reduces.asks {ev : HudEvent} {turn : Turn} (reduces : s.Reduces ev turn) :
    (requests turn.fx = [] ∧ turn.store.op = s.op ∧ turn.store.tags = s.tags) ∨ s.Asks (turn.store, turn.fx) := by
  cases reduces with
  | kept => exact .inl ⟨rfl, rfl, rfl⟩
  | catalog event =>
    refine .inl ⟨?_, rfl, rfl⟩
    exact filterMap_eq_nil_iff.mpr (fun effect mem => by
      obtain ⟨inner, -, rfl⟩ := mem_map.mp mem
      rfl)
  | refreshed setup selected => exact .inr (beginListing_asks s setup selected)
  | selected id => exact .inl ⟨rfl, rfl, rfl⟩
  | tooLarge idle bytes source now => exact .inl ⟨rfl, rfl, rfl⟩
  | begun idle begins => cases begins <;> exact .inr (.inr ⟨_, rfl, rfl, rfl, lt_succ_self _⟩)
  | abandoned held inert => exact .inr (.inl ⟨rfl, rfl, Nat.le_refl _⟩)
  | revoked held now => exact .inr (ended_asks s _)
  | confirmed held now => exact .inr ((writePack_asks _ _ _ _).later (Nat.le_refl _))
  | removed idle id => exact .inr (advanceRemoval_asks s _ _ _)
  | listed held flying tagged answered => exact .inr ((listingAnswer_asks answered).later (Nat.le_refl _))
  | installed held tagged proceeds => exact .inr (proceeds.asks.later (Nat.le_refl _))
  | rewrote held outcome => exact .inr ((rewritten_asks _ _ _ _).later (Nat.le_refl _))

theorem reduce_asks (ev : HudEvent) :
    (requests (s.reduce ev).fx = [] ∧ (s.reduce ev).store.op = s.op ∧ (s.reduce ev).store.tags = s.tags) ∨
      s.Asks ((s.reduce ev).store, (s.reduce ev).fx) := (reduce_reduces s ev).asks

omit [World] in
theorem settle_op (turn : Turn) : (settle turn).store.op = turn.store.op ∧ (settle turn).store.tags = turn.store.tags ∧
    requests (settle turn).fx = requests turn.fx := by
  unfold settle
  split
  · exact ⟨rfl, rfl, by simp [HudEffect.request?]⟩
  · exact ⟨rfl, rfl, rfl⟩

/-- The step lemma: an event asks for nothing new, or for one thing under a fresh tag, which
is then what is awaited. -/
theorem turn_asks (s : HudStore) (ev : HudEvent) :
    (requests (s.turn ev).2.2 = [] ∧ ((s.turn ev).1.op.awaits = none ∨ (s.turn ev).1.op.awaits = s.op.awaits) ∧
        s.tags ≤ (s.turn ev).1.tags) ∨
      ∃ r, requests (s.turn ev).2.2 = [r] ∧ (s.turn ev).1.op.awaits = some r ∧ r.tag = (s.turn ev).1.lastTag ∧
        s.tags < (s.turn ev).1.tags := by
  obtain ⟨op, tags, asked⟩ := settle_op (s.reduce ev)
  have last : (s.turn ev).1.lastTag = (s.reduce ev).store.lastTag := congrArg (fun n => Tag.mk (n % 2 ^ 32)) tags
  rw [last]
  simp only [turn, step, op, tags, asked]
  rcases reduce_asks (s := s) ev with ⟨quiet, eq, still⟩ | ⟨quiet, free, drawn⟩ | ⟨r, one, awaited, tagged, drawn⟩
  · exact .inl ⟨quiet, .inr (by rw [eq]), still.ge⟩
  · exact .inl ⟨quiet, .inl free, drawn⟩
  · exact .inr ⟨r, one, awaited, tagged, drawn⟩

end

section
variable [World]

abbrev Past : Type := List (Event HudStore HudEvent (Handled × List HudEffect))

def issued (past : Past) : List Request := past.flatMap (fun e => requests e.answer.2)

def emitted (past : Past) : List HudEffect := past.flatMap (fun e => e.answer.2)

/-- An answer to a request that is not the one awaited. -/
def unmatched (s : HudStore) (ev : HudEvent) : Bool := ev.answers.isSome && s.op.awaits != ev.answers

/-- The run's events without the answers nothing awaited. -/
def heard : HudStore → List HudEvent → List HudEvent
  | _, [] => []
  | s, ev :: rest => if s.unmatched ev then heard s rest else ev :: heard (s.turn ev).1 rest

structure Settled (s : HudStore) : Prop where
  sound : s.Sound
  settled : s.selectionRevoked = false

theorem new_settled : new.Settled := ⟨new_sound, by decide⟩

variable {s : HudStore}

theorem Settled.turn (h : s.Settled) (ev : HudEvent) : (s.turn ev).1.Settled :=
  ⟨step_sound h.sound ev, settle_settled (reduce_sound h.sound ev).dirs⟩

theorem run_settled (events : List HudEvent) : (run turn new events).Settled :=
  Transducer.run_invariant turn (P := Settled) (fun _ ev h => h.turn ev) new_settled events

variable {ev : HudEvent} {q : Request}

theorem reduce_answer (s : HudStore) (answer : ev.answers = some q) : s.reduce ev = s.result ev := by
  cases ev <;> first | rfl | cases answer

theorem turn_unmatched (h : s.Settled) (answer : ev.answers = some q)
    (other : s.op.awaits ≠ some q) : s.turn ev = (s, .no, []) := by
  rcases result_cases answer with ⟨-, kept⟩ | ⟨awaited, -⟩
  · unfold turn step
    rw [reduce_answer s answer, kept, settle, if_neg (by rw [h.settled]; exact Bool.false_ne_true)]
  · exact absurd awaited other

theorem turn_matched (answer : ev.answers = some q)
    (awaited : s.op.awaits = some q) : (s.turn ev).2.1 = .yes := by
  rcases result_cases answer with ⟨other, -⟩ | ⟨-, stepped, taken, -⟩
  · exact absurd awaited other
  · unfold turn step
    rw [reduce_answer s answer, taken, settle]
    split <;> rfl

omit [World] in
theorem issued_snoc (past : Past) (e : Event HudStore HudEvent (Handled × List HudEffect)) :
    issued (past ++ [e]) = issued past ++ requests e.answer.2 := by
  simp [issued]

/-- The requests so far: each under a later tag than the one before, the last of them the only
one that can be awaited. -/
structure Numbered (past : Past) (s : HudStore) : Prop where
  single : ∀ e ∈ past, (requests e.answer.2).length ≤ 1
  last : ∀ r, s.op.awaits = some r → (issued past).getLast? = some r
  rising : ∃ numbers : List Nat, numbers.Pairwise (· < ·) ∧ (∀ n ∈ numbers, n ≤ s.tags) ∧
    (issued past).map Request.tag = numbers.map (fun n => ⟨n % 2 ^ 32⟩)

omit [World] in
theorem new_numbered : Numbered [] new := by
  refine ⟨?_, ?_, [], List.Pairwise.nil, ?_, ?_⟩
  · intro e mem
    cases mem
  · intro r awaited
    cases awaited
  · intro n mem
    cases mem
  · simp only [issued, flatMap_nil, map_nil]

theorem run_numbered (events : List HudEvent) : Numbered (history turn new events) (run turn new events) := by
  refine history_invariant turn ?_ new_numbered events
  rintro past s ev ⟨single, last, numbers, ordered, below, tags⟩
  rcases turn_asks s ev with ⟨quiet, kept, drawn⟩ | ⟨r, one, awaited, tagged, drawn⟩
  · have eq : issued (past ++ [event turn s ev]) = issued past := by
      rw [issued_snoc, event, quiet, append_nil]
    refine ⟨?_, ?_, numbers, ordered, fun n mem => (below n mem).trans drawn, by rw [eq]; exact tags⟩
    · intro e mem
      rcases mem_append.mp mem with old | new_
      · exact single e old
      · rw [mem_singleton.mp new_, event, quiet]
        exact Nat.zero_le 1
    · intro r awaited
      rw [eq]
      rcases kept with none_ | kept
      · rw [none_] at awaited
        cases awaited
      · exact last r (kept ▸ awaited)
  · have more : issued (past ++ [event turn s ev]) = issued past ++ [r] := by rw [issued_snoc, event, one]
    refine ⟨?_, ?_, numbers ++ [(s.turn ev).1.tags], ?_, ?_, ?_⟩
    · intro e mem
      rcases mem_append.mp mem with old | new_
      · exact single e old
      · rw [mem_singleton.mp new_, event, one]
        exact Nat.le_refl 1
    · intro q awaits
      rw [awaited] at awaits
      rw [more, List.getLast?_concat, awaits]
    · refine pairwise_append.mpr ⟨ordered, pairwise_singleton _ _, fun n mem m last_ => ?_⟩
      rw [mem_singleton.mp last_]
      exact (below n mem).trans_lt drawn
    · intro n mem
      rcases mem_append.mp mem with old | new_
      · exact (below n old).trans drawn.le
      · exact (mem_singleton.mp new_).le
    · rw [more, map_append, map_append, tags, map_singleton, tagged]
      rfl

omit [World] in
theorem Numbered.apart {past : Past} (h : Numbered past s) (few : s.tags < 2 ^ 32) :
    (issued past).Pairwise (fun a b => a.tag ≠ b.tag) := by
  obtain ⟨numbers, ordered, below, tags⟩ := h.rising
  apply pairwise_map.mp
  rw [tags]
  refine pairwise_map.mpr (ordered.imp_of_mem ?_)
  intro n m first second less eq
  have small := mod_eq_of_lt ((below n first).trans_lt few)
  have small' := mod_eq_of_lt ((below m second).trans_lt few)
  rw [Tag.mk.injEq, small, small'] at eq
  exact less.ne eq

theorem heard_same (h : s.Settled) (events : List HudEvent) :
    run turn s (heard s events) = run turn s events ∧
      emitted (history turn s (heard s events)) = emitted (history turn s events) := by
  induction events generalizing s with
  | nil => exact ⟨rfl, rfl⟩
  | cons ev rest ih =>
    by_cases apart : s.unmatched ev = true
    · simp only [unmatched, Bool.and_eq_true, bne_iff_ne] at apart
      obtain ⟨q, answer⟩ := Option.isSome_iff_exists.mp apart.1
      have nothing := turn_unmatched h answer (answer ▸ apart.2)
      have skipped : heard s (ev :: rest) = heard s rest := by
        rw [heard, if_pos (by simpa [unmatched] using apart)]
      have later : run turn s (ev :: rest) = run turn s rest := by
        rw [run, nothing]
      have told : emitted (history turn s (ev :: rest)) = emitted (history turn s rest) := by
        rw [history, event, nothing]
        rfl
      rw [skipped, later, told]
      exact ih h
    · have kept : heard s (ev :: rest) = ev :: heard (s.turn ev).1 rest := by rw [heard, if_neg apart]
      obtain ⟨eq, told⟩ := ih (h.turn ev)
      rw [kept]
      refine ⟨eq, ?_⟩
      show (event turn s ev).answer.2 ++ emitted (history turn (s.turn ev).1 (heard (s.turn ev).1 rest)) =
        (event turn s ev).answer.2 ++ emitted (history turn (s.turn ev).1 rest)
      rw [told]

/-- In every reachable state before the tags come round: no event asked for two things; the
request that is awaited is the last one made, and no other carries its tag; an answer is
taken when it answers that request, and changes and asks for nothing when it does not; so a
run with every answer that comes late, twice or out of order is the run without them. -/
theorem answers_matched (events : List HudEvent) (few : (run turn new events).tags < 2 ^ 32) :
    (∀ e ∈ history turn new events, (requests e.answer.2).length ≤ 1) ∧
      (issued (history turn new events)).Pairwise (fun a b => a.tag ≠ b.tag) ∧
      (∀ r, (run turn new events).op.awaits = some r → (issued (history turn new events)).getLast? = some r) ∧
      (∀ ev q, ev.answers = some q → (run turn new events).op.awaits = some q →
        ((run turn new events).turn ev).2.1 = .yes) ∧
      (∀ ev q, ev.answers = some q → (run turn new events).op.awaits ≠ some q →
        (run turn new events).turn ev = (run turn new events, .no, [])) ∧
      run turn new (heard new events) = run turn new events ∧
      emitted (history turn new (heard new events)) = emitted (history turn new events) := by
  have numbered := run_numbered events
  refine ⟨numbered.single, numbered.apart few, numbered.last, ?_, ?_, heard_same new_settled events⟩
  · intro ev q answer awaited
    exact turn_matched answer awaited
  · intro ev q answer other
    exact turn_unmatched (run_settled events) answer other

/-- Settings opened over one directory, whose index is missing, with the answer told twice. -/
def answeredTwice : List HudEvent :=
  [.refresh ⟨[⟨["media"], false⟩], 1⟩ "", .read ⟨1⟩ (.error .missing), .read ⟨1⟩ (.error .failed)]

omit [World] in
theorem answers_matched_twice : letI := nullWorld
    (run turn new answeredTwice).op.awaits = some ⟨⟨3⟩, .scan⟩ ∧
      run turn new (heard new answeredTwice) = run turn new answeredTwice := by
  let := nullWorld
  have holds := answers_matched answeredTwice (by decide +kernel)
  exact ⟨by decide +kernel, holds.2.2.2.2.2.1⟩

end
end HudStore
end PlxNative.Hud
