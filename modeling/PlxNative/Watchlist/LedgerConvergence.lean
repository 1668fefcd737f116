import PlxNative.Watchlist.Ledger

/-! Convergence of the intent ledger. The history of a run says what was pressed, what
the service was told and what it holds; a run in which the ledger never skips a write
on a wrong belief ends with the service holding the newest press. -/
namespace PlxNative.Watchlist
open List Transducer

inductive Op where
  | press (hex : CatalogId) (intent : Intent)
  | nextWrite
  | finished (write : PendingWrite) (outcome : WriteOutcome)
  | requeue (write : PendingWrite)

inductive Reply where
  | pressed (seq : Nat)
  | handed (write : Option PendingWrite)
  | verdict (membership : Option Intent)
  | requeued

namespace IntentLedger

def step (l : IntentLedger) : Op → IntentLedger × Reply
  | .press hex intent => ((l.press hex intent).1, .pressed (l.press hex intent).2)
  | .nextWrite => (l.nextWrite.1, .handed l.nextWrite.2)
  | .finished write outcome => ((l.finished write outcome).1, .verdict (l.finished write outcome).2)
  | .requeue write => (l.requeue write, .requeued)

end IntentLedger

abbrev LedgerEvent := Transducer.Event IntentLedger Op Reply

def Op.pressed? (hex : CatalogId) : Op → Option Intent
  | .press id intent => if id = hex then some intent else none
  | _ => none

def Op.landed? (hex : CatalogId) : Op → Option Intent
  | .finished write .landed => if write.hex = hex then some write.intent else none
  | _ => none

def presses (hex : CatalogId) (past : List LedgerEvent) : List Intent :=
  past.filterMap (fun e => e.input.pressed? hex)

def landings (hex : CatalogId) (past : List LedgerEvent) : List Intent :=
  past.filterMap (fun e => e.input.landed? hex)

def newest (hex : CatalogId) (past : List LedgerEvent) : Option Intent := (presses hex past).getLast?

/-- What the service holds: the last landed write, else the inverse of the first press. -/
def service (hex : CatalogId) (past : List LedgerEvent) : Option Intent :=
  (landings hex past).getLast?.or ((presses hex past).head?.map inverse)

/-- Every write of the id handed out after its newest press ended `Landed`. -/
def AllLanded (hex : CatalogId) (past : List LedgerEvent) : Prop :=
  ∀ pre a post w, past = pre ++ a :: post → a.answer = .handed (some w) → w.hex = hex →
    presses hex post = [] → ∃ b ∈ post, b.input = .finished w .landed

/-- With nothing queued or in flight and every late write landed, the service holds the
newest press, and the verdict that brought this about said so. -/
def Converged (hex : CatalogId) (past : List LedgerEvent) (l : IntentLedger) : Prop :=
  (∀ w ∈ l.queue, w.hex ≠ hex) → (∀ w, l.inFlight = some w → w.hex ≠ hex) → AllLanded hex past →
    service hex past = newest hex past ∧
      ∀ pre e w outcome, past = pre ++ [e] → e.input = .finished w outcome → w.hex = hex →
        e.answer = .verdict (newest hex past)

/-- What the store does: a verdict only for the write in flight, a requeue only of a
write in flight whose id was not pressed since it was handed out. -/
def Permitted (past : List LedgerEvent) (l : IntentLedger) : Op → Prop
  | .finished write _ => l.inFlight = some write
  | .requeue write => l.inFlight = some write ∧ ∃ pre a post, past = pre ++ a :: post ∧
      a.answer = .handed (some write) ∧ presses write.hex post = []
  | _ => True

/-- A write is skipped or dropped as needless only when no write of its id is in flight
and the service does hold what it asks for. -/
def SkipsRightly (past : List LedgerEvent) (l : IntentLedger) : Op → Prop
  | .press hex intent => ∀ e, (l.track hex).entry = some e → e.settled = intent →
      (l.track hex).queued ≠ [] ∨ (l.track hex).flight = none →
      (l.track hex).flight = none ∧ service hex past = some intent
  | .finished write .failed => ∀ e, (l.track write.hex).entry = some e →
      (∃ w ∈ (l.track write.hex).queued, w.intent = e.settled) →
      service write.hex past = some e.settled
  | _ => True

section
variable {hex : CatalogId} {past : List LedgerEvent} {e : LedgerEvent}

theorem presses_snoc : presses hex (past ++ [e]) = presses hex past ++ (e.input.pressed? hex).toList := by
  cases asked : e.input.pressed? hex <;> simp [presses, asked]

theorem landings_snoc : landings hex (past ++ [e]) = landings hex past ++ (e.input.landed? hex).toList := by
  cases told : e.input.landed? hex <;> simp [landings, told]

theorem newest_quiet (past : List LedgerEvent) (quiet : e.input.pressed? hex = none) :
    newest hex (past ++ [e]) = newest hex past := by
  simp [newest, presses_snoc, quiet]

variable {intent : Intent}

theorem newest_pressed (past : List LedgerEvent) (pressed : e.input.pressed? hex = some intent) :
    newest hex (past ++ [e]) = some intent := by
  simp [newest, presses_snoc, pressed]

theorem service_quiet (past : List LedgerEvent) (quiet : e.input.pressed? hex = none) (unlanded : e.input.landed? hex = none) :
    service hex (past ++ [e]) = service hex past := by
  simp [service, presses_snoc, landings_snoc, quiet, unlanded]

theorem service_landed (landed : e.input.landed? hex = some intent) :
    service hex (past ++ [e]) = some intent := by
  simp [service, landings_snoc, landed]

theorem service_pressed (held : service hex past = some intent)
    (unlanded : e.input.landed? hex = none) : service hex (past ++ [e]) = some intent := by
  rw [service, landings_snoc, unlanded, Option.toList_none, append_nil, presses_snoc]
  rw [service] at held
  cases last : (landings hex past).getLast? with
  | some i =>
    rw [last] at held
    exact held
  | none =>
    rw [last] at held
    cases first : presses hex past with
    | nil => simp [first] at held
    | cons i rest =>
      rw [first] at held
      exact held

end
/-- A write of the id handed out after its newest press and not landed. -/
def Unlanded (hex : CatalogId) (past : List LedgerEvent) (w : PendingWrite) : Prop :=
  ∃ pre a post, past = pre ++ a :: post ∧ a.answer = .handed (some w) ∧ w.hex = hex ∧
    presses hex post = [] ∧ ∀ b ∈ post, b.input ≠ .finished w .landed

variable {hex : CatalogId}

theorem AllLanded.none_unlanded {past : List LedgerEvent}
    (all : AllLanded hex past) (w : PendingWrite) : ¬ Unlanded hex past w := by
  intro ⟨pre, a, post, whole, hands, here, unpressed, never⟩
  obtain ⟨b, mem, landed⟩ := all pre a post w whole hands here unpressed
  exact never b mem landed

theorem Unlanded.snoc {past : List LedgerEvent} {w : PendingWrite} {e : LedgerEvent}
    (h : Unlanded hex past w) (quiet : e.input.pressed? hex = none)
    (other : e.input ≠ .finished w .landed) : Unlanded hex (past ++ [e]) w := by
  obtain ⟨pre, a, post, rfl, hands, here, unpressed, never⟩ := h
  refine ⟨pre, a, post ++ [e], by simp, hands, here, ?_, ?_⟩
  · simp [presses_snoc, unpressed, quiet]
  · exact forall_mem_append.mpr ⟨never, forall_mem_singleton.mpr other⟩

/-- What the ledger holds about an id, against the history of that id. -/
structure Follows (hex : CatalogId) (past : List LedgerEvent) (t : Track) : Prop extends
    Shows (newest hex past) t where
  unlanded : ∀ w, t.flight = some w → t.queued = [] → Unlanded hex past w
  pressed_since : ∀ w, t.flight = some w → t.queued ≠ [] → ∀ pre a post, past = pre ++ a :: post →
    a.answer = .handed (some w) → presses hex post ≠ []
  quiet : t.queued = [] → t.flight = none →
    service hex past = newest hex past ∨ ∃ w, Unlanded hex past w

namespace Follows
variable {hex : CatalogId} {past : List LedgerEvent} {t : Track} {e : LedgerEvent}

theorem start (hex : CatalogId) : Follows hex [] (IntentLedger.new.track hex) := by
  refine ⟨Shows.start hex, ?_, ?_, fun _ _ => .inl rfl⟩
  · exact fun w held => absurd held (by simp [IntentLedger.track, IntentLedger.new])
  · exact fun w held => absurd held (by simp [IntentLedger.track, IntentLedger.new])

theorem frame (h : Follows hex past t) (unpressed : e.input.pressed? hex = none)
    (unlanded : e.input.landed? hex = none)
    (unhanded : ∀ w, e.answer = .handed (some w) → w.hex ≠ hex) (held : ∀ w, t.flight = some w → w.hex = hex) :
    Follows hex (past ++ [e]) t := by
  have newest := newest_quiet past unpressed
  have service := service_quiet past unpressed unlanded
  have other : ∀ w : PendingWrite, w.hex = hex → e.input ≠ .finished w .landed := by
    intro w here eq
    rw [eq] at unlanded
    simp [Op.landed?, here] at unlanded
  refine ⟨newest ▸ h.toShows, ?_, ?_, ?_⟩
  · intro w out alone
    exact (h.unlanded w out alone).snoc unpressed (other w (held w out))
  · intro w out queued pre a post whole hands
    rcases eq_nil_or_concat post with rfl | ⟨rest, last, rfl⟩
    · have both := append_inj' whole rfl
      cases both.2
      exact absurd (held w out) (unhanded w hands)
    · rw [concat_eq_append, ← cons_append, ← append_assoc] at whole
      obtain ⟨before, tail⟩ := append_inj' whole rfl
      cases tail
      rw [concat_eq_append, presses_snoc, unpressed]
      simpa using h.pressed_since w out queued pre a rest before hands
  · intro empty idle
    rw [newest, service]
    refine (h.quiet empty idle).imp_right ?_
    rintro ⟨w, late⟩
    obtain ⟨pre, a, post, whole, hands, here, rest⟩ := late
    exact ⟨w, Unlanded.snoc ⟨pre, a, post, whole, hands, here, rest⟩ unpressed (other w here)⟩

end Follows

namespace Follows
variable {hex : CatalogId} {past : List LedgerEvent} {l : IntentLedger}

variable {w : PendingWrite}

theorem flight_hex (out : (l.track hex).flight = some w) : w.hex = hex :=
  (IntentLedger.track_flight.mp out).2

section
variable (h : Follows hex past (l.track hex))
include h

theorem pressed {intent : Intent}
    (sound : SkipsRightly past l (.press hex intent)) :
    Follows hex (past ++ [event IntentLedger.step l (.press hex intent)])
      ((l.press hex intent).1.track hex) := by
  have asked : (event IntentLedger.step l (.press hex intent)).input.pressed? hex =
      some intent := if_pos rfl
  have latest := newest_pressed past asked
  have keeps : KeepsPress (l.track hex) intent := fun e known eq queued =>
    (sound e known eq (.inl queued)).1
  have shows_ := h.toShows.pressed keeps
  rw [← latest] at shows_
  obtain ⟨settled, eq | ⟨⟨e, known, agrees⟩, idle, eq⟩⟩ := h.toShows.pressed_cases keeps
  · refine ⟨shows_, ?_, ?_, ?_⟩
    · rw [eq]
      exact fun w out queued => by cases queued
    · intro w out _ pre a post whole hands
      rcases eq_nil_or_concat post with rfl | ⟨rest, last, rfl⟩
      · cases (append_inj' whole rfl).2
        cases hands
      · rw [concat_eq_append, ← cons_append, ← append_assoc] at whole
        cases (append_inj' whole rfl).2
        rw [concat_eq_append, presses_snoc, asked]
        simp
    · rw [eq]
      exact fun queued => by cases queued
  · have held := (sound e known agrees (.inr idle)).2
    refine ⟨shows_, ?_, ?_, ?_⟩
    · rw [eq]
      exact fun w out => by cases out
    · rw [eq]
      exact fun w out => by cases out
    · intro _ _
      exact .inl ((service_pressed held rfl).trans latest.symm)

theorem handed {rest : List PendingWrite}
    (first : l.queue = w :: rest) (here : w.hex = hex)
    {e : LedgerEvent} (input : e.input = .nextWrite) (hands : e.answer = .handed (some w)) :
    Follows hex (past ++ [e]) (IntentLedger.track { l with queue := rest, inFlight := some w } hex) := by
  have latest : newest hex (past ++ [e]) = newest hex past := newest_quiet past (by rw [input]; rfl)
  refine ⟨latest ▸ h.toShows.handed first here, ?_, ?_, ?_⟩
  · rw [(h.toShows.handed_track first here).2]
    intro v eq _
    cases eq
    exact ⟨past, e, [], rfl, hands, here, rfl, fun _ mem => absurd mem not_mem_nil⟩
  · rw [(h.toShows.handed_track first here).2]
    exact fun v _ queued => absurd rfl queued
  · rw [(h.toShows.handed_track first here).2]
    exact fun _ idle => by cases idle

theorem requeued (here : w.hex = hex)
    (allowed : Permitted past l (.requeue w)) :
    Follows hex (past ++ [event IntentLedger.step l (.requeue w)])
      ((l.requeue w).track hex) := by
  subst here
  obtain ⟨held, pre, a, post, whole, hands, unpressed⟩ := allowed
  have out : (l.track w.hex).flight = some w := IntentLedger.track_flight.mpr ⟨held, rfl⟩
  have alone : (l.track w.hex).queued = [] := by
    by_contra queued
    exact h.pressed_since w out queued pre a post whole hands unpressed
  have latest : newest w.hex (past ++ [event IntentLedger.step l (.requeue w)]) =
      newest w.hex past := newest_quiet past rfl
  have opened := h.opened (.inr (by rw [out]; exact Option.some_ne_none w))
  rw [IntentLedger.requeue_self held, alone]
  refine ⟨⟨Nat.le_refl 1, fun _ => opened, ?_, ?_, ?_⟩, ?_, ?_, ?_⟩
  · rw [latest]
    exact h.shown
  · intro v mem
    rw [mem_singleton.mp mem, latest]
    exact h.flying w out alone
  · exact fun v none_out => by cases none_out
  · exact fun v none_out => by cases none_out
  · exact fun v none_out => by cases none_out
  · exact fun queued => by cases queued

theorem judged {outcome : WriteOutcome}
    (here : w.hex = hex) (held : l.inFlight = some w) (sound : SkipsRightly past l (.finished w outcome)) :
    Follows hex (past ++ [event IntentLedger.step l (.finished w outcome)])
        ((l.finished w outcome).1.track hex) ∧
      (((l.finished w outcome).1.track hex).queued = [] →
        (l.finished w outcome).2 =
            newest hex (past ++ [event IntentLedger.step l (.finished w outcome)]) ∨
          ∃ v, Unlanded hex (past ++ [event IntentLedger.step l (.finished w outcome)]) v) := by
  have shows_ := h.toShows.judged outcome here held
  subst here
  have out : (l.track w.hex).flight = some w := IntentLedger.track_flight.mpr ⟨held, rfl⟩
  have latest := newest_quiet past (show (event IntentLedger.step l
    (.finished w outcome)).input.pressed? w.hex = none from rfl)
  rw [← latest] at shows_
  obtain ⟨e, known⟩ := Option.ne_none_iff_exists'.mp
    (h.opened (.inr (by rw [out]; exact Option.some_ne_none w)))
  obtain ⟨settled, after⟩ : ∃ s, IntentLedger.settledAfter w e outcome = s := ⟨_, rfl⟩
  by_cases empty : (l.track w.hex).queued.filter (fun v => v.intent ≠ settled) = []
  · obtain ⟨tracked, answered⟩ := IntentLedger.finished_drained held known h.single after empty
    -- nothing newer is pending: either the verdict settled the newest press, or it failed it
    have settles : (newest w.hex past = some settled ∧
        service w.hex (past ++ [event IntentLedger.step l (.finished w outcome)]) = some settled) ∨
        Unlanded w.hex (past ++ [event IntentLedger.step l (.finished w outcome)]) w := by
      cases queue : (l.track w.hex).queued with
      | nil =>
        have asked := h.flying w out queue
        cases outcome with
        | landed =>
          exact .inl ⟨after ▸ asked, after ▸ service_landed (if_pos rfl)⟩
        | failed => exact .inr ((h.unlanded w out queue).snoc rfl (fun eq => by cases eq))
      | cons v rest =>
        have mem : v ∈ (l.track w.hex).queued := by rw [queue]; exact mem_cons_self
        have eq : v.intent = settled := by
          by_contra apart
          exact filter_eq_nil_iff.mp empty v mem (decide_eq_true apart)
        have asked := h.queued v mem
        rw [eq] at asked
        refine .inl ⟨asked, ?_⟩
        cases outcome with
        | landed =>
          exact after ▸ service_landed (if_pos rfl)
        | failed =>
          rw [service_quiet past rfl rfl, ← after]
          exact sound e known ⟨v, mem, eq.trans after.symm⟩
    rw [answered]
    refine ⟨⟨shows_, ?_, ?_, ?_⟩, fun _ => ?_⟩
    · rw [tracked]
      exact fun v none_out => by cases none_out
    · rw [tracked]
      exact fun v none_out => by cases none_out
    · intro _ _
      rcases settles with ⟨asked, holds⟩ | late
      · exact .inl (holds.trans (latest.trans asked).symm)
      · exact .inr ⟨w, late⟩
    · rcases settles with ⟨asked, -⟩ | late
      · exact .inl (latest.trans asked).symm
      · exact .inr ⟨w, late⟩
  · obtain ⟨tracked, -⟩ := IntentLedger.finished_pending held known h.single after empty
    rw [tracked] at shows_ ⊢
    refine ⟨⟨shows_, ?_, ?_, fun queued => absurd queued empty⟩, fun queued => absurd queued empty⟩
    · exact fun v none_out => by cases none_out
    · exact fun v none_out => by cases none_out

end

end Follows

namespace Follows
variable {hex : CatalogId} {past : List LedgerEvent} {l : IntentLedger}

theorem step (h : Follows hex past (l.track hex)) {op : Op} (allowed : Permitted past l op)
    (sound : SkipsRightly past l op) :
    Follows hex (past ++ [event IntentLedger.step l op]) ((l.step op).1.track hex) := by
  cases op with
  | press id intent =>
    by_cases here : id = hex
    · subst here
      exact h.pressed sound
    · rw [show (l.step (.press id intent)).1.track hex = l.track hex from
        IntentLedger.press_other intent (Ne.symm here)]
      exact h.frame (if_neg here) rfl (fun w hands => by cases hands) (fun w => flight_hex)
  | nextWrite =>
    rcases l.nextWrite_cases with eq | ⟨w, rest, idle, first, hands⟩
    · have answer : (event IntentLedger.step l .nextWrite).answer = .handed none := by
        simp only [event, IntentLedger.step, eq]
      rw [show (l.step .nextWrite).1 = l by simp only [IntentLedger.step, eq]]
      refine h.frame rfl rfl (fun w hands => ?_) (fun w => flight_hex)
      rw [answer] at hands
      cases hands
    · have answer : (event IntentLedger.step l .nextWrite).answer = .handed (some w) := by
        simp only [event, IntentLedger.step, hands]
      rw [show (l.step .nextWrite).1 = { l with queue := rest, inFlight := some w } by
        simp only [IntentLedger.step, hands]]
      by_cases here : w.hex = hex
      · exact h.handed first here rfl answer
      · have eq : IntentLedger.track { l with queue := rest, inFlight := some w } hex = l.track hex := by
          simp [IntentLedger.track, idle, first, here]
        rw [eq]
        refine h.frame rfl rfl (fun v out => ?_) (fun v => flight_hex)
        rw [answer] at out
        cases out
        exact here
  | finished w outcome =>
    by_cases here : w.hex = hex
    · exact (h.judged here allowed sound).1
    · rw [show (l.step (.finished w outcome)).1.track hex = l.track hex from
        IntentLedger.finished_other outcome allowed (Ne.symm here)]
      refine h.frame rfl ?_ (fun v hands => by cases hands) (fun v => flight_hex)
      cases outcome with
      | landed => exact if_neg here
      | failed => rfl
  | requeue w =>
    by_cases here : w.hex = hex
    · exact h.requeued here allowed
    · rw [show (l.step (.requeue w)).1.track hex = l.track hex from
        IntentLedger.requeue_other (Ne.symm here)]
      exact h.frame rfl rfl (fun v hands => by cases hands) (fun v => flight_hex)

end Follows

namespace IntentLedger

/-- The ledger over a run: every id follows its history, and the last verdict of an id
that it left idle was the newest press or an unlanded one. -/
structure Kept (past : List LedgerEvent) (l : IntentLedger) : Prop where
  follows : ∀ hex, Follows hex past (l.track hex)
  answered : ∀ pre e w outcome, past = pre ++ [e] → e.input = .finished w outcome →
    (l.track w.hex).queued = [] →
    e.answer = .verdict (newest w.hex past) ∨ ∃ v, Unlanded w.hex past v

theorem Kept.step {past : List LedgerEvent} {l : IntentLedger} (h : Kept past l) {op : Op}
    (allowed : Permitted past l op) (sound : SkipsRightly past l op) :
    Kept (past ++ [event IntentLedger.step l op]) (l.step op).1 := by
  refine ⟨fun hex => (h.follows hex).step allowed sound, ?_⟩
  intro pre e w outcome whole input idle
  cases (append_inj' whole rfl).2
  have eq : op = .finished w outcome := input
  subst eq
  refine (((h.follows w.hex).judged rfl allowed sound).2 idle).imp_left ?_
  intro answer
  exact congrArg Reply.verdict answer

/-- Every run that skips no write on a wrong belief converges, id by id and at every
moment, to the newest press. -/
theorem converges_when_skips_rightly (ops : List Op)
    (allowed : Transducer.Guarded IntentLedger.step Permitted [] new ops)
    (sound : Transducer.Guarded IntentLedger.step SkipsRightly [] new ops) (hex : CatalogId) :
    Converged hex (Transducer.history IntentLedger.step new ops)
      (Transducer.run IntentLedger.step new ops) := by
  have kept := guarded_invariant IntentLedger.step (R := Kept)
    (fun past l op both h => h.step both.1 both.2)
    ⟨Follows.start, fun pre e w outcome whole => by cases pre <;> cases whole⟩
    (Transducer.Guarded.and IntentLedger.step allowed sound)
  intro unqueued unflown all
  have empty : ((Transducer.run IntentLedger.step new ops).track hex).queued = [] := by
    apply filter_eq_nil_iff.mpr
    intro w member there
    exact unqueued w member (of_decide_eq_true there)
  have idle : ((Transducer.run IntentLedger.step new ops).track hex).flight = none := by
    cases out : ((Transducer.run IntentLedger.step new ops).track hex).flight with
    | none => rfl
    | some w =>
      obtain ⟨held, here⟩ := track_flight.mp out
      exact absurd here (unflown w held)
  constructor
  · rcases (kept.follows hex).quiet empty idle with same | ⟨w, late⟩
    · exact same
    · exact absurd late (all.none_unlanded w)
  · intro pre e w outcome whole input here
    subst here
    rcases kept.answered pre e w outcome whole input empty with answer | ⟨v, late⟩
    · exact answer
    · exact absurd late (all.none_unlanded v)

end IntentLedger

theorem allLanded_cons {a : LedgerEvent} {post : List LedgerEvent}
    (first : ∀ w, a.answer = .handed (some w) → w.hex = hex → presses hex post = [] →
      ∃ b ∈ post, b.input = .finished w .landed) (rest : AllLanded hex post) :
    AllLanded hex (a :: post) := by
  intro pre b later w whole hands here unpressed
  cases pre with
  | nil =>
    cases whole
    exact first w hands here unpressed
  | cons c pre =>
    cases whole
    exact rest pre b later w rfl hands here unpressed

theorem allLanded_nil : AllLanded hex [] := by
  intro pre a post w whole
  cases pre <;> cases whole

namespace IntentLedger

/-- Four presses around one write: the last `Remove` finds its id's write queued, asks
for what was settled before the write in flight, and is dropped. The write lands, so the
service holds `Add` and nothing is left to send. -/
theorem press_lost_behind_write_in_flight :
    let a : CatalogId := fun _ => 1
    let ops : List Op := [.press a .add, .nextWrite, .press a .remove, .press a .add,
      .press a .remove, .finished ⟨a, .add, 1⟩ .landed]
    Transducer.Guarded IntentLedger.step Permitted [] new ops ∧
      ¬ Converged a (Transducer.history IntentLedger.step new ops)
        (Transducer.run IntentLedger.step new ops) := by
  intro a ops
  refine ⟨⟨trivial, trivial, trivial, trivial, trivial, by unfold Permitted; decide, trivial⟩, fun converged => ?_⟩
  have quiet : (Transducer.run IntentLedger.step new ops).queue = [] ∧
      (Transducer.run IntentLedger.step new ops).inFlight = none := by decide
  have all : AllLanded a (Transducer.history IntentLedger.step new ops) := by
    refine allLanded_cons (fun w hands => ?_) (allLanded_cons (fun w _ _ unpressed => ?_)
      (allLanded_cons (fun w hands => ?_) (allLanded_cons (fun w hands => ?_)
      (allLanded_cons (fun w hands => ?_) (allLanded_cons (fun w hands => ?_) allLanded_nil)))))
    · cases hands
    · exact absurd unpressed (by decide)
    all_goals cases hands
  have same := (converged (by rw [quiet.1]; exact fun w member => absurd member not_mem_nil)
    (by rw [quiet.2]; exact fun w out => by cases out) all).1
  exact absurd same (by decide)

/-- A press, its write and a second press that waits for the verdict. -/
theorem converges_press_reversed_in_flight :
    let a : CatalogId := fun _ => 1
    let ops : List Op := [.press a .add, .nextWrite, .press a .remove,
      .finished ⟨a, .add, 1⟩ .landed, .nextWrite, .finished ⟨a, .remove, 2⟩ .landed]
    Converged a (Transducer.history IntentLedger.step new ops)
      (Transducer.run IntentLedger.step new ops) := by
  intro a ops
  refine converges_when_skips_rightly ops ?_ ?_ a
  · exact ⟨trivial, trivial, trivial, by unfold Permitted; decide, trivial,
      by unfold Permitted; decide, trivial⟩
  · refine ⟨?_, trivial, ?_, trivial, trivial, trivial, trivial⟩
    · intro e known
      cases known
    · intro e _ _ free
      exact absurd free (by decide)

end IntentLedger

end PlxNative.Watchlist
