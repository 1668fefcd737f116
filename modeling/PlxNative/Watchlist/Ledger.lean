import Mathlib.Data.Fintype.Pi
import PlxNative.Lib.Edits
import PlxNative.Lib.Maps
import PlxNative.Lib.Transducer

/-! The watchlist intent ledger: optimistic presses, one queued write for each id and
one write in flight. The ledger is read id by id: `track` is everything it holds
about one id, and each operation has one equation on it. -/
namespace PlxNative.Watchlist
open List Position

inductive Intent where
  | add
  | remove
  deriving DecidableEq

abbrev CatalogId := Fin 12 → UInt8

structure PendingWrite where
  hex : CatalogId
  intent : Intent
  seq : Nat
  deriving DecidableEq

inductive WriteOutcome where
  | landed
  | failed
  deriving DecidableEq

structure Entry where
  shown : Intent
  settled : Intent
  seq : Nat

structure IntentLedger where
  seq : Nat
  entries : AList (fun _ : CatalogId => Entry)
  queue : List PendingWrite
  inFlight : Option PendingWrite

def inverse : Intent → Intent
  | .add => .remove
  | .remove => .add

@[simp] theorem inverse_ne (i : Intent) : ¬ i = inverse i := by
  cases i <;> decide

namespace IntentLedger

def new : IntentLedger := ⟨0, ∅, [], none⟩

/-- A press's edit of the queue: its write replaces the queued one of its id, and a
write that asks for what the service holds is no write. -/
def coalesce (l : IntentLedger) (write : PendingWrite) (settled : Intent) : List PendingWrite :=
  match l.queue.findIdx? (fun w => w.hex = write.hex) with
  | some index => if write.intent = settled then l.queue.eraseIdx index else l.queue.set index write
  | none =>
    if write.intent = settled ∧ l.inFlight.all (fun w => w.hex ≠ write.hex) then l.queue
    else l.queue ++ [write]

def press (l : IntentLedger) (hex : CatalogId) (intent : Intent) : IntentLedger × Nat :=
  let seq := l.seq + 1
  let settled := ((l.entries.lookup hex).map Entry.settled).getD (inverse intent)
  ({ l with
      seq
      queue := l.coalesce ⟨hex, intent, seq⟩ settled
      entries := l.entries.insert hex ⟨intent, settled, seq⟩ }, seq)

def nextWrite (l : IntentLedger) : IntentLedger × Option PendingWrite :=
  match l.inFlight, l.queue with
  | some _, _ => (l, none)
  | none, [] => (l, none)
  | none, w :: rest => ({ l with queue := rest, inFlight := some w }, some w)

def requeue (l : IntentLedger) (write : PendingWrite) : IntentLedger :=
  if l.inFlight = some write then { l with inFlight := none, queue := write :: l.queue } else l

/-- The verdict's edit: a queued write of the id that asks for `settled` goes. -/
def withoutSettled (queue : List PendingWrite) (hex : CatalogId) (settled : Intent) : List PendingWrite :=
  match queue.findIdx? (fun w => w.hex = hex ∧ w.intent = settled) with
  | some index => queue.eraseIdx index
  | none => queue

def finished (l : IntentLedger) (write : PendingWrite) (outcome : WriteOutcome) :
    IntentLedger × Option Intent :=
  let inFlight := if l.inFlight = some write then none else l.inFlight
  let seq := l.seq + 1
  match l.entries.lookup write.hex with
  | none => ({ l with seq, inFlight }, none)
  | some e =>
    let e := match outcome with
      | .landed => { e with settled := write.intent, seq }
      | .failed => e
    let queue := withoutSettled l.queue write.hex e.settled
    let pending := queue.any (fun w => w.hex = write.hex)
    if outcome = .failed ∧ ¬ pending then
      ({ l with seq, inFlight, queue, entries := l.entries.erase write.hex }, some e.settled)
    else if ¬ pending then
      ({ l with seq, inFlight, queue,
                entries := l.entries.insert write.hex { e with shown := e.settled } }, some e.settled)
    else ({ l with seq, inFlight, queue, entries := l.entries.insert write.hex e }, some e.shown)

def overrides (l : IntentLedger) (hex : CatalogId) (readSeq : Nat) : Option Intent :=
  ((l.entries.lookup hex).filter (fun e => readSeq < e.seq)).map Entry.shown

def overridden (l : IntentLedger) (readSeq : Nat) : List (CatalogId × Intent) :=
  (l.entries.entries.filter (fun entry => readSeq < entry.2.seq)).map
    (fun entry => (entry.1, entry.2.shown))

/-- The ids with a write queued or in flight. -/
def busyIds (l : IntentLedger) : List CatalogId :=
  (l.queue ++ l.inFlight.toList).map PendingWrite.hex

def forgetOlder (l : IntentLedger) (readSeq : Nat) : IntentLedger :=
  { l with entries := Table.retain (fun hex e => readSeq < e.seq || l.busyIds.contains hex) l.entries }

def busy (l : IntentLedger) : Bool := l.inFlight.isSome || !l.queue.isEmpty

def stamp (l : IntentLedger) : Nat := l.seq

end IntentLedger

/-- Everything the ledger holds about one id. -/
structure Track where
  entry : Option Entry
  queued : List PendingWrite
  flight : Option PendingWrite

namespace IntentLedger

def track (l : IntentLedger) (hex : CatalogId) : Track :=
  ⟨l.entries.lookup hex, l.queue.filter (fun w => w.hex = hex), l.inFlight.filter (fun w => w.hex = hex)⟩

section
variable {hex : CatalogId}

theorem track_flight {l : IntentLedger} {w : PendingWrite} :
    (l.track hex).flight = some w ↔ l.inFlight = some w ∧ w.hex = hex := by
  simp [track]

variable {queue : List PendingWrite}

theorem position_none :
    queue.findIdx? (fun w => w.hex = hex) = none ↔ queue.filter (fun w => w.hex = hex) = [] := by
  simp

theorem position_some {index : Nat}
    (found : queue.findIdx? (fun w => w.hex = hex) = some index)
    (single : (queue.filter (fun w => w.hex = hex)).length ≤ 1) :
    (queue.eraseIdx index).filter (fun w => w.hex = hex) = [] ∧
      ∀ w, w.hex = hex → (queue.set index w).filter (fun w => w.hex = hex) = [w] := by
  obtain ⟨before, hit, after, rfl, passes, earlier, erased, replaced⟩ :=
    split_of_findIdx? found
  have none_before : before.filter (fun w => w.hex = hex) = [] := by
    apply filter_eq_nil_iff.mpr
    intro w mem
    rw [earlier w mem]
    exact Bool.false_ne_true
  rw [filter_append, none_before, nil_append,
    filter_cons_of_pos (by exact passes), length_cons] at single
  have none_after : after.filter (fun w => w.hex = hex) = [] :=
    eq_nil_of_length_eq_zero (Nat.le_zero.mp (Nat.le_of_succ_le_succ single))
  refine ⟨?_, fun w here => ?_⟩
  · rw [erased, filter_append, none_before, none_after]
    rfl
  · rw [replaced, filter_append, none_before, filter_cons_of_pos (by simpa using here),
      none_after]
    rfl

theorem withoutSettled_self (hex : CatalogId) (settled : Intent)
    (single : (queue.filter (fun w => w.hex = hex)).length ≤ 1) :
    (withoutSettled queue hex settled).filter (fun w => w.hex = hex) =
      (queue.filter (fun w => w.hex = hex)).filter (fun w => w.intent ≠ settled) := by
  unfold withoutSettled
  cases found : queue.findIdx? (fun w => w.hex = hex ∧ w.intent = settled) with
  | none =>
    rw [List.findIdx?_eq_none_iff] at found
    symm
    apply filter_eq_self.mpr
    intro w mem
    obtain ⟨there, here⟩ := mem_filter.mp mem
    simp_all
  | some index =>
    obtain ⟨before, hit, after, rfl, passes, -, erased, -⟩ := split_of_findIdx? found
    obtain ⟨here, eq⟩ := of_decide_eq_true passes
    rw [filter_append, filter_cons_of_pos (by simpa using here), length_append,
      length_cons] at single
    have none_before : before.filter (fun w => w.hex = hex) = [] :=
      eq_nil_of_length_eq_zero (by omega)
    have none_after : after.filter (fun w => w.hex = hex) = [] :=
      eq_nil_of_length_eq_zero (by omega)
    simp only [erased, filter_append, none_before]
    rw [filter_cons_of_pos (by simpa using here), none_after]
    simp [eq]

theorem withoutSettled_other (settled : Intent) {other : CatalogId}
    (apart : other ≠ hex) :
    (withoutSettled queue hex settled).filter (fun w => w.hex = other) =
      queue.filter (fun w => w.hex = other) := by
  unfold withoutSettled
  cases found : queue.findIdx? (fun w => w.hex = hex ∧ w.intent = settled) with
  | none => rfl
  | some index =>
    apply filter_eraseIdx_of_apart found
    intro w passes
    have here := (of_decide_eq_true passes).1
    simp [here, Ne.symm apart]

end

/-! One equation for each operation, on the id it is about and on the others. -/

section
variable {l : IntentLedger} {hex other : CatalogId}

theorem coalesce_other (write : PendingWrite) (settled : Intent) (apart : other ≠ write.hex) :
    (l.coalesce write settled).filter (fun w => w.hex = other) =
      l.queue.filter (fun w => w.hex = other) := by
  have matched : ∀ w : PendingWrite, decide (w.hex = write.hex) = true →
      decide (w.hex = other) = false := by
    intro w here
    simp [of_decide_eq_true here, Ne.symm apart]
  have new : decide (write.hex = other) = false := decide_eq_false (Ne.symm apart)
  unfold coalesce
  cases found : l.queue.findIdx? (fun w => w.hex = write.hex) with
  | none =>
    dsimp only
    split_ifs
    · rfl
    · rw [filter_append, filter_cons_of_neg (by rw [new]; exact Bool.false_ne_true),
        filter_nil, append_nil]
  | some index =>
    dsimp only
    split_ifs
    · exact filter_eraseIdx_of_apart found matched
    · exact filter_set_of_apart found matched new

/-- A press writes nothing exactly when it asks for the settled membership and finds a
write of its id still queued, or none in flight. -/
theorem coalesce_self (write : PendingWrite) (settled : Intent)
    (single : (l.track write.hex).queued.length ≤ 1) :
    (l.coalesce write settled).filter (fun w => w.hex = write.hex) =
      if write.intent = settled ∧ ((l.track write.hex).queued ≠ [] ∨ (l.track write.hex).flight = none)
      then [] else [write] := by
  have idle : l.inFlight.all (fun w => w.hex ≠ write.hex) = true ↔ (l.track write.hex).flight = none := by
    cases held : l.inFlight <;> simp [track, held]
  unfold coalesce
  cases found : l.queue.findIdx? (fun w => w.hex = write.hex) with
  | none =>
    have empty : (l.track write.hex).queued = [] := position_none.mp found
    have none_queued : l.queue.filter (fun w => w.hex = write.hex) = [] := empty
    simp only [idle, empty, ne_eq, not_true_eq_false, false_or]
    split_ifs
    · exact none_queued
    · rw [filter_append, none_queued, filter_cons_of_pos (by simp)]
      rfl
  | some index =>
    have held : (l.track write.hex).queued ≠ [] := by
      intro empty
      rw [position_none.mpr empty] at found
      cases found
    simp only [held, ne_eq, not_false_eq_true, true_or, and_true]
    split_ifs
    · exact (position_some found single).1
    · exact (position_some found single).2 _ rfl

theorem press_other (intent : Intent) (apart : other ≠ hex) :
    (l.press hex intent).1.track other = l.track other := by
  simp only [track, press, AList.lookup_insert_ne apart, coalesce_other ⟨hex, intent, _⟩ _ apart]

variable {settled : Intent}

theorem press_self {intent : Intent}
    (known : ((l.track hex).entry.map Entry.settled).getD (inverse intent) = settled)
    (single : (l.track hex).queued.length ≤ 1) :
    (l.press hex intent).1.track hex =
      ⟨some ⟨intent, settled, l.seq + 1⟩,
        if intent = settled ∧ ((l.track hex).queued ≠ [] ∨ (l.track hex).flight = none) then []
        else [⟨hex, intent, l.seq + 1⟩],
        (l.track hex).flight⟩ := by
  have queued := coalesce_self ⟨hex, intent, l.seq + 1⟩ settled single
  subst known
  simp only [track, press, AList.lookup_insert, Track.mk.injEq, true_and, and_true]
  exact queued

theorem nextWrite_cases (l : IntentLedger) :
    l.nextWrite = (l, none) ∨ ∃ w rest, l.inFlight = none ∧ l.queue = w :: rest ∧
      l.nextWrite = ({ l with queue := rest, inFlight := some w }, some w) := by
  unfold nextWrite
  cases l.inFlight with
  | some v => exact .inl rfl
  | none =>
    cases l.queue with
    | nil => exact .inl rfl
    | cons w rest => exact .inr ⟨w, rest, rfl, rfl, rfl⟩

variable {write : PendingWrite}

theorem requeue_other (apart : other ≠ write.hex) :
    (l.requeue write).track other = l.track other := by
  unfold requeue
  split_ifs with held
  · simp [track, held, Option.filter, Ne.symm apart]
  · rfl

theorem requeue_self (held : l.inFlight = some write) :
    (l.requeue write).track write.hex =
      ⟨(l.track write.hex).entry, write :: (l.track write.hex).queued, none⟩ := by
  simp [requeue, track, held]

/-- What the service holds once a verdict is in, as the ledger knows it. -/
def settledAfter (write : PendingWrite) (e : Entry) : WriteOutcome → Intent
  | .landed => write.intent
  | .failed => e.settled

def seqAfter (l : IntentLedger) (e : Entry) : WriteOutcome → Nat
  | .landed => l.seq + 1
  | .failed => e.seq

theorem finished_seq (l : IntentLedger) (write : PendingWrite) (outcome : WriteOutcome) :
    (l.finished write outcome).1.seq = l.seq + 1 := by
  unfold finished
  cases l.entries.lookup write.hex with
  | none => rfl
  | some e =>
    dsimp only
    split_ifs <;> rfl

theorem finished_other (outcome : WriteOutcome)
    (held : l.inFlight = some write) (apart : other ≠ write.hex) :
    (l.finished write outcome).1.track other = l.track other := by
  have away : l.inFlight.filter (fun w => w.hex = other) = none := by
    simp [held, Ne.symm apart]
  unfold finished
  cases l.entries.lookup write.hex with
  | none =>
    simp only [track, away, if_pos held]
    rfl
  | some e =>
    dsimp only
    split_ifs <;> simp [track, away, withoutSettled_other _ apart, AList.lookup_insert_ne apart,
      AList.lookup_erase_ne apart]

theorem pending_iff (settled : Intent)
    (single : (l.track write.hex).queued.length ≤ 1) :
    (withoutSettled l.queue write.hex settled).any (fun w => w.hex = write.hex) = true ↔
      (l.track write.hex).queued.filter (fun w => w.intent ≠ settled) ≠ [] := by
  have queue := withoutSettled_self write.hex settled single
  rw [show (l.track write.hex).queued.filter (fun w => w.intent ≠ settled) = _ from queue.symm, Ne,
    filter_eq_nil_iff, any_eq_true]
  simp

variable {e : Entry} {outcome : WriteOutcome}

theorem finished_drained (held : l.inFlight = some write) (known : (l.track write.hex).entry = some e)
    (single : (l.track write.hex).queued.length ≤ 1) (known_after : settledAfter write e outcome = settled)
    (empty : (l.track write.hex).queued.filter (fun w => w.intent ≠ settled) = []) :
    (l.finished write outcome).1.track write.hex =
        ⟨if outcome = .failed then none else some ⟨settled, settled, l.seq + 1⟩, [], none⟩ ∧
      (l.finished write outcome).2 = some settled := by
  have queue := (withoutSettled_self write.hex settled single).trans empty
  have idle := mt (pending_iff settled single).mp (not_not.mpr empty)
  have entry : l.entries.lookup write.hex = some e := known
  subst known_after
  cases outcome with
  | landed =>
    simp only [settledAfter] at idle queue
    simp [finished, entry, settledAfter, idle, track, held, queue]
  | failed =>
    simp only [settledAfter] at idle queue
    simp [finished, entry, settledAfter, idle, track, held, queue]

theorem finished_pending (held : l.inFlight = some write) (known : (l.track write.hex).entry = some e)
    (single : (l.track write.hex).queued.length ≤ 1) (known_after : settledAfter write e outcome = settled)
    (newer : (l.track write.hex).queued.filter (fun w => w.intent ≠ settled) ≠ []) :
    (l.finished write outcome).1.track write.hex =
        ⟨some ⟨e.shown, settled, l.seqAfter e outcome⟩,
          (l.track write.hex).queued.filter (fun w => w.intent ≠ settled), none⟩ ∧
      (l.finished write outcome).2 = some e.shown := by
  have queue := withoutSettled_self write.hex settled single
  have busy := (pending_iff settled single).mpr newer
  have entry : l.entries.lookup write.hex = some e := known
  subst known_after
  cases outcome with
  | landed =>
    simp only [settledAfter] at busy queue
    simp [finished, entry, settledAfter, seqAfter, busy, track, held, queue]
  | failed =>
    simp only [settledAfter] at busy queue
    simp [finished, entry, settledAfter, seqAfter, busy, track, held, queue]

end

end IntentLedger
/-- What one id's part of the ledger says about its newest press: the row shows it, a
queued write carries it, and so does a write in flight with nothing queued behind it. -/
structure Shows (latest : Option Intent) (t : Track) : Prop where
  single : t.queued.length ≤ 1
  opened : t.queued ≠ [] ∨ t.flight ≠ none → t.entry ≠ none
  shown : ∀ e, t.entry = some e → latest = some e.shown
  queued : ∀ w ∈ t.queued, latest = some w.intent
  flying : ∀ w, t.flight = some w → t.queued = [] → latest = some w.intent

/-- The press does not find its id's write queued behind one in flight while it asks for
the settled membership: the branch that drops the queued write without looking at the
one in flight. -/
def KeepsPress (t : Track) (intent : Intent) : Prop :=
  ∀ e, t.entry = some e → e.settled = intent → t.queued ≠ [] → t.flight = none

namespace Shows
variable {l : IntentLedger} {hex : CatalogId} {latest : Option Intent}

theorem start (hex : CatalogId) : Shows none (IntentLedger.new.track hex) := by
  refine ⟨Nat.zero_le 1, ?_, ?_, ?_, ?_⟩
  · exact fun busy => absurd busy (by simp [IntentLedger.track, IntentLedger.new])
  · exact fun e held => absurd held (by simp [IntentLedger.track, IntentLedger.new])
  · exact fun w mem => absurd mem not_mem_nil
  · exact fun w held => absurd held (by simp [IntentLedger.track, IntentLedger.new])

/-- What a press leaves: its own write queued, or nothing at all when it asks for the
settled membership of an id with nothing in flight. -/
theorem pressed_cases (h : Shows latest (l.track hex)) {intent : Intent}
    (keeps : KeepsPress (l.track hex) intent) :
    ∃ settled, ((l.press hex intent).1.track hex =
        ⟨some ⟨intent, settled, l.seq + 1⟩, [⟨hex, intent, l.seq + 1⟩], (l.track hex).flight⟩) ∨
      (∃ e, (l.track hex).entry = some e ∧ e.settled = intent) ∧ (l.track hex).flight = none ∧
        (l.press hex intent).1.track hex = ⟨some ⟨intent, settled, l.seq + 1⟩, [], none⟩ := by
  refine ⟨((l.track hex).entry.map Entry.settled).getD (inverse intent), ?_⟩
  rw [IntentLedger.press_self rfl h.single]
  split_ifs with skip
  · right
    obtain ⟨eq, free⟩ := skip
    cases known : (l.track hex).entry with
    | none =>
      rw [known] at eq
      exact absurd eq (inverse_ne intent)
    | some e =>
      rw [known] at eq
      have idle : (l.track hex).flight = none := by
        rcases free with queued | idle
        · exact keeps e known eq.symm queued
        · exact idle
      exact ⟨⟨e, rfl, eq.symm⟩, idle, by rw [idle]⟩
  · exact .inl rfl

theorem pressed (h : Shows latest (l.track hex)) {intent : Intent}
    (keeps : KeepsPress (l.track hex) intent) :
    Shows (some intent) ((l.press hex intent).1.track hex) := by
  obtain ⟨settled, eq | ⟨-, -, eq⟩⟩ := h.pressed_cases keeps
  · rw [eq]
    refine ⟨Nat.le_refl 1, fun _ => Option.some_ne_none _, ?_, ?_, fun w _ queued => by cases queued⟩
    · intro e shown
      cases shown
      rfl
    · intro w mem
      rw [mem_singleton.mp mem]
  · rw [eq]
    refine ⟨Nat.zero_le 1, fun _ => Option.some_ne_none _, ?_, ?_, fun w out => by cases out⟩
    · intro e shown
      cases shown
      rfl
    · exact fun w mem => absurd mem not_mem_nil

variable {w : PendingWrite} {rest : List PendingWrite}

theorem handed_track (h : Shows latest (l.track hex)) (first : l.queue = w :: rest) (here : w.hex = hex) :
    w ∈ (l.track hex).queued ∧ IntentLedger.track { l with queue := rest, inFlight := some w } hex =
      ⟨(l.track hex).entry, [], some w⟩ := by
  have queued : (l.track hex).queued = w :: rest.filter (fun v => v.hex = hex) := by
    simp only [IntentLedger.track, first]
    exact filter_cons_of_pos (decide_eq_true here)
  have none_left : rest.filter (fun v => v.hex = hex) = [] := by
    have single := h.single
    rw [queued, length_cons] at single
    exact eq_nil_of_length_eq_zero (by omega)
  refine ⟨by rw [queued]; exact mem_cons_self, ?_⟩
  simp [IntentLedger.track, none_left, here]

theorem handed (h : Shows latest (l.track hex)) (first : l.queue = w :: rest) (here : w.hex = hex) :
    Shows latest (IntentLedger.track { l with queue := rest, inFlight := some w } hex) := by
  obtain ⟨mem, out⟩ := h.handed_track first here
  rw [out]
  refine ⟨Nat.zero_le 1, ?_, h.shown, fun v there => absurd there not_mem_nil, ?_⟩
  · exact fun _ => h.opened (.inl (ne_nil_of_mem mem))
  · intro v eq _
    cases eq
    exact h.queued w mem

theorem judged (h : Shows latest (l.track hex)) (outcome : WriteOutcome)
    (here : w.hex = hex) (held : l.inFlight = some w) :
    Shows latest ((l.finished w outcome).1.track hex) := by
  subst here
  have out : (l.track w.hex).flight = some w := IntentLedger.track_flight.mpr ⟨held, rfl⟩
  obtain ⟨e, known⟩ := Option.ne_none_iff_exists'.mp
    (h.opened (.inr (by rw [out]; exact Option.some_ne_none w)))
  obtain ⟨settled, after⟩ : ∃ s, IntentLedger.settledAfter w e outcome = s := ⟨_, rfl⟩
  by_cases empty : (l.track w.hex).queued.filter (fun v => v.intent ≠ settled) = []
  · rw [(IntentLedger.finished_drained held known h.single after empty).1]
    refine ⟨Nat.zero_le 1, fun busy => absurd busy (by simp), ?_,
      fun v mem => absurd mem not_mem_nil, fun v none_out => by cases none_out⟩
    intro entry shown
    cases outcome with
    | failed => cases shown
    | landed =>
      cases shown
      cases queue : (l.track w.hex).queued with
      | nil =>
        exact after ▸ h.flying w out queue
      | cons v rest =>
        have mem : v ∈ (l.track w.hex).queued := by rw [queue]; exact mem_cons_self
        have eq : v.intent = settled := by
          by_contra apart
          exact filter_eq_nil_iff.mp empty v mem (decide_eq_true apart)
        exact eq ▸ h.queued v mem
  · rw [(IntentLedger.finished_pending held known h.single after empty).1]
    refine ⟨(length_filter_le _ _).trans h.single, fun _ => Option.some_ne_none _, ?_, ?_,
      fun v none_out => by cases none_out⟩
    · intro entry shown
      cases shown
      exact h.shown e known
    · intro v mem
      exact h.queued v (mem_filter.mp mem).1

end Shows

end PlxNative.Watchlist
