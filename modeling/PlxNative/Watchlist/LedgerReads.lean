import PlxNative.Watchlist.Ledger

/-! Presses against list reads. The store commits the rows of a read with the stamp the
read took when it was issued, and shows those rows under the ledger's overrides. -/
namespace PlxNative.Watchlist
open List Option Nat Transducer

/-- The part of the store that decides membership. -/
structure ReadState where
  ledger : IntentLedger
  rows : List CatalogId
  rowsStamp : Nat
  /-- The stamp of the read that is out; one read is out at a time. -/
  readStamp : Option Nat

inductive ReadOp where
  | press (hex : CatalogId) (intent : Intent)
  | nextWrite
  | finished (write : PendingWrite) (outcome : WriteOutcome)
  | issue
  | commit (rows : List CatalogId)
  | listDone

namespace ReadState

def new : ReadState := ⟨.new, [], 0, none⟩

/-- The membership of `refresh`: the committed rows, then every override. -/
def members (s : ReadState) : Finset CatalogId :=
  (s.ledger.overridden s.rowsStamp).foldl
    (fun members (hex, intent) => match intent with
      | .add => insert hex members
      | .remove => members.erase hex)
    s.rows.toFinset

def step (s : ReadState) : ReadOp → ReadState × Unit
  | .press hex intent => ({ s with ledger := (s.ledger.press hex intent).1 }, ())
  | .nextWrite => ({ s with ledger := s.ledger.nextWrite.1 }, ())
  | .finished write outcome => ({ s with ledger := (s.ledger.finished write outcome).1 }, ())
  | .issue => ({ s with readStamp := some s.ledger.stamp }, ())
  | .commit rows => ({ s with rows, rowsStamp := s.readStamp.getD s.rowsStamp }, ())
  | .listDone => ({ s with ledger := s.ledger.forgetOlder s.rowsStamp, readStamp := none }, ())

end ReadState

abbrev ReadEvent := Transducer.Event ReadState ReadOp Unit

def ReadOp.pressed? (hex : CatalogId) : ReadOp → Option Intent
  | .press id intent => if id = hex then some intent else none
  | _ => none

/-- The intent of the newest press on the id. -/
def newestPress (hex : CatalogId) (past : List ReadEvent) : Option Intent :=
  latest (fun e => e.input.pressed? hex) past

/-- A landed write's number, kept until a failed write with nothing newer reverts the id. -/
def noteLanding (hex : CatalogId) (held : Option Nat) (e : ReadEvent) : Option Nat :=
  match e.input with
  | .finished write .landed => if write.hex = hex then some e.after.ledger.seq else held
  | .finished write .failed =>
    if write.hex = hex ∧ (e.before.ledger.track hex).queued = [] then none else held
  | _ => held

def landing (hex : CatalogId) (past : List ReadEvent) : Option Nat := past.foldl (noteLanding hex) none

/-- The press must show: a write of the id is queued or in flight, or one landed and the
committed rows come from a read stamped before that. -/
def Standing (hex : CatalogId) (past : List ReadEvent) (s : ReadState) : Prop :=
  hex ∈ s.ledger.busyIds ∨ ∃ n, landing hex past = some n ∧ s.rowsStamp < n

def PressShows (hex : CatalogId) (past : List ReadEvent) (s : ReadState) : Prop :=
  Standing hex past s → ∀ intent, newestPress hex past = some intent →
    (hex ∈ s.members ↔ intent = .add)

/-- A verdict only for the write in flight; one read at a time, which alone commits. -/
def ReadPermitted (s : ReadState) : ReadOp → Prop
  | .finished write _ => s.ledger.inFlight = some write
  | .issue => s.readStamp = none
  | .commit _ => s.readStamp ≠ none
  | _ => True

/-- No rows are committed under a write that is still out by a read stamped after its
press, unless they agree with it; no press is dropped behind a write in flight; and no
failed write drops a newer press of an id whose landing the rows do not know. -/
def Undisturbed (past : List ReadEvent) (s : ReadState) : ReadOp → Prop
  | .press hex intent => KeepsPress (s.ledger.track hex) intent
  | .commit rows => ∀ stamp, s.readStamp = some stamp → ∀ hex ∈ s.ledger.busyIds,
      ∀ e, (s.ledger.track hex).entry = some e → stamp < e.seq ∨ (hex ∈ rows ↔ e.shown = .add)
  | .finished write .failed => ∀ e, (s.ledger.track write.hex).entry = some e →
      (∃ w ∈ (s.ledger.track write.hex).queued, w.intent = e.settled) →
      ∀ n, landing write.hex past = some n → n ≤ s.rowsStamp
  | _ => True

namespace IntentLedger
variable {l : IntentLedger} {hex : CatalogId}

theorem mem_busyIds :
    hex ∈ l.busyIds ↔ (l.track hex).queued ≠ [] ∨ (l.track hex).flight ≠ none := by
  have queued : (l.track hex).queued ≠ [] ↔ ∃ w ∈ l.queue, w.hex = hex := by
    simp [track]
  have out : (l.track hex).flight ≠ none ↔ ∃ w, l.inFlight = some w ∧ w.hex = hex := by
    rw [ne_none_iff_exists']
    exact exists_congr (fun w => track_flight)
  rw [queued, out, busyIds]
  simp

theorem forgetOlder_track (hex : CatalogId) (readSeq : Nat) :
    (l.forgetOlder readSeq).track hex =
      ⟨(l.track hex).entry.filter (fun e => readSeq < e.seq || l.busyIds.contains hex),
        (l.track hex).queued, (l.track hex).flight⟩ := by
  simp only [track, forgetOlder, Table.lookup_retain]

theorem mem_foldl_overrides (entries : List (Sigma (fun _ : CatalogId => Entry)))
    (distinct : (entries.map Sigma.fst).Nodup) (members : Finset CatalogId) :
    hex ∈ (entries.map (fun entry => (entry.1, entry.2.shown))).foldl
      (fun members (hex, intent) => match intent with
        | Intent.add => insert hex members
        | Intent.remove => members.erase hex) members ↔
      match entries.find? (fun entry => entry.1 = hex) with
      | some entry => entry.2.shown = .add
      | none => hex ∈ members := by
  induction entries generalizing members with
  | nil => rfl
  | cons entry entries ih =>
    obtain ⟨id, e⟩ := entry
    rw [map_cons, nodup_cons] at distinct
    rw [map_cons, foldl_cons, ih distinct.2, List.find?_cons]
    by_cases here : id = hex
    · subst here
      have absent : entries.find? (fun entry => entry.1 = id) = none := by
        apply List.find?_eq_none.mpr
        intro entry mem eq
        exact distinct.1 (mem_map.mpr ⟨entry, mem, of_decide_eq_true eq⟩)
      rw [absent]
      cases shown : e.shown <;> simp [shown]
    · simp only [here]
      cases entries.find? (fun entry => entry.1 = hex) with
      | some other => exact Iff.rfl
      | none => cases e.shown <;> simp [Ne.symm here]

end IntentLedger
namespace IntentLedger

theorem overrides_of {l : IntentLedger} {hex : CatalogId} {e : Entry} {readSeq : Nat}
    (known : l.entries.lookup hex = some e) :
    l.overrides hex readSeq = if readSeq < e.seq then some e.shown else none := by
  rw [overrides, known]
  by_cases late : readSeq < e.seq
  · rw [if_pos late, show (some e).filter (fun e => readSeq < e.seq) = some e from
      if_pos (decide_eq_true late)]
    rfl
  · rw [if_neg late, show (some e).filter (fun e => readSeq < e.seq) = none from
      if_neg (by simpa using late)]
    rfl

end IntentLedger

namespace ReadState
variable {s : ReadState} {hex : CatalogId}

theorem mem_members :
    hex ∈ s.members ↔ match s.ledger.overrides hex s.rowsStamp with
      | some intent => intent = .add
      | none => hex ∈ s.rows := by
  have distinct : ((s.ledger.entries.entries.filter
      (fun entry => s.rowsStamp < entry.2.seq)).map Sigma.fst).Nodup :=
    List.Nodup.sublist (filter_sublist.map _) s.ledger.entries.nodupKeys
  unfold members IntentLedger.overridden
  rw [IntentLedger.mem_foldl_overrides _ distinct]
  cases found : (s.ledger.entries.entries.filter (fun entry => s.rowsStamp < entry.2.seq)).find?
      (fun entry => entry.1 = hex) with
  | some entry =>
    have here : entry.1 = hex := by simpa using List.find?_some found
    obtain ⟨mem, late⟩ := mem_filter.mp (List.mem_of_find?_eq_some found)
    obtain ⟨id, e⟩ := entry
    subst here
    have known : s.ledger.entries.lookup id = some e := AList.mem_lookup_iff.mpr mem
    rw [IntentLedger.overrides_of known, if_pos (of_decide_eq_true late)]
  | none =>
    have older : s.ledger.overrides hex s.rowsStamp = none := by
      cases known : s.ledger.entries.lookup hex with
      | none =>
        simp only [IntentLedger.overrides, known]
        rfl
      | some e =>
        rw [IntentLedger.overrides_of known, if_neg]
        intro late
        have mem : (⟨hex, e⟩ : Sigma (fun _ : CatalogId => Entry)) ∈
            s.ledger.entries.entries.filter (fun entry => s.rowsStamp < entry.2.seq) :=
          mem_filter.mpr ⟨AList.mem_lookup_iff.mp known, decide_eq_true late⟩
        exact absurd (decide_eq_true rfl) (List.find?_eq_none.mp found _ mem)
    rw [older]
    simp

theorem shows_entry {e : Entry} (known : (s.ledger.track hex).entry = some e)
    (decides : s.rowsStamp < e.seq ∨ (hex ∈ s.rows ↔ e.shown = .add)) :
    hex ∈ s.members ↔ e.shown = .add := by
  have entry : s.ledger.entries.lookup hex = some e := known
  rw [mem_members, IntentLedger.overrides_of entry]
  split_ifs with late
  · exact Iff.rfl
  · exact decides.resolve_left late

/-- What is kept about every id, and about the stamps, along a run. -/
structure Held (hex : CatalogId) (past : List ReadEvent) (s : ReadState) : Prop where
  reveals : Shows (newestPress hex past) (s.ledger.track hex)
  under : hex ∈ s.ledger.busyIds → ∀ e, (s.ledger.track hex).entry = some e →
    s.rowsStamp < e.seq ∨ (hex ∈ s.rows ↔ e.shown = .add)
  landed : ∀ n, landing hex past = some n → n ≤ s.ledger.seq ∧
    (s.rowsStamp < n → ∃ e, (s.ledger.track hex).entry = some e ∧ n ≤ e.seq)

structure Stamped (s : ReadState) : Prop where
  rows : s.rowsStamp ≤ s.ledger.seq
  read : ∀ stamp, s.readStamp = some stamp → s.rowsStamp ≤ stamp ∧ stamp ≤ s.ledger.seq

theorem Held.shows {past : List ReadEvent} (h : Held hex past s) : PressShows hex past s := by
  intro standing intent asked
  rcases standing with busy | ⟨n, landed, late⟩
  · obtain ⟨e, known⟩ := Option.ne_none_iff_exists'.mp
      (h.reveals.opened (IntentLedger.mem_busyIds.mp busy))
    have eq := h.reveals.shown e known
    rw [asked] at eq
    cases eq
    exact shows_entry known (h.under busy e known)
  · obtain ⟨e, known, newer⟩ := (h.landed n landed).2 late
    have eq := h.reveals.shown e known
    rw [asked] at eq
    cases eq
    exact shows_entry known (.inl (Nat.lt_of_lt_of_le late newer))

end ReadState

variable {hex : CatalogId} {past : List ReadEvent} {e : ReadEvent}

theorem landing_snoc : landing hex (past ++ [e]) = noteLanding hex (landing hex past) e := by
  simp [landing]

theorem newestPress_quiet
    (quiet : e.input.pressed? hex = none) : newestPress hex (past ++ [e]) = newestPress hex past := by
  rw [newestPress, latest_snoc, quiet]
  rfl

namespace ReadState
variable {s : ReadState} {hex : CatalogId} {past : List ReadEvent}

theorem Stamped.step (h : Stamped s) {op : ReadOp} : Stamped (s.step op).1 := by
  have later : ∀ l : IntentLedger, s.ledger.seq ≤ l.seq → Stamped { s with ledger := l } := by
    intro l more
    exact ⟨h.rows.trans more, fun stamp out => ⟨(h.read stamp out).1, (h.read stamp out).2.trans more⟩⟩
  cases op with
  | press id intent => exact later _ (le_succ _)
  | nextWrite =>
    refine later _ (Nat.le_of_eq ?_)
    rcases s.ledger.nextWrite_cases with eq | ⟨w, rest, -, -, eq⟩ <;> rw [eq]
  | finished w outcome =>
    refine later _ ?_
    rw [s.ledger.finished_seq]
    exact le_succ _
  | issue =>
    refine ⟨h.rows, fun stamp out => ?_⟩
    cases out
    exact ⟨h.rows, Nat.le_refl _⟩
  | commit rows =>
    cases out : s.readStamp with
    | none =>
      refine ⟨?_, fun stamp read => ?_⟩
      · simp only [ReadState.step, out]
        exact h.rows
      · simp only [ReadState.step] at read
        rw [out] at read
        cases read
    | some stamp =>
      refine ⟨?_, fun again read => ?_⟩
      · simp only [ReadState.step, out]
        exact (h.read stamp out).2
      · simp only [ReadState.step] at read ⊢
        rw [out] at read ⊢
        cases read
        exact ⟨Nat.le_refl _, (h.read stamp out).2⟩
  | listDone => exact ⟨h.rows, fun stamp out => by cases out⟩

namespace Held

theorem frame (h : Held hex past s) {e : ReadEvent} {s' : ReadState}
    (tracked : s'.ledger.track hex = s.ledger.track hex) (seq : s.ledger.seq ≤ s'.ledger.seq)
    (rows : s'.rows = s.rows) (stamp : s'.rowsStamp = s.rowsStamp)
    (unpressed : e.input.pressed? hex = none) (unlanded : noteLanding hex (landing hex past) e = landing hex past) :
    Held hex (past ++ [e]) s' := by
  refine ⟨?_, ?_, ?_⟩
  · rw [newestPress_quiet unpressed, tracked]
    exact h.reveals
  · intro busy
    rw [IntentLedger.mem_busyIds, tracked, ← IntentLedger.mem_busyIds] at busy
    rw [tracked, rows, stamp]
    exact h.under busy
  · intro n landed
    rw [landing_snoc, unlanded] at landed
    rw [tracked, stamp]
    exact ⟨(h.landed n landed).1.trans seq, (h.landed n landed).2⟩

theorem pressed (h : Held hex past s) (stamped : Stamped s) {intent : Intent}
    (keeps : KeepsPress (s.ledger.track hex) intent) :
    Held hex (past ++ [event ReadState.step s (.press hex intent)])
      (s.step (.press hex intent)).1 := by
  have entry : ∃ settled, ((s.ledger.press hex intent).1.track hex).entry =
      some ⟨intent, settled, s.ledger.seq + 1⟩ := by
    rw [IntentLedger.press_self rfl h.reveals.single]
    exact ⟨_, rfl⟩
  obtain ⟨settled, entry⟩ := entry
  refine ⟨?_, ?_, ?_⟩
  · rw [newestPress, latest_snoc]
    simp only [event, ReadOp.pressed?]
    exact h.reveals.pressed keeps
  · intro _ e known
    have eq := entry.symm.trans known
    cases eq
    exact .inl (lt_succ_of_le stamped.rows)
  · intro n landed
    rw [landing_snoc] at landed
    have known := (h.landed n landed).1
    exact ⟨le_succ_of_le known, fun _ => ⟨_, entry, le_succ_of_le known⟩⟩

theorem handed (h : Held hex past s) :
    Held hex (past ++ [event ReadState.step s .nextWrite]) (s.step .nextWrite).1 := by
  rcases s.ledger.nextWrite_cases with eq | ⟨w, rest, idle, first, eq⟩
  · exact h.frame (by simp only [ReadState.step, eq]) (by simp only [ReadState.step, eq]; exact Nat.le_refl _)
      rfl rfl rfl rfl
  · have next : (s.step .nextWrite).1.ledger = { s.ledger with queue := rest, inFlight := some w } := by
      simp only [ReadState.step, eq]
    by_cases here : w.hex = hex
    · obtain ⟨mem, out⟩ := h.reveals.handed_track first here
      have busy : hex ∈ s.ledger.busyIds :=
        IntentLedger.mem_busyIds.mpr (.inl (ne_nil_of_mem mem))
      refine ⟨?_, ?_, ?_⟩
      · rw [newestPress_quiet rfl, next]
        exact h.reveals.handed first here
      · intro _ e known
        rw [next, out] at known
        exact h.under busy e known
      · intro n landed
        rw [landing_snoc] at landed
        obtain ⟨bound, entry⟩ := h.landed n landed
        constructor
        · rw [next]
          exact bound
        · rw [next, out]
          exact entry
    · refine h.frame ?_ (by rw [next]) rfl rfl rfl rfl
      rw [next]
      simp [IntentLedger.track, idle, first, here]

theorem judged (h : Held hex past s) (stamped : Stamped s) {w : PendingWrite} {outcome : WriteOutcome}
    (here : w.hex = hex) (held : s.ledger.inFlight = some w)
    (undisturbed : Undisturbed past s (.finished w outcome)) :
    Held hex (past ++ [event ReadState.step s (.finished w outcome)])
      (s.step (.finished w outcome)).1 := by
  have reveals := h.reveals.judged outcome here held
  subst here
  have out : (s.ledger.track w.hex).flight = some w := IntentLedger.track_flight.mpr ⟨held, rfl⟩
  have busy : w.hex ∈ s.ledger.busyIds :=
    IntentLedger.mem_busyIds.mpr (.inr (by rw [out]; exact some_ne_none w))
  obtain ⟨e, known⟩ := Option.ne_none_iff_exists'.mp
    (h.reveals.opened (.inr (by rw [out]; exact some_ne_none w)))
  have seq := s.ledger.finished_seq w outcome
  obtain ⟨settled, after⟩ : ∃ i, IntentLedger.settledAfter w e outcome = i := ⟨_, rfl⟩
  refine ⟨?_, ?_, ?_⟩
  · rw [newestPress_quiet rfl]
    exact reveals
  · intro still entry shown
    by_cases empty : (s.ledger.track w.hex).queued.filter (fun v => v.intent ≠ settled) = []
    · rw [IntentLedger.mem_busyIds] at still
      simp only [ReadState.step] at still
      rw [(IntentLedger.finished_drained held known h.reveals.single after empty).1] at still
      exact absurd still (by simp)
    · simp only [ReadState.step] at shown
      rw [(IntentLedger.finished_pending held known h.reveals.single after empty).1] at shown
      cases shown
      cases outcome with
      | landed => exact .inl (lt_succ_of_le stamped.rows)
      | failed => exact h.under busy e known
  · intro n landed
    rw [landing_snoc] at landed
    simp only [ReadState.step]
    rw [seq]
    by_cases empty : (s.ledger.track w.hex).queued.filter (fun v => v.intent ≠ settled) = []
    · rw [(IntentLedger.finished_drained held known h.reveals.single after empty).1]
      cases outcome with
      | landed =>
        simp only [noteLanding, event, ReadState.step, seq] at landed
        cases landed
        exact ⟨Nat.le_refl _, fun _ => ⟨_, rfl, Nat.le_refl _⟩⟩
      | failed =>
        simp only [noteLanding, event, true_and] at landed
        split_ifs at landed with nothing
        -- the verdict dropped a newer press, so the rows already know the landing
        obtain ⟨v, mem⟩ := exists_mem_of_ne_nil _ nothing
        have eq : v.intent = settled := by
          by_contra apart
          exact filter_eq_nil_iff.mp empty v mem (decide_eq_true apart)
        have known_rows := undisturbed e known ⟨v, mem, eq.trans after.symm⟩ n landed
        exact ⟨le_succ_of_le (h.landed n landed).1,
          fun late => absurd late (Nat.not_lt.mpr known_rows)⟩
    · rw [(IntentLedger.finished_pending held known h.reveals.single after empty).1]
      cases outcome with
      | landed =>
        simp only [noteLanding, event, ReadState.step, seq] at landed
        cases landed
        exact ⟨Nat.le_refl _, fun _ => ⟨_, rfl, Nat.le_refl _⟩⟩
      | failed =>
        simp only [noteLanding, event] at landed
        split_ifs at landed with nothing
        obtain ⟨bound, entry⟩ := h.landed n landed
        refine ⟨le_succ_of_le bound, fun late => ?_⟩
        obtain ⟨e', known', newer⟩ := entry late
        rw [known] at known'
        cases known'
        exact ⟨_, rfl, newer⟩

end Held
end ReadState

namespace ReadState
variable {s : ReadState} {hex : CatalogId} {past : List ReadEvent}

theorem Held.committed (h : Held hex past s) (stamped : Stamped s) {rows : List CatalogId}
    (permitted : ReadPermitted s (.commit rows)) (undisturbed : Undisturbed past s (.commit rows)) :
    Held hex (past ++ [event ReadState.step s (.commit rows)]) (s.step (.commit rows)).1 := by
  obtain ⟨stamp, out⟩ := Option.ne_none_iff_exists'.mp permitted
  have committed : (s.step (.commit rows)).1 = { s with rows, rowsStamp := stamp } := by
    simp only [ReadState.step, out, getD_some]
  refine ⟨?_, ?_, ?_⟩
  · rw [newestPress_quiet rfl, committed]
    exact h.reveals
  · rw [committed]
    exact fun busy e known => undisturbed stamp out hex busy e known
  · intro n landed
    rw [landing_snoc] at landed
    rw [committed]
    obtain ⟨bound, entry⟩ := h.landed n landed
    exact ⟨bound, fun late => entry (Nat.lt_of_le_of_lt (stamped.read stamp out).1 late)⟩

theorem Held.forgotten (h : Held hex past s) :
    Held hex (past ++ [event ReadState.step s .listDone]) (s.step .listDone).1 := by
  have tracked := s.ledger.forgetOlder_track hex s.rowsStamp
  have kept : ∀ e, (s.ledger.track hex).entry = some e → s.rowsStamp < e.seq ∨ hex ∈ s.ledger.busyIds →
      ((s.ledger.forgetOlder s.rowsStamp).track hex).entry = some e := by
    intro e known reason
    rw [tracked, known]
    simpa using reason
  have fewer : ∀ e, ((s.ledger.forgetOlder s.rowsStamp).track hex).entry = some e →
      (s.ledger.track hex).entry = some e := by
    intro e known
    rw [tracked] at known
    exact (Option.filter_eq_some_iff.mp known).1
  have busy_iff : hex ∈ (s.ledger.forgetOlder s.rowsStamp).busyIds ↔ hex ∈ s.ledger.busyIds := Iff.rfl
  have queued : ((s.ledger.forgetOlder s.rowsStamp).track hex).queued = (s.ledger.track hex).queued := by
    rw [tracked]
  have flight : ((s.ledger.forgetOlder s.rowsStamp).track hex).flight = (s.ledger.track hex).flight := by
    rw [tracked]
  refine ⟨⟨?_, ?_, ?_, ?_, ?_⟩, ?_, ?_⟩
  · exact queued ▸ h.reveals.single
  · intro busy
    simp only [ReadState.step] at busy ⊢
    obtain ⟨e, known⟩ := Option.ne_none_iff_exists'.mp (h.reveals.opened busy)
    rw [kept e known (.inr (IntentLedger.mem_busyIds.mpr busy))]
    exact some_ne_none e
  · intro e known
    rw [newestPress_quiet rfl]
    exact h.reveals.shown e (fewer e known)
  · intro w mem
    rw [newestPress_quiet rfl]
    exact h.reveals.queued w (queued ▸ mem)
  · intro w out alone
    rw [newestPress_quiet rfl]
    exact h.reveals.flying w (flight ▸ out) (queued ▸ alone)
  · intro busy e known
    exact h.under (busy_iff.mp busy) e (fewer e known)
  · intro n landed
    rw [landing_snoc] at landed
    obtain ⟨bound, entry⟩ := h.landed n landed
    refine ⟨bound, fun late => ?_⟩
    obtain ⟨e, known, newer⟩ := entry late
    exact ⟨e, kept e known (.inl (Nat.lt_of_lt_of_le late newer)), newer⟩

theorem Held.step (h : Held hex past s) (stamped : Stamped s) {op : ReadOp}
    (permitted : ReadPermitted s op) (undisturbed : Undisturbed past s op) :
    Held hex (past ++ [event ReadState.step s op]) (s.step op).1 := by
  cases op with
  | press id intent =>
    by_cases here : id = hex
    · subst here
      exact h.pressed stamped undisturbed
    · exact h.frame (IntentLedger.press_other intent (Ne.symm here)) (le_succ _) rfl rfl
        (if_neg here) rfl
  | nextWrite => exact h.handed
  | finished w outcome =>
    by_cases here : w.hex = hex
    · exact h.judged stamped here permitted undisturbed
    · refine h.frame (IntentLedger.finished_other outcome permitted (Ne.symm here)) ?_ rfl rfl rfl ?_
      · exact Nat.le_trans (le_succ _) (Nat.le_of_eq (s.ledger.finished_seq w outcome).symm)
      · cases outcome with
        | landed => exact if_neg here
        | failed => exact if_neg (fun both => here both.1)
  | issue => exact h.frame rfl (Nat.le_refl _) rfl rfl rfl rfl
  | commit rows => exact h.committed stamped permitted undisturbed
  | listDone => exact h.forgotten

theorem new_stamped : Stamped new := ⟨Nat.le_refl 0, fun stamp out => by cases out⟩

theorem new_held (hex : CatalogId) : Held hex [] new := by
  refine ⟨Shows.start hex, ?_, fun n landed => by cases landed⟩
  intro busy
  exact absurd busy (by simp [new, IntentLedger.new, IntentLedger.busyIds])

/-- In every run whose steps leave the pressed ids undisturbed, every standing press
shows, at every moment and for every id. -/
theorem press_shows_when_undisturbed (ops : List ReadOp)
    (permitted : Transducer.Guarded ReadState.step (fun _ => ReadPermitted) [] new ops)
    (undisturbed : Transducer.Guarded ReadState.step Undisturbed [] new ops) (hex : CatalogId) :
    PressShows hex (history ReadState.step new ops) (Transducer.run ReadState.step new ops) := by
  have kept := guarded_invariant ReadState.step
    (R := fun past s => Stamped s ∧ ∀ hex, Held hex past s)
    (fun past s op both h => ⟨h.1.step, fun hex => (h.2 hex).step h.1 both.1 both.2⟩)
    ⟨new_stamped, new_held⟩ (Transducer.Guarded.and ReadState.step permitted undisturbed)
  exact (kept.2 hex).shows

/-- A read issued after the press and landing while the write is still out undoes it. -/
theorem press_undone_by_read_under_write :
    let a : CatalogId := fun _ => 1
    let ops : List ReadOp := [.press a .add, .issue, .nextWrite, .commit []]
    Transducer.Guarded ReadState.step (fun _ => ReadPermitted) [] new ops ∧
      ¬ PressShows a (history ReadState.step new ops)
        (Transducer.run ReadState.step new ops) := by
  intro a ops
  refine ⟨⟨trivial, by unfold ReadPermitted; decide, trivial, by unfold ReadPermitted; decide, trivial⟩, ?_⟩
  intro shows_
  have standing : Standing a (history ReadState.step new ops)
      (Transducer.run ReadState.step new ops) := .inl (by decide)
  have member := (shows_ standing .add (by decide)).mpr rfl
  exact absurd member (by decide)

/-- A read issued before the press lands while its write is in flight. -/
theorem press_shows_over_older_read :
    let a : CatalogId := fun _ => 1
    let ops : List ReadOp := [.issue, .press a .add, .nextWrite, .commit [], .listDone]
    a ∈ (Transducer.run ReadState.step new ops).members := by
  intro a ops
  have shows_ := press_shows_when_undisturbed ops
    ⟨by unfold ReadPermitted; decide, trivial, trivial, by unfold ReadPermitted; decide, trivial, trivial⟩ (by
      refine ⟨trivial, ?_, trivial, ?_, trivial, trivial⟩
      · intro e known
        cases known
      · intro stamp out hex busy e known
        have here : hex = a := mem_singleton.mp busy
        cases out
        subst here
        cases known
        exact .inl (by decide)) a
  exact (shows_ (.inl (by decide)) .add (by decide)).mpr rfl

end ReadState

end PlxNative.Watchlist
