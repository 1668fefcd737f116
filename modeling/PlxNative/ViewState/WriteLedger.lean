import PlxNative.ViewState.WriteOrder

/-! The ledger against the writes. A press stands in the ledger while its write waits, and
after it only if the server took it. -/
namespace PlxNative.ViewState
open List Transducer

section
variable {past : Past} {t : Table}

theorem standing_step {op : Op} {q : Press} (stands : q ∈ standing (past ++ [event Table.step t op])) :
    (∃ p ∈ standing past, p.seq = q.seq ∧ p.place = q.place ∧ p.edit = q.edit ∧
      (∀ place edit, op = .record place edit → ¬ (p.place = place ∧ sameKind p.edit edit = true)) ∧
      op ≠ .retire p.seq) ∨
    ∃ place edit, op = .record place edit ∧ q.seq = t.seq + 1 ∧ q.place = place ∧ q.edit = edit := by
  rw [standing_snoc] at stands
  cases op with
  | record place edit =>
    rcases mem_append.mp stands with old | new
    · obtain ⟨stood, apart⟩ := mem_filter.mp old
      refine .inl ⟨q, stood, rfl, rfl, rfl, ?_, by rintro ⟨⟩⟩
      rintro _ _ ⟨⟩ ⟨eq, kind⟩
      simp [eq, kind] at apart
    · rw [mem_singleton.mp new]
      exact .inr ⟨place, edit, rfl, rfl, rfl, rfl⟩
  | landed seq =>
    obtain ⟨p, stood, rfl⟩ := mem_map.mp stands
    refine .inl ⟨p, stood, ?_, ?_, ?_, by rintro _ _ ⟨⟩, by rintro ⟨⟩⟩
    all_goals split <;> rfl
  | retire seq =>
    obtain ⟨stood, other⟩ := mem_filter.mp stands
    refine .inl ⟨q, stood, rfl, rfl, rfl, by rintro _ _ ⟨⟩, ?_⟩
    rintro ⟨⟩
    simp at other
  | reset => cases stands

theorem recorded_mono {op : Op} {seq : Nat} (mem : seq ∈ recorded past) :
    seq ∈ recorded (past ++ [event Table.step t op]) := by
  rw [recorded_snoc]
  exact mem_append_left _ mem

end

namespace Lane

/-- The ledger's operations of a move. A fan-out has no entry of its own. -/
def ledgerOps : Note → List Op
  | .queued req _ => if req.originDone then [] else [.record req.place req.w.edit]
  | .dropped req => if req.originDone then [] else [.retire req.seq]
  | .written req done =>
    if req.originDone then [] else [if done.ok then .landed req.seq else .retire req.seq]
  | .copied req _ place => [.record place req.w.edit]
  | .reset _ _ => [.reset]
  | .handed _ _ | .refused _ => []

def ledgerPast (notes : List Note) : Past :=
  history Table.step Table.new (notes.flatMap ledgerOps)

/-- The numbers of the presses whose write the server took. -/
def taken (notes : List Note) : List Nat :=
  notes.filterMap (fun | .written req done => if done.ok && !req.originDone then some req.seq else none | _ => none)

def copies (notes : List Note) : List Nat :=
  notes.filterMap (fun | .copied _ seq _ => some seq | _ => none)

/-- The presses whose write did not take: replaced in the queue, not admitted, or refused
by the server. -/
def untaken (notes : List Note) : List Req :=
  (notes.flatMap (fun
    | .queued _ replaced => replaced
    | .dropped req => [req]
    | .written req done => if done.ok then [] else [req]
    | _ => [])).filter (fun r => !r.originDone)

/-- The presses whose write is queued or in flight. -/
def presses (l : Lane) : List Req := (l.sent.toList ++ l.queue).filter (fun r => !r.originDone)

/-- Presses replaced in the queue were made with the scope of the one that replaces them. -/
def KeepsScope : Note → Prop
  | .queued req replaced => ∀ r ∈ replaced, r.originDone = false → r.scope = req.scope
  | _ => True

structure Backed (notes : List Note) (l : Lane) : Prop where
  table : Transducer.run Table.step Table.new (notes.flatMap ledgerOps) = l.ledger
  refines : Refines (ledgerPast notes) l.ledger
  fanOuts : ∀ r ∈ l.sent.toList ++ l.queue, r.originDone = true → r.seq = 0
  numbered : KeyOrder.Ascending Req.seq l.presses
  known : ∀ r ∈ l.presses, r.seq ∈ recorded (ledgerPast notes)
  named : ∀ r ∈ l.presses, ∀ p ∈ standing (ledgerPast notes), p.seq = r.seq →
    p.place = r.place ∧ p.edit = r.w.edit
  answered : ∀ e ∈ ledgerPast notes, ∀ seq, e.input = .landed seq ∨ e.input = .retire seq →
    seq ∈ recorded (ledgerPast notes) ∧ ∀ r ∈ l.presses, seq < r.seq
  owned : ∀ p ∈ standing (ledgerPast notes),
    (∃ r ∈ l.presses, r.seq = p.seq) ∨ p.seq ∈ taken notes ∨ p.seq ∈ copies notes
  cleared : ∀ r ∈ untaken notes, r.seq ∈ recorded (ledgerPast notes) ∧
    ∀ p ∈ standing (ledgerPast notes), p.seq ≠ r.seq

section
variable {notes : List Note} {l : Lane}

theorem backed_empty : Backed [] empty := by
  refine ⟨rfl, refines_empty 0, ?_, .nil, ?_, ?_, ?_, ?_, ?_⟩
  all_goals
    intro x mem
    cases mem

variable {note : Note}

theorem Backed.past_snoc (h : Backed notes l) {op : Op} (does : ledgerOps note = [op]) :
    ledgerPast (notes ++ [note]) = ledgerPast notes ++ [event Table.step l.ledger op] := by
  simp only [ledgerPast, flatMap_append, flatMap_singleton, does]
  rw [history_snoc, h.table]

theorem Backed.table_snoc (h : Backed notes l) {op : Op} (does : ledgerOps note = [op]) :
    Transducer.run Table.step Table.new ((notes ++ [note]).flatMap ledgerOps) = (l.ledger.step op).1 := by
  simp only [flatMap_append, flatMap_singleton, does]
  rw [run_snoc, h.table]

theorem Backed.seq_le (h : Backed notes l) {r : Req} (mem : r ∈ l.presses) : r.seq ≤ l.ledger.seq :=
  h.refines.bounded _ (h.known r mem)

theorem taken_snoc {seq : Nat} (note : Note) (mem : seq ∈ taken notes) : seq ∈ taken (notes ++ [note]) := by
  rw [taken, filterMap_append]
  exact mem_append_left _ mem

theorem copies_snoc {seq : Nat} (note : Note) (mem : seq ∈ copies notes) :
    seq ∈ copies (notes ++ [note]) := by
  rw [copies, filterMap_append]
  exact mem_append_left _ mem

theorem Backed.still (h : Backed notes l) (does : ledgerOps note = [])
    (ledger : (l.play note).ledger = l.ledger) (waiting : (l.play note).presses = l.presses)
    (fanOuts : ∀ r ∈ (l.play note).sent.toList ++ (l.play note).queue, r.originDone = true → r.seq = 0)
    (untook : untaken (notes ++ [note]) = untaken notes) :
    Backed (notes ++ [note]) (l.play note) := by
  have operations : (notes ++ [note]).flatMap ledgerOps = notes.flatMap ledgerOps := by
    simp [does]
  have past : ledgerPast (notes ++ [note]) = ledgerPast notes := by
    simp only [ledgerPast, operations]
  refine ⟨?_, ?_, fanOuts, ?_, ?_, ?_, ?_, ?_, ?_⟩
  · rw [operations, ledger]
    exact h.table
  · rw [past, ledger]
    exact h.refines
  · rw [waiting]
    exact h.numbered
  · rw [waiting, past]
    exact h.known
  · rw [waiting, past]
    exact h.named
  · rw [waiting, past]
    exact h.answered
  · rw [waiting, past]
    intro p stands
    rcases h.owned p stands with waits | took | copy
    · exact .inl waits
    · exact .inr (.inl (taken_snoc note took))
    · exact .inr (.inr (copies_snoc note copy))
  · rw [untook, past]
    exact h.cleared

theorem Backed.settle (h : Backed notes l) (req : Req) (op : Op) (does : ledgerOps note = [op])
    (outcome : op = .landed req.seq ∨ op = .retire req.seq)
    (waiting : l.presses = req :: (l.play note).presses)
    (ledger : (l.play note).ledger = (l.ledger.step op).1)
    (fanOuts : ∀ r ∈ (l.play note).sent.toList ++ (l.play note).queue, r.originDone = true → r.seq = 0)
    (took : op = .landed req.seq → req.seq ∈ taken (notes ++ [note]))
    (untook : ∀ r ∈ untaken (notes ++ [note]), r ∈ untaken notes ∨ r = req ∧ op = .retire req.seq) :
    Backed (notes ++ [note]) (l.play note) := by
  have first : req ∈ l.presses := by
    rw [waiting]
    exact mem_cons_self ..
  have later : ∀ r ∈ (l.play note).presses, r ∈ l.presses := by
    intro r mem
    rw [waiting]
    exact mem_cons_of_mem _ mem
  have numbered := h.numbered
  rw [waiting, KeyOrder.Ascending, pairwise_cons] at numbered
  -- whatever was answered before has a smaller number, so this outcome is the press's first
  have earlier : ∀ e ∈ ledgerPast notes, ∀ seq, e.input = .landed seq ∨ e.input = .retire seq → seq < req.seq :=
    fun e mem seq its => (h.answered e mem seq its).2 req first
  have permitted : WritePermitted (ledgerPast notes) l.ledger op := by
    rcases outcome with rfl | rfl
    · refine ⟨h.known req first, ?_⟩
      intro e mem
      exact ⟨fun its => Nat.lt_irrefl _ (earlier e mem _ (.inr its)),
        fun other its => earlier e mem other (.inl its)⟩
    · refine ⟨h.known req first, ?_⟩
      intro e mem
      exact ⟨fun its => Nat.lt_irrefl _ (earlier e mem _ (.inl its)),
        fun its => Nat.lt_irrefl _ (earlier e mem _ (.inr its))⟩
  have past := h.past_snoc does
  have unmade : ∀ place edit, op ≠ .record place edit := by
    rintro place edit rfl
    rcases outcome with its | its <;> cases its
  refine ⟨?_, ?_, fanOuts, numbered.2, ?_, ?_, ?_, ?_, ?_⟩
  · rw [h.table_snoc does, ledger]
  · rw [past, ledger]
    exact h.refines.step permitted
  · rw [past]
    exact fun r mem => recorded_mono (h.known r (later r mem))
  · rw [past]
    intro r mem q stands eq
    obtain ⟨p, stood, seq, place, edit, -⟩ | ⟨place, edit, made, -⟩ := standing_step stands
    · have its := h.named r (later r mem) p stood (seq.trans eq)
      rw [← place, ← edit]
      exact its
    · exact absurd made (unmade place edit)
  · rw [past]
    intro e mem seq its
    rcases mem_append.mp mem with old | new
    · obtain ⟨known, less⟩ := h.answered e old seq its
      exact ⟨recorded_mono known, fun r mem => less r (later r mem)⟩
    · have number : seq = req.seq := by
        rw [mem_singleton.mp new] at its
        rcases outcome with rfl | rfl
        · rcases its with its | its
          · exact (Op.landed.inj its).symm
          · cases its
        · rcases its with its | its
          · cases its
          · exact (Op.retire.inj its).symm
      rw [number]
      exact ⟨recorded_mono (h.known req first), numbered.1⟩
  · rw [past]
    intro q stands
    obtain ⟨p, stood, seq, -, -, -, kept⟩ | ⟨place, edit, made, -⟩ := standing_step stands
    · rw [← seq]
      rcases h.owned p stood with ⟨r, mem, eq⟩ | old | copy
      · rw [waiting] at mem
        rcases mem_cons.mp mem with rfl | waits
        · rcases outcome with landed | retired
          · rw [← eq]
            exact .inr (.inl (took landed))
          · rw [retired, eq] at kept
            exact absurd rfl kept
        · exact .inl ⟨r, waits, eq⟩
      · exact .inr (.inl (taken_snoc note old))
      · exact .inr (.inr (copies_snoc note copy))
    · exact absurd made (unmade place edit)
  · rw [past]
    intro r mem
    rcases untook r mem with old | ⟨rfl, retired⟩
    · obtain ⟨known, gone⟩ := h.cleared r old
      refine ⟨recorded_mono known, ?_⟩
      intro q stands
      obtain ⟨p, stood, seq, -⟩ | ⟨place, edit, made, -⟩ := standing_step stands
      · rw [← seq]
        exact gone p stood
      · exact absurd made (unmade place edit)
    · refine ⟨recorded_mono (h.known _ first), ?_⟩
      intro q stands eq
      obtain ⟨p, stood, seq, -, -, -, kept⟩ | ⟨place, edit, made, -⟩ := standing_step stands
      · rw [retired, seq, eq] at kept
        exact absurd rfl kept
      · exact absurd made (unmade place edit)

/-- An entry is recorded: of a new press, which takes the place of waiting ones of its
item and toggle, or of a copy. -/
theorem Backed.enter (h : Backed notes l) (place : ViewAt) (edit : ViewEdit)
    (kept out : List Req) (fresh : Option Req)
    (does : ledgerOps note = [.record place edit])
    (ledger : (l.play note).ledger = (l.ledger.record place edit).1)
    (fanOuts : ∀ r ∈ (l.play note).sent.toList ++ (l.play note).queue, r.originDone = true → r.seq = 0)
    (waiting : (l.play note).presses = kept ++ fresh.toList) (remain : kept.Sublist l.presses)
    (leaves : ∀ r ∈ l.presses, r ∈ kept ∨ r ∈ out)
    (same_item : ∀ r ∈ out, r ∈ l.presses ∧ r.place = place ∧ sameKind r.w.edit edit = true)
    (numbers : ∀ r ∈ fresh.toList, r.seq = l.ledger.seq + 1 ∧ r.place = place ∧ r.w.edit = edit)
    (backing : (∃ r ∈ fresh.toList, r.seq = l.ledger.seq + 1) ∨ l.ledger.seq + 1 ∈ copies (notes ++ [note]))
    (untook : ∀ r ∈ untaken (notes ++ [note]), r ∈ untaken notes ∨ r ∈ out) :
    Backed (notes ++ [note]) (l.play note) := by
  have past := h.past_snoc does
  have now : l.ledger.seq + 1 ∈ recorded (ledgerPast notes ++
      [event Table.step l.ledger (.record place edit)]) := by
    rw [recorded_snoc]
    exact mem_append_right _ (mem_singleton_self _)
  -- a press taken out of the queue has lost its entry to the new one
  have replaced : ∀ r ∈ out, ∀ p ∈ standing (ledgerPast notes), p.seq = r.seq →
      p.place = place ∧ sameKind p.edit edit = true := by
    intro r leaves p stood eq
    obtain ⟨waited, there, kind⟩ := same_item r leaves
    obtain ⟨its, edits⟩ := h.named r waited p stood eq
    rw [its, edits]
    exact ⟨there, kind⟩
  have numbered : KeyOrder.Ascending Req.seq (kept ++ fresh.toList) := by
    refine pairwise_append.mpr ⟨h.numbered.sublist remain, ?_, ?_⟩
    · cases fresh with
      | none => exact .nil
      | some r => exact pairwise_singleton _ _
    · intro r old r' new
      rw [(numbers r' new).1]
      exact Nat.lt_succ_of_le (h.seq_le (remain.subset old))
  refine ⟨?_, ?_, fanOuts, ?_, ?_, ?_, ?_, ?_, ?_⟩
  · rw [h.table_snoc does, ledger]
    rfl
  · rw [past, ledger]
    exact h.refines.record place edit
  · rw [waiting]
    exact numbered
  · rw [waiting, past]
    intro r mem
    rcases mem_append.mp mem with old | new
    · exact recorded_mono (h.known r (remain.subset old))
    · rw [(numbers r new).1]
      exact now
  · rw [waiting, past]
    intro r mem q stands eq
    rcases mem_append.mp mem with old | new
    · have waited := remain.subset old
      obtain ⟨p, stood, seq, there, edits, -⟩ | ⟨_, _, -, number, -⟩ := standing_step stands
      · rw [← there, ← edits]
        exact h.named r waited p stood (seq.trans eq)
      · have below := h.seq_le waited
        omega
    · obtain ⟨number, there, edits⟩ := numbers r new
      obtain ⟨p, stood, seq, -⟩ | ⟨_, _, made, -, its_place, its_edit⟩ := standing_step stands
      · have below := h.refines.seq_le stood
        omega
      · cases made
        rw [its_place, its_edit]
        exact ⟨there.symm, edits.symm⟩
  · rw [waiting, past]
    intro e mem seq its
    rcases mem_append.mp mem with old | new
    · obtain ⟨known, less⟩ := h.answered e old seq its
      refine ⟨recorded_mono known, ?_⟩
      intro r mem
      rcases mem_append.mp mem with waits | new
      · exact less r (remain.subset waits)
      · rw [(numbers r new).1]
        exact Nat.lt_succ_of_le (h.refines.bounded seq known)
    · rw [mem_singleton.mp new] at its
      rcases its with its | its <;> cases its
  · rw [waiting, past]
    intro q stands
    obtain ⟨p, stood, seq, there, edits, apart, -⟩ | ⟨_, _, -, number, -⟩ := standing_step stands
    · rw [← seq]
      rcases h.owned p stood with ⟨r, mem, eq⟩ | old | copy
      · rcases leaves r mem with waits | gone
        · exact .inl ⟨r, mem_append_left _ waits, eq⟩
        · exact absurd (replaced r gone p stood eq.symm) (apart place edit rfl)
      · exact .inr (.inl (taken_snoc note old))
      · exact .inr (.inr (copies_snoc note copy))
    · rw [number]
      rcases backing with ⟨r, new, its⟩ | copy
      · exact .inl ⟨r, mem_append_right _ new, its⟩
      · exact .inr (.inr copy)
  · rw [past]
    intro r mem
    have gone : r.seq ∈ recorded (ledgerPast notes) ∧ ∀ p ∈ standing (ledgerPast notes), p.seq = r.seq →
        p.place = place ∧ sameKind p.edit edit = true := by
      rcases untook r mem with old | leaves
      · obtain ⟨known, gone⟩ := h.cleared r old
        exact ⟨known, fun p stood eq => absurd eq (gone p stood)⟩
      · exact ⟨h.known r (same_item r leaves).1, replaced r leaves⟩
    refine ⟨recorded_mono gone.1, ?_⟩
    intro q stands eq
    obtain ⟨p, stood, seq, -, -, apart, -⟩ | ⟨_, _, -, number, -⟩ := standing_step stands
    · exact apart place edit rfl (gone.2 p stood (seq.trans eq))
    · have below := h.refines.bounded _ gone.1
      omega

theorem Backed.gone_zero (h : Backed notes l) : Table.Gone 0 l.ledger := by
  refine ⟨Nat.zero_le _, ?_⟩
  intro e mem zero
  have positive := (h.refines.ordered.numbered e mem).1
  omega

theorem untaken_queued (req : Req) (replaced : List Req) :
    untaken (notes ++ [.queued req replaced]) = untaken notes ++ replaced.filter (fun r => !r.originDone) := by
  simp [untaken]

theorem sameKind_of_family {w w' : Write} (eq : w.family = w'.family) : sameKind w.edit w'.edit = true := by
  cases w <;> cases w' <;> first | rfl | cases eq

theorem about_place {r req : Req} (about : r.about req.sid req.rk req.w = true) (scope : r.scope = req.scope) :
    r.place = req.place ∧ sameKind r.w.edit req.w.edit = true := by
  simp only [Req.about, sameItem, Bool.and_eq_true, decide_eq_true_eq] at about
  obtain ⟨⟨sid, rk⟩, family⟩ := about
  refine ⟨?_, sameKind_of_family family⟩
  simp only [Req.place, sid, rk, scope]

variable {req : Req}

section
variable (h : Backed notes l)
include h

theorem Backed.queued {replaced : List Req}
    (allowed : l.Allows (.queued req replaced)) (keeps : KeepsScope (.queued req replaced)) :
    Backed (notes ++ [.queued req replaced]) (l.play (.queued req replaced)) := by
  obtain ⟨-, were_queued, about, fanOut, press⟩ := allowed
  have fanOuts : ∀ r ∈ (l.play (.queued req replaced)).sent.toList ++ (l.play (.queued req replaced)).queue,
      r.originDone = true → r.seq = 0 := by
    intro r mem origin
    simp only [play, ← append_assoc] at mem
    rcases mem_append.mp mem with old | new
    · refine h.fanOuts r ?_ origin
      rcases mem_append.mp old with flight | waits
      · exact mem_append_left _ flight
      · exact mem_append_right _ (mem_filter.mp waits).1
    · rw [mem_singleton.mp new] at origin ⊢
      exact (fanOut origin).1
  cases origin : req.originDone with
  | true =>
    obtain ⟨-, rfl⟩ := fanOut origin
    refine h.still ?_ ?_ ?_ fanOuts ?_
    · simp [ledgerOps, origin]
    · simp [play, origin]
    · simp [presses, play, origin]
    · simp [untaken]
  | false =>
    have number := press origin
    refine h.enter req.place req.w.edit
      ((l.sent.toList ++ l.queue.filter (fun r => r ∉ replaced)).filter (fun r => !r.originDone))
      (replaced.filter (fun r => !r.originDone)) (some req) ?_ ?_ fanOuts ?_ ?_ ?_ ?_ ?_ ?_ ?_
    · simp [ledgerOps, origin]
    · simp [play, origin]
    · simp [presses, play, origin]
    · exact (List.Sublist.append_left filter_sublist _).filter _
    · intro r mem
      obtain ⟨pending, presses⟩ := mem_filter.mp mem
      by_cases leaves : r ∈ replaced
      · exact .inr (mem_filter.mpr ⟨leaves, presses⟩)
      · refine .inl (mem_filter.mpr ⟨?_, presses⟩)
        rcases mem_append.mp pending with flight | waits
        · exact mem_append_left _ flight
        · exact mem_append_right _ (mem_filter.mpr ⟨waits, decide_eq_true leaves⟩)
    · intro r mem
      obtain ⟨leaves, presses⟩ := mem_filter.mp mem
      have waited : r ∈ l.presses :=
        mem_filter.mpr ⟨mem_append_right _ (were_queued.subset leaves), presses⟩
      exact ⟨waited, about_place (about r leaves) (keeps r leaves (by simpa using presses))⟩
    · intro r new
      rw [Option.toList_some, mem_singleton] at new
      rw [new]
      exact ⟨number, rfl, rfl⟩
    · exact .inl ⟨req, mem_singleton_self _, number⟩
    · intro r mem
      rw [untaken_queued] at mem
      exact mem_append.mp mem

theorem Backed.dropped (allowed : l.Allows (.dropped req)) :
    Backed (notes ++ [.dropped req]) (l.play (.dropped req)) := by
  obtain ⟨idle, rest, queue⟩ := allowed
  have fanOuts : ∀ r ∈ l.sent.toList ++ l.queue.tail, r.originDone = true → r.seq = 0 := by
    intro r mem
    refine h.fanOuts r ?_
    rw [queue] at mem ⊢
    rcases mem_append.mp mem with flight | waits
    · exact mem_append_left _ flight
    · exact mem_append_right _ (mem_cons_of_mem _ waits)
  have first : req ∈ l.sent.toList ++ l.queue := by
    rw [idle, queue]
    exact mem_cons_self ..
  cases origin : req.originDone with
  | true =>
    have zero := h.fanOuts req first origin
    refine h.still ?_ ?_ ?_ fanOuts ?_
    · simp [ledgerOps, origin]
    · simp [play, zero, h.gone_zero.retire_eq]
    · simp [presses, play, queue, origin]
    · simp [untaken, origin]
  | false =>
    refine h.settle req (.retire req.seq) ?_ (.inr rfl) ?_ rfl fanOuts (by rintro ⟨⟩) ?_
    · simp [ledgerOps, origin]
    · simp [presses, play, idle, queue, origin]
    · intro r mem
      have gone : r ∈ untaken notes ++ [req] := by simpa [untaken, origin] using mem
      rcases mem_append.mp gone with old | new
      · exact .inl old
      · exact .inr ⟨mem_singleton.mp new, rfl⟩

theorem Backed.handed {keys : ClientKeys}
    (allowed : l.Allows (.handed req keys)) :
    Backed (notes ++ [.handed req keys]) (l.play (.handed req keys)) := by
  obtain ⟨idle, rest, queue⟩ := allowed
  have pending : (l.play (.handed req keys)).sent.toList ++ (l.play (.handed req keys)).queue =
      l.sent.toList ++ l.queue := by
    simp [play, idle, queue]
  refine h.still rfl rfl ?_ ?_ ?_
  · simp only [presses, pending]
  · rw [pending]
    exact h.fanOuts
  · simp [untaken]

theorem Backed.refused (allowed : l.Allows (.refused req)) :
    Backed (notes ++ [.refused req]) (l.play (.refused req)) := by
  have flight : l.sent = some req := allowed
  have pending : (l.play (.refused req)).sent.toList ++ (l.play (.refused req)).queue =
      l.sent.toList ++ l.queue := by
    simp [play, flight]
  refine h.still rfl rfl ?_ ?_ ?_
  · simp only [presses, pending]
  · rw [pending]
    exact h.fanOuts
  · simp [untaken]

theorem Backed.written {done : Done}
    (allowed : l.Allows (.written req done)) :
    Backed (notes ++ [.written req done]) (l.play (.written req done)) := by
  have flight : l.sent = some req := allowed
  have fanOuts : ∀ r ∈ (none : Option Req).toList ++ l.queue, r.originDone = true → r.seq = 0 :=
    fun r mem => h.fanOuts r (mem_append_right _ mem)
  have first : req ∈ l.sent.toList ++ l.queue := by
    rw [flight]
    exact mem_cons_self ..
  cases origin : req.originDone with
  | true =>
    have zero := h.fanOuts req first origin
    refine h.still ?_ ?_ ?_ fanOuts ?_
    · simp [ledgerOps, origin]
    · simp [play, zero, h.gone_zero.retire_eq, h.gone_zero.landed_eq]
    · simp [presses, play, flight, origin]
    · cases ok : done.ok <;> simp [untaken, origin]
  | false =>
    have waiting : l.presses = req :: (l.play (.written req done)).presses := by
      simp [presses, play, flight, origin]
    cases ok : done.ok with
    | true =>
      refine h.settle req (.landed req.seq) ?_ (.inl rfl) waiting ?_ fanOuts ?_ ?_
      · simp [ledgerOps, origin, ok]
      · simp [play, ok, Table.step]
      · simp [taken, origin, ok]
      · intro r mem
        exact .inl (by simpa [untaken, ok] using mem)
    | false =>
      refine h.settle req (.retire req.seq) ?_ (.inr rfl) waiting ?_ fanOuts (by rintro ⟨⟩) ?_
      · simp [ledgerOps, origin, ok]
      · simp [play, ok, Table.step]
      · intro r mem
        have gone : r ∈ untaken notes ++ [req] := by simpa [untaken, origin, ok] using mem
        rcases mem_append.mp gone with old | new
        · exact .inl old
        · exact .inr ⟨mem_singleton.mp new, rfl⟩

theorem Backed.copied {seq : Nat} {place : ViewAt}
    (allowed : l.Allows (.copied req seq place)) :
    Backed (notes ++ [.copied req seq place]) (l.play (.copied req seq place)) := by
  have number : seq = l.ledger.seq + 1 := allowed
  refine h.enter place req.w.edit l.presses [] none rfl rfl h.fanOuts ?_ (.refl _) ?_ ?_ ?_ ?_ ?_
  · exact (append_nil _).symm
  · exact fun r mem => .inl mem
  · intro r mem
    cases mem
  · intro r mem
    cases mem
  · right
    rw [copies, filterMap_append, ← number]
    exact mem_append_right _ (mem_singleton_self _)
  · intro r mem
    exact .inl (by simpa [untaken] using mem)

theorem Backed.reset (sent : Option Req) (queue : List Req) :
    Backed (notes ++ [.reset sent queue]) (l.play (.reset sent queue)) := by
  have does : ledgerOps (.reset sent queue) = [.reset] := rfl
  have past := h.past_snoc does
  have nobody : standing (ledgerPast (notes ++ [.reset sent queue])) = [] := by
    rw [past]
    exact standing_snoc _
  refine ⟨h.table_snoc does, ?_, ?_, .nil, ?_, ?_, ?_, ?_, ?_⟩
  · rw [past]
    exact h.refines.reset
  · intro r mem
    cases mem
  · intro r mem
    cases mem
  · intro r mem
    cases mem
  · rw [past]
    intro e mem seq its
    rcases mem_append.mp mem with old | new
    · exact ⟨recorded_mono (h.answered e old seq its).1, fun r mem => by cases mem⟩
    · rw [mem_singleton.mp new] at its
      rcases its with its | its <;> cases its
  · rw [nobody]
    intro p stands
    cases stands
  · intro r mem
    have old : r ∈ untaken notes := by simpa [untaken] using mem
    refine ⟨?_, ?_⟩
    · rw [past]
      exact recorded_mono (h.cleared r old).1
    · rw [nobody]
      intro p stands
      cases stands

end

theorem Trace.backed (h : Trace empty notes l) (keeps : ∀ note ∈ notes, KeepsScope note) : Backed notes l := by
  induction h with
  | start => exact backed_empty
  | @move notes l note _ allowed ih =>
    have before := ih (fun note mem => keeps note (mem_append_left _ mem))
    have scope := keeps note (mem_append_right _ (mem_singleton_self _))
    cases note with
    | queued req replaced => exact before.queued allowed scope
    | dropped req => exact before.dropped allowed
    | handed req keys => exact before.handed allowed
    | refused req => exact before.refused allowed
    | written req done => exact before.written allowed
    | copied req seq place => exact before.copied allowed
    | reset sent queue => exact before.reset sent queue

end
end Lane

namespace ViewStateState
open Lane (KeepsScope)

theorem sendNext_keepsScope (keys : ClientKeys) (profile : UInt32) (queue : List Req) (s : ViewStateState) :
    ∀ note ∈ (s.sendNext keys profile queue).2, KeepsScope note := by
  induction queue generalizing s with
  | nil =>
    intro note mem
    cases mem
  | cons r rest ih =>
    intro note mem
    unfold sendNext at mem
    split at mem
    · rw [mem_singleton.mp mem]
      trivial
    · rcases mem_cons.mp mem with rfl | later
      · trivial
      · exact ih _ note later

theorem kick_keepsScope (s : ViewStateState) (keys : ClientKeys) (profile : UInt32) :
    ∀ note ∈ (s.kick keys profile).2, KeepsScope note := by
  unfold kick
  split
  · intro note mem
    cases mem
  · exact sendNext_keepsScope keys profile s.queue s

theorem recordCopies_keepsScope (r : Req) (also : List (ServerId × String)) (ledger : Table) :
    ∀ note ∈ (recordCopies r ledger also).2, KeepsScope note := by
  induction also generalizing ledger with
  | nil =>
    intro note mem
    cases mem
  | cons copy rest ih =>
    intro note mem
    rcases mem_cons.mp mem with rfl | later
    · trivial
    · exact ih _ note later

theorem land_keepsScope (s : ViewStateState) (mail : Option Completion) (keys : ClientKeys)
    (profile : UInt32) : ∀ note ∈ (s.land mail keys profile).2, KeepsScope note := by
  unfold land
  split
  · intro note mem
    cases mem
  · unfold restartRefused
    split
    · intro note mem
      rw [mem_singleton.mp mem]
      trivial
    · intro note mem
      rcases mem_cons.mp mem with rfl | later
      · trivial
      · rw [mem_singleton.mp later]
        trivial
  · intro note mem
    rcases mem_cons.mp mem with rfl | later
    · trivial
    · exact recordCopies_keepsScope _ _ _ note later

end ViewStateState

namespace Writes
open Lane (KeepsScope ledgerOps ledgerPast taken copies untaken)

/-- The queued presses that a press replaces were made with its scope. -/
def SameScope (_ : Past) (s : ViewStateState) : Op → Prop
  | .request sid rk w scope _ keys _ => (keys.key sid).isSome → ∀ r ∈ s.queue,
      r.about sid rk w = true → r.originDone = false → r.scope = scope
  | _ => True

theorem step_keepsScope {past : Past} {s : ViewStateState} {op : Op} (eq : SameScope past s op) :
    ∀ note ∈ (step s op).2.notes, KeepsScope note := by
  cases op with
  | request sid rk w scope guid keys profile =>
    simp only [SameScope] at eq
    simp only [step, ViewStateState.request]
    cases its : keys.key sid with
    | none =>
      intro note mem
      cases mem
    | some key =>
      rw [its] at eq
      intro note mem
      rcases mem_cons.mp mem with rfl | later
      · intro r replaced
        obtain ⟨queued, about⟩ := mem_filter.mp replaced
        exact eq rfl r queued about
      · exact ViewStateState.kick_keepsScope _ keys profile note later
  | fanOutOriginWatched sid rk several keys profile =>
    simp only [step, ViewStateState.fanOutOriginWatched]
    cases keys.key sid with
    | none =>
      intro note mem
      cases mem
    | some key =>
      dsimp only
      split
      · intro note mem
        cases mem
      · intro note mem
        rcases mem_cons.mp mem with rfl | later
        · intro r replaced
          cases replaced
        · exact ViewStateState.kick_keepsScope _ keys profile note later
  | pump mail keys profile =>
    intro note mem
    simp only [step, ViewStateState.pump] at mem
    rcases mem_append.mp mem with landed | sent
    · exact ViewStateState.land_keepsScope _ mail keys profile note landed
    · split at sent
      · exact ViewStateState.kick_keepsScope _ keys profile note sent
      · cases sent
  | takeJobs =>
    intro note mem
    cases mem
  | reset =>
    intro note mem
    rw [mem_singleton.mp mem]
    trivial

theorem run_keepsScope {ops : List Op} (eq : Transducer.Guarded step SameScope [] .default ops) :
    ∀ note ∈ notes (history step .default ops), KeepsScope note := by
  refine guarded_invariant step (R := fun past _ => ∀ note ∈ notes past, KeepsScope note)
    ?_ ?_ eq
  · intro past s op guard before note mem
    rw [notes, flatMap_append, mem_append] at mem
    rcases mem with old | new
    · exact before note old
    · rw [flatMap_singleton] at new
      exact step_keepsScope guard note new
  · intro note mem
    cases mem

/-- An idle owner's ledger holds only entries of presses whose write the server took and
of copies it took, and a press whose write did not take has no entry. -/
def TakenOnly (s : ViewStateState) (log : List Note) : Prop :=
  Transducer.run Table.step Table.new (log.flatMap ledgerOps) = s.ledger ∧
  s.ledger.entries.Perm ((standing (ledgerPast log)).map Press.entry) ∧
  (s.isBusy = false → ∀ p ∈ standing (ledgerPast log), p.seq ∈ taken log ∨ p.seq ∈ copies log) ∧
  ∀ r ∈ untaken log, ∀ p ∈ standing (ledgerPast log), p.seq ≠ r.seq

/-- No entry outlives a write that did not take, in a run whose presses replace queued
presses of their own scope. -/
theorem ledger_holds_taken_writes (ops : List Op)
    (same : Transducer.Guarded step SameScope [] .default ops) :
    TakenOnly (Transducer.run step .default ops) (notes (history step .default ops)) := by
  have backed := (run_trace ops).backed (run_keepsScope same)
  refine ⟨backed.table, backed.refines.entries, ?_, fun r member => (backed.cleared r member).2⟩
  intro idle p stands
  rw [ViewStateState.isBusy, Bool.or_eq_false_iff] at idle
  have nothing : (Transducer.run step .default ops).lane.presses = [] := by
    have queue : (Transducer.run step .default ops).queue = [] := by simpa using idle.1
    have flight : (Transducer.run step .default ops).sent = none := by simpa using idle.2
    simp [Lane.presses, ViewStateState.lane, queue, flight]
  rcases backed.owned p stands with ⟨r, waits, -⟩ | took
  · rw [nothing] at waits
    cases waits
  · exact took

section

/-- Two presses on "b" of one scope, behind a press on "a"; the last one is refused. -/
def refusedToggle : List Op :=
  [.request ⟨0⟩ "a" .watched .leaf "" oneServer 1,
   .request ⟨0⟩ "b" .watched .show_ "" oneServer 1,
   .request ⟨0⟩ "b" .unwatched .show_ "" oneServer 1,
   .pump (some ⟨1, .written ⟨true, []⟩⟩) oneServer 1,
   .pump (some ⟨3, .written ⟨false, []⟩⟩) oneServer 1]

theorem ledger_holds_taken_writes_refusedToggle :
    TakenOnly (Transducer.run step .default refusedToggle)
      (notes (history step .default refusedToggle)) := by
  refine ledger_holds_taken_writes refusedToggle ⟨?_, ?_, ?_, trivial, trivial, trivial⟩
  · intro _ r queued
    cases queued
  · intro _ r queued
    cases queued
  · intro _ r queued
    have only : r.scope = .show_ := by
      revert r
      decide
    exact fun _ _ => only

/-- The same presses, the first one on "b" with another scope. -/
def refusedScopes : List Op :=
  [.request ⟨0⟩ "a" .watched .leaf "" oneServer 1,
   .request ⟨0⟩ "b" .watched .leaf "" oneServer 1,
   .request ⟨0⟩ "b" .unwatched .show_ "" oneServer 1,
   .pump (some ⟨1, .written ⟨true, []⟩⟩) oneServer 1,
   .pump (some ⟨3, .written ⟨false, []⟩⟩) oneServer 1]

/-- The replaced press keeps its entry when the scopes differ. -/
theorem replaced_press_keeps_entry :
    ¬ ∀ ops : List Op,
      TakenOnly (Transducer.run step .default ops) (notes (history step .default ops)) := by
  intro every
  obtain ⟨-, -, taken_only, -⟩ := every refusedScopes
  have claimed := taken_only (by decide)
  revert claimed
  decide

end
end Writes
end PlxNative.ViewState
