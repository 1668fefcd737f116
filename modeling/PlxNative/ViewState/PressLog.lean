import PlxNative.ViewState.Ledger

/-! What the ledger stands for: the presses that are neither replaced nor refused, in the
order they were made. The table keeps the same presses in the order of their numbers. -/
namespace PlxNative.ViewState
open List Nat Table

/-- A standing press: the number it was given, and the last moment it was numbered. -/
structure Press where
  seq : Nat
  moment : Nat
  place : ViewAt
  edit : ViewEdit
  deriving DecidableEq

def Press.entry (p : Press) : Entry := ⟨p.moment, p.place, p.edit⟩

def Press.asks (row : PmsMovie) (p : Press) : Option Bool := ask row p.place p.edit

abbrev Past := List (Transducer.Event Table Op (Option Nat))

/-- One event on the standing presses. A landing moves the moment of a press that still
waits for its write and leaves the press where it is. -/
def note (log : List Press) (e : Transducer.Event Table Op (Option Nat)) : List Press :=
  match e.input with
  | .record place edit =>
    let seq := e.answer.getD 0
    log.filter (fun p => !(decide (p.place = place) && sameKind p.edit edit)) ++ [⟨seq, seq, place, edit⟩]
  | .landed seq => log.map (fun p => if p.seq = seq ∧ p.moment = seq then { p with moment := e.after.seq } else p)
  | .retire seq => log.filter (fun p => p.seq ≠ seq)
  | .reset => []

def standing (past : Past) : List Press := past.foldl note []

def recorded (past : Past) : List Nat := past.filterMap Transducer.Event.answer

/-- A write's outcome is that of a recorded press, comes once, and writes land in press
order. -/
def WritePermitted (past : Past) (_ : Table) : Op → Prop
  | .landed seq => seq ∈ recorded past ∧
      ∀ e ∈ past, e.input ≠ .retire seq ∧ ∀ other, e.input = .landed other → other < seq
  | .retire seq => seq ∈ recorded past ∧ ∀ e ∈ past, e.input ≠ .landed seq ∧ e.input ≠ .retire seq
  | _ => True

/-- The table holds exactly the standing presses. A number that is not a press's own was
given by its landing and is no other press's. -/
structure Refines (past : Past) (t : Table) : Prop where
  ordered : t.Ordered
  entries : t.entries.Perm ((standing past).map Press.entry)
  ascending : KeyOrder.Ascending Press.seq (standing past)
  known : ∀ p ∈ standing past, p.seq ∈ recorded past
  bounded : ∀ seq ∈ recorded past, seq ≤ t.seq
  moved : ∀ p ∈ standing past, p.moment ≠ p.seq →
    p.moment ∉ recorded past ∧ ∃ e ∈ past, e.input = .landed p.seq

section
variable {past : Past} {t : Table}

theorem standing_snoc (op : Op) :
    standing (past ++ [Transducer.event step t op]) =
      note (standing past) (Transducer.event step t op) := by
  simp [standing]

theorem recorded_snoc (op : Op) :
    recorded (past ++ [Transducer.event step t op]) =
      recorded past ++ (step t op).2.toList := by
  cases op <;> simp [recorded, Transducer.event, step]

section
variable (h : Refines past t)
include h

variable {p : Press}

theorem Refines.mem_entries (stands : p ∈ standing past) : p.entry ∈ t.entries :=
  h.entries.mem_iff.mpr (mem_map_of_mem stands)

theorem Refines.press_of_entry {e : Entry} (mem : e ∈ t.entries) :
    ∃ p ∈ standing past, p.entry = e :=
  mem_map.mp (h.entries.mem_iff.mp mem)

theorem Refines.moment_le (stands : p ∈ standing past) : p.moment ≤ t.seq :=
  (h.ordered.numbered _ (h.mem_entries stands)).2

theorem Refines.seq_le (stands : p ∈ standing past) : p.seq ≤ t.seq :=
  h.bounded _ (h.known p stands)

theorem Refines.record (place : ViewAt) (edit : ViewEdit) :
    Refines (past ++ [Transducer.event step t (.record place edit)]) (t.record place edit).1 := by
  have log : standing (past ++ [Transducer.event step t (.record place edit)]) =
      (standing past).filter (fun p => !(decide (p.place = place) && sameKind p.edit edit)) ++
        [⟨t.seq + 1, t.seq + 1, place, edit⟩] := standing_snoc _
  have numbers : recorded (past ++ [Transducer.event step t (.record place edit)]) =
      recorded past ++ [t.seq + 1] := recorded_snoc _
  refine ⟨h.ordered.step (.record place edit), ?_, ?_, ?_, ?_, ?_⟩
  · rw [log, map_append]
    refine List.Perm.append ?_ (.refl _)
    have filtered := h.entries.filter (fun e => !(decide (e.place = place) && sameKind e.edit edit))
    rw [filter_map] at filtered
    exact filtered
  · rw [log]
    refine (h.ascending.filter _).snoc ?_
    intro p mem
    exact lt_succ_of_le (h.seq_le (mem_filter.mp mem).1)
  · rw [log, numbers]
    exact forall_mem_append.mpr ⟨fun p old => mem_append_left _ (h.known p (mem_filter.mp old).1), forall_mem_singleton.mpr (mem_append_right _ (mem_singleton_self _))⟩
  · rw [numbers]
    intro seq mem
    rcases mem_append.mp mem with old | new
    · exact le_succ_of_le (h.bounded seq old)
    · exact Nat.le_of_eq (mem_singleton.mp new)
  · rw [log, numbers]
    intro p mem away
    rcases mem_append.mp mem with old | new
    · have stands := (mem_filter.mp old).1
      obtain ⟨unrecorded, e, there, lands⟩ := h.moved p stands away
      refine ⟨?_, e, mem_append_left _ there, lands⟩
      rw [mem_append, mem_singleton, not_or]
      exact ⟨unrecorded, Nat.ne_of_lt (lt_succ_of_le (h.moment_le stands))⟩
    · rw [mem_singleton.mp new] at away
      exact absurd rfl away

theorem Refines.owner (stands : p ∈ standing past) (its : p.moment ∈ recorded past) : p.moment = p.seq := by
  by_contra away
  exact (h.moved p stands away).1 its

variable {seq : Nat}

theorem Refines.retire (permitted : WritePermitted past t (.retire seq)) :
    Refines (past ++ [Transducer.event step t (.retire seq)]) (t.retire seq) := by
  have log : standing (past ++ [Transducer.event step t (.retire seq)]) =
      (standing past).filter (fun p => p.seq ≠ seq) := standing_snoc _
  have numbers : recorded (past ++ [Transducer.event step t (.retire seq)]) = recorded past := by
    rw [recorded_snoc]
    exact append_nil _
  refine ⟨h.ordered.step (.retire seq), ?_, ?_, ?_, ?_, ?_⟩
  · have same : (standing past).filter (fun p => p.seq ≠ seq) =
        (standing past).filter (fun p => p.entry.seq ≠ seq) := by
      apply filter_congr
      intro p stands
      rw [decide_eq_decide, not_iff_not]
      constructor
      · intro own
        by_contra away
        have moved : p.moment ≠ p.seq := fun eq => away (eq.trans own)
        obtain ⟨-, e, there, lands⟩ := h.moved p stands moved
        rw [own] at lands
        exact (permitted.2 e there).1 lands
      · intro number
        have its : p.moment = seq := number
        rw [← its] at permitted ⊢
        exact (h.owner stands permitted.1).symm
    have filtered := h.entries.filter (fun e => e.seq ≠ seq)
    rw [filter_map] at filtered
    rw [log, same]
    exact filtered
  · rw [log]
    exact h.ascending.filter _
  · rw [log, numbers]
    exact fun p mem => h.known p (mem_filter.mp mem).1
  · rw [numbers]
    exact h.bounded
  · rw [log, numbers]
    intro p mem away
    obtain ⟨unrecorded, e, there, lands⟩ := h.moved p (mem_filter.mp mem).1 away
    exact ⟨unrecorded, e, mem_append_left _ there, lands⟩

theorem Refines.reset :
    Refines (past ++ [Transducer.event step t .reset]) t.reset := by
  have log : standing (past ++ [Transducer.event step t .reset]) = [] := standing_snoc _
  have numbers : recorded (past ++ [Transducer.event step t .reset]) = recorded past := by
    rw [recorded_snoc]
    exact append_nil _
  refine ⟨h.ordered.step .reset, ?_, ?_, ?_, ?_, ?_⟩
  · rw [log]
    exact .refl _
  · rw [log]
    exact .nil
  · rw [log]
    exact fun p mem => absurd mem not_mem_nil
  · rw [numbers]
    exact fun seq mem => le_succ_of_le (h.bounded seq mem)
  · rw [log]
    exact fun p mem => absurd mem not_mem_nil

/-- The landing of a press: its place in the log stays, its entry goes to the end. -/
structure Moves (past : Past) (t : Table) (p : Press) : Prop where
  log : (standing (past ++ [Transducer.event step t (.landed p.seq)])).map Press.seq =
    (standing past).map Press.seq
  entries : (t.landed p.seq).entries.Perm
    ((standing (past ++ [Transducer.event step t (.landed p.seq)])).map Press.entry)

theorem Refines.landed_press (permitted : WritePermitted past t (.landed seq)) :
    (standing (past ++ [Transducer.event step t (.landed seq)]) = standing past ∧ t.landed seq = t) ∨
    ∃ p ∈ standing past, p.seq = seq ∧ Moves past t p ∧
      ∀ q ∈ standing (past ++ [Transducer.event step t (.landed seq)]),
        q = { p with moment := t.seq + 1 } ∨ q ∈ standing past := by
  have log : standing (past ++ [Transducer.event step t (.landed seq)]) =
      (standing past).map (fun p =>
        if p.seq = seq ∧ p.moment = seq then { p with moment := (t.landed seq).seq } else p) := standing_snoc _
  obtain ⟨missing, eq⟩ | ⟨before, entry, after, split, number, -, moved⟩ := t.landed_cases seq
  · refine .inl ⟨?_, eq⟩
    rw [log]
    refine (map_congr_left ?_).trans (map_id _)
    intro p stands
    refine if_neg ?_
    intro waiting
    exact missing _ (h.mem_entries stands) waiting.2
  · have found : entry ∈ t.entries := by
      rw [split]
      exact mem_append_right _ (mem_cons_self ..)
    obtain ⟨p, stands, rfl⟩ := h.press_of_entry found
    have waiting : p.moment = seq := number
    have own : p.seq = seq := by
      rw [← waiting] at permitted ⊢
      exact (h.owner stands permitted.1).symm
    obtain ⟨older, newer, parts⟩ := append_of_mem stands
    have ascending := h.ascending
    rw [parts, KeyOrder.Ascending, pairwise_append, pairwise_cons] at ascending
    have older_kept : older.map (fun p =>
        if p.seq = seq ∧ p.moment = seq then { p with moment := (t.landed seq).seq } else p) = older := by
      refine (map_congr_left ?_).trans (map_id _)
      intro q mem
      refine if_neg ?_
      have less := ascending.2.2 q mem p (mem_cons_self ..)
      omega
    have newer_kept : newer.map (fun p =>
        if p.seq = seq ∧ p.moment = seq then { p with moment := (t.landed seq).seq } else p) = newer := by
      refine (map_congr_left ?_).trans (map_id _)
      intro q mem
      refine if_neg ?_
      have less := ascending.2.1.1 q mem
      omega
    have now : standing (past ++ [Transducer.event step t (.landed seq)]) =
        older ++ { p with moment := t.seq + 1 } :: newer := by
      rw [log, parts, map_append, map_cons, older_kept, newer_kept, if_pos ⟨own, waiting⟩, moved]
    refine .inr ⟨p, stands, own, ⟨?_, ?_⟩, ?_⟩
    · rw [own, now, parts]
      simp only [map_append, map_cons]
    · have perm := h.entries
      rw [split, parts, map_append, map_cons] at perm
      have rest := (perm_middle.symm.trans (perm.trans perm_middle)).cons_inv
      rw [own, now, moved, map_append, map_cons]
      exact (perm_append_singleton _ _).trans ((rest.cons _).trans perm_middle.symm)
    · intro q mem
      rw [now] at mem
      rw [parts]
      simp only [mem_append, mem_cons] at mem ⊢
      tauto

theorem Refines.landed (permitted : WritePermitted past t (.landed seq)) :
    Refines (past ++ [Transducer.event step t (.landed seq)]) (t.landed seq) := by
  have numbers : recorded (past ++ [Transducer.event step t (.landed seq)]) = recorded past := by
    rw [recorded_snoc]
    exact append_nil _
  have ordered := h.ordered.step (.landed seq)
  have grown : ∀ n ∈ recorded past, n ≤ (t.landed seq).seq :=
    fun n mem => Nat.le_trans (h.bounded n mem) (t.seq_le_step (.landed seq))
  obtain ⟨log, eq⟩ | ⟨p, stands, rfl, moves, kept⟩ := h.landed_press permitted
  · refine ⟨ordered, ?_, ?_, ?_, ?_, ?_⟩
    · rw [log, eq]
      exact h.entries
    · rw [log]
      exact h.ascending
    · rw [log, numbers]
      exact h.known
    · rw [numbers]
      exact grown
    · rw [log, numbers]
      intro q stands away
      obtain ⟨unrecorded, e, there, lands⟩ := h.moved q stands away
      exact ⟨unrecorded, e, mem_append_left _ there, lands⟩
  · refine ⟨ordered, moves.entries, ?_, ?_, ?_, ?_⟩
    · have ascending := h.ascending
      rw [KeyOrder.Ascending, ← pairwise_map] at ascending ⊢
      rw [moves.log]
      exact ascending
    · rw [numbers]
      intro q mem
      rcases kept q mem with rfl | old
      · exact h.known p stands
      · exact h.known q old
    · rw [numbers]
      exact grown
    · rw [numbers]
      intro q mem away
      rcases kept q mem with rfl | old
      · refine ⟨?_, _, mem_append_right _ (mem_singleton_self _), by rfl⟩
        intro its
        exact absurd (h.bounded _ its) (not_succ_le_self _)
      · obtain ⟨unrecorded, e, there, lands⟩ := h.moved q old away
        exact ⟨unrecorded, e, mem_append_left _ there, lands⟩

theorem Refines.step {op : Op} (permitted : WritePermitted past t op) :
    Refines (past ++ [Transducer.event step t op]) (t.step op).1 := by
  cases op with
  | record place edit => exact h.record place edit
  | landed seq => exact h.landed permitted
  | retire seq => exact h.retire permitted
  | reset => exact h.reset

end

theorem refines_empty (seq : Nat) : Refines [] ⟨seq, []⟩ := by
  refine ⟨⟨.nil, ?_, .nil⟩, .refl _, .nil, ?_, ?_, ?_⟩
  all_goals
    intro x mem
    cases mem

end
end PlxNative.ViewState
