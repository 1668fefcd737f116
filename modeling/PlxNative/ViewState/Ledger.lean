import PlxNative.Lib.KeyOrder
import PlxNative.Lib.Transducer
import PlxNative.ViewState.Rows

/-! The ledger of published view-state edits. An entry's number says when a read could
last have been answered without it, so a landing renumbers the entry above every stamp
handed out before. Numbers and stamps are the source's 64-bit `Stamp`. -/
namespace PlxNative.ViewState
open List Nat Transducer

structure Entry where
  seq : Nat
  place : ViewAt
  edit : ViewEdit
  deriving DecidableEq

structure Table where
  seq : Nat
  entries : List Entry

namespace Table

def new : Table := ⟨0, []⟩

def record (t : Table) (place : ViewAt) (edit : ViewEdit) : Table × Nat :=
  let seq := t.seq + 1
  let entries := t.entries.filter (fun e => !(decide (e.place = place) && sameKind e.edit edit))
  (⟨seq, entries ++ [⟨seq, place, edit⟩]⟩, seq)

def landed (t : Table) (seq : Nat) : Table :=
  match t.entries.find? (fun e => e.seq = seq) with
  | none => t
  | some entry =>
    let rest := t.entries.eraseP (fun e => e.seq = seq)
    ⟨t.seq + 1, rest ++ [{ entry with seq := t.seq + 1 }]⟩

def retire (t : Table) (seq : Nat) : Table :=
  { t with entries := t.entries.filter (fun e => e.seq ≠ seq) }

def reset (t : Table) : Table := ⟨t.seq + 1, []⟩

def stamp (t : Table) : Nat := t.seq

def since (t : Table) (stamp : Nat) : List (ViewAt × ViewEdit) :=
  if t.seq ≤ stamp then []
  else (t.entries.filter (fun e => stamp < e.seq)).map (fun e => (e.place, e.edit))

def patch (t : Table) (stamp : Nat) (rows : List PmsMovie) : List PmsMovie :=
  let edits := t.since stamp
  if edits.isEmpty then rows else rows.map (replay edits)

end Table

inductive Op where
  | record (place : ViewAt) (edit : ViewEdit)
  | landed (seq : Nat)
  | retire (seq : Nat)
  | reset

/-- One operation; a press answers its number. -/
def Table.step (t : Table) : Op → Table × Option Nat
  | .record place edit => ((t.record place edit).1, some (t.record place edit).2)
  | .landed seq => (t.landed seq, none)
  | .retire seq => (t.retire seq, none)
  | .reset => (t.reset, none)

namespace Table
variable {t : Table}

theorem patch_eq (t : Table) (stamp : Nat) (rows : List PmsMovie) :
    t.patch stamp rows = rows.map (replay (t.since stamp)) := by
  unfold patch
  cases edits : t.since stamp with
  | nil =>
    have nothing : replay [] = id := rfl
    rw [nothing, map_id]
    rfl
  | cons first later => rfl

/-- A landing either finds no entry of that number, or moves the one it finds to the end
under the next number. -/
theorem landed_cases (t : Table) (seq : Nat) :
    ((∀ e ∈ t.entries, e.seq ≠ seq) ∧ t.landed seq = t) ∨
    ∃ before entry after, t.entries = before ++ entry :: after ∧ entry.seq = seq ∧
      (∀ e ∈ before, e.seq ≠ seq) ∧
      t.landed seq = ⟨t.seq + 1, before ++ after ++ [{ entry with seq := t.seq + 1 }]⟩ := by
  unfold landed
  cases found : t.entries.find? (fun e => e.seq = seq) with
  | none =>
    refine .inl ⟨?_, rfl⟩
    intro e mem eq
    have unmatched := List.find?_eq_none.mp found e mem
    exact unmatched (decide_eq_true eq)
  | some entry =>
    obtain ⟨hit, before, after, split, earlier⟩ := List.find?_eq_some_iff_append.mp found
    have apart : ∀ e ∈ before, ¬ decide (e.seq = seq) = true := by
      intro e mem
      have unmatched := earlier e mem
      simpa using unmatched
    refine .inr ⟨before, entry, after, split, of_decide_eq_true hit, ?_, ?_⟩
    · intro e mem eq
      exact apart e mem (decide_eq_true eq)
    · have erased : (entry :: after).eraseP (fun e => decide (e.seq = seq)) = after :=
        eraseP_cons_of_pos hit
      simp only [split, eraseP_append_right _ apart, erased]

structure Ordered (t : Table) : Prop where
  ascending : KeyOrder.Ascending Entry.seq t.entries
  numbered : ∀ e ∈ t.entries, 1 ≤ e.seq ∧ e.seq ≤ t.seq
  distinct : t.entries.Pairwise (fun a b => ¬ (a.place = b.place ∧ sameKind a.edit b.edit = true))

theorem Ordered.next (h : t.Ordered) {kept : List Entry} (sub : kept.Sublist t.entries) (last : Entry)
    (apart : ∀ e ∈ kept, ¬ (e.place = last.place ∧ sameKind e.edit last.edit = true)) :
    Ordered ⟨t.seq + 1, kept ++ [{ last with seq := t.seq + 1 }]⟩ := by
  have below : ∀ e ∈ kept, 1 ≤ e.seq ∧ e.seq ≤ t.seq := fun e mem => h.numbered e (sub.subset mem)
  refine ⟨?_, ?_, ?_⟩
  · refine KeyOrder.Ascending.snoc (List.Pairwise.sublist sub h.ascending) ?_
    intro e mem
    exact lt_succ_of_le (below e mem).2
  · exact forall_mem_append.mpr ⟨fun e old => ⟨(below e old).1, le_succ_of_le (below e old).2⟩, forall_mem_singleton.mpr ⟨Nat.le_add_left _ _, Nat.le_refl _⟩⟩
  · refine pairwise_append.mpr ⟨h.distinct.sublist sub, pairwise_singleton _ _, ?_⟩
    intro a old b new
    rw [mem_singleton.mp new]
    exact apart a old

theorem Ordered.step (h : t.Ordered) (op : Op) : (t.step op).1.Ordered := by
  cases op with
  | record place edit =>
    refine h.next filter_sublist ⟨t.seq + 1, place, edit⟩ ?_
    intro e mem
    have kept := (mem_filter.mp mem).2
    rw [Bool.not_eq_true', Bool.and_eq_false_iff] at kept
    rintro ⟨eq, kind⟩
    rcases kept with apart | other
    · exact of_decide_eq_false apart eq
    · rw [kind] at other
      cases other
  | landed seq =>
    obtain ⟨-, eq⟩ | ⟨before, entry, after, split, -, -, moved⟩ := t.landed_cases seq
    · simp only [Table.step, eq]
      exact h
    · simp only [Table.step, moved]
      have distinct := h.distinct
      rw [split, pairwise_append, pairwise_cons] at distinct
      refine h.next ?_ entry ?_
      · rw [split]
        exact List.Sublist.append_left (sublist_cons_self _ _) _
      · intro e mem
        rcases mem_append.mp mem with earlier | later
        · exact distinct.2.2 e earlier entry (mem_cons_self ..)
        · intro eq
          refine distinct.2.1.1 e later ⟨eq.1.symm, ?_⟩
          simpa [sameKind, eq_comm] using eq.2
  | retire seq =>
    refine ⟨h.ascending.filter _, ?_, h.distinct.sublist filter_sublist⟩
    intro e mem
    exact h.numbered e (mem_filter.mp mem).1
  | reset => exact ⟨.nil, fun _ mem => absurd mem not_mem_nil, .nil⟩

theorem new_ordered : new.Ordered :=
  ⟨.nil, fun _ mem => absurd mem not_mem_nil, .nil⟩

theorem run_ordered (h : t.Ordered) (ops : List Op) : (run step t ops).Ordered :=
  run_invariant step (fun _ op h => h.step op) h ops

theorem seq_le_step (t : Table) (op : Op) : t.seq ≤ (t.step op).1.seq := by
  cases op with
  | record place edit => exact le_succ _
  | landed seq =>
    obtain ⟨-, eq⟩ | ⟨_, _, _, -, -, -, moved⟩ := t.landed_cases seq
    · simp only [Table.step, eq, Nat.le_refl]
    · simp only [Table.step, moved, le_succ]
  | retire seq => exact Nat.le_refl _
  | reset => exact le_succ _

theorem seq_le_run (t : Table) (ops : List Op) : t.seq ≤ (run step t ops).seq :=
  run_invariant step (P := fun later => t.seq ≤ later.seq)
    (fun later op le => Nat.le_trans le (later.seq_le_step op)) (Nat.le_refl _) ops

theorem Ordered.since_eq (h : t.Ordered) (stamp : Nat) :
    t.since stamp = (t.entries.filter (fun e => stamp < e.seq)).map (fun e => (e.place, e.edit)) := by
  unfold since
  split
  · have nothing : t.entries.filter (fun e => stamp < e.seq) = [] := by
      apply filter_eq_nil_iff.mpr
      intro e mem
      have below := (h.numbered e mem).2
      simp only [decide_eq_true_eq]
      omega
    rw [nothing]
    rfl
  · rfl

/-- The number an event gave to an entry: a press's own, or a landing's when it found
the entry. -/
def numberGiven (e : Transducer.Event Table Op (Option Nat)) : Option Nat :=
  match e.input with
  | .record _ _ => e.answer
  | .landed _ => if e.before.seq < e.after.seq then some e.after.seq else none
  | _ => none

variable {e : Entry}

theorem mem_step {op : Op} (mem : e ∈ (t.step op).1.entries) :
    e ∈ t.entries ∨ e.seq = t.seq + 1 ∧ numberGiven (Transducer.event step t op) = some e.seq := by
  cases op with
  | record place edit =>
    rcases mem_append.mp mem with old | new
    · exact .inl (mem_filter.mp old).1
    · rw [mem_singleton.mp new]
      exact .inr ⟨rfl, rfl⟩
  | landed seq =>
    obtain ⟨-, eq⟩ | ⟨before, entry, after, split, -, -, moved⟩ := t.landed_cases seq
    · simp only [Table.step, eq] at mem
      exact .inl mem
    · simp only [Table.step, moved] at mem
      rcases mem_append.mp mem with old | new
      · left
        rw [split]
        rcases mem_append.mp old with earlier | later
        · exact mem_append_left _ earlier
        · exact mem_append_right _ (mem_cons_of_mem _ later)
      · rw [mem_singleton.mp new]
        simp [numberGiven, Transducer.event, Table.step, moved]
  | retire seq => exact .inl (mem_filter.mp mem).1
  | reset => exact absurd mem not_mem_nil

theorem mem_run {ops : List Op} (mem : e ∈ (run step t ops).entries) :
    e ∈ t.entries ∨ e.seq ∈ (history step t ops).filterMap numberGiven := by
  refine history_invariant step
    (R := fun past s => ∀ e ∈ s.entries, e ∈ t.entries ∨ e.seq ∈ past.filterMap numberGiven)
    ?_ (fun _ mem => .inl mem) ops e mem
  intro past s op earlier e mem
  rw [filterMap_append, mem_append]
  rcases mem_step mem with old | ⟨-, given⟩
  · rcases earlier e old with first | numbered
    · exact .inl first
    · exact .inr (.inl numbered)
  · refine .inr (.inr ?_)
    rw [filterMap_cons_some given]
    exact mem_cons_self ..

variable {seq stamp : Nat}

theorem Ordered.patch_retire (h : t.Ordered) (seen : seq ≤ stamp) (rows : List PmsMovie) :
    (t.retire seq).patch stamp rows = t.patch stamp rows := by
  have eq : (t.retire seq).since stamp = t.since stamp := by
    have retired : (t.retire seq).Ordered := h.step (.retire seq)
    rw [retired.since_eq, h.since_eq]
    congr 1
    simp only [retire, filter_filter]
    apply filter_congr
    intro e _
    rw [Bool.eq_iff_iff]
    simp only [Bool.and_eq_true, decide_eq_true_eq]
    omega
  rw [patch_eq, patch_eq, eq]

theorem Ordered.unique (h : t.Ordered) {a b : Entry} (one : a ∈ t.entries) (other : b ∈ t.entries)
    (place : a.place = b.place) (edit : a.edit = b.edit) : a = b := by
  by_contra apart
  have symmetric : Std.Symm (fun a b : Entry => ¬ (a.place = b.place ∧ sameKind a.edit b.edit = true)) := by
    refine ⟨?_⟩
    intro a b distinct eq
    refine distinct ⟨eq.1.symm, ?_⟩
    simpa [sameKind, eq_comm] using eq.2
  refine h.distinct.forall one other apart ⟨place, ?_⟩
  simp [sameKind, edit]

theorem Ordered.not_since (h : t.Ordered) (mem : e ∈ t.entries)
    (seen : e.seq ≤ stamp) : (e.place, e.edit) ∉ t.since stamp := by
  rw [h.since_eq]
  intro replayed
  obtain ⟨other, newer, eq⟩ := mem_map.mp replayed
  obtain ⟨there, above⟩ := mem_filter.mp newer
  have one := h.unique there mem (Prod.mk.inj eq).1 (Prod.mk.inj eq).2
  rw [one, decide_eq_true_eq] at above
  omega

/-- No entry has this number, and none will. -/
def Gone (seq : Nat) (t : Table) : Prop := seq ≤ t.seq ∧ ∀ e ∈ t.entries, e.seq ≠ seq

/-- The entry of this number, if any, is a press of this kind on this item. -/
def Owned (seq : Nat) (place : ViewAt) (edit : ViewEdit) (t : Table) : Prop :=
  seq ≤ t.seq ∧ ∀ e ∈ t.entries, e.seq = seq → e.place = place ∧ sameKind e.edit edit = true

theorem Gone.step (h : Gone seq t) (op : Op) : Gone seq (t.step op).1 := by
  refine ⟨Nat.le_trans h.1 (t.seq_le_step op), ?_⟩
  intro e mem
  rcases mem_step mem with old | ⟨next, -⟩
  · exact h.2 e old
  · have below := h.1
    omega

variable {place : ViewAt}

theorem Owned.step {edit : ViewEdit} (h : Owned seq place edit t) (op : Op) :
    Owned seq place edit (t.step op).1 := by
  refine ⟨Nat.le_trans h.1 (t.seq_le_step op), ?_⟩
  intro e mem eq
  rcases mem_step mem with old | ⟨next, -⟩
  · exact h.2 e old eq
  · have below := h.1
    omega

theorem Ordered.owned_record (h : t.Ordered) (place : ViewAt) (edit : ViewEdit) :
    Owned (t.record place edit).2 place edit (t.record place edit).1 := by
  refine ⟨Nat.le_refl _, ?_⟩
  intro e mem eq
  rcases mem_append.mp mem with old | new
  · have below := (h.numbered e (mem_filter.mp old).1).2
    have next : e.seq = t.seq + 1 := eq
    omega
  · rw [mem_singleton.mp new]
    exact ⟨rfl, decide_eq_true rfl⟩

theorem Owned.replaced {edit newer : ViewEdit} (h : Owned seq place edit t)
    (kind : sameKind edit newer = true) : Gone seq (t.record place newer).1 := by
  refine ⟨le_succ_of_le h.1, ?_⟩
  intro e mem eq
  have below := h.1
  rcases mem_append.mp mem with old | new
  · obtain ⟨there, kept⟩ := mem_filter.mp old
    obtain ⟨item, its⟩ := h.2 e there eq
    have replaces : sameKind e.edit newer = true := by
      simp only [sameKind, decide_eq_true_eq] at its kind ⊢
      exact its.trans kind
    rw [item, replaces] at kept
    simp at kept
  · rw [mem_singleton.mp new] at eq
    simp only at eq
    omega

theorem Gone.landed_eq (h : Gone seq t) : t.landed seq = t := by
  obtain ⟨-, eq⟩ | ⟨before, entry, after, split, hit, -, -⟩ := t.landed_cases seq
  · exact eq
  · refine absurd hit (h.2 entry ?_)
    rw [split]
    exact mem_append_right _ (mem_cons_self ..)

theorem Gone.retire_eq (h : Gone seq t) : t.retire seq = t := by
  have all : t.entries.filter (fun e => e.seq ≠ seq) = t.entries := by
    apply filter_eq_self.mpr
    intro e mem
    exact decide_eq_true (h.2 e mem)
  simp only [retire, all]

theorem gone_of_replaced (place : ViewAt) {edit newer : ViewEdit} (kind : sameKind edit newer = true)
    (before between after : List Op) :
    Gone ((run step new before).record place edit).2
      (run step new (before ++ .record place edit :: between ++ .record place newer :: after)) := by
  have ordered := run_ordered new_ordered before
  simp only [run_append]
  have owned := run_invariant step
    (fun _ op h => h.step op) (ordered.owned_record place edit) between
  exact run_invariant step
    (fun _ op h => h.step op) (owned.replaced kind) after

/-- The table is ordered in every reachable state, its stamps only grow, and from that:
`since` is the entries above the stamp, an entry is not replayed on a read stamped after
it was last numbered, and an outcome of a replaced press changes nothing. -/
theorem ordered_and_fresh (ops : List Op) :
    let t := run step new ops
    t.Ordered ∧
    (∀ stamp, t.since stamp = (t.entries.filter (fun e => stamp < e.seq)).map (fun e => (e.place, e.edit))) ∧
    (∀ issued later, ops = issued ++ later →
      (run step new issued).stamp ≤ t.stamp ∧
      ∀ e ∈ t.entries,
        e.seq ∉ (history step (run step new issued) later).filterMap numberGiven →
        (e.place, e.edit) ∉ t.since (run step new issued).stamp ∧
        ∀ rows, (t.retire e.seq).patch (run step new issued).stamp rows =
          t.patch (run step new issued).stamp rows) ∧
    (∀ before place edit between newer after,
      ops = before ++ .record place edit :: between ++ .record place newer :: after →
      sameKind edit newer = true →
      t.landed ((run step new before).record place edit).2 = t ∧
      t.retire ((run step new before).record place edit).2 = t) := by
  intro t
  have ordered : t.Ordered := run_ordered new_ordered ops
  refine ⟨ordered, ordered.since_eq, ?_, ?_⟩
  · intro issued later whole
    have split : t = run step (run step new issued) later := by
      rw [← run_append, ← whole]
    constructor
    · rw [split]
      exact seq_le_run _ later
    · intro e member unnumbered
      have seen : e.seq ≤ (run step new issued).stamp := by
        have traced := member
        rw [split] at traced
        rcases mem_run traced with old | given
        · exact ((run_ordered new_ordered issued).numbered e old).2
        · exact absurd given unnumbered
      exact ⟨ordered.not_since member seen, fun rows => ordered.patch_retire seen rows⟩
  · intro before place edit between newer after whole kind
    have gone := gone_of_replaced place kind before between after
    rw [← whole] at gone
    exact ⟨gone.landed_eq, gone.retire_eq⟩

end Table
end PlxNative.ViewState
