import PlxNative.ViewState.PressLog

/-! Reads and presses. A patch replays by number what the user did by press, so a read
shows the presses rightly as far as the two orders agree on the row. -/
namespace PlxNative.ViewState
open List Option Transducer Table

section
variable {past : Past} {t : Table} {row : PmsMovie} {stamp : Nat}

theorem asked_since (h : t.Ordered) (row : PmsMovie) (stamp : Nat) :
    asked (t.since stamp) row =
      (t.entries.filter (fun e => stamp < e.seq)).filterMap (fun e => ask row e.place e.edit) := by
  rw [h.since_eq, asked, filterMap_map]
  rfl

theorem Refines.last_asked (h : Refines past t) (row : PmsMovie) (stamp : Nat) (on : Bool) :
    (asked (t.since stamp) row).getLast? = some on ↔
      ∃ p ∈ standing past, stamp < p.moment ∧ p.asks row = some on ∧
        ∀ q ∈ standing past, p.moment < q.moment → q.asks row = none := by
  rw [asked_since h.ordered, (h.ordered.ascending.filter _).getLast?_filterMap on]
  constructor
  · rintro ⟨e, mem, asks, later⟩
    obtain ⟨there, newer⟩ := mem_filter.mp mem
    have above : stamp < e.seq := of_decide_eq_true newer
    obtain ⟨p, stands, rfl⟩ := h.press_of_entry there
    refine ⟨p, stands, above, asks, ?_⟩
    intro q other greater
    have after : stamp < q.moment := Nat.lt_trans above greater
    exact later q.entry (mem_filter.mpr ⟨h.mem_entries other, decide_eq_true after⟩) greater
  · rintro ⟨p, stands, newer, asks, later⟩
    refine ⟨p.entry, mem_filter.mpr ⟨h.mem_entries stands, decide_eq_true newer⟩, asks, ?_⟩
    intro e mem greater
    obtain ⟨q, other, rfl⟩ := h.press_of_entry (mem_filter.mp mem).1
    exact later q other greater

theorem Refines.none_asked (h : Refines past t) (row : PmsMovie) (stamp : Nat) :
    asked (t.since stamp) row = [] ↔
      ∀ p ∈ standing past, stamp < p.moment → p.asks row = none := by
  rw [asked_since h.ordered, filterMap_eq_nil_iff]
  constructor
  · intro silent p stands newer
    exact silent p.entry (mem_filter.mpr ⟨h.mem_entries stands, decide_eq_true newer⟩)
  · intro silent e mem
    obtain ⟨there, newer⟩ := mem_filter.mp mem
    obtain ⟨p, stands, rfl⟩ := h.press_of_entry there
    exact silent p stands (of_decide_eq_true newer)

theorem Refines.moment_inj (h : Refines past t) {p q : Press} (one : p ∈ standing past)
    (other : q ∈ standing past) (eq : p.moment = q.moment) : p.asks row = q.asks row := by
  have entry := h.ordered.ascending.key_injOn (h.mem_entries one) (h.mem_entries other) eq
  simp only [Press.entry, Entry.mk.injEq] at entry
  simp only [Press.asks, entry]

end

/-! Press order. -/

section
variable {past : Past} {t : Table} {row : PmsMovie} {stamp : Nat}

/-- The row is left as the most recent standing press on it asks, in press order, and
untouched when there is none. -/
def PressOrder (row : PmsMovie) (stamp : Nat) (past : Past) (t : Table) : Prop :=
  match ((standing past).filterMap (Press.asks row)).getLast? with
  | some on => (t.patch stamp [row]).map PmsMovie.watched = [on]
  | none => t.patch stamp [row] = [row]

/-- A write that lands is not overtaken on the row: no newer standing press asks the
other value of it. -/
def LandsUncrossed (row : PmsMovie) (past : Past) (_ : Table) : Op → Prop
  | .landed seq => ∀ p ∈ standing past, p.seq = seq → ∀ q ∈ standing past, seq < q.seq →
      ∀ x y, p.asks row = some x → q.asks row = some y → x = y
  | _ => True

/-- Presses that the numbers put in the other order ask the same of the row. -/
def Agreed (row : PmsMovie) (past : Past) : Prop :=
  ∀ p ∈ standing past, ∀ q ∈ standing past, p.seq < q.seq → q.moment < p.moment →
    ∀ x y, p.asks row = some x → q.asks row = some y → x = y

theorem Agreed.of_subset {later : Past} (h : Agreed row past)
    (sub : ∀ p ∈ standing later, p ∈ standing past) : Agreed row later :=
  fun p one q other => h p (sub p one) q (sub q other)

theorem Agreed.step (h : Agreed row past) (refines : Refines past t) {op : Op}
    (permitted : WritePermitted past t op) (uncrossed : LandsUncrossed row past t op) :
    Agreed row (past ++ [event step t op]) := by
  cases op with
  | record place edit =>
    intro p one q other before behind
    rw [standing_snoc] at one other
    rcases mem_append.mp one with old | new
    · have stands := (mem_filter.mp old).1
      have bound := refines.moment_le stands
      rcases mem_append.mp other with old' | new'
      · exact h p stands q (mem_filter.mp old').1 before behind
      · rw [mem_singleton.mp new'] at behind
        have number : t.seq + 1 < p.moment := behind
        omega
    · rw [mem_singleton.mp new] at before behind
      have number : t.seq + 1 < q.seq := before
      have moment : q.moment < t.seq + 1 := behind
      rcases mem_append.mp other with old' | new'
      · have bound := refines.seq_le (mem_filter.mp old').1
        omega
      · rw [mem_singleton.mp new'] at moment
        exact absurd moment (Nat.lt_irrefl _)
  | landed seq =>
    obtain ⟨log, -⟩ | ⟨p, stands, own, -, kept⟩ := refines.landed_press permitted
    · exact h.of_subset (fun p stands => by rw [log] at stands; exact stands)
    · intro a one b other before behind
      rcases kept a one with rfl | old
      · rcases kept b other with rfl | old'
        · exact absurd before (Nat.lt_irrefl _)
        · exact uncrossed p stands own b old' (own ▸ before)
      · rcases kept b other with rfl | old'
        · have bound := refines.moment_le old
          have number : t.seq + 1 < a.moment := behind
          omega
        · exact h a old b old' before behind
  | retire seq =>
    refine h.of_subset ?_
    intro p mem
    rw [standing_snoc] at mem
    exact (mem_filter.mp mem).1
  | reset =>
    intro p mem
    rw [standing_snoc] at mem
    cases mem

theorem Agreed.last_asked (h : Agreed row past) (refines : Refines past t)
    (older : ∀ p ∈ standing past, stamp < p.moment) {on : Bool}
    (last : ((standing past).filterMap (Press.asks row)).getLast? = some on) :
    (asked (t.since stamp) row).getLast? = some on := by
  obtain ⟨p, stands, asks, later⟩ := (refines.ascending.getLast?_filterMap on).mp last
  cases final : (asked (t.since stamp) row).getLast? with
  | none =>
    rw [List.getLast?_eq_none_iff, refines.none_asked] at final
    rw [final p stands (older p stands)] at asks
    cases asks
  | some value =>
    obtain ⟨q, other, -, its, after⟩ := (refines.last_asked row stamp value).mp final
    rcases Nat.lt_trichotomy q.seq p.seq with before | eq | behind
    · rcases Nat.lt_trichotomy p.moment q.moment with crossed | level | ordered
      · rw [h q other p stands before crossed value on its asks]
      · rw [← its, ← asks, refines.moment_inj other stands level.symm]
      · rw [after p stands ordered] at asks
        cases asks
    · rw [← its, ← asks, refines.ascending.key_injOn other stands eq]
    · rw [later q other behind] at its
      cases its

theorem Table.Above.step {t : Table} {seq : Nat} (h : seq ≤ t.seq ∧ ∀ e ∈ t.entries, seq < e.seq) (op : Op) :
    seq ≤ (t.step op).1.seq ∧ ∀ e ∈ (t.step op).1.entries, seq < e.seq := by
  refine ⟨Nat.le_trans h.1 (t.seq_le_step op), ?_⟩
  intro e mem
  rcases mem_step mem with old | ⟨next, -⟩
  · exact h.2 e old
  · omega

/-- Overlapping presses replay in press order as long as no write lands across a newer
press that asks the other value of the row. -/
theorem replays_in_press_order (seq stamp : Nat) (older : stamp ≤ seq) (ops : List Op) (row : PmsMovie)
    (permitted : Transducer.Guarded step WritePermitted [] ⟨seq, []⟩ ops)
    (uncrossed : Transducer.Guarded step (LandsUncrossed row) [] ⟨seq, []⟩ ops) :
    PressOrder row stamp (history step ⟨seq, []⟩ ops)
      (run step ⟨seq, []⟩ ops) := by
  obtain ⟨refines, agreed, -, above⟩ := guarded_invariant step
    (R := fun past t => Refines past t ∧ Agreed row past ∧ seq ≤ t.seq ∧ ∀ e ∈ t.entries, seq < e.seq)
    (fun _ _ op both h => ⟨h.1.step both.1, h.2.1.step h.1 both.1 both.2, Table.Above.step h.2.2 op⟩)
    ⟨refines_empty seq, fun _ member => absurd member not_mem_nil, Nat.le_refl _,
      fun _ member => absurd member not_mem_nil⟩
    (Transducer.Guarded.and step permitted uncrossed)
  have newer : ∀ p ∈ standing (history step ⟨seq, []⟩ ops), stamp < p.moment :=
    fun p stands => Nat.lt_of_le_of_lt older (above _ (refines.mem_entries stands))
  unfold PressOrder
  obtain ⟨-, watched, untouched⟩ := replay_spec ((run step ⟨seq, []⟩ ops).since stamp) row
  rw [patch_eq, map_singleton, map_singleton]
  split
  · rename_i on last
    rw [watched, agreed.last_asked refines newer last, getD_some]
  · rename_i none_asks
    rw [List.getLast?_eq_none_iff, filterMap_eq_nil_iff] at none_asks
    rw [untouched ((refines.none_asked row stamp).mpr (fun p stands _ => none_asks p stands))]

/-- An episode is un-ticked after its show was ticked; when the show's write lands, the
show replays over the episode. -/
theorem show_replays_over_later_episode :
    let episode : PmsMovie := ⟨.unset, "E", 3, 0, "S", 1, true, false, none, none, none⟩
    let ops : List Op := [.record ⟨.unset, "S", .show_⟩ (.watched true),
      .record (.leaf .unset "E") (.watched false), .landed 1]
    Transducer.Guarded step WritePermitted [] .new ops ∧
      ¬ PressOrder episode 0 (history step .new ops) (run step .new ops) := by
  intro episode ops
  refine ⟨⟨trivial, trivial, ⟨by decide, ?_⟩, trivial⟩, ?_⟩
  · intro e member
    simp [event] at member
    rcases member with rfl | rfl <;> simp
  · intro ordered
    have last : ((standing (history step .new ops)).filterMap
        (Press.asks episode)).getLast? = some false := by decide
    simp only [PressOrder, last] at ordered
    exact absurd ordered (by decide)

/-- The show's write lands before the episode is un-ticked. -/
theorem episode_replays_over_landed_show :
    let episode : PmsMovie := ⟨.unset, "E", 3, 0, "S", 1, false, true, none, none, none⟩
    let ops : List Op := [.record ⟨.unset, "S", .show_⟩ (.watched true), .landed 1,
      .record (.leaf .unset "E") (.watched false), .landed 3]
    ((run step .new ops).patch 0 [episode]).map PmsMovie.watched = [false] := by
  intro episode ops
  refine replays_in_press_order 0 0 (Nat.le_refl _) ops episode ?_ ?_
  · refine ⟨trivial, ⟨by decide, ?_⟩, trivial, ⟨by decide, ?_⟩, trivial⟩
    · intro e member
      simp [event] at member
      rcases member with rfl
      simp
    · intro e member
      simp [event] at member
      rcases member with rfl | rfl | rfl <;> simp
  · refine ⟨trivial, ?_, trivial, ?_, trivial⟩
    · intro p _ _ q other after
      have newest : ∀ q ∈ standing (history step .new (ops.take 1)), ¬ 1 < q.seq := by decide
      exact absurd after (newest q other)
    · intro p _ _ q other after
      have newest : ∀ q ∈ standing (history step .new (ops.take 3)), ¬ 3 < q.seq := by decide
      exact absurd after (newest q other)

end

/-! Reads that were out when their rows were pressed. -/

section
variable {past : Past} {t : Table} {row : PmsMovie} {stamp : Nat}

/-- A press that a read must not undo on a row: its write had not landed when the read
was issued, and no newer press covers the row. -/
structure Awaited (issued now : Past) (row : PmsMovie) (press : Press) (on : Bool) : Prop where
  stands : press ∈ standing now
  asks : press.asks row = some on
  unlanded : ∀ e ∈ issued, e.input ≠ .landed press.seq
  newest : ∀ p ∈ standing now, p.asks row ≠ none → p.seq ≤ press.seq

/-- The row carries the pressed value after the patch, whatever body the read brought. -/
def Survives (row : PmsMovie) (stamp : Nat) (on : Bool) (t : Table) : Prop :=
  ∀ rows, ∀ m ∈ t.patch stamp rows, m.id = row.id → m.watched = on

/-- Some standing press that asks the value was made or landed after the read was issued,
and after every older press that asks the other value was. -/
def RenumberedLast (row : PmsMovie) (stamp : Nat) (press : Press) (on : Bool) (now : Past) : Prop :=
  ∃ p ∈ standing now, p.asks row = some on ∧ stamp < p.moment ∧
    ∀ q ∈ standing now, q.seq < press.seq → q.asks row = some (!on) → q.moment < p.moment

theorem survives_iff_last_asked (t : Table) (on : Bool) :
    Survives row stamp on t ↔ (asked (t.since stamp) row).getLast? = some on := by
  constructor
  · intro survives
    -- the body that brings the other value
    have patched : replay (t.since stamp) { row with watched := !on } ∈
        t.patch stamp [{ row with watched := !on }] := by
      rw [patch_eq, map_singleton]
      exact mem_singleton_self _
    obtain ⟨id, watched, -⟩ := replay_spec (t.since stamp) { row with watched := !on }
    have shown := survives _ _ patched id
    have eq : ({ row with watched := !on } : PmsMovie).id = row.id := rfl
    rw [watched, asked_of_same_id eq] at shown
    cases last : (asked (t.since stamp) row).getLast? with
    | none =>
      rw [last, getD_none] at shown
      simp at shown
    | some value =>
      rw [last, getD_some] at shown
      rw [shown]
  · intro last rows m mem eq
    rw [patch_eq] at mem
    obtain ⟨body, -, rfl⟩ := mem_map.mp mem
    obtain ⟨id, watched, -⟩ := replay_spec (t.since stamp) body
    rw [watched, asked_of_same_id (id.symm.trans eq), last, getD_some]

theorem Refines.last_asked_iff (h : Refines past t) {issued : Past} {press : Press} {on : Bool}
    (awaited : Awaited issued past row press on) :
    (asked (t.since stamp) row).getLast? = some on ↔ RenumberedLast row stamp press on past := by
  constructor
  · intro last
    obtain ⟨p, stands, newer, asks, later⟩ := (h.last_asked row stamp on).mp last
    refine ⟨p, stands, asks, newer, ?_⟩
    intro q other _ its
    rcases Nat.lt_trichotomy q.moment p.moment with before | eq | after
    · exact before
    · rw [h.moment_inj other stands eq, asks] at its
      simp at its
    · rw [later q other after] at its
      cases its
  · rintro ⟨p, stands, asks, newer, after⟩
    cases last : (asked (t.since stamp) row).getLast? with
    | none =>
      rw [List.getLast?_eq_none_iff, h.none_asked] at last
      rw [last p stands newer] at asks
      cases asks
    | some value =>
      obtain ⟨q, other, -, its, later⟩ := (h.last_asked row stamp value).mp last
      by_contra wrong
      have opposite : value = !on := by
        cases value <;> cases on <;> simp_all
      rw [opposite] at its
      -- the newest press asks the value, so this one is older
      have older : q.seq < press.seq := by
        have bound := awaited.newest q other (by rw [its]; exact some_ne_none _)
        have apart : q.seq ≠ press.seq := by
          intro eq
          rw [h.ascending.key_injOn other awaited.stands eq, awaited.asks] at its
          simp at its
        omega
      rw [later p stands (after q other older its)] at asks
      cases asks

/-- A press survives a read issued before its write landed exactly when its value is
renumbered last. -/
theorem survives_iff_renumbered_last (issued later : List Op) (row : PmsMovie) (press : Press) (on : Bool)
    (permitted : Transducer.Guarded step WritePermitted [] .new (issued ++ later))
    (awaited : Awaited (history step .new issued)
      (history step .new (issued ++ later)) row press on) :
    Survives row (run step .new issued).stamp on
        (run step .new (issued ++ later)) ↔
      RenumberedLast row (run step .new issued).stamp press on
        (history step .new (issued ++ later)) := by
  have refines := guarded_invariant step (R := Refines)
    (fun _ _ _ may h => h.step may) (refines_empty 0) permitted
  rw [survives_iff_last_asked]
  exact refines.last_asked_iff awaited

/-- A read issued after the press and placed before the write landed brings the old body
back. -/
theorem press_undone_before_landing :
    let row : PmsMovie := ⟨.unset, "1", 0, 5, "", 0, true, false, none, none, none⟩
    let issued : List Op := [.record (.leaf .unset "1") (.watched true)]
    let press : Press := ⟨1, 1, .leaf .unset "1", .watched true⟩
    Transducer.Guarded step WritePermitted [] .new (issued ++ []) ∧
      Awaited (history step .new issued)
        (history step .new (issued ++ [])) row press true ∧
      ¬ Survives row (run step .new issued).stamp true
        (run step .new (issued ++ [])) := by
  intro row issued press
  refine ⟨⟨trivial, trivial⟩, ⟨by decide, by decide, ?_, ?_⟩, ?_⟩
  · intro e member
    simp [history, event, issued] at member
    rcases member with rfl
    simp
  · decide
  · intro survives
    have shown := survives [row] row (by decide) rfl
    cases shown

/-- The write lands while the read is out. -/
theorem press_survives_its_landing :
    let row : PmsMovie := ⟨.unset, "1", 0, 5, "", 0, true, false, none, none, none⟩
    let issued : List Op := [.record (.leaf .unset "1") (.watched true)]
    Survives row (run step .new issued).stamp true
      (run step .new (issued ++ [.landed 1])) := by
  intro row issued
  refine (survives_iff_renumbered_last issued [.landed 1] row ⟨1, 2, .leaf .unset "1", .watched true⟩ true
    ?_ ⟨by decide, by decide, ?_, by decide⟩).mpr ?_
  · refine ⟨trivial, ⟨by decide, ?_⟩, trivial⟩
    intro e member
    simp [event] at member
    rcases member with rfl
    simp
  · intro e member
    simp [history, event, issued] at member
    rcases member with rfl
    simp
  · exact ⟨⟨1, 2, .leaf .unset "1", .watched true⟩, by decide, by decide, by decide, by decide⟩

end
end PlxNative.ViewState
