import PlxNative.Notify.Owed

/-! What a call spends: it is spent whole or stays owed, and a spacing that has been started is
waited out. -/
namespace PlxNative.Notify
open List Text Assoc
open ViewState (ServerId)

section
variable {w : WatchlistStore} {sid : ServerId} {kind : Kind} {owe : LibraryOwed}

theorem mem_firstAsks {guid : Text} {seen : List Text} {asks : List Ask} :
    guid ∈ (firstAsks seen asks).map Prod.fst ↔ guid ∈ asks.map Prod.fst ∧ guid ∉ seen := by
  induction asks generalizing seen with
  | nil => simp [firstAsks]
  | cons ask rest ih =>
    unfold firstAsks
    split
    case isTrue mem =>
      rw [ih, map_cons, mem_cons]
      constructor
      · exact fun both => ⟨.inr both.1, both.2⟩
      · rintro ⟨rfl | later, fresh⟩
        · exact absurd mem fresh
        · exact ⟨later, fresh⟩
    case isFalse unseen =>
      rw [map_cons, mem_cons, ih, map_cons, mem_cons, mem_cons]
      constructor
      · rintro (rfl | ⟨later, fresh⟩)
        · exact ⟨.inl rfl, unseen⟩
        · exact ⟨.inr later, fun mem => fresh (.inr mem)⟩
      · rintro ⟨rfl | later, fresh⟩
        · exact .inl rfl
        · by_cases eq : guid = ask.1
          · exact .inl eq
          · exact .inr ⟨later, fun mem => mem.elim eq fresh⟩

theorem firstAsks_subset (seen : List Text) (asks : List Ask) : firstAsks seen asks ⊆ asks := by
  induction asks generalizing seen with
  | nil => exact fun _ mem => mem
  | cons ask rest ih =>
    unfold firstAsks
    split
    · exact fun a mem => mem_cons_of_mem _ (ih seen mem)
    · exact cons_subset_cons ask (ih (ask.1 :: seen))

def Covers (asks titles : List Ask) : Prop := ∀ ask ∈ titles, ask.1 ∈ asks.map Prod.fst

theorem asksFor_gone {guid : Text} (gone : guid ∈ owe.gone) : guid ∈ (asksFor w sid kind owe).map Prod.fst := by
  refine mem_firstAsks.mpr ⟨?_, not_mem_nil⟩
  rw [map_append, map_map]
  exact mem_append_left _ (mem_map.mpr ⟨guid, gone, rfl⟩)

theorem asksFor_sweep (sweep : owe.sweep = true) : Covers (asksFor w sid kind owe) (w.rowsOf kind) := by
  intro ask mem
  refine mem_firstAsks.mpr ⟨?_, not_mem_nil⟩
  rw [if_pos sweep, map_append]
  exact mem_append_right _ (mem_map_of_mem mem)

theorem unmatchedOn_subset (w : WatchlistStore) (sid : ServerId) (kind : Kind) : w.unmatchedOn sid kind ⊆ w.rowsOf kind := by
  intro ask mem
  obtain ⟨row, listed, rfl⟩ := mem_map.mp mem
  obtain ⟨held, fits⟩ := mem_filter.mp listed
  exact mem_map.mpr ⟨row, mem_filter.mpr ⟨held, (Bool.and_eq_true_iff.mp fits).1⟩, rfl⟩

theorem asksFor_added (added : owe.added = true) : Covers (asksFor w sid kind owe) (w.unmatchedOn sid kind) := by
  cases sweep : owe.sweep with
  | true => exact fun ask mem => asksFor_sweep sweep ask (unmatchedOn_subset w sid kind mem)
  | false =>
    intro ask mem
    refine mem_firstAsks.mpr ⟨?_, not_mem_nil⟩
    rw [if_neg (by rw [sweep]; exact Bool.false_ne_true), if_pos added, map_append]
    exact mem_append_right _ (mem_map_of_mem mem)

theorem rowsOf_kind {ask : Ask} (mem : ask ∈ w.rowsOf kind) : ask.2 = kind := by
  obtain ⟨row, listed, rfl⟩ := mem_map.mp mem
  exact of_decide_eq_true (mem_filter.mp listed).2

theorem asksFor_kind {ask : Ask} (mem : ask ∈ asksFor w sid kind owe) : ask.2 = kind := by
  rcases mem_append.mp (firstAsks_subset [] _ mem) with gone | rest
  · obtain ⟨guid, -, rfl⟩ := mem_map.mp gone
    rfl
  · split at rest
    · exact rowsOf_kind rest
    · split at rest
      · exact rowsOf_kind (unmatchedOn_subset w sid kind rest)
      · cases rest

end
section
variable {α : Type} [DecidableEq α] [BEq α] [LawfulBEq α] {next : List (α × Nat)} {key : α} {bound : Nat}

/-- Nothing is due for a key before a frame. -/
def Waits (next : List (α × Nat)) (key : α) (bound : Nat) : Prop := ∃ due, next.lookup key = some due ∧ bound ≤ due

theorem Waits.started (key : α) (due : Nat) (next : List (α × Nat)) : Waits (update key (fun _ => due) next) key due :=
  ⟨due, by rw [lookup_update, if_pos rfl], le_rfl⟩

theorem Waits.update (waits : Waits next key bound) {due : Nat} (later : bound ≤ due) (other : α) :
    Waits (update other (fun _ => due) next) key bound := by
  by_cases eq : key = other
  · exact ⟨due, by rw [lookup_update, if_pos eq], later⟩
  · obtain ⟨was, found, bounded⟩ := waits
    exact ⟨was, by rw [lookup_update, if_neg eq, found], bounded⟩

end
section
variable {w : WatchlistStore}

theorem rematchOwed_cases (w : WatchlistStore) (state : Rematching) (entry : (ServerId × Kind) × LibraryOwed) :
    (∃ effects, rematchOwed w state entry = { state with kept := state.kept ++ [entry], effects } ∧
      (effects = state.effects ∨
        effects = state.effects ++ [.rematch entry.1.1 (asksFor w entry.1.1 entry.1.2 entry.2) false])) ∨
    state.map.libraryDue entry.1.1 entry.1.2 = true ∧
      rematchOwed w state entry =
        { state with
          map := if (asksFor w entry.1.1 entry.1.2 entry.2).isEmpty then state.map else state.map.librarySpent entry.1.1 entry.1.2
          effects := state.effects ++ [.rematch entry.1.1 (asksFor w entry.1.1 entry.1.2 entry.2) true] } := by
  obtain ⟨⟨sid, kind⟩, owe⟩ := entry
  unfold rematchOwed
  simp only
  split
  case isTrue => exact .inl ⟨_, rfl, .inl rfl⟩
  case isFalse open_ =>
    have due : state.map.libraryDue sid kind = true := by
      by_contra waits
      exact open_ (by rw [Bool.eq_false_iff.mpr waits, Bool.not_false, Bool.or_true])
    cases accepted : w.rematchOn state.effects.length sid (asksFor w sid kind owe) with
    | true => exact .inr ⟨due, if_pos rfl⟩
    | false => exact .inl ⟨_, if_neg Bool.false_ne_true, .inr rfl⟩

/-- What going through some of the queue leaves. -/
structure Rematched (w : WatchlistStore) (queue : List ((ServerId × Kind) × LibraryOwed)) (before after : Rematching) : Prop where
  map : ∃ libraryNext, after.map = { before.map with libraryNext }
  kept : ∃ more, after.kept = before.kept ++ more ∧ more.Sublist queue
  effects : ∃ more, after.effects = before.effects ++ more ∧ ∀ effect ∈ more, ∃ sid asks accepted, effect = .rematch sid asks accepted
  answered : ∀ entry ∈ queue,
    entry ∈ after.kept ∨ .rematch entry.1.1 (asksFor w entry.1.1 entry.1.2 entry.2) true ∈ after.effects

theorem rematchOwed_spec (w : WatchlistStore) (state : Rematching) (entry : (ServerId × Kind) × LibraryOwed) :
    Rematched w [entry] state (rematchOwed w state entry) := by
  rcases rematchOwed_cases w state entry with ⟨effects, eq, told⟩ | ⟨-, eq⟩
  · rw [eq]
    refine ⟨⟨_, rfl⟩, ⟨[entry], rfl, .refl _⟩, ?_, fun e mem => .inl (mem_append_right _ mem)⟩
    rcases told with rfl | rfl
    · exact ⟨[], (append_nil _).symm, fun _ mem => nomatch mem⟩
    · exact ⟨_, rfl, fun effect mem => ⟨_, _, _, mem_singleton.mp mem⟩⟩
  · rw [eq]
    refine ⟨?_, ⟨[], (append_nil _).symm, nil_sublist _⟩, ⟨_, rfl, fun effect mem => ⟨_, _, _, mem_singleton.mp mem⟩⟩, ?_⟩
    · split
      · exact ⟨_, rfl⟩
      · exact ⟨_, rfl⟩
    · intro e mem
      rw [mem_singleton.mp mem]
      exact .inr (mem_append_right _ (mem_singleton_self _))

theorem Rematched.trans {first rest : List ((ServerId × Kind) × LibraryOwed)} {a b c : Rematching} (one : Rematched w first a b)
    (two : Rematched w rest b c) : Rematched w (first ++ rest) a c := by
  obtain ⟨next, map⟩ := one.map
  obtain ⟨next', map'⟩ := two.map
  obtain ⟨more, kept, part⟩ := one.kept
  obtain ⟨more', kept', part'⟩ := two.kept
  obtain ⟨told, effects, all⟩ := one.effects
  obtain ⟨told', effects', all'⟩ := two.effects
  refine ⟨⟨next', by rw [map', map]⟩, ⟨more ++ more', by rw [kept', kept, append_assoc], part.append part'⟩,
    ⟨told ++ told', by rw [effects', effects, append_assoc], ?_⟩, ?_⟩
  · intro effect mem
    exact (mem_append.mp mem).elim (all effect) (all' effect)
  · intro entry mem
    rcases mem_append.mp mem with here | later
    · rw [kept', effects']
      exact (one.answered entry here).imp (mem_append_left _) (mem_append_left _)
    · exact two.answered entry later

theorem rematches_spec (w : WatchlistStore) (queue : List ((ServerId × Kind) × LibraryOwed)) (state : Rematching) :
    Rematched w queue state (queue.foldl (rematchOwed w) state) := by
  induction queue generalizing state with
  | nil => exact ⟨⟨_, rfl⟩, ⟨[], (append_nil _).symm, .refl _⟩, ⟨[], (append_nil _).symm, fun _ mem => nomatch mem⟩,
      fun _ mem => nomatch mem⟩
  | cons entry queue ih => exact (rematchOwed_spec w state entry).trans (ih _)

/-- A server has been asked about a title of a kind. -/
def AskedOf (effects : List Effect) (sid : ServerId) (kind : Kind) : Prop :=
  ∃ asks, .rematch sid asks true ∈ effects ∧ ∃ guid, (guid, kind) ∈ asks

variable {sid : ServerId} {kind : Kind}

theorem askedOf_append {before more : List Effect} :
    AskedOf (before ++ more) sid kind ↔ AskedOf before sid kind ∨ AskedOf more sid kind := by
  constructor
  · rintro ⟨asks, mem, some_⟩
    exact (mem_append.mp mem).imp (fun mem => ⟨asks, mem, some_⟩) (fun mem => ⟨asks, mem, some_⟩)
  · rintro (⟨asks, mem, some_⟩ | ⟨asks, mem, some_⟩)
    · exact ⟨asks, mem_append_left _ mem, some_⟩
    · exact ⟨asks, mem_append_right _ mem, some_⟩

theorem askedOf_single {server : ServerId} {asks : List Ask} {accepted : Bool} :
    AskedOf [.rematch server asks accepted] sid kind ↔ accepted = true ∧ server = sid ∧ ∃ guid, (guid, kind) ∈ asks := by
  constructor
  · rintro ⟨told, mem, some_⟩
    cases mem_singleton.mp mem
    exact ⟨rfl, rfl, some_⟩
  · rintro ⟨rfl, rfl, some_⟩
    exact ⟨asks, mem_singleton_self _, some_⟩

/-- What one entry does to the clock of a kind on a server: it asks only when that is due, and
starts the spacing then; a spacing under way stays. -/
structure Clocked (sid : ServerId) (kind : Kind) (before after : Rematching) : Prop where
  frame : after.map.frame = before.map.frame
  asked : AskedOf after.effects sid kind → AskedOf before.effects sid kind ∨
    Waits after.map.libraryNext (sid, kind) (before.map.frame + librarySpacingFrames) ∧
      ∀ bound, Waits before.map.libraryNext (sid, kind) bound → bound ≤ before.map.frame
  waits : ∀ bound ≤ before.map.frame + librarySpacingFrames,
    Waits before.map.libraryNext (sid, kind) bound → Waits after.map.libraryNext (sid, kind) bound

theorem due_bounds {m : NotifyMap} (due : m.libraryDue sid kind = true) {bound : Nat}
    (waits : Waits m.libraryNext (sid, kind) bound) : bound ≤ m.frame := by
  obtain ⟨at_, found, bounded⟩ := waits
  unfold NotifyMap.libraryDue at due
  rw [found] at due
  exact Nat.le_trans bounded (of_decide_eq_true due)

theorem rematchOwed_clocked (w : WatchlistStore) (state : Rematching) (entry : (ServerId × Kind) × LibraryOwed) (sid : ServerId) (kind : Kind) :
    Clocked sid kind state (rematchOwed w state entry) := by
  rcases rematchOwed_cases w state entry with ⟨effects, eq, told⟩ | ⟨due, eq⟩
  · rw [eq]
    refine ⟨rfl, fun asked => .inl ?_, fun _ _ waits => waits⟩
    rcases told with rfl | rfl
    · exact asked
    · exact (askedOf_append.mp asked).resolve_right (fun refused => by cases (askedOf_single.mp refused).1)
  · rw [eq]
    refine ⟨?_, fun asked => ?_, fun bound within waits => ?_⟩
    · split <;> rfl
    · rcases askedOf_append.mp asked with before | here
      · exact .inl before
      · obtain ⟨-, rfl, guid, mem⟩ := askedOf_single.mp here
        have kindIs : kind = entry.1.2 := asksFor_kind mem
        subst kindIs
        refine .inr ⟨?_, fun bound waits => due_bounds due waits⟩
        rw [if_neg (fun none_ => by rw [List.isEmpty_iff.mp none_] at mem; cases mem)]
        exact Waits.started _ _ _
    · split
      · exact waits
      · exact waits.update within _

theorem Clocked.trans {a b c : Rematching} (one : Clocked sid kind a b) (two : Clocked sid kind b c) :
    Clocked sid kind a c := by
  refine ⟨two.frame.trans one.frame, fun asked => ?_, fun bound within waits => ?_⟩
  · rcases two.asked asked with before | ⟨waits, due⟩
    · exact (one.asked before).imp_right (fun both => ⟨two.waits _ (by rw [one.frame]) both.1, both.2⟩)
    · refine .inr ⟨by rw [one.frame] at waits; exact waits, fun bound held => ?_⟩
      by_contra over_
      by_cases within : bound ≤ a.map.frame + librarySpacingFrames
      · have := due bound (one.waits bound within held)
        rw [one.frame] at this
        exact over_ this
      · have reaches : Waits a.map.libraryNext (sid, kind) (a.map.frame + librarySpacingFrames) := by
          obtain ⟨at_, found, bounded⟩ := held
          exact ⟨at_, found, by omega⟩
        have := due _ (one.waits _ le_rfl reaches)
        rw [one.frame] at this
        have positive : 0 < librarySpacingFrames := by decide
        omega
  · exact two.waits bound (by rw [one.frame]; exact within) (one.waits bound within waits)

theorem rematches_clocked (w : WatchlistStore) (queue : List ((ServerId × Kind) × LibraryOwed)) (state : Rematching) (sid : ServerId) (kind : Kind) :
    Clocked sid kind state (queue.foldl (rematchOwed w) state) := by
  induction queue generalizing state with
  | nil => exact ⟨rfl, .inl, fun _ _ waits => waits⟩
  | cons entry queue ih => exact (rematchOwed_clocked w state entry sid kind).trans (ih _)

end
end PlxNative.Notify
