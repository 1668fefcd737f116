import PlxNative.Notify.Spending

/-! One call of the notification map: what it leaves owed, what it spends, and the spacings it
starts. -/
namespace PlxNative.Notify
open Text NotifyMap
open ViewState (ServerId)

section
variable {m : NotifyMap} {call : Call} {sid : ServerId} {kind : Kind}

/-- What a call spends from a queue of library changes. -/
structure SpentLibrary (w : WatchlistStore) (m m' : NotifyMap) (effects : List Effect) : Prop where
  map : ∃ library libraryNext, m' = { m with library, libraryNext }
  part : m'.library.Sublist m.library
  rematches : ∀ effect ∈ effects, ∃ sid asks accepted, effect = .rematch sid asks accepted
  answered : ∀ entry ∈ m.library,
    entry ∈ m'.library ∨ .rematch entry.1.1 (asksFor w entry.1.1 entry.1.2 entry.2) true ∈ effects

theorem spendLibraryOwed_spec (w : WatchlistStore) (m : NotifyMap) :
    SpentLibrary w m (spendLibraryOwed w m).1 (spendLibraryOwed w m).2 := by
  have spec := rematches_spec w m.library { map := { m with library := [] } }
  unfold spendLibraryOwed
  simp only
  generalize m.library.foldl (rematchOwed w) { map := { m with library := [] } } = after at spec ⊢
  obtain ⟨next, map⟩ := spec.map
  obtain ⟨kept, eq, part⟩ := spec.kept
  obtain ⟨told, effects, all⟩ := spec.effects
  refine ⟨⟨after.kept, next, by rw [map]⟩, ?_, ?_, spec.answered⟩
  · rw [eq]
    exact part
  · rw [effects]
    exact all

/-- Everything that is due, with the re-matches. -/
def spendAll (m : NotifyMap) (call : Call) : NotifyMap × List Effect × Spent :=
  let (m, rematches) := spendLibraryOwed call.watchlist m
  let (owed, m) := m.takeDue
  (owed.listings.foldl listingsSpent m, rematches ++ dueEffects owed call.libraryShown,
    ⟨owed.refetch, owed.invalidate, owed.listings⟩)

theorem isEmpty_eq {o : Owed} (none_ : o.isEmpty = true) : o = {} := by
  obtain ⟨reads, refetch, invalidate, listings⟩ := o
  simp only [Owed.isEmpty, Bool.and_eq_true, List.isEmpty_iff] at none_
  obtain ⟨⟨⟨rfl, rfl⟩, rfl⟩, rfl⟩ := none_
  rfl

theorem spendNotifyOwed_eq (m : NotifyMap) (call : Call) :
    spendNotifyOwed m call = if call.rereadAllowed then spendAll m call else (m, [], {}) := by
  unfold spendNotifyOwed
  cases allowed : call.rereadAllowed with
  | false => rw [if_pos (by rw [Bool.not_false, Bool.or_true]), if_neg Bool.false_ne_true]
  | true =>
    rw [if_pos rfl, Bool.not_true, Bool.or_false]
    split
    case isTrue none_ =>
      obtain ⟨owed, library⟩ := Bool.and_eq_true_iff.mp none_
      obtain ⟨lastState, o, queue, libraryNext, listingsNext, frame⟩ := m
      cases isEmpty_eq owed
      cases List.isEmpty_iff.mp library
      rfl
    case isFalse =>
      unfold spendAll
      simp only
      split
      case isTrue none_ =>
        rw [isEmpty_eq none_, show dueEffects {} call.libraryShown = [] from rfl, List.append_nil]
        rfl
      case isFalse => rfl

theorem listingsSpent_spec (l : List ServerId) (m : NotifyMap) :
    (∃ listingsNext, l.foldl listingsSpent m = { m with listingsNext }) ∧
      (∀ sid ∈ l, Waits (l.foldl listingsSpent m).listingsNext sid (m.frame + librarySpacingFrames)) ∧
      ∀ sid, ∀ bound ≤ m.frame + librarySpacingFrames, Waits m.listingsNext sid bound →
        Waits (l.foldl listingsSpent m).listingsNext sid bound := by
  induction l generalizing m with
  | nil => exact ⟨⟨_, rfl⟩, fun _ mem => (nomatch mem), fun _ _ _ waits => waits⟩
  | cons server l ih =>
    obtain ⟨⟨next, eq⟩, marked, kept⟩ := ih (m.listingsSpent server)
    refine ⟨⟨next, eq⟩, fun sid mem => ?_, fun sid bound within waits => kept sid bound within (waits.update within server)⟩
    rcases List.mem_cons.mp mem with rfl | later
    · exact kept sid _ le_rfl (Waits.started _ _ _)
    · exact marked sid later

theorem spendAll_map (m : NotifyMap) (call : Call) :
    ∃ listingsNext, (spendAll m call).1 =
        { (spendLibraryOwed call.watchlist m).1 with
          owed := { listings := m.owed.listings.filter (fun sid => !m.listingsDue sid) }
          listingsNext } ∧
      (∀ sid ∈ m.owed.listings.filter m.listingsDue, Waits listingsNext sid (m.frame + librarySpacingFrames)) ∧
      ∀ sid, ∀ bound ≤ m.frame + librarySpacingFrames, Waits m.listingsNext sid bound → Waits listingsNext sid bound := by
  obtain ⟨library, libraryNext, map⟩ := (spendLibraryOwed_spec call.watchlist m).map
  obtain ⟨⟨next, eq⟩, marked, kept⟩ := listingsSpent_spec (m.owed.listings.filter m.listingsDue)
    ((spendLibraryOwed call.watchlist m).1.takeDue).2
  have due : (spendLibraryOwed call.watchlist m).1.listingsDue = m.listingsDue := by rw [map]; rfl
  have owed : (spendLibraryOwed call.watchlist m).1.owed = m.owed := by rw [map]
  have frame : ((spendLibraryOwed call.watchlist m).1.takeDue).2.frame = m.frame := by rw [map]; rfl
  have before : ((spendLibraryOwed call.watchlist m).1.takeDue).2.listingsNext = m.listingsNext := by rw [map]; rfl
  rw [eq, frame] at marked
  rw [eq, frame, before] at kept
  refine ⟨next, ?_, marked, kept⟩
  unfold spendAll
  simp only [takeDue, due, owed]
  simp only [takeDue, due, owed] at eq
  exact eq

theorem spendAll_spent (m : NotifyMap) (call : Call) :
    (spendAll m call).2.2 = ⟨m.owed.refetch, m.owed.invalidate, m.owed.listings.filter m.listingsDue⟩ := by
  obtain ⟨library, libraryNext, map⟩ := (spendLibraryOwed_spec call.watchlist m).map
  have due : (spendLibraryOwed call.watchlist m).1.listingsDue = m.listingsDue := by rw [map]; rfl
  have owed : (spendLibraryOwed call.watchlist m).1.owed = m.owed := by rw [map]
  unfold spendAll
  simp only [takeDue, due, owed]

theorem mem_rematch_spendAll {asks : List Ask} {accepted : Bool} :
    .rematch sid asks accepted ∈ (spendAll m call).2.1 ↔ .rematch sid asks accepted ∈ (spendLibraryOwed call.watchlist m).2 := by
  unfold spendAll
  simp only [List.mem_append, dueEffects, List.mem_map]
  constructor
  · rintro (mem | ((⟨read, -, told⟩ | ⟨_, -, told⟩) | ⟨_, -, told⟩) | ⟨_, -, told⟩)
    · exact mem
    · unfold readEffect at told
      split at told <;> cases told
    · cases told
    · cases told
    · cases told
  · exact .inl

theorem spendAll_owing (once : Once m) (call : Call) (sid : ServerId) (kind : Kind) :
    (spendAll m call).1.owing sid kind = m.owing sid kind ∨
      .rematch sid (asksFor call.watchlist sid kind (m.owing sid kind)) true ∈ (spendAll m call).2.1 := by
  have spec := spendLibraryOwed_spec call.watchlist m
  obtain ⟨next, map, -⟩ := spendAll_map m call
  rw [mem_rematch_spendAll, map]
  unfold owing
  cases found : m.library.lookup (sid, kind) with
  | none => exact .inl (by rw [spec.part.lookup_eq_none found])
  | some owe =>
    refine (spec.answered _ (Assoc.mem_of_lookup_eq_some found)).imp (fun kept => ?_) id
    rw [Assoc.lookup_eq_some_of_mem (once.library.sublist (spec.part.map Prod.fst)) kept]

theorem arrive_once (once : Once m) (call : Call) : Once (arrive m call) :=
  (arrive_grows m call).once ⟨once.refetch, once.invalidate, once.listings, once.library⟩

theorem notifyMap_eq (m : NotifyMap) (call : Call) :
    notifyMap m call = if call.rereadAllowed then spendAll (arrive m call) call else (arrive m call, [], {}) := spendNotifyOwed_eq _ _

theorem notifyMap_once (m : NotifyMap) (call : Call) (once : Once m) : Once (notifyMap m call).1 := by
  have heard := arrive_once once call
  rw [notifyMap_eq]
  split
  · obtain ⟨next, map, -⟩ := spendAll_map (arrive m call) call
    rw [map]
    exact ⟨.nil, .nil, heard.listings.filter _,
      heard.library.sublist ((spendLibraryOwed_spec call.watchlist (arrive m call)).part.map Prod.fst)⟩
  · exact heard

theorem notifyMap_lists (m : NotifyMap) (call : Call) (sid : ServerId) :
    (sid ∈ (arrive m call).owed.refetch → sid ∈ (notifyMap m call).2.2.refetched ∨ sid ∈ (notifyMap m call).1.owed.refetch) ∧
      (sid ∈ (arrive m call).owed.invalidate → sid ∈ (notifyMap m call).2.2.invalidated ∨ sid ∈ (notifyMap m call).1.owed.invalidate) ∧
      (sid ∈ (arrive m call).owed.listings → sid ∈ (notifyMap m call).2.2.relisted ∨ sid ∈ (notifyMap m call).1.owed.listings) := by
  rw [notifyMap_eq]
  split
  · obtain ⟨next, map, -⟩ := spendAll_map (arrive m call) call
    rw [map, spendAll_spent]
    refine ⟨.inl, .inl, fun owed => ?_⟩
    cases due : (arrive m call).listingsDue sid with
    | true => exact .inl (List.mem_filter.mpr ⟨owed, due⟩)
    | false => exact .inr (List.mem_filter.mpr ⟨owed, by rw [due]; rfl⟩)
  · exact ⟨.inr, .inr, .inr⟩

theorem notifyMap_owing (once : Once m) (call : Call) (sid : ServerId) (kind : Kind) :
    (notifyMap m call).1.owing sid kind = (arrive m call).owing sid kind ∨
      .rematch sid (asksFor call.watchlist sid kind ((arrive m call).owing sid kind)) true ∈ (notifyMap m call).2.1 := by
  rw [notifyMap_eq]
  split
  · exact spendAll_owing (arrive_once once call) call sid kind
  · exact .inl rfl

theorem arrive_frame (m : NotifyMap) (call : Call) : (arrive m call).frame = m.frame + 1 := (arrive_grows m call).frame

theorem notifyMap_frame (m : NotifyMap) (call : Call) : (notifyMap m call).1.frame = m.frame + 1 := by
  rw [notifyMap_eq]
  split
  · obtain ⟨library, libraryNext, eq⟩ := (spendLibraryOwed_spec call.watchlist (arrive m call)).map
    obtain ⟨next, map, -⟩ := spendAll_map (arrive m call) call
    rw [map, eq]
    exact arrive_frame m call
  · exact arrive_frame m call

theorem notifyMap_relisted (relisted : sid ∈ (notifyMap m call).2.2.relisted) :
    Waits (notifyMap m call).1.listingsNext sid ((notifyMap m call).1.frame + librarySpacingFrames) ∧
      ∀ bound, Waits m.listingsNext sid bound → bound ≤ (notifyMap m call).1.frame := by
  have ticked := notifyMap_frame m call
  rw [ticked]
  rw [notifyMap_eq] at relisted ⊢
  split
  case isTrue allowed =>
    rw [if_pos allowed, spendAll_spent] at relisted
    obtain ⟨next, map, marked, -⟩ := spendAll_map (arrive m call) call
    rw [arrive_frame] at marked
    rw [map]
    refine ⟨marked sid relisted, fun bound ⟨at_, found, bounded⟩ => ?_⟩
    have due := (List.mem_filter.mp relisted).2
    unfold listingsDue at due
    rw [(arrive_grows m call).listingsNext, show m.tick.listingsNext = m.listingsNext from rfl, found] at due
    have early : at_ ≤ (arrive m call).frame := of_decide_eq_true due
    rw [arrive_frame] at early
    exact Nat.le_trans bounded early
  case isFalse unallowed =>
    rw [if_neg unallowed] at relisted
    cases relisted

theorem notifyMap_listings_wait (m : NotifyMap) (call : Call) {bound : Nat} (within : bound ≤ (notifyMap m call).1.frame + librarySpacingFrames)
    (waits : Waits m.listingsNext sid bound) : Waits (notifyMap m call).1.listingsNext sid bound := by
  have eq : (arrive m call).listingsNext = m.listingsNext := (arrive_grows m call).listingsNext
  rw [notifyMap_frame, ← arrive_frame m call] at within
  rw [notifyMap_eq]
  split
  · obtain ⟨next, map, -, kept⟩ := spendAll_map (arrive m call) call
    rw [map]
    exact kept sid bound within (by rw [eq]; exact waits)
  · rw [eq]
    exact waits

theorem notifyMap_asked (asked : AskedOf (notifyMap m call).2.1 sid kind) :
    Waits (notifyMap m call).1.libraryNext (sid, kind) ((notifyMap m call).1.frame + librarySpacingFrames) ∧
      ∀ bound, Waits m.libraryNext (sid, kind) bound → bound ≤ (notifyMap m call).1.frame := by
  have ticked := notifyMap_frame m call
  rw [ticked]
  rw [notifyMap_eq] at asked ⊢
  split
  case isTrue allowed =>
    rw [if_pos allowed] at asked
    obtain ⟨asks, mem, some_⟩ := asked
    have clocked := rematches_clocked call.watchlist (arrive m call).library { map := { arrive m call with library := [] } } sid kind
    obtain ⟨next, map, -⟩ := spendAll_map (arrive m call) call
    have eq : (arrive m call).libraryNext = m.libraryNext := (arrive_grows m call).libraryNext
    rw [map]
    rcases clocked.asked ⟨asks, mem_rematch_spendAll.mp mem, some_⟩ with ⟨_, none_, _⟩ | ⟨waits, due⟩
    · cases none_
    · rw [← arrive_frame m call]
      exact ⟨waits, fun bound held => due bound (by rw [show (_ : NotifyMap).libraryNext = _ from eq]; exact held)⟩
  case isFalse unallowed =>
    rw [if_neg unallowed] at asked
    obtain ⟨_, mem, _⟩ := asked
    cases mem

theorem notifyMap_library_waits (m : NotifyMap) (call : Call) {bound : Nat} (within : bound ≤ (notifyMap m call).1.frame + librarySpacingFrames)
    (waits : Waits m.libraryNext (sid, kind) bound) : Waits (notifyMap m call).1.libraryNext (sid, kind) bound := by
  have eq : (arrive m call).libraryNext = m.libraryNext := (arrive_grows m call).libraryNext
  rw [notifyMap_frame, ← arrive_frame m call] at within
  rw [notifyMap_eq]
  split
  · have clocked := rematches_clocked call.watchlist (arrive m call).library { map := { arrive m call with library := [] } } sid kind
    obtain ⟨next, map, -⟩ := spendAll_map (arrive m call) call
    rw [map]
    exact clocked.waits bound within (by rw [show (_ : NotifyMap).libraryNext = _ from eq]; exact waits)
  · rw [eq]
    exact waits

end
end PlxNative.Notify
