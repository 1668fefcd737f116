import PlxNative.Lib.Transducer
import PlxNative.Notify.Calls

/-! Runs of the notification map: what a server reports is spent by the call that hears it or by a
later one, or it is still owed. -/
namespace PlxNative.Notify
open Text Transducer
open ViewState (ServerId)

/-- A call that was made, with what it handed out. -/
abbrev Made : Type := Event NotifyMap Call (List Effect × Spent)

/-- A server has been asked about every title of a list. -/
def Made.Asks (e : Made) (sid : ServerId) (titles : List Ask) : Prop :=
  ∃ asks, .rematch sid asks true ∈ e.answer.1 ∧ Covers asks titles

abbrev made (calls : List Call) : List Made := history notifyMap {} calls

abbrev owedAfter (calls : List Call) : NotifyMap := run notifyMap {} calls

/-- The Watchlist is there, or its first read is out. -/
def Call.follows (call : Call) : Bool := call.watchlist.isReady || call.watchlist.readInFlight

/-- No change that a server reports is lost, and none is spent early or too often. -/
structure KeepsChanges (calls : List Call) : Prop where
  unspent : ∀ e ∈ made calls, e.input.rereadAllowed = false → e.answer = ([], {})
  once : Once (owedAfter calls)
  lists : ∀ past e later, made calls = past ++ e :: later → ∀ library ∈ e.input.out.library,
    ((∃ f ∈ e :: later, library.sid ∈ f.answer.2.refetched) ∨ library.sid ∈ (owedAfter calls).owed.refetch) ∧
      ((∃ f ∈ e :: later, library.sid ∈ f.answer.2.invalidated) ∨ library.sid ∈ (owedAfter calls).owed.invalidate) ∧
      ((∃ f ∈ e :: later, library.sid ∈ f.answer.2.relisted) ∨ library.sid ∈ (owedAfter calls).owed.listings)
  relistedOnce : ∀ e ∈ made calls, e.answer.2.relisted.Nodup
  relistedApart : ∀ past e mid f later, made calls = past ++ e :: (mid ++ f :: later) → ∀ sid,
    sid ∈ e.answer.2.relisted → sid ∈ f.answer.2.relisted → librarySpacingFrames ≤ mid.length + 1
  created : ∀ past e later, made calls = past ++ e :: later → ∀ library ∈ e.input.out.library, ∀ entry ∈ library.entries,
    entry.state = .created → e.input.follows = true →
    (∃ f ∈ e :: later, f.Asks library.sid (f.input.watchlist.unmatchedOn library.sid (watchKind entry.kind))) ∨
      ((owedAfter calls).owing library.sid (watchKind entry.kind)).added = true
  deleted : ∀ past e later, made calls = past ++ e :: later → ∀ library ∈ e.input.out.library, ∀ entry ∈ library.entries,
    entry.state = .deleted → e.input.watchlist.isReady = true → ∀ rk tile, parseItem entry.itemId = some rk →
    e.input.watchlist.heldByRk library.sid rk = some tile →
    (∃ f ∈ e :: later, f.Asks library.sid [tile]) ∨ tile.1 ∈ ((owedAfter calls).owing library.sid (watchKind entry.kind)).gone
  /-- Where the tiles are not there yet, a delete asks after every title of its kind. -/
  deletedReading : ∀ past e later, made calls = past ++ e :: later → ∀ library ∈ e.input.out.library, ∀ entry ∈ library.entries,
    entry.state = .deleted → e.input.watchlist.isReady = false → e.input.watchlist.readInFlight = true →
    (∃ f ∈ e :: later, f.Asks library.sid (f.input.watchlist.rowsOf (watchKind entry.kind))) ∨
      ((owedAfter calls).owing library.sid (watchKind entry.kind)).sweep = true
  resynced : ∀ past e later, made calls = past ++ e :: later → ∀ server ∈ e.input.out.resynced, e.input.follows = true → ∀ kind,
    (∃ f ∈ e :: later, f.Asks server.1 (f.input.watchlist.rowsOf kind)) ∨ ((owedAfter calls).owing server.1 kind).sweep = true
  askedApart : ∀ past e mid f later, made calls = past ++ e :: (mid ++ f :: later) → ∀ sid kind,
    AskedOf e.answer.1 sid kind → AskedOf f.answer.1 sid kind → librarySpacingFrames ≤ mid.length + 1

/-- No feed comes back from a gap while the first read of the Watchlist is out. -/
def Call.HearsGaps (call : Call) : Prop :=
  call.watchlist.isReady = false → call.watchlist.readInFlight = true → call.out.resynced = []

section
variable {calls : List Call} {past later mid : List Made} {e f : Made}

theorem once_start : Once {} := ⟨.nil, .nil, .nil, .nil⟩

theorem heard_or_owed (Owed : NotifyMap → Prop) (Spent : Made → Prop) (grows : ∀ {m m'}, Grows m.tick m' → Owed m → Owed m')
    (spends : ∀ m call, Once m → Owed (arrive m call) → Spent (event notifyMap m call) ∨ Owed (notifyMap m call).1)
    (whole : made calls = past ++ e :: later) (owes : Owed (arrive e.before e.input)) :
    (∃ f ∈ e :: later, Spent f) ∨ Owed (owedAfter calls) :=
  owed_or_spent notifyMap notifyMap_once (fun m call once owed => spends m call once (grows (arrive_grows m call) owed)) once_start whole
    (fun once => spends _ _ once owes)

theorem lists_kept (whole : made calls = past ++ e :: later) {library : NotifyLibrary} (reported : library ∈ e.input.out.library) :
    ((∃ f ∈ e :: later, library.sid ∈ f.answer.2.refetched) ∨ library.sid ∈ (owedAfter calls).owed.refetch) ∧
      ((∃ f ∈ e :: later, library.sid ∈ f.answer.2.invalidated) ∨ library.sid ∈ (owedAfter calls).owed.invalidate) ∧
      ((∃ f ∈ e :: later, library.sid ∈ f.answer.2.relisted) ∨ library.sid ∈ (owedAfter calls).owed.listings) := by
  obtain ⟨refetch, invalidate, listings⟩ := arrive_lists e.before reported
  refine ⟨?_, ?_, ?_⟩
  · exact heard_or_owed (fun m => library.sid ∈ m.owed.refetch) (fun f => library.sid ∈ f.answer.2.refetched)
      (fun grows held => grows.refetch held) (fun m call _ => (notifyMap_lists m call library.sid).1) whole refetch
  · exact heard_or_owed (fun m => library.sid ∈ m.owed.invalidate) (fun f => library.sid ∈ f.answer.2.invalidated)
      (fun grows held => grows.invalidate held) (fun m call _ => (notifyMap_lists m call library.sid).2.1) whole invalidate
  · exact heard_or_owed (fun m => library.sid ∈ m.owed.listings) (fun f => library.sid ∈ f.answer.2.relisted)
      (fun grows held => grows.listings held) (fun m call _ => (notifyMap_lists m call library.sid).2.2) whole listings

/-- What a server owes the Watchlist is asked by the call that hears it or by a later one, or it is
owed at the end. -/
theorem owing_kept {sid : ServerId} {kind : Kind} (Owes : LibraryOwed → Prop) (titles : WatchlistStore → List Ask)
    (more : ∀ {o o' : LibraryOwed}, o.Le o' → Owes o → Owes o')
    (covered : ∀ {w : WatchlistStore} {o : LibraryOwed}, Owes o → Covers (asksFor w sid kind o) (titles w))
    (whole : made calls = past ++ e :: later) (owes : Owes ((arrive e.before e.input).owing sid kind)) :
    (∃ f ∈ e :: later, f.Asks sid (titles f.input.watchlist)) ∨ Owes ((owedAfter calls).owing sid kind) := by
  refine heard_or_owed (fun m => Owes (m.owing sid kind)) (fun f => f.Asks sid (titles f.input.watchlist))
    (fun grows held => more (grows.library sid kind) held) (fun m call once owed => ?_) whole owes
  rcases notifyMap_owing once call sid kind with eq | asked
  · exact .inr (by rw [eq]; exact owed)
  · exact .inl ⟨_, asked, covered owed⟩

theorem relisted_apart (whole : made calls = past ++ e :: (mid ++ f :: later)) {sid : ServerId} (first : sid ∈ e.answer.2.relisted)
    (second : sid ∈ f.answer.2.relisted) : librarySpacingFrames ≤ mid.length + 1 :=
  spaced_apart notifyMap NotifyMap.frame (fun e => sid ∈ e.answer.2.relisted)
    (fun m bound => Waits m.listingsNext sid bound) notifyMap_frame (fun _ _ relisted => (notifyMap_relisted relisted).1)
    (fun m call _ within => notifyMap_listings_wait m call within) (fun _ _ bound relisted => (notifyMap_relisted relisted).2 bound) whole first second

theorem asked_apart (whole : made calls = past ++ e :: (mid ++ f :: later)) {sid : ServerId} {kind : Kind} (first : AskedOf e.answer.1 sid kind)
    (second : AskedOf f.answer.1 sid kind) : librarySpacingFrames ≤ mid.length + 1 :=
  spaced_apart notifyMap NotifyMap.frame (fun e => AskedOf e.answer.1 sid kind)
    (fun m bound => Waits m.libraryNext (sid, kind) bound) notifyMap_frame (fun _ _ asked => (notifyMap_asked asked).1)
    (fun m call _ within => notifyMap_library_waits m call within) (fun _ _ bound asked => (notifyMap_asked asked).2 bound) whole first second

theorem made_answer {e : Made} (mem : e ∈ made calls) : Once e.before ∧ e.answer = (notifyMap e.before e.input).2 := by
  obtain ⟨past, later, whole⟩ := List.append_of_mem mem
  obtain ⟨js, call, ks, -, -, rfl, -⟩ := history_split notifyMap whole
  exact ⟨run_invariant notifyMap notifyMap_once once_start js, rfl⟩

/-- In a run that hears every gap, every change is kept. -/
theorem changes_kept (hears : ∀ call ∈ calls, call.HearsGaps) : KeepsChanges calls where
  unspent := by
    intro e member unallowed
    rw [(made_answer member).2, notifyMap_eq, if_neg (by rw [unallowed]; exact Bool.false_ne_true)]
  once := run_invariant notifyMap notifyMap_once once_start calls
  lists := fun past e later whole library reported => lists_kept whole reported
  relistedOnce := by
    intro e member
    obtain ⟨once, same⟩ := made_answer member
    rw [same, notifyMap_eq]
    split
    · rw [spendAll_spent]
      exact (arrive_once once e.input).listings.filter _
    · exact .nil
  relistedApart := fun past e mid f later whole sid first second => relisted_apart whole first second
  created := by
    intro past e later whole library reported entry listed created follows
    exact owing_kept (fun o => o.added = true) (fun w => w.unmatchedOn library.sid (watchKind entry.kind))
      (fun le added => le.added added) asksFor_added whole (arrive_created e.before reported listed created follows)
  deleted := by
    intro past e later whole library reported entry listed deleted ready rk tile parsed matched
    refine owing_kept (fun o => tile.1 ∈ o.gone) (fun _ => [tile]) (fun le gone => le.gone gone) (fun gone ask member => ?_) whole
      (arrive_deleted e.before reported listed deleted ready parsed matched)
    rw [List.mem_singleton.mp member]
    exact asksFor_gone gone
  deletedReading := by
    intro past e later whole library reported entry listed deleted unready reading
    exact owing_kept (fun o => o.sweep = true) (fun w => w.rowsOf (watchKind entry.kind)) (fun le sweep => le.sweep sweep)
      asksFor_sweep whole (arrive_deleted_reading e.before reported listed deleted unready reading)
  resynced := by
    intro past e later whole server gap follows kind
    have member : e ∈ made calls := by
      rw [whole]
      exact List.mem_append_right _ List.mem_cons_self
    have input : e.input ∈ calls := input_mem_of_history notifyMap member
    have ready : e.input.watchlist.isReady = true := by
      by_contra unready
      have unready : e.input.watchlist.isReady = false := Bool.eq_false_iff.mpr unready
      have reading : e.input.watchlist.readInFlight = true := by
        unfold Call.follows at follows
        rwa [unready, Bool.false_or] at follows
      rw [hears e.input input unready reading] at gap
      cases gap
    exact owing_kept (fun o => o.sweep = true) (fun w => w.rowsOf kind) (fun le sweep => le.sweep sweep) asksFor_sweep whole
      (arrive_resynced e.before gap ready kind)
  askedApart := fun past e mid f later whole sid kind first second => asked_apart whole first second

/-- A feed comes back from a gap while the first read of the Watchlist is out. -/
def gapWhileReading : Call where
  out := { resynced := [(⟨0⟩, 1)] }
  held := ⟨[], []⟩
  libraryShown := false
  rereadAllowed := true
  watchlist :=
    { isReady := false
      readInFlight := true
      rows := [⟨"plex://movie/1".toList, .movie⟩]
      byGuid := fun _ => []
      reachable := fun _ => true
      starts := fun _ => true }

theorem gap_while_reading_is_dropped : ¬ KeepsChanges [gapWhileReading] := by
  intro keeps
  rcases keeps.resynced [] _ [] rfl (⟨0⟩, 1) (List.mem_singleton_self _) rfl .movie with ⟨f, member, asks, told, -⟩ | sweep
  · rw [List.mem_singleton.mp member] at told
    exact absurd told List.not_mem_nil
  · exact absurd sweep (by decide)

def createWhileReading : Call :=
  { gapWhileReading with out := { library := [⟨⟨0⟩, [⟨"20".toList, .movie, .created⟩]⟩] } }

theorem changes_kept_reading : (∀ call ∈ [createWhileReading], call.HearsGaps) ∧ KeepsChanges [createWhileReading] := by
  have hears : ∀ call ∈ [createWhileReading], call.HearsGaps := by
    intro call member
    rw [List.mem_singleton.mp member]
    exact fun _ _ => rfl
  exact ⟨hears, changes_kept hears⟩

end
end PlxNative.Notify
