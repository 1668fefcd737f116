import PlxNative.Notify.Map

/-! What the notifications of a call add to what is owed: nothing owed is lost to them, and each of
them is owed behind them. -/
namespace PlxNative.Notify
open Text Assoc Owed
open ViewState (ServerId)

/-- Nothing that is owed here is missing there. -/
structure LibraryOwed.Le (a b : LibraryOwed) : Prop where
  gone : a.gone ⊆ b.gone
  added : a.added = true → b.added = true
  sweep : a.sweep = true → b.sweep = true

theorem LibraryOwed.Le.refl (a : LibraryOwed) : a.Le a := ⟨fun _ mem => mem, id, id⟩

theorem LibraryOwed.Le.trans {a b c : LibraryOwed} (first : a.Le b) (second : b.Le c) : a.Le c :=
  ⟨fun _ mem => second.gone (first.gone mem), fun added => second.added (first.added added),
    fun sweep => second.sweep (first.sweep sweep)⟩

/-- What a server owes the Watchlist for one kind. -/
def NotifyMap.owing (m : NotifyMap) (sid : ServerId) (kind : Kind) : LibraryOwed := (m.library.lookup (sid, kind)).getD {}

/-- Every list that is owed names a server once. -/
structure Once (m : NotifyMap) : Prop where
  refetch : m.owed.refetch.Nodup
  invalidate : m.owed.invalidate.Nodup
  listings : m.owed.listings.Nodup
  library : (m.library.map Prod.fst).Nodup

structure Grows (m m' : NotifyMap) : Prop where
  refetch : m.owed.refetch ⊆ m'.owed.refetch
  invalidate : m.owed.invalidate ⊆ m'.owed.invalidate
  listings : m.owed.listings ⊆ m'.owed.listings
  library : ∀ sid kind, (m.owing sid kind).Le (m'.owing sid kind)
  libraryNext : m'.libraryNext = m.libraryNext
  listingsNext : m'.listingsNext = m.listingsNext
  frame : m'.frame = m.frame
  once : Once m → Once m'

section
variable {m : NotifyMap}

theorem Grows.refl (m : NotifyMap) : Grows m m where
  refetch := fun _ mem => mem
  invalidate := fun _ mem => mem
  listings := fun _ mem => mem
  library := fun _ _ => .refl _
  libraryNext := rfl
  listingsNext := rfl
  frame := rfl
  once := id

theorem Grows.trans {a b c : NotifyMap} (first : Grows a b) (second : Grows b c) : Grows a c where
  refetch := fun _ mem => second.refetch (first.refetch mem)
  invalidate := fun _ mem => second.invalidate (first.invalidate mem)
  listings := fun _ mem => second.listings (first.listings mem)
  library := fun sid kind => (first.library sid kind).trans (second.library sid kind)
  libraryNext := second.libraryNext.trans first.libraryNext
  listingsNext := second.listingsNext.trans first.listingsNext
  frame := second.frame.trans first.frame
  once := fun once => second.once (first.once once)

variable {α : Type} {add : NotifyMap → α → NotifyMap}

theorem foldl_grows (grows : ∀ m a, Grows m (add m a)) (l : List α) (m : NotifyMap) :
    Grows m (l.foldl add m) := by
  induction l generalizing m with
  | nil => exact .refl m
  | cons a l ih => exact (grows m a).trans (ih (add m a))

theorem foldl_owes {P : NotifyMap → Prop} (grows : ∀ m a, Grows m (add m a))
    (kept : ∀ {m m'}, Grows m m' → P m → P m') {a : α} (owes : ∀ m, P (add m a)) {l : List α} (mem : a ∈ l) (m : NotifyMap) :
    P (l.foldl add m) := by
  induction l generalizing m with
  | nil => cases mem
  | cons b l ih =>
    rcases List.mem_cons.mp mem with rfl | later
    · exact kept (foldl_grows grows l (add m a)) (owes m)
    · exact ih later (add m b)

theorem sessions_grow (m : NotifyMap) (lastState : List (Key × (Text × PlayState))) : Grows m { m with lastState } where
  refetch := fun _ mem => mem
  invalidate := fun _ mem => mem
  listings := fun _ mem => mem
  library := fun _ _ => .refl _
  libraryNext := rfl
  listingsNext := rfl
  frame := rfl
  once := fun once => ⟨once.refetch, once.invalidate, once.listings, once.library⟩

theorem observe_grows (m : NotifyMap) (sid : ServerId) (session rk : Text) (state : PlayState) :
    Grows m (m.observe sid session rk state).2 := by
  unfold NotifyMap.observe
  split
  · exact .refl m
  · simp only
    split
    · exact sessions_grow m _
    · exact sessions_grow m _

theorem owing_libraryOwe (m : NotifyMap) (sid : ServerId) (kind : Kind) (change : LibraryOwed → LibraryOwed) :
    (m.libraryOwe sid kind change).owing sid kind = change (m.owing sid kind) := by
  unfold NotifyMap.owing NotifyMap.libraryOwe
  rw [lookup_update, if_pos rfl]
  rfl

theorem libraryOwe_grows (m : NotifyMap) (sid : ServerId) (kind : Kind) {change : LibraryOwed → LibraryOwed} (more : ∀ o : LibraryOwed, o.Le (change o)) :
    Grows m (m.libraryOwe sid kind change) where
  refetch := fun _ mem => mem
  invalidate := fun _ mem => mem
  listings := fun _ mem => mem
  library := by
    intro s k
    by_cases eq : (s, k) = (sid, kind)
    · obtain ⟨rfl, rfl⟩ := Prod.mk.inj eq
      rw [owing_libraryOwe]
      exact more _
    · unfold NotifyMap.owing NotifyMap.libraryOwe
      rw [lookup_update, if_neg eq]
      exact .refl _
  libraryNext := rfl
  listingsNext := rfl
  frame := rfl
  once := fun once => ⟨once.refetch, once.invalidate, once.listings, update_nodup once.library⟩

theorem sweep_more (o : LibraryOwed) : o.Le { o with sweep := true } := ⟨fun _ mem => mem, id, fun _ => rfl⟩

theorem added_more (o : LibraryOwed) : o.Le { o with added := true } := ⟨fun _ mem => mem, fun _ => rfl, id⟩

theorem gone_more (guid : Text) (o : LibraryOwed) : o.Le { o with gone := pushUnique guid o.gone } :=
  ⟨subset_pushUnique guid o.gone, id, id⟩

/-- Owed lists that hold what they held, and nothing twice. -/
structure Owed.Le (a b : Owed) : Prop where
  refetch : a.refetch ⊆ b.refetch ∧ (a.refetch.Nodup → b.refetch.Nodup)
  invalidate : a.invalidate ⊆ b.invalidate ∧ (a.invalidate.Nodup → b.invalidate.Nodup)
  listings : a.listings ⊆ b.listings ∧ (a.listings.Nodup → b.listings.Nodup)

theorem push_more (sid : ServerId) (l : List ServerId) : l ⊆ pushUnique sid l ∧ (l.Nodup → (pushUnique sid l).Nodup) :=
  ⟨subset_pushUnique sid l, pushUnique_nodup⟩

theorem same_more (l : List ServerId) : l ⊆ l ∧ (l.Nodup → l.Nodup) := ⟨fun _ mem => mem, id⟩

theorem Owed.Le.trans {a b c : Owed} (first : a.Le b) (second : b.Le c) : a.Le c where
  refetch := ⟨fun _ mem => second.refetch.1 (first.refetch.1 mem), fun once => second.refetch.2 (first.refetch.2 once)⟩
  invalidate := ⟨fun _ mem => second.invalidate.1 (first.invalidate.1 mem), fun once => second.invalidate.2 (first.invalidate.2 once)⟩
  listings := ⟨fun _ mem => second.listings.1 (first.listings.1 mem), fun once => second.listings.2 (first.listings.2 once)⟩

theorem Owed.le_refl (o : Owed) : o.Le o := ⟨same_more _, same_more _, same_more _⟩

theorem Owed.le_read (o : Owed) (key : Key) (owing : Bool) : o.Le (o.read key owing) := ⟨same_more _, same_more _, same_more _⟩

theorem Owed.le_refetch (o : Owed) (sid : ServerId) : o.Le (o.oweRefetch sid) := ⟨push_more sid _, same_more _, same_more _⟩

theorem Owed.le_invalidate (o : Owed) (sid : ServerId) : o.Le (o.oweInvalidate sid) := ⟨same_more _, push_more sid _, same_more _⟩

theorem Owed.le_listings (o : Owed) (sid : ServerId) : o.Le (o.oweListings sid) := ⟨same_more _, same_more _, push_more sid _⟩

theorem owed_grows (m : NotifyMap) {owed : Owed} (more : m.owed.Le owed) : Grows m { m with owed } where
  refetch := more.refetch.1
  invalidate := more.invalidate.1
  listings := more.listings.1
  library := fun _ _ => .refl _
  libraryNext := rfl
  listingsNext := rfl
  frame := rfl
  once := fun once => ⟨more.refetch.2 once.refetch, more.invalidate.2 once.invalidate, more.listings.2 once.listings, once.library⟩

end
section
variable {w : WatchlistStore}

theorem resync_grows (w : WatchlistStore) (m : NotifyMap) (server : ServerId × Nat) : Grows m (resync w m server) := by
  have sessions : Grows m (m.forgetServer server.1) := sessions_grow m _
  unfold resync
  split
  · exact sessions.trans (foldl_grows (fun m kind => libraryOwe_grows m server.1 kind sweep_more) _ _)
  · exact sessions

theorem oweEntry_grows (follow : Bool) (held : Option (Int → Option Ask)) (sid : ServerId) (m : NotifyMap) (e : LibraryEntry) :
    Grows m (oweEntry follow held sid m e) := by
  unfold oweEntry
  cases e.state with
  | created =>
    simp only
    split
    · exact libraryOwe_grows m sid _ added_more
    · exact .refl m
  | deleted =>
    simp only
    split
    · split
      · exact libraryOwe_grows m sid _ sweep_more
      · split
        · exact .refl m
        · exact libraryOwe_grows m sid _ (gone_more _)
    · exact .refl m

theorem oweLibrary_grows (w : WatchlistStore) (m : NotifyMap) (library : NotifyLibrary) : Grows m (oweLibrary w m library) :=
  foldl_grows (oweEntry_grows _ _ library.sid) library.entries m

theorem reportLibrary_grows (w : WatchlistStore) (m : NotifyMap) (library : NotifyLibrary) : Grows m (reportLibrary w m library) := by
  have lists := ((le_refetch (oweLibrary w m library).owed library.sid).trans (le_invalidate _ library.sid)).trans (le_listings _ library.sid)
  exact (oweLibrary_grows w m library).trans (owed_grows _ lists)

theorem reportSession_grows (held : Held) (sid : ServerId) (m : NotifyMap) (s : PlaySession) : Grows m (reportSession held sid m s) := by
  unfold reportSession
  split
  · exact .refl m
  next rk named =>
    have observed := observe_grows m sid (sessionOf s rk) rk s.state
    simp only
    split
    · have reads : (m.observe sid (sessionOf s rk) rk s.state).2.owed.Le
          (if held.detail sid rk || held.card sid rk then (m.observe sid (sessionOf s rk) rk s.state).2.owed.read (sid, rk) (held.detail sid rk)
          else (m.observe sid (sessionOf s rk) rk s.state).2.owed) := by
        split
        · exact le_read _ _ _
        · exact Owed.le_refl _
      have stops (o : Owed) : o.Le
          (if s.state = .stopped then
            if held.detail sid rk || held.card sid rk then o.oweRefetch sid else (o.oweRefetch sid).oweInvalidate sid
          else o) := by
        split
        · split
          · exact le_refetch o sid
          · exact (le_refetch o sid).trans (le_invalidate _ sid)
        · exact Owed.le_refl o
      exact observed.trans (owed_grows _ (reads.trans (stops _)))
    · exact observed

theorem reportPlays_grows (held : Held) (m : NotifyMap) (plays : NotifyPlays) : Grows m (reportPlays held m plays) :=
  foldl_grows (reportSession_grows held plays.sid) plays.sessions m

/-- The next call, before it has heard anything. -/
def NotifyMap.tick (m : NotifyMap) : NotifyMap := { m with frame := m.frame + 1 }

theorem reports_grow (call : Call) (m : NotifyMap) : Grows m (call.out.library.foldl (reportLibrary call.watchlist) m) :=
  foldl_grows (reportLibrary_grows call.watchlist) _ m

theorem plays_grow (call : Call) (m : NotifyMap) : Grows m (call.out.plays.foldl (reportPlays call.held) m) :=
  foldl_grows (reportPlays_grows call.held) _ m

theorem arrive_grows (m : NotifyMap) (call : Call) : Grows m.tick (arrive m call) :=
  ((foldl_grows (resync_grows call.watchlist) call.out.resynced m.tick).trans (reports_grow call _)).trans (plays_grow call _)

variable {P : NotifyMap → Prop} {call : Call} {library : NotifyLibrary}

theorem arrive_owes_library (kept : ∀ {m m'}, Grows m m' → P m → P m')
    (owes : ∀ m, P (reportLibrary call.watchlist m library)) (reported : library ∈ call.out.library) (m : NotifyMap) : P (arrive m call) :=
  kept (plays_grow call _) (foldl_owes (reportLibrary_grows call.watchlist) kept owes reported _)

theorem arrive_owes_entry (kept : ∀ {m m'}, Grows m m' → P m → P m')
    {e : LibraryEntry} (listed : e ∈ library.entries)
    (owes : ∀ m, P (oweEntry (call.watchlist.isReady || call.watchlist.readInFlight)
      (if call.watchlist.isReady && library.entries.any (fun e => e.state = .deleted) then some (call.watchlist.heldByRk library.sid) else none)
      library.sid m e))
    (reported : library ∈ call.out.library) (m : NotifyMap) : P (arrive m call) := by
  refine arrive_owes_library kept (fun m => ?_) reported m
  have entries : P (oweLibrary call.watchlist m library) := foldl_owes (oweEntry_grows _ _ library.sid) kept owes listed m
  have lists := ((le_refetch (oweLibrary call.watchlist m library).owed library.sid).trans (le_invalidate _ library.sid)).trans
    (le_listings _ library.sid)
  exact kept (owed_grows _ lists) entries

variable {call : Call} {library : NotifyLibrary} {e : LibraryEntry}

theorem arrive_lists (m : NotifyMap) (reported : library ∈ call.out.library) :
    library.sid ∈ (arrive m call).owed.refetch ∧ library.sid ∈ (arrive m call).owed.invalidate ∧ library.sid ∈ (arrive m call).owed.listings := by
  refine arrive_owes_library (P := fun m => library.sid ∈ m.owed.refetch ∧ library.sid ∈ m.owed.invalidate ∧ library.sid ∈ m.owed.listings)
    (fun grows held => ⟨grows.refetch held.1, grows.invalidate held.2.1, grows.listings held.2.2⟩) (fun m => ?_) reported m
  exact ⟨mem_pushUnique.mpr (.inr rfl), mem_pushUnique.mpr (.inr rfl), mem_pushUnique.mpr (.inr rfl)⟩

theorem arrive_created (m : NotifyMap) (reported : library ∈ call.out.library) (listed : e ∈ library.entries) (created : e.state = .created)
    (follow : (call.watchlist.isReady || call.watchlist.readInFlight) = true) :
    ((arrive m call).owing library.sid (watchKind e.kind)).added = true := by
  refine arrive_owes_entry (P := fun m => (m.owing library.sid (watchKind e.kind)).added = true) (fun grows => (grows.library _ _).added) listed
    (fun m => ?_) reported m
  unfold oweEntry
  simp only [created]
  rw [if_pos follow, owing_libraryOwe]

theorem arrive_deleted (m : NotifyMap) (reported : library ∈ call.out.library) (listed : e ∈ library.entries) (deleted : e.state = .deleted)
    (ready : call.watchlist.isReady = true) {rk : Int} {tile : Ask} (parsed : parseItem e.itemId = some rk)
    (matched : call.watchlist.heldByRk library.sid rk = some tile) :
    tile.1 ∈ ((arrive m call).owing library.sid (watchKind e.kind)).gone := by
  refine arrive_owes_entry (P := fun m => tile.1 ∈ (m.owing library.sid (watchKind e.kind)).gone) (fun grows mem => (grows.library _ _).gone mem)
    listed (fun m => ?_) reported m
  have any : library.entries.any (fun e => e.state = .deleted) = true := List.any_eq_true.mpr ⟨e, listed, decide_eq_true deleted⟩
  unfold oweEntry
  simp only [deleted]
  rw [if_pos (by rw [ready]; rfl), if_pos (by rw [ready, any]; rfl), parsed]
  simp only [Option.bind_some, matched]
  rw [owing_libraryOwe]
  exact mem_pushUnique.mpr (.inr rfl)

theorem arrive_deleted_reading (m : NotifyMap) (reported : library ∈ call.out.library) (listed : e ∈ library.entries)
    (deleted : e.state = .deleted) (unready : call.watchlist.isReady = false) (reading : call.watchlist.readInFlight = true) :
    ((arrive m call).owing library.sid (watchKind e.kind)).sweep = true := by
  refine arrive_owes_entry (P := fun m => (m.owing library.sid (watchKind e.kind)).sweep = true) (fun grows => (grows.library _ _).sweep) listed
    (fun m => ?_) reported m
  unfold oweEntry
  simp only [deleted]
  rw [if_pos (by rw [reading, Bool.or_true]), if_neg (by rw [unready, Bool.false_and]; exact Bool.false_ne_true)]
  rw [owing_libraryOwe]

theorem arrive_resynced (m : NotifyMap) {server : ServerId × Nat} (gap : server ∈ call.out.resynced) (ready : call.watchlist.isReady = true)
    (kind : Kind) : ((arrive m call).owing server.1 kind).sweep = true := by
  have kept {m m' : NotifyMap} (grows : Grows m m') (held : (m.owing server.1 kind).sweep = true) : (m'.owing server.1 kind).sweep = true :=
    (grows.library _ _).sweep held
  refine kept (plays_grow call _) (kept (reports_grow call _)
    (foldl_owes (resync_grows call.watchlist) (P := fun m => (m.owing server.1 kind).sweep = true) kept (fun m => ?_) gap _))
  have listed : kind ∈ [Kind.movie, .show_] := by cases kind <;> decide
  unfold resync
  rw [if_pos ready]
  refine foldl_owes (fun m kind => libraryOwe_grows m server.1 kind sweep_more) (P := fun m => (m.owing server.1 kind).sweep = true) kept
    (fun m => ?_) listed _
  rw [owing_libraryOwe]

end
end PlxNative.Notify
