import PlxNative.Watchlist.Store

/-! Attribution of landings. A landing carries the request it answers but the store does
not look at it, so rows and validators are attributed rightly exactly as long as no
landing of an older read is still in the mailbox when the next read is spawned. -/
namespace PlxNative.Watchlist
open List WatchlistState Transducer

inductive Phase where
  | fresh
  | paging
  | unchanged
  | failed
  deriving DecidableEq

def Phase.after (phase : Phase) : What → Phase
  | .page _ _ _ => .paging
  | .notModified => .unchanged
  | .pageFailed _ => .failed
  | _ => phase

def phaseOf (done : List What) : Phase := done.foldl Phase.after .fresh

/-- What a list worker may still post. Page 0 or a 304 comes first, the first failure is
the last landing but one (a panic is such a failure, anywhere), and `ListDone` ends it. -/
inductive Remaining (sent : Bool) : Phase → List What → Prop
  | first {rows : List CatalogId} {etag : Option String} {rest : List What}
      (tail : Remaining sent .paging rest) : Remaining sent .fresh (.page 0 rows etag :: rest)
  | unchanged {rest : List What} (asked : sent = true) (tail : Remaining sent .unchanged rest) :
      Remaining sent .fresh (.notModified :: rest)
  | later {start : Nat} {rows : List CatalogId} {etag : Option String} {rest : List What}
      (positive : 0 < start) (tail : Remaining sent .paging rest) :
      Remaining sent .paging (.page start rows etag :: rest)
  | released {phase : Phase} {rest : List What} (begun : phase ≠ .fresh)
      (tail : Remaining sent phase rest) : Remaining sent phase (.released :: rest)
  | failed {phase : Phase} {start : Nat} : Remaining sent phase [.pageFailed start, .listDone]
  | done {phase : Phase} (begun : phase ≠ .fresh) : Remaining sent phase [.listDone]

variable {sent : Bool} {phase : Phase} {posts : List What}

theorem Remaining.nonempty (h : Remaining sent phase posts) : posts ≠ [] := by
  cases h <;> exact cons_ne_nil _ _

def What.isList : What → Bool
  | .written _ _ => false
  | _ => true

theorem Remaining.list (h : Remaining sent phase posts) : ∀ what ∈ posts, what.isList = true := by
  induction h with
  | first _ ih | unchanged _ _ ih | later _ _ ih | released _ _ ih =>
    intro what mem
    rcases mem_cons.mp mem with rfl | tail
    · simp [What.isList]
    · exact ih what tail
  | failed | done => simp [What.isList]

/-- The claim on a store: every read whose landings made the rows has their stamp, and a
held validator is one that a read returned, with no write since that read was spawned
and its complete list as the rows. -/
structure Attributed (s : WatchlistState) (o : Origin) : Prop where
  rows : ∀ req ∈ o.rowsFrom, ∃ read ∈ o.reads, read.req = req ∧ read.stamp = s.rowsStamp
  etag : ∀ etag, s.listEtag = some etag → ∃ read ∈ o.reads, o.listEtagFrom = some read.req ∧
    etagOf read.posts = some etag ∧ read.writes = o.writes ∧ s.rows = listOf read.posts

/-- The main thread presses and pumps; a pump drains, then spawns; a list worker posts
what `run_list` posts. -/
def StorePermitted (s : Store) : Tick → Prop
  | .press _ _ | .reread | .drain => s.pumping = false
  | .maybeSpawn writeSpawned outcome _ posts => s.pumping = true ∧
      Remaining (s.maybeWrite writeSpawned outcome).state.sentEtag.isSome .fresh posts
  | _ => True

/-- At the spawn of a list read no landing of an earlier one is in the mailbox; a held
validator is held for a non-empty list with no write queued or in flight; and the write
counter has not wrapped around under the last read. -/
def SpawnsClean (s : Store) : Tick → Prop
  | .maybeSpawn writeSpawned outcome _ _ =>
    let s := s.maybeWrite writeSpawned outcome
    (s.listDue = true → (∀ landed ∈ s.mail, landed.what.isList = false) ∧
      (s.state.listEtag ≠ none → s.state.ledger.busy = false ∧ s.state.rows ≠ [])) ∧
    ∀ read, s.origin.reads.getLast? = some read → s.origin.writes < read.writes + 2 ^ 32
  | _ => True

section
variable {done : List What} {what : What}

theorem phaseOf_snoc : phaseOf (done ++ [what]) = (phaseOf done).after what := by
  simp [phaseOf]

theorem listOf_page (done : List What) (start : Nat) (rows : List CatalogId) (etag : Option String) :
    listOf (done ++ [.page start rows etag]) = if start = 0 then rows else appendNew (listOf done) rows := by
  simp [listOf]

theorem etagOf_page (done : List What) (start : Nat) (rows : List CatalogId) (etag : Option String) :
    etagOf (done ++ [.page start rows etag]) = if start = 0 then etag else etagOf done := by
  simp [etagOf]

theorem listOf_other (other : ∀ start rows etag, what ≠ .page start rows etag) :
    listOf (done ++ [what]) = listOf done := by
  cases what <;> simp_all [listOf]

theorem etagOf_other (other : ∀ start rows etag, what ≠ .page start rows etag) :
    etagOf (done ++ [what]) = etagOf done := by
  cases what <;> simp_all [etagOf]

end

/-- The main thread's side of a read after the landings `done`, by phase. While pages
arrive they build the next list beside the rows, or the rows themselves. -/
inductive Progress (s : WatchlistState) (o : Origin) (read : ListRead) (done : List What) : Phase → Prop
  | fresh (none_in : s.incoming = none) (shown : s.listEtag ≠ none → s.rows ≠ []) :
      Progress s o read done .fresh
  | beside (origin : o.readEtagFrom = some read.req) (etag : s.readEtag = etagOf done)
      (incoming : s.incoming = some (listOf done)) (only : ∀ req ∈ o.incomingFrom, req = read.req) :
      Progress s o read done .paging
  | inPlace (origin : o.readEtagFrom = some read.req) (etag : s.readEtag = etagOf done)
      (none_in : s.incoming = none) (rows : s.rows = listOf done)
      (only : ∀ req ∈ o.rowsFrom, req = read.req) (stamp : s.rowsStamp = read.stamp)
      (unheld : s.listEtag = none) : Progress s o read done .paging
  | unchanged (none_in : s.incoming = none)
      (vouched : ∀ etag, s.readEtag = some etag → ∃ older ∈ o.reads, o.readEtagFrom = some older.req ∧
        etagOf older.posts = some etag ∧ older.writes = read.writes ∧ s.rows = listOf older.posts) :
      Progress s o read done .unchanged
  | failed (none_in : s.incoming = none) : Progress s o read done .failed

/-- A read whose landings are still coming. -/
structure Reading (s : WatchlistState) (o : Origin) (read : ListRead) (done : List What) : Prop where
  known : read ∈ o.reads
  stamp : s.readStamp = read.stamp
  since : read.writes ≤ o.writes
  bound : o.writes < read.writes + 2 ^ 32
  guard : ∀ n, s.readWrites = some n → n = read.writes % 2 ^ 32 ∧ phaseOf done ≠ .failed
  held : s.listEtag ≠ none → o.writes = read.writes ∧
    (phaseOf done ≠ .failed → s.readWrites = some (read.writes % 2 ^ 32))
  progress : Progress s o read done (phaseOf done)

/-- The landings of the list worker still to come, from the mailbox and the worker. -/
def pending (mail : List LandedWhat) (worker : Option ListWorker) : List What :=
  (mail.filter (fun landed => landed.what.isList)).map LandedWhat.what ++
    (worker.map ListWorker.posts).getD []

/-- The landings to come are the rest of the last read. -/
structure Coming (s : WatchlistState) (o : Origin) (mail : List LandedWhat) (worker : Option ListWorker)
    (sent : Bool) (read : ListRead) (done : List What) : Prop where
  posts : read.posts = done ++ pending mail worker
  mailed : ∀ landed ∈ mail, landed.what.isList = true → landed.req = read.req
  working : ∀ w, worker = some w → w.req = read.req
  remaining : Remaining sent (phaseOf done) (pending mail worker)
  reading : Reading s o read done
  last : o.reads.getLast? = some read

/-- What the store keeps: nothing is coming, or the rest of one read is. -/
structure Traced (s : WatchlistState) (o : Origin) (mail : List LandedWhat)
    (worker : Option ListWorker) : Prop where
  attributed : Attributed s o
  writes : s.writesSeen = o.writes % 2 ^ 32
  coming : (pending mail worker = [] ∧ s.incoming = none) ∨
    ∃ sent read done, Coming s o mail worker sent read done

section
variable {s : WatchlistState} {o : Origin} {read : ListRead} {done : List What}

section
variable (h : Reading s o read done)
include h

theorem Reading.fresh_facts (phase : phaseOf done = .fresh) :
    s.incoming = none ∧ (s.listEtag ≠ none → s.rows ≠ []) := by
  have progress := h.progress
  rw [phase] at progress
  cases progress with
  | fresh none_in shown => exact ⟨none_in, shown⟩

theorem Reading.first (phase : phaseOf done = .fresh)
    (rows : List CatalogId) (etag : Option String) :
    Reading (s.apply (.page 0 rows etag)) (o.apply s ⟨read.req, .page 0 rows etag⟩) read
        (done ++ [.page 0 rows etag]) ∧
      (Attributed s o → Attributed (s.apply (.page 0 rows etag)) (o.apply s ⟨read.req, .page 0 rows etag⟩)) := by
  obtain ⟨none_in, shown⟩ := h.fresh_facts phase
  have begun : phaseOf (done ++ [.page 0 rows etag]) = .paging := phaseOf_snoc
  have list := listOf_page done 0 rows etag
  have given := etagOf_page done 0 rows etag
  rw [if_pos rfl] at list given
  have unfailed : phaseOf done ≠ .failed := by
    rw [phase]
    decide
  cases empty : s.rows.isEmpty with
  | true =>
    have unheld : s.listEtag = none := by
      by_contra some_held
      exact shown some_held (List.isEmpty_iff.mp empty)
    have state : s.apply (.page 0 rows etag) =
        { s with readEtag := etag, truncated := false, rows := rows, rowsStamp := s.readStamp } := by
      simp [apply, empty]
    have origin : o.apply s ⟨read.req, .page 0 rows etag⟩ =
        { o with readEtagFrom := some read.req, rowsFrom := [read.req] } := by
      simp [Origin.apply, empty]
    rw [state, origin]
    refine ⟨⟨h.known, h.stamp, h.since, h.bound, ?_, ?_, ?_⟩, fun a => ⟨?_, ?_⟩⟩
    · intro n stored
      exact ⟨(h.guard n stored).1, by rw [begun]; decide⟩
    · exact fun some_held => absurd unheld some_held
    · rw [begun]
      exact .inPlace rfl given.symm none_in list.symm (fun req mem => mem_singleton.mp mem)
        h.stamp unheld
    · intro req mem
      exact ⟨read, h.known, (mem_singleton.mp mem).symm, h.stamp.symm⟩
    · intro e held
      rw [show s.listEtag = _ from held] at unheld
      cases unheld
  | false =>
    have state : s.apply (.page 0 rows etag) =
        { s with readEtag := etag, truncated := false, incoming := some rows } := by
      simp [apply, empty]
    have origin : o.apply s ⟨read.req, .page 0 rows etag⟩ =
        { o with readEtagFrom := some read.req, incomingFrom := [read.req] } := by
      simp [Origin.apply, empty]
    rw [state, origin]
    refine ⟨⟨h.known, h.stamp, h.since, h.bound, ?_, ?_, ?_⟩, fun a => ⟨a.rows, a.etag⟩⟩
    · intro n stored
      exact ⟨(h.guard n stored).1, by rw [begun]; decide⟩
    · exact fun some_held => ⟨(h.held some_held).1, fun _ => (h.held some_held).2 unfailed⟩
    · rw [begun]
      refine .beside rfl given.symm ?_ (fun req mem => mem_singleton.mp mem)
      rw [list]

theorem Reading.later (phase : phaseOf done = .paging) {start : Nat}
    (positive : 0 < start) (rows : List CatalogId) (etag : Option String) :
    Reading (s.apply (.page start rows etag)) (o.apply s ⟨read.req, .page start rows etag⟩) read
        (done ++ [.page start rows etag]) ∧
      (Attributed s o →
        Attributed (s.apply (.page start rows etag)) (o.apply s ⟨read.req, .page start rows etag⟩)) := by
  have apart : start ≠ 0 := Nat.ne_of_gt positive
  have begun : phaseOf (done ++ [.page start rows etag]) = .paging := phaseOf_snoc
  have list := listOf_page done start rows etag
  have given := etagOf_page done start rows etag
  rw [if_neg apart] at list given
  have progress := h.progress
  have guard := h.guard
  have held := h.held
  rw [phase] at progress guard held
  cases progress with
  | beside origin eq incoming only =>
    have state : s.apply (.page start rows etag) =
        { s with incoming := some (appendNew (listOf done) rows) } := by
      simp [apply, apart, incoming]
    have moved : o.apply s ⟨read.req, .page start rows etag⟩ =
        { o with incomingFrom := o.incomingFrom ++ [read.req] } := by
      simp [Origin.apply, apart, incoming]
    rw [state, moved]
    refine ⟨⟨h.known, h.stamp, h.since, h.bound, ?_, ?_, ?_⟩, fun a => ⟨a.rows, a.etag⟩⟩
    · rw [begun]
      exact guard
    · rw [begun]
      exact held
    · rw [begun]
      refine .beside origin (eq.trans given.symm) ?_ ?_
      · rw [list]
      · intro req mem
        rcases mem_append.mp mem with old | new
        · exact only req old
        · exact mem_singleton.mp new
  | inPlace origin eq none_in shown only stamp unheld =>
    have state : s.apply (.page start rows etag) = { s with rows := appendNew s.rows rows } := by
      simp [apply, apart, none_in]
    have moved : o.apply s ⟨read.req, .page start rows etag⟩ =
        { o with rowsFrom := o.rowsFrom ++ [read.req] } := by
      simp [Origin.apply, apart, none_in]
    have still : ∀ req ∈ o.rowsFrom ++ [read.req], req = read.req := by
      intro req mem
      rcases mem_append.mp mem with old | new
      · exact only req old
      · exact mem_singleton.mp new
    rw [state, moved]
    refine ⟨⟨h.known, h.stamp, h.since, h.bound, ?_, ?_, ?_⟩, fun a => ⟨?_, ?_⟩⟩
    · rw [begun]
      exact guard
    · exact fun some_held => absurd unheld some_held
    · rw [begun]
      refine .inPlace origin (eq.trans given.symm) none_in ?_ still stamp unheld
      rw [list, ← shown]
    · intro req mem
      exact ⟨read, h.known, (still req mem).symm, stamp.symm⟩
    · intro e held
      rw [show s.listEtag = _ from held] at unheld
      cases unheld

theorem Reading.unchanged (phase : phaseOf done = .fresh)
    (a : Attributed s o) :
    Reading (s.apply .notModified) (o.apply s ⟨read.req, .notModified⟩) read (done ++ [.notModified]) ∧
      Attributed (s.apply .notModified) (o.apply s ⟨read.req, .notModified⟩) := by
  obtain ⟨none_in, -⟩ := h.fresh_facts phase
  have begun : phaseOf (done ++ [.notModified]) = .unchanged := phaseOf_snoc
  have unfailed : phaseOf done ≠ .failed := by
    rw [phase]
    decide
  refine ⟨⟨h.known, h.stamp, h.since, h.bound, ?_, ?_, ?_⟩, ?_, a.etag⟩
  · intro n stored
    exact ⟨(h.guard n stored).1, by rw [begun]; decide⟩
  · exact fun some_held => ⟨(h.held some_held).1, fun _ => (h.held some_held).2 unfailed⟩
  · rw [begun]
    refine .unchanged none_in ?_
    intro etag eq
    have held : s.listEtag = some etag := eq
    obtain ⟨older, known, from_it, given, writes, rows⟩ := a.etag etag held
    have unwritten := (h.held (by rw [held]; exact Option.some_ne_none etag)).1
    exact ⟨older, known, from_it, given, writes.trans unwritten, rows⟩
  · intro req mem
    exact ⟨read, h.known, (mem_singleton.mp mem).symm, h.stamp.symm⟩

theorem Reading.broke (start : Nat) :
    Reading (s.apply (.pageFailed start)) (o.apply s ⟨read.req, .pageFailed start⟩) read
        (done ++ [.pageFailed start]) ∧
      (Attributed s o → Attributed (s.apply (.pageFailed start)) (o.apply s ⟨read.req, .pageFailed start⟩)) := by
  have ended : phaseOf (done ++ [.pageFailed start]) = .failed := phaseOf_snoc
  obtain ⟨cut, state⟩ : ∃ cut, s.apply (.pageFailed start) =
      { s with readWrites := none, incoming := none, truncated := cut } := by
    by_cases bare : start = 0 ∧ s.rows.isEmpty
    · exact ⟨s.truncated, if_pos bare⟩
    · exact ⟨decide (0 < start) && !s.incoming.isSome, if_neg bare⟩
  rw [state]
  refine ⟨⟨h.known, h.stamp, h.since, h.bound, ?_, ?_, ?_⟩, fun a => ⟨a.rows, a.etag⟩⟩
  · exact fun n stored => by cases stored
  · intro some_held
    exact ⟨(h.held some_held).1, fun unfailed => absurd ended unfailed⟩
  · rw [ended]
    exact .failed rfl

end

end

section
variable {s : WatchlistState} {o : Origin} {read : ListRead} {done : List What}

theorem Reading.released (h : Reading s o read done) (begun : phaseOf done ≠ .fresh) :
    Reading s o read (done ++ [.released]) := by
  have eq : phaseOf (done ++ [.released]) = phaseOf done := phaseOf_snoc
  have list : listOf (done ++ [.released]) = listOf done := listOf_other (by simp)
  have given : etagOf (done ++ [.released]) = etagOf done := etagOf_other (by simp)
  refine ⟨h.known, h.stamp, h.since, h.bound, ?_, ?_, ?_⟩
  · rw [eq]
    exact h.guard
  · rw [eq]
    exact h.held
  · rw [eq]
    have progress := h.progress
    generalize phaseOf done = phase at progress begun
    cases progress with
    | fresh => exact absurd rfl begun
    | beside origin etag incoming only =>
      exact .beside origin (etag.trans given.symm) (by rw [list]; exact incoming) only
    | inPlace origin etag none_in rows only stamp unheld =>
      exact .inPlace origin (etag.trans given.symm) none_in (rows.trans list.symm) only stamp unheld
    | unchanged none_in vouched => exact .unchanged none_in vouched
    | failed none_in => exact .failed none_in

theorem Reading.unwritten (h : Reading s o read done) (writes : s.writesSeen = o.writes % 2 ^ 32)
    (stored : s.readWrites = some s.writesSeen) : o.writes = read.writes := by
  have eq := (h.guard _ stored).1
  have since := h.since
  have bound := h.bound
  omega

/-- While the counter matches, the last landing stores the validator of the list it
commits; otherwise no validator is held that another list could contradict. -/
theorem Reading.finish (h : Reading s o read done) (posts : read.posts = done ++ [.listDone])
    (begun : phaseOf done ≠ .fresh) (writes : s.writesSeen = o.writes % 2 ^ 32) (a : Attributed s o) :
    (s.apply .listDone).incoming = none ∧
      Attributed (s.apply .listDone) (o.apply s ⟨read.req, .listDone⟩) := by
  have list : listOf read.posts = listOf done := by
    rw [posts]
    exact listOf_other (by simp)
  have given : etagOf read.posts = etagOf done := by
    rw [posts]
    exact etagOf_other (by simp)
  -- a validator held beside a list that replaces its rows is one the counter lets go
  have matches_ : s.listEtag ≠ none → phaseOf done ≠ .failed → s.readWrites = some s.writesSeen := by
    intro some_held unfailed
    obtain ⟨unwritten, eq⟩ := h.held some_held
    rw [eq unfailed, writes, unwritten]
  have progress := h.progress
  have guard := h.guard
  generalize phaseOf done = phase at progress begun matches_ guard
  cases progress with
  | fresh => exact absurd rfl begun
  | beside origin etag incoming only =>
    have rows : ∀ req ∈ o.incomingFrom, ∃ r ∈ o.reads, r.req = req ∧ r.stamp = s.readStamp :=
      fun req mem => ⟨read, h.known, (only req mem).symm, h.stamp.symm⟩
    by_cases stored : s.readWrites = some s.writesSeen
    · have unwritten := h.unwritten writes stored
      simp only [apply, Origin.apply, incoming, if_pos stored]
      refine ⟨trivial, rows, ?_⟩
      intro e eq
      exact ⟨read, h.known, origin, given.trans (etag.symm.trans eq), unwritten.symm, list.symm⟩
    · simp only [apply, Origin.apply, incoming, if_neg stored]
      refine ⟨trivial, rows, ?_⟩
      intro e eq
      exact absurd (matches_ (by rw [show s.listEtag = _ from eq]; exact Option.some_ne_none e)
        (by decide)) stored
  | inPlace origin etag none_in rows only stamp unheld =>
    by_cases stored : s.readWrites = some s.writesSeen
    · have unwritten := h.unwritten writes stored
      simp only [apply, Origin.apply, none_in, if_pos stored]
      refine ⟨trivial, a.rows, ?_⟩
      intro e eq
      exact ⟨read, h.known, origin, given.trans (etag.symm.trans eq), unwritten.symm,
        rows.trans list.symm⟩
    · simp only [apply, Origin.apply, none_in, if_neg stored]
      refine ⟨trivial, a.rows, ?_⟩
      intro e eq
      rw [show s.listEtag = _ from eq] at unheld
      cases unheld
  | unchanged none_in vouched =>
    by_cases stored : s.readWrites = some s.writesSeen
    · have unwritten := h.unwritten writes stored
      simp only [apply, Origin.apply, none_in, if_pos stored]
      refine ⟨trivial, a.rows, ?_⟩
      intro e eq
      obtain ⟨older, known, from_it, its, before, rows⟩ := vouched e eq
      exact ⟨older, known, from_it, its, before.trans unwritten.symm, rows⟩
    · simp only [apply, Origin.apply, none_in, if_neg stored]
      exact ⟨trivial, a.rows, a.etag⟩
  | failed none_in =>
    by_cases stored : s.readWrites = some s.writesSeen
    · exact absurd rfl (guard _ stored).2
    · simp only [apply, Origin.apply, none_in, if_neg stored]
      exact ⟨trivial, a.rows, a.etag⟩

end

section
variable {s : WatchlistState} {o : Origin} {mail : List LandedWhat} {worker : Option ListWorker}
  {landed : LandedWhat}

theorem WatchlistState.apply_writesSeen (what : What) : (s.apply what).writesSeen = s.writesSeen := by
  cases what <;> simp only [apply] <;> (repeat' split) <;> rfl

theorem Origin.apply_reads : (o.apply s landed).reads = o.reads := by
  unfold Origin.apply
  split <;> (repeat' split) <;> rfl

theorem Origin.apply_writes : (o.apply s landed).writes = o.writes := by
  unfold Origin.apply
  split <;> (repeat' split) <;> rfl

theorem pending_cons_list (list : landed.what.isList = true) :
    pending (landed :: mail) worker = landed.what :: pending mail worker := by
  simp [pending, list]

theorem pending_cons_other (other : landed.what.isList = false) :
    pending (landed :: mail) worker = pending mail worker := by
  simp [pending, other]

theorem pending_of_clean (clean : ∀ landed ∈ mail, landed.what.isList = false) :
    pending mail none = [] := by
  have none_left : mail.filter (fun landed => landed.what.isList) = [] := by
    rw [filter_eq_nil_iff]
    intro landed mem
    rw [clean landed mem]
    exact Bool.false_ne_true
  simp [pending, none_left]

/-- A read's progress does not depend on the presses, the retry clocks and the write
counters, and stands when a held validator is dropped. -/
theorem Progress.aside {read : ListRead} {done : List What} {phase : Phase}
    (h : Progress s o read done phase) (req : Nat) (ledger : IntentLedger) (listWanted : Bool)
    (listRetry writeRetry writesSeen writes : Nat) {etag : Option String}
    (dropped : etag = s.listEtag ∨ etag = none) :
    Progress { s with req, ledger, listWanted, listRetry, writeRetry, writesSeen, listEtag := etag }
      { o with writes } read done phase := by
  have held : etag ≠ none → s.listEtag ≠ none := by
    rcases dropped with rfl | rfl
    · exact id
    · exact fun some_held => absurd rfl some_held
  cases h with
  | fresh none_in shown => exact .fresh none_in (fun some_held => shown (held some_held))
  | beside origin given incoming only => exact .beside origin given incoming only
  | inPlace origin given none_in rows only stamp unheld =>
    exact .inPlace origin given none_in rows only stamp (not_not.mp (fun some_held => held some_held unheld))
  | unchanged none_in vouched => exact .unchanged none_in vouched
  | failed none_in => exact .failed none_in

theorem Traced.aside (h : Traced s o mail worker) (req : Nat) (ledger : IntentLedger)
    (listWanted : Bool) (listRetry writeRetry : Nat) :
    Traced { s with req, ledger, listWanted, listRetry, writeRetry } o mail worker := by
  refine ⟨⟨h.attributed.rows, h.attributed.etag⟩, h.writes, ?_⟩
  rcases h.coming with idle | ⟨sent, read, done, c⟩
  · exact .inl idle
  · have r := c.reading
    exact .inr ⟨sent, read, done, c.posts, c.mailed, c.working, c.remaining,
      ⟨r.known, r.stamp, r.since, r.bound, r.guard, r.held,
        r.progress.aside req ledger listWanted listRetry writeRetry s.writesSeen o.writes (.inl rfl)⟩, c.last⟩

theorem Traced.repost {mail' : List LandedWhat} {worker' : Option ListWorker} (h : Traced s o mail worker)
    (eq : pending mail' worker' = pending mail worker)
    (mine : ∀ req, (∀ l ∈ mail, l.what.isList = true → l.req = req) → (∀ w, worker = some w → w.req = req) →
      (∀ l ∈ mail', l.what.isList = true → l.req = req) ∧ ∀ w, worker' = some w → w.req = req) :
    Traced s o mail' worker' := by
  refine ⟨h.attributed, h.writes, ?_⟩
  rcases h.coming with idle | ⟨sent, read, done, c⟩
  · exact .inl ⟨eq.trans idle.1, idle.2⟩
  · obtain ⟨mailed, working⟩ := mine read.req c.mailed c.working
    refine .inr ⟨sent, read, done, ?_, mailed, working, ?_, c.reading, c.last⟩
    · rw [eq]
      exact c.posts
    · rw [eq]
      exact c.remaining

theorem Coming.advance {sent : Bool} {read : ListRead} {done rest : List What} {what : What}
    (coming : pending mail worker = rest) (posts : read.posts = done ++ what :: rest)
    (tail : Remaining sent ((phaseOf done).after what) rest)
    (mailed : ∀ l ∈ mail, l.what.isList = true → l.req = read.req)
    (working : ∀ w, worker = some w → w.req = read.req) (next : Reading s o read (done ++ [what]))
    (last : o.reads.getLast? = some read) : Coming s o mail worker sent read (done ++ [what]) := by
  refine ⟨?_, mailed, working, ?_, next, last⟩
  · rw [posts, coming, append_assoc, singleton_append]
  · rw [phaseOf_snoc, coming]
    exact tail

/-- The first landing of the mailbox, when it is the list worker's: it is the next post
of the read that is coming. -/
theorem Coming.land {sent : Bool} {read : ListRead} {done : List What}
    (c : Coming s o (landed :: mail) worker sent read done) (list : landed.what.isList = true)
    (writes : s.writesSeen = o.writes % 2 ^ 32) (a : Attributed s o) :
    Attributed (s.apply landed.what) (o.apply s landed) ∧
      ((pending mail worker = [] ∧ (s.apply landed.what).incoming = none) ∨
        ∃ done, Coming (s.apply landed.what) (o.apply s landed) mail worker sent read done) := by
  obtain ⟨posts, mailed, working, remaining, reading, last⟩ := c
  have mine := mailed landed (mem_cons_self ..) list
  obtain ⟨req, what⟩ := landed
  subst mine
  rw [pending_cons_list list] at posts remaining
  have last' : (o.apply s ⟨read.req, what⟩).reads.getLast? = some read := by
    rw [Origin.apply_reads]
    exact last
  have left := fun l mem => mailed l (mem_cons_of_mem _ mem)
  generalize rest_eq : pending mail worker = rest at remaining posts
  generalize phase_eq : phaseOf done = phase at remaining
  cases remaining with
  | first tail =>
    obtain ⟨next, kept⟩ := reading.first phase_eq _ _
    exact ⟨kept a, .inr ⟨_, .advance rest_eq posts tail left working next last'⟩⟩
  | unchanged asked tail =>
    obtain ⟨next, kept⟩ := reading.unchanged phase_eq a
    exact ⟨kept, .inr ⟨_, .advance rest_eq posts tail left working next last'⟩⟩
  | later positive tail =>
    obtain ⟨next, kept⟩ := reading.later phase_eq positive _ _
    exact ⟨kept a, .inr ⟨_, .advance rest_eq posts tail left working next last'⟩⟩
  | released begun tail =>
    rw [← phase_eq] at begun tail
    exact ⟨a, .inr ⟨_, .advance rest_eq posts tail left working (reading.released begun) last⟩⟩
  | failed =>
    obtain ⟨next, kept⟩ := reading.broke _
    exact ⟨kept a, .inr ⟨_, .advance rest_eq posts (.done Phase.noConfusion) left working next last'⟩⟩
  | done begun =>
    rw [← phase_eq] at begun
    obtain ⟨ended, kept⟩ := reading.finish posts begun writes a
    exact ⟨kept, .inl ⟨rfl, ended⟩⟩

theorem Traced.land (h : Traced s o (landed :: mail) worker) :
    Traced (s.apply landed.what) (o.apply s landed) mail worker := by
  have writes : (s.apply landed.what).writesSeen = (o.apply s landed).writes % 2 ^ 32 := by
    rw [apply_writesSeen, Origin.apply_writes]
    exact h.writes
  cases list : landed.what.isList with
  | true =>
    rcases h.coming with ⟨empty, -⟩ | ⟨sent, read, done, c⟩
    · rw [pending_cons_list list] at empty
      cases empty
    · obtain ⟨kept, idle | ⟨more, next⟩⟩ := c.land list h.writes h.attributed
      · exact ⟨kept, writes, .inl idle⟩
      · exact ⟨kept, writes, .inr ⟨sent, read, more, next⟩⟩
  | false =>
    obtain ⟨req, what⟩ := landed
    cases what with
    | written write outcome =>
      refine (h.aside s.req (s.ledger.finished write outcome).1 s.listWanted s.listRetry
        s.writeRetry).repost (pending_cons_other list).symm ?_
      exact fun req mailed working => ⟨fun l mem => mailed l (mem_cons_of_mem _ mem), working⟩
    | _ => cases list

end

namespace Store
variable {s : Store}

/-- The invariant of the whole store. A worker that is out holds its flag, and the write
worker posts no list landing. -/
structure Kept (s : Store) : Prop where
  traced : Traced s.state s.origin s.mail s.worker
  flagged : s.worker ≠ none → s.listBusy = true
  written : ∀ landed, s.writer = some landed → landed.what.isList = false

theorem new_kept : Kept new := by
  refine ⟨⟨⟨?_, ?_⟩, ?_, ?_⟩, ?_, ?_⟩
  · intro req mem
    cases mem
  · intro etag held
    cases held
  · decide
  · exact .inl ⟨rfl, rfl⟩
  · intro out
    exact absurd rfl out
  · intro landed out
    cases out

theorem drained_traced (mail : List LandedWhat)
    (h : Traced s.state s.origin mail s.worker) :
    let after := mail.foldl land { s with mail := [] }
    Traced after.state after.origin after.mail after.worker ∧ after.worker = s.worker ∧
      after.listBusy = s.listBusy ∧ after.writer = s.writer := by
  induction mail generalizing s with
  | nil => exact ⟨h, rfl, rfl, rfl⟩
  | cons landed mail ih => exact ih (s := { s with mail := [] }.land landed) h.land

theorem Kept.drain (h : Kept s) : Kept s.drain := by
  have aside := h.traced.aside s.state.req s.state.ledger s.state.listWanted (s.state.listRetry - 1)
    (s.state.writeRetry - 1)
  obtain ⟨traced, worker, busy, writer⟩ := drained_traced (s := { s with
    pumping := true
    state := { s.state with listRetry := s.state.listRetry - 1, writeRetry := s.state.writeRetry - 1 } })
    s.mail aside
  refine ⟨traced, ?_, ?_⟩
  · intro out
    exact busy.trans (h.flagged (fun none_out => out (worker.trans none_out)))
  · intro landed out
    exact h.written landed (writer.symm.trans out)

theorem Traced.spawnWrite {st : WatchlistState} {o : Origin} {mail : List LandedWhat}
    {worker : Option ListWorker} (h : Traced st o mail worker) (write : PendingWrite) (spawned : Bool)
    (bound : ∀ read, o.reads.getLast? = some read → o.writes + 1 < read.writes + 2 ^ 32) :
    Traced (st.spawnWrite write spawned) { o with writes := o.writes + 1 } mail worker := by
  have spawn : Traced { st with req := st.req + 1, writesSeen := (st.writesSeen + 1) % 2 ^ 32, listEtag := none }
      { o with writes := o.writes + 1 } mail worker := by
    refine ⟨⟨h.attributed.rows, fun _ held => by cases held⟩, ?_, ?_⟩
    · have writes := h.writes
      simp only
      omega
    · rcases h.coming with idle | ⟨sent, read, done, c⟩
      · exact .inl idle
      · refine .inr ⟨sent, read, done, c.posts, c.mailed, c.working, c.remaining, ?_, c.last⟩
        have r := c.reading
        refine ⟨r.known, r.stamp, Nat.le_succ_of_le r.since, bound read c.last, r.guard,
          fun held => absurd rfl held, ?_⟩
        exact r.progress.aside _ _ _ _ _ _ _ (.inr rfl)
  cases spawned with
  | true => exact spawn
  | false => exact spawn.aside _ (st.ledger.requeue write) _ _ retryFrames

theorem maybeWrite_cases (s : Store) (spawned : Bool) (outcome : WriteOutcome) :
    s.maybeWrite spawned outcome = s ∨ ∃ ledger write, s.maybeWrite spawned outcome =
      { s with state := { s.state with ledger } }.spawnWrite write spawned outcome := by
  unfold Store.maybeWrite
  split
  · split
    · rename_i ledger write _
      exact .inr ⟨ledger, write, rfl⟩
    · exact .inl rfl
  · exact .inl rfl

section
variable (h : Kept s)
include h

theorem Kept.maybeWrite (spawned : Bool) (outcome : WriteOutcome)
    (bound : ∀ read, (s.maybeWrite spawned outcome).origin.reads.getLast? = some read →
      (s.maybeWrite spawned outcome).origin.writes < read.writes + 2 ^ 32) :
    Kept (s.maybeWrite spawned outcome) := by
  obtain eq | ⟨ledger, write, eq⟩ := s.maybeWrite_cases spawned outcome
  · rw [eq]
    exact h
  · rw [eq] at bound ⊢
    have aside := h.traced.aside s.state.req ledger s.state.listWanted s.state.listRetry s.state.writeRetry
    refine ⟨Traced.spawnWrite aside write spawned bound, h.flagged, ?_⟩
    intro landed out
    cases spawned with
    | true =>
      cases out
      simp [What.isList]
    | false => cases out

theorem Kept.spawnList (free : s.listBusy = false)
    (clean : ∀ landed ∈ s.mail, landed.what.isList = false)
    (shown : s.state.listEtag ≠ none → s.state.ledger.busy = false ∧ s.state.rows ≠ [])
    (spawned : Bool) (posts : List What) {sent : Bool} (may : Remaining sent .fresh posts) :
    Kept (s.spawnList spawned posts) := by
  have unmanned : s.worker = none := by
    by_contra out
    rw [h.flagged out] at free
    cases free
  have nothing : pending s.mail s.worker = [] := by
    rw [unmanned]
    exact pending_of_clean clean
  have none_in : s.state.incoming = none := by
    rcases h.traced.coming with ⟨-, none_in⟩ | ⟨sent, read, done, c⟩
    · exact none_in
    · have remaining := c.remaining
      rw [nothing] at remaining
      exact absurd rfl remaining.nonempty
  have a := h.traced.attributed
  cases spawned with
  | false => exact ⟨⟨⟨a.rows, a.etag⟩, h.traced.writes, .inl ⟨nothing, none_in⟩⟩, h.flagged, h.written⟩
  | true =>
    have older : ∀ {P : ListRead → Prop} {new : ListRead}, (∃ read ∈ s.origin.reads, P read) →
        ∃ read ∈ s.origin.reads ++ [new], P read := by
      intro P new ⟨read, known, holds⟩
      exact ⟨read, mem_append_left _ known, holds⟩
    refine ⟨⟨⟨fun req mem => older (a.rows req mem), fun etag held => older (a.etag etag held)⟩,
      h.traced.writes, .inr ⟨sent, ⟨s.state.req + 1, s.state.ledger.stamp, s.origin.writes, posts⟩, [], ?_⟩⟩,
      fun _ => rfl, h.written⟩
    have all : pending s.mail (some ⟨s.state.req + 1, posts⟩) = posts := by
      have none_left : s.mail.filter (fun landed => landed.what.isList) = [] := by
        rw [unmanned] at nothing
        simpa [pending] using nothing
      simp [pending, none_left]
    refine ⟨?_, ?_, ?_, ?_, ?_, List.getLast?_concat⟩
    · exact all.symm
    · intro landed mem list
      rw [clean landed mem] at list
      cases list
    · intro w out
      cases out
      rfl
    · exact all.symm ▸ may
    · refine ⟨mem_append_right _ (mem_singleton_self _), rfl, Nat.le_refl _,
        Nat.lt_add_of_pos_right (by decide), ?_, ?_, .fresh none_in (fun held => (shown held).2)⟩
      · intro n stored
        have quiet : (if s.state.ledger.busy then none else some s.state.writesSeen) = some n := stored
        cases busy : s.state.ledger.busy with
        | true =>
          rw [busy] at quiet
          cases quiet
        | false =>
          rw [busy] at quiet
          cases quiet
          exact ⟨h.traced.writes, by decide⟩
      · intro held
        refine ⟨rfl, fun _ => ?_⟩
        change (if s.state.ledger.busy then none else some s.state.writesSeen) = _
        rw [(shown held).1, h.traced.writes]
        exact if_neg Bool.false_ne_true

theorem Kept.maybeSpawn (writeSpawned : Bool) (outcome : WriteOutcome) (listSpawned : Bool)
    (posts : List What) (permitted : StorePermitted s (.maybeSpawn writeSpawned outcome listSpawned posts))
    (clean : SpawnsClean s (.maybeSpawn writeSpawned outcome listSpawned posts)) :
    Kept (s.maybeSpawn writeSpawned outcome listSpawned posts) := by
  have kept := h.maybeWrite writeSpawned outcome clean.2
  have idle : Kept { s.maybeWrite writeSpawned outcome with pumping := false } :=
    ⟨kept.traced, kept.flagged, kept.written⟩
  by_cases due : (s.maybeWrite writeSpawned outcome).listDue = true
  · obtain ⟨mail, shown⟩ := clean.1 due
    have free : (s.maybeWrite writeSpawned outcome).listBusy = false := by
      simp only [listDue, Bool.and_eq_true, Bool.not_eq_true'] at due
      exact due.1.1
    have eq : s.maybeSpawn writeSpawned outcome listSpawned posts = _ := if_pos due
    rw [eq]
    exact idle.spawnList free mail shown listSpawned posts permitted.2
  · have eq : s.maybeSpawn writeSpawned outcome listSpawned posts = _ := if_neg due
    rw [eq]
    exact idle

theorem Kept.workerPost : Kept s.workerPost := by
  unfold Store.workerPost
  split
  · rename_i req what posts out
    have moved : what.isList = true →
        pending (s.mail ++ [⟨req, what⟩]) (some ⟨req, posts⟩) = pending s.mail s.worker := by
      intro list
      simp [pending, out, list]
    refine ⟨?_, fun _ => h.flagged (by rw [out]; exact Option.some_ne_none _), h.written⟩
    have list : what.isList = true := by
      rcases h.traced.coming with ⟨idle, -⟩ | ⟨sent, read, done, c⟩
      · simp [pending, out] at idle
      · exact c.remaining.list what (by simp [pending, out])
    refine h.traced.repost (moved list) ?_
    intro number mailed working
    have mine : req = number := working _ out
    constructor
    · intro landed mem its
      rcases mem_append.mp mem with old | new
      · exact mailed landed old its
      · rw [mem_singleton.mp new]
        exact mine
    · intro w still
      rw [← Option.some.inj still]
      exact mine
  · exact h

theorem Kept.workerDone : Kept s.workerDone := by
  unfold Store.workerDone
  split
  · rename_i req out
    have eq : pending s.mail none = pending s.mail s.worker := by
      simp [pending, out]
    refine ⟨h.traced.repost eq ?_, fun still => absurd rfl still, h.written⟩
    intro number mailed _
    exact ⟨mailed, fun w still => nomatch still⟩
  · exact h

theorem Kept.writerPost : Kept s.writerPost := by
  unfold Store.writerPost
  split
  · rename_i landed out
    have other := h.written landed out
    have eq : pending (s.mail ++ [landed]) s.worker = pending s.mail s.worker := by
      simp [pending, other]
    refine ⟨h.traced.repost eq ?_, h.flagged, fun l still => by cases still⟩
    intro number mailed working
    refine ⟨?_, working⟩
    intro l mem list
    rcases mem_append.mp mem with old | new
    · exact mailed l old list
    · rw [mem_singleton.mp new, other] at list
      cases list
  · exact h

theorem Kept.step {tick : Tick} (permitted : StorePermitted s tick) (clean : SpawnsClean s tick) :
    Kept (s.step tick).1 := by
  cases tick with
  | press hex intent =>
    exact ⟨h.traced.aside _ (s.state.ledger.press hex intent).1 _ _ _, h.flagged, h.written⟩
  | reread => exact ⟨h.traced.aside _ _ true _ _, h.flagged, h.written⟩
  | drain => exact h.drain
  | maybeSpawn writeSpawned outcome listSpawned posts =>
    exact h.maybeSpawn writeSpawned outcome listSpawned posts permitted clean
  | workerPost => exact h.workerPost
  | workerDone => exact h.workerDone
  | writerPost => exact h.writerPost
  | writerDone =>
    simp only [Store.step]
    split
    · exact ⟨h.traced, h.flagged, h.written⟩
    · exact h

end

/-- Every landing is attributed to its read while every read is spawned clean. -/
theorem attributed_when_spawns_clean (ticks : List Tick)
    (permitted : Transducer.Guarded step (fun _ => StorePermitted) [] new ticks)
    (clean : Transducer.Guarded step (fun _ => SpawnsClean) [] new ticks) :
    Attributed (run step new ticks).state (run step new ticks).origin := by
  have kept := guarded_invariant step (R := fun _ s => Kept s)
    (fun _ _ _ both h => h.step both.1 both.2) new_kept (Transducer.Guarded.and step permitted clean)
  exact kept.traced.attributed

/-- The second read is spawned between the first one's last post and the drain that takes
it, so the first one's page is committed under the second one's stamp. -/
theorem rows_committed_under_later_stamp :
    let x : CatalogId := fun _ => 1
    let first : List What := [.page 0 [x] none, .released, .listDone]
    let ticks : List Tick := [.reread, .drain, .maybeSpawn true .landed true first,
      .press x .remove, .reread, .drain, .workerPost, .workerPost, .workerPost, .workerDone,
      .maybeSpawn true .landed true [.page 0 [] none, .listDone], .drain]
    Transducer.Guarded step (fun _ => StorePermitted) [] new ticks ∧
      ¬ Attributed (run step new ticks).state (run step new ticks).origin := by
  intro x first ticks
  refine ⟨⟨rfl, rfl, ⟨rfl, ?_⟩, rfl, rfl, rfl, trivial, trivial, trivial, trivial, ⟨rfl, ?_⟩, rfl, trivial⟩, ?_⟩
  · exact .first (.released (by decide) (.done (by decide)))
  · exact .first (.done (by decide))
  · intro attributed
    obtain ⟨read, known, mine, stamp⟩ := attributed.rows 1 (by decide)
    have spawned : (run step new ticks).origin.reads.map (fun r => (r.req, r.stamp)) =
        [(1, 0), (3, 1)] := by decide
    have member := mem_map_of_mem (f := fun r : ListRead => (r.req, r.stamp)) known
    have committed : (run step new ticks).state.rowsStamp = 1 := by decide
    rw [spawned, mine, stamp, committed] at member
    exact absurd member (by decide)

/-- A list read whole and then vouched for by a 304. -/
theorem attributed_list_and_unchanged_reread :
    let x : CatalogId := fun _ => 1
    let ticks : List Tick := [.reread, .drain,
      .maybeSpawn true .landed true [.page 0 [x] (some "v1"), .released, .listDone],
      .workerPost, .workerPost, .workerPost, .workerDone, .reread, .drain,
      .maybeSpawn true .landed true [.notModified, .listDone], .workerPost, .workerPost, .workerDone, .drain]
    (run step new ticks).state.rows = [x] ∧
      (run step new ticks).state.listEtag = some "v1" ∧
      Attributed (run step new ticks).state (run step new ticks).origin := by
  intro x ticks
  refine ⟨by decide, by decide, attributed_when_spawns_clean ticks ?_ ?_⟩
  · refine ⟨rfl, rfl, ⟨rfl, ?_⟩, trivial, trivial, trivial, trivial, rfl, rfl, ⟨rfl, ?_⟩, trivial, trivial,
      trivial, rfl, trivial⟩
    · exact .first (.released (by decide) (.done (by decide)))
    · exact .unchanged (by decide) (.done (by decide))
  · refine ⟨trivial, trivial, ⟨?_, ?_⟩, trivial, trivial, trivial, trivial, trivial, trivial, ⟨?_, ?_⟩, trivial,
      trivial, trivial, trivial, trivial⟩
    · intro due
      exact ⟨by decide, fun held => absurd (by decide) held⟩
    · intro read last
      cases last
    · intro due
      exact ⟨by decide, fun held => by decide⟩
    · intro read last
      cases last
      decide

end Store

end PlxNative.Watchlist
