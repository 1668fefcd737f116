import PlxNative.Paging.WindowInvariant

/-! An ask against any server at all: which first pages can break the window, and that no
other ones can. -/
namespace PlxNative.Paging
open List Bool Usize
open ViewState (ServerId)

section
variable {ask : Ask} {fetch : Fetch} {p : Progress} {edge : Edge}

/-- The read after its edge was anchored; a carried edge is the one that was held. -/
def Anchored (ask : Ask) (edge : Edge) : Reading Progress → Prop
  | .ok q => Going ask q ∧ ∀ e, q.carried = some e → e = edge ∧ q.calls = 0 ∧
      (ask.before = false → edge.position + 1 = ask.start)
  | .error .fault => False
  | .error _ => True

theorem Ready.going (ready : Ready ask p) : Going ask p := by
  have small := ready.small
  refine ⟨ready.window, ready.shown, ?_, fun _ => ready.place.trans ready.start, ?_⟩
  · unfold cap
    omega
  · intro e carried
    rw [ready.loose] at carried
    cases carried

theorem Ready.rebase_anchored {by_ : Int} {place : Nat} (ready : Ready ask p)
    (inside : p.offset ≤ edge.position ∧ edge.position < p.end_) (move : by_ = place - (edge.position : Int))
    (low : place < half) : Anchored ask edge (rebase ask p by_) := by
  unfold rebase
  cases shifts : shift p by_ with
  | none => exact True.intro
  | some q =>
    cases goes_on : addSigned? ask.start by_ with
    | none => exact True.intro
    | some cursor =>
      obtain ⟨eq, offset, end_, -⟩ := shift_eq_some shifts
      have rows : q.rows = p.rows.map (moved by_) := congrArg Progress.rows eq
      have loose : q.carried = none := (congrArg Progress.carried eq).trans ready.loose
      have uncarried : ∀ e, q.carried = some e → False := by
        intro e carried
        rw [loose] at carried
        cases carried
      have on := Usize.addSigned?_eq_some goes_on
      have start := ready.start
      have small := ready.small
      refine ⟨⟨?_, ?_, ?_, ?_, fun e carried => (uncarried e carried).elim⟩,
        fun e carried => (uncarried e carried).elim⟩
      · rw [rows]
        exact ready.window.moved offset end_
      · rw [rows]
        intro row mem
        obtain ⟨was, there, rfl⟩ := mem_map.mp mem
        exact ready.shown was there
      · change q.end_ ≤ cap q.requests
        unfold cap
        omega
      · intro _
        change cursor = if ask.before then q.offset else q.end_
        split at start
        · rw [if_pos ‹_›]
          omega
        · rw [if_neg ‹_›]
          omega

theorem anchor_anchored (small : SmallPages fetch) (ready : Ready ask p)
    (inside : p.offset ≤ edge.position ∧ edge.position < p.end_) : Anchored ask edge (anchor ask fetch p edge) := by
  have start := ready.start
  have top := ready.small
  have held : edge.position < limit := by omega
  unfold anchor
  split
  · rename_i beside
    refine ⟨⟨ready.window, ready.shown, ready.going.bound, ?_, ?_⟩, ?_⟩
    · intro loose
      cases loose
    · rintro e ⟨⟩
      refine ⟨ready.requests, ready.few, held, Nat.le_of_lt top, rfl, ?_⟩
      rcases beside with ⟨backward, at_start⟩ | ⟨forward, past⟩
      · rw [backward] at start ⊢
        exact start.symm.trans at_start.symm
      · rw [forward] at start ⊢
        exact start.symm.trans past.symm
    · rintro e ⟨⟩
      refine ⟨rfl, ready.calls, ?_⟩
      intro forward
      rcases beside with ⟨backward, -⟩ | ⟨-, past⟩
      · rw [forward] at backward
        cases backward
      · exact past
  · dsimp only
    generalize first_at : (if ask.before = true then edge.position - maxShelfItems else edge.position) = first
    have near : first ≤ edge.position := by
      rw [← first_at]
      split <;> omega
    generalize (if ask.before = true then edge.position - first + 1 else maxShelfItems + 1) = count
    rcases readPage_cases fetch p.calls first count with failed | ⟨page, its, -, ok⟩
    · simp only [failed]
      exact True.intro
    · have found := relocate_relocated small (p.calls + 1) ask.before (small _ _ _ _ its)
        (Nat.lt_of_le_of_lt near held) held
      simp only [ok, bind, Except.bind]
      generalize relocate fetch (p.calls + 1) edge ask.before page first = relocation at found ⊢
      match relocation, found with
      | .error .failed, _ => exact True.intro
      | .error .unchanged, _ => exact True.intro
      | .ok .lost, _ => exact True.intro
      | .ok (.beyond by_), ⟨place, low, move⟩ => exact ready.rebase_anchored inside move low
      | .ok (.inPage by_), ⟨index, in_page, move⟩ =>
        have listed := findKey_lt in_page
        have short := small _ _ _ _ its
        have double : limit + limit = half := rfl
        exact ready.rebase_anchored inside move (by omega)

end

section
variable {ask : Ask} {current : Option (List Row × PageInfo)} {minimumEnd : Nat} {fetch : Fetch}

/-- The rows and the bounds an ask was made with. -/
def heldWindow (current : Option (List Row × PageInfo)) : List Row × Nat × Nat :=
  match current with
  | some (rows, info) => (rows, info.offset, info.end_)
  | none => ([], 0, 0)

/-- What an ask may return: nothing, or a window, which shows no hidden section unless it
is flagged, and then is the one held. -/
def Good (ask : Ask) (current : Option (List Row × PageInfo)) : Option (Option (List Row × PageInfo)) → Prop
  | none => False
  | some none => True
  | some (some (rows, info)) => Window rows info.offset info.end_ ∧
      (info.unstable = false → ∀ row ∈ rows, row.2.sec ∉ ask.hidden) ∧
      (info.unstable = true → (rows, info.offset, info.end_) = heldWindow current)

/-- A forward ask whose edge rides in the first read does not find it past the rows it
asked for. -/
def EdgeWithin (ask : Ask) (current : Option (List Row × PageInfo))
    (first : Nat → Nat → Option MediaContainer) : Prop :=
  ask.before = false → ∀ row, (retained ask current).getLast? = some row → row.1 + 1 = ask.start →
    ∀ page index, first row.1 (maxShelfItems + 1) = some page → page.offset = toSigned row.1 →
      findKey page row.2.rk = some index → index < maxShelfItems + 1

variable {edge : Edge}

theorem beginRead_edge_inside (begins : Begins ask current minimumEnd)
    (held : (beginRead ask current).2 = some edge) :
    (beginRead ask current).1.offset ≤ edge.position ∧ edge.position < (beginRead ask current).1.end_ := by
  have window := (beginRead_ready begins).window
  simp only [beginRead, Option.map_eq_some_iff] at held
  obtain ⟨row, its, rfl⟩ := held
  refine window.inside row ?_
  split at its
  · exact List.mem_of_mem_head? its
  · exact List.mem_of_getLast? its

theorem unchanged_good (begins : Begins ask current minimumEnd) :
    Good ask current (some (some (unchanged current))) := by
  cases current with
  | none =>
    refine ⟨⟨.nil, fun _ mem => absurd mem not_mem_nil, .nil, Nat.zero_le _, Nat.le_refl _⟩, ?_, fun _ => rfl⟩
    intro stable
    cases stable
  | some held =>
    refine ⟨(begins.held held.1 held.2 rfl).1, ?_, fun _ => rfl⟩
    intro stable
    cases stable

theorem fetchWindow_good (sid : ServerId) (begins : Begins ask current minimumEnd) (small : SmallPages fetch)
    (within : EdgeWithin ask current (fetch 0)) : Good ask current (fetchWindow sid ask current minimumEnd fetch) := by
  have ready := beginRead_ready begins
  -- a read that goes on from an anchored edge ends in a window
  have ends : ∀ {anchored : Reading Progress},
      (∀ q, anchored = .ok q → Going ask q ∧ Within ask fetch q) → anchored ≠ .error .fault →
      Finished ask (anchored.bind (reads sid ask minimumEnd fetch (turnBound minimumEnd))) := by
    intro anchored going sound
    match anchored, going, sound with
    | .error .failed, _, _ => exact True.intro
    | .error .unchanged, _, _ => exact True.intro
    | .error .fault, _, sound => exact absurd rfl sound
    | .ok q, going, _ =>
      obtain ⟨goes, inside⟩ := going q rfl
      refine reads_finished sid small goes inside begins.minimum ?_
      unfold need turnBound requestsPerAsk
      split <;> omega
  have finished : Finished ask ((anchored ask current fetch).bind (reads sid ask minimumEnd fetch (turnBound minimumEnd))) := by
    apply ends
    · intro q its
      unfold anchored at its
      cases held : (beginRead ask current).2 with
      | none =>
        rw [held] at its
        cases its
        refine ⟨ready.going, ?_⟩
        intro _ edge carried
        cases carried
      | some edge =>
        rw [held] at its
        have reached : Anchored ask edge (anchor ask fetch (beginRead ask current).1 edge) :=
          anchor_anchored small ready (beginRead_edge_inside begins held)
        dsimp only at its
        rw [its] at reached
        refine ⟨reached.1, ?_⟩
        intro forward e carried page index page_is echoed found
        obtain ⟨rfl, first, beside⟩ := reached.2 e carried
        rw [first] at page_is
        simp only [beginRead, forward, Option.map_eq_some_iff] at held
        obtain ⟨row, last, rfl⟩ := held
        exact within forward row last (beside forward) page index page_is echoed found
    · intro fault
      unfold anchored at fault
      cases held : (beginRead ask current).2 with
      | none =>
        rw [held] at fault
        cases fault
      | some edge =>
        rw [held] at fault
        have reached : Anchored ask edge (anchor ask fetch (beginRead ask current).1 edge) :=
          anchor_anchored small ready (beginRead_edge_inside begins held)
        dsimp only at fault
        rw [fault] at reached
        exact reached
  rw [fetchWindow_eq]
  generalize (anchored ask current fetch).bind (reads sid ask minimumEnd fetch (turnBound minimumEnd)) = read at finished ⊢
  cases read with
  | ok q => exact ⟨finished.1, fun _ => finished.2, fun unstable => by cases unstable⟩
  | error early =>
    cases early with
    | failed => exact True.intro
    | unchanged => exact unchanged_good begins
    | fault => exact finished.elim

/-- A server that sends nothing after its first page. -/
def thenNothing (first : Nat → Nat → Option MediaContainer) : Fetch := fun call start count =>
  if call = 0 then first start count else some ⟨toSigned start, 0, []⟩

theorem mapM_shiftRow_some (by_ : Nat) {rows : List Row} {bound : Nat} (fits : bound + by_ < Usize.size)
    (below : ∀ row ∈ rows, row.1 < bound) : ∃ rows', rows.mapM (shiftRow by_) = some rows' := by
  induction rows with
  | nil => exact ⟨[], rfl⟩
  | cons row rest ih =>
    obtain ⟨later, its⟩ := ih (fun row mem => below row (mem_cons_of_mem _ mem))
    have low := below row (mem_cons_self ..)
    have place : addSigned? row.1 (by_ : Int) = some (row.1 + by_ : Int).toNat :=
      Usize.addSigned?_eq (by omega) (by omega)
    have one : shiftRow (by_ : Int) row = some ((row.1 + by_ : Int).toNat, row.2) := by
      rw [shiftRow, place]
      rfl
    refine ⟨((row.1 + by_ : Int).toNat, row.2) :: later, ?_⟩
    rw [mapM_cons, one, its]
    rfl

variable {p : Progress}

theorem shift_some (by_ : Nat) (window : Window p.rows p.offset p.end_)
    (fits : p.end_ + by_ < Usize.size) : ∃ q, shift p by_ = some q := by
  have bounds := window.bounds
  obtain ⟨rows, its⟩ := mapM_shiftRow_some by_ fits (fun row mem => (window.inside row mem).2)
  have offset : addSigned? p.offset (by_ : Int) = some (p.offset + by_ : Int).toNat :=
    Usize.addSigned?_eq (by omega) (by omega)
  have end_ : addSigned? p.end_ (by_ : Int) = some (p.end_ + by_ : Int).toNat :=
    Usize.addSigned?_eq (by omega) (by omega)
  refine ⟨{ p with rows, offset := (p.offset + by_ : Int).toNat, end_ := (p.end_ + by_ : Int).toNat }, ?_⟩
  simp only [shift, its, offset, end_]
  rfl

variable {sid : ServerId}

theorem Filled.nothing {hidden : List Int} {keepFrom position : Nat} {items : List Metadata}
    {rows added : List Row} {read : Nat} (h : Filled sid hidden keepFrom position items rows added read)
    (few : rows.length < maxShelfItems) (past : position + items.length ≤ keepFrom) :
    added = [] ∧ read = items.length := by
  have fits := h.fits
  have none_added : added = [] := by
    rw [eq_nil_iff_forall_not_mem]
    intro row mem
    obtain ⟨above, i, place, less, -⟩ := h.listed row mem
    omega
  refine ⟨none_added, ?_⟩
  by_contra cut
  have full := h.full (by omega)
  rw [none_added, append_nil] at full
  omega

theorem turn_loose
    (ready : ¬ (maxShelfItems ≤ p.rows.length ∨ (ask.before = true ∧ p.cursor = 0))) (loose : p.carried = none) :
    turn sid ask fetch p = readLoose sid ask fetch { p with requests := p.requests + 1 } := by
  unfold turn
  rw [if_neg ready]
  split
  · rfl
  · rename_i edge carried
    rw [loose] at carried
    cases carried

variable {page : MediaContainer}

theorem readLoose_eq
    (ok : readPage fetch p.calls (pageStart ask p) (pageSize ask p) = .ok page) :
    readLoose sid ask fetch p = takePage sid ask { p with calls := p.calls + 1 } page (pageStart ask p)
      (pageSize ask p) (pageSize ask p) none := by
  unfold readLoose
  rw [ok]
  rfl

theorem turn_carried
    (ready : ¬ (maxShelfItems ≤ p.rows.length ∨ (ask.before = true ∧ p.cursor = 0)))
    (carried : p.carried = some edge) :
    turn sid ask fetch p = readCarried sid ask fetch { p with requests := p.requests + 1 } edge := by
  unfold turn
  rw [if_neg ready]
  split
  · rename_i loose
    rw [carried] at loose
    cases loose
  · rename_i e its
    rw [Option.some.inj (its.symm.trans carried)]

theorem readCarried_eq {found : Relocation}
    (ok : readPage fetch p.calls (pageStart ask p) (pageSize ask p + 1) = .ok page)
    (relocated : relocate fetch (p.calls + 1) edge ask.before page (pageStart ask p) = .ok found) :
    readCarried sid ask fetch p edge =
      follow sid ask { p with carried := none, calls := p.calls + 2 } edge page found := by
  unfold readCarried
  rw [ok]
  simp only [bind, Except.bind]
  rw [relocated]

theorem follow_inPage {p q : Progress} {by_ : Int}
    {corrected : Nat} (there : orUnchanged (addSigned? edge.position by_) = .ok corrected)
    (shifts : shift p by_ = some q) :
    follow sid ask p edge page (.inPage by_) =
      takePage sid ask q page (pageStart ask p) (pageSize ask p) (pageSize ask p + 1) (some corrected) := by
  unfold follow
  dsimp only
  rw [there, shifts]
  rfl

theorem reads_stray (sid : ServerId) (first : Nat → Nat → Option MediaContainer) (minimumEnd fuel : Nat)
    (forward : ask.before = false) {row : Row} (stray : row ∈ p.rows) (out : p.end_ ≤ row.1)
    (few : p.rows.length < maxShelfItems) (place : p.cursor = p.end_) (loose : p.carried = none)
    (asked : p.requests < requestsPerAsk) (later : 0 < p.calls) (low : p.end_ + maxShelfItems < Usize.size) :
    ∃ q, reads sid ask minimumEnd (thenNothing first) (fuel + 1) p = .ok q ∧ row ∈ q.rows ∧ q.end_ ≤ row.1 := by
  have ready : ¬ (maxShelfItems ≤ p.rows.length ∨ (ask.before = true ∧ p.cursor = 0)) := by
    rw [forward]
    rintro (full | ⟨⟨⟩, -⟩)
    omega
  have start : pageStart ask { p with requests := p.requests + 1 } = p.cursor := by
    simp only [pageStart, forward, false_eq_true, if_false]
  have size : pageSize ask { p with requests := p.requests + 1 } = maxShelfItems := by
    simp only [pageSize, forward, false_eq_true, if_false]
  have page : readPage (thenNothing first) p.calls p.cursor maxShelfItems =
      .ok ⟨toSigned p.cursor, 0, []⟩ := by
    simp only [readPage, thenNothing, if_neg (Nat.ne_of_gt later), if_true]
  obtain ⟨added, read, filled, -, result⟩ := takePage_forward sid
    { p with requests := p.requests + 1, calls := p.calls + 1 } forward ⟨toSigned p.cursor, 0, []⟩ p.cursor
    maxShelfItems maxShelfItems none rfl few (by omega) (by dsimp only; omega)
  obtain ⟨rfl, rfl⟩ := filled.nothing few (by simp)
  let q := afterForward { p with requests := p.requests + 1, calls := p.calls + 1 }
    ⟨toSigned p.cursor, 0, []⟩ p.cursor maxShelfItems [] 0
  have done : turn sid ask (thenNothing first) p = .ok (.done q) := by
    rw [turn_loose ready loose, readLoose_eq (by rw [start, size]; exact page), start, size]
    exact result
  refine ⟨q, ?_, ?_, ?_⟩
  · rw [reads, if_pos (.inl asked), done]
  · change row ∈ p.rows ++ []
    rw [append_nil]
    exact stray
  · change p.cursor + 0 ≤ row.1
    omega

/-- The first turn of a forward read that finds its carried edge past the rows it asked
for: the window moves to where the edge is, and the read ends before it. -/
theorem turn_strays (sid : ServerId) (forward : ask.before = false)
    {index : Nat} (going : Going ask p) (carried : p.carried = some edge)
    (its : fetch p.calls edge.position (maxShelfItems + 1) = some page)
    (echoed : page.offset = toSigned edge.position) (short : page.metadata.length < limit)
    (found : findKey page edge.key = some index) (far : maxShelfItems + 1 ≤ index) :
    ∃ q, q.rows = p.rows.map (moved index) ∧ q.end_ = edge.position + (maxShelfItems + 1) ∧ q.cursor = q.end_ ∧
      q.carried = none ∧ q.requests = 1 ∧ q.calls = p.calls + 2 ∧
      (turn sid ask fetch p = .ok (.done q) ∨ turn sid ask fetch p = .ok (.again q)) := by
  have carries := going.carries edge carried
  have held := carries.held
  have few := carries.few
  have place := carries.place
  have first := carries.first
  have small := carries.small
  have listed := findKey_lt found
  have double : limit + limit = half := rfl
  have fourfold : half + half = Usize.size := rfl
  have ready : ¬ (maxShelfItems ≤ p.rows.length ∨ (ask.before = true ∧ p.cursor = 0)) := by
    rw [forward]
    unfold maxShelfItems hubFetchCount at *
    rintro (full | ⟨⟨⟩, -⟩)
    omega
  have start : ∀ carried calls, pageStart ask { p with requests := p.requests + 1, carried, calls } =
      edge.position := by
    intro carried calls
    simp only [pageStart, forward]
    exact place
  have size : ∀ carried calls, pageSize ask { p with requests := p.requests + 1, carried, calls } =
      maxShelfItems := by
    intro carried calls
    simp only [pageSize, forward, false_eq_true, if_false]
  have read_page : readPage fetch p.calls edge.position (maxShelfItems + 1) = .ok page := by
    simp only [readPage, its, if_pos echoed]
  have by_index : ((edge.position + index : Nat) : Int) - (edge.position : Int) = index := by omega
  have relocated : relocate fetch (p.calls + 1) edge ask.before page edge.position = .ok (.inPage index) := by
    simp only [relocate, found, Usize.add?_eq (show edge.position + index < Usize.size by omega),
      Usize.diff?_eq (show edge.position + index < half by omega) (show edge.position < half by omega),
      by_index, orFault, bind, Except.bind]
    rfl
  obtain ⟨q, shifts⟩ := shift_some (p := { p with requests := p.requests + 1, carried := none, calls := p.calls + 2 })
    index going.window (by change p.end_ + index < Usize.size; omega)
  obtain ⟨eq, -⟩ := shift_eq_some shifts
  have rows : q.rows = p.rows.map (moved index) := congrArg Progress.rows eq
  have length : q.rows.length < maxShelfItems := by
    rw [rows, length_map]
    omega
  have corrected : orUnchanged (addSigned? edge.position (index : Int)) = .ok (edge.position + index) :=
    corrected_eq by_index.symm (by omega)
  obtain ⟨added, read, filled, -, result⟩ := takePage_forward sid q forward page edge.position maxShelfItems
    (maxShelfItems + 1) (some (edge.position + index)) rfl length
    (by unfold maxShelfItems limit half at *; omega) (by dsimp only; omega)
  have taken : (page.metadata.take (min page.metadata.length (maxShelfItems + 1))).length = maxShelfItems + 1 := by
    rw [length_take]
    omega
  obtain ⟨rfl, rfl⟩ := filled.nothing length (by dsimp only; omega)
  rw [taken] at result
  have turned : turn sid ask fetch p = takePage sid ask q page edge.position maxShelfItems (maxShelfItems + 1)
      (some (edge.position + index)) := by
    rw [turn_carried ready carried, readCarried_eq (by rw [start, size]; exact read_page)
      (by rw [start]; exact relocated), follow_inPage corrected shifts, start, size]
  refine ⟨afterForward q page edge.position (maxShelfItems + 1) [] (maxShelfItems + 1), ?_, rfl, rfl, ?_, ?_, ?_, ?_⟩
  · change q.rows ++ [] = _
    rw [append_nil, rows]
  · exact congrArg Progress.carried eq
  · refine (congrArg Progress.requests eq).trans ?_
    rw [first]
  · exact congrArg Progress.calls eq
  · rw [turned, result]
    split
    · exact .inr rfl
    · exact .inl rfl

theorem fetchWindow_breaks (sid : ServerId) {first : Nat → Nat → Option MediaContainer}
    (begins : Begins ask current minimumEnd) (forward : ask.before = false) {row : Row}
    (last : (retained ask current).getLast? = some row) (beside : row.1 + 1 = ask.start)
    {index : Nat} (its : first row.1 (maxShelfItems + 1) = some page)
    (echoed : page.offset = toSigned row.1) (short : page.metadata.length < limit)
    (found : findKey page row.2.rk = some index) (far : maxShelfItems + 1 ≤ index) :
    ¬ Good ask current (fetchWindow sid ask current minimumEnd (thenNothing first)) := by
  have ready := beginRead_ready begins
  have edge : (beginRead ask current).2 = some ⟨row.1, row.2.rk⟩ := by
    simp [beginRead, forward, last]
  let p := { (beginRead ask current).1 with cursor := row.1, carried := some ⟨row.1, row.2.rk⟩ }
  have anchored : anchor ask (thenNothing first) (beginRead ask current).1 ⟨row.1, row.2.rk⟩ = .ok p := by
    unfold anchor
    rw [if_pos (.inr ⟨forward, beside⟩)]
  have start := ready.start
  rw [forward] at start
  have end_ : (beginRead ask current).1.end_ = row.1 + 1 := start.symm.trans beside.symm
  have top := ready.small
  have held : row.1 < limit := by omega
  have going : Going ask p := by
    refine ⟨ready.window, ready.shown, ready.going.bound, ?_, ?_⟩
    · intro loose
      cases loose
    · rintro e ⟨⟩
      refine ⟨ready.requests, ready.few, held, Nat.le_of_lt top, rfl, ?_⟩
      rw [forward]
      exact end_
  have first_page : thenNothing first p.calls row.1 (maxShelfItems + 1) = some page := by
    have zero : p.calls = 0 := ready.calls
    exact its
  obtain ⟨q, rows, ends, place, loose, requests, calls, turned⟩ :=
    turn_strays sid forward going rfl first_page echoed short found far
  have stray : moved index row ∈ q.rows := by
    rw [rows]
    exact mem_map_of_mem (List.mem_of_getLast? last)
  have out : q.end_ ≤ (moved index row).1 := by
    change q.end_ ≤ (row.1 + (index : Int)).toNat
    dsimp only at ends
    omega
  have asked : p.requests < requestsPerAsk := by
    have zero : p.requests = 0 := ready.requests
    rw [zero]
    decide
  -- the read ends with a row past its end, at once or after an empty page
  have ended : ∃ r, reads sid ask minimumEnd (thenNothing first) (turnBound minimumEnd) p = .ok r ∧
      moved index row ∈ r.rows ∧ r.end_ ≤ (moved index row).1 := by
    have fuel : turnBound minimumEnd = requestsPerAsk - 1 + minimumEnd + 1 + 1 := by
      unfold turnBound requestsPerAsk
      omega
    rcases turned with done | again
    · refine ⟨q, ?_, stray, out⟩
      rw [turnBound, reads, if_pos (.inl asked), done]
    · obtain ⟨r, result, mem, past⟩ := reads_stray sid first minimumEnd
        (requestsPerAsk - 1 + minimumEnd) forward stray out
        (by rw [rows, length_map]; exact Nat.lt_of_le_of_lt ready.few (by decide)) place loose
        (by rw [requests]; decide) (by rw [calls]; exact Nat.succ_pos _)
        (by rw [ends]; unfold limit at held; unfold maxShelfItems Usize.size; dsimp only; omega)
      refine ⟨r, ?_, mem, past⟩
      rw [fuel, reads, if_pos (.inl asked), again]
      exact result
  obtain ⟨r, result, mem, past⟩ := ended
  unfold fetchWindow
  dsimp only
  rw [edge]
  dsimp only
  rw [anchored]
  simp only [Except.bind, result]
  rintro ⟨window, -⟩
  have inside := (window.inside _ mem).2
  dsimp only at inside
  omega

/-- Whatever the server does after its first page, an ask returns nothing or a window,
without leaving the machine's range, exactly when that page does not have the carried edge
of a forward ask past the rows it was asked for. -/
theorem fetchWindow_window_iff (sid : ServerId) (ask : Ask) (current : Option (List Row × PageInfo))
    (minimumEnd : Nat) (first : Nat → Nat → Option MediaContainer) (begins : Begins ask current minimumEnd)
    (short : ∀ start count page, first start count = some page → page.metadata.length < limit) :
    (∀ fetch, fetch 0 = first → SmallPages fetch → Good ask current (fetchWindow sid ask current minimumEnd fetch)) ↔
      EdgeWithin ask current first := by
  constructor
  · intro good forward row last beside page index its echoed found
    by_contra far
    refine fetchWindow_breaks sid begins forward last beside its echoed (short _ _ _ its) found (by omega)
      (good (thenNothing first) rfl ?_)
    intro call start count page page_is
    unfold thenNothing at page_is
    split at page_is
    · exact short _ _ _ page_is
    · cases page_is
      exact Nat.zero_lt_succ _
  · rintro within fetch rfl small
    exact fetchWindow_good sid begins small within

end

section

/-- An item that is shown, by its rating key. -/
def film (key : String) : Metadata := ⟨key, "movie", "poster", "", 1⟩

/-- One row, and a forward ask from its end. -/
def oneRow : List Row × PageInfo := ([(0, parseItem (film "edge") ⟨0⟩)], ⟨0, 1, 0, true, false⟩)

def askPastIt : Ask := ⟨1, false, []⟩

theorem oneRow_begins : Begins askPastIt (some oneRow) 0 := by
  refine ⟨by decide, by decide, ?_⟩
  rintro rows info ⟨⟩
  refine ⟨⟨pairwise_singleton _ _, ?_, pairwise_singleton _ _, by decide, by decide⟩, by decide, rfl⟩
  intro row mem
  rw [mem_singleton.mp mem]
  decide

def settledPage : MediaContainer := ⟨0, 0, [film "edge", film "next"]⟩

theorem fetchWindow_window_iff_settled :
    (∀ fetch, fetch 0 = (fun _ _ => some settledPage) → SmallPages fetch →
      Good askPastIt (some oneRow) (fetchWindow ⟨0⟩ askPastIt (some oneRow) 0 fetch)) ↔
      EdgeWithin askPastIt (some oneRow) (fun _ _ => some settledPage) := by
  refine fetchWindow_window_iff ⟨0⟩ askPastIt (some oneRow) 0 (fun _ _ => some settledPage) oneRow_begins ?_
  rintro start count page ⟨⟩
  decide

/-- A page of twenty-six items to a read of twenty-five, the edge the last of them. -/
def longPage : MediaContainer :=
  ⟨0, 0, (List.range 25).map (fun n => film (toString n)) ++ [film "edge"]⟩

theorem long_page_breaks_window :
    ¬ ∀ (sid : ServerId) (ask : Ask) (current : Option (List Row × PageInfo)) (minimumEnd : Nat) (fetch : Fetch),
      Begins ask current minimumEnd → SmallPages fetch →
        Good ask current (fetchWindow sid ask current minimumEnd fetch) := by
  intro every
  have result : fetchWindow ⟨0⟩ askPastIt (some oneRow) 0 (thenNothing (fun _ _ => some longPage)) =
      some (some ([(25, parseItem (film "edge") ⟨0⟩)], ⟨25, 25, 0, false, false⟩)) := by
    decide
  have good := every ⟨0⟩ askPastIt (some oneRow) 0 (thenNothing (fun _ _ => some longPage)) oneRow_begins ?_
  · have inside := (good.1.inside _ (mem_singleton_self _)).2
    exact absurd inside (by decide)
  · intro call start count page page_is
    unfold thenNothing at page_is
    split at page_is
    · cases page_is
      decide
    · cases page_is
      exact Nat.zero_lt_succ _

end
end PlxNative.Paging
