import PlxNative.Paging.Fill

/-! The window under any server: whatever the pages hold, a read that goes on keeps the
window's invariant and stays within the machine's range. -/
namespace PlxNative.Paging
open List Bool Usize
open ViewState (ServerId)

/-- Held positions and the sizes of pages are below it. -/
def limit : Nat := 4611686018427387904

/-- How far a read can have come after a number of requests. -/
def cap (requests : Nat) : Nat := half + limit + 25 * min requests requestsPerAsk

/-- The ask starts where its window ends, in its own direction. -/
structure Begins (ask : Ask) (current : Option (List Row × PageInfo)) (minimumEnd : Nat) : Prop where
  start : ask.start < limit
  minimum : minimumEnd < limit
  held : ∀ rows info, current = some (rows, info) → Window rows info.offset info.end_ ∧ info.end_ < limit ∧
    ask.start = if ask.before then info.offset else info.end_

def SmallPages (fetch : Fetch) : Prop :=
  ∀ call start count page, fetch call start count = some page → page.metadata.length < limit

section
variable {sid : ServerId} {hidden : List Int} {keepFrom position : Nat} {items : List Metadata}
  {rows added : List Row} {read : Nat}

section
variable (h : Filled sid hidden keepFrom position items rows added read)
include h

theorem Filled.reaches
    (few : rows.length < maxShelfItems) (cut : read < items.length) : keepFrom < position + read := by
  have full := h.full cut
  cases added with
  | nil =>
    rw [append_nil] at full
    omega
  | cons row rest =>
    obtain ⟨from_, i, place, less, -⟩ := h.listed row (mem_cons_self ..)
    omega

theorem Filled.window {offset : Nat}
    (window : Window rows offset keepFrom) (few : rows.length < maxShelfItems)
    (reaches : keepFrom ≤ position + read) : Window (rows ++ added) offset (position + read) := by
  have bounds := window.bounds
  refine ⟨?_, ?_, h.distinct window.distinct, h.room few, Nat.le_trans bounds reaches⟩
  · refine pairwise_append.mpr ⟨window.ascending, h.ascending, ?_⟩
    intro a old b new
    have high := (window.inside a old).2
    have low := (h.listed b new).1
    omega
  · intro row mem
    rcases mem_append.mp mem with old | new
    · obtain ⟨low, high⟩ := window.inside row old
      omega
    · obtain ⟨low, i, place, less, -⟩ := h.listed row new
      omega

theorem Filled.shown
    (before : ∀ row ∈ rows, row.2.sec ∉ hidden) : ∀ row ∈ rows ++ added, row.2.sec ∉ hidden := by
  intro row mem
  rcases mem_append.mp mem with old | new
  · exact before row old
  · obtain ⟨-, i, -, -, item, -, showable⟩ := h.listed row new
    exact showable.2

end

end

section
variable {sid : ServerId} {ask : Ask} {fetch : Fetch} {p : Progress} {page : MediaContainer}

/-- Whether another page remains, as a forward read judges it. -/
def moreForward (page : MediaContainer) (start count end_ : Nat) : Bool :=
  let got := min page.metadata.length count
  decide (0 < got) && (if 0 < page.totalSize.toNat then decide (end_ < page.totalSize.toNat)
    else decide (end_ < start + got) || decide (got = count))

/-- The window after `read` items of a forward page. -/
def afterForward (p : Progress) (page : MediaContainer) (start count : Nat) (added : List Row) (read : Nat) :
    Progress :=
  { p with
    rows := p.rows ++ added
    end_ := start + read
    total := page.totalSize.toNat
    more := moreForward page start count (start + read)
    cursor := start + read }

variable {keepFrom : Nat}

theorem takePage_forward (sid : ServerId) (p : Progress) (forward : ask.before = false) (page : MediaContainer)
    (start size count : Nat) (corrected : Option Nat)
    (from_ : keepFrom = match corrected with | some edge => edge + 1 | none => start)
    (few : p.rows.length < maxShelfItems) (fits : start + count < Usize.size) (above : keepFrom < Usize.size) :
    ∃ added read,
      Filled sid ask.hidden keepFrom start (page.metadata.take (min page.metadata.length count)) p.rows added read ∧
      (0 < min page.metadata.length count → 0 < read) ∧
      takePage sid ask p page start size count corrected =
        .ok (if moreForward page start count (start + read) then .again (afterForward p page start count added read)
          else .done (afterForward p page start count added read)) := by
  obtain ⟨added, read, filled, result⟩ := fillForward_filled sid ask.hidden keepFrom start
    (page.metadata.take (min page.metadata.length count)) p.rows p.end_
  have length : (page.metadata.take (min page.metadata.length count)).length = min page.metadata.length count := by
    rw [length_take]
    omega
  have some_read : 0 < min page.metadata.length count → 0 < read := by
    by_contra none_read
    obtain ⟨row, rest, its⟩ : ∃ row rest, added = row :: rest := by
      have full := filled.full (by omega)
      cases added with
      | nil =>
        rw [append_nil] at full
        omega
      | cons row rest => exact ⟨row, rest, rfl⟩
    obtain ⟨-, i, -, less, -⟩ := filled.listed row (by rw [its]; exact mem_cons_self ..)
    omega
  refine ⟨added, read, filled, some_read, ?_⟩
  have nothing : min page.metadata.length count = 0 → read = 0 := by
    have fits := filled.fits
    omega
  have end_ : (if min page.metadata.length count = 0 then start
      else if read = 0 then p.end_ else start + read) = start + read := by
    split
    · rename_i empty
      rw [nothing empty]
      rfl
    · rename_i some_got
      rw [if_neg (Nat.ne_of_gt (some_read (Nat.pos_of_ne_zero some_got)))]
  have raw : orFault (add? start (min page.metadata.length count)) =
      .ok (start + min page.metadata.length count) := by
    rw [Usize.add?_eq (by omega)]
    rfl
  have keep : keepForward start corrected = .ok keepFrom := by
    cases corrected with
    | none =>
      rw [from_]
      rfl
    | some edge =>
      dsimp only at from_
      rw [keepForward, Usize.add?_eq (by omega), from_]
      rfl
  simp only [takePage, forward, raw, keep, bind, Except.bind, result, end_]
  rfl

variable {corrected : Option Nat}

theorem takePage_backward (sid : ServerId) (p : Progress) (backward : ask.before = true) (page : MediaContainer) {start size count : Nat}
    {keepTo : Nat} (keep : keepBackward start size corrected = .ok (keepFrom, keepTo))
    (fits : start + count < Usize.size) :
    ∃ total more, takePage sid ask p page start size count corrected = .ok (.again
      { p with
        rows := fillBackward sid ask.hidden p.rows keepFrom keepTo start
          (page.metadata.take (min page.metadata.length count)) [] ++ p.rows
        cursor := keepFrom, offset := keepFrom, total, more }) := by
  have raw : orFault (add? start (min page.metadata.length count)) =
      .ok (start + min page.metadata.length count) := by
    rw [Usize.add?_eq (by omega)]
    rfl
  refine ⟨page.totalSize.toNat,
    if 0 < page.totalSize.toNat then decide (p.end_ < page.totalSize.toNat) else p.more, ?_⟩
  simp only [takePage, backward, raw, keep]
  rfl

theorem readPage_cases (fetch : Fetch) (call start size : Nat) :
    readPage fetch call start size = .error .failed ∨
    ∃ page, fetch call start size = some page ∧ page.offset = toSigned start ∧
      readPage fetch call start size = .ok page := by
  unfold readPage
  cases fetch call start size with
  | none => exact .inl rfl
  | some page =>
    dsimp only
    split
    · rename_i echoed
      exact .inr ⟨page, rfl, echoed, rfl⟩
    · exact .inl rfl

variable {index : Nat}

theorem findKey_lt {key : String} (found : findKey page key = some index) : index < page.metadata.length := by
  rw [findKey, List.findIdx?_eq_some_iff_getElem] at found
  exact found.1

/-- What a relocation can say: where the page has the edge, where the far page has it, or
neither. -/
def Relocated (page : MediaContainer) (edge : Edge) (start : Nat) : Reading Relocation → Prop
  | .ok (.inPage by_) => ∃ index, findKey page edge.key = some index ∧ by_ = (start + index : Nat) - (edge.position : Int)
  | .ok (.beyond by_) => ∃ place : Nat, place < half ∧ by_ = place - (edge.position : Int)
  | .ok .lost => True
  | .error .fault => False
  | .error _ => True

variable {edge : Edge}

theorem relocate_relocated (small : SmallPages fetch) (call : Nat) (before : Bool) {start : Nat}
    (short : page.metadata.length < limit) (low : start < limit) (held : edge.position < limit) :
    Relocated page edge start (relocate fetch call edge before page start) := by
  have twice : limit + limit = half := rfl
  have twice' : half + half = Usize.size := rfl
  have signed : ∀ place, place < half →
      orFault (diff? place edge.position) = .ok (place - (edge.position : Int)) := by
    intro place less
    rw [Usize.diff?_eq less (by omega)]
    rfl
  unfold relocate
  cases found : findKey page edge.key with
  | some index =>
    have short' := findKey_lt found
    have now : orFault (add? start index) = .ok (start + index) := by
      rw [Usize.add?_eq (by omega)]
      rfl
    simp only [now, signed (start + index) (by omega), bind, Except.bind]
    exact ⟨index, found, rfl⟩
  | none =>
    dsimp only
    generalize far_at : (if before = true then edge.position + 1 else edge.position - maxShelfItems) = far
    have near : far ≤ edge.position + 1 := by
      rw [← far_at]
      split <;> omega
    generalize (if before = true then maxShelfItems else edge.position - far) = count
    split
    · exact True.intro
    · rcases readPage_cases fetch call far count with failed | ⟨page', its, -, ok⟩
      · simp only [failed]
        trivial
      · simp only [ok, bind, Except.bind]
        cases found' : findKey page' edge.key with
        | none => trivial
        | some index =>
          have short' := findKey_lt found'
          have few := small _ _ _ _ its
          have now : orFault (add? far index) = .ok (far + index) := by
            rw [Usize.add?_eq (by omega)]
            rfl
          simp only [now, signed (far + index) (by omega)]
          exact ⟨far + index, by omega, rfl⟩

/-- The edge rides in the next read, which starts beside it. -/
structure Carries (ask : Ask) (p : Progress) (edge : Edge) : Prop where
  first : p.requests = 0
  few : p.rows.length ≤ hubFetchCount
  held : edge.position < limit
  small : p.end_ ≤ limit
  place : p.cursor = edge.position
  beside : if ask.before then p.offset = edge.position else p.end_ = edge.position + 1

/-- A read in the making: the window stands, and the next page is read from its end in the
ask's direction. -/
structure Going (ask : Ask) (p : Progress) : Prop where
  window : Window p.rows p.offset p.end_
  shown : ∀ row ∈ p.rows, row.2.sec ∉ ask.hidden
  bound : p.end_ ≤ cap p.requests
  place : p.carried = none → p.cursor = if ask.before then p.offset else p.end_
  carries : ∀ edge, p.carried = some edge → Carries ask p edge

/-- The first page does not have the carried edge past the rows it was asked for. -/
def Within (ask : Ask) (fetch : Fetch) (p : Progress) : Prop :=
  ask.before = false → ∀ edge, p.carried = some edge → ∀ page index,
    fetch p.calls edge.position (maxShelfItems + 1) = some page →
    page.offset = toSigned edge.position → findKey page edge.key = some index → index < maxShelfItems + 1

def Kept (ask : Ask) (p : Progress) : Reading Turn → Prop
  | .ok (.again q) => Going ask q ∧ q.carried = none ∧ q.requests = p.requests + 1 ∧
      (p.carried = none → ask.before = false → p.cursor < q.cursor)
  | .ok (.done q) => Window q.rows q.offset q.end_ ∧ ∀ row ∈ q.rows, row.2.sec ∉ ask.hidden
  | .error .fault => False
  | .error _ => True

theorem cap_lt (requests : Nat) : cap requests + 25 < Usize.size := by
  have few : min requests requestsPerAsk ≤ 8 := Nat.min_le_right _ _
  unfold cap half limit Usize.size
  omega

variable {minimumEnd : Nat}

theorem cap_step {requests end_ end_' : Nat} (before : end_ ≤ cap requests)
    (goes : requests < requestsPerAsk ∨ end_ < minimumEnd) (small : minimumEnd < limit)
    (step : end_' ≤ end_ + 25) : end_' ≤ cap (requests + 1) := by
  unfold cap requestsPerAsk at *
  rcases goes with less | low
  · omega
  · omega

variable {q : Progress}

theorem Kept.forward (start minimumEnd : Nat) {size count : Nat}
    (forward : ask.before = false) (page : MediaContainer)
    (from_ : keepFrom = match corrected with | some edge => edge + 1 | none => start)
    (window : Window q.rows q.offset keepFrom) (shown : ∀ row ∈ q.rows, row.2.sec ∉ ask.hidden)
    (few : q.rows.length < maxShelfItems) (counts : count ≤ 25) (low : start ≤ cap p.requests)
    (goes : p.requests < requestsPerAsk ∨ start < minimumEnd) (small : minimumEnd < limit)
    (above : keepFrom ≤ start + min page.metadata.length count ∨ corrected = none)
    (loose : q.carried = none) (next : q.requests = p.requests + 1)
    (place : p.carried = none → p.cursor = start) :
    Kept ask p (takePage sid ask q page start size count corrected) := by
  have top := cap_lt p.requests
  have keepFrom_le : keepFrom ≤ start + 25 := by
    rcases above with within | none_carried
    · omega
    · rw [none_carried] at from_
      dsimp only at from_
      omega
  obtain ⟨added, read, filled, some_read, result⟩ :=
    takePage_forward sid q forward page start size count corrected from_ few (by omega) (by omega)
  have length : (page.metadata.take (min page.metadata.length count)).length = min page.metadata.length count := by
    rw [length_take]
    omega
  have fits := filled.fits
  have reaches : keepFrom ≤ start + read := by
    by_cases cut : read < (page.metadata.take (min page.metadata.length count)).length
    · exact Nat.le_of_lt (filled.reaches few cut)
    · rcases above with within | none_carried
      · omega
      · rw [none_carried] at from_
        dsimp only at from_
        omega
  have whole := filled.window window few reaches
  have visible := filled.shown shown
  rw [result]
  split
  · rename_i more
    have got : 0 < min page.metadata.length count := by
      simp only [moreForward, and_eq_true, decide_eq_true_eq] at more
      exact more.1
    refine ⟨⟨whole, visible, ?_, ?_, ?_⟩, loose, next, ?_⟩
    · change start + read ≤ cap q.requests
      rw [next]
      exact cap_step low goes small (by omega)
    · intro _
      rw [forward]
      rfl
    · intro edge carried
      change q.carried = some edge at carried
      rw [loose] at carried
      cases carried
    · intro none_carried _
      rw [place none_carried]
      change start < start + read
      omega
  · exact ⟨whole, visible⟩

theorem Kept.backward {size count start keepTo : Nat} (backward : ask.before = true) (page : MediaContainer)
    (keep : keepBackward start size corrected = .ok (keepFrom, keepTo)) (fits : start + count < Usize.size)
    (window : Window q.rows q.offset q.end_) (shown : ∀ row ∈ q.rows, row.2.sec ∉ ask.hidden)
    (below : keepTo ≤ q.offset) (from_ : keepFrom ≤ keepTo) (room : keepTo - keepFrom + q.rows.length ≤ maxShelfItems)
    (bound : q.end_ ≤ cap q.requests) (loose : q.carried = none) (next : q.requests = p.requests + 1) :
    Kept ask p (takePage sid ask q page start size count corrected) := by
  obtain ⟨total, more, result⟩ := takePage_backward sid q backward page keep fits
  have gathered : Gathered ask.hidden q.rows keepFrom keepTo _
      (fillBackward sid ask.hidden q.rows keepFrom keepTo start
        (page.metadata.take (min page.metadata.length count)) []) :=
    fillBackward_gathered _ .nil
  rw [result]
  refine ⟨⟨gathered.window window below from_ room, ?_, bound, ?_, ?_⟩, loose, next, ?_⟩
  · intro row mem
    rcases mem_append.mp mem with new | old
    · exact gathered.shown row new
    · exact shown row old
  · intro _
    rw [backward]
    rfl
  · intro edge carried
    rw [loose] at carried
    cases carried
  · intro _ forward
    rw [backward] at forward
    cases forward

theorem Going.loose_kept (sid : ServerId) (going : Going ask p) (loose : p.carried = none)
    (room : p.rows.length < maxShelfItems) (minimum : minimumEnd < limit)
    (goes : p.requests < requestsPerAsk ∨ ask.before = false ∧ p.cursor < minimumEnd) :
    Kept ask p (readLoose sid ask fetch { p with requests := p.requests + 1 }) := by
  have place := going.place loose
  have bounds := going.window.bounds
  have bound := going.bound
  have top := cap_lt p.requests
  unfold readLoose
  rcases readPage_cases fetch p.calls (pageStart ask { p with requests := p.requests + 1 })
    (pageSize ask { p with requests := p.requests + 1 }) with failed | ⟨page, -, -, ok⟩
  · simp only [failed]
    exact True.intro
  · simp only [ok]
    cases direction : ask.before with
    | false =>
      rw [direction] at place
      have start : p.cursor = p.end_ := place
      have window := going.window
      rw [← start] at window bound
      refine Kept.forward (pageStart ask { p with requests := p.requests + 1 }) minimumEnd direction page rfl ?_
        going.shown room ?_ ?_ ?_ minimum (.inr rfl) loose rfl ?_
      all_goals simp only [pageStart, pageSize, direction, false_eq_true, if_false]
      · exact window
      · decide
      · exact bound
      · rcases goes with less | ⟨-, low⟩
        · exact .inl less
        · exact .inr low
      · exact fun _ => trivial
    | true =>
      rw [direction] at place
      have start : p.cursor = p.offset := place
      have few : p.requests < requestsPerAsk := by
        rcases goes with less | ⟨forward, -⟩
        · exact less
        · rw [direction] at forward
          cases forward
      have size : pageSize ask { p with requests := p.requests + 1 } =
          min p.cursor (maxShelfItems - p.rows.length) := by
        simp only [pageSize, direction, if_true]
      have from_ : pageStart ask { p with requests := p.requests + 1 } =
          p.cursor - min p.cursor (maxShelfItems - p.rows.length) := by
        simp only [pageStart, direction, if_true, size]
      have sum : p.cursor - min p.cursor (maxShelfItems - p.rows.length) +
          min p.cursor (maxShelfItems - p.rows.length) = p.cursor :=
        Nat.sub_add_cancel (Nat.min_le_left _ _)
      have keep : keepBackward (p.cursor - min p.cursor (maxShelfItems - p.rows.length))
          (min p.cursor (maxShelfItems - p.rows.length)) none =
          .ok (p.cursor - min p.cursor (maxShelfItems - p.rows.length), p.cursor) := by
        have fits : add? (p.cursor - min p.cursor (maxShelfItems - p.rows.length))
            (min p.cursor (maxShelfItems - p.rows.length)) = some p.cursor := by
          rw [Usize.add?_eq (by omega), sum]
        simp only [keepBackward, fits]
        rfl
      rw [from_, size]
      refine Kept.backward direction page keep (by omega) going.window going.shown ?_ (Nat.sub_le _ _) ?_ ?_
        loose rfl
      · exact Nat.le_of_eq start
      · change p.cursor - (p.cursor - min p.cursor (maxShelfItems - p.rows.length)) + p.rows.length ≤ maxShelfItems
        omega
      · exact cap_step going.bound (.inl few) minimum (Nat.le_add_right _ _)

variable {by_ : Int}
variable {place : Nat}

theorem Going.shifted (going : Going ask p) (carries : Carries ask p edge)
    (shifted : shift { p with requests := p.requests + 1, carried := none, calls := p.calls + 2 } by_ = some q)
    (move : by_ = place - (edge.position : Int)) (low : place < half) :
    Window q.rows q.offset q.end_ ∧ (∀ row ∈ q.rows, row.2.sec ∉ ask.hidden) ∧ q.end_ ≤ cap q.requests ∧
      q.rows.length = p.rows.length ∧ q.carried = none ∧ q.requests = p.requests + 1 ∧
      if ask.before then q.offset = place else q.end_ = place + 1 := by
  obtain ⟨eq, offset, end_, -⟩ := shift_eq_some shifted
  have rows : q.rows = p.rows.map (moved by_) := congrArg Progress.rows eq
  have requests : q.requests = p.requests + 1 := congrArg Progress.requests eq
  have loose : q.carried = none := congrArg Progress.carried eq
  have beside := carries.beside
  have small := carries.small
  change (q.offset : Int) = p.offset + by_ at offset
  change (q.end_ : Int) = p.end_ + by_ at end_
  refine ⟨?_, ?_, ?_, ?_, loose, requests, ?_⟩
  · rw [rows]
    exact going.window.moved offset end_
  · rw [rows]
    intro row mem
    obtain ⟨was, there, rfl⟩ := mem_map.mp mem
    exact going.shown was there
  · unfold cap
    omega
  · rw [rows, length_map]
  · cases direction : ask.before with
    | true =>
      simp only [direction, if_true] at beside ⊢
      omega
    | false =>
      simp only [direction, false_eq_true, if_false] at beside ⊢
      omega

theorem corrected_eq (move : by_ = place - (edge.position : Int))
    (low : place < half) : orUnchanged (addSigned? edge.position by_) = .ok place := by
  have its_place : edge.position + by_ = place := by omega
  have fits : (place : Int) < Usize.size := by
    unfold half at low
    unfold Usize.size
    omega
  rw [Usize.addSigned?_eq (by omega) (by omega), its_place]
  rfl

theorem Going.beyond_kept (sid : ServerId) (going : Going ask p)
    (carried : p.carried = some edge) (page : MediaContainer) (move : by_ = place - (edge.position : Int))
    (low : place < half) :
    Kept ask p (follow sid ask { p with requests := p.requests + 1, carried := none, calls := p.calls + 2 }
      edge page (.beyond by_)) := by
  have carries := going.carries edge carried
  simp only [follow, corrected_eq move low, bind, Except.bind]
  cases shifts : shift { p with requests := p.requests + 1, carried := none, calls := p.calls + 2 } by_ with
  | none => exact True.intro
  | some q =>
    obtain ⟨window, shown, bound, -, loose, next, beside⟩ := going.shifted carries shifts move low
    have was_carried : ∀ e, q.carried = some e → False := by
      intro e its
      rw [loose] at its
      cases its
    have not_loose : p.carried ≠ none := by
      rw [carried]
      exact Option.some_ne_none edge
    cases direction : ask.before with
    | true =>
      simp only [direction] at beside
      refine ⟨⟨window, shown, bound, ?_, fun e its => (was_carried e its).elim⟩, loose, next,
        fun none_carried => absurd none_carried not_loose⟩
      intro _
      rw [direction]
      exact beside.symm
    | false =>
      simp only [direction] at beside
      have fits : place + 1 < Usize.size := by
        unfold half at low
        unfold Usize.size
        omega
      simp only [orUnchanged, Usize.add?_eq fits]
      refine ⟨⟨window, shown, bound, ?_, fun e its => (was_carried e its).elim⟩, loose, next,
        fun none_carried => absurd none_carried not_loose⟩
      intro _
      rw [direction]
      exact beside.symm

theorem Going.inPage_kept (sid : ServerId) (going : Going ask p)
    (carried : p.carried = some edge) (page : MediaContainer) (short : page.metadata.length < limit)
    (found : findKey page edge.key = some index)
    (move : by_ = (pageStart ask { p with requests := p.requests + 1 } + index : Nat) - (edge.position : Int))
    (within : ask.before = false → index < maxShelfItems + 1) :
    Kept ask p (follow sid ask { p with requests := p.requests + 1, carried := none, calls := p.calls + 2 }
      edge page (.inPage by_)) := by
  have carries := going.carries edge carried
  have place := carries.place
  have held := carries.held
  have few := carries.few
  have first := carries.first
  have listed := findKey_lt found
  have double : limit + limit = half := rfl
  have low_start : pageStart ask { p with requests := p.requests + 1 } ≤ edge.position := by
    unfold pageStart
    split
    · change p.cursor - _ ≤ _
      omega
    · exact Nat.le_of_eq place
  have low : pageStart ask { p with requests := p.requests + 1 } + index < half := by omega
  have same_start : ∀ carried calls, pageStart ask { p with requests := p.requests + 1, carried, calls } =
      pageStart ask { p with requests := p.requests + 1 } := fun _ _ => rfl
  have top := cap_lt p.requests
  simp only [follow, corrected_eq move low, bind, Except.bind]
  cases shifts : shift { p with requests := p.requests + 1, carried := none, calls := p.calls + 2 } by_ with
  | none => exact True.intro
  | some q =>
    obtain ⟨window, shown, bound, length, loose, next, beside⟩ := going.shifted carries shifts move low
    have not_loose : p.carried ≠ none := by
      rw [carried]
      exact Option.some_ne_none edge
    have cap_held : edge.position ≤ cap p.requests := by
      unfold cap
      omega
    cases direction : ask.before with
    | false =>
      have start : pageStart ask { p with requests := p.requests + 1 } = edge.position := by
        simp only [pageStart, direction, false_eq_true, if_false]
        exact place
      have inside := within direction
      simp only [direction, false_eq_true, if_false, start] at beside
      rw [beside] at window
      rw [same_start, start]
      have count : pageSize ask { p with requests := p.requests + 1, carried := none, calls := p.calls + 2 } + 1 =
          maxShelfItems + 1 := by
        simp only [pageSize, direction, false_eq_true, if_false]
      rw [count]
      refine Kept.forward edge.position 0 direction page rfl window shown ?_ (by decide) cap_held
        (.inl ?_) (by decide) (.inl ?_) loose next (fun none_carried => absurd none_carried not_loose)
      · unfold hubFetchCount at few
        unfold maxShelfItems
        omega
      · rw [first]
        decide
      · change edge.position + index + 1 ≤ edge.position + min page.metadata.length (maxShelfItems + 1)
        omega
    | true =>
      simp only [direction, if_true] at beside
      have size_le : pageSize ask { p with requests := p.requests + 1 } ≤ maxShelfItems - p.rows.length := by
        simp only [pageSize, direction, if_true]
        exact Nat.min_le_right _ _
      have size_cursor : pageSize ask { p with requests := p.requests + 1 } ≤ p.cursor := by
        simp only [pageSize, direction, if_true]
        exact Nat.min_le_left _ _
      have start : pageStart ask { p with requests := p.requests + 1 } =
          p.cursor - pageSize ask { p with requests := p.requests + 1 } := by
        simp only [pageStart, direction, if_true]
      have same_size : ∀ carried calls, pageSize ask { p with requests := p.requests + 1, carried, calls } =
          pageSize ask { p with requests := p.requests + 1 } := fun _ _ => rfl
      rw [same_start, same_size]
      generalize pageSize ask { p with requests := p.requests + 1 } = size at *
      generalize pageStart ask { p with requests := p.requests + 1 } = from_ at *
      have room : p.rows.length ≤ maxShelfItems := going.window.room
      refine Kept.backward direction page rfl (by omega) window shown ?_ ?_ ?_ bound loose next
      · exact Nat.le_of_eq beside.symm
      · omega
      · rw [length]
        omega

theorem Going.carried_kept (sid : ServerId) (small : SmallPages fetch) (going : Going ask p)
    (carried : p.carried = some edge) (within : Within ask fetch p) :
    Kept ask p (readCarried sid ask fetch { p with requests := p.requests + 1 } edge) := by
  have carries := going.carries edge carried
  have held := carries.held
  have low : pageStart ask { p with requests := p.requests + 1 } < limit := by
    have place := carries.place
    unfold pageStart
    split
    · change p.cursor - _ < _
      omega
    · change p.cursor < _
      omega
  unfold readCarried
  rcases readPage_cases fetch p.calls (pageStart ask { p with requests := p.requests + 1 })
    (pageSize ask { p with requests := p.requests + 1 } + 1) with failed | ⟨page, its, echoed, ok⟩
  · simp only [failed, bind, Except.bind]
    exact True.intro
  · have short := small _ _ _ _ its
    have found := relocate_relocated small (p.calls + 1) ask.before short low held
    simp only [ok, bind, Except.bind]
    generalize relocate fetch (p.calls + 1) edge ask.before page
      (pageStart ask { p with requests := p.requests + 1 }) = relocation at found ⊢
    match relocation, found with
    | .error .failed, _ => exact True.intro
    | .error .unchanged, _ => exact True.intro
    | .ok .lost, _ => exact True.intro
    | .ok (.beyond by_), ⟨place, high, move⟩ => exact going.beyond_kept sid carried page move high
    | .ok (.inPage by_), ⟨index, in_page, move⟩ =>
      refine going.inPage_kept sid carried page short in_page move ?_
      intro forward
      have start : pageStart ask { p with requests := p.requests + 1 } = edge.position := by
        simp only [pageStart, forward, false_eq_true, if_false]
        exact carries.place
      have size : pageSize ask { p with requests := p.requests + 1 } = maxShelfItems := by
        simp only [pageSize, forward, false_eq_true, if_false]
      rw [start] at its echoed
      rw [size] at its
      exact within forward edge carried page index its echoed in_page

theorem turn_kept (sid : ServerId) (small : SmallPages fetch) (going : Going ask p)
    (within : Within ask fetch p) (minimum : minimumEnd < limit)
    (goes : p.requests < requestsPerAsk ∨ ask.before = false ∧ p.cursor < minimumEnd) :
    Kept ask p (turn sid ask fetch p) := by
  unfold turn
  dsimp only
  split
  · exact ⟨going.window, going.shown⟩
  · rename_i ready
    have room : p.rows.length < maxShelfItems := Nat.not_le.mp (fun full => ready (.inl full))
    split
    · rename_i loose
      exact going.loose_kept sid loose room minimum goes
    · rename_i edge carried
      exact going.carried_kept sid small carried within

def need (minimumEnd : Nat) (p : Progress) : Nat :=
  if p.requests < requestsPerAsk then requestsPerAsk - p.requests + minimumEnd else minimumEnd - p.cursor

def Finished (ask : Ask) : Reading Progress → Prop
  | .ok q => Window q.rows q.offset q.end_ ∧ ∀ row ∈ q.rows, row.2.sec ∉ ask.hidden
  | .error .fault => False
  | .error _ => True

theorem reads_finished (sid : ServerId) {fuel : Nat} (small : SmallPages fetch) (going : Going ask p)
    (within : Within ask fetch p) (minimum : minimumEnd < limit) (enough : need minimumEnd p < fuel) :
    Finished ask (reads sid ask minimumEnd fetch fuel p) := by
  induction fuel generalizing p with
  | zero => cases enough
  | succ fuel ih =>
    unfold reads
    split
    · rename_i goes
      have kept := turn_kept sid small going within minimum goes
      generalize turn sid ask fetch p = result at kept ⊢
      match result, kept with
      | .error .failed, _ => exact True.intro
      | .error .unchanged, _ => exact True.intro
      | .ok (.done q), done => exact done
      | .ok (.again q), ⟨later, loose, next, further⟩ =>
        refine ih later ?_ ?_
        · intro _ edge carried
          rw [loose] at carried
          cases carried
        · -- past the requests of one ask, every turn brings the cursor on
          unfold need at enough ⊢
          rw [next]
          unfold requestsPerAsk at *
          by_cases few : p.requests < 8
          · rw [if_pos few] at enough
            split <;> omega
          · rw [if_neg few] at enough
            rw [if_neg (by omega)]
            obtain ⟨forward, low⟩ := goes.resolve_left few
            have loose_before : p.carried = none := by
              cases carried : p.carried with
              | none => rfl
              | some edge =>
                have first := (going.carries edge carried).first
                omega
            have on := further loose_before forward
            omega
    · exact ⟨going.window, going.shown⟩

end

section
variable {rows kept : List Row} {offset end_ : Nat}

theorem Window.sublist (window : Window rows offset end_) (sub : kept.Sublist rows) : Window kept offset end_ :=
  ⟨window.ascending.sublist sub, fun row mem => window.inside row (sub.subset mem),
    window.distinct.sublist sub, Nat.le_trans sub.length_le window.room, window.bounds⟩

theorem Window.from_first {row : Row} {rest : List Row} (window : Window (row :: rest) offset end_) :
    Window (row :: rest) row.1 end_ := by
  obtain ⟨above, -⟩ := pairwise_cons.mp window.ascending
  have first := (window.inside row (mem_cons_self ..)).2
  refine ⟨window.ascending, ?_, window.distinct, window.room, Nat.le_of_lt first⟩
  intro other mem
  refine ⟨?_, (window.inside other mem).2⟩
  rcases mem_cons.mp mem with rfl | later
  · exact Nat.le_refl _
  · exact Nat.le_of_lt (above other later)

theorem Window.to_last {row : Row} {front : List Row} (window : Window (front ++ [row]) offset end_) :
    Window (front ++ [row]) offset (row.1 + 1) := by
  obtain ⟨-, -, below⟩ := pairwise_append.mp window.ascending
  have last := (window.inside row (mem_append_right _ (mem_singleton_self _))).1
  refine ⟨window.ascending, ?_, window.distinct, window.room, Nat.le_succ_of_le last⟩
  intro other mem
  refine ⟨(window.inside other mem).1, ?_⟩
  rcases mem_append.mp mem with earlier | this
  · exact Nat.lt_succ_of_lt (below other earlier row (mem_singleton_self _))
  · rw [mem_singleton.mp this]
    exact Nat.lt_succ_self _

variable {ask : Ask} {current : Option (List Row × PageInfo)} {minimumEnd : Nat}

structure Ready (ask : Ask) (p : Progress) : Prop where
  window : Window p.rows p.offset p.end_
  shown : ∀ row ∈ p.rows, row.2.sec ∉ ask.hidden
  few : p.rows.length ≤ hubFetchCount
  small : p.end_ < limit
  place : p.cursor = ask.start
  start : ask.start = if ask.before then p.offset else p.end_
  loose : p.carried = none
  requests : p.requests = 0
  calls : p.calls = 0

theorem retained_sublist_visible : (retained ask current).Sublist (visible ask current) := by
  unfold retained
  dsimp only
  split
  · exact take_sublist _ _
  · exact drop_sublist _ _

theorem retained_length : (retained ask current).length ≤ hubFetchCount := by
  unfold retained
  dsimp only
  split
  · rw [length_take]
    exact Nat.min_le_left _ _
  · rw [length_drop]
    omega

theorem retained_ne_nil (some_left : retainedAll ask current = false) : retained ask current ≠ [] := by
  have many : hubFetchCount < (visible ask current).length := by
    simpa [retainedAll] using some_left
  intro empty
  have length := congrArg List.length empty
  unfold retained at length
  dsimp only at length
  split at length
  · rw [length_take, length_nil] at length
    unfold hubFetchCount at *
    omega
  · rw [length_drop, length_nil] at length
    unfold hubFetchCount at *
    omega

theorem retained_window {info : PageInfo} (window : Window rows info.offset info.end_) :
    Window (retained ask (some (rows, info))) info.offset info.end_ :=
  window.sublist (retained_sublist_visible.trans filter_sublist)

theorem retained_shown : ∀ row ∈ retained ask current, row.2.sec ∉ ask.hidden := by
  intro row mem
  have seen := retained_sublist_visible.subset mem
  cases current with
  | none => cases seen
  | some held =>
    have shown := (mem_filter.mp seen).2
    simpa using shown

theorem beginRead_ready (begins : Begins ask current minimumEnd) : Ready ask (beginRead ask current).1 := by
  have small := begins.start
  cases current with
  | none =>
    have nothing : retained ask none = [] := by
      unfold retained visible
      dsimp only
      split <;> rfl
    have empty : Window (retained ask none) ask.start ask.start := by
      rw [nothing]
      exact ⟨.nil, fun _ mem => absurd mem not_mem_nil, .nil, Nat.zero_le _, Nat.le_refl _⟩
    have offset : (beginRead ask none).1.offset = ask.start := by
      simp [beginRead, nothing]
    have end_ : (beginRead ask none).1.end_ = ask.start := by
      simp [beginRead, nothing]
    refine ⟨?_, retained_shown, retained_length, ?_, rfl, ?_, rfl, rfl, rfl⟩
    · rw [offset, end_]
      exact empty
    · rw [end_]
      exact small
    · rw [offset, end_]
      split <;> rfl
  | some held =>
    obtain ⟨rows, info⟩ := held
    obtain ⟨window, top, start⟩ := begins.held rows info rfl
    have kept : Window (retained ask (some (rows, info))) info.offset info.end_ := retained_window window
    cases direction : ask.before with
    | true =>
      rw [direction, if_pos rfl] at start
      have offset : (beginRead ask (some (rows, info))).1.offset = ask.start := by
        simp [beginRead, direction]
      have bounded : Window (retained ask (some (rows, info))) ask.start
          (beginRead ask (some (rows, info))).1.end_ ∧ (beginRead ask (some (rows, info))).1.end_ < limit := by
        rw [start]
        cases all : retainedAll ask (some (rows, info)) with
        | true =>
          have end_ : (beginRead ask (some (rows, info))).1.end_ = info.end_ := by
            simp [beginRead, direction, all]
          rw [end_]
          exact ⟨kept, top⟩
        | false =>
          obtain ⟨front, row, its⟩ := eq_nil_or_concat (retained ask (some (rows, info)))
            |>.resolve_left (retained_ne_nil all)
          rw [concat_eq_append] at its
          have end_ : (beginRead ask (some (rows, info))).1.end_ = row.1 + 1 := by
            simp [beginRead, direction, all, its]
          have last : row ∈ retained ask (some (rows, info)) := by
            rw [its]
            exact mem_append_right _ (mem_singleton_self _)
          rw [end_]
          refine ⟨?_, Nat.lt_of_le_of_lt (kept.inside row last).2 top⟩
          rw [its] at kept ⊢
          exact kept.to_last
      refine ⟨?_, retained_shown, retained_length, bounded.2, rfl, ?_, rfl, rfl, rfl⟩
      · rw [offset]
        exact bounded.1
      · rw [direction, offset]
        rfl
    | false =>
      rw [direction] at start
      have end_ : (beginRead ask (some (rows, info))).1.end_ = info.end_ := by
        simpa [beginRead, direction] using start
      refine ⟨?_, retained_shown, retained_length, ?_, rfl, ?_, rfl, rfl, rfl⟩
      · rw [end_]
        cases all : retainedAll ask (some (rows, info)) with
        | true =>
          have offset : (beginRead ask (some (rows, info))).1.offset = info.offset := by
            simp [beginRead, direction, all]
          rw [offset]
          exact kept
        | false =>
          cases its : retained ask (some (rows, info)) with
          | nil => exact absurd its (retained_ne_nil all)
          | cons row rest =>
            have offset : (beginRead ask (some (rows, info))).1.offset = row.1 := by
              simp [beginRead, direction, all, its]
            have eq : (beginRead ask (some (rows, info))).1.rows = row :: rest := its
            rw [offset, eq]
            rw [its] at kept
            exact kept.from_first
      · rw [end_]
        exact top
      · rw [direction, end_]
        exact start

end
end PlxNative.Paging
