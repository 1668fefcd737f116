import PlxNative.Paging.WindowServer

/-! Walking a listing that holds still, forward from its start: every card is reached once,
at its own position. -/
namespace PlxNative.Paging
open List Bool Usize
open ViewState (ServerId)

/-- A server that answers from one list, and sends its length as the total or no total. -/
def listing (items : List Metadata) (sent : Bool) : Fetch := fun _ start size =>
  some ⟨start, if sent then items.length else 0, (items.drop start).take size⟩

section
variable {sid : ServerId} {hidden : List Int} {items : List Metadata} {sent : Bool}

/-- The row is the listed item at its own position, shown. -/
def Genuine (sid : ServerId) (hidden : List Int) (items : List Metadata) (row : Row) : Prop :=
  ∃ item, items[row.1]? = some item ∧ Showable sid hidden item row.2

/-- Every shown item read since `from_` is in the rows, or repeats the key of one before
it that is. -/
def Covers (sid : ServerId) (hidden : List Int) (items : List Metadata) (from_ end_ : Nat) (rows : List Row) : Prop :=
  ∀ position item card, from_ ≤ position → position < end_ → items[position]? = some item →
    Showable sid hidden item card →
    (position, card) ∈ rows ∨ ∃ row ∈ rows, row.2.rk = card.rk ∧ row.1 < position

structure Tells (items : List Metadata) (sent : Bool) (end_ : Nat) (more : Bool) : Prop where
  goes_on : end_ < items.length → more = true
  stops : sent = true → end_ = items.length → more = false

/-- Rows of a listing that holds still, read up to `end_`; the read began with the rows
`held` and the end `from_`. -/
structure Steady (sid : ServerId) (hidden : List Int) (items : List Metadata) (held : List Row) (from_ : Nat)
    (rows : List Row) (offset end_ : Nat) : Prop where
  window : Window rows offset end_
  genuine : ∀ row ∈ rows, Genuine sid hidden items row
  kept : ∀ row ∈ rows, row ∈ held ∨ from_ ≤ row.1
  covers : Covers sid hidden items from_ end_ rows
  low : from_ ≤ end_
  high : end_ ≤ items.length

structure Walking (sid : ServerId) (hidden : List Int) (items : List Metadata) (sent : Bool) (held : List Row)
    (from_ : Nat) (p : Progress) : Prop where
  steady : Steady sid hidden items held from_ p.rows p.offset p.end_
  unread : p.requests = 0 → p.rows.length < maxShelfItems
  tells : 0 < p.requests → Tells items sent p.end_ p.more
  reads_on : 0 < p.requests → from_ < items.length → from_ < p.end_
  stays : 0 < p.requests → from_ = items.length → p.more = false
  place : p.carried = none → p.cursor = p.end_
  carries : ∀ edge, p.carried = some edge → p.requests = 0 ∧ p.cursor = edge.position ∧ p.end_ = edge.position + 1 ∧
    ∃ item, items[edge.position]? = some item ∧ clean item.ratingKey = edge.key

theorem page_getElem {start count i : Nat} (less : i < count) :
    ((items.drop start).take count)[i]? = items[start + i]? := by
  rw [List.getElem?_take_of_lt less, List.getElem?_drop]

theorem page_length (items : List Metadata) (start count : Nat) :
    ((items.drop start).take count).length = min count (items.length - start) := by
  rw [length_take, length_drop]

theorem moreForward_ended (items : List Metadata) (start count : Nat) :
    moreForward ⟨start, if true then items.length else 0, (items.drop start).take count⟩ start count items.length =
      false := by
  simp only [moreForward, if_true, Int.toNat_natCast]
  cases items with
  | nil => simp
  | cons item rest => simp

theorem Steady.page (sent : Bool) (p : Progress) {held added : List Row} {from_ start count read : Nat}
    (walking : Steady sid hidden items held from_ p.rows p.offset p.end_) (few : p.rows.length < maxShelfItems)
    (near : start = p.end_ ∨ start + 1 = p.end_) (two : 2 ≤ count)
    (filled : Filled sid hidden p.end_ start ((items.drop start).take count) p.rows added read)
    (loose : p.carried = none) (next : 0 < p.requests) :
    Walking sid hidden items sent held from_
      (afterForward p ⟨start, if sent then items.length else 0, (items.drop start).take count⟩ start count added read) ∧
    (p.end_ < items.length → p.end_ < start + read) := by
  have low := walking.low
  have high := walking.high
  have fits := filled.fits
  have length := page_length items start count
  have reaches_on : p.end_ < items.length → p.end_ < start + read := by
    intro before
    by_cases cut : read < ((items.drop start).take count).length
    · exact filled.reaches few cut
    · omega
  have reaches : p.end_ ≤ start + read := by
    rcases Nat.lt_or_ge p.end_ items.length with before | after
    · exact Nat.le_of_lt (reaches_on before)
    · by_cases cut : read < ((items.drop start).take count).length
      · exact Nat.le_of_lt (filled.reaches few cut)
      · omega
  have end_le : start + read ≤ items.length := by omega
  refine ⟨⟨⟨filled.window walking.window few reaches, ?_, ?_, ?_, Nat.le_trans low reaches, end_le⟩, ?_, ?_,
    ?_, ?_, fun _ => rfl, ?_⟩, reaches_on⟩
  · intro row mem
    rcases mem_append.mp mem with old | new
    · exact walking.genuine row old
    · obtain ⟨-, i, place, less, item, its, showable⟩ := filled.listed row new
      rw [page_getElem (by omega)] at its
      refine ⟨item, ?_, showable⟩
      rw [place]
      exact its
  · intro row mem
    rcases mem_append.mp mem with old | new
    · exact walking.kept row old
    · have above := (filled.listed row new).1
      exact .inr (Nat.le_trans low above)
  · intro position item card after before its showable
    change position < start + read at before
    rcases Nat.lt_or_ge position p.end_ with read_before | new
    · rcases walking.covers position item card after read_before its showable with there | ⟨row, mem, eq, less⟩
      · exact .inl (mem_append_left _ there)
      · exact .inr ⟨row, mem_append_left _ mem, eq, less⟩
    · obtain ⟨i, place⟩ : ∃ i, position = start + i := ⟨position - start, by omega⟩
      rw [place] at its new before ⊢
      have listed : ((items.drop start).take count)[i]? = some item := by
        rw [page_getElem (by omega)]
        exact its
      rcases filled.covers i item card (by omega) new listed showable with there | ⟨row, mem, eq, old⟩
      · exact .inl (mem_append_right _ there)
      · refine .inr ⟨row, mem, eq, ?_⟩
        rcases old with old | earlier
        · have inside := (walking.window.inside row old).2
          omega
        · exact earlier
  · intro unread
    change p.requests = 0 at unread
    omega
  · intro _
    constructor
    · intro before
      change start + read < items.length at before
      change moreForward _ start count (start + read) = true
      have got : 0 < min ((items.drop start).take count).length count := by omega
      simp only [moreForward, decide_eq_true got, Bool.true_and]
      cases sent with
      | true =>
        have listed : 0 < items.length := by omega
        simp only [if_true, Int.toNat_natCast, if_pos listed, decide_eq_true before]
      | false =>
        simp only [false_eq_true, if_false, Int.toNat_zero, Nat.lt_irrefl, or_eq_true, decide_eq_true_eq]
        by_cases cut : read < ((items.drop start).take count).length
        · omega
        · omega
    · intro total ends
      change start + read = items.length at ends
      change moreForward _ start count (start + read) = false
      rw [total, ends]
      exact moreForward_ended items start count
  · intro _ before
    rcases Nat.lt_or_ge from_ p.end_ with already | not_yet
    · exact Nat.lt_of_lt_of_le already reaches
    · exact Nat.lt_of_le_of_lt low (reaches_on (by omega))
  · intro _ at_end
    change moreForward _ start count (start + read) = false
    have whole : start + read = items.length := by omega
    cases sent with
    | true =>
      rw [whole]
      exact moreForward_ended items start count
    | false =>
      -- the page holds the edge at most, so it is neither full nor cut short
      have not_cut : ¬ start + read < start + min ((items.drop start).take count).length count := by omega
      have not_full : ¬ min ((items.drop start).take count).length count = count := by omega
      simp only [moreForward, false_eq_true, if_false, Int.toNat_zero, Nat.lt_irrefl, decide_eq_false not_cut,
        decide_eq_false not_full, Bool.or_self, Bool.and_false]
  · intro edge carried
    change p.carried = some edge at carried
    rw [loose] at carried
    cases carried

theorem readPage_listing (call : Nat) {start : Nat} (count : Nat) (low : start < half) :
    readPage (listing items sent) call start count =
      .ok ⟨start, if sent then items.length else 0, (items.drop start).take count⟩ := by
  simp only [readPage, listing, toSigned_eq low, if_true]

theorem shift_zero {p : Progress} (window : Window p.rows p.offset p.end_) (fits : p.end_ < Usize.size) :
    shift p 0 = some p := by
  obtain ⟨q, shifts⟩ := shift_some 0 window fits
  obtain ⟨eq, offset, end_, -⟩ := shift_eq_some shifts
  have rows : p.rows.map (moved 0) = p.rows := by
    refine (map_congr_left ?_).trans (map_id _)
    intro row _
    simp [moved]
  have still : q = p := by
    rw [eq]
    have at_offset : q.offset = p.offset := by omega
    have at_end : q.end_ = p.end_ := by omega
    simp only [Int.natCast_zero, rows, at_offset, at_end]
  rw [still] at shifts
  exact shifts

theorem relocate_listing (call : Nat) {edge : Edge} {item : Metadata} (before : Bool) (count : Nat) (total : Int)
    (its : items[edge.position]? = some item) (key : clean item.ratingKey = edge.key)
    (low : edge.position < half) :
    relocate (listing items sent) call edge before
      ⟨edge.position, total, (items.drop edge.position).take (count + 1)⟩ edge.position = .ok (.inPage 0) := by
  have heads : items.drop edge.position = item :: items.drop (edge.position + 1) := by
    obtain ⟨inside, rfl⟩ := List.getElem?_eq_some_iff.mp its
    exact drop_eq_getElem_cons inside
  have found : findKey ⟨edge.position, total, (items.drop edge.position).take (count + 1)⟩ edge.key = some 0 := by
    simp only [findKey, heads, take_succ_cons, List.findIdx?_cons, key, decide_true]
    rfl
  have fits : edge.position + 0 < Usize.size := by
    unfold half at low
    unfold Usize.size
    omega
  have none_moved : ((edge.position + 0 : Nat) : Int) - (edge.position : Int) = 0 := by omega
  simp only [relocate, found, Usize.add?_eq fits, Usize.diff?_eq (show edge.position + 0 < half from low) low,
    none_moved, orFault, bind, Except.bind]
  rfl

variable {ask : Ask} {held : List Row} {from_ : Nat} {p : Progress}

theorem take_page (start count : Nat) :
    ((items.drop start).take count).take (min ((items.drop start).take count).length count) =
      (items.drop start).take count := by
  rw [take_of_length_le]
  rw [page_length]
  omega

theorem Walking.takes {q : Progress} (start count : Nat) (corrected : Option Nat)
    (walking : Walking sid ask.hidden items sent held from_ p) (forward : ask.before = false)
    (short : items.length < limit) (few : p.rows.length < maxShelfItems)
    (near : start = p.end_ ∨ start + 1 = p.end_) (two : 2 ≤ count) (counts : count ≤ 25)
    (keep : p.end_ = match corrected with | some edge => edge + 1 | none => start)
    (eq : q.rows = p.rows ∧ q.offset = p.offset ∧ q.end_ = p.end_ ∧ q.carried = none ∧ q.requests = p.requests + 1)
    (turned : Paging.turn sid ask (listing items sent) p = takePage sid ask q
      ⟨start, if sent then items.length else 0, (items.drop start).take count⟩ start maxShelfItems count corrected) :
    ∃ r, Walking sid ask.hidden items sent held from_ r ∧ r.requests = p.requests + 1 ∧
      (Paging.turn sid ask (listing items sent) p = .ok (.again r) ∨
        Paging.turn sid ask (listing items sent) p = .ok (.done r)) := by
  have high := walking.steady.high
  obtain ⟨rows, offset, end_, loose, requests⟩ := eq
  have steady := walking.steady
  rw [← rows, ← offset, ← end_] at steady
  rw [← rows] at few
  rw [← end_] at near keep high
  have fits : start + count < Usize.size := by
    unfold limit at short
    unfold Usize.size
    omega
  obtain ⟨added, read, filled, -, result⟩ := takePage_forward sid q forward
    ⟨start, if sent then items.length else 0, (items.drop start).take count⟩ start maxShelfItems count corrected
    keep few fits (by unfold limit at short; unfold Usize.size; omega)
  dsimp only at filled
  rw [take_page] at filled
  obtain ⟨later, -⟩ := Steady.page sent q steady few near two filled loose (by omega)
  refine ⟨_, later, requests, ?_⟩
  rw [turned, result]
  cases more : moreForward _ start count (start + read) with
  | true => exact .inl rfl
  | false => exact .inr rfl

theorem Walking.turn (walking : Walking sid ask.hidden items sent held from_ p) (forward : ask.before = false)
    (short : items.length < limit) :
    ∃ q, Walking sid ask.hidden items sent held from_ q ∧ q.requests = p.requests + 1 ∧
      (Paging.turn sid ask (listing items sent) p = .ok (.again q) ∨
        Paging.turn sid ask (listing items sent) p = .ok (.done q)) := by
  have high := walking.steady.high
  have double : limit + limit = half := rfl
  by_cases full : maxShelfItems ≤ p.rows.length
  · have read : 0 < p.requests := by
      by_contra unread
      have few := walking.unread (by omega)
      omega
    refine ⟨{ p with requests := p.requests + 1 }, ⟨walking.steady, ?_, fun _ => walking.tells read,
      fun _ => walking.reads_on read, fun _ => walking.stays read, walking.place, ?_⟩, rfl, .inr ?_⟩
    · intro zero
      cases zero
    · intro edge carried
      have zero := (walking.carries edge carried).1
      omega
    · unfold Paging.turn
      dsimp only
      rw [if_pos (.inl full)]
  · have few : p.rows.length < maxShelfItems := Nat.not_le.mp full
    have ready : ¬ (maxShelfItems ≤ p.rows.length ∨ (ask.before = true ∧ p.cursor = 0)) := by
      rw [forward]
      rintro (full | ⟨⟨⟩, -⟩)
      omega
    have start : ∀ carried calls, pageStart ask { p with requests := p.requests + 1, carried, calls } = p.cursor := by
      intro carried calls
      simp only [pageStart, forward, false_eq_true, if_false]
    have size : ∀ carried calls, pageSize ask { p with requests := p.requests + 1, carried, calls } = maxShelfItems := by
      intro carried calls
      simp only [pageSize, forward, false_eq_true, if_false]
    cases carried : p.carried with
    | none =>
      have place := walking.place carried
      refine walking.takes (q := { p with requests := p.requests + 1, calls := p.calls + 1 }) p.cursor maxShelfItems none
        forward short few (.inl place) (by decide) (by decide) place.symm ⟨rfl, rfl, rfl, carried, rfl⟩ ?_
      rw [turn_loose ready carried,
        readLoose_eq (by rw [start, size]; exact readPage_listing _ _ (by omega)), start, size]
    | some edge =>
      obtain ⟨first, place, end_, item, its, key⟩ := walking.carries edge carried
      have low : edge.position < half := by omega
      have window := walking.steady.window
      have there : orUnchanged (addSigned? edge.position (0 : Int)) = .ok edge.position := by
        refine corrected_eq ?_ low
        omega
      have fits : p.end_ < Usize.size := by
        unfold limit at short
        unfold Usize.size
        omega
      have still : shift { p with requests := p.requests + 1, carried := none, calls := p.calls + 2 } 0 =
          some { p with requests := p.requests + 1, carried := none, calls := p.calls + 2 } :=
        shift_zero window fits
      refine walking.takes (q := { p with requests := p.requests + 1, carried := none, calls := p.calls + 2 })
        edge.position (maxShelfItems + 1) (some edge.position) forward short few (.inr end_.symm) (by decide) (by decide) end_ ⟨rfl, rfl, rfl, rfl, rfl⟩ ?_
      rw [turn_carried ready carried,
        readCarried_eq (by rw [start, size, place]; exact readPage_listing _ _ low)
          (by rw [start, place]; exact relocate_listing _ _ _ _ its key low),
        follow_inPage there still, start, size, place]

theorem Walking.reads {fuel : Nat} (walking : Walking sid ask.hidden items sent held from_ p)
    (forward : ask.before = false) (short : items.length < limit)
    (enough : requestsPerAsk - p.requests < fuel) :
    ∃ q, Walking sid ask.hidden items sent held from_ q ∧ p.requests ≤ q.requests ∧
      (p.requests < requestsPerAsk → p.requests < q.requests) ∧
      Paging.reads sid ask 0 (listing items sent) fuel p = .ok q := by
  induction fuel generalizing p with
  | zero => cases enough
  | succ fuel ih =>
    unfold Paging.reads
    split
    · rename_i goes
      have asked : p.requests < requestsPerAsk := by
        rcases goes with few | ⟨-, less⟩
        · exact few
        · cases less
      obtain ⟨q, later, next, turned⟩ := walking.turn forward short
      rcases turned with again | done
      · obtain ⟨r, last, on, -, result⟩ := ih later (by omega)
        rw [again]
        exact ⟨r, last, by omega, fun _ => by omega, result⟩
      · rw [done]
        exact ⟨q, later, by omega, fun _ => by omega, rfl⟩
    · rename_i stopped
      refine ⟨p, walking, Nat.le_refl _, ?_, rfl⟩
      intro few
      exact absurd (.inl few) stopped

theorem rebase_eq {q : Progress} {by_ : Int} {cursor : Nat} (shifts : shift p by_ = some q)
    (start : addSigned? ask.start by_ = some cursor) :
    rebase ask p by_ = .ok { q with cursor, calls := q.calls + 2 } := by
  unfold rebase
  rw [shifts, start]
  rfl

theorem Walking.anchor {row : Row} (walking : Walking sid ask.hidden items sent held from_ p)
    (forward : ask.before = false) (short : items.length < limit) (mem : row ∈ p.rows)
    (loose : p.carried = none) (first : p.requests = 0) (start : ask.start = p.end_) :
    ∃ q, Walking sid ask.hidden items sent held from_ q ∧ q.requests = 0 ∧
      Paging.anchor ask (listing items sent) p ⟨row.1, row.2.rk⟩ = .ok q := by
  have inside := (walking.steady.window.inside row mem).2
  have high := walking.steady.high
  have double : limit + limit = half := rfl
  obtain ⟨item, its, showable⟩ := walking.steady.genuine row mem
  have key : clean item.ratingKey = row.2.rk := (shelfCard_rk showable.1).symm
  unfold Paging.anchor
  split
  · rename_i beside
    have next : row.1 + 1 = ask.start := by
      rcases beside with ⟨backward, -⟩ | ⟨-, next⟩
      · rw [forward] at backward
        cases backward
      · exact next
    refine ⟨{ p with cursor := row.1, carried := some ⟨row.1, row.2.rk⟩ }, ⟨walking.steady, walking.unread,
      walking.tells, walking.reads_on, walking.stays, ?_, ?_⟩, first, rfl⟩
    · intro none_carried
      cases none_carried
    · rintro edge ⟨⟩
      exact ⟨first, rfl, start.symm.trans next.symm, item, its, key⟩
  · have fits : p.end_ < Usize.size := by
      unfold limit at short
      unfold Usize.size
      omega
    have still : shift p 0 = some p := shift_zero walking.steady.window fits
    have from_start : addSigned? ask.start 0 = some ask.start := by
      rw [Usize.addSigned?_eq (by omega) (by omega), Int.add_zero, Int.toNat_natCast]
    refine ⟨{ p with cursor := ask.start, calls := p.calls + 2 }, ⟨walking.steady, walking.unread, walking.tells,
      walking.reads_on, walking.stays, fun _ => start, ?_⟩, first, ?_⟩
    · intro edge carried
      rw [loose] at carried
      cases carried
    · have low : row.1 < half := by omega
      have read : readPage (listing items sent) p.calls row.1 (maxShelfItems + 1) = .ok
          ⟨row.1, if sent then items.length else 0, (items.drop row.1).take (maxShelfItems + 1)⟩ :=
        readPage_listing p.calls (maxShelfItems + 1) low
      have found : relocate (listing items sent) (p.calls + 1) ⟨row.1, row.2.rk⟩ false
          ⟨row.1, if sent then items.length else 0, (items.drop row.1).take (maxShelfItems + 1)⟩ row.1 =
          .ok (.inPage 0) :=
        relocate_listing (p.calls + 1) false maxShelfItems _ its key low
      simp only [forward, false_eq_true, if_false, read, found, bind, Except.bind]
      exact rebase_eq still from_start

/-- The rows an ask holds, and where they end. -/
def heldRows : Option (List Row × PageInfo) → List Row
  | none => []
  | some (rows, _) => rows

def heldEnd : Option (List Row × PageInfo) → Nat
  | none => 0
  | some (_, info) => info.end_

structure Walked (sid : ServerId) (hidden : List Int) (items : List Metadata) (sent : Bool)
    (held : Option (List Row × PageInfo)) (window : List Row × PageInfo) : Prop where
  steady : Steady sid hidden items (heldRows held) (heldEnd held) window.1 window.2.offset window.2.end_
  stable : window.2.unstable = false
  tells : Tells items sent window.2.end_ window.2.more
  reads_on : heldEnd held < items.length → heldEnd held < window.2.end_
  stays : heldEnd held = items.length → window.2.more = false

theorem beginRead_walking {current : Option (List Row × PageInfo)} (sent : Bool) (begins : Begins ask current 0)
    (forward : ask.before = false) (start : ask.start = heldEnd current)
    (genuine : ∀ row ∈ heldRows current, Genuine sid ask.hidden items row) (high : heldEnd current ≤ items.length) :
    Walking sid ask.hidden items sent (heldRows current) (heldEnd current) (beginRead ask current).1 ∧
      ask.start = (beginRead ask current).1.end_ := by
  have ready := beginRead_ready begins
  have end_ : ask.start = (beginRead ask current).1.end_ := by
    have its := ready.start
    rw [forward] at its
    exact its
  have few := ready.few
  have requests := ready.requests
  have held : ∀ row ∈ (beginRead ask current).1.rows, row ∈ heldRows current := by
    intro row mem
    have seen := retained_sublist_visible.subset mem
    cases current with
    | none => cases seen
    | some held => exact (mem_filter.mp seen).1
  refine ⟨⟨⟨ready.window, ?_, ?_, ?_, ?_, ?_⟩, ?_, ?_, ?_, ?_, ?_, ?_⟩, end_⟩
  · intro row mem
    exact genuine row (held row mem)
  · intro row mem
    exact .inl (held row mem)
  · intro position item card after before
    omega
  · omega
  · omega
  · intro _
    unfold hubFetchCount at few
    unfold maxShelfItems
    omega
  · intro some_read
    omega
  · intro some_read
    omega
  · intro some_read
    omega
  · intro _
    rw [ready.place, end_]
  · intro edge carried
    rw [ready.loose] at carried
    cases carried

theorem fetchWindow_walked (sid : ServerId) (ask : Ask) (current : Option (List Row × PageInfo)) (sent : Bool)
    (begins : Begins ask current 0) (forward : ask.before = false) (start : ask.start = heldEnd current)
    (short : items.length < limit)
    (genuine : ∀ row ∈ heldRows current, Genuine sid ask.hidden items row) (high : heldEnd current ≤ items.length) :
    ∃ window, fetchWindow sid ask current 0 (listing items sent) = some (some window) ∧
      Walked sid ask.hidden items sent current window := by
  obtain ⟨walking, end_⟩ := beginRead_walking sent begins forward start genuine high
  have ready := beginRead_ready begins
  obtain ⟨q, anchored, first, its⟩ : ∃ q, Walking sid ask.hidden items sent (heldRows current) (heldEnd current) q ∧
      q.requests = 0 ∧ anchored ask current (listing items sent) = .ok q := by
    have edge : (beginRead ask current).2 =
        (beginRead ask current).1.rows.getLast?.map (fun row => Edge.mk row.1 row.2.rk) := by
      simp only [beginRead, forward, false_eq_true, if_false]
    unfold anchored
    rw [edge]
    cases last : (beginRead ask current).1.rows.getLast? with
    | none => exact ⟨_, walking, ready.requests, rfl⟩
    | some row =>
      exact walking.anchor forward short (List.mem_of_getLast? last) ready.loose ready.requests end_
  have enough : requestsPerAsk - q.requests < turnBound 0 := by
    rw [first]
    decide
  obtain ⟨r, done, -, read, result⟩ := anchored.reads forward short enough
  have some_read : 0 < r.requests := by
    have asked := read (by rw [first]; decide)
    omega
  refine ⟨(r.rows, ⟨r.offset, r.end_, r.total, r.more, false⟩), ?_,
    ⟨done.steady, rfl, done.tells some_read, done.reads_on some_read, done.stays some_read⟩⟩
  simp only [fetchWindow_eq, its, Except.bind, result]

end

section
variable (sid : ServerId) (hidden : List Int) (items : List Metadata) (sent : Bool)

/-- A walk forward from the listing's start: each ask holds the window before it and goes
on from its end. -/
def walk (fetch : Fetch) : Nat → Option (List Row × PageInfo)
  | 0 => (fetchWindow sid ⟨0, false, hidden⟩ none 0 fetch).join
  | k + 1 => (walk fetch k).bind (fun window =>
    (fetchWindow sid ⟨window.2.end_, false, hidden⟩ (some window) 0 fetch).join)

def previous (windows : Nat → List Row × PageInfo) : Nat → Option (List Row × PageInfo)
  | 0 => none
  | k + 1 => some (windows k)

def newRows (windows : Nat → List Row × PageInfo) (k : Nat) : List Row :=
  (windows k).1.filter (fun row => row ∉ heldRows (previous windows k))

theorem walk_walked (short : items.length < limit) :
    ∃ windows, ∀ k, walk sid hidden (listing items sent) k = some (windows k) ∧
      Walked sid hidden items sent (previous windows k) (windows k) := by
  obtain ⟨first, first_is, first_walked⟩ := fetchWindow_walked sid ⟨0, false, hidden⟩ none sent
    ⟨Nat.zero_lt_succ _, Nat.zero_lt_succ _, fun _ _ => nofun⟩ rfl rfl short nofun
    (Nat.zero_le _)
  have next : ∀ {held : Option (List Row × PageInfo)} {window}, Walked sid hidden items sent held window →
      ∃ window', (fetchWindow sid ⟨window.2.end_, false, hidden⟩ (some window) 0 (listing items sent)).join =
        some window' ∧ Walked sid hidden items sent (some window) window' := by
    intro held window walked
    have top := Nat.lt_of_le_of_lt walked.steady.high short
    obtain ⟨window', its, later⟩ := fetchWindow_walked sid ⟨window.2.end_, false, hidden⟩ (some window)
      sent ⟨top, Nat.zero_lt_succ _, by
        rintro rows info ⟨⟩
        exact ⟨walked.steady.window, top, rfl⟩⟩ rfl rfl short walked.steady.genuine walked.steady.high
    exact ⟨window', by rw [its]; rfl, later⟩
  have all : ∀ k, ∃ window, walk sid hidden (listing items sent) k = some window ∧ Walked sid hidden items sent
      (match k with | 0 => none | k + 1 => walk sid hidden (listing items sent) k) window := by
    intro k
    induction k with
    | zero => exact ⟨first, by unfold walk; rw [first_is]; rfl, first_walked⟩
    | succ k ih =>
      obtain ⟨window, its, walked⟩ := ih
      obtain ⟨window', later, on⟩ := next walked
      refine ⟨window', ?_, ?_⟩
      · unfold walk
        rw [its]
        exact later
      · dsimp only
        rw [its]
        exact on
  choose windows its walked using all
  refine ⟨windows, ?_⟩
  intro k
  refine ⟨its k, ?_⟩
  have on := walked k
  cases k with
  | zero => exact on
  | succ k =>
    dsimp only at on
    rw [its k] at on
    exact on

variable {sid hidden items sent} {windows : Nat → List Row × PageInfo}

section
variable (walked : ∀ k, Walked sid hidden items sent (previous windows k) (windows k))
include walked

theorem newRows_inside (k : Nat) :
    ∀ row ∈ newRows windows k, heldEnd (previous windows k) ≤ row.1 ∧ row.1 < (windows k).2.end_ := by
  intro row mem
  obtain ⟨there, new⟩ := mem_filter.mp mem
  have steady := (walked k).steady
  refine ⟨?_, (steady.window.inside row there).2⟩
  rcases steady.kept row there with held | after
  · exact absurd held (by simpa using new)
  · exact after

theorem newRows_ascending (n : Nat) :
    KeyOrder.Ascending Prod.fst ((List.range n).flatMap (newRows windows)) ∧
      ∀ row ∈ (List.range n).flatMap (newRows windows), row.1 < heldEnd (previous windows n) := by
  induction n with
  | zero => exact ⟨.nil, nofun⟩
  | succ n ih =>
    obtain ⟨ascends, below⟩ := ih
    have inside := newRows_inside walked n
    have low := (walked n).steady.low
    have one : (List.range (n + 1)).flatMap (newRows windows) =
        (List.range n).flatMap (newRows windows) ++ newRows windows n := by
      rw [range_succ, flatMap_append, flatMap_singleton]
    rw [one]
    constructor
    · refine pairwise_append.mpr ⟨ascends, (walked n).steady.window.ascending.filter _, ?_⟩
      intro old before new after
      have old_below := below old before
      have new_above := (inside new after).1
      omega
    · intro row mem
      change row.1 < (windows n).2.end_
      rcases mem_append.mp mem with old | new
      · exact Nat.lt_of_lt_of_le (below row old) low
      · exact (inside row new).2

end

theorem read_by_one {position n : Nat} (before : position < heldEnd (previous windows n)) :
    ∃ k, heldEnd (previous windows k) ≤ position ∧ position < (windows k).2.end_ := by
  induction n with
  | zero => cases before
  | succ n ih =>
    rcases Nat.lt_or_ge position (heldEnd (previous windows n)) with earlier | here
    · exact ih earlier
    · exact ⟨n, here, before⟩

theorem walk_reaches_end (walked : ∀ k, Walked sid hidden items sent (previous windows k) (windows k)) (k : Nat) :
    k ≤ items.length → k ≤ heldEnd (previous windows k) := by
  induction k with
  | zero =>
    intro _
    exact Nat.zero_le _
  | succ k ih =>
    intro less
    have so_far := ih (by omega)
    change k + 1 ≤ (windows k).2.end_
    have low := (walked k).steady.low
    rcases Nat.lt_or_ge (heldEnd (previous windows k)) items.length with before | ended
    · have on := (walked k).reads_on before
      omega
    · omega

variable (sid hidden items sent)

/-- A walk over a listing that holds still: no window is flagged, each adds its rows past
those before it, and every card is reached where it is listed, unless its key is still in
the window that reads it. It ends, with nothing more, only at the list's end. -/
theorem walk_reaches_every_card (short : items.length < limit) :
    ∃ windows : Nat → List Row × PageInfo,
      (∀ k, walk sid hidden (listing items sent) k = some (windows k) ∧ (windows k).2.unstable = false) ∧
      (∀ n, KeyOrder.Ascending Prod.fst ((List.range n).flatMap (newRows windows))) ∧
      (∀ k, ∀ row ∈ (windows k).1, Genuine sid hidden items row) ∧
      (∀ position item card, items[position]? = some item → Showable sid hidden item card → ∃ k,
        heldEnd (previous windows k) ≤ position ∧ position < (windows k).2.end_ ∧
        ((position, card) ∈ (windows k).1 ∨ ∃ row ∈ (windows k).1, row.2.rk = card.rk ∧ row.1 < position)) ∧
      (∃ k, (windows k).2.more = false) ∧
      (∀ k, (windows k).2.more = false → (windows k).2.end_ = items.length) ∧
      (∀ k, (windows k).2.end_ = items.length →
        (sent = true → (windows k).2.more = false) ∧
        (windows (k + 1)).1 ⊆ (windows k).1 ∧ (windows (k + 1)).2.end_ = items.length ∧
        (windows (k + 1)).2.more = false) := by
  obtain ⟨windows, all⟩ := walk_walked sid hidden items sent short
  have walked : ∀ k, Walked sid hidden items sent (previous windows k) (windows k) := fun k => (all k).2
  have whole : heldEnd (previous windows items.length) = items.length := by
    have reached := walk_reaches_end walked items.length (Nat.le_refl _)
    have low := (walked items.length).steady.low
    have high := (walked items.length).steady.high
    omega
  refine ⟨windows, fun k => ⟨(all k).1, (walked k).stable⟩, fun n => (newRows_ascending walked n).1,
    fun k => (walked k).steady.genuine, ?_, ⟨items.length, (walked items.length).stays whole⟩, ?_, ?_⟩
  · intro position item card its showable
    have inside : position < heldEnd (previous windows items.length) := by
      rw [whole]
      exact (List.getElem?_eq_some_iff.mp its).1
    obtain ⟨k, after, before⟩ := read_by_one inside
    exact ⟨k, after, before, (walked k).steady.covers position item card after before its showable⟩
  · intro k stopped
    by_contra short_of
    have high := (walked k).steady.high
    have goes_on := (walked k).tells.goes_on (by omega)
    rw [goes_on] at stopped
    cases stopped
  · intro k ended
    have later := walked (k + 1)
    have low := later.steady.low
    have high := later.steady.high
    refine ⟨fun total => (walked k).tells.stops total ended, ?_, ?_, later.stays ended⟩
    · intro row member
      rcases later.steady.kept row member with held | after
      · exact held
      · have inside := (later.steady.window.inside row member).2
        change (windows k).2.end_ ≤ row.1 at after
        omega
    · change (windows k).2.end_ ≤ (windows (k + 1)).2.end_ at low
      omega

/-- Two films and one repeat of the first's key. -/
def shortListing : List Metadata := [film "a", film "b", film "a"]

theorem walk_reaches_every_card_short :
    shortListing.length < limit ∧ ∃ windows : Nat → List Row × PageInfo,
      (∀ k, walk ⟨0⟩ [] (listing shortListing true) k = some (windows k) ∧ (windows k).2.unstable = false) ∧
      (∃ k, (windows k).2.more = false) := by
  refine ⟨by decide, ?_⟩
  obtain ⟨windows, all, -, -, -, ends, -⟩ := walk_reaches_every_card ⟨0⟩ [] shortListing true (by decide)
  exact ⟨windows, all, ends⟩

/-- A first window that ends with the list says that there is more when no total is sent
and the page was full. -/
theorem full_page_leaves_more :
    ¬ ∀ (sid : ServerId) (hidden : List Int) (items : List Metadata) (sent : Bool) (k : Nat)
      (window : List Row × PageInfo), items.length < limit → walk sid hidden (listing items sent) k = some window →
        (window.2.more = false ↔ window.2.end_ = items.length) := by
  intro every
  have walked : (walk ⟨0⟩ [] (listing ((List.range 24).map (fun n => film (toString n))) false) 0).map Prod.snd =
      some ⟨0, 24, 0, true, false⟩ := by
    decide
  obtain ⟨window, its, info⟩ := Option.map_eq_some_iff.mp walked
  have told := every ⟨0⟩ [] ((List.range 24).map (fun n => film (toString n))) false 0 window (by decide) its
  rw [info] at told
  exact absurd (told.mpr rfl) (by decide)

end
end PlxNative.Paging
