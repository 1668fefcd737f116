import PlxNative.Deck.Building

/-! A backward read of a lane whose head row the listing holds where it was: the rows before the
head are put in front of those held. -/
namespace PlxNative.Deck
open List
open ViewState (ServerId)
open Paging (clean card requestsPerAsk)

section
variable {server : Server} {hidden : List Int} {lane : Lane}

/-- The rows of the listing up to a place, as cards. -/
def Server.upto (server : Server) (place : Nat) : List CwItem := cardsFrom server.sid (server.items.take place) 0

/-- The lane's rows are those of the listing from its head row on, as far as it holds any. -/
structure Anchored (server : Server) (lane : Lane) : Prop where
  scan : lane.scan = none
  there : ∃ item, server.items[lane.head.position]? = some item ∧ item.key = lane.head.key
  high : ∀ row ∈ lane.rows, lane.head.position ≤ row.position
  listed : ∀ row ∈ lane.rows, row ∈ server.from_ 0

/-- A lane with the same window and more rows at its start. -/
structure GrownBehind (lane lane' : Lane) (fresh : List CwItem) : Prop where
  rows : lane'.rows = fresh ++ lane.rows
  lo : lane'.lo = lane.lo
  hi : lane'.hi = lane.hi

theorem GrownBehind.refl (lane : Lane) : GrownBehind lane lane [] := ⟨rfl, rfl, rfl⟩

theorem GrownBehind.trans {one two three : Lane} {first second : List CwItem} (before : GrownBehind one two first)
    (after : GrownBehind two three second) : GrownBehind one three (second ++ first) :=
  ⟨by rw [after.rows, before.rows, append_assoc], after.lo.trans before.lo, after.hi.trans before.hi⟩

theorem mem_from {c : CwItem} : c ∈ server.from_ 0 ↔ ∃ item, server.items[c.position]? = some item ∧ c = cardOf server.sid item c.position := by
  constructor
  · intro mem
    obtain ⟨at_, item, there, rfl⟩ := mem_cardsFrom mem
    rw [drop_zero] at there
    rw [cardOf_position, Nat.zero_add]
    exact ⟨item, there, rfl⟩
  · rintro ⟨item, there, is⟩
    rw [Server.from_, drop_zero, cardsFrom, is]
    exact mem_map.mpr ⟨(item, c.position), List.mk_mem_zipIdx_iff_getElem?.mpr there, rfl⟩

theorem key_card (honest : Honest hidden server) {one two : CwItem} (first : one ∈ server.from_ 0) (second : two ∈ server.from_ 0)
    (eq : one.m.rk = two.m.rk) : one.position = two.position := by
  obtain ⟨item, left, is⟩ := mem_from.mp first
  obtain ⟨other, right, are⟩ := mem_from.mp second
  rw [is, are, cardOf_key, cardOf_key] at eq
  exact key_place honest.distinct left right eq

theorem stretch_listed {start n : Nat} {c : CwItem}
    (mem : c ∈ cardsFrom server.sid ((server.items.drop start).take n) start) : c ∈ server.from_ 0 := by
  obtain ⟨at_, item, there, rfl⟩ := mem_cardsFrom mem
  apply mem_from.mpr
  rw [page_getElem?] at there
  split at there
  · exact ⟨item, there, rfl⟩
  · cases there

theorem upto_split (server : Server) {start place : Nat} (before : start ≤ place) (bound : place ≤ server.items.length) :
    server.upto start ++ cardsFrom server.sid ((server.items.drop start).take (place - start)) start = server.upto place := by
  unfold Server.upto
  have length : (server.items.take start).length = start := by
    rw [length_take]
    omega
  have apart : place = start + (place - start) := by omega
  conv => rhs; rw [apart, take_add, cardsFrom_append, length, Nat.zero_add]

theorem takeWhile_before (items : List Metadata) (start n place : Nat) (count : n = place - start) (low : start ≤ place) :
    ((items.take (n + 1)).zipIdx start).takeWhile (fun entry => decide (entry.2 < place)) = (items.take n).zipIdx start := by
  induction n generalizing items start with
  | zero =>
    cases items with
    | nil => rfl
    | cons item rest =>
      have stop : ¬start < place := by omega
      simp [stop]
  | succ n ih =>
    cases items with
    | nil => rfl
    | cons item rest =>
      have go : start < place := by omega
      rw [take_succ_cons, zipIdx_cons, takeWhile_cons, if_pos (decide_eq_true go), take_succ_cons,
        zipIdx_cons, ih rest (start + 1) (by omega) (by omega)]

theorem readOnBehind_spec (honest : Honest hidden server) (anchored : Anchored server lane) (before : 0 < lane.head.position) :
    ∃ lane', readOnBehind server.sid hidden server.list server.many lane = .ok lane' ∧
      lane'.head.position = lane.head.position - page ∧ Anchored server lane' ∧
      GrownBehind lane lane' (cardsFrom server.sid
        ((server.items.drop (lane.head.position - page)).take (lane.head.position - (lane.head.position - page)))
        (lane.head.position - page)) := by
  obtain ⟨item, there, key⟩ := anchored.there
  have pageIs : page = 12 := rfl
  have bound := (List.getElem?_eq_some_iff.mp there).1
  generalize startIs : lane.head.position - page = start
  generalize countIs : lane.head.position - start = count
  have lengthIs : ((server.items.drop start).take (count + 1)).length = count + 1 := by
    rw [length_take, length_drop]
    omega
  have found : findKey ⟨start, server.total, (server.items.drop start).take (count + 1)⟩ lane.head.key = some count := by
    have at_ := findKey_spanned honest.distinct there start (count + 1) (by omega) (by omega) start server.total
    rw [key, countIs] at at_
    exact at_
  have kept : anchorBehind server.list lane ⟨start, server.total, (server.items.drop start).take (count + 1)⟩ start (count + 1) =
      .ok (lane, true) := by
    unfold anchorBehind
    rw [found]
    simp only
    rw [lengthIs, Nat.min_self, if_pos rfl]
  have cards : (((server.items.drop start).take (count + 1)).zipIdx start).takeWhile (fun entry => decide (entry.2 < lane.head.position)) =
      ((server.items.drop start).take count).zipIdx start := takeWhile_before _ _ _ _ countIs.symm (by omega)
  have shows : ∀ item ∈ (server.items.drop start).take count, (card server.sid item.toMetadata hidden).isSome = true :=
    fun item mem => honest.shows item (mem_of_mem_drop (mem_of_mem_take mem))
  have unheld : (cardsFrom server.sid ((server.items.drop start).take count) start).filter
      (fun card => lane.rows.all (fun held => held.m.rk ≠ card.m.rk)) =
      cardsFrom server.sid ((server.items.drop start).take count) start := by
    apply filter_eq_self.mpr
    intro c mem
    apply all_eq_true.mpr
    intro held inside
    apply decide_eq_true
    intro eq
    have place_ := key_card honest (anchored.listed held inside) (stretch_listed mem) eq
    have high := anchored.high held inside
    have low := cardsFrom_bounds mem
    rw [length_take, length_drop] at low
    omega
  obtain ⟨first, startThere⟩ : ∃ first, server.items[start]? = some first :=
    ⟨_, List.getElem?_eq_getElem (show start < server.items.length by omega)⟩
  have headIs : ((server.items.drop start).take (count + 1)).head? = some first := by
    rw [List.head?_eq_getElem?, page_getElem?, if_pos (Nat.zero_lt_succ _), Nat.add_zero]
    exact startThere
  have shape : readOnBehind server.sid hidden server.list server.many lane = .ok { lane with
      rows := cardsFrom server.sid ((server.items.drop start).take count) start ++ lane.rows
      head := ⟨start, first.key⟩
      total := if 0 < (server.total : Int) then (server.total : Int).toNat else lane.total } := by
    unfold readOnBehind
    rw [anchored.scan]
    simp only [startIs, countIs, readPage_list]
    change (anchorBehind server.list lane _ start (count + 1)).map _ = _
    rw [kept]
    simp only [Except.map, if_true, prependPage, cards, row_cards shows, unheld, headIs]
    rw [anchored.scan]
    rfl
  refine ⟨_, shape, rfl, ⟨anchored.scan, ⟨_, startThere, rfl⟩, ?_, ?_⟩, ⟨rfl, rfl, rfl⟩⟩
  · refine forall_mem_append.mpr ⟨fun row mem => (cardsFrom_bounds mem).1, ?_⟩
    intro row mem
    have high := anchored.high row mem
    change start ≤ row.position
    omega
  · exact forall_mem_append.mpr ⟨fun row mem => stretch_listed mem, anchored.listed⟩

theorem hasBefore_eq (anchored : Anchored server lane) : lane.hasBefore = decide (0 < lane.head.position) := by
  rw [Lane.hasBefore, anchored.scan]

theorem GrownBehind.behind {lane' : Lane} {fresh : List CwItem} (grown : GrownBehind lane lane' fresh)
    (past : ∀ row ∈ fresh, row.position < lane.lo) : lane'.behind = fresh.length + lane.behind := by
  rw [Lane.behind, grown.rows, grown.lo, filter_append, length_append]
  congr 1
  exact congrArg List.length (filter_eq_self.mpr (fun row mem => decide_eq_true (past row mem)))

theorem readBehindWithin_spec (honest : Honest hidden server) (n left : Nat) (lane : Lane) (anchored : Anchored server lane) :
    ∃ lane' fresh, readBehindWithin server.sid hidden server.list server.many n left lane = .ok lane' ∧
      GrownBehind lane lane' fresh ∧ Anchored server lane' ∧
      server.upto lane'.head.position ++ fresh = server.upto lane.head.position ∧
      (lane.head.position ≤ lane.lo → n ≤ lane.behind + page * left → lane'.hasBefore = false ∨ n ≤ lane'.behind) := by
  induction left generalizing lane with
  | zero => exact ⟨lane, [], rfl, .refl lane, anchored, append_nil _, fun _ enough => .inr (by simpa using enough)⟩
  | succ left ih =>
    unfold readBehindWithin
    split
    · rename_i wants
      rw [hasBefore_eq anchored, Bool.and_eq_true, decide_eq_true_eq, decide_eq_true_eq] at wants
      obtain ⟨read, reading, head, moved, grown⟩ := readOnBehind_spec honest anchored wants.1
      obtain ⟨final, later, going, further, final_, whole, stocked⟩ := ih read moved
      obtain ⟨item, there, -⟩ := anchored.there
      have bound := (List.getElem?_eq_some_iff.mp there).1
      refine ⟨final, _, ?_, grown.trans further, final_, ?_, ?_⟩
      · rw [reading]
        exact going
      · rw [← append_assoc, whole, head]
        exact upto_split server (Nat.sub_le ..) bound.le
      · intro low enough
        have past : ∀ row ∈ cardsFrom server.sid
            ((server.items.drop (lane.head.position - page)).take (lane.head.position - (lane.head.position - page)))
            (lane.head.position - page), row.position < lane.lo := by
          intro row mem
          have inside := cardsFrom_bounds mem
          rw [length_take, length_drop] at inside
          omega
        have count := grown.behind past
        rw [cardsFrom_length, length_take, length_drop] at count
        have pageIs : page = 12 := rfl
        by_cases full : page ≤ lane.head.position
        · apply stocked
          · rw [head, grown.lo]
            omega
          · rw [Nat.mul_succ] at enough
            omega
        · left
          have started : read.head.position = 0 := by omega
          cases left with
          | zero =>
            cases going
            rw [hasBefore_eq moved, started]
            rfl
          | succ left =>
            rw [readBehindWithin, hasBefore_eq moved, started] at going
            simp only [Nat.lt_irrefl, decide_false, Bool.false_and, Bool.false_eq_true, if_false, Except.ok.injEq] at going
            subst going
            rw [hasBefore_eq moved, started]
            rfl
    · rename_i still
      refine ⟨lane, [], rfl, .refl lane, anchored, append_nil _, fun _ _ => ?_⟩
      simp only [Bool.and_eq_true, decide_eq_true_eq, not_and] at still
      cases before : lane.hasBefore with
      | false => exact .inl rfl
      | true => exact .inr (Nat.le_of_not_lt (still before))

end
end PlxNative.Deck
