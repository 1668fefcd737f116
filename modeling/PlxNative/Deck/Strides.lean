import PlxNative.Deck.Seats

/-! The moves of a deck that sits on one sorted sequence are strides of a window over it, in
either direction; one lemma for what each lane offers and one for what a move does to it. -/
namespace PlxNative.Deck
open List Option Lane
open ViewState (ServerId)
open Paging (maxShelfItems)

/-- A lane over its part of the sequence: `v` lies before what it holds and `u` after. -/
def Parted (r : Reel CwItem) (sid : ServerId) (v u : List CwItem) (lane : Lane) : Prop :=
  ∃ b a, Held lane b (part sid r.shown) a ∧ v ++ b = part sid r.past ∧ a ++ u = part sid r.coming

section
variable {r : Reel CwItem} {sid : ServerId} {v u : List CwItem} {lane : Lane} {forward : Bool} {c : CwItem} {rest : List CwItem}

/-- The rows a lane has read in the direction of travel. -/
def stock (forward : Bool) (lane : Lane) : Nat := if forward then lane.ahead else lane.behind

def beyond (forward : Bool) (v u : List CwItem) : List CwItem := if forward then u else v.reverse

theorem Parted.offer (seat : Parted r sid v u lane) (forward : Bool) :
    ∃ held, lane.next forward = held.head? ∧ held.length = stock forward lane ∧
      held ++ beyond forward v u = part sid (r.facing forward).coming := by
  obtain ⟨b, a, held, before, after⟩ := seat
  cases forward with
  | true => exact ⟨a, held.next_forward, held.ahead_eq.symm, after⟩
  | false =>
    refine ⟨b.reverse, held.next_backward, ?_, ?_⟩
    · rw [length_reverse]
      exact held.behind_eq.symm
    · change b.reverse ++ v.reverse = part sid r.past.reverse
      rw [part_reverse, ← before, reverse_append]

theorem Parted.oldest (seat : Parted r sid v u lane) (forward : Bool) :
    lane.oldest forward = (part sid (r.facing forward).shown).head? := by
  obtain ⟨b, a, held, -, -⟩ := seat
  cases forward with
  | true => exact held.oldest_forward
  | false =>
    change lane.oldest false = (part sid r.shown.reverse).head?
    rw [part_reverse]
    exact held.oldest_backward

theorem Parted.gain_own (seat : Parted r c.m.sid v u lane) (next : (r.facing forward).coming = c :: rest)
    (offered : (lane.next forward).isSome) : Parted (((r.facing forward).gain 1).facing forward) c.m.sid v u (lane.emit forward c) := by
  obtain ⟨b, a, held, before, after⟩ := seat
  rw [Reel.gain_one next]
  cases forward with
  | true =>
    rw [held.next_forward] at offered
    change r.coming = c :: rest at next
    rw [next, part_own] at after
    cases a with
    | nil => cases offered
    | cons first later =>
      obtain ⟨rfl, after⟩ := List.cons.inj after
      refine ⟨b, later, ?_, before, after⟩
      change Held _ b (part _ (r.shown ++ [first])) later
      rw [part_append, part_own, part_nil]
      exact held.emit_forward
  | false =>
    rw [held.next_backward] at offered
    change r.past.reverse = c :: rest at next
    have turned : (part c.m.sid r.past).reverse = c :: part c.m.sid rest := by
      rw [← part_reverse, next, part_own]
    rw [← before, reverse_append] at turned
    cases shape : b.reverse with
    | nil =>
      rw [shape] at offered
      cases offered
    | cons first later =>
      rw [shape] at turned
      obtain ⟨rfl, further⟩ := List.cons.inj turned
      have split : b = later.reverse ++ [first] := by
        rw [← reverse_reverse b, shape, reverse_cons]
      rw [split] at held
      refine ⟨later.reverse, a, ?_, ?_, ?_⟩
      · change Held _ later.reverse (part _ (r.shown.reverse ++ [first]).reverse) a
        rw [reverse_append, reverse_reverse, reverse_singleton, singleton_append, part_own]
        exact held.emit_backward
      · change v ++ later.reverse = part _ rest.reverse
        rw [part_reverse, ← further]
        simp
      · change a ++ u = part _ r.coming.reverse.reverse
        rw [reverse_reverse]
        exact after

theorem Parted.gain_other (seat : Parted r sid v u lane) (next : (r.facing forward).coming = c :: rest)
    (other : c.m.sid ≠ sid) : Parted (((r.facing forward).gain 1).facing forward) sid v u lane := by
  obtain ⟨b, a, held, before, after⟩ := seat
  rw [Reel.gain_one next]
  cases forward with
  | true =>
    change r.coming = c :: rest at next
    rw [next, part_other other] at after
    refine ⟨b, a, ?_, before, after⟩
    change Held _ b (part _ (r.shown ++ [c])) a
    rw [part_append, part_other other, part_nil, append_nil]
    exact held
  | false =>
    change r.past.reverse = c :: rest at next
    have split : r.past = rest.reverse ++ [c] := by
      rw [← reverse_reverse r.past, next, reverse_cons]
    rw [split, part_append, part_other other, part_nil, append_nil] at before
    refine ⟨b, a, ?_, before, ?_⟩
    · change Held _ b (part _ (r.shown.reverse ++ [c]).reverse) a
      rw [reverse_append, reverse_reverse, reverse_singleton, singleton_append,
        part_other other]
      exact held
    · change a ++ u = part _ r.coming.reverse.reverse
      rw [reverse_reverse]
      exact after

theorem Parted.lose_own (seat : Parted r c.m.sid v u lane) (first : (r.facing forward).shown = c :: rest) :
    Parted (((r.facing forward).lose 1).facing forward) c.m.sid v u (lane.letGo forward c) := by
  obtain ⟨b, a, held, before, after⟩ := seat
  rw [Reel.lose_one first]
  cases forward with
  | true =>
    change r.shown = c :: rest at first
    rw [first, part_own] at held
    refine ⟨b ++ [c], a, held.letGo_forward, ?_, after⟩
    change v ++ (b ++ [c]) = part _ (r.past ++ [c])
    rw [← append_assoc, before, part_append, part_own, part_nil]
  | false =>
    change r.shown.reverse = c :: rest at first
    have split : r.shown = rest.reverse ++ [c] := by
      rw [← reverse_reverse r.shown, first, reverse_cons]
    rw [split, part_append, part_own, part_nil] at held
    refine ⟨b, c :: a, held.letGo_backward, ?_, ?_⟩
    · change v ++ b = part _ r.past.reverse.reverse
      rw [reverse_reverse]
      exact before
    · change c :: a ++ u = part _ (r.coming.reverse ++ [c]).reverse
      rw [reverse_append, reverse_reverse, reverse_singleton, singleton_append,
        part_own, cons_append, after]

theorem Parted.lose_other (seat : Parted r sid v u lane) (first : (r.facing forward).shown = c :: rest)
    (other : c.m.sid ≠ sid) : Parted (((r.facing forward).lose 1).facing forward) sid v u lane := by
  obtain ⟨b, a, held, before, after⟩ := seat
  rw [Reel.lose_one first]
  cases forward with
  | true =>
    change r.shown = c :: rest at first
    rw [first, part_other other] at held
    refine ⟨b, a, held, ?_, after⟩
    change v ++ b = part _ (r.past ++ [c])
    rw [part_append, part_other other, part_nil, append_nil]
    exact before
  | false =>
    change r.shown.reverse = c :: rest at first
    have split : r.shown = rest.reverse ++ [c] := by
      rw [← reverse_reverse r.shown, first, reverse_cons]
    rw [split, part_append, part_other other, part_nil, append_nil] at held
    refine ⟨b, a, held, ?_, ?_⟩
    · change v ++ b = part _ r.past.reverse.reverse
      rw [reverse_reverse]
      exact before
    · change a ++ u = part _ (r.coming.reverse ++ [c]).reverse
      rw [reverse_append, reverse_reverse, reverse_singleton, singleton_append,
        part_other other]
      exact after

end

/-- Where a lane's window starts: after the last row it has passed, or at its next. -/
def Tight (lo : Nat) (past rest : List CwItem) : Prop :=
  lo = 0 ∧ past = [] ∨ (∃ c, past.getLast? = some c ∧ lo = c.position + 1) ∨ ∃ c, rest.head? = some c ∧ lo = c.position

def Started (r : Reel CwItem) (sid : ServerId) (lane : Lane) : Prop :=
  Tight lane.lo (part sid r.past) (part sid (r.shown ++ r.coming))

section
variable {r : Reel CwItem} {sid : ServerId} {lane : Lane} {forward : Bool} {c : CwItem} {rest : List CwItem}

theorem Started.gain_own (started : Started r c.m.sid lane) (next : (r.facing forward).coming = c :: rest) :
    Started (((r.facing forward).gain 1).facing forward) c.m.sid (lane.emit forward c) := by
  rw [Reel.gain_one next]
  cases forward with
  | true =>
    change Tight (lane.emit true c).lo (part _ r.past) (part _ (r.shown ++ [c] ++ rest))
    rw [emit_forward_lo, append_assoc, singleton_append, ← next]
    exact started
  | false =>
    refine .inr (.inr ⟨c, ?_, rfl⟩)
    change (part _ ((r.shown.reverse ++ [c]).reverse ++ r.coming.reverse.reverse)).head? = _
    rw [reverse_append, reverse_reverse, reverse_singleton, singleton_append, cons_append, part_own]
    rfl

theorem Started.lose_own (started : Started r c.m.sid lane) (first : (r.facing forward).shown = c :: rest) :
    Started (((r.facing forward).lose 1).facing forward) c.m.sid (lane.letGo forward c) := by
  rw [Reel.lose_one first]
  cases forward with
  | true =>
    refine .inr (.inl ⟨c, ?_, rfl⟩)
    change (part _ (r.past ++ [c])).getLast? = _
    rw [part_append, part_own, part_nil, List.getLast?_concat]
  | false =>
    change r.shown.reverse = c :: rest at first
    have split : r.shown = rest.reverse ++ [c] := by
      rw [← reverse_reverse r.shown, first, reverse_cons]
    change Tight lane.lo (part _ r.past.reverse.reverse) (part _ (rest.reverse ++ (r.coming.reverse ++ [c]).reverse))
    rw [reverse_reverse, reverse_append, reverse_reverse, reverse_singleton, ← append_assoc, ← split]
    exact started

theorem Started.gain_other (started : Started r sid lane) (next : (r.facing forward).coming = c :: rest)
    (other : c.m.sid ≠ sid) : Started (((r.facing forward).gain 1).facing forward) sid lane := by
  rw [Reel.gain_one next]
  cases forward with
  | true =>
    change Tight lane.lo (part _ r.past) (part _ (r.shown ++ [c] ++ rest))
    rw [append_assoc, singleton_append, ← next]
    exact started
  | false =>
    change r.past.reverse = c :: rest at next
    have split : r.past = rest.reverse ++ [c] := by
      rw [← reverse_reverse r.past, next, reverse_cons]
    unfold Started at started
    rw [split, part_append, part_other other, part_nil, append_nil] at started
    change Tight lane.lo (part _ rest.reverse) (part _ ((r.shown.reverse ++ [c]).reverse ++ r.coming.reverse.reverse))
    rw [reverse_append, reverse_reverse, reverse_singleton, singleton_append, cons_append,
      part_other other, reverse_reverse]
    exact started

theorem Started.lose_other (started : Started r sid lane) (first : (r.facing forward).shown = c :: rest)
    (other : c.m.sid ≠ sid) : Started (((r.facing forward).lose 1).facing forward) sid lane := by
  rw [Reel.lose_one first]
  cases forward with
  | true =>
    change r.shown = c :: rest at first
    unfold Started at started
    rw [first, cons_append, part_other other] at started
    change Tight lane.lo (part _ (r.past ++ [c])) (part _ (rest ++ r.coming))
    rw [part_append, part_other other, part_nil, append_nil]
    exact started
  | false =>
    change r.shown.reverse = c :: rest at first
    have split : r.shown = rest.reverse ++ [c] := by
      rw [← reverse_reverse r.shown, first, reverse_cons]
    change Tight lane.lo (part _ r.past.reverse.reverse) (part _ (rest.reverse ++ (r.coming.reverse ++ [c]).reverse))
    rw [reverse_reverse, reverse_append, reverse_reverse, reverse_singleton, ← append_assoc, ← split]
    exact started

end

/-- A lane of the deck: its part of the sequence, with its window's start where the deck's is. -/
structure Seat (r : Reel CwItem) (sid : ServerId) (v u : List CwItem) (lane : Lane) : Prop where
  parted : Parted r sid v u lane
  started : Started r sid lane

section
variable {ids : List ServerId} {r : Reel CwItem} {v u : Nat → List CwItem} {lanes : List Lane} {forward : Bool}

/-- A sorted sequence of the cards of some servers. -/
structure Dealt (ids : List ServerId) (r : Reel CwItem) : Prop where
  distinct : ids.Nodup
  home : ∀ c ∈ r.whole, c.m.sid ∈ ids
  sorted : Sorted r.whole

theorem Dealt.of_whole {other : Reel CwItem} (dealt : Dealt ids r) (eq : other.whole = r.whole) : Dealt ids other := by
  refine ⟨dealt.distinct, ?_, ?_⟩
  · rw [eq]
    exact dealt.home
  · rw [eq]
    exact dealt.sorted

theorem better_self (forward : Bool) (c : CwItem) : better forward c c = false := by
  cases forward <;> simp [better, order_self]

theorem better_of_lt {one two : CwItem} (less : order one two = .lt) : better true one two = true ∧ better true two one = false := by
  have more := order_gt_iff.mpr less
  constructor
  · simp [better, less]
  · simp [better, more]

theorem better_of_gt {one two : CwItem} (less : order one two = .lt) :
    better false two one = true ∧ better false one two = false := by
  have more := order_gt_iff.mpr less
  constructor
  · simp [better, more]
  · simp [better, less]

theorem Dealt.ranked (dealt : Dealt ids r) (forward : Bool) :
    (r.facing forward).whole.Pairwise (fun one two => better forward one two = true ∧ better forward two one = false) := by
  cases forward with
  | true => exact dealt.sorted.imp better_of_lt
  | false =>
    rw [Reel.facing_false, Reel.whole_turned, pairwise_reverse]
    exact dealt.sorted.imp better_of_gt

theorem Dealt.home_facing (dealt : Dealt ids r) (forward : Bool) {c : CwItem} (mem : c ∈ (r.facing forward).whole) :
    c.m.sid ∈ ids := by
  cases forward with
  | true => exact dealt.home c mem
  | false =>
    rw [Reel.facing_false, Reel.whole_turned, mem_reverse] at mem
    exact dealt.home c mem

/-- Every lane sits on its part of the sequence. -/
structure Seats (ids : List ServerId) (r : Reel CwItem) (v u : Nat → List CwItem) (lanes : List Lane) : Prop where
  count : lanes.length = ids.length
  seat : ∀ {i : Nat} {sid : ServerId} {lane : Lane}, ids[i]? = some sid → lanes[i]? = some lane →
    Seat r sid (v i) (u i) lane

section
variable (seats : Seats ids r v u lanes)
include seats

theorem Seats.lane {i : Nat} {sid : ServerId} (there : ids[i]? = some sid) :
    ∃ lane, lanes[i]? = some lane ∧ Seat r sid (v i) (u i) lane := by
  have bound : i < lanes.length := seats.count ▸ (List.getElem?_eq_some_iff.mp there).1
  have held : lanes[i]? = some lanes[i] := List.getElem?_eq_getElem bound
  exact ⟨_, held, seats.seat there held⟩

theorem Seats.id {i : Nat} {lane : Lane} (there : lanes[i]? = some lane) :
    ∃ sid, ids[i]? = some sid ∧ Seat r sid (v i) (u i) lane := by
  have bound : i < ids.length := seats.count ▸ (List.getElem?_eq_some_iff.mp there).1
  have held : ids[i]? = some ids[i] := List.getElem?_eq_getElem bound
  exact ⟨_, held, seats.seat held there⟩

theorem Seats.map_eq {β : Type} (f : Lane → β) (g : ServerId → β)
    (eq : ∀ (i : Nat) (sid : ServerId) (lane : Lane), ids[i]? = some sid → lanes[i]? = some lane → f lane = g sid) : lanes.map f = ids.map g := by
  apply List.ext_getElem?
  intro i
  rw [List.getElem?_map, List.getElem?_map]
  cases there : ids[i]? with
  | none =>
    have bound : lanes.length ≤ i := seats.count ▸ List.getElem?_eq_none_iff.mp there
    rw [List.getElem?_eq_none_iff.mpr bound]
    rfl
  | some sid =>
    obtain ⟨lane, held, -⟩ := seats.lane there
    rw [held, map_some, map_some, eq i sid lane there held]

theorem Seats.shown_parts : lanes.map shown = ids.map (fun sid => part sid r.shown) := by
  apply seats.map_eq
  intro i sid lane there held
  obtain ⟨⟨b, a, seat, -⟩, -⟩ := seats.seat there held
  exact seat.shown_eq

theorem Seats.shown_perm (dealt : Dealt ids r) : (lanes.flatMap shown).Perm r.shown := by
  rw [flatMap_def, seats.shown_parts, ← flatMap_def]
  exact Contest.parts_perm dealt.distinct (fun c mem => dealt.home c (r.shown_within.subset mem))

theorem Seats.merged (dealt : Dealt ids r) : (mergeDeck lanes).cards.map Prod.snd = r.shown :=
  mergeDeck_cards (dealt.sorted.sublist r.shown_within.sublist) (seats.shown_perm dealt)

theorem Seats.shownCount (dealt : Dealt ids r) : shownCount lanes = r.shown.length := by
  rw [Deck.shownCount, ← (seats.shown_perm dealt).length_eq, length_flatMap]

theorem Seats.modify {next : Reel CwItem} {c : CwItem} {i : Nat} {change : Lane → Lane}
    (distinct : ids.Nodup) (home : ids[i]? = some c.m.sid)
    (own : ∀ lane, lanes[i]? = some lane → Seat r c.m.sid (v i) (u i) lane → Seat next c.m.sid (v i) (u i) (change lane))
    (other : ∀ sid v u lane, c.m.sid ≠ sid → Seat r sid v u lane → Seat next sid v u lane) :
    Seats ids next v u (lanes.modify i change) := by
  refine ⟨(length_modify ..).trans seats.count, ?_⟩
  intro j sid lane there held
  rw [List.getElem?_modify] at held
  by_cases eq : i = j
  · subst eq
    obtain rfl : c.m.sid = sid := Option.some.inj (home.symm.trans there)
    obtain ⟨was, stood, seat⟩ := seats.lane there
    rw [stood] at held
    simp only [Option.map_eq_map, map_some, Option.some.injEq] at held
    exact held ▸ own was stood seat
  · have kept : lanes[j]? = some lane := by simpa [eq] using held
    apply other sid _ _ lane _ (seats.seat there kept)
    intro equal
    exact eq ((List.getElem?_inj (List.getElem?_eq_some_iff.mp home).1 distinct).mp (home.trans (equal ▸ there.symm)))

end

/-- Whether the lane has nothing more to read in the direction of travel. -/
def ends (forward : Bool) (lane : Lane) : Bool := if forward then lane.done else !lane.hasBefore

theorem short_eq (forward : Bool) (n : Nat) (lane : Lane) :
    short forward n lane = (!ends forward lane && decide (stock forward lane < n)) := by
  cases forward <;> simp [short, ends, stock]

theorem blind_eq (forward : Bool) (lane : Lane) : lane.blind forward = ((lane.next forward).isNone && !ends forward lane) := by
  cases forward <;> simp [blind, ends]

@[simp] theorem ends_emit (forward : Bool) (row : CwItem) (lane : Lane) : ends forward (lane.emit forward row) = ends forward lane := by
  cases forward
  · rfl
  · simp [ends]

/-- No lane is short of the rows of a move, and one that has come to its end knows it has no more. -/
structure Ready (ids : List ServerId) (forward : Bool) (n : Nat) (usable : List Bool) (v u : Nat → List CwItem)
    (lanes : List Lane) : Prop where
  usable : ∀ i < lanes.length, usable.getD i false = true
  stocked : ∀ {i : Nat} {lane : Lane}, lanes[i]? = some lane → short forward n lane = false
  ended : ∀ {i : Nat} {sid : ServerId} {lane : Lane}, ids[i]? = some sid → lanes[i]? = some lane → ends forward lane = true →
    beyond forward (v i) (u i) = []

section
variable {n : Nat} {usable : List Bool}

section
variable (ready : Ready ids forward (n + 1) usable v u lanes)
include ready

theorem Ready.offer (seats : Seats ids r v u lanes) {i : Nat}
    {sid : ServerId} {lane : Lane} (there : ids[i]? = some sid) (held : lanes[i]? = some lane) :
    lane.next forward = (part sid (r.facing forward).coming).head? ∧ lane.blind forward = false := by
  obtain ⟨rows, next, count, whole⟩ := (seats.seat there held).parted.offer forward
  have enough := ready.stocked held
  rw [short_eq] at enough
  rw [next, ← whole, blind_eq, next]
  cases over_ : ends forward lane with
  | true =>
    rw [ready.ended there held over_, append_nil]
    exact ⟨rfl, by simp⟩
  | false =>
    cases rows with
    | nil => simp [over_, ← count] at enough
    | cons first rest => exact ⟨rfl, rfl⟩

theorem Ready.offers_eq (seats : Seats ids r v u lanes) :
    offers forward usable lanes = ids.map (fun sid => (part sid (r.facing forward).coming).head?) := by
  apply List.ext_getElem?
  intro i
  rw [offers, List.getElem?_map, List.getElem?_map, List.getElem?_zipIdx]
  cases there : ids[i]? with
  | none =>
    have bound : lanes.length ≤ i := seats.count ▸ List.getElem?_eq_none_iff.mp there
    rw [List.getElem?_eq_none_iff.mpr bound]
    rfl
  | some sid =>
    obtain ⟨lane, held, -⟩ := seats.lane there
    have marked := ready.usable i (List.getElem?_eq_some_iff.mp held).1
    rw [held]
    simp only [map_some, Nat.zero_add, marked, if_true]
    rw [(ready.offer seats there held).1]

theorem Ready.seeing (seats : Seats ids r v u lanes) :
    anyBlind forward usable lanes = false := by
  apply any_eq_false.mpr
  rintro ⟨lane, i⟩ mem
  have held : lanes[i]? = some lane := List.mk_mem_zipIdx_iff_getElem?.mp mem
  obtain ⟨sid, there, -⟩ := seats.id held
  simp [(ready.offer seats there held).2]

theorem Ready.next (seats : Seats ids r v u lanes)
    {c : CwItem} {rest : List CwItem} {i : Nat} (next : (r.facing forward).coming = c :: rest) (home : ids[i]? = some c.m.sid)
    (after : Seats ids (((r.facing forward).gain 1).facing forward) v u (lanes.modify i (emit forward c))) :
    Ready ids forward n usable v u (lanes.modify i (emit forward c)) := by
  refine ⟨?_, ?_, ?_⟩
  · rw [length_modify]
    exact ready.usable
  · intro j lane now
    have enough : ∀ {lane}, lanes[j]? = some lane → ends forward lane = true ∨ n + 1 ≤ stock forward lane := by
      intro lane held
      have := ready.stocked held
      rw [short_eq, Bool.and_eq_false_iff] at this
      simpa using this
    rw [short_eq, Bool.and_eq_false_iff]
    have moved := now
    rw [List.getElem?_modify] at moved
    by_cases eq : i = j
    · subst eq
      obtain ⟨was, stood, seat⟩ := seats.lane home
      rw [stood] at moved
      simp only [if_true, Option.map_eq_map, map_some, Option.some.injEq] at moved
      subst moved
      obtain ⟨rows, -, count, whole⟩ := seat.parted.offer forward
      obtain ⟨rowsAfter, -, countAfter, wholeAfter⟩ := (after.seat home now).parted.offer forward
      rw [Reel.facing_facing, Reel.gain_one next] at wholeAfter
      rw [next, part_own] at whole
      have lengths := congrArg List.length whole
      have lengthsAfter := congrArg List.length wholeAfter
      simp only [length_append, length_cons] at lengths lengthsAfter
      rcases enough stood with over_ | more
      · exact .inl (by rw [ends_emit, over_]; rfl)
      · refine .inr (decide_eq_false ?_)
        omega
    · have kept : lanes[j]? = some lane := by simpa [eq] using moved
      rcases enough kept with over_ | more
      · exact .inl (by rw [over_]; rfl)
      · refine .inr (decide_eq_false ?_)
        omega
  · intro j sid lane there now over_
    rw [List.getElem?_modify] at now
    by_cases eq : i = j
    · subst eq
      obtain ⟨was, stood, -⟩ := seats.lane there
      rw [stood] at now
      simp only [if_true, Option.map_eq_map, map_some, Option.some.injEq] at now
      subst now
      rw [ends_emit] at over_
      exact ready.ended there stood over_
    · exact ready.ended there (by simpa [eq] using now) over_

end

end

theorem take_spec (dealt : Dealt ids r) (seats : Seats ids r v u lanes) {n : Nat} {usable : List Bool}
    (ready : Ready ids forward n usable v u lanes) :
    (take forward usable n lanes).1 = min n (r.facing forward).coming.length ∧
      Seats ids (((r.facing forward).gain n).facing forward) v u (take forward usable n lanes).2 := by
  induction n generalizing r lanes with
  | zero =>
    rw [take, Reel.gain_zero, Reel.facing_facing, Nat.zero_min]
    exact ⟨rfl, seats⟩
  | succ n ih =>
    have offered := ready.offers_eq seats
    rw [take, ready.seeing seats, offered]
    cases coming : (r.facing forward).coming with
    | nil =>
      have nothing : pick forward (ids.map (fun sid => (part sid []).head?)) = none :=
        Contest.best_eq_none_iff.mpr (fun offer mem => by
          obtain ⟨sid, -, rfl⟩ := mem_map.mp mem
          rfl)
      rw [nothing, Reel.gain_of_nil coming, Reel.facing_facing]
      exact ⟨rfl, seats⟩
    | cons c rest =>
      have ranked := dealt.ranked forward
      rw [Reel.whole, coming] at ranked
      have later := (pairwise_cons.mp (pairwise_append.mp ranked).2.1).1
      obtain ⟨i, home⟩ := List.getElem?_of_mem (dealt.home_facing forward (c := c) (by simp [Reel.whole, coming]))
      have won : pick forward (ids.map (fun sid => (part sid (c :: rest)).head?)) = some (i, c) :=
        Contest.best_of_dealt dealt.distinct later (better_self forward c) home
      rw [won]
      have moved : Seats ids (((r.facing forward).gain 1).facing forward) v u (lanes.modify i (emit forward c)) := by
        refine seats.modify dealt.distinct home ?_ (fun sid _ _ lane other seat => ⟨seat.parted.gain_other coming other, seat.started.gain_other coming other⟩)
        intro lane held seat
        refine ⟨seat.parted.gain_own coming ?_, seat.started.gain_own coming⟩
        rw [(ready.offer seats home held).1, coming, part_own]
        rfl
      obtain ⟨count, final⟩ := ih (dealt.of_whole (Reel.whole_facing_gain ..)) moved (ready.next seats coming home moved)
      rw [Reel.facing_facing] at count final
      rw [Reel.gain_gain coming] at final
      have fewer : ((r.facing forward).gain 1).coming.length = rest.length := congrArg (fun r : Reel CwItem => r.coming.length)
        (Reel.gain_one coming)
      refine ⟨?_, final⟩
      simp only [Bool.false_eq_true, if_false]
      rw [count, fewer, length_cons]
      omega

theorem dropWithin_spec (dealt : Dealt ids r) (seats : Seats ids r v u lanes) {left : Nat}
    (enough : r.shown.length - maxShelfItems ≤ left) :
    Seats ids (((r.facing forward).lose (r.shown.length - maxShelfItems)).facing forward) v u (dropWithin forward left lanes) := by
  induction left generalizing r lanes with
  | zero =>
    rw [Nat.le_zero.mp enough, Reel.lose_zero, Reel.facing_facing]
    exact seats
  | succ left ih =>
    rw [dropWithin, seats.shownCount dealt]
    split
    · rename_i fits
      rw [Nat.sub_eq_zero_of_le fits, Reel.lose_zero, Reel.facing_facing]
      exact seats
    · have eq : (r.facing forward).shown.length = r.shown.length := by
        cases forward
        · exact length_reverse
        · rfl
      cases shape : (r.facing forward).shown with
      | nil =>
        rw [shape, length_nil] at eq
        omega
      | cons c rest =>
        have offered : lanes.map (oldest forward) = ids.map (fun sid => (part sid (c :: rest)).head?) := by
          apply seats.map_eq
          intro i sid lane there held
          rw [(seats.seat there held).parted.oldest forward, shape]
        have ranked := dealt.ranked forward
        rw [Reel.whole, shape] at ranked
        have later := (pairwise_cons.mp (pairwise_append.mp (pairwise_append.mp ranked).1).2.1).1
        obtain ⟨i, home⟩ := List.getElem?_of_mem (dealt.home_facing forward (c := c) (by simp [Reel.whole, shape]))
        have won : pick forward (ids.map (fun sid => (part sid (c :: rest)).head?)) = some (i, c) :=
          Contest.best_of_dealt dealt.distinct later (better_self forward c) home
        rw [offered, won]
        have moved : Seats ids (((r.facing forward).lose 1).facing forward) v u (lanes.modify i (letGo forward c)) :=
          seats.modify dealt.distinct home (fun lane _ seat => ⟨seat.parted.lose_own shape, seat.started.lose_own shape⟩)
            (fun sid _ _ lane other seat => ⟨seat.parted.lose_other shape other, seat.started.lose_other shape other⟩)
        have fewer : (((r.facing forward).lose 1).facing forward).shown.length = r.shown.length - 1 := by
          rw [← eq, shape, Reel.lose_one shape]
          cases forward <;> simp [Reel.turned]
        have final := ih (dealt.of_whole (Reel.whole_facing_lose ..)) moved (by omega)
        have one : r.shown.length - 1 - maxShelfItems + 1 = r.shown.length - maxShelfItems := by omega
        rw [Reel.facing_facing, fewer, Reel.lose_lose shape, one] at final
        exact final

theorem facing_shown_length (forward : Bool) (r : Reel CwItem) : (r.facing forward).shown.length = r.shown.length := by
  cases forward
  · exact length_reverse
  · rfl

theorem dropExcess_spec (forward : Bool) (dealt : Dealt ids r) (seats : Seats ids r v u lanes) :
    Seats ids (((r.facing forward).lose (r.shown.length - maxShelfItems)).facing forward) v u (dropExcess forward lanes) := by
  apply dropWithin_spec dealt seats
  rw [seats.shownCount dealt]
  exact Nat.sub_le ..

/-- What lies on the side the window came from, once the lanes have let go of it. -/
def passedOf (ids : List ServerId) (cards : List CwItem) (i : Nat) : List CwItem :=
  ((ids[i]?).map (fun sid => part sid cards)).getD []

theorem Seats.trim (seats : Seats ids r v u lanes) (forward : Bool) :
    Seats ids r (if forward then passedOf ids r.past else v) (if forward then u else passedOf ids r.coming)
      (lanes.map (trim forward)) := by
  refine ⟨length_map .. |>.trans seats.count, ?_⟩
  intro i sid lane there held
  rw [List.getElem?_map] at held
  obtain ⟨was, stood, rfl⟩ := Option.map_eq_some_iff.mp held
  obtain ⟨⟨b, a, seat, before, after⟩, started⟩ := seats.seat there stood
  cases forward with
  | true =>
    refine ⟨⟨[], a, seat.trim_forward, ?_, after⟩, ?_⟩
    · simp [passedOf, there]
    · rw [Started, trim_forward_lo]
      exact started
  | false =>
    refine ⟨⟨b, [], seat.trim_backward, before, ?_⟩, ?_⟩
    · simp [passedOf, there]
    · rw [Started, trim_backward_lo]
      exact started

theorem advance_spec (dealt : Dealt ids r) (seats : Seats ids r v u lanes) {n : Nat}
    (stocked : ∀ (i : Nat) (lane : Lane), lanes[i]? = some lane → short forward n lane = false)
    (ended : ∀ (i : Nat) (lane : Lane), lanes[i]? = some lane → ends forward lane = true → beyond forward (v i) (u i) = []) :
    (advance lanes forward n).taken = min n (r.facing forward).coming.length ∧
      Seats ids (((r.facing forward).stride n maxShelfItems).facing forward)
        (if forward then passedOf ids (((r.facing forward).stride n maxShelfItems).facing forward).past else v)
        (if forward then u else passedOf ids (((r.facing forward).stride n maxShelfItems).facing forward).coming)
        (advance lanes forward n).lanes := by
  have ready : Ready ids forward n (lanes.map (fun lane => !short forward n lane)) v u lanes := by
    refine ⟨?_, stocked _ _, fun _ => ended _ _⟩
    intro i bound
    have held : lanes[i]? = some lanes[i] := List.getElem?_eq_getElem bound
    rw [List.getD_eq_getElem?_getD, List.getElem?_map, held, map_some, getD_some, stocked i _ held]
    rfl
  obtain ⟨count, moved⟩ := take_spec dealt seats ready
  refine ⟨count, ?_⟩
  have dropped := dropExcess_spec forward (dealt.of_whole (Reel.whole_facing_gain ..)) moved
  rw [facing_shown_length, Reel.facing_facing] at dropped
  exact dropped.trim forward

theorem take_length (forward : Bool) (usable : List Bool) (n : Nat) (lanes : List Lane) :
    (take forward usable n lanes).2.length = lanes.length := by
  induction n generalizing lanes with
  | zero => rfl
  | succ n ih =>
    unfold take
    split
    · rfl
    · split
      · rfl
      · exact (ih _).trans (length_modify ..)

theorem dropWithin_length (forward : Bool) (left : Nat) (lanes : List Lane) : (dropWithin forward left lanes).length = lanes.length := by
  induction left generalizing lanes with
  | zero => rfl
  | succ left ih =>
    unfold dropWithin
    split
    · rfl
    · split
      · rfl
      · exact (ih _).trans (length_modify ..)

theorem advance_length (forward : Bool) (n : Nat) (lanes : List Lane) : (advance lanes forward n).lanes.length = lanes.length := by
  rw [advance, length_map, dropExcess, dropWithin_length, take_length]

section
variable {P : Nat → Lane → Prop}

theorem modify_all {change : Lane → Lane} {i : Nat} (all : ∀ j lane, lanes[j]? = some lane → P j lane)
    (changed : ∀ lane, lanes[i]? = some lane → P i (change lane)) :
    ∀ j lane, (lanes.modify i change)[j]? = some lane → P j lane := by
  intro j lane held
  rw [List.getElem?_modify] at held
  by_cases eq : i = j
  · subst eq
    cases stood : lanes[i]? with
    | none => simp [stood] at held
    | some was =>
      simp only [stood, Option.map_eq_map, map_some, Option.some.injEq] at held
      exact held ▸ changed was stood
  · exact all j lane (by simpa [eq] using held)

theorem take_all {usable : List Bool} {n : Nat}
    (emits : ∀ i lane row, row ∈ lane.rows → P i lane → P i (lane.emit forward row))
    (all : ∀ j lane, lanes[j]? = some lane → P j lane) :
    ∀ j lane, (take forward usable n lanes).2[j]? = some lane → P j lane := by
  induction n generalizing lanes with
  | zero => exact all
  | succ n ih =>
    unfold take
    split
    · exact all
    · split
      · exact all
      · rename_i i row won
        apply ih
        apply modify_all all
        intro lane held
        apply emits i lane row _ (all i lane held)
        have offered := Contest.best_offered won
        rw [offers, List.getElem?_map, List.getElem?_zipIdx, held] at offered
        simp only [map_some, Option.some.injEq] at offered
        split at offered
        · cases forward
          · exact mem_reverse.mp (List.mem_of_find?_eq_some offered)
          · exact List.mem_of_find?_eq_some offered
        · cases offered

theorem dropWithin_all {left : Nat} (drops : ∀ i lane row, row ∈ lane.rows → P i lane → P i (lane.letGo forward row))
    (all : ∀ j lane, lanes[j]? = some lane → P j lane) :
    ∀ j lane, (dropWithin forward left lanes)[j]? = some lane → P j lane := by
  induction left generalizing lanes with
  | zero => exact all
  | succ left ih =>
    unfold dropWithin
    split
    · exact all
    · split
      · exact all
      · rename_i i row won
        apply ih
        apply modify_all all
        intro lane held
        apply drops i lane row _ (all i lane held)
        have offered := Contest.best_offered won
        rw [List.getElem?_map, held, map_some, Option.some.injEq] at offered
        cases forward
        · exact mem_reverse.mp (List.mem_of_find?_eq_some offered)
        · exact List.mem_of_find?_eq_some offered

theorem advance_all {n : Nat} (emits : ∀ i lane row, row ∈ lane.rows → P i lane → P i (lane.emit forward row))
    (drops : ∀ i lane row, row ∈ lane.rows → P i lane → P i (lane.letGo forward row))
    (trims : ∀ i lane, P i lane → P i (lane.trim forward)) (all : ∀ j lane, lanes[j]? = some lane → P j lane) :
    ∀ j lane, (advance lanes forward n).lanes[j]? = some lane → P j lane := by
  intro j lane held
  rw [advance, List.getElem?_map] at held
  obtain ⟨was, stood, rfl⟩ := Option.map_eq_some_iff.mp held
  exact trims j was (dropWithin_all drops (take_all emits all) j was stood)

end
end
end PlxNative.Deck
