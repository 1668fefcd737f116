import PlxNative.Deck.Backward

/-! Which walks come back: those on which no listing with a card in it was wholly passed. -/
namespace PlxNative.Deck
open List Server
open ViewState (ServerId)
open Paging (maxShelfItems requestsPerAsk hubFetchCount)

/-- The deck after some backward asks from where some forward ones left it. -/
def back (hidden : List Int) (servers : List Server) (k : Nat) : Nat → List Lane := asks hidden servers false (walk hidden servers k)

/-- The cards before the window some forward asks end with. -/
def preceding (hidden : List Int) (servers : List Server) (k : Nat) : List CwItem :=
  (appeared hidden servers k).filter (fun card => card ∉ window (walk hidden servers k))

/-- The cards in order of first appearance on the way back, each window read backward. -/
def reappeared (hidden : List Int) (servers : List Server) (k : Nat) : Nat → List CwItem
  | 0 => (window (walk hidden servers k)).reverse
  | j + 1 => reappeared hidden servers k j ++
      ((window (back hidden servers k (j + 1))).filter (fun card => card ∉ reappeared hidden servers k j)).reverse

/-- The way back shows every card again, in reverse, and ends at the first window. -/
def WaysBack (hidden : List Int) (servers : List Server) (k : Nat) : Prop :=
  (∀ j, (window (back hidden servers k j)).length ≤ maxShelfItems ∧
    window (back hidden servers k j) <:+: everything hidden servers ∧
    reappeared hidden servers k j <+: (appeared hidden servers k).reverse) ∧
  ∃ j, reappeared hidden servers k j = (appeared hidden servers k).reverse ∧
    window (back hidden servers k j) = window (walk hidden servers 0) ∧
    (mergeDeck (back hidden servers k j)).before = false

section
variable {server : Server} {hidden : List Int} {lane lane' : Lane}

/-- The lane holds rows of its listing, and its head is one of them. -/
structure Faced (server : Server) (lane : Lane) : Prop where
  scan : lane.scan = none
  listed : ∀ row ∈ lane.rows, row ∈ server.from_ 0
  empty : server.items = [] → lane.head.position = 0
  there : server.items ≠ [] → ∃ item, server.items[lane.head.position]? = some item ∧ item.key = lane.head.key

theorem Faced.fewer (faced : Faced server lane) (rows : lane'.rows ⊆ lane.rows) (head : lane'.head = lane.head)
    (scan : lane'.scan = lane.scan) : Faced server lane' := by
  refine ⟨scan.trans faced.scan, fun row mem => faced.listed row (rows mem), ?_, ?_⟩
  · rw [head]
    exact faced.empty
  · rw [head]
    exact faced.there

variable {row : CwItem}

theorem listed_there (listed : row ∈ server.from_ 0) :
    ∃ item, server.items[row.position]? = some item ∧ item.key = row.m.rk := by
  obtain ⟨item, there, is⟩ := mem_from.mp listed
  refine ⟨item, there, ?_⟩
  rw [is, cardOf_key]

theorem trim_forward_head (lane : Lane) : (∃ rest first, (lane.trim true).rows = first :: rest ∧
      (lane.trim true).head = ⟨first.position, first.m.rk⟩) ∨
    (lane.trim true).rows = [] ∧ (lane.trim true).head = lane.head := by
  unfold Lane.trim
  cases shape : lane.rows.filter (fun row => decide (lane.lo ≤ row.position)) with
  | nil => exact .inr ⟨rfl, rfl⟩
  | cons first rest => exact .inl ⟨rest, first, rfl, rfl⟩

theorem Faced.trim (faced : Faced server lane) : Faced server (lane.trim true) := by
  have fewer : (lane.trim true).rows ⊆ lane.rows := by
    rw [trim_forward_rows]
    exact filter_subset_self _
  rcases trim_forward_head lane with ⟨rest, first, rows, head⟩ | ⟨-, head⟩
  · have mem : first ∈ (lane.trim true).rows := rows ▸ mem_cons_self ..
    have listed := faced.listed first (fewer mem)
    obtain ⟨item, there, key⟩ := listed_there listed
    refine ⟨(trim_scan ..).trans faced.scan, fun row inside => faced.listed row (fewer inside), ?_, ?_⟩
    · intro empty
      rw [empty] at there
      cases there
    · intro _
      rw [head]
      exact ⟨item, there, key⟩
  · exact faced.fewer fewer head (trim_scan ..)

theorem Follows.scan (follows : Follows server lane) : lane.scan = none :=
  follows.elim Edge.scan (fun empty => empty.2.2.2.2)

theorem unread_listed (mem : row ∈ server.unread lane) : row ∈ server.from_ 0 := by
  obtain ⟨at_, item, there, rfl⟩ := mem_cardsFrom mem
  apply mem_from.mpr
  rw [List.getElem?_drop] at there
  exact ⟨item, there, rfl⟩

theorem Faced.read (faced : Faced server lane) (honest : Honest hidden server) (follows : Follows server lane) :
    Faced server (readLane hidden true server.source lane) := by
  obtain ⟨fresh, grown, going, rest, -, -⟩ := readLane_forward honest follows
  refine ⟨going.scan, ?_, ?_, ?_⟩
  · rw [grown.rows]
    exact forall_mem_append.mpr ⟨faced.listed, fun row mem => unread_listed (rest ▸ mem_append_left _ mem)⟩
  · rw [grown.head]
    exact faced.empty
  · rw [grown.head]
    exact faced.there

theorem listed_empty (listed : row ∈ server.from_ 0) : server.items ≠ [] := by
  obtain ⟨item, there, -⟩ := mem_from.mp listed
  intro empty
  rw [empty] at there
  cases there

end
section
variable {servers : List Server} {hidden : List Int}

theorem walk_faced (all : Servers hidden servers) (k : Nat) : ∀ (i : Nat) (lane : Lane), (walk hidden servers k)[i]? = some lane →
    ∀ server, servers[i]? = some server → Faced server lane := by
  induction k with
  | zero =>
    change ∀ (i : Nat) (lane : Lane), (placed servers)[i]? = some lane → _
    rw [placed_eq all]
    apply take_all
    · intro i lane row _ keeps server there
      exact (keeps server there).fewer (by rw [emit_rows]; exact List.Subset.refl _) (emit_head ..) (emit_scan ..)
    · intro i lane held server there
      obtain ⟨other, at_, is⟩ := laid_at all held
      obtain rfl := Option.some.inj (there.symm.trans at_)
      refine ⟨is.follows.scan, fun row mem => is.whole ▸ mem_append_left _ mem, ?_, ?_⟩
      · intro _
        rw [is.head]
      · intro some_
        rw [is.head]
        cases shape : server.items with
        | nil => exact absurd shape some_
        | cons item rest => exact ⟨item, rfl, rfl⟩
  | succ k ih =>
    apply advance_all
    · intro i lane row _ keeps server there
      exact (keeps server there).fewer (by rw [emit_rows]; exact List.Subset.refl _) (emit_head ..) (emit_scan ..)
    · intro i lane row _ keeps server there
      exact (keeps server there).fewer (by rw [letGo_rows]; exact List.Subset.refl _) (letGo_head ..) (letGo_scan ..)
    · intro i lane keeps server there
      exact (keeps server there).trim
    · intro i lane' now server there
      obtain ⟨lane, held, how⟩ := readShort_at now there
      have faced := ih i lane held server there
      rcases how with ⟨rfl, -⟩ | ⟨rfl, -⟩
      · exact faced
      · exact faced.read (all.honest server (List.mem_of_getElem? there)) ((walk_walking all k).follows i lane held server there)

variable {k i : Nat} {lane : Lane}

theorem walk_trimmed (held : (walk hidden servers (k + 1))[i]? = some lane) : ∃ was : Lane, lane = was.trim true := by
  change ((dropExcess true _).map (Lane.trim true))[i]? = some lane at held
  rw [List.getElem?_map] at held
  obtain ⟨was, -, rfl⟩ := Option.map_eq_some_iff.mp held
  exact ⟨was, rfl⟩

theorem trimmed_behind {was : Lane} {b s a : List CwItem} (held : Held (was.trim true) b s a) : b = [] := by
  rw [← held.filter_behind]
  apply filter_eq_nil_iff.mpr
  intro row mem
  rw [trim_forward_rows, mem_filter, decide_eq_true_eq] at mem
  rw [trim_forward_lo, decide_eq_true_eq]
  omega

variable {server : Server}

theorem rows_left (all : Servers hidden servers)
    (held : (walk hidden servers (k + 1))[i]? = some lane) (there : servers[i]? = some server) (none_ : lane.rows = []) :
    part server.sid (spot hidden servers (k + 1)).shown = [] ∧ part server.sid (spot hidden servers (k + 1)).coming = [] := by
  have dealt := spot_dealt all k
  obtain ⟨read, stocked⟩ := (walk_walking all k).read all
  obtain ⟨v, seats⟩ := read.seats
  have ended : ∀ (i : Nat) (lane : Lane), (readShort hidden (sources servers) true (walk hidden servers k))[i]? = some lane →
      ends true lane = true → beyond true (v i) (unreads servers (readShort hidden (sources servers) true (walk hidden servers k)) i) = [] := by
    intro i lane now over_
    obtain ⟨other, at_, -⟩ := seats.server now
    rw [unreads_at at_ now]
    exact (read.follows i lane now other at_).ended over_
  obtain ⟨-, moved⟩ := advance_spec dealt seats stocked ended
  obtain ⟨other, at_, ⟨b, a, seat, -, after⟩, -⟩ := Seats.server moved held
  obtain rfl := Option.some.inj (there.symm.trans at_)
  have shape := seat.rows
  rw [none_] at shape
  obtain ⟨before, ahead⟩ := append_eq_nil_iff.mp shape.symm
  have shown : part server.sid ((spot hidden servers k).stride page maxShelfItems).shown = [] := (append_eq_nil_iff.mp before).2
  refine ⟨shown, ?_⟩
  change a ++ _ = part server.sid ((spot hidden servers k).stride page maxShelfItems).coming at after
  rw [ahead, nil_append, Reel.stride_coming] at after
  change part server.sid ((spot hidden servers k).coming.drop page) = []
  rw [← after]
  -- Had it more to read, its page of lookahead would be in the window.
  have own : (ids servers)[i]? = some server.sid := by rw [List.getElem?_map, there]; rfl
  obtain ⟨was, now, ⟨bWas, aWas, stood, -, afterWas⟩, -⟩ := seats.lane own
  have enough := stocked i was now
  cases over_ : was.done with
  | true => exact ended i was now over_
  | false =>
    have count : page ≤ aWas.length := by
      rw [← stood.ahead_eq]
      simpa [short, over_] using enough
    rw [← take_append_drop page (spot hidden servers k).coming, part_append, ← after] at afterWas
    have taken := append_cancel_right afterWas
    rw [taken] at count
    cases shape : part server.sid ((spot hidden servers k).coming.take page) with
    | nil =>
      rw [shape] at count
      cases count
    | cons c rest =>
      have mem : c ∈ part server.sid ((spot hidden servers k).coming.take page) := shape ▸ mem_cons_self ..
      obtain ⟨inside, sid⟩ := mem_part.mp mem
      have late : c ∈ ((spot hidden servers k).stride page maxShelfItems).shown := by
        rw [Reel.stride_shown _ (by decide)]
        exact mem_append_right _ inside
      have none_ : c ∈ part server.sid ((spot hidden servers k).stride page maxShelfItems).shown := mem_part.mpr ⟨late, sid⟩
      rw [shown] at none_
      cases none_

theorem from_getElem? (server : Server) (place : Nat) :
    (server.from_ 0)[place]? = (server.items[place]?).map (cardOf server.sid · place) := by
  rw [from_, drop_zero, cardsFrom, List.getElem?_map, List.getElem?_zipIdx, Option.map_map, Nat.zero_add]
  rfl

variable {place : Nat}

theorem upto_eq (server : Server) (bound : place ≤ server.items.length) : server.upto place = (server.from_ 0).take place := by
  have split : cardsFrom server.sid (server.items.take place ++ server.items.drop place) 0 = server.upto place ++ _ :=
    cardsFrom_append _ _ _
  rw [take_append_drop] at split
  rw [from_, drop_zero, split, take_left']
  rw [upto, cardsFrom_length, length_take, Nat.min_eq_left bound]

theorem placed_head (all : Servers hidden servers) : ∀ (i : Nat) (lane : Lane), (placed servers)[i]? = some lane → lane.head.position = 0 := by
  rw [placed_eq all]
  apply take_all
  · intro i lane row _ zero
    rw [emit_head, zero]
  · intro i lane held
    obtain ⟨server, -, is⟩ := laid_at all held
    rw [is.head]

theorem walk_returns (all : Servers hidden servers) (k : Nat)
    (held : (walk hidden servers k)[i]? = some lane) (there : servers[i]? = some server) : Returns server lane := by
  have faced := walk_faced all k i lane held server there
  by_cases empty : server.items = []
  · right
    refine ⟨empty, ?_, faced.empty empty, faced.scan⟩
    apply eq_nil_iff_forall_not_mem.mpr
    exact fun row mem => listed_empty (faced.listed row mem) empty
  · left
    refine ⟨faced.scan, faced.there empty, ?_, faced.listed⟩
    cases k with
    | zero =>
      rw [placed_head all i lane held]
      exact fun row _ => Nat.zero_le _
    | succ k =>
      obtain ⟨v, seats⟩ := (walk_walking all (k + 1)).seats
      obtain ⟨other, -, ⟨b, a, seat, -, -⟩, -⟩ := seats.server held
      obtain ⟨was, rfl⟩ := walk_trimmed held
      rcases trim_forward_head was with ⟨rest, first, rows, head⟩ | ⟨none_, -⟩
      · have rising := seat.rising
        rw [rows] at rising
        rw [rows, head]
        refine forall_mem_cons.mpr ⟨le_rfl, ?_⟩
        intro row mem
        have less := (pairwise_cons.mp rising).1 row mem
        exact Nat.le_of_lt less
      · rw [none_]
        exact fun row mem => absurd mem not_mem_nil

theorem walk_returning (all : Servers hidden servers) (k : Nat) (unpassed : ∀ server ∈ servers, server.items ≠ [] →
      part server.sid ((spot hidden servers k).shown ++ (spot hidden servers k).coming) ≠ []) :
    Returning servers (spot hidden servers k) (walk hidden servers k) := by
  have walking := walk_walking all k
  obtain ⟨v, seats⟩ := walking.seats
  refine ⟨⟨_, seats.behind ?_⟩, fun i lane held server there => walk_returns all k held there⟩
  intro i lane held
  obtain ⟨server, there, ⟨b, a, seat, before, after⟩, -⟩ := seats.server held
  have mem := List.mem_of_getElem? there
  have listing := listing_part all (spot_whole k) mem
  rw [uptos_at there held]
  have apart := part_apart server.sid (spot hidden servers k)
  rw [listing] at apart
  cases k with
  | zero =>
    rw [spot_first, part_nil] at before
    rw [(append_eq_nil_iff.mp before).1, placed_head all i lane held]
    rfl
  | succ k =>
    obtain ⟨was, rfl⟩ := walk_trimmed held
    obtain rfl := trimmed_behind seat
    rw [append_nil] at before
    rw [before]
    by_cases empty : server.items = []
    · have nothing : server.from_ 0 = [] := from_end (by simp [empty])
      rw [nothing, append_eq_nil_iff] at apart
      rw [apart.1, upto, empty, take_nil, cardsFrom_nil]
    · rcases trim_forward_head was with ⟨rest, first, rows, head⟩ | ⟨none_, -⟩
      · have shape : part server.sid ((spot hidden servers (k + 1)).shown ++ (spot hidden servers (k + 1)).coming) =
            first :: (rest ++ unreads servers (walk hidden servers (k + 1)) i) := by
          rw [part_append, ← after, ← append_assoc]
          have held := seat.rows
          rw [nil_append] at held
          rw [← held, rows, cons_append]
        rw [shape] at apart
        have place_ : (server.from_ 0)[(part server.sid (spot hidden servers (k + 1)).past).length]? = some first := by
          rw [← apart, List.getElem?_append_right le_rfl, Nat.sub_self]
          rfl
        rw [from_getElem?] at place_
        obtain ⟨item, at_, is⟩ := Option.map_eq_some_iff.mp place_
        have bound := (List.getElem?_eq_some_iff.mp at_).1
        have position : first.position = (part server.sid (spot hidden servers (k + 1)).past).length := by
          rw [← is, cardOf_position]
        rw [head]
        rw [position, upto_eq server bound.le, ← apart, take_left']
        rfl
      · obtain ⟨shown, coming⟩ := rows_left all held there none_
        have nothing := unpassed server mem empty
        rw [part_append, shown, coming] at nothing
        exact absurd rfl nothing

/-- Where the deck is over the sort on the way back. -/
def spotBack (hidden : List Int) (servers : List Server) (k j : Nat) : Reel CwItem :=
  (Reel.strides page maxShelfItems j (spot hidden servers k).turned).turned

theorem spotBack_whole (k j : Nat) : (spotBack hidden servers k j).whole = everything hidden servers := by
  rw [spotBack, Reel.whole_turned, Reel.whole_strides, Reel.whole_turned, reverse_reverse, spot_whole]

theorem spotBack_dealt (all : Servers hidden servers) (k j : Nat) : Dealt (ids servers) (spotBack hidden servers k j) :=
  (whole_dealt all).of_whole (spotBack_whole k j)

theorem back_returning (all : Servers hidden servers)
    (start : Returning servers (spot hidden servers k) (walk hidden servers k)) (j : Nat) :
    Returning servers (spotBack hidden servers k j) (back hidden servers k j) := by
  induction j with
  | zero =>
    rw [spotBack, Reel.strides, Reel.turned_turned]
    exact start
  | succ j ih =>
    have next := ih.ask all (spotBack_dealt all k j) (spotBack_whole k j)
    rw [spotBack, Reel.turned_turned] at next
    exact next

theorem spot_full (k : Nat) : (spot hidden servers k).Full maxShelfItems := by
  apply Reel.Full.strides
  rw [Reel.Full, Reel.whole_stride]
  simp [Reel.stride, Reel.gain, whole, Reel.whole]

theorem preceding_eq (all : Servers hidden servers) (k : Nat) : preceding hidden servers k = (spot hidden servers k).past := by
  have nodup : (spot hidden servers k).whole.Nodup := by
    rw [spot_whole]
    exact everything_nodup all
  rw [preceding, appeared_eq all k, (walk_walking all k).window_eq (spot_dealt all k), filter_append,
    filter_eq_self.mpr, filter_eq_nil_iff.mpr, append_nil]
  · intro c mem
    simp [mem]
  · intro c mem
    apply decide_eq_true
    exact fun shown => (nodup_append.mp (nodup_append.mp nodup).1).2.2 c mem c shown rfl

theorem reappeared_eq (all : Servers hidden servers)
    (start : Returning servers (spot hidden servers k) (walk hidden servers k)) (j : Nat) :
    reappeared hidden servers k j = (spot hidden servers k).turned.shown ++ (spot hidden servers k).turned.coming.take (j * page) := by
  have nodup : ((spot hidden servers k).turned.shown ++ (spot hidden servers k).turned.coming).Nodup := by
    have whole : (spot hidden servers k).turned.whole.Nodup := by
      rw [Reel.whole_turned, spot_whole, nodup_reverse]
      exact everything_nodup all
    rw [Reel.whole, append_assoc] at whole
    exact (nodup_append.mp whole).2.1
  induction j with
  | zero =>
    rw [reappeared, start.window_eq (spot_dealt all k), Nat.zero_mul, take_zero, append_nil]
    rfl
  | succ j ih =>
    have news : (Reel.strides page maxShelfItems (j + 1) (spot hidden servers k).turned).shown.filter (fun card => card ∉
        (spot hidden servers k).turned.shown ++ (spot hidden servers k).turned.coming.take (j * page)) = _ :=
      Reel.strides_news (spot hidden servers k).turned (by decide) nodup j
    have shown : window (back hidden servers k (j + 1)) =
        (Reel.strides page maxShelfItems (j + 1) (spot hidden servers k).turned).shown.reverse :=
      (back_returning all start (j + 1)).window_eq (spotBack_dealt all k (j + 1))
    rw [reappeared, ih, shown, filter_reverse, reverse_reverse, news, append_assoc, Nat.succ_mul, take_add]

/-- A lane that holds nothing from a place of its listing on, and reads only before it. -/
structure Gone (server : Server) (place : Nat) (lane : Lane) : Prop where
  anchored : Anchored server lane
  head : lane.head.position ≤ place
  rows : ∀ row ∈ lane.rows, row.position < place

theorem Gone.fewer {lane' : Lane} (gone : Gone server place lane)
    (rows : lane'.rows ⊆ lane.rows) (head : lane'.head = lane.head) (scan : lane'.scan = lane.scan) : Gone server place lane' := by
  refine ⟨⟨scan.trans gone.anchored.scan, head ▸ gone.anchored.there, ?_, fun row mem => gone.anchored.listed row (rows mem)⟩,
    head ▸ gone.head, fun row mem => gone.rows row (rows mem)⟩
  rw [head]
  exact fun row mem => gone.anchored.high row (rows mem)

theorem Gone.read (gone : Gone server place lane) (honest : Honest hidden server) :
    Gone server place (readLane hidden false server.source lane) := by
  obtain ⟨fresh, grown, moved, whole, -⟩ := readLane_anchored honest gone.anchored
  obtain ⟨item, there, -⟩ := gone.anchored.there
  obtain ⟨other, at_, -⟩ := moved.there
  have bound' := (List.getElem?_eq_some_iff.mp at_).1
  have head := gone.head
  have lengths := congrArg List.length whole
  rw [length_append, upto, upto, cardsFrom_length, cardsFrom_length, length_take, length_take] at lengths
  refine ⟨moved, by omega, ?_⟩
  rw [grown.rows]
  refine forall_mem_append.mpr ⟨?_, gone.rows⟩
  intro row mem
  have inside : row ∈ server.upto lane.head.position := whole ▸ mem_append_right _ mem
  have below := cardsFrom_bounds inside
  rw [length_take] at below
  omega

section
variable (all : Servers hidden servers)
include all

theorem back_gone {k i place : Nat} (there : servers[i]? = some server)
    (start : ∀ lane, (walk hidden servers k)[i]? = some lane → Gone server place lane) (j : Nat) :
    ∀ lane, (back hidden servers k j)[i]? = some lane → Gone server place lane := by
  induction j with
  | zero => exact start
  | succ j ih =>
    have kept : ∀ (m : Nat) (lane : Lane), (back hidden servers k (j + 1))[m]? = some lane → m = i → Gone server place lane :=
      advance_all
        (fun m lane row _ keeps at_ => (keeps at_).fewer (by rw [emit_rows]; exact List.Subset.refl _) (emit_head ..) (emit_scan ..))
        (fun m lane row _ keeps at_ => (keeps at_).fewer (by rw [letGo_rows]; exact List.Subset.refl _) (letGo_head ..) (letGo_scan ..))
        (fun m lane keeps at_ => (keeps at_).fewer (by rw [trim_backward_rows]; exact filter_subset_self _)
          (trim_backward_head ..) (trim_scan ..))
        (by
          rintro m lane' now rfl
          obtain ⟨lane, held, how⟩ := readShort_at now there
          have gone := ih lane held
          rcases how with ⟨rfl, -⟩ | ⟨rfl, -⟩
          · exact gone
          · exact gone.read (all.honest server (List.mem_of_getElem? there)))
    exact fun lane held => kept i lane held rfl

theorem back_returns (k j : Nat) : ∀ (i : Nat) (lane : Lane), (back hidden servers k j)[i]? = some lane →
    ∀ server, servers[i]? = some server → Returns server lane := by
  induction j with
  | zero => exact fun i lane held server there => walk_returns all k held there
  | succ j ih =>
    apply advance_all
    · intro i lane row _ keeps server there
      exact (keeps server there).fewer (by rw [emit_rows]) (emit_head ..) (emit_scan ..)
    · intro i lane row _ keeps server there
      exact (keeps server there).fewer (by rw [letGo_rows]) (letGo_head ..) (letGo_scan ..)
    · intro i lane keeps server there
      exact (keeps server there).fewer (by rw [trim_backward_rows]; exact filter_sublist) (trim_backward_head ..) (trim_scan ..)
    · intro i lane' now server there
      obtain ⟨lane, held, how⟩ := readShort_at now there
      have returns := ih i lane held server there
      rcases how with ⟨rfl, -⟩ | ⟨rfl, -⟩
      · exact returns
      · exact returns.read (all.honest server (List.mem_of_getElem? there))

theorem back_length (k j : Nat) : (back hidden servers k j).length = servers.length := by
  induction j with
  | zero =>
    obtain ⟨v, seats⟩ := (walk_walking all k).seats
    exact seats.count.trans (length_map ..)
  | succ j ih =>
    change (advance _ _ _).lanes.length = _
    rw [advance_length, readShort_length]
    exact ih

theorem gone_unshown {k i place : Nat} {c : CwItem} (there : servers[i]? = some server)
    (listed : c ∈ server.from_ 0) (at_ : c.position = place)
    (start : ∀ lane, (walk hidden servers k)[i]? = some lane → Gone server place lane) (j : Nat) :
    c ∉ window (back hidden servers k j) := by
  rw [mem_window]
  rintro ⟨lane, mem, shown⟩
  obtain ⟨m, held⟩ := List.getElem?_of_mem mem
  have bound : m < servers.length := by
    rw [← back_length all k j]
    exact (List.getElem?_eq_some_iff.mp held).1
  have other : servers[m]? = some servers[m] := List.getElem?_eq_getElem bound
  have inside := (mem_filter.mp shown).1
  have returns := back_returns all k j m lane held servers[m] other
  have own : c ∈ servers[m].from_ 0 := by
    rcases returns with anchored | ⟨-, rows, -⟩
    · exact anchored.listed c inside
    · rw [rows] at inside
      cases inside
  obtain rfl : m = i := all.at_ other there ((cardsFrom_sid own).symm.trans (cardsFrom_sid listed))
  have below := (back_gone all there start j lane held).rows c inside
  omega

end

theorem reappeared_shown {j : Nat} {c : CwItem} (mem : c ∈ reappeared hidden servers k j) :
    ∃ i ≤ j, c ∈ window (back hidden servers k i) := by
  induction j with
  | zero => exact ⟨0, le_rfl, mem_reverse.mp mem⟩
  | succ j ih =>
    rcases mem_append.mp mem with old | new
    · obtain ⟨i, le, shown⟩ := ih old
      exact ⟨i, by omega, shown⟩
    · exact ⟨j + 1, le_rfl, (mem_filter.mp (mem_reverse.mp new)).1⟩

theorem passed_gone (all : Servers hidden servers) (there : servers[i]? = some server)
    (some_ : server.items ≠ []) (passed : ∀ c ∈ server.from_ 0, c ∈ (spot hidden servers k).past) :
    ∃ place < server.items.length, ∀ lane, (walk hidden servers k)[i]? = some lane → Gone server place lane := by
  have walking := walk_walking all k
  obtain ⟨v, seats⟩ := walking.seats
  have own : (ids servers)[i]? = some server.sid := by rw [List.getElem?_map, there]; rfl
  obtain ⟨lane, held, ⟨b, a, seat, -, after⟩, -⟩ := seats.lane own
  have mem := List.mem_of_getElem? there
  have faced := walk_faced all k i lane held server there
  obtain ⟨item, at_, -⟩ := faced.there some_
  refine ⟨lane.head.position, (List.getElem?_eq_some_iff.mp at_).1, ?_⟩
  intro other held'
  obtain rfl := Option.some.inj (held.symm.trans held')
  have nodup : (spot hidden servers k).whole.Nodup := by
    rw [spot_whole]
    exact everything_nodup all
  rw [Reel.whole, append_assoc] at nodup
  have apart : part server.sid ((spot hidden servers k).shown ++ (spot hidden servers k).coming) = [] := by
    apply eq_nil_iff_forall_not_mem.mpr
    intro c inside
    obtain ⟨late, sid⟩ := mem_part.mp inside
    have listed : c ∈ server.from_ 0 := by
      rw [← everything_part all mem, ← spot_whole k]
      exact mem_part.mpr ⟨by rw [Reel.whole, append_assoc]; exact mem_append_right _ late, sid⟩
    exact (nodup_append.mp nodup).2.2 c (passed c listed) c late rfl
  rw [part_append, append_eq_nil_iff] at apart
  rw [apart.2, append_eq_nil_iff] at after
  have rows : lane.rows = [] := by
    cases k with
    | zero =>
      rw [spot_first] at passed
      cases shape : server.items with
      | nil => exact absurd shape some_
      | cons first rest =>
        have listed : cardOf server.sid first 0 ∈ server.from_ 0 := mem_from.mpr ⟨first, by rw [shape]; rfl, rfl⟩
        exact absurd (passed _ listed) not_mem_nil
    | succ k =>
      obtain ⟨was, rfl⟩ := walk_trimmed held
      rw [seat.rows, trimmed_behind seat, apart.1, after.1]
      rfl
  have returns := walk_returns all k held there
  rcases returns with anchored | ⟨empty, -⟩
  · refine ⟨anchored, le_rfl, ?_⟩
    rw [rows]
    exact fun row mem => absurd mem not_mem_nil
  · exact absurd empty some_

theorem WaysBack.unpassed (all : Servers hidden servers) (ways : WaysBack hidden servers k) :
    ∀ server ∈ servers, server.items ≠ [] → ∃ card ∈ server.cards hidden, card ∉ preceding hidden servers k := by
  rw [preceding_eq all k]
  obtain ⟨-, j, whole, -⟩ := ways
  intro server mem some_
  by_contra passed
  have every : ∀ c ∈ server.from_ 0, c ∈ (spot hidden servers k).past := by
    intro c listed
    by_contra absent
    exact passed ⟨c, (all.honest server mem).cards_eq ▸ listed, absent⟩
  obtain ⟨i, there⟩ := List.getElem?_of_mem mem
  obtain ⟨place, bound, start⟩ := passed_gone all there some_ every
  have listed : cardOf server.sid server.items[place] place ∈ server.from_ 0 :=
    mem_from.mpr ⟨_, List.getElem?_eq_getElem bound, rfl⟩
  have reached : cardOf server.sid server.items[place] place ∈ reappeared hidden servers k j := by
    rw [whole, mem_reverse, appeared_eq all k]
    exact mem_append_left _ (every _ listed)
  obtain ⟨m, -, shown⟩ := reappeared_shown reached
  exact gone_unshown all there listed rfl start m shown

end

/-- The way back shows every card again exactly when no listing with a card in it lies wholly
before the window the walk started from. -/
theorem the_way_back {hidden : List Int} {servers : List Server} (all : Servers hidden servers) (k : Nat) :
    WaysBack hidden servers k ↔ ∀ server ∈ servers, server.items ≠ [] →
      ∃ card ∈ server.cards hidden, card ∉ preceding hidden servers k := by
  rw [preceding_eq all k]
  constructor
  · rw [← preceding_eq all k]
    exact fun ways => ways.unpassed all
  · intro unpassed
    have start : Returning servers (spot hidden servers k) (walk hidden servers k) := by
      apply walk_returning all k
      intro server member some_ none_
      obtain ⟨c, listed, absent⟩ := unpassed server member some_
      rw [(all.honest server member).cards_eq] at listed
      have inside : c ∈ part server.sid (spot hidden servers k).whole := by
        rw [listing_part all (spot_whole k) member]
        exact listed
      rw [← part_apart, none_, append_nil] at inside
      exact absent (mem_part.mp inside).1
    have reverse : (appeared hidden servers k).reverse =
        (spot hidden servers k).turned.shown ++ (spot hidden servers k).turned.coming := by
      rw [appeared_eq all k, reverse_append]
      rfl
    have full : ∀ j, (spotBack hidden servers k j).Full maxShelfItems := fun j => ((spot_full k).turned.strides j).turned
    have ended : (spotBack hidden servers k (spot hidden servers k).past.length).past = [] := by
      change (Reel.strides page maxShelfItems _ (spot hidden servers k).turned).coming.reverse = []
      rw [Reel.strides_coming, drop_eq_nil_of_le, reverse_nil]
      change (spot hidden servers k).past.reverse.length ≤ (spot hidden servers k).past.length * 12
      rw [length_reverse]
      omega
    have shown := Reel.Full.first (full _) ended
    have length : (spot hidden servers k).turned.coming.length ≤ (spot hidden servers k).past.length * page := by
      change (spot hidden servers k).past.reverse.length ≤ (spot hidden servers k).past.length * 12
      rw [length_reverse]
      omega
    refine ⟨?_, (spot hidden servers k).past.length, ?_, ?_, ?_⟩
    · intro j
      rw [(back_returning all start j).window_eq (spotBack_dealt all k j), reappeared_eq all start j, reverse]
      refine ⟨?_, ?_, prefix_append_right_inj _ |>.mpr (List.take_prefix ..)⟩
      · exact le_of_eq_of_le (full j) (Nat.min_le_left ..)
      · rw [← spotBack_whole k j]
        exact Reel.shown_within _
    · rw [reappeared_eq all start, reverse, take_of_length_le length]
    · rw [(back_returning all start _).window_eq (spotBack_dealt all k _), (walk_walking all 0).window_eq (spot_dealt all 0)]
      rw [shown, Reel.Full.first (spot_full 0) spot_first, spotBack_whole, spot_whole]
    · exact (back_returning all start _).before_false all (spotBack_whole k _) ended

theorem the_way_back_two : WaysBack [] [regular 1 15 100, regular 2 14 98] 1 := by
  apply (the_way_back two_regular 1).mpr
  refine forall_mem_cons.mpr ⟨fun _ => ?_, forall_mem_singleton.mpr (fun _ => ?_)⟩
  · refine ⟨cardOf ⟨1⟩ (listed "14" 86) 14, by decide +kernel, fun member => ?_⟩
    have shown : cardOf ⟨1⟩ (listed "14" 86) 14 ∈ window (walk [] [regular 1 15 100, regular 2 14 98] 1) := by
      rw [mem_window]
      decide +kernel
    exact of_decide_eq_true (mem_filter.mp member).2 shown
  · refine ⟨cardOf ⟨2⟩ (listed "13" 85) 13, by decide +kernel, fun member => ?_⟩
    have shown : cardOf ⟨2⟩ (listed "13" 85) 13 ∈ window (walk [] [regular 1 15 100, regular 2 14 98] 1) := by
      rw [mem_window]
      decide +kernel
    exact of_decide_eq_true (mem_filter.mp member).2 shown

theorem short_and_long : Servers [] [regular 1 3 1000, regular 2 40 98] := by
  refine ⟨by decide +kernel, forall_mem_cons.mpr ⟨?_, forall_mem_singleton.mpr ?_⟩⟩
  · exact ⟨by decide +kernel, by decide +kernel, by decide +kernel, by decide +kernel⟩
  · exact ⟨by decide +kernel, by decide +kernel, by decide +kernel, by decide +kernel⟩

/-- A listing of three cards, shown first and passed by one ask, never comes back. -/
theorem passed_listing_is_lost : ¬WaysBack [] [regular 1 3 1000, regular 2 40 98] 1 := by
  intro ways
  obtain ⟨c, listed, absent⟩ := ways.unpassed short_and_long (regular 1 3 1000) (mem_cons_self ..) (by decide +kernel)
  apply absent
  have first : ∀ c ∈ (regular 1 3 1000).cards [], (∃ lane ∈ walk [] [regular 1 3 1000, regular 2 40 98] 0, c ∈ lane.shown) ∧
      ¬∃ lane ∈ walk [] [regular 1 3 1000, regular 2 40 98] 1, c ∈ lane.shown := by
    decide +kernel
  obtain ⟨shown, gone⟩ := first c listed
  refine mem_filter.mpr ⟨mem_append_left _ (mem_window.mpr shown), decide_eq_true ?_⟩
  rw [mem_window]
  exact gone

end PlxNative.Deck
