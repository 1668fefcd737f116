import PlxNative.Deck.Behind
import PlxNative.Deck.Forward

/-! The way back: every backward ask is a stride the other way, as long as every lane's head row is
where its rows begin. A listing the window has wholly passed leaves its lane without rows, and
with a head row that is not where the next rows back would be. -/
namespace PlxNative.Deck
open List
open ViewState (ServerId)
open Paging (maxShelfItems requestsPerAsk hubFetchCount)

section
variable {server : Server} {hidden : List Int} {lane : Lane} {r : Reel CwItem}

theorem Tight.before {lo : Nat} {past rest : List CwItem} (tight : Tight lo past rest)
    (rising : (past ++ rest).Pairwise (fun one two => one.position < two.position)) : ∀ c ∈ past, c.position < lo := by
  intro c mem
  rcases tight with ⟨-, none_⟩ | ⟨last, is, rfl⟩ | ⟨first, is, rfl⟩
  · rw [none_] at mem
    cases mem
  · obtain ⟨front, shape⟩ := List.getLast?_eq_some_iff.mp is
    rw [shape] at mem rising
    rcases mem_append.mp mem with before | only
    · have less := (pairwise_append.mp (pairwise_append.mp rising).1).2.2 c before last (mem_singleton_self _)
      omega
    · rw [mem_singleton.mp only]
      exact Nat.lt_succ_self _
  · exact (pairwise_append.mp rising).2.2 c mem first (List.mem_of_mem_head? is)

theorem part_apart (sid : ServerId) (r : Reel CwItem) :
    part sid r.past ++ part sid (r.shown ++ r.coming) = part sid r.whole := by
  rw [← part_append, Reel.whole, append_assoc]

/-- The lane goes back where its rows begin, or has an empty listing. -/
def Returns (server : Server) (lane : Lane) : Prop :=
  Anchored server lane ∨ server.items = [] ∧ lane.rows = [] ∧ lane.head.position = 0 ∧ lane.scan = none

theorem Returns.hasBefore (returns : Returns server lane) : lane.hasBefore = decide (0 < lane.head.position) := by
  rcases returns with anchored | ⟨-, -, -, scan⟩
  · exact hasBefore_eq anchored
  · rw [Lane.hasBefore, scan]

theorem Returns.ended (returns : Returns server lane) (over_ : lane.hasBefore = false) : server.upto lane.head.position = [] := by
  rw [returns.hasBefore, decide_eq_false_iff_not, Nat.not_lt, Nat.le_zero] at over_
  rw [over_]
  rfl

theorem readLane_anchored (honest : Honest hidden server) (anchored : Anchored server lane) :
    ∃ fresh, GrownBehind lane (readLane hidden false server.source lane) fresh ∧
      Anchored server (readLane hidden false server.source lane) ∧
      server.upto (readLane hidden false server.source lane).head.position ++ fresh = server.upto lane.head.position ∧
      (lane.head.position ≤ lane.lo → short false page (readLane hidden false server.source lane) = false) := by
  obtain ⟨read, fresh, reading, grown, moved, whole, stocked⟩ := readBehindWithin_spec honest page requestsPerAsk lane anchored
  have eq : readLane hidden false server.source lane = read := by
    have found : readBehind server.sid hidden server.list server.many page lane = .ok read := reading
    simp only [readLane, Bool.false_eq_true, if_false, Server.source, found]
  rw [eq]
  refine ⟨fresh, grown, moved, whole, fun low => ?_⟩
  rcases stocked low (by simp [requestsPerAsk, page, hubFetchCount]) with over_ | enough
  · simp [short, over_]
  · have not_ : ¬read.behind < page := by omega
    simp [short, not_]

theorem readLane_first (none_ : lane.hasBefore = false) : readLane hidden false server.source lane = lane := by
  simp [readLane, readBehind, requestsPerAsk, readBehindWithin, none_]

theorem readLane_backward (honest : Honest hidden server) (returns : Returns server lane) {u : List CwItem}
    (seat : Seat r server.sid (server.upto lane.head.position) u lane) (listing : part server.sid r.whole = server.from_ 0) :
    Seat r server.sid (server.upto (readLane hidden false server.source lane).head.position) u
        (readLane hidden false server.source lane) ∧
      Returns server (readLane hidden false server.source lane) ∧
      short false page (readLane hidden false server.source lane) = false := by
  rcases returns with anchored | ⟨empty, rows, head, scan⟩
  · obtain ⟨fresh, grown, moved, whole, stocked⟩ := readLane_anchored honest anchored
    obtain ⟨⟨b, a, held, before, after⟩, started⟩ := seat
    have rising : (part server.sid r.past ++ part server.sid (r.shown ++ r.coming)).Pairwise
        (fun one two => one.position < two.position) := by
      rw [part_apart, listing]
      exact cardsFrom_rising _ _
    have behind : ∀ row ∈ fresh, row ∈ part server.sid r.past ∧ row.position < lane.head.position := by
      intro row mem
      have inside : row ∈ server.upto lane.head.position := whole ▸ mem_append_right _ mem
      have bound := cardsFrom_bounds inside
      rw [length_take] at bound
      exact ⟨before ▸ mem_append_left _ inside, by omega⟩
    have low : ∀ row ∈ fresh, row.position < lane.lo := fun row mem => Tight.before started rising row (behind row mem).1
    have headLow : lane.head.position ≤ lane.lo := by
      obtain ⟨item, there, -⟩ := anchored.there
      have bound := (List.getElem?_eq_some_iff.mp there).1
      rcases Nat.eq_zero_or_pos lane.head.position with zero | positive
      · omega
      · have at_ : server.items[lane.head.position - 1]? = some server.items[lane.head.position - 1] :=
          List.getElem?_eq_getElem (by omega)
        have inside : cardOf server.sid server.items[lane.head.position - 1] (lane.head.position - 1) ∈
            server.upto lane.head.position := by
          refine mem_map.mpr ⟨(_, lane.head.position - 1), List.mk_mem_zipIdx_iff_getElem?.mpr ?_, rfl⟩
          rw [List.getElem?_take, if_pos (by omega)]
          exact at_
        have below := Tight.before started rising _ (before ▸ mem_append_left _ inside)
        rw [cardOf_position] at below
        omega
    refine ⟨⟨⟨fresh ++ b, a, ⟨?_, ?_, ?_, ?_, ?_, ?_⟩, ?_, after⟩, ?_⟩, .inl moved, stocked headLow⟩
    · rw [grown.rows, held.rows]
      simp
    · rw [grown.rows]
      have all : (server.upto lane.head.position).Pairwise (fun one two => one.position < two.position) := cardsFrom_rising _ _
      refine pairwise_append.mpr ⟨all.sublist (List.IsSuffix.sublist ⟨_, whole⟩), held.rising, ?_⟩
      intro one inside two mem
      have below := (behind one inside).2
      have high := anchored.high two mem
      omega
    · rw [grown.lo]
      exact forall_mem_append.mpr ⟨low, held.before⟩
    · rw [grown.lo, grown.hi]
      exact held.within
    · rw [grown.hi]
      exact held.after
    · rw [grown.lo, grown.hi]
      exact held.bounds
    · rw [← append_assoc, whole, before]
    · rw [Started, grown.lo]
      exact started
  · have none_ : lane.hasBefore = false := by
      rw [Lane.hasBefore, scan, head]
      rfl
    rw [readLane_first none_]
    exact ⟨seat, .inr ⟨empty, rows, head, scan⟩, by simp [short, none_]⟩

theorem Returns.fewer {lane' : Lane} (returns : Returns server lane) (rows : lane'.rows.Sublist lane.rows)
    (head : lane'.head = lane.head) (scan : lane'.scan = lane.scan) : Returns server lane' := by
  rcases returns with anchored | ⟨empty, none_, zero, out⟩
  · left
    refine ⟨scan.trans anchored.scan, head ▸ anchored.there, ?_, fun row mem => anchored.listed row (rows.subset mem)⟩
    rw [head]
    exact fun row mem => anchored.high row (rows.subset mem)
  · right
    rw [none_] at rows
    exact ⟨empty, sublist_nil.mp rows, head ▸ zero, scan.trans out⟩

theorem Returns.read (returns : Returns server lane) (honest : Honest hidden server) :
    Returns server (readLane hidden false server.source lane) := by
  rcases returns with anchored | ⟨empty, rows, head, scan⟩
  · obtain ⟨fresh, -, moved, -⟩ := readLane_anchored honest anchored
    exact .inl moved
  · rw [readLane_first (by rw [Lane.hasBefore, scan, head]; rfl)]
    exact .inr ⟨empty, rows, head, scan⟩

end
section
variable {servers : List Server} {hidden : List Int} {r : Reel CwItem} {lanes : List Lane}

abbrev uptos : List Server → List Lane → Nat → List CwItem := along (fun server lane => server.upto lane.head.position)

theorem uptos_at {i : Nat} {server : Server} {lane : Lane} (there : servers[i]? = some server) (held : lanes[i]? = some lane) :
    uptos servers lanes i = server.upto lane.head.position :=
  along_at (fun server lane => server.upto lane.head.position) there held

/-- The deck over the sort, each lane going back where its rows begin. -/
structure Returning (servers : List Server) (r : Reel CwItem) (lanes : List Lane) : Prop where
  seats : ∃ u, Seats (ids servers) r (uptos servers lanes) u lanes
  returns : ∀ (i : Nat) (lane : Lane), lanes[i]? = some lane → ∀ server, servers[i]? = some server → Returns server lane

theorem Seats.behind {v v' u : Nat → List CwItem} (seats : Seats (ids servers) r v u lanes)
    (eq : ∀ (i : Nat) (lane : Lane), lanes[i]? = some lane → v i = v' i) : Seats (ids servers) r v' u lanes :=
  ⟨seats.count, fun there held => eq _ _ held ▸ seats.seat there held⟩

theorem listing_part (all : Servers hidden servers) (whole : r.whole = everything hidden servers) {server : Server}
    (mem : server ∈ servers) : part server.sid r.whole = server.from_ 0 := by
  rw [whole]
  exact everything_part all mem

section
variable (returning : Returning servers r lanes)
include returning

theorem Returning.read (all : Servers hidden servers)
    (whole : r.whole = everything hidden servers) :
    Returning servers r (readShort hidden (sources servers) false lanes) ∧
      ∀ (i : Nat) (lane : Lane), (readShort hidden (sources servers) false lanes)[i]? = some lane → short false page lane = false := by
  obtain ⟨u, seats⟩ := returning.seats
  have step : ∀ (i : Nat) (lane' : Lane) (server : Server), (readShort hidden (sources servers) false lanes)[i]? = some lane' →
      servers[i]? = some server → Seat r server.sid (server.upto lane'.head.position) (u i) lane' ∧ Returns server lane' ∧
        short false page lane' = false := by
    intro i lane' server now there
    obtain ⟨lane, held, how⟩ := readShort_at now there
    obtain ⟨other, there', seat⟩ := seats.server held
    obtain rfl := Option.some.inj (there.symm.trans there')
    have returns := returning.returns i lane held server there
    rw [uptos_at there held] at seat
    rcases how with ⟨rfl, enough⟩ | ⟨rfl, -⟩
    · exact ⟨seat, returns, enough⟩
    · have mem := List.mem_of_getElem? there
      exact readLane_backward (all.honest server mem) returns seat (listing_part all whole mem)
  refine ⟨⟨⟨u, (readShort_length ..).trans seats.count, ?_⟩, ?_⟩, ?_⟩
  · intro i sid lane' there now
    rw [List.getElem?_map] at there
    obtain ⟨server, at_, rfl⟩ := Option.map_eq_some_iff.mp there
    rw [uptos_at at_ now]
    exact (step i lane' server now at_).1
  · exact fun i lane' now server there => (step i lane' server now there).2.1
  · intro i lane' now
    have bound : i < (ids servers).length := by
      rw [← seats.count, ← readShort_length hidden servers false lanes]
      exact (List.getElem?_eq_some_iff.mp now).1
    rw [length_map] at bound
    exact (step i lane' servers[i] now (List.getElem?_eq_getElem bound)).2.2

theorem Returning.advance (dealt : Dealt (ids servers) r)
    (stocked : ∀ (i : Nat) (lane : Lane), lanes[i]? = some lane → short false page lane = false) :
    Returning servers (r.turned.stride page maxShelfItems).turned (advance lanes false page).lanes := by
  obtain ⟨u, seats⟩ := returning.seats
  have ended : ∀ (i : Nat) (lane : Lane), lanes[i]? = some lane → ends false lane = true →
      beyond false (uptos servers lanes i) (u i) = [] := by
    intro i lane held over_
    obtain ⟨server, there, -⟩ := seats.server held
    have none_ : lane.hasBefore = false := by
      change (!lane.hasBefore) = true at over_
      simpa using over_
    rw [uptos_at there held, (returning.returns i lane held server there).ended none_]
    rfl
  obtain ⟨-, moved⟩ := advance_spec dealt seats stocked ended
  have kept : ∀ (i : Nat) (lane : Lane), (Deck.advance lanes false page).lanes[i]? = some lane → ∀ server, servers[i]? = some server →
      Returns server lane ∧ uptos servers lanes i = server.upto lane.head.position := advance_all
    (fun i lane row _ keeps server there => ⟨(keeps server there).1.fewer (by rw [emit_rows]) (emit_head ..) (emit_scan ..), by
      rw [(keeps server there).2, emit_head]⟩)
    (fun i lane row _ keeps server there => ⟨(keeps server there).1.fewer (by rw [letGo_rows]) (letGo_head ..) (letGo_scan ..), by
      rw [(keeps server there).2, letGo_head]⟩)
    (fun i lane keeps server there => ⟨(keeps server there).1.fewer (by rw [trim_backward_rows]; exact filter_sublist)
      (trim_backward_head ..) (trim_scan ..), by rw [(keeps server there).2, trim_backward_head]⟩)
    (fun i lane held server there => ⟨returning.returns i lane held server there, uptos_at there held⟩)
  refine ⟨⟨_, Seats.behind moved ?_⟩, fun i lane held server there => (kept i lane held server there).1⟩
  intro i lane held
  obtain ⟨server, there, -⟩ := Seats.server moved held
  rw [uptos_at there held]
  exact (kept i lane held server there).2

theorem Returning.ask (all : Servers hidden servers) (dealt : Dealt (ids servers) r)
    (whole : r.whole = everything hidden servers) :
    Returning servers (r.turned.stride page maxShelfItems).turned (ask hidden (sources servers) false lanes).lanes := by
  obtain ⟨read, stocked⟩ := returning.read all whole
  exact read.advance dealt stocked

theorem Returning.window_eq (dealt : Dealt (ids servers) r) : window lanes = r.shown := by
  obtain ⟨u, seats⟩ := returning.seats
  exact seats.merged dealt

theorem Returning.before_false (all : Servers hidden servers)
    (whole : r.whole = everything hidden servers) (none_ : r.past = []) : (mergeDeck lanes).before = false := by
  obtain ⟨u, seats⟩ := returning.seats
  apply any_eq_false.mpr
  intro lane mem
  obtain ⟨i, held⟩ := List.getElem?_of_mem mem
  obtain ⟨server, there, ⟨b, a, seat, before, -⟩, started⟩ := seats.server held
  have returns := returning.returns i lane held server there
  have inside := List.mem_of_getElem? there
  have listing := listing_part all whole inside
  rw [uptos_at there held, none_, part_nil, append_eq_nil_iff] at before
  have first : lane.head.position = 0 := by
    rcases returns with anchored | ⟨-, -, zero, -⟩
    · obtain ⟨item, at_, -⟩ := anchored.there
      have bound := (List.getElem?_eq_some_iff.mp at_).1
      have length := congrArg List.length before.1
      rw [Server.upto, cardsFrom_length, length_take, length_nil] at length
      omega
    · exact zero
  have low : lane.lo = 0 := by
    rw [Started, none_, part_nil] at started
    rcases started with ⟨zero, -⟩ | ⟨c, is, -⟩ | ⟨c, is, low⟩
    · exact zero
    · cases is
    · rw [Reel.whole, none_, nil_append] at listing
      rw [listing, Server.from_, drop_zero] at is
      cases shape : server.items with
      | nil =>
        rw [shape] at is
        cases is
      | cons item rest =>
        rw [shape, cardsFrom_cons] at is
        cases is
        exact low
  rw [returns.hasBefore, low, first]
  decide

end

end
end PlxNative.Deck
