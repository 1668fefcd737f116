import PlxNative.Deck.Building

/-! Walking the deck forward: every ask is a stride over the sort of all the servers' cards. -/
namespace PlxNative.Deck
open List Server
open ViewState (ServerId)
open Paging (maxShelfItems requestsPerAsk hubFetchCount)

def window (lanes : List Lane) : List CwItem := (mergeDeck lanes).cards.map Prod.snd

def sources (servers : List Server) : List Source := servers.map source

def asks (hidden : List Int) (servers : List Server) (forward : Bool) (lanes : List Lane) : Nat → List Lane
  | 0 => lanes
  | k + 1 => (ask hidden (sources servers) forward (asks hidden servers forward lanes k)).lanes

def walk (hidden : List Int) (servers : List Server) : Nat → List Lane := asks hidden servers true (placed servers)

/-- The cards in order of first appearance. -/
def appeared (hidden : List Int) (servers : List Server) : Nat → List CwItem
  | 0 => window (walk hidden servers 0)
  | k + 1 => appeared hidden servers k ++
      (window (walk hidden servers (k + 1))).filter (fun card => card ∉ appeared hidden servers k)

section
variable {server : Server} {hidden : List Int} {lane lane' : Lane}

theorem Seat.grown {r : Reel CwItem} {sid : ServerId} {v u u' fresh : List CwItem} (seat : Seat r sid v u lane)
    (grown : Grown lane lane' fresh) (rest : fresh ++ u' = u) (rising : fresh.Pairwise (fun one two => one.position < two.position))
    (past : ∀ row ∈ fresh, lane.hi ≤ row.position ∧ ∀ held ∈ lane.rows, held.position < row.position) :
    Seat r sid v u' lane' := by
  obtain ⟨⟨b, a, held, before, after⟩, started⟩ := seat
  refine ⟨⟨b, a ++ fresh, ⟨?_, ?_, ?_, ?_, ?_, ?_⟩, before, ?_⟩, ?_⟩
  · rw [grown.rows, held.rows, append_assoc _ a]
  · rw [grown.rows]
    exact pairwise_append.mpr ⟨held.rising, rising, fun one inside two mem => (past two mem).2 one inside⟩
  · rw [grown.lo]
    exact held.before
  · rw [grown.lo, grown.hi]
    exact held.within
  · rw [grown.hi]
    exact forall_mem_append.mpr ⟨held.after, fun row mem => (past row mem).1⟩
  · rw [grown.lo, grown.hi]
    exact held.bounds
  · rw [append_assoc, rest, after]
  · rw [Started, grown.lo]
    exact started

theorem readLane_forward (honest : Honest hidden server) (follows : Follows server lane) :
    ∃ fresh, Grown lane (readLane hidden true server.source lane) fresh ∧
      Follows server (readLane hidden true server.source lane) ∧
      fresh ++ server.unread (readLane hidden true server.source lane) = server.unread lane ∧
      short true page (readLane hidden true server.source lane) = false ∧
      (∀ row ∈ fresh, lane.hi ≤ row.position ∧ ∀ held ∈ lane.rows, held.position < row.position) := by
  rcases follows with edge | ⟨empty, done, rows, hi, scan⟩
  · obtain ⟨read, fresh, reading, grown, moved, rest, stocked⟩ := readWithin_spec honest page requestsPerAsk lane edge
      (by simp [requestsPerAsk, page, hubFetchCount])
    have eq : readLane hidden true server.source lane = read := by
      have found : readAhead server.sid hidden server.list page lane = .ok read := reading
      simp only [readLane, if_true, source, found]
    rw [eq]
    refine ⟨fresh, grown, .inl moved, rest, ?_, ?_⟩
    · rcases stocked with over_ | enough
      · simp [short, over_]
      · have not_ : ¬read.ahead < page := by omega
        simp [short, not_]
    · intro row mem
      have inside : row ∈ server.from_ (lane.tail.position + 1) := rest ▸ mem_append_left _ mem
      have bound := cardsFrom_bounds inside
      have high := edge.high
      refine ⟨by omega, ?_⟩
      intro held heldIn
      have low := edge.low held heldIn
      omega
  · have eq : readLane hidden true server.source lane = lane := by
      simp [readLane, readAhead, requestsPerAsk, readWithin, done]
    rw [eq]
    exact ⟨[], .refl lane, .inr ⟨empty, done, rows, hi, scan⟩, rfl, by simp [short, done],
      fun row mem => absurd mem not_mem_nil⟩

theorem Follows.emit {row : CwItem} (follows : Follows server lane) (held : row ∈ lane.rows) :
    Follows server (lane.emit true row) := by
  rcases follows with edge | ⟨empty, done, rows, hi, scan⟩
  · left
    refine ⟨?_, ?_, ?_, ?_, ?_, ?_⟩
    · rw [emit_scan]
      exact edge.scan
    · rw [emit_tail]
      exact edge.there
    · rw [emit_rows, emit_tail]
      exact edge.low
    · have low := edge.low row held
      rw [emit_forward_hi, emit_tail]
      omega
    · rw [emit_rows, emit_tail]
      exact edge.news
    · rw [emit_done, emit_tail]
      exact edge.ended
  · rw [rows] at held
    cases held

theorem Follows.letGo {row : CwItem} (follows : Follows server lane) : Follows server (lane.letGo true row) := by
  rcases follows with edge | ⟨empty, done, rows, hi, scan⟩
  · exact .inl ⟨edge.scan, edge.there, edge.low, edge.high, edge.news, edge.ended⟩
  · exact .inr ⟨empty, done, rows, hi, scan⟩

theorem Follows.trim (follows : Follows server lane) : Follows server (lane.trim true) := by
  rcases follows with edge | ⟨empty, done, rows, hi, scan⟩
  · left
    refine ⟨?_, ?_, ?_, ?_, ?_, ?_⟩
    · rw [trim_scan]
      exact edge.scan
    · rw [trim_forward_tail]
      exact edge.there
    · rw [trim_forward_rows, trim_forward_tail]
      exact fun row mem => edge.low row (mem_filter.mp mem).1
    · rw [trim_forward_hi, trim_forward_tail]
      exact edge.high
    · rw [trim_forward_rows, trim_forward_tail]
      exact fun row mem => edge.news row (mem_filter.mp mem).1
    · rw [trim_forward_done, trim_forward_tail]
      exact edge.ended
  · right
    refine ⟨empty, ?_, ?_, ?_, ?_⟩
    · rw [trim_forward_done, done]
    · rw [trim_forward_rows, rows]
      rfl
    · rw [trim_forward_hi, hi]
    · rw [trim_scan, scan]

end
section
variable {servers : List Server} {hidden : List Int} {r : Reel CwItem} {lanes : List Lane}

def along (f : Server → Lane → List CwItem) (servers : List Server) (lanes : List Lane) (i : Nat) : List CwItem :=
  ((servers[i]?).bind (fun server => (lanes[i]?).map (f server))).getD []

variable {i : Nat} {lane : Lane}

theorem along_at (f : Server → Lane → List CwItem) {server : Server} (there : servers[i]? = some server)
    (held : lanes[i]? = some lane) : along f servers lanes i = f server lane := by
  simp [along, there, held]

abbrev unreads : List Server → List Lane → Nat → List CwItem := along unread

/-- The deck over the sort, each lane going on where its listing does. -/
structure Walking (servers : List Server) (r : Reel CwItem) (lanes : List Lane) : Prop where
  seats : ∃ v, Seats (ids servers) r v (unreads servers lanes) lanes
  follows : ∀ (i : Nat) (lane : Lane), lanes[i]? = some lane → ∀ server, servers[i]? = some server → Follows server lane

theorem Seats.server {v u : Nat → List CwItem} (seats : Seats (ids servers) r v u lanes)
    (held : lanes[i]? = some lane) : ∃ server, servers[i]? = some server ∧ Seat r server.sid (v i) (u i) lane := by
  obtain ⟨sid, there, seat⟩ := seats.id held
  rw [List.getElem?_map] at there
  obtain ⟨server, at_, rfl⟩ := Option.map_eq_some_iff.mp there
  exact ⟨server, at_, seat⟩

theorem unreads_at {server : Server} (there : servers[i]? = some server) (held : lanes[i]? = some lane) :
    unreads servers lanes i = server.unread lane := along_at unread there held

theorem Seats.unread {v u u' : Nat → List CwItem} (seats : Seats (ids servers) r v u lanes)
    (eq : ∀ (i : Nat) (lane : Lane), lanes[i]? = some lane → u i = u' i) : Seats (ids servers) r v u' lanes :=
  ⟨seats.count, fun there held => eq _ _ held ▸ seats.seat there held⟩

theorem readShort_at {forward : Bool} {lane' : Lane}
    (now : (readShort hidden (sources servers) forward lanes)[i]? = some lane') {server : Server} (there : servers[i]? = some server) :
    ∃ lane, lanes[i]? = some lane ∧ (lane' = lane ∧ short forward page lane = false ∨
      lane' = readLane hidden forward server.source lane ∧ short forward page lane = true) := by
  rw [readShort, List.getElem?_mapIdx] at now
  obtain ⟨lane, held, shape⟩ := Option.map_eq_some_iff.mp now
  refine ⟨lane, held, ?_⟩
  have wanted : i ∈ needs lanes forward page ↔ short forward page lane = true := by
    rw [needs, mem_filter, mem_range, held, Option.any_some]
    exact ⟨fun both => both.2, fun short_ => ⟨(List.getElem?_eq_some_iff.mp held).1, short_⟩⟩
  by_cases short_ : short forward page lane = true
  · right
    rw [if_pos (wanted.mpr short_), sources, List.getElem?_map, there] at shape
    exact ⟨shape.symm, short_⟩
  · left
    rw [if_neg (mt wanted.mp short_)] at shape
    exact ⟨shape.symm, Bool.eq_false_iff.mpr short_⟩

theorem readShort_length (hidden : List Int) (servers : List Server) (forward : Bool) (lanes : List Lane) :
    (readShort hidden (sources servers) forward lanes).length = lanes.length := length_mapIdx

theorem Walking.read (walking : Walking servers r lanes) (all : Servers hidden servers) :
    Walking servers r (readShort hidden (sources servers) true lanes) ∧
      ∀ (i : Nat) (lane : Lane), (readShort hidden (sources servers) true lanes)[i]? = some lane → short true page lane = false := by
  obtain ⟨v, seats⟩ := walking.seats
  have step : ∀ (i : Nat) (lane' : Lane) (server : Server), (readShort hidden (sources servers) true lanes)[i]? = some lane' →
      servers[i]? = some server → Seat r server.sid (v i) (server.unread lane') lane' ∧ Follows server lane' ∧
        short true page lane' = false := by
    intro i lane' server now there
    obtain ⟨lane, held, how⟩ := readShort_at now there
    obtain ⟨other, there', seat⟩ := seats.server held
    obtain rfl := Option.some.inj (there.symm.trans there')
    have follows := walking.follows i lane held server there
    rw [unreads_at there held] at seat
    rcases how with ⟨rfl, enough⟩ | ⟨rfl, -⟩
    · exact ⟨seat, follows, enough⟩
    · obtain ⟨fresh, grown, going, rest, enough, past⟩ :=
        readLane_forward (all.honest server (List.mem_of_getElem? there)) follows
      refine ⟨seat.grown grown rest ?_ past, going, enough⟩
      have rising : (server.unread lane).Pairwise (fun one two => one.position < two.position) := cardsFrom_rising _ _
      exact rising.sublist (List.IsPrefix.sublist ⟨_, rest⟩)
  refine ⟨⟨⟨v, (readShort_length ..).trans seats.count, ?_⟩, ?_⟩, ?_⟩
  · intro i sid lane' there now
    rw [List.getElem?_map] at there
    obtain ⟨server, at_, rfl⟩ := Option.map_eq_some_iff.mp there
    rw [unreads_at at_ now]
    exact (step i lane' server now at_).1
  · exact fun i lane' now server there => (step i lane' server now there).2.1
  · intro i lane' now
    have bound : i < (ids servers).length := by
      rw [← seats.count, ← readShort_length hidden servers true lanes]
      exact (List.getElem?_eq_some_iff.mp now).1
    rw [length_map] at bound
    exact (step i lane' servers[i] now (List.getElem?_eq_getElem bound)).2.2

theorem Walking.advance (walking : Walking servers r lanes) (dealt : Dealt (ids servers) r)
    (stocked : ∀ (i : Nat) (lane : Lane), lanes[i]? = some lane → short true page lane = false) :
    (advance lanes true page).taken = min page r.coming.length ∧
      Walking servers (r.stride page maxShelfItems) (advance lanes true page).lanes := by
  obtain ⟨v, seats⟩ := walking.seats
  have ended : ∀ (i : Nat) (lane : Lane), lanes[i]? = some lane → ends true lane = true →
      beyond true (v i) (unreads servers lanes i) = [] := by
    intro i lane held over_
    obtain ⟨server, there, -⟩ := seats.server held
    rw [unreads_at there held]
    exact (walking.follows i lane held server there).ended over_
  obtain ⟨count, moved⟩ := advance_spec dealt seats stocked ended
  have kept : ∀ (i : Nat) (lane : Lane), (Deck.advance lanes true page).lanes[i]? = some lane → ∀ server, servers[i]? = some server →
      Follows server lane ∧ unreads servers lanes i = server.unread lane := advance_all
    (fun i lane row mem keeps server there => ⟨(keeps server there).1.emit mem, by
      rw [(keeps server there).2, unread, unread, emit_tail]⟩)
    (fun i lane row mem keeps server there => ⟨(keeps server there).1.letGo, (keeps server there).2⟩)
    (fun i lane keeps server there => ⟨(keeps server there).1.trim, by
      rw [(keeps server there).2, unread, unread, trim_forward_tail]⟩)
    (fun i lane held server there => ⟨walking.follows i lane held server there, unreads_at there held⟩)
  refine ⟨count, ⟨⟨_, moved.unread ?_⟩, fun i lane held server there => (kept i lane held server there).1⟩⟩
  intro i lane held
  obtain ⟨server, there, -⟩ := moved.server held
  rw [unreads_at there held]
  exact (kept i lane held server there).2

theorem Walking.ask (walking : Walking servers r lanes) (all : Servers hidden servers) (dealt : Dealt (ids servers) r) :
    (ask hidden (sources servers) true lanes).taken = min page r.coming.length ∧
      Walking servers (r.stride page maxShelfItems) (ask hidden (sources servers) true lanes).lanes := by
  obtain ⟨read, stocked⟩ := walking.read all
  exact read.advance dealt stocked

theorem placed_walking (all : Servers hidden servers) :
    Walking servers ((whole hidden servers).stride maxShelfItems maxShelfItems) (placed servers) := by
  have dealt := whole_dealt all
  have seats : Seats (ids servers) (whole hidden servers) (fun _ => []) (unreads servers (laid servers)) (laid servers) := by
    refine ⟨by simp [laid], ?_⟩
    intro i sid lane there held
    obtain ⟨server, at_, is⟩ := laid_at all held
    rw [List.getElem?_map, at_] at there
    obtain rfl := Option.some.inj there
    rw [unreads_at at_ held]
    exact ⟨⟨[], lane.rows, is.held, rfl, is.whole.trans (everything_part all (List.mem_of_getElem? at_)).symm⟩, .inl ⟨is.fresh.1, rfl⟩⟩
  have follows : ∀ (i : Nat) (lane : Lane), (laid servers)[i]? = some lane → ∀ server, servers[i]? = some server →
      Follows server lane := by
    intro i lane held server there
    obtain ⟨other, at_, is⟩ := laid_at all held
    obtain rfl := Option.some.inj (there.symm.trans at_)
    exact is.follows
  have ready : Ready (ids servers) true maxShelfItems (List.replicate servers.length true) (fun _ => [])
      (unreads servers (laid servers)) (laid servers) := by
    refine ⟨?_, ?_, ?_⟩
    · intro i bound
      rw [laid, length_map] at bound
      simp [bound]
    · intro i lane held
      obtain ⟨server, -, is⟩ := laid_at all held
      rcases is.stocked with over_ | enough
      · simp [short, over_]
      · have not_ : ¬lane.ahead < maxShelfItems := by omega
        simp [short, not_]
    · intro i sid lane there held over_
      obtain ⟨server, at_, is⟩ := laid_at all held
      rw [unreads_at at_ held]
      exact is.follows.ended over_
  obtain ⟨-, moved⟩ := take_spec dealt seats ready
  have first : (whole hidden servers).stride maxShelfItems maxShelfItems = (whole hidden servers).gain maxShelfItems := by
    have none_ : ((whole hidden servers).gain maxShelfItems).shown.length - maxShelfItems = 0 := by
      simp only [Reel.gain, whole, nil_append, length_take]
      omega
    rw [Reel.stride, none_, Reel.lose_zero]
  rw [first, placed_eq all]
  have kept : ∀ (i : Nat) (lane : Lane), (take true (List.replicate servers.length true) maxShelfItems (laid servers)).2[i]? = some lane →
      ∀ server, servers[i]? = some server → Follows server lane ∧ unreads servers (laid servers) i = server.unread lane := take_all
    (fun i lane row mem keeps server there => ⟨(keeps server there).1.emit mem, by
      rw [(keeps server there).2, unread, unread, emit_tail]⟩)
    (fun i lane held server there => ⟨follows i lane held server there, unreads_at there held⟩)
  refine ⟨⟨fun _ => [], Seats.unread moved ?_⟩, fun i lane held server there => (kept i lane held server there).1⟩
  intro i lane held
  obtain ⟨server, there, -⟩ := Seats.server moved held
  rw [unreads_at there held]
  exact (kept i lane held server there).2

/-- Where the deck is over the sort after some forward asks. -/
def spot (hidden : List Int) (servers : List Server) (k : Nat) : Reel CwItem :=
  Reel.strides page maxShelfItems k ((whole hidden servers).stride maxShelfItems maxShelfItems)

theorem spot_whole (k : Nat) : (spot hidden servers k).whole = everything hidden servers := by
  rw [spot, Reel.whole_strides, Reel.whole_stride]
  rfl

theorem spot_first : (spot hidden servers 0).past = [] := by
  simp [spot, Reel.strides, Reel.stride, Reel.gain, whole]

theorem spot_dealt (all : Servers hidden servers) (k : Nat) : Dealt (ids servers) (spot hidden servers k) :=
  (whole_dealt all).of_whole (spot_whole k)

theorem walk_walking (all : Servers hidden servers) (k : Nat) : Walking servers (spot hidden servers k) (walk hidden servers k) := by
  induction k with
  | zero => exact placed_walking all
  | succ k ih => exact (ih.ask all (spot_dealt all k)).2

theorem Walking.window_eq (walking : Walking servers r lanes) (dealt : Dealt (ids servers) r) : window lanes = r.shown := by
  obtain ⟨v, seats⟩ := walking.seats
  exact seats.merged dealt

theorem everything_nodup (all : Servers hidden servers) : (everything hidden servers).Nodup :=
  (mergeSort_perm _ _).nodup_iff.mpr (cards_nodup all)

theorem spot_bounded (k : Nat) : (spot hidden servers k).shown.length ≤ maxShelfItems := by
  cases k with
  | zero => exact Reel.stride_bounded ..
  | succ k => exact Reel.stride_bounded ..

theorem appeared_eq (all : Servers hidden servers) (k : Nat) :
    appeared hidden servers k = (spot hidden servers k).past ++ (spot hidden servers k).shown := by
  induction k with
  | zero =>
    rw [appeared, (walk_walking all 0).window_eq (spot_dealt all 0)]
    rw [spot_first, nil_append]
  | succ k ih =>
    have nodup : (spot hidden servers k).whole.Nodup := by
      rw [spot_whole]
      exact everything_nodup all
    rw [appeared, ih, (walk_walking all (k + 1)).window_eq (spot_dealt all (k + 1))]
    have news : ((spot hidden servers k).stride page maxShelfItems).shown.filter
        (fun card => card ∉ (spot hidden servers k).past ++ (spot hidden servers k).shown) = _ :=
      Reel.stride_news (spot hidden servers k) (by decide) nodup
    have met := Reel.stride_met page maxShelfItems (spot hidden servers k)
    change _ ++ ((spot hidden servers k).stride page maxShelfItems).shown.filter _ = _
    rw [news]
    exact met.symm

theorem after_iff {lanes : List Lane} :
    (mergeDeck lanes).after = true ↔ ∃ (i : Nat) (lane : Lane), lanes[i]? = some lane ∧ (lane.done = false ∨ 0 < lane.ahead) := by
  simp only [mergeDeck, any_eq_true, Bool.or_eq_true, Bool.not_eq_eq_eq_not, decide_eq_true_eq]
  constructor
  · rintro ⟨lane, mem, either⟩
    obtain ⟨i, held⟩ := List.getElem?_of_mem mem
    exact ⟨i, lane, held, either⟩
  · rintro ⟨i, lane, held, either⟩
    exact ⟨lane, List.mem_of_getElem? held, either⟩

theorem Walking.ahead_le (walking : Walking servers r lanes) (held : lanes[i]? = some lane) :
    lane.ahead ≤ r.coming.length := by
  obtain ⟨v, seats⟩ := walking.seats
  obtain ⟨server, -, ⟨b, a, seat, -, after⟩, -⟩ := seats.server held
  rw [seat.ahead_eq]
  have part_ := congrArg List.length after
  rw [length_append] at part_
  have few : (part server.sid r.coming).length ≤ r.coming.length := length_filter_le ..
  omega

theorem Walking.after_false (walking : Walking servers r lanes) (dealt : Dealt (ids servers) r)
    (over_ : (mergeDeck lanes).after = false) : r.coming = [] := by
  have still : ∀ (i : Nat) (lane : Lane), lanes[i]? = some lane → lane.done = true ∧ lane.ahead = 0 := by
    intro i lane held
    have no := mt after_iff.mpr (by rw [over_]; exact Bool.false_ne_true)
    constructor
    · cases done : lane.done with
      | true => rfl
      | false => exact absurd ⟨i, lane, held, .inl done⟩ no
    · by_contra some_
      exact no ⟨i, lane, held, .inr (Nat.pos_of_ne_zero some_)⟩
  obtain ⟨v, seats⟩ := walking.seats
  apply eq_nil_iff_forall_not_mem.mpr
  intro c mem
  obtain ⟨i, there⟩ := List.getElem?_of_mem (dealt.home c (by simp [Reel.whole, mem]))
  obtain ⟨lane, held, ⟨b, a, seat, -, after⟩, -⟩ := seats.lane there
  obtain ⟨done, none_⟩ := still i lane held
  obtain ⟨server, at_, -⟩ := seats.server held
  rw [seat.ahead_eq] at none_
  rw [length_eq_zero_iff.mp none_, unreads_at at_ held, (walking.follows i lane held server at_).ended done] at after
  have inPart : c ∈ part c.m.sid r.coming := mem_part.mpr ⟨mem, rfl⟩
  rw [← after] at inPart
  cases inPart

theorem Walking.learns (walking : Walking servers r lanes) (all : Servers hidden servers) (dealt : Dealt (ids servers) r)
    (none_ : r.coming = [])
    (held : (Deck.ask hidden (sources servers) true lanes).lanes[i]? = some lane) : lane.done = true ∧ lane.ahead = 0 := by
  have after := (walking.ask all dealt).2.ahead_le held
  rw [Reel.stride_coming, none_, drop_nil, length_nil] at after
  obtain ⟨read, stocked⟩ := walking.read all
  have done : ∀ (i : Nat) (lane : Lane), (readShort hidden (sources servers) true lanes)[i]? = some lane → lane.done = true := by
    intro i lane now
    have enough := stocked i lane now
    have few := read.ahead_le now
    rw [none_, length_nil] at few
    have short_ : lane.ahead < page := lt_of_le_of_lt few (by decide)
    simpa [short, short_] using enough
  have kept : ∀ (i : Nat) (lane : Lane), (Deck.ask hidden (sources servers) true lanes).lanes[i]? = some lane → lane.done = true :=
    advance_all (fun i lane row mem keeps => by rw [emit_done, keeps]) (fun i lane row mem keeps => by rw [letGo_done, keeps])
      (fun i lane keeps => by rw [trim_forward_done, keeps]) done
  exact ⟨kept i lane held, by omega⟩

theorem idle_ask (all : Servers hidden servers) {k : Nat} (before : (mergeDeck (walk hidden servers k)).after = true)
    (idle : (Deck.ask hidden (sources servers) true (walk hidden servers k)).taken = 0) :
    window (walk hidden servers (k + 1)) = window (walk hidden servers k) ∧
      ∃ (i : Nat) (lane lane' : Lane), (walk hidden servers k)[i]? = some lane ∧ (walk hidden servers (k + 1))[i]? = some lane' ∧
        lane.done = false ∧ lane'.done = true := by
  have walking := walk_walking all k
  have dealt := spot_dealt all k
  obtain ⟨count, next⟩ := walking.ask all dealt
  have none_ : (spot hidden servers k).coming = [] := by
    have pageIs : page = 12 := rfl
    exact length_eq_zero_iff.mp (by omega)
  constructor
  · rw [(walk_walking all (k + 1)).window_eq (spot_dealt all (k + 1)), walking.window_eq dealt]
    change ((spot hidden servers k).stride page maxShelfItems).shown = _
    have bounded : (spot hidden servers k).shown.length ≤ maxShelfItems := spot_bounded k
    rw [Reel.stride, Reel.gain_of_nil none_, Nat.sub_eq_zero_of_le bounded, Reel.lose_zero]
  · obtain ⟨i, lane, held, either⟩ := after_iff.mp before
    have few := walking.ahead_le held
    rw [none_, length_nil] at few
    have undone : lane.done = false := either.elim id (fun some_ => by omega)
    obtain ⟨v, seats⟩ := walking.seats
    obtain ⟨w, after⟩ := next.seats
    obtain ⟨sid, there, -⟩ := seats.id held
    obtain ⟨lane', now, -⟩ := after.lane there
    exact ⟨i, lane, lane', held, now, undone, (walking.learns all dealt none_ now).1⟩

theorem walk_ends (all : Servers hidden servers) : ∃ k, (mergeDeck (walk hidden servers k)).after = false := by
  have none_ : (spot hidden servers (everything hidden servers).length).coming = [] := by
    rw [spot, Reel.strides_coming, Reel.stride_coming, drop_drop]
    apply drop_eq_nil_of_le
    change (everything hidden servers).length ≤ maxShelfItems + (everything hidden servers).length * 12
    omega
  refine ⟨(everything hidden servers).length + 1, Bool.eq_false_iff.mpr ?_⟩
  intro more
  obtain ⟨i, lane, held, either⟩ := after_iff.mp more
  obtain ⟨done, empty⟩ := (walk_walking all _).learns all (spot_dealt all _) none_ held
  rcases either with undone | some_
  · rw [done] at undone
    cases undone
  · omega

end

/-- Walking the deck forward is sorting everything: the window is always a bounded run of the
sort of all the servers' cards, the cards appear in its order, no ask gains nothing but one that
only learns of an end, and the deck says it is over exactly once all of them have been shown. -/
theorem walking_forward_is_sorting {hidden : List Int} {servers : List Server} (all : Servers hidden servers) :
    (∀ k, (window (walk hidden servers k)).length ≤ maxShelfItems ∧
      window (walk hidden servers k) <:+: everything hidden servers ∧
      appeared hidden servers k <+: everything hidden servers) ∧
    (∀ k, (mergeDeck (walk hidden servers k)).after = true →
      (ask hidden (sources servers) true (walk hidden servers k)).taken = 0 →
      window (walk hidden servers (k + 1)) = window (walk hidden servers k) ∧
        ∃ (i : Nat) (lane lane' : Lane), (walk hidden servers k)[i]? = some lane ∧
          (walk hidden servers (k + 1))[i]? = some lane' ∧ lane.done = false ∧ lane'.done = true) ∧
    (∃ k, (mergeDeck (walk hidden servers k)).after = false) ∧
    (∀ k, (mergeDeck (walk hidden servers k)).after = false →
      ∀ card ∈ everything hidden servers, card ∈ appeared hidden servers k) := by
  refine ⟨?_, fun k => idle_ask all, walk_ends all, ?_⟩
  · intro k
    rw [(walk_walking all k).window_eq (spot_dealt all k), appeared_eq all k, ← spot_whole k]
    exact ⟨spot_bounded k, (spot hidden servers k).shown_within, prefix_append _ _⟩
  · intro k over_ card member
    have none_ := (walk_walking all k).after_false (spot_dealt all k) over_
    rw [← spot_whole k, Reel.whole, none_, append_nil] at member
    rw [appeared_eq all k]
    exact member

def listed (key : String) (viewed : Int) : Metadata := ⟨⟨key, "movie", "/p", "", 1⟩, viewed⟩

/-- A listing of cards viewed at regular times. -/
def regular (slot : UInt16) (count : Nat) (newest : Int) : Server :=
  ⟨⟨slot⟩, (List.range count).map (fun i => listed (toString i) (newest - i)), true, true, count⟩

theorem two_regular : Servers [] [regular 1 15 100, regular 2 14 98] := by
  refine ⟨by decide +kernel, forall_mem_cons.mpr ⟨?_, forall_mem_singleton.mpr ?_⟩⟩
  · exact ⟨by decide +kernel, by decide +kernel, by decide +kernel, by decide +kernel⟩
  · exact ⟨by decide +kernel, by decide +kernel, by decide +kernel, by decide +kernel⟩

theorem walking_forward_is_sorting_two :
    (∀ k, (window (walk [] [regular 1 15 100, regular 2 14 98] k)).length ≤ maxShelfItems) ∧
      ∃ k, (mergeDeck (walk [] [regular 1 15 100, regular 2 14 98] k)).after = false := by
  obtain ⟨bounded, -, ends_, -⟩ := walking_forward_is_sorting two_regular
  exact ⟨fun k => (bounded k).1, ends_⟩

theorem mem_window {lanes : List Lane} {c : CwItem} : c ∈ window lanes ↔ ∃ lane ∈ lanes, c ∈ lane.shown := by
  have perm : (window lanes).Perm (lanes.flatMap Lane.shown) := dealt_cards lanes ▸ (mergeSort_perm _ _).map Prod.snd
  rw [perm.mem_iff, mem_flatMap]

/-- A listing whose twenty-fourth row has an empty key. -/
def unnamed : Server :=
  ⟨⟨1⟩, (List.range 30).map (fun i => listed (if i = 23 then "" else toString i) (100 - i)), true, true, 30⟩

/-- An edge row without a key is taken for the listing's end: the deck is over with six cards it
never showed. -/
theorem unnamed_row_ends_the_deck :
    (unnamed.items.Pairwise (fun one two => two.lastViewedAt ≤ one.lastViewedAt) ∧
      (unnamed.items.map Metadata.key).Nodup ∧
      ∀ item ∈ unnamed.items, (Paging.card unnamed.sid item.toMetadata []).isSome = true) ∧
    (mergeDeck (walk [] [unnamed] 0)).after = false ∧
    ∃ card ∈ everything [] [unnamed], card ∉ appeared [] [unnamed] 0 := by
  refine ⟨⟨by decide +kernel, by decide +kernel, by decide +kernel⟩, by decide +kernel,
    cardOf ⟨1⟩ (listed "24" 76) 24, ?_, ?_⟩
  · rw [everything, (mergeSort_perm _ _).mem_iff]
    decide +kernel
  · change _ ∉ window _
    rw [mem_window]
    decide +kernel

end PlxNative.Deck
