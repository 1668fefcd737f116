import PlxNative.Deck.Edges
import PlxNative.Deck.Strides

/-! The deck as it is first placed: every lane holds the head of its listing, with the rows of a
whole window read, and the deck shows the first cards of all of them. -/
namespace PlxNative.Deck
open List Bool Server
open ViewState (ServerId)
open Paging (clean card shelfCard parseItem hubFetchCount maxShelfItems requestsPerAsk)

/-- A hub of the Continue Watching answer, with its listing's size as the server has it. -/
structure Hub where
  more : Bool
  total : Nat
  metadata : List Metadata

structure SourceBuild where
  cw : List CwItem
  lane : Lane

def SourceBuild.default : SourceBuild := ⟨[], Lane.default⟩

/-- The first hub with a card in it is the deck, and its rows are the head of the lane's listing. -/
def projectDeck (sid : ServerId) : List Hub → SourceBuild
  | [] => SourceBuild.default
  | hub :: rest =>
    let cw := hub.metadata.zipIdx.filterMap (fun entry =>
      (shelfCard entry.1.toMetadata sid).map (⟨entry.1.lastViewedAt, ·, entry.2⟩))
    if cw.isEmpty then projectDeck sid rest
    else
      let key := fun item : Option Metadata => (item.map (fun item => clean item.ratingKey)).getD ""
      let more := hub.more || decide (hub.metadata.length < hub.total) || decide (hubFetchCount ≤ hub.metadata.length)
      ⟨cw, Lane.preview (key hub.metadata.head?) (key hub.metadata.getLast?) hub.metadata.length hub.total !more⟩

/-- One more page past the preview; a failed read leaves the preview. -/
def withLookahead (sid : ServerId) (list : Listing) (build : SourceBuild) : SourceBuild :=
  if build.cw.isEmpty || build.lane.done then build
  else
    let lane := { build.lane with rows := build.cw }
    { build with lane := match readAhead sid [] list maxShelfItems lane with
      | .ok read => read
      | .error _ => lane }

/-- One server of the deck, as the lanes read it. -/
structure Source where
  sid : ServerId
  list : Listing
  many : Many

/-- A read works on a copy of the lane, which a failure leaves as it was. -/
def readLane (hidden : List Int) (forward : Bool) (source : Source) (lane : Lane) : Lane :=
  match if forward then readAhead source.sid hidden source.list page lane
    else readBehind source.sid hidden source.list source.many page lane with
  | .ok read => read
  | .error _ => lane

def readShort (hidden : List Int) (sources : List Source) (forward : Bool) (lanes : List Lane) : List Lane :=
  lanes.mapIdx (fun i lane => if i ∈ needs lanes forward page
    then ((sources[i]?).map (readLane hidden forward · lane)).getD lane else lane)

/-- A move of one page: the lanes that lack rows are read, and the deck moves. -/
def ask (hidden : List Int) (sources : List Source) (forward : Bool) (lanes : List Lane) : Moved :=
  advance (readShort hidden sources forward lanes) forward page

/-- The rows asked for by key that the listing has. -/
def Server.many (server : Server) : Many := fun keys =>
  some ⟨0, 0, keys.filterMap (fun key => server.items.find? (fun item => item.key = key))⟩

def Server.source (server : Server) : Source := ⟨server.sid, server.list, server.many⟩

/-- The preview is the first page of the listing. -/
def Server.hubs (server : Server) : List Hub := [⟨server.more, server.hubTotal, server.items.take page⟩]

def Server.build (server : Server) : SourceBuild := withLookahead server.sid server.list (projectDeck server.sid server.hubs)

def placed (servers : List Server) : List Lane := place (servers.map (·.build.lane)) (servers.map (·.build.cw))

def Server.cards (hidden : List Int) (server : Server) : List CwItem :=
  server.items.zipIdx.filterMap (fun entry => row server.sid entry.1 entry.2 hidden)

def everything (hidden : List Int) (servers : List Server) : List CwItem := (servers.flatMap (Server.cards hidden)).mergeSort le

section
variable {server : Server} {hidden : List Int}

theorem row_cards {sid : ServerId} {items : List Metadata} (shows : ∀ item ∈ items, (card sid item.toMetadata hidden).isSome = true)
    (start : Nat) : (items.zipIdx start).filterMap (fun entry => row sid entry.1 entry.2 hidden) = cardsFrom sid items start := by
  induction items generalizing start with
  | nil => rfl
  | cons item rest ih =>
    obtain ⟨first, others⟩ := forall_mem_cons.mp shows
    rw [zipIdx_cons, filterMap_cons, row_eq first, ih others, cardsFrom_cons]

theorem Honest.cards_eq (honest : Honest hidden server) : server.cards hidden = server.from_ 0 :=
  row_cards honest.shows 0

theorem Honest.unhidden (honest : Honest hidden server) : Honest [] server :=
  ⟨honest.descending, honest.distinct, fun item mem => shows_unhidden (honest.shows item mem), honest.named⟩

theorem preview_cards (honest : Honest hidden server) : (server.items.take page).zipIdx.filterMap (fun entry =>
    (shelfCard entry.1.toMetadata server.sid).map (⟨entry.1.lastViewedAt, ·, entry.2⟩)) =
    cardsFrom server.sid (server.items.take page) 0 := by
  have same : (fun entry : Metadata × Nat => (shelfCard entry.1.toMetadata server.sid).map
      (fun m => (⟨entry.1.lastViewedAt, m, entry.2⟩ : CwItem))) = fun entry => row server.sid entry.1 entry.2 [] := by
    funext entry
    rw [row, card]
    cases shelfCard entry.1.toMetadata server.sid <;> rfl
  rw [same]
  exact row_cards (fun item mem => honest.unhidden.shows item (mem_of_mem_take mem)) 0

/-- The lane goes on where its listing does, or has an empty listing. -/
def Follows (server : Server) (lane : Lane) : Prop :=
  Edge server lane.tail.position lane ∨ server.items = [] ∧ lane.done = true ∧ lane.rows = [] ∧ lane.hi = 0 ∧ lane.scan = none

def Server.unread (server : Server) (lane : Lane) : List CwItem := server.from_ (lane.tail.position + 1)

theorem from_end {place : Nat} (past : server.items.length ≤ place) : server.from_ place = [] := by
  rw [from_, drop_eq_nil_of_le past, cardsFrom_nil]

theorem Follows.ended {lane : Lane} (follows : Follows server lane) (done : lane.done = true) : server.unread lane = [] := by
  apply from_end
  rcases follows with edge | ⟨empty, -⟩
  · exact (edge.ended done).le
  · simp [empty]

/-- A lane at the head of its listing, ready for the first window. -/
structure Laid (server : Server) (lane : Lane) : Prop where
  held : Held lane [] [] lane.rows
  whole : lane.rows ++ server.unread lane = server.from_ 0
  follows : Follows server lane
  stocked : lane.done = true ∨ maxShelfItems ≤ lane.ahead
  head : lane.head = ⟨0, (server.items.head?.map Metadata.key).getD ""⟩
  fresh : lane.lo = 0 ∧ lane.hi = 0 ∧ lane.reach = 0 ∧ lane.seen = []

theorem laid_of {lane : Lane} (whole : lane.rows ++ server.unread lane = server.from_ 0) (follows : Follows server lane)
    (stocked : lane.done = true ∨ maxShelfItems ≤ lane.rows.length)
    (head : lane.head = ⟨0, (server.items.head?.map Metadata.key).getD ""⟩)
    (fresh : lane.lo = 0 ∧ lane.hi = 0 ∧ lane.reach = 0 ∧ lane.seen = []) : Laid server lane := by
  have held : Held lane [] [] lane.rows := by
    refine ⟨rfl, ?_, fun row mem => absurd mem not_mem_nil, fun row mem => absurd mem not_mem_nil, ?_, ?_⟩
    · have all : (server.from_ 0).Pairwise (fun one two => one.position < two.position) := cardsFrom_rising _ _
      exact all.sublist (List.IsPrefix.sublist ⟨_, whole⟩)
    · rw [fresh.2.1]
      exact fun row _ => Nat.zero_le _
    · rw [fresh.1, fresh.2.1]
  refine ⟨held, whole, follows, ?_, head, fresh⟩
  rw [held.ahead_eq]
  exact stocked

theorem projectDeck_empty (empty : server.items = []) : projectDeck server.sid server.hubs = SourceBuild.default := by
  simp [hubs, empty, projectDeck]

theorem take_filled (some_ : server.items ≠ []) : (cardsFrom server.sid (server.items.take page) 0).isEmpty = false := by
  cases shape : server.items with
  | nil => exact absurd shape some_
  | cons item rest => rfl

theorem projectDeck_spec (honest : Honest hidden server) (some_ : server.items ≠ []) :
    ∃ done, projectDeck server.sid server.hubs = ⟨cardsFrom server.sid (server.items.take page) 0,
        Lane.preview ((server.items.head?.map Metadata.key).getD "") (((server.items.take page).getLast?.map Metadata.key).getD "")
          (server.items.take page).length server.hubTotal done⟩ ∧
      (done = true → server.items.length < page) := by
  refine ⟨!(server.more || decide ((server.items.take page).length < server.hubTotal) ||
    decide (hubFetchCount ≤ (server.items.take page).length)), ?_, ?_⟩
  · have filled := take_filled some_
    have headIs : (server.items.take page).head? = server.items.head? := by
      cases server.items <;> rfl
    simp only [hubs, projectDeck, preview_cards honest, filled, headIs]
    rfl
  · intro done
    rw [length_take] at done
    have pageIs : page = 12 := rfl
    have countIs : hubFetchCount = 12 := rfl
    simp only [not_eq_eq_eq_not, Bool.not_true, or_eq_false_iff, decide_eq_false_iff_not] at done
    omega

theorem preview_edge (honest : Honest hidden server) (some_ : server.items ≠ []) (lane : Lane)
    (rows : lane.rows = cardsFrom server.sid (server.items.take page) 0) (scan : lane.scan = none) (hi : lane.hi = 0)
    (tail : lane.tail = ⟨(server.items.take page).length - 1, ((server.items.take page).getLast?.map Metadata.key).getD ""⟩)
    (done : lane.done = true → server.items.length < page) :
    Edge server lane.tail.position lane ∧ lane.rows ++ server.unread lane = server.from_ 0 := by
  have pageIs : page = 12 := rfl
  have positive : 0 < server.items.length := length_pos_iff.mpr some_
  have taken : (server.items.take page).length = min page server.items.length := length_take ..
  obtain ⟨last, lastIs⟩ : ∃ last, (server.items.take page)[(server.items.take page).length - 1]? = some last :=
    ⟨_, List.getElem?_eq_getElem (by omega)⟩
  have place_ : lane.tail.position + 1 = 0 + (server.items.take page).length := by
    rw [tail]
    simp only
    omega
  refine ⟨⟨scan, ⟨last, ?_, ?_⟩, ?_, ?_, ?_, ?_⟩, ?_⟩
  · rw [tail]
    have inside := lastIs
    rw [List.getElem?_take] at inside
    split at inside
    · exact inside
    · cases inside
  · rw [tail]
    rw [List.getLast?_eq_getElem?, lastIs]
    rfl
  · intro row mem
    rw [rows] at mem
    have bound := cardsFrom_bounds mem
    omega
  · rw [hi]
    exact Nat.zero_le _
  · intro row mem known
    rw [rows] at mem
    have key : row.m.rk ∈ (server.items.take page).map Metadata.key := by
      rw [← cardsFrom_keys (server.items.take page) 0]
      exact mem_map_of_mem mem
    rw [place_, Nat.zero_add] at known
    have split : server.items = server.items.take page ++ server.items.drop (server.items.take page).length :=
      (prefix_iff_eq_append.mp (List.take_prefix page server.items)).symm
    have distinct := honest.distinct
    rw [split, map_append] at distinct
    exact (nodup_append.mp distinct).2.2 _ key _ known rfl
  · intro closed
    have few := done closed
    omega
  · rw [rows, unread, place_]
    exact from_split server 0 page

theorem renumbered {sid : ServerId} (items : List Metadata) (start : Nat) :
    ((cardsFrom sid items start).zipIdx start).map (fun entry =>
      if entry.1.position = 0 then { entry.1 with position := entry.2 } else entry.1) = cardsFrom sid items start := by
  induction items generalizing start with
  | nil => rfl
  | cons item rest ih =>
    rw [cardsFrom_cons, zipIdx_cons, map_cons, ih]
    split <;> rfl

theorem seat_read {lane : Lane} (preview : List CwItem) (named : lane.tail.key.isEmpty = false) (rows : lane.rows.isEmpty = false)
    (lo : lane.lo = 0) (hi : lane.hi = 0) : seat lane preview = { lane with placed := true } := by
  simp [seat, named, rows, lo, hi]

theorem build_laid (honest : Honest hidden server) :
    server.build.lane.placed = false ∧ Laid server (seat server.build.lane server.build.cw) := by
  by_cases empty : server.items = []
  · have built : server.build = SourceBuild.default := by
      rw [Server.build, projectDeck_empty empty]
      rfl
    rw [built]
    refine ⟨rfl, laid_of ?_ (.inr ⟨empty, rfl, rfl, rfl, rfl⟩) (.inl rfl) (by rw [empty]; rfl) ⟨rfl, rfl, rfl, rfl⟩⟩
    rw [unread, from_end (by simp [empty]), from_end (by simp [empty])]
    rfl
  · obtain ⟨done, projected, few⟩ := projectDeck_spec honest empty
    have filled := take_filled empty
    let preview := Lane.preview ((server.items.head?.map Metadata.key).getD "")
      (((server.items.take page).getLast?.map Metadata.key).getD "") (server.items.take page).length server.hubTotal done
    let first : Lane := { preview with rows := cardsFrom server.sid (server.items.take page) 0 }
    obtain ⟨edge, whole⟩ := preview_edge honest empty first rfl rfl rfl rfl few
    cases done with
    | true =>
      have built : server.build = ⟨cardsFrom server.sid (server.items.take page) 0, preview⟩ := by
        rw [Server.build, projected, withLookahead, if_pos (by simp [Lane.preview])]
      have seated : seat preview (cardsFrom server.sid (server.items.take page) 0) = { first with placed := true } := by
        have named : preview.tail.key.isEmpty = false := edge.named honest
        have none_ : preview.rows.isEmpty = true := rfl
        simp only [seat, named, renumbered]
        rfl
      rw [built, seated]
      exact ⟨rfl, laid_of whole (.inl ⟨edge.scan, edge.there, edge.low, edge.high, edge.news, edge.ended⟩) (.inl rfl) rfl
        ⟨rfl, rfl, rfl, rfl⟩⟩
    | false =>
      obtain ⟨read, fresh, reading, grown, moved, rest, stocked⟩ := readWithin_spec honest.unhidden maxShelfItems requestsPerAsk
        first edge (by simp [requestsPerAsk, page, hubFetchCount, maxShelfItems])
      have built : server.build = ⟨cardsFrom server.sid (server.items.take page) 0, read⟩ := by
        have found : readAhead server.sid [] server.list maxShelfItems first = .ok read := reading
        rw [Server.build, projected, withLookahead, if_neg]
        · change SourceBuild.mk _ (match readAhead server.sid [] server.list maxShelfItems first with
            | .ok read => read
            | .error _ => first) = _
          rw [found]
        · simp [filled, Lane.preview]
      have rows : read.rows.isEmpty = false := by
        rw [grown.rows]
        exact isEmpty_eq_false_iff.mpr (append_ne_nil_of_left_ne_nil (isEmpty_eq_false_iff.mp filled) _)
      rw [built, seat_read _ (moved.named honest) rows grown.lo grown.hi]
      refine ⟨grown.placed, laid_of ?_ (.inl ⟨moved.scan, moved.there, moved.low, moved.high, moved.news, moved.ended⟩) ?_ grown.head
        ⟨grown.lo, grown.hi, grown.reach, grown.seen⟩⟩
      · change read.rows ++ server.from_ (read.tail.position + 1) = server.from_ 0
        rw [grown.rows, append_assoc, rest]
        exact whole
      · rcases stocked with over_ | enough
        · exact .inl over_
        · exact .inr (enough.trans (length_filter_le ..))

end
section
variable {servers : List Server} {hidden : List Int}

/-- Servers told apart by their ids, each of an honest listing. -/
structure Servers (hidden : List Int) (servers : List Server) : Prop where
  distinct : (servers.map Server.sid).Nodup
  honest : ∀ server ∈ servers, Honest hidden server

abbrev ids (servers : List Server) : List ServerId := servers.map Server.sid

theorem Servers.at_ (all : Servers hidden servers) {i j : Nat} {one two : Server} (first : servers[i]? = some one)
    (second : servers[j]? = some two) (same : one.sid = two.sid) : i = j := by
  have left : (ids servers)[i]? = some one.sid := by rw [List.getElem?_map, first]; rfl
  have right : (ids servers)[j]? = some two.sid := by rw [List.getElem?_map, second]; rfl
  apply (List.getElem?_inj (List.getElem?_eq_some_iff.mp left).1 all.distinct).mp
  rw [left, right, same]

theorem Servers.same (all : Servers hidden servers) {one two : Server} (first : one ∈ servers) (second : two ∈ servers)
    (same : one.sid = two.sid) : one = two := by
  obtain ⟨i, left⟩ := List.getElem?_of_mem first
  obtain ⟨j, right⟩ := List.getElem?_of_mem second
  obtain rfl := all.at_ left right same
  exact Option.some.inj (left.symm.trans right)

theorem mem_everything (all : Servers hidden servers) {c : CwItem} :
    c ∈ everything hidden servers ↔ ∃ server ∈ servers, c ∈ server.from_ 0 := by
  rw [everything, (mergeSort_perm _ _).mem_iff, mem_flatMap]
  constructor
  · rintro ⟨server, mem, inside⟩
    exact ⟨server, mem, (all.honest server mem).cards_eq ▸ inside⟩
  · rintro ⟨server, mem, inside⟩
    exact ⟨server, mem, (all.honest server mem).cards_eq ▸ inside⟩

theorem card_place {server : Server} {one two : CwItem} (first : one ∈ server.from_ 0) (second : two ∈ server.from_ 0)
    (same : one.position = two.position) : one = two := by
  obtain ⟨i, item, left, rfl⟩ := mem_cardsFrom first
  obtain ⟨j, other, right, rfl⟩ := mem_cardsFrom second
  rw [cardOf_position, cardOf_position] at same
  obtain rfl : i = j := by omega
  rw [Option.some.inj (left.symm.trans right)]

section
variable (all : Servers hidden servers)
include all

theorem cards_nodup : (servers.flatMap (Server.cards hidden)).Nodup := by
  rw [nodup_flatMap]
  constructor
  · intro server mem
    rw [(all.honest server mem).cards_eq]
    exact (cardsFrom_rising _ _).imp (fun less same => by rw [same] at less; exact Nat.lt_irrefl _ less)
  · have apart : servers.Pairwise (fun one two => one.sid ≠ two.sid) := pairwise_map.mp all.distinct
    apply apart.imp_of_mem
    intro one two first second other c left right
    rw [(all.honest one first).cards_eq] at left
    rw [(all.honest two second).cards_eq] at right
    exact other ((cardsFrom_sid left).symm.trans (cardsFrom_sid right))

theorem everything_sorted : Sorted (everything hidden servers) := by
  have weak : (everything hidden servers).Pairwise (fun a b => le a b = true) := pairwise_mergeSort le_trans le_total _
  have nodup : (everything hidden servers).Nodup := (mergeSort_perm _ _).nodup_iff.mpr (cards_nodup all)
  apply (List.Pairwise.and weak nodup).imp_of_mem
  rintro a b first second ⟨below, distinct⟩
  cases how : order a b with
  | lt => rfl
  | gt =>
    rw [Deck.le, how] at below
    cases below
  | eq =>
    obtain ⟨sid, position⟩ := order_tie how
    obtain ⟨one, left, inOne⟩ := (mem_everything all).mp first
    obtain ⟨two, right, inTwo⟩ := (mem_everything all).mp second
    obtain rfl := all.same left right ((cardsFrom_sid inOne).symm.trans (sid.trans (cardsFrom_sid inTwo)))
    exact absurd (card_place inOne inTwo position) distinct

theorem everything_part {server : Server} (mem : server ∈ servers) :
    part server.sid (everything hidden servers) = server.from_ 0 := by
  have sorted : Sorted (server.from_ 0) := cardsFrom_sorted ((all.honest server mem).descending) 0
  have whole := everything_sorted all
  have ordered : Sorted (part server.sid (everything hidden servers)) := whole.sublist filter_sublist
  apply ordered.eq_of_perm sorted.weak
  have distinct : ∀ {cards : List CwItem}, Sorted cards → cards.Nodup := fun sorted =>
    sorted.imp (fun less same => by rw [same, order_self] at less; cases less)
  apply (perm_ext_iff_of_nodup (distinct ordered) (distinct sorted)).mpr
  intro c
  rw [mem_part, mem_everything all]
  constructor
  · rintro ⟨⟨other, inside, there⟩, own⟩
    obtain rfl := all.same inside mem ((cardsFrom_sid there).symm.trans own)
    exact there
  · exact fun there => ⟨⟨server, mem, there⟩, cardsFrom_sid there⟩

def whole (hidden : List Int) (servers : List Server) : Reel CwItem := ⟨[], [], everything hidden servers⟩

theorem whole_dealt : Dealt (ids servers) (whole hidden servers) := by
  refine ⟨all.distinct, ?_, everything_sorted all⟩
  intro c mem
  obtain ⟨server, inside, there⟩ := (mem_everything all).mp mem
  exact mem_map.mpr ⟨server, inside, (cardsFrom_sid there).symm⟩

end

theorem place_fresh {lanes : List Lane} {previews : List (List CwItem)} (fresh : ∀ lane ∈ lanes, lane.placed = false)
    (count : lanes.length = previews.length) : place lanes previews =
      (take true (List.replicate lanes.length true) maxShelfItems (List.zipWith seat lanes previews)).2 := by
  have every : ∀ i < lanes.length, ((lanes[i]?).any (fun lane => !lane.placed) && decide (i < previews.length)) = true := by
    intro i bound
    have held : lanes[i]? = some lanes[i] := List.getElem?_eq_getElem bound
    simp [fresh lanes[i] (getElem_mem bound), ← count, bound]
  have seated : lanes.mapIdx (fun i lane => if ((lanes[i]?).any (fun lane => !lane.placed) && decide (i < previews.length))
      then seat lane (previews.getD i []) else lane) = List.zipWith seat lanes previews := by
    apply List.ext_getElem?
    intro i
    rw [List.getElem?_mapIdx, List.getElem?_zipWith]
    by_cases bound : i < lanes.length
    · have held : lanes[i]? = some lanes[i] := List.getElem?_eq_getElem bound
      have preview : previews[i]? = some previews[i] := List.getElem?_eq_getElem (count ▸ bound)
      rw [every i bound, held, preview]
      simp [preview]
    · rw [List.getElem?_eq_none_iff.mpr (Nat.le_of_not_lt bound)]
      rfl
  simp only [place, seated]
  cases lanes with
  | nil =>
    cases previews with
    | nil => rfl
    | cons _ _ => cases count
  | cons lane rest =>
    rw [if_neg, if_pos]
    · exact all_eq_true.mpr (fun i mem => every i (mem_range.mp mem))
    · have first := every 0 (Nat.zero_lt_succ _)
      have any : (List.range (lane :: rest).length).any (fun i => ((lane :: rest)[i]?).any (fun lane => !lane.placed) &&
          decide (i < previews.length)) = true :=
        any_eq_true.mpr ⟨0, mem_range.mpr (Nat.zero_lt_succ _), first⟩
      rw [any]
      decide

/-- The lanes as the first window finds them. -/
def laid (servers : List Server) : List Lane := servers.map (fun server => seat server.build.lane server.build.cw)

theorem placed_eq (all : Servers hidden servers) : placed servers =
    (take true (List.replicate servers.length true) maxShelfItems (laid servers)).2 := by
  rw [placed, place_fresh]
  · rw [zipWith_map, zipWith_self, length_map]
    rfl
  · intro lane mem
    obtain ⟨server, inside, rfl⟩ := mem_map.mp mem
    exact (build_laid (all.honest server inside)).1
  · rw [length_map, length_map]

theorem laid_at (all : Servers hidden servers) {i : Nat} {lane : Lane} (held : (laid servers)[i]? = some lane) :
    ∃ server, servers[i]? = some server ∧ Laid server lane := by
  rw [laid, List.getElem?_map] at held
  obtain ⟨server, there, rfl⟩ := Option.map_eq_some_iff.mp held
  exact ⟨server, there, (build_laid (all.honest server (List.mem_of_getElem? there))).2⟩

end
end PlxNative.Deck
