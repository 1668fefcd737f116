import PlxNative.Deck.Lane
import PlxNative.Lib.Contest

/-! The deck over its lanes: every lane's shown rows in one order, and the moves of the window.
A move emits the next cards in that order and lets go of those past the bound at the other end. -/
namespace PlxNative.Deck
open Paging (maxShelfItems)

/-- Last viewed descending, then the card's server, then its position in that server's listing,
then its rating key. -/
def order (a b : CwItem) : Ordering :=
  (((compare b.lastViewedAt a.lastViewedAt).then (compare a.m.sid.raw b.m.sid.raw)).then
    (compare a.position b.position)).then (compare a.m.rk b.m.rk)

/-- Whether a move of `n` cards would have to read the lane first. -/
def short (forward : Bool) (n : Nat) (lane : Lane) : Bool :=
  if forward then !lane.done && decide (lane.ahead < n) else lane.hasBefore && decide (lane.behind < n)

/-- The lanes a move of `n` cards must read before it can run. -/
def needs (lanes : List Lane) (forward : Bool) (n : Nat) : List Nat :=
  (List.range lanes.length).filter (fun i => (lanes[i]?).any (short forward n))

structure Merged where
  cards : List (Nat × CwItem)
  before : Bool
  after : Bool

/-- The shown rows of every lane in merged order, with whether anything lies on either side. -/
def mergeDeck (lanes : List Lane) : Merged :=
  { cards := (lanes.zipIdx.flatMap (fun entry => entry.1.shown.map (entry.2, ·))).mergeSort
      (fun a b => (order a.2 b.2).isLE)
    before := lanes.any (fun lane => decide (0 < lane.lo) || lane.hasBefore)
    after := lanes.any (fun lane => !lane.done || decide (0 < lane.ahead)) }

def shownCount (lanes : List Lane) : Nat := (lanes.map (fun lane => lane.shown.length)).sum

/-- Of two rows the one that comes first in the direction of travel. -/
def better (forward : Bool) (row held : CwItem) : Bool := order row held = if forward then .lt else .gt

/-- The best of the rows offered, one at most by each lane, with its lane. -/
def pick (forward : Bool) (offers : List (Option CwItem)) : Option (Nat × CwItem) := Contest.best (better forward) offers

namespace Lane

/-- The lane's next row in the direction of travel. -/
def next (forward : Bool) (lane : Lane) : Option CwItem :=
  if forward then lane.rows.find? (fun row => lane.hi ≤ row.position)
  else lane.rows.reverse.find? (fun row => row.position < lane.lo)

/-- A lane that still has rows and has none read. -/
def blind (forward : Bool) (lane : Lane) : Bool :=
  (lane.next forward).isNone && if forward then !lane.done else lane.hasBefore

def emit (forward : Bool) (row : CwItem) (lane : Lane) : Lane :=
  if forward then
    let noted := if lane.reach ≤ row.position
      then { lane with seen := lane.seen ++ [row.m.rk], reach := row.position + 1 } else lane
    { noted with hi := row.position + 1 }
  else { lane with lo := row.position }

/-- The oldest shown row on a forward move, the newest on a backward. -/
def oldest (forward : Bool) (lane : Lane) : Option CwItem :=
  if forward then lane.rows.find? lane.isShown else lane.rows.reverse.find? lane.isShown

def letGo (forward : Bool) (row : CwItem) (lane : Lane) : Lane :=
  if forward then { lane with lo := row.position + 1 } else { lane with hi := row.position }

end Lane

def offers (forward : Bool) (usable : List Bool) (lanes : List Lane) : List (Option CwItem) :=
  lanes.zipIdx.map (fun entry => if usable.getD entry.2 false then entry.1.next forward else none)

def anyBlind (forward : Bool) (usable : List Bool) (lanes : List Lane) : Bool :=
  lanes.zipIdx.any (fun entry => usable.getD entry.2 false && entry.1.blind forward)

/-- Emits up to `n` cards in merged order from the lanes marked usable; it stops where the next
card cannot be known. -/
def take (forward : Bool) (usable : List Bool) : Nat → List Lane → Nat × List Lane
  | 0, lanes => (0, lanes)
  | n + 1, lanes =>
    if anyBlind forward usable lanes then (0, lanes)
    else match pick forward (offers forward usable lanes) with
      | none => (0, lanes)
      | some (i, row) =>
        let rest := take forward usable n (lanes.modify i (Lane.emit forward row))
        (rest.1 + 1, rest.2)

/-- Each turn lets go of one shown card, so as many turns as there are cards are enough. -/
def dropWithin (forward : Bool) : Nat → List Lane → List Lane
  | 0, lanes => lanes
  | left + 1, lanes =>
    if shownCount lanes ≤ maxShelfItems then lanes
    else match pick forward (lanes.map (Lane.oldest forward)) with
      | none => lanes
      | some (i, row) => dropWithin forward left (lanes.modify i (Lane.letGo forward row))

def dropExcess (forward : Bool) (lanes : List Lane) : List Lane := dropWithin forward (shownCount lanes) lanes

/-- A deck moved, with how many cards the window gained. -/
structure Moved where
  taken : Nat
  lanes : List Lane

/-- Moves the deck by up to `n` cards; a lane still short of rows is left out of the move. -/
def advance (lanes : List Lane) (forward : Bool) (n : Nat) : Moved :=
  let usable := lanes.map (fun lane => !short forward n lane)
  let gone := take forward usable n lanes
  ⟨gone.1, (dropExcess forward gone.2).map (Lane.trim forward)⟩

/-- A lane that has not got the deck yet: its preview is its rows, and one that named no listing
has its preview and nothing else. -/
def seat (lane : Lane) (preview : List CwItem) : Lane :=
  let rows := if lane.rows.isEmpty
    then preview.zipIdx.map (fun entry => if entry.1.position = 0 then { entry.1 with position := entry.2 } else entry.1)
    else lane.rows
  let seated := { lane with rows, lo := 0, hi := 0, placed := true }
  if lane.tail.key.isEmpty then
    { seated with
      tail := (rows.getLast?.map (fun last => ⟨last.position, last.m.rk⟩)).getD lane.tail
      head := (rows.head?.map (fun first => ⟨first.position, first.m.rk⟩)).getD lane.head
      done := true }
  else seated

/-- A lane that joins a placed deck shows the rows inside the window's span. -/
def joinWindow (first last : CwItem) (lane : Lane) : Lane :=
  let before := (lane.rows.filter (fun row => order row first = .lt)).length
  let upto := (lane.rows.filter (fun row => order row last ≠ .gt)).length
  let bound := fun at_ => ((lane.rows[at_]?).map CwItem.position).getD (lane.tail.position + 1)
  { lane with lo := bound before, hi := bound (max upto before) }

/-- Puts the deck on every lane that has not got it yet. -/
def place (lanes : List Lane) (previews : List (List CwItem)) : List Lane :=
  let fresh := fun i => (lanes[i]?).any (fun lane => !lane.placed) && decide (i < previews.length)
  let seated := lanes.mapIdx (fun i lane => if fresh i then seat lane (previews.getD i []) else lane)
  let all := List.replicate lanes.length true
  if !(List.range lanes.length).any fresh then lanes
  else if (List.range lanes.length).all fresh then (take true all maxShelfItems seated).2
  else
    let held := (mergeDeck (seated.zipIdx.filterMap (fun entry => if fresh entry.2 then none else some entry.1))).cards
    match held.head?, held.getLast? with
    | some first, some last =>
      dropExcess true (seated.mapIdx (fun i lane => if fresh i then joinWindow first.2 last.2 lane else lane))
    | _, _ => (take true all maxShelfItems seated).2

/-- Brings the window back to the bound after lanes were rebuilt. -/
def fit (lanes : List Lane) : List Lane :=
  let atHead := lanes.all (fun lane => lane.lo = 0 && !lane.hasBefore)
  let kept := dropExcess (!atHead) lanes
  let room := maxShelfItems - shownCount kept
  if 0 < room then (take true (kept.map (fun lane => !short true room lane)) room kept).2 else kept

end PlxNative.Deck
