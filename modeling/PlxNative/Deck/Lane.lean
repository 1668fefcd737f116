import PlxNative.Paging.Ledger

/-! One server's part of the Continue Watching deck: the rows read of its listing, with the bounds
of those the deck shows. A read goes on from an edge row, which is found again where the listing
now has it; a lane whose edge is lost moves onto its ledger. Positions are plain numbers, which a
shift can only take below zero. -/
namespace PlxNative.Deck
open ViewState (ServerId)
open Paging (PmsMovie clean card hubFetchCount maxShelfItems requestsPerAsk)

structure Metadata extends Paging.Metadata where
  lastViewedAt : Int

structure MediaContainer where
  offset : Int
  totalSize : Int
  metadata : List Metadata

structure CwItem where
  lastViewedAt : Int
  m : PmsMovie
  position : Nat
  deriving DecidableEq

/-- Rows per server request, and the lookahead each lane keeps. -/
def page : Nat := hubFetchCount

structure Anchor where
  position : Nat
  key : String

structure Lane where
  /-- The rows read and kept, ascending by position. -/
  rows : List CwItem
  /-- The deck shows the rows at positions from `lo` up to `hi`. -/
  lo : Nat
  hi : Nat
  /-- The first and the last listing row read, kept or not. -/
  head : Anchor
  tail : Anchor
  /-- The listing's size, 0 when the server named none. -/
  total : Nat
  done : Bool
  placed : Bool
  /-- The keys emitted forward, in order, and one past the highest position among them. -/
  seen : List String
  reach : Nat
  /-- On the ledger: the listing offset the next read starts at. -/
  scan : Option Nat

inductive Fail where
  | server
  | lost

abbrev Reading (α : Type) := Except Fail α

/-- A listing read by start and size, and rows read by their keys. -/
abbrev Listing := Nat → Nat → Option MediaContainer
abbrev Many := List String → Option MediaContainer

namespace Lane

def default : Lane := ⟨[], 0, 0, ⟨0, ""⟩, ⟨0, ""⟩, 0, false, false, [], 0, none⟩

/-- The lane of a source's first answer: its preview, from the listing's head. -/
def preview (first last : String) (raw total : Nat) (done : Bool) : Lane :=
  { default with head := ⟨0, first⟩, tail := ⟨raw - 1, last⟩, total, done }

def isShown (lane : Lane) (row : CwItem) : Bool := lane.lo ≤ row.position && row.position < lane.hi

def ahead (lane : Lane) : Nat := (lane.rows.filter (fun row => lane.hi ≤ row.position)).length

def behind (lane : Lane) : Nat := (lane.rows.filter (fun row => row.position < lane.lo)).length

def shown (lane : Lane) : List CwItem := lane.rows.filter lane.isShown

/-- Whether the lane has anything before its earliest held row. -/
def hasBefore (lane : Lane) : Bool :=
  match lane.scan with
  | none => 0 < lane.head.position
  | some _ => match lane.rows.head? with
    | none => false
    | some first => (lane.seen.findIdx? (· = first.m.rk)).any (0 < ·)

/-- A position moved, unless it would leave the listing. -/
def addSigned? (n : Nat) (by_ : Int) : Option Nat := if 0 ≤ n + by_ then some (n + by_).toNat else none

def shiftRow (by_ : Int) (row : CwItem) : Option CwItem := (addSigned? row.position by_).map ({ row with position := · })

def shift (lane : Lane) (by_ : Int) : Option Lane := do
  let rows ← lane.rows.mapM (shiftRow by_)
  let lo ← addSigned? lane.lo by_
  let hi ← addSigned? lane.hi by_
  let reach ← addSigned? lane.reach by_
  let head ← addSigned? lane.head.position by_
  let tail ← addSigned? lane.tail.position by_
  return { lane with rows, lo, hi, reach, head := ⟨head, lane.head.key⟩, tail := ⟨tail, lane.tail.key⟩ }

/-- Lets go of every row the deck has moved past on the side it came from. -/
def trim (forward : Bool) (lane : Lane) : Lane :=
  if forward then
    let rows := lane.rows.filter (fun row => lane.lo ≤ row.position)
    match rows.head? with
    | some first => { lane with rows, head := ⟨first.position, first.m.rk⟩ }
    | none => { lane with rows }
  else
    let rows := lane.rows.filter (fun row => row.position < lane.hi)
    match rows.getLast? with
    | some last => { lane with rows, tail := ⟨last.position, last.m.rk⟩, done := lane.done && lane.scan.isSome }
    | none => { lane with rows }

/-- The lookahead is let go, positions leave room for the cards the ledger can read back, and the
listing is scanned again from its start. -/
def toLedger (lane : Lane) : Reading Lane :=
  let kept := { lane with rows := lane.rows.filter (fun row => row.position < lane.hi) }
  match kept.shift lane.seen.length with
  | none => .error .server
  | some moved =>
    let last := (moved.rows.getLast?.map CwItem.position).getD 0
    .ok { moved with tail := ⟨max last (moved.hi - 1), ""⟩, scan := some 0, done := false }

end Lane

/-- One card of a listing row, unless the deck does not show it. -/
def row (sid : ServerId) (item : Metadata) (position : Nat) (hidden : List Int) : Option CwItem :=
  (card sid item.toMetadata hidden).map (⟨item.lastViewedAt, ·, position⟩)

def findKey (mc : MediaContainer) (key : String) : Option Nat :=
  mc.metadata.findIdx? (fun item => clean item.ratingKey = key)

def orLost {α : Type} : Option α → Reading α
  | some a => .ok a
  | none => .error .lost

/-- One page, which must echo the offset it was asked for. -/
def readPage (list : Listing) (start count : Nat) : Reading MediaContainer :=
  match list start count with
  | none => .error .server
  | some mc => if mc.offset = start then .ok mc else .error .server

section
variable (sid : ServerId) (hidden : List Int) (list : Listing)

/-- A row of a page joins the rows held unless its key is held already; the last row looked at
is remembered either way. -/
def joinRow (past : Nat → Bool) (acc : List CwItem × Option Anchor) (entry : Metadata × Nat) :
    List CwItem × Option Anchor :=
  if past entry.2 then acc
  else
    (match row sid entry.1 entry.2 hidden with
      | none => acc.1
      | some fresh => if acc.1.all (fun held => held.m.rk ≠ fresh.m.rk) then acc.1 ++ [fresh] else acc.1,
     some ⟨entry.2, clean entry.1.ratingKey⟩)

/-- A page taken in: its last row is the edge, and a page of no row past the edge is the end. -/
def closePage (lane : Lane) (mc : MediaContainer) (count : Nat) (joined : List CwItem × Option Anchor) : Lane :=
  let total := mc.totalSize.toNat
  match joined.2 with
  | some last =>
    { lane with
      rows := joined.1
      total
      done := if 0 < total then decide (total ≤ last.position + 1) else decide (mc.metadata.length < count)
      tail := last }
  | none => { lane with rows := joined.1, total, done := true }

/-- The rows of a page past the edge, when the read overlaps it, are taken in. -/
def joinPage (lane : Lane) (mc : MediaContainer) (start count : Nat) (overlap : Bool) : Lane :=
  let past := fun position => overlap && decide (position ≤ lane.tail.position)
  closePage lane mc count (((mc.metadata.take count).zipIdx start).foldl (joinRow sid hidden past) (lane.rows, none))

/-- The lane with its edge where the page has it, and whether the page can be taken in. An edge
the page does not hold is looked for in the one page behind. -/
def anchorAhead (lane : Lane) (mc : MediaContainer) : Reading (Lane × Bool) :=
  match findKey mc lane.tail.key with
  | some 0 => .ok (lane, true)
  | some (j + 1) => (orLost (lane.shift (j + 1 : Nat))).map (·, true)
  | none =>
    let far := lane.tail.position - page
    let found := if far < lane.tail.position
      then (readPage list far (lane.tail.position - far)).map (findKey · lane.tail.key)
      else .ok none
    found.bind (fun
      | some j => (orLost (lane.shift ((far + j : Nat) - (lane.tail.position : Int)))).map (·, false)
      | none => lane.toLedger.map (·, false))

/-- A listing row the lane does not know is taken in at the next position. -/
def scanRow (known : List String) (lane : Lane) (item : Metadata) : Lane :=
  if clean item.ratingKey ∈ known then lane
  else match row sid item (lane.tail.position + 1) hidden with
    | none => lane
    | some fresh => { lane with
        rows := lane.rows ++ [fresh], tail := ⟨lane.tail.position + 1, lane.tail.key⟩ }

/-- One page of the scan: rows neither the ledger nor the lane holds, in listing order. -/
def scanLedger (lane : Lane) (scan : Nat) : Reading Lane :=
  (readPage list scan page).map (fun mc =>
    let known := lane.seen ++ lane.rows.map (·.m.rk)
    let end_ := scan + min mc.metadata.length page
    let total := mc.totalSize.toNat
    { (mc.metadata.take page).foldl (scanRow sid hidden known) lane with
      total
      scan := some end_
      done := if 0 < total then decide (total ≤ end_) else decide (mc.metadata.length < page) })

def readOn (lane : Lane) : Reading Lane :=
  match lane.scan with
  | some scan => scanLedger sid hidden list lane scan
  | none =>
    let overlap := !lane.tail.key.isEmpty
    let start := lane.tail.position
    let count := if overlap then page + 1 else page
    (readPage list start count).bind (fun mc =>
      (if overlap then anchorAhead list lane mc else .ok (lane, true)).map (fun found =>
        if found.2 then joinPage sid hidden found.1 mc start count overlap else found.1))

/-- Reads forward until the lane holds `n` rows past its shown ones, or its listing ends, within
the given number of requests. -/
def readWithin (n : Nat) : Nat → Lane → Reading Lane
  | 0, lane => .ok lane
  | left + 1, lane =>
    if lane.ahead < n && !lane.done then (readOn sid hidden list lane).bind (readWithin n left) else .ok lane

def readAhead (n : Nat) (lane : Lane) : Reading Lane := readWithin sid hidden list n requestsPerAsk lane

end
section
variable (sid : ServerId) (hidden : List Int) (list : Listing) (many : Many)

/-- The card of one key of the ledger, when the server still has it. -/
def recalled (mc : MediaContainer) (base count : Nat) (entry : String × Nat) : Reading (Option CwItem) :=
  match mc.metadata.find? (fun item => clean item.ratingKey = entry.1) with
  | none => .ok none
  | some item =>
    if base < count - entry.2 then .error .lost else .ok (row sid item (base - (count - entry.2)) hidden)

/-- A ledger lane reads back the keys just before its earliest held row. -/
def readBack (lane : Lane) : Reading Lane := do
  let first ← orLost lane.rows.head?
  let upto ← orLost (lane.seen.findIdx? (· = first.m.rk))
  let since := upto - page
  let keys := (lane.seen.take upto).drop since
  let mc ← match many keys with
    | none => .error .server
    | some mc => .ok mc
  let back ← keys.zipIdx.mapM (recalled sid hidden mc first.position keys.length)
  return { lane with
    rows := back.filterMap id ++ lane.rows
    seen := lane.seen.take since ++ lane.seen.drop upto }

/-- The lane with its edge where the page has it; one the page does not hold is looked for in
the one page ahead. -/
def anchorBehind (lane : Lane) (mc : MediaContainer) (start count : Nat) : Reading (Lane × Bool) :=
  match findKey mc lane.head.key with
  | some j =>
    if j + 1 = min mc.metadata.length count then .ok (lane, true)
    else (orLost (lane.shift ((start + j : Nat) - (lane.head.position : Int)))).map (·, true)
  | none =>
    let far := lane.head.position + 1
    (readPage list far page).bind (fun further =>
      match findKey further lane.head.key with
      | some j => (orLost (lane.shift ((far + j : Nat) - (lane.head.position : Int)))).map (·, false)
      | none => lane.toLedger.map (·, false))

/-- The rows of a page before the edge are put in front of those held. -/
def prependPage (lane : Lane) (mc : MediaContainer) (start : Nat) : Lane :=
  let before := (mc.metadata.zipIdx start).takeWhile (fun entry => entry.2 < lane.head.position)
  let fresh := (before.filterMap (fun entry => row sid entry.1 entry.2 hidden)).filter
    (fun card => lane.rows.all (fun held => held.m.rk ≠ card.m.rk))
  { lane with
    rows := fresh ++ lane.rows
    head := ⟨start, (mc.metadata.head?.map (fun item => clean item.ratingKey)).getD ""⟩
    total := if 0 < mc.totalSize then mc.totalSize.toNat else lane.total }

def readOnBehind (lane : Lane) : Reading Lane :=
  match lane.scan with
  | some _ => readBack sid hidden many lane
  | none =>
    let start := lane.head.position - page
    let count := lane.head.position - start + 1
    (readPage list start count).bind (fun mc =>
      (anchorBehind list lane mc start count).map (fun found =>
        if found.2 then prependPage sid hidden found.1 mc start else found.1))

def readBehindWithin (n : Nat) : Nat → Lane → Reading Lane
  | 0, lane => .ok lane
  | left + 1, lane =>
    if lane.hasBefore && decide (lane.behind < n) then
      (readOnBehind sid hidden list many lane).bind (readBehindWithin n left)
    else .ok lane

/-- Reads backward until the lane holds `n` rows before its shown ones, or reaches its first. -/
def readBehind (n : Nat) (lane : Lane) : Reading Lane := readBehindWithin sid hidden list many n requestsPerAsk lane

end
end PlxNative.Deck
