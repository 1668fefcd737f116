import PlxNative.Lib.Words
import PlxNative.ViewState.Rows

/-! The sliding window over a hub listing. Each ask reads on from the retained edge row,
found again where the listing now has it. A read ends in a window, in nothing, in the
window as it stood, or by an arithmetic fault. Sums of a held position and a count of one
page are plain: only what the server's answers enter can leave the range. -/
namespace PlxNative.Paging
open Usize
open ViewState (ServerId)

/-- A listed item, less what a card does not take from it here. -/
structure Metadata where
  ratingKey : String
  kind : String
  thumb : String
  grandparentThumb : String
  librarySectionId : Int
  deriving DecidableEq

structure MediaContainer where
  offset : Int
  totalSize : Int
  metadata : List Metadata

structure PmsMovie where
  sid : ServerId
  sec : Int
  rk : String
  thumb : String
  deriving DecidableEq

def hubFetchCount : Nat := 12

def maxShelfItems : Nat := 24

def requestsPerAsk : Nat := 8

def clean (s : String) : String :=
  String.ofList (s.toList.map (fun c => if c = '\n' ∨ c = '\r' then ' ' else c))

def listable (kind : String) : Bool :=
  kind = "movie" || kind = "show" || kind = "season" || kind = "episode"

def parseItem (it : Metadata) (sid : ServerId) : PmsMovie :=
  { sid, sec := it.librarySectionId, rk := clean it.ratingKey
    thumb := clean (if it.grandparentThumb.isEmpty then it.thumb else it.grandparentThumb) }

def shelfCard (it : Metadata) (sid : ServerId) : Option PmsMovie :=
  if !listable it.kind then none
  else
    let m := parseItem it sid
    if m.thumb.isEmpty then none else some m

/-- A card with the listing position it was read from. -/
abbrev Row := Nat × PmsMovie

structure PageInfo where
  offset : Nat
  end_ : Nat
  total : Nat
  more : Bool
  unstable : Bool
  deriving DecidableEq

def PageInfo.default : PageInfo := ⟨0, 0, 0, false, false⟩

structure Ask where
  start : Nat
  before : Bool
  hidden : List Int

structure Edge where
  position : Nat
  key : String

inductive Relocation where
  | inPage (by_ : Int)
  | beyond (by_ : Int)
  | lost

/-- The early ends of a read: a page failed, the window is returned as it stood, or the
arithmetic left its range or the loop its bound. -/
inductive Exit where
  | failed
  | unchanged
  | fault

/-- The server, whatever it answers: the first argument tells one request from another. -/
abbrev Fetch := Nat → Nat → Nat → Option MediaContainer

abbrev Reading (α : Type) := Except Exit α

def orFault {α : Type} : Option α → Reading α
  | some a => .ok a
  | none => .error .fault

def orUnchanged {α : Type} : Option α → Reading α
  | some a => .ok a
  | none => .error .unchanged

/-- One page, which must echo the offset it was asked for. -/
def readPage (fetch : Fetch) (call start size : Nat) : Reading MediaContainer :=
  match fetch call start size with
  | none => .error .failed
  | some page => if page.offset = toSigned start then .ok page else .error .failed

def findKey (page : MediaContainer) (key : String) : Option Nat :=
  page.metadata.findIdx? (fun item => clean item.ratingKey = key)

/-- Where the edge is now. The second request is made only when the page in hand does
not hold it. -/
def relocate (fetch : Fetch) (call : Nat) (edge : Edge) (before : Bool) (page : MediaContainer) (start : Nat) :
    Reading Relocation :=
  match findKey page edge.key with
  | some index => do
      let now ← orFault (add? start index)
      let by_ ← orFault (diff? now edge.position)
      return .inPage by_
  | none => do
      let far := if before then edge.position + 1 else edge.position - maxShelfItems
      let count := if before then maxShelfItems else edge.position - far
      if count = 0 then return .lost
      let page ← readPage fetch call far count
      match findKey page edge.key with
      | none => return .lost
      | some index =>
        let now ← orFault (add? far index)
        let by_ ← orFault (diff? now edge.position)
        return .beyond by_

structure Progress where
  rows : List Row
  offset : Nat
  end_ : Nat
  total : Nat
  more : Bool
  cursor : Nat
  /-- The edge, while the next read carries it as its overlap. -/
  carried : Option Edge
  requests : Nat
  calls : Nat

def shiftRow (by_ : Int) (row : Row) : Option Row := (addSigned? row.1 by_).map (·, row.2)

/-- The retained rows and the bounds, moved by the edge's change in position. -/
def shift (p : Progress) (by_ : Int) : Option Progress := do
  let rows ← p.rows.mapM (shiftRow by_)
  let offset ← addSigned? p.offset by_
  let end_ ← addSigned? p.end_ by_
  return { p with rows, offset, end_ }

/-- The cards a forward page adds from `position` on, and how far it was read. -/
def fillForward (sid : ServerId) (hidden : List Int) (keepFrom : Nat) :
    Nat → List Metadata → List Row → Nat → List Row × Nat
  | _, [], rows, end_ => (rows, end_)
  | position, item :: rest, rows, _ =>
    if position < keepFrom then fillForward sid hidden keepFrom (position + 1) rest rows (position + 1)
    else match shelfCard item sid with
      | none => fillForward sid hidden keepFrom (position + 1) rest rows (position + 1)
      | some card =>
        if card.sec ∈ hidden ∨ ∃ row ∈ rows, row.2.rk = card.rk then
          fillForward sid hidden keepFrom (position + 1) rest rows (position + 1)
        else if (rows ++ [(position, card)]).length = maxShelfItems then
          (rows ++ [(position, card)], position + 1)
        else fillForward sid hidden keepFrom (position + 1) rest (rows ++ [(position, card)]) (position + 1)

/-- The cards a backward page adds before `rows`. -/
def fillBackward (sid : ServerId) (hidden : List Int) (rows : List Row) (keepFrom keepTo : Nat) :
    Nat → List Metadata → List Row → List Row
  | _, [], fresh => fresh
  | position, item :: rest, fresh =>
    if position < keepFrom ∨ keepTo ≤ position then
      fillBackward sid hidden rows keepFrom keepTo (position + 1) rest fresh
    else match shelfCard item sid with
      | none => fillBackward sid hidden rows keepFrom keepTo (position + 1) rest fresh
      | some card =>
        if card.sec ∈ hidden ∨ ∃ row ∈ rows ++ fresh, row.2.rk = card.rk then
          fillBackward sid hidden rows keepFrom keepTo (position + 1) rest fresh
        else fillBackward sid hidden rows keepFrom keepTo (position + 1) rest (fresh ++ [(position, card)])

inductive Turn where
  | again (p : Progress)
  | done (p : Progress)

/-- The positions a forward read may add: those past the edge. -/
def keepForward (start : Nat) : Option Nat → Reading Nat
  | some corrected => orFault (add? corrected 1)
  | none => .ok start

/-- The positions a backward read may add: those between the edge and the read's end. -/
def keepBackward (start size : Nat) : Option Nat → Reading (Nat × Nat)
  | some corrected => .ok (max (corrected - size) (min start corrected), corrected)
  | none => do
      let keepTo ← orFault (add? start size)
      return (start, keepTo)

/-- What a page in hand adds. `corrected` is where it has the edge, when it carried one.
The end of the page bounds every position the source computes in its loop. -/
def takePage (sid : ServerId) (ask : Ask) (p : Progress) (page : MediaContainer) (start size count : Nat)
    (corrected : Option Nat) : Reading Turn := do
  let got := min page.metadata.length count
  let total := page.totalSize.toNat
  let rawEnd ← orFault (add? start got)
  let items := page.metadata.take got
  if ask.before then
    let (keepFrom, keepTo) ← keepBackward start size corrected
    let fresh := fillBackward sid ask.hidden p.rows keepFrom keepTo start items []
    let more := if 0 < total then decide (p.end_ < total) else p.more
    return .again { p with rows := fresh ++ p.rows, cursor := keepFrom, offset := keepFrom, total, more }
  else
    let keepFrom ← keepForward start corrected
    let (rows, filled) := fillForward sid ask.hidden keepFrom start items p.rows p.end_
    let end_ := if got = 0 then start else filled
    let more := decide (0 < got) &&
      (if 0 < total then decide (end_ < total) else decide (end_ < rawEnd) || decide (got = count))
    let p := { p with rows, end_, total, more, cursor := end_ }
    return if more then .again p else .done p

/-- Backward pages ask only for the room left beside the retained overlap. -/
def pageSize (ask : Ask) (p : Progress) : Nat :=
  if ask.before then min p.cursor (maxShelfItems - p.rows.length) else maxShelfItems

def pageStart (ask : Ask) (p : Progress) : Nat :=
  if ask.before then p.cursor - pageSize ask p else p.cursor

def readLoose (sid : ServerId) (ask : Ask) (fetch : Fetch) (p : Progress) : Reading Turn := do
  let page ← readPage fetch p.calls (pageStart ask p) (pageSize ask p)
  takePage sid ask { p with calls := p.calls + 1 } page (pageStart ask p) (pageSize ask p) (pageSize ask p) none

/-- What a read that carried the edge does with the place it was found in. -/
def follow (sid : ServerId) (ask : Ask) (p : Progress) (edge : Edge) (page : MediaContainer) :
    Relocation → Reading Turn
  | .lost => .error .unchanged
  | .beyond by_ => do
      let corrected ← orUnchanged (addSigned? edge.position by_)
      let q ← orUnchanged (shift p by_)
      let cursor ← if ask.before then .ok corrected else orFault (add? corrected 1)
      return .again { q with cursor }
  | .inPage by_ => do
      let corrected ← orUnchanged (addSigned? edge.position by_)
      let q ← orUnchanged (shift p by_)
      takePage sid ask q page (pageStart ask p) (pageSize ask p) (pageSize ask p + 1) (some corrected)

def readCarried (sid : ServerId) (ask : Ask) (fetch : Fetch) (p : Progress) (edge : Edge) : Reading Turn := do
  let page ← readPage fetch p.calls (pageStart ask p) (pageSize ask p + 1)
  let found ← relocate fetch (p.calls + 1) edge ask.before page (pageStart ask p)
  follow sid ask { p with carried := none, calls := p.calls + 2 } edge page found

/-- One turn of the loop, whose bound was checked. -/
def turn (sid : ServerId) (ask : Ask) (fetch : Fetch) (p : Progress) : Reading Turn :=
  let p := { p with requests := p.requests + 1 }
  if maxShelfItems ≤ p.rows.length ∨ (ask.before = true ∧ p.cursor = 0) then .ok (.done p)
  else match p.carried with
    | none => readLoose sid ask fetch p
    | some edge => readCarried sid ask fetch p edge

/-- The loop of reads. Fuel stands for the source's own bound, which is not a counter:
past the requests of one ask, a forward read goes on until it reaches `minimumEnd`. -/
def reads (sid : ServerId) (ask : Ask) (minimumEnd : Nat) (fetch : Fetch) : Nat → Progress → Reading Progress
  | 0, _ => .error .fault
  | fuel + 1, p =>
    if p.requests < requestsPerAsk ∨ (ask.before = false ∧ p.cursor < minimumEnd) then
      match turn sid ask fetch p with
      | .error exit => .error exit
      | .ok (.done p) => .ok p
      | .ok (.again p) => reads sid ask minimumEnd fetch fuel p
    else .ok p

/-- The retained half of the window: the rows an ask keeps, none of them hidden. -/
def visible (ask : Ask) (current : Option (List Row × PageInfo)) : List Row :=
  match current with
  | none => []
  | some (rows, _) => rows.filter (fun row => !decide (row.2.sec ∈ ask.hidden))

def retained (ask : Ask) (current : Option (List Row × PageInfo)) : List Row :=
  let rows := visible ask current
  if ask.before then rows.take hubFetchCount else rows.drop (rows.length - hubFetchCount)

def retainedAll (ask : Ask) (current : Option (List Row × PageInfo)) : Bool :=
  decide ((visible ask current).length ≤ hubFetchCount)

/-- The window an ask starts from, and its edge. -/
def beginRead (ask : Ask) (current : Option (List Row × PageInfo)) : Progress × Option Edge :=
  let rows := retained ask current
  let info := current.map Prod.snd
  let kept := if retainedAll ask current then info else none
  let offset := if ask.before then ask.start else
    match kept with
    | some info => info.offset
    | none => match rows.head? with
      | some row => row.1
      | none => ask.start
  let end_ := if ask.before then
      match kept with
      | some info => info.end_
      | none => match rows.getLast? with
        | some row => row.1 + 1
        | none => ask.start
    else ask.start
  let total := match info with
    | some info => info.total
    | none => 0
  let more := ask.before && (match info with
    | some info => info.more || !retainedAll ask current
    | none => false)
  let edge := (if ask.before then rows.head? else rows.getLast?).map (fun row => Edge.mk row.1 row.2.rk)
  (⟨rows, offset, end_, total, more, ask.start, none, 0, 0⟩, edge)

/-- A window whose edge was found, moved with it; the reads go on where it now ends. -/
def rebase (ask : Ask) (p : Progress) (by_ : Int) : Reading Progress := do
  let p ← orUnchanged (shift p by_)
  let cursor ← orUnchanged (addSigned? ask.start by_)
  return { p with cursor, calls := p.calls + 2 }

/-- The edge is carried by the first read, or checked on a page of its own when hidden
rows trail it. -/
def anchor (ask : Ask) (fetch : Fetch) (p : Progress) (edge : Edge) : Reading Progress :=
  if (ask.before = true ∧ edge.position = ask.start) ∨ (ask.before = false ∧ edge.position + 1 = ask.start) then
    .ok { p with cursor := edge.position, carried := some edge }
  else do
    let start := if ask.before then edge.position - maxShelfItems else edge.position
    let count := if ask.before then edge.position - start + 1 else maxShelfItems + 1
    let page ← readPage fetch p.calls start count
    match ← relocate fetch (p.calls + 1) edge ask.before page start with
    | .lost => .error .unchanged
    | .inPage by_ | .beyond by_ => rebase ask p by_

def unchanged (current : Option (List Row × PageInfo)) : List Row × PageInfo :=
  match current with
  | some (rows, info) => (rows, { info with unstable := true })
  | none => ([], { PageInfo.default with unstable := true })

def turnBound (minimumEnd : Nat) : Nat := requestsPerAsk + minimumEnd + 1

/-- The read's first state, carried to where its edge now stands. -/
def anchored (ask : Ask) (current : Option (List Row × PageInfo)) (fetch : Fetch) : Reading Progress :=
  match (beginRead ask current).2 with
  | some edge => anchor ask fetch (beginRead ask current).1 edge
  | none => .ok (beginRead ask current).1

/-- `none` is an arithmetic fault, `some none` a read that failed. -/
def fetchWindow (sid : ServerId) (ask : Ask) (current : Option (List Row × PageInfo)) (minimumEnd : Nat)
    (fetch : Fetch) : Option (Option (List Row × PageInfo)) :=
  let (p, edge) := beginRead ask current
  let anchored := match edge with
    | some edge => anchor ask fetch p edge
    | none => .ok p
  match anchored.bind (reads sid ask minimumEnd fetch (turnBound minimumEnd)) with
  | .ok p => some (some (p.rows, ⟨p.offset, p.end_, p.total, p.more, false⟩))
  | .error .failed => some none
  | .error .unchanged => some (some (unchanged current))
  | .error .fault => none

theorem fetchWindow_eq (sid : ServerId) (ask : Ask) (current : Option (List Row × PageInfo)) (minimumEnd : Nat) (fetch : Fetch) :
    fetchWindow sid ask current minimumEnd fetch =
      match (anchored ask current fetch).bind (reads sid ask minimumEnd fetch (turnBound minimumEnd)) with
      | .ok p => some (some (p.rows, ⟨p.offset, p.end_, p.total, p.more, false⟩))
      | .error .failed => some none
      | .error .unchanged => some (some (unchanged current))
      | .error .fault => none := rfl

end PlxNative.Paging
