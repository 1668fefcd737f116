import Mathlib.Data.List.Destutter
import PlxNative.Lib.KeyOrder
import PlxNative.Paging.Window

/-! The ledger of a row whose listing would not hold still: the keys it has shown, in the
order it showed them. The window moves over these keys, and the listing is read, and read
again from its start, only for those not yet seen. -/
namespace PlxNative.Paging
open ViewState (ServerId)

inductive LedgerKey where
  | num (number : Nat)
  | text (s : String)
  deriving DecidableEq

/-- A number only when the text is the one it is written as. -/
def LedgerKey.new (key : String) : LedgerKey :=
  match Usize.parseU64 key with
  | some number => if toString number = key then .num number else .text key
  | none => .text key

def LedgerKey.toText : LedgerKey → String
  | .num number => toString number
  | .text s => s

/-- The index of the keys, which the last of several equal ones would hold. -/
def positionOf (keys : List LedgerKey) (key : LedgerKey) : Option Nat :=
  keys.zipIdx.foldl (fun found entry => if entry.1 = key then some entry.2 else found) none

structure Ledger where
  keys : List LedgerKey
  active : Bool
  /-- The listing offset the next forward read starts at. -/
  next : Nat
  /-- Listing rows the first pass saw and did not show. -/
  filtered : Nat
  /-- Keys the pass in progress has added. -/
  added : Nat
  /-- Completed passes in a row that added nothing. -/
  idle : Nat
  /-- Passes begun again from offset 0 after the first. -/
  rescans : Nat
  done : Bool

def idlePasses : Nat := 2

/-- The rescans are counted in one byte, which stops at its greatest value. -/
def saturatingSucc (n : Nat) : Nat := min (n + 1) 255

def Ledger.position (ledger : Ledger) (key : String) : Option Nat := positionOf ledger.keys (.new key)

def Ledger.push (ledger : Ledger) (key : LedgerKey) : Ledger :=
  if key ∈ ledger.keys then ledger else { ledger with keys := ledger.keys ++ [key] }

def Ledger.retain (ledger : Ledger) (gone : List LedgerKey) : Ledger :=
  { ledger with keys := ledger.keys.filter (· ∉ gone) }

inductive Fetched where
  | gone
  | skip
  | card (item : PmsMovie)

def card (sid : ServerId) (item : Metadata) (hidden : List Int) : Option PmsMovie :=
  (shelfCard item sid).filter (·.sec ∉ hidden)

/-- Cards of a response already in hand, by rating key. -/
abbrev Cache := List (String × PmsMovie)

/-- A batch read by rating keys; the first argument tells one request from another. -/
abbrev Many := Nat → List String → Option MediaContainer

def fetched (sid : ServerId) (hidden : List Int) (cache : Cache) (read : List Metadata) (key : String) : Fetched :=
  match cache.lookup key with
  | some item => .card item
  | none => match read.find? (fun item => clean item.ratingKey = key) with
    | none => .gone
    | some item => match card sid item hidden with
      | none => .skip
      | some shown => .card shown

def orFailed {α : Type} : Option α → Reading α
  | some a => .ok a
  | none => .error .failed

/-- The batch read of the keys not in hand, when there are any. -/
def readMissing (keys : List String) (cache : Cache) (many : List String → Option MediaContainer) :
    Reading (List Metadata) :=
  let missing := keys.filter (fun key => (cache.lookup key).isNone)
  if missing.isEmpty then .ok [] else (orFailed (many missing)).map (·.metadata)

/-- The cards for `keys`, in their order: from the response in hand, else by one batch
read. -/
def materialise (sid : ServerId) (keys : List String) (hidden : List Int) (cache : Cache)
    (many : List String → Option MediaContainer) : Reading (List Fetched) :=
  (readMissing keys cache many).map (fun read => keys.map (fetched sid hidden cache read))

/-- A slice of the keys, whose bounds are checked. -/
def slice (keys : List LedgerKey) (lo hi : Nat) : Reading (List String) :=
  if lo ≤ hi ∧ hi ≤ keys.length then .ok (((keys.take hi).drop lo).map LedgerKey.toText) else .error .fault

/-- The cards and the vanished keys of one batch. -/
def cards (all : List Fetched) : List PmsMovie :=
  all.filterMap (fun | .card item => some item | _ => none)

def goneKeys (keys : List String) (all : List Fetched) : List LedgerKey :=
  (keys.zip all).filterMap (fun entry => match entry.2 with | .gone => some (.new entry.1) | _ => none)

def keptCount (all : List Fetched) : Nat :=
  (all.filter (fun | .gone => false | _ => true)).length

/-- One ask over a ledger, in the making. Rows take their positions when it ends. -/
structure Passage where
  rows : List PmsMovie
  cache : Cache
  total : Nat
  requests : Nat
  cursor : Nat
  first : Nat
  ledger : Ledger

/-- The keys before the window, read again. -/
def readBack (sid : ServerId) (hidden : List Int) (many : Many) (p : Passage) : Reading Passage := do
  let lo := p.first - (maxShelfItems - p.rows.length)
  let keys ← slice p.ledger.keys lo p.first
  let all ← materialise sid keys hidden p.cache (many p.requests)
  return { p with
    rows := cards all ++ p.rows
    requests := p.requests + 1
    first := lo
    ledger := p.ledger.retain (goneKeys keys all) }

/-- Keys the ledger holds past the window, read again. -/
def readAhead (sid : ServerId) (hidden : List Int) (many : Many) (p : Passage) : Reading Passage := do
  let upto := min (p.cursor + maxShelfItems - p.rows.length) p.ledger.keys.length
  let keys ← slice p.ledger.keys p.cursor upto
  let all ← materialise sid keys hidden p.cache (many p.requests)
  return { p with
    rows := p.rows ++ cards all
    requests := p.requests + 1
    cursor := p.cursor + keptCount all
    ledger := p.ledger.retain (goneKeys keys all) }

/-- The cards of a listing that came whole, each key once. -/
def wholeListing (sid : ServerId) (hidden : List Int) : List Metadata → List LedgerKey → Cache → List LedgerKey × Cache
  | [], keys, cache => (keys, cache)
  | item :: rest, keys, cache => match card sid item hidden with
    | none => wholeListing sid hidden rest keys cache
    | some shown =>
      if .new (clean item.ratingKey) ∈ keys then wholeListing sid hidden rest keys cache
      else wholeListing sid hidden rest (keys ++ [.new (clean item.ratingKey)]) ((clean item.ratingKey, shown) :: cache)

def absorb (sid : ServerId) (hidden : List Int) (p : Passage) (page : MediaContainer) : Passage :=
  let (keys, cache) := wholeListing sid hidden page.metadata [] p.cache
  let ledger := { p.ledger with keys, next := keys.length, done := true }
  let rows := p.rows.filter (fun item => .new item.rk ∈ keys)
  let cursor := match rows.getLast?.bind (fun item => ledger.position item.rk) with
    | some i => i + 1
    | none => 0
  let first := (rows.head?.bind (fun item => ledger.position item.rk)).getD cursor
  { p with rows, cache, total := page.metadata.length, requests := p.requests + 1, cursor, first, ledger }

/-- The rows of one listing page, as far as there is room: the passage after them and how
many were processed. -/
def listed (sid : ServerId) (hidden : List Int) : List Metadata → Passage → Nat → Passage × Nat
  | [], p, processed => (p, processed)
  | item :: rest, p, processed =>
    if maxShelfItems ≤ p.rows.length then (p, processed)
    else if .new (clean item.ratingKey) ∈ p.ledger.keys then listed sid hidden rest p (processed + 1)
    else match card sid item hidden with
      | none =>
        let filtered := if p.ledger.rescans = 0 then p.ledger.filtered + 1 else p.ledger.filtered
        listed sid hidden rest { p with ledger := { p.ledger with filtered } } (processed + 1)
      | some shown =>
        let pushed := p.ledger.push (.new (clean item.ratingKey))
        let ledger := { pushed with added := pushed.added + 1 }
        listed sid hidden rest { p with rows := p.rows ++ [shown], cursor := ledger.keys.length, ledger }
          (processed + 1)

/-- The end of a pass: it was the last, or the listing is read again from its start. -/
def endPass (ledger : Ledger) (total : Nat) : Ledger :=
  let idle := if ledger.added = 0 then ledger.idle + 1 else 0
  let counted := decide (1 ≤ ledger.rescans) && decide (1 ≤ idle) &&
    decide (max total 1 ≤ ledger.keys.length + ledger.filtered)
  if counted || decide (idlePasses ≤ idle) then { ledger with idle, done := true }
  else { ledger with idle, next := 0, added := 0, rescans := saturatingSucc ledger.rescans }

def pageEnd (page : MediaContainer) (processed next total : Nat) : Bool :=
  decide (processed = page.metadata.length) &&
    (decide (page.metadata.length < maxShelfItems) || (decide (0 < total) && decide (total ≤ next)))

def takeListed (sid : ServerId) (hidden : List Int) (p : Passage) (page : MediaContainer) : Passage :=
  let start := p.ledger.next
  let total := if 0 < page.totalSize then page.totalSize.toNat else p.total
  if page.offset ≠ Usize.toSigned start ∨ maxShelfItems < page.metadata.length then
    absorb sid hidden { p with total } page
  else
    let (q, processed) := listed sid hidden page.metadata { p with total, requests := p.requests + 1 } 0
    let ledger := { q.ledger with next := start + processed }
    { q with ledger := if pageEnd page processed ledger.next total then endPass ledger total else ledger }

def readListing (sid : ServerId) (hidden : List Int) (list : Fetch) (p : Passage) : Reading Passage := do
  let page ← orFailed (list p.requests p.ledger.next maxShelfItems)
  return takeListed sid hidden p page

/-- One turn of the loop, while there is room; `none` is a break. -/
def passageTurn (sid : ServerId) (ask : Ask) (list : Fetch) (many : Many) (p : Passage) : Reading (Option Passage) :=
  if ask.before then
    if p.first = 0 then .ok none else (readBack sid ask.hidden many p).map some
  else if p.cursor < p.ledger.keys.length then (readAhead sid ask.hidden many p).map some
  else if p.ledger.done then .ok none
  else (readListing sid ask.hidden list p).map some

/-- The loop, with the requests it may still make: every turn makes one. -/
def passages (sid : ServerId) (ask : Ask) (list : Fetch) (many : Many) : Nat → Passage → Reading Passage
  | 0, p => .ok p
  | left + 1, p =>
    if p.rows.length < maxShelfItems then do
      match ← passageTurn sid ask list many p with
      | none => return p
      | some p => passages sid ask list many left p
    else .ok p

def beginPassage (ask : Ask) (rows : List Row) (info : PageInfo) (ledger : Ledger) : Passage :=
  let kept := (rows.map Prod.snd).filter (·.sec ∉ ask.hidden)
  let kept := if ask.before then kept.take hubFetchCount else kept.drop (kept.length - hubFetchCount)
  let cursor := match kept.getLast?.bind (fun item => ledger.position item.rk) with
    | some i => i + 1
    | none => min info.end_ ledger.keys.length
  let first := (kept.head?.bind (fun item => ledger.position item.rk)).getD (min info.offset ledger.keys.length)
  ⟨kept, [], info.total, 0, cursor, first, ledger⟩

/-- The rows at the places their keys now have, each place once. -/
def placed (ledger : Ledger) (rows : List PmsMovie) : List Row :=
  (KeyOrder.sortByKey Prod.fst (rows.filterMap (fun item => (ledger.position item.rk).map (·, item)))).destutter
    (fun a b => a.1 ≠ b.1)

def endPassage (ask : Ask) (info : PageInfo) (p : Passage) : List Row × PageInfo :=
  let rows := placed p.ledger p.rows
  let offset := match rows.head? with
    | some row => row.1
    | none => min p.first p.ledger.keys.length
  let end_ := if ask.before then
      match rows.getLast? with
      | some row => row.1 + 1
      | none => offset
    else min p.cursor p.ledger.keys.length
  let ahead := decide (end_ < p.ledger.keys.length) || !p.ledger.done
  (rows, ⟨offset, end_, p.total, if ask.before then info.more || ahead else ahead, false⟩)

/-- Moves a window over a ledger by one ask. -/
def ledgerWindow (sid : ServerId) (ask : Ask) (current : List Row × PageInfo) (ledger : Ledger) (list : Fetch)
    (many : Many) : Reading ((List Row × PageInfo) × Ledger) := do
  let p ← passages sid ask list many requestsPerAsk (beginPassage ask current.1 current.2 ledger)
  return (endPassage ask current.2 p, p.ledger)

end PlxNative.Paging
