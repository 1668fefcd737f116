import PlxNative.Lib.Maps
import PlxNative.Lib.Text
import PlxNative.Lib.Words
import PlxNative.ViewState.Rows

/-! What a notification asks of the screens: it is owed first, and spent only while reads are
allowed. -/
namespace PlxNative.Notify
open Text Assoc
open ViewState (ServerId)
attribute [local instance (high)] text_lawful

abbrev Key : Type := ServerId × Text

inductive PlayState where
  | playing
  | paused
  | buffering
  | stopped
  | other
  deriving DecidableEq

structure PlaySession where
  sessionKey : Option Text
  clientIdentifier : Option Text
  ratingKey : Option Text
  state : PlayState

structure NotifyPlays where
  sid : ServerId
  sessions : List PlaySession

inductive LibraryKind where
  | movie
  | show_

inductive LibraryState where
  | created
  | deleted
  deriving DecidableEq

structure LibraryEntry where
  itemId : Text
  kind : LibraryKind
  state : LibraryState

/-- The finished creates and deletes of a server. -/
structure NotifyLibrary where
  sid : ServerId
  entries : List LibraryEntry

structure NotifyOut where
  plays : List NotifyPlays := []
  library : List NotifyLibrary := []
  /-- The servers whose feed came back after a gap, each with its epoch. -/
  resynced : List (ServerId × Nat) := []

section

inductive Kind where
  | movie
  | show_
  deriving DecidableEq

def watchKind : LibraryKind → Kind
  | .movie => .movie
  | .show_ => .show_

structure WatchRow where
  guid : Text
  kind : Kind

inductive Asked where
  | held (ratingKey : Int)
  | absent

abbrev Ask : Type := Text × Kind

/-- The Watchlist as one call finds it. Its worker is shared with the store's own reads, so whether
the next re-match can start is an input: `starts n` is for the one behind `n` others of the call. -/
structure WatchlistStore where
  isReady : Bool
  readInFlight : Bool
  rows : List WatchRow
  byGuid : Text → List (ServerId × Asked)
  reachable : ServerId → Bool
  starts : Nat → Bool

namespace WatchlistStore

/-- The rating key under which a server holds a title, where an answer says so. -/
def heldAs (sid : ServerId) : ServerId × Asked → Option Int
  | (s, .held ratingKey) => if s = sid then some ratingKey else none
  | (_, .absent) => none

/-- The row behind a rating key of a server; a later row takes the place of an earlier one. -/
def heldByRk (w : WatchlistStore) (sid : ServerId) (ratingKey : Int) : Option Ask :=
  (w.rows.flatMap (fun r => ((w.byGuid r.guid).filterMap (heldAs sid)).map (fun rk => (rk, (r.guid, r.kind))))).reverse.lookup ratingKey

def rowsOf (w : WatchlistStore) (kind : Kind) : List Ask :=
  (w.rows.filter (fun r => r.kind = kind)).map (fun r => (r.guid, r.kind))

def unmatchedOn (w : WatchlistStore) (sid : ServerId) (kind : Kind) : List Ask :=
  (w.rows.filter (fun r => r.kind = kind && !(w.byGuid r.guid).any (fun answer => (heldAs sid answer).isSome))).map
    (fun r => (r.guid, r.kind))

/-- Whether a server is taken to have been asked again, as the re-match behind `before` others. -/
def rematchOn (w : WatchlistStore) (before : Nat) (sid : ServerId) (asks : List Ask) : Bool :=
  if !w.isReady then false
  else if asks.isEmpty || !w.reachable sid then true
  else w.starts before

end WatchlistStore
end

def maxSessions : Nat := 64

def framesPerS : Nat := 60

def quietSpacingS : Nat := 5

/-- The least spacing between two spendings of one kind on a server, in calls. -/
def librarySpacingFrames : Nat := quietSpacingS * framesPerS

structure Owed where
  /-- An item, and whether it owes its Detail page. -/
  reads : List (Key × Bool) := []
  refetch : List ServerId := []
  invalidate : List ServerId := []
  listings : List ServerId := []

namespace Owed

def isEmpty (o : Owed) : Bool := o.reads.isEmpty && o.refetch.isEmpty && o.invalidate.isEmpty && o.listings.isEmpty

/-- An owing ask is never downgraded to a quiet one. -/
def read (o : Owed) (key : Key) (owing : Bool) : Owed :=
  { o with reads := update key (fun was => was.getD false || owing) o.reads }

def oweRefetch (o : Owed) (sid : ServerId) : Owed := { o with refetch := pushUnique sid o.refetch }

def oweInvalidate (o : Owed) (sid : ServerId) : Owed := { o with invalidate := pushUnique sid o.invalidate }

def oweListings (o : Owed) (sid : ServerId) : Owed := { o with listings := pushUnique sid o.listings }

end Owed

/-- What the library changes of a server owe the Watchlist for one kind. -/
structure LibraryOwed where
  /-- Titles of tiles whose item was deleted. -/
  gone : List Text := []
  added : Bool := false
  /-- Ask again about every title of the kind. -/
  sweep : Bool := false

structure NotifyMap where
  /-- The longest quiet session stands first. -/
  lastState : List (Key × (Text × PlayState)) := []
  owed : Owed := {}
  library : List ((ServerId × Kind) × LibraryOwed) := []
  libraryNext : List ((ServerId × Kind) × Nat) := []
  listingsNext : List (ServerId × Nat) := []
  /-- The calls so far. -/
  frame : Nat := 0

namespace NotifyMap

def owedIsEmpty (m : NotifyMap) : Bool := m.owed.isEmpty && m.library.isEmpty

/-- A stalled stream is a playing one, and an unnamed state is none at all. -/
def settled : PlayState → Option PlayState
  | .other => none
  | .buffering => some .playing
  | state => some state

/-- Where a session has to go, one that is over does. -/
def victim (m : NotifyMap) : Nat := (m.lastState.findIdx? (fun entry => entry.2.2 = .stopped)).getD 0

/-- Record the latest state of a session, and whether it is news. -/
def observe (m : NotifyMap) (sid : ServerId) (session rk : Text) (state : PlayState) : Bool × NotifyMap :=
  match settled state with
  | none => (false, m)
  | some state =>
    let id := (sid, session)
    match m.lastState.lookup id with
    | some was =>
      (was.1 ≠ rk || was.2 ≠ state,
        { m with lastState := m.lastState.eraseP (fun entry => entry.1 = id) ++ [(id, (rk, state))] })
    | none =>
      let kept := if maxSessions ≤ m.lastState.length then m.lastState.eraseIdx m.victim else m.lastState
      (true, { m with lastState := kept ++ [(id, (rk, state))] })

def forgetServer (m : NotifyMap) (sid : ServerId) : NotifyMap :=
  { m with lastState := m.lastState.filter (fun entry => entry.1.1 ≠ sid) }

def libraryOwe (m : NotifyMap) (sid : ServerId) (kind : Kind) (change : LibraryOwed → LibraryOwed) : NotifyMap :=
  { m with library := update (sid, kind) (fun o => change (o.getD {})) m.library }

def libraryDue (m : NotifyMap) (sid : ServerId) (kind : Kind) : Bool :=
  match m.libraryNext.lookup (sid, kind) with
  | none => true
  | some due => due ≤ m.frame

def listingsDue (m : NotifyMap) (sid : ServerId) : Bool :=
  match m.listingsNext.lookup sid with
  | none => true
  | some due => due ≤ m.frame

/-- All that is owed but the listings of servers inside their spacing, which stay owed. -/
def takeDue (m : NotifyMap) : Owed × NotifyMap :=
  ({ m.owed with listings := m.owed.listings.filter m.listingsDue },
    { m with owed := { listings := m.owed.listings.filter (fun sid => !m.listingsDue sid) } })

def listingsSpent (m : NotifyMap) (sid : ServerId) : NotifyMap :=
  { m with listingsNext := update sid (fun _ => m.frame + librarySpacingFrames) m.listingsNext }

def librarySpent (m : NotifyMap) (sid : ServerId) (kind : Kind) : NotifyMap :=
  { m with libraryNext := update (sid, kind) (fun _ => m.frame + librarySpacingFrames) m.libraryNext }

end NotifyMap

/-- What the pages hold: the cards of the stores, and the items of the Detail pages. -/
structure Held where
  cards : List Key
  details : List Key

namespace Held

def card (h : Held) (sid : ServerId) (rk : Text) : Bool := (sid, rk) ∈ h.cards

def detail (h : Held) (sid : ServerId) (rk : Text) : Bool := (sid, rk) ∈ h.details

end Held

inductive Effect where
  | enqueue (key : Key)
  | enqueueReread (key : Key)
  | rematch (sid : ServerId) (asks : List Ask) (accepted : Bool)
  | refetchSourceQuiet (sid : ServerId)
  | listingsChanged (sid : ServerId) (libraryOnStack : Bool)
  | hubsInvalidateServer (sid : ServerId)

structure Spent where
  refetched : List ServerId := []
  invalidated : List ServerId := []
  relisted : List ServerId := []

/-- What one call is given, and what it finds. -/
structure Call where
  out : NotifyOut
  held : Held
  libraryShown : Bool
  rereadAllowed : Bool
  watchlist : WatchlistStore

section

/-- What happened to the library during the gap was missed. -/
def resync (w : WatchlistStore) (m : NotifyMap) (server : ServerId × Nat) : NotifyMap :=
  let m := m.forgetServer server.1
  if w.isReady then
    [Kind.movie, .show_].foldl (fun m kind => m.libraryOwe server.1 kind (fun o => { o with sweep := true })) m
  else m

def parseItem (itemId : Text) : Option Int := Usize.parseI64 (trim itemId)

/-- What one create or delete owes, with the tiles of its server where deletes are followed to them. -/
def oweEntry (follow : Bool) (held : Option (Int → Option Ask)) (sid : ServerId) (m : NotifyMap) (e : LibraryEntry) : NotifyMap :=
  let kind := watchKind e.kind
  match e.state with
  | .created => if follow then m.libraryOwe sid kind (fun o => { o with added := true }) else m
  | .deleted =>
    if follow then
      match held with
      | none => m.libraryOwe sid kind (fun o => { o with sweep := true })
      | some held => match (parseItem e.itemId).bind held with
        | none => m
        | some (guid, _) => m.libraryOwe sid kind (fun o => { o with gone := pushUnique guid o.gone })
    else m

def oweLibrary (w : WatchlistStore) (m : NotifyMap) (library : NotifyLibrary) : NotifyMap :=
  -- A read to come finds the change; one that is out may have asked before it.
  let follow := w.isReady || w.readInFlight
  let held := if w.isReady && library.entries.any (fun e => e.state = .deleted) then some (w.heldByRk library.sid) else none
  library.entries.foldl (oweEntry follow held library.sid) m

def reportLibrary (w : WatchlistStore) (m : NotifyMap) (library : NotifyLibrary) : NotifyMap :=
  let m := oweLibrary w m library
  { m with owed := ((m.owed.oweRefetch library.sid).oweInvalidate library.sid).oweListings library.sid }

/-- The session of a report; a client and an item stand in for one that is not named. -/
def sessionOf (s : PlaySession) (rk : Text) : Text :=
  match s.sessionKey.filter (· ≠ []) with
  | some key => key
  | none => s.clientIdentifier.getD [] ++ '\x1f' :: rk

def reportSession (held : Held) (sid : ServerId) (m : NotifyMap) (s : PlaySession) : NotifyMap :=
  match s.ratingKey.filter (· ≠ []) with
  | none => m
  | some rk =>
    let (news, m) := m.observe sid (sessionOf s rk) rk s.state
    if news then
      let detail := held.detail sid rk
      let isHeld := detail || held.card sid rk
      let owed := if isHeld then m.owed.read (sid, rk) detail else m.owed
      let owed :=
        if s.state = .stopped then
          if isHeld then owed.oweRefetch sid else (owed.oweRefetch sid).oweInvalidate sid
        else owed
      { m with owed }
    else m

def reportPlays (held : Held) (m : NotifyMap) (plays : NotifyPlays) : NotifyMap :=
  plays.sessions.foldl (reportSession held plays.sid) m

/-- What the notifications of one call add to what is owed. -/
def arrive (m : NotifyMap) (call : Call) : NotifyMap :=
  let m := { m with frame := m.frame + 1 }
  let m := call.out.resynced.foldl (resync call.watchlist) m
  let m := call.out.library.foldl (reportLibrary call.watchlist) m
  call.out.plays.foldl (reportPlays call.held) m

end
section

def firstAsks (seen : List Text) : List Ask → List Ask
  | [] => []
  | ask :: rest => if ask.1 ∈ seen then firstAsks seen rest else ask :: firstAsks (ask.1 :: seen) rest

def asksFor (w : WatchlistStore) (sid : ServerId) (kind : Kind) (owe : LibraryOwed) : List Ask :=
  firstAsks [] (owe.gone.map (fun guid => (guid, kind)) ++
    if owe.sweep then w.rowsOf kind else if owe.added then w.unmatchedOn sid kind else [])

/-- The re-matches of a call so far, with what stays queued. -/
structure Rematching where
  map : NotifyMap
  kept : List ((ServerId × Kind) × LibraryOwed) := []
  effects : List Effect := []

def rematchOwed (w : WatchlistStore) (state : Rematching) (entry : (ServerId × Kind) × LibraryOwed) : Rematching :=
  let ((sid, kind), owe) := entry
  if !w.isReady || !state.map.libraryDue sid kind then { state with kept := state.kept ++ [entry] }
  else
    let asks := asksFor w sid kind owe
    let accepted := w.rematchOn state.effects.length sid asks
    let effects := state.effects ++ [.rematch sid asks accepted]
    if accepted then { state with map := if asks.isEmpty then state.map else state.map.librarySpent sid kind, effects }
    else { state with kept := state.kept ++ [entry], effects }

/-- Spend the re-matches that are due; the others stay queued. -/
def spendLibraryOwed (w : WatchlistStore) (m : NotifyMap) : NotifyMap × List Effect :=
  let state := m.library.foldl (rematchOwed w) { map := { m with library := [] } }
  ({ state.map with library := state.kept }, state.effects)

def readEffect (read : Key × Bool) : Effect := if read.2 then .enqueue read.1 else .enqueueReread read.1

def dueEffects (owed : Owed) (libraryShown : Bool) : List Effect :=
  owed.reads.map readEffect ++ owed.refetch.map .refetchSourceQuiet ++
    owed.listings.map (fun sid => .listingsChanged sid libraryShown) ++ owed.invalidate.map .hubsInvalidateServer

/-- Spend what is owed, while reads are allowed. -/
def spendNotifyOwed (m : NotifyMap) (call : Call) : NotifyMap × List Effect × Spent :=
  if m.owedIsEmpty || !call.rereadAllowed then (m, [], {})
  else
    let (m, rematches) := spendLibraryOwed call.watchlist m
    let (owed, m) := m.takeDue
    if owed.isEmpty then (m, rematches, {})
    else
      (owed.listings.foldl NotifyMap.listingsSpent m, rematches ++ dueEffects owed call.libraryShown,
        ⟨owed.refetch, owed.invalidate, owed.listings⟩)

/-- Map the notifications of one call to what they owe, then spend what may be spent now. -/
def notifyMap (m : NotifyMap) (call : Call) : NotifyMap × List Effect × Spent := spendNotifyOwed (arrive m call) call

end
end PlxNative.Notify
