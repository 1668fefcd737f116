import PlxNative.Machine.Landing

/-! The landing gate: which frame a worker's answer may be consumed on. Every call is made on the
main thread, so a take, which locks more than once, is one transition. A map is the function to
its entries, an absent key having the empty one, and a mailbox is a state that each poll moves on. -/
namespace PlxNative.Machine

inductive Diff
  | late
  | extra
  | missing
deriving DecidableEq

/-- What a dump's takes do about an answer that is not there yet: sleep for so many polls, or
report it and hold it back for a lag. -/
inductive Dump
  | block (polls : Nat)
  | pace (lag : Nat)
deriving DecidableEq

inductive Mode
  | off
  | recording
  | replaying
  | dumping (form : Dump)
deriving DecidableEq

/-- A store and the call that takes from one of its mailboxes. -/
structure Site where
  ord : StoreOrd
  caller : Nat
deriving DecidableEq

inductive Phase
  | hold
  | due
  | free
deriving DecidableEq

inductive Panic
  | armed
  | plainTake (ord : StoreOrd)
  | blocking
  | stillOwed (name : String)

structure Gate (α : Type) where
  armed : Bool
  mode : Mode
  frame : Nat
  lands : StoreOrd → Nat
  sched : StoreOrd → List (Nat × Nat)
  waited : List StoreOrd
  diffs : List (Nat × StoreOrd × Diff)
  plain : StoreOrd → Nat
  strict : Bool
  vframe : Nat
  sighted : Site → Option Nat
  starved : List String
  lagged : List String
  carry : Site → List α

def maxDiffs : Nat := 64

def waitPolls : Nat := 400

variable {α W T : Type}

/-- The due-frame poll: the mailbox for a bounded moment. -/
def waitFor (f : W → Option T × W) : Nat → W → Option T × W
  | 0, w => (none, w)
  | polls + 1, w => match f w with
    | (some v, w) => (some v, w)
    | (none, w) => waitFor f polls w

def noteName (names : List String) (name : String) : List String :=
  if name ∈ names then names else names.orderedInsert (· ≤ ·) name

namespace Gate

/-- The empty state of a mode: every counter and schedule cleared. -/
def new (armed : Bool) (mode : Mode) : Gate α :=
  { armed, mode, frame := 0, lands := fun _ => 0, sched := fun _ => [], waited := [], diffs := [], plain := fun _ => 0,
    strict := false, vframe := 0, sighted := fun _ => none, starved := [], lagged := [], carry := fun _ => [] }

def armRecording : Gate α := new true .recording

def armSparseReplay (sched : StoreOrd → List (Nat × Nat)) : Gate α := { new true .replaying with sched }

def armDumpWith (g : Gate α) (form : Dump) (strict : Bool) : Except Panic (Gate α) :=
  match g.mode with
  | .off | .dumping _ => .ok { new true (.dumping form) with strict }
  | .recording | .replaying => .error .armed

def armDumpPaced (g : Gate α) (lag : Nat) : Except Panic (Gate α) := g.armDumpWith (.pace lag) true

def disarm : Gate α := new false .off

def beginFrame (g : Gate α) (f : Nat) : Gate α :=
  if g.armed then { g with frame := f, lands := fun _ => 0, waited := [] } else g

/-- The gate's whole answer for one site; a due frame's wait is claimed by the first to ask. -/
def phase (g : Gate α) (ord : StoreOrd) : Phase × Gate α :=
  if !g.armed then (.free, g)
  else if g.mode ≠ .replaying then (.free, g)
  else match g.sched ord with
    | [] => (.free, g)
    | (recorded, _) :: _ =>
      if g.frame < recorded then (.hold, g)
      else if recorded = g.frame then
        if ord ∈ g.waited then (.free, g) else (.due, { g with waited := ord :: g.waited })
      else (.free, g)

def held (g : Gate α) (ord : StoreOrd) : Bool × Gate α := ((g.phase ord).1 == .hold, (g.phase ord).2)

def noteDiff (g : Gate α) (ord : StoreOrd) (why : Diff) : Gate α :=
  if g.diffs.length < maxDiffs then { g with diffs := g.diffs ++ [(g.frame, ord, why)] } else g

/-- Why a landing of this store would not match its recorded frame. -/
def why (g : Gate α) (ord : StoreOrd) : Option Diff :=
  match g.sched ord with
  | (recorded, _) :: _ => if recorded < g.frame then some .late else none
  | [] => some .extra

/-- A schedule with one unit of its first entry spent. -/
def spend : List (Nat × Nat) → List (Nat × Nat)
  | [] => []
  | (recorded, left) :: rest => if left - 1 = 0 then rest else (recorded, left - 1) :: rest

def landed (g : Gate α) (ord : StoreOrd) : Gate α :=
  if !g.armed then g
  else match g.mode with
    | .recording => { g with lands := Function.update g.lands ord (g.lands ord + 1) }
    | .off | .dumping _ => g
    | .replaying =>
      let spent := { g with sched := Function.update g.sched ord (spend (g.sched ord)) }
      match g.why ord with
      | some why => spent.noteDiff ord why
      | none => spent

/-- A plain take is counted under dump mode, and refused there when armed strict. -/
def notePlainTake (g : Gate α) (ord : StoreOrd) : Except Panic (Gate α) :=
  match g.mode with
  | .dumping _ =>
    if g.strict then .error (.plainTake ord) else .ok { g with plain := Function.update g.plain ord (g.plain ord + 1) }
  | _ => .ok g

def take (g : Gate α) (ord : StoreOrd) (f : W → Option T × W) (w : W) : Except Panic (Option T × Gate α × W) :=
  if !g.armed then .ok ((f w).1, g, (f w).2)
  else do
    let g ← g.notePlainTake ord
    let (phase, g) := g.phase ord
    if phase = .hold then return (none, g, w)
    let (got, w) := if phase = .due then waitFor f waitPolls w else f w
    return (got, if got.isSome then g.landed ord else g, w)

def nonempty (f : W → List T × W) (w : W) : Option (List T) × W :=
  (if (f w).1.isEmpty then none else some (f w).1, (f w).2)

def takeAll (g : Gate α) (ord : StoreOrd) (f : W → List T × W) (w : W) : Except Panic (List T × Gate α × W) :=
  if !g.armed then .ok ((f w).1, g, (f w).2)
  else do
    let g ← g.notePlainTake ord
    let (phase, g) := g.phase ord
    if phase = .hold then return ([], g, w)
    let (got, w) := if phase = .due then ((waitFor (nonempty f) waitPolls w).1.getD [], (waitFor (nonempty f) waitPolls w).2) else f w
    return (got, if got.isEmpty then g else g.landed ord, w)

/-- What the frame just finished landed, store by store. -/
def takeFrameLands (g : Gate α) : (StoreOrd → Nat) × Gate α :=
  if g.armed then (g.lands, { g with lands := fun _ => 0 }) else (fun _ => 0, g)

def takeDiffs (g : Gate α) : List (Nat × StoreOrd × Diff) × Gate α :=
  if g.armed then (g.diffs, { g with diffs := [] }) else ([], g)

/-- At the end of a replay: every recorded landing it never produced, store by store. -/
def unmatchedCounts (g : Gate α) : (StoreOrd → List (Nat × Nat)) × Gate α :=
  if g.armed then (g.sched, { g with sched := fun _ => [] }) else (fun _ => [], g)

def dumpFrame (g : Gate α) (v : Nat) : Gate α := if g.armed then { g with vframe := v } else g

def takeStarved (g : Gate α) : List String × Gate α :=
  if g.armed then (g.starved, { g with starved := [] }) else ([], g)

def takeLagged (g : Gate α) : List String × Gate α :=
  if g.armed then (g.lagged, { g with lagged := [] }) else ([], g)

/-- Must this site's answer wait for its landing frame? The first sighting of an open claim fixes it. -/
def paceHold (g : Gate α) (site : Site) (name : String) (lag : Nat) (claimOpen : Bool) : Bool × Gate α :=
  if lag = 0 ∨ !claimOpen then (false, g)
  else
    let since := (g.sighted site).getD g.vframe
    let g := { g with sighted := Function.update g.sighted site (some since) }
    if g.vframe < since + lag then (true, { g with lagged := noteName g.lagged name }) else (false, g)

/-- A take is over: the sighting is forgotten, or the store is starved. -/
def paceSettle (g : Gate α) (site : Site) (name : String) (done : Bool) : Gate α :=
  if done then { g with sighted := Function.update g.sighted site none }
  else { g with starved := noteName g.starved name }

def carried (g : Gate α) (site : Site) : List α × Gate α :=
  (g.carry site, { g with carry := Function.update g.carry site [] })

def carryOn (g : Gate α) (site : Site) (batch : List α) : Gate α :=
  if batch.isEmpty then g else { g with carry := Function.update g.carry site batch }

/-- The blocking dump's wait for one answer; a frame refuses it. -/
def blockFor (name : String) (mayBlock : Bool) (owed : W → Bool) (f : W → Option T × W) :
    Nat → W → Except Panic (Option T × W)
  | polls, w => match f w with
    | (some v, w) => .ok (some v, w)
    | (none, w) =>
      if !owed w then .ok (none, w)
      else if !mayBlock then .error .blocking
      else match polls with
        | 0 => .error (.stillOwed name)
        | polls + 1 => blockFor name mayBlock owed f polls w

def blockForAll (name : String) (mayBlock : Bool) (owed : W → List T → Bool) (f : W → List T × W) :
    Nat → List T → W → Except Panic (List T × W)
  | polls, out, w =>
    let out := out ++ (f w).1
    let w := (f w).2
    if !owed w out then .ok (out, w)
    else if !mayBlock then .error .blocking
    else match polls with
      | 0 => .error (.stillOwed name)
      | polls + 1 => blockForAll name mayBlock owed f polls out w

def takePaced (g : Gate α) (site : Site) (name : String) (lag : Nat) (owed : W → Bool) (f : W → Option T × W) (w : W) :
    Option T × Gate α × W :=
  let (hold, g) := g.paceHold site name lag (owed w)
  if hold then (none, g, w)
  else
    let (got, w) := f w
    (got, g.paceSettle site name (got.isSome || !owed w), w)

/-- The paced dump's take of a whole batch. -/
def takeAllPaced (g : Gate α) (site : Site) (name : String) (lag : Nat) (owed : W → List α → Bool) (f : W → List α × W)
    (w : W) : List α × Gate α × W :=
  let (batch, g) := g.carried site
  let (hold, g) := g.paceHold site name lag (owed w batch)
  if hold then ([], g.carryOn site batch, w)
  else
    let (got, w) := f w
    let batch := batch ++ got
    if owed w batch then ([], (g.paceSettle site name false).carryOn site batch, w)
    else (batch, g.paceSettle site name true, w)

def takeOwed (g : Gate α) (site : Site) (name : String) (mayBlock : Bool) (owed : W → Bool) (f : W → Option T × W) (w : W) :
    Except Panic (Option T × Gate α × W) :=
  if !g.armed then .ok ((f w).1, g, (f w).2)
  else match g.mode with
    | .dumping (.pace lag) => .ok (g.takePaced site name lag owed f w)
    | .dumping (.block polls) => do
        let (got, w) ← blockFor name mayBlock owed f polls w
        return (got, g, w)
    | _ => g.take site.ord f w

def takeAllOwed (g : Gate α) (site : Site) (name : String) (mayBlock : Bool) (owed : W → List α → Bool)
    (f : W → List α × W) (w : W) : Except Panic (List α × Gate α × W) :=
  if !g.armed then .ok ((f w).1, g, (f w).2)
  else match g.mode with
    | .dumping (.pace lag) => .ok (g.takeAllPaced site name lag owed f w)
    | .dumping (.block polls) => do
        let (got, w) ← blockForAll name mayBlock owed f polls [] w
        return (got, g, w)
    | _ => g.takeAll site.ord f w

end Gate
end PlxNative.Machine
