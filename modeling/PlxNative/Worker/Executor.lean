import PlxNative.Lib.Transducer

/-! The bounded executor of blocking persistence work, and the backlog of user edits that wait
for a place in it. A retained edit is named by its number in the order of submission. Each hold
of a lock is one step, and a worker takes its own steps between them. -/
namespace PlxNative.Worker

def capacity : Nat := 8

inductive SubmitError where
  | full
  | stopped
  | startFailed
deriving DecidableEq

/-- What is queued: the closure around the cell that holds a retained edit, or other work. -/
inductive Command where
  | retained (cell : Nat)
  | ordinary
deriving DecidableEq

/-- Where the worker stands: it waits, it has received a command, it runs one, the command has
panicked with the receiver still open, the receiver is dropped. -/
inductive Phase where
  | receiving
  | received (command : Command)
  | running (job : Option Nat)
  | unwound
  | closed
deriving DecidableEq

def heldIn (cells : Nat → Option Nat) : Command → List Nat
  | .retained cell => (cells cell).toList
  | .ordinary => []

structure Writer where
  queue : List Command
  phase : Phase

def Writer.start : Writer := ⟨[], .receiving⟩

/-- What an admission meets: a thread that is refused, a queue that answers full. -/
structure Weather where
  startRefused : Bool
  full : Bool

def Writer.submitWithReply (w : Writer) (weather : Weather) (command : Command) : Writer × Option SubmitError :=
  if w.phase = .closed then (w, some .stopped)
  else if weather.full || capacity ≤ w.queue.length then (w, some .full)
  else ({ w with queue := w.queue ++ [command] }, none)

/-- The slot is emptied behind a worker that has stopped. -/
def admitted (answer : Writer × Option SubmitError) : Option Writer × Option SubmitError :=
  (if answer.2 = some .stopped then none else some answer.1, answer.2)

def submitShared (slot : Option Writer) (weather : Weather) (command : Command) : Option Writer × Option SubmitError :=
  match slot with
  | some writer => admitted (writer.submitWithReply weather command)
  | none =>
    if weather.startRefused then (none, some .startFailed)
    else admitted (Writer.start.submitWithReply weather command)

/-- Where the one caller stands that holds the lock of the backlog: nobody does, it is about to
pop, it has popped an edit into a cell, its submit was refused. -/
inductive Pump where
  | free
  | looping
  | carrying (cell : Nat)
  | refused (cell : Nat) (error : SubmitError)
deriving DecidableEq

/-- `Duration::from_secs(1)`, in milliseconds. -/
def retryDelay : Nat := 1000

structure Executor where
  slot : Option Writer
  jobs : List Nat
  retryAt : Option Nat
  pump : Pump
  cells : Nat → Option Nat
  nextCell : Nat
  submitted : Nat

inductive Op where
  | submitRetained (now : Nat)
  | pumpRetained (now : Nat)
  | advance (weather : Weather) (now : Nat)
  | submit (weather : Weather)
  | receive
  | enter
  | finish
  | panic
  | close

/-- What becomes of retained edits in one step. -/
structure Outcome where
  started : List Nat
  finished : List Nat
  dropped : List Nat

def Outcome.quiet : Outcome := ⟨[], [], []⟩

namespace Executor

def new : Executor := ⟨none, [], none, .free, fun _ => none, 0, 0⟩

/-- The retry gate, with the lock just taken. -/
def pumpRetainedLocked (s : Executor) (now : Nat) : Executor :=
  if s.retryAt.any (now < ·) then s else { s with retryAt := none, pump := .looping }

def submitRetained (s : Executor) (now : Nat) : Executor :=
  if s.pump = .free then
    { s with jobs := s.jobs ++ [s.submitted], submitted := s.submitted + 1 }.pumpRetainedLocked now
  else s

def pumpRetained (s : Executor) (now : Nat) : Executor := if s.pump = .free then s.pumpRetainedLocked now else s


/-- The next step of the caller that holds the lock. -/
def advance (s : Executor) (weather : Weather) (now : Nat) : Executor :=
  match s.pump with
  | .free => s
  | .looping => match s.jobs with
    | [] => { s with pump := .free }
    | job :: rest =>
      { s with
        jobs := rest
        cells := Function.update s.cells s.nextCell (some job)
        nextCell := s.nextCell + 1
        pump := .carrying s.nextCell }
  | .carrying cell =>
    let answer := submitShared s.slot weather (.retained cell)
    { s with slot := answer.1, pump := answer.2.elim .looping (.refused cell) }
  | .refused cell error =>
    { s with
      jobs := heldIn s.cells (.retained cell) ++ s.jobs
      cells := Function.update s.cells cell none
      retryAt := if error = .full then s.retryAt else some (now + retryDelay)
      pump := .free }

def submit (s : Executor) (weather : Weather) : Executor :=
  { s with slot := (submitShared s.slot weather .ordinary).1 }

/-- The worker receives, unless its queue is empty. -/
def receive (s : Executor) : Executor :=
  match s.slot with
  | some ⟨command :: rest, .receiving⟩ => { s with slot := some ⟨rest, .received command⟩ }
  | _ => s

/-- The closure takes the edit out of its cell and runs it. -/
def enter (s : Executor) : Executor × Outcome :=
  match s.slot with
  | some ⟨queue, .received (.retained cell)⟩ =>
    ({ s with slot := some ⟨queue, .running (s.cells cell)⟩, cells := Function.update s.cells cell none },
      ⟨heldIn s.cells (.retained cell), [], []⟩)
  | some ⟨queue, .received .ordinary⟩ => ({ s with slot := some ⟨queue, .running none⟩ }, .quiet)
  | _ => (s, .quiet)

def finish (s : Executor) : Executor × Outcome :=
  match s.slot with
  | some ⟨queue, .running job⟩ => ({ s with slot := some ⟨queue, .receiving⟩ }, ⟨[], job.toList, []⟩)
  | _ => (s, .quiet)

def panic (s : Executor) : Executor × Outcome :=
  match s.slot with
  | some ⟨queue, .running job⟩ => ({ s with slot := some ⟨queue, .unwound⟩ }, ⟨[], [], job.toList⟩)
  | _ => (s, .quiet)

/-- The receiver is dropped, and what is queued with it. -/
def close (s : Executor) : Executor × Outcome :=
  match s.slot with
  | some ⟨queue, .unwound⟩ => ({ s with slot := some ⟨[], .closed⟩ }, ⟨[], [], queue.flatMap (heldIn s.cells)⟩)
  | _ => (s, .quiet)

def step (s : Executor) : Op → Executor × Outcome
  | .submitRetained now => (s.submitRetained now, .quiet)
  | .pumpRetained now => (s.pumpRetained now, .quiet)
  | .advance weather now => (s.advance weather now, .quiet)
  | .submit weather => (s.submit weather, .quiet)
  | .receive => (s.receive, .quiet)
  | .enter => s.enter
  | .finish => s.finish
  | .panic => s.panic
  | .close => s.close

end Executor
end PlxNative.Worker
