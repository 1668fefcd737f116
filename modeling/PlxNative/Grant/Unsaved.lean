import PlxNative.Grant.Table
import PlxNative.Lib.Transducer

/-! The refusals whose write is not yet known to be in the session file. The storage worker takes
the writes in the order they were queued, and tells of each when it is over. -/
namespace PlxNative.Grant
open Transducer (Event latest)

/-- The session file as far as consent goes: the account it belongs to, and its answers. -/
structure SessionFile where
  account : Text
  plaintextConsent : List PlaintextConsent

namespace SessionFile

def plaintextChoice (file : SessionFile) (account machineId : Text) : PlaintextChoice :=
  ((file.plaintextConsent.find? (fun c => c.account = account && c.machineId = machineId)).map (·.choice)).getD .undecided

def withPlaintextChoice (file : SessionFile) (account machineId : Text) (choice : PlaintextChoice) : SessionFile :=
  let others := file.plaintextConsent.filter (fun c => c.account = account && c.machineId ≠ machineId)
  { file with
    plaintextConsent :=
      if choice ≠ .undecided && !machineId.isEmpty && !account.isEmpty then others ++ [⟨machineId, account, choice⟩] else others }

end SessionFile

structure Unsaved where
  answer : Answer
  inFlight : Bool
  due : Option Nat
  attempts : Nat

/-- `retry_secs` in milliseconds: the hub retry's backoff, and then its doublings. -/
def retryMs (attempt : Nat) : Nat :=
  min (min (2 * 2 ^ (min attempt 5 - 1)) 30 * 2 ^ min (attempt - 5) 16) 600 * 1000

def after (now attempt : Nat) : Nat := (now + retryMs attempt) % 2 ^ 32

def isDue (now due : Nat) : Bool := (now + (2 ^ 32 - due % 2 ^ 32)) % 2 ^ 32 < 2 ^ 31

/-- A refusal at a frame, and its write where it is queued again. -/
def Unsaved.rearm (now : Nat) (u : Unsaved) : Unsaved × Option Answer :=
  if u.inFlight then (u, none)
  else match u.due with
    | none => ({ u with due := some (after now u.attempts) }, none)
    | some due =>
      if isDue now due then
        ({ u with due := none, inFlight := true, attempts := min (u.attempts + 1) (2 ^ 32 - 1) }, some u.answer)
      else (u, none)

/-- A write is over: the first refusal that is the same answer has landed, or waits for another. -/
def written (answer : Answer) (landed : Bool) : List Unsaved → List Unsaved
  | [] => []
  | u :: rest =>
    if u.answer = answer then (if landed then rest else { u with inFlight := false } :: rest)
    else u :: written answer landed rest

/-- The refusals, the writes that are queued, the one that is over but not yet told of, and the
file. -/
structure Writer where
  unsaved : List Unsaved
  unsavedCount : Nat
  jobs : List Answer
  over_ : Option (Answer × Bool)
  file : SessionFile

inductive WriterMove where
  | record (machineId : Text) (choice : PlaintextChoice)
  /-- The storage worker runs the first write, which lands or fails. -/
  | run (lands : Bool)
  /-- It tells of the write that is over. -/
  | tell
  | frame (now : Nat)

namespace Writer

def new (file : SessionFile) : Writer := ⟨[], 0, [], none, file⟩

def hold (w : Writer) (unsaved : List Unsaved) : Writer := { w with unsaved := unsaved, unsavedCount := unsaved.length }

/-- An answer of the account that is signed in, which the file belongs to. -/
def record (w : Writer) (machineId : Text) (choice : PlaintextChoice) : Writer :=
  if w.file.account.isEmpty then w
  else
    let answer : Answer := ⟨w.file.account, machineId, choice⟩
    let others := w.unsaved.filter (fun u => u.answer.account ≠ answer.account || u.answer.machineId ≠ machineId)
    let held := w.hold (if choice.allows then others else others ++ [⟨answer, true, none, 1⟩])
    { held with jobs := held.jobs ++ [answer] }

/-- What a write that lands leaves in the file. -/
def landed (file : SessionFile) (a : Answer) : SessionFile :=
  if file.account = a.account && file.plaintextChoice a.account a.machineId ≠ a.choice then
    file.withPlaintextChoice a.account a.machineId a.choice
  else file

def run (w : Writer) (lands : Bool) : Writer :=
  match w.over_, w.jobs with
  | none, answer :: rest =>
    { w with jobs := rest, over_ := some (answer, lands), file := if lands then landed w.file answer else w.file }
  | _, _ => w

def tell (w : Writer) : Writer :=
  match w.over_ with
  | some (answer, landed) => { w.hold (written answer landed w.unsaved) with over_ := none }
  | none => w

def rewriteUnsaved (w : Writer) (now : Nat) : Writer :=
  if w.unsavedCount = 0 then w
  else
    { w with
      unsaved := w.unsaved.map (fun u => (u.rearm now).1)
      jobs := w.jobs ++ w.unsaved.filterMap (fun u => (u.rearm now).2) }

def step (w : Writer) : WriterMove → Writer × Unit
  | .record machineId choice => (w.record machineId choice, ())
  | .run lands => (w.run lands, ())
  | .tell => (w.tell, ())
  | .frame now => (w.rewriteUnsaved now, ())

end Writer

abbrev WriterStep : Type := Event Writer WriterMove Unit

section

/-- The answer for a server that a move recorded. -/
def WriterStep.recorded (machineId : Text) (x : WriterStep) : Option PlaintextChoice :=
  match x.input with
  | .record machine choice => if machine = machineId && !x.before.file.account.isEmpty then some choice else none
  | _ => none

/-- The newest answer that was recorded for a server. -/
def newest (past : List WriterStep) (machineId : Text) : Option PlaintextChoice := latest (WriterStep.recorded machineId) past

/-- The write for a server that a move ran, and whether it landed. -/
def WriterStep.ran (machineId : Text) (x : WriterStep) : Option (PlaintextChoice × Bool) :=
  match x.input, x.before.over_, x.before.jobs with
  | .run lands, none, answer :: _ => if answer.machineId = machineId then some (answer.choice, lands) else none
  | _, _, _ => none

/-- The newest refusal for a server is in the file, and no queued write could replace it, or it
waits to be written again. -/
def RefusalKept (past : List WriterStep) (w : Writer) : Prop :=
  ∀ machineId choice, machineId ≠ [] → newest past machineId = some choice → choice.allows = false →
    (w.file.plaintextChoice w.file.account machineId = choice ∧ ∀ job ∈ w.jobs, job.machineId = machineId → job.choice = choice) ∨
      ∃ u ∈ w.unsaved, u.answer = ⟨w.file.account, machineId, choice⟩

/-- Where nothing is queued or waiting and the last write of every newest answer landed, the file
has every newest answer. -/
def SettledExact (past : List WriterStep) (w : Writer) : Prop :=
  w.jobs = [] → w.over_ = none → w.unsaved = [] →
    (∀ machineId choice, newest past machineId = some choice →
      ∃ last, latest (WriterStep.ran machineId) past = some (last, true)) →
    ∀ machineId choice, machineId ≠ [] → newest past machineId = some choice →
      w.file.plaintextChoice w.file.account machineId = choice

/-- A write that landed is told of while a queued one for the same server has another answer, and
the refusal that waits is taken for the one that landed. -/
def Overtaken (w : Writer) : Prop :=
  w.over_.any (fun o => o.2 && !o.1.machineId.isEmpty && w.unsaved.any (·.answer = o.1) &&
    w.jobs.any (fun job => job.machineId = o.1.machineId && job.choice ≠ o.1.choice)) = true

instance (w : Writer) : Decidable (Overtaken w) := inferInstanceAs (Decidable (_ = true))

end
end PlxNative.Grant
