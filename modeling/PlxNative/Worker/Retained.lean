import PlxNative.Lib.Pipeline
import PlxNative.Worker.Executor

/-! Retained edits are one line in front of one worker: the queue, the edit that is being handed
over and the backlog, in this order. Every step of the code is a step of that line. -/
namespace PlxNative.Worker
open List
open Pipeline (Line Moves Ordered empty_ordered)
open Transducer (Event event history history_invariant run)

abbrev WorkerStep : Type := Event Executor Op Outcome

section

/-- What a worker still has to run, in order. -/
def Writer.commands (w : Writer) : List Command :=
  match w.phase with
  | .received command => command :: w.queue
  | _ => w.queue

def commandsOf (slot : Option Writer) : List Command := slot.elim [] Writer.commands

def runningOf (slot : Option Writer) : List Nat :=
  match slot with
  | some ⟨_, .running job⟩ => job.toList
  | _ => []

def cellOf : Command → Option Nat
  | .retained cell => some cell
  | .ordinary => none

def Pump.carried : Pump → List Command
  | .carrying cell | .refused cell _ => [.retained cell]
  | .free | .looping => []

namespace Executor
variable (s : Executor)

/-- The executor's queue, with the command that is received and not yet run. -/
def queued : List Nat := (commandsOf s.slot).flatMap (heldIn s.cells)

/-- The backlog, with the edit that its lock's holder has in hand. -/
def backlog : List Nat := s.pump.carried.flatMap (heldIn s.cells) ++ s.jobs

def running : List Nat := runningOf s.slot

end Executor

def started (past : List WorkerStep) : List Nat := past.flatMap (fun x => x.answer.started)

def finished (past : List WorkerStep) : List Nat := past.flatMap (fun x => x.answer.finished)

def dropped (past : List WorkerStep) : List Nat := past.flatMap (fun x => x.answer.dropped)

def lineOf (past : List WorkerStep) (s : Executor) : Line Nat :=
  ⟨List.range s.submitted, s.queued ++ s.backlog, s.running, started past, finished past, dropped past⟩

end

section

/-- A worker that has stopped has nothing queued. -/
def Drained (slot : Option Writer) : Prop := ∀ w ∈ slot, w.phase = .closed → w.queue = []

structure Admits (slot : Option Writer) (command : Command) (answer : Option Writer × Option SubmitError) : Prop where
  drained : Drained answer.1
  running : runningOf answer.1 = runningOf slot
  commands : commandsOf answer.1 = commandsOf slot ++ if answer.2 = none then [command] else []

theorem drained_of_open {w : Writer} (open_ : w.phase ≠ .closed) : Drained (some w) := by
  intro v eq closed
  cases Option.mem_some_iff.mp eq
  exact absurd closed open_

theorem commands_queued (w : Writer) (command : Command) :
    ({ w with queue := w.queue ++ [command] } : Writer).commands = w.commands ++ [command] := by
  unfold Writer.commands
  cases w.phase <;> rfl

theorem running_queued (w : Writer) (queue : List Command) : runningOf (some { w with queue := queue }) = runningOf (some w) := by
  obtain ⟨_, _ | _ | _ | _ | _⟩ := w <;> rfl

theorem admitted_admits {w : Writer} (drained : Drained (some w)) (weather : Weather) (command : Command) :
    Admits (some w) command (admitted (w.submitWithReply weather command)) := by
  unfold Writer.submitWithReply
  split
  · rename_i closed
    obtain ⟨queue, phase⟩ := w
    cases (closed : phase = .closed)
    cases (drained _ rfl rfl : queue = [])
    exact ⟨fun v missing => absurd missing (Option.not_mem_none v), rfl, rfl⟩
  · rename_i open_
    split
    · exact ⟨drained, rfl, (append_nil _).symm⟩
    · exact ⟨drained_of_open open_, running_queued w _, commands_queued w command⟩

theorem submitShared_admits {slot : Option Writer} (drained : Drained slot) (weather : Weather) (command : Command) :
    Admits slot command (submitShared slot weather command) := by
  cases slot with
  | some w => exact admitted_admits drained weather command
  | none =>
    simp only [submitShared]
    split
    · exact ⟨drained, rfl, rfl⟩
    · obtain ⟨drained', running, commands⟩ := admitted_admits (drained_of_open (w := .start) nofun) weather command
      exact ⟨drained', running, commands⟩

end

namespace Executor
section
variable {s t : Executor} {past : List WorkerStep} {x : WorkerStep}

/-- The commands between the backlog and the run, in order. -/
def inHand (s : Executor) : List Command := commandsOf s.slot ++ s.pump.carried

def cellsInHand (s : Executor) : List Nat := s.inHand.filterMap cellOf

/-- No cell is in two places, and the next one is fresh. -/
structure Apart (s : Executor) : Prop where
  cells : s.cellsInHand.Nodup
  below : ∀ cell ∈ s.cellsInHand, cell < s.nextCell
  drained : Drained s.slot

theorem waiting_eq (s : Executor) : s.queued ++ s.backlog = s.inHand.flatMap (heldIn s.cells) ++ s.jobs := by
  rw [queued, backlog, inHand, flatMap_append, append_assoc]

theorem heldIn_update {cells : Nat → Option Nat} {cell : Nat} (job : Option Nat) {l : List Command}
    (absent : cell ∉ l.filterMap cellOf) : l.flatMap (heldIn (Function.update cells cell job)) = l.flatMap (heldIn cells) := by
  induction l with
  | nil => rfl
  | cons command rest ih =>
    cases command with
    | ordinary => exact ih absent
    | retained other =>
      have apart : other ≠ cell := (ne_of_not_mem_cons absent).symm
      simp only [flatMap_cons, ih (not_mem_of_not_mem_cons absent), heldIn, Function.update_of_ne apart]

theorem moves_still (quiet : x.answer = .quiet) (submitted : t.submitted = s.submitted)
    (waiting : t.queued ++ t.backlog = s.queued ++ s.backlog) (running : t.running = s.running) :
    Moves (lineOf past s) (lineOf (past ++ [x]) t) := by
  have eq : lineOf (past ++ [x]) t = lineOf past s := by
    simp [lineOf, started, finished, dropped, quiet, Outcome.quiet, submitted, waiting, running]
  rw [eq]
  exact .still

theorem waiting_same (hand : t.inHand = s.inHand) (cells : t.cells = s.cells) (jobs : t.jobs = s.jobs) :
    t.queued ++ t.backlog = s.queued ++ s.backlog := by
  rw [waiting_eq, waiting_eq, hand, cells, jobs]

theorem Apart.same (apart : Apart s) (hand : t.cellsInHand = s.cellsInHand) (next : t.nextCell = s.nextCell)
    (drained : Drained t.slot) : Apart t :=
  ⟨hand ▸ apart.cells, fun cell mem => next ▸ apart.below cell (hand ▸ mem), drained⟩

def Refined (past : List WorkerStep) (s : Executor) (op : Op) : Prop :=
  Moves (lineOf past s) (lineOf (past ++ [event step s op]) (s.step op).1) ∧ Apart (s.step op).1

theorem pumpRetainedLocked_fields (s : Executor) (now : Nat) : (s.pumpRetainedLocked now).slot = s.slot ∧
    (s.pumpRetainedLocked now).jobs = s.jobs ∧ (s.pumpRetainedLocked now).cells = s.cells ∧
    (s.pumpRetainedLocked now).nextCell = s.nextCell ∧ (s.pumpRetainedLocked now).submitted = s.submitted ∧
    (s.pump = .free → (s.pumpRetainedLocked now).pump.carried = []) := by
  unfold pumpRetainedLocked
  split
  · exact ⟨rfl, rfl, rfl, rfl, rfl, fun free => by rw [free]; rfl⟩
  · exact ⟨rfl, rfl, rfl, rfl, rfl, fun _ => rfl⟩

theorem submitRetained_refined (apart : Apart s) (now : Nat) : Refined past s (.submitRetained now) := by
  by_cases free : s.pump = .free
  · have carried : s.pump.carried = [] := by rw [free]; rfl
    obtain ⟨slot, jobs, cells, next, submitted, empty⟩ := pumpRetainedLocked_fields
      { s with jobs := s.jobs ++ [s.submitted], submitted := s.submitted + 1 } now
    have after : (s.step (.submitRetained now)).1 =
        { s with jobs := s.jobs ++ [s.submitted], submitted := s.submitted + 1 }.pumpRetainedLocked now := by
      simp only [step, submitRetained, if_pos free]
    have hand : (s.step (.submitRetained now)).1.inHand = s.inHand := by
      rw [after, inHand, inHand, slot, empty free, carried]
    refine ⟨?_, apart.same (congrArg (List.filterMap cellOf) hand) (by rw [after, next]) (by rw [after, slot]; exact apart.drained)⟩
    have waiting : (s.step (.submitRetained now)).1.queued ++ (s.step (.submitRetained now)).1.backlog =
        s.queued ++ s.backlog ++ [s.submitted] := by
      rw [waiting_eq, waiting_eq, hand, after, cells, jobs, append_assoc]
    have running : (s.step (.submitRetained now)).1.running = s.running := by
      rw [Executor.running, Executor.running, after, slot]
    have line : lineOf (past ++ [event step s (.submitRetained now)]) (s.step (.submitRetained now)).1 =
        { lineOf past s with
          joined := List.range s.submitted ++ [s.submitted]
          waiting := s.queued ++ s.backlog ++ [s.submitted] } := by
      simp only [lineOf, waiting, running]
      simp [started, finished, dropped, event, step, Outcome.quiet, ← range_succ, submitRetained, if_pos free, submitted]
    rw [line]
    exact .joins s.submitted
  · have after : (s.step (.submitRetained now)).1 = s := by simp only [step, submitRetained, if_neg free]
    rw [Refined, after]
    exact ⟨moves_still rfl rfl rfl rfl, apart⟩

theorem pumpRetained_refined (apart : Apart s) (now : Nat) : Refined past s (.pumpRetained now) := by
  by_cases free : s.pump = .free
  · have carried : s.pump.carried = [] := by rw [free]; rfl
    obtain ⟨slot, jobs, cells, next, submitted, empty⟩ := pumpRetainedLocked_fields s now
    have after : (s.step (.pumpRetained now)).1 = s.pumpRetainedLocked now := by simp only [step, pumpRetained, if_pos free]
    have hand : (s.pumpRetainedLocked now).inHand = s.inHand := by rw [inHand, inHand, slot, empty free, carried]
    rw [Refined, after]
    exact ⟨moves_still rfl submitted (waiting_same hand cells jobs) (by rw [running, running, slot]),
      apart.same (congrArg (List.filterMap cellOf) hand) next (slot ▸ apart.drained)⟩
  · have after : (s.step (.pumpRetained now)).1 = s := by simp only [step, pumpRetained, if_neg free]
    rw [Refined, after]
    exact ⟨moves_still rfl rfl rfl rfl, apart⟩

theorem refined_of {op : Op} {o : Outcome} (after : s.step op = (t, o))
    (moves : Moves (lineOf past s) (lineOf (past ++ [⟨s, op, o, t⟩]) t)) (apart : Apart t) : Refined past s op := by
  rw [Refined, event, after]
  exact ⟨moves, apart⟩

theorem refined_quiet {op : Op} (after : s.step op = (t, .quiet)) (submitted : t.submitted = s.submitted)
    (waiting : t.queued ++ t.backlog = s.queued ++ s.backlog) (running : t.running = s.running) (apart : Apart t) :
    Refined past s op :=
  refined_of after (moves_still rfl submitted waiting running) apart

theorem refined_same {op : Op} (after : s.step op = (t, .quiet)) (apart : Apart s) (hand : t.inHand = s.inHand) (cells : t.cells = s.cells)
    (jobs : t.jobs = s.jobs) (next : t.nextCell = s.nextCell) (submitted : t.submitted = s.submitted)
    (running : t.running = s.running) (drained : Drained t.slot) : Refined past s op :=
  refined_quiet after submitted (waiting_same hand cells jobs) running
    (apart.same (congrArg (List.filterMap cellOf) hand) next drained)

theorem refined_self {op : Op} (after : s.step op = (s, .quiet)) (apart : Apart s) : Refined past s op :=
  refined_same after apart rfl rfl rfl rfl rfl rfl apart.drained

section
variable (apart : Apart s)
include apart

theorem Apart.fresh (hand : t.cellsInHand = s.cellsInHand ++ [s.nextCell]) (next : t.nextCell = s.nextCell + 1)
    (drained : Drained t.slot) : Apart t := by
  refine ⟨?_, fun cell mem => ?_, drained⟩
  · rw [hand]
    refine nodup_append.mpr ⟨apart.cells, pairwise_singleton _ _, fun a old b new eq => ?_⟩
    rw [mem_singleton.mp new] at eq
    exact absurd (eq ▸ apart.below a old) (Nat.lt_irrefl _)
  · rw [next]
    rcases mem_append.mp (hand ▸ mem) with old | new
    · exact Nat.lt_succ_of_lt (apart.below cell old)
    · rw [mem_singleton.mp new]
      exact Nat.lt_succ_self _

theorem Apart.fewer (hand : t.cellsInHand.Sublist s.cellsInHand) (next : t.nextCell = s.nextCell)
    (drained : Drained t.slot) : Apart t :=
  ⟨apart.cells.sublist hand, fun cell member => next ▸ apart.below cell (hand.mem member), drained⟩

theorem pop_refined (weather : Weather) (now job : Nat) (rest : List Nat) (pump : s.pump = .looping)
    (jobs : s.jobs = job :: rest) : Refined past s (.advance weather now) := by
  have hand : s.inHand = commandsOf s.slot := by rw [inHand, pump]; exact append_nil _
  have fresh : s.nextCell ∉ (commandsOf s.slot).filterMap cellOf := fun mem =>
    absurd (apart.below s.nextCell (by rwa [cellsInHand, hand])) (Nat.lt_irrefl _)
  refine refined_quiet (t := { s with
      jobs := rest
      cells := Function.update s.cells s.nextCell (some job)
      nextCell := s.nextCell + 1
      pump := .carrying s.nextCell }) (by simp only [step, advance, pump, jobs]) rfl ?_ rfl
    (apart.fresh ?_ rfl apart.drained)
  · rw [waiting_eq, waiting_eq, hand, jobs, inHand, flatMap_append, heldIn_update _ fresh]
    simp [Pump.carried, heldIn]
  · rw [cellsInHand, cellsInHand, hand]
    exact filterMap_append

theorem hand_refined (weather : Weather) (now cell : Nat) (pump : s.pump = .carrying cell) :
    Refined past s (.advance weather now) := by
  obtain ⟨drained, running, commands⟩ := submitShared_admits apart.drained weather (.retained cell)
  refine refined_same (t := { s with
      slot := (submitShared s.slot weather (.retained cell)).1
      pump := (submitShared s.slot weather (.retained cell)).2.elim .looping (.refused cell) })
    (by simp only [step, advance, pump]) apart ?_ rfl rfl rfl rfl running drained
  simp only [inHand, commands, pump]
  cases (submitShared s.slot weather (.retained cell)).2 with
  | none => simp [Pump.carried]
  | some error => simp [Pump.carried]

theorem putBack_refined (weather : Weather) (now cell : Nat) (error : SubmitError)
    (pump : s.pump = .refused cell error) : Refined past s (.advance weather now) := by
  have hand : s.inHand = commandsOf s.slot ++ [.retained cell] := by rw [inHand, pump]; rfl
  have cells : s.cellsInHand = (commandsOf s.slot).filterMap cellOf ++ [cell] := by
    rw [cellsInHand, hand]
    exact filterMap_append
  have nodup := apart.cells
  rw [cells, nodup_append] at nodup
  have absent : cell ∉ (commandsOf s.slot).filterMap cellOf := fun mem => nodup.2.2 cell mem cell mem_cons_self rfl
  refine refined_quiet (t := { s with
      jobs := heldIn s.cells (.retained cell) ++ s.jobs
      cells := Function.update s.cells cell none
      retryAt := if error = .full then s.retryAt else some (now + retryDelay)
      pump := .free }) (by simp only [step, advance, pump]) rfl ?_ rfl (apart.fewer ?_ rfl apart.drained)
  · rw [waiting_eq, waiting_eq, hand, inHand, Pump.carried, append_nil, heldIn_update _ absent]
    simp
  · rw [cells, cellsInHand, inHand, Pump.carried, append_nil]
    exact sublist_append_left _ _

theorem advance_refined (weather : Weather) (now : Nat) : Refined past s (.advance weather now) := by
  cases pump : s.pump with
  | free => exact refined_self (by simp only [step, advance, pump]) apart
  | looping =>
    cases jobs : s.jobs with
    | nil =>
      refine refined_same (t := { s with pump := .free }) (by simp only [step, advance, pump, jobs]) apart ?_
        rfl rfl rfl rfl rfl apart.drained
      rw [inHand, inHand, pump]
      rfl
    | cons job rest => exact pop_refined apart weather now job rest pump jobs
  | carrying cell => exact hand_refined apart weather now cell pump
  | refused cell error => exact putBack_refined apart weather now cell error pump

theorem submit_refined (weather : Weather) : Refined past s (.submit weather) := by
  obtain ⟨drained, running, commands⟩ := submitShared_admits apart.drained weather .ordinary
  have plain : ∀ error : Option SubmitError, (if error = none then [Command.ordinary] else []).flatMap (heldIn s.cells) = [] ∧
      (if error = none then [Command.ordinary] else []).filterMap cellOf = [] := by
    rintro (_ | error) <;> exact ⟨rfl, rfl⟩
  obtain ⟨unheld, uncelled⟩ := plain (submitShared s.slot weather .ordinary).2
  refine refined_quiet (t := s.submit weather) rfl rfl ?_ running (apart.same ?_ rfl drained)
  · simp only [waiting_eq, inHand, submit, commands, flatMap_append, unheld, append_nil]
  · simp only [cellsInHand, inHand, submit, commands, filterMap_append, uncelled, append_nil]

theorem receive_refined : Refined past s .receive := by
  cases slot : s.slot with
  | none => exact refined_self (by simp only [step, receive, slot]) apart
  | some w =>
    obtain ⟨_ | ⟨command, rest⟩, _ | command' | job | _ | _⟩ := w
    case cons.receiving =>
      refine refined_same (t := { s with slot := some ⟨rest, .received command⟩ }) (by simp only [step, receive, slot]) apart ?_
        rfl rfl rfl rfl ?_ (drained_of_open nofun)
      · rw [inHand, inHand, slot]
        rfl
      · rw [running, running, slot]
        rfl
    all_goals exact refined_self (by simp only [step, receive, slot]) apart

theorem enter_retained_refined (queue : List Command) (cell : Nat)
    (slot : s.slot = some ⟨queue, .received (.retained cell)⟩) : Refined past s .enter := by
  have hand : s.inHand = .retained cell :: (queue ++ s.pump.carried) := by rw [inHand, slot]; rfl
  have cells : s.cellsInHand = cell :: (queue ++ s.pump.carried).filterMap cellOf := by rw [cellsInHand, hand]; rfl
  have nodup := apart.cells
  rw [cells, nodup_cons] at nodup
  have waiting : s.queued ++ s.backlog = heldIn s.cells (.retained cell) ++
      ((queue ++ s.pump.carried).flatMap (heldIn s.cells) ++ s.jobs) := by
    rw [waiting_eq, hand, flatMap_cons, append_assoc]
  have idle : s.running = [] := by rw [running, slot]; rfl
  refine refined_of (t := { s with
      slot := some ⟨queue, .running (s.cells cell)⟩
      cells := Function.update s.cells cell none }) (o := ⟨heldIn s.cells (.retained cell), [], []⟩)
    (by simp only [step, enter, slot]) ?_
    (apart.fewer ?_ rfl (drained_of_open nofun))
  · have moves := Moves.starts (l := lineOf past s) _ _ waiting idle
    rw [← heldIn_update none nodup.1] at moves
    convert moves using 1
    simp only [lineOf, waiting_eq, inHand]
    simp [started, finished, dropped, running, runningOf, heldIn, commandsOf, Writer.commands]
  · rw [cells]
    exact sublist_cons_self _ _

theorem enter_refined : Refined past s .enter := by
  cases slot : s.slot with
  | none => exact refined_self (by simp only [step, enter, slot]) apart
  | some w =>
    obtain ⟨queue, _ | (cell | _) | job | _ | _⟩ := w
    case received.retained => exact enter_retained_refined apart queue cell slot
    case received.ordinary =>
      have hand : s.inHand = .ordinary :: (queue ++ s.pump.carried) := by rw [inHand, slot]; rfl
      refine refined_quiet (t := { s with slot := some ⟨queue, .running none⟩ }) (by simp only [step, enter, slot]) rfl ?_ ?_
        (apart.fewer ?_ rfl (drained_of_open nofun))
      · rw [waiting_eq, waiting_eq, hand]
        rfl
      · rw [running, running, slot]
        rfl
      · rw [cellsInHand, cellsInHand, hand]
        exact List.Sublist.refl _
    all_goals exact refined_self (by simp only [step, enter, slot]) apart

theorem ended_refined {op : Op} {o : Outcome} {p : Phase} {queue : List Command} {job : Option Nat}
    (slot : s.slot = some ⟨queue, .running job⟩) (rests : (⟨queue, p⟩ : Writer).commands = queue)
    (after : s.step op = ({ s with slot := some ⟨queue, p⟩ }, o)) (drained : Drained (some ⟨queue, p⟩))
    (moves : Moves (lineOf past s) { lineOf past s with
      serving := runningOf (some ⟨queue, p⟩)
      started := started past ++ o.started
      finished := finished past ++ o.finished
      dropped := dropped past ++ o.dropped }) : Refined past s op := by
  have hand : ({ s with slot := some ⟨queue, p⟩ } : Executor).inHand = s.inHand := by
    rw [inHand, inHand, slot]
    exact congrArg (· ++ s.pump.carried) rests
  refine refined_of after ?_ (apart.same (congrArg (List.filterMap cellOf) hand) rfl drained)
  convert moves using 1
  simp only [lineOf, waiting_same (t := { s with slot := some ⟨queue, p⟩ }) hand rfl rfl]
  simp [started, finished, dropped, running]

theorem finish_refined : Refined past s .finish := by
  cases slot : s.slot with
  | none => exact refined_self (by simp only [step, finish, slot]) apart
  | some w =>
    obtain ⟨queue, _ | command | job | _ | _⟩ := w
    case running =>
      refine ended_refined (p := .receiving) (o := ⟨[], job.toList, []⟩) apart slot rfl (by simp only [step, finish, slot]) (drained_of_open nofun) ?_
      have moves := Moves.finishes (l := lineOf past s)
      convert moves using 1
      simp [lineOf, running, slot, runningOf]
    all_goals exact refined_self (by simp only [step, finish, slot]) apart

theorem panic_refined : Refined past s .panic := by
  cases slot : s.slot with
  | none => exact refined_self (by simp only [step, panic, slot]) apart
  | some w =>
    obtain ⟨queue, _ | command | job | _ | _⟩ := w
    case running =>
      refine ended_refined (p := .unwound) (o := ⟨[], [], job.toList⟩) apart slot rfl (by simp only [step, panic, slot]) (drained_of_open nofun) ?_
      have moves := Moves.breaks (l := lineOf past s)
      convert moves using 1
      simp [lineOf, running, slot, runningOf]
    all_goals exact refined_self (by simp only [step, panic, slot]) apart

theorem close_refined : Refined past s .close := by
  cases slot : s.slot with
  | none => exact refined_self (by simp only [step, close, slot]) apart
  | some w =>
    obtain ⟨queue, _ | command | job | _ | _⟩ := w
    case unwound =>
      have hand : s.inHand = queue ++ s.pump.carried := by rw [inHand, slot]; rfl
      have waiting : s.queued ++ s.backlog = queue.flatMap (heldIn s.cells) ++
          (s.pump.carried.flatMap (heldIn s.cells) ++ s.jobs) := by
        rw [waiting_eq, hand, flatMap_append, append_assoc]
      refine refined_of (t := { s with slot := some ⟨[], .closed⟩ }) (o := ⟨[], [], queue.flatMap (heldIn s.cells)⟩) (by simp only [step, close, slot]) ?_
        (apart.fewer ?_ rfl (fun v eq _ => Option.mem_some_iff.mp eq ▸ rfl))
      · have moves := Moves.loses (l := lineOf past s) _ _ waiting
        convert moves using 1
        simp only [lineOf, waiting_eq, inHand]
        simp [started, finished, dropped, running, slot, runningOf, commandsOf, Writer.commands]
      · rw [cellsInHand, cellsInHand, hand]
        exact (sublist_append_right queue s.pump.carried).filterMap cellOf
    all_goals exact refined_self (by simp only [step, close, slot]) apart

theorem step_refined (op : Op) : Refined past s op := by
  cases op with
  | submitRetained now => exact submitRetained_refined apart now
  | pumpRetained now => exact pumpRetained_refined apart now
  | advance weather now => exact advance_refined apart weather now
  | submit weather => exact submit_refined apart weather
  | receive => exact receive_refined apart
  | enter => exact enter_refined apart
  | finish => exact finish_refined apart
  | panic => exact panic_refined apart
  | close => exact close_refined apart

end

end

section

theorem new_apart : Apart new := ⟨.nil, fun _ mem => absurd mem not_mem_nil, fun w missing => absurd missing (Option.not_mem_none w)⟩

theorem run_ordered (ops : List Op) :
    Ordered (lineOf (history step new ops) (run step new ops)) ∧ Apart (run step new ops) := by
  have begun : Ordered (lineOf [] new) := empty_ordered
  refine history_invariant step (R := fun past s => Ordered (lineOf past s) ∧ Apart s) ?_ ⟨begun, new_apart⟩ ops
  rintro past s op ⟨ordered, apart⟩
  have refined : Refined past s op := step_refined apart op
  exact ⟨ordered.moves refined.1, refined.2⟩

/-- What is dropped goes with a worker whose command has panicked: the command, and then what
is queued behind it. -/
theorem dropped_panicked (s : Executor) (op : Op) (gone : (s.step op).2.dropped ≠ []) :
    (op = .panic ∧ ∃ queue job, s.slot = some ⟨queue, .running job⟩) ∨ (op = .close ∧ ∃ queue, s.slot = some ⟨queue, .unwound⟩) := by
  cases op with
  | panic =>
    simp only [step, panic] at gone
    split at gone
    · rename_i queue job slot
      exact .inl ⟨rfl, queue, job, slot⟩
    · exact absurd rfl gone
  | close =>
    simp only [step, close] at gone
    split at gone
    · rename_i queue slot
      exact .inr ⟨rfl, queue, slot⟩
    · exact absurd rfl gone
  | enter =>
    simp only [step, enter] at gone
    split at gone <;> exact absurd rfl gone
  | finish =>
    simp only [step, finish] at gone
    split at gone <;> exact absurd rfl gone
  | _ => exact absurd rfl gone

/-- After every run, whatever is refused or panics: every retained edit that was submitted is in
one place, the backlog, the queue, the worker's hands, among the finished or among the dropped;
those that were started were started once, in the order of submission; and what was dropped went
with a worker whose command had panicked. -/
theorem retained_run_once_in_order (ops : List Op) :
    ((run step new ops).queued ++ (run step new ops).backlog ++ (run step new ops).running ++ finished (history step new ops) ++
      dropped (history step new ops)).Perm (List.range (run step new ops).submitted) ∧
    (started (history step new ops)).Pairwise (· < ·) ∧
    (∀ job ∈ started (history step new ops), job < (run step new ops).submitted) ∧
    ∀ x ∈ history step new ops, x.answer.dropped ≠ [] →
      (x.input = .panic ∧ ∃ queue job, x.before.slot = some ⟨queue, .running job⟩) ∨
        (x.input = .close ∧ ∃ queue, x.before.slot = some ⟨queue, .unwound⟩) := by
  obtain ⟨ordered, -⟩ := run_ordered ops
  obtain ⟨-, order⟩ := ordered.started_once nodup_range
  refine ⟨ordered.places, pairwise_lt_range.sublist order, fun job member => mem_range.mp (order.mem member),
    fun x member gone => ?_⟩
  rw [Transducer.mem_history step member] at gone
  exact dropped_panicked x.before x.input gone

/-- A thread that is refused, a second edit behind the first, and both run after the delay. -/
example :
    let calm : Weather := ⟨false, false⟩
    let handed := [Op.advance calm 0, .advance calm 0]
    started (history step new ([.submitRetained 0, .advance calm 0, .advance ⟨true, false⟩ 0, .advance calm 0, .submitRetained 1,
      .pumpRetained 1000] ++ handed ++ handed ++ [.receive, .enter, .finish, .receive, .enter])) = [0, 1] := by
  decide

end
end Executor
end PlxNative.Worker
