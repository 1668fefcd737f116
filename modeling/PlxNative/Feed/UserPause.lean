import Mathlib.Algebra.BigOperators.Group.List.Basic
import Mathlib.Algebra.Ring.Nat
import PlxNative.Lib.Transducer

/-! The viewer's pauses as a worker hears of them: what it is given adds up to the time the
transport was paused, also when a pause began and ended between two samples. Instants and durations
are nanoseconds. -/
namespace PlxNative.Feed
open List
open Transducer (history run)

/-- The sequence of transitions has not run out. -/
structure UserPauseClock where
  completed : Nat
  activeSince : Option Nat
  sequence : Nat

structure UserPauseSnapshot where
  now : Nat
  elapsed : Nat
  paused : Bool
  sequence : Nat

structure UserPauseCursor where
  sequence : Nat
  elapsed : Nat

def UserPauseClock.new : UserPauseClock := ⟨0, none, 0⟩

def UserPauseClock.elapsedAt (c : UserPauseClock) (now : Nat) : Nat :=
  c.completed + match c.activeSince with
    | some since => now - since
    | none => 0

theorem UserPauseClock.elapsedAt_idle {c : UserPauseClock} {now : Nat} (idle : c.activeSince = none) :
    c.elapsedAt now = c.completed := by
  rw [elapsedAt, idle]
  rfl

/-- The flag that the feed reads, and the clock under its mutex. -/
structure Transport where
  paused : Bool
  pauseClock : UserPauseClock

namespace Transport

def new : Transport := ⟨false, .new⟩

def commitPaused (t : Transport) (now : Nat) (paused : Bool) : Transport where
  paused := paused
  pauseClock := match t.pauseClock.activeSince, paused with
    | none, true => { t.pauseClock with activeSince := some now, sequence := t.pauseClock.sequence + 1 }
    | some since, false => ⟨t.pauseClock.completed + (now - since), none, t.pauseClock.sequence + 1⟩
    | _, _ => t.pauseClock

def pauseStateSample (t : Transport) (now : Nat) : UserPauseSnapshot :=
  ⟨now, t.pauseClock.elapsedAt now, t.pauseClock.activeSince.isSome, t.pauseClock.sequence⟩

end Transport

namespace UserPauseCursor

def new (snapshot : UserPauseSnapshot) : UserPauseCursor := ⟨snapshot.sequence, snapshot.elapsed⟩

def consumeCompleted (c : UserPauseCursor) (snapshot : UserPauseSnapshot) : UserPauseCursor × Option Nat :=
  if snapshot.paused || snapshot.sequence = c.sequence then (c, none)
  else
    let elapsed := snapshot.elapsed - c.elapsed
    (new snapshot, if elapsed ≠ 0 then some elapsed else none)

end UserPauseCursor

inductive PauseCall where
  | commit (paused : Bool)
  | sample
  | consume

/-- The transport, and the cursor of one worker. -/
structure Listener where
  transport : Transport
  cursor : UserPauseCursor

namespace Listener

def create (t : Transport) (now : Nat) : Listener := ⟨t, .new (t.pauseStateSample now)⟩

def step (w : Listener) : Nat × PauseCall → Listener × Option Nat
  | (now, .commit paused) => ({ w with transport := w.transport.commitPaused now paused }, none)
  | (_, .sample) => (w, none)
  | (now, .consume) =>
    let consumed := w.cursor.consumeCompleted (w.transport.pauseStateSample now)
    ({ w with cursor := consumed.1 }, consumed.2)

/-- The durations the worker was given. -/
def given (w : Listener) (calls : List (Nat × PauseCall)) : Nat :=
  ((history step w calls).map fun e => e.answer.getD 0).sum

end Listener

def PauseCall.leaves (paused : Bool) : PauseCall → Bool
  | .commit now => now
  | _ => paused

/-- The time that passes paused, from an instant on over calls at their times. -/
def pausedFor : Bool → Nat → List (Nat × PauseCall) → Nat
  | _, _, [] => 0
  | paused, since, (now, call) :: rest => (if paused then now - since else 0) + pausedFor (call.leaves paused) now rest

/-- The clock of a transport runs while it is paused. -/
structure Transport.Timed (t : Transport) (now : Nat) : Prop where
  agrees : t.paused = t.pauseClock.activeSince.isSome
  past : ∀ since ∈ t.pauseClock.activeSince, since ≤ now

/-- What a worker was given brings its cursor to where it stands, and the pauses since it was
created bring the clock to where it stands. -/
structure Listener.Counts (w : Listener) (now created given total : Nat) : Prop where
  timed : w.transport.Timed now
  behind : w.cursor.sequence ≤ w.transport.pauseClock.sequence
  level : w.cursor.sequence = w.transport.pauseClock.sequence → w.transport.pauseClock.activeSince = none →
    w.cursor.elapsed = w.transport.pauseClock.completed
  reached : w.cursor.elapsed ≤ w.transport.pauseClock.elapsedAt now
  taken : created + given = w.cursor.elapsed
  whole : created + total = w.transport.pauseClock.elapsedAt now

section
variable {t : Transport} {w : Listener} {now soon created given total : Nat}

theorem Transport.Timed.later (timed : t.Timed now) (after : now ≤ soon) : t.Timed soon ∧
    t.pauseClock.elapsedAt soon = t.pauseClock.elapsedAt now + if t.paused then soon - now else 0 := by
  refine ⟨⟨timed.agrees, fun since mem => Nat.le_trans (timed.past since mem) after⟩, ?_⟩
  rw [timed.agrees]
  unfold UserPauseClock.elapsedAt
  cases active : t.pauseClock.activeSince with
  | none => rfl
  | some since =>
    have began := timed.past since active
    simp only [Option.isSome_some, if_true]
    omega

theorem Transport.Timed.commit (timed : t.Timed now) (paused : Bool) : (t.commitPaused now paused).Timed now ∧
    (t.commitPaused now paused).pauseClock.elapsedAt now = t.pauseClock.elapsedAt now := by
  cases active : t.pauseClock.activeSince with
  | none => cases paused <;> constructor <;> simp [commitPaused, UserPauseClock.elapsedAt, active] <;> constructor <;> simp [active]
  | some since =>
    have began := timed.past since active
    cases paused <;> constructor <;> simp [commitPaused, UserPauseClock.elapsedAt, active] <;> constructor <;> simp [active, began]

theorem Transport.Timed.commits (commits : List (Nat × Bool)) (timed : t.Timed now)
    (ordered : (now :: (commits.map Prod.fst ++ [soon])).Pairwise (· ≤ ·)) :
    (commits.foldl (fun t commit => t.commitPaused commit.1 commit.2) t).Timed soon := by
  induction commits generalizing t now with
  | nil => exact (timed.later ((pairwise_cons.mp ordered).1 soon mem_cons_self)).1
  | cons commit rest ih =>
    obtain ⟨first, ordered⟩ := pairwise_cons.mp ordered
    exact ih ((timed.later (first commit.1 mem_cons_self)).1.commit commit.2).1 ordered

theorem UserPauseCursor.consumeCompleted_cases (c : UserPauseCursor) (s : UserPauseSnapshot) :
    ((s.paused = true ∨ s.sequence = c.sequence) ∧ (c.consumeCompleted s).1 = c ∧ (c.consumeCompleted s).2 = none) ∨
      (s.paused = false ∧ (c.consumeCompleted s).1 = new s ∧ (c.consumeCompleted s).2.getD 0 = s.elapsed - c.elapsed) := by
  unfold consumeCompleted
  split
  case isTrue skipped => exact .inl ⟨by simpa using skipped, rfl, rfl⟩
  case isFalse consumes =>
    refine .inr ⟨by simp_all, rfl, ?_⟩
    by_cases empty : s.elapsed - c.elapsed = 0 <;> simp [empty]

namespace Listener.Counts

section
variable (counts : w.Counts now created given total)
include counts

theorem later (after : now ≤ soon) :
    w.Counts soon created given (total + if w.transport.paused then soon - now else 0) := by
  obtain ⟨timed, passed⟩ := counts.timed.later after
  have reached := counts.reached
  have whole := counts.whole
  exact ⟨timed, counts.behind, counts.level, by omega, counts.taken, by omega⟩

theorem call (call : PauseCall) :
    (w.step (now, call)).1.Counts now created (given + (w.step (now, call)).2.getD 0) total := by
  obtain ⟨timed, behind, level, reached, taken, whole⟩ := counts
  cases call with
  | commit paused =>
    obtain ⟨timed', eq⟩ := timed.commit paused
    have sequences : (w.transport.commitPaused now paused).pauseClock = w.transport.pauseClock ∨
        (w.transport.commitPaused now paused).pauseClock.sequence = w.transport.pauseClock.sequence + 1 := by
      unfold Transport.commitPaused
      split
      · exact .inr rfl
      · exact .inr rfl
      · exact .inl rfl
    refine ⟨timed', ?_, ?_, reached.trans_eq eq.symm, taken, whole.trans eq.symm⟩
    · rcases sequences with kept | next
      · exact behind.trans_eq (congrArg _ kept.symm)
      · exact (Nat.le_succ_of_le behind).trans_eq next.symm
    · intro caught idle
      rcases sequences with kept | next
      · exact (level (caught.trans (congrArg _ kept)) ((congrArg _ kept.symm).trans idle)).trans (congrArg _ kept.symm)
      · exact absurd (caught.trans next) (Nat.ne_of_lt (Nat.lt_succ_of_le behind))
  | sample => exact ⟨timed, behind, level, reached, taken, whole⟩
  | consume =>
    rcases w.cursor.consumeCompleted_cases (w.transport.pauseStateSample now) with ⟨-, cursor, none_⟩ | ⟨-, cursor, some_⟩
    · simp only [step, cursor, none_]
      exact ⟨timed, behind, level, reached, taken, whole⟩
    · simp only [step, cursor, some_]
      refine ⟨timed, Nat.le_refl _, fun _ idle => ?_, Nat.le_refl _, ?_, whole⟩
      · exact UserPauseClock.elapsedAt_idle idle
      · simp only [UserPauseCursor.new, Transport.pauseStateSample]
        omega

theorem run {calls : List (Nat × PauseCall)}
    (ordered : (now :: calls.map Prod.fst).Pairwise (· ≤ ·)) :
    ∃ last, (run step w calls).Counts last created (given + w.given calls) (total + pausedFor w.transport.paused now calls) := by
  induction calls generalizing w now given total with
  | nil => exact ⟨now, counts⟩
  | cons next rest ih =>
    obtain ⟨then_, call⟩ := next
    obtain ⟨first, ordered⟩ := pairwise_cons.mp ordered
    obtain ⟨last, done⟩ := ih ((counts.later (first then_ mem_cons_self)).call call) ordered
    have leaves : (w.step (then_, call)).1.transport.paused = call.leaves w.transport.paused := by cases call <;> rfl
    rw [leaves] at done
    refine ⟨last, ?_⟩
    simpa only [Listener.given, Transducer.run, history, Transducer.event, map_cons, sum_cons, pausedFor, Nat.add_assoc] using done

end

end Listener.Counts

end

/-- Whatever was committed before a worker made its cursor and after, once it consumes a sample that is not paused it has been
given the time the transport was paused since. -/
theorem Listener.pauses_consumed_exactly (commits : List (Nat × Bool)) (created : Nat) (calls : List (Nat × PauseCall)) (last : Nat)
    (ordered : (commits.map Prod.fst ++ created :: (calls.map Prod.fst ++ [last])).Pairwise (· ≤ ·)) :
    let t := commits.foldl (fun t commit => t.commitPaused commit.1 commit.2) .new
    let w := create t created
    let calls := calls ++ [(last, .consume)]
    (run step w calls).transport.paused = false → w.given calls = pausedFor t.paused created calls := by
  intro t w all unpaused
  have apart : ((commits.map Prod.fst ++ [created]) ++ (calls.map Prod.fst ++ [last])).Pairwise (· ≤ ·) := by simpa using ordered
  obtain ⟨before, -, -⟩ := pairwise_append.mp apart
  have after : (created :: all.map Prod.fst).Pairwise (· ≤ ·) := by
    simpa [all] using (pairwise_append.mp ordered).2.1
  have timed : t.Timed created :=
    Transport.Timed.commits commits (show Transport.Timed _ 0 from ⟨rfl, nofun⟩) (pairwise_cons.mpr ⟨fun _ _ => Nat.zero_le _, before⟩)
  have start : w.Counts created (t.pauseClock.elapsedAt created) 0 0 :=
    ⟨timed, Nat.le_refl _, fun _ idle => UserPauseClock.elapsedAt_idle idle, Nat.le_refl _, rfl, rfl⟩
  obtain ⟨_, counts⟩ := start.run after
  obtain ⟨timed, -, level, -, taken, whole⟩ := counts
  have idle : (run step w all).transport.pauseClock.activeSince = none := by
    rw [timed.agrees] at unpaused
    simpa using unpaused
  have caught : (run step w all).cursor.sequence = (run step w all).transport.pauseClock.sequence := by
    have last_ : run step w all = ((run step w calls).step (last, .consume)).1 := Transducer.run_snoc _ _ _ _
    rw [last_] at idle ⊢
    rcases (run step w calls).cursor.consumeCompleted_cases ((run step w calls).transport.pauseStateSample last) with
      ⟨paused | same, cursor, -⟩ | ⟨-, cursor, -⟩
    · exact absurd (paused.symm.trans (congrArg Option.isSome idle)) (by decide)
    · exact (congrArg _ cursor).trans same.symm
    · exact congrArg _ cursor
  have stands := level caught idle
  rw [UserPauseClock.elapsedAt_idle idle, Nat.zero_add] at whole
  rw [Nat.zero_add] at taken
  exact Nat.add_left_cancel (taken.trans (stands.trans whole.symm))

/-- A pause that began before the cursor was made, and one that no sample saw. -/
theorem Listener.pauses_consumed_exactly_hidden :
    (create (Transport.new.commitPaused 5 true) 7).given
      [(9, .commit false), (10, .commit true), (14, .commit false), (20, .consume)] = 6 :=
  pauses_consumed_exactly [(5, true)] 7 [(9, .commit false), (10, .commit true), (14, .commit false)] 20 (by decide) (by decide)

end PlxNative.Feed
