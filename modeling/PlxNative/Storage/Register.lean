import PlxNative.Storage.Backend
import PlxNative.Storage.Candidate

/-! DB8 as one register with a revision, and what its successive states may be. -/
namespace PlxNative.Storage
open List RecentLog
open Service (Server Pact)

structure Stored where
  rev : Nat
  state : CanonicalState
  deriving DecidableEq

/-- All that was ever stored, the object last, and the generations drawn. -/
structure Db8 where
  history : List Stored
  drawn : List Generation
  deriving DecidableEq

namespace Db8

def empty : Db8 := ⟨[], []⟩

def object (w : Db8) : Option Stored := w.history.getLast?

/-- A put with a revision wants that revision, one without wants no object. -/
def Matches (w : Db8) (revision : Option Nat) : Prop := w.object.map Stored.rev = revision

/-- A put that matches is stored under a newer revision. Its acknowledgement may be lost or
be a rejection, and a call may never arrive. No generation is drawn twice. -/
inductive Serves : Db8 → (c : Call) → Reply c → Db8 → Prop
  | loaded (w : Db8) : Serves w .load (.ok (w.object.map (fun stored => (stored.rev, stored.state)))) w
  | unreadable (w : Db8) (code : ErrorCode) : Serves w .load (.error code) w
  | stored {w : Db8} {revision : Option Nat} {state : CanonicalState} {rev : Nat} (reply : PutReply)
      (current : w.Matches revision) (newer : ∀ stored ∈ w.object, stored.rev < rev) :
      Serves w (.put revision state) reply { w with history := w.history ++ [⟨rev, state⟩] }
  | refused {w : Db8} {revision : Option Nat} {state : CanonicalState} (reply : PutReply)
      (stale : ¬ w.Matches revision) : Serves w (.put revision state) reply w
  | undelivered (w : Db8) (revision : Option Nat) (state : CanonicalState) : Serves w (.put revision state) .lost w
  | drew {w : Db8} {g : Generation} (fresh : g ∉ w.drawn) : Serves w .random (.ok g) { w with drawn := g :: w.drawn }
  | drewNothing (w : Db8) : Serves w .random (.error .randomUnavailable) w
  | sealed (w : Db8) (keyName plaintext : String) (context : Json.Value) (reply : Except KeymanagerFailure String) :
      Serves w (.sealing keyName plaintext context) reply w
  | unsealed (w : Db8) (keyName envelope : String) (context : Json.Value) (reply : Except ErrorCode String) :
      Serves w (.unsealing keyName envelope context) reply w
  | unsealedDetailed (w : Db8) (keyName envelope : String) (context : Json.Value) (operation : KeymanagerOperation)
      (reply : Except KeymanagerFailure String) :
      Serves w (.unsealingDetailed keyName envelope context operation) reply w
  | housekept (w : Db8) (task : Housekeeping) : Serves w (.housekeeping task) () w

end Db8

/-- What a helper put last for its request, and what it last read. -/
structure Memory where
  put : Option CanonicalState
  read : Option (Nat × CanonicalState)
  deriving DecidableEq

def Memory.none : Memory := ⟨.none, .none⟩

def Memory.track (m : Memory) : (c : Call) → Reply c → Memory
  | .load, reply => match (reply : Except ErrorCode (Option (Nat × CanonicalState))) with
    | .ok found => { m with read := found }
    | .error _ => m
  | .put _ state, _ => { m with put := some state }
  | _, _ => m

def server : Server Reply Db8 Memory := ⟨Db8.Serves, Memory.track⟩

section
variable {s s' next : CanonicalState} {op : Operation} {r : Applied}

/-- What is stored of the transition of an operation: with new auth, the digest of its
plaintext is noted in its receipt. -/
def Noted (op : Operation) (next s' : CanonicalState) : Prop :=
  match op.mutation.verification with
  | .auth _ => ∃ digest, next.withPlaintext digest = .ok s'
  | .publicOnly => s' = next

def AppliedTo (s : CanonicalState) (op : Operation) (s' : CanonicalState) : Prop :=
  ∃ next r, NewlyApplied s op next r ∧ Noted op next s'

def Promoted (s : CanonicalState) (op : Operation) (s' : CanonicalState) : Prop :=
  ∃ pending r, s.pendingAuth = some pending ∧ pending.operation = op ∧ s.pendingCandidate = .ok (some (s', r))

/-- The operation is applied between the two states. -/
def Brings (s : CanonicalState) (op : Operation) (s' : CanonicalState) : Prop := AppliedTo s op s' ∨ Promoted s op s'

inductive Moves (s s' : CanonicalState) : Prop
  | applied (op : Operation) (its : AppliedTo s op s')
  | staged (pending : PendingAuth) (state : s' = { s with pendingAuth := some pending })
  | promoted (op : Operation) (its : Promoted s op s')
  | repaired (envelope : String) (state : s' = { s with authEnvelope := some envelope })

def LedgerEntry.key (entry : LedgerEntry) : Generation × String := (entry.id, entry.digest)

def CanonicalState.keys (s : CanonicalState) : List (Generation × String) := s.operations.map LedgerEntry.key

theorem mem_keys {id : Generation} {digest : String} :
    (id, digest) ∈ s.keys ↔ ∃ entry ∈ s.operations, entry.id = id ∧ entry.digest = digest := by
  unfold CanonicalState.keys LedgerEntry.key
  simp only [mem_map, Prod.mk.injEq]

/-- What an application does to the counters and the ledger. -/
structure Advanced (s : CanonicalState) (op : Operation) (s' : CanonicalState) : Prop where
  revision : s'.revision = s.revision + 1
  settled : s'.pendingAuth = none
  keys : s'.keys = push ledgerCapacity s.keys (op.id, op.digest)

theorem Newly.advanced (newly : Newly s op s') : Advanced s op s' := by
  obtain ⟨m, steps⟩ := newly.steps
  refine ⟨steps.revision, steps.settled, ?_⟩
  unfold CanonicalState.keys
  rw [steps.operations, map_push]
  rfl

theorem Advanced.noted {digest : String} (advanced : Advanced s op next) (noted : next.withPlaintext digest = .ok s') :
    Advanced s op s' := by
  unfold CanonicalState.withPlaintext at noted
  split at noted
  · cases noted
  · rename_i last found
    cases noted
    refine ⟨advanced.revision, advanced.settled, ?_⟩
    rw [← advanced.keys]
    -- only the last entry changes, and keeps its key
    have whole : next.operations = next.operations.dropLast ++ [last] :=
      (List.dropLast_append_getLast? last found).symm
    unfold CanonicalState.keys
    conv => rhs; rw [whole]
    rw [map_append, map_append]
    rfl

theorem AppliedTo.advanced (applied : AppliedTo s op s') : Advanced s op s' := by
  obtain ⟨next, r, newly, noted⟩ := applied
  have advanced := newly.newly.1.advanced
  unfold Noted at noted
  split at noted
  · obtain ⟨digest, noted⟩ := noted
    exact advanced.noted noted
  · rw [noted]
    exact advanced

theorem Promoted.advanced (promoted : Promoted s op s') : Advanced s op s' := by
  obtain ⟨pending, r, held, rfl, prepared⟩ := promoted
  obtain ⟨c, c', r', applied, noted, eq, unseen⟩ := pendingCandidate_of_some held prepared
  cases eq
  have newly : NewlyApplied { s with pendingAuth := none } pending.operation c r := ⟨applied, unseen⟩
  have advanced := newly.newly.1.advanced.noted noted
  exact ⟨advanced.revision, advanced.settled, advanced.keys⟩

theorem Brings.advanced (brings : Brings s op s') : Advanced s op s' := by
  rcases brings with applied | promoted
  · exact applied.advanced
  · exact promoted.advanced

theorem Advanced.last (advanced : Advanced s op s') : s'.keys.getLast? = some (op.id, op.digest) := by
  rw [advanced.keys]
  exact push_getLast? _ _ (by decide)

theorem Advanced.mem_keys {key : Generation × String} (advanced : Advanced s op s') (mem : key ∈ s'.keys) :
    key ∈ s.keys ∨ key = (op.id, op.digest) := by
  rw [advanced.keys] at mem
  rcases mem_append.mp ((push_sublist _ _ _).subset mem) with old | new
  · exact .inl old
  · exact .inr (mem_singleton.mp new)

theorem not_brings (eq : s'.revision = s.revision) : ¬ Brings s op s' := by
  intro brings
  have advanced := brings.advanced.revision
  omega

end

section
variable {flavor : Flavor} {history : List Stored} {id : Generation} {digest : String} {i : Nat}

/-- The state an operation starts from: the one stored before, or that of a new
installation. -/
def Base (flavor : Flavor) : Option CanonicalState → CanonicalState → Prop
  | none, s => ∃ g, s = CanonicalState.new flavor g
  | some previous, s => s = previous

def before (history : List Stored) (i : Nat) : Option CanonicalState := (history.take i).getLast?.map Stored.state

/-- The operation is applied by the store at place `i`. -/
def AppliesAt (flavor : Flavor) (history : List Stored) (id : Generation) (digest : String) (i : Nat) : Prop :=
  ∃ stored base op, history[i]? = some stored ∧ Base flavor (before history i) base ∧ op.id = id ∧ op.digest = digest ∧
    Brings base op stored.state

theorem before_append (extra : List Stored) (inside : i < history.length) :
    before (history ++ extra) i = before history i := by
  unfold before
  rw [take_append_of_le_length (Nat.le_of_lt inside)]

theorem before_length (extra : List Stored) :
    before (history ++ extra) history.length = history.getLast?.map Stored.state := by
  unfold before
  rw [take_left]

theorem AppliesAt.lt (applies : AppliesAt flavor history id digest i) : i < history.length := by
  obtain ⟨stored, base, op, found, -⟩ := applies
  exact (List.getElem?_eq_some_iff.mp found).1

theorem appliesAt_append (extra : List Stored) (inside : i < history.length) :
    AppliesAt flavor (history ++ extra) id digest i ↔ AppliesAt flavor history id digest i := by
  unfold AppliesAt
  rw [before_append extra inside, List.getElem?_append_left inside]

theorem AppliesAt.grows {later : List Stored} (applies : AppliesAt flavor history id digest i)
    (grows : history <+: later) : AppliesAt flavor later id digest i := by
  obtain ⟨extra, rfl⟩ := grows
  exact (appliesAt_append extra applies.lt).mpr applies

theorem appliesAt_last {stored : Stored} : AppliesAt flavor (history ++ [stored]) id digest history.length ↔
    ∃ base op, Base flavor (history.getLast?.map Stored.state) base ∧ op.id = id ∧ op.digest = digest ∧
      Brings base op stored.state := by
  unfold AppliesAt
  rw [before_length, List.getElem?_concat_length]
  constructor
  · rintro ⟨_, base, op, eq, rest⟩
    cases eq
    exact ⟨base, op, rest⟩
  · rintro ⟨base, op, rest⟩
    exact ⟨stored, base, op, rfl, rest⟩

theorem appliesAt_snoc {stored : Stored} (applies : AppliesAt flavor (history ++ [stored]) id digest i) :
    AppliesAt flavor history id digest i ∨ i = history.length := by
  have inside := applies.lt
  rw [length_append, length_singleton] at inside
  rcases Nat.lt_succ_iff_lt_or_eq.mp inside with earlier | last
  · exact .inl ((appliesAt_append _ earlier).mp applies)
  · exact .inr last

end
end PlxNative.Storage
