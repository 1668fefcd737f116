import PlxNative.Feed.AuQueue
import Mathlib.Algebra.Order.BigOperators.Group.List
import Mathlib.Algebra.Order.Ring.Int
import Mathlib.Data.List.Nodup

/-! The access-unit queue is a FIFO that loses and repeats nothing. -/
namespace PlxNative.Feed
open List Chain Transducer Function Lane

abbrev Cells : Type := List (Nat × Au)

def Cells.aus (cells : Cells) : List Au := List.map Prod.snd cells

def Cells.nodes (cells : Cells) : List Nat := List.map Prod.fst cells

def lens (aus : List Au) : Int := (aus.map Au.len).sum

/-- The access unit that an outcome puts in, and the one it takes out. -/
def Outcome.entered (o : Outcome) : List Au :=
  match o.answer with
  | .pushed 0 au => [au]
  | _ => []

def Outcome.left (o : Outcome) : List Au :=
  match o.answer with
  | .popped (some au) _ => [au]
  | _ => []

/-- The nodes of the queue, in order, beside those of the push in progress and of the consumer. -/
structure Holds (s : Lane) (cells : Cells) : Prop where
  linked : Linked s.memory s.queue.head cells
  last : s.queue.tail = cells.nodes.getLast?
  apart : cells.nodes.Nodup
  bytes : s.queue.queuedBytes = lens cells.aus
  sized : ∀ au ∈ cells.aus, 0 ≤ au.len
  pending : ∀ p place, s.producer = some (p, place) →
    s.memory p.node = some ⟨none, p.au⟩ ∧ p.node ∉ cells.nodes ∧ p.node ∉ s.popped ∧ 0 ≤ p.au.len
  freed : s.popped.Nodup ∧ ∀ n ∈ s.popped, (s.memory n).isSome ∧ n ∉ cells.nodes

theorem holds_new (cap : Int) : Holds (.new cap) [] where
  linked := rfl
  last := rfl
  apart := nodup_nil
  bytes := rfl
  sized := fun _ mem => absurd mem not_mem_nil
  pending := fun _ _ held => nomatch held
  freed := ⟨nodup_nil, fun _ mem => absurd mem not_mem_nil⟩

/-- What a step does to the contents: what enters goes in at the end, what leaves comes off the front. -/
structure Moves (s : Lane) (cells : Cells) (result : Lane × Outcome) (cells' : Cells) : Prop where
  conserved : cells.aus ++ result.2.entered = result.2.left ++ cells'.aus
  pops : result.1.queue.pops = s.queue.pops + result.2.left.length
  aborted : s.queue.abort → result.1.queue.abort ∧ result.2.entered = [] ∧ result.2.answer ≠ .ran true
  drained : ∀ au, result.2.answer = .popped au true → s.queue.eof ∧ cells' = []

theorem Moves.still {s s' : Lane} {cells : Cells} {o : Outcome} (quiet : o.answer = .none ∨ ∃ code au, code ≠ 0 ∧ o.answer = .pushed code au)
    (pops : s'.queue.pops = s.queue.pops) (abort : s.queue.abort → s'.queue.abort) : Moves s cells (s', o) cells := by
  have nothing : o.entered = [] ∧ o.left = [] := by
    unfold Outcome.entered Outcome.left
    rcases quiet with quiet | ⟨code, au, failed, quiet⟩
    · rw [quiet]
      exact ⟨rfl, rfl⟩
    · rw [quiet]
      refine ⟨?_, rfl⟩
      split
      next eq =>
        cases eq
        exact absurd rfl failed
      · rfl
  have other : o.answer ≠ .ran true ∧ ∀ au, o.answer ≠ .popped au true := by
    rcases quiet with quiet | ⟨code, au, -, quiet⟩
    · rw [quiet]
      exact ⟨nofun, nofun⟩
    · rw [quiet]
      exact ⟨nofun, nofun⟩
  constructor
  case conserved => rw [nothing.1, nothing.2, append_nil]; rfl
  case pops => rw [pops, nothing.2]; rfl
  case aborted => exact fun set => ⟨abort set, nothing.1, other.1⟩
  case drained => exact fun au eq => absurd eq (other.2 au)

variable {s : Lane} {cells : Cells} {p : Push} {place : Outside}

theorem Holds.parked (holds : Holds s cells) (held : s.producer = some (p, place)) (place' : Outside) :
    Holds { s with producer := some (p, place') } cells :=
  { holds with
    pending := by
      rintro q place'' eq
      cases eq
      exact holds.pending p place held }

theorem Holds.giveUp (holds : Holds s cells) (held : s.producer = some (p, place)) (code : Int) :
    Holds (s.giveUp p code).1 cells := by
  obtain ⟨-, outside, kept, -⟩ := holds.pending p place held
  have eq : ∀ n, n ≠ p.node → (s.giveUp p code).1.memory n = s.memory n := fun n apart => update_of_ne apart ..
  refine
    { holds with
      linked := holds.linked.frame fun cell mem => eq _ fun equal => outside (equal ▸ mem_map_of_mem mem)
      pending := fun _ _ held' => nomatch held'
      freed := ⟨holds.freed.1, fun n mem => ?_⟩ }
  rw [eq n fun equal => kept (equal ▸ mem)]
  exact holds.freed.2 n mem

theorem append_memory (s : Lane) (p : Push) : (s.append p).1.memory = match s.queue.tail with
    | some tail => link s.memory tail p.node
    | none => s.memory := by
  unfold append
  cases s.queue.tail <;> rfl

theorem append_head (s : Lane) (p : Push) :
    (s.append p).1.queue.head = if s.queue.tail.isNone then some p.node else s.queue.head := by
  unfold append
  cases s.queue.tail <;> rfl

theorem append_bytes (s : Lane) (p : Push) : (s.append p).1.queue.queuedBytes = s.queue.queuedBytes + p.au.len := by
  unfold append
  cases s.queue.tail <;> rfl

theorem append_popped (s : Lane) (p : Push) : (s.append p).1.popped = s.popped := by
  unfold append
  cases s.queue.tail <;> rfl

theorem append_isSome (s : Lane) (p : Push) (n : Nat) : ((s.append p).1.memory n).isSome = (s.memory n).isSome := by
  rw [append_memory]
  cases s.queue.tail with
  | none => rfl
  | some tail =>
    change (link s.memory tail p.node n).isSome = _
    unfold link
    by_cases eq : n = tail
    · rw [eq, update_self, Option.isSome_map]
    · rw [update_of_ne eq]

theorem Holds.append (holds : Holds s cells) (held : s.producer = some (p, place)) :
    Holds (s.append p).1 (cells ++ [(p.node, p.au)]) := by
  obtain ⟨free, outside, kept, sized⟩ := holds.pending p place held
  have nodes : Cells.nodes (cells ++ [(p.node, p.au)]) = cells.nodes ++ [p.node] := map_append
  have aus : Cells.aus (cells ++ [(p.node, p.au)]) = cells.aus ++ [p.au] := map_append
  constructor
  case linked =>
    rw [append_head, append_memory]
    rcases eq_nil_or_concat' cells with rfl | ⟨earlier, last, rfl⟩
    · rw [show s.queue.tail = none from holds.last]
      exact ⟨rfl, none, free, rfl⟩
    · have tail : s.queue.tail = some last.1 := by
        rw [holds.last, Cells.nodes, map_append]
        exact List.getLast?_concat
      rw [tail]
      exact holds.linked.snoc holds.apart outside free
  case last =>
    rw [nodes, List.getLast?_concat]
    rfl
  case apart =>
    rw [nodes]
    exact nodup_append.mpr ⟨holds.apart, nodup_singleton _, fun a mem b single eq =>
      outside (mem_singleton.mp single ▸ eq ▸ mem)⟩
  case bytes =>
    rw [append_bytes, holds.bytes, aus, lens, lens, map_append, sum_append, map_singleton, sum_singleton]
  case sized =>
    intro au mem
    rw [aus] at mem
    rcases mem_append.mp mem with old | new
    · exact holds.sized au old
    · rw [mem_singleton.mp new]
      exact sized
  case pending => exact fun _ _ held' => nomatch held'
  case freed =>
    rw [append_popped]
    refine ⟨holds.freed.1, fun n mem => ⟨?_, fun listed => ?_⟩⟩
    · rw [append_isSome]
      exact (holds.freed.2 n mem).1
    · rw [nodes] at listed
      rcases mem_append.mp listed with old | new
      · exact (holds.freed.2 n mem).2 old
      · exact kept (mem_singleton.mp new ▸ mem)

/-- Where a section of a push can leave it: still waiting, given up, or its node appended at a moment
when the queue was not aborted. -/
inductive PushEnds (s : Lane) (p : Push) : Lane × Outcome → Prop
  | parked (place : Outside) : PushEnds s p ({ s with producer := some (p, place) }, {})
  | refused (code : Int) (failed : code ≠ 0) : PushEnds s p (s.giveUp p code)
  | entered (running : s.queue.abort = false)
      (admitted : s.queue.queuedBytes ≤ s.queue.maxBytes ∨ ∃ g, p.gate = some g ∧ s.queue.queuedBytes ≤ g.ceiling s.queue) :
      PushEnds s p (s.append p)

theorem wouldPark_iff (q : AuQueue) : q.wouldPark = true ↔ q.maxBytes < q.queuedBytes ∧ q.abort = false := by
  simp [AuQueue.wouldPark]

theorem waitLoop_ends (s : Lane) (p : Push) (admitted : Bool)
    (open_ : admitted = true → s.queue.abort = false ∧ ∃ g, p.gate = some g ∧ s.queue.queuedBytes ≤ g.ceiling s.queue) :
    PushEnds s p (s.waitLoop p admitted) := by
  unfold waitLoop
  split
  case isTrue =>
    split
    · exact .parked _
    · exact .parked _
  case isFalse free =>
    split
    case isTrue => exact .refused _ (by decide)
    case isFalse running =>
      have running := Bool.eq_false_iff.mpr running
      cases admitted with
      | true => exact .entered running (.inr (open_ rfl).2)
      | false =>
        refine .entered running (.inl (Int.not_lt.mp fun full => free ?_))
        rw [Bool.not_false, Bool.true_and, wouldPark_iff]
        exact ⟨full, running⟩

theorem drained_ends (s : Lane) (p : Push) (span : Int) (keepPolling : Bool) : PushEnds s p (s.drained p span keepPolling) := by
  unfold Lane.drained
  split
  next g gate =>
    split
    case isTrue parks =>
      split
      case isTrue admitted =>
        exact waitLoop_ends s p true fun _ => ⟨((wouldPark_iff _).mp parks).2, g, gate, admitted.2⟩
      case isFalse =>
        split
        · exact .refused _ (by decide)
        · exact .parked _
    case isFalse => exact waitLoop_ends s p false nofun
  next =>
    split
    · exact .parked _
    · exact waitLoop_ends s p false nofun

theorem proceed_ends {s : Lane} {p : Push} {place : Outside} (held : s.producer = some (p, place)) (span : Int)
    (keepPolling : Bool) : PushEnds s p (s.proceed span keepPolling) := by
  unfold Lane.proceed
  rw [held]
  cases place with
  | entering => exact waitLoop_ends s p false nofun
  | draining => exact drained_ends s p span keepPolling
  | waiting timed => exact waitLoop_ends s p false nofun

theorem append_rest (s : Lane) (p : Push) :
    (s.append p).1.queue.pops = s.queue.pops ∧ (s.append p).1.queue.abort = s.queue.abort := by
  unfold append
  cases s.queue.tail <;> exact ⟨rfl, rfl⟩

variable {result : Lane × Outcome}

theorem PushEnds.moves (ends : PushEnds s p result) (holds : Holds s cells)
    (held : s.producer = some (p, place)) : ∃ cells', Holds result.1 cells' ∧ Moves s cells result cells' := by
  cases ends with
  | parked place' => exact ⟨cells, holds.parked held place', .still (.inl rfl) rfl id⟩
  | refused code failed => exact ⟨cells, holds.giveUp held code, .still (.inr ⟨code, p.au, failed, rfl⟩) rfl id⟩
  | entered running admitted =>
    have aus : Cells.aus (cells ++ [(p.node, p.au)]) = cells.aus ++ [p.au] := map_append
    refine ⟨_, holds.append held, ?_⟩
    constructor
    case conserved => rw [aus]; rfl
    case pops => exact (append_rest s p).1
    case aborted =>
      intro set
      rw [running] at set
      cases set
    case drained => exact fun au eq => nomatch eq

theorem settled_same (q : AuQueue) (node : Node Nat Au) :
    ∃ maxBytes releasing, (if (q.unlinked node).releasing then (q.unlinked node).settleReleasedCap else q.unlinked node) =
      { q.unlinked node with maxBytes := maxBytes, releasing := releasing } := by
  split
  · exact ⟨_, _, rfl⟩
  · exact ⟨q.maxBytes, q.releasing, rfl⟩

/-- What a pop of a queue that holds these cells answers and leaves. -/
def popResult (s : Lane) : Cells → Lane × Outcome
  | [] => (s, { answer := .popped none s.queue.eof })
  | (n, au) :: rest =>
    let q := s.queue.unlinked ⟨(Cells.nodes rest).head?, au⟩
    let q := if q.releasing then q.settleReleasedCap else q
    ({ s with queue := q, popped := n :: s.popped },
      { answer := .popped (some au) (rest.isEmpty && s.queue.eof), notFull := .signal })

theorem pop_eq (holds : Holds s cells) : s.pop = popResult s cells := by
  cases cells with
  | nil =>
    unfold Lane.pop
    rw [show s.queue.head = none from holds.linked]
    rfl
  | cons cell rest =>
    obtain ⟨n, au⟩ := cell
    obtain ⟨head, next, held, later⟩ := holds.linked
    have next_eq : next = (Cells.nodes rest).head? := by
      cases rest with
      | nil => exact later
      | cons cell rest => exact later.1
    subst next_eq
    obtain ⟨maxBytes, releasing, settled⟩ := settled_same s.queue ⟨(Cells.nodes rest).head?, au⟩
    unfold Lane.pop
    simp only [popResult, head, held, settled]
    cases rest <;> rfl

theorem Holds.pop (holds : Holds s cells) : ∃ cells', Holds s.pop.1 cells' ∧ Moves s cells s.pop cells' := by
  rw [pop_eq holds]
  cases cells with
  | nil =>
    refine ⟨[], holds, ?_⟩
    constructor
    case conserved => rfl
    case pops => rfl
    case aborted => exact fun set => ⟨set, rfl, nofun⟩
    case drained =>
      intro au eq
      cases eof : s.queue.eof with
      | true => exact ⟨rfl, rfl⟩
      | false =>
        change Answer.popped none s.queue.eof = _ at eq
        rw [eof] at eq
        cases eq
  | cons cell rest =>
    obtain ⟨n, au⟩ := cell
    obtain ⟨head, next, held, later⟩ := holds.linked
    obtain ⟨alone, apart⟩ := nodup_cons.mp holds.apart
    obtain ⟨maxBytes, releasing, settled⟩ := settled_same s.queue ⟨(Cells.nodes rest).head?, au⟩
    have unpopped : n ∉ s.popped := fun listed => (holds.freed.2 n listed).2 mem_cons_self
    refine ⟨rest, ?_, ?_⟩
    rotate_left
    · constructor
      case conserved =>
        change (au :: Cells.aus rest) ++ [] = [au] ++ Cells.aus rest
        rw [append_nil]
        rfl
      case pops =>
        simp only [popResult, settled]
        rfl
      case aborted =>
        intro set
        simp only [popResult, settled]
        exact ⟨set, rfl, nofun⟩
      case drained =>
        intro other eq
        have both := (Answer.popped.inj eq).2
        rw [Bool.and_eq_true, List.isEmpty_iff] at both
        exact both.symm
    simp only [popResult, settled]
    constructor
    case linked =>
      have next_eq : next = (Cells.nodes rest).head? := by
        cases rest with
        | nil => exact later
        | cons cell rest => exact later.1
      exact next_eq ▸ later
    case last =>
      change (if (Cells.nodes rest).head?.isNone then none else s.queue.tail) = (Cells.nodes rest).getLast?
      cases rest with
      | nil => rfl
      | cons cell rest =>
        rw [holds.last]
        rfl
    case apart => exact apart
    case bytes =>
      change s.queue.queuedBytes - au.len = lens (Cells.aus rest)
      rw [holds.bytes]
      change (au.len + lens (Cells.aus rest)) - au.len = _
      omega
    case sized => exact fun other mem => holds.sized other (mem_cons_of_mem _ mem)
    case pending =>
      intro p place eq
      obtain ⟨free, outside, kept, sized⟩ := holds.pending p place eq
      refine ⟨free, fun listed => outside (mem_cons_of_mem _ listed), fun listed => ?_, sized⟩
      rcases mem_cons.mp listed with here | listed
      · exact outside (here ▸ mem_cons_self)
      · exact kept listed
    case freed =>
      refine ⟨nodup_cons.mpr ⟨unpopped, holds.freed.1⟩, fun m mem => ?_⟩
      rcases mem_cons.mp mem with rfl | mem
      · refine ⟨?_, alone⟩
        rw [held]
        rfl
      · obtain ⟨live, outside⟩ := holds.freed.2 m mem
        exact ⟨live, fun listed => outside (mem_cons_of_mem _ listed)⟩

theorem Holds.free (holds : Holds s cells) (node : Nat) : Holds (s.free node).1 cells := by
  unfold Lane.free
  split
  case isFalse => exact holds
  case isTrue listed =>
    obtain ⟨-, outside⟩ := holds.freed.2 node listed
    have eq : ∀ n, n ≠ node → Function.update s.memory node none n = s.memory n := fun n apart => update_of_ne apart ..
    refine
      { holds with
        linked := holds.linked.frame fun cell mem => eq _ fun equal => outside (equal ▸ mem_map_of_mem mem)
        pending := fun p place held => ?_
        freed := ⟨holds.freed.1.erase node, fun n mem => ?_⟩ }
    · obtain ⟨free, out, kept, sized⟩ := holds.pending p place held
      have other : p.node ≠ node := fun equal => kept (by rw [equal]; exact listed)
      exact ⟨(eq _ other).trans free, out, fun mem => kept (mem_of_mem_erase mem), sized⟩
    · have apart : n ≠ node := fun equal => holds.freed.1.not_mem_erase (equal ▸ mem)
      obtain ⟨live, out⟩ := holds.freed.2 n (mem_of_mem_erase mem)
      exact ⟨(congrArg Option.isSome (eq n apart)).trans live, out⟩

theorem Holds.step (holds : Holds s cells) (act : Act) : ∃ cells', Holds (s.step act).1 cells' ∧ Moves s cells (s.step act) cells' := by
  cases act with
  | push au drain gate node =>
    change ∃ cells', Holds (s.push au drain gate node).1 cells' ∧ Moves s cells (s.push au drain gate node) cells'
    unfold Lane.push
    split
    · exact ⟨cells, holds, .still (.inl rfl) rfl id⟩
    split
    · exact ⟨cells, holds, .still (.inr ⟨-1, au, by decide, rfl⟩) rfl id⟩
    next sized =>
      split
      · exact ⟨cells, holds, .still (.inr ⟨-1, au, by decide, rfl⟩) rfl id⟩
      next node =>
        split
        · exact ⟨cells, holds, .still (.inl rfl) rfl id⟩
        next unheld =>
          have others : ∀ n, (s.memory n).isSome → n ≠ node := fun n live eq => unheld (eq ▸ live)
          have live : ∀ cell ∈ cells, (s.memory cell.1).isSome := fun cell mem => by
            obtain ⟨next, at_cell⟩ := holds.linked.held cell mem
            rw [at_cell]
            rfl
          refine ⟨cells, { holds with linked := ?_, pending := ?_, freed := ⟨holds.freed.1, fun n mem => ?_⟩ }, .still (.inl rfl) rfl id⟩
          · exact holds.linked.frame fun cell mem => update_of_ne (others _ (live cell mem)) ..
          · rintro p place eq
            cases eq
            refine ⟨update_self .., fun listed => ?_, fun listed => ?_, Int.not_lt.mp sized⟩
            · obtain ⟨cell, mem, rfl⟩ := mem_map.mp listed
              exact unheld (live cell mem)
            · exact unheld (holds.freed.2 _ listed).1
          · obtain ⟨held, outside⟩ := holds.freed.2 n mem
            refine ⟨?_, outside⟩
            change (Function.update s.memory node _ n).isSome
            rw [update_of_ne (others n held)]
            exact held
  | proceed span keepPolling =>
    cases held : s.producer with
    | none =>
      have nothing : s.step (.proceed span keepPolling) = (s, {}) := by
        change s.proceed span keepPolling = _
        unfold Lane.proceed
        rw [held]
      rw [nothing]
      exact ⟨cells, holds, .still (.inl rfl) rfl id⟩
    | some way => exact (proceed_ends held span keepPolling).moves holds held
  | pop => exact holds.pop
  | free node =>
    refine ⟨cells, holds.free node, ?_⟩
    change Moves s cells (s.free node) cells
    unfold Lane.free
    split <;> exact .still (.inl rfl) rfl id
  | setEof => exact ⟨cells, { holds with }, .still (.inl rfl) rfl id⟩
  | abort => exact ⟨cells, { holds with }, .still (.inl rfl) rfl fun _ => rfl⟩
  | ifNotAborted =>
    refine ⟨cells, holds, ?_⟩
    constructor
    case conserved => exact append_nil _
    case pops => rfl
    case aborted =>
      intro set
      refine ⟨set, rfl, ?_⟩
      change Answer.ran (!s.queue.abort) ≠ _
      rw [set]
      nofun
    case drained => exact fun au eq => nomatch eq
  | setHeadroom extra => exact ⟨cells, { holds with }, .still (.inl rfl) rfl id⟩
  | releaseHeadroom => exact ⟨cells, { holds with }, .still (.inl rfl) rfl id⟩

/-- The access units in the queue, in order. -/
def Contents (s : Lane) (aus : List Au) : Prop := ∃ cells : Cells, Linked s.memory s.queue.head cells ∧ cells.aus = aus

theorem Contents.holds (holds : Holds s cells) {aus : List Au} (contents : Contents s aus) : aus = cells.aus := by
  obtain ⟨others, linked, rfl⟩ := contents
  rw [linked.unique holds.linked]

abbrev Step : Type := Event Lane Act Outcome

def pushed (past : List Step) : List Au := past.flatMap (fun e => e.answer.entered)

def taken (past : List Step) : List Au := past.flatMap (fun e => e.answer.left)

theorem pushed_snoc (past : List Step) (e : Step) : pushed (past ++ [e]) = pushed past ++ e.answer.entered := by
  rw [pushed, flatMap_append, flatMap_singleton]
  rfl

theorem taken_snoc (past : List Step) (e : Step) : taken (past ++ [e]) = taken past ++ e.answer.left := by
  rw [taken, flatMap_append, flatMap_singleton]
  rfl

def Act.pushes : Act → Bool
  | .push .. => true
  | .proceed .. => true
  | _ => false

/-- What the events so far account for in the state they reached. -/
structure Account (past : List Step) (s : Lane) (cells : Cells) : Prop where
  holds : Holds s cells
  balance : pushed past = taken past ++ cells.aus
  pops : s.queue.pops = (taken past).length
  aborted : (∃ e ∈ past, e.input = .abort) → s.queue.abort
  eof : s.queue.eof → ∃ e ∈ past, e.input = .setEof

theorem append_eof (s : Lane) (p : Push) : (s.append p).1.queue.eof = s.queue.eof := by
  unfold append
  cases s.queue.tail <;> rfl

theorem PushEnds.eof (ends : PushEnds s p result) : result.1.queue.eof = s.queue.eof := by
  cases ends with
  | parked place => rfl
  | refused code failed => rfl
  | entered running admitted => exact append_eof s p

theorem push_queue (s : Lane) (au : Au) (drain : Bool) (gate : Option PushGate) (node : Option Nat) :
    (s.push au drain gate node).1.queue = s.queue := by
  unfold Lane.push
  split
  · rfl
  split
  · rfl
  split
  · rfl
  · split <;> rfl

theorem proceed_idle (idle : s.producer = none) (span : Int) (keepPolling : Bool) : s.proceed span keepPolling = (s, {}) := by
  unfold Lane.proceed
  rw [idle]

theorem step_eof (holds : Holds s cells) {act : Act} (other : act ≠ .setEof) :
    (s.step act).1.queue.eof = s.queue.eof := by
  cases act with
  | push au drain gate node => exact congrArg AuQueue.eof (push_queue s au drain gate node)
  | proceed span keepPolling =>
    change (s.proceed span keepPolling).1.queue.eof = _
    cases held : s.producer with
    | none => rw [proceed_idle held]
    | some way => exact (proceed_ends held span keepPolling).eof
  | pop =>
    change s.pop.1.queue.eof = _
    rw [pop_eq holds]
    cases cells with
    | nil => rfl
    | cons cell rest =>
      obtain ⟨maxBytes, releasing, settled⟩ := settled_same s.queue ⟨(Cells.nodes rest).head?, cell.2⟩
      simp only [popResult, settled]
      rfl
  | free node =>
    change (s.free node).1.queue.eof = _
    unfold Lane.free
    split <;> rfl
  | setEof => exact absurd rfl other
  | abort => rfl
  | ifNotAborted => rfl
  | setHeadroom extra => rfl
  | releaseHeadroom => rfl

variable {past : List Step}

theorem Account.step (account : Account past s cells) (act : Act) :
    ∃ cells', Account (past ++ [event Lane.step s act]) (s.step act).1 cells' := by
  obtain ⟨cells', holds, moves⟩ := account.holds.step act
  refine ⟨cells', ?_⟩
  constructor
  case holds => exact holds
  case balance =>
    calc pushed (past ++ [event Lane.step s act])
        = pushed past ++ (s.step act).2.entered := pushed_snoc ..
      _ = taken past ++ (cells.aus ++ (s.step act).2.entered) := by rw [account.balance, append_assoc]
      _ = (taken past ++ (s.step act).2.left) ++ cells'.aus := by rw [moves.conserved, append_assoc]
      _ = taken (past ++ [event Lane.step s act]) ++ cells'.aus := by rw [taken_snoc]; rfl
  case pops =>
    rw [moves.pops, account.pops, taken_snoc, length_append]
    rfl
  case aborted =>
    rintro ⟨e, mem, called⟩
    rcases mem_append.mp mem with old | new
    · exact (moves.aborted (account.aborted ⟨e, old, called⟩)).1
    · cases mem_singleton.mp new
      change act = .abort at called
      rw [called]
      rfl
  case eof =>
    intro set
    by_cases called : act = .setEof
    · exact ⟨_, mem_append_right _ (mem_singleton_self _), called⟩
    · rw [step_eof account.holds called] at set
      obtain ⟨e, mem, called⟩ := account.eof set
      exact ⟨e, mem_append_left _ mem, called⟩

theorem account_run (cap : Int) (acts : List Act) :
    ∃ cells, Account (history Lane.step (.new cap) acts) (run Lane.step (.new cap) acts) cells := by
  refine history_invariant Lane.step (R := fun past s => ∃ cells, Account past s cells)
    (fun past s act ⟨cells, account⟩ => account.step act) ⟨[], ?_⟩ acts
  constructor
  case holds => exact holds_new cap
  case balance => rfl
  case pops => rfl
  case aborted =>
    rintro ⟨e, mem, -⟩
    cases mem
  case eof => exact nofun

theorem step_refused (act : Act) (pushes : act.pushes) (nothing : (s.step act).2.entered = []) :
    (s.step act).1.queue = s.queue ∧ (s.step act).2.left = [] := by
  cases act with
  | push au drain gate node =>
    refine ⟨push_queue s au drain gate node, ?_⟩
    change (s.push au drain gate node).2.left = []
    unfold Lane.push
    split
    · rfl
    split
    · rfl
    split
    · rfl
    · split <;> rfl
  | proceed span keepPolling =>
    change (s.proceed span keepPolling).1.queue = _ ∧ (s.proceed span keepPolling).2.left = []
    change (s.proceed span keepPolling).2.entered = [] at nothing
    cases held : s.producer with
    | none => rw [proceed_idle held]; exact ⟨rfl, rfl⟩
    | some way =>
      generalize ended : s.proceed span keepPolling = result at nothing ⊢
      have ends := proceed_ends held span keepPolling
      rw [ended] at ends
      cases ends with
      | parked place => exact ⟨rfl, rfl⟩
      | refused code failed => exact ⟨rfl, rfl⟩
      | entered running admitted =>
        cases nothing
  | pop => cases pushes
  | free node => cases pushes
  | setEof => cases pushes
  | abort => cases pushes
  | ifNotAborted => cases pushes
  | setHeadroom extra => cases pushes
  | releaseHeadroom => cases pushes

/-- What an event of a run owes to those before it. -/
structure Owed (past : List Step) (e : Step) : Prop where
  refused : e.input.pushes → e.answer.entered = [] →
    e.after.queue = e.before.queue ∧ ∀ aus, Contents e.before aus → Contents e.after aus
  aborted : (∃ f ∈ past, f.input = .abort) → e.answer.entered = [] ∧ e.answer.answer ≠ .ran true
  answered : e.input = .pop → ∃ au eofOut, e.answer.answer = .popped au eofOut
  eof : ∀ au, e.answer.answer = .popped au true →
    (∃ f ∈ past, f.input = .setEof) ∧ taken (past ++ [e]) = pushed (past ++ [e])

theorem Account.owed (account : Account past s cells) (act : Act) : Owed past (event Lane.step s act) := by
  obtain ⟨cells', holds, moves⟩ := account.holds.step act
  constructor
  case refused =>
    intro pushes nothing
    obtain ⟨queue, left⟩ := step_refused act pushes nothing
    refine ⟨queue, fun aus contents => ⟨cells', holds.linked, ?_⟩⟩
    have eq := moves.conserved
    rw [show (s.step act).2.entered = [] from nothing, left, append_nil, nil_append] at eq
    rw [contents.holds account.holds, eq]
  case aborted => exact fun called => (moves.aborted (account.aborted called)).2
  case answered =>
    intro called
    subst called
    change ∃ au eofOut, s.pop.2.answer = _
    rw [pop_eq account.holds]
    cases cells with
    | nil => exact ⟨none, s.queue.eof, rfl⟩
    | cons cell rest => exact ⟨some cell.2, _, rfl⟩
  case eof =>
    intro au answered
    obtain ⟨set, empty⟩ := moves.drained au answered
    refine ⟨account.eof set, ?_⟩
    have eq := moves.conserved
    subst empty
    rw [taken_snoc, pushed_snoc, account.balance, append_assoc]
    exact congrArg (taken past ++ ·) (eq.trans (append_nil _)).symm

/-- The whole of it: contents, order, byte count and ends of the queue, and every event's due. -/
structure Fifo (past : List Step) (s : Lane) : Prop where
  queued : ∃ aus, Contents s aus ∧ pushed past = taken past ++ aus ∧ s.queue.queuedBytes = lens aus
  ordered : taken past <+: pushed past
  bytes : 0 ≤ s.queue.queuedBytes
  ends : s.queue.head = none ↔ s.queue.tail = none
  pops : s.queue.pops = (taken past).length
  events : ∀ earlier e later, past = earlier ++ e :: later → Owed earlier e

theorem lens_nonneg {aus : List Au} (sized : ∀ au ∈ aus, 0 ≤ au.len) : 0 ≤ lens aus := by
  refine sum_nonneg fun len mem => ?_
  obtain ⟨au, listed, rfl⟩ := mem_map.mp mem
  exact sized au listed

theorem Holds.ends (holds : Holds s cells) : s.queue.head = none ↔ s.queue.tail = none := by
  rw [holds.linked.start_none, holds.last, List.getLast?_eq_none_iff]
  exact map_eq_nil_iff.symm

theorem queue_is_fifo (cap : Int) (acts : List Act) :
    Fifo (history Lane.step (.new cap) acts) (run Lane.step (.new cap) acts) := by
  obtain ⟨cells, account⟩ := account_run cap acts
  constructor
  case queued => exact ⟨cells.aus, ⟨cells, account.holds.linked, rfl⟩, account.balance, account.holds.bytes⟩
  case ordered => exact ⟨cells.aus, account.balance.symm⟩
  case bytes => exact account.holds.bytes ▸ lens_nonneg account.holds.sized
  case ends => exact account.holds.ends
  case pops => exact account.pops
  case events =>
    intro earlier e later split
    obtain ⟨js, act, ks, -, rfl, rfl, -⟩ := history_split Lane.step split
    obtain ⟨cells, account⟩ := account_run cap js
    exact account.owed act

end PlxNative.Feed
