import PlxNative.ViewState.Writes

/-! A serial lane: what the write owner is for. One write at a time leaves from the head
of a queue, comes back to it when it was not started, and is otherwise settled. The owner's
steps are moves of the lane, one for each note. -/
namespace PlxNative.ViewState
open Transducer

structure Lane where
  ledger : Table
  queue : List Req
  sent : Option Req
  nextId : Nat

namespace Lane

def empty : Lane := ⟨Table.new, [], none, 1⟩

def play (l : Lane) : Note → Lane
  | .queued req replaced =>
    { l with
      ledger := if req.originDone then l.ledger else (l.ledger.record req.place req.w.edit).1
      queue := l.queue.filter (fun r => r ∉ replaced) ++ [req]
      nextId := l.nextId + 1 }
  | .dropped req => { l with ledger := l.ledger.retire req.seq, queue := l.queue.tail }
  | .handed req _ => { l with queue := l.queue.tail, sent := some req }
  | .refused req => { l with queue := req :: l.queue, sent := none }
  | .written req done =>
    { l with
      ledger := if done.ok then l.ledger.landed req.seq else l.ledger.retire req.seq
      sent := none }
  | .copied req _ place => { l with ledger := (l.ledger.record place req.w.edit).1 }
  | .reset _ _ => { l with ledger := l.ledger.reset, queue := [], sent := none }

/-- When a move may be made. A press replaces queued writes of its own item and toggle,
and only a press has a number. -/
def Allows (l : Lane) : Note → Prop
  | .queued req replaced => req.id = l.nextId ∧ replaced.Sublist l.queue ∧
      (∀ r ∈ replaced, r.about req.sid req.rk req.w = true) ∧
      (req.originDone = true → req.seq = 0 ∧ replaced = []) ∧
      (req.originDone = false → req.seq = l.ledger.seq + 1)
  | .dropped req => l.sent = none ∧ ∃ rest, l.queue = req :: rest
  | .handed req _ => l.sent = none ∧ ∃ rest, l.queue = req :: rest
  | .refused req => l.sent = some req
  | .written req _ => l.sent = some req
  | .copied _ seq _ => seq = l.ledger.seq + 1
  | .reset sent queue => sent = l.sent ∧ queue = l.queue

/-- The lanes that a list of moves leads to. -/
inductive Trace (start : Lane) : List Note → Lane → Prop where
  | start : Trace start [] start
  | move {notes : List Note} {l : Lane} {note : Note} :
      Trace start notes l → l.Allows note → Trace start (notes ++ [note]) (l.play note)

theorem Trace.append {start middle final : Lane} {notes later : List Note} (h : Trace start notes middle)
    (h' : Trace middle later final) : Trace start (notes ++ later) final := by
  induction h' with
  | start =>
    rw [List.append_nil]
    exact h
  | move _ allowed ih =>
    rw [← List.append_assoc]
    exact ih.move allowed

theorem Trace.one {l : Lane} (note : Note) (allowed : l.Allows note) : Trace l [note] (l.play note) :=
  Trace.move .start allowed

theorem Trace.cons {l final : Lane} (note : Note) {later : List Note} (allowed : l.Allows note)
    (h : Trace (l.play note) later final) : Trace l (note :: later) final :=
  (Trace.one note allowed).append h

end Lane

namespace ViewStateState
variable {s : ViewStateState}

def lane (s : ViewStateState) : Lane := ⟨s.ledger, s.queue, s.sent, s.nextRequestId⟩

theorem sendNext_trace (keys : ClientKeys) (profile : UInt32) {queue : List Req} (idle : s.sent = none) :
    Lane.Trace { s.lane with queue } (s.sendNext keys profile queue).2 (s.sendNext keys profile queue).1.lane := by
  induction queue generalizing s with
  | nil => exact .start
  | cons r rest ih =>
    have head : ({ s.lane with queue := r :: rest } : Lane).Allows (.dropped r) := ⟨idle, rest, rfl⟩
    unfold sendNext
    split
    · exact Lane.Trace.one (.handed r keys) ⟨idle, rest, rfl⟩
    · exact Lane.Trace.cons _ head (ih (s := (s.dropQueued r).1) idle)

theorem kick_trace (s : ViewStateState) (keys : ClientKeys) (profile : UInt32) :
    Lane.Trace s.lane (s.kick keys profile).2 (s.kick keys profile).1.lane := by
  unfold kick
  split
  · exact .start
  · rename_i ready
    have idle : s.sent = none := by
      cases flight : s.sent with
      | none => rfl
      | some r => exact absurd (Or.inl (by simp [flight])) ready
    exact sendNext_trace keys profile idle

theorem filter_not_mem_filter (queue : List Req) (out : Req → Bool) :
    queue.filter (fun r => r ∉ queue.filter out) = queue.filter (fun r => !out r) := by
  apply List.filter_congr
  intro r mem
  cases hit : out r <;> simp [mem, hit]

theorem request_trace (s : ViewStateState) (sid : ServerId) (rk : String) (w : Write) (scope : Scope)
    (guid : String) (keys : ClientKeys) (profile : UInt32) :
    Lane.Trace s.lane (s.request sid rk w scope guid keys profile).2
      (s.request sid rk w scope guid keys profile).1.lane := by
  unfold request
  cases keys.key sid with
  | none => exact .start
  | some key =>
    let req : Req := ⟨s.nextRequestId, s.ledger.seq + 1, sid, key, profile, rk, w, scope, guid, false⟩
    have allowed : s.lane.Allows (.queued req (s.queue.filter (Req.about sid rk w))) := by
      refine ⟨rfl, List.filter_sublist, ?_, ?_, fun _ => rfl⟩
      · intro r mem
        exact (List.mem_filter.mp mem).2
      · intro fanOut
        cases fanOut
    let pressed : ViewStateState :=
      { s with
        ledger := (s.ledger.record ⟨sid, rk, scope⟩ w.edit).1
        queue := s.queue.filter (fun r => !r.about sid rk w) ++ [req]
        nextRequestId := s.nextRequestId + 1 }
    have start : s.lane.play (.queued req (s.queue.filter (Req.about sid rk w))) = pressed.lane := by
      simp only [Lane.play, lane, filter_not_mem_filter]
      rfl
    have sent := kick_trace pressed keys profile
    rw [← start] at sent
    exact Lane.Trace.cons _ allowed sent

theorem fanOut_trace (s : ViewStateState) (sid : ServerId) (rk : String) (several : Bool)
    (keys : ClientKeys) (profile : UInt32) :
    Lane.Trace s.lane (s.fanOutOriginWatched sid rk several keys profile).2
      (s.fanOutOriginWatched sid rk several keys profile).1.lane := by
  unfold fanOutOriginWatched
  cases keys.key sid with
  | none => exact .start
  | some key =>
    dsimp only
    split
    · exact .start
    · let req : Req := ⟨s.nextRequestId, 0, sid, key, profile, rk, .watched, .leaf, "", true⟩
      have allowed : s.lane.Allows (.queued req []) := by
        refine ⟨rfl, List.nil_sublist _, ?_, fun _ => ⟨rfl, rfl⟩, ?_⟩
        · intro r mem
          cases mem
        · intro press
          cases press
      let asked : ViewStateState :=
        { s with queue := s.queue ++ [req], nextRequestId := s.nextRequestId + 1 }
      have start : s.lane.play (.queued req []) = asked.lane := by
        simp [Lane.play, lane, asked]
      have sent := kick_trace asked keys profile
      rw [← start] at sent
      exact Lane.Trace.cons _ allowed sent

theorem recordCopies_trace (r : Req) (also : List (ServerId × String)) (l : Lane) :
    Lane.Trace l (recordCopies r l.ledger also).2 { l with ledger := (recordCopies r l.ledger also).1 } := by
  induction also generalizing l with
  | nil => exact .start
  | cons copy rest ih =>
    obtain ⟨sid, rk⟩ := copy
    have allowed : l.Allows (.copied r (l.ledger.seq + 1) ⟨sid, rk, copyScope r.scope⟩) := rfl
    exact Lane.Trace.cons _ allowed (ih _)

theorem landWritten_trace {r : Req} (flight : s.sent = some r) (done : Done) :
    Lane.Trace s.lane ({ s with sent := none }.landWritten r done).2
      ({ s with sent := none }.landWritten r done).1.lane :=
  Lane.Trace.cons (.written r done) flight (recordCopies_trace r done.also _)

theorem restartRefused_trace {r : Req} (flight : s.sent = some r) (keys : ClientKeys) (profile : UInt32) :
    Lane.Trace s.lane ({ s with sent := none }.restartRefused r keys profile).2
      ({ s with sent := none }.restartRefused r keys profile).1.lane := by
  unfold restartRefused
  split
  · exact Lane.Trace.one (.refused r) flight
  · exact Lane.Trace.cons (.refused r) flight (Lane.Trace.one (.dropped r) ⟨rfl, s.queue, rfl⟩)

theorem takeLanding_some {mail : Option Completion} {r : Req} {outcome : Outcome}
    (taken : s.takeLanding mail = some (r, outcome)) :
    s.sent = some r ∧ mail = some ⟨r.id, outcome⟩ := by
  unfold takeLanding at taken
  split at taken
  · rename_i flight completion its
    split at taken
    · rename_i eq
      cases taken
      exact ⟨its, by rw [eq]⟩
    · cases taken
  · cases taken

theorem land_trace (s : ViewStateState) (mail : Option Completion) (keys : ClientKeys) (profile : UInt32) :
    Lane.Trace s.lane (s.land mail keys profile).2 (s.land mail keys profile).1.lane := by
  unfold land
  cases landing : s.takeLanding mail with
  | none => exact .start
  | some taken =>
    obtain ⟨r, outcome⟩ := taken
    obtain ⟨flight, -⟩ := takeLanding_some landing
    cases outcome with
    | notStarted => exact restartRefused_trace flight keys profile
    | written done => exact landWritten_trace flight done

theorem settleRefresh_lane (s : ViewStateState) : s.settleRefresh.lane = s.lane := by
  unfold settleRefresh
  split <;> rfl

theorem pump_trace (s : ViewStateState) (mail : Option Completion) (keys : ClientKeys) (profile : UInt32) :
    Lane.Trace s.lane (s.pump mail keys profile).2 (s.pump mail keys profile).1.lane := by
  unfold pump
  rw [settleRefresh_lane]
  refine Lane.Trace.append (land_trace s.retryTick.1 mail keys profile) ?_
  split
  · exact kick_trace _ keys profile
  · exact .start

end ViewStateState

namespace Writes

theorem step_trace (s : ViewStateState) (op : Op) :
    Lane.Trace s.lane (step s op).2.notes (step s op).1.lane := by
  cases op with
  | request sid rk w scope guid keys profile => exact s.request_trace sid rk w scope guid keys profile
  | fanOutOriginWatched sid rk several keys profile => exact s.fanOut_trace sid rk several keys profile
  | pump mail keys profile => exact s.pump_trace mail keys profile
  | takeJobs => exact .start
  | reset => exact Lane.Trace.one (.reset s.sent s.queue) ⟨rfl, rfl⟩

abbrev Past := List (Transducer.Event ViewStateState Op Answer)

/-- What happened to every write of a run, in order. -/
def notes (past : Past) : List Note := past.flatMap (fun e => e.answer.notes)

theorem run_trace (ops : List Op) :
    Lane.Trace Lane.empty (notes (history step .default ops))
      (Transducer.run step .default ops).lane := by
  refine history_invariant step (R := fun past s => Lane.Trace Lane.empty (notes past) s.lane)
    ?_ .start ops
  intro past s op h
  have split : notes (past ++ [event step s op]) = notes past ++ (step s op).2.notes := by
    simp [notes, event]
  rw [split]
  exact h.append (step_trace s op)

end Writes
end PlxNative.ViewState
