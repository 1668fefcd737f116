import PlxNative.ViewState.WriteLane

/-! Press order. The writes that were neither lost nor replaced are, in the order they
were made, the settled ones, then the one in flight, then the queue. -/
namespace PlxNative.ViewState
open List Transducer

section

/-- The writes that came into the queue, presses and fan-outs. -/
def made (notes : List Note) : List Req :=
  notes.filterMap (fun | .queued req _ => some req | _ => none)

/-- The writes that left without an answer of the runner: replaced by a newer press, not
admitted, or cleared by a reset. -/
def lost (notes : List Note) : List Req :=
  notes.flatMap (fun
    | .queued _ replaced => replaced
    | .dropped req => [req]
    | .reset _ queue => queue
    | _ => [])

def handed (notes : List Note) : List Req :=
  notes.filterMap (fun | .handed req _ => some req | _ => none)

def refused (notes : List Note) : List Req :=
  notes.filterMap (fun | .refused req => some req | _ => none)

/-- The writes whose turn is over: answered, or in flight at a reset. -/
def settled (notes : List Note) : List Req :=
  notes.flatMap (fun
    | .written req _ => [req]
    | .reset sent _ => sent.toList
    | _ => [])

/-- The writes handed out that the runner still owes an answer to this owner. -/
def outstanding (notes : List Note) : List Req :=
  notes.foldl (fun flight note => match note with
    | .handed req _ => flight ++ [req]
    | .refused req | .written req _ => flight.erase req
    | .reset _ _ => []
    | _ => flight) []

end

namespace Lane

theorem Trace.outstanding_eq {notes : List Note} {l : Lane} (h : Trace empty notes l) :
    outstanding notes = l.sent.toList := by
  induction h with
  | start => rfl
  | @move notes l note _ allowed ih =>
    unfold outstanding at ih ⊢
    rw [foldl_append, ih]
    cases note with
    | queued | dropped | copied => rfl
    | handed req keys => simp [play, allowed.1]
    | refused req =>
      have flight : l.sent = some req := allowed
      simp [play, flight]
    | written req done =>
      have flight : l.sent = some req := allowed
      simp [play, flight]
    | reset => rfl

structure Serial (notes : List Note) (l : Lane) : Prop where
  kept : (made notes).filter (fun r => r ∉ lost notes) = settled notes ++ l.sent.toList ++ l.queue
  ascending : KeyOrder.Ascending Req.id (made notes)
  below : ∀ r ∈ made notes, r.id < l.nextId
  lost_made : ∀ r ∈ lost notes, r ∈ made notes
  answered : (handed notes).Perm (refused notes ++ settled notes ++ l.sent.toList)
  handed_made : ∀ r ∈ handed notes, r ∈ made notes
  order : (handed notes).Pairwise (fun a b => a.id ≤ b.id)
  reached : ∀ a ∈ handed notes, ∀ r ∈ l.sent.toList ++ l.queue, a.id ≤ r.id

section
variable {notes : List Note} {l : Lane}

theorem Serial.live (h : Serial notes l) :
    KeyOrder.Ascending Req.id (settled notes ++ (l.sent.toList ++ l.queue)) := by
  have kept := h.ascending.filter (fun r => r ∉ lost notes)
  rw [h.kept, append_assoc] at kept
  exact kept

theorem Serial.pending (h : Serial notes l) : KeyOrder.Ascending Req.id (l.sent.toList ++ l.queue) :=
  (pairwise_append.mp h.live).2.1

theorem Serial.pending_made (h : Serial notes l) {r : Req} (mem : r ∈ l.sent.toList ++ l.queue) :
    r ∈ made notes := by
  have kept : r ∈ (made notes).filter (fun r => r ∉ lost notes) := by
    rw [h.kept, append_assoc]
    exact mem_append_right _ mem
  exact (mem_filter.mp kept).1

theorem Serial.without (h : Serial notes l) {out : List Req} (queued : ∀ r ∈ out, r ∈ l.queue) :
    (made notes).filter (fun r => r ∉ lost notes ++ out) =
      settled notes ++ l.sent.toList ++ l.queue.filter (fun r => r ∉ out) := by
  have live := h.live
  rw [← append_assoc] at live
  have apart := (pairwise_append.mp live).2.2
  have rest : (settled notes ++ l.sent.toList).filter (fun r => r ∉ out) = settled notes ++ l.sent.toList := by
    apply filter_eq_self.mpr
    intro r mem
    simp only [decide_eq_true_eq]
    intro gone
    have less := apart r mem r (queued r gone)
    omega
  calc (made notes).filter (fun r => r ∉ lost notes ++ out)
      = ((made notes).filter (fun r => r ∉ lost notes)).filter (fun r => r ∉ out) := by
        rw [filter_filter]
        apply filter_congr
        simp [and_comm]
    _ = _ := by rw [h.kept, filter_append, rest]

theorem serial_empty : Serial [] empty := by
  refine ⟨rfl, .nil, ?_, ?_, .nil, ?_, .nil, ?_⟩
  all_goals
    intro r mem
    cases mem

section
variable (h : Serial notes l)
include h

theorem Serial.loses {out : List Req} (queued : ∀ r ∈ out, r ∈ l.queue) : ∀ r ∈ lost notes ++ out, r ∈ made notes :=
  forall_mem_append.mpr ⟨h.lost_made, fun r mem => h.pending_made (mem_append_right _ (queued r mem))⟩

variable {req : Req}

theorem Serial.queued {replaced : List Req} (allowed : l.Allows (.queued req replaced)) :
    Serial (notes ++ [.queued req replaced]) (l.play (.queued req replaced)) := by
  obtain ⟨id, queued, -⟩ := allowed
  have makes : made (notes ++ [.queued req replaced]) = made notes ++ [req] := by simp [made]
  have loses : lost (notes ++ [.queued req replaced]) = lost notes ++ replaced := by simp [lost]
  have lost_made := h.loses fun r mem => queued.subset mem
  have fresh : ∀ r ∈ made notes, r.id < req.id := by
    rw [id]
    exact h.below
  constructor
  case kept =>
    have kept : req ∉ lost notes ++ replaced := fun gone => Nat.lt_irrefl _ (fresh req (lost_made req gone))
    have only : [req].filter (fun r => r ∉ lost notes ++ replaced) = [req] :=
      filter_cons_of_pos (decide_eq_true kept)
    rw [makes, loses, filter_append, h.without fun r mem => queued.subset mem, only, append_assoc]
    simp [settled, play]
  case ascending =>
    rw [makes]
    exact h.ascending.snoc fresh
  case below =>
    rw [makes]
    refine forall_mem_append.mpr ⟨fun r mem => Nat.lt_succ_of_lt (h.below r mem), forall_mem_singleton.mpr ?_⟩
    rw [id]
    exact Nat.lt_succ_self _
  case lost_made =>
    rw [makes, loses]
    exact fun r mem => mem_append_left _ (lost_made r mem)
  case answered => simpa [ViewState.handed, ViewState.refused, settled, play] using h.answered
  case handed_made =>
    rw [makes]
    exact fun r mem => mem_append_left _ (h.handed_made r (by simpa [ViewState.handed] using mem))
  case order => simpa [ViewState.handed] using h.order
  case reached =>
    intro a mem r pending
    have mem : a ∈ ViewState.handed notes := by simpa [ViewState.handed] using mem
    simp only [play, ← append_assoc] at pending
    rcases mem_append.mp pending with old | new
    · refine h.reached a mem r ?_
      rcases mem_append.mp old with flight | waits
      · exact mem_append_left _ flight
      · exact mem_append_right _ (mem_filter.mp waits).1
    · rw [mem_singleton.mp new]
      exact Nat.le_of_lt (fresh a (h.handed_made a mem))

theorem Serial.dropped (allowed : l.Allows (.dropped req)) :
    Serial (notes ++ [.dropped req]) (l.play (.dropped req)) := by
  obtain ⟨idle, rest, queue⟩ := allowed
  have makes : made (notes ++ [.dropped req]) = made notes := by simp [made]
  have loses : lost (notes ++ [.dropped req]) = lost notes ++ [req] := by simp [lost]
  have waits : ∀ r ∈ [req], r ∈ l.queue := forall_mem_singleton.mpr (queue ▸ mem_cons_self)
  have pending := h.pending
  rw [idle, queue] at pending
  have after : l.queue.filter (fun r => r ∉ [req]) = rest := by
    rw [queue, filter_cons_of_neg (by simp)]
    apply filter_eq_self.mpr
    intro r mem
    simp only [mem_singleton, decide_eq_true_eq]
    rintro rfl
    exact Nat.lt_irrefl _ ((pairwise_cons.mp pending).1 r mem)
  constructor
  case kept =>
    rw [makes, loses, h.without waits, after]
    simp [settled, play, queue]
  case ascending => exact makes ▸ h.ascending
  case below => exact makes ▸ h.below
  case lost_made =>
    rw [makes, loses]
    exact h.loses waits
  case answered => simpa [ViewState.handed, ViewState.refused, settled, play] using h.answered
  case handed_made =>
    rw [makes]
    simpa [ViewState.handed] using h.handed_made
  case order => simpa [ViewState.handed] using h.order
  case reached =>
    intro a mem r pending
    refine h.reached a (by simpa [ViewState.handed] using mem) r ?_
    simp only [play, queue] at pending
    rw [queue]
    rcases mem_append.mp pending with flight | waits
    · exact mem_append_left _ flight
    · exact mem_append_right _ (mem_cons_of_mem _ waits)

theorem Serial.shift {note : Note} (makes : made (notes ++ [note]) = made notes)
    (loses : lost (notes ++ [note]) = lost notes) (next : (l.play note).nextId = l.nextId)
    (kept : settled (notes ++ [note]) ++ (l.play note).sent.toList ++ (l.play note).queue =
      settled notes ++ l.sent.toList ++ l.queue)
    (answered : (handed (notes ++ [note])).Perm
      (refused (notes ++ [note]) ++ settled (notes ++ [note]) ++ (l.play note).sent.toList))
    (order : (handed (notes ++ [note])).Pairwise (fun a b => a.id ≤ b.id))
    (handed_made : ∀ r ∈ handed (notes ++ [note]), r ∈ made notes)
    (reached : ∀ a ∈ handed (notes ++ [note]), ∀ r ∈ (l.play note).sent.toList ++ (l.play note).queue,
      a.id ≤ r.id) :
    Serial (notes ++ [note]) (l.play note) := by
  refine ⟨?_, ?_, ?_, ?_, answered, ?_, order, reached⟩
  · rw [makes, loses, kept]
    exact h.kept
  · rw [makes]
    exact h.ascending
  · rw [makes, next]
    exact h.below
  · rw [makes, loses]
    exact h.lost_made
  · rw [makes]
    exact handed_made

theorem Serial.handed {keys : ClientKeys} (allowed : l.Allows (.handed req keys)) :
    Serial (notes ++ [.handed req keys]) (l.play (.handed req keys)) := by
  obtain ⟨idle, rest, queue⟩ := allowed
  have hands : ViewState.handed (notes ++ [.handed req keys]) = ViewState.handed notes ++ [req] := by
    simp [ViewState.handed]
  have settles : settled (notes ++ [.handed req keys]) = settled notes := by simp [settled]
  have refuses : ViewState.refused (notes ++ [.handed req keys]) = ViewState.refused notes := by
    simp [ViewState.refused]
  have first : req ∈ l.sent.toList ++ l.queue := by
    rw [idle, queue]
    exact mem_cons_self ..
  have pending := h.pending
  rw [idle, queue] at pending
  refine h.shift (by simp [made]) (by simp [lost]) rfl ?_ ?_ ?_ ?_ ?_
  · rw [settles]
    simp [play, idle, queue]
  · have answered := h.answered
    rw [idle] at answered
    rw [hands, refuses, settles]
    simpa [play] using answered.append_right [req]
  · rw [hands, pairwise_append]
    refine ⟨h.order, pairwise_singleton _ _, ?_⟩
    intro a mem b new
    rw [mem_singleton.mp new]
    exact h.reached a mem req first
  · rw [hands]
    exact forall_mem_append.mpr ⟨h.handed_made, forall_mem_singleton.mpr (h.pending_made first)⟩
  · rw [hands]
    intro a mem r later
    simp only [play, queue] at later
    rcases mem_append.mp mem with old | new
    · refine h.reached a old r ?_
      rw [idle, queue]
      exact later
    · rw [mem_singleton.mp new]
      rcases mem_append.mp later with flight | waits
      · rw [mem_singleton.mp flight]
      · exact Nat.le_of_lt ((pairwise_cons.mp pending).1 r waits)

theorem Serial.refused (allowed : l.Allows (.refused req)) :
    Serial (notes ++ [.refused req]) (l.play (.refused req)) := by
  have flight : l.sent = some req := allowed
  refine h.shift (by simp [made]) (by simp [lost]) rfl ?_ ?_ ?_ ?_ ?_
  · simp [settled, play, flight]
  · have answered := h.answered
    rw [flight] at answered
    have turned : (settled notes ++ [req]).Perm ([req] ++ settled notes) := perm_append_comm
    have moved := (append_assoc .. ▸ answered).trans (turned.append_left (ViewState.refused notes))
    simpa [play, ViewState.handed, ViewState.refused, settled] using moved
  · simpa [ViewState.handed] using h.order
  · simpa [ViewState.handed] using h.handed_made
  · intro a mem r pending
    refine h.reached a (by simpa [ViewState.handed] using mem) r ?_
    rw [flight]
    exact pending

theorem Serial.written {done : Done} (allowed : l.Allows (.written req done)) :
    Serial (notes ++ [.written req done]) (l.play (.written req done)) := by
  have flight : l.sent = some req := allowed
  refine h.shift (by simp [made]) (by simp [lost]) rfl ?_ ?_ ?_ ?_ ?_
  · simp [settled, play, flight]
  · simpa [flight, ViewState.handed, ViewState.refused, settled, play] using h.answered
  · simpa [ViewState.handed] using h.order
  · simpa [ViewState.handed] using h.handed_made
  · intro a mem r pending
    exact h.reached a (by simpa [ViewState.handed] using mem) r (mem_append_right _ pending)

theorem Serial.copied (req : Req) (seq : Nat) (place : ViewAt) :
    Serial (notes ++ [.copied req seq place]) (l.play (.copied req seq place)) := by
  refine h.shift (by simp [made]) (by simp [lost]) rfl ?_ ?_ ?_ ?_ ?_
  · simp [settled, play]
  · simpa [ViewState.handed, ViewState.refused, settled, play] using h.answered
  · simpa [ViewState.handed] using h.order
  · simpa [ViewState.handed] using h.handed_made
  · simpa [ViewState.handed, play] using h.reached

theorem Serial.reset :
    Serial (notes ++ [.reset l.sent l.queue]) (l.play (.reset l.sent l.queue)) := by
  have makes : made (notes ++ [.reset l.sent l.queue]) = made notes := by simp [made]
  have loses : lost (notes ++ [.reset l.sent l.queue]) = lost notes ++ l.queue := by simp [lost]
  constructor
  case kept =>
    have nothing : l.queue.filter (fun r => r ∉ l.queue) = [] :=
      filter_eq_nil_iff.mpr fun r mem => by simp [mem]
    rw [makes, loses, h.without (fun _ mem => mem), nothing]
    simp [settled, play]
  case ascending => exact makes ▸ h.ascending
  case below => exact makes ▸ h.below
  case lost_made =>
    rw [makes, loses]
    exact h.loses fun _ mem => mem
  case answered => simpa [ViewState.handed, ViewState.refused, settled, play] using h.answered
  case handed_made =>
    rw [makes]
    simpa [ViewState.handed] using h.handed_made
  case order => simpa [ViewState.handed] using h.order
  case reached =>
    intro a _ r pending
    cases pending

end

theorem Trace.serial (h : Trace empty notes l) : Serial notes l := by
  induction h with
  | start => exact serial_empty
  | @move notes l note _ allowed ih =>
    cases note with
    | queued req replaced => exact ih.queued allowed
    | dropped req => exact ih.dropped allowed
    | handed req keys => exact ih.handed allowed
    | refused req => exact ih.refused allowed
    | written req done => exact ih.written allowed
    | copied req seq place => exact ih.copied req seq place
    | reset sent queue =>
      obtain ⟨rfl, rfl⟩ := allowed
      exact ih.reset

/-- Leaving aside the lost and the waiting writes, the last write handed out is the last
one made, whichever writes are looked at. -/
theorem Serial.last_handed (h : Serial notes l) (looked : Req → Bool) :
    ((ViewState.handed notes).filter (fun r => looked r && decide (r ∉ lost notes ∧ r ∉ l.queue))).getLast? =
      ((made notes).filter (fun r => looked r && decide (r ∉ lost notes ∧ r ∉ l.queue))).getLast? := by
  refine (h.ascending.filter _).getLast?_eq (h.order.filter _) ?_
  intro r
  simp only [mem_filter, Bool.and_eq_true, decide_eq_true_eq]
  constructor
  · rintro ⟨out, rest⟩
    exact ⟨h.handed_made r out, rest⟩
  · rintro ⟨came, looks, found, left⟩
    refine ⟨?_, looks, found, left⟩
    have kept : r ∈ (made notes).filter (fun r => r ∉ lost notes) :=
      mem_filter.mpr ⟨came, decide_eq_true found⟩
    rw [h.kept] at kept
    rcases mem_append.mp kept with gone | waits
    · rw [h.answered.mem_iff, append_assoc]
      exact mem_append_right _ gone
    · exact absurd waits left

theorem Serial.count_handed (h : Serial notes l) (r : Req) :
    (ViewState.handed notes).count r ≤ (ViewState.refused notes).count r + 1 := by
  have live := h.live
  rw [← append_assoc] at live
  have apart := (pairwise_append.mp live).1
  have distinct : (settled notes ++ l.sent.toList).Nodup := by
    refine List.Pairwise.imp ?_ apart
    rintro a b less rfl
    exact Nat.lt_irrefl _ less
  have once := nodup_iff_count_le_one.mp distinct r
  rw [h.answered.count_eq, append_assoc, count_append]
  omega

end
end Lane

namespace ViewStateState

def handedJobs (notes : List Note) : List ViewWriteReq :=
  notes.filterMap (fun | .handed req keys => some (req.job keys) | _ => none)

theorem handedJobs_append (notes later : List Note) :
    handedJobs (notes ++ later) = handedJobs notes ++ handedJobs later :=
  filterMap_append

theorem sendNext_jobs (keys : ClientKeys) (profile : UInt32) (queue : List Req) (s : ViewStateState) :
    (s.sendNext keys profile queue).1.jobs = s.jobs ++ handedJobs (s.sendNext keys profile queue).2 := by
  induction queue generalizing s with
  | nil => exact (append_nil _).symm
  | cons r rest ih =>
    unfold sendNext
    split
    · rfl
    · exact ih (s.dropQueued r).1

theorem kick_jobs (s : ViewStateState) (keys : ClientKeys) (profile : UInt32) :
    (s.kick keys profile).1.jobs = s.jobs ++ handedJobs (s.kick keys profile).2 := by
  unfold kick
  split
  · exact (append_nil _).symm
  · exact sendNext_jobs keys profile s.queue s

theorem recordCopies_handedJobs (r : Req) (also : List (ServerId × String)) (ledger : Table) :
    handedJobs (recordCopies r ledger also).2 = [] := by
  induction also generalizing ledger with
  | nil => rfl
  | cons copy rest ih => exact ih _

theorem land_jobs (s : ViewStateState) (mail : Option Completion) (keys : ClientKeys) (profile : UInt32) :
    (s.land mail keys profile).1.jobs = s.jobs ∧ handedJobs (s.land mail keys profile).2 = [] := by
  unfold land
  split
  · exact ⟨rfl, rfl⟩
  · unfold restartRefused
    split <;> exact ⟨rfl, rfl⟩
  · exact ⟨rfl, recordCopies_handedJobs _ _ _⟩

theorem settleRefresh_jobs (s : ViewStateState) : s.settleRefresh.jobs = s.jobs := by
  unfold settleRefresh
  split <;> rfl

end ViewStateState

namespace Writes
open ViewStateState (handedJobs)

theorem step_jobs (s : ViewStateState) (op : Op) :
    (step s op).2.jobs ++ (step s op).1.jobs = s.jobs ++ handedJobs (step s op).2.notes := by
  cases op with
  | request sid rk w scope guid keys profile =>
    simp only [step, ViewStateState.request]
    cases keys.key sid with
    | none => exact (append_nil _).symm
    | some key => exact ViewStateState.kick_jobs _ keys profile
  | fanOutOriginWatched sid rk several keys profile =>
    simp only [step, ViewStateState.fanOutOriginWatched]
    cases keys.key sid with
    | none => exact (append_nil _).symm
    | some key =>
      dsimp only
      split
      · exact (append_nil _).symm
      · exact ViewStateState.kick_jobs _ keys profile
  | pump mail keys profile =>
    obtain ⟨outbox, nothing⟩ := s.retryTick.1.land_jobs mail keys profile
    simp only [step, ViewStateState.pump, ViewStateState.settleRefresh_jobs,
      ViewStateState.handedJobs_append, nothing]
    split
    · rw [ViewStateState.kick_jobs, outbox]
      rfl
    · rw [outbox]
      exact (append_nil _).symm
  | takeJobs => rfl
  | reset => exact (append_nil _).symm

def takenJobs (past : Past) : List ViewWriteReq := past.flatMap (fun e => e.answer.jobs)

theorem run_jobs (ops : List Op) :
    takenJobs (history step .default ops) ++ (Transducer.run step .default ops).jobs =
      handedJobs (notes (history step .default ops)) := by
  refine history_invariant step (R := fun past s => takenJobs past ++ s.jobs = handedJobs (notes past))
    ?_ rfl ops
  intro past s op h
  have taken : takenJobs (past ++ [event step s op]) = takenJobs past ++ (step s op).2.jobs := by
    simp [takenJobs, event]
  have noted : notes (past ++ [event step s op]) = notes past ++ (step s op).2.notes := by
    simp [notes, event]
  rw [taken, noted, ViewStateState.handedJobs_append, ← h, append_assoc, step_jobs, append_assoc]

theorem pump_stale (s : ViewStateState) {completion : Completion}
    (stale : ∀ r, s.sent = some r → r.id ≠ completion.id) (keys : ClientKeys) (profile : UInt32) :
    s.pump (some completion) keys profile = s.pump none keys profile := by
  have untaken : s.retryTick.1.takeLanding (some completion) = none := by
    cases landing : s.retryTick.1.takeLanding (some completion) with
    | none => rfl
    | some taken =>
      obtain ⟨r, outcome⟩ := taken
      obtain ⟨flight, mail⟩ := ViewStateState.takeLanding_some landing
      refine absurd ?_ (stale r flight)
      exact (congrArg Completion.id (Option.some.inj mail)).symm
  have empty : s.retryTick.1.takeLanding none = none := by
    unfold ViewStateState.takeLanding
    split
    · rename_i mail
      cases mail
    · rfl
  unfold ViewStateState.pump ViewStateState.land
  dsimp only
  rw [untaken, empty]

/-- Writes leave in press order, one at a time: over every run, the ids order the queue
behind the write in flight, the runner is owed one answer at most, jobs leave in id order
and again only after a refusal, and the last of them about an item and a toggle is the
newest write that was neither lost nor is still queued. -/
theorem writes_in_press_order (ops : List Op) :
    let s := Transducer.run step .default ops
    let past := history step .default ops
    KeyOrder.Ascending Req.id s.queue ∧
    (∀ r, s.sent = some r → ∀ q ∈ s.queue, r.id < q.id) ∧
    outstanding (notes past) = s.sent.toList ∧
    KeyOrder.Ascending Req.id (made (notes past)) ∧
    takenJobs past ++ s.jobs = handedJobs (notes past) ∧
    (∀ r ∈ handed (notes past), r ∈ made (notes past)) ∧
    (handed (notes past)).Pairwise (fun a b => a.id ≤ b.id) ∧
    (∀ r, (handed (notes past)).count r ≤ (refused (notes past)).count r + 1) ∧
    (∀ sid rk w,
      ((handed (notes past)).filter (fun r => r.about sid rk w &&
          decide (r ∉ lost (notes past) ∧ r ∉ s.queue))).getLast? =
        ((made (notes past)).filter (fun r => r.about sid rk w &&
          decide (r ∉ lost (notes past) ∧ r ∉ s.queue))).getLast?) ∧
    (∀ completion keys profile, (∀ r, s.sent = some r → r.id ≠ completion.id) →
      s.pump (some completion) keys profile = s.pump none keys profile) := by
  intro s past
  have trace := run_trace ops
  have serial := trace.serial
  obtain ⟨-, queue, ahead⟩ := pairwise_append.mp serial.pending
  refine ⟨queue, ?_, trace.outstanding_eq, serial.ascending, run_jobs ops, serial.handed_made, serial.order,
    serial.count_handed, fun sid rk w => serial.last_handed (Req.about sid rk w), ?_⟩
  · intro r flight q waits
    refine ahead r ?_ q waits
    simp [ViewStateState.lane, s, flight]
  · intro completion keys profile stale
    exact pump_stale s stale keys profile

section

def oneKey : ClientKey := ⟨1, 1, 1⟩

def oneServer : ClientKeys := ⟨[(⟨0⟩, oneKey)]⟩

/-- The second press on "b" replaces the first one in the queue, and the profile changes
before it can be sent. -/
def pressedTwice : List Op :=
  [.request ⟨0⟩ "a" .watched .leaf "" oneServer 1,
   .request ⟨0⟩ "b" .watched .leaf "" oneServer 1,
   .request ⟨0⟩ "b" .unwatched .leaf "" oneServer 1,
   .pump (some ⟨1, .written ⟨true, []⟩⟩) oneServer 2]

/-- Admission is not the only way out: an idle owner need not have handed out the newest
press that was admitted throughout. -/
theorem last_handed_not_newest_admitted :
    ¬ ∀ ops : List Op,
      let s := Transducer.run step .default ops
      let log := notes (history step .default ops)
      s.queue = [] → s.sent = none → ∀ sid rk w,
        ((handed log).filter (Req.about sid rk w)).getLast? =
          ((made log).filter (fun r => r.about sid rk w && decide (.dropped r ∉ log))).getLast? := by
  intro every
  have claimed := every pressedTwice (by decide) (by decide) ⟨0⟩ "b" .watched
  revert claimed
  decide

end
end Writes
end PlxNative.ViewState
