import Mathlib.Data.Nat.ModEq
import PlxNative.Machine.LandingSlot

/-! Loss accounting. One event moves every record it touches between the queue, the
drained output and the discards, and moves the wrapping counters by exactly the
records it discarded and the publication it refused for lack of room. -/
namespace PlxNative.Machine
open List Nat Transducer

variable {K V : Type*}

namespace Inner

def droppedOf (g : Inner K V) (target : MachineId) : UInt32 := (g.droppedFor.lookup target).getD 0

/-- The per-addressee counters add up to the whole one, modulo the counter width. -/
def Balanced (g : Inner K V) : Prop :=
  Table.total UInt32.toNat g.droppedFor ≡ g.dropped.toNat [MOD 2 ^ 32]

/-- The counters moved by one for each addressee in `lost`. -/
structure Counts (lost : List MachineId) (g g' : Inner K V) : Prop where
  dropped : g'.dropped.toNat ≡ g.dropped.toNat + lost.length [MOD 2 ^ 32]
  each : ∀ target, (g'.droppedOf target).toNat ≡
    (g.droppedOf target).toNat + lost.count target [MOD 2 ^ 32]
  balanced : g.Balanced → g'.Balanced

def SameCounters (g g' : Inner K V) : Prop :=
  g'.dropped = g.dropped ∧ g'.droppedFor = g.droppedFor

variable {g g' : Inner K V}

theorem SameCounters.counts (eq : SameCounters g g') : Counts [] g g' := by
  obtain ⟨whole, each⟩ := eq
  refine ⟨?_, ?_, ?_⟩
  · rw [whole]
    exact Nat.ModEq.refl _
  · intro target
    rw [droppedOf, each]
    exact Nat.ModEq.refl _
  · intro h
    unfold Balanced at *
    rw [whole, each]
    exact h

variable {g g₁ g₂ : Inner K V}

theorem Counts.trans {xs ys : List MachineId} (h₁ : Counts xs g g₁)
    (h₂ : Counts ys g₁ g₂) : Counts (xs ++ ys) g g₂ := by
  refine ⟨?_, ?_, fun h => h₂.balanced (h₁.balanced h)⟩
  · rw [length_append, ← Nat.add_assoc]
    exact h₂.dropped.trans (h₁.dropped.add_right _)
  · intro target
    rw [count_append, ← Nat.add_assoc]
    exact (h₂.each target).trans ((h₁.each target).add_right _)

theorem Counts.perm {xs ys : List MachineId} (h : Counts xs g g') (perm : ys.Perm xs) : Counts ys g g' := by
  refine ⟨perm.length_eq ▸ h.dropped, fun target => ?_, h.balanced⟩
  rw [perm.count_eq]
  exact h.each target

variable {lost : List MachineId}

theorem Counts.after (h : Counts lost g g₁) (eq : SameCounters g₁ g₂) : Counts lost g g₂ := by
  have whole := h.trans eq.counts
  rwa [append_nil] at whole

theorem Counts.before (eq : SameCounters g g₁) (h : Counts lost g₁ g₂) : Counts lost g g₂ := eq.counts.trans h

theorem toNat_succ (n : UInt32) : (n + 1).toNat ≡ n.toNat + 1 [MOD 2 ^ 32] := by
  exact mod_modEq _ _

theorem countDrop_balanced (t : MachineId) (h : g.Balanced) : (g.countDrop t).Balanced := by
  have moved := Table.total_insert UInt32.toNat t (g.droppedOf t + 1) g.droppedFor
  have held : ((g.droppedFor.lookup t).map UInt32.toNat).getD 0 = (g.droppedOf t).toNat := by
    unfold droppedOf
    cases g.droppedFor.lookup t <;> rfl
  rw [held] at moved
  apply Nat.ModEq.add_right_cancel' (g.droppedOf t).toNat
  calc Table.total UInt32.toNat (g.countDrop t).droppedFor + (g.droppedOf t).toNat
      = (g.droppedOf t + 1).toNat + Table.total UInt32.toNat g.droppedFor := moved
    _ ≡ ((g.droppedOf t).toNat + 1) + g.dropped.toNat [MOD 2 ^ 32] := (toNat_succ _).add h
    _ = (g.dropped.toNat + 1) + (g.droppedOf t).toNat := by omega
    _ ≡ (g.countDrop t).dropped.toNat + (g.droppedOf t).toNat [MOD 2 ^ 32] :=
      (toNat_succ g.dropped).symm.add_right _

theorem countDrop_counts (g : Inner K V) (t : MachineId) : Counts [t] g (g.countDrop t) := by
  refine ⟨toNat_succ _, ?_, countDrop_balanced t⟩
  intro target
  by_cases eq : target = t
  · subst eq
    rw [show (g.countDrop target).droppedOf target = g.droppedOf target + 1 by
      simp only [droppedOf, countDrop, AList.lookup_insert, Option.getD_some], count_singleton_self]
    exact toNat_succ _
  · rw [show (g.countDrop t).droppedOf target = g.droppedOf target by
      simp only [droppedOf, countDrop, AList.lookup_insert_ne eq],
      count_eq_zero_of_not_mem (fun there => eq (mem_singleton.mp there))]
    exact Nat.ModEq.refl _

theorem countDrops_counts (g : Inner K V) (t : MachineId) (n : Nat) :
    Counts (List.replicate n t) g ((fun g => countDrop g t)^[n] g) := by
  induction n generalizing g with
  | zero => exact SameCounters.counts ⟨rfl, rfl⟩
  | succ n ih =>
    exact (countDrop_counts g t).trans (ih (g.countDrop t))

def targets (recs : List (Landed K V)) : List MachineId := recs.map (fun rec => rec.addr.target)

theorem targets_of_addr (recs : List (Landed K V)) (addr : Addr) :
    targets (recs.filter (fun rec => rec.addr = addr)) =
      List.replicate (recs.countP (fun rec => rec.addr = addr)) addr.target := by
  apply eq_replicate_iff.mpr
  refine ⟨by rw [targets, length_map, countP_eq_length_filter], ?_⟩
  intro t mem
  obtain ⟨rec, there, rfl⟩ := mem_map.mp mem
  rw [of_decide_eq_true (mem_filter.mp there).2]

theorem cancelLocked_counts {addr : Addr} {state : Reservation} (held : g.reservation addr = some state) :
    Counts (targets (g.queued.filter (fun rec => rec.addr = addr))) g (g.cancelLocked addr).1 := by
  unfold reservation at held
  rw [targets_of_addr, queued, countP_append]
  simp only [cancelLocked, held]
  generalize g.data.countP (fun rec => rec.addr = addr) + g.control.countP (fun rec => rec.addr = addr) = n
  have counted := countDrops_counts { g with
    data := g.data.filter (fun rec => rec.addr ≠ addr)
    control := g.control.filter (fun rec => rec.addr ≠ addr) } addr.target n
  cases state with
  | terminal c => exact ⟨counted.dropped, counted.each, counted.balanced⟩
  | running c s => exact ⟨counted.dropped, counted.each, counted.balanced⟩

end Inner
namespace Inner

theorem targets_cut (recs : List (Landed K V)) (addr : Addr) (addrs : List Addr) :
    (targets (recs.filter (fun rec => rec.addr ∈ addr :: addrs))).Perm
      (targets (recs.filter (fun rec => rec.addr = addr)) ++
        targets ((recs.filter (fun rec => rec.addr ∉ [addr])).filter (fun rec => rec.addr ∈ addrs))) := by
  rw [targets, targets, targets, ← map_append]
  apply List.Perm.map
  have halves := filter_append_perm (fun rec : Landed K V => rec.addr = addr)
    (recs.filter (fun rec => rec.addr ∈ addr :: addrs))
  refine halves.symm.trans (List.Perm.of_eq ?_)
  congr 1
  · rw [filter_filter]
    apply filter_congr
    intro rec _
    by_cases eq : rec.addr = addr <;> simp [eq]
  · rw [filter_filter, filter_filter]
    apply filter_congr
    intro rec _
    by_cases eq : rec.addr = addr <;> simp [eq]

theorem foldl_cancelLocked_counts {g : Inner K V} (housed : Housed g) (addrs : List Addr) :
    Counts (targets (g.queued.filter (fun rec => rec.addr ∈ addrs))) g
      (addrs.foldl (fun g addr => (cancelLocked g addr).1) g) := by
  induction addrs generalizing g with
  | nil =>
    rw [filter_eq_nil_iff.mpr (fun rec _ there => by simp at there)]
    exact SameCounters.counts ⟨rfl, rfl⟩
  | cons addr addrs ih =>
    have cut := cancelLocked_cancels housed addr
    have first : Counts (targets (g.queued.filter (fun rec => rec.addr = addr))) g
        (g.cancelLocked addr).1 := by
      cases held : g.reservation addr with
      | some state => exact cancelLocked_counts held
      | none =>
        have absent : g.queued.filter (fun rec => rec.addr = addr) = [] := by
          apply filter_eq_nil_iff.mpr
          intro rec mem there
          exact housed rec mem (of_decide_eq_true there ▸ held)
        rw [absent]
        unfold reservation at held
        simp only [cancelLocked, held]
        exact SameCounters.counts ⟨rfl, rfl⟩
    have left : (g.cancelLocked addr).1.queued = g.queued.filter (fun rec => rec.addr ∉ [addr]) := by
      rw [queued, cut.data, cut.control, ← filter_append]
      rfl
    have rest := ih (cut.housed housed)
    rw [left] at rest
    exact (first.trans rest).perm (targets_cut g.queued addr addrs)

section
variable (isDeliverable : Addr → Bool) (want : K → Bool)

theorem takeRecord_counts (g : Inner K V) (rec : Landed K V) :
    Counts (if passes isDeliverable want g rec then [] else [rec.addr.target]) g
      (takeRecord isDeliverable want g rec).1 := by
  have erased : SameCounters g
      (if rec.terminal then { g with inflight := g.inflight.erase rec.addr.key } else g) := by
    cases rec.terminal <;> exact ⟨rfl, rfl⟩
  unfold takeRecord passes reservation
  generalize (if rec.terminal then { g with inflight := g.inflight.erase rec.addr.key } else g) = g₁
    at erased ⊢
  cases ((g.inflight.lookup rec.addr.key).map Reservation.isCancelled).getD false <;>
    cases isDeliverable rec.addr <;> cases rec.lane.wanted want <;>
    first
      | exact erased.counts
      | exact Counts.before erased (countDrop_counts g₁ rec.addr.target)

theorem drain_counts {recs : List (Landed K V)} {g : Inner K V} (h : SlotsOf g recs) :
    Counts (targets (recs.filter (fun rec => !passes isDeliverable want g rec))) g
      (drain isDeliverable want recs g).1 := by
  induction recs generalizing g with
  | nil => exact SameCounters.counts ⟨rfl, rfl⟩
  | cons rec rest ih =>
    have first := takeRecord_counts isDeliverable want g rec
    have tail := ih (takeRecord_slots isDeliverable want h)
    rw [filter_congr (fun other mem => congrArg not
      (takeRecord_passes isDeliverable want h mem))] at tail
    have whole := first.trans tail
    rw [filter_cons]
    cases verdict : passes isDeliverable want g rec with
    | true =>
      rw [verdict] at whole
      exact whole
    | false =>
      rw [verdict] at whole
      exact whole

end

end Inner

/-- The records an event added to the queue: those numbered by this call. -/
def acceptedBy (e : Event K V) : List (Landed K V) :=
  e.after.inner.queued.filter (fun rec => e.before.inner.seq < rec.seq)

/-- The records that left the queue in an event without being handed over. -/
def discardedBy (e : Event K V) : List (Landed K V) :=
  e.before.inner.queued.filter
    (fun rec => rec.seq ∉ (e.after.inner.queued ++ e.answer.records).map Landed.seq)

/-- The addressee of a publication answered `Full`. -/
def filledBy (e : Event K V) : List MachineId :=
  if e.answer.isFull then (e.input.publication?.map Addr.target).toList else []

/-- Why a record may be discarded: its operation is cancelled, or a drain rejects it. -/
def Rejects (e : Event K V) (rec : Landed K V) : Prop :=
  e.input.cancels rec.addr = true ∨ ∃ isDeliverable want,
    e.input = .takeFor isDeliverable want ∧ Inner.passes isDeliverable want e.before.inner rec = false

/-- What one event does to the queue as a whole. -/
inductive QueueMove (e : Event K V) : Prop
  | kept (keep : Landed K V → Bool)
      (queue : e.after.inner.queued = e.before.inner.queued.filter keep)
      (seq : e.after.inner.seq = e.before.inner.seq)
      (nothing : e.answer.records = []) (unfilled : e.answer.isFull = false)
      (why : ∀ rec ∈ e.before.inner.queued, keep rec = false → Rejects e rec)
      (counts : Inner.Counts (Inner.targets (e.before.inner.queued.filter (fun rec => !keep rec)))
        e.before.inner e.after.inner)
  | pushed (rec : Landed K V) (push : Inner.Pushes rec e.before.inner e.after.inner)
      (nothing : e.answer.records = [])
      (counts : Inner.Counts (filledBy e) e.before.inner e.after.inner)
  | drained (isDeliverable : Addr → Bool) (want : K → Bool)
      (input : e.input = .takeFor isDeliverable want)
      (queue : e.after.inner.queued = []) (seq : e.after.inner.seq = e.before.inner.seq)
      (out : e.answer.records =
        e.before.inner.merged.filter (Inner.passes isDeliverable want e.before.inner))
      (unfilled : e.answer.isFull = false)
      (counts : Inner.Counts (Inner.targets (e.before.inner.merged.filter
        (fun rec => !Inner.passes isDeliverable want e.before.inner rec)))
        e.before.inner e.after.inner)

namespace Landing

theorem event_queueMove {l : Landing K V} (h : Coherent l) (call : Call K V) :
    QueueMove (Transducer.event step l call) := by
  have effect := l.step_effect call
  have inner := l.step_inner call
  unfold Transducer.event
  rw [inner]
  generalize (l.step call).1.inner = g at effect ⊢
  generalize (l.step call).2 = answer at effect ⊢
  -- nothing leaves: the filter that keeps everything
  have quiet : ∀ {g : Inner K V}, g.queued = l.inner.queued → g.seq = l.inner.seq →
      answer.records = [] → answer.isFull = false → Inner.SameCounters l.inner g →
      QueueMove (⟨l, call, answer, { l with inner := g }⟩ : Event K V) := by
    intro g queue seq nothing unfilled eq
    refine .kept (fun _ => true) ?_ seq nothing unfilled (fun _ _ gone => by cases gone) ?_
    · rw [filter_true]
      exact queue
    · change Inner.Counts (Inner.targets (l.inner.queued.filter (fun _ => false))) l.inner g
      rw [filter_false]
      exact eq.counts
  cases effect with
  | idle unfilled unadmitted nothing => exact quiet rfl rfl nothing unfilled ⟨rfl, rfl⟩
  | admitted => exact quiet rfl rfl rfl rfl ⟨rfl, rfl⟩
  | progressed =>
    exact .pushed _ (l.inner.progressWith_pushes _ _ _) rfl (Inner.SameCounters.counts ⟨rfl, rfl⟩)
  | @completed _ addr cancelled stream lane toData full _ about live room quiet lost overflow
      answered unadmitted nothing =>
      have eq : Inner.SameQueues l.inner
          (if full then l.inner.countDrop addr.target else l.inner) := by
        cases full <;> exact ⟨rfl, rfl, rfl, rfl⟩
      refine .pushed _ (Inner.closeWith_pushes eq addr cancelled lane toData) nothing ?_
      simp only [filledBy, answered, about]
      cases full with
      | false => exact Inner.SameCounters.counts ⟨rfl, rfl⟩
      | true => exact (Inner.countDrop_counts l.inner addr.target).after ⟨rfl, rfl⟩
  | @cancelled addr state held =>
    have cut := Inner.cancelLocked_held held
    refine .kept (fun rec => rec.addr ∉ [addr]) ?_ cut.seq rfl rfl ?_ ?_
    · rw [Inner.queued, cut.data, cut.control, ← filter_append]
      rfl
    · intro rec _ gone
      have here : rec.addr = addr := by simpa using gone
      exact .inl (decide_eq_true here.symm)
    · have counts := Inner.cancelLocked_counts held
      simpa using counts
  | cleared =>
    have cut := Inner.clear_cancels h.housed
    refine .kept (fun rec => rec.addr ∉ l.inner.reserved) ?_ cut.seq rfl rfl (fun _ _ _ => .inl rfl) ?_
    · rw [Inner.queued, cut.data, cut.control, ← filter_append]
      rfl
    · have counts : Inner.Counts _ l.inner l.inner.clear :=
        Inner.foldl_cancelLocked_counts h.housed l.inner.reserved
      simpa using counts
  | taken isDeliverable want =>
    refine .drained isDeliverable want rfl (Inner.takeFor_queued isDeliverable want l.inner)
      (Inner.drain_retires isDeliverable want _ _).seq (h.takeFor_taken isDeliverable want) rfl ?_
    have emptied : Inner.SameCounters l.inner { l.inner with data := [], control := [] } := ⟨rfl, rfl⟩
    exact Inner.Counts.before emptied (Inner.drain_counts isDeliverable want h.slotsOf)

end Landing

structure Settles (e : Event K V) : Prop where
  fresh : acceptedBy e = [] ∧ e.after.inner.seq = e.before.inner.seq ∨
    ∃ rec, acceptedBy e = [rec] ∧ rec.seq = e.before.inner.seq + 1 ∧
      e.after.inner.seq = e.before.inner.seq + 1
  places : (e.before.inner.queued ++ acceptedBy e).Perm
    (e.after.inner.queued ++ e.answer.records ++ discardedBy e)
  counts : Inner.Counts (filledBy e ++ Inner.targets (discardedBy e)) e.before.inner e.after.inner
  why : ∀ rec ∈ discardedBy e, Rejects e rec

section
variable {e : Event K V}

theorem Inner.Ordered.seq_injOn {g : Inner K V} (h : g.Ordered) {a b : Landed K V}
    (ha : a ∈ g.queued) (hb : b ∈ g.queued) (eq : a.seq = b.seq) : a = b :=
  h.ascending.key_injOn (Inner.mem_merged.mpr ha) (Inner.mem_merged.mpr hb) eq

theorem discardedBy_of_kept (h : e.before.inner.Ordered) {keep : Landed K V → Bool}
    (left : (e.after.inner.queued ++ e.answer.records).Perm (e.before.inner.queued.filter keep)) :
    discardedBy e = e.before.inner.queued.filter (fun rec => !keep rec) := by
  apply filter_congr
  intro rec mem
  have found : rec.seq ∈ (e.after.inner.queued ++ e.answer.records).map Landed.seq ↔ keep rec = true := by
    rw [(left.map Landed.seq).mem_iff]
    constructor
    · intro there
      obtain ⟨other, kept, eq⟩ := mem_map.mp there
      obtain ⟨queued, verdict⟩ := mem_filter.mp kept
      rwa [h.seq_injOn mem queued eq.symm]
    · intro verdict
      exact mem_map.mpr ⟨rec, mem_filter.mpr ⟨mem, verdict⟩, rfl⟩
  simp only [found]
  cases keep rec <;> rfl

theorem acceptedBy_of_kept (h : e.before.inner.Ordered)
    (sub : ∀ rec ∈ e.after.inner.queued, rec ∈ e.before.inner.queued) : acceptedBy e = [] := by
  apply filter_eq_nil_iff.mpr
  intro rec mem late
  exact Nat.not_lt.mpr (h.numbered rec (sub rec mem)) (of_decide_eq_true late)

variable {rec : Landed K V}

theorem acceptedBy_of_push (h : e.before.inner.Ordered)
    (push : Inner.Pushes rec e.before.inner e.after.inner) : acceptedBy e = [rec] := by
  apply List.Perm.eq_singleton
  refine (push.queue.filter _).trans (List.Perm.of_eq ?_)
  have old : e.before.inner.queued.filter (fun rec => e.before.inner.seq < rec.seq) = [] := by
    apply filter_eq_nil_iff.mpr
    intro other mem late
    exact Nat.not_lt.mpr (h.numbered other mem) (of_decide_eq_true late)
  rw [filter_append, old, nil_append,
    filter_cons_of_pos (by simp [push.number]), filter_nil]

theorem discardedBy_of_push (push : Inner.Pushes rec e.before.inner e.after.inner) : discardedBy e = [] := by
  apply filter_eq_nil_iff.mpr
  intro other mem gone
  have there : other ∈ e.after.inner.queued :=
    push.queue.mem_iff.mpr (mem_append_left _ mem)
  exact of_decide_eq_true gone (mem_map.mpr ⟨other, mem_append_left _ there, rfl⟩)

theorem QueueMove.settles (move : QueueMove e) (h : e.before.inner.Ordered) : Settles e := by
  cases move with
  | kept keep queue seq nothing unfilled why counts =>
    have left : (e.after.inner.queued ++ e.answer.records).Perm (e.before.inner.queued.filter keep) := by
      rw [nothing, append_nil, queue]
    have gone := discardedBy_of_kept h left
    have none_new := acceptedBy_of_kept h (fun rec mem =>
      (mem_filter.mp (queue ▸ mem)).1)
    refine ⟨.inl ⟨none_new, seq⟩, ?_, ?_, ?_⟩
    · rw [none_new, append_nil, gone]
      exact (filter_append_perm keep _).symm.trans (left.symm.append_right _)
    · rw [filledBy, unfilled, gone]
      exact counts
    · intro rec mem
      rw [gone] at mem
      obtain ⟨queued, rejected⟩ := mem_filter.mp mem
      exact why rec queued (by simpa using rejected)
  | pushed rec push nothing counts =>
    have new := acceptedBy_of_push h push
    have gone := discardedBy_of_push push
    refine ⟨.inr ⟨rec, new, push.number, push.seq⟩, ?_, ?_, ?_⟩
    · rw [new, gone, nothing, append_nil, append_nil]
      exact push.queue.symm
    · rw [gone]
      exact counts.perm (List.Perm.of_eq (append_nil _))
    · intro other mem
      rw [gone] at mem
      exact absurd mem not_mem_nil
  | drained isDeliverable want input queue seq out unfilled counts =>
    have eq := e.before.inner.merged_perm.filter (Inner.passes isDeliverable want e.before.inner)
    have left : (e.after.inner.queued ++ e.answer.records).Perm
        (e.before.inner.queued.filter (Inner.passes isDeliverable want e.before.inner)) := by
      rw [queue, nil_append, out]
      exact eq
    have gone := discardedBy_of_kept h left
    have none_new := acceptedBy_of_kept h (fun rec mem => by
      rw [queue] at mem
      exact absurd mem not_mem_nil)
    refine ⟨.inl ⟨none_new, seq⟩, ?_, ?_, ?_⟩
    · rw [none_new, append_nil, gone]
      exact (filter_append_perm _ _).symm.trans (left.symm.append_right _)
    · rw [filledBy, unfilled, gone]
      refine counts.perm ?_
      exact (e.before.inner.merged_perm.symm.filter _).map _
    · intro rec mem
      rw [gone] at mem
      have rejected := (mem_filter.mp mem).2
      exact .inr ⟨isDeliverable, want, input, by simpa using rejected⟩

end

def accepted (past : List (Event K V)) : List (Landed K V) := past.flatMap acceptedBy

def discarded (past : List (Event K V)) : List (Landed K V) := past.flatMap discardedBy

/-- The addressees of the publications answered `Full`. -/
def filled (past : List (Event K V)) : List MachineId := past.flatMap filledBy

@[simp] theorem accepted_snoc (past : List (Event K V)) (e : Event K V) :
    accepted (past ++ [e]) = accepted past ++ acceptedBy e := by
  simp [accepted]

@[simp] theorem discarded_snoc (past : List (Event K V)) (e : Event K V) :
    discarded (past ++ [e]) = discarded past ++ discardedBy e := by
  simp [discarded]

@[simp] theorem filled_snoc (past : List (Event K V)) (e : Event K V) :
    filled (past ++ [e]) = filled past ++ filledBy e := by
  simp [filled]

/-- The books of a whole run, opened at `start`. -/
structure Account (start : Landing K V) (past : List (Event K V)) (l : Landing K V) : Prop where
  coherent : Coherent l
  ascending : KeyOrder.Ascending Landed.seq (accepted past)
  numbered : ∀ rec ∈ accepted past, rec.seq ≤ l.inner.seq
  places : (start.inner.queued ++ accepted past).Perm
    (l.inner.queued ++ delivered past ++ discarded past)
  counts : Inner.Counts (filled past ++ Inner.targets (discarded past)) start.inner l.inner
  why : ∀ e ∈ past, ∀ rec ∈ discardedBy e, Rejects e rec

namespace Account
variable {start l : Landing K V} {past : List (Event K V)}
variable {e : Event K V}

theorem places_step (a : Account start past l) (from_here : e.before = l) (settles : Settles e) :
    (start.inner.queued ++ (accepted past ++ acceptedBy e)).Perm
      (e.after.inner.queued ++ (delivered past ++ e.answer.records) ++ (discarded past ++ discardedBy e)) := by
  classical
  apply perm_iff_count.mpr
  intro rec
  have moved := settles.places.count_eq rec
  have before := a.places.count_eq rec
  rw [from_here] at moved
  simp only [count_append] at moved before ⊢
  omega

theorem counts_step (a : Account start past l) (from_here : e.before = l) (settles : Settles e) :
    Inner.Counts (filled past ++ filledBy e ++ Inner.targets (discarded past ++ discardedBy e))
      start.inner e.after.inner := by
  have moved := settles.counts
  rw [from_here] at moved
  refine (a.counts.trans moved).perm ?_
  apply perm_iff_count.mpr
  simp only [Inner.targets, map_append, count_append]
  omega

theorem step (a : Account start past l) (call : Call K V) :
    Account start (past ++ [Transducer.event Landing.step l call]) (l.step call).1 := by
  have settles := (Landing.event_queueMove a.coherent call).settles a.coherent.ordered
  generalize happened : Transducer.event Landing.step l call = e at settles
  have from_here : e.before = l := by rw [← happened]; rfl
  have arrived : e.after = (l.step call).1 := by rw [← happened]; rfl
  rw [← arrived]
  refine ⟨?_, ?_, ?_, ?_, ?_, ?_⟩
  · rw [arrived]
    exact l.step_coherent call a.coherent
  · rw [accepted_snoc]
    rcases settles.fresh with ⟨none_new, -⟩ | ⟨rec, new, number, -⟩
    · rw [none_new, append_nil]
      exact a.ascending
    · rw [new]
      apply a.ascending.snoc
      intro other mem
      rw [number, from_here]
      exact lt_succ_of_le (a.numbered other mem)
  · intro rec mem
    rw [accepted_snoc] at mem
    have known := a.numbered rec
    rw [← from_here] at known
    rcases settles.fresh with ⟨none_new, seq⟩ | ⟨newest, new, number, seq⟩
    · rw [none_new, append_nil] at mem
      rw [seq]
      exact known mem
    · rw [new] at mem
      rw [seq]
      rcases mem_append.mp mem with old | latest
      · exact le_succ_of_le (known old)
      · rw [mem_singleton.mp latest, number]
  · rw [accepted_snoc, delivered_append, delivered_singleton, discarded_snoc]
    exact a.places_step from_here settles
  · rw [filled_snoc, discarded_snoc]
    exact a.counts_step from_here settles
  · exact forall_mem_append.mpr ⟨a.why, forall_mem_singleton.mpr settles.why⟩

end Account

namespace Landing

theorem run_account {start : Landing K V} (h : Coherent start) (calls : List (Call K V)) :
    Account start (history step start calls) (Transducer.run step start calls) := by
  apply history_invariant step
  · exact fun past l call a => a.step call
  · refine ⟨h, List.Pairwise.nil, fun _ mem => absurd mem not_mem_nil, ?_,
      Inner.SameCounters.counts ⟨rfl, rfl⟩, fun _ mem => absurd mem not_mem_nil⟩
    simp [accepted, discarded]

theorem step_filled (l : Landing K V) (call : Call K V) (full : (l.step call).2.isFull = true) :
    ∃ addr, call.publication? = some addr := by
  cases call <;> first | exact ⟨_, rfl⟩ | cases full

end Landing

theorem filled_count (past : List (Event K V))
    (named : ∀ e ∈ past, e.answer.isFull = true → ∃ addr, e.input.publication? = some addr) :
    (filled past).length = past.countP (fun e => e.answer.isFull) ∧
    ∀ target, (filled past).count target = past.countP
      (fun e => e.answer.isFull ∧ e.input.publication?.map Addr.target = some target) := by
  induction past with
  | nil => exact ⟨rfl, fun _ => rfl⟩
  | cons e past ih =>
    obtain ⟨whole, each⟩ := ih (fun e mem => named e (mem_cons_of_mem _ mem))
    have first := named e mem_cons_self
    have cons : filled (e :: past) = filledBy e ++ filled past := flatMap_cons
    rw [cons]
    cases full : e.answer.isFull with
    | false =>
      have nobody : filledBy e = [] := by simp [filledBy, full]
      rw [nobody, nil_append]
      refine ⟨?_, fun target => ?_⟩
      · rw [countP_cons_of_neg (by simp [full])]
        exact whole
      · rw [countP_cons_of_neg (by simp [full])]
        exact each target
    | true =>
      obtain ⟨addr, publishes⟩ := first full
      have somebody : filledBy e = [addr.target] := by simp [filledBy, full, publishes]
      rw [somebody]
      refine ⟨?_, fun target => ?_⟩
      · rw [countP_cons_of_pos (by simp [full]), ← whole]
        rfl
      · rw [singleton_append, count_cons, each target, countP_cons]
        simp [full, publishes]

theorem Inner.Counts.exact {lost : List MachineId} {g g' : Inner K V} (h : Inner.Counts lost g g')
    (unlost : g.dropped = 0) (each : ∀ target, g.droppedOf target = 0) :
    g'.dropped.toNat = lost.length % 2 ^ 32 ∧
      ∀ target, (g'.droppedOf target).toNat = lost.count target % 2 ^ 32 := by
  refine ⟨?_, fun target => ?_⟩
  · have counted := h.dropped
    rw [unlost] at counted
    rw [← mod_eq_of_lt g'.dropped.toNat_lt, counted]
    simp
  · have counted := h.each target
    rw [each target] at counted
    rw [← mod_eq_of_lt (g'.droppedOf target).toNat_lt, counted]
    simp

namespace Landing

/-- Loss accounting of every run. An accepted record is queued, delivered or
discarded and never two of them, a discard has one of the source's reasons, and the
wrapping counters are exactly the `Full` answers and the discards, as a whole and
for each addressee. -/
theorem loss_accounting (cap : Nat) (inflightCap totalCap : UInt32) (calls : List (Call K V)) :
    let past := history step (withLimits cap inflightCap totalCap) calls
    let l := Transducer.run step (withLimits cap inflightCap totalCap) calls
    (accepted past).Perm (l.inner.queued ++ delivered past ++ discarded past) ∧
    ((accepted past).map Landed.seq).Nodup ∧
    (∀ rec ∈ accepted past,
      (rec ∈ l.inner.queued ∧ rec ∉ delivered past ∧ rec ∉ discarded past) ∨
      (rec ∉ l.inner.queued ∧ rec ∈ delivered past ∧ rec ∉ discarded past) ∨
      (rec ∉ l.inner.queued ∧ rec ∉ delivered past ∧ rec ∈ discarded past)) ∧
    (∀ e ∈ past, ∀ rec ∈ discardedBy e, Rejects e rec) ∧
    l.droppedCount.toNat =
      (past.countP (fun e => e.answer.isFull) + (discarded past).length) % 2 ^ 32 ∧
    (l.inner.droppedFor.keys.map (fun target => (l.droppedFor target).toNat)).sum % 2 ^ 32 =
      l.droppedCount.toNat ∧
    ∀ target, (l.droppedFor target).toNat =
      (past.countP (fun e => e.answer.isFull ∧ e.input.publication?.map Addr.target = some target) +
        (discarded past).countP (fun rec => rec.addr.target = target)) % 2 ^ 32 := by
  have a := run_account (K := K) (V := V) (Coherent.withLimits cap inflightCap totalCap) calls
  have named : ∀ e ∈ history step (withLimits cap inflightCap totalCap) calls,
      e.answer.isFull = true → ∃ addr, e.input.publication? = some addr := by
    intro e member full
    obtain ⟨past, later, whole⟩ := append_of_mem member
    obtain ⟨js, i, ks, -, -, rfl, -⟩ := history_split step whole
    exact step_filled _ i full
  obtain ⟨fulls, fullsFor⟩ := filled_count _ named
  intro past l
  have distinct : ((accepted past).map Landed.seq).Nodup := by
    rw [List.Nodup, pairwise_map]
    exact a.ascending.imp Nat.ne_of_lt
  have apart : ((l.inner.queued ++ delivered past) ++ discarded past).Nodup :=
    a.places.nodup_iff.mp distinct.of_map
  obtain ⟨shown, -, unshared⟩ := nodup_append.mp apart
  obtain ⟨-, -, undelivered⟩ := nodup_append.mp shown
  obtain ⟨whole, each⟩ := a.counts.exact rfl (fun _ => rfl)
  refine ⟨a.places, distinct, ?_, a.why, ?_, ?_, ?_⟩
  · intro rec member
    rcases mem_append.mp (a.places.mem_iff.mp member) with kept | gone
    · rcases mem_append.mp kept with queued | out
      · exact .inl ⟨queued, fun out => undelivered rec queued rec out rfl,
          fun gone => unshared rec kept rec gone rfl⟩
      · exact .inr (.inl ⟨fun queued => undelivered rec queued rec out rfl, out,
          fun gone => unshared rec kept rec gone rfl⟩)
    · exact .inr (.inr ⟨fun queued => unshared rec (mem_append_left _ queued) rec gone rfl,
        fun out => unshared rec (mem_append_right _ out) rec gone rfl, gone⟩)
  · rw [droppedCount, whole, length_append, fulls, Inner.targets, length_map]
  · have balanced : Inner.Balanced l.inner := a.counts.balanced rfl
    have sums : (l.inner.droppedFor.keys.map (fun target => (l.droppedFor target).toNat)).sum =
        Table.total UInt32.toNat l.inner.droppedFor := by
      congr 1
      apply map_congr_left
      intro target _
      rw [droppedFor]
      cases l.inner.droppedFor.lookup target <;> rfl
    rw [sums, balanced, mod_eq_of_lt l.inner.dropped.toNat_lt]
    rfl
  · intro target
    rw [show l.droppedFor target = l.inner.droppedOf target from rfl, each, count_append,
      fullsFor, Inner.targets, count_eq_countP, countP_map]
    rfl

end Landing

end PlxNative.Machine
