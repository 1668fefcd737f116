import PlxNative.Machine.Landing

/-! What one call does. The two lanes are read as one queue in arrival order, and
every call is inverted into the single effect it has on that queue, on the
reservations and on the counters. -/
namespace PlxNative.Machine
open List KeyOrder

variable {K V : Type*}

theorem Addr.key_injective : Function.Injective Addr.key := by
  rintro ⟨t, ⟨r⟩⟩ ⟨t', ⟨r'⟩⟩ eq
  cases eq
  rfl

def Answer.isFull : Answer K V → Bool
  | .published (.error .full) => true
  | _ => false

def Answer.isAdmitted : Answer K V → Bool
  | .admission (.ok _) => true
  | _ => false

def Answer.records : Answer K V → List (Landed K V)
  | .taken out => out
  | _ => []

/-- The address and mode of an admission call. -/
def Call.admission? : Call K V → Option (Addr × Bool)
  | .admitOneShot addr => some (addr, false)
  | .admitStream addr => some (addr, true)
  | _ => none

/-- The address of a call that can end its operation. -/
def Call.publication? : Call K V → Option Addr
  | .put addr _ _ | .progress addr _ _ | .dropped addr | .refused addr | .guardDrop addr => some addr
  | _ => none

def Call.isProgress : Call K V → Bool
  | .progress _ _ _ => true
  | _ => false

/-- Does this call cancel whatever `addr` has out? -/
def Call.cancels : Call K V → Addr → Bool
  | .cancel addr, b => decide (addr = b)
  | .clear, _ => true
  | _, _ => false

def Call.isTake : Call K V → Bool
  | .takeFor _ _ => true
  | _ => false

namespace Inner

def queued (g : Inner K V) : List (Landed K V) := g.data ++ g.control

def reservation (g : Inner K V) (addr : Addr) : Option Reservation := g.inflight.lookup addr.key

/-- The queued records of one address, in arrival order. -/
def recordsOf (g : Inner K V) (addr : Addr) : List (Landed K V) :=
  g.merged.filter (fun rec => rec.addr = addr)

theorem merged_perm (g : Inner K V) : g.merged.Perm g.queued := sortByKey_perm _ _

variable {rec : Landed K V}
variable {g : Inner K V} {addr : Addr}

@[simp] theorem mem_merged : rec ∈ g.merged ↔ rec ∈ g.queued :=
  g.merged_perm.mem_iff

theorem mem_recordsOf : rec ∈ g.recordsOf addr ↔ rec ∈ g.queued ∧ rec.addr = addr := by
  simp [recordsOf]

theorem reservation_eq_none : g.reservation addr = none ↔ addr.key ∉ g.inflight := AList.lookup_eq_none

theorem reservation_insert (g : Inner K V) (addr : Addr) (state : Reservation) (b : Addr) :
    (g.inflight.insert addr.key state).lookup b.key =
      if b = addr then some state else g.reservation b := by
  by_cases eq : b = addr
  · subst eq
    rw [if_pos rfl, AList.lookup_insert]
  · rw [if_neg eq, AList.lookup_insert_ne (fun h => eq (Addr.key_injective h))]
    rfl

theorem reservation_erase (g : Inner K V) (addr b : Addr) :
    (g.inflight.erase addr.key).lookup b.key = if b = addr then none else g.reservation b := by
  by_cases eq : b = addr
  · subst eq
    rw [if_pos rfl, AList.lookup_erase]
  · rw [if_neg eq, AList.lookup_erase_ne (fun h => eq (Addr.key_injective h))]
    rfl

/-- The arrival order is strict and every number handed out is at most the counter. -/
structure Ordered (g : Inner K V) : Prop where
  ascending : KeyOrder.Ascending Landed.seq g.merged
  numbered : ∀ rec ∈ g.queued, rec.seq ≤ g.seq

/-- One more record with the next number, in either lane. -/
structure Pushes (rec : Landed K V) (g g' : Inner K V) : Prop where
  number : rec.seq = g.seq + 1
  seq : g'.seq = g.seq + 1
  queue : g'.queued.Perm (g.queued ++ [rec])

variable {g' : Inner K V}

theorem Pushes.merged (push : Pushes rec g g') (h : Ordered g) : g'.merged = g.merged ++ [rec] := by
  apply sortByKey_of_perm
  · exact push.queue.trans (g.merged_perm.symm.append_right [rec])
  · apply h.ascending.snoc
    intro b mem
    rw [push.number]
    exact Nat.lt_succ_of_le (h.numbered b (mem_merged.mp mem))

theorem Pushes.ordered (push : Pushes rec g g') (h : Ordered g) : Ordered g' := by
  constructor
  · rw [push.merged h]
    apply h.ascending.snoc
    intro b mem
    rw [push.number]
    exact Nat.lt_succ_of_le (h.numbered b (mem_merged.mp mem))
  · intro b mem
    rw [push.seq]
    rcases mem_append.mp (push.queue.mem_iff.mp mem) with old | new
    · exact Nat.le_succ_of_le (h.numbered b old)
    · rw [mem_singleton.mp new, push.number]

theorem Pushes.recordsOf (push : Pushes rec g g') (h : Ordered g) (b : Addr) :
    g'.recordsOf b = g.recordsOf b ++ if rec.addr = b then [rec] else [] := by
  unfold Inner.recordsOf
  rw [push.merged h, filter_append]
  by_cases eq : rec.addr = b
  · rw [if_pos eq, filter_cons_of_pos (by simpa using eq), filter_nil]
  · rw [if_neg eq, filter_cons_of_neg (by simpa using eq), filter_nil]

theorem merged_filter (h : Ordered g) (p : Landed K V → Bool) :
    sortByKey Landed.seq (g.data.filter p ++ g.control.filter p) = g.merged.filter p := by
  apply sortByKey_of_perm _ (h.ascending.filter p)
  rw [← filter_append]
  exact g.merged_perm.symm.filter p

/-! The counters move alone. -/

structure SameQueues (g g' : Inner K V) : Prop where
  data : g'.data = g.data
  control : g'.control = g.control
  seq : g'.seq = g.seq
  inflight : g'.inflight = g.inflight

theorem countDrops_sameQueues (g : Inner K V) (t : MachineId) (n : Nat) :
    SameQueues g ((fun g => countDrop g t)^[n] g) := by
  induction n generalizing g with
  | zero => exact ⟨rfl, rfl, rfl, rfl⟩
  | succ n ih =>
    have h := ih (g.countDrop t)
    exact ⟨h.data, h.control, h.seq, h.inflight⟩

/-- Queue the reserved terminal of `addr`, in either lane. -/
def closeWith (g : Inner K V) (addr : Addr) (cancelled : Bool) (lane : Lane K V) (toData : Bool) :
    Inner K V :=
  let record : Landed K V := ⟨g.seq + 1, addr, lane, true⟩
  { g with
    inflight := g.inflight.insert addr.key (.terminal cancelled)
    seq := g.seq + 1
    data := if toData then g.data ++ [record] else g.data
    control := if toData then g.control else g.control ++ [record] }

variable {g₀ : Inner K V}

theorem closeWith_reservation (eq : SameQueues g₀ g) (addr : Addr)
    (cancelled : Bool) (lane : Lane K V) (toData : Bool) (b : Addr) :
    (g.closeWith addr cancelled lane toData).reservation b =
      if b = addr then some (.terminal cancelled) else g₀.reservation b := by
  rw [← reservation_insert g₀ addr (.terminal cancelled) b, ← eq.inflight]
  rfl

theorem closeWith_pushes (eq : SameQueues g₀ g) (addr : Addr)
    (cancelled : Bool) (lane : Lane K V) (toData : Bool) :
    Pushes ⟨g₀.seq + 1, addr, lane, true⟩ g₀ (g.closeWith addr cancelled lane toData) := by
  refine ⟨rfl, ?_, ?_⟩
  · simp only [closeWith, eq.seq]
  · simp only [queued, closeWith, eq.seq, eq.data, eq.control]
    cases toData
    · simp
    · simp only [if_true, append_assoc]
      exact perm_append_comm.append_left _

/-- Queue one progress record of a live stream. -/
def progressWith (g : Inner K V) (addr : Addr) (k : K) (v : V) : Inner K V :=
  { g with
    seq := g.seq + 1
    data := g.data ++ [⟨g.seq + 1, addr, .data k v, false⟩] }

theorem progressWith_pushes (g : Inner K V) (addr : Addr) (k : K) (v : V) :
    Pushes ⟨g.seq + 1, addr, .data k v, false⟩ g (g.progressWith addr k v) := by
  refine ⟨rfl, rfl, ?_⟩
  simp only [queued, progressWith, append_assoc]
  exact perm_append_comm.append_left _

end Inner

/-- The one effect of a call, with the guard under which the source reaches it. -/
inductive Effect (l : Landing K V) : Call K V → Inner K V → Answer K V → Prop
  | idle {call : Call K V} {answer : Answer K V} (unfilled : answer.isFull = false)
      (unadmitted : answer.isAdmitted = false) (nothing : answer.records = [])
      (ceased : ∀ addr, call.publication? = some addr → call.isProgress = true ∨
        ∀ cancelled stream, l.inner.reservation addr ≠ some (.running cancelled stream))
      (absent : ∀ addr, call.cancels addr = true → l.inner.reservation addr = none)
      (untaken : call.isTake = false) :
      Effect l call l.inner answer
  | admitted {call : Call K V} {addr : Addr} {stream : Bool}
      (about : call.admission? = some (addr, stream)) (free : l.inner.reservation addr = none)
      (total : l.inner.inflight.keys.length < l.totalCap.toNat)
      (each : l.inner.inflightOf addr.target < l.inflightCap.toNat) :
      Effect l call { l.inner with
        inflight := l.inner.inflight.insert addr.key (.running false stream) } (.admission (.ok ()))
  | progressed {addr : Addr} {k : K} {v : V}
      (live : l.inner.reservation addr = some (.running false true))
      (room : l.inner.data.length < l.cap) :
      Effect l (.progress addr k v) (l.inner.progressWith addr k v) (.published (.ok ()))
  | completed {call : Call K V} {addr : Addr} {cancelled stream : Bool} {lane : Lane K V}
      {toData full : Bool} {answer : Answer K V}
      (about : call.publication? = some addr)
      (live : l.inner.reservation addr = some (.running cancelled stream))
      (room : toData = true → l.inner.data.length < l.cap)
      (quiet : cancelled = true → full = false ∧ lane = .dropped addr.req)
      (lost : full = true → lane = .dropped addr.req)
      (overflow : call.isProgress = true → full = true)
      (answered : answer.isFull = full) (unadmitted : answer.isAdmitted = false)
      (nothing : answer.records = []) :
      Effect l call ((if full then l.inner.countDrop addr.target else l.inner).closeWith
        addr cancelled lane toData) answer
  | cancelled {addr : Addr} {state : Reservation} (held : l.inner.reservation addr = some state) :
      Effect l (.cancel addr) (l.inner.cancelLocked addr).1 (.cancelled true)
  | cleared : Effect l .clear l.inner.clear .cleared
  | taken (isDeliverable : Addr → Bool) (want : K → Bool) :
      Effect l (.takeFor isDeliverable want) (l.inner.takeFor isDeliverable want).1
        (.taken (l.inner.takeFor isDeliverable want).2)

namespace Inner

theorem completeLocked_running (cap : Nat) (g : Inner K V) (addr : Addr) (lane : Lane K V)
    (full : Bool) {cancelled stream : Bool} (live : g.reservation addr = some (.running cancelled stream))
    (test : full = (!cancelled && !stream && lane.isData && decide (cap ≤ g.data.length))) :
    g.completeLocked cap addr lane =
      ((if full then g.countDrop addr.target else g).closeWith addr cancelled
          (if full || cancelled then .dropped addr.req else lane)
          (!stream && (if full || cancelled then Lane.dropped addr.req else lane).isData),
        if full then .error .full else .ok ()) := by
  unfold reservation at live
  simp only [completeLocked, live, ← test, closeWith]
  split_ifs <;> rfl

theorem completeLocked_idle (cap : Nat) (g : Inner K V) (addr : Addr) (lane : Lane K V)
    (ceased : ∀ cancelled stream, g.reservation addr ≠ some (.running cancelled stream)) :
    ∃ e, e ≠ PublishError.full ∧ g.completeLocked cap addr lane = (g, .error e) := by
  unfold completeLocked
  cases h : g.inflight.lookup addr.key with
  | none => exact ⟨.unknown, by decide, rfl⟩
  | some state =>
    cases state with
    | terminal c => exact ⟨.alreadyTerminal, by decide, rfl⟩
    | running c s => exact absurd h (ceased c s)

end Inner

namespace Landing

section
variable (l : Landing K V)
include l

variable {call : Call K V} {addr : Addr}

theorem admitMode_effect {stream : Bool} (about : call.admission? = some (addr, stream)) :
    Effect l call (l.admitMode addr stream).1.inner (.admission (l.admitMode addr stream).2) := by
  have other : call.publication? = none ∧ (∀ b, call.cancels b = false) ∧ call.isTake = false := by
    cases call <;> first | exact ⟨rfl, fun _ => rfl, rfl⟩ | cases about
  have idle : ∀ e, Effect l call l.inner (.admission (.error e)) := by
    intro e
    refine .idle rfl rfl rfl ?_ ?_ other.2.2
    · intro b publishes
      rw [other.1] at publishes
      cases publishes
    · intro b cancels
      rw [other.2.1 b] at cancels
      cases cancels
  unfold admitMode
  split_ifs with duplicate capacity
  · exact idle _
  · exact idle _
  · have room := not_or.mp capacity
    exact .admitted about (Inner.reservation_eq_none.mpr duplicate)
      (Nat.lt_of_not_le room.1) (Nat.lt_of_not_le room.2)

theorem complete_effect {lane : Lane K V}
    {answer : Answer K V} (about : call.publication? = some addr) (whole : call.isProgress = false)
    (said : answer = .published (l.complete addr lane).2 ∨ answer = .released ∧ lane.isData = false) :
    Effect l call (l.complete addr lane).1.inner answer := by
  by_cases ceased : ∀ cancelled stream, l.inner.reservation addr ≠ some (.running cancelled stream)
  · obtain ⟨e, unfilled, eq⟩ := Inner.completeLocked_idle l.cap l.inner addr lane ceased
    have other : (∀ b, call.cancels b = false) ∧ call.isTake = false := by
      cases call <;> first | exact ⟨fun _ => rfl, rfl⟩ | cases about
    have idle : ∀ answer : Answer K V, answer.isFull = false → answer.isAdmitted = false →
        answer.records = [] → Effect l call l.inner answer := by
      intro answer unfilled unadmitted nothing
      refine .idle unfilled unadmitted nothing ?_ ?_ other.2
      · intro b publishes
        rw [about] at publishes
        cases publishes
        exact .inr ceased
      · intro b cancels
        rw [other.1 b] at cancels
        cases cancels
    simp only [complete, eq] at said ⊢
    rcases said with rfl | ⟨rfl, -⟩
    · cases e <;> first | exact absurd rfl unfilled | exact idle _ rfl rfl rfl
    · exact idle _ rfl rfl rfl
  · simp only [not_forall, not_not] at ceased
    obtain ⟨cancelled, stream, live⟩ := ceased
    obtain ⟨full, test⟩ : ∃ full, full =
        (!cancelled && !stream && lane.isData && decide (l.cap ≤ l.inner.data.length)) := ⟨_, rfl⟩
    simp only [complete, Inner.completeLocked_running l.cap l.inner addr lane full live test] at said ⊢
    refine .completed about live ?_ ?_ ?_ ?_ ?_ ?_ ?_
    · intro toData
      cases gone : full || cancelled with
      | true => simp [gone, Lane.isData] at toData
      | false =>
        obtain ⟨rfl, rfl⟩ := Bool.or_eq_false_iff.mp gone
        simp only [Bool.or_self, Bool.false_eq_true, if_false, Bool.and_eq_true] at toData
        simpa [toData.1, toData.2] using test
    · rintro rfl
      simpa using test
    · rintro rfl
      rfl
    · intro h
      rw [whole] at h
      cases h
    · rcases said with rfl | ⟨rfl, dataless⟩
      · cases full <;> rfl
      · simp [test, dataless, Answer.isFull]
    · rcases said with rfl | ⟨rfl, -⟩
      · cases full <;> rfl
      · rfl
    · rcases said with rfl | ⟨rfl, -⟩ <;> rfl

theorem progress_effect (addr : Addr) (k : K) (v : V) :
    Effect l (.progress addr k v) (l.progress addr k v).1.inner
      (.published (l.progress addr k v).2) := by
  have idle : ∀ e, e ≠ PublishError.full →
      Effect l (.progress addr k v) l.inner (.published (.error e)) := by
    intro e unfilled
    refine .idle ?_ rfl rfl (fun _ _ => .inl rfl) (fun _ cancels => by cases cancels) rfl
    cases e <;> first | exact absurd rfl unfilled | rfl
  unfold progress Inner.progress
  cases h : l.inner.inflight.lookup addr.key with
  | none => exact idle _ (by decide)
  | some state =>
    cases state with
    | terminal c => exact idle _ (by decide)
    | running cancelled stream =>
      cases stream with
      | false => exact idle _ (by decide)
      | true =>
        cases cancelled with
        | true => exact idle _ (by decide)
        | false =>
          have live : l.inner.reservation addr = some (.running false true) := h
          by_cases room : l.cap ≤ l.inner.data.length
          · have closing := Inner.completeLocked_running l.cap
              (l.inner.countDrop addr.target) addr (.dropped addr.req) false live rfl
            simp only [room, closing]
            exact .completed rfl live (by simp) (by simp) (fun _ => rfl) (fun _ => rfl)
              rfl rfl rfl
          · simp only [room]
            exact .progressed live (Nat.lt_of_not_le room)

theorem cancel_effect (addr : Addr) :
    Effect l (.cancel addr) (l.cancel addr).1.inner (.cancelled (l.cancel addr).2) := by
  cases h : l.inner.reservation addr with
  | none =>
    have eq : l.inner.cancelLocked addr = (l.inner, false) := by
      unfold Inner.reservation at h
      simp only [Inner.cancelLocked, h]
    simp only [cancel, eq]
    refine .idle rfl rfl rfl (fun _ publishes => by cases publishes) ?_ rfl
    intro b cancels
    rw [← show addr = b from of_decide_eq_true cancels]
    exact h
  | some state =>
    have found : (l.inner.cancelLocked addr).2 = true := by
      unfold Inner.reservation at h
      simp only [Inner.cancelLocked, h]
      cases state <;> rfl
    simp only [cancel, found]
    exact .cancelled h

theorem step_effect (call : Call K V) :
    Effect l call (l.step call).1.inner (l.step call).2 := by
  cases call with
  | admitOneShot addr => exact l.admitMode_effect rfl
  | admitStream addr => exact l.admitMode_effect rfl
  | put addr k v => exact l.complete_effect rfl rfl (.inl rfl)
  | progress addr k v => exact l.progress_effect addr k v
  | dropped addr => exact l.complete_effect rfl rfl (.inl rfl)
  | refused addr => exact l.complete_effect rfl rfl (.inl rfl)
  | guardDrop addr => exact l.complete_effect rfl rfl (.inr ⟨rfl, rfl⟩)
  | cancel addr => exact l.cancel_effect addr
  | clear => exact .cleared
  | takeFor isDeliverable want => exact .taken isDeliverable want

theorem step_limits (call : Call K V) :
    (l.step call).1.cap = l.cap ∧ (l.step call).1.inflightCap = l.inflightCap ∧
      (l.step call).1.totalCap = l.totalCap := by
  cases call <;> first
    | exact ⟨rfl, rfl, rfl⟩
    | (simp only [step, admitOneShot, admitStream, admitMode]; split_ifs <;> exact ⟨rfl, rfl, rfl⟩)

end

end Landing

end PlxNative.Machine
