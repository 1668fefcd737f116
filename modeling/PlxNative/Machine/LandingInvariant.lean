import PlxNative.Machine.LandingEffect

/-! The reservation invariant of a landing. One address is read as a slot: its
reservation against its queued records in arrival order. The invariant is kept
effect by effect, and the drain keeps it record by record. -/
namespace PlxNative.Machine
open List KeyOrder Reservation Table

variable {K V : Type*}

/-- What one address may hold: its reservation against its records in arrival order. -/
inductive SlotOk : Option Reservation → List (Landed K V) → Prop
  | free : SlotOk none []
  | running {stream : Bool} {progress : List (Landed K V)} :
      (∀ rec ∈ progress, rec.terminal = false) → SlotOk (some (.running false stream)) progress
  | cancelled {stream : Bool} : SlotOk (some (.running true stream)) []
  | closed {progress : List (Landed K V)} {last : Landed K V} :
      (∀ rec ∈ progress, rec.terminal = false) → last.terminal = true →
      SlotOk (some (.terminal false)) (progress ++ [last])
  | acknowledged {last : Landed K V} : last.terminal = true → SlotOk (some (.terminal true)) [last]

variable {r : Option Reservation}
variable {rec : Landed K V} {rest : List (Landed K V)}

theorem SlotOk.tail (h : SlotOk r (rec :: rest)) : SlotOk (if rec.terminal then none else r) rest := by
  generalize whole : rec :: rest = recs at h
  cases h with
  | free => cases whole
  | cancelled => cases whole
  | running open_ =>
    subst whole
    rw [open_ rec mem_cons_self, if_neg Bool.false_ne_true]
    exact .running (fun other mem => open_ other (mem_cons_of_mem rec mem))
  | @closed progress last open_ done =>
    cases progress with
    | nil =>
      cases whole
      rw [if_pos done]
      exact .free
    | cons first progress =>
      cases whole
      rw [open_ rec mem_cons_self, if_neg Bool.false_ne_true]
      exact .closed (fun other mem => open_ other (mem_cons_of_mem rec mem)) done
  | acknowledged done =>
    cases whole
    rw [if_pos done]
    exact .free

theorem SlotOk.terminal_head (h : SlotOk r (rec :: rest)) (done : rec.terminal = true) :
    rest = [] ∧ ∃ cancelled, r = some (.terminal cancelled) := by
  generalize whole : rec :: rest = recs at h
  cases h with
  | free => cases whole
  | cancelled => cases whole
  | running open_ =>
    subst whole
    rw [open_ rec mem_cons_self] at done
    cases done
  | @closed progress last open_ last_done =>
    cases progress with
    | nil => cases whole; exact ⟨rfl, false, rfl⟩
    | cons first progress =>
      cases whole
      rw [open_ rec mem_cons_self] at done
      cases done
  | acknowledged last_done => cases whole; exact ⟨rfl, true, rfl⟩

/-- The reservation left when every queued record of the address is consumed. -/
def Reservation.afterDrain : Option Reservation → Option Reservation
  | some (.terminal _) => none
  | r => r

/-- The reservation left by a cancellation. -/
def Reservation.afterCancel : Option Reservation → Option Reservation
  | some (.running _ stream) => some (.running true stream)
  | _ => none

theorem SlotOk.drained (h : SlotOk (K := K) (V := V) r []) :
    afterDrain r = r := by
  generalize none_left : ([] : List (Landed K V)) = recs at h
  cases h with
  | free | running | cancelled => rfl
  | closed => simp at none_left
  | acknowledged => cases none_left

variable {recs : List (Landed K V)}

theorem SlotOk.afterDrain (h : SlotOk r recs) :
    SlotOk (K := K) (V := V) (afterDrain r) [] := by
  cases h with
  | free => exact .free
  | running open_ => exact .running (fun _ mem => absurd mem not_mem_nil)
  | cancelled => exact .cancelled
  | closed => exact .free
  | acknowledged => exact .free

theorem SlotOk.afterCancel :
    SlotOk (K := K) (V := V) (afterCancel r) [] := by
  rcases r with _ | ⟨cancelled, stream⟩ | cancelled
  · exact .free
  · exact .cancelled
  · exact .free

namespace Inner

/-- The drain's verdict on a record, from the reservations it starts with. -/
def passes (isDeliverable : Addr → Bool) (want : K → Bool) (g : Inner K V) (rec : Landed K V) : Bool :=
  !((g.reservation rec.addr).map isCancelled).getD false &&
    isDeliverable rec.addr && rec.lane.wanted want

/-- Each address is a valid slot with respect to the records still to be drained. -/
def SlotsOf (g : Inner K V) (recs : List (Landed K V)) : Prop :=
  ∀ addr, SlotOk (g.reservation addr) (recs.filter (fun rec => rec.addr = addr))

/-- A change that touches neither the lanes nor the counter of arrivals, and may
only give reservations back. -/
structure Retires (g g' : Inner K V) : Prop where
  data : g'.data = g.data
  control : g'.control = g.control
  seq : g'.seq = g.seq
  keys : g'.inflight.keys.Subperm g.inflight.keys

section
variable (isDeliverable : Addr → Bool) (want : K → Bool)

theorem takeRecord_retires (g : Inner K V) (rec : Landed K V) :
    Retires g (takeRecord isDeliverable want g rec).1 := by
  have erased := keys_erase_subperm rec.addr.key g.inflight
  unfold takeRecord
  dsimp only
  split_ifs <;> first | exact ⟨rfl, rfl, rfl, erased⟩ | exact ⟨rfl, rfl, rfl, List.Subperm.refl _⟩

theorem takeRecord_reservation (g : Inner K V) (rec : Landed K V) (b : Addr) :
    (takeRecord isDeliverable want g rec).1.reservation b =
      if rec.terminal = true ∧ b = rec.addr then none else g.reservation b := by
  have erased := reservation_erase g rec.addr b
  cases done : rec.terminal with
  | false =>
    rw [if_neg (fun h => Bool.false_ne_true h.1)]
    simp only [takeRecord, done, Bool.false_eq_true, if_false]
    split_ifs <;> rfl
  | true =>
    simp only [true_and]
    rw [← erased]
    simp only [takeRecord]
    split_ifs <;> rfl

theorem takeRecord_taken (g : Inner K V) (rec : Landed K V) :
    (takeRecord isDeliverable want g rec).2 =
      if passes isDeliverable want g rec then some rec else none := by
  unfold takeRecord passes reservation
  cases ((g.inflight.lookup rec.addr.key).map isCancelled).getD false <;>
    cases isDeliverable rec.addr <;> cases rec.lane.wanted want <;> rfl

variable {g : Inner K V}
variable {rec : Landed K V} {rest : List (Landed K V)}

theorem takeRecord_slots
    (h : SlotsOf g (rec :: rest)) : SlotsOf (takeRecord isDeliverable want g rec).1 rest := by
  intro addr
  have slot := h addr
  rw [takeRecord_reservation]
  by_cases eq : rec.addr = addr
  · subst eq
    rw [filter_cons_of_pos (by simp)] at slot
    simpa using slot.tail
  · rw [filter_cons_of_neg (by simpa using eq)] at slot
    rw [if_neg (fun both => eq both.2.symm)]
    exact slot

/-- Later records see the reservations the drain started with: an address whose
terminal has been consumed has no later record. -/
theorem takeRecord_passes (h : SlotsOf g (rec :: rest)) {other : Landed K V} (mem : other ∈ rest) :
    passes isDeliverable want (takeRecord isDeliverable want g rec).1 other =
      passes isDeliverable want g other := by
  have kept : (takeRecord isDeliverable want g rec).1.reservation other.addr =
      g.reservation other.addr := by
    rw [takeRecord_reservation, if_neg]
    rintro ⟨done, eq⟩
    have slot := h rec.addr
    rw [filter_cons_of_pos (by simp)] at slot
    have absent := (slot.terminal_head done).1
    exact filter_eq_nil_iff.mp absent other mem (by simpa using eq)
  unfold passes
  rw [kept]

theorem drain_retires (recs : List (Landed K V)) (g : Inner K V) :
    Retires g (drain isDeliverable want recs g).1 := by
  induction recs generalizing g with
  | nil => exact ⟨rfl, rfl, rfl, List.Subperm.refl _⟩
  | cons rec rest ih =>
    have first := takeRecord_retires isDeliverable want g rec
    have later := ih (takeRecord isDeliverable want g rec).1
    exact ⟨later.data.trans first.data, later.control.trans first.control,
      later.seq.trans first.seq, later.keys.trans first.keys⟩

variable {recs : List (Landed K V)}

theorem drain_taken (h : SlotsOf g recs) :
    (drain isDeliverable want recs g).2 = recs.filter (passes isDeliverable want g) := by
  induction recs generalizing g with
  | nil => rfl
  | cons rec rest ih =>
    have tail := ih (takeRecord_slots isDeliverable want h)
    rw [filter_congr (fun other mem => takeRecord_passes isDeliverable want h mem)] at tail
    simp only [drain, tail, takeRecord_taken, filter_cons]
    split_ifs <;> rfl

theorem drain_reservation (h : SlotsOf g recs) (b : Addr) :
    (drain isDeliverable want recs g).1.reservation b = afterDrain (g.reservation b) := by
  induction recs generalizing g with
  | nil => exact (h b).drained.symm
  | cons rec rest ih =>
    have later := ih (takeRecord_slots isDeliverable want h)
    rw [takeRecord_reservation] at later
    refine later.trans ?_
    split_ifs with both
    · obtain ⟨done, rfl⟩ := both
      have slot := h rec.addr
      rw [filter_cons_of_pos (by simp)] at slot
      obtain ⟨-, cancelled, held⟩ := slot.terminal_head done
      rw [held]
      rfl
    · rfl

end

end Inner

namespace Inner

/-- The addresses in `addrs` are cancelled and nothing else moves. -/
structure Cancels (addrs : List Addr) (g g' : Inner K V) : Prop where
  data : g'.data = g.data.filter (fun rec => rec.addr ∉ addrs)
  control : g'.control = g.control.filter (fun rec => rec.addr ∉ addrs)
  seq : g'.seq = g.seq
  keys : g'.inflight.keys.Subperm g.inflight.keys
  reservation : ∀ b, g'.reservation b =
    if b ∈ addrs then afterCancel (g.reservation b) else g.reservation b

/-- No record is queued for an address without a reservation. -/
def Housed (g : Inner K V) : Prop := ∀ rec ∈ g.queued, g.reservation rec.addr ≠ none

variable {addrs : List Addr}

theorem Cancels.housed {g g' : Inner K V} (h : Cancels addrs g g')
    (housed : Housed g) : Housed g' := by
  intro rec mem
  have kept : rec ∈ g.queued ∧ rec.addr ∉ addrs := by
    simp only [queued, h.data, h.control, ← filter_append, mem_filter,
      decide_eq_true_eq] at mem
    exact mem
  rw [h.reservation, if_neg kept.2]
  exact housed rec kept.1

theorem filter_absent_append (recs : List (Landed K V)) (as bs : List Addr) :
    (recs.filter (fun rec => rec.addr ∉ as)).filter (fun rec => rec.addr ∉ bs) =
      recs.filter (fun rec => rec.addr ∉ as ++ bs) := by
  rw [filter_filter]
  apply filter_congr
  simp [Bool.and_comm]

theorem Cancels.trans {as bs : List Addr} {g g₁ g₂ : Inner K V} (h₁ : Cancels as g g₁)
    (h₂ : Cancels bs g₁ g₂) : Cancels (as ++ bs) g g₂ := by
  refine ⟨?_, ?_, h₂.seq.trans h₁.seq, h₂.keys.trans h₁.keys, ?_⟩
  · rw [h₂.data, h₁.data, filter_absent_append]
  · rw [h₂.control, h₁.control, filter_absent_append]
  · intro b
    rw [h₂.reservation, h₁.reservation]
    by_cases ha : b ∈ as <;> by_cases hb : b ∈ bs <;> simp [ha, hb]
    -- cancelling twice is cancelling once
    rcases g.reservation b with _ | ⟨cancelled, stream⟩ | cancelled <;> rfl

variable {g : Inner K V}
variable {addr : Addr}

theorem cancelLocked_held {state : Reservation}
    (held : g.reservation addr = some state) : Cancels [addr] g (g.cancelLocked addr).1 := by
  have present : addr.key ∈ g.inflight := by
    apply AList.lookup_isSome.mp
    unfold reservation at held
    rw [held]
    rfl
  have held' := held
  unfold reservation at held'
  simp only [cancelLocked, held']
  generalize counted : (fun g => countDrop g addr.target)^[_] _ = g₁
  have eq := countDrops_sameQueues { g with
    data := g.data.filter (fun rec => rec.addr ≠ addr)
    control := g.control.filter (fun rec => rec.addr ≠ addr) } addr.target
    (g.data.countP (fun rec => rec.addr = addr) + g.control.countP (fun rec => rec.addr = addr))
  rw [counted] at eq
  cases state with
  | terminal cancelled =>
    refine ⟨?_, ?_, eq.seq, ?_, ?_⟩
    · simpa using eq.data
    · simpa using eq.control
    · simpa only [eq.inflight] using keys_erase_subperm addr.key g.inflight
    · intro b
      have erased := reservation_erase g addr b
      simp only [Inner.reservation, eq.inflight, mem_singleton] at erased ⊢
      rw [erased]
      split_ifs with h
      · subst h
        rw [held']
        rfl
      · rfl
  | running cancelled stream =>
    refine ⟨?_, ?_, eq.seq, ?_, ?_⟩
    · simpa using eq.data
    · simpa using eq.control
    · simpa only [eq.inflight] using (keys_insert_perm _ present).subperm
    · intro b
      have inserted := reservation_insert g addr (.running true stream) b
      simp only [Inner.reservation, eq.inflight, mem_singleton] at inserted ⊢
      rw [inserted]
      split_ifs with h
      · subst h
        rw [held']
        rfl
      · rfl

theorem cancelLocked_cancels (housed : Housed g) (addr : Addr) :
    Cancels [addr] g (g.cancelLocked addr).1 := by
  cases h : g.reservation addr with
  | some state => exact cancelLocked_held h
  | none =>
    have eq : g.cancelLocked addr = (g, false) := by
      unfold reservation at h
      simp only [cancelLocked, h]
    have absent : ∀ rec ∈ g.queued, rec.addr ∉ [addr] := by
      intro rec mem there
      rw [mem_singleton] at there
      exact housed rec mem (there ▸ h)
    rw [eq]
    refine ⟨?_, ?_, rfl, List.Subperm.refl _, ?_⟩
    · exact (filter_eq_self.mpr (fun rec mem => decide_eq_true
        (absent rec (mem_append_left _ mem)))).symm
    · exact (filter_eq_self.mpr (fun rec mem => decide_eq_true
        (absent rec (mem_append_right _ mem)))).symm
    · intro b
      split_ifs with there
      · rw [mem_singleton.mp there, h]
        rfl
      · rfl

theorem foldl_cancelLocked (housed : Housed g) (addrs : List Addr) :
    Cancels addrs g (addrs.foldl (fun g addr => (cancelLocked g addr).1) g) := by
  induction addrs generalizing g with
  | nil => exact ⟨by simp, by simp, rfl, List.Subperm.refl _, fun b => by simp⟩
  | cons addr addrs ih =>
    have first := cancelLocked_cancels housed addr
    exact first.trans (ih (first.housed housed))

/-- The addresses `clear` walks: everything that holds a reservation. -/
def reserved (g : Inner K V) : List Addr := g.inflight.keys.map (fun key => ⟨key.1, ⟨key.2⟩⟩)

theorem mem_reserved : addr ∈ g.reserved ↔ g.reservation addr ≠ none := by
  have mapped : addr ∈ g.reserved ↔ addr.key ∈ g.inflight.keys := by
    simp only [reserved, mem_map]
    constructor
    · rintro ⟨⟨t, r⟩, mem, rfl⟩
      exact mem
    · intro mem
      exact ⟨addr.key, mem, rfl⟩
  rw [mapped, Ne, reservation_eq_none, not_not]
  exact AList.mem_keys.symm

theorem clear_cancels (housed : Housed g) : Cancels g.reserved g g.clear :=
  foldl_cancelLocked housed g.reserved

theorem Cancels.merged {g g' : Inner K V} (cut : Cancels addrs g g')
    (h : Ordered g) : g'.merged = g.merged.filter (fun rec => rec.addr ∉ addrs) := by
  unfold Inner.merged
  rw [cut.data, cut.control]
  exact merged_filter h _

theorem Cancels.recordsOf {g g' : Inner K V} (cut : Cancels addrs g g')
    (h : Ordered g) (b : Addr) :
    g'.recordsOf b = if b ∈ addrs then [] else g.recordsOf b := by
  rw [Inner.recordsOf, cut.merged h, filter_filter]
  split_ifs with gone
  · rw [filter_eq_nil_iff]
    intro rec _ both
    simp only [Bool.and_eq_true, decide_eq_true_eq] at both
    exact both.2 (both.1.symm ▸ gone)
  · apply filter_congr
    intro rec _
    by_cases here : rec.addr = b
    · simp [here, gone]
    · simp [here]

theorem takeFor_queued (isDeliverable : Addr → Bool) (want : K → Bool) (g : Inner K V) :
    (g.takeFor isDeliverable want).1.queued = [] := by
  have retires := drain_retires isDeliverable want g.merged { g with data := [], control := [] }
  unfold queued takeFor
  rw [retires.data, retires.control]
  rfl

theorem takeFor_merged (isDeliverable : Addr → Bool) (want : K → Bool) (g : Inner K V) :
    (g.takeFor isDeliverable want).1.merged = [] :=
  List.Perm.eq_nil (takeFor_queued isDeliverable want g ▸ merged_perm _)

end Inner

/-- The reservation invariant of a whole landing. -/
structure Coherent (l : Landing K V) : Prop where
  ordered : l.inner.Ordered
  slot : ∀ addr, SlotOk (l.inner.reservation addr) (l.inner.recordsOf addr)
  control_terminal : ∀ rec ∈ l.inner.control, rec.terminal = true
  total : l.inner.inflight.keys.length ≤ l.totalCap.toNat
  each : ∀ target, l.inner.inflightOf target ≤ l.inflightCap.toNat
  room : l.inner.data.length ≤ l.cap

theorem SlotOk.eq_nil (h : SlotOk none recs) : recs = [] := by
  cases h with
  | free => rfl

namespace Coherent

theorem withLimits (cap : Nat) (inflightCap totalCap : UInt32) :
    Coherent (Landing.withLimits cap inflightCap totalCap : Landing K V) :=
  ⟨⟨List.Pairwise.nil, fun _ mem => absurd mem not_mem_nil⟩, fun _ => .free,
    fun _ mem => absurd mem not_mem_nil, Nat.zero_le _, fun _ => Nat.zero_le _,
    Nat.zero_le _⟩

variable {l : Landing K V}

section
variable (h : Coherent l)
include h

theorem housed : l.inner.Housed := by
  intro rec mem free
  have slot := h.slot rec.addr
  rw [free] at slot
  have here : rec ∈ l.inner.recordsOf rec.addr := Inner.mem_recordsOf.mpr ⟨mem, rfl⟩
  rw [slot.eq_nil] at here
  exact not_mem_nil here

variable {g : Inner K V}

theorem bounds_of_subperm (keys : g.inflight.keys.Subperm l.inner.inflight.keys) :
    g.inflight.keys.length ≤ l.totalCap.toNat ∧
      ∀ target, g.inflightOf target ≤ l.inflightCap.toNat :=
  ⟨keys.length_le.trans h.total, fun target => (keys.filter _).length_le.trans (h.each target)⟩

variable {addr : Addr}

theorem admitted (stream : Bool) (free : l.inner.reservation addr = none)
    (total : l.inner.inflight.keys.length < l.totalCap.toNat)
    (each : l.inner.inflightOf addr.target < l.inflightCap.toNat) :
    Coherent { l with inner := { l.inner with
      inflight := l.inner.inflight.insert addr.key (.running false stream) } } := by
  have keys := keys_insert_fresh (Reservation.running false stream)
    (Inner.reservation_eq_none.mp free)
  refine ⟨⟨h.ordered.ascending, h.ordered.numbered⟩, ?_, h.control_terminal, ?_, ?_, h.room⟩
  · intro b
    have inserted := Inner.reservation_insert l.inner addr (.running false stream) b
    simp only [Inner.reservation] at inserted ⊢
    rw [inserted]
    split_ifs with eq
    · subst eq
      have slot := h.slot b
      rw [free] at slot
      have empty : l.inner.recordsOf b = [] := slot.eq_nil
      refine .running (fun rec mem => ?_)
      have here : rec ∈ l.inner.recordsOf b := mem
      rw [empty] at here
      exact absurd here not_mem_nil
    · exact h.slot b
  · rw [keys]
    exact total
  · intro target
    simp only [Inner.inflightOf, keys, filter_cons]
    split_ifs with eq
    · rw [← show addr.target = target from of_decide_eq_true eq]
      exact each
    · exact h.each target

theorem progressed {k : K} {v : V} (live : l.inner.reservation addr = some (.running false true))
    (room : l.inner.data.length < l.cap) :
    Coherent { l with inner := l.inner.progressWith addr k v } := by
  have push := l.inner.progressWith_pushes addr k v
  refine ⟨push.ordered h.ordered, ?_, h.control_terminal, h.total, h.each, ?_⟩
  · intro b
    rw [push.recordsOf h.ordered]
    have slot := h.slot b
    change SlotOk (l.inner.reservation b) _
    split_ifs with eq
    · subst eq
      rw [live] at slot ⊢
      cases slot with
      | running open_ =>
        refine .running (fun rec mem => ?_)
        rcases mem_append.mp mem with old | new
        · exact open_ rec old
        · rw [mem_singleton.mp new]
    · rw [append_nil]
      exact slot
  · change (l.inner.data ++ [_]).length ≤ l.cap
    rw [length_append]
    exact room

theorem closed (eq : Inner.SameQueues l.inner g) {cancelled stream toData : Bool} {lane : Lane K V}
    (live : l.inner.reservation addr = some (.running cancelled stream))
    (room : toData = true → l.inner.data.length < l.cap) :
    Coherent { l with inner := g.closeWith addr cancelled lane toData } := by
  have present : addr.key ∈ l.inner.inflight := by
    apply AList.lookup_isSome.mp
    rw [show l.inner.inflight.lookup addr.key = _ from live]
    rfl
  have push := Inner.closeWith_pushes eq addr cancelled lane toData
  have bounds := h.bounds_of_subperm (g := g.closeWith addr cancelled lane toData) (by
    simp only [Inner.closeWith, eq.inflight]
    exact (keys_insert_perm _ present).subperm)
  refine ⟨push.ordered h.ordered, ?_, ?_, bounds.1, bounds.2, ?_⟩
  · intro b
    have slot := h.slot b
    rw [push.recordsOf h.ordered, Inner.closeWith_reservation eq]
    by_cases here : addr = b
    · subst here
      rw [if_pos rfl, if_pos rfl]
      rw [live] at slot
      -- a cancelled operation has nothing else queued, so its acknowledgement stands alone
      generalize l.inner.recordsOf addr = recs at slot ⊢
      cases slot with
      | running open_ => exact .closed open_ rfl
      | cancelled => exact .acknowledged rfl
    · rw [if_neg here, if_neg (fun h => here h.symm), append_nil]
      exact slot
  · intro rec mem
    simp only [Inner.closeWith, eq.control] at mem
    split_ifs at mem with lane_
    · exact h.control_terminal rec mem
    · rcases mem_append.mp mem with old | new
      · exact h.control_terminal rec old
      · rw [mem_singleton.mp new]
  · simp only [Inner.closeWith, eq.data]
    split_ifs with lane_
    · rw [length_append]
      exact room lane_
    · exact h.room

theorem cancels {addrs : List Addr}
    (cut : Inner.Cancels addrs l.inner g) : Coherent { l with inner := g } := by
  have merged := cut.merged h.ordered
  have bounds := h.bounds_of_subperm cut.keys
  refine ⟨⟨?_, ?_⟩, ?_, ?_, bounds.1, bounds.2, ?_⟩
  · rw [merged]
    exact h.ordered.ascending.filter _
  · intro rec mem
    rw [show ({ l with inner := g } : Landing K V).inner.seq = l.inner.seq from cut.seq]
    rw [← Inner.mem_merged] at mem
    apply h.ordered.numbered
    rw [← Inner.mem_merged]
    exact (mem_filter.mp (merged ▸ mem)).1
  · intro b
    rw [cut.reservation, cut.recordsOf h.ordered]
    split_ifs with gone
    · exact .afterCancel
    · exact h.slot b
  · intro rec mem
    have kept : rec ∈ g.control := mem
    rw [cut.control] at kept
    exact h.control_terminal rec (mem_filter.mp kept).1
  · rw [cut.data]
    exact (length_filter_le _ _).trans h.room

theorem slotsOf :
    Inner.SlotsOf { l.inner with data := [], control := [] } l.inner.merged := h.slot

theorem takeFor_taken (isDeliverable : Addr → Bool) (want : K → Bool) :
    (l.inner.takeFor isDeliverable want).2 =
      l.inner.merged.filter (Inner.passes isDeliverable want l.inner) :=
  Inner.drain_taken isDeliverable want h.slotsOf

theorem takeFor_reservation (isDeliverable : Addr → Bool) (want : K → Bool)
    (b : Addr) : (l.inner.takeFor isDeliverable want).1.reservation b =
      afterDrain (l.inner.reservation b) :=
  Inner.drain_reservation isDeliverable want h.slotsOf b

theorem taken (isDeliverable : Addr → Bool) (want : K → Bool) :
    Coherent { l with inner := (l.inner.takeFor isDeliverable want).1 } := by
  have left := Inner.takeFor_queued isDeliverable want l.inner
  have merged := Inner.takeFor_merged isDeliverable want l.inner
  have bounds := h.bounds_of_subperm (Inner.drain_retires isDeliverable want l.inner.merged
    { l.inner with data := [], control := [] }).keys
  refine ⟨⟨?_, ?_⟩, ?_, ?_, bounds.1, bounds.2, ?_⟩
  · rw [merged]
    exact List.Pairwise.nil
  · intro rec mem
    rw [left] at mem
    exact absurd mem not_mem_nil
  · intro b
    rw [Inner.recordsOf, merged, h.takeFor_reservation]
    exact (h.slot b).afterDrain
  · intro rec mem
    have there : rec ∈ (l.inner.takeFor isDeliverable want).1.queued := mem_append_right _ mem
    rw [left] at there
    exact absurd there not_mem_nil
  · rw [(append_eq_nil_iff.mp left).1]
    exact Nat.zero_le _

end

end Coherent

namespace Landing

theorem step_inner (l : Landing K V) (call : Call K V) :
    (l.step call).1 = { l with inner := (l.step call).1.inner } := by
  obtain ⟨cap, inflightCap, totalCap⟩ := l.step_limits call
  rw [← cap, ← inflightCap, ← totalCap]

theorem step_coherent (l : Landing K V) (call : Call K V) (h : Coherent l) :
    Coherent (l.step call).1 := by
  rw [l.step_inner call]
  have effect := l.step_effect call
  generalize (l.step call).1.inner = g at effect ⊢
  generalize (l.step call).2 = answer at effect
  cases effect with
  | idle => exact h
  | admitted about free total each => exact h.admitted _ free total each
  | progressed live room => exact h.progressed live room
  | @completed _ addr cancelled stream lane toData full _ about live room =>
    refine h.closed ?_ live room
    cases full <;> exact ⟨rfl, rfl, rfl, rfl⟩
  | cancelled held => exact h.cancels (Inner.cancelLocked_held held)
  | cleared => exact h.cancels (Inner.clear_cancels h.housed)
  | taken isDeliverable want => exact h.taken isDeliverable want

theorem run_coherent (cap : Nat) (inflightCap totalCap : UInt32) (calls : List (Call K V)) :
    Coherent (Transducer.run step (withLimits cap inflightCap totalCap) calls) :=
  Transducer.run_invariant step step_coherent (Coherent.withLimits cap inflightCap totalCap) calls

end Landing

theorem SlotOk.countP_terminal
    (h : SlotOk r recs) :
    recs.countP (fun rec => rec.terminal) = if ∃ cancelled, r = some (.terminal cancelled) then 1 else 0 := by
  have none_open : ∀ progress : List (Landed K V), (∀ rec ∈ progress, rec.terminal = false) →
      progress.countP (fun rec => rec.terminal) = 0 := by
    intro progress open_
    apply countP_eq_zero.mpr
    intro rec mem
    rw [open_ rec mem]
    exact Bool.false_ne_true
  cases h with
  | free => simp
  | running open_ => simp [none_open _ open_]
  | cancelled => simp
  | closed open_ done => simp [none_open _ open_, done]
  | acknowledged done => simp [done]

namespace Coherent
variable {l : Landing K V}

theorem countP_terminal (h : Coherent l) (addr : Addr) :
    l.inner.queued.countP (fun rec => rec.addr = addr ∧ rec.terminal = true) =
      if ∃ cancelled, l.inner.reservation addr = some (.terminal cancelled) then 1 else 0 := by
  rw [← (h.slot addr).countP_terminal, ← l.inner.merged_perm.countP_eq, Inner.recordsOf,
    countP_filter]
  apply countP_congr
  simp [and_comm]

theorem running_records (h : Coherent l) {addr : Addr} {cancelled stream : Bool}
    (live : l.inner.reservation addr = some (.running cancelled stream))
    {rec : Landed K V} (mem : rec ∈ l.inner.queued) (here : rec.addr = addr) :
    cancelled = false ∧ rec.terminal = false := by
  have slot := h.slot addr
  have there : rec ∈ l.inner.recordsOf addr := Inner.mem_recordsOf.mpr ⟨mem, here⟩
  rw [live] at slot
  generalize l.inner.recordsOf addr = recs at slot there
  cases slot with
  | running open_ => exact ⟨rfl, open_ rec there⟩
  | cancelled => exact absurd there not_mem_nil

theorem control_le_reservations (h : Coherent l) :
    l.inner.control.length ≤ l.inner.inflight.keys.length := by
  have distinct : (l.inner.control.map Landed.addr).Nodup := by
    rw [nodup_iff_count_le_one]
    intro addr
    rw [count_eq_countP, countP_map]
    calc l.inner.control.countP ((fun a => a == addr) ∘ Landed.addr)
        ≤ l.inner.queued.countP (fun rec => rec.addr = addr ∧ rec.terminal = true) := by
          rw [Inner.queued, countP_append]
          refine le_trans (countP_mono_left ?_) (Nat.le_add_left _ _)
          intro rec mem eq
          simpa [h.control_terminal rec mem] using eq
      _ ≤ 1 := by
          rw [h.countP_terminal]
          split_ifs <;> decide
  have held : l.inner.control.map Landed.addr ⊆ l.inner.reserved := by
    intro addr mem
    obtain ⟨rec, queued, rfl⟩ := mem_map.mp mem
    exact Inner.mem_reserved.mpr (h.housed rec (mem_append_right _ queued))
  have bound := (subperm_of_subset distinct held).length_le
  simpa [Inner.reserved] using bound

end Coherent

namespace Landing

/-- The reservation invariant, over every run and every choice of limits. -/
theorem reservation_invariant (cap : Nat) (inflightCap totalCap : UInt32)
    (calls : List (Call K V)) :
    let g := (Transducer.run step (withLimits cap inflightCap totalCap) calls).inner
    (∀ rec ∈ g.data ++ g.control, g.reservation rec.addr ≠ none) ∧
    (∀ addr, (∃ cancelled, g.reservation addr = some (.terminal cancelled)) ↔
      (g.data ++ g.control).countP (fun rec => rec.addr = addr ∧ rec.terminal = true) = 1) ∧
    (∀ addr cancelled stream, g.reservation addr = some (.running cancelled stream) →
      ∀ rec ∈ g.data ++ g.control, rec.addr = addr → rec.terminal = false) ∧
    (∀ addr stream, g.reservation addr = some (.running true stream) →
      ∀ rec ∈ g.data ++ g.control, rec.addr ≠ addr) ∧
    g.inflight.keys.length ≤ totalCap.toNat ∧
    (∀ target, g.inflightOf target ≤ inflightCap.toNat) ∧
    g.data.length ≤ cap ∧
    g.control.length ≤ g.inflight.keys.length ∧
    (g.data ++ g.control).length ≤ cap + totalCap.toNat := by
  have limits : ∀ calls : List (Call K V), ∀ l : Landing K V,
      (Transducer.run step l calls).cap = l.cap ∧
      (Transducer.run step l calls).inflightCap = l.inflightCap ∧
      (Transducer.run step l calls).totalCap = l.totalCap := by
    intro calls l
    refine Transducer.run_invariant step (P := fun m => m.cap = l.cap ∧
      m.inflightCap = l.inflightCap ∧ m.totalCap = l.totalCap) ?_ ⟨rfl, rfl, rfl⟩ calls
    intro m call kept
    have same := m.step_limits call
    exact ⟨same.1.trans kept.1, same.2.1.trans kept.2.1, same.2.2.trans kept.2.2⟩
  have h := run_coherent cap inflightCap totalCap calls
  obtain ⟨hcap, heach, htotal⟩ := limits calls (withLimits cap inflightCap totalCap)
  generalize Transducer.run step (withLimits cap inflightCap totalCap) calls = l at *
  have total := h.total
  have room := h.room
  rw [htotal] at total
  rw [hcap] at room
  refine ⟨h.housed, ?_, ?_, ?_, total, ?_, room, h.control_le_reservations, ?_⟩
  · intro addr
    rw [show l.inner.data ++ l.inner.control = l.inner.queued from rfl, h.countP_terminal]
    split_ifs with held
    · exact ⟨fun _ => rfl, fun _ => held⟩
    · exact ⟨fun there => absurd there held, fun one => absurd one (by decide)⟩
  · intro addr cancelled stream live rec member here
    exact (h.running_records live member here).2
  · intro addr stream live rec member here
    cases (h.running_records live member here).1
  · intro target
    rw [show inflightCap = l.inflightCap from heach.symm]
    exact h.each target
  · rw [length_append]
    exact Nat.add_le_add room (h.control_le_reservations.trans total)

end Landing
end PlxNative.Machine
