import PlxNative.Machine.LandingInvariant

/-! What one event does to one address. Every event of a coherent landing is one move
of each address's slot. -/
namespace PlxNative.Machine
open List Inner Call

variable {K V : Type*}

abbrev Event (K V : Type*) := Transducer.Event (Landing K V) (Call K V) (Answer K V)

/-- The concatenated outputs of the drains. -/
def delivered (past : List (Event K V)) : List (Landed K V) := past.flatMap (fun e => e.answer.records)

@[simp] theorem delivered_nil : delivered ([] : List (Event K V)) = [] := rfl

@[simp] theorem delivered_append (past later : List (Event K V)) :
    delivered (past ++ later) = delivered past ++ delivered later := flatMap_append

@[simp] theorem delivered_singleton (e : Event K V) : delivered [e] = e.answer.records :=
  append_nil _

/-- A successful admission of `addr`, in either mode. -/
def Admits (addr : Addr) (e : Event K V) : Prop :=
  e.input.admission?.map Prod.fst = some addr ∧ e.answer.isAdmitted = true

instance (addr : Addr) (e : Event K V) : Decidable (Admits addr e) :=
  inferInstanceAs (Decidable (_ ∧ _))

/-- A cancel or clear that found `addr` reserved. -/
def Cuts (addr : Addr) (e : Event K V) : Prop :=
  e.input.cancels addr = true ∧ e.before.inner.reservation addr ≠ none

/-- A worker's call that ended the running operation of `addr`: any completion, or
the progress call that overflowed. -/
def Completes (addr : Addr) (e : Event K V) : Prop :=
  e.input.publication? = some addr ∧
    (∃ cancelled stream, e.before.inner.reservation addr = some (.running cancelled stream)) ∧
    (e.input.isProgress = true → e.answer.isFull = true)

/-- What one event does to the slot of `addr`. -/
inductive SlotMove (addr : Addr) (e : Event K V) : Prop
  | still (kept : e.after.inner.reservation addr = e.before.inner.reservation addr)
      (records : e.after.inner.recordsOf addr = e.before.inner.recordsOf addr)
      (nothing : e.answer.records = [])
      (unadmitted : ¬ Admits addr e) (uncompleted : ¬ Completes addr e) (uncut : ¬ Cuts addr e)
      (untaken : e.input.isTake = false)
      (unfilled : e.input.publication? = some addr → e.answer.isFull = false)
  | entered (stream : Bool) (admits : Admits addr e)
      (free : e.before.inner.reservation addr = none)
      (opened : e.after.inner.reservation addr = some (.running false stream))
      (records : e.after.inner.recordsOf addr = []) (nothing : e.answer.records = [])
  | progressed (k : K) (v : V) (input : e.input = .progress addr k v)
      (live : e.before.inner.reservation addr = some (.running false true))
      (kept : e.after.inner.reservation addr = e.before.inner.reservation addr)
      (records : e.after.inner.recordsOf addr = e.before.inner.recordsOf addr ++
        [⟨e.before.inner.seq + 1, addr, .data k v, false⟩])
      (answered : e.answer = .published (.ok ()))
  | closed (cancelled stream : Bool) (lane : Lane K V) (completes : Completes addr e)
      (live : e.before.inner.reservation addr = some (.running cancelled stream))
      (ceased : e.after.inner.reservation addr = some (.terminal cancelled))
      (records : e.after.inner.recordsOf addr = e.before.inner.recordsOf addr ++
        [⟨e.before.inner.seq + 1, addr, lane, true⟩])
      (lost : e.answer.isFull = true → lane = .dropped addr.req)
      (nothing : e.answer.records = []) (quiet : e.answer.isFull = true → cancelled = false)
  | cut (cuts : Cuts addr e)
      (left : e.after.inner.reservation addr =
        Reservation.afterCancel (e.before.inner.reservation addr))
      (records : e.after.inner.recordsOf addr = []) (nothing : e.answer.records = [])
  | drained (isDeliverable : Addr → Bool) (want : K → Bool)
      (input : e.input = .takeFor isDeliverable want)
      (left : e.after.inner.reservation addr =
        Reservation.afterDrain (e.before.inner.reservation addr))
      (records : e.after.inner.recordsOf addr = [])
      (out : e.answer.records.filter (fun rec => rec.addr = addr) =
        (e.before.inner.recordsOf addr).filter
          (passes isDeliverable want e.before.inner))

namespace Landing

theorem event_slotMove {l : Landing K V} (h : Coherent l) (call : Call K V) (addr : Addr) :
    SlotMove addr (Transducer.event step l call) := by
  have effect := l.step_effect call
  have inner := l.step_inner call
  unfold Transducer.event
  rw [inner]
  generalize (l.step call).1.inner = g at effect ⊢
  generalize (l.step call).2 = answer at effect ⊢
  -- an effect on another address leaves this slot still
  have elsewhere : ∀ {other : Addr}, other ≠ addr →
      call.admission?.map Prod.fst = some other ∨ call.publication? = some other →
      g.reservation addr = l.inner.reservation addr →
      g.recordsOf addr = l.inner.recordsOf addr → answer.records = [] →
      SlotMove addr (⟨l, call, answer, { l with inner := g }⟩ : Event K V) := by
    intro other apart about kept records nothing
    have unpublished : call.publication? ≠ some addr := by
      intro here
      rcases about with there | there
      · cases call <;> simp_all [admission?, publication?]
      · exact apart (Option.some.inj (there.symm.trans here))
    refine .still kept records nothing ?_ (fun completes => unpublished completes.1) ?_ ?_
      (fun here => absurd here unpublished)
    · rintro ⟨here, -⟩
      rcases about with there | there
      · exact apart (Option.some.inj (there.symm.trans here))
      · cases call <;> simp_all [admission?, publication?]
    · rintro ⟨here, -⟩
      cases call <;> simp_all [admission?, publication?, Call.cancels]
    · cases call <;> simp_all [admission?, publication?, isTake]
  cases effect with
  | idle unfilled unadmitted nothing ceased absent untaken =>
    refine .still rfl rfl nothing ?_ ?_ ?_ untaken (fun _ => unfilled)
    · rintro ⟨-, admitted⟩
      rw [unadmitted] at admitted
      cases admitted
    · rintro ⟨publishes, ⟨cancelled, stream, live⟩, overflow⟩
      rcases ceased addr publishes with progress | settled
      · rw [overflow progress] at unfilled
        cases unfilled
      · exact settled cancelled stream live
    · rintro ⟨cancels, held⟩
      exact held (absent addr cancels)
  | @admitted _ other stream about free total each =>
    have inserted := reservation_insert l.inner other (.running false stream) addr
    by_cases here : other = addr
    · subst here
      rw [if_pos rfl] at inserted
      have slot := h.slot other
      rw [free] at slot
      exact .entered stream ⟨by rw [about]; rfl, rfl⟩ free inserted slot.eq_nil rfl
    · rw [if_neg (fun eq => here eq.symm)] at inserted
      exact elsewhere here (.inl (by rw [about]; rfl)) inserted rfl rfl
  | @progressed other k v live room =>
    have records := (l.inner.progressWith_pushes other k v).recordsOf h.ordered addr
    by_cases here : other = addr
    · subst here
      rw [if_pos rfl] at records
      exact .progressed k v rfl live rfl records rfl
    · rw [if_neg here, append_nil] at records
      exact elsewhere here (.inr rfl) rfl records rfl
  | @completed _ other cancelled stream lane toData full _ about live room quiet lost overflow
      answered unadmitted nothing =>
      have eq : Inner.SameQueues l.inner
          (if full then l.inner.countDrop other.target else l.inner) := by
        cases full <;> exact ⟨rfl, rfl, rfl, rfl⟩
      have records := (closeWith_pushes eq other cancelled lane toData).recordsOf h.ordered addr
      have ceased := closeWith_reservation eq other cancelled lane toData addr
      by_cases here : other = addr
      · subst here
        rw [if_pos rfl] at records ceased
        refine .closed cancelled stream lane ⟨about, ⟨cancelled, stream, live⟩, ?_⟩ live ceased records
          (fun filled => lost (answered.symm.trans filled)) nothing ?_
        · intro progress
          exact answered.trans (overflow progress)
        · intro filled
          cases cancelled with
          | false => rfl
          | true =>
            have unfilled : answer.isFull = false := answered.trans (quiet rfl).1
            exact absurd (unfilled.symm.trans filled) Bool.false_ne_true
      · rw [if_neg here, append_nil] at records
        rw [if_neg (show ¬ addr = other from fun there => here there.symm)] at ceased
        exact elsewhere here (.inr about) ceased records nothing
  | @cancelled other state held =>
    have cut := cancelLocked_held held
    have records := cut.recordsOf h.ordered addr
    have left := cut.reservation addr
    by_cases here : addr = other
    · subst here
      rw [if_pos (mem_singleton.mpr rfl)] at records left
      refine .cut ⟨decide_eq_true rfl, ?_⟩ left records rfl
      rw [held]
      exact Option.some_ne_none state
    · rw [if_neg (fun there => here (mem_singleton.mp there))] at records left
      refine .still left records rfl ?_ ?_ ?_ rfl (fun publishes => by cases publishes)
      · rintro ⟨admits, -⟩
        cases admits
      · rintro ⟨publishes, -⟩
        cases publishes
      · rintro ⟨cancels, -⟩
        exact here (of_decide_eq_true cancels).symm
  | cleared =>
    have cut := clear_cancels h.housed
    have records := cut.recordsOf h.ordered addr
    have left := cut.reservation addr
    by_cases here : addr ∈ l.inner.reserved
    · rw [if_pos here] at records left
      exact .cut ⟨rfl, mem_reserved.mp here⟩ left records rfl
    · rw [if_neg here] at records left
      refine .still left records rfl ?_ ?_ ?_ rfl (fun publishes => by cases publishes)
      · rintro ⟨admits, -⟩
        cases admits
      · rintro ⟨publishes, -⟩
        cases publishes
      · rintro ⟨-, held⟩
        exact here (mem_reserved.mpr held)
  | taken isDeliverable want =>
    refine .drained isDeliverable want rfl (h.takeFor_reservation isDeliverable want addr) ?_ ?_
    · rw [recordsOf, takeFor_merged]
      rfl
    · change (l.inner.takeFor isDeliverable want).2.filter _ = _
      rw [h.takeFor_taken, recordsOf, filter_filter, filter_filter]
      apply filter_congr
      intro rec _
      exact Bool.and_comm _ _

theorem step_frame (l : Landing K V) {call : Call K V} {a b : Addr}
    (about : call.publication? = some a ∨ call = .cancel a) (apart : b ≠ a) :
    (l.step call).1.inner.reservation b = l.inner.reservation b ∧
      (l.step call).1.inner.data.filter (fun rec => rec.addr = b) =
        l.inner.data.filter (fun rec => rec.addr = b) ∧
      (l.step call).1.inner.control.filter (fun rec => rec.addr = b) =
        l.inner.control.filter (fun rec => rec.addr = b) := by
  have effect := l.step_effect call
  generalize (l.step call).1.inner = g at effect ⊢
  generalize (l.step call).2 = answer at effect
  cases effect with
  | idle => exact ⟨rfl, rfl, rfl⟩
  | @admitted _ other stream admission =>
    cases call <;> simp_all [publication?, admission?]
  | @progressed other k v live room =>
    have eq : other = a := by simpa [publication?] using about
    subst eq
    have absent : [(⟨l.inner.seq + 1, other, .data k v, false⟩ : Landed K V)].filter
        (fun rec => rec.addr = b) = [] := by simp [Ne.symm apart]
    exact ⟨rfl, by simp only [progressWith, filter_append, absent, append_nil], rfl⟩
  | @completed _ other cancelled stream lane toData full _ publishes live =>
    have eq : other = a := by
      rcases about with there | there
      · exact Option.some.inj (publishes.symm.trans there)
      · rw [there] at publishes
        cases publishes
    subst eq
    have queues : Inner.SameQueues l.inner
        (if full then l.inner.countDrop other.target else l.inner) := by
      cases full <;> exact ⟨rfl, rfl, rfl, rfl⟩
    have kept := closeWith_reservation queues other cancelled lane toData b
    rw [if_neg apart] at kept
    refine ⟨kept, ?_, ?_⟩
    · simp only [closeWith, queues.data]
      split_ifs <;> simp [Ne.symm apart]
    · simp only [closeWith, queues.control]
      split_ifs <;> simp [Ne.symm apart]
  | @cancelled other state held =>
    have eq : other = a := by simpa [publication?] using about
    subst eq
    have cut := cancelLocked_held held
    have unnamed : b ∉ [other] := fun there => apart (mem_singleton.mp there)
    have untouched : ∀ recs : List (Landed K V),
        (recs.filter (fun rec => rec.addr ∉ [other])).filter (fun rec => rec.addr = b) =
          recs.filter (fun rec => rec.addr = b) := by
      intro recs
      rw [filter_filter]
      apply filter_congr
      intro rec _
      by_cases here : rec.addr = b
      · simp [here, apart]
      · simp [here]
    refine ⟨?_, ?_, ?_⟩
    · rw [cut.reservation, if_neg unnamed]
    · rw [cut.data, untouched]
    · rw [cut.control, untouched]
  | cleared => simp [publication?] at about
  | taken => simp [publication?] at about

end Landing

end PlxNative.Machine
