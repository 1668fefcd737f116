import PlxNative.Machine.LandingAccount
import PlxNative.Machine.LandingDelivery

/-! Order and integrity of streams. What the drains hand over is in arrival order over
the whole run, and a stream that lost a progress record ends in `Dropped`. -/
namespace PlxNative.Machine
open List KeyOrder Inner Transducer

variable {K V : Type*}

/-- Everything handed over so far arrived before everything still queued. -/
structure Sequenced (past : List (Event K V)) (l : Landing K V) : Prop where
  ascending : KeyOrder.Ascending Landed.seq (delivered past)
  earlier : ∀ a ∈ delivered past, ∀ b ∈ l.inner.queued, a.seq < b.seq
  numbered : ∀ a ∈ delivered past, a.seq ≤ l.inner.seq

theorem QueueMove.sequenced {past : List (Event K V)} {e : Event K V} (move : QueueMove e)
    (h : e.before.inner.Ordered) (s : Sequenced past e.before) : Sequenced (past ++ [e]) e.after := by
  have quiet : e.answer.records = [] → delivered (past ++ [e]) = delivered past := by
    intro nothing
    rw [delivered_append, delivered_singleton, nothing, append_nil]
  cases move with
  | kept keep queue seq nothing =>
    refine ⟨?_, ?_, ?_⟩
    · rw [quiet nothing]
      exact s.ascending
    · intro a out b mem
      rw [quiet nothing] at out
      rw [queue] at mem
      exact s.earlier a out b (mem_filter.mp mem).1
    · intro a out
      rw [quiet nothing] at out
      rw [seq]
      exact s.numbered a out
  | pushed rec push nothing =>
    refine ⟨?_, ?_, ?_⟩
    · rw [quiet nothing]
      exact s.ascending
    · intro a out b mem
      rw [quiet nothing] at out
      rcases mem_append.mp (push.queue.mem_iff.mp mem) with old | new
      · exact s.earlier a out b old
      · rw [mem_singleton.mp new, push.number]
        exact Nat.lt_succ_of_le (s.numbered a out)
    · intro a out
      rw [quiet nothing] at out
      rw [push.seq]
      exact Nat.le_succ_of_le (s.numbered a out)
  | drained isDeliverable want input queue seq out =>
    have queued : ∀ b ∈ e.answer.records, b ∈ e.before.inner.queued := by
      intro b mem
      rw [out] at mem
      exact mem_merged.mp (mem_filter.mp mem).1
    refine ⟨?_, ?_, ?_⟩
    · rw [delivered_append, delivered_singleton]
      apply pairwise_append.mpr
      refine ⟨s.ascending, ?_, fun a before b mem => s.earlier a before b (queued b mem)⟩
      rw [out]
      exact h.ascending.filter _
    · intro a _ b mem
      rw [queue] at mem
      exact absurd mem not_mem_nil
    · intro a mem
      rw [delivered_append, delivered_singleton] at mem
      rw [seq]
      rcases mem_append.mp mem with before | now
      · exact s.numbered a before
      · exact h.numbered a (queued a now)

theorem run_sequenced (cap : Nat) (inflightCap totalCap : UInt32) (calls : List (Call K V)) :
    Sequenced (history Landing.step (Landing.withLimits cap inflightCap totalCap) calls)
      (Transducer.run Landing.step (Landing.withLimits cap inflightCap totalCap) calls) := by
  have both := history_invariant Landing.step
    (R := fun past (l : Landing K V) => Coherent l ∧ Sequenced past l)
    (s := Landing.withLimits cap inflightCap totalCap) ?_ ?_ calls
  · exact both.2
  · rintro past l call ⟨h, s⟩
    exact ⟨l.step_coherent call h, (Landing.event_queueMove h call).sequenced h.ordered s⟩
  · exact ⟨Coherent.withLimits cap inflightCap totalCap, List.Pairwise.nil,
      fun _ mem => absurd mem not_mem_nil, fun _ mem => absurd mem not_mem_nil⟩

section
variable {addr : Addr}

/-- The operation of `addr` has ended: nothing more can be published for it. -/
def Over (addr : Addr) (l : Landing K V) : Prop :=
  ∀ cancelled stream, l.inner.reservation addr ≠ some (.running cancelled stream)

theorem SlotMove.over_ {e : Event K V} (move : SlotMove addr e) (ceased : Over addr e.before)
    (alone : ¬ Admits addr e) : Over addr e.after := by
  intro cancelled stream live
  cases move with
  | still kept => exact ceased cancelled stream (kept.symm.trans live)
  | entered stream admits => exact alone admits
  | progressed k v input running => exact ceased _ _ running
  | closed c s lane completes running => exact ceased _ _ running
  | cut cuts left =>
    rw [left] at live
    generalize held : e.before.inner.reservation addr = r at live
    rcases r with _ | ⟨c, s⟩ | c
    · cases live
    · exact ceased c s held
    · cases live
  | drained isDeliverable want input left =>
    exact ceased cancelled stream (afterDrain_some (left.symm.trans live))

theorem over_run {l : Landing K V} (h : Coherent l) (ceased : Over addr l) (calls : List (Call K V))
    (alone : ∀ e ∈ history Landing.step l calls, ¬ Admits addr e) :
    Over addr (Transducer.run Landing.step l calls) := by
  induction calls generalizing l with
  | nil => exact ceased
  | cons call calls ih =>
    exact ih (l.step_coherent call h)
      ((Landing.event_slotMove h call addr).over_ ceased (alone _ mem_cons_self))
      (fun e there => alone e (mem_cons_of_mem _ there))

/-- A publication for an ended operation is refused and changes nothing; a dropped
guard discards the refusal. -/
theorem Landing.step_over (l : Landing K V) {call : Call K V} (about : call.publication? = some addr)
    (ceased : Over addr l) :
    (l.step call).1 = l ∧
      ((∃ cancelled, l.inner.reservation addr = some (.terminal cancelled)) ∧
          (call ≠ .guardDrop addr → (l.step call).2 = .published (.error .alreadyTerminal)) ∨
        l.inner.reservation addr = none ∧
          (call ≠ .guardDrop addr → (l.step call).2 = .published (.error .unknown))) := by
  cases held : l.inner.reservation addr with
  | none =>
    have free := held
    unfold reservation at free
    have eq : ∀ lane, l.complete addr lane = (l, .error .unknown) := by
      intro lane
      simp only [complete, completeLocked, free]
    have slow : ∀ k v, l.progress addr k v = (l, .error .unknown) := by
      intro k v
      simp only [progress, Inner.progress, free]
    cases call <;> simp only [Call.publication?, Option.some.injEq, reduceCtorEq] at about <;>
      subst about <;>
      simp [step, put, dropped, refused, guardDrop, eq, slow]
  | some state =>
    cases state with
    | running cancelled stream => exact absurd held (ceased cancelled stream)
    | terminal cancelled =>
      have closed := held
      unfold reservation at closed
      have eq : ∀ lane, l.complete addr lane = (l, .error .alreadyTerminal) := by
        intro lane
        simp only [complete, completeLocked, closed]
      have slow : ∀ k v, l.progress addr k v = (l, .error .alreadyTerminal) := by
        intro k v
        simp only [progress, Inner.progress, closed]
      cases call <;> simp only [Call.publication?, Option.some.injEq, reduceCtorEq] at about <;>
        subst about <;>
        simp [step, put, dropped, refused, guardDrop, eq, slow]

/-- A record enters the queue of `addr` as progress of its live stream, or as the
terminal that ends its operation. -/
theorem SlotMove.accepted {e : Event K V} (move : SlotMove addr e) (h : e.before.inner.Ordered)
    {rec : Landed K V} (mem : rec ∈ acceptedBy e) (here : rec.addr = addr) :
    rec.terminal = false ∨ Completes addr e ∧ Over addr e.after ∧
      (e.answer.isFull = true → rec.lane = .dropped addr.req) := by
  obtain ⟨queued, late⟩ := mem_filter.mp mem
  have new : rec ∉ e.before.inner.recordsOf addr := by
    intro old
    exact Nat.not_lt.mpr (h.numbered rec (mem_recordsOf.mp old).1) (of_decide_eq_true late)
  have there : rec ∈ e.after.inner.recordsOf addr := mem_recordsOf.mpr ⟨queued, here⟩
  cases move with
  | still kept records => exact absurd (records ▸ there) new
  | progressed k v input live kept records =>
    rw [records] at there
    rcases mem_append.mp there with old | last
    · exact absurd old new
    · rw [mem_singleton.mp last]
      exact .inl rfl
  | closed cancelled stream lane completes live ceased records lost =>
    rw [records] at there
    rcases mem_append.mp there with old | last
    · exact absurd old new
    · rw [mem_singleton.mp last]
      refine .inr ⟨completes, fun c s running => ?_, lost⟩
      rw [ceased] at running
      cases running
  | entered stream admits free opened records
  | cut cuts left records
  | drained isDeliverable want input left records =>
    rw [records] at there
    exact absurd there not_mem_nil

end

section
variable {addr : Addr}

variable {l : Landing K V} {calls : List (Call K V)}
variable {e : Event K V}

theorem event_of_history (h : Coherent l) (mem : e ∈ history Landing.step l calls) :
    ∃ m call, Coherent m ∧ e = event Landing.step m call := by
  obtain ⟨past, later, whole⟩ := append_of_mem mem
  obtain ⟨js, i, ks, -, -, here, -⟩ := history_split Landing.step whole
  exact ⟨_, i, run_invariant Landing.step Landing.step_coherent h js, here⟩

theorem over_later (h : Coherent l)
    {pre mid rest : List (Event K V)} {g f : Event K V}
    (whole : history Landing.step l calls = pre ++ g :: (mid ++ f :: rest))
    (alone : ∀ e ∈ history Landing.step l calls, ¬ Admits addr e)
    (ceased : Over addr g.after) : Over addr f.before := by
  have after_g : ∀ e ∈ mid ++ f :: rest, ¬ Admits addr e := by
    intro e mem
    apply alone e
    rw [whole]
    exact mem_append_right _ (mem_cons_of_mem _ mem)
  obtain ⟨js, i, ks, -, rfl, rfl, later⟩ := history_split Landing.step whole
  obtain ⟨ms, j, ns, -, rfl, rfl, rfl⟩ := history_split Landing.step later.symm
  have hjs := run_invariant Landing.step Landing.step_coherent h js
  exact over_run (Landing.step_coherent _ i hjs) ceased ms
    (fun e mem => after_g e (mem_append_left _ mem))

theorem SlotMove.overflowed (move : SlotMove addr e)
    (publishes : e.input.publication? = some addr) (full : e.answer.isFull = true) :
    (∃ stream, e.before.inner.reservation addr = some (.running false stream)) ∧
      ∃ last, Awaits addr last e.after := by
  cases move with
  | still _ _ _ _ _ _ _ unfilled =>
    rw [unfilled publishes] at full
    cases full
  | entered stream admits =>
    have mode := admits.1
    cases input : e.input <;> simp_all [Call.publication?, Call.admission?]
  | progressed k v input live kept records answered =>
    rw [answered] at full
    cases full
  | closed cancelled stream lane completes live ceased records lost nothing quiet =>
    have running := quiet full
    subst running
    refine ⟨⟨stream, live⟩, ⟨e.before.inner.seq + 1, addr, lane, true⟩, ceased, ?_⟩
    rw [records]
    exact mem_append_right _ mem_cons_self
  | cut cuts =>
    have cancels := cuts.1
    cases input : e.input <;> simp_all [Call.publication?, Call.cancels]
  | drained isDeliverable want input =>
    rw [input] at publishes
    cases publishes

theorem Awaits.over_ {last : Landed K V} (awaits : Awaits addr last l) :
    Over addr l := by
  intro cancelled stream live
  rw [awaits.1] at live
  cases live

/-- After an overflow, and before it, every terminal accepted for the operation is the
`Dropped` that the overflow queued. -/
theorem overflow_lanes (h : Coherent l) {pre post : List (Event K V)}
    (whole : history Landing.step l calls = pre ++ e :: post)
    (alone : ∀ e ∈ history Landing.step l calls, ¬ Admits addr e)
    (publishes : e.input.publication? = some addr) (full : e.answer.isFull = true)
    {rec : Landed K V} (mem : rec ∈ accepted (history Landing.step l calls))
    (here : rec.addr = addr) (done : rec.terminal = true) : rec.lane = .dropped addr.req := by
  obtain ⟨g, happened, entered⟩ := mem_flatMap.mp mem
  have started : ∀ f ∈ history Landing.step l calls, Coherent f.before ∧ SlotMove addr f := by
    intro f there
    obtain ⟨m, call, hm, rfl⟩ := event_of_history h there
    exact ⟨hm, Landing.event_slotMove hm call addr⟩
  have at_g := started g happened
  have at_e := started e (by rw [whole]; exact mem_append_right _ mem_cons_self)
  obtain ⟨⟨stream, live⟩, last, awaits⟩ := at_e.2.overflowed publishes full
  rcases at_g.2.accepted at_g.1.ordered entered here with progress | ⟨completes, ceased, lost⟩
  · rw [progress] at done
    cases done
  · rw [whole] at happened
    rcases mem_append.mp happened with before | now
    · obtain ⟨as, bs, rfl⟩ := append_of_mem before
      rw [append_assoc, cons_append] at whole
      exact absurd live (over_later h whole alone ceased false stream)
    · rcases mem_cons.mp now with eq | later
      · exact lost (eq ▸ full)
      · obtain ⟨as, bs, rfl⟩ := append_of_mem later
        obtain ⟨cancelled, mode, running⟩ := completes.2.1
        exact absurd running (over_later h whole alone awaits.over_ cancelled mode)

end

section
variable {addr : Addr}

/-- While a terminal of the operation is still to be delivered, the only way a record
of its stream is lost is a drain that finds it undeliverable or unwanted. -/
theorem stream_discard {l : Landing K V} (h : Coherent l) {calls : List (Call K V)}
    (alone : ∀ e ∈ history Landing.step l calls, ¬ Admits addr e)
    {last : Landed K V} (out : last ∈ delivered (history Landing.step l calls))
    (about : last.addr = addr) (done : last.terminal = true)
    {d : Event K V} (happened : d ∈ history Landing.step l calls)
    {rec : Landed K V} (lost : rec ∈ discardedBy d) (here : rec.addr = addr) :
    ∃ isDeliverable want, d.input = .takeFor isDeliverable want ∧
      (isDeliverable addr = false ∨ rec.lane.wanted want = false) := by
  obtain ⟨pre, post, whole⟩ := append_of_mem happened
  rw [whole] at alone out
  obtain ⟨js, i, ks, -, rfl, rfl, rfl⟩ := history_split Landing.step whole
  have hjs := run_invariant Landing.step Landing.step_coherent h js
  have queued := (mem_filter.mp lost).1
  have held := hjs.housed rec queued
  rw [here] at held
  have ended : Ended addr [] l :=
    ⟨[], fun _ mem => absurd mem not_mem_nil, .inl rfl⟩
  have sofar := ended_run h ended js (fun e mem => alone e (mem_append_left _ mem))
  -- the terminal is not among the earlier output, since the slot is still reserved
  have later : last ∈ delivered (history Landing.step
      (Transducer.run Landing.step l js) (i :: ks)) := by
    rw [delivered_append] at out
    rcases mem_append.mp out with before | after
    · obtain ⟨progress, open_, eq | ⟨free, -⟩⟩ := sofar
      · have mem : last ∈ progress := by
          rw [← eq, nil_append]
          exact mem_filter.mpr ⟨before, decide_eq_true about⟩
        rw [open_ last mem] at done
        cases done
      · exact absurd free held
    · exact after
  have quiet : ∀ e ∈ history Landing.step (Transducer.run Landing.step l js) (i :: ks),
      ¬ Admits addr e := fun e mem => alone e (mem_append_right _ mem)
  have settles := (Landing.event_queueMove hjs i).settles hjs.ordered
  rcases settles.why rec lost with cancels | ⟨isDeliverable, want, input, rejected⟩
  · rw [here] at cancels
    obtain ⟨silent, nothing⟩ := (Landing.event_slotMove hjs i addr).silenced ⟨cancels, held⟩
    rw [history, ← singleton_append, delivered_append, delivered_singleton, nothing,
      nil_append] at later
    exact absurd about (silent_run (Landing.step_coherent _ i hjs) silent ks
      (fun e mem => quiet e (mem_cons_of_mem _ mem)) last later)
  · refine ⟨isDeliverable, want, input, ?_⟩
    by_contra kept
    rw [not_or, Bool.not_eq_false, Bool.not_eq_false] at kept
    -- deliverable and wanted, so the verdict can only have been a cancellation
    apply absurd about
    refine silent_run hjs ?_ (i :: ks) quiet last later
    intro r reserved
    have verdict : passes isDeliverable want (Transducer.run Landing.step l js).inner rec = false :=
      rejected
    simpa [passes, here, reserved, kept.1, kept.2] using verdict

theorem drain_counted {l : Landing K V} (h : Coherent l) {call : Call K V} (take : call.isTake = true)
    (target : MachineId) :
    ((l.step call).1.droppedFor target).toNat = ((l.droppedFor target).toNat +
      (discardedBy (event Landing.step l call)).countP
        (fun rec => rec.addr.target = target)) % 2 ^ 32 := by
  have settles := (Landing.event_queueMove h call).settles h.ordered
  have nobody : filledBy (event Landing.step l call) = [] := by
    cases call <;> first | rfl | cases take
  have counted := settles.counts.each target
  rw [nobody, nil_append, targets, count_eq_countP, countP_map] at counted
  rw [← Nat.mod_eq_of_lt ((l.step call).1.droppedFor target).toNat_lt]
  exact counted

end

namespace Landing
variable {addr : Addr}

/-- The window's books: a record accepted in it and no longer queued was delivered or
discarded in it, and what it delivered for `addr` it had accepted. -/
theorem window_places {l : Landing K V} (h : Coherent l) (calls : List (Call K V))
    (fresh : l.inner.recordsOf addr = []) {rec : Landed K V} (here : rec.addr = addr) :
    (rec ∈ delivered (history step l calls) → rec ∈ accepted (history step l calls)) ∧
    (rec ∈ accepted (history step l calls) →
      rec ∈ (Transducer.run step l calls).inner.queued ∨ rec ∈ delivered (history step l calls) ∨
        rec ∈ discarded (history step l calls)) := by
  have places := (run_account h calls).places
  refine ⟨fun out => ?_, fun entered => ?_⟩
  · have there := places.mem_iff.mpr (mem_append_left _ (mem_append_right _ out))
    rcases mem_append.mp there with old | new
    · have slot : rec ∈ l.inner.recordsOf addr := mem_recordsOf.mpr ⟨old, here⟩
      rw [fresh] at slot
      exact absurd slot not_mem_nil
    · exact new
  · have there := places.mem_iff.mp (mem_append_right _ entered)
    rcases mem_append.mp there with kept | gone
    · rcases mem_append.mp kept with queued | out
      · exact .inl queued
      · exact .inr (.inl out)
    · exact .inr (.inr gone)

section
variable {l : Landing K V} (h : Coherent l) (fresh : l.inner.recordsOf addr = [])
  {calls : List (Call K V)} (alone : ∀ e ∈ history step l calls, ¬ Admits addr e)
include h fresh alone

theorem overflow_only_dropped {e : Event K V} (happened : e ∈ history step l calls)
    (publishes : e.input.publication? = some addr) (full : e.answer.isFull = true) :
    ∀ rec ∈ accepted (history step l calls) ++ delivered (history step l calls),
      rec.addr = addr → rec.terminal = true → rec.lane = .dropped addr.req := by
  intro rec mem here done
  obtain ⟨pre, post, whole⟩ := append_of_mem happened
  rcases mem_append.mp mem with entered | out
  · exact overflow_lanes h whole alone publishes full entered here done
  · exact overflow_lanes h whole alone publishes full
      ((window_places h calls fresh here).1 out) here done

theorem progress_accounted {xs ys : List (Landed K V)} {last : Landed K V}
    (split : delivered (history step l calls) = xs ++ last :: ys)
    (about : last.addr = addr) (done : last.terminal = true) {rec : Landed K V}
    (entered : rec ∈ accepted (history step l calls)) (here : rec.addr = addr)
    (open_ : rec.terminal = false) :
    rec ∈ xs ∨ ∃ d ∈ history step l calls, rec ∈ discardedBy d ∧
      (∃ isDeliverable want, d.input = .takeFor isDeliverable want ∧
        (isDeliverable addr = false ∨ rec.lane.wanted want = false)) ∧
      (d.after.droppedFor addr.target).toNat = ((d.before.droppedFor addr.target).toNat +
        (discardedBy d).countP (fun rec => rec.addr.target = addr.target)) % 2 ^ 32 := by
  have out : last ∈ delivered (history step l calls) := by
    rw [split]
    exact mem_append_right _ mem_cons_self
  have ended : Ended addr [] l := ⟨[], fun _ mem => absurd mem not_mem_nil, .inl rfl⟩
  have whole := ended_run h ended calls alone
  rcases (window_places h calls fresh here).2 entered with queued | there | gone
  · obtain ⟨progress, closed, eq | ⟨free, -⟩⟩ := whole
    · have mem : last ∈ progress := by
        rw [← eq]
        exact mem_filter.mpr ⟨out, decide_eq_true about⟩
      rw [closed last mem] at done
      cases done
    · rw [← here] at free
      exact absurd free ((run_invariant step step_coherent h calls).housed rec queued)
  · left
    rw [split] at there
    rcases mem_append.mp there with before | after
    · exact before
    · rcases mem_cons.mp after with eq | late
      · rw [eq, done] at open_
        cases open_
      · have filtered : (xs ++ last :: ys).filter (fun rec => rec.addr = addr) =
            xs.filter (fun rec => rec.addr = addr) ++
              last :: ys.filter (fun rec => rec.addr = addr) := by
          rw [filter_append, filter_cons_of_pos (by simpa using about)]
        have rest := whole.terminal_last (split ▸ filtered) done
        exact absurd (decide_eq_true here) (filter_eq_nil_iff.mp rest rec late)
  · right
    obtain ⟨d, happened, lost⟩ := mem_flatMap.mp gone
    obtain ⟨isDeliverable, want, input, rejected⟩ :=
      stream_discard h alone out about done happened lost here
    refine ⟨d, happened, lost, ⟨isDeliverable, want, input, rejected⟩, ?_⟩
    obtain ⟨m, call, hm, rfl⟩ := event_of_history h happened
    exact drain_counted hm (by rw [show call = _ from input]; rfl) addr.target

omit fresh in
/-- After an overflow every publication is refused: as terminal while the reserved
record waits, as unknown once a drain or a cancellation has taken it. -/
theorem overflow_refuses {pre mid rest : List (Event K V)} {e f : Event K V}
    (whole : history step l calls = pre ++ e :: (mid ++ f :: rest))
    (publishes : e.input.publication? = some addr) (full : e.answer.isFull = true)
    (asks : f.input.publication? = some addr) :
    f.after = f.before ∧
      ((∃ cancelled, f.before.inner.reservation addr = some (.terminal cancelled)) ∧
          (f.input ≠ .guardDrop addr → f.answer = .published (.error .alreadyTerminal)) ∨
        (∃ g ∈ mid, g.input.isTake = true ∨ Cuts addr g) ∧
          f.before.inner.reservation addr = none ∧
          (f.input ≠ .guardDrop addr → f.answer = .published (.error .unknown))) := by
  have over_f := fun ceased => over_later (g := e) h whole alone ceased
  obtain ⟨js, i, ks, -, rfl, rfl, later⟩ := history_split step whole
  obtain ⟨ms, j, ns, -, rfl, rfl, -⟩ := history_split step later.symm
  have hjs := run_invariant step step_coherent h js
  obtain ⟨-, last, awaits⟩ := (event_slotMove hjs i addr).overflowed publishes full
  obtain ⟨eq, refused⟩ := step_over _ asks (over_f awaits.over_)
  refine ⟨eq, refused.imp_right (fun unknown => ⟨?_, unknown⟩)⟩
  by_contra untouched
  have waiting := awaits_run (step_coherent _ i hjs) awaits ms
    (fun g mem cuts => untouched ⟨g, mem, .inr cuts⟩)
    (fun g mem => by
      rw [← Bool.not_eq_true]
      exact fun take => untouched ⟨g, mem, .inl take⟩)
  cases waiting.1.symm.trans unknown.1

end

/-- Landing order over every run, and the integrity of every stream: a delivered `Data`
terminal hides no lost progress, and an overflow leaves `Dropped` as the only terminal. -/
theorem order_and_stream_integrity (cap : Nat) (inflightCap totalCap : UInt32) :
    (∀ calls : List (Call K V),
      let past := history step (withLimits cap inflightCap totalCap) calls
      (delivered past).Pairwise (fun a b => a.seq < b.seq) ∧ (delivered past).Nodup) ∧
    (∀ (earlier calls : List (Call K V)) (addr : Addr),
      let l := Transducer.run step (withLimits cap inflightCap totalCap) earlier
      let past := window l (.admitStream addr) calls
      Admits addr (event step l (.admitStream addr)) → (∀ e ∈ past, ¬ Admits addr e) →
      (∀ xs last ys, delivered past = xs ++ last :: ys → last.addr = addr → last.terminal = true →
        last.lane.isData = true →
        (∀ e ∈ past, e.input.publication? = some addr → e.input.isProgress = true →
          e.answer.isFull = false) ∧
        (∀ rec ∈ accepted past, rec.addr = addr → rec.terminal = false →
          rec ∈ xs ∨ ∃ d ∈ past, rec ∈ discardedBy d ∧
            (∃ isDeliverable want, d.input = .takeFor isDeliverable want ∧
              (isDeliverable addr = false ∨ rec.lane.wanted want = false)) ∧
            (d.after.droppedFor addr.target).toNat = ((d.before.droppedFor addr.target).toNat +
              (discardedBy d).countP (fun rec => rec.addr.target = addr.target)) % 2 ^ 32)) ∧
      (∀ pre e post, past = pre ++ e :: post → e.input.publication? = some addr →
        e.input.isProgress = true → e.answer.isFull = true →
        (∀ mid f rest, post = mid ++ f :: rest → f.input.publication? = some addr →
          f.after = f.before ∧
          ((∃ cancelled, f.before.inner.reservation addr = some (.terminal cancelled)) ∧
              (f.input ≠ .guardDrop addr → f.answer = .published (.error .alreadyTerminal)) ∨
            (∃ g ∈ mid, g.input.isTake = true ∨ Cuts addr g) ∧
              f.before.inner.reservation addr = none ∧
              (f.input ≠ .guardDrop addr → f.answer = .published (.error .unknown)))) ∧
        (∀ rec ∈ accepted past ++ delivered past, rec.addr = addr → rec.terminal = true →
          rec.lane = .dropped addr.req))) := by
  refine ⟨fun calls => ?_, ?_⟩
  · have ascending := (run_sequenced (K := K) (V := V) cap inflightCap totalCap calls).ascending
    refine ⟨ascending, ascending.imp ?_⟩
    rintro a b below rfl
    exact Nat.lt_irrefl _ below
  · intro earlier calls addr l past admits alone
    have h := run_coherent (K := K) (V := V) cap inflightCap totalCap earlier
    have opened := l.step_coherent (.admitStream addr) h
    have fresh : (l.step (.admitStream addr)).1.inner.recordsOf addr = [] := by
      cases event_slotMove h (.admitStream addr) addr with
      | entered _ _ _ _ records => exact records
      | still _ _ _ unadmitted => exact absurd admits unadmitted
      | progressed k v input => cases input
      | closed cancelled stream lane completes => cases completes.1
      | cut cuts => cases cuts.1
      | drained isDeliverable want input => cases input
    constructor
    · intro xs last ys split about done isData
      refine ⟨?_, fun rec => progress_accounted opened fresh alone split about done⟩
      intro e member publishes progress
      by_contra full
      have out : last ∈ accepted past ++ delivered past := by
        rw [split]
        exact mem_append_right _ (mem_append_right _ mem_cons_self)
      rw [overflow_only_dropped opened fresh alone member publishes (Bool.not_eq_false _ ▸ full)
        last out about done] at isData
      cases isData
    · intro pre e post whole publishes progress full
      have happened : e ∈ past := by
        rw [whole]
        exact mem_append_right _ mem_cons_self
      refine ⟨?_, overflow_only_dropped opened fresh alone happened publishes full⟩
      intro mid f rest split asks
      subst split
      exact overflow_refuses opened alone whole publishes full asks

/-- The source's own stream scenario, with the statement evaluated on it. -/
theorem integrity_of_overflowed_stream :
    let addr : Addr := ⟨.session, ⟨1⟩⟩
    ∀ rec ∈ delivered (window (Transducer.run step (withLimits 1 4 4 : Landing Nat Nat) [])
      (.admitStream addr) [.progress addr 0 10, .progress addr 0 11, .put addr 0 13,
        .takeFor (fun _ => true) (fun _ => true)]),
      rec.addr = addr → rec.terminal = true → rec.lane = .dropped addr.req := by
  intro addr rec member
  have all := (order_and_stream_integrity (K := Nat) (V := Nat) 1 4 4).2 [] [.progress addr 0 10,
    .progress addr 0 11, .put addr 0 13, .takeFor (fun _ => true) (fun _ => true)] addr
    (by decide) (by decide)
  exact (all.2 [_] _ [_, _] rfl rfl rfl rfl).2 rec (mem_append_right _ member)

end Landing

end PlxNative.Machine
