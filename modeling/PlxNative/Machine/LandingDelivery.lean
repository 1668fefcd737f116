import PlxNative.Machine.LandingSlot

/-! The life of one operation: the delivery guarantees between two admissions of one
address, read off the sequence of its slot's moves. -/
namespace PlxNative.Machine
open List Option Reservation Transducer

variable {K V : Type*}

section
variable {addr : Addr}

/-- Nothing more can be delivered for `addr` before its next admission. -/
def Silent (addr : Addr) (l : Landing K V) : Prop :=
  ∀ r, l.inner.reservation addr = some r → r.isCancelled = true

variable {state : Reservation}
variable {r : Option Reservation}

theorem afterCancel_silent (left : afterCancel r = some state) : state.isCancelled = true := by
  rcases r with _ | ⟨cancelled, stream⟩ | cancelled <;> cases left
  rfl

theorem afterDrain_some (left : afterDrain r = some state) : r = some state := by
  rcases r with _ | ⟨cancelled, stream⟩ | cancelled <;> cases left
  rfl

theorem passes_cancelled {isDeliverable : Addr → Bool} {want : K → Bool} {g : Inner K V}
    {rec : Landed K V} (held : g.reservation rec.addr = some state)
    (cancelled : state.isCancelled = true) : Inner.passes isDeliverable want g rec = false := by
  simp only [Inner.passes, held, map_some, getD_some, cancelled, Bool.not_true,
    Bool.false_and]

variable {e : Event K V}

theorem SlotMove.silent (move : SlotMove addr e) (h : Coherent e.before)
    (silent : Silent addr e.before) (alone : ¬ Admits addr e) :
    Silent addr e.after ∧ ∀ rec ∈ e.answer.records, rec.addr ≠ addr := by
  cases move with
  | still kept records nothing =>
    refine ⟨fun r held => silent r (kept.symm.trans held), fun rec mem => ?_⟩
    rw [nothing] at mem
    exact absurd mem not_mem_nil
  | entered stream admits => exact absurd admits alone
  | progressed k v input live =>
    cases silent _ live
  | closed cancelled stream lane completes live ceased records lost nothing =>
    refine ⟨fun r held => ?_, fun rec mem => ?_⟩
    · rw [ceased] at held
      cases held
      have gone : cancelled = true := silent _ live
      exact gone
    · rw [nothing] at mem
      exact absurd mem not_mem_nil
  | cut cuts left records nothing =>
    refine ⟨fun r held => afterCancel_silent (left.symm.trans held), fun rec mem => ?_⟩
    rw [nothing] at mem
    exact absurd mem not_mem_nil
  | drained isDeliverable want input left records out =>
    refine ⟨fun r held => silent r (afterDrain_some (left.symm.trans held)), ?_⟩
    intro rec mem here
    have there : rec ∈ e.answer.records.filter (fun rec => rec.addr = addr) :=
      mem_filter.mpr ⟨mem, decide_eq_true here⟩
    rw [out] at there
    obtain ⟨queued, passes⟩ := mem_filter.mp there
    obtain ⟨queued, -⟩ := Inner.mem_recordsOf.mp queued
    cases held : e.before.inner.reservation rec.addr with
    | none => exact h.housed rec queued held
    | some state =>
      rw [passes_cancelled held (silent state (here ▸ held))] at passes
      cases passes

theorem SlotMove.silenced (move : SlotMove addr e) (cuts : Cuts addr e) :
    Silent addr e.after ∧ e.answer.records = [] := by
  cases move with
  | cut _ left records nothing =>
    exact ⟨fun r held => afterCancel_silent (left.symm.trans held), nothing⟩
  | still _ _ _ _ _ uncut => exact absurd cuts uncut
  | entered stream admits free => exact absurd free cuts.2
  | progressed k v input =>
    have cancels := cuts.1
    rw [input] at cancels
    cases cancels
  | closed cancelled stream lane completes =>
    have cancels := cuts.1
    have publishes := completes.1
    cases input : e.input <;> simp_all [Call.publication?, Call.cancels]
  | drained isDeliverable want input =>
    have cancels := cuts.1
    rw [input] at cancels
    cases cancels

variable {l : Landing K V}

theorem silent_run (h : Coherent l) (silent : Silent addr l) (calls : List (Call K V))
    (alone : ∀ e ∈ history Landing.step l calls, ¬ Admits addr e) :
    ∀ rec ∈ delivered (history Landing.step l calls), rec.addr ≠ addr := by
  induction calls generalizing l with
  | nil => exact fun _ mem => absurd mem not_mem_nil
  | cons call calls ih =>
    have move := (Landing.event_slotMove h call addr).silent h silent
      (alone _ mem_cons_self)
    intro rec mem
    rcases mem_append.mp mem with now | later
    · exact move.2 rec now
    · exact ih (l.step_coherent call h) move.1
        (fun e there => alone e (mem_cons_of_mem _ there)) rec later

/-- What the window has delivered so far: progress, closed by at most one terminal. -/
def Ended (addr : Addr) (out : List (Landed K V)) (l : Landing K V) : Prop :=
  ∃ progress, (∀ rec ∈ progress, rec.terminal = false) ∧
    (out = progress ∨ l.inner.reservation addr = none ∧
      ∃ last : Landed K V, last.terminal = true ∧ out = progress ++ [last])

variable {out : List (Landed K V)}
variable {l' : Landing K V}

theorem Ended.of_running (ended : Ended addr out l)
    (held : l.inner.reservation addr ≠ none) : Ended addr out l' := by
  obtain ⟨progress, open_, eq | ⟨free, -⟩⟩ := ended
  · exact ⟨progress, open_, .inl eq⟩
  · exact absurd free held

theorem Ended.drain {out taken : List (Landed K V)} (ended : Ended addr out l)
    (slot : SlotOk (l.inner.reservation addr) (l.inner.recordsOf addr))
    (left : l'.inner.reservation addr = afterDrain (l.inner.reservation addr))
    (verdict : Landed K V → Bool) (eq : taken = (l.inner.recordsOf addr).filter verdict) :
    Ended addr (out ++ taken) l' := by
  obtain ⟨progress, open_, so_far⟩ := ended
  subst eq
  generalize reservation : l.inner.reservation addr = r at slot left so_far
  generalize l.inner.recordsOf addr = recs at slot
  cases slot with
  | free =>
    refine ⟨progress, open_, ?_⟩
    rw [filter_nil, append_nil]
    exact so_far.imp_right (fun both => ⟨left, both.2⟩)
  | running more_open =>
    have eq : out = progress := so_far.resolve_right (fun both => by cases both.1)
    subst eq
    refine ⟨out ++ recs.filter verdict, fun rec mem => ?_, .inl rfl⟩
    rcases mem_append.mp mem with old | new
    · exact open_ rec old
    · exact more_open rec (mem_filter.mp new).1
  | cancelled =>
    have eq : out = progress := so_far.resolve_right (fun both => by cases both.1)
    exact ⟨progress, open_, .inl (by rw [eq, filter_nil, append_nil])⟩
  | @closed more last more_open done =>
    have eq : out = progress := so_far.resolve_right (fun both => by cases both.1)
    subst eq
    refine ⟨out ++ more.filter verdict, fun rec mem => ?_, ?_⟩
    · rcases mem_append.mp mem with old | new
      · exact open_ rec old
      · exact more_open rec (mem_filter.mp new).1
    · rw [filter_append, ← append_assoc]
      cases passes : verdict last with
      | false => exact .inl (by rw [filter_cons_of_neg (by simp [passes]), filter_nil, append_nil])
      | true => exact .inr ⟨left, last, done, by rw [filter_cons_of_pos passes, filter_nil]⟩
  | @acknowledged last done =>
    have eq : out = progress := so_far.resolve_right (fun both => by cases both.1)
    subst eq
    refine ⟨out, open_, ?_⟩
    cases passes : verdict last with
    | false => exact .inl (by rw [filter_cons_of_neg (by simp [passes]), filter_nil, append_nil])
    | true => exact .inr ⟨left, last, done, by rw [filter_cons_of_pos passes, filter_nil]⟩

theorem SlotMove.ended (move : SlotMove addr e) (h : Coherent e.before)
    (ended : Ended addr out e.before) (alone : ¬ Admits addr e) :
    Ended addr (out ++ e.answer.records.filter (fun rec => rec.addr = addr)) e.after := by
  have quiet : ∀ {l : Landing K V}, e.answer.records = [] → Ended addr out l →
      Ended addr (out ++ e.answer.records.filter (fun rec => rec.addr = addr)) l := by
    intro l nothing so_far
    rw [nothing, filter_nil, append_nil]
    exact so_far
  cases move with
  | still kept records nothing =>
    obtain ⟨progress, open_, so_far⟩ := ended
    exact quiet nothing ⟨progress, open_, kept ▸ so_far⟩
  | entered stream admits => exact absurd admits alone
  | progressed k v input live kept records answered =>
    exact quiet (by rw [answered]; rfl) (ended.of_running (by rw [live]; exact some_ne_none _))
  | closed cancelled stream lane completes live ceased records lost nothing =>
    exact quiet nothing (ended.of_running (by rw [live]; exact some_ne_none _))
  | cut cuts left records nothing => exact quiet nothing (ended.of_running cuts.2)
  | drained isDeliverable want input left records out =>
    exact ended.drain (h.slot addr) left _ out

theorem ended_run (h : Coherent l) (ended : Ended addr out l) (calls : List (Call K V))
    (alone : ∀ e ∈ history Landing.step l calls, ¬ Admits addr e) :
    Ended addr (out ++ (delivered (history Landing.step l calls)).filter
      (fun rec => rec.addr = addr)) (run Landing.step l calls) := by
  induction calls generalizing l out with
  | nil => simpa using ended
  | cons call calls ih =>
    have move := (Landing.event_slotMove h call addr).ended h ended (alone _ mem_cons_self)
    have rest := ih (l.step_coherent call h) move
      (fun e there => alone e (mem_cons_of_mem _ there))
    rw [append_assoc, ← filter_append] at rest
    exact rest

end

section
variable {addr : Addr}

/-- No cancellation has reached the operation of `addr`. -/
def Uncut (addr : Addr) (l : Landing K V) : Prop :=
  ∀ r, l.inner.reservation addr = some r → r.isCancelled = false

variable {e : Event K V}

theorem SlotMove.uncut (move : SlotMove addr e) (uncut : Uncut addr e.before)
    (safe : ¬ Cuts addr e) : Uncut addr e.after := by
  intro r held
  cases move with
  | still kept => exact uncut r (kept.symm.trans held)
  | entered stream admits free opened =>
    rw [opened] at held
    cases held
    rfl
  | progressed k v input live kept => exact uncut r (kept.symm.trans held)
  | closed cancelled stream lane completes live ceased =>
    rw [ceased] at held
    cases held
    have running : cancelled = false := uncut _ live
    exact running
  | cut cuts => exact absurd cuts safe
  | drained isDeliverable want input left => exact uncut r (afterDrain_some (left.symm.trans held))

variable {l : Landing K V}

theorem uncut_run (h : Coherent l) (uncut : Uncut addr l) (calls : List (Call K V))
    (safe : ∀ e ∈ history Landing.step l calls, ¬ Cuts addr e) :
    Uncut addr (run Landing.step l calls) := by
  induction calls generalizing l with
  | nil => exact uncut
  | cons call calls ih =>
    have move := Landing.event_slotMove h call addr
    exact ih (l.step_coherent call h) (move.uncut uncut (safe _ mem_cons_self))
      (fun e there => safe e (mem_cons_of_mem _ there))

/-- The terminal of `addr` waits in the queue, and will not be discarded unread. -/
def Awaits (addr : Addr) (last : Landed K V) (l : Landing K V) : Prop :=
  l.inner.reservation addr = some (.terminal false) ∧ last ∈ l.inner.recordsOf addr

variable {last : Landed K V}

theorem SlotMove.awaits (move : SlotMove addr e)
    (awaits : Awaits addr last e.before) (safe : ¬ Cuts addr e) (untaken : e.input.isTake = false) :
    Awaits addr last e.after := by
  cases move with
  | still kept records => exact ⟨kept.trans awaits.1, records ▸ awaits.2⟩
  | entered stream admits free =>
    rw [awaits.1] at free
    cases free
  | progressed k v input live =>
    rw [awaits.1] at live
    cases live
  | closed cancelled stream lane completes live =>
    rw [awaits.1] at live
    cases live
  | cut cuts => exact absurd cuts safe
  | drained isDeliverable want input =>
    rw [input] at untaken
    cases untaken

theorem awaits_run (h : Coherent l) (awaits : Awaits addr last l) (calls : List (Call K V))
    (safe : ∀ e ∈ history Landing.step l calls, ¬ Cuts addr e)
    (untaken : ∀ e ∈ history Landing.step l calls, e.input.isTake = false) :
    Awaits addr last (run Landing.step l calls) := by
  induction calls generalizing l with
  | nil => exact awaits
  | cons call calls ih =>
    have move := Landing.event_slotMove h call addr
    exact ih (l.step_coherent call h)
      (move.awaits awaits (safe _ mem_cons_self) (untaken _ mem_cons_self))
      (fun e there => safe e (mem_cons_of_mem _ there))
      (fun e there => untaken e (mem_cons_of_mem _ there))

theorem SlotMove.completed (move : SlotMove addr e) (completes : Completes addr e)
    (uncut : Uncut addr e.before) :
    ∃ last : Landed K V, last.terminal = true ∧ Awaits addr last e.after := by
  cases move with
  | still kept records nothing unadmitted uncompleted => exact absurd completes uncompleted
  | entered stream admits free =>
    obtain ⟨cancelled, mode, live⟩ := completes.2.1
    rw [free] at live
    cases live
  | progressed k v input live kept records answered =>
    have full := completes.2.2 (by rw [input]; rfl)
    rw [answered] at full
    cases full
  | closed cancelled stream lane completes' live ceased records =>
    have running : cancelled = false := uncut _ live
    refine ⟨⟨e.before.inner.seq + 1, addr, lane, true⟩, rfl, running ▸ ceased, ?_⟩
    rw [records]
    exact mem_append_right _ mem_cons_self
  | cut cuts =>
    have publishes := completes.1
    have cancels := cuts.1
    cases input : e.input <;> simp_all [Call.publication?, Call.cancels]
  | drained isDeliverable want input =>
    have publishes := completes.1
    rw [input] at publishes
    cases publishes

theorem SlotMove.handed (move : SlotMove addr e)
    (awaits : Awaits addr last e.before) {isDeliverable : Addr → Bool} {want : K → Bool}
    (drain : e.input = .takeFor isDeliverable want) (deliverable : isDeliverable addr = true)
    (wanted : last.lane.wanted want = true) : last ∈ e.answer.records := by
  have here : last.addr = addr := (Inner.mem_recordsOf.mp awaits.2).2
  cases move with
  | drained isDeliverable' want' input left records out =>
    rw [drain] at input
    cases input
    have passes : Inner.passes isDeliverable want e.before.inner last = true := by
      simp [Inner.passes, here, awaits.1, isCancelled, deliverable, wanted]
    have there : last ∈ e.answer.records.filter (fun rec => rec.addr = addr) := by
      rw [out]
      exact mem_filter.mpr ⟨awaits.2, passes⟩
    exact (mem_filter.mp there).1
  | still _ _ _ _ _ _ untaken =>
    rw [drain] at untaken
    cases untaken
  | entered stream admits free =>
    rw [awaits.1] at free
    cases free
  | progressed k v input live =>
    rw [awaits.1] at live
    cases live
  | closed cancelled stream lane completes live =>
    rw [awaits.1] at live
    cases live
  | cut cuts =>
    have cancels := cuts.1
    rw [drain] at cancels
    cases cancels

end

namespace Landing

/-- The events between the admission `entry` and the end of `calls`. -/
def window (l : Landing K V) (entry : Call K V) (calls : List (Call K V)) : List (Event K V) :=
  history step (l.step entry).1 calls

end Landing

section
variable {addr : Addr} {out : List (Landed K V)} {l : Landing K V}

theorem Ended.one_terminal (ended : Ended addr out l) :
    out.countP (fun rec => rec.terminal) ≤ 1 := by
  obtain ⟨progress, open_, so_far⟩ := ended
  have none_open : progress.countP (fun rec => rec.terminal) = 0 := by
    apply countP_eq_zero.mpr
    intro rec mem
    rw [open_ rec mem]
    exact Bool.false_ne_true
  rcases so_far with rfl | ⟨-, last, done, rfl⟩
  · rw [none_open]
    exact Nat.zero_le 1
  · simp [none_open, done]

theorem Ended.terminal_last (ended : Ended addr out l) {xs ys : List (Landed K V)}
    {last : Landed K V} (whole : out = xs ++ last :: ys) (done : last.terminal = true) : ys = [] := by
  obtain ⟨progress, open_, so_far⟩ := ended
  have closed : last ∉ progress := by
    intro mem
    rw [open_ last mem] at done
    cases done
  rcases so_far with rfl | ⟨-, end_, -, rfl⟩
  · rw [whole] at closed
    exact absurd (mem_append_right xs mem_cons_self) closed
  · rcases eq_nil_or_concat ys with rfl | ⟨zs, z, rfl⟩
    · rfl
    · rw [concat_eq_append, ← cons_append, ← append_assoc] at whole
      have front := (append_inj' whole rfl).1
      rw [front] at closed
      exact absurd (mem_append_right xs mem_cons_self) closed

end

namespace Landing

theorem admits_opens {l : Landing K V} (h : Coherent l) {entry : Call K V} {addr : Addr}
    (admits : Admits addr (event step l entry)) :
    ∃ stream, (l.step entry).1.inner.reservation addr = some (.running false stream) := by
  cases event_slotMove h entry addr with
  | entered stream _ free opened => exact ⟨stream, opened⟩
  | still _ _ _ unadmitted => exact absurd admits unadmitted
  | progressed k v input =>
    have mode := admits.1
    rw [input] at mode
    cases mode
  | closed cancelled stream lane completes =>
    have mode := admits.1
    have publishes := completes.1
    cases input : (event step l entry).input <;>
      simp_all [Call.publication?, Call.admission?]
  | cut cuts =>
    have mode := admits.1
    have cancels := cuts.1
    cases input : (event step l entry).input <;>
      simp_all [Call.cancels, Call.admission?]
  | drained isDeliverable want input =>
    have mode := admits.1
    rw [input] at mode
    cases mode

/-- One operation, from its admission to the next admission of its address: at most
one terminal is delivered and nothing after it, nothing is delivered after a
cancellation, and a completed operation that is wanted at its drain is answered once. -/
theorem one_terminal_per_admission (cap : Nat) (inflightCap totalCap : UInt32)
    (earlier : List (Call K V)) (entry : Call K V) (calls : List (Call K V)) (addr : Addr)
    (admits : Admits addr (event step
      (run step (withLimits cap inflightCap totalCap) earlier) entry))
    (alone : ∀ e ∈ window (run step (withLimits cap inflightCap totalCap) earlier)
      entry calls, ¬ Admits addr e) :
    let past := window (run step (withLimits cap inflightCap totalCap) earlier) entry calls
    (delivered past).countP (fun rec => rec.addr = addr ∧ rec.terminal = true) ≤ 1 ∧
    (∀ xs last ys, delivered past = xs ++ last :: ys → last.addr = addr → last.terminal = true →
      ∀ rec ∈ ys, rec.addr ≠ addr) ∧
    (∀ pre e post, past = pre ++ e :: post → Cuts addr e →
      ∀ rec ∈ delivered post, rec.addr ≠ addr) ∧
    (∀ pre c mid d post isDeliverable want, past = pre ++ c :: (mid ++ d :: post) →
      Completes addr c → (∀ e ∈ pre ++ c :: mid, ¬ Cuts addr e) →
      (∀ e ∈ mid, e.input.isTake = false) → d.input = .takeFor isDeliverable want →
      isDeliverable addr = true →
      (∀ rec ∈ d.before.inner.data ++ d.before.inner.control, rec.addr = addr →
        rec.terminal = true → rec.lane.wanted want = true) →
      (delivered past).countP (fun rec => rec.addr = addr ∧ rec.terminal = true) = 1) ∧
    (∀ (l : Landing K V) (call : Call K V) (a b : Addr),
      call.publication? = some a ∨ call = .cancel a → b ≠ a →
      (l.step call).1.inner.reservation b = l.inner.reservation b ∧
        (l.step call).1.inner.data.filter (fun rec => rec.addr = b) =
          l.inner.data.filter (fun rec => rec.addr = b) ∧
        (l.step call).1.inner.control.filter (fun rec => rec.addr = b) =
          l.inner.control.filter (fun rec => rec.addr = b)) := by
  have h := run_coherent cap inflightCap totalCap earlier
  generalize run step (withLimits cap inflightCap totalCap) earlier = l₀ at *
  intro past
  have h₁ := l₀.step_coherent entry h
  have ended : Ended addr [] (l₀.step entry).1 :=
    ⟨[], fun _ member => absurd member not_mem_nil, .inl rfl⟩
  have whole := ended_run h₁ ended calls alone
  have count : (delivered past).countP (fun rec => rec.addr = addr ∧ rec.terminal = true) =
      ((delivered past).filter (fun rec => rec.addr = addr)).countP (fun rec => rec.terminal) := by
    rw [countP_filter]
    apply countP_congr
    simp [and_comm]
  have most : (delivered past).countP (fun rec => rec.addr = addr ∧ rec.terminal = true) ≤ 1 :=
    count ▸ whole.one_terminal
  refine ⟨most, ?_, ?_, ?_, fun l call a b about apart => l.step_frame about apart⟩
  · intro xs last ys split here done rec member there
    have filtered : (delivered past).filter (fun rec => rec.addr = addr) =
        xs.filter (fun rec => rec.addr = addr) ++ last :: ys.filter (fun rec => rec.addr = addr) := by
      rw [split, filter_append, filter_cons_of_pos (by simpa using here)]
    have rest := whole.terminal_last filtered done
    exact filter_eq_nil_iff.mp rest rec member (decide_eq_true there)
  · intro pre e post split cuts
    obtain ⟨js, i, ks, -, rfl, rfl, rfl⟩ := history_split step split
    have hjs := run_invariant step step_coherent h₁ js
    apply silent_run (step_coherent _ i hjs)
    · exact ((event_slotMove hjs i addr).silenced cuts).1
    · intro e member
      apply alone e
      rw [show window l₀ entry calls = _ from split]
      exact mem_append_right _ (mem_cons_of_mem _ member)
  · intro pre c mid d post isDeliverable want split completes safe untaken drain deliverable wanted
    obtain ⟨js, i, ks, -, rfl, rfl, later⟩ := history_split step split
    obtain ⟨ms, j, ns, -, rfl, rfl, rfl⟩ := history_split step later.symm
    have hjs := run_invariant step step_coherent h₁ js
    have hi := step_coherent _ i hjs
    have hms := run_invariant step step_coherent hi ms
    obtain ⟨stream, opened⟩ := admits_opens h admits
    have uncut : Uncut addr (run step (l₀.step entry).1 js) := by
      apply uncut_run h₁
      · intro r held
        rw [opened] at held
        cases held
        rfl
      · exact fun e member => safe e (mem_append_left _ member)
    obtain ⟨last, done, awaits⟩ := (event_slotMove hjs i addr).completed completes uncut
    have waiting := awaits_run hi awaits ms
      (fun e member => safe e (mem_append_right _ (mem_cons_of_mem _ member))) untaken
    obtain ⟨queued, here⟩ := Inner.mem_recordsOf.mp waiting.2
    have handed := (event_slotMove hms j addr).handed waiting drain deliverable
      (wanted last queued here done)
    have delivered_last : last ∈ delivered past := by
      rw [show past = _ from split]
      exact mem_flatMap.mpr ⟨_, mem_append_right _ (mem_cons_of_mem _
        (mem_append_right _ mem_cons_self)), handed⟩
    apply Nat.le_antisymm most
    apply countP_pos_iff.mpr
    exact ⟨last, delivered_last, decide_eq_true ⟨here, done⟩⟩

/-- A one-shot result put and drained: the whole statement at a concrete run. -/
theorem one_terminal_put_then_drained :
    let addr : Addr := ⟨.session, ⟨1⟩⟩
    (delivered (window (run step (withLimits 4 4 4 : Landing Nat Nat) [])
      (.admitOneShot addr) [.put addr 1 10, .takeFor (fun _ => true) (fun _ => true)])).countP
      (fun rec => rec.addr = addr ∧ rec.terminal = true) = 1 := by
  intro addr
  have all := one_terminal_per_admission 4 4 4 [] (.admitOneShot addr : Call Nat Nat)
    [.put addr 1 10, .takeFor (fun _ => true) (fun _ => true)] addr (by decide) (by decide)
  exact all.2.2.2.1 [] _ [] _ [] (fun _ => true) (fun _ => true) rfl
    ⟨rfl, ⟨false, false, rfl⟩, fun h => by cases h⟩
    (by rintro e member ⟨cancels, -⟩; rw [mem_singleton.mp member] at cancels; cases cancels)
    (fun _ member => absurd member not_mem_nil) rfl rfl
    (fun rec _ _ _ => by cases rec.lane <;> rfl)

end Landing

end PlxNative.Machine
