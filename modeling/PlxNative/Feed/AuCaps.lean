import PlxNative.Feed.AuFifo

/-! The cap of the access-unit queue: how it moves, whom a move wakes, and what it bounds. -/
namespace PlxNative.Feed
open List Transducer

/-- A cap being released lies over the base and no higher than the queue is full. -/
structure Capped (q : AuQueue) : Prop where
  base : q.baseBytes ≤ q.maxBytes
  releasing : q.releasing → q.baseBytes < q.maxBytes ∧ q.maxBytes ≤ q.queuedBytes

/-- A release under way, or one that is over. -/
def AuQueue.Released (q : AuQueue) : Prop := q.releasing ∨ q.maxBytes = q.baseBytes

theorem settle_max (q : AuQueue) : q.settleReleasedCap.maxBytes = max (min q.maxBytes q.queuedBytes) q.baseBytes := rfl

theorem settle_releasing (q : AuQueue) :
    q.settleReleasedCap.releasing = (q.releasing && !(q.settleReleasedCap.maxBytes ≤ q.baseBytes)) := rfl

theorem settle_capped (q : AuQueue) : Capped q.settleReleasedCap where
  base := le_max_right _ _
  releasing := by
    intro set
    rw [settle_releasing, Bool.and_eq_true, Bool.not_eq_true', decide_eq_false_iff_not] at set
    have over_ := Int.not_le.mp set.2
    refine ⟨over_, ?_⟩
    rw [settle_max] at over_ ⊢
    change max (min q.maxBytes q.queuedBytes) q.baseBytes ≤ q.queuedBytes
    omega

variable {q : AuQueue}

theorem settle_falls (base : q.baseBytes ≤ q.maxBytes) : q.settleReleasedCap.maxBytes ≤ q.maxBytes :=
  max_le (min_le_left _ _) base

theorem settle_fits (fits : q.queuedBytes ≤ q.maxBytes) : q.queuedBytes ≤ q.settleReleasedCap.maxBytes := by
  rw [settle_max, min_eq_right fits]
  exact le_max_left _ _

theorem Capped.reached (capped : Capped q) (released : q.Released) (drained : q.queuedBytes ≤ q.baseBytes) :
    q.maxBytes = q.baseBytes := by
  rcases released with releasing | reached
  · obtain ⟨over_, fuller⟩ := capped.releasing releasing
    omega
  · exact reached

theorem settle_released (set : q.releasing) : q.settleReleasedCap.Released := by
  by_cases over_ : q.settleReleasedCap.maxBytes ≤ q.baseBytes
  · exact .inr (le_antisymm over_ (settle_capped q).base)
  · refine .inl ?_
    rw [settle_releasing, set, decide_eq_false over_]
    rfl

def Act.setsHeadroom : Act → Bool
  | .setHeadroom _ => true
  | _ => false

/-- A push that returned zero, and the ceiling it was under at its append. -/
structure Admitted (e : Step) (au : Au) (ceiling : Int) : Prop where
  returned : e.answer.answer = .pushed 0 au
  under : e.before.queue.queuedBytes ≤ ceiling
  which : ceiling = e.before.queue.maxBytes ∨ ∃ p place g, e.before.producer = some (p, place) ∧ p.au = au ∧
    p.gate = some g ∧ ceiling = e.before.queue.baseBytes + max g.headroom 0

structure CapStep (e : Step) : Prop where
  capped : Capped e.after.queue
  base : e.after.queue.baseBytes = e.before.queue.baseBytes
  falls : e.input.setsHeadroom = false → e.after.queue.maxBytes ≤ e.before.queue.maxBytes
  released : e.input.setsHeadroom = false → e.before.queue.Released → e.after.queue.Released
  fits : e.input = .pop ∨ e.input = .releaseHeadroom → e.before.queue.queuedBytes ≤ e.before.queue.maxBytes →
    e.after.queue.queuedBytes ≤ e.after.queue.maxBytes
  woken : e.before.queue.wouldPark = true → e.after.queue.wouldPark = false → e.answer.notFull ≠ .none
  admitted : ∀ au, e.answer.answer = .pushed 0 au → ∃ ceiling, Admitted e au ceiling

variable {s : Lane} {cells : Cells} {act : Act}

theorem CapStep.steady (capped : Capped s.queue) {queuedBytes : Int} {head tail : Option Nat} {eof : Bool}
    (queue : (s.step act).1.queue = { s.queue with head, tail, queuedBytes, eof })
    (grows : s.queue.queuedBytes ≤ queuedBytes) (other : act ≠ .pop ∧ act ≠ .releaseHeadroom)
    (admitted : ∀ au, (s.step act).2.answer = .pushed 0 au → ∃ ceiling, Admitted (event Lane.step s act) au ceiling) :
    CapStep (event Lane.step s act) := by
  have after : (event Lane.step s act).after.queue = { s.queue with head, tail, queuedBytes, eof } := queue
  constructor
  case capped =>
    rw [after]
    exact ⟨capped.base, fun set => ⟨(capped.releasing set).1, (capped.releasing set).2.trans grows⟩⟩
  case base => rw [after]; rfl
  case falls =>
    intro _
    rw [after]
    exact le_refl _
  case released =>
    intro _ released
    rw [after]
    exact released
  case fits => exact fun called => called.elim (absurd · other.1) (absurd · other.2)
  case woken =>
    intro parks free
    rw [after] at free
    have over_ := (wouldPark_iff s.queue).mp parks
    have still : AuQueue.wouldPark { s.queue with head, tail, queuedBytes, eof } = true :=
      (wouldPark_iff _).mpr ⟨over_.1.trans_le grows, over_.2⟩
    rw [still] at free
    cases free
  case admitted => exact admitted

theorem append_queue (s : Lane) (p : Push) : (s.append p).1.queue =
    { s.queue with
      head := if s.queue.tail.isNone then some p.node else s.queue.head
      tail := some p.node
      queuedBytes := s.queue.queuedBytes + p.au.len } := by
  unfold Lane.append
  cases s.queue.tail <;> rfl

theorem append_answer (s : Lane) (p : Push) : (s.append p).2.answer = .pushed 0 p.au := by
  cases s.queue.tail <;> rfl

theorem proceed_caps (holds : Holds s cells) (capped : Capped s.queue) (span : Int) (keepPolling : Bool) :
    CapStep (event Lane.step s (.proceed span keepPolling)) := by
  cases held : s.producer with
  | none =>
    have nothing : s.step (.proceed span keepPolling) = (s, {}) := proceed_idle held span keepPolling
    refine .steady capped (congrArg (fun r => r.1.queue) nothing) (le_refl _) ⟨nofun, nofun⟩ fun au answered => ?_
    rw [nothing] at answered
    cases answered
  | some way =>
    obtain ⟨p, place⟩ := way
    have ends := proceed_ends held span keepPolling
    generalize ended : s.proceed span keepPolling = result at ends
    have result_eq : s.step (.proceed span keepPolling) = result := ended
    cases ends with
    | parked place' =>
      refine .steady capped (congrArg (fun r => r.1.queue) result_eq) (le_refl _) ⟨nofun, nofun⟩ fun au answered => ?_
      rw [result_eq] at answered
      cases answered
    | refused code failed =>
      refine .steady capped (congrArg (fun r => r.1.queue) result_eq) (le_refl _) ⟨nofun, nofun⟩ fun au answered => ?_
      rw [result_eq] at answered
      exact absurd (Answer.pushed.inj answered).1 failed
    | entered running admitted =>
      have sized := (holds.pending p place held).2.2.2
      refine .steady capped ((congrArg (fun r => r.1.queue) result_eq).trans (append_queue s p)) (by omega) ⟨nofun, nofun⟩
        fun au answered => ?_
      rw [result_eq, append_answer] at answered
      cases answered
      have returned : (event Lane.step s (.proceed span keepPolling)).answer.answer = .pushed 0 p.au :=
        (congrArg (fun r => r.2.answer) result_eq).trans (append_answer s p)
      rcases admitted with under | ⟨g, gate, under⟩
      · exact ⟨_, returned, under, .inl rfl⟩
      · exact ⟨_, returned, under, .inr ⟨p, place, g, held, rfl, gate, rfl⟩⟩

theorem popped_caps (capped : Capped q) {t : AuQueue} (base : t.baseBytes = q.baseBytes)
    (cap : t.maxBytes = q.maxBytes) (releasing : t.releasing = q.releasing) (falls : t.queuedBytes ≤ q.queuedBytes) :
    let settled := if t.releasing then t.settleReleasedCap else t
    Capped settled ∧ settled.maxBytes ≤ q.maxBytes ∧ (q.Released → settled.Released) ∧
      (q.queuedBytes ≤ q.maxBytes → settled.queuedBytes ≤ settled.maxBytes) := by
  have over_ : t.baseBytes ≤ t.maxBytes := by
    rw [base, cap]
    exact capped.base
  intro settled
  by_cases set : t.releasing
  · have settled_eq : settled = t.settleReleasedCap := if_pos set
    rw [settled_eq]
    refine ⟨settle_capped t, cap ▸ settle_falls over_, fun _ => settle_released set, fun fits => ?_⟩
    exact settle_fits (by omega)
  · have settled_eq : settled = t := if_neg set
    rw [settled_eq]
    refine ⟨⟨over_, fun other => absurd other set⟩, le_of_eq cap, fun released => ?_, fun fits => by omega⟩
    rcases released with other | reached
    · exact absurd (releasing.trans other) set
    · exact .inr (cap.trans (reached.trans base.symm))

theorem pop_caps (holds : Holds s cells) (capped : Capped s.queue) : CapStep (event Lane.step s .pop) := by
  have result : s.step .pop = popResult s cells := pop_eq holds
  have after : (event Lane.step s .pop).after = (popResult s cells).1 := congrArg Prod.fst result
  have answer : (event Lane.step s .pop).answer = (popResult s cells).2 := congrArg Prod.snd result
  cases cells with
  | nil =>
    have eq : (event Lane.step s .pop).after = s := after
    constructor
    case capped =>
      rw [eq]
      exact capped
    case base => rw [eq]; rfl
    case falls =>
      intro _
      rw [eq]
      exact le_refl _
    case released =>
      intro _ released
      rw [eq]
      exact released
    case fits =>
      intro _ fits
      rw [eq]
      exact fits
    case woken =>
      intro parks free
      rw [eq] at free
      cases parks.symm.trans free
    case admitted =>
      intro au answered
      rw [answer] at answered
      cases answered
  | cons cell rest =>
    obtain ⟨n, au⟩ := cell
    have sized : 0 ≤ au.len := holds.sized au mem_cons_self
    obtain ⟨capped', falls, released, fits⟩ :=
      popped_caps capped (t := s.queue.unlinked ⟨(Cells.nodes rest).head?, au⟩) rfl rfl rfl (Int.sub_le_self _ sized)
    constructor
    case capped => exact after ▸ capped'
    case base =>
      rw [after]
      obtain ⟨maxBytes, releasing, settled⟩ := settled_same s.queue ⟨(Cells.nodes rest).head?, au⟩
      simp only [popResult, settled]
      rfl
    case falls => exact fun _ => after ▸ falls
    case released => exact fun _ before => after ▸ released before
    case fits => exact fun _ before => after ▸ fits before
    case woken =>
      intro _ _
      rw [answer]
      rintro ⟨⟩
    case admitted =>
      intro au answered
      rw [answer] at answered
      cases answered

theorem setHeadroom_caps (s : Lane) (extra : Int) : CapStep (event Lane.step s (.setHeadroom extra)) := by
  constructor
  case capped => exact ⟨Int.le_add_of_nonneg_right (le_max_right _ _), nofun⟩
  case base => rfl
  case falls => exact nofun
  case released => exact nofun
  case fits => exact fun called => called.elim nofun nofun
  case woken =>
    intro parks free
    change (if s.queue.maxBytes < (s.queue.setHeadroom extra).maxBytes then Wake.broadcast else .none) ≠ _
    split
    case isTrue => nofun
    case isFalse lower =>
      obtain ⟨over_, running⟩ := (wouldPark_iff s.queue).mp parks
      have still : (s.queue.setHeadroom extra).wouldPark = true :=
        (wouldPark_iff _).mpr ⟨(Int.not_lt.mp lower).trans_lt over_, running⟩
      exact absurd (still.symm.trans free) nofun
  case admitted => exact fun au answered => nomatch answered

theorem releaseHeadroom_caps (capped : Capped s.queue) : CapStep (event Lane.step s .releaseHeadroom) := by
  have falls : s.queue.releaseHeadroom.maxBytes ≤ s.queue.maxBytes := settle_falls (q := { s.queue with releasing := true }) capped.base
  constructor
  case capped => exact settle_capped _
  case base => rfl
  case falls => exact fun _ => falls
  case released => exact fun _ _ => settle_released rfl
  case fits => exact fun _ fits => settle_fits (q := { s.queue with releasing := true }) fits
  case woken =>
    intro parks free
    obtain ⟨over_, running⟩ := (wouldPark_iff s.queue).mp parks
    have still : s.queue.releaseHeadroom.wouldPark = true := (wouldPark_iff _).mpr ⟨falls.trans_lt over_, running⟩
    exact absurd (still.symm.trans free) nofun
  case admitted => exact fun au answered => nomatch answered

theorem abort_caps (capped : Capped s.queue) : CapStep (event Lane.step s .abort) where
  capped := ⟨capped.base, capped.releasing⟩
  base := rfl
  falls := fun _ => le_refl _
  released := fun _ released => released
  fits := fun called => called.elim nofun nofun
  woken := fun _ _ => nofun
  admitted := fun _ answered => nomatch answered

theorem push_answer (s : Lane) (au : Au) (drain : Bool) (gate : Option PushGate) (node : Option Nat) :
    (s.push au drain gate node).2.answer = .none ∨ (s.push au drain gate node).2.answer = .pushed (-1) au := by
  unfold Lane.push
  split
  · exact .inl rfl
  split
  · exact .inr rfl
  split
  · exact .inr rfl
  · split <;> exact .inl rfl

theorem free_rest (s : Lane) (node : Nat) : (s.free node).1.queue = s.queue ∧ (s.free node).2.answer = .none := by
  unfold Lane.free
  split <;> exact ⟨rfl, rfl⟩

theorem step_caps (holds : Holds s cells) (capped : Capped s.queue) (act : Act) : CapStep (event Lane.step s act) := by
  cases act with
  | push au drain gate node =>
    refine .steady capped (push_queue s au drain gate node) (le_refl _) ⟨nofun, nofun⟩ fun _ answered => ?_
    change (s.push au drain gate node).2.answer = _ at answered
    rcases push_answer s au drain gate node with nothing | failed
    · rw [nothing] at answered
      cases answered
    · rw [failed] at answered
      cases answered
  | proceed span keepPolling => exact proceed_caps holds capped span keepPolling
  | pop => exact pop_caps holds capped
  | free node =>
    obtain ⟨queue, nothing⟩ := free_rest s node
    exact .steady capped queue (le_refl _) ⟨nofun, nofun⟩ fun au answered => nomatch nothing.symm.trans answered
  | setEof => exact .steady capped rfl (le_refl _) ⟨nofun, nofun⟩ fun _ answered => nomatch answered
  | abort => exact abort_caps capped
  | ifNotAborted => exact .steady capped rfl (le_refl _) ⟨nofun, nofun⟩ fun _ answered => nomatch answered
  | setHeadroom extra => exact setHeadroom_caps s extra
  | releaseHeadroom => exact releaseHeadroom_caps capped

theorem entered_or_left (o : Outcome) : o.entered = [] ∨ o.left = [] := by
  unfold Outcome.entered Outcome.left
  cases o.answer with
  | none => exact .inl rfl
  | pushed code au => exact .inr rfl
  | popped au eofOut => exact .inl rfl
  | ran did => exact .inl rfl

theorem occupancy_step (holds : Holds s cells) (act : Act) :
    (s.step act).1.queue.queuedBytes ≤ s.queue.queuedBytes + lens (s.step act).2.entered := by
  obtain ⟨cells', holds', moves⟩ := holds.step act
  have balance : lens cells.aus + lens (s.step act).2.entered = lens (s.step act).2.left + lens cells'.aus := by
    have eq := congrArg lens moves.conserved
    rw [lens, lens, map_append, map_append, sum_append, sum_append] at eq
    exact eq
  have out : 0 ≤ lens (s.step act).2.left := by
    rcases entered_or_left (s.step act).2 with nothing | nothing
    · have eq := moves.conserved
      rw [nothing, append_nil] at eq
      exact lens_nonneg fun au mem => holds.sized au (eq ▸ mem_append_left _ mem)
    · rw [nothing]
      exact le_refl 0
  rw [holds.bytes, holds'.bytes]
  omega

/-- The occupancy of a run is under the ceiling of one of its pushes and that push's access unit. -/
def Bounded (past : List Step) (s : Lane) : Prop :=
  s.queue.queuedBytes = 0 ∨ ∃ e ∈ past, ∃ au ceiling, Admitted e au ceiling ∧ s.queue.queuedBytes ≤ ceiling + au.len

theorem entered_eq {o : Outcome} : o.entered = [] ∨ ∃ au, o.answer = .pushed 0 au ∧ o.entered = [au] := by
  unfold Outcome.entered
  split
  next au returned => exact .inr ⟨au, returned, rfl⟩
  · exact .inl rfl

variable {past : List Step}

theorem Bounded.step (bounded : Bounded past s) (holds : Holds s cells) (act : Act)
    (caps : CapStep (event Lane.step s act)) : Bounded (past ++ [event Lane.step s act]) (s.step act).1 := by
  have grows := occupancy_step holds act
  rcases entered_eq (o := (s.step act).2) with nothing | ⟨au, returned, entered⟩
  · rw [nothing] at grows
    change _ ≤ _ + 0 at grows
    rcases bounded with empty | ⟨e, mem, au, ceiling, admitted, under⟩
    · obtain ⟨cells', holds', -⟩ := holds.step act
      have nonneg : 0 ≤ (s.step act).1.queue.queuedBytes := holds'.bytes ▸ lens_nonneg holds'.sized
      exact .inl (by omega)
    · exact .inr ⟨e, mem_append_left _ mem, au, ceiling, admitted, by omega⟩
  · rw [entered] at grows
    obtain ⟨ceiling, admitted⟩ := caps.admitted au returned
    have under : s.queue.queuedBytes ≤ ceiling := admitted.under
    change _ ≤ _ + (au.len + 0) at grows
    exact .inr ⟨_, mem_append_right _ (mem_singleton_self _), au, ceiling, admitted, by omega⟩

/-- Where a release stands behind the events that followed it. -/
def Releasing (past : List Step) (s : Lane) : Prop :=
  ∀ earlier r later, past = earlier ++ r :: later → r.input = .releaseHeadroom →
    (∀ e ∈ later, e.input.setsHeadroom = false) → s.queue.Released ∧ ∀ e ∈ later, e.before.queue.Released

theorem Releasing.step (releasing : Releasing past s) (act : Act) (caps : CapStep (event Lane.step s act)) :
    Releasing (past ++ [event Lane.step s act]) (s.step act).1 := by
  intro earlier r later split called kept
  rcases eq_nil_or_concat' later with rfl | ⟨before, last, rfl⟩
  · cases (append_inj' split rfl).2
    subst called
    exact ⟨settle_released rfl, fun e mem => absurd mem not_mem_nil⟩
  · have split' : past ++ [event Lane.step s act] = (earlier ++ r :: before) ++ [last] := by
      rw [split, append_assoc, cons_append]
    obtain ⟨eq, single⟩ := append_inj' split' rfl
    cases single
    obtain ⟨now, each⟩ := releasing earlier r before eq called fun e mem => kept e (mem_append_left _ mem)
    refine ⟨caps.released (kept _ (mem_append_right _ (mem_singleton_self _))) now, fun e mem => ?_⟩
    rcases mem_append.mp mem with old | new
    · exact each e old
    · rw [mem_singleton.mp new]
      exact now

/-- Everything the caps promise of a run and the state it reached. -/
structure Caps (past : List Step) (s : Lane) : Prop where
  base : s.queue.baseBytes ≤ s.queue.maxBytes
  releasing : s.queue.releasing → s.queue.baseBytes < s.queue.maxBytes
  release : ∀ earlier r later, past = earlier ++ r :: later → r.input = .releaseHeadroom →
    (∀ e ∈ later, e.input.setsHeadroom = false) →
    ∀ e ∈ later, e.after.queue.maxBytes ≤ e.before.queue.maxBytes ∧
      (e.input = .pop → e.after.queue.queuedBytes ≤ e.after.queue.baseBytes → e.after.queue.maxBytes = e.after.queue.baseBytes)
  fits : ∀ e ∈ past, e.input = .pop ∨ e.input = .releaseHeadroom → e.before.queue.queuedBytes ≤ e.before.queue.maxBytes →
    e.after.queue.queuedBytes ≤ e.after.queue.maxBytes
  woken : ∀ e ∈ past, e.before.queue.wouldPark = true → e.after.queue.wouldPark = false → e.answer.notFull ≠ .none
  admitted : ∀ e ∈ past, ∀ au, e.answer.answer = .pushed 0 au → ∃ ceiling, Admitted e au ceiling
  occupancy : Bounded past s

/-- What a run keeps, from which its caps follow. -/
structure CapAccount (past : List Step) (s : Lane) : Prop where
  holds : ∃ cells, Holds s cells
  capped : Capped s.queue
  events : ∀ e ∈ past, CapStep e
  releasing : Releasing past s
  bounded : Bounded past s

theorem CapAccount.step (account : CapAccount past s) (act : Act) :
    CapAccount (past ++ [event Lane.step s act]) (s.step act).1 := by
  obtain ⟨cells, holds⟩ := account.holds
  have caps := step_caps holds account.capped act
  constructor
  case holds => exact (holds.step act).imp fun _ both => both.1
  case capped => exact caps.capped
  case events =>
    exact forall_mem_append.mpr ⟨account.events, forall_mem_singleton.mpr caps⟩
  case releasing => exact account.releasing.step act caps
  case bounded => exact account.bounded.step holds act caps

theorem queue_caps (cap : Int) (acts : List Act) :
    Caps (history Lane.step (.new cap) acts) (run Lane.step (.new cap) acts) := by
  have start : CapAccount [] (.new cap) := by
    constructor
    case holds => exact ⟨[], holds_new cap⟩
    case capped => exact ⟨le_refl cap, nofun⟩
    case events => exact fun e member => absurd member not_mem_nil
    case releasing =>
      intro earlier r later split
      cases earlier <;> cases split
    case bounded => exact .inl rfl
  have account := history_invariant Lane.step (fun past s act account => account.step act) start acts
  constructor
  case base => exact account.capped.base
  case releasing => exact fun set => (account.capped.releasing set).1
  case release =>
    intro earlier r later split called kept e member
    have caps := account.events e (split ▸ mem_append_right _ (mem_cons_of_mem _ member))
    have before := (account.releasing earlier r later split called kept).2 e member
    exact ⟨caps.falls (kept e member), fun _ drained => caps.capped.reached (caps.released (kept e member) before) drained⟩
  case fits => exact fun e member => (account.events e member).fits
  case woken => exact fun e member => (account.events e member).woken
  case admitted => exact fun e member => (account.events e member).admitted
  case occupancy => exact account.bounded

end PlxNative.Feed
