import PlxNative.Machine.LandGate

/-! A replay consumes no landing before its recorded frame and accounts for every one. -/
namespace PlxNative.Machine
open List Transducer Function

variable {α : Type}

/-- One answer after another, as the polls of a slot find them. -/
def slotPoll : List (Option α) → Option α × List (Option α)
  | [] => (none, [])
  | answer :: rest => (answer, rest)

def queuePoll : List (List α) → List α × List (List α)
  | [] => ([], [])
  | answers :: rest => (answers, rest)

/-- A call on the gate, a take with what its mailbox would answer poll after poll. -/
inductive GateCall (α : Type)
  | beginFrame (f : Nat)
  | take (ord : StoreOrd) (polls : List (Option α))
  | takeAll (ord : StoreOrd) (polls : List (List α))
  | held (ord : StoreOrd)
  | takeDiffs

inductive GateReply (α : Type)
  | none
  | took (answers : List α)
  | panicked (why : Panic)
  | held (answer : Bool)
  | diffs (drained : List (Nat × StoreOrd × Diff))

def Gate.step (g : Gate α) : GateCall α → Gate α × GateReply α
  | .beginFrame f => (g.beginFrame f, .none)
  | .take ord polls => match g.take ord slotPoll polls with
    | .ok (got, g, _) => (g, .took got.toList)
    | .error why => (g, .panicked why)
  | .takeAll ord polls => match g.takeAll ord queuePoll polls with
    | .ok (got, g, _) => (g, .took got)
    | .error why => (g, .panicked why)
  | .held ord => ((g.held ord).2, .held (g.held ord).1)
  | .takeDiffs => (g.takeDiffs.2, .diffs g.takeDiffs.1)

def GateCall.store : GateCall α → Option StoreOrd
  | .take ord _ => some ord
  | .takeAll ord _ => some ord
  | _ => .none

def GateCall.frame : GateCall α → Option Nat
  | .beginFrame f => some f
  | _ => .none

def GateReply.answers : GateReply α → List α
  | .took answers => answers
  | _ => []

/-- What a take of a store does to an armed replay: nothing but its wait budget, or one landing,
and that not before its recorded frame. -/
inductive Takes (g : Gate α) (ord : StoreOrd) : Bool → Gate α → Prop
  | nothing (waited : List StoreOrd) : Takes g ord false { g with waited }
  | lands (waited : List StoreOrd) (due : ∀ entry ∈ (g.sched ord).head?, entry.1 ≤ g.frame) :
      Takes g ord true ({ g with waited }.landed ord)

structure Replays (g : Gate α) : Prop where
  armed : g.armed = true
  mode : g.mode = .replaying

variable {g : Gate α} {ord : StoreOrd} {W : Type}

theorem Replays.phase_eq (replays : Replays g) (ord : StoreOrd) : g.phase ord = match g.sched ord with
    | [] => (.free, g)
    | (recorded, _) :: _ =>
      if g.frame < recorded then (.hold, g)
      else if recorded = g.frame then
        if ord ∈ g.waited then (.free, g) else (.due, { g with waited := ord :: g.waited })
      else (.free, g) := by
  have armed : ¬(!g.armed) = true := by simp [replays.armed]
  exact (if_neg armed).trans (if_neg (not_not_intro replays.mode))

theorem Replays.phase (replays : Replays g) (ord : StoreOrd) : ∃ waited, (g.phase ord).2 = { g with waited } ∧
    ((g.phase ord).1 ≠ .hold → ∀ entry ∈ (g.sched ord).head?, entry.1 ≤ g.frame) := by
  rw [replays.phase_eq]
  split
  next sched =>
    rw [sched]
    exact ⟨g.waited, rfl, fun _ entry mem => nomatch mem⟩
  next recorded left rest sched =>
    rw [sched]
    split
    case isTrue => exact ⟨g.waited, rfl, fun free => absurd rfl free⟩
    case isFalse early =>
      have due : ∀ entry ∈ ((recorded, left) :: rest).head?, entry.1 ≤ g.frame := by
        rintro entry ⟨⟩
        exact Nat.not_lt.mp early
      split
      · split
        · exact ⟨g.waited, rfl, fun _ => due⟩
        · exact ⟨_, rfl, fun _ => due⟩
      · exact ⟨g.waited, rfl, fun _ => due⟩

theorem Replays.notePlainTake (replays : Replays g) (ord : StoreOrd) : g.notePlainTake ord = .ok g := by
  unfold Gate.notePlainTake
  rw [replays.mode]

/-- What a mailbox answers a take that the gate does not hold. -/
def Phase.polled {T : Type} (phase : Phase) (f : W → Option T × W) (w : W) : Option T × W :=
  if phase = .due then waitFor f waitPolls w else f w

variable {T : Type}

theorem Replays.take_eq (replays : Replays g) (ord : StoreOrd) (f : W → Option T × W) (w : W) :
    g.take ord f w = .ok (if (g.phase ord).1 = .hold then (none, (g.phase ord).2, w) else
      (((g.phase ord).1.polled f w).1,
        if ((g.phase ord).1.polled f w).1.isSome then (g.phase ord).2.landed ord else (g.phase ord).2,
        ((g.phase ord).1.polled f w).2)) := by
  unfold Gate.take
  rw [replays.notePlainTake, replays.armed]
  by_cases hold : (g.phase ord).1 = .hold
  · simp only [Bool.not_true, bind, Except.bind, hold]
    rfl
  · simp only [Bool.not_true, bind, Except.bind, hold]
    rfl

theorem nonempty_eq (f : W → List T × W) (w : W) : ((Gate.nonempty f w).1.getD [], (Gate.nonempty f w).2) = f w := by
  unfold Gate.nonempty
  split
  next empty =>
    rw [List.isEmpty_iff] at empty
    exact Prod.ext empty.symm rfl
  · rfl

theorem waitFor_nonempty (f : W → List T × W) (polls : Nat) (w : W) :
    ∀ v ∈ (waitFor (Gate.nonempty f) polls w).1, v.isEmpty = false := by
  induction polls generalizing w with
  | zero => exact fun v mem => nomatch mem
  | succ polls ih =>
    intro v mem
    unfold waitFor at mem
    split at mem
    next v' w' answered =>
      cases mem
      unfold Gate.nonempty at answered
      split at answered
      · cases answered
      next full =>
        cases answered
        exact Bool.eq_false_iff.mpr full
    · exact ih _ v mem

theorem Phase.polled_nonempty (phase : Phase) (f : W → List T × W) (w : W) :
    ((phase.polled (Gate.nonempty f) w).1.getD []).isEmpty = !(phase.polled (Gate.nonempty f) w).1.isSome := by
  unfold Phase.polled
  split
  · cases answered : (waitFor (Gate.nonempty f) waitPolls w).1 with
    | none => rfl
    | some v => exact waitFor_nonempty f waitPolls w v answered
  · unfold Gate.nonempty
    cases empty : (f w).1.isEmpty with
    | true => rfl
    | false => exact empty

theorem Replays.takeAll_eq (replays : Replays g) (ord : StoreOrd) (f : W → List T × W) (w : W) :
    g.takeAll ord f w = .ok (if (g.phase ord).1 = .hold then ([], (g.phase ord).2, w) else
      (((g.phase ord).1.polled (Gate.nonempty f) w).1.getD [],
        if ((g.phase ord).1.polled (Gate.nonempty f) w).1.isSome then (g.phase ord).2.landed ord else (g.phase ord).2,
        ((g.phase ord).1.polled (Gate.nonempty f) w).2)) := by
  have drained : (if (g.phase ord).1 = .due
      then ((waitFor (Gate.nonempty f) waitPolls w).1.getD [], (waitFor (Gate.nonempty f) waitPolls w).2) else f w) =
      (((g.phase ord).1.polled (Gate.nonempty f) w).1.getD [], ((g.phase ord).1.polled (Gate.nonempty f) w).2) := by
    unfold Phase.polled
    split
    · rfl
    · exact (nonempty_eq f w).symm
  have empty := (g.phase ord).1.polled_nonempty f w
  unfold Gate.takeAll
  rw [replays.notePlainTake, replays.armed]
  by_cases hold : (g.phase ord).1 = .hold
  · simp only [Bool.not_true, bind, Except.bind, hold]
    rfl
  · simp only [Bool.not_true, bind, Except.bind, hold, drained, empty]
    cases ((g.phase ord).1.polled (Gate.nonempty f) w).1.isSome <;> rfl

theorem Takes.of_poll (replays : Replays g) (ord : StoreOrd) (hold : (g.phase ord).1 ≠ .hold) (answered : Bool) :
    Takes g ord answered (if answered then (g.phase ord).2.landed ord else (g.phase ord).2) := by
  obtain ⟨waited, eq, due⟩ := replays.phase ord
  rw [eq]
  cases answered with
  | false => exact .nothing waited
  | true => exact .lands waited (due hold)

/-- One call on a replay: a take of a store, or a call that lands nothing. -/
inductive Stepped (g : Gate α) (c : GateCall α) : Gate α × GateReply α → Prop
  | took (ord : StoreOrd) (store : c.store = some ord) {g' : Gate α} (answers : List α)
      (takes : Takes g ord (!answers.isEmpty) g') : Stepped g c (g', .took answers)
  | framed (f : Nat) (input : c = .beginFrame f) : Stepped g c ({ g with frame := f, lands := fun _ => 0, waited := [] }, .none)
  | asked (waited : List StoreOrd) (answer : Bool) (store : c.store = none) (frame : c.frame = none) :
      Stepped g c ({ g with waited }, .held answer)
  | drained (input : c = .takeDiffs) : Stepped g c ({ g with diffs := [] }, .diffs g.diffs)

theorem Replays.stepped (replays : Replays g) (c : GateCall α) : Stepped g c (g.step c) := by
  cases c with
  | beginFrame f =>
    have begun : g.step (.beginFrame f) = ({ g with frame := f, lands := fun _ => 0, waited := [] }, .none) := by
      change (g.beginFrame f, _) = _
      unfold Gate.beginFrame
      rw [if_pos replays.armed]
    exact begun ▸ .framed f rfl
  | take ord polls =>
    unfold Gate.step
    simp only [replays.take_eq]
    by_cases hold : (g.phase ord).1 = .hold
    · simp only [hold]
      obtain ⟨waited, eq, -⟩ := replays.phase ord
      exact .took ord rfl [] (eq ▸ .nothing waited)
    · simp only [hold]
      refine .took ord rfl _ ?_
      have takes := Takes.of_poll replays ord hold ((g.phase ord).1.polled slotPoll polls).1.isSome
      generalize ((g.phase ord).1.polled slotPoll polls).1 = got at takes ⊢
      cases got <;> exact takes
  | takeAll ord polls =>
    unfold Gate.step
    simp only [replays.takeAll_eq]
    by_cases hold : (g.phase ord).1 = .hold
    · simp only [hold]
      obtain ⟨waited, eq, -⟩ := replays.phase ord
      exact .took ord rfl [] (eq ▸ .nothing waited)
    · simp only [hold, if_false]
      refine .took ord rfl _ ?_
      rw [(g.phase ord).1.polled_nonempty, Bool.not_not]
      exact Takes.of_poll replays ord hold _
  | held ord =>
    obtain ⟨waited, eq, -⟩ := replays.phase ord
    have asked : g.step (.held ord) = ({ g with waited }, .held (g.held ord).1) := by
      change ((g.phase ord).2, _) = _
      rw [eq]
    exact asked ▸ .asked waited _ rfl rfl
  | takeDiffs =>
    have drained : g.step .takeDiffs = ({ g with diffs := [] }, .diffs g.diffs) := by
      change (g.takeDiffs.2, GateReply.diffs g.takeDiffs.1) = _
      unfold Gate.takeDiffs
      rw [if_pos replays.armed]
    exact drained ▸ .drained rfl

/-- The mismatch buffer with one more, as long as it has room. -/
def noted (diffs : List (Nat × StoreOrd × Diff)) (diff : Nat × StoreOrd × Diff) : List (Nat × StoreOrd × Diff) :=
  if diffs.length < maxDiffs then diffs ++ [diff] else diffs

theorem noteDiff_eq (g : Gate α) (ord : StoreOrd) (why : Diff) :
    g.noteDiff ord why = { g with diffs := noted g.diffs (g.frame, ord, why) } := by
  unfold Gate.noteDiff noted
  split <;> rfl

theorem Replays.landed (replays : Replays g) (ord : StoreOrd) : g.landed ord =
    { g with
      sched := Function.update g.sched ord (Gate.spend (g.sched ord))
      diffs := match g.why ord with
        | some why => noted g.diffs (g.frame, ord, why)
        | none => g.diffs } := by
  have armed : ¬(!g.armed) = true := by simp [replays.armed]
  unfold Gate.landed
  rw [if_neg armed]
  split
  next mode => exact absurd (mode.symm.trans replays.mode) nofun
  next mode => exact absurd (mode.symm.trans replays.mode) nofun
  next mode => exact absurd (mode.symm.trans replays.mode) nofun
  next =>
    cases g.why ord with
    | none => rfl
    | some why => exact noteDiff_eq ..

/-- The landings recorded on the frames that pass. -/
def recorded (passes : Nat → Bool) (queue : List (Nat × Nat)) : Nat :=
  ((queue.filter fun entry => passes entry.1).map Prod.snd).sum

theorem recorded_cons (passes : Nat → Bool) (entry : Nat × Nat) (rest : List (Nat × Nat)) :
    recorded passes (entry :: rest) = (if passes entry.1 then entry.2 else 0) + recorded passes rest := by
  unfold recorded
  rw [filter_cons]
  split
  · rw [map_cons, sum_cons]
  · rw [Nat.zero_add]

theorem recorded_spend (passes : Nat → Bool) {entry : Nat × Nat} (rest : List (Nat × Nat)) (open_ : passes entry.1 = true)
    (positive : 0 < entry.2) : recorded passes (Gate.spend (entry :: rest)) + 1 = recorded passes (entry :: rest) := by
  obtain ⟨frame, left⟩ := entry
  rw [recorded_cons, if_pos open_]
  change recorded passes (if left - 1 = 0 then rest else (frame, left - 1) :: rest) + 1 = left + _
  split
  · omega
  · rw [recorded_cons, if_pos open_]
    omega

theorem spend_positive {queue : List (Nat × Nat)} (positive : ∀ entry ∈ queue, 0 < entry.2) :
    ∀ entry ∈ Gate.spend queue, 0 < entry.2 := by
  cases queue with
  | nil => exact positive
  | cons first rest =>
    obtain ⟨frame, left⟩ := first
    change ∀ entry ∈ (if left - 1 = 0 then rest else (frame, left - 1) :: rest), _
    intro entry mem
    split at mem
    · exact positive entry (mem_cons_of_mem _ mem)
    · rcases mem_cons.mp mem with rfl | mem
      · omega
      · exact positive entry (mem_cons_of_mem _ mem)

abbrev GateEvent (α : Type) : Type := Event (Gate α) (GateCall α) (GateReply α)

/-- Did this event consume a landing of the store? -/
def consumed (ord : StoreOrd) (e : GateEvent α) : Bool := e.input.store = some ord && !e.answer.answers.isEmpty

def consumedAs (ord : StoreOrd) (verdict : Option Diff) (e : GateEvent α) : Bool :=
  consumed ord e && e.before.why ord = verdict

/-- A replay's schedule: the frames of a store ascend and every count is positive. -/
structure Schedule where
  queue : StoreOrd → List (Nat × Nat)
  ascends : ∀ ord, (queue ord).Pairwise fun a b => a.1 < b.1
  positive : ∀ ord, ∀ entry ∈ queue ord, 0 < entry.2

/-- What the events of a replay account for in the gate they reached. -/
structure ReplayAccount (schedule : Schedule) (past : List (GateEvent α)) (g : Gate α) : Prop where
  replays : Replays g
  positive : ∀ ord, ∀ entry ∈ g.sched ord, 0 < entry.2
  balance : ∀ ord passes, (∀ f ≤ g.frame, passes f = true) →
    past.countP (consumedAs ord none) + past.countP (consumedAs ord (some .late)) + recorded passes (g.sched ord) =
      recorded passes (schedule.queue ord)
  extra : ∀ ord, g.sched ord ≠ [] → past.countP (consumedAs ord (some .extra)) = 0

theorem countP_snoc {β : Type} (p : β → Bool) (past : List β) (e : β) :
    (past ++ [e]).countP p = past.countP p + if p e = true then 1 else 0 := by
  rw [countP_append, countP_singleton]

variable {schedule : Schedule} {past : List (GateEvent α)}

section
variable (account : ReplayAccount schedule past g)
include account

variable {e : GateEvent α} {g' : Gate α}

theorem ReplayAccount.still (nothing : ∀ ord, consumed ord e = false)
    (replays : Replays g') (sched : g'.sched = g.sched) (frame : g.frame ≤ g'.frame) :
    ReplayAccount schedule (past ++ [e]) g' := by
  have eq : ∀ ord verdict, (past ++ [e]).countP (consumedAs ord verdict) = past.countP (consumedAs ord verdict) := by
    intro ord verdict
    have quiet : consumedAs ord verdict e = false := by
      unfold consumedAs
      rw [nothing ord, Bool.false_and]
    rw [countP_snoc, quiet]
    rfl
  constructor
  case replays => exact replays
  case positive => exact sched ▸ account.positive
  case balance =>
    intro ord passes open_
    rw [eq, eq, sched]
    exact account.balance ord passes fun f below => open_ f (below.trans frame)
  case extra =>
    intro ord left
    rw [eq]
    exact account.extra ord (sched ▸ left)

theorem ReplayAccount.landed (before : e.before = g)
    (landing : ∀ ord', consumed ord' e = decide (ord' = ord)) (due : ∀ entry ∈ (g.sched ord).head?, entry.1 ≤ g.frame)
    (replays : Replays g') (sched : g'.sched = Function.update g.sched ord (Gate.spend (g.sched ord)))
    (frame : g'.frame = g.frame) : ReplayAccount schedule (past ++ [e]) g' := by
  have counted : ∀ ord' verdict, (past ++ [e]).countP (consumedAs ord' verdict) =
      past.countP (consumedAs ord' verdict) + if ord' = ord ∧ g.why ord = verdict then 1 else 0 := by
    intro ord' verdict
    rw [countP_snoc]
    unfold consumedAs
    rw [landing ord', before]
    by_cases eq : ord' = ord
    · subst eq
      simp
    · simp [eq]
  constructor
  case replays => exact replays
  case positive =>
    intro ord' entry mem
    rw [sched] at mem
    by_cases eq : ord' = ord
    · subst eq
      rw [update_self] at mem
      exact spend_positive (account.positive ord') entry mem
    · rw [update_of_ne eq] at mem
      exact account.positive ord' entry mem
  case balance =>
    intro ord' passes open_
    rw [frame] at open_
    have held := account.balance ord' passes open_
    rw [counted, counted, sched]
    by_cases eq : ord' = ord
    · subst eq
      rw [update_self]
      cases queue : g.sched ord' with
      | nil =>
        have verdict : g.why ord' = some .extra := by
          unfold Gate.why
          rw [queue]
        rw [queue] at held
        rw [verdict, if_neg (fun both => nomatch both.2), if_neg (fun both => nomatch both.2)]
        exact held
      | cons entry rest =>
        rw [queue] at due held
        have below : entry.1 ≤ g.frame := due entry rfl
        have spent := recorded_spend passes rest (open_ entry.1 below)
          (account.positive ord' entry (queue ▸ mem_cons_self))
        have verdict : g.why ord' = if entry.1 < g.frame then some .late else none := by
          unfold Gate.why
          rw [queue]
        by_cases late : entry.1 < g.frame
        · rw [verdict, if_pos late, if_neg (fun both => nomatch both.2), if_pos ⟨rfl, rfl⟩]
          omega
        · rw [verdict, if_neg late, if_pos ⟨rfl, rfl⟩, if_neg (fun both => nomatch both.2)]
          omega
    · rw [update_of_ne eq, if_neg (fun both => eq both.1), if_neg (fun both => eq both.1)]
      exact held
  case extra =>
    intro ord' left
    rw [counted]
    rw [sched] at left
    by_cases eq : ord' = ord
    · subst eq
      rw [update_self] at left
      cases queue : g.sched ord' with
      | nil =>
        rw [queue] at left
        exact absurd rfl left
      | cons entry rest =>
        have verdict : g.why ord' ≠ some .extra := by
          unfold Gate.why
          rw [queue]
          change (if entry.1 < g.frame then some Diff.late else none) ≠ _
          split <;> nofun
        rw [if_neg (fun both => verdict both.2), account.extra ord' (by rw [queue]; nofun)]
    · rw [update_of_ne eq] at left
      rw [if_neg (fun both => eq both.1), account.extra ord' left]

theorem ReplayAccount.step (c : GateCall α) (onward : ∀ f ∈ c.frame, g.frame ≤ f) :
    ReplayAccount schedule (past ++ [event Gate.step g c]) (g.step c).1 := by
  have stepped := account.replays.stepped c
  generalize result : g.step c = r at stepped
  have answer : (event Gate.step g c).answer = r.2 := congrArg Prod.snd result
  cases stepped with
  | took ord store answers takes =>
    generalize landed : (!answers.isEmpty) = landing at takes
    have consumed_eq : ∀ ord', consumed ord' (event Gate.step g c) = (decide (ord' = ord) && landing) := by
      intro ord'
      unfold consumed
      rw [answer]
      change (decide (c.store = some ord') && !answers.isEmpty) = _
      rw [store, landed]
      congr 1
      exact decide_eq_decide.mpr ⟨fun eq => (Option.some.inj eq).symm, fun eq => congrArg some eq.symm⟩
    cases takes with
    | nothing waited =>
      exact account.still (fun ord' => (consumed_eq ord').trans (Bool.and_false _))
        ⟨account.replays.armed, account.replays.mode⟩ rfl (le_refl _)
    | lands waited due =>
      have replays' : Replays { g with waited } := ⟨account.replays.armed, account.replays.mode⟩
      rw [replays'.landed]
      exact account.landed (e := event Gate.step g c) rfl (fun ord' => (consumed_eq ord').trans (Bool.and_true _)) due
        ⟨account.replays.armed, account.replays.mode⟩ rfl rfl
  | framed f input =>
    refine account.still (fun ord' => ?_) ⟨account.replays.armed, account.replays.mode⟩ rfl
      (onward f (by rw [input]; rfl))
    unfold consumed
    rw [answer]
    exact Bool.and_false _
  | asked waited answered store frame =>
    refine account.still (fun ord' => ?_) ⟨account.replays.armed, account.replays.mode⟩ rfl (le_refl _)
    unfold consumed
    rw [answer]
    exact Bool.and_false _
  | drained input =>
    refine account.still (fun ord' => ?_) ⟨account.replays.armed, account.replays.mode⟩ rfl (le_refl _)
    unfold consumed
    rw [answer]
    exact Bool.and_false _

end

/-- What one event of a replay does about a mismatch. -/
structure Graded (ord : StoreOrd) (e : GateEvent α) : Prop where
  extra : e.before.sched ord = [] → e.after.diffs = noted e.before.diffs (e.before.frame, ord, .extra)
  recorded : ∀ frame left rest, e.before.sched ord = (frame, left) :: rest → frame ≤ e.before.frame ∧
    e.after.diffs = if frame = e.before.frame then e.before.diffs else noted e.before.diffs (e.before.frame, ord, .late)

variable {c : GateCall α}

theorem Replays.graded (replays : Replays g) (landing : consumed ord (event Gate.step g c) = true) :
    Graded ord (event Gate.step g c) := by
  have stepped := replays.stepped c
  generalize result : g.step c = r at stepped
  have answer : (event Gate.step g c).answer = r.2 := congrArg Prod.snd result
  have after : (event Gate.step g c).after = r.1 := congrArg Prod.fst result
  unfold consumed at landing
  rw [answer, Bool.and_eq_true] at landing
  cases stepped with
  | took ord' store answers takes =>
    obtain rfl : ord' = ord := Option.some.inj (store.symm.trans (of_decide_eq_true landing.1))
    generalize landed : (!answers.isEmpty) = full at takes
    cases takes with
    | nothing waited =>
      have empty : (!answers.isEmpty) = true := landing.2
      rw [landed] at empty
      cases empty
    | lands waited due =>
      have replays' : Replays { g with waited } := ⟨replays.armed, replays.mode⟩
      have diffs : (event Gate.step g c).after.diffs = match g.why ord' with
          | some why => noted g.diffs (g.frame, ord', why)
          | none => g.diffs := by
        rw [after, replays'.landed]
        rfl
      constructor
      case extra =>
        intro queue
        change g.sched ord' = [] at queue
        have verdict : g.why ord' = some .extra := by
          unfold Gate.why
          rw [queue]
        rw [diffs, verdict]
        rfl
      case recorded =>
        intro frame left rest queue
        change g.sched ord' = _ at queue
        rw [queue] at due
        have below : frame ≤ g.frame := due (frame, left) rfl
        refine ⟨below, ?_⟩
        have verdict : g.why ord' = if frame < g.frame then some .late else none := by
          unfold Gate.why
          rw [queue]
        rw [diffs, verdict]
        change _ = if frame = g.frame then g.diffs else noted g.diffs (g.frame, ord', .late)
        by_cases late : frame < g.frame
        · rw [if_pos late, if_neg (Nat.ne_of_lt late)]
        · rw [if_neg late, if_pos (Nat.le_antisymm below (Nat.not_lt.mp late))]
  | framed f input => cases landing.2
  | asked waited answered store frame => cases landing.2
  | drained input => cases landing.2

theorem Replays.ungraded (replays : Replays g) (nothing : ∀ ord, consumed ord (event Gate.step g c) = false)
    (kept : c ≠ .takeDiffs) : (g.step c).1.diffs = g.diffs := by
  have stepped := replays.stepped c
  generalize result : g.step c = r at stepped
  have answer : (event Gate.step g c).answer = r.2 := congrArg Prod.snd result
  cases stepped with
  | took ord store answers takes =>
    have empty := nothing ord
    unfold consumed at empty
    rw [answer] at empty
    change (decide (c.store = some ord) && !answers.isEmpty) = false at empty
    rw [store, decide_eq_true rfl, Bool.true_and] at empty
    rw [empty] at takes
    cases takes with
    | nothing waited => rfl
  | framed f input => rfl
  | asked waited answered store frame => rfl
  | drained input => exact absurd input kept

theorem why_cases (g : Gate α) (ord : StoreOrd) : g.why ord = none ∨ g.why ord = some .late ∨ g.why ord = some .extra := by
  unfold Gate.why
  split
  · split
    · exact .inr (.inl rfl)
    · exact .inl rfl
  · exact .inr (.inr rfl)

theorem consumed_split (ord : StoreOrd) (past : List (GateEvent α)) : past.countP (consumed ord) =
    past.countP (consumedAs ord none) + past.countP (consumedAs ord (some .late)) +
      past.countP (consumedAs ord (some .extra)) := by
  induction past with
  | nil => rfl
  | cons e rest ih =>
    have one : (if consumed ord e = true then 1 else 0) = (if consumedAs ord none e = true then 1 else 0) +
        (if consumedAs ord (some .late) e = true then 1 else 0) + if consumedAs ord (some .extra) e = true then 1 else 0 := by
      unfold consumedAs
      by_cases landed : consumed ord e = true
      · rcases why_cases e.before ord with verdict | verdict | verdict <;> simp [verdict]
      · simp [landed]
    rw [countP_cons, countP_cons, countP_cons, countP_cons, ih, one]
    omega

theorem Replays.served (replays : Replays g) (c : GateCall α) (why : Panic) : (g.step c).2 ≠ .panicked why := by
  have stepped := replays.stepped c
  generalize g.step c = r at stepped
  cases stepped with
  | took ord store answers takes => nofun
  | framed f input => nofun
  | asked waited answered store frame => nofun
  | drained input => nofun

/-- Everything a replay promises of a run and of the gate it reached. -/
structure Accounted (schedule : Schedule) (past : List (GateEvent α)) (g : Gate α) : Prop where
  served : ∀ e ∈ past, ∀ why, e.answer ≠ .panicked why
  early : ∀ ord, g.sched ord ≠ [] →
    past.countP (consumed ord) ≤ recorded (fun f => f ≤ g.frame) (schedule.queue ord)
  graded : ∀ e ∈ past, ∀ ord, consumed ord e = true → Graded ord e
  quiet : ∀ e ∈ past, (∀ ord, consumed ord e = false) → e.input ≠ .takeDiffs → e.after.diffs = e.before.diffs
  balance : ∀ ord, recorded (fun _ => true) (schedule.queue ord) =
    past.countP (consumedAs ord none) + past.countP (consumedAs ord (some .late)) +
      recorded (fun _ => true) (g.unmatchedCounts.1 ord)

theorem ReplayAccount.start (schedule : Schedule) :
    ReplayAccount schedule ([] : List (GateEvent α)) (.armSparseReplay schedule.queue) where
  replays := ⟨rfl, rfl⟩
  positive := schedule.positive
  balance := fun _ _ _ => Nat.zero_add _
  extra := fun _ _ => rfl

theorem step_frame (replays : Replays g) (c : GateCall α) : (g.step c).1.frame = c.frame.getD g.frame := by
  have stepped := replays.stepped c
  generalize g.step c = r at stepped
  cases stepped with
  | took ord store answers takes =>
    have still : c.frame = none := by
      cases c <;> first | rfl | cases store
    rw [still]
    generalize (!answers.isEmpty) = landing at takes
    cases takes with
    | nothing waited => rfl
    | lands waited due =>
      have replays' : Replays { g with waited } := ⟨replays.armed, replays.mode⟩
      rw [replays'.landed]
      rfl
  | framed f input => rw [input]; rfl
  | asked waited answered store frame => rw [frame]; rfl
  | drained input => rw [input]; rfl

theorem step_replays (replays : Replays g) (c : GateCall α) : Replays (g.step c).1 := by
  have stepped := replays.stepped c
  generalize g.step c = r at stepped
  cases stepped with
  | took ord store answers takes =>
    generalize (!answers.isEmpty) = landing at takes
    cases takes with
    | nothing waited => exact ⟨replays.armed, replays.mode⟩
    | lands waited due =>
      have replays' : Replays { g with waited } := ⟨replays.armed, replays.mode⟩
      rw [replays'.landed]
      exact ⟨replays.armed, replays.mode⟩
  | framed f input => exact ⟨replays.armed, replays.mode⟩
  | asked waited answered store frame => exact ⟨replays.armed, replays.mode⟩
  | drained input => exact ⟨replays.armed, replays.mode⟩

def Onward (calls : List (GateCall α)) : Prop := (calls.filterMap GateCall.frame).Pairwise (· ≤ ·)

instance (calls : List (GateCall α)) : Decidable (Onward calls) := inferInstanceAs (Decidable (List.Pairwise _ _))

theorem Onward.guarded {calls : List (GateCall α)} (onward : Onward calls) (replays : Replays g)
    (reached : ∀ f ∈ calls.filterMap GateCall.frame, g.frame ≤ f) (past : List (GateEvent α)) :
    Guarded Gate.step (fun _ g c => ∀ f ∈ c.frame, g.frame ≤ f) past g calls := by
  induction calls generalizing g past with
  | nil => trivial
  | cons c rest ih =>
    have later : Onward rest := onward.sublist ((sublist_cons_self c rest).filterMap GateCall.frame)
    refine ⟨fun f called => reached f ?_, ih later (step_replays replays c) (fun f mem => ?_) _⟩
    · exact mem_filterMap.mpr ⟨c, mem_cons_self, called⟩
    · rw [step_frame replays]
      cases framed : c.frame with
      | none => exact reached f (mem_filterMap.mpr (by
          obtain ⟨c', listed, called⟩ := mem_filterMap.mp mem
          exact ⟨c', mem_cons_of_mem _ listed, called⟩))
      | some f' =>
        unfold Onward at onward
        rw [filterMap_cons_some framed] at onward
        exact (pairwise_cons.mp onward).1 f mem

theorem replay_accounted (schedule : Schedule) (calls : List (GateCall α)) (onward : Onward calls) :
    Accounted schedule (history Gate.step (.armSparseReplay schedule.queue) calls)
      (run Gate.step (.armSparseReplay schedule.queue) calls) := by
  have guarded := onward.guarded (g := .armSparseReplay schedule.queue) ⟨rfl, rfl⟩ (fun _ _ => Nat.zero_le _) []
  have account := guarded_invariant Gate.step (R := ReplayAccount schedule)
    (fun past g c onward account => account.step c onward) (ReplayAccount.start schedule) guarded
  rw [nil_append] at account
  have replaying : ∀ js : List (GateCall α), Replays (run Gate.step (.armSparseReplay schedule.queue) js) := fun js =>
    run_invariant Gate.step (P := Replays) (fun _ c replays => step_replays replays c) ⟨rfl, rfl⟩ js
  constructor
  case served =>
    intro e mem why
    obtain ⟨earlier, later, split⟩ := append_of_mem mem
    obtain ⟨js, c, ks, -, -, rfl, -⟩ := history_split Gate.step split
    exact (replaying js).served c why
  case early =>
    intro ord left
    have held := account.balance ord (fun f => f ≤ _) fun f below => decide_eq_true below
    rw [consumed_split, account.extra ord left]
    omega
  case graded =>
    intro e mem ord landing
    obtain ⟨earlier, later, split⟩ := append_of_mem mem
    obtain ⟨js, c, ks, -, -, rfl, -⟩ := history_split Gate.step split
    exact (replaying js).graded landing
  case quiet =>
    intro e mem nothing kept
    obtain ⟨earlier, later, split⟩ := append_of_mem mem
    obtain ⟨js, c, ks, -, -, rfl, -⟩ := history_split Gate.step split
    exact (replaying js).ungraded nothing kept
  case balance =>
    intro ord
    have held := account.balance ord (fun _ => true) fun _ _ => rfl
    unfold Gate.unmatchedCounts
    rw [if_pos account.replays.armed]
    exact held.symm

end PlxNative.Machine
