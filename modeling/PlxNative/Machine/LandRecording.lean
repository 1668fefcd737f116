import PlxNative.Machine.LandReplay

/-! A store with one mailbox, recorded and replayed with the same takes on the same frames. -/
namespace PlxNative.Machine
open List Transducer Function Phase

variable {α : Type}

def Elsewhere (α : Type) (ord : StoreOrd) : Type := { c : GateCall α // c.store ≠ some ord ∧ c.frame = none }

/-- What happens on a frame: answers arrive, the store's sites take, and other stores do as they do. -/
inductive Move (α : Type) (ord : StoreOrd)
  | arrive (answers : List α)
  | take
  | takeAll
  | other (c : Elsewhere α ord)

structure Desk (α : Type) where
  gate : Gate α
  box : List α

/-- A frame, what has arrived since the one before it, and what happens on it. -/
structure FrameScript (α : Type) (ord : StoreOrd) where
  number : Nat
  posted : List α
  moves : List (Move α ord)

variable {ord : StoreOrd}

def popBox : List α → Option α × List α
  | [] => (none, [])
  | answer :: rest => (some answer, rest)

def drainBox (box : List α) : List α × List α := (box, [])

def Move.takes : Move α ord → Bool
  | .take => true
  | .takeAll => true
  | _ => false

namespace Desk

def move (d : Desk α) : Move α ord → Desk α × List α
  | .arrive answers => ({ d with box := d.box ++ answers }, [])
  | .take => match d.gate.take ord popBox d.box with
    | .ok (got, gate, box) => ({ gate, box }, got.toList)
    | .error _ => (d, [])
  | .takeAll => match d.gate.takeAll ord drainBox d.box with
    | .ok (got, gate, box) => ({ gate, box }, got)
    | .error _ => (d, [])
  | .other c => ({ d with gate := (d.gate.step c.1).1 }, [])

/-- The moves of a frame, and how many of its takes were answered. -/
def moves : Desk α → List (Move α ord) → Desk α × Nat
  | d, [] => (d, 0)
  | d, m :: rest =>
    (((d.move m).1.moves rest).1, (if (d.move m).2.isEmpty then 0 else 1) + ((d.move m).1.moves rest).2)

def begin (d : Desk α) (frame : FrameScript α ord) : Desk α :=
  { gate := d.gate.beginFrame frame.number, box := d.box ++ frame.posted }

/-- How many landings the store consumes on each frame. -/
def consume : Desk α → List (FrameScript α ord) → List (Nat × Nat)
  | _, [] => []
  | d, frame :: rest => (frame.number, ((d.begin frame).moves frame.moves).2) ::
      ((d.begin frame).moves frame.moves).1.consume rest

/-- What a recorder writes down of each frame. -/
def record : Desk α → List (FrameScript α ord) → List (Nat × Nat)
  | _, [] => []
  | d, frame :: rest =>
    let finished := ((d.begin frame).moves frame.moves).1
    (frame.number, finished.gate.takeFrameLands.1 ord) ::
      record { finished with gate := finished.gate.takeFrameLands.2 } rest

end Desk

/-- The recorded frames on which anything landed, as a schedule keeps them. -/
def landings (counts : List (Nat × Nat)) : List (Nat × Nat) := counts.filter fun entry => 0 < entry.2

def asked (moves : List (Move α ord)) : Nat := moves.countP Move.takes

/-- The takes of a frame, without what arrives when. -/
def FrameScript.takes (frame : FrameScript α ord) : Nat × List Bool :=
  (frame.number, (frame.moves.filter Move.takes).map fun m => match m with
    | .takeAll => true
    | _ => false)

/-- A take finds mail when a recorded landing is due, and none when every one has been consumed. -/
structure SuppliedAt (ord : StoreOrd) (d : Desk α) : Prop where
  due : ∀ entry ∈ (d.gate.sched ord).head?, entry.1 ≤ d.gate.frame → d.box ≠ []
  over_ : d.gate.sched ord = [] → d.box = []

def Desk.SuppliedOn : Desk α → List (Move α ord) → Prop
  | _, [] => True
  | d, m :: rest => (m.takes = true → SuppliedAt ord d) ∧ (d.move m).1.SuppliedOn rest

def Desk.Supplied : Desk α → List (FrameScript α ord) → Prop
  | _, [] => True
  | d, frame :: rest => (d.begin frame).SuppliedOn frame.moves ∧ ((d.begin frame).moves frame.moves).1.Supplied rest

theorem asked_eq (frame : FrameScript α ord) : asked frame.moves = frame.takes.2.length := by
  unfold asked FrameScript.takes
  rw [length_map, countP_eq_length_filter]

section

variable {g : Gate α} {W T : Type}

variable {f : W → Option T × W}
variable {w w' : W} {v : T}

theorem waitFor_some (answered : f w = (some v, w')) (polls : Nat) :
    waitFor f (polls + 1) w = (some v, w') := by
  unfold waitFor
  rw [answered]

theorem waitFor_none (silent : f w = (none, w)) (polls : Nat) : waitFor f polls w = (none, w) := by
  induction polls with
  | zero => rfl
  | succ polls ih =>
    unfold waitFor
    rw [silent]
    exact ih

theorem Phase.polled_some (answered : f w = (some v, w')) (phase : Phase) :
    phase.polled f w = (some v, w') := by
  unfold polled
  split
  · exact waitFor_some answered 399
  · exact answered

theorem Phase.polled_none (silent : f w = (none, w)) (phase : Phase) : phase.polled f w = (none, w) := by
  unfold polled
  split
  · exact waitFor_none silent _
  · exact silent

theorem phase_hold (replays : Replays g) {entry : Nat × Nat} {rest : List (Nat × Nat)} (queue : g.sched ord = entry :: rest) :
    (g.phase ord).1 = .hold ↔ g.frame < entry.1 := by
  rw [replays.phase_eq, queue]
  change (if g.frame < entry.1 then _ else _ : Phase × Gate α).1 = _ ↔ _
  split
  case isTrue later => exact iff_of_true rfl later
  case isFalse now =>
    refine iff_of_false ?_ now
    split
    · split <;> nofun
    · nofun

/-- What a take of the store does in a replay, by what the gate and the mailbox hold. -/
structure TakeSpec (ord : StoreOrd) (d : Desk α) (r : Desk α × List α) : Prop where
  replays : Replays r.1.gate
  frame : r.1.gate.frame = d.gate.frame
  held : (d.gate.phase ord).1 = .hold ∨ d.box = [] → r.2 = [] ∧ r.1.gate.sched = d.gate.sched
  landed : (d.gate.phase ord).1 ≠ .hold → d.box ≠ [] →
    r.2 ≠ [] ∧ r.1.gate.sched = Function.update d.gate.sched ord (Gate.spend (d.gate.sched ord))

theorem landed_spec (replays : Replays g) (ord : StoreOrd) : Replays ((g.phase ord).2.landed ord) ∧
    ((g.phase ord).2.landed ord).frame = g.frame ∧
    ((g.phase ord).2.landed ord).sched = Function.update g.sched ord (Gate.spend (g.sched ord)) := by
  obtain ⟨waited, eq, -⟩ := replays.phase ord
  have replays' : Replays { g with waited } := ⟨replays.armed, replays.mode⟩
  rw [eq, replays'.landed]
  exact ⟨⟨replays.armed, replays.mode⟩, rfl, rfl⟩

theorem phase_spec (replays : Replays g) (ord : StoreOrd) : Replays (g.phase ord).2 ∧ (g.phase ord).2.frame = g.frame ∧
    (g.phase ord).2.sched = g.sched := by
  obtain ⟨waited, eq, -⟩ := replays.phase ord
  rw [eq]
  exact ⟨⟨replays.armed, replays.mode⟩, rfl, rfl⟩

variable {d : Desk α}

theorem take_spec (replays : Replays d.gate) : TakeSpec ord d (d.move (.take : Move α ord)) := by
  have landed := landed_spec replays ord
  have phase := phase_spec replays ord
  unfold Desk.move
  simp only [replays.take_eq]
  by_cases hold : (d.gate.phase ord).1 = .hold
  · simp only [hold]
    exact ⟨phase.1, phase.2.1, fun _ => ⟨rfl, phase.2.2⟩, fun free => absurd hold free⟩
  · simp only [hold]
    obtain ⟨gate, box⟩ := d
    cases box with
    | nil =>
      rw [polled_none (f := popBox) rfl]
      exact ⟨phase.1, phase.2.1, fun _ => ⟨rfl, phase.2.2⟩, fun _ full => absurd rfl full⟩
    | cons answer rest =>
      rw [polled_some (f := popBox) (v := answer) rfl]
      exact ⟨landed.1, landed.2.1, fun either => either.elim (absurd · hold) nofun, fun _ _ => ⟨nofun, landed.2.2⟩⟩

theorem takeAll_spec (replays : Replays d.gate) : TakeSpec ord d (d.move (.takeAll : Move α ord)) := by
  have landed := landed_spec replays ord
  have phase := phase_spec replays ord
  unfold Desk.move
  simp only [replays.takeAll_eq]
  by_cases hold : (d.gate.phase ord).1 = .hold
  · simp only [hold]
    exact ⟨phase.1, phase.2.1, fun _ => ⟨rfl, phase.2.2⟩, fun free => absurd hold free⟩
  · simp only [hold]
    obtain ⟨gate, box⟩ := d
    cases box with
    | nil =>
      rw [polled_none (f := Gate.nonempty drainBox) rfl]
      exact ⟨phase.1, phase.2.1, fun _ => ⟨rfl, phase.2.2⟩, fun _ full => absurd rfl full⟩
    | cons answer rest =>
      rw [polled_some (f := Gate.nonempty drainBox) (v := answer :: rest) rfl]
      exact ⟨landed.1, landed.2.1, fun either => either.elim (absurd · hold) nofun, fun _ _ => ⟨nofun, landed.2.2⟩⟩

theorem other_spec (replays : Replays g) (c : Elsewhere α ord) : Replays (g.step c.1).1 ∧ (g.step c.1).1.frame = g.frame ∧
    (g.step c.1).1.sched ord = g.sched ord := by
  refine ⟨step_replays replays c.1, ?_, ?_⟩
  · rw [step_frame replays, c.2.2]
    rfl
  · have stepped := replays.stepped c.1
    generalize g.step c.1 = r at stepped
    cases stepped with
    | took ord' store answers takes =>
      have apart : ord ≠ ord' := fun eq => c.2.1 (eq ▸ store)
      generalize (!answers.isEmpty) = landing at takes
      cases takes with
      | nothing waited => rfl
      | lands waited due =>
        have replays' : Replays { g with waited } := ⟨replays.armed, replays.mode⟩
        rw [replays'.landed]
        exact update_of_ne apart ..
    | framed f input => rfl
    | asked waited answered store frame => rfl
    | drained input => rfl

theorem landings_zero (f : Nat) (plan : List (Nat × Nat)) : landings ((f, 0) :: plan) = landings plan := rfl

theorem landings_succ (f n : Nat) (plan : List (Nat × Nat)) : landings ((f, n + 1) :: plan) = (f, n + 1) :: landings plan := rfl

theorem spend_landings (f n : Nat) (plan : List (Nat × Nat)) :
    Gate.spend (landings ((f, n + 1) :: plan)) = landings ((f, n) :: plan) := by
  cases n with
  | zero => rfl
  | succ n => rfl

variable {plan : List (Nat × Nat)}

theorem take_counts {m : Move α ord} (takes : m.takes = true) (replays : Replays d.gate) {f left : Nat}
    (frame : d.gate.frame = f) (queue : d.gate.sched ord = landings ((f, left) :: plan))
    (later : ∀ entry ∈ plan, f < entry.1) (supplied : SuppliedAt ord d) :
    Replays (d.move m).1.gate ∧ (d.move m).1.gate.frame = f ∧
      (if (d.move m).2.isEmpty then 0 else 1) = min left 1 ∧
      (d.move m).1.gate.sched ord = landings ((f, left - 1) :: plan) := by
  have spec : TakeSpec ord d (d.move m) := by
    cases m with
    | take => exact take_spec replays
    | takeAll => exact takeAll_spec replays
    | arrive answers => cases takes
    | other c => cases takes
  refine ⟨spec.replays, spec.frame.trans frame, ?_⟩
  cases left with
  | zero =>
    have silent : (d.gate.phase ord).1 = .hold ∨ d.box = [] := by
      cases planned : landings plan with
      | nil => exact .inr (supplied.over_ (queue.trans planned))
      | cons entry rest =>
        have listed : entry ∈ plan := mem_of_mem_filter (planned ▸ mem_cons_self : entry ∈ landings plan)
        exact .inl ((phase_hold replays (queue.trans planned)).mpr (frame ▸ later entry listed))
    obtain ⟨nothing, eq⟩ := spec.held silent
    rw [nothing, eq]
    exact ⟨rfl, queue⟩
  | succ left =>
    rw [landings_succ] at queue
    have free : (d.gate.phase ord).1 ≠ .hold := fun hold => by
      have early : d.gate.frame < f := (phase_hold replays queue).mp hold
      omega
    have full : d.box ≠ [] := supplied.due (f, left + 1) (by rw [queue]; rfl) (Nat.le_of_eq frame.symm)
    obtain ⟨something, spent⟩ := spec.landed free full
    rw [spent, update_self, queue, ← landings_succ, spend_landings]
    refine ⟨?_, rfl⟩
    cases answers : (d.move m).2 with
    | nil => exact absurd answers something
    | cons answer rest => exact (Nat.min_eq_right (Nat.succ_le_succ (Nat.zero_le left))).symm

theorem moves_count (replays : Replays d.gate) {f left : Nat}
    (frame : d.gate.frame = f) (queue : d.gate.sched ord = landings ((f, left) :: plan))
    (later : ∀ entry ∈ plan, f < entry.1) (moves : List (Move α ord)) (supplied : d.SuppliedOn moves) :
    Replays (d.moves moves).1.gate ∧ (d.moves moves).2 = min left (asked moves) ∧
      (d.moves moves).1.gate.sched ord = landings ((f, left - asked moves) :: plan) := by
  induction moves generalizing d left with
  | nil => exact ⟨replays, (Nat.min_zero left).symm, queue⟩
  | cons m rest ih =>
    have counted : asked (m :: rest) = asked rest + if m.takes = true then 1 else 0 := countP_cons ..
    have first : Replays (d.move m).1.gate ∧ (d.move m).1.gate.frame = f ∧
        (if (d.move m).2.isEmpty then 0 else 1) = min left (if m.takes = true then 1 else 0) ∧
        (d.move m).1.gate.sched ord = landings ((f, left - if m.takes = true then 1 else 0) :: plan) := by
      cases m with
      | take => exact take_counts rfl replays frame queue later (supplied.1 rfl)
      | takeAll => exact take_counts rfl replays frame queue later (supplied.1 rfl)
      | arrive answers => exact ⟨replays, frame, (Nat.min_zero left).symm, queue⟩
      | other c =>
        obtain ⟨replays', frame', eq⟩ := other_spec replays c
        exact ⟨replays', frame'.trans frame, (Nat.min_zero left).symm, eq.trans queue⟩
    obtain ⟨replays', frame', one, queue'⟩ := first
    obtain ⟨replays'', count, queue''⟩ := ih replays' frame' queue' supplied.2
    refine ⟨replays'', ?_, ?_⟩
    · change (if (d.move m).2.isEmpty then 0 else 1) + ((d.move m).1.moves rest).2 = _
      omega
    · refine queue''.trans ?_
      congr 3
      omega

end

section

variable {g : Gate α} {W T : Type}

structure Records (g : Gate α) : Prop where
  armed : g.armed = true
  mode : g.mode = .recording

section
variable (records : Records g)
include records

theorem Records.phase (ord : StoreOrd) : g.phase ord = (.free, g) := by
  unfold Gate.phase
  rw [records.armed, records.mode]
  rfl

theorem Records.notePlainTake (ord : StoreOrd) : g.notePlainTake ord = .ok g := by
  unfold Gate.notePlainTake
  rw [records.mode]

theorem Records.landed (ord : StoreOrd) :
    g.landed ord = { g with lands := Function.update g.lands ord (g.lands ord + 1) } := by
  have armed : ¬(!g.armed) = true := by
    rw [records.armed]
    decide
  unfold Gate.landed
  rw [if_neg armed]
  split
  next => rfl
  next mode => exact absurd (mode.symm.trans records.mode) nofun
  next mode => exact absurd (mode.symm.trans records.mode) nofun
  next mode => exact absurd (mode.symm.trans records.mode) nofun

theorem Records.take_eq (ord : StoreOrd) (f : W → Option T × W) (w : W) :
    g.take ord f w = .ok ((f w).1, if (f w).1.isSome then g.landed ord else g, (f w).2) := by
  unfold Gate.take
  rw [records.notePlainTake, records.armed]
  simp only [Bool.not_true, bind, Except.bind, records.phase]
  rfl

theorem Records.takeAll_eq (ord : StoreOrd) (f : W → List T × W) (w : W) :
    g.takeAll ord f w = .ok ((f w).1, if (f w).1.isEmpty then g else g.landed ord, (f w).2) := by
  unfold Gate.takeAll
  rw [records.notePlainTake, records.armed]
  simp only [Bool.not_true, bind, Except.bind, records.phase]
  rfl

theorem other_lands (c : Elsewhere α ord) :
    Records (g.step c.1).1 ∧ (g.step c.1).1.lands ord = g.lands ord := by
  have landing : ∀ ord', ord ≠ ord' → Records (g.landed ord') ∧ (g.landed ord').lands ord = g.lands ord := by
    intro ord' apart
    rw [records.landed]
    exact ⟨⟨records.armed, records.mode⟩, update_of_ne apart ..⟩
  obtain ⟨c, store, frame⟩ := c
  cases c with
  | beginFrame f => cases frame
  | take ord' polls =>
    have apart : ord ≠ ord' := fun eq => store (congrArg some eq.symm)
    unfold Gate.step
    simp only [records.take_eq]
    cases (slotPoll polls).1 with
    | none => exact ⟨records, rfl⟩
    | some answer => exact landing ord' apart
  | takeAll ord' polls =>
    have apart : ord ≠ ord' := fun eq => store (congrArg some eq.symm)
    unfold Gate.step
    simp only [records.takeAll_eq]
    cases (queuePoll polls).1 with
    | nil => exact ⟨records, rfl⟩
    | cons answer rest => exact landing ord' apart
  | held ord' =>
    have eq : (g.step (.held ord')).1 = g := congrArg Prod.snd (records.phase ord')
    rw [eq]
    exact ⟨records, rfl⟩
  | takeDiffs =>
    change Records g.takeDiffs.2 ∧ g.takeDiffs.2.lands ord = _
    unfold Gate.takeDiffs
    rw [if_pos records.armed]
    exact ⟨⟨records.armed, records.mode⟩, rfl⟩

end

variable {d : Desk α}

section
variable (records : Records d.gate)
include records

theorem record_move (m : Move α ord) : Records (d.move m).1.gate ∧
    (d.move m).1.gate.lands ord = d.gate.lands ord + (if (d.move m).2.isEmpty then 0 else 1) ∧
    (if (d.move m).2.isEmpty then 0 else 1) ≤ if m.takes = true then 1 else 0 := by
  have landing : Records (d.gate.landed ord) ∧ (d.gate.landed ord).lands ord = d.gate.lands ord + 1 := by
    rw [records.landed]
    exact ⟨⟨records.armed, records.mode⟩, update_self ..⟩
  cases m with
  | arrive answers => exact ⟨records, rfl, le_refl 0⟩
  | take =>
    unfold Desk.move
    simp only [records.take_eq]
    cases (popBox d.box).1 with
    | none => exact ⟨records, rfl, Nat.zero_le 1⟩
    | some answer => exact ⟨landing.1, landing.2, le_refl 1⟩
  | takeAll =>
    unfold Desk.move
    simp only [records.takeAll_eq]
    cases (drainBox d.box).1 with
    | nil => exact ⟨records, rfl, Nat.zero_le 1⟩
    | cons answer rest => exact ⟨landing.1, landing.2, le_refl 1⟩
  | other c =>
    obtain ⟨records', eq⟩ := other_lands records c
    exact ⟨records', eq, le_refl 0⟩

theorem record_moves (moves : List (Move α ord)) : Records (d.moves moves).1.gate ∧
    (d.moves moves).1.gate.lands ord = d.gate.lands ord + (d.moves moves).2 ∧ (d.moves moves).2 ≤ asked moves := by
  induction moves generalizing d with
  | nil => exact ⟨records, rfl, le_refl 0⟩
  | cons m rest ih =>
    obtain ⟨records', lands, few⟩ := record_move records m
    obtain ⟨records'', lands', few'⟩ := ih records'
    have counted : asked (m :: rest) = asked rest + if m.takes = true then 1 else 0 := countP_cons ..
    refine ⟨records'', ?_, ?_⟩
    · change (d.move m).1.moves rest |>.1.gate.lands ord = _ + ((if (d.move m).2.isEmpty then 0 else 1) + _)
      rw [lands', lands, Nat.add_assoc]
    · change (if (d.move m).2.isEmpty then 0 else 1) + ((d.move m).1.moves rest).2 ≤ _
      omega

theorem record_begin (frame : FrameScript α ord) :
    Records (d.begin frame).gate ∧ (d.begin frame).gate.lands ord = 0 := by
  unfold Desk.begin Gate.beginFrame
  rw [if_pos records.armed]
  exact ⟨⟨records.armed, records.mode⟩, rfl⟩

theorem record_cons (frame : FrameScript α ord) (rest : List (FrameScript α ord)) :
    ∃ (n : Nat) (d' : Desk α), Records d'.gate ∧ n ≤ asked frame.moves ∧ d.record (frame :: rest) = (frame.number, n) :: d'.record rest := by
  obtain ⟨begun, empty⟩ := record_begin records frame
  obtain ⟨records', lands, few⟩ := record_moves begun frame.moves
  rw [empty, Nat.zero_add] at lands
  have taken : ((d.begin frame).moves frame.moves).1.gate.takeFrameLands =
      (((d.begin frame).moves frame.moves).1.gate.lands,
        { ((d.begin frame).moves frame.moves).1.gate with lands := fun _ => 0 }) := if_pos records'.armed
  refine ⟨((d.begin frame).moves frame.moves).2,
    ⟨{ ((d.begin frame).moves frame.moves).1.gate with lands := fun _ => 0 }, ((d.begin frame).moves frame.moves).1.box⟩,
    ⟨records'.armed, records'.mode⟩, few, ?_⟩
  change (frame.number, ((d.begin frame).moves frame.moves).1.gate.takeFrameLands.1 ord) ::
    Desk.record { ((d.begin frame).moves frame.moves).1 with gate := ((d.begin frame).moves frame.moves).1.gate.takeFrameLands.2 }
      rest = _
  rw [taken, ← lands]

theorem record_numbers (frames : List (FrameScript α ord)) :
    (d.record frames).map Prod.fst = frames.map FrameScript.number := by
  induction frames generalizing d with
  | nil => rfl
  | cons frame rest ih =>
    obtain ⟨n, d', records', -, lines⟩ := record_cons records frame rest
    rw [lines, map_cons, map_cons, ih records']

end

end

/-- The same takes on the same frames, whatever arrives when. -/
def SameTakes (frames frames' : List (FrameScript α ord)) : Prop :=
  frames.map FrameScript.takes = frames'.map FrameScript.takes

/-- Frames that ascend, one script for each. -/
def Ascending (frames : List (FrameScript α ord)) : Prop := (frames.map FrameScript.number).Pairwise (· < ·)

instance (frames : List (FrameScript α ord)) : Decidable (Ascending frames) := inferInstanceAs (Decidable (List.Pairwise _ _))

variable {d : Desk α}

theorem begin_spec (replays : Replays d.gate) (frame : FrameScript α ord) :
    Replays (d.begin frame).gate ∧ (d.begin frame).gate.frame = frame.number ∧
      (d.begin frame).gate.sched ord = d.gate.sched ord := by
  unfold Desk.begin Gate.beginFrame
  rw [if_pos replays.armed]
  exact ⟨⟨replays.armed, replays.mode⟩, rfl, rfl⟩

variable {rest : List (FrameScript α ord)}
variable {frame : FrameScript α ord}

theorem record_later (records : Records d.gate)
    (ascends : Ascending (frame :: rest)) : ∀ entry ∈ d.record rest, frame.number < entry.1 := by
  intro entry mem
  refine (pairwise_cons.mp ascends).1 entry.1 ?_
  rw [← record_numbers records rest]
  exact mem_map_of_mem mem

variable {frames frames' : List (FrameScript α ord)}

theorem replay_repeats {recording replaying : Desk α} (records : Records recording.gate) (replays : Replays replaying.gate)
    (eq : SameTakes frames frames') (ascends : Ascending frames)
    (queue : replaying.gate.sched ord = landings (recording.record frames)) (supplied : replaying.Supplied frames') :
    replaying.consume frames' = recording.record frames := by
  induction frames generalizing recording replaying frames' with
  | nil =>
    cases frames' with
    | nil => rfl
    | cons frame' rest' => cases eq
  | cons frame rest ih =>
    cases frames' with
    | nil => cases eq
    | cons frame' rest' =>
      obtain ⟨n, recording', records', few, lines⟩ := record_cons records frame rest
      obtain ⟨takes, others⟩ := List.cons.inj eq
      have number : frame'.number = frame.number := (congrArg Prod.fst takes).symm
      have often : asked frame'.moves = asked frame.moves := by
        rw [asked_eq, asked_eq]
        exact congrArg (fun t => t.2.length) takes.symm
      have later := record_later records' ascends
      have begun := begin_spec replays frame'
      rw [number, queue, lines] at begun
      obtain ⟨replays', count, queue'⟩ := moves_count begun.1 begun.2.1 begun.2.2 later frame'.moves supplied.1
      rw [often] at count queue'
      rw [Nat.min_eq_left few] at count
      rw [Nat.sub_eq_zero_of_le few, landings_zero] at queue'
      rw [lines, ← ih records' replays' others (pairwise_cons.mp ascends).2 queue' supplied.2]
      change (frame'.number, _) :: _ = _
      rw [number, count]

/-- A site that takes one answer at a time. -/
def Move.single : Move α ord → Bool
  | .takeAll => false
  | _ => true

def Move.arrivals : Move α ord → Nat
  | .arrive answers => answers.length
  | _ => 0

def arrivals (moves : List (Move α ord)) : Nat := (moves.map Move.arrivals).sum

def FrameScript.arrivals (frame : FrameScript α ord) : Nat := frame.posted.length + Machine.arrivals frame.moves

def total (counts : List (Nat × Nat)) : Nat := (counts.map Prod.snd).sum

/-- By each frame as many answers have arrived as are recorded up to it. -/
def ArrivedBy (counts : List (Nat × Nat)) (held : Nat) (frames : List (FrameScript α ord)) : Prop :=
  ∀ earlier frame later, frames = earlier ++ frame :: later →
    total (counts.take (earlier.length + 1)) ≤ held + (earlier.map FrameScript.arrivals).sum + frame.posted.length

/-- Every recorded answer has arrived by its frame, and nothing else ever does. -/
structure InTime (counts : List (Nat × Nat)) (held : Nat) (frames : List (FrameScript α ord)) : Prop where
  by_frame : ArrivedBy counts held frames
  no_more : held + (frames.map FrameScript.arrivals).sum ≤ total counts

variable {counts : List (Nat × Nat)}

theorem landings_nil (none_left : landings counts = []) : total counts = 0 := by
  refine sum_eq_zero fun count mem => ?_
  obtain ⟨entry, listed, rfl⟩ := mem_map.mp mem
  have empty := filter_eq_nil_iff.mp none_left entry listed
  rw [decide_eq_true_eq] at empty
  omega

variable {plan : List (Nat × Nat)}

theorem supplied_at {f left : Nat} (frame : d.gate.frame = f)
    (queue : d.gate.sched ord = landings ((f, left) :: plan)) (later : ∀ entry ∈ plan, f < entry.1)
    (enough : left ≤ d.box.length) (few : d.box.length ≤ left + total plan) : SuppliedAt ord d := by
  constructor
  case due =>
    intro entry head due
    rw [queue] at head
    cases left with
    | zero =>
      have listed : entry ∈ plan := mem_of_mem_filter (List.mem_of_mem_head? head)
      have early := later entry listed
      omega
    | succ left => exact ne_nil_of_length_pos (by omega)
  case over_ =>
    intro empty
    have nothing := landings_nil (queue.symm.trans empty)
    change left + total plan = 0 at nothing
    exact length_eq_zero_iff.mp (by omega)

theorem take_box (replays : Replays d.gate) :
    (d.move (.take : Move α ord)).1.box.length + (if (d.move (.take : Move α ord)).2.isEmpty then 0 else 1) = d.box.length := by
  unfold Desk.move
  simp only [replays.take_eq]
  by_cases hold : (d.gate.phase ord).1 = .hold
  · simp only [hold]
    rfl
  · simp only [hold]
    obtain ⟨gate, box⟩ := d
    cases box with
    | nil => rw [polled_none (f := popBox) rfl]; rfl
    | cons answer rest => rw [polled_some (f := popBox) (v := answer) rfl]; rfl

theorem moves_supplied (replays : Replays d.gate) {f left : Nat}
    (frame : d.gate.frame = f) (queue : d.gate.sched ord = landings ((f, left) :: plan))
    (later : ∀ entry ∈ plan, f < entry.1) (moves : List (Move α ord)) (single : ∀ m ∈ moves, m.single = true)
    (enough : left ≤ d.box.length) (few : d.box.length + arrivals moves ≤ left + total plan) :
    d.SuppliedOn moves ∧ (d.moves moves).1.box.length + (d.moves moves).2 = d.box.length + arrivals moves := by
  induction moves generalizing d left with
  | nil => exact ⟨trivial, rfl⟩
  | cons m rest ih =>
    have arrived : arrivals (m :: rest) = m.arrivals + arrivals rest := sum_cons
    have supplied := supplied_at frame queue later enough (by omega)
    have single' : ∀ m ∈ rest, m.single = true := fun m mem => single m (mem_cons_of_mem _ mem)
    have count : (d.moves (m :: rest)).2 = (if (d.move m).2.isEmpty then 0 else 1) + ((d.move m).1.moves rest).2 := rfl
    cases m with
    | take =>
      obtain ⟨replays', frame', one, queue'⟩ := take_counts (m := Move.take) rfl replays frame queue later supplied
      have box : (d.move (.take : Move α ord)).1.box.length + (if (d.move (.take : Move α ord)).2.isEmpty then 0 else 1) =
          d.box.length := take_box replays
      have none_in : (Move.take : Move α ord).arrivals = 0 := rfl
      obtain ⟨rest_supplied, rest_box⟩ := ih replays' frame' queue' single' (by omega) (by omega)
      refine ⟨⟨fun _ => supplied, rest_supplied⟩, ?_⟩
      change ((d.move Move.take).1.moves rest).1.box.length + _ = _
      omega
    | takeAll => cases single _ mem_cons_self
    | arrive answers =>
      have box : (d.move (.arrive answers : Move α ord)).1.box.length = d.box.length + answers.length := length_append
      have some_in : (Move.arrive answers : Move α ord).arrivals = answers.length := rfl
      obtain ⟨rest_supplied, rest_box⟩ := ih (d := (d.move (.arrive answers : Move α ord)).1) replays frame queue single'
        (by omega) (by omega)
      refine ⟨⟨nofun, rest_supplied⟩, ?_⟩
      change ((d.move (.arrive answers : Move α ord)).1.moves rest).1.box.length + (0 + _) = _
      omega
    | other c =>
      obtain ⟨replays', frame', eq⟩ := other_spec replays c
      have none_in : (Move.other c : Move α ord).arrivals = 0 := rfl
      obtain ⟨rest_supplied, rest_box⟩ := ih (d := (d.move (.other c)).1) replays' (frame'.trans frame) (eq.trans queue)
        single' enough (by change d.box.length + _ ≤ _; omega)
      refine ⟨⟨nofun, rest_supplied⟩, ?_⟩
      change ((d.move (.other c)).1.moves rest).1.box.length + (0 + _) = _
      change _ = d.box.length + _ at rest_box
      omega

theorem InTime.tail {n f held : Nat}
    (inTime : InTime ((f, n) :: counts) held (frame :: rest)) : n ≤ held + frame.posted.length ∧
      InTime counts (held + frame.arrivals - n) rest := by
  have first : n + 0 ≤ held + 0 + frame.posted.length := inTime.by_frame [] frame rest rfl
  have whole : held + (frame.arrivals + (rest.map FrameScript.arrivals).sum) ≤ n + total counts := inTime.no_more
  have posted : frame.posted.length ≤ frame.arrivals := Nat.le_add_right _ _
  refine ⟨by omega, ?_⟩
  constructor
  case by_frame =>
    intro earlier frame' later split
    have later_bound : n + total (counts.take (earlier.length + 1)) ≤
        held + (frame.arrivals + (earlier.map FrameScript.arrivals).sum) + frame'.posted.length :=
      inTime.by_frame (frame :: earlier) frame' later (by rw [split]; rfl)
    omega
  case no_more => omega

theorem supplied_in_time {recording replaying : Desk α} (records : Records recording.gate) (replays : Replays replaying.gate)
    (eq : SameTakes frames frames') (ascends : Ascending frames)
    (queue : replaying.gate.sched ord = landings (recording.record frames))
    (single : ∀ frame ∈ frames', ∀ m ∈ frame.moves, m.single = true)
    (inTime : InTime (recording.record frames) replaying.box.length frames') : replaying.Supplied frames' := by
  induction frames generalizing recording replaying frames' with
  | nil =>
    cases frames' with
    | nil => trivial
    | cons frame' rest' => cases eq
  | cons frame rest ih =>
    cases frames' with
    | nil => cases eq
    | cons frame' rest' =>
      obtain ⟨n, recording', records', few, lines⟩ := record_cons records frame rest
      obtain ⟨takes, others⟩ := List.cons.inj eq
      have number : frame'.number = frame.number := (congrArg Prod.fst takes).symm
      have often : asked frame'.moves = asked frame.moves := by
        rw [asked_eq, asked_eq]
        exact congrArg (fun t => t.2.length) takes.symm
      have later := record_later records' ascends
      have begun := begin_spec replays frame'
      rw [number, queue, lines] at begun
      rw [lines] at inTime
      obtain ⟨enough, onward⟩ := inTime.tail
      have posted : (replaying.begin frame').box.length = replaying.box.length + frame'.posted.length := length_append
      have all_in : frame'.arrivals = frame'.posted.length + arrivals frame'.moves := rfl
      have bound : replaying.box.length + (frame'.arrivals + (rest'.map FrameScript.arrivals).sum) ≤
        n + total (recording'.record rest) := inTime.no_more
      obtain ⟨supplied, box⟩ := moves_supplied begun.1 begun.2.1 begun.2.2 later frame'.moves
        (single frame' mem_cons_self) (by omega) (by omega)
      obtain ⟨replays', count, queue'⟩ := moves_count begun.1 begun.2.1 begun.2.2 later frame'.moves supplied
      rw [often] at count queue'
      rw [Nat.sub_eq_zero_of_le few, landings_zero] at queue'
      have held : ((replaying.begin frame').moves frame'.moves).1.box.length =
          replaying.box.length + frame'.arrivals - n := by omega
      exact ⟨supplied, ih records' replays' others (pairwise_cons.mp ascends).2 queue'
        (fun frame mem => single frame (mem_cons_of_mem _ mem)) (held ▸ onward)⟩

/-- The replay's whole law: landings are accounted for over any run, and a store with one mailbox, taken
on the same frames as when it was recorded, consumes what was recorded on each. -/
theorem replay_accounts (schedule : Schedule) (calls : List (GateCall α)) (onward : Onward calls) :
    Accounted schedule (history Gate.step (.armSparseReplay schedule.queue) calls)
        (run Gate.step (.armSparseReplay schedule.queue) calls) ∧
      ∀ (ord : StoreOrd) (frames frames' : List (FrameScript α ord)), SameTakes frames frames' → Ascending frames →
        schedule.queue ord = landings (Desk.record ⟨.armRecording, []⟩ frames) →
        ((∀ frame ∈ frames', ∀ m ∈ frame.moves, m.single = true) ∧ InTime (Desk.record ⟨.armRecording, []⟩ frames) 0 frames' ∨
          Desk.Supplied ⟨.armSparseReplay schedule.queue, []⟩ frames') →
        Desk.consume ⟨.armSparseReplay schedule.queue, []⟩ frames' = Desk.record ⟨.armRecording, []⟩ frames := by
  refine ⟨replay_accounted schedule calls onward, fun ord frames frames' same ascends queue supply => ?_⟩
  have desk : Records (⟨.armRecording, []⟩ : Desk α).gate := ⟨rfl, rfl⟩
  have replays : Replays (Gate.armSparseReplay schedule.queue : Gate α) := ⟨rfl, rfl⟩
  have supplied : Desk.Supplied ⟨.armSparseReplay schedule.queue, []⟩ frames' := by
    rcases supply with ⟨single, inTime⟩ | supplied
    · exact supplied_in_time desk replays same ascends queue single inTime
    · exact supplied
  exact replay_repeats desk replays same ascends queue supplied

section

def sampleOrd : StoreOrd := ⟨1⟩

/-- Two answers, one a frame, each when it is due. -/
def sampleRecorded (m : Move Nat sampleOrd) : List (FrameScript Nat sampleOrd) := [⟨1, [7], [m]⟩, ⟨3, [8], [m]⟩]

def sampleEarly (m : Move Nat sampleOrd) : List (FrameScript Nat sampleOrd) := [⟨1, [7, 8], [m]⟩, ⟨3, [], [m]⟩]

def sampleSchedule : Schedule where
  queue := fun ord => if ord = sampleOrd then [(1, 1), (3, 1)] else []
  ascends := by
    intro ord
    split
    · decide
    · exact .nil
  positive := by
    intro ord
    split
    · decide
    · nofun

theorem split_pair {β : Type} {a b e : β} {earlier later : List β} (split : [a, b] = earlier ++ e :: later) :
    earlier = [] ∧ e = a ∨ earlier = [a] ∧ e = b := by
  rcases earlier with _ | ⟨first, _ | ⟨second, rest⟩⟩
  · cases split
    exact .inl ⟨rfl, rfl⟩
  · cases split
    exact .inr ⟨rfl, rfl⟩
  · have sizes := congrArg List.length split
    simp only [length_cons, length_append, length_nil] at sizes
    omega

theorem sampleEarly_inTime {m : Move Nat sampleOrd} (quiet : m.arrivals = 0) : InTime [(1, 1), (3, 1)] 0 (sampleEarly m) := by
  have first : (⟨1, [7, 8], [m]⟩ : FrameScript Nat sampleOrd).arrivals = 2 := by
    change 2 + (m.arrivals + 0) = 2
    rw [quiet]
  have second : (⟨3, [], [m]⟩ : FrameScript Nat sampleOrd).arrivals = 0 := by
    change 0 + (m.arrivals + 0) = 0
    rw [quiet]
  constructor
  case by_frame =>
    intro earlier frame later split
    rcases split_pair split with ⟨rfl, rfl⟩ | ⟨rfl, rfl⟩
    · change 1 ≤ 0 + 0 + 2
      decide
    · change 2 ≤ 0 + (FrameScript.arrivals _ + 0) + 0
      rw [first]
  case no_more =>
    change 0 + (FrameScript.arrivals _ + (FrameScript.arrivals _ + 0)) ≤ 2
    rw [first, second]

/-- An answer that nobody recorded, beside the one that somebody did. -/
def sampleUnrecorded (extra : List Nat) : List (FrameScript Nat sampleOrd) := [⟨1, 7 :: extra, [.take]⟩, ⟨2, [], [.take]⟩]

/-- A drain takes two batches for one landing once both have arrived, and a take consumes an answer that was
never recorded. -/
theorem replay_counts_differ :
    (SameTakes (sampleRecorded .takeAll) (sampleEarly .takeAll) ∧ Ascending (sampleRecorded .takeAll) ∧
      Desk.record ⟨.armRecording, []⟩ (sampleRecorded .takeAll) = [(1, 1), (3, 1)] ∧
      InTime [(1, 1), (3, 1)] 0 (sampleEarly .takeAll) ∧
      Desk.consume ⟨.armSparseReplay fun _ => [(1, 1), (3, 1)], []⟩ (sampleEarly .takeAll) = [(1, 1), (3, 0)]) ∧
    (SameTakes (sampleUnrecorded []) (sampleUnrecorded [8]) ∧ Ascending (sampleUnrecorded []) ∧
      Desk.record ⟨.armRecording, []⟩ (sampleUnrecorded []) = [(1, 1), (2, 0)] ∧
      ArrivedBy [(1, 1), (2, 0)] 0 (sampleUnrecorded [8]) ∧
      Desk.consume ⟨.armSparseReplay fun _ => [(1, 1)], []⟩ (sampleUnrecorded [8]) = [(1, 1), (2, 1)]) := by
  refine ⟨⟨rfl, by decide, by decide, sampleEarly_inTime rfl, by decide⟩, rfl, by decide, by decide, ?_, by decide⟩
  intro earlier frame later split
  rcases split_pair split with ⟨rfl, rfl⟩ | ⟨rfl, rfl⟩ <;> decide

theorem replay_accounts_sample :
    Accounted sampleSchedule (history Gate.step (.armSparseReplay sampleSchedule.queue) ([.beginFrame 1, .beginFrame 3] : List (GateCall Nat)))
        (run Gate.step (.armSparseReplay sampleSchedule.queue) [.beginFrame 1, .beginFrame 3]) ∧
      Desk.consume ⟨.armSparseReplay sampleSchedule.queue, []⟩ (sampleEarly .take) = [(1, 1), (3, 1)] := by
  have law := replay_accounts (α := Nat) sampleSchedule [.beginFrame 1, .beginFrame 3] (by decide)
  refine ⟨law.1, law.2 sampleOrd (sampleRecorded .take) (sampleEarly .take) rfl (by decide) (by decide) (.inl ⟨?_, ?_⟩)⟩
  · decide
  · exact sampleEarly_inTime rfl

end
end PlxNative.Machine
