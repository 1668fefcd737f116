import PlxNative.Machine.LandGate

/-! A paced dump: the driver holds a virtual frame while a take is starved, so that what each
landing site is handed, and when, does not depend on the workers. -/
namespace PlxNative.Machine
open List Function Gate

variable {α : Type}

/-- A claim that the main thread opens at a virtual frame, the answers that settle it in the order
their mailbox gets them, and what the site reads off a batch: still owed, until it has them all. -/
structure Claim (α : Type) where
  opened : Nat
  answers : List α
  unanswered : List α → Bool
  partly : ∀ got, got <+: answers → got ≠ answers → unanswered got = true
  whole : unanswered answers = false
  something : answers ≠ []

structure Visit (α : Type) where
  frame : Nat
  claim : Option Nat
  posted : List α
  handed : List α
  owed : Bool

/-- A landing site with its mailbox: a slot taken by `take_owed`, or a queue taken by `take_all_owed`. -/
structure Station (α : Type) where
  site : Site
  name : String
  queue : Bool
  claims : List (Claim α)
  sent : Nat
  box : List α
  log : List (Visit α)

namespace Station

/-- The claim that is open at a virtual frame. -/
def claim (st : Station α) (v : Nat) : Option (Claim α) := st.claims.head?.filter fun c => c.opened ≤ v

def owed (v : Nat) (st : Station α) : Bool := (st.claim v).isSome

def owedOn (v : Nat) (st : Station α) (batch : List α) : Bool :=
  match st.claim v with
  | none => false
  | some c => c.unanswered batch

/-- Up to so many more of the open claim's answers come into the mailbox. -/
def arrivals (st : Station α) (v few : Nat) : List α :=
  match st.claim v with
  | none => []
  | some c => (c.answers.drop st.sent).take few

def post (st : Station α) (v few : Nat) : Station α :=
  { st with sent := st.sent + (st.arrivals v few).length, box := st.box ++ st.arrivals v few }

/-- The claim is cleared: its answer has been taken. -/
def settled (st : Station α) : Station α := { st with claims := st.claims.tail, sent := 0 }

/-- The slot's take, which releases the claim. -/
def takeCurrent (st : Station α) : Option α × Station α :=
  match st.box with
  | [] => (none, st)
  | answer :: rest => (some answer, { st.settled with box := rest })

def drain (st : Station α) : List α × Station α := (st.box, { st with box := [] })

def noteVisit (st : Station α) (visit : Visit α) : Station α := { st with log := st.log ++ [visit] }

/-- One execution of the site, before which so many answers may have become visible. -/
def visit (v few : Nat) (g : Gate α) (st : Station α) : Gate α × Station α :=
  let posted := st.post v few
  let seen := (st.claim v).map Claim.opened
  if st.queue then
    match g.takeAllOwed st.site st.name true (fun st batch => st.owedOn v batch) drain posted with
    | .error _ => (g, posted)
    | .ok (batch, g, st') =>
      (g, (if batch.isEmpty then st' else st'.settled).noteVisit
        ⟨v, seen, st.arrivals v few, batch, st'.owedOn v batch⟩)
  else
    match g.takeOwed st.site st.name true (owed v) takeCurrent posted with
    | .error _ => (g, posted)
    | .ok (got, g, st') => (g, st'.noteVisit ⟨v, seen, st.arrivals v few, got.toList, st'.owed v⟩)

end Station

/-- The dump: the virtual frame in flight, the gate and the landing sites in the order they run. -/
structure Film (α : Type) where
  frame : Nat
  gate : Gate α
  stations : List (Station α)

/-- The landing sites of one iteration, each with the answers its workers have made visible. -/
def visitAll (v : Nat) : (Nat → Nat) → Gate α → List (Station α) → Gate α × List (Station α)
  | _, g, [] => (g, [])
  | few, g, st :: rest =>
    let (g, st) := st.visit v (few 0) g
    let (g, rest) := visitAll v (fun i => few (i + 1)) g rest
    (g, st :: rest)

def Film.iterate (film : Film α) (few : Nat → Nat) : Film α :=
  let (g, stations) := visitAll film.frame few (film.gate.dumpFrame film.frame) film.stations
  let (starved, g) := g.takeStarved
  { frame := if starved.isEmpty then film.frame + 1 else film.frame, gate := g, stations }

/-- A dump under a schedule: for each iteration, how many answers become visible to each site. -/
def Film.shoot (film : Film α) (schedule : List (Nat → Nat)) : Film α := schedule.foldl Film.iterate film

/-- A gate armed for a paced dump, in the middle of a virtual frame. -/
structure Pacing (lag v : Nat) (g : Gate α) : Prop where
  armed : g.armed = true
  mode : g.mode = .dumping (.pace lag)
  frame : g.vframe = v

/-- What a take at a site leaves of the gate for the others. -/
structure Aside (site : Site) (g g' : Gate α) : Prop where
  armed : g'.armed = g.armed
  mode : g'.mode = g.mode
  frame : g'.vframe = g.vframe
  sighted : ∀ other, other ≠ site → g'.sighted other = g.sighted other
  carry : ∀ other, other ≠ site → g'.carry other = g.carry other
  starved : g.starved ≠ [] → g'.starved ≠ []

theorem Aside.refl (site : Site) (g : Gate α) : Aside site g g := ⟨rfl, rfl, rfl, fun _ _ => rfl, fun _ _ => rfl, id⟩

variable {site : Site} {g g' : Gate α}

theorem Aside.trans {g'' : Gate α} (first : Aside site g g') (second : Aside site g' g'') :
    Aside site g g'' where
  armed := second.armed.trans first.armed
  mode := second.mode.trans first.mode
  frame := second.frame.trans first.frame
  sighted := fun other apart => (second.sighted other apart).trans (first.sighted other apart)
  carry := fun other apart => (second.carry other apart).trans (first.carry other apart)
  starved := fun some => second.starved (first.starved some)

theorem Aside.pacing {lag v : Nat} (aside : Aside site g g') (pacing : Pacing lag v g) :
    Pacing lag v g' := ⟨aside.armed.trans pacing.armed, aside.mode.trans pacing.mode, aside.frame.trans pacing.frame⟩

theorem noteName_ne_nil (names : List String) (name : String) : noteName names name ≠ [] := by
  unfold noteName
  split
  next mem => exact ne_nil_of_mem mem
  next => exact ne_nil_of_mem ((mem_orderedInsert (· ≤ ·)).mpr (.inl rfl))

variable {lag v : Nat} {g : Gate α} {site : Site}

theorem paceHold_shut (g : Gate α) (site : Site) (name : String) (lag : Nat) : g.paceHold site name lag false = (false, g) :=
  if_pos (.inr rfl)

theorem paceHold_blocking (g : Gate α) (site : Site) (name : String) (claimOpen : Bool) :
    g.paceHold site name 0 claimOpen = (false, g) := if_pos (.inl rfl)

theorem paceHold_open (pacing : Pacing lag v g) {opened : Nat}
    (since : g.sighted site = some opened ∨ g.sighted site = none ∧ opened = v) (lagging : lag ≠ 0) (name : String) :
    ∃ g', g.paceHold site name lag true = (decide (v < opened + lag), g') ∧ Aside site g g' ∧
      g'.sighted site = some opened ∧ g'.carry = g.carry := by
  have first : (g.sighted site).getD g.vframe = opened := by
    rcases since with sighted | ⟨unseen, now⟩
    · rw [sighted]
      rfl
    · rw [unseen, pacing.frame, now]
      rfl
  have aside : Aside site g { g with sighted := Function.update g.sighted site (some opened) } :=
    ⟨rfl, rfl, rfl, fun _ apart => update_of_ne apart .., fun _ _ => rfl, id⟩
  have open_ : ¬(lag = 0 ∨ (!true) = true) := fun either => either.elim lagging nofun
  unfold paceHold
  rw [if_neg open_]
  simp only [first]
  by_cases early : v < opened + lag
  · rw [if_pos (pacing.frame.symm ▸ early), decide_eq_true early]
    exact ⟨_, rfl, { aside with }, update_self .., rfl⟩
  · rw [if_neg (pacing.frame.symm ▸ early), decide_eq_false early]
    exact ⟨_, rfl, aside, update_self .., rfl⟩

theorem paceSettle_done (g : Gate α) (site : Site) (name : String) : Aside site g (g.paceSettle site name true) ∧
    (g.paceSettle site name true).sighted site = none ∧ (g.paceSettle site name true).carry = g.carry :=
  ⟨⟨rfl, rfl, rfl, fun _ apart => update_of_ne apart .., fun _ _ => rfl, id⟩, update_self .., rfl⟩

theorem paceSettle_starved (g : Gate α) (site : Site) (name : String) : Aside site g (g.paceSettle site name false) ∧
    (g.paceSettle site name false).sighted = g.sighted ∧ (g.paceSettle site name false).carry = g.carry ∧
    (g.paceSettle site name false).starved ≠ [] :=
  have starved : (g.paceSettle site name false).starved ≠ [] := noteName_ne_nil g.starved name
  ⟨⟨rfl, rfl, rfl, fun _ _ => rfl, fun _ _ => rfl, fun _ => starved⟩, rfl, rfl, starved⟩

theorem carried_spec (g : Gate α) (site : Site) : (g.carried site).1 = g.carry site ∧ Aside site g (g.carried site).2 ∧
    (g.carried site).2.carry site = [] ∧ (g.carried site).2.sighted = g.sighted :=
  ⟨rfl, ⟨rfl, rfl, rfl, fun _ _ => rfl, fun _ apart => update_of_ne apart .., id⟩, update_self .., rfl⟩

theorem carryOn_spec (empty : g.carry site = []) (batch : List α) : Aside site g (g.carryOn site batch) ∧
    (g.carryOn site batch).carry site = batch ∧ (g.carryOn site batch).sighted = g.sighted ∧
    (g.carryOn site batch).starved = g.starved := by
  cases batch with
  | nil => exact ⟨.refl .., empty, rfl, rfl⟩
  | cons answer rest =>
    exact ⟨⟨rfl, rfl, rfl, fun _ _ => rfl, fun _ apart => update_of_ne apart .., id⟩, update_self .., rfl, rfl⟩

/-- Where a site stands between two of its visits. -/
structure Good (lag v : Nat) (g : Gate α) (st : Station α) : Prop where
  spaced : st.claims.Pairwise fun c c' => c.opened + lag < c'.opened
  ahead : ∀ c ∈ st.claims, v ≤ c.opened + lag
  single : st.queue = false → (∀ c ∈ st.claims, c.answers.length = 1) ∧ g.carry st.site = []
  shut : st.claim v = none → st.sent = 0 ∧ st.box = [] ∧ g.carry st.site = [] ∧ g.sighted st.site = none
  kept : ∀ c, st.claim v = some c → g.carry st.site ++ st.box = c.answers.take st.sent ∧ st.sent ≤ c.answers.length ∧
    g.carry st.site ≠ c.answers
  since : ∀ c, st.claim v = some c → g.sighted st.site = some c.opened ∨ g.sighted st.site = none ∧ c.opened = v

inductive Visited (lag v few : Nat) (g : Gate α) (st : Station α) : Gate α × Station α → Prop
  | shut {g' : Gate α} (closed : st.claim v = none) (aside : Aside st.site g g') (sighted : g'.sighted st.site = none)
      (carry : g'.carry st.site = []) :
      Visited lag v few g st (g', st.noteVisit ⟨v, none, [], [], false⟩)
  | early {g' : Gate α} {c : Claim α} (open_ : st.claim v = some c) (early : v < c.opened + lag) (aside : Aside st.site g g')
      (sighted : g'.sighted st.site = some c.opened) (carry : g'.carry st.site = g.carry st.site) (owed : Bool) :
      Visited lag v few g st (g', (st.post v few).noteVisit ⟨v, some c.opened, st.arrivals v few, [], owed⟩)
  | starved {g' : Gate α} {c : Claim α} (open_ : st.claim v = some c) (due : v = c.opened + lag) (aside : Aside st.site g g')
      (starved : g'.starved ≠ []) (since : g'.sighted st.site = some c.opened ∨ g'.sighted st.site = none ∧ c.opened = v)
      (box : List α) (same : g'.carry st.site ++ box = g.carry st.site ++ (st.post v few).box)
      (partly : g'.carry st.site ≠ c.answers) (slot : st.queue = false → g'.carry st.site = []) (owed : Bool) :
      Visited lag v few g st (g', { st.post v few with box }.noteVisit ⟨v, some c.opened, st.arrivals v few, [], owed⟩)
  | landed {g' : Gate α} {c : Claim α} (open_ : st.claim v = some c) (due : v = c.opened + lag) (aside : Aside st.site g g')
      (sighted : g'.sighted st.site = none) (carry : g'.carry st.site = [])
      (all : g.carry st.site ++ (st.post v few).box = c.answers) :
      Visited lag v few g st (g', { (st.post v few).settled with box := [] }.noteVisit
        ⟨v, some c.opened, st.arrivals v few, c.answers, false⟩)

variable {st : Station α} {c : Claim α} {few : Nat}

theorem Station.claim_cons (open_ : st.claim v = some c) : (∃ rest, st.claims = c :: rest) ∧ c.opened ≤ v := by
  unfold Station.claim at open_
  cases claims : st.claims with
  | nil =>
    rw [claims] at open_
    cases open_
  | cons first rest =>
    rw [claims] at open_
    obtain ⟨eq, by_now⟩ := Option.filter_eq_some_iff.mp open_
    cases eq
    exact ⟨⟨rest, rfl⟩, of_decide_eq_true by_now⟩

theorem Station.arrivals_open (open_ : st.claim v = some c) (few : Nat) : st.arrivals v few = (c.answers.drop st.sent).take few := by
  unfold Station.arrivals
  rw [open_]

theorem Good.posted (good : Good lag v g st) (open_ : st.claim v = some c) (few : Nat) :
    g.carry st.site ++ (st.post v few).box = c.answers.take (st.post v few).sent ∧
      (st.post v few).sent ≤ c.answers.length := by
  obtain ⟨kept, bound, -⟩ := good.kept c open_
  change g.carry st.site ++ (st.box ++ st.arrivals v few) = c.answers.take (st.sent + (st.arrivals v few).length) ∧
    st.sent + (st.arrivals v few).length ≤ _
  rw [Station.arrivals_open open_, ← append_assoc, kept, take_add, length_take, length_drop]
  refine ⟨?_, by omega⟩
  congr 1
  rw [take_eq_take_iff, length_drop]
  omega

theorem Claim.unanswered_iff (c : Claim α) {sent : Nat} : c.unanswered (c.answers.take sent) = true ↔ c.answers.take sent ≠ c.answers := by
  constructor
  · intro owed whole
    rw [whole, c.whole] at owed
    cases owed
  · exact c.partly _ (List.take_prefix _ _)

section

variable {W T : Type}

theorem takeOwed_paced (pacing : Pacing lag v g) (site : Site) (name : String) (owed : W → Bool) (f : W → Option T × W) (w : W) :
    g.takeOwed site name true owed f w = .ok (g.takePaced site name lag owed f w) := by
  have armed : ¬(!g.armed) = true := by
    rw [pacing.armed]
    decide
  unfold takeOwed
  rw [if_neg armed, pacing.mode]

theorem takeAllOwed_paced (pacing : Pacing lag v g) (site : Site) (name : String) (owed : W → List α → Bool)
    (f : W → List α × W) (w : W) :
    g.takeAllOwed site name true owed f w = .ok (g.takeAllPaced site name lag owed f w) := by
  have armed : ¬(!g.armed) = true := by
    rw [pacing.armed]
    decide
  unfold takeAllOwed
  rw [if_neg armed, pacing.mode]

variable {name : String} {owed : W → Bool} {g' : Gate α}

theorem takePaced_held {w : W}
    (hold : g.paceHold site name lag (owed w) = (true, g')) (f : W → Option T × W) :
    g.takePaced site name lag owed f w = (none, g', w) := by
  unfold takePaced
  rw [hold]
  rfl

theorem takePaced_free {w w' : W} {f : W → Option T × W} {got : Option T}
    (hold : g.paceHold site name lag (owed w) = (false, g')) (polled : f w = (got, w')) :
    g.takePaced site name lag owed f w = (got, g'.paceSettle site name (got.isSome || !owed w'), w') := by
  unfold takePaced
  rw [hold]
  simp only [Bool.false_eq_true, if_false, polled]

section

variable {name : String} {owed : W → List α → Bool} {w w' : W} {g' kept : Gate α} {batch got : List α} {f : W → List α × W}

section
variable (carried : g.carried site = (batch, kept))
include carried

theorem takeAllPaced_held
    (hold : kept.paceHold site name lag (owed w batch) = (true, g')) (f : W → List α × W) :
    g.takeAllPaced site name lag owed f w = ([], g'.carryOn site batch, w) := by
  unfold takeAllPaced
  simp only [carried, hold, if_true]

theorem takeAllPaced_owed
    (hold : kept.paceHold site name lag (owed w batch) = (false, g')) (polled : f w = (got, w'))
    (still : owed w' (batch ++ got) = true) :
    g.takeAllPaced site name lag owed f w = ([], (g'.paceSettle site name false).carryOn site (batch ++ got), w') := by
  unfold takeAllPaced
  simp only [carried, hold, Bool.false_eq_true, if_false, polled, still, if_true]

theorem takeAllPaced_whole
    (hold : kept.paceHold site name lag (owed w batch) = (false, g')) (polled : f w = (got, w'))
    (all : owed w' (batch ++ got) = false) :
    g.takeAllPaced site name lag owed f w = (batch ++ got, g'.paceSettle site name true, w') := by
  unfold takeAllPaced
  simp only [carried, hold, Bool.false_eq_true, if_false, polled, all]

end

end

theorem paceHold_cases (pacing : Pacing lag v g) {opened : Nat} (ahead : v ≤ opened + lag) (by_now : opened ≤ v)
    (since : g.sighted site = some opened ∨ g.sighted site = none ∧ opened = v) (name : String) :
    ∃ g', g.paceHold site name lag true = (decide (v < opened + lag), g') ∧ Aside site g g' ∧ g'.carry = g.carry ∧
      (v < opened + lag → g'.sighted site = some opened) ∧
      (g'.sighted site = some opened ∨ g'.sighted site = none ∧ opened = v) := by
  by_cases blocking : lag = 0
  · subst blocking
    have due : ¬v < opened + 0 := by omega
    rw [decide_eq_false due]
    exact ⟨g, paceHold_blocking .., .refl .., rfl, fun early => absurd early due, since⟩
  · obtain ⟨g', held, aside, sighted, carry⟩ := paceHold_open pacing since blocking name
    exact ⟨g', held, aside, carry, fun _ => sighted, .inl sighted⟩

end

variable {st' : Station α}

theorem visit_slot (pacing : Pacing lag v g) (slot : st.queue = false) {got : Option α}
    (taken : g.takePaced st.site st.name lag (Station.owed v) Station.takeCurrent (st.post v few) = (got, g', st')) :
    st.visit v few g = (g', st'.noteVisit ⟨v, (st.claim v).map Claim.opened, st.arrivals v few, got.toList, st'.owed v⟩) := by
  unfold Station.visit
  rw [if_neg (by rw [slot]; decide)]
  simp only [takeOwed_paced pacing, taken]

theorem visit_queue (pacing : Pacing lag v g) (queue : st.queue = true) {batch : List α}
    (taken : g.takeAllPaced st.site st.name lag (fun st batch => st.owedOn v batch) Station.drain (st.post v few) =
      (batch, g', st')) :
    st.visit v few g = (g', (if batch.isEmpty then st' else st'.settled).noteVisit
      ⟨v, (st.claim v).map Claim.opened, st.arrivals v few, batch, st'.owedOn v batch⟩) := by
  unfold Station.visit
  rw [if_pos queue]
  simp only [takeAllOwed_paced pacing, taken]

section
variable (good : Good lag v g st)
include good

theorem Good.post_shut (closed : st.claim v = none) (few : Nat) :
    st.arrivals v few = [] ∧ st.post v few = st ∧ st.takeCurrent = (none, st) ∧ st.drain = ([], st) := by
  have empty := (good.shut closed).2.1
  have quiet : st.arrivals v few = [] := by
    unfold Station.arrivals
    rw [closed]
  refine ⟨quiet, ?_, ?_, ?_⟩
  · unfold Station.post
    rw [quiet, append_nil]
    rfl
  · unfold Station.takeCurrent
    rw [empty]
  · unfold Station.drain
    rw [empty]
    exact congrArg (Prod.mk []) (by rw [← empty])

theorem Good.visit_shut (pacing : Pacing lag v g) (closed : st.claim v = none) (few : Nat) :
    Visited lag v few g st (st.visit v few g) := by
  obtain ⟨-, -, carry, -⟩ := good.shut closed
  obtain ⟨quiet, posted, current, drained⟩ := good.post_shut closed few
  cases queue : st.queue with
  | false =>
    have unowed : st.owed v = false := by
      unfold Station.owed
      rw [closed]
      rfl
    have hold : g.paceHold st.site st.name lag (st.owed v) = (false, g) := by
      rw [unowed]
      exact paceHold_shut ..
    have taken := takePaced_free hold current
    rw [visit_slot pacing queue ((congrArg _ posted).trans taken), closed, quiet, unowed]
    obtain ⟨aside, forgotten, kept⟩ := paceSettle_done g st.site st.name
    exact .shut closed aside forgotten ((congrFun kept _).trans carry)
  | true =>
    have unowed : ∀ batch, st.owedOn v batch = false := by
      intro batch
      unfold Station.owedOn
      rw [closed]
    obtain ⟨batch, aside, left, -⟩ := carried_spec g st.site
    have hold : (g.carried st.site).2.paceHold st.site st.name lag (st.owedOn v []) = (false, (g.carried st.site).2) := by
      rw [unowed]
      exact paceHold_shut ..
    have taken : g.takeAllPaced st.site st.name lag (fun st batch => st.owedOn v batch) Station.drain st =
        ([], (g.carried st.site).2.paceSettle st.site st.name true, st) :=
      takeAllPaced_whole (Prod.ext (batch.trans carry) rfl) hold drained (unowed _)
    rw [visit_queue pacing queue ((congrArg _ posted).trans taken), closed, quiet, unowed]
    obtain ⟨aside', forgotten, kept⟩ := paceSettle_done (g.carried st.site).2 st.site st.name
    exact .shut closed (aside.trans aside') forgotten ((congrFun kept _).trans left)

theorem Good.next_shut (open_ : st.claim v = some c) (due : v = c.opened + lag) (st' : Station α)
    (claims' : st'.claims = st.claims.tail) : st'.claim v = none := by
  obtain ⟨⟨rest, claims⟩, -⟩ := Station.claim_cons open_
  have spaced := good.spaced
  rw [claims, pairwise_cons] at spaced
  unfold Station.claim
  rw [claims', claims, tail_cons]
  cases rest with
  | nil => rfl
  | cons next others =>
    have later := spaced.1 next mem_cons_self
    exact Option.filter_eq_none_iff.mpr fun other eq by_now => by
      cases eq
      have by_now := of_decide_eq_true by_now
      omega

theorem Good.visit_slot (pacing : Pacing lag v g) (slot : st.queue = false)
    (open_ : st.claim v = some c) (few : Nat) : Visited lag v few g st (st.visit v few g) := by
  obtain ⟨⟨rest, claims⟩, by_now⟩ := Station.claim_cons open_
  have listed : c ∈ st.claims := claims ▸ mem_cons_self
  obtain ⟨one, carry⟩ := good.single slot
  obtain ⟨posted, -⟩ := good.posted open_ few
  have owed : (st.post v few).owed v = true := by
    change (st.claim v).isSome = true
    rw [open_]
    rfl
  obtain ⟨g', hold, aside, kept, sighted, since⟩ :=
    paceHold_cases pacing (good.ahead c listed) by_now (good.since c open_) st.name
  rw [← owed] at hold
  by_cases early : v < c.opened + lag
  · rw [decide_eq_true early] at hold
    rw [Machine.visit_slot pacing slot (takePaced_held hold _), open_]
    exact .early open_ early aside (sighted early) (congrFun kept _) _
  · rw [decide_eq_false early] at hold
    have due : v = c.opened + lag := Nat.le_antisymm (good.ahead c listed) (Nat.not_lt.mp early)
    rw [carry, nil_append] at posted
    cases box : (st.post v few).box with
    | nil =>
      have nothing : (st.post v few).takeCurrent = (none, st.post v few) := by
        unfold Station.takeCurrent
        rw [box]
      have taken := takePaced_free hold nothing
      rw [owed] at taken
      rw [Machine.visit_slot pacing slot taken, open_]
      obtain ⟨aside', sighted', kept', starved⟩ := paceSettle_starved g' st.site st.name
      have still : g'.carry st.site = [] := (congrFun kept _).trans carry
      exact .starved open_ due (aside.trans aside') starved (sighted'.symm ▸ since) (st.post v few).box
        (by rw [kept', still, carry]) (by rw [kept', still]; exact c.something.symm) (fun _ => by rw [kept', still]) _
    | cons answer others =>
      have all : (st.post v few).box = c.answers := by
        have length_one := one c listed
        rw [posted, take_of_length_le]
        have some_in := congrArg List.length posted
        rw [box, length_cons, length_take] at some_in
        omega
      have single : others = [] := by
        have length_one := one c listed
        rw [← all, box, length_cons] at length_one
        exact length_eq_zero_iff.mp (by omega)
      subst single
      have took : (st.post v few).takeCurrent = (some answer, { (st.post v few).settled with box := [] }) := by
        unfold Station.takeCurrent
        rw [box]
      have taken := takePaced_free hold took
      rw [Machine.visit_slot pacing slot taken, open_]
      obtain ⟨aside', forgotten, kept'⟩ := paceSettle_done g' st.site st.name
      have shut : Station.owed v { (st.post v few).settled with box := [] } = false := by
        unfold Station.owed
        rw [good.next_shut open_ due { (st.post v few).settled with box := [] } rfl]
        rfl
      rw [shut]
      have answers : (some answer).toList = c.answers := box.symm.trans all
      rw [answers]
      exact .landed open_ due (aside.trans aside') forgotten ((congrFun (kept'.trans kept) _).trans carry)
        (by rw [carry]; exact all)

theorem Good.visit_queue (pacing : Pacing lag v g) (queue : st.queue = true)
    (open_ : st.claim v = some c) (few : Nat) : Visited lag v few g st (st.visit v few g) := by
  obtain ⟨⟨rest, claims⟩, by_now⟩ := Station.claim_cons open_
  have listed : c ∈ st.claims := claims ▸ mem_cons_self
  obtain ⟨kept, -, unfinished⟩ := good.kept c open_
  obtain ⟨posted, -⟩ := good.posted open_ few
  have reads : ∀ (st' : Station α) batch, st'.claims = st.claims → st'.owedOn v batch = c.unanswered batch := by
    intro st' batch eq
    unfold Station.owedOn Station.claim
    rw [eq]
    change (match st.claim v with | none => false | some c => c.unanswered batch) = _
    rw [open_]
  obtain ⟨batch, aside, left, sighted_same⟩ := carried_spec g st.site
  have carried : g.carried st.site = (g.carry st.site, (g.carried st.site).2) := Prod.ext batch rfl
  have owed : (st.post v few).owedOn v (g.carry st.site) = true := by
    rw [reads (st.post v few) _ rfl]
    have begun : g.carry st.site <+: c.answers :=
      (prefix_append _ _).trans (kept ▸ List.take_prefix _ _)
    exact c.partly _ begun unfinished
  obtain ⟨g', hold, aside', kept', sighted, since⟩ := paceHold_cases (aside.pacing pacing) (good.ahead c listed) by_now
    (sighted_same ▸ good.since c open_) st.name
  have left' : g'.carry st.site = [] := (congrFun kept' _).trans left
  rw [← owed] at hold
  by_cases early : v < c.opened + lag
  · rw [decide_eq_true early] at hold
    rw [Machine.visit_queue pacing queue (takeAllPaced_held carried hold _), open_]
    obtain ⟨aside'', again, sighted', -⟩ := carryOn_spec left' (g.carry st.site)
    exact .early open_ early ((aside.trans aside').trans aside'') ((congrFun sighted' _).trans (sighted early)) again _
  · rw [decide_eq_false early] at hold
    have due : v = c.opened + lag := Nat.le_antisymm (good.ahead c listed) (Nat.not_lt.mp early)
    have drained : (st.post v few).drain = ((st.post v few).box, { st.post v few with box := [] }) := rfl
    have reads_on : Station.owedOn v { st.post v few with box := [] } (g.carry st.site ++ (st.post v few).box) =
        c.unanswered (g.carry st.site ++ (st.post v few).box) := reads { st.post v few with box := [] } _ rfl
    cases whole : c.unanswered (g.carry st.site ++ (st.post v few).box) with
    | true =>
      have taken := takeAllPaced_owed carried hold drained (reads_on.trans whole)
      rw [Machine.visit_queue pacing queue taken, open_]
      obtain ⟨aside'', sighted', kept'', starved⟩ := paceSettle_starved g' st.site st.name
      have left'' : (g'.paceSettle st.site st.name false).carry st.site = [] := (congrFun kept'' _).trans left'
      obtain ⟨aside₃, again, sighted'', starved'⟩ := carryOn_spec left'' (g.carry st.site ++ (st.post v few).box)
      refine .starved open_ due ((aside.trans aside').trans (aside''.trans aside₃)) (starved'.symm ▸ starved) ?_ []
        ?_ ?_ (fun slot => absurd (queue.symm.trans slot) nofun) _
      · rw [sighted'', sighted']
        exact since
      · rw [again, append_nil]
      · rw [again]
        intro all
        rw [all, c.whole] at whole
        cases whole
    | false =>
      have all : g.carry st.site ++ (st.post v few).box = c.answers := by
        by_contra short
        rw [posted] at short whole
        rw [(c.unanswered_iff).mpr short] at whole
        cases whole
      have taken := takeAllPaced_whole carried hold drained (reads_on.trans whole)
      rw [Machine.visit_queue pacing queue taken, open_, reads_on, whole, all]
      have some_in : c.answers.isEmpty = false := isEmpty_eq_false_iff.mpr c.something
      rw [some_in]
      obtain ⟨aside'', forgotten, kept''⟩ := paceSettle_done g' st.site st.name
      exact .landed open_ due ((aside.trans aside').trans aside'') forgotten ((congrFun kept'' _).trans left') all

theorem Good.visit (pacing : Pacing lag v g) (few : Nat) :
    Visited lag v few g st (st.visit v few g) := by
  cases open_ : st.claim v with
  | none => exact good.visit_shut pacing open_ few
  | some c =>
    cases queue : st.queue with
    | false => exact good.visit_slot pacing queue open_ few
    | true => exact good.visit_queue pacing queue open_ few

end

end PlxNative.Machine
