import PlxNative.Machine.LandPace

/-! What the landing sites of a paced dump are handed, over its whole run and whatever the workers do. -/
namespace PlxNative.Machine
open List Station

variable {α : Type} {lag v few : Nat} {g : Gate α} {st : Station α} {c : Claim α}

/-- What a site was handed, batch by batch, and on which virtual frame. -/
def handed (log : List (Visit α)) : List (Nat × List α) :=
  (log.filter fun e => !e.handed.isEmpty).map fun e => (e.frame, e.handed)

theorem handed_snoc (log : List (Visit α)) (e : Visit α) :
    handed (log ++ [e]) = handed log ++ if e.handed.isEmpty then [] else [(e.frame, e.handed)] := by
  unfold handed
  cases some_in : e.handed.isEmpty <;> simp [some_in]

/-- Was a claim seen open on the very frame it was opened? -/
def SeenOpen (log : List (Visit α)) (opened : Nat) : Prop := ∃ e ∈ log, e.claim = some opened ∧ e.frame = opened

theorem SeenOpen.later {log : List (Visit α)} {opened : Nat} (seen : SeenOpen log opened) (e : Visit α) :
    SeenOpen (log ++ [e]) opened := by
  obtain ⟨f, mem, open_, frame⟩ := seen
  exact ⟨f, mem_append_left _ mem, open_, frame⟩

/-- A hand-out: a claim's whole answer, nothing owed on it, a lag after the claim was first seen. -/
structure HandOut (lag : Nat) (whole : List (Claim α)) (log : List (Visit α)) (e : Visit α) : Prop where
  owed : e.owed = false
  claim : ∃ c ∈ whole, e.claim = some c.opened ∧ e.handed = c.answers ∧ e.frame = c.opened + lag ∧ SeenOpen log c.opened

/-- What the log of a site says of the claims it began with. -/
structure Told (lag v : Nat) (whole : List (Claim α)) (g : Gate α) (st : Station α) : Prop where
  done : ∃ done, whole = done ++ st.claims ∧ handed st.log = done.map (fun c => (c.opened + lag, c.answers)) ∧
    ∀ c ∈ done, c.opened + lag ≤ v
  conserved : st.log.flatMap Visit.posted = st.log.flatMap Visit.handed ++ (g.carry st.site ++ st.box)
  outs : ∀ e ∈ st.log, e.handed ≠ [] → HandOut lag whole st.log e
  sightings : ∀ e ∈ st.log, ∀ opened, e.claim = some opened → opened ≤ e.frame
  seen : ∀ c, st.claim v = some c → c.opened < v → SeenOpen st.log c.opened

/-- What holds of a site once it has been visited on a frame. -/
structure Noticed (lag v : Nat) (g : Gate α) (st : Station α) : Prop where
  seen : ∀ c, st.claim v = some c → SeenOpen st.log c.opened
  sighted : ∀ c, st.claim v = some c → v < c.opened + lag → g.sighted st.site = some c.opened
  hungry : ∀ c, st.claim v = some c → v = c.opened + lag → g.starved ≠ []

theorem flatMap_snoc {β : Type} (f : Visit α → List β) (log : List (Visit α)) (e : Visit α) :
    (log ++ [e]).flatMap f = log.flatMap f ++ f e := by
  rw [flatMap_append, flatMap_singleton]

variable {g' : Gate α}
variable {whole : List (Claim α)} {e : Visit α}

theorem Told.quiet (told : Told lag v whole g st) {st' : Station α}
    (log : st'.log = st.log ++ [e]) (claims : st'.claims = st.claims) (nothing : e.handed = [])
    (kept : g'.carry st'.site ++ st'.box = g.carry st.site ++ st.box ++ e.posted)
    (sighting : ∀ opened, e.claim = some opened → opened ≤ e.frame) : Told lag v whole g' st' := by
  constructor
  case done =>
    obtain ⟨done, split, hands, past⟩ := told.done
    refine ⟨done, claims ▸ split, ?_, past⟩
    rw [log, handed_snoc, nothing]
    exact (append_nil _).trans hands
  case conserved =>
    rw [log, flatMap_snoc, flatMap_snoc, nothing, append_nil, kept, told.conserved, append_assoc]
  case outs =>
    intro f mem some_out
    rw [log] at mem ⊢
    rcases mem_append.mp mem with old | new
    · obtain ⟨owed, c, listed, open_, answers, frame, seen⟩ := told.outs f old some_out
      exact ⟨owed, c, listed, open_, answers, frame, seen.later e⟩
    · rw [mem_singleton.mp new] at some_out
      exact absurd nothing some_out
  case sightings =>
    intro f mem
    rw [log] at mem
    rcases mem_append.mp mem with old | new
    · exact told.sightings f old
    · exact mem_singleton.mp new ▸ sighting
  case seen =>
    intro c open_ before
    rw [log]
    refine (told.seen c ?_ before).later e
    rw [← open_]
    unfold Station.claim
    rw [claims]

theorem Told.first (told : Told lag v whole g st) (open_ : st.claim v = some c)
    (claim : e.claim = some c.opened) (frame : e.frame = v) : SeenOpen (st.log ++ [e]) c.opened := by
  have by_now := (claim_cons open_).2
  rcases Nat.lt_or_ge c.opened v with before | now
  · exact (told.seen c open_ before).later e
  · exact ⟨e, mem_append_right _ (mem_singleton_self _), claim, frame.trans (Nat.le_antisymm now by_now)⟩

variable {r : Gate α × Station α} {whole : List (Claim α)}

section
variable (visited : Visited lag v few g st r)
include visited

theorem Visited.aside : Aside st.site g r.1 ∧ r.2.site = st.site := by
  cases visited with
  | shut closed aside sighted carry => exact ⟨aside, rfl⟩
  | early open_ early aside sighted carry owed => exact ⟨aside, rfl⟩
  | starved open_ due aside starved since box eq partly slot owed => exact ⟨aside, rfl⟩
  | landed open_ due aside sighted carry all => exact ⟨aside, rfl⟩

theorem Visited.good (good : Good lag v g st) : Good lag v r.1 r.2 := by
  cases visited with
  | shut closed aside sighted carry =>
    constructor
    case spaced => exact good.spaced
    case ahead => exact good.ahead
    case single => exact fun slot => ⟨(good.single slot).1, carry⟩
    case shut => exact fun _ => ⟨(good.shut closed).1, (good.shut closed).2.1, carry, sighted⟩
    case kept => exact fun c open_ => nomatch closed.symm.trans open_
    case since => exact fun c open_ => nomatch closed.symm.trans open_
  | @early g' c open_ early aside sighted carry owed =>
    have eq : ∀ c', (st.post v few).claim v = some c' → c' = c := fun c' other =>
      Option.some.inj (Eq.trans (Eq.symm other) open_)
    constructor
    case spaced => exact good.spaced
    case ahead => exact good.ahead
    case single => exact fun slot => ⟨(good.single slot).1, carry.trans (good.single slot).2⟩
    case shut => exact fun closed => nomatch open_.symm.trans closed
    case kept =>
      intro c' other
      obtain rfl := eq c' other
      obtain ⟨posted, bound⟩ := good.posted open_ few
      change g'.carry st.site ++ (st.post v few).box = _ ∧ _ ∧ g'.carry st.site ≠ _
      rw [carry]
      exact ⟨posted, bound, (good.kept c' open_).2.2⟩
    case since =>
      intro c' other
      obtain rfl := eq c' other
      exact .inl sighted
  | @starved g' c open_ due aside starved since box kept partly slot owed =>
    have eq : ∀ c', st.claim v = some c' → c' = c := fun c' other => Option.some.inj (Eq.trans (Eq.symm other) open_)
    constructor
    case spaced => exact good.spaced
    case ahead => exact good.ahead
    case single => exact fun is_slot => ⟨(good.single is_slot).1, slot is_slot⟩
    case shut => exact fun closed => nomatch open_.symm.trans closed
    case kept =>
      intro c' other
      obtain rfl := eq c' other
      obtain ⟨posted, bound⟩ := good.posted open_ few
      exact ⟨kept.trans posted, bound, partly⟩
    case since =>
      intro c' other
      obtain rfl := eq c' other
      exact since
  | @landed g' c open_ due aside sighted carry all =>
    have closed := good.next_shut open_ due
      ({ (st.post v few).settled with box := [] }.noteVisit ⟨v, some c.opened, st.arrivals v few, c.answers, false⟩) rfl
    have fewer : ∀ c' ∈ st.claims.tail, c' ∈ st.claims := fun c' => mem_of_mem_tail
    constructor
    case spaced => exact good.spaced.sublist (tail_sublist _)
    case ahead => exact fun c' mem => good.ahead c' (fewer c' mem)
    case single => exact fun slot => ⟨fun c' mem => (good.single slot).1 c' (fewer c' mem), carry⟩
    case shut => exact fun _ => ⟨rfl, rfl, carry, sighted⟩
    case kept => exact fun c' other => nomatch closed.symm.trans other
    case since => exact fun c' other => nomatch closed.symm.trans other

theorem Visited.told (good : Good lag v g st) (told : Told lag v whole g st) :
    Told lag v whole r.1 r.2 := by
  cases visited with
  | @shut g' closed aside sighted carry =>
    refine told.quiet rfl rfl rfl ?_ nofun
    change g'.carry st.site ++ st.box = g.carry st.site ++ st.box ++ []
    rw [carry, (good.shut closed).2.2.1, append_nil]
  | @early g' c open_ early aside sighted carry owed =>
    refine told.quiet rfl rfl rfl ?_ fun opened eq => ?_
    · change g'.carry st.site ++ (st.box ++ st.arrivals v few) = g.carry st.site ++ st.box ++ st.arrivals v few
      rw [carry, append_assoc]
    · cases eq
      exact (claim_cons open_).2
  | @starved g' c open_ due aside starved since box kept partly slot owed =>
    refine told.quiet rfl rfl rfl ?_ fun opened eq => ?_
    · change g'.carry st.site ++ box = g.carry st.site ++ st.box ++ st.arrivals v few
      rw [kept, append_assoc]
      rfl
    · cases eq
      exact (claim_cons open_).2
  | @landed g' c open_ due aside sighted carry all =>
    obtain ⟨⟨rest, claims⟩, by_now⟩ := claim_cons open_
    let e : Visit α := ⟨v, some c.opened, st.arrivals v few, c.answers, false⟩
    have some_in : c.answers.isEmpty = false := isEmpty_eq_false_iff.mpr c.something
    have first : SeenOpen (st.log ++ [e]) c.opened := told.first open_ rfl rfl
    obtain ⟨done, split, hands, past⟩ := told.done
    constructor
    case done =>
      refine ⟨done ++ [c], ?_, ?_, fun c' mem => ?_⟩
      · change whole = (done ++ [c]) ++ st.claims.tail
        rw [split, claims, append_assoc]
        rfl
      · change handed (st.log ++ [e]) = _
        rw [handed_snoc, hands, map_append]
        change _ ++ (if c.answers.isEmpty = true then [] else [(v, c.answers)]) = _
        rw [some_in, due]
        rfl
      · rcases mem_append.mp mem with old | new
        · exact past c' old
        · rw [mem_singleton.mp new]
          exact Nat.le_of_eq due.symm
    case conserved =>
      change (st.log ++ [e]).flatMap Visit.posted = (st.log ++ [e]).flatMap Visit.handed ++ (g'.carry st.site ++ [])
      rw [flatMap_snoc, flatMap_snoc, carry, told.conserved, append_nil, append_nil, append_assoc,
        append_assoc]
      exact congrArg _ all
    case outs =>
      intro f mem some_out
      rcases mem_append.mp mem with old | new
      · obtain ⟨owed, c', listed, open_', answers, frame, seen⟩ := told.outs f old some_out
        exact ⟨owed, c', listed, open_', answers, frame, seen.later e⟩
      · rw [mem_singleton.mp new]
        refine ⟨rfl, c, ?_, rfl, rfl, due, first⟩
        rw [split, claims]
        exact mem_append_right _ mem_cons_self
    case sightings =>
      refine forall_mem_append.mpr ⟨told.sightings, forall_mem_singleton.mpr ?_⟩
      intro opened eq
      cases eq
      exact by_now
    case seen =>
      intro c' other
      have closed := good.next_shut open_ due ({ (st.post v few).settled with box := [] }.noteVisit e) rfl
      exact nomatch closed.symm.trans other

theorem Visited.noticed (good : Good lag v g st) (told : Told lag v whole g st) :
    Noticed lag v r.1 r.2 := by
  cases visited with
  | shut closed aside sighted carry =>
    exact ⟨fun c' other => (nomatch closed.symm.trans other), fun c' other => (nomatch closed.symm.trans other),
      fun c' other => nomatch closed.symm.trans other⟩
  | @early g' c open_ early aside sighted carry owed =>
    have eq : ∀ c', (st.post v few).claim v = some c' → c' = c := fun c' other =>
      Option.some.inj (Eq.trans (Eq.symm other) open_)
    constructor
    case seen =>
      intro c' other
      obtain rfl := eq c' other
      exact told.first open_ rfl rfl
    case sighted =>
      intro c' other _
      obtain rfl := eq c' other
      exact sighted
    case hungry =>
      intro c' other due
      obtain rfl := eq c' other
      omega
  | @starved g' c open_ due aside starved since box kept partly slot owed =>
    have eq : ∀ c', st.claim v = some c' → c' = c := fun c' other => Option.some.inj (Eq.trans (Eq.symm other) open_)
    constructor
    case seen =>
      intro c' other
      obtain rfl := eq c' other
      exact told.first open_ rfl rfl
    case sighted =>
      intro c' other early
      obtain rfl := eq c' other
      omega
    case hungry => exact fun _ _ _ => starved
  | @landed g' c open_ due aside sighted carry all =>
    have closed := good.next_shut open_ due
      ({ (st.post v few).settled with box := [] }.noteVisit ⟨v, some c.opened, st.arrivals v few, c.answers, false⟩) rfl
    exact ⟨fun c' other => (nomatch closed.symm.trans other), fun c' other => (nomatch closed.symm.trans other),
      fun c' other => nomatch closed.symm.trans other⟩

end

/-- A gate that a site cannot tell from another. -/
structure Alike (site : Site) (g g' : Gate α) : Prop where
  sighted : g'.sighted site = g.sighted site
  carry : g'.carry site = g.carry site

theorem Good.alike (good : Good lag v g st) (alike : Alike st.site g g') : Good lag v g' st := by
  obtain ⟨sighted, carry⟩ := alike
  constructor
  case spaced => exact good.spaced
  case ahead => exact good.ahead
  case single => exact carry ▸ good.single
  case shut => exact carry ▸ sighted ▸ good.shut
  case kept => exact carry ▸ good.kept
  case since => exact sighted ▸ good.since

theorem Told.alike (told : Told lag v whole g st) (alike : Alike st.site g g') : Told lag v whole g' st where
  done := told.done
  conserved := by
    rw [alike.carry]
    exact told.conserved
  outs := told.outs
  sightings := told.sightings
  seen := told.seen

theorem Noticed.alike (noticed : Noticed lag v g st) (alike : Alike st.site g g')
    (starved : g.starved ≠ [] → g'.starved ≠ []) : Noticed lag v g' st where
  seen := noticed.seen
  sighted := fun c open_ early => alike.sighted.trans (noticed.sighted c open_ early)
  hungry := fun c open_ due => starved (noticed.hungry c open_ due)

/-- What holds of a site during a frame, of the claims it began with. -/
structure OnFrame (lag v : Nat) (g : Gate α) (whole : List (Claim α)) (st : Station α) : Prop where
  good : Good lag v g st
  told : Told lag v whole g st

structure Visits (v : Nat) (few : Nat → Nat) (g : Gate α) (stations : List (Station α)) (lag : Nat)
    (wholes : List (List (Claim α))) : Prop where
  pacing : Pacing lag v (visitAll v few g stations).1
  sites : (visitAll v few g stations).2.map Station.site = stations.map Station.site
  frames : List.Forall₂ (fun whole st => OnFrame lag v (visitAll v few g stations).1 whole st ∧
    Noticed lag v (visitAll v few g stations).1 st) wholes (visitAll v few g stations).2
  others : ∀ site, site ∉ stations.map Station.site → Alike site g (visitAll v few g stations).1
  starved : g.starved ≠ [] → (visitAll v few g stations).1.starved ≠ []

theorem forall₂_of_mem {A B : Type} {R S : A → B → Prop} {as : List A} {bs : List B} (related : List.Forall₂ R as bs)
    (step : ∀ a, ∀ b ∈ bs, R a b → S a b) : List.Forall₂ S as bs := by
  induction related with
  | nil => exact .nil
  | cons first rest ih =>
    exact .cons (step _ _ mem_cons_self first) (ih fun a b mem => step a b (mem_cons_of_mem _ mem))

theorem forall₂_join {A B C : Type} {R : A → B → Prop} {S : A → C → Prop} {Q : B → C → Prop} {as : List A} {bs : List B}
    {cs : List C} (first : List.Forall₂ R as bs) (second : List.Forall₂ S as cs) (join : ∀ a b c, R a b → S a c → Q b c) :
    List.Forall₂ Q bs cs := by
  induction first generalizing cs with
  | nil =>
    cases second
    exact .nil
  | cons here _ ih =>
    cases second with
    | cons there rest => exact .cons (join _ _ _ here there) (ih rest)

theorem visits (pacing : Pacing lag v g) {stations : List (Station α)} {wholes : List (List (Claim α))}
    (apart : (stations.map Station.site).Nodup) (frames : List.Forall₂ (OnFrame lag v g) wholes stations) (few : Nat → Nat) :
    Visits v few g stations lag wholes := by
  induction stations generalizing g wholes few with
  | nil =>
    cases frames
    exact ⟨pacing, rfl, .nil, fun _ _ => ⟨rfl, rfl⟩, id⟩
  | cons st rest ih =>
    obtain ⟨unlisted, apart'⟩ := nodup_cons.mp apart
    cases frames with
    | @cons whole _ wholes _ first others =>
      have visited := first.good.visit pacing (few 0)
      have good := visited.good first.good
      have told := visited.told first.good first.told
      have noticed := visited.noticed first.good first.told
      obtain ⟨aside, site⟩ := visited.aside
      have alike : ∀ other, other ≠ st.site → Alike other g (st.visit v (few 0) g).1 := fun other differs =>
        ⟨aside.sighted other differs, aside.carry other differs⟩
      have others' : List.Forall₂ (OnFrame lag v (st.visit v (few 0) g).1) wholes rest := by
        refine forall₂_of_mem others fun whole' st' mem both => ?_
        have differs : st'.site ≠ st.site := fun eq => unlisted (eq ▸ mem_map_of_mem mem)
        exact ⟨both.good.alike (alike _ differs), both.told.alike (alike _ differs)⟩
      have later := ih (aside.pacing pacing) apart' others' fun i => few (i + 1)
      have here := later.others (st.visit v (few 0) g).2.site (by rw [site]; exact unlisted)
      constructor
      case pacing => exact later.pacing
      case sites =>
        change (st.visit v (few 0) g).2.site :: _ = st.site :: _
        rw [site]
        exact congrArg _ later.sites
      case frames =>
        exact .cons ⟨⟨good.alike here, told.alike here⟩, noticed.alike here later.starved⟩ later.frames
      case others =>
        intro other away
        obtain ⟨differs, away'⟩ := not_or.mp (fun either => away (mem_cons.mpr either))
        have first := alike other differs
        have second := later.others other away'
        exact ⟨second.sighted.trans first.sighted, second.carry.trans first.carry⟩
      case starved => exact fun some_in => later.starved (aside.starved some_in)

theorem Station.claim_succ (open_ : st.claim (v + 1) = some c) :
    st.claim v = some c ∨ st.claim v = none ∧ c.opened = v + 1 := by
  obtain ⟨⟨rest, claims⟩, by_now⟩ := claim_cons open_
  unfold Station.claim
  rw [claims]
  rcases Nat.lt_or_ge v c.opened with new | old
  · refine .inr ⟨Option.filter_eq_none_iff.mpr ?_, by omega⟩
    intro other eq by_then
    cases eq
    have by_then := of_decide_eq_true by_then
    omega
  · exact .inl (Option.filter_eq_some_iff.mpr ⟨rfl, decide_eq_true old⟩)

theorem Station.claim_pred (closed : st.claim (v + 1) = none) : st.claim v = none := by
  refine Option.filter_eq_none_iff.mpr fun c head by_then => ?_
  refine Option.filter_eq_none_iff.mp closed c head (decide_eq_true ?_)
  have by_then := of_decide_eq_true by_then
  omega

theorem OnFrame.advance (frame : OnFrame lag v g whole st) (noticed : Noticed lag v g st) (fed : g.starved = [])
    (alike : Alike st.site g g') : OnFrame lag (v + 1) g' whole st := by
  obtain ⟨good, told⟩ := frame
  have undue : ∀ c, st.claim v = some c → v < c.opened + lag := by
    intro c open_
    obtain ⟨⟨rest, claims⟩, -⟩ := claim_cons open_
    have ahead := good.ahead c (claims ▸ mem_cons_self)
    rcases Nat.lt_or_ge v (c.opened + lag) with early | due
    · exact early
    · exact absurd fed (noticed.hungry c open_ (Nat.le_antisymm ahead due))
  refine ⟨Good.alike ?_ alike, Told.alike ?_ alike⟩
  · constructor
    case spaced => exact good.spaced
    case ahead =>
      intro c listed
      have ahead := good.ahead c listed
      by_contra late
      have due : v = c.opened + lag := by omega
      cases claims : st.claims with
      | nil =>
        rw [claims] at listed
        cases listed
      | cons first rest =>
        rw [claims] at listed
        rcases mem_cons.mp listed with rfl | later
        · have open_ : st.claim v = some c := by
            unfold Station.claim
            rw [claims]
            exact Option.filter_eq_some_iff.mpr ⟨rfl, decide_eq_true (by omega)⟩
          exact absurd due (Nat.ne_of_lt (undue c open_))
        · have spaced := good.spaced
          rw [claims, pairwise_cons] at spaced
          have apart := spaced.1 c later
          have ahead := good.ahead first (claims ▸ mem_cons_self)
          omega
    case single => exact good.single
    case shut => exact fun closed => good.shut (claim_pred closed)
    case kept =>
      intro c open_
      rcases claim_succ open_ with before | ⟨closed, -⟩
      · exact good.kept c before
      · obtain ⟨sent, box, carry, -⟩ := good.shut closed
        rw [sent, box, carry]
        exact ⟨rfl, Nat.zero_le _, c.something.symm⟩
    case since =>
      intro c open_
      rcases claim_succ open_ with before | ⟨closed, now⟩
      · exact .inl (noticed.sighted c before (undue c before))
      · exact .inr ⟨(good.shut closed).2.2.2, now⟩
  · obtain ⟨done, split, hands, past⟩ := told.done
    constructor
    case done => exact ⟨done, split, hands, fun c listed => (past c listed).trans (Nat.le_succ v)⟩
    case conserved => exact told.conserved
    case outs => exact told.outs
    case sightings => exact told.sightings
    case seen =>
      intro c open_ before
      rcases claim_succ open_ with open_v | ⟨-, now⟩
      · exact noticed.seen c open_v
      · omega

def pacedGate (lag : Nat) : Gate α := { Gate.new true (.dumping (.pace lag)) with strict := true }

/-- A dump to shoot: landing sites that are their own call sites, whose claims the main thread opens one at a
time at virtual frames of the dump. -/
structure Scene (α : Type) where
  lag : Nat
  start : Nat
  stations : List (Station α)
  apart : (stations.map Station.site).Nodup
  fresh : ∀ st ∈ stations, st.sent = 0 ∧ st.box = [] ∧ st.log = []
  opened : ∀ st ∈ stations, ∀ c ∈ st.claims, start ≤ c.opened
  spaced : ∀ st ∈ stations, st.claims.Pairwise fun c c' => c.opened + lag < c'.opened
  single : ∀ st ∈ stations, st.queue = false → ∀ c ∈ st.claims, c.answers.length = 1

def Scene.film (d : Scene α) : Film α := { frame := d.start, gate := pacedGate d.lag, stations := d.stations }

structure Running (d : Scene α) (film : Film α) : Prop where
  armed : film.gate.armed = true
  mode : film.gate.mode = .dumping (.pace d.lag)
  sites : film.stations.map Station.site = d.stations.map Station.site
  frames : List.Forall₂ (OnFrame d.lag film.frame film.gate) (d.stations.map Station.claims) film.stations

theorem Running.start (d : Scene α) : Running d d.film where
  armed := rfl
  mode := rfl
  sites := rfl
  frames := by
    refine forall₂_map_left_iff.mpr (forall₂_same.mpr fun st listed => ?_)
    obtain ⟨sent, box, log⟩ := d.fresh st listed
    refine ⟨?_, ?_⟩
    · constructor
      case spaced => exact d.spaced st listed
      case ahead => exact fun c mem => (d.opened st listed c mem).trans (Nat.le_add_right _ _)
      case single => exact fun slot => ⟨d.single st listed slot, rfl⟩
      case shut => exact fun _ => ⟨sent, box, rfl, rfl⟩
      case kept =>
        intro c _
        rw [sent, box]
        exact ⟨rfl, Nat.zero_le _, c.something.symm⟩
      case since =>
        intro c open_
        obtain ⟨⟨rest, claims⟩, by_now⟩ := claim_cons open_
        exact .inr ⟨rfl, Nat.le_antisymm by_now (d.opened st listed c (claims ▸ mem_cons_self))⟩
    · constructor
      case done =>
        refine ⟨[], rfl, ?_, nofun⟩
        rw [log]
        rfl
      case conserved =>
        rw [log, box]
        rfl
      case outs =>
        rw [log]
        exact nofun
      case sightings =>
        rw [log]
        exact nofun
      case seen =>
        intro c open_ before
        obtain ⟨⟨rest, claims⟩, -⟩ := claim_cons open_
        exact absurd before (Nat.not_lt.mpr (d.opened st listed c (claims ▸ mem_cons_self)))

variable {d : Scene α} {film : Film α}

theorem Running.iterate (running : Running d film) (few : Nat → Nat) : Running d (film.iterate few) := by
  have begun : film.gate.dumpFrame film.frame = { film.gate with vframe := film.frame } := if_pos running.armed
  have pacing : Pacing d.lag film.frame (film.gate.dumpFrame film.frame) := by
    rw [begun]
    exact ⟨running.armed, running.mode, rfl⟩
  have frames : List.Forall₂ (OnFrame d.lag film.frame (film.gate.dumpFrame film.frame)) (d.stations.map Station.claims)
      film.stations := by
    rw [begun]
    exact running.frames.imp fun whole st both => ⟨both.good.alike ⟨rfl, rfl⟩, both.told.alike ⟨rfl, rfl⟩⟩
  have visited := visits pacing (running.sites ▸ d.apart) frames few
  generalize result : visitAll film.frame few (film.gate.dumpFrame film.frame) film.stations = r at visited
  have drained : r.1.takeStarved = (r.1.starved, { r.1 with starved := [] }) := by
    have armed := visited.pacing.armed
    rw [result] at armed
    exact if_pos armed
  have iterated : film.iterate few = { frame := if r.1.starved.isEmpty then film.frame + 1 else film.frame,
                                       gate := { r.1 with starved := [] }, stations := r.2 } := by
    unfold Film.iterate
    simp only [result, drained]
  have pacing' := visited.pacing
  have sites := visited.sites
  have after := visited.frames
  rw [result] at pacing' sites after
  rw [iterated]
  constructor
  case armed => exact pacing'.armed
  case mode => exact pacing'.mode
  case sites => exact sites.trans running.sites
  case frames =>
    cases fed : r.1.starved with
    | nil => exact after.imp fun whole st both => both.1.advance both.2 fed ⟨rfl, rfl⟩
    | cons name others => exact after.imp fun whole st both => ⟨both.1.good.alike ⟨rfl, rfl⟩, both.1.told.alike ⟨rfl, rfl⟩⟩

theorem Running.shoot (running : Running d film) (schedule : List (Nat → Nat)) :
    Running d (film.shoot schedule) := by
  induction schedule generalizing film with
  | nil => exact running
  | cons few rest ih => exact ih (running.iterate few)

/-- What a site had been handed before a virtual frame. -/
def handedBefore (u : Nat) (log : List (Visit α)) : List (Nat × List α) := (handed log).filter fun out => out.1 < u

theorem OnFrame.handedBefore (frame : OnFrame lag v g whole st) {u : Nat} (reached : u ≤ v) :
    handedBefore u st.log =
      (whole.filter fun c => c.opened + lag < u).map fun c => (c.opened + lag, c.answers) := by
  obtain ⟨done, split, hands, -⟩ := frame.told.done
  have rest : st.claims.filter (fun c => c.opened + lag < u) = [] := by
    refine filter_eq_nil_iff.mpr fun c listed => ?_
    have ahead := frame.good.ahead c listed
    rw [decide_eq_true_eq]
    omega
  unfold Machine.handedBefore
  rw [hands, split, filter_append, rest, append_nil, filter_map]
  rfl

structure Paced (lag : Nat) (g : Gate α) (whole : List (Claim α)) (st : Station α) : Prop where
  outs : ∀ e ∈ st.log, e.handed ≠ [] → HandOut lag whole st.log e
  sightings : ∀ e ∈ st.log, ∀ opened, e.claim = some opened → opened ≤ e.frame
  conserved : st.log.flatMap Visit.posted = st.log.flatMap Visit.handed ++ (g.carry st.site ++ st.box)

/-- Two runs of a dump agree, site by site, on every frame that both have completed. -/
theorem dump_is_paced (d : Scene α) (schedule schedule' : List (Nat → Nat)) :
    List.Forall₂ (fun st st' => ∀ u ≤ (d.film.shoot schedule).frame, u ≤ (d.film.shoot schedule').frame →
        handedBefore u st.log = handedBefore u st'.log)
      (d.film.shoot schedule).stations (d.film.shoot schedule').stations ∧
    List.Forall₂ (Paced d.lag (d.film.shoot schedule).gate) (d.stations.map Station.claims)
      (d.film.shoot schedule).stations := by
  have running := (Running.start d).shoot schedule
  have running' := (Running.start d).shoot schedule'
  refine ⟨?_, running.frames.imp fun whole st both => ⟨both.told.outs, both.told.sightings, both.told.conserved⟩⟩
  refine forall₂_join running.frames running'.frames fun whole st st' frame frame' u reached reached' => ?_
  rw [frame.handedBefore reached, frame'.handedBefore reached']

section

/-- One queue whose claim, opened on frame 1, owes two answers. -/
def sampleScene : Scene Nat where
  lag := 2
  start := 0
  stations := [⟨⟨⟨1⟩, 0⟩, "queue", true, [⟨1, [5, 3], fun got => got.length < 2, fun got begun short => by
    have shorter := begun.length_le
    by_contra whole
    rw [decide_eq_true_eq] at whole
    exact short (begun.eq_of_length (Nat.le_antisymm shorter (Nat.not_lt.mp whole))), rfl, nofun⟩], 0, [], []⟩]
  apart := nodup_singleton _
  fresh := by
    rintro st (_ | ⟨_, ⟨⟩⟩)
    exact ⟨rfl, rfl, rfl⟩
  opened := by decide
  spaced := by
    rintro st (_ | ⟨_, ⟨⟩⟩)
    exact pairwise_singleton _ _
  single := by
    rintro st (_ | ⟨_, ⟨⟩⟩) ⟨⟩

/-- One answer at a time, after the frame they are due on: the batch is whole, and the frame is the lag's. -/
example : ((sampleScene.film.shoot [fun _ => 9, fun _ => 0, fun _ => 0, fun _ => 0, fun _ => 1, fun _ => 1, fun _ => 0]).stations.map
    fun st => handed st.log) = [[(3, [5, 3])]] := by decide

end
end PlxNative.Machine
