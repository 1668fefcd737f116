import PlxNative.Reconcile.Asks

/-! An end of stream is reported on the word of a read that was sent after the stop, and a stop waits
for its read only while that read is coming. -/
namespace PlxNative.Reconcile
open List
open ViewState (ServerId ClientKeys)
open Transducer (Event event history run history_split history_invariant history_holds)

section

def Note.ending : Note → Option Key
  | .ended key _ _ => some key
  | _ => none

/-- The items that a step reported as watched to their end. -/
def ends (notes : List Note) : List Key := notes.filterMap Note.ending

@[simp] theorem ends_append (notes later : List Note) : ends (notes ++ later) = ends notes ++ ends later := filterMap_append

theorem mem_ends {notes : List Note} {key : Key} : key ∈ ends notes ↔ ∃ f row, .ended key f row ∈ notes := by
  rw [ends, mem_filterMap]
  constructor
  · rintro ⟨note, mem, eq⟩
    cases note with
    | ended key' f row => exact ⟨f, row, Option.some.inj eq ▸ mem⟩
    | _ => cases eq
  · rintro ⟨f, row, mem⟩
    exact ⟨_, mem, rfl⟩

def waiting (s : ViewReconcileStore) : List Key := s.candidates.map (·.1)

/-- What landings do to the stops that wait: some are let go, and those that end are let go with the
evidence for it, once each. -/
structure Closes (evidence : Key × Nat → Flight → ReadRow → Prop) (s s' : ViewReconcileStore) (notes : List Note) : Prop where
  sub : s'.candidates.Sublist s.candidates
  reported : s'.watchedEnds = s.watchedEnds ++ ends notes
  ended : ∀ key f row, .ended key f row ∈ notes → key ∉ waiting s' ∧ ∃ born, (key, born) ∈ s.candidates ∧ evidence (key, born) f row
  once : (ends notes).Nodup

variable {evidence evidence' : Key × Nat → Flight → ReadRow → Prop} {s s' s'' : ViewReconcileStore} {notes notes' : List Note}

theorem Closes.quiet (candidates : s'.candidates.Sublist s.candidates) (eq : s'.watchedEnds = s.watchedEnds)
    (none_ : ∀ note ∈ notes, note.ending = none) : Closes evidence s s' notes := by
  have empty : ends notes = [] := filterMap_eq_nil_iff.mpr none_
  refine ⟨candidates, by rw [eq, empty, append_nil], fun key f row mem => ?_, by rw [empty]; exact nodup_nil⟩
  cases none_ _ mem

theorem Closes.mono (closes : Closes evidence s s' notes) (weaker : ∀ c f row, evidence c f row → evidence' c f row) :
    Closes evidence' s s' notes :=
  ⟨closes.sub, closes.reported, fun key f row mem =>
    ⟨(closes.ended key f row mem).1, (closes.ended key f row mem).2.imp (fun _ had => ⟨had.1, weaker _ _ _ had.2⟩)⟩, closes.once⟩

theorem Closes.trans (first : Closes evidence s s' notes) (second : Closes evidence s' s'' notes') :
    Closes evidence s s'' (notes ++ notes') where
  sub := second.sub.trans first.sub
  reported := by rw [second.reported, first.reported, ends_append, append_assoc]
  ended := by
    intro key f row mem
    rcases mem_append.mp mem with early | late
    · obtain ⟨gone, had⟩ := first.ended key f row early
      exact ⟨fun still => gone ((second.sub.map _).subset still), had⟩
    · obtain ⟨gone, born, had, evident⟩ := second.ended key f row late
      exact ⟨gone, born, first.sub.subset had, evident⟩
  once := by
    rw [ends_append]
    refine nodup_append.mpr ⟨first.once, second.once, fun key early key' late eq => ?_⟩
    subst eq
    obtain ⟨f, row, early⟩ := mem_ends.mp early
    obtain ⟨f', row', late⟩ := mem_ends.mp late
    obtain ⟨-, born, still, -⟩ := second.ended key f' row' late
    exact (first.ended key f row early).1 (mem_map_of_mem still)

theorem Closes.within {read : ViewReconcileStore} (closes : Closes evidence s s' notes) (candidates : s.candidates = read.candidates)
    (reported : s.watchedEnds = read.watchedEnds) (sub : s''.candidates.Sublist s'.candidates) (eq : s''.watchedEnds = s'.watchedEnds) :
    Closes evidence read s'' notes where
  sub := candidates ▸ sub.trans closes.sub
  reported := by rw [eq, closes.reported, reported]
  ended := fun key f row mem =>
    ⟨fun still => (closes.ended key f row mem).1 ((sub.map _).subset still), candidates ▸ (closes.ended key f row mem).2⟩
  once := closes.once

end
section
open ViewReconcileStore
variable {s : ViewReconcileStore} {f : Flight}

/-- What stands behind a reported end: a row of an answer of a flight that was out, sent after the
stop, and overtaken by no press. -/
structure Evidence (s : ViewReconcileStore) (landings : List Landing) (c : Key × Nat) (f : Flight) (row : ReadRow) : Prop where
  out : f ∈ s.flights
  after_ : c.2 ≤ f.id
  own : row.key = c.1
  watched : row.movie.watched = true
  asked : f.asks c.1 = true
  newest : ∀ press ∈ s.ledger.since f.stamp, press.2.pressed.isSome = true → press.1.covers row.movie = false
  answered : ∃ rows, ⟨f.id, .read (some rows)⟩ ∈ landings ∧ row ∈ rows

variable {evidence : Key × Nat → Flight → ReadRow → Prop}

theorem settle_closes (unique : (waiting s).Nodup) (row : ReadRow)
    (evident : ∀ c ∈ s.candidates, c.2 ≤ f.id → c.1 = row.key → row.movie.watched = true → evidence c f row) :
    Closes evidence s (s.settle f row).1 (s.settle f row).2 := by
  unfold ViewReconcileStore.settle
  cases found : s.candidates.find? (settles f row.key) with
  | none => exact .quiet (.refl _) rfl (fun _ mem => absurd mem not_mem_nil)
  | some c =>
    have mem := List.mem_of_find?_eq_some found
    have settled := List.find?_some found
    simp only [settles, Bool.and_eq_true, decide_eq_true_eq, sameItem_iff] at settled
    obtain ⟨before, after, whole, erased⟩ := erase_found found
    simp only
    split
    · rename_i watched
      refine ⟨eraseP_sublist, rfl, fun key g row' noted => ?_, nodup_singleton _⟩
      cases mem_singleton.mp noted
      refine ⟨?_, c.2, mem, evident c mem settled.1 settled.2 watched⟩
      rw [waiting, whole, map_append, map_cons, nodup_middle, nodup_cons, ← map_append] at unique
      simp only [erased]
      exact unique.1
    · exact .quiet eraseP_sublist rfl (fun _ mem => absurd mem not_mem_nil)

theorem followUp_candidates (f : Flight) (isQuiet : Bool) (up : String) (s : ViewReconcileStore) :
    (s.followUp f isQuiet up).candidates = s.candidates ∧ (s.followUp f isQuiet up).watchedEnds = s.watchedEnds := by
  unfold ViewReconcileStore.followUp
  split
  · exact ⟨rfl, rfl⟩
  · split <;> exact ⟨rfl, rfl⟩

theorem landRow_closes (unique : (waiting s).Nodup) (quiet : List Key)
    (overtaking : List ViewState.ViewAt) (row : ReadRow)
    (evident : surviving f overtaking row = true → ∀ c ∈ s.candidates, c.2 ≤ f.id → c.1 = row.key → row.movie.watched = true → evidence c f row) :
    Closes evidence s (s.landRow f quiet overtaking row).1 (s.landRow f quiet overtaking row).2 := by
  unfold ViewReconcileStore.landRow
  split
  · rename_i survives
    have above : (if f.isParent row.key then s else (s.followUp f (queued quiet row.key) row.parent).followUp f (queued quiet row.key)
          row.grandparent).candidates = s.candidates ∧
        (if f.isParent row.key then s else (s.followUp f (queued quiet row.key) row.parent).followUp f (queued quiet row.key)
          row.grandparent).watchedEnds = s.watchedEnds := by
      split
      · exact ⟨rfl, rfl⟩
      · obtain ⟨candidates, ends_⟩ := followUp_candidates f (queued quiet row.key) row.parent s
        obtain ⟨candidates', ends'⟩ := followUp_candidates f (queued quiet row.key) row.grandparent (s.followUp f (queued quiet row.key) row.parent)
        exact ⟨candidates'.trans candidates, ends'.trans ends_⟩
    simp only
    generalize (if f.isParent row.key then s else (s.followUp f (queued quiet row.key) row.parent).followUp f (queued quiet row.key)
      row.grandparent) = leafRead at above ⊢
    have settled : Closes evidence leafRead (leafRead.settle f row).1 (leafRead.settle f row).2 :=
      settle_closes (by rw [waiting, above.1]; exact unique) row (above.1 ▸ evident survives)
    have start : Closes evidence s leafRead [] := .quiet (by rw [above.1]) above.2 (fun _ mem => absurd mem not_mem_nil)
    have page : Closes evidence (leafRead.settle f row).1
        (if queued quiet row.key then (leafRead.settle f row).1 else (leafRead.settle f row).1.owePage row.key)
        [.published (changeOf row.movie)] := by
      refine .quiet ?_ ?_ (fun note mem => ?_)
      · split <;> exact .refl _
      · split <;> rfl
      · rw [mem_singleton.mp mem]
        rfl
    exact (start.trans settled).trans page
  · exact .quiet (.refl _) rfl (fun _ mem => absurd mem not_mem_nil)

theorem landRows_closes (unique : (waiting s).Nodup) (quiet : List Key)
    (overtaking : List ViewState.ViewAt) (rows : List ReadRow)
    (evident : ∀ row ∈ rows, surviving f overtaking row = true → ∀ c : Key × Nat, c.2 ≤ f.id → c.1 = row.key → row.movie.watched = true →
      evidence c f row) :
    Closes evidence s (landRows f quiet overtaking s rows).1 (landRows f quiet overtaking s rows).2 := by
  induction rows generalizing s with
  | nil => exact .quiet (.refl _) rfl (fun _ mem => absurd mem not_mem_nil)
  | cons row rest ih =>
    have first := landRow_closes unique quiet overtaking row (fun survives c _ => evident row mem_cons_self survives c)
    exact first.trans (ih (unique.sublist (first.sub.map _)) (fun row mem => evident row (mem_cons_of_mem _ mem)))

theorem land_closes (sound : Sound s) (unique : (waiting s).Nodup) (landing : Landing) :
    Closes (Evidence s [landing]) s (s.land landing).1 (s.land landing).2.2 := by
  cases found : s.flights.find? (·.id = landing.id) with
  | none =>
    rw [land_unknown found]
    exact .quiet (.refl _) rfl (fun _ mem => absurd mem not_mem_nil)
  | some f =>
    have out := List.mem_of_find?_eq_some found
    have number : f.id = landing.id := by simpa using List.find?_some found
    cases outcome : landing.outcome with
    | notStarted =>
      rw [land_refused found outcome]
      obtain ⟨candidates, reported, -⟩ := (requeue_requeued sound found).unsettled
      exact .quiet (by rw [candidates]) reported (fun _ mem => absurd mem not_mem_nil)
    | read rows =>
      rw [land_read found outcome]
      cases rows with
      | none => exact .quiet filter_sublist rfl (fun _ mem => absurd mem not_mem_nil)
      | some rows =>
        refine Closes.within (landRows_closes ?_ _ _ rows (fun row mem survives c after_ own watched => ?_)) rfl rfl
          filter_sublist rfl
        · exact unique
        simp only [surviving, Bool.and_eq_true, Bool.not_eq_true', any_eq_false] at survives
        obtain ⟨asked, newest⟩ := survives
        refine ⟨out, after_, own.symm, watched, own ▸ asked, fun press since pressed => Bool.eq_false_iff.mpr ?_,
          rows, by rw [number, ← outcome]; exact mem_cons_self, mem⟩
        exact newest press.1 (mem_map_of_mem (mem_filter.mpr ⟨since, pressed⟩))

theorem land_leaves (sound : Sound s) (landing : Landing) :
    (∀ f ∈ (s.land landing).1.flights, f ∈ s.flights) ∧ (s.land landing).1.ledger = s.ledger ∧ (s.land landing).1.nextId = s.nextId := by
  cases found : s.flights.find? (·.id = landing.id) with
  | none =>
    rw [land_unknown found]
    exact ⟨fun _ => id, rfl, rfl⟩
  | some f =>
    have leaves : ∀ {s' : ViewReconcileStore}, Landed s f s' → (∀ g ∈ s'.flights, g ∈ s.flights) ∧ s'.ledger = s.ledger ∧ s'.nextId = s.nextId :=
      fun landed => ⟨fun g out => ((landed.flights g).mp out).1, landed.ledger, landed.nextId⟩
    cases outcome : landing.outcome with
    | notStarted =>
      rw [land_refused found outcome]
      exact leaves (requeue_requeued sound found).toLanded
    | read rows =>
      rw [land_read found outcome]
      exact leaves (landRead_answered sound found rows).toLanded

theorem landAll_closes (sound : Sound s) (unique : (waiting s).Nodup) (landings : List Landing) :
    Closes (Evidence s landings) s (s.landAll landings).1 (s.landAll landings).2.2 := by
  induction landings generalizing s with
  | nil => exact .quiet (.refl _) rfl (fun _ mem => absurd mem not_mem_nil)
  | cons landing rest ih =>
    have first := land_closes sound unique landing
    have later := ih (land_kept sound landing).1 (unique.sublist (first.sub.map _))
    obtain ⟨flights, ledger, -⟩ := land_leaves sound landing
    refine (first.mono (fun c f row evident => ?_)).trans (later.mono (fun c f row evident => ?_))
    · obtain ⟨rows, mem, inside⟩ := evident.answered
      exact { evident with answered := ⟨rows, mem_singleton.mp mem ▸ mem_cons_self, inside⟩ }
    · obtain ⟨rows, mem, inside⟩ := evident.answered
      exact { evident with
        out := flights f evident.out
        newest := ledger ▸ evident.newest
        answered := ⟨rows, mem_cons_of_mem _ mem, inside⟩ }

end
section
open ViewReconcileStore
variable {s : ViewReconcileStore}

/-- A stop's read is coming: it is owed, or it is out as a leaf of a flight that was sent after the stop. -/
def Coming (s : ViewReconcileStore) (c : Key × Nat) : Prop :=
  Owed s c.1 ∨ ∃ f ∈ s.flights, c.2 ≤ f.id ∧ f.asks c.1 = true ∧ f.isParent c.1 = false

variable {c : Key × Nat}

theorem land_coming (sound : Sound s) (landing : Landing) (waits : c ∈ (s.land landing).1.candidates) (coming : Coming s c) :
    Coming (s.land landing).1 c := by
  rcases coming with owed | ⟨g, out, after_, asks, leaf⟩
  · exact .inl ((land_kept sound landing).2 _ owed)
  · cases found : s.flights.find? (·.id = landing.id) with
    | none =>
      rw [land_unknown found]
      exact .inr ⟨g, out, after_, asks, leaf⟩
    | some f =>
      cases outcome : landing.outcome with
      | notStarted =>
        have requeued := requeue_requeued sound found
        rw [land_refused found outcome]
        by_cases eq : g = f
        · obtain ⟨own, inside⟩ := (asks_iff g c.1).mp asks
          subst eq
          have queued := requeued.leaves c.1.2 inside (fun parent => by simp [(isParent_iff g c.1).mpr ⟨own, parent⟩] at leaf)
          rw [own] at queued
          exact .inl (.inl queued)
        · exact .inr ⟨g, (requeued.flights g).mpr ⟨out, eq⟩, after_, asks, leaf⟩
      | read rows =>
        have answered := landRead_answered sound found rows
        rw [land_read found outcome] at waits ⊢
        by_cases eq : g = f
        · subst eq
          obtain ⟨-, kept⟩ := mem_filter.mp (show c ∈ (_ : List (Key × Nat)).filter _ from waits)
          simp only [asks, ((asks_iff g c.1).mp asks).1, decide_true, Bool.and_self, Bool.not_true, Bool.or_false, decide_eq_true_eq] at kept
          omega
        · exact .inr ⟨g, (answered.flights g).mpr ⟨out, eq⟩, after_, asks, leaf⟩

theorem landAll_coming (sound : Sound s) (unique : (waiting s).Nodup) (landings : List Landing)
    (waits : c ∈ (s.landAll landings).1.candidates) (coming : Coming s c) : Coming (s.landAll landings).1 c := by
  induction landings generalizing s with
  | nil => exact coming
  | cons landing rest ih =>
    have kept := (land_kept sound landing).1
    have first := land_closes sound unique landing
    have once := unique.sublist (first.sub.map _)
    have early : c ∈ (s.land landing).1.candidates := (landAll_closes kept once rest).sub.subset waits
    exact ih kept once waits (land_coming sound landing early coming)

theorem kick_coming (sound : Sound s) (clients : ClientKeys) (coming : Coming s c) (minted : c.2 ≤ s.nextId) :
    Coming (s.kick clients).1 c ∨ s.retryCd = 0 ∧ Unregistered clients s c.1 := by
  have kicked := kick_kicked sound clients
  rcases coming with (queued | dirty) | ⟨f, out, rest⟩
  · rcases kicked.outcome c.1 queued with stays | ⟨f, sent, asks, leaf⟩ | ⟨lost, -⟩
    · exact .inl (.inl (.inl stays))
    · exact .inl (.inr ⟨f, (kicked.flights f).mpr (.inr sent), minted.trans (kicked.sent f sent).1, asks, leaf⟩)
    · rcases Nat.eq_zero_or_pos s.retryCd with ready | waits
      · exact .inr ⟨ready, lost⟩
      · rw [ViewReconcileStore.kick, if_pos waits]
        exact .inl (.inl (.inl queued))
  · exact .inl (.inl (.inr (kicked.dirty ▸ dirty)))
  · exact .inl (.inr ⟨f, (kicked.flights f).mpr (.inl out), rest⟩)

end
section
open ViewReconcileStore
variable {past : List ReadStep} {w : World}

/-- The newest stop of an item that was not watched before, and what came since. -/
def StoppedLast (past : List ReadStep) (key : Key) (stop : ReadStep) (since : List ReadStep) : Prop :=
  ∃ before, past = before ++ stop :: since ∧ stop.input = .enqueueStop key false ∧ ∀ x ∈ since, x.input ≠ .enqueueStop key false

/-- A stop that waits was made, its flights since have numbers from its own on, and it has not been
reported since. -/
def Born (past : List ReadStep) (c : Key × Nat) : Prop :=
  ∃ stop since, StoppedLast past c.1 stop since ∧ (∀ x ∈ past, ∀ f, .sent f ∈ x.answer → c.2 ≤ f.id → x ∈ since) ∧
    ∀ x ∈ since, c.1 ∉ ends x.answer

variable {c : Key × Nat} {x : ReadStep}

theorem Born.snoc (born : Born past c) (other : x.input ≠ .enqueueStop c.1 false) (unreported : c.1 ∉ ends x.answer) :
    Born (past ++ [x]) c := by
  obtain ⟨stop, since, ⟨before, rfl, stopped, newest⟩, sent, silent⟩ := born
  refine ⟨stop, since ++ [x], ⟨before, by simp, stopped, forall_snoc newest other⟩, fun y mem f sent_ after_ => ?_,
    forall_snoc silent unreported⟩
  rcases mem_append.mp mem with old | now
  · exact mem_append_left _ (sent y old f sent_ after_)
  · exact mem_append_right _ now

structure StopKept (past : List ReadStep) (w : World) : Prop where
  sound : Sound w.store
  unique : (waiting w.store).Nodup
  sentBelow : ∀ x ∈ past, ∀ f, .sent f ∈ x.answer → f.id < w.store.nextId
  flightsSent : ∀ f ∈ w.store.flights, ∃ x ∈ past, .sent f ∈ x.answer
  born : ∀ c ∈ w.store.candidates, Born past c ∧ c.2 ≤ w.store.nextId

variable {key : Key} {born : Nat} {list : List (Key × Nat)}

theorem mem_stampCandidate (unique : (list.map (·.1)).Nodup)
    (mem : c ∈ stampCandidate key born list) : c = (key, born) ∨ c ∈ list ∧ c.1 ≠ key := by
  induction list with
  | nil => exact .inl (mem_singleton.mp mem)
  | cons first rest ih =>
    obtain ⟨fresh, unique⟩ := nodup_cons.mp unique
    unfold ViewReconcileStore.stampCandidate at mem
    split at mem
    · rename_i eq
      simp only [sameItem_iff] at eq
      rcases mem_cons.mp mem with rfl | other
      · exact .inl (by rw [eq])
      · exact .inr ⟨mem_cons_of_mem _ other, fun own => fresh (show first.1 ∈ _ from eq.trans own.symm ▸ mem_map_of_mem other)⟩
    · rename_i apart
      rcases mem_cons.mp mem with rfl | other
      · exact .inr ⟨mem_cons_self, by simpa using apart⟩
      · exact (ih unique other).imp_right (And.imp_left (mem_cons_of_mem _))

theorem stampCandidate_unique (unique : (list.map (·.1)).Nodup) :
    ((stampCandidate key born list).map (·.1)).Nodup := by
  induction list with
  | nil => exact nodup_singleton _
  | cons first rest ih =>
    obtain ⟨fresh, rest_⟩ := nodup_cons.mp unique
    unfold ViewReconcileStore.stampCandidate
    split
    · exact nodup_cons.mpr ⟨fresh, rest_⟩
    · rename_i apart
      refine nodup_cons.mpr ⟨fun again => ?_, ih rest_⟩
      obtain ⟨c, inside, eq⟩ := mem_map.mp again
      rcases mem_stampCandidate rest_ inside with rfl | ⟨other, -⟩
      · exact apart ((sameItem_iff _ _).mpr eq.symm)
      · exact fresh (eq ▸ mem_map_of_mem other)

theorem StopKept.still (kept : StopKept past w) {w' : World} (sound : Sound w'.store)
    (candidates : w'.store.candidates = w.store.candidates) (nextId : w'.store.nextId = w.store.nextId)
    (flights : w'.store.flights = w.store.flights) (other : ∀ key, x.input ≠ .enqueueStop key false) (silent : x.answer = []) :
    StopKept (past ++ [x]) w' where
  sound := sound
  unique := by rw [waiting, candidates]; exact kept.unique
  sentBelow := forall_snoc (nextId ▸ kept.sentBelow) (by rw [silent]; exact fun _ mem => absurd mem not_mem_nil)
  flightsSent := by
    rw [flights]
    exact fun f out => (kept.flightsSent f out).imp (fun _ had => ⟨mem_append_left _ had.1, had.2⟩)
  born := by
    rw [candidates, nextId]
    exact fun c waits => ⟨(kept.born c waits).1.snoc (other _) (by rw [silent]; exact not_mem_nil), (kept.born c waits).2⟩

structure AskOnly (s s' : ViewReconcileStore) : Prop where
  candidates : s'.candidates = s.candidates
  nextId : s'.nextId = s.nextId
  flights : s'.flights = s.flights
  watchedEnds : s'.watchedEnds = s.watchedEnds

theorem AskOnly.trans {s s' s'' : ViewReconcileStore} (first : AskOnly s s') (second : AskOnly s' s'') : AskOnly s s'' :=
  ⟨second.candidates.trans first.candidates, second.nextId.trans first.nextId, second.flights.trans first.flights,
    second.watchedEnds.trans first.watchedEnds⟩

theorem enqueueOne_only (s : ViewReconcileStore) (key : Key) : AskOnly s (s.enqueueOne key) := by
  unfold ViewReconcileStore.enqueueOne
  simp only
  split <;> exact ⟨rfl, rfl, rfl, rfl⟩

theorem enqueueRereadOne_only (s : ViewReconcileStore) (key : Key) : AskOnly s (s.enqueueRereadOne key) := by
  have asked := enqueueOne_only s key
  unfold ViewReconcileStore.enqueueRereadOne
  simp only
  split
  · exact asked.trans ⟨rfl, rfl, rfl, rfl⟩
  · exact asked

theorem fold_only {ask : ViewReconcileStore → Key → ViewReconcileStore} (only : ∀ s key, AskOnly s (ask s key)) (keys : List Key)
    (s : ViewReconcileStore) : AskOnly s (keys.foldl ask s) := by
  induction keys generalizing s with
  | nil => exact ⟨rfl, rfl, rfl, rfl⟩
  | cons key rest ih => exact (only s key).trans (ih (ask s key))

variable {s : ViewReconcileStore}

theorem landAll_nextId (sound : Sound s) (landings : List Landing) :
    (s.landAll landings).1.nextId = s.nextId ∧ ∀ f ∈ (s.landAll landings).1.flights, f ∈ s.flights := by
  induction landings generalizing s with
  | nil => exact ⟨rfl, fun _ => id⟩
  | cons landing rest ih =>
    obtain ⟨flights, -, nextId⟩ := land_leaves sound landing
    obtain ⟨next, out⟩ := ih (land_kept sound landing).1
    exact ⟨next.trans nextId, fun f mem => flights f (out f mem)⟩

theorem landRows_unsent (f g : Flight) (quiet : List Key) (overtaking : List ViewState.ViewAt) (rows : List ReadRow) (s : ViewReconcileStore) :
    .sent g ∉ (landRows f quiet overtaking s rows).2 := by
  induction rows generalizing s with
  | nil => exact not_mem_nil
  | cons row rest ih =>
    refine fun noted => (mem_append.mp noted).elim (fun now => ?_) (ih _)
    unfold ViewReconcileStore.landRow at now
    split at now
    · rcases mem_append.mp now with settled | published
      · unfold ViewReconcileStore.settle at settled
        split at settled
        · cases settled
        · simp only at settled
          split at settled
          · cases mem_singleton.mp settled
          · cases settled
      · cases mem_singleton.mp published
    · cases now

theorem landAll_unsent {f : Flight} (s : ViewReconcileStore) (landings : List Landing) : .sent f ∉ (s.landAll landings).2.2 := by
  induction landings generalizing s with
  | nil => exact not_mem_nil
  | cons landing rest ih =>
    refine fun noted => (mem_append.mp noted).elim (fun now => ?_) (ih _)
    unfold ViewReconcileStore.land at now
    split at now
    · cases now
    · split at now
      · cases now
      · rename_i g _ _ rows _
        cases rows with
        | none => cases now
        | some rows => exact landRows_unsent _ _ _ _ _ _ now

theorem pump_halves (s : ViewReconcileStore) (landings : List Landing) (maySend : Bool) (clients : ClientKeys) :
    ∃ kicked : ViewReconcileStore × List Note, (kicked = if maySend then (s.landAll landings).1.kick clients else ((s.landAll landings).1, [])) ∧
      (s.pump landings maySend clients).2.2 = (s.landAll landings).2.2 ++ kicked.2 ∧
      (s.pump landings maySend clients).1.candidates = kicked.1.candidates ∧ (s.pump landings maySend clients).1.nextId = kicked.1.nextId ∧
      (s.pump landings maySend clients).1.flights = kicked.1.flights ∧ (s.pump landings maySend clients).1.watchedEnds = kicked.1.watchedEnds ∧
      (s.pump landings maySend clients).1.pending = kicked.1.pending ∧ (s.pump landings maySend clients).1.dirty = kicked.1.dirty := by
  refine ⟨_, rfl, rfl, ?_⟩
  unfold ViewReconcileStore.pump
  simp only
  split <;> exact ⟨rfl, rfl, rfl, rfl, rfl, rfl⟩

theorem kicked_half (sound : Sound s) (maySend : Bool) (clients : ClientKeys) :
    KickedAll clients s (if maySend then s.kick clients else (s, [])) := by
  split
  · exact kick_kicked sound clients
  · exact ⟨sound, rfl, rfl, rfl, Nat.le_refl _, fun _ => id, fun f => by simp, fun _ mem => absurd mem not_mem_nil, fun _ => .inl,
      fun _ mem => absurd mem not_mem_nil⟩

theorem pump_closes (sound : Sound s) (unique : (waiting s).Nodup) (landings : List Landing) (maySend : Bool)
    (clients : ClientKeys) :
    Closes (Evidence s landings) s (s.pump landings maySend clients).1 (s.pump landings maySend clients).2.2 := by
  have landed := landAll_closes sound unique landings
  obtain ⟨kicked, made, notes, candidates, -, -, watchedEnds, -⟩ := pump_halves s landings maySend clients
  have half := kicked_half (landAll_kept sound landings).1 maySend clients
  rw [← made] at half
  rw [notes]
  refine landed.trans (.quiet (by rw [candidates, half.candidates]) (watchedEnds.trans half.watchedEnds) (fun note mem => ?_))
  rcases half.notes note mem with ⟨f, rfl⟩ | ⟨sid, keys, rfl⟩ <;> rfl

theorem StopKept.step (kept : StopKept past w) (move : Move) : StopKept (past ++ [event World.step w move]) (w.step move).1 := by
  have sound := step_sound kept.sound move
  cases move with
  | enqueue keys =>
    obtain ⟨candidates, nextId, flights, -⟩ := fold_only enqueueOne_only keys w.store
    exact kept.still sound candidates nextId flights (fun _ => nofun) rfl
  | enqueueReread keys =>
    obtain ⟨candidates, nextId, flights, -⟩ := fold_only enqueueRereadOne_only keys w.store
    exact kept.still sound candidates nextId flights (fun _ => nofun) rfl
  | enqueueStop key wasWatched =>
    cases wasWatched with
    | true =>
      obtain ⟨candidates, nextId, flights, -⟩ := fold_only enqueueOne_only [key] w.store
      exact kept.still sound candidates nextId flights (fun _ => nofun) rfl
    | false =>
      obtain ⟨candidates, nextId, flights, -⟩ :=
        fold_only enqueueOne_only [key] { w.store with candidates := stampCandidate key w.store.nextId w.store.candidates }
      have silent : (event World.step w (.enqueueStop key false)).answer = [] := rfl
      exact {
        sound := sound
        unique := by
          rw [waiting]
          exact (congrArg (List.map (·.1)) candidates).symm ▸ stampCandidate_unique kept.unique
        sentBelow := forall_snoc (fun x mem f sent => nextId.symm ▸ kept.sentBelow x mem f sent)
          (by rw [silent]; exact fun _ mem => absurd mem not_mem_nil)
        flightsSent := fun f out => by
          obtain ⟨x, mem, sent⟩ := kept.flightsSent f (flights ▸ out)
          exact ⟨x, mem_append_left _ mem, sent⟩
        born := fun c waits => by
          have stamped : (w.step (.enqueueStop key false)).1.store.candidates = stampCandidate key w.store.nextId w.store.candidates :=
            candidates
          rw [stamped] at waits
          have next : (w.step (.enqueueStop key false)).1.store.nextId = w.store.nextId := nextId
          rw [next]
          rcases mem_stampCandidate kept.unique waits with rfl | ⟨old, apart⟩
          · refine ⟨⟨_, [], ⟨past, rfl, rfl, fun _ mem => absurd mem not_mem_nil⟩, fun x mem f sent after_ => ?_,
              fun _ mem => absurd mem not_mem_nil⟩, Nat.le_refl _⟩
            rcases mem_append.mp mem with early | now
            · exact absurd after_ (Nat.not_le.mpr (kept.sentBelow x early f sent))
            · rw [mem_singleton.mp now, silent] at sent
              cases sent
          · refine ⟨(kept.born c old).1.snoc (fun eq => apart ?_) (by rw [silent]; exact not_mem_nil), (kept.born c old).2⟩
            exact (Move.enqueueStop.inj eq).1.symm }
  | reset =>
    exact ⟨sound, nodup_nil, forall_snoc kept.sentBelow (fun _ mem => absurd mem not_mem_nil),
      fun _ mem => absurd mem not_mem_nil, fun _ mem => absurd mem not_mem_nil⟩
  | answer id outcome =>
    have store := answer_store w id outcome
    exact kept.still sound (congrArg (·.candidates) store) (congrArg (·.nextId) store) (congrArg (·.flights) store) (fun _ => nofun) rfl
  | pump maySend clients =>
    have closes := pump_closes kept.sound kept.unique w.arrived maySend clients
    obtain ⟨kicked, made, notes, candidates, nextId, flights, -⟩ := pump_halves w.store w.arrived maySend clients
    have half := kicked_half (landAll_kept kept.sound w.arrived).1 maySend clients
    rw [← made] at half
    obtain ⟨next, out⟩ := landAll_nextId kept.sound w.arrived
    have grows : w.store.nextId ≤ (w.step (.pump maySend clients)).1.store.nextId := by
      show w.store.nextId ≤ (w.store.pump w.arrived maySend clients).1.nextId
      rw [nextId, ← next]
      exact half.later
    have sent : ∀ f, .sent f ∈ (event World.step w (.pump maySend clients)).answer → .sent f ∈ kicked.2 := by
      intro f noted
      have noted' : .sent f ∈ (w.store.pump w.arrived maySend clients).2.2 := noted
      rw [notes, mem_append] at noted'
      exact noted'.resolve_left (landAll_unsent _ _)
    exact {
      sound := sound
      unique := kept.unique.sublist (closes.sub.map _)
      sentBelow := forall_snoc (fun x mem f had => Nat.lt_of_lt_of_le (kept.sentBelow x mem f had) grows)
        (fun f noted => nextId ▸ (half.sent f (sent f noted)).2)
      flightsSent := fun f mem => by
        have member' : f ∈ (w.store.pump w.arrived maySend clients).1.flights := mem
        rw [flights] at member'
        rcases (half.flights f).mp member' with old | new
        · obtain ⟨x, inside, had⟩ := kept.flightsSent f (out f old)
          exact ⟨x, mem_append_left _ inside, had⟩
        · refine ⟨_, mem_append_right _ mem_cons_self, ?_⟩
          show .sent f ∈ (w.store.pump w.arrived maySend clients).2.2
          rw [notes]
          exact mem_append_right _ new
      born := fun c waits => by
        obtain ⟨born, minted⟩ := kept.born c (closes.sub.subset waits)
        refine ⟨born.snoc nofun (fun reported => ?_), minted.trans grows⟩
        obtain ⟨f, row, noted⟩ := mem_ends.mp reported
        exact (closes.ended c.1 f row noted).1 (mem_map_of_mem waits) }
  | _ => exact kept.still sound rfl rfl rfl (fun _ => nofun) rfl

theorem run_stopKept (moves : List Move) : StopKept (history World.step .new moves) (run World.step .new moves) :=
  history_invariant World.step (fun _ _ move kept => kept.step move)
    ⟨Sound.start, nodup_nil, fun _ mem => absurd mem not_mem_nil, fun _ mem => absurd mem not_mem_nil,
      fun _ mem => absurd mem not_mem_nil⟩ moves

end
section
variable {w : World}

/-- No kick finds the server of a stop's item unregistered while the item is in its batch. -/
def Registered (w : World) : Move → Prop
  | .pump maySend clients =>
    maySend = true → (w.store.landAll w.arrived).1.retryCd = 0 →
      ∀ c ∈ (w.store.landAll w.arrived).1.candidates, ¬ Unregistered clients (w.store.landAll w.arrived).1 c.1
  | _ => True

/-- Every stop that waits has its read coming. -/
def AllComing (s : ViewReconcileStore) : Prop := ∀ c ∈ s.candidates, Coming s c

variable {c : Key × Nat}

theorem AskOnly.coming {s s' : ViewReconcileStore} (only : AskOnly s s') (owes : ∀ key, Owed s key → Owed s' key)
    (coming : Coming s c) : Coming s' c :=
  coming.imp (owes c.1) (fun ⟨f, out, rest⟩ => ⟨f, only.flights ▸ out, rest⟩)

theorem step_coming (sound : Sound w.store) (unique : (waiting w.store).Nodup) (minted : ∀ c ∈ w.store.candidates, c.2 ≤ w.store.nextId)
    (move : Move) (registered : Registered w move) (all : AllComing w.store) : AllComing (w.step move).1.store := by
  cases move with
  | enqueue keys =>
    have only := fold_only enqueueOne_only keys w.store
    exact fun c waits => only.coming (fun _ owed => enqueue_owed _ _ (.inl owed)) (all c (only.candidates ▸ waits))
  | enqueueReread keys =>
    have only := fold_only enqueueRereadOne_only keys w.store
    exact fun c waits => only.coming (fun _ owed => enqueueReread_owed _ _ (.inl owed)) (all c (only.candidates ▸ waits))
  | enqueueStop key wasWatched =>
    cases wasWatched with
    | true =>
      have only := fold_only enqueueOne_only [key] w.store
      exact fun c waits => only.coming (fun _ owed => enqueue_owed _ _ (.inl owed)) (all c (only.candidates ▸ waits))
    | false =>
      have only := fold_only enqueueOne_only [key]
        { w.store with candidates := ViewReconcileStore.stampCandidate key w.store.nextId w.store.candidates }
      intro c waits
      have stamped : (w.step (.enqueueStop key false)).1.store.candidates =
          ViewReconcileStore.stampCandidate key w.store.nextId w.store.candidates := only.candidates
      rw [stamped] at waits
      rcases mem_stampCandidate unique waits with rfl | ⟨old, -⟩
      · exact .inl (enqueueStop_owed _ _ _ (.inr mem_cons_self))
      · exact only.coming (fun _ owed => enqueue_owed _ _ (.inl owed)) (all c old)
  | reset => exact fun _ waits => absurd waits not_mem_nil
  | answer id outcome =>
    simp only [World.step, answer_store]
    exact all
  | pump maySend clients =>
    intro c waits
    have landed := (landAll_kept sound w.arrived).1
    have closes := landAll_closes sound unique w.arrived
    obtain ⟨next, -⟩ := landAll_nextId sound w.arrived
    obtain ⟨kicked, made, -, candidates, -, flights, -, pending, dirty⟩ := pump_halves w.store w.arrived maySend clients
    have half := kicked_half landed maySend clients
    rw [← made] at half
    have waits' : c ∈ (w.store.landAll w.arrived).1.candidates := by
      rw [← half.candidates, ← candidates]
      exact waits
    have before_ := landAll_coming sound unique w.arrived waits' (all c (closes.sub.subset waits'))
    have after_ : Coming kicked.1 c := by
      cases maySend with
      | true =>
        rw [made]
        refine (kick_coming landed clients before_ ?_).resolve_right (fun off => registered rfl off.1 c waits' off.2)
        rw [next]
        exact minted c (closes.sub.subset waits')
      | false =>
        rw [made]
        exact before_
    exact after_.imp (Or.imp (fun queued => pending ▸ queued) (fun again => dirty ▸ again)) (Exists.imp fun f => And.imp_left fun out => flights ▸ out)
  | _ => exact all

theorem lost_waits (sound : Sound w.store) {maySend : Bool} {clients : ClientKeys} (sends : maySend = true)
    (ready : (w.store.landAll w.arrived).1.retryCd = 0) (waits : c ∈ (w.store.landAll w.arrived).1.candidates)
    (lost : Unregistered clients (w.store.landAll w.arrived).1 c.1) :
    c ∈ (w.step (.pump maySend clients)).1.store.candidates ∧ c.1 ∉ (w.step (.pump maySend clients)).1.store.pending ∧
      ∀ f ∈ (w.step (.pump maySend clients)).1.store.flights, f.asks c.1 = false := by
  have landed := (landAll_kept sound w.arrived).1
  obtain ⟨kicked, made, -, candidates, -, flights, -, pending, -⟩ := pump_halves w.store w.arrived maySend clients
  rw [if_pos sends] at made
  obtain ⟨gone, apart⟩ := kick_lost landed clients ready lost
  refine ⟨?_, ?_, ?_⟩
  · show c ∈ (w.store.pump w.arrived maySend clients).1.candidates
    rw [candidates, made, (kick_kicked landed clients).candidates]
    exact waits
  · show c.1 ∉ (w.store.pump w.arrived maySend clients).1.pending
    rw [pending, made]
    exact gone
  · show ∀ f ∈ (w.store.pump w.arrived maySend clients).1.flights, f.asks c.1 = false
    rw [flights, made]
    exact fun f out => Bool.eq_false_iff.mpr (fun asks => apart f out ((asks_iff f c.1).mp asks).1)

/-- A key's read is coming: it is queued, or asked for again while it is out, or out in a flight that was
sent since its newest stop. -/
def ReadComes (past : List ReadStep) (s : ViewReconcileStore) (key : Key) : Prop :=
  key ∈ s.pending ∨ key ∈ s.dirty ∧ (∃ f ∈ s.flights, f.asks key = true) ∨
    ∃ stop since, StoppedLast past key stop since ∧ ∃ f ∈ s.flights, f.asks key = true ∧ ∃ x ∈ since, .sent f ∈ x.answer

variable {past : List ReadStep}

theorem Coming.comes (kept : StopKept past w) (waits : c ∈ w.store.candidates)
    (coming : Coming w.store c) : ReadComes past w.store c.1 := by
  rcases coming with (queued | dirty) | ⟨f, out, after_, asks, -⟩
  · exact .inl queued
  · exact .inr (.inl ⟨dirty, (isOut_iff _ _).mp (kept.sound.dirtyOut _ dirty)⟩)
  · obtain ⟨⟨stop, since, stopped, sent, -⟩, -⟩ := kept.born c waits
    obtain ⟨x, mem, had⟩ := kept.flightsSent f out
    exact .inr (.inr ⟨stop, since, stopped, f, out, asks, x, sent x mem f had after_, had⟩)

theorem run_coming (moves : List Move) : StopKept (history World.step .new moves) (run World.step .new moves) ∧
    ((∀ x ∈ history World.step .new moves, Registered x.before x.input) → AllComing (run World.step .new moves).store) := by
  refine history_invariant World.step
    (R := fun past w => StopKept past w ∧ ((∀ x ∈ past, Registered x.before x.input) → AllComing w.store))
    (fun past w move ⟨kept, coming⟩ => ⟨kept.step move, fun registered => ?_⟩)
    ⟨run_stopKept [], fun _ _ waits => absurd waits not_mem_nil⟩ moves
  exact step_coming kept.sound kept.unique (fun c waits => (kept.born c waits).2) move
    (registered _ (mem_append_right _ mem_cons_self)) (coming (fun x mem => registered x (mem_append_left _ mem)))

theorem step_reports (w : World) (kept : StopKept past w) (move : Move) :
    ((w.step move).1.store.watchedEnds = w.store.watchedEnds ++ ends (w.step move).2 ∨ (w.step move).1.store.watchedEnds = []) ∧
      (ends (w.step move).2).Nodup ∧
      ∀ key f row, .ended key f row ∈ (w.step move).2 → ∃ born, (key, born) ∈ w.store.candidates ∧ Evidence w.store w.arrived (key, born) f row := by
  have silent : ∀ {w' : World}, w'.store.watchedEnds = w.store.watchedEnds →
      (w'.store.watchedEnds = w.store.watchedEnds ++ ends [] ∨ w'.store.watchedEnds = []) ∧ (ends []).Nodup ∧
        ∀ key f row, .ended key f row ∈ ([] : List Note) → ∃ born, (key, born) ∈ w.store.candidates ∧ Evidence w.store w.arrived (key, born) f row :=
    fun eq => ⟨.inl (eq.trans (append_nil _).symm), nodup_nil, fun _ _ _ mem => absurd mem not_mem_nil⟩
  have emptied : ∀ {w' : World}, w'.store.watchedEnds = [] →
      (w'.store.watchedEnds = w.store.watchedEnds ++ ends [] ∨ w'.store.watchedEnds = []) ∧ (ends []).Nodup ∧
        ∀ key f row, .ended key f row ∈ ([] : List Note) → ∃ born, (key, born) ∈ w.store.candidates ∧ Evidence w.store w.arrived (key, born) f row :=
    fun none_ => ⟨.inr none_, nodup_nil, fun _ _ _ mem => absurd mem not_mem_nil⟩
  cases move with
  | enqueue keys => exact silent (fold_only enqueueOne_only keys w.store).watchedEnds
  | enqueueReread keys => exact silent (fold_only enqueueRereadOne_only keys w.store).watchedEnds
  | enqueueStop key wasWatched =>
    cases wasWatched with
    | true => exact silent (fold_only enqueueOne_only [key] w.store).watchedEnds
    | false =>
      exact silent (fold_only enqueueOne_only [key]
        { w.store with candidates := ViewReconcileStore.stampCandidate key w.store.nextId w.store.candidates }).watchedEnds
  | answer id outcome => exact silent (congrArg (·.watchedEnds) (answer_store w id outcome))
  | pump maySend clients =>
    have closes := pump_closes kept.sound kept.unique w.arrived maySend clients
    exact ⟨.inl closes.reported, closes.once, fun key f row noted => (closes.ended key f row noted).2⟩
  | takeWatchedEnds => exact emptied rfl
  | reset => exact emptied rfl
  | _ => exact silent rfl

/-- An item is reported as watched to its end on the word of a read that was sent after its newest stop,
once; and a stop waits for a read that is coming exactly while no kick drops its batch. -/
theorem ends_rest_on_later_reads (moves : List Move) :
    let past := history World.step .new moves
    (∀ before x later, past = before ++ x :: later →
      (x.after.store.watchedEnds = x.before.store.watchedEnds ++ ends x.answer ∨ x.after.store.watchedEnds = []) ∧
      (ends x.answer).Nodup ∧
      ∀ key f row, .ended key f row ∈ x.answer →
        row.key = key ∧ row.movie.watched = true ∧ f ∈ x.before.store.flights ∧
        (∃ rows, ⟨f.id, .read (some rows)⟩ ∈ x.before.arrived ∧ row ∈ rows) ∧
        (∀ press ∈ x.before.store.ledger.since f.stamp, press.2.pressed.isSome = true → press.1.covers row.movie = false) ∧
        ∃ stop since, StoppedLast before key stop since ∧ (∃ y ∈ since, .sent f ∈ y.answer) ∧ ∀ y ∈ since, key ∉ ends y.answer) ∧
    ((∀ x ∈ past, Registered x.before x.input) ↔
      ∀ before x later, past = before ++ x :: later → ∀ c ∈ x.after.store.candidates, ReadComes (before ++ [x]) x.after.store c.1) := by
  refine ⟨fun before x later whole => ?_, fun registered before x later whole c waits => ?_, fun comes x member => ?_⟩
  · obtain ⟨early, move, rest, -, rfl, rfl, -⟩ := history_split World.step whole
    have kept := run_stopKept early
    obtain ⟨reported, once, evident⟩ := step_reports _ kept move
    refine ⟨reported, once, fun key f row noted => ?_⟩
    obtain ⟨born, waits, evidence⟩ := evident key f row noted
    obtain ⟨⟨stop, since, stopped, sent, silent⟩, -⟩ := kept.born _ waits
    obtain ⟨y, member, had⟩ := kept.flightsSent f evidence.out
    exact ⟨evidence.own, evidence.watched, evidence.out, evidence.answered, evidence.newest, stop, since, stopped,
      ⟨y, sent y member f had evidence.after_, had⟩, silent⟩
  · obtain ⟨early, move, rest, -, rfl, rfl, -⟩ := history_split World.step whole
    have upTo := run_coming (early ++ [move])
    rw [Transducer.history_snoc, Transducer.run_snoc] at upTo
    have all := upTo.2 (fun y member => registered y (by
      rw [whole]
      rcases mem_append.mp member with old | now
      · exact mem_append_left _ old
      · rw [mem_singleton.mp now]
        exact mem_append_right _ mem_cons_self))
    exact (all c waits).comes upTo.1 waits
  · obtain ⟨before, later, whole⟩ := append_of_mem member
    have comes_ := comes before x later whole
    obtain ⟨early, move, rest, -, rfl, rfl, -⟩ := history_split World.step whole
    have kept := run_stopKept early
    cases move with
    | pump maySend clients =>
      intro sends ready c waits lost
      obtain ⟨still, gone, free⟩ := lost_waits kept.sound sends ready waits lost
      rcases comes_ c still with queued | ⟨-, f, out, asks⟩ | ⟨-, -, -, f, out, asks, -⟩
      · exact gone queued
      · rw [free f out] at asks
        cases asks
      · rw [free f out] at asks
        cases asks
    | _ => trivial

def stoppedItem : Key := (⟨3⟩, "7")

def laterMark : ReadRow := ⟨⟨⟨3⟩, "7", 0, 0, "", 0, false, true, none, none, none⟩, "", ""⟩

/-- A stop whose batch is dropped waits for no read, and an unrelated read of the item, whenever it
comes, is taken for the end of that play. -/
theorem dropped_stop_is_reported :
    let clients : ClientKeys := ⟨[(⟨3⟩, ⟨1, 1, 1⟩)]⟩
    let moves : List Move := [.enqueueStop stoppedItem false, .pump true ⟨[]⟩, .enqueue [stoppedItem], .pump true clients, .takeJobs,
      .answer 1 (.read (some [laterMark])), .pump true clients]
    let dropped := (run World.step .new (moves.take 2)).store
    dropped.candidates = [(stoppedItem, 1)] ∧ dropped.pending = [] ∧ dropped.dirty = [] ∧ dropped.flights = [] ∧
      (run World.step .new moves).store.watchedEnds = [stoppedItem] := by
  decide +kernel

end
end PlxNative.Reconcile
