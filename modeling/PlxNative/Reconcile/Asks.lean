import PlxNative.Reconcile.Flights

/-! Every owed read-back is sent after it was asked, in every run of the store. -/
namespace PlxNative.Reconcile
open List World
open ViewState (ServerId ClientKeys)
open Transducer (Event event history run history_split)

abbrev ReadStep : Type := Event World Move (List Note)

def Move.asks : Move → List Key
  | .enqueue keys => keys
  | .enqueueReread keys => keys
  | .enqueueStop key _ => [key]
  | _ => []

section
open ViewReconcileStore
variable {s : ViewReconcileStore} {key : Key}

theorem enqueueOne_owed (owed : Owed s key) (other : Key) : Owed (s.enqueueOne other) key := by
  unfold ViewReconcileStore.enqueueOne
  simp only
  split
  · exact owed.imp_right (fun dirty => mem_push.mpr (.inl dirty))
  · exact owed.imp_left (fun queued => mem_push.mpr (.inl queued))

theorem enqueueOne_owes (s : ViewReconcileStore) (key : Key) : Owed (s.enqueueOne key) key := by
  unfold ViewReconcileStore.enqueueOne
  simp only
  split
  · exact .inr (mem_push.mpr (.inr rfl))
  · exact .inl (mem_push.mpr (.inr rfl))

theorem enqueueRereadOne_owed (owed : Owed s key) (other : Key) : Owed (s.enqueueRereadOne other) key := by
  have kept := enqueueOne_owed owed other
  unfold ViewReconcileStore.enqueueRereadOne
  simp only
  split <;> exact kept

theorem enqueueRereadOne_owes (s : ViewReconcileStore) (key : Key) : Owed (s.enqueueRereadOne key) key := by
  have owes := enqueueOne_owes s key
  unfold ViewReconcileStore.enqueueRereadOne
  simp only
  split <;> exact owes

theorem fold_owed {ask : ViewReconcileStore → Key → ViewReconcileStore} (keeps : ∀ s key other, Owed s key → Owed (ask s other) key)
    (owes : ∀ s key, Owed (ask s key) key) (keys : List Key) (s : ViewReconcileStore) (either : Owed s key ∨ key ∈ keys) :
    Owed (keys.foldl ask s) key := by
  induction keys generalizing s with
  | nil => exact either.resolve_right not_mem_nil
  | cons first rest ih =>
    refine ih (ask s first) ?_
    rcases either with owed | asked
    · exact .inl (keeps s key first owed)
    · rcases mem_cons.mp asked with rfl | later
      · exact .inl (owes s key)
      · exact .inr later

theorem enqueue_owed (s : ViewReconcileStore) (keys : List Key) (either : Owed s key ∨ key ∈ keys) : Owed (s.enqueue keys) key :=
  fold_owed (fun _ _ other owed => enqueueOne_owed owed other) enqueueOne_owes keys s either

theorem enqueueReread_owed (s : ViewReconcileStore) (keys : List Key) (either : Owed s key ∨ key ∈ keys) : Owed (s.enqueueReread keys) key :=
  fold_owed (fun _ _ other owed => enqueueRereadOne_owed owed other) enqueueRereadOne_owes keys s either

theorem enqueueStop_owed (s : ViewReconcileStore) (stopped : Key) (wasWatched : Bool) (either : Owed s key ∨ key ∈ [stopped]) :
    Owed (s.enqueueStop stopped wasWatched) key := by
  unfold ViewReconcileStore.enqueueStop
  split
  · exact enqueue_owed s [stopped] either
  · exact enqueue_owed _ [stopped] either

end
section
open ViewReconcileStore
variable {s : ViewReconcileStore}
variable {f : Flight}

theorem Sound.find (sound : Sound s) (mem : f ∈ s.flights) : s.flights.find? (·.id = f.id) = some f := by
  cases found : s.flights.find? (·.id = f.id) with
  | none => simpa using List.find?_eq_none.mp found f mem
  | some g =>
    have eq : g.id = f.id := by simpa using List.find?_some found
    rw [inj_on_of_nodup_map sound.distinct (List.mem_of_find?_eq_some found) mem eq]

variable {landing : Landing}

theorem land_unknown (unknown : s.flights.find? (·.id = landing.id) = none) : s.land landing = (s, false, []) := by
  rw [ViewReconcileStore.land, unknown]

theorem land_refused (found : s.flights.find? (·.id = landing.id) = some f) (refused : landing.outcome = .notStarted) :
    s.land landing = (requeueUnstarted { s with flights := s.flights.eraseP (·.id = landing.id) } f, false, []) := by
  rw [ViewReconcileStore.land, found]
  simp only [refused]

theorem land_read {rows : Option (List ReadRow)} (found : s.flights.find? (·.id = landing.id) = some f)
    (answered : landing.outcome = .read rows) :
    s.land landing = ((landRead { s with flights := s.flights.eraseP (·.id = landing.id) } f rows).1, true,
      (landRead { s with flights := s.flights.eraseP (·.id = landing.id) } f rows).2) := by
  rw [ViewReconcileStore.land, found]
  simp only [answered]

theorem land_kept (sound : Sound s) (landing : Landing) : Sound (s.land landing).1 ∧ ∀ key, Owed s key → Owed (s.land landing).1 key := by
  cases found : s.flights.find? (·.id = landing.id) with
  | none =>
    rw [land_unknown found]
    exact ⟨sound, fun _ => id⟩
  | some f =>
    cases outcome : landing.outcome with
    | notStarted =>
      rw [land_refused found outcome]
      have requeued := requeue_requeued sound found
      exact ⟨requeued.sound, requeued.owed⟩
    | read rows =>
      rw [land_read found outcome]
      have answered := landRead_answered sound found rows
      exact ⟨answered.sound, answered.owed⟩

theorem landAll_kept (sound : Sound s) (landings : List Landing) :
    Sound (s.landAll landings).1 ∧ ∀ key, Owed s key → Owed (s.landAll landings).1 key := by
  induction landings generalizing s with
  | nil => exact ⟨sound, fun _ => id⟩
  | cons landing rest ih =>
    have one := land_kept sound landing
    have later := ih one.1
    exact ⟨later.1, fun key owed => later.2 key (one.2 key owed)⟩

theorem Sound.pump (sound : Sound s) (landings : List Landing) (maySend : Bool) (clients : ClientKeys) :
    Sound (s.pump landings maySend clients).1 := by
  have landed := (landAll_kept sound landings).1
  have kicked : Sound (if maySend then (s.landAll landings).1.kick clients else ((s.landAll landings).1, [])).1 := by
    split
    · exact (kick_kicked landed clients).sound
    · exact landed
  unfold ViewReconcileStore.pump
  simp only
  split
  · exact kicked.same rfl rfl rfl rfl rfl
  · exact kicked

theorem pump_owed (sound : Sound s) (landings : List Landing) (maySend : Bool) (clients : ClientKeys) {key : Key} (owed : Owed s key) :
    Owed (s.pump landings maySend clients).1 key ∨ (∃ f, .sent f ∈ (s.pump landings maySend clients).2.2 ∧ f.asks key = true) ∨
      ∃ keys, .dropped key.1 keys ∈ (s.pump landings maySend clients).2.2 := by
  obtain ⟨landed, keeps⟩ := landAll_kept sound landings
  have bumped : ∀ {t : ViewReconcileStore}, Owed t key → Owed (if (s.landAll landings).2.1 then t.bump else t) key := by
    intro t owed
    split <;> exact owed
  unfold ViewReconcileStore.pump
  cases maySend with
  | true =>
    simp only [mem_append]
    have kicked := kick_kicked landed clients
    rcases keeps key owed with queued | dirty
    · rcases kicked.outcome key queued with stays | ⟨f, sent, asks, -⟩ | ⟨-, keys, dropped⟩
      · exact .inl (bumped (.inl stays))
      · exact .inr (.inl ⟨f, .inr sent, asks⟩)
      · exact .inr (.inr ⟨keys, .inr dropped⟩)
    · exact .inl (bumped (.inr (kicked.dirty ▸ dirty)))
  | false => exact .inl (bumped (keeps key owed))

end
section

theorem answer_store (w : World) (id : Nat) (outcome : Outcome) : (w.answer id outcome).store = w.store := by
  unfold World.answer
  split <;> rfl

variable {w : World}

theorem step_sound (sound : Sound w.store) (move : Move) : Sound (w.step move).1.store := by
  cases move with
  | enqueue keys => exact sound.enqueue keys
  | enqueueReread keys => exact sound.enqueueReread keys
  | enqueueStop key wasWatched => exact sound.enqueueStop key wasWatched
  | reset => exact .reset
  | answer id outcome =>
    simp only [step, answer_store]
    exact sound
  | pump maySend clients => exact sound.pump _ _ _
  | _ => exact sound.same rfl rfl rfl rfl rfl

theorem step_owed (sound : Sound w.store) {key : Key} (move : Move) (stays : move ≠ .reset)
    (either : Owed w.store key ∨ key ∈ move.asks) :
    Owed (w.step move).1.store key ∨ (∃ f, .sent f ∈ (w.step move).2 ∧ f.asks key = true) ∨ ∃ keys, .dropped key.1 keys ∈ (w.step move).2 := by
  cases move with
  | enqueue keys => exact .inl (enqueue_owed _ keys either)
  | enqueueReread keys => exact .inl (enqueueReread_owed _ keys either)
  | enqueueStop stopped wasWatched => exact .inl (enqueueStop_owed _ stopped wasWatched either)
  | reset => exact absurd rfl stays
  | pump maySend clients => exact pump_owed sound _ _ _ (either.resolve_right not_mem_nil)
  | answer id outcome =>
    simp only [step, answer_store]
    exact .inl (either.resolve_right not_mem_nil)
  | _ => exact .inl (either.resolve_right not_mem_nil)

theorem run_sound (moves : List Move) : Sound (run step .new moves).store :=
  Transducer.run_invariant step (P := fun w => Sound w.store) (fun _ move sound => step_sound sound move) Sound.start moves

/-- While nothing is reset and the server is not found unregistered, an item that is owed stays owed, or
is sent. -/
theorem owed_since (sound : Sound w.store) {key : Key} (owed : Owed w.store key) (moves : List Move)
    (stays : ∀ x ∈ history step w moves, x.input ≠ .reset ∧ ∀ keys, .dropped key.1 keys ∉ x.answer) :
    (∃ x ∈ history step w moves, ∃ f, .sent f ∈ x.answer ∧ f.asks key = true) ∨ Owed (run step w moves).store key := by
  induction moves generalizing w with
  | nil => exact .inr owed
  | cons move rest ih =>
    obtain ⟨kept, registered⟩ := stays _ mem_cons_self
    rcases step_owed sound move kept (.inl owed) with owed' | ⟨f, sent, asks⟩ | ⟨keys, dropped⟩
    · rcases ih (step_sound sound move) owed' (fun x mem => stays x (mem_cons_of_mem _ mem)) with ⟨x, mem, sent⟩ | owed''
      · exact .inl ⟨x, mem_cons_of_mem _ mem, sent⟩
      · exact .inr owed''
    · exact .inl ⟨_, mem_cons_self, f, sent, asks⟩
    · exact absurd dropped (registered keys)

/-- Every ask of an item is answered by a read that was sent after it, or is still owed one; the reads
that are out never overlap; and what lands settles only its own flight. -/
theorem owed_reads_are_sent (moves : List Move) :
    let past := history step .new moves
    let now := (run step .new moves).store
    ((now.flights.map (·.id)).Nodup ∧ (∀ f ∈ now.flights, f.id < now.nextId) ∧ (now.flights.map (·.sid)).Nodup ∧
      (∀ f ∈ now.flights, f.keys.length ≤ batchKeys ∧ f.keys.Nodup ∧ f.parents <:+ f.keys) ∧
      (∀ f ∈ now.flights, ∀ key ∈ now.pending, f.asks key = false) ∧ ∀ key ∈ now.dirty, ∃ f ∈ now.flights, f.asks key = true) ∧
    (∀ before asking since key, past = before ++ asking :: since → key ∈ asking.input.asks →
      (∀ x ∈ since, x.input ≠ .reset ∧ ∀ keys, .dropped key.1 keys ∉ x.answer) →
      (∃ x ∈ since, ∃ f, .sent f ∈ x.answer ∧ f.asks key = true) ∨ key ∈ now.pending ∨ key ∈ now.dirty ∧ ∃ f ∈ now.flights, f.asks key = true) ∧
    ∀ earlier landing, let s := (now.landAll earlier).1
      ((∀ f ∈ s.flights, f.id ≠ landing.id) → s.land landing = (s, false, [])) ∧
      ∀ f ∈ s.flights, f.id = landing.id → (∀ g, g ∈ (s.land landing).1.flights ↔ g ∈ s.flights ∧ g ≠ f) ∧
        (landing.outcome = .notStarted → (s.land landing).2 = (false, []) ∧ (∀ key ∈ (s.land landing).1.dirty, f.asks key = false) ∧
          ∀ key, key ∈ (s.land landing).1.pending ∨ key ∈ (s.land landing).1.pendingParents ↔
            key ∈ s.pending ∨ key ∈ s.pendingParents ∨ f.asks key = true) ∧
        ∀ rows, landing.outcome = .read rows → ∀ key ∈ (s.land landing).1.pendingParents,
          key ∈ s.pendingParents ∨ key.1 = f.sid ∧ NamedBy f (rows.getD []) key.2 := by
  intro past now
  have sound : Sound now := run_sound moves
  refine ⟨⟨sound.distinct, sound.below, sound.oneEach, fun f member => ⟨sound.bounded f member, sound.once f member, sound.tail f member⟩,
    sound.apart, fun key dirty => (isOut_iff _ _).mp (sound.dirtyOut key dirty)⟩, fun before asking since key whole asked stays => ?_,
    fun earlier landing => ?_⟩
  · obtain ⟨early, move, later, same, rfl, rfl, rfl⟩ := history_split step whole
    have before_ := run_sound early
    have kept : move ≠ .reset := by
      rintro rfl
      cases asked
    have after_ : (run step .new moves) = run step (step (run step .new early) move).1 later := by
      rw [same, Transducer.run_append]
      rfl
    rcases step_owed before_ move kept (.inr asked) with owed | ⟨f, sent, -⟩ | ⟨keys, dropped⟩
    · rcases owed_since (step_sound before_ move) owed later stays with sent | owed'
      · exact .inl sent
      · rw [← after_] at owed'
        exact .inr (owed'.imp_right (fun dirty => ⟨dirty, (isOut_iff _ _).mp (sound.dirtyOut key dirty)⟩))
    · cases move <;> first | cases sent | cases asked
    · cases move <;> first | cases dropped | cases asked
  · have reached := (landAll_kept sound earlier).1
    refine ⟨fun unknown => land_unknown (List.find?_eq_none.mpr (by simpa using unknown)), fun f member own => ?_⟩
    have found := reached.find member
    rw [own] at found
    cases outcome : landing.outcome with
    | notStarted =>
      have requeued := requeue_requeued reached found
      rw [land_refused found outcome]
      exact ⟨requeued.flights, fun _ => ⟨rfl, requeued.undirty, requeued.exactly⟩, nofun⟩
    | read rows =>
      have answered := landRead_answered reached found rows
      rw [land_read found outcome]
      exact ⟨answered.flights, nofun, fun rows' same => Outcome.read.inj same ▸ answered.named⟩

end
end PlxNative.Reconcile
