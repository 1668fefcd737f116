import PlxNative.Storage.Register

/-! What every store keeps of the register's history, whoever makes it. -/
namespace PlxNative.Storage
open List
open Service (Pact)

section

/-- The register has left the revision an operation was to be applied at. -/
def Passed (history : List Stored) (revision : Option Nat) : Prop :=
  ∃ last, history.getLast? = some last ∧ ∀ rev ∈ revision, rev < last.rev

/-- Each operation has one revision it may enter at, `plan`: it enters there once, to be
applied or to wait, and is applied once. -/
structure Kept (flavor : Flavor) (plan : Generation → Option Nat) (w : Db8) : Prop where
  ascending : KeyOrder.Ascending Stored.rev w.history
  encoded : ∀ stored ∈ w.history, stored.state.encode = .ok ()
  moves : ∀ i stored, w.history[i]? = some stored →
    ∃ base, Base flavor (before w.history i) base ∧ Moves base stored.state
  recorded : ∀ stored ∈ w.history, ∀ id digest, (id, digest) ∈ stored.state.keys →
    ∃ i, AppliesAt flavor w.history id digest i
  passed : ∀ id digest i, AppliesAt flavor w.history id digest i → Passed w.history (plan id)
  once : ∀ id digest other i j, AppliesAt flavor w.history id digest i → AppliesAt flavor w.history id other j → i = j
  waiting : ∀ stored ∈ w.object, ∀ pending ∈ stored.state.pendingAuth, Passed w.history (plan pending.operation.id) ∧
    ∀ digest i, ¬ AppliesAt flavor w.history pending.operation.id digest i

variable {flavor : Flavor} {plan : Generation → Option Nat} {w u : Db8} {s s' : CanonicalState} {revision : Option Nat}
  {rev : Nat}

theorem kept_empty : Kept flavor plan Db8.empty := by
  have never : ∀ {id digest i}, ¬ AppliesAt flavor Db8.empty.history id digest i :=
    fun applies => absurd applies.lt (Nat.not_lt_zero _)
  constructor
  · exact List.Pairwise.nil
  · intro stored mem
    exact absurd mem not_mem_nil
  · intro i stored found
    exact absurd (List.mem_of_getElem? found) not_mem_nil
  · intro stored mem
    exact absurd mem not_mem_nil
  · intro id digest i applies
    exact absurd applies never
  · intro id digest other i j applies
    exact absurd applies never
  · intro stored object
    exact absurd (List.mem_of_getLast? object) not_mem_nil

/-- The state was read at the revision; without an object it is a new installation's. -/
def Held (flavor : Flavor) (w : Db8) : Option Nat → CanonicalState → Prop
  | none, s => ∃ g, s = CanonicalState.new flavor g
  | some rev, s => ⟨rev, s⟩ ∈ w.history

theorem Held.grows (held : Held flavor w revision s) (grows : w.history <+: u.history) : Held flavor u revision s := by
  cases revision with
  | none => exact held
  | some rev => exact grows.subset held

theorem Kept.base_of_held (kept : Kept flavor plan w) (held : Held flavor w revision s) (current : w.Matches revision) :
    Base flavor (w.object.map Stored.state) s := by
  unfold Db8.Matches at current
  cases object : w.object with
  | none =>
    rw [object] at current
    cases current
    exact held
  | some stored =>
    rw [object] at current
    cases current
    have eq := kept.ascending.key_injOn held (List.mem_of_getLast? object) rfl
    exact congrArg Stored.state eq

theorem not_passed_of_matches (current : w.Matches revision) : ¬ Passed w.history revision := by
  rintro ⟨last, object, below⟩
  unfold Db8.Matches Db8.object at current
  rw [object] at current
  cases current
  exact Nat.lt_irrefl _ (below last.rev rfl)

theorem passed_snoc (current : w.Matches revision) (newer : ∀ stored ∈ w.object, stored.rev < rev) :
    Passed (w.history ++ [⟨rev, s'⟩]) revision := by
  refine ⟨⟨rev, s'⟩, by simp, ?_⟩
  intro entered eq
  rw [eq] at current
  obtain ⟨stored, object, rfl⟩ := Option.map_eq_some_iff.mp current
  exact newer stored object

theorem Passed.snoc (passed : Passed w.history revision) (newer : ∀ stored ∈ w.object, stored.rev < rev) :
    Passed (w.history ++ [⟨rev, s'⟩]) revision := by
  obtain ⟨last, object, below⟩ := passed
  refine ⟨⟨rev, s'⟩, by simp, ?_⟩
  intro entered eq
  exact Nat.lt_trans (below entered eq) (newer last object)

/-- One more store keeps the invariant, if what it applies or leaves waiting is new to the
history and has just entered. -/
theorem Kept.snoc (kept : Kept flavor plan w) (base : Base flavor (w.object.map Stored.state) s)
    (newer : ∀ stored ∈ w.object, stored.rev < rev) (encoded : s'.encode = .ok ()) (moves : Moves s s')
    (keys : ∀ id digest, (id, digest) ∈ s'.keys → (id, digest) ∈ s.keys ∨
      ∃ op, op.id = id ∧ op.digest = digest ∧ Brings s op s')
    (brought : ∀ id digest, AppliesAt flavor (w.history ++ [⟨rev, s'⟩]) id digest w.history.length →
      Passed (w.history ++ [⟨rev, s'⟩]) (plan id) ∧ ∀ other i, ¬ AppliesAt flavor w.history id other i)
    (waiting : ∀ pending ∈ s'.pendingAuth, Passed (w.history ++ [⟨rev, s'⟩]) (plan pending.operation.id) ∧
      ∀ digest i, ¬ AppliesAt flavor (w.history ++ [⟨rev, s'⟩]) pending.operation.id digest i) :
    Kept flavor plan { w with history := w.history ++ [⟨rev, s'⟩] } := by
  constructor
  · exact kept.ascending.snoc (kept.ascending.below_of_last newer)
  · exact forall_mem_append.mpr ⟨kept.encoded, forall_mem_singleton.mpr encoded⟩
  · intro i stored found
    have inside := (List.getElem?_eq_some_iff.mp found).1
    simp only [length_append] at inside
    rcases Nat.lt_succ_iff_lt_or_eq.mp inside with earlier | rfl
    · rw [List.getElem?_append_left earlier] at found
      obtain ⟨start, before_i, moved⟩ := kept.moves i stored found
      exact ⟨start, by rw [before_append _ earlier]; exact before_i, moved⟩
    · rw [List.getElem?_concat_length] at found
      cases found
      exact ⟨s, by rw [before_length]; exact base, moves⟩
  · intro stored mem id digest listed
    have grown : w.history <+: w.history ++ [⟨rev, s'⟩] := prefix_append _ _
    rcases mem_append.mp mem with earlier | this
    · obtain ⟨i, applies⟩ := kept.recorded stored earlier id digest listed
      exact ⟨i, applies.grows grown⟩
    · rw [mem_singleton.mp this] at listed
      rcases keys id digest listed with old | ⟨op, eq, digests, brings⟩
      · cases object : w.object with
        | none =>
          rw [object] at base
          -- a new installation has an empty ledger
          obtain ⟨g, rfl⟩ := base
          cases old
        | some last =>
          rw [object] at base
          rw [show s = last.state from base] at old
          obtain ⟨i, applies⟩ := kept.recorded last (List.mem_of_getLast? object) id digest old
          exact ⟨i, applies.grows grown⟩
      · exact ⟨w.history.length, appliesAt_last.mpr ⟨s, op, base, eq, digests, brings⟩⟩
  · intro id digest i applies
    rcases appliesAt_snoc applies with earlier | rfl
    · exact (kept.passed id digest i earlier).snoc newer
    · exact (brought id digest applies).1
  · intro id digest other i j first second
    rcases appliesAt_snoc first with early | rfl
    · rcases appliesAt_snoc second with early' | rfl
      · exact kept.once id digest other i j early early'
      · exact absurd early ((brought id other second).2 digest i)
    · rcases appliesAt_snoc second with early' | rfl
      · exact absurd early' ((brought id digest first).2 other j)
      · rfl
  · intro stored object pending held
    have last : stored = ⟨rev, s'⟩ := by
      have found : (w.history ++ [Stored.mk rev s']).getLast? = some stored := object
      rw [List.getLast?_concat] at found
      exact (Option.some.inj found).symm
    subst last
    exact waiting pending held

end

section
variable {flavor : Flavor} {plan : Generation → Option Nat} {w u : Db8} {s s' : CanonicalState} {revision : Option Nat}
  {rev : Nat}

/-- What a helper may put at a revision it has read: a new operation only at the revision
planned for it. -/
inductive Licensed (plan : Generation → Option Nat) (s : CanonicalState) (revision : Option Nat) (s' : CanonicalState) : Prop
  | applied (op : Operation) (its : AppliedTo s op s') (enters : plan op.id = revision)
  | staged (pending : PendingAuth) (state : s' = { s with pendingAuth := some pending })
      (enters : plan pending.operation.id = revision)
  | promoted (op : Operation) (its : Promoted s op s')
  | repaired (envelope : String) (state : s' = { s with authEnvelope := some envelope })

theorem Licensed.moves (licensed : Licensed plan s revision s') : Moves s s' := by
  cases licensed with
  | applied op its _ => exact .applied op its
  | staged pending state _ => exact .staged pending state
  | promoted op its => exact .promoted op its
  | repaired envelope state => exact .repaired envelope state

theorem Base.same_revision {previous : Option CanonicalState} (base : Base flavor previous s) (other : Base flavor previous s') :
    s.revision = s'.revision := by
  cases previous with
  | none =>
    obtain ⟨g, rfl⟩ := base
    obtain ⟨g', rfl⟩ := other
    rfl
  | some state => rw [base, other]

theorem Kept.waiting_base (kept : Kept flavor plan w) (base : Base flavor (w.object.map Stored.state) s)
    {pending : PendingAuth} (held : s.pendingAuth = some pending) : Passed w.history (plan pending.operation.id) ∧
      ∀ digest i, ¬ AppliesAt flavor w.history pending.operation.id digest i := by
  cases object : w.object with
  | none =>
    rw [object] at base
    obtain ⟨g, rfl⟩ := base
    cases held
  | some last =>
    rw [object] at base
    rw [show s = last.state from base] at held
    exact kept.waiting last object pending held

variable {id : Generation} {digest : String}

theorem brought_key {op : Operation} (advanced : Advanced s op s')
    (applies : AppliesAt flavor (w.history ++ [⟨rev, s'⟩]) id digest w.history.length) : id = op.id := by
  obtain ⟨base, other, -, rfl, rfl, brings⟩ := appliesAt_last.mp applies
  have last := brings.advanced.last
  rw [advanced.last] at last
  exact (congrArg Prod.fst (Option.some.inj last)).symm

theorem not_brought (base : Base flavor (w.object.map Stored.state) s) (eq : s'.revision = s.revision) :
    ¬ AppliesAt flavor (w.history ++ [⟨rev, s'⟩]) id digest w.history.length := by
  intro applies
  obtain ⟨other, op, other_base, -, -, brings⟩ := appliesAt_last.mp applies
  exact not_brings (eq.trans (base.same_revision other_base)) brings

theorem Kept.put (kept : Kept flavor plan w) (held : Held flavor w revision s) (licensed : Licensed plan s revision s')
    (encoded : s'.encode = .ok ()) (current : w.Matches revision) (newer : ∀ stored ∈ w.object, stored.rev < rev) :
    Kept flavor plan { w with history := w.history ++ [⟨rev, s'⟩] } := by
  have base := kept.base_of_held held current
  have unentered : ∀ {id}, plan id = revision → ∀ digest i, ¬ AppliesAt flavor w.history id digest i := by
    intro id enters digest i applies
    have passed := kept.passed id digest i applies
    rw [enters] at passed
    exact not_passed_of_matches current passed
  have enters_now : ∀ {id}, plan id = revision → Passed (w.history ++ [⟨rev, s'⟩]) (plan id) := by
    intro id enters
    rw [enters]
    exact passed_snoc current newer
  have moves := licensed.moves
  cases licensed with
  | applied op its enters =>
    have advanced := its.advanced
    refine kept.snoc base newer encoded moves ?_ ?_ ?_
    · intro id digest listed
      rcases advanced.mem_keys listed with old | new
      · exact .inl old
      · cases new
        exact .inr ⟨op, rfl, rfl, .inl its⟩
    · intro id digest applies
      cases brought_key advanced applies
      exact ⟨enters_now enters, unentered enters⟩
    · intro pending waits
      rw [advanced.settled] at waits
      cases waits
  | staged pending state enters =>
    have eq : s'.revision = s.revision := by rw [state]
    refine kept.snoc base newer encoded moves ?_ ?_ ?_
    · intro id digest listed
      rw [state] at listed
      exact .inl listed
    · intro id digest applies
      exact absurd applies (not_brought base eq)
    · intro waiting waits
      rw [state] at waits
      cases waits
      refine ⟨enters_now enters, ?_⟩
      intro digest i applies
      rcases appliesAt_snoc applies with earlier | rfl
      · exact unentered enters digest i earlier
      · exact not_brought base eq applies
  | promoted op its =>
    have advanced := its.advanced
    have promoted := its
    obtain ⟨pending, r, waits, rfl, -⟩ := its
    obtain ⟨passed, never⟩ := kept.waiting_base base waits
    refine kept.snoc base newer encoded moves ?_ ?_ ?_
    · intro id digest listed
      rcases advanced.mem_keys listed with old | new
      · exact .inl old
      · cases new
        exact .inr ⟨pending.operation, rfl, rfl, .inr promoted⟩
    · intro id digest applies
      cases brought_key advanced applies
      exact ⟨passed.snoc newer, never⟩
    · intro waiting waits'
      rw [advanced.settled] at waits'
      cases waits'
  | repaired envelope state =>
    have eq : s'.revision = s.revision := by rw [state]
    refine kept.snoc base newer encoded moves ?_ ?_ ?_
    · intro id digest listed
      rw [state] at listed
      exact .inl listed
    · intro id digest applies
      exact absurd applies (not_brought base eq)
    · intro pending waits
      have waits : s.pendingAuth = some pending := by
        rw [state] at waits
        exact waits
      obtain ⟨passed, never⟩ := kept.waiting_base base waits
      refine ⟨passed.snoc newer, ?_⟩
      intro digest i applies
      rcases appliesAt_snoc applies with earlier | rfl
      · exact never digest i earlier
      · exact not_brought base eq applies

/-- Helpers keep the invariant, and what was stored stays on record. -/
def pact (flavor : Flavor) (plan : Generation → Option Nat) : Pact Db8 where
  good := Kept flavor plan
  grows := fun w u => w.history <+: u.history
  refl := fun w => prefix_refl w.history
  trans := List.IsPrefix.trans

end
end PlxNative.Storage
