import PlxNative.Storage.Receipts

/-! Sign-out: what a cleared tenure holds, what it accepts, and that nothing formed before
it can change the state after it. -/
namespace PlxNative.Storage
open Checks Json

section
variable {s s' : CanonicalState} {op : Operation} {r : Applied}

/-- Successful operations in a row, replays among them. -/
def CanonicalState.run : CanonicalState → List Operation → Except StateError CanonicalState
  | s, [] => .ok s
  | s, op :: ops => do
      let (next, _) ← s.applyVerifiedDigest op
      next.run ops

variable {ops : List Operation}

theorem run_cons : s.run (op :: ops) = .ok s' ↔
    ∃ next r, s.applyVerifiedDigest op = .ok (next, r) ∧ next.run ops = .ok s' := by
  constructor
  · intro ran
    obtain ⟨⟨next, r⟩, applied, later⟩ := seq_eq_ok.mp ran
    exact ⟨next, r, applied, later⟩
  · rintro ⟨next, r, applied, later⟩
    exact seq_eq_ok.mpr ⟨(next, r), applied, later⟩

theorem run_invariant {P : CanonicalState → Prop} (ran : s.run ops = .ok s')
    (kept : ∀ {s op s'}, P s → Newly s op s' → P s') (holds : P s) : P s' := by
  induction ops generalizing s with
  | nil =>
    cases ran
    exact holds
  | cons op ops ih =>
    obtain ⟨next, r, applied, later⟩ := run_cons.mp ran
    refine ih later ?_
    rcases applyVerifiedDigest_eq_ok.mp applied with ⟨rfl, -⟩ | ⟨newly, -⟩
    · exact holds
    · exact kept holds newly

theorem run_epoch_le (ran : s.run ops = .ok s') : s.epoch ≤ s'.epoch := by
  refine run_invariant (P := fun t => s.epoch ≤ t.epoch) ran ?_ (Nat.le_refl _)
  intro t op t' before newly
  obtain ⟨m, steps⟩ := newly.steps
  rw [steps.epoch]
  omega

theorem run_valid (ran : s.run ops = .ok s') (valid : s.validate = .ok ()) :
    s'.validate = .ok () := by
  refine run_invariant (P := fun t => t.validate = .ok ()) ran ?_ valid
  intro t op t' _ newly
  exact newly.valid_after

end

section
variable {s s' m : CanonicalState} {op : Operation} {r : Applied}

/-- A preferences object holds nothing bound to an account. -/
def Unbound (preferences : Json.Value) : Prop :=
  ∀ fields, preferences = .object fields → ∀ key ∈ accountBoundPreferences, ¬ Json.HasKey key fields

theorem not_hasKey_foldl_remove {key : String} {keys : List String} {fields : List (String × Json.Value)}
    (removed : key ∈ keys ∨ ¬ Json.HasKey key fields) :
    ¬ Json.HasKey key (keys.foldl (fun fields key => remove key fields) fields) := by
  induction keys generalizing fields with
  | nil =>
    rcases removed with mem | without
    · cases mem
    · exact without
  | cons first rest ih =>
    rcases removed with mem | without
    · rcases List.mem_cons.mp mem with rfl | later
      · exact ih (.inr (not_hasKey_remove _ _))
      · exact ih (.inl later)
    · exact ih (.inr fun held => without held.of_remove)

theorem clearedPreferences_unbound (preferences : Json.Value) : Unbound (clearedPreferences preferences) := by
  intro fields its key bound
  cases preferences with
  | object held =>
    cases its
    exact not_hasKey_foldl_remove (.inl bound)
  | null => cases its
  | bool b => cases its
  | number text => cases its
  | string text => cases its
  | array values => cases its

variable {mutation : Mutation}

theorem clearedReset_iff : s.ClearedReset mutation ↔ s.status = .cleared ∧
    ∃ fields, s.publicPart.preferences = .object fields ∧ Json.HasKey "language" fields ∧
      mutation = .updatePreferences
        { s.publicPart with preferences := .object (remove "language" fields) } := by
  unfold CanonicalState.ClearedReset CanonicalState.languageReset
  refine and_congr_right fun _ => ?_
  constructor
  · rintro ⟨reset, mem, wanted⟩
    split at mem
    · rename_i fields its
      split at mem
      · rename_i held
        cases mem
        cases mutation with
        | updatePreferences publicPart =>
          cases wanted
          exact ⟨fields, its, held, rfl⟩
        | updateConsent consent scopes ids => cases wanted
        | replaceAuth authGeneration authEnvelope publicPart => cases wanted
        | advanceMigration domain payload => cases wanted
        | clearTenure authGeneration => cases wanted
      · cases mem
    · cases mem
  · rintro ⟨fields, its, held, rfl⟩
    rw [its]
    exact ⟨_, by dsimp only; rw [if_pos held]; rfl, rfl⟩

theorem Guarded.of_cleared (guarded : Guarded s op) (cleared : s.status = .cleared) :
    op.mutation.startsTenure = true ∨ s.ClearedReset op.mutation := by
  by_cases reset : s.ClearedReset op.mutation
  · exact .inr reset
  · exact .inl (guarded.cleared cleared reset)

theorem not_clearedReset (other : mutation.preferences? = none) : ¬ s.ClearedReset mutation := by
  rintro ⟨-, reset, -, wanted⟩
  rw [other] at wanted
  cases wanted

theorem Mutates.cleared (mutates : Mutates s mutation m)
    (allowed : s.status = .cleared → mutation.startsTenure = true ∨ s.ClearedReset mutation)
    (cleared : m.status = .cleared) :
    m.publicPart.preferences = clearedPreferences s.publicPart.preferences ∨ s.ClearedReset mutation := by
  cases mutates with
  | updatePreferences publicPart => exact .inr ((allowed cleared).resolve_left nofun)
  | updateConsent consent scopes ids => exact absurd ((allowed cleared).resolve_left nofun) (not_clearedReset rfl)
  | replaceAuth publicPart fresh filled => cases cleared
  | sessionPending underway filled => exact absurd ((allowed cleared).resolve_left nofun) (not_clearedReset rfl)
  | sessionComplete publicPart underway fresh filled => cases cleared
  | consentComplete consent underway => exact absurd ((allowed cleared).resolve_left nofun) (not_clearedReset rfl)
  | emptySession underway => exact absurd ((allowed cleared).resolve_left nofun) (not_clearedReset rfl)
  | emptyConsent underway => exact absurd ((allowed cleared).resolve_left nofun) (not_clearedReset rfl)
  | clearTenure fresh room => exact .inl rfl

theorem Mutates.clearedReset (mutates : Mutates s mutation m) (reset : s.ClearedReset mutation) :
    ∃ fields, s.publicPart.preferences = .object fields ∧ Json.HasKey "language" fields ∧
      m = { s with
        pendingAuth := none
        publicPart := { s.publicPart with preferences := .object (remove "language" fields) } } := by
  obtain ⟨-, fields, its, held, rfl⟩ := clearedReset_iff.mp reset
  cases mutates
  exact ⟨fields, its, held, rfl⟩

/-- What holds of every state a run can reach. -/
structure Reached (s : CanonicalState) : Prop where
  settled : s.pendingAuth = none
  cleared : s.status = .cleared → s.Tombstone ∧ Unbound s.publicPart.preferences

theorem reached_new (flavor : Flavor) (authGeneration : Generation) : Reached (.new flavor authGeneration) :=
  ⟨rfl, nofun⟩

theorem Reached.newly (reached : Reached s) (newly : Newly s op s') : Reached s' := by
  obtain ⟨m, steps⟩ := newly.steps
  have status : s'.status = m.status := by rw [steps.records.state]
  have publicPart : s'.publicPart = m.publicPart := by rw [steps.records.state]
  refine ⟨steps.settled, ?_⟩
  intro cleared
  refine ⟨(validate_eq_ok.mp newly.valid_after).1.tombstone cleared, ?_⟩
  rw [publicPart]
  rcases steps.mutates.cleared steps.guarded.of_cleared (status.symm.trans cleared) with fresh | reset
  · rw [fresh]
    exact clearedPreferences_unbound _
  · obtain ⟨fields, its, -, rfl⟩ := steps.mutates.clearedReset reset
    rintro left ⟨⟩ key bound held
    exact (reached.cleared reset.1).2 fields its key bound held.of_remove

theorem applyVerifiedDigest_unexpected (valid : s.validate = .ok ()) (other : op.expected ≠ s.expected) :
    (∃ r, s.applyVerifiedDigest op = .ok (s, r)) ∨ s.applyVerifiedDigest op = .error .conflict ∨
      s.applyVerifiedDigest op = .error .invalid := by
  by_cases digest : ValidDigest op.digest
  · cases found : s.operations.find? (fun entry => entry.id = op.id) with
    | some entry =>
      rw [applyVerifiedDigest_found valid digest found]
      split
      · exact .inl ⟨entry.result, rfl⟩
      · exact .inr (.inr rfl)
    | none =>
      have guard : s.guards op = .error .conflict :=
        then_eq_error.mpr (.inl (check_eq_error.mpr ⟨other, rfl⟩))
      have stops : s.candidate op = .error .conflict := then_eq_error.mpr (.inl guard)
      right
      left
      rw [applyVerifiedDigest_unseen valid digest (find?_none_iff.mp found), stops]
      rfl
  · exact .inr (.inr (applyVerifiedDigest_malformed valid digest))

/-- The operations that change a cleared state. -/
inductive FromCleared (s : CanonicalState) : Mutation → CanonicalState → Prop where
  | replaceAuth (authGeneration : Generation) (authEnvelope : String) (publicPart : PublicPayload)
      (s' : CanonicalState) : FromCleared s (.replaceAuth authGeneration authEnvelope publicPart) s'
  | clearTenure (authGeneration : Generation) (s' : CanonicalState) : FromCleared s (.clearTenure authGeneration) s'
  | languageReset {fields : List (String × Json.Value)} {s' : CanonicalState}
      (present : s.publicPart.preferences = .object fields ∧ Json.HasKey "language" fields)
      (removed : s'.publicPart =
        { s.publicPart with preferences := .object (remove "language" fields) }) :
      FromCleared s (.updatePreferences s'.publicPart) s'

theorem Newly.from_cleared (newly : Newly s op s') (cleared : s.status = .cleared) : FromCleared s op.mutation s' := by
  obtain ⟨m, steps⟩ := newly.steps
  rcases steps.guarded.of_cleared cleared with starts | reset
  · cases its : op.mutation with
    | replaceAuth authGeneration authEnvelope publicPart => exact .replaceAuth ..
    | clearTenure authGeneration => exact .clearTenure ..
    | updatePreferences publicPart =>
      rw [its] at starts
      cases starts
    | updateConsent consent scopes ids =>
      rw [its] at starts
      cases starts
    | advanceMigration domain payload =>
      rw [its] at starts
      cases starts
  · obtain ⟨-, fields, its, held, wanted⟩ := clearedReset_iff.mp reset
    have publicPart : s'.publicPart =
        { s.publicPart with preferences := .object (remove "language" fields) } := by
      obtain ⟨fields', its', -, rfl⟩ := steps.mutates.clearedReset reset
      rw [its] at its'
      cases its'
      rw [steps.records.state]
    rw [wanted, ← publicPart]
    exact .languageReset ⟨its, held⟩ publicPart

/-- Sign-out fences all that was formed before it. In every run from a new installation:
the epoch rises by one at each sign-out and nowhere else; after a sign-out, an operation
formed before it changes nothing; a cleared state holds nothing of an account; and it
accepts a sign-in, another sign-out and the removal of a present language, nothing else. -/
theorem sign_out_fences (flavor : Flavor) (authGeneration : Generation) (ops : List Operation) (s : CanonicalState)
    (ran : (CanonicalState.new flavor authGeneration).run ops = .ok s) :
    (∀ op s' r, s.applyVerifiedDigest op = .ok (s', r) →
      s' = s ∨ NewlyApplied s op s' r ∧ s'.epoch = s.epoch + op.mutation.ended) ∧
    (∀ clear generation t r more u, clear.mutation = .clearTenure generation → NewlyApplied s clear t r →
      t.run more = .ok u → ∀ op, op.expected.epoch ≤ s.epoch →
        (∃ r, u.applyVerifiedDigest op = .ok (u, r)) ∨ u.applyVerifiedDigest op = .error .conflict ∨
          u.applyVerifiedDigest op = .error .invalid) ∧
    (s.status = .cleared → s.pendingAuth = none ∧ s.Tombstone ∧ Unbound s.publicPart.preferences) ∧
    (s.status = .cleared → ∀ op s' r, s.applyVerifiedDigest op = .ok (s', r) → s' ≠ s →
      FromCleared s op.mutation s') := by
  have reached : Reached s := run_invariant ran Reached.newly (reached_new flavor authGeneration)
  refine ⟨?_, ?_, ?_, ?_⟩
  · intro op s' r succeeds
    rcases applyVerifiedDigest_eq_ok.mp succeeds with ⟨same, -⟩ | ⟨newly, -⟩
    · exact .inl same
    · obtain ⟨m, steps⟩ := newly.steps
      exact .inr ⟨⟨succeeds, newly.unseen⟩, steps.epoch⟩
  · intro clear generation t r more u clears applied later op before
    obtain ⟨newly, -⟩ := applied.newly
    obtain ⟨m, steps⟩ := newly.steps
    have rose : t.epoch = s.epoch + 1 := by
      rw [steps.epoch, clears]
      rfl
    have since := run_epoch_le later
    refine applyVerifiedDigest_unexpected (run_valid later newly.valid_after) ?_
    intro same
    have epoch : op.expected.epoch = u.epoch := congrArg Expected.epoch same
    omega
  · intro cleared
    exact ⟨reached.settled, reached.cleared cleared⟩
  · intro cleared op s' r succeeds changed
    rcases applyVerifiedDigest_eq_ok.mp succeeds with ⟨same, -⟩ | ⟨newly, -⟩
    · exact absurd same changed
    · exact newly.from_cleared cleared

/-- A new installation signed out once. -/
theorem sign_out_fences_new :
    ∃ s r, NewlyApplied sampleState sampleClear s r ∧
      (s.status = .cleared → s.pendingAuth = none ∧ s.Tombstone ∧ Unbound s.publicPart.preferences) := by
  have clears : (sampleState.applyVerifiedDigest sampleClear).toOption.isSome = true := by
    decide +kernel
  obtain ⟨⟨s, r⟩, applied⟩ := Option.isSome_iff_exists.mp clears
  have applied := ok_of_toOption applied
  have ran : (CanonicalState.new .stable (sampleGeneration 0)).run [sampleClear] = .ok s :=
    run_cons.mpr ⟨s, r, applied, rfl⟩
  exact ⟨s, r, ⟨applied, nofun⟩, (sign_out_fences .stable (sampleGeneration 0) [sampleClear] s ran).2.2.1⟩

end
end PlxNative.Storage
