import PlxNative.Storage.Tenure

/-! A transition that passes its guards builds a sound candidate: only its size, or the end
of a counter, can still refuse it. -/
namespace PlxNative.Storage
open CanonicalState Checks

section
variable {s s' m : CanonicalState} {op : Operation}

theorem completed_consistent : DomainMigration.completed.Consistent := fun _ => rfl

/-- The clauses of validation a mutation is responsible for. -/
structure Coherent (m : CanonicalState) : Prop where
  session : m.migrations.session.Consistent
  consent : m.migrations.consent.Consistent
  tombstone : m.status = .cleared → m.Tombstone

theorem Mutates.coherent {mutation : Mutation} (mutates : Mutates s mutation m) (sound : Structural s)
    (allowed : s.status = .cleared → mutation.startsTenure = true ∨ s.ClearedReset mutation) : Coherent m := by
  have refused : mutation.preferences? = none → mutation.startsTenure = false → s.status ≠ .cleared := by
    intro other starts cleared
    rcases allowed cleared with tenure | reset
    · rw [starts] at tenure
      cases tenure
    · exact not_clearedReset other reset
  cases mutates with
  | updatePreferences publicPart =>
    refine ⟨sound.session, sound.consent, ?_⟩
    intro cleared
    have reset := (allowed cleared).resolve_left nofun
    obtain ⟨-, fields, -, -, wanted⟩ := clearedReset_iff.mp reset
    cases wanted
    exact sound.tombstone cleared
  | updateConsent consent scopes ids =>
    exact ⟨sound.session, completed_consistent, fun cleared => absurd cleared (refused rfl rfl)⟩
  | replaceAuth publicPart fresh filled => exact ⟨completed_consistent, sound.consent, nofun⟩
  | sessionPending underway filled =>
    exact ⟨fun complete => absurd complete underway, sound.consent, fun cleared => absurd cleared (refused rfl rfl)⟩
  | sessionComplete publicPart underway fresh filled => exact ⟨completed_consistent, sound.consent, nofun⟩
  | consentComplete consent underway =>
    exact ⟨sound.session, completed_consistent, fun cleared => absurd cleared (refused rfl rfl)⟩
  | emptySession underway =>
    exact ⟨completed_consistent, sound.consent, fun cleared => absurd cleared (refused rfl rfl)⟩
  | emptyConsent underway =>
    exact ⟨sound.session, completed_consistent, fun cleared => absurd cleared (refused rfl rfl)⟩
  | clearTenure fresh room =>
    exact ⟨completed_consistent, completed_consistent, fun _ =>
      ⟨rfl, rfl, rfl, rfl, rfl, rfl, rfl, rfl, rfl, rfl, rfl⟩⟩

theorem Mutation.verification_valid (mutation : Mutation) (id : Generation) (digest : String) (result : Applied) :
    (LedgerEntry.mk id digest result (some mutation.verification)).VerificationValid := by
  have none_noted : (LedgerEntry.mk id digest result (some mutation.verification)).plaintextDigest = none := by
    cases mutation with
    | advanceMigration domain payload => cases payload <;> rfl
    | updatePreferences publicPart => rfl
    | updateConsent consent scopes ids => rfl
    | replaceAuth authGeneration authEnvelope publicPart => rfl
    | clearTenure authGeneration => rfl
  unfold LedgerEntry.VerificationValid
  rw [none_noted]
  nofun

theorem Steps.follows (steps : Steps s op m s') (sound : Structural s) (digest : ValidDigest op.digest)
    (unseen : ∀ entry ∈ s.operations, entry.id ≠ op.id) :
    Entries s'.revision s'.epoch (s.operations ++ [op.entry s']) := by
  have revision := steps.revision
  have epoch := steps.epoch
  refine entries_snoc.mpr ⟨sound.entries.mono (by omega) (by omega), digest, ?_, Nat.le_refl _, Nat.le_refl _, unseen, ?_,
    op.mutation.verification_valid _ _ _⟩
  · change s'.revision ≠ 0
    omega
  · intro last mem
    have before := sound.entries.revision_le last (List.mem_of_getLast? mem)
    change last.result.revision < s'.revision
    omega

theorem Steps.structural (steps : Steps s op m s') (sound : Structural s) (digest : ValidDigest op.digest)
    (unseen : ∀ entry ∈ s.operations, entry.id ≠ op.id) : Structural s' := by
  have framed := steps.mutates.framed
  have coherent := steps.mutates.coherent sound steps.guarded.of_cleared
  have follows := steps.follows sound digest unseen
  have ledger := steps.operations
  have room := RecentLog.length_push_le (op.entry s') sound.room
  rw [← ledger] at room
  have entries : Entries s'.revision s'.epoch s'.operations := by
    rw [ledger]
    exact follows.sublist (RecentLog.push_sublist _ _ _)
  refine ⟨?_, ?_, ?_, room, entries, ?_, ?_, ?_⟩
  · rw [steps.records.state]
    exact framed.format.trans sound.format
  · rw [steps.records.state]
    exact framed.schema.trans sound.schema
  · rw [steps.records.state]
    rw [framed.id, framed.flavor]
    exact sound.id
  · rw [steps.records.state]
    exact coherent.session
  · rw [steps.records.state]
    exact coherent.consent
  · rw [steps.records.state]
    exact coherent.tombstone

/-- The operation is no replay, and none of its checks refuses it. -/
structure Passes (s : CanonicalState) (op : Operation) : Prop where
  unseen : ∀ entry ∈ s.operations, entry.id ≠ op.id
  guards : s.guards op = .ok ()
  mutation : s.mutate op.mutation ≠ .error .invalid

theorem Passes.candidate_error {e : StateError} (passes : Passes s op) (fails : s.candidate op = .error e) :
    e = .exhausted := by
  unfold CanonicalState.candidate at fails
  rw [then_of_ok passes.guards] at fails
  rcases seq_eq_error.mp fails with mutation | ⟨m, -, record⟩
  · rcases mutate_error mutation with rfl | ended
    · exact absurd mutation passes.mutation
    · exact ended
  · unfold CanonicalState.record at record
    split at record
    · cases record
    · cases record
      rfl

theorem encode_error {e : StateError} (sound : Structural s) (settled : s.pendingAuth = none)
    (fails : s.encode = .error e) : e = .logicalTooLarge ∨ e = .encodedTooLarge := by
  rcases then_eq_error.mp fails with logical | ⟨-, encoded⟩
  · unfold validate at logical
    rw [validateWith_of_structural _ sound settled] at logical
    exact .inl (check_eq_error.mp logical).2.symm
  · exact .inr (check_eq_error.mp encoded).2.symm

end

section
variable {s : CanonicalState} {op : Operation}

theorem applyWith_settled (settled : s.pendingAuth = none) :
    s.applyWith validateSettled op = s.applyVerifiedDigest op := by
  have eq := validate_settled settled
  unfold applyVerifiedDigest applyWith operationStatusWith
  rw [eq]
  cases built : s.candidate op with
  | error e => rfl
  | ok next =>
    obtain ⟨guarded, m, mutated, records⟩ := candidate_eq_ok.mp built
    have later : next.pendingAuth = none := by
      rw [records.state]
      exact (mutate_mutates mutated).framed.settled
    have encodes : next.encodeWith validateSettled = next.encodeWith validate := by
      unfold encodeWith
      rw [validate_settled later]
    simp only [bind, Except.bind, encodes]

theorem pendingCandidate_of_some {pending : PendingAuth} (held : s.pendingAuth = some pending)
    {prepared : Option (CanonicalState × Applied)} (succeeds : s.pendingCandidate = .ok prepared) :
    ∃ c c' r, { s with pendingAuth := none }.applyVerifiedDigest pending.operation = .ok (c, r) ∧
      c.withPlaintext pending.plaintextDigest = .ok c' ∧ prepared = some (c', r) ∧
      ∀ entry ∈ s.operations, entry.id ≠ pending.operation.id := by
  unfold pendingCandidate at succeeds
  rw [held] at succeeds
  obtain ⟨checked, rest⟩ := then_eq_ok.mp succeeds
  obtain ⟨⟨c, r⟩, applied, rest⟩ := seq_eq_ok.mp rest
  obtain ⟨c', noted, rest⟩ := seq_eq_ok.mp rest
  rw [applyWith_settled rfl] at applied
  cases rest
  exact ⟨c, c', r, applied, noted, rfl, (check_eq_ok.mp checked).2.2⟩

end

section

/-- A transition never builds an unsound candidate. On a state validation accepts, an
operation with a digest that passes the checks builds a candidate that meets every clause
of validation with nothing pending, and only a size or an exhausted counter can refuse it;
what is prepared on a state is the transition of the state without it, with the recorded
plaintext digest. -/
theorem candidate_never_unsound :
    (∀ (s : CanonicalState) (op : Operation), s.validate = .ok () → ValidDigest op.digest → Passes s op →
      (∀ s', s.candidate op = .ok s' → Structural s' ∧ s'.pendingAuth = none) ∧
      (∀ e, s.applyVerifiedDigest op = .error e →
        e = .logicalTooLarge ∨ e = .encodedTooLarge ∨ e = .exhausted)) ∧
    (∀ (s : CanonicalState) (pending : PendingAuth), s.validate = .ok () → s.pendingAuth = some pending →
      ∃ c c' r, { s with pendingAuth := none }.applyVerifiedDigest pending.operation = .ok (c, r) ∧
        c.withPlaintext pending.plaintextDigest = .ok c' ∧ s.pendingCandidate = .ok (some (c', r))) := by
  constructor
  · intro s op valid digest passes
    have sound := (validate_eq_ok.mp valid).1
    have built : ∀ s', s.candidate op = .ok s' → Structural s' ∧ s'.pendingAuth = none := by
      intro s' candidate
      obtain ⟨guarded, m, mutated, records⟩ := candidate_eq_ok.mp candidate
      have steps : Steps s op m s' := ⟨guarded, mutate_mutates mutated, records⟩
      exact ⟨steps.structural sound digest passes.unseen, steps.settled⟩
    refine ⟨built, ?_⟩
    intro e fails
    rw [applyVerifiedDigest_unseen valid digest passes.unseen] at fails
    rcases seq_eq_error.mp fails with candidate | ⟨s', candidate, rest⟩
    · exact .inr (.inr (passes.candidate_error candidate))
    · obtain ⟨next_sound, settled⟩ := built s' candidate
      rcases then_eq_error.mp rest with encoded | ⟨-, returned⟩
      · rcases encode_error next_sound settled encoded with logical | encoded_size
        · exact .inl logical
        · exact .inr (.inl encoded_size)
      · cases returned
  · intro s pending valid held
    have waiting : s.pendingAuth.isSome = true := by rw [held]; rfl
    obtain ⟨-, prepared, succeeds⟩ := (validate_eq_ok.mp valid).2.1 waiting
    obtain ⟨c, c', r, applied, noted, rfl, -⟩ := pendingCandidate_of_some held succeeds
    exact ⟨c, c', r, applied, noted, succeeds⟩

/-- A refresh prepared on a new installation. -/
def preparedAuth : PendingAuth :=
  ⟨⟨sampleGeneration 4, sampleDigest, ⟨0, sampleGeneration 0⟩, .replaceAuth (sampleGeneration 5) "sealed" .default⟩,
    sampleDigest⟩

theorem candidate_never_unsound_prepared :
    (∃ s', sampleState.candidate sampleConsent = .ok s' ∧ Structural s') ∧
    ∃ c c' r, sampleState.applyVerifiedDigest preparedAuth.operation = .ok (c, r) ∧
      c.withPlaintext sampleDigest = .ok c' ∧
      { sampleState with pendingAuth := some preparedAuth }.pendingCandidate = .ok (some (c', r)) := by
  constructor
  · have valid : sampleState.validate = .ok () := by decide +kernel
    have digest : ValidDigest sampleConsent.digest := by decide +kernel
    have passes : Passes sampleState sampleConsent := ⟨nofun, by decide +kernel, nofun⟩
    obtain ⟨s', built⟩ := Option.isSome_iff_exists.mp
      (show (sampleState.candidate sampleConsent).toOption.isSome = true by decide +kernel)
    have candidate := ok_of_toOption built
    exact ⟨s', candidate, ((candidate_never_unsound.1 sampleState sampleConsent valid digest passes).1 s' candidate).1⟩
  · have valid : { sampleState with pendingAuth := some preparedAuth }.validate = .ok () := by decide +kernel
    exact candidate_never_unsound.2 { sampleState with pendingAuth := some preparedAuth } preparedAuth valid rfl

end
end PlxNative.Storage
