import PlxNative.Lib.KeyOrder
import PlxNative.Storage.State

/-! What validation accepts and what a transition does: every later result rests on these. -/
namespace PlxNative.Storage
open List Checks CanonicalState
open Checks (check)

section
variable {revision epoch : Nat} {older entries : List LedgerEntry} {entry : LedgerEntry}

structure Entries (revision epoch : Nat) (entries : List LedgerEntry) : Prop where
  digest : ∀ entry ∈ entries, ValidDigest entry.digest
  positive : ∀ entry ∈ entries, entry.result.revision ≠ 0
  revision_le : ∀ entry ∈ entries, entry.result.revision ≤ revision
  epoch_le : ∀ entry ∈ entries, entry.result.epoch ≤ epoch
  ids : entries.Pairwise (fun a b => a.id ≠ b.id)
  ascending : KeyOrder.Ascending (fun entry : LedgerEntry => entry.result.revision) entries
  verification : ∀ entry ∈ entries, entry.VerificationValid

theorem Entries.nil : Entries revision epoch [] :=
  ⟨nofun, nofun, nofun, nofun, .nil, .nil, nofun⟩

theorem Entries.sublist (valid : Entries revision epoch entries) {kept : List LedgerEntry}
    (sub : kept.Sublist entries) : Entries revision epoch kept :=
  ⟨fun entry mem => valid.digest entry (sub.subset mem), fun entry mem => valid.positive entry (sub.subset mem),
    fun entry mem => valid.revision_le entry (sub.subset mem),
    fun entry mem => valid.epoch_le entry (sub.subset mem), valid.ids.sublist sub, valid.ascending.sublist sub,
    fun entry mem => valid.verification entry (sub.subset mem)⟩

theorem Entries.mono (valid : Entries revision epoch entries) {revision' epoch' : Nat} (later : revision ≤ revision')
    (after : epoch ≤ epoch') : Entries revision' epoch' entries :=
  ⟨valid.digest, valid.positive, fun entry mem => Nat.le_trans (valid.revision_le entry mem) later,
    fun entry mem => Nat.le_trans (valid.epoch_le entry mem) after, valid.ids, valid.ascending, valid.verification⟩

theorem entries_snoc : Entries revision epoch (older ++ [entry]) ↔
    Entries revision epoch older ∧ entry.Follows revision epoch older := by
  constructor
  · intro valid
    have last : entry ∈ older ++ [entry] := mem_append_right _ (mem_singleton_self _)
    obtain ⟨-, -, apart⟩ := pairwise_append.mp valid.ids
    obtain ⟨-, -, below⟩ := pairwise_append.mp valid.ascending
    refine ⟨valid.sublist (sublist_append_left _ _), valid.digest _ last, valid.positive _ last,
      valid.revision_le _ last, valid.epoch_le _ last, ?_, ?_, valid.verification _ last⟩
    · intro other mem
      exact apart other mem entry (mem_singleton_self _)
    · intro before mem
      exact below before (List.mem_of_getLast? mem) entry (mem_singleton_self _)
  · rintro ⟨valid, digest, positive, revision_le, epoch_le, apart, above, verification⟩
    have split : ∀ {P : LedgerEntry → Prop}, (∀ other ∈ older, P other) → P entry → ∀ other ∈ older ++ [entry], P other := by
      intro P old new other mem
      rcases mem_append.mp mem with earlier | this
      · exact old other earlier
      · rw [mem_singleton.mp this]
        exact new
    refine ⟨split valid.digest digest, split valid.positive positive, split valid.revision_le revision_le,
      split valid.epoch_le epoch_le, ?_, ?_, split valid.verification verification⟩
    · refine pairwise_append.mpr ⟨valid.ids, pairwise_singleton _ _, ?_⟩
      intro other mem new this
      rw [mem_singleton.mp this]
      exact apart other mem
    · exact valid.ascending.snoc (valid.ascending.below_of_last above)

theorem checkEntries_eq_ok {u : Unit} (valid : Entries revision epoch older) :
    checkEntries revision epoch older entries = .ok u ↔ Entries revision epoch (older ++ entries) := by
  induction entries generalizing older with
  | nil =>
    rw [append_nil]
    exact ⟨fun _ => valid, fun _ => rfl⟩
  | cons entry rest ih =>
    have step : older ++ entry :: rest = older ++ [entry] ++ rest := by
      rw [append_assoc, singleton_append]
    unfold checkEntries
    rw [step]
    constructor
    · intro checked
      obtain ⟨follows, later⟩ := then_eq_ok.mp checked
      exact (ih (entries_snoc.mpr ⟨valid, check_eq_ok.mp follows⟩)).mp later
    · intro whole
      have here := whole.sublist (sublist_append_left _ _)
      exact then_eq_ok.mpr ⟨check_eq_ok.mpr (entries_snoc.mp here).2, (ih here).mpr whole⟩

end

section
variable {s : CanonicalState}

/-- All that validation asks of a state, but its size and what is pending on it. -/
structure Structural (s : CanonicalState) : Prop where
  format : s.format = stateFormat
  schema : s.schema = stateSchema
  id : s.id = s.flavor.objectId
  room : s.operations.length ≤ ledgerCapacity
  entries : Entries s.revision s.epoch s.operations
  session : s.migrations.session.Consistent
  consent : s.migrations.consent.Consistent
  tombstone : s.status = .cleared → s.Tombstone

variable {pending : CanonicalState → Except StateError Unit}

theorem checkPending_eq_ok {u : Unit} :
    s.checkPending pending = .ok u ↔ (s.pendingAuth.isSome = true → s.status ≠ .cleared ∧ pending s = .ok ()) := by
  unfold checkPending
  split
  · rename_i held
    rw [then_eq_ok, check_eq_ok]
    exact ⟨fun both _ => both, fun both => both held⟩
  · rename_i free
    exact ⟨fun _ held => absurd held free, fun _ => rfl⟩

theorem validateWith_eq_ok :
    s.validateWith pending = .ok () ↔ Structural s ∧
      (s.pendingAuth.isSome = true → s.status ≠ .cleared ∧ pending s = .ok ()) ∧
      logicalSize s.toValue ≤ maxLogicalBytes := by
  unfold validateWith checkLogicalSize
  simp only [then_eq_ok, check_eq_ok, checkPending_eq_ok, checkEntries_eq_ok Entries.nil, nil_append]
  constructor
  · rintro ⟨format, schema, id, room, pending_ok, entries, ⟨session, consent⟩, tombstone, size⟩
    exact ⟨⟨format, schema, id, room, entries, session, consent, tombstone⟩, pending_ok, size⟩
  · rintro ⟨valid, pending_ok, size⟩
    exact ⟨valid.format, valid.schema, valid.id, valid.room, pending_ok, valid.entries, ⟨valid.session, valid.consent⟩,
      valid.tombstone, size⟩

theorem validateWith_of_structural (pending : CanonicalState → Except StateError Unit) (sound : Structural s)
    (settled : s.pendingAuth = none) : s.validateWith pending = checkLogicalSize s.toValue := by
  have free : s.checkPending pending = .ok () := by
    refine checkPending_eq_ok.mpr ?_
    rw [settled]
    nofun
  have entries : checkEntries s.revision s.epoch [] s.operations = .ok () :=
    (checkEntries_eq_ok Entries.nil).mpr sound.entries
  unfold validateWith
  rw [then_of_ok (check_ok sound.format), then_of_ok (check_ok sound.schema),
    then_of_ok (check_ok sound.id), then_of_ok (check_ok sound.room),
    then_of_ok free, then_of_ok entries,
    then_of_ok (check_ok ⟨sound.session, sound.consent⟩),
    then_of_ok (check_ok sound.tombstone)]

theorem validate_settled (settled : s.pendingAuth = none) : s.validate = s.validateSettled := by
  have eq : ∀ pending, s.checkPending pending = .ok () := by
    intro pending
    refine checkPending_eq_ok.mpr ?_
    rw [settled]
    nofun
  unfold validate validateSettled validateWith
  simp only [eq]

theorem validate_eq_ok : s.validate = .ok () ↔ Structural s ∧
    (s.pendingAuth.isSome = true → s.status ≠ .cleared ∧ ∃ prepared, s.pendingCandidate = .ok prepared) ∧
    logicalSize s.toValue ≤ maxLogicalBytes := by
  unfold validate
  rw [validateWith_eq_ok]
  cases s.pendingCandidate with
  | error e => simp [Except.map]
  | ok prepared => simp [Except.map]

end

section
variable {s s' : CanonicalState} {op : Operation} {r : Applied}

/-- The operation is new to the ledger, and `s'` is stored for it. -/
structure Newly (s : CanonicalState) (op : Operation) (s' : CanonicalState) : Prop where
  valid : s.validate = .ok ()
  digest : ValidDigest op.digest
  unseen : ∀ entry ∈ s.operations, entry.id ≠ op.id
  candidate : s.candidate op = .ok s'
  encoded : s'.encode = .ok ()

/-- The operation was applied before, with the receipt `r`. -/
structure Replayed (s : CanonicalState) (op : Operation) (r : Applied) : Prop where
  valid : s.validate = .ok ()
  digest : ValidDigest op.digest
  remembered : ∃ entry, s.operations.find? (fun entry => entry.id = op.id) = some entry ∧ entry.digest = op.digest ∧
    entry.result = r

theorem find?_none_iff {id : Generation} :
    s.operations.find? (fun entry => entry.id = id) = none ↔ ∀ entry ∈ s.operations, entry.id ≠ id := by
  simp

theorem operationStatus_eq_ok {id : Generation} {digest : String} {status : OperationStatus} :
    s.operationStatus id digest = .ok status ↔ s.validate = .ok () ∧ ValidDigest digest ∧
      ((∃ entry, s.operations.find? (fun entry => entry.id = id) = some entry ∧ entry.digest = digest ∧
        status = .applied entry.result) ∨
      ((∀ entry ∈ s.operations, entry.id ≠ id) ∧ status = .unknown)) := by
  unfold operationStatus operationStatusWith
  rw [then_eq_ok, then_eq_ok, check_eq_ok, ← find?_none_iff]
  cases found : s.operations.find? (fun entry => entry.id = id) with
  | none =>
    simp
    intro _ _
    exact ⟨Eq.symm, Eq.symm⟩
  | some entry =>
    by_cases eq : entry.digest = digest
    · simp [eq]
      intro _ _
      exact ⟨Eq.symm, Eq.symm⟩
    · simp [eq]

theorem applyVerifiedDigest_malformed (valid : s.validate = .ok ()) (malformed : ¬ ValidDigest op.digest) :
    s.applyVerifiedDigest op = .error .invalid := by
  unfold applyVerifiedDigest applyWith
  rw [then_of_ok valid]
  exact then_eq_error.mpr (.inl (check_eq_error.mpr ⟨malformed, rfl⟩))

theorem applyVerifiedDigest_found {entry : LedgerEntry} (valid : s.validate = .ok ()) (digest : ValidDigest op.digest)
    (found : s.operations.find? (fun entry => entry.id = op.id) = some entry) :
    s.applyVerifiedDigest op = if entry.digest = op.digest then .ok (s, entry.result) else .error .invalid := by
  unfold applyVerifiedDigest applyWith operationStatusWith
  rw [then_of_ok valid, then_of_ok (check_ok digest), then_of_ok valid,
    then_of_ok (check_ok digest), found]
  dsimp only
  split <;> rfl

theorem applyVerifiedDigest_unseen (valid : s.validate = .ok ()) (digest : ValidDigest op.digest)
    (unseen : ∀ entry ∈ s.operations, entry.id ≠ op.id) :
    s.applyVerifiedDigest op = (do
      let next ← s.candidate op
      next.encode
      return (next, next.receipt)) := by
  unfold applyVerifiedDigest applyWith operationStatusWith
  rw [then_of_ok valid, then_of_ok (check_ok digest), then_of_ok valid,
    then_of_ok (check_ok digest), find?_none_iff.mpr unseen]
  rfl

theorem applyVerifiedDigest_valid (succeeds : s.applyVerifiedDigest op = .ok (s', r)) :
    s.validate = .ok () ∧ ValidDigest op.digest := by
  obtain ⟨valid, rest⟩ := then_eq_ok.mp succeeds
  exact ⟨valid, check_eq_ok.mp (then_eq_ok.mp rest).1⟩

theorem applyVerifiedDigest_eq_ok : s.applyVerifiedDigest op = .ok (s', r) ↔
    (s' = s ∧ Replayed s op r) ∨ (Newly s op s' ∧ r = s'.receipt) := by
  constructor
  · intro succeeds
    obtain ⟨valid, digest⟩ := applyVerifiedDigest_valid succeeds
    cases found : s.operations.find? (fun entry => entry.id = op.id) with
    | some entry =>
      rw [applyVerifiedDigest_found valid digest found] at succeeds
      split at succeeds
      · rename_i eq
        cases succeeds
        exact .inl ⟨rfl, valid, digest, entry, found, eq, rfl⟩
      · cases succeeds
    | none =>
      have unseen := find?_none_iff.mp found
      rw [applyVerifiedDigest_unseen valid digest unseen] at succeeds
      obtain ⟨next, candidate, rest⟩ := seq_eq_ok.mp succeeds
      obtain ⟨encoded, rest⟩ := then_eq_ok.mp rest
      cases rest
      exact .inr ⟨⟨valid, digest, unseen, candidate, encoded⟩, rfl⟩
  · rintro (⟨rfl, replayed⟩ | ⟨newly, rfl⟩)
    · obtain ⟨entry, found, eq, rfl⟩ := replayed.remembered
      rw [applyVerifiedDigest_found replayed.valid replayed.digest found, if_pos eq]
    · rw [applyVerifiedDigest_unseen newly.valid newly.digest newly.unseen]
      refine seq_eq_ok.mpr ⟨s', newly.candidate, ?_⟩
      exact then_eq_ok.mpr ⟨newly.encoded, rfl⟩

theorem encode_eq_ok : s.encode = .ok () ↔ s.validate = .ok () ∧ s.toValue.encodedSize ≤ maxEncodedBytes := by
  unfold encode encodeWith
  rw [then_eq_ok, check_eq_ok]

structure Guarded (s : CanonicalState) (op : Operation) : Prop where
  expected : op.expected = s.expected
  reserved : ∀ pending ∈ s.pendingAuth, pending.operation.id ≠ op.id
  migration : s.pendingAuth.isSome = true → op.mutation.isMigration = false
  preferences : op.mutation.preferences?.isSome = true → ¬ s.ClearedReset op.mutation →
    s.migrations.session.progress = .complete ∧ s.authEnvelope.isSome = true
  cleared : s.status = .cleared → ¬ s.ClearedReset op.mutation → op.mutation.startsTenure = true

theorem guards_eq_ok : s.guards op = .ok () ↔ Guarded s op := by
  unfold guards
  simp only [then_eq_ok, check_eq_ok]
  constructor
  · rintro ⟨expected, reserved, migration, preferences, cleared⟩
    exact ⟨expected, reserved, migration, preferences, cleared⟩
  · intro passed
    exact ⟨passed.expected, passed.reserved, passed.migration, passed.preferences, passed.cleared⟩

/-- The entry a new operation leaves in the ledger of `s'`. -/
def Operation.entry (op : Operation) (s' : CanonicalState) : LedgerEntry :=
  ⟨op.id, op.digest, s'.receipt, some op.mutation.verification⟩

/-- What the ledger takes in, over the mutated state `m`. -/
structure Records (m : CanonicalState) (op : Operation) (s' : CanonicalState) : Prop where
  room : m.revision + 1 < u64Bound
  state : s' = { m with
    revision := m.revision + 1
    operations := RecentLog.push ledgerCapacity m.operations (op.entry { m with revision := m.revision + 1 }) }

variable {m : CanonicalState}

theorem record_eq_ok : m.record op = .ok s' ↔ Records m op s' := by
  unfold record
  split
  · rename_i room
    constructor
    · intro recorded
      exact ⟨room, (Except.ok.inj recorded).symm⟩
    · rintro ⟨-, rfl⟩
      rfl
  · rename_i full
    constructor
    · nofun
    · rintro ⟨room, -⟩
      exact absurd room full

theorem candidate_eq_ok : s.candidate op = .ok s' ↔ Guarded s op ∧ ∃ m, s.mutate op.mutation = .ok m ∧ Records m op s' := by
  unfold CanonicalState.candidate
  rw [then_eq_ok, guards_eq_ok, seq_eq_ok]
  simp only [record_eq_ok]

inductive Mutates (s : CanonicalState) : Mutation → CanonicalState → Prop where
  | updatePreferences (publicPart : PublicPayload) :
      Mutates s (.updatePreferences publicPart)
        { s with pendingAuth := none, publicPart := publicPart.keepingConsent s.publicPart }
  | updateConsent (consent scopes ids : Json.Value) :
      Mutates s (.updateConsent consent scopes ids)
        { s with
          pendingAuth := none
          publicPart := { s.publicPart with consent, scopes, ids }
          migrations.consent := .completed }
  | replaceAuth {authGeneration : Generation} {authEnvelope : String} (publicPart : PublicPayload)
      (fresh : s.Fresh authGeneration) (filled : authEnvelope.isEmpty = false) :
      Mutates s (.replaceAuth authGeneration authEnvelope publicPart)
        { s with
          pendingAuth := none
          authGeneration
          authEnvelope := some authEnvelope
          publicPart := publicPart.keepingConsent s.publicPart
          status := .active
          migrations.session := .completed }
  | sessionPending {opaqueEnvelope : String} (underway : s.migrations.session.progress ≠ .complete)
      (filled : opaqueEnvelope.isEmpty = false) :
      Mutates s (.advanceMigration .session (.sessionPending opaqueEnvelope))
        { s with pendingAuth := none, migrations.session.pendingImport := some opaqueEnvelope }
  | sessionComplete {auth : ProtectedAuth} (publicPart : PublicPayload)
      (underway : s.migrations.session.progress ≠ .complete) (fresh : s.Fresh auth.authGeneration)
      (filled : auth.envelope.isEmpty = false) :
      Mutates s (.advanceMigration .session (.sessionComplete publicPart auth))
        { s with
          pendingAuth := none
          publicPart := publicPart.keepingConsent s.publicPart
          authGeneration := auth.authGeneration
          authEnvelope := some auth.envelope
          status := .active
          migrations.session := .completed }
  | consentComplete (consent : ConsentPayload) (underway : s.migrations.consent.progress ≠ .complete) :
      Mutates s (.advanceMigration .consent (.consentComplete consent))
        { s with
          pendingAuth := none
          publicPart := { s.publicPart with consent := consent.consent, scopes := consent.scopes, ids := consent.ids }
          migrations.consent := .completed }
  | emptySession (underway : s.migrations.session.progress ≠ .complete) :
      Mutates s (.advanceMigration .session (.completeEmpty .session))
        { s with pendingAuth := none, migrations.session := .completed }
  | emptyConsent (underway : s.migrations.consent.progress ≠ .complete) :
      Mutates s (.advanceMigration .consent (.completeEmpty .consent))
        { s with pendingAuth := none, migrations.consent := .completed }
  | clearTenure {authGeneration : Generation} (fresh : s.Fresh authGeneration) (room : s.epoch + 1 < u64Bound) :
      Mutates s (.clearTenure authGeneration)
        { s with
          pendingAuth := none
          epoch := s.epoch + 1
          authGeneration
          status := .cleared
          authEnvelope := none
          publicPart := { PublicPayload.default with preferences := clearedPreferences s.publicPart.preferences }
          migrations := ⟨.completed, .completed⟩ }

theorem advance_mutates {domain : MigrationDomain} {payload : MigrationAdvance}
    (underway : s.migrations.progressOf domain ≠ .complete)
    (advanced : s.advance { s with pendingAuth := none } domain payload = .ok m) :
    Mutates s (.advanceMigration domain payload) m := by
  unfold advance at advanced
  split at advanced
  · split at advanced
    · cases advanced
    · rename_i filled
      cases advanced
      exact .sessionPending underway (Bool.eq_false_iff.mpr filled)
  · split at advanced
    · rename_i fresh
      split at advanced
      · cases advanced
      · rename_i filled
        cases advanced
        exact .sessionComplete _ underway fresh (Bool.eq_false_iff.mpr filled)
    · cases advanced
  · cases advanced
    exact .consentComplete _ underway
  · cases advanced
    exact .emptySession underway
  · cases advanced
    exact .emptyConsent underway
  · cases advanced

variable {mutation : Mutation}

theorem mutate_mutates (mutated : s.mutate mutation = .ok m) :
    Mutates s mutation m := by
  unfold mutate at mutated
  split at mutated
  · cases mutated
    exact .updatePreferences _
  · cases mutated
    exact .updateConsent _ _ _
  · split at mutated
    · rename_i fresh
      split at mutated
      · cases mutated
      · rename_i filled
        cases mutated
        exact .replaceAuth _ fresh (Bool.eq_false_iff.mpr filled)
    · cases mutated
  · split at mutated
    · cases mutated
    · rename_i underway
      exact advance_mutates underway mutated
  · split at mutated
    · rename_i fresh
      split at mutated
      · rename_i room
        cases mutated
        exact .clearTenure fresh room
      · cases mutated
    · cases mutated

theorem mutate_error {e : StateError} (fails : s.mutate mutation = .error e) :
    e = .invalid ∨ e = .exhausted := by
  unfold mutate advance at fails
  split at fails
  · cases fails
  · cases fails
  · split at fails
    · split at fails
      · cases fails
        exact .inl rfl
      · cases fails
    · cases fails
      exact .inl rfl
  · split at fails
    · cases fails
      exact .inl rfl
    · split at fails
      · split at fails
        · cases fails
          exact .inl rfl
        · cases fails
      · split at fails
        · split at fails
          · cases fails
            exact .inl rfl
          · cases fails
        · cases fails
          exact .inl rfl
      · cases fails
      · cases fails
      · cases fails
      · cases fails
        exact .inl rfl
  · split at fails
    · split at fails
      · cases fails
      · cases fails
        exact .inr rfl
    · cases fails
      exact .inl rfl

structure Framed (s m : CanonicalState) : Prop where
  format : m.format = s.format
  schema : m.schema = s.schema
  flavor : m.flavor = s.flavor
  id : m.id = s.id
  revision : m.revision = s.revision
  operations : m.operations = s.operations
  settled : m.pendingAuth = none

theorem Mutates.framed (mutates : Mutates s mutation m) : Framed s m := by
  cases mutates <;> exact ⟨rfl, rfl, rfl, rfl, rfl, rfl, rfl⟩

def Mutation.ended : Mutation → Nat
  | .clearTenure _ => 1
  | _ => 0

theorem Mutates.epoch (mutates : Mutates s mutation m) :
    m.epoch = s.epoch + mutation.ended := by
  cases mutates <;> rfl

/-- A new operation: what it passed, what it made of the state, and how that was
recorded. -/
structure Steps (s : CanonicalState) (op : Operation) (m s' : CanonicalState) : Prop where
  guarded : Guarded s op
  mutates : Mutates s op.mutation m
  records : Records m op s'

theorem Newly.steps (newly : Newly s op s') : ∃ m, Steps s op m s' := by
  obtain ⟨guarded, m, mutated, records⟩ := candidate_eq_ok.mp newly.candidate
  exact ⟨m, guarded, mutate_mutates mutated, records⟩

section
variable (steps : Steps s op m s')
include steps

theorem Steps.operations :
    s'.operations = RecentLog.push ledgerCapacity s.operations (op.entry s') := by
  rw [steps.records.state, ← steps.mutates.framed.operations]
  rfl

theorem Steps.revision : s'.revision = s.revision + 1 := by
  rw [steps.records.state, ← steps.mutates.framed.revision]

theorem Steps.epoch : s'.epoch = s.epoch + op.mutation.ended := by
  rw [steps.records.state, ← steps.mutates.epoch]

theorem Steps.settled : s'.pendingAuth = none := by
  rw [steps.records.state]
  exact steps.mutates.framed.settled

end

theorem Newly.valid_after (newly : Newly s op s') : s'.validate = .ok () := (encode_eq_ok.mp newly.encoded).1

end
end PlxNative.Storage
