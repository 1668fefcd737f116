import PlxNative.Lib.Checks
import PlxNative.Lib.Json
import PlxNative.Lib.Edits

/-! The canonical state of an installation and its transitions. A successful transition is
a candidate that is yet to be stored. -/
namespace PlxNative.Storage
open Checks (check)
open Json (Value)
attribute [local instance (high)] List.decidableBAll

structure Generation where
  bytes : List UInt8
  length : bytes.length = 16
  deriving DecidableEq

inductive Flavor where
  | stable
  | debug
  | nightly
  deriving DecidableEq

def Flavor.objectId : Flavor → String
  | .stable => "plxstate.stable"
  | .debug => "plxstate.debug"
  | .nightly => "plxstate.night"

structure Expected where
  epoch : Nat
  authGeneration : Generation
  deriving DecidableEq

inductive Status where
  | active
  | cleared
  deriving DecidableEq

@[ext] structure PublicPayload where
  preferences : Value
  clientId : Option String
  profile : Value
  pins : Value
  recents : Value
  consent : Value
  scopes : Value
  ids : Value
  accountExtensions : Value
  deriving DecidableEq

def PublicPayload.default : PublicPayload := ⟨.null, none, .null, .null, .null, .null, .null, .null, .null⟩

inductive MigrationDomain where
  | session
  | consent
  deriving DecidableEq

inductive MigrationProgress where
  | pending
  | complete
  deriving DecidableEq

structure DomainMigration where
  progress : MigrationProgress
  pendingImport : Option String
  deriving DecidableEq

def DomainMigration.completed : DomainMigration := ⟨.complete, none⟩

@[ext] structure Migrations where
  session : DomainMigration
  consent : DomainMigration
  deriving DecidableEq

structure ConsentPayload where
  consent : Value
  scopes : Value
  ids : Value
  deriving DecidableEq

structure ProtectedAuth where
  authGeneration : Generation
  envelope : String
  deriving DecidableEq

inductive MigrationAdvance where
  | sessionPending (opaqueEnvelope : String)
  | sessionComplete (publicPart : PublicPayload) (auth : ProtectedAuth)
  | consentComplete (consent : ConsentPayload)
  | completeEmpty (domain : MigrationDomain)
  deriving DecidableEq

inductive Mutation where
  | updatePreferences (publicPart : PublicPayload)
  | updateConsent (consent scopes ids : Value)
  | replaceAuth (authGeneration : Generation) (authEnvelope : String) (publicPart : PublicPayload)
  | advanceMigration (domain : MigrationDomain) (payload : MigrationAdvance)
  | clearTenure (authGeneration : Generation)
  deriving DecidableEq

structure Operation where
  id : Generation
  digest : String
  expected : Expected
  mutation : Mutation
  deriving DecidableEq

structure Applied where
  revision : Nat
  epoch : Nat
  authGeneration : Generation
  deriving DecidableEq

inductive ReceiptVerification where
  | publicOnly
  | auth (plaintextDigest : Option String)
  deriving DecidableEq

structure LedgerEntry where
  id : Generation
  digest : String
  result : Applied
  verification : Option ReceiptVerification
  deriving DecidableEq

/-- A prepared refresh. What is active stays authoritative until it is promoted. -/
structure PendingAuth where
  operation : Operation
  plaintextDigest : String
  deriving DecidableEq

structure CanonicalState where
  format : String
  schema : Nat
  flavor : Flavor
  id : String
  revision : Nat
  epoch : Nat
  authGeneration : Generation
  status : Status
  publicPart : PublicPayload
  authEnvelope : Option String
  migrations : Migrations
  operations : List LedgerEntry
  pendingAuth : Option PendingAuth
  deriving DecidableEq

inductive OperationStatus where
  | applied (result : Applied)
  | unknown

inductive StateError where
  | invalid
  | unsupportedFormat
  | unsupportedSchema
  | flavorMismatch
  | idCollision
  | logicalTooLarge
  | encodedTooLarge
  | conflict
  | exhausted
  | randomUnavailable
  deriving DecidableEq

def stateFormat : String := "plxnative-state"

def stateSchema : Nat := 1

def maxLogicalBytes : Nat := 256 * 1024

def maxEncodedBytes : Nat := 512 * 1024

def ledgerCapacity : Nat := 16

def accountBoundPreferences : List String :=
  ["server_key_pins", "plaintext_consent", "track_memory", "profile_prefs", "subtitle_offsets", "library_sorts",
    "last_library"]

section

def natural (n : Nat) : Value := .number (toString n)

def optionalText : Option String → Value
  | none => .null
  | some s => .string s

def Generation.toValue (g : Generation) : Value := .array (g.bytes.map (fun byte => natural byte.toNat))

def Flavor.toValue : Flavor → Value
  | .stable => .string "stable"
  | .debug => .string "debug"
  | .nightly => .string "nightly"

def Expected.toValue (e : Expected) : Value :=
  .object [("epoch", natural e.epoch), ("auth_generation", e.authGeneration.toValue)]

def Status.toValue : Status → Value
  | .active => .string "Active"
  | .cleared => .string "Cleared"

def PublicPayload.toValue (p : PublicPayload) : Value :=
  .object [("preferences", p.preferences), ("client_id", optionalText p.clientId), ("profile", p.profile),
    ("pins", p.pins), ("recents", p.recents), ("consent", p.consent), ("scopes", p.scopes), ("ids", p.ids),
    ("account_extensions", p.accountExtensions)]

def MigrationDomain.toValue : MigrationDomain → Value
  | .session => .string "Session"
  | .consent => .string "Consent"

def DomainMigration.toValue (m : DomainMigration) : Value :=
  .object [("progress", .string (match m.progress with | .pending => "Pending" | .complete => "Complete")),
    ("pending_import", optionalText m.pendingImport)]

def Migrations.toValue (m : Migrations) : Value :=
  .object [("session", m.session.toValue), ("consent", m.consent.toValue)]

def MigrationAdvance.toValue : MigrationAdvance → Value
  | .sessionPending opaqueEnvelope =>
    .object [("type", .string "SessionPending"), ("opaque_envelope", .string opaqueEnvelope)]
  | .sessionComplete publicPart auth =>
    .object [("type", .string "SessionComplete"), ("public", publicPart.toValue),
      ("auth", .object [("auth_generation", auth.authGeneration.toValue), ("envelope", .string auth.envelope)])]
  | .consentComplete consent =>
    .object [("type", .string "ConsentComplete"),
      ("consent", .object [("consent", consent.consent), ("scopes", consent.scopes), ("ids", consent.ids)])]
  | .completeEmpty domain => .object [("type", .string "CompleteEmpty"), ("domain", domain.toValue)]

def Mutation.toValue : Mutation → Value
  | .updatePreferences publicPart =>
    .object [("type", .string "UpdatePreferences"), ("public", publicPart.toValue)]
  | .updateConsent consent scopes ids =>
    .object [("type", .string "UpdateConsent"), ("consent", consent), ("scopes", scopes), ("ids", ids)]
  | .replaceAuth authGeneration authEnvelope publicPart =>
    .object [("type", .string "ReplaceAuth"), ("auth_generation", authGeneration.toValue),
      ("auth_envelope", .string authEnvelope), ("public", publicPart.toValue)]
  | .advanceMigration domain payload =>
    .object [("type", .string "AdvanceMigration"), ("domain", domain.toValue), ("payload", payload.toValue)]
  | .clearTenure authGeneration =>
    .object [("type", .string "ClearTenure"), ("auth_generation", authGeneration.toValue)]

def Operation.toValue (op : Operation) : Value :=
  .object [("id", op.id.toValue), ("digest", .string op.digest), ("expected", op.expected.toValue),
    ("mutation", op.mutation.toValue)]

def Applied.toValue (a : Applied) : Value :=
  .object [("revision", natural a.revision), ("epoch", natural a.epoch), ("auth_generation", a.authGeneration.toValue)]

def ReceiptVerification.toValue : ReceiptVerification → Value
  | .publicOnly => .object [("type", .string "Public")]
  | .auth plaintextDigest =>
    .object [("type", .string "Auth"), ("plaintext_digest", optionalText plaintextDigest)]

def LedgerEntry.toValue (e : LedgerEntry) : Value :=
  .object ([("id", e.id.toValue), ("digest", .string e.digest), ("result", e.result.toValue)] ++
    (e.verification.map (fun v => ("verification", v.toValue))).toList)

def PendingAuth.toValue (p : PendingAuth) : Value :=
  .object [("operation", p.operation.toValue), ("plaintext_digest", .string p.plaintextDigest)]

/-- The serialised state. Fields stand as they are declared: no size depends on their
order. -/
def CanonicalState.toValue (s : CanonicalState) : Value :=
  .object ([("format", .string s.format), ("schema", natural s.schema), ("flavor", s.flavor.toValue),
    ("_id", .string s.id), ("revision", natural s.revision), ("epoch", natural s.epoch),
    ("auth_generation", s.authGeneration.toValue), ("status", s.status.toValue), ("public", s.publicPart.toValue),
    ("auth_envelope", optionalText s.authEnvelope), ("migrations", s.migrations.toValue),
    ("operations", .array (s.operations.map LedgerEntry.toValue))] ++
    (s.pendingAuth.map (fun p => ("pending_auth", p.toValue))).toList)

def logicalSize (v : Value) : Nat := v.sizeWith Json.utf8Length

def checkLogicalSize (v : Value) : Except StateError Unit := check (logicalSize v ≤ maxLogicalBytes) .logicalTooLarge

end

def CanonicalState.new (flavor : Flavor) (authGeneration : Generation) : CanonicalState :=
  { format := stateFormat, schema := stateSchema, flavor, id := flavor.objectId, revision := 0, epoch := 0
    authGeneration, status := .active, publicPart := .default, authEnvelope := none
    migrations := ⟨⟨.pending, none⟩, ⟨.pending, none⟩⟩, operations := [], pendingAuth := none }

def CanonicalState.expected (s : CanonicalState) : Expected := ⟨s.epoch, s.authGeneration⟩

/-- Sixty-four lower-case hexadecimal digits. -/
def ValidDigest (digest : String) : Prop :=
  digest.toList.length = 64 ∧ ∀ c ∈ digest.toList, ('0' ≤ c ∧ c ≤ '9') ∨ ('a' ≤ c ∧ c ≤ 'f')

instance (digest : String) : Decidable (ValidDigest digest) :=
  inferInstanceAs (Decidable (_ ∧ _))

/-- A recorded plaintext digest is a digest. -/
def LedgerEntry.plaintextDigest (entry : LedgerEntry) : Option String :=
  match entry.verification with
  | some (.auth digest) => digest
  | _ => none

def LedgerEntry.VerificationValid (entry : LedgerEntry) : Prop := ∀ digest ∈ entry.plaintextDigest, ValidDigest digest

instance (entry : LedgerEntry) : Decidable entry.VerificationValid :=
  inferInstanceAs (Decidable (∀ digest ∈ entry.plaintextDigest, ValidDigest digest))

def LedgerEntry.Follows (revision epoch : Nat) (older : List LedgerEntry) (entry : LedgerEntry) : Prop :=
  ValidDigest entry.digest ∧ entry.result.revision ≠ 0 ∧ entry.result.revision ≤ revision ∧
    entry.result.epoch ≤ epoch ∧ (∀ other ∈ older, other.id ≠ entry.id) ∧
    (∀ last ∈ older.getLast?, last.result.revision < entry.result.revision) ∧ entry.VerificationValid

instance (revision epoch : Nat) (older : List LedgerEntry) (entry : LedgerEntry) :
    Decidable (entry.Follows revision epoch older) :=
  inferInstanceAs (Decidable (_ ∧ _ ∧ _ ∧ _ ∧ _ ∧ _ ∧ _))

def checkEntries (revision epoch : Nat) : List LedgerEntry → List LedgerEntry → Except StateError Unit
  | _, [] => .ok ()
  | older, entry :: rest => do
      check (entry.Follows revision epoch older) .invalid
      checkEntries revision epoch (older ++ [entry]) rest

def DomainMigration.Consistent (m : DomainMigration) : Prop := m.progress = .complete → m.pendingImport = none

instance (m : DomainMigration) : Decidable m.Consistent :=
  inferInstanceAs (Decidable (m.progress = .complete → m.pendingImport = none))

def CanonicalState.Tombstone (s : CanonicalState) : Prop :=
  s.authEnvelope = none ∧ s.publicPart.clientId = none ∧ s.publicPart.profile = .null ∧ s.publicPart.pins = .null ∧
    s.publicPart.recents = .null ∧ s.publicPart.consent = .null ∧ s.publicPart.scopes = .null ∧
    s.publicPart.ids = .null ∧ s.publicPart.accountExtensions = .null ∧ s.migrations.session.progress = .complete ∧
    s.migrations.consent.progress = .complete

instance (s : CanonicalState) : Decidable s.Tombstone :=
  inferInstanceAs (Decidable (_ ∧ _ ∧ _ ∧ _ ∧ _ ∧ _ ∧ _ ∧ _ ∧ _ ∧ _ ∧ _))

def CanonicalState.checkPending (pending : CanonicalState → Except StateError Unit) (s : CanonicalState) :
    Except StateError Unit :=
  if s.pendingAuth.isSome then do
    check (s.status ≠ .cleared) .invalid
    pending s
  else .ok ()

/-- Validation, given the check of a pending refresh: that check applies the refresh to the
state without it, where nothing is pending. -/
def CanonicalState.validateWith (pending : CanonicalState → Except StateError Unit) (s : CanonicalState) :
    Except StateError Unit := do
  check (s.format = stateFormat) .unsupportedFormat
  check (s.schema = stateSchema) .unsupportedSchema
  check (s.id = s.flavor.objectId) .idCollision
  check (s.operations.length ≤ ledgerCapacity) .invalid
  s.checkPending pending
  checkEntries s.revision s.epoch [] s.operations
  check (s.migrations.session.Consistent ∧ s.migrations.consent.Consistent) .invalid
  check (s.status = .cleared → s.Tombstone) .invalid
  checkLogicalSize s.toValue

def CanonicalState.encodeWith (validate : CanonicalState → Except StateError Unit) (s : CanonicalState) :
    Except StateError Unit := do
  validate s
  check (s.toValue.encodedSize ≤ maxEncodedBytes) .encodedTooLarge

def CanonicalState.operationStatusWith (validate : CanonicalState → Except StateError Unit) (s : CanonicalState)
    (id : Generation) (digest : String) : Except StateError OperationStatus := do
  validate s
  check (ValidDigest digest) .invalid
  match s.operations.find? (fun entry => entry.id = id) with
  | some entry => if entry.digest = digest then .ok (.applied entry.result) else .error .invalid
  | none => .ok .unknown

/-- The generation a pending refresh would bring in. -/
def CanonicalState.pendingGeneration (s : CanonicalState) : Option Generation :=
  match s.pendingAuth with
  | some ⟨⟨_, _, _, .replaceAuth authGeneration _ _⟩, _⟩ => some authGeneration
  | _ => none

def CanonicalState.Fresh (s : CanonicalState) (generation : Generation) : Prop :=
  generation ≠ s.authGeneration ∧ s.pendingGeneration ≠ some generation ∧
    ∀ entry ∈ s.operations, entry.result.authGeneration ≠ generation

instance (s : CanonicalState) (generation : Generation) : Decidable (s.Fresh generation) :=
  inferInstanceAs (Decidable (_ ∧ _ ∧ _))

/-- The public part with the present language removed, when there is one. -/
def CanonicalState.languageReset (s : CanonicalState) : Option PublicPayload :=
  match s.publicPart.preferences with
  | .object fields =>
    if Json.HasKey "language" fields then
      some { s.publicPart with preferences := .object (Json.remove "language" fields) }
    else none
  | _ => none

def Mutation.preferences? : Mutation → Option PublicPayload
  | .updatePreferences publicPart => some publicPart
  | _ => none

/-- The one write of preferences a cleared installation accepts: its present language is
removed, and nothing else changes. -/
def CanonicalState.ClearedReset (s : CanonicalState) (mutation : Mutation) : Prop :=
  s.status = .cleared ∧ ∃ reset ∈ s.languageReset, mutation.preferences? = some reset

instance (s : CanonicalState) (mutation : Mutation) : Decidable (s.ClearedReset mutation) :=
  inferInstanceAs (Decidable (_ ∧ ∃ reset ∈ s.languageReset, mutation.preferences? = some reset))

def Mutation.isMigration : Mutation → Bool
  | .advanceMigration _ _ => true
  | _ => false

def Mutation.startsTenure : Mutation → Bool
  | .replaceAuth _ _ _ | .clearTenure _ => true
  | _ => false

def CanonicalState.guards (s : CanonicalState) (op : Operation) : Except StateError Unit := do
  check (op.expected = s.expected) .conflict
  check (∀ pending ∈ s.pendingAuth, pending.operation.id ≠ op.id) .invalid
  check (s.pendingAuth.isSome → op.mutation.isMigration = false) .conflict
  check (op.mutation.preferences?.isSome → ¬ s.ClearedReset op.mutation →
    s.migrations.session.progress = .complete ∧ s.authEnvelope.isSome) .conflict
  check (s.status = .cleared → ¬ s.ClearedReset op.mutation → op.mutation.startsTenure = true) .conflict

/-- A session payload, with the consent it does not own kept. -/
def PublicPayload.keepingConsent (publicPart old : PublicPayload) : PublicPayload :=
  { publicPart with consent := old.consent, scopes := old.scopes, ids := old.ids }

def clearedPreferences : Value → Value
  | .object fields => .object (accountBoundPreferences.foldl (fun fields key => Json.remove key fields) fields)
  | other => other

def u64Bound : Nat := 18446744073709551616

def CanonicalState.advance (s next : CanonicalState) : MigrationDomain → MigrationAdvance →
    Except StateError CanonicalState
  | .session, .sessionPending opaqueEnvelope =>
    if opaqueEnvelope.isEmpty then .error .invalid
    else .ok { next with migrations.session.pendingImport := some opaqueEnvelope }
  | .session, .sessionComplete publicPart auth =>
    if s.Fresh auth.authGeneration then
      if auth.envelope.isEmpty then .error .invalid
      else .ok { next with
        publicPart := publicPart.keepingConsent s.publicPart
        authGeneration := auth.authGeneration
        authEnvelope := some auth.envelope
        status := .active
        migrations.session := .completed }
    else .error .invalid
  | .consent, .consentComplete consent =>
    .ok { next with
      publicPart := { next.publicPart with consent := consent.consent, scopes := consent.scopes, ids := consent.ids }
      migrations.consent := .completed }
  | .session, .completeEmpty .session => .ok { next with migrations.session := .completed }
  | .consent, .completeEmpty .consent => .ok { next with migrations.consent := .completed }
  | _, _ => .error .invalid

def Migrations.progressOf (m : Migrations) : MigrationDomain → MigrationProgress
  | .session => m.session.progress
  | .consent => m.consent.progress

/-- The state a mutation leads to; what was pending is superseded. -/
def CanonicalState.mutate (s : CanonicalState) : Mutation → Except StateError CanonicalState
  | .updatePreferences publicPart =>
    .ok { s with
      pendingAuth := none
      publicPart := publicPart.keepingConsent s.publicPart }
  | .updateConsent consent scopes ids =>
    .ok { s with
      pendingAuth := none
      publicPart := { s.publicPart with consent, scopes, ids }
      migrations.consent := .completed }
  | .replaceAuth authGeneration authEnvelope publicPart =>
    if s.Fresh authGeneration then
      if authEnvelope.isEmpty then .error .invalid
      else .ok { s with
        pendingAuth := none
        authGeneration
        authEnvelope := some authEnvelope
        publicPart := publicPart.keepingConsent s.publicPart
        status := .active
        migrations.session := .completed }
    else .error .invalid
  | .advanceMigration domain payload =>
    if s.migrations.progressOf domain = .complete then .error .invalid
    else s.advance { s with pendingAuth := none } domain payload
  | .clearTenure authGeneration =>
    if s.Fresh authGeneration then
      if s.epoch + 1 < u64Bound then
        .ok { s with
          pendingAuth := none
          epoch := s.epoch + 1
          authGeneration
          status := .cleared
          authEnvelope := none
          publicPart := { PublicPayload.default with preferences := clearedPreferences s.publicPart.preferences }
          migrations := ⟨.completed, .completed⟩ }
      else .error .exhausted
    else .error .invalid

def Mutation.verification : Mutation → ReceiptVerification
  | .replaceAuth _ _ _ | .advanceMigration _ (.sessionComplete _ _) => .auth none
  | _ => .publicOnly

/-- The receipt of a newly applied operation. -/
def CanonicalState.receipt (next : CanonicalState) : Applied := ⟨next.revision, next.epoch, next.authGeneration⟩

/-- The ledger takes the operation in, and forgets its oldest past its capacity. -/
def CanonicalState.record (next : CanonicalState) (op : Operation) : Except StateError CanonicalState :=
  if next.revision + 1 < u64Bound then
    let next := { next with revision := next.revision + 1 }
    .ok { next with
      operations := RecentLog.push ledgerCapacity next.operations
        ⟨op.id, op.digest, next.receipt, some op.mutation.verification⟩ }
  else .error .exhausted

/-- The candidate of a new operation, before its size is known. -/
def CanonicalState.candidate (s : CanonicalState) (op : Operation) : Except StateError CanonicalState := do
  s.guards op
  let next ← s.mutate op.mutation
  next.record op

def CanonicalState.applyWith (validate : CanonicalState → Except StateError Unit) (s : CanonicalState) (op : Operation) :
    Except StateError (CanonicalState × Applied) := do
  validate s
  check (ValidDigest op.digest) .invalid
  match ← s.operationStatusWith validate op.id op.digest with
  | .applied result => return (s, result)
  | .unknown =>
    let next ← s.candidate op
    next.encodeWith validate
    return (next, next.receipt)

/-- Validation of a state with nothing pending. -/
def CanonicalState.validateSettled (s : CanonicalState) : Except StateError Unit := s.validateWith (fun _ => .ok ())

def CanonicalState.withPlaintext (s : CanonicalState) (plaintextDigest : String) : Except StateError CanonicalState :=
  match s.operations.getLast? with
  | none => .error .invalid
  | some last => .ok { s with
      operations := s.operations.dropLast ++ [{ last with verification := some (.auth (some plaintextDigest)) }] }

def Mutation.isReplaceAuth : Mutation → Bool
  | .replaceAuth _ _ _ => true
  | _ => false

/-- The prepared transition, without recording it as applied. -/
def CanonicalState.pendingCandidate (s : CanonicalState) : Except StateError (Option (CanonicalState × Applied)) :=
  match s.pendingAuth with
  | none => .ok none
  | some pending => do
      check (ValidDigest pending.plaintextDigest ∧ pending.operation.mutation.isReplaceAuth = true ∧
        ∀ entry ∈ s.operations, entry.id ≠ pending.operation.id) .invalid
      let (candidate, applied) ← { s with pendingAuth := none }.applyWith validateSettled pending.operation
      let candidate ← candidate.withPlaintext pending.plaintextDigest
      return some (candidate, applied)

def CanonicalState.validate (s : CanonicalState) : Except StateError Unit :=
  s.validateWith (fun s => s.pendingCandidate.map (fun _ => ()))

def CanonicalState.encode (s : CanonicalState) : Except StateError Unit := s.encodeWith validate

def CanonicalState.operationStatus (s : CanonicalState) (id : Generation) (digest : String) :
    Except StateError OperationStatus := s.operationStatusWith validate id digest

/-- Validates and advances a copy. A replay gets its first receipt and changes nothing. -/
def CanonicalState.applyVerifiedDigest (s : CanonicalState) (op : Operation) :
    Except StateError (CanonicalState × Applied) := s.applyWith validate op

end PlxNative.Storage
