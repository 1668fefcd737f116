import PlxNative.Lib.Service
import PlxNative.Storage.Wire

/-! The helper. It keeps the canonical state in one object of DB8, which it replaces only at
the revision it has read. -/
namespace PlxNative.Storage
open Json (Value)
open Service (Task)

/-- What a helper does about keys of the keymanager that no stored state needs. None of it
touches DB8. -/
inductive Housekeeping where
  | removeRetired (name : String)
  | rememberRetired (old next : CanonicalState) (id : Generation) (digest : String)
  | forgetRetired (id : Generation) (digest : String)
  | cleanupConfirmed (id : Generation) (digest : String) (current : CanonicalState)
  | cleanupCancelledPending (old current : CanonicalState)

/-- A call of a helper. Sealing and opening are several calls of the keymanager each, which
stand as one: they share nothing with DB8. -/
inductive Call where
  | load
  | put (revision : Option Nat) (state : CanonicalState)
  | random
  | sealing (keyName plaintext : String) (context : Value)
  | unsealing (keyName envelope : String) (context : Value)
  | unsealingDetailed (keyName envelope : String) (context : Value) (operation : KeymanagerOperation)
  | housekeeping (task : Housekeeping)

inductive PutReply where
  | accepted
  | rejected
  | lost
  deriving DecidableEq

def Reply : Call → Type
  | .load => Except ErrorCode (Option (Nat × CanonicalState))
  | .put _ _ => PutReply
  | .random => Except StateError Generation
  | .sealing _ _ _ => Except KeymanagerFailure String
  | .unsealing _ _ _ => Except ErrorCode String
  | .unsealingDetailed _ _ _ _ => Except KeymanagerFailure String
  | .housekeeping _ => Unit

/-- Why a request gets no answer of its own: a failure of the keymanager that a required
sealing met is reported in full. -/
inductive Fault where
  | code (code : ErrorCode)
  | keymanager (failure : KeymanagerFailure) (preservation : AuthPreservation)
  deriving DecidableEq

abbrev Helper (α : Type) : Type := Task Reply Fault α

structure Envelope where
  format : String
  keyName : String
  iv : String
  ciphertext : String
  context : Value

/-- Reading and writing of JSON, digests, and the sizes of frames. -/
structure Codec where
  parse : String → Option Value
  render : Value → String
  publicPayload? : Value → Option PublicPayload
  consentPayload? : Value → Option ConsentPayload
  envelope? : String → Option Envelope
  failure? : Value → Option KeymanagerFailure
  fallbackContext? : Value → Option FallbackContext
  digestBytes : String → String
  requestDigest : Request → String
  requestSize : Request → Nat
  responseSize : Response → Nat

section

def keyAlphabet : List Char := "ABCDEFGHIJKLMNOPQRSTUVWXYZabcdefghijklmnopqrstuvwxyz0123456789-_".toList

/-- The first digits, six bits each, of three bytes. -/
def keyDigits (a b c : UInt8) (count : Nat) : List Char :=
  let bits := a.toNat * 65536 + b.toNat * 256 + c.toNat
  ([18, 12, 6, 0].take count).map (fun shift => keyAlphabet.getD (bits / 2 ^ shift % 64) 'A')

def keyChunks : List UInt8 → List Char
  | [] => []
  | [a] => keyDigits a 0 0 2
  | [a, b] => keyDigits a b 0 3
  | a :: b :: c :: rest => keyDigits a b c 4 ++ keyChunks rest

def Generation.keyName (g : Generation) : String := "a." ++ String.ofList (keyChunks g.bytes)

end

def invalid {α : Type} : Helper α := .fail (.code .invalid)

def corrupt {α : Type} : Helper α := .fail (.code .corrupt)

def orFail {α : Type} (code : ErrorCode) : Option α → Helper α
  | some a => .done a
  | none => .fail (.code code)

def reading {α : Type} (read : Except ErrorCode α) : Helper α := .ofExcept (read.mapError .code)

def checking {α : Type} (checked : Except StateError α) : Helper α :=
  .ofExcept (checked.mapError (fun error => .code (translate error)))

def getObject : Helper (Except ErrorCode (Option (Nat × CanonicalState))) := .call .load .done

def putObject (revision : Option Nat) (s : CanonicalState) : Helper PutReply := .call (.put revision s) .done

def Keymanager.sealDetailed (keyName plaintext : String) (context : Value) : Helper (Except KeymanagerFailure String) :=
  .call (.sealing keyName plaintext context) .done

def Keymanager.unseal (keyName envelope : String) (context : Value) : Helper (Except ErrorCode String) :=
  .call (.unsealing keyName envelope context) .done

def Keymanager.unsealDetailed (keyName envelope : String) (context : Value) (operation : KeymanagerOperation) :
    Helper (Except KeymanagerFailure String) :=
  .call (.unsealingDetailed keyName envelope context operation) .done

def housekeep (task : Housekeeping) : Helper Unit := .call (.housekeeping task) .done

def housekeepIf (needed : Bool) (task : Housekeeping) : Helper Unit := if needed then housekeep task else .done ()

def drawn : Helper (Except StateError Generation) := .call .random .done

def load : Helper (Option (Nat × CanonicalState)) := do
  reading (← getObject)

def random : Helper Generation := do
  checking (← drawn)

def removeCreated : Option String → Helper Unit
  | some name => housekeep (.removeRetired name)
  | none => .done ()

section

def WireMutation.freshPlaintext : WireMutation → Option String
  | .replaceAuth _ payload _ => some payload
  | .advanceMigration (.sessionComplete _ authPlaintext _) => some authPlaintext
  | _ => none

def WireMutation.fallbackReason : WireMutation → FallbackReason
  | .advanceMigration (.sessionComplete _ _ _) => .legacyImport
  | _ => .freshLogin

def WireMutation.strict : WireMutation → Bool
  | .replaceAuth _ _ .keymanagerRequired => true
  | _ => false

def WireMutation.allowFallback : WireMutation → Bool
  | .replaceAuth _ _ .keymanagerWithAclFallback => true
  | .advanceMigration (.sessionComplete _ _ .keymanagerWithAclFallback) => true
  | _ => false

def WireMutation.authenticateReadback : WireMutation → Bool
  | .replaceAuth _ _ _ | .advanceMigration _ => true
  | _ => false

end

variable (codec : Codec)

section

structure AuthContext where
  format : String
  schema : Nat
  flavor : Flavor
  epoch : Nat
  authGeneration : Generation

def CanonicalState.authContext (s : CanonicalState) : AuthContext :=
  ⟨s.format, s.schema, s.flavor, s.epoch, s.authGeneration⟩

def AuthContext.toValue (c : AuthContext) : Value :=
  .object [("auth_generation", c.authGeneration.toValue), ("epoch", natural c.epoch), ("flavor", c.flavor.toValue),
    ("format", .string c.format), ("schema", natural c.schema)]

def plaintextDigest (plaintext : String) : String :=
  codec.digestBytes (((codec.parse plaintext).map codec.render).getD plaintext)

def typedPlaintextEqual (actual : Option String) (expected : String) : Bool :=
  match actual with
  | none => false
  | some actual =>
    match codec.parse actual, codec.parse expected with
    | some actual, some expected => actual = expected
    | _, _ => actual = expected

def boundedPlaintext (plaintext : String) : Helper String :=
  if (Value.string plaintext).encodedSize > maxEncodedBytes then corrupt else .done plaintext

def aclEnvelope (context : Value) (plaintext : String) (failure : Option (KeymanagerFailure × FallbackContext)) : String :=
  let fallback := match failure with
    | some (failure, context) => [("fallback", failure.toValue), ("fallback_context", context.toValue)]
    | none => []
  codec.render (.object ([("context", context)] ++ fallback ++
    [("format", .string "db8-acl-only-v1"), ("plaintext", .string plaintext)]))

def openAuth (s : CanonicalState) : Helper (Option String) :=
  match s.authEnvelope with
  | none => .done none
  | some envelope => do
      let context := s.authContext.toValue
      let value ← orFail .corrupt (codec.parse envelope)
      if value.member "format" = .string "db8-acl-only-v1" then
        if value.member "context" ≠ context then corrupt
        else
          let plaintext ← orFail .corrupt (value.member "plaintext").text?
          some <$> boundedPlaintext plaintext
      else
        let plaintext ← reading (← Keymanager.unseal s.authGeneration.keyName envelope context)
        some <$> boundedPlaintext plaintext

/-- The plaintext digest noted last for the present generation. -/
def CanonicalState.notedDigest (s : CanonicalState) : Option String :=
  s.operations.reverse.findSome? (fun entry =>
    if entry.result.authGeneration ≠ s.authGeneration then none else entry.plaintextDigest)

def authenticateCurrentAuth (s : CanonicalState) : Helper String := do
  let opened ← orFail .authentication (← openAuth codec s)
  match s.notedDigest with
  | some expected => if plaintextDigest codec opened ≠ expected then corrupt else return opened
  | none => return opened

/-- Whether the present auth opens, and to what was noted of it. -/
def authenticates (s : CanonicalState) : Helper Bool := do
  match ← (authenticateCurrentAuth codec s).attempt with
  | .ok _ => return true
  | .error _ => return false

def CanonicalState.replayNeedsAuth (s : CanonicalState) (id : Generation) : Bool :=
  match s.operations.findIdx? (fun entry => entry.id = id) with
  | none => false
  | some index =>
    match s.operations[index]?.bind LedgerEntry.verification, index with
    | some .publicOnly, _ => false
    | some (.auth _), _ => true
    | none, 0 => true
    | none, before + 1 =>
      s.operations[before]?.map (fun entry => entry.result.authGeneration) ≠
        s.operations[index]?.map (fun entry => entry.result.authGeneration)

def preparedKey (mutation : Mutation) : Option String :=
  let created : Option (Generation × String) := match mutation with
    | .replaceAuth authGeneration authEnvelope _ => some (authGeneration, authEnvelope)
    | .advanceMigration _ (.sessionComplete _ auth) => some (auth.authGeneration, auth.envelope)
    | _ => none
  match created with
  | none => none
  | some (generation, encoded) =>
    match codec.envelope? encoded with
    | none => none
    | some envelope =>
      let name := generation.keyName
      if envelope.format = "keymanager3-aes256-gcm-v1" ∧ envelope.keyName = name then some name else none

def protect (s : CanonicalState) (generation : Generation) (plaintext : String) (protection : ProtectionRequest)
    (reason : FallbackReason) : Helper String :=
  if (Value.string plaintext).encodedSize > maxEncodedBytes then invalid
  else
    let context := { s.authContext with authGeneration := generation }.toValue
    match protection with
    | .keymanagerRequired => do
        match ← Keymanager.sealDetailed generation.keyName plaintext context with
        | .ok envelope => return envelope
        | .error failure => .fail (.keymanager failure .unchanged)
    | .keymanagerWithAclFallback => do
        match ← Keymanager.sealDetailed generation.keyName plaintext context with
        | .ok envelope => return envelope
        | .error failure => return aclEnvelope codec context plaintext (some (failure, ⟨reason, .seal⟩))
    | .db8AclOnlyExplicit => return aclEnvelope codec context plaintext none

end

def prepare (s : CanonicalState) : WireMutation → Helper Mutation
  | .updatePreferences payload => do
      return .updatePreferences (← orFail .invalid (codec.publicPayload? payload))
  | .updateConsent payload => do
      let c ← orFail .invalid (codec.consentPayload? payload)
      return .updateConsent c.consent c.scopes c.ids
  | .replaceAuth publicPart payload protection => do
      let publicPart ← orFail .invalid (codec.publicPayload? publicPart)
      let authGeneration ← random
      let authEnvelope ← protect codec s authGeneration payload protection .freshLogin
      return .replaceAuth authGeneration authEnvelope publicPart
  | .clearTenure => do
      return .clearTenure (← random)
  | .advanceMigration (.sessionPending opaqueEnvelope) =>
    return .advanceMigration .session (.sessionPending opaqueEnvelope)
  | .advanceMigration (.sessionComplete publicPart authPlaintext protection) => do
      let publicPart ← orFail .invalid (codec.publicPayload? publicPart)
      if s.migrations.session.progress = .complete then invalid
      else
        let generation ← random
        let envelope ← protect codec s generation authPlaintext protection .legacyImport
        return .advanceMigration .session (.sessionComplete publicPart ⟨generation, envelope⟩)
  | .advanceMigration (.consentComplete consent) => do
      return .advanceMigration .consent (.consentComplete (← orFail .invalid (codec.consentPayload? consent)))
  | .advanceMigration (.completeEmpty domain) =>
    return .advanceMigration domain (.completeEmpty domain)

section

def protectionOutcome (s : CanonicalState) : Option ProtectionOutcome := do
  let envelope ← codec.parse (← s.authEnvelope)
  let outcome (kind : ProtectionClass) : ProtectionOutcome :=
    ⟨kind, codec.failure? (envelope.member "fallback"), codec.fallbackContext? (envelope.member "fallback_context")⟩
  if envelope.member "format" = .string "keymanager3-aes256-gcm-v1" then some (outcome .keymanager)
  else if envelope.member "format" = .string "db8-acl-only-v1" then some (outcome .db8AclOnly)
  else none

def committed (rev : Nat) (s : CanonicalState) (applied : Applied) (verified : Bool) : Response :=
  .commit .committed (some (toString rev)) (some s.toValue) (some applied) verified (protectionOutcome codec s)

def receipt (status : CommitStatus) (rev : Option Nat) : Response :=
  .commit status (rev.map toString) none none false none

end

def putState (revision : Option Nat) (s : CanonicalState) : Helper PutReply := do
  checking s.encode
  putObject revision s

/-- The failure of staged bytes to open to the plaintext of their digest. -/
def stagedFailure (candidate : CanonicalState) (expected : String) : Helper (Option KeymanagerFailure) := do
  let envelope ← orFail .corrupt candidate.authEnvelope
  match ← Keymanager.unsealDetailed candidate.authGeneration.keyName envelope candidate.authContext.toValue .readback with
  | .ok plaintext =>
    if plaintextDigest codec plaintext = expected then return none
    else return some (keymanagerFailure .readback .roundtrip .corrupt)
  | .error failure => return some failure

/-- A promotion counts only when the exact candidate is read back. -/
def confirmPromotion (staged : CanonicalState) (pending : PendingAuth) (candidate : CanonicalState) (applied : Applied) :
    Helper Response := do
  match ← getObject with
  | .ok (some (revision, actual)) =>
    if actual = candidate then do
      housekeep (.rememberRetired staged actual pending.operation.id pending.operation.digest)
      housekeep (.cleanupConfirmed pending.operation.id pending.operation.digest actual)
      return committed codec revision actual applied true
    else return receipt .unavailable none
  | _ => return receipt .unavailable none

/-- Resumes from what is stored: the staged bytes are opened first, then promoted with their
receipt at the exact revision. -/
def finishPending (rev : Nat) (staged : CanonicalState) : Helper Response := do
  let pending ← orFail .invalid staged.pendingAuth
  let (candidate, applied) ← orFail .invalid (← checking staged.pendingCandidate)
  match ← stagedFailure codec candidate pending.plaintextDigest with
  | some failure => return .keymanagerError failure .unchanged true
  | none => do
      let _ ← (putState (some rev) candidate).attempt
      confirmPromotion codec staged pending candidate applied

def resumeStaged (prior active : CanonicalState) : Helper Response := do
  match ← getObject with
  | .ok (some (rev, staged)) =>
    if staged = active then do
      housekeep (.cleanupCancelledPending prior staged)
      finishPending codec rev staged
    else return receipt .unavailable none
  | _ => return receipt .unavailable none

/-- Phase one stores only a pending operation: what is active stays active. -/
def stageStrict (revision : Option Nat) (active : CanonicalState) (operation : Operation) (plaintext : String) :
    Helper Response := do
  let name ← orFail .invalid (preparedKey codec operation.mutation)
  let prior := active
  let active := { active with pendingAuth := some ⟨operation, plaintextDigest codec plaintext⟩ }
  match active.encode with
  | .error error => do
      housekeep (.removeRetired name)
      .fail (.code (translate error))
  | .ok () => do
      let put ← (putState revision active).attempt
      housekeepIf (put = .ok .rejected) (.removeRetired name)
      resumeStaged codec prior active

/-- The first write is stored but does not open. Only that exact revision is repaired, with
its generation and its receipt kept. -/
def retryReadbackAcl (rev : Nat) (actual : CanonicalState) (applied : Applied) (plaintext : String)
    (failure : KeymanagerFailure) (reason : FallbackReason) (id : Generation) (digest : String) : Helper Response := do
  let createdKey := actual.authGeneration.keyName
  let repaired := { actual with authEnvelope := some (aclEnvelope codec actual.authContext.toValue plaintext
    (some (failure, ⟨reason, .postwriteReadbackRepair⟩))) }
  checking repaired.encode
  let _ ← putObject (some rev) repaired
  match ← getObject with
  | .ok (some (revision, current)) =>
    if current = repaired then do
      let opened ← openAuth codec current
      if typedPlaintextEqual codec opened plaintext then do
        housekeep (.cleanupConfirmed id digest current)
        housekeep (.removeRetired createdKey)
        return committed codec revision current applied true
      else corrupt
    else return receipt (if revision ≠ rev then .conflict else .unavailable) (some revision)
  | _ => return receipt .unavailable none

section

/-- What is pending on the state for this operation. -/
def CanonicalState.pendingFor (s : CanonicalState) (id : Generation) : Option PendingAuth :=
  s.pendingAuth.filter (fun pending => pending.operation.id = id)

/-- An operation whose receipt is on the ledger. With a plaintext to show, the present auth
has to open, and to that plaintext when it is still the operation's own. -/
def replayAuthenticates (s : CanonicalState) (applied : Applied) (mutation : WireMutation) : Helper Bool :=
  match mutation.freshPlaintext with
  | none => return true
  | some expected => do
      match ← (authenticateCurrentAuth codec s).attempt with
      | .ok opened =>
        return applied.authGeneration ≠ s.authGeneration || typedPlaintextEqual codec (some opened) expected
      | .error _ => return false

/-- A commit whose operation the loaded state knows is resumed or replayed. -/
def commitKnown (rev : Nat) (s : CanonicalState) (id : Generation) (digest : String) (mutation : WireMutation) :
    Helper (Option Response) :=
  match s.pendingFor id with
  | some pending => if pending.operation.digest ≠ digest then invalid else some <$> finishPending codec rev s
  | none => do
      match ← checking (s.operationStatus id digest) with
      | .unknown => return none
      | .applied applied =>
        if ← replayAuthenticates codec s applied mutation then do
          housekeep (.cleanupConfirmed id digest s)
          return some (committed codec rev s applied false)
        else return some (receipt .unavailable (some rev))

/-- The revision and the state a new operation is to be applied at, if they are as the
request expects. -/
def expectedState (flavor : Flavor) (expected : Expectation) (loaded : Option (Nat × CanonicalState)) :
    Helper (Option (Option Nat × CanonicalState)) :=
  match expected, loaded with
  | .missing, none => do
      return some (none, CanonicalState.new flavor (← random))
  | .present dbRev epoch authGeneration, some (rev, s) => do
      if (← reading (exactRevision dbRev)) = rev then
        if (← reading (exactRevision epoch)) = s.epoch then
          if (← reading (generation authGeneration)) = s.authGeneration then return some (some rev, s)
          else return none
        else return none
      else return none
  | _, _ => return none

/-- The candidate as it was put, and what the request wants checked of it. -/
structure Attempted where
  revision : Option Nat
  prior : CanonicalState
  next : CanonicalState
  applied : Applied
  createdKey : Option String
  mutation : WireMutation

/-- The answer once the ledger has shown the operation applied. -/
def confirm (attempted : Attempted) (id : Generation) (digest : String) (rev : Nat) (actual : CanonicalState)
    (original : Applied) (verified : Bool) : Helper Response := do
  let refused ← (if !verified && attempted.mutation.freshPlaintext.isSome then not <$> authenticates codec actual
    else return false)
  if refused then return receipt .unavailable (some rev)
  else do
    housekeep (.cleanupConfirmed id digest actual)
    housekeepIf verified (.cleanupCancelledPending attempted.prior actual)
    return committed codec rev actual original verified

/-- The failure of a stored envelope to open to its plaintext. -/
def readbackFailure (actual : CanonicalState) (expected : String) : Helper (Option KeymanagerFailure) := do
  let envelope ← orFail .corrupt actual.authEnvelope
  match ← Keymanager.unsealDetailed actual.authGeneration.keyName envelope actual.authContext.toValue .readback with
  | .ok opened =>
    if typedPlaintextEqual codec (some opened) expected then return none
    else return some (keymanagerFailure .readback .roundtrip .corrupt)
  | .error failure => return some failure

/-- What is stored after the put, whatever became of its acknowledgement: a put is never
forced, the ledger says what happened. -/
def readBack (attempted : Attempted) (id : Generation) (digest : String) : Helper Response := do
  match ← getObject with
  | .ok (some (rev, actual)) => do
      match ← checking (actual.operationStatus id digest) with
      | .unknown => return receipt (if some rev ≠ attempted.revision then .conflict else .unavailable) (some rev)
      | .applied original =>
        let verified : Bool := actual = attempted.next ∧ original = attempted.applied
        if verified && attempted.mutation.authenticateReadback then
          if attempted.mutation.allowFallback && attempted.createdKey.isSome then do
            let expected ← orFail .invalid attempted.mutation.freshPlaintext
            match ← readbackFailure codec actual expected with
            | some failure =>
              retryReadbackAcl codec rev actual original expected failure attempted.mutation.fallbackReason id digest
            | none => confirm codec attempted id digest rev actual original true
          else do
            match ← (openAuth codec actual).attempt, attempted.mutation.freshPlaintext with
            | .ok opened, some expected =>
              if typedPlaintextEqual codec opened expected then
                confirm codec attempted id digest rev actual original true
              else corrupt
            | .ok _, none => confirm codec attempted id digest rev actual original true
            | .error fault, some _ => .fail fault
            | .error _, none => confirm codec attempted id digest rev actual original false
        else confirm codec attempted id digest rev actual original verified
  | _ => return receipt .unavailable none

/-- The digest of a fresh plaintext goes into the receipt the operation has just left. -/
def notePlaintext (next : CanonicalState) : Option String → Helper CanonicalState
  | none => .done next
  | some plaintext =>
    match next.withPlaintext (plaintextDigest codec plaintext) with
    | .ok noted => .done noted
    | .error _ => corrupt

/-- A rejection proves that a key made for the candidate is of no use; a lost
acknowledgement proves nothing. -/
def discardCreated (attempted : Attempted) (id : Generation) (digest : String) (put : PutReply) : Helper Unit :=
  if put = .rejected then do
    removeCreated attempted.createdKey
    housekeep (.forgetRetired id digest)
  else .done ()

def putCandidate (attempted : Attempted) (id : Generation) (digest : String) : Helper Response :=
  match attempted.next.encode with
  | .error error => do
      removeCreated attempted.createdKey
      .fail (.code (translate error))
  | .ok () => do
      housekeep (.rememberRetired attempted.prior attempted.next id digest)
      let put ← putObject attempted.revision attempted.next
      discardCreated attempted id digest put
      readBack codec attempted id digest

/-- A new operation, at the state the request expects. -/
def commitNew (revision : Option Nat) (s : CanonicalState) (id : Generation) (digest : String) (mutation : WireMutation) :
    Helper Response := do
  let prepared ← prepare codec s mutation
  let createdKey := preparedKey codec prepared
  let operation : Operation := ⟨id, digest, s.expected, prepared⟩
  match s.applyVerifiedDigest operation with
  | .error error => do
      removeCreated createdKey
      if error = .conflict then return receipt .conflict revision else .fail (.code (translate error))
  | .ok (next, applied) => do
      let next ← notePlaintext codec next mutation.freshPlaintext
      if mutation.strict then do
        let plaintext ← orFail .invalid mutation.freshPlaintext
        stageStrict codec revision s operation plaintext
      else putCandidate codec ⟨revision, s, next, applied, createdKey, mutation⟩ id digest

def commitUnknown (flavor : Flavor) (expected : Expectation) (loaded : Option (Nat × CanonicalState)) (id : Generation)
    (digest : String) (mutation : WireMutation) : Helper Response := do
  match ← expectedState flavor expected loaded with
  | some (revision, s) => commitNew codec revision s id digest mutation
  | none => return receipt .conflict none

def commit (flavor : Flavor) (expected : Expectation) (operationId digest : String) (mutation : WireMutation) :
    Helper Response := do
  let id ← reading (generation operationId)
  let loaded ← load
  let known ← (match loaded with
    | some (rev, s) => commitKnown codec rev s id digest mutation
    | none => return none)
  match known with
  | some response => return response
  | none => commitUnknown codec flavor expected loaded id digest mutation

end

section

def reconcileKnown (rev : Nat) (s : CanonicalState) (id : Generation) (digest : String) : Helper Response := do
  match ← checking (s.operationStatus id digest) with
  | .unknown => return .reconcile .unknown (some (toString rev)) none none
  | .applied applied => do
      let locked ← (if s.replayNeedsAuth id then not <$> authenticates codec s else return false)
      if locked then return .reconcile .unknown (some (toString rev)) none none
      else do
        housekeep (.cleanupConfirmed id digest s)
        return .reconcile .applied (some (toString rev)) (some applied) (protectionOutcome codec s)

/-- A pending operation is finished, and its commit told as a reconciliation. -/
def reconcilePending (rev : Nat) (s : CanonicalState) : Helper Response := do
  match ← finishPending codec rev s with
  | .commit .committed dbRev _ applied _ protection => return .reconcile .applied dbRev applied protection
  | .keymanagerError failure preservation db8CommitVerified =>
    return .keymanagerError failure preservation db8CommitVerified
  | _ => return .reconcile .unknown (some (toString rev)) none none

def reconcile (operationId digest : String) : Helper Response := do
  let id ← reading (generation operationId)
  match ← load with
  | none => return .reconcile .unknown none none none
  | some (rev, s) =>
    match s.pendingFor id with
    | some pending => if pending.operation.digest ≠ digest then invalid else reconcilePending codec rev s
    | none => reconcileKnown codec rev s id digest

def loadState : Helper Response := do
  match ← load with
  | none => return .missing
  | some (rev, s) => do
      let opened ← (if s.authEnvelope.isSome then do
          match ← (authenticateCurrentAuth codec s).attempt with
          | .ok payload => return AuthLoad.plaintext payload
          | .error (.code code) => return AuthLoad.locked code
          | .error (.keymanager failure _) => return AuthLoad.locked failure.code
        else return AuthLoad.none)
      return .loaded (toString rev) s.toValue opened (protectionOutcome codec s)

def tryDispatch (flavor : Flavor) : Request → Helper Response
  | .load => loadState codec
  | .reconcile operationId digest => reconcile codec operationId digest
  | .commit expected operationId digest mutation =>
    if codec.requestDigest (.commit expected operationId digest mutation) ≠ digest then invalid
    else commit codec flavor expected operationId digest mutation
  | .hello _ _ => .fail (.code .protocol)

def dispatch (flavor : Flavor) (request : Request) : Helper Response := do
  let result ← (if codec.requestSize request > maxFrame then invalid else tryDispatch codec flavor request).attempt
  match result with
  | .ok response => if codec.responseSize response > maxFrame then return .error .invalid else return response
  | .error (.code code) => return .error code
  | .error (.keymanager failure preservation) => return .keymanagerError failure preservation false

end
end PlxNative.Storage
