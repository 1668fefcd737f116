import PlxNative.Lib.Words
import PlxNative.Storage.State

/-! The helper's requests and answers, and how it reads the identifiers in them. -/
namespace PlxNative.Storage
open Json (Value)

inductive ErrorCode where
  | invalid
  | unavailable
  | timeout
  | capability
  | authentication
  | protocol
  | corrupt
  deriving DecidableEq

inductive Expectation where
  | missing
  | present (dbRev epoch authGeneration : String)
  deriving DecidableEq

inductive ProtectionRequest where
  | keymanagerRequired
  | keymanagerWithAclFallback
  | db8AclOnlyExplicit

inductive MigrationMutation where
  | sessionPending (opaqueEnvelope : String)
  | sessionComplete (publicPart : Value) (authPlaintext : String) (protection : ProtectionRequest)
  | consentComplete (consent : Value)
  | completeEmpty (domain : MigrationDomain)

inductive WireMutation where
  | updatePreferences (payload : Value)
  | updateConsent (payload : Value)
  | replaceAuth (publicPart : Value) (payload : String) (protection : ProtectionRequest)
  | advanceMigration (migration : MigrationMutation)
  | clearTenure

inductive Request where
  | hello (protocol : Nat) (nonce : String)
  | load
  | commit (expected : Expectation) (operationId digest : String) (mutation : WireMutation)
  | reconcile (operationId digest : String)

inductive CommitStatus where
  | committed
  | conflict
  | invalid
  | unavailable
  deriving DecidableEq

inductive ReconcileStatus where
  | applied
  | notApplied
  | unknown
  | invalid
  deriving DecidableEq

inductive KeymanagerOperation where
  | seal
  | «open»
  | readback
  deriving DecidableEq

inductive KeymanagerStage where
  | validate
  | generate
  | «begin»
  | finish
  | roundtrip
  deriving DecidableEq

inductive KeymanagerFailureCategory where
  | unavailable
  | timeout
  | serviceRejected
  | invalidResponse
  | other
  deriving DecidableEq

structure KeymanagerFailure where
  operation : KeymanagerOperation
  stage : KeymanagerStage
  code : ErrorCode
  category : KeymanagerFailureCategory
  serviceCode : Option Int
  deriving DecidableEq

inductive FallbackReason where
  | freshLogin
  | legacyImport
  deriving DecidableEq

inductive FallbackPhase where
  | seal
  | postwriteReadbackRepair
  deriving DecidableEq

structure FallbackContext where
  reason : FallbackReason
  phase : FallbackPhase
  deriving DecidableEq

inductive AuthPreservation where
  | unchanged
  | restored
  | uncertain
  deriving DecidableEq

inductive ProtectionClass where
  | keymanager
  | db8AclOnly
  deriving DecidableEq

structure ProtectionOutcome where
  kind : ProtectionClass
  fallback : Option KeymanagerFailure
  fallbackContext : Option FallbackContext
  deriving DecidableEq

inductive AuthLoad where
  | none
  | plaintext (payload : String)
  | locked (code : ErrorCode)
  deriving DecidableEq

inductive Response where
  | loaded (dbRev : String) (state : Value) (auth : AuthLoad) (protection : Option ProtectionOutcome)
  | missing
  | commit (status : CommitStatus) (dbRev : Option String) (state : Option Value) (applied : Option Applied)
      (verified : Bool) (protection : Option ProtectionOutcome)
  | reconcile (status : ReconcileStatus) (dbRev : Option String) (applied : Option Applied)
      (protection : Option ProtectionOutcome)
  | error (code : ErrorCode)
  | keymanagerError (failure : KeymanagerFailure) (preservation : AuthPreservation) (db8CommitVerified : Bool)
  deriving DecidableEq

def maxFrame : Nat := 2 * maxEncodedBytes + 4096

section

def ErrorCode.toValue : ErrorCode → Value
  | .invalid => .string "invalid"
  | .unavailable => .string "unavailable"
  | .timeout => .string "timeout"
  | .capability => .string "capability"
  | .authentication => .string "authentication"
  | .protocol => .string "protocol"
  | .corrupt => .string "corrupt"

def KeymanagerOperation.toValue : KeymanagerOperation → Value
  | .seal => .string "seal"
  | .open => .string "open"
  | .readback => .string "readback"

def KeymanagerStage.toValue : KeymanagerStage → Value
  | .validate => .string "validate"
  | .generate => .string "generate"
  | .begin => .string "begin"
  | .finish => .string "finish"
  | .roundtrip => .string "roundtrip"

def KeymanagerFailureCategory.toValue : KeymanagerFailureCategory → Value
  | .unavailable => .string "unavailable"
  | .timeout => .string "timeout"
  | .serviceRejected => .string "service_rejected"
  | .invalidResponse => .string "invalid_response"
  | .other => .string "other"

def KeymanagerFailure.toValue (f : KeymanagerFailure) : Value :=
  .object [("category", f.category.toValue), ("code", f.code.toValue), ("operation", f.operation.toValue),
    ("service_code", match f.serviceCode with | none => .null | some n => .number (toString n)),
    ("stage", f.stage.toValue)]

def FallbackContext.toValue (c : FallbackContext) : Value :=
  .object [("phase", .string (match c.phase with
      | .seal => "seal"
      | .postwriteReadbackRepair => "postwrite_readback_repair")),
    ("reason", .string (match c.reason with
      | .freshLogin => "fresh_login"
      | .legacyImport => "legacy_import"))]

/-- The failure the helper itself reports of the keymanager. -/
def keymanagerFailure (operation : KeymanagerOperation) (stage : KeymanagerStage) (code : ErrorCode) : KeymanagerFailure :=
  ⟨operation, stage, code, match code with
    | .unavailable => .unavailable
    | .timeout => .timeout
    | .corrupt => .invalidResponse
    | _ => .other, none⟩

def translate : StateError → ErrorCode
  | .randomUnavailable => .unavailable
  | _ => .invalid

end

section

def hexDigit? (c : Char) : Option Nat :=
  if '0' ≤ c ∧ c ≤ '9' then some (c.toNat - 48)
  else if 'a' ≤ c ∧ c ≤ 'f' then some (c.toNat - 87)
  else none

def hexBytes? : List Char → Option (List UInt8)
  | [] => some []
  | [_] => none
  | high :: low :: rest => do
      let h ← hexDigit? high
      let l ← hexDigit? low
      let bytes ← hexBytes? rest
      return UInt8.ofNat (16 * h + l) :: bytes

def generation (text : String) : Except ErrorCode Generation :=
  match hexBytes? text.toList with
  | some bytes => if length : bytes.length = 16 then .ok ⟨bytes, length⟩ else .error .invalid
  | none => .error .invalid

/-- A revision is taken only as it would be written. -/
def exactRevision (text : String) : Except ErrorCode Nat :=
  match Usize.parseU64 text with
  | some value => if toString value = text then .ok value else .error .invalid
  | none => .error .invalid

theorem hexDigit?_eq_some {c : Char} {n : Nat} (digit : hexDigit? c = some n) :
    n < 16 ∧ c.toNat = if n < 10 then n + 48 else n + 87 := by
  unfold hexDigit? at digit
  split at digit
  · rename_i bounds
    have low : '0'.toNat ≤ c.toNat := bounds.1
    have high : c.toNat ≤ '9'.toNat := bounds.2
    simp only [Char.reduceToNat] at low high
    cases digit
    split <;> omega
  · split at digit
    · rename_i bounds
      have low : 'a'.toNat ≤ c.toNat := bounds.1
      have high : c.toNat ≤ 'f'.toNat := bounds.2
      simp only [Char.reduceToNat] at low high
      cases digit
      split <;> omega
    · cases digit

theorem hexDigit?_injective {c d : Char} {n : Nat} (first : hexDigit? c = some n) (second : hexDigit? d = some n) :
    c = d := by
  apply Char.toNat_inj.mp
  rw [(hexDigit?_eq_some first).2, (hexDigit?_eq_some second).2]

theorem hexBytes?_injective {cs ds : List Char} {bytes : List UInt8} (first : hexBytes? cs = some bytes)
    (second : hexBytes? ds = some bytes) : cs = ds := by
  induction cs using hexBytes?.induct generalizing ds bytes with
  | case1 =>
    cases first
    match ds with
    | [] => rfl
    | [_] => cases second
    | high :: low :: rest =>
      simp [hexBytes?, Option.bind_eq_some_iff] at second
  | case2 c => cases first
  | case3 high low rest ih =>
    simp only [hexBytes?, bind, Option.bind_eq_some_iff, pure, Option.some.injEq] at first
    obtain ⟨h, is_h, l, is_l, later, is_later, rfl⟩ := first
    match ds with
    | [] => cases second
    | [_] => cases second
    | high' :: low' :: rest' =>
      simp only [hexBytes?, bind, Option.bind_eq_some_iff, pure, Option.some.injEq, List.cons.injEq] at second
      obtain ⟨h', is_h', l', is_l', later', is_later', eq, rfl⟩ := second
      -- the two digits are told from the byte they make
      have bounds := (hexDigit?_eq_some is_h).1
      have bounds_l := (hexDigit?_eq_some is_l).1
      have bounds' := (hexDigit?_eq_some is_h').1
      have bounds_l' := (hexDigit?_eq_some is_l').1
      have value := congrArg UInt8.toNat eq
      simp only [UInt8.toNat_ofNat'] at value
      have same_h : h = h' := by omega
      have same_l : l = l' := by omega
      subst same_h same_l
      rw [hexDigit?_injective is_h is_h', hexDigit?_injective is_l is_l', ih is_later is_later']

theorem generation_injective {text other : String} {g : Generation} (first : generation text = .ok g)
    (second : generation other = .ok g) : text = other := by
  have spelt : ∀ {text : String}, generation text = .ok g → hexBytes? text.toList = some g.bytes := by
    intro text read
    unfold generation at read
    split at read
    · rename_i bytes found
      split at read
      · cases read
        exact found
      · cases read
    · cases read
  exact String.toList_inj.mp (hexBytes?_injective (spelt first) (spelt second))

end
end PlxNative.Storage
