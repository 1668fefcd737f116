import PlxNative.Lib.Parts
import PlxNative.Storage.Receipts

/-! Session and consent as two parts of one state: an operation of the one domain leaves
the other's part, so that neither overwrites the other. -/
namespace PlxNative.Storage
open CanonicalState Checks

section

structure SessionView where
  preferences : Json.Value
  clientId : Option String
  profile : Json.Value
  pins : Json.Value
  recents : Json.Value
  accountExtensions : Json.Value
  authEnvelope : Option String
  authGeneration : Generation
  status : Status
  migration : DomainMigration

structure ConsentView where
  consent : Json.Value
  scopes : Json.Value
  ids : Json.Value
  migration : DomainMigration

def CanonicalState.sessionView (s : CanonicalState) : SessionView :=
  ⟨s.publicPart.preferences, s.publicPart.clientId, s.publicPart.profile, s.publicPart.pins, s.publicPart.recents,
    s.publicPart.accountExtensions, s.authEnvelope, s.authGeneration, s.status, s.migrations.session⟩

def CanonicalState.consentView (s : CanonicalState) : ConsentView :=
  ⟨s.publicPart.consent, s.publicPart.scopes, s.publicPart.ids, s.migrations.consent⟩

def Mutation.sessionSide : Mutation → Bool
  | .updatePreferences _ | .replaceAuth _ _ _ => true
  | .advanceMigration _ (.sessionPending _) | .advanceMigration _ (.sessionComplete _ _) => true
  | _ => false

def Mutation.consentSide : Mutation → Bool
  | .updateConsent _ _ _ | .advanceMigration _ (.consentComplete _) => true
  | _ => false

/-- A session payload takes over its own fields. -/
def SessionView.take (v : SessionView) (publicPart : PublicPayload) : SessionView :=
  { v with
    preferences := publicPart.preferences
    clientId := publicPart.clientId
    profile := publicPart.profile
    pins := publicPart.pins
    recents := publicPart.recents
    accountExtensions := publicPart.accountExtensions }

/-- What a session operation does to its own part. -/
def Mutation.sessionEffect : Mutation → SessionView → SessionView
  | .updatePreferences publicPart, v => v.take publicPart
  | .replaceAuth authGeneration authEnvelope publicPart, v =>
    { v.take publicPart with
      authEnvelope := some authEnvelope
      authGeneration
      status := .active
      migration := .completed }
  | .advanceMigration _ (.sessionPending opaqueEnvelope), v =>
    { v with migration.pendingImport := some opaqueEnvelope }
  | .advanceMigration _ (.sessionComplete publicPart auth), v =>
    { v.take publicPart with
      authEnvelope := some auth.envelope
      authGeneration := auth.authGeneration
      status := .active
      migration := .completed }
  | _, v => v

def Mutation.consentEffect : Mutation → ConsentView → ConsentView
  | .updateConsent consent scopes ids, _ => ⟨consent, scopes, ids, .completed⟩
  | .advanceMigration _ (.consentComplete payload), _ => ⟨payload.consent, payload.scopes, payload.ids, .completed⟩
  | _, v => v

variable {s s' m : CanonicalState} {op : Operation} {r : Applied}

theorem Mutates.session {mutation : Mutation} (mutates : Mutates s mutation m) (side : mutation.sessionSide = true) :
    Parts.ActsLeft sessionView consentView mutation.sessionEffect s m := by
  cases mutates with
  | updatePreferences publicPart => exact ⟨rfl, rfl⟩
  | replaceAuth publicPart fresh filled => exact ⟨rfl, rfl⟩
  | sessionPending underway filled => exact ⟨rfl, rfl⟩
  | sessionComplete publicPart underway fresh filled => exact ⟨rfl, rfl⟩
  | updateConsent consent scopes ids => cases side
  | consentComplete consent underway => cases side
  | emptySession underway => cases side
  | emptyConsent underway => cases side
  | clearTenure fresh room => cases side

theorem Mutates.consent {mutation : Mutation} (mutates : Mutates s mutation m) (side : mutation.consentSide = true) :
    Parts.ActsRight sessionView consentView mutation.consentEffect s m := by
  cases mutates with
  | updateConsent consent scopes ids => exact ⟨rfl, rfl⟩
  | consentComplete consent underway => exact ⟨rfl, rfl⟩
  | updatePreferences publicPart => cases side
  | replaceAuth publicPart fresh filled => cases side
  | sessionPending underway filled => cases side
  | sessionComplete publicPart underway fresh filled => cases side
  | emptySession underway => cases side
  | emptyConsent underway => cases side
  | clearTenure fresh room => cases side

theorem Records.views (records : Records m op s') : s'.sessionView = m.sessionView ∧ s'.consentView = m.consentView := by
  rw [records.state]
  exact ⟨rfl, rfl⟩

theorem Newly.session (newly : Newly s op s') (side : op.mutation.sessionSide = true) :
    Parts.ActsLeft sessionView consentView op.mutation.sessionEffect s s' := by
  obtain ⟨m, steps⟩ := newly.steps
  have acts := steps.mutates.session side
  obtain ⟨session, consent⟩ := steps.records.views
  exact ⟨session.trans acts.acts, consent.trans acts.keeps⟩

theorem Newly.consent (newly : Newly s op s') (side : op.mutation.consentSide = true) :
    Parts.ActsRight sessionView consentView op.mutation.consentEffect s s' := by
  obtain ⟨m, steps⟩ := newly.steps
  have acts := steps.mutates.consent side
  obtain ⟨session, consent⟩ := steps.records.views
  exact ⟨consent.trans acts.acts, session.trans acts.keeps⟩

theorem Newly.epoch_of_side (newly : Newly s op s')
    (side : op.mutation.sessionSide = true ∨ op.mutation.consentSide = true) : s'.epoch = s.epoch := by
  obtain ⟨m, steps⟩ := newly.steps
  rw [steps.epoch]
  cases its : op.mutation with
  | clearTenure authGeneration =>
    rw [its] at side
    rcases side with never | never <;> cases never
  | updatePreferences publicPart => rfl
  | updateConsent consent scopes ids => rfl
  | replaceAuth authGeneration authEnvelope publicPart => rfl
  | advanceMigration domain payload => rfl

/-- The fields the claim of one order over the other is about. -/
structure SameData (s t : CanonicalState) : Prop where
  publicPart : s.publicPart = t.publicPart
  authEnvelope : s.authEnvelope = t.authEnvelope
  authGeneration : s.authGeneration = t.authGeneration
  status : s.status = t.status
  epoch : s.epoch = t.epoch
  migrations : s.migrations = t.migrations

theorem sameData_of_views {t : CanonicalState} (session : s.sessionView = t.sessionView)
    (consent : s.consentView = t.consentView) (epoch : s.epoch = t.epoch) : SameData s t := by
  obtain ⟨preferences, clientId, profile, pins, recents, extensions, envelope, generation, status, migration⟩ :=
    SessionView.mk.inj session
  obtain ⟨consented, scopes, ids, consent_migration⟩ := ConsentView.mk.inj consent
  exact ⟨PublicPayload.ext preferences clientId profile pins recents consented scopes ids extensions, envelope,
    generation, status, epoch, Migrations.ext migration consent_migration⟩

end

section

/-- Neither domain overwrites the other. A session operation and a consent operation, newly
applied in either order, end in the same data; each leaves what the other owns. -/
theorem session_and_consent_apart :
    (∀ (s s₁ s₂ t₁ t₂ : CanonicalState) (session session' consent consent' : Operation) (r₁ r₂ r₃ r₄ : Applied),
      session.mutation.sessionSide = true → consent.mutation.consentSide = true →
      session'.mutation = session.mutation → consent'.mutation = consent.mutation →
      NewlyApplied s session s₁ r₁ → NewlyApplied s₁ consent s₂ r₂ →
      NewlyApplied s consent' t₁ r₃ → NewlyApplied t₁ session' t₂ r₄ →
      SameData s₂ t₂) ∧
    (∀ (s s' : CanonicalState) (op : Operation) (r : Applied), op.mutation.sessionSide = true →
      s.applyVerifiedDigest op = .ok (s', r) →
      s'.publicPart.consent = s.publicPart.consent ∧ s'.publicPart.scopes = s.publicPart.scopes ∧
        s'.publicPart.ids = s.publicPart.ids ∧ s'.migrations.consent = s.migrations.consent) ∧
    (∀ (s s' : CanonicalState) (op : Operation) (r : Applied), op.mutation.consentSide = true →
      s.applyVerifiedDigest op = .ok (s', r) →
      s'.publicPart.preferences = s.publicPart.preferences ∧ s'.publicPart.clientId = s.publicPart.clientId ∧
        s'.publicPart.profile = s.publicPart.profile ∧ s'.publicPart.pins = s.publicPart.pins ∧
        s'.publicPart.recents = s.publicPart.recents ∧
        s'.publicPart.accountExtensions = s.publicPart.accountExtensions ∧ s'.authEnvelope = s.authEnvelope ∧
        s'.authGeneration = s.authGeneration ∧ s'.migrations.session = s.migrations.session) := by
  refine ⟨?_, ?_, ?_⟩
  · intro s s₁ s₂ t₁ t₂ session session' consent consent' r₁ r₂ r₃ r₄ left right same_left same_right first second
      second' first'
    have left' : session'.mutation.sessionSide = true := by rw [same_left]; exact left
    have right' : consent'.mutation.consentSide = true := by rw [same_right]; exact right
    obtain ⟨first, -⟩ := first.newly
    obtain ⟨second, -⟩ := second.newly
    obtain ⟨second', -⟩ := second'.newly
    obtain ⟨first', -⟩ := first'.newly
    have acts' := first'.session left'
    have acts := second'.consent right'
    rw [same_left] at acts'
    rw [same_right] at acts
    obtain ⟨sessions, consents⟩ := Parts.orders_agree (first.session left) (second.consent right) acts acts'
    refine sameData_of_views sessions consents ?_
    calc s₂.epoch = s₁.epoch := second.epoch_of_side (.inr right)
      _ = s.epoch := first.epoch_of_side (.inl left)
      _ = t₁.epoch := (second'.epoch_of_side (.inr right')).symm
      _ = t₂.epoch := (first'.epoch_of_side (.inl left')).symm
  · intro s s' op r side succeeds
    rcases applyVerifiedDigest_eq_ok.mp succeeds with ⟨rfl, -⟩ | ⟨newly, -⟩
    · exact ⟨rfl, rfl, rfl, rfl⟩
    · exact ConsentView.mk.inj (newly.session side).keeps
  · intro s s' op r side succeeds
    rcases applyVerifiedDigest_eq_ok.mp succeeds with ⟨rfl, -⟩ | ⟨newly, -⟩
    · exact ⟨rfl, rfl, rfl, rfl, rfl, rfl, rfl, rfl, rfl⟩
    · obtain ⟨preferences, clientId, profile, pins, recents, extensions, envelope, generation, -, migration⟩ :=
        SessionView.mk.inj (newly.consent side).keeps
      exact ⟨preferences, clientId, profile, pins, recents, extensions, envelope, generation, migration⟩

def signedIn : CanonicalState :=
  { sampleState with authEnvelope := some "sealed", migrations := ⟨.completed, ⟨.pending, none⟩⟩ }

def samplePreferences : Operation :=
  ⟨sampleGeneration 10, sampleDigest, ⟨0, sampleGeneration 0⟩,
    .updatePreferences { PublicPayload.default with preferences := .bool true }⟩

theorem session_and_consent_apart_signedIn :
    ∃ s₁ s₂ t₁ t₂ r₁ r₂ r₃ r₄, NewlyApplied signedIn samplePreferences s₁ r₁ ∧ NewlyApplied s₁ sampleConsent s₂ r₂ ∧
      NewlyApplied signedIn sampleConsent t₁ r₃ ∧ NewlyApplied t₁ samplePreferences t₂ r₄ ∧ SameData s₂ t₂ := by
  have one : ∃ first ∈ (signedIn.applyVerifiedDigest samplePreferences).toOption,
      (∀ entry ∈ first.1.operations, entry.id ≠ sampleConsent.id) ∧
      (first.1.applyVerifiedDigest sampleConsent).toOption.isSome = true := by
    decide +kernel
  have other : ∃ first ∈ (signedIn.applyVerifiedDigest sampleConsent).toOption,
      (∀ entry ∈ first.1.operations, entry.id ≠ samplePreferences.id) ∧
      (first.1.applyVerifiedDigest samplePreferences).toOption.isSome = true := by
    decide +kernel
  obtain ⟨⟨s₁, r₁⟩, first, unseen, second⟩ := one
  obtain ⟨⟨s₂, r₂⟩, second⟩ := Option.isSome_iff_exists.mp second
  obtain ⟨⟨t₁, r₃⟩, second', unseen', first'⟩ := other
  obtain ⟨⟨t₂, r₄⟩, first'⟩ := Option.isSome_iff_exists.mp first'
  have a₁ : NewlyApplied signedIn samplePreferences s₁ r₁ := ⟨ok_of_toOption first, nofun⟩
  have b₂ : NewlyApplied s₁ sampleConsent s₂ r₂ := ⟨ok_of_toOption second, unseen⟩
  have b₁ : NewlyApplied signedIn sampleConsent t₁ r₃ := ⟨ok_of_toOption second', nofun⟩
  have a₂ : NewlyApplied t₁ samplePreferences t₂ r₄ := ⟨ok_of_toOption first', unseen'⟩
  exact ⟨s₁, s₂, t₁, t₂, r₁, r₂, r₃, r₄, a₁, b₂, b₁, a₂, session_and_consent_apart.1 signedIn s₁ s₂ t₁ t₂
    samplePreferences samplePreferences sampleConsent sampleConsent r₁ r₂ r₃ r₄ rfl rfl rfl rfl a₁ b₂ b₁ a₂⟩

/-- A full ledger, whose oldest entry is a write of preferences. -/
def fullLedger : List LedgerEntry :=
  (List.range 16).map (fun n =>
    ⟨sampleGeneration (UInt8.ofNat (n + 10)), sampleDigest, ⟨n + 1, 0, sampleGeneration 0⟩, some .publicOnly⟩)

def remembering : CanonicalState := { signedIn with revision := 16, operations := fullLedger }

/-- The replay of the oldest operation changes nothing, unless a consent is stored before
it: that one takes the oldest entry's room, and the replay is applied anew. -/
theorem evicted_replay_overwrites :
    ¬ ∀ (s s₁ s₂ t₁ t₂ : CanonicalState) (session consent : Operation) (r₁ r₂ r₃ r₄ : Applied),
      session.mutation.sessionSide = true → consent.mutation.consentSide = true →
      s.applyVerifiedDigest session = .ok (s₁, r₁) → s₁.applyVerifiedDigest consent = .ok (s₂, r₂) →
      s.applyVerifiedDigest consent = .ok (t₁, r₃) → t₁.applyVerifiedDigest session = .ok (t₂, r₄) →
      SameData s₂ t₂ := by
  intro every
  have stored : ∃ first ∈ (remembering.applyVerifiedDigest sampleConsent).toOption,
      first.1.publicPart.preferences = .null ∧
      (first.1.applyVerifiedDigest samplePreferences).toOption.map (fun last => last.1.publicPart.preferences) =
        some (.bool true) := by
    decide +kernel
  obtain ⟨⟨t₁, r₃⟩, second', before, after⟩ := stored
  obtain ⟨⟨t₂, r₄⟩, first', changed⟩ := Option.map_eq_some_iff.mp after
  have applied := ok_of_toOption second'
  obtain ⟨valid, digest⟩ := applyVerifiedDigest_valid applied
  have replayed : remembering.applyVerifiedDigest samplePreferences =
      .ok (remembering, ⟨1, 0, sampleGeneration 0⟩) := by
    have found : remembering.operations.find? (fun entry => entry.id = samplePreferences.id) =
        some ⟨sampleGeneration 10, sampleDigest, ⟨1, 0, sampleGeneration 0⟩, some .publicOnly⟩ := by
      decide +kernel
    rw [applyVerifiedDigest_found valid (show ValidDigest samplePreferences.digest from digest) found]
    exact if_pos rfl
  have same := every remembering remembering t₁ t₁ t₂ samplePreferences sampleConsent _ _ _ _ rfl rfl replayed applied
    applied (ok_of_toOption first')
  have preferences := congrArg PublicPayload.preferences same.publicPart
  rw [before, changed] at preferences
  cases preferences

end
end PlxNative.Storage
