import PlxNative.Storage.History

/-! Commits of any number of helpers lose no update: every store builds on the state it
replaces, and a commit that is told as such was applied once. -/
namespace PlxNative.Storage
open List Db8
open Service (Task Silent IfDone Stable)

section
variable {flavor : Flavor} {plan : Generation → Option Nat} {α β : Type}

theorem Kept.drew {w : Db8} (kept : Kept flavor plan w) (drawn : List Generation) :
    Kept flavor plan { w with drawn } :=
  ⟨kept.ascending, kept.encoded, kept.moves, kept.recorded, kept.passed, kept.once, kept.waiting⟩

/-- Calls that neither read the object nor put one. -/
def Call.Aside : Call → Prop
  | .load | .put _ _ => False
  | _ => True

theorem silent {c : Call} (aside : c.Aside) : Silent server (pact flavor plan) c := by
  constructor
  · intro w reply u kept served
    cases served with
    | loaded | unreadable | stored | refused | undelivered => exact aside.elim
    | drew fresh => exact ⟨prefix_refl _, kept.drew _⟩
    | drewNothing | sealed | unsealed | unsealedDetailed | housekept => exact ⟨prefix_refl _, kept⟩
  · intro m reply
    cases c with
    | load | put revision state => exact aside.elim
    | random | sealing | unsealing | unsealingDetailed | housekeeping => rfl

theorem quiet_call {c : Call} (aside : c.Aside) :
    (Task.call c .done : Helper (Reply c)).Quiet server (pact flavor plan) (fun _ => True) :=
  ⟨silent aside, fun _ => trivial⟩

theorem quiet_orFail {code : ErrorCode} {x : Option α} :
    (orFail code x).Quiet server (pact flavor plan) (fun a => x = some a) := by
  cases x with
  | none => trivial
  | some a => rfl

theorem quiet_reading {x : Except ErrorCode α} :
    (reading x).Quiet server (pact flavor plan) (fun a => x = .ok a) := by
  cases x with
  | error code => trivial
  | ok a => rfl

theorem quiet_checking {x : Except StateError α} :
    (checking x).Quiet server (pact flavor plan) (fun a => x = .ok a) := by
  cases x with
  | error error => trivial
  | ok a => rfl

theorem quiet_random : random.Quiet server (pact flavor plan) (fun _ => True) :=
  (quiet_call (c := .random) trivial).bind (fun _ _ => quiet_checking.weaken (fun _ _ => trivial))

theorem quiet_housekeep (task : Housekeeping) : (housekeep task).Quiet server (pact flavor plan) (fun _ => True) :=
  quiet_call trivial

theorem quiet_housekeepIf (needed : Bool) (task : Housekeeping) :
    (housekeepIf needed task).Quiet server (pact flavor plan) (fun _ => True) := by
  unfold housekeepIf
  split
  · exact quiet_housekeep task
  · trivial

theorem quiet_removeCreated (name : Option String) :
    (removeCreated name).Quiet server (pact flavor plan) (fun _ => True) := by
  cases name with
  | none => trivial
  | some name => exact quiet_housekeep _

theorem quiet_discardCreated (attempted : Attempted) (id : Generation) (digest : String) (put : PutReply) :
    (discardCreated attempted id digest put).Quiet server (pact flavor plan) (fun _ => True) := by
  unfold discardCreated
  split
  · exact (quiet_removeCreated _).bind (fun _ _ => quiet_housekeep _)
  · trivial

theorem quiet_boundedPlaintext (plaintext : String) :
    (some <$> boundedPlaintext plaintext).Quiet server (pact flavor plan) (fun _ => True) := by
  unfold boundedPlaintext
  split
  · trivial
  · trivial

variable (codec : Codec)

section
variable (s : CanonicalState)
include s

theorem quiet_openAuth : (openAuth codec s).Quiet server (pact flavor plan) (fun _ => True) := by
  unfold openAuth
  split
  · trivial
  · refine quiet_orFail.bind ?_
    intro value _
    split
    · split
      · trivial
      · exact quiet_orFail.bind (fun plaintext _ => quiet_boundedPlaintext plaintext)
    · refine (quiet_call (c := .unsealing _ _ _) trivial).bind ?_
      intro reply _
      exact quiet_reading.bind (fun plaintext _ => quiet_boundedPlaintext plaintext)

theorem quiet_authenticateCurrentAuth :
    (authenticateCurrentAuth codec s).Quiet server (pact flavor plan) (fun _ => True) := by
  refine (quiet_openAuth codec s).bind ?_
  intro opened _
  refine quiet_orFail.bind ?_
  intro plaintext _
  split
  · split
    · trivial
    · trivial
  · trivial

theorem quiet_authenticates :
    (authenticates codec s).Quiet server (pact flavor plan) (fun _ => True) := by
  refine (quiet_authenticateCurrentAuth codec s).attempt.bind ?_
  intro outcome _
  split
  · trivial
  · trivial

theorem quiet_protect (g : Generation) (plaintext : String) (protection : ProtectionRequest)
    (reason : FallbackReason) :
    (protect codec s g plaintext protection reason).Quiet server (pact flavor plan) (fun _ => True) := by
  unfold protect
  split
  · trivial
  · cases protection with
    | keymanagerRequired =>
      refine (quiet_call (c := .sealing _ _ _) trivial).bind ?_
      intro reply _
      cases reply with
      | error failure => trivial
      | ok envelope => trivial
    | keymanagerWithAclFallback =>
      refine (quiet_call (c := .sealing _ _ _) trivial).bind ?_
      intro reply _
      cases reply with
      | error failure => trivial
      | ok envelope => trivial
    | db8AclOnlyExplicit => trivial

/-- A prepared mutation brings new auth exactly when the request has a fresh plaintext. -/
def Prepares (mutation : WireMutation) (prepared : Mutation) : Prop :=
  prepared.verification = if mutation.freshPlaintext.isSome then .auth none else .publicOnly

theorem quiet_prepare (mutation : WireMutation) :
    (prepare codec s mutation).Quiet server (pact flavor plan) (Prepares mutation) := by
  cases mutation with
  | updatePreferences payload => exact quiet_orFail.bind (fun _ _ => rfl)
  | updateConsent payload => exact quiet_orFail.bind (fun _ _ => rfl)
  | replaceAuth publicPart payload protection =>
    refine quiet_orFail.bind (fun _ _ => ?_)
    refine quiet_random.bind (fun _ _ => ?_)
    exact (quiet_protect codec _ _ _ _ _).bind (fun _ _ => rfl)
  | clearTenure => exact quiet_random.bind (fun _ _ => rfl)
  | advanceMigration migration =>
    cases migration with
    | sessionPending opaqueEnvelope => exact rfl
    | sessionComplete publicPart authPlaintext protection =>
      refine quiet_orFail.bind (fun _ _ => ?_)
      split
      · trivial
      · refine quiet_random.bind (fun _ _ => ?_)
        exact (quiet_protect codec _ _ _ _ _).bind (fun _ _ => rfl)
    | consentComplete consent => exact quiet_orFail.bind (fun _ _ => rfl)
    | completeEmpty domain => exact rfl

theorem quiet_stagedFailure (expected : String) :
    (stagedFailure codec s expected).Quiet server (pact flavor plan) (fun _ => True) := by
  refine quiet_orFail.bind (fun _ _ => ?_)
  refine (quiet_call (c := .unsealingDetailed _ _ _ _) trivial).bind ?_
  intro reply _
  cases reply with
  | error failure => trivial
  | ok opened =>
    dsimp only
    split
    · trivial
    · trivial

theorem quiet_readbackFailure (expected : String) :
    (readbackFailure codec s expected).Quiet server (pact flavor plan) (fun _ => True) := by
  refine quiet_orFail.bind (fun _ _ => ?_)
  refine (quiet_call (c := .unsealingDetailed _ _ _ _) trivial).bind ?_
  intro reply _
  cases reply with
  | error failure => trivial
  | ok opened =>
    dsimp only
    split
    · trivial
    · trivial

theorem quiet_replayAuthenticates (applied : Applied) (mutation : WireMutation) :
    (replayAuthenticates codec s applied mutation).Quiet server (pact flavor plan) (fun _ => True) := by
  unfold replayAuthenticates
  split
  · trivial
  · refine (quiet_authenticateCurrentAuth codec s).attempt.bind ?_
    intro outcome _
    split
    · trivial
    · trivial

end

end

section
variable {flavor : Flavor} {plan : Generation → Option Nat} {α : Type} {m : Memory} {w : Db8}
  {Q : Memory → Except Fault α → Db8 → Prop}

def Db8.found (w : Db8) : Option (Nat × CanonicalState) := w.object.map (fun stored => (stored.rev, stored.state))

theorem Db8.mem_of_found {rev : Nat} {s : CanonicalState} (found : w.found = some (rev, s)) : ⟨rev, s⟩ ∈ w.history := by
  obtain ⟨stored, object, eq⟩ := Option.map_eq_some_iff.mp found
  cases eq
  exact List.mem_of_getLast? object

theorem ensures_getObject {f : Except ErrorCode (Option (Nat × CanonicalState)) → Helper α}
    (found : ∀ u, w.history <+: u.history → Kept flavor plan u →
      (f (.ok u.found)).Ensures server (pact flavor plan) Q { m with read := u.found } u)
    (failed : ∀ u code, w.history <+: u.history → Kept flavor plan u →
      (f (.error code)).Ensures server (pact flavor plan) Q m u) :
    (getObject >>= f).Ensures server (pact flavor plan) Q m w := by
  intro u grows kept reply v served
  cases served with
  | loaded => exact ⟨prefix_refl _, kept, found u grows kept⟩
  | unreadable code => exact ⟨prefix_refl _, kept, failed u code grows kept⟩

theorem ensures_load {f : Option (Nat × CanonicalState) → Helper α} {V : Memory → α → Db8 → Prop}
    (found : ∀ u, w.history <+: u.history → Kept flavor plan u →
      (f u.found).Ensures server (pact flavor plan) (IfDone V) { m with read := u.found } u) :
    (load >>= f).Ensures server (pact flavor plan) (IfDone V) m w := by
  refine Task.Ensures.bind (ensures_getObject ?_ ?_)
  · intro u grows kept
    exact found u grows kept
  · intro u code grows kept
    trivial

variable {revision : Option Nat}

theorem ensures_putObject {f : PutReply → Helper α} {s s' : CanonicalState}
    (held : Held flavor w revision s) (licensed : Licensed plan s revision s') (encoded : s'.encode = .ok ())
    (next : ∀ reply u, w.history <+: u.history → Kept flavor plan u →
      (f reply).Ensures server (pact flavor plan) Q { m with put := some s' } u) :
    (putObject revision s' >>= f).Ensures server (pact flavor plan) Q m w := by
  intro u grows kept reply v served
  cases served with
  | stored reply current newer =>
    rename_i rev
    have grown := prefix_append u.history [⟨rev, s'⟩]
    have kept' := kept.put (held.grows grows) licensed encoded current newer
    exact ⟨grown, kept', next reply _ (grows.trans grown) kept'⟩
  | refused reply stale => exact ⟨prefix_refl _, kept, next reply u grows kept⟩
  | undelivered => exact ⟨prefix_refl _, kept, next .lost u grows kept⟩

theorem ensures_putState {f : Except Fault PutReply → Helper α} {s s' : CanonicalState}
    (held : Held flavor w revision s) (licensed : Licensed plan s revision s')
    (next : s'.encode = .ok () → ∀ reply u, w.history <+: u.history → Kept flavor plan u →
      (f (.ok reply)).Ensures server (pact flavor plan) Q { m with put := some s' } u)
    (failed : s'.encode ≠ .ok () → ∀ fault, (f (.error fault)).Ensures server (pact flavor plan) Q m w) :
    ((putState revision s').attempt >>= f).Ensures server (pact flavor plan) Q m w := by
  unfold putState
  cases encoded : s'.encode with
  | error error => exact failed (by rw [encoded]; nofun) _
  | ok u => exact ensures_putObject (f := fun reply => f (.ok reply)) held licensed encoded (next encoded)

end

section

/-- A receipt of the operation is in some stored state. -/
def Recorded (w : Db8) (id : Generation) (digest : String) : Prop :=
  ∃ stored ∈ w.history, (id, digest) ∈ stored.state.keys

/-- The state in the answer is the one put last, read back. -/
def ReadBack (m : Memory) (dbRev : Option String) (state : Option Json.Value) : Prop :=
  ∃ rev s, m.put = some s ∧ m.read = some (rev, s) ∧ dbRev = some (toString rev) ∧ state = some s.toValue

/-- What an answer that tells of an application rests on. -/
def Vouched (id : Generation) (digest : String) (m : Memory) (response : Response) (w : Db8) : Prop :=
  match response with
  | .commit .committed dbRev state _ verified _ => Recorded w id digest ∧ (verified = true → ReadBack m dbRev state)
  | .reconcile .applied _ _ _ => Recorded w id digest
  | _ => True

variable {id : Generation} {digest : String}

theorem Recorded.grows {w u : Db8} (recorded : Recorded w id digest)
    (grows : w.history <+: u.history) : Recorded u id digest := by
  obtain ⟨stored, mem, listed⟩ := recorded
  exact ⟨stored, grows.subset mem, listed⟩

theorem Vouched.grows {w u : Db8} {m : Memory} {response : Response}
    (vouched : Vouched id digest m response w) (grows : w.history <+: u.history) : Vouched id digest m response u := by
  unfold Vouched at *
  split
  · exact ⟨vouched.1.grows grows, vouched.2⟩
  · exact vouched.grows grows
  · trivial

theorem vouched_receipt {w : Db8} {m : Memory} {status : CommitStatus} {rev : Option Nat}
    (other : status ≠ .committed) : Vouched id digest m (receipt status rev) w := by
  cases status with
  | committed => exact absurd rfl other
  | conflict | invalid | unavailable => trivial

end

section
variable {flavor : Flavor} {plan : Generation → Option Nat} {m : Memory} {w : Db8} (codec : Codec)
  {id : Generation} {digest : String} {rev : Nat}

variable {s : CanonicalState}
variable {verified : Bool}

theorem vouched_committed (applied : Applied) (recorded : Recorded w id digest)
    (eq : verified = true → m.put = some s ∧ m.read = some (rev, s)) :
    Vouched id digest m (committed codec rev s applied verified) w :=
  ⟨recorded, fun verified => ⟨rev, s, (eq verified).1, (eq verified).2, rfl, rfl⟩⟩

theorem Recorded.of_found (found : w.found = some (rev, s)) (listed : (id, digest) ∈ s.keys) :
    Recorded w id digest := ⟨⟨rev, s⟩, mem_of_found found, listed⟩

theorem Advanced.listed {s s' : CanonicalState} {op : Operation} (advanced : Advanced s op s') :
    (op.id, op.digest) ∈ s'.keys := List.mem_of_getLast? advanced.last

variable {pending : PendingAuth}

variable {applied : Applied}

theorem confirmPromotion_ensures {staged candidate : CanonicalState}
    (advanced : Advanced staged pending.operation candidate) (put : candidate.encode = .ok () → m.put = some candidate) :
    (confirmPromotion codec staged pending candidate applied).Ensures server (pact flavor plan)
      (IfDone (Vouched pending.operation.id pending.operation.digest)) m w := by
  refine ensures_getObject ?_ ?_
  · intro u grows kept
    cases found : u.found with
    | none => trivial
    | some stored =>
      dsimp only
      split
      · rename_i eq
        subst eq
        have encoded := kept.encoded _ (mem_of_found found)
        refine (quiet_housekeep _).then kept ?_
        intro _ u' grows' kept' _
        refine (quiet_housekeep _).then kept' ?_
        intro _ v later kept'' _
        have recorded := (Recorded.of_found found advanced.listed).grows (grows'.trans later)
        exact vouched_committed codec applied recorded (fun _ => ⟨put encoded, rfl⟩)
      · trivial
  · intro u code grows kept
    trivial

theorem finishPending_ensures {staged : CanonicalState} (kept : Kept flavor plan w)
    (held : ⟨rev, staged⟩ ∈ w.history) (waits : staged.pendingAuth = some pending) :
    (finishPending codec rev staged).Ensures server (pact flavor plan)
      (IfDone (Vouched pending.operation.id pending.operation.digest)) m w := by
  refine quiet_orFail.then kept ?_
  intro held_pending u grows kept found
  cases waits.symm.trans found
  have held := grows.subset held
  refine quiet_checking.then kept ?_
  intro prepared u' grows kept prepared_ok
  have held := grows.subset held
  refine quiet_orFail.then kept ?_
  rintro ⟨candidate, applied⟩ u grows kept rfl
  have held := grows.subset held
  have promoted : Promoted staged pending.operation candidate := ⟨pending, applied, waits, rfl, prepared_ok⟩
  have advanced := promoted.advanced
  refine (quiet_stagedFailure codec candidate _).then kept ?_
  intro failure u grows kept _
  have held := grows.subset held
  cases failure with
  | some failure => trivial
  | none =>
    refine ensures_putState (s := staged) held (.promoted _ promoted) ?_ ?_
    · intro encoded reply v grows kept
      exact confirmPromotion_ensures codec advanced (fun _ => rfl)
    · intro fails fault
      exact confirmPromotion_ensures codec advanced (fun encoded => absurd encoded fails)

theorem resumeStaged_ensures {prior active : CanonicalState} (pending : PendingAuth)
    (waits : active.pendingAuth = some pending) :
    (resumeStaged codec prior active).Ensures server (pact flavor plan)
      (IfDone (Vouched pending.operation.id pending.operation.digest)) m w := by
  refine ensures_getObject ?_ ?_
  · intro u grows kept
    cases found : u.found with
    | none => trivial
    | some stored =>
      dsimp only
      split
      · rename_i eq
        subst eq
        refine (quiet_housekeep _).then kept ?_
        intro _ v later kept _
        exact finishPending_ensures codec kept (later.subset (mem_of_found found)) waits
      · trivial
  · intro u code grows kept
    trivial

variable {revision : Option Nat} {plaintext : String}

theorem stageStrict_ensures {active : CanonicalState} (operation : Operation)
    (kept : Kept flavor plan w) (held : Held flavor w revision active) (enters : plan operation.id = revision) :
    (stageStrict codec revision active operation plaintext).Ensures server (pact flavor plan)
      (IfDone (Vouched operation.id operation.digest)) m w := by
  refine quiet_orFail.then kept ?_
  intro name u grows kept _
  have held := held.grows grows
  dsimp only
  split
  · refine (quiet_housekeep _).then kept ?_
    intro _ _ _ _ _
    trivial
  · refine ensures_putState held (.staged _ rfl enters) ?_ ?_
    · intro _ reply v _ kept
      refine (quiet_housekeepIf _ _).then kept ?_
      intro _ _ _ _ _
      exact resumeStaged_ensures codec ⟨operation, plaintextDigest codec plaintext⟩ rfl
    · intro fails
      rename_i encoded
      exact absurd encoded fails

variable {actual : CanonicalState}

theorem retryReadbackAcl_ensures
    {failure : KeymanagerFailure} {reason : FallbackReason} (kept : Kept flavor plan w) (held : ⟨rev, actual⟩ ∈ w.history)
    (listed : (id, digest) ∈ actual.keys) :
    (retryReadbackAcl codec rev actual applied plaintext failure reason id digest).Ensures server (pact flavor plan)
      (IfDone (Vouched id digest)) m w := by
  unfold retryReadbackAcl
  refine quiet_checking.then kept ?_
  intro _ u grows kept encoded
  have held : Held flavor u (some rev) actual := grows.subset held
  refine ensures_putObject held (.repaired _ rfl) encoded ?_
  intro reply v grows kept
  refine ensures_getObject ?_ ?_
  · intro u grows kept
    cases found : u.found with
    | none => trivial
    | some stored =>
      obtain ⟨revision, current⟩ := stored
      dsimp only
      split
      · rename_i eq
        refine (quiet_openAuth codec current).then kept ?_
        intro opened u₁ grows₁ kept₁ _
        split
        · refine (quiet_housekeep _).then kept₁ ?_
          intro _ u₂ grows₂ kept₂ _
          refine (quiet_housekeep _).then kept₂ ?_
          intro _ u₃ grows₃ kept₃ _
          have listed' : (id, digest) ∈ current.keys := by
            rw [eq]
            exact listed
          have recorded := (Recorded.of_found found listed').grows ((grows₁.trans grows₂).trans grows₃)
          exact vouched_committed codec applied recorded (fun _ => ⟨by rw [eq], rfl⟩)
        · trivial
      · refine vouched_receipt ?_
        split
        · nofun
        · nofun
  · intro u code grows kept
    trivial

variable {attempted : Attempted}

theorem confirm_ensures {original : Applied} (kept : Kept flavor plan w) (recorded : Recorded w id digest)
    (eq : verified = true → m.put = some actual ∧ m.read = some (rev, actual)) :
    (confirm codec attempted id digest rev actual original verified).Ensures server (pact flavor plan)
      (IfDone (Vouched id digest)) m w := by
  have checks : (if !verified && attempted.mutation.freshPlaintext.isSome then not <$> authenticates codec actual
      else return false : Helper Bool).Quiet server (pact flavor plan) (fun _ => True) := by
    split
    · exact (quiet_authenticates codec actual).bind (fun _ _ => trivial)
    · trivial
  refine checks.then kept ?_
  intro refused u grows kept _
  split
  · trivial
  · refine (quiet_housekeep _).then kept ?_
    intro _ u₁ grows₁ kept₁ _
    refine (quiet_housekeepIf _ _).then kept₁ ?_
    intro _ u₂ grows₂ kept₂ _
    exact vouched_committed codec original (recorded.grows ((grows.trans grows₁).trans grows₂)) eq

theorem listed_of_status (status : s.operationStatus id digest = .ok (.applied applied)) :
    (id, digest) ∈ s.keys := by
  obtain ⟨-, -, ⟨entry, found, eq, -⟩ | ⟨-, other⟩⟩ := operationStatus_eq_ok.mp status
  · refine mem_keys.mpr ⟨entry, List.mem_of_find?_eq_some found, ?_, eq⟩
    simpa using List.find?_some found
  · cases other

theorem readBack_ensures (put : m.put = some attempted.next) :
    (readBack codec attempted id digest).Ensures server (pact flavor plan) (IfDone (Vouched id digest)) m w := by
  refine ensures_getObject ?_ ?_
  · intro u grows kept
    cases found : u.found with
    | none => trivial
    | some stored =>
      obtain ⟨rev, actual⟩ := stored
      have held := mem_of_found found
      refine quiet_checking.then kept ?_
      intro status u₁ grows₁ kept₁ its
      cases status with
      | unknown =>
        refine vouched_receipt ?_
        split
        · nofun
        · nofun
      | applied original =>
        have listed := listed_of_status its
        have held := grows₁.subset held
        have recorded : Recorded u₁ id digest := ⟨⟨rev, actual⟩, held, listed⟩
        have eq : decide (actual = attempted.next ∧ original = attempted.applied) = true →
            m.put = some actual ∧ some (rev, actual) = some (rev, actual) := by
          intro verified
          rw [(of_decide_eq_true verified).1]
          exact ⟨put, rfl⟩
        dsimp only
        split
        · rename_i checked
          have exact_candidate := eq (Bool.and_eq_true_iff.mp checked).1
          split
          · refine quiet_orFail.then kept₁ ?_
            intro expected u₂ grows₂ kept₂ _
            refine (quiet_readbackFailure codec actual expected).then kept₂ ?_
            intro failure u₃ grows₃ kept₃ _
            have later := grows₂.trans grows₃
            cases failure with
            | some failure => exact retryReadbackAcl_ensures codec kept₃ (later.subset held) listed
            | none => exact confirm_ensures codec kept₃ (recorded.grows later) (fun _ => exact_candidate)
          · refine (quiet_openAuth codec actual).attempt.then kept₁ ?_
            intro opened u₂ grows₂ kept₂ _
            have recorded := recorded.grows grows₂
            split
            · split
              · exact confirm_ensures codec kept₂ recorded (fun _ => exact_candidate)
              · trivial
            · exact confirm_ensures codec kept₂ recorded (fun _ => exact_candidate)
            · trivial
            · exact confirm_ensures codec kept₂ recorded (fun other => by cases other)
        · exact confirm_ensures codec kept₁ recorded eq
  · intro u code grows kept
    trivial

theorem putCandidate_ensures (kept : Kept flavor plan w)
    (held : Held flavor w attempted.revision attempted.prior)
    (licensed : Licensed plan attempted.prior attempted.revision attempted.next) :
    (putCandidate codec attempted id digest).Ensures server (pact flavor plan) (IfDone (Vouched id digest)) m w := by
  unfold putCandidate
  split
  · refine (quiet_removeCreated _).then kept ?_
    intro _ _ _ _ _
    trivial
  · rename_i encoded
    refine (quiet_housekeep _).then kept ?_
    intro _ u grows kept _
    refine ensures_putObject (held.grows grows) licensed encoded ?_
    intro reply u₁ grows₁ kept₁
    refine (quiet_discardCreated _ _ _ _).then kept₁ ?_
    intro _ u₂ grows₂ kept₂ _
    exact readBack_ensures codec rfl

theorem quiet_notePlaintext {next : CanonicalState} {plaintext : Option String} :
    (notePlaintext codec next plaintext).Quiet server (pact flavor plan) (fun noted =>
      if plaintext.isSome then ∃ digest, next.withPlaintext digest = .ok noted else noted = next) := by
  cases plaintext with
  | none => rfl
  | some plaintext =>
    unfold notePlaintext
    dsimp only
    cases its : next.withPlaintext (plaintextDigest codec plaintext) with
    | error error => trivial
    | ok noted => exact ⟨_, its⟩

variable {mutation : WireMutation}

theorem Prepares.noted {prepared : Mutation} {next noted : CanonicalState} {expected : Expected}
    (prepares : Prepares mutation prepared)
    (notes : if mutation.freshPlaintext.isSome then ∃ digest, next.withPlaintext digest = .ok noted else noted = next) :
    Noted ⟨id, digest, expected, prepared⟩ next noted := by
  unfold Noted
  rw [prepares]
  split at notes
  · rename_i fresh
    rw [if_pos fresh]
    exact notes
  · rename_i stale
    rw [if_neg stale]
    exact notes

theorem commitNew_ensures (kept : Kept flavor plan w)
    (held : Held flavor w revision s) (enters : plan id = revision) (unseen : ∀ entry ∈ s.operations, entry.id ≠ id) :
    (commitNew codec revision s id digest mutation).Ensures server (pact flavor plan) (IfDone (Vouched id digest)) m w := by
  refine (quiet_prepare codec s mutation).then kept ?_
  intro prepared u grows kept prepares
  have held := held.grows grows
  dsimp only
  split
  · refine (quiet_removeCreated _).then kept ?_
    intro _ _ _ _ _
    split
    · trivial
    · trivial
  · rename_i next applied its
    refine (quiet_notePlaintext codec).then kept ?_
    intro noted u₁ grows₁ kept₁ notes
    have held := held.grows grows₁
    split
    · refine quiet_orFail.then kept₁ ?_
      intro plaintext u₂ grows₂ kept₂ _
      exact stageStrict_ensures codec ⟨id, digest, s.expected, prepared⟩ kept₂ (held.grows grows₂) enters
    · have newly : NewlyApplied s ⟨id, digest, s.expected, prepared⟩ next applied := ⟨its, unseen⟩
      exact putCandidate_ensures codec kept₁ held (.applied _ ⟨next, applied, newly, prepares.noted notes⟩ enters)

/-- The loaded state does not know the operation, or the answer is vouched for. -/
def Known (id : Generation) (digest : String) (s : CanonicalState) (m : Memory) (known : Option Response) (w : Db8) : Prop :=
  match known with
  | some response => Vouched id digest m response w
  | none => ∀ entry ∈ s.operations, entry.id ≠ id

theorem pendingFor_eq_some (found : s.pendingFor id = some pending) :
    s.pendingAuth = some pending ∧ pending.operation.id = id := by
  obtain ⟨held, eq⟩ := Option.filter_eq_some_iff.mp found
  exact ⟨held, of_decide_eq_true eq⟩

theorem commitKnown_ensures (kept : Kept flavor plan w)
    (held : ⟨rev, s⟩ ∈ w.history) :
    (commitKnown codec rev s id digest mutation).Ensures server (pact flavor plan) (IfDone (Known id digest s)) m w := by
  unfold commitKnown
  split
  · rename_i pending found
    obtain ⟨waits, rfl⟩ := pendingFor_eq_some found
    split
    · trivial
    · rename_i eq
      cases not_not.mp eq
      refine (finishPending_ensures codec kept held waits).then kept ?_
      intro _ response u _ _ vouched
      exact vouched
  · refine quiet_checking.then kept ?_
    intro status u grows kept its
    cases status with
    | unknown =>
      obtain ⟨-, -, ⟨entry, -, -, other⟩ | ⟨unseen, -⟩⟩ := operationStatus_eq_ok.mp its
      · cases other
      · exact unseen
    | applied applied =>
      have recorded : Recorded u id digest := ⟨⟨rev, s⟩, grows.subset held, listed_of_status its⟩
      refine (quiet_replayAuthenticates codec s applied mutation).then kept ?_
      intro authenticated u₁ grows₁ kept₁ _
      split
      · refine (quiet_housekeep _).then kept₁ ?_
        intro _ u₂ grows₂ kept₂ _
        exact vouched_committed codec applied (recorded.grows (grows₁.trans grows₂)) (fun other => by cases other)
      · trivial

/-- The revision a request wants its operation applied at. -/
def Expectation.revision? : Expectation → Option (Option Nat)
  | .missing => some none
  | .present dbRev _ _ => (exactRevision dbRev).toOption.map some

/-- What a new operation is applied at: nothing stored, or the state that was loaded. -/
def Expects (flavor : Flavor) (expected : Expectation) (loaded : Option (Nat × CanonicalState))
    (result : Option (Option Nat × CanonicalState)) : Prop :=
  ∀ revision s, result = some (revision, s) → expected.revision? = some revision ∧
    match revision with
    | none => loaded = none ∧ ∃ g, s = CanonicalState.new flavor g
    | some rev => loaded = some (rev, s)

variable {expected : Expectation} {loaded : Option (Nat × CanonicalState)}

theorem quiet_expectedState :
    (expectedState flavor expected loaded).Quiet server (pact flavor plan) (Expects flavor expected loaded) := by
  have conflict : Expects flavor expected loaded none := by
    intro revision s eq
    cases eq
  unfold expectedState
  split
  · refine quiet_random.bind ?_
    intro g _ revision s eq
    cases eq
    exact ⟨rfl, rfl, g, rfl⟩
  · refine quiet_reading.bind ?_
    intro value is_value
    split
    · rename_i eq
      subst eq
      refine quiet_reading.bind ?_
      intro tenure _
      split
      · refine quiet_reading.bind ?_
        intro g _
        split
        · intro revision s' eq
          cases eq
          exact ⟨by simp [Expectation.revision?, is_value, Except.toOption], rfl⟩
        · exact conflict
      · exact conflict
    · exact conflict
  · exact conflict

/-- The loaded object holds no receipt of the operation. -/
def UnseenIn (id : Generation) (loaded : Option (Nat × CanonicalState)) : Prop :=
  ∀ rev s, loaded = some (rev, s) → ∀ entry ∈ s.operations, entry.id ≠ id

theorem commitUnknown_ensures
    (kept : Kept flavor plan w) (held : ∀ rev s, loaded = some (rev, s) → ⟨rev, s⟩ ∈ w.history) (unseen : UnseenIn id loaded)
    (enters : ∀ revision, expected.revision? = some revision → plan id = revision) :
    (commitUnknown codec flavor expected loaded id digest mutation).Ensures server (pact flavor plan)
      (IfDone (Vouched id digest)) m w := by
  refine quiet_expectedState.then kept ?_
  intro result u grows kept expects
  cases result with
  | none => trivial
  | some result =>
    obtain ⟨revision, s⟩ := result
    obtain ⟨wanted, base⟩ := expects revision s rfl
    cases revision with
    | none =>
      obtain ⟨-, g, rfl⟩ := base
      have empty : ∀ entry ∈ (CanonicalState.new flavor g).operations, entry.id ≠ id := by
        intro entry mem
        cases mem
      exact commitNew_ensures codec kept ⟨g, rfl⟩ (enters none wanted) empty
    | some rev =>
      have held : Held flavor u (some rev) s := grows.subset (held rev s base)
      exact commitNew_ensures codec kept held (enters (some rev) wanted) (unseen rev s base)

variable {operationId : String}

section
variable (kept : Kept flavor plan w)
include kept

theorem commit_ensures
    (named : generation operationId = .ok id) (enters : ∀ revision, expected.revision? = some revision → plan id = revision) :
    (commit codec flavor expected operationId digest mutation).Ensures server (pact flavor plan)
      (IfDone (Vouched id digest)) m w := by
  refine quiet_reading.then kept ?_
  intro read_id u grows kept its
  cases named.symm.trans its
  refine ensures_load ?_
  intro u₁ grows₁ kept₁
  cases found : u₁.found with
  | none =>
    refine commitUnknown_ensures codec kept₁ ?_ ?_ enters
    · intro rev s other
      cases other
    · intro rev s other
      cases other
  | some stored =>
    have held := mem_of_found found
    refine (commitKnown_ensures codec kept₁ held).then kept₁ ?_
    intro m' known v later kept_v knows
    cases known with
    | some response => exact knows
    | none =>
      refine commitUnknown_ensures codec kept_v ?_ ?_ enters
      · intro rev' s' eq
        cases eq
        exact later.subset held
      · intro rev' s' eq
        cases eq
        exact knows

theorem reconcilePending_ensures
    (held : ⟨rev, s⟩ ∈ w.history) (waits : s.pendingAuth = some pending) :
    (reconcilePending codec rev s).Ensures server (pact flavor plan)
      (IfDone (Vouched pending.operation.id pending.operation.digest)) m w := by
  refine (finishPending_ensures codec kept held waits).then kept ?_
  intro m' response u _ _ vouched
  split
  · exact vouched.1
  · trivial
  · trivial

theorem reconcileKnown_ensures (held : ⟨rev, s⟩ ∈ w.history) :
    (reconcileKnown codec rev s id digest).Ensures server (pact flavor plan) (IfDone (Vouched id digest)) m w := by
  have locks : (if s.replayNeedsAuth id then not <$> authenticates codec s else return false : Helper Bool).Quiet server
      (pact flavor plan) (fun _ => True) := by
    split
    · exact (quiet_authenticates codec s).bind (fun _ _ => trivial)
    · trivial
  refine quiet_checking.then kept ?_
  intro status u grows kept its
  cases status with
  | unknown => trivial
  | applied applied =>
    have recorded : Recorded u id digest := ⟨⟨rev, s⟩, grows.subset held, listed_of_status its⟩
    refine locks.then kept ?_
    intro locked u₁ grows₁ kept₁ _
    split
    · trivial
    · refine (quiet_housekeep _).then kept₁ ?_
      intro _ u₂ grows₂ kept₂ _
      exact recorded.grows (grows₁.trans grows₂)

theorem reconcile_ensures (named : generation operationId = .ok id) :
    (reconcile codec operationId digest).Ensures server (pact flavor plan) (IfDone (Vouched id digest)) m w := by
  refine quiet_reading.then kept ?_
  intro read_id u grows kept its
  cases named.symm.trans its
  refine ensures_load ?_
  intro u₁ grows₁ kept₁
  cases found : u₁.found with
  | none => trivial
  | some stored =>
    have held := mem_of_found found
    dsimp only
    split
    · rename_i pending found
      obtain ⟨waits, rfl⟩ := pendingFor_eq_some found
      split
      · trivial
      · rename_i eq
        cases not_not.mp eq
        exact reconcilePending_ensures codec kept₁ held waits
    · exact reconcileKnown_ensures codec kept₁ held

end

def Request.operation? : Request → Option (String × String)
  | .commit _ operationId digest _ => some (operationId, digest)
  | .reconcile operationId digest => some (operationId, digest)
  | _ => none

/-- The answer tells that the operation is applied. -/
def Response.TellsApplied : Response → Prop
  | .commit .committed _ _ _ _ _ => True
  | .reconcile .applied _ _ _ => True
  | _ => False

def Told (request : Request) (m : Memory) (response : Response) (w : Db8) : Prop :=
  ∀ operationId digest, request.operation? = some (operationId, digest) → response.TellsApplied →
    ∃ id, generation operationId = .ok id ∧ Vouched id digest m response w

/-- The revision the plan has for the operation of a request. -/
def Admitted (plan : Generation → Option Nat) : Request → Prop
  | .commit expected operationId _ _ => ∀ id revision, generation operationId = .ok id →
      expected.revision? = some revision → plan id = revision
  | _ => True

variable {request : Request}
variable {response : Response} {u : Db8}

theorem Vouched.told
    (about : request.operation? = some (operationId, digest)) (named : generation operationId = .ok id)
    (vouched : Vouched id digest m response u) : Told request m response u := by
  intro other other_digest eq _
  cases about.symm.trans eq
  exact ⟨id, named, vouched⟩

theorem loadState_ensures :
    (loadState codec).Ensures server (pact flavor plan) (IfDone (Told .load)) m w := by
  refine ensures_load ?_
  intro u grows kept
  cases u.found with
  | none =>
    intro operationId digest about
    cases about
  | some stored =>
    obtain ⟨rev, s⟩ := stored
    refine Task.Quiet.then (show (_ : Helper AuthLoad).Quiet server (pact flavor plan) (fun _ => True) from ?_) kept ?_
    · split
      · refine (quiet_authenticateCurrentAuth codec s).attempt.bind ?_
        intro outcome _
        split
        · trivial
        · trivial
        · trivial
      · trivial
    · intro auth _ _ _ _ operationId digest about
      cases about

theorem tryDispatch_ensures (kept : Kept flavor plan w) (admitted : Admitted plan request) :
    (tryDispatch codec flavor request).Ensures server (pact flavor plan) (IfDone (Told request)) m w := by
  cases request with
  | hello protocol nonce => trivial
  | load => exact loadState_ensures codec
  | commit expected operationId digest mutation =>
    unfold tryDispatch
    dsimp only
    split
    · trivial
    · cases named : generation operationId with
      | error code =>
        unfold commit
        rw [named]
        trivial
      | ok id =>
        refine (commit_ensures codec kept named (fun revision => admitted id revision named)).weaken ?_ kept
        intro m' outcome u _ _ vouched
        cases outcome with
        | error fault => trivial
        | ok response => exact Vouched.told rfl named vouched
  | reconcile operationId digest =>
    unfold tryDispatch
    dsimp only
    cases named : generation operationId with
    | error code =>
      unfold reconcile
      rw [named]
      trivial
    | ok id =>
      refine (reconcile_ensures codec kept named).weaken ?_ kept
      intro m' outcome u _ _ vouched
      cases outcome with
      | error fault => trivial
      | ok response => exact Vouched.told rfl named vouched

theorem told_nothing (silent : ¬ response.TellsApplied) :
    Told request m response u := fun _ _ _ tells => absurd tells silent

theorem dispatch_ensures (kept : Kept flavor plan w) (admitted : Admitted plan request) :
    (dispatch codec flavor request).Ensures server (pact flavor plan) (IfDone (Told request)) m w := by
  have tried : (if codec.requestSize request > maxFrame then invalid else tryDispatch codec flavor request).Ensures server
      (pact flavor plan) (IfDone (Told request)) m w := by
    split
    · trivial
    · exact tryDispatch_ensures codec kept admitted
  refine Task.Ensures.bind (Task.Ensures.attempt (tried.weaken ?_ kept))
  intro m' outcome u _ _ told
  cases outcome with
  | error fault =>
    cases fault with
    | code code => exact told_nothing id
    | keymanager failure preservation => exact told_nothing id
  | ok response =>
    unfold Service.After
    dsimp only
    split
    · exact told_nothing id
    · exact told

end

theorem told_stable {flavor : Flavor} {plan : Generation → Option Nat} (request : Request) :
    Stable (pact flavor plan) (IfDone (Told request) : Memory → Except Fault Response → Db8 → Prop) := by
  refine IfDone.stable ?_
  intro m response w u grows _ told operationId digest about tells
  obtain ⟨id, named, vouched⟩ := told operationId digest about tells
  exact ⟨id, named, vouched.grows grows⟩

section
variable {flavor : Flavor} {ι : Type} [DecidableEq ι]

/-- Any number of helpers over one register. -/
abbrev Helpers (ι : Type) : Type := Service.System Reply Fault Response Request Memory Db8 ι

/-- The helpers' calls in some order, from an empty register on. -/
def HelpersReached (codec : Codec) (flavor : Flavor) (s : Helpers ι) : Prop :=
  Service.Reached server Memory.none (dispatch codec flavor) Db8.empty s

def Request.commitId? : Request → Option String
  | .commit _ operationId _ _ => some operationId
  | _ => none

/-- Distinct commits have distinct operations. -/
def UniqueIds (asked : List Request) : Prop :=
  ∀ a ∈ asked, ∀ b ∈ asked, ∀ operationId, a.commitId? = some operationId → b.commitId? = some operationId → a = b

/-- Some request has the operation enter at the revision. -/
def Enters (asked : List Request) (id : Generation) (revision : Option Nat) : Prop :=
  ∃ expected operationId digest mutation, Request.commit expected operationId digest mutation ∈ asked ∧
    generation operationId = .ok id ∧ expected.revision? = some revision

variable {asked : List Request} {id : Generation}

theorem Enters.unique {revision other : Option Nat} (unique : UniqueIds asked)
    (enters : Enters asked id revision) (again : Enters asked id other) : revision = other := by
  obtain ⟨expected, operationId, digest, mutation, mem, named, its⟩ := enters
  obtain ⟨expected', operationId', digest', mutation', member', named', its'⟩ := again
  have eq := generation_injective named named'
  subst eq
  have equal := unique _ mem _ member' operationId rfl rfl
  cases equal
  exact Option.some.inj (its.symm.trans its')

open Classical in
/-- The one revision at which the requests have an operation enter. -/
noncomputable def planOf (asked : List Request) (id : Generation) : Option Nat :=
  if entered : ∃ revision, Enters asked id revision then entered.choose else none

theorem planOf_admits (unique : UniqueIds asked) : ∀ request ∈ asked, Admitted (planOf asked) request := by
  intro request mem
  cases request with
  | commit expected operationId digest mutation =>
    intro id revision named its
    have enters : Enters asked id revision := ⟨expected, operationId, digest, mutation, mem, named, its⟩
    have entered : ∃ revision, Enters asked id revision := ⟨revision, enters⟩
    unfold planOf
    rw [dif_pos entered]
    exact entered.choose_spec.unique unique enters
  | hello protocol nonce => trivial
  | load => trivial
  | reconcile operationId digest => trivial

/-- The operation is applied by one store, and by no other. -/
def AppliedOnce (flavor : Flavor) (history : List Stored) (id : Generation) (digest : String) : Prop :=
  ∃ i, AppliesAt flavor history id digest i ∧ ∀ other j, AppliesAt flavor history id other j → j = i

theorem Kept.applied_once {plan : Generation → Option Nat} {w : Db8} {digest : String}
    (kept : Kept flavor plan w) (recorded : Recorded w id digest) : AppliedOnce flavor w.history id digest := by
  obtain ⟨stored, mem, listed⟩ := recorded
  obtain ⟨i, applies⟩ := kept.recorded stored mem id digest listed
  exact ⟨i, applies, fun other j again => kept.once id other digest j i again applies⟩

/-- Commits lose no update, however the calls of the helpers interleave and whatever becomes
of their acknowledgements. Every stored state comes from the one stored before, or from a
new installation's, by one application, one staging, one promotion or one repair. An
operation that is told to be applied was applied exactly once; when the commit is verified,
the state read back was the state put last. -/
theorem commits_lose_no_update (codec : Codec) (flavor : Flavor) (s : Helpers ι) (reached : HelpersReached codec flavor s)
    (unique : UniqueIds s.asked) :
    (∀ i stored, s.world.history[i]? = some stored →
      ∃ base, Base flavor (before s.world.history i) base ∧ Moves base stored.state) ∧
    ∀ answer ∈ s.answers, ∀ response operationId digest, answer.outcome = .ok response →
      answer.request.operation? = some (operationId, digest) → response.TellsApplied →
      ∃ id, generation operationId = .ok id ∧ AppliedOnce flavor s.world.history id digest ∧
        ∀ dbRev state applied protection, response = .commit .committed dbRev state applied true protection →
          ReadBack answer.memory dbRev state := by
  have ensured := Service.Reached.ensured reached told_stable kept_empty
    (fun request member w kept => dispatch_ensures codec kept (planOf_admits unique request member))
  have kept : Kept flavor (planOf s.asked) s.world := ensured.good
  refine ⟨kept.moves, ?_⟩
  intro answer member response operationId digest outcome about tells
  have told := ensured.answers answer member
  rw [outcome] at told
  obtain ⟨id, named, vouched⟩ := told operationId digest about tells
  refine ⟨id, named, ?_, ?_⟩
  · cases response with
    | commit status dbRev state applied verified protection =>
      cases status with
      | committed => exact kept.applied_once vouched.1
      | conflict | invalid | unavailable => exact tells.elim
    | reconcile status dbRev applied protection =>
      cases status with
      | applied => exact kept.applied_once vouched
      | notApplied | unknown | invalid => exact tells.elim
    | loaded | missing | error | keymanagerError => exact tells.elim
  · rintro dbRev state applied protection rfl
    exact vouched.2 rfl

end

section

/-- A store that answers at once, and a keymanager that is not there. -/
def Db8.respond (w : Db8) : (c : Call) → Reply c × Db8
  | .load => (.ok w.found, w)
  | .put revision state =>
    if w.object.map Stored.rev = revision then
      (.accepted, { w with history := w.history ++ [⟨(w.object.map Stored.rev).getD 0 + 1, state⟩] })
    else (.rejected, w)
  | .random =>
    let g := sampleGeneration (UInt8.ofNat w.drawn.length)
    if g ∈ w.drawn then (.error .randomUnavailable, w) else (.ok g, { w with drawn := g :: w.drawn })
  | .sealing _ _ _ => (.error (keymanagerFailure .seal .generate .unavailable), w)
  | .unsealing _ _ _ => (.error .unavailable, w)
  | .unsealingDetailed _ _ _ operation => (.error (keymanagerFailure operation .begin .unavailable), w)
  | .housekeeping _ => ((), w)

theorem Db8.respond_serves (w : Db8) (c : Call) : Serves w c (w.respond c).1 (w.respond c).2 := by
  cases c with
  | load => exact .loaded w
  | put revision state =>
    unfold respond
    dsimp only
    split
    · rename_i current
      refine .stored .accepted current ?_
      intro stored object
      rw [show w.object = some stored from object]
      exact Nat.lt_succ_self _
    · rename_i stale
      exact .refused .rejected stale
  | random =>
    unfold respond
    dsimp only
    split
    · exact .drewNothing w
    · rename_i fresh
      exact .drew fresh
  | sealing keyName plaintext context => exact .sealed w _ _ _ _
  | unsealing keyName envelope context => exact .unsealed w _ _ _ _
  | unsealingDetailed keyName envelope context operation => exact .unsealedDetailed w _ _ _ _ _
  | housekeeping task => exact .housekept w task

def firstDigest : String := "dc75488ce4181c15b3c2f37c9195984775ce2ccbed8ad2353c5e4315f38aa2ff"

def secondDigest : String := "3c6e1fb236f10ede05f25f86a6904f7ae9ce485c7e49a576edd5d43b9d1dd11d"

def firstCommit : Request :=
  .commit .missing "00000000000000000000000000000001" firstDigest
    (.updateConsent (.object [("consent", .null), ("ids", .null), ("scopes", .null)]))

def secondCommit : Request :=
  .commit (.present "1" "0" "00000000000000000000000000000000") "00000000000000000000000000000002" secondDigest
    (.replaceAuth PublicPayload.default.toValue "null" .db8AclOnlyExplicit)

def secondContext : AuthContext := ⟨stateFormat, stateSchema, .stable, 0, sampleGeneration 1⟩

def secondEnvelope : Json.Value :=
  .object [("context", secondContext.toValue), ("format", .string "db8-acl-only-v1"), ("plaintext", .string "null")]

/-- What the two requests have the codec read and write. -/
def sampleCodec : Codec where
  parse := fun text => if text = "null" then some .null else some secondEnvelope
  render := fun value => if value = .null then "null" else
    "\x7b\"context\":\x7b\"auth_generation\":[0,0,0,0,0,0,0,0,0,0,0,0,0,0,0,1],\"epoch\":0,\"flavor\":\"stable\",\"format\":\"plxnative-state\",\"schema\":1\x7d,\"format\":\"db8-acl-only-v1\",\"plaintext\":\"null\"\x7d"
  publicPayload? := fun _ => some .default
  consentPayload? := fun _ => some ⟨.null, .null, .null⟩
  envelope? := fun _ => none
  failure? := fun _ => none
  fallbackContext? := fun _ => none
  digestBytes := fun _ => "74234e98afe7498fb5daf1f36ac2d78acc339464f950703b8c019892f982b90b"
  requestDigest := fun request => if request.commitId? = some "00000000000000000000000000000001" then firstDigest
    else secondDigest
  requestSize := fun _ => 495
  responseSize := fun _ => 4096

def firstState : CanonicalState :=
  { sampleState with
    revision := 1
    migrations := ⟨⟨.pending, none⟩, .completed⟩
    operations := [⟨sampleGeneration 1, firstDigest, ⟨1, 0, sampleGeneration 0⟩, some .publicOnly⟩] }

def secondState : CanonicalState :=
  { firstState with
    revision := 2
    authGeneration := sampleGeneration 1
    authEnvelope := some (sampleCodec.render secondEnvelope)
    migrations := ⟨.completed, .completed⟩
    operations := firstState.operations ++
      [⟨sampleGeneration 2, secondDigest, ⟨2, 0, sampleGeneration 1⟩, some (.auth (some (sampleCodec.digestBytes "null")))⟩] }

def firstStored : Db8 := ⟨[⟨1, firstState⟩], [sampleGeneration 0]⟩

abbrev HelperSession : Type := Service.Session Reply Fault Response Request Memory

/-- A helper alone on a request, for some calls. -/
@[irreducible] def sampleRun (request : Request) (calls : Nat) (w : Db8) : HelperSession × Db8 :=
  (Service.Session.mk request Memory.none (dispatch sampleCodec .stable request)).advance server.track Db8.respond calls w

theorem first_served : ((sampleRun firstCommit 7 Db8.empty).2, (sampleRun firstCommit 7 Db8.empty).1.memory,
    (sampleRun firstCommit 7 Db8.empty).1.rest.outcome?) = (firstStored, ⟨some firstState, some (1, firstState)⟩,
      some (.ok (committed sampleCodec 1 firstState firstState.receipt true))) := by
  decide +kernel

theorem second_put : (sampleRun secondCommit 4 firstStored).2.history = [⟨1, firstState⟩, ⟨2, secondState⟩] := by
  decide +kernel

theorem sampleRun_eq (request : Request) (calls : Nat) (w : Db8) :
    (Service.Session.mk request Memory.none (dispatch sampleCodec .stable request)).advance server.track Db8.respond calls w =
      sampleRun request calls w := by
  rw [sampleRun]

variable {request : Request} {calls : Nat}

theorem served_alone {after : HelperSession × Db8} {m : Memory} {response : Response}
    {w : Db8} (run : sampleRun request calls Db8.empty = after)
    (served : (after.2, after.1.memory, after.1.rest.outcome?) = (w, m, some (.ok response))) :
    HelpersReached sampleCodec .stable (⟨w, fun _ => none, [request], [⟨request, m, .ok response⟩]⟩ : Helpers Nat) := by
  have start : HelpersReached sampleCodec .stable (Service.System.idle Db8.empty : Helpers Nat) := .refl
  exact Service.Reached.alone respond_serves start 0 rfl request calls ((sampleRun_eq request calls Db8.empty).trans run)
    served

/-- The consent alone: told to be applied, and applied once. -/
theorem commits_lose_no_update_first : ∃ s : Helpers Nat, HelpersReached sampleCodec .stable s ∧
    s.world.history = [⟨1, firstState⟩] ∧ ∃ id, generation "00000000000000000000000000000001" = .ok id ∧
      AppliedOnce .stable s.world.history id firstDigest ∧
      ∃ answer ∈ s.answers, ReadBack answer.memory (some "1") (some firstState.toValue) := by
  have reached := served_alone rfl first_served
  have unique : UniqueIds [firstCommit] := by
    intro a ha b hb _ _ _
    rw [mem_singleton.mp ha, mem_singleton.mp hb]
  obtain ⟨-, told⟩ := commits_lose_no_update sampleCodec .stable _ reached unique
  obtain ⟨id, named, once, exact_candidate⟩ := told _ (mem_singleton_self _) _ _ _ rfl rfl trivial
  exact ⟨_, reached, rfl, id, named, once, _, mem_singleton_self _, exact_candidate _ _ _ _ rfl⟩

/-- The steps that would leave the ledger as the transition made it. -/
def PlainMove (s s' : CanonicalState) : Prop :=
  (∃ op r, s.applyVerifiedDigest op = .ok (s', r)) ∨ (∃ pending, s' = { s with pendingAuth := some pending }) ∨
    (∃ r, s.pendingCandidate = .ok (some (s', r))) ∨ ∃ envelope, s' = { s with authEnvelope := envelope }

theorem Mutation.verification_none (mutation : Mutation) (digest : String) :
    mutation.verification ≠ .auth (some digest) := by
  cases mutation with
  | advanceMigration domain payload => cases payload <;> nofun
  | updatePreferences publicPart => nofun
  | updateConsent consent scopes ids => nofun
  | replaceAuth authGeneration authEnvelope publicPart => nofun
  | clearTenure authGeneration => nofun

theorem not_plainMove {s s' : CanonicalState} {entry : LedgerEntry} {digest : String} (settled : s.pendingAuth = none)
    (last : s'.operations.getLast? = some entry) (noted : entry.verification = some (.auth (some digest)))
    (new : s'.operations ≠ s.operations) : ¬ PlainMove s s' := by
  rintro (⟨op, r, applied⟩ | ⟨pending, rfl⟩ | ⟨r, prepared⟩ | ⟨envelope, rfl⟩)
  · rcases applyVerifiedDigest_eq_ok.mp applied with ⟨rfl, -⟩ | ⟨newly, -⟩
    · exact new rfl
    · obtain ⟨m, steps⟩ := newly.steps
      rw [steps.operations, RecentLog.push_getLast? _ _ (by decide)] at last
      cases last
      exact op.mutation.verification_none digest (Option.some.inj noted)
  · exact new rfl
  · unfold CanonicalState.pendingCandidate at prepared
    rw [settled] at prepared
    cases prepared
  · exact new rfl

theorem begun_alone {s : Helpers Nat} {history : List Stored}
    (reached : HelpersReached sampleCodec .stable s) (idle : s.sessions 1 = none)
    (put : (sampleRun request calls s.world).2.history = history) :
    ∃ s' : Helpers Nat, HelpersReached sampleCodec .stable s' ∧ s'.asked = s.asked ++ [request] ∧
      s'.world.history = history := by
  have begun := Service.Reached.begun respond_serves reached 1 idle request calls
  refine ⟨_, begun, rfl, ?_⟩
  rw [← put, ← sampleRun_eq]
  rfl

/-- A sign-in stores more than its transition made: the digest of its plaintext. -/
theorem sign_in_notes_plaintext : ∃ s : Helpers Nat, HelpersReached sampleCodec .stable s ∧ UniqueIds s.asked ∧
    s.world.history = [⟨1, firstState⟩, ⟨2, secondState⟩] ∧ ¬ PlainMove firstState secondState := by
  obtain ⟨s, reached, asked, history⟩ := begun_alone (served_alone rfl first_served) rfl second_put
  refine ⟨s, reached, ?_, history, not_plainMove rfl rfl rfl ?_⟩
  · rw [asked]
    intro a ha b hb operationId its_a its_b
    rcases mem_cons.mp ha with rfl | ha
    · rcases mem_cons.mp hb with rfl | hb
      · rfl
      · rw [mem_singleton.mp hb] at its_b
        cases its_a
        exact absurd its_b (by decide)
    · rw [mem_singleton.mp ha] at its_a ⊢
      rcases mem_cons.mp hb with rfl | hb
      · cases its_b
        exact absurd its_a (by decide)
      · rw [mem_singleton.mp hb]
  · intro same
    exact absurd (congrArg List.length same) (by decide)

end
end PlxNative.Storage
