import PlxNative.Storage.Transition

/-! Replays: an operation the ledger remembers gets its first receipt again, and changes
nothing. -/
namespace PlxNative.Storage
open List RecentLog

section
variable {s s' : CanonicalState} {op : Operation} {r : Applied}

/-- The operation succeeds, and not as a replay. -/
def NewlyApplied (s : CanonicalState) (op : Operation) (s' : CanonicalState) (r : Applied) : Prop :=
  s.applyVerifiedDigest op = .ok (s', r) ∧ ∀ entry ∈ s.operations, entry.id ≠ op.id

theorem NewlyApplied.newly (applied : NewlyApplied s op s' r) : Newly s op s' ∧ r = s'.receipt := by
  rcases applyVerifiedDigest_eq_ok.mp applied.1 with ⟨-, replayed⟩ | newly
  · obtain ⟨entry, found, -⟩ := replayed.remembered
    have eq : entry.id = op.id := by simpa using List.find?_some found
    exact absurd eq (applied.2 entry (List.mem_of_find?_eq_some found))
  · exact newly

def NewRun : CanonicalState → List Operation → CanonicalState → Prop
  | s, [], s' => s' = s
  | s, op :: ops, s' => ∃ t r, NewlyApplied s op t r ∧ NewRun t ops s'

def LeftBy (op : Operation) (entry : LedgerEntry) : Prop := entry.id = op.id ∧ entry.digest = op.digest

variable {ops : List Operation} {entry : LedgerEntry}

theorem left_by_one {entries : List LedgerEntry}
    (left : List.Forall₂ LeftBy ops entries) (mem : entry ∈ entries) : ∃ op ∈ ops, LeftBy op entry := by
  induction left with
  | nil => cases mem
  | cons here _ ih =>
    rcases mem_cons.mp mem with rfl | later
    · exact ⟨_, mem_cons_self .., here⟩
    · obtain ⟨op, there, its⟩ := ih later
      exact ⟨op, mem_cons_of_mem _ there, its⟩

theorem NewRun.operations {history : List LedgerEntry}
    (run : NewRun s ops s') (recent : s.operations = RecentLog.recent ledgerCapacity history) :
    ∃ entries, List.Forall₂ LeftBy ops entries ∧
      s'.operations = RecentLog.recent ledgerCapacity (history ++ entries) := by
  induction ops generalizing s history with
  | nil =>
    cases run
    exact ⟨[], .nil, by rw [append_nil]; exact recent⟩
  | cons op ops ih =>
    obtain ⟨t, r, applied, later⟩ := run
    obtain ⟨m, steps⟩ := applied.newly.1.steps
    have pushed : t.operations = RecentLog.recent ledgerCapacity (history ++ [op.entry t]) := by
      rw [steps.operations, recent]
      exact push_recent (by decide) history (op.entry t)
    obtain ⟨entries, left, last⟩ := ih later pushed
    refine ⟨op.entry t :: entries, .cons ⟨rfl, rfl⟩ left, ?_⟩
    rw [last, append_assoc, singleton_append]

theorem NewRun.valid (run : NewRun s ops s') (valid : s.validate = .ok ()) :
    s'.validate = .ok () := by
  induction ops generalizing s with
  | nil =>
    cases run
    exact valid
  | cons op ops ih =>
    obtain ⟨t, r, applied, later⟩ := run
    exact ih later applied.newly.1.valid_after

theorem find?_of_mem (valid : s.validate = .ok ()) (mem : entry ∈ s.operations) :
    s.operations.find? (fun other => other.id = entry.id) = some entry := by
  have ids := (validate_eq_ok.mp valid).1.entries.ids
  cases found : s.operations.find? (fun other => other.id = entry.id) with
  | none => exact absurd rfl (find?_none_iff.mp found entry mem)
  | some other =>
    have eq : other.id = entry.id := by simpa using List.find?_some found
    have there := List.mem_of_find?_eq_some found
    by_contra differ
    have symm : Std.Symm (fun a b : LedgerEntry => a.id ≠ b.id) := ⟨fun _ _ => Ne.symm⟩
    exact ids.forall there mem (fun equal => differ (congrArg some equal)) eq

theorem applyVerifiedDigest_collision (valid : s.validate = .ok ()) (digest : ValidDigest op.digest)
    (mem : entry ∈ s.operations) (id : entry.id = op.id) (differ : entry.digest ≠ op.digest) :
    s.applyVerifiedDigest op = .error .invalid := by
  have found := find?_of_mem valid mem
  rw [id] at found
  rw [applyVerifiedDigest_found valid digest found, if_neg differ]

/-- An operation newly applied is remembered through fifteen further ones, whatever they
are: its replay gets its own receipt and leaves the state, and its id under another digest
is refused. What the ledger reports as applied was applied. -/
theorem replay_returns_receipt (s s₁ : CanonicalState) (op : Operation) (r : Applied)
    (applied : NewlyApplied s op s₁ r) :
    (∀ ops sₙ, NewRun s₁ ops sₙ → ops.length ≤ ledgerCapacity - 1 →
      sₙ.applyVerifiedDigest op = .ok (sₙ, r) ∧
      ∀ other, other.id = op.id → other.digest ≠ op.digest → ValidDigest other.digest →
        sₙ.applyVerifiedDigest other = .error .invalid) ∧
    (∀ ops sₙ id digest result, NewRun s₁ ops sₙ → sₙ.operationStatus id digest = .ok (.applied result) →
      (∃ entry ∈ s.operations, entry.id = id ∧ entry.digest = digest ∧ entry.result = result) ∨
      ∃ done ∈ op :: ops, done.id = id ∧ done.digest = digest) := by
  obtain ⟨newly, receipt⟩ := applied.newly
  have valid := newly.valid_after
  obtain ⟨m, steps⟩ := newly.steps
  have fits := (validate_eq_ok.mp newly.valid).1.room
  have began : s₁.operations = RecentLog.recent ledgerCapacity (s.operations ++ [op.entry s₁]) := by
    have whole := push_recent (show 0 < ledgerCapacity by decide) s.operations (op.entry s₁)
    rw [recent_of_le fits] at whole
    rw [steps.operations, whole]
  constructor
  · intro ops sₙ run few
    obtain ⟨entries, left, ledger⟩ := run.operations began
    have member : op.entry s₁ ∈ sₙ.operations := by
      rw [ledger, append_assoc, singleton_append]
      refine mem_recent ?_
      rw [← left.length_eq]
      unfold ledgerCapacity at *
      omega
    have still := run.valid valid
    constructor
    · refine applyVerifiedDigest_eq_ok.mpr (.inl ⟨rfl, still, newly.digest, op.entry s₁, ?_, rfl, receipt.symm⟩)
      exact find?_of_mem still member
    · intro other id differ digest
      exact applyVerifiedDigest_collision still digest member id.symm (Ne.symm differ)
  · intro ops sₙ id digest result run reported
    obtain ⟨entries, left, ledger⟩ := run.operations began
    obtain ⟨-, -, known⟩ := operationStatus_eq_ok.mp reported
    rcases known with ⟨entry, found, same, its⟩ | ⟨-, unknown⟩
    · cases its
      have its_id : entry.id = id := by simpa using List.find?_some found
      have there := List.mem_of_find?_eq_some found
      rw [ledger] at there
      have recorded := (recent_sublist _ _).subset there
      rw [append_assoc, singleton_append] at recorded
      rcases mem_append.mp recorded with before | now
      · exact .inl ⟨entry, before, its_id, same, rfl⟩
      · right
        have all : List.Forall₂ LeftBy (op :: ops) (op.entry s₁ :: entries) := .cons ⟨rfl, rfl⟩ left
        obtain ⟨done, applied_one, id_eq, digest_eq⟩ := left_by_one all now
        exact ⟨done, applied_one, id_eq.symm.trans its_id, digest_eq.symm.trans same⟩
    · cases unknown

end

section

/-- Generations and a digest to tell samples apart. -/
def sampleGeneration (n : UInt8) : Generation := ⟨List.replicate 15 0 ++ [n], rfl⟩

def sampleDigest : String := "0123456789abcdef0123456789abcdef0123456789abcdef0123456789abcdef"

def sampleState : CanonicalState := .new .stable (sampleGeneration 0)

def sampleConsent : Operation :=
  ⟨sampleGeneration 1, sampleDigest, ⟨0, sampleGeneration 0⟩, .updateConsent (.bool true) .null .null⟩

def sampleClear : Operation :=
  ⟨sampleGeneration 2, sampleDigest, ⟨0, sampleGeneration 0⟩, .clearTenure (sampleGeneration 3)⟩

/-- A consent replayed past a sign-out. -/
theorem replay_returns_receipt_signedOut :
    ∃ s₁ r s₂, NewlyApplied sampleState sampleConsent s₁ r ∧ NewRun s₁ [sampleClear] s₂ ∧
      s₂.applyVerifiedDigest sampleConsent = .ok (s₂, r) := by
  have both : ∃ first ∈ (sampleState.applyVerifiedDigest sampleConsent).toOption,
      (∀ entry ∈ first.1.operations, entry.id ≠ sampleClear.id) ∧
      (first.1.applyVerifiedDigest sampleClear).toOption.isSome = true := by
    decide +kernel
  obtain ⟨⟨s₁, r⟩, first, unseen, second⟩ := both
  obtain ⟨⟨s₂, r₂⟩, second⟩ := Option.isSome_iff_exists.mp second
  have applied : NewlyApplied sampleState sampleConsent s₁ r := ⟨Checks.ok_of_toOption first, nofun⟩
  have run : NewRun s₁ [sampleClear] s₂ := ⟨s₂, r₂, ⟨Checks.ok_of_toOption second, unseen⟩, rfl⟩
  exact ⟨s₁, r, s₂, applied, run,
    ((replay_returns_receipt sampleState s₁ sampleConsent r applied).1 [sampleClear] s₂ run (by decide)).1⟩

end
end PlxNative.Storage
