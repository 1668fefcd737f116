import Mathlib.Logic.Basic

/-! Computations that check and give up: what a success of a sequence says of its parts,
and where an error of it comes from. -/
namespace PlxNative.Checks

universe u
variable {ε α β : Type u}

def check {ε : Type u} (ok : Prop) [Decidable ok] (e : ε) : Except ε Unit := if ok then .ok () else .error e

variable {ok : Prop} {first : Except ε α} {next : α → Except ε β}

@[simp] theorem check_eq_ok [Decidable ok] {e : ε} {u : Unit} : check ok e = .ok u ↔ ok := by
  unfold check
  split <;> simp_all

@[simp] theorem check_eq_error [Decidable ok] {e e' : ε} : check ok e = .error e' ↔ ¬ ok ∧ e = e' := by
  unfold check
  split <;> simp_all

theorem seq_eq_ok {result : β} : first >>= next = .ok result ↔ ∃ a, first = .ok a ∧ next a = .ok result := by
  constructor
  · intro succeeds
    cases first with
    | error e => cases succeeds
    | ok a => exact ⟨a, rfl, succeeds⟩
  · rintro ⟨a, rfl, succeeds⟩
    exact succeeds

theorem seq_eq_error {e : ε} :
    first >>= next = .error e ↔ first = .error e ∨ ∃ a, first = .ok a ∧ next a = .error e := by
  constructor
  · intro fails
    cases first with
    | error other => exact .inl (congrArg Except.error (Except.error.inj fails))
    | ok a => exact .inr ⟨a, rfl, fails⟩
  · rintro (rfl | ⟨a, rfl, fails⟩)
    · rfl
    · exact fails

theorem check_ok [Decidable ok] {e : ε} (holds : ok) : check ok e = .ok () := if_pos holds

theorem then_of_ok {ε β : Type} {first : Except ε Unit} {next : Unit → Except ε β} (holds : first = .ok ()) :
    first >>= next = next () := by
  rw [holds]
  rfl

theorem then_eq_ok {ε β : Type} {first : Except ε Unit} {next : Unit → Except ε β} {result : β} :
    first >>= next = .ok result ↔ first = .ok () ∧ next () = .ok result := by
  constructor
  · intro succeeds
    obtain ⟨⟨⟩, first_ok, next_ok⟩ := seq_eq_ok.mp succeeds
    exact ⟨first_ok, next_ok⟩
  · rintro ⟨rfl, next_ok⟩
    exact next_ok

theorem then_eq_error {ε β : Type} {first : Except ε Unit} {next : Unit → Except ε β} {e : ε} :
    first >>= next = .error e ↔ first = .error e ∨ first = .ok () ∧ next () = .error e := by
  constructor
  · intro fails
    rcases seq_eq_error.mp fails with here | ⟨⟨⟩, first_ok, later⟩
    · exact .inl here
    · exact .inr ⟨first_ok, later⟩
  · rintro (rfl | ⟨rfl, later⟩)
    · rfl
    · exact later

theorem ok_of_toOption {x : Except ε α} {a : α} (succeeds : x.toOption = some a) : x = .ok a := by
  cases x with
  | error e => cases succeeds
  | ok b => exact congrArg Except.ok (Option.some.inj succeeds)

/-- What every success of a computation satisfies. -/
def Leaves (P : α → Prop) (x : Except ε α) : Prop := ∀ a, x = .ok a → P a

namespace Leaves

variable {P : α → Prop} {Q : β → Prop}

theorem error {e : ε} : Leaves P (.error e : Except ε α) := nofun

theorem pure {a : α} (holds : P a) : Leaves (ε := ε) P (.ok a) := by
  intro b eq
  cases eq
  exact holds

variable {first : Except ε α} {next : α → Except ε β}

theorem after (leaves : Leaves P first) (later : ∀ a, P a → Leaves Q (next a)) :
    Leaves Q (first >>= next) := by
  intro b succeeds
  obtain ⟨a, first_ok, next_ok⟩ := seq_eq_ok.mp succeeds
  exact later a (leaves a first_ok) b next_ok

theorem seq (later : ∀ a, Leaves Q (next a)) : Leaves Q (first >>= next) :=
  after (P := fun _ => True) (fun _ _ => trivial) (fun a _ => later a)

theorem foldlM {step : α → β → Except ε α} (keep : ∀ a b, P a → Leaves P (step a b)) {a : α} (holds : P a) (bs : List β) :
    Leaves P (bs.foldlM step a) := by
  induction bs generalizing a with
  | nil => exact pure holds
  | cons b bs ih =>
    rw [List.foldlM_cons]
    exact after (keep a b holds) (fun a' holds' => ih holds')

end Leaves
end PlxNative.Checks
