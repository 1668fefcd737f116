import Mathlib.Data.List.Nodup
import Mathlib.Data.List.Perm.Subperm

/-! Breadth-first search over a list of what was found and a place in it. -/
universe u

namespace PlxNative.Search
open List Relation

variable {α : Type u} [DecidableEq α] (succ : α → List α)

/-- What is found anew goes behind what was found before. -/
def push (order : List α) (a : α) : List α := if a ∈ order then order else order ++ [a]

def search : Nat → Nat → List α → Option (List α)
  | 0, _, _ => none
  | fuel + 1, next, order => match order[next]? with
    | none => some order
    | some a => search fuel (next + 1) ((succ a).foldl push order)

abbrev Step (a b : α) : Prop := b ∈ succ a

abbrev Reach (root a : α) : Prop := ReflTransGen (Step succ) root a

/-- What holds of a search under way: what was gone through has its successors in the list. -/
structure Found (root : α) (next : Nat) (order : List α) : Prop where
  once : order.Nodup
  root_ : root ∈ order
  sound : ∀ a ∈ order, Reach succ root a
  closed : ∀ i a, i < next → order[i]? = some a → ∀ b ∈ succ a, b ∈ order
  within : next ≤ order.length

section
variable {order bs : List α} {a b : α}

theorem mem_push : b ∈ push order a ↔ b ∈ order ∨ b = a := by
  unfold push
  split
  case isTrue old => exact ⟨.inl, fun either => either.elim id fun eq => eq ▸ old⟩
  case isFalse => rw [mem_append, mem_singleton]

theorem push_nodup (once : order.Nodup) : (push order a).Nodup := by
  unfold push
  split
  case isTrue => exact once
  case isFalse new => exact nodup_append.mpr ⟨once, nodup_singleton a, fun x old y single eq => by
      rw [mem_singleton.mp single] at eq
      exact new (eq ▸ old)⟩

theorem mem_pushes : b ∈ bs.foldl push order ↔ b ∈ order ∨ b ∈ bs := by
  induction bs generalizing order with
  | nil => simp
  | cons a bs ih => rw [foldl_cons, ih, mem_push, mem_cons, or_assoc]

theorem pushes_nodup (once : order.Nodup) : (bs.foldl push order).Nodup := by
  induction bs generalizing order with
  | nil => exact once
  | cons a bs ih => exact ih (push_nodup once)

theorem pushes_front (order bs : List α) : order <+: bs.foldl push order := by
  induction bs generalizing order with
  | nil => exact prefix_refl order
  | cons a bs ih =>
    refine List.IsPrefix.trans ?_ (ih (push order a))
    unfold push
    split
    · exact prefix_refl order
    · exact prefix_append order [a]

end
section
variable {succ} {root a : α} {fuel next : Nat} {order found : List α}

omit [DecidableEq α] in
theorem found_start (succ : α → List α) (root : α) : Found succ root 0 [root] :=
  ⟨nodup_singleton root, mem_singleton_self root, fun a mem => by
    rw [mem_singleton.mp mem],
    fun i a low => absurd low (Nat.not_lt_zero i), Nat.zero_le 1⟩

section
variable (known : Found succ root next order)
include known

theorem Found.step (here : order[next]? = some a) :
    Found succ root (next + 1) ((succ a).foldl push order) := by
  obtain ⟨within, -⟩ := List.getElem?_eq_some_iff.mp here
  have mem : a ∈ order := List.mem_of_getElem? here
  refine ⟨pushes_nodup known.once, mem_pushes.mpr (.inl known.root_), fun b found => ?_, fun i b low at_ c next_ => ?_, ?_⟩
  · rcases mem_pushes.mp found with old | new
    · exact known.sound b old
    · exact (known.sound a mem).tail new
  · have place : order[i]? = some b := by
      obtain ⟨more, eq⟩ := pushes_front order (succ a)
      rwa [← eq, List.getElem?_append_left (Nat.lt_of_le_of_lt (Nat.le_of_lt_succ low) within)] at at_
    rcases Nat.lt_succ_iff_lt_or_eq.mp low with earlier | rfl
    · exact mem_pushes.mpr (.inl (known.closed i b earlier place c next_))
    · cases here.symm.trans place
      exact mem_pushes.mpr (.inr next_)
  · exact Nat.le_trans within (pushes_front order _).length_le

omit [DecidableEq α] in
theorem Found.end_ (over_ : order[next]? = none) (a : α) : a ∈ order ↔ Reach succ root a := by
  refine ⟨known.sound a, fun reach => ?_⟩
  induction reach with
  | refl => exact known.root_
  | tail _ step ih =>
    obtain ⟨i, at_⟩ := List.getElem?_of_mem ih
    refine known.closed i _ ?_ at_ _ step
    exact Nat.lt_of_lt_of_le (List.getElem?_eq_some_iff.mp at_).1 (List.getElem?_eq_none_iff.mp over_)

theorem search_reaches (ran : search succ fuel next order = some found) :
    found.Nodup ∧ ∀ a, a ∈ found ↔ Reach succ root a := by
  induction fuel generalizing next order with
  | zero => cases ran
  | succ fuel ih =>
    unfold search at ran
    cases here : order[next]? with
    | none =>
      rw [here] at ran
      cases ran
      exact ⟨known.once, known.end_ here⟩
    | some a =>
      rw [here] at ran
      exact ih (known.step here) ran

theorem search_ends {part : List α} (stays : ∀ a, Reach succ root a → a ∈ part)
    (enough : part.length < fuel + next) : ∃ found, search succ fuel next order = some found := by
  have bound {next : Nat} {order : List α} (known : Found succ root next order) : order.length ≤ part.length :=
    (known.once.subperm fun a mem => stays a (known.sound a mem)).length_le
  induction fuel generalizing next order with
  | zero =>
    have le := Nat.le_trans known.within (bound known)
    omega
  | succ fuel ih =>
    unfold search
    cases here : order[next]? with
    | none => exact ⟨order, rfl⟩
    | some a => exact ih (known.step here) (by omega)

end

end

end PlxNative.Search
