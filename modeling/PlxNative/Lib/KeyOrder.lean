import Mathlib.Data.List.Induction
import Mathlib.Data.List.Pairwise
import Mathlib.Data.List.Sort

/-! Records in order of a numeric key that never repeats: stable sorting, and the last
answer among them. -/
namespace PlxNative.KeyOrder
open List

universe u
variable {α : Type u} (key : α → Nat)

/-- Strictly ascending keys: a list that is its own sorting. -/
def Ascending (l : List α) : Prop := l.Pairwise (fun a b => key a < key b)

/-- The stable sort by key; equal keys keep their order. -/
def sortByKey (l : List α) : List α := l.insertionSort (fun a b => key a ≤ key b)

theorem sortByKey_perm (l : List α) : (sortByKey key l).Perm l :=
  perm_insertionSort _ l

theorem sortByKey_pairwise (l : List α) : (sortByKey key l).Pairwise (fun a b => key a ≤ key b) := by
  exact pairwise_insertionSort _ l

variable {key}

variable {l : List α}

theorem Ascending.filter (h : Ascending key l) (p : α → Bool) :
    Ascending key (l.filter p) := List.Pairwise.filter p h

theorem Ascending.snoc {a : α} (h : Ascending key l) (below : ∀ b ∈ l, key b < key a) :
    Ascending key (l ++ [a]) := by
  apply pairwise_append.mpr
  refine ⟨h, pairwise_singleton _ a, ?_⟩
  intro b mem c hc
  rw [mem_singleton.mp hc]
  exact below b mem

theorem Ascending.below_of_last {bound : Nat} (h : Ascending key l)
    (above : ∀ last ∈ l.getLast?, key last < bound) : ∀ a ∈ l, key a < bound := by
  induction l using List.reverseRecOn with
  | nil => nofun
  | append_singleton l last _ =>
    intro a mem
    have greater : key last < bound := above last (by simp)
    obtain ⟨-, -, below⟩ := pairwise_append.mp h
    rcases mem_append.mp mem with earlier | this
    · exact Nat.lt_trans (below a earlier last (mem_singleton_self _)) greater
    · rw [mem_singleton.mp this]
      exact greater

theorem Ascending.key_injOn (h : Ascending key l) {a b : α} (ha : a ∈ l) (hb : b ∈ l)
    (eq : key a = key b) : a = b := by
  have symm : Std.Symm (fun a b : α => key a ≠ key b) := ⟨fun _ _ => Ne.symm⟩
  have apart : l.Pairwise (fun a b => key a ≠ key b) := h.imp Nat.ne_of_lt
  by_contra ne
  exact apart.forall ha hb ne eq

theorem sortByKey_of_perm {l l' : List α} (perm : l'.Perm l) (h : Ascending key l) :
    sortByKey key l' = l := by
  refine List.Perm.eq_of_pairwise ?_ (sortByKey_pairwise key l') (h.imp Nat.le_of_lt)
    ((sortByKey_perm key l').trans perm)
  intro a b ha hb hab hba
  have ha' : a ∈ l := ((sortByKey_perm key l').trans perm).mem_iff.mp ha
  exact h.key_injOn ha' hb (Nat.le_antisymm hab hba)

theorem Ascending.getLast?_filterMap {β : Type*} {ask : α → Option β}
    (ascends : Ascending key l) (answer : β) :
    (l.filterMap ask).getLast? = some answer ↔
      ∃ a ∈ l, ask a = some answer ∧ ∀ b ∈ l, key a < key b → ask b = none := by
  induction l using List.reverseRecOn with
  | nil => simp
  | append_singleton l last ih =>
    obtain ⟨tail, -, above⟩ := pairwise_append.mp ascends
    cases its : ask last with
    | none =>
      rw [filterMap_append, filterMap_cons_none its, filterMap_nil, append_nil, ih tail]
      constructor
      · rintro ⟨a, mem, answers, later⟩
        refine ⟨a, mem_append_left _ mem, answers, ?_⟩
        intro b there greater
        rcases mem_append.mp there with old | new
        · exact later b old greater
        · rw [mem_singleton.mp new]
          exact its
      · rintro ⟨a, mem, answers, later⟩
        rcases mem_append.mp mem with old | new
        · exact ⟨a, old, answers, fun b there => later b (mem_append_left _ there)⟩
        · rw [mem_singleton.mp new, its] at answers
          cases answers
    | some value =>
      rw [filterMap_append, filterMap_cons_some its, filterMap_nil, List.getLast?_concat]
      constructor
      · rintro ⟨⟩
        refine ⟨last, mem_append_right _ (mem_singleton_self _), its, ?_⟩
        intro b there greater
        rcases mem_append.mp there with old | new
        · have less := above b old last (mem_singleton_self _)
          omega
        · rw [mem_singleton.mp new] at greater
          omega
      · rintro ⟨a, mem, answers, later⟩
        rcases mem_append.mp mem with old | new
        · have unanswered := later last (mem_append_right _ (mem_singleton_self _))
            (above a old last (mem_singleton_self _))
          rw [its] at unanswered
          cases unanswered
        · rw [mem_singleton.mp new, its] at answers
          exact answers

theorem getLast?_eq_some_of_greatest {a : α} (ordered : l.Pairwise (fun a b => key a ≤ key b))
    (mem : a ∈ l) (greatest : ∀ b ∈ l, key a ≤ key b → b = a) : l.getLast? = some a := by
  induction l using List.reverseRecOn with
  | nil => cases mem
  | append_singleton l last _ =>
    rw [List.getLast?_concat]
    rcases mem_append.mp mem with old | new
    · have below := (pairwise_append.mp ordered).2.2 a old last (mem_singleton_self _)
      rw [greatest last (mem_append_right _ (mem_singleton_self _)) below]
    · rw [mem_singleton.mp new]

theorem Ascending.getLast?_eq {l repeated : List α} (ascends : Ascending key l)
    (ordered : repeated.Pairwise (fun a b => key a ≤ key b)) (eq : ∀ a, a ∈ repeated ↔ a ∈ l) :
    repeated.getLast? = l.getLast? := by
  cases last : l.getLast? with
  | none =>
    rw [List.getLast?_eq_none_iff] at last ⊢
    rw [eq_nil_iff_forall_not_mem]
    intro a mem
    rw [eq, last] at mem
    cases mem
  | some a =>
    obtain ⟨front, rfl⟩ := List.getLast?_eq_some_iff.mp last
    obtain ⟨-, -, below⟩ := pairwise_append.mp ascends
    have mem : a ∈ front ++ [a] := mem_append_right _ (mem_singleton_self _)
    refine getLast?_eq_some_of_greatest ordered ((eq a).mpr mem) ?_
    intro b there above
    rcases mem_append.mp ((eq b).mp there) with old | new
    · have less := below b old a (mem_singleton_self _)
      omega
    · exact mem_singleton.mp new

end PlxNative.KeyOrder
