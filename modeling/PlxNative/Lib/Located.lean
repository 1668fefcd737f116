import Mathlib.Data.List.Perm.Subperm
import Mathlib.Data.List.Sort

/-! A list of distinct keys beside an index of where each one is, the two changed one after the
other. -/
namespace Located
open List
variable {α : Type}

/-- The index after more entries, of which the last of several for one key stands. -/
def record [DecidableEq α] (index : α → Option Nat) (entries : List (α × Nat)) : α → Option Nat :=
  entries.foldl (fun index entry => Function.update index entry.1 (some entry.2)) index

def insert (list : List α) (at_ : Nat) (key : α) : List α := list.take at_ ++ key :: list.drop at_

/-- Every key once, and the index has the place of each and of nothing else. -/
structure Exact (index : α → Option Nat) (list : List α) : Prop where
  nodup : list.Nodup
  places : ∀ key i, index key = some i ↔ list[i]? = some key

section
variable [DecidableEq α] {index : α → Option Nat} {entries : List (α × Nat)} {key : α} {i : Nat}

theorem record_eq_some (nodup : (entries.map Prod.fst).Nodup) :
    record index entries key = some i ↔ (key, i) ∈ entries ∨ key ∉ entries.map Prod.fst ∧ index key = some i := by
  induction entries generalizing index with
  | nil => simp [record]
  | cons entry entries ih =>
    obtain ⟨first, place⟩ := entry
    obtain ⟨new, rest⟩ := nodup_cons.mp nodup
    change record (Function.update index first (some place)) entries key = some i ↔ _
    rw [ih rest]
    by_cases eq : key = first
    · subst eq
      have absent : (key, i) ∉ entries := by
        intro mem
        exact new (mem_map.mpr ⟨(key, i), mem, rfl⟩)
      rw [Function.update_self, or_iff_right absent, and_iff_right new]
      constructor
      · intro value
        injection value with value
        subst value
        exact .inl mem_cons_self
      · rintro (mem | ⟨other, _⟩)
        · rcases mem_cons.mp mem with equal | mem
          · injection equal with _ equal
            rw [equal]
          · exact absurd mem absent
        · exact absurd mem_cons_self other
    · rw [Function.update_of_ne eq]
      have mem : (key, i) ∈ (first, place) :: entries ↔ (key, i) ∈ entries := by
        rw [mem_cons]
        exact or_iff_right (fun equal => eq (congrArg Prod.fst equal))
      have other : key ∈ ((first, place) :: entries).map Prod.fst ↔ key ∈ entries.map Prod.fst := by
        rw [map_cons, mem_cons]
        exact or_iff_right eq
      rw [mem, other]

theorem record_exact (index : α → Option Nat) (front : List α) {back : List α} (nodup : (front ++ back).Nodup)
    (before : ∀ key i, key ∉ back → (index key = some i ↔ front[i]? = some key)) :
    Exact (record index (back.zipIdx front.length)) (front ++ back) := by
  have keys : (back.zipIdx front.length).map Prod.fst = back := zipIdx_map_fst ..
  refine ⟨nodup, ?_⟩
  intro key i
  rw [record_eq_some (by rw [keys]; exact (nodup_append.mp nodup).2.1), keys, List.mk_mem_zipIdx_iff_le_and_getElem?_sub]
  by_cases inBack : key ∈ back
  · have absent : ¬front[i]? = some key := fun found =>
      disjoint_of_nodup_append nodup (List.mem_of_getElem? found) inBack
    rw [or_iff_left (fun other => other.1 inBack)]
    by_cases early : i < front.length
    · rw [List.getElem?_append_left early]
      exact ⟨fun late => absurd late.1 (Nat.not_le_of_lt early), fun found => absurd found absent⟩
    · have late := Nat.le_of_not_lt early
      rw [List.getElem?_append_right late]
      exact and_iff_right late
  · have absent : ∀ j, ¬back[j]? = some key := fun j found => inBack (List.mem_of_getElem? found)
    rw [or_iff_right (fun late => absent _ late.2), and_iff_right inBack, before key i inBack]
    by_cases early : i < front.length
    · rw [List.getElem?_append_left early]
    · have late := Nat.le_of_not_lt early
      rw [List.getElem?_append_right late, List.getElem?_eq_none late]
      exact ⟨fun impossible => (Option.some_ne_none key impossible.symm).elim, fun found => absurd found (absent _)⟩

end

namespace Exact
variable {index : α → Option Nat} {list : List α} {key : α} {i at_ : Nat}

theorem mem_iff (exact_ : Exact index list) : key ∈ list ↔ (index key).isSome = true := by
  rw [List.mem_iff_getElem?, Option.isSome_iff_exists]
  exact exists_congr (fun i => (exact_.places key i).symm)

theorem lt (exact_ : Exact index list) (found : index key = some i) : i < list.length :=
  (List.getElem?_eq_some_iff.mp ((exact_.places key i).mp found)).1

theorem whole [DecidableEq α] (nodup : list.Nodup) : Exact (record (fun _ => none) list.zipIdx) list := by
  have before : ∀ key i, key ∉ list → ((none : Option Nat) = some i ↔ ([] : List α)[i]? = some key) := by
    intro key i _
    constructor
    · intro value
      cases value
    · intro found
      cases found
  exact record_exact (fun _ => none) [] nodup before

theorem append [DecidableEq α] (exact_ : Exact index list) (new : key ∉ list) :
    Exact (Function.update index key (some list.length)) (list ++ [key]) := by
  have nodup : (list ++ [key]).Nodup :=
    exact_.nodup.append (nodup_singleton key) (disjoint_singleton.mpr new)
  exact record_exact index list nodup (fun k i _ => exact_.places k i)

theorem insert_nodup (exact_ : Exact index list) (new : key ∉ list) : (Located.insert list at_ key).Nodup := by
  apply perm_middle.nodup_iff.mpr
  rw [take_append_drop]
  exact nodup_cons.mpr ⟨new, exact_.nodup⟩

theorem insert [DecidableEq α] (exact_ : Exact index list) (new : key ∉ list) (inside : at_ ≤ list.length) :
    Exact (record index ((Located.insert list at_ key).zipIdx.drop at_)) (Located.insert list at_ key) := by
  have front : (list.take at_).length = at_ := by rw [length_take, Nat.min_eq_left inside]
  have entries : (Located.insert list at_ key).zipIdx.drop at_ = (key :: list.drop at_).zipIdx (list.take at_).length := by
    unfold Located.insert
    rw [zipIdx_append, drop_append_of_le_length (by rw [length_zipIdx, front]),
      drop_eq_nil_of_le (by rw [length_zipIdx, front]), nil_append, Nat.zero_add]
  rw [entries]
  apply record_exact index _ (exact_.insert_nodup new)
  intro k i later
  rw [exact_.places]
  have cut : list[i]? = some k ↔ (list.take at_ ++ list.drop at_)[i]? = some k := by rw [take_append_drop]
  rw [cut]
  by_cases early : i < (list.take at_).length
  · rw [List.getElem?_append_left early]
  · have late := Nat.le_of_not_lt early
    rw [List.getElem?_append_right late, List.getElem?_eq_none late]
    constructor
    · intro found
      exact absurd (mem_cons_of_mem _ (List.mem_of_getElem? found)) later
    · intro impossible
      cases impossible

end Exact

section
variable {index : α → Option Nat} {list window : List α}

def Earlier (index : α → Option Nat) (a b : α) : Prop := ∃ i j, index a = some i ∧ index b = some j ∧ i < j

theorem Earlier.asymm {a b : α} (first : Earlier index a b) (second : Earlier index b a) : False := by
  obtain ⟨i, j, foundA, foundB, less⟩ := first
  obtain ⟨j', i', foundB', foundA', more⟩ := second
  rw [foundA] at foundA'
  rw [foundB] at foundB'
  injection foundA' with equalA
  injection foundB' with equalB
  omega

theorem Earlier.ne {a b : α} (earlier : Earlier index a b) : a ≠ b := by
  rintro rfl
  exact earlier.asymm earlier

instance : Std.Antisymm (Earlier index) := ⟨fun _ _ first second => (first.asymm second).elim⟩

theorem Exact.sublist_iff (exact_ : Exact index list) (known : ∀ key ∈ window, key ∈ list) :
    window.Sublist list ↔ (window.filterMap index).Pairwise (· < ·) := by
  have ordered : list.Pairwise (fun a b => ∀ i, index a = some i → ∀ j, index b = some j → i < j) := by
    apply pairwise_iff_getElem.mpr
    intro i j first second less a foundA b foundB
    rw [(exact_.places _ i).mpr (List.getElem?_eq_getElem first)] at foundA
    rw [(exact_.places _ j).mpr (List.getElem?_eq_getElem second)] at foundB
    injection foundA with equalA
    injection foundB with equalB
    omega
  have placed : ∀ {l : List α}, (∀ key ∈ l, key ∈ list) →
      l.Pairwise (fun a b => ∀ i, index a = some i → ∀ j, index b = some j → i < j) → l.Pairwise (Earlier index) := by
    intro l inside pairs
    apply pairs.imp_of_mem
    intro a b first second less
    obtain ⟨i, foundA⟩ := Option.isSome_iff_exists.mp (exact_.mem_iff.mp (inside a first))
    obtain ⟨j, foundB⟩ := Option.isSome_iff_exists.mp (exact_.mem_iff.mp (inside b second))
    exact ⟨i, j, foundA, foundB, less i foundA j foundB⟩
  rw [pairwise_filterMap]
  constructor
  · exact fun inside => ordered.sublist inside
  · intro pairs
    have earlier := placed known pairs
    have nodup : window.Nodup := earlier.imp (fun {_ _} less => less.ne)
    exact sublist_of_subperm_of_pairwise (subperm_of_subset nodup known) earlier (placed (fun _ mem => mem) ordered)

theorem sublist_after {key : α} {before after : List α} (absent : key ∉ before) (inside : (key :: window).Sublist (before ++ key :: after)) :
    window.Sublist after := by
  induction before with
  | nil => exact cons_sublist_cons.mp inside
  | cons first before ih =>
    have other : key ≠ first := fun eq => absent (eq ▸ mem_cons_self)
    have absent : key ∉ before := fun mem => absent (mem_cons_of_mem _ mem)
    apply ih absent
    rcases sublist_cons_iff.mp inside with inside | ⟨rest, equal, _⟩
    · exact inside
    · injection equal with equal
      exact absurd equal other

end
end Located
