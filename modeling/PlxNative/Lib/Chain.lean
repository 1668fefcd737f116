import Mathlib.Data.List.Basic

/-! Singly linked lists of heap cells, and appending at their tail in place. -/
namespace PlxNative.Chain
open List Function

universe u v
variable {A : Type u} {V : Type v}

structure Node (A : Type u) (V : Type v) where
  next : Option A
  value : V

abbrev Heap (A : Type u) (V : Type v) : Type (max u v) := A → Option (Node A V)

/-- The cells from `start` on, in order, are these. -/
def Linked (heap : Heap A V) : Option A → List (A × V) → Prop
  | start, [] => start = none
  | start, cell :: rest => start = some cell.1 ∧ ∃ next, heap cell.1 = some ⟨next, cell.2⟩ ∧ Linked heap next rest

variable {heap heap' : Heap A V} {start : Option A} {cells : List (A × V)}

section
variable (linked : Linked heap start cells)
include linked

theorem Linked.frame (eq : ∀ cell ∈ cells, heap' cell.1 = heap cell.1) :
    Linked heap' start cells := by
  induction cells generalizing start with
  | nil => exact linked
  | cons cell rest ih =>
    obtain ⟨here, next, held, later⟩ := linked
    refine ⟨here, next, ?_, ih later (fun other mem => eq other (mem_cons_of_mem _ mem))⟩
    rw [eq cell mem_cons_self]
    exact held

theorem Linked.unique {others : List (A × V)} (linked' : Linked heap start others) :
    cells = others := by
  induction cells generalizing start others with
  | nil =>
    cases others with
    | nil => rfl
    | cons other rest =>
      obtain ⟨here, -⟩ := linked'
      rw [linked] at here
      cases here
  | cons cell rest ih =>
    obtain ⟨here, next, held, later⟩ := linked
    cases others with
    | nil =>
      rw [linked'] at here
      cases here
    | cons other rest' =>
      obtain ⟨here', next', held', later'⟩ := linked'
      obtain ⟨a, v⟩ := cell
      obtain ⟨a', v'⟩ := other
      rw [here] at here'
      cases here'
      rw [held] at held'
      cases held'
      rw [ih later later']

theorem Linked.start_none : start = none ↔ cells = [] := by
  cases cells with
  | nil => exact iff_of_true linked rfl
  | cons cell rest =>
    obtain ⟨here, -⟩ := linked
    rw [here]
    exact iff_of_false nofun (cons_ne_nil _ _)

theorem Linked.held : ∀ cell ∈ cells, ∃ next, heap cell.1 = some ⟨next, cell.2⟩ := by
  induction cells generalizing start with
  | nil => exact fun cell mem => absurd mem not_mem_nil
  | cons cell rest ih =>
    obtain ⟨-, next, held, later⟩ := linked
    intro other mem
    rcases mem_cons.mp mem with rfl | mem
    · exact ⟨next, held⟩
    · exact ih later other mem

end

variable [DecidableEq A]

def link (heap : Heap A V) (a next : A) : Heap A V :=
  Function.update heap a ((heap a).map (fun node => { node with next := some next }))

theorem Linked.snoc {a : A} {v : V} {last : A × V} (linked : Linked heap start (cells ++ [last]))
    (apart : ((cells ++ [last]).map Prod.fst).Nodup) (fresh : a ∉ (cells ++ [last]).map Prod.fst)
    (free : heap a = some ⟨none, v⟩) : Linked (link heap last.1 a) start ((cells ++ [last]) ++ [(a, v)]) := by
  have alone : link heap last.1 a a = some ⟨none, v⟩ := by
    have other : a ≠ last.1 := fun eq =>
      fresh (mem_map.mpr ⟨last, mem_append_right _ (mem_singleton_self _), eq.symm⟩)
    unfold link
    rw [update_of_ne other]
    exact free
  induction cells generalizing start with
  | nil =>
    obtain ⟨here, next, held, -⟩ := linked
    refine ⟨here, some a, ?_, rfl, none, alone, rfl⟩
    unfold link
    rw [update_self, held]
    rfl
  | cons cell rest ih =>
    obtain ⟨here, next, held, later⟩ := linked
    simp only [cons_append, map_cons, nodup_cons, mem_cons, not_or] at apart fresh
    refine ⟨here, next, ?_, ih later apart.2 fresh.2⟩
    have other : cell.1 ≠ last.1 := fun eq =>
      apart.1 (mem_map.mpr ⟨last, mem_append_right _ (mem_singleton_self _), eq.symm⟩)
    unfold link
    rw [update_of_ne other]
    exact held

end PlxNative.Chain
