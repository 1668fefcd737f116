import Mathlib.Algebra.BigOperators.Group.List.Basic
import Mathlib.Algebra.Ring.Nat
import Mathlib.Data.List.AList
import Mathlib.Data.List.Perm.Subperm
import Mathlib.Order.Lattice

/-! Maps as lists of entries: by unique keys, in the order in which the keys came, and in the
order of the keys. -/
namespace PlxNative.Table

universe u v
variable {α : Type u} {β : Type v} [DecidableEq α]

theorem keys_erase_subperm (a : α) (t : AList (fun _ : α => β)) :
    (t.erase a).keys.Subperm t.keys := by
  rw [AList.keys_erase]
  exact List.erase_sublist.subperm

variable {a : α} {t : AList (fun _ : α => β)}

theorem keys_insert_perm (b : β) (held : a ∈ t) : (t.insert a b).keys.Perm t.keys := by
  rw [AList.keys_insert]
  exact (List.perm_cons_erase (AList.mem_keys.mp held)).symm

theorem keys_insert_fresh (b : β) (free : a ∉ t) : (t.insert a b).keys = a :: t.keys := by
  rw [AList.keys_insert, List.erase_of_not_mem (fun mem => free (AList.mem_keys.mpr mem))]

/-- The sum of a weight over the entries; a key that is absent weighs nothing. -/
def total (weight : β → Nat) (t : AList (fun _ : α => β)) : Nat :=
  (t.keys.map (fun k => ((t.lookup k).map weight).getD 0)).sum

theorem total_insert (weight : β → Nat) (a : α) (b : β) (t : AList (fun _ : α => β)) :
    total weight (t.insert a b) + ((t.lookup a).map weight).getD 0 = weight b + total weight t := by
  have others : ((t.keys.erase a).map (fun k => (((t.insert a b).lookup k).map weight).getD 0)) =
      (t.keys.erase a).map (fun k => ((t.lookup k).map weight).getD 0) := by
    apply List.map_congr_left
    intro k mem
    have apart : k ≠ a := fun eq => t.keys_nodup.not_mem_erase (eq ▸ mem)
    rw [AList.lookup_insert_ne apart]
  have whole : total weight t = ((t.lookup a).map weight).getD 0 +
      ((t.keys.erase a).map (fun k => ((t.lookup k).map weight).getD 0)).sum := by
    by_cases held : a ∈ t
    · exact ((List.perm_cons_erase (AList.mem_keys.mp held)).map _).sum_nat
    · rw [AList.lookup_eq_none.mpr held,
        List.erase_of_not_mem (fun mem => held (AList.mem_keys.mpr mem))]
      simp [total]
  rw [whole, total, AList.keys_insert, List.map_cons, List.sum_cons, others, AList.lookup_insert]
  simp only [Option.map_some, Option.getD_some]
  omega

/-- The entries that pass, with their keys. -/
def retain (keep : α → β → Bool) (t : AList (fun _ : α => β)) : AList (fun _ : α => β) :=
  ⟨t.entries.filter (fun entry => keep entry.1 entry.2), t.nodupKeys.sublist List.filter_sublist⟩

theorem lookup_retain (keep : α → β → Bool) (t : AList (fun _ : α => β)) (a : α) :
    (retain keep t).lookup a = (t.lookup a).filter (keep a) := by
  have only : ∀ {b : β}, (⟨a, b⟩ : Sigma (fun _ : α => β)) ∈ t.entries ↔ t.lookup a = some b :=
    fun {b} => AList.mem_lookup_iff.symm
  cases kept : (retain keep t).lookup a with
  | some b =>
    obtain ⟨mem, passes⟩ := List.mem_filter.mp (AList.mem_lookup_iff.mp kept)
    rw [only.mp mem]
    exact (if_pos passes).symm
  | none =>
    cases held : t.lookup a with
    | none => rfl
    | some b =>
      cases passes : keep a b with
      | false => exact (if_neg (by rw [passes]; exact Bool.false_ne_true)).symm
      | true =>
        have mem : (⟨a, b⟩ : Sigma (fun _ : α => β)) ∈ (retain keep t).entries :=
          List.mem_filter.mpr ⟨only.mpr held, passes⟩
        rw [AList.mem_lookup_iff.mpr mem] at kept
        cases kept

end PlxNative.Table

namespace PlxNative.Assoc

variable {α : Type u} {β : Type v}

section
variable [BEq α] [LawfulBEq α]
variable {l : List (α × β)}

theorem lookup_eq_some_of_mem (once : (l.map Prod.fst).Nodup) {entry : α × β} (mem : entry ∈ l) :
    l.lookup entry.1 = some entry.2 := by
  induction l with
  | nil => cases mem
  | cons first rest ih =>
    rw [List.map_cons, List.nodup_cons] at once
    rcases List.mem_cons.mp mem with rfl | later
    · exact List.lookup_cons_self
    · have apart : entry.1 ≠ first.1 := fun eq => once.1 (eq ▸ List.mem_map_of_mem later)
      exact List.lookup_cons.trans (by rw [beq_false_of_ne apart]; exact ih once.2 later)

theorem mem_of_lookup_eq_some {key : α} {b : β} (found : l.lookup key = some b) : (key, b) ∈ l := by
  obtain ⟨before, after, rfl, -⟩ := List.lookup_eq_some_iff.mp found
  exact List.mem_append_right _ List.mem_cons_self

end

variable [DecidableEq α]

/-- Change the value of a key where it stands; a new key goes to the end. -/
def update (key : α) (change : Option β → β) : List (α × β) → List (α × β)
  | [] => [(key, change none)]
  | (k, b) :: rest => if k = key then (k, change (some b)) :: rest else (k, b) :: update key change rest

/-- A list of different things has one more. -/
def pushUnique (a : α) (l : List α) : List α := if a ∈ l then l else l ++ [a]

section
variable [BEq α] [LawfulBEq α]

theorem lookup_update (key k : α) (change : Option β → β) (l : List (α × β)) :
    (update key change l).lookup k = if k = key then some (change (l.lookup key)) else l.lookup k := by
  induction l with
  | nil =>
    by_cases eq : k = key
    · rw [if_pos eq, eq]
      exact List.lookup_cons_self
    · rw [if_neg eq]
      exact List.lookup_cons.trans (by rw [beq_false_of_ne eq])
  | cons entry rest ih =>
    obtain ⟨first, b⟩ := entry
    unfold update
    by_cases here : first = key
    · subst here
      rw [if_pos rfl, List.lookup_cons_self, List.lookup_cons, List.lookup_cons]
      by_cases eq : k = first
      · rw [if_pos eq, eq, beq_self_eq_true]
      · rw [if_neg eq, beq_false_of_ne eq]
    · rw [if_neg here, List.lookup_cons, List.lookup_cons, List.lookup_cons, ih, beq_false_of_ne (Ne.symm here)]
      by_cases eq : k = first
      · simp only [eq, beq_self_eq_true, if_neg here]
      · rw [beq_false_of_ne eq]

end

theorem keys_update (key : α) (change : Option β → β) (l : List (α × β)) :
    (update key change l).map Prod.fst = pushUnique key (l.map Prod.fst) := by
  unfold pushUnique
  induction l with
  | nil => rfl
  | cons entry rest ih =>
    unfold update
    by_cases here : entry.1 = key
    · rw [if_pos here, if_pos (by rw [List.map_cons, here]; exact List.mem_cons_self), List.map_cons, List.map_cons]
    · rw [if_neg here, List.map_cons, ih, List.map_cons]
      by_cases mem : key ∈ rest.map Prod.fst
      · rw [if_pos mem, if_pos (List.mem_cons_of_mem _ mem)]
      · rw [if_neg mem, if_neg (fun all => (List.mem_cons.mp all).elim (fun eq => here eq.symm) mem), List.cons_append]

theorem mem_pushUnique {a b : α} {l : List α} : b ∈ pushUnique a l ↔ b ∈ l ∨ b = a := by
  unfold pushUnique
  split
  case isTrue mem => exact ⟨.inl, fun either => either.elim id (fun eq => eq ▸ mem)⟩
  case isFalse => rw [List.mem_append, List.mem_singleton]

theorem subset_pushUnique (a : α) (l : List α) : l ⊆ pushUnique a l := fun _ mem => mem_pushUnique.mpr (.inl mem)

theorem pushUnique_nodup {a : α} {l : List α} (once : l.Nodup) : (pushUnique a l).Nodup := by
  unfold pushUnique
  split
  case isTrue => exact once
  case isFalse fresh => exact List.nodup_append.mpr ⟨once, List.nodup_singleton a, fun b mem c here => by
      rw [List.mem_singleton.mp here]
      exact fun eq => fresh (eq ▸ mem)⟩

theorem update_nodup {key : α} {change : Option β → β} {l : List (α × β)} (once : (l.map Prod.fst).Nodup) :
    ((update key change l).map Prod.fst).Nodup := by
  rw [keys_update]
  exact pushUnique_nodup once

end PlxNative.Assoc

namespace PlxNative


structure SortedMap (α : Type u) (β : Type v) [LinearOrder α] where
  entries : List (α × β)
  ordered : entries.Pairwise (fun a b => a.1 < b.1)
deriving DecidableEq

namespace SortedMap

variable {α : Type u} {β : Type v} [LinearOrder α]

/-- An entry at its place, in place of one under its key. -/
def put (k : α) (b : β) : List (α × β) → List (α × β)
  | [] => [(k, b)]
  | (j, c) :: rest =>
    if k < j then (k, b) :: (j, c) :: rest
    else if k = j then (k, b) :: rest
    else (j, c) :: put k b rest

variable {k : α} {b : β} {l : List (α × β)}

theorem mem_put {e : α × β} (mem : e ∈ put k b l) : e = (k, b) ∨ e ∈ l := by
  induction l with
  | nil => exact .inl (List.mem_singleton.mp mem)
  | cons first rest ih =>
    simp only [put] at mem
    split_ifs at mem <;> grind

theorem put_ordered (k : α) (b : β) (h : l.Pairwise (fun a b => a.1 < b.1)) :
    (put k b l).Pairwise (fun a b => a.1 < b.1) := by
  induction l with
  | nil => exact List.pairwise_singleton _ _
  | cons first rest ih =>
    obtain ⟨j, c⟩ := first
    obtain ⟨above, tail⟩ := List.pairwise_cons.mp h
    simp only [put]
    split_ifs with less eq
    · exact List.pairwise_cons.mpr ⟨fun e mem => by
        rcases List.mem_cons.mp mem with rfl | later
        · exact less
        · exact less.trans (above e later), h⟩
    · subst eq
      exact List.pairwise_cons.mpr ⟨above, tail⟩
    · refine List.pairwise_cons.mpr ⟨fun e mem => ?_, ih tail⟩
      have greater : j < k := lt_of_le_of_ne (not_lt.mp less) (Ne.symm eq)
      rcases mem_put mem with rfl | old
      · exact greater
      · exact above e old

def empty : SortedMap α β := ⟨[], List.Pairwise.nil⟩

instance : Inhabited (SortedMap α β) := ⟨empty⟩

def lookup (k : α) (m : SortedMap α β) : Option β := m.entries.lookup k

def insert (k : α) (b : β) (m : SortedMap α β) : SortedMap α β := ⟨put k b m.entries, put_ordered k b m.ordered⟩

def retain (keep : α → β → Bool) (m : SortedMap α β) : SortedMap α β :=
  ⟨m.entries.filter (fun e => keep e.1 e.2), m.ordered.filter _⟩

def erase (k : α) (m : SortedMap α β) : SortedMap α β := m.retain (fun j _ => j ≠ k)

def values (m : SortedMap α β) : List β := m.entries.map Prod.snd

variable {m : SortedMap α β}

theorem lookup_eq_some : m.lookup k = some b ↔ (k, b) ∈ m.entries := by
  obtain ⟨l, h⟩ := m
  show l.lookup k = some b ↔ (k, b) ∈ l
  induction l with
  | nil => simp
  | cons first rest ih =>
    obtain ⟨j, c⟩ := first
    obtain ⟨above, tail⟩ := List.pairwise_cons.mp h
    rw [List.lookup_cons]
    by_cases eq : k = j
    · subst eq
      constructor
      · intro found
        cases (by simpa using found : c = b)
        exact List.mem_cons_self
      · intro mem
        rcases List.mem_cons.mp mem with here | later
        · cases here
          simp
        · exact absurd (above _ later) (lt_irrefl k)
    · rw [beq_eq_false_iff_ne.mpr eq, ih tail]
      simp [eq]

theorem mem_values : b ∈ m.values ↔ ∃ k, m.lookup k = some b := by
  simp only [lookup_eq_some]
  exact List.mem_map.trans ⟨fun ⟨e, mem, eq⟩ => ⟨e.1, eq ▸ mem⟩, fun ⟨k, mem⟩ => ⟨(k, b), mem, rfl⟩⟩

@[simp] theorem lookup_empty (k : α) : (empty : SortedMap α β).lookup k = none := rfl

@[simp] theorem values_empty : (empty : SortedMap α β).values = [] := rfl

theorem lookup_put (k j : α) (b : β) (l : List (α × β)) :
    (put k b l).lookup j = if j = k then some b else l.lookup j := by
  induction l with
  | nil =>
    simp only [put, List.lookup_cons, List.lookup_nil]
    by_cases eq : j = k
    · rw [if_pos eq, beq_iff_eq.mpr eq]
    · rw [if_neg eq, beq_eq_false_iff_ne.mpr eq]
  | cons first rest ih =>
    obtain ⟨i, c⟩ := first
    simp only [put]
    split_ifs with less eq
    all_goals simp only [List.lookup_cons]
    all_goals grind

theorem lookup_insert (k j : α) (b : β) (m : SortedMap α β) :
    (m.insert k b).lookup j = if j = k then some b else m.lookup j := lookup_put k j b m.entries

@[simp] theorem lookup_insert_self (k : α) (b : β) (m : SortedMap α β) : (m.insert k b).lookup k = some b := by
  rw [lookup_insert, if_pos rfl]

theorem lookup_retain (keep : α → β → Bool) (m : SortedMap α β) (k : α) :
    (m.retain keep).lookup k = (m.lookup k).filter (keep k) := by
  apply Option.ext
  intro b
  rw [Option.filter_eq_some_iff, lookup_eq_some, lookup_eq_some]
  exact List.mem_filter

theorem lookup_erase (k j : α) (m : SortedMap α β) :
    (m.erase k).lookup j = if j = k then none else m.lookup j := by
  rw [erase, lookup_retain]
  by_cases eq : j = k <;> cases m.lookup j <;> simp [eq]

theorem ext_lookup {n : SortedMap α β} (same : ∀ k, m.lookup k = n.lookup k) : m = n := by
  have members : ∀ e, e ∈ m.entries ↔ e ∈ n.entries := fun e => by
    rw [← lookup_eq_some (k := e.1), ← lookup_eq_some (k := e.1), same]
  have perm : m.entries.Perm n.entries := (List.perm_ext_iff_of_nodup
    (m.ordered.imp (fun less eq => absurd (eq ▸ less) (lt_irrefl _)))
    (n.ordered.imp (fun less eq => absurd (eq ▸ less) (lt_irrefl _)))).mpr members
  have lists : m.entries = n.entries := perm.eq_of_pairwise
    (fun a b _ _ less greater => absurd less (lt_asymm greater)) m.ordered n.ordered
  cases m
  cases n
  cases lists
  rfl

end SortedMap
end PlxNative
