import Mathlib.Data.List.Range
import PlxNative.Lib.Contest

/-! A greedy choice under a cap: the classes are visited in turn, the last of each first, and what is
visited is taken if it fits beside what was taken. -/
namespace PlxNative.Greedy
open List Contest

variable {τ : Type} (fits : List τ → Prop) [DecidablePred fits] (rank : τ → Nat) (classes : Nat)

def pick (held l : List τ) : List τ := l.foldl (fun s a => if fits (s ++ [a]) then s ++ [a] else s) held

def visits (l : List τ) : List τ := (range classes).flatMap fun wanted => part rank wanted l.reverse

/-- The choice, where it stands in the list. -/
def kept [DecidableEq τ] (l : List τ) : List τ := l.filter (· ∈ pick fits [] (visits rank classes l))

variable {fits rank classes} {a : τ} {held l : List τ} {p : τ → Bool}

theorem pick_cons : pick fits held (a :: l) = pick fits (if fits (held ++ [a]) then held ++ [a] else held) l := rfl

theorem pick_append (held l l' : List τ) : pick fits held (l ++ l') = pick fits (pick fits held l) l' := foldl_append ..

variable (fits) in
theorem pick_grows (held l : List τ) : ∃ more, more.Sublist l ∧ pick fits held l = held ++ more := by
  induction l generalizing held with
  | nil => exact ⟨[], .slnil, (append_nil held).symm⟩
  | cons a l ih =>
    rw [pick_cons]
    split
    · obtain ⟨more, sub, eq⟩ := ih (held ++ [a])
      exact ⟨a :: more, sub.cons_cons a, by rw [eq, append_assoc, singleton_append]⟩
    · obtain ⟨more, sub, eq⟩ := ih held
      exact ⟨more, sub.cons a, eq⟩

variable (fits) in
theorem pick_fits (l : List τ) (fit : fits held) : fits (pick fits held l) := by
  induction l generalizing held with
  | nil => exact fit
  | cons a l ih =>
    rw [pick_cons]
    split
    · exact ih ‹_›
    · exact ih fit

theorem pick_all (closed : ∀ s t, fits (s ++ t) → fits s) (fit : fits (held ++ l)) : pick fits held l = held ++ l := by
  induction l generalizing held with
  | nil => exact (append_nil held).symm
  | cons a l ih =>
    rw [← singleton_append, ← append_assoc] at fit ⊢
    rw [singleton_append, pick_cons, if_pos (closed _ _ fit)]
    exact ih fit

theorem visits_perm (known : ∀ a, rank a < classes) (l : List τ) : (visits rank classes l).Perm l :=
  (parts_perm nodup_range fun a _ => mem_range.mpr (known a)).trans (reverse_perm l)

variable (rank classes) in
/-- The classes stand in turn, so those up to one are a front of what is visited. -/
theorem visits_split (k : Nat) (l : List τ) : ∃ behind, (∀ a ∈ behind, k < rank a) ∧ (classes ≤ k + 1 → behind = []) ∧
    visits rank classes l = visits rank classes (l.filter fun a => rank a ≤ k) ++ behind := by
  induction classes with
  | zero => exact ⟨[], nofun, fun _ => rfl, rfl⟩
  | succ n ih =>
    obtain ⟨behind, lower, none_, eq⟩ := ih
    have last (l : List τ) : visits rank (n + 1) l = visits rank n l ++ part rank n l.reverse := by
      unfold visits
      rw [range_succ, flatMap_append, flatMap_singleton]
    rw [last, last, eq]
    unfold part
    rw [← filter_reverse, filter_filter, append_assoc]
    rcases Nat.lt_or_ge k n with below | above
    · refine ⟨behind ++ l.reverse.filter (fun a => rank a = n), ?_, fun few => by omega, ?_⟩
      · intro a mem
        rcases mem_append.mp mem with mem | mem
        · exact lower a mem
        · rw [of_decide_eq_true (mem_filter.mp mem).2]
          exact below
      · have empty : l.reverse.filter (fun a => decide (rank a = n) && decide (rank a ≤ k)) = [] :=
          filter_eq_nil_iff.mpr fun a _ => by simp; omega
        rw [empty, append_nil]
    · rw [none_ (by omega)]
      refine ⟨[], nofun, fun _ => rfl, ?_⟩
      rw [append_nil]
      exact congrArg _ (filter_congr fun a _ => by simp; omega)

variable [DecidableEq τ]

theorem kept_perm (known : ∀ a, rank a < classes) (once : l.Nodup) :
    (pick fits [] (visits rank classes l)).Perm (kept fits rank classes l) := by
  have visited := visits_perm known l
  obtain ⟨more, sub, eq⟩ := pick_grows fits [] (visits rank classes l)
  rw [nil_append] at eq
  refine (perm_ext_iff_of_nodup ?_ (once.filter _)).mpr fun a => ?_
  · rw [eq]
    exact (visited.nodup_iff.mpr once).sublist sub
  · rw [mem_filter, decide_eq_true_eq]
    refine ⟨fun mem => ⟨?_, mem⟩, And.right⟩
    rw [eq] at mem
    exact visited.mem_iff.mp (sub.subset mem)

/-- The lower classes take nothing from the higher ones. -/
theorem kept_priority (k : Nat) (l : List τ) : (kept fits rank classes l).filter (fun a => rank a ≤ k) =
    kept fits rank classes (l.filter fun a => rank a ≤ k) := by
  obtain ⟨behind, lower, -, eq⟩ := visits_split rank classes k l
  obtain ⟨more, sub, grown⟩ := pick_grows fits (pick fits [] (visits rank classes (l.filter fun a => rank a ≤ k))) behind
  unfold kept
  rw [filter_filter, filter_filter]
  refine filter_congr fun a _ => ?_
  rw [eq, pick_append, grown, ← Bool.decide_and, ← Bool.decide_and,
    decide_eq_decide, mem_append, and_comm (b := rank a ≤ k)]
  refine and_congr_right fun high => or_iff_left fun mem => ?_
  have low := lower a (sub.subset mem)
  omega

end PlxNative.Greedy
