import Mathlib.Data.List.Basic

/-! Lists edited in one place: at the first position that matches a test, and at the end of a log
of bounded length, which forgets its oldest record. -/
namespace PlxNative.Position

universe u
variable {α : Type u} {test : α → Bool}
variable {l : List α} {index : Nat}

theorem split_of_findIdx? (found : l.findIdx? test = some index) :
    ∃ before hit after, l = before ++ hit :: after ∧ test hit = true ∧
      (∀ a ∈ before, test a = false) ∧ l.eraseIdx index = before ++ after ∧
      ∀ a, l.set index a = before ++ a :: after := by
  induction l generalizing index with
  | nil => cases found
  | cons a l ih =>
    rw [List.findIdx?_cons] at found
    split_ifs at found with matches_
    · cases found
      exact ⟨[], a, l, rfl, matches_, fun _ mem => absurd mem List.not_mem_nil, rfl, fun _ => rfl⟩
    · obtain ⟨tail, later, rfl⟩ := Option.map_eq_some_iff.mp found
      obtain ⟨before, hit, after, rfl, passes, earlier, erased, replaced⟩ := ih later
      refine ⟨a :: before, hit, after, rfl, passes, ?_, ?_, ?_⟩
      · intro b mem
        rcases List.mem_cons.mp mem with rfl | there
        · exact Bool.not_eq_true _ ▸ matches_
        · exact earlier b there
      · rw [List.eraseIdx_cons_succ, erased]
        rfl
      · intro b
        rw [List.set_cons_succ, replaced]
        rfl

variable {keep : α → Bool}

theorem filter_eraseIdx_of_apart (found : l.findIdx? test = some index)
    (apart : ∀ a, test a = true → keep a = false) :
    (l.eraseIdx index).filter keep = l.filter keep := by
  obtain ⟨before, hit, after, rfl, passes, -, erased, -⟩ := split_of_findIdx? found
  rw [erased, List.filter_append, List.filter_append,
    List.filter_cons_of_neg (by rw [apart hit passes]; exact Bool.false_ne_true)]

theorem filter_set_of_apart (found : l.findIdx? test = some index)
    {a : α} (apart : ∀ b, test b = true → keep b = false) (new : keep a = false) :
    (l.set index a).filter keep = l.filter keep := by
  obtain ⟨before, hit, after, rfl, passes, -, -, replaced⟩ := split_of_findIdx? found
  rw [replaced, List.filter_append, List.filter_append,
    List.filter_cons_of_neg (by rw [new]; exact Bool.false_ne_true),
    List.filter_cons_of_neg (by rw [apart hit passes]; exact Bool.false_ne_true)]

end PlxNative.Position

namespace PlxNative.RecentLog

variable {α : Type u} {room : Nat}

def push (room : Nat) (log : List α) (record : α) : List α :=
  if room < (log ++ [record]).length then (log ++ [record]).drop 1 else log ++ [record]

def recent (room : Nat) (history : List α) : List α := history.drop (history.length - room)

theorem push_recent {room : Nat} (some_room : 0 < room) (history : List α) (record : α) :
    push room (recent room history) record = recent room (history ++ [record]) := by
  have length : (recent room history ++ [record]).length = min history.length room + 1 := by
    simp only [recent, List.length_append, List.length_drop, List.length_singleton]
    omega
  have whole : recent room history ++ [record] = (history ++ [record]).drop (history.length - room) := by
    rw [recent, List.drop_append_of_le_length (Nat.sub_le _ _)]
  unfold push
  rw [length, whole, List.drop_drop]
  unfold recent
  rw [List.length_append, List.length_singleton]
  split
  · congr 1
    omega
  · congr 1
    omega

theorem recent_of_le {history : List α} (fits : history.length ≤ room) : recent room history = history := by
  unfold recent
  rw [Nat.sub_eq_zero_of_le fits, List.drop_zero]

theorem mem_recent {before after : List α} {record : α} (few : after.length < room) :
    record ∈ recent room (before ++ record :: after) := by
  unfold recent
  have place : (before ++ record :: after).length - room ≤ before.length := by
    rw [List.length_append, List.length_cons]
    omega
  rw [List.drop_append_of_le_length place]
  exact List.mem_append_right _ (List.mem_cons_self ..)

theorem recent_sublist (room : Nat) (history : List α) : (recent room history).Sublist history :=
  List.drop_sublist _ _

theorem length_push_le {log : List α} (record : α) (fits : log.length ≤ room) :
    (push room log record).length ≤ max room 1 := by
  unfold push
  split <;> simp only [List.length_drop, List.length_append, List.length_singleton] at * <;> omega

theorem push_sublist (room : Nat) (log : List α) (record : α) : (push room log record).Sublist (log ++ [record]) := by
  unfold push
  split
  · exact List.drop_sublist _ _
  · exact List.Sublist.refl _

theorem map_push {β : Type u} (f : α → β) (log : List α) (record : α) :
    (push room log record).map f = push room (log.map f) (f record) := by
  have whole : log.map f ++ [f record] = (log ++ [record]).map f := by
    rw [List.map_append, List.map_singleton]
  unfold push
  rw [whole, List.length_map]
  split
  · exact List.map_drop
  · rfl

theorem push_getLast? (log : List α) (record : α) (some_room : 0 < room) :
    (push room log record).getLast? = some record := by
  unfold push
  split
  · rename_i full
    cases log with
    | nil =>
      simp only [List.nil_append, List.length_singleton] at full
      omega
    | cons first rest => simp
  · simp

end PlxNative.RecentLog
