import PlxNative.Lib.Transducer
import Mathlib.Data.List.Perm.Basic

/-! One line of items in front of one server. An item joins at the back and is served from the
front, one at a time, and some may be lost. What has been served is always in the order of
joining, and no item is lost twice or without a trace. -/
namespace PlxNative.Pipeline
open List

universe u
variable {α : Type u}

structure Line (α : Type u) where
  joined : List α
  waiting : List α
  serving : List α
  started : List α
  finished : List α
  dropped : List α

def Line.empty : Line α := ⟨[], [], [], [], [], []⟩

inductive Moves : Line α → Line α → Prop where
  | still {l : Line α} : Moves l l
  | joins {l : Line α} (x : α) : Moves l { l with joined := l.joined ++ [x], waiting := l.waiting ++ [x] }
  | starts {l : Line α} (front rest : List α) (waiting : l.waiting = front ++ rest) (idle : l.serving = []) :
      Moves l { l with waiting := rest, serving := front, started := l.started ++ front }
  | finishes {l : Line α} : Moves l { l with serving := [], finished := l.finished ++ l.serving }
  | breaks {l : Line α} : Moves l { l with serving := [], dropped := l.dropped ++ l.serving }
  | loses {l : Line α} (front rest : List α) (waiting : l.waiting = front ++ rest) :
      Moves l { l with waiting := rest, dropped := l.dropped ++ front }

/-- Every item that joined is in one place, and the served ones came in the order of joining. -/
structure Ordered (l : Line α) : Prop where
  places : (l.waiting ++ l.serving ++ l.finished ++ l.dropped).Perm l.joined
  order : (l.started ++ l.waiting).Sublist l.joined

theorem empty_ordered : Ordered (Line.empty : Line α) := ⟨.refl _, .refl _⟩

theorem Ordered.moves {l t : Line α} (ordered : Ordered l) (moves : Moves l t) : Ordered t := by
  obtain ⟨places, order⟩ := ordered
  cases moves with
  | still => exact ⟨places, order⟩
  | joins x =>
    constructor
    · have moved : (l.waiting ++ [x] ++ l.serving ++ l.finished ++ l.dropped).Perm
          (l.waiting ++ l.serving ++ l.finished ++ l.dropped ++ [x]) := by
        simp only [append_assoc]
        exact (perm_append_comm_assoc _ _ _).trans (by
          simpa using (perm_append_comm : ([x] ++ (l.waiting ++ (l.serving ++ (l.finished ++ l.dropped)))).Perm _))
      exact moved.trans (places.append_right [x])
    · rw [← append_assoc]
      exact order.append (List.Sublist.refl [x])
  | starts front rest waiting idle =>
    rw [waiting, idle] at places
    rw [waiting, ← append_assoc] at order
    refine ⟨List.Perm.trans ?_ places, order⟩
    simp only [append_assoc, nil_append]
    exact perm_append_comm_assoc _ _ _
  | finishes =>
    refine ⟨List.Perm.trans ?_ places, order⟩
    simp only [append_assoc, nil_append]
    exact (perm_append_comm_assoc _ _ _).append_left _
  | breaks =>
    refine ⟨List.Perm.trans ?_ places, order⟩
    simp only [append_assoc, nil_append]
    have moved : ((l.finished ++ l.dropped) ++ l.serving).Perm (l.serving ++ (l.finished ++ l.dropped)) := perm_append_comm
    rw [append_assoc] at moved
    exact moved.append_left _
  | loses front rest waiting =>
    rw [waiting] at places order
    constructor
    · refine List.Perm.trans ?_ places
      simp only [append_assoc]
      rw [← append_assoc, ← append_assoc, ← append_assoc]
      refine perm_append_comm.trans ?_
      simp only [append_assoc]
      exact .refl _
    · exact (List.Sublist.append (.refl _) (sublist_append_right front rest)).trans order

theorem Ordered.started_once {l : Line α} (ordered : Ordered l) (apart : l.joined.Nodup) :
    l.started.Nodup ∧ l.started.Sublist l.joined := by
  have order := (sublist_append_left l.started l.waiting).trans ordered.order
  exact ⟨apart.sublist order, order⟩

end PlxNative.Pipeline
