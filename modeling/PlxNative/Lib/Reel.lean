import Mathlib.Data.List.Basic

/-! A bounded window that slides over one sequence, in strides of some length. -/

structure Reel (α : Type) where
  past : List α
  shown : List α
  coming : List α

namespace Reel
open List
variable {α : Type}

def whole (r : Reel α) : List α := r.past ++ r.shown ++ r.coming

def gain (n : Nat) (r : Reel α) : Reel α := ⟨r.past, r.shown ++ r.coming.take n, r.coming.drop n⟩

def lose (n : Nat) (r : Reel α) : Reel α := ⟨r.past ++ r.shown.take n, r.shown.drop n, r.coming⟩

/-- A stride: the next are shown, and the oldest past the bound are let go. -/
def stride (n bound : Nat) (r : Reel α) : Reel α := (r.gain n).lose ((r.gain n).shown.length - bound)

def turned (r : Reel α) : Reel α := ⟨r.coming.reverse, r.shown.reverse, r.past.reverse⟩

@[simp] theorem turned_turned (r : Reel α) : r.turned.turned = r := by
  simp [turned]

@[simp] theorem whole_turned (r : Reel α) : r.turned.whole = r.whole.reverse := by
  simp [turned, whole]

@[simp] theorem whole_gain (n : Nat) (r : Reel α) : (r.gain n).whole = r.whole := by
  simp [gain, whole]

@[simp] theorem whole_lose (n : Nat) (r : Reel α) : (r.lose n).whole = r.whole := by
  simp only [lose, whole]
  rw [append_assoc r.past, take_append_drop]

@[simp] theorem whole_stride (n bound : Nat) (r : Reel α) : (r.stride n bound).whole = r.whole :=
  (whole_lose _ _).trans (whole_gain n r)

theorem shown_within (r : Reel α) : r.shown <:+: r.whole := ⟨r.past, r.coming, rfl⟩

theorem stride_bounded (n bound : Nat) (r : Reel α) : (r.stride n bound).shown.length ≤ bound := by
  simp only [stride, lose, length_drop]
  omega

@[simp] theorem stride_coming (n bound : Nat) (r : Reel α) : (r.stride n bound).coming = r.coming.drop n := rfl

theorem stride_met (n bound : Nat) (r : Reel α) :
    (r.stride n bound).past ++ (r.stride n bound).shown = r.past ++ r.shown ++ r.coming.take n := by
  simp only [stride, lose, gain]
  rw [append_assoc, take_append_drop, append_assoc]

/-- The reel with the direction of travel in front. -/
def facing (forward : Bool) (r : Reel α) : Reel α := if forward then r else r.turned

variable {r : Reel α}

@[simp] theorem facing_facing (forward : Bool) (r : Reel α) : (r.facing forward).facing forward = r := by
  cases forward
  · exact turned_turned r
  · rfl

@[simp] theorem facing_true (r : Reel α) : r.facing true = r := rfl

@[simp] theorem facing_false (r : Reel α) : r.facing false = r.turned := rfl

@[simp] theorem whole_facing_gain (forward : Bool) (n : Nat) (r : Reel α) :
    (((r.facing forward).gain n).facing forward).whole = r.whole := by
  cases forward <;> simp

@[simp] theorem whole_facing_lose (forward : Bool) (n : Nat) (r : Reel α) :
    (((r.facing forward).lose n).facing forward).whole = r.whole := by
  cases forward <;> simp

@[simp] theorem gain_zero (r : Reel α) : r.gain 0 = r := by
  simp [gain]

@[simp] theorem lose_zero (r : Reel α) : r.lose 0 = r := by
  simp [lose]

theorem gain_of_nil (ends : r.coming = []) (n : Nat) : r.gain n = r := by
  cases r
  cases ends
  simp [gain]

variable {rest : List α}
variable {c : α}

theorem gain_one (next : r.coming = c :: rest) : r.gain 1 = ⟨r.past, r.shown ++ [c], rest⟩ := by
  simp [gain, next]

theorem lose_one (oldest : r.shown = c :: rest) : r.lose 1 = ⟨r.past ++ [c], rest, r.coming⟩ := by
  simp [lose, oldest]

theorem gain_gain (next : r.coming = c :: rest) (n : Nat) : (r.gain 1).gain n = r.gain (n + 1) := by
  simp [gain, next]

theorem lose_lose (oldest : r.shown = c :: rest) (n : Nat) : (r.lose 1).lose n = r.lose (n + 1) := by
  simp [lose, oldest]

variable {n bound : Nat}

theorem stride_shown (r : Reel α) (small : n ≤ bound) :
    (r.stride n bound).shown = r.shown.drop ((r.gain n).shown.length - bound) ++ r.coming.take n := by
  simp only [stride, gain]
  apply drop_append_of_le_length
  rw [length_append, length_take]
  omega

theorem stride_news [DecidableEq α] (r : Reel α) (small : n ≤ bound) (nodup : r.whole.Nodup) :
    (r.stride n bound).shown.filter (fun a => a ∉ r.past ++ r.shown) = r.coming.take n := by
  rw [stride_shown r small, filter_append, filter_eq_nil_iff.mpr, filter_eq_self.mpr, nil_append]
  · intro a mem
    apply decide_eq_true
    intro known
    exact (nodup_append.mp nodup).2.2 a known a (mem_of_mem_take mem) rfl
  · intro a mem
    simp [mem_of_mem_drop mem]

def strides (n bound : Nat) : Nat → Reel α → Reel α
  | 0, r => r
  | k + 1, r => (strides n bound k r).stride n bound

@[simp] theorem whole_strides (n bound k : Nat) (r : Reel α) : (strides n bound k r).whole = r.whole := by
  induction k with
  | zero => rfl
  | succ k ih => rw [strides, whole_stride, ih]

theorem strides_coming (n bound k : Nat) (r : Reel α) : (strides n bound k r).coming = r.coming.drop (k * n) := by
  induction k with
  | zero => simp [strides]
  | succ k ih => rw [strides, stride_coming, ih, drop_drop, Nat.succ_mul]

def Full (bound : Nat) (r : Reel α) : Prop := r.shown.length = min bound r.whole.length

theorem whole_length (r : Reel α) : r.whole.length = r.past.length + r.shown.length + r.coming.length := by
  rw [whole, length_append, length_append]

theorem Full.stride (full : r.Full bound) : (r.stride n bound).Full bound := by
  rw [Full, whole_stride]
  have length := whole_length r
  rw [Full] at full
  simp only [Reel.stride, lose, gain, length_drop, length_append, length_take]
  omega

theorem Full.strides (full : r.Full bound) (k : Nat) : (Reel.strides n bound k r).Full bound := by
  induction k with
  | zero => exact full
  | succ k ih => exact ih.stride

theorem Full.turned {bound : Nat} (full : r.Full bound) : r.turned.Full bound := by
  rw [Full, whole_turned, length_reverse]
  exact length_reverse.trans full

theorem Full.first {bound : Nat} (full : r.Full bound) (none_ : r.past = []) : r.shown = r.whole.take bound := by
  have shape : r.whole = r.shown ++ r.coming := by rw [whole, none_, nil_append]
  have length := congrArg List.length shape
  rw [length_append] at length
  rw [Full] at full
  rw [shape]
  rcases Nat.lt_or_ge r.shown.length bound with short | long
  · have rest : r.coming = [] := length_eq_zero_iff.mp (by omega)
    rw [rest, append_nil, take_of_length_le (Nat.le_of_lt short)]
  · have exactly : r.shown.length = bound := by omega
    rw [← exactly, take_left']
    rfl

theorem strides_shown (r : Reel α) (small : n ≤ bound) (k : Nat) :
    ∀ a ∈ (strides n bound k r).shown, a ∈ r.shown ++ r.coming.take (k * n) := by
  induction k with
  | zero => exact fun a mem => mem_append_left _ mem
  | succ k ih =>
    intro a mem
    rw [strides, stride_shown _ small, mem_append, strides_coming] at mem
    rw [Nat.succ_mul, take_add, ← append_assoc]
    rcases mem with old | new
    · exact mem_append_left _ (ih a (mem_of_mem_drop old))
    · exact mem_append_right _ new

theorem strides_news [DecidableEq α] (r : Reel α) (small : n ≤ bound) (nodup : (r.shown ++ r.coming).Nodup)
    (k : Nat) : (strides n bound (k + 1) r).shown.filter (fun a => a ∉ r.shown ++ r.coming.take (k * n)) =
      (r.coming.drop (k * n)).take n := by
  rw [strides, stride_shown _ small, filter_append, strides_coming, filter_eq_nil_iff.mpr,
    filter_eq_self.mpr, nil_append]
  · intro a mem
    apply decide_eq_true
    intro known
    rw [← take_append_drop (k * n) r.coming, ← append_assoc] at nodup
    exact (nodup_append.mp nodup).2.2 a known a (mem_of_mem_take mem) rfl
  · intro a mem
    have known := strides_shown r small k a (mem_of_mem_drop mem)
    simp only [decide_not, Bool.not_eq_true', decide_eq_false_iff_not, not_not]
    exact known

end Reel
