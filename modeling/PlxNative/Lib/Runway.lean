import Mathlib.Algebra.Order.Group.MinMax
import Mathlib.Algebra.BigOperators.Group.List.Basic
import Mathlib.Order.Bounds.Basic
import Mathlib.Tactic.Abel

/-! A reserve that a list of draws is played against: each draw takes its cost before its
credit is paid in. The least starting reserve of one order, and the worst over all orders. -/
namespace PlxNative.Runway
open List

structure Draw (α : Type*) where
  cost : α
  credit : α

section

variable {α : Type*} [AddCommGroup α]

def Draw.delta (draw : Draw α) : α := draw.cost - draw.credit

def excess (draws : List (Draw α)) : α := (draws.map Draw.delta).sum

@[simp] theorem excess_nil : excess ([] : List (Draw α)) = 0 := rfl

@[simp] theorem excess_cons (draw : Draw α) (rest : List (Draw α)) :
    excess (draw :: rest) = draw.delta + excess rest := by simp [excess]

@[simp] theorem excess_append (first second : List (Draw α)) : excess (first ++ second) = excess first + excess second := by
  simp [excess]

theorem excess_eq (draws : List (Draw α)) :
    excess draws = (draws.map Draw.cost).sum - (draws.map Draw.credit).sum := by
  induction draws with
  | nil => simp
  | cons draw rest ih =>
    simp only [excess_cons, ih, map_cons, sum_cons, Draw.delta]
    abel

variable [LinearOrder α]

def Draw.slack (draw : Draw α) : α := max draw.delta 0

def Draw.capped (draw : Draw α) : α := min draw.cost draw.credit

structure Draw.Sound (draw : Draw α) : Prop where
  cost : 0 ≤ draw.cost
  credit : 0 ≤ draw.credit

def slack (draws : List (Draw α)) : α := (draws.map Draw.slack).sum

def capped : List (Draw α) → α
  | [] => 0
  | draw :: rest => max draw.capped (capped rest)

def runway : List (Draw α) → α
  | [] => 0
  | draw :: rest => max draw.cost (draw.delta + runway rest)

/-- The boundary of the worst order: every shortfall, then the largest delivery not yet paid. -/
def stress (draws : List (Draw α)) : α := slack draws + capped draws

def Survives : α → List (Draw α) → Prop
  | _, [] => True
  | reserve, draw :: rest => draw.cost ≤ reserve ∧ Survives (reserve - draw.cost + draw.credit) rest

@[simp] theorem slack_nil : slack ([] : List (Draw α)) = 0 := rfl

@[simp] theorem slack_cons (draw : Draw α) (rest : List (Draw α)) :
    slack (draw :: rest) = draw.slack + slack rest := by simp [slack]

@[simp] theorem slack_append (first second : List (Draw α)) :
    slack (first ++ second) = slack first + slack second := by simp [slack]

theorem Draw.slack_nonneg (draw : Draw α) : 0 ≤ draw.slack := le_max_right _ _

theorem Draw.delta_le_slack (draw : Draw α) : draw.delta ≤ draw.slack := le_max_left _ _

theorem Draw.Sound.capped_nonneg {draw : Draw α} (sound : draw.Sound) : 0 ≤ draw.capped :=
  le_min sound.cost sound.credit

theorem capped_nonneg (draws : List (Draw α)) : 0 ≤ capped draws := by
  induction draws with
  | nil => exact le_rfl
  | cons draw rest ih => exact le_max_of_le_right ih

theorem capped_append (first second : List (Draw α)) :
    capped (first ++ second) = max (capped first) (capped second) := by
  induction first with
  | nil => simp [capped, capped_nonneg]
  | cons draw rest ih => simp only [cons_append, capped, ih, max_assoc]

theorem exists_capped {draws : List (Draw α)} (some_draw : draws ≠ []) (sound : ∀ draw ∈ draws, draw.Sound) :
    ∃ best ∈ draws, best.capped = capped draws := by
  induction draws with
  | nil => exact absurd rfl some_draw
  | cons draw rest ih =>
    by_cases last : rest = []
    · subst last
      exact ⟨draw, .head _, (max_eq_left (sound draw (.head _)).capped_nonneg).symm⟩
    · obtain ⟨best, inside, largest⟩ := ih last fun draw inside => sound draw (.tail _ inside)
      rcases le_total draw.capped (capped rest) with low | high
      · exact ⟨best, .tail _ inside, largest.trans (max_eq_right low).symm⟩
      · exact ⟨draw, .head _, (max_eq_left high).symm⟩

variable {first second : List (Draw α)}

theorem slack_perm (eq : first.Perm second) : slack first = slack second :=
  (eq.map _).sum_eq

theorem capped_perm (eq : first.Perm second) :
    capped first = capped second := by
  induction eq with
  | nil => rfl
  | cons draw _ ih => simp only [capped, ih]
  | swap first second rest => simp only [capped, max_left_comm]
  | trans _ _ ih ih' => exact ih.trans ih'

theorem stress_perm (eq : first.Perm second) : stress first = stress second := by
  unfold stress
  rw [slack_perm eq, capped_perm eq]

theorem runway_nonneg {draws : List (Draw α)} (sound : ∀ draw ∈ draws, draw.Sound) : 0 ≤ runway draws := by
  cases draws with
  | nil => exact le_rfl
  | cons draw rest => exact le_max_of_le_left (sound draw (.head _)).cost

theorem excess_shortfalls (draws : List (Draw α)) :
    excess (draws.filter fun draw => 0 < draw.delta) = slack draws := by
  induction draws with
  | nil => rfl
  | cons draw rest ih =>
    rw [filter_cons, slack_cons]
    by_cases short : 0 < draw.delta
    · rw [if_pos (by simpa using short), excess_cons, ih, Draw.slack, max_eq_left short.le]
    · rw [if_neg (by simpa using short), ih, Draw.slack, max_eq_right (not_lt.mp short), zero_add]

end

section

variable {α : Type*} [AddCommGroup α] [LinearOrder α] [IsOrderedAddMonoid α]

theorem Draw.slack_add_capped (draw : Draw α) : draw.slack + draw.capped = draw.cost := by
  unfold Draw.slack Draw.capped Draw.delta
  rcases le_total draw.cost draw.credit with low | high
  · rw [max_eq_right (sub_nonpos.mpr low), min_eq_left low, zero_add]
  · rw [max_eq_left (sub_nonneg.mpr high), min_eq_right high, sub_add_cancel]

theorem slack_nonneg (draws : List (Draw α)) : 0 ≤ slack draws := by
  induction draws with
  | nil => exact le_rfl
  | cons draw rest ih => simpa using add_nonneg draw.slack_nonneg ih

theorem runway_append {first second : List (Draw α)} (sound : ∀ draw ∈ first ++ second, draw.Sound) :
    runway (first ++ second) = max (runway first) (excess first + runway second) := by
  induction first with
  | nil => simp [runway, runway_nonneg (by simpa using sound)]
  | cons draw rest ih =>
    rw [cons_append, runway, ih (fun draw inside => sound draw (.tail _ inside)), runway, excess_cons,
      ← max_add_add_left, ← max_assoc, add_assoc]

variable {draws : List (Draw α)}

section
variable (sound : ∀ draw ∈ draws, draw.Sound)
include sound

theorem survives_iff {reserve : α}
    (held : 0 ≤ reserve) : Survives reserve draws ↔ runway draws ≤ reserve := by
  induction draws generalizing reserve with
  | nil => simp [Survives, runway, held]
  | cons draw rest ih =>
    rw [Survives, runway, max_le_iff]
    refine and_congr_right fun covered => ?_
    have left_over : 0 ≤ reserve - draw.cost + draw.credit :=
      add_nonneg (sub_nonneg.mpr covered) (sound draw (.head _)).credit
    have shifted : reserve - draw.cost + draw.credit = reserve - draw.delta := by
      unfold Draw.delta
      abel
    rw [ih (fun draw inside => sound draw (.tail _ inside)) left_over, shifted, le_sub_iff_add_le']

/-- The runway is the dearest moment of the order, with what was overdrawn up to it. -/
theorem runway_isGreatest :
    IsGreatest { x | x = 0 ∨ ∃ before draw after, draws = before ++ draw :: after ∧ x = excess before + draw.cost }
      (runway draws) := by
  induction draws with
  | nil =>
    refine ⟨.inl rfl, ?_⟩
    rintro x (rfl | ⟨before, draw, after, whole, -⟩)
    · exact le_rfl
    · simp at whole
  | cons draw rest ih =>
    have later := fun draw inside => sound draw (.tail _ inside)
    obtain ⟨among, bounds⟩ := ih later
    refine ⟨?_, ?_⟩
    · rw [runway]
      rcases le_total (draw.delta + runway rest) draw.cost with low | high
      · rw [max_eq_left low]
        exact .inr ⟨[], draw, rest, rfl, by simp⟩
      · rw [max_eq_right high]
        rcases among with none | ⟨before, next, after, rfl, here⟩
        · rw [none, add_zero] at high
          have free : draw.delta = draw.cost :=
            le_antisymm (sub_le_self _ (sound draw (.head _)).credit) high
          exact .inr ⟨[], draw, rest, rfl, by simp [none, free]⟩
        · exact .inr ⟨draw :: before, next, after, rfl, by rw [here, excess_cons, add_assoc]⟩
    · rintro x (rfl | ⟨before, next, after, whole, rfl⟩)
      · exact runway_nonneg sound
      · cases before with
        | nil =>
          cases whole
          simp [runway]
        | cons _ before =>
          cases whole
          rw [excess_cons, add_assoc]
          exact le_max_of_le_right (add_le_add le_rfl (bounds (.inr ⟨before, next, after, rfl, rfl⟩)))

theorem Survives.again (closed : excess draws ≤ 0) {reserve : α} (held : 0 ≤ reserve)
    (played : Survives reserve draws) (k : Nat) : Survives reserve (replicate k draws).flatten := by
  have all : ∀ k, ∀ draw ∈ (replicate k draws).flatten, draw.Sound := by
    intro k draw mem
    obtain ⟨round, mem, inside⟩ := mem_flatten.mp mem
    exact sound draw (eq_of_mem_replicate mem ▸ inside)
  rw [survives_iff sound held] at played
  rw [survives_iff (all k) held]
  induction k with
  | zero => exact held
  | succ k ih =>
    have more := all (k + 1)
    rw [replicate_succ, flatten_cons] at more ⊢
    rw [runway_append more]
    exact max_le played ((add_le_of_nonpos_left closed).trans ih)

end

theorem runway_isLeast (some_draw : draws ≠ []) (sound : ∀ draw ∈ draws, draw.Sound) :
    IsLeast { reserve | Survives reserve draws } (runway draws) := by
  refine ⟨(survives_iff sound (runway_nonneg sound)).mpr le_rfl, fun reserve played => ?_⟩
  -- a draw is there, so a reserve that plays it covers its cost
  have held : 0 ≤ reserve := by
    cases draws with
    | nil => exact absurd rfl some_draw
    | cons draw rest => exact (sound draw (.head _)).cost.trans played.1
  exact (survives_iff sound held).mp played

theorem runway_le_stress (draws : List (Draw α)) : runway draws ≤ stress draws := by
  induction draws with
  | nil => exact (add_zero (0 : α)).ge
  | cons draw rest ih =>
    unfold stress at ih ⊢
    refine max_le ?_ ?_
    · calc draw.cost = draw.slack + draw.capped := draw.slack_add_capped.symm
        _ ≤ draw.slack + slack rest + max draw.capped (capped rest) :=
          add_le_add (le_add_of_nonneg_right (slack_nonneg rest)) (le_max_left _ _)
    · calc draw.delta + runway rest ≤ draw.slack + (slack rest + capped rest) :=
          add_le_add draw.delta_le_slack ih
        _ = draw.slack + slack rest + capped rest := (add_assoc _ _ _).symm
        _ ≤ draw.slack + slack rest + max draw.capped (capped rest) := by
          gcongr
          exact le_max_right _ _

section
variable (sound : ∀ draw ∈ draws, draw.Sound)
include sound

theorem stress_le_cost :
    stress draws ≤ (draws.map Draw.cost).sum := by
  induction draws with
  | nil => exact (add_zero (0 : α)).le
  | cons draw rest ih =>
    have rest_sound : ∀ draw ∈ rest, draw.Sound := fun draw inside => sound draw (.tail _ inside)
    have rest_capped := capped_nonneg rest
    unfold stress at ih ⊢
    rw [slack_cons, capped, map_cons, sum_cons, ← draw.slack_add_capped]
    calc draw.slack + slack rest + max draw.capped (capped rest)
        ≤ draw.slack + slack rest + (draw.capped + capped rest) := by
          gcongr
          exact max_le (le_add_of_nonneg_right rest_capped)
            (le_add_of_nonneg_left (sound draw (.head _)).capped_nonneg)
      _ = draw.slack + draw.capped + (slack rest + capped rest) := by abel
      _ ≤ _ := by
          gcongr
          exact ih rest_sound

theorem exists_worst :
    ∃ order : List (Draw α), order.Perm draws ∧ runway order = stress draws := by
  by_cases none : draws = []
  · subst none
    exact ⟨[], .nil, (add_zero (0 : α)).symm⟩
  obtain ⟨best, inside, largest⟩ := exists_capped none sound
  obtain ⟨before, after, rfl⟩ := append_of_mem inside
  let others := before ++ after
  let short := others.filter fun draw => 0 < draw.delta
  let long := others.filter fun draw => !decide (0 < draw.delta)
  have moved : (before ++ best :: after).Perm (best :: others) := perm_middle
  have order_perm : (short ++ best :: long).Perm (before ++ best :: after) :=
    (perm_middle.trans ((filter_append_perm _ others).cons best)).trans moved.symm
  refine ⟨short ++ best :: long, order_perm, ?_⟩
  have order_sound : ∀ draw ∈ short ++ best :: long, draw.Sound := fun draw at_order =>
    sound draw (order_perm.subset at_order)
  refine le_antisymm ((runway_le_stress _).trans_eq (stress_perm order_perm)) ?_
  calc stress (before ++ best :: after) = best.slack + slack others + best.capped := by
        unfold stress
        rw [slack_perm moved, slack_cons, largest]
    _ = excess short + best.cost := by
        rw [excess_shortfalls, ← best.slack_add_capped]
        abel
    _ ≤ excess short + runway (best :: long) := by
        gcongr
        exact le_max_left _ _
    _ ≤ runway (short ++ best :: long) := by
        rw [runway_append order_sound]
        exact le_max_right _ _

theorem stress_isGreatest :
    IsGreatest { boundary | ∃ order : List (Draw α), order.Perm draws ∧ runway order = boundary } (stress draws) := by
  refine ⟨exists_worst sound, ?_⟩
  rintro _ ⟨order, eq, rfl⟩
  exact (runway_le_stress order).trans_eq (stress_perm eq)

end

end

end PlxNative.Runway
