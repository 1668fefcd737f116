import PlxNative.Hash.Sha256

/-! Both compressions are the standard's: the constants are its roots of primes, the loops over a
schedule compute its recurrence, and a round is its round. -/
namespace PlxNative.Hash
open Option Schedule
open Fips180 (Registers)

theorem k_eq : k = Fips180.constants := by decide +kernel

theorem h0_eq : h0 = Fips180.initial := by decide +kernel

theorem State.k_eq : State.k = Fips180.constants := by decide +kernel

theorem State.h0_eq : State.h0 = Fips180.initial := by decide +kernel

section
variable {w : Schedule} {block : List UInt8}

theorem at_set (w : Schedule) (i j : Nat) (word : UInt32) (bound : i < 64) :
    at_ (w.setIfInBounds i word) j = if i = j then word else w.at_ j := by
  unfold at_
  rw [Vector.getElem?_setIfInBounds]
  split
  · rename_i eq
    subst eq
    simp
  · rfl

theorem expandAt_eq {t : Nat} (low : 16 ≤ t) (before : ∀ i < t, w.at_ i = Fips180.schedule block i) (bound : t < 64) :
    (expandAt w t).at_ t = Fips180.schedule block t := by
  have step : Fips180.schedule block t = Fips180.smallSigma1 (Fips180.schedule block (t - 2)) + Fips180.schedule block (t - 7) +
      Fips180.smallSigma0 (Fips180.schedule block (t - 15)) + Fips180.schedule block (t - 16) := by
    rw [Fips180.schedule, if_neg (Nat.not_lt.mpr low)]
  unfold expandAt
  rw [at_set _ _ _ _ bound, if_pos rfl, before (t - 15) (by omega), before (t - 2) (by omega), before (t - 16) (by omega),
    before (t - 7) (by omega), step]
  change Fips180.schedule block (t - 16) + Fips180.smallSigma0 (Fips180.schedule block (t - 15)) +
    Fips180.schedule block (t - 7) + Fips180.smallSigma1 (Fips180.schedule block (t - 2)) = _
  ac_rfl

theorem expanded (first : ∀ i < 16, w.at_ i = Fips180.wordAt block i) (n : Nat) (bound : n ≤ 48) :
    ∀ i < 16 + n, at_ ((List.range' 16 n).foldl expandAt w) i = Fips180.schedule block i := by
  induction n with
  | zero =>
    intro i low
    rw [Fips180.schedule, if_pos low]
    exact first i low
  | succ n ih =>
    intro i below
    have before := ih (by omega)
    rw [List.range'_1_concat, List.foldl_append]
    rcases Nat.lt_succ_iff_lt_or_eq.mp (show i < 16 + n + 1 from below) with earlier | rfl
    · change at_ (expandAt _ (16 + n)) i = _
      unfold expandAt
      rw [at_set _ _ _ _ (by omega), if_neg (by omega)]
      exact before i earlier
    · exact expandAt_eq (by omega) before (by omega)

theorem mix_eq (first : ∀ i < 16, w.at_ i = Fips180.wordAt block i) (h : Registers) :
    mix Fips180.constants (expand w) h = Fips180.compress h block := by
  have words : ∀ t ∈ List.range 64, (expand w).at_ t = Fips180.schedule block t := fun t mem =>
    expanded first 48 (Nat.le_refl 48) t (List.mem_range.mp mem)
  unfold mix Fips180.compress
  generalize List.range 64 = turns at words ⊢
  have rounds : turns.foldl (turn Fips180.constants (expand w)) h =
      turns.foldl (fun r t => Fips180.round (Fips180.constants.getD t 0) (Fips180.schedule block t) r) h := by
    apply List.foldl_ext
    intro r t mem
    rw [turn, words t mem]
    rfl
  rw [rounds]

theorem loaded (block : List UInt8) (n : Nat) (bound : n ≤ 16) : ∀ i < n,
    at_ ((List.range n).foldl (fun w i => w.setIfInBounds i (Fips180.beWord (block.getD (i * 4) 0)
      (block.getD (i * 4 + 1) 0) (block.getD (i * 4 + 2) 0) (block.getD (i * 4 + 3) 0))) (Vector.replicate 64 0)) i =
      Fips180.wordAt block i := by
  induction n with
  | zero => exact fun i low => absurd low (Nat.not_lt_zero i)
  | succ n ih =>
    intro i below
    rw [List.range_succ, List.foldl_append, List.foldl_cons, List.foldl_nil, at_set _ _ _ _ (by omega)]
    split
    · rename_i eq
      subst eq
      rw [Fips180.wordAt, Nat.mul_comm 4 n]
    · exact ih (by omega) i (by omega)

theorem compress_eq (h : Registers) (block : List UInt8) : mix k (expand (load block)) h = Fips180.compress h block := by
  rw [k_eq]
  exact mix_eq (loaded block 16 (Nat.le_refl 16)) h

theorem first_getElem? (n k : Nat) (items : List UInt8) (i : Nat) (bound : i < k) :
    (Blocks.first n k items)[i]? = some ((items.drop (n * i)).take n) := by
  induction k generalizing items i with
  | zero => exact absurd bound (Nat.not_lt_zero i)
  | succ k ih =>
    cases i with
    | zero => rfl
    | succ i =>
      change (Blocks.first n k (items.drop n))[i]? = _
      rw [ih (items.drop n) i (Nat.lt_of_succ_lt_succ bound), List.drop_drop, Nat.mul_succ, Nat.add_comm]

theorem State.loaded (whole : block.length = 64) : ∀ i < 16, (State.load block).at_ i = Fips180.wordAt block i := by
  intro i bound
  have four : (Blocks.whole 4 block)[i]? = some ((block.drop (4 * i)).take 4) := by
    apply first_getElem?
    omega
  have small : i < 64 := by omega
  have byte : ∀ j < 4, ((block.drop (4 * i)).take 4).getD j 0 = block.getD (4 * i + j) 0 := by
    intro j low
    rw [List.getD_eq_getElem?_getD, List.getD_eq_getElem?_getD, List.getElem?_take, if_pos low, List.getElem?_drop]
  unfold State.load at_
  simp only [Vector.getElem?_mapIdx, Vector.getElem?_replicate, small, if_true, map_some, getD_some]
  rw [List.getD_eq_getElem?_getD, List.getElem?_map, four, map_some, getD_some, byte 0 (by decide),
    byte 1 (by decide), byte 2 (by decide), byte 3 (by decide)]
  rfl

theorem State.compress_eq (whole : block.length = 64) (h : Registers) :
    mix State.k (expand (State.load block)) h = Fips180.compress h block := by
  rw [State.k_eq]
  exact mix_eq (State.loaded whole) h

end
end PlxNative.Hash
