import PlxNative.Lib.KeyOrder
import PlxNative.Lib.Words

/-! A budget shared among the sources of a merge: the smallest demand is served first, and what it
leaves is divided anew. -/
namespace PlxNative.Merge
open List KeyOrder Usize Option

/-- An even part of what is left, at least one while there is any. -/
def share (left sources : Nat) : Nat := min (max (left / sources) 1) left

/-- Demands served in the order given. -/
def pour : Nat → List Nat → List Nat
  | _, [] => []
  | left, w :: ws => min w (share left (ws.length + 1)) :: pour (left - min w (share left (ws.length + 1))) ws

section
variable {left more n c w : Nat} {ws : List Nat}

theorem share_le_left (left n : Nat) : share left n ≤ left := Nat.min_le_right _ _

theorem le_share (positive : 0 < n) (funded : n * c ≤ left) : c ≤ share left n := by
  have even : c ≤ left / n := (Nat.le_div_iff_mul_le positive).mpr (by rw [Nat.mul_comm]; exact funded)
  have less := Nat.div_le_self left n
  unfold share
  omega

/-- A part takes what is left, or an even part of it, or the one that is left to each. -/
theorem share_cases (left n : Nat) : share left (n + 1) = left / (n + 1) ∧ 1 ≤ left / (n + 1) ∨
    left < n + 1 ∧ share left (n + 1) = min 1 left := by
  rcases Nat.lt_or_ge left (n + 1) with few | enough
  · unfold share
    rw [Nat.div_eq_of_lt few]
    omega
  · have one : 1 ≤ left / (n + 1) := Nat.div_pos enough (Nat.succ_pos n)
    have less := Nat.div_le_self left (n + 1)
    unfold share
    omega

/-- What the first source leaves still funds the others as it was funded. -/
theorem funded_rest (funded : (n + 1) * c ≤ left) : n * c ≤ left - share left (n + 1) := by
  have even := Nat.mul_div_le left (n + 1)
  have each : c ≤ left / (n + 1) := (Nat.le_div_iff_mul_le (Nat.succ_pos n)).mpr (by rw [Nat.mul_comm]; exact funded)
  rcases share_cases left n with ⟨eq, one⟩ | ⟨few, eq⟩
  · have less := Nat.mul_le_mul_left n each
    rw [Nat.add_mul] at even
    omega
  · have nothing : c = 0 := by
      rw [Nat.div_eq_of_lt few] at each
      omega
    rw [nothing]
    omega

/-- When every other demand is above the part given, they share no more than one above it each. -/
theorem bounded_rest (bounded : left ≤ (n + 1) * c) (positive : 0 < c) : left - share left (n + 1) ≤ n * c := by
  have split := Nat.div_add_mod left (n + 1)
  have small : left % (n + 1) < n + 1 := Nat.mod_lt left (Nat.succ_pos n)
  rcases share_cases left n with ⟨eq, one⟩ | ⟨few, eq⟩
  · rcases Nat.lt_or_ge (left / (n + 1)) c with below | above
    · have step := Nat.mul_le_mul_left n (Nat.succ_le_of_lt below)
      rw [Nat.add_mul] at split
      rw [Nat.mul_succ] at step
      omega
    · rw [Nat.add_mul] at split bounded
      omega
  · have step := Nat.mul_le_mul_left n positive
    omega

/-- Everyone with one above the part given would take more than there is. -/
theorem below_next (left n : Nat) : left ≤ (n + 1) * (share left (n + 1) + 1) := by
  rcases share_cases left n with ⟨eq, -⟩ | ⟨few, -⟩
  · rw [eq]
    exact Nat.le_of_lt (Nat.lt_mul_div_succ left (Nat.succ_pos n))
  · exact Nat.le_trans (Nat.le_of_lt few) (Nat.le_mul_of_pos_right _ (Nat.succ_pos _))

theorem share_mono (le : left ≤ more) : share left n ≤ share more n := by
  have even := Nat.div_le_div_right (c := n) le
  unfold share
  omega

/-- One more to share gives a part at most one more. -/
theorem share_slow (le : left ≤ more) : share more (n + 1) + left ≤ share left (n + 1) + more := by
  have even : more / (n + 1) ≤ left / (n + 1) + (more - left) := by
    have split := Nat.add_mul_div_left left (more - left) (Nat.succ_pos n)
    have wider : more ≤ left + (n + 1) * (more - left) := by
      have step : more - left ≤ (n + 1) * (more - left) := Nat.le_mul_of_pos_left _ (Nat.succ_pos n)
      omega
    exact Nat.le_trans (Nat.div_le_div_right wider) (Nat.le_of_eq split)
  unfold share
  omega

theorem pour_length (left : Nat) (ws : List Nat) : (pour left ws).length = ws.length := by
  induction ws generalizing left with
  | nil => rfl
  | cons w ws ih => exact congrArg (· + 1) (ih _)

theorem pour_le (left : Nat) (ws : List Nat) : Forall₂ (· ≤ ·) (pour left ws) ws := by
  induction ws generalizing left with
  | nil => exact .nil
  | cons w ws ih => exact .cons (Nat.min_le_left _ _) (ih _)

theorem pour_mono (le : left ≤ more) (ws : List Nat) : Forall₂ (· ≤ ·) (pour left ws) (pour more ws) := by
  induction ws generalizing left more with
  | nil => exact .nil
  | cons w ws ih =>
    have grows := share_mono (n := ws.length + 1) le
    have slowly := share_slow (n := ws.length) le
    refine .cons (by omega) (ih (by omega))

/-- Sources funded with a part each get it, or all they want. -/
theorem pour_funded (funded : ws.length * c ≤ left) : Forall₂ (fun w g => min w c ≤ g) ws (pour left ws) := by
  induction ws generalizing left with
  | nil => exact .nil
  | cons w ws ih =>
    have part : c ≤ share left (ws.length + 1) := le_share (Nat.succ_pos ws.length) funded
    have rest := funded_rest funded
    refine .cons (by omega) (ih (by omega))

/-- Sources that all want a part, with no more than that for each, get no more than it. -/
theorem pour_bounded (bounded : left ≤ ws.length * c) (positive : 0 < c) (wanted : ∀ w ∈ ws, c ≤ w) :
    ∀ g ∈ pour left ws, g ≤ c := by
  induction ws generalizing left with
  | nil => nofun
  | cons w ws ih =>
    have rest := bounded_rest bounded positive
    have head := wanted w mem_cons_self
    have part : share left (ws.length + 1) ≤ c := by
      have even : left / (ws.length + 1) ≤ c := Nat.div_le_of_le_mul bounded
      unfold share
      omega
    have whole : min w (share left (ws.length + 1)) = share left (ws.length + 1) := by omega
    intro g mem
    rcases mem_cons.mp mem with rfl | mem
    · omega
    · rw [whole] at mem
      exact ih rest (fun w mem => wanted w (mem_cons_of_mem _ mem)) g mem

/-- A source that is left short has no other more than one above it. -/
def Fair (a b : Nat × Nat) : Prop := (a.2 < a.1 → b.2 ≤ a.2 + 1) ∧ (b.2 < b.1 → a.2 ≤ b.2 + 1)

theorem pour_fair (left : Nat) (sorted : ws.Pairwise (· ≤ ·)) : (ws.zip (pour left ws)).Pairwise Fair := by
  induction ws generalizing left with
  | nil => exact .nil
  | cons w ws ih =>
    obtain ⟨least, sorted⟩ := pairwise_cons.mp sorted
    refine pairwise_cons.mpr ⟨?_, ih _ sorted⟩
    rintro ⟨w', g'⟩ mem
    obtain ⟨wanted, given⟩ := of_mem_zip mem
    constructor
    · intro short
      have whole : min w (share left (ws.length + 1)) = share left (ws.length + 1) := by omega
      rw [whole] at given ⊢
      have rest := bounded_rest (below_next left ws.length) (Nat.succ_pos _)
      refine pour_bounded rest (Nat.succ_pos _) (fun x mem => ?_) g' given
      have low := least x mem
      omega
    · intro short
      rcases share_cases left ws.length with ⟨eq, -⟩ | ⟨few, eq⟩
      · have rest : ws.length * (left / (ws.length + 1)) ≤ left - min w (share left (ws.length + 1)) := by
          have step := funded_rest (n := ws.length) (Nat.mul_div_le left (ws.length + 1))
          omega
        have part := forall₂_zip (pour_funded rest) mem
        omega
      · omega

theorem sum_of_each (each : ∀ w ∈ ws, c ≤ w) : ws.length * c ≤ ws.sum := by
  induction ws with
  | nil => exact Nat.le_of_eq (Nat.zero_mul c)
  | cons w ws ih =>
    have head := each w mem_cons_self
    have rest := ih fun w mem => each w (mem_cons_of_mem _ mem)
    rw [length_cons, sum_cons, Nat.add_mul]
    omega

/-- The whole budget is spent, unless every demand is met. -/
theorem pour_sum (left : Nat) (sorted : ws.Pairwise (· ≤ ·)) : (pour left ws).sum = min left ws.sum := by
  induction ws generalizing left with
  | nil => exact (Nat.min_zero left).symm
  | cons w ws ih =>
    obtain ⟨least, sorted⟩ := pairwise_cons.mp sorted
    change min w (share left (ws.length + 1)) + (pour _ ws).sum = min left (w + ws.sum)
    rw [ih _ sorted]
    have within := share_le_left left (ws.length + 1)
    rcases Nat.lt_or_ge (share left (ws.length + 1)) w with short | met
    · have rest := bounded_rest (below_next left ws.length) (Nat.succ_pos _)
      have room : ws.length * (share left (ws.length + 1) + 1) ≤ ws.sum := by
        have each : ∀ x ∈ ws, share left (ws.length + 1) + 1 ≤ x := fun x mem => Nat.le_trans short (least x mem)
        exact sum_of_each each
      omega
    · omega

/-- As many demands are served as there is one for. -/
theorem pour_served (left : Nat) (sorted : ws.Pairwise (· ≤ ·)) :
    (pour left ws).countP (0 < ·) = min left (ws.countP (0 < ·)) := by
  induction ws generalizing left with
  | nil => exact (Nat.min_zero left).symm
  | cons w ws ih =>
    obtain ⟨least, sorted⟩ := pairwise_cons.mp sorted
    have every : 0 < w → ws.countP (0 < ·) = ws.length := fun positive =>
      countP_eq_length.mpr fun x mem => decide_eq_true (Nat.lt_of_lt_of_le positive (least x mem))
    unfold pour
    simp only [countP_cons, ih _ sorted, decide_eq_true_eq]
    have within := share_le_left left (ws.length + 1)
    rcases share_cases left ws.length with ⟨eq, one⟩ | ⟨few, eq⟩
    · have rest : ws.length * 1 ≤ left - share left (ws.length + 1) := funded_rest (by
        have := Nat.div_pos_iff.mp one
        omega)
      split <;> split <;> omega
    · split <;> split <;> omega

end

def allotLoop (want : List Nat) (n : Nat) : Nat → List Nat → Nat → List Nat → Option (List Nat)
  | _, [], _, out => some out
  | k, i :: order, left, out => do
    let sources ← sub? n k
    let even ← div? left sources
    let wanted ← want[i]?
    let given := min wanted (min (max even 1) left)
    let left ← sub? left given
    allotLoop want n (k + 1) order left (out.set i given)

/-- The demands by size, equal ones in the order of their sources. -/
def allotOrder (want : List Nat) : List Nat :=
  sortByKey (want.getD · 0) (range want.length)

def allot (budget : Nat) (want : List Nat) : Option (List Nat) :=
  allotLoop want want.length 0 (allotOrder want) budget (replicate want.length 0)

section
variable {want order out : List Nat} {left k n : Nat}

theorem allotLoop_eq (inside : ∀ i ∈ order, i < want.length) (count : k + order.length = n) :
    allotLoop want n k order left out =
      some ((order.zip (pour left (order.map (want.getD · 0)))).foldl (fun out p => out.set p.1 p.2) out) := by
  induction order generalizing k left out with
  | nil => rfl
  | cons i order ih =>
    have sources : n - k = order.length + 1 := by
      rw [length_cons] at count
      omega
    have here := inside i mem_cons_self
    have within := share_le_left left (order.length + 1)
    have wanted : want[i]? = some (want.getD i 0) := by simp [getElem?_eq_getElem here]
    unfold allotLoop sub? div?
    rw [if_pos (by omega), sources, wanted]
    simp only [bind_eq_bind, bind_some]
    rw [if_neg (Nat.succ_ne_zero _), bind_some, if_pos (by unfold share at within; omega), bind_some,
      ih (fun j mem => inside j (mem_cons_of_mem i mem)) (by rw [← count, length_cons]; omega)]
    simp only [map_cons, pour, length_map]
    rfl

/-- What is written at distinct places stands there, and nothing else does. -/
theorem written {gs : List Nat} (apart : order.Nodup) (inside : ∀ i ∈ order, i < out.length) (same : gs.length = order.length) :
    ((order.zip gs).foldl (fun out p => out.set p.1 p.2) out).length = out.length ∧
      (∀ i ∉ order, ((order.zip gs).foldl (fun out p => out.set p.1 p.2) out)[i]? = out[i]?) ∧
      order.map (((order.zip gs).foldl (fun out p => out.set p.1 p.2) out).getD · 0) = gs := by
  induction order generalizing out gs with
  | nil => exact ⟨rfl, fun _ _ => rfl, (length_eq_zero_iff.mp same).symm⟩
  | cons i order ih =>
    cases gs with
    | nil => cases same
    | cons g gs =>
      obtain ⟨fresh, apart⟩ := nodup_cons.mp apart
      have here := inside i mem_cons_self
      have within : ∀ j ∈ order, j < (out.set i g).length := fun j mem => by
        rw [length_set]; exact inside j (mem_cons_of_mem i mem)
      obtain ⟨length, elsewhere, placed⟩ := ih apart within (Nat.succ.inj same)
      refine ⟨length.trans length_set, fun j other => ?_, congrArg₂ cons ?_ placed⟩
      · rw [zip_cons_cons, foldl_cons, elsewhere j fun mem => other (mem_cons_of_mem i mem),
          getElem?_set_ne fun eq : i = j => other (eq ▸ mem_cons_self)]
      · change (foldl _ (out.set i g) (order.zip gs)).getD i 0 = g
        rw [getD_eq_getElem?_getD, elsewhere i fresh, getElem?_set_self here, getD_some]

theorem allotOrder_perm (want : List Nat) : (allotOrder want).Perm (range want.length) := sortByKey_perm _ _

theorem allotOrder_sorted (want : List Nat) : ((allotOrder want).map (want.getD · 0)).Pairwise (· ≤ ·) :=
  pairwise_map.mpr (sortByKey_pairwise _ _)

/-- The division ends, and gives the sources by size what pouring gives them. -/
theorem allot_poured (budget : Nat) (want : List Nat) : ∃ out, allot budget want = some out ∧ out.length = want.length ∧
    (allotOrder want).map (out.getD · 0) = pour budget ((allotOrder want).map (want.getD · 0)) := by
  have inside : ∀ i ∈ allotOrder want, i < want.length := fun i mem => mem_range.mp ((allotOrder_perm want).subset mem)
  have fresh : ∀ i ∈ allotOrder want, i < (replicate want.length 0).length := by simpa only [length_replicate] using inside
  obtain ⟨length, -, placed⟩ := written ((allotOrder_perm want).nodup_iff.mpr nodup_range) fresh
    ((pour_length budget _).trans (length_map _))
  exact ⟨_, allotLoop_eq inside ((Nat.zero_add _).trans ((allotOrder_perm want).length_eq.trans length_range)),
    length.trans length_replicate, placed⟩

theorem getD_range (l : List Nat) : (range l.length).map (l.getD · 0) = l := by
  refine ext_getElem (by simp) fun i bound _ => ?_
  simp at bound
  simp [getElem?_eq_getElem bound]

/-- What is true of the sources in the order of their demands is true of them in their own. -/
theorem each_source {R : Nat → Nat → Prop} {a b : List Nat}
    (each : Forall₂ R ((allotOrder want).map (a.getD · 0)) ((allotOrder want).map (b.getD · 0))) :
    ∀ i < want.length, R (a.getD i 0) (b.getD i 0) := by
  intro i bound
  rw [forall₂_map_left_iff, forall₂_map_right_iff, forall₂_same] at each
  exact each i ((allotOrder_perm want).mem_iff.mpr (mem_range.mpr bound))

theorem allot_fair (budget : Nat) (want : List Nat) : ∃ out, allot budget want = some out ∧ out.length = want.length ∧
    (∀ i < want.length, out.getD i 0 ≤ want.getD i 0) ∧ out.sum = min budget want.sum ∧
    (∀ i < want.length, ∀ j < want.length, out.getD i 0 < want.getD i 0 → out.getD j 0 ≤ out.getD i 0 + 1) ∧
    (want.length ≤ budget → ∀ i < want.length, 0 < want.getD i 0 → 1 ≤ out.getD i 0) ∧
    out.countP (0 < ·) = min budget (want.countP (0 < ·)) ∧
    ∀ more, budget ≤ more → ∃ out', allot more want = some out' ∧ ∀ i < want.length, out.getD i 0 ≤ out'.getD i 0 := by
  obtain ⟨out, ran, length, poured⟩ := allot_poured budget want
  have sorted := allotOrder_sorted want
  have out_perm : ((allotOrder want).map (out.getD · 0)).Perm out := by
    have perm := (allotOrder_perm want).map (out.getD · 0)
    rwa [← length, getD_range] at perm
  have want_perm : ((allotOrder want).map (want.getD · 0)).Perm want := by
    have perm := (allotOrder_perm want).map (want.getD · 0)
    rwa [getD_range] at perm
  refine ⟨out, ran, length, ?_, ?_, ?_, ?_, ?_, ?_⟩
  · exact each_source (poured ▸ pour_le budget _)
  · rw [← out_perm.sum_nat, poured, pour_sum budget sorted, want_perm.sum_nat]
  · have pairs := pour_fair budget sorted
    rw [← poured, zip_map', pairwise_map] at pairs
    intro i first j second
    have mem (i : Nat) (bound : i < want.length) : i ∈ allotOrder want := (allotOrder_perm want).mem_iff.mpr (mem_range.mpr bound)
    exact (pairs.forall_of_forall_of_flip (fun _ _ => ⟨fun _ => Nat.le_succ _, fun _ => Nat.le_succ _⟩) (pairs.imp fun both => ⟨both.2, both.1⟩)
      (mem i first) (mem j second)).1
  · intro enough i bound positive
    have funded : Forall₂ (fun w g => min w 1 ≤ g) _ (pour budget _) := pour_funded (by
      rw [Nat.mul_one, want_perm.length_eq]
      exact enough)
    have part := each_source (R := fun w g => min w 1 ≤ g) (poured ▸ funded) i bound
    omega
  · rw [← out_perm.countP_eq, poured, pour_served budget sorted, want_perm.countP_eq]
  · intro more le
    obtain ⟨out', ran', length', poured'⟩ := allot_poured more want
    exact ⟨out', ran', each_source (R := (· ≤ ·)) (by rw [poured, poured']; exact pour_mono le _)⟩

end

end PlxNative.Merge
