import PlxNative.Net.Location

/-! The token's pair: named as the token in any case, and attached to a query where it is not
there already. -/
namespace PlxNative.Net
open List Text

def tokenName : Text := "X-Plex-Token".toList

theorem firstBytes_front {n : Nat} {s head : Text} (cut : firstBytes n s = some head) : head <+: s := by
  induction s generalizing n head with
  | nil =>
    cases n <;> cases cut
    exact nil_prefix
  | cons c rest ih =>
    cases n with
    | zero =>
      cases cut
      exact nil_prefix
    | succ n =>
      unfold firstBytes at cut
      split at cut
      case isTrue =>
        obtain ⟨inner, found, rfl⟩ := Option.map_eq_some_iff.mp cut
        exact cons_prefix_cons.mpr ⟨rfl, ih found⟩
      case isFalse => cases cut

theorem eqIgnoreAsciiCase_iff {a b : Text} : eqIgnoreAsciiCase a b = true ↔ a.map Char.toLower = b.map Char.toLower :=
  beq_iff_eq

theorem toLower_eq_equals {c : Char} : c.toLower = '=' ↔ c = '=' := by
  constructor
  case mp =>
    intro low
    unfold Char.toLower at low
    split at low
    case isTrue upper =>
      have code := congrArg Char.val low
      simp only [UInt32.le_iff_toNat_le] at upper
      have value := congrArg UInt32.toNat code
      simp at value upper
      omega
    case isFalse => exact low
  case mpr =>
    rintro rfl
    rfl

theorem nameOfPair_map_toLower (pair : Text) : (nameOfPair pair).map Char.toLower = nameOfPair (pair.map Char.toLower) := by
  have eq : (fun c : Char => decide (c ≠ '=')) ∘ Char.toLower = fun c => decide (c ≠ '=') := by
    funext c
    exact decide_eq_decide.mpr (not_congr toLower_eq_equals)
  unfold nameOfPair
  rw [takeWhile_map, eq]

theorem nameOfPair_token {pair head : Text} (cut : firstBytes 13 pair = some head)
    (eq : eqIgnoreAsciiCase head "X-Plex-Token=".toList = true) :
    (nameOfPair pair).map Char.toLower = tokenName.map Char.toLower := by
  obtain ⟨tail, rfl⟩ := firstBytes_front cut
  rw [nameOfPair_map_toLower, map_append, eqIgnoreAsciiCase_iff.mp eq]
  rfl

theorem findToken_spec {parts : List Text} {pair : Text} (found : findToken parts = some (some pair)) :
    pair ∈ parts ∧ (nameOfPair pair).map Char.toLower = tokenName.map Char.toLower := by
  induction parts with
  | nil => cases found
  | cons p rest ih =>
    have later : findToken rest = some (some pair) →
        pair ∈ p :: rest ∧ (nameOfPair pair).map Char.toLower = tokenName.map Char.toLower :=
      fun found => ⟨mem_cons_of_mem _ (ih found).1, (ih found).2⟩
    unfold findToken at found
    split at found
    case isTrue =>
      split at found
      case h_1 => cases found
      case h_2 head cut =>
        split at found
        case isTrue eq =>
          cases found
          exact ⟨mem_cons_self, nameOfPair_token cut eq⟩
        case isFalse => exact later found
    case isFalse => exact later found

theorem hasName_congr {a b path : Text} (eq : a.map Char.toLower = b.map Char.toLower) : hasName a path = hasName b path := by
  unfold hasName eqIgnoreAsciiCase
  rw [eq]

theorem hasName_of_mem {name path head query part : Text} (cut : splitOnce '?' path = some (head, query))
    (known : part ∈ query.splitOn '&') (named : (nameOfPair part).map Char.toLower = name.map Char.toLower) :
    hasName name path = true := by
  unfold hasName
  rw [cut]
  exact any_eq_true.mpr ⟨part, known, eqIgnoreAsciiCase_iff.mpr named⟩

variable {path pair : Text}

section
variable (found : tokenPair path = some (some pair))
include found

theorem tokenPair_spec :
    ∃ head query, splitOnce '?' path = some (head, query) ∧ pair ∈ query.splitOn '&' ∧
      (nameOfPair pair).map Char.toLower = tokenName.map Char.toLower := by
  unfold tokenPair at found
  split at found
  case h_1 => cases found
  case h_2 head query cut => exact ⟨head, query, cut, findToken_spec found⟩

theorem hasName_of_tokenPair : hasName tokenName path = true := by
  obtain ⟨head, query, cut, known, named⟩ := tokenPair_spec found
  exact hasName_of_mem cut known named

theorem subset_of_tokenPair : pair ⊆ path := by
  obtain ⟨head, query, cut, known, -⟩ := tokenPair_spec found
  intro c inside
  rw [(splitOnce_eq_some.mp cut).1]
  exact mem_append_right _ (mem_cons_of_mem _ (mem_of_mem_splitOn known inside))

end

theorem withQueryPair_named (whole : '&' ∉ pair) : hasName (nameOfPair pair) (withQueryPair path pair) = true := by
  unfold withQueryPair
  split
  case isTrue present => exact present
  case isFalse =>
    split
    case isTrue marked =>
      obtain ⟨head, query, rfl, free⟩ := eq_append_cons_of_mem marked
      have cut : splitOnce '?' (head ++ '?' :: query ++ '&' :: pair) = some (head, query ++ '&' :: pair) :=
        splitOnce_eq_some.mpr ⟨by rw [append_assoc]; rfl, free⟩
      have last : pair ∈ (query ++ '&' :: pair).splitOn '&' := by
        rw [splitOn_append_cons_self, splitOn_eq_singleton whole]
        exact mem_append_right _ mem_cons_self
      exact hasName_of_mem cut last rfl
    case isFalse free =>
      have only : pair ∈ pair.splitOn '&' := by
        rw [splitOn_eq_singleton whole]
        exact mem_cons_self
      exact hasName_of_mem (splitOnce_eq_some.mpr ⟨rfl, free⟩) only rfl

theorem withQueryPair_pathPart (path pair : Text) : pathPart (withQueryPair path pair) = pathPart path := by
  unfold withQueryPair
  split
  case isTrue => rfl
  case isFalse =>
    split
    case isTrue marked =>
      obtain ⟨head, query, rfl, free⟩ := eq_append_cons_of_mem marked
      rw [append_assoc, cons_append, pathPart_cut free, pathPart_cut free]
    case isFalse free => rw [pathPart_cut free, pathPart_of_free free]

theorem mem_withQueryPair {c : Char} (mem : c ∈ withQueryPair path pair) :
    c ∈ path ∨ c = '&' ∨ c = '?' ∨ c ∈ pair := by
  unfold withQueryPair at mem
  split at mem
  case isTrue => exact .inl mem
  case isFalse =>
    split at mem
    case isTrue =>
      rcases mem_append.mp mem with old | new
      · exact .inl old
      · exact .inr ((mem_cons.mp new).imp id .inr)
    case isFalse =>
      rcases mem_append.mp mem with old | new
      · exact .inl old
      · exact .inr (.inr (mem_cons.mp new))

end PlxNative.Net
