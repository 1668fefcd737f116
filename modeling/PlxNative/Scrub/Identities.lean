import PlxNative.Scrub.Passes

/-! The names of the household: what is published of them, and that none is left in a line. -/
namespace PlxNative.Scrub
open List Text

/-- `Vec::dedup`: of equal neighbours the first stays. -/
def dedup : List Text → List Text
  | a :: b :: rest => if a = b then dedup (b :: rest) else a :: dedup (b :: rest)
  | short => short

def setIdentities (v : List Text) : List Text :=
  dedup ((v.filter fun s => minIdentity ≤ s.length).mergeSort fun a b => byteLen b ≤ byteLen a)

/-- A line as the log writes it, after this list was published. -/
def scrubLocal (line : Text) (published : List Text) : Option Text := scrubLocalWith line (setIdentities published)

theorem mem_dedup {id : Text} {v : List Text} : id ∈ dedup v ↔ id ∈ v := by
  fun_induction dedup v with
  | case1 a rest ih => rw [ih, mem_cons (l := a :: rest), or_iff_right_of_imp (· ▸ mem_cons_self)]
  | case2 a b rest apart ih => rw [mem_cons, ih, mem_cons (l := b :: rest)]
  | case3 short => rfl

theorem mem_setIdentities {id : Text} {v : List Text} : id ∈ setIdentities v ↔ id ∈ v ∧ minIdentity ≤ id.length := by
  rw [setIdentities, mem_dedup, (mergeSort_perm _ _).mem_iff, mem_filter, decide_eq_true_eq]

/-- A name that no placeholder holds or touches. -/
structure Plainly (id : Text) : Prop where
  opens : '<' ∉ id
  closes : '>' ∉ id
  word : id ≠ "name".toList
  long : minIdentity ≤ id.length

theorem infix_around {c : Char} {id a b : Text} (apart : c ∉ id) (inside : id <:+: a ++ c :: b) : id <:+: a ∨ id <:+: b := by
  obtain ⟨p, q, whole⟩ := inside
  rw [append_assoc] at whole
  rcases append_eq_append_iff.mp whole with ⟨m, rfl, later⟩ | ⟨m, rfl, later⟩
  · rcases append_eq_append_iff.mp later with ⟨n, rfl, -⟩ | ⟨n, rfl, rest⟩
    · exact .inl ⟨p, n, append_assoc p id n⟩
    · cases n with
      | nil => exact .inl ⟨p, [], by simp⟩
      | cons x n =>
        cases rest
        exact absurd (mem_append_right m mem_cons_self) apart
  · cases m with
    | nil =>
      cases id with
      | nil => exact .inl nil_infix
      | cons x id =>
        cases later
        exact absurd mem_cons_self apart
    | cons x m =>
      cases later
      exact .inr ⟨m, q, append_assoc m id q⟩

variable {id x : Text}

/-- A placeholder between two texts makes no name. -/
theorem Plainly.joined (plainly : Plainly id) {a b : Text} (left : ¬ id <:+: a) (right : ¬ id <:+: b) :
    ¬ id <:+: a ++ "<name>".toList ++ b := by
  intro inside
  have opened : id <:+: a ++ '<' :: ("name".toList ++ '>' :: b) := by simpa using inside
  rcases infix_around plainly.opens opened with here | here
  · exact left here
  · rcases infix_around plainly.closes here with here | here
    · exact plainly.word (here.sublist.eq_of_length_le plainly.long)
    · exact right here

theorem eachMark_absent (some_ : id ≠ []) (plainly : Plainly x) {fuel : Nat} {s out : Text}
    (ran : eachMark id (fun after => ("<name>".toList, some after)) fuel s = some out) (absent : x = id ∨ ¬ x <:+: s) :
    ¬ x <:+: out := by
  induction fuel generalizing s out with
  | zero => cases ran
  | succ fuel ih =>
    unfold eachMark at ran
    cases cut : splitOnText id s with
    | none =>
      rw [cut] at ran
      cases ran
      rcases absent with rfl | absent
      · rintro ⟨p, q, rfl⟩
        exact splitOnText_eq_none some_ cut _ (prefix_append _ q) (suffix_append p _)
      · exact absent
    | some pair =>
      obtain ⟨before, after⟩ := pair
      rw [cut] at ran
      obtain ⟨rest, further, rfl⟩ := Option.map_eq_some_iff.mp ran
      obtain ⟨rfl, first⟩ := splitOnText_eq_some some_ cut
      have later : x = id ∨ ¬ x <:+: after := absent.imp_right fun absent inside => absent (inside.trans (infix_append_right ..))
      refine plainly.joined ?_ (ih further later)
      rcases absent with rfl | absent
      · rintro ⟨p, q, rfl⟩
        have early := first (p ++ x) (by simp) (suffix_append p x)
        have pos := length_pos_of_ne_nil some_
        simp only [length_append] at early
        omega
      · exact fun inside => absent (inside.trans ⟨[], id ++ after, by simp⟩)

theorem scrubIdentities_absent {s out : Text} {ids : List Text} (ran : scrubIdentities s ids = some out) (plainly : Plainly x)
    (named : x ∈ ids ∨ ¬ x <:+: s) : ¬ x <:+: out := by
  induction ids generalizing s with
  | nil =>
    cases ran
    exact named.resolve_left not_mem_nil
  | cons id ids ih =>
    unfold scrubIdentities at ran
    split at ran
    case isTrue long =>
      have some_ : id ≠ [] := by
        rintro rfl
        exact absurd long (by decide)
      obtain ⟨mid, replaced, ran⟩ := Option.bind_eq_some_iff.mp ran
      refine ih ran ?_
      rw [mem_cons, or_assoc, or_left_comm] at named
      exact named.imp_right (eachMark_absent some_ plainly replaced)
    case isFalse short =>
      refine ih ran (named.imp_left fun mem => (mem_cons.mp mem).resolve_left ?_)
      rintro rfl
      exact short plainly.long

/-- No name that was published is left in a line, in whatever order the names came and however they overlap. -/
theorem identities_redacted (line : Text) (published : List Text)
    (plain : ∀ id ∈ published, '<' ∉ id ∧ '>' ∉ id ∧ id ≠ "name".toList) :
    ∃ out, scrubLocal line published = some out ∧ ∀ id ∈ published, 4 ≤ id.length → ¬ id <:+: out := by
  obtain ⟨-, s, -, before, -⟩ := passes_end line
  obtain ⟨out, ran, -⟩ := scrubIdentities_clean s (setIdentities published)
  refine ⟨out, (before _).trans ran, fun id member long => ?_⟩
  obtain ⟨opens, closes, word⟩ := plain id member
  exact scrubIdentities_absent ran ⟨opens, closes, word, long⟩ (.inl (mem_setIdentities.mpr ⟨member, long⟩))

theorem identities_redacted_overlapping :
    ∃ out, scrubLocal "reached Ada Mac mini at home".toList ["Ada Mac".toList, "Mac mini".toList] = some out ∧
      ∀ id ∈ ["Ada Mac".toList, "Mac mini".toList], 4 ≤ id.length → ¬ id <:+: out :=
  identities_redacted _ _ (by decide)

end PlxNative.Scrub
