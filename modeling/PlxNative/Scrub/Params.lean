import Mathlib.Data.List.MinMax
import Mathlib.Data.List.TakeWhile
import PlxNative.Lib.Text

/-! The credential parameters of a log line. Places are counted in characters; the lowercase copy of a line has the same ones. -/
namespace PlxNative.Scrub
open List Text
attribute [local instance (high)] List.decidableBAll text_lawful

def credentialParams : List Text :=
  ["x-plex-token=", "token=", "access_token=", "password=", "apikey=", "api_key="].map String.toList

def redacted : Text := "<redacted>".toList

def lower (s : Text) : Text := s.map Char.toLower

def separator (c : Char) : Bool := c == '&' || isWhitespace c

def paramValue (s : Text) : Text := s.takeWhile (fun c => !separator c)

/-- Where each key first stands, of those whose value there is not the placeholder. -/
def candidates (out : Text) : List (Nat × Text) :=
  (credentialParams.filterMap fun k => (splitOnText k (lower out)).map fun cut => (cut.1.length, k)).filter
    fun p => !redacted.isPrefixOf (out.drop (p.1 + p.2.length))

def paramsLoop : Nat → Text → Option Text
  | 0, _ => none
  | fuel + 1, out =>
    match (candidates out).argmin Prod.fst with
    | none => some out
    | some (at_, key) =>
      let vstart := at_ + key.length
      let vlen := (paramValue (out.drop vstart)).length
      paramsLoop fuel (out.take vstart ++ redacted ++ out.drop (vstart + vlen))

def scrubParams (s : Text) : Option Text := paramsLoop (s.length + 1) s

def stillLooksSecret (s : Text) : Bool :=
  (splitOnText "bearer ".toList (lower s)).isSome ||
    credentialParams.any fun k =>
      (splitOnText k (lower s)).any fun cut => !redacted.isPrefixOf (s.drop (cut.1.length + k.length))

def endKeys (p : Text) : List Text := credentialParams.filter fun k => k.isSuffixOf (lower p)

/-- The value is the placeholder, and nothing of it is left behind. -/
def Redacted (s : Text) : Prop := ∃ tail, s = redacted ++ tail ∧ ∀ c ∈ tail.head?, separator c = true

/-- Every parameter of the text is redacted. -/
def Clean (s : Text) : Prop := ∀ p b, s = p ++ b → endKeys p ≠ [] → Redacted b

/-- Up to the first parameter's value, and from it on. -/
def toParam (front : Text) : Text → Option (Text × Text)
  | [] => none
  | c :: rest =>
    if (endKeys (front ++ [c])).isEmpty then toParam (front ++ [c]) rest else some (front ++ [c], rest)

/-- Read from the left, no parameter's value being read for more of them: each value is the placeholder itself, or does not
begin with it and some key before it ends no earlier parameter. -/
def readable : Nat → List Text → Text → Bool
  | 0, _, _ => true
  | fuel + 1, seen, s =>
    match toParam [] s with
    | none => true
    | some (gap, rest) =>
      (paramValue rest == redacted || !redacted.isPrefixOf (paramValue rest) && (endKeys gap).any (· ∉ seen)) &&
        readable fuel (endKeys gap ++ seen) (rest.drop (paramValue rest).length)

def Readable (s : Text) : Prop := readable s.length [] s = true
section

/-- A character that no key ends at, no value ends at, and no placeholder is bracketed by. -/
def plain (c : Char) : Bool := !(c == '=' || separator c || c == '<' || c == '>')

variable {c : Char}

theorem solid (low : 38 < c.toNat) (high : c.toNat ≤ 132) : separator c = false := by
  unfold separator isWhitespace
  simp only [Bool.or_eq_false_iff, Bool.and_eq_false_iff, decide_eq_false_iff_not, beq_eq_false_iff_ne]
  refine ⟨?_, by omega⟩
  rintro rfl
  exact absurd low (by decide)

theorem plain_letter (low : 65 ≤ c.toNat) (high : c.toNat ≤ 122) : plain c = true := by
  have ne {d : Char} (apart : d.toNat < 65) : (c == d) = false := beq_eq_false_iff_ne.mpr fun eq => by
    subst eq
    omega
  unfold plain
  rw [ne (d := '=') (by decide), ne (d := '<') (by decide), ne (d := '>') (by decide), solid (by omega) (by omega)]
  rfl

theorem toLower_cases (c : Char) :
    c.toLower = c ∨ (65 ≤ c.toNat ∧ c.toNat ≤ 90) ∧ 97 ≤ c.toLower.toNat ∧ c.toLower.toNat ≤ 122 := by
  unfold Char.toLower
  split
  case isFalse => exact .inl rfl
  case isTrue upper =>
    obtain ⟨low, high⟩ := upper
    have low_ : 65 ≤ c.toNat := UInt32.le_iff_toNat_le.mp low
    have high_ : c.toNat ≤ 90 := UInt32.le_iff_toNat_le.mp high
    refine .inr ⟨⟨low_, high_⟩, ?_⟩
    have shifted : (c.val + ('a'.val - 'A'.val)).toNat = c.toNat + 32 := by
      exact Nat.mod_eq_of_lt (show c.toNat + 32 < 2 ^ 32 by omega)
    change 97 ≤ (c.val + ('a'.val - 'A'.val)).toNat ∧ (c.val + ('a'.val - 'A'.val)).toNat ≤ 122
    omega

theorem plain_toLower (smooth : plain c.toLower = true) : plain c = true := by
  rcases toLower_cases c with eq | ⟨⟨low, high⟩, -⟩
  · rwa [eq] at smooth
  · exact plain_letter low (by omega)

theorem toLower_equals (ends : c.toLower = '=') : c = '=' := by
  rcases toLower_cases c with eq | ⟨-, low, -⟩
  · exact eq ▸ ends
  · rw [ends] at low
    exact absurd low (by decide)

variable {k : Text}

theorem key_shape (key : k ∈ credentialParams) : ∃ m, k = m ++ ['='] ∧ ∀ c ∈ m, plain c = true := by
  have shapes : ∀ k ∈ credentialParams, k.dropLast ++ ['='] = k ∧ ∀ c ∈ k.dropLast, plain c = true := by decide +kernel
  exact ⟨k.dropLast, (shapes k key).1.symm, (shapes k key).2⟩

theorem key_ne_nil (key : k ∈ credentialParams) : k ≠ [] := by
  obtain ⟨m, rfl, -⟩ := key_shape key
  exact append_ne_nil_of_right_ne_nil _ (cons_ne_nil _ _)

theorem mem_endKeys {p : Text} : k ∈ endKeys p ↔ k ∈ credentialParams ∧ k <:+ lower p := by
  unfold endKeys
  rw [mem_filter, isSuffixOf_iff_suffix]

@[simp] theorem lower_append (a b : Text) : lower (a ++ b) = lower a ++ lower b := map_append

@[simp] theorem lower_length (s : Text) : (lower s).length = s.length := length_map _

theorem suffix_of_not_mem {w a b : Text} (last : w <:+ a ++ c :: b) (free : c ∉ w) : w <:+ b := by
  rcases suffix_or_suffix_of_suffix last (suffix_append a (c :: b)) with inside | outside
  · rcases suffix_cons_iff.mp inside with whole | deeper
    · exact absurd (whole ▸ mem_cons_self) free
    · exact deeper
  · exact absurd (outside.subset mem_cons_self) free

theorem key_text {p : Text} (ended : k ∈ endKeys p) :
    ∃ q m, p = q ++ (m ++ ['=']) ∧ lower (m ++ ['=']) = k ∧ ∀ c ∈ m, plain c = true := by
  obtain ⟨key, last⟩ := mem_endKeys.mp ended
  obtain ⟨m, rfl, smooth⟩ := key_shape key
  obtain ⟨r, whole⟩ := last
  obtain ⟨q, rest, rfl, -, low⟩ := append_eq_map_iff.mp whole
  have eq := low
  obtain ⟨n, e, rfl, names, sign⟩ := map_eq_append_iff.mp low
  obtain ⟨x, rfl, equals⟩ := map_eq_singleton_iff.mp sign
  rw [toLower_equals equals] at eq ⊢
  refine ⟨q, n, rfl, eq, fun c mem => plain_toLower (smooth _ ?_)⟩
  rw [← names]
  exact mem_map_of_mem mem

theorem key_after {x y : Text} (ended : k ∈ endKeys (x ++ c :: y)) (rough : plain c = false) (some_ : c = '=' → y ≠ []) :
    k ∈ endKeys y := by
  obtain ⟨key, last⟩ := mem_endKeys.mp ended
  refine mem_endKeys.mpr ⟨key, ?_⟩
  obtain ⟨m, rfl, smooth⟩ := key_shape key
  have free : c.toLower ∉ m := fun mem => by
    have other := plain_toLower (smooth _ mem)
    rw [rough] at other
    exact Bool.false_ne_true other
  rcases eq_nil_or_concat y with rfl | ⟨y, e, rfl⟩
  · obtain ⟨r, whole⟩ := last
    have sign : c.toLower = '=' := by
      have eq := congrArg List.getLast? whole
      rw [← append_assoc, List.getLast?_concat] at eq
      simp only [lower, map_append, map_cons, map_nil, List.getLast?_concat] at eq
      exact (Option.some.inj eq).symm
    exact absurd rfl (some_ (toLower_equals sign))
  · rw [concat_eq_append] at last ⊢
    have shape : lower (x ++ c :: (y ++ [e])) = (lower x ++ c.toLower :: lower y) ++ [e.toLower] := by simp [lower]
    rw [shape] at last
    rcases suffix_concat_iff.mp last with none_ | ⟨n, eq, inner⟩
    · exact absurd none_ (append_ne_nil_of_right_ne_nil _ (cons_ne_nil _ _))
    · obtain ⟨rfl, sign⟩ := append_inj' eq rfl
      obtain ⟨r, whole⟩ := suffix_of_not_mem inner free
      exact ⟨r, by rw [lower_append, ← whole, sign, append_assoc]; rfl⟩

end
section

/-- A text up to its first parameter's value. -/
structure ParamGap (gap : Text) : Prop where
  ended : endKeys gap ≠ []
  first : ∀ q, q <+: gap → endKeys q ≠ [] → q = gap

variable {p s gap : Text}

theorem toParam_some {rest : Text} (free : ∀ q, q <+: p → endKeys q = [])
    (found : toParam p s = some (gap, rest)) : p ++ s = gap ++ rest ∧ ParamGap gap := by
  induction s generalizing p with
  | nil => cases found
  | cons c s ih =>
    unfold toParam at found
    split at found
    case isTrue none_ =>
      obtain ⟨whole, shape⟩ := ih (p := p ++ [c]) (fun q prefix_ => by
        rcases prefix_concat_iff.mp prefix_ with rfl | earlier
        · exact List.isEmpty_iff.mp none_
        · exact free q earlier) found
      exact ⟨by rw [← whole]; simp, shape⟩
    case isFalse some_ =>
      cases found
      refine ⟨by simp, fun empty => some_ (List.isEmpty_iff.mpr empty), fun q prefix_ ended => ?_⟩
      rcases prefix_concat_iff.mp prefix_ with rfl | earlier
      · rfl
      · exact absurd (free q earlier) ended

theorem toParam_none (free : ∀ q, q <+: p → endKeys q = []) (found : toParam p s = none) :
    ∀ q, q <+: p ++ s → endKeys q = [] := by
  induction s generalizing p with
  | nil => simpa using free
  | cons c s ih =>
    unfold toParam at found
    split at found
    case isTrue none_ =>
      have inner := ih (p := p ++ [c]) (fun q prefix_ => by
        rcases prefix_concat_iff.mp prefix_ with rfl | earlier
        · exact List.isEmpty_iff.mp none_
        · exact free q earlier) found
      simpa using inner
    case isFalse => cases found

theorem endKeys_nil : endKeys [] = [] := by decide +kernel

theorem endKeys_front {q : Text} (front : q <+: []) : endKeys q = [] := by
  rw [prefix_nil.mp front]
  exact endKeys_nil

theorem exists_key (ended : endKeys p ≠ []) : ∃ k, k ∈ endKeys p := exists_mem_of_ne_nil _ ended

theorem ended_of_mem {k : Text} (mem : k ∈ endKeys p) : endKeys p ≠ [] := ne_nil_of_mem mem

theorem ended_sign (ended : endKeys p ≠ []) : ∃ q, p = q ++ ['='] := by
  obtain ⟨k, mem⟩ := exists_key ended
  obtain ⟨q, m, rfl, -, -⟩ := key_text mem
  exact ⟨q ++ m, by simp⟩

theorem ParamGap.ne_nil (shape : ParamGap gap) : gap ≠ [] := by
  rintro rfl
  exact shape.ended endKeys_nil

theorem redacted_plain : '=' ∉ redacted ∧ ∀ c ∈ redacted, separator c = false := by decide +kernel

theorem separator_rough {c : Char} (ends : separator c = true) : plain c = false ∧ c ≠ '=' := by
  refine ⟨by unfold plain; simp [ends], fun eq => ?_⟩
  subst eq
  exact absurd ends (by decide)

/-- A parameter's value starts a line's text, or after a separator. -/
def Joins (d s : Text) : Prop := d = [] ∨ ∀ c ∈ s.head?, separator c = true

theorem key_joined {d g k : Text} (joins : Joins d g) (some_ : g ≠ []) (here : k ∈ endKeys (d ++ g)) : k ∈ endKeys g := by
  rcases joins with rfl | apart
  · exact here
  · obtain ⟨c, rest, rfl⟩ := exists_cons_of_ne_nil some_
    obtain ⟨rough, other⟩ := separator_rough (apart c rfl)
    obtain ⟨key, last⟩ := mem_endKeys.mp (key_after here rough fun sign => absurd sign other)
    exact mem_endKeys.mpr ⟨key, last.trans (suffix_cons ..)⟩

theorem Joins.front {d g : Text} (joins : Joins d s) (begins : g <+: s) (some_ : g ≠ []) : Joins d g := by
  obtain ⟨more, rfl⟩ := begins
  unfold Joins at joins ⊢
  rwa [List.head?_append_of_ne_nil _ some_] at joins

theorem place_cases {d x : Text} (joins : Joins d gap) (shape : ParamGap gap) (front : p <+: d ++ gap ++ x)
    {k : Text} (ended : k ∈ endKeys p) :
    p <+: d ∨ (p = d ++ gap ∧ k ∈ endKeys gap) ∨ ∃ y, y <+: x ∧ y ≠ [] ∧ p = d ++ gap ++ y ∧ k ∈ endKeys y := by
  rw [append_assoc] at front
  rcases prefix_or_prefix_of_prefix front (prefix_append d (gap ++ x)) with inside | ⟨g, rfl⟩
  · exact .inl inside
  · have deeper : g <+: gap ++ x := (prefix_append_right_inj d).mp front
    by_cases none_ : g = []
    · subst none_
      exact .inl (by simp)
    · rcases prefix_or_prefix_of_prefix deeper (prefix_append gap x) with begins | ⟨y, rfl⟩
      · have here := key_joined (joins.front begins none_) none_ ended
        have whole := shape.first g begins (ended_of_mem here)
        exact .inr (.inl ⟨by rw [whole], whole ▸ here⟩)
      · by_cases end_ : y = []
        · subst end_
          rw [append_nil] at ended ⊢
          exact .inr (.inl ⟨rfl, key_joined joins shape.ne_nil ended⟩)
        · obtain ⟨q, sign⟩ := ended_sign shape.ended
          have after : k ∈ endKeys y := by
            refine key_after (x := d ++ q) (c := '=') ?_ (by decide) fun _ => end_
            simpa [sign] using ended
          exact .inr (.inr ⟨y, (prefix_append_right_inj gap).mp deeper, end_, by simp, after⟩)

end
section

theorem drop_takeWhile (p : Char → Bool) (s : Text) : s.drop (s.takeWhile p).length = s.dropWhile p := by
  have drop {a b : Text} (whole : a ++ b = s) : s.drop a.length = b := by
    rw [← whole, drop_left]
  exact drop takeWhile_append_dropWhile

theorem drop_paramValue (s : Text) : s.drop (paramValue s).length = s.dropWhile (fun c => !separator c) := drop_takeWhile _ s

theorem paramValue_append (s : Text) : s = paramValue s ++ s.drop (paramValue s).length := by
  rw [drop_paramValue]
  exact takeWhile_append_dropWhile.symm

theorem paramValue_ends (s : Text) : ∀ c ∈ (s.drop (paramValue s).length).head?, separator c = true := by
  intro c first
  have fails := List.head?_dropWhile_not (fun c => !separator c) s
  rw [drop_paramValue] at first
  rw [first] at fails
  simpa using fails

theorem paramValue_eq {v b : Text} (free : ∀ c ∈ v, separator c = false) (ends : ∀ c ∈ b.head?, separator c = true) :
    paramValue (v ++ b) = v := by
  unfold paramValue
  rw [takeWhile_append_of_pos fun c mem => by rw [free c mem]; rfl]
  cases b with
  | nil => simp
  | cons c b => rw [takeWhile_cons_of_neg (by rw [ends c rfl]; exact Bool.false_ne_true), append_nil]

theorem redacted_iff (s : Text) : Redacted s ↔ paramValue s = redacted := by
  constructor
  · rintro ⟨tail, rfl, ends⟩
    exact paramValue_eq redacted_plain.2 ends
  · intro eq
    refine ⟨s.drop (paramValue s).length, ?_, paramValue_ends s⟩
    conv => lhs; rw [paramValue_append s]
    rw [eq]

theorem begins_iff (s : Text) : redacted <+: s ↔ redacted <+: paramValue s := by
  constructor
  · rintro ⟨tail, rfl⟩
    unfold paramValue
    exact prefix_append ..
  · intro front
    exact front.trans (List.takeWhile_prefix _)

theorem Redacted.begins {s : Text} (r : Redacted s) : redacted <+: s := by
  obtain ⟨tail, rfl, -⟩ := r
  exact prefix_append ..

theorem Redacted.append {b s : Text} (r : Redacted b) (ends : ∀ c ∈ s.head?, separator c = true) : Redacted (b ++ s) := by
  obtain ⟨tail, rfl, apart⟩ := r
  refine ⟨tail ++ s, by simp, ?_⟩
  cases tail with
  | nil => exact ends
  | cons c tail => exact apart

theorem begins_of_front {y a : Text} (sign : '=' ∈ y) (begins : redacted <+: y ++ a) : ∃ z, y = redacted ++ z ∧ z ≠ [] := by
  rcases prefix_or_prefix_of_prefix begins (prefix_append y a) with ⟨z, rfl⟩ | inside
  · refine ⟨z, rfl, ?_⟩
    rintro rfl
    exact redacted_plain.1 (by simpa using sign)
  · exact absurd (inside.subset sign) redacted_plain.1

end
section

/-- A text read so far, with the keys of its parameters. -/
structure Processed (seen : List Text) (d : Text) : Prop where
  clean : Clean d
  seen_ : ∀ k, k ∈ seen ↔ ∃ p, p <+: d ∧ k ∈ endKeys p

variable {seen : List Text} {d gap s : Text}

theorem processed_start : Processed [] [] := by
  refine ⟨fun p _ split ended => ?_, fun k => ⟨nofun, ?_⟩⟩
  · rw [(append_eq_nil_iff.mp split.symm).1] at ended
    exact absurd endKeys_nil ended
  · rintro ⟨p, front, mem⟩
    rw [endKeys_front front] at mem
    cases mem

theorem Processed.begins (done : Processed seen d) {p : Text} (front : p <+: d) (ended : endKeys p ≠ []) (more : Text) :
    redacted <+: (d ++ more).drop p.length := by
  obtain ⟨b, rfl⟩ := front
  rw [append_assoc, drop_left]
  exact (done.clean p b rfl ended).begins.trans (prefix_append ..)

theorem Processed.next (done : Processed seen d) (joins : Joins d gap) (shape : ParamGap gap) :
    Processed (endKeys gap ++ seen) (d ++ gap ++ redacted) := by
  have after {k y : Text} (front : y <+: redacted) (ended : k ∈ endKeys y) : False := by
    obtain ⟨q, rfl⟩ := ended_sign (ended_of_mem ended)
    exact redacted_plain.1 (front.subset (mem_append_right _ mem_cons_self))
  constructor
  · intro p b split ended
    obtain ⟨k, mem⟩ := exists_key ended
    rcases place_cases joins shape ⟨b, split.symm⟩ mem with inside | ⟨rfl, -⟩ | ⟨y, front, -, -, later⟩
    · obtain ⟨b, rfl⟩ := inside
      rw [append_assoc, append_assoc, append_cancel_left_eq] at split
      rw [← split]
      refine (done.clean p b rfl ended).append ?_
      rcases joins with none_ | apart
      · rw [(append_eq_nil_iff.mp none_).1] at ended
        exact absurd endKeys_nil ended
      · rwa [List.head?_append_of_ne_nil _ shape.ne_nil]
    · rw [append_cancel_left_eq] at split
      exact ⟨[], by simp [split], nofun⟩
    · exact (after front later).elim
  · intro k
    rw [mem_append, done.seen_]
    constructor
    · rintro (here | ⟨p, front, mem⟩)
      · obtain ⟨key, last⟩ := mem_endKeys.mp here
        refine ⟨d ++ gap, prefix_append .., mem_endKeys.mpr ⟨key, ?_⟩⟩
        rw [lower_append]
        exact last.trans (suffix_append ..)
      · exact ⟨p, front.trans (by rw [append_assoc]; exact prefix_append ..), mem⟩
    · rintro ⟨p, front, mem⟩
      rcases place_cases joins shape front mem with inside | ⟨-, here⟩ | ⟨y, begins, -, -, later⟩
      · exact .inr ⟨p, inside, mem⟩
      · exact .inl here
      · exact (after begins later).elim

end
section
variable {out : Text}

theorem mem_candidates {i : Nat} {k : Text} (mem : (i, k) ∈ candidates out) :
    k ∈ endKeys (out.take (i + k.length)) ∧ i + k.length ≤ out.length ∧ ¬ redacted <+: out.drop (i + k.length) ∧
      ∀ p, p <+: out → k ∈ endKeys p → i + k.length ≤ p.length := by
  obtain ⟨mem, unredacted⟩ := mem_filter.mp mem
  obtain ⟨_, listed, found⟩ := mem_filterMap.mp mem
  obtain ⟨⟨a, b⟩, cut, eq⟩ := Option.map_eq_some_iff.mp found
  cases eq
  obtain ⟨whole, first⟩ := splitOnText_eq_some (key_ne_nil listed) cut
  have size : out.length = a.length + k.length + b.length := by
    rw [← lower_length, whole, length_append, length_append]
  have front : lower (out.take (a.length + k.length)) = a ++ k := by
    unfold lower at whole ⊢
    rw [map_take, whole, ← length_append, take_left]
  refine ⟨mem_endKeys.mpr ⟨listed, front ▸ suffix_append a k⟩, ?_, ?_, fun p begins ended => ?_⟩
  · change a.length + k.length ≤ out.length
    omega
  · intro begins
    rw [List.isPrefixOf_iff_prefix.mpr begins] at unredacted
    exact absurd unredacted (by decide)
  · rw [← lower_length p]
    exact first (lower p) (begins.map Char.toLower) (mem_endKeys.mp ended).2

theorem candidate_of_first {p b k : Text} (split : out = p ++ b) (ended : k ∈ endKeys p)
    (first : ∀ q, q <+: out → k ∈ endKeys q → p.length ≤ q.length) (unredacted : ¬ redacted <+: b) :
    (p.length - k.length, k) ∈ candidates out ∧ k.length ≤ p.length := by
  obtain ⟨key, last⟩ := mem_endKeys.mp ended
  have least : k.length ≤ p.length := by
    have le := last.length_le
    rwa [lower_length] at le
  refine ⟨mem_filter.mpr ⟨mem_filterMap.mpr ⟨k, key, ?_⟩, ?_⟩, least⟩
  · have begins : p <+: out := ⟨b, split.symm⟩
    cases cut : splitOnText k (lower out) with
    | none => exact absurd last (splitOnText_eq_none (key_ne_nil key) cut (lower p) (begins.map Char.toLower))
    | some pair =>
      obtain ⟨a, c⟩ := pair
      obtain ⟨whole, at_most⟩ := splitOnText_eq_some (key_ne_nil key) cut
      have upper := at_most (lower p) (begins.map Char.toLower) last
      have front : lower (out.take (a.length + k.length)) = a ++ k := by
        unfold lower at whole ⊢
        rw [map_take, whole, ← length_append, take_left]
      have lower_ := first (out.take (a.length + k.length)) (List.take_prefix ..)
        (mem_endKeys.mpr ⟨key, front ▸ suffix_append a k⟩)
      rw [lower_length] at upper
      have short := length_take_le (a.length + k.length) out
      simp only [Option.map_some, Option.some.injEq, Prod.mk.injEq, and_true]
      omega
  · have place : p.length - k.length + k.length = p.length := Nat.sub_add_cancel least
    have behind : out.drop p.length = b := by rw [split, drop_left]
    simp only [place, behind, Bool.not_eq_true', Bool.eq_false_iff]
    exact fun begins => unredacted (List.isPrefixOf_iff_prefix.mp begins)

/-- One turn of the loop: no key's first place is left unredacted, or the value after one of the first ones is replaced. -/
inductive Turn (fuel : Nat) (out : Text) : Prop
  | still (settled : ∀ k p b, out = p ++ b → k ∈ endKeys p → (∀ q, q <+: out → k ∈ endKeys q → p.length ≤ q.length) → redacted <+: b)
      (ends : paramsLoop (fuel + 1) out = some out)
  | takes (k p v b : Text) (split : out = p ++ v ++ b) (ended : k ∈ endKeys p)
      (first : ∀ q, q <+: out → k ∈ endKeys q → p.length ≤ q.length) (unredacted : ¬ redacted <+: v ++ b)
      (value_ : v = paramValue (v ++ b)) (ends : ∀ c ∈ b.head?, separator c = true)
      (least : ∀ i l, (i, l) ∈ candidates out → p.length - k.length ≤ i)
      (goes : paramsLoop (fuel + 1) out = paramsLoop fuel (p ++ redacted ++ b))

theorem turn (fuel : Nat) (out : Text) : Turn fuel out := by
  cases least : (candidates out).argmin Prod.fst with
  | none =>
    refine .still (fun k p b split ended first => ?_) (by unfold paramsLoop; rw [least])
    by_contra unredacted
    have mem := (candidate_of_first split ended first unredacted).1
    rw [argmin_eq_none.mp least] at mem
    cases mem
  | some pair =>
    obtain ⟨i, k⟩ := pair
    obtain ⟨ended, within, unredacted, first⟩ := mem_candidates (argmin_mem least)
    have size : (out.take (i + k.length)).length = i + k.length := length_take_of_le within
    have split := take_append_drop (i + k.length) out
    have parts := paramValue_append (out.drop (i + k.length))
    refine .takes k (out.take (i + k.length)) (paramValue (out.drop (i + k.length)))
      ((out.drop (i + k.length)).drop (paramValue (out.drop (i + k.length))).length) ?_ ended ?_ ?_ ?_ (paramValue_ends _)
      (fun j l mem => ?_) ?_
    · rw [append_assoc, ← parts, split]
    · rwa [size]
    · rwa [← parts]
    · rw [← parts]
    · rw [size, Nat.add_sub_cancel]
      exact le_of_mem_argmin mem least
    · rw [paramsLoop, least, drop_drop]

end
section

/-- The equals signs with no placeholder behind them. -/
def pending : Text → Nat
  | [] => 0
  | c :: rest => (if c = '=' ∧ ¬ redacted <+: rest then 1 else 0) + pending rest

theorem pending_le (s : Text) : pending s ≤ s.length := by
  induction s with
  | nil => exact Nat.le_refl 0
  | cons c s ih =>
    unfold pending
    rw [length_cons]
    split <;> omega

theorem pending_append_le (v b : Text) : pending b ≤ pending (v ++ b) := by
  induction v with
  | nil => exact Nat.le_refl _
  | cons c v ih =>
    rw [cons_append, pending]
    omega

theorem pending_front (a : Text) : ∃ n, ∀ x, pending (a ++ '=' :: x) = n + pending ('=' :: x) := by
  induction a with
  | nil => exact ⟨0, fun x => (Nat.zero_add _).symm⟩
  | cons c a ih =>
    obtain ⟨n, eq⟩ := ih
    have apart (x : Text) : redacted <+: a ++ '=' :: x ↔ redacted <+: a := by
      constructor
      · intro begins
        have front : redacted <+: (a ++ ['=']) ++ x := by simpa using begins
        obtain ⟨z, whole, some_⟩ := begins_of_front (by simp) front
        obtain ⟨z, e, rfl⟩ := (eq_nil_or_concat z).resolve_left some_
        rw [concat_eq_append, ← append_assoc] at whole
        exact (append_inj' whole rfl).1 ▸ prefix_append ..
      · exact fun begins => begins.trans (prefix_append ..)
    refine ⟨(if c = '=' ∧ ¬ redacted <+: a then 1 else 0) + n, fun x => ?_⟩
    rw [cons_append, pending, eq]
    simp only [apart]
    omega

theorem pending_plain {v : Text} (free : '=' ∉ v) (b : Text) : pending (v ++ b) = pending b := by
  induction v with
  | nil => rfl
  | cons c v ih =>
    rw [cons_append, pending, if_neg, ih (not_mem_of_not_mem_cons free), Nat.zero_add]
    exact fun sign => ne_of_not_mem_cons free sign.1.symm

theorem paramsLoop_total {fuel : Nat} {out : Text} (enough : pending out < fuel) : ∃ s, paramsLoop fuel out = some s := by
  induction fuel generalizing out with
  | zero => exact absurd enough (Nat.not_lt_zero _)
  | succ fuel ih =>
    cases turn fuel out with
    | still settled ends => exact ⟨out, ends⟩
    | takes k p v b split ended first unredacted value_ ends least goes =>
      rw [goes]
      refine ih ?_
      obtain ⟨q, rfl⟩ := ended_sign (ended_of_mem ended)
      obtain ⟨n, eq⟩ := pending_front q
      have before : pending out = n + (1 + pending (v ++ b)) := by
        rw [split, append_assoc, append_assoc, singleton_append, eq, pending, if_pos ⟨rfl, unredacted⟩]
      have after : pending (q ++ ['='] ++ redacted ++ b) = n + pending b := by
        rw [append_assoc, append_assoc, singleton_append, eq, pending, if_neg, pending_plain redacted_plain.1, Nat.zero_add]
        exact fun sign => sign.2 (prefix_append ..)
      have rest := pending_append_le v b
      omega

theorem scrubParams_total (s : Text) : ∃ out, scrubParams s = some out :=
  paramsLoop_total (Nat.lt_succ_of_le (pending_le s))

end
section
variable {seen : List Text} {d gap s out : Text} {fuel : Nat}

theorem left_unredacted (done : Processed seen d) (joins : Joins d gap) (shape : ParamGap gap)
    (stuck : redacted <+: s ∨ ∀ k ∈ endKeys gap, k ∈ seen) (bare : ¬ Redacted s) (ran : paramsLoop fuel (d ++ gap ++ s) = some out) :
    ¬ Clean out := by
  induction fuel generalizing s with
  | zero => cases ran
  | succ fuel ih =>
    cases turn fuel (d ++ gap ++ s) with
    | still settled ends =>
      rw [ends] at ran
      cases ran
      have ended : endKeys (d ++ gap) ≠ [] := by
        obtain ⟨k, mem⟩ := exists_key shape.ended
        obtain ⟨key, last⟩ := mem_endKeys.mp mem
        exact ended_of_mem (mem_endKeys.mpr ⟨key, by rw [lower_append]; exact last.trans (suffix_append ..)⟩)
      exact fun clean => bare (clean (d ++ gap) s rfl ended)
    | takes k p v b split ended first unredacted value_ ends least goes =>
      have front : p <+: d ++ gap ++ s := ⟨v ++ b, by rw [split, append_assoc]⟩
      rcases place_cases joins shape front ended with inside | ⟨rfl, here⟩ | ⟨y, -, -, rfl, later⟩
      · have begins := done.begins inside (ended_of_mem ended) (gap ++ s)
        rw [← append_assoc, split, append_assoc, drop_left] at begins
        exact absurd begins unredacted
      · rw [append_assoc (d ++ gap), append_cancel_left_eq] at split
        rcases stuck with begins | known
        · exact absurd (split ▸ begins) unredacted
        · obtain ⟨q, within, mem⟩ := (done.seen_ k).mp (known k here)
          have le := first q (within.trans (by rw [append_assoc]; exact prefix_append ..)) mem
          have short := within.length_le
          have pos := length_pos_of_ne_nil shape.ne_nil
          rw [length_append] at le
          omega
      · have sign : '=' ∈ y := by
          obtain ⟨q, rfl⟩ := ended_sign (ended_of_mem later)
          exact mem_append_right _ mem_cons_self
        have parts : s = y ++ (v ++ b) := by
          rw [append_assoc (d ++ gap ++ y), append_assoc (d ++ gap), append_cancel_left_eq] at split
          exact split
        rw [goes, append_assoc (d ++ gap ++ y), append_assoc (d ++ gap)] at ran
        refine ih (stuck.imp_left fun begins => ?_) (fun cleared => bare ?_) ran
        · rw [parts] at begins
          obtain ⟨z, rfl, -⟩ := begins_of_front sign begins
          exact prefix_append ..
        · obtain ⟨z, rfl, some_⟩ := begins_of_front sign cleared.begins
          obtain ⟨tail, eq, apart⟩ := cleared
          rw [append_assoc, append_cancel_left_eq] at eq
          refine ⟨z ++ (v ++ b), by rw [parts, append_assoc], ?_⟩
          rw [← eq, List.head?_append_of_ne_nil _ some_] at apart
          rwa [List.head?_append_of_ne_nil _ some_]

theorem takes_fresh (done : Processed seen d) (joins : Joins d gap) (shape : ParamGap gap) {k : Text} (here : k ∈ endKeys gap)
    (fresh : k ∉ seen) (bare : ¬ redacted <+: s) :
    paramsLoop (fuel + 1) (d ++ gap ++ s) = paramsLoop fuel (d ++ gap ++ redacted ++ s.drop (paramValue s).length) := by
  have mem : k ∈ endKeys (d ++ gap) := by
    obtain ⟨key, last⟩ := mem_endKeys.mp here
    exact mem_endKeys.mpr ⟨key, by rw [lower_append]; exact last.trans (suffix_append ..)⟩
  have opening : ∀ q, q <+: d ++ gap ++ s → k ∈ endKeys q → (d ++ gap).length ≤ q.length := fun q front ended => by
    rcases place_cases joins shape front ended with inside | ⟨rfl, -⟩ | ⟨y, -, -, rfl, -⟩
    · exact absurd ((done.seen_ k).mpr ⟨q, inside, ended⟩) fresh
    · exact Nat.le_refl _
    · exact (prefix_append (d ++ gap) y).length_le
  obtain ⟨listed, within⟩ := candidate_of_first rfl mem opening bare
  cases turn fuel (d ++ gap ++ s) with
  | still settled ends => exact absurd (settled k (d ++ gap) s rfl mem opening) bare
  | takes l p v b split ended first unredacted value_ ends least goes =>
    have front : p <+: d ++ gap ++ s := ⟨v ++ b, by rw [split, append_assoc]⟩
    rcases place_cases joins shape front ended with inside | ⟨rfl, -⟩ | ⟨y, -, -, rfl, later⟩
    · have begins := done.begins inside (ended_of_mem ended) (gap ++ s)
      rw [← append_assoc, split, append_assoc, drop_left] at begins
      exact absurd begins unredacted
    · rw [append_assoc (d ++ gap), append_cancel_left_eq] at split
      rw [goes, split, ← value_, drop_left]
    · have at_most := least _ _ listed
      have key := (mem_endKeys.mp later).2.length_le
      have pos := length_pos_of_ne_nil (key_ne_nil (mem_endKeys.mp here).1)
      rw [lower_length] at key
      simp only [length_append] at at_most within
      omega

theorem settled_clean (done : Processed seen d) (joins : Joins d s) (none_ : toParam [] s = none)
    (ran : paramsLoop fuel (d ++ s) = some out) : Clean out := by
  have free := toParam_none (fun q => endKeys_front) none_
  have within {k p : Text} (front : p <+: d ++ s) (ended : k ∈ endKeys p) : p <+: d := by
    rcases prefix_or_prefix_of_prefix front (prefix_append d s) with inside | ⟨g, rfl⟩
    · exact inside
    · have begins : g <+: s := (prefix_append_right_inj d).mp front
      by_cases some_ : g = []
      · simp [some_]
      · have none_g := free g begins
        exact absurd none_g (ended_of_mem (key_joined (joins.front begins some_) some_ ended))
  cases fuel with
  | zero => cases ran
  | succ fuel =>
    cases turn fuel (d ++ s) with
    | still settled ends =>
      rw [ends] at ran
      cases ran
      intro p b split ended
      obtain ⟨k, mem⟩ := exists_key ended
      obtain ⟨b, rfl⟩ := within ⟨b, split.symm⟩ mem
      rw [append_assoc, append_cancel_left_eq] at split
      rw [← split]
      refine (done.clean p b rfl ended).append (joins.resolve_left fun none_ => ?_)
      rw [(append_eq_nil_iff.mp none_).1] at ended
      exact ended endKeys_nil
    | takes k p v b split ended first unredacted value_ ends least goes =>
      have inside := within ⟨v ++ b, by rw [split, append_assoc]⟩ ended
      have begins := done.begins inside (ended_of_mem ended) s
      rw [split, append_assoc, drop_left] at begins
      exact absurd begins unredacted

/-- From a text read so far and one to read, what the loop makes is clean exactly when the reading goes through. -/
theorem paramsLoop_reads {n : Nat} (long : s.length ≤ n) (done : Processed seen d) (joins : Joins d s)
    (ran : paramsLoop fuel (d ++ s) = some out) : Clean out ↔ readable n seen s = true := by
  induction n generalizing fuel seen d s with
  | zero =>
    cases length_eq_zero_iff.mp (Nat.le_zero.mp long)
    exact iff_of_true (settled_clean done joins rfl ran) rfl
  | succ n ih =>
    unfold readable
    cases found : toParam [] s with
    | none => exact iff_of_true (settled_clean done joins found ran) rfl
    | some pair =>
      obtain ⟨gap, rest⟩ := pair
      obtain ⟨whole, shape⟩ := toParam_some (fun q => endKeys_front) found
      subst whole
      have joins_ : Joins d gap := joins.front (prefix_append ..) shape.ne_nil
      have shorter : (rest.drop (paramValue rest).length).length ≤ n := by
        have pos := length_pos_of_ne_nil shape.ne_nil
        rw [length_append] at long
        rw [length_drop]
        omega
      have onward : Joins (d ++ gap ++ redacted) (rest.drop (paramValue rest).length) := .inr (paramValue_ends rest)
      simp only
      rw [← append_assoc] at ran
      by_cases exact_ : paramValue rest = redacted
      · have parts := paramValue_append rest
        rw [exact_] at parts
        rw [parts, ← append_assoc] at ran
        rw [exact_, beq_self_eq_true, Bool.true_or, Bool.true_and]
        rw [exact_] at shorter onward
        exact ih shorter (done.next joins_ shape) onward ran
      · have bare : ¬ Redacted rest := fun cleared => exact_ ((redacted_iff rest).mp cleared)
        rw [beq_false_of_ne exact_, Bool.false_or]
        by_cases fresh : ¬ redacted <+: paramValue rest ∧ ∃ k ∈ endKeys gap, k ∉ seen
        · obtain ⟨apart, k, here, unseen⟩ := fresh
          have chosen : (!redacted.isPrefixOf (paramValue rest) && (endKeys gap).any (· ∉ seen)) = true := by
            rw [Bool.and_eq_true, Bool.not_eq_true', Bool.eq_false_iff, any_eq_true]
            exact ⟨fun front => apart (List.isPrefixOf_iff_prefix.mp front), k, here, decide_eq_true unseen⟩
          rw [chosen, Bool.true_and]
          cases fuel with
          | zero => cases ran
          | succ fuel =>
            rw [takes_fresh done joins_ shape here unseen fun front => apart ((begins_iff rest).mp front)] at ran
            exact ih shorter (done.next joins_ shape) onward ran
        · have stuck : redacted <+: rest ∨ ∀ k ∈ endKeys gap, k ∈ seen := by
            by_contra free
            obtain ⟨apart, unseen⟩ := not_or.mp free
            refine fresh ⟨fun front => apart ((begins_iff rest).mpr front), ?_⟩
            simpa using unseen
          have unread : (!redacted.isPrefixOf (paramValue rest) && (endKeys gap).any (· ∉ seen)) = false := by
            rw [Bool.eq_false_iff, Ne, Bool.and_eq_true, Bool.not_eq_true', Bool.eq_false_iff, any_eq_true]
            rintro ⟨apart, k, here, unseen⟩
            exact fresh ⟨fun front => apart (List.isPrefixOf_iff_prefix.mpr front), k, here, of_decide_eq_true unseen⟩
          rw [unread, Bool.false_and]
          exact iff_of_false (left_unredacted done joins_ shape stuck bare ran) Bool.false_ne_true

end

theorem scrubParams_clean (s : Text) : ∃ out, scrubParams s = some out ∧ (Clean out ↔ Readable s) := by
  obtain ⟨out, ran⟩ := scrubParams_total s
  exact ⟨out, ran, paramsLoop_reads (d := []) (Nat.le_refl _) processed_start (.inl rfl) ran⟩

end PlxNative.Scrub
