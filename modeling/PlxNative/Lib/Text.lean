import Mathlib.Algebra.Ring.Nat
import Mathlib.Data.List.Basic

/-! Text as lists of characters: cutting at a separator and joining again, with the classes
of ASCII characters. -/
namespace PlxNative
open List

abbrev Text : Type := List Char

/-- Named, for a decision on texts to point to. -/
theorem text_lawful : LawfulBEq Text := inferInstance

namespace Text

def splitOnce (c : Char) : Text → Option (Text × Text)
  | [] => none
  | x :: rest => if x = c then some ([], rest) else (splitOnce c rest).map (fun cut => (x :: cut.1, cut.2))

/-- Cut at the first place the whole of `mark` stands. -/
def splitOnText (mark : Text) : Text → Option (Text × Text)
  | [] => if mark = [] then some ([], []) else none
  | x :: rest =>
    if mark.isPrefixOf (x :: rest) then some ([], (x :: rest).drop mark.length)
    else (splitOnText mark rest).map (fun cut => (x :: cut.1, cut.2))

def throughLast (c : Char) : Text → Option Text
  | [] => none
  | x :: rest => match throughLast c rest with
    | some kept => some (x :: kept)
    | none => if x = c then some [x] else none

def stripPrefix (mark : Text) (s : Text) : Option Text :=
  if mark.isPrefixOf s then some (s.drop mark.length) else none

def stripSuffix (mark : Text) (s : Text) : Option Text :=
  if mark.isSuffixOf s then some (s.take (s.length - mark.length)) else none

def isAscii (c : Char) : Bool := c.toNat < 128

def isAsciiControl (c : Char) : Bool := c.toNat < 32 || c.toNat == 127

def isAsciiWhitespace (c : Char) : Bool := c == ' ' || c == '\t' || c == '\n' || c == '\x0c' || c == '\x0d'

def isAsciiHexdigit (c : Char) : Bool := c.isDigit || ('a' ≤ c && c ≤ 'f') || ('A' ≤ c && c ≤ 'F')

def isWhitespace (c : Char) : Bool :=
  let n := c.toNat
  (9 ≤ n && n ≤ 13) || n == 32 || n == 0x85 || n == 0xa0 || n == 0x1680 || (0x2000 ≤ n && n ≤ 0x200a) ||
    n == 0x2028 || n == 0x2029 || n == 0x202f || n == 0x205f || n == 0x3000

def trim (s : Text) : Text := ((s.dropWhile isWhitespace).reverse.dropWhile isWhitespace).reverse

def eqIgnoreAsciiCase (a b : Text) : Bool := a.map Char.toLower == b.map Char.toLower

/-- How many bytes a text is long in UTF-8. -/
def byteLen (s : Text) : Nat := (s.map Char.utf8Size).sum

/-- The first `n` bytes, where a character ends there. -/
def firstBytes : Nat → Text → Option Text
  | 0, _ => some []
  | _ + 1, [] => none
  | n + 1, c :: rest => if c.utf8Size ≤ n + 1 then (firstBytes (n + 1 - c.utf8Size) rest).map (c :: ·) else none

/-- The lines between the ends of line, the last one with nothing behind it. -/
def crlfLines : Text → List Text
  | [] => [[]]
  | '\x0d' :: '\n' :: rest => [] :: crlfLines rest
  | c :: rest => (crlfLines rest).modifyHead (c :: ·)

variable {s mark : Text}

theorem stripPrefix_eq_some {rest : Text} : stripPrefix mark s = some rest ↔ s = mark ++ rest := by
  unfold stripPrefix
  constructor
  · intro cut
    split at cut
    · rename_i front
      obtain ⟨tail, rfl⟩ := isPrefixOf_iff_prefix.mp front
      injection cut with cut
      rw [← cut, drop_left]
    · cases cut
  · rintro rfl
    rw [if_pos (List.isPrefixOf_iff_prefix.mpr (prefix_append mark rest)), drop_left]

theorem stripPrefix_append (mark rest : Text) : stripPrefix mark (mark ++ rest) = some rest := stripPrefix_eq_some.mpr rfl

theorem stripPrefix_apart {other : Text} (apart : ¬ mark <+: other ∧ ¬ other <+: mark) (rest : Text) :
    stripPrefix mark (other ++ rest) = none := by
  cases cut : stripPrefix mark (other ++ rest) with
  | none => rfl
  | some tail =>
    have whole := stripPrefix_eq_some.mp cut
    have both := prefix_or_prefix_of_prefix (prefix_append other rest) (whole ▸ prefix_append mark tail)
    exact (both.elim apart.2 apart.1).elim

variable {c : Char}

theorem splitOnce_eq_some {a b : Text} : splitOnce c s = some (a, b) ↔ s = a ++ c :: b ∧ c ∉ a := by
  induction s generalizing a with
  | nil => simp [splitOnce]
  | cons x rest ih =>
    unfold splitOnce
    split
    case isTrue eq =>
      constructor
      · intro cut
        cases cut
        exact ⟨by rw [eq]; rfl, not_mem_nil⟩
      · rintro ⟨whole, free⟩
        cases a with
        | nil =>
          cases whole
          rfl
        | cons y a =>
          cases whole
          exact absurd (eq ▸ mem_cons_self) free
    case isFalse apart =>
      constructor
      · intro cut
        obtain ⟨⟨a', b'⟩, inner, out⟩ := Option.map_eq_some_iff.mp cut
        cases out
        obtain ⟨rfl, free⟩ := ih.mp inner
        refine ⟨rfl, fun mem => ?_⟩
        rcases mem_cons.mp mem with here | later
        · exact apart here.symm
        · exact free later
      · rintro ⟨whole, free⟩
        cases a with
        | nil =>
          cases whole
          exact absurd rfl apart
        | cons y a =>
          cases whole
          rw [ih.mpr ⟨rfl, fun mem => free (mem_cons_of_mem _ mem)⟩]
          rfl

theorem splitOnText_eq_some {a b : Text} (some_ : mark ≠ []) (cut : splitOnText mark s = some (a, b)) :
    s = a ++ mark ++ b ∧ ∀ p, p <+: s → mark <:+ p → a.length + mark.length ≤ p.length := by
  induction s generalizing a with
  | nil =>
    unfold splitOnText at cut
    rw [if_neg some_] at cut
    cases cut
  | cons x rest ih =>
    unfold splitOnText at cut
    split at cut
    case isTrue front =>
      cases cut
      obtain ⟨tail, whole⟩ := isPrefixOf_iff_prefix.mp front
      refine ⟨by rw [← whole, drop_left]; rfl, fun p _ last => ?_⟩
      simpa using last.length_le
    case isFalse other =>
      obtain ⟨⟨a, b⟩, inner, eq⟩ := Option.map_eq_some_iff.mp cut
      cases eq
      obtain ⟨rfl, first⟩ := ih inner
      refine ⟨rfl, fun p front last => ?_⟩
      cases p with
      | nil => exact absurd (suffix_nil.mp last) some_
      | cons y p =>
        obtain ⟨rfl, deeper⟩ := cons_prefix_cons.mp front
        rcases suffix_cons_iff.mp last with whole | inside
        · exact absurd (List.isPrefixOf_iff_prefix.mpr (whole ▸ front)) other
        · have least := first p deeper inside
          simp only [length_cons]
          omega

theorem splitOnText_eq_none (some_ : mark ≠ []) (cut : splitOnText mark s = none) : ∀ p, p <+: s → ¬ mark <:+ p := by
  induction s with
  | nil =>
    intro p front last
    rw [prefix_nil.mp front] at last
    exact some_ (suffix_nil.mp last)
  | cons x rest ih =>
    intro p front last
    unfold splitOnText at cut
    split at cut
    case isTrue => cases cut
    case isFalse other =>
      cases p with
      | nil => exact some_ (suffix_nil.mp last)
      | cons y p =>
        obtain ⟨rfl, deeper⟩ := cons_prefix_cons.mp front
        rcases suffix_cons_iff.mp last with whole | inside
        · exact other (List.isPrefixOf_iff_prefix.mpr (whole ▸ front))
        · exact ih (Option.map_eq_none_iff.mp cut) p deeper inside

theorem splitOnce_eq_none : splitOnce c s = none ↔ c ∉ s := by
  constructor
  · intro uncut mem
    obtain ⟨a, b, rfl, free⟩ := eq_append_cons_of_mem mem
    rw [splitOnce_eq_some.mpr ⟨rfl, free⟩] at uncut
    cases uncut
  · intro free
    cases cut : splitOnce c s with
    | none => rfl
    | some pair =>
      rw [(splitOnce_eq_some.mp cut).1] at free
      exact absurd (mem_append_right _ mem_cons_self) free

variable {P : Text → Prop}

theorem forall_joined (empty : P []) (cut : ∀ a b, P (a ++ c :: b) ↔ P a ∧ P b)
    (parts : List Text) : P ([c].intercalate parts) ↔ ∀ part ∈ parts, P part := by
  induction parts with
  | nil => simpa using empty
  | cons part rest ih =>
    cases rest with
    | nil => simp
    | cons next rest =>
      rw [intercalate_cons_cons, append_assoc, singleton_append, cut, ih]
      exact forall_mem_cons.symm

theorem forall_split (empty : P []) (cut : ∀ a b, P (a ++ c :: b) ↔ P a ∧ P b) (s : Text) :
    (∀ part ∈ s.splitOn c, P part) ↔ P s := by
  rw [← forall_joined empty cut, intercalate_splitOn]

theorem throughLast_front {kept : Text} (cut : throughLast c s = some kept) : kept <+: s := by
  induction s generalizing kept with
  | nil => cases cut
  | cons x rest ih =>
    unfold throughLast at cut
    split at cut
    case h_1 inner found =>
      cases cut
      exact cons_prefix_cons.mpr ⟨rfl, ih found⟩
    case h_2 =>
      split at cut
      case isTrue =>
        cases cut
        exact ⟨rest, rfl⟩
      case isFalse => cases cut

variable {part : Text}

theorem not_mem_of_mem_splitOn (mem : part ∈ s.splitOn c) : c ∉ part := by
  induction s generalizing part with
  | nil =>
    rw [splitOn_nil, mem_singleton] at mem
    rw [mem]
    exact not_mem_nil
  | cons x rest ih =>
    rw [splitOn_cons_eq_if_modifyHead] at mem
    obtain ⟨head, tail, parts⟩ := exists_cons_of_ne_nil (splitOn_ne_nil c rest)
    rw [parts] at mem ih
    split at mem
    case isTrue eq =>
      rcases mem_cons.mp mem with rfl | later
      · exact not_mem_nil
      · exact ih later
    case isFalse apart =>
      rcases mem_cons.mp mem with rfl | later
      · intro inside
        rcases mem_cons.mp inside with here | deeper
        · exact apart (beq_iff_eq.mpr here.symm)
        · exact ih mem_cons_self deeper
      · exact ih (mem_cons_of_mem _ later)

theorem mem_splitOnP {p : Char → Bool} {x : Char} (mem : x ∈ s) (kept : p x = false) :
    ∃ part ∈ s.splitOnP p, x ∈ part := by
  induction s with
  | nil => cases mem
  | cons y rest ih =>
    rw [splitOnP_cons_eq_if_modifyHead]
    obtain ⟨head, tail, parts⟩ := exists_cons_of_ne_nil (splitOnP_ne_nil p rest)
    rw [parts] at ih ⊢
    rcases mem_cons.mp mem with rfl | later
    · rw [if_neg (Bool.eq_false_iff.mp kept)]
      exact ⟨x :: head, mem_cons_self, mem_cons_self⟩
    · obtain ⟨part, known, inside⟩ := ih later
      split
      · exact ⟨part, mem_cons_of_mem _ known, inside⟩
      · rcases mem_cons.mp known with rfl | behind
        · exact ⟨y :: part, mem_cons_self, mem_cons_of_mem _ inside⟩
        · exact ⟨part, mem_cons_of_mem _ behind, inside⟩

variable {parts : List Text}

theorem mem_joined {c x : Char} : x ∈ [c].intercalate parts → x = c ∨ ∃ part ∈ parts, x ∈ part := by
  induction parts with
  | nil => exact fun mem => absurd mem not_mem_nil
  | cons part rest ih =>
    intro mem
    cases rest with
    | nil => exact .inr ⟨part, mem_cons_self, by simpa using mem⟩
    | cons next rest =>
      rcases mem_append.mp mem with here | later
      · exact .inr ⟨part, mem_cons_self, here⟩
      · rcases mem_append.mp later with mark | later
        · exact .inl (mem_singleton.mp mark)
        · rcases ih later with mark | ⟨other, known, inside⟩
          · exact .inl mark
          · exact .inr ⟨other, mem_cons_of_mem _ known, inside⟩

theorem mem_joined_of_mem {c x : Char} (known : part ∈ parts) (inside : x ∈ part) :
    x ∈ [c].intercalate parts := by
  induction parts with
  | nil => exact absurd known not_mem_nil
  | cons first rest ih =>
    cases rest with
    | nil =>
      rw [mem_singleton.mp known] at inside
      simpa using inside
    | cons next rest =>
      rcases mem_cons.mp known with rfl | later
      · exact mem_append_left _ inside
      · exact mem_append_right _ (mem_append_right _ (ih later))

theorem mem_of_mem_splitOn {c x : Char} (mem : part ∈ s.splitOn c) (inside : x ∈ part) : x ∈ s := by
  have whole : [c].intercalate (s.splitOn c) = s := intercalate_splitOn c
  exact whole ▸ mem_joined_of_mem mem inside

end Text
end PlxNative
