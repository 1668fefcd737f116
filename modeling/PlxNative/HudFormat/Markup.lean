import Mathlib.Data.List.Nodup
import PlxNative.HudFormat.SvgSubset

/-! The pieces an accepted asset is written in. -/
namespace PlxNative.HudFormat.Svg
open List Text Option Bool

abbrev isBlank (x : Char) : Bool := charWith isWs x

def Blank (s : Text) : Prop := ∀ x ∈ s, isBlank x = true

structure IsName (name : Text) : Prop where
  starts : name.head?.any (charWith isNameStart) = true
  chars : ∀ x ∈ name, charWith isNameChar x = true

/-- An attribute as a tag writes it, with the blanks before it. -/
structure Written where
  gap : Text
  name : Text
  before : Text
  after : Text
  quote : Char
  value : Text
  apart : gap ≠ []
  gap_blank : Blank gap
  named : IsName name
  before_blank : Blank before
  after_blank : Blank after
  quoted : charWith (fun q => q == 34 || q == 39) quote = true
  closed : quote ∉ value
  plain : '&' ∉ value

namespace Written

def text (a : Written) : Text :=
  a.gap ++ (a.name ++ (a.before ++ '=' :: (a.after ++ a.quote :: (a.value ++ [a.quote]))))

def pair (a : Written) : Text × Text := (a.name, a.value)

end Written

/-- A comment ends at its first `-->`, and has no `<` behind a `>`. -/
structure IsComment (body : Text) : Prop where
  first : ¬ "-->".toList <:+: body
  closed : ∀ a b, body = a ++ '>' :: b → '>' ∉ a → '<' ∉ b

inductive Piece where
  | text (s : Text) (blank : Blank s)
  | comment (body : Text) (comment : IsComment body)
  | start (name : Text) (attrs : List Written) (gap : Text) (selfClosing : Bool) (named : IsName name) (blank : Blank gap)
  | stop (name gap : Text) (some_ : name ≠ []) (chars : ∀ x ∈ name, charWith isNameChar x = true) (blank : Blank gap)

/-- A tag, as what it starts and what it ends. -/
inductive Event where
  | start (name : Text) (attrs : List (Text × Text))
  | stop (name : Text)

def startEvents (name : Text) (attrs : List (Text × Text)) (selfClosing : Bool) : List Event :=
  .start name attrs :: if selfClosing then [.stop name] else []

def Open.events (tag : Open) : List Event :=
  startEvents tag.name (tag.attrs.map fun a => (a.name, a.value)) tag.selfClosing

namespace Piece

def written : Piece → Text
  | .text s _ => s
  | .comment body _ => "<!--".toList ++ (body ++ "-->".toList)
  | .start name attrs gap selfClosing _ _ =>
    '<' :: (name ++ (attrs.flatMap Written.text ++ (gap ++ if selfClosing then "/>".toList else ">".toList)))
  | .stop name gap _ _ _ => "</".toList ++ (name ++ (gap ++ ">".toList))

def events : Piece → List Event
  | .text _ _ => []
  | .comment _ _ => []
  | .start name attrs _ selfClosing _ _ => startEvents name (attrs.map Written.pair) selfClosing
  | .stop name _ _ _ _ => [.stop name]

end Piece

section

variable {b : UInt8}

theorem isWs_low (passes : isWs b = true) : b.toNat < 128 := by
  simp only [isWs, or_eq_true, beq_iff_eq] at passes
  rcases passes with ((rfl | rfl) | rfl) | rfl <;> decide

theorem isNameChar_low (passes : isNameChar b = true) : b.toNat < 128 := by
  simp only [isNameChar, isAlphabetic, or_eq_true, and_eq_true, decide_eq_true_eq, UInt8.le_iff_toNat_le, beq_iff_eq]
    at passes
  rcases passes with (((((⟨_, high⟩ | ⟨_, high⟩) | ⟨_, high⟩) | rfl) | rfl) | rfl) | rfl
  · exact Nat.lt_of_le_of_lt high (by decide)
  · exact Nat.lt_of_le_of_lt high (by decide)
  · exact Nat.lt_of_le_of_lt high (by decide)
  all_goals decide

theorem isNameStart_isNameChar (passes : isNameStart b = true) : isNameChar b = true := by
  simp only [isNameStart, or_eq_true] at passes
  simp only [isNameChar, or_eq_true]
  rcases passes with (letter | score) | colon
  · exact .inl (.inl (.inl (.inl (.inl letter))))
  · exact .inl (.inl (.inl (.inr score)))
  · exact .inl (.inl (.inr colon))

theorem isNameStart_low (passes : isNameStart b = true) : b.toNat < 128 := isNameChar_low (isNameStart_isNameChar passes)

theorem isQuote_low (passes : (b == 34 || b == 39) = true) : b.toNat < 128 := by
  simp only [or_eq_true, beq_iff_eq] at passes
  rcases passes with rfl | rfl <;> decide

end

namespace Checker
variable {F α β : Type}

theorem andThen_ok {step : Step F α} {next : Checker F → α → Step F β} {c' : Checker F} {b : β}
    (ok : andThen step next = some (c', .ok b)) : ∃ c a, step = some (c, .ok a) ∧ next c a = some (c', .ok b) := by
  unfold andThen at ok
  split at ok
  · cases ok
  · cases ok
  · exact ⟨_, _, rfl, ok⟩

/-- Something was said, before anything was said twice. -/
def Sound (c : Checker F) : Prop := c.out = [] → c.seen = []

/-- A step that ends with less than `n` left to read. When nothing was said by its end, nothing was said before it, and it
comes to what is found. -/
def Runs (c : Checker F) (step : Step F α) (n : Nat) (found : Checker F → α → Prop) : Prop :=
  ∃ c' r, step = some (c', r) ∧ c'.Sound ∧ (∀ a, r = .ok a → c'.pos.rest.length < n) ∧
    (c'.out = [] → c.out = [] ∧ ∃ a, r = .ok a ∧ found c' a)

section
variable (c : Checker F) (code : Code) (place : Nat) (what hint : String)

@[simp] theorem report_pos : (c.report code place what hint).pos = c.pos := by
  unfold report
  split <;> rfl

variable {c}

theorem report_said (sound : c.Sound) : (c.report code place what hint).out ≠ [] := by
  unfold report
  split
  case isTrue repeated =>
    intro quiet
    rw [sound quiet] at repeated
    exact not_mem_nil repeated
  case isFalse => exact append_ne_nil_of_right_ne_nil _ (cons_ne_nil _ _)

theorem report_sound (sound : c.Sound) : (c.report code place what hint).Sound :=
  fun quiet => (report_said code place what hint sound quiet).elim

end

section
variable {c : Checker F} {n : Nat} {found : Checker F → α → Prop}

theorem Runs.halted (sound : c.Sound) (code : Code) (place : Nat) (what hint : String) :
    Runs c (c.halted code place what hint) n found :=
  ⟨_, _, rfl, report_sound code place what hint sound, fun _ wrong => (nomatch wrong),
    fun quiet => (report_said code place what hint sound quiet).elim⟩

theorem Runs.ok {c' : Checker F} {a : α} (sound : c'.Sound) (left : c'.pos.rest.length < n)
    (quiet : c'.out = [] → c.out = [] ∧ found c' a) : Runs c (some (c', .ok a)) n found :=
  ⟨_, _, rfl, sound, fun _ _ => left, fun silent => ⟨(quiet silent).1, a, rfl, (quiet silent).2⟩⟩

theorem Runs.said (sound : c.Sound) (left : c.pos.rest.length < n) (code : Code) (place : Nat) (what hint : String) (a : α) :
    Runs c (some (c.report code place what hint, .ok a)) n found :=
  .ok (report_sound code place what hint sound) (by rwa [report_pos])
    fun quiet => (report_said code place what hint sound quiet).elim

variable {found' : Checker F → α → Prop} {step : Step F α}
variable {m : Nat}

theorem Runs.weaken (run : Runs c step n found) (le : n ≤ m)
    (implies : c.out = [] → ∀ c' a, found c' a → found' c' a) : Runs c step m found' := by
  obtain ⟨c', r, eq, sound, left, quiet⟩ := run
  refine ⟨c', r, eq, sound, fun a ok => Nat.lt_of_lt_of_le (left a ok) le, fun silent => ?_⟩
  obtain ⟨before, a, ok, holds⟩ := quiet silent
  exact ⟨before, a, ok, implies before c' a holds⟩

variable {c₁ : Checker F}

theorem Runs.from (run : Runs c₁ step n found) (quiet : c₁.out = [] → c.out = []) : Runs c step n found := by
  obtain ⟨c', r, eq, sound, left, ends⟩ := run
  exact ⟨c', r, eq, sound, left, fun silent => ⟨quiet (ends silent).1, (ends silent).2⟩⟩

theorem Runs.noisy (run : Runs c₁ step n found) (said : c₁.out ≠ []) (le : n ≤ m) : Runs c step m found' := by
  obtain ⟨c', r, eq, sound, left, ends⟩ := run
  exact ⟨c', r, eq, sound, fun a ok => Nat.lt_of_lt_of_le (left a ok) le, fun silent => (said (ends silent).1).elim⟩

theorem Runs.andThen {step : Step F β} {mid : Checker F → β → Prop} {next : Checker F → β → Step F α}
    (run : Runs c step m mid)
    (later : ∀ c' a, step = some (c', .ok a) → c'.Sound → c'.pos.rest.length < m → (c'.out = [] → c.out = [] ∧ mid c' a) →
      Runs c' (next c' a) n found) :
    Runs c (andThen step next) n found := by
  obtain ⟨c', r, rfl, sound, left, quiet⟩ := run
  cases r with
  | error h => exact ⟨c', .error h, rfl, sound, fun _ wrong => (nomatch wrong), fun silent => by
    obtain ⟨_, _, wrong, _⟩ := quiet silent
    cases wrong⟩
  | ok a =>
    have known : c'.out = [] → c.out = [] ∧ mid c' a := fun silent => by
      obtain ⟨before, b, eq, holds⟩ := quiet silent
      cases eq
      exact ⟨before, holds⟩
    exact (later c' a rfl sound (left a rfl) known).from fun silent => (known silent).1

end

section

theorem name_cases (here : Cursor) (starts : here.byte.any isNameStart = true) : ∃ name rest, here.rest = name ++ rest ∧
    IsName name ∧ here.takeWhile isNameChar = some (name, ⟨here.offset + byteLen name, rest⟩) := by
  obtain ⟨name, r₁, whole, chars, stops, eq⟩ := here.takeWhile_cases (p := isNameChar) fun _ => isNameChar_low
  obtain ⟨x, rest, front, passes, _⟩ := Cursor.byte_any (fun _ => isNameStart_low) starts
  have isChar : charWith isNameChar x = true := by
    obtain ⟨plain, inside⟩ := Bool.and_eq_true_iff.mp passes
    exact Bool.and_eq_true_iff.mpr ⟨plain, isNameStart_isNameChar inside⟩
  refine ⟨name, r₁, whole, ?_, eq⟩
  cases name with
  | nil =>
    rw [nil_append] at whole
    rw [← whole, front, List.head?_cons, any_some, isChar] at stops
    cases stops
  | cons y name =>
    rw [front, cons_append] at whole
    cases whole
    exact ⟨passes, chars⟩

theorem attrAt_reads (here : Cursor) (starts : here.byte.any isNameStart = true) : ∃ r, attrAt here = some r ∧
    ∀ attr next, r = .ok (attr, next) → ∃ before after quote, IsName attr.name ∧ Blank before ∧ Blank after ∧
      charWith (fun q => q == 34 || q == 39) quote = true ∧ quote ∉ attr.value ∧
      here.rest = attr.name ++ (before ++ '=' :: (after ++ quote :: (attr.value ++ quote :: next.rest))) := by
  obtain ⟨name, r₁, whole, named, eq⟩ := name_cases here starts
  obtain ⟨before, r₂, rfl, beforeBlank, _, eq₂⟩ := (Text.Cursor.mk (here.offset + byteLen name) r₁).takeWhile_cases (p := isWs) fun _ => isWs_low
  unfold attrAt
  rw [eq, bind_some, eq₂, bind_some]
  split
  · exact ⟨_, rfl, fun _ _ wrong => (nomatch wrong)⟩
  rename_i equals
  obtain ⟨r₃, rfl, eq₃⟩ := Cursor.byte_eq (d := '=') rfl (of_not_not fun other => equals (bne_iff_ne.mpr other))
  obtain ⟨after, r₄, rfl, afterBlank, _, eq₄⟩ := (Text.Cursor.mk (here.offset + byteLen name + byteLen before + 1) r₃).takeWhile_cases
    (p := isWs) fun _ => isWs_low
  rw [eq₃, bind_some, eq₄, bind_some]
  split
  · exact ⟨_, rfl, fun _ _ wrong => (nomatch wrong)⟩
  rename_i quoted
  obtain ⟨quote, r₅, rfl, isQuote, eq₅⟩ := Cursor.byte_any (fun _ => isQuote_low) (by simpa using quoted)
  rw [eq₅, bind_some]
  rcases Cursor.upTo_cases quote ⟨here.offset + byteLen name + byteLen before + 1 + byteLen after + 1, r₅⟩ with
    ⟨_, none_⟩ | ⟨value, r₆, rfl, free, found⟩
  · rw [List.head?_cons, getD_some, none_, bind_some]
    exact ⟨_, rfl, fun _ _ wrong => (nomatch wrong)⟩
  · have one : byteLen [quote] = 1 := by
      rw [← bytes_length, bytes_cons, encode_ascii (Bool.and_eq_true_iff.mp isQuote).1]
      rfl
    have closing := Cursor.take_append [quote] r₆
      (here.offset + byteLen name + byteLen before + 1 + byteLen after + 1 + byteLen value)
    rw [one] at closing
    rw [List.head?_cons, getD_some, found, bind_some]
    simp only [singleton_append] at closing
    simp only [closing, map_some]
    refine ⟨_, rfl, fun attr next ok => ?_⟩
    cases ok
    exact ⟨before, after, quote, named, beforeBlank, afterBlank, isQuote, free, whole⟩

variable {c : Checker F}

theorem entity_quiet (value : Text) (place : Nat) (sound : c.Sound) : (c.entity value place).Sound ∧
    ((c.entity value place).out = [] → c.entity value place = c ∧ '&' ∉ value) := by
  unfold entity
  cases found : byteFind (· == '&') value with
  | some k => exact ⟨report_sound _ _ _ _ sound, fun quiet => (report_said _ _ _ _ sound quiet).elim⟩
  | none => exact ⟨sound, fun _ => ⟨rfl, fun mem => by simpa using byteFind_eq_none.mp found '&' mem⟩⟩

/-- What a tag is written as behind its name, and what it is read as. -/
structure ReadTag (c : Checker F) (name : Text) (gap : Cursor) (attrs : List Attr) (c' : Checker F) (tag : Open) : Prop where
  written : ∃ (written : List Written) (blanks : Text), Blank blanks ∧
    gap.rest = written.flatMap Written.text ++ (blanks ++ ((if tag.selfClosing then "/>".toList else ">".toList) ++ c'.pos.rest)) ∧
    (tag.attrs.map fun a => (a.name, a.value)) = (attrs.map fun a => (a.name, a.value)) ++ written.map Written.pair
  name_eq : tag.name = name
  once : (tag.attrs.map Attr.name).Nodup
  kept : c' = { c with pos := c'.pos }

theorem attrsLoop_runs (name : Text) (place fuel : Nat) (gap : Cursor) (attrs : List Attr) (c : Checker F)
    (enough : gap.rest.length < fuel) (sound : c.Sound) (once : (attrs.map Attr.name).Nodup) :
    Runs c (attrsLoop name place fuel gap attrs c) gap.rest.length (ReadTag c name gap attrs) := by
  induction fuel generalizing gap attrs c with
  | zero => exact absurd enough (Nat.not_lt_zero _)
  | succ fuel ih =>
    obtain ⟨blanks, rest, whole, isBlank, _, skipped⟩ := gap.takeWhile_cases (p := isWs) fun _ => isWs_low
    unfold attrsLoop
    rw [skipped, bind_some]
    simp only
    have long := congrArg List.length whole
    rw [length_append] at long
    split
    · exact .halted sound ..
    split
    · rename_i ends
      obtain ⟨tail, rfl, cut⟩ := Cursor.byte_eq (d := '>') rfl (eq_of_beq ends)
      rw [cut, map_some]
      refine .ok sound ?_ fun quiet => ⟨quiet, ⟨[], blanks, isBlank, whole, (append_nil _).symm⟩, rfl, once, rfl⟩
      rw [length_cons] at long
      change tail.length < _
      omega
    split
    · rename_i ends
      obtain ⟨slash, close⟩ := Bool.and_eq_true_iff.mp ends
      obtain ⟨tail, rfl, _⟩ := Cursor.byte_eq (d := '/') rfl (eq_of_beq slash)
      have second : (Text.Cursor.mk 0 tail).byte = some 62 := by
        have at_ := eq_of_beq close
        rw [bytes_cons, encode_ascii rfl] at at_
        rw [← at_, Cursor.byte, List.head?_eq_getElem?]
        rfl
      obtain ⟨tail, rfl, _⟩ := Cursor.byte_eq (d := '>') rfl second
      rw [show Cursor.take 2 ⟨gap.offset + byteLen blanks, '/' :: '>' :: tail⟩ = some ("/>".toList, ⟨_, tail⟩) from
        Cursor.take_append "/>".toList tail _, map_some]
      refine .ok sound ?_ fun quiet => ⟨quiet, ⟨[], blanks, isBlank, whole, (append_nil _).symm⟩, rfl, once, rfl⟩
      rw [length_cons, length_cons] at long
      change tail.length < _
      omega
    split
    · exact .halted sound ..
    rename_i starts
    obtain ⟨apart, starts⟩ := not_or.mp (fun either => starts (Bool.or_eq_true_iff.mpr either))
    obtain ⟨r, eq, reads⟩ := attrAt_reads ⟨gap.offset + byteLen blanks, rest⟩ (by simpa using starts)
    rw [eq, bind_some]
    cases r with
    | error why => exact .halted sound ..
    | ok read =>
      obtain ⟨attr, next⟩ := read
      obtain ⟨before, after, quote, named, beforeBlank, afterBlank, isQuote, free, written⟩ := reads attr next rfl
      obtain ⟨sound₁, quiet₁⟩ := entity_quiet attr.value attr.valuePlace sound
      have long₂ := congrArg List.length written
      simp only [length_append, length_cons] at long₂
      simp only
      have shorter : next.rest.length < gap.rest.length := by omega
      split
      · exact (ih next attrs _ (by omega) (report_sound _ _ _ _ sound₁) once).noisy (report_said _ _ _ _ sound₁) (Nat.le_of_lt shorter)
      · rename_i fresh
        have once' : ((attrs ++ [attr]).map Attr.name).Nodup := by
          rw [map_append, map_singleton]
          refine nodup_append.mpr ⟨once, nodup_singleton _, fun a known b single same => ?_⟩
          obtain ⟨other, inside, rfl⟩ := mem_map.mp known
          rw [mem_singleton.mp single] at same
          exact fresh (any_eq_true.mpr ⟨other, inside, beq_iff_eq.mpr same⟩)
        have run := ih next (attrs ++ [attr]) (c.entity attr.value attr.valuePlace) (by omega) sound₁ once'
        by_cases quiet : (c.entity attr.value attr.valuePlace).out = []
        case neg => exact run.noisy quiet (Nat.le_of_lt shorter)
        obtain ⟨same, plain⟩ := quiet₁ quiet
        rw [same] at run ⊢
        refine run.weaken (Nat.le_of_lt shorter) fun _ c' tag read => ⟨?_, read.name_eq, read.once, read.kept⟩
        obtain ⟨more, tail, tailBlank, rest_, pairs⟩ := read.written
        have some_ : blanks ≠ [] := fun empty => apart (List.isEmpty_iff.mpr empty)
        refine ⟨⟨blanks, attr.name, before, after, quote, attr.value, some_, isBlank, named, beforeBlank, afterBlank,
          isQuote, free, plain⟩ :: more, tail, tailBlank, whole.trans ?_, ?_⟩
        · rw [show rest = _ from written, rest_]
          simp [Written.text]
        · rw [pairs, map_append, append_assoc]
          rfl

/-- The tag under the cursor, as it is written and read. -/
def TagAt (c c' : Checker F) (tag : Open) : Prop :=
  (∃ attrs blanks named blank, c.pos.rest = (Piece.start tag.name attrs blanks tag.selfClosing named blank).written ++ c'.pos.rest ∧
    (Piece.start tag.name attrs blanks tag.selfClosing named blank).events = tag.events) ∧
  (tag.attrs.map Attr.name).Nodup ∧ c' = { c with pos := c'.pos }

variable {rest : Text}

theorem openTag_runs (opens : c.pos.rest = '<' :: rest) (sound : c.Sound) :
    Runs c c.openTag c.pos.rest.length (TagAt c) := by
  have one : c.pos.take 1 = some (['<'], ⟨c.pos.offset + 1, rest⟩) := Cursor.take_prefix (a := ['<']) opens
  unfold openTag
  simp only [one, bind_some]
  split
  · exact .halted sound ..
  rename_i starts
  obtain ⟨name, after, rfl, named, eq⟩ := name_cases ⟨c.pos.offset + 1, rest⟩ (by simpa using starts)
  rw [eq, bind_some]
  have le : after.length < (name ++ after).length + 1 := by
    rw [length_append]
    omega
  refine (attrsLoop_runs name c.pos.offset _ ⟨_, after⟩ [] c le sound nodup_nil).weaken ?_ fun _ c' tag read => ⟨?_, read.once, read.kept⟩
  · rw [opens, length_cons, length_append]
    change after.length ≤ _
    omega
  · obtain ⟨written, blanks, blank, tail, pairs⟩ := read.written
    cases read.name_eq
    refine ⟨written, blanks, named, blank, ?_, ?_⟩
    · rw [opens, show after = _ from tail]
      simp [Piece.written]
    · unfold Open.events
      rw [pairs]
      rfl

theorem closeTag_runs (opens : c.pos.rest = "</".toList ++ rest) (sound : c.Sound) :
    Runs c c.closeTag c.pos.rest.length fun c' _ => ∃ name gap some_ chars blank,
      c.closeName.map Prod.fst = some name ∧
      c.pos.rest = (Piece.stop name gap some_ chars blank).written ++ c'.pos.rest ∧
      ∃ kind stack, c.stack = (name, kind) :: stack ∧
        c' = { c with pos := c'.pos, stack := stack, rootDone := if stack.isEmpty then true else c.rootDone } := by
  have two : c.pos.take 2 = some ("</".toList, ⟨c.pos.offset + 2, rest⟩) := Cursor.take_prefix opens
  obtain ⟨name, r₁, rfl, chars, _, eq⟩ := (Text.Cursor.mk (c.pos.offset + 2) rest).takeWhile_cases (p := isNameChar) fun _ => isNameChar_low
  obtain ⟨gap, r₂, rfl, blank, _, eq₂⟩ := (Text.Cursor.mk (c.pos.offset + 2 + byteLen name) r₁).takeWhile_cases (p := isWs) fun _ => isWs_low
  have closed : c.closeName = some (name, ⟨c.pos.offset + 2 + byteLen name + byteLen gap, r₂⟩) := by
    unfold closeName
    rw [two, bind_some, eq, bind_some, eq₂]
    rfl
  unfold closeTag
  simp only [closed, bind_some]
  split
  · exact .halted sound ..
  rename_i ends
  obtain ⟨some_, ends⟩ := not_or.mp fun either => ends (Bool.or_eq_true_iff.mpr either)
  obtain ⟨tail, rfl, cut⟩ := Cursor.byte_eq (d := '>') rfl (of_not_not fun other => ends (bne_iff_ne.mpr other))
  have shorter : tail.length < c.pos.rest.length := by
    rw [opens]
    simp only [length_append, length_cons]
    omega
  rw [cut, bind_some]
  simp only
  split
  · exact (Runs.halted (c := { c with pos := ⟨_, tail⟩ }) sound ..).from id
  rename_i name' kind stack top
  split
  · exact (Runs.halted (c := { c with pos := ⟨_, tail⟩, stack := stack }) sound ..).from id
  rename_i same
  have same : name' = name := of_not_not fun other => same (bne_iff_ne.mpr other)
  subst same
  refine .ok ?_ ?_ fun quiet => ?_
  · split <;> exact sound
  · split <;> exact shorter
  · refine ⟨by split at quiet <;> exact quiet, name', gap, fun empty => some_ (List.isEmpty_iff.mpr empty), chars, blank, rfl, ?_, kind, stack, top, ?_⟩
    · rw [opens]
      split <;> simp [Piece.written]
    · split <;> rfl

theorem comment_runs (opens : c.pos.rest = "<!--".toList ++ rest) (sound : c.Sound) :
    Runs c c.comment c.pos.rest.length fun c' _ => ∃ body plain,
      c.pos.rest = (Piece.comment body plain).written ++ c'.pos.rest ∧ c' = { c with pos := c'.pos } := by
  have four : c.pos.take 4 = some ("<!--".toList, ⟨c.pos.offset + 4, rest⟩) := Cursor.take_prefix opens
  unfold comment
  simp only [four, bind_some]
  split
  · exact .halted sound ..
  split
  case h_2 => exact .halted sound ..
  rename_i body after found
  obtain ⟨rfl, first⟩ := splitOnText_eq_some (by simp) found
  rw [append_assoc] at opens
  have cut : Cursor.take (byteLen body + 3) ⟨c.pos.offset + 4, body ++ "-->".toList ++ after⟩ =
      some (body ++ "-->".toList, ⟨c.pos.offset + 4 + (byteLen body + 3), after⟩) := by
    have whole := Cursor.take_append (body ++ "-->".toList) after (c.pos.offset + 4)
    rwa [byteLen_append, show byteLen "-->".toList = 3 from rfl] at whole
  rw [cut, bind_some]
  simp only
  split
  · exact (Runs.halted (c := { c with pos := ⟨_, after⟩ }) sound ..).from id
  rename_i bare
  have plain : IsComment body := by
    refine ⟨?_, ?_⟩
    · rintro ⟨a, b, within⟩
      have shorter := first (a ++ "-->".toList) ⟨b ++ "-->".toList ++ after, by rw [← within]; simp⟩ ⟨a, rfl⟩
      rw [← within] at shorter
      simp only [length_append, show "-->".toList.length = 3 from rfl] at shorter
      omega
    · rintro a b rfl free mem
      rw [splitOnce_eq_some.mpr ⟨rfl, free⟩] at bare
      exact bare (contains_iff_mem.mpr mem)
  refine .ok sound ?_ fun quiet => ⟨quiet, body, plain, opens.trans (by simp [Piece.written]), rfl⟩
  rw [opens]
  simp only [length_append]
  change after.length < 4 + _
  omega

theorem skipPast_runs {end_ : Text} (some_ : end_ ≠ []) (place : Nat) (what : String) (sound : c.Sound) :
    Runs c (c.skipPast end_ place what) c.pos.rest.length fun _ _ => True := by
  unfold skipPast
  split
  case h_2 => exact .halted sound ..
  rename_i body after found
  obtain ⟨whole, _⟩ := splitOnText_eq_some some_ found
  have cut := Cursor.take_prefix whole
  rw [byteLen_append] at cut
  rw [cut, map_some]
  refine .ok sound ?_ fun quiet => ⟨quiet, trivial⟩
  have long := length_pos_iff.mpr some_
  rw [whole]
  simp only [length_append]
  change after.length < _
  omega

theorem text_runs (s : Text) (place : Nat) (sound : c.Sound) : Runs c (c.text s place) (c.pos.rest.length + 1) fun c' _ => c' = c ∧
    (Blank s ∨ c.stack.head?.map Prod.snd = some .other) := by
  unfold text
  split
  · exact .said sound (Nat.lt_succ_self _) ..
  split
  · rename_i blank
    rw [all_bytes fun _ => isWs_low] at blank
    exact .ok sound (Nat.lt_succ_self _) fun quiet => ⟨quiet, rfl, .inl (all_eq_true.mp blank)⟩
  split
  · rename_i refused
    exact .ok sound (Nat.lt_succ_self _) fun quiet => ⟨quiet, rfl, .inr refused⟩
  · exact .said sound (Nat.lt_succ_self _) ..
  · exact .halted sound ..

end

end Checker

end PlxNative.HudFormat.Svg
