import Mathlib.Data.List.Perm.Subperm
import PlxNative.HudFormat.Mask

/-! What the rasteriser reads in an accepted asset. -/
namespace PlxNative.HudFormat.Svg
open List Text Piece

/-- The scanner of the rasteriser, on text without a NUL. Between the tags it looks for the next `<`; a tag ends at the next
`>`, and is passed over when it starts with `!` or `?`. -/
structure Rasteriser where
  scan : Text → List Event
  element : Text → List Event
  nothing : scan [] = []
  text : ∀ t s, '<' ∉ t → '\x00' ∉ t ++ s → scan (t ++ s) = scan s
  tag : ∀ inner s, '>' ∉ inner → '\x00' ∉ inner ++ '>' :: s → scan ('<' :: (inner ++ '>' :: s)) = element inner ++ scan s
  ignored : ∀ x inner, x = '!' ∨ x = '?' → element (x :: inner) = []
  stop : ∀ name gap, name ≠ [] → (∀ x ∈ name, charWith isNameChar x = true) → Blank gap → element ('/' :: (name ++ gap)) = [.stop name]
  -- an accepted tag has one to three attributes
  start : ∀ name (attrs : List Written) gap selfClosing, IsName name → attrs ≠ [] → attrs.length ≤ 3 → Blank gap →
    element (name ++ (attrs.flatMap Written.text ++ (gap ++ if selfClosing then ['/'] else []))) =
      startEvents name (attrs.map Written.pair) selfClosing

section

theorem ne_of_charWith {p : UInt8 → Bool} {x y : Char} (holds : charWith p x = true) (fails : charWith p y = false) : y ≠ x :=
  fun eq => by
    rw [eq, holds] at fails
    cases fails

theorem not_mem_of_class {p : Char → Bool} {s : Text} {y : Char} (all : ∀ x ∈ s, p x = true) (fails : p y = false) : y ∉ s :=
  fun mem => by
    rw [all y mem] at fails
    cases fails

theorem mem_trimAscii {s : Text} {x : Char} (mem : x ∈ s) (solid : isAsciiWhitespace x = false) : x ∈ trimAscii s := by
  have kept : ∀ {t : Text}, x ∈ t → x ∈ t.dropWhile isAsciiWhitespace := fun {t} inside => by
    rw [← takeWhile_append_dropWhile (p := isAsciiWhitespace) (l := t)] at inside
    refine (mem_append.mp inside).resolve_left fun front => ?_
    rw [(all_eq_true.mp all_takeWhile) x front] at solid
    cases solid
  exact mem_reverse.mpr (kept (mem_reverse.mpr (kept mem)))

theorem not_mem_maskWhite {value : Text} (white : isMaskWhite value = true) : '>' ∉ value := by
  intro mem
  obtain ⟨name, known, eq⟩ := any_eq_true.mp white
  have inside : '>' ∈ (trimAscii value).map Char.toLower := mem_map.mpr ⟨'>', mem_trimAscii mem rfl, rfl⟩
  rw [eq_of_beq eq] at inside
  simp only [mem_cons, not_mem_nil, or_false] at known
  rcases known with rfl | rfl | rfl
  · exact absurd inside (by decide)
  · exact absurd inside (by decide)
  · exact absurd inside (by decide)

theorem viewBoxByte_low {b : UInt8} (passes : viewBoxByte b = true) : b.toNat < 128 := by
  simp only [viewBoxByte, Bool.or_eq_true, Bool.and_eq_true, decide_eq_true_eq, UInt8.le_iff_toNat_le, beq_iff_eq] at passes
  rcases passes with ((((⟨_, high⟩ | rfl) | rfl) | rfl) | rfl) | rfl
  · exact Nat.lt_of_le_of_lt high (by decide)
  all_goals decide

variable {F : Type} [Floats F]

theorem readNumbers_chars {tokens : List Text} {numbers out : List F} (read : readNumbers tokens numbers = .ok out) :
    ∀ token ∈ tokens, (bytes token).all viewBoxByte = true := by
  induction tokens generalizing numbers with
  | nil => exact fun _ wrong => (nomatch wrong)
  | cons token tokens ih =>
    unfold readNumbers at read
    split at read
    · cases read
    rename_i plain
    split at read
    · cases read
    split at read
    · cases read
    exact forall_mem_cons.mpr ⟨by simpa using plain, ih read⟩

variable {box : ViewBox F}

theorem not_mem_viewBox {value : Text} (parsed : parseViewBox value = .ok box) : '>' ∉ value := by
  intro mem
  obtain ⟨part, known, inside⟩ := mem_splitOnP (p := fun c => c == ',' || isAsciiWhitespace c) mem rfl
  have some_ : (!part.isEmpty) = true := by
    cases part with
    | nil => cases inside
    | cons => rfl
  have known : part ∈ (value.splitOnP fun c => c == ',' || isAsciiWhitespace c).filter fun t => !t.isEmpty :=
    mem_filter.mpr ⟨known, some_⟩
  have refused : ∀ {out : List F}, readNumbers
      ((value.splitOnP fun c => c == ',' || isAsciiWhitespace c).filter fun t => !t.isEmpty) [] ≠ .ok out := fun read => by
    have plain := readNumbers_chars read part known
    rw [all_bytes fun _ => viewBoxByte_low] at plain
    exact absurd (all_eq_true.mp plain '>' inside) (by decide)
  unfold parseViewBox at parsed
  split at parsed
  · cases parsed
  · rename_i read
    exact refused read
  · cases parsed

variable {attrs : List (Text × Text)}

theorem plain_root (root : RootAttrs attrs box) : ∀ a ∈ attrs, '>' ∉ a.2 := by
  intro a mem
  rcases root.allowed a mem with named | ⟨_, eq⟩ | ⟨_, white⟩
  · obtain ⟨value, known, parsed⟩ := root.viewBox
    rw [← named] at known
    rw [(Prod.ext_iff.mp (inj_on_of_nodup_map root.once mem known rfl)).2]
    exact not_mem_viewBox parsed
  · rw [eq]
    decide
  · exact not_mem_maskWhite white

omit [Floats F] in
theorem plain_path (path : PathAttrs attrs) : ∀ a ∈ attrs, '>' ∉ a.2 := by
  intro a mem
  rcases path.allowed a mem with ⟨_, _, chars⟩ | ⟨_, white⟩ | ⟨_, eq | eq⟩
  · exact not_mem_of_class chars rfl
  · exact not_mem_maskWhite white
  · rw [eq]
    decide
  · rw [eq]
    decide

/-- The attributes of a tag that is accepted. -/
structure Few (attrs : List (Text × Text)) : Prop where
  some_ : attrs ≠ []
  few : attrs.length ≤ 3
  plain : ∀ a ∈ attrs, '>' ∉ a.2

omit [Floats F] in
theorem length_of_names (names : List Text) (once : (attrs.map Prod.fst).Nodup)
    (known : ∀ a ∈ attrs, a.1 ∈ names) : attrs.length ≤ names.length := by
  have subset : attrs.map Prod.fst ⊆ names := fun name mem => by
    obtain ⟨a, inside, rfl⟩ := mem_map.mp mem
    exact known a inside
  rw [← length_map (f := Prod.fst)]
  exact (subperm_of_subset once subset).length_le

theorem RootAttrs.few (root : RootAttrs attrs box) : Few attrs := by
  refine ⟨?_, length_of_names ["viewBox".toList, "xmlns".toList, "fill".toList] root.once fun a mem => ?_, plain_root root⟩
  · rintro rfl
    obtain ⟨_, wrong, _⟩ := root.viewBox
    cases wrong
  · rcases root.allowed a mem with named | ⟨named, _⟩ | ⟨named, _⟩ <;> rw [named] <;> simp

omit [Floats F] in
theorem PathAttrs.few (path : PathAttrs attrs) : Few attrs := by
  refine ⟨?_, length_of_names ["d".toList, "fill".toList, "fill-rule".toList] path.once fun a mem => ?_, plain_path path⟩
  · rintro rfl
    obtain ⟨_, wrong⟩ := path.data
    cases wrong
  · rcases path.allowed a mem with ⟨named, _⟩ | ⟨named, _⟩ | ⟨named, _⟩ <;> rw [named] <;> simp

theorem Mask.attrs_few {svg : Text} {info : SvgInfo F} (mask : Mask svg info) {name : Text}
    (mem : Event.start name attrs ∈ mask.pieces.flatMap Piece.events) : Few attrs := by
  rw [mask.tags] at mem
  rcases mem_cons.mp mem with root | inside
  · cases root
    exact mask.rootAttrs.few
  rcases mem_append.mp inside with path | last
  · obtain ⟨child, known, event⟩ := mem_flatMap.mp path
    unfold Checker.pathEvents at event
    rcases mem_cons.mp event with first | second
    · cases first
      exact (mask.pathAttrs _ known).few
    · cases mem_singleton.mp second
  · cases mem_singleton.mp last

end

namespace Rasteriser
variable (r : Rasteriser)

theorem scan_ignored {x : Char} (mark : x = '!' ∨ x = '?') (front body back s : Text) (frontPlain : '>' ∉ front)
    (closed : ∀ a b, body = a ++ '>' :: b → '>' ∉ a → '<' ∉ b) (backPlain : '>' ∉ back ∧ '<' ∉ back)
    (plain : '\x00' ∉ '<' :: x :: (front ++ (body ++ (back ++ '>' :: s)))) :
    r.scan ('<' :: x :: (front ++ (body ++ (back ++ '>' :: s)))) = r.scan s := by
  have apart : x ≠ '>' := by
    rcases mark with rfl | rfl <;> decide
  cases cut : splitOnce '>' body with
  | none =>
    have bare := splitOnce_eq_none.mp cut
    have whole : x :: (front ++ (body ++ (back ++ '>' :: s))) = (x :: (front ++ (body ++ back))) ++ '>' :: s := by simp
    rw [whole] at plain ⊢
    rw [r.tag _ s ?_ fun mem => plain (mem_cons_of_mem _ mem), r.ignored x _ mark, nil_append]
    simp [frontPlain, bare, backPlain.1, apart.symm]
  | some parts =>
    obtain ⟨a, b⟩ := parts
    obtain ⟨rfl, free⟩ := splitOnce_eq_some.mp cut
    have tail := closed a b rfl free
    have whole : x :: (front ++ (a ++ '>' :: b ++ (back ++ '>' :: s))) =
        (x :: (front ++ a)) ++ '>' :: ((b ++ (back ++ ['>'])) ++ s) := by simp
    rw [whole] at plain ⊢
    rw [r.tag _ _ ?_ fun mem => plain (mem_cons_of_mem _ mem), r.ignored x _ mark, nil_append, r.text]
    · simp [tail, backPlain.2]
    · exact fun mem => plain (by simp only [mem_cons, mem_append] at mem ⊢; exact .inr (.inr (.inr mem)))
    · simp [frontPlain, free, apart.symm]

theorem not_mem_written {a : Written} (value : '>' ∉ a.value) : '>' ∉ a.text := by
  unfold Written.text
  simp only [mem_append, mem_cons, not_mem_nil, or_false, not_or]
  exact ⟨not_mem_of_class a.gap_blank rfl, not_mem_of_class a.named.chars rfl, not_mem_of_class a.before_blank rfl, by decide,
    not_mem_of_class a.after_blank rfl, ne_of_charWith a.quoted rfl, value, ne_of_charWith a.quoted rfl⟩

theorem scan_piece (piece : Piece) (s : Text) (few : ∀ name attrs, .start name attrs ∈ piece.events → Few attrs)
    (plain : '\x00' ∉ piece.written ++ s) : r.scan (piece.written ++ s) = piece.events ++ r.scan s := by
  cases piece with
  | text t blank => exact r.text t s (not_mem_of_class blank rfl) plain
  | comment body isComment =>
    have whole : (Piece.comment body isComment).written ++ s = '<' :: '!' :: ("--".toList ++ (body ++ ("--".toList ++ '>' :: s))) := by
      simp [written]
    rw [whole] at plain ⊢
    exact r.scan_ignored (.inl rfl) "--".toList body "--".toList s (by decide) isComment.closed ⟨by decide, by decide⟩ plain
  | start name attrs gap selfClosing named blank =>
    obtain ⟨some_, short, values⟩ := few name _ mem_cons_self
    have whole : (Piece.start name attrs gap selfClosing named blank).written ++ s =
        '<' :: ((name ++ (attrs.flatMap Written.text ++ (gap ++ if selfClosing then ['/'] else []))) ++ '>' :: s) := by
      cases selfClosing <;> simp [written]
    rw [whole] at plain ⊢
    rw [r.tag _ s ?_ fun mem => plain (mem_cons_of_mem _ mem),
      r.start name attrs gap selfClosing named (fun none_ => some_ (by rw [none_]; rfl)) (by simpa using short) blank]
    · rfl
    · have texts : '>' ∉ attrs.flatMap Written.text := fun mem => by
        obtain ⟨a, known, inside⟩ := mem_flatMap.mp mem
        exact not_mem_written (values a.pair (mem_map.mpr ⟨a, known, rfl⟩)) inside
      have slash : '>' ∉ (if selfClosing then ['/'] else [] : Text) := by cases selfClosing <;> decide
      simp only [mem_append, not_or]
      exact ⟨not_mem_of_class named.chars rfl, texts, not_mem_of_class blank rfl, slash⟩
  | stop name gap some_ chars blank =>
    have whole : (Piece.stop name gap some_ chars blank).written ++ s = '<' :: (('/' :: (name ++ gap)) ++ '>' :: s) := by
      simp [written]
    rw [whole] at plain ⊢
    rw [r.tag _ s ?_ fun mem => plain (mem_cons_of_mem _ mem), r.stop name gap some_ chars blank]
    · rfl
    · simp only [mem_cons, mem_append, not_or]
      exact ⟨by decide, not_mem_of_class chars rfl, not_mem_of_class blank rfl⟩

theorem scan_pieces (pieces : List Piece) (few : ∀ name attrs, .start name attrs ∈ pieces.flatMap Piece.events → Few attrs)
    (plain : '\x00' ∉ pieces.flatMap written) : r.scan (pieces.flatMap written) = pieces.flatMap Piece.events := by
  induction pieces with
  | nil => exact r.nothing
  | cons piece pieces ih =>
    rw [flatMap_cons] at plain
    rw [flatMap_cons, flatMap_cons, r.scan_piece piece _ (fun name attrs mem =>
      few name attrs (mem_append_left _ mem)) plain, ih (fun name attrs mem =>
      few name attrs (mem_append_right _ mem)) fun mem => plain (mem_append_right _ mem)]

theorem scan_lead (lead : Lead) (s : Text) (plain : '\x00' ∉ lead.text ++ s) : r.scan (lead.text ++ s) = r.scan s := by
  obtain ⟨marked, gap, blank, declaration, declared⟩ := lead
  have front : '<' ∉ (if marked then ['\ufeff'] else []) ++ gap := by
    have mark : '<' ∉ (if marked then ['\ufeff'] else [] : Text) := by cases marked <;> decide
    exact fun mem => (mem_append.mp mem).elim mark (not_mem_of_class blank rfl)
  unfold Lead.text at plain ⊢
  simp only at plain ⊢
  have whole : (if marked then ['\ufeff'] else []) ++ (gap ++ declarationText declaration) ++ s =
      ((if marked then ['\ufeff'] else []) ++ gap) ++ (declarationText declaration ++ s) := by simp
  rw [whole] at plain ⊢
  rw [r.text _ _ front plain]
  cases declaration with
  | none => rfl
  | some body =>
    have known := declared body rfl
    have text : declarationText (some body) ++ s = '<' :: '?' :: ("xml".toList ++ (body ++ ("?".toList ++ '>' :: s))) := by
      simp [declarationText]
    rw [text] at plain ⊢
    refine r.scan_ignored (.inr rfl) "xml".toList body "?".toList s (by decide) (fun a b whole _ mem => known.plain.2 ?_)
      ⟨by decide, by decide⟩ fun mem => plain (mem_append_right _ mem)
    rw [whole]
    exact mem_append_right _ (mem_cons_of_mem _ mem)

end Rasteriser

/-- The rasteriser reads exactly the tags of an accepted asset that its check recognised. -/
theorem rasteriser_sees_checked {F : Type} [Floats F] (r : Rasteriser) {pointer : String} {svg : Text} {info : SvgInfo F}
    (accepted : checkAsset pointer svg = some (.ok info)) : r.scan svg = (Checker.new (F := F) pointer svg).tags := by
  rcases checkAsset_cases (F := F) pointer svg with ⟨findings, refused, _⟩ | ⟨known, same, mask, events⟩
  · rw [refused] at accepted
    cases accepted
  · have plain := mask.plain
    rw [mask.written] at plain
    rw [events]
    refine (congrArg r.scan mask.written).trans ?_
    rw [r.scan_lead mask.lead _ plain]
    exact r.scan_pieces mask.pieces (fun name attrs member => mask.attrs_few member) fun member =>
      plain (mem_append_right _ member)

/-! A scanner of the described kind, character by character, with the inside of the tag it stands in. -/
namespace Described

def isSpace (x : Char) : Bool := x == ' ' || x == '\t' || x == '\n' || x == '\x0b' || x == '\x0c' || x == '\x0d'

def isQuote (x : Char) : Bool := charWith (fun q => q == 34 || q == 39) x

def isNamePart (x : Char) : Bool := !isSpace x && x != '='

/-- The attributes behind a name, and whether a slash ends them. -/
def attrsOf : Nat → Text → List (Text × Text) × Bool
  | 0, _ => ([], false)
  | fuel + 1, s => match s.dropWhile isSpace with
    | [] => ([], false)
    | x :: rest =>
      if x = '/' then ([], true)
      else match ((x :: rest).dropWhile isNamePart).dropWhile (fun y => !isQuote y) with
        | [] => ([], false)
        | quote :: behind =>
          let more := attrsOf fuel ((behind.dropWhile (· != quote)).drop 1)
          (((x :: rest).takeWhile isNamePart, behind.takeWhile (· != quote)) :: more.1, more.2)

def element : Text → List Event
  | [] => []
  | x :: inner =>
    if x = '!' ∨ x = '?' then []
    else if x = '/' then [.stop (inner.takeWhile fun y => !isSpace y)]
    else
      let attrs := attrsOf (inner.length + 1) ((x :: inner).dropWhile fun y => !isSpace y)
      startEvents ((x :: inner).takeWhile fun y => !isSpace y) attrs.1 attrs.2

def run : Option Text → Text → List Event
  | _, [] => []
  | none, x :: rest => if x = '<' then run (some []) rest else run none rest
  | some inner, x :: rest => if x = '>' then element inner ++ run none rest else run (some (inner ++ [x])) rest

theorem run_text (t s : Text) (free : '<' ∉ t) : run none (t ++ s) = run none s := by
  induction t with
  | nil => rfl
  | cons x t ih =>
    obtain ⟨apart, rest⟩ := not_or.mp (fun either => free (mem_cons.mpr either))
    rw [cons_append, run, if_neg (Ne.symm apart), ih rest]

theorem run_tag (before inner s : Text) (free : '>' ∉ inner) :
    run (some before) (inner ++ '>' :: s) = element (before ++ inner) ++ run none s := by
  induction inner generalizing before with
  | nil => rw [nil_append, append_nil, run, if_pos rfl]
  | cons x inner ih =>
    obtain ⟨apart, rest⟩ := not_or.mp (fun either => free (mem_cons.mpr either))
    rw [cons_append, run, if_neg (Ne.symm apart), ih _ rest, append_assoc]
    rfl

theorem span_stop {p : Char → Bool} {a b : Text} (pass : ∀ x ∈ a, p x = true) (stops : b.head?.any p = false) :
    (a ++ b).takeWhile p = a ∧ (a ++ b).dropWhile p = b := by
  rw [takeWhile_append_of_pos pass, dropWhile_append_of_pos pass]
  cases b with
  | nil => exact ⟨append_nil a, rfl⟩
  | cons x b =>
    have fails : ¬ p x = true := Bool.eq_false_iff.mp stops
    rw [takeWhile_cons_of_neg fails, dropWhile_cons_of_neg fails]
    exact ⟨append_nil a, rfl⟩

variable {x : Char}

theorem unquoted {p : UInt8 → Bool} (holds : charWith p x = true) (double : p 34 = false) (single : p 39 = false) :
    isQuote x = false := by
  obtain ⟨_, passes⟩ := Bool.and_eq_true_iff.mp holds
  refine Bool.eq_false_iff.mpr fun quote => ?_
  obtain ⟨_, either⟩ := Bool.and_eq_true_iff.mp quote
  rcases Bool.or_eq_true_iff.mp either with eq | eq
  · rw [eq_of_beq eq, double] at passes
    cases passes
  · rw [eq_of_beq eq, single] at passes
    cases passes

theorem blank_space (blank : isBlank x = true) : isSpace x = true := by
  have known : isBlank x = (((x == ' ' || x == '\t') || x == '\x0d') || x == '\n') := by
    change charWith (fun b => ((b == 32 || b == 9) || b == 13) || b == 10) x = _
    rw [charWith_or, charWith_or, charWith_or]
    exact congrArg₂ _ (congrArg₂ _ (congrArg₂ _ (charWith_eq (d := ' ') rfl x) (charWith_eq (d := '\t') rfl x))
      (charWith_eq (d := '\x0d') rfl x)) (charWith_eq (d := '\n') rfl x)
  rw [known] at blank
  simp only [Bool.or_eq_true, beq_iff_eq] at blank
  rcases blank with ((rfl | rfl) | rfl) | rfl <;> rfl

theorem name_solid (part : charWith isNameChar x = true) : isSpace x = false := by
  refine Bool.eq_false_iff.mpr fun space => ?_
  simp only [isSpace, Bool.or_eq_true, beq_iff_eq] at space
  rcases space with ((((rfl | rfl) | rfl) | rfl) | rfl) | rfl <;> exact absurd part (by decide)

theorem name_part (part : charWith isNameChar x = true) : isNamePart x = true := by
  unfold isNamePart
  rw [name_solid part, Bool.not_false, Bool.true_and]
  exact bne_iff_ne.mpr (ne_of_charWith part rfl).symm

theorem attrsOf_cons (a : Written) (s : Text) (fuel : Nat) :
    attrsOf (fuel + 1) (a.text ++ s) = (a.pair :: (attrsOf fuel s).1, (attrsOf fuel s).2) := by
  obtain ⟨x, name, spelled⟩ : ∃ x name, a.name = x :: name := by
    cases named : a.name with
    | nil => exact absurd a.named.starts (by rw [named]; decide)
    | cons x name => exact ⟨x, name, rfl⟩
  have first : charWith isNameChar x = true := a.named.chars x (by rw [spelled]; exact mem_cons_self)
  have whole : a.text ++ s =
      a.gap ++ (a.name ++ (a.before ++ '=' :: (a.after ++ a.quote :: (a.value ++ a.quote :: s)))) := by simp [Written.text]
  have skipped := (span_stop (p := isSpace) (fun y mem => blank_space (a.gap_blank y mem))
    (b := a.name ++ (a.before ++ '=' :: (a.after ++ a.quote :: (a.value ++ a.quote :: s)))) (by
      rw [spelled]
      exact name_solid first)).2
  have named := span_stop (p := isNamePart) (fun y mem => name_part (a.named.chars y mem))
    (b := a.before ++ '=' :: (a.after ++ a.quote :: (a.value ++ a.quote :: s))) (by
      cases before : a.before with
      | nil => rfl
      | cons y rest =>
        have blank := blank_space (a.before_blank y (by rw [before]; exact mem_cons_self))
        simp [isNamePart, blank])
  have bare : ∀ y ∈ a.before ++ '=' :: a.after, (!isQuote y) = true := fun y mem => by
    rw [Bool.not_eq_true']
    rcases mem_append.mp mem with before | behind
    · exact unquoted (a.before_blank y before) rfl rfl
    · rcases mem_cons.mp behind with rfl | after
      · rfl
      · exact unquoted (a.after_blank y after) rfl rfl
  have quoted := (span_stop (p := fun y => !isQuote y) bare (b := a.quote :: (a.value ++ a.quote :: s)) (by
    rw [List.head?_cons, Option.any_some, show isQuote a.quote = true from a.quoted]
    rfl)).2
  have value := span_stop (p := (· != a.quote)) (fun y mem => bne_iff_ne.mpr fun eq => a.closed (eq ▸ mem))
    (b := a.quote :: s) (by simp)
  rw [append_assoc, cons_append] at quoted
  rw [spelled] at skipped named
  rw [whole, spelled, attrsOf, skipped]
  simp only [cons_append] at named ⊢
  rw [if_neg (ne_of_charWith first rfl).symm, named.1, named.2, quoted]
  simp only [value, drop_succ_cons, drop_zero]
  rw [← spelled]
  rfl

theorem attrsOf_written (attrs : List Written) (gap : Text) (selfClosing : Bool) (blank : Blank gap) (fuel : Nat)
    (enough : attrs.length < fuel) :
    attrsOf fuel (attrs.flatMap Written.text ++ (gap ++ if selfClosing then ['/'] else [])) = (attrs.map Written.pair, selfClosing) := by
  induction attrs generalizing fuel with
  | nil =>
    obtain ⟨fuel, rfl⟩ := Nat.exists_eq_succ_of_ne_zero (Nat.pos_iff_ne_zero.mp enough)
    have skipped := (span_stop (p := isSpace) (fun y mem => blank_space (blank y mem))
      (b := if selfClosing then ['/'] else []) (by cases selfClosing <;> rfl)).2
    rw [flatMap_nil, nil_append, attrsOf, skipped]
    cases selfClosing <;> rfl
  | cons a attrs ih =>
    obtain ⟨fuel, rfl⟩ := Nat.exists_eq_succ_of_ne_zero (Nat.pos_iff_ne_zero.mp (Nat.lt_of_le_of_lt (Nat.zero_le _) enough))
    rw [flatMap_cons, append_assoc, attrsOf_cons, ih fuel (Nat.lt_of_succ_lt_succ enough)]
    rfl

theorem element_stop (name gap : Text) (chars : ∀ x ∈ name, charWith isNameChar x = true) (blank : Blank gap) :
    element ('/' :: (name ++ gap)) = [.stop name] := by
  have read := span_stop (p := fun y => !isSpace y) (a := name) (b := gap) (fun y mem => by
    rw [name_solid (chars y mem)]
    rfl) (by
    cases gap with
    | nil => rfl
    | cons y gap =>
      rw [List.head?_cons, Option.any_some, blank_space (blank y mem_cons_self)]
      rfl)
  rw [element, if_neg (by decide), if_pos rfl, read.1]

theorem attrs_length (attrs : List Written) : attrs.length ≤ (attrs.flatMap Written.text).length := by
  induction attrs with
  | nil => exact Nat.le_refl 0
  | cons a attrs ih =>
    have some_ := length_pos_iff.mpr a.apart
    rw [flatMap_cons, length_append, length_cons, Written.text, length_append]
    omega

theorem element_start (name : Text) (attrs : List Written) (gap : Text) (selfClosing : Bool) (named : IsName name)
    (some_ : attrs ≠ []) (blank : Blank gap) :
    element (name ++ (attrs.flatMap Written.text ++ (gap ++ if selfClosing then ['/'] else []))) =
      startEvents name (attrs.map Written.pair) selfClosing := by
  have read := span_stop (p := fun y => !isSpace y) (a := name)
    (b := attrs.flatMap Written.text ++ (gap ++ if selfClosing then ['/'] else [])) (fun y mem => by
      rw [name_solid (named.chars y mem)]
      rfl) (by
      cases attrs with
      | nil => exact (some_ rfl).elim
      | cons a attrs =>
        cases front : a.gap with
        | nil => exact (a.apart front).elim
        | cons y rest =>
          have space := blank_space (a.gap_blank y (by rw [front]; exact mem_cons_self))
          simp [Written.text, front, space])
  cases name with
  | nil => exact absurd named.starts (by decide)
  | cons x name =>
    have first := named.chars x mem_cons_self
    rw [cons_append] at read ⊢
    rw [element, if_neg ?_, if_neg (ne_of_charWith first rfl).symm, read.1, read.2]
    · rw [attrsOf_written attrs gap selfClosing blank]
      have long := attrs_length attrs
      simp only [length_append]
      omega
    · rintro (rfl | rfl)
      · exact absurd first (by decide)
      · exact absurd first (by decide)

def rasteriser : Rasteriser where
  scan := run none
  element := element
  nothing := rfl
  text t s free _ := run_text t s free
  tag inner s free _ := by
    rw [run, if_pos rfl, run_tag [] inner s free]
    rfl
  ignored x inner mark := by rw [element, if_pos mark]
  stop name gap _ := element_stop name gap
  start name attrs gap selfClosing named some_ _ := element_start name attrs gap selfClosing named some_

end Described

instance : Floats Nat where
  parse s := if s.all Char.isDigit then some (s.foldl (fun n c => 10 * n + (c.toNat - '0'.toNat)) 0) else none
  isFinite _ := true
  isPositive n := 0 < n
  div a b := a / b
  debug c := c.toString

def gear : Text :=
  "<?xml version='1.0'?>\n<!-- a > b --><svg viewBox='0 0 24 24' fill=\"white\">\n  <path d='M4 4h16v16z'/>\n</svg>".toList

theorem gear_is_seen : Described.rasteriser.scan gear = (Checker.new (F := Nat) "/assets/gear" gear).tags :=
  have accepted : checkAsset (F := Nat) "/assets/gear" gear = some (.ok ⟨⟨0, 0, 24, 24⟩, 1⟩) := by decide +kernel
  rasteriser_sees_checked Described.rasteriser accepted

end PlxNative.HudFormat.Svg
