import Mathlib.Data.List.TakeWhile
import PlxNative.Lib.Digits
import PlxNative.Lib.Slices

/-! The bare addresses of a log line. -/
namespace PlxNative.Scrub
open List Text
open Decimal
attribute [local instance (high)] List.decidableBAll

def digitByte (b : UInt8) : Bool := 48 ≤ b && b ≤ 57

def tokenByte (b : UInt8) : Bool := digitByte b || b == 46

/-- A byte after which an address does not start. -/
def joiningByte (b : UInt8) : Bool := digitByte b || b == 46 || b == 58 || b == 45

def placeholder : Text := "<addr>".toList

/-- Loopback and the unspecified address survive. -/
def keep (tok : Text) : Bool := "127.".toList.isPrefixOf tok || tok == "0.0.0.0".toList

def octet (o : Text) : Bool := !o.isEmpty && byteLen o ≤ 3 && (Usize.parse 65536 o).any (· ≤ 255)

def dottedQuad (tok : Text) : Bool := tok.count '.' == 3 && (tok.splitOn '.').all octet

/-- Where the address that ends at a byte ends with its port. -/
def portEnd (b : List UInt8) (j : Nat) : Nat :=
  if b[j]? == some 58 then
    let m := j + 1 + ((b.drop (j + 1)).takeWhile digitByte).length
    if j + 1 < m then m else j
  else j

/-- The loop, at the byte that follows `prev`. Every slice is of what is left of the line. -/
def addressLoop : Nat → Option UInt8 → Text → Option Text
  | _, _, [] => some []
  | 0, _, _ :: _ => none
  | fuel + 1, prev, c :: rest =>
    let s := c :: rest
    let b := bytes s
    if !prev.any joiningByte && b.head?.any digitByte then
      let j := (b.takeWhile tokenByte).length
      (cutAt j s).bind fun tok =>
        if dottedQuad tok.1 then
          (cutAt (portEnd b j) s).bind fun cut =>
            (addressLoop fuel (bytes cut.1).getLast? cut.2).map ((if keep tok.1 then cut.1 else placeholder) ++ ·)
        else (addressLoop fuel (bytes tok.1).getLast? tok.2).map (tok.1 ++ ·)
    else (addressLoop fuel (String.utf8EncodeChar c).getLast? rest).map (c :: ·)

def scrubAddresses (s : Text) : Option Text := addressLoop (byteLen s) none s

/-- One of the four numbers: one to three digits, at most 255. -/
structure Octet (o : Text) : Prop where
  digits : Digits o
  some_ : o ≠ []
  short : o.length ≤ 3
  small : value o ≤ 255

def Quad (q : Text) : Prop :=
  ∃ a b c d, q = a ++ '.' :: (b ++ '.' :: (c ++ '.' :: d)) ∧ Octet a ∧ Octet b ∧ Octet c ∧ Octet d

def Exempt (q : Text) : Prop := "127.".toList <+: q ∨ q = "0.0.0.0".toList

/-- An address may start after such a character, or at the start of the text. -/
def Opens (prev : Option Char) : Prop := ∀ c ∈ prev, c.isDigit = false ∧ c ≠ '.' ∧ c ≠ ':' ∧ c ≠ '-'

/-- An address may end before such a text: a dot that no digit follows is the sentence's. -/
def Closes (after : Text) : Prop :=
  ∀ c rest, after = c :: rest → c.isDigit = false ∧ (c = '.' → ∀ d ∈ rest.head?, d.isDigit = false)

/-- A bare address stands in a text that follows `prev`. -/
def Survives (prev : Option Char) (s : Text) : Prop :=
  ∃ before q after, s = before ++ q ++ after ∧ Quad q ∧ ¬ Exempt q ∧ Opens (before.getLast?.or prev) ∧ Closes after

/-- An address stands there with a dot after it that no digit follows. -/
def Dotted (prev : Option Char) (s : Text) : Prop :=
  ∃ before q after, s = before ++ (q ++ '.' :: after) ∧ Quad q ∧ ¬ Exempt q ∧ Opens (before.getLast?.or prev) ∧
    ∀ d ∈ after.head?, d.isDigit = false

def TokenChar (c : Char) : Prop := c.isDigit = true ∨ c = '.'

instance : DecidablePred TokenChar := fun _ => inferInstanceAs (Decidable (_ ∨ _))

theorem Octet.plain {o : Text} (octet : Octet o) : ∀ c ∈ o, TokenChar c := fun c mem => .inl (octet.digits c mem)

theorem Octet.dotless {o : Text} (octet : Octet o) : '.' ∉ o := fun mem => absurd (octet.digits '.' mem) (by decide)

theorem Quad.plain {q : Text} (quad : Quad q) : ∀ c ∈ q, TokenChar c := by
  obtain ⟨a, b, c, d, rfl, ha, hb, hc, hd⟩ := quad
  intro x mem
  simp only [mem_append, mem_cons] at mem
  rcases mem with first | rfl | second | rfl | third | rfl | fourth
  · exact ha.plain x first
  · exact .inr rfl
  · exact hb.plain x second
  · exact .inr rfl
  · exact hc.plain x third
  · exact .inr rfl
  · exact hd.plain x fourth

theorem Quad.starts {q : Text} (quad : Quad q) : ∃ c rest, q = c :: rest ∧ c.isDigit = true := by
  obtain ⟨a, b, c, d, rfl, ha, -, -, -⟩ := quad
  obtain ⟨x, rest, rfl⟩ := exists_cons_of_ne_nil ha.some_
  exact ⟨x, _, cons_append, ha.digits x mem_cons_self⟩

theorem Quad.dots {q : Text} (quad : Quad q) : q.count '.' = 3 := by
  obtain ⟨a, b, c, d, rfl, ha, hb, hc, hd⟩ := quad
  simp [count_append, count_eq_zero.mpr ha.dotless, count_eq_zero.mpr hb.dotless,
    count_eq_zero.mpr hc.dotless, count_eq_zero.mpr hd.dotless]

theorem Quad.not_dotted {q more : Text} (quad : Quad q) : ¬ Quad (q ++ '.' :: more) := fun longer => by
  have three := longer.dots
  rw [count_append, quad.dots, count_cons_self] at three
  omega

/-- The port of an address, as the scanner takes it. -/
def Port (port : Text) : Prop := port = [] ∨ ∃ digits, port = ':' :: digits ∧ Digits digits

/-- What the scanner makes of a text that follows `prev`: a token as it stands, an address with its port, or one character. -/
inductive Scrubs : Option Char → Text → Text → Prop
  | done {prev} : Scrubs prev [] []
  | other {prev c rest out} (plain : Opens prev → c.isDigit = false) (next : Scrubs (some c) rest out) :
      Scrubs prev (c :: rest) (c :: out)
  | token {prev tok rest out} (run : ∀ c ∈ tok, TokenChar c) (some_ : tok ≠ []) (ends : ∀ c ∈ rest.head?, ¬ TokenChar c)
      (unknown : ¬ Quad tok) (next : Scrubs tok.getLast? rest out) : Scrubs prev (tok ++ rest) (tok ++ out)
  | kept {prev tok port rest out} (quad : Quad tok) (exempt : Exempt tok) (port_ : Port port)
      (apart : ∀ c ∈ (port ++ rest).head?, ¬ TokenChar c) (ends : ∀ c ∈ rest.head?, c.isDigit = false)
      (next : Scrubs (tok ++ port).getLast? rest out) : Scrubs prev (tok ++ port ++ rest) (tok ++ port ++ out)
  | replaced {prev tok port rest out} (quad : Quad tok) (port_ : Port port)
      (apart : ∀ c ∈ (port ++ rest).head?, ¬ TokenChar c) (ends : ∀ c ∈ rest.head?, c.isDigit = false)
      (next : Scrubs (tok ++ port).getLast? rest out) : Scrubs prev (tok ++ port ++ rest) (placeholder ++ out)

section
variable {before q after run rest : Text} {prev w : Option Char}

theorem not_opens_of_token {c : Char} (plain : TokenChar c) : ¬ Opens (some c) := fun opens => by
  have apart := opens c rfl
  rcases plain with digit | rfl
  · exact absurd digit (Bool.eq_false_iff.mp apart.1)
  · exact apart.2.1 rfl

theorem not_opens_of_port {port : Text} (port_ : Port port) : ∀ c ∈ port, ¬ Opens (some c) := by
  intro c mem opens
  rcases port_ with rfl | ⟨digits, rfl, plain⟩
  · cases mem
  · rcases mem_cons.mp mem with rfl | later
    · exact (opens ':' rfl).2.2.1 rfl
    · exact not_opens_of_token (.inl (plain c later)) opens

theorem getLast?_behind (some_ : run ≠ []) (more : Text) :
    (run ++ more).getLast?.or w = more.getLast?.or run.getLast? := by
  rw [List.getLast?_append]
  cases more.getLast? with
  | some x => rfl
  | none =>
    rw [List.getLast?_eq_some_getLast some_]
    rfl

theorem starts_or_behind (joining : ∀ c ∈ run, ¬ Opens (some c)) (split : run ++ rest = before ++ q)
    (opens : Opens (before.getLast?.or prev)) : before = [] ∨ ∃ more, before = run ++ more ∧ rest = more ++ q := by
  rcases append_eq_append_iff.mp split with ⟨more, rfl, eq⟩ | ⟨inner, rfl, -⟩
  · exact .inr ⟨more, rfl, eq⟩
  · rcases eq_nil_or_concat before with rfl | ⟨front, c, rfl⟩
    · exact .inl rfl
    · rw [concat_eq_append, List.getLast?_concat] at opens
      exact absurd opens (joining c (by simp))

theorem within_run (plain : ∀ c ∈ q, TokenChar c) (ends : ∀ c ∈ rest.head?, ¬ TokenChar c) (split : run ++ rest = q ++ after) :
    ∃ more, run = q ++ more ∧ after = more ++ rest := by
  rcases append_eq_append_iff.mp split with ⟨beyond, rfl, eq⟩ | ⟨more, rfl, eq⟩
  · cases beyond with
    | nil => exact ⟨[], by simp, eq.symm⟩
    | cons c beyond =>
      have head : c ∈ rest.head? := by
        rw [eq]
        exact rfl
      exact absurd (plain c (mem_append_right _ mem_cons_self)) (ends c head)
  · exact ⟨more, rfl, eq⟩

theorem Survives.behind (some_ : run ≠ []) (survives : Survives run.getLast? rest) : Survives prev (run ++ rest) := by
  obtain ⟨before, q, after, rfl, quad, known, opens, closes⟩ := survives
  exact ⟨run ++ before, q, after, by simp, quad, known, by rwa [getLast?_behind some_], closes⟩

theorem Dotted.behind (some_ : run ≠ []) (dotted : Dotted run.getLast? rest) : Dotted prev (run ++ rest) := by
  obtain ⟨before, q, after, rfl, quad, known, opens, ends⟩ := dotted
  exact ⟨run ++ before, q, after, by simp, quad, known, by rwa [getLast?_behind some_], ends⟩

end
section
variable {prev w : Option Char} {rest out : Text}

theorem Scrubs.head (scrubs : Scrubs prev rest out) : ∀ c ∈ out.head?, c ∈ rest.head? ∨ c = '<' := by
  intro c first
  cases scrubs with
  | done => cases first
  | other => exact .inl first
  | token run some_ ends unknown next =>
    rw [List.head?_append_of_ne_nil _ some_] at first ⊢
    exact .inl first
  | kept quad exempt port_ apart ends next =>
    obtain ⟨x, rest, rfl, -⟩ := quad.starts
    exact .inl first
  | replaced => exact .inr (Option.some.inj first).symm

/-- What a text holds after the placeholder, or after the character that stands before it in the line. -/
def Follows (prev w : Option Char) (rest : Text) : Prop :=
  (Opens prev ↔ Opens w) ∨ ∀ c ∈ rest.head?, c.isDigit = false

theorem Follows.same (c : Option Char) (rest : Text) : Follows c c rest := .inl Iff.rfl

theorem Follows.opens (follows : Follows prev w rest) {c : Char} {t : Text} (eq : rest = c :: t) (digit : c.isDigit = true) :
    Opens prev ↔ Opens w := by
  rcases follows with alike | apart
  · exact alike
  · exact absurd digit (Bool.eq_false_iff.mp (apart c (by rw [eq]; rfl)))

theorem not_token_of_closed {c : Char} (other : ¬ TokenChar c) : c.isDigit = false :=
  Bool.eq_false_iff.mpr fun digit => other (.inl digit)

theorem Scrubs.apart (scrubs : Scrubs prev rest out) (ends : ∀ c ∈ rest.head?, ¬ TokenChar c) : ∀ c ∈ out.head?, ¬ TokenChar c := by
  intro c first
  rcases scrubs.head c first with eq | rfl
  · exact ends c eq
  · exact fun plain => plain.elim (by decide) (by decide)

theorem ports_join {tok port : Text} (quad : Quad tok) (port_ : Port port) : ∀ c ∈ tok ++ port, ¬ Opens (some c) := by
  intro c mem
  rcases mem_append.mp mem with inside | after
  · exact not_opens_of_token (quad.plain c inside)
  · exact not_opens_of_port port_ c after

theorem Quad.ne_nil {q : Text} (quad : Quad q) : q ≠ [] := by
  obtain ⟨c, rest, rfl, -⟩ := quad.starts
  exact cons_ne_nil c rest

theorem beyond_placeholder {before q after : Text} (quad : Quad q) (split : placeholder ++ out = before ++ q ++ after) :
    ∃ more, before = placeholder ++ more ∧ out = more ++ q ++ after := by
  obtain ⟨c, digits, rfl, digit⟩ := quad.starts
  rw [append_assoc] at split
  rcases append_eq_append_iff.mp split with ⟨more, rfl, eq⟩ | ⟨inner, inside, eq⟩
  · exact ⟨more, rfl, by rw [eq, append_assoc]⟩
  · cases inner with
    | nil => exact ⟨[], by simpa using inside.symm, by simpa using eq.symm⟩
    | cons x inner =>
      have head : c = x := (List.cons.inj eq).1
      have mem : c ∈ placeholder := by
        rw [inside, head]
        exact mem_append_right _ mem_cons_self
      have none_ : ∀ x ∈ placeholder, x.isDigit = false := by decide
      exact absurd digit (Bool.eq_false_iff.mp (none_ c mem))

theorem Scrubs.survivor (scrubs : Scrubs prev rest out) (follows : Follows prev w rest) (survives : Survives w out) :
    Dotted prev rest := by
  induction scrubs generalizing w with
  | done =>
    obtain ⟨before, q, after, split, quad, -⟩ := survives
    have none_ : q = [] := (append_eq_nil_iff.mp (append_eq_nil_iff.mp split.symm).1).2
    exact absurd none_ quad.ne_nil
  | @other prev c rest out plain next ih =>
    obtain ⟨before, q, after, split, quad, known, opens, closes⟩ := survives
    cases before with
    | nil =>
      obtain ⟨x, digits, rfl, digit⟩ := quad.starts
      cases (List.cons.inj split).1
      exact absurd digit (Bool.eq_false_iff.mp (plain ((follows.opens rfl digit).mpr opens)))
    | cons x before =>
      obtain ⟨rfl, eq⟩ := List.cons.inj split
      refine Dotted.behind (show [c] ≠ [] from cons_ne_nil c []) (ih (.same _ _) ⟨before, q, after, eq, quad, known, ?_, closes⟩)
      rwa [← singleton_append, getLast?_behind (cons_ne_nil c [])] at opens
  | @token prev tok rest out run some_ ends unknown next ih =>
    obtain ⟨before, q, after, split, quad, known, opens, closes⟩ := survives
    rw [append_assoc] at split
    rcases starts_or_behind (fun c mem => not_opens_of_token (run c mem)) split opens with rfl | ⟨more, rfl, eq⟩
    · obtain ⟨more, rfl, rfl⟩ := within_run quad.plain (next.apart ends) split
      cases more with
      | nil => exact absurd quad (by simpa using unknown)
      | cons x more =>
        obtain ⟨nodigit, dotted⟩ := closes x (more ++ out) rfl
        have dot : x = '.' := (run x (by simp)).resolve_left (by rw [nodigit]; exact Bool.false_ne_true)
        obtain ⟨y, digits, shape, digit⟩ := quad.starts
        have here : Opens prev := (follows.opens (by rw [shape]; rfl) digit).mpr opens
        subst dot
        refine ⟨[], q, more ++ rest, by simp, quad, known, here, fun d first => ?_⟩
        cases more with
        | nil => exact not_token_of_closed (ends d first)
        | cons y more => exact dotted rfl d first
    · refine Dotted.behind some_ (ih (.same _ _) ⟨more, q, after, by rw [eq, append_assoc], quad, known, ?_, closes⟩)
      rwa [getLast?_behind some_] at opens
  | @kept prev tok port rest out tokened exempt port_ apart ends next ih =>
    obtain ⟨before, q, after, split, quad, known, opens, closes⟩ := survives
    have some_ : tok ++ port ≠ [] := append_ne_nil_of_left_ne_nil tokened.ne_nil _
    rw [append_assoc before] at split
    rcases starts_or_behind (ports_join tokened port_) split opens with rfl | ⟨more, rfl, eq⟩
    · have apart_ : ∀ c ∈ (port ++ out).head?, ¬ TokenChar c := by
        cases port with
        | nil => exact next.apart apart
        | cons x port => exact apart
      rw [append_assoc] at split
      obtain ⟨more, rfl, rfl⟩ := within_run quad.plain apart_ split
      cases more with
      | nil => exact absurd (by simpa using exempt) known
      | cons x more =>
        have dot : x = '.' := (tokened.plain x (by simp)).resolve_left (by
          rw [(closes x _ rfl).1]
          exact Bool.false_ne_true)
        subst dot
        exact absurd tokened quad.not_dotted
    · refine Dotted.behind some_ (ih (.same _ _) ⟨more, q, after, by rw [eq, append_assoc], quad, known, ?_, closes⟩)
      rwa [getLast?_behind some_] at opens
  | @replaced prev tok port rest out tokened port_ apart ends next ih =>
    obtain ⟨before, q, after, split, quad, known, opens, closes⟩ := survives
    have some_ : tok ++ port ≠ [] := append_ne_nil_of_left_ne_nil tokened.ne_nil _
    obtain ⟨more, rfl, eq⟩ := beyond_placeholder quad split
    refine Dotted.behind some_ (ih (w := some '>') (.inr ends) ⟨more, q, after, eq, quad, known, ?_, closes⟩)
    rwa [getLast?_behind (by decide)] at opens

theorem Quad.plain_dot {q : Text} (quad : Quad q) : ∀ c ∈ q ++ ['.'], TokenChar c := fun c mem => by
  rcases mem_append.mp mem with inside | last
  · exact quad.plain c inside
  · exact .inr (mem_singleton.mp last)

theorem Quad.not_begun {q tok after : Text} (tokened : Quad tok) (quad : Quad q) (ends : ∀ c ∈ rest.head?, ¬ TokenChar c)
    (split : tok ++ rest = q ++ '.' :: after) : False := by
  obtain ⟨more, rfl, -⟩ := within_run quad.plain_dot ends (by simpa using split)
  exact quad.not_dotted (by simpa using tokened)

theorem Scrubs.sentence (scrubs : Scrubs prev rest out) (follows : Follows prev w rest) (dotted : Dotted prev rest) :
    Survives w out := by
  induction scrubs generalizing w with
  | done =>
    obtain ⟨before, q, after, split, quad, -⟩ := dotted
    exact absurd (append_eq_nil_iff.mp (append_eq_nil_iff.mp split.symm).2).1 quad.ne_nil
  | @other prev c rest out plain next ih =>
    obtain ⟨before, q, after, split, quad, known, opens, ends⟩ := dotted
    cases before with
    | nil =>
      obtain ⟨x, digits, rfl, digit⟩ := quad.starts
      cases (List.cons.inj split).1
      exact absurd digit (Bool.eq_false_iff.mp (plain opens))
    | cons x before =>
      obtain ⟨rfl, eq⟩ := List.cons.inj split
      refine Survives.behind (show [c] ≠ [] from cons_ne_nil c []) (ih (.same _ _) ⟨before, q, after, eq, quad, known, ?_, ends⟩)
      rwa [← singleton_append, getLast?_behind (cons_ne_nil c [])] at opens
  | @token prev tok rest out run some_ closed unknown next ih =>
    obtain ⟨before, q, after, split, quad, known, opens, ends⟩ := dotted
    rcases starts_or_behind (fun c mem => not_opens_of_token (run c mem)) split opens with rfl | ⟨more, rfl, eq⟩
    · obtain ⟨x, digits, shape, digit⟩ := quad.starts
      have here : Opens w := by
        refine (follows.opens (c := x) (t := digits ++ '.' :: after) ?_ digit).mp opens
        rw [split, shape]
        rfl
      obtain ⟨more, rfl, rfl⟩ := within_run quad.plain_dot closed (by simpa using split)
      refine ⟨[], q, '.' :: (more ++ out), by simp, quad, known, here, fun c tail eq => ?_⟩
      obtain ⟨rfl, rfl⟩ := List.cons.inj eq
      refine ⟨by decide, fun _ d first => ?_⟩
      cases more with
      | nil => exact not_token_of_closed (next.apart closed d first)
      | cons y more => exact ends d first
    · refine Survives.behind some_ (ih (.same _ _) ⟨more, q, after, eq, quad, known, ?_, ends⟩)
      rwa [getLast?_behind some_] at opens
  | @kept prev tok port rest out tokened exempt port_ apart closed next ih =>
    obtain ⟨before, q, after, split, quad, known, opens, ends⟩ := dotted
    have some_ : tok ++ port ≠ [] := append_ne_nil_of_left_ne_nil tokened.ne_nil _
    rcases starts_or_behind (ports_join tokened port_) split opens with rfl | ⟨more, rfl, eq⟩
    · exact (tokened.not_begun quad apart (by simpa using split)).elim
    · refine Survives.behind some_ (ih (.same _ _) ⟨more, q, after, eq, quad, known, ?_, ends⟩)
      rwa [getLast?_behind some_] at opens
  | @replaced prev tok port rest out tokened port_ apart closed next ih =>
    obtain ⟨before, q, after, split, quad, known, opens, ends⟩ := dotted
    have some_ : tok ++ port ≠ [] := append_ne_nil_of_left_ne_nil tokened.ne_nil _
    rcases starts_or_behind (ports_join tokened port_) split opens with rfl | ⟨more, rfl, eq⟩
    · exact (tokened.not_begun quad apart (by simpa using split)).elim
    · refine Survives.behind (show placeholder ≠ [] by decide) (ih (.inr closed) ⟨more, q, after, eq, quad, known, ?_, ends⟩)
      rwa [getLast?_behind some_] at opens

end
section

theorem charWith_digit (c : Char) : charWith digitByte c = c.isDigit := by
  rw [Bool.eq_iff_iff]
  unfold charWith digitByte Char.isDigit
  simp only [Bool.and_eq_true, decide_eq_true_eq, UInt8.le_iff_toNat_le]
  constructor
  · rintro ⟨plain, low, high⟩
    rw [ofNat_toNat plain] at low high
    exact ⟨low, high⟩
  · rintro ⟨low, high⟩
    have plain : isAscii c = true := isAscii_iff.mpr (Nat.lt_of_le_of_lt high (by decide))
    rw [ofNat_toNat plain]
    exact ⟨plain, low, high⟩

theorem charWith_token (c : Char) : charWith tokenByte c = true ↔ TokenChar c := by
  have dot : charWith (· == 46) c = (c == '.') := charWith_eq (d := '.') (by decide) c
  unfold tokenByte TokenChar
  rw [charWith_or, charWith_digit, dot, Bool.or_eq_true, beq_iff_eq]

theorem charWith_joining (c : Char) : charWith joiningByte c = false ↔ Opens (some c) := by
  have dot : charWith (· == 46) c = (c == '.') := charWith_eq (d := '.') (by decide) c
  have colon : charWith (· == 58) c = (c == ':') := charWith_eq (d := ':') (by decide) c
  have dash : charWith (· == 45) c = (c == '-') := charWith_eq (d := '-') (by decide) c
  unfold joiningByte
  rw [charWith_or, charWith_or, charWith_or, charWith_digit, dot, colon, dash]
  simp [Opens, and_assoc]

theorem low_digit (b : UInt8) (digit : digitByte b = true) : b.toNat < 128 := by
  unfold digitByte at digit
  simp only [Bool.and_eq_true, decide_eq_true_eq] at digit
  exact Nat.lt_of_le_of_lt digit.2 (by decide)

theorem low_token (b : UInt8) (token : tokenByte b = true) : b.toNat < 128 := by
  rcases (Bool.or_eq_true ..).mp token with digit | dot
  · exact low_digit b digit
  · rw [eq_of_beq dot]
    decide

theorem low_joining (b : UInt8) (joining : joiningByte b = true) : b.toNat < 128 := by
  unfold joiningByte at joining
  simp only [Bool.or_eq_true, beq_iff_eq] at joining
  rcases joining with ((digit | rfl) | rfl) | rfl
  · exact low_digit b digit
  all_goals decide

theorem tokenChars (s : Text) : ∀ c ∈ s.takeWhile (charWith tokenByte), TokenChar c := fun c mem =>
  (charWith_token c).mp (mem_takeWhile_imp mem)

theorem joining_last {s : Text} (some_ : s ≠ []) : (bytes s).getLast?.any joiningByte = false ↔ Opens s.getLast? := by
  rw [last_bytes low_joining, List.getLast?_eq_some_getLast some_, Option.any_some, charWith_joining]

end
section

theorem octet_iff {o : Text} (plain : ∀ c ∈ o, c.isDigit = true) : octet o = true ↔ Octet o := by
  have size : byteLen o = o.length := by
    induction o with
    | nil => rfl
    | cons c o ih =>
      have bound := Decimal.digit_bounds (plain c mem_cons_self)
      have one : c.utf8Size = 1 := by
        rw [Char.utf8Size_eq_one_iff]
        exact UInt32.le_trans bound.2 (by decide)
      rw [byteLen_cons, one, ih fun c mem => plain c (mem_cons_of_mem _ mem), length_cons, Nat.add_comm]
  unfold octet
  cases o with
  | nil => exact ⟨fun read => absurd read (by decide), fun octet => absurd rfl octet.some_⟩
  | cons c o =>
    have some_ : c :: o ≠ [] := cons_ne_nil c o
    rw [size, Bool.and_eq_true, Bool.and_eq_true, decide_eq_true_eq]
    constructor
    · rintro ⟨⟨-, short⟩, small⟩
      obtain ⟨n, read, le⟩ := (Option.any_eq_true ..).mp small
      obtain ⟨rfl, -⟩ := parse_eq_some plain some_ read
      exact ⟨plain, some_, short, of_decide_eq_true le⟩
    · rintro ⟨-, -, short, small⟩
      have read : Usize.parse 65536 (c :: o) = some (value (c :: o)) :=
        parse_eq plain some_ (by decide) (Nat.lt_of_le_of_lt small (by decide))
      rw [read]
      exact ⟨⟨rfl, short⟩, decide_eq_true small⟩

theorem count_joined {parts : List Text} (some_ : parts ≠ []) (free : ∀ part ∈ parts, '.' ∉ part) :
    (['.'].intercalate parts).count '.' + 1 = parts.length := by
  induction parts with
  | nil => exact absurd rfl some_
  | cons part rest ih =>
    have none_ := count_eq_zero.mpr (free part mem_cons_self)
    cases rest with
    | nil => simpa using none_
    | cons next rest =>
      have inner := ih (cons_ne_nil _ _) fun part mem => free part (mem_cons_of_mem _ mem)
      rw [intercalate_cons_cons, count_append, count_append, none_, length_cons, ← inner,
        count_singleton_self]
      omega

theorem dottedQuad_iff {tok : Text} (plain : ∀ c ∈ tok, TokenChar c) : dottedQuad tok = true ↔ Quad tok := by
  unfold dottedQuad
  rw [Bool.and_eq_true, beq_iff_eq, all_eq_true]
  constructor
  · rintro ⟨three, octets⟩
    have whole : ['.'].intercalate (tok.splitOn '.') = tok := intercalate_splitOn '.'
    have digits : ∀ part ∈ tok.splitOn '.', ∀ c ∈ part, c.isDigit = true := fun part mem c inside =>
      (plain c (mem_of_mem_splitOn mem inside)).resolve_right fun dot => not_mem_of_mem_splitOn mem (dot ▸ inside)
    have four := count_joined (splitOn_ne_nil '.' tok) fun part mem => not_mem_of_mem_splitOn mem
    rw [whole, three] at four
    obtain ⟨a, b, c, d, parts⟩ := length_eq_four.mp four.symm
    rw [parts] at whole octets digits
    simp only [mem_cons, not_mem_nil, or_false, forall_eq_or_imp, forall_eq] at octets digits
    refine ⟨a, b, c, d, by simpa using whole.symm, ?_⟩
    exact ⟨(octet_iff digits.1).mp octets.1, (octet_iff digits.2.1).mp octets.2.1, (octet_iff digits.2.2.1).mp octets.2.2.1,
      (octet_iff digits.2.2.2).mp octets.2.2.2⟩
  · intro quad
    refine ⟨quad.dots, ?_⟩
    obtain ⟨a, b, c, d, rfl, ha, hb, hc, hd⟩ := quad
    rw [splitOn_append_cons_self_of_not_mem ha.dotless, splitOn_append_cons_self_of_not_mem hb.dotless,
      splitOn_append_cons_self_of_not_mem hc.dotless, splitOn_eq_singleton hd.dotless]
    simp only [mem_cons, not_mem_nil, or_false, forall_eq_or_imp, forall_eq]
    exact ⟨(octet_iff ha.digits).mpr ha, (octet_iff hb.digits).mpr hb, (octet_iff hc.digits).mpr hc, (octet_iff hd.digits).mpr hd⟩

theorem keep_iff (tok : Text) : keep tok = true ↔ Exempt tok := by
  unfold keep Exempt
  rw [Bool.or_eq_true, isPrefixOf_iff_prefix, beq_iff_eq]

end
section

theorem portEnd_spec (tok rest : Text) : ∃ port more, rest = port ++ more ∧
    portEnd (bytes (tok ++ rest)) (byteLen tok) = byteLen (tok ++ port) ∧ Port port ∧
    ((∀ c ∈ rest.head?, ¬ TokenChar c) → ∀ c ∈ more.head?, c.isDigit = false) := by
  have after : (bytes (tok ++ rest))[byteLen tok]? = (bytes rest).head? := by
    rw [bytes_append, ← bytes_length, List.getElem?_append_right (Nat.le_refl _), Nat.sub_self, List.head?_eq_getElem?]
  have none_ : portEnd (bytes (tok ++ rest)) (byteLen tok) = byteLen tok → ∃ port more, rest = port ++ more ∧
      portEnd (bytes (tok ++ rest)) (byteLen tok) = byteLen (tok ++ port) ∧ Port port ∧
      ((∀ c ∈ rest.head?, ¬ TokenChar c) → ∀ c ∈ more.head?, c.isDigit = false) := fun eq =>
    ⟨[], rest, rfl, by rw [eq, append_nil], .inl rfl, fun ends c first => not_token_of_closed (ends c first)⟩
  cases rest with
  | nil =>
    refine none_ ?_
    unfold portEnd
    rw [after]
    rfl
  | cons c rest =>
    by_cases colon : c = ':'
    · subst colon
      have left : (bytes (tok ++ ':' :: rest)).drop (byteLen tok + 1) = bytes rest := by
        have front : byteLen tok + 1 = (bytes (tok ++ [':'])).length := by
          rw [bytes_length, byteLen_append]
          rfl
        rw [front, show tok ++ ':' :: rest = (tok ++ [':']) ++ rest by simp, bytes_append _ rest, drop_left]
      have digits : (rest.takeWhile (charWith digitByte)).length ≤ byteLen (rest.takeWhile (charWith digitByte)) := length_le_byteLen _
      cases some_ : rest.takeWhile (charWith digitByte) with
      | nil =>
        refine none_ ?_
        unfold portEnd
        rw [left, takeWhile_bytes low_digit, some_]
        simp [bytes]
      | cons d more =>
        rw [some_, length_cons] at digits
        have plain : Digits (d :: more) := fun x mem => by
          rw [← charWith_digit]
          rw [← some_] at mem
          exact mem_takeWhile_imp mem
        refine ⟨':' :: d :: more, rest.dropWhile (charWith digitByte), ?_, ?_, .inr ⟨d :: more, rfl, plain⟩, fun _ x first => ?_⟩
        · rw [cons_append, ← some_, takeWhile_append_dropWhile]
        · unfold portEnd
          rw [after, left, takeWhile_bytes low_digit, some_, bytes_length, if_pos (by rfl), if_pos (by omega), byteLen_append,
            byteLen_cons ':', show Char.utf8Size ':' = 1 from rfl]
          omega
        · have fails := List.head?_dropWhile_not (charWith digitByte) rest
          rw [first] at fails
          rw [← charWith_digit]
          exact fails
    · refine none_ ?_
      have other : (bytes (c :: rest)).head?.any (· == 58) = false := by
        have low : ∀ b : UInt8, (b == 58) = true → b.toNat < 128 := fun b eq => by
          rw [eq_of_beq eq]
          decide
        rw [head_bytes low]
        exact (charWith_eq (d := ':') (by decide) c).trans (beq_eq_false_iff_ne.mpr colon)
      unfold portEnd
      rw [after, if_neg]
      intro eq
      rw [eq_of_beq eq] at other
      exact absurd other (by decide)

theorem addressLoop_scrubs {fuel : Nat} {byte : Option UInt8} {prev : Option Char} {s : Text} (enough : s.length ≤ fuel)
    (last : byte.any joiningByte = false ↔ Opens prev) : ∃ out, addressLoop fuel byte s = some out ∧ Scrubs prev s out := by
  induction fuel generalizing byte prev s with
  | zero =>
    cases length_eq_zero_iff.mp (Nat.le_zero.mp enough)
    exact ⟨[], rfl, .done⟩
  | succ fuel ih =>
    cases s with
    | nil => exact ⟨[], rfl, .done⟩
    | cons c rest =>
      simp only [addressLoop]
      split
      case isFalse closed =>
        have single : (bytes [c]).getLast? = (String.utf8EncodeChar c).getLast? := by
          rw [show bytes [c] = String.utf8EncodeChar c from append_nil _]
        obtain ⟨out, scanned, scrubs⟩ := ih (Nat.le_of_succ_le_succ enough)
          (single ▸ joining_last (cons_ne_nil c []) : (String.utf8EncodeChar c).getLast?.any joiningByte = false ↔ Opens (some c))
        refine ⟨c :: out, by rw [scanned]; rfl, .other (fun opens => ?_) scrubs⟩
        rw [last.mpr opens, head_bytes low_digit] at closed
        rw [← charWith_digit]
        exact Bool.eq_false_iff.mpr closed
      case isTrue opened =>
        obtain ⟨-, digit⟩ := (Bool.and_eq_true ..).mp opened
        rw [head_bytes low_digit, List.head?_cons, Option.any_some, charWith_digit] at digit
        have run := tokenChars (c :: rest)
        have some_ : (c :: rest).takeWhile (charWith tokenByte) ≠ [] := by
          rw [takeWhile_cons_of_pos ((charWith_token c).mpr (.inl digit))]
          exact cons_ne_nil _ _
        have ends : ∀ x ∈ ((c :: rest).dropWhile (charWith tokenByte)).head?, ¬ TokenChar x := fun x first plain => by
          have fails := List.head?_dropWhile_not (charWith tokenByte) (c :: rest)
          rw [first] at fails
          exact absurd ((charWith_token x).mpr plain) (Bool.eq_false_iff.mp fails)
        have whole := takeWhile_append_dropWhile (p := charWith tokenByte) (l := c :: rest)
        rw [takeWhile_bytes low_token, bytes_length]
        generalize (c :: rest).takeWhile (charWith tokenByte) = tok at *
        generalize (c :: rest).dropWhile (charWith tokenByte) = after at *
        rw [← whole] at enough ⊢
        have shorter : after.length ≤ fuel := by
          have front := length_pos_of_ne_nil some_
          rw [length_append] at enough
          omega
        rw [cutAt_append, Option.bind_some]
        split
        case isFalse unknown =>
          obtain ⟨out, scanned, scrubs⟩ := ih shorter (joining_last some_)
          exact ⟨tok ++ out, by rw [scanned]; rfl, .token run some_ ends (fun quad => unknown ((dottedQuad_iff run).mpr quad)) scrubs⟩
        case isTrue quad_ =>
          have quad := (dottedQuad_iff run).mp quad_
          obtain ⟨port, more, rfl, place, port_, closed⟩ := portEnd_spec tok after
          have least : more.length ≤ fuel := by
            rw [length_append] at shorter
            omega
          obtain ⟨out, scanned, scrubs⟩ := ih least (joining_last (append_ne_nil_of_left_ne_nil some_ port))
          rw [place, ← append_assoc, cutAt_append, Option.bind_some]
          rw [scanned]
          split
          case isTrue kept => exact ⟨_, rfl, .kept quad ((keep_iff tok).mp kept) port_ ends (closed ends) scrubs⟩
          case isFalse => exact ⟨_, rfl, .replaced quad port_ ends (closed ends) scrubs⟩

theorem scrubAddresses_scrubs (s : Text) : ∃ out, scrubAddresses s = some out ∧ Scrubs none s out :=
  addressLoop_scrubs (length_le_byteLen s) ⟨fun _ _ absent => (nomatch absent), fun _ => rfl⟩

end
section

/-- On every line the scanner ends, with every slice between characters, and a bare address survives it exactly when one
stands in the line before a dot that no digit follows. -/
theorem addresses_survive (s : Text) :
    ∃ out, scrubAddresses s = some out ∧ (¬ Survives none out ↔ ¬ Dotted none s) := by
  obtain ⟨out, scanned, scrubs⟩ := scrubAddresses_scrubs s
  exact ⟨out, scanned, not_congr ⟨scrubs.survivor (.same none s), scrubs.sentence (.same none s)⟩⟩

/-- The address at the end of a sentence is written to the log. -/
theorem sentence_address_survives : ∃ out, scrubAddresses "10.0.0.2.".toList = some out ∧ Survives none out := by
  refine ⟨"10.0.0.2.".toList, by decide +kernel, [], "10.0.0.2".toList, ['.'], rfl, ?_, ?_, ?_, ?_⟩
  · exact (dottedQuad_iff (by decide)).mp (by decide +kernel)
  · exact fun exempt => absurd ((keep_iff _).mpr exempt) (by decide)
  · exact fun _ absent => nomatch absent
  · rintro c rest same
    cases same
    exact ⟨by decide, fun _ d absent => nomatch absent⟩

end

end PlxNative.Scrub
