import Mathlib.Data.List.Induction
import PlxNative.Lib.Text

/-! Cutting a text at a count of bytes, which is refused inside a character. -/
namespace PlxNative.Text
open List

def cutAt : Nat → Text → Option (Text × Text)
  | 0, s => some ([], s)
  | _ + 1, [] => none
  | n + 1, c :: rest =>
    if c.utf8Size ≤ n + 1 then (cutAt (n + 1 - c.utf8Size) rest).map (fun cut => (c :: cut.1, cut.2)) else none

/-- The byte at which the first such character starts. -/
def byteFind (p : Char → Bool) : Text → Option Nat
  | [] => none
  | c :: rest => if p c then some 0 else (byteFind p rest).map (c.utf8Size + ·)

@[simp] theorem byteLen_nil : byteLen [] = 0 := rfl

@[simp] theorem byteLen_cons (c : Char) (s : Text) : byteLen (c :: s) = c.utf8Size + byteLen s := rfl

@[simp] theorem byteLen_append (a b : Text) : byteLen (a ++ b) = byteLen a + byteLen b := by
  induction a with
  | nil => simp
  | cons c a ih => rw [cons_append, byteLen_cons, byteLen_cons, ih, Nat.add_assoc]

theorem length_le_byteLen (s : Text) : s.length ≤ byteLen s := by
  induction s with
  | nil => exact Nat.le_refl 0
  | cons c s ih =>
    have some_ := Char.utf8Size_pos c
    rw [length_cons, byteLen_cons]
    omega

theorem cutAt_append (a b : Text) : cutAt (byteLen a) (a ++ b) = some (a, b) := by
  induction a with
  | nil => rw [byteLen_nil, nil_append, cutAt]
  | cons c a ih =>
    have some_ := Char.utf8Size_pos c
    obtain ⟨n, size⟩ := Nat.exists_eq_add_of_lt some_
    have whole : byteLen (c :: a) = (n + byteLen a) + 1 := by
      rw [byteLen_cons]
      omega
    rw [whole, cons_append, cutAt, if_pos (by omega), show n + byteLen a + 1 - c.utf8Size = byteLen a by omega, ih]
    rfl

theorem byteFind_takeWhile (p : Char → Bool) (s : Text) :
    (byteFind p s).getD (byteLen s) = byteLen (s.takeWhile (fun c => !p c)) := by
  induction s with
  | nil => rfl
  | cons c s ih =>
    unfold byteFind
    cases here : p c with
    | true => simp [here]
    | false =>
      rw [takeWhile_cons_of_pos (by rw [here]; rfl), byteLen_cons, byteLen_cons, ← ih]
      cases byteFind p s <;> rfl

variable {p : Char → Bool} {s : Text}

theorem byteFind_eq_none : byteFind p s = none ↔ ∀ c ∈ s, p c = false := by
  induction s with
  | nil => simp [byteFind]
  | cons c s ih =>
    unfold byteFind
    cases here : p c with
    | true => simp [here]
    | false => simp [here, ih]

theorem byteFind_eq_some {n : Nat} (found : byteFind p s = some n) :
    ∃ a c b, s = a ++ c :: b ∧ p c = true ∧ (∀ x ∈ a, p x = false) ∧ n = byteLen a := by
  induction s generalizing n with
  | nil => cases found
  | cons c s ih =>
    unfold byteFind at found
    cases here : p c with
    | true =>
      rw [here, if_pos rfl] at found
      cases found
      exact ⟨[], c, s, rfl, here, fun _ mem => (nomatch mem), rfl⟩
    | false =>
      rw [here, if_neg Bool.false_ne_true] at found
      obtain ⟨m, inner, rfl⟩ := Option.map_eq_some_iff.mp found
      obtain ⟨a, x, b, rfl, holds, free, rfl⟩ := ih inner
      exact ⟨c :: a, x, b, rfl, holds, forall_mem_cons.mpr ⟨here, free⟩, rfl⟩

def bytes (s : Text) : List UInt8 := s.flatMap String.utf8EncodeChar

/-- A test of bytes, of a character: a character of several bytes holds none that a test of ASCII bytes accepts. -/
def charWith (p : UInt8 → Bool) (c : Char) : Bool := isAscii c && p (UInt8.ofNat c.toNat)

theorem bytes_cons (c : Char) (s : Text) : bytes (c :: s) = String.utf8EncodeChar c ++ bytes s := rfl

theorem bytes_append (a b : Text) : bytes (a ++ b) = bytes a ++ bytes b := flatMap_append

theorem bytes_length (s : Text) : (bytes s).length = byteLen s := by
  induction s with
  | nil => rfl
  | cons c s ih => rw [bytes_cons, length_append, String.length_utf8EncodeChar, ih, byteLen_cons]

variable {c : Char}

theorem encode_ascii (plain : isAscii c = true) : String.utf8EncodeChar c = [UInt8.ofNat c.toNat] := by
  have low : c.toNat < 128 := of_decide_eq_true plain
  exact if_pos (Nat.le_of_lt_succ low)

theorem encode_wide (wide : isAscii c = false) : ∀ b ∈ String.utf8EncodeChar c, 128 ≤ b.toNat := by
  have high : 128 ≤ c.toNat := Nat.le_of_not_lt (of_decide_eq_false wide)
  have unplain : ¬ c.val.toNat ≤ 127 := fun low => absurd high (by change ¬ 128 ≤ c.val.toNat; omega)
  unfold String.utf8EncodeChar
  simp only [if_neg unplain]
  intro b mem
  split at mem
  · simp only [mem_cons, not_mem_nil, or_false] at mem
    rcases mem with rfl | rfl <;> simp only [UInt8.toNat_ofNat'] <;> omega
  · split at mem
    · simp only [mem_cons, not_mem_nil, or_false] at mem
      rcases mem with rfl | rfl | rfl <;> simp only [UInt8.toNat_ofNat'] <;> omega
    · simp only [mem_cons, not_mem_nil, or_false] at mem
      rcases mem with rfl | rfl | rfl | rfl <;> simp only [UInt8.toNat_ofNat'] <;> omega

theorem isAscii_iff : isAscii c = true ↔ c.toNat < 128 := decide_eq_true_iff

theorem ofNat_toNat (plain : isAscii c = true) : (UInt8.ofNat c.toNat).toNat = c.toNat := by
  have low := isAscii_iff.mp plain
  rw [UInt8.toNat_ofNat']
  omega

theorem charWith_eq {d : Char} (low : isAscii d = true) (c : Char) : charWith (· == UInt8.ofNat d.toNat) c = (c == d) := by
  rw [Bool.eq_iff_iff]
  unfold charWith
  simp only [Bool.and_eq_true, beq_iff_eq]
  constructor
  · rintro ⟨plain, eq⟩
    rw [← Char.toNat_inj, ← ofNat_toNat plain, eq, ofNat_toNat low]
  · rintro rfl
    exact ⟨low, rfl⟩

theorem charWith_or (p q : UInt8 → Bool) (c : Char) : charWith (fun b => p b || q b) c = (charWith p c || charWith q c) :=
  Bool.and_or_distrib_left ..

section
variable {p : UInt8 → Bool}

section
variable (low : ∀ b, p b = true → b.toNat < 128)
include low

theorem encode_with (c : Char) {b : UInt8} (mem : b ∈ String.utf8EncodeChar c) :
    p b = charWith p c := by
  unfold charWith
  cases plain : isAscii c with
  | true =>
    rw [encode_ascii plain] at mem
    rw [mem_singleton.mp mem, Bool.true_and]
  | false =>
    have high := encode_wide plain b mem
    rw [Bool.false_and, Bool.eq_false_iff]
    exact fun passes => absurd (low b passes) (Nat.not_lt.mpr high)

theorem takeWhile_bytes (s : Text) :
    (bytes s).takeWhile p = bytes (s.takeWhile (charWith p)) := by
  induction s with
  | nil => rfl
  | cons c s ih =>
    rw [bytes_cons]
    cases passes : charWith p c with
    | true =>
      rw [takeWhile_cons_of_pos passes, bytes_cons, ← ih,
        takeWhile_append_of_pos fun b mem => (encode_with low c mem).trans passes]
    | false =>
      rw [takeWhile_cons_of_neg (Bool.eq_false_iff.mp passes)]
      obtain ⟨b, rest, encoded⟩ := exists_cons_of_ne_nil (String.utf8EncodeChar_ne_nil (c := c))
      have fails := (encode_with low c (encoded ▸ mem_cons_self : b ∈ String.utf8EncodeChar c)).trans passes
      rw [encoded, cons_append, takeWhile_cons_of_neg (Bool.eq_false_iff.mp fails)]
      rfl

theorem head_bytes (s : Text) : (bytes s).head?.any p = s.head?.any (charWith p) := by
  cases s with
  | nil => rfl
  | cons c s =>
    rw [bytes_cons]
    obtain ⟨b, rest, encoded⟩ := exists_cons_of_ne_nil (String.utf8EncodeChar_ne_nil (c := c))
    rw [encoded]
    exact encode_with low c (encoded ▸ mem_cons_self)

theorem all_bytes (s : Text) : (bytes s).all p = s.all (charWith p) := by
  induction s with
  | nil => rfl
  | cons c s ih =>
    have one : (String.utf8EncodeChar c).all p = charWith p c := by
      obtain ⟨b, rest, encoded⟩ := exists_cons_of_ne_nil (String.utf8EncodeChar_ne_nil (c := c))
      have eq := fun x mem => encode_with (p := p) low c (b := x) mem
      rw [encoded] at eq ⊢
      rw [Bool.eq_iff_iff, all_eq_true]
      exact ⟨fun passes => (eq b mem_cons_self).symm.trans (passes b mem_cons_self),
        fun passes x mem => (eq x mem).trans passes⟩
    rw [bytes_cons, all_append, one, ih, all_cons]

theorem last_bytes (s : Text) :
    (bytes s).getLast?.any p = s.getLast?.any (charWith p) := by
  induction s using List.reverseRecOn with
  | nil => rfl
  | append_singleton s c ih =>
    have encoded := dropLast_concat_getLast (String.utf8EncodeChar_ne_nil (c := c))
    rw [bytes_append, show bytes [c] = String.utf8EncodeChar c from append_nil _, ← encoded, ← append_assoc,
      List.getLast?_concat, List.getLast?_concat]
    exact encode_with low c (getLast_mem _)

end

end

/-- A place in a text, with what stands from it on. -/
structure Cursor where
  offset : Nat
  rest : Text

namespace Cursor

def byte (c : Cursor) : Option UInt8 := (bytes c.rest).head?

/-- The next bytes, and the place behind them. -/
def take (n : Nat) (c : Cursor) : Option (Text × Cursor) := (cutAt n c.rest).map fun cut => (cut.1, ⟨c.offset + n, cut.2⟩)

/-- The bytes that pass a test, and the place behind them. -/
def takeWhile (p : UInt8 → Bool) (c : Cursor) : Option (Text × Cursor) := c.take ((bytes c.rest).takeWhile p).length

def upTo (q : Char) (c : Cursor) : Option (Option (Text × Cursor)) :=
  match byteFind (· == q) c.rest with
  | none => some none
  | some n => (c.take n).map some

theorem take_append (a b : Text) (n : Nat) : (Cursor.mk n (a ++ b)).take (byteLen a) = some (a, ⟨n + byteLen a, b⟩) := by
  unfold take
  rw [cutAt_append]
  rfl

variable {c : Cursor}

theorem take_prefix {a b : Text} (front : c.rest = a ++ b) :
    c.take (byteLen a) = some (a, ⟨c.offset + byteLen a, b⟩) := by
  obtain ⟨n, s⟩ := c
  cases front
  exact take_append a b n

variable {p : UInt8 → Bool}

theorem takeWhile_eq (low : ∀ b, p b = true → b.toNat < 128) (n : Nat) (s : Text) : (Cursor.mk n s).takeWhile p =
    some (s.takeWhile (charWith p), ⟨n + byteLen (s.takeWhile (charWith p)), s.dropWhile (charWith p)⟩) := by
  unfold takeWhile
  rw [takeWhile_bytes low, bytes_length]
  have parts := take_append (s.takeWhile (charWith p)) (s.dropWhile (charWith p)) n
  rwa [takeWhile_append_dropWhile] at parts

theorem takeWhile_cases (low : ∀ b, p b = true → b.toNat < 128) (c : Cursor) : ∃ a b, c.rest = a ++ b ∧
    (∀ x ∈ a, charWith p x = true) ∧ b.head?.any (charWith p) = false ∧ c.takeWhile p = some (a, ⟨c.offset + byteLen a, b⟩) := by
  obtain ⟨n, s⟩ := c
  refine ⟨_, _, takeWhile_append_dropWhile.symm, fun x mem => (all_eq_true.mp all_takeWhile) x mem, ?_, takeWhile_eq low n s⟩
  cases left : s.dropWhile (charWith p) with
  | nil => rfl
  | cons x rest =>
    have stops := List.head?_dropWhile_not (charWith p) s
    rw [left] at stops
    simpa using stops

theorem byte_any (low : ∀ b, p b = true → b.toNat < 128) (passes : c.byte.any p = true) :
    ∃ x rest, c.rest = x :: rest ∧ charWith p x = true ∧ c.take 1 = some ([x], ⟨c.offset + 1, rest⟩) := by
  obtain ⟨n, s⟩ := c
  unfold byte at passes
  rw [head_bytes low] at passes
  cases s with
  | nil => cases passes
  | cons x rest =>
    have one : x.utf8Size = 1 := by
      rw [← String.length_utf8EncodeChar, encode_ascii (Bool.and_eq_true_iff.mp passes).1, length_singleton]
    have cut := take_append [x] rest n
    rw [byteLen_cons, byteLen_nil, Nat.add_zero, one] at cut
    exact ⟨x, rest, rfl, passes, cut⟩

theorem byte_eq {d : Char} (plain : isAscii d = true) (eq : c.byte = some (UInt8.ofNat d.toNat)) :
    ∃ rest, c.rest = d :: rest ∧ c.take 1 = some ([d], ⟨c.offset + 1, rest⟩) := by
  have low : ∀ b, (b == UInt8.ofNat d.toNat) = true → b.toNat < 128 := fun b match_ => by
    rw [eq_of_beq match_, ofNat_toNat plain]
    exact isAscii_iff.mp plain
  obtain ⟨x, rest, whole, passes, cut⟩ := byte_any low (c := c) (by rw [eq]; exact beq_self_eq_true _)
  rw [charWith_eq plain] at passes
  cases eq_of_beq passes
  exact ⟨rest, whole, cut⟩

theorem upTo_cases (q : Char) (c : Cursor) : (q ∉ c.rest ∧ c.upTo q = some none) ∨
    ∃ a b, c.rest = a ++ q :: b ∧ q ∉ a ∧ c.upTo q = some (some (a, ⟨c.offset + byteLen a, q :: b⟩)) := by
  obtain ⟨n, rest⟩ := c
  unfold upTo
  cases found : byteFind (· == q) rest with
  | none => exact .inl ⟨fun mem => absurd (byteFind_eq_none.mp found q mem) (by simp), rfl⟩
  | some k =>
    obtain ⟨a, c, b, rfl, eq, free, rfl⟩ := byteFind_eq_some found
    cases eq_of_beq eq
    refine .inr ⟨a, b, rfl, fun mem => absurd (free q mem) (by simp), ?_⟩
    simp only [take_append, Option.map_some]

end Cursor

end PlxNative.Text
