import Mathlib.Algebra.Order.Ring.Int

/-! Machine words of 64 bits, unsigned as natural numbers and signed as integers, with the
arithmetic that can leave the word. -/
namespace PlxNative.Usize

def size : Nat := 18446744073709551616

def half : Nat := 9223372036854775808

def add? (a b : Nat) : Option Nat := if a + b < size then some (a + b) else none

def sub? (a b : Nat) : Option Nat := if b ≤ a then some (a - b) else none

def mul? (a b : Nat) : Option Nat := if a * b < size then some (a * b) else none

def div? (a b : Nat) : Option Nat := if b = 0 then none else some (a / b)

def toSigned (n : Nat) : Int := if n < half then n else (n : Int) - size

/-- The difference of two words, as signed ones. -/
def diff? (a b : Nat) : Option Int :=
  let d := toSigned a - toSigned b
  if -(half : Int) ≤ d ∧ d < half then some d else none

def addSigned? (n : Nat) (by_ : Int) : Option Nat :=
  if 0 ≤ n + by_ ∧ n + by_ < size then some (n + by_).toNat else none

def digit? (c : Char) : Option Nat :=
  if '0' ≤ c ∧ c ≤ '9' then some (c.toNat - '0'.toNat) else none

def parseDigits : List Char → Nat → Option Nat
  | [], n => some n
  | c :: rest, n => do
      let d ← digit? c
      if n * 10 + d < size then parseDigits rest (n * 10 + d) else none

/-- A sign is accepted, and no digits at all are not. -/
def parseU64 (s : String) : Option Nat :=
  let digits := match s.toList with
    | '+' :: rest => rest
    | all => all
  if digits.isEmpty then none else parseDigits digits 0

/-- An unsigned word under a limit, from its text. -/
def parse (limit : Nat) (s : List Char) : Option Nat :=
  let digits := match s with
    | '+' :: rest => rest
    | all => all
  if digits.isEmpty then none else (parseDigits digits 0).filter (· < limit)

def parseI64 : List Char → Option Int
  | '-' :: digits =>
    if digits.isEmpty then none else ((parseDigits digits 0).filter (· ≤ half)).map (fun n => -(n : Int))
  | s => (parse half s).map Int.ofNat

theorem mul?_eq {a b : Nat} (fits : a * b < size) : mul? a b = some (a * b) := if_pos fits

theorem div?_eq {a b : Nat} (positive : 0 < b) : div? a b = some (a / b) := if_neg (Nat.ne_of_gt positive)

theorem add?_eq {a b : Nat} (fits : a + b < size) : add? a b = some (a + b) := if_pos fits

theorem add?_eq_some {a b c : Nat} (sum : add? a b = some c) : c = a + b := by
  unfold add? at sum
  split at sum <;> cases sum
  rfl

theorem sub?_eq {a b : Nat} (le : b ≤ a) : sub? a b = some (a - b) := if_pos le

theorem toSigned_eq {n : Nat} (small : n < half) : toSigned n = n := if_pos small

theorem diff?_eq {a b : Nat} (ha : a < half) (hb : b < half) : diff? a b = some ((a : Int) - b) := by
  unfold diff?
  rw [toSigned_eq ha, toSigned_eq hb]
  refine if_pos ?_
  unfold half at *
  omega

theorem addSigned?_eq_some {n m : Nat} {by_ : Int} (moved : addSigned? n by_ = some m) : (m : Int) = n + by_ := by
  unfold addSigned? at moved
  split at moved
  · cases moved
    omega
  · cases moved

theorem addSigned?_eq {n : Nat} {by_ : Int} (low : 0 ≤ n + by_) (high : n + by_ < size) :
    addSigned? n by_ = some (n + by_).toNat := if_pos ⟨low, high⟩

end PlxNative.Usize

namespace PlxNative.I64

def largest : Int := 9223372036854775807

def least : Int := -9223372036854775808

def checked (n : Int) : Option Int := if least ≤ n ∧ n ≤ largest then some n else none

def saturated (n : Int) : Int := max least (min n largest)

def wrapped (n : Int) : Int := (n - least) % 18446744073709551616 + least

theorem checked_eq {n : Int} (low : least ≤ n) (high : n ≤ largest) : checked n = some n := if_pos ⟨low, high⟩

theorem checked_eq_none {n : Int} (high : largest < n) : checked n = none := if_neg fun fits => by omega

theorem saturated_le_self {n : Int} (positive : 0 < saturated n) : saturated n ≤ n := by
  unfold saturated least at *
  omega

theorem saturated_mono {n m : Int} (le : n ≤ m) : saturated n ≤ saturated m := by
  unfold saturated
  omega

end PlxNative.I64
