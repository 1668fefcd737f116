import PlxNative.Lib.Text
import PlxNative.Lib.Words

/-! Numbers written in decimal and bytes in hexadecimal, and read back. -/
namespace PlxNative.Hex

def digit (n : Nat) : Char := if n < 10 then Char.ofNat (48 + n) else Char.ofNat (87 + n)

def value? (c : Char) : Option Nat :=
  if '0' ≤ c ∧ c ≤ '9' then some (c.toNat - 48)
  else if 'a' ≤ c ∧ c ≤ 'f' then some (c.toNat - 87)
  else none

def ofBytes : List UInt8 → List Char
  | [] => []
  | b :: rest => digit (b.toNat / 16) :: digit (b.toNat % 16) :: ofBytes rest

def bytes? : List Char → Option (List UInt8)
  | [] => some []
  | [_] => none
  | high :: low :: rest => do
      let h ← value? high
      let l ← value? low
      let bytes ← bytes? rest
      return UInt8.ofNat (16 * h + l) :: bytes

theorem value?_digit : ∀ n < 16, value? (digit n) = some n := by decide

@[simp] theorem bytes?_ofBytes (bytes : List UInt8) : bytes? (ofBytes bytes) = some bytes := by
  induction bytes with
  | nil => rfl
  | cons b rest ih =>
    have high : b.toNat / 16 < 16 := Nat.div_lt_of_lt_mul b.toNat_lt
    have low : b.toNat % 16 < 16 := Nat.mod_lt _ (by decide)
    have whole : UInt8.ofNat (16 * (b.toNat / 16) + b.toNat % 16) = b := by
      rw [Nat.div_add_mod, UInt8.ofNat_toNat]
    simp only [ofBytes, bytes?, value?_digit _ high, value?_digit _ low, ih, Option.bind_eq_bind, Option.bind_some,
      whole]
    rfl

theorem ofBytes_injective : Function.Injective ofBytes := by
  intro a b eq
  have read := congrArg bytes? eq
  rw [bytes?_ofBytes, bytes?_ofBytes] at read
  exact Option.some.inj read

@[simp] theorem length_ofBytes (bytes : List UInt8) : (ofBytes bytes).length = 2 * bytes.length := by
  induction bytes with
  | nil => rfl
  | cons b rest ih =>
    simp only [ofBytes, List.length_cons]
    omega

end PlxNative.Hex

namespace PlxNative.Decimal
open Usize (size parseDigits parse parseI64 digit?)

def written (n : Nat) : Text := Nat.toDigits 10 n

/-- At least this many digits, with zeros in front. -/
def padded (places n : Nat) : Text := List.replicate (places - (written n).length) '0' ++ written n

def value (digits : Text) : Nat := Nat.ofDigitChars 10 digits 0

def Digits (s : Text) : Prop := ∀ c ∈ s, c.isDigit = true

section
variable {n places : Nat}

theorem written_digits (n : Nat) : Digits (written n) := fun _ mem => Nat.isDigit_of_mem_toDigits (by decide) (by decide) mem

theorem written_ne_nil (n : Nat) : written n ≠ [] := Nat.toDigits_ne_nil

theorem value_written (n : Nat) : value (written n) = n := Nat.ofDigitChars_ten_toDigits

theorem padded_digits (places n : Nat) : Digits (padded places n) := by
  intro c mem
  rcases List.mem_append.mp mem with zero | digit
  · rw [(List.mem_replicate.mp zero).2]
    rfl
  · exact written_digits n c digit

theorem padded_ne_nil (places n : Nat) : padded places n ≠ [] := List.append_ne_nil_of_right_ne_nil _ (written_ne_nil n)

theorem value_padded (places n : Nat) : value (padded places n) = n := by
  unfold value padded
  rw [Nat.ofDigitChars_append, Nat.ofDigitChars_replicate_zero, Nat.mul_zero]
  exact value_written n

theorem padded_length (positive : 0 < places) (small : n < 10 ^ places) : (padded places n).length = places := by
  have short : (written n).length ≤ places := (Nat.length_toDigits_le_iff (by decide) positive).mpr small
  rw [padded, List.length_append, List.length_replicate]
  omega

theorem value_lt {s : Text} (digits : Digits s) : value s < 10 ^ s.length := by
  induction s with
  | nil => exact Nat.zero_lt_one
  | cons c rest ih =>
    have later := ih (fun d mem => digits d (List.mem_cons_of_mem _ mem))
    have digit := digits c List.mem_cons_self
    unfold Char.isDigit at digit
    rw [Bool.and_eq_true] at digit
    have high : c.toNat ≤ 57 := of_decide_eq_true digit.2
    have zero : '0'.toNat = 48 := rfl
    have scaled : 10 ^ rest.length * (10 * 0 + (c.toNat - '0'.toNat)) ≤ 10 ^ rest.length * 9 := Nat.mul_le_mul_left _ (by omega)
    unfold value at later ⊢
    rw [Nat.ofDigitChars_cons, Nat.ofDigitChars_eq_ofDigitChars_zero, List.length_cons, Nat.pow_succ]
    omega

end
section
variable {s : Text} {n m limit : Nat}

theorem digit_bounds {c : Char} (digit : c.isDigit = true) : '0' ≤ c ∧ c ≤ '9' := by
  unfold Char.isDigit at digit
  rw [Bool.and_eq_true] at digit
  exact ⟨of_decide_eq_true digit.1, of_decide_eq_true digit.2⟩

theorem digit?_eq {c : Char} (digit : c.isDigit = true) : digit? c = some (c.toNat - '0'.toNat) := if_pos (digit_bounds digit)

theorem parseDigits_eq (digits : Digits s) (fits : Nat.ofDigitChars 10 s n < size) : parseDigits s n = some (Nat.ofDigitChars 10 s n) := by
  induction s generalizing n with
  | nil => rfl
  | cons c rest ih =>
    rw [Nat.ofDigitChars_cons] at fits ⊢
    have here := digit?_eq (digits c List.mem_cons_self)
    have within : n * 10 + (c.toNat - '0'.toNat) < size := by
      have scaled : 10 * n + (c.toNat - '0'.toNat) ≤ 10 ^ rest.length * (10 * n + (c.toNat - '0'.toNat)) :=
        Nat.le_mul_of_pos_left _ (Nat.pow_pos (show 0 < 10 by decide))
      rw [Nat.ofDigitChars_eq_ofDigitChars_zero] at fits
      omega
    unfold parseDigits
    rw [here, Option.bind_eq_bind, Option.bind_some, if_pos within, Nat.mul_comm n 10]
    exact ih (fun d mem => digits d (List.mem_cons_of_mem _ mem)) fits

theorem parseDigits_eq_some (read : parseDigits s n = some m) : m = Nat.ofDigitChars 10 s n := by
  induction s generalizing n with
  | nil =>
    injection read with read
    exact read.symm
  | cons c rest ih =>
    unfold parseDigits at read
    obtain ⟨d, digit, read⟩ := Option.bind_eq_some_iff.mp read
    split at read
    · rw [Nat.ofDigitChars_cons, ih read, Nat.mul_comm 10 n]
      unfold digit? at digit
      split at digit
      · injection digit with digit
        rw [digit]
      · cases digit
    · cases read

theorem Digits.head_ne {c : Char} (digits : Digits s) (other : c.isDigit = false) : s.head? ≠ some c := by
  intro head
  have digit := digits c (List.mem_of_mem_head? head)
  rw [other] at digit
  cases digit

theorem parse_digits (digits : Digits s) (some_ : s ≠ []) : parse limit s = (parseDigits s 0).filter (· < limit) := by
  have unsigned := digits.head_ne (show '+'.isDigit = false by decide)
  unfold parse
  split
  · exact absurd rfl unsigned
  · rw [if_neg (fun empty => some_ (List.isEmpty_iff.mp empty))]

theorem parse_eq (digits : Digits s) (some_ : s ≠ []) (within : limit ≤ size) (small : value s < limit) : parse limit s = some (value s) := by
  rw [parse_digits digits some_, parseDigits_eq digits (Nat.lt_of_lt_of_le small within)]
  simp only [Option.filter, decide_eq_true_eq]
  exact if_pos small

theorem parse_eq_some (digits : Digits s) (some_ : s ≠ []) (read : parse limit s = some n) : n = value s ∧ n < limit := by
  rw [parse_digits digits some_] at read
  obtain ⟨found, below⟩ := Option.filter_eq_some_iff.mp read
  exact ⟨parseDigits_eq_some found, of_decide_eq_true below⟩

theorem parse_lt (read : parse limit s = some n) : n < limit := by
  unfold parse at read
  split at read
  all_goals
    simp only at read
    split at read
    · cases read
    · exact of_decide_eq_true (Option.filter_eq_some_iff.mp read).2

theorem parseI64_digits (digits : Digits s) : parseI64 s = (parse Usize.half s).map Int.ofNat := by
  have unsigned := digits.head_ne (show '-'.isDigit = false by decide)
  unfold parseI64
  split
  · exact absurd rfl unsigned
  · rfl

end
end PlxNative.Decimal
