import Mathlib.Algebra.Ring.Nat
import Mathlib.Data.List.Basic
import Mathlib.Data.Nat.NthRoot.Defs

/-! SHA-256 as FIPS 180-4 has it: the constants are roots of primes, the message schedule is a
recurrence, and the padded message is compressed block by block. -/
namespace Blocks
variable {α : Type}

def first (n : Nat) : Nat → List α → List (List α)
  | 0, _ => []
  | k + 1, items => items.take n :: first n k (items.drop n)

def whole (n : Nat) (items : List α) : List (List α) := first n (items.length / n) items

def rest (n : Nat) (items : List α) : List α := items.drop (n * (items.length / n))

section
variable {n : Nat} {items more : List α}

theorem whole_short (short : items.length < n) : whole n items = [] := by
  rw [whole, Nat.div_eq_of_lt short]
  rfl

theorem rest_short (short : items.length < n) : rest n items = items := by
  rw [rest, Nat.div_eq_of_lt short]
  rfl

theorem quotient_step (positive : 0 < n) (long : n ≤ items.length) : items.length / n = (items.drop n).length / n + 1 := by
  rw [List.length_drop, ← Nat.div_eq_sub_div positive long]

theorem whole_step (positive : 0 < n) (long : n ≤ items.length) : whole n items = items.take n :: whole n (items.drop n) := by
  rw [whole, quotient_step positive long]
  rfl

theorem rest_step (positive : 0 < n) (long : n ≤ items.length) : rest n items = rest n (items.drop n) := by
  rw [rest, rest, quotient_step positive long, List.drop_drop, Nat.mul_succ, Nat.add_comm]

theorem rest_length (n : Nat) (items : List α) : (rest n items).length = items.length % n := by
  rw [rest, List.length_drop]
  have whole := Nat.div_add_mod items.length n
  omega

/-- Short lists first, then lists from what a block leaves of them. -/
theorem by_blocks {P : List α → Prop} (positive : 0 < n) (short : ∀ items, items.length < n → P items)
    (long : ∀ items, n ≤ items.length → P (items.drop n) → P items) (items : List α) : P items := by
  induction size : items.length using Nat.strongRecOn generalizing items with
  | ind k ih =>
    rcases Nat.lt_or_ge items.length n with few | many
    · exact short items few
    · exact long items many (ih _ (by rw [List.length_drop]; omega) _ rfl)

theorem whole_append (positive : 0 < n) (items more : List α) :
    whole n (items ++ more) = whole n items ++ whole n (rest n items ++ more) := by
  induction items using by_blocks positive with
  | short items short => rw [whole_short short, rest_short short, List.nil_append]
  | long items long ih =>
    have longer : n ≤ (items ++ more).length := by
      rw [List.length_append]
      exact Nat.le_add_right_of_le long
    rw [whole_step positive longer, whole_step positive long, rest_step positive long, List.take_append_of_le_length long,
      List.drop_append_of_le_length long, ih, List.cons_append]

theorem rest_append (positive : 0 < n) (items more : List α) : rest n (items ++ more) = rest n (rest n items ++ more) := by
  induction items using by_blocks positive with
  | short items short => rw [rest_short short]
  | long items long ih =>
    have longer : n ≤ (items ++ more).length := by
      rw [List.length_append]
      exact Nat.le_add_right_of_le long
    rw [rest_step positive longer, rest_step positive long, List.drop_append_of_le_length long, ih]

theorem whole_flatten (positive : 0 < n) (items : List α) : (whole n items).flatten ++ rest n items = items := by
  induction items using by_blocks positive with
  | short items short => rw [whole_short short, rest_short short, List.flatten_nil, List.nil_append]
  | long items long ih =>
    rw [whole_step positive long, rest_step positive long, List.flatten_cons, List.append_assoc, ih, List.take_append_drop]

theorem mem_whole_length {block : List α} (mem : block ∈ whole n items) (positive : 0 < n) : block.length = n := by
  induction items using by_blocks positive with
  | short items short =>
    rw [whole_short short] at mem
    cases mem
  | long items long ih =>
    rw [whole_step positive long] at mem
    rcases List.mem_cons.mp mem with rfl | later
    · rw [List.length_take, Nat.min_eq_left long]
    · exact ih later

end
section
variable {n : Nat}

/-- The blocks, the last of them as short as what is left over. -/
def chunks (n : Nat) (items : List α) : List (List α) :=
  if (rest n items).isEmpty then whole n items else whole n items ++ [rest n items]

theorem chunks_flatten (positive : 0 < n) (items : List α) : (chunks n items).flatten = items := by
  have cut := whole_flatten positive items
  unfold chunks
  split
  · rename_i empty
    rw [List.isEmpty_iff.mp empty, List.append_nil] at cut
    exact cut
  · rw [List.flatten_append, List.flatten_singleton]
    exact cut

theorem mem_chunks_length (positive : 0 < n) {items block : List α} (mem : block ∈ chunks n items) : block.length ≤ n := by
  have left : (rest n items).length ≤ n := by
    rw [rest_length]
    exact Nat.le_of_lt (Nat.mod_lt _ positive)
  unfold chunks at mem
  split at mem
  · exact Nat.le_of_eq (mem_whole_length mem positive)
  · rcases List.mem_append.mp mem with mem | mem
    · exact Nat.le_of_eq (mem_whole_length mem positive)
    · rw [List.mem_singleton.mp mem]
      exact left

end
end Blocks

namespace Fips180

def rotr (n : UInt32) (x : UInt32) : UInt32 := (x >>> n) ||| (x <<< (32 - n))

def ch (x y z : UInt32) : UInt32 := (x &&& y) ^^^ (~~~x &&& z)

def maj (x y z : UInt32) : UInt32 := (x &&& y) ^^^ (x &&& z) ^^^ (y &&& z)

def bigSigma0 (x : UInt32) : UInt32 := rotr 2 x ^^^ rotr 13 x ^^^ rotr 22 x

def bigSigma1 (x : UInt32) : UInt32 := rotr 6 x ^^^ rotr 11 x ^^^ rotr 25 x

def smallSigma0 (x : UInt32) : UInt32 := rotr 7 x ^^^ rotr 18 x ^^^ (x >>> 3)

def smallSigma1 (x : UInt32) : UInt32 := rotr 17 x ^^^ rotr 19 x ^^^ (x >>> 10)

def primes : List Nat :=
  [2, 3, 5, 7, 11, 13, 17, 19, 23, 29, 31, 37, 41, 43, 47, 53, 59, 61, 67, 71, 73, 79, 83, 89, 97, 101, 103, 107, 109, 113,
    127, 131, 137, 139, 149, 151, 157, 163, 167, 173, 179, 181, 191, 193, 197, 199, 211, 223, 227, 229, 233, 239, 241, 251,
    257, 263, 269, 271, 277, 281, 283, 293, 307, 311]

/-- The first bits of the fractional parts of the cube roots of the first sixty-four primes. -/
def constants : List UInt32 := primes.map (fun p => UInt32.ofNat (Nat.nthRoot 3 (p * 2 ^ 96)))

structure Registers where
  a : UInt32
  b : UInt32
  c : UInt32
  d : UInt32
  e : UInt32
  f : UInt32
  g : UInt32
  h : UInt32
  deriving DecidableEq

def Registers.add (one two : Registers) : Registers :=
  ⟨one.a + two.a, one.b + two.b, one.c + two.c, one.d + two.d, one.e + two.e, one.f + two.f, one.g + two.g, one.h + two.h⟩

def Registers.words (r : Registers) : List UInt32 := [r.a, r.b, r.c, r.d, r.e, r.f, r.g, r.h]

/-- The first bits of the fractional parts of the square roots of the first eight primes. -/
def initial : Registers :=
  let root := fun p => UInt32.ofNat (Nat.nthRoot 2 (p * 2 ^ 64))
  ⟨root 2, root 3, root 5, root 7, root 11, root 13, root 17, root 19⟩

def beWord (b0 b1 b2 b3 : UInt8) : UInt32 :=
  (b0.toUInt32 <<< 24) ||| (b1.toUInt32 <<< 16) ||| (b2.toUInt32 <<< 8) ||| b3.toUInt32

def beBytes (w : UInt32) : List UInt8 := [(w >>> 24).toUInt8, (w >>> 16).toUInt8, (w >>> 8).toUInt8, w.toUInt8]

/-- The words of a block, of four bytes each. -/
def wordAt (block : List UInt8) (i : Nat) : UInt32 :=
  beWord (block.getD (4 * i) 0) (block.getD (4 * i + 1) 0) (block.getD (4 * i + 2) 0) (block.getD (4 * i + 3) 0)

def schedule (block : List UInt8) (t : Nat) : UInt32 :=
  if t < 16 then wordAt block t
  else smallSigma1 (schedule block (t - 2)) + schedule block (t - 7) + smallSigma0 (schedule block (t - 15)) +
    schedule block (t - 16)
termination_by t
decreasing_by all_goals omega

def round (k w : UInt32) (r : Registers) : Registers :=
  let t1 := r.h + bigSigma1 r.e + ch r.e r.f r.g + k + w
  let t2 := bigSigma0 r.a + maj r.a r.b r.c
  ⟨t1 + t2, r.a, r.b, r.c, r.d + t1, r.e, r.f, r.g⟩

def compress (hash : Registers) (block : List UInt8) : Registers :=
  hash.add ((List.range 64).foldl (fun r t => round (constants.getD t 0) (schedule block t) r) hash)

/-- How many zeros bring a message and its mark to eight bytes short of a block. -/
def zeros (length : Nat) : Nat := (119 - length % 64) % 64

/-- The last eight bytes hold the message's length in bits. -/
def lengthBytes (length : Nat) : List UInt8 := (List.range 8).map (fun i => UInt8.ofNat (8 * length / 256 ^ (7 - i)))

def pad (message : List UInt8) : List UInt8 :=
  message ++ [0x80] ++ List.replicate (zeros message.length) 0 ++ lengthBytes message.length

def absorbed (message : List UInt8) : Registers := (Blocks.whole 64 message).foldl compress initial

def hash (message : List UInt8) : List UInt8 := (absorbed (pad message)).words.flatMap beBytes

end Fips180
