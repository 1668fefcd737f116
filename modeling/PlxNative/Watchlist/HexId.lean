import Mathlib.Data.Vector.Defs
import PlxNative.Lib.Digits

/-! The id of a catalog title: twelve bytes, and the text of twenty-four digits the service names
it by. The digits are read in pairs, each by a reader of whole numbers. -/
namespace PlxNative.Watchlist
open Hex
open List hiding Vector
open Text (byteLen isAscii isAsciiHexdigit)

abbrev HexId := Vector UInt8 12

def toDigit (c : Char) : Option Nat :=
  if '0' ≤ c ∧ c ≤ '9' then some (c.toNat - 48)
  else if 'a' ≤ c ∧ c ≤ 'f' then some (c.toNat - 87)
  else if 'A' ≤ c ∧ c ≤ 'F' then some (c.toNat - 55)
  else none

def readDigits (value : Nat) : Text → Option Nat
  | [] => some value
  | c :: rest => (toDigit c).bind (fun d => if 16 * value + d < 256 then readDigits (16 * value + d) rest else none)

/-- A byte written in the radix 16. A sign `+` may stand before its digits. -/
def fromStrRadix : Text → Option UInt8
  | [] => none
  | ['+'] => none
  | ['-'] => none
  | '+' :: digits => (readDigits 0 digits).map UInt8.ofNat
  | digits => (readDigits 0 digits).map UInt8.ofNat

def pairAt (hex : Text) (i : Nat) : Text := (hex.drop (2 * i)).take 2

def decodeHex (hex : Text) : Option HexId :=
  if byteLen hex ≠ 24 ∨ hex.all isAscii = false then none
  else (Vector.range 12).mapM (fun i => fromStrRadix (pairAt hex i))

def encodeHex (hex : HexId) : Text := ofBytes hex.toList

def Digits (hex : Text) : Prop := hex.length = 24 ∧ ∀ c ∈ hex, isAsciiHexdigit c = true

/-- Twelve pairs of a digit after a digit or a sign, with a sign in one of them. -/
def Signed (hex : Text) : Prop :=
  hex.length = 24 ∧ '+' ∈ hex ∧ ∀ i < 12, ∃ high low, pairAt hex i = [high, low] ∧
    (high = '+' ∨ isAsciiHexdigit high = true) ∧ isAsciiHexdigit low = true

/-- The text is read when it is the digits of an id, and then it is what the id is written as. -/
def ReadsExactly (hex : Text) : Prop :=
  ((decodeHex hex).isSome = true ↔ Digits hex) ∧ ∀ id, decodeHex hex = some id → encodeHex id = hex.map Char.toLower

section

theorem ofNat_digit : ∀ n < 128, (isAsciiHexdigit (Char.ofNat n) = (toDigit (Char.ofNat n)).isSome ∧
    (toDigit (Char.ofNat n)).all (fun d => d < 16 && Hex.digit d == (Char.ofNat n).toLower)) := by decide +kernel

variable {c : Char}

theorem ascii_of_digit (digit : isAsciiHexdigit c = true) : c.toNat < 128 := by
  simp only [isAsciiHexdigit, Char.isDigit, Char.le_def,
    UInt32.le_iff_toNat_le] at digit
  simp at digit
  omega

theorem ascii_of_toDigit {d : Nat} (read : toDigit c = some d) : c.toNat < 128 := by
  have is : c.toNat = c.val.toNat := rfl
  unfold toDigit at read
  split at read
  · rename_i range
    have high : c.val.toNat ≤ 57 := UInt32.le_iff_toNat_le.mp range.2
    omega
  · split at read
    · rename_i range
      have high : c.val.toNat ≤ 102 := UInt32.le_iff_toNat_le.mp range.2
      omega
    · split at read
      · rename_i range
        have high : c.val.toNat ≤ 70 := UInt32.le_iff_toNat_le.mp range.2
        omega
      · cases read

theorem digit_value (digit : isAsciiHexdigit c = true) : ∃ d < 16, toDigit c = some d ∧ Hex.digit d = c.toLower := by
  have table := ofNat_digit c.toNat (ascii_of_digit digit)
  rw [Char.ofNat_toNat, digit] at table
  obtain ⟨d, read⟩ := Option.isSome_iff_exists.mp table.1.symm
  have values := table.2
  rw [read, Option.all_some, Bool.and_eq_true, decide_eq_true_eq, beq_iff_eq] at values
  exact ⟨d, values.1, read, values.2⟩

theorem digit_of_value {d : Nat} (read : toDigit c = some d) : isAsciiHexdigit c = true := by
  have table := ofNat_digit c.toNat (ascii_of_toDigit read)
  rw [Char.ofNat_toNat, read] at table
  exact table.1

end
section
variable {high low : Char}

theorem readDigits_one {d : Nat} (read : toDigit low = some d) (small : d < 16) : readDigits 0 [low] = some d := by
  have fits : d < 256 := by omega
  simp [readDigits, read, fits]

theorem readDigits_two {h l : Nat} (first : toDigit high = some h) (second : toDigit low = some l) (one : h < 16) (two : l < 16) :
    readDigits 0 [high, low] = some (16 * h + l) := by
  have fits : h < 256 := by omega
  have whole : 16 * h + l < 256 := by omega
  simp [readDigits, first, second, fits, whole]

theorem readDigits_digit {value n : Nat} {rest : Text} (read : readDigits value (low :: rest) = some n) :
    isAsciiHexdigit low = true ∧ ∃ value', readDigits value' rest = some n := by
  obtain ⟨d, digit, more⟩ := Option.bind_eq_some_iff.mp read
  refine ⟨digit_of_value digit, 16 * value + d, ?_⟩
  split at more
  · exact more
  · cases more

theorem fromStrRadix_pair (plain : high ≠ '+') : fromStrRadix [high, low] = (readDigits 0 [high, low]).map UInt8.ofNat := by
  unfold fromStrRadix
  split <;> simp_all

theorem fromStrRadix_signed : fromStrRadix ['+', low] = (readDigits 0 [low]).map UInt8.ofNat := rfl

def Readable (high low : Char) : Prop := (high = '+' ∨ isAsciiHexdigit high = true) ∧ isAsciiHexdigit low = true

theorem pair_read : (fromStrRadix [high, low]).isSome = true ↔ Readable high low := by
  constructor
  · intro read
    by_cases sign : high = '+'
    · subst sign
      rw [fromStrRadix_signed, Option.isSome_map] at read
      obtain ⟨n, read⟩ := Option.isSome_iff_exists.mp read
      exact ⟨.inl rfl, (readDigits_digit read).1⟩
    · rw [fromStrRadix_pair sign, Option.isSome_map] at read
      obtain ⟨n, read⟩ := Option.isSome_iff_exists.mp read
      obtain ⟨first, value, rest⟩ := readDigits_digit read
      exact ⟨.inr first, (readDigits_digit rest).1⟩
  · rintro ⟨first, second⟩
    obtain ⟨l, small, low_, -⟩ := digit_value second
    by_cases sign : high = '+'
    · subst sign
      rw [fromStrRadix_signed, readDigits_one low_ small]
      rfl
    · obtain ⟨h, smaller, high_, -⟩ := digit_value (first.resolve_left sign)
      rw [fromStrRadix_pair sign, readDigits_two high_ low_ smaller small]
      rfl

theorem pair_written {b : UInt8} (first : isAsciiHexdigit high = true) (second : isAsciiHexdigit low = true)
    (read : fromStrRadix [high, low] = some b) : ofBytes [b] = [high.toLower, low.toLower] := by
  obtain ⟨l, small, low_, lowIs⟩ := digit_value second
  obtain ⟨h, smaller, high_, highIs⟩ := digit_value first
  have plain : high ≠ '+' := by
    rintro rfl
    exact absurd first (by decide)
  rw [fromStrRadix_pair plain, readDigits_two high_ low_ smaller small] at read
  obtain rfl := Option.some.inj read
  have value : (UInt8.ofNat (16 * h + l)).toNat = 16 * h + l := UInt8.toNat_ofNat_of_lt' (by simp [UInt8.size]; omega)
  have upper : (16 * h + l) / 16 = h := by omega
  have lower : (16 * h + l) % 16 = l := by omega
  rw [ofBytes, ofBytes, value, upper, lower, highIs, lowIs]

end
section

theorem mapM_isSome {α β : Type} (f : α → Option β) (items : List α) :
    (items.mapM f).isSome = true ↔ ∀ a ∈ items, (f a).isSome = true := by
  induction items with
  | nil => simp
  | cons a rest ih =>
    rw [mapM_cons, forall_mem_cons, ← ih]
    cases f a <;> cases rest.mapM f <;> simp

theorem pairs_written (n : Nat) (hex : Text) (length : hex.length = 2 * n) (digits : ∀ c ∈ hex, isAsciiHexdigit c = true)
    (bytes : List UInt8) (read : (List.range n).mapM (fun i => fromStrRadix (pairAt hex i)) = some bytes) :
    ofBytes bytes = hex.map Char.toLower := by
  induction n generalizing hex bytes with
  | zero =>
    obtain rfl := length_eq_zero_iff.mp length
    cases read
    rfl
  | succ n ih =>
    match hex, length with
    | high :: low :: rest, length =>
      obtain ⟨first, second, others⟩ : _ ∧ _ ∧ _ := by
        simpa only [forall_mem_cons] using digits
      rw [range_succ_eq_map, mapM_cons, mapM_map] at read
      simp only [Option.bind_eq_bind, Option.bind_eq_some_iff] at read
      obtain ⟨b, one, more, later, whole⟩ := read
      obtain rfl := Option.some.inj whole
      have written := ih rest (by simpa [Nat.mul_succ] using length) others more later
      have pair := pair_written first second (b := b) one
      rw [map_cons, map_cons, ← written]
      have split : ofBytes (b :: more) = ofBytes [b] ++ ofBytes more := rfl
      rw [split, pair]
      rfl

theorem mapM_list (f : Nat → Option UInt8) : ((Vector.range 12).mapM f).map Vector.toList = (List.range 12).mapM f := by
  have arrays : Vector.toArray <$> (Vector.range 12).mapM f = (Vector.range 12).toArray.mapM f := Vector.toArray_mapM
  have lists : Array.toList <$> (Array.range 12).mapM f = (Array.range 12).toList.mapM f := Array.toList_mapM
  rw [Vector.toArray_range] at arrays
  rw [Array.toList_range, ← arrays] at lists
  rw [← lists]
  cases (Vector.range 12).mapM f <;> rfl

theorem mapM_toList {f : Nat → Option UInt8} {id : HexId} (read : (Vector.range 12).mapM f = some id) :
    (List.range 12).mapM f = some id.toList := by
  rw [← mapM_list, read]
  rfl

variable {hex : Text}

theorem mem_pairAt (length : hex.length = 24) {c : Char} (mem : c ∈ hex) : ∃ i < 12, c ∈ pairAt hex i := by
  obtain ⟨k, bound, rfl⟩ := getElem_of_mem mem
  refine ⟨k / 2, by omega, List.mem_iff_getElem?.mpr ⟨k % 2, ?_⟩⟩
  have place : 2 * (k / 2) + k % 2 = k := Nat.div_add_mod k 2
  rw [pairAt, List.getElem?_take, if_pos (Nat.mod_lt k (by decide)), List.getElem?_drop, place, List.getElem?_eq_getElem bound]

theorem pairAt_subset {i : Nat} : pairAt hex i ⊆ hex := fun _ mem => mem_of_mem_drop (mem_of_mem_take mem)

theorem byteLen_ascii (ascii : ∀ c ∈ hex, c.toNat < 128) : byteLen hex = hex.length := by
  induction hex with
  | nil => rfl
  | cons c rest ih =>
    obtain ⟨first, others⟩ := forall_mem_cons.mp ascii
    have one : c.utf8Size = 1 := by
      rw [Char.utf8Size_eq_one_iff, UInt32.le_iff_toNat_le]
      exact Nat.le_of_lt_succ first
    have rest_ := ih others
    rw [byteLen] at rest_ ⊢
    rw [map_cons, sum_cons, rest_, one, length_cons, Nat.add_comm]

end
section
variable {hex : Text} {id : HexId}

/-- Twelve pairs, each of which can be read. -/
def Paired (hex : Text) : Prop := hex.length = 24 ∧ ∀ i < 12, ∃ high low, pairAt hex i = [high, low] ∧ Readable high low

variable {c : Char}

theorem Paired.readable (paired : Paired hex) (mem : c ∈ hex) : c = '+' ∨ isAsciiHexdigit c = true := by
  obtain ⟨i, bound, inside⟩ := mem_pairAt paired.1 mem
  obtain ⟨high, low, shape, first, second⟩ := paired.2 i bound
  rw [shape, mem_cons, mem_singleton] at inside
  rcases inside with rfl | rfl
  · exact first
  · exact .inr second

theorem Paired.ascii (paired : Paired hex) (mem : c ∈ hex) : c.toNat < 128 := by
  rcases paired.readable mem with rfl | digit
  · decide
  · exact ascii_of_digit digit

theorem Digits.paired (digits : Digits hex) : Paired hex := by
  refine ⟨digits.1, ?_⟩
  intro i bound
  have two : (pairAt hex i).length = 2 := by
    have length := digits.1
    rw [pairAt, length_take, length_drop]
    omega
  obtain ⟨high, low, shape⟩ := length_eq_two.mp two
  have inside : ∀ c ∈ [high, low], isAsciiHexdigit c = true := fun c mem => digits.2 c (pairAt_subset (shape ▸ mem))
  exact ⟨high, low, shape, .inr (inside high (by simp)), inside low (by simp)⟩

theorem decodeHex_isSome : (decodeHex hex).isSome = true ↔ Paired hex := by
  have read : ((Vector.range 12).mapM (fun i => fromStrRadix (pairAt hex i))).isSome = true ↔
      ∀ i < 12, (fromStrRadix (pairAt hex i)).isSome = true := by
    have listed := mapM_isSome (fun i => fromStrRadix (pairAt hex i)) (List.range 12)
    rw [← mapM_list, Option.isSome_map] at listed
    rw [listed]
    exact forall_congr' fun i => by rw [mem_range]
  unfold decodeHex
  constructor
  · split
    · exact fun none_ => by cases none_
    · rename_i accepted
      obtain ⟨length, ascii⟩ := not_or.mp accepted
      rw [not_not] at length
      rw [Bool.not_eq_false, all_eq_true] at ascii
      have count : hex.length = 24 := by
        rw [← byteLen_ascii (fun c mem => of_decide_eq_true (ascii c mem))]
        exact length
      intro some_
      refine ⟨count, fun i bound => ?_⟩
      have two : (pairAt hex i).length = 2 := by
        rw [pairAt, length_take, length_drop]
        omega
      obtain ⟨high, low, shape⟩ := length_eq_two.mp two
      have pair := read.mp some_ i bound
      rw [shape] at pair
      exact ⟨high, low, shape, pair_read.mp pair⟩
  · intro paired
    have accepted : ¬(byteLen hex ≠ 24 ∨ hex.all isAscii = false) := by
      refine not_or.mpr ⟨?_, ?_⟩
      · rw [byteLen_ascii (fun c => paired.ascii), not_not]
        exact paired.1
      · rw [Bool.not_eq_false, all_eq_true]
        exact fun c mem => decide_eq_true (paired.ascii mem)
    rw [if_neg accepted, read]
    intro i bound
    obtain ⟨high, low, shape, readable⟩ := paired.2 i bound
    rw [shape]
    exact pair_read.mpr readable

theorem digits_written (digits : Digits hex) (read : decodeHex hex = some id) : encodeHex id = hex.map Char.toLower := by
  unfold decodeHex at read
  split at read
  · cases read
  · exact pairs_written 12 hex digits.1 digits.2 id.toList (mapM_toList read)

theorem signed_iff : Signed hex ↔ Paired hex ∧ '+' ∈ hex :=
  ⟨fun signed => ⟨⟨signed.1, signed.2.2⟩, signed.2.1⟩, fun both => ⟨both.1.1, both.2, both.1.2⟩⟩

theorem Paired.digits (paired : Paired hex) (plain : '+' ∉ hex) : Digits hex := by
  refine ⟨paired.1, fun c mem => (paired.readable mem).resolve_left ?_⟩
  rintro rfl
  exact plain mem

theorem readsExactly_iff (hex : Text) : ReadsExactly hex ↔ ¬Signed hex := by
  rw [signed_iff, ReadsExactly, decodeHex_isSome]
  constructor
  · rintro ⟨exact_, -⟩ ⟨paired, sign⟩
    have digit := (exact_.mp paired).2 '+' sign
    exact absurd digit (by decide)
  · intro plain
    refine ⟨⟨fun paired => paired.digits (fun sign => plain ⟨paired, sign⟩), Digits.paired⟩, ?_⟩
    intro id read
    have paired : Paired hex := decodeHex_isSome.mp (by rw [read]; rfl)
    exact digits_written (paired.digits (fun sign => plain ⟨paired, sign⟩)) read

theorem ofBytes_digits : ∀ n < 16, isAsciiHexdigit (Hex.digit n) = true ∧ (Hex.digit n).toLower = Hex.digit n := by decide

theorem mem_ofBytes {bytes : List UInt8} (mem : c ∈ ofBytes bytes) : ∃ n < 16, c = Hex.digit n := by
  induction bytes with
  | nil => cases mem
  | cons b rest ih =>
    rcases mem_cons.mp mem with rfl | later
    · exact ⟨b.toNat / 16, Nat.div_lt_of_lt_mul b.toNat_lt, rfl⟩
    · rcases mem_cons.mp later with rfl | last
      · exact ⟨b.toNat % 16, Nat.mod_lt _ (by decide), rfl⟩
      · exact ih last

theorem encodeHex_digits (id : HexId) : Digits (encodeHex id) ∧ (encodeHex id).map Char.toLower = encodeHex id := by
  refine ⟨⟨?_, ?_⟩, ?_⟩
  · simp [encodeHex]
  · intro c mem
    obtain ⟨n, small, rfl⟩ := mem_ofBytes mem
    exact (ofBytes_digits n small).1
  · have each : (encodeHex id).map Char.toLower = (encodeHex id).map (fun c => c) := by
      apply map_congr_left
      intro c mem
      obtain ⟨n, small, rfl⟩ := mem_ofBytes mem
      exact (ofBytes_digits n small).2
    rw [each, map_id']

theorem decodeHex_encodeHex (id : HexId) : decodeHex (encodeHex id) = some id := by
  obtain ⟨digits, lower⟩ := encodeHex_digits id
  obtain ⟨other, read⟩ := Option.isSome_iff_exists.mp (decodeHex_isSome.mpr digits.paired)
  have written := digits_written digits read
  rw [lower] at written
  have eq : other = id := Vector.toList_inj.mp (ofBytes_injective written)
  rw [read, eq]

end

/-- But for texts that have a sign in a pair, exactly the digits of an id are read, and the id is
written as them in lower case; every id is read back from what it is written as. -/
theorem catalog_ids_read_back (hex : Text) :
    (ReadsExactly hex ↔ ¬Signed hex) ∧ (∀ id, decodeHex (encodeHex id) = some id) ∧
      ∀ one two id, ¬Signed one → ¬Signed two → one.map Char.toLower = one → two.map Char.toLower = two →
        decodeHex one = some id → decodeHex two = some id → one = two := by
  refine ⟨readsExactly_iff hex, decodeHex_encodeHex, ?_⟩
  intro one two id first second lowerOne lowerTwo readOne readTwo
  have left := ((readsExactly_iff one).mpr first).2 id readOne
  have right := ((readsExactly_iff two).mpr second).2 id readTwo
  rw [← lowerOne, ← left, right, lowerTwo]

def signedId : Text := "+f23456789abcdef01234567".toList

/-- A sign is read as though a zero stood there: two texts in lower case name one id. -/
theorem signed_pair_is_read : ¬ReadsExactly signedId ∧ (decodeHex signedId).isSome = true ∧
    decodeHex signedId = decodeHex "0f23456789abcdef01234567".toList := by
  have read : (decodeHex signedId).isSome = true := by decide +kernel
  refine ⟨?_, read, by decide +kernel⟩
  intro exact_
  have digit := (exact_.1.mp read).2 '+' (by decide +kernel)
  exact absurd digit (by decide)

end PlxNative.Watchlist
