import Mathlib.Data.Vector.Defs
import PlxNative.Hash.Schedules

/-! However a message is cut into chunks, the incremental hash holds what lies past the last whole
block and has compressed the rest; padding then ends on a block's end. -/
namespace PlxNative.Hash
open List hiding Vector
open Fips180 (Registers beBytes)

/-- A state that has taken in the message so far: whole blocks are compressed, the rest is kept. -/
structure Absorbed (s : Sha256) (message : List UInt8) : Prop where
  filled : s.filled = (Blocks.rest 64 message).length
  block : s.block.toList.take s.filled = Blocks.rest 64 message
  h : s.h = Fips180.absorbed message

section
variable {s : Sha256} {message data : List UInt8}

theorem absorbed_append (message more : List UInt8) : Fips180.absorbed (message ++ more) =
    (Blocks.whole 64 (Blocks.rest 64 message ++ more)).foldl Fips180.compress (Fips180.absorbed message) := by
  rw [Fips180.absorbed, Blocks.whole_append (by decide), foldl_append]
  rfl

section
variable (absorbed : Absorbed s message)
include absorbed

theorem Absorbed.filled_lt : s.filled < 64 := by
  rw [absorbed.filled, Blocks.rest_length]
  exact Nat.mod_lt _ (by decide)

theorem Absorbed.empty_rest (empty : s.filled = 0) : Blocks.rest 64 message = [] := by
  rw [absorbed.filled] at empty
  exact length_eq_zero_iff.mp empty

variable {s' : Sha256} {more : List UInt8}

theorem Absorbed.grown (h : s'.h = s.h) (filled : s'.filled = (Blocks.rest 64 message ++ more).length)
    (block : s'.block.toList.take s'.filled = Blocks.rest 64 message ++ more)
    (short : (Blocks.rest 64 message ++ more).length < 64) : Absorbed s' (message ++ more) := by
  have rest : Blocks.rest 64 (message ++ more) = Blocks.rest 64 message ++ more := by
    rw [Blocks.rest_append (by decide), Blocks.rest_short short]
  refine ⟨?_, ?_, ?_⟩
  · rw [rest]
    exact filled
  · rw [rest]
    exact block
  · rw [absorbed_append, Blocks.whole_short short, h, absorbed.h]
    rfl

theorem Absorbed.blocked (whole : (Blocks.rest 64 message ++ more).length = 64)
    (h : s'.h = Fips180.compress s.h (Blocks.rest 64 message ++ more)) (filled : s'.filled = 0) :
    Absorbed s' (message ++ more) := by
  have long : 64 ≤ (Blocks.rest 64 message ++ more).length := Nat.le_of_eq whole.symm
  have none_ : (Blocks.rest 64 message ++ more).drop 64 = [] := drop_eq_nil_of_le (Nat.le_of_eq whole)
  have rest : Blocks.rest 64 (message ++ more) = [] := by
    rw [Blocks.rest_append (by decide), Blocks.rest_step (by decide) long, none_]
    rfl
  refine ⟨?_, ?_, ?_⟩
  · rw [rest]
    exact filled
  · rw [rest, filled]
    rfl
  · rw [absorbed_append, Blocks.whole_step (by decide) long, none_, take_of_length_le (Nat.le_of_eq whole), h, absorbed.h]
    rfl

end

theorem copyInto_take (block : Vector UInt8 64) (start : Nat) (data : List UInt8) (fits : start + data.length ≤ 64) :
    (copyInto block start data).toList.take (start + data.length) = block.toList.take start ++ data := by
  apply List.ext_getElem?
  intro i
  rw [List.getElem?_take, List.getElem?_append, length_take, Vector.length_toList, Nat.min_eq_left (by omega)]
  split
  · have bound : i < 64 := by omega
    have here : (copyInto block start data).toList[i]? = some (if start ≤ i then data.getD (i - start) block[i] else block[i]) := by
      rw [Vector.getElem?_toList, copyInto, Vector.getElem?_mapIdx, Vector.getElem?_eq_getElem bound]
      rfl
    rw [here]
    by_cases low : i < start
    · rw [if_neg (by omega), if_pos low, List.getElem?_take, if_pos low, Vector.getElem?_toList, Vector.getElem?_eq_getElem bound]
    · have within : i - start < data.length := by omega
      rw [if_pos (by omega), if_neg low, List.getD_eq_getElem?_getD, List.getElem?_eq_getElem within]
      rfl
  · rw [if_neg (by omega), List.getElem?_eq_none (by omega)]

theorem Absorbed.flushed (absorbed : Absorbed s message) (data : List UInt8) (fits : s.filled + data.length ≤ 64) :
    Absorbed (s.copied data).flushed (message ++ data) ∧ (s.copied data).flushed.len = s.len ∧
      (s.filled + data.length = 64 → (s.copied data).flushed.filled = 0) := by
  have copied := copyInto_take s.block s.filled data fits
  rw [absorbed.block] at copied
  have count : s.filled + data.length = (Blocks.rest 64 message ++ data).length := by
    rw [length_append, ← absorbed.filled]
  by_cases full : s.filled + data.length = 64
  · obtain ⟨h, filled, len⟩ := (s.copied data).flushed_full ((s.copied_filled data).trans full)
    refine ⟨absorbed.blocked (count.symm.trans full) ?_ filled, len.trans (s.copied_len data), fun _ => filled⟩
    have all : (copyInto s.block s.filled data).toList = Blocks.rest 64 message ++ data := by
      rw [← copied, full, take_of_length_le (by simp)]
    rw [h, Sha256.copied_block, all, Sha256.copied_h]
    exact compress_eq s.h _
  · rw [(s.copied data).flushed_partly (by rw [Sha256.copied_filled]; exact full)]
    refine ⟨absorbed.grown (s.copied_h data) ?_ ?_ ?_, s.copied_len data, fun whole => absurd whole full⟩
    · exact count
    · exact copied
    · omega

theorem Absorbed.fill (absorbed : Absorbed s message) (data : List UInt8) :
    ∃ taken, data = taken ++ (s.fill data).2 ∧ Absorbed (s.fill data).1 (message ++ taken) ∧ (s.fill data).1.len = s.len ∧
      ((s.fill data).2 = [] ∨ (s.fill data).1.filled = 0) := by
  have below := absorbed.filled_lt
  unfold Sha256.fill
  generalize shape : min (64 - s.filled) data.length = take
  have some_ : (data.take take).length = take := by
    rw [length_take]
    omega
  by_cases begun : 0 < s.filled
  · simp only [if_pos begun]
    obtain ⟨flushed, len, full⟩ := absorbed.flushed (data.take take) (by omega)
    refine ⟨data.take take, (take_append_drop take data).symm, flushed, len, ?_⟩
    rw [some_] at full
    by_cases whole : s.filled + take = 64
    · exact .inr (full whole)
    · exact .inl (drop_eq_nil_of_le (by omega))
  · simp only [if_neg begun]
    exact ⟨[], rfl, by rw [append_nil]; exact absorbed, trivial, .inr (Nat.eq_zero_of_not_pos begun)⟩

theorem Absorbed.compressed (absorbed : Absorbed s message) (empty : s.filled = 0) (block : data.length = 64) :
    Absorbed (s.compress data) (message ++ data) := by
  have rest := absorbed.empty_rest empty
  have whole : Blocks.rest 64 message ++ data = data := by rw [rest, nil_append]
  apply absorbed.blocked
  · rw [whole]
    exact block
  · rw [whole, Sha256.compress_h]
    exact compress_eq s.h data
  · rw [Sha256.compress_filled]
    exact empty

theorem Absorbed.wholeBlocks (left : Nat) (data : List UInt8) (absorbed : Absorbed s message) (empty : s.filled = 0)
    (enough : data.length / 64 = left) :
    ∃ taken, data = taken ++ (Sha256.wholeBlocks left s data).2 ∧
      Absorbed (Sha256.wholeBlocks left s data).1 (message ++ taken) ∧ (Sha256.wholeBlocks left s data).1.filled = 0 ∧
      (Sha256.wholeBlocks left s data).1.len = s.len ∧ (Sha256.wholeBlocks left s data).2.length < 64 := by
  induction left generalizing s message data with
  | zero =>
    have short : data.length < 64 := by omega
    exact ⟨[], rfl, by rw [append_nil]; exact absorbed, empty, rfl, short⟩
  | succ left ih =>
    have long : 64 ≤ data.length := by omega
    have block : (data.take 64).length = 64 := by
      rw [length_take]
      exact Nat.min_eq_left long
    have fewer : (data.drop 64).length / 64 = left := by
      rw [length_drop]
      omega
    rw [Sha256.wholeBlocks, if_pos long]
    have still : (s.compress (data.take 64)).filled = 0 := (s.compress_filled _).trans empty
    obtain ⟨taken, split, others, none_, len, few⟩ := ih (data.drop 64) (absorbed.compressed empty block) still fewer
    refine ⟨data.take 64 ++ taken, ?_, ?_, none_, len.trans (s.compress_len _), few⟩
    · rw [append_assoc, ← split, take_append_drop]
    · rw [← append_assoc]
      exact others

theorem Absorbed.keep (absorbed : Absorbed s message) (data : List UInt8) (place : data = [] ∨ s.filled = 0) (short : data.length < 64) :
    Absorbed (s.keep data) (message ++ data) ∧ (s.keep data).len = s.len := by
  unfold Sha256.keep
  split
  · rename_i none_
    rw [List.isEmpty_iff.mp none_, append_nil]
    exact ⟨absorbed, rfl⟩
  · rename_i some_
    have empty := place.resolve_left (fun none_ => some_ (List.isEmpty_iff.mpr none_))
    have rest := absorbed.empty_rest empty
    have copied := copyInto_take s.block 0 data (by omega)
    rw [Nat.zero_add, take_zero, nil_append] at copied
    refine ⟨absorbed.grown rfl ?_ ?_ ?_, rfl⟩
    · rw [rest, nil_append]
    · rw [rest, nil_append]
      exact copied
    · rw [rest, nil_append]
      exact short

theorem Absorbed.update (absorbed : Absorbed s message) (data : List UInt8) :
    Absorbed (s.update data) (message ++ data) ∧ (s.update data).len = s.len + UInt64.ofNat data.length := by
  have counted : Absorbed (s.counted data) message := ⟨absorbed.filled, absorbed.block, absorbed.h⟩
  obtain ⟨first, split, begun, len, place⟩ := counted.fill data
  have shape : s.update data = ((s.counted data).fill data).1.settle ((s.counted data).fill data).2 := rfl
  rw [shape]
  generalize (s.counted data).fill data = filled at split begun len place ⊢
  obtain ⟨state, more⟩ := filled
  change Absorbed (state.settle more) _ ∧ (state.settle more).len = _
  rw [split, ← append_assoc]
  rcases place with rfl | empty
  · have kept := begun.keep [] (.inl rfl) (by decide)
    refine ⟨kept.1, kept.2.trans (len.trans ?_)⟩
    rw [Sha256.counted, split]
  · obtain ⟨blocks, apart, whole, still, count, few⟩ := Absorbed.wholeBlocks (more.length / 64) more begun empty rfl
    have kept := whole.keep _ (.inr still) few
    rw [append_assoc, ← apart] at kept
    refine ⟨kept.1, kept.2.trans (count.trans (len.trans ?_))⟩
    rw [Sha256.counted, split]

end
end PlxNative.Hash
