import PlxNative.Lib.Sha256

/-! The program's two SHA-256s: one takes a message in chunks and keeps a block that is not yet
full, the other pads a copy of the whole message. -/
namespace PlxNative.Hash
open Fips180 (Registers beWord beBytes)

def k : List UInt32 :=
  [0x428a2f98, 0x71374491, 0xb5c0fbcf, 0xe9b5dba5, 0x3956c25b, 0x59f111f1, 0x923f82a4, 0xab1c5ed5,
    0xd807aa98, 0x12835b01, 0x243185be, 0x550c7dc3, 0x72be5d74, 0x80deb1fe, 0x9bdc06a7, 0xc19bf174,
    0xe49b69c1, 0xefbe4786, 0x0fc19dc6, 0x240ca1cc, 0x2de92c6f, 0x4a7484aa, 0x5cb0a9dc, 0x76f988da,
    0x983e5152, 0xa831c66d, 0xb00327c8, 0xbf597fc7, 0xc6e00bf3, 0xd5a79147, 0x06ca6351, 0x14292967,
    0x27b70a85, 0x2e1b2138, 0x4d2c6dfc, 0x53380d13, 0x650a7354, 0x766a0abb, 0x81c2c92e, 0x92722c85,
    0xa2bfe8a1, 0xa81a664b, 0xc24b8b70, 0xc76c51a3, 0xd192e819, 0xd6990624, 0xf40e3585, 0x106aa070,
    0x19a4c116, 0x1e376c08, 0x2748774c, 0x34b0bcb5, 0x391c0cb3, 0x4ed8aa4a, 0x5b9cca4f, 0x682e6ff3,
    0x748f82ee, 0x78a5636f, 0x84c87814, 0x8cc70208, 0x90befffa, 0xa4506ceb, 0xbef9a3f7, 0xc67178f2]

def h0 : Registers :=
  ⟨0x6a09e667, 0xbb67ae85, 0x3c6ef372, 0xa54ff53a, 0x510e527f, 0x9b05688c, 0x1f83d9ab, 0x5be0cd19⟩

def rotateRight (x n : UInt32) : UInt32 := (x >>> n) ||| (x <<< (32 - n))

abbrev Schedule := Vector UInt32 64

def Schedule.at_ (w : Schedule) (i : Nat) : UInt32 := w[i]?.getD 0

/-- One word of the schedule, from four earlier ones. -/
def expandAt (w : Schedule) (i : Nat) : Schedule :=
  let s0 := rotateRight (w.at_ (i - 15)) 7 ^^^ rotateRight (w.at_ (i - 15)) 18 ^^^ (w.at_ (i - 15) >>> 3)
  let s1 := rotateRight (w.at_ (i - 2)) 17 ^^^ rotateRight (w.at_ (i - 2)) 19 ^^^ (w.at_ (i - 2) >>> 10)
  w.setIfInBounds i (w.at_ (i - 16) + s0 + w.at_ (i - 7) + s1)

def expand (w : Schedule) : Schedule := (List.range' 16 48).foldl expandAt w

def turn (k : List UInt32) (w : Schedule) (r : Registers) (i : Nat) : Registers :=
  let s1 := rotateRight r.e 6 ^^^ rotateRight r.e 11 ^^^ rotateRight r.e 25
  let ch := (r.e &&& r.f) ^^^ (~~~r.e &&& r.g)
  let t1 := r.h + s1 + ch + k.getD i 0 + w.at_ i
  let s0 := rotateRight r.a 2 ^^^ rotateRight r.a 13 ^^^ rotateRight r.a 22
  let maj := (r.a &&& r.b) ^^^ (r.a &&& r.c) ^^^ (r.b &&& r.c)
  let t2 := s0 + maj
  ⟨t1 + t2, r.a, r.b, r.c, r.d + t1, r.e, r.f, r.g⟩

/-- The rounds over a schedule, added to what they started from. -/
def mix (k : List UInt32) (w : Schedule) (h : Registers) : Registers := h.add ((List.range 64).foldl (turn k w) h)

/-- The first sixteen words set one by one. -/
def load (block : List UInt8) : Schedule :=
  (List.range 16).foldl (fun w i => w.setIfInBounds i (beWord (block.getD (i * 4) 0) (block.getD (i * 4 + 1) 0)
    (block.getD (i * 4 + 2) 0) (block.getD (i * 4 + 3) 0))) (Vector.replicate 64 0)

structure Sha256 where
  h : Registers
  block : Vector UInt8 64
  filled : Nat
  len : UInt64

def copyInto (block : Vector UInt8 64) (start : Nat) (data : List UInt8) : Vector UInt8 64 :=
  block.mapIdx (fun i b => if start ≤ i then data.getD (i - start) b else b)

def beBytes64 (n : UInt64) : List UInt8 :=
  [(n >>> 56).toUInt8, (n >>> 48).toUInt8, (n >>> 40).toUInt8, (n >>> 32).toUInt8,
    (n >>> 24).toUInt8, (n >>> 16).toUInt8, (n >>> 8).toUInt8, n.toUInt8]

namespace Sha256

def new : Sha256 := ⟨h0, Vector.replicate 64 0, 0, 0⟩

def compress (s : Sha256) (block : List UInt8) : Sha256 := { s with h := mix k (expand (load block)) s.h }

def copied (s : Sha256) (data : List UInt8) : Sha256 :=
  { s with block := copyInto s.block s.filled data, filled := s.filled + data.length }

def flushed (s : Sha256) : Sha256 := if s.filled = 64 then { s.compress s.block.toList with filled := 0 } else s

/-- A block begun is filled up first, as far as the data goes. -/
def fill (s : Sha256) (data : List UInt8) : Sha256 × List UInt8 :=
  let take := min (64 - s.filled) data.length
  if 0 < s.filled then ((s.copied (data.take take)).flushed, data.drop take) else (s, data)

def wholeBlocks : Nat → Sha256 → List UInt8 → Sha256 × List UInt8
  | 0, s, data => (s, data)
  | left + 1, s, data =>
    if 64 ≤ data.length then wholeBlocks left (s.compress (data.take 64)) (data.drop 64) else (s, data)

def keep (s : Sha256) (data : List UInt8) : Sha256 :=
  if data.isEmpty then s else { s with block := copyInto s.block 0 data, filled := data.length }

/-- Whole blocks are taken from the data, and the rest is kept. -/
def settle (s : Sha256) (data : List UInt8) : Sha256 :=
  let done := wholeBlocks (data.length / 64) s data
  done.1.keep done.2

def counted (s : Sha256) (data : List UInt8) : Sha256 := { s with len := s.len + UInt64.ofNat data.length }

def update (s : Sha256) (data : List UInt8) : Sha256 :=
  let begun := (s.counted data).fill data
  begun.1.settle begun.2

/-- Zeros until eight bytes are left of a block. A turn moves the place by one and a block has
sixty-four places; running out of turns is no result. -/
def padZeros : Nat → Sha256 → Option Sha256
  | 0, s => if s.filled = 56 then some s else none
  | left + 1, s => if s.filled = 56 then some s else padZeros left (s.update [0])

/-- The state once all of the padding is taken in. -/
def padded (s : Sha256) : Option Sha256 :=
  let bits := s.len * 8
  (padZeros 64 (s.update [0x80])).map (·.update (beBytes64 bits))

def finish (s : Sha256) : Option (List UInt8) := s.padded.map (·.h.words.flatMap beBytes)

section
variable (h : Registers) (block : Vector UInt8 64) (filled : Nat) (len : UInt64) (s : Sha256) (data : List UInt8)

theorem mk_h : (Sha256.mk h block filled len).h = h := rfl

theorem mk_block : (Sha256.mk h block filled len).block = block := rfl

theorem mk_filled : (Sha256.mk h block filled len).filled = filled := rfl

theorem mk_len : (Sha256.mk h block filled len).len = len := rfl

-- Each field through its own lemma: comparing whole states would run the compression.
theorem compress_h : (s.compress data).h = mix k (expand (load data)) s.h := mk_h _ _ _ _

theorem compress_filled : (s.compress data).filled = s.filled := mk_filled _ _ _ _

theorem compress_len : (s.compress data).len = s.len := mk_len _ _ _ _

theorem copied_h : (s.copied data).h = s.h := mk_h _ _ _ _

theorem copied_block : (s.copied data).block = copyInto s.block s.filled data := mk_block _ _ _ _

theorem copied_filled : (s.copied data).filled = s.filled + data.length := mk_filled _ _ _ _

theorem copied_len : (s.copied data).len = s.len := mk_len _ _ _ _

theorem flushed_full (full : s.filled = 64) :
    s.flushed.h = mix k (expand (load s.block.toList)) s.h ∧ s.flushed.filled = 0 ∧ s.flushed.len = s.len := by
  rw [flushed, if_pos full]
  refine ⟨?_, mk_filled _ _ _ _, ?_⟩
  · exact compress_h s _
  · rw [mk_len]
    exact compress_len s _

theorem flushed_partly (partly : s.filled ≠ 64) : s.flushed = s := if_neg partly

end
end Sha256

def updated (chunks : List (List UInt8)) : Sha256 := chunks.foldl Sha256.update Sha256.new

namespace State

def k : List UInt32 :=
  [0x428a2f98, 0x71374491, 0xb5c0fbcf, 0xe9b5dba5, 0x3956c25b, 0x59f111f1, 0x923f82a4,
    0xab1c5ed5, 0xd807aa98, 0x12835b01, 0x243185be, 0x550c7dc3, 0x72be5d74, 0x80deb1fe,
    0x9bdc06a7, 0xc19bf174, 0xe49b69c1, 0xefbe4786, 0x0fc19dc6, 0x240ca1cc, 0x2de92c6f,
    0x4a7484aa, 0x5cb0a9dc, 0x76f988da, 0x983e5152, 0xa831c66d, 0xb00327c8, 0xbf597fc7,
    0xc6e00bf3, 0xd5a79147, 0x06ca6351, 0x14292967, 0x27b70a85, 0x2e1b2138, 0x4d2c6dfc,
    0x53380d13, 0x650a7354, 0x766a0abb, 0x81c2c92e, 0x92722c85, 0xa2bfe8a1, 0xa81a664b,
    0xc24b8b70, 0xc76c51a3, 0xd192e819, 0xd6990624, 0xf40e3585, 0x106aa070, 0x19a4c116,
    0x1e376c08, 0x2748774c, 0x34b0bcb5, 0x391c0cb3, 0x4ed8aa4a, 0x5b9cca4f, 0x682e6ff3,
    0x748f82ee, 0x78a5636f, 0x84c87814, 0x8cc70208, 0x90befffa, 0xa4506ceb, 0xbef9a3f7,
    0xc67178f2]

def h0 : Registers :=
  ⟨0x6a09e667, 0xbb67ae85, 0x3c6ef372, 0xa54ff53a, 0x510e527f, 0x9b05688c, 0x1f83d9ab, 0x5be0cd19⟩

/-- The slots of the schedule beside the words of the block, as far as those go. -/
def load (block : List UInt8) : Schedule :=
  let words := (Blocks.whole 4 block).map (fun four => beWord (four.getD 0 0) (four.getD 1 0) (four.getD 2 0) (four.getD 3 0))
  (Vector.replicate 64 0).mapIdx (fun i slot => words.getD i slot)

def padZeros : Nat → List UInt8 → Option (List UInt8)
  | 0, padded => if padded.length % 64 = 56 then some padded else none
  | left + 1, padded => if padded.length % 64 = 56 then some padded else padZeros left (padded ++ [0])

/-- A length in bits that would not fit is no result. -/
def bits (length : Nat) : Option UInt64 := if length * 8 < 2 ^ 64 then some (UInt64.ofNat length * 8) else none

def padded (input : List UInt8) : Option (List UInt8) := do
  let filled ← padZeros 64 (input ++ [0x80])
  let bits ← bits input.length
  return filled ++ beBytes64 bits

def sha256 (input : List UInt8) : Option (List UInt8) :=
  (padded input).map (fun padded =>
    ((Blocks.whole 64 padded).foldl (fun h block => mix k (expand (load block)) h) h0).words.flatMap beBytes)

end State
end PlxNative.Hash
