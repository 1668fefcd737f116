import Mathlib.Data.List.Induction
import PlxNative.Hash.Chunks

/-! Both hashes end with the standard's padding, so they give its hash of the whole message, however
that came. -/
namespace PlxNative.Hash
open List Nat State
open Fips180 (Registers beBytes)

section
variable {s : Sha256} {message : List UInt8}

theorem new_absorbed : Absorbed Sha256.new [] := ⟨rfl, rfl, h0_eq⟩

theorem updated_absorbed (chunks : List (List UInt8)) :
    Absorbed (updated chunks) chunks.flatten ∧ (updated chunks).len = UInt64.ofNat chunks.flatten.length := by
  induction chunks using List.reverseRecOn with
  | nil => exact ⟨new_absorbed, rfl⟩
  | append_singleton chunks chunk ih =>
    obtain ⟨absorbed, len⟩ := ih
    obtain ⟨more, count⟩ := absorbed.update chunk
    have last : updated (chunks ++ [chunk]) = (updated chunks).update chunk := foldl_append ..
    rw [last, flatten_append, flatten_singleton, length_append, UInt64.ofNat_add, ← len]
    exact ⟨more, count⟩

theorem padZeros_absorbed (n left : Nat) (absorbed : Absorbed s message) (enough : n ≤ left)
    (ends : (message.length + n) % 64 = 56) (before : ∀ i < n, (message.length + i) % 64 ≠ 56) :
    ∃ s', Sha256.padZeros left s = some s' ∧ Absorbed s' (message ++ List.replicate n 0) := by
  have place : s.filled = message.length % 64 := absorbed.filled.trans (Blocks.rest_length 64 message)
  induction n generalizing s message left with
  | zero =>
    have now : s.filled = 56 := place.trans ends
    refine ⟨s, ?_, ?_⟩
    · cases left <;> simp [Sha256.padZeros, now]
    · rw [replicate_zero, append_nil]
      exact absorbed
  | succ n ih =>
    have going : s.filled ≠ 56 := by
      rw [place]
      exact before 0 (zero_lt_succ n)
    cases left with
    | zero => exact absurd enough (not_succ_le_zero n)
    | succ left =>
      obtain ⟨next, -⟩ := absorbed.update [0]
      have length : (message ++ [0]).length = message.length + 1 := length_append ..
      obtain ⟨s', padded, whole⟩ := ih left next (le_of_succ_le_succ enough)
        (by rw [length, Nat.add_assoc, Nat.add_comm 1 n]; exact ends)
        (fun i low => by rw [length, Nat.add_assoc, Nat.add_comm 1 i]; exact before (i + 1) (succ_lt_succ low))
        (next.filled.trans (Blocks.rest_length 64 _))
      refine ⟨s', ?_, ?_⟩
      · rw [Sha256.padZeros, if_neg going]
        exact padded
      · rw [replicate_succ, ← singleton_append, ← append_assoc]
        exact whole

theorem State.padZeros_eq (n left : Nat) (enough : n ≤ left) (ends : (message.length + n) % 64 = 56)
    (before : ∀ i < n, (message.length + i) % 64 ≠ 56) :
    padZeros left message = some (message ++ List.replicate n 0) := by
  induction n generalizing message left with
  | zero =>
    rw [replicate_zero, append_nil]
    have now : message.length % 64 = 56 := ends
    cases left <;> simp [padZeros, now]
  | succ n ih =>
    have going : message.length % 64 ≠ 56 := before 0 (zero_lt_succ n)
    cases left with
    | zero => exact absurd enough (not_succ_le_zero n)
    | succ left =>
      have length : (message ++ [0]).length = message.length + 1 := length_append ..
      rw [padZeros, if_neg going, ih left (le_of_succ_le_succ enough)
        (by rw [length, Nat.add_assoc, Nat.add_comm 1 n]; exact ends)
        (fun i low => by rw [length, Nat.add_assoc, Nat.add_comm 1 i]; exact before (i + 1) (succ_lt_succ low)),
        replicate_succ, append_assoc, singleton_append]

theorem zeros_spec (message : List UInt8) :
    Fips180.zeros message.length ≤ 64 ∧ ((message ++ [0x80]).length + Fips180.zeros message.length) % 64 = 56 ∧
      ∀ i < Fips180.zeros message.length, ((message ++ [0x80]).length + i) % 64 ≠ 56 := by
  have length : (message ++ [0x80]).length = message.length + 1 := length_append ..
  unfold Fips180.zeros
  rw [length]
  refine ⟨by omega, by omega, ?_⟩
  intro i low
  omega

theorem beBytes64_eq {length : Nat} (fits : length < 2 ^ 61) : beBytes64 (UInt64.ofNat length * 8) = Fips180.lengthBytes length := by
  have bits : (UInt64.ofNat length * 8).toNat = 8 * length := by
    rw [UInt64.toNat_mul, UInt64.toNat_ofNat']
    change length % 2 ^ 64 * 8 % 2 ^ 64 = _
    omega
  have byte : ∀ n : Nat, n < 64 → ∀ shift : UInt64, shift.toNat = n →
      ((UInt64.ofNat length * 8) >>> shift).toUInt8 = UInt8.ofNat (8 * length / 2 ^ n) := by
    intro n small shift is
    apply UInt8.toNat_inj.mp
    rw [UInt64.toNat_toUInt8, UInt64.toNat_shiftRight, bits, is, UInt8.toNat_ofNat', shiftRight_eq_div_pow,
      mod_eq_of_lt small]
  have last : (UInt64.ofNat length * 8).toUInt8 = UInt8.ofNat (8 * length / 2 ^ 0) := by
    apply UInt8.toNat_inj.mp
    rw [UInt64.toNat_toUInt8, bits, UInt8.toNat_ofNat', Nat.pow_zero, Nat.div_one]
  unfold beBytes64
  rw [byte 56 (by decide) 56 rfl, byte 48 (by decide) 48 rfl, byte 40 (by decide) 40 rfl, byte 32 (by decide) 32 rfl,
    byte 24 (by decide) 24 rfl, byte 16 (by decide) 16 rfl, byte 8 (by decide) 8 rfl, last]
  rfl

theorem pad_length (message : List UInt8) : (Fips180.pad message).length % 64 = 0 := by
  obtain ⟨-, ends, -⟩ := zeros_spec message
  have eight : (Fips180.lengthBytes message.length).length = 8 := by simp [Fips180.lengthBytes]
  rw [Fips180.pad, length_append, length_append, eight, length_replicate]
  omega

theorem padded_absorbed (absorbed : Absorbed s message) (len : s.len = UInt64.ofNat message.length) (fits : message.length < 2 ^ 61) :
    ∃ s', s.padded = some s' ∧ Absorbed s' (Fips180.pad message) := by
  obtain ⟨enough, ends, before⟩ := zeros_spec message
  obtain ⟨marked, -⟩ := absorbed.update [0x80]
  obtain ⟨filled, zeros, whole⟩ := padZeros_absorbed _ 64 marked enough ends before
  have bytes : beBytes64 (s.len * 8) = Fips180.lengthBytes message.length := by
    rw [len]
    exact beBytes64_eq fits
  obtain ⟨last, -⟩ := whole.update (Fips180.lengthBytes message.length)
  refine ⟨filled.update (Fips180.lengthBytes message.length), ?_, last⟩
  simp only [Sha256.padded, zeros, Option.map_some, bytes]

theorem State.padded_eq (fits : message.length < 2 ^ 61) : State.padded message = some (Fips180.pad message) := by
  obtain ⟨enough, ends, before⟩ := zeros_spec message
  have small : message.length * 8 < 2 ^ 64 := by omega
  rw [State.padded, padZeros_eq _ 64 enough ends before, State.bits, if_pos small]
  change some (_ ++ beBytes64 (UInt64.ofNat message.length * 8)) = _
  rw [beBytes64_eq fits]
  rfl

theorem State.sha256_eq (fits : message.length < 2 ^ 61) : sha256 message = some (Fips180.hash message) := by
  have blocks : (Blocks.whole 64 (Fips180.pad message)).foldl (fun h block => mix State.k (expand (State.load block)) h) State.h0 =
      Fips180.absorbed (Fips180.pad message) := by
    rw [State.h0_eq, Fips180.absorbed]
    apply foldl_ext
    intro h block mem
    exact State.compress_eq (Blocks.mem_whole_length mem (by decide)) h
  rw [sha256, padded_eq fits, Option.map_some, blocks]
  rfl

end

/-- Fed in any chunks, the incremental hash gives the standard's hash of their concatenation, as
the other one does, and its padding ends on a block's end. -/
theorem hashes_agree (chunks : List (List UInt8)) (fits : chunks.flatten.length < 2 ^ 61) :
    (updated chunks).finish = some (Fips180.hash chunks.flatten) ∧
      sha256 chunks.flatten = some (Fips180.hash chunks.flatten) ∧
      (∀ other : List (List UInt8), other.flatten = chunks.flatten → (updated other).finish = (updated chunks).finish) ∧
      ∃ s, (updated chunks).padded = some s ∧ s.filled = 0 := by
  have finished : ∀ other : List (List UInt8), other.flatten = chunks.flatten →
      ∃ s, (updated other).padded = some s ∧ Absorbed s (Fips180.pad chunks.flatten) := by
    intro other same
    obtain ⟨absorbed, len⟩ := updated_absorbed other
    rw [same] at absorbed len
    exact padded_absorbed absorbed len fits
  have hashed : ∀ other : List (List UInt8), other.flatten = chunks.flatten →
      (updated other).finish = some (Fips180.hash chunks.flatten) := by
    intro other same
    obtain ⟨s, padded, absorbed⟩ := finished other same
    rw [Sha256.finish, padded, Option.map_some, absorbed.h]
    rfl
  refine ⟨hashed chunks rfl, sha256_eq fits, fun other same => (hashed other same).trans (hashed chunks rfl).symm, ?_⟩
  obtain ⟨s, padded, absorbed⟩ := finished chunks rfl
  refine ⟨s, padded, ?_⟩
  rw [absorbed.filled, Blocks.rest_length, pad_length]

theorem hashes_agree_abc : (updated [[0x61], [], [0x62, 0x63]]).finish = some (Fips180.hash [0x61, 0x62, 0x63]) :=
  (hashes_agree [[0x61], [], [0x62, 0x63]] (by decide)).1

end PlxNative.Hash
