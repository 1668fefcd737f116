import Mathlib.Algebra.Order.Ring.Nat
import PlxNative.Lib.Frames

/-! The telemetry spool's bytes: records as JSON with a body in base64, each in a frame that holds its
length and its checksum. -/
namespace PlxNative.Telemetry
open List Frames

abbrev Bytes : Type := List UInt8

inductive Category where
  | errors | usage | oneOff
deriving DecidableEq

inductive Dest where
  | sentry | postHog
deriving DecidableEq

structure Record where
  category : Category
  dest : Dest
  eventId : String
  body : Bytes
deriving DecidableEq

namespace BodyB64

def alphabet : List Char := "ABCDEFGHIJKLMNOPQRSTUVWXYZabcdefghijklmnopqrstuvwxyz0123456789+/".toList

def letter (n : Nat) : Char := alphabet.getD (n % 64) 'A'

/-- One to three bytes as four characters. -/
def encodeChunk (c : Bytes) : List Char :=
  let n := (c.getD 0 0).toNat * 65536 + (c.getD 1 0).toNat * 256 + (c.getD 2 0).toNat
  (range 4).map fun i => if i ≤ c.length then letter (n / 2 ^ (18 - 6 * i)) else '='

def encode : Bytes → List Char
  | [] => []
  | [a] => encodeChunk [a]
  | [a, b] => encodeChunk [a, b]
  | a :: b :: c :: rest => encodeChunk [a, b, c] ++ encode rest

/-- The accumulator is 32 bits wide, and keeps what was shifted out of use. -/
def decodeFrom : Nat → Nat → List Char → Option Bytes
  | _, _, [] => some []
  | acc, bits, ch :: rest =>
    if ch = '=' then some []
    else do
      let v ← alphabet.findIdx? (· = ch)
      let acc := (acc * 64 + v) % 4294967296
      if 8 ≤ bits + 6 then
        let out ← decodeFrom acc (bits - 2) rest
        some (UInt8.ofNat (acc / 2 ^ (bits - 2)) :: out)
      else decodeFrom acc (bits + 6) rest

def decode (s : List Char) : Option Bytes := decodeFrom 0 0 s

theorem letter_read (n : Nat) : letter n ≠ '=' ∧ alphabet.findIdx? (· = letter n) = some (n % 64) := by
  have all_ : ∀ v < 64, alphabet.getD v 'A' ≠ '=' ∧ alphabet.findIdx? (· = alphabet.getD v 'A') = some v := by
    decide +kernel
  exact all_ _ (Nat.mod_lt n (by decide))

theorem decode_letter (n acc bits : Nat) (rest : List Char) : decodeFrom acc bits (letter n :: rest) =
    if 8 ≤ bits + 6 then (decodeFrom ((acc * 64 + n % 64) % 4294967296) (bits - 2) rest).map
      (UInt8.ofNat ((acc * 64 + n % 64) % 4294967296 / 2 ^ (bits - 2)) :: ·)
    else decodeFrom ((acc * 64 + n % 64) % 4294967296) (bits + 6) rest := by
  obtain ⟨solid, found⟩ := letter_read n
  rw [decodeFrom, if_neg solid, found, Option.map_eq_bind]
  rfl

theorem decode_pad (acc bits : Nat) (rest : List Char) : decodeFrom acc bits ('=' :: rest) = some [] := by
  rw [decodeFrom, if_pos rfl]

theorem decode_encode_from (b : Bytes) (acc : Nat) : decodeFrom acc 0 (encode b) = some b := by
  fun_induction encode b generalizing acc with
  | case1 => rfl
  | case2 a =>
    have ha := a.toNat_lt
    simp [encodeChunk, range_succ, decode_letter, decode_pad, ← UInt8.toNat_inj]
    omega
  | case3 a b =>
    have ha := a.toNat_lt
    have hb := b.toNat_lt
    simp [encodeChunk, range_succ, decode_letter, decode_pad, ← UInt8.toNat_inj]
    omega
  | case4 a b c rest ih =>
    have ha := a.toNat_lt
    have hb := b.toNat_lt
    have hc := c.toNat_lt
    simp [encodeChunk, range_succ, decode_letter, ih, ← UInt8.toNat_inj]
    omega

end BodyB64

/-- JSON of the four fields, the body as its text. -/
class SerdeJson where
  toVec : Category × Dest × String × List Char → Option Bytes
  fromSlice : Bytes → Option (Category × Dest × String × List Char)
  reads {fields : Category × Dest × String × List Char} {payload : Bytes} :
    toVec fields = some payload → fromSlice payload = some fields

def maxRecord : Nat := 256 * 1024

def maxBytes : Nat := 512 * 1024

def maxRecords : Nat := 200

def crcBit (crc : UInt32) : UInt32 := crc >>> 1 ^^^ (0xEDB88320 &&& (0 - (crc &&& 1)))

def crc32 (data : Bytes) : UInt32 :=
  ~~~data.foldl (fun crc b => crcBit^[8] (crc ^^^ b.toUInt32)) 0xFFFFFFFF

def toLe (n : Nat) : Bytes := [.ofNat n, .ofNat (n / 256), .ofNat (n / 65536), .ofNat (n / 16777216)]

def fromLe : Bytes → Nat
  | [] => 0
  | b :: rest => b.toNat + 256 * fromLe rest

theorem fromLe_toLe {n : Nat} (small : n < 4294967296) : fromLe (toLe n) = n := by
  simp [toLe, fromLe]
  omega

theorem toLe_fromLe (a b c d : UInt8) : toLe (fromLe [a, b, c, d]) = [a, b, c, d] := by
  have ha := a.toNat_lt
  have hb := b.toNat_lt
  have hc := c.toNat_lt
  have hd := d.toNat_lt
  simp [toLe, fromLe, ← UInt8.toNat_inj]
  omega

def framed (payload : Bytes) : Bytes := toLe payload.length ++ toLe (crc32 payload).toNat ++ payload

section
variable [SerdeJson]
open SerdeJson (toVec fromSlice)

def recordOf (payload : Bytes) : Option Record := do
  let (category, dest, eventId, text) ← fromSlice payload
  let body ← BodyB64.decode text
  some ⟨category, dest, eventId, body⟩

def encode (r : Record) : Option Bytes := do
  let payload ← toVec (r.category, r.dest, r.eventId, BodyB64.encode r.body)
  if maxRecord < payload.length then none else some (framed payload)

/-- One turn of the decoder on what is left of the buffer. The checked sums of the code refuse only
frames that end behind the buffer, as its length does. -/
def readFrame : Bytes → Option (Record × Bytes)
  | l0 :: l1 :: l2 :: l3 :: c0 :: c1 :: c2 :: c3 :: rest =>
    let len := fromLe [l0, l1, l2, l3]
    if maxRecord < len ∨ rest.length < len then none
    else if (crc32 (rest.take len)).toNat ≠ fromLe [c0, c1, c2, c3] then none
    else (recordOf (rest.take len)).map (·, rest.drop len)
  | _ => none

/-- A frame that is read: its payload is short enough, checked, and a record. -/
def Holds (frame : Bytes) (r : Record) : Prop :=
  ∃ payload, payload.length ≤ maxRecord ∧ frame = framed payload ∧ recordOf payload = some r

variable {r : Record} {frame : Bytes}

theorem Holds.read (holds : Holds frame r) (behind : Bytes) : readFrame (frame ++ behind) = some (r, behind) := by
  obtain ⟨payload, short, rfl, is⟩ := holds
  have len : fromLe (toLe payload.length) = payload.length := fromLe_toLe (by unfold maxRecord at short; omega)
  have crc := fromLe_toLe (crc32 payload).toNat_lt
  simp only [toLe] at len crc
  simp [framed, toLe, readFrame, len, is, Nat.not_lt.mpr short]
  exact crc.symm

theorem read_holds {input rest : Bytes} (took : readFrame input = some (r, rest)) :
    ∃ frame, Holds frame r ∧ input = frame ++ rest := by
  unfold readFrame at took
  split at took
  · rename_i l0 l1 l2 l3 c0 c1 c2 c3 tail
    dsimp only at took
    split_ifs at took with long broken
    obtain ⟨is, same⟩ : recordOf (tail.take (fromLe [l0, l1, l2, l3])) = some r ∧
        tail.drop (fromLe [l0, l1, l2, l3]) = rest := by simpa [and_comm] using took
    obtain ⟨short, whole⟩ := not_or.mp long
    have length : (tail.take (fromLe [l0, l1, l2, l3])).length = fromLe [l0, l1, l2, l3] := by
      rw [length_take]
      omega
    refine ⟨_, ⟨_, by omega, rfl, is⟩, ?_⟩
    rw [framed, length, not_ne_iff.mp broken, toLe_fromLe, toLe_fromLe, ← same]
    simp
  · cases took

theorem Holds.solid (holds : Holds frame r) : frame ≠ [] := by
  obtain ⟨_, -, rfl, -⟩ := holds
  simp [framed, toLe]

def queue : Reader Record UInt8 := ⟨readFrame, Holds, Holds.solid, Holds.read, read_holds⟩

def decodeAll (buf : Bytes) : List Record × Nat := ((queue.all buf).1, (queue.all buf).2.length)

theorem encode_holds (written : encode r = some frame) : Holds frame r := by
  obtain ⟨payload, json, fits⟩ := Option.bind_eq_some_iff.mp written
  split_ifs at fits with long
  cases fits
  refine ⟨payload, Nat.not_lt.mp long, rfl, ?_⟩
  simp [recordOf, SerdeJson.reads json, BodyB64.decode, BodyB64.decode_encode_from]

/-- Frames behind which nothing can be read are read back, and what stands there is dropped. -/
theorem written_reads (records : List Record) {torn : Bytes} (bad : readFrame torn = none) :
    decodeAll ((records.filterMap encode).flatten ++ torn) =
      (records.filter (fun r => (encode r).isSome), torn.length) := by
  have written : Forall₂ Holds (records.filterMap encode) (records.filter fun r => (encode r).isSome) := by
    induction records with
    | nil => exact .nil
    | cons r records ih =>
      cases its : encode r with
      | none => rwa [filterMap_cons_none its, filter_cons_of_neg (by simp [its])]
      | some frame =>
        rw [filterMap_cons_some its, filter_cons_of_pos (by simp [its])]
        exact .cons (encode_holds its) ih
  have stop : queue.all torn = ([], torn) := Reader.all_none bad
  unfold decodeAll
  rw [Reader.all_frames (r := queue) written, stop, append_nil]

/-- Whatever was written of a frame, short of all of it, is no frame. -/
theorem cut_reads (r : Record) (written : Nat) : readFrame (((encode r).getD []).dropLast.take written) = none := by
  cases its : encode r with
  | none => simp [readFrame]
  | some frame =>
    have holds := encode_holds its
    have long := length_pos_iff.mpr holds.solid
    rw [Option.getD_some, dropLast_eq_take, take_take]
    rw [← take_append_drop (min written (frame.length - 1)) frame] at holds
    exact Reader.torn (r := queue) holds (by rw [ne_eq, drop_eq_nil_iff]; omega)

/-- The records of whole frames are read back, and a frame cut short behind them is dropped. -/
theorem spool_reads_back (records : List Record) (next : Record) (written : Nat) :
    let torn := ((encode next).getD []).dropLast.take written
    decodeAll ((records.filterMap encode).flatten ++ torn) =
      (records.filter (fun r => (encode r).isSome), torn.length) :=
  written_reads records (cut_reads next written)

def sample : Record := ⟨.usage, .postHog, "e", [104, 105]⟩

/-- The JSON of this record. -/
@[reducible] def sampleJson : SerdeJson :=
  let fields := (Category.usage, Dest.postHog, "e", "aGk=".toList)
  let json := "\x7b\"category\":\"Usage\",\"dest\":\"PostHog\",\"event_id\":\"e\",\"body\":\"aGk=\"\x7d".toList.map fun c => .ofNat c.toNat
  { toVec := fun f => if f = fields then some json else none
    fromSlice := fun p => if p = json then some fields else none
    reads := fun written => by
      split_ifs at written with same
      cases written
      rw [if_pos rfl, same] }

omit [SerdeJson] in
theorem spool_reads_back_sample : ∃ _ : SerdeJson, decodeAll (([sample].filterMap encode).flatten ++
    ((encode sample).getD []).dropLast.take 9) = ([sample], 9) :=
  ⟨sampleJson, (@spool_reads_back sampleJson [sample] sample 9).trans (by decide +kernel)⟩

/-- Any buffer is frames that hold the records read, and a rest that no frame starts. -/
theorem spool_is_split (buf : Bytes) : ∃ frames rest, buf = frames.flatten ++ rest ∧
    Forall₂ Holds frames (decodeAll buf).1 ∧ (decodeAll buf).2 = rest.length ∧ readFrame rest = none := by
  obtain ⟨frames, whole, each, stop⟩ := queue.all_split buf
  exact ⟨frames, _, whole, each, rfl, stop⟩

end
end PlxNative.Telemetry
