import PlxNative.Http.ReadCall

/-! A response body as it is sent, in chunks or behind its length, and that the framing reads it
back. -/
namespace PlxNative.Http
open List Scan Machine Bool SizeLine Option

def crlf : List UInt8 := [13, 10]

/-- The number that hex digits spell, behind those read before them. -/
def hexValue (size : Int) (digits : List UInt8) : Int := digits.foldl (fun size b => size * 16 + (hexDigit b).getD 0) size

/-- A chunk size as it is written: in either case, with any zeros in front and any extension
behind it. -/
structure SizeText where
  digits : List UInt8
  extension : List UInt8
  some_digit : digits ≠ []
  hex : ∀ b ∈ digits, (hexDigit b).isSome = true
  fits : hexValue 0 digits < 9223372036854775808
  unbroken : ∀ b ∈ extension, isLf b = false
  apart : ∀ b ∈ extension.head?, hexDigit b = none

namespace SizeText

def size (t : SizeText) : Int := hexValue 0 t.digits

def text (t : SizeText) : List UInt8 := t.digits ++ (t.extension ++ crlf)

end SizeText

structure Chunk extends SizeText where
  data : List UInt8
  some_data : data ≠ []
  sized : toSizeText.size = data.length

def Chunk.line (c : Chunk) : List UInt8 := c.toSizeText.text ++ (c.data ++ crlf)

structure TrailerLine where
  field : List UInt8
  unbroken : ∀ b ∈ field, isLf b = false
  content : field.any (fun b => !isCr b) = true

def TrailerLine.line (t : TrailerLine) : List UInt8 := t.field ++ crlf

structure Chunked where
  chunks : List Chunk
  last : SizeText
  none_left : last.size = 0
  trailers : List TrailerLine

namespace Chunked

def body (e : Chunked) : List UInt8 := e.chunks.flatMap Chunk.data

def text (e : Chunked) : List UInt8 :=
  e.chunks.flatMap Chunk.line ++ (e.last.text ++ (e.trailers.flatMap TrailerLine.line ++ crlf))

end Chunked

/-- What follows a head: a chunked encoding, whatever length the head declares beside it, or as
many bytes as it declares. -/
inductive Sent
  | chunked (encoding : Chunked) (contentLength : Int)
  | sized (body : List UInt8)

namespace Sent

def body : Sent → List UInt8
  | .chunked encoding _ => encoding.body
  | .sized body => body

def text : Sent → List UInt8
  | .chunked encoding _ => encoding.text
  | .sized body => body

def contentLength : Sent → Int
  | .chunked _ contentLength => contentLength
  | .sized body => body.length

def isChunked : Sent → Bool
  | .chunked _ _ => true
  | .sized _ => false

end Sent

theorem wrapped_of_fits {n : Int} (natural : 0 ≤ n) (fits : n < 9223372036854775808) : wrapped n = n :=
  Int.bmod_eq_of_le (by omega) (by omega)

theorem hexDigit_natural {b : UInt8} {d : Int} (digit : hexDigit b = some d) : 0 ≤ d := by
  unfold hexDigit at digit
  split at digit
  case isTrue low =>
    obtain rfl := Option.some.inj digit
    have := UInt8.le_iff_toNat_le.mp low.1
    simp at this
    omega
  case isFalse =>
    split at digit
    case isTrue low =>
      obtain rfl := Option.some.inj digit
      have := UInt8.le_iff_toNat_le.mp low.1
      simp at this
      omega
    case isFalse =>
      split at digit
      case isTrue low =>
        obtain rfl := Option.some.inj digit
        have := UInt8.le_iff_toNat_le.mp low.1
        simp at this
        omega
      case isFalse => cases digit

theorem hexDigit_off_line {b : UInt8} {d : Int} (digit : hexDigit b = some d) : (isCr b || isLf b) = false := by
  rw [eq_false_iff]
  intro ends
  rcases Bool.or_eq_true_iff.mp ends with cr | lf
  · rw [beq_iff_eq.mp cr] at digit
    cases digit
  · rw [beq_iff_eq.mp lf] at digit
    cases digit

variable {digits : List UInt8}

theorem hexValue_ge (hex : ∀ b ∈ digits, (hexDigit b).isSome = true) {size : Int} (natural : 0 ≤ size) :
    size ≤ hexValue size digits := by
  induction digits generalizing size with
  | nil => exact Int.le_refl _
  | cons b rest ih =>
    obtain ⟨d, digit⟩ := isSome_iff_exists.mp (hex b (.head _))
    have some_d := hexDigit_natural digit
    have later := @ih (fun b at_rest => hex b (.tail _ at_rest)) (size * 16 + d) (by omega)
    change size ≤ hexValue (size * 16 + (hexDigit b).getD 0) rest
    rw [digit]
    exact Int.le_trans (by omega) later

theorem digits_read (hex : ∀ b ∈ digits, (hexDigit b).isSome = true) {size : Int} (natural : 0 ≤ size)
    (fits : hexValue size digits < 9223372036854775808) :
    framing.Reads (.size (.digits size)) digits [] (.size (.digits (hexValue size digits))) := by
  induction digits generalizing size with
  | nil => exact Reads.nil _
  | cons b rest ih =>
    obtain ⟨d, digit⟩ := isSome_iff_exists.mp (hex b (.head _))
    have some_d := hexDigit_natural digit
    have hex' : ∀ b ∈ rest, (hexDigit b).isSome = true := fun b at_rest => hex b (.tail _ at_rest)
    have value : hexValue size (b :: rest) = hexValue (size * 16 + d) rest := by
      change hexValue (size * 16 + (hexDigit b).getD 0) rest = _
      rw [digit]
      rfl
    rw [value] at fits ⊢
    have small := @hexValue_ge rest hex' (size * 16 + d) (by omega)
    have stepped : Phase.next (.size (.digits size)) b = .size (.digits (size * 16 + d)) := by
      simp only [Phase.next, step, digitStep, digit, getD_some, Sum.elim_inl]
      rw [wrapped_of_fits (by omega) (by omega)]
    have one := Reads.one (m := framing) (s := .size (.digits size)) rfl b
    rw [show framing.next (.size (.digits size)) b = _ from stepped] at one
    exact one.trans (ih hex' (by omega) fits)

variable {line : List UInt8}

theorem rest_reads (size : Option Int) (unbroken : ∀ b ∈ line, isLf b = false) :
    framing.Reads (.size (.rest size)) (line ++ [10]) [] (Phase.sizeFound size) := by
  induction line with
  | nil => exact Reads.one (m := framing) (s := .size (.rest size)) rfl 10
  | cons b rest ih =>
    have stepped : Phase.next (.size (.rest size)) b = .size (.rest size) := by
      simp only [Phase.next, step, restStep, unbroken b (.head _), false_eq_true, if_false, Sum.elim_inl]
    have one := Reads.one (m := framing) (s := .size (.rest size)) rfl b
    rw [show framing.next (.size (.rest size)) b = _ from stepped] at one
    exact one.trans (ih fun b at_rest => unbroken b (.tail _ at_rest))

theorem extension_reads (size : Int) (some_line : line ≠ []) (apart : ∀ b ∈ line.head?, hexDigit b = none)
    (unbroken : ∀ b ∈ line, isLf b = false) : framing.Reads (.size (.digits size)) (line ++ [10]) [] (Phase.sizeFound (some size)) := by
  cases line with
  | nil => exact absurd rfl some_line
  | cons b rest =>
    have stepped : Phase.next (.size (.digits size)) b = .size (.rest (some size)) := by
      simp only [Phase.next, step, digitStep, restStep, apart b rfl, unbroken b (.head _),
        false_eq_true, if_false, Sum.elim_inl]
    have one := Reads.one (m := framing) (s := .size (.digits size)) rfl b
    rw [show framing.next (.size (.digits size)) b = _ from stepped] at one
    exact one.trans (rest_reads (some size) fun b at_rest => unbroken b (.tail _ at_rest))

theorem SizeText.reads (t : SizeText) : framing.Reads (.size .lead) t.text [] (Phase.sizeFound (some t.size)) := by
  obtain ⟨b, rest, eq⟩ := exists_cons_of_ne_nil t.some_digit
  have hex := t.hex
  have fits := t.fits
  rw [eq] at hex fits
  obtain ⟨d, digit⟩ := isSome_iff_exists.mp (hex b (.head _))
  have some_d := hexDigit_natural digit
  have hex' : ∀ b ∈ rest, (hexDigit b).isSome = true := fun b at_rest => hex b (.tail _ at_rest)
  have value : hexValue 0 (b :: rest) = hexValue d rest := by
    change hexValue (0 * 16 + (hexDigit b).getD 0) rest = _
    rw [digit, getD_some, Int.zero_mul, Int.zero_add]
  rw [value] at fits
  have small := hexValue_ge hex' some_d
  have stepped : Phase.next (.size .lead) b = .size (.digits d) := by
    simp only [Phase.next, step, hexDigit_off_line digit, false_eq_true, if_false, digitStep, digit,
      getD_none, Int.zero_mul, Int.zero_add, Sum.elim_inl]
    rw [wrapped_of_fits some_d (by omega)]
  have one := Reads.one (m := framing) (s := .size .lead) rfl b
  rw [show framing.next (.size .lead) b = _ from stepped] at one
  have line : ∀ b ∈ t.extension ++ [13], isLf b = false := by
    refine forall_mem_append.mpr ⟨t.unbroken, forall_mem_singleton.mpr ?_⟩
    rfl
  have apart : ∀ b ∈ (t.extension ++ [13]).head?, hexDigit b = none := by
    have front := t.apart
    revert front
    cases t.extension with
    | nil =>
      rintro - b ⟨⟩
      rfl
    | cons x more => exact id
  have whole : t.text = [b] ++ (rest ++ (t.extension ++ [13] ++ [10])) := by
    rw [text, eq, append_assoc]
    rfl
  have size : t.size = hexValue d rest := by rw [SizeText.size, eq, value]
  rw [whole, size]
  exact one.trans ((digits_read hex' some_d fits).trans (extension_reads _ (by simp) apart line))

theorem lead_crlf : framing.Reads (.size .lead) crlf [] (.size .lead) := rfl

theorem Chunk.reads (c : Chunk) : framing.Reads (.size .lead) c.line c.data (.size .lead) := by
  have first := c.toSizeText.reads
  have some_data : 0 < c.data.length := length_pos_of_ne_nil c.some_data
  rw [c.sized, Phase.sizeFound_positive (Int.natCast_pos.mpr some_data), Int.toNat_natCast] at first
  have paid := payload_reads some_data (Nat.le_refl c.data.length)
  rw [if_pos (Nat.le_refl _)] at paid
  have whole := first.trans (paid.trans lead_crlf)
  rwa [append_nil, nil_append] at whole

theorem chunks_read (chunks : List Chunk) :
    framing.Reads (.size .lead) (chunks.flatMap Chunk.line) (chunks.flatMap Chunk.data) (.size .lead) := by
  induction chunks with
  | nil => exact Reads.nil _
  | cons c rest ih =>
    exact c.reads.trans ih

theorem field_reads {field : List UInt8} (unbroken : ∀ b ∈ field, isLf b = false) (hasContent : Bool) :
    framing.Reads (.trailers hasContent) field [] (.trailers (hasContent || field.any fun b => !isCr b)) := by
  induction field generalizing hasContent with
  | nil =>
    rw [any_nil, Bool.or_false]
    exact Reads.nil _
  | cons b rest ih =>
    have stepped : Phase.next (.trailers hasContent) b = .trailers (hasContent || !isCr b) := by
      simp only [Phase.next, trailerStep, unbroken b (.head _), false_eq_true, if_false, Sum.elim_inl]
    have one := Reads.one (m := framing) (s := .trailers hasContent) rfl b
    rw [show framing.next (.trailers hasContent) b = _ from stepped] at one
    rw [any_cons, ← Bool.or_assoc]
    exact one.trans (ih (fun b at_rest => unbroken b (.tail _ at_rest)) _)

theorem TrailerLine.reads (t : TrailerLine) : framing.Reads (.trailers false) t.line [] (.trailers false) := by
  have field := field_reads t.unbroken false
  rw [t.content] at field
  have ends : framing.Reads (.trailers true) crlf [] (.trailers false) := rfl
  exact field.trans ends

theorem trailers_read (trailers : List TrailerLine) :
    framing.Reads (.trailers false) (trailers.flatMap TrailerLine.line ++ crlf) [] .done := by
  induction trailers with
  | nil => rfl
  | cons t rest ih =>
    rw [flatMap_cons, append_assoc]
    exact t.reads.trans ih

theorem Chunked.reads (e : Chunked) : framing.Reads (.size .lead) e.text e.body .done := by
  have last := e.last.reads
  rw [e.none_left] at last
  have whole := (chunks_read e.chunks).trans (last.trans (trailers_read e.trailers))
  rw [append_nil, append_nil] at whole
  exact whole

namespace Sent

/-- The stream that has just been opened on a response. -/
def opened (sent : Sent) (keepAlive : Bool) (peerHost : List UInt8) (peerPort : Int) (buf : List UInt8) (wire : List Item) : HttpStream :=
  .opened sent.contentLength sent.isChunked keepAlive peerHost peerPort buf wire

variable (sent : Sent) (keepAlive : Bool) (peerHost : List UInt8) (peerPort : Int) (buf : List UInt8) (wire : List Item)

theorem opened_reads : framing.Reads (sent.opened keepAlive peerHost peerPort buf wire).phase sent.text sent.body .done := by
  cases sent with
  | chunked encoding contentLength =>
    have open_ : (Sent.chunked encoding contentLength).opened keepAlive peerHost peerPort buf wire =
        ⟨true, false, buf, contentLength, 0, true, 0, keepAlive, false, false, peerHost, peerPort, wire⟩ :=
      if_neg fun closed => Bool.noConfusion closed.2
    rw [open_]
    exact encoding.reads
  | sized body =>
    cases body with
    | nil =>
      have open_ : ((Sent.sized []).opened keepAlive peerHost peerPort buf wire).phase = .done := rfl
      exact Reads.nil _
    | cons b rest =>
      have some_body : ((b :: rest).length : Int) ≠ 0 := Int.natCast_ne_zero.mpr (Nat.succ_ne_zero rest.length)
      have open_ : (Sent.sized (b :: rest)).opened keepAlive peerHost peerPort buf wire =
          ⟨true, false, buf, (b :: rest).length, 0, false, 0, keepAlive, false, false, peerHost, peerPort, wire⟩ := by
        unfold opened HttpStream.opened
        exact if_neg fun closed => some_body closed.1
      have reads := @sized_reads (b :: rest).length (b :: rest) (Nat.succ_pos rest.length) (Nat.le_refl _)
      rw [if_pos (Nat.le_refl _)] at reads
      exact reads

theorem opened_live : (sent.opened keepAlive peerHost peerPort buf wire).Live := by
  unfold opened HttpStream.opened
  split
  case isTrue closed =>
    exact ⟨.inr (Int.le_of_eq closed.1.symm), nofun, nofun, nofun⟩
  case isFalse going =>
    refine ⟨?_, ?_, fun _ _ _ => rfl, nofun⟩
    · cases sent with
      | chunked encoding contentLength => exact .inl rfl
      | sized body => exact .inr (Int.natCast_nonneg _)
    · intro _ sized
      cases sent with
      | chunked encoding contentLength => cases sized
      | sized body =>
        have some_body : (body.length : Int) ≠ 0 := fun none => going ⟨none, rfl⟩
        change (0 : Int) < body.length
        omega

theorem opened_pending : (sent.opened keepAlive peerHost peerPort buf wire).pending = buf ++ arriving wire := by
  unfold opened HttpStream.opened
  split <;> rfl

end Sent
end PlxNative.Http
