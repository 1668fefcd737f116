import PlxNative.Http.Encoding
import PlxNative.Http.DrainCall

/-! A response read and drained by turns: what its calls hand out is its body and nothing else, as
long as no drain takes a chunked response for one of a declared length. -/
namespace PlxNative.Http
open List Scan Machine
attribute [local instance (high)] List.decidableBAll Option.decidableForallMem

namespace HttpStream

theorem Dead.read {hs : HttpStream} (dead : Dead hs) (wait : Wait) (n : Int) :
    (hs.httpReadUntil wait n).1.bytes = [] ∧ Dead (hs.httpReadUntil wait n).2 := by
  have spent : Spent hs := ⟨dead.fd, dead.buf, dead.wire⟩
  unfold httpReadUntil
  by_cases none_asked : n ≤ 0
  · rw [if_pos none_asked]
    exact ⟨rfl, dead⟩
  · rw [if_neg none_asked, if_neg (by simp [dead.unfinished])]
    have trailers : ∀ {mid : HttpStream}, Spent mid → mid.bodyDone = false →
        (mid.readTrailers wait).1.bytes = [] ∧ Dead (mid.readTrailers wait).2 := by
      intro mid spent unfinished
      obtain ⟨reply, dead⟩ := readTrailers_spent wait spent unfinished
      rw [reply]
      exact ⟨rfl, dead⟩
    cases chunked : hs.chunked with
    | true =>
      rw [if_pos rfl]
      unfold readChunked
      by_cases behind : hs.chunkLeft < 0
      · rw [if_pos behind]
        exact trailers spent dead.unfinished
      · rw [if_neg behind]
        by_cases none_left : hs.chunkLeft = 0
        · have eq : hs.nextChunk wait = (.ok none, { hs with buf := [] }) := by
            simp only [nextChunk, scan, dead.buf, feed, dead.fd, Bool.false_eq_true, if_false, SizeLine.size]
          rw [if_pos none_left, eq]
          exact ⟨rfl, rfl, rfl, dead.wire, dead.unfinished⟩
        · rw [if_neg none_left]
          obtain ⟨reply, over_⟩ := readChunk_spent wait n.toNat spent dead.unfinished chunked
          rw [reply]
          exact ⟨rfl, over_⟩
    | false =>
      rw [if_neg Bool.false_ne_true]
      unfold readSized
      rw [if_pos (by rw [dead.fd, dead.buf]; rfl)]
      exact ⟨rfl, dead⟩

theorem Dead.drain {hs : HttpStream} (dead : Dead hs) (room : Nat) :
    (hs.httpDrainAvailable room).1.bytes = [] ∧ Dead (hs.httpDrainAvailable room).2 := by
  unfold httpDrainAvailable
  split
  case isTrue => exact ⟨rfl, dead⟩
  case isFalse =>
    rw [if_pos (by rw [dead.fd, dead.buf]; rfl)]
    exact ⟨rfl, dead⟩

/-- Where a stream stands whose calls have handed this out of these bytes: in step with the
framing, or behind a socket that has ended inside of it. -/
inductive Stands (start : Phase) (bytes given : List UInt8) (hs : HttpStream) : Prop
  | live {taken} : bytes = taken ++ hs.pending → framing.Reads start taken given hs.phase → Live hs → Stands start bytes given hs
  | dead {p} : framing.Reads start bytes given p → p.over_ = false → Dead hs → Stands start bytes given hs

/-- Bytes that the framing reads without breaking off. -/
def Unbroken (start : Phase) (bytes : List UInt8) : Prop :=
  ∀ taken rest out code, bytes = taken ++ rest → ¬ framing.Reads start taken out (.broken code)

theorem Stands.moved {start : Phase} {bytes given out taken taken' : List UInt8} {hs hs' : HttpStream} (whole : bytes = taken ++ hs.pending)
    (reads : framing.Reads start taken given hs.phase) (moves : Moves hs taken' out hs') : Stands start bytes (given ++ out) hs' := by
  refine @Stands.live _ _ _ _ (taken ++ taken') ?_ (reads.trans moves.reads) moves.live
  rw [whole, moves.pending, append_assoc]

section
variable {start : Phase} {bytes given : List UInt8} {hs : HttpStream}

theorem Stands.still {out : List UInt8} (stands : Stands start bytes given hs) (nothing : out = []) : Stands start bytes (given ++ out) hs := by
  rw [nothing, append_nil]
  exact stands

theorem Stands.read (unbroken : Unbroken start bytes) (stands : Stands start bytes given hs) (n : Int) :
    Stands start bytes (given ++ (hs.httpReadUntil .blocks n).1.bytes) (hs.httpReadUntil .blocks n).2 := by
  cases stands with
  | dead reads going dead =>
    obtain ⟨nothing, dead'⟩ := dead.read .blocks n
    rw [nothing, append_nil]
    exact .dead reads going dead'
  | live whole reads live =>
    by_cases none_asked : n ≤ 0
    · have eq : hs.httpReadUntil .blocks n = (.none (if n = 0 then 0 else -1), hs) := if_pos none_asked
      rw [eq]
      exact (Stands.live whole reads live).still rfl
    · by_cases finished : hs.bodyDone = true
      · have eq : hs.httpReadUntil .blocks n = (.none 0, hs) := by
          unfold httpReadUntil
          rw [if_neg none_asked, if_pos finished]
        rw [eq]
        exact (Stands.live whole reads live).still rfl
      · have reading := httpReadUntil_spec .blocks (Int.not_le.mp none_asked) live (Bool.eq_false_iff.mpr finished) (.inl rfl)
        generalize hs.httpReadUntil .blocks n = answer at reading ⊢
        obtain ⟨reply, hs'⟩ := answer
        cases reading with
        | bytes _ moves => exact .moved whole reads moves
        | fired fired moves => exact .moved whole reads moves
        | finished moves => exact .moved whole reads moves
        | broken pending broken =>
          exact absurd (reads.trans broken) (unbroken _ _ _ _ (by rw [whole, pending, append_assoc]))
        | dead ends going dead => exact .dead (whole ▸ reads.trans ends) going dead

theorem Stands.drain (unbroken : Unbroken start bytes) (stands : Stands start bytes given hs) {room : Nat}
    (framed : room ≠ 0 → ¬ Misframed hs) :
    Stands start bytes (given ++ (hs.httpDrainAvailable room).1.bytes) (hs.httpDrainAvailable room).2 := by
  cases stands with
  | dead reads going dead =>
    obtain ⟨nothing, dead'⟩ := dead.drain room
    rw [nothing, append_nil]
    exact .dead reads going dead'
  | live whole reads live =>
    by_cases none_asked : room = 0
    · have eq : hs.httpDrainAvailable room = (.none 0, hs) := if_pos (by rw [decide_eq_true none_asked]; rfl)
      rw [eq]
      exact (Stands.live whole reads live).still rfl
    · have draining := httpDrainAvailable_spec room live (framed none_asked)
      generalize hs.httpDrainAvailable room = answer at draining ⊢
      obtain ⟨reply, hs'⟩ := answer
      cases draining with
      | moved code moves => exact .moved whole reads moves
      | broken reply pending broken =>
        exact absurd (reads.trans broken) (unbroken _ _ _ _ (by rw [whole, pending, append_assoc]))
      | dead reply ends going dead => exact .dead (whole ▸ reads.trans ends) going dead

end

end HttpStream

/-- A response on a connection, which may end anywhere: what came with its head, and what the
socket brings. -/
structure Exchange where
  sent : Sent
  keepAlive : Bool
  peerHost : List UInt8
  peerPort : Int
  buf : List UInt8
  wire : List Item
  further : List UInt8
  carries : buf ++ arriving wire <+: sent.text ++ further

namespace Exchange

def stream (x : Exchange) : HttpStream := x.sent.opened x.keepAlive x.peerHost x.peerPort x.buf x.wire

def bytes (x : Exchange) : List UInt8 := x.buf ++ arriving x.wire

theorem reads (x : Exchange) : framing.Reads x.stream.phase x.sent.text x.sent.body .done := x.sent.opened_reads ..

theorem unbroken (x : Exchange) : HttpStream.Unbroken x.stream.phase x.bytes := by
  intro taken rest out code whole broken
  obtain ⟨later, eq⟩ := x.carries
  have ends := broken.ends_once rfl x.reads rfl (c := rest ++ later) (d := x.further) (by rw [← append_assoc, ← whole]; exact eq)
  cases ends.2.2

end Exchange

/-- A call that waits on no clock and at no checkpoint. -/
def Call.Unclocked : Call → Prop
  | .read wait _ => wait = .blocks
  | .drain _ => True

/-- No drain of a chunked response whose declared length is reached. -/
def Call.Framed (hs : HttpStream) : Call → Prop
  | .read _ _ => True
  | .drain room => room ≠ 0 → ¬ hs.Misframed

/-- One call after another, and all that they hand out. -/
inductive Called (allowed : HttpStream → Call → Prop) (start : HttpStream) : List UInt8 → HttpStream → Prop
  | start : Called allowed start [] start
  | call {given hs} (call : Call) : Called allowed start given hs → allowed hs call →
      Called allowed start (given ++ (call.on hs).1.bytes) (call.on hs).2

structure Exact (x : Exchange) (given : List UInt8) (hs : HttpStream) : Prop where
  begins : given <+: x.sent.body
  whole : hs.bodyDone = true → given = x.sent.body
  over_ : hs.bodyDone = true → (∀ wait n, 0 ≤ n → hs.httpReadUntil wait n = (.none 0, hs)) ∧ ∀ room, hs.httpDrainAvailable room = (.none 0, hs)
  apart : ∀ host port, hs.canReuse host port = true → x.bytes = x.sent.text ++ arriving hs.wire
  cut : ¬ x.sent.text <+: x.bytes → hs.bodyDone = false

theorem Exchange.stands (x : Exchange) {given : List UInt8} {hs : HttpStream}
    (called : Called (fun hs call => call.Unclocked ∧ call.Framed hs) x.stream given hs) :
    HttpStream.Stands x.stream.phase x.bytes given hs := by
  induction called with
  | start =>
    refine @HttpStream.Stands.live _ _ _ _ [] ?_ (Reads.nil _) (x.sent.opened_live ..)
    exact (x.sent.opened_pending ..).symm
  | call call _ allowed ih =>
    cases call with
    | read wait n =>
      obtain rfl : wait = .blocks := allowed.1
      exact ih.read x.unbroken n
    | drain room => exact ih.drain x.unbroken allowed.2

theorem HttpStream.phase_done {hs : HttpStream} (finished : hs.bodyDone = true) : hs.phase = .done := if_pos finished

theorem Exchange.ended (x : Exchange) {taken rest given : List UInt8} (whole : x.bytes = taken ++ rest)
    (reads : framing.Reads x.stream.phase taken given .done) : taken = x.sent.text ∧ given = x.sent.body := by
  obtain ⟨later, eq⟩ := x.carries
  have ends := reads.ends_once rfl x.reads rfl (c := rest ++ later) (d := x.further) (by rw [← append_assoc, ← whole]; exact eq)
  exact ⟨ends.1, ends.2.1⟩

theorem Exchange.begins (x : Exchange) {taken rest given : List UInt8} {p : Phase} (whole : x.bytes = taken ++ rest)
    (reads : framing.Reads x.stream.phase taken given p) : given <+: x.sent.body := by
  obtain ⟨later, eq⟩ := x.carries
  exact reads.out_begins x.reads rfl (c := rest ++ later) (d := x.further) (by rw [← append_assoc, ← whole]; exact eq)

/-- Reads and drains in any order hand out the body of the response, in whatever pieces its bytes
arrive, when no drain takes a chunked response for one of a declared length. -/
theorem body_exact (x : Exchange) {given : List UInt8} {hs : HttpStream}
    (called : Called (fun hs call => call.Unclocked ∧ call.Framed hs) x.stream given hs) : Exact x given hs := by
  have over_ : hs.bodyDone = true → (∀ wait n, 0 ≤ n → hs.httpReadUntil wait n = (.none 0, hs)) ∧
      ∀ room, hs.httpDrainAvailable room = (.none 0, hs) := by
    intro finished
    constructor
    · intro wait n natural
      unfold HttpStream.httpReadUntil
      by_cases none_asked : n ≤ 0
      · rw [if_pos none_asked, if_pos (Int.le_antisymm none_asked natural)]
      · rw [if_neg none_asked, if_pos finished]
    · intro room
      exact if_pos (by rw [finished, Bool.or_true])
  cases x.stands called with
  | live whole reads live =>
    have at_end : hs.bodyDone = true → _ := fun finished => x.ended whole (HttpStream.phase_done finished ▸ reads)
    constructor
    case begins => exact x.begins whole reads
    case whole => exact fun finished => (at_end finished).2
    case over_ => exact over_
    case apart =>
      intro host port reusable
      simp only [HttpStream.canReuse, Bool.and_eq_true, List.isEmpty_iff] at reusable
      obtain ⟨⟨⟨-, finished⟩, empty⟩, -⟩ := reusable
      have taken := (at_end finished).1
      rw [whole, taken, HttpStream.pending, empty]
      rfl
    case cut =>
      intro cut
      refine Bool.eq_false_iff.mpr fun finished => cut ?_
      rw [whole, (at_end finished).1]
      exact prefix_append _ _
  | dead reads going dead =>
    have unfinished := dead.unfinished
    constructor
    case begins => exact x.begins (append_nil _).symm reads
    case whole => exact fun finished => Bool.noConfusion (unfinished.symm.trans finished)
    case over_ => exact over_
    case apart =>
      intro host port reusable
      unfold HttpStream.canReuse at reusable
      rw [dead.fd] at reusable
      cases reusable
    case cut => exact fun _ => unfinished

def oneChunk : Chunked where
  chunks := [⟨⟨[51], [], by decide, by decide, by decide, by decide, by decide⟩, [97, 98, 99], by decide, by decide⟩]
  last := ⟨[48], [], by decide, by decide, by decide, by decide, by decide⟩
  none_left := by decide
  trailers := []

/-- They arrive as this, behind a head that declares a length beside. -/
def Exchange.ofChunk (contentLength : Int) : Exchange where
  sent := .chunked oneChunk contentLength
  keepAlive := true
  peerHost := []
  peerPort := 80
  buf := [51, 13, 10, 97, 98, 99, 13, 10, 48, 13, 10, 13, 10]
  wire := []
  further := []
  carries := ⟨[], rfl⟩

theorem body_exact_of_chunk :
    Exact (.ofChunk (-1)) ([] ++ ((Call.read .blocks 2).on (Exchange.ofChunk (-1)).stream).1.bytes ++
        ((Call.drain 2).on ((Call.read .blocks 2).on (Exchange.ofChunk (-1)).stream).2).1.bytes)
      ((Call.drain 2).on ((Call.read .blocks 2).on (Exchange.ofChunk (-1)).stream).2).2 :=
  body_exact (.ofChunk (-1)) ((Called.start.call (.read .blocks 2) ⟨rfl, trivial⟩).call (.drain 2)
    ⟨trivial, fun _ misframed => absurd misframed.declared (by decide)⟩)

/-- A declared length of two ends the body behind two bytes of the chunk's three. -/
theorem declared_length_ends_chunk : ¬ ∀ (x : Exchange) (given : List UInt8) (hs : HttpStream),
    Called (fun _ call => call.Unclocked) x.stream given hs → Exact x given hs := by
  intro exact_
  have called : Called (fun _ call => call.Unclocked) (Exchange.ofChunk 2).stream _ _ :=
    (Called.start.call (.drain 2) trivial).call (.drain 2) trivial
  have whole := (exact_ _ _ _ called).whole (by decide)
  exact absurd whole (by decide)

end PlxNative.Http
