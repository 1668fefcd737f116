import PlxNative.Http.ReadCall

/-! A body read to its end past clocks and checkpoints: as long as none of them falls into a
chunk-size line or into the trailers, the bytes of the response alone say what is handed out and
how it ends. -/
namespace PlxNative.Http
open List Scan Machine Phase

def Reply.ends (reply : Reply) : Bool :=
  decide (reply.code ≤ 0) && reply.code != Fired.deadline.code && reply.code != Fired.stopped.code

/-- How far reads have come: what they have handed out, the end they have come to, and the stream
behind them. -/
structure ReadTo where
  given : List UInt8
  ended : Option Int
  stream : HttpStream

/-- Reads one after the other, up to the first that answers with an end. -/
def readOn : List (Wait × Nat) → HttpStream → ReadTo
  | [], hs => ⟨[], none, hs⟩
  | (wait, n) :: later, hs =>
    let (reply, hs) := hs.httpReadUntil wait (n + 1)
    if reply.ends then ⟨reply.bytes, some reply.code, hs⟩
    else
      let rest := readOn later hs
      { rest with given := reply.bytes ++ rest.given }

theorem Reply.going_of {bytes : List UInt8} (some_bytes : bytes ≠ []) : (Reply.of bytes).ends = false := by
  have positive : 0 < bytes.length := length_pos_of_ne_nil some_bytes
  unfold ends Reply.of
  rw [decide_eq_false (Int.not_le.mpr (Int.natCast_pos.mpr positive)), Bool.false_and, Bool.false_and]

theorem Fired.code_negative (fired : Fired) : fired.code < 0 := by cases fired <;> decide

theorem Reply.going_clock {reply : Reply} {fired : Fired} (clock : reply.code = fired.code) : reply.ends = false := by
  unfold ends
  rw [clock]
  cases fired <;> rfl

theorem Reply.going_fired (fired : Fired) : (Reply.none fired.code).ends = false := going_clock rfl

variable {code : Int}

theorem Reply.ends_none (known : code = 0 ∨ code = -1) : (Reply.none code).ends = true := by
  rcases known with rfl | rfl <;> rfl

variable {p : Phase}

theorem Phase.endCode_known (going : p.over_ = false) : p.endCode = 0 ∨ p.endCode = -1 := by
  cases p with
  | size line =>
    unfold endCode
    dsimp only
    cases line.size.isSome with
    | true => exact .inr rfl
    | false => exact .inl rfl
  | payload left => exact .inr rfl
  | trailers hasContent => exact .inr rfl
  | sized left => exact .inr rfl
  | done => cases going
  | broken code => cases going

theorem sizeFound_broken {size : Option Int} (broken : sizeFound size = .broken code) : code = 0 ∨ code = -1 := by
  cases size with
  | none =>
    cases broken
    exact .inl rfl
  | some n =>
    unfold sizeFound at broken
    dsimp only at broken
    split at broken
    case isTrue => cases broken
    case isFalse =>
      split at broken
      case isTrue =>
        cases broken
        exact .inr rfl
      case isFalse => cases broken

theorem Phase.next_broken (going : p.over_ = false) {b : UInt8} (broken : p.next b = .broken code) :
    code = 0 ∨ code = -1 := by
  cases p with
  | size line =>
    unfold next at broken
    dsimp only at broken
    cases stepped : line.step b with
    | inl line' =>
      rw [stepped] at broken
      cases broken
    | inr size =>
      rw [stepped] at broken
      exact sizeFound_broken broken
  | payload left =>
    unfold next at broken
    dsimp only at broken
    split at broken <;> cases broken
  | trailers hasContent =>
    unfold next at broken
    dsimp only at broken
    cases stepped : trailerStep hasContent b with
    | inl hasContent' =>
      rw [stepped] at broken
      cases broken
    | inr found =>
      rw [stepped] at broken
      cases broken
  | sized left =>
    unfold next at broken
    dsimp only at broken
    split at broken <;> cases broken
  | done => cases going
  | broken code => cases going

theorem broken_known (going : p.over_ = false) {taken out : List UInt8}
    (reads : framing.Reads p taken out (.broken code)) : code = 0 ∨ code = -1 := by
  induction taken generalizing p out with
  | nil =>
    cases reads
    cases going
  | cons b rest ih =>
    have stepped : (p.next b).after rest = .broken code := by
      rw [← after_cons]
      exact HttpStream.after_of_reads reads
    cases over_ : (p.next b).over_ with
    | true =>
      refine next_broken going (b := b) (?_ : p.next b = .broken code)
      rw [← stepped]
      exact (congrArg Result.last (run_over (m := framing) over_ rest)).symm
    | false =>
      unfold Reads at reads
      rw [run_cons (m := framing) going] at reads
      injection reads with _ last left
      have later : framing.Reads (p.next b) rest (framing.run (p.next b) rest).out (.broken code) := by
        unfold Reads
        rw [← last, ← left]
        rfl
      exact ih over_ later

namespace HttpStream

/-- What the framing makes of all that is still to come. -/
def verdict (hs : HttpStream) : Result Phase UInt8 UInt8 := framing.run hs.phase hs.pending

variable {taken out : List UInt8}

variable {hs hs' : HttpStream}

theorem Moves.verdict (moves : Moves hs taken out hs') :
    hs.verdict = ⟨out ++ hs'.verdict.out, hs'.verdict.last, hs'.verdict.left⟩ := by
  unfold HttpStream.verdict
  rw [moves.pending]
  exact moves.reads.run_append _

def ahead (hs : HttpStream) : Nat := hs.pending.length + hs.wire.length

theorem Moves.ahead_lt (moves : Moves hs taken out hs')
    (further : taken ≠ [] ∨ hs'.wire.length < hs.wire.length) : hs'.ahead < hs.ahead := by
  have fewer := moves.length_le
  unfold ahead
  rw [moves.pending, length_append]
  rcases further with some_taken | shorter
  · have := length_pos_of_ne_nil some_taken
    omega
  · omega

theorem Moves.some_taken (moves : Moves hs taken out hs') (some_out : out ≠ []) :
    taken ≠ [] := by
  rintro rfl
  have reads := moves.reads
  injection reads with out_nil
  exact some_out out_nil.symm

/-- Reads that have not come to an end, and reads that have. -/
structure ReadsAs (hs : HttpStream) (run : ReadTo) : Prop where
  begins : run.given <+: hs.verdict.out
  going : run.ended = none → Live run.stream ∧ Calm run.stream
  ends : ∀ code, run.ended = some code →
    run.given = hs.verdict.out ∧ code = hs.verdict.last.endCode ∧ run.stream.bodyDone = (hs.verdict.last == .done)

variable {hs : HttpStream}

theorem ReadsAs.behind {mid : HttpStream} {run : ReadTo} (moves : Moves hs taken out mid) (as_ : ReadsAs mid run) :
    ReadsAs hs { run with given := out ++ run.given } := by
  constructor
  case begins =>
    rw [moves.verdict]
    exact (prefix_append_right_inj out).mpr as_.begins
  case going => exact as_.going
  case ends =>
    intro code ended
    obtain ⟨given, eq, done⟩ := as_.ends code ended
    rw [moves.verdict]
    exact ⟨congrArg (out ++ ·) given, eq, done⟩

theorem ReadsAs.at_end {code : Int} (out : hs.verdict.out = []) (eq : hs.verdict.last.endCode = code)
    (done : hs'.bodyDone = (hs.verdict.last == .done)) : ReadsAs hs ⟨[], some code, hs'⟩ := by
  constructor
  case begins => exact nil_prefix
  case going => exact nofun
  case ends =>
    rintro code' ⟨⟩
    exact ⟨out.symm, eq.symm, done⟩

theorem beq_done_of_going {p : Phase} (going : p.over_ = false) : (p == Phase.done) = false := by
  refine beq_eq_false_iff_ne.mpr ?_
  rintro rfl
  cases going

/-- A read that goes on with the body; where a clock has answered, the socket is as it was. -/
structure Onward (hs : HttpStream) (reply : Reply) (hs' : HttpStream) : Prop where
  going : reply.ends = false
  moves : ∃ taken, Moves hs taken reply.bytes hs' ∧ (taken ≠ [] ∨ hs'.wire.length < hs.wire.length)
  untouched : ∀ fired : Fired, reply.code = fired.code →
    reply.bytes = [] ∧ hs'.fd = hs.fd ∧ hs'.keepAlive = hs.keepAlive ∧ hs'.bodyDone = hs.bodyDone

theorem read_cases (live : Live hs) (calm : Calm hs) (wait : Wait) (n : Nat) :
    Onward hs (hs.httpReadUntil wait (n + 1)).1 (hs.httpReadUntil wait (n + 1)).2 ∨
    ((hs.httpReadUntil wait (n + 1)).1.ends = true ∧
      ReadsAs hs ⟨(hs.httpReadUntil wait (n + 1)).1.bytes, some (hs.httpReadUntil wait (n + 1)).1.code, (hs.httpReadUntil wait (n + 1)).2⟩) := by
  cases finished : hs.bodyDone with
  | true =>
    have eq : hs.httpReadUntil wait (n + 1) = (.none 0, hs) := by
      unfold httpReadUntil
      rw [if_neg (by omega), if_pos finished]
    have over_ : hs.verdict = ⟨[], .done, hs.pending⟩ := by
      have phase : hs.phase = .done := if_pos finished
      unfold HttpStream.verdict
      rw [phase]
      exact run_over (m := framing) rfl _
    rw [eq]
    exact .inr ⟨rfl, .at_end (by rw [over_]) (by rw [over_]; rfl) (by rw [over_]; exact finished)⟩
  | false =>
    have reading := @httpReadUntil_spec hs wait (n + 1) (by omega) live finished (.inr calm)
    have going : hs.phase.over_ = false := by
      unfold HttpStream.phase
      rw [finished, if_neg Bool.false_ne_true]
      split
      · split
        · rfl
        · split <;> rfl
      · rfl
    generalize hs.httpReadUntil wait (n + 1) = answer at reading ⊢
    obtain ⟨reply, hs'⟩ := answer
    cases reading with
    | bytes some_out moves =>
      refine .inl ⟨Reply.going_of some_out, ⟨_, moves, .inl (moves.some_taken some_out)⟩, fun fired clock => ?_⟩
      have positive := Int.natCast_pos.mpr (length_pos_of_ne_nil some_out)
      exact absurd clock (Int.ne_of_gt (Int.lt_trans fired.code_negative positive))
    | fired fired moves fd keepAlive bodyDone shorter =>
      exact .inl ⟨Reply.going_fired fired, ⟨_, moves, .inr shorter⟩, fun _ _ => ⟨rfl, fd, keepAlive, bodyDone⟩⟩
    | finished moves done =>
      have over_ : hs'.verdict = ⟨[], .done, hs'.pending⟩ := by
        have phase : hs'.phase = .done := if_pos done
        unfold HttpStream.verdict
        rw [phase]
        exact run_over (m := framing) rfl _
      have eq := moves.verdict
      rw [over_] at eq
      exact .inr ⟨rfl, .at_end (by rw [eq]; rfl) (by rw [eq]; rfl) (by rw [eq]; exact done)⟩
    | @broken taken rest code _ whole reads unfinished =>
      have eq : hs.verdict = ⟨[], .broken code, rest⟩ := by
        unfold HttpStream.verdict
        rw [whole, reads.run_append, run_over (m := framing) rfl, append_nil]
      exact .inr ⟨Reply.ends_none (broken_known going reads), .at_end (by rw [eq]) (by rw [eq]; rfl) (by rw [eq]; exact unfinished)⟩
    | dead reads unended dead =>
      have eq : hs.verdict = ⟨[], _, []⟩ := reads
      refine .inr ⟨Reply.ends_none (endCode_known unended), .at_end (by rw [eq]) (by rw [eq]) ?_⟩
      rw [eq, beq_done_of_going unended]
      exact dead.unfinished

theorem readOn_spec (live : Live hs) (calm : Calm hs) (reads : List (Wait × Nat)) : ReadsAs hs (readOn reads hs) := by
  induction reads generalizing hs with
  | nil => exact ⟨List.nil_prefix, fun _ => ⟨live, calm⟩, nofun⟩
  | cons call later ih =>
    obtain ⟨wait, n⟩ := call
    unfold readOn
    dsimp only
    rcases read_cases live calm wait n with ⟨going, ⟨taken, moves, -⟩, -⟩ | ⟨ends, as_⟩
    · rw [if_neg (Bool.eq_false_iff.mp going)]
      exact (ih moves.live (moves.calm calm)).behind moves
    · rw [if_pos ends]
      exact as_

theorem readOn_ends (live : Live hs) (calm : Calm hs) {reads : List (Wait × Nat)} (many : hs.ahead < reads.length) :
    (readOn reads hs).ended.isSome = true := by
  induction reads generalizing hs with
  | nil => exact absurd many (Nat.not_lt_zero _)
  | cons call later ih =>
    obtain ⟨wait, n⟩ := call
    unfold readOn
    dsimp only
    rcases read_cases live calm wait n with ⟨going, ⟨taken, moves, further⟩, -⟩ | ⟨ends, -⟩
    · rw [if_neg (Bool.eq_false_iff.mp going)]
      have fewer := moves.ahead_lt further
      rw [length_cons] at many
      exact ih moves.live (moves.calm calm) (by omega)
    · rw [if_pos ends]
      rfl

theorem fired_leaves (live : Live hs) (calm : Calm hs) (wait : Wait) (n : Nat) {fired : Fired}
    (answered : (hs.httpReadUntil wait (n + 1)).1.code = fired.code) :
    (hs.httpReadUntil wait (n + 1)).1.bytes = [] ∧ (hs.httpReadUntil wait (n + 1)).2.fd = hs.fd ∧
      (hs.httpReadUntil wait (n + 1)).2.keepAlive = hs.keepAlive ∧ (hs.httpReadUntil wait (n + 1)).2.bodyDone = hs.bodyDone := by
  rcases read_cases live calm wait n with onward | ⟨ends, -⟩
  · exact onward.untouched fired answered
  · rw [Reply.going_clock answered] at ends
    cases ends

/-- Two streams are read to one end, and both come to it. -/
structure ReadAlike (hs hs' : HttpStream) : Prop where
  same : ∀ reads reads' code code', (readOn reads hs).ended = some code → (readOn reads' hs').ended = some code' →
    (readOn reads hs).given = (readOn reads' hs').given ∧ code = code' ∧
      (readOn reads hs).stream.bodyDone = (readOn reads' hs').stream.bodyDone
  begins : ∀ reads reads' code', (readOn reads' hs').ended = some code' → (readOn reads hs).given <+: (readOn reads' hs').given
  ends : ∀ reads, hs.ahead < reads.length → (readOn reads hs).ended.isSome = true
  ends' : ∀ reads, hs'.ahead < reads.length → (readOn reads hs').ended.isSome = true
  untouched : ∀ (reads : List (Wait × Nat)) (wait : Wait) (n : Nat) (fired : Fired), (readOn reads hs).ended = none →
    ((readOn reads hs).stream.httpReadUntil wait (n + 1)).1.code = fired.code →
    ((readOn reads hs).stream.httpReadUntil wait (n + 1)).1.bytes = [] ∧
      ((readOn reads hs).stream.httpReadUntil wait (n + 1)).2.fd = (readOn reads hs).stream.fd ∧
      ((readOn reads hs).stream.httpReadUntil wait (n + 1)).2.keepAlive = (readOn reads hs).stream.keepAlive ∧
      ((readOn reads hs).stream.httpReadUntil wait (n + 1)).2.bodyDone = (readOn reads hs).stream.bodyDone

theorem opened_live {contentLength : Int} {chunked : Bool} (framed : chunked = true ∨ 0 ≤ contentLength) (keepAlive : Bool)
    (peerHost : List UInt8) (peerPort : Int) (buf : List UInt8) (wire : List Item) :
    Live (.opened contentLength chunked keepAlive peerHost peerPort buf wire) := by
  unfold opened
  split
  case isTrue closed => exact ⟨framed, nofun, nofun, nofun⟩
  case isFalse going =>
    refine ⟨framed, fun _ sized => ?_, fun _ _ _ => rfl, nofun⟩
    have sized : chunked = false := sized
    have declared : 0 ≤ contentLength := framed.resolve_left (by rw [sized]; exact Bool.false_ne_true)
    have some_body : contentLength ≠ 0 := fun none => going ⟨none, sized⟩
    change 0 < contentLength
    omega

theorem opened_verdict (contentLength : Int) (chunked keepAlive : Bool) (peerHost : List UInt8) (peerPort : Int) {buf buf' : List UInt8}
    {wire wire' : List Item} (eq : buf ++ arriving wire = buf' ++ arriving wire') :
    (opened contentLength chunked keepAlive peerHost peerPort buf wire).verdict =
      (opened contentLength chunked keepAlive peerHost peerPort buf' wire').verdict := by
  unfold HttpStream.verdict opened
  split
  · exact congrArg (framing.run _) eq
  · exact congrArg (framing.run _) eq

end HttpStream

open HttpStream

/-- Clocks and checkpoints change nothing but the timing of a response's reads, where each falls
inside of a body's data or in front of a chunk-size line. -/
theorem interruptions_only_delay {contentLength : Int} {chunked : Bool} (framed : chunked = true ∨ 0 ≤ contentLength) (keepAlive : Bool)
    (peerHost : List UInt8) (peerPort : Int) {buf buf' : List UInt8} {wire wire' : List Item}
    (same : buf ++ arriving wire = buf' ++ arriving wire')
    (calm : Calm (.opened contentLength chunked keepAlive peerHost peerPort buf wire))
    (calm' : Calm (.opened contentLength chunked keepAlive peerHost peerPort buf' wire')) :
    ReadAlike (.opened contentLength chunked keepAlive peerHost peerPort buf wire)
      (.opened contentLength chunked keepAlive peerHost peerPort buf' wire') := by
  have live := opened_live framed keepAlive peerHost peerPort buf wire
  have live' := opened_live framed keepAlive peerHost peerPort buf' wire'
  have verdict := opened_verdict contentLength chunked keepAlive peerHost peerPort same
  constructor
  case same =>
    intro reads reads' code code' ended ended'
    obtain ⟨given, last, done⟩ := (readOn_spec live calm reads).ends code ended
    obtain ⟨given', last', done'⟩ := (readOn_spec live' calm' reads').ends code' ended'
    rw [given, last, done, given', last', done', verdict]
    exact ⟨rfl, rfl, rfl⟩
  case begins =>
    intro reads reads' code' ended'
    have given' := ((readOn_spec live' calm' reads').ends code' ended').1
    rw [given', ← verdict]
    exact (readOn_spec live calm reads).begins
  case ends => exact fun reads many => readOn_ends live calm many
  case ends' => exact fun reads many => readOn_ends live' calm' many
  case untouched =>
    intro reads wait n fired going answered
    obtain ⟨on, still⟩ := (readOn_spec live calm reads).going going
    exact fired_leaves on still wait n answered

/-- A chunk of three bytes, with a clock that fires behind its first byte. -/
theorem interruptions_only_delay_inside : ReadAlike
    (.opened (-1) true true [] 80 [] [.byte 51, .byte 13, .byte 10, .byte 97, .pause .deadline, .byte 98, .byte 99, .byte 13, .byte 10,
      .byte 48, .byte 13, .byte 10, .byte 13, .byte 10])
    (.opened (-1) true true [] 80 [51, 13, 10, 97, 98, 99, 13, 10, 48, 13, 10, 13, 10] []) :=
  interruptions_only_delay (.inl rfl) true [] 80 rfl ⟨rfl, trivial⟩ trivial

/-- A clock inside of a chunk-size line loses its digits, and one inside of the trailers the socket. -/
theorem interruptions_lose_framing :
    ¬ ReadAlike
      (.opened (-1) true true [] 80 [] [.byte 51, .pause .deadline, .byte 13, .byte 10, .byte 97, .byte 98, .byte 99, .byte 13, .byte 10,
        .byte 48, .byte 13, .byte 10, .byte 13, .byte 10])
      (.opened (-1) true true [] 80 [51, 13, 10, 97, 98, 99, 13, 10, 48, 13, 10, 13, 10] []) ∧
    ¬ ReadAlike
      (.opened (-1) true true [] 80 [] [.byte 48, .byte 13, .byte 10, .pause .stopped, .byte 13, .byte 10])
      (.opened (-1) true true [] 80 [48, 13, 10, 13, 10] []) := by
  constructor
  · intro alike
    have lost := (alike.same [(.clocked, 7), (.clocked, 7), (.clocked, 7)] [(.blocks, 7), (.blocks, 7)] (-1) 0 (by decide) (by decide)).1
    exact absurd lost (by decide)
  · intro alike
    have lost := (alike.same [(.clocked, 7), (.clocked, 7)] [(.blocks, 7)] 0 0 (by decide) (by decide)).2.2
    exact absurd lost (by decide)

end PlxNative.Http
