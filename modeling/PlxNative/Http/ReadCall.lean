import PlxNative.Http.Reading

/-! One spec of the read: whatever it is asked for and however its bytes come, it answers with
the next bytes of the body, with a clock, or with the end the framing has come to. -/
namespace PlxNative.Http
open List Scan Machine Phase

variable {left : Nat} {bytes : List UInt8}

theorem counted_reads {counting : Nat → Phase} {stop : Phase}
    (one : ∀ left b, framing.Reads (counting left) [b] [b] (if left ≤ 1 then stop else counting (left - 1)))
    (some_left : 0 < left) (fits : bytes.length ≤ left) :
    framing.Reads (counting left) bytes bytes (if left ≤ bytes.length then stop else counting (left - bytes.length)) := by
  induction bytes generalizing left with
  | nil =>
    rw [length_nil, if_neg (Nat.not_le_of_lt some_left)]
    exact Reads.nil _
  | cons b rest ih =>
    have first := one left b
    rw [length_cons] at fits ⊢
    by_cases last : left ≤ 1
    · have none_rest : rest = [] := eq_nil_of_length_eq_zero (by omega)
      subst none_rest
      rw [if_pos last] at first
      rw [if_pos (by simpa using last)]
      exact first
    · rw [if_neg last] at first
      have later := @ih (left - 1) (by omega) (by omega)
      have eq : (if left - 1 ≤ rest.length then stop else counting (left - 1 - rest.length)) =
          if left ≤ rest.length + 1 then stop else counting (left - (rest.length + 1)) := by
        by_cases full : left ≤ rest.length + 1
        · rw [if_pos full, if_pos (by omega)]
        · rw [if_neg full, if_neg (by omega), show left - 1 - rest.length = left - (rest.length + 1) by omega]
      rw [eq] at later
      exact first.trans later

theorem payload_reads (some_left : 0 < left) (fits : bytes.length ≤ left) :
    framing.Reads (.payload left) bytes bytes (if left ≤ bytes.length then .size .lead else .payload (left - bytes.length)) :=
  counted_reads (fun left b => Reads.one (m := framing) (s := .payload left) rfl b) some_left fits

theorem sized_reads (some_left : 0 < left) (fits : bytes.length ≤ left) :
    framing.Reads (.sized left) bytes bytes (if left ≤ bytes.length then .done else .sized (left - bytes.length)) :=
  counted_reads (fun left b => Reads.one (m := framing) (s := .sized left) rfl b) some_left fits

namespace HttpStream

variable {hs : HttpStream}

theorem closedOrIdle_of_incomplete (incomplete : hs.bodyIncomplete = true) : hs.closedOrIdleReadResult = -1 := by
  unfold closedOrIdleReadResult
  rw [incomplete, Bool.not_true, Bool.and_false]
  rfl

section
variable (unfinished : hs.bodyDone = false)
include unfinished

theorem incomplete_chunked (chunked : hs.chunked = true) :
    hs.bodyIncomplete = true := by
  unfold bodyIncomplete
  rw [unfinished, chunked]
  rfl

theorem incomplete_sized (sized : 0 ≤ hs.contentLength)
    (short : hs.consumed < hs.contentLength) : hs.bodyIncomplete = true := by
  unfold bodyIncomplete
  rw [unfinished, decide_eq_true sized, decide_eq_true short, Bool.and_self, Bool.or_true]
  rfl

theorem phase_chunk (chunked : hs.chunked = true) (inside : 0 < hs.chunkLeft) :
    hs.phase = .payload hs.chunkLeft.toNat := by
  unfold HttpStream.phase
  rw [unfinished, chunked, if_neg Bool.false_ne_true, if_pos rfl, if_neg (by omega), if_neg (by omega)]

theorem phase_sized (chunked : hs.chunked = false) :
    hs.phase = .sized (hs.contentLength - hs.consumed).toNat := by
  unfold HttpStream.phase
  rw [unfinished, chunked]
  rfl

theorem phase_paid (chunked : hs.chunked = true) (inside : 0 < hs.chunkLeft)
    {bytes : List UInt8} (fits : bytes.length ≤ hs.chunkLeft.toNat) {hs' : HttpStream} (bodyDone : hs'.bodyDone = hs.bodyDone)
    (chunked' : hs'.chunked = hs.chunked) (left : hs'.chunkLeft = hs.chunkLeft - bytes.length) :
    framing.Reads hs.phase bytes bytes hs'.phase := by
  have behind : hs'.phase = if hs.chunkLeft.toNat ≤ bytes.length then .size .lead else .payload (hs.chunkLeft.toNat - bytes.length) := by
    unfold HttpStream.phase
    rw [bodyDone, unfinished, chunked', chunked, if_neg Bool.false_ne_true, if_pos rfl, if_neg (by omega), left]
    by_cases full : hs.chunkLeft.toNat ≤ bytes.length
    · rw [if_pos full, if_pos (by omega)]
    · rw [if_neg full, if_neg (by omega), show (hs.chunkLeft - bytes.length).toNat = hs.chunkLeft.toNat - bytes.length by omega]
  rw [phase_chunk unfinished chunked inside, behind]
  exact payload_reads (by omega) fits

end

theorem took_reads {hs mid : HttpStream} (live : Live hs) (unfinished : hs.bodyDone = false) (chunked : hs.chunked = false)
    {bytes : List UInt8} (fits : (bytes.length : Int) ≤ hs.contentLength - hs.consumed) (frame : mid = { hs with buf := mid.buf, wire := mid.wire, fd := mid.fd })
    (closed : mid.fd = false → arriving mid.wire = []) :
    framing.Reads hs.phase bytes bytes (mid.took bytes).phase ∧ Live (mid.took bytes) := by
  have short := live.short unfinished chunked
  have sized : 0 ≤ hs.contentLength := live.framed.resolve_left (fun on => Bool.noConfusion (chunked.symm.trans on))
  have length : mid.contentLength = hs.contentLength := by rw [frame]
  have consumed : mid.consumed = hs.consumed := by rw [frame]
  have unfinished' : mid.bodyDone = false := by rw [frame]; exact unfinished
  have chunked' : mid.chunked = false := by rw [frame]; exact chunked
  have reads := @sized_reads (hs.contentLength - hs.consumed).toNat bytes (by omega) (by omega)
  rw [phase_sized unfinished chunked]
  unfold took
  dsimp only
  by_cases full : (hs.contentLength - hs.consumed).toNat ≤ bytes.length
  · rw [if_pos full] at reads
    rw [if_pos (by rw [length, consumed]; omega)]
    refine ⟨reads, .inr (by rw [← length] at sized; exact sized), ?_, ?_, ?_⟩ <;> exact fun open_ => Bool.noConfusion open_
  · rw [if_neg full] at reads
    rw [if_neg (by rw [length, consumed]; omega)]
    have behind : phase { mid with consumed := mid.consumed + bytes.length } =
        .sized ((hs.contentLength - hs.consumed).toNat - bytes.length) := by
      unfold HttpStream.phase
      dsimp only
      rw [unfinished', chunked', if_neg Bool.false_ne_true, if_neg Bool.false_ne_true, length, consumed]
      congr 1
      omega
    rw [behind]
    refine ⟨reads, .inr (by rw [← length] at sized; exact sized), ?_, ?_, fun _ => closed⟩
    · intro _ _
      change mid.consumed + _ < mid.contentLength
      omega
    · exact fun _ on => Bool.noConfusion (chunked'.symm.trans on)

theorem took_buf (hs : HttpStream) (bytes : List UInt8) : (hs.took bytes).buf = hs.buf ∧ (hs.took bytes).wire = hs.wire := by
  unfold took
  dsimp only
  split <;> exact ⟨rfl, rfl⟩

/-- Bytes off the buffer, and more of them off the socket where it has not enough. -/
structure Grabs (hs : HttpStream) (want : Nat) (more : List UInt8) (wire : List Item) : Prop where
  eaten : ∃ eaten, hs.wire = eaten ++ wire ∧ arriving eaten = more
  fits : more.length ≤ want - (hs.buf.take want).length

/-- The bytes of a chunk a read gets, which stops short only where it is stopped. -/
structure Gets (hs : HttpStream) (want : Nat) (more : List UInt8) (stop : Stop) (wire : List Item) : Prop where
  grabs : Grabs hs want more wire
  full : stop = .full → hs.fd = true → more.length = want - (hs.buf.take want).length
  eof : stop = .eof → wire = []
  shorter : ∀ fired, stop = .waits fired → wire.length < hs.wire.length
  closed : hs.fd = false → more = [] ∧ wire = hs.wire ∧ stop = .full

theorem gets_spec (hs : HttpStream) (wait : Wait) (want : Nat) : ∀ {more stop wire},
    (if hs.fd then fillItems wait (want - (hs.buf.take want).length) hs.wire else (([], .full), hs.wire)) = ((more, stop), wire) →
    Gets hs want more stop wire := by
  intro more stop wire got
  cases openFd : hs.fd with
  | false =>
    rw [openFd, if_neg Bool.false_ne_true] at got
    cases got
    exact ⟨⟨⟨[], rfl, rfl⟩, Nat.zero_le _⟩, fun _ on => Bool.noConfusion (openFd.symm.trans on), nofun, nofun, fun _ => ⟨rfl, rfl, rfl⟩⟩
  | true =>
    rw [openFd, if_pos rfl] at got
    obtain ⟨eaten, whole, eq, short, of⟩ := fillItems_spec wait (want - (hs.buf.take want).length) hs.wire
    rw [got] at whole eq short of
    refine ⟨⟨⟨eaten, whole, eq⟩, short⟩, ?_, ?_, ?_, fun off => Bool.noConfusion (off.symm.trans openFd)⟩
    · rintro rfl _
      exact of
    · rintro rfl
      exact of
    · rintro fired rfl
      exact of.shorter whole

variable {want : Nat} {more : List UInt8} {wire : List Item}

theorem Grabs.held (grabs : Grabs hs want more wire) :
    hs.buf ++ more = (hs.buf.take want ++ more) ++ hs.buf.drop want := by
  by_cases deep : want ≤ hs.buf.length
  · have none_more : more = [] := eq_nil_of_length_eq_zero (by
      have fits := grabs.fits
      rw [length_take, Nat.min_eq_left deep] at fits
      omega)
    rw [none_more, append_nil, append_nil, take_append_drop]
  · have shallow : hs.buf.length ≤ want := Nat.le_of_lt (Nat.lt_of_not_le deep)
    rw [take_of_length_le shallow, drop_of_length_le shallow, append_nil]

theorem Grabs.length_le (grabs : Grabs hs want more wire) : (hs.buf.take want ++ more).length ≤ want := by
  have fits := grabs.fits
  rw [length_append]
  have front : (hs.buf.take want).length ≤ want := length_take_le _ _
  omega

theorem Grabs.moves (grabs : Grabs hs want more wire)
    (live : Live hs) (unfinished : hs.bodyDone = false) (chunked : hs.chunked = true) (inside : 0 < hs.chunkLeft)
    (fits : want ≤ hs.chunkLeft.toNat) {got : List UInt8} (eq : hs.buf.take want ++ more = got) (fd : Bool) (open_ : fd = false → arriving wire = [])
    (consumed : Int) : Moves hs got got { hs with buf := hs.buf.drop want, wire := wire, fd := fd, chunkLeft := hs.chunkLeft - got.length, consumed := consumed } := by
  obtain ⟨eaten, whole, arrived⟩ := grabs.eaten
  have length : got.length ≤ hs.chunkLeft.toNat := eq ▸ Nat.le_trans grabs.length_le fits
  constructor
  case eaten => exact ⟨eaten, whole, by rw [arrived, ← eq, grabs.held]⟩
  case reads => exact phase_paid unfinished chunked inside length rfl rfl rfl
  case live => exact ⟨.inl chunked, fun _ off => Bool.noConfusion (off.symm.trans chunked), fun _ _ _ => live.blank unfinished chunked (by omega), fun _ => open_⟩

variable {n : Nat}

theorem readChunk_spec (wait : Wait) (some_n : n ≠ 0) (live : Live hs) (unfinished : hs.bodyDone = false)
    (chunked : hs.chunked = true) (inside : 0 < hs.chunkLeft) : Reading hs (hs.readChunk wait n).1 (hs.readChunk wait n).2 := by
  have some_want : min n hs.chunkLeft.toNat ≠ 0 := by omega
  have fits : min n hs.chunkLeft.toNat ≤ hs.chunkLeft.toNat := Nat.min_le_right _ _
  unfold readChunk
  dsimp only
  cases filled : (if hs.fd then fillItems wait (min n hs.chunkLeft.toNat - (hs.buf.take (min n hs.chunkLeft.toNat)).length) hs.wire
      else (([], Stop.full), hs.wire)) with
  | mk pair wire =>
    obtain ⟨more, stop⟩ := pair
    have gets := gets_spec hs wait (min n hs.chunkLeft.toNat) filled
    generalize min n hs.chunkLeft.toNat = want at some_want fits gets
    have open_ : (hs.fd && stop != .eof) = false → arriving wire = [] := by
      intro shut
      rcases Bool.and_eq_false_iff.mp shut with off | ended
      · rw [(gets.closed off).2.1]
        exact live.ended unfinished off
      · rw [gets.eof (by simpa using ended)]
        rfl
    by_cases nothing : hs.buf.take want ++ more = []
    · obtain ⟨none_front, none_more⟩ := append_eq_nil_iff.mp nothing
      have empty : hs.buf = [] := (take_eq_nil_iff.mp none_front).resolve_left some_want
      have still := gets.grabs.moves live unfinished chunked inside fits nothing (hs.fd && stop != .eof) open_ hs.consumed
      rw [length_nil, Int.ofNat_zero, Int.sub_zero] at still
      rw [nothing]
      cases stop with
      | waits fired => exact .fired fired still (Bool.and_true _) rfl rfl (gets.shorter fired rfl)
      | eof =>
        have silent : hs.pending = [] := by
          obtain ⟨eaten, whole, arrived⟩ := gets.grabs.eaten
          rw [HttpStream.pending, empty, whole, arriving_append, arrived, none_more, gets.eof rfl]
          rfl
        have dead : Dead { hs with buf := hs.buf.drop want, wire := wire, fd := hs.fd && Stop.eof != Stop.eof } :=
          ⟨Bool.and_false _, by rw [empty, drop_nil], by rw [gets.eof rfl]; rfl, unfinished⟩
        exact .unread silent (by rw [phase_chunk unfinished chunked inside]; exact ⟨rfl, rfl⟩) dead
      | full =>
        have off : hs.fd = false := by
          refine Bool.eq_false_iff.mpr fun on => ?_
          have enough := gets.full rfl on
          rw [none_more, none_front] at enough
          exact some_want enough.symm
        have silent : hs.pending = [] := by
          rw [HttpStream.pending, empty, live.ended unfinished off]
          rfl
        have dead : Dead { hs with buf := hs.buf.drop want, wire := wire, fd := hs.fd && Stop.full != Stop.eof } :=
          ⟨by rw [off]; rfl, by rw [empty, drop_nil], by rw [(gets.closed off).2.1]; exact live.ended unfinished off, unfinished⟩
        have code : closedOrIdleReadResult { hs with buf := hs.buf.drop want, wire := wire, fd := hs.fd && Stop.full != Stop.eof } = -1 :=
          closedOrIdle_of_incomplete (incomplete_chunked unfinished chunked)
        rw [code]
        exact .unread silent (by rw [phase_chunk unfinished chunked inside]; exact ⟨rfl, rfl⟩) dead
    · have moves := fun consumed => gets.grabs.moves live unfinished chunked inside fits rfl (hs.fd && stop != .eof) open_ consumed
      obtain ⟨b, rest, eq⟩ := exists_cons_of_ne_nil nothing
      rw [eq] at moves ⊢
      cases stop <;> exact .bytes (cons_ne_nil _ _) (moves _)

theorem phase_lead (unfinished : hs.bodyDone = false) (chunked : hs.chunked = true) (none_left : hs.chunkLeft = 0) :
    hs.phase = .size .lead := by
  unfold HttpStream.phase
  rw [unfinished, chunked, if_neg Bool.false_ne_true, if_pos rfl, if_neg (by omega), if_pos none_left]

theorem phase_trailers (unfinished : hs.bodyDone = false) (chunked : hs.chunked = true) (behind : hs.chunkLeft < 0) :
    hs.phase = .trailers hs.trailerLineHasContent := by
  unfold HttpStream.phase
  rw [unfinished, chunked, if_neg Bool.false_ne_true, if_pos rfl, if_pos behind]

variable {taken : List UInt8}

theorem finish_moves {hs mid : HttpStream} (chunked : hs.chunked = true) (takes : Takes hs taken mid)
    (reads : framing.Reads hs.phase taken [] .done) (flag : Bool) : Moves hs taken [] (finishBody { mid with trailerLineHasContent := flag }) := by
  refine ⟨takes.eaten, reads, ⟨.inl (takes.chunked.trans chunked), ?_, ?_, ?_⟩⟩ <;> exact fun open_ => Bool.noConfusion open_

theorem size_moves {hs mid : HttpStream} (live : Live hs) (unfinished : hs.bodyDone = false) (chunked : hs.chunked = true)
    (none_left : hs.chunkLeft = 0) (takes : Takes hs taken mid) (fd : mid.fd = hs.fd) {size : Int} (some_size : 0 < size)
    (reads : framing.Reads (.size .lead) taken [] (.payload size.toNat)) : Moves hs taken [] { mid with chunkLeft := size } := by
  have unfinished' := takes.bodyDone.trans unfinished
  have chunked' := takes.chunked.trans chunked
  constructor
  case eaten => exact takes.eaten
  case reads =>
    have inside : phase { mid with chunkLeft := size } = .payload size.toNat := phase_chunk unfinished' chunked' some_size
    rw [phase_lead unfinished chunked none_left, inside]
    exact reads
  case live =>
    refine ⟨.inl chunked', fun _ off => Bool.noConfusion (off.symm.trans chunked'), fun _ _ _ => ?_, fun _ off => ?_⟩
    · exact takes.trailerLineHasContent.trans (live.blank unfinished chunked (by omega))
    · exact takes.silent (live.ended unfinished (fd.symm.trans off))

theorem readChunk_spent (wait : Wait) (n : Nat) (spent : Spent hs) (unfinished : hs.bodyDone = false)
    (chunked : hs.chunked = true) : (hs.readChunk wait n).1 = .none (-1) ∧ Dead (hs.readChunk wait n).2 := by
  have off := spent.fd
  unfold readChunk
  simp only [off, spent.buf, take_nil, drop_nil]
  exact ⟨congrArg Reply.none (closedOrIdle_of_incomplete (incomplete_chunked unfinished chunked)), rfl, rfl, spent.wire, unfinished⟩

section
variable {hs mid : HttpStream} {taken : List UInt8} (wait : Wait) {n : Nat}

theorem readChunked_stopped (some_n : n ≠ 0) (live : Live hs) (unfinished : hs.bodyDone = false) (chunked : hs.chunked = true)
    (none_left : hs.chunkLeft = 0) (calmly : Calmly wait (.size .lead) hs) {size : Option Int} (eq : hs.nextChunk wait = (.ok size, mid))
    (takes : Takes hs taken mid) (fd : mid.fd = hs.fd) (reads : framing.Reads (.size .lead) taken [] (sizeFound size)) :
    Reading hs (hs.readChunked wait n).1 (hs.readChunked wait n).2 := by
  have lead := phase_lead unfinished chunked none_left
  have unfinished' := takes.bodyDone.trans unfinished
  unfold readChunked
  rw [if_neg (by omega), if_pos none_left, eq]
  cases size with
  | none => exact .broken takes.pending (lead ▸ reads) unfinished'
  | some size =>
    dsimp only
    rcases Int.lt_trichotomy size 0 with negative | rfl | positive
    · rw [sizeFound_negative negative] at reads
      rw [if_neg (by omega), if_pos negative]
      exact .broken takes.pending (lead ▸ reads) unfinished'
    · have blank' := takes.trailerLineHasContent.trans (live.blank unfinished chunked (by omega))
      have closed' : mid.fd = false → arriving mid.wire = [] := fun off => takes.silent (live.ended unfinished (fd.symm.trans off))
      have calmly' : Calmly wait (.trailers mid.trailerLineHasContent) mid := by
        rw [blank']
        exact calmly.takes takes reads
      rw [if_pos rfl]
      rcases readTrailers_spec wait closed' unfinished' calmly' with ⟨taken', mid', takes', reads', same'⟩ | ⟨hasContent, reads', code, dead⟩
      · rw [same']
        rw [blank'] at reads'
        exact .finished (finish_moves chunked (takes.trans takes') (lead ▸ reads.trans reads') false) rfl
      · rw [code]
        rw [blank'] at reads'
        have whole : framing.Reads hs.phase hs.pending [] (.trailers hasContent) := by
          rw [lead, takes.pending]
          exact reads.trans reads'
        exact .dead whole rfl dead
    · rw [sizeFound_positive positive] at reads
      rw [if_neg (by omega), if_neg (by omega)]
      have moves := size_moves live unfinished chunked none_left takes fd positive reads
      have reading := readChunk_spec wait some_n moves.live unfinished' (takes.chunked.trans chunked) positive
      exact reading.behind moves fd takes.keepAlive takes.bodyDone

theorem readChunked_ended (unfinished : hs.bodyDone = false) (chunked : hs.chunked = true) (none_left : hs.chunkLeft = 0)
    {line : SizeLine} (eq : hs.nextChunk wait = (.ok line.size, mid)) (takes : Takes hs taken mid) (spent : Spent mid)
    (reads : framing.Reads (.size .lead) hs.pending [] (.size line)) :
    Reading hs (hs.readChunked wait n).1 (hs.readChunked wait n).2 := by
  have unfinished' := takes.bodyDone.trans unfinished
  rw [← phase_lead unfinished chunked none_left] at reads
  have abandoned : Dead mid.abandoned := ⟨rfl, spent.buf, spent.wire, unfinished'⟩
  unfold readChunked
  rw [if_neg (by omega), if_pos none_left, eq]
  cases known : line.size with
  | none =>
    have dead := Reading.dead reads rfl abandoned
    rwa [endCode_unsized known] at dead
  | some size =>
    have dead : ∀ {hs' : HttpStream}, Dead hs' → Reading hs (.none (-1)) hs' := by
      intro hs' dead
      have reading := Reading.dead reads rfl dead
      rwa [endCode_sized known] at reading
    dsimp only
    by_cases zero : size = 0
    · rw [if_pos zero]
      obtain ⟨reply, over_⟩ := readTrailers_spent wait spent unfinished'
      rw [reply]
      exact dead over_
    · rw [if_neg zero]
      by_cases negative : size < 0
      · rw [if_pos negative]
        exact dead abandoned
      · rw [if_neg negative]
        have spent' : Spent { mid with chunkLeft := size } := ⟨spent.fd, spent.buf, spent.wire⟩
        obtain ⟨reply, over_⟩ := readChunk_spent wait n spent' unfinished' (takes.chunked.trans chunked)
        rw [reply]
        exact dead over_

theorem readChunked_fired (live : Live hs) (unfinished : hs.bodyDone = false) (chunked : hs.chunked = true) (none_left : hs.chunkLeft = 0)
    {fired : Fired} (eq : hs.nextChunk wait = (.error fired, mid)) (takes : Takes hs taken mid) (fd : mid.fd = hs.fd)
    (shorter : mid.wire.length < hs.wire.length) (reads : framing.Reads (.size .lead) taken [] (.size .lead)) :
    Reading hs (hs.readChunked wait n).1 (hs.readChunked wait n).2 := by
  have unfinished' := takes.bodyDone.trans unfinished
  have chunked' := takes.chunked.trans chunked
  have blank' := takes.trailerLineHasContent.trans (live.blank unfinished chunked (by omega))
  have moves : Moves hs taken [] mid := by
    refine ⟨takes.eaten, ?_, .inl chunked', fun _ off => Bool.noConfusion (off.symm.trans chunked'), fun _ _ _ => blank',
      fun _ off => takes.silent (live.ended unfinished (fd.symm.trans off))⟩
    rw [phase_lead unfinished chunked none_left, phase_lead unfinished' chunked' (takes.chunkLeft.trans none_left)]
    exact reads
  unfold readChunked
  rw [if_neg (by omega), if_pos none_left, eq]
  exact .fired fired moves fd takes.keepAlive takes.bodyDone shorter

end

theorem readChunked_spec (wait : Wait) (some_n : n ≠ 0) (live : Live hs) (unfinished : hs.bodyDone = false)
    (chunked : hs.chunked = true) (calmly : Calmly wait hs.phase hs) : Reading hs (hs.readChunked wait n).1 (hs.readChunked wait n).2 := by
  have closed := live.ended unfinished
  rcases Int.lt_trichotomy hs.chunkLeft 0 with behind | none_left | inside
  · unfold readChunked
    rw [if_pos behind]
    have trailers := phase_trailers unfinished chunked behind
    rw [trailers] at calmly
    rcases readTrailers_spec wait closed unfinished calmly with ⟨taken, mid, takes, reads, eq⟩ | ⟨hasContent, reads, code, dead⟩
    · rw [eq]
      exact .finished (finish_moves chunked takes (trailers ▸ reads) false) rfl
    · rw [code]
      rw [← trailers] at reads
      exact .dead reads rfl dead
  · rw [phase_lead unfinished chunked none_left] at calmly
    rcases nextChunk_spec wait closed calmly with
      ⟨size, taken, mid, eq, takes, fd, reads⟩ | ⟨line, mid, eq, takes, spent, reads⟩ | ⟨fired, taken, mid, eq, takes, fd, shorter, reads⟩
    · exact readChunked_stopped wait some_n live unfinished chunked none_left calmly eq takes fd reads
    · exact readChunked_ended wait unfinished chunked none_left eq takes spent reads
    · exact readChunked_fired wait live unfinished chunked none_left eq takes fd shorter reads
  · unfold readChunked
    rw [if_neg (by omega), if_neg (by omega)]
    exact readChunk_spec wait some_n live unfinished chunked inside

theorem readSized_spec (wait : Wait) (some_n : n ≠ 0) (live : Live hs) (unfinished : hs.bodyDone = false)
    (chunked : hs.chunked = false) : Reading hs (hs.readSized wait n).1 (hs.readSized wait n).2 := by
  have short := live.short unfinished chunked
  have sized : 0 ≤ hs.contentLength := live.framed.resolve_left (fun on => Bool.noConfusion (chunked.symm.trans on))
  have incomplete := incomplete_sized unfinished sized short
  have stands : hs.phase.over_ = false ∧ hs.phase.endCode = -1 := by
    rw [phase_sized unfinished chunked]
    exact ⟨rfl, rfl⟩
  unfold readSized
  by_cases off : hs.fd = false ∧ hs.buf = []
  · obtain ⟨off, empty⟩ := off
    have silent := live.ended unfinished off
    rw [if_pos (by rw [off, empty]; rfl), closedOrIdle_of_incomplete incomplete]
    exact .unread (by rw [HttpStream.pending, empty, silent]; rfl) stands ⟨off, empty, silent, unfinished⟩
  · have take : bodyTake n (hs.contentLength - hs.consumed) = min n (hs.contentLength - hs.consumed).toNat := if_neg (by omega)
    rw [if_neg (by simpa using off), if_neg (by omega), if_pos sized, take]
    rw [if_neg (by omega)]
    have some_want : min n (hs.contentLength - hs.consumed).toNat ≠ 0 := by omega
    have fits : ((min n (hs.contentLength - hs.consumed).toNat : Nat) : Int) ≤ hs.contentLength - hs.consumed := by omega
    generalize min n (hs.contentLength - hs.consumed).toNat = want at some_want fits
    by_cases empty : hs.buf = []
    · have on : hs.fd = true := by
        cases shut : hs.fd with
        | true => rfl
        | false => exact absurd ⟨shut, empty⟩ off
      rw [if_neg (by simp [empty]), if_neg (by simp [on])]
      unfold recv
      obtain ⟨eaten, wire, of⟩ := recvItems_spec wait some_want hs.wire
      cases received : recvItems wait want hs.wire with
      | mk got rest =>
        rw [received] at wire of
        have still : arriving eaten = [] → Moves hs [] [] { hs with wire := rest } := fun silent =>
          ⟨⟨eaten, wire, by rw [silent, append_nil]; rfl⟩, Reads.nil _, live.framed, live.short, live.blank,
            fun _ shut => Bool.noConfusion (shut.symm.trans on)⟩
        cases got with
        | bytes bytes =>
          obtain ⟨arrived, some_bytes, few⟩ := of
          have moved := @took_reads hs { hs with wire := rest } live unfinished chunked bytes (by omega) rfl
            (fun shut => Bool.noConfusion (shut.symm.trans on))
          have taken := took_buf { hs with wire := rest } bytes
          refine .bytes some_bytes ⟨⟨eaten, ?_, ?_⟩, moved.1, moved.2⟩
          · exact taken.2 ▸ wire
          · change hs.buf ++ arriving eaten = bytes ++ (took { hs with wire := rest } bytes).buf
            rw [taken.1, arrived, empty, append_nil]
            rfl
        | eof =>
          obtain ⟨silent, rfl⟩ := of
          have gone : hs.pending = [] := by
            rw [HttpStream.pending, empty, wire, arriving_append, silent]
            rfl
          dsimp only [Prod.map, id]
          rw [if_pos ⟨sized, short⟩]
          exact .unread gone stands ⟨rfl, empty, rfl, unfinished⟩
        | waits fired => exact .fired fired (still of.1) rfl rfl rfl (of.2.shorter wire)
    · rw [if_pos (by simpa using empty)]
      have few : (hs.buf.take want).length ≤ want := length_take_le _ _
      have moved := @took_reads hs { hs with buf := hs.buf.drop want } live unfinished chunked (hs.buf.take want) (by omega) rfl
        (live.ended unfinished)
      have taken := took_buf { hs with buf := hs.buf.drop want } (hs.buf.take want)
      have some_bytes : hs.buf.take want ≠ [] := fun none => (take_eq_nil_iff.mp none).elim some_want empty
      refine .bytes some_bytes ⟨⟨[], ?_, ?_⟩, moved.1, moved.2⟩
      · rw [taken.2]
        rfl
      · rw [taken.1, arriving_nil, append_nil, take_append_drop]

theorem httpReadUntil_spec (wait : Wait) {n : Int} (some_n : 0 < n) (live : Live hs) (unfinished : hs.bodyDone = false)
    (calmly : Calmly wait hs.phase hs) : Reading hs (hs.httpReadUntil wait n).1 (hs.httpReadUntil wait n).2 := by
  unfold httpReadUntil
  rw [if_neg (by omega), if_neg (by simp [unfinished])]
  cases chunked : hs.chunked with
  | true => exact readChunked_spec wait (by omega) live unfinished chunked calmly
  | false => exact readSized_spec wait (by omega) live unfinished chunked

end HttpStream
end PlxNative.Http
