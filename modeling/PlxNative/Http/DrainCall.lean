import PlxNative.Http.ReadCall

/-! One spec of the drain, which takes what is queued and never waits: the same bytes through the
same framing, as long as a chunked response is not taken for one of a declared length. -/
namespace PlxNative.Http
open List Scan Machine SizeLine

namespace HttpStream

/-- What a drain answers, and how it leaves the stream. -/
inductive Draining (hs : HttpStream) : Reply → HttpStream → Prop
  | moved {taken out hs'} (code : Int) : Moves hs taken out hs' → Draining hs ⟨code, out⟩ hs'
  | broken {taken rest code hs'} (reply : Int) : hs.pending = taken ++ rest → framing.Reads hs.phase taken [] (.broken code) →
      Draining hs (.none reply) hs'
  | dead {p hs'} (reply : Int) : framing.Reads hs.phase hs.pending [] p → p.over_ = false → Dead hs' → Draining hs (.none reply) hs'

/-- A chunked response whose declared length, which means nothing, has been reached. -/
structure Misframed (hs : HttpStream) : Prop where
  unfinished : hs.bodyDone = false
  readable : hs.fd = true ∨ hs.buf ≠ []
  chunked : hs.chunked = true
  declared : 0 ≤ hs.contentLength
  reached : hs.contentLength ≤ hs.consumed

theorem Draining.behind {hs mid hs' : HttpStream} {taken : List UInt8} {reply : Reply} (moves : Moves hs taken [] mid)
    (draining : Draining mid reply hs') : Draining hs reply hs' := by
  cases draining with
  | moved code moved => exact .moved code (moves.trans moved)
  | broken reply whole reads => exact .broken reply (by rw [moves.pending, whole, ← append_assoc]) (moves.reads.trans reads)
  | dead reply reads going dead =>
    refine .dead reply ?_ going dead
    rw [moves.pending]
    exact moves.reads.trans reads

variable {hs : HttpStream}

theorem Moves.refl (live : Live hs) : Moves hs [] [] hs := ⟨⟨[], rfl, append_nil _⟩, Reads.nil _, live⟩

theorem fillBufDontwait_takes (hs : HttpStream) : Takes hs [] hs.fillBufDontwait ∧
    (hs.fillBufDontwait.fd = false → hs.fd = false ∨ arriving hs.fillBufDontwait.wire = []) := by
  have still : Takes hs [] hs := ⟨rfl, [], rfl, append_nil _⟩
  unfold fillBufDontwait
  dsimp only
  split
  case isTrue => exact ⟨still, .inl⟩
  case isFalse able =>
    have space : capacity - hs.buf.length ≠ 0 := by
      intro full
      rw [full] at able
      exact able rfl
    unfold recv
    obtain ⟨eaten, wire, of⟩ := recvItems_spec .now space hs.wire
    cases received : recvItems .now (capacity - hs.buf.length) hs.wire with
    | mk got rest =>
      rw [received] at wire of
      cases got with
      | bytes bytes => exact ⟨⟨rfl, eaten, wire, by rw [of.1]; rfl⟩, .inl⟩
      | eof => exact ⟨⟨rfl, eaten, wire, by rw [of.1, append_nil]; rfl⟩, fun _ => .inr (congrArg arriving of.2)⟩
      | waits fired => exact ⟨⟨rfl, eaten, wire, by rw [of.1, append_nil]; rfl⟩, .inl⟩

theorem Takes.moves {hs mid : HttpStream} (takes : Takes hs [] mid) (live : Live hs)
    (shut : mid.fd = false → hs.fd = false ∨ arriving mid.wire = []) : Moves hs [] [] mid := by
  have length : mid.contentLength = hs.contentLength := by rw [takes.frame]
  have consumed : mid.consumed = hs.consumed := by rw [takes.frame]
  have eq : mid.phase = hs.phase := by rw [takes.frame]; rfl
  refine ⟨takes.eaten, eq ▸ Reads.nil _, ?_, ?_, ?_, ?_⟩
  · rw [takes.chunked, length]
    exact live.framed
  · rw [takes.bodyDone, takes.chunked, length, consumed]
    exact live.short
  · rw [takes.bodyDone, takes.chunked, takes.chunkLeft, takes.trailerLineHasContent]
    exact live.blank
  · rw [takes.bodyDone]
    intro unfinished off
    exact (shut off).elim (fun off => takes.silent (live.ended unfinished off)) id

theorem finishChunkedTrailersDontwait_spec (live : Live hs) (unfinished : hs.bodyDone = false) (chunked : hs.chunked = true)
    (behind : hs.chunkLeft < 0) : Draining hs hs.finishChunkedTrailersDontwait.1 hs.finishChunkedTrailersDontwait.2 := by
  obtain ⟨filled, shut⟩ := fillBufDontwait_takes hs
  have moved := filled.moves live shut
  unfold finishChunkedTrailersDontwait
  generalize hs.fillBufDontwait = full at filled moved
  have unfinished' := filled.bodyDone.trans unfinished
  have chunked' := filled.chunked.trans chunked
  have behind' : full.chunkLeft < 0 := filled.chunkLeft ▸ behind
  have trailers := phase_trailers unfinished' chunked' behind'
  have ends := scan_spec trailers_embed full (moved.live.ended unfinished') .now full.trailerLineHasContent
  unfold skipChunkedTrailers
  cases scanned : full.scan trailerStep .now full.trailerLineHasContent with
  | mk found mid =>
    rw [scanned] at ends
    cases found with
    | stopped found =>
      obtain ⟨taken, takes, -, reads⟩ := ends
      rw [← trailers] at reads
      exact .behind moved (.moved 0 (finish_moves chunked' takes reads false))
    | ended hasContent =>
      obtain ⟨takes, -, buf, reads⟩ := ends
      rw [← trailers] at reads
      have gone := takes.emptied
      exact .behind moved (.dead (-1) reads rfl ⟨rfl, buf, gone, takes.bodyDone.trans unfinished'⟩)
    | waits fired hasContent =>
      obtain ⟨taken, eaten, takes, fd, -, -, -, paused, reads⟩ := ends
      rw [← trailers] at reads
      obtain rfl := paused.now
      have chunked'' := takes.chunked.trans chunked'
      have later : phase { mid with trailerLineHasContent := hasContent } = .trailers hasContent :=
        phase_trailers (takes.bodyDone.trans unfinished') chunked'' (takes.chunkLeft ▸ behind')
      refine .behind moved (@Draining.moved _ taken _ _ 0 ⟨takes.eaten, later ▸ reads, .inl chunked'', ?_, ?_, ?_⟩)
      · exact fun _ off => Bool.noConfusion (off.symm.trans chunked'')
      · exact fun _ _ front => absurd front (Int.not_le.mpr (takes.chunkLeft ▸ behind'))
      · exact fun _ off => takes.silent (moved.live.ended unfinished' (fd.symm.trans off))

theorem queued_spec {want : Nat} {received : Recv} {wire : List Item}
    (got : (if hs.fd && decide ((hs.buf.take want).length < want) then recvItems .now (want - (hs.buf.take want).length) hs.wire
      else (.waits .deadline, hs.wire)) = (received, wire)) :
    Grabs hs want received.brought wire ∧ (received = .eof → wire = []) ∧
      (hs.fd = false → wire = hs.wire ∧ received ≠ .eof) := by
  split at got
  case isTrue able =>
    obtain ⟨on, few⟩ := Bool.and_eq_true_iff.mp able
    have few := of_decide_eq_true few
    have some_want : want - (hs.buf.take want).length ≠ 0 := by omega
    obtain ⟨eaten, whole, of⟩ := recvItems_spec .now some_want hs.wire
    rw [got] at whole of
    cases received with
    | bytes bytes => exact ⟨⟨⟨eaten, whole, of.1⟩, of.2.2⟩, nofun, fun off => Bool.noConfusion (off.symm.trans on)⟩
    | eof => exact ⟨⟨⟨eaten, whole, of.1⟩, Nat.zero_le _⟩, fun _ => of.2, fun off => Bool.noConfusion (off.symm.trans on)⟩
    | waits fired => exact ⟨⟨⟨eaten, whole, of.1⟩, Nat.zero_le _⟩, nofun, fun off => Bool.noConfusion (off.symm.trans on)⟩
  case isFalse =>
    cases got
    exact ⟨⟨⟨[], rfl, rfl⟩, Nat.zero_le _⟩, nofun, fun _ => ⟨rfl, nofun⟩⟩

theorem drainBody_spec {room : Nat} (some_room : room ≠ 0) (live : Live hs) (unfinished : hs.bodyDone = false)
    (inside : hs.chunked = true → 0 < hs.chunkLeft) : Draining hs (hs.drainBody room).1 (hs.drainBody room).2 := by
  obtain ⟨want, asked, some_want, within, ofChunk, ofBody⟩ : ∃ want,
      (if hs.chunked then bodyTake room hs.chunkLeft else if 0 ≤ hs.contentLength then bodyTake room (hs.contentLength - hs.consumed) else room) = want ∧
        want ≠ 0 ∧ want ≤ room ∧ (hs.chunked = true → want ≤ hs.chunkLeft.toNat) ∧
        (hs.chunked = false → (want : Int) ≤ hs.contentLength - hs.consumed) := by
    cases chunked : hs.chunked with
    | true =>
      have left := inside chunked
      have take : bodyTake room hs.chunkLeft = min room hs.chunkLeft.toNat := if_neg (by omega)
      exact ⟨_, rfl, by rw [if_pos rfl, take]; omega, by rw [if_pos rfl, take]; omega, fun _ => by rw [if_pos rfl, take]; omega, nofun⟩
    | false =>
      have short := live.short unfinished chunked
      have sized : 0 ≤ hs.contentLength := live.framed.resolve_left (fun on => Bool.noConfusion (chunked.symm.trans on))
      have take : bodyTake room (hs.contentLength - hs.consumed) = min room (hs.contentLength - hs.consumed).toNat := if_neg (by omega)
      refine ⟨min room (hs.contentLength - hs.consumed).toNat, ?_, by omega, by omega, nofun, fun _ => by omega⟩
      rw [if_neg Bool.false_ne_true, if_pos sized, take]
  unfold drainBody
  dsimp only
  rw [asked, if_neg some_want, Nat.min_eq_right within]
  cases filled : (if hs.fd && decide ((hs.buf.take want).length < want) then recvItems .now (want - (hs.buf.take want).length) hs.wire
      else (Recv.waits Fired.deadline, hs.wire)) with
  | mk received wire =>
    obtain ⟨grabs, eof, closed⟩ := queued_spec filled
    have open_ : (hs.fd && received != .eof) = false → arriving wire = [] := by
      intro shut
      rcases Bool.and_eq_false_iff.mp shut with off | ended
      · rw [(closed off).1]
        exact live.ended unfinished off
      · rw [eof (by simpa using ended)]
        rfl
    have length := grabs.length_le
    have held := grabs.held
    obtain ⟨eaten, whole, arrived⟩ := grabs.eaten
    generalize received.brought = more at grabs arrived held length
    by_cases nothing : hs.buf.take want ++ more = []
    · rw [if_pos nothing]
      rw [nothing] at held
      refine .moved _ ⟨⟨eaten, whole, by rw [arrived, held]⟩, Reads.nil _, live.framed, live.short, live.blank, fun _ => open_⟩
    · rw [if_neg nothing]
      by_cases chunked : hs.chunked = true
      · rw [if_pos chunked]
        exact .moved _ (grabs.moves live unfinished chunked (inside chunked) (ofChunk chunked) rfl _ open_ _)
      · have sized : hs.chunked = false := Bool.eq_false_iff.mpr chunked
        have fits := ofBody sized
        rw [if_neg chunked]
        have moved := @took_reads hs { hs with buf := hs.buf.drop want, wire := wire, fd := hs.fd && received != .eof } live unfinished
          sized (hs.buf.take want ++ more) (by omega) rfl open_
        have taken := took_buf { hs with buf := hs.buf.drop want, wire := wire, fd := hs.fd && received != .eof } (hs.buf.take want ++ more)
        refine .moved _ ⟨⟨eaten, ?_, ?_⟩, moved.1, moved.2⟩
        · rw [taken.2]
          exact whole
        · rw [taken.1, arrived, held]

theorem restStep_line (size : Option Int) (b : UInt8) : (∃ found, restStep size b = .inr found) ∨
    ∃ line, line ≠ .lead ∧ restStep size b = .inl line ∧ isLf b = false := by
  unfold restStep
  cases ends : isLf b with
  | true => exact .inl ⟨size, rfl⟩
  | false => exact .inr ⟨.rest size, nofun, rfl, rfl⟩

theorem digitStep_line (size : Option Int) (b : UInt8) : (∃ found, digitStep size b = .inr found) ∨
    ∃ line, line ≠ .lead ∧ digitStep size b = .inl line ∧ isLf b = false := by
  unfold digitStep
  cases digit : hexDigit b with
  | none => exact restStep_line size b
  | some d =>
    refine .inr ⟨.digits (wrapped (size.getD 0 * 16 + d)), nofun, rfl, Bool.eq_false_iff.mpr fun ends => ?_⟩
    rw [beq_iff_eq.mp ends] at digit
    cases digit

theorem step_line {line : SizeLine} (inside : line ≠ .lead) (b : UInt8) : (∃ found, line.step b = .inr found) ∨
    ∃ line', line' ≠ .lead ∧ line.step b = .inl line' ∧ isLf b = false := by
  cases line with
  | lead => exact absurd rfl inside
  | digits size => exact digitStep_line (some size) b
  | rest size => exact restStep_line size b

theorem feed_line {line : SizeLine} (inside : line ≠ .lead) {bytes : List UInt8} (ready : bytes.any isLf = true) :
    ∃ size rest, feed step bytes line = (.inr size, rest) := by
  induction bytes generalizing line with
  | nil => cases ready
  | cons b rest ih =>
    unfold feed
    rcases step_line inside b with ⟨size, found⟩ | ⟨line', inside', on, calm⟩
    · rw [found]
      exact ⟨size, rest, rfl⟩
    · rw [on]
      rw [any_cons, calm, Bool.false_or] at ready
      exact ih inside' ready

theorem feed_ready {bytes : List UInt8} (ready : (bytes.dropWhile (fun b => isCr b || isLf b)).any isLf = true) :
    ∃ size rest, feed step bytes .lead = (.inr size, rest) := by
  induction bytes with
  | nil => cases ready
  | cons b rest ih =>
    unfold feed
    cases skipped : isCr b || isLf b with
    | true =>
      have stepped : SizeLine.lead.step b = .inl .lead := if_pos skipped
      rw [dropWhile_cons, if_pos skipped] at ready
      rw [stepped]
      exact ih ready
    | false =>
      have stepped : SizeLine.lead.step b = digitStep none b := if_neg (by rw [skipped]; exact Bool.false_ne_true)
      rw [dropWhile_cons, if_neg (by rw [skipped]; exact Bool.false_ne_true), any_cons] at ready
      rw [stepped]
      rcases digitStep_line none b with ⟨size, found⟩ | ⟨line', inside', on, calm⟩
      · rw [found]
        exact ⟨size, rest, rfl⟩
      · rw [calm, Bool.false_or] at ready
        rw [on]
        exact feed_line inside' ready

theorem nextChunk_ready (ready : hs.chunkSizeLineReady = true) :
    ∃ size taken mid, hs.nextChunk .now = (.ok size, mid) ∧ Takes hs taken mid ∧ mid.fd = hs.fd ∧
      framing.Reads (.size .lead) taken [] (Phase.sizeFound size) := by
  obtain ⟨size, rest, found⟩ := feed_ready ready
  obtain ⟨taken, whole, reads, -⟩ := size_embeds.feed hs.buf .lead
  rw [found] at whole reads
  have eq : hs.scan step .now .lead = (.stopped size, { hs with buf := rest }) := by
    unfold scan
    rw [found]
  refine ⟨size, taken, { hs with buf := rest }, ?_, ⟨rfl, [], rfl, (append_nil _).trans whole⟩, rfl, reads⟩
  unfold nextChunk
  rw [eq]

theorem drainSizeLine_spec {room : Nat} (some_room : room ≠ 0) (live : Live hs) (unfinished : hs.bodyDone = false)
    (chunked : hs.chunked = true) (none_left : hs.chunkLeft = 0) (ready : hs.chunkSizeLineReady = true) :
    Draining hs (hs.drainSizeLine room).1 (hs.drainSizeLine room).2 := by
  obtain ⟨size, taken, mid, eq, takes, fd, reads⟩ := nextChunk_ready ready
  have lead := phase_lead unfinished chunked none_left
  have unfinished' := takes.bodyDone.trans unfinished
  have chunked' := takes.chunked.trans chunked
  unfold drainSizeLine
  rw [eq]
  cases size with
  | none => exact .broken (-1) takes.pending (lead ▸ reads)
  | some size =>
    dsimp only
    rcases Int.lt_trichotomy size 0 with negative | rfl | positive
    · rw [Phase.sizeFound_negative negative] at reads
      rw [if_neg (by omega), if_pos negative]
      exact .broken (-1) takes.pending (lead ▸ reads)
    · have blank := live.blank unfinished chunked (by omega)
      have moves : Moves hs taken [] { mid with chunkLeft := -1 } := by
        have behind : phase { mid with chunkLeft := -1 } = .trailers mid.trailerLineHasContent :=
          phase_trailers unfinished' chunked' (Int.negSucc_lt_zero 0)
        refine ⟨takes.eaten, ?_, .inl chunked', fun _ off => Bool.noConfusion (off.symm.trans chunked'),
          fun _ _ front => absurd front (Int.not_le.mpr (Int.negSucc_lt_zero 0)), fun _ off => takes.silent (live.ended unfinished (fd.symm.trans off))⟩
        rw [behind, takes.trailerLineHasContent, blank, lead]
        exact reads
      exact .behind moves (finishChunkedTrailersDontwait_spec moves.live unfinished' chunked' (Int.negSucc_lt_zero 0))
    · rw [Phase.sizeFound_positive positive] at reads
      rw [if_neg (by omega), if_neg (by omega)]
      have moves := size_moves live unfinished chunked none_left takes fd positive reads
      exact .behind moves (drainBody_spec some_room moves.live unfinished' fun _ => positive)

theorem httpDrainAvailable_spec (room : Nat) (live : Live hs) (framed : ¬ Misframed hs) :
    Draining hs (hs.httpDrainAvailable room).1 (hs.httpDrainAvailable room).2 := by
  unfold httpDrainAvailable
  by_cases idle : room = 0 ∨ hs.bodyDone = true
  · rw [if_pos (by simpa using idle)]
    exact .moved 0 (.refl live)
  · rw [if_neg (by simpa using idle)]
    obtain ⟨some_room, undone⟩ := not_or.mp idle
    have unfinished := Bool.eq_false_iff.mpr undone
    by_cases off : hs.fd = false ∧ hs.buf = []
    · rw [if_pos (by rw [off.1, off.2]; rfl)]
      exact .moved _ (.refl live)
    · rw [if_neg (by simpa using off)]
      have readable : hs.fd = true ∨ hs.buf ≠ [] := by
        cases on : hs.fd with
        | true => exact .inl rfl
        | false => exact .inr fun empty => off ⟨on, empty⟩
      have unreached : ¬ (0 ≤ hs.contentLength ∧ hs.contentLength ≤ hs.consumed) := by
        rintro ⟨declared, reached⟩
        cases chunked : hs.chunked with
        | true => exact framed ⟨unfinished, readable, chunked, declared, reached⟩
        | false => exact absurd (live.short unfinished chunked) (by omega)
      rw [if_neg unreached]
      cases chunked : hs.chunked with
      | false =>
        exact drainBody_spec some_room live unfinished fun on => Bool.noConfusion (chunked.symm.trans on)
      | true =>
        rcases Int.lt_trichotomy hs.chunkLeft 0 with behind | none_left | inside
        · rw [if_pos (by simpa using behind)]
          exact finishChunkedTrailersDontwait_spec live unfinished chunked behind
        · rw [if_neg (by simp [none_left]), if_pos (by simp [none_left])]
          by_cases ready : hs.chunkSizeLineReady = true
          · rw [if_pos ready]
            exact drainSizeLine_spec some_room live unfinished chunked none_left ready
          · rw [if_neg ready]
            obtain ⟨filled, shut⟩ := fillBufDontwait_takes hs
            have moves := filled.moves live shut
            by_cases ready' : hs.fillBufDontwait.chunkSizeLineReady = true
            · rw [if_pos ready']
              exact .behind moves (drainSizeLine_spec some_room moves.live (filled.bodyDone.trans unfinished)
                (filled.chunked.trans chunked) (filled.chunkLeft.trans none_left) ready')
            · rw [if_neg ready']
              split <;> exact .moved _ moves
        · rw [if_neg (by simp; omega), if_neg (by simp; omega)]
          exact drainBody_spec some_room live unfinished fun _ => inside

end HttpStream
end PlxNative.Http
