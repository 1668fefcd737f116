import PlxNative.Http.Framing

/-! What a read does to a stream: it takes bytes off it, moves it through the framing by exactly
these, and hands out what they decode to. -/
namespace PlxNative.Http
open List Scan Machine Phase

namespace HttpStream

/-- Where a stream stands between two calls. -/
def phase (hs : HttpStream) : Phase :=
  if hs.bodyDone then .done
  else if hs.chunked then
    if hs.chunkLeft < 0 then .trailers hs.trailerLineHasContent
    else if hs.chunkLeft = 0 then .size .lead
    else .payload hs.chunkLeft.toNat
  else .sized (hs.contentLength - hs.consumed).toNat

/-- The bytes the stream has not decoded yet, as far as they will come. -/
def pending (hs : HttpStream) : List UInt8 := hs.buf ++ arriving hs.wire

/-- A stream that is read in step with its framing. -/
structure Live (hs : HttpStream) : Prop where
  framed : hs.chunked = true ∨ 0 ≤ hs.contentLength
  short : hs.bodyDone = false → hs.chunked = false → hs.consumed < hs.contentLength
  blank : hs.bodyDone = false → hs.chunked = true → 0 ≤ hs.chunkLeft → hs.trailerLineHasContent = false
  ended : hs.bodyDone = false → hs.fd = false → arriving hs.wire = []

/-- Everything has been read and the body is not complete. -/
structure Dead (hs : HttpStream) : Prop where
  fd : hs.fd = false
  buf : hs.buf = []
  wire : arriving hs.wire = []
  unfinished : hs.bodyDone = false

/-- Every pause in front of a stream stands where a call can be interrupted. -/
def Calm (hs : HttpStream) : Prop := Harmless (hs.phase.after hs.buf) hs.wire

/-- Bytes taken from the front of the buffer and of the socket. -/
structure Takes (hs : HttpStream) (taken : List UInt8) (hs' : HttpStream) : Prop where
  frame : hs' = { hs with buf := hs'.buf, wire := hs'.wire, fd := hs'.fd }
  eaten : ∃ eaten, hs.wire = eaten ++ hs'.wire ∧ hs.buf ++ arriving eaten = taken ++ hs'.buf

variable {hs : HttpStream} {taken : List UInt8}

theorem Takes.pending {hs' : HttpStream} (takes : Takes hs taken hs') :
    hs.pending = taken ++ hs'.pending := by
  obtain ⟨eaten, wire, held⟩ := takes.eaten
  unfold HttpStream.pending
  rw [wire, arriving_append, ← append_assoc, held, append_assoc]

theorem Takes.trans {a b c : HttpStream} {s t : List UInt8} (first : Takes a s b) (second : Takes b t c) : Takes a (s ++ t) c := by
  obtain ⟨eaten, wire, held⟩ := first.eaten
  obtain ⟨eaten', wire', held'⟩ := second.eaten
  constructor
  case frame =>
    rw [second.frame, first.frame]
  case eaten =>
    refine ⟨eaten ++ eaten', by rw [wire, wire', append_assoc], ?_⟩
    rw [arriving_append, ← append_assoc, held, append_assoc, held', append_assoc]

/-- A stream moved by a call: through the framing as by the bytes it has taken. -/
structure Moves (hs : HttpStream) (taken out : List UInt8) (hs' : HttpStream) : Prop where
  eaten : ∃ eaten, hs.wire = eaten ++ hs'.wire ∧ hs.buf ++ arriving eaten = taken ++ hs'.buf
  reads : framing.Reads hs.phase taken out hs'.phase
  live : Live hs'

variable {out : List UInt8}

theorem Moves.pending {hs' : HttpStream} (moves : Moves hs taken out hs') :
    hs.pending = taken ++ hs'.pending := by
  obtain ⟨eaten, wire, held⟩ := moves.eaten
  unfold HttpStream.pending
  rw [wire, arriving_append, ← append_assoc, held, append_assoc]

theorem after_of_reads {p p' : Phase} (reads : framing.Reads p taken out p') : p.after taken = p' :=
  congrArg Result.last reads

theorem Moves.calm {hs' : HttpStream} (moves : Moves hs taken out hs') (calm : Calm hs) : Calm hs' := by
  obtain ⟨eaten, wire, held⟩ := moves.eaten
  unfold Calm at calm ⊢
  rw [wire, harmless_append, ← after_append, held, after_append, after_of_reads moves.reads] at calm
  exact calm.2

/-- What a scan makes of the bytes it takes, for a machine it is inside of. -/
def ScanOf {σ ρ : Type} (state : σ → Phase) (after : ρ → Phase) (wait : Wait) (s : σ) (eaten rest : List Item) :
    Scanned σ ρ Fired → Prop
  | .stopped found => framing.Reads (state s) (arriving eaten) [] (after found)
  | .ended s' => framing.Reads (state s) (arriving eaten) [] (state s') ∧ rest = []
  | .waits fired s' => framing.Reads (state s) (arriving eaten) [] (state s') ∧ Paused wait fired eaten

section
variable {σ ρ : Type} {step : σ → UInt8 → σ ⊕ ρ} {state : σ → Phase} {after : ρ → Phase}
variable {wait : Wait} {found : Scanned σ ρ Fired}

theorem ScanOf.aside {s : σ} {eaten rest : List Item} {item : Item} (silent : arriving [item] = [])
    (of : ScanOf state after wait s eaten rest found) : ScanOf state after wait s (item :: eaten) rest found := by
  have eq : arriving (item :: eaten) = arriving eaten := by
    rw [← singleton_append, arriving_append, silent]
    rfl
  cases found with
  | stopped r =>
    unfold ScanOf at of ⊢
    rwa [eq]
  | ended s' =>
    unfold ScanOf at of ⊢
    rwa [eq]
  | waits fired s' =>
    unfold ScanOf at of ⊢
    rw [eq]
    exact ⟨of.1, of.2.cons item⟩

theorem ScanOf.onward {s s' : σ} {eaten rest : List Item} {b : UInt8}
    (one : framing.Reads (state s) [b] [] (state s')) (of : ScanOf state after wait s' eaten rest found) :
    ScanOf state after wait s (.byte b :: eaten) rest found := by
  cases found with
  | stopped r => exact one.trans of
  | ended s'' => exact ⟨one.trans of.1, of.2⟩
  | waits fired s'' => exact ⟨one.trans of.1, of.2.cons (.byte b)⟩

theorem scanItems_spec (embeds : framing.Embeds step state after) (wait : Wait) (items : List Item) (s : σ) : ∃ eaten,
    items = eaten ++ (scanItems step wait items s).2 ∧
      ScanOf state after wait s eaten (scanItems step wait items s).2 (scanItems step wait items s).1 := by
  induction items generalizing s with
  | nil => exact ⟨[], rfl, Reads.nil _, rfl⟩
  | cons item rest ih =>
    cases item with
    | byte b =>
      have one := Reads.one (embeds.going s) b
      rw [embeds.silent, embeds.next] at one
      unfold scanItems
      cases stepped : step s b with
      | inl s' =>
        rw [stepped] at one
        obtain ⟨eaten, whole, of⟩ := ih s'
        exact ⟨.byte b :: eaten, congrArg (Item.byte b :: ·) whole, of.onward one⟩
      | inr found =>
        rw [stepped] at one
        exact ⟨[.byte b], rfl, one⟩
    | cut =>
      obtain ⟨eaten, whole, of⟩ := ih s
      exact ⟨.cut :: eaten, congrArg (Item.cut :: ·) whole, of.aside rfl⟩
    | pause fired =>
      unfold scanItems
      cases fires : wait.fires fired with
      | some given => exact ⟨[.pause fired], rfl, Reads.nil _, .one fires⟩
      | none =>
        obtain ⟨eaten, whole, of⟩ := ih s
        exact ⟨.pause fired :: eaten, congrArg (Item.pause fired :: ·) whole, of.aside rfl⟩

def ScanEnds (state : σ → Phase) (after : ρ → Phase) (wait : Wait) (s : σ) (hs : HttpStream) (hs' : HttpStream) :
    Scanned σ ρ Fired → Prop
  | .stopped found => ∃ taken, Takes hs taken hs' ∧ hs'.fd = hs.fd ∧ framing.Reads (state s) taken [] (after found)
  | .ended s' => Takes hs hs.pending hs' ∧ hs'.fd = false ∧ hs'.buf = [] ∧ framing.Reads (state s) hs.pending [] (state s')
  | .waits fired s' => ∃ taken eaten, Takes hs taken hs' ∧ hs'.fd = hs.fd ∧ hs'.buf = [] ∧ hs.wire = eaten ++ hs'.wire ∧
      taken = hs.buf ++ arriving eaten ∧ Paused wait fired eaten ∧ framing.Reads (state s) taken [] (state s')

theorem scan_spec (embeds : framing.Embeds step state after) (hs : HttpStream) (closed : hs.fd = false → arriving hs.wire = [])
    (wait : Wait) (s : σ) : ScanEnds state after wait s hs (hs.scan step wait s).2 (hs.scan step wait s).1 := by
  obtain ⟨taken, whole, reads, emptied⟩ := embeds.feed hs.buf s
  cases fed : feed step hs.buf s with
  | mk fst rest =>
    rw [fed] at whole reads emptied
    cases fst with
    | inr found =>
      have eq : hs.scan step wait s = (.stopped found, { hs with buf := rest }) := by
        unfold scan
        rw [fed]
      rw [eq]
      exact ⟨taken, ⟨rfl, [], rfl, (append_nil _).trans whole⟩, rfl, reads⟩
    | inl s₁ =>
      have none_left : rest = [] := emptied rfl
      rw [none_left, append_nil] at whole
      cases openFd : hs.fd with
      | false =>
        have eq : hs.scan step wait s = (.ended s₁, { hs with buf := [] }) := by
          simp only [scan, fed, openFd, Bool.false_eq_true, if_false]
        have all : hs.pending = taken := by
          unfold HttpStream.pending
          rw [closed openFd, append_nil, whole]
        rw [eq]
        refine ⟨⟨rfl, [], rfl, ?_⟩, openFd, rfl, ?_⟩
        · rw [all, arriving_nil, whole]
        · rw [all]
          exact reads
      | true =>
        obtain ⟨eaten, items, of⟩ := scanItems_spec embeds wait hs.wire s₁
        cases found : scanItems step wait hs.wire s₁ with
        | mk out wire =>
          rw [found] at items of
          have held : hs.buf ++ arriving eaten = taken ++ arriving eaten ++ [] := by
            rw [whole, append_nil]
          cases out with
          | stopped r =>
            have eq : hs.scan step wait s = (.stopped r, { hs with buf := [], wire := wire }) := by
              simp only [scan, fed, openFd, if_true, found]
            rw [eq]
            exact ⟨taken ++ arriving eaten, ⟨rfl, eaten, items, held⟩, rfl, reads.trans of⟩
          | ended s₂ =>
            have eq : hs.scan step wait s = (.ended s₂, { hs with buf := [], wire := wire, fd := false }) := by
              simp only [scan, fed, openFd, if_true, found]
            obtain ⟨of, gone⟩ := of
            have all : hs.pending = taken ++ arriving eaten := by
              unfold HttpStream.pending
              rw [items, gone, append_nil, whole]
            rw [eq]
            refine ⟨⟨rfl, eaten, items, ?_⟩, rfl, rfl, ?_⟩
            · rw [all]
              exact held
            · rw [all]
              exact reads.trans of
          | waits fired s₂ =>
            have eq : hs.scan step wait s = (.waits fired s₂, { hs with buf := [], wire := wire }) := by
              simp only [scan, fed, openFd, if_true, found]
            rw [eq]
            exact ⟨taken ++ arriving eaten, eaten, ⟨rfl, eaten, items, held⟩, rfl, rfl, items, by rw [whole], of.2, reads.trans of.1⟩

end

theorem Takes.bodyDone {hs' : HttpStream} (takes : Takes hs taken hs') : hs'.bodyDone = hs.bodyDone := by
  rw [takes.frame]

theorem Takes.chunked {hs' : HttpStream} (takes : Takes hs taken hs') : hs'.chunked = hs.chunked := by
  rw [takes.frame]

theorem Takes.chunkLeft {hs' : HttpStream} (takes : Takes hs taken hs') : hs'.chunkLeft = hs.chunkLeft := by
  rw [takes.frame]

theorem Takes.keepAlive {hs' : HttpStream} (takes : Takes hs taken hs') : hs'.keepAlive = hs.keepAlive := by
  rw [takes.frame]

theorem Takes.trailerLineHasContent {hs' : HttpStream} (takes : Takes hs taken hs') :
    hs'.trailerLineHasContent = hs.trailerLineHasContent := by
  rw [takes.frame]

theorem Takes.silent {hs' : HttpStream} (takes : Takes hs taken hs')
    (silent : arriving hs.wire = []) : arriving hs'.wire = [] := by
  obtain ⟨eaten, wire, -⟩ := takes.eaten
  rw [wire, arriving_append] at silent
  exact (append_eq_nil_iff.mp silent).2

theorem Takes.emptied {hs' : HttpStream} (takes : Takes hs hs.pending hs') : arriving hs'.wire = [] := by
  have all := takes.pending
  exact (append_eq_nil_iff.mp (append_cancel_left (all.symm.trans (append_nil _).symm))).2

/-- A call that no clock ends, or that a clock ends only where it can be resumed. -/
def Calmly (wait : Wait) (p : Phase) (hs : HttpStream) : Prop := wait = .blocks ∨ Harmless (p.after hs.buf) hs.wire

theorem Calmly.resumable {wait : Wait} {p : Phase} {fired : Fired} {eaten rest : List Item} (calmly : Calmly wait p hs)
    (wire : hs.wire = eaten ++ rest) (paused : Paused wait fired eaten) : (p.after (hs.buf ++ arriving eaten)).resumable = true := by
  rcases calmly with rfl | harmless
  · obtain ⟨front, given, -, fires⟩ := paused.last
    cases fires
  · rw [wire] at harmless
    rw [after_append]
    exact paused.resumable harmless

theorem Calmly.takes {wait : Wait} {p p' : Phase} {hs' : HttpStream} (calmly : Calmly wait p hs)
    (takes : Takes hs taken hs') (reads : framing.Reads p taken out p') : Calmly wait p' hs' := by
  refine calmly.imp id fun harmless => ?_
  obtain ⟨eaten, wire, held⟩ := takes.eaten
  rw [wire, harmless_append, ← after_append, held, after_append, after_of_reads reads] at harmless
  exact harmless.2

/-- What a read answers, and how it leaves the stream. -/
inductive Reading (hs : HttpStream) : Reply → HttpStream → Prop
  | bytes {taken out hs'} : out ≠ [] → Moves hs taken out hs' → Reading hs (.of out) hs'
  | fired {taken hs'} (fired : Fired) : Moves hs taken [] hs' → hs'.fd = hs.fd → hs'.keepAlive = hs.keepAlive →
      hs'.bodyDone = hs.bodyDone → hs'.wire.length < hs.wire.length → Reading hs (.none fired.code) hs'
  | finished {taken hs'} : Moves hs taken [] hs' → hs'.bodyDone = true → Reading hs (.none 0) hs'
  | broken {taken rest code hs'} : hs.pending = taken ++ rest → framing.Reads hs.phase taken [] (.broken code) →
      hs'.bodyDone = false → Reading hs (.none code) hs'
  | dead {p hs'} : framing.Reads hs.phase hs.pending [] p → p.over_ = false → Dead hs' → Reading hs (.none p.endCode) hs'

theorem Reading.unread {hs' : HttpStream} {code : Int} (silent : hs.pending = []) (stands : hs.phase.over_ = false ∧ hs.phase.endCode = code)
    (dead : Dead hs') : Reading hs (.none code) hs' := by
  rw [← stands.2]
  refine .dead ?_ stands.1 dead
  rw [silent]
  exact Reads.nil _

theorem Moves.trans {a b c : HttpStream} {s t u v : List UInt8} (first : Moves a s u b) (second : Moves b t v c) :
    Moves a (s ++ t) (u ++ v) c := by
  obtain ⟨eaten, wire, held⟩ := first.eaten
  obtain ⟨eaten', wire', held'⟩ := second.eaten
  refine ⟨⟨eaten ++ eaten', by rw [wire, wire', append_assoc], ?_⟩, first.reads.trans second.reads, second.live⟩
  rw [arriving_append, ← append_assoc, held, append_assoc, held', append_assoc]

theorem Moves.length_le {hs' : HttpStream} (moves : Moves hs taken out hs') :
    hs'.wire.length ≤ hs.wire.length := by
  obtain ⟨eaten, wire, -⟩ := moves.eaten
  rw [wire, length_append]
  exact Nat.le_add_left _ _

theorem Reading.behind {mid hs' : HttpStream} {reply : Reply} (moves : Moves hs taken [] mid) (fd : mid.fd = hs.fd)
    (keepAlive : mid.keepAlive = hs.keepAlive) (bodyDone : mid.bodyDone = hs.bodyDone) (reading : Reading mid reply hs') :
    Reading hs reply hs' := by
  cases reading with
  | bytes some_out moved => exact .bytes some_out (moves.trans moved)
  | fired fired moved fd' keepAlive' bodyDone' shorter =>
    exact .fired fired (moves.trans moved) (fd'.trans fd) (keepAlive'.trans keepAlive) (bodyDone'.trans bodyDone)
      (Nat.lt_of_lt_of_le shorter moves.length_le)
  | finished moved done => exact .finished (moves.trans moved) done
  | broken whole reads unfinished =>
    exact .broken (by rw [moves.pending, whole, ← append_assoc]) (moves.reads.trans reads) unfinished
  | dead reads going dead =>
    refine .dead ?_ going dead
    rw [moves.pending]
    exact moves.reads.trans reads

theorem readTrailers_spec (wait : Wait) (closed : hs.fd = false → arriving hs.wire = [])
    (unfinished : hs.bodyDone = false) (calmly : Calmly wait (.trailers hs.trailerLineHasContent) hs) :
    (∃ taken mid, Takes hs taken mid ∧ framing.Reads (.trailers hs.trailerLineHasContent) taken [] .done ∧
      hs.readTrailers wait = (.none 0, finishBody { mid with trailerLineHasContent := false })) ∨
    (∃ hasContent, framing.Reads (.trailers hs.trailerLineHasContent) hs.pending [] (.trailers hasContent) ∧
      (hs.readTrailers wait).1 = .none (-1) ∧ Dead (hs.readTrailers wait).2) := by
  have ends := scan_spec trailers_embed hs closed wait hs.trailerLineHasContent
  unfold readTrailers skipChunkedTrailers
  cases scanned : hs.scan trailerStep wait hs.trailerLineHasContent with
  | mk found mid =>
    rw [scanned] at ends
    cases found with
    | stopped found =>
      obtain ⟨taken, takes, -, reads⟩ := ends
      exact .inl ⟨taken, mid, takes, reads, rfl⟩
    | ended hasContent =>
      obtain ⟨takes, -, buf, reads⟩ := ends
      exact .inr ⟨hasContent, reads, rfl, rfl, buf, takes.emptied, takes.bodyDone.trans unfinished⟩
    | waits fired hasContent =>
      obtain ⟨taken, eaten, takes, -, -, wire, rfl, paused, reads⟩ := ends
      have safe := calmly.resumable wire paused
      rw [after_of_reads reads] at safe
      cases safe

structure Spent (hs : HttpStream) : Prop where
  fd : hs.fd = false
  buf : hs.buf = []
  wire : arriving hs.wire = []

theorem readTrailers_spent (wait : Wait) (spent : Spent hs) (unfinished : hs.bodyDone = false) :
    (hs.readTrailers wait).1 = .none (-1) ∧ Dead (hs.readTrailers wait).2 := by
  have eq : hs.scan trailerStep wait hs.trailerLineHasContent = (.ended hs.trailerLineHasContent, { hs with buf := [] }) := by
    simp only [scan, spent.buf, feed, spent.fd, Bool.false_eq_true, if_false]
  unfold readTrailers skipChunkedTrailers
  rw [eq]
  exact ⟨rfl, rfl, rfl, spent.wire, unfinished⟩

theorem nextChunk_spec (wait : Wait) (closed : hs.fd = false → arriving hs.wire = [])
    (calmly : Calmly wait (.size .lead) hs) :
    (∃ size taken mid, hs.nextChunk wait = (.ok size, mid) ∧ Takes hs taken mid ∧ mid.fd = hs.fd ∧
      framing.Reads (.size .lead) taken [] (sizeFound size)) ∨
    (∃ (line : SizeLine) (mid : HttpStream), hs.nextChunk wait = (.ok line.size, mid) ∧ Takes hs hs.pending mid ∧ Spent mid ∧
      framing.Reads (.size .lead) hs.pending [] (.size line)) ∨
    (∃ fired taken mid, hs.nextChunk wait = (.error fired, mid) ∧ Takes hs taken mid ∧ mid.fd = hs.fd ∧
      mid.wire.length < hs.wire.length ∧ framing.Reads (.size .lead) taken [] (.size .lead)) := by
  have ends := scan_spec size_embeds hs closed wait .lead
  unfold nextChunk
  cases scanned : hs.scan SizeLine.step wait .lead with
  | mk found mid =>
    rw [scanned] at ends
    cases found with
    | stopped size =>
      obtain ⟨taken, takes, fd, reads⟩ := ends
      exact .inl ⟨size, taken, mid, rfl, takes, fd, reads⟩
    | ended line =>
      obtain ⟨takes, fd, buf, reads⟩ := ends
      exact .inr (.inl ⟨line, mid, rfl, takes, ⟨fd, buf, takes.emptied⟩, reads⟩)
    | waits fired line =>
      obtain ⟨taken, eaten, takes, fd, -, wire, rfl, paused, reads⟩ := ends
      have safe := calmly.resumable wire paused
      rw [after_of_reads reads] at safe
      cases line with
      | lead => exact .inr (.inr ⟨fired, _, mid, rfl, takes, fd, paused.shorter wire, reads⟩)
      | digits size => cases safe
      | rest size => cases safe

end HttpStream
end PlxNative.Http
