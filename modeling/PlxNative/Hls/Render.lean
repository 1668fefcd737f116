import PlxNative.Hls.Accepted

/-! A media playlist written out again, and read as what it was written from. -/
namespace PlxNative.Hls
open List Text Checks Usize Decimal
open Decimal (Digits value written padded)

def renderDuration (d : Duration) : Text := written d.secs ++ '.' :: padded 9 d.nanos

def renderMicros (m : Int) : Text :=
  (if m < 0 then ['-'] else []) ++ (written (m.natAbs / 1000000) ++ '.' :: padded 6 (m.natAbs % 1000000))

def renderType : PlaylistType → Text
  | .event => "EVENT".toList
  | .vod => "VOD".toList

def segmentLines (segment : Segment) : List Text :=
  ["#EXTINF:".toList ++ (renderDuration segment.duration ++ [',']), segment.resource.path]

def headerLines (playlist : MediaPlaylist) : List Text :=
  (playlist.version.map (fun n => "#EXT-X-VERSION:".toList ++ written n)).toList ++
    ["#EXT-X-TARGETDURATION:".toList ++ written playlist.targetDurationSecs] ++
    (playlist.startOffsetMicros.map (fun m => "#EXT-X-START:".toList ++ ("TIME-OFFSET=".toList ++ renderMicros m))).toList ++
    ["#EXT-X-MEDIA-SEQUENCE:".toList ++ written playlist.mediaSequence] ++
    (playlist.playlistType.map (fun kind => "#EXT-X-PLAYLIST-TYPE:".toList ++ renderType kind)).toList

def renderLines (playlist : MediaPlaylist) : List Text :=
  "#EXTM3U".toList :: (headerLines playlist ++ playlist.segments.flatMap segmentLines ++
    if playlist.endList then ["#EXT-X-ENDLIST".toList] else [])

def render (playlist : MediaPlaylist) : Text := ['\n'].intercalate (renderLines playlist)

section
variable {line : Nat} {reason : String}

theorem point_free {s : Text} (digits : Digits s) {c : Char} (other : c.isDigit = false) : c ∉ s := by
  intro mem
  have digit := digits c mem
  rw [other] at digit
  cases digit

theorem splitDecimal_written {a b : Text} (digits : Digits a) : splitDecimal (a ++ '.' :: b) = (a, some b) := by
  unfold splitDecimal
  rw [splitOnce_eq_some.mpr ⟨rfl, point_free digits (by decide)⟩]

variable {limit n : Nat}

theorem parse_written (within : limit ≤ size) (small : n < limit) : parse limit (written n) = some n := by
  have read := parse_eq (written_digits n) (written_ne_nil n) within (by rw [value_written]; exact small)
  rwa [value_written] at read

theorem parseFraction_padded {places : Nat} (positive : 0 < places) (within : limit ≤ size) (fits : 10 ^ places ≤ limit)
    (small : n < 10 ^ places) : parseFraction places limit line reason (some (padded places n)) = .ok n := by
  have digits := padded_digits places n
  have some_ := padded_ne_nil places n
  have length := padded_length positive small
  have read := parse_eq digits some_ within (by rw [value_padded]; exact small.trans_le fits)
  rw [value_padded] at read
  refine then_eq_ok.mpr ⟨check_ok ⟨some_, length.le, all_digits.mpr digits⟩, seq_eq_ok.mpr ⟨n, orMalformed_eq_ok.mpr read, ?_⟩⟩
  rw [length, Nat.sub_self, Nat.pow_zero, Nat.mul_one]
  rfl

theorem parseU64_written (small : n < size) : parseU64 (written n) line reason = .ok n :=
  then_eq_ok.mpr ⟨check_ok ⟨written_ne_nil n, all_digits.mpr (written_digits n)⟩,
    orMalformed_eq_ok.mpr (parse_written le_rfl small)⟩

theorem parsePositiveU64_written (positive : 0 < n) (small : n < size) : parsePositiveU64 (written n) line reason = .ok n :=
  seq_eq_ok.mpr ⟨n, parseU64_written small, then_eq_ok.mpr ⟨check_ok (Nat.ne_of_gt positive), rfl⟩⟩

theorem parsePositiveU32_written (positive : 0 < n) (small : n < 4294967296) : parsePositiveU32 (written n) line = .ok n :=
  seq_eq_ok.mpr ⟨n, orMalformed_eq_ok.mpr (parse_written (by decide) small), then_eq_ok.mpr ⟨check_ok (Nat.ne_of_gt positive), rfl⟩⟩

theorem parseExtinf_render {d : Duration} (fits : d.Fits) : parseExtinf (renderDuration d ++ [',']) line = .ok d := by
  have free : ',' ∉ renderDuration d := by
    intro mem
    rcases mem_append.mp mem with secs | rest
    · exact point_free (written_digits _) (by decide) secs
    · rcases mem_cons.mp rest with here | nanos
      · cases here
      · exact point_free (padded_digits _ _) (by decide) nanos
  have cut : splitOnce ',' (renderDuration d ++ [',']) = some (renderDuration d, []) := splitOnce_eq_some.mpr ⟨rfl, free⟩
  have digits := written_digits d.secs
  have fraction : parseFraction 9 4294967296 line "invalid EXTINF fraction" (some (padded 9 d.nanos)) = .ok d.nanos :=
    parseFraction_padded (by decide) (by decide) (by decide) fits.nanos
  refine seq_eq_ok.mpr ⟨(renderDuration d, []), orMalformed_eq_ok.mpr cut, ?_⟩
  simp only [renderDuration, splitDecimal_written digits]
  refine then_eq_ok.mpr ⟨check_ok ⟨written_ne_nil _, all_digits.mpr digits⟩, ?_⟩
  refine seq_eq_ok.mpr ⟨d.secs, orMalformed_eq_ok.mpr (parse_written le_rfl fits.secs), ?_⟩
  exact seq_eq_ok.mpr ⟨d.nanos, fraction, then_eq_ok.mpr ⟨check_ok fits.some_, rfl⟩⟩

theorem parseSignedDecimalMicros_render {m : Int} (small : m.natAbs < half) : parseSignedDecimalMicros (renderMicros m) line = .ok m := by
  have digits := written_digits (m.natAbs / 1000000)
  have fraction : parseFraction 6 half line "invalid start time offset" (some (padded 6 (m.natAbs % 1000000))) =
      .ok (m.natAbs % 1000000) :=
    parseFraction_padded (by decide) (by decide) (by decide) (Nat.mod_lt m.natAbs (by decide))
  have signed : stripPrefix ['-'] (renderMicros m) =
      if m < 0 then some (written (m.natAbs / 1000000) ++ '.' :: padded 6 (m.natAbs % 1000000)) else none := by
    unfold renderMicros
    split
    · exact stripPrefix_append ['-'] _
    · obtain ⟨c, rest, shape⟩ := exists_cons_of_ne_nil (written_ne_nil (m.natAbs / 1000000))
      have other : '-' ≠ c := fun eq => point_free digits (show '-'.isDigit = false by decide) (shape ▸ eq ▸ mem_cons_self)
      rw [shape]
      unfold stripPrefix
      simp [other]
  have total : ((m.natAbs / 1000000 : Nat) : Int) * 1000000 + ((m.natAbs % 1000000 : Nat) : Int) = m.natAbs := by omega
  have whole : m.natAbs / 1000000 < half := by omega
  unfold parseSignedDecimalMicros
  by_cases negative : m < 0
  · rw [signed, if_pos negative]
    simp only [splitDecimal_written digits]
    refine then_eq_ok.mpr ⟨check_ok ⟨written_ne_nil _, all_digits.mpr digits⟩, ?_⟩
    refine seq_eq_ok.mpr ⟨m.natAbs / 1000000, orMalformed_eq_ok.mpr (parse_written (by decide) whole), ?_⟩
    refine then_eq_ok.mpr ⟨check_ok (by omega), ?_⟩
    refine seq_eq_ok.mpr ⟨m.natAbs % 1000000, fraction, then_eq_ok.mpr ⟨check_ok (by omega), ?_⟩⟩
    rw [if_pos trivial, total]
    exact congrArg Except.ok (by omega)
  · rw [signed, if_neg negative, renderMicros, if_neg negative, nil_append]
    simp only [splitDecimal_written digits]
    refine then_eq_ok.mpr ⟨check_ok ⟨written_ne_nil _, all_digits.mpr digits⟩, ?_⟩
    refine seq_eq_ok.mpr ⟨m.natAbs / 1000000, orMalformed_eq_ok.mpr (parse_written (by decide) whole), ?_⟩
    refine then_eq_ok.mpr ⟨check_ok (by omega), ?_⟩
    refine seq_eq_ok.mpr ⟨m.natAbs % 1000000, fraction, then_eq_ok.mpr ⟨check_ok (by omega), ?_⟩⟩
    rw [if_neg Bool.false_ne_true, total]
    exact congrArg Except.ok (by omega)

end
section

structure CleanLine (line : Text) : Prop where
  visible : ∀ c ∈ line, isWhitespace c = false
  no_nul : '\x00' ∉ line

theorem CleanLine.append {a b : Text} (first : CleanLine a) (second : CleanLine b) : CleanLine (a ++ b) :=
  ⟨fun c mem => (mem_append.mp mem).elim (first.visible c) (second.visible c),
    fun mem => (mem_append.mp mem).elim first.no_nul second.no_nul⟩

variable {line : Text}

theorem CleanLine.absent (clean : CleanLine line) {c : Char} (white : isWhitespace c = true) : c ∉ line := by
  intro mem
  rw [clean.visible c mem] at white
  cases white

theorem dropWhile_visible {s : Text} (visible : ∀ c ∈ s, isWhitespace c = false) : s.dropWhile isWhitespace = s := by
  cases s with
  | nil => rfl
  | cons c rest => exact dropWhile_cons_of_neg (by rw [visible c mem_cons_self]; exact Bool.false_ne_true)

theorem CleanLine.trim (clean : CleanLine line) : Text.trim line = line := by
  unfold Text.trim
  rw [dropWhile_visible clean.visible, dropWhile_visible (fun c mem => clean.visible c (mem_reverse.mp mem)),
    reverse_reverse]

theorem CleanLine.unended (clean : CleanLine line) : stripSuffix ['\x0d'] line = none := by
  unfold stripSuffix
  rw [if_neg]
  intro ends
  obtain ⟨front, rfl⟩ := isSuffixOf_iff_suffix.mp ends
  exact clean.absent (show isWhitespace '\x0d' = true by decide) (mem_append_right _ (mem_singleton_self _))

def numbering : Nat → List Text → List (Nat × Text)
  | _, [] => []
  | n, line :: rest => (n, line) :: numbering (n + 1) rest

theorem numberedLines_clean (n : Nat) {lines : List Text} (clean : ∀ line ∈ lines, CleanLine line) :
    numberedLines n lines = .ok (numbering n lines) := by
  induction lines generalizing n with
  | nil => rfl
  | cons line rest ih =>
    have here := clean line mem_cons_self
    have later := ih (n + 1) (fun line mem => clean line (mem_cons_of_mem _ mem))
    unfold numberedLines
    rw [here.unended]
    refine then_eq_ok.mpr ⟨check_ok ⟨here.absent (by decide), here.no_nul⟩, then_eq_ok.mpr ⟨check_ok here.trim.symm, ?_⟩⟩
    exact seq_eq_ok.mpr ⟨_, later, rfl⟩

theorem numbering_append (n : Nat) (lines more : List Text) : numbering n (lines ++ more) = numbering n lines ++ numbering (n + lines.length) more := by
  induction lines generalizing n with
  | nil => rfl
  | cons line rest ih =>
    rw [cons_append, numbering, ih, numbering, length_cons, Nat.add_comm rest.length 1, Nat.add_assoc]
    rfl

/-- What lines take a scan to, whatever their numbers. -/
def Scans (source : Resource) (lines : List Text) (state after : MediaScan) : Prop :=
  ∀ n, (numbering n lines).foldlM (fun state numbered => mediaLine source state numbered.1 numbered.2) state = .ok after

variable {source : Resource} {state mid after : MediaScan}

theorem Scans.nil : Scans source [] state state := fun _ => rfl

theorem Scans.single (step : ∀ n, mediaLine source state n line = .ok after) : Scans source [line] state after := by
  intro n
  change (mediaLine source state n line >>= fun state => pure state) = .ok after
  rw [step n]
  rfl

theorem Scans.append {lines more : List Text} (first : Scans source lines state mid) (second : Scans source more mid after) :
    Scans source (lines ++ more) state after := by
  intro n
  rw [numbering_append, foldlM_append, first n]
  exact second (n + lines.length)

theorem mediaLine_tag (marked : ['#'] <+: line) (open_ : state.endList = false) (none_ : state.pendingDuration = none)
    (n : Nat) : mediaLine source state n line = mediaTag state n line := by
  obtain ⟨rest, rfl⟩ := marked
  unfold mediaLine
  rw [if_neg (show ¬ List.isEmpty (['#'] ++ rest) = true from Bool.false_ne_true), if_neg (by rw [open_]; exact Bool.false_ne_true),
    if_pos ⟨rest, rfl⟩, check_ok (by rw [none_]; rfl)]
  rfl

theorem Scans.tag (marked : ['#'] <+: line) (open_ : state.endList = false) (none_ : state.pendingDuration = none)
    (tag : ∀ n, mediaTag state n line = .ok after) : Scans source [line] state after :=
  .single fun n => (mediaLine_tag marked open_ none_ n).trans (tag n)

theorem Scans.option {α : Type} (o : Option α) (line : α → Text) (set : Option α → MediaScan)
    (step : ∀ a ∈ o, Scans source [line a] (set none) (set (some a))) : Scans source (o.map line).toList (set none) (set o) := by
  cases o with
  | none => exact .nil
  | some a => exact step a rfl

end
section
variable {source : Resource}

/-- A scan that has read the header of a playlist and some of its segments. -/
def scanned (playlist : MediaPlaylist) (segments : List Segment) (endList : Bool) : MediaScan where
  version := playlist.version
  targetDuration := some playlist.targetDurationSecs
  startOffsetMicros := playlist.startOffsetMicros
  mediaSequence := some playlist.mediaSequence
  playlistType := playlist.playlistType
  segments
  endList

/-- What the numbers of a playlist keep to. -/
structure MediaPlaylist.Fits (source : Resource) (playlist : MediaPlaylist) : Prop where
  sourced : playlist.source = source
  version : ∀ n ∈ playlist.version, 0 < n ∧ n < 4294967296
  target : 0 < playlist.targetDurationSecs ∧ playlist.targetDurationSecs < size
  start : ∀ m ∈ playlist.startOffsetMicros, m.natAbs < half
  sequence : playlist.mediaSequence + playlist.segments.length < size
  numbered : playlist.segments.map Segment.sequence = List.range' playlist.mediaSequence playlist.segments.length
  segments : ∀ segment ∈ playlist.segments, segment.Fits source

theorem header_scans {playlist : MediaPlaylist} (fits : playlist.Fits source) :
    Scans source (headerLines playlist) {} (scanned playlist [] false) := by
  have version : Scans source (playlist.version.map (fun n => "#EXT-X-VERSION:".toList ++ written n)).toList {} { version := playlist.version } := by
    refine .option playlist.version _ (fun version => { version }) ?_
    intro v listed
    obtain ⟨positive, small⟩ := fits.version v listed
    refine .tag ⟨_, rfl⟩ rfl rfl fun n => ?_
    unfold mediaTag
    exact seq_eq_ok.mpr ⟨v, parsePositiveU32_written positive small, rfl⟩
  have target : Scans source ["#EXT-X-TARGETDURATION:".toList ++ written playlist.targetDurationSecs] { version := playlist.version }
      { version := playlist.version, targetDuration := some playlist.targetDurationSecs } := by
    refine .tag ⟨_, rfl⟩ rfl rfl fun n => ?_
    unfold mediaTag
    exact seq_eq_ok.mpr ⟨_, parsePositiveU64_written fits.target.1 fits.target.2, rfl⟩
  have start : Scans source
      (playlist.startOffsetMicros.map (fun m => "#EXT-X-START:".toList ++ ("TIME-OFFSET=".toList ++ renderMicros m))).toList
      { version := playlist.version, targetDuration := some playlist.targetDurationSecs }
      { version := playlist.version, targetDuration := some playlist.targetDurationSecs
        startOffsetMicros := playlist.startOffsetMicros } := by
    refine .option playlist.startOffsetMicros _
      (fun startOffsetMicros =>
        { version := playlist.version, targetDuration := some playlist.targetDurationSecs, startOffsetMicros }) ?_
    intro m listed
    refine .tag ⟨_, rfl⟩ rfl rfl fun n => ?_
    unfold mediaTag
    refine seq_eq_ok.mpr ⟨_, orMalformed_eq_ok.mpr (stripPrefix_append ..), ?_⟩
    exact seq_eq_ok.mpr ⟨m, parseSignedDecimalMicros_render (fits.start m listed), rfl⟩
  have sequence : Scans source ["#EXT-X-MEDIA-SEQUENCE:".toList ++ written playlist.mediaSequence]
      { version := playlist.version, targetDuration := some playlist.targetDurationSecs
        startOffsetMicros := playlist.startOffsetMicros }
      { version := playlist.version, targetDuration := some playlist.targetDurationSecs
        startOffsetMicros := playlist.startOffsetMicros, mediaSequence := some playlist.mediaSequence } := by
    refine .tag ⟨_, rfl⟩ rfl rfl fun n => ?_
    unfold mediaTag
    exact seq_eq_ok.mpr ⟨_, parseU64_written ((Nat.le_add_right ..).trans_lt fits.sequence), rfl⟩
  have kind : Scans source (playlist.playlistType.map (fun kind => "#EXT-X-PLAYLIST-TYPE:".toList ++ renderType kind)).toList
      { version := playlist.version, targetDuration := some playlist.targetDurationSecs
        startOffsetMicros := playlist.startOffsetMicros, mediaSequence := some playlist.mediaSequence }
      (scanned playlist [] false) := by
    refine .option playlist.playlistType _
      (fun playlistType =>
        { version := playlist.version, targetDuration := some playlist.targetDurationSecs
          startOffsetMicros := playlist.startOffsetMicros, mediaSequence := some playlist.mediaSequence, playlistType }) ?_
    intro k _
    refine .tag ⟨_, rfl⟩ rfl rfl fun n => ?_
    unfold mediaTag
    cases k <;> rfl
  exact (((version.append target).append start).append sequence).append kind

end
section
variable {source : Resource}

theorem StaysOn.resolve {r : Resource} (stays : StaysOn source r) : source.resolve r.path = .ok r := by
  obtain ⟨⟨tail, rooted⟩, single⟩ := stays.confined.rooted
  have new : Resource.new source.origin r.path = .ok r := stays.origin ▸ stays.settled
  have valid : validateUriText r.path = .ok () := by
    have normal := new
    obtain ⟨_, normalised, _⟩ := seq_eq_ok.mp normal
    exact (then_eq_ok.mp normalised).1
  have schemeless : hasScheme r.path = false := by
    unfold hasScheme
    cases cut : splitOnce ':' r.path with
    | none => rfl
    | some parts =>
      obtain ⟨scheme, rest⟩ := parts
      have whole := (splitOnce_eq_some.mp cut).1
      cases scheme with
      | nil =>
        rw [← rooted] at whole
        cases whole
      | cons c scheme =>
        rw [← rooted] at whole
        have first : '/' = c := (List.cons.inj whole).1
        subst first
        rfl
  refine then_eq_ok.mpr ⟨valid, then_eq_ok.mpr ⟨check_ok ?_, then_eq_ok.mpr ⟨check_ok single, ?_⟩⟩⟩
  · rw [← rooted]
    exact ⟨cons_ne_nil _ _, fun marked => by simp at marked⟩
  · rw [if_neg (by rw [schemeless]; exact Bool.false_ne_true), if_pos ⟨tail, rooted⟩]
    exact new

theorem mediaUri_eq {state : MediaScan} {d : Duration} {m sequence : Nat} (held : state.pendingDuration = some d)
    (set : state.mediaSequence = some m) (sum : add? m state.segments.length = some sequence) (n : Nat) (line : Text) :
    mediaUri source state n line = (do
      let resource ← source.resolve line
      check (".ts".toList <:+ (pathQuery resource.path).1.map Char.toLower) .segmentIsNotMpegTs
      pure { state with
        pendingDuration := none
        segments := state.segments ++ [⟨sequence, d, resource⟩]
        pendingProgramTime := false
        gated := nofun }) := by
  obtain ⟨_, _, _, _, _, _, _, _, _, _, _⟩ := state
  subst held set
  unfold mediaUri
  simp only [Option.get_some, sum]

variable {playlist : MediaPlaylist}

theorem segment_scans {segment : Segment} {done : List Segment} (fits : segment.Fits source)
    (number : segment.sequence = playlist.mediaSequence + done.length) (small : playlist.mediaSequence + done.length < size) :
    Scans source (segmentLines segment) (scanned playlist done false) (scanned playlist (done ++ [segment]) false) := by
  have tag : Scans source ["#EXTINF:".toList ++ (renderDuration segment.duration ++ [','])] (scanned playlist done false)
      { scanned playlist done false with pendingDuration := some segment.duration, gated := fun _ => rfl } := by
    refine .tag ⟨_, rfl⟩ rfl rfl fun n => ?_
    rw [mediaTag_extinf]
    unfold extinf
    exact seq_eq_ok.mpr ⟨_, parseExtinf_render fits.duration, rfl⟩
  have uri : Scans source [segment.resource.path]
      { scanned playlist done false with pendingDuration := some segment.duration, gated := fun _ => rfl }
      (scanned playlist (done ++ [segment]) false) := by
    refine .single fun n => ?_
    obtain ⟨⟨tail, rooted⟩, _⟩ := fits.stays.confined.rooted
    have plain : ¬ ['#'] <+: segment.resource.path := by
      rw [← rooted]
      intro marked
      simp at marked
    have sum : add? playlist.mediaSequence done.length = some segment.sequence := number ▸ Usize.add?_eq small
    unfold mediaLine
    rw [if_neg (by rw [← rooted]; exact Bool.false_ne_true), if_neg (show ¬ (scanned playlist done false).endList = true from Bool.false_ne_true),
      if_neg plain, mediaUri_eq rfl rfl sum]
    exact seq_eq_ok.mpr ⟨segment.resource, fits.stays.resolve, then_eq_ok.mpr ⟨check_ok fits.stream, rfl⟩⟩
  exact tag.append uri

theorem segments_scan (segments done : List Segment) (fits : ∀ segment ∈ segments, segment.Fits source)
    (numbered : segments.map Segment.sequence = List.range' (playlist.mediaSequence + done.length) segments.length)
    (small : playlist.mediaSequence + done.length + segments.length < size) :
    Scans source (segments.flatMap segmentLines) (scanned playlist done false) (scanned playlist (done ++ segments) false) := by
  induction segments generalizing done with
  | nil =>
    rw [append_nil]
    exact .nil
  | cons segment rest ih =>
    obtain ⟨number, numbered⟩ := List.cons.inj numbered
    rw [length_cons] at small
    have first := segment_scans (fits segment mem_cons_self) number (by omega)
    have length : playlist.mediaSequence + (done ++ [segment]).length = playlist.mediaSequence + done.length + 1 := by
      rw [length_append, length_singleton, Nat.add_assoc]
    have later := ih (done ++ [segment]) (fun s mem => fits s (mem_cons_of_mem _ mem)) (by rw [length]; exact numbered)
      (by rw [length]; omega)
    rw [append_assoc, singleton_append] at later
    exact first.append later

theorem end_scans (playlist : MediaPlaylist) :
    Scans source (if playlist.endList then ["#EXT-X-ENDLIST".toList] else []) (scanned playlist playlist.segments false)
      (scanned playlist playlist.segments playlist.endList) := by
  cases playlist.endList with
  | false => exact .nil
  | true =>
    refine .tag ⟨_, rfl⟩ rfl rfl fun n => ?_
    rfl

end
end PlxNative.Hls
