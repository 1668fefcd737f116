import PlxNative.Lib.Checks
import PlxNative.Net.Origin

/-! The strict parsers of the master playlist and of the growing media playlists. -/
namespace PlxNative.Hls
open Text Net Checks Usize
attribute [local instance (high)] List.decidableBAll

inductive Error
  | missingHeader
  | malformed (line : Nat) (reason : String)
  | invalidUri (reason : String)
  | crossOrigin
  | unsupportedTag (tag : Text)
  | unsupportedFeature (feature : String)
  | missingVariant
  | multipleVariants
  | missingTargetDuration
  | missingMediaSequence
  | childIsNotPlaylist
  | segmentIsNotMpegTs
  | sequenceOverflow
  | refreshSourceChanged
  | sequenceGap (expected found : Nat)
  | segmentChanged (sequence : Nat)
  | unknownOldSegment (sequence : Nat)
  | segmentAfterEndList (sequence : Nat)
  | staleEndList
deriving DecidableEq

structure Resource where
  origin : Origin
  path : Text
deriving DecidableEq

/-- Every escape is a percent sign and two digits. -/
def escapesFormed : Text → Bool
  | [] => true
  | '%' :: high :: low :: rest => isAsciiHexdigit high && isAsciiHexdigit low && escapesFormed rest
  | '%' :: _ => false
  | _ :: rest => escapesFormed rest

def validateUriText (uri : Text) : Except Error Unit := do
  check ('#' ∉ uri) (.invalidUri "fragments are unsupported")
  check ('\\' ∉ uri) (.invalidUri "backslash in URI")
  check (∀ c ∈ uri, isAscii c && !isAsciiControl c && !isAsciiWhitespace c) (.invalidUri "non-ASCII or whitespace byte")
  check (escapesFormed uri) (.invalidUri "malformed percent escape")

/-- The components that are left when the dot segments have been followed. -/
def descend (root : Bool) : List Text → List Text → Except Error (List Text)
  | [], components => .ok components
  | component :: rest, components =>
    if component = [] then
      if root then descend root rest components else .error (.invalidUri "empty path component")
    else if component = ['.'] then descend root rest components
    else if component = ['.', '.'] then
      if components.isEmpty then .error (.invalidUri "path escapes origin root")
      else descend root rest components.dropLast
    else descend root rest (components ++ [component])

def pathQuery (path : Text) : Text × Option Text :=
  match splitOnce '?' path with
  | some (path, query) => (path, some query)
  | none => (path, none)

def joined (components : List Text) : Text :=
  if components.isEmpty then ['/'] else '/' :: ['/'].intercalate components

def withQuery (path : Text) : Option Text → Except Error Text
  | none => .ok path
  | some query => do
      check (query ≠ []) (.invalidUri "empty query")
      pure (path ++ '?' :: query)

def normalizeParts (rawPath : Text) (query : Option Text) : Except Error Text := do
  check (rawPath ≠ []) (.invalidUri "URI has no path")
  let components ← descend (rawPath = ['/']) (rawPath.tail.splitOn '/') []
  withQuery (joined components) query

def normalizeAbsolutePath (path : Text) : Except Error Text := do
  validateUriText path
  check (['/'] <+: path ∧ ¬ ['/', '/'] <+: path) (.invalidUri "path is not origin-relative")
  normalizeParts (pathQuery path).1 (pathQuery path).2

def hasScheme (uri : Text) : Bool :=
  match splitOnce ':' uri with
  | none => false
  | some (scheme, _) =>
    -- The colon stands before the first delimiter.
    !(scheme.any (fun c => c == '/' || c == '?')) && match scheme with
      | [] => false
      | first :: _ => first.isAlpha && scheme.all (fun c => c.isAlphanum || c == '+' || c == '-' || c == '.')

namespace Resource

def new (origin : Origin) (path : Text) : Except Error Resource := do
  let path ← normalizeAbsolutePath path
  pure ⟨origin, path⟩

/-- Resolve one playlist URI. An absolute reference is accepted on exactly this origin only. -/
def resolve (self : Resource) (reference : Text) : Except Error Resource := do
  validateUriText reference
  check (reference ≠ [] ∧ ¬ ['?'] <+: reference) (.invalidUri "URI has no path")
  check (¬ ['/', '/'] <+: reference) .crossOrigin
  if hasScheme reference then
    check ("http://".toList <+: reference ∨ "https://".toList <+: reference) (.invalidUri "unsupported URI scheme")
    match Origin.parse reference with
    | none => .error (.invalidUri "malformed absolute URI")
    | some childOrigin =>
      check (childOrigin = self.origin) .crossOrigin
      let path := (split reference).2
      new childOrigin (if path.isEmpty then ['/'] else path)
  else if ['/'] <+: reference then new self.origin reference
  else match throughLast '/' (pathQuery self.path).1 with
    | none => .error (.invalidUri "base URI has no directory")
    | some directory => new self.origin (directory ++ reference)

end Resource

open Text Checks

inductive PlaylistType
  | event
  | vod
deriving DecidableEq

structure Duration where
  secs : Nat
  nanos : Nat
deriving DecidableEq

structure Variant where
  resource : Resource
  bandwidth : Nat

structure MasterPlaylist where
  source : Resource
  version : Option Nat
  variant : Variant

structure Segment where
  sequence : Nat
  duration : Duration
  resource : Resource
deriving DecidableEq

structure MediaPlaylist where
  source : Resource
  version : Option Nat
  targetDurationSecs : Nat
  startOffsetMicros : Option Int
  mediaSequence : Nat
  playlistType : Option PlaylistType
  segments : List Segment
  endList : Bool
deriving DecidableEq

def malformed {α : Type} (line : Nat) (reason : String) : Except Error α := .error (.malformed line reason)

/-- The value of an option, or the playlist is malformed at this line. -/
def orMalformed {α : Type} (line : Nat) (reason : String) : Option α → Except Error α
  | some a => .ok a
  | none => malformed line reason

def tagName (line : Text) : Text :=
  match splitOnce ':' line with
  | some (name, _) => name
  | none => line

def forbiddenFeature (line : Text) : Option String :=
  let name := tagName line
  if name = "#EXT-X-KEY".toList ∨ name = "#EXT-X-SESSION-KEY".toList then some "encrypted segments"
  else if name = "#EXT-X-BYTERANGE".toList then some "byte-range segments"
  else if name = "#EXT-X-MAP".toList then some "fMP4 initialization map"
  else if name = "#EXT-X-DISCONTINUITY".toList ∨ name = "#EXT-X-DISCONTINUITY-SEQUENCE".toList then some "discontinuities"
  else none

def setOnce {α : Type} (slot : Option α) (value : α) (line : Nat) (reason : String) : Except Error α :=
  if slot.isSome then malformed line reason else .ok value

def parsePositiveU32 (value : Text) (line : Nat) : Except Error Nat := do
  let value ← orMalformed line "invalid version" (parse 4294967296 value)
  check (value ≠ 0) (.malformed line "version must be positive")
  pure value

def parseU64 (value : Text) (line : Nat) (reason : String) : Except Error Nat := do
  check (value ≠ [] ∧ value.all Char.isDigit) (.malformed line reason)
  orMalformed line reason (parse size value)

def parsePositiveU64 (value : Text) (line : Nat) (reason : String) : Except Error Nat := do
  let value ← parseU64 value line reason
  check (value ≠ 0) (.malformed line reason)
  pure value

/-- The attributes between the commas that no quotes hold, and whether a quote is left open. -/
def splitAttributes : Text → Bool → Text → List Text × Bool
  | [], quoted, item => ([item], quoted)
  | c :: rest, quoted, item =>
    if c = '"' then splitAttributes rest (!quoted) (item ++ [c])
    else if c = ',' ∧ quoted = false then ((splitAttributes rest quoted []).map (item :: ·) id)
    else splitAttributes rest quoted (item ++ [c])

def parseAttributes (line : Nat) : List Text → List Text → Option Nat → Except Error (Option Nat)
  | [], _, bandwidth => .ok bandwidth
  | item :: rest, keys, bandwidth => do
      let (key, rawValue) ← orMalformed line "variant attribute has no value" (splitOnce '=' item)
      check (key ≠ [] ∧ key.all (fun c => c.isUpper || c.isDigit || c == '-') ∧ rawValue ≠ [] ∧ key ∉ keys)
        (.malformed line "invalid or duplicate variant attribute")
      let quotedValue := ['"'].isPrefixOf rawValue
      if quotedValue then
        check (2 ≤ rawValue.length ∧ ['"'] <:+ rawValue ∧ '"' ∉ (rawValue.drop 1).dropLast)
          (.malformed line "malformed quoted variant attribute")
      else
        check ('"' ∉ rawValue ∧ ¬ rawValue.any isAsciiWhitespace) (.malformed line "malformed variant attribute value")
      if key = "BANDWIDTH".toList then
        check (quotedValue = false) (.malformed line "bandwidth must be an integer")
        let value ← parsePositiveU64 rawValue line "invalid bandwidth"
        parseAttributes line rest (keys ++ [key]) (some value)
      else parseAttributes line rest (keys ++ [key]) bandwidth

def parseVariantBandwidth (value : Text) (line : Nat) : Except Error Nat := do
  check (value ≠ []) (.malformed line "empty variant attribute list")
  let (items, quoted) := splitAttributes value false []
  check (quoted = false) (.malformed line "unterminated quoted variant attribute")
  let bandwidth ← parseAttributes line items [] none
  orMalformed line "variant has no bandwidth" bandwidth

/-- The whole seconds of a decimal, and its fraction where a point was written. -/
def splitDecimal (number : Text) : Text × Option Text :=
  match splitOnce '.' number with
  | some (seconds, fraction) => (seconds, some fraction)
  | none => (number, none)

/-- A fraction of at most `places` digits, in units of the last place. -/
def parseFraction (places limit : Nat) (line : Nat) (reason : String) : Option Text → Except Error Nat
  | none => .ok 0
  | some fraction => do
      check (fraction ≠ [] ∧ fraction.length ≤ places ∧ fraction.all Char.isDigit) (.malformed line reason)
      let value ← orMalformed line reason (parse limit fraction)
      pure (value * 10 ^ (places - fraction.length))

def parseExtinf (value : Text) (line : Nat) : Except Error Duration := do
  let (number, _) ← orMalformed line "EXTINF has no comma" (splitOnce ',' value)
  let (seconds, fraction) := splitDecimal number
  check (seconds ≠ [] ∧ seconds.all Char.isDigit) (.malformed line "invalid EXTINF duration")
  let seconds ← orMalformed line "EXTINF duration overflows" (parse size seconds)
  let nanos ← parseFraction 9 4294967296 line "invalid EXTINF fraction" fraction
  check (¬ (seconds = 0 ∧ nanos = 0)) (.malformed line "zero EXTINF duration")
  pure ⟨seconds, nanos⟩

def parseSignedDecimalMicros (value : Text) (line : Nat) : Except Error Int := do
  let (negative, value) := match stripPrefix ['-'] value with
    | some value => (true, value)
    | none => (false, value)
  let (seconds, fraction) := splitDecimal value
  check (seconds ≠ [] ∧ seconds.all Char.isDigit) (.malformed line "invalid start time offset")
  let seconds ← orMalformed line "start time offset overflows" (parse half seconds)
  check (seconds * 1000000 < half) (.malformed line "start time offset overflows")
  let micros ← parseFraction 6 half line "invalid start time offset" fraction
  check (seconds * 1000000 + micros < half) (.malformed line "start time offset overflows")
  let total : Int := seconds * 1000000 + micros
  pure (if negative then -total else total)

/-- The lines with their numbers, without the ends of the lines. -/
def numberedLines : Nat → List Text → Except Error (List (Nat × Text))
  | _, [] => .ok []
  | lineNo, raw :: rest => do
      let line := (stripSuffix ['\x0d'] raw).getD raw
      check ('\x0d' ∉ line ∧ '\x00' ∉ line) (.malformed lineNo "control character in line")
      check (line = trim line) (.malformed lineNo "leading or trailing whitespace")
      let later ← numberedLines (lineNo + 1) rest
      pure ((lineNo, line) :: later)

def playlistLines (text : Text) : Except Error (List (Nat × Text)) := do
  let lines ← numberedLines 1 (text.splitOn '\n')
  check (lines.head?.map Prod.snd = some "#EXTM3U".toList) .missingHeader
  pure lines

/-- What a tag that no branch of its own reads does to the parse. -/
def otherTag {α : Type} (state : α) (lineNo : Nat) (line : Text) : Except Error α :=
  if line = "#EXTM3U".toList then malformed lineNo "duplicate header"
  else match forbiddenFeature line with
    | some feature => .error (.unsupportedFeature feature)
    | none => if "#EXT".toList <+: line then .error (.unsupportedTag (tagName line)) else .ok state

def allowCache {α : Type} (state : α) (value : Text) (lineNo : Nat) : Except Error α := do
  check (value = "YES".toList ∨ value = "NO".toList) (.malformed lineNo "invalid allow-cache value")
  pure state

structure MasterScan where
  version : Option Nat := none
  independentSegments : Bool := false
  pendingBandwidth : Option Nat := none
  variant : Option Variant := none

def masterTag (state : MasterScan) (lineNo : Nat) (line : Text) : Except Error MasterScan :=
  match stripPrefix "#EXT-X-STREAM-INF:".toList line with
  | some value => do
      check (state.variant.isNone) .multipleVariants
      let bandwidth ← parseVariantBandwidth value lineNo
      pure { state with pendingBandwidth := some bandwidth }
  | none => match stripPrefix "#EXT-X-VERSION:".toList line with
  | some value => do
      let value ← parsePositiveU32 value lineNo
      let version ← setOnce state.version value lineNo "duplicate version"
      pure { state with version := some version }
  | none =>
    if line = "#EXT-X-INDEPENDENT-SEGMENTS".toList then do
      check (state.independentSegments = false) (.malformed lineNo "duplicate independent-segments tag")
      pure { state with independentSegments := true }
    else match stripPrefix "#EXT-X-ALLOW-CACHE:".toList line with
      | some value => allowCache state value lineNo
      | none => otherTag state lineNo line

def masterUri (source : Resource) (state : MasterScan) (lineNo : Nat) (line : Text) : Except Error MasterScan := do
  let bandwidth ← orMalformed lineNo "URI has no EXT-X-STREAM-INF" state.pendingBandwidth
  check (state.variant.isNone) .multipleVariants
  let resource ← source.resolve line
  check (".m3u8".toList <:+ (pathQuery resource.path).1) .childIsNotPlaylist
  pure { state with pendingBandwidth := none, variant := some ⟨resource, bandwidth⟩ }

def masterLine (source : Resource) (state : MasterScan) (lineNo : Nat) (line : Text) : Except Error MasterScan := do
  if line.isEmpty ∨ ['#'] <+: line then
    check (state.pendingBandwidth.isNone) (.malformed lineNo "variant URI must immediately follow EXT-X-STREAM-INF")
    if line.isEmpty then pure state else masterTag state lineNo line
  else masterUri source state lineNo line

def parseMaster (source : Resource) (text : Text) : Except Error MasterPlaylist := do
  let lines ← playlistLines text
  let state ← (lines.drop 1).foldlM (fun state numbered => masterLine source state numbered.1 numbered.2) {}
  check (state.pendingBandwidth.isNone) (.malformed 0 "EXT-X-STREAM-INF has no URI")
  match state.variant with
  | none => .error .missingVariant
  | some variant => pure ⟨source, state.version, variant⟩

/-- A duration is pending only behind a media sequence. -/
structure MediaScan where
  version : Option Nat := none
  targetDuration : Option Nat := none
  startOffsetMicros : Option Int := none
  mediaSequence : Option Nat := none
  playlistType : Option PlaylistType := none
  independentSegments : Bool := false
  pendingDuration : Option Duration := none
  pendingProgramTime : Bool := false
  segments : List Segment := []
  endList : Bool := false
  gated : pendingDuration.isSome → mediaSequence.isSome := by nofun

def programTime (state : MediaScan) (value : Text) (lineNo : Nat) : Except Error MediaScan := do
  check (value ≠ [] ∧ ¬ value.any (fun c => isAsciiWhitespace c || isAsciiControl c)) (.malformed lineNo "invalid program date-time")
  check (state.pendingProgramTime = false) (.malformed lineNo "two program date-times precede one segment")
  pure { state with pendingProgramTime := true }

def extinf (state : MediaScan) (value : Text) (lineNo : Nat) : Except Error MediaScan :=
  if gate : state.targetDuration.isSome ∧ state.mediaSequence.isSome then do
    let duration ← parseExtinf value lineNo
    pure { state with pendingDuration := some duration, gated := fun _ => gate.2 }
  else malformed lineNo "target duration and media sequence must precede segments"

def mediaTag (state : MediaScan) (lineNo : Nat) (line : Text) : Except Error MediaScan :=
  match stripPrefix "#EXT-X-VERSION:".toList line with
  | some value => do
      let value ← parsePositiveU32 value lineNo
      let version ← setOnce state.version value lineNo "duplicate version"
      pure { state with version := some version }
  | none => match stripPrefix "#EXT-X-TARGETDURATION:".toList line with
  | some value => do
      let value ← parsePositiveU64 value lineNo "invalid target duration"
      let targetDuration ← setOnce state.targetDuration value lineNo "duplicate target duration"
      pure { state with targetDuration := some targetDuration }
  | none => match stripPrefix "#EXT-X-START:".toList line with
  | some value => do
      let value ← orMalformed lineNo "invalid start attributes" (stripPrefix "TIME-OFFSET=".toList value)
      let value ← parseSignedDecimalMicros value lineNo
      let startOffsetMicros ← setOnce state.startOffsetMicros value lineNo "duplicate start tag"
      pure { state with startOffsetMicros := some startOffsetMicros }
  | none => match stripPrefix "#EXT-X-MEDIA-SEQUENCE:".toList line with
  | some value => do
      let value ← parseU64 value lineNo "invalid media sequence"
      let mediaSequence ← setOnce state.mediaSequence value lineNo "duplicate media sequence"
      pure { state with mediaSequence := some mediaSequence, gated := fun _ => rfl }
  | none => match stripPrefix "#EXT-X-PLAYLIST-TYPE:".toList line with
  | some value => do
      let value ← orMalformed lineNo "invalid playlist type"
        (if value = "EVENT".toList then some .event else if value = "VOD".toList then some .vod else none)
      let playlistType ← setOnce state.playlistType value lineNo "duplicate playlist type"
      pure { state with playlistType := some playlistType }
  | none => match stripPrefix "#EXT-X-PROGRAM-DATE-TIME:".toList line with
  | some value => programTime state value lineNo
  | none => match stripPrefix "#EXTINF:".toList line with
  | some value => extinf state value lineNo
  | none =>
    if line = "#EXT-X-INDEPENDENT-SEGMENTS".toList then do
      check (state.independentSegments = false) (.malformed lineNo "duplicate independent-segments tag")
      pure { state with independentSegments := true }
    else match stripPrefix "#EXT-X-ALLOW-CACHE:".toList line with
      | some value => allowCache state value lineNo
      | none =>
        if line = "#EXT-X-ENDLIST".toList then do
          check (state.pendingProgramTime = false) (.malformed lineNo "program date-time has no segment")
          pure { state with endList := true }
        else otherTag state lineNo line

def mediaUri (source : Resource) (state : MediaScan) (lineNo : Nat) (line : Text) : Except Error MediaScan :=
  match held : state.pendingDuration with
  | none => malformed lineNo "segment URI has no EXTINF"
  | some duration =>
    match add? (state.mediaSequence.get (state.gated (by rw [held]; rfl))) state.segments.length with
    | none => .error .sequenceOverflow
    | some sequence => do
        let resource ← source.resolve line
        check (".ts".toList <:+ (pathQuery resource.path).1.map Char.toLower) .segmentIsNotMpegTs
        pure { state with
          pendingDuration := none
          segments := state.segments ++ [⟨sequence, duration, resource⟩]
          pendingProgramTime := false
          gated := nofun }

def mediaLine (source : Resource) (state : MediaScan) (lineNo : Nat) (line : Text) : Except Error MediaScan := do
  if line.isEmpty then
    check (state.pendingDuration.isNone) (.malformed lineNo "segment URI must immediately follow EXTINF")
    pure state
  else if state.endList then
    check (['#'] <+: line ∧ ¬ "#EXT".toList <+: line) (.malformed lineNo "content follows EXT-X-ENDLIST")
    pure state
  else if ['#'] <+: line then
    check (state.pendingDuration.isNone) (.malformed lineNo "segment URI must immediately follow EXTINF")
    mediaTag state lineNo line
  else mediaUri source state lineNo line

def parseMedia (source : Resource) (text : Text) : Except Error MediaPlaylist := do
  let lines ← playlistLines text
  let state ← (lines.drop 1).foldlM (fun state numbered => mediaLine source state numbered.1 numbered.2) {}
  check (state.pendingDuration.isNone) (.malformed 0 "EXTINF has no segment URI")
  check (state.pendingProgramTime = false) (.malformed 0 "program date-time has no segment")
  match state.targetDuration, state.mediaSequence with
  | none, _ => .error .missingTargetDuration
  | some _, none => .error .missingMediaSequence
  | some targetDurationSecs, some mediaSequence =>
    check (mediaSequence + state.segments.length < size) .sequenceOverflow
    pure ⟨source, state.version, targetDurationSecs, state.startOffsetMicros, mediaSequence, state.playlistType, state.segments,
      state.endList⟩

theorem otherTag_same {α : Type} (state : α) (lineNo : Nat) (line : Text) :
    Leaves (· = state) (otherTag state lineNo line) := by
  unfold otherTag
  split
  · exact .error
  · split
    · exact .error
    · split
      · exact .error
      · exact .pure rfl

theorem allowCache_same {α : Type} (state : α) (value : Text) (lineNo : Nat) :
    Leaves (· = state) (allowCache state value lineNo) := .seq fun _ => .pure rfl

theorem masterTag_variant (state : MasterScan) (lineNo : Nat) (line : Text) :
    Leaves (fun state' => state'.variant = state.variant) (masterTag state lineNo line) := by
  unfold masterTag
  split
  · exact .seq fun _ => .seq fun _ => .pure rfl
  · split
    · exact .seq fun _ => .seq fun _ => .pure rfl
    · split
      · exact .seq fun _ => .pure rfl
      · split
        · exact fun state' eq => congrArg _ (allowCache_same _ _ _ state' eq)
        · exact fun state' eq => congrArg _ (otherTag_same _ _ _ state' eq)

/-- What no tag of a media playlist touches: the segments so far and, behind it, the media
sequence they are numbered from. -/
def Tagged (state state' : MediaScan) : Prop :=
  state'.segments = state.segments ∧ (state.mediaSequence.isSome → state'.mediaSequence = state.mediaSequence)

theorem setOnce_unset {α : Type} (slot : Option α) (value : α) (line : Nat) (reason : String) :
    Leaves (fun _ => slot = none) (setOnce slot value line reason) := by
  unfold setOnce
  split
  case isTrue => exact .error
  case isFalse unset => exact .pure (Option.not_isSome_iff_eq_none.mp unset)

theorem mediaTag_tagged (state : MediaScan) (lineNo : Nat) (line : Text) :
    Leaves (Tagged state) (mediaTag state lineNo line) := by
  have kept : Tagged state state := ⟨rfl, fun _ => rfl⟩
  unfold mediaTag
  split
  · exact .seq fun _ => .seq fun _ => .pure kept
  split
  · exact .seq fun _ => .seq fun _ => .pure kept
  split
  · exact .seq fun _ => .seq fun _ => .seq fun _ => .pure kept
  split
  · refine .seq fun value => .after (setOnce_unset _ _ _ _) fun _ unset => .pure ⟨rfl, fun set => ?_⟩
    rw [unset] at set
    cases set
  split
  · exact .seq fun _ => .seq fun _ => .pure kept
  split
  · exact .seq fun _ => .seq fun _ => .pure kept
  split
  · unfold extinf
    split
    · exact .seq fun _ => .pure kept
    · exact .error
  split
  · exact .seq fun _ => .pure kept
  split
  · intro state' eq
    rw [allowCache_same _ _ _ state' eq]
    exact kept
  split
  · exact .seq fun _ => .pure kept
  · intro state' eq
    rw [otherTag_same _ _ _ state' eq]
    exact kept

end PlxNative.Hls
