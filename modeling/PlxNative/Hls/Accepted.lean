import Mathlib.Algebra.Order.Field.Rat
import Mathlib.Tactic.FieldSimp
import Mathlib.Tactic.Ring
import PlxNative.Hls.Confinement
import PlxNative.Lib.Digits

/-! What an accepted media playlist holds: numbers in their ranges, segments on their server, and
the duration that each of its lines wrote. -/
namespace PlxNative.Hls
open List Text Checks Usize Decimal
open Decimal (Digits value)

def decimalValue (number : Text) : ℚ :=
  match splitDecimal number with
  | (seconds, none) => value seconds
  | (seconds, some fraction) => value seconds + value fraction / 10 ^ fraction.length

def Duration.seconds (d : Duration) : ℚ := d.secs + d.nanos / 10 ^ 9

structure Duration.Fits (d : Duration) : Prop where
  secs : d.secs < size
  nanos : d.nanos < 10 ^ 9
  some_ : ¬ (d.secs = 0 ∧ d.nanos = 0)

/-- The duration is the number in front of the comma. -/
def Writes (line : Text) (d : Duration) : Prop :=
  ∃ number title, splitOnce ',' line = some (number, title) ∧ decimalValue number = d.seconds

section
variable {line : Nat} {reason : String}

theorem orMalformed_eq_ok {α : Type} {read : Option α} {a : α} : orMalformed line reason read = .ok a ↔ read = some a := by
  cases read with
  | none =>
    constructor
    · intro none_
      cases none_
    · intro none_
      cases none_
  | some b => exact ⟨fun eq => congrArg some (Except.ok.inj eq), fun eq => congrArg Except.ok (Option.some.inj eq)⟩

theorem all_digits {s : Text} : s.all Char.isDigit = true ↔ Digits s := all_eq_true

variable {places limit n : Nat}

theorem parseFraction_spec {fraction : Option Text} (read : parseFraction places limit line reason fraction = .ok n) :
    n < 10 ^ places ∧ ∀ digits ∈ fraction, n = value digits * 10 ^ (places - digits.length) ∧ digits.length ≤ places := by
  cases fraction with
  | none =>
    cases read
    exact ⟨Nat.pow_pos (by decide), fun _ none_ => by cases none_⟩
  | some fraction =>
    unfold parseFraction at read
    rw [then_eq_ok, check_eq_ok] at read
    obtain ⟨⟨some_, short, all⟩, read⟩ := read
    obtain ⟨found, parsed, read⟩ := seq_eq_ok.mp read
    cases read
    have digits := all_digits.mp all
    obtain ⟨rfl, _⟩ := parse_eq_some digits some_ (orMalformed_eq_ok.mp parsed)
    refine ⟨?_, fun d eq => by cases eq; exact ⟨rfl, short⟩⟩
    have below := value_lt digits
    calc value fraction * 10 ^ (places - fraction.length)
        < 10 ^ fraction.length * 10 ^ (places - fraction.length) := Nat.mul_lt_mul_of_pos_right below (Nat.pow_pos (by decide))
      _ = 10 ^ places := by rw [← Nat.pow_add, Nat.add_sub_of_le short]

theorem parseFraction_value {digits : Text} (read : parseFraction places limit line reason (some digits) = .ok n) :
    (value digits : ℚ) / 10 ^ digits.length = n / 10 ^ places := by
  obtain ⟨_, spec⟩ := parseFraction_spec read
  obtain ⟨rfl, short⟩ := spec digits rfl
  have whole : (10 : ℚ) ^ places = 10 ^ digits.length * 10 ^ (places - digits.length) := by rw [← pow_add, Nat.add_sub_of_le short]
  rw [whole]
  push_cast
  field_simp

variable {text : Text}

theorem parseExtinf_spec {d : Duration} (read : parseExtinf text line = .ok d) : d.Fits ∧ Writes text d := by
  obtain ⟨⟨number, title⟩, comma, read⟩ := seq_eq_ok.mp read
  have cut := orMalformed_eq_ok.mp comma
  simp only at read
  cases shape : splitDecimal number with
  | mk seconds fraction =>
    rw [shape] at read
    rw [then_eq_ok, check_eq_ok] at read
    obtain ⟨⟨some_, all⟩, read⟩ := read
    obtain ⟨secs, parsed, read⟩ := seq_eq_ok.mp read
    obtain ⟨nanos, fractioned, read⟩ := seq_eq_ok.mp read
    rw [then_eq_ok, check_eq_ok] at read
    obtain ⟨positive, read⟩ := read
    cases read
    obtain ⟨rfl, small⟩ := parse_eq_some (all_digits.mp all) some_ (orMalformed_eq_ok.mp parsed)
    refine ⟨⟨small, (parseFraction_spec fractioned).1, positive⟩, number, title, cut, ?_⟩
    unfold decimalValue Duration.seconds
    rw [shape]
    cases fraction with
    | none =>
      cases fractioned
      simp
    | some digits =>
      simp only
      rw [parseFraction_value fractioned]

theorem parseU64_spec (read : parseU64 text line reason = .ok n) : n < size := by
  unfold parseU64 at read
  rw [then_eq_ok] at read
  exact parse_lt (orMalformed_eq_ok.mp read.2)

theorem parsePositiveU64_spec (read : parsePositiveU64 text line reason = .ok n) : 0 < n ∧ n < size := by
  obtain ⟨value, parsed, read⟩ := seq_eq_ok.mp read
  rw [then_eq_ok, check_eq_ok] at read
  cases read.2
  exact ⟨Nat.pos_of_ne_zero read.1, parseU64_spec parsed⟩

theorem parsePositiveU32_spec (read : parsePositiveU32 text line = .ok n) : 0 < n ∧ n < 4294967296 := by
  obtain ⟨value, parsed, read⟩ := seq_eq_ok.mp read
  rw [then_eq_ok, check_eq_ok] at read
  cases read.2
  exact ⟨Nat.pos_of_ne_zero read.1, parse_lt (orMalformed_eq_ok.mp parsed)⟩

theorem parseSignedDecimalMicros_spec {m : Int} (read : parseSignedDecimalMicros text line = .ok m) :
    m.natAbs < half := by
  unfold parseSignedDecimalMicros at read
  rw [then_eq_ok] at read
  obtain ⟨-, read⟩ := read
  obtain ⟨seconds, -, read⟩ := seq_eq_ok.mp read
  rw [then_eq_ok] at read
  obtain ⟨-, read⟩ := read
  obtain ⟨micros, -, read⟩ := seq_eq_ok.mp read
  rw [then_eq_ok, check_eq_ok] at read
  obtain ⟨small, read⟩ := read
  cases read
  split <;> omega

theorem setOnce_spec {α : Type} {slot : Option α} {a b : α} (set : setOnce slot a line reason = .ok b) : b = a := by
  unfold setOnce at set
  split at set
  · cases set
  · cases set
    rfl

end
section
variable {source : Resource} {state : MediaScan}

/-- A segment as it is accepted: on its server, a transport stream, with a duration. -/
structure Segment.Fits (source : Resource) (segment : Segment) : Prop where
  duration : segment.duration.Fits
  stays : StaysOn source segment.resource
  stream : ".ts".toList <:+ (pathQuery segment.resource.path).1.map Char.toLower

/-- What has been read is in the range of its type. -/
structure MediaScan.Fits (source : Resource) (state : MediaScan) : Prop where
  version : ∀ n ∈ state.version, 0 < n ∧ n < 4294967296
  target : ∀ n ∈ state.targetDuration, 0 < n ∧ n < size
  start : ∀ m ∈ state.startOffsetMicros, m.natAbs < half
  sequence : ∀ n ∈ state.mediaSequence, n < size
  pending : ∀ d ∈ state.pendingDuration, d.Fits
  segments : ∀ segment ∈ state.segments, segment.Fits source

theorem forall_mem_some {α : Type} {P : α → Prop} {a : α} (holds : P a) : ∀ b ∈ some a, P b := by
  intro b eq
  cases eq
  exact holds

theorem setOnce_leaves {α : Type} (P : α → Prop) (slot : Option α) {a : α} (holds : P a) (line : Nat) (reason : String) :
    Leaves P (setOnce slot a line reason) := by
  intro b set
  rw [setOnce_spec set]
  exact holds

theorem mediaTag_fits (fits : state.Fits source) (lineNo : Nat) (line : Text) : Leaves (MediaScan.Fits source) (mediaTag state lineNo line) := by
  unfold mediaTag
  split
  · refine .after (fun n read => parsePositiveU32_spec read) fun n small =>
      .after (setOnce_leaves (fun n => 0 < n ∧ n < 4294967296) _ small _ _) fun n small => .pure ?_
    exact { fits with version := forall_mem_some small }
  split
  · refine .after (fun n read => parsePositiveU64_spec read) fun n small =>
      .after (setOnce_leaves (fun n => 0 < n ∧ n < size) _ small _ _) fun n small => .pure ?_
    exact { fits with target := forall_mem_some small }
  split
  · refine .seq fun _ => .after (fun m read => parseSignedDecimalMicros_spec read) fun m small =>
      .after (setOnce_leaves (fun m => m.natAbs < half) _ small _ _) fun m small => .pure ?_
    exact { fits with start := forall_mem_some small }
  split
  · refine .after (fun n read => parseU64_spec read) fun n small => .after (setOnce_leaves (· < size) _ small _ _) fun n small => .pure ?_
    exact { fits with sequence := forall_mem_some small }
  split
  · exact .seq fun _ => .seq fun _ => .pure { fits with }
  split
  · exact .seq fun _ => .seq fun _ => .pure { fits with }
  split
  · unfold extinf
    split
    · exact .after (fun d read => (parseExtinf_spec read).1) fun d small => .pure { fits with pending := forall_mem_some small }
    · exact .error
  split
  · exact .seq fun _ => .pure { fits with }
  split
  · intro state' eq
    rw [allowCache_same _ _ _ state' eq]
    exact fits
  split
  · exact .seq fun _ => .pure { fits with }
  · intro state' eq
    rw [otherTag_same _ _ _ state' eq]
    exact fits

theorem mediaUri_fits (fits : state.Fits source) (lineNo : Nat) (line : Text) : Leaves (MediaScan.Fits source) (mediaUri source state lineNo line) := by
  unfold mediaUri
  split
  · exact .error
  next duration held =>
    split
    · exact .error
    refine .after (fun r resolved => Resource.resolve_stays resolved) fun r stays => ?_
    refine .after (P := fun _ => ".ts".toList <:+ (pathQuery r.path).1.map Char.toLower) (fun _ checked => check_eq_ok.mp checked) fun _ stream => .pure ?_
    refine { fits with pending := nofun, segments := ?_ }
    exact forall_mem_append.mpr ⟨fits.segments, forall_mem_singleton.mpr ⟨fits.pending duration held, stays, stream⟩⟩

theorem mediaLine_fits (source : Resource) (state : MediaScan) (lineNo : Nat) (line : Text) (fits : state.Fits source) :
    Leaves (MediaScan.Fits source) (mediaLine source state lineNo line) := by
  unfold mediaLine
  split
  · exact .seq fun _ => .pure fits
  split
  · exact .seq fun _ => .pure fits
  split
  · exact .seq fun _ => mediaTag_fits fits lineNo line
  · exact mediaUri_fits fits lineNo line

/-- The durations read, of the segments and of one that waits for its own. -/
def MediaScan.durations (state : MediaScan) : List Duration := state.segments.map Segment.duration ++ state.pendingDuration.toList

def Adds (line : Text) (before after : List Duration) : Prop :=
  match stripPrefix "#EXTINF:".toList line with
  | none => after = before
  | some text => ∃ d, Writes text d ∧ after = before ++ [d]

theorem mediaTag_extinf (state : MediaScan) (lineNo : Nat) (text : Text) :
    mediaTag state lineNo ("#EXTINF:".toList ++ text) = extinf state text lineNo := by
  unfold mediaTag
  rw [stripPrefix_apart (by decide), stripPrefix_apart (by decide), stripPrefix_apart (by decide), stripPrefix_apart (by decide),
    stripPrefix_apart (by decide), stripPrefix_apart (by decide), stripPrefix_append]

theorem mediaTag_durations (lineNo : Nat) {line : Text} (other : stripPrefix "#EXTINF:".toList line = none) :
    Leaves (fun after => after.durations = state.durations) (mediaTag state lineNo line) := by
  unfold mediaTag
  split
  · exact .seq fun _ => .seq fun _ => .pure rfl
  split
  · exact .seq fun _ => .seq fun _ => .pure rfl
  split
  · exact .seq fun _ => .seq fun _ => .seq fun _ => .pure rfl
  split
  · exact .seq fun _ => .seq fun _ => .pure rfl
  split
  · exact .seq fun _ => .seq fun _ => .pure rfl
  split
  · exact .seq fun _ => .seq fun _ => .pure rfl
  rw [other]
  simp only
  split
  · exact .seq fun _ => .pure rfl
  split
  · intro after eq
    rw [allowCache_same _ _ _ after eq]
  split
  · exact .seq fun _ => .pure rfl
  · intro after eq
    rw [otherTag_same _ _ _ after eq]

theorem mediaUri_durations (source : Resource) (state : MediaScan) (lineNo : Nat) (line : Text) :
    Leaves (fun after => after.durations = state.durations) (mediaUri source state lineNo line) := by
  unfold mediaUri
  split
  · exact .error
  next duration held =>
    split
    · exact .error
    · refine .seq fun _ => .seq fun _ => .pure ?_
      unfold MediaScan.durations
      rw [held]
      simp

theorem mediaLine_adds (source : Resource) (state : MediaScan) (lineNo : Nat) (line : Text) :
    Leaves (fun after => Adds line state.durations after.durations) (mediaLine source state lineNo line) := by
  unfold Adds
  cases cut : stripPrefix "#EXTINF:".toList line with
  | some text =>
    simp only
    have whole := stripPrefix_eq_some.mp cut
    have some_ : ¬ line.isEmpty = true := by
      rw [whole]
      exact Bool.false_ne_true
    have marked : ['#'] <+: line ∧ "#EXT".toList <+: line := by
      rw [whole]
      exact ⟨⟨_, rfl⟩, ⟨_, rfl⟩⟩
    unfold mediaLine
    rw [if_neg some_]
    split
    · intro after read
      rw [then_eq_ok, check_eq_ok] at read
      exact absurd marked.2 read.1.2
    · rw [if_pos marked.1, whole, mediaTag_extinf]
      refine .after (P := fun _ => state.pendingDuration.isNone = true) (fun _ checked => check_eq_ok.mp checked) fun _ none_ => ?_
      unfold extinf
      split
      · refine .after (fun d read => (parseExtinf_spec read).2) fun d writes => .pure ⟨d, writes, ?_⟩
        unfold MediaScan.durations
        rw [Option.isNone_iff_eq_none.mp none_]
        simp
      · exact .error
  | none =>
    simp only
    unfold mediaLine
    split
    · exact .seq fun _ => .pure rfl
    split
    · exact .seq fun _ => .pure rfl
    split
    · exact .seq fun _ => mediaTag_durations lineNo cut
    · exact mediaUri_durations source state lineNo line

end
section
variable {source : Resource}

/-- The lines of a text, without their ends. -/
def textLines (text : Text) : List Text := (text.splitOn '\n').map (fun raw => (stripSuffix ['\x0d'] raw).getD raw)

/-- What stands behind the tag of the duration lines. -/
def extinfs (lines : List Text) : List Text := lines.filterMap (stripPrefix "#EXTINF:".toList)

theorem numberedLines_spec (n : Nat) (raws : List Text) :
    Leaves (fun lines => lines.map Prod.snd = raws.map (fun raw => (stripSuffix ['\x0d'] raw).getD raw)) (numberedLines n raws) := by
  induction raws generalizing n with
  | nil => exact .pure rfl
  | cons raw rest ih => exact .seq fun _ => .seq fun _ => .after (ih (n + 1)) fun later eq => .pure (by rw [map_cons, map_cons, eq])

theorem playlistLines_spec (text : Text) :
    Leaves (fun lines => lines.map Prod.snd = textLines text ∧ (textLines text).head? = some "#EXTM3U".toList) (playlistLines text) := by
  refine .after (numberedLines_spec 1 _) fun lines eq => ?_
  refine .after (P := fun _ => lines.head?.map Prod.snd = some "#EXTM3U".toList) (fun _ checked => check_eq_ok.mp checked) fun _ head => .pure ⟨eq, ?_⟩
  unfold textLines
  rw [← eq, List.head?_map]
  exact head

theorem foldl_adds (lines : List (Nat × Text)) (state : MediaScan) :
    Leaves (fun after => ∃ read, List.Forall₂ Writes (extinfs (lines.map Prod.snd)) read ∧ after.durations = state.durations ++ read)
      (lines.foldlM (fun state numbered => mediaLine source state numbered.1 numbered.2) state) := by
  induction lines generalizing state with
  | nil => exact .pure ⟨[], .nil, (append_nil _).symm⟩
  | cons numbered lines ih =>
    refine .after (mediaLine_adds source state numbered.1 numbered.2) fun mid adds => ?_
    intro last folded
    obtain ⟨read, writes, all⟩ := ih mid last folded
    unfold Adds at adds
    rw [map_cons]
    unfold extinfs at writes ⊢
    cases cut : stripPrefix "#EXTINF:".toList numbered.2 with
    | none =>
      rw [cut] at adds
      refine ⟨read, ?_, all.trans (by rw [adds])⟩
      rw [filterMap_cons_none cut]
      exact writes
    | some text =>
      rw [cut] at adds
      obtain ⟨d, written, eq⟩ := adds
      refine ⟨d :: read, ?_, all.trans (by rw [eq, append_assoc, singleton_append])⟩
      rw [filterMap_cons_some cut]
      exact .cons written writes

end
end PlxNative.Hls
