import PlxNative.Hls.Playlist
import PlxNative.Lib.Transducer
import Mathlib.Data.List.AList

/-! The refresh state of a growing media playlist: which segments have been handed out, and
what the next one must be. -/
namespace PlxNative.Hls
open List Text Checks Transducer

structure Refresh where
  newSegments : List Segment
  endList : Bool

structure MediaTracker where
  source : Option Resource := none
  nextSequence : Option Nat := none
  seen : AList (fun _ : Nat => Segment) := ∅
  ended : Bool := false

namespace MediaTracker

/-- The segments not handed out yet, behind the comparison with those that were. -/
def gather (self : MediaTracker) : List Segment → Nat → List Segment → Except Error (Nat × List Segment)
  | [], expected, additions => .ok (expected, additions)
  | segment :: rest, expected, additions =>
    if segment.sequence < expected then
      match self.seen.lookup segment.sequence with
      | some previous =>
        if previous = segment then gather self rest expected additions else .error (.segmentChanged segment.sequence)
      | none => .error (.unknownOldSegment segment.sequence)
    else if expected < segment.sequence then .error (.sequenceGap expected segment.sequence)
    else if self.ended then .error (.segmentAfterEndList segment.sequence)
    else match Usize.add? expected 1 with
      | none => .error .sequenceOverflow
      | some next => gather self rest next (additions ++ [segment])

/-- The end of `apply`, behind every check. -/
def commit (self : MediaTracker) (playlist : MediaPlaylist) (expected : Nat) (additions : List Segment) : MediaTracker :=
  { source := some (self.source.getD playlist.source)
    nextSequence := some expected
    seen := additions.foldl (fun seen segment => seen.insert segment.sequence segment) self.seen
    ended := self.ended || playlist.endList }

/-- The tracker a call leaves, with its answer. -/
def apply (self : MediaTracker) (playlist : MediaPlaylist) : MediaTracker × Except Error Refresh :=
  if self.source.any (fun source => decide (source ≠ playlist.source)) then (self, .error .refreshSourceChanged)
  else if self.nextSequence.getD playlist.mediaSequence < playlist.mediaSequence then
    (self, .error (.sequenceGap (self.nextSequence.getD playlist.mediaSequence) playlist.mediaSequence))
  else match self.gather playlist.segments (self.nextSequence.getD playlist.mediaSequence) [] with
    | .error e => (self, .error e)
    | .ok (expected, additions) => match Usize.add? playlist.mediaSequence playlist.segments.length with
      | none => (self, .error .sequenceOverflow)
      | some playlistNext =>
        if playlist.endList ∧ playlistNext < expected then (self, .error .staleEndList)
        else
          let after := self.commit playlist expected additions
          (after, .ok ⟨additions, after.ended⟩)

/-- What a call that succeeds hands out and leaves behind. -/
structure Takes (t : MediaTracker) (playlist : MediaPlaylist) (expected : Nat) (additions : List Segment) : Prop where
  source : ∀ source ∈ t.source, source = playlist.source
  listed : playlist.mediaSequence ≤ t.nextSequence.getD playlist.mediaSequence
  gathered : t.gather playlist.segments (t.nextSequence.getD playlist.mediaSequence) [] = .ok (expected, additions)
  current : playlist.endList → expected ≤ playlist.mediaSequence + playlist.segments.length

theorem apply_cases (self : MediaTracker) (playlist : MediaPlaylist) :
    (∃ e, self.apply playlist = (self, .error e)) ∨
      ∃ expected additions, Takes self playlist expected additions ∧
        self.apply playlist = (self.commit playlist expected additions, .ok ⟨additions, self.ended || playlist.endList⟩) := by
  unfold apply
  split
  case isTrue => exact .inl ⟨_, rfl⟩
  case isFalse eq =>
    split
    case isTrue => exact .inl ⟨_, rfl⟩
    case isFalse listed =>
      split
      · exact .inl ⟨_, rfl⟩
      next expected additions gathered =>
        split
        · exact .inl ⟨_, rfl⟩
        next playlistNext sum =>
          split
          case isTrue => exact .inl ⟨_, rfl⟩
          case isFalse current =>
            refine .inr ⟨expected, additions, ⟨?_, Nat.le_of_not_lt listed, gathered, ?_⟩, rfl⟩
            · intro source held
              rw [Option.mem_def.mp held] at eq
              simpa using eq
            · intro last
              rw [← Usize.add?_eq_some sum]
              exact Nat.le_of_not_lt fun stale => current ⟨last, stale⟩

theorem gather_eq_ok {self : MediaTracker} {segments additions additions' : List Segment} {expected expected' : Nat}
    (gathered : self.gather segments expected additions = .ok (expected', additions')) :
    ∃ fresh, additions' = additions ++ fresh ∧ fresh.map Segment.sequence = List.range' expected fresh.length ∧
      expected' = expected + fresh.length ∧ (self.ended → fresh = []) ∧
      ∀ segment ∈ segments, segment ∈ fresh ∨ self.seen.lookup segment.sequence = some segment := by
  fun_induction gather self segments expected additions with
  | case1 expected additions =>
    cases gathered
    exact ⟨[], (append_nil _).symm, rfl, rfl, fun _ => rfl, fun _ mem => absurd mem not_mem_nil⟩
  | case2 segment rest expected additions _ held ih =>
    obtain ⟨fresh, rfl, numbered, next, quiet, listed⟩ := ih gathered
    refine ⟨fresh, rfl, numbered, next, quiet, fun other mem => ?_⟩
    rcases mem_cons.mp mem with rfl | mem
    · exact .inr held
    · exact listed other mem
  | case3 => cases gathered
  | case4 => cases gathered
  | case5 => cases gathered
  | case6 => cases gathered
  | case7 => cases gathered
  | case8 segment rest expected additions notOld notNew running next sum ih =>
    have here : segment.sequence = expected := by omega
    have succ : next = expected + 1 := Usize.add?_eq_some sum
    subst succ
    obtain ⟨fresh, rfl, numbered, last, -, listed⟩ := ih gathered
    refine ⟨segment :: fresh, append_assoc .., ?_, ?_, fun ended => absurd ended running, fun other mem => ?_⟩
    · rw [map_cons, numbered, here]
      rfl
    · rw [last, length_cons]
      omega
    · rcases mem_cons.mp mem with rfl | mem
      · exact .inl mem_cons_self
      · exact (listed other mem).imp_left (mem_cons_of_mem _)

theorem gather_numbered {self : MediaTracker} {segments additions additions' : List Segment} {first expected expected' : Nat}
    (numbered : segments.map Segment.sequence = List.range' first segments.length) (start : first ≤ expected)
    (gathered : self.gather segments expected additions = .ok (expected', additions')) :
    expected' = max expected (first + segments.length) := by
  induction segments generalizing first expected additions with
  | nil =>
    cases gathered
    simp only [length_nil]
    omega
  | cons segment rest ih =>
    simp only [map_cons, length_cons, List.range'_succ, List.cons.injEq] at numbered
    obtain ⟨here, later⟩ := numbered
    unfold gather at gathered
    split at gathered
    case isTrue old =>
      split at gathered
      · split at gathered
        · rw [ih later (by omega) gathered, length_cons]
          omega
        · cases gathered
      · cases gathered
    case isFalse notOld =>
      split at gathered
      · cases gathered
      · split at gathered
        · cases gathered
        · split at gathered
          · cases gathered
          next next sum =>
            have succ := Usize.add?_eq_some sum
            rw [ih later (by omega) gathered, length_cons]
            omega

theorem lookup_inserts (additions : List Segment) (seen : AList (fun _ : Nat => Segment)) (number : Nat)
    (apart : (additions.map Segment.sequence).Nodup) :
    (additions.foldl (fun seen segment => seen.insert segment.sequence segment) seen).lookup number =
      (additions.find? (fun segment => segment.sequence = number)).or (seen.lookup number) := by
  induction additions generalizing seen with
  | nil => rfl
  | cons segment rest ih =>
    obtain ⟨alone, others⟩ := nodup_cons.mp apart
    rw [foldl_cons, ih _ others, List.find?_cons]
    by_cases eq : segment.sequence = number
    · have gone : rest.find? (fun segment => segment.sequence = number) = none := by
        rw [List.find?_eq_none]
        intro other mem equal
        exact alone (mem_map.mpr ⟨other, mem, (of_decide_eq_true equal).trans eq.symm⟩)
      rw [gone, decide_eq_true eq, ← eq, AList.lookup_insert]
      rfl
    · rw [decide_eq_false eq, AList.lookup_insert_ne (Ne.symm eq)]

end MediaTracker

theorem numbered_unique {segments : List Segment} {first : Nat}
    (numbered : segments.map Segment.sequence = List.range' first segments.length) {a b : Segment} (ha : a ∈ segments)
    (hb : b ∈ segments) (eq : a.sequence = b.sequence) : a = b := by
  have apart : (segments.map Segment.sequence).Nodup := by
    rw [numbered]
    exact nodup_range'
  exact inj_on_of_nodup_map apart ha hb eq

/-! A run of refreshes. -/

abbrev Call : Type := Event MediaTracker MediaPlaylist (Except Error Refresh)

def Call.accepted (call : Call) : Bool := call.answer.isOk

def Call.fresh (call : Call) : List Segment :=
  match call.answer with
  | .ok refresh => refresh.newSegments
  | .error _ => []

def handed (calls : List Call) : List Segment := calls.flatMap Call.fresh

/-- Where the first accepted playlist starts. -/
def firstNumber (calls : List Call) : Nat :=
  ((calls.find? Call.accepted).map (fun call => call.input.mediaSequence)).getD 0

/-- What a tracker holds of the calls made so far. -/
structure Tracked (past : List Call) (t : MediaTracker) : Prop where
  numbered : (handed past).map Segment.sequence = List.range' (firstNumber past) (handed past).length
  next : t.nextSequence = if past.any Call.accepted then some (firstNumber past + (handed past).length) else none
  seen : ∀ segment, t.seen.lookup segment.sequence = some segment ↔ segment ∈ handed past
  none_early : past.any Call.accepted = false → handed past = []

theorem firstNumber_snoc (past : List Call) (call : Call) :
    firstNumber (past ++ [call]) = if past.any Call.accepted then firstNumber past
      else if call.accepted then call.input.mediaSequence else 0 := by
  unfold firstNumber
  rw [List.find?_append]
  cases earlier : past.find? Call.accepted with
  | none =>
    have none_before : past.any Call.accepted = false := by
      rw [any_eq_false]
      exact List.find?_eq_none.mp earlier
    rw [none_before, List.find?_singleton]
    cases call.accepted <;> rfl
  | some first =>
    have some_before : past.any Call.accepted = true :=
      any_eq_true.mpr ⟨first, List.mem_of_find?_eq_some earlier, List.find?_some earlier⟩
    rw [some_before]
    rfl

theorem handed_snoc (past : List Call) (call : Call) : handed (past ++ [call]) = handed past ++ call.fresh := by
  simp [handed]

theorem Tracked.step (past : List Call) (self : MediaTracker) (playlist : MediaPlaylist) (tracked : Tracked past self) :
    Tracked (past ++ [event MediaTracker.apply self playlist]) (self.apply playlist).1 := by
  have fresh : Call.fresh (event MediaTracker.apply self playlist) = match (self.apply playlist).2 with
    | .ok refresh => refresh.newSegments
    | .error _ => [] := rfl
  have accepted : Call.accepted (event MediaTracker.apply self playlist) = (self.apply playlist).2.isOk := rfl
  rcases self.apply_cases playlist with ⟨e, failed⟩ | ⟨expected, additions, takes, taken⟩
  · rw [failed] at fresh accepted ⊢
    have any : (past ++ [event MediaTracker.apply self playlist]).any Call.accepted = past.any Call.accepted := by
      rw [any_append, any_cons, accepted]
      exact Bool.or_false _
    have eq : handed (past ++ [event MediaTracker.apply self playlist]) = handed past := by
      rw [handed_snoc, fresh, append_nil]
    have first : past.any Call.accepted → firstNumber (past ++ [event MediaTracker.apply self playlist]) = firstNumber past := by
      intro earlier
      rw [firstNumber_snoc, if_pos earlier]
    cases earlier : past.any Call.accepted with
    | false =>
      have nothing := tracked.none_early earlier
      refine ⟨by rw [eq, nothing]; rfl, ?_, by rw [eq]; exact tracked.seen, fun _ => eq.trans nothing⟩
      rw [any, tracked.next, earlier]
      rfl
    | true =>
      refine ⟨by rw [eq, first earlier]; exact tracked.numbered, ?_, by rw [eq]; exact tracked.seen, fun none_yet => ?_⟩
      · rw [any, eq, first earlier]
        exact tracked.next
      · rw [any, earlier] at none_yet
        cases none_yet
  · obtain ⟨more, joined, numbered, next, -, -⟩ := MediaTracker.gather_eq_ok takes.gathered
    subst joined
    rw [taken] at fresh accepted ⊢
    have any : (past ++ [event MediaTracker.apply self playlist]).any Call.accepted = true := by
      rw [any_append, any_cons, accepted]
      exact Bool.or_true _
    have all : handed (past ++ [event MediaTracker.apply self playlist]) = handed past ++ additions := by
      rw [handed_snoc, fresh]
    have first : firstNumber (past ++ [event MediaTracker.apply self playlist]) + (handed past).length =
        self.nextSequence.getD playlist.mediaSequence := by
      rw [firstNumber_snoc, accepted, tracked.next]
      cases earlier : past.any Call.accepted with
      | false => rw [tracked.none_early earlier]; rfl
      | true => rfl
    have numbered_all : (handed past ++ additions).map Segment.sequence =
        List.range' (firstNumber (past ++ [event MediaTracker.apply self playlist])) (handed past ++ additions).length := by
      rw [map_append, length_append, ← List.range'_append_1, first, numbered]
      congr 1
      cases earlier : past.any Call.accepted with
      | false => rw [tracked.none_early earlier]; rfl
      | true => rw [firstNumber_snoc, if_pos earlier]; exact tracked.numbered
    refine ⟨?_, ?_, fun segment => ?_, fun none_yet => ?_⟩
    · rw [all]
      exact numbered_all
    · rw [any, all, length_append, ← Nat.add_assoc, first]
      exact congrArg some next
    · rw [all]
      have apart : (additions.map Segment.sequence).Nodup := by
        rw [numbered]
        exact nodup_range'
      have held : (self.commit playlist expected additions).seen.lookup segment.sequence =
          (additions.find? (fun other => other.sequence = segment.sequence)).or (self.seen.lookup segment.sequence) :=
        MediaTracker.lookup_inserts additions self.seen _ apart
      rw [held]
      cases found : additions.find? (fun other => other.sequence = segment.sequence) with
      | none =>
        have absent : segment ∉ additions := fun mem => by
          simpa using List.find?_eq_none.mp found segment mem
        rw [Option.none_or, tracked.seen, mem_append, or_iff_left absent]
      | some other =>
        have mem : other ∈ handed past ++ additions := mem_append_right _ (List.mem_of_find?_eq_some found)
        have eq : other.sequence = segment.sequence := by simpa using List.find?_some found
        rw [Option.some_or, Option.some.injEq]
        constructor
        · rintro rfl
          exact mem
        · intro listed
          exact numbered_unique numbered_all mem listed eq
    · rw [any] at none_yet
      cases none_yet

/-- The segments of a parse are numbered from its media sequence. -/
def MediaScan.Numbered (state : MediaScan) : Prop :=
  state.segments.map Segment.sequence = List.range' (state.mediaSequence.getD 0) state.segments.length ∧
    (state.mediaSequence = none → state.segments = [])

theorem mediaLine_numbered (source : Resource) (state : MediaScan) (lineNo : Nat) (line : Text) (numbered : state.Numbered) :
    Leaves MediaScan.Numbered (mediaLine source state lineNo line) := by
  unfold mediaLine
  split
  · exact .seq fun _ => .pure numbered
  split
  · exact .seq fun _ => .pure numbered
  split
  · refine .seq fun _ state' tag => ?_
    obtain ⟨eq, kept⟩ := mediaTag_tagged state lineNo line state' tag
    unfold MediaScan.Numbered
    rw [eq]
    cases set : state.mediaSequence with
    | none =>
      rw [numbered.2 set]
      exact ⟨rfl, fun _ => rfl⟩
    | some m =>
      have kept := kept (by rw [set]; rfl)
      refine ⟨by rw [kept]; exact numbered.1, fun unset => ?_⟩
      rw [kept, set] at unset
      cases unset
  · unfold mediaUri
    split
    · exact .error
    next duration held =>
      split
      · exact .error
      next sequence sum =>
        refine .seq fun r => .seq fun _ => .pure ⟨?_, fun unset => ?_⟩
        · rw [map_append, numbered.1, length_append, length_singleton, List.range'_1_concat,
            Usize.add?_eq_some sum]
          exact congrArg (fun n => List.range' _ _ ++ [n + state.segments.length]) (Option.get_eq_getD _)
        · have some_sequence := state.gated (by rw [held]; rfl)
          rw [unset] at some_sequence
          cases some_sequence

theorem parseMedia_numbered (source : Resource) (text : Text) :
    Leaves (fun playlist => playlist.segments.map Segment.sequence =
      List.range' playlist.mediaSequence playlist.segments.length) (parseMedia source text) := by
  refine .seq fun lines => .after (Leaves.foldlM
    (fun state (numbered : Nat × Text) => mediaLine_numbered source state numbered.1 numbered.2) ⟨rfl, fun _ => rfl⟩ _) fun state numbered => ?_
  refine .seq fun _ => .seq fun _ => ?_
  split
  · exact .error
  · exact .error
  next m set =>
    refine .seq fun _ => .pure ?_
    have := numbered.1
    rw [set] at this
    exact this

theorem ended_run {t : MediaTracker} (ended : t.ended = true) (playlists : List MediaPlaylist) :
    ∀ call ∈ history MediaTracker.apply t playlists, ∀ refresh, call.answer = .ok refresh →
      refresh.endList = true ∧ refresh.newSegments = [] := by
  induction playlists generalizing t with
  | nil => exact fun call mem => absurd mem not_mem_nil
  | cons playlist rest ih =>
    intro call mem refresh answered
    rcases t.apply_cases playlist with ⟨e, failed⟩ | ⟨expected, additions, takes, taken⟩
    · rcases mem_cons.mp mem with rfl | later
      · rw [show (event MediaTracker.apply t playlist).answer = .error e from congrArg Prod.snd failed] at answered
        cases answered
      · rw [failed] at later
        exact ih ended call later refresh answered
    · obtain ⟨more, joined, -, -, quiet, -⟩ := MediaTracker.gather_eq_ok takes.gathered
      rcases mem_cons.mp mem with rfl | later
      · rw [show (event MediaTracker.apply t playlist).answer = _ from congrArg Prod.snd taken] at answered
        cases answered
        exact ⟨by rw [ended]; rfl, by rw [joined, quiet ended]; rfl⟩
      · rw [taken] at later
        have still : (t.commit playlist expected additions).ended = true := by
          change (t.ended || playlist.endList) = true
          rw [ended]
          rfl
        exact ih still call later refresh answered

theorem tracked_history (playlists : List MediaPlaylist) :
    Tracked (history MediaTracker.apply {} playlists) (run MediaTracker.apply {} playlists) := by
  have start : Tracked [] {} := ⟨rfl, rfl, fun segment => iff_of_false nofun not_mem_nil, fun _ => rfl⟩
  exact history_invariant MediaTracker.apply Tracked.step start playlists

/-- Every segment is handed out once, in order, and a refresh that fails changes nothing. -/
theorem segments_once_in_order (playlists : List MediaPlaylist) :
    (handed (history MediaTracker.apply {} playlists)).map Segment.sequence =
        List.range' (firstNumber (history MediaTracker.apply {} playlists)) (handed (history MediaTracker.apply {} playlists)).length ∧
      (∀ past call later refresh, history MediaTracker.apply {} playlists = past ++ call :: later → call.answer = .ok refresh →
        ∀ segment ∈ call.input.segments, (segment ∈ refresh.newSegments ∨ segment ∈ handed past) ∧
          ∀ earlier ∈ handed past, earlier.sequence = segment.sequence → earlier = segment) ∧
      (∀ (t : MediaTracker) playlist e, (t.apply playlist).2 = .error e → (t.apply playlist).1 = t) ∧
      (∀ past call later refresh, history MediaTracker.apply {} playlists = past ++ call :: later → call.answer = .ok refresh →
        refresh.endList = true → ∀ call' ∈ later, ∀ refresh', call'.answer = .ok refresh' →
          refresh'.endList = true ∧ refresh'.newSegments = []) ∧
      ∀ call ∈ history MediaTracker.apply {} playlists, call.before.ended = false → call.after.ended = true →
        (∃ source text, parseMedia source text = .ok call.input) →
          call.after.nextSequence = some (call.input.mediaSequence + call.input.segments.length) := by
  refine ⟨(tracked_history playlists).numbered, ?_, ?_, ?_, ?_⟩
  · intro past call later refresh whole answered segment listed
    obtain ⟨js, playlist, ks, -, rfl, rfl, -⟩ := history_split _ whole
    have tracked := tracked_history js
    generalize history MediaTracker.apply {} js = past at tracked
    generalize run MediaTracker.apply {} js = t at tracked answered listed
    have after := Tracked.step past t playlist tracked
    rcases t.apply_cases playlist with ⟨e, failed⟩ | ⟨expected, additions, takes, taken⟩
    · rw [show (event MediaTracker.apply t playlist).answer = .error e from congrArg Prod.snd failed] at answered
      cases answered
    · obtain ⟨more, joined, -, -, -, relisted⟩ := MediaTracker.gather_eq_ok takes.gathered
      subst joined
      have fresh : Call.fresh (event MediaTracker.apply t playlist) = additions := by
        unfold Call.fresh
        rw [show (event MediaTracker.apply t playlist).answer = _ from congrArg Prod.snd taken]
      rw [show (event MediaTracker.apply t playlist).answer = _ from congrArg Prod.snd taken] at answered
      cases answered
      have place : segment ∈ additions ∨ segment ∈ handed past := (relisted segment listed).imp_right (tracked.seen segment).mp
      refine ⟨place, fun earlier member same => ?_⟩
      have all := after.numbered
      rw [handed_snoc, fresh] at all
      exact numbered_unique all (mem_append_left _ member) (mem_append.mpr place.symm) same
  · intro t playlist e failed
    rcases t.apply_cases playlist with ⟨e', failed'⟩ | ⟨expected, additions, -, taken⟩
    · rw [failed']
    · rw [taken] at failed
      cases failed
  · intro past call later refresh whole answered last
    obtain ⟨js, playlist, ks, -, -, rfl, rfl⟩ := history_split _ whole
    refine ended_run ?_ ks
    rcases (run MediaTracker.apply {} js).apply_cases playlist with ⟨e, failed⟩ | ⟨expected, additions, -, taken⟩
    · rw [show (event MediaTracker.apply _ playlist).answer = .error e from congrArg Prod.snd failed] at answered
      cases answered
    · rw [show (event MediaTracker.apply _ playlist).answer = _ from congrArg Prod.snd taken] at answered
      cases answered
      rw [taken]
      exact last
  · rintro call member running ended ⟨source, text, parsed⟩
    obtain ⟨past, later, whole⟩ := append_of_mem member
    obtain ⟨js, playlist, ks, -, -, rfl, -⟩ := history_split _ whole
    have numbered := parseMedia_numbered source text playlist parsed
    have same : (event MediaTracker.apply (run MediaTracker.apply {} js) playlist).after =
      ((run MediaTracker.apply {} js).apply playlist).1 := rfl
    rw [same] at ended ⊢
    change (run MediaTracker.apply {} js).ended = false at running
    generalize run MediaTracker.apply {} js = t at ended running ⊢
    rcases t.apply_cases playlist with ⟨e, failed⟩ | ⟨expected, additions, takes, taken⟩
    · rw [failed, running] at ended
      cases ended
    · rw [taken] at ended ⊢
      change (t.ended || playlist.endList) = true at ended
      rw [running, Bool.false_or] at ended
      have reached := MediaTracker.gather_numbered numbered takes.listed takes.gathered
      have current := takes.current ended
      change some expected = some (playlist.mediaSequence + playlist.segments.length)
      congr 1
      omega

end PlxNative.Hls
