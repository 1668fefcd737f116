import PlxNative.Hls.Render
import PlxNative.Hls.Tracker

/-! An accepted media playlist, written out and read again. -/
namespace PlxNative.Hls
open List Text Checks Decimal Segment
open Decimal (Digits written padded)
attribute [local instance (high)] List.decidableBAll

section
variable {source : Resource}

theorem digits_clean {s : Text} (digits : Digits s) : CleanLine s where
  visible := by
    intro c mem
    obtain ⟨low, high⟩ := digit_bounds (digits c mem)
    have low : 48 ≤ c.toNat := low
    have high : c.toNat ≤ 57 := high
    unfold isWhitespace
    simp only [Bool.or_eq_false_iff, Bool.and_eq_false_iff, decide_eq_false_iff_not, beq_eq_false_iff_ne]
    omega
  no_nul := fun mem => absurd (digits _ mem) (by decide)

theorem path_clean {path : Text} (confined : Confined path) : CleanLine path where
  visible := by
    intro c mem
    obtain ⟨ascii, white, control, -⟩ := confined.plain c mem
    unfold isAscii at ascii
    unfold isAsciiControl at control
    simp only [Bool.or_eq_true, decide_eq_true_eq] at ascii control
    have space : c.toNat ≠ 32 := by
      intro eq
      have here : c = ' ' := Char.toNat_inj.mp eq
      exact white (here ▸ rfl)
    unfold isWhitespace
    simp only [Bool.or_eq_false_iff, Bool.and_eq_false_iff, decide_eq_false_iff_not, beq_eq_false_iff_ne]
    omega
  no_nul := fun mem => (confined.plain _ mem).2.2.1 rfl

theorem renderDuration_clean (d : Duration) : CleanLine (renderDuration d) :=
  (digits_clean (written_digits _)).append
    ((show CleanLine ['.'] from ⟨by decide, by decide⟩).append (digits_clean (padded_digits _ _)))

theorem renderMicros_clean (m : Int) : CleanLine (renderMicros m) := by
  have sign : CleanLine (if m < 0 then ['-'] else []) := by
    split
    · exact ⟨by decide, by decide⟩
    · exact ⟨by decide, by decide⟩
  exact sign.append ((digits_clean (written_digits _)).append
    ((show CleanLine ['.'] from ⟨by decide, by decide⟩).append (digits_clean (padded_digits _ _))))

theorem clean_option {α : Type} {o : Option α} {line : α → Text} (clean : ∀ a, CleanLine (line a)) :
    ∀ written ∈ (o.map line).toList, CleanLine written := by
  intro written mem
  obtain ⟨a, -, rfl⟩ := Option.map_eq_some_iff.mp (Option.mem_toList.mp mem)
  exact clean a

theorem headerLines_clean (playlist : MediaPlaylist) : ∀ line ∈ headerLines playlist, CleanLine line := by
  intro line mem
  have number (n : Nat) : CleanLine (written n) := digits_clean (written_digits n)
  have kind (k : PlaylistType) : CleanLine (renderType k) := by cases k <;> exact ⟨by decide, by decide⟩
  rcases mem_append.mp mem with rest | type_
  rcases mem_append.mp rest with rest | sequence
  rcases mem_append.mp rest with rest | start
  rcases mem_append.mp rest with version | target
  · exact clean_option (fun n => (show CleanLine "#EXT-X-VERSION:".toList from ⟨by decide, by decide⟩).append (number n)) line version
  · rw [mem_singleton.mp target]
    exact (show CleanLine "#EXT-X-TARGETDURATION:".toList from ⟨by decide, by decide⟩).append (number _)
  · exact clean_option (fun m => (show CleanLine "#EXT-X-START:".toList from ⟨by decide, by decide⟩).append
      ((show CleanLine "TIME-OFFSET=".toList from ⟨by decide, by decide⟩).append (renderMicros_clean m))) line start
  · rw [mem_singleton.mp sequence]
    exact (show CleanLine "#EXT-X-MEDIA-SEQUENCE:".toList from ⟨by decide, by decide⟩).append (number _)
  · exact clean_option (fun k => (show CleanLine "#EXT-X-PLAYLIST-TYPE:".toList from ⟨by decide, by decide⟩).append (kind k)) line type_

theorem segmentLines_clean {segment : Segment} (fits : segment.Fits source) : ∀ line ∈ segmentLines segment, CleanLine line := by
  intro line mem
  rcases mem_cons.mp mem with rfl | path
  · exact (show CleanLine "#EXTINF:".toList from ⟨by decide, by decide⟩).append
      ((renderDuration_clean _).append ⟨by decide, by decide⟩)
  · rw [mem_singleton.mp path]
    exact path_clean fits.stays.confined

theorem renderLines_clean {playlist : MediaPlaylist} (fits : playlist.Fits source) : ∀ line ∈ renderLines playlist, CleanLine line := by
  intro line mem
  rcases mem_cons.mp mem with rfl | rest
  · exact ⟨by decide, by decide⟩
  rcases mem_append.mp rest with rest | ending
  rcases mem_append.mp rest with header | segments
  · exact headerLines_clean playlist line header
  · obtain ⟨segment, listed, here⟩ := mem_flatMap.mp segments
    exact segmentLines_clean (fits.segments segment listed) line here
  · split at ending
    · rw [mem_singleton.mp ending]
      exact ⟨by decide, by decide⟩
    · cases ending

theorem render_split {playlist : MediaPlaylist} (fits : playlist.Fits source) : (render playlist).splitOn '\n' = renderLines playlist :=
  splitOn_intercalate '\n' (fun line mem => (renderLines_clean fits line mem).absent (by decide)) (cons_ne_nil _ _)

end
section
variable {source : Resource} {playlist : MediaPlaylist}

theorem render_lines (fits : playlist.Fits source) : playlistLines (render playlist) = .ok (numbering 1 (renderLines playlist)) := by
  unfold playlistLines
  rw [render_split fits]
  exact seq_eq_ok.mpr ⟨_, numberedLines_clean 1 (renderLines_clean fits), then_eq_ok.mpr ⟨check_ok rfl, rfl⟩⟩

theorem lines_scan (fits : playlist.Fits source) :
    Scans source (renderLines playlist).tail {} (scanned playlist playlist.segments playlist.endList) := by
  have segments : Scans source (playlist.segments.flatMap segmentLines) (scanned playlist [] false) (scanned playlist playlist.segments false) :=
    segments_scan playlist.segments [] fits.segments fits.numbered fits.sequence
  exact ((header_scans fits).append segments).append (end_scans playlist)

theorem parseMedia_render (fits : playlist.Fits source) : parseMedia source (render playlist) = .ok playlist := by
  refine seq_eq_ok.mpr ⟨_, render_lines fits, seq_eq_ok.mpr ⟨_, lines_scan fits 2, ?_⟩⟩
  refine then_eq_ok.mpr ⟨check_ok rfl, then_eq_ok.mpr ⟨check_ok rfl, ?_⟩⟩
  refine then_eq_ok.mpr ⟨check_ok fits.sequence, ?_⟩
  rw [← fits.sourced]
  rfl

theorem parseMedia_fits (source : Resource) (text : Text) : Leaves (MediaPlaylist.Fits source) (parseMedia source text) := by
  intro playlist parsed
  have numbered := parseMedia_numbered source text playlist parsed
  have start : MediaScan.Fits source {} := ⟨nofun, nofun, nofun, nofun, nofun, nofun⟩
  obtain ⟨lines, -, parsed⟩ := seq_eq_ok.mp parsed
  obtain ⟨state, folded, parsed⟩ := seq_eq_ok.mp parsed
  have fits := Leaves.foldlM (fun state (numbered : Nat × Text) => mediaLine_fits source state numbered.1 numbered.2) start _ state folded
  rw [then_eq_ok, then_eq_ok] at parsed
  obtain ⟨-, -, parsed⟩ := parsed
  split at parsed
  · cases parsed
  · cases parsed
  next target sequence hasTarget hasSequence =>
    rw [then_eq_ok, check_eq_ok] at parsed
    obtain ⟨small, parsed⟩ := parsed
    cases parsed
    exact ⟨rfl, fits.version, fits.target target hasTarget, fits.start, small, numbered, fits.segments⟩

theorem parseMedia_writes (source : Resource) (text : Text) :
    Leaves (fun playlist => List.Forall₂ Writes (extinfs (textLines text)) (playlist.segments.map duration)) (parseMedia source text) := by
  intro playlist parsed
  obtain ⟨lines, read, parsed⟩ := seq_eq_ok.mp parsed
  obtain ⟨state, folded, parsed⟩ := seq_eq_ok.mp parsed
  obtain ⟨eq, head⟩ := playlistLines_spec text lines read
  obtain ⟨durations, writes, all⟩ := foldl_adds (lines.drop 1) {} state folded
  rw [then_eq_ok, then_eq_ok, check_eq_ok] at parsed
  obtain ⟨settled, -, parsed⟩ := parsed
  have lines_ : extinfs ((lines.drop 1).map Prod.snd) = extinfs (textLines text) := by
    rw [← eq] at head ⊢
    cases lines with
    | nil => rfl
    | cons first rest =>
      have tag : first.2 = "#EXTM3U".toList := Option.some.inj head
      rw [map_cons, tag]
      rfl
  have durations_ : durations = state.segments.map duration := by
    have all : state.segments.map duration ++ state.pendingDuration.toList = durations := all
    rw [Option.isNone_iff_eq_none.mp settled, Option.toList_none, append_nil] at all
    exact all.symm
  rw [lines_, durations_] at writes
  split at parsed
  · cases parsed
  · cases parsed
  · rw [then_eq_ok] at parsed
    cases parsed.2
    exact writes

theorem numbered_get {segments : List Segment} {first : Nat} (numbered : segments.map Segment.sequence = List.range' first segments.length)
    {i : Nat} {segment : Segment} (here : segments[i]? = some segment) : segment.sequence = first + i := by
  have bound : i < segments.length := (List.getElem?_eq_some_iff.mp here).1
  have mapped : (segments.map Segment.sequence)[i]? = some segment.sequence := by rw [List.getElem?_map, here]; rfl
  rw [numbered, List.getElem?_range' bound, Nat.one_mul] at mapped
  exact (Option.some.inj mapped).symm

/-- Writing an accepted playlist and reading it gives it again; its segments count up from its
media sequence, and each lasts what its line wrote. -/
theorem render_round_trip {text : Text} (parsed : parseMedia source text = .ok playlist) :
    parseMedia source (render playlist) = .ok playlist ∧
      (∀ i segment, playlist.segments[i]? = some segment →
        segment.sequence = playlist.mediaSequence + i ∧ playlist.mediaSequence + i < Usize.size ∧
          ¬ (segment.duration.secs = 0 ∧ segment.duration.nanos = 0)) ∧
      List.Forall₂ Writes (extinfs (textLines text)) (playlist.segments.map duration) ∧
      playlist.segments.length = (extinfs (textLines text)).length := by
  have fits := parseMedia_fits source text playlist parsed
  have writes := parseMedia_writes source text playlist parsed
  refine ⟨parseMedia_render fits, ?_, writes, ?_⟩
  · intro i segment here
    have bound : i < playlist.segments.length := (List.getElem?_eq_some_iff.mp here).1
    have small := fits.sequence
    exact ⟨numbered_get fits.numbered here, by omega, (fits.segments segment (List.mem_of_getElem? here)).duration.some_⟩
  · rw [writes.length_eq, length_map]

def sessionIndex : Resource := ⟨⟨.http, "tv".toList, 32400⟩, "/session/index.m3u8".toList⟩

def growingText : Text :=
  "#EXTM3U\x0d\n#EXT-X-TARGETDURATION:6\n#EXT-X-START:TIME-OFFSET=-1.5\n#EXT-X-MEDIA-SEQUENCE:07\n# note\n#EXTINF:5.25,\n../b/00.ts\n#EXT-X-ENDLIST\n".toList

def growingPlaylist : MediaPlaylist :=
  ⟨sessionIndex, none, 6, some (-1500000), 7, none, [⟨7, ⟨5, 250000000⟩, ⟨sessionIndex.origin, "/b/00.ts".toList⟩⟩], true⟩

theorem render_round_trip_growing :
    parseMedia sessionIndex (render growingPlaylist) = .ok growingPlaylist ∧ growingPlaylist.segments.length = (extinfs (textLines growingText)).length := by
  have parsed : parseMedia sessionIndex growingText = .ok growingPlaylist := by decide +kernel
  obtain ⟨again, -, -, count⟩ := render_round_trip parsed
  exact ⟨again, count⟩

end
end PlxNative.Hls
