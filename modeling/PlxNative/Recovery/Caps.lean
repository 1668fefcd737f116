import Mathlib.Data.String.Basic
import PlxNative.Lib.Maps

/-! What a device decodes, and a copy of it that does without one stream. Counts and rates that
the code widens to 64 bits are integers here, and an announced set is its pieces between commas. -/
namespace PlxNative.Recovery

def asciiLower (s : String) : String := s.map Char.toLower

structure AppDecoded where
  id : String
  codecs : List String
  lossy : Bool
  measured : Bool

def pcmFlavours : List String := ["pcm_s16le", "pcm_s16be", "pcm_s24le", "pcm_s24be", "pcm_s32le", "pcm_s32be"]

def appDecoded : List AppDecoded := [
  ⟨"flac", ["flac"], false, false⟩,
  ⟨"alac", ["alac"], false, false⟩,
  ⟨"pcm", pcmFlavours, false, false⟩,
  ⟨"dts", ["dts"], true, true⟩,
  ⟨"mp3", ["mp3"], true, false⟩,
  ⟨"vorbis", ["vorbis"], true, false⟩,
  ⟨"truehd", ["truehd"], true, false⟩]

inductive AppLossy where
  | off
  | measured
  | all
deriving DecidableEq

def lossyRowEnabled (row : AppDecoded) (policy : AppLossy) : Bool :=
  row.lossy && match policy with
    | .off => false
    | .measured => row.measured
    | .all => true

def dpAudioCodecs : List String := ["aac", "ac3", "eac3", "dts", "opus"]

def pipelineOnlyAudio : List String := ["opus"]

def pcmAudioCodecs : List String := ["flac", "alac", "pcm"]

def pcmMaxChannels : Int := 2

def pcmSampleRates : List Int := [8000, 12000, 16000, 22050, 24000, 32000, 44100, 48000]

def audioRateCeiling : Int := 48000

def videoRefusalFloor : Nat × Nat := (1920, 1088)

def lowerCodecId (codec : String) : String :=
  if codec = "dca" then "dts"
  else if codec = "ec-3" then "eac3"
  else if codec = "lpcm" then "pcm"
  else if appDecoded.any (fun d => d.id = "pcm" && d.codecs.contains codec) then "pcm"
  else codec

/-- The one spelling of an audio codec's name. -/
def audioCodecId (codec : String) : String :=
  if codec.toList.any Char.isUpper then lowerCodecId (asciiLower codec) else lowerCodecId codec

def isPcmCodec (codec : String) : Bool := pcmAudioCodecs.contains (audioCodecId codec)

def appDecodeMixesDown (channels : Int) : Bool := !(1 ≤ channels && channels ≤ pcmMaxChannels)

def pcmLoadRate (source : Int) : Option Int :=
  if ¬ (1 ≤ source ∧ source ≤ 2 ^ 31 - 1) then none
  else if pcmSampleRates.contains source then some source
  else if source < 48000 then none
  else some (if source % 44100 = 0 then 44100 else 48000)

def audioRateBounded (codec : String) : Bool :=
  let id := audioCodecId codec
  !(id = "dts" || id = "truehd") && !pcmAudioCodecs.contains id

def audioTrackFits (codec : String) (channels sampleRate : Int) : Bool :=
  if isPcmCodec codec then (1 ≤ channels && channels ≤ pcmMaxChannels) && (pcmLoadRate sampleRate).isSome
  else sampleRate ≤ audioRateCeiling || !audioRateBounded codec

inductive Facet where
  | audio (codec : String) (channels : Nat)
  | video (codec : String) (width height : Nat)
deriving DecidableEq

def Facet.IsAudio : Facet → Prop
  | .audio _ _ => True
  | .video _ _ _ => False

def Facet.IsVideo : Facet → Prop
  | .audio _ _ => False
  | .video _ _ _ => True

instance : DecidablePred Facet.IsAudio
  | .audio _ _ => isTrue trivial
  | .video _ _ _ => isFalse id

structure Caps where
  hevcMax : Nat × Nat
  vp9Row : Nat × Nat × Nat
  av1Row : Nat × Nat × Nat
  audio : List String
  audioChannels : SortedMap String Nat
  nativeCeiling : SortedMap String Nat
  videoCeiling : SortedMap String (Nat × Nat)
  appLossy : AppLossy
  appLossyInForce : SortedMap String Unit
deriving DecidableEq

/-- `refusal_ceiling`: a stereo refusal takes the codec away, a wider one leaves stereo. -/
def refusalCeiling (channels : Nat) : Nat := if channels ≤ 2 then 0 else 2

namespace Caps

def audioHas (c : Caps) (codec : String) : Bool := c.audio.contains (audioCodecId codec)

/-- The pieces that are left. Nothing left is one empty piece. -/
def dropPiece (codec : String) (pieces : List String) : List String :=
  match pieces.filter (· ≠ codec) with
  | [] => [""]
  | kept => kept

/-- The native channels of a codec bounded, never raised. -/
def limitCodec (c : Caps) (codec : String) (max : Nat) : Caps :=
  if !c.audioHas codec then c
  else if max = 0 then { c with audio := dropPiece codec c.audio, audioChannels := c.audioChannels.erase codec }
  else
    let limit := ((c.audioChannels.lookup codec).filter (0 < ·)).elim max (min max)
    let native := (c.nativeCeiling.lookup codec).elim max (min max)
    { c with audioChannels := c.audioChannels.insert codec limit, nativeCeiling := c.nativeCeiling.insert codec native }

def appMayDecodeLossy (c : Caps) (codec : String) : Bool :=
  appDecoded.any (fun r => r.id = audioCodecId codec && lossyRowEnabled r c.appLossy)

/-- With a codec decoded in the app, whatever the set's own decoder does. -/
def withAppLossyFor (c : Caps) (codec : String) : Caps :=
  if !c.appMayDecodeLossy codec then c
  else
    let id := audioCodecId codec
    { c with
      audio := if c.audioHas id then c.audio else c.audio ++ [id]
      audioChannels := c.audioChannels.insert id 8
      appLossyInForce := c.appLossyInForce.insert id () }

def appMayMixDown (c : Caps) (channels : Int) (forced : Bool) : Bool :=
  !(forced && appDecodeMixesDown channels) || c.appLossy = .all

def bounded (bound row : Nat) : Nat := if 0 < row then min bound row else bound

def rasterBound (c : Caps) (vcodec : String) : Nat × Nat :=
  let row : Nat × Nat × Nat := if vcodec = "av1" then c.av1Row else if vcodec = "vp9" then c.vp9Row else (0, 0, 0)
  let w := bounded c.hevcMax.1 row.1
  let h := bounded c.hevcMax.2 row.2.1
  match c.videoCeiling.lookup vcodec with
  | some (cw, ch) => (min w cw, min h ch)
  | none => (w, h)

def audioSupports (c : Caps) (codec : String) (channels : Int) : Bool :=
  let id := audioCodecId codec
  if !c.audioHas id then false
  else
    let needsCount := id = "dts" || isPcmCodec id
    match c.audioChannels.lookup id with
    | some limit => (0 < channels || !needsCount) && channels ≤ (limit : Int)
    | none => !needsCount

def forcedAdmitsDts (c : Caps) : Bool := (c.audioChannels.lookup "dts").isSome

def forcedFeedsAudio (c : Caps) (codec : String) : Bool :=
  let id := audioCodecId codec
  if id = "dts" then c.forcedAdmitsDts
  else if pipelineOnlyAudio.contains id || isPcmCodec id then c.audioHas id
  else dpAudioCodecs.contains id

def forcedFeedsAudioTrack (c : Caps) (codec : String) (channels : Int) : Bool :=
  if !c.forcedFeedsAudio codec then false
  else match c.nativeCeiling.lookup (audioCodecId codec) with
    | some max => channels ≤ (max : Int)
    | none => true

def nativeAudioTrack (c : Caps) (codec : String) (channels sampleRate : Int) (forced : Bool) : Bool :=
  if (c.appLossyInForce.lookup (audioCodecId codec)).isSome then false
  else (if forced then c.forcedFeedsAudioTrack codec channels else c.audioSupports codec channels) &&
    audioTrackFits codec channels sampleRate

/-- A copy held to the floor, where the video is above it and the floor is tighter. -/
def withoutVideo (c : Caps) (codec : String) (width height : Nat) : Caps :=
  if videoRefusalFloor.1 < width ∨ videoRefusalFloor.2 < height then
    let bound := c.rasterBound codec
    let tighter := (min bound.1 videoRefusalFloor.1, min bound.2 videoRefusalFloor.2)
    if tighter ≠ bound then { c with videoCeiling := c.videoCeiling.insert codec tighter } else c
  else c

/-- A narrower copy, with one stream taken out of it. -/
def without (c : Caps) : Facet → Caps
  | .audio codec channels => c.limitCodec (audioCodecId codec) (refusalCeiling channels)
  | .video codec width height => c.withoutVideo (asciiLower codec) width height

section

theorem limitCodec_video (c : Caps) (codec : String) (max : Nat) (ceiling : SortedMap String (Nat × Nat)) :
    { c with videoCeiling := ceiling }.limitCodec codec max = { c.limitCodec codec max with videoCeiling := ceiling } := by
  unfold limitCodec audioHas
  split_ifs <;> rfl

theorem limitCodec_videoCeiling (c : Caps) (codec : String) (max : Nat) :
    (c.limitCodec codec max).videoCeiling = c.videoCeiling := by
  unfold limitCodec
  split_ifs <;> rfl

theorem limitCodec_rasterBound (c : Caps) (codec : String) (max : Nat) (vcodec : String) :
    (c.limitCodec codec max).rasterBound vcodec = c.rasterBound vcodec := by
  unfold limitCodec
  split_ifs <;> rfl

theorem without_comm {a v : Facet} (audio : a.IsAudio) (video : v.IsVideo) (c : Caps) :
    (c.without a).without v = (c.without v).without a := by
  cases a with
  | video codec width height => exact absurd audio id
  | audio codec channels =>
    cases v with
    | audio codec channels => exact absurd video id
    | video vcodec width height =>
      simp only [without, withoutVideo, limitCodec_rasterBound, limitCodec_videoCeiling]
      split_ifs
      · exact (limitCodec_video c _ _ _).symm
      · rfl
      · rfl

end
end Caps
end PlxNative.Recovery
