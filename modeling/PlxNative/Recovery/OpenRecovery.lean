import PlxNative.Recovery.Caps

/-! The ladder of a failed open: what a play request does when the pipeline, or the source,
fails it. The effects a step emits are its answer. -/
namespace PlxNative.Recovery

def maxRecoveryFlights : Nat := 2

inductive LoadRefusal where
  | refused (num : Int)
  | timedOut
  | stalled
  | sourceFailed
deriving DecidableEq

namespace LoadRefusal

def namesPipeline : LoadRefusal → Bool
  | .refused _ | .stalled => true
  | .timedOut | .sourceFailed => false

def reports : LoadRefusal → Bool
  | .sourceFailed => false
  | _ => true

def numbered : LoadRefusal → Bool
  | .refused _ => true
  | _ => false

end LoadRefusal

structure StreamAudio where
  codec : String
  channels : Nat
  appDecodedLossy : Bool
deriving DecidableEq

structure StreamVideo where
  codec : String
  width : Nat
  height : Nat
deriving DecidableEq

inductive Lane where
  | directPlay
  | copy
  | transcode
  | unstated
deriving DecidableEq

structure Lanes where
  video : Lane
  audio : Lane

/-- Whether a landed flight changed the facet alone. A video facet never proves. -/
def proves (lanes : Option Lanes) : Facet → Bool
  | .audio _ _ => match lanes with
    | some l => l.audio = .transcode && (l.video = .copy || l.video = .directPlay)
    | none => false
  | .video _ _ _ => false

def suspectAudio (audio : Option StreamAudio) : Option Facet :=
  (audio.filter (fun a => !a.appDecodedLossy)).bind (fun a =>
    if ["aac", "ac3", "eac3"].contains (audioCodecId a.codec) then none
    else some (.audio (audioCodecId a.codec) a.channels))

def suspectVideo (video : Option StreamVideo) : Option Facet :=
  (video.filter (fun v => 0 < v.width && 0 < v.height)).map (fun v => .video (asciiLower v.codec) v.width v.height)

def suspect (audio : Option StreamAudio) (video : Option StreamVideo) : Option Facet :=
  (suspectAudio audio).or (suspectVideo video)

/-- What the driver read at the moment of a failure. -/
structure OpenFacts where
  pendingOriginal : Bool
  autoOriginal : Bool
  noFrames : Bool
  nativeAudio : Option Facet
  forced : Bool
  direct : Bool
  audio : Option StreamAudio
  video : Option StreamVideo
deriving DecidableEq

inductive RecoveryEvent where
  | refused (refusal : LoadRefusal) (facts : OpenFacts)
  | flightLanded (lanes : Option Lanes)
  | flightRefused
  | firstPicture
  | loadStarted

inductive Evidence where
  | named
  | proof

inductive Rung where
  | rollback
  | facet
  | both
  | encode
deriving DecidableEq

structure Recovered where
  rung : Rung
  refusal : LoadRefusal
  facet : Option Facet

inductive RecoveryEffect where
  | confirmRefusal (facet : Facet) (evidence : Evidence)
  | rollback
  | convertFacet (facet : Facet) (flight : Nat)
  | convertBoth (flight : Nat)
  | startAutoHls
  | decodeInApp (audio : Facet) (refusal : LoadRefusal)
  | nameRefusedAudio (codec : String)
  | showError (refusal : LoadRefusal)
  | reportRecovered (recovered : Recovered)

inductive State where
  | opening
  | proving (facet : Facet) (loaded : Bool)
  | flight (rung : Rung) (cause : LoadRefusal) (facts : OpenFacts)
  | playing
  | failed
deriving DecidableEq

structure Excluded where
  audio : Option Facet
  video : Option Facet

namespace Excluded

def take (e : Excluded) (facet : Facet) : Excluded :=
  match facet with
  | .audio _ _ => { e with audio := some facet }
  | .video _ _ _ => { e with video := some facet }

def iter (e : Excluded) : List Facet := e.audio.toList ++ e.video.toList

end Excluded

/-- `start` less what is excluded, and then the codec the app decodes. -/
def attemptFor (start : Caps) (excluded : Excluded) (inApp : Option String) : Caps :=
  let narrowed := excluded.iter.foldl Caps.without start
  inApp.elim narrowed narrowed.withAppLossyFor

structure OpenRecovery where
  start : Caps
  attempt : Caps
  excluded : Excluded
  flights : Nat
  pictured : Bool
  inApp : Option String
  unprovable : Bool
  refused : Option (LoadRefusal × Option Facet)
  rescue : Option Rung
  reported : Bool
  state : State

namespace OpenRecovery

def new (start : Caps) : OpenRecovery :=
  ⟨start, start, ⟨none, none⟩, 0, false, none, false, none, none, false, .opening⟩

def narrow (m : OpenRecovery) : OpenRecovery := { m with attempt := attemptFor m.start m.excluded m.inApp }

/-- The facet narrows what the machine started with. -/
def narrowsStart (m : OpenRecovery) (facet : Facet) : Bool := m.start.without facet ≠ m.start

def narrowsAttempt (m : OpenRecovery) (facet : Facet) : Bool := m.attempt.without facet ≠ m.attempt

def excludeAll (m : OpenRecovery) (facets : List Facet) : OpenRecovery :=
  { m with excluded := facets.foldl Excluded.take m.excluded }

/-- A flight leaves: the open rests on its rung from now. -/
def fly (m : OpenRecovery) (rung : Rung) (refusal : LoadRefusal) (facts : OpenFacts) : OpenRecovery :=
  { m with state := .flight rung refusal facts, rescue := some rung }

/-- One more flight of those that are counted. -/
def countFlight (m : OpenRecovery) : OpenRecovery := { m with flights := m.flights + 1 }

def readOut (m : OpenRecovery) : OpenRecovery := { m with state := .failed, rescue := none }

/-- The codec that the app-decode rung would put in force. -/
def appDecodeFor (m : OpenRecovery) (refusal : LoadRefusal) (facts : OpenFacts) : Option Facet :=
  (facts.audio.filter (fun a => !a.appDecodedLossy)).bind (fun audio =>
    let id := audioCodecId audio.codec
    if m.inApp.isNone && refusal.namesPipeline && facts.noFrames && facts.direct && m.start.appMayDecodeLossy id &&
        m.start.appMayMixDown audio.channels facts.forced then
      some (.audio id audio.channels)
    else none)

/-- The codec that the app-decode rung puts in force. -/
def codecOf : Facet → Option String
  | .audio codec _ => some codec
  | .video _ _ _ => none

def tryAppDecode (m : OpenRecovery) (refusal : LoadRefusal) (facts : OpenFacts) :
    Option (OpenRecovery × List RecoveryEffect) :=
  (m.appDecodeFor refusal facts).map (fun audio =>
    let inForce := { m with
      inApp := (codecOf audio).or m.inApp
      excluded := { m.excluded with video := none } }
    ({ inForce.narrow with state := .opening, rescue := none }, [.decodeInApp audio refusal]))

def appDecodeOrError (m : OpenRecovery) (refusal : LoadRefusal) (facts : OpenFacts) : OpenRecovery × List RecoveryEffect :=
  (m.tryAppDecode refusal facts).getD (m.readOut, [.showError refusal])

/-- The refused raster, for a refusal that gave a number. -/
def numberedVideo (refusal : LoadRefusal) (facts : OpenFacts) : Option Facet :=
  if refusal.numbered then suspectVideo facts.video else none

def tryConvertBoth (m : OpenRecovery) (refusal : LoadRefusal) (facts : OpenFacts) :
    Option (OpenRecovery × List RecoveryEffect) :=
  if facts.autoOriginal || !facts.noFrames || !refusal.namesPipeline || maxRecoveryFlights ≤ m.flights then none
  else
    let audio := (suspectAudio facts.audio).filter m.narrowsAttempt
    let video := (numberedVideo refusal facts).filter m.narrowsAttempt
    let newVideo := (suspectVideo facts.video).isSome && m.excluded.video.isNone
    if !newVideo && audio.isNone then none
    else
      let counted := (m.excludeAll (audio.toList ++ video.toList)).narrow.countFlight
      some (counted.fly .encode refusal facts, [.convertBoth counted.flights])

/-- The codec that the read-out may name under Force Direct Play. -/
def refusalAttributableToAudio (m : OpenRecovery) (refusal : LoadRefusal) (facts : OpenFacts) : Option String :=
  if !refusal.namesPipeline || !facts.noFrames then none
  else if (suspectAudio facts.audio).isNone then none
  else facts.audio.bind (fun a =>
    let setPlaysIt := m.attempt.nativeAudioTrack a.codec a.channels 0 true
    let videoMayBeIt := (numberedVideo refusal facts).any m.narrowsAttempt
    if !isPcmCodec a.codec && !setPlaysIt && !videoMayBeIt then some a.codec else none)

/-- The request's first refusal that the report can name stays. -/
def noteRefusal (m : OpenRecovery) (refusal : LoadRefusal) (facts : OpenFacts) : OpenRecovery :=
  if m.refused.isSome || !refusal.reports then m
  else
    let video := facts.video.filter (fun _ => refusal.numbered)
    let facet := if refusal.namesPipeline then facts.nativeAudio.or (suspect facts.audio video) else none
    { m with refused := some (refusal, facet) }

/-- The rollback of a pending trial. Native audio that was refused is taken out of it. -/
def rollback (m : OpenRecovery) (refusal : LoadRefusal) (facts : OpenFacts) : OpenRecovery × List RecoveryEffect :=
  let narrowed := match facts.nativeAudio.filter m.narrowsStart with
    | some facet => { m with excluded := { m.excluded with audio := some facet } }.narrow
    | none => m
  (narrowed.fly .rollback refusal facts, [.rollback])

def decideForced (m : OpenRecovery) (refusal : LoadRefusal) (facts : OpenFacts) : OpenRecovery × List RecoveryEffect :=
  (m.tryAppDecode refusal facts).getD
    (m.readOut, ((m.refusalAttributableToAudio refusal facts).map .nameRefusedAudio).toList ++ [.showError refusal])

def tryFacet (m : OpenRecovery) (refusal : LoadRefusal) (facts : OpenFacts) : Option (OpenRecovery × List RecoveryEffect) :=
  if refusal.namesPipeline && facts.noFrames && m.flights = 0 then
    let video := facts.video.filter (fun _ => !facts.autoOriginal && refusal.numbered)
    ((suspect facts.audio video).filter m.narrowsStart).map (fun facet =>
      let marked := { m with unprovable := m.unprovable || facts.audio.any StreamAudio.appDecodedLossy }
      let counted := (marked.excludeAll [facet]).narrow.countFlight
      (counted.fly .facet refusal facts, [.convertFacet facet counted.flights]))
  else none

def tryAutoHls (m : OpenRecovery) (refusal : LoadRefusal) (facts : OpenFacts) : Option (OpenRecovery × List RecoveryEffect) :=
  if facts.autoOriginal && facts.noFrames && m.flights < maxRecoveryFlights then
    let audio := if refusal.namesPipeline then suspectAudio facts.audio else none
    let named := (audio.toList ++ (numberedVideo refusal facts).toList).filter m.narrowsStart
    some ((m.excludeAll named).narrow.countFlight.fly .both refusal facts, [.startAutoHls])
  else none

/-- A track of unknown width counts as one that is mixed down, no track as one that is not. -/
def mixesDown (facts : OpenFacts) : Bool := facts.audio.any (fun a => appDecodeMixesDown a.channels)

/-- The rungs of a play that may be converted, in their order. -/
def tryRungs (m : OpenRecovery) (refusal : LoadRefusal) (facts : OpenFacts) : Option (OpenRecovery × List RecoveryEffect) :=
  (m.tryFacet refusal facts).or <|
    (m.tryAutoHls refusal facts).or <|
      (if mixesDown facts then none else m.tryAppDecode refusal facts).or <|
        (m.tryConvertBoth refusal facts).or <|
          if mixesDown facts then m.tryAppDecode refusal facts else none

def decide (m : OpenRecovery) (refusal : LoadRefusal) (facts : OpenFacts) : OpenRecovery × List RecoveryEffect :=
  let noted := m.noteRefusal refusal facts
  if facts.pendingOriginal then noted.rollback refusal facts
  else if facts.forced then noted.decideForced refusal facts
  else (noted.tryRungs refusal facts).getD (noted.readOut, [.showError refusal])

/-- The first picture of an open that rests on a rung. -/
def reportRescue (m : OpenRecovery) : OpenRecovery × List RecoveryEffect :=
  let taken := { m with rescue := none }
  if m.reported then (taken, [])
  else match m.rescue, m.refused with
    | some rung, some (refusal, facet) => ({ taken with reported := true }, [.reportRecovered ⟨rung, refusal, facet⟩])
    | _, _ => (taken, [])

def picture (m : OpenRecovery) : OpenRecovery × List RecoveryEffect :=
  { m with pictured := true, state := .playing }.reportRescue

end OpenRecovery

/-- Whether a step handled its event, and the effects it emitted. -/
structure Answer where
  handled : Bool
  effects : List RecoveryEffect

namespace OpenRecovery

def yes (m : OpenRecovery × List RecoveryEffect) : OpenRecovery × Answer := (m.1, ⟨true, m.2⟩)

def ignored (m : OpenRecovery) : OpenRecovery × Answer := (m, ⟨false, []⟩)

/-- A failure is ruled on while no flight and no read-out is outstanding. -/
def openable : State → Bool
  | .opening | .proving _ _ | .playing => true
  | .flight _ _ _ | .failed => false

def landed (m : OpenRecovery) (rung : Rung) (lanes : Option Lanes) : State :=
  if rung = .facet && !m.pictured && !m.unprovable then
    match m.excluded.iter.find? (proves lanes) with
    | some facet => .proving facet false
    | none => .opening
  else .opening

def step (m : OpenRecovery) : RecoveryEvent → OpenRecovery × Answer
  | .refused refusal facts =>
    if openable m.state then
      let confirmed := (facts.nativeAudio.map (fun facet => RecoveryEffect.confirmRefusal facet .named)).toList
      let ruled := m.decide refusal facts
      yes (ruled.1, confirmed ++ ruled.2)
    else m.ignored
  | .flightLanded lanes => match m.state with
    | .flight rung _ _ => yes ({ m with state := m.landed rung lanes }, [])
    | _ => m.ignored
  | .flightRefused => match m.state with
    | .flight .facet cause facts => yes (m.decide cause facts)
    | .flight .both cause facts | .flight .encode cause facts => yes (m.appDecodeOrError cause facts)
    | .flight .rollback cause _ => yes (m.readOut, [.showError cause])
    | _ => m.ignored
  | .firstPicture => match m.state with
    | .opening => yes m.picture
    | .proving facet _ => yes (m.picture.1, .confirmRefusal facet .proof :: m.picture.2)
    | _ => m.ignored
  | .loadStarted => match m.state with
    | .proving facet false => yes ({ m with state := .proving facet true }, [])
    | .proving _ true => yes ({ m with state := .opening }, [])
    | .flight _ _ _ | .failed => yes ({ m with state := .opening, rescue := none }, [])
    | .opening | .playing => m.ignored

end OpenRecovery
end PlxNative.Recovery
