import PlxNative.Lib.Words
import Mathlib.Data.List.MinMax

/-! The request ladder, what each request was measured to produce, and which of them a playback
may move to. -/
namespace PlxNative.Abr

def u32Max : Nat := 4294967295

def u64Max : Nat := 18446744073709551615

/-- Rust's `max_by_key`: the last of the greatest. -/
def maxByKey {α : Type} (key : α → Nat) : List α → Option α
  | [] => none
  | item :: rest => match maxByKey key rest with
    | none => some item
    | some best => if key item ≤ key best then some best else some item

theorem maxByKey_mem {α : Type} {key : α → Nat} {items : List α} {best : α} (found : maxByKey key items = some best) :
    best ∈ items := by
  induction items with
  | nil => cases found
  | cons item rest ih =>
    rw [maxByKey] at found
    split at found
    · cases found
      exact .head _
    · next later at_rest =>
        split at found <;> cases found
        · exact .tail _ (ih at_rest)
        · exact .head _

inductive Rung where
  | p240 | p480 | p720Low | p720 | p1080M6 | p1080 | p1080M10 | p1080M12 | p1080M14 | p1080M16 | p1080M18
  | p1080High | uhd
deriving DecidableEq

namespace Rung

def index : Rung → Nat
  | p240 => 0
  | p480 => 1
  | p720Low => 2
  | p720 => 3
  | p1080M6 => 4
  | p1080 => 5
  | p1080M10 => 6
  | p1080M12 => 7
  | p1080M14 => 8
  | p1080M16 => 9
  | p1080M18 => 10
  | p1080High => 11
  | uhd => 12

theorem index_injective : Function.Injective index := by
  intro first second eq
  cases first <;> cases second <;> first | rfl | exact absurd eq (by decide)

instance : LinearOrder Rung := LinearOrder.lift' index index_injective

def kbps : Rung → Nat
  | p240 => 320
  | p480 => 720
  | p720Low => 2000
  | p720 => 4000
  | p1080M6 => 6000
  | p1080 => 8000
  | p1080M10 => 10000
  | p1080M12 => 12000
  | p1080M14 => 14000
  | p1080M16 => 16000
  | p1080M18 => 18000
  | p1080High => 20000
  | uhd => 22000

def raster : Rung → Nat × Nat
  | p240 => (426, 240)
  | p480 => (854, 480)
  | p720Low | p720 => (1280, 720)
  | uhd => (3840, 2160)
  | _ => (1920, 1080)

end Rung

/-- What the server attached to one request. -/
structure ObservedHlsVariant where
  declaredBps : Nat
  width : Nat
  height : Nat
deriving DecidableEq

namespace ObservedHlsVariant

def strictlyDominates (variant other : ObservedHlsVariant) : Bool :=
  other.width ≤ variant.width && other.height ≤ variant.height && other.declaredBps ≤ variant.declaredBps &&
    (other.width < variant.width || other.height < variant.height || other.declaredBps < variant.declaredBps)

def definitivelyUnderfills (variant : ObservedHlsVariant) (rung : Rung) (source : Nat × Nat) : Bool :=
  if source.1 = 0 || source.2 = 0 then false
  else if source.1 ≤ rung.raster.1 && source.2 ≤ rung.raster.2 then
    variant.width < source.1 || variant.height < source.2
  else variant.width < rung.raster.1 && variant.height < rung.raster.2

end ObservedHlsVariant

structure AbrPolicy where
  bufferTargetMs : Int
  bufferReserveFractionPm : Nat
  bufferRefillHorizonMs : Int
  assumedAudioKbps : Nat
  staleHalfLifeMs : Nat
  visibleSwitchPenalty : Int
  visibleSwitchDecayMs : Nat

def AbrPolicy.measured : AbrPolicy where
  bufferTargetMs := 2500
  bufferReserveFractionPm := 500
  bufferRefillHorizonMs := 10000
  assumedAudioKbps := 192
  staleHalfLifeMs := 30000
  visibleSwitchPenalty := 15
  visibleSwitchDecayMs := 120000

/-- What `PlantGeometry::from_feed` admits. -/
structure PlantGeometry where
  videoQueueBytes : Nat
  audioQueueBytes : Nat
  videoLeadMs : Int
  audioLeadMs : Int
  video_lead : 0 ≤ videoLeadMs
  audio_lead : 0 ≤ audioLeadMs

namespace PlantGeometry

def laneMs (leadMs : Int) (queueBytes esKbps : Nat) : Int :=
  I64.saturated (leadMs + min ((min (queueBytes * 8) u64Max / max esKbps 1 : Nat) : Int) I64.largest)

def bMaxEstMs (geometry : PlantGeometry) (videoEsKbps audioEsKbps : Nat) : Int :=
  min (laneMs geometry.videoLeadMs geometry.videoQueueBytes videoEsKbps)
    (laneMs geometry.audioLeadMs geometry.audioQueueBytes audioEsKbps)

def bufferTargetAtMs (geometry : PlantGeometry) (videoEsKbps audioEsKbps : Nat) (policy : AbrPolicy) : Int :=
  min policy.bufferTargetMs
    (I64.saturated (geometry.bMaxEstMs videoEsKbps audioEsKbps * policy.bufferReserveFractionPm) / 1000)

def refillAdmits (geometry : PlantGeometry) (candidateWireKbps candidateVideoEsKbps audioEsKbps : Nat)
    (bufferedMs : Int) (safeBudgetKbps : Nat) (policy : AbrPolicy) : Bool :=
  let target := geometry.bufferTargetAtMs candidateVideoEsKbps audioEsKbps policy
  let deficit := max (target - bufferedMs) 0
  let horizon := max policy.bufferRefillHorizonMs 1
  let rMax := I64.saturated (safeBudgetKbps * horizon) / I64.saturated (horizon + deficit)
  (candidateWireKbps : Int) ≤ rMax

end PlantGeometry

structure HlsCandidate where
  rung : Rung
  requestKbps : Nat
  expectedWireKbps : Nat
  productionLoadPm : Nat

/-- The bounds of one playback; the measured points are the same for every catalog. -/
structure HlsActuatorCatalog where
  rasterLimit : Nat × Nat
  source : Nat × Nat
  plantGeometry : Option PlantGeometry

namespace HlsActuatorCatalog

def point (rung : Rung) (expectedWireKbps productionLoadPm : Nat) : HlsCandidate :=
  ⟨rung, rung.kbps, expectedWireKbps, productionLoadPm⟩

def candidates : List HlsCandidate :=
  [point .p240 320 90, point .p480 720 180, point .p720Low 2000 300, point .p720 4000 450, point .p1080M6 6000 350,
    point .p1080 8000 930, point .p1080M10 10000 950, point .p1080M12 12000 970, point .p1080M14 14000 980,
    point .p1080M16 16000 990, point .p1080M18 18000 995, point .p1080High 20011 1000, point .uhd 20895 2100]

def measured : HlsActuatorCatalog := ⟨(65535, 65535), (0, 0), none⟩

def withPlantGeometry (catalog : HlsActuatorCatalog) (geometry : Option PlantGeometry) : HlsActuatorCatalog :=
  { catalog with plantGeometry := geometry }

def limitedTo (catalog : HlsActuatorCatalog) (device source : Nat × Nat) : HlsActuatorCatalog :=
  let axis (value : Nat) := if value = 0 then 65535 else value
  { catalog with rasterLimit := (axis device.1, axis device.2), source }

def candidate (_catalog : HlsActuatorCatalog) (rung : Rung) : HlsCandidate :=
  (candidates.find? fun candidate => candidate.rung = rung).getD ⟨rung, rung.kbps, rung.kbps, 1000⟩

variable (catalog : HlsActuatorCatalog)

def decodable (candidate : HlsCandidate) : Bool :=
  candidate.rung.raster.1 ≤ catalog.rasterLimit.1 && candidate.rung.raster.2 ≤ catalog.rasterLimit.2

def coversSource (candidate : HlsCandidate) : Bool :=
  0 < catalog.source.1 && 0 < catalog.source.2 && catalog.source.1 ≤ candidate.rung.raster.1 &&
    catalog.source.2 ≤ candidate.rung.raster.2

def admits (candidate : HlsCandidate) : Bool :=
  if !catalog.decodable candidate then false
  else if !catalog.coversSource candidate then true
  else
    let (width, height) := candidate.rung.raster
    !candidates.any fun other =>
      let (otherWidth, otherHeight) := other.rung.raster
      otherWidth ≤ width && otherHeight ≤ height && (otherWidth < width || otherHeight < height) &&
        catalog.decodable other && catalog.coversSource other

def feasible : List HlsCandidate := candidates.filter catalog.admits

def modeledSustainable (candidate : HlsCandidate) (safeBudgetKbps : Nat) (policy : AbrPolicy) (bufferedMs : Int) : Bool :=
  match catalog.plantGeometry with
  | none => false
  | some geometry =>
    candidate.expectedWireKbps ≤ safeBudgetKbps &&
      geometry.refillAdmits candidate.expectedWireKbps (candidate.expectedWireKbps - policy.assumedAudioKbps)
        policy.assumedAudioKbps bufferedMs safeBudgetKbps policy

/-- A rung some feasible candidate asks for. -/
def Feasible (rung : Rung) : Prop := ∃ candidate ∈ catalog.feasible, candidate.rung = rung

end HlsActuatorCatalog

end PlxNative.Abr
