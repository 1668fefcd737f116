import PlxNative.Lib.Greedy
import PlxNative.Lib.KeyOrder
import PlxNative.Telemetry.Queue

/-! The caps of the spool: the newest records of each rank, the ranks in turn, as long as there is room. -/
namespace PlxNative.Telemetry
open List KeyOrder Greedy

/-- How the JSON of a release-health session starts, its first field being `attrs`. -/
def sessionBodyPrefix : Bytes := [0x7b, 0x22, 0x61, 0x74, 0x74, 0x72, 0x73, 0x22, 0x3a]

def isSessionBody (body : Bytes) : Bool := sessionBodyPrefix.isPrefixOf body

def rank (r : Record) : Nat :=
  match r.category with
  | .oneOff => 0
  | .errors => if isSessionBody r.body then 2 else 1
  | .usage => 3

theorem rank_known (r : Record) : rank r < 4 := by
  unfold rank
  split
  · decide
  · split <;> decide
  · decide

theorem zipIdx_ascending (records : List Record) : Ascending Prod.snd records.zipIdx := by
  unfold Ascending
  rw [← pairwise_map (f := Prod.snd) (R := (· < ·)), zipIdx_map_snd]
  exact pairwise_lt_range'

section
variable [SerdeJson]

def size (r : Record) : Nat := (encode r).elim 0 length

def sizes (records : List Record) : Nat := (records.map size).sum

def Fits (records : List Record) : Prop := records.length ≤ maxRecords ∧ sizes records ≤ maxBytes
deriving Decidable

/-- The records with their places: for each rank in turn, the newest first, one is selected while
there is room beside those selected before. -/
def selected (indexed : List (Record × Nat)) : List (Record × Nat) :=
  pick (fun s => Fits (s.map Prod.fst)) [] (visits (fun e => rank e.1) 4 indexed)

/-- The selected ones in their old order. -/
def trimmed (indexed : List (Record × Nat)) : List (Record × Nat) := sortByKey Prod.snd (selected indexed)

def trim (records : List Record) : List Record × Nat :=
  let kept := (trimmed records.zipIdx).map Prod.fst
  (kept, records.length - kept.length)

variable {indexed : List (Record × Nat)} {records s t : List Record}

theorem Fits.front (fits : Fits (s ++ t)) : Fits s := by
  unfold Fits sizes at *
  rw [length_append, map_append, sum_append] at fits
  omega

theorem Fits.perm (same : s.Perm t) (fits : Fits s) : Fits t := by
  unfold Fits sizes at *
  rw [← same.length_eq, ← (same.map size).sum_nat]
  exact fits

theorem trimmed_kept (ascends : Ascending Prod.snd indexed) : (selected indexed).Perm (trimmed indexed) ∧
    trimmed indexed = kept (fun s => Fits (s.map Prod.fst)) (fun e => rank e.1) 4 indexed := by
  refine ⟨(sortByKey_perm ..).symm, sortByKey_of_perm ?_ (ascends.filter _)⟩
  exact kept_perm (fun e => rank_known e.1) (ascends.imp fun less same => by simp [same] at less)

/-- What is kept stands in the old order, and is within the caps. -/
theorem trim_within (records : List Record) : (trim records).1.Sublist records ∧ Fits (trim records).1 := by
  obtain ⟨perm, eq⟩ := trimmed_kept (zipIdx_ascending records)
  constructor
  · have sub : (trimmed records.zipIdx).Sublist records.zipIdx := eq ▸ filter_sublist
    have old := sub.map Prod.fst
    rw [zipIdx_map_fst] at old
    exact old
  · have fits : Fits ((selected records.zipIdx).map Prod.fst) :=
      pick_fits (fun s => Fits (s.map Prod.fst)) _ ⟨Nat.zero_le _, Nat.zero_le _⟩
    exact fits.perm (perm.map Prod.fst)

/-- A list within the caps is kept whole. -/
theorem trim_fitting (fits : Fits records) : (trim records).1 = records := by
  have visited := visits_perm (fun e : Record × Nat => rank_known e.1) records.zipIdx
  have every : selected records.zipIdx = visits (fun e => rank e.1) 4 records.zipIdx := by
    refine pick_all (fun s t fits => ?_) ?_
    · rw [map_append] at fits
      exact fits.front
    · have whole := (visited.map Prod.fst).symm
      rw [zipIdx_map_fst] at whole
      exact fits.perm whole
  change (sortByKey Prod.snd (selected records.zipIdx)).map Prod.fst = records
  rw [every, sortByKey_of_perm visited (zipIdx_ascending records), zipIdx_map_fst]

/-- Trimming keeps the order and the caps, counts what it drops, and does nothing within the caps. -/
theorem trim_caps (records : List Record) : (trim records).1.Sublist records ∧ Fits (trim records).1 ∧
    (trim records).1.length + (trim records).2 = records.length ∧ (Fits records → (trim records).1 = records) ∧
    trim (trim records).1 = ((trim records).1, 0) := by
  obtain ⟨sub, fits⟩ := trim_within records
  have shorter := sub.length_le
  have again := trim_fitting fits
  refine ⟨sub, fits, Nat.add_sub_of_le shorter, trim_fitting, Prod.ext again ?_⟩
  change _ - (trim (trim records).1).1.length = 0
  rw [again, Nat.sub_self]

/-- Records of lower ranks, left out beforehand, change nothing of what is kept of the higher ones. -/
theorem trim_priority (records : List Record) (k : Nat) :
    (trimmed records.zipIdx).filter (fun e => rank e.1 ≤ k) = trimmed (records.zipIdx.filter fun e => rank e.1 ≤ k) := by
  have ascends := zipIdx_ascending records
  rw [(trimmed_kept ascends).2, (trimmed_kept (ascends.filter _)).2]
  exact kept_priority k _

end
end PlxNative.Telemetry
