import Mathlib.Data.List.Forall2

/-! Streams of frames that say themselves where they end. A reader takes one frame off the front and
answers the same whatever stands behind it; it is turned round until it takes no more. -/
namespace PlxNative.Frames
open List

universe u v

structure Reader (α : Type u) (β : Type v) where
  read : List β → Option (α × List β)
  Holds : List β → α → Prop
  solid {frame : List β} {a : α} : Holds frame a → frame ≠ []
  reads {frame : List β} {a : α} : Holds frame a → ∀ behind, read (frame ++ behind) = some (a, behind)
  framed {input rest : List β} {a : α} : read input = some (a, rest) → ∃ frame, Holds frame a ∧ input = frame ++ rest

namespace Reader
variable {α : Type u} {β : Type v} (r : Reader α β)

theorem shorter {input : List β} {took : α × List β} (took_ : r.read input = some took) :
    took.2.length < input.length := by
  obtain ⟨frame, holds, rfl⟩ := r.framed took_
  have long := length_pos_iff.mpr (r.solid holds)
  rw [length_append]
  omega

/-- All the frames at the front, and what stands behind the last. -/
def all (input : List β) : List α × List β :=
  match _took : r.read input with
  | none => ([], input)
  | some (a, rest) => ((a :: (all rest).1), (all rest).2)
termination_by input.length
decreasing_by all_goals exact r.shorter _took

variable {r} {input rest behind : List β} {frames : List (List β)} {a : α} {as : List α}

theorem all_none (stop : r.read input = none) : r.all input = ([], input) := by
  rw [all]
  split
  · rfl
  · rename_i took
    rw [stop] at took
    cases took

theorem all_some (took : r.read input = some (a, rest)) :
    r.all input = (a :: (r.all rest).1, (r.all rest).2) := by
  rw [all]
  split
  · rename_i stop
    rw [took] at stop
    cases stop
  · rename_i took'
    cases took.symm.trans took'
    rfl

theorem all_frames (framed : Forall₂ r.Holds frames as) (behind : List β) :
    r.all (frames.flatten ++ behind) = (as ++ (r.all behind).1, (r.all behind).2) := by
  induction framed with
  | nil => rfl
  | cons first _ ih =>
    rw [flatten_cons, append_assoc, all_some (r.reads first _), ih]
    rfl

/-- What is read is whole frames, and no frame stands at the front of the rest. -/
theorem all_split (input : List β) : ∃ frames, input = frames.flatten ++ (r.all input).2 ∧
    Forall₂ r.Holds frames (r.all input).1 ∧ r.read (r.all input).2 = none := by
  cases took : r.read input with
  | none =>
    rw [all_none took]
    exact ⟨[], rfl, .nil, took⟩
  | some read =>
    have less := r.shorter took
    obtain ⟨frame, holds, eq⟩ := r.framed took
    obtain ⟨frames, whole, each, stop⟩ := all_split read.2
    rw [all_some took]
    refine ⟨frame :: frames, ?_, .cons holds each, stop⟩
    rw [flatten_cons, append_assoc, ← whole, eq]
termination_by input.length

/-- A frame that is cut short is no frame. -/
theorem torn (whole : r.Holds (rest ++ behind) a) (cut : behind ≠ []) : r.read rest = none := by
  cases took : r.read rest with
  | none => rfl
  | some read =>
    obtain ⟨frame, holds, rfl⟩ := r.framed took
    have again := r.reads whole []
    rw [append_nil, append_assoc, r.reads holds] at again
    have nothing : read.2 ++ behind = [] := congrArg Prod.snd (Option.some.inj again)
    exact absurd (append_eq_nil_iff.mp nothing).2 cut

end Reader
end PlxNative.Frames
