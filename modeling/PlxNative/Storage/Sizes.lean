import PlxNative.Lib.JsonText
import PlxNative.Storage.State

/-! What the bound on a state's logical size counts: its text without escapes. -/
namespace PlxNative.Storage
open Json

/-- Every tree counts what its compact text has without escapes, so no more than with them, and the
check refuses exactly a tree that is longer so; a string with nothing to escape counts its whole text. -/
theorem logicalSize_unescaped (v : Value) :
    logicalSize v ≤ textSize v.compact ∧ logicalSize v = textSize (v.written plainly) ∧
      (checkLogicalSize v = .ok () ↔ textSize (v.written plainly) ≤ maxLogicalBytes) ∧
      ∀ s : String, (∀ c ∈ s.toList, escaped c = [c]) → logicalSize (.string s) = textSize (Value.string s).compact := by
  have whole : logicalSize v = textSize (v.written plainly) := (written_size plainly_size v).symm
  refine ⟨?_, whole, ?_, fun s unescaped => ?_⟩
  · rw [compact_size]
    exact sizeWith_mono utf8Length_le v
  · rw [← whole]
    exact Checks.check_eq_ok
  · have plain : (Value.string s).compact = plainly s := by
      change '"' :: (s.toList.flatMap escaped ++ ['"']) = '"' :: (s.toList ++ ['"'])
      rw [List.flatMap_congr unescaped, List.flatMap_singleton']
    rw [plain]
    exact (plainly_size s).symm

end PlxNative.Storage
