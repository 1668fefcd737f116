import Mathlib.Logic.Basic

/-! States seen as two parts: a step that acts on one and keeps the other commutes with a
step the other way round. -/
namespace PlxNative.Parts

universe u v w
variable {S : Type u} {α : Type v} {β : Type w} (left : S → α) (right : S → β)

/-- The step changes the left part by `f`, and leaves the right one. -/
structure ActsLeft (f : α → α) (s s' : S) : Prop where
  acts : left s' = f (left s)
  keeps : right s' = right s

structure ActsRight (g : β → β) (s s' : S) : Prop where
  acts : right s' = g (right s)
  keeps : left s' = left s

variable {left right} {f : α → α} {g : β → β} {s s₁ s₂ t₁ t₂ : S}

theorem orders_agree (first : ActsLeft left right f s s₁) (second : ActsRight left right g s₁ s₂)
    (second' : ActsRight left right g s t₁) (first' : ActsLeft left right f t₁ t₂) :
    left s₂ = left t₂ ∧ right s₂ = right t₂ := by
  constructor
  · calc left s₂ = left s₁ := second.keeps
      _ = f (left s) := first.acts
      _ = f (left t₁) := by rw [second'.keeps]
      _ = left t₂ := first'.acts.symm
  · calc right s₂ = g (right s₁) := second.acts
      _ = g (right s) := by rw [first.keeps]
      _ = right t₁ := second'.acts.symm
      _ = right t₂ := first'.keeps.symm

end PlxNative.Parts
