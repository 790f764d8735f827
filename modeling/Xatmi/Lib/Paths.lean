import Mathlib.Logic.Relation
import Mathlib.Logic.Function.Basic
import Mathlib.Tactic.Common

/-!
# Paths of labelled transitions

A transition system is a relation between a state, a label and a state. One system simulates another
if every step of the other is matched by some steps of its own, possibly none.
-/

namespace Transitions

variable {α β γ ι : Type*} {step : α → β → α → Prop}

/-- The labels, one after the other, lead from one state to another. -/
inductive Path (step : α → β → α → Prop) : α → List β → α → Prop
  | nil (a : α) : Path step a [] a
  | cons {a b c : α} {label : β} {labels : List β} (first : step a label b)
      (rest : Path step b labels c) :
      Path step a (label :: labels) c

namespace Path

theorem single {a b : α} {label : β} (first : step a label b) : Path step a [label] b :=
  .cons first (.nil b)

theorem append {a b c : α} {labels more : List β} (path : Path step a labels b)
    (later : Path step b more c) :
    Path step a (labels ++ more) c := by
  induction path with
  | nil => exact later
  | cons first _ ih => exact .cons first (ih later)

theorem simulates {move : γ → γ → Prop} {shows : γ → α → Prop} {allowed : β → Prop}
    (matched : ∀ s s' a, shows s a → move s s' →
      ∃ labels b, Path step a labels b ∧ shows s' b ∧ ∀ label ∈ labels, allowed label)
    {s s' : γ} {a : α} (moves : Relation.ReflTransGen move s s') (shown : shows s a) :
    ∃ labels b, Path step a labels b ∧ shows s' b ∧ ∀ label ∈ labels, allowed label := by
  induction moves with
  | refl => exact ⟨[], a, .nil a, shown, by simp⟩
  | tail _ last ih =>
      obtain ⟨labels, b, path, shown', fine⟩ := ih
      obtain ⟨more, c, path', shown'', fine'⟩ := matched _ _ b shown' last
      refine ⟨labels ++ more, c, path.append path', shown'', fun label member => ?_⟩
      exact (List.mem_append.mp member).elim (fine label) (fine' label)

end Path

/-! ## Families -/

/-- The labels of one member of a family. -/
def labelsOf [DecidableEq ι] (i : ι) (labels : List (ι × β)) : List β :=
  (labels.filter fun label => label.1 = i).map Prod.snd

variable [DecidableEq ι]

theorem labelsOf_append (i : ι) (labels more : List (ι × β)) :
    labelsOf i (labels ++ more) = labelsOf i labels ++ labelsOf i more := by
  simp [labelsOf]

/-- If every step moves one member of a family, what a member does is a path of its own. -/
theorem Path.member {own : γ → β → γ → Prop} {step : α → ι × β → α → Prop} {view : α → ι → γ}
    (moves : ∀ a label b, step a label b → own (view a label.1) label.2 (view b label.1) ∧
      ∀ i, i ≠ label.1 → view b i = view a i)
    {a b : α} {labels : List (ι × β)} (path : Path step a labels b) (i : ι) :
    Path own (view a i) (labelsOf i labels) (view b i) := by
  induction path with
  | nil => exact .nil _
  | @cons a b c label labels first _ ih =>
      obtain ⟨moved, others⟩ := moves a label b first
      by_cases here : label.1 = i
      · subst here
        have all : labelsOf label.1 (label :: labels) = label.2 :: labelsOf label.1 labels := by
          simp [labelsOf]
        exact all ▸ .cons moved ih
      · rw [others i (Ne.symm here)] at ih
        simpa [labelsOf, here] using ih

end Transitions
