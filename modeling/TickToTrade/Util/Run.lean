import Mathlib.Logic.Relation

/-!
# Runs of a step relation

A run is the reflexive and transitive closure of a step relation. What every step
keeps holds along every run; that induction is stated here once.
-/

namespace TickToTrade.Util

variable {α : Type*} {r : α → α → Prop} {I : α → Prop} {a b : α}

/-- **Run lemma**: an invariant of the steps holds at the end of every run. -/
theorem invariant_of_run (hstep : ∀ x y, I x → r x y → I y) (h : Relation.ReflTransGen r a b)
    (ha : I a) : I b := by
  induction h with
  | refl => exact ha
  | tail _ hr ih => exact hstep _ _ ih hr

end TickToTrade.Util
