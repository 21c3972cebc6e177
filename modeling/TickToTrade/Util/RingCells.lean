import Mathlib.Algebra.GroupWithZero.Nat
import Mathlib.Data.List.Basic
import Mathlib.Logic.Function.Basic

/-!
# Queues in rings of cells

A queue in a ring of `n` cells: a number that only grows says where its first element is, and the
cells follow each other modulo `n`. An element that joins at the end takes a cell that the others do
not have, as long as the queue is not full.
-/

namespace TickToTrade.Util

variable {α : Type*} {n start : ℕ} {cells : ℕ → α} {l l' : List α} {x : α}

/-- The cells from the number `start` on hold the queue. -/
def InCells (n : ℕ) (cells : ℕ → α) : ℕ → List α → Prop
  | _, [] => True
  | start, x :: l => cells (start % n) = x ∧ InCells n cells (start + 1) l

namespace InCells

/-- What stands behind the first elements. -/
theorem drop (h : InCells n cells start (l ++ l')) : InCells n cells (start + l.length) l' := by
  induction l generalizing start with
  | nil => exact h
  | cons x l ih =>
      have hrest := ih h.2
      rwa [Nat.add_assoc, Nat.add_comm 1] at hrest

/-- The elements after the first one. -/
theorem tail (h : InCells n cells start l) (hne : l ≠ []) : InCells n cells (start + 1) l.tail := by
  cases l with
  | nil => exact absurd rfl hne
  | cons x l => exact h.2

/-- A cell that comes after the queue is free, unless the queue is full. -/
theorem update (h : InCells n cells start l) {at' : ℕ} (hge : start + l.length ≤ at') (hlt : at' < start + n) :
    InCells n (Function.update cells (at' % n) x) start l := by
  induction l generalizing start with
  | nil => trivial
  | cons y l ih =>
      rw [List.length_cons] at hge
      have hne : start % n ≠ at' % n := fun he => by
        have hmod := Nat.sub_mod_eq_zero_of_mod_eq he.symm
        rw [Nat.mod_eq_of_lt (by omega)] at hmod
        omega
      exact ⟨(Function.update_of_ne hne _ _).trans h.1, ih h.2 (by omega) (by omega)⟩

theorem append (h : InCells n cells start l) (h' : InCells n cells (start + l.length) l') : InCells n cells start (l ++ l') := by
  induction l generalizing start with
  | nil => exact h'
  | cons x l ih =>
      refine ⟨h.1, ih h.2 ?_⟩
      rwa [Nat.add_assoc, Nat.add_comm 1]

/-- An element joins at the end. -/
theorem push (h : InCells n cells start l) (hlt : l.length < n) (x : α) :
    InCells n (Function.update cells ((start + l.length) % n) x) start (l ++ [x]) :=
  (h.update (Nat.le_refl _) (by omega)).append ⟨Function.update_self .., trivial⟩

end InCells

end TickToTrade.Util
