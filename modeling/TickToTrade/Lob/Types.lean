import Mathlib.Algebra.GroupWithZero.Nat
import Mathlib.Algebra.Ring.Int.Defs
import Mathlib.Data.Int.Notation
import Mathlib.Data.Nat.Notation
import Mathlib.Tactic.Common

/-!
# Core value types

Prices are 32-bit signed integers in the program and integers here: an overflow of
theirs is undefined behaviour, which no definition relies on. Where the program
converts between a price and an unsigned word on purpose, the conversion is
written out with its wrap-around. Quantities, counters and references are words of
32 or 64 bits and natural numbers here, reduced where the program lets them wrap.
-/

namespace TickToTrade

/-- The side of an order. -/
inductive Side where
  /-- A bid. -/
  | buy
  /-- An offer. -/
  | sell
deriving DecidableEq, Repr

namespace Side

/-- The side an order trades against. -/
def opposite : Side → Side
  | buy => sell
  | sell => buy

@[simp] theorem opposite_opposite (s : Side) : s.opposite.opposite = s := by cases s <;> rfl

@[simp] theorem opposite_ne (s : Side) : s.opposite ≠ s := by cases s <;> decide

@[simp] theorem ne_opposite (s : Side) : s ≠ s.opposite := by cases s <;> decide

theorem eq_opposite_of_ne {s t : Side} (h : s ≠ t) : t = s.opposite := by
  cases s <;> cases t <;> simp_all [opposite]

/-- Is the price `p` at least as good for an order of this side's book as `q`? Bids
improve upwards, offers downwards. -/
def atLeast : Side → ℤ → ℤ → Prop
  | buy, p, q => q ≤ p
  | sell, p, q => p ≤ q

instance (s : Side) (p q : ℤ) : Decidable (s.atLeast p q) := by
  cases s <;> unfold atLeast <;> infer_instance

theorem atLeast_refl (s : Side) (p : ℤ) : s.atLeast p p := by cases s <;> simp [atLeast]

theorem atLeast_trans {s : Side} {p q r : ℤ} (h : s.atLeast p q) (h' : s.atLeast q r) :
    s.atLeast p r := by
  cases s <;> simp only [atLeast] at * <;> omega

theorem atLeast_of_not {s : Side} {p q : ℤ} (h : ¬ s.atLeast p q) : s.atLeast q p := by
  cases s <;> simp only [atLeast] at * <;> omega

theorem atLeast_antisymm {s : Side} {p q : ℤ} (h : s.atLeast p q) (h' : s.atLeast q p) : p = q := by
  cases s <;> simp only [atLeast] at * <;> omega

end Side

/-- A trade of an arriving order with a resting one. -/
structure Trade where
  restingId : ℕ
  aggressorId : ℕ
  price : ℤ
  qty : ℕ
  aggressorSide : Side
  restingFilled : Bool
deriving DecidableEq, Repr

/-- The mark for "no price": the least 32-bit integer. -/
def kNoPrice : ℤ := -2 ^ 31

/-- `static_cast<std::uint32_t>` of a price or of a difference of prices. -/
def u32 (x : ℤ) : ℕ := (x % 2 ^ 32).toNat

/-- `static_cast<Price>` of a 32-bit word. -/
def toPrice (w : ℕ) : ℤ := if w % 2 ^ 32 < 2 ^ 31 then w % 2 ^ 32 else w % 2 ^ 32 - 2 ^ 32

/-- `static_cast<std::uint64_t>` of a price. -/
def wirePrice (p : ℤ) : ℕ := (p % 2 ^ 64).toNat

theorem u32_of_nonneg {x : ℤ} (h0 : 0 ≤ x) (h : x < 2 ^ 32) : u32 x = x.toNat := by
  unfold u32; omega

theorem toPrice_of_lt {w : ℕ} (h : w < 2 ^ 31) : toPrice w = w := by
  unfold toPrice; split_ifs <;> omega

theorem toPrice_lt (w : ℕ) : toPrice w < 2 ^ 31 := by
  unfold toPrice; split_ifs <;> omega

end TickToTrade
