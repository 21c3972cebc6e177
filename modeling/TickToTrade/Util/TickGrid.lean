import Mathlib.Algebra.Order.Floor.Ring
import Mathlib.Tactic.LinearCombination
import Mathlib.Tactic.Linarith
import Mathlib.Tactic.Ring

/-!
# Rounding to a grid

The grid has the points `origin + k * tick`. A number is rounded down or up to a point
of the grid; the two roundings are adjoint to the order of the points, and that is all
that is used of them.
-/

namespace TickToTrade.Util

section TickGrid

variable {α : Type*} [Field α] [LinearOrder α] [IsStrictOrderedRing α] [FloorRing α]

/-- The last point of the grid that is not above the number. -/
def gridFloor (origin tick : ℤ) (p : α) : ℤ := origin + ⌊(p - origin) / tick⌋ * tick

/-- The first point of the grid that is not below the number. -/
def gridCeil (origin tick : ℤ) (p : α) : ℤ := origin + ⌈(p - origin) / tick⌉ * tick

variable {origin tick : ℤ} {p : α}

theorem gridFloor_le (ht : 0 < tick) : (gridFloor origin tick p : α) ≤ p := by
  have htick : (0 : α) < tick := Int.cast_pos.mpr ht
  have h := (le_div_iff₀ htick).mp (Int.floor_le ((p - origin) / tick))
  unfold gridFloor
  push_cast
  linarith

theorem lt_gridFloor_add (ht : 0 < tick) : p < (gridFloor origin tick p : α) + tick := by
  have htick : (0 : α) < tick := Int.cast_pos.mpr ht
  have h := (div_lt_iff₀ htick).mp (Int.lt_floor_add_one ((p - origin) / tick))
  unfold gridFloor
  push_cast
  linarith

theorem le_gridCeil (ht : 0 < tick) : p ≤ (gridCeil origin tick p : α) := by
  have htick : (0 : α) < tick := Int.cast_pos.mpr ht
  have h := (div_le_iff₀ htick).mp (Int.le_ceil ((p - origin) / tick))
  unfold gridCeil
  push_cast
  linarith

theorem gridCeil_sub_lt (ht : 0 < tick) : (gridCeil origin tick p : α) - tick < p := by
  have htick : (0 : α) < tick := Int.cast_pos.mpr ht
  have h := (lt_div_iff₀ htick).mp (sub_lt_iff_lt_add.mpr (Int.ceil_lt_add_one ((p - origin) / tick)))
  unfold gridCeil
  push_cast
  linarith

/-- Points of the grid that are less than a tick apart are one point. -/
theorem grid_eq {g g' : ℤ} (hg : tick ∣ g - origin) (hg' : tick ∣ g' - origin) (h : g < g' + tick)
    (h' : g' < g + tick) : g = g' := by
  obtain ⟨k, hk⟩ := hg
  obtain ⟨k', hk'⟩ := hg'
  have hd : g - g' = tick * (k - k') := by linear_combination hk - hk'
  rcases lt_trichotomy k k' with hlt | rfl | hgt
  · nlinarith
  · linarith
  · nlinarith

omit [IsStrictOrderedRing α] in
theorem dvd_gridFloor : tick ∣ gridFloor origin tick p - origin :=
  ⟨⌊(p - origin) / tick⌋, by unfold gridFloor; ring⟩

omit [IsStrictOrderedRing α] in
theorem dvd_gridCeil : tick ∣ gridCeil origin tick p - origin :=
  ⟨⌈(p - origin) / tick⌉, by unfold gridCeil; ring⟩

/-- A number rounds down to the point of the grid from which it is less than a tick away. -/
theorem gridFloor_eq {g : ℤ} (ht : 0 < tick) (hg : tick ∣ g - origin) (h : (g : α) ≤ p)
    (h' : p < (g : α) + tick) : gridFloor origin tick p = g := by
  have hle := (gridFloor_le ht : (gridFloor origin tick p : α) ≤ p)
  have hlt := (lt_gridFloor_add ht : p < (gridFloor origin tick p : α) + tick)
  refine grid_eq dvd_gridFloor hg ?_ ?_
  · exact_mod_cast hle.trans_lt h'
  · exact_mod_cast h.trans_lt hlt

/-- A number rounds up to the point of the grid under which it is less than a tick. -/
theorem gridCeil_eq {g : ℤ} (ht : 0 < tick) (hg : tick ∣ g - origin) (h : (g : α) - tick < p)
    (h' : p ≤ g) : gridCeil origin tick p = g := by
  have hle := (le_gridCeil ht : p ≤ (gridCeil origin tick p : α))
  have hlt := (gridCeil_sub_lt ht : (gridCeil origin tick p : α) - tick < p)
  refine grid_eq dvd_gridCeil hg ?_ ?_
  · have : (gridCeil origin tick p : α) < g + tick := by linarith
    exact_mod_cast this
  · have : (g : α) < gridCeil origin tick p + tick := by linarith
    exact_mod_cast this

/-- The point rounded down to is below a limit just when the number is below the limit
rounded up. -/
theorem gridFloor_lt_iff (ht : 0 < tick) {limit : ℤ} :
    gridFloor origin tick p < limit ↔ p < (gridCeil origin tick (limit : α) : α) := by
  have htick : (0 : α) < tick := Int.cast_pos.mpr ht
  have hfloor : gridFloor origin tick p < limit ↔
      ((⌊(p - origin) / tick⌋ : ℤ) : α) < ((limit : α) - origin) / tick := by
    rw [lt_div_iff₀ htick, lt_sub_iff_add_lt', ← Int.cast_lt (R := α)]
    unfold gridFloor
    push_cast
    rfl
  rw [hfloor, ← Int.lt_ceil, Int.floor_lt, div_lt_iff₀ htick, sub_lt_iff_lt_add']
  unfold gridCeil
  push_cast
  rfl

/-- One tick under the point rounded up to is below a limit just when the number is not
above the limit rounded up. -/
theorem gridCeil_sub_lt_iff (ht : 0 < tick) {limit : ℤ} :
    gridCeil origin tick p - tick < limit ↔ p ≤ (gridCeil origin tick (limit : α) : α) := by
  have htick : (0 : α) < tick := Int.cast_pos.mpr ht
  have hceil : gridCeil origin tick p - tick < limit ↔
      ((⌈(p - origin) / tick⌉ - 1 : ℤ) : α) < ((limit : α) - origin) / tick := by
    rw [lt_div_iff₀ htick, lt_sub_iff_add_lt', ← Int.cast_lt (R := α)]
    unfold gridCeil
    push_cast
    ring_nf
  rw [hceil, ← Int.lt_ceil, Int.sub_one_lt_iff, Int.ceil_le, div_le_iff₀ htick, sub_le_iff_le_add']
  unfold gridCeil
  push_cast
  rfl

end TickGrid

end TickToTrade.Util
