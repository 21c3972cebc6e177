import TickToTrade.Util.FlatHashMap

/-!
# The values of a table

A property of values that the default value has is had by the value of every slot, as long as
only values with it are stored. Nothing is asked of the table: it holds of a slot that is free,
and of what a lookup of the reserved key finds.
-/

namespace TickToTrade.Util.FlatHashMap

variable {V : Type} {hash : ℕ → ℕ} {vacant : ℕ} {m : FlatHashMap hash V vacant} {P : V → Prop} {key : ℕ} {v : V}

/-- The value of every slot has the property. -/
def Values (m : FlatHashMap hash V vacant) (P : V → Prop) : Prop := ∀ i, P (m.valueAt i)

namespace Values

theorem of_get? (h : m.Values P) (hget : m.get? key = some v) : P v := by
  unfold FlatHashMap.get? at hget
  obtain ⟨i, -, rfl⟩ := Option.map_eq_some_iff.mp hget
  exact h i

theorem setSlot (h : m.Values P) (i : ℕ) {s : Slot V} (hs : P s.value) : (m.setSlot i s).Values P := by
  intro j
  change P (Function.update m.slots i s j).value
  by_cases hj : j = i
  · rw [hj, Function.update_self]
    exact hs
  · rw [Function.update_of_ne hj]
    exact h j

theorem place (h : m.Values P) (key : ℕ) (hv : P v) : (m.place key v).Values P := by
  unfold FlatHashMap.place
  cases m.probe key m.capacity (m.slotFor key) with
  | none => exact h
  | some i =>
      simp only
      split_ifs
      · exact fun j => h.setSlot i (s := ⟨key, v⟩) hv j
      · exact h.setSlot i hv

variable [Inhabited V]

theorem ofLogCap (hdefault : P default) (n : ℕ) : (ofLogCap n : FlatHashMap hash V vacant).Values P := fun _ => hdefault

theorem empty (hdefault : P default) (n : ℕ) : (empty n : FlatHashMap hash V vacant).Values P := ofLogCap hdefault _

theorem clear (hdefault : P default) (m : FlatHashMap hash V vacant) : m.clear.Values P := ofLogCap hdefault _

theorem grow (h : m.Values P) (hdefault : P default) : m.grow.Values P := by
  unfold FlatHashMap.grow
  refine List.foldlRecOn (motive := fun t : FlatHashMap hash V vacant => t.Values P) _ _ (ofLogCap hdefault _) fun t ht e he => ht.place e.1 ?_
  obtain ⟨-, i, -, -, hvalue⟩ := mem_entries.mp he
  exact hvalue ▸ h i

theorem insertOrAssign (h : m.Values P) (hdefault : P default) (key : ℕ) (hv : P v) : (m.insertOrAssign key v).Values P := by
  unfold FlatHashMap.insertOrAssign
  split_ifs
  · exact (h.grow hdefault).place key hv
  · exact h.place key hv

theorem shiftBack (h : m.Values P) (hdefault : P default) (fuel hole scan : ℕ) : (m.shiftBack fuel hole scan).Values P := by
  induction fuel generalizing m hole scan with
  | zero => exact h.setSlot hole hdefault
  | succ fuel ih =>
      unfold FlatHashMap.shiftBack
      simp only
      split_ifs
      · exact h.setSlot hole hdefault
      · exact ih h hole _
      · exact ih (h.setSlot hole (h _)) _ _

theorem erase (h : m.Values P) (hdefault : P default) {m' : FlatHashMap hash V vacant} (herase : m.erase key = some (v, m')) :
    P v ∧ m'.Values P := by
  unfold FlatHashMap.erase at herase
  obtain ⟨i, -, heq⟩ := Option.map_eq_some_iff.mp herase
  obtain ⟨rfl, rfl⟩ := Prod.mk.inj heq
  exact ⟨h i, fun j => h.shiftBack hdefault m.capacity i i j⟩

end Values

end TickToTrade.Util.FlatHashMap
