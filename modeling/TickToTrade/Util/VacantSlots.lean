import TickToTrade.Util.FlatHashMap

/-!
# What the free slots hold

A lookup of the reserved key answers with a free slot. A table that nobody stores the
reserved key in keeps the default value in its free slots (`Tidy`), so that such a lookup
finds the default value and nothing else.
-/

namespace TickToTrade.Util.FlatHashMap

variable {V : Type} [Inhabited V] {hash : ℕ → ℕ} {vacant : ℕ} {m : FlatHashMap hash V vacant} {key i : ℕ} {value : V}

/-- The free slots hold the default value. -/
def Tidy (m : FlatHashMap hash V vacant) : Prop := ∀ i, m.keyAt i = vacant → m.valueAt i = default

theorem tidy_ofLogCap (logCap : ℕ) : (ofLogCap logCap : FlatHashMap hash V vacant).Tidy := fun _ _ => rfl

theorem tidy_empty (capacityHint : ℕ) : (empty capacityHint : FlatHashMap hash V vacant).Tidy := tidy_ofLogCap _

theorem tidy_clear (m : FlatHashMap hash V vacant) : m.clear.Tidy := tidy_ofLogCap _

namespace Tidy

/-- A slot that is taken, or freed. -/
theorem setSlot (h : m.Tidy) (i : ℕ) {s : Slot V} (hs : s.key = vacant → s.value = default) : (m.setSlot i s).Tidy := by
  intro j hj
  unfold keyAt FlatHashMap.setSlot at hj
  unfold valueAt FlatHashMap.setSlot
  simp only at hj ⊢
  by_cases hji : j = i
  · rw [hji, Function.update_self] at hj ⊢
    exact hs hj
  · rw [Function.update_of_ne hji] at hj ⊢
    exact h j hj

theorem place (h : m.Tidy) (hkey : key ≠ vacant) (value : V) : (m.place key value).Tidy := by
  unfold FlatHashMap.place
  cases m.probe key m.capacity (m.slotFor key) with
  | none => exact h
  | some i =>
      simp only
      split_ifs with hfree
      · exact h.setSlot i (s := ⟨key, value⟩) fun he => absurd he hkey
      · exact h.setSlot i (s := ⟨m.keyAt i, value⟩) fun he => absurd he hfree

theorem grow (m : FlatHashMap hash V vacant) : m.grow.Tidy := by
  have hall : ∀ (l : List (ℕ × V)) (t : FlatHashMap hash V vacant), t.Tidy → (∀ e ∈ l, e.1 ≠ vacant) →
      (l.foldl (fun t e => t.place e.1 e.2) t).Tidy := by
    intro l
    induction l with
    | nil => exact fun t ht _ => ht
    | cons e l ih =>
        exact fun t ht hl => ih _ (ht.place (hl e List.mem_cons_self) e.2) fun x hx => hl x (List.mem_cons_of_mem _ hx)
  refine hall m.entries _ (tidy_ofLogCap _) fun e he => ?_
  obtain ⟨i, hi, rfl⟩ := List.mem_map.mp he
  exact of_decide_eq_true (List.mem_filter.mp hi).2

theorem insertOrAssign (h : m.Tidy) (hkey : key ≠ vacant) (value : V) : (m.insertOrAssign key value).Tidy := by
  unfold FlatHashMap.insertOrAssign
  split_ifs
  · exact (grow m).place hkey value
  · exact h.place hkey value

/-- The backward shift moves slots that are in use and frees the last hole. -/
theorem shiftBack (h : m.Tidy) (fuel hole scan : ℕ) : (m.shiftBack fuel hole scan).Tidy := by
  induction fuel generalizing m hole scan with
  | zero => exact h.setSlot hole fun _ => rfl
  | succ fuel ih =>
      unfold FlatHashMap.shiftBack
      simp only
      split_ifs with hfree
      · exact h.setSlot hole fun _ => rfl
      · exact ih h hole _
      · exact ih (h.setSlot hole fun he => absurd he hfree) _ _

theorem erase (h : m.Tidy) {m' : FlatHashMap hash V vacant} (he : m.erase key = some (value, m')) : m'.Tidy := by
  unfold FlatHashMap.erase at he
  obtain ⟨i, -, hi⟩ := Option.map_eq_some_iff.mp he
  rw [← (Prod.mk.inj hi).2]
  exact h.shiftBack m.capacity i i

/-- **A lookup of the reserved key** finds nothing, or the default value. -/
theorem get?_vacant (h : m.Tidy) (hget : m.get? vacant = some value) : value = default := by
  unfold FlatHashMap.get? find at hget
  obtain ⟨i, hfind, rfl⟩ := Option.map_eq_some_iff.mp hget
  refine h i ?_
  cases hprobe : m.probe vacant m.capacity (m.slotFor vacant) with
  | none => rw [hprobe] at hfind; cases hfind
  | some j =>
      rw [hprobe] at hfind
      simp only at hfind
      split_ifs at hfind with hj
      rwa [← Option.some.inj hfind]

end Tidy

end TickToTrade.Util.FlatHashMap
