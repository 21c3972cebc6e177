import Mathlib.Data.Multiset.Sort
import Mathlib.Data.List.Perm.Basic

/-!
# The largest elements

The `k` largest elements of a multiset (`largest`). A part of a multiset is that, if it has the
right size and nothing outside it exceeds anything in it (`Splits.largest_eq`). A table of at
most `k` elements keeps that up as elements come in: while there is room it takes each in
(`Splits.push`), and then it changes a least element for a greater one, or turns the new
one down (`Splits.replace`, `Splits.refuse`).
-/

namespace TickToTrade.Util

variable {α β : Type*}

/-- The `k` largest elements, all of them where there are fewer. -/
def largest [LinearOrder β] (k : ℕ) (s : Multiset β) : Multiset β := ((s.sort (· ≥ ·)).take k : List β)

/-- The multiset falls into a part that is kept and one that is not, by the size of the elements. -/
structure Splits [LinearOrder β] (size : α → β) (k : ℕ) (all kept dropped : Multiset α) : Prop where
  eq : all = kept + dropped
  card : Multiset.card kept ≤ k
  full : dropped ≠ 0 → Multiset.card kept = k
  le : ∀ a ∈ kept, ∀ d ∈ dropped, size d ≤ size a

namespace Splits

variable [LinearOrder β] {size : α → β} {k : ℕ} {all kept dropped : Multiset α} {a least : α}

theorem zero (size : α → β) (k : ℕ) : Splits size k 0 0 0 :=
  ⟨rfl, Nat.zero_le k, fun h => absurd rfl h, fun _ h => absurd h (Multiset.notMem_zero _)⟩

/-- **What is kept are the largest elements.** -/
theorem largest_eq (h : Splits size k all kept dropped) : kept.map size = largest k (all.map size) := by
  have hsorted : (all.map size).sort (· ≥ ·) = (kept.map size).sort (· ≥ ·) ++ (dropped.map size).sort (· ≥ ·) := by
    refine List.Perm.eq_of_pairwise' (r := (· ≥ ·)) (Multiset.pairwise_sort _ _) ?_ ?_
    · refine List.pairwise_append.mpr ⟨Multiset.pairwise_sort _ _, Multiset.pairwise_sort _ _, fun x hx y hy => ?_⟩
      obtain ⟨a, ha, rfl⟩ := Multiset.mem_map.mp ((Multiset.mem_sort _).mp hx)
      obtain ⟨d, hd, rfl⟩ := Multiset.mem_map.mp ((Multiset.mem_sort _).mp hy)
      exact h.le a ha d hd
    · rw [← Multiset.coe_eq_coe, ← Multiset.coe_add, Multiset.sort_eq, Multiset.sort_eq, Multiset.sort_eq, h.eq, Multiset.map_add]
  have hlength : ((kept.map size).sort (· ≥ ·)).length = Multiset.card kept := by
    rw [Multiset.length_sort, Multiset.card_map]
  have htake : (((kept.map size).sort (· ≥ ·)) ++ (dropped.map size).sort (· ≥ ·)).take k = (kept.map size).sort (· ≥ ·) := by
    by_cases hd : dropped = 0
    · rw [hd, Multiset.map_zero, Multiset.sort_zero, List.append_nil]
      exact List.take_of_length_le (by rw [hlength]; exact h.card)
    · rw [← h.full hd, ← hlength, List.take_left]
  rw [largest, hsorted, htake, Multiset.sort_eq]

theorem push (h : Splits size k all kept dropped) (hroom : Multiset.card kept < k) (a : α) :
    Splits size k (a ::ₘ all) (a ::ₘ kept) dropped := by
  have hnone : dropped = 0 := by
    by_contra hd
    exact absurd (h.full hd) (by omega)
  subst hnone
  refine ⟨by rw [h.eq, Multiset.cons_add], by rw [Multiset.card_cons]; omega, fun hd => absurd rfl hd, fun _ _ d hd => ?_⟩
  exact absurd hd (Multiset.notMem_zero d)

/-- The new element takes the place of a least one. -/
theorem replace (h : Splits size k all (least ::ₘ kept) dropped) (hfull : Multiset.card kept + 1 = k)
    (hleast : ∀ b ∈ kept, size least ≤ size b) (hlt : size least < size a) :
    Splits size k (a ::ₘ all) (a ::ₘ kept) (least ::ₘ dropped) := by
  refine ⟨?_, by rw [Multiset.card_cons]; omega, fun _ => by rw [Multiset.card_cons]; omega, fun b hb d hd => ?_⟩
  · rw [h.eq, Multiset.cons_add, Multiset.cons_add, Multiset.add_cons]
  · have hd' : size d ≤ size least := by
      rcases Multiset.mem_cons.mp hd with rfl | hd
      · exact le_rfl
      · exact h.le least (Multiset.mem_cons_self least kept) d hd
    rcases Multiset.mem_cons.mp hb with rfl | hb
    · exact hd'.trans hlt.le
    · exact hd'.trans (hleast b hb)

/-- The new element does not exceed any. -/
theorem refuse (h : Splits size k all kept dropped) (hfull : Multiset.card kept = k) (hle : ∀ b ∈ kept, size a ≤ size b) :
    Splits size k (a ::ₘ all) kept (a ::ₘ dropped) := by
  refine ⟨by rw [h.eq, Multiset.add_cons], h.card, fun _ => hfull, fun b hb d hd => ?_⟩
  rcases Multiset.mem_cons.mp hd with rfl | hd
  · exact hle b hb
  · exact h.le b hb d hd

end Splits

end TickToTrade.Util
