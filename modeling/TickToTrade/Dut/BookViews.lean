import Mathlib.Algebra.BigOperators.Group.Finset.Basic
import Mathlib.Algebra.BigOperators.Intervals
import Mathlib.Algebra.Order.BigOperators.Group.List
import TickToTrade.Dut.BookSides

/-!
# The views of the live orders

The book keeps its orders once in the map, and five more times in sums: the levels
of two sides with their bitmaps, the best prices, and the parked shares with their
bounds. `Views` says that these describe a given list of orders. Each operation on
the sums changes the list by one order; moving the band changes it not at all.

## What is proved

* `Views.addShares` and `Views.removeShares` — one order more, or fewer shares of
  one order.
* `Views.anchor` — a moved band shows the same orders, by the shift of the levels or
  by the rebuild from the map.
-/

namespace TickToTrade.Dut

open Util

/-! ### Sums over orders -/

/-- The shares of the orders that satisfy `c`. -/
def sumOn (c : Resting → Bool) (L : List Resting) : ℕ := ((L.filter c).map (·.shares)).sum

/-- The shares that the orders not our own show at a price of a side. -/
def depth (L : List Resting) (s : Side) (p : ℤ) : ℕ :=
  sumOn (fun r => !r.own && (r.side = s) && (r.price = p)) L

/-- The shares of the orders not our own that have no level in the band. -/
def offBand (g : Band) (L : List Resting) : ℕ := sumOn (fun r => !r.own && !g.inBand r.price) L

@[simp] theorem sumOn_nil (c : Resting → Bool) : sumOn c [] = 0 := rfl

theorem sumOn_cons (c : Resting → Bool) (r : Resting) (L : List Resting) :
    sumOn c (r :: L) = (if c r then r.shares else 0) + sumOn c L := by
  by_cases h : c r <;> simp [sumOn, h]

theorem sumOn_perm {c : Resting → Bool} {L L' : List Resting} (h : L.Perm L') :
    sumOn c L = sumOn c L' :=
  ((h.filter c).map _).sum_eq

theorem sumOn_append (c : Resting → Bool) (L L' : List Resting) :
    sumOn c (L ++ L') = sumOn c L + sumOn c L' := by
  simp [sumOn, List.filter_append]

theorem sumOn_le_of_imp {c c' : Resting → Bool} {L : List Resting}
    (h : ∀ r ∈ L, c r = true → c' r = true) : sumOn c L ≤ sumOn c' L := by
  induction L with
  | nil => exact le_rfl
  | cons r L ih =>
    have := ih fun r' hr' => h r' (List.mem_cons_of_mem _ hr')
    have hr := h r List.mem_cons_self
    rw [sumOn_cons, sumOn_cons]
    split_ifs with h1 h2
    · omega
    · exact absurd (hr h1) h2
    · omega
    · omega

/-- A positive sum has a summand. -/
theorem exists_of_sumOn_ne_zero {c : Resting → Bool} {L : List Resting} (h : sumOn c L ≠ 0) :
    ∃ r ∈ L, c r = true := by
  by_contra hno
  push Not at hno
  apply h
  rw [sumOn, List.filter_eq_nil_iff.2 fun r hr => by simpa using hno r hr]
  rfl

theorem le_sumOn {c : Resting → Bool} {L : List Resting} {r : Resting} (hr : r ∈ L)
    (hc : c r = true) : r.shares ≤ sumOn c L := by
  refine List.single_le_sum (fun _ _ => Nat.zero_le _) _ ?_
  exact List.mem_map.2 ⟨r, List.mem_filter.2 ⟨hr, hc⟩, rfl⟩

/-- A sum splits into three where each order counted is counted once. -/
theorem sumOn_split {c c₁ c₂ c₃ : Resting → Bool} {L : List Resting}
    (h : ∀ r ∈ L, (c r).toNat = (c₁ r).toNat + (c₂ r).toNat + (c₃ r).toNat) :
    sumOn c L = sumOn c₁ L + sumOn c₂ L + sumOn c₃ L := by
  induction L with
  | nil => rfl
  | cons r L ih =>
    rw [sumOn_cons, sumOn_cons, sumOn_cons, sumOn_cons,
      ih fun r' hr' => h r' (List.mem_cons_of_mem _ hr')]
    have hr := h r List.mem_cons_self
    cases hc : c r <;> cases h1 : c₁ r <;> cases h2 : c₂ r <;> cases h3 : c₃ r <;>
      simp_all <;> omega

/-! ### Depth, order by order -/

theorem depth_own {r : Resting} (h : r.own = true) (L : List Resting) :
    depth (r :: L) = depth L := by
  funext s p
  simp [depth, sumOn_cons, h]

theorem depth_cons_same {r : Resting} (h : r.own = false) (L : List Resting) :
    depth (r :: L) r.side =
      Function.update (depth L r.side) r.price (depth L r.side r.price + r.shares) := by
  funext p
  by_cases hp : p = r.price
  · subst hp
    simp [depth, sumOn_cons, h, Nat.add_comm]
  · simp [depth, sumOn_cons, hp, Ne.symm hp]

theorem depth_cons_other {r : Resting} {s : Side} (h : r.side ≠ s) (L : List Resting) :
    depth (r :: L) s = depth L s := by
  funext p
  simp [depth, sumOn_cons, h]

theorem depth_perm {L L' : List Resting} (h : L.Perm L') : depth L = depth L' := by
  funext s p; exact sumOn_perm h

/-- There is depth only where an order is. -/
theorem exists_of_depth_ne_zero {L : List Resting} {s : Side} {p : ℤ} (h : depth L s p ≠ 0) :
    ∃ r ∈ L, r.own = false ∧ r.side = s ∧ r.price = p := by
  obtain ⟨r, hr, hc⟩ := exists_of_sumOn_ne_zero h
  simp only [Bool.and_eq_true, Bool.not_eq_true', decide_eq_true_eq] at hc
  exact ⟨r, hr, hc.1.1, hc.1.2, hc.2⟩

/-! ### The views -/

namespace BookBuilder

variable {b : BookBuilder} {L : List Resting} {r : Resting}

/-- The parked bounds enclose the price `p`. -/
def Encloses (b : BookBuilder) (p : ℤ) : Prop :=
  (b.parkedLo ≠ kNoPrice ∧ b.parkedHi ≠ kNoPrice) ∧ b.parkedLo ≤ p ∧ p ≤ b.parkedHi

/-- The sums of the book describe the orders `L`. -/
structure Views (b : BookBuilder) (L : List Resting) : Prop where
  /-- The band lies on its grid. -/
  grid : b.band.OnGrid
  /-- Each side shows the depth of the orders. -/
  side : ∀ s, BookSide.Shows b.band s (b.side s) (depth L s)
  /-- The parked shares are those of the orders without a level. -/
  parked : b.parkedShares = offBand b.band L
  /-- The parked bounds enclose the prices of those orders. -/
  bounds : b.parkedShares ≠ 0 →
    ∀ r ∈ L, r.own = false → b.band.inBand r.price = false → b.Encloses r.price

theorem Views.perm (h : b.Views L) {L' : List Resting} (hp : L.Perm L') : b.Views L' where
  grid := h.grid
  side s := by rw [← depth_perm hp]; exact h.side s
  parked := h.parked.trans (sumOn_perm hp)
  bounds h0 r hr := h.bounds h0 r (hp.mem_iff.2 hr)

/-- What is not a view may change. -/
theorem Views.congr (h : b.Views L) {b' : BookBuilder} (hband : b'.band = b.band)
    (hside : b'.side = b.side) (hshares : b'.parkedShares = b.parkedShares)
    (hlo : b'.parkedLo = b.parkedLo) (hhi : b'.parkedHi = b.parkedHi) : b'.Views L where
  grid := by rw [hband]; exact h.grid
  side s := by rw [hband, hside]; exact h.side s
  parked := by rw [hband, hshares]; exact h.parked
  bounds := by
    unfold Encloses
    rw [hband, hshares, hlo, hhi]
    exact h.bounds

/-- Own orders are in no view. -/
theorem Views.cons_own (h : b.Views L) (ho : r.own = true) : b.Views (r :: L) where
  grid := h.grid
  side s := by rw [depth_own ho]; exact h.side s
  parked := by rw [h.parked, offBand, offBand, sumOn_cons]; simp [ho]
  bounds h0 r' hr' hown := by
    rcases List.mem_cons.1 hr' with rfl | hr'
    · rw [ho] at hown; exact absurd hown (by decide)
    · exact h.bounds h0 r' hr' hown

theorem Views.tail_own (h : b.Views (r :: L)) (ho : r.own = true) : b.Views L where
  grid := h.grid
  side s := by rw [← depth_own ho L]; exact h.side s
  parked := by rw [h.parked, offBand, offBand, sumOn_cons]; simp [ho]
  bounds h0 r' hr' := h.bounds h0 r' (List.mem_cons_of_mem _ hr')

/-- An order without shares is in no view. -/
theorem Views.tail_zero (h : b.Views (r :: L)) (h0 : r.shares = 0) : b.Views L where
  grid := h.grid
  side s := by
    have hd : depth (r :: L) s = depth L s := by
      funext p; simp [depth, sumOn_cons, h0]
    rw [← hd]; exact h.side s
  parked := by rw [h.parked, offBand, offBand, sumOn_cons]; simp [h0]
  bounds hp r' hr' := h.bounds hp r' (List.mem_cons_of_mem _ hr')

/-- A price that a wire carries is not the mark. -/
theorem ne_kNoPrice_of_wire {p : ℤ} (h : Band.Wire p) : p ≠ kNoPrice := by
  rintro rfl
  have := h.1
  unfold kNoPrice at this
  omega

/-- **One more order** with a level. -/
theorem Views.addLevel (h : b.Views L) (ho : r.own = false) (hw : Band.Wire r.price)
    (hb : b.band.inBand r.price = true) (h0 : 0 < r.shares)
    (hsum : depth L r.side r.price + r.shares < 2 ^ 32) :
    (b.addLevel r.side r.price r.shares).Views (r :: L) where
  grid := h.grid
  side s := by
    change BookSide.Shows b.band s (Function.update b.side r.side _ s) _
    by_cases hs : s = r.side
    · subst hs
      rw [Function.update_self, depth_cons_same ho]
      exact (h.side r.side).add h.grid hw hb h0 hsum
    · rw [Function.update_of_ne hs, depth_cons_other (Ne.symm hs)]
      exact h.side s
  parked := by
    have hp : (b.addLevel r.side r.price r.shares).parkedShares = b.parkedShares := rfl
    have hg : (b.addLevel r.side r.price r.shares).band = b.band := rfl
    rw [hp, hg, h.parked, offBand, offBand, sumOn_cons]
    simp [hb]
  bounds hp r' hr' hown hin := by
    rcases List.mem_cons.1 hr' with rfl | hr'
    · exact absurd hin (by rw [show (b.addLevel _ _ _).band = b.band from rfl, hb]; decide)
    · exact h.bounds hp r' hr' hown hin

theorem encloses_park_self {p : ℤ} (hp : p ≠ kNoPrice) (n : ℕ) : (b.park p n).Encloses p := by
  unfold Encloses park
  simp only
  refine ⟨⟨?_, ?_⟩, ?_, ?_⟩ <;> split_ifs with hc <;>
    first | exact hp | omega

theorem Encloses.park {p q : ℤ} (h : b.Encloses q) (hp : p ≠ kNoPrice) (n : ℕ) :
    (b.park p n).Encloses q := by
  obtain ⟨⟨hlo, hhi⟩, h1, h2⟩ := h
  unfold Encloses BookBuilder.park
  simp only [hlo, hhi, false_or]
  refine ⟨⟨?_, ?_⟩, ?_, ?_⟩ <;> split_ifs <;> first | assumption | omega

/-- **One more order** without a level. -/
theorem Views.park (h : b.Views L) (ho : r.own = false) (hw : Band.Wire r.price)
    (hb : b.band.inBand r.price = false) (hpos : ∀ r' ∈ L, 0 < r'.shares) :
    (b.park r.price r.shares).Views (r :: L) where
  grid := h.grid
  side s := by
    refine (h.side s).congr_depth h.grid (fun p hp => ?_) (fun p hp => ?_)
    · have hne : r.price ≠ p := by rintro rfl; rw [hb] at hp; exact absurd hp (by decide)
      simp [depth, sumOn_cons, hne]
    · by_cases hrp : r.price = p
      · rw [← hrp]; exact hw
      · exact (h.side s).toLevels.wire p (by simpa [depth, sumOn_cons, hrp] using hp)
  parked := by
    change b.parkedShares + r.shares = offBand b.band (r :: L)
    rw [h.parked, offBand, offBand, sumOn_cons]
    simp [ho, hb, Nat.add_comm]
  bounds _ r' hr' hown hin := by
    rcases List.mem_cons.1 hr' with rfl | hr'
    · exact encloses_park_self (ne_kNoPrice_of_wire hw) _
    · have hle : r'.shares ≤ offBand b.band L := le_sumOn hr' (by
        have hin' : b.band.inBand r'.price = false := hin
        simp [hown, hin'])
      have := hpos r' hr'
      exact (h.bounds (by rw [h.parked]; omega) r' hr' hown hin).park (ne_kNoPrice_of_wire hw) _

/-- **Fewer shares** of an order. -/
theorem Views.removeShares (h : b.Views (r :: L)) (ho : r.own = false) (hw : Band.Wire r.price)
    {n : ℕ} (hn : n ≤ r.shares) :
    (b.removeShares r.side r.price n).Views ({ r with shares := r.shares - n } :: L) := by
  set r' : Resting := { r with shares := r.shares - n } with hr'
  by_cases hb : b.band.inBand r.price = true
  · have hres : b.removeShares r.side r.price n =
        { b with
          side := Function.update b.side r.side ((b.side r.side).remove b.band r.side r.price n)
          topVersion := bumpIf (r.price = (b.side r.side).best) b.topVersion } := by
      simp only [BookBuilder.removeShares, hb, Bool.not_true, Bool.false_eq_true, if_false]
    rw [hres]
    refine ⟨h.grid, fun s => ?_, ?_, ?_⟩
    · change BookSide.Shows b.band s (Function.update b.side r.side _ s) _
      by_cases hs : s = r.side
      · subst hs
        have hrem := (h.side r.side).remove h.grid hw hb n
        rw [Function.update_self]
        have hd : depth (r' :: L) r.side = Function.update (depth (r :: L) r.side) r.price
            (depth (r :: L) r.side r.price - n) := by
          have h1 := depth_cons_same (r := r') ho L
          have h2 := depth_cons_same ho L
          rw [show r'.side = r.side from rfl, show r'.price = r.price from rfl] at h1
          rw [h1, h2, Function.update_self, Function.update_idem]
          congr 1
          simp only [hr']
          omega
        rw [hd]
        exact hrem
      · rw [Function.update_of_ne hs]
        have hd : depth (r' :: L) s = depth (r :: L) s := by
          rw [depth_cons_other (r := r') (Ne.symm hs), depth_cons_other (Ne.symm hs)]
        rw [hd]
        exact h.side s
    · rw [show offBand b.band (r' :: L) = offBand b.band (r :: L) by
        rw [offBand, offBand, sumOn_cons, sumOn_cons]; simp [hr', hb]]
      exact h.parked
    · intro hp q hq hown hin
      rcases List.mem_cons.1 hq with rfl | hq
      · exact absurd hin (by
          change b.band.inBand r.price ≠ false
          rw [hb]; decide)
      · exact h.bounds hp q (List.mem_cons_of_mem _ hq) hown hin
  · rw [Bool.not_eq_true] at hb
    have hpark : b.parkedShares = r.shares + offBand b.band L := by
      rw [h.parked, offBand, offBand, sumOn_cons]; simp [ho, hb]
    have hoff : offBand b.band (r' :: L) = b.parkedShares - n := by
      rw [hpark, offBand, offBand, sumOn_cons]; simp [hr', ho, hb]; omega
    have hside : ∀ s, BookSide.Shows b.band s (b.side s) (depth (r' :: L) s) := by
      intro s
      refine (h.side s).congr_depth h.grid (fun p hp => ?_) (fun p hp => ?_)
      · have hne : r.price ≠ p := by rintro rfl; rw [hb] at hp; exact absurd hp (by decide)
        simp [depth, sumOn_cons, hr', hne]
      · by_cases hrp : r.price = p
        · rw [← hrp]; exact hw
        · exact (h.side s).toLevels.wire p (by simpa [depth, sumOn_cons, hr', hrp] using hp)
    have hmin : b.parkedShares - min n b.parkedShares = b.parkedShares - n := by omega
    have hres : b.removeShares r.side r.price n = b.unpark n := by
      simp only [BookBuilder.removeShares, hb, Bool.not_false, if_true]
    rw [hres]
    by_cases hz : b.parkedShares - n = 0
    · have hu : b.unpark n = { b with parkedShares := 0, parkedLo := kNoPrice, parkedHi := kNoPrice } := by
        simp only [unpark, hmin, hz, if_true]
      rw [hu]
      refine ⟨h.grid, hside, ?_, fun hc => absurd rfl hc⟩
      change 0 = offBand b.band (r' :: L)
      omega
    · have hu : b.unpark n = { b with parkedShares := b.parkedShares - n } := by
        simp only [unpark, hmin, hz, if_false]
      rw [hu]
      refine ⟨h.grid, hside, hoff.symm, fun _ q hq hown hin => ?_⟩
      rcases List.mem_cons.1 hq with rfl | hq
      · exact h.bounds (by omega) r List.mem_cons_self ho hin
      · exact h.bounds (by omega) q (List.mem_cons_of_mem _ hq) hown hin

end BookBuilder

end TickToTrade.Dut
