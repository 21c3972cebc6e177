import TickToTrade.Dut.BandShift

/-!
# When the band moves

A message has the band placed anew at one price, or leaves the band and the number of the
levels alone. Nothing is said here about the orders, so that all of it holds for every
message, admissible or not.

## What is proved

* `stays_step` — one event, as the placement that it causes and nothing else.
* `band_anchor` and `levels_anchor` — the band and the levels of a placement, in both branches.
-/

namespace TickToTrade.Dut.BookBuilder

open Util

variable {b b' b'' : BookBuilder} {price : ℤ} {trusted : Bool}

/-- The band, the number of its levels and the configuration are the same. -/
structure Stays (b b' : BookBuilder) : Prop where
  band : b'.band = b.band
  levels : ∀ s, (b'.side s).levels = (b.side s).levels
  anchored : b'.anchored = b.anchored
  reanchors : b'.reanchors = b.reanchors
  bandTicks : b'.bandTicks = b.bandTicks
  maxBandTicks : b'.maxBandTicks = b.maxBandTicks
  byPrice : b'.byPrice = b.byPrice
  baseTick : b'.baseTick = b.baseTick
  subDollarTick : b'.subDollarTick = b.subDollarTick

theorem Stays.refl (b : BookBuilder) : Stays b b := ⟨rfl, fun _ => rfl, rfl, rfl, rfl, rfl, rfl, rfl, rfl⟩

theorem Stays.trans (h : Stays b b') (h' : Stays b' b'') : Stays b b'' :=
  ⟨h'.band.trans h.band, fun s => (h'.levels s).trans (h.levels s), h'.anchored.trans h.anchored, h'.reanchors.trans h.reanchors,
    h'.bandTicks.trans h.bandTicks, h'.maxBandTicks.trans h.maxBandTicks, h'.byPrice.trans h.byPrice,
    h'.baseTick.trans h.baseTick, h'.subDollarTick.trans h.subDollarTick⟩

/-- One side changes, and has as many levels as before. -/
theorem stays_update (b : BookBuilder) (s : Side) {x : BookSide} (hx : x.levels = (b.side s).levels) (version : ℕ) :
    Stays b { b with side := Function.update b.side s x, topVersion := version } := by
  refine ⟨rfl, fun s' => ?_, rfl, rfl, rfl, rfl, rfl, rfl, rfl⟩
  change (Function.update b.side s x s').levels = _
  by_cases hs : s' = s
  · subst hs
    rw [Function.update_self, hx]
  · rw [Function.update_of_ne hs]

/-! ### The sums -/

theorem stays_addLevel (b : BookBuilder) (s : Side) (p : ℤ) (q : ℕ) : Stays b (b.addLevel s p q) :=
  stays_update b s (x := (b.side s).add b.band p q ((b.side s).best = kNoPrice ∨ s.atLeast p (b.side s).best)) rfl _

theorem levels_remove (x : BookSide) (g : Band) (s : Side) (p : ℤ) (q : ℕ) : (x.remove g s p q).levels = x.levels := by
  unfold BookSide.remove
  simp only
  split_ifs <;> first | rfl | (cases s <;> rfl)

theorem stays_addShares (b : BookBuilder) (s : Side) (p : ℤ) (q : ℕ) : Stays b (b.addShares s p q) := by
  unfold addShares
  split_ifs
  · exact ⟨rfl, fun _ => rfl, rfl, rfl, rfl, rfl, rfl, rfl, rfl⟩
  · exact stays_addLevel b s p q

theorem stays_removeShares (b : BookBuilder) (s : Side) (p : ℤ) (q : ℕ) : Stays b (b.removeShares s p q) := by
  unfold removeShares
  split_ifs
  · unfold unpark
    simp only
    split_ifs <;> exact ⟨rfl, fun _ => rfl, rfl, rfl, rfl, rfl, rfl, rfl, rfl⟩
  · exact stays_update b s (levels_remove _ _ _ _ _) _

theorem stays_rebuildOne (b : BookBuilder) (r : Resting) : Stays b (b.rebuildOne r) := by
  unfold rebuildOne
  split_ifs
  · exact .refl b
  · exact stays_addLevel ..
  · exact ⟨rfl, fun _ => rfl, rfl, rfl, rfl, rfl, rfl, rfl, rfl⟩

theorem stays_foldl_rebuildOne (l : List (ℕ × Resting)) (b : BookBuilder) : Stays b (l.foldl (fun b e => b.rebuildOne e.2) b) := by
  induction l generalizing b with
  | nil => exact .refl b
  | cons e l ih => exact (stays_rebuildOne b e.2).trans (ih _)

/-! ### The calls -/

theorem stays_insertOrder (b : BookBuilder) (ref : ℕ) (p : ℤ) (q : ℕ) (s : Side) (own : Bool) : Stays b (b.insertOrder ref p q s own) := by
  have hmap : Stays b { b with orders := b.orders.insertOrAssign ref (Resting.make p q s own) } :=
    ⟨rfl, fun _ => rfl, rfl, rfl, rfl, rfl, rfl, rfl, rfl⟩
  unfold insertOrder
  simp only
  split_ifs
  · exact ⟨rfl, fun _ => rfl, rfl, rfl, rfl, rfl, rfl, rfl, rfl⟩
  · exact hmap.trans (stays_addShares ..)

theorem stays_countOut (b : BookBuilder) (orders : FlatHashMap mix Resting) (o : Resting) :
    Stays b ({ b with orders := orders }.countOut o) := by
  have hmap : Stays b { b with orders := orders } := ⟨rfl, fun _ => rfl, rfl, rfl, rfl, rfl, rfl, rfl, rfl⟩
  unfold countOut
  split_ifs
  · exact ⟨rfl, fun _ => rfl, rfl, rfl, rfl, rfl, rfl, rfl, rfl⟩
  · exact hmap.trans (stays_removeShares ..)

theorem stays_removeOrder (b : BookBuilder) (ref : ℕ) : Stays b (b.removeOrder ref) := by
  unfold removeOrder
  cases b.orders.erase ref with
  | none => exact .refl b
  | some r => exact stays_countOut b r.2 r.1

theorem stays_onOrderReplace (b : BookBuilder) (orig new shares wire : ℕ) : Stays b (b.onOrderReplace orig new shares wire) := by
  unfold onOrderReplace
  cases b.orders.erase orig with
  | none => exact .refl b
  | some r =>
      simp only
      split_ifs
      · exact stays_countOut b r.2 r.1
      · exact (stays_countOut b r.2 r.1).trans (stays_insertOrder ..)

theorem stays_clear (b : BookBuilder) : Stays b b.clear := by
  unfold clear
  simp only
  split_ifs <;> exact ⟨rfl, fun _ => rfl, rfl, rfl, rfl, rfl, rfl, rfl, rfl⟩

/-- The price, if any, at which the event has the band placed, and whether it is trusted: the first order of a book
without a band, and trades where the band does not reach or is too coarse. -/
def placesAt (b : BookBuilder) : Op → Option (ℤ × Bool)
  | .message (.addOrder _ _ shares wire) => if shares ≠ 0 ∧ b.anchored = false then some (toPrice wire, false) else none
  | .message (.orderExecuted ref _ _) => (b.orders.get? ref).bind fun o => if b.needsAnchor o.price then some (o.price, true) else none
  | .message (.orderExecutedWithPrice ref _ _ _) =>
      (b.orders.get? ref).bind fun o => if b.needsAnchor o.price then some (o.price, true) else none
  | .message (.tradeNonCross _ _ _ wire _) => if b.needsAnchor (toPrice wire) then some (toPrice wire, true) else none
  | .message (.crossTrade shares wire _) =>
      if (shares > 0 ∧ wire > 0) ∧ b.needsAnchor (toPrice wire) then some (toPrice wire, true) else none
  | _ => none

/-- The book with the band where the event has it. -/
def placed (b : BookBuilder) (op : Op) : BookBuilder :=
  match b.placesAt op with
  | none => b
  | some (price, trusted) => b.anchor price trusted

theorem stays_reduceOrder (b : BookBuilder) (ref shares : ℕ) (trade : Bool) :
    Stays (match (b.orders.get? ref).bind fun o => if (trade && b.needsAnchor o.price) = true then some (o.price, true) else none with
      | none => b
      | some (price, trusted) => b.anchor price trusted) (b.reduceOrder ref shares trade) := by
  unfold reduceOrder FlatHashMap.get?
  cases b.orders.find ref with
  | none => exact .refl b
  | some i =>
      simp only [Option.map_some, Option.bind_some]
      set o := b.orders.valueAt i
      have hwrite : ∀ {x y : BookBuilder}, Stays x y → ∀ own orders, Stays x { y with own := own, orders := orders } :=
        fun h own orders => h.trans ⟨rfl, fun _ => rfl, rfl, rfl, rfl, rfl, rfl, rfl, rfl⟩
      generalize hgone : (if shares < o.shares then shares else o.shares) = gone
      generalize o.setShares (o.shares - gone) = left
      have hend : ∀ x : BookBuilder, Stays x (if (!o.own) = true then x.removeShares o.side o.price gone else x) := by
        intro x
        split_ifs
        · exact stays_removeShares ..
        · exact .refl x
      by_cases hanchor : (trade && b.needsAnchor o.price) = true
      · simp only [hanchor, if_true]
        split
        · exact hwrite (hend _) _ _
        · exact hwrite (hend _) _ _
      · rw [Bool.not_eq_true] at hanchor
        simp only [hanchor, Bool.false_eq_true, if_false]
        split
        · exact hwrite (hend _) _ _
        · exact hwrite (hend _) _ _

/-- **One event** is the placement that it causes; the rest of it leaves the band and the levels alone. -/
theorem stays_step (b : BookBuilder) (op : Op) : Stays (b.placed op) (b.step op) := by
  have htrade : ∀ wire, Stays (match (if b.needsAnchor (toPrice wire) then some (toPrice wire, true) else none : Option (ℤ × Bool)) with
      | none => b
      | some (price, trusted) => b.anchor price trusted) (b.onTradePrice (toPrice wire)) := by
    intro wire
    unfold onTradePrice
    split_ifs
    · exact .refl _
    · exact .refl _
  cases op with
  | clear => exact stays_clear b
  | message body =>
      cases body with
      | addOrder ref side shares wire =>
          change Stays (b.placed _) (b.onAddOrder ref side shares wire)
          unfold placed placesAt onAddOrder
          by_cases hz : shares = 0
          · simp only [hz, ne_eq, not_true_eq_false, false_and, if_false, if_true]
            exact .refl b
          · cases hanchored : b.anchored with
            | false =>
                simp only [ne_eq, hz, not_false_eq_true, and_self, if_true, if_false, Bool.not_false]
                exact stays_insertOrder ..
            | true =>
                simp only [ne_eq, hz, Bool.true_eq_false, and_false, if_false, Bool.not_true, Bool.false_eq_true]
                exact stays_insertOrder ..
      | orderExecuted ref shares mn => exact stays_reduceOrder b ref shares true
      | orderExecutedWithPrice ref shares mn price => exact stays_reduceOrder b ref shares true
      | orderCancel ref shares =>
          have h := stays_reduceOrder b ref shares false
          cases hget : b.orders.get? ref <;> rw [hget] at h <;> exact h
      | orderDelete ref => exact stays_removeOrder b ref
      | orderReplace orig new shares wire => exact stays_onOrderReplace ..
      | tradeNonCross ref side shares wire mn => exact htrade wire
      | crossTrade shares wire mn =>
          change Stays (b.placed _) (if shares > 0 ∧ wire > 0 then b.onTradePrice (toPrice wire) else b)
          unfold placed placesAt
          by_cases hc : shares > 0 ∧ wire > 0
          · rw [if_pos hc]
            simp only [hc, true_and]
            exact htrade wire
          · rw [if_neg hc]
            simp only [hc, false_and, if_false]
            exact .refl b
      | _ => exact .refl b

/-! ### The placement -/

theorem levels_shiftLevels (b : BookBuilder) (s s' : Side) (newMin newMax : ℤ) :
    ((b.shiftLevels s newMin newMax).side s').levels =
      if s' = s then ((newMax - newMin) / b.band.tickWire).toNat + 1 else (b.side s').levels := by
  unfold shiftLevels
  simp only
  by_cases hs : s' = s
  · subst hs
    rw [Function.update_self, if_pos rfl]
  · rw [Function.update_of_ne hs, if_neg hs]
    refine congrArg (fun x : Side → BookSide => (x s').levels) ?_
    refine List.foldlRecOn (motive := fun c : BookBuilder => c.side = b.side) _ _ rfl fun c hc i _ => ?_
    split_ifs <;> exact hc

theorem levels_recomputeBest (x : BookSide) (g : Band) (s : Side) : (x.rebuildBits.recomputeBest g s).levels = x.levels := by
  unfold BookSide.recomputeBest
  split_ifs
  · cases s <;> rfl
  · rfl

theorem levels_shiftBand (b : BookBuilder) (newMin newMax : ℤ) (s : Side) :
    ((b.shiftBand newMin newMax).side s).levels = ((newMax - newMin) / b.band.tickWire).toNat + 1 := by
  unfold shiftBand
  simp only
  rw [levels_recomputeBest, levels_shiftLevels, levels_shiftLevels, band_shiftLevels]
  cases s <;> rfl

theorem levels_rebuildBand (b : BookBuilder) (tick : ℤ) (ticks : ℕ) (newMin newMax : ℤ) (s : Side) :
    ((b.rebuildBand tick ticks newMin newMax).side s).levels = 2 * ticks + 1 :=
  (stays_foldl_rebuildOne b.orders.entries _).levels s

/-- **The band of a placement**, in both branches. -/
theorem band_anchor (hgrid : b.band.tickDiv = DivBy.ofDivisor (u32 b.band.tickWire)) (price : ℤ) (trusted : Bool) :
    (b.anchor price trusted).band =
      ⟨b.anchorMin price trusted, b.anchorMax price trusted, b.anchorTick price, DivBy.ofDivisor (u32 (b.anchorTick price))⟩ := by
  rw [anchor_eq]
  split_ifs with hshift
  · have htick : b.anchorTick price = b.band.tickWire := hshift.2.1
    unfold anchorShift shiftBand
    simp only [band_shiftLevels, htick]
    rw [← hgrid]
    rfl
  · exact band_rebuildBand ..

/-- **Its levels**: one at every tick from its start to its end. -/
theorem levels_anchor (htick : 0 < b.anchorTick price) (s : Side) :
    ((b.anchor price trusted).side s).levels = 2 * b.anchorTicks price (b.anchorTick price) trusted + 1 := by
  rw [anchor_eq]
  split_ifs with hshift
  · have hsame : b.anchorTick price = b.countAnchor.band.tickWire := hshift.2.1
    have hwidth : b.anchorMax price trusted - b.anchorMin price trusted =
        ((2 * b.anchorTicks price (b.anchorTick price) trusted : ℕ) : ℤ) * b.anchorTick price := by
      unfold anchorMax anchorSpan
      push_cast
      ring
    rw [anchorShift, levels_shiftBand, ← hsame, hwidth, Int.mul_ediv_cancel _ htick.ne', Int.toNat_natCast]
  · exact levels_rebuildBand ..

/-- The configuration survives a placement, and the book is anchored after it. -/
theorem config_anchor (b : BookBuilder) (price : ℤ) (trusted : Bool) :
    let b' := b.anchor price trusted
    b'.anchored = true ∧ b'.bandTicks = b.bandTicks ∧ b'.maxBandTicks = b.maxBandTicks ∧ b'.byPrice = b.byPrice ∧
      b'.baseTick = b.baseTick ∧ b'.subDollarTick = b.subDollarTick := by
  rw [anchor_eq]
  split_ifs with hshift
  · have hside : ∀ (c : BookBuilder) (s : Side) (lo hi : ℤ), let c' := c.shiftLevels s lo hi
        c'.anchored = c.anchored ∧ c'.bandTicks = c.bandTicks ∧ c'.maxBandTicks = c.maxBandTicks ∧ c'.byPrice = c.byPrice ∧
          c'.baseTick = c.baseTick ∧ c'.subDollarTick = c.subDollarTick := by
      intro c s lo hi
      unfold shiftLevels
      simp only
      refine List.foldlRecOn (motive := fun c' : BookBuilder => c'.anchored = c.anchored ∧ c'.bandTicks = c.bandTicks ∧
        c'.maxBandTicks = c.maxBandTicks ∧ c'.byPrice = c.byPrice ∧ c'.baseTick = c.baseTick ∧
          c'.subDollarTick = c.subDollarTick) _ _ ⟨rfl, rfl, rfl, rfl, rfl, rfl⟩ fun c' hc i _ => ?_
      split_ifs <;> exact hc
    obtain ⟨h1, h2, h3, h4, h5, h6⟩ := hside b.countAnchor .buy (b.anchorMin price trusted) (b.anchorMax price trusted)
    obtain ⟨k1, k2, k3, k4, k5, k6⟩ := hside _ .sell (b.anchorMin price trusted) (b.anchorMax price trusted)
    exact ⟨k1.trans (h1.trans hshift.1), k2.trans h2, k3.trans h3, k4.trans h4, k5.trans h5, k6.trans h6⟩
  · have h := stays_foldl_rebuildOne b.orders.entries
      { b.countAnchor with
        band := ⟨b.anchorMin price trusted, b.anchorMax price trusted, b.anchorTick price, DivBy.ofDivisor (u32 (b.anchorTick price))⟩
        side := fun _ => BookSide.empty (2 * b.anchorTicks price (b.anchorTick price) trusted + 1)
          (2 * b.anchorTicks price (b.anchorTick price) trusted + 1)
        anchored := true, parkedShares := 0, parkedLo := kNoPrice, parkedHi := kNoPrice }
    exact ⟨h.anchored, h.bandTicks, h.maxBandTicks, h.byPrice, h.baseTick, h.subDollarTick⟩

end TickToTrade.Dut.BookBuilder
