import TickToTrade.Dut.BandMoves

/-!
# The band in 32-bit prices

The book computes with signed 32-bit prices, and a result that does not fit is undefined. Here
the same arithmetic is checked: `none` where an intermediate leaves the range. A placement fits
exactly when half the band has room on both sides of the price.

## What is proved

* `anchorWords_eq` — when the arithmetic of `anchor` fits, and what it gives then.
* `band_in_range` — if every placement has room, the band, its levels and every index stay in
  range, over every run.
-/

namespace TickToTrade.Dut

open Util

/-- A signed 32-bit intermediate. -/
def IsWord (x : ℤ) : Prop := -2 ^ 31 ≤ x ∧ x < 2 ^ 31

instance (x : ℤ) : Decidable (IsWord x) := inferInstanceAs (Decidable (_ ∧ _))

/-- An intermediate, where it fits. -/
def word (x : ℤ) : Option ℤ := if IsWord x then some x else none

theorem word_eq {x : ℤ} (h : IsWord x) : word x = some x := if_pos h

theorem word_none {x : ℤ} (h : ¬ IsWord x) : word x = none := if_neg h

/-- `inBand`. -/
def Band.inBandWords (g : Band) (price : ℤ) : Option Bool :=
  if !g.inRange price then some false
  else do
    let off := u32 (← word (price - g.minPrice))
    return decide (off = g.tickDiv.apply off * u32 g.tickWire % 2 ^ 32)

/-- `index`. -/
def Band.indexWords (g : Band) (price : ℤ) : Option ℕ := do
  return g.tickDiv.apply (u32 (← word (price - g.minPrice)))

/-- The price of a level. -/
def Band.priceOfWords (g : Band) (i : ℕ) : Option ℤ := do
  word (g.minPrice + (← word (toPrice i * g.tickWire)))

/-- A list of numbers that all exist. -/
theorem isSome_mapM {α β : Type} {f : α → Option β} {l : List α} (h : ∀ a ∈ l, (f a).isSome) : (l.mapM f).isSome := by
  induction l with
  | nil => rfl
  | cons a l ih =>
      obtain ⟨x, hx⟩ := Option.isSome_iff_exists.mp (h a List.mem_cons_self)
      obtain ⟨xs, hxs⟩ := Option.isSome_iff_exists.mp (ih fun c hc => h c (List.mem_cons_of_mem _ hc))
      rw [List.mapM_cons, hx, hxs]
      rfl

namespace BookBuilder

variable {b b' : BookBuilder} {price : ℤ} {trusted : Bool}

/-- The ends of the band that `anchor` computes. -/
def anchorWords (b : BookBuilder) (price : ℤ) (trusted : Bool) : Option (ℤ × ℤ) := do
  let tick := b.anchorTick price
  let span ← word (toPrice (b.anchorTicks price tick trusted) * tick)
  let aligned ← word (price - (← word (price.tmod tick)))
  let newMin := max (← word (aligned - span)) 0
  let newMax ← word (newMin + (← word (2 * span)))
  return (newMin, newMax)

/-- The numbers that `shiftLevels` computes for one side: the new length, where the levels that stay begin and how
many they are, and the prices that it parks. -/
def shiftWords (b : BookBuilder) (s : Side) (newMin newMax : ℤ) : Option (ℕ × ℕ × ℕ × ℕ × List ℤ) := do
  let x := b.side s
  let tick := b.band.tickWire
  let newN := ((← word (newMax - newMin)) / tick).toNat + 1
  let lo := max b.band.minPrice newMin
  let hi := min b.band.maxPrice newMax
  let (oi0, nj0, len) ← if lo ≤ hi then do
      pure (← b.band.indexWords lo, ((← word (lo - newMin)) / tick).toNat, ((← word (hi - lo)) / tick).toNat + 1)
    else pure (0, 0, 0)
  let out := (List.range x.levels).filter fun i => (i < oi0 ∨ i ≥ oi0 + len) ∧ x.size i ≠ 0
  let parked ← out.mapM b.band.priceOfWords
  return (newN, oi0, nj0, len, parked)

/-- Half the band has room on both sides of the price, rounded to the tick. -/
def Room (b : BookBuilder) (price : ℤ) (trusted : Bool) : Prop :=
  -2 ^ 31 ≤ price - price.tmod (b.anchorTick price) - b.anchorSpan price trusted ∧
    price - price.tmod (b.anchorTick price) + b.anchorSpan price trusted < 2 ^ 31

instance (b : BookBuilder) (price : ℤ) (trusted : Bool) : Decidable (b.Room price trusted) :=
  inferInstanceAs (Decidable (_ ∧ _))

/-! ### The arithmetic of a placement -/

theorem aligned_nonneg {price tick : ℤ} (htick : 0 < tick) (h0 : 0 ≤ price) :
    0 ≤ price - price.tmod tick ∧ price - price.tmod tick ≤ price := by
  have hquot : tick * price.tdiv tick = price - price.tmod tick := Int.mul_tdiv_self price tick
  have hmul := mul_nonneg htick.le (Int.tdiv_nonneg h0 htick.le)
  have hrest := Int.tmod_nonneg tick h0
  omega

theorem aligned_nonpos {price tick : ℤ} (htick : 0 < tick) (h0 : price ≤ 0) :
    price ≤ price - price.tmod tick ∧ price - price.tmod tick ≤ 0 := by
  have hneg := aligned_nonneg htick (neg_nonneg.mpr h0)
  rw [Int.neg_tmod] at hneg
  omega

/-- The ends around a rounded price fit exactly where there is room for half the width on both sides. -/
theorem ends_eq {aligned span : ℤ} (haligned : IsWord aligned) (h0 : 0 ≤ span) (hspan : 2 * span < 2 ^ 31) :
    (do
      let newMin := max (← word (aligned - span)) 0
      let newMax ← word (newMin + (← word (2 * span)))
      return (newMin, newMax)) =
    if -2 ^ 31 ≤ aligned - span ∧ aligned + span < 2 ^ 31 then
      some (max (aligned - span) 0, max (aligned - span) 0 + 2 * span)
    else none := by
  unfold IsWord at haligned
  have htwice : IsWord (2 * span) := ⟨by omega, hspan⟩
  simp only [Option.bind_eq_bind, word_eq htwice, Option.bind_some]
  by_cases hdown : IsWord (aligned - span)
  · have hbelow := hdown
    unfold IsWord at hbelow
    rw [word_eq hdown, Option.bind_some]
    split_ifs with hroom
    · rw [word_eq (show IsWord (max (aligned - span) 0 + 2 * span) by unfold IsWord; omega)]
      rfl
    · rw [word_none (show ¬ IsWord (max (aligned - span) 0 + 2 * span) by unfold IsWord; omega)]
      rfl
  · rw [word_none hdown, if_neg fun hroom => hdown ⟨hroom.1, by omega⟩]
    rfl

/-- **The arithmetic of `anchor` fits exactly where there is room.** -/
theorem anchorWords_eq (htick : 0 < b.anchorTick price) (hspan : 2 * b.anchorSpan price trusted < 2 ^ 31) (hprice : IsWord price) :
    b.anchorWords price trusted =
      if b.Room price trusted then some (b.anchorMin price trusted, b.anchorMax price trusted) else none := by
  have hnonneg : 0 ≤ b.anchorSpan price trusted := mul_nonneg (Int.natCast_nonneg _) htick.le
  have hcast : word (toPrice (b.anchorTicks price (b.anchorTick price) trusted) * b.anchorTick price) =
      some (b.anchorSpan price trusted) := by
    have hticks : (b.anchorTicks price (b.anchorTick price) trusted : ℤ) ≤ b.anchorSpan price trusted :=
      le_mul_of_one_le_right (Int.natCast_nonneg _) htick
    rw [toPrice_of_lt (by omega)]
    exact word_eq ⟨by change _ ≤ b.anchorSpan price trusted; omega, by change b.anchorSpan price trusted < _; omega⟩
  have hround : IsWord (price.tmod (b.anchorTick price)) ∧ IsWord (price - price.tmod (b.anchorTick price)) := by
    unfold IsWord at hprice ⊢
    rcases le_total 0 price with h0 | h0
    · have hle := aligned_nonneg htick h0
      omega
    · have hle := aligned_nonpos htick h0
      omega
  unfold anchorWords
  simp only [hcast, word_eq hround.1, word_eq hround.2, Option.bind_eq_bind, Option.bind_some]
  exact ends_eq hround.2 hnonneg hspan

/-! ### A band in range -/

/-- The band is placed on its grid, ends at a price, and has a level at every tick. -/
structure Placed (b : BookBuilder) : Prop where
  grid : b.band.OnGrid
  high : b.band.maxPrice < 2 ^ 31
  levels : ∃ ticks : ℕ, b.band.maxPrice = b.band.minPrice + 2 * (ticks * b.band.tickWire) ∧
    ∀ s, (b.side s).levels = 2 * ticks + 1

theorem Placed.inBandWords (h : Placed b) (price : ℤ) : b.band.inBandWords price = some (b.band.inBand price) := by
  unfold Band.inBandWords Band.inBand
  by_cases hr : b.band.inRange price = true
  · obtain ⟨hle, hle'⟩ := Band.inRange_iff.mp hr
    have hmin := h.grid.min_nonneg
    have hhigh := h.high
    have hword : IsWord (price - b.band.minPrice) := ⟨by omega, by omega⟩
    simp only [hr, Bool.not_true, Bool.false_eq_true, if_false, word_eq hword, Option.bind_eq_bind, Option.bind_some]
    rfl
  · rw [Bool.not_eq_true] at hr
    rw [hr]
    rfl

/-- The index of a price between the ends is that of a level. -/
theorem Placed.index (h : Placed b) (hr : b.band.inRange price = true) (s : Side) :
    b.band.indexWords price = some (b.band.index price) ∧ b.band.index price < (b.side s).levels := by
  obtain ⟨hle, hle'⟩ := Band.inRange_iff.mp hr
  have hmin := h.grid.min_nonneg
  have hhigh := h.high
  have htick := h.grid.tick_pos
  obtain ⟨ticks, hmax, hlevels⟩ := h.levels
  have hword : IsWord (price - b.band.minPrice) := ⟨by omega, by omega⟩
  refine ⟨by unfold Band.indexWords; rw [word_eq hword]; rfl, ?_⟩
  have hidx := h.grid.index_eq (p := price) ⟨by omega, by omega⟩ hle
  have hquot : (price - b.band.minPrice) / b.band.tickWire ≤ ((2 * ticks : ℕ) : ℤ) := by
    refine Int.ediv_le_of_le_mul htick ?_
    push_cast
    linarith
  rw [hlevels]
  omega

/-- The price of a level. -/
theorem Placed.priceOfWords (h : Placed b) {i : ℕ} {s : Side} (hi : i < (b.side s).levels) :
    b.band.priceOfWords i = some (b.band.priceOf i) := by
  have hlow := h.grid.min_nonneg
  have hhigh := h.high
  have htick := h.grid.tick_pos
  obtain ⟨ticks, hwidth, hlevels⟩ := h.levels
  rw [hlevels] at hi
  have hprice : (i : ℤ) * b.band.tickWire ≤ 2 * (ticks * b.band.tickWire) := by
    rw [← mul_assoc]
    exact mul_le_mul_of_nonneg_right (by omega) htick.le
  have hcast : (i : ℤ) ≤ i * b.band.tickWire := le_mul_of_one_le_right (Int.natCast_nonneg _) htick
  unfold Band.priceOfWords
  rw [toPrice_of_lt (by omega), word_eq ⟨by omega, by omega⟩, Option.bind_eq_bind, Option.bind_some]
  exact word_eq ⟨by omega, by omega⟩

/-- The numbers of a shift fit, from a placed band to another one of the same tick. -/
theorem Placed.shiftWords (h : Placed b) (s : Side) {newMin newMax : ℤ} (hmin : 0 ≤ newMin) (hle : newMin ≤ newMax)
    (hmax : newMax < 2 ^ 31) : (b.shiftWords s newMin newMax).isSome := by
  have hlow := h.grid.min_nonneg
  have hhigh := h.high
  have hparked : ∀ p : ℕ → Bool, (((List.range (b.side s).levels).filter p).mapM b.band.priceOfWords).isSome := fun p =>
    isSome_mapM fun i hi => by rw [h.priceOfWords (List.mem_range.mp (List.mem_filter.mp hi).1)]; rfl
  unfold BookBuilder.shiftWords
  simp only [Option.bind_eq_bind, Option.pure_def]
  rw [word_eq (show IsWord (newMax - newMin) from ⟨by omega, by omega⟩), Option.bind_some]
  by_cases hcommon : max b.band.minPrice newMin ≤ min b.band.maxPrice newMax
  · have hr : b.band.inRange (max b.band.minPrice newMin) = true := Band.inRange_iff.mpr ⟨by omega, by omega⟩
    rw [if_pos hcommon, (h.index hr s).1, Option.bind_some, word_eq ⟨by omega, by omega⟩, Option.bind_some,
      word_eq ⟨by omega, by omega⟩, Option.bind_some, Option.bind_some]
    obtain ⟨prices, hprices⟩ := Option.isSome_iff_exists.mp (hparked _)
    rw [hprices]
    rfl
  · rw [if_neg hcommon, Option.bind_some]
    obtain ⟨prices, hprices⟩ := Option.isSome_iff_exists.mp (hparked _)
    rw [hprices]
    rfl

/-! ### Every run -/

/-- The default limits of the band, a tick of 100, and one of 1 below a dollar. -/
structure DefaultBand (cfg : BookConfig) : Prop where
  tickWire : cfg.tickWire = 100
  subDollarTickWire : cfg.subDollarTickWire = 1
  bandTicks : cfg.bandTicks = 2048
  maxBandTicks : cfg.maxBandTicks = 2 ^ 16

/-- The limits, and a band that is in range if it was placed. -/
structure Ranged (b : BookBuilder) : Prop where
  baseTick : b.baseTick = 100
  subDollarTick : b.subDollarTick = 1
  maxBandTicks : b.maxBandTicks = 2 ^ 16
  div : b.band.tickDiv = DivBy.ofDivisor (u32 b.band.tickWire)
  placed : b.anchored = true → Placed b ∧ b.band.tickWire ≤ 100
  unplaced : b.anchored = false → b.band.minPrice = 0 ∧ b.band.maxPrice = -1

theorem Ranged.stays (h : Ranged b) (hs : Stays b b') : Ranged b' where
  baseTick := hs.baseTick.trans h.baseTick
  subDollarTick := hs.subDollarTick.trans h.subDollarTick
  maxBandTicks := hs.maxBandTicks.trans h.maxBandTicks
  div := by rw [hs.band]; exact h.div
  placed ha := by
    obtain ⟨⟨hgrid, hhigh, hlevels⟩, htick⟩ := h.placed (hs.anchored.symm.trans ha)
    refine ⟨⟨?_, ?_, ?_⟩, ?_⟩
    all_goals rw [hs.band]
    · exact hgrid
    · exact hhigh
    · simp only [hs.levels]
      exact hlevels
    · exact htick
  unplaced ha := by
    rw [hs.band]
    exact h.unplaced (hs.anchored.symm.trans ha)

theorem Ranged.tick (h : Ranged b) (price : ℤ) : 0 < b.anchorTick price ∧ b.anchorTick price ≤ 100 := by
  have htickFor : 0 < b.tickFor price ∧ b.tickFor price ≤ 100 := by
    unfold tickFor
    rw [h.baseTick, h.subDollarTick]
    split_ifs <;> omega
  unfold anchorTick
  split_ifs with ha
  · have hpos := (h.placed ha).1.grid.tick_pos
    omega
  · exact htickFor

theorem Ranged.span (h : Ranged b) (price : ℤ) (trusted : Bool) :
    0 ≤ b.anchorSpan price trusted ∧ 2 * b.anchorSpan price trusted < 2 ^ 31 := by
  obtain ⟨hpos, hle⟩ := h.tick price
  have hticks : b.anchorTicks price (b.anchorTick price) trusted ≤ 2 ^ 16 := by
    unfold anchorTicks
    simp only [h.maxBandTicks]
    split_ifs <;> omega
  unfold anchorSpan
  refine ⟨mul_nonneg (Int.natCast_nonneg _) hpos.le, ?_⟩
  have hmul : (b.anchorTicks price (b.anchorTick price) trusted : ℤ) * b.anchorTick price ≤ 2 ^ 16 * 100 :=
    mul_le_mul (by exact_mod_cast hticks) hle hpos.le (by norm_num)
  omega

/-- **A placement with room** puts the band in range. -/
theorem Ranged.anchor (h : Ranged b) (hroom : b.Room price trusted) : Ranged (b.anchor price trusted) := by
  obtain ⟨hpos, hle⟩ := h.tick price
  obtain ⟨hspan0, hspan⟩ := h.span price trusted
  obtain ⟨hdown, hup⟩ := hroom
  obtain ⟨ha, -, hcap, -, hbase, hsub⟩ := config_anchor b price trusted
  have hband := band_anchor h.div price trusted
  have hmin : b.anchorMin price trusted = max (price - price.tmod (b.anchorTick price) - b.anchorSpan price trusted) 0 := rfl
  have hmax : b.anchorMax price trusted = b.anchorMin price trusted + 2 * b.anchorSpan price trusted := rfl
  have hdvd : b.anchorTick price ∣ b.anchorMin price trusted := by
    rw [anchorMin]
    rcases max_choice (price - price.tmod (b.anchorTick price) - b.anchorSpan price trusted) 0 with hm | hm
    · rw [hm]
      exact dvd_sub Int.dvd_self_sub_tmod (Dvd.intro_left _ rfl)
    · rw [hm]
      exact dvd_zero _
  refine ⟨hbase.trans h.baseTick, hsub.trans h.subDollarTick, hcap.trans h.maxBandTicks, by rw [hband], fun _ => ?_, fun hno => ?_⟩
  · refine ⟨⟨?_, ?_, b.anchorTicks price (b.anchorTick price) trusted, ?_, fun s => levels_anchor hpos s⟩, ?_⟩
    all_goals rw [hband]
    · exact ⟨hpos, by change b.anchorTick price < _; omega, rfl, by change 0 ≤ b.anchorMin price trusted; omega,
        by change b.anchorMin price trusted < _; omega, hdvd⟩
    · change b.anchorMax price trusted < _
      omega
    · rfl
    · exact hle
  · rw [ha] at hno
    cases hno

/-- Where the event has the band placed, there is room. -/
def RoomAt (b : BookBuilder) (op : Op) : Prop := ∀ price trusted, b.placesAt op = some (price, trusted) → b.Room price trusted

/-- **Step lemma.** -/
theorem Ranged.step (h : Ranged b) {op : Op} (hroom : b.RoomAt op) : Ranged (b.step op) := by
  refine Ranged.stays ?_ (stays_step b op)
  unfold BookBuilder.placed
  cases hp : b.placesAt op with
  | none => exact h
  | some place => exact h.anchor (hroom place.1 place.2 hp)

/-- Every event of the run has room. -/
def AllRoom (b : BookBuilder) : List Op → Prop
  | [] => True
  | op :: ops => b.RoomAt op ∧ (b.step op).AllRoom ops

/-- **Run lemma.** -/
theorem Ranged.run (h : Ranged b) {ops : List Op} (hall : b.AllRoom ops) : Ranged (ops.foldl BookBuilder.step b) := by
  induction ops generalizing b with
  | nil => exact h
  | cons op ops ih => exact ih (h.step hall.1) hall.2

/-- The book of a configuration, before the band is placed at a configured price. -/
def unplaced (cfg : BookConfig) : BookBuilder := ofConfig { cfg with anchorPrice := kNoPrice }

theorem ofConfig_eq (cfg : BookConfig) :
    ofConfig cfg = if cfg.anchorPrice ≠ kNoPrice then (unplaced cfg).anchor cfg.anchorPrice true else unplaced cfg := by
  unfold unplaced ofConfig
  simp only [ne_eq, not_true_eq_false, if_false]

theorem ranged_unplaced {cfg : BookConfig} (h : DefaultBand cfg) : Ranged (unplaced cfg) where
  baseTick := h.tickWire
  subDollarTick := h.subDollarTickWire
  maxBandTicks := h.maxBandTicks
  div := rfl
  placed ha := by cases ha
  unplaced _ := ⟨rfl, rfl⟩

theorem ranged_ofConfig {cfg : BookConfig} (h : DefaultBand cfg)
    (hstart : cfg.anchorPrice = kNoPrice ∨ (unplaced cfg).Room cfg.anchorPrice true) : Ranged (ofConfig cfg) := by
  rw [ofConfig_eq]
  split_ifs with hprice
  · exact (ranged_unplaced h).anchor (hstart.resolve_left hprice)
  · exact ranged_unplaced h

/-! ### What is in range -/

/-- The band lies between prices and has a level at every tick, and no computation with any price overflows or leaves
the levels. -/
structure InRange (b : BookBuilder) : Prop where
  band : b.anchored = true → 0 ≤ b.bandLow ∧ b.bandLow ≤ b.bandHigh ∧ b.bandHigh < 2 ^ 31
  levels : b.anchored = true → ∀ s, ((b.side s).levels : ℤ) = (b.bandHigh - b.bandLow) / b.band.tickWire + 1
  inBand : ∀ price, IsWord price → b.band.inBandWords price = some (b.band.inBand price)
  index : ∀ price, b.band.inBand price = true →
    ∀ s, b.band.indexWords price = some (b.band.index price) ∧ b.band.index price < (b.side s).levels
  priceOf : ∀ s i, i < (b.side s).levels → b.anchored = true → b.band.priceOfWords i = some (b.band.priceOf i)

theorem Ranged.inRange (h : Ranged b) : InRange b := by
  cases ha : b.anchored with
  | true =>
      obtain ⟨hplaced, -⟩ := h.placed ha
      have hmin := hplaced.grid.min_nonneg
      have hhigh := hplaced.high
      have htick := hplaced.grid.tick_pos
      obtain ⟨ticks, hwidth, hlevels⟩ := hplaced.levels
      have hspan : 0 ≤ (ticks : ℤ) * b.band.tickWire := mul_nonneg (Int.natCast_nonneg _) htick.le
      refine ⟨fun _ => ⟨hmin, ?_, hhigh⟩, fun _ s => ?_, fun price _ => hplaced.inBandWords price,
        fun price hin s => hplaced.index (Band.inRange_of_inBand hin) s, fun s i hi _ => hplaced.priceOfWords hi⟩
      · unfold bandLow bandHigh
        omega
      · have hdiff : b.bandHigh - b.bandLow = ((2 * ticks : ℕ) : ℤ) * b.band.tickWire := by
          unfold bandHigh bandLow
          rw [hwidth]
          push_cast
          ring
        rw [hdiff, Int.mul_ediv_cancel _ htick.ne', hlevels]
        push_cast
        ring
  | false =>
      obtain ⟨hmin, hmax⟩ := h.unplaced ha
      have hout : ∀ price, b.band.inRange price = false := fun price => by
        unfold Band.inRange
        rw [hmin, hmax]
        exact decide_eq_false (by omega)
      refine ⟨fun hc => (Bool.noConfusion (ha.symm.trans hc)), fun hc => (Bool.noConfusion (ha.symm.trans hc)), fun price _ => ?_,
        fun price hin => ?_, fun s i _ hc => (Bool.noConfusion (ha.symm.trans hc))⟩
      · unfold Band.inBandWords Band.inBand
        rw [hout]
        rfl
      · have hr := Band.inRange_of_inBand hin
        rw [hout] at hr
        cases hr

/-- **The band stays in range**, over every run in which each placement has room; and from each book of such a run
the arithmetic of a placement fits exactly where there is room for it. -/
theorem band_in_range {cfg : BookConfig} (hcfg : DefaultBand cfg)
    (hstart : cfg.anchorPrice = kNoPrice ∨ (unplaced cfg).Room cfg.anchorPrice true) (ops : List Op)
    (hall : (ofConfig cfg).AllRoom ops) :
    let b := ops.foldl step (ofConfig cfg)
    InRange b ∧
      (∀ price trusted, IsWord price →
        b.anchorWords price trusted =
            (if b.Room price trusted then some (b.anchorMin price trusted, b.anchorMax price trusted) else none) ∧
          (b.Room price trusted → b.Shifts price trusted →
            ∀ s, (b.shiftWords s (b.anchorMin price trusted) (b.anchorMax price trusted)).isSome)) ∧
      (IsWord cfg.anchorPrice → cfg.anchorPrice ≠ kNoPrice →
        (unplaced cfg).anchorWords cfg.anchorPrice true =
          some ((unplaced cfg).anchorMin cfg.anchorPrice true, (unplaced cfg).anchorMax cfg.anchorPrice true)) := by
  have h : Ranged (ops.foldl step (ofConfig cfg)) := (ranged_ofConfig hcfg hstart).run hall
  refine ⟨h.inRange, fun price trusted hword => ⟨?_, fun hroom hshift s => ?_⟩, fun hword hprice => ?_⟩
  · exact anchorWords_eq (h.tick price).1 (h.span price trusted).2 hword
  · obtain ⟨hspan0, hspan⟩ := h.span price trusted
    obtain ⟨hdown, hup⟩ := hroom
    have hmin : (ops.foldl step (ofConfig cfg)).anchorMin price trusted = max _ 0 := rfl
    have hmax : (ops.foldl step (ofConfig cfg)).anchorMax price trusted = (ops.foldl step (ofConfig cfg)).anchorMin price trusted +
        2 * (ops.foldl step (ofConfig cfg)).anchorSpan price trusted := rfl
    exact (h.placed hshift.1).1.shiftWords s (by omega) (by omega) (by omega)
  · have h0 := ranged_unplaced hcfg
    rw [anchorWords_eq (h0.tick _).1 (h0.span _ _).2 hword, if_pos (hstart.resolve_left hprice)]

/-- The default limits. -/
def centConfig : BookConfig := { tickWire := 100, subDollarTickWire := 1 }

instance (b : BookBuilder) (op : Op) : Decidable (b.RoomAt op) :=
  match h : b.placesAt op with
  | none => isTrue fun _ _ hp => by rw [h] at hp; cases hp
  | some (price, trusted) =>
      decidable_of_iff (b.Room price trusted)
        ⟨fun hr p t hp => by rw [h] at hp; cases hp; exact hr, fun hr => hr price trusted h⟩

instance decidableAllRoom (b : BookBuilder) : (ops : List Op) → Decidable (b.AllRoom ops)
  | [] => isTrue trivial
  | op :: ops => @instDecidableAnd _ _ inferInstance (decidableAllRoom (b.step op) ops)

/-- An order at two dollars, and a trade at ninety cents that refines the tick. -/
theorem band_in_range_sample :
    InRange ([.message (.addOrder 1 .buy 30 20000), .message (.tradeNonCross 0 .buy 5 9000 1)].foldl step (ofConfig centConfig)) := by
  have hcfg : DefaultBand centConfig := ⟨rfl, rfl, rfl, rfl⟩
  exact (band_in_range hcfg (.inl rfl) _ (by decide +kernel)).1

/-- A first order at the highest price of the wire, or at the lowest negative one, overflows. -/
theorem band_overflows :
    DefaultBand centConfig ∧
      (ofConfig centConfig).placesAt (.message (.addOrder 1 .buy 30 0x7fffffff)) = some (2147483647, false) ∧
      (ofConfig centConfig).anchorWords 2147483647 false = none ∧
      (ofConfig centConfig).placesAt (.message (.addOrder 1 .buy 30 0x80000000)) = some (-2147483648, false) ∧
      (ofConfig centConfig).anchorWords (-2147483648) false = none := by
  refine ⟨⟨rfl, rfl, rfl, rfl⟩, by decide +kernel, by decide +kernel, by decide +kernel, by decide +kernel⟩

end BookBuilder

end TickToTrade.Dut
