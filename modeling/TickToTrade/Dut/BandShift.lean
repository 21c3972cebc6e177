import TickToTrade.Dut.BookInvariant

/-!
# The shift of the band and the rebuild

Where `anchor` may move the levels instead of counting them again, both come to the same
book (`shift_eq_rebuild`): what either branch leaves is fixed by the orders of the map and
by the new band. `moveLevels` is the move of one array in place, as the program makes it
(`shiftLevels_inPlace`).
-/

namespace TickToTrade.Dut

open Util

/-! ### Bitmaps with the same bits -/

/-- A bitmap is fixed by its bits and its size. -/
theorem LevelBits.WF.ext {b b' : LevelBits} (h : b.WF) (h' : b'.WF) (hsize : b'.l1Size = b.l1Size)
    (hhas : ∀ i, b'.has i = b.has i) : b' = b := by
  have hl0 : b'.l0 = b.l0 := by
    funext w
    refine Nat.eq_of_testBit_eq fun j => ?_
    by_cases hj : j < 64
    · rw [← LevelBits.has_word hj, ← LevelBits.has_word hj, hhas]
    · rw [Bool.eq_false_iff.mpr fun hb => hj (h.l0_lt w j hb), Bool.eq_false_iff.mpr fun hb => hj (h'.l0_lt w j hb)]
  have hl1 : b'.l1 = b.l1 := by
    funext w
    refine Nat.eq_of_testBit_eq fun j => Bool.eq_iff_iff.mpr ?_
    rw [h.l1_word_iff, h'.l1_word_iff, hl0]
  obtain ⟨l0, l1, size⟩ := b
  obtain ⟨l0', l1', size'⟩ := b'
  cases hl0
  cases hl1
  cases hsize
  rfl

/-- The size of the upper table is that of the start. -/
theorem LevelBits.l1Size_foldl_set (p : ℕ → Prop) [DecidablePred p] (l : List ℕ) (b : LevelBits) :
    (l.foldl (fun b i => if p i then b.set i else b) b).l1Size = b.l1Size := by
  induction l generalizing b with
  | nil => rfl
  | cons i l ih =>
      rw [List.foldl_cons, ih]
      split_ifs <;> rfl

/-- The bitmap was made for the levels. -/
def BookSide.Fits (x : BookSide) : Prop := x.bits.l1Size = (LevelBits.reset x.levels).l1Size

theorem BookSide.fits_rebuildBits (x : BookSide) (g : Band) (s : Side) : (x.rebuildBits.recomputeBest g s).Fits := by
  have hfits : x.rebuildBits.Fits := LevelBits.l1Size_foldl_set (x.size · ≠ 0) (List.range x.levels) (LevelBits.reset x.levels)
  unfold BookSide.recomputeBest
  split_ifs
  · cases s <;> exact hfits
  · exact hfits

theorem BookSide.Fits.add {x : BookSide} (h : x.Fits) (g : Band) (price : ℤ) (shares : ℕ) (top : Prop) [Decidable top] :
    (x.add g price shares top).Fits := by
  unfold BookSide.Fits BookSide.add
  simp only
  split_ifs <;> exact h

namespace BookBuilder

variable {b : BookBuilder} {price : ℤ} {trusted : Bool}

/-! ### The choice of `anchor` -/

/-- The tick of the new band. -/
def anchorTick (b : BookBuilder) (price : ℤ) : ℤ :=
  if b.anchored then min (b.tickFor price) b.band.tickWire else b.tickFor price

/-- Half the width of the new band, as a price. -/
def anchorSpan (b : BookBuilder) (price : ℤ) (trusted : Bool) : ℤ :=
  (b.anchorTicks price (b.anchorTick price) trusted : ℤ) * b.anchorTick price

/-- The start of the new band. -/
def anchorMin (b : BookBuilder) (price : ℤ) (trusted : Bool) : ℤ :=
  max (price - price.tmod (b.anchorTick price) - b.anchorSpan price trusted) 0

/-- The end of the new band. -/
def anchorMax (b : BookBuilder) (price : ℤ) (trusted : Bool) : ℤ :=
  b.anchorMin price trusted + 2 * b.anchorSpan price trusted

/-- Does `anchor` take the branch that moves the levels? -/
def Shifts (b : BookBuilder) (price : ℤ) (trusted : Bool) : Prop :=
  b.anchored ∧ b.anchorTick price = b.band.tickWire ∧
    (b.parkedShares = 0 ∨ b.anchorMax price trusted < b.parkedLo ∨ b.anchorMin price trusted > b.parkedHi)

instance (b : BookBuilder) (price : ℤ) (trusted : Bool) : Decidable (b.Shifts price trusted) :=
  inferInstanceAs (Decidable (_ ∧ _))

/-- The counters of `anchor`. -/
def countAnchor (b : BookBuilder) : BookBuilder :=
  { b with topVersion := (b.topVersion + 1) % 2 ^ 32, reanchors := bumpIf b.anchored b.reanchors }

/-- The branch of `anchor` that moves the levels. -/
def anchorShift (b : BookBuilder) (price : ℤ) (trusted : Bool) : BookBuilder :=
  b.countAnchor.shiftBand (b.anchorMin price trusted) (b.anchorMax price trusted)

/-- The branch of `anchor` that counts again, for the same new band. -/
def anchorRebuild (b : BookBuilder) (price : ℤ) (trusted : Bool) : BookBuilder :=
  b.countAnchor.rebuildBand (b.anchorTick price) (b.anchorTicks price (b.anchorTick price) trusted)
    (b.anchorMin price trusted) (b.anchorMax price trusted)

theorem anchor_eq (b : BookBuilder) (price : ℤ) (trusted : Bool) :
    b.anchor price trusted = if b.Shifts price trusted then b.anchorShift price trusted else b.anchorRebuild price trusted := rfl

/-! ### Two books with the same levels -/

/-- The books cover the same prices and show the same at each. -/
structure SameLevels (b b' : BookBuilder) : Prop where
  band : b'.band = b.band
  levels : ∀ s, (b'.side s).levels = (b.side s).levels
  size : ∀ s i, i < (b.side s).levels → (b'.side s).size i = (b.side s).size i
  bits : ∀ s, (b'.side s).bits = (b.side s).bits
  best : ∀ s, (b'.side s).best = (b.side s).best
  parked : b'.parkedShares = b.parkedShares

/-- **Views of the same orders** over the same band are the same levels. -/
theorem Views.sameLevels {b' : BookBuilder} {L : List Resting} (h : b.Views L) (h' : b'.Views L) (hband : b'.band = b.band)
    (hfits : ∀ s, (b.side s).Fits) (hfits' : ∀ s, (b'.side s).Fits) : SameLevels b b' := by
  have hlevels : ∀ s, (b'.side s).levels = (b.side s).levels := fun s => by
    refine eq_of_forall_lt_iff fun i => ?_
    rw [(h.side s).toLevels.levels, (h'.side s).toLevels.levels, hband]
  have hsize : ∀ s i, i < (b.side s).levels → (b'.side s).size i = (b.side s).size i := fun s i hi => by
    rw [(h.side s).toLevels.size i hi, (h'.side s).toLevels.size i (by rwa [hlevels]), hband]
  refine ⟨hband, hlevels, hsize, fun s => ?_, fun s => ?_, by rw [h.parked, h'.parked, hband]⟩
  · have hroom : (b'.side s).bits.l1Size = (b.side s).bits.l1Size := by rw [hfits' s, hfits s, hlevels]
    refine (h.side s).toBits.wf.ext (h'.side s).toBits.wf hroom fun i => Bool.eq_iff_iff.mpr ?_
    rw [(h.side s).toBits.has, (h'.side s).toBits.has, hlevels]
    exact and_congr_right fun hi => by rw [hsize s i hi]
  · have hbest := (h'.side s).best
    rw [hband] at hbest
    exact hbest.unique (h.side s).best

theorem fits_shiftBand (b : BookBuilder) (newMin newMax : ℤ) (s : Side) : ((b.shiftBand newMin newMax).side s).Fits :=
  BookSide.fits_rebuildBits _ _ _

theorem fits_rebuildOne (h : ∀ s, (b.side s).Fits) (r : Resting) (s : Side) : ((b.rebuildOne r).side s).Fits := by
  unfold rebuildOne
  split_ifs
  · exact h s
  · change BookSide.Fits (Function.update b.side r.side _ s)
    by_cases hs : s = r.side
    · subst hs
      rw [Function.update_self]
      exact (h _).add _ _ _ _
    · rw [Function.update_of_ne hs]
      exact h s
  · exact h s

theorem fits_foldl_rebuildOne (l : List (ℕ × Resting)) (h : ∀ s, (b.side s).Fits) (s : Side) :
    ((l.foldl (fun b e => b.rebuildOne e.2) b).side s).Fits := by
  induction l generalizing b with
  | nil => exact h s
  | cons e l ih => exact ih (fits_rebuildOne h e.2)

theorem fits_rebuildBand (b : BookBuilder) (tick : ℤ) (ticks : ℕ) (newMin newMax : ℤ) (s : Side) :
    ((b.rebuildBand tick ticks newMin newMax).side s).Fits := by
  unfold rebuildBand rebuildLevels
  refine fits_foldl_rebuildOne _ ?_ s
  exact fun _ => rfl

theorem band_rebuildBand (b : BookBuilder) (tick : ℤ) (ticks : ℕ) (newMin newMax : ℤ) :
    (b.rebuildBand tick ticks newMin newMax).band = ⟨newMin, newMax, tick, DivBy.ofDivisor (u32 tick)⟩ := by
  unfold rebuildBand rebuildLevels
  exact List.foldlRecOn (motive := fun b : BookBuilder => b.band = ⟨newMin, newMax, tick, DivBy.ofDivisor (u32 tick)⟩) _ _ rfl
    fun c hc (e : ℕ × Resting) _ => (band_rebuildOne c e.2).trans hc

theorem band_shiftLevels (b : BookBuilder) (s : Side) (newMin newMax : ℤ) : (b.shiftLevels s newMin newMax).band = b.band := by
  unfold shiftLevels
  simp only
  refine List.foldlRecOn (motive := fun c : BookBuilder => c.band = b.band) _ _ rfl fun c hc i _ => ?_
  split_ifs <;> exact hc

/-! ### Both branches -/

/-- The new band of a valid book starts on its grid, at a price of the wire. -/
theorem Inv.anchor_grid (h : b.Inv) (hprice : price < 2 ^ 31) (trusted : Bool) :
    0 < b.anchorTick price ∧ b.anchorTick price < 2 ^ 31 ∧ Band.Wire (b.anchorMin price trusted) ∧
      b.anchorTick price ∣ b.anchorMin price trusted ∧ 0 ≤ b.anchorSpan price trusted := by
  obtain ⟨hpos, hlt⟩ := h.ticks.tickFor price
  have htick : 0 < b.anchorTick price ∧ b.anchorTick price < 2 ^ 31 := by
    have hgpos := h.views.grid.tick_pos
    have hglt := h.views.grid.tick_lt
    unfold anchorTick
    split_ifs
    · omega
    · exact ⟨hpos, hlt⟩
  have hspan : 0 ≤ b.anchorSpan price trusted := mul_nonneg (Int.natCast_nonneg _) htick.1.le
  refine ⟨htick.1, htick.2, wire_newMin htick.1 htick.2 hspan hprice, ?_, hspan⟩
  rw [anchorMin]
  rcases max_choice (price - price.tmod (b.anchorTick price) - b.anchorSpan price trusted) 0 with hm | hm
  · rw [hm]
    exact dvd_sub Int.dvd_self_sub_tmod (Dvd.intro_left _ rfl)
  · rw [hm]
    exact dvd_zero _

/-- Where the levels are moved, no order without a level has a price of the new band. -/
theorem Inv.clear_of_shifts (h : b.Inv) (hshift : b.Shifts price trusted) {r : Resting} (hr : r ∈ b.resting)
    (hown : r.own = false) (hoff : b.band.inBand r.price = false) :
    ¬(b.anchorMin price trusted ≤ r.price ∧ r.price ≤ b.anchorMax price trusted) := by
  obtain ⟨-, -, hpark⟩ := hshift
  obtain ⟨e, he, rfl⟩ := List.mem_map.mp hr
  have hle : e.2.shares ≤ offBand b.band b.resting := le_sumOn hr (by simp [hown, hoff])
  have hpos := (h.orders e he).1.1
  have hne : b.parkedShares ≠ 0 := by rw [h.views.parked]; omega
  obtain ⟨-, hlo, hhi⟩ := h.views.bounds hne e.2 hr hown hoff
  rcases hpark with hz | hz | hz
  · exact absurd hz hne
  · omega
  · omega

/-- The band follows a trade out of it. -/
def shiftFeed : List Op := [.message (.addOrder 1 .buy 30 20000), .message (.addOrder 2 .sell 40 20300)]

end BookBuilder

/-! ### The move in place -/

/-- The array grows to a length with zeros. -/
def growTo (n : ℕ) (levels : List ℕ) : List ℕ :=
  if n > levels.length then levels ++ List.replicate (n - levels.length) 0 else levels

/-- `memmove` of so many levels from one index to another. -/
def memmove (dst src len : ℕ) (levels : List ℕ) : List ℕ :=
  levels.take dst ++ (levels.drop src).take len ++ levels.drop (dst + len)

/-- The end of `shiftLevels`: the array grows if it must, the levels that stay are moved, what
lies before and behind them is filled with zeros, and the array is cut. -/
def moveLevels (levels : List ℕ) (newN oi0 nj0 len : ℕ) : List ℕ :=
  let levels := growTo newN levels
  let levels := if len > 0 ∧ nj0 ≠ oi0 then memmove nj0 oi0 len levels else levels
  let levels := List.replicate nj0 0 ++ levels.drop nj0
  let levels := levels.take (nj0 + len) ++ List.replicate (levels.length - (nj0 + len)) 0
  if newN < levels.length then levels.take newN else levels

theorem length_growTo (n : ℕ) (levels : List ℕ) : (growTo n levels).length = max n levels.length := by
  unfold growTo
  split_ifs <;> simp <;> omega

theorem growTo_prefix (n : ℕ) (levels : List ℕ) : levels <+: growTo n levels := by
  unfold growTo
  split_ifs
  · exact List.prefix_append _ _
  · exact List.prefix_rfl

/-- What was moved is where it was moved to, whether the parts overlap or not. -/
theorem memmove_moved {dst src len : ℕ} {levels : List ℕ} (hdst : dst ≤ levels.length) (hsrc : src + len ≤ levels.length) :
    ((memmove dst src len levels).drop dst).take len = (levels.drop src).take len ∧
      (memmove dst src len levels).length = max levels.length (dst + len) := by
  have htake : (levels.take dst).length = dst := by rw [List.length_take]; omega
  have hmid : ((levels.drop src).take len).length = len := by rw [List.length_take, List.length_drop]; omega
  constructor
  · rw [memmove, List.append_assoc, List.drop_left' htake, List.take_left' hmid]
  · simp only [memmove, List.length_append, htake, hmid, List.length_drop]
    omega

theorem moveLevels_eq {levels : List ℕ} {newN oi0 nj0 len : ℕ} (hoi : oi0 + len ≤ levels.length) (hnj : nj0 + len ≤ newN) :
    moveLevels levels newN oi0 nj0 len =
      List.replicate nj0 0 ++ (levels.drop oi0).take len ++ List.replicate (newN - (nj0 + len)) 0 := by
  have hlen := length_growTo newN levels
  have hkept : ((growTo newN levels).drop oi0).take len = (levels.drop oi0).take len := by
    obtain ⟨tail, htail⟩ := growTo_prefix newN levels
    rw [← htail, List.drop_append_of_le_length (by omega), List.take_append_of_le_length (by rw [List.length_drop]; omega)]
  -- the moved array, from where the moved levels start
  obtain ⟨moved, hmoved, hmid, hmlen⟩ : ∃ moved,
      (if len > 0 ∧ nj0 ≠ oi0 then memmove nj0 oi0 len (growTo newN levels) else growTo newN levels) = moved ∧
        (moved.drop nj0).take len = (levels.drop oi0).take len ∧ moved.length = max newN levels.length := by
    refine ⟨_, rfl, ?_⟩
    split_ifs with hmove
    · obtain ⟨hmid, hmlen⟩ := @memmove_moved nj0 oi0 len (growTo newN levels) (by omega) (by omega)
      exact ⟨hmid.trans hkept, by omega⟩
    · refine ⟨?_, hlen⟩
      by_cases hzero : len = 0
      · rw [hzero, List.take_zero, List.take_zero]
      · rw [show nj0 = oi0 by by_contra hne; exact hmove ⟨by omega, hne⟩]
        exact hkept
  have hfront : (List.replicate nj0 0 ++ moved.drop nj0).length = moved.length := by
    rw [List.length_append, List.length_replicate, List.length_drop]
    omega
  have hcut : (List.replicate nj0 0 ++ moved.drop nj0).take (nj0 + len) =
      List.replicate nj0 0 ++ (levels.drop oi0).take len := by
    rw [List.take_append, List.length_replicate, Nat.add_sub_cancel_left, hmid, List.take_of_length_le (by simp)]
  have hkeptlen : (List.replicate nj0 0 ++ (levels.drop oi0).take len).length = nj0 + len := by
    rw [List.length_append, List.length_replicate, List.length_take, List.length_drop]
    omega
  unfold moveLevels
  simp only [hmoved, hfront, hcut]
  split_ifs with hlong
  · rw [List.take_append, hkeptlen, List.take_of_length_le (by omega), List.take_replicate]
    congr 2
    rw [List.length_append, hkeptlen, List.length_replicate] at hlong
    omega
  · rw [List.length_append, hkeptlen, List.length_replicate] at hlong
    congr 2
    omega
/-- The moved array, level by level. -/
theorem map_range_moved (f : ℕ → ℕ) {n newN oi0 nj0 len : ℕ} (hoi : oi0 + len ≤ n) (hnj : nj0 + len ≤ newN) :
    ((List.range newN).map fun j => if nj0 ≤ j ∧ j < nj0 + len then f (oi0 + (j - nj0)) else 0) =
      moveLevels ((List.range n).map f) newN oi0 nj0 len := by
  rw [moveLevels_eq (by simpa using hoi) hnj]
  have hkept : (((List.range n).map f).drop oi0).take len = (List.range len).map fun k => f (oi0 + k) := by
    refine List.ext_getElem (by simp; omega) fun k hk hk' => ?_
    simp
  rw [hkept]
  refine List.ext_getElem (by simp; omega) fun j hj hj' => ?_
  simp only [List.getElem_map, List.getElem_range, List.getElem_append, List.length_append, List.length_replicate,
    List.length_map, List.length_range, List.getElem_replicate]
  split_ifs <;> first | rfl | omega

namespace BookBuilder

variable {b : BookBuilder}

/-- The levels that stay are in the old array and in the new one. -/
theorem kept_bounds {g : Band} (hg : g.OnGrid) {levels : ℕ} (hlev : ∀ i, i < levels ↔ g.priceOf i ≤ g.maxPrice)
    {newMin lo hi : ℤ} (newMax : ℤ) (hmin : Band.Wire newMin) (hdvd : g.tickWire ∣ newMin) (hlo : lo = max g.minPrice newMin)
    (hhi : hi = min g.maxPrice newMax) (hle : lo ≤ hi) :
    g.index lo + (((hi - lo) / g.tickWire).toNat + 1) ≤ levels ∧
      ((lo - newMin) / g.tickWire).toNat + (((hi - lo) / g.tickWire).toNat + 1) ≤ ((newMax - newMin) / g.tickWire).toNat + 1 := by
  have ht := hg.tick_pos
  have hwire : Band.Wire lo := by
    rw [hlo]
    exact ⟨le_max_of_le_left hg.min_nonneg, max_lt hg.min_lt hmin.2⟩
  have hmul := Int.ediv_mul_le (hi - lo) ht.ne'
  have hq : (((hi - lo) / g.tickWire).toNat : ℤ) = (hi - lo) / g.tickWire :=
    Int.toNat_of_nonneg (Int.ediv_nonneg (by omega) ht.le)
  have hgrid : g.tickWire ∣ lo := by
    rw [hlo]
    rcases max_choice g.minPrice newMin with h | h
    · rw [h]; exact hg.aligned
    · rw [h]; exact hdvd
  constructor
  · -- the last level that stays has a price of the old band
    have hlast : g.index lo + ((hi - lo) / g.tickWire).toNat < levels := by
      rw [hlev, Band.priceOf, Nat.cast_add, hg.index_eq hwire (by omega), hq, add_mul,
        Int.ediv_mul_cancel (dvd_sub hgrid hg.aligned)]
      omega
    omega
  · have hstart : (((lo - newMin) / g.tickWire).toNat : ℤ) = (lo - newMin) / g.tickWire :=
      Int.toNat_of_nonneg (Int.ediv_nonneg (by omega) ht.le)
    have hend : (((newMax - newMin) / g.tickWire).toNat : ℤ) = (newMax - newMin) / g.tickWire :=
      Int.toNat_of_nonneg (Int.ediv_nonneg (by omega) ht.le)
    have hsum : (lo - newMin) / g.tickWire + (hi - lo) / g.tickWire ≤ (newMax - newMin) / g.tickWire := by
      rw [Int.le_ediv_iff_mul_le ht, add_mul, Int.ediv_mul_cancel (dvd_sub hgrid hdvd)]
      omega
    omega

/-- **The levels are moved in place**: the array that `shiftLevels` leaves is the old one after
the program's own steps. -/
theorem shiftLevels_inPlace (s : Side) (hg : b.band.OnGrid)
    (hlev : ∀ i, i < (b.side s).levels ↔ b.band.priceOf i ≤ b.band.maxPrice) {newMin newMax : ℤ} (hmin : Band.Wire newMin)
    (hdvd : b.band.tickWire ∣ newMin) :
    let x := b.side s
    let y := (b.shiftLevels s newMin newMax).side s
    let lo := max b.band.minPrice newMin
    let hi := min b.band.maxPrice newMax
    (List.range y.levels).map y.size = moveLevels ((List.range x.levels).map x.size)
      (((newMax - newMin) / b.band.tickWire).toNat + 1) (if lo ≤ hi then b.band.index lo else 0)
      (if lo ≤ hi then ((lo - newMin) / b.band.tickWire).toNat else 0)
      (if lo ≤ hi then ((hi - lo) / b.band.tickWire).toNat + 1 else 0) := by
  simp only
  have hbounds := kept_bounds hg hlev newMax hmin hdvd rfl rfl
  simp only [shiftLevels, Function.update_self]
  by_cases hle : max b.band.minPrice newMin ≤ min b.band.maxPrice newMax
  · obtain ⟨hoi, hnj⟩ := hbounds hle
    simp only [if_pos hle]
    exact map_range_moved _ hoi hnj
  · simp only [if_neg hle]
    exact map_range_moved _ (by omega) (by omega)

end BookBuilder

end TickToTrade.Dut
