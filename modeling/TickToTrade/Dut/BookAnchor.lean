import TickToTrade.Dut.BookViews

/-!
# Moving the band

`anchor` places the band around a price. Where the tick stays and no parked order
would come back in, the levels are moved and those that leave the band are parked;
otherwise everything is counted again from the order map. Both branches show the
same orders as before.

## What is proved

* `Views.shiftBand` — the branch that moves the levels.
* `Views.rebuildBand` — the branch that counts again.
* `Views.anchor` — either way the moved band shows the orders of the map.
-/

namespace TickToTrade.Dut

open Util

/-- An order of the book: some shares, at a price that the wire can carry. -/
def Resting.Ok (r : Resting) : Prop := 0 < r.shares ∧ Band.Wire r.price

namespace BookBuilder

variable {b : BookBuilder} {L : List Resting} {r : Resting}

/-! ### Counting again -/

theorem band_rebuildOne (b : BookBuilder) (r : Resting) : (b.rebuildOne r).band = b.band := by
  unfold BookBuilder.rebuildOne
  split_ifs <;> rfl

/-- One order counted again. -/
theorem Views.rebuildOne (h : b.Views L) (hr : r.Ok) (hL : ∀ r' ∈ L, r'.Ok)
    (hsum : ∀ s p, b.band.inBand p = true → depth (r :: L) s p < 2 ^ 32) : (b.rebuildOne r).Views (r :: L) := by
  unfold BookBuilder.rebuildOne
  split_ifs with ho hb
  · exact h.cons_own ho
  · have hs := hsum r.side r.price hb
    rw [depth_cons_same (by simpa using ho), Function.update_self] at hs
    exact h.addLevel (by simpa using ho) hr.2 hb hr.1 hs
  · exact h.park (by simpa using ho) hr.2 (by simpa using hb) fun r' hr' => (hL r' hr').1

/-- All orders counted again, one after the other. -/
theorem Views.foldl_rebuildOne : ∀ (l : List (ℕ × Resting)) {b : BookBuilder} {L : List Resting},
    b.Views L → (∀ e ∈ l, e.2.Ok) → (∀ r ∈ L, r.Ok) →
    (∀ s p, b.band.inBand p = true → depth ((l.map Prod.snd).reverse ++ L) s p < 2 ^ 32) →
    (l.foldl (fun b e => b.rebuildOne e.2) b).Views ((l.map Prod.snd).reverse ++ L) := by
  intro l
  induction l with
  | nil => intro b L h _ _ _; exact h
  | cons e l ih =>
    intro b L h hl hL hsum
    have happ : ((e :: l).map Prod.snd).reverse ++ L = (l.map Prod.snd).reverse ++ (e.2 :: L) := by
      simp
    rw [happ] at hsum ⊢
    have he := hl e List.mem_cons_self
    refine ih (h.rebuildOne he hL fun s p hp => ?_) (fun x hx => hl x (List.mem_cons_of_mem _ hx))
      (fun r hr => ?_) (by rw [band_rebuildOne]; exact hsum)
    · refine lt_of_le_of_lt ?_ (hsum s p hp)
      rw [depth, depth, sumOn_append]
      exact Nat.le_add_left _ _
    · rcases List.mem_cons.1 hr with rfl | hr
      · exact he
      · exact hL r hr

/-- **Counting again** shows the orders of the map. -/
theorem Views.rebuildBand {tick : ℤ} {ticks : ℕ} {newMin : ℤ}
    (htick : 0 < tick) (htick' : tick < 2 ^ 31) (hmin : Band.Wire newMin) (hdvd : tick ∣ newMin)
    (hok : ∀ e ∈ b.orders.entries, e.2.Ok)
    (hsum : ∀ s p, Band.inBand ⟨newMin, newMin + 2 * (ticks * tick), tick, DivBy.ofDivisor (u32 tick)⟩ p = true →
      depth (b.orders.entries.map Prod.snd) s p < 2 ^ 32) :
    (b.rebuildBand tick ticks newMin (newMin + 2 * (ticks * tick))).Views
      (b.orders.entries.map Prod.snd) := by
  set b0 : BookBuilder := { b with
    band := ⟨newMin, newMin + 2 * (ticks * tick), tick, DivBy.ofDivisor (u32 tick)⟩
    side := fun _ => BookSide.empty (2 * ticks + 1) (2 * ticks + 1)
    anchored := true, parkedShares := 0, parkedLo := kNoPrice, parkedHi := kNoPrice } with hb0
  have hlev : ∀ i, i < 2 * ticks + 1 ↔ b0.band.priceOf i ≤ b0.band.maxPrice := by
    intro i
    change _ ↔ newMin + (i : ℤ) * tick ≤ newMin + 2 * (ticks * tick)
    have h2 : 2 * ((ticks : ℤ) * tick) = ((2 * ticks : ℕ) : ℤ) * tick := by push_cast; ring
    rw [h2, add_le_add_iff_left, mul_le_mul_iff_left₀ htick]
    omega
  have h0 : b0.Views [] :=
    ⟨⟨htick, htick', rfl, hmin.1, hmin.2, hdvd⟩, fun _ => BookSide.shows_empty hlev _ le_rfl, rfl,
      fun hc => absurd rfl hc⟩
  have hrev : ∀ s p, b0.band.inBand p = true → depth ((b.orders.entries.map Prod.snd).reverse ++ []) s p < 2 ^ 32 := by
    intro s p hp
    rw [List.append_nil, depth_perm (List.reverse_perm _)]
    exact hsum s p hp
  have hfold := Views.foldl_rebuildOne b.orders.entries h0 hok (by simp) hrev
  rw [List.append_nil] at hfold
  exact hfold.perm (List.reverse_perm _)

/-! ### Moving the levels -/

/-- The levels that stay are those with a price in the new band, and they move to the
level of the same price. -/
theorem shift_index {g : Band} (hg : g.OnGrid) {newMin : ℤ} (newMax : ℤ) (hmin : Band.Wire newMin)
    (hdvd : g.tickWire ∣ newMin) (lo hi : ℤ) (hlo : lo = max g.minPrice newMin)
    (hhi : hi = min g.maxPrice newMax) (oi0 nj0 len : ℕ)
    (hoi : oi0 = if lo ≤ hi then g.index lo else 0)
    (hnj : nj0 = if lo ≤ hi then ((lo - newMin) / g.tickWire).toNat else 0)
    (hlen : len = if lo ≤ hi then ((hi - lo) / g.tickWire).toNat + 1 else 0) :
    (∀ i, g.priceOf i ≤ g.maxPrice →
      ((i < oi0 ∨ i ≥ oi0 + len) ↔ ¬ (newMin ≤ g.priceOf i ∧ g.priceOf i ≤ newMax))) ∧
    ∀ j : ℕ, newMin + j * g.tickWire ≤ newMax →
      if nj0 ≤ j ∧ j < nj0 + len then
        g.priceOf (oi0 + (j - nj0)) = newMin + j * g.tickWire ∧ newMin + j * g.tickWire ≤ g.maxPrice
      else ¬ (g.minPrice ≤ newMin + j * g.tickWire ∧ newMin + j * g.tickWire ≤ g.maxPrice) := by
  have ht := hg.tick_pos
  by_cases hle : lo ≤ hi
  · rw [if_pos hle] at hoi hnj hlen
    have hlow : Band.Wire lo := by
      rw [hlo]; exact ⟨le_max_of_le_left hg.min_nonneg, max_lt hg.min_lt hmin.2⟩
    have hd1 : g.tickWire ∣ lo - g.minPrice := by
      refine dvd_sub ?_ hg.aligned
      rw [hlo]; rcases max_choice g.minPrice newMin with h | h <;> rw [h]
      · exact hg.aligned
      · exact hdvd
    have hd2 : g.tickWire ∣ lo - newMin := by
      have := dvd_sub (dvd_add hd1 hg.aligned) hdvd
      rwa [sub_add_cancel] at this
    have hminlo : g.minPrice ≤ lo := by rw [hlo]; exact le_max_left _ _
    have hnewlo : newMin ≤ lo := by rw [hlo]; exact le_max_right _ _
    have hidx := hg.index_eq hlow hminlo
    -- the three counts, as exact or floored quotients
    have ha : lo = g.minPrice + oi0 * g.tickWire := by
      rw [hoi, hidx, Int.ediv_mul_cancel hd1]; omega
    have hc : lo = newMin + nj0 * g.tickWire := by
      rw [hnj, Int.toNat_of_nonneg (Int.ediv_nonneg (by omega) ht.le), Int.ediv_mul_cancel hd2]
      omega
    have hk : ∀ m : ℕ, lo + m * g.tickWire ≤ hi ↔ m < len := by
      intro m
      have hq : (((hi - lo) / g.tickWire).toNat : ℤ) = (hi - lo) / g.tickWire :=
        Int.toNat_of_nonneg (Int.ediv_nonneg (by omega) ht.le)
      rw [hlen, Nat.lt_succ_iff, ← Nat.cast_le (α := ℤ), hq, Int.le_ediv_iff_mul_le ht]
      omega
    constructor
    · intro i hi'
      have hmono : lo ≤ g.priceOf i ↔ oi0 ≤ i := by
        rw [ha, Band.priceOf, add_le_add_iff_left, mul_le_mul_iff_left₀ ht]
        exact Nat.cast_le
      have hin : (newMin ≤ g.priceOf i ∧ g.priceOf i ≤ newMax) ↔
          (lo ≤ g.priceOf i ∧ g.priceOf i ≤ hi) := by
        have := hg.min_le_priceOf i
        rw [hlo, hhi]
        omega
      rw [hin, hmono]
      by_cases hoi' : oi0 ≤ i
      · have hp : g.priceOf i = lo + ((i - oi0 : ℕ) : ℤ) * g.tickWire := by
          rw [ha, Band.priceOf, Nat.cast_sub hoi']; ring
        rw [hp, hk]
        omega
      · omega
    · intro j hj
      have hmono : lo ≤ newMin + j * g.tickWire ↔ nj0 ≤ j := by
        rw [hc, add_le_add_iff_left, mul_le_mul_iff_left₀ ht]
        exact Nat.cast_le
      by_cases hnj' : nj0 ≤ j
      · have hp : newMin + (j : ℤ) * g.tickWire = lo + ((j - nj0 : ℕ) : ℤ) * g.tickWire := by
          rw [hc, Nat.cast_sub hnj']; ring
        have hk' := hk (j - nj0)
        have hhi' : newMin + (j : ℤ) * g.tickWire ≤ hi ↔ newMin + (j : ℤ) * g.tickWire ≤ g.maxPrice := by
          rw [hhi]; omega
        rw [← hp, hhi'] at hk'
        split_ifs with hcond
        · refine ⟨?_, hk'.2 (by omega)⟩
          rw [hp, ha, Band.priceOf, Nat.cast_add]; ring
        · intro hcon
          exact hcond ⟨hnj', by have := hk'.1 hcon.2; omega⟩
      · rw [if_neg (by omega)]
        intro hcon
        have : lo ≤ newMin + j * g.tickWire := by
          have h0 : newMin ≤ newMin + (j : ℤ) * g.tickWire := by
            have := mul_nonneg (Int.natCast_nonneg j) ht.le
            omega
          rw [hlo]; exact max_le hcon.1 h0
        exact hnj' (hmono.1 this)
  · rw [if_neg hle] at hoi hnj hlen
    subst hoi hnj hlen
    refine ⟨fun i hi' => ?_, fun j hj => ?_⟩
    · have := hg.min_le_priceOf i
      rw [hlo, hhi] at hle
      refine iff_of_true (by omega) fun hcon => hle ?_
      exact le_trans (max_le this hcon.1) (le_min hi' hcon.2)
    · rw [if_neg (by omega)]
      intro hcon
      have h0 : newMin ≤ newMin + (j : ℤ) * g.tickWire := by
        have := mul_nonneg (Int.natCast_nonneg j) ht.le
        omega
      rw [hlo, hhi] at hle
      exact hle (le_trans (max_le hcon.1 h0) (le_min hcon.2 hj))

/-- Parking the levels that satisfy `out`, one after the other. -/
theorem park_fold (x : BookSide) (out : ℕ → Prop) [DecidablePred out] :
    ∀ (n : ℕ) (b : BookBuilder), (∀ i, i < n → x.size i ≠ 0 → b.band.priceOf i ≠ kNoPrice) →
    let b' := (List.range n).foldl (fun b i =>
      if out i ∧ x.size i ≠ 0 then b.park (b.band.priceOf i) (x.size i) else b) b
    (∃ lo hi, b' = { b with
        parkedShares := b.parkedShares + ∑ i ∈ Finset.range n, if out i then x.size i else 0
        parkedLo := lo, parkedHi := hi }) ∧
      (∀ q, b.Encloses q → b'.Encloses q) ∧
      ∀ i, i < n → out i → x.size i ≠ 0 → b'.Encloses (b.band.priceOf i) := by
  intro n
  induction n with
  | zero =>
    intro b _
    exact ⟨⟨b.parkedLo, b.parkedHi, by simp⟩, fun q hq => hq, fun i hi => absurd hi (by omega)⟩
  | succ n ih =>
    intro b hno
    obtain ⟨⟨lo, hi, heq⟩, hkeep, hnew⟩ := ih b fun i hi => hno i (by omega)
    simp only [List.range_succ, List.foldl_append, List.foldl_cons, List.foldl_nil,
      Finset.sum_range_succ]
    set b' := (List.range n).foldl (fun b i =>
      if out i ∧ x.size i ≠ 0 then b.park (b.band.priceOf i) (x.size i) else b) b with hb'
    have hband : b'.band = b.band := by rw [heq]
    by_cases hc : out n ∧ x.size n ≠ 0
    · rw [if_pos hc]
      have hne : b'.band.priceOf n ≠ kNoPrice := by rw [hband]; exact hno n (by omega) hc.2
      refine ⟨⟨_, _, by rw [if_pos hc.1, heq]; simp only [park, add_assoc]; rfl⟩,
        fun q hq => (hkeep q hq).park hne _, fun i hi hout h0 => ?_⟩
      by_cases hin : i = n
      · subst hin
        rw [← hband]
        exact encloses_park_self hne _
      · exact (hnew i (by omega) hout h0).park hne _
    · rw [if_neg hc]
      refine ⟨⟨lo, hi, ?_⟩, hkeep, fun i hi hout h0 => hnew i ?_ hout h0⟩
      · have hz : (if out n then x.size n else 0) = 0 := by
          split_ifs with hout
          · by_contra h0; exact hc ⟨hout, h0⟩
          · rfl
        rw [hz, add_zero]; exact heq
      · have : i ≠ n := by rintro rfl; exact hc ⟨hout, h0⟩
        omega

/-- The sizes of the levels that satisfy `out` sum up the orders at their prices. -/
theorem sum_levels {g : Band} (off : ℤ → Bool) (hg : g.OnGrid) {s : Side} {n : ℕ}
    (hlev : ∀ i, i < n ↔ g.priceOf i ≤ g.maxPrice) {out : ℕ → Prop} [DecidablePred out]
    (hout : ∀ i, i < n → (out i ↔ off (g.priceOf i) = true)) :
    ∀ {L : List Resting}, (∀ r ∈ L, r.Ok) →
    (∑ i ∈ Finset.range n, if out i then depth L s (g.priceOf i) else 0) =
      sumOn (fun r => !r.own && (r.side = s) && (g.inBand r.price && off r.price)) L := by
  intro L
  induction L with
  | nil => intro _; simp [depth]
  | cons r L ih =>
    intro hok
    have hw := (hok r List.mem_cons_self).2
    rw [sumOn_cons, ← ih fun r' hr' => hok r' (List.mem_cons_of_mem _ hr'), ← add_comm (Finset.sum _ _)]
    have hsplit : ∀ i, (if out i then depth (r :: L) s (g.priceOf i) else 0) =
        (if out i then depth L s (g.priceOf i) else 0) +
          if out i ∧ (!r.own && (r.side = s) && (r.price = g.priceOf i)) = true then r.shares else 0 := by
      intro i
      rw [depth, sumOn_cons, ← depth]
      by_cases ho : out i
      · simp only [ho, if_true, true_and]
        rw [add_comm]
      · simp [ho]
    rw [Finset.sum_congr rfl fun i _ => hsplit i, Finset.sum_add_distrib]
    congr 1
    by_cases hc : (!r.own && (r.side = s) && (g.inBand r.price && off r.price)) = true
    · -- the order is counted at its own level and nowhere else
      rw [if_pos hc]
      simp only [Bool.and_eq_true] at hc
      obtain ⟨hos, hin, hoff⟩ := hc
      have hidx := hg.priceOf_index hw hin
      have hlt : g.index r.price < n := by
        rw [hlev, hidx]; exact ((hg.inBand_iff hw).1 hin).1.2
      rw [Finset.sum_eq_single (g.index r.price)]
      · rw [if_pos]
        refine ⟨(hout _ hlt).2 (by rw [hidx]; exact hoff), ?_⟩
        simp only [Bool.and_eq_true, hidx, decide_true, and_true]
        exact hos
      · intro i _ hne
        rw [if_neg]
        rintro ⟨-, hcon⟩
        simp only [Bool.and_eq_true, decide_eq_true_eq] at hcon
        exact hne (hg.priceOf_inj (by rw [hidx]; exact hcon.2.symm))
      · intro hcon; exact absurd (Finset.mem_range.2 hlt) hcon
    · rw [if_neg hc]
      refine Finset.sum_eq_zero fun i hi => if_neg ?_
      rintro ⟨ho, hcon⟩
      have hi' := Finset.mem_range.1 hi
      simp only [Bool.and_eq_true, decide_eq_true_eq] at hcon
      refine hc ?_
      have hin : g.inBand r.price = true := by
        rw [hcon.2]; exact (hg.inBand_priceOf (hcon.2 ▸ hw)).2 ((hlev i).1 hi')
      have hoff : off r.price = true := by rw [hcon.2]; exact (hout i hi').1 ho
      simp only [Bool.and_eq_true, decide_eq_true_eq]
      exact ⟨hcon.1, hin, hoff⟩

/-- What moving the levels of one side does. -/
theorem shiftLevels_spec {s : Side} {g : Band} (hband : b.band = g) (hg : g.OnGrid)
    (hs : BookSide.Levels g (b.side s) (depth L s)) (hok : ∀ r ∈ L, r.Ok)
    {newMin newMax : ℤ} (hmin : Band.Wire newMin) (hle : newMin ≤ newMax)
    (hdvd : g.tickWire ∣ newMin)
    (hclear : ∀ r ∈ L, r.own = false → g.inBand r.price = false →
      ¬ (newMin ≤ r.price ∧ r.price ≤ newMax)) :
    let b' := b.shiftLevels s newMin newMax
    ∃ x : BookSide, (∃ lo hi, b' = { b with
        side := Function.update b.side s x
        parkedShares := b.parkedShares + sumOn (fun r => !r.own && (r.side = s) &&
          (g.inBand r.price && !(newMin ≤ r.price ∧ r.price ≤ newMax))) L
        parkedLo := lo, parkedHi := hi }) ∧
      BookSide.Levels { g with minPrice := newMin, maxPrice := newMax } x (depth L s) ∧
      x.best = (b.side s).best ∧ (∀ q, b.Encloses q → b'.Encloses q) ∧
      ∀ r ∈ L, r.own = false → r.side = s → g.inBand r.price = true →
        ¬ (newMin ≤ r.price ∧ r.price ≤ newMax) → b'.Encloses r.price := by
  have ht := hg.tick_pos
  subst hband
  obtain ⟨hkept, hmoved⟩ := shift_index hg newMax hmin hdvd _ _ rfl rfl _ _ _ rfl rfl rfl
  simp only [shiftLevels]
  set lo := max b.band.minPrice newMin with hlo
  set hi := min b.band.maxPrice newMax with hhi
  set oi0 := if lo ≤ hi then b.band.index lo else 0 with hoi
  set nj0 := if lo ≤ hi then ((lo - newMin) / b.band.tickWire).toNat else 0 with hnj
  set len := if lo ≤ hi then ((hi - lo) / b.band.tickWire).toNat + 1 else 0 with hlen
  set x := b.side s with hx
  have hout : ∀ i, i < x.levels → ((i < oi0 ∨ i ≥ oi0 + len) ↔
      (!decide (newMin ≤ b.band.priceOf i ∧ b.band.priceOf i ≤ newMax)) = true) := by
    intro i hi'
    rw [hkept i ((hs.levels i).1 hi'), Bool.not_eq_true', decide_eq_false_iff_not]
  obtain ⟨⟨lo', hi', heq⟩, hkeep, hnew⟩ := park_fold x (fun i => i < oi0 ∨ i ≥ oi0 + len) x.levels b
    fun i hi' _ => ne_kNoPrice_of_wire (p := b.band.priceOf i) (hs.wire _ (by
      rw [← hs.size i hi']; assumption))
  have hsum : (∑ i ∈ Finset.range x.levels, if i < oi0 ∨ i ≥ oi0 + len then x.size i else 0) =
      sumOn (fun r => !r.own && (r.side = s) &&
          (b.band.inBand r.price && !(newMin ≤ r.price ∧ r.price ≤ newMax))) L := by
    rw [← sum_levels (fun p => !decide (newMin ≤ p ∧ p ≤ newMax)) hg hs.levels hout hok]
    refine Finset.sum_congr rfl fun i hi' => ?_
    rw [hs.size i (Finset.mem_range.1 hi')]
  rw [hsum] at heq
  set b1 := (List.range x.levels).foldl (fun b i =>
    if (i < oi0 ∨ i ≥ oi0 + len) ∧ x.size i ≠ 0 then b.park (b.band.priceOf i) (x.size i) else b) b
    with hb1
  have hside : b1.side = b.side := by rw [heq]
  refine ⟨{ x with
      levels := ((newMax - newMin) / b.band.tickWire).toNat + 1
      size := fun j => if nj0 ≤ j ∧ j < nj0 + len then x.size (oi0 + (j - nj0)) else 0 },
    ⟨lo', hi', by rw [hside, heq]⟩, ⟨fun i => ?_, fun j hj => ?_, hs.wire⟩, rfl,
    fun q hq => hkeep q hq, fun r hr hown hrs hin hnot => ?_⟩
  · -- the new length
    change i < ((newMax - newMin) / b.band.tickWire).toNat + 1 ↔ newMin + (i : ℤ) * b.band.tickWire ≤ newMax
    rw [Nat.lt_succ_iff, ← Nat.cast_le (α := ℤ),
      Int.toNat_of_nonneg (Int.ediv_nonneg (by omega) ht.le), Int.le_ediv_iff_mul_le ht]
    omega
  · -- a moved level keeps its price; a new level had no orders
    have hj' : newMin + (j : ℤ) * b.band.tickWire ≤ newMax := by
      change j < ((newMax - newMin) / b.band.tickWire).toNat + 1 at hj
      rw [Nat.lt_succ_iff, ← Nat.cast_le (α := ℤ),
        Int.toNat_of_nonneg (Int.ediv_nonneg (by omega) ht.le), Int.le_ediv_iff_mul_le ht] at hj
      omega
    have hm := hmoved j hj'
    change (if nj0 ≤ j ∧ j < nj0 + len then x.size (oi0 + (j - nj0)) else 0) =
      depth L s (newMin + (j : ℤ) * b.band.tickWire)
    split_ifs at hm ⊢ with hc
    · rw [← hm.1, hs.size _ ((hs.levels _).2 (by rw [hm.1]; exact hm.2))]
    · by_contra h0
      obtain ⟨r, hr, hown, -, hp⟩ := exists_of_depth_ne_zero (Ne.symm h0)
      have hnin : b.band.inBand r.price = false := by
        rw [Bool.eq_false_iff]
        intro hin
        have := ((hg.inBand_iff (hok r hr).2).1 hin).1
        rw [hp] at this
        exact hm this
      refine hclear r hr hown hnin ?_
      rw [hp]
      have := mul_nonneg (Int.natCast_nonneg j) ht.le
      exact ⟨by omega, hj'⟩
  · have hidx := hg.priceOf_index (hok r hr).2 hin
    have hlt := hs.index_lt hg (hok r hr).2 hin
    have henc := hnew _ hlt ((hout _ hlt).2 (by
      rw [hidx, Bool.not_eq_true', decide_eq_false_iff_not]; exact hnot)) (by
      rw [hs.size_index hg (hok r hr).2 hin]
      have : r.shares ≤ depth L s r.price := le_sumOn hr (by simp [hown, hrs])
      have := (hok r hr).1
      omega)
    rw [hidx] at henc
    exact henc

/-- **Moving the levels** shows the same orders, when no parked order has a price in
the new band. -/
theorem Views.shiftBand (h : b.Views L) (hok : ∀ r ∈ L, r.Ok) {newMin newMax : ℤ}
    (hmin : Band.Wire newMin) (hle : newMin ≤ newMax) (hdvd : b.band.tickWire ∣ newMin)
    (hclear : ∀ r ∈ L, r.own = false → b.band.inBand r.price = false →
      ¬ (newMin ≤ r.price ∧ r.price ≤ newMax)) : (b.shiftBand newMin newMax).Views L := by
  set g' : Band := { b.band with minPrice := newMin, maxPrice := newMax } with hg'
  have hgrid : g'.OnGrid := ⟨h.grid.tick_pos, h.grid.tick_lt, h.grid.div, hmin.1, hmin.2, hdvd⟩
  obtain ⟨x, ⟨lo, hi, heq⟩, hlx, hbx, hkeep, hnew⟩ :=
    shiftLevels_spec (s := .buy) rfl h.grid (h.side .buy).toLevels hok hmin hle hdvd hclear
  set b1 := b.shiftLevels .buy newMin newMax with hb1
  have hband1 : b1.band = b.band := by rw [heq]
  have hsell1 : b1.side .sell = b.side .sell := by
    rw [heq]
    change Function.update b.side .buy x .sell = b.side .sell
    rw [Function.update_of_ne (by decide)]
  obtain ⟨y, ⟨lo', hi', heq'⟩, hly, hby, hkeep', hnew'⟩ :=
    shiftLevels_spec (b := b1) (s := .sell) hband1 h.grid (by rw [hsell1]; exact (h.side .sell).toLevels)
      hok hmin hle hdvd hclear
  set b2 := b1.shiftLevels .sell newMin newMax with hb2
  have hside : ∀ s, ∃ z, b2.side s = z ∧ BookSide.Levels g' z (depth L s) ∧
      z.best = (b.side s).best := by
    intro s
    cases s with
    | buy =>
      refine ⟨x, ?_, hlx, hbx⟩
      rw [heq']
      change Function.update b1.side .sell y .buy = x
      rw [Function.update_of_ne (by decide), heq]
      change Function.update b.side .buy x .buy = x
      rw [Function.update_self]
    | sell =>
      refine ⟨y, ?_, hly, by rw [hby, hsell1]⟩
      rw [heq']
      change Function.update b1.side .sell y .sell = y
      rw [Function.update_self]
  have hband2 : b2.band = b.band := by rw [heq']; exact hband1
  have hres : b.shiftBand newMin newMax =
      { b2 with band := g', side := fun s => (b2.side s).rebuildBits.recomputeBest g' s } := by
    simp only [BookBuilder.shiftBand, ← hb1, ← hb2, hband2, ← hg']
  have hin' : ∀ r ∈ L, r.own = false → (g'.inBand r.price = true ↔
      b.band.inBand r.price = true ∧ (newMin ≤ r.price ∧ r.price ≤ newMax)) := by
    intro r hr hown
    rw [hgrid.inBand_iff (hok r hr).2]
    constructor
    · rintro ⟨hrange, hd⟩
      refine ⟨?_, hrange⟩
      by_contra hnin
      exact hclear r hr hown (by simpa using hnin) hrange
    · rintro ⟨hin, hrange⟩
      exact ⟨hrange, ((h.grid.inBand_iff (hok r hr).2).1 hin).2⟩
  rw [hres]
  refine ⟨hgrid, fun s => ?_, ?_, fun _ r hr hown hoff => ?_⟩
  · obtain ⟨z, hz, hlz, hbz⟩ := hside s
    change BookSide.Shows g' s ((b2.side s).rebuildBits.recomputeBest g' s) (depth L s)
    rw [hz]
    refine BookSide.shows_recomputeBest ⟨hlz.levels, hlz.size, hlz.wire⟩
      (BookSide.bits_rebuildBits z) hgrid ?_
    change z.best = kNoPrice ∨ Band.Wire z.best ∧
      ∀ p, BookSide.Shown g' (depth L s) p → s.atLeast z.best p
    rw [hbz]
    rcases (h.side s).best with ⟨hno, -⟩ | ⟨hb, hmax⟩
    · exact .inl hno
    · -- what the new band shows, the old band showed
      refine .inr ⟨(h.side s).toLevels.wire _ hb.2, fun p hp => hmax p ⟨?_, hp.2⟩⟩
      obtain ⟨r, hr, hown, -, rfl⟩ := exists_of_depth_ne_zero hp.2
      exact ((hin' r hr hown).1 hp.1).1
  · change b2.parkedShares = offBand g' L
    have hp1 : b1.parkedShares = b.parkedShares + sumOn (fun r => !r.own && (r.side = .buy) &&
        (b.band.inBand r.price && !(newMin ≤ r.price ∧ r.price ≤ newMax))) L := by rw [heq]
    have hp2 : b2.parkedShares = b1.parkedShares + sumOn (fun r => !r.own && (r.side = .sell) &&
        (b.band.inBand r.price && !(newMin ≤ r.price ∧ r.price ≤ newMax))) L := by rw [heq']
    rw [hp2, hp1, h.parked, offBand, offBand]
    symm
    refine sumOn_split fun r hr => ?_
    cases hown : r.own with
    | true => simp
    | false =>
      have hiff := hin' r hr hown
      by_cases hin : b.band.inBand r.price = true
      · by_cases hrange : newMin ≤ r.price ∧ r.price ≤ newMax
        · have : g'.inBand r.price = true := hiff.2 ⟨hin, hrange⟩
          simp [this, hin, hrange]
        · have : g'.inBand r.price = false := by
            rw [Bool.eq_false_iff]; exact fun hc => hrange (hiff.1 hc).2
          cases hs : r.side <;> simp [this, hin, hrange]
      · rw [Bool.not_eq_true] at hin
        have : g'.inBand r.price = false := by
          rw [Bool.eq_false_iff]
          exact fun hc => by rw [(hiff.1 hc).1] at hin; exact absurd hin (by decide)
        simp [this, hin]
  · change b2.Encloses r.price
    change g'.inBand r.price = false at hoff
    by_cases hin : b.band.inBand r.price = true
    · have hrange : ¬ (newMin ≤ r.price ∧ r.price ≤ newMax) := fun hc => by
        rw [(hin' r hr hown).2 ⟨hin, hc⟩] at hoff; exact absurd hoff (by decide)
      cases hs : r.side with
      | buy => exact hkeep' _ (hnew r hr hown hs hin hrange)
      | sell => exact hnew' r hr hown hs hin hrange
    · rw [Bool.not_eq_true] at hin
      refine hkeep' _ (hkeep _ (h.bounds ?_ r hr hown hin))
      have hle' : r.shares ≤ offBand b.band L := le_sumOn hr (by simp [hown, hin])
      have := (hok r hr).1
      rw [h.parked]; omega

/-! ### Placing the band -/

/-- The ticks that a book can have are positive. -/
structure TicksOk (b : BookBuilder) : Prop where
  base_pos : 0 < b.baseTick
  base_lt : b.baseTick < 2 ^ 31
  sub_lt : b.subDollarTick < 2 ^ 31

theorem TicksOk.tickFor (h : b.TicksOk) (p : ℤ) : 0 < b.tickFor p ∧ b.tickFor p < 2 ^ 31 := by
  have := h.base_pos; have := h.base_lt; have := h.sub_lt
  unfold BookBuilder.tickFor
  split_ifs with hc
  · exact ⟨hc.1, by omega⟩
  · omega

/-- The start of a band placed around a price. -/
theorem wire_newMin {price span tick : ℤ} (htick : 0 < tick) (htick' : tick < 2 ^ 31) (hspan : 0 ≤ span)
    (hprice : price < 2 ^ 31) : Band.Wire (max (price - price.tmod tick - span) 0) := by
  refine ⟨le_max_right _ _, max_lt ?_ (by norm_num)⟩
  by_cases h0 : 0 ≤ price
  · have := Int.tmod_nonneg tick h0
    omega
  · have := Int.lt_tmod_of_pos price htick
    omega

/-- **Moving the band** shows the orders of the map. -/
theorem Views.anchor (h : b.Views (b.orders.entries.map Prod.snd)) (ht : b.TicksOk)
    (hok : ∀ e ∈ b.orders.entries, e.2.Ok)
    (hsum : ∀ s p, depth (b.orders.entries.map Prod.snd) s p < 2 ^ 32)
    {price : ℤ} (hprice : price < 2 ^ 31) (trusted : Bool) :
    (b.anchor price trusted).Views (b.orders.entries.map Prod.snd) := by
  set L := b.orders.entries.map Prod.snd with hL
  have hokL : ∀ r ∈ L, r.Ok := by
    intro r hr
    obtain ⟨e, he, rfl⟩ := List.mem_map.1 hr
    exact hok e he
  set b0 : BookBuilder := { b with
    topVersion := (b.topVersion + 1) % 2 ^ 32, reanchors := bumpIf b.anchored b.reanchors } with hb0
  have h0 : b0.Views L := h.congr rfl rfl rfl rfl rfl
  set tick := if b.anchored then min (b.tickFor price) b.band.tickWire else b.tickFor price with htk
  obtain ⟨ht1, ht2⟩ := ht.tickFor price
  have htick : 0 < tick ∧ tick < 2 ^ 31 := by
    have := h.grid.tick_pos; have := h.grid.tick_lt
    rw [htk]; split_ifs <;> omega
  set ticks := b.anchorTicks price tick trusted with htks
  set newMin := max (price - price.tmod tick - ticks * tick) 0 with hmin
  have hspan : 0 ≤ (ticks : ℤ) * tick := mul_nonneg (Int.natCast_nonneg _) htick.1.le
  have hw : Band.Wire newMin := wire_newMin htick.1 htick.2 hspan hprice
  have hdvd : tick ∣ newMin := by
    rw [hmin]
    rcases max_choice (price - price.tmod tick - ticks * tick) 0 with hm | hm <;> rw [hm]
    · exact dvd_sub Int.dvd_self_sub_tmod (Dvd.intro_left _ rfl)
    · exact dvd_zero _
  have hres : b.anchor price trusted =
      if b.anchored ∧ tick = b.band.tickWire ∧ (b.parkedShares = 0 ∨
          newMin + 2 * (ticks * tick) < b.parkedLo ∨ newMin > b.parkedHi)
        then b0.shiftBand newMin (newMin + 2 * (ticks * tick))
        else b0.rebuildBand tick ticks newMin (newMin + 2 * (ticks * tick)) := rfl
  rw [hres]
  split_ifs with hshift
  · obtain ⟨-, hsame, hpark⟩ := hshift
    refine h0.shiftBand hokL hw (by omega) (by rw [show b0.band = b.band from rfl, ← hsame]; exact hdvd) ?_
    intro r hr hown hoff hrange
    have hle : r.shares ≤ offBand b.band L := le_sumOn hr (by
      have hoff' : b.band.inBand r.price = false := hoff
      simp [hown, hoff'])
    have hpos := (hokL r hr).1
    have hne : b.parkedShares ≠ 0 := by rw [h.parked]; omega
    obtain ⟨-, hlo, hhi⟩ := h.bounds hne r hr hown hoff
    rcases hpark with hz | hz | hz
    · exact hne hz
    · omega
    · omega
  · exact Views.rebuildBand (b := b0) htick.1 htick.2 hw hdvd hok fun s p _ => hsum s p

end BookBuilder

end TickToTrade.Dut
