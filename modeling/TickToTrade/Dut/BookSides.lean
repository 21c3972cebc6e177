import Mathlib.Algebra.Order.Ring.Int
import Mathlib.Algebra.Ring.Divisibility.Basic
import TickToTrade.Dut.BookBuilder
import TickToTrade.Lob.BestPrice

/-!
# One side of the book

What the level array, the bitmap and the best price of a side say together: they
show a depth, the shares at each price, over the band. Every operation on a side is
one lemma here, about the depth before and the depth after; nothing in this file
looks at orders.

## What is proved

* `BookSide.Shows.add` and `BookSide.Shows.remove` — adding and removing shares of
  one price keep the view.
* `BookSide.shows_recomputeBest` — over new levels and a rebuilt bitmap, the search
  for the best price completes the view.
-/

namespace TickToTrade.Dut

open Util

/-! ### The band -/

namespace Band

/-- The band is placed on its own tick grid, at prices that the wire can carry. -/
structure OnGrid (g : Band) : Prop where
  tick_pos : 0 < g.tickWire
  tick_lt : g.tickWire < 2 ^ 31
  div : g.tickDiv = DivBy.ofDivisor (u32 g.tickWire)
  min_nonneg : 0 ≤ g.minPrice
  min_lt : g.minPrice < 2 ^ 31
  aligned : g.tickWire ∣ g.minPrice

/-- A price that a 32-bit signed integer holds and that is not negative. -/
def Wire (p : ℤ) : Prop := 0 ≤ p ∧ p < 2 ^ 31

variable {g : Band}

theorem OnGrid.u32_tick (h : g.OnGrid) : (u32 g.tickWire : ℤ) = g.tickWire := by
  have h1 := h.tick_pos; have h2 := h.tick_lt
  rw [u32_of_nonneg h1.le (by omega)]; omega

/-- The multiplication is the division. -/
theorem OnGrid.tickDiv_apply (h : g.OnGrid) {n : ℕ} (hn : n < 2 ^ 32) :
    (g.tickDiv.apply n : ℤ) = n / g.tickWire := by
  have h1 := h.tick_pos; have h2 := h.tick_lt; have h3 := h.u32_tick
  rw [h.div, DivBy.apply_eq_div (by omega) (by omega) hn, Int.natCast_ediv, h3]

/-- The level index of a price at or above the start of the band. -/
theorem OnGrid.index_eq (h : g.OnGrid) {p : ℤ} (hp : Wire p) (hle : g.minPrice ≤ p) :
    (g.index p : ℤ) = (p - g.minPrice) / g.tickWire := by
  have h1 := h.min_nonneg; obtain ⟨-, h2⟩ := hp
  have hoff := u32_of_nonneg (x := p - g.minPrice) (by omega) (by omega)
  rw [index, hoff, h.tickDiv_apply (by omega)]
  congr 1; omega

theorem inRange_iff {p : ℤ} : g.inRange p = true ↔ g.minPrice ≤ p ∧ p ≤ g.maxPrice := by
  simp [inRange]

theorem inRange_of_inBand {p : ℤ} (h : g.inBand p = true) : g.inRange p = true := by
  by_contra hout
  rw [Bool.not_eq_true] at hout
  unfold inBand at h
  rw [hout] at h
  cases h

/-- A price has a level when it is in the range and on the grid. -/
theorem OnGrid.inBand_iff (h : g.OnGrid) {p : ℤ} (hp : Wire p) :
    g.inBand p = true ↔ (g.minPrice ≤ p ∧ p ≤ g.maxPrice) ∧ g.tickWire ∣ p := by
  have h0 := h.min_nonneg; obtain ⟨-, hp2⟩ := hp
  unfold inBand
  by_cases hr : g.inRange p = true
  · have hle := (inRange_iff.1 hr).1
    have hoff := u32_of_nonneg (x := p - g.minPrice) (by omega) (by omega)
    have hoffz : ((u32 (p - g.minPrice) : ℕ) : ℤ) = p - g.minPrice := by rw [hoff]; omega
    have hlt : u32 (p - g.minPrice) < 2 ^ 32 := by rw [hoff]; omega
    have hmul : ((g.tickDiv.apply (u32 (p - g.minPrice)) * u32 g.tickWire : ℕ) : ℤ) =
        (p - g.minPrice) / g.tickWire * g.tickWire := by
      rw [Nat.cast_mul, h.tickDiv_apply hlt, h.u32_tick, hoffz]
    have hle' := Int.ediv_mul_le (p - g.minPrice) h.tick_pos.ne'
    have hmod : g.tickDiv.apply (u32 (p - g.minPrice)) * u32 g.tickWire % 2 ^ 32 =
        g.tickDiv.apply (u32 (p - g.minPrice)) * u32 g.tickWire :=
      Nat.mod_eq_of_lt (by omega)
    simp only [hr, Bool.not_true, Bool.false_eq_true, if_false, decide_eq_true_eq, hmod]
    rw [← Nat.cast_inj (R := ℤ), hmul, hoffz]
    have hdvd : g.tickWire ∣ p ↔ g.tickWire ∣ p - g.minPrice := (dvd_sub_left h.aligned).symm
    rw [inRange_iff] at hr
    rw [and_iff_right hr, hdvd]
    constructor
    · intro heq; exact ⟨_, by rw [mul_comm]; exact heq⟩
    · intro hd; exact (Int.ediv_mul_cancel hd).symm
  · simp only [hr, Bool.not_false, if_true, Bool.false_eq_true, false_iff, not_and]
    rw [inRange_iff] at hr
    exact fun hc => absurd hc hr

/-- The level of a price of the band is at that price. -/
theorem OnGrid.priceOf_index (h : g.OnGrid) {p : ℤ} (hp : Wire p) (hb : g.inBand p = true) :
    g.priceOf (g.index p) = p := by
  obtain ⟨⟨hle, -⟩, hd⟩ := (h.inBand_iff hp).1 hb
  rw [priceOf, h.index_eq hp hle, Int.ediv_mul_cancel ((dvd_sub_left h.aligned).2 hd)]
  omega

/-- Levels and their prices come in the same order. -/
theorem OnGrid.priceOf_le_iff (h : g.OnGrid) {i j : ℕ} :
    g.priceOf i ≤ g.priceOf j ↔ i ≤ j := by
  have := h.tick_pos
  unfold priceOf
  constructor
  · intro hle
    have : (i : ℤ) * g.tickWire ≤ j * g.tickWire := by omega
    exact_mod_cast le_of_mul_le_mul_right this h.tick_pos
  · intro hle
    have : (i : ℤ) * g.tickWire ≤ j * g.tickWire :=
      mul_le_mul_of_nonneg_right (by exact_mod_cast hle) h.tick_pos.le
    omega

theorem OnGrid.priceOf_inj (h : g.OnGrid) {i j : ℕ} (hij : g.priceOf i = g.priceOf j) : i = j :=
  le_antisymm (h.priceOf_le_iff.1 hij.le) (h.priceOf_le_iff.1 hij.ge)

theorem OnGrid.min_le_priceOf (h : g.OnGrid) (i : ℕ) : g.minPrice ≤ g.priceOf i := by
  have := mul_nonneg (Int.natCast_nonneg i) h.tick_pos.le
  unfold priceOf; omega

theorem OnGrid.dvd_priceOf (h : g.OnGrid) (i : ℕ) : g.tickWire ∣ g.priceOf i :=
  dvd_add h.aligned (Dvd.intro_left _ rfl)

/-- A level of the band has a price of the band. -/
theorem OnGrid.inBand_priceOf (h : g.OnGrid) {i : ℕ} (hp : Wire (g.priceOf i)) :
    g.inBand (g.priceOf i) = true ↔ g.priceOf i ≤ g.maxPrice := by
  rw [h.inBand_iff hp]
  exact ⟨fun hc => hc.1.2, fun hc => ⟨⟨h.min_le_priceOf i, hc⟩, h.dvd_priceOf i⟩⟩

end Band

/-! ### What a side shows -/

namespace BookSide

variable {g : Band} {s : Side} {x : BookSide} {D : ℤ → ℕ}

/-- The prices of the band that have shares. -/
def Shown (g : Band) (D : ℤ → ℕ) (p : ℤ) : Prop := g.inBand p = true ∧ D p ≠ 0

/-- The level array and the bitmap show the depth `D` over the band. -/
structure Levels (g : Band) (x : BookSide) (D : ℤ → ℕ) : Prop where
  /-- The array covers the band. -/
  levels : ∀ i, i < x.levels ↔ g.priceOf i ≤ g.maxPrice
  /-- Each level holds the depth at its price. -/
  size : ∀ i, i < x.levels → x.size i = D (g.priceOf i)
  /-- Only prices that the wire can carry have depth. -/
  wire : ∀ p, D p ≠ 0 → Band.Wire p

/-- The bitmap has a bit for exactly the levels with shares. -/
structure Bits (x : BookSide) : Prop where
  wf : x.bits.WF
  /-- The bitmap has room for every level. -/
  room : ∀ i, i < x.levels → i / 64 / 64 < x.bits.l1Size
  has : ∀ i, x.bits.has i = true ↔ i < x.levels ∧ x.size i ≠ 0

/-- The three views of a side agree on the depth. -/
structure Shows (g : Band) (s : Side) (x : BookSide) (D : ℤ → ℕ) : Prop where
  toLevels : Levels g x D
  toBits : Bits x
  best : IsBest s (Shown g D) x.best

theorem Shown.wire (h : Levels g x D) {p : ℤ} (hp : Shown g D p) : Band.Wire p := h.wire p hp.2

theorem not_shown_kNoPrice (h : Levels g x D) : ¬ Shown g D kNoPrice := by
  intro hp
  have := (h.wire _ hp.2).1
  unfold kNoPrice at this
  omega

/-- The level of a price of the band is in the array. -/
theorem Levels.index_lt (h : Levels g x D) (hg : g.OnGrid) {p : ℤ} (hp : Band.Wire p)
    (hb : g.inBand p = true) : g.index p < x.levels := by
  rw [h.levels, hg.priceOf_index hp hb]
  exact ((hg.inBand_iff hp).1 hb).1.2

/-- The size at a price of the band is the depth there. -/
theorem Levels.size_index (h : Levels g x D) (hg : g.OnGrid) {p : ℤ} (hp : Band.Wire p)
    (hb : g.inBand p = true) : x.size (g.index p) = D p := by
  rw [h.size _ (h.index_lt hg hp hb), hg.priceOf_index hp hb]

/-- A bit is set exactly at the prices that show shares. -/
theorem has_iff_shown (hl : Levels g x D) (hb : Bits x) (hg : g.OnGrid) (i : ℕ) :
    x.bits.has i = true ↔ Shown g D (g.priceOf i) := by
  rw [hb.has]
  constructor
  · rintro ⟨hi, h0⟩
    rw [hl.size i hi] at h0
    exact ⟨(hg.inBand_priceOf (hl.wire _ h0)).2 ((hl.levels i).1 hi), h0⟩
  · rintro ⟨hin, h0⟩
    have hi := (hl.levels i).2 ((hg.inBand_priceOf (hl.wire _ h0)).1 hin)
    exact ⟨hi, by rw [hl.size i hi]; exact h0⟩

/-- A price that shows shares is the price of its level. -/
theorem Shown.priceOf_index (hl : Levels g x D) (hg : g.OnGrid) {p : ℤ} (hp : Shown g D p) :
    g.priceOf (g.index p) = p := hg.priceOf_index (hp.wire hl) hp.1

/-- A search down from a level at or above every shown price finds the best bid. -/
theorem isBest_prev (hl : Levels g x D) (hb : Bits x) (hg : g.OnGrid) {i : ℕ}
    (htop : ∀ p, Shown g D p → g.index p ≤ i) :
    IsBest .buy (Shown g D) (g.priceOf? (x.bits.prev i)) := by
  have hspec := LevelBits.prev_spec hb.wf i
  cases hp : x.bits.prev i with
  | none =>
    rw [hp] at hspec
    refine IsBest.none fun p hsp => ?_
    have hno := hspec _ (htop p hsp)
    have hhas := (has_iff_shown hl hb hg (g.index p)).2 (by rwa [hsp.priceOf_index hl hg])
    rw [hhas] at hno
    exact Bool.noConfusion hno
  | some j =>
    rw [hp] at hspec
    obtain ⟨-, hj, hgap⟩ := hspec
    refine .inr ⟨(has_iff_shown hl hb hg j).1 hj, fun p hsp => ?_⟩
    have hidx := hsp.priceOf_index hl hg
    change p ≤ g.priceOf j
    rw [← hidx, hg.priceOf_le_iff]
    by_contra hlt
    have hno := hgap _ (by omega) (htop p hsp)
    rw [(has_iff_shown hl hb hg _).2 (by rwa [hidx])] at hno
    exact Bool.noConfusion hno

/-- A search up from a level at or below every shown price finds the best offer. -/
theorem isBest_next (hl : Levels g x D) (hb : Bits x) (hg : g.OnGrid) {i : ℕ}
    (hbot : ∀ p, Shown g D p → i ≤ g.index p) :
    IsBest .sell (Shown g D) (g.priceOf? (x.bits.next i)) := by
  have hspec := LevelBits.next_spec hb.wf i
  cases hp : x.bits.next i with
  | none =>
    rw [hp] at hspec
    refine IsBest.none fun p hsp => ?_
    have hno := hspec _ (hbot p hsp)
    rw [(has_iff_shown hl hb hg _).2 (by rwa [hsp.priceOf_index hl hg])] at hno
    exact Bool.noConfusion hno
  | some j =>
    rw [hp] at hspec
    obtain ⟨-, hj, hgap⟩ := hspec
    refine .inr ⟨(has_iff_shown hl hb hg j).1 hj, fun p hsp => ?_⟩
    have hidx := hsp.priceOf_index hl hg
    change g.priceOf j ≤ p
    rw [← hidx, hg.priceOf_le_iff]
    by_contra hlt
    have hno := hgap _ (hbot p hsp) (by omega)
    rw [(has_iff_shown hl hb hg _).2 (by rwa [hidx])] at hno
    exact Bool.noConfusion hno

/-- Only the depth over the band is shown. -/
theorem Shows.congr_depth {D' : ℤ → ℕ} (h : Shows g s x D) (hg : g.OnGrid)
    (hin : ∀ p, g.inBand p = true → D' p = D p) (hw : ∀ p, D' p ≠ 0 → Band.Wire p) :
    Shows g s x D' := by
  refine ⟨⟨h.toLevels.levels, fun i hi => ?_, hw⟩, h.toBits,
    h.best.congr fun p => and_congr_right fun hp => by rw [hin p hp]⟩
  rw [h.toLevels.size i hi]
  by_cases hwi : Band.Wire (g.priceOf i)
  · exact (hin _ ((hg.inBand_priceOf hwi).2 ((h.toLevels.levels i).1 hi))).symm
  · have h0 : D (g.priceOf i) = 0 := by
      by_contra hc; exact hwi (h.toLevels.wire _ hc)
    have h0' : D' (g.priceOf i) = 0 := by
      by_contra hc; exact hwi (hw _ hc)
    rw [h0, h0']

/-! ### Adding and removing shares -/

/-- The depth after the shares at one price became `q`. -/
theorem shown_update {p q : ℤ} {n : ℕ} :
    Shown g (Function.update D p n) q ↔ if q = p then g.inBand p = true ∧ n ≠ 0 else Shown g D q := by
  unfold Shown
  by_cases hqp : q = p
  · subst hqp; simp
  · simp [hqp]

/-- Writing one level changes the depth at its price. -/
theorem Levels.update (h : Levels g x D) (hg : g.OnGrid) {p : ℤ} (hp : Band.Wire p)
    (hb : g.inBand p = true) (n : ℕ) (bits : LevelBits) (best : ℤ) :
    Levels g { x with size := Function.update x.size (g.index p) n, bits := bits, best := best }
      (Function.update D p n) where
  levels := h.levels
  size i hi := by
    have hidx := hg.priceOf_index hp hb
    by_cases hip : i = g.index p
    · subst hip
      simp [hidx]
    · have hne : g.priceOf i ≠ p := fun hc => hip (hg.priceOf_inj (by rw [hc, hidx]))
      simp only [Function.update_of_ne hip, Function.update_of_ne hne]
      exact h.size i hi
  wire q hq := by
    by_cases hqp : q = p
    · rw [hqp]; exact hp
    · rw [Function.update_of_ne hqp] at hq
      exact h.wire q hq

/-- **Adding shares** to a level shows the depth with those shares. -/
theorem Shows.add (h : Shows g s x D) (hg : g.OnGrid) {p : ℤ} {q : ℕ} (hp : Band.Wire p)
    (hb : g.inBand p = true) (hq : 0 < q) (hsum : D p + q < 2 ^ 32) :
    Shows g s (x.add g p q (x.best = kNoPrice ∨ s.atLeast p x.best))
      (Function.update D p (D p + q)) := by
  have hi := h.toLevels.index_lt hg hp hb
  have hsize := h.toLevels.size_index hg hp hb
  have hval : (x.size (g.index p) + q) % 2 ^ 32 = D p + q := by
    rw [hsize]; exact Nat.mod_eq_of_lt hsum
  have hadd : x.add g p q (x.best = kNoPrice ∨ s.atLeast p x.best) =
      { x with
        size := Function.update x.size (g.index p) (D p + q)
        bits := if x.size (g.index p) = 0 then x.bits.set (g.index p) else x.bits
        best := if x.best = kNoPrice ∨ s.atLeast p x.best then p else x.best } := by
    simp only [BookSide.add, hval]
  rw [hadd]
  refine ⟨h.toLevels.update hg hp hb _ _ _, ⟨?_, ?_, fun i => ?_⟩, ?_⟩
  · simp only
    split_ifs
    · exact LevelBits.wf_set h.toBits.wf (h.toBits.room _ hi)
    · exact h.toBits.wf
  · intro i hil
    simp only
    split_ifs
    · exact h.toBits.room i hil
    · exact h.toBits.room i hil
  · have hhas : (if x.size (g.index p) = 0 then x.bits.set (g.index p) else x.bits).has i = true ↔
        i = g.index p ∨ x.bits.has i = true := by
      split_ifs with h0
      · simp [LevelBits.has_set]
      · refine (or_iff_right_of_imp ?_).symm
        rintro rfl
        exact (h.toBits.has _).2 ⟨hi, h0⟩
    simp only [hhas, h.toBits.has]
    by_cases hip : i = g.index p
    · subst hip
      simp only [true_or, Function.update_self, true_iff]
      exact ⟨hi, by omega⟩
    · simp only [hip, false_or, Function.update_of_ne hip]
  · refine h.best.insert (fun r => ?_) (not_shown_kNoPrice h.toLevels)
    rw [shown_update]
    split_ifs with hrp
    · exact iff_of_true ⟨hb, by omega⟩ (.inr hrp)
    · simp [hrp]

/-- A new search from the best level, emptied, finds the best price that is left. -/
theorem isBest_rescan (hl : Levels g x D) (hb : Bits x) (hg : g.OnGrid)
    (hw : Band.Wire x.best) (hin : g.inBand x.best = true)
    (hout : ∀ p, Shown g D p → s.atLeast x.best p) :
    IsBest s (Shown g D) (x.rescanBest g s).best := by
  have hbest := hg.priceOf_index hw hin
  cases s with
  | buy =>
    refine isBest_prev hl hb hg fun p hp => ?_
    rw [← hg.priceOf_le_iff, hp.priceOf_index hl hg, hbest]
    exact hout p hp
  | sell =>
    refine isBest_next hl hb hg fun p hp => ?_
    rw [← hg.priceOf_le_iff, hp.priceOf_index hl hg, hbest]
    exact hout p hp

/-- **Removing shares** from a level shows the depth without them. -/
theorem Shows.remove (h : Shows g s x D) (hg : g.OnGrid) {p : ℤ} (hp : Band.Wire p)
    (hb : g.inBand p = true) (q : ℕ) :
    Shows g s (x.remove g s p q) (Function.update D p (D p - q)) := by
  have hi := h.toLevels.index_lt hg hp hb
  have hsize := h.toLevels.size_index hg hp hb
  have hleft : (if q ≥ x.size (g.index p) then 0 else x.size (g.index p) - q) = D p - q := by
    rw [hsize]; split_ifs <;> omega
  by_cases h0 : D p - q = 0
  · -- the level empties: its bit goes, and the best price moves if it was there
    set y : BookSide := { x with
      size := Function.update x.size (g.index p) (D p - q)
      bits := x.bits.clear (g.index p) } with hy
    have hly : Levels g y (Function.update D p (D p - q)) := h.toLevels.update hg hp hb _ _ x.best
    have hby : Bits y := by
      refine ⟨LevelBits.wf_clear h.toBits.wf _, h.toBits.room, fun i => ?_⟩
      rw [hy, LevelBits.has_clear h.toBits.wf, Bool.and_eq_true, decide_eq_true_eq, h.toBits.has]
      by_cases hip : i = g.index p
      · subst hip; simp [h0]
      · simp [hip]
    have hshown : ∀ r, Shown g (Function.update D p (D p - q)) r ↔ Shown g D r ∧ r ≠ p := by
      intro r
      rw [shown_update]
      split_ifs with hrp
      · simp [hrp, h0]
      · simp [hrp]
    have hres : x.remove g s p q = if p = x.best then y.rescanBest g s else y := by
      simp only [BookSide.remove, hleft, h0, if_true, hy]
    rw [hres]
    by_cases hpb : p = x.best
    · rw [if_pos hpb]
      have hbest := isBest_rescan (s := s) hly hby hg (by rw [hy]; exact hpb ▸ hp)
        (by rw [hy]; exact hpb ▸ hb) (fun r hr => by
          have hr' := ((hshown r).1 hr).1
          rcases h.best with ⟨hno, hemp⟩ | ⟨-, hmax⟩
          · exact absurd hr' (hemp r)
          · exact hmax r hr')
      cases s <;> exact ⟨⟨hly.levels, hly.size, hly.wire⟩, ⟨hby.wf, hby.room, hby.has⟩, hbest⟩
    · rw [if_neg hpb]
      exact ⟨hly, hby, h.best.remove_of_ne hshown fun hc => hpb hc.symm⟩
  · have hres : x.remove g s p q =
        { x with size := Function.update x.size (g.index p) (D p - q) } := by
      simp only [BookSide.remove, hleft, h0, if_false]
    rw [hres]
    have h0' : D p ≠ 0 := by omega
    refine ⟨h.toLevels.update hg hp hb _ _ _, ⟨h.toBits.wf, h.toBits.room, fun i => ?_⟩, ?_⟩
    · simp only [h.toBits.has]
      by_cases hip : i = g.index p
      · subst hip; simp [hsize, h0, h0']
      · simp [hip]
    · refine h.best.congr fun r => ?_
      rw [shown_update]
      split_ifs with hrp
      · subst hrp; exact and_congr_right fun _ => by simp [h0, h0']
      · rfl

/-! ### Starting again -/

/-- Empty levels show no depth. -/
theorem shows_empty {n : ℕ} (hlev : ∀ i, i < n ↔ g.priceOf i ≤ g.maxPrice) (m : ℕ) (hm : n ≤ m) :
    Shows g s (BookSide.empty n m) (fun _ => 0) := by
  refine ⟨⟨hlev, fun _ _ => rfl, fun p hp => absurd rfl hp⟩, ⟨LevelBits.wf_reset m, ?_, ?_⟩,
    IsBest.none fun p hp => hp.2 rfl⟩
  · intro i hi
    simp only [BookSide.empty, LevelBits.reset] at hi ⊢
    split_ifs <;> omega
  · intro i
    simp [BookSide.empty]

/-- Setting the bits of the levels with shares, level by level. -/
theorem bits_fold (x : BookSide) : ∀ (n : ℕ) (bits : LevelBits), bits.WF →
    (∀ i, i < n → i / 64 / 64 < bits.l1Size) → (∀ i, bits.has i = false) →
    let r := (List.range n).foldl (fun bits i => if x.size i ≠ 0 then bits.set i else bits) bits
    r.WF ∧ r.l1Size = bits.l1Size ∧ ∀ i, r.has i = true ↔ i < n ∧ x.size i ≠ 0 := by
  intro n
  induction n with
  | zero => intro bits hwf _ hno; exact ⟨hwf, rfl, fun i => by simp [hno i]⟩
  | succ n ih =>
    intro bits hwf hroom hno
    obtain ⟨hwf', hl1, hhas⟩ := ih bits hwf (fun i hi => hroom i (by omega)) hno
    simp only [List.range_succ, List.foldl_append, List.foldl_cons, List.foldl_nil]
    split_ifs with h0
    · refine ⟨LevelBits.wf_set hwf' (by rw [hl1]; exact hroom n (by omega)), hl1, fun i => ?_⟩
      rw [LevelBits.has_set, Bool.or_eq_true, decide_eq_true_eq, hhas]
      constructor
      · rintro (rfl | ⟨hi, hs⟩)
        · exact ⟨by omega, h0⟩
        · exact ⟨by omega, hs⟩
      · rintro ⟨hi, hs⟩
        by_cases hin : i = n
        · exact .inl hin
        · exact .inr ⟨by omega, hs⟩
    · refine ⟨hwf', hl1, fun i => ?_⟩
      rw [hhas]
      refine and_congr_left fun hs => ⟨fun hi => by omega, fun hi => ?_⟩
      have : i ≠ n := by rintro rfl; exact h0 hs
      omega

theorem bits_rebuildBits (x : BookSide) : Bits x.rebuildBits := by
  have h := bits_fold x x.levels (LevelBits.reset x.levels) (LevelBits.wf_reset _)
    (fun i hi => by simp only [LevelBits.reset]; split_ifs <;> omega) (fun i => by simp)
  refine ⟨h.1, fun i hi => ?_, h.2.2⟩
  have hl1 : x.rebuildBits.bits.l1Size = (LevelBits.reset x.levels).l1Size := h.2.1
  rw [hl1]
  change i < x.levels at hi
  simp only [LevelBits.reset]
  split_ifs <;> omega

/-- **Searching the best price again** restores the view: the old one is kept only
where it is still the best. -/
theorem shows_recomputeBest (hl : Levels g x D) (hb : Bits x) (hg : g.OnGrid)
    (hbest : x.best = kNoPrice ∨ Band.Wire x.best ∧ ∀ p, Shown g D p → s.atLeast x.best p) :
    Shows g s (x.recomputeBest g s) D := by
  by_cases hc : x.best = kNoPrice ∨ (!g.inBand x.best) = true ∨ x.size (g.index x.best) = 0
  · have htop : ∀ p, Shown g D p → g.index p ≤ x.levels - 1 := by
      intro p hp
      have := hl.index_lt hg (hp.wire hl) hp.1
      omega
    cases s with
    | buy =>
      rw [recomputeBest, if_pos hc]
      exact ⟨⟨hl.levels, hl.size, hl.wire⟩, ⟨hb.wf, hb.room, hb.has⟩, isBest_prev hl hb hg htop⟩
    | sell =>
      rw [recomputeBest, if_pos hc]
      exact ⟨⟨hl.levels, hl.size, hl.wire⟩, ⟨hb.wf, hb.room, hb.has⟩,
        isBest_next hl hb hg fun _ _ => Nat.zero_le _⟩
  · have hkeep : x.recomputeBest g s = x := if_neg hc
    rw [hkeep]
    push Not at hc
    obtain ⟨hne, hin, h0⟩ := hc
    obtain ⟨hw, hmax⟩ := hbest.resolve_left hne
    have hin' : g.inBand x.best = true := by simpa using hin
    exact ⟨hl, hb, .inr ⟨⟨hin', by rwa [← hl.size_index hg hw hin']⟩, hmax⟩⟩

end BookSide

end TickToTrade.Dut
