import TickToTrade.Dut.BandShift

/-!
# The sums alone

Adding and removing shares, and moving the levels, read and write the sums of the book. They do
not look at the order map, at the count of own orders, at the version of the top or at the
session that the book is stamped with (`OnSums`). So two books with the same sums have the same
sums afterwards (`OnSums.beside`). Only the branch of `anchor` that counts again reads the map.
-/

namespace TickToTrade.Dut.BookBuilder

open Util

variable {b b' b'' : BookBuilder} {F G : BookBuilder → BookBuilder}

/-- The same sums in another frame. -/
def reframe (b : BookBuilder) (version epoch own : ℕ) (orders : FlatHashMap mix Resting) : BookBuilder :=
  { b with topVersion := version, epoch := epoch, own := own, orders := orders }

/-- The operation works on the sums alone: whatever the frame, it does the same to the sums and
leaves the frame as it is, but for the version. -/
def OnSums (F : BookBuilder → BookBuilder) : Prop :=
  ∀ (b : BookBuilder) (version epoch own : ℕ) (orders : FlatHashMap mix Resting),
    ∃ version', F (b.reframe version epoch own orders) = (F b).reframe version' epoch own orders

/-- The second book has the sums of the first one, of the same session. -/
def Beside (b b' : BookBuilder) : Prop := ∃ version own orders, b' = b.reframe version b.epoch own orders

namespace Beside

theorem refl (b : BookBuilder) : Beside b b := ⟨b.topVersion, b.own, b.orders, rfl⟩

theorem symm (h : Beside b b') : Beside b' b := by
  obtain ⟨version, own, orders, rfl⟩ := h
  exact ⟨b.topVersion, b.own, b.orders, rfl⟩

theorem trans (h : Beside b b') (h' : Beside b' b'') : Beside b b'' := by
  obtain ⟨version, own, orders, rfl⟩ := h
  obtain ⟨version', own', orders', rfl⟩ := h'
  exact ⟨version', own', orders', rfl⟩

end Beside

namespace OnSums

theorem id : OnSums fun b => b := fun _ version _ _ _ => ⟨version, rfl⟩

theorem comp (hF : OnSums F) (hG : OnSums G) : OnSums fun b => G (F b) := by
  intro b version epoch own orders
  obtain ⟨version', hF'⟩ := hF b version epoch own orders
  obtain ⟨version'', hG'⟩ := hG (F b) version' epoch own orders
  exact ⟨version'', by beta_reduce; rw [hF', hG']⟩

theorem ite (hF : OnSums F) (hG : OnSums G) (c : Prop) [Decidable c] : OnSums fun b => if c then F b else G b := by
  split_ifs
  · exact hF
  · exact hG

theorem foldl {α : Type} {f : BookBuilder → α → BookBuilder} (hf : ∀ a, OnSums fun b => f b a) (l : List α) :
    OnSums fun b => l.foldl f b := by
  induction l with
  | nil => exact id
  | cons a l ih => exact (hf a).comp ih

/-- The frame is left as it is. -/
theorem frame (hF : OnSums F) (b : BookBuilder) :
    (F b).epoch = b.epoch ∧ (F b).own = b.own ∧ (F b).orders = b.orders := by
  obtain ⟨version, heq⟩ := hF b b.topVersion b.epoch b.own b.orders
  change F b = _ at heq
  rw [heq]
  exact ⟨rfl, rfl, rfl⟩

theorem beside (hF : OnSums F) (h : Beside b b') : Beside (F b) (F b') := by
  obtain ⟨version, own, orders, rfl⟩ := h
  obtain ⟨version', heq⟩ := hF b version b.epoch own orders
  rw [heq, ← (hF.frame b).1]
  exact ⟨version', own, orders, rfl⟩

end OnSums

/-! ### The sums -/

theorem onSums_unpark (shares : ℕ) : OnSums fun b => b.unpark shares := by
  intro b version epoch own orders
  refine ⟨version, ?_⟩
  unfold unpark reframe
  simp only
  split_ifs <;> rfl

theorem onSums_addShares (s : Side) (price : ℤ) (shares : ℕ) : OnSums fun b => b.addShares s price shares := by
  intro b version epoch own orders
  beta_reduce
  unfold addShares
  rw [show (b.reframe version epoch own orders).band = b.band from rfl]
  split_ifs
  · exact ⟨version, rfl⟩
  · exact ⟨_, rfl⟩

theorem onSums_removeShares (s : Side) (price : ℤ) (shares : ℕ) : OnSums fun b => b.removeShares s price shares := by
  intro b version epoch own orders
  beta_reduce
  unfold removeShares
  rw [show (b.reframe version epoch own orders).band = b.band from rfl]
  split_ifs
  · exact onSums_unpark shares b version epoch own orders
  · exact ⟨_, rfl⟩

/-! ### Moving the band -/

theorem onSums_rebuildOne (r : Resting) : OnSums fun b => b.rebuildOne r := by
  intro b version epoch own orders
  beta_reduce
  unfold rebuildOne
  rw [show (b.reframe version epoch own orders).band = b.band from rfl]
  split_ifs
  · exact ⟨version, rfl⟩
  · exact ⟨_, rfl⟩
  · exact ⟨version, rfl⟩

/-- The levels that leave the band. -/
theorem onSums_parkLevels (x : BookSide) (lo hi : ℕ) (l : List ℕ) :
    OnSums fun b => l.foldl
      (fun b i => if (i < lo ∨ i ≥ hi) ∧ x.size i ≠ 0 then b.park (b.band.priceOf i) (x.size i) else b) b :=
  OnSums.foldl (fun i => OnSums.ite (fun _ version _ _ _ => ⟨version, rfl⟩) OnSums.id _) l

theorem onSums_shiftLevels (s : Side) (newMin newMax : ℤ) : OnSums fun b => b.shiftLevels s newMin newMax := by
  intro b version epoch own orders
  beta_reduce
  unfold shiftLevels
  rw [show (b.reframe version epoch own orders).band = b.band from rfl,
    show (b.reframe version epoch own orders).side = b.side from rfl]
  simp only
  generalize (if max b.band.minPrice newMin ≤ min b.band.maxPrice newMax then b.band.index (max b.band.minPrice newMin) else 0) = lo
  generalize (if max b.band.minPrice newMin ≤ min b.band.maxPrice newMax
    then ((min b.band.maxPrice newMax - max b.band.minPrice newMin) / b.band.tickWire).toNat + 1 else 0) = len
  obtain ⟨version', heq⟩ := onSums_parkLevels (b.side s) lo (lo + len) (List.range (b.side s).levels) b version epoch own orders
  simp only at heq
  rw [heq]
  exact ⟨version', rfl⟩

theorem onSums_shiftBand (newMin newMax : ℤ) : OnSums fun b => b.shiftBand newMin newMax := by
  intro b version epoch own orders
  obtain ⟨version', heq⟩ :=
    (onSums_shiftLevels .buy newMin newMax).comp (onSums_shiftLevels .sell newMin newMax) b version epoch own orders
  unfold shiftBand
  simp only at heq ⊢
  rw [heq]
  exact ⟨version', rfl⟩

theorem onSums_countAnchor : OnSums countAnchor := fun _ _ _ _ _ => ⟨_, rfl⟩

theorem onSums_anchorShift (price : ℤ) (trusted : Bool) : OnSums fun b => b.anchorShift price trusted := by
  intro b version epoch own orders
  exact onSums_countAnchor.comp (onSums_shiftBand (b.anchorMin price trusted) (b.anchorMax price trusted)) b version epoch own orders

/-- The levels of the new band before the orders are counted. -/
def emptied (b : BookBuilder) (price : ℤ) (trusted : Bool) : BookBuilder :=
  let ticks := b.anchorTicks price (b.anchorTick price) trusted
  { b.countAnchor with
    band := ⟨b.anchorMin price trusted, b.anchorMax price trusted, b.anchorTick price, DivBy.ofDivisor (u32 (b.anchorTick price))⟩
    side := fun _ => BookSide.empty (2 * ticks + 1) (2 * ticks + 1)
    anchored := true
    parkedShares := 0
    parkedLo := kNoPrice
    parkedHi := kNoPrice }

theorem onSums_emptied (price : ℤ) (trusted : Bool) : OnSums fun b => b.emptied price trusted := fun _ _ _ _ _ => ⟨_, rfl⟩

theorem anchorRebuild_eq (b : BookBuilder) (price : ℤ) (trusted : Bool) :
    b.anchorRebuild price trusted = b.orders.entries.foldl (fun b e => b.rebuildOne e.2) (b.emptied price trusted) := rfl

end TickToTrade.Dut.BookBuilder
