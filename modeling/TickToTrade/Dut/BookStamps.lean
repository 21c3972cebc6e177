import TickToTrade.Dut.BookSums

/-!
# The stamps of a book

No message looks at the version of the top or at the session that a book is stamped with.
So books that differ in these only (`Alike`) stay so, whatever messages come.
-/

namespace TickToTrade.Dut.BookBuilder

open Util

variable {epoch : ℕ} {b b' b'' : BookBuilder}

/-- The same book with other stamps. -/
def restamp (b : BookBuilder) (version epoch : ℕ) : BookBuilder := { b with topVersion := version, epoch := epoch }

/-- The second book is the first one, stamped with `epoch` and perhaps at another version. -/
def Alike (epoch : ℕ) (b b' : BookBuilder) : Prop := ∃ version, b' = b.restamp version epoch

namespace Alike

theorem refl (b : BookBuilder) : Alike b.epoch b b := ⟨b.topVersion, rfl⟩

theorem trans (h : Alike epoch b b') {epoch' : ℕ} (h' : Alike epoch' b' b'') : Alike epoch' b b'' := by
  obtain ⟨version, rfl⟩ := h
  obtain ⟨version', rfl⟩ := h'
  exact ⟨version', rfl⟩

theorem epoch_eq (h : Alike epoch b b') : b'.epoch = epoch := by
  obtain ⟨version, rfl⟩ := h
  rfl

/-- The order map and the count of own orders do not matter to the stamps. -/
theorem setOrders (h : Alike epoch b b') (orders : FlatHashMap mix Resting) (own : ℕ) :
    Alike epoch { b with orders := orders, own := own } { b' with orders := orders, own := own } := by
  obtain ⟨version, rfl⟩ := h
  exact ⟨version, rfl⟩

/-! ### The sums -/

theorem onSums {F : BookBuilder → BookBuilder} (hF : OnSums F) (h : Alike epoch b b') : Alike epoch (F b) (F b') := by
  obtain ⟨version, rfl⟩ := h
  obtain ⟨version', heq⟩ := hF b version epoch b.own b.orders
  obtain ⟨-, hown, horders⟩ := hF.frame b
  refine ⟨version', heq.trans ?_⟩
  rw [← hown, ← horders]
  rfl

theorem addShares (h : Alike epoch b b') (s : Side) (price : ℤ) (shares : ℕ) :
    Alike epoch (b.addShares s price shares) (b'.addShares s price shares) := h.onSums (onSums_addShares s price shares)

theorem removeShares (h : Alike epoch b b') (s : Side) (price : ℤ) (shares : ℕ) :
    Alike epoch (b.removeShares s price shares) (b'.removeShares s price shares) := h.onSums (onSums_removeShares s price shares)

/-! ### Moving the band -/

theorem anchorRebuild (h : Alike epoch b b') (price : ℤ) (trusted : Bool) :
    Alike epoch (b.anchorRebuild price trusted) (b'.anchorRebuild price trusted) := by
  have horders : b'.orders = b.orders := by
    obtain ⟨version, rfl⟩ := h
    rfl
  rw [anchorRebuild_eq, anchorRebuild_eq, horders]
  exact (h.onSums (onSums_emptied price trusted)).onSums (OnSums.foldl (fun e => onSums_rebuildOne e.2) b.orders.entries)

theorem anchor (h : Alike epoch b b') (price : ℤ) (trusted : Bool) : Alike epoch (b.anchor price trusted) (b'.anchor price trusted) := by
  have hshifts : b'.Shifts price trusted ↔ b.Shifts price trusted := by
    obtain ⟨version, rfl⟩ := h
    exact Iff.rfl
  rw [anchor_eq, anchor_eq]
  by_cases hs : b.Shifts price trusted
  · rw [if_pos hs, if_pos (hshifts.mpr hs)]
    exact h.onSums (onSums_anchorShift price trusted)
  · rw [if_neg hs, if_neg fun hs' => hs (hshifts.mp hs')]
    exact h.anchorRebuild price trusted

theorem onTradePrice (h : Alike epoch b b') (price : ℤ) : Alike epoch (b.onTradePrice price) (b'.onTradePrice price) := by
  have hanchor := h.anchor price true
  unfold BookBuilder.onTradePrice
  have hneeds : b'.needsAnchor price = b.needsAnchor price := by
    obtain ⟨version, rfl⟩ := h
    rfl
  rw [hneeds]
  split_ifs
  · exact hanchor
  · exact h

/-! ### The messages -/

theorem insertOrder (h : Alike epoch b b') (ref : ℕ) (price : ℤ) (shares : ℕ) (s : Side) (own : Bool) :
    Alike epoch (b.insertOrder ref price shares s own) (b'.insertOrder ref price shares s own) := by
  obtain ⟨version, rfl⟩ := h
  unfold BookBuilder.insertOrder
  simp only
  split_ifs
  · exact ⟨version, rfl⟩
  · exact Alike.addShares ⟨version, rfl⟩ s price shares

theorem countOut (h : Alike epoch b b') (o : Resting) : Alike epoch (b.countOut o) (b'.countOut o) := by
  have hremove := h.removeShares o.side o.price o.shares
  obtain ⟨version, rfl⟩ := h
  unfold BookBuilder.countOut
  split_ifs
  · exact ⟨version, rfl⟩
  · exact hremove

theorem onAddOrder (h : Alike epoch b b') (ref : ℕ) (s : Side) (shares wire : ℕ) :
    Alike epoch (b.onAddOrder ref s shares wire) (b'.onAddOrder ref s shares wire) := by
  have hanchor := h.anchor (toPrice wire) false
  have hstamp := h
  obtain ⟨version, rfl⟩ := h
  unfold BookBuilder.onAddOrder
  simp only
  rw [show (b.restamp version epoch).anchored = b.anchored from rfl]
  split_ifs
  · exact hstamp
  · exact hanchor.insertOrder ..
  · exact hstamp.insertOrder ..

theorem onOrderReplace (h : Alike epoch b b') (orig new shares wire : ℕ) :
    Alike epoch (b.onOrderReplace orig new shares wire) (b'.onOrderReplace orig new shares wire) := by
  have hstamp := h
  obtain ⟨version, rfl⟩ := h
  unfold BookBuilder.onOrderReplace
  rw [show (b.restamp version epoch).orders = b.orders from rfl]
  cases b.orders.erase orig with
  | none => exact hstamp
  | some r =>
      have hout := (hstamp.setOrders r.2 b.own).countOut r.1
      simp only
      split_ifs
      · exact hout
      · exact hout.insertOrder ..

theorem removeOrder (h : Alike epoch b b') (ref : ℕ) : Alike epoch (b.removeOrder ref) (b'.removeOrder ref) := by
  have hstamp := h
  obtain ⟨version, rfl⟩ := h
  unfold BookBuilder.removeOrder
  rw [show (b.restamp version epoch).orders = b.orders from rfl]
  cases b.orders.erase ref with
  | none => exact hstamp
  | some r => exact (hstamp.setOrders r.2 b.own).countOut r.1

theorem reduceOrder (h : Alike epoch b b') (ref shares : ℕ) (trade : Bool) :
    Alike epoch (b.reduceOrder ref shares trade) (b'.reduceOrder ref shares trade) := by
  have hneeds : ∀ price, b'.needsAnchor price = b.needsAnchor price := by
    obtain ⟨version, rfl⟩ := h
    exact fun _ => rfl
  have horders : b'.orders = b.orders := by
    obtain ⟨version, rfl⟩ := h
    rfl
  unfold BookBuilder.reduceOrder
  rw [horders]
  cases b.orders.find ref with
  | none => exact h
  | some i =>
      simp only [hneeds]
      generalize b.orders.valueAt i = o
      generalize (if shares < o.shares then shares else o.shares) = gone
      have hplaced : Alike epoch (if (trade && b.needsAnchor o.price) = true then b.anchor o.price true else b)
          (if (trade && b.needsAnchor o.price) = true then b'.anchor o.price true else b') := by
        split_ifs
        · exact h.anchor o.price true
        · exact h
      generalize (if (trade && b.needsAnchor o.price) = true then b.anchor o.price true else b) = c at hplaced ⊢
      generalize (if (trade && b.needsAnchor o.price) = true then b'.anchor o.price true else b') = c' at hplaced ⊢
      have hgone : Alike epoch (if (!o.own) = true then c.removeShares o.side o.price gone else c)
          (if (!o.own) = true then c'.removeShares o.side o.price gone else c') := by
        split_ifs
        · exact hplaced.removeShares ..
        · exact hplaced
      obtain ⟨version, heq⟩ := hgone
      rw [heq]
      split_ifs <;> exact ⟨version, rfl⟩

/-- **A message keeps books alike.** -/
theorem apply (h : Alike epoch b b') (m : Itch.Body) : Alike epoch (b.apply m) (b'.apply m) := by
  cases m with
  | addOrder ref side shares price => exact h.onAddOrder ref side shares price
  | orderExecuted ref shares mn => exact h.reduceOrder ref shares true
  | orderExecutedWithPrice ref shares mn price => exact h.reduceOrder ref shares true
  | orderCancel ref shares => exact h.reduceOrder ref shares false
  | tradeNonCross ref side shares price mn => exact h.onTradePrice (toPrice price)
  | crossTrade shares price mn =>
      change Alike epoch (if shares > 0 ∧ price > 0 then b.onTradePrice (toPrice price) else b)
        (if shares > 0 ∧ price > 0 then b'.onTradePrice (toPrice price) else b')
      split_ifs
      · exact h.onTradePrice (toPrice price)
      · exact h
  | orderDelete ref => exact h.removeOrder ref
  | orderReplace orig new shares price => exact h.onOrderReplace orig new shares price
  | _ => exact h

theorem clear (h : Alike epoch b b') : Alike epoch b.clear b'.clear := by
  obtain ⟨version, rfl⟩ := h
  have heq : (b.restamp version epoch).clear = b.clear.restamp ((version + 1) % 2 ^ 32) epoch := by
    unfold BookBuilder.clear restamp
    simp only
    split_ifs <;> rfl
  exact ⟨_, heq⟩

end Alike

/-- No message changes the session that a book is stamped with. -/
theorem epoch_apply (b : BookBuilder) (m : Itch.Body) : (b.apply m).epoch = b.epoch := ((Alike.refl b).apply m).epoch_eq

end TickToTrade.Dut.BookBuilder
