import TickToTrade.Dut.BookInvariant

/-!
# Adding an order and removing it

An added order shows all its shares in its level, but its record in the map has room for
30 bits of them. What leaves the level with the order is what the record says, so the book
is as it was before exactly when the shares fit.

## What is proved

* `restored_iff` — an order that is added and removed again leaves the book as it was if
  and only if it is an own order or has fewer than 2^30 shares.
-/

namespace TickToTrade.Dut.BookBuilder

open Util

variable {b b' : BookBuilder} {L : List Resting} {r : Resting} {ref shares wire : ℕ} {m : Itch.Body}

/-- The second book shows what the first one does, and has its orders. -/
structure Restored (b b' : BookBuilder) : Prop where
  size : ∀ s i, i < (b.side s).levels → (b'.side s).size i = (b.side s).size i
  sizeAt : ∀ s p, b'.sizeAt s p = b.sizeAt s p
  best : ∀ s, (b'.side s).best = (b.side s).best
  parked : b'.parkedShares = b.parkedShares
  orders : b'.orders.entries.Perm b.orders.entries

/-- The message deletes the order, or executes or cancels so many of its shares. -/
def Removes (ref shares : ℕ) : Itch.Body → Prop
  | .orderDelete r => r = ref
  | .orderExecuted r q _ => r = ref ∧ q = shares
  | .orderExecutedWithPrice r q _ _ => r = ref ∧ q = shares
  | .orderCancel r q => r = ref ∧ q = shares
  | _ => False

/-- Is the message an execution? -/
def Executes : Itch.Body → Bool
  | .orderExecuted .. => true
  | .orderExecutedWithPrice .. => true
  | _ => false

/-- Would an order with the reference be an own one? -/
def OwnRef (b : BookBuilder) (ref : ℕ) : Prop := b.ownRefMin ≠ 0 ∧ ref ≥ b.ownRefMin

instance (b : BookBuilder) (ref : ℕ) : Decidable (b.OwnRef ref) := inferInstanceAs (Decidable (_ ∧ _))

/-! ### Removing an order -/

/-- What the sums forget of an order that leaves. -/
def forget (b : BookBuilder) (o : Resting) : BookBuilder := if o.own then b else b.removeShares o.side o.price o.shares

/-- The book without an order of its map. -/
structure Removed (b : BookBuilder) (ref : ℕ) (o : Resting) (b' : BookBuilder) : Prop where
  band : b'.band = b.band
  side : b'.side = (b.forget o).side
  parked : b'.parkedShares = (b.forget o).parkedShares
  orders : b'.orders.entries.Perm (b.orders.entries.filter (·.1 ≠ ref))

/-- The band stays where it is when shares leave. -/
theorem band_removeShares (b : BookBuilder) (s : Side) (p : ℤ) (q : ℕ) : (b.removeShares s p q).band = b.band := by
  unfold removeShares unpark
  simp only
  split_ifs <;> rfl

theorem removed_removeOrder (hmap : b.orders.WF) (h0 : ref ≠ 0) (hmem : (ref, r) ∈ b.orders.entries) :
    Removed b ref r (b.removeOrder ref) := by
  have hget := (FlatHashMap.get?_eq_some_iff hmap h0).mpr hmem
  obtain ⟨orders, herase, -, hperm⟩ := hmap.erase_some h0 hget
  unfold removeOrder
  rw [herase]
  simp only
  unfold countOut
  cases hown : r.own with
  | true => exact ⟨rfl, by simp [forget, hown], by simp [forget, hown], hperm⟩
  | false =>
      have hframe := frame_removeShares { b with orders := orders } r.side r.price r.shares
      have hforget : b.forget r = b.removeShares r.side r.price r.shares := by simp [forget, hown]
      simp only [Bool.false_eq_true, if_false]
      refine ⟨band_removeShares .., ?_, ?_, by rw [hframe.orders]; exact hperm⟩
      all_goals
        rw [hforget]
        unfold removeShares unpark
        simp only
        split_ifs <;> rfl

/-- A reduction by at least all the shares removes the order, if it does not move the band. -/
theorem removed_reduceOrder (hmap : b.orders.WF) (h0 : ref ≠ 0) (hmem : (ref, r) ∈ b.orders.entries)
    (hle : r.shares ≤ shares) {trade : Bool} (hcalm : (trade && b.needsAnchor r.price) = false) :
    Removed b ref r (b.reduceOrder ref shares trade) := by
  have hget := (FlatHashMap.get?_eq_some_iff hmap h0).mpr hmem
  obtain ⟨i, hfind, hval⟩ := Option.map_eq_some_iff.mp hget
  obtain ⟨hi, hkey⟩ := (FlatHashMap.find_eq_some_iff hmap h0).mp hfind
  have hgone : (if shares < r.shares then shares else r.shares) = r.shares := if_neg (by omega)
  unfold reduceOrder
  rw [hfind]
  simp only [hval, hcalm, hgone]
  generalize r.setShares (r.shares - r.shares) = z
  obtain ⟨hwf, hbind⟩ := hmap.setValueAt hi (by rw [hkey]; exact h0) z
  rw [hkey] at hbind
  have hkey' : (b.orders.setValueAt i z).keyAt i = ref := by simp [FlatHashMap.setValueAt, hkey]
  obtain ⟨-, herase⟩ := hwf.eraseAt (i := i) hi (by rw [hkey']; exact h0)
  rw [hkey'] at herase
  have hperm : ((b.orders.setValueAt i z).eraseAt i).entries.Perm (b.orders.entries.filter (·.1 ≠ ref)) := by
    refine herase.trans ((hbind.filter _).trans ?_)
    simp [FlatHashMap.bind, List.filter_filter]
  cases hown : r.own with
  | true => exact ⟨rfl, by simp [forget, hown], by simp [forget, hown], hperm⟩
  | false =>
      have hframe := frame_removeShares b r.side r.price r.shares
      have hforget : b.forget r = b.removeShares r.side r.price r.shares := by simp [forget, hown]
      simp only [Bool.false_eq_true, Bool.not_false, if_false, if_true]
      refine ⟨band_removeShares .., by rw [hforget], by rw [hforget], ?_⟩
      rw [hframe.orders]
      exact hperm

/-- **Each of the messages removes the order.** -/
theorem removed_apply (hmap : b.orders.WF) (h0 : ref ≠ 0) (hmem : (ref, r) ∈ b.orders.entries) (hle : r.shares ≤ shares)
    (hm : Removes ref shares m) (hcalm : Executes m = true → b.needsAnchor r.price = false) :
    Removed b ref r (b.apply m) := by
  cases m with
  | orderDelete ref' =>
      obtain rfl : ref' = ref := hm
      exact removed_removeOrder hmap h0 hmem
  | orderExecuted ref' q mn =>
      obtain ⟨rfl, rfl⟩ : ref' = ref ∧ q = shares := hm
      exact removed_reduceOrder hmap h0 hmem hle (hcalm rfl)
  | orderExecutedWithPrice ref' q mn px =>
      obtain ⟨rfl, rfl⟩ : ref' = ref ∧ q = shares := hm
      exact removed_reduceOrder hmap h0 hmem hle (hcalm rfl)
  | orderCancel ref' q =>
      obtain ⟨rfl, rfl⟩ : ref' = ref ∧ q = shares := hm
      exact removed_reduceOrder hmap h0 hmem hle rfl
  | _ => exact hm.elim

/-- A message about an order that is not live does nothing. -/
theorem apply_of_not_live (hmap : b.orders.WF) (h0 : ref ≠ 0) (hnew : ¬ b.Live ref) (hm : Removes ref shares m) :
    b.apply m = b := by
  have hget : b.orders.get? ref = none := Option.not_isSome_iff_eq_none.mp hnew
  have hfind : b.orders.find ref = none := Option.map_eq_none_iff.mp hget
  have hreduce : ∀ q trade, b.reduceOrder ref q trade = b := by
    intro q trade
    unfold reduceOrder
    rw [hfind]
  cases m with
  | orderDelete ref' =>
      obtain rfl : ref' = ref := hm
      change b.removeOrder ref' = b
      unfold removeOrder
      rw [FlatHashMap.erase_none h0 hget]
  | orderExecuted ref' q mn =>
      obtain ⟨rfl, rfl⟩ : ref' = ref ∧ q = shares := hm
      exact hreduce _ _
  | orderExecutedWithPrice ref' q mn px =>
      obtain ⟨rfl, rfl⟩ : ref' = ref ∧ q = shares := hm
      exact hreduce _ _
  | orderCancel ref' q =>
      obtain ⟨rfl, rfl⟩ : ref' = ref ∧ q = shares := hm
      exact hreduce _ _
  | _ => exact hm.elim

/-! ### Adding and removing shares -/

theorem size_remove (x : BookSide) (g : Band) (s : Side) (p : ℤ) (q : ℕ) :
    (x.remove g s p q).size = Function.update x.size (g.index p) (x.size (g.index p) - q) := by
  have hleft : (if q ≥ x.size (g.index p) then 0 else x.size (g.index p) - q) = x.size (g.index p) - q := by
    split_ifs <;> omega
  unfold BookSide.remove
  simp only [hleft]
  split_ifs
  · cases s <;> rfl
  · rfl
  · rfl

/-- The sizes after shares came to a level and others left it. -/
theorem size_add_remove (b : BookBuilder) (s : Side) {p : ℤ} (hin : b.band.inBand p = true) {n q : ℕ}
    (hsum : (b.side s).size (b.band.index p) + n < 2 ^ 32) (s' : Side) :
    (((b.addLevel s p n).removeShares s p q).side s').size =
      if s' = s then Function.update (b.side s).size (b.band.index p) ((b.side s).size (b.band.index p) + n - q)
      else (b.side s').size := by
  unfold removeShares
  rw [show (b.addLevel s p n).band = b.band from rfl, if_neg (by rw [hin]; decide)]
  change (Function.update (b.addLevel s p n).side s _ s').size = _
  split_ifs with hs
  · subst hs
    rw [Function.update_self, size_remove]
    have hside : ((b.addLevel s' p n).side s').size =
        Function.update (b.side s').size (b.band.index p) ((b.side s').size (b.band.index p) + n) := by
      change (Function.update b.side s' _ s').size = _
      rw [Function.update_self, ← Nat.mod_eq_of_lt hsum]
      rfl
    rw [hside, Function.update_self, Function.update_idem]
  · rw [Function.update_of_ne hs]
    change (Function.update b.side s _ s').size = _
    rw [Function.update_of_ne hs]

/-- **A level is as it was** if and only if as many shares leave it as came. -/
theorem restored_level (hb : b.Views L) (s : Side) {p : ℤ} (hp : p < 2 ^ 31) (hin : b.band.inBand p = true) {n q : ℕ}
    (hn : 0 < n) (hq : q ≤ n) (hsum : depth L s p + n < 2 ^ 32) :
    ((∀ s' i, i < (b.side s').levels → (((b.addLevel s p n).removeShares s p q).side s').size i = (b.side s').size i) ∧
        (∀ s' p', ((b.addLevel s p n).removeShares s p q).sizeAt s' p' = b.sizeAt s' p') ∧
        ∀ s', (((b.addLevel s p n).removeShares s p q).side s').best = (b.side s').best) ↔ q = n := by
  have hband : ((b.addLevel s p n).removeShares s p q).band = b.band := band_removeShares ..
  have hwire : Band.Wire p := by
    have hmin := hb.grid.min_nonneg
    obtain ⟨hle, -⟩ := Band.inRange_iff.mp (Band.inRange_of_inBand hin)
    exact ⟨by omega, hp⟩
  have hlevel := (hb.side s).toLevels.size_index hb.grid hwire hin
  have hidx := (hb.side s).toLevels.index_lt hb.grid hwire hin
  have hsize := size_add_remove b s hin (n := n) (q := q) (by rw [hlevel]; exact hsum)
  constructor
  · rintro ⟨hsizes, -, -⟩
    have hat := hsizes s _ hidx
    rw [hsize, if_pos rfl, Function.update_self] at hat
    omega
  · rintro rfl
    have hsame : ∀ s', (((b.addLevel s p q).removeShares s p q).side s').size = (b.side s').size := by
      intro s'
      rw [hsize]
      split_ifs with hs
      · subst hs
        rw [Nat.add_sub_cancel, Function.update_eq_self]
      · rfl
    refine ⟨fun s' i _ => by rw [hsame], fun s' p' => ?_, fun s' => ?_⟩
    · unfold sizeAt
      rw [hband, hsame]
    · -- without the shares the sums describe the orders that were there before
      have hadd := hb.addLevel (r := ⟨p, q, s, false⟩) rfl hwire hin hn hsum
      have hgone := (hadd.removeAll ⟨hn, hwire⟩ rfl).side s'
      have hbest := hgone.best
      change IsBest s' (BookSide.Shown ((b.addLevel s p q).removeShares s p q).band (depth L s'))
        (((b.addLevel s p q).removeShares s p q).side s').best at hbest
      rw [hband] at hbest
      exact hbest.unique (hb.side s').best

/-- Parked shares are only counted. -/
theorem park_remove (b : BookBuilder) (s : Side) {p : ℤ} (hout : b.band.inBand p = false) {n q : ℕ} (hq : q ≤ n) :
    ((b.addShares s p n).removeShares s p q).side = b.side ∧
      ((b.addShares s p n).removeShares s p q).parkedShares = b.parkedShares + n - q := by
  have hadd : b.addShares s p n = { b with oob := b.oob + 1 }.park p n := by
    unfold addShares
    rw [hout]
    rfl
  have hrem : (b.addShares s p n).removeShares s p q = (b.addShares s p n).unpark q := by
    have hband : (b.addShares s p n).band = b.band := by rw [hadd]; rfl
    unfold removeShares
    rw [hband, hout]
    rfl
  have hparked : (b.addShares s p n).parkedShares = b.parkedShares + n := by rw [hadd]; rfl
  have hside : (b.addShares s p n).side = b.side := by rw [hadd]; rfl
  have hle : min q (b.parkedShares + n) = q := by omega
  rw [hrem]
  unfold unpark
  simp only [hparked, hle]
  split_ifs with hnone
  · exact ⟨hside, hnone.symm⟩
  · exact ⟨hside, rfl⟩

/-! ### The pair -/

/-- The record that the book keeps of an added order. -/
def record (b : BookBuilder) (ref : ℕ) (s : Side) (shares wire : ℕ) : Resting :=
  Resting.make (toPrice wire) shares s (decide (b.OwnRef ref))

theorem shares_record (b : BookBuilder) (ref : ℕ) (s : Side) (shares wire : ℕ) :
    (b.record ref s shares wire).shares = min shares (2 ^ 30 - 1) := by
  change (if shares > 2 ^ 30 - 1 then 2 ^ 30 - 1 else shares) = _
  split_ifs <;> omega

theorem Restored.refl (b : BookBuilder) : Restored b b := ⟨fun _ _ _ => rfl, fun _ _ => rfl, fun _ => rfl, rfl, .refl _⟩

/-- What an anchored book does with an added order. -/
theorem apply_addOrder (hanchored : b.anchored = true) (hshares : shares ≠ 0) (ref : ℕ) (s : Side) (wire : ℕ) :
    b.apply (.addOrder ref s shares wire) = b.insertOrder ref (toPrice wire) shares s (decide (b.OwnRef ref)) := by
  change b.onAddOrder ref s shares wire = _
  unfold onAddOrder
  rw [if_neg hshares, hanchored]
  rfl

/-- The two messages together: the order of the map is gone, and the sums are those of the shares that came
and the recorded ones that left. -/
theorem removed_added (h : b.Inv) (hanchored : b.anchored = true) (h0 : ref ≠ 0) (hnew : ¬ b.Live ref) (s : Side)
    (hshares : shares ≠ 0) (hm : Removes ref shares m) (hcalm : Executes m = true → b.needsAnchor (toPrice wire) = false) :
    Removed (b.apply (.addOrder ref s shares wire)) ref (b.record ref s shares wire)
        ((b.apply (.addOrder ref s shares wire)).apply m) ∧
      ((b.apply (.addOrder ref s shares wire)).apply m).orders.entries.Perm b.orders.entries := by
  rw [apply_addOrder hanchored hshares]
  obtain ⟨hwf, hperm⟩ := resting_insert h h0 hnew (b.record ref s shares wire)
  have hmap : (b.insertOrder ref (toPrice wire) shares s (decide (b.OwnRef ref))).orders =
      b.orders.insertOrAssign ref (b.record ref s shares wire) := resting_insertOrder ..
  rw [← hmap] at hwf hperm
  have hband : (b.insertOrder ref (toPrice wire) shares s (decide (b.OwnRef ref))).needsAnchor (toPrice wire) =
      b.needsAnchor (toPrice wire) := by
    unfold insertOrder addShares
    simp only
    split_ifs <;> rfl
  have hle : (b.record ref s shares wire).shares ≤ shares := by rw [shares_record]; omega
  have hgone := removed_apply hwf h0 (hperm.mem_iff.mpr List.mem_cons_self) hle hm
    (fun he => hband.trans (hcalm he))
  refine ⟨hgone, hgone.orders.trans ((hperm.filter _).trans ?_)⟩
  have habsent : ∀ e ∈ b.orders.entries, e.1 ≠ ref := by
    rintro ⟨k, v⟩ he rfl
    exact (FlatHashMap.get?_eq_none_iff h.map h0).mp (Option.not_isSome_iff_eq_none.mp hnew) v he
  rw [List.filter_cons_of_neg (by simp), List.filter_eq_self.mpr fun e he => by simpa using habsent e he]

/-- **An order added and removed** leaves the book as it was if and only if it is an own one or its
record has room for its shares. -/
theorem restored_iff (h : b.Inv) (hanchored : b.anchored = true) (h0 : ref ≠ 0) (hnew : ¬ b.Live ref) (s : Side)
    (hsum : b.liveShares s (toPrice wire) + shares < 2 ^ 32) (hm : Removes ref shares m)
    (hcalm : Executes m = true → b.needsAnchor (toPrice wire) = false) :
    Restored b ((b.apply (.addOrder ref s shares wire)).apply m) ↔ b.OwnRef ref ∨ shares < 2 ^ 30 := by
  by_cases hz : shares = 0
  · subst hz
    have hadd : b.apply (.addOrder ref s 0 wire) = b := by simp [apply, onAddOrder]
    rw [hadd, apply_of_not_live h.map h0 hnew hm]
    exact iff_of_true (.refl b) (.inr (by norm_num))
  obtain ⟨hgone, horders⟩ := removed_added h hanchored h0 hnew s hz hm hcalm
  have hq := shares_record b ref s shares wire
  rw [apply_addOrder hanchored hz] at hgone horders ⊢
  set b'' := (b.insertOrder ref (toPrice wire) shares s (decide (b.OwnRef ref))).apply m
  by_cases hown : b.OwnRef ref
  · -- own orders are in no sum
    have hforget : b.record ref s shares wire = { b.record ref s shares wire with own := true } := by
      simp [record, Resting.make, hown]
    have hins : b.insertOrder ref (toPrice wire) shares s (decide (b.OwnRef ref)) =
        { b with
          orders := b.orders.insertOrAssign ref (b.record ref s shares wire)
          own := b.own + 1 } := by
      simp [insertOrder, record, hown]
    rw [hins, hforget] at hgone
    have hside : b''.side = b.side := hgone.side
    have hband : b''.band = b.band := hgone.band
    refine iff_of_true ⟨fun s' i _ => by rw [hside], fun s' p => ?_, fun s' => by rw [hside], hgone.parked, horders⟩ (.inl hown)
    unfold sizeAt
    rw [hside, hband]
  · have hforget : ∀ x : BookBuilder, x.forget (b.record ref s shares wire) =
        x.removeShares s (toPrice wire) (b.record ref s shares wire).shares := by
      intro x
      simp [forget, record, Resting.make, hown]
    set b0 : BookBuilder := { b with orders := b.orders.insertOrAssign ref (b.record ref s shares wire) } with hb0
    have hins : b.insertOrder ref (toPrice wire) shares s (decide (b.OwnRef ref)) = b0.addShares s (toPrice wire) shares := by
      simp [insertOrder, record, hown, hb0]
    have hviews : b0.Views b.resting := h.views.congr rfl rfl rfl rfl rfl
    rw [hins] at hgone
    by_cases hin : b.band.inBand (toPrice wire) = true
    · have hadd : b0.addShares s (toPrice wire) shares = b0.addLevel s (toPrice wire) shares := by
        unfold addShares
        rw [show b0.band = b.band from rfl, hin]
        rfl
      rw [hadd] at hgone
      have hlevel := restored_level (q := (b.record ref s shares wire).shares) hviews s (toPrice_lt wire) hin
        (by omega) (by omega) hsum
      have hside := hgone.side
      have hband : b''.band = (b0.addLevel s (toPrice wire) shares).band := hgone.band
      have hparked := hgone.parked
      rw [hforget] at hside hparked
      have hsizeAt : ∀ s' p', b''.sizeAt s' p' =
          ((b0.addLevel s (toPrice wire) shares).removeShares s (toPrice wire) (b.record ref s shares wire).shares).sizeAt s' p' := by
        intro s' p'
        unfold sizeAt
        rw [hband, hside, band_removeShares]
      have hpark : b''.parkedShares = b.parkedShares := by
        rw [hparked]
        unfold removeShares
        rw [show (b0.addLevel s (toPrice wire) shares).band = b.band from rfl, hin]
        rfl
      constructor
      · rintro ⟨hsize, hat, hbest, -, -⟩
        have hall := hlevel.mp ⟨fun s' i hi => hside ▸ hsize s' i hi, fun s' p' => hsizeAt s' p' ▸ hat s' p',
          fun s' => hside ▸ hbest s'⟩
        exact .inr (by omega)
      · intro hfits
        have hroom := hfits.resolve_left hown
        obtain ⟨hsize, hat, hbest⟩ := hlevel.mpr (by omega)
        exact ⟨fun s' i hi => by rw [hside]; exact hsize s' i hi, fun s' p' => by rw [hsizeAt]; exact hat s' p',
          fun s' => by rw [hside]; exact hbest s', hpark, horders⟩
    · rw [Bool.not_eq_true] at hin
      obtain ⟨hside', hparked'⟩ := park_remove b0 s (p := toPrice wire) hin
        (show (b.record ref s shares wire).shares ≤ shares by omega)
      have hband : b''.band = b.band := by
        rw [hgone.band]
        unfold addShares
        split_ifs <;> rfl
      have hside : b''.side = b.side := by rw [hgone.side, hforget, hside']
      have hparked : b''.parkedShares = b.parkedShares + shares - (b.record ref s shares wire).shares := by
        rw [hgone.parked, hforget, hparked']
      constructor
      · intro hr
        have hsame := hr.parked
        exact .inr (by omega)
      · intro hfits
        have hroom := hfits.resolve_left hown
        refine ⟨fun s' i _ => by rw [hside], fun s' p => ?_, fun s' => by rw [hside], by omega, horders⟩
        unfold sizeAt
        rw [hside, hband]

/-- A book with its band in place and no order. -/
def anchoredBook : BookBuilder := ofConfig { exampleConfig with anchorPrice := 20000 }

theorem inv_anchoredBook : anchoredBook.Inv := inv_ofConfig (by constructor <;> decide)

/-- Thirty shares, executed at once, leave nothing. -/
theorem restored_thirty :
    Restored anchoredBook
      ((anchoredBook.apply (.addOrder 7 .buy 30 20000)).apply (.orderExecuted 7 30 1)) := by
  have hm : Removes 7 30 (.orderExecuted 7 30 1) := ⟨rfl, rfl⟩
  exact (restored_iff inv_anchoredBook (by decide +kernel) (by decide) (by decide +kernel) .buy (by decide +kernel) hm
    fun _ => by decide +kernel).mpr (.inr (by norm_num))

/-- An order of 2^30 shares leaves one of them in the level when it is deleted. -/
theorem phantom_share :
    anchoredBook.Inv ∧ anchoredBook.anchored = true ∧ ¬ anchoredBook.Live 7 ∧ anchoredBook.liveShares .buy 20000 + 2 ^ 30 < 2 ^ 32 ∧
      ¬ Restored anchoredBook ((anchoredBook.apply (.addOrder 7 .buy (2 ^ 30) 20000)).apply (.orderDelete 7)) ∧
      ((anchoredBook.apply (.addOrder 7 .buy (2 ^ 30) 20000)).apply (.orderDelete 7)).sizeAt .buy 20000 = 1 ∧
      ((anchoredBook.apply (.addOrder 7 .buy (2 ^ 30) 20000)).apply (.orderDelete 7)).bestBid = 20000 := by
  refine ⟨inv_anchoredBook, by decide +kernel, by decide +kernel, by decide +kernel, fun hr => ?_, by decide +kernel, by decide +kernel⟩
  have hat := hr.sizeAt .buy 20000
  revert hat
  decide +kernel

end TickToTrade.Dut.BookBuilder
