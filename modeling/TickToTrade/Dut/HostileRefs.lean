import TickToTrade.Dut.BookInvariant
import TickToTrade.Util.MapRefines

/-!
# Any bytes for the book

The order map holds the ledger of the orders that the messages added and did not remove yet,
whatever bytes come. Two kinds of message break it. A lookup of reference 0, the mark of a free
slot, answers with a free slot, and the reduction then erases an order that is not there. And an
order of 2^30 shares or more is recorded with fewer.

## What is proved

* `survives` — without those messages the map holds the ledger, no message about an order
  that is not live changes anything, and every walk of the map ends.
-/

namespace TickToTrade.Dut.BookBuilder

open Util

variable {b b' : BookBuilder} {f : FiniteMap Resting} {ref : ℕ}

/-! ### The ledger -/

/-- The order lost shares: it is gone with the last of them. -/
def lessen (f : FiniteMap Resting) (ref shares : ℕ) : FiniteMap Resting :=
  match f.lookup ref with
  | none => f
  | some o => if o.shares ≤ shares then f.erase ref else f.insert ref { o with shares := o.shares - shares }

/-- What a message means for the orders that are live. -/
def account (ownRefMin : ℕ) (f : FiniteMap Resting) : Itch.Body → FiniteMap Resting
  | .addOrder ref side shares price =>
      if shares = 0 then f
      else f.insert ref ⟨toPrice price, shares, side, decide (ownRefMin ≠ 0 ∧ ref ≥ ownRefMin)⟩
  | .orderExecuted ref shares _ => lessen f ref shares
  | .orderExecutedWithPrice ref shares _ _ => lessen f ref shares
  | .orderCancel ref shares => lessen f ref shares
  | .orderDelete ref => f.erase ref
  | .orderReplace orig new shares price =>
      match f.lookup orig with
      | none => f
      | some o =>
          if shares = 0 then f.erase orig else (f.erase orig).insert new ⟨toPrice price, shares, o.side, o.own⟩
  | _ => f

/-- Does the message name the order it reduces, deletes or replaces? -/
def Names (ref : ℕ) : Itch.Body → Prop
  | .orderExecuted r _ _ => r = ref
  | .orderExecutedWithPrice r _ _ _ => r = ref
  | .orderCancel r _ => r = ref
  | .orderDelete r => r = ref
  | .orderReplace orig _ _ _ => orig = ref
  | _ => False

/-- The messages that the map is prepared for: nothing is stored or reduced under the mark of
the free slots, and the shares fit in 30 bits. -/
def Expected (b : BookBuilder) : Itch.Body → Prop
  | .addOrder ref _ shares _ => shares = 0 ∨ ref ≠ 0 ∧ shares < 2 ^ 30
  | .orderExecuted ref _ _ => ref ≠ 0
  | .orderExecutedWithPrice ref _ _ _ => ref ≠ 0
  | .orderCancel ref _ => ref ≠ 0
  | .orderReplace orig new shares _ => b.orders.lookup orig = none ∨ shares = 0 ∨ new ≠ 0 ∧ shares < 2 ^ 30
  | _ => True

/-- The map of the book holds the ledger, and every order in it has shares. -/
structure Records (b : BookBuilder) (f : FiniteMap Resting) : Prop where
  refines : b.orders.Refines f
  shares : ∀ ref o, f.lookup ref = some o → 0 < o.shares ∧ o.shares < 2 ^ 30

/-! ### One message -/

theorem Records.congr (h : Records b f) (horders : b'.orders = b.orders) : Records b' f :=
  ⟨by rw [horders]; exact h.refines, h.shares⟩

theorem Records.insert (h : Records b f) {r : Resting} (h0 : ref ≠ 0) (hr : 0 < r.shares ∧ r.shares < 2 ^ 30)
    (horders : b'.orders = b.orders.insertOrAssign ref r) : Records b' (f.insert ref r) := by
  refine ⟨by rw [horders]; exact h.refines.insert h0 r, fun k o hk => ?_⟩
  by_cases hkr : k = ref
  · rw [hkr, Finmap.lookup_insert] at hk
    exact Option.some.inj hk ▸ hr
  · rw [Finmap.lookup_insert_of_ne _ hkr] at hk
    exact h.shares k o hk

theorem Records.erase (h : Records b f) (hrefines : b'.orders.Refines (f.erase ref)) : Records b' (f.erase ref) := by
  refine ⟨hrefines, fun k o hk => ?_⟩
  by_cases hkr : k = ref
  · rw [hkr, Finmap.lookup_erase] at hk
    cases hk
  · rw [Finmap.lookup_erase_ne hkr] at hk
    exact h.shares k o hk

theorem records_insertOrder (h : Records b f) (h0 : ref ≠ 0) {shares : ℕ} (hpos : 0 < shares) (hfits : shares < 2 ^ 30)
    (price : ℤ) (s : Side) (own : Bool) :
    Records (b.insertOrder ref price shares s own) (f.insert ref ⟨price, shares, s, own⟩) := by
  refine h.insert h0 ⟨hpos, hfits⟩ ?_
  rw [resting_insertOrder, Resting.make_eq hfits]

theorem records_onAddOrder (h : Records b f) {shares : ℕ} (hm : shares = 0 ∨ ref ≠ 0 ∧ shares < 2 ^ 30) (s : Side) (wire : ℕ) :
    Records (b.onAddOrder ref s shares wire) (account b.ownRefMin f (.addOrder ref s shares wire)) := by
  unfold onAddOrder
  simp only [account]
  by_cases hz : shares = 0
  · rw [if_pos hz, if_pos hz]
    exact h
  · obtain ⟨h0, hfits⟩ := hm.resolve_left hz
    rw [if_neg hz, if_neg hz]
    refine records_insertOrder (h.congr ?_) h0 (by omega) hfits _ _ _
    split_ifs
    · exact (frame_anchor b _ _).orders
    · rfl

/-- A removal, as the map and the ledger see it. -/
theorem records_erase (h : Records b f) (ref : ℕ) :
    b.orders.erase ref = none ∧ f.lookup ref = none ∨
      ∃ o orders, b.orders.erase ref = some (o, orders) ∧ f.lookup ref = some o ∧
        Records ({ b with orders := orders }.countOut o) (f.erase ref) := by
  obtain hnone | ⟨o, orders, herase, hsome, hrefines⟩ := h.refines.erase ref
  · exact .inl hnone
  · refine .inr ⟨o, orders, herase, hsome, h.erase ?_⟩
    rw [orders_countOut]
    exact hrefines

/-- What is not in the ledger cannot leave it. -/
theorem erase_of_absent (hnone : f.lookup ref = none) : f.erase ref = f := by
  refine Finmap.ext_lookup fun k => ?_
  by_cases hk : k = ref
  · rw [hk, Finmap.lookup_erase, hnone]
  · rw [Finmap.lookup_erase_ne hk]

theorem erase_insert (f : FiniteMap Resting) (ref : ℕ) (r : Resting) : (f.insert ref r).erase ref = f.erase ref := by
  refine Finmap.ext_lookup fun k => ?_
  by_cases hk : k = ref
  · rw [hk, Finmap.lookup_erase, Finmap.lookup_erase]
  · rw [Finmap.lookup_erase_ne hk, Finmap.lookup_erase_ne hk, Finmap.lookup_insert_of_ne _ hk]

theorem records_removeOrder (h : Records b f) (ref : ℕ) : Records (b.removeOrder ref) (f.erase ref) := by
  unfold removeOrder
  obtain ⟨herase, hnone⟩ | ⟨o, orders, herase, -, hrecords⟩ := records_erase h ref
  · rw [herase, erase_of_absent hnone]
    exact h
  · rw [herase]
    exact hrecords

theorem records_onOrderReplace (h : Records b f) {orig new shares : ℕ}
    (hm : b.orders.lookup orig = none ∨ shares = 0 ∨ new ≠ 0 ∧ shares < 2 ^ 30) (wire : ℕ) :
    Records (b.onOrderReplace orig new shares wire) (account b.ownRefMin f (.orderReplace orig new shares wire)) := by
  unfold onOrderReplace
  simp only [account]
  obtain ⟨herase, hnone⟩ | ⟨o, orders, herase, hsome, hrecords⟩ := records_erase h orig
  · simp only [herase, hnone]
    exact h
  · simp only [herase, hsome]
    by_cases hz : shares = 0
    · rw [if_pos hz, if_pos hz]
      exact hrecords
    · have hlive : b.orders.lookup orig ≠ none := by
        rw [h.refines.wf.lookup_eq_some_iff.mpr ((h.refines.entries _ _).mpr hsome)]
        exact Option.some_ne_none o
      obtain ⟨h0, hfits⟩ := (hm.resolve_left hlive).resolve_left hz
      rw [if_neg hz, if_neg hz]
      exact records_insertOrder hrecords h0 (by omega) hfits _ _ _

theorem records_reduceOrder (h : Records b f) (h0 : ref ≠ 0) (shares : ℕ) (trade : Bool) :
    Records (b.reduceOrder ref shares trade) (lessen f ref shares) := by
  have hlookup := (h.refines.find h0).2
  unfold reduceOrder lessen
  cases hfind : b.orders.find ref with
  | none =>
      rw [hfind] at hlookup
      rw [← hlookup]
      exact h
  | some i =>
      rw [hfind] at hlookup
      rw [← hlookup]
      simp only [Option.map_some]
      set o := b.orders.valueAt i
      obtain ⟨hpos, hfits⟩ := h.shares ref o hlookup.symm
      set gone := if shares < o.shares then shares else o.shares with hgone
      have hset : o.setShares (o.shares - gone) = { o with shares := o.shares - gone } := by
        unfold Resting.setShares
        rw [Nat.mod_eq_of_lt (by omega)]
      have horders : (if (!o.own) = true then
          (if (trade && b.needsAnchor o.price) = true then b.anchor o.price true else b).removeShares o.side o.price gone
          else if (trade && b.needsAnchor o.price) = true then b.anchor o.price true else b).orders = b.orders := by
        split_ifs
        · exact (frame_removeShares _ _ _ _).orders.trans (frame_anchor b _ _).orders
        · exact (frame_removeShares _ _ _ _).orders
        · exact (frame_anchor b _ _).orders
        · rfl
      rw [horders, hset]
      obtain ⟨hwritten, hfind'⟩ := h.refines.setValueAt h0 hfind { o with shares := o.shares - gone }
      by_cases hall : o.shares ≤ shares
      · have hgone' : gone = o.shares := if_neg (by omega)
        have herased := hwritten.eraseAt h0 hfind'
        rw [erase_insert] at herased
        rw [if_pos hall, if_pos hgone'.symm]
        exact h.erase herased
      · have hgone' : gone = shares := if_pos (by omega)
        rw [if_neg hall, if_neg (by omega), ← hgone']
        refine ⟨hwritten, fun k r hk => ?_⟩
        by_cases hkr : k = ref
        · rw [hkr, Finmap.lookup_insert] at hk
          rw [← Option.some.inj hk]
          exact ⟨by simp only; omega, by simp only; omega⟩
        · rw [Finmap.lookup_insert_of_ne _ hkr] at hk
          exact h.shares k r hk

/-- **One message**: the map goes on to hold the ledger. -/
theorem records_apply (h : Records b f) {m : Itch.Body} (hm : b.Expected m) :
    Records (b.apply m) (account b.ownRefMin f m) := by
  have htrade : ∀ price, Records (b.onTradePrice price) f := fun price => by
    unfold onTradePrice
    split_ifs
    · exact h.congr (frame_anchor b _ _).orders
    · exact h
  cases m with
  | addOrder ref side shares price => exact records_onAddOrder h hm side price
  | orderExecuted ref shares mn => exact records_reduceOrder h hm shares true
  | orderExecutedWithPrice ref shares mn price => exact records_reduceOrder h hm shares true
  | orderCancel ref shares => exact records_reduceOrder h hm shares false
  | orderDelete ref => exact records_removeOrder h ref
  | orderReplace orig new shares price => exact records_onOrderReplace h hm price
  | tradeNonCross ref side shares price mn => exact htrade _
  | crossTrade shares price mn =>
      change Records (if shares > 0 ∧ price > 0 then b.onTradePrice (toPrice price) else b) f
      split_ifs
      · exact htrade _
      · exact h
  | _ => exact h

/-- A message about an order that is not in the ledger changes nothing. -/
theorem apply_of_absent (h : Records b f) {m : Itch.Body} (hm : b.Expected m) (hnames : Names ref m)
    (hnone : f.lookup ref = none) : b.apply m = b := by
  have hreduce : ∀ shares trade, ref ≠ 0 → b.reduceOrder ref shares trade = b := by
    intro shares trade h0
    have hlookup := (h.refines.find h0).2
    rw [hnone, Option.map_eq_none_iff] at hlookup
    unfold reduceOrder
    rw [hlookup]
  have herase : b.orders.erase ref = none := by
    obtain ⟨hno, -⟩ | ⟨o, orders, -, hsome, -⟩ := h.refines.erase ref
    · exact hno
    · rw [hnone] at hsome
      cases hsome
  cases m with
  | orderExecuted r shares mn =>
      obtain rfl : r = ref := hnames
      exact hreduce shares true hm
  | orderExecutedWithPrice r shares mn price =>
      obtain rfl : r = ref := hnames
      exact hreduce shares true hm
  | orderCancel r shares =>
      obtain rfl : r = ref := hnames
      exact hreduce shares false hm
  | orderDelete r =>
      obtain rfl : r = ref := hnames
      change b.removeOrder r = b
      unfold removeOrder
      rw [herase]
  | orderReplace orig new shares price =>
      obtain rfl : orig = ref := hnames
      change b.onOrderReplace orig new shares price = b
      unfold onOrderReplace
      rw [herase]
  | _ => exact hnames.elim

/-! ### Every run -/

/-- A book as the program builds it. -/
inductive Built : BookBuilder → Prop where
  | ofRange (minPrice maxPrice tickWire : ℤ) (maxOrders ownRefMin : ℕ) :
      Built (BookBuilder.ofRange minPrice maxPrice tickWire maxOrders ownRefMin)
  | ofConfig (cfg : BookConfig) : Built (BookBuilder.ofConfig cfg)

theorem Built.records (h : Built b) : Records b ∅ := by
  have hempty : ∀ n, (FlatHashMap.empty n : FlatHashMap mix Resting).Refines ∅ := fun n => FlatHashMap.refines_ofLogCap _
  have hnone : ∀ (ref : ℕ) (o : Resting), (∅ : FiniteMap Resting).lookup ref = some o → 0 < o.shares ∧ o.shares < 2 ^ 30 := by
    intro ref o ho
    rw [Finmap.lookup_empty] at ho
    cases ho
  cases h with
  | ofRange minPrice maxPrice tickWire maxOrders ownRefMin => exact ⟨hempty maxOrders, hnone⟩
  | ofConfig cfg =>
      unfold BookBuilder.ofConfig
      simp only
      split_ifs
      · exact ⟨by rw [(frame_anchor _ _ _).orders]; exact hempty cfg.maxOrders, hnone⟩
      · exact ⟨hempty cfg.maxOrders, hnone⟩

/-- The book after byte strings. -/
def applyAll (b : BookBuilder) (msgs : List (List UInt8)) : BookBuilder := msgs.foldl (fun b msg => b.apply (Itch.bodyOf msg)) b

/-- The ledger after byte strings. -/
def ledger (ownRefMin : ℕ) (msgs : List (List UInt8)) : FiniteMap Resting :=
  msgs.foldl (fun f msg => account ownRefMin f (Itch.bodyOf msg)) ∅

/-- Every message of the run is one that the map is prepared for. -/
def AllExpected (b : BookBuilder) : List (List UInt8) → Prop
  | [] => True
  | msg :: msgs => b.Expected (Itch.bodyOf msg) ∧ (b.apply (Itch.bodyOf msg)).AllExpected msgs

theorem ownRefMin_insertOrder (b : BookBuilder) (ref : ℕ) (price : ℤ) (shares : ℕ) (s : Side) (own : Bool) :
    (b.insertOrder ref price shares s own).ownRefMin = b.ownRefMin := by
  unfold insertOrder
  simp only
  split_ifs
  · rfl
  · exact (frame_addShares _ _ _ _).ownRefMin

theorem ownRefMin_countOut (b : BookBuilder) (orders : FlatHashMap mix Resting) (o : Resting) :
    ({ b with orders := orders }.countOut o).ownRefMin = b.ownRefMin := by
  unfold countOut
  split_ifs
  · rfl
  · exact (frame_removeShares _ _ _ _).ownRefMin

theorem ownRefMin_reduceOrder (b : BookBuilder) (ref shares : ℕ) (trade : Bool) :
    (b.reduceOrder ref shares trade).ownRefMin = b.ownRefMin := by
  unfold reduceOrder
  cases b.orders.find ref with
  | none => rfl
  | some i =>
      have hanchor : ∀ p, (if (trade && b.needsAnchor p) = true then b.anchor p true else b).ownRefMin = b.ownRefMin := by
        intro p
        split_ifs
        · exact (frame_anchor b _ _).ownRefMin
        · rfl
      rw [apply_ite BookBuilder.ownRefMin, apply_ite BookBuilder.ownRefMin]
      simp only [(frame_removeShares _ _ _ _).ownRefMin, hanchor, ite_self]

/-- No message changes what an own reference is. -/
theorem ownRefMin_apply (b : BookBuilder) (m : Itch.Body) : (b.apply m).ownRefMin = b.ownRefMin := by
  have htrade : ∀ price, (b.onTradePrice price).ownRefMin = b.ownRefMin := fun price => by
    unfold onTradePrice
    split_ifs
    · exact (frame_anchor b _ _).ownRefMin
    · rfl
  cases m with
  | addOrder ref side shares price =>
      change (b.onAddOrder ref side shares price).ownRefMin = b.ownRefMin
      unfold onAddOrder
      split_ifs
      · rfl
      · exact (ownRefMin_insertOrder ..).trans (frame_anchor b _ _).ownRefMin
      · exact ownRefMin_insertOrder ..
  | orderExecuted ref shares mn => exact ownRefMin_reduceOrder b ref shares true
  | orderExecutedWithPrice ref shares mn price => exact ownRefMin_reduceOrder b ref shares true
  | orderCancel ref shares => exact ownRefMin_reduceOrder b ref shares false
  | orderDelete ref =>
      change (b.removeOrder ref).ownRefMin = b.ownRefMin
      unfold removeOrder
      cases b.orders.erase ref with
      | none => rfl
      | some r => exact ownRefMin_countOut b r.2 r.1
  | orderReplace orig new shares price =>
      change (b.onOrderReplace orig new shares price).ownRefMin = b.ownRefMin
      unfold onOrderReplace
      cases b.orders.erase orig with
      | none => rfl
      | some r =>
          simp only
          split_ifs
          · exact ownRefMin_countOut b r.2 r.1
          · exact (ownRefMin_insertOrder ..).trans (ownRefMin_countOut b r.2 r.1)
  | tradeNonCross ref side shares price mn => exact htrade _
  | crossTrade shares price mn =>
      change (if shares > 0 ∧ price > 0 then b.onTradePrice (toPrice price) else b).ownRefMin = b.ownRefMin
      split_ifs
      · exact htrade _
      · rfl
  | _ => rfl

theorem records_applyAll (msgs : List (List UInt8)) {b : BookBuilder} {f : FiniteMap Resting} (h : Records b f)
    (hall : b.AllExpected msgs) :
    Records (b.applyAll msgs) (msgs.foldl (fun f msg => account b.ownRefMin f (Itch.bodyOf msg)) f) := by
  induction msgs generalizing b f with
  | nil => exact h
  | cons msg msgs ih =>
      have hrest := ih (records_apply h hall.1) hall.2
      rw [ownRefMin_apply] at hrest
      exact hrest

/-- **The map survives** every run of such messages: it holds the ledger, and the count is the ledger's; a message
about an order that is not live changes nothing; and every walk of the map ends. -/
theorem survives (hbuilt : Built b) (msgs : List (List UInt8)) (hall : b.AllExpected msgs) :
    (b.applyAll msgs).liveOrders = (ledger b.ownRefMin msgs).keys.card ∧
      (∀ ref, ref ≠ 0 → ((b.applyAll msgs).Live ref ↔ ref ∈ ledger b.ownRefMin msgs)) ∧
      (∀ msg ref, Names ref (Itch.bodyOf msg) → ref ∉ ledger b.ownRefMin msgs → (b.applyAll msgs).Expected (Itch.bodyOf msg) →
        (b.applyAll msgs).apply (Itch.bodyOf msg) = b.applyAll msgs) ∧
      (∀ key, ((b.applyAll msgs).orders.probe key (b.applyAll msgs).orders.capacity ((b.applyAll msgs).orders.slotFor key)).isSome) ∧
      ∀ op : MapOp Resting, op.Avoids 0 → ((b.applyAll msgs).orders.perform op).isSome := by
  have h : Records (b.applyAll msgs) (ledger b.ownRefMin msgs) := records_applyAll msgs hbuilt.records hall
  refine ⟨h.refines.card, fun ref h0 => ?_, fun msg ref hnames hout hm => ?_, fun key => h.refines.wf.isSome_probe key, fun op hop => ?_⟩
  · have hget : (b.applyAll msgs).orders.get? ref = (ledger b.ownRefMin msgs).lookup ref := (h.refines.find h0).2
    rw [Live, hget, Finmap.lookup_isSome]
  · exact apply_of_absent h hm hnames (Finmap.lookup_eq_none.mpr hout)
  · obtain ⟨t, ht, -⟩ := h.refines.perform hop
    rw [ht]
    rfl

instance (b : BookBuilder) : (m : Itch.Body) → Decidable (b.Expected m)
  | .addOrder ref _ shares _ => inferInstanceAs (Decidable (shares = 0 ∨ ref ≠ 0 ∧ shares < 2 ^ 30))
  | .orderExecuted ref _ _ => inferInstanceAs (Decidable (ref ≠ 0))
  | .orderExecutedWithPrice ref _ _ _ => inferInstanceAs (Decidable (ref ≠ 0))
  | .orderCancel ref _ => inferInstanceAs (Decidable (ref ≠ 0))
  | .orderReplace orig new shares _ =>
      inferInstanceAs (Decidable (b.orders.lookup orig = none ∨ shares = 0 ∨ new ≠ 0 ∧ shares < 2 ^ 30))
  | .systemEvent _ => isTrue trivial
  | .systemEventShort => isTrue trivial
  | .stockDirectory _ => isTrue trivial
  | .stockDirectoryShort => isTrue trivial
  | .stockTradingAction _ => isTrue trivial
  | .stockTradingActionShort => isTrue trivial
  | .orderDelete _ => isTrue trivial
  | .tradeNonCross .. => isTrue trivial
  | .crossTrade .. => isTrue trivial
  | .other => isTrue trivial

instance decidableAllExpected (b : BookBuilder) : (msgs : List (List UInt8)) → Decidable (b.AllExpected msgs)
  | [] => isTrue trivial
  | msg :: msgs => @instDecidableAnd _ _ inferInstance (decidableAllExpected (b.apply (Itch.bodyOf msg)) msgs)

/-- The bytes of an added order: 30 shares bought at 20000. -/
def addBytes (ref : UInt8) : List UInt8 :=
  65 :: List.replicate 17 0 ++ [ref, 66, 0, 0, 0, 30] ++ List.replicate 8 32 ++ [0, 0, 78, 32]

/-- The bytes of a deletion. -/
def deleteBytes (ref : UInt8) : List UInt8 := 68 :: List.replicate 17 0 ++ [ref]

/-- The bytes of a cancel. -/
def cancelBytes (ref : UInt8) : List UInt8 := 88 :: List.replicate 17 0 ++ [ref, 0, 0, 0, 10]

/-- Two orders, a cancel of some shares, the deletion of another order and of reference 0. -/
theorem survives_sample :
    ((ofConfig exampleConfig).applyAll [addBytes 7, addBytes 8, cancelBytes 7, deleteBytes 9, deleteBytes 0]).liveOrders =
      (ledger 1000 [addBytes 7, addBytes 8, cancelBytes 7, deleteBytes 9, deleteBytes 0]).keys.card :=
  (survives (.ofConfig exampleConfig) _ (by decide +kernel)).1

/-- A cancel of reference 0 is counted as an order that left; and where each new order is followed by one, the table
fills up, and a lookup of another order never ends. -/
theorem hostile_cancel :
    ((ofConfig exampleConfig).applyAll [cancelBytes 0]).liveOrders = 2 ^ 64 - 1 ∧
      (ledger 1000 [cancelBytes 0]).keys.card = 0 ∧
      let b := (ofConfig exampleConfig).applyAll
        (((List.range 15).flatMap fun i => [addBytes (UInt8.ofNat (i + 1)), cancelBytes 0]) ++ [addBytes 16])
      b.orders.probe 17 b.orders.capacity (b.orders.slotFor 17) = none := by
  refine ⟨by decide +kernel, by decide +kernel, by decide +kernel⟩

end TickToTrade.Dut.BookBuilder
