import TickToTrade.Dut.AddDelete
import TickToTrade.Dut.BandMoves
import TickToTrade.Dut.HostileRefs
import TickToTrade.Dut.RebuildOrder
import TickToTrade.Util.Unwinding

/-!
# Own orders are not seen

The book tracks its own orders in the same map as all others, and counts only the others into
the sums. Two feeds that differ in messages about own orders only show the same book after each
other message, and a message about an own order does not change the version of the top. This
needs the map to keep the two kinds of orders apart, and a rebuild not to depend on the order of
the map.

## What is proved

* `hidden_apply` — a message about an own order changes the map and the count of own orders only.
* `abreast_apply` — any other message keeps two books with the same sums at the same sums.
* `own_orders_unseen` — the two runs.
-/

namespace TickToTrade.Dut.BookBuilder

open Util

variable {b b' : BookBuilder} {m : Itch.Body} {ref shares : ℕ} {gone gone' : ℕ → Bool}

/-! ### Who acts, and what is seen -/

/-- Does the reference name an own order? A live order knows; of the references of no live
order, `gone` are those that own orders have had. -/
def ownNamed (gone : ℕ → Bool) (b : BookBuilder) (ref : ℕ) : Bool := (b.orders.lookup ref).elim (gone ref) (·.own)

/-- Does the message act on an own order? -/
def actsOnOwn (gone : ℕ → Bool) (b : BookBuilder) : Itch.Body → Bool
  | .addOrder ref _ _ _ => decide (b.OwnRef ref)
  | .orderExecuted ref _ _ => b.ownNamed gone ref
  | .orderExecutedWithPrice ref _ _ _ => b.ownNamed gone ref
  | .orderCancel ref _ => b.ownNamed gone ref
  | .orderDelete ref => b.ownNamed gone ref
  | .orderReplace orig _ _ _ => b.ownNamed gone orig
  | _ => false

/-- What a book shows. -/
structure Shown where
  /-- The best bid. -/
  bestBid : ℤ
  /-- The best offer. -/
  bestAsk : ℤ
  /-- The shares at a price of a side. -/
  size : Side → ℤ → ℕ
  /-- The shares outside the band. -/
  parkedShares : ℕ
  /-- The low end of the band. -/
  bandLow : ℤ
  /-- The high end of the band. -/
  bandHigh : ℤ
  /-- The tick of the band. -/
  tickWire : ℤ

/-- What is seen of the book. -/
def shown (b : BookBuilder) : Shown := ⟨b.bestBid, b.bestAsk, b.sizeAt, b.parkedShares, b.bandLow, b.bandHigh, b.band.tickWire⟩

/-- An own order is executed at a price that needs no re-anchor. -/
def Calm (b : BookBuilder) : Itch.Body → Prop
  | .orderExecuted ref _ _ => ((b.orders.lookup ref).all fun o => !o.own || !b.needsAnchor o.price) = true
  | .orderExecutedWithPrice ref _ _ _ => ((b.orders.lookup ref).all fun o => !o.own || !b.needsAnchor o.price) = true
  | _ => True

/-- The orders that the sums count, by reference. -/
def counted (orders : FlatHashMap mix Resting) (ref : ℕ) : Option Resting := (orders.lookup ref).filter fun o => !o.own

/-- The map keeps the two kinds of orders apart: no reduction names the mark of the free slots, and no own order takes
the reference of a live order of someone else. -/
def Apart (b : BookBuilder) : Itch.Body → Prop
  | .addOrder ref _ shares _ => shares = 0 ∨ ¬b.OwnRef ref ∨ counted b.orders ref = none
  | .orderExecuted ref _ _ => ref ≠ 0
  | .orderExecutedWithPrice ref _ _ _ => ref ≠ 0
  | .orderCancel ref _ => ref ≠ 0
  | .orderReplace orig new shares _ =>
      shares = 0 ∨ ((b.orders.lookup orig).any (·.own)) = false ∨ counted b.orders new = none
  | _ => True

/-- No order that the sums count has the price that marks that there is none. -/
def Priced (b : BookBuilder) : Prop := ∀ e ∈ others b.orders.entries, e.2.price ≠ kNoPrice

/-- The map keeps the orders apart, and where the message has the band placed, no counted order has the price `kNoPrice`. -/
def Separate (b : BookBuilder) (m : Itch.Body) : Prop := b.Apart m ∧ (b.placesAt (.message m) = none ∨ b.Priced)

/-! ### The counted orders -/

theorem counted_update {orders orders' : FlatHashMap mix Resting} {v : Option Resting}
    (h : orders'.lookup = Function.update orders.lookup ref v) :
    counted orders' = Function.update (counted orders) ref (v.filter fun o => !o.own) := by
  funext k
  unfold counted
  rw [h]
  by_cases hk : k = ref
  · rw [hk, Function.update_self, Function.update_self]
  · rw [Function.update_of_ne hk, Function.update_of_ne hk]

/-- A change where the sums count nothing, before and after. -/
theorem counted_update_own {orders orders' : FlatHashMap mix Resting} {v : Option Resting}
    (h : orders'.lookup = Function.update orders.lookup ref v) (hbefore : counted orders ref = none)
    (hafter : v.filter (fun o => !o.own) = none) : counted orders' = counted orders := by
  rw [counted_update h, hafter, ← hbefore, Function.update_eq_self]

theorem counted_eq_some {orders : FlatHashMap mix Resting} {o : Resting} :
    counted orders ref = some o ↔ orders.lookup ref = some o ∧ o.own = false := by
  unfold counted
  rw [Option.filter_eq_some_iff]
  simp

theorem counted_of_own {orders : FlatHashMap mix Resting} {o : Resting} (h : orders.lookup ref = some o) (hown : o.own = true) :
    counted orders ref = none := by
  unfold counted
  rw [h]
  simp [hown]

/-- The maps count the same orders, so they list them in some order each. -/
theorem others_perm {orders orders' : FlatHashMap mix Resting} (h : orders.WF) (h' : orders'.WF) (heq : counted orders' = counted orders) :
    (others orders.entries).Perm (others orders'.entries) := by
  have hmem : ∀ {t : FlatHashMap mix Resting}, t.WF → ∀ k o, (k, o) ∈ others t.entries ↔ counted t k = some o := by
    intro t ht k o
    unfold others
    rw [List.mem_filter, counted_eq_some, ht.lookup_eq_some_iff]
    simp
  refine FlatHashMap.perm_of_mem_iff (FlatHashMap.nodup_keys_filter _ h.nodup_keys) (FlatHashMap.nodup_keys_filter _ h'.nodup_keys) ?_
  intro k o
  change (k, o) ∈ others orders.entries ↔ (k, o) ∈ others orders'.entries
  rw [hmem h, hmem h', heq]

/-! ### What the messages do to the map -/

/-- How many shares of an order a reduction takes. -/
def taken (o : Resting) (shares : ℕ) : ℕ := if shares < o.shares then shares else o.shares

/-- What a reduction leaves of an order. -/
def remains (o : Resting) (shares : ℕ) : Option Resting :=
  if o.shares = taken o shares then none else some (o.setShares (o.shares - taken o shares))

theorem own_remains {o o' : Resting} (h : remains o shares = some o') : o'.own = o.own := by
  unfold remains at h
  split_ifs at h
  cases h
  rfl

/-- The sums after a reduction of the order. -/
def reduceSums (b : BookBuilder) (o : Resting) (shares : ℕ) (trade : Bool) : BookBuilder :=
  let c := if trade && b.needsAnchor o.price then b.anchor o.price true else b
  if o.own then c else c.removeShares o.side o.price (taken o shares)

theorem orders_reduceSums (b : BookBuilder) (o : Resting) (shares : ℕ) (trade : Bool) :
    (b.reduceSums o shares trade).orders = b.orders := by
  have hplaced : (if (trade && b.needsAnchor o.price) = true then b.anchor o.price true else b).orders = b.orders := by
    split_ifs
    · exact (frame_anchor b _ _).orders
    · rfl
  unfold reduceSums
  simp only
  by_cases hown : o.own = true
  · rw [if_pos hown]
    exact hplaced
  · rw [if_neg hown, (frame_removeShares _ _ _ _).orders]
    exact hplaced

/-- A reduction finds nothing, or writes back what is left of the order. -/
theorem reduceOrder_cases (hmap : b.orders.WF) (h0 : ref ≠ 0) (shares : ℕ) (trade : Bool) :
    b.orders.lookup ref = none ∧ b.reduceOrder ref shares trade = b ∨
      ∃ o own orders, b.orders.lookup ref = some o ∧ orders.WF ∧
        orders.lookup = Function.update b.orders.lookup ref (remains o shares) ∧
        b.reduceOrder ref shares trade = { b.reduceSums o shares trade with own := own, orders := orders } := by
  have hlookup : b.orders.lookup ref = (b.orders.find ref).map b.orders.valueAt := FlatHashMap.lookup_eq_get? _ h0
  unfold reduceOrder
  cases hfind : b.orders.find ref with
  | none =>
      rw [hfind] at hlookup
      exact .inl ⟨hlookup, rfl⟩
  | some i =>
      rw [hfind, Option.map_some] at hlookup
      refine .inr ⟨b.orders.valueAt i, ?_⟩
      simp only
      generalize b.orders.valueAt i = o at hlookup ⊢
      have horders := b.orders_reduceSums o shares trade
      have hsums : (if (!o.own) = true then
          (if (trade && b.needsAnchor o.price) = true then b.anchor o.price true else b).removeShares o.side o.price (taken o shares)
          else if (trade && b.needsAnchor o.price) = true then b.anchor o.price true else b) = b.reduceSums o shares trade := by
        unfold reduceSums
        cases o.own <;> rfl
      obtain ⟨hwf, hfind', hset⟩ := hmap.lookup_setValueAt h0 hfind (o.setShares (o.shares - taken o shares))
      rw [← taken, hsums, horders]
      by_cases hall : o.shares = taken o shares
      · obtain ⟨hwf', herase⟩ := hwf.lookup_eraseAt h0 hfind'
        rw [hset, Function.update_idem] at herase
        rw [if_pos hall, remains, if_pos hall]
        exact ⟨_, _, hlookup, hwf', herase, rfl⟩
      · rw [if_neg hall, remains, if_neg hall]
        exact ⟨_, _, hlookup, hwf, hset, rfl⟩

theorem lookup_insertOrAssign (hmap : b.orders.WF) (ref : ℕ) (o : Resting) :
    (b.orders.insertOrAssign ref o).lookup = Function.update b.orders.lookup ref (if ref = 0 then none else some o) := by
  by_cases h0 : ref = 0
  · have hzero : b.orders.lookup 0 = none := FlatHashMap.lookup_zero b.orders
    rw [h0, hmap.lookup_insertOrAssign_zero, if_pos rfl, ← hzero, Function.update_eq_self]
  · rw [hmap.lookup_insertOrAssign h0, if_neg h0]

/-! ### A message about an own order -/

/-- Only the map and the count of own orders have changed, and nothing that the sums count. -/
structure Hidden (b b' : BookBuilder) : Prop where
  frame : ∃ own orders, b' = { b with own := own, orders := orders }
  map : b'.orders.WF
  counted : counted b'.orders = counted b.orders

theorem Hidden.refl (hmap : b.orders.WF) : Hidden b b := ⟨⟨b.own, b.orders, rfl⟩, hmap, rfl⟩

theorem hidden_insertOrder (h : Hidden b b') (hnone : counted b'.orders ref = none) (price : ℤ) (shares : ℕ) (s : Side) :
    Hidden b (b'.insertOrder ref price shares s true) := by
  obtain ⟨⟨own, orders, rfl⟩, hmap, hcounted⟩ := h
  refine ⟨⟨own + 1, orders.insertOrAssign ref (Resting.make price shares s true), rfl⟩, hmap.wf_insertOrAssign _ _, ?_⟩
  refine Eq.trans (counted_update_own (lookup_insertOrAssign hmap ref _) hnone ?_) hcounted
  split_ifs <;> rfl

theorem hidden_erase (hmap : b.orders.WF) (ref : ℕ) :
    b.orders.erase ref = none ∧ b.orders.lookup ref = none ∨
      ∃ o orders, b.orders.erase ref = some (o, orders) ∧ b.orders.lookup ref = some o ∧
        (o.own = true → Hidden b ({ b with orders := orders }.countOut o)) := by
  rcases hmap.lookup_erase ref with hnone | ⟨o, orders, herase, hlookup, hwf, hupdate⟩
  · exact .inl hnone
  · refine .inr ⟨o, orders, herase, hlookup, fun hown => ?_⟩
    have hout : { b with orders := orders }.countOut o = { b with own := b.own - 1, orders := orders } := if_pos hown
    rw [hout]
    exact ⟨⟨b.own - 1, orders, rfl⟩, hwf, counted_update_own hupdate (counted_of_own hlookup hown) rfl⟩

theorem hidden_reduceOrder (hmap : b.orders.WF) (h0 : ref ≠ 0) (hown : ∀ o, b.orders.lookup ref = some o → o.own = true)
    {trade : Bool} (hcalm : ∀ o, b.orders.lookup ref = some o → (trade && b.needsAnchor o.price) = false) (shares : ℕ) :
    Hidden b (b.reduceOrder ref shares trade) := by
  rcases reduceOrder_cases hmap h0 shares trade with ⟨-, heq⟩ | ⟨o, own, orders, hlookup, hwf, hupdate, heq⟩
  · rw [heq]
    exact Hidden.refl hmap
  · have ho := hown o hlookup
    have hsums : b.reduceSums o shares trade = b := by
      unfold reduceSums
      rw [hcalm o hlookup, if_pos ho]
      rfl
    rw [heq, hsums]
    refine ⟨⟨own, orders, rfl⟩, hwf, counted_update_own hupdate (counted_of_own hlookup ho) ?_⟩
    cases hleft : remains o shares with
    | none => rfl
    | some o' => simp [own_remains hleft, ho]

theorem own_of_ownNamed (h : b.ownNamed gone ref = true) {o : Resting} (ho : b.orders.lookup ref = some o) : o.own = true := by
  rw [ownNamed, ho] at h
  exact h

/-- **A message about an own order** changes the map and the count of own orders only. -/
theorem hidden_apply (hmap : b.orders.WF) (hanchored : b.anchored = true) (hown : b.actsOnOwn gone m = true) (hcalm : b.Calm m)
    (hapart : b.Apart m) : Hidden b (b.apply m) := by
  have htrade : ∀ r, ((b.orders.lookup r).all fun o => !o.own || !b.needsAnchor o.price) = true → b.ownNamed gone r = true →
      ∀ o, b.orders.lookup r = some o → (true && b.needsAnchor o.price) = false := by
    intro r hr hnamed o ho
    rw [ho, Option.all_some, own_of_ownNamed hnamed ho] at hr
    simpa using hr
  cases m with
  | addOrder ref side shares wire =>
      have href : b.OwnRef ref := of_decide_eq_true hown
      change Hidden b (b.onAddOrder ref side shares wire)
      by_cases hz : shares = 0
      · rw [onAddOrder, if_pos hz]
        exact Hidden.refl hmap
      · have hnone : counted b.orders ref = none := (hapart.resolve_left hz).resolve_left (not_not.mpr href)
        have heq : b.onAddOrder ref side shares wire = b.insertOrder ref (toPrice wire) shares side true := by
          have hflag : decide (b.ownRefMin ≠ 0 ∧ ref ≥ b.ownRefMin) = true := decide_eq_true href
          unfold onAddOrder
          simp only [if_neg hz, hanchored, hflag]
          rfl
        rw [heq]
        exact hidden_insertOrder (Hidden.refl hmap) hnone _ _ _
  | orderExecuted ref shares mn =>
      exact hidden_reduceOrder hmap hapart (fun o ho => own_of_ownNamed hown ho) (htrade ref hcalm hown) shares
  | orderExecutedWithPrice ref shares mn price =>
      exact hidden_reduceOrder hmap hapart (fun o ho => own_of_ownNamed hown ho) (htrade ref hcalm hown) shares
  | orderCancel ref shares =>
      exact hidden_reduceOrder hmap hapart (fun o ho => own_of_ownNamed hown ho) (fun _ _ => rfl) shares
  | orderDelete ref =>
      change Hidden b (b.removeOrder ref)
      unfold removeOrder
      rcases hidden_erase hmap ref with ⟨herase, -⟩ | ⟨o, orders, herase, hlookup, hout⟩
      · rw [herase]
        exact Hidden.refl hmap
      · rw [herase]
        exact hout (own_of_ownNamed hown hlookup)
  | orderReplace orig new shares wire =>
      change Hidden b (b.onOrderReplace orig new shares wire)
      unfold onOrderReplace
      rcases hidden_erase hmap orig with ⟨herase, -⟩ | ⟨o, orders, herase, hlookup, hout⟩
      · rw [herase]
        exact Hidden.refl hmap
      · have ho := own_of_ownNamed hown hlookup
        have hhidden := hout ho
        rw [herase]
        simp only
        by_cases hz : shares = 0
        · rw [if_pos hz]
          exact hhidden
        · have hnone : counted b.orders new = none := by
            refine (hapart.resolve_left hz).resolve_left ?_
            rw [hlookup, Option.any_some, ho]
            exact Bool.true_eq_false.mp
          rw [if_neg hz, ho]
          exact hidden_insertOrder hhidden (by rw [hhidden.counted]; exact hnone) _ _ _
  | _ => cases hown

/-! ### Any other message -/

/-- The books have the same sums, and maps that count the same orders. -/
structure Abreast (b b' : BookBuilder) : Prop where
  beside : Beside b b'
  map : b.orders.WF
  map' : b'.orders.WF
  counted : counted b'.orders = counted b.orders

namespace Abreast

theorem refl (hmap : b.orders.WF) : Abreast b b := ⟨Beside.refl b, hmap, hmap, rfl⟩

theorem symm (h : Abreast b b') : Abreast b' b := ⟨h.beside.symm, h.map', h.map, h.counted.symm⟩

theorem hidden (h : Abreast b b') {c : BookBuilder} (hc : Hidden b c) : Abreast c b' := by
  refine ⟨Beside.trans ?_ h.beside, hc.map, h.map', h.counted.trans hc.counted.symm⟩
  obtain ⟨own, orders, rfl⟩ := hc.frame
  exact Beside.symm ⟨b.topVersion, own, orders, rfl⟩

theorem onSums {F : BookBuilder → BookBuilder} (hF : OnSums F) (h : Abreast b b') : Abreast (F b) (F b') := by
  have horders := (hF.frame b).2.2
  have horders' := (hF.frame b').2.2
  exact ⟨hF.beside h.beside, by rw [horders]; exact h.map, by rw [horders']; exact h.map', by rw [horders, horders']; exact h.counted⟩

/-- The maps change, and the count of own orders. -/
theorem setOrders (h : Abreast b b') {orders orders' : FlatHashMap mix Resting} (hwf : orders.WF) (hwf' : orders'.WF)
    (hcounted : BookBuilder.counted orders' = BookBuilder.counted orders) (own own' : ℕ) :
    Abreast { b with own := own, orders := orders } { b' with own := own', orders := orders' } := by
  refine ⟨?_, hwf, hwf', hcounted⟩
  obtain ⟨version, own'', orders'', rfl⟩ := h.beside
  exact ⟨version, own', orders', rfl⟩

/-- The maps change alike under one reference. -/
theorem update (h : Abreast b b') {orders orders' : FlatHashMap mix Resting} {v : Option Resting} (hwf : orders.WF) (hwf' : orders'.WF)
    (hupdate : orders.lookup = Function.update b.orders.lookup ref v)
    (hupdate' : orders'.lookup = Function.update b'.orders.lookup ref v) (own own' : ℕ) :
    Abreast { b with own := own, orders := orders } { b' with own := own', orders := orders' } := by
  refine h.setOrders hwf hwf' ?_ own own'
  rw [counted_update hupdate, counted_update hupdate', h.counted]

theorem anchor (h : Abreast b b') (hpriced : b.Priced) (price : ℤ) (trusted : Bool) :
    Abreast (b.anchor price trusted) (b'.anchor price trusted) := by
  have hshifts : b'.Shifts price trusted ↔ b.Shifts price trusted := by
    obtain ⟨version, own, orders, rfl⟩ := h.beside
    exact Iff.rfl
  have horders := (frame_anchor b price trusted).orders
  have horders' := (frame_anchor b' price trusted).orders
  refine ⟨?_, by rw [horders]; exact h.map, by rw [horders']; exact h.map', by rw [horders, horders']; exact h.counted⟩
  rw [anchor_eq, anchor_eq]
  by_cases hs : b.Shifts price trusted
  · rw [if_pos hs, if_pos (hshifts.mpr hs)]
    exact (onSums_anchorShift price trusted).beside h.beside
  · rw [if_neg hs, if_neg fun hs' => hs (hshifts.mp hs')]
    exact beside_rebuild h.beside (others_perm h.map h.map' h.counted) hpriced price trusted

theorem needsAnchor (h : Abreast b b') (price : ℤ) : b'.needsAnchor price = b.needsAnchor price := by
  obtain ⟨version, own, orders, rfl⟩ := h.beside
  rfl

theorem onTradePrice (h : Abreast b b') {price : ℤ} (hpriced : b.needsAnchor price = true → b.Priced) :
    Abreast (b.onTradePrice price) (b'.onTradePrice price) := by
  unfold BookBuilder.onTradePrice
  rw [h.needsAnchor]
  split_ifs with hneeds
  · exact h.anchor (hpriced hneeds) price true
  · exact h

theorem insertOrder (h : Abreast b b') (ref : ℕ) (price : ℤ) (shares : ℕ) (s : Side) :
    Abreast (b.insertOrder ref price shares s false) (b'.insertOrder ref price shares s false) :=
  (h.update (h.map.wf_insertOrAssign _ _) (h.map'.wf_insertOrAssign _ _) (lookup_insertOrAssign h.map ref _)
    (lookup_insertOrAssign h.map' ref (Resting.make price shares s false)) b.own b'.own).onSums (onSums_addShares s price shares)

/-- An order that is no own one in either book is the same one in both. -/
theorem lookup (h : Abreast b b') (hb : b.ownNamed gone ref = false) (hb' : b'.ownNamed gone' ref = false) :
    b'.orders.lookup ref = b.orders.lookup ref ∧ ∀ o, b.orders.lookup ref = some o → o.own = false := by
  have hcounts : ∀ {c : BookBuilder} {g : ℕ → Bool}, c.ownNamed g ref = false → BookBuilder.counted c.orders ref = c.orders.lookup ref := by
    intro c g hc
    unfold BookBuilder.counted
    cases ho : c.orders.lookup ref with
    | none => rfl
    | some o =>
        rw [ownNamed, ho, Option.elim_some] at hc
        simp [hc]
  refine ⟨by rw [← hcounts hb', ← hcounts hb, h.counted], fun o ho => ?_⟩
  rw [ownNamed, ho] at hb
  exact hb

theorem erase (h : Abreast b b') (hb : b.ownNamed gone ref = false) (hb' : b'.ownNamed gone' ref = false) :
    b.orders.erase ref = none ∧ b'.orders.erase ref = none ∨
      ∃ o orders orders', b.orders.erase ref = some (o, orders) ∧ b'.orders.erase ref = some (o, orders') ∧ o.own = false ∧
        Abreast ({ b with orders := orders }.countOut o) ({ b' with orders := orders' }.countOut o) := by
  obtain ⟨hsame, hother⟩ := h.lookup hb hb'
  rcases h.map.lookup_erase ref with ⟨herase, hnone⟩ | ⟨o, orders, herase, hlookup, hwf, hupdate⟩
  · rcases h.map'.lookup_erase ref with ⟨herase', -⟩ | ⟨o', orders', -, hlookup', -, -⟩
    · exact .inl ⟨herase, herase'⟩
    · rw [hsame, hnone] at hlookup'
      cases hlookup'
  · rcases h.map'.lookup_erase ref with ⟨-, hnone'⟩ | ⟨o', orders', herase', hlookup', hwf', hupdate'⟩
    · rw [hsame, hlookup] at hnone'
      cases hnone'
    · have ho := hother o hlookup
      rw [hsame, hlookup] at hlookup'
      cases hlookup'
      refine .inr ⟨o, orders, orders', herase, herase', ho, ?_⟩
      have hout : ∀ c : BookBuilder, c.countOut o = c.removeShares o.side o.price o.shares :=
        fun c => if_neg (by rw [ho]; exact Bool.false_ne_true)
      rw [hout, hout]
      exact (h.update hwf hwf' hupdate hupdate' b.own b'.own).onSums (onSums_removeShares o.side o.price o.shares)

theorem reduceOrder (h : Abreast b b') (h0 : ref ≠ 0) (hb : b.ownNamed gone ref = false) (hb' : b'.ownNamed gone' ref = false)
    {trade : Bool} (hpriced : ∀ o, b.orders.lookup ref = some o → (trade && b.needsAnchor o.price) = true → b.Priced) (shares : ℕ) :
    Abreast (b.reduceOrder ref shares trade) (b'.reduceOrder ref shares trade) := by
  obtain ⟨hsame, hother⟩ := h.lookup hb hb'
  rcases reduceOrder_cases h.map h0 shares trade with ⟨hnone, heq⟩ | ⟨o, own, orders, hlookup, hwf, hupdate, heq⟩
  · rcases reduceOrder_cases h.map' h0 shares trade with ⟨-, heq'⟩ | ⟨o', own', orders', hlookup', -, -, -⟩
    · rw [heq, heq']
      exact h
    · rw [hsame, hnone] at hlookup'
      cases hlookup'
  · rcases reduceOrder_cases h.map' h0 shares trade with ⟨hnone', -⟩ | ⟨o', own', orders', hlookup', hwf', hupdate', heq'⟩
    · rw [hsame, hlookup] at hnone'
      cases hnone'
    · rw [hsame, hlookup] at hlookup'
      cases hlookup'
      have hsums : Abreast (b.reduceSums o shares trade) (b'.reduceSums o shares trade) := by
        have hno : ¬o.own = true := by rw [hother o hlookup]; exact Bool.false_ne_true
        unfold reduceSums
        simp only [if_neg hno, h.needsAnchor]
        refine Abreast.onSums (onSums_removeShares o.side o.price (taken o shares)) ?_
        split_ifs with hneeds
        · exact h.anchor (hpriced o hlookup hneeds) o.price true
        · exact h
      rw [heq, heq']
      exact hsums.update hwf hwf' (by rw [orders_reduceSums]; exact hupdate) (by rw [orders_reduceSums]; exact hupdate') own own'

end Abreast

theorem anchored_apply (hanchored : b.anchored = true) (m : Itch.Body) : (b.apply m).anchored = true := by
  rw [show b.apply m = b.step (.message m) from rfl, (stays_step b (.message m)).anchored, placed]
  cases b.placesAt (.message m) with
  | none => exact hanchored
  | some place => exact (config_anchor b place.1 place.2).1

/-- Where an execution has the band placed, no counted order has the price `kNoPrice`. -/
theorem Separate.priced_of_execution (hexec : b.placesAt (.message m) =
      (b.orders.get? ref).bind fun o => if b.needsAnchor o.price then some (o.price, true) else none) (hsep : b.Separate m) (h0 : ref ≠ 0)
    {o : Resting} (ho : b.orders.lookup ref = some o) (hneeds : (true && b.needsAnchor o.price) = true) : b.Priced := by
  refine hsep.2.resolve_left ?_
  rw [FlatHashMap.lookup_eq_get? _ h0] at ho
  rw [hexec, ho, Option.bind_some, if_pos (by simpa using hneeds)]
  exact Option.some_ne_none _

/-- **Any other message** keeps books with the same sums at the same sums. -/
theorem abreast_apply (h : Abreast b b') (hanchored : b.anchored = true) (hb : b.actsOnOwn gone m = false)
    (hb' : b'.actsOnOwn gone' m = false) (hsep : b.Separate m) : Abreast (b.apply m) (b'.apply m) := by
  cases m with
  | addOrder ref side shares wire =>
      have hanchored' : b'.anchored = true := by
        obtain ⟨version, own, orders, rfl⟩ := h.beside
        exact hanchored
      have heq : ∀ {c : BookBuilder}, c.anchored = true → ¬c.OwnRef ref → shares ≠ 0 →
          c.onAddOrder ref side shares wire = c.insertOrder ref (toPrice wire) shares side false := by
        intro c hc href hz
        have hflag : decide (c.ownRefMin ≠ 0 ∧ ref ≥ c.ownRefMin) = false := decide_eq_false href
        unfold onAddOrder
        simp only [if_neg hz, hc, hflag]
        rfl
      change Abreast (b.onAddOrder ref side shares wire) (b'.onAddOrder ref side shares wire)
      by_cases hz : shares = 0
      · rw [onAddOrder, onAddOrder, if_pos hz, if_pos hz]
        exact h
      · rw [heq hanchored (of_decide_eq_false hb) hz, heq hanchored' (of_decide_eq_false hb') hz]
        exact h.insertOrder ref (toPrice wire) shares side
  | orderExecuted ref shares mn =>
      exact h.reduceOrder hsep.1 hb hb' (fun o ho hneeds => hsep.priced_of_execution rfl hsep.1 ho hneeds) shares
  | orderExecutedWithPrice ref shares mn price =>
      exact h.reduceOrder hsep.1 hb hb' (fun o ho hneeds => hsep.priced_of_execution rfl hsep.1 ho hneeds) shares
  | orderCancel ref shares => exact h.reduceOrder hsep.1 hb hb' (fun o ho hneeds => by cases hneeds) shares
  | orderDelete ref =>
      change Abreast (b.removeOrder ref) (b'.removeOrder ref)
      unfold removeOrder
      rcases h.erase hb hb' with ⟨herase, herase'⟩ | ⟨o, orders, orders', herase, herase', -, hout⟩
      · rw [herase, herase']
        exact h
      · rw [herase, herase']
        exact hout
  | orderReplace orig new shares wire =>
      change Abreast (b.onOrderReplace orig new shares wire) (b'.onOrderReplace orig new shares wire)
      unfold onOrderReplace
      rcases h.erase hb hb' with ⟨herase, herase'⟩ | ⟨o, orders, orders', herase, herase', hown, hout⟩
      · rw [herase, herase']
        exact h
      · rw [herase, herase']
        simp only [hown]
        split_ifs
        · exact hout
        · exact hout.insertOrder new (toPrice wire) shares o.side
  | tradeNonCross ref side shares wire mn =>
      refine h.onTradePrice fun hneeds => hsep.2.resolve_left ?_
      rw [placesAt, if_pos hneeds]
      exact Option.some_ne_none _
  | crossTrade shares wire mn =>
      change Abreast (if shares > 0 ∧ wire > 0 then b.onTradePrice (toPrice wire) else b)
        (if shares > 0 ∧ wire > 0 then b'.onTradePrice (toPrice wire) else b')
      split_ifs with hpos
      · refine h.onTradePrice fun hneeds => hsep.2.resolve_left ?_
        rw [placesAt, if_pos ⟨hpos, hneeds⟩]
        exact Option.some_ne_none _
      · exact h
  | _ => exact h

/-! ### The two runs -/

theorem Abreast.shown (h : Abreast b b') : b.shown = b'.shown := by
  obtain ⟨version, own, orders, rfl⟩ := h.beside
  rfl

/-- An own execution keeps its hands off the band, and the map keeps the orders apart. -/
def Kept (b : BookBuilder) (m : Itch.Body) : Prop := b.Calm m ∧ b.Separate m

theorem unwinds_apply (gone gone' : ℕ → Bool) :
    Unwinds BookBuilder.apply Kept (actsOnOwn gone) (actsOnOwn gone') fun b b' => Abreast b b' ∧ b.anchored = true where
  left h hm hown := ⟨h.1.hidden (hidden_apply h.1.map h.2 hown hm.1 hm.2.1), anchored_apply h.2 _⟩
  right h hm hown := by
    refine ⟨(h.1.symm.hidden (hidden_apply h.1.map' ?_ hown hm.1 hm.2.1)).symm, h.2⟩
    obtain ⟨version, own, orders, rfl⟩ := h.1.beside
    exact h.2
  both h hm _ hown hown' := ⟨abreast_apply h.1 h.2 hown hown' hm.2, anchored_apply h.2 _⟩

/-- The map of an anchored book stays in order along a run that keeps the orders apart. -/
theorem wf_run (msgs : List Itch.Body) (hmap : b.orders.WF) (hanchored : b.anchored = true)
    (hall : Along BookBuilder.apply Kept b msgs) : (msgs.foldl BookBuilder.apply b).orders.WF ∧ (msgs.foldl BookBuilder.apply b).anchored = true := by
  refine hall.keeps (P := fun b : BookBuilder => b.orders.WF ∧ b.anchored = true) (fun {b m} h hm => ⟨?_, anchored_apply h.2 m⟩) ⟨hmap, hanchored⟩
  by_cases hown : b.actsOnOwn (fun _ => false) m = true
  · exact (hidden_apply h.1 h.2 hown hm.1 hm.2.1).map
  · have hown' := Bool.eq_false_iff.mpr hown
    exact (abreast_apply (Abreast.refl h.1) h.2 hown' hown' hm.2).map

/-- **Own orders are not seen**: two feeds that are the same without the messages about own orders show the same
after each other message, and no message about an own order changes the version of the top. -/
theorem own_orders_unseen (hmap : b.orders.WF) (hanchored : b.anchored = true) (gone gone' : ℕ → Bool) (msgs msgs' : List Itch.Body)
    (hmsgs : Along BookBuilder.apply Kept b msgs) (hmsgs' : Along BookBuilder.apply Kept b msgs')
    (hsame : purge BookBuilder.apply (actsOnOwn gone) b msgs = purge BookBuilder.apply (actsOnOwn gone') b msgs') :
    observed BookBuilder.apply (actsOnOwn gone) shown b msgs = observed BookBuilder.apply (actsOnOwn gone') shown b msgs' ∧
      ∀ before m after, msgs = before ++ m :: after → (before.foldl BookBuilder.apply b).actsOnOwn gone m = true →
        ((before.foldl BookBuilder.apply b).apply m).topVersion = (before.foldl BookBuilder.apply b).topVersion := by
  refine ⟨(unwinds_apply gone gone').observed_eq (fun h => h.1.shown) msgs msgs' ⟨Abreast.refl hmap, hanchored⟩ hmsgs hmsgs' hsame, ?_⟩
  rintro before m after rfl hown
  obtain ⟨hmap', hanchored'⟩ := wf_run before hmap hanchored hmsgs.of_append
  have hm := hmsgs.append.1
  obtain ⟨own, orders, heq⟩ := (hidden_apply hmap' hanchored' hown hm.1 hm.2.1).frame
  rw [heq]

instance (b : BookBuilder) (m : Itch.Body) : Decidable (b.Calm m) := by
  cases m <;> dsimp only [Calm] <;> infer_instance

instance (b : BookBuilder) (m : Itch.Body) : Decidable (b.Apart m) := by
  cases m <;> dsimp only [Apart] <;> infer_instance

instance (b : BookBuilder) (m : Itch.Body) : Decidable (b.Kept m) :=
  inferInstanceAs (Decidable (b.Calm m ∧ b.Apart m ∧ (b.placesAt (.message m) = none ∨ ∀ e ∈ others b.orders.entries, e.2.price ≠ kNoPrice)))

/-- An own order is added, replaced and executed around a bid, and around a trade that has the levels counted again. -/
def mixedFeed : List Itch.Body :=
  [.addOrder 1000 .buy 5 20100, .addOrder 7 .buy 30 20000, .orderReplace 1000 1001 8 20200, .addOrder 8 .sell 20 40000,
    .orderExecuted 1001 3 1, .tradeNonCross 0 .buy 10 40000 2, .orderDelete 1001]

/-- The same feed without it. -/
def otherFeed : List Itch.Body := [.addOrder 7 .buy 30 20000, .addOrder 8 .sell 20 40000, .tradeNonCross 0 .buy 10 40000 2]

theorem own_orders_unseen_mixedFeed :
    observed BookBuilder.apply (actsOnOwn fun ref => ref ≥ 1000) shown anchoredBook mixedFeed =
      observed BookBuilder.apply (actsOnOwn fun ref => ref ≥ 1000) shown anchoredBook otherFeed :=
  (own_orders_unseen inv_anchoredBook.map (by decide +kernel) _ _ mixedFeed otherFeed (by decide +kernel) (by decide +kernel)
    (by decide +kernel)).1

/-- An order of reference 0 is kept in a free slot of the map, where an execution finds it. An own order that takes the slot
between the two sends the execution on to the next free slot, whose price is 0, and there the band goes. -/
theorem own_order_seen :
    let msgs : List Itch.Body := [.addOrder 0 .buy 5 20000, .addOrder 1014 .buy 5 20000, .orderExecuted 0 1 1]
    let msgs' : List Itch.Body := [.addOrder 0 .buy 5 20000, .orderExecuted 0 1 1]
    anchoredBook.orders.WF ∧ anchoredBook.anchored = true ∧ Along BookBuilder.apply Calm anchoredBook msgs ∧
      Along BookBuilder.apply Calm anchoredBook msgs' ∧
      purge BookBuilder.apply (actsOnOwn fun ref => ref ≥ 1000) anchoredBook msgs =
        purge BookBuilder.apply (actsOnOwn fun ref => ref ≥ 1000) anchoredBook msgs' ∧
      observed BookBuilder.apply (actsOnOwn fun ref => ref ≥ 1000) shown anchoredBook msgs ≠
        observed BookBuilder.apply (actsOnOwn fun ref => ref ≥ 1000) shown anchoredBook msgs' := by
  refine ⟨inv_anchoredBook.map, by decide +kernel, by decide +kernel, by decide +kernel, by decide +kernel, fun h => ?_⟩
  have hlow := congrArg (List.map Shown.bandLow) h
  revert hlow
  decide +kernel

end TickToTrade.Dut.BookBuilder
