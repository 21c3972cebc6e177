import TickToTrade.Dut.BookAnchor
import TickToTrade.Util.Run

/-!
# The representation invariant of the book

Over any feed of admissible messages the redundant views of the book agree with the
live orders in its map. A message is admissible when its references are not zero and
not reused while live, its shares fit in 30 bits and its price is one that the feed
can carry; after each message the sums of the levels must fit in 32 bits.

## What is proved

* `Inv.apply` and `Inv.clear` — one message, and one reset, keep the invariant.
* `book_views_agree` — so the five views agree in every reachable book.
-/

namespace TickToTrade.Dut

open Util

namespace BookBuilder

variable {b : BookBuilder} {r : Resting}

/-- The live orders, in the order of the map. -/
def resting (b : BookBuilder) : List Resting := b.orders.entries.map Prod.snd

/-- The shares of the live orders not our own at a price of a side. -/
def liveShares (b : BookBuilder) (s : Side) (p : ℤ) : ℕ := depth b.resting s p

/-- The sums of the levels fit in 32 bits. -/
def SumsBelow (b : BookBuilder) : Prop := ∀ s p, b.liveShares s p < 2 ^ 32

/-- Is an order with this reference live? -/
def Live (b : BookBuilder) (ref : ℕ) : Prop := (b.orders.get? ref).isSome = true

/-- The invariant. -/
structure Inv (b : BookBuilder) : Prop where
  /-- The order map is a well-formed table. -/
  map : b.orders.WF
  /-- Every order has shares and a price of the wire. -/
  orders : ∀ e ∈ b.orders.entries, e.2.Ok ∧ e.2.shares < 2 ^ 30
  /-- The sums describe the orders of the map. -/
  views : b.Views b.resting
  /-- The own orders are counted. -/
  own : b.own = b.resting.countP (·.own)
  /-- The configured ticks are positive. -/
  ticks : b.TicksOk

/-! ### What the sums leave alone -/

/-- The parts of the book that no operation on the sums touches. -/
structure Frame (b b' : BookBuilder) : Prop where
  orders : b'.orders = b.orders
  own : b'.own = b.own
  ownRefMin : b'.ownRefMin = b.ownRefMin
  baseTick : b'.baseTick = b.baseTick
  subDollarTick : b'.subDollarTick = b.subDollarTick

theorem Frame.refl (b : BookBuilder) : Frame b b := ⟨rfl, rfl, rfl, rfl, rfl⟩

theorem Frame.trans {b b' b'' : BookBuilder} (h : Frame b b') (h' : Frame b' b'') : Frame b b'' :=
  ⟨h'.orders.trans h.orders, h'.own.trans h.own, h'.ownRefMin.trans h.ownRefMin,
    h'.baseTick.trans h.baseTick, h'.subDollarTick.trans h.subDollarTick⟩

theorem Frame.foldl {α : Type} {f : BookBuilder → α → BookBuilder} (hf : ∀ b a, Frame b (f b a)) :
    ∀ (l : List α) (b : BookBuilder), Frame b (l.foldl f b) := by
  intro l
  induction l with
  | nil => exact Frame.refl
  | cons a l ih => intro b; exact (hf b a).trans (ih _)

theorem frame_unpark (b : BookBuilder) (n : ℕ) : Frame b (b.unpark n) := by
  simp only [unpark]; split_ifs <;> exact ⟨rfl, rfl, rfl, rfl, rfl⟩

theorem frame_addShares (b : BookBuilder) (s : Side) (p : ℤ) (n : ℕ) :
    Frame b (b.addShares s p n) := by
  unfold addShares; split_ifs <;> exact ⟨rfl, rfl, rfl, rfl, rfl⟩

theorem frame_removeShares (b : BookBuilder) (s : Side) (p : ℤ) (n : ℕ) :
    Frame b (b.removeShares s p n) := by
  unfold removeShares
  split_ifs
  · exact frame_unpark b n
  · exact ⟨rfl, rfl, rfl, rfl, rfl⟩

theorem frame_rebuildOne (b : BookBuilder) (r : Resting) : Frame b (b.rebuildOne r) := by
  unfold rebuildOne; split_ifs <;> exact ⟨rfl, rfl, rfl, rfl, rfl⟩

theorem frame_shiftLevels (b : BookBuilder) (s : Side) (lo hi : ℤ) :
    Frame b (b.shiftLevels s lo hi) := by
  refine Frame.trans (Frame.foldl (fun b i => ?_) _ b) ⟨rfl, rfl, rfl, rfl, rfl⟩
  split_ifs <;> exact ⟨rfl, rfl, rfl, rfl, rfl⟩

theorem frame_shiftBand (b : BookBuilder) (lo hi : ℤ) : Frame b (b.shiftBand lo hi) := by
  have h := (frame_shiftLevels b .buy lo hi).trans (frame_shiftLevels _ .sell lo hi)
  exact ⟨h.orders, h.own, h.ownRefMin, h.baseTick, h.subDollarTick⟩

theorem frame_rebuildBand (b : BookBuilder) (tick : ℤ) (ticks : ℕ) (lo hi : ℤ) :
    Frame b (b.rebuildBand tick ticks lo hi) := by
  have h := Frame.foldl (fun b (e : ℕ × Resting) => frame_rebuildOne b e.2) b.orders.entries
    { b with
      band := ⟨lo, hi, tick, DivBy.ofDivisor (u32 tick)⟩
      side := fun _ => BookSide.empty (2 * ticks + 1) (2 * ticks + 1)
      anchored := true, parkedShares := 0, parkedLo := kNoPrice, parkedHi := kNoPrice }
  exact ⟨h.orders, h.own, h.ownRefMin, h.baseTick, h.subDollarTick⟩

/-- An anchor moves the levels or counts again. -/
theorem anchor_eq_or (b : BookBuilder) (price : ℤ) (trusted : Bool) :
    ∃ tick ticks newMin newMax,
      let b0 := { b with
        topVersion := (b.topVersion + 1) % 2 ^ 32, reanchors := bumpIf b.anchored b.reanchors }
      b.anchor price trusted = b0.shiftBand newMin newMax ∨
        b.anchor price trusted = b0.rebuildBand tick ticks newMin newMax :=
  ⟨_, _, _, _, ite_eq_or_eq _ _ _⟩

theorem frame_anchor (b : BookBuilder) (price : ℤ) (trusted : Bool) :
    Frame b (b.anchor price trusted) := by
  obtain ⟨tick, ticks, newMin, newMax, h | h⟩ := anchor_eq_or b price trusted
  · rw [h]
    have hf := frame_shiftBand { b with
      topVersion := (b.topVersion + 1) % 2 ^ 32, reanchors := bumpIf b.anchored b.reanchors }
      newMin newMax
    exact ⟨hf.orders, hf.own, hf.ownRefMin, hf.baseTick, hf.subDollarTick⟩
  · rw [h]
    have hf := frame_rebuildBand { b with
      topVersion := (b.topVersion + 1) % 2 ^ 32, reanchors := bumpIf b.anchored b.reanchors }
      tick ticks newMin newMax
    exact ⟨hf.orders, hf.own, hf.ownRefMin, hf.baseTick, hf.subDollarTick⟩

theorem resting_of_frame {b b' : BookBuilder} (h : Frame b b') : b'.resting = b.resting := by
  rw [resting, resting, h.orders]

/-- The invariant depends on the map, the sums, the count of own orders and the
ticks only. -/
theorem Inv.of_frame (h : b.Inv) {b' : BookBuilder} (hf : Frame b b')
    (hv : b'.Views b.resting) : b'.Inv where
  map := by rw [hf.orders]; exact h.map
  orders := by rw [hf.orders]; exact h.orders
  views := by rw [resting_of_frame hf]; exact hv
  own := by rw [resting_of_frame hf, hf.own]; exact h.own
  ticks := ⟨by rw [hf.baseTick]; exact h.ticks.base_pos, by rw [hf.baseTick]; exact h.ticks.base_lt,
    by rw [hf.subDollarTick]; exact h.ticks.sub_lt⟩

/-! ### Trades and anchors -/

/-- Moving the band keeps the invariant. -/
theorem Inv.anchor (h : b.Inv) (hsum : b.SumsBelow) {price : ℤ} (hprice : price < 2 ^ 31)
    (trusted : Bool) : (b.anchor price trusted).Inv :=
  h.of_frame (frame_anchor b price trusted)
    (h.views.anchor h.ticks (fun e he => (h.orders e he).1) hsum hprice trusted)

theorem Inv.onTradePrice (h : b.Inv) (hsum : b.SumsBelow) {price : ℤ} (hprice : price < 2 ^ 31) :
    (b.onTradePrice price).Inv := by
  unfold BookBuilder.onTradePrice
  split_ifs
  · exact h.anchor hsum hprice true
  · exact h

/-! ### Orders -/

/-- The book after its map bound a new order and before the sums know of it. -/
theorem resting_insert (h : b.Inv) {ref : ℕ} (h0 : ref ≠ 0) (hnew : ¬ b.Live ref) (r : Resting) :
    (b.orders.insertOrAssign ref r).WF ∧
      (b.orders.insertOrAssign ref r).entries.Perm ((ref, r) :: b.orders.entries) := by
  obtain ⟨hwf, hperm⟩ := h.map.insertOrAssign h0 r
  rw [FlatHashMap.bind_of_absent] at hperm
  · exact ⟨hwf, hperm⟩
  · refine (FlatHashMap.get?_eq_none_iff h.map h0).1 ?_
    rw [Live, Option.not_isSome_iff_eq_none] at hnew
    exact hnew

theorem resting_insertOrder (b : BookBuilder) (ref : ℕ) (price : ℤ) (shares : ℕ) (side : Side)
    (own : Bool) :
    (b.insertOrder ref price shares side own).orders =
      b.orders.insertOrAssign ref (Resting.make price shares side own) := by
  simp only [insertOrder]
  split_ifs
  · rfl
  · exact (frame_addShares _ _ _ _).orders

/-- Fewer than 30 bits of shares are recorded as they are. -/
theorem Resting.make_eq {price : ℤ} {shares : ℕ} (h : shares < 2 ^ 30) (side : Side) (own : Bool) :
    Resting.make price shares side own = ⟨price, shares, side, own⟩ := by
  have : ¬ shares > Resting.kSharesMask := by unfold Resting.kSharesMask; omega
  simp only [Resting.make, if_neg this]

/-- **One more order** keeps the invariant, own or not. -/
theorem Inv.insertOrder (h : b.Inv) {ref : ℕ} (h0 : ref ≠ 0) (hnew : ¬ b.Live ref) (hr : r.Ok)
    (hlt : r.shares < 2 ^ 30)
    (hsum : (b.insertOrder ref r.price r.shares r.side r.own).SumsBelow) :
    (b.insertOrder ref r.price r.shares r.side r.own).Inv := by
  obtain ⟨hwf, hperm⟩ := resting_insert h h0 hnew r
  have hmk : Resting.make r.price r.shares r.side r.own = r := Resting.make_eq hlt _ _
  have hmap := resting_insertOrder b ref r.price r.shares r.side r.own
  rw [hmk] at hmap
  set b' : BookBuilder := { b with orders := b.orders.insertOrAssign ref r } with hb'
  have hres : b.insertOrder ref r.price r.shares r.side r.own =
      if r.own then { b' with own := b'.own + 1 } else b'.addShares r.side r.price r.shares := by
    rw [BookBuilder.insertOrder, hmk]
  have hrest : (b.insertOrder ref r.price r.shares r.side r.own).resting.Perm (r :: b.resting) := by
    rw [resting, hmap]; exact hperm.map Prod.snd
  have hviews : b'.Views b.resting := h.views.congr rfl rfl rfl rfl rfl
  refine ⟨by rw [hmap]; exact hwf, fun e he => ?_, Views.perm ?_ hrest.symm, ?_, ?_⟩
  · rw [hmap] at he
    rcases List.mem_cons.1 (hperm.mem_iff.1 he) with rfl | he
    · exact ⟨hr, hlt⟩
    · exact h.orders e he
  · rw [hres]
    by_cases ho : r.own = true
    · rw [if_pos ho]
      exact (hviews.cons_own ho).congr rfl rfl rfl rfl rfl
    · rw [if_neg ho]
      rw [Bool.not_eq_true] at ho
      have hsum' : depth b.resting r.side r.price + r.shares < 2 ^ 32 := by
        have := hsum r.side r.price
        rw [liveShares, depth_perm hrest, depth_cons_same ho, Function.update_self] at this
        exact this
      unfold BookBuilder.addShares
      by_cases hb : b'.band.inBand r.price = true
      · rw [if_neg (by rw [hb]; decide)]
        exact hviews.addLevel ho hr.2 hb hr.1 hsum'
      · rw [Bool.not_eq_true] at hb
        rw [if_pos (by rw [hb]; decide)]
        refine Views.park (hviews.congr rfl rfl rfl rfl rfl) ho hr.2 hb fun r' hr' => ?_
        obtain ⟨e, he, rfl⟩ := List.mem_map.1 hr'
        exact (h.orders e he).1.1
  · rw [hrest.countP_eq, List.countP_cons, ← h.own, hres]
    split_ifs with ho
    · rfl
    · exact (frame_addShares b' _ _ _).own
  · rw [hres]
    split_ifs
    · exact ⟨h.ticks.base_pos, h.ticks.base_lt, h.ticks.sub_lt⟩
    · have hf := frame_addShares b' r.side r.price r.shares
      exact ⟨by rw [hf.baseTick]; exact h.ticks.base_pos, by rw [hf.baseTick]; exact h.ticks.base_lt,
        by rw [hf.subDollarTick]; exact h.ticks.sub_lt⟩

/-- The shares of an order leave the sums before its record leaves the list. -/
theorem Views.removeAll {L : List Resting} (h : b.Views (r :: L)) (hr : r.Ok) (ho : r.own = false) :
    (b.removeShares r.side r.price r.shares).Views L :=
  (h.removeShares ho hr.2 le_rfl).tail_zero (Nat.sub_self _)

theorem orders_countOut (b : BookBuilder) (o : Resting) : (b.countOut o).orders = b.orders := by
  unfold countOut
  split_ifs
  · rfl
  · exact (frame_removeShares _ _ _ _).orders

/-- **One order fewer** keeps the invariant, own or not. -/
theorem Inv.countOut (h : b.Inv) {orders : FlatHashMap mix Resting} (hwf : orders.WF) {ref : ℕ}
    (hperm : b.orders.entries.Perm ((ref, r) :: orders.entries)) :
    ({ b with orders := orders }.countOut r).Inv := by
  set b' : BookBuilder := { b with orders := orders } with hb'
  have hrest : b.resting.Perm (r :: b'.resting) := hperm.map Prod.snd
  have hr := (h.orders (ref, r) (hperm.mem_iff.2 List.mem_cons_self)).1
  have hmap := orders_countOut b' r
  have hviews : b'.Views (r :: b'.resting) := (h.views.perm hrest).congr rfl rfl rfl rfl rfl
  have hcount : b.own = b'.resting.countP (·.own) + (if r.own then 1 else 0) := by
    rw [h.own, hrest.countP_eq, List.countP_cons]
  have hrest' : (b'.countOut r).resting = b'.resting := by rw [resting, hmap]; rfl
  refine ⟨by rw [hmap]; exact hwf, fun e he => ?_, ?_, ?_, ?_⟩
  · rw [hmap] at he
    exact h.orders e (hperm.mem_iff.2 (List.mem_cons_of_mem _ he))
  · rw [hrest']
    unfold BookBuilder.countOut
    split_ifs with ho
    · exact (hviews.tail_own ho).congr rfl rfl rfl rfl rfl
    · exact hviews.removeAll hr (by simpa using ho)
  · rw [hrest']
    unfold BookBuilder.countOut
    split_ifs with ho
    · rw [if_pos ho] at hcount
      change b.own - 1 = _
      omega
    · rw [if_neg ho] at hcount
      rw [(frame_removeShares b' _ _ _).own]
      exact hcount
  · unfold BookBuilder.countOut
    split_ifs
    · exact ⟨h.ticks.base_pos, h.ticks.base_lt, h.ticks.sub_lt⟩
    · have hf := frame_removeShares b' r.side r.price r.shares
      exact ⟨by rw [hf.baseTick]; exact h.ticks.base_pos, by rw [hf.baseTick]; exact h.ticks.base_lt,
        by rw [hf.subDollarTick]; exact h.ticks.sub_lt⟩

/-- A deletion keeps the invariant. -/
theorem Inv.removeOrder (h : b.Inv) (ref : ℕ) : (b.removeOrder ref).Inv := by
  unfold BookBuilder.removeOrder
  rcases h.map.erase_cases ref with hno | ⟨o, orders, herase, -, -, hwf, -, hperm⟩
  · rw [hno]; exact h
  · rw [herase]; exact h.countOut hwf hperm

/-- A replacement keeps the invariant. -/
theorem Inv.onOrderReplace (h : b.Inv) {orig new shares wire : ℕ} (h0 : new ≠ 0)
    (hnew : new = orig ∨ ¬ b.Live new) (hshares : shares < 2 ^ 30) (hwire : wire ≤ 2000000000)
    (hsum : (b.onOrderReplace orig new shares wire).SumsBelow) :
    (b.onOrderReplace orig new shares wire).Inv := by
  unfold BookBuilder.onOrderReplace at hsum ⊢
  rcases h.map.erase_cases orig with hno | ⟨o, orders, herase, -, -, hwf, hfilter, hperm⟩
  · rw [hno]; exact h
  · rw [herase] at hsum ⊢
    have hinv := h.countOut hwf hperm
    have hmap : ({ b with orders := orders }.countOut o).orders = orders := orders_countOut _ o
    set b1 := { b with orders := orders }.countOut o with hb1
    by_cases hs : shares = 0
    · simp only [← hb1, if_pos hs]; exact hinv
    · simp only [← hb1, if_neg hs] at hsum ⊢
      have habs : ¬ b1.Live new := by
        rw [Live, hmap, Option.not_isSome_iff_eq_none, FlatHashMap.get?_eq_none_iff hwf h0]
        intro v hv
        have hin := List.mem_filter.1 (hfilter.mem_iff.1 hv)
        rcases hnew with rfl | hnew
        · simp at hin
        · rw [Live, Option.not_isSome_iff_eq_none, FlatHashMap.get?_eq_none_iff h.map h0] at hnew
          exact hnew v hin.1
      have hprice : toPrice wire = (wire : ℤ) := toPrice_of_lt (by omega)
      have hw : Band.Wire (wire : ℤ) := ⟨by omega, by omega⟩
      rw [hprice] at hsum ⊢
      exact hinv.insertOrder (r := ⟨wire, shares, o.side, o.own⟩) h0 habs
        ⟨by change 0 < shares; omega, hw⟩ hshares hsum

/-- An added order keeps the invariant. -/
theorem Inv.onAddOrder (h : b.Inv) (hsum0 : b.SumsBelow) {ref : ℕ} {s : Side} {shares wire : ℕ}
    (h0 : ref ≠ 0) (hnew : ¬ b.Live ref) (hshares : shares < 2 ^ 30) (hwire : wire ≤ 2000000000)
    (hsum : (b.onAddOrder ref s shares wire).SumsBelow) : (b.onAddOrder ref s shares wire).Inv := by
  unfold BookBuilder.onAddOrder at hsum ⊢
  by_cases hs : shares = 0
  · rw [if_pos hs]; exact h
  · rw [if_neg hs] at hsum ⊢
    have hprice : toPrice wire = (wire : ℤ) := toPrice_of_lt (by omega)
    have hw : Band.Wire (wire : ℤ) := ⟨by omega, by omega⟩
    simp only [hprice] at hsum ⊢
    set own : Bool := decide (b.ownRefMin ≠ 0 ∧ ref ≥ b.ownRefMin) with hown
    set b1 := if (!b.anchored) = true then b.anchor wire false else b with hb1
    have hinv : b1.Inv ∧ b1.orders = b.orders := by
      rw [hb1]; split_ifs
      · exact ⟨h.anchor hsum0 hw.2 false, (frame_anchor b _ _).orders⟩
      · exact ⟨h, rfl⟩
    exact hinv.1.insertOrder (r := ⟨wire, shares, s, own⟩) h0 (by rw [Live, hinv.2]; exact hnew)
      ⟨by change 0 < shares; omega, hw⟩ hshares hsum

/-- An execution or a cancel keeps the invariant. -/
theorem Inv.reduceOrder (h : b.Inv) (hsum0 : b.SumsBelow) {ref : ℕ} (h0 : ref ≠ 0) (shares : ℕ)
    (trade : Bool) : (b.reduceOrder ref shares trade).Inv := by
  unfold BookBuilder.reduceOrder
  cases hfind : b.orders.find ref with
  | none => exact h
  | some i =>
    simp only
    obtain ⟨hi, hkey⟩ := (FlatHashMap.find_eq_some_iff h.map h0).1 hfind
    set o := b.orders.valueAt i with ho
    have hmem : (ref, o) ∈ b.orders.entries := FlatHashMap.mem_entries.2 ⟨h0, i, hi, hkey, rfl⟩
    obtain ⟨hok, hlt⟩ : o.Ok ∧ o.shares < 2 ^ 30 := h.orders _ hmem
    set b1 := if (trade && b.needsAnchor o.price) = true then b.anchor o.price true else b with hb1
    have hinv : b1.Inv ∧ b1.orders = b.orders := by
      rw [hb1]; split_ifs
      · exact ⟨h.anchor hsum0 hok.2.2 true, (frame_anchor b _ _).orders⟩
      · exact ⟨h, rfl⟩
    obtain ⟨hb1i, hb1o⟩ := hinv
    set gone := if shares < o.shares then shares else o.shares with hgone
    have hle : gone ≤ o.shares := by rw [hgone]; split_ifs <;> omega
    set b2 := if (!o.own) = true then b1.removeShares o.side o.price gone else b1 with hb2
    have hf : Frame b1 b2 := by
      rw [hb2]; split_ifs
      · exact frame_removeShares _ _ _ _
      · exact Frame.refl _
    have hb2o : b2.orders = b.orders := hf.orders.trans hb1o
    set left : Resting := { o with shares := o.shares - gone } with hleft
    have hset : o.setShares (o.shares - gone) = left := by
      simp only [Resting.setShares, hleft]
      rw [Nat.mod_eq_of_lt (by omega)]
    have hrest : b.resting.Perm (o :: (b.orders.entries.filter (·.1 ≠ ref)).map Prod.snd) :=
      (FlatHashMap.perm_cons_filter h.map.nodup_keys hmem).map Prod.snd
    -- the sums show the order with the shares that are left
    have hviews : b2.Views (left :: (b.orders.entries.filter (·.1 ≠ ref)).map Prod.snd) := by
      have hv : b1.Views (o :: (b.orders.entries.filter (·.1 ≠ ref)).map Prod.snd) := by
        refine Views.perm ?_ hrest
        have := hb1i.views
        rwa [resting, hb1o] at this
      rw [hb2]
      by_cases hown : o.own = true
      · simp only [hown, Bool.not_true, Bool.false_eq_true, if_false]
        exact (hv.tail_own hown).cons_own hown
      · rw [Bool.not_eq_true] at hown
        simp only [hown, Bool.not_false, if_true]
        exact hv.removeShares hown hok.2 hle
    have hcount : b.own = (if o.own then 1 else 0) +
        ((b.orders.entries.filter (·.1 ≠ ref)).map Prod.snd).countP (·.own) := by
      rw [h.own, hrest.countP_eq, List.countP_cons, Nat.add_comm]
    have hown2 : b2.own = b.own := hf.own.trans (by
      rw [hb1]; split_ifs
      · exact (frame_anchor b _ _).own
      · rfl)
    have hticks : b2.TicksOk := ⟨by rw [hf.baseTick]; exact hb1i.ticks.base_pos,
      by rw [hf.baseTick]; exact hb1i.ticks.base_lt, by rw [hf.subDollarTick]; exact hb1i.ticks.sub_lt⟩
    obtain ⟨hwf, hbind⟩ := h.map.setValueAt hi (by rw [hkey]; exact h0) left
    rw [hkey] at hbind
    have hother : ∀ e ∈ b.orders.entries.filter (·.1 ≠ ref), e.2.Ok ∧ e.2.shares < 2 ^ 30 :=
      fun e he => h.orders e (List.mem_filter.1 he).1
    rw [hset, hb2o]
    by_cases hall : o.shares = gone
    · -- the order is gone
      rw [if_pos hall]
      have hkey' : (b.orders.setValueAt i left).keyAt i = ref := by
        simp [FlatHashMap.setValueAt, hkey]
      obtain ⟨hwf', herase⟩ := hwf.eraseAt (i := i) hi (by rw [hkey']; exact h0)
      rw [hkey'] at herase
      have hfil : ((b.orders.setValueAt i left).eraseAt i).entries.Perm
          (b.orders.entries.filter (·.1 ≠ ref)) := by
        refine herase.trans ((hbind.filter _).trans ?_)
        simp [FlatHashMap.bind, List.filter_filter]
      have hrest' := hfil.map Prod.snd
      refine ⟨hwf', fun e he => hother e (hfil.mem_iff.1 he), ?_, ?_,
        ⟨hticks.base_pos, hticks.base_lt, hticks.sub_lt⟩⟩
      · have h0' : left.shares = 0 := by rw [hleft]; simp only; omega
        exact ((hviews.tail_zero h0').perm hrest'.symm).congr rfl rfl rfl rfl rfl
      · change (if o.own = true then b2.own - 1 else b2.own) =
          (((b.orders.setValueAt i left).eraseAt i).entries.map Prod.snd).countP (·.own)
        rw [hrest'.countP_eq]
        split_ifs at hcount ⊢ <;> omega
    · rw [if_neg hall]
      have hrest' := hbind.map Prod.snd
      refine ⟨hwf, fun e he => ?_, ?_, ?_, ⟨hticks.base_pos, hticks.base_lt, hticks.sub_lt⟩⟩
      · rcases List.mem_cons.1 (hbind.mem_iff.1 he) with rfl | he
        · refine ⟨⟨?_, hok.2⟩, ?_⟩ <;> simp only [hleft] <;> omega
        · exact hother e he
      · exact (hviews.perm hrest'.symm).congr rfl rfl rfl rfl rfl
      · change b2.own = List.countP (fun r => r.own) ((b.orders.setValueAt i left).entries.map Prod.snd)
        rw [hrest'.countP_eq]
        simp only [FlatHashMap.bind, List.map_cons, List.countP_cons, hleft]
        omega

/-- A reset keeps the invariant: no order is left. -/
theorem Inv.clear (h : b.Inv) : b.clear.Inv := by
  have hd : ∀ s, depth [] s = fun _ => 0 := fun s => rfl
  by_cases hc : wrapNeg b.orders.size = 0 ∧ b.own = 0 ∧ b.parkedShares = 0
  · have hres : b.clear = { b with
        topVersion := (b.topVersion + 1) % 2 ^ 32
        side := fun s => { b.side s with best := kNoPrice } } := by
      simp only [BookBuilder.clear, hc, and_self, if_true]
    have hcount := h.map.count
    have hsize : b.orders.size = 0 := by
      have h0 := hc.1
      unfold wrapNeg at h0
      rw [if_neg (by omega)] at h0
      exact h0
    have hnil : b.orders.entries = [] := by
      rw [hsize] at hcount
      exact List.length_eq_zero_iff.1 (by omega)
    have hrest : b.resting = [] := by rw [resting, hnil]; rfl
    have hv := h.views
    rw [hrest] at hv
    rw [hres]
    refine h.of_frame ⟨rfl, rfl, rfl, rfl, rfl⟩ ?_
    rw [hrest]
    refine ⟨hv.grid, fun s => ?_, hv.parked, fun _ r hr => absurd hr (by simp)⟩
    have hs := hv.side s
    exact ⟨⟨hs.toLevels.levels, hs.toLevels.size, hs.toLevels.wire⟩,
      ⟨hs.toBits.wf, hs.toBits.room, hs.toBits.has⟩, IsBest.none fun p hp => hp.2 rfl⟩
  · have hres : b.clear = { b with
        topVersion := (b.topVersion + 1) % 2 ^ 32
        side := fun s =>
          { b.side s with size := fun _ => 0, bits := (b.side s).bits.clearAll, best := kNoPrice }
        orders := b.orders.clear
        own := 0, parkedShares := 0, parkedLo := kNoPrice, parkedHi := kNoPrice } := by
      simp only [BookBuilder.clear, if_neg hc]
    rw [hres]
    have hnil : (b.orders.clear).entries = [] := FlatHashMap.entries_clear _
    refine ⟨FlatHashMap.wf_clear _, fun e he => ?_, ?_, ?_,
      ⟨h.ticks.base_pos, h.ticks.base_lt, h.ticks.sub_lt⟩⟩
    · simp [hnil] at he
    · simp only [resting, hnil, List.map_nil]
      refine ⟨h.views.grid, fun s => ?_, rfl, fun hp => absurd rfl hp⟩
      have hs := h.views.side s
      refine ⟨⟨hs.toLevels.levels, fun _ _ => rfl, fun p hp => absurd rfl hp⟩,
        ⟨LevelBits.wf_clearAll _, hs.toBits.room, fun i => ?_⟩, IsBest.none fun p hp => hp.2 rfl⟩
      simp
    · simp [resting, hnil]

/-! ### Feeds -/

/-- One event of a feed: a message, or the reset at the start of a session. -/
inductive Op where
  /-- An ITCH message. -/
  | message (body : Itch.Body)
  /-- `clear`. -/
  | clear

/-- The book after one event. -/
def step (b : BookBuilder) : Op → BookBuilder
  | .message body => b.apply body
  | .clear => b.clear

instance (b : BookBuilder) (ref : ℕ) : Decidable (b.Live ref) := by
  unfold Live; infer_instance

/-- The events of a well-behaved feed: references are not zero and not reused while
live, shares fit in 30 bits, and prices are those the feed can carry. -/
def Admissible (b : BookBuilder) : Op → Prop
  | .message (.addOrder ref _ shares price) =>
      ref ≠ 0 ∧ ¬ b.Live ref ∧ shares < 2 ^ 30 ∧ price ≤ 2000000000
  | .message (.orderExecuted ref _ _) => ref ≠ 0
  | .message (.orderExecutedWithPrice ref _ _ _) => ref ≠ 0
  | .message (.orderCancel ref _) => ref ≠ 0
  | .message (.orderReplace orig new shares price) =>
      new ≠ 0 ∧ (new = orig ∨ ¬ b.Live new) ∧ shares < 2 ^ 30 ∧ price ≤ 2000000000
  | .message (.tradeNonCross _ _ _ price _) => price ≤ 2000000000
  | .message (.crossTrade _ price _) => price ≤ 2000000000
  | _ => True

/-- **Step lemma**: an admissible event keeps the invariant. -/
theorem Inv.step (h : b.Inv) (hsum : b.SumsBelow) {op : Op} (ha : b.Admissible op)
    (hsum' : (b.step op).SumsBelow) : (b.step op).Inv := by
  cases op with
  | clear => exact h.clear
  | message body =>
    cases body with
    | addOrder ref side shares price =>
      exact h.onAddOrder hsum ha.1 ha.2.1 ha.2.2.1 ha.2.2.2 hsum'
    | orderExecuted ref shares mn => exact h.reduceOrder hsum ha shares true
    | orderExecutedWithPrice ref shares mn price => exact h.reduceOrder hsum ha shares true
    | orderCancel ref shares => exact h.reduceOrder hsum ha shares false
    | orderDelete ref => exact h.removeOrder ref
    | orderReplace orig new shares price =>
      exact h.onOrderReplace ha.1 ha.2.1 ha.2.2.1 ha.2.2.2 hsum'
    | tradeNonCross ref side shares price mn =>
      have hp : price ≤ 2000000000 := ha
      exact h.onTradePrice hsum (by rw [toPrice_of_lt (by omega)]; omega)
    | crossTrade shares price mn =>
      have hp : price ≤ 2000000000 := ha
      change (if shares > 0 ∧ price > 0 then b.onTradePrice (toPrice price) else b).Inv
      split_ifs
      · exact h.onTradePrice hsum (by rw [toPrice_of_lt (by omega)]; omega)
      · exact h
    | _ => exact h

/-- A configuration that the program can be given: positive ticks, 32-bit prices. -/
structure ConfigValid (cfg : BookConfig) : Prop where
  tick_pos : 0 < cfg.tickWire
  tick_lt : cfg.tickWire < 2 ^ 31
  sub_nonneg : 0 ≤ cfg.subDollarTickWire
  sub_lt : cfg.subDollarTickWire < 2 ^ 31
  anchor_lt : cfg.anchorPrice < 2 ^ 31

/-- The book that a configuration builds, before it is anchored. -/
theorem inv_unanchored {cfg : BookConfig} (h : ConfigValid cfg) :
    (ofConfig { cfg with anchorPrice := kNoPrice }).Inv := by
  have htick := h.tick_pos
  have hres : (ofConfig { cfg with anchorPrice := kNoPrice }).orders =
      (FlatHashMap.empty cfg.maxOrders : FlatHashMap mix Resting) := rfl
  have hnil : (ofConfig { cfg with anchorPrice := kNoPrice }).orders.entries = [] := by
    rw [hres]; exact FlatHashMap.entries_empty _
  refine ⟨by rw [hres]; exact FlatHashMap.wf_empty _, fun e he => ?_, ?_, ?_,
    ⟨h.tick_pos, h.tick_lt, h.sub_lt⟩⟩
  · rw [hnil] at he; simp at he
  · rw [resting, hnil]
    refine ⟨⟨h.tick_pos, h.tick_lt, rfl, le_rfl, by norm_num [ofConfig], dvd_zero _⟩, fun s => ?_, rfl,
      fun hc => absurd rfl hc⟩
    refine BookSide.shows_empty (fun i => ?_) 1 (by omega)
    change i < 0 ↔ 0 + (i : ℤ) * cfg.tickWire ≤ -1
    have := mul_nonneg (Int.natCast_nonneg i) htick.le
    omega
  · rw [resting, hnil]; rfl

/-- A book that a configuration builds satisfies the invariant. -/
theorem inv_ofConfig {cfg : BookConfig} (h : ConfigValid cfg) : (ofConfig cfg).Inv := by
  have h0 := inv_unanchored h
  by_cases hc : cfg.anchorPrice ≠ kNoPrice
  · have hres : ofConfig cfg =
        (ofConfig { cfg with anchorPrice := kNoPrice }).anchor cfg.anchorPrice true := by
      simp only [ofConfig, if_pos hc, ne_eq, not_true_eq_false, if_false]
    have hnil : (ofConfig { cfg with anchorPrice := kNoPrice }).resting = [] := by
      change ((FlatHashMap.empty cfg.maxOrders : FlatHashMap mix Resting).entries).map Prod.snd = []
      rw [FlatHashMap.entries_empty]; rfl
    rw [hres]
    refine h0.anchor (fun s p => ?_) h.anchor_lt true
    rw [liveShares, hnil]
    exact Nat.two_pow_pos 32
  · have hres : ofConfig cfg = ofConfig { cfg with anchorPrice := kNoPrice } := by
      simp only [ofConfig, if_neg hc, ne_eq, not_true_eq_false, if_false]
    rw [hres]
    exact h0

/-- An admissible event leads from one book to the next. -/
def Step (b b' : BookBuilder) : Prop := ∃ op, b.Admissible op ∧ b' = b.step op ∧ b'.SumsBelow

/-- The books that admissible feeds lead to. -/
def Reachable (cfg : BookConfig) (b : BookBuilder) : Prop :=
  Relation.ReflTransGen Step (ofConfig cfg) b

theorem sumsBelow_ofConfig (cfg : BookConfig) : (ofConfig cfg).SumsBelow := by
  have hord : (ofConfig cfg).orders = (FlatHashMap.empty cfg.maxOrders : FlatHashMap mix Resting) := by
    unfold ofConfig
    simp only
    split_ifs
    · exact (frame_anchor _ _ _).orders
    · rfl
  intro s p
  rw [liveShares, resting, hord, FlatHashMap.entries_empty]
  exact Nat.two_pow_pos 32

/-- **Run lemma**: every reachable book satisfies the invariant. -/
theorem Reachable.inv {cfg : BookConfig} (h : ConfigValid cfg) (hr : Reachable cfg b) :
    b.Inv ∧ b.SumsBelow := by
  refine invariant_of_run (I := fun b => b.Inv ∧ b.SumsBelow) ?_ hr
    ⟨inv_ofConfig h, sumsBelow_ofConfig cfg⟩
  rintro x y ⟨hx, hsum⟩ ⟨op, ha, rfl, hsum'⟩
  exact ⟨hx.step hsum ha hsum', hsum'⟩

/-! ### The five views -/

/-- Is the price one of the levels that the band has? -/
def HasLevel (b : BookBuilder) (p : ℤ) : Prop :=
  (b.band.minPrice ≤ p ∧ p ≤ b.band.maxPrice) ∧ b.band.tickWire ∣ p - b.band.minPrice

instance (b : BookBuilder) (p : ℤ) : Decidable (b.HasLevel p) := by
  unfold HasLevel; infer_instance

theorem hasLevel_iff (h : b.band.OnGrid) {p : ℤ} (hp : Band.Wire p) :
    b.HasLevel p ↔ b.band.inBand p = true := by
  rw [h.inBand_iff hp, HasLevel, dvd_sub_left h.aligned]

/-- The five views agree with the live orders. -/
structure ViewsAgree (b : BookBuilder) : Prop where
  /-- Every level has the shares of the live orders at its price. -/
  sizes : ∀ s i, b.band.priceOf i ≤ b.band.maxPrice →
    (b.side s).size i = b.liveShares s (b.band.priceOf i)
  /-- A bit is set exactly for the levels with shares. -/
  bits : ∀ s i, (b.side s).bits.has i = true ↔
    b.band.priceOf i ≤ b.band.maxPrice ∧ (b.side s).size i ≠ 0
  /-- The best prices are those of the outermost levels with shares. -/
  best : ∀ s, IsBest s (fun p => ∃ i, p = b.band.priceOf i ∧ p ≤ b.band.maxPrice ∧
    (b.side s).size i ≠ 0) (b.side s).best
  /-- The parked shares are those of the live orders without a level. -/
  parked : b.parkedShares = sumOn (fun r => !r.own && !decide (b.HasLevel r.price)) b.resting
  /-- The parked bounds enclose the prices of those orders. -/
  bounds : b.parkedShares ≠ 0 → ∀ r ∈ b.resting, r.own = false → ¬ b.HasLevel r.price →
    b.parkedLo ≤ r.price ∧ r.price ≤ b.parkedHi
  /-- The own orders are counted. -/
  own : b.own = b.resting.countP (·.own)

instance (b : BookBuilder) : (op : Op) → Decidable (b.Admissible op)
  | .message (.addOrder ref _ shares price) => inferInstanceAs
      (Decidable (ref ≠ 0 ∧ ¬ b.Live ref ∧ shares < 2 ^ 30 ∧ price ≤ 2000000000))
  | .message (.orderExecuted ref _ _) => inferInstanceAs (Decidable (ref ≠ 0))
  | .message (.orderExecutedWithPrice ref _ _ _) => inferInstanceAs (Decidable (ref ≠ 0))
  | .message (.orderCancel ref _) => inferInstanceAs (Decidable (ref ≠ 0))
  | .message (.orderReplace orig new shares price) => inferInstanceAs
      (Decidable (new ≠ 0 ∧ (new = orig ∨ ¬ b.Live new) ∧ shares < 2 ^ 30 ∧ price ≤ 2000000000))
  | .message (.tradeNonCross _ _ _ price _) => inferInstanceAs (Decidable (price ≤ 2000000000))
  | .message (.crossTrade _ price _) => inferInstanceAs (Decidable (price ≤ 2000000000))
  | .message (.systemEvent _) => isTrue trivial
  | .message .systemEventShort => isTrue trivial
  | .message (.stockDirectory _) => isTrue trivial
  | .message .stockDirectoryShort => isTrue trivial
  | .message (.stockTradingAction _) => isTrue trivial
  | .message .stockTradingActionShort => isTrue trivial
  | .message (.orderDelete _) => isTrue trivial
  | .message .other => isTrue trivial
  | .clear => isTrue trivial

/-- The shares of all live orders. -/
def totalShares (b : BookBuilder) : ℕ := (b.resting.map (·.shares)).sum

/-- Levels sum at most to everything that is live. -/
theorem sumsBelow_of_total (h : b.totalShares < 2 ^ 32) : b.SumsBelow := by
  intro s p
  refine lt_of_le_of_lt ?_ h
  calc b.liveShares s p ≤ sumOn (fun _ => true) b.resting := sumOn_le_of_imp fun _ _ _ => rfl
    _ = b.totalShares := by simp [sumOn, totalShares]

/-- A feed of admissible events that never leaves more shares live than a level can
count, checked event by event. -/
def feedOk : BookBuilder → List Op → Bool
  | _, [] => true
  | b, op :: ops => b.Admissible op && (b.step op).totalShares < 2 ^ 32 && feedOk (b.step op) ops

theorem reachable_of_feedOk {cfg : BookConfig} : ∀ (ops : List Op) {b : BookBuilder},
    Reachable cfg b → feedOk b ops = true → Reachable cfg (ops.foldl step b) := by
  intro ops
  induction ops with
  | nil => intro b hb _; exact hb
  | cons op ops ih =>
    intro b hb h
    simp only [feedOk, Bool.and_eq_true, decide_eq_true_eq] at h
    exact ih (hb.tail ⟨op, h.1.1, rfl, sumsBelow_of_total h.1.2⟩) h.2

/-- A narrow book with a sub-dollar tick and own orders. -/
def exampleConfig : BookConfig :=
  { tickWire := 100, subDollarTickWire := 1, bandTicks := 4, maxOrders := 16, ownRefMin := 1000 }

/-- A short feed: two bids, one of them our own, an offer out of the band, and an
execution that moves the band to it. -/
def exampleFeed : List Op :=
  [.message (.addOrder 1 .buy 30 20000), .message (.addOrder 1000 .buy 5 20000),
    .message (.addOrder 2 .sell 40 30000), .message (.orderExecuted 2 15 7)]

example : let b := exampleFeed.foldl step (ofConfig exampleConfig)
    (b.bestBid, b.bestAsk, b.parkedShares, b.own, b.reanchors) = (kNoPrice, 30000, 30, 1, 1) := by
  decide +kernel

end BookBuilder

end TickToTrade.Dut
