import TickToTrade.Lob.BookQueues

/-!
# Levels that have room for their shares

Whether a level is empty is decided by its 32-bit word of shares, not by its queue. The two
agree as long as the shares of the orders in each queue fit the word (`Roomy`). Every
operation keeps the best prices right if the levels have room after it (`Upright`), whatever
handles it is given: a handle that is not an order's does nothing, since only the orders'
cells have shares.
-/

namespace TickToTrade.OrderBook

open Util

variable {b b' : OrderBook} {A : Sides ℕ} {s : Side} {o : Resting ℕ} {p : ℤ} {h q : ℕ}

/-! ### What the book should say -/

/-- The shares of the orders in the queue of a level. -/
def queuedAt (b : OrderBook) (s : Side) (p : ℤ) : ℕ := ((b.ordersAtLevel s p).map Order.qty).sum

/-- Do the shares of the orders in each queue fit a 32-bit word? -/
def Roomy (b : OrderBook) : Prop := ∀ s p, b.queuedAt s p < 2 ^ 32

/-- The best prices are the best ones at which an order rests, and a level has no shares
exactly when no order rests there. -/
structure Judged (b : OrderBook) : Prop where
  best : ∀ s, IsBest s (fun p => b.ordersAtLevel s p ≠ []) (b.best s)
  empty : ∀ s p, b.volumeAt s p = 0 ↔ b.ordersAtLevel s p = []

namespace Queued

theorem ordersAtLevel_ne_nil (hb : Queued b A) (s : Side) (p : ℤ) :
    b.ordersAtLevel s p ≠ [] ↔ ∃ o ∈ A s, o.price = p := by
  rw [ordersAtLevel_eq_map, Ne, List.map_eq_nil_iff, hb.handlesAtLevel_eq, keys, List.map_eq_nil_iff, level_eq_nil_iff]
  push Not
  rfl

theorem queuedAt_eq (hb : Queued b A) (s : Side) (p : ℤ) : b.queuedAt s p = shares (level (A s) p) := by
  rw [queuedAt, ordersAtLevel_eq_map, hb.handlesAtLevel_eq, keys, List.map_map, List.map_map, shares]
  refine congrArg List.sum (List.map_congr_left fun o ho => ?_)
  exact hb.order_qty (mem_level.mp ho).1

end Queued

theorem Holds.judged (hb : Holds b A) : Judged b where
  best s := by
    rw [hb.best s]
    exact (isBest_bestOf (hb.sorted s)).congr fun p => hb.ordersAtLevel_ne_nil s p
  empty s p := by
    rw [hb.volumeAt_eq, shares_eq_zero_iff fun x hx => hb.pos s x (mem_level.mp hx).1, ← not_iff_not, ← Ne, ← Ne,
      hb.ordersAtLevel_ne_nil, Ne, level_eq_nil_iff]
    push Not
    rfl

/-! ### Only orders have shares -/

/-- The cells with shares are those of resting orders. -/
def Owned (b : OrderBook) : Prop :=
  ∀ h < b.size, (b.order h).qty ≠ 0 → h ∈ b.handlesAtLevel (b.order h).side (b.order h).price

/-- The queues hold these orders, and no other cell has shares. -/
structure Kept (b : OrderBook) (A : Sides ℕ) : Prop extends Queued b A where
  kept : ∀ h < b.size, (b.data h).qty ≠ 0 → ∃ s, ∃ o ∈ A s, o.key = h

theorem Queued.kept (hb : Queued b A) (ho : b.Owned) : Kept b A := by
  refine ⟨hb, fun h hh hq => ?_⟩
  obtain ⟨o, hmem, hkey, -⟩ := hb.mem_handles.mp (ho h hh hq)
  exact ⟨_, o, hmem, hkey⟩

/-- A new order changes its own cell only. -/
theorem data_rest (hb : Queued b A) {id : ℕ} (hne : h ≠ (b.rest id s p q).1) : (b.rest id s p q).2.data h = b.data h := by
  obtain ⟨-, hcell, -⟩ := hb.alloc id s p q
  have hdata := (Queued.joins_append hcell.prev s p q).data
  have halloc : b.alloc.2.data h = b.data h := by
    have hne' : h ≠ b.alloc.1 := hne
    unfold OrderBook.alloc at hne' ⊢
    cases hf : b.freeHead with
    | some k => rfl
    | none =>
        rw [hf] at hne'
        exact (congrFun (data_setOrder ..) h).trans (Function.update_of_ne hne' ..)
  have hset := congrFun (data_setOrder (b := b.alloc.2) (h := b.alloc.1) (o := ⟨id, p, q, s, none, none⟩)) h
  rw [Function.update_of_ne (show h ≠ b.alloc.1 from hne), halloc] at hset
  refine Eq.trans ?_ ((congrFun hdata h).trans hset)
  change (improve _ s p).data h = _
  unfold improve
  split_ifs <;> rfl

theorem size_rest (hb : Queued b A) (id : ℕ) (s : Side) (p : ℤ) (q : ℕ) :
    (b.rest id s p q).2.size = b.size ∨ (b.rest id s p q).1 = b.size ∧ (b.rest id s p q).2.size = b.size + 1 := by
  obtain ⟨-, hcell, -⟩ := hb.alloc id s p q
  have hsize : (b.rest id s p q).2.size = b.alloc.2.size := by
    refine Eq.trans ?_ (Queued.joins_append hcell.prev s p q).size
    change (improve _ s p).size = _
    unfold improve
    split_ifs <;> rfl
  rw [hsize]
  change _ ∨ b.alloc.1 = b.size ∧ _
  unfold OrderBook.alloc
  cases b.freeHead with
  | some k => exact .inl rfl
  | none => exact .inr ⟨rfl, rfl⟩

theorem cancel_of_ge (hh : h ≥ b.size) : (b.cancel h).2 = b := by
  unfold OrderBook.cancel
  simp only
  rw [if_pos hh]

theorem cancel_of_zero (hq : (b.order h).qty = 0) : (b.cancel h).2 = b := by
  rw [order] at hq
  unfold OrderBook.cancel
  simp only
  rw [if_pos hq]
  split_ifs <;> rfl

theorem reduce_of_ge (hh : h ≥ b.size) : (b.reduce h q).2 = b := by
  unfold OrderBook.reduce
  simp only
  rw [if_pos hh]

theorem reduce_of_zero (hq : (b.order h).qty = 0) : (b.reduce h q).2 = b := by
  rw [order] at hq
  unfold OrderBook.reduce
  simp only
  rw [if_pos (show (b.pool h).qty = 0 ∨ _ from .inl hq)]
  split_ifs <;> rfl

namespace Kept

theorem owned (hb : Kept b A) : b.Owned := by
  intro h hh hq
  obtain ⟨s, o, ho, rfl⟩ := hb.kept h hh hq
  obtain ⟨-, hprice, hside⟩ := hb.cell ho
  rw [hprice, hside]
  exact hb.mem_handles.mpr ⟨o, ho, rfl, rfl⟩

theorem drop (hb : Kept b A) (ho : o ∈ A s) (hd : Drops b b' s o.price o.key) : Kept b' (A.without s o.key) := by
  refine ⟨hb.toQueued.drop ho hd, fun h hh hq => ?_⟩
  rw [hd.data] at hq
  by_cases hne : h = o.key
  · rw [hne, Function.update_self] at hq
    exact absurd rfl hq
  rw [Function.update_of_ne hne] at hq
  obtain ⟨s', x, hx, rfl⟩ := hb.kept h (by rwa [← hd.size]) hq
  exact ⟨s', x, (Sides.mem_without hb.distinct ho).mpr ⟨hx, hne⟩, rfl⟩

theorem resize (hb : Kept b A) (ho : o ∈ A s) (hq : 0 < q) (hr : Resizes b b' s o.price o.key q) :
    Kept b' (A.resized s o.key q) := by
  refine ⟨hb.toQueued.resize ho hq hr, fun h hh hqty => ?_⟩
  have hold : (b.data h).qty ≠ 0 := by
    rw [hr.data] at hqty
    by_cases hne : h = o.key
    · have hpos := hb.pos s o ho
      have hcell : (b.data o.key).qty = o.qty := hb.order_qty ho
      rw [hne]
      omega
    · rwa [Function.update_of_ne hne] at hqty
  obtain ⟨s', x, hx, rfl⟩ := hb.kept h (by rwa [← hr.size]) hold
  by_cases hk : x.key = o.key
  · exact ⟨s, _, (Sides.mem_resized hb.distinct ho).mpr (.inr ⟨rfl, rfl⟩), hk.symm⟩
  · exact ⟨s', x, (Sides.mem_resized hb.distinct ho).mpr (.inl ⟨hx, hk⟩), rfl⟩

theorem with_best (hb : Kept b A) (best : Side → ℤ) : Kept { b with best := best } A :=
  ⟨hb.toQueued.with_best best, hb.kept⟩

theorem rescanBest (hb : Kept b A) (s : Side) : Kept (b.rescanBest s) A := by
  rw [rescanBest_eq]
  exact hb.with_best _

/-- One turn of the loop of `matchLevel`. -/
theorem trade (hb : Kept b A) (ho : o ∈ A s) (hprev : b.prev o.key = none) (hle : q ≤ o.qty) :
    Kept (b.trade s o.price o.key q) (A.less s o q) := by
  have hqty : (b.data o.key).qty = o.qty := hb.order_qty ho
  unfold Sides.less
  split_ifs with he
  · have hd := drops_trade hprev s o.price
    rw [hqty, ← he] at hd
    exact hb.drop ho hd
  · have hr := resizes_trade (b := b) (h := o.key) (q := q) (by omega) s o.price
    rw [hqty] at hr
    exact hb.resize ho (by omega) hr

theorem matchLoop (hb : Kept b A) (aggId : ℕ) (aggSide s : Side) (p : ℤ) (fuel q : ℕ) :
    ∃ A', Kept (OrderBook.matchLoop aggId aggSide s p fuel b q).1 A' := by
  induction fuel generalizing b A q with
  | zero => exact ⟨A, hb⟩
  | succ fuel ih =>
      rw [OrderBook.matchLoop]
      cases hhead : (b.levels s p).head with
      | none => exact ⟨A, hb⟩
      | some h =>
          simp only
          split_ifs with hq
          · exact ⟨A, hb⟩
          all_goals
            obtain ⟨o, ho, rfl, rfl, hprev⟩ := hb.exists_head hhead
            have hqty : (b.pool o.key).qty = o.qty := hb.order_qty ho
            refine ih (hb.trade ho hprev ?_) _
            omega

theorem matchLevels (hb : Kept b A) (aggId : ℕ) (aggSide : Side) (limit : ℤ) (fuel q : ℕ) :
    ∃ A', Kept (OrderBook.matchLevels aggId aggSide limit fuel b q).1 A' := by
  induction fuel generalizing b A q with
  | zero => exact ⟨A, hb⟩
  | succ fuel ih =>
      rw [OrderBook.matchLevels]
      simp only
      split_ifs
      · obtain ⟨A₁, hb₁⟩ := hb.matchLoop aggId aggSide aggSide.opposite (b.best aggSide.opposite) b.size q
        have hbest : ∃ A', Kept (b.matchBest aggSide.opposite aggId aggSide q).1 A' := by
          unfold matchBest matchLevel
          simp only
          split_ifs
          · exact ⟨A₁, hb₁.rescanBest _⟩
          · exact ⟨A₁, hb₁⟩
        obtain ⟨A₂, hb₂⟩ := hbest
        exact ih hb₂ _
      · exact ⟨A, hb⟩

/-- An order comes to rest in a cell of its own. -/
theorem rest (hb : Kept b A) (id : ℕ) (s : Side) (hq : 0 < q) (hp : b.InRange p) :
    ∃ k, Kept (b.rest id s p q).2 (A.rested s ⟨k, id, p, q⟩) := by
  obtain ⟨k, b', heq, -, hb', -⟩ := hb.toQueued.rest id s hq hp
  have hcells : ∀ h, h ≠ (b.rest id s p q).1 → (b.rest id s p q).2.data h = b.data h := fun h hne => data_rest hb.toQueued hne
  have hsize := size_rest hb.toQueued id s p q
  rw [heq] at hcells hsize ⊢
  refine ⟨k, hb', fun h hh hqty => ?_⟩
  simp only at hcells hsize hh hqty
  by_cases hne : h = k
  · exact ⟨s, _, Sides.mem_rested_iff.mpr (.inr ⟨rfl, rfl⟩), hne.symm⟩
  · rw [hcells h hne] at hqty
    have hlt : h < b.size := by
      rcases hsize with hsize | ⟨hk, hsize⟩ <;> omega
    obtain ⟨s', x, hx, rfl⟩ := hb.kept h hlt hqty
    exact ⟨s', x, Sides.mem_rested_iff.mpr (.inl hx), rfl⟩

theorem cancel (hb : Kept b A) (h : ℕ) : ∃ A', Kept (b.cancel h).2 A' := by
  by_cases hh : h ≥ b.size
  · rw [cancel_of_ge hh]
    exact ⟨A, hb⟩
  by_cases hq : (b.order h).qty = 0
  · rw [cancel_of_zero hq]
    exact ⟨A, hb⟩
  obtain ⟨s, o, ho, rfl⟩ := hb.kept h (Nat.lt_of_not_le hh) hq
  obtain ⟨-, hprice, hside⟩ := hb.cell ho
  have hd := drops_dropOrder b s o.price o.key
  rw [show (b.data o.key).qty = (b.order o.key).qty from rfl] at hd
  have hdrop := hb.drop ho hd
  rw [OrderBook.order] at hprice hside hq hdrop
  unfold OrderBook.cancel
  simp only
  rw [if_neg hh, if_neg hq, hprice, hside]
  simp only
  split_ifs
  · exact ⟨_, hdrop.rescanBest s⟩
  · exact ⟨_, hdrop⟩

theorem reduce (hb : Kept b A) (h newQty : ℕ) : ∃ A', Kept (b.reduce h newQty).2 A' := by
  unfold OrderBook.reduce
  simp only
  split_ifs with hh hno hzero
  · exact ⟨A, hb⟩
  · exact ⟨A, hb⟩
  · exact hb.cancel h
  · obtain ⟨s, o, ho, rfl⟩ := hb.kept h (Nat.lt_of_not_le hh) fun hq => hno (.inl hq)
    obtain ⟨-, hprice, hside⟩ := hb.cell ho
    have hr := resizes_shrinkOrder b s o.price o.key newQty
    rw [OrderBook.order] at hprice hside
    rw [hprice, hside]
    exact ⟨_, hb.resize ho (Nat.pos_of_ne_zero hzero) hr⟩

end Kept

/-! ### Every operation keeps the best prices right -/

/-- The book holds the orders of its queues and their best prices, and no other cell has
shares. The mark for no price is none of its prices. -/
structure Upright (b : OrderBook) : Prop where
  mark : kNoPrice < b.minPrice
  owned : b.Owned
  holds : ∃ A, Holds b A

theorem upright_new {minPrice : ℤ} (hmark : kNoPrice < minPrice) (maxPrice : ℤ) : Upright (new minPrice maxPrice) where
  mark := hmark
  owned := fun h hh => absurd hh (Nat.not_lt_zero h)
  holds := ⟨_, holds_new minPrice maxPrice⟩

namespace Upright

theorem judged (hb : Upright b) : Judged b := hb.holds.choose_spec.judged

theorem of_holds (hb : Upright b) (hrange : SameRange b b') {A' : Sides ℕ} (hkept : ∃ A', Kept b' A') (hholds : Holds b' A') :
    Upright b' :=
  ⟨by rw [hrange.1]; exact hb.mark, hkept.choose_spec.owned, A', hholds⟩

/-- **`cancel` with any handle.** -/
theorem cancel (hb : Upright b) (h : ℕ) : Upright (b.cancel h).2 := by
  obtain ⟨A, hA⟩ := hb.holds
  have hkept := hA.kept hb.owned
  by_cases hh : h ≥ b.size
  · rw [cancel_of_ge hh]
    exact hb
  by_cases hq : (b.order h).qty = 0
  · rw [cancel_of_zero hq]
    exact hb
  obtain ⟨s, o, ho, rfl⟩ := hkept.kept h (Nat.lt_of_not_le hh) hq
  have hcancel := hkept.cancel o.key
  obtain ⟨b', heq, hb', hrange⟩ := hA.cancel_spec ho
  rw [heq] at hcancel ⊢
  exact hb.of_holds hrange hcancel hb'

/-- **`reduce` with any handle.** -/
theorem reduce (hb : Upright b) (h newQty : ℕ) : Upright (b.reduce h newQty).2 := by
  obtain ⟨A, hA⟩ := hb.holds
  have hkept := hA.kept hb.owned
  have hreduce := hkept.reduce h newQty
  by_cases hh : h ≥ b.size
  · rw [reduce_of_ge hh]
    exact hb
  by_cases hq : (b.order h).qty = 0
  · rw [reduce_of_zero hq]
    exact hb
  obtain ⟨s, o, ho, rfl⟩ := hkept.kept h (Nat.lt_of_not_le hh) hq
  by_cases hle : o.qty ≤ newQty
  · rw [hA.reduce_of_le ho hle]
    exact hb
  by_cases hzero : newQty = 0
  · rw [hzero, hA.reduce_zero ho]
    exact hb.cancel o.key
  obtain ⟨b', heq, hb', hrange⟩ := hA.reduce_spec ho (Nat.pos_of_ne_zero hzero) (Nat.lt_of_not_le hle)
  rw [heq] at hreduce ⊢
  exact hb.of_holds hrange hreduce hb'

/-- **`match`**: the orders that trade leave or lose shares. -/
theorem «match» (hb : Upright b) (id : ℕ) (side : Side) (p : ℤ) (q : ℕ) :
    Upright (b.match id side p q).1 ∧ SameRange b (b.match id side p q).1 := by
  obtain ⟨A, hA⟩ := hb.holds
  by_cases hno : q = 0 ∨ ¬ b.InRange p
  · rw [OrderBook.match, if_pos hno]
    exact ⟨hb, rfl, rfl⟩
  have hp : b.InRange p := by tauto
  obtain ⟨b', heq, hb', hrange⟩ := hA.match_spec hb.mark (by tauto) hp id side
  have hkept : ∃ A', Kept (b.match id side p q).1 A' := by
    rw [OrderBook.match, if_neg hno]
    exact (hA.kept hb.owned).matchLevels ..
  rw [heq] at hkept ⊢
  exact ⟨hb.of_holds hrange hkept hb', hrange⟩

/-- An order comes to rest where the levels have room for it. -/
theorem rest (hb : Upright b) (id : ℕ) (s : Side) (hq : 0 < q) (hp : b.InRange p)
    (hroomy : Roomy (b.rest id s p q).2) : Upright (b.rest id s p q).2 := by
  obtain ⟨A, hA⟩ := hb.holds
  obtain ⟨k, hkept⟩ := (hA.kept hb.owned).rest id s hq hp
  have hroom : shares (level (A s) p) + q < 2 ^ 32 := by
    have hsum := hroomy s p
    have hlevel := hA.level_update_enqueue (s := s) ⟨k, id, p, q⟩ s p
    rw [if_pos rfl] at hlevel
    rw [hkept.queuedAt_eq, Sides.rested, hlevel] at hsum
    simpa using hsum
  obtain ⟨k', b', heq, -, hb', hrange⟩ := rest_enqueue hA hb.mark hq hp hroom id
  rw [heq] at hkept ⊢
  exact hb.of_holds hrange ⟨_, hkept⟩ hb'

/-- **`place`**, where the levels have room after it. -/
theorem place (hb : Upright b) (id : ℕ) (s : Side) (p : ℤ) (q : ℕ) (hroomy : Roomy (b.place id s p q).2) :
    Upright (b.place id s p q).2 := by
  unfold OrderBook.place at hroomy ⊢
  split_ifs at hroomy ⊢ with hno
  · exact hb
  · exact hb.rest id s (by omega) (by tauto) hroomy

/-- **`add`**, where the levels have room after it. -/
theorem add (hb : Upright b) (id : ℕ) (side : Side) (p : ℤ) (q : ℕ) (hroomy : Roomy (b.add id side p q).2.1) :
    Upright (b.add id side p q).2.1 := by
  obtain ⟨hmatch, hrange⟩ := hb.match id side p q
  unfold OrderBook.add at hroomy ⊢
  simp only at hroomy ⊢
  split_ifs at hroomy ⊢ with hno hrem
  · exact hb
  · have hp : b.InRange p := by tauto
    exact hmatch.rest id side hrem (by rw [InRange, hrange.1, hrange.2]; exact hp) hroomy
  · exact hmatch

theorem clear (hb : Upright b) : Upright b.clear := upright_new hb.mark _

end Upright

end TickToTrade.OrderBook
